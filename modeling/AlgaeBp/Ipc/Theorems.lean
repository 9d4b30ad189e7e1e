import AlgaeBp.Ipc.Scan
/-!
# Theorems about the message channel

What `ipc1_write` frames is what `ipc1_input_msg` gets, however the stream is
cut. On other streams the receiver keeps in step only as long as every
message is followed by the leading bytes of the next one.
-/
open Bytes

namespace AlgaeBp.Ipc

/-! ## Frames -/

/-- A message that carries the leading bytes and as many payload bytes as it announces, and fits the buffer. -/
structure Msg.Frame (m : Msg) : Prop where
  leading : m.leading = leadingBytes
  length : m.length.toNat = m.val.length
  fits : m.val.length ≤ maxLength

theorem Msg.Frame.bytes_eq {m : Msg} (h : m.Frame) :
    m.bytes = leadingBytes ++ (le16 m.seq ++ le16 m.type ++ le16 m.length ++ m.val) := by
  unfold Msg.bytes Msg.header
  rw [h.leading]
  simp only [List.append_assoc]

theorem Msg.Frame.length_bytes {m : Msg} (h : m.Frame) : m.bytes.length = hdrLen + m.val.length := by
  rw [h.bytes_eq]
  simp [leadingBytes, hdrLen]
  omega

theorem Msg.Frame.ofBytes {m : Msg} (h : m.Frame) : Msg.ofBytes m.bytes = m := by
  have hl := h.leading
  rw [h.bytes_eq]
  obtain ⟨leading, seq, type, length, val⟩ := m
  simp only at hl
  subst hl
  unfold Msg.ofBytes
  simp [leadingBytes, le16, field16, hdrLen, word16_le16]

theorem Msg.Frame.announced {m : Msg} (h : m.Frame) : announced m.bytes = m.val.length := by
  have : field16 m.bytes 8 = m.length := congrArg Msg.length h.ofBytes
  unfold Ipc.announced
  rw [this, h.length]

/-- A frame at the head of the stream is cut off whole. -/
theorem scan_frame {m : Msg} (h : m.Frame) (hunting : Bool) (t : List UInt8) :
    scan hunting (m.bytes ++ t) = (⟨m.bytes, t⟩ :: (scan false t).1, (scan false t).2) := by
  have hlen := h.length_bytes
  have hle : hdrLen ≤ m.bytes.length := by omega
  have hann : Ipc.announced (m.bytes ++ t) = m.val.length := by rw [announced_append hle, h.announced]
  have hle' : hdrLen ≤ (m.bytes ++ t).length := by rw [List.length_append]; omega
  rw [scan_accepted hle' (fun _ => by rw [leading_append hle, h.bytes_eq]; exact List.prefix_append ..),
    scan_message hle' (by rw [hann]; exact h.fits) (by rw [hann, List.length_append]; omega), hann, ← hlen,
    List.take_left, List.drop_left]

/-! ## What the sender writes -/

/-- With a socket that always takes something, the whole text is written. -/
theorem writeLoop_all (sk : Socket) (hok : ∀ i, ∃ k, sk.results i = .wrote k) (fuel : Nat) (todo : List UInt8)
    (hf : todo.length ≤ fuel) :
    ∃ sk', writeLoop fuel sk todo = (sk', 0) ∧ sk'.taken = sk.taken ++ todo ∧ sk'.results = sk.results := by
  induction fuel generalizing sk todo with
  | zero =>
    have : todo = [] := List.length_eq_zero_iff.1 (by omega)
    subst this
    exact ⟨sk, rfl, by simp, rfl⟩
  | succ fuel ih =>
    unfold writeLoop
    by_cases hn : todo = []
    · rw [if_pos hn]
      exact ⟨sk, rfl, by simp [hn], rfl⟩
    · obtain ⟨k, hk⟩ := hok sk.writes
      have hpos := List.length_pos_iff.2 hn
      rw [if_neg hn]
      simp only [Socket.write, hk]
      obtain ⟨sk', h₁, h₂, h₃⟩ := ih { sk with writes := sk.writes + 1, taken := sk.taken ++ todo.take (k + 1) } hok
        (todo.drop (k + 1)) (by rw [List.length_drop]; omega)
      refine ⟨sk', h₁, ?_, h₃⟩
      rw [h₂]
      simp only [List.append_assoc, List.take_append_drop]

theorem ipc1Write_all {w : Sender} (hok : ∀ i, ∃ k, w.socket.results i = .wrote k) (c : Call) :
    (ipc1Write w c).1.socket.taken = w.socket.taken ++ (c.msg (ipc1Write w c).2.2).bytes ∧
      (ipc1Write w c).1.socket.results = w.socket.results ∧ (ipc1Write w c).2.1 = c.data.length := by
  obtain ⟨sk₁, h₁, ht₁, hr₁⟩ := writeLoop_all w.socket hok hdrLen (c.msg w.msgSeq.toUInt16).header (by
    simp [Msg.header, Call.msg, leadingBytes, hdrLen])
  obtain ⟨sk₂, h₂, ht₂, hr₂⟩ := writeLoop_all sk₁ (by rw [hr₁]; exact hok) c.data.length c.data le_rfl
  unfold ipc1Write
  simp only [h₁, h₂]
  refine ⟨?_, hr₂.trans hr₁, Nat.sub_zero _⟩
  rw [ht₂, ht₁, List.append_assoc]
  rfl

/-- The messages of a sequence of calls, with the sequence numbers reported for them. -/
def messagesOf (seqs : List UInt16) (calls : List Call) : List Msg := List.zipWith (fun q c => c.msg q) seqs calls

theorem writeAll_taken {w : Sender} (hok : ∀ i, ∃ k, w.socket.results i = .wrote k) (calls : List Call) :
    (writeAll w calls).1.socket.taken =
      w.socket.taken ++ ((messagesOf (writeAll w calls).2 calls).map Msg.bytes).flatten := by
  induction calls generalizing w with
  | nil => simp [writeAll, messagesOf]
  | cons c rest ih =>
    obtain ⟨ht, hr, -⟩ := ipc1Write_all hok c
    simp only [writeAll]
    rw [ih (by rw [hr]; exact hok), ht]
    simp [messagesOf]

theorem writeAll_length (w : Sender) (calls : List Call) : (writeAll w calls).2.length = calls.length := by
  induction calls generalizing w with
  | nil => rfl
  | cons c rest ih =>
    simp only [writeAll, List.length_cons]
    rw [ih]

theorem Call.frame {c : Call} (h : c.data.length ≤ maxLength) (q : UInt16) : (c.msg q).Frame := by
  refine ⟨rfl, ?_, h⟩
  show (UInt16.ofNat c.data.length).toNat = c.data.length
  have : maxLength < 2 ^ 16 := by decide
  rw [UInt16.toNat_ofNat', Nat.mod_eq_of_lt (by omega)]

theorem messagesOf_frames {calls : List Call} (h : ∀ c ∈ calls, c.data.length ≤ maxLength) (seqs : List UInt16) :
    ∀ m ∈ messagesOf seqs calls, m.Frame := by
  induction calls generalizing seqs with
  | nil => simp [messagesOf]
  | cons c rest ih =>
    cases seqs with
    | nil => simp [messagesOf]
    | cons q seqs =>
      intro m hm
      rcases List.mem_cons.1 hm with rfl | hm
      · exact Call.frame (h c List.mem_cons_self) q
      · exact ih (fun c' hc' => h c' (List.mem_cons_of_mem c hc')) seqs m hm

/-! ## The round trip -/

/-- The messages handed to `ipc1_input_msg`, each with the bytes taken by then. -/
def deliveries (log : List (Nat × Event)) : List (Nat × Msg) :=
  log.filterMap (fun e => match e with
    | (n, .message m) => some (n, m)
    | _ => none)

/-- Each message is due with its last byte. -/
def due (start : Nat) : List Msg → List (Nat × Msg)
  | [] => []
  | m :: rest => (start + m.bytes.length, m) :: due (start + m.bytes.length) rest

theorem deliveries_append (l l' : List (Nat × Event)) : deliveries (l ++ l') = deliveries l ++ deliveries l' :=
  List.filterMap_append ..

theorem deliveries_stamped (pf : Platform) (fed : Nat) (bs : List UInt8) :
    deliveries (stamped pf fed bs) = [(fed, Msg.ofBytes bs)] := by
  unfold stamped Msg.events
  split <;> rfl

/-- A stream of frames is cut into these frames, each with its last byte. -/
theorem scan_frames (pf : Platform) {ms : List Msg} (h : ∀ m ∈ ms, m.Frame) (hunting : Bool) (start : Nat) :
    (scan hunting (ms.map Msg.bytes).flatten).2.bytes = [] ∧
      deliveries ((scan hunting (ms.map Msg.bytes).flatten).1.flatMap
        (Cut.entries pf (start + (ms.map Msg.bytes).flatten.length))) = due start ms := by
  induction ms generalizing hunting start with
  | nil =>
    rw [List.map_nil, List.flatten_nil, scan_short (by decide)]
    exact ⟨rfl, rfl⟩
  | cons m rest ih =>
    obtain ⟨h₁, h₂⟩ := ih (fun m' hm' => h m' (List.mem_cons_of_mem m hm')) false (start + m.bytes.length)
    rw [List.map_cons, List.flatten_cons, scan_frame (h m List.mem_cons_self)]
    refine ⟨h₁, ?_⟩
    rw [List.flatMap_cons, deliveries_append, List.length_append, ← Nat.add_assoc, h₂]
    unfold Cut.entries
    rw [deliveries_stamped, Nat.add_sub_cancel, (h m List.mem_cons_self).ofBytes]
    rfl

/-- **Framing round trip.** Whatever the calls of `ipc1_write` sent, however
the socket cut their writes and the receiver's reads: `ipc1_input_msg` gets
each message once, in order, with its last byte, and the buffer ends empty. -/
theorem input_roundtrip (pf : Platform) (w : Sender) (calls : List Call) (reads : List (List UInt8))
    (hfresh : w.socket.taken = []) (hok : ∀ i, ∃ k, w.socket.results i = .wrote k)
    (hlen : ∀ c ∈ calls, c.data.length ≤ 2038)
    (hreads : reads.flatten = (writeAll w calls).1.socket.taken) :
    ∃ s, inputReads pf .init reads = some s ∧
      deliveries s.log = due 0 (messagesOf (writeAll w calls).2 calls) ∧
      (writeAll w calls).2.length = calls.length ∧ s.ipc.msgFbPos = 0 := by
  have hstream : reads.flatten = ((messagesOf (writeAll w calls).2 calls).map Msg.bytes).flatten := by
    rw [hreads, writeAll_taken hok, hfresh, List.nil_append]
  obtain ⟨s, hs, hh, hl⟩ := inputReads_scan pf reads
  obtain ⟨hheld, hdel⟩ := scan_frames pf (messagesOf_frames hlen (writeAll w calls).2) true 0
  rw [hstream] at hh hl
  refine ⟨s, hs, ?_, writeAll_length w calls, ?_⟩
  · rw [hl, ← hdel, Nat.zero_add]
  · rw [hh.pos, hheld]
    rfl

def twoByTwo : Sender := ⟨1, ⟨fun _ => .wrote 1, 0, []⟩⟩
def small : Platform := ⟨2, fun _ => 0⟩

/-- Two messages, one of them empty, written two bytes at a time and read in three pieces. -/
theorem input_roundtrip_two :
    ∃ s, inputReads small .init [[1, 0xa5, 1], [0x5a, 1, 0, 7, 0, 1, 0, 9, 1, 0xa5], [1, 0x5a, 2, 0, 3, 0, 0, 0]] = some s ∧
      deliveries s.log = due 0 [⟨leadingBytes, 1, 7, 1, [9]⟩, ⟨leadingBytes, 2, 3, 0, []⟩] ∧ s.ipc.msgFbPos = 0 := by
  obtain ⟨s, hs, hd, -, hp⟩ := input_roundtrip small twoByTwo [⟨7, [9]⟩, ⟨3, []⟩]
    [[1, 0xa5, 1], [0x5a, 1, 0, 7, 0, 1, 0, 9, 1, 0xa5], [1, 0x5a, 2, 0, 3, 0, 0, 0]]
    rfl (fun _ => ⟨1, rfl⟩) (by decide) (by decide)
  exact ⟨s, hs, hd, hp⟩

/-! ## Cuts of any stream -/

/-- A cut is a part of the stream, as long as it announces, and ends where the rest begins. -/
theorem scan_part {hunting : Bool} {s : List UInt8} {c : Cut} (hc : c ∈ (scan hunting s).1) :
    (∃ u, s = u ++ c.msg ++ c.rest) ∧ c.msg.length = hdrLen + announced c.msg ∧ announced c.msg ≤ maxLength := by
  -- case by case of the scan: too short, a byte skipped, incomplete, a cut, over-long
  fun_induction scan hunting s with
  | case1 => simp at hc
  | case2 hunting r hshort hskip ih =>
    obtain ⟨⟨u, hu⟩, h⟩ := ih hc
    have hne : r ≠ [] := by
      intro hn
      simp [hn, hdrLen] at hshort
    refine ⟨⟨r.head hne :: u, ?_⟩, h⟩
    conv => lhs; rw [← List.cons_head_tail hne]
    rw [hu]
    simp
  | case3 => simp at hc
  | case4 hunting r hshort hacc hmax hfull t ih =>
    rcases List.mem_cons.1 hc with rfl | hc
    · have hlen : (r.take (hdrLen + announced r)).length = hdrLen + announced r := by
        rw [List.length_take]
        omega
      have hann : announced (r.take (hdrLen + announced r)) = announced r := announced_take (by omega)
      exact ⟨⟨[], by simp⟩, by rw [hlen, hann], by rw [hann]; exact hmax⟩
    · obtain ⟨⟨u, hu⟩, h⟩ := ih hc
      refine ⟨⟨r.take (hdrLen + announced r) ++ u, ?_⟩, h⟩
      conv => lhs; rw [← List.take_append_drop (hdrLen + announced r) r, hu]
      simp
  | case5 => simp at hc
  | case6 hunting r hshort hacc hmax hfull ih =>
    obtain ⟨⟨u, hu⟩, h⟩ := ih hc
    refine ⟨⟨r.take cap ++ u, ?_⟩, h⟩
    conv => lhs; rw [← List.take_append_drop cap r, hu]
    simp

theorem scan_part_length {hunting : Bool} {s : List UInt8} {c : Cut} (hc : c ∈ (scan hunting s).1) :
    c.msg.length + c.rest.length ≤ s.length ∧ hdrLen ≤ c.msg.length := by
  obtain ⟨⟨u, hu⟩, hlen, -⟩ := scan_part hc
  have := congrArg List.length hu
  simp only [List.length_append] at this
  omega

theorem length_before {s u m r : List UInt8} (h : s = u ++ m ++ r) : s.length - r.length = (u ++ m).length := by
  have := congrArg List.length h
  simp only [List.length_append] at this ⊢
  omega

/-- The part of the stream after a cut is its tail of that length. -/
theorem scan_rest {hunting : Bool} {s : List UInt8} {c : Cut} (hc : c ∈ (scan hunting s).1) :
    c.rest = s.drop (s.length - c.rest.length) := by
  obtain ⟨⟨u, hu⟩, -, -⟩ := scan_part hc
  rw [length_before hu, hu, List.drop_left]

/-- After a cut the receiver goes on without looking for leading bytes. -/
theorem scan_resume {hunting : Bool} {s : List UInt8} {c d : Cut} (hc : c ∈ (scan hunting s).1)
    (hd : d ∈ (scan false c.rest).1) : d ∈ (scan hunting s).1 := by
  fun_induction scan hunting s with
  | case1 => simp at hc
  | case2 hunting r hshort hskip ih => exact ih hc
  | case3 => simp at hc
  | case4 hunting r hshort hacc hmax hfull t ih =>
    apply List.mem_cons_of_mem
    rcases List.mem_cons.1 hc with rfl | hc
    · exact hd
    · exact ih hc
  | case5 => simp at hc
  | case6 hunting r hshort hacc hmax hfull ih => exact ih hc

/-- The later of two cuts is a cut of what follows the earlier one. -/
theorem scan_later {hunting : Bool} {s : List UInt8} {c d : Cut} (hc : c ∈ (scan hunting s).1)
    (hd : d ∈ (scan hunting s).1) (hlt : d.rest.length < c.rest.length) : d ∈ (scan false c.rest).1 := by
  fun_induction scan hunting s with
  | case1 => simp at hc
  | case2 hunting r hshort hskip ih => exact ih hc hd
  | case3 => simp at hc
  | case4 hunting r hshort hacc hmax hfull t ih =>
    rcases List.mem_cons.1 hc with rfl | hc
    · rcases List.mem_cons.1 hd with rfl | hd
      · exact absurd hlt (lt_irrefl _)
      · exact hd
    · rcases List.mem_cons.1 hd with rfl | hd
      · have := (scan_part_length hc).1
        simp only at hlt
        omega
      · exact ih hc hd
  | case5 => simp at hc
  | case6 hunting r hshort hacc hmax hfull ih => exact ih hc hd

/-- No two cuts end at the same place. -/
theorem scan_unique {hunting : Bool} {s : List UInt8} {c d : Cut} (hc : c ∈ (scan hunting s).1)
    (hd : d ∈ (scan hunting s).1) (heq : c.rest.length = d.rest.length) : c = d := by
  have h10 : hdrLen = 10 := rfl
  -- a later cut leaves less behind it, at least by its own header
  fun_induction scan hunting s with
  | case1 => simp at hc
  | case2 hunting r hshort hskip ih => exact ih hc hd
  | case3 => simp at hc
  | case4 hunting r hshort hacc hmax hfull t ih =>
    rcases List.mem_cons.1 hc with hc' | hc'
    · rcases List.mem_cons.1 hd with hd' | hd'
      · rw [hc', hd']
      · have := scan_part_length hd'
        rw [hc'] at heq
        simp only at heq
        omega
    · rcases List.mem_cons.1 hd with hd' | hd'
      · have := scan_part_length hc'
        rw [hd'] at heq
        simp only at heq
        omega
      · exact ih hc' hd'
  | case5 => simp at hc
  | case6 hunting r hshort hacc hmax hfull ih => exact ih hc hd

/-! ## Garbage -/

/-- The leading bytes do not overlap themselves: behind bytes without them they are found where they stand. -/
theorem leading_unmasked {g t : List UInt8} (h : ¬ leadingBytes <:+: g) (hp : leadingBytes <+: g ++ leadingBytes ++ t) :
    g = [] := by
  match g with
  | [] => rfl
  | [a] => simp [leadingBytes] at hp
  | [a, b] => simp [leadingBytes] at hp
  | [a, b, c] => simp [leadingBytes] at hp
  | a :: b :: c :: d :: g =>
    refine absurd (List.IsPrefix.isInfix ?_) h
    rw [List.append_assoc] at hp
    exact List.prefix_of_prefix_length_le hp (List.prefix_append _ _) (by simp [leadingBytes])

/-- Behind bytes without leading bytes a stream is found where it begins with them. -/
theorem scan_clean {g r : List UInt8} (hg : ¬ leadingBytes <:+: g) (hr : leadingBytes <+: r) (hlen : hdrLen ≤ r.length) :
    scan true (g ++ r) = scan true r := by
  obtain ⟨t, rfl⟩ := hr
  induction g with
  | nil => rfl
  | cons b g ih =>
    have hno : ¬ leadingBytes <+: b :: g ++ (leadingBytes ++ t) := by
      intro hp
      rw [← List.append_assoc] at hp
      exact absurd (leading_unmasked hg hp) (List.cons_ne_nil b g)
    rw [scan_skip (by simp only [List.length_append] at hlen ⊢; omega) hno]
    exact ih (fun hi => hg (hi.trans (List.suffix_cons b g).isInfix))

/-- While hunting, bytes without the leading bytes are skipped up to the next frame. -/
theorem scan_garbage {m : Msg} (hm : m.Frame) {g : List UInt8} (h : ¬ leadingBytes <:+: g) (t : List UInt8) :
    scan true (g ++ m.bytes ++ t) = scan true (m.bytes ++ t) := by
  have hlen := hm.length_bytes
  rw [List.append_assoc]
  refine scan_clean h ?_ (by rw [List.length_append]; omega)
  rw [hm.bytes_eq, List.append_assoc]
  exact List.prefix_append ..

/-! ## Trusting only frames -/

/-- What the receiver promises about a stream and its log: messages are parts
of the stream that start with the leading bytes and have the length they
announce; bytes without leading bytes between two frames do not cost the
second frame; and what is called is the pointer and the argument of a callback
message that holds them. -/
structure Trusts (pf : Platform) (stream : List UInt8) (log : List (Nat × Event)) : Prop where
  framed : ∀ n m, (n, .message m) ∈ log →
    m.leading = leadingBytes ∧ m.length.toNat = m.val.length ∧ ∃ u, stream.take n = u ++ m.bytes
  resumes : ∀ u m₁ g m₂ t, stream = u ++ m₁.bytes ++ g ++ m₂.bytes ++ t → m₁.Frame → m₂.Frame →
    ¬ leadingBytes <:+: g → ((u ++ m₁.bytes).length, .message m₁) ∈ log →
    ((u ++ m₁.bytes ++ g ++ m₂.bytes).length, .message m₂) ∈ log
  calls : ∀ n func cbarg, (n, .call func cbarg) ∈ log → ∃ m, (n, .message m) ∈ log ∧ m.type = typeCallback1 ∧
    pf.ptrSize ≤ m.length.toNat ∧ func = leNat (m.val.take pf.ptrSize) ∧
    cbarg = if pf.ptrSize + pf.ptrSize ≤ m.length.toNat then leNat ((m.val.drop pf.ptrSize).take pf.ptrSize) else 0

/-- What may follow a message. Usually the leading bytes of the next one.
Anything else is taken for a header all the same; it does no harm when it
does not complete a message and no frame stands in it, at least not before
the receiver gave up a full buffer over the length it read there. -/
def InStep (r : List UInt8) : Prop :=
  leadingBytes <+: r ∨
    ¬ (announced r ≤ maxLength ∧ hdrLen ≤ r.length ∧ hdrLen + announced r ≤ r.length) ∧
      ∀ (g : List UInt8) (m : Msg) (t : List UInt8), r = g ++ m.bytes ++ t → m.Frame → ¬ leadingBytes <:+: g →
        maxLength < announced r ∧ cap ≤ g.length

/-- The streams the receiver deals with as promised: all that follows its
messages is in step, and no callback message is too short for a function
pointer while the stack holds something else than `NULL` in its place. -/
def KeepsStep (pf : Platform) (stream : List UInt8) : Prop :=
  ∀ c ∈ (scan true stream).1, InStep c.rest ∧
    (field16 c.msg 6 = typeCallback1 → announced c.msg < pf.ptrSize → pf.stack (stream.length - c.rest.length) = 0)

theorem mem_entries_message {pf : Platform} {total n : Nat} {m : Msg} {cuts : List Cut} :
    (n, .message m) ∈ cuts.flatMap (Cut.entries pf total) ↔
      ∃ c ∈ cuts, n = total - c.rest.length ∧ m = Msg.ofBytes c.msg := by
  simp only [List.mem_flatMap, Cut.entries, stamped, Msg.events]
  refine exists_congr fun c => and_congr_right fun _ => ?_
  split <;> simp

theorem mem_entries_call {pf : Platform} {total n func cbarg : Nat} {cuts : List Cut} :
    (n, .call func cbarg) ∈ cuts.flatMap (Cut.entries pf total) ↔
      ∃ c ∈ cuts, n = total - c.rest.length ∧ ((Msg.ofBytes c.msg).type = typeCallback1 ∧
        (Msg.ofBytes c.msg).func pf (total - c.rest.length) ≠ 0) ∧
        func = (Msg.ofBytes c.msg).func pf (total - c.rest.length) ∧ cbarg = (Msg.ofBytes c.msg).cbarg pf := by
  simp only [List.mem_flatMap, Cut.entries, stamped, Msg.events]
  refine exists_congr fun c => and_congr_right fun _ => ?_
  split
  · rename_i h
    simp [h]
  · rename_i h
    simp [h]

/-- A cut with the leading bytes is a frame. -/
theorem cut_frame {hunting : Bool} {s : List UInt8} {c : Cut} (hc : c ∈ (scan hunting s).1)
    (hl : (Msg.ofBytes c.msg).leading = leadingBytes) : (Msg.ofBytes c.msg).Frame := by
  obtain ⟨-, hlen, hmax⟩ := scan_part hc
  have hval : (Msg.ofBytes c.msg).val.length = announced c.msg := by
    show (c.msg.drop hdrLen).length = _
    rw [List.length_drop]
    omega
  exact ⟨hl, hval.symm, by rw [hval]; exact hmax⟩

/-- Where the receiver keeps in step, every message carries the leading bytes. -/
theorem scan_leading {hunting : Bool} {s : List UInt8} (hs : hunting = false → InStep s)
    (h : ∀ c ∈ (scan hunting s).1, InStep c.rest) {c : Cut} (hc : c ∈ (scan hunting s).1) :
    leadingBytes <+: c.msg := by
  fun_induction scan hunting s with
  | case1 => simp at hc
  | case2 hunting r hshort hskip ih => exact ih (by simp) h hc
  | case3 => simp at hc
  | case4 hunting r hshort hacc hmax hfull t ih =>
    rcases List.mem_cons.1 hc with rfl | hc
    · have hlead : leadingBytes <+: r := by
        cases hh : hunting with
        | true =>
          by_contra hn
          exact hacc ⟨hh, hn⟩
        | false =>
          rcases hs hh with hl | ⟨hn, -⟩
          · exact hl
          · exact absurd ⟨hmax, by omega, by omega⟩ hn
      have h10 : hdrLen = 10 := rfl
      rw [List.prefix_take_iff]
      exact ⟨hlead, by simp [leadingBytes]; omega⟩
    · exact ih (fun _ => h _ List.mem_cons_self) (fun d hd => h d (List.mem_cons_of_mem _ hd)) hc
  | case5 => simp at hc
  | case6 hunting r hshort hacc hmax hfull ih => exact ih (by simp) h hc

/-- The frame after garbage is taken when the receiver is in step there. -/
theorem inStep_frame {g t : List UInt8} {m : Msg} (hr : InStep (g ++ m.bytes ++ t)) (hm : m.Frame)
    (hg : ¬ leadingBytes <:+: g) : ⟨m.bytes, t⟩ ∈ (scan false (g ++ m.bytes ++ t)).1 := by
  rcases hr with hl | ⟨-, hfar⟩
  · have hnil : g = [] := by
      rw [hm.bytes_eq, ← List.append_assoc, List.append_assoc _ _ t] at hl
      exact leading_unmasked hg hl
    rw [hnil, List.nil_append, scan_frame hm]
    exact List.mem_cons_self
  · obtain ⟨hover, hlong⟩ := hfar g m t rfl hm hg
    have hpos : 0 < m.bytes.length := by rw [hm.length_bytes]; exact Nat.add_pos_left (by decide) _
    rw [scan_overlong hover (by simp only [List.length_append]; omega), List.append_assoc,
      List.drop_append_of_le_length hlong, ← List.append_assoc,
      scan_garbage hm (fun hi => hg (hi.trans (List.drop_suffix cap g).isInfix)), scan_frame hm]
    exact List.mem_cons_self

theorem trusts_of_keepsStep {pf : Platform} {s : List UInt8} (h : KeepsStep pf s) :
    Trusts pf s ((scan true s).1.flatMap (Cut.entries pf s.length)) := by
  have hlead : ∀ c ∈ (scan true s).1, (Msg.ofBytes c.msg).leading = leadingBytes := by
    intro c hc
    have hp := scan_leading (by simp) (fun d hd => (h d hd).1) hc
    exact take_leading.2 hp
  refine ⟨?_, ?_, ?_⟩
  · intro n m hm
    obtain ⟨c, hc, rfl, rfl⟩ := mem_entries_message.1 hm
    obtain ⟨⟨u, hu⟩, hlen, -⟩ := scan_part hc
    have hf := cut_frame hc (hlead c hc)
    refine ⟨hf.leading, hf.length, u, ?_⟩
    rw [ofBytes_bytes _ (by omega), length_before hu]
    conv => lhs; rw [hu, List.take_left]
  · intro u m₁ g m₂ t hs hm₁ hm₂ hg hlog
    obtain ⟨c, hc, hn, -⟩ := mem_entries_message.1 hlog
    have hrest : c.rest = g ++ m₂.bytes ++ t := by
      rw [scan_rest hc, ← hn, hs]
      simp only [List.append_assoc, List.drop_append, List.length_append]
      simp
    have hmem := inStep_frame (hrest ▸ (h c hc).1) hm₂ hg
    rw [← hrest] at hmem
    refine mem_entries_message.2 ⟨⟨m₂.bytes, t⟩, scan_resume hc hmem, ?_, hm₂.ofBytes.symm⟩
    rw [hs]
    simp only [List.length_append]
    omega
  · intro n func cbarg hcall
    obtain ⟨c, hc, rfl, ⟨ht, hne⟩, rfl, rfl⟩ := mem_entries_call.1 hcall
    have hlong : pf.ptrSize ≤ (Msg.ofBytes c.msg).length.toNat := by
      by_contra hshort
      apply hne
      unfold Msg.func
      rw [if_neg hshort]
      exact (h c hc).2 ht (not_le.1 hshort)
    refine ⟨_, mem_entries_message.2 ⟨c, hc, rfl, rfl⟩, ht, hlong, ?_, rfl⟩
    unfold Msg.func
    rw [if_pos hlong]

/-- A message taken from garbage betrays itself, and so does a frame that is lost. -/
theorem inStep_of_trusts {pf : Platform} {s : List UInt8} {c : Cut}
    (h : Trusts pf s ((scan true s).1.flatMap (Cut.entries pf s.length))) (hc : c ∈ (scan true s).1) :
    InStep c.rest := by
  by_cases hl : leadingBytes <+: c.rest
  · exact .inl hl
  have hno : ¬ (announced c.rest ≤ maxLength ∧ hdrLen ≤ c.rest.length ∧
      hdrLen + announced c.rest ≤ c.rest.length) := by
    rintro ⟨hmax, hle, hfull⟩
    have hnext := scan_message hle hmax hfull
    have hd : ⟨c.rest.take (hdrLen + announced c.rest), c.rest.drop (hdrLen + announced c.rest)⟩ ∈ (scan true s).1 := by
      apply scan_resume hc
      rw [hnext]
      exact List.mem_cons_self
    have hlead := (h.framed _ _ (mem_entries_message.2 ⟨_, hd, rfl, rfl⟩)).1
    apply hl
    apply take_leading.1
    have : (c.rest.take (hdrLen + announced c.rest)).take 4 = leadingBytes := hlead
    rwa [List.take_take, Nat.min_eq_left (by rw [show hdrLen = 10 from rfl]; omega)] at this
  refine .inr ⟨hno, ?_⟩
  intro g m t hr hm hg
  obtain ⟨⟨u, hu⟩, -, -⟩ := scan_part hc
  have hf := cut_frame hc (h.framed _ _ (mem_entries_message.2 ⟨c, hc, rfl, rfl⟩)).1
  have hbytes := ofBytes_bytes c.msg (scan_part_length hc).2
  have hs : s = u ++ (Msg.ofBytes c.msg).bytes ++ g ++ m.bytes ++ t := by
    rw [hbytes, hu, hr]
    simp only [List.append_assoc]
  have hstamp : s.length - c.rest.length = (u ++ (Msg.ofBytes c.msg).bytes).length := by
    rw [hbytes]
    exact length_before hu
  obtain ⟨d, hd, hn, hmd⟩ := mem_entries_message.1 (h.resumes u _ g m t hs hf hm hg
    (mem_entries_message.2 ⟨c, hc, hstamp.symm, rfl⟩))
  have hdm : d.msg.length = m.bytes.length := by rw [hmd, ofBytes_bytes d.msg (scan_part_length hd).2]
  have hlen := congrArg List.length hs
  have hrlen := congrArg List.length hr
  have hdlen := (scan_part_length hd).1
  have hmlen := hm.length_bytes
  have h10 : hdrLen = 10 := rfl
  simp only [List.length_append] at hlen hrlen hn
  have hmem := scan_later hc hd (by omega)
  -- the frame was found behind the bogus header, so a full buffer was given up before it
  have hover : maxLength < announced c.rest := by
    by_contra hmax
    rw [scan, if_neg (by omega), if_neg (by simp), if_pos (by omega)] at hmem
    by_cases hw : c.rest.length < hdrLen + announced c.rest
    · rw [if_pos hw] at hmem
      simp at hmem
    · exact hno ⟨by omega, by omega, by omega⟩
  have hlong : cap < c.rest.length := by
    by_contra hshort
    rw [scan, if_neg (by omega), if_neg (by simp), if_neg (by omega), if_pos (by omega)] at hmem
    simp at hmem
  rw [scan_overlong hover hlong] at hmem
  have hdlen' := (scan_part_length hmem).1
  rw [List.length_drop] at hdlen'
  exact ⟨hover, by omega⟩

theorem keepsStep_of_trusts {pf : Platform} {s : List UInt8}
    (h : Trusts pf s ((scan true s).1.flatMap (Cut.entries pf s.length))) : KeepsStep pf s := by
  intro c hc
  refine ⟨inStep_of_trusts h hc, fun ht hshort => ?_⟩
  by_contra hne
  have hfunc : (Msg.ofBytes c.msg).func pf (s.length - c.rest.length) = pf.stack (s.length - c.rest.length) :=
    if_neg (not_le.2 hshort)
  obtain ⟨m, hm, -, hlong, -⟩ := h.calls _ _ _
    (mem_entries_call.2 ⟨c, hc, rfl, ⟨ht, by rw [hfunc]; exact hne⟩, rfl, rfl⟩)
  obtain ⟨d, hd, hn, rfl⟩ := mem_entries_message.1 hm
  have hcl := (scan_part_length hc).1
  have hdl := (scan_part_length hd).1
  have : c = d := scan_unique hc hd (by omega)
  subst this
  have : announced c.msg = (Msg.ofBytes c.msg).length.toNat := rfl
  omega

/-- **Exactly the streams in step are dealt with as promised**; no stream makes the receiver leave its buffer. -/
theorem input_trusts (pf : Platform) (reads : List (List UInt8)) :
    (∃ s, inputReads pf .init reads = some s ∧ Trusts pf reads.flatten s.log) ↔ KeepsStep pf reads.flatten := by
  obtain ⟨s, hs, -, hl⟩ := inputReads_scan pf reads
  constructor
  · rintro ⟨s', hs', ht⟩
    have : s' = s := by
      rw [hs] at hs'
      exact (Option.some.inj hs').symm
    rw [this, hl] at ht
    exact keepsStep_of_trusts ht
  · intro h
    refine ⟨s, hs, ?_⟩
    rw [hl]
    exact trusts_of_keepsStep h

/-- A frame without payload, and ten bytes that are none. -/
def strayHeader : List UInt8 := [1, 0xa5, 1, 0x5a, 1, 0, 0, 0, 0, 0, 0, 0, 0, 0, 0, 0, 0, 0, 0, 0]

/-- The ten bytes are handed over as a message. -/
theorem input_not_trusts :
    ¬ ∀ pf reads, ∃ s, inputReads pf .init reads = some s ∧ Trusts pf reads.flatten s.log := by
  intro h
  obtain ⟨s, hs, ht⟩ := h small [strayHeader]
  have hlog : (inputReads small .init [strayHeader]).map St.log =
      some [(10, .message ⟨leadingBytes, 1, 0, 0, []⟩), (20, .message ⟨[0, 0, 0, 0], 0, 0, 0, []⟩)] := by
    decide +kernel
  rw [hs] at hlog
  have hmem : (20, .message ⟨[0, 0, 0, 0], 0, 0, 0, []⟩) ∈ s.log := by
    rw [Option.some.inj hlog]
    simp
  exact absurd (ht.framed _ _ hmem).1 (by decide)

end AlgaeBp.Ipc
