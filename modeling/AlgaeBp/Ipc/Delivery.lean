import AlgaeBp.Ipc.Threads
/-!
# What the loop gets from the threads

`threads_deliver` is about messages, `threads_call` about the callbacks that
`ipc1_register_callback` has the loop run.
-/
open Bytes Runs

namespace AlgaeBp.Ipc

variable {ι : Type} [DecidableEq ι]

/-! ## What is delivered -/

/-- The frame is in the socket, all of it. -/
def Entry.whole (e : Entry ι) : Bool := e.wrote = e.msg.bytes

/-- The frame is in the socket, or nothing of it. -/
def Entry.clean (e : Entry ι) : Prop := e.wrote = [] ∨ e.wrote = e.msg.bytes

instance (e : Entry ι) : Decidable e.clean := inferInstanceAs (Decidable (_ ∨ _))

/-- The calls that have written their frame, in the order in which they got the mutex. -/
def sent (s : Sys ι) : List (Entry ι) := s.history.filter Entry.whole

omit [DecidableEq ι] in
theorem wrote_flatten {l : List (Entry ι)} (hc : ∀ e ∈ l, e.clean) :
    (l.map Entry.wrote).flatten = stream ((l.filter Entry.whole).map Entry.msg) := by
  induction l with
  | nil => rfl
  | cons e l ih =>
    have ih := ih fun e' he' => hc e' (List.mem_cons_of_mem e he')
    rw [List.map_cons, List.flatten_cons, ih]
    cases hw : e.whole with
    | true =>
      have hbytes : e.wrote = e.msg.bytes := of_decide_eq_true hw
      rw [List.filter_cons_of_pos hw, hbytes]
      rfl
    | false =>
      have hbytes : e.wrote ≠ e.msg.bytes := of_decide_eq_false hw
      rw [List.filter_cons_of_neg (by simp [hw]), (hc e List.mem_cons_self).resolve_right hbytes]
      rfl

/-- Less than a frame is no message. -/
theorem received_partial {m : Msg} (hm : m.Frame) {b : List UInt8} (hp : b <+: m.bytes)
    (hlt : b.length < m.bytes.length) (hunting : Bool) :
    received hunting b = [] := by
  obtain ⟨t, ht⟩ := hp
  have hlen := hm.length_bytes
  by_cases hshort : b.length < hdrLen
  · exact received_short hshort
  · have hle : hdrLen ≤ b.length := Nat.not_lt.1 hshort
    have hlead : leadingBytes <+: b := by
      rw [← leading_append hle t, ht, hm.bytes_eq]
      exact List.prefix_append ..
    have hann : announced b = m.val.length := by rw [← announced_append hle t, ht, hm.announced]
    have hfits := hm.fits
    rw [received, scan_accepted hle fun _ => hlead,
      scan_unfinished hle (by simp only [maxLength] at hfits; omega) (by omega)]
    rfl

/-- Frames are received whatever follows. -/
theorem received_frames {ms : List Msg} (h : ∀ m ∈ ms, m.Frame) {b : List UInt8}
    (hb : ∀ hunting, received hunting b = []) (hunting : Bool) :
    received hunting (stream ms ++ b) = ms.map Msg.bytes := by
  induction ms generalizing hunting with
  | nil => exact hb hunting
  | cons m ms ih =>
    have ih := ih (fun m' hm' => h m' (List.mem_cons_of_mem m hm')) false
    have hstream : stream (m :: ms) ++ b = m.bytes ++ (stream ms ++ b) := by simp [stream]
    rw [hstream, received, scan_frame (h m List.mem_cons_self), List.map_cons, List.map_cons, ← ih]
    rfl

section
variable {pf : Platform} {s : Sys ι}

omit [DecidableEq ι] in
theorem Inv.entry_mem (hi : Inv pf s) {e : Entry ι} (he : e ∈ s.history ++ s.refused) : ∃ seq, e.Ok pf seq := by
  rcases List.mem_append.1 he with he | he
  · obtain ⟨k, hk⟩ := List.mem_iff_getElem?.1 he
    exact ⟨seqAt k, hi.entry k e hk⟩
  · exact ⟨0, hi.refused e he⟩

omit [DecidableEq ι] in
theorem Inv.frame (hi : Inv pf s) (ha : Asked (fun q => (q.call pf).data.length ≤ maxLength) s) {e : Entry ι}
    (he : e ∈ s.history ++ s.refused) : e.msg.Frame := by
  obtain ⟨seq, hok⟩ := hi.entry_mem he
  rw [hok.msg]
  exact Call.frame (ha.entry e he) seq

omit [DecidableEq ι] in
/-- What the holder of the mutex has written is no message yet. -/
theorem Inv.received_holder (hi : Inv pf s) (ha : Asked (fun q => (q.call pf).data.length ≤ maxLength) s) (hunting : Bool) :
    received hunting (s.mutex.elim [] fun i => (s.pc i).wrote) = [] := by
  have hnone : received hunting [] = [] := received_short (by decide)
  cases hm : s.mutex with
  | none => exact hnone
  | some i =>
    have hholds := hi.holder i hm
    have hasked := ha.pc i
    rw [Option.elim_some]
    cases hpc : s.pc i with
    | idle => exact hnone
    | lock ipc q => exact hnone
    | unlock ret => exact hnone
    | header q m w todo =>
      rw [hpc] at hholds hasked
      obtain ⟨hmsg, hsplit, hne, -⟩ := hholds
      have hpos := List.length_pos_iff.2 hne
      refine received_partial (m := m) (hmsg ▸ Call.frame (hasked q rfl) _) ⟨todo ++ m.val, ?_⟩ ?_ hunting
      · rw [Pc.wrote, ← List.append_assoc, hsplit]
        rfl
      · rw [Pc.wrote, Msg.bytes, ← hsplit, List.length_append, List.length_append]
        omega
    | payload q m w todo =>
      rw [hpc] at hholds hasked
      obtain ⟨hmsg, hsplit, hne, -⟩ := hholds
      have hpos := List.length_pos_iff.2 hne
      refine received_partial (m := m) (hmsg ▸ Call.frame (hasked q rfl) _) ⟨todo, ?_⟩ ?_ hunting
      · rw [Pc.wrote, List.append_assoc, hsplit]
        rfl
      · rw [Pc.wrote, Msg.bytes, ← hsplit, List.length_append, List.length_append, List.length_append]
        omega

omit [DecidableEq ι] in
/-- The messages in the socket are those of the whole frames. -/
theorem Inv.received_sent (hi : Inv pf s) (ha : Asked (fun q => (q.call pf).data.length ≤ maxLength) s)
    (hc : ∀ e ∈ s.history, e.clean) :
    ∃ reads, s.recv = inputReads pf .init reads ∧ received true reads.flatten <+: ((sent s).map Entry.msg).map Msg.bytes ∧
      (s.buffered = [] → received true reads.flatten = ((sent s).map Entry.msg).map Msg.bytes) := by
  obtain ⟨reads, hrecv, hbytes⟩ := hi.recv
  have hframes : ∀ m ∈ (sent s).map Entry.msg, m.Frame := by
    intro m hm
    obtain ⟨e, he, rfl⟩ := List.mem_map.1 hm
    exact hi.frame ha (List.mem_append_left _ (List.mem_of_mem_filter he))
  have hall : received true (reads.flatten ++ s.buffered) = ((sent s).map Entry.msg).map Msg.bytes := by
    rw [hbytes, wire, wrote_flatten hc]
    exact received_frames hframes (hi.received_holder ha) true
  refine ⟨reads, hrecv, ?_, fun hempty => ?_⟩
  · rw [← hall, received_append]
    exact List.prefix_append ..
  · rw [← hall, hempty, List.append_nil]

omit [DecidableEq ι] in
theorem map_ofBytes {ms : List Msg} (h : ∀ m ∈ ms, m.Frame) : (ms.map Msg.bytes).map Msg.ofBytes = ms := by
  rw [List.map_map]
  conv_rhs => rw [← List.map_id ms]
  exact List.map_congr_left fun m hm => (h m hm).ofBytes

/-- The messages `ipc1_input_msg` has been called with. -/
def delivered (r : St) : List Msg := (deliveries r.log).map Prod.snd

/-- **Whatever order the threads and the loop run in, and however writes and
reads are cut: while no write breaks a frame, the loop gets the messages of the
calls that have written theirs, each once, in the order of the mutex, with
successive sequence numbers. Once the socket is empty it has them all. A call
returns the length of its payload just when the frame is in the socket.** -/
theorem threads_deliver (pf : Platform) (ls : List (Label ι)) (s : Sys ι)
    (hfits : ∀ i ipc q, Label.call i ipc q ∈ ls → (q.call pf).data.length ≤ 2038) (hr : run (step pf) ls Sys.init = some s)
    (hc : ∀ e ∈ s.history, e.clean) :
    ∃ r, s.recv = some r ∧ delivered r <+: (sent s).map Entry.msg ∧
    (s.buffered = [] → delivered r = (sent s).map Entry.msg) ∧
      (∀ (k : Nat) (e : Entry ι), s.history[k]? = some e → e.msg = (e.req.call pf).msg (seqAt k)) ∧
      ∀ e ∈ s.history ++ s.refused, e.msg.val ≠ [] → (e.ret = e.msg.val.length ↔ e.whole = true) := by
  obtain ⟨hi, ha⟩ := run_asked (P := fun q => (q.call pf).data.length ≤ maxLength) hfits hr
  obtain ⟨reads, hrecv, hpre, heq⟩ := hi.received_sent ha hc
  obtain ⟨r, hread, hdel⟩ := delivered_eq pf reads
  have hmsgs : (((sent s).map Entry.msg).map Msg.bytes).map Msg.ofBytes = (sent s).map Entry.msg := by
    refine map_ofBytes fun m hm => ?_
    obtain ⟨e, he, rfl⟩ := List.mem_map.1 hm
    exact hi.frame ha (List.mem_append_left _ (List.mem_of_mem_filter he))
  refine ⟨r, hrecv.trans hread, ?_, fun hempty => ?_, fun k e hk => (hi.entry k e hk).msg, fun e he hne => ?_⟩
  · rw [delivered, hdel, ← hmsgs]
    exact hpre.map Msg.ofBytes
  · rw [delivered, hdel, heq hempty, hmsgs]
  · obtain ⟨k, hok⟩ := hi.entry_mem he
    have hlen := (hi.frame ha he).length_bytes
    have hpos := List.length_pos_iff.2 hne
    rw [hok.ret, Entry.whole, decide_eq_true_iff]
    constructor
    · intro hret
      exact hok.wrote.eq_of_length (by omega)
    · intro hw
      rw [hw, hlen]
      omega

end

/-- Two threads write, one of them in pieces and with the other waiting for the mutex; the loop reads in between. -/
def twoWrite (q q' : Req) : List (Label Bool) :=
  [.call false true q, .lock false true, .call true true q', .write false (.wrote 6), .read 3, .write false (.wrote 9),
    .write false (.wrote 9), .unlock false, .lock true true, .write true (.wrote 9), .read 9,
      .write true (.wrote 1), .write true (.wrote 9),
    .unlock true, .read 1022]

def afterTwo (q q' : Req) : Sys Bool := (run (step small) (twoWrite q q') Sys.init).getD Sys.init

theorem run_afterTwo {q q' : Req} (h : (run (step small) (twoWrite q q') Sys.init).isSome) :
    run (step small) (twoWrite q q') Sys.init = some (afterTwo q q') := by
  obtain ⟨s, hs⟩ := Option.isSome_iff_exists.1 h
  rw [afterTwo, hs, Option.getD_some]

theorem twoWrite_calls {P : Req → Prop} {q q' : Req} (hq : P q) (hq' : P q') (i : Bool) (ipc : Bool) (r : Req)
    (h : Label.call i ipc r ∈ twoWrite q q') : P r := by
  simp only [twoWrite, List.mem_cons, Label.call.injEq, reduceCtorEq, List.not_mem_nil, or_false, false_or] at h
  rcases h with ⟨-, -, rfl⟩ | ⟨-, -, rfl⟩
  · exact hq
  · exact hq'

theorem threads_deliver_two : ∃ r, (afterTwo (.write ⟨7, [9]⟩) (.write ⟨3, [1, 2, 3]⟩)).recv = some r ∧
    delivered r = [⟨leadingBytes, 1, 7, 1, [9]⟩, ⟨leadingBytes, 2, 3, 3, [1, 2, 3]⟩] := by
  obtain ⟨r, hr, -, hall, -, -⟩ := threads_deliver small (twoWrite (.write ⟨7, [9]⟩) (.write ⟨3, [1, 2, 3]⟩)) _
    (twoWrite_calls (by decide) (by decide)) (run_afterTwo (by decide +kernel)) (by decide +kernel)
  exact ⟨r, hr, (hall (by decide +kernel)).trans (by decide +kernel)⟩

/-! ## Callbacks -/

/-- The pointer calls of a log. -/
def called (log : List (Nat × Event)) : List (Nat × Nat) :=
  log.filterMap fun
    | (_, .call func cbarg) => some (func, cbarg)
    | _ => none

/-- What a request is to have called. -/
def Req.invokes : Req → Option (Nat × Nat)
  | .write _ => none
  | .register func cbarg => if func = 0 then none else some (func, cbarg)

/-- `ipc1_register_callback`, when `ipc1_write` has returned `r`. -/
def ipc1RegisterCallback (pf : Platform) (r : Nat) : Int := if r < pf.callbackSize then -1 else 0

/-- A pointer, or a message that is no callback and fits. -/
def Req.Sane (pf : Platform) : Req → Prop
  | .write c => c.data.length ≤ maxLength ∧ UInt16.ofBitVec (BitVec.ofInt 16 c.type) ≠ typeCallback1
  | .register func cbarg => func < 256 ^ pf.ptrSize ∧ cbarg < 256 ^ pf.ptrSize

theorem Req.Sane.fits {pf : Platform} {q : Req} (h : q.Sane pf) (hpf : pf.callbackSize ≤ maxLength) :
    (q.call pf).data.length ≤ maxLength := by
  cases q with
  | write c => exact h.1
  | register func cbarg => simpa [Req.call, Platform.callbackSize] using hpf

/-- A message has the loop call what it is to call, whenever it arrives. -/
theorem called_stamped {pf : Platform} {q : Req} (h : q.Sane pf) (hpf : pf.callbackSize ≤ maxLength)
    (seq : UInt16) (fed : Nat) :
    called (stamped pf fed ((q.call pf).msg seq).bytes) = q.invokes.toList := by
  have hframe : ((q.call pf).msg seq).Frame := Call.frame (h.fits hpf) seq
  have hlen : ((q.call pf).msg seq).length.toNat = (q.call pf).data.length := hframe.length
  simp only [stamped, hframe.ofBytes, Msg.events]
  cases q with
  | write c =>
    have htype : ((Req.call pf (.write c)).msg seq).type ≠ typeCallback1 := h.2
    rw [if_neg fun hh => htype hh.1]
    rfl
  | register func cbarg =>
    have htype : ((Req.call pf (.register func cbarg)).msg seq).type = typeCallback1 := rfl
    have hsize : (Req.call pf (.register func cbarg)).data.length = pf.ptrSize + pf.ptrSize := by simp [Req.call]
    have hfunc : ((Req.call pf (.register func cbarg)).msg seq).func pf fed = func := by
      rw [Msg.func, hlen, hsize, if_pos (Nat.le_add_left ..)]
      simp only [Call.msg, Req.call]
      rw [List.take_left' (length_leBytes ..), leNat_leBytes h.1]
    have hcbarg : ((Req.call pf (.register func cbarg)).msg seq).cbarg pf = cbarg := by
      rw [Msg.cbarg, hlen, hsize, if_pos le_rfl]
      simp only [Call.msg, Req.call]
      rw [List.drop_left' (length_leBytes ..), List.take_of_length_le (by simp), leNat_leBytes h.2]
    rw [htype, hfunc, hcbarg, Req.invokes]
    by_cases hnull : func = 0 <;> simp [hnull, called]

omit [DecidableEq ι] in
/-- Cuts that are the messages of these requests make the loop call what the requests are about. -/
theorem called_cuts {pf : Platform} (hpf : pf.callbackSize ≤ maxLength) (total : Nat) {cuts : List Cut} {es : List (Entry ι)}
    (hcuts : cuts.map Cut.msg = (es.map Entry.msg).map Msg.bytes)
    (hes : ∀ e ∈ es, e.req.Sane pf ∧ ∃ seq, e.msg = (e.req.call pf).msg seq) :
    called (cuts.flatMap (Cut.entries pf total)) = es.filterMap fun e => e.req.invokes := by
  induction es generalizing cuts with
  | nil =>
    obtain rfl := List.map_eq_nil_iff.1 hcuts
    rfl
  | cons e es ih =>
    obtain ⟨c, cuts, rfl, hc, hrest⟩ := List.map_eq_cons_iff.1 hcuts
    obtain ⟨hsane, seq, hmsg⟩ := hes e List.mem_cons_self
    have ih := ih hrest fun e' he' => hes e' (List.mem_cons_of_mem e he')
    have hone : called (Cut.entries pf total c) = e.req.invokes.toList := by
      rw [Cut.entries, hc, hmsg]
      exact called_stamped hsane hpf seq _
    rw [List.flatMap_cons, called, List.filterMap_append]
    simp only [called] at ih hone
    rw [ih, hone, List.filterMap_cons]
    cases e.req.invokes <;> rfl

/-- **Callbacks that threads register while others write are called by the loop
once each, with their argument, in the order of the mutex, and nothing else is
called. Once the socket is empty all have been called that were registered,
which is when `ipc1_register_callback` returns zero.** -/
theorem threads_call (pf : Platform) (hptr : 0 < pf.ptrSize) (hpf : pf.callbackSize ≤ 2038) (ls : List (Label ι)) (s : Sys ι)
    (hsane : ∀ i ipc q, Label.call i ipc q ∈ ls → q.Sane pf) (hr : run (step pf) ls Sys.init = some s)
    (hc : ∀ e ∈ s.history, e.clean) :
    ∃ r, s.recv = some r ∧ called r.log <+: (sent s).filterMap (fun e => e.req.invokes) ∧
      (s.buffered = [] → called r.log = (sent s).filterMap fun e => e.req.invokes) ∧
      ∀ e ∈ s.history ++ s.refused, ∀ func cbarg, e.req = .register func cbarg →
        (ipc1RegisterCallback pf e.ret = 0 ↔ e.whole = true) := by
  obtain ⟨hi, ha⟩ := run_asked (P := Req.Sane pf) hsane hr
  have hfits : Asked (fun q => (q.call pf).data.length ≤ maxLength) s :=
    ⟨fun i q hq => (ha.pc i q hq).fits hpf, fun e he => (ha.entry e he).fits hpf⟩
  obtain ⟨reads, hrecv, hpre, heq⟩ := hi.received_sent hfits hc
  obtain ⟨r, hread, -, hlog⟩ := inputReads_scan pf reads
  have hes : ∀ e ∈ sent s, e.req.Sane pf ∧ ∃ seq, e.msg = (e.req.call pf).msg seq := by
    intro e he
    have hmem := List.mem_append_left s.refused (List.mem_of_mem_filter he)
    obtain ⟨seq, hok⟩ := hi.entry_mem hmem
    exact ⟨ha.entry e hmem, seq, hok.msg⟩
  refine ⟨r, hrecv.trans hread, ?_, fun hempty => ?_, fun e he func cbarg hreq => ?_⟩
  · -- the loop has got the first `n` messages
    obtain ⟨n, hn⟩ : ∃ n, received true reads.flatten = (((sent s).take n).map Entry.msg).map Msg.bytes :=
      ⟨_, by rw [List.map_take, List.map_take]; exact List.prefix_iff_eq_take.1 hpre⟩
    rw [hlog, called_cuts hpf _ hn fun e he => hes e (List.mem_of_mem_take he)]
    exact (List.take_prefix n _).filterMap _
  · rw [hlog, called_cuts hpf _ (heq hempty) hes]
  · obtain ⟨k, hok⟩ := hi.entry_mem he
    have hlen := (hi.frame hfits he).length_bytes
    have hval : e.msg.val.length = pf.callbackSize := by rw [hok.msg, hreq]; simp [Req.call, Call.msg, Platform.callbackSize]
    have hle := hok.wrote.length_le
    have hsize : pf.callbackSize = pf.ptrSize + pf.ptrSize := rfl
    rw [ipc1RegisterCallback, hok.ret, Entry.whole, decide_eq_true_iff]
    split
    · refine iff_of_false (by decide) fun hw => ?_
      have heq := congrArg List.length hw
      omega
    · exact iff_of_true rfl (hok.wrote.eq_of_length (by omega))

theorem threads_call_two : ∃ r, (afterTwo (.register 5 6) (.register 7 8)).recv = some r ∧
    called r.log = [(5, 6), (7, 8)] := by
  obtain ⟨r, hr, -, hall, -⟩ := threads_call small (by decide) (by decide) (twoWrite (.register 5 6) (.register 7 8)) _
    (twoWrite_calls ⟨by decide, by decide⟩ ⟨by decide, by decide⟩) (run_afterTwo (by decide +kernel)) (by decide +kernel)
  exact ⟨r, hr, (hall (by decide +kernel)).trans (by decide +kernel)⟩

end AlgaeBp.Ipc
