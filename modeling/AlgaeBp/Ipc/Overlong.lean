import AlgaeBp.Ipc.Theorems
/-!
# Messages that do not fit

`ipc1_write` takes payloads of any size, writes the length modulo 2^16 and
all the bytes. Of a payload that does not fit its buffer the receiver takes a
buffer full and then looks for leading bytes in what is left. `Skipped` are
the payload ends in which it finds none to fall for, and `Stuck` is what it
holds where it did.
-/
open Bytes

namespace AlgaeBp.Ipc

/-! ## Scanning piece by piece -/

/-- The messages cut from a stream. -/
def received (hunting : Bool) (r : List UInt8) : List (List UInt8) := (scan hunting r).1.map Cut.msg

/-- A header accepted at the head of a stream is accepted whatever follows. -/
theorem scan_accepted_append {hunting : Bool} {r : List UInt8} (h : ¬ r.length < hdrLen)
    (hacc : ¬ (hunting = true ∧ ¬ leadingBytes <+: r)) (t : List UInt8) :
    scan hunting (r ++ t) = scan false (r ++ t) := by
  apply scan_accepted
  · rw [List.length_append]
    omega
  · intro hh
    rw [leading_append (by omega)]
    by_contra hn
    exact hacc ⟨hh, hn⟩

/-- What is held is where the rest of the stream goes on. -/
theorem received_append (hunting : Bool) (r t : List UInt8) :
    received hunting (r ++ t) =
      received hunting r ++ received (scan hunting r).2.hunting ((scan hunting r).2.bytes ++ t) := by
  unfold received
  fun_induction scan hunting r with
  | case1 hunting r hshort => rfl
  | case2 hunting r hshort hskip ih =>
    have hne : r ≠ [] := by
      rintro rfl
      exact hshort (by decide)
    have hlen : hdrLen ≤ (r ++ t).length := by
      rw [List.length_append]
      omega
    rw [hskip.1, scan_skip hlen (by rw [leading_append (by omega)]; exact hskip.2), List.tail_append_of_ne_nil hne, ih]
  | case3 hunting r hshort hacc hmax hpart =>
    rw [scan_accepted_append hshort hacc]
    rfl
  | case4 hunting r hshort hacc hmax hfull t' ih =>
    have hlen : hdrLen ≤ (r ++ t).length := by
      rw [List.length_append]
      omega
    have hann : announced (r ++ t) = announced r := announced_append (by omega) t
    rw [scan_accepted_append hshort hacc, scan_message hlen (by rw [hann]; exact hmax)
      (by rw [hann, List.length_append]; omega), hann, List.drop_append_of_le_length (by omega),
      List.take_append_of_le_length (by omega), List.map_cons, ih]
    rfl
  | case5 hunting r hshort hacc hmax hcap =>
    rw [scan_accepted_append hshort hacc]
    rfl
  | case6 hunting r hshort hacc hmax hfull ih =>
    have hann : announced (r ++ t) = announced r := announced_append (by omega) t
    rw [scan_accepted_append hshort hacc, scan_overlong (by omega) (by rw [List.length_append]; omega),
      List.drop_append_of_le_length (by omega), ih]

/-- A stream too short for a header gives nothing. -/
theorem received_short {hunting : Bool} {r : List UInt8} (h : r.length < hdrLen) : received hunting r = [] := by
  rw [received, scan_short h]
  rfl

/-! ## Payload ends -/

/-- A text in which the receiver, looking for leading bytes, finds none, or
only such as make it give up a full buffer that lies in the text. -/
inductive Skipped : List UInt8 → Prop where
  | clean {l : List UInt8} (h : ¬ leadingBytes <:+: l) : Skipped l
  | overlong {g r : List UInt8} (hg : ¬ leadingBytes <:+: g) (hr : leadingBytes <+: r) (hlong : maxLength < announced r)
      (hfull : cap ≤ r.length) (h : Skipped (r.drop cap)) : Skipped (g ++ r)

/-- What a stream of messages is to go on with. -/
def Fresh (s : List UInt8) : Prop := s = [] ∨ leadingBytes <+: s ∧ hdrLen ≤ s.length

theorem received_clean {g s : List UInt8} (hg : ¬ leadingBytes <:+: g) (hs : Fresh s) :
    received true (g ++ s) = received true s := by
  rcases hs with rfl | ⟨hl, hlen⟩
  · rw [List.append_nil, received_short (by decide : ([] : List UInt8).length < hdrLen)]
    induction g with
    | nil => exact received_short (by decide)
    | cons b g ih =>
      by_cases hshort : (b :: g).length < hdrLen
      · exact received_short hshort
      · rw [received, scan_skip (Nat.not_lt.1 hshort) (fun hp => hg hp.isInfix)]
        exact ih (fun hi => hg (hi.trans (List.suffix_cons b g).isInfix))
  · rw [received, scan_clean hg hl hlen]
    rfl

/-- **What is skipped does not matter.** -/
theorem received_skipped {l s : List UInt8} (h : Skipped l) (hs : Fresh s) : received true (l ++ s) = received true s := by
  induction h with
  | clean hg => exact received_clean hg hs
  | @overlong g r hg hr hlong hfull h ih =>
    have hcap : hdrLen < cap := by decide
    have hrs : leadingBytes <+: r ++ s := hr.trans (List.prefix_append r s)
    have hlen : hdrLen ≤ (r ++ s).length := by
      rw [List.length_append]
      omega
    rw [List.append_assoc, received, scan_clean hg hrs hlen, scan_accepted hlen (fun _ => hrs)]
    have hann : announced (r ++ s) = announced r := announced_append (by omega) s
    by_cases hmore : cap < (r ++ s).length
    · rw [scan_overlong (by rw [hann]; exact hlong) hmore, List.drop_append_of_le_length hfull]
      exact ih
    · -- nothing but the buffer full is left
      rw [List.length_append] at hmore
      have hnil : s = [] := List.length_eq_zero_iff.1 (by omega)
      have hlength : r.length = cap := by omega
      rw [hnil, List.append_nil, scan_unfinished (by omega) (by omega) (by unfold maxLength at hlong; omega)]
      exact (received_short (by decide)).symm

/-- The receiver that took a part of a text for a header, or may do so with the next bytes. -/
def Stuck (a : Held) : Prop :=
  a.hunting = true ∧ a.bytes.length < hdrLen ∧ leadingBytes <:+: a.bytes ∨
    a.hunting = false ∧ hdrLen ≤ a.bytes.length ∧ a.bytes.length < cap ∧ a.bytes.length < hdrLen + announced a.bytes

/-- A byte that begins no leading bytes is skipped, too. -/
theorem Skipped.cons {b : UInt8} {l : List UInt8} (hb : ¬ leadingBytes <+: b :: l) (h : Skipped l) : Skipped (b :: l) := by
  cases h with
  | clean hl =>
    refine .clean fun hi => ?_
    rcases List.infix_cons_iff.1 hi with hp | hi
    · exact hb hp
    · exact hl hi
  | @overlong g r hg hr hlong hfull h =>
    refine .overlong (g := b :: g) (fun hi => ?_) hr hlong hfull h
    rcases List.infix_cons_iff.1 hi with hp | hi
    · exact hb (hp.trans (List.prefix_append (b :: g) r))
    · exact hg hi

/-- A text that gives no message is skipped, or the receiver is stuck in it. -/
theorem skipped_or_stuck {l : List UInt8} (h : received true l = []) : Skipped l ∨ Stuck (scan true l).2 := by
  have hnil : (scan true l).1 = [] := List.map_eq_nil_iff.1 h
  clear h
  generalize hh : true = hunting at hnil ⊢
  fun_induction scan hunting l with
  | case1 hunting r hshort =>
    by_cases hi : leadingBytes <:+: r
    · exact .inr (.inl ⟨hh.symm, hshort, hi⟩)
    · exact .inl (.clean hi)
  | case2 hunting r hshort hskip ih =>
    cases r with
    | nil => exact absurd (by decide) hshort
    | cons b r =>
      rcases ih rfl hnil with hs | hs
      · exact .inl (hs.cons hskip.2)
      · exact .inr hs
  | case3 hunting r hshort hacc hmax hpart =>
    have hcap : maxLength + hdrLen = cap := by decide
    have hlt : r.length < cap := by omega
    exact .inr (.inr ⟨rfl, Nat.not_lt.1 hshort, hlt, hpart⟩)
  | case4 hunting r hshort hacc hmax hfull t ih => exact absurd hnil (List.cons_ne_nil _ _)
  | case5 hunting r hshort hacc hmax hcap =>
    have hcap' : maxLength + hdrLen = cap := by decide
    rcases Nat.lt_or_eq_of_le hcap with hlt | heq
    · have hpart : r.length < hdrLen + announced r := by omega
      exact .inr (.inr ⟨rfl, Nat.not_lt.1 hshort, hlt, hpart⟩)
    · have hlead : leadingBytes <+: r := by
        by_contra hn
        exact hacc ⟨hh.symm, hn⟩
      refine .inl (Skipped.overlong (g := []) (by decide) hlead (Nat.not_le.1 hmax) (Nat.le_of_eq heq.symm) ?_)
      rw [← heq, List.drop_length]
      exact .clean (by decide)
  | case6 hunting r hshort hacc hmax hfull ih =>
    have hlead : leadingBytes <+: r := by
      by_contra hn
      exact hacc ⟨hh.symm, hn⟩
    rcases ih rfl hnil with hs | hs
    · exact .inl (Skipped.overlong (g := []) (by decide) hlead (Nat.not_le.1 hmax) (by omega) hs)
    · exact .inr hs

/-! ## One message more -/

/-- A message without payload, of type 0. -/
def empty (q : UInt16) : Msg := ⟨leadingBytes, q, 0, 0, []⟩

theorem empty_frame (q : UInt16) : (empty q).Frame := ⟨rfl, rfl, Nat.zero_le _⟩

theorem bytes_empty (q : UInt16) : (empty q).bytes = leadingBytes ++ le16 q ++ [0, 0, 0, 0] := by
  have hzero : le16 0 = [0, 0] := by decide
  change leadingBytes ++ le16 q ++ le16 0 ++ le16 0 ++ [] = _
  rw [hzero, List.append_nil, List.append_assoc]
  rfl

theorem length_empty (q : UInt16) : (empty q).bytes.length = hdrLen := (empty_frame q).length_bytes

/-- Where a text contains the leading bytes, it does so for a first time. -/
theorem first_leading {l : List UInt8} (h : leadingBytes <:+: l) :
    ∃ g r, l = g ++ r ∧ ¬ leadingBytes <:+: g ∧ leadingBytes <+: r := by
  induction l with
  | nil => exact absurd h (by decide)
  | cons b l ih =>
    by_cases hp : leadingBytes <+: b :: l
    · exact ⟨[], b :: l, rfl, by decide, hp⟩
    · obtain ⟨g, r, rfl, hg, hr⟩ := ih ((List.infix_cons_iff.1 h).resolve_left hp)
      refine ⟨b :: g, r, rfl, fun hi => ?_, hr⟩
      rcases List.infix_cons_iff.1 hi with hp' | hi'
      · exact hp (hp'.trans (List.prefix_append (b :: g) r))
      · exact hg hi'

/-- At most one message is taken where after a header too little is left for another one. -/
theorem received_one {r : List UInt8} (hlen : hdrLen ≤ r.length) (hfew : r.length < hdrLen + hdrLen + announced r)
    (hcap : maxLength < announced r → r.length < cap + hdrLen) :
    received false r = [] ∨ received false r = [r.take (hdrLen + announced r)] := by
  by_cases hmax : announced r ≤ maxLength
  · by_cases hfull : hdrLen + announced r ≤ r.length
    · right
      rw [received, scan_message hlen hmax hfull, List.map_cons]
      change _ :: received false (r.drop (hdrLen + announced r)) = _
      rw [received_short (by rw [List.length_drop]; omega)]
    · left
      have hcap' : maxLength + hdrLen = cap := by decide
      rw [received, scan_unfinished hlen (by omega) (by omega)]
      rfl
  · left
    have hlt := hcap (by omega)
    by_cases hmore : cap < r.length
    · rw [received, scan_overlong (by omega) hmore]
      exact received_short (by rw [List.length_drop]; omega)
    · have hcap' : maxLength + hdrLen = cap := by decide
      rw [received, scan_unfinished hlen (by omega) (by omega)]
      rfl

/-- Behind a few bytes of a header the frame is not seen. -/
theorem take_ne_empty {r : List UInt8} (q : UInt16) (hlow : 4 ≤ r.length) (hhigh : r.length < hdrLen) (n : Nat) :
    (r ++ (empty q).bytes).take (hdrLen + n) ≠ (empty q).bytes := by
  intro heq
  have h10 : hdrLen = 10 := rfl
  -- a byte of the leading bytes stands where the frame has a zero
  have hat (i : Nat) (hi : i < 10) (hr : r.length ≤ i) : (empty q).bytes[i - r.length]? = (empty q).bytes[i]? := by
    have hi' := congrArg (fun l => l[i]?) heq
    rwa [List.getElem?_take_of_lt (by omega), List.getElem?_append_right hr] at hi'
  have hzero (i : Nat) (hlow : 6 ≤ i) (hhigh : i < 10) : (empty q).bytes[i]? = some 0 := by
    rw [bytes_empty]
    have hcases : i = 6 ∨ i = 7 ∨ i = 8 ∨ i = 9 := by omega
    rcases hcases with rfl | rfl | rfl | rfl <;> rfl
  have hcases : r.length = 4 ∨ r.length = 5 ∨ 6 ≤ r.length := by omega
  rcases hcases with h | h | h
  · have h₆ := hat 6 (by decide) (by omega)
    rw [h, hzero 6 (by decide) (by decide)] at h₆
    exact absurd (Option.some.inj h₆) (by decide)
  · have h₆ := hat 6 (by decide) (by omega)
    rw [h, hzero 6 (by decide) (by decide)] at h₆
    exact absurd (Option.some.inj h₆) (by decide)
  · have hr := hat r.length (by omega) (Nat.le_refl _)
    rw [Nat.sub_self, hzero r.length h (by omega)] at hr
    exact absurd (Option.some.inj hr) (by decide)

/-- **A message that is written while the receiver is stuck is not received.** -/
theorem lost_of_stuck {a : Held} (h : Stuck a) (q : UInt16) :
    (empty q).bytes ∉ received a.hunting (a.bytes ++ (empty q).bytes) := by
  have h10 : hdrLen = 10 := rfl
  have hF := length_empty q
  have hcap : maxLength + hdrLen = cap := by decide
  rcases h with ⟨hh, hshort, hi⟩ | ⟨hh, hlen, hlt, hpart⟩
  · obtain ⟨g, r, hb, hg, hr⟩ := first_leading hi
    have hb' := congrArg List.length hb
    have h4 : 4 ≤ r.length := hr.length_le
    rw [List.length_append] at hb'
    have hrF : leadingBytes <+: r ++ (empty q).bytes := hr.trans (List.prefix_append ..)
    have hrlen : hdrLen ≤ (r ++ (empty q).bytes).length := by
      rw [List.length_append]
      omega
    rw [hh, hb, List.append_assoc, received, scan_clean hg hrF hrlen, scan_accepted hrlen (fun _ => hrF)]
    have hone := received_one hrlen (by rw [List.length_append]; omega) (by rw [List.length_append]; omega)
    rw [received] at hone
    rcases hone with hnone | hone
    · rw [hnone]
      exact List.not_mem_nil
    · rw [hone, List.mem_singleton]
      exact fun heq => take_ne_empty q h4 (by omega) _ heq.symm
  · have hann : announced (a.bytes ++ (empty q).bytes) = announced a.bytes := announced_append hlen _
    have hrlen : hdrLen ≤ (a.bytes ++ (empty q).bytes).length := by
      rw [List.length_append]
      omega
    rw [hh]
    rcases received_one hrlen (by rw [List.length_append, hann]; omega) (by rw [List.length_append]; omega) with
      hnone | hone
    · rw [hnone]
      exact List.not_mem_nil
    · rw [hone, List.mem_singleton, hann]
      intro heq
      have hlength := congrArg List.length heq
      rw [hF, List.length_take, List.length_append] at hlength
      omega

/-! ## Payloads of any size -/

/-- A message as `ipc1_write` makes it: the length is that of its payload modulo 2^16. -/
structure Msg.Built (m : Msg) : Prop where
  leading : m.leading = leadingBytes
  length : m.length = UInt16.ofNat m.val.length

/-- A payload that is received whole, or else skipped whole. -/
def Harmless (p : List UInt8) : Prop := maxLength < p.length → maxLength < p.length % 2 ^ 16 ∧ Skipped (p.drop maxLength)

theorem Call.built (c : Call) (q : UInt16) : (c.msg q).Built := ⟨rfl, rfl⟩

theorem Msg.Built.frame {m : Msg} (h : m.Built) (hfits : m.val.length ≤ maxLength) : m.Frame := by
  refine ⟨h.leading, ?_, hfits⟩
  have hlt : maxLength < 2 ^ 16 := by decide
  rw [h.length, UInt16.toNat_ofNat', Nat.mod_eq_of_lt (by omega)]

theorem length_header {m : Msg} (h : m.Built) : m.header.length = hdrLen := by
  rw [Msg.header, h.leading]
  rfl

theorem Msg.Built.announced {m : Msg} (h : m.Built) (t : List UInt8) :
    announced (m.bytes ++ t) = m.val.length % 2 ^ 16 := by
  have hfield : field16 m.bytes 8 = m.length := by
    obtain ⟨leading, seq, type, length, val⟩ := m
    obtain rfl : leading = leadingBytes := h.leading
    simp [Msg.bytes, Msg.header, leadingBytes, le16, field16, word16_le16]
  have hlen : hdrLen ≤ m.bytes.length := by
    rw [Msg.bytes, List.length_append, length_header h]
    omega
  rw [announced_append hlen, Ipc.announced, hfield, h.length, UInt16.toNat_ofNat']

theorem Msg.Built.fresh {m : Msg} (h : m.Built) (t : List UInt8) : Fresh (m.bytes ++ t) := by
  refine .inr ⟨?_, ?_⟩
  · rw [Msg.bytes, Msg.header, h.leading, List.append_assoc, List.append_assoc, List.append_assoc, List.append_assoc]
    exact List.prefix_append ..
  · rw [Msg.bytes, List.length_append, List.length_append, length_header h]
    omega

/-- Of a message whose announced length does not fit a buffer full is taken. -/
theorem received_overlong {m : Msg} (h : m.Built) (hlong : maxLength < m.val.length % 2 ^ 16) (hunting : Bool)
    (t : List UInt8) : received hunting (m.bytes ++ t) = received true (m.val.drop maxLength ++ t) := by
  have hcap : hdrLen + maxLength = cap := by decide
  have hmod : m.val.length % 2 ^ 16 ≤ m.val.length := Nat.mod_le ..
  have hlen : cap < (m.bytes ++ t).length := by
    rw [Msg.bytes, List.length_append, List.length_append, length_header h]
    omega
  rcases h.fresh t with hnil | ⟨hlead, hle⟩
  · rw [hnil] at hlen
    exact absurd hlen (Nat.not_lt_zero _)
  rw [received, scan_accepted hle (fun _ => hlead), scan_overlong (by rw [h.announced]; exact hlong) hlen, ← hcap,
    ← length_header h, Msg.bytes, List.append_assoc, List.drop_append, List.drop_eq_nil_of_le (by omega),
    Nat.add_sub_cancel_left, List.nil_append, List.drop_append_of_le_length (by omega)]
  rfl

/-- The bytes of messages, one behind the other. -/
def stream (ms : List Msg) : List UInt8 := (ms.map Msg.bytes).flatten

theorem fresh_stream {ms : List Msg} (h : ∀ m ∈ ms, m.Built) : Fresh (stream ms) := by
  cases ms with
  | nil => exact .inl rfl
  | cons m ms => exact (h m List.mem_cons_self).fresh (stream ms)

/-- The message fits the receiver's buffer. -/
def Msg.fits (m : Msg) : Bool := m.val.length ≤ maxLength

/-- **Of harmless messages exactly those that fit are received.** -/
theorem received_stream {ms : List Msg} (hb : ∀ m ∈ ms, m.Built) (hp : ∀ m ∈ ms, Harmless m.val) (hunting : Bool) :
    received hunting (stream ms) = (ms.filter Msg.fits).map Msg.bytes := by
  induction ms generalizing hunting with
  | nil => exact received_short (by decide)
  | cons m ms ih =>
    have ih' := ih (fun m' hm' => hb m' (List.mem_cons_of_mem m hm')) (fun m' hm' => hp m' (List.mem_cons_of_mem m hm'))
    have hbuilt := hb m List.mem_cons_self
    change received hunting (m.bytes ++ stream ms) = _
    by_cases hfits : m.val.length ≤ maxLength
    · rw [received, scan_frame (hbuilt.frame hfits), List.filter_cons_of_pos (by simpa [Msg.fits] using hfits)]
      exact congrArg (m.bytes :: ·) (ih' false)
    · obtain ⟨hlong, hskipped⟩ := hp m List.mem_cons_self (Nat.not_le.1 hfits)
      rw [received_overlong hbuilt hlong, received_skipped hskipped
        (fresh_stream fun m' hm' => hb m' (List.mem_cons_of_mem m hm')), ih' true,
        List.filter_cons_of_neg (by simpa [Msg.fits] using hfits)]

/-- What the receiver owes for the messages written: each that fits once, and nothing else. -/
def Decoded (written delivered : List Msg) : Prop :=
  (∀ m ∈ written, m.fits = true → delivered.count m = written.count m) ∧ ∀ m ∈ delivered, m ∈ written

theorem decoded_filter (ms : List Msg) : Decoded ms (ms.filter Msg.fits) :=
  ⟨fun _ _ hfits => List.count_filter hfits, fun _ hm => List.mem_of_mem_filter hm⟩

/-- What is received fits the buffer, so an overlong message cannot be received as it was written. -/
theorem not_decoded_forged {m : Msg} (hover : maxLength < m.val.length) {b : List UInt8}
    (hmem : b ∈ received true (stream [m])) : ¬ Decoded [m] ((received true (stream [m])).map Msg.ofBytes) := by
  rintro ⟨-, honly⟩
  obtain ⟨c, hc, rfl⟩ := List.mem_map.1 hmem
  obtain ⟨-, hlen, hmax⟩ := scan_part hc
  have heq := List.mem_singleton.1 (honly _ (List.mem_map_of_mem hmem))
  have hval : (Msg.ofBytes c.msg).val.length = c.msg.length - hdrLen := List.length_drop
  rw [heq] at hval
  omega

/-- An overlong message whose length field is small is received cut short. -/
theorem received_cut {m : Msg} (hb : m.Built) (hshort : m.val.length % 2 ^ 16 ≤ maxLength) :
    ∃ b, b ∈ received true (stream [m]) := by
  have hstream : stream [m] = m.bytes ++ [] := by simp [stream]
  have hann := hb.announced []
  have hmod : m.val.length % 2 ^ 16 ≤ m.val.length := Nat.mod_le ..
  have hbytes : (m.bytes ++ []).length = hdrLen + m.val.length := by
    rw [List.append_nil, Msg.bytes, List.length_append, length_header hb]
  rcases hb.fresh [] with hnil | ⟨hlead, hle⟩
  · rw [hnil] at hbytes
    exact absurd hbytes (by rw [List.length_nil, show hdrLen = 10 from rfl]; omega)
  · rw [hstream, received, scan_accepted hle (fun _ => hlead), scan_message hle (by omega) (by omega), List.map_cons]
    exact ⟨_, List.mem_cons_self⟩

/-- **A payload that is not harmless breaks the stream**, with an empty message behind it at the latest. -/
theorem not_decoded {m : Msg} (hb : m.Built) (hp : ¬ Harmless m.val) (q : UInt16) :
    ¬ Decoded [m] ((received true (stream [m])).map Msg.ofBytes) ∨
      ¬ Decoded [m, empty q] ((received true (stream [m, empty q])).map Msg.ofBytes) := by
  obtain ⟨hover, hbad⟩ := Classical.not_imp.1 hp
  by_cases hlong : maxLength < m.val.length % 2 ^ 16
  · have hskipped : ¬ Skipped (m.val.drop maxLength) := fun hs => hbad ⟨hlong, hs⟩
    have hone : received true (stream [m]) = received true (m.val.drop maxLength) := by
      have hstream : stream [m] = m.bytes ++ [] := by simp [stream]
      rw [hstream, received_overlong hb hlong, List.append_nil]
    by_cases hnone : received true (m.val.drop maxLength) = []
    · right
      rintro ⟨honce, -⟩
      have htwo : received true (stream [m, empty q]) = received (scan true (m.val.drop maxLength)).2.hunting
          ((scan true (m.val.drop maxLength)).2.bytes ++ (empty q).bytes) := by
        have hstream : stream [m, empty q] = m.bytes ++ (empty q).bytes := by simp [stream]
        rw [hstream, received_overlong hb hlong, received_append, hnone, List.nil_append]
      have hlost := lost_of_stuck ((skipped_or_stuck hnone).resolve_left hskipped) q
      rw [← htwo] at hlost
      -- the empty message was written, but it is not received
      have hmem : empty q ∈ (received true (stream [m, empty q])).map Msg.ofBytes := by
        rw [← List.count_pos_iff, honce (empty q) (List.mem_cons_of_mem m List.mem_cons_self) rfl, List.count_pos_iff]
        exact List.mem_cons_of_mem m List.mem_cons_self
      obtain ⟨b, hb', heq⟩ := List.mem_map.1 hmem
      obtain ⟨c, hc, rfl⟩ := List.mem_map.1 hb'
      rw [← ofBytes_bytes c.msg (scan_part_length hc).2, heq] at hb'
      exact hlost hb'
    · left
      obtain ⟨b, hb'⟩ := List.exists_mem_of_ne_nil _ hnone
      exact not_decoded_forged hover (by rwa [hone])
  · left
    obtain ⟨b, hb'⟩ := received_cut hb (Nat.not_lt.1 hlong)
    exact not_decoded_forged hover hb'

/-! ## Sequences of calls -/

/-- Each call fails before it writes, or writes its frame completely. -/
def Whole (w : Sender) : List Call → Prop
  | [] => True
  | c :: cs =>
    ((ipc1Write w c).2.1 = 0 ∧ (ipc1Write w c).1.socket.taken = w.socket.taken ∨
      (ipc1Write w c).1.socket.taken = w.socket.taken ++ (c.msg (ipc1Write w c).2.2).bytes) ∧
    Whole (ipc1Write w c).1 cs

/-- The messages the calls write. -/
def written (w : Sender) : List Call → List Msg
  | [] => []
  | c :: cs =>
    (if (ipc1Write w c).1.socket.taken = w.socket.taken then [] else [c.msg (ipc1Write w c).2.2]) ++
      written (ipc1Write w c).1 cs

theorem writeAll_written {w : Sender} {calls : List Call} (h : Whole w calls) :
    (writeAll w calls).1.socket.taken = w.socket.taken ++ stream (written w calls) := by
  induction calls generalizing w with
  | nil => exact (List.append_nil _).symm
  | cons c cs ih =>
    obtain ⟨hc, hcs⟩ := h
    rw [writeAll, written, ih hcs]
    split
    · rename_i heq
      rw [heq]
      rfl
    · rename_i hne
      rw [hc.resolve_left (fun hn => hne hn.2), List.append_assoc]
      simp [stream]

theorem mem_written {w : Sender} {calls : List Call} {m : Msg} (h : m ∈ written w calls) :
    m.Built ∧ ∃ c ∈ calls, m.val = c.data := by
  induction calls generalizing w with
  | nil => exact absurd h List.not_mem_nil
  | cons c cs ih =>
    rcases List.mem_append.1 h with h | h
    · split at h
      · exact absurd h List.not_mem_nil
      · obtain rfl := List.mem_singleton.1 h
        exact ⟨c.built _, c, List.mem_cons_self, rfl⟩
    · obtain ⟨hb, c', hc', hval⟩ := ih h
      exact ⟨hb, c', List.mem_cons_of_mem c hc', hval⟩

theorem deliveries_received (pf : Platform) (total : Nat) (cuts : List Cut) :
    (deliveries (cuts.flatMap (Cut.entries pf total))).map Prod.snd = (cuts.map Cut.msg).map Msg.ofBytes := by
  induction cuts with
  | nil => rfl
  | cons c cuts ih =>
    rw [List.flatMap_cons, deliveries_append, List.map_append, ih, Cut.entries, deliveries_stamped]
    rfl

/-- What the receiver hands over of a stream. -/
theorem delivered_eq (pf : Platform) (reads : List (List UInt8)) :
    ∃ s, inputReads pf .init reads = some s ∧
      (deliveries s.log).map Prod.snd = (received true reads.flatten).map Msg.ofBytes := by
  obtain ⟨s, hs, -, hlog⟩ := inputReads_scan pf reads
  refine ⟨s, hs, ?_⟩
  rw [hlog, deliveries_received]
  rfl

/-- All the messages written are decoded, however the stream is read. -/
def Decodes (pf : Platform) (w : Sender) (calls : List Call) : Prop :=
  ∀ reads : List (List UInt8), reads.flatten = (writeAll w calls).1.socket.taken →
    ∃ s, inputReads pf .init reads = some s ∧ Decoded (written w calls) ((deliveries s.log).map Prod.snd)

theorem decodes_of_harmless (pf : Platform) {w : Sender} {calls : List Call} (hfresh : w.socket.taken = [])
    (hwhole : Whole w calls) (hp : ∀ c ∈ calls, Harmless c.data) : Decodes pf w calls := by
  intro reads hreads
  obtain ⟨s, hs, hdel⟩ := delivered_eq pf reads
  refine ⟨s, hs, ?_⟩
  have hstream : reads.flatten = stream (written w calls) := by
    rw [hreads, writeAll_written hwhole, hfresh, List.nil_append]
  have hbuilt : ∀ m ∈ written w calls, m.Built := fun m hm => (mem_written hm).1
  have hharmless : ∀ m ∈ written w calls, Harmless m.val := by
    intro m hm
    obtain ⟨-, c, hc, hval⟩ := mem_written hm
    rw [hval]
    exact hp c hc
  rw [hdel, hstream, received_stream hbuilt hharmless, List.map_map]
  have hmap : ((written w calls).filter Msg.fits).map (Msg.ofBytes ∘ Msg.bytes) = (written w calls).filter Msg.fits := by
    conv_rhs => rw [← List.map_id ((written w calls).filter Msg.fits)]
    refine List.map_congr_left fun m hm => ?_
    obtain ⟨hmem, hfits⟩ := List.mem_filter.1 hm
    exact ((hbuilt m hmem).frame (of_decide_eq_true hfits)).ofBytes
  rw [hmap]
  exact decoded_filter _

/-- With a socket that always takes something all messages are written. -/
theorem written_all {w : Sender} (hok : ∀ i, ∃ k, w.socket.results i = .wrote k) (calls : List Call) :
    Whole w calls ∧ written w calls = messagesOf (writeAll w calls).2 calls := by
  induction calls generalizing w with
  | nil => exact ⟨trivial, rfl⟩
  | cons c cs ih =>
    obtain ⟨htaken, hresults, -⟩ := ipc1Write_all hok c
    obtain ⟨hwhole, hwritten⟩ := ih (w := (ipc1Write w c).1) (by rw [hresults]; exact hok)
    refine ⟨⟨.inr htaken, hwhole⟩, ?_⟩
    have hne : (ipc1Write w c).1.socket.taken ≠ w.socket.taken := by
      rw [htaken]
      simp [Msg.bytes, Msg.header, Call.msg, leadingBytes]
    rw [written, if_neg hne, hwritten]
    rfl

/-- A sender whose socket takes all it is offered. -/
def eager : Sender := ⟨1, ⟨fun _ => .wrote (2 ^ 16), 0, []⟩⟩

theorem eager_takes : ∀ i, ∃ k, eager.socket.results i = .wrote k := fun _ => ⟨_, rfl⟩

/-- Decoding is about what the receiver cuts from the messages written. -/
theorem Decodes.decoded {pf : Platform} {calls : List Call} {ms : List Msg} (h : Decodes pf eager calls)
    (hms : written eager calls = ms) : Decoded ms ((received true (stream ms)).map Msg.ofBytes) := by
  obtain ⟨hwhole, -⟩ := written_all eager_takes calls
  have hstream := writeAll_written hwhole
  rw [hms] at hstream
  obtain ⟨s, hs, hdel⟩ := delivered_eq pf [stream ms]
  obtain ⟨s', hs', hdecoded⟩ := h [stream ms] (by rw [hstream, List.flatten_singleton]; rfl)
  obtain rfl := Option.some.inj (hs.symm.trans hs')
  rwa [hdel, List.flatten_singleton, hms] at hdecoded

/-- Calls that show what a payload does: the payload alone, or an empty message behind it. -/
def witnesses (p : List UInt8) : List (List Call) := [[⟨0, p⟩], [⟨0, p⟩, ⟨0, []⟩]]

theorem witnesses_fail (pf : Platform) {p : List UInt8} (hp : ¬ Harmless p) :
    ∃ calls ∈ witnesses p, ¬ Decodes pf eager calls := by
  have hone : written eager [⟨0, p⟩] = [(⟨0, p⟩ : Call).msg 1] := (written_all eager_takes _).2
  obtain ⟨q, htwo⟩ : ∃ q, written eager [⟨0, p⟩, ⟨0, []⟩] = [(⟨0, p⟩ : Call).msg 1, empty q] :=
    ⟨(ipc1Write (ipc1Write eager ⟨0, p⟩).1 ⟨0, []⟩).2.2, (written_all eager_takes _).2⟩
  rcases not_decoded (Call.built ⟨0, p⟩ 1) hp q with hfail | hfail
  · exact ⟨_, List.mem_cons_self, fun h => hfail (h.decoded hone)⟩
  · exact ⟨_, List.mem_cons_of_mem _ List.mem_cons_self, fun h => hfail (h.decoded htwo)⟩

/-- **Exactly the harmless payloads keep the stream decodable.** -/
theorem stream_decodable_iff (pf : Platform) (P : List UInt8 → Prop) :
    (∀ w calls, w.socket.taken = [] → Whole w calls → (∀ c ∈ calls, c.data.length ≤ maxLength ∨ P c.data) →
      Decodes pf w calls) ↔ ∀ p, P p → Harmless p := by
  constructor
  · intro h p hp
    by_contra hbad
    obtain ⟨calls, hcalls, hfail⟩ := witnesses_fail pf hbad
    refine hfail (h eager calls rfl (written_all eager_takes calls).1 fun c hc => ?_)
    simp only [witnesses, List.mem_cons, List.not_mem_nil, or_false] at hcalls
    rcases hcalls with rfl | rfl
    · obtain rfl := List.mem_singleton.1 hc
      exact .inr hp
    · rcases List.mem_cons.1 hc with rfl | hc
      · exact .inr hp
      · obtain rfl := List.mem_singleton.1 hc
        exact .inl (Nat.zero_le _)
  · intro h w calls hfresh hwhole hcalls
    refine decodes_of_harmless pf hfresh hwhole fun c hc => ?_
    rcases hcalls c hc with hfits | hp
    · exact fun hover => absurd hfits (Nat.not_le.2 hover)
    · exact h c.data hp

/-- A payload of 65536 bytes: its length field is 0, and an empty message is received that nobody wrote. -/
theorem not_decodes_wrapped : ¬ ∀ pf w calls, w.socket.taken = [] → Whole w calls → Decodes pf w calls := by
  intro h
  have hbad : ¬ Harmless (List.replicate 65536 0) := by
    intro hp
    obtain ⟨hlong, -⟩ := hp (by rw [List.length_replicate]; decide)
    rw [List.length_replicate] at hlong
    exact absurd hlong (by decide)
  obtain ⟨calls, -, hfail⟩ := witnesses_fail small hbad
  exact hfail (h small eager calls rfl (written_all eager_takes calls).1)

end AlgaeBp.Ipc
