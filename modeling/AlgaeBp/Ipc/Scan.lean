import AlgaeBp.Ipc.Code
/-!
# How the receiver cuts a stream

`scan` says which parts of a byte stream the receiver takes for messages,
without a buffer and without regard to how the stream arrives. `Held` is the
state of the receiver between two bytes, `held_step` what one byte does to
it; the code makes exactly these steps (`inputByte_held`), so feeding any
stream gives the cuts of `scan` (`ipc1Input_scan`).
-/
open Bytes

namespace AlgaeBp.Ipc

/-! ## Reading a message from its bytes -/

/-- The 16-bit field at an offset of a message. -/
def field16 (bs : List UInt8) (off : Nat) : UInt16 := word16 (bs.getD off 0) (bs.getD (off + 1) 0)

/-- The length a header announces. -/
def announced (bs : List UInt8) : Nat := (field16 bs 8).toNat

def Msg.ofBytes (bs : List UInt8) : Msg where
  leading := bs.take 4
  seq := field16 bs 4
  type := field16 bs 6
  length := field16 bs 8
  val := bs.drop hdrLen

theorem getD_drop_take (bs : List UInt8) (off : Nat) (h : off + 2 ≤ bs.length) :
    (bs.drop off).take 2 = [bs.getD off 0, bs.getD (off + 1) 0] := by
  have h₁ : off < bs.length := by omega
  have h₂ : off + 1 < bs.length := by omega
  rw [List.drop_eq_getElem_cons h₁, List.drop_eq_getElem_cons h₂, List.take_succ_cons, List.take_succ_cons,
    List.take_zero, List.getD_eq_getElem _ _ h₁, List.getD_eq_getElem _ _ h₂]

theorem ofBytes_bytes (bs : List UInt8) (h : hdrLen ≤ bs.length) : (Msg.ofBytes bs).bytes = bs := by
  have hl : 10 ≤ bs.length := h
  have h₄ : le16 (field16 bs 4) = (bs.drop 4).take 2 := by
    rw [field16, le16_word16, getD_drop_take bs 4 (by omega)]
  have h₆ : le16 (field16 bs 6) = (bs.drop 6).take 2 := by
    rw [field16, le16_word16, getD_drop_take bs 6 (by omega)]
  have h₈ : le16 (field16 bs 8) = (bs.drop 8).take 2 := by
    rw [field16, le16_word16, getD_drop_take bs 8 (by omega)]
  have e₆ : bs.take 4 ++ (bs.drop 4).take 2 = bs.take 6 := (List.take_add ..).symm
  have e₈ : bs.take 6 ++ (bs.drop 6).take 2 = bs.take 8 := (List.take_add ..).symm
  have e₁₀ : bs.take 8 ++ (bs.drop 8).take 2 = bs.take 10 := (List.take_add ..).symm
  unfold Msg.bytes Msg.header Msg.ofBytes
  simp only [h₄, h₆, h₈, e₆, e₈, e₁₀, hdrLen]
  exact List.take_append_drop 10 bs

/-! ## The cuts of a stream -/

/-- A message the receiver takes, and the stream after it. -/
structure Cut where
  msg : List UInt8
  rest : List UInt8
  deriving DecidableEq, Repr

/-- What the receiver holds between two bytes: whether it looks for the
leading bytes, and the bytes of the unfinished message. -/
structure Held where
  hunting : Bool
  bytes : List UInt8
  deriving DecidableEq, Repr

/-- The largest payload that fits the buffer with its header. -/
def maxLength : Nat := cap - hdrLen

/-- The messages the receiver takes from the stream `r` when it holds
nothing, and what it holds afterwards. Leading bytes are looked for only at
the start and after an overlong message; an overlong message costs a full
buffer. -/
def scan (hunting : Bool) (r : List UInt8) : List Cut × Held :=
  if r.length < hdrLen then ([], ⟨hunting, r⟩)
  else if hunting ∧ ¬ leadingBytes <+: r then scan true r.tail
  else if announced r ≤ maxLength then
    if r.length < hdrLen + announced r then ([], ⟨false, r⟩)
    else
      let t := scan false (r.drop (hdrLen + announced r))
      (⟨r.take (hdrLen + announced r), r.drop (hdrLen + announced r)⟩ :: t.1, t.2)
  else if r.length ≤ cap then ([], ⟨false, r⟩)
  else scan true (r.drop cap)
termination_by r.length
decreasing_by all_goals (simp only [hdrLen, cap, List.length_tail, List.length_drop] at *; omega)

theorem scan_short {hunting : Bool} {r : List UInt8} (h : r.length < hdrLen) :
    scan hunting r = ([], ⟨hunting, r⟩) := by
  rw [scan, if_pos h]

theorem scan_skip {r : List UInt8} (h : hdrLen ≤ r.length) (hl : ¬ leadingBytes <+: r) :
    scan true r = scan true r.tail := by
  conv => lhs; rw [scan]
  rw [if_neg (by omega), if_pos ⟨rfl, hl⟩]

/-- Once a header is accepted it no longer matters whether the receiver was looking for it. -/
theorem scan_accepted {hunting : Bool} {r : List UInt8} (h : hdrLen ≤ r.length)
    (hl : hunting = true → leadingBytes <+: r) : scan hunting r = scan false r := by
  cases hunting with
  | false => rfl
  | true =>
    have hs : ¬ r.length < hdrLen := by omega
    conv => lhs; rw [scan]
    conv => rhs; rw [scan]
    rw [if_neg hs, if_neg hs, if_neg (fun hn => hn.2 (hl rfl)), if_neg (by simp : ¬ (false = true ∧ _))]

theorem scan_unfinished {r : List UInt8} (h : hdrLen ≤ r.length) (hc : r.length ≤ cap)
    (hs : r.length < hdrLen + announced r) : scan false r = ([], ⟨false, r⟩) := by
  rw [scan, if_neg (by omega), if_neg (by simp), if_pos hs, if_pos hc, ite_self]

theorem scan_message {r : List UInt8} (h : hdrLen ≤ r.length) (hm : announced r ≤ maxLength)
    (hs : hdrLen + announced r ≤ r.length) :
    scan false r = (⟨r.take (hdrLen + announced r), r.drop (hdrLen + announced r)⟩ ::
      (scan false (r.drop (hdrLen + announced r))).1, (scan false (r.drop (hdrLen + announced r))).2) := by
  rw [scan, if_neg (by omega), if_neg (by simp), if_pos hm, if_neg (by omega)]

theorem scan_overlong {r : List UInt8} (hm : maxLength < announced r) (hs : cap < r.length) :
    scan false r = scan true (r.drop cap) := by
  have : hdrLen < cap := by decide
  rw [scan, if_neg (by omega), if_neg (by simp), if_neg (by omega), if_neg (by omega)]

/-! ## One byte -/

/-- What the receiver can hold: while hunting less than a header, else an
unfinished message within the buffer. -/
def Held.Ok (a : Held) : Prop :=
  if a.hunting then a.bytes.length < hdrLen
  else a.bytes.length ≤ cap ∧ (hdrLen ≤ a.bytes.length → a.bytes.length < hdrLen + announced a.bytes)

/-- The next byte is stored; a full buffer is given up for it. -/
def Held.push (a : Held) (c : UInt8) : Held :=
  if cap ≤ a.bytes.length then ⟨true, [c]⟩ else ⟨a.hunting, a.bytes ++ [c]⟩

/-- What becomes of the stored bytes, and the message they complete. -/
def heldStored (a : Held) : Held × Option (List UInt8) :=
  if a.bytes.length < hdrLen then (a, none)
  else if a.hunting ∧ ¬ leadingBytes <+: a.bytes then (⟨true, a.bytes.tail⟩, none)
  else if a.bytes.length < hdrLen + announced a.bytes then (⟨false, a.bytes⟩, none)
  else (⟨false, []⟩, some a.bytes)

/-- What one byte does to what the receiver holds, and the message it completes. -/
def heldStep (a : Held) (c : UInt8) : Held × Option (List UInt8) := heldStored (a.push c)

/-- Stored bytes: they fit the buffer, hunting they are at most a header, and
they complete a message only with the byte that makes its length. -/
structure Held.Stored (a : Held) : Prop where
  fits : a.bytes.length ≤ cap
  hunt : a.hunting = true → a.bytes.length ≤ hdrLen
  last : hdrLen ≤ a.bytes.length → hdrLen + announced a.bytes ≤ a.bytes.length →
    a.bytes.length = hdrLen + announced a.bytes

theorem announced_append {r : List UInt8} (h : hdrLen ≤ r.length) (t : List UInt8) :
    announced (r ++ t) = announced r := by
  have hl : 10 ≤ r.length := h
  unfold announced field16
  rw [List.getD_append _ _ _ _ (by omega), List.getD_append _ _ _ _ (by omega)]

theorem leading_append {r : List UInt8} (h : hdrLen ≤ r.length) (t : List UInt8) :
    leadingBytes <+: r ++ t ↔ leadingBytes <+: r := by
  have hl : leadingBytes.length ≤ r.length := by
    have : 10 ≤ r.length := h
    exact le_trans (by decide) this
  constructor
  · intro h'
    exact List.prefix_of_prefix_length_le h' (List.prefix_append r t) hl
  · intro h'
    exact h'.trans (List.prefix_append r t)

theorem Held.Ok.hunt {a : Held} (ha : a.Ok) (h : a.hunting = true) : a.bytes.length < hdrLen := by
  unfold Held.Ok at ha
  rwa [if_pos h] at ha

theorem Held.Ok.open {a : Held} (ha : a.Ok) (h : a.hunting = false) :
    a.bytes.length ≤ cap ∧ (hdrLen ≤ a.bytes.length → a.bytes.length < hdrLen + announced a.bytes) := by
  unfold Held.Ok at ha
  rwa [if_neg (by simp [h])] at ha

theorem Held.Ok.push {a : Held} (ha : a.Ok) (c : UInt8) : (a.push c).Stored := by
  have hcap : hdrLen < cap := by decide
  unfold Held.push
  by_cases hfull : cap ≤ a.bytes.length
  · rw [if_pos hfull]
    exact ⟨by simp [cap], fun _ => by simp [hdrLen], fun hl => by simp [hdrLen] at hl⟩
  rw [if_neg hfull]
  refine ⟨?_, fun hh => ?_, fun hl hc => ?_⟩
  · rw [List.length_append, List.length_singleton]; omega
  · have := ha.hunt hh
    rw [List.length_append, List.length_singleton]; omega
  · rw [List.length_append, List.length_singleton] at *
    by_cases hb : hdrLen ≤ a.bytes.length
    · cases hh : a.hunting with
      | true => have := ha.hunt hh; omega
      | false =>
        have := (ha.open hh).2 hb
        simp only [announced_append hb] at hc ⊢
        omega
    · omega

/-- A byte moves from the stream to what is held; a full buffer is lost. -/
theorem scan_push {a : Held} (ha : a.Ok) (c : UInt8) (t : List UInt8) :
    scan a.hunting (a.bytes ++ c :: t) = scan (a.push c).hunting ((a.push c).bytes ++ t) := by
  have hcap : hdrLen < cap := by decide
  unfold Held.push
  by_cases hfull : cap ≤ a.bytes.length
  · have hh : a.hunting = false := by
      by_contra hh
      have := ha.hunt (by simpa using hh)
      omega
    have hok := ha.open hh
    have hlen : a.bytes.length = cap := by omega
    have hover : maxLength < announced (a.bytes ++ c :: t) := by
      rw [announced_append (by omega)]
      have := hok.2 (by omega)
      unfold maxLength
      omega
    rw [if_pos hfull, hh, scan_overlong hover (by simp; omega), ← hlen, List.drop_left]
    rfl
  · rw [if_neg hfull]
    simp

/-- The cut the stored bytes make, and the scan of what is then held and still to come. -/
theorem scan_heldStored {a : Held} (ha : a.Stored) (t : List UInt8) :
    scan a.hunting (a.bytes ++ t) =
      (((heldStored a).2.map (fun m => Cut.mk m t)).toList ++
          (scan (heldStored a).1.hunting ((heldStored a).1.bytes ++ t)).1,
        (scan (heldStored a).1.hunting ((heldStored a).1.bytes ++ t)).2) := by
  unfold heldStored
  by_cases hshort : a.bytes.length < hdrLen
  · rw [if_pos hshort]
    rfl
  rw [if_neg hshort]
  have hlen : hdrLen ≤ (a.bytes ++ t).length := by rw [List.length_append]; omega
  by_cases hskip : a.hunting = true ∧ ¬ leadingBytes <+: a.bytes
  · have hne : a.bytes ≠ [] := by
      intro hn
      simp [hn, hdrLen] at hshort
    rw [if_pos hskip, hskip.1, scan_skip hlen (by rw [leading_append (by omega)]; exact hskip.2),
      List.tail_append_of_ne_nil hne]
    rfl
  rw [if_neg hskip]
  have hacc : scan a.hunting (a.bytes ++ t) = scan false (a.bytes ++ t) := by
    apply scan_accepted hlen
    intro hh
    rw [leading_append (by omega)]
    by_contra hn
    exact hskip ⟨hh, hn⟩
  have hann : announced (a.bytes ++ t) = announced a.bytes := announced_append (by omega) t
  by_cases hpart : a.bytes.length < hdrLen + announced a.bytes
  · rw [if_pos hpart, hacc]
    rfl
  · have hlast := ha.last (by omega) (by omega)
    have hmax : announced a.bytes ≤ maxLength := by
      have := ha.fits
      unfold maxLength
      omega
    rw [if_neg hpart, hacc, scan_message hlen (by rw [hann]; exact hmax)
      (by rw [hann, List.length_append]; omega), hann, ← hlast, List.take_left, List.drop_left]
    rfl

theorem heldStored_ok {a : Held} (ha : a.Stored) : (heldStored a).1.Ok := by
  have hcap : hdrLen < cap := by decide
  have hfits := ha.fits
  unfold heldStored
  by_cases hshort : a.bytes.length < hdrLen
  · rw [if_pos hshort]
    unfold Held.Ok
    split
    · exact hshort
    · exact ⟨hfits, fun hl => absurd hshort (not_lt.2 hl)⟩
  rw [if_neg hshort]
  by_cases hskip : a.hunting = true ∧ ¬ leadingBytes <+: a.bytes
  · have h10 : hdrLen = 10 := rfl
    have := ha.hunt hskip.1
    rw [if_pos hskip]
    show a.bytes.tail.length < hdrLen
    rw [List.length_tail]
    omega
  rw [if_neg hskip]
  by_cases hpart : a.bytes.length < hdrLen + announced a.bytes
  · rw [if_pos hpart]
    exact ⟨hfits, fun _ => hpart⟩
  · rw [if_neg hpart]
    exact ⟨Nat.zero_le _, fun hl => by simp [hdrLen] at hl⟩

/-- One byte of the stream: the cut it completes, and the scan of what is then held and still to come. -/
theorem scan_heldStep {a : Held} (ha : a.Ok) (c : UInt8) (t : List UInt8) :
    scan a.hunting (a.bytes ++ c :: t) =
      (((heldStep a c).2.map (fun m => Cut.mk m t)).toList ++
          (scan (heldStep a c).1.hunting ((heldStep a c).1.bytes ++ t)).1,
        (scan (heldStep a c).1.hunting ((heldStep a c).1.bytes ++ t)).2) := by
  rw [scan_push ha]
  exact scan_heldStored (ha.push c) t

/-- With no more bytes to come nothing is cut. -/
theorem scan_held {a : Held} (ha : a.Ok) : scan a.hunting a.bytes = ([], a) := by
  by_cases hshort : a.bytes.length < hdrLen
  · exact scan_short hshort
  · cases hh : a.hunting with
    | true => have := ha.hunt hh; omega
    | false =>
      have hok := ha.open hh
      rw [scan_unfinished (by omega) hok.1 (hok.2 (by omega)), ← hh]

/-! ## The code takes these steps -/

/-- The pointer a message makes `ipc1_input_msg` call after `fed` bytes, from the payload or from the stack. -/
def Msg.func (pf : Platform) (fed : Nat) (m : Msg) : Nat :=
  if pf.ptrSize ≤ m.length.toNat then leNat (m.val.take pf.ptrSize) else pf.stack fed

/-- The argument it passes. -/
def Msg.cbarg (pf : Platform) (m : Msg) : Nat :=
  if pf.ptrSize + pf.ptrSize ≤ m.length.toNat then leNat ((m.val.drop pf.ptrSize).take pf.ptrSize) else 0

/-- The events of one call of `ipc1_input_msg`. -/
def Msg.events (pf : Platform) (fed : Nat) (m : Msg) : List Event :=
  if m.type = typeCallback1 ∧ m.func pf fed ≠ 0 then [.message m, .call (m.func pf fed) (m.cbarg pf)]
  else [.message m]

/-- The state of the code for what the receiver holds. -/
structure Holds (s : St) (a : Held) : Prop where
  pos : s.ipc.msgFbPos = a.bytes.length
  data : s.ipc.msgFbData.bytes.take a.bytes.length = a.bytes
  state : s.ipc.parseState = if a.hunting then .sync else .payload

theorem load16_eq (data : Block cap) (off : Nat) (h : off + 2 ≤ cap) :
    load16 data off = some (field16 data.bytes off) := by
  have hlen : off + 2 ≤ data.bytes.length := by rw [data.size]; exact h
  unfold load16
  rw [load_some h, getD_drop_take data.bytes off hlen]
  rfl

theorem field16_take (bs : List UInt8) (off k : Nat) (h : off + 2 ≤ k) : field16 (bs.take k) off = field16 bs off := by
  unfold field16
  simp only [List.getD_eq_getElem?_getD, List.getElem?_take]
  rw [if_pos (by omega), if_pos (by omega)]

theorem ofBytes_take (bs : List UInt8) (k : Nat) :
    Msg.ofBytes (bs.take (hdrLen + k)) =
      ⟨bs.take 4, field16 bs 4, field16 bs 6, field16 bs 8, (bs.drop hdrLen).take k⟩ := by
  have h10 : hdrLen = 10 := rfl
  unfold Msg.ofBytes
  rw [List.take_take, Nat.min_eq_left (by omega), field16_take _ _ _ (by omega), field16_take _ _ _ (by omega),
    field16_take _ _ _ (by omega), List.drop_take, Nat.add_sub_cancel_left]

theorem loadFunc_eq (pf : Platform) (fed : Nat) (data : Block cap) (k : Nat) (h : hdrLen + k ≤ cap) :
    loadFunc pf fed data k =
      some (if pf.ptrSize ≤ k then leNat (((data.bytes.drop hdrLen).take k).take pf.ptrSize) else pf.stack fed) := by
  unfold loadFunc
  split
  · rename_i hp
    rw [load_some (by omega), Option.map_some, List.take_take, Nat.min_eq_left hp]
  · rfl

theorem loadCbarg_eq (pf : Platform) (data : Block cap) (k : Nat) (h : hdrLen + k ≤ cap) :
    loadCbarg pf data k =
      some (if pf.ptrSize + pf.ptrSize ≤ k then
        leNat ((((data.bytes.drop hdrLen).take k).drop pf.ptrSize).take pf.ptrSize) else 0) := by
  unfold loadCbarg
  split
  · rename_i hp
    rw [load_some (by omega), Option.map_some, List.drop_take, List.drop_drop, List.take_take,
      Nat.min_eq_left (by omega)]
  · rfl

/-- The message at the start of the buffer is handed over as it lies there. -/
theorem ipc1InputMsg_eq (pf : Platform) (fed : Nat) (data : Block cap)
    (h : hdrLen + announced data.bytes ≤ cap) :
    ipc1InputMsg pf fed data =
      some ((Msg.ofBytes (data.bytes.take (hdrLen + announced data.bytes))).events pf fed) := by
  have h10 : hdrLen = 10 := rfl
  have hcap : cap = 2048 := rfl
  have hk : (field16 data.bytes 8).toNat = announced data.bytes := rfl
  unfold ipc1InputMsg
  rw [load_some (by omega), load16_eq data 4 (by omega), load16_eq data 6 (by omega), load16_eq data 8 (by omega)]
  simp only [Option.bind_eq_bind, Option.bind_some, hk]
  rw [load_some h, Option.bind_some, loadFunc_eq pf fed data _ h, loadCbarg_eq pf data _ h, ofBytes_take]
  unfold Msg.events Msg.func Msg.cbarg
  simp only [hk, Option.bind_some, List.drop_zero]
  by_cases ht : field16 data.bytes 6 = typeCallback1
  · simp only [ht, if_true, true_and]
    exact (apply_ite some _ _ _).symm
  · rw [if_neg ht, if_neg (fun hn => ht hn.1)]

/-! ### The payload branch -/

theorem announced_take {bs : List UInt8} {k : Nat} (h : hdrLen ≤ k) : announced (bs.take k) = announced bs := by
  have h10 : hdrLen = 10 := rfl
  unfold announced
  rw [field16_take _ _ _ (by omega)]

/-- Short of a header the stale length cannot complete a message: it only adds to the header. -/
theorem inputPayload_wait (pf : Platform) {s : St} {r : List UInt8} (h : Holds s ⟨false, r⟩)
    (hw : r.length < hdrLen ∨ r.length < hdrLen + announced r) : inputPayload pf s = some s := by
  have hk : (field16 s.ipc.msgFbData.bytes 8).toNat = announced s.ipc.msgFbData.bytes := rfl
  have hpos : s.ipc.msgFbPos = r.length := h.pos
  have hdata : s.ipc.msgFbData.bytes.take r.length = r := h.data
  unfold inputPayload
  rw [load16_eq _ 8 (by decide)]
  simp only [Option.bind_eq_bind, Option.bind_some, hk]
  apply if_pos
  rw [hpos]
  by_cases hs : r.length < hdrLen
  · omega
  · have : announced (s.ipc.msgFbData.bytes.take r.length) = announced s.ipc.msgFbData.bytes := announced_take (by omega)
    rw [hdata] at this
    omega

theorem inputPayload_done (pf : Platform) {s : St} {r : List UInt8} (h : Holds s ⟨false, r⟩)
    (hc : r.length ≤ cap) (hd : r.length = hdrLen + announced r) :
    ∃ s', inputPayload pf s = some s' ∧ Holds s' ⟨false, []⟩ ∧ s'.fed = s.fed ∧
      s'.log = s.log ++ ((Msg.ofBytes r).events pf s.fed).map (fun e => (s.fed, e)) := by
  have hk : (field16 s.ipc.msgFbData.bytes 8).toNat = announced s.ipc.msgFbData.bytes := rfl
  have hpos : s.ipc.msgFbPos = r.length := h.pos
  have hdata : s.ipc.msgFbData.bytes.take r.length = r := h.data
  have ha : announced s.ipc.msgFbData.bytes = announced r := by
    have : announced (s.ipc.msgFbData.bytes.take r.length) = announced s.ipc.msgFbData.bytes := announced_take (by omega)
    rw [hdata] at this
    exact this.symm
  have hmsg := ipc1InputMsg_eq pf s.fed s.ipc.msgFbData (by omega)
  rw [ha, ← hd, hdata] at hmsg
  refine ⟨{ s with
    log := s.log ++ ((Msg.ofBytes r).events pf s.fed).map (fun e => (s.fed, e))
    ipc := { s.ipc with msgFbPos := 0 } }, ?_, ⟨rfl, rfl, h.state⟩, rfl, rfl⟩
  unfold inputPayload
  rw [load16_eq _ 8 (by decide)]
  simp only [Option.bind_eq_bind, Option.bind_some, hk, hmsg]
  rw [if_neg (by omega), if_pos (by omega)]

/-! ### One byte of the code -/

/-- The log entries of the message a byte completes. -/
def stamped (pf : Platform) (fed : Nat) (m : List UInt8) : List (Nat × Event) :=
  ((Msg.ofBytes m).events pf fed).map (fun e => (fed, e))

/-- Storing the next byte right after the bytes held. -/
theorem store_next {data : Block cap} {r : List UInt8} (hr : data.bytes.take r.length = r) (h : r.length < cap)
    (c : UInt8) : ∃ q, data.store r.length [c] = some q ∧ q.bytes.take (r ++ [c]).length = r ++ [c] := by
  have hle : r.length + [c].length ≤ cap := h
  obtain ⟨q, hq, hb⟩ := store_some (p := data) hle
  refine ⟨q, hq, ?_⟩
  have := take_store hle hb
  rw [List.length_append, this, hr]

/-- `memmove` by one place drops the first byte held. -/
theorem dropFront_one {ipc : Ipc1} {b : UInt8} {r : List UInt8} (hp : ipc.msgFbPos = (b :: r).length)
    (hr : ipc.msgFbData.bytes.take (b :: r).length = b :: r) (hc : (b :: r).length ≤ cap) :
    ∃ q, dropFront ipc 1 = some { ipc with msgFbData := q, msgFbPos := r.length } ∧ q.bytes.take r.length = r := by
  have hlen : ipc.msgFbPos - 1 = r.length := by rw [hp]; simp
  have hkept : (ipc.msgFbData.bytes.drop 1).take r.length = r := by
    have := congrArg List.tail hr
    rwa [List.length_cons, ← List.drop_one, List.drop_take, Nat.add_sub_cancel] at this
  rw [List.length_cons] at hc
  have hle : 0 + r.length ≤ cap := by omega
  obtain ⟨q, hq, hb⟩ := store_some (p := ipc.msgFbData) hle
  refine ⟨q, ?_, ?_⟩
  · unfold dropFront
    rw [hlen, load_some (by omega), hkept]
    simp only [Option.bind_eq_bind, Option.bind_some, hq]
  · have := take_store hle hb
    simpa using this

theorem take_leading {r : List UInt8} : r.take 4 = leadingBytes ↔ leadingBytes <+: r := by
  rw [List.prefix_iff_eq_take, eq_comm]
  rfl

/-- The loop body after the byte is stored. -/
theorem inputStored_held (pf : Platform) {s : St} {a : Held} (h : Holds s a) (ha : a.Stored) :
    ∃ s', inputStored pf s = some s' ∧ Holds s' (heldStored a).1 ∧ s'.fed = s.fed ∧
      s'.log = s.log ++ ((heldStored a).2.map (stamped pf s.fed)).getD [] := by
  have hcap : hdrLen < cap := by decide
  have hpos : s.ipc.msgFbPos = a.bytes.length := h.pos
  unfold inputStored heldStored
  rw [h.state]
  by_cases hshort : a.bytes.length < hdrLen
  · rw [if_pos hshort]
    refine ⟨s, ?_, h, rfl, by simp⟩
    cases hh : a.hunting with
    | true => exact if_pos (by omega)
    | false => exact inputPayload_wait pf (r := a.bytes) ⟨hpos, h.data, by rw [h.state, hh]⟩ (Or.inl hshort)
  rw [if_neg hshort]
  -- a whole header is there: either it is refused, or the payload branch decides
  have hpay (s' : St) (hs : Holds s' ⟨false, a.bytes⟩) :
      ∃ s'', inputPayload pf s' = some s'' ∧
        Holds s'' (if a.bytes.length < hdrLen + announced a.bytes then (⟨false, a.bytes⟩, none)
          else ((⟨false, []⟩ : Held), some a.bytes)).1 ∧
        s''.fed = s'.fed ∧ s''.log = s'.log ++
          ((if a.bytes.length < hdrLen + announced a.bytes then ((⟨false, a.bytes⟩ : Held), none)
            else ((⟨false, []⟩ : Held), some a.bytes)).2.map (stamped pf s'.fed)).getD [] := by
    by_cases hw : a.bytes.length < hdrLen + announced a.bytes
    · rw [if_pos hw, inputPayload_wait pf hs (Or.inr hw)]
      exact ⟨s', rfl, hs, rfl, by simp⟩
    · rw [if_neg hw]
      exact inputPayload_done pf hs ha.fits (ha.last (by omega) (by omega))
  cases hh : a.hunting with
  | false =>
    rw [if_neg (by simp)]
    exact hpay s ⟨hpos, h.data, by rw [h.state, hh]⟩
  | true =>
    have hload : s.ipc.msgFbData.load 0 4 = some (a.bytes.take 4) := by
      have h10 : hdrLen = 10 := rfl
      rw [load_some (by decide), List.drop_zero]
      conv => rhs; rw [← h.data, List.take_take, Nat.min_eq_left (by omega)]
    simp only [if_true, hload, Option.bind_eq_bind, Option.bind_some, true_and]
    rw [if_neg (by omega)]
    by_cases hlead : leadingBytes <+: a.bytes
    · rw [if_neg (by simpa using (take_leading).2 hlead), if_neg (by simpa using hlead)]
      exact hpay _ ⟨hpos, h.data, rfl⟩
    · rw [if_pos (fun hn => hlead ((take_leading).1 hn)), if_pos hlead]
      -- no leading bytes: one byte is dropped and the hunt goes on
      obtain ⟨b, r, hbr⟩ : ∃ b r, a.bytes = b :: r := by
        cases hb : a.bytes with
        | nil => simp [hb, hdrLen] at hshort
        | cons b r => exact ⟨b, r, rfl⟩
      have hd := h.data
      have hf := ha.fits
      rw [hbr] at hpos hd hf
      obtain ⟨q, hq, hqb⟩ := dropFront_one hpos hd hf
      rw [hq]
      refine ⟨_, rfl, ⟨?_, ?_, ?_⟩, rfl, by simp⟩
      · rw [hbr]; rfl
      · rw [hbr]; exact hqb
      · show s.ipc.parseState = _
        rw [h.state, hh]

/-- One round of the loop takes the step of what the receiver holds and logs the message it completes. -/
theorem inputByte_held (pf : Platform) {s : St} {a : Held} (h : Holds s a) (ha : a.Ok) (c : UInt8) :
    ∃ s', inputByte pf s c = some s' ∧ Holds s' (heldStep a c).1 ∧ s'.fed = s.fed + 1 ∧
      s'.log = s.log ++ ((heldStep a c).2.map (stamped pf (s.fed + 1))).getD [] := by
  have hst := ha.push c
  unfold inputByte resetFull heldStep
  unfold Held.push at hst ⊢
  by_cases hfull : cap ≤ a.bytes.length
  · have hpos : s.ipc.msgFbPos ≥ cap := by rw [h.pos]; exact hfull
    obtain ⟨q, hq, hb⟩ : ∃ q, s.ipc.msgFbData.store 0 [c] = some q ∧ q.bytes.take 1 = [c] :=
      store_next (r := []) rfl (by decide) c
    rw [if_pos hpos, if_pos hfull]
    simp only [hq, Option.bind_eq_bind, Option.bind_some]
    rw [if_pos hfull] at hst
    exact inputStored_held pf (a := ⟨true, [c]⟩) ⟨rfl, hb, rfl⟩ hst
  · have hpos : ¬ s.ipc.msgFbPos ≥ cap := by rw [h.pos]; exact hfull
    obtain ⟨q, hq, hb⟩ := store_next h.data (by omega) c
    rw [if_neg hpos, if_neg hfull]
    simp only [h.pos, hq, Option.bind_eq_bind, Option.bind_some]
    rw [if_neg hfull] at hst
    exact inputStored_held pf (a := ⟨a.hunting, a.bytes ++ [c]⟩) ⟨by simp, hb, h.state⟩ hst

/-! ## Whole streams -/

/-- The log a list of cuts of a stream of `total` bytes makes. -/
def Cut.entries (pf : Platform) (total : Nat) (c : Cut) : List (Nat × Event) := stamped pf (total - c.rest.length) c.msg

/-- Feeding a stream gives the cuts of the scan, and leaves what it holds in the end. -/
theorem ipc1Input_held (pf : Platform) {s : St} {a : Held} (h : Holds s a) (ha : a.Ok) (r : List UInt8) :
    ∃ s', ipc1Input pf s r = some s' ∧ Holds s' (scan a.hunting (a.bytes ++ r)).2 ∧
      (scan a.hunting (a.bytes ++ r)).2.Ok ∧ s'.fed = s.fed + r.length ∧
      s'.log = s.log ++ (scan a.hunting (a.bytes ++ r)).1.flatMap (Cut.entries pf (s.fed + r.length)) := by
  -- `a` is what the receiver holds: a byte makes it `heldStep a c`, and the scan of the whole agrees
  induction r generalizing s a with
  | nil =>
    rw [List.append_nil, scan_held ha]
    exact ⟨s, rfl, h, ha, rfl, by simp⟩
  | cons c t ih =>
    obtain ⟨s₁, hs₁, hh₁, hf₁, hl₁⟩ := inputByte_held pf h ha c
    obtain ⟨s₂, hs₂, hh₂, ho₂, hf₂, hl₂⟩ := ih hh₁ (heldStored_ok (ha.push c))
    have hfed : s₁.fed + t.length = s.fed + (c :: t).length := by
      rw [hf₁, List.length_cons]
      omega
    rw [scan_heldStep ha]
    refine ⟨s₂, ?_, hh₂, ho₂, hf₂.trans hfed, ?_⟩
    · simp only [ipc1Input, hs₁, Option.bind_eq_bind, Option.bind_some, hs₂]
    · rw [hl₂, hl₁, hfed, List.flatMap_append, List.append_assoc]
      congr 2
      -- the cut is stamped with the bytes fed when its last byte came
      cases hm : (heldStep a c).2 with
      | none => rfl
      | some m =>
        have hst : s.fed + (c :: t).length - t.length = s.fed + 1 := by
          rw [List.length_cons]
          omega
        simp only [Option.map_some, Option.getD_some, Option.toList_some, List.flatMap_singleton]
        unfold Cut.entries
        rw [hst]

theorem ipc1Input_append (pf : Platform) (s : St) (a b : List UInt8) :
    ipc1Input pf s (a ++ b) = (ipc1Input pf s a).bind (fun s => ipc1Input pf s b) := by
  induction a generalizing s with
  | nil => rfl
  | cons c t ih =>
    simp only [List.cons_append, ipc1Input, Option.bind_eq_bind, Option.bind_assoc]
    congr 1
    funext s'
    exact ih s'

/-- How the stream is cut into reads does not matter. -/
theorem inputReads_flatten (pf : Platform) (s : St) (reads : List (List UInt8)) :
    inputReads pf s reads = ipc1Input pf s reads.flatten := by
  induction reads generalizing s with
  | nil => rfl
  | cons buf t ih =>
    rw [List.flatten_cons, ipc1Input_append]
    simp only [inputReads, Option.bind_eq_bind]
    congr 1
    funext s'
    exact ih s'

theorem init_held : Holds St.init ⟨true, []⟩ := ⟨rfl, rfl, rfl⟩

theorem hunting_ok : (⟨true, []⟩ : Held).Ok := by
  show 0 < hdrLen
  decide

/-- The receiver on a whole stream, however it is cut into reads. -/
theorem inputReads_scan (pf : Platform) (reads : List (List UInt8)) :
    ∃ s, inputReads pf .init reads = some s ∧ Holds s (scan true reads.flatten).2 ∧
      s.log = (scan true reads.flatten).1.flatMap (Cut.entries pf reads.flatten.length) := by
  obtain ⟨s, hs, hh, -, -, hl⟩ := ipc1Input_held pf init_held hunting_ok reads.flatten
  refine ⟨s, ?_, hh, ?_⟩
  · rw [inputReads_flatten, hs]
  · simpa [St.init] using hl

end AlgaeBp.Ipc
