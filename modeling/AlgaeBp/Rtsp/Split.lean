import Mathlib.Data.List.Infix
/-!
# Annex-B streams

`annexBStartCodeSize` and `splitAnnexBNals` of `tester_v4l2rtsp2.cpp`. A read
outside the stream is `none`, and so is a loop that is not left within one turn
more than the stream has bytes; `split_annexB` says that neither happens, and
which pieces come out.
-/

namespace AlgaeBp.Rtsp

/-! ## The code -/

/-- `p[pos] == b0 && p[pos + 1] == b1 && ..`. -/
def bytesAre (p : List UInt8) (pos : Nat) : List UInt8 → Option Bool
  | [] => some true
  | b :: bs => do
    let byte ← p[pos]?
    if byte = b then bytesAre p (pos + 1) bs else return false

/-- `pos + n <= size && p[pos] == b0 && ..`, for a code of `n` bytes. -/
def codeAt (p : List UInt8) (size pos : Nat) (code : List UInt8) : Option Bool :=
  if pos + code.length ≤ size then bytesAre p pos code else some false

def annexBStartCodeSize (p : List UInt8) (size pos : Nat) : Option Nat := do
  if ← codeAt p size pos [0, 0, 0, 1] then return 4
  if ← codeAt p size pos [0, 0, 1] then return 3
  return 0

/-- The inner loop. -/
def nalEnd (annexB : List UInt8) : Nat → Nat → Option Nat
  | 0, _ => none
  | turns + 1, i =>
    if i < annexB.length then do
      let sc ← annexBStartCodeSize annexB annexB.length i
      if 0 < sc then return i else nalEnd annexB turns (i + 1)
    else some i

/-- The outer loop. -/
def splitFrom (annexB : List UInt8) : Nat → Nat → List (List UInt8) → Option (List (List UInt8))
  | 0, _, _ => none
  | turns + 1, i, nalUnits =>
    if i < annexB.length then do
      let sc ← annexBStartCodeSize annexB annexB.length i
      if sc = 0 then splitFrom annexB turns (i + 1) nalUnits
      else do
        let nalStart := i + sc
        let i ← nalEnd annexB turns nalStart
        splitFrom annexB turns i
          (if nalStart < i then nalUnits ++ [(annexB.drop nalStart).take (i - nalStart)] else nalUnits)
    else some nalUnits

/-- `splitAnnexBNals`, which appends to `nalUnits`. -/
def splitAnnexBNals (annexB : List UInt8) (nalUnits : List (List UInt8)) : Option (List (List UInt8)) :=
  splitFrom annexB (annexB.length + 1) 0 nalUnits

/-! ## Start codes -/

inductive StartCode where
  | three
  | four
  deriving DecidableEq, Repr

def StartCode.bytes : StartCode → List UInt8
  | three => [0, 0, 1]
  | four => [0, 0, 0, 1]

/-- The size of the start code that a stream begins with, 0 if there is none. -/
def codeSize : List UInt8 → Nat
  | 0 :: 0 :: 0 :: 1 :: _ => 4
  | 0 :: 0 :: 1 :: _ => 3
  | _ => 0

variable {p : List UInt8} {i : Nat}

theorem bytesAre_eq (bs : List UInt8) : ∀ i,
    i + bs.length ≤ p.length → bytesAre p i bs = some (decide (bs <+: p.drop i)) := by
  induction bs with
  | nil => intro i _; simp [bytesAre]
  | cons b bs ih =>
    intro i hle
    rw [List.length_cons] at hle
    have hi : i < p.length := by omega
    rw [bytesAre, List.getElem?_eq_getElem hi, Option.bind_eq_bind, Option.bind_some, List.drop_eq_getElem_cons hi,
      ih (i + 1) (by omega)]
    simp only [List.cons_prefix_cons, eq_comm (a := b)]
    by_cases hb : p[i] = b <;> simp [hb]

theorem codeSize_eq (s : List UInt8) :
    codeSize s = if StartCode.four.bytes <+: s then 4 else if StartCode.three.bytes <+: s then 3 else 0 := by
  unfold codeSize
  split
  · simp [StartCode.bytes]
  · simp [StartCode.bytes]
  · rename_i h₁ h₂
    rw [if_neg, if_neg]
    · rintro ⟨t, rfl⟩
      exact h₂ t rfl
    · rintro ⟨t, rfl⟩
      exact h₁ t rfl

theorem codeAt_eq {code : List UInt8} (hne : code ≠ []) :
    codeAt p p.length i code = some (decide (code <+: p.drop i)) := by
  rw [codeAt]
  by_cases hle : i + code.length ≤ p.length
  · rw [if_pos hle, bytesAre_eq code i hle]
  · have hnot : ¬ code <+: p.drop i := by
      intro hpref
      have hlen := hpref.length_le
      have hpos := List.length_pos_iff.2 hne
      rw [List.length_drop] at hlen
      omega
    rw [if_neg hle, decide_eq_false hnot]

/-- Every call reads inside the stream. -/
theorem annexBStartCodeSize_eq (p : List UInt8) (i : Nat) :
    annexBStartCodeSize p p.length i = some (codeSize (p.drop i)) := by
  rw [annexBStartCodeSize, codeAt_eq (List.cons_ne_nil _ _), codeAt_eq (List.cons_ne_nil _ _), codeSize_eq]
  by_cases hfour : [0, 0, 0, 1] <+: p.drop i
  · simp [StartCode.bytes, hfour]
  · by_cases hthree : [0, 0, 1] <+: p.drop i <;> simp [StartCode.bytes, hfour, hthree]

@[simp] theorem codeSize_bytes (c : StartCode) (s : List UInt8) : codeSize (c.bytes ++ s) = c.bytes.length := by
  cases c <;> rfl

theorem exists_startCode {s : List UInt8} (h : codeSize s ≠ 0) :
    ∃ c : StartCode, codeSize s = c.bytes.length ∧ c.bytes <+: s := by
  rw [codeSize_eq] at h ⊢
  split
  · rename_i hfour
    exact ⟨.four, rfl, hfour⟩
  · rename_i hfour
    rw [if_neg hfour] at h
    split
    · rename_i hthree
      exact ⟨.three, rfl, hthree⟩
    · rename_i hthree
      rw [if_neg hthree] at h
      exact absurd rfl h

/-- The inner loop stops at the next start code, or at the end. -/
theorem nalEnd_eq {turns : Nat} (hi : i ≤ p.length) (hturns : p.length - i < turns) :
    ∃ e, nalEnd p turns i = some e ∧ i ≤ e ∧ e ≤ p.length ∧ (∀ k, i ≤ k → k < e → codeSize (p.drop k) = 0) ∧
      (e < p.length → 0 < codeSize (p.drop e)) := by
  induction turns generalizing i with
  | zero => omega
  | succ turns ih =>
    rw [nalEnd]
    by_cases hlt : i < p.length
    · rw [if_pos hlt, annexBStartCodeSize_eq, Option.bind_eq_bind, Option.bind_some]
      by_cases hcode : 0 < codeSize (p.drop i)
      · rw [if_pos hcode]
        exact ⟨i, rfl, le_rfl, hi, fun k hk hke => by omega, fun _ => hcode⟩
      · rw [if_neg hcode]
        obtain ⟨e, he, hie, hep, hfree, hstop⟩ := ih (i := i + 1) hlt (by omega)
        refine ⟨e, he, by omega, hep, ?_, hstop⟩
        intro k hk hke
        rcases Nat.eq_or_lt_of_le hk with rfl | hk
        · omega
        · exact hfree k hk hke
    · rw [if_neg hlt]
      exact ⟨i, rfl, le_rfl, hi, fun k hk hke => by omega, fun h => absurd h hlt⟩

/-! ## The pieces of any stream -/

structure Span where
  start : Nat
  stop : Nat

def Span.piece (p : List UInt8) (s : Span) : List UInt8 := (p.drop s.start).take (s.stop - s.start)

/-- Not empty, inside the stream, and directly behind a start code. -/
def Span.BehindCode (p : List UInt8) (s : Span) : Prop :=
  s.start < s.stop ∧ s.stop ≤ p.length ∧ ∃ c : StartCode, c.bytes <:+ p.take s.start

theorem behind_code {c : StartCode} (h : c.bytes <+: p.drop i) : c.bytes <:+ p.take (i + c.bytes.length) := by
  rw [List.take_add, ← List.prefix_iff_eq_take.1 h]
  exact List.suffix_append _ _

theorem splitFrom_pieces {turns : Nat} (hturns : p.length - i < turns) (nalUnits : List (List UInt8)) :
    ∃ spans : List Span, splitFrom p turns i nalUnits = some (nalUnits ++ spans.map (Span.piece p)) ∧
      (∀ s ∈ spans, i ≤ s.start ∧ s.BehindCode p) ∧ spans.Pairwise fun s t => s.stop ≤ t.start := by
  induction turns generalizing i nalUnits with
  | zero => omega
  | succ turns ih =>
    rw [splitFrom]
    by_cases hlt : i < p.length
    · rw [if_pos hlt, annexBStartCodeSize_eq, Option.bind_eq_bind, Option.bind_some]
      by_cases hcode : codeSize (p.drop i) = 0
      · rw [if_pos hcode]
        obtain ⟨spans, hsplit, hbehind, horder⟩ := ih (i := i + 1) (by omega) nalUnits
        exact ⟨spans, hsplit, fun s hs => ⟨by have := (hbehind s hs).1; omega, (hbehind s hs).2⟩, horder⟩
      · rw [if_neg hcode]
        obtain ⟨c, hsize, hpref⟩ := exists_startCode hcode
        have hlen := hpref.length_le
        rw [List.length_drop] at hlen
        obtain ⟨e, he, hie, hep, -, -⟩ := nalEnd_eq (p := p) (i := i + c.bytes.length) (by omega)
          (by omega : p.length - (i + c.bytes.length) < turns)
        obtain ⟨spans, hsplit, hbehind, horder⟩ := ih (i := e) (by omega)
          (if i + c.bytes.length < e then
            nalUnits ++ [(p.drop (i + c.bytes.length)).take (e - (i + c.bytes.length))] else nalUnits)
        simp only [hsize, he, Option.bind_some]
        by_cases hne : i + c.bytes.length < e
        · rw [if_pos hne] at hsplit ⊢
          refine ⟨⟨i + c.bytes.length, e⟩ :: spans, ?_, ?_, ?_⟩
          · rw [hsplit, List.append_assoc]
            rfl
          · intro s hs
            rcases List.mem_cons.1 hs with rfl | hs
            · exact ⟨Nat.le_add_right _ _, hne, hep, c, behind_code hpref⟩
            · exact ⟨by have := (hbehind s hs).1; omega, (hbehind s hs).2⟩
          · exact List.pairwise_cons.2 ⟨fun s hs => (hbehind s hs).1, horder⟩
        · rw [if_neg hne] at hsplit ⊢
          exact ⟨spans, hsplit, fun s hs => ⟨by have := (hbehind s hs).1; omega, (hbehind s hs).2⟩, horder⟩
    · rw [if_neg hlt]
      exact ⟨[], by simp, by simp, List.Pairwise.nil⟩

/-! ## Streams of NAL units -/

/-- A unit that cannot be taken for a start code or for a part of one. -/
structure Nal where
  bytes : List UInt8
  nonempty : bytes ≠ []
  free : ¬ StartCode.three.bytes <:+: bytes
  ends : bytes.getLast? ≠ some 0

def annexB (units : List (StartCode × Nal)) : List UInt8 := units.flatMap fun u => u.1.bytes ++ u.2.bytes

/-- Behind a byte other than 0 no start code goes on. -/
theorem codeSize_append_eq_zero {s : List UInt8} (rest : List UInt8) (hne : s ≠ []) (hfree : ¬ StartCode.three.bytes <:+: s)
    (hends : s.getLast? ≠ some 0) : codeSize (s ++ rest) = 0 := by
  unfold codeSize
  split
  · rename_i t h
    rcases s with _ | ⟨a, _ | ⟨b, _ | ⟨c, _ | ⟨d, s⟩⟩⟩⟩
    · exact absurd rfl hne
    · simp_all
    · simp_all
    · simp_all
    · simp only [List.cons_append, List.cons.injEq] at h
      obtain ⟨rfl, rfl, rfl, rfl, -⟩ := h
      exact absurd ⟨[0], s, rfl⟩ hfree
  · rename_i t h
    rcases s with _ | ⟨a, _ | ⟨b, _ | ⟨c, s⟩⟩⟩
    · exact absurd rfl hne
    · simp_all
    · simp_all
    · simp only [List.cons_append, List.cons.injEq] at h
      obtain ⟨rfl, rfl, rfl, -⟩ := h
      exact absurd ⟨[], s, rfl⟩ hfree
  · rfl

theorem Nal.codeSize_drop (n : Nal) (rest : List UInt8) {k : Nat} (hk : k < n.bytes.length) :
    codeSize (n.bytes.drop k ++ rest) = 0 := by
  apply codeSize_append_eq_zero
  · rw [Ne, List.drop_eq_nil_iff]
    omega
  · intro h
    exact n.free (h.trans (List.drop_suffix _ _).isInfix)
  · rw [List.getLast?_drop, if_neg (by omega)]
    exact n.ends

theorem splitFrom_annexB (units : List (StartCode × Nal)) {turns : Nat} (hdrop : p.drop i = annexB units)
    (hturns : p.length - i < turns) (nalUnits : List (List UInt8)) :
    splitFrom p turns i nalUnits = some (nalUnits ++ units.map fun u => u.2.bytes) := by
  induction units generalizing i turns nalUnits with
  | nil =>
    obtain ⟨turns, rfl⟩ := Nat.exists_eq_succ_of_ne_zero (by omega : turns ≠ 0)
    have hend : ¬ i < p.length := by
      have hlen := congrArg List.length hdrop
      rw [List.length_drop, annexB, List.flatMap_nil, List.length_nil] at hlen
      omega
    rw [splitFrom, if_neg hend, List.map_nil, List.append_nil]
  | cons u units ih =>
    obtain ⟨c, n⟩ := u
    obtain ⟨turns, rfl⟩ := Nat.exists_eq_succ_of_ne_zero (by omega : turns ≠ 0)
    replace hdrop : p.drop i = c.bytes ++ (n.bytes ++ annexB units) := by
      rw [hdrop, annexB, List.flatMap_cons, List.append_assoc]
      rfl
    have hlen := congrArg List.length hdrop
    rw [List.length_drop, List.length_append, List.length_append] at hlen
    have hcode : 0 < c.bytes.length := by cases c <;> decide
    have hnal := List.length_pos_iff.2 n.nonempty
    have hstart : ∀ k ≤ n.bytes.length, p.drop (i + c.bytes.length + k) = n.bytes.drop k ++ annexB units := by
      intro k hk
      rw [Nat.add_assoc, ← List.drop_drop, hdrop, ← List.drop_drop, List.drop_left, List.drop_append_of_le_length hk]
    obtain ⟨e, he, hie, hep, hfree, hstop⟩ := nalEnd_eq (p := p) (i := i + c.bytes.length) (by omega)
          (by omega : p.length - (i + c.bytes.length) < turns)
    have hrest : p.drop (i + c.bytes.length + n.bytes.length) = annexB units := by
      rw [hstart _ le_rfl, List.drop_length, List.nil_append]
    -- the unit ends where the next start code begins
    have hend : e = i + c.bytes.length + n.bytes.length := by
      rcases Nat.lt_trichotomy e (i + c.bytes.length + n.bytes.length) with hlt | heq | hgt
      · obtain ⟨k, rfl⟩ := Nat.exists_eq_add_of_le hie
        have hpos := hstop (by omega)
        rw [hstart k (by omega), n.codeSize_drop _ (by omega)] at hpos
        omega
      · exact heq
      · have hzero := hfree _ (Nat.le_add_right _ _) hgt
        rw [hrest] at hzero
        cases units with
        | nil =>
          rw [annexB, List.flatMap_nil, List.length_nil] at hlen
          omega
        | cons v units =>
          rw [annexB, List.flatMap_cons, List.append_assoc, codeSize_bytes] at hzero
          have hpos : 0 < v.1.bytes.length := by cases v.1 <;> decide
          omega
    subst hend
    rw [splitFrom, if_pos (by omega), annexBStartCodeSize_eq, hdrop, codeSize_bytes, Option.bind_eq_bind, Option.bind_some,
      if_neg (by omega)]
    simp only [he, Option.bind_some]
    rw [if_pos (by omega), ih hrest (by omega), Nat.add_sub_cancel_left, ← Nat.add_zero (i + c.bytes.length),
      hstart 0 (Nat.zero_le _), List.drop_zero, List.take_left, List.append_assoc]
    rfl

/-- **Units with their start codes are split into the units, and every stream into pieces behind start codes.** -/
theorem split_annexB :
    (∀ (units : List (StartCode × Nal)) (nalUnits : List (List UInt8)),
      splitAnnexBNals (annexB units) nalUnits = some (nalUnits ++ units.map fun u => u.2.bytes)) ∧
    ∀ p nalUnits : _, ∃ spans : List Span,
      splitAnnexBNals p nalUnits = some (nalUnits ++ spans.map (Span.piece p)) ∧
        (∀ s ∈ spans, s.BehindCode p) ∧ spans.Pairwise fun s t => s.stop ≤ t.start := by
  constructor
  · intro units nalUnits
    exact splitFrom_annexB units (List.drop_zero ..) (by omega) nalUnits
  · intro p nalUnits
    obtain ⟨spans, hsplit, hbehind, horder⟩ := splitFrom_pieces (p := p) (i := 0) (Nat.lt_succ_self _) nalUnits
    exact ⟨spans, hsplit, fun s hs => (hbehind s hs).2, horder⟩

/-- Two units, the second with two zeros in it. -/
def twoUnits : List (StartCode × Nal) :=
  [(.four, ⟨[0x67, 0x42], by decide, by decide, by decide⟩), (.three, ⟨[0x65, 0, 0, 3], by decide, by decide, by decide⟩)]

theorem split_annexB_two : splitAnnexBNals (annexB twoUnits) [] = some [[0x67, 0x42], [0x65, 0, 0, 3]] :=
  split_annexB.1 twoUnits []

end AlgaeBp.Rtsp
