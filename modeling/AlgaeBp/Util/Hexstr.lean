import AlgaeBp.Lib.Bytes
import AlgaeBp.Lib.Ints
import Mathlib.Data.List.Basic
/-!
# Hexadecimal text

`aloe_hexstr` of `util.cpp`. A `NULL` separator is `none`, any other is given by
its `sep_len` bytes. The counters are `int`: what exceeds the largest `int`
answers `none`, in the conversion of `pos + sep_len` too, which C leaves to the
implementation.
-/

namespace AlgaeBp.Util

open Bytes Ints

/-! ## The code -/

/-- `"0123456789abcdef"` -/
def aloeHexChars : List UInt8 :=
  [0x30, 0x31, 0x32, 0x33, 0x34, 0x35, 0x36, 0x37, 0x38, 0x39, 0x61, 0x62, 0x63, 0x64, 0x65, 0x66]

def hexHigh (b : UInt8) : UInt8 := aloeHexChars.getD ((b >>> 4) &&& 0x0f).toNat 0

def hexLow (b : UInt8) : UInt8 := aloeHexChars.getD (b &&& 0x0f).toNat 0

/-- The loop, with `p[i]` and the bytes behind it left. Leaving it answers `pos` and the buffer. -/
def hexstrLoop {bufLen : Nat} (sz : Nat) (sep : List UInt8) :
    List UInt8 → Nat → Nat → Block bufLen → Option (Nat × Block bufLen)
  | [], _, pos, ox => some (pos, ox)
  | b :: p, i, pos, ox => do
    if (← int (pos + 2)) ≥ bufLen then some (pos, ox)
    else do
      let ox ← ox.store pos [hexHigh b]
      let pos ← int (pos + 1)
      let ox ← ox.store pos [hexLow b]
      let pos ← int (pos + 1)
      let next ← int (i + 1)
      if sep.length > 0 ∧ next < sz then
        if pos + sep.length ≥ bufLen then some (pos, ox)
        else do
          let ox ← ox.store pos sep
          let pos ← int (pos + sep.length)
          hexstrLoop sz sep p next pos ox
      else hexstrLoop sz sep p next pos ox

def aloeHexstr {bufLen : Nat} (buf : Block bufLen) (data : List UInt8) (sep : Option (List UInt8)) :
    Option (Nat × Block bufLen) := do
  let (pos, ox) ← if bufLen = 0 then some (0, buf) else hexstrLoop data.length (sep.getD []) data 0 0 buf
  if pos < bufLen then do
    let ox ← ox.store pos [0]
    some (pos, ox)
  else some (pos, ox)

/-! ## The text -/

/-- The two digits of a byte. -/
def digits (b : UInt8) : List UInt8 := [hexHigh b, hexLow b]

/-- The digits of all bytes, with the separator between them. -/
def pieces (data sep : List UInt8) : List (List UInt8) := (data.map digits).intersperse sep

def rendering (data sep : List UInt8) : List UInt8 := (pieces data sep).flatten

example : rendering [0x0a, 0xf9] [0x3a] = [0x30, 0x61, 0x3a, 0x66, 0x39] := by decide

/-- What of it gets into `room` bytes that must hold a `NUL` too. -/
def shown (sep : List UInt8) : List UInt8 → Nat → List UInt8
  | [], _ => []
  | b :: p, room =>
    if room ≤ 2 then []
    else if p = [] ∨ room ≤ 2 + sep.length then digits b
    else digits b ++ sep ++ shown sep p (room - (2 + sep.length))

variable {sep data p : List UInt8} {b : UInt8} {room n : Nat}

theorem length_digits (b : UInt8) : (digits b).length = 2 := rfl

theorem pieces_cons (b c : UInt8) (p sep : List UInt8) :
    pieces (b :: c :: p) sep = digits b :: sep :: pieces (c :: p) sep := rfl

theorem shown_lt (hroom : 0 < room) : (shown sep data room).length < room := by
  induction data generalizing room with
  | nil => exact hroom
  | cons b p ih =>
    rw [shown]
    split_ifs with hfew hlast
    · exact hroom
    · exact Nat.lt_of_not_le hfew
    · rw [not_or] at hlast
      have hrest := ih (by omega : 0 < room - (2 + sep.length))
      rw [List.length_append, List.length_append, length_digits]
      omega

/-- No piece is cut. -/
theorem shown_eq_take (sep data : List UInt8) (room : Nat) :
    ∃ k, shown sep data room = ((pieces data sep).take k).flatten := by
  induction data generalizing room with
  | nil => exact ⟨0, rfl⟩
  | cons b p ih =>
    rw [shown]
    split_ifs with hfew hlast
    · exact ⟨0, rfl⟩
    · refine ⟨1, ?_⟩
      cases p with
      | nil => exact (List.append_nil _).symm
      | cons c p => exact (List.append_nil _).symm
    · rw [not_or] at hlast
      obtain ⟨c, p, rfl⟩ := List.exists_cons_of_ne_nil hlast.1
      obtain ⟨k, hk⟩ := ih (room - (2 + sep.length))
      refine ⟨k + 2, ?_⟩
      rw [pieces_cons, List.take_succ_cons, List.take_succ_cons, List.flatten_cons, List.flatten_cons, ← hk,
        List.append_assoc]

theorem rendering_cons (b c : UInt8) (p sep : List UInt8) :
    rendering (b :: c :: p) sep = digits b ++ sep ++ rendering (c :: p) sep := by
  rw [rendering, pieces_cons, List.flatten_cons, List.flatten_cons, List.append_assoc]
  rfl

/-- Digits, a separator and whatever follows. -/
theorem shown_cons {c : UInt8} (h : 2 + sep.length < room) :
    shown sep (b :: c :: p) room = digits b ++ sep ++ shown sep (c :: p) (room - (2 + sep.length)) := by
  rw [shown, if_neg (by omega), if_neg]
  rw [not_or]
  exact ⟨List.cons_ne_nil c p, Nat.not_le_of_lt h⟩

theorem shown_eq_rendering (h : (rendering data sep).length < room) : shown sep data room = rendering data sep := by
  induction data generalizing room with
  | nil => rfl
  | cons b p ih =>
    cases p with
    | nil =>
      have htwo : (rendering [b] sep).length = 2 := rfl
      rw [shown, if_neg (by omega), if_pos (Or.inl rfl)]
      rfl
    | cons c p =>
      rw [rendering_cons, List.length_append, List.length_append, length_digits] at h
      have hpos : 0 < (rendering (c :: p) sep).length := by
        rw [rendering]
        cases p <;> exact Nat.succ_pos _
      rw [shown_cons (by omega), ih (by omega), rendering_cons]

/-! ## The loop -/

variable {sz i pos : Nat} {ox : Block n}

theorem store_digits (ox : Block n) (b : UInt8) (hroom : pos + 2 < n) :
    ∃ ox₁ ox₂, ox.store pos [hexHigh b] = some ox₁ ∧ ox₁.store (pos + 1) [hexLow b] = some ox₂ ∧
      ox₂.bytes.take (pos + 2) = ox.bytes.take pos ++ digits b := by
  have hhigh : pos + [hexHigh b].length ≤ n := by
    rw [List.length_singleton]
    omega
  have hlow : pos + 1 + [hexLow b].length ≤ n := by
    rw [List.length_singleton]
    omega
  obtain ⟨ox₁, hox₁, hbytes₁⟩ := store_some (p := ox) hhigh
  obtain ⟨ox₂, hox₂, hbytes₂⟩ := store_some (p := ox₁) hlow
  refine ⟨ox₁, ox₂, hox₁, hox₂, ?_⟩
  have htake₁ := take_store hhigh hbytes₁
  have htake₂ := take_store hlow hbytes₂
  rw [List.length_singleton] at htake₁ htake₂
  rw [htake₂, htake₁, List.append_assoc]
  rfl

/-- One turn that has room for the digits. -/
theorem hexstrLoop_turn (sz : Nat) (sep : List UInt8) (b : UInt8) (p : List UInt8) (ox : Block n) (hroom : pos + 2 < n)
    (hint : pos + 2 ≤ intMax) (hi : 2 * i ≤ pos) :
    ∃ ox', ox'.bytes.take (pos + 2) = ox.bytes.take pos ++ digits b ∧
      hexstrLoop sz sep (b :: p) i pos ox =
        if sep.length > 0 ∧ i + 1 < sz then
          if pos + 2 + sep.length ≥ n then some (pos + 2, ox')
          else do
            let ox ← ox'.store (pos + 2) sep
            let pos ← int (pos + 2 + sep.length)
            hexstrLoop sz sep p (i + 1) pos ox
        else hexstrLoop sz sep p (i + 1) (pos + 2) ox' := by
  obtain ⟨ox₁, ox', hox₁, hox', htake⟩ := store_digits ox b hroom
  refine ⟨ox', htake, ?_⟩
  simp only [hexstrLoop, int_eq hint, int_eq (n := pos + 1) (by omega), int_eq (n := i + 1) (by omega), hox₁, hox',
    Option.bind_eq_bind, Option.bind_some, if_neg (Nat.not_le_of_lt hroom)]

/-- The last byte. -/
theorem hexstrLoop_last (sep : List UInt8) (b : UInt8) (ox : Block n) (hroom : pos + 2 < n) (hint : pos + 2 ≤ intMax)
    (hi : 2 * i ≤ pos) :
    ∃ ox', ox'.bytes.take (pos + 2) = ox.bytes.take pos ++ digits b ∧
      hexstrLoop (i + 1) sep [b] i pos ox = some (pos + 2, ox') := by
  obtain ⟨ox', htake, hturn⟩ := hexstrLoop_turn (i + 1) sep b [] ox hroom hint hi
  refine ⟨ox', htake, ?_⟩
  rw [hturn, if_neg (fun h => Nat.lt_irrefl _ h.2)]
  rfl

/-- No room for the separator. -/
theorem hexstrLoop_full (sep : List UInt8) (b : UInt8) (p : List UInt8) (ox : Block n) (hroom : pos + 2 < n)
    (hint : pos + 2 ≤ intMax) (hi : 2 * i ≤ pos) (hsz : i + 1 < sz) (hfull : n ≤ pos + 2 + sep.length) :
    ∃ ox', ox'.bytes.take (pos + 2) = ox.bytes.take pos ++ digits b ∧
      hexstrLoop sz sep (b :: p) i pos ox = some (pos + 2, ox') := by
  obtain ⟨ox', htake, hturn⟩ := hexstrLoop_turn sz sep b p ox hroom hint hi
  refine ⟨ox', htake, ?_⟩
  rw [hturn, if_pos ⟨by omega, hsz⟩, if_pos hfull]

/-- On to the next byte. -/
theorem hexstrLoop_next (sep : List UInt8) (b : UInt8) (p : List UInt8) (ox : Block n) (hint : pos + 2 ≤ intMax)
    (hi : 2 * i ≤ pos) (hsz : i + 1 < sz) (hroom : pos + 2 + sep.length < n) :
    ∃ ox', ox'.bytes.take (pos + 2 + sep.length) = ox.bytes.take pos ++ (digits b ++ sep) ∧
      hexstrLoop sz sep (b :: p) i pos ox =
        (int (pos + 2 + sep.length)).bind fun pos => hexstrLoop sz sep p (i + 1) pos ox' := by
  obtain ⟨ox₁, htake₁, hturn⟩ := hexstrLoop_turn sz sep b p ox (by omega : pos + 2 < n) hint hi
  rw [hturn]
  rcases Nat.eq_zero_or_pos sep.length with hnil | hsep
  · have hnone : sep = [] := List.length_eq_zero_iff.1 hnil
    subst hnone
    refine ⟨ox₁, ?_, ?_⟩
    · rw [List.append_nil]
      exact htake₁
    · rw [if_neg (fun h => Nat.lt_irrefl _ h.1), List.length_nil, Nat.add_zero, int_eq hint, Option.bind_some]
  · obtain ⟨ox', hox', hbytes⟩ := store_some (p := ox₁) hroom.le
    refine ⟨ox', ?_, ?_⟩
    · rw [take_store hroom.le hbytes, htake₁, List.append_assoc]
    · rw [if_pos ⟨hsep, hsz⟩, if_neg (Nat.not_le_of_lt hroom), hox', Option.bind_eq_bind, Option.bind_some,
        Option.bind_eq_bind]

/-- From `pos` on, whatever the buffer reaches of `left` bytes that each take `step` is counted by `int`s. -/
def Counted (pos step left n : Nat) : Prop := ∀ i < left, pos + i * step < n → pos + i * step + 2 ≤ intMax

theorem counted_succ {step left : Nat} (hpos : pos < n) :
    Counted pos step (left + 1) n ↔ pos + 2 ≤ intMax ∧ Counted (pos + step) step left n := by
  have hshift : ∀ i, pos + (i + 1) * step = pos + step + i * step := by
    intro i
    rw [Nat.succ_mul]
    omega
  constructor
  · intro h
    constructor
    · have hzero := h 0 (Nat.succ_pos _)
      rw [Nat.zero_mul, Nat.add_zero] at hzero
      exact hzero hpos
    · intro i hi
      rw [← hshift]
      exact h (i + 1) (Nat.succ_lt_succ hi)
  · rintro ⟨hint, h⟩ i hi
    cases i with
    | zero =>
      rw [Nat.zero_mul, Nat.add_zero]
      exact fun _ => hint
    | succ i =>
      rw [hshift]
      exact h i (Nat.lt_of_succ_lt_succ hi)

/-- Nothing is left to count where the buffer ends. -/
theorem counted_full {step left : Nat} (h : n ≤ pos) : Counted pos step left n := by
  intro i _ hlt
  omega

theorem hexstrLoop_stop (sep : List UInt8) (b : UInt8) (p : List UInt8) (ox : Block n) (hint : pos + 2 ≤ intMax)
    (hfew : n ≤ pos + 2) : hexstrLoop sz sep (b :: p) i pos ox = some (pos, ox) := by
  rw [hexstrLoop, int_eq hint, Option.bind_eq_bind, Option.bind_some, if_pos hfew]

/-- **The loop**, where the positions are counted. -/
theorem hexstrLoop_some (sep p : List UInt8) (ox : Block n) (hpos : pos < n) (hi : 2 * i ≤ pos) (hsz : i + p.length = sz)
    (h : Counted pos (2 + sep.length) p.length n) :
    ∃ ox', hexstrLoop sz sep p i pos ox = some (pos + (shown sep p (n - pos)).length, ox') ∧
      ox'.bytes.take (pos + (shown sep p (n - pos)).length) = ox.bytes.take pos ++ shown sep p (n - pos) := by
  induction p generalizing i pos ox with
  | nil => exact ⟨ox, rfl, (List.append_nil _).symm⟩
  | cons b p ih =>
    rw [List.length_cons] at hsz
    obtain ⟨hint, hrest⟩ := (counted_succ hpos).1 h
    rcases Nat.lt_or_ge (pos + 2) n with hroom | hfew
    · cases p with
      | nil =>
        obtain ⟨ox', htake, hloop⟩ := hexstrLoop_last sep b ox hroom hint hi
        subst hsz
        rw [shown, if_neg (by omega), if_pos (Or.inl rfl)]
        exact ⟨ox', hloop, htake⟩
      | cons c p =>
        rw [List.length_cons] at hsz
        have hmore : i + 1 < sz := by omega
        rcases Nat.lt_or_ge (pos + 2 + sep.length) n with hnext | hfull
        · obtain ⟨ox₁, htake₁, hloop⟩ := hexstrLoop_next sep b (c :: p) ox hint hi hmore hnext
          have hreach : pos + (2 + sep.length) < n := by omega
          have hcounted := ((counted_succ hreach).1 hrest).1
          obtain ⟨ox', hres, htake⟩ := ih ox₁ hreach (by omega : 2 * (i + 1) ≤ _) (by rw [List.length_cons]; omega) hrest
          have hshown : shown sep (b :: c :: p) (n - pos) =
              digits b ++ sep ++ shown sep (c :: p) (n - (pos + (2 + sep.length))) := by
            rw [shown_cons (by omega), Nat.sub_sub]
          have hlen : (shown sep (b :: c :: p) (n - pos)).length =
              2 + sep.length + (shown sep (c :: p) (n - (pos + (2 + sep.length)))).length := by
            rw [hshown, List.length_append, List.length_append, length_digits]
          refine ⟨ox', ?_, ?_⟩
          · rw [hloop, int_eq (by omega), Option.bind_some, Nat.add_assoc pos, hres, hlen, Nat.add_assoc pos]
          · rw [hlen, ← Nat.add_assoc pos, htake, ← Nat.add_assoc pos, htake₁, Nat.add_assoc pos, hshown, List.append_assoc]
        · obtain ⟨ox', htake, hloop⟩ := hexstrLoop_full sep b (c :: p) ox hroom hint hi hmore hfull
          rw [shown, if_neg (by omega), if_pos (Or.inr (by omega))]
          exact ⟨ox', hloop, htake⟩
    · rw [shown, if_pos (by omega)]
      exact ⟨ox, hexstrLoop_stop sep b p ox hint hfew, (List.append_nil _).symm⟩

/-- A position that is no `int`. -/
theorem hexstrLoop_none (sep p : List UInt8) (ox : Block n) (hpos : pos < n) (hi : 2 * i ≤ pos) (hsz : i + p.length = sz)
    (h : ¬Counted pos (2 + sep.length) p.length n) : hexstrLoop sz sep p i pos ox = none := by
  induction p generalizing i pos ox with
  | nil => exact absurd (fun i hlt => absurd hlt (Nat.not_lt_zero i)) h
  | cons b p ih =>
    rw [List.length_cons] at hsz h
    rw [counted_succ hpos, not_and] at h
    by_cases hint : pos + 2 ≤ intMax
    · rcases Nat.lt_or_ge (pos + 2 + sep.length) n with hnext | hfull
      · have hmore : 0 < p.length := by
          rcases Nat.eq_zero_or_pos p.length with hlast | hmore
          · rw [hlast] at h
            exact absurd (fun i hlt => absurd hlt (Nat.not_lt_zero i)) (h hint)
          · exact hmore
        obtain ⟨ox₁, -, hloop⟩ := hexstrLoop_next sep b p ox hint hi (by omega : i + 1 < sz) hnext
        rw [hloop, int]
        split
        case isTrue =>
          rw [Option.bind_some, Nat.add_assoc pos]
          exact ih ox₁ (by omega : pos + (2 + sep.length) < n) (by omega) (by omega) (h hint)
        case isFalse => rfl
      · exact absurd (counted_full (by omega)) (h hint)
    · rw [hexstrLoop, int_none hint]
      rfl

/-! ## The whole -/

/-- A `NUL` at `pos`, and before it whole pieces of the rendering, all of them if there is room. -/
structure Rendered (data sep : List UInt8) (pos : Nat) (ox : Block n) : Prop where
  inside : pos < n
  terminated : ox.bytes[pos]? = some 0
  pieces : ∃ k, ox.bytes.take pos = ((pieces data sep).take k).flatten
  full : (rendering data sep).length < n → ox.bytes.take pos = rendering data sep

theorem rendered_shown (data sep : List UInt8) {ox : Block n} (hn : 0 < n)
    (htake : ox.bytes.take (shown sep data n).length = shown sep data n) :
    ∃ ox', ox.store (shown sep data n).length [0] = some ox' ∧ Rendered data sep (shown sep data n).length ox' := by
  have hlt : (shown sep data n).length < n := shown_lt hn
  obtain ⟨ox', hox', hbytes⟩ := store_nul (p := ox) hlt
  obtain ⟨htext, hnul, -⟩ := nul_stored hlt.le hbytes
  rw [htake] at htext
  refine ⟨ox', hox', ?_⟩
  constructor
  · exact hlt
  · exact hnul
  · rw [htext]
    exact shown_eq_take sep data n
  · rw [htext]
    exact shown_eq_rendering

theorem aloeHexstr_none (hn : 0 < n) (buf : Block n) {data : List UInt8} {sep : Option (List UInt8)}
    (h : ¬Counted 0 (2 + (sep.getD []).length) data.length n) : aloeHexstr buf data sep = none := by
  rw [aloeHexstr, if_neg (by omega), hexstrLoop_none _ data buf hn (Nat.zero_le _) (Nat.zero_add _) h]
  rfl

/-- A buffer whose positions are `int`s. -/
theorem counted_of_lt (step left : Nat) (h : n < intMax) : Counted 0 step left n := by
  intro i _ hlt
  omega

/-- **Hexadecimal text** comes out as it should just when the positions that the
buffer reaches are `int`s. -/
theorem aloeHexstr_iff {bufLen : Nat} (hlen : 1 ≤ bufLen) (buf : Block bufLen) (data : List UInt8)
    (sep : Option (List UInt8)) :
    (∃ pos ox, aloeHexstr buf data sep = some (pos, ox) ∧ Rendered data (sep.getD []) pos ox) ↔
      ∀ i < data.length, i * (2 + (sep.getD []).length) < bufLen → i * (2 + (sep.getD []).length) + 2 ≤ intMax := by
  have hcounted : Counted 0 (2 + (sep.getD []).length) data.length bufLen ↔
      ∀ i < data.length, i * (2 + (sep.getD []).length) < bufLen → i * (2 + (sep.getD []).length) + 2 ≤ intMax := by
    simp only [Counted, Nat.zero_add]
  rw [← hcounted]
  constructor
  · rintro ⟨pos, ox, hsome, -⟩
    by_contra hnot
    rw [aloeHexstr_none hlen buf hnot] at hsome
    cases hsome
  · intro h
    obtain ⟨ox, hloop, htake⟩ := hexstrLoop_some (sep.getD []) data buf hlen (Nat.zero_le _) (Nat.zero_add _) h
    rw [Nat.zero_add, Nat.sub_zero] at hloop htake
    obtain ⟨ox', hstore, hrendered⟩ := rendered_shown data (sep.getD []) hlen htake
    refine ⟨_, ox', ?_, hrendered⟩
    rw [aloeHexstr, if_neg (by omega)]
    simp only [hloop, Option.bind_eq_bind, Option.bind_some, if_pos hrendered.inside, hstore]

/-- Room for one byte and the separator. -/
theorem aloeHexstr_five :
    ∃ pos ox, aloeHexstr (Block.fill 5 0xff) [0x0a, 0xf9] (some [0x3a]) = some (pos, ox) ∧
      Rendered [0x0a, 0xf9] [0x3a] pos ox := by
  apply (aloeHexstr_iff (by decide) (Block.fill 5 0xff) [0x0a, 0xf9] (some [0x3a])).2
  intro i hi
  have hcounted := counted_of_lt 3 2 (by decide : 5 < intMax) i hi
  rwa [Nat.zero_add] at hcounted

/-- `pos + 2` overflows where there is room for `2^30` bytes. -/
theorem not_aloeHexstr :
    ¬∀ (bufLen : Nat) (buf : Block bufLen) (data : List UInt8) (sep : Option (List UInt8)), 1 ≤ bufLen →
      ∃ pos ox, aloeHexstr buf data sep = some (pos, ox) ∧ Rendered data (sep.getD []) pos ox := by
  intro hall
  obtain ⟨pos, ox, hsome, -⟩ := hall (2 ^ 31 + 1) (Block.fill _ 0) (List.replicate (2 ^ 30) 0) none (by omega)
  rw [aloeHexstr_none (by omega)] at hsome
  · cases hsome
  · intro hcounted
    rw [List.length_replicate, Option.getD_none, List.length_nil] at hcounted
    have hlast := hcounted (2 ^ 30 - 1) (by omega) (by omega)
    unfold intMax at hlast
    omega

end AlgaeBp.Util
