import AlgaeBp.Lib.Bytes
import AlgaeBp.Lib.Ints
import AlgaeBp.Lib.Strings
/-!
# FourCC

`aloe_fourcc_str` and `aloe_fourcc_val` of `util.cpp`, on a little-endian target
where `char` is signed. A shift to the left is taken modulo `2^32`, also of a
negative number. `NULL` is `none`; what leaves a buffer answers `none` around it.
-/

namespace AlgaeBp.Util

open Bytes Ints Strings

/-! ## The code -/

def aloeFourccStr {sz : Nat} (str : Option (Block sz)) (fourcc : UInt32) : Option (Option (Block sz)) :=
  match str with
  | none => some none
  | some str =>
    if sz < 1 then some none
    else if sz < 5 then do
      let str ← str.store 0 [0]
      some (some str)
    else do
      let str ← str.store 0 (leBytes 4 fourcc.toNat)
      let str ← str.store 4 [0]
      some (some str)

/-- A `char`, converted to `int` and that to `uint32_t`. -/
def widen (c : UInt8) : UInt32 := ⟨c.toBitVec.signExtend 32⟩

/-- The four `|=`. -/
def fourcc (c₀ c₁ c₂ c₃ : UInt8) : UInt32 := widen c₀ <<< 0 ||| widen c₁ <<< 8 ||| widen c₂ <<< 16 ||| widen c₃ <<< 24

def aloeFourccVal (str : Option (List UInt8)) : Option UInt32 :=
  match str with
  | none => some 0
  | some str => do
    let len := toInt (← strlen str)
    if len < 2 then some 0
    else do
      let c₀ ← str[0]?
      let c₁ ← str[1]?
      let c₂ ← if len ≥ 3 then str[2]? else some 0x20
      let c₃ ← if len ≥ 4 then str[3]? else some 0x20
      some (fourcc c₀ c₁ c₂ c₃)

/-! ## The bytes -/

/-- What a `char` leaves above itself. -/
def sign (c : UInt8) : UInt8 := if 0x80 ≤ c then 0xff else 0

/-- All 256 of them. -/
theorem leBytes_widen (c : UInt8) :
    leBytes 4 (widen c <<< 0).toNat = [c, sign c, sign c, sign c] ∧
      leBytes 4 (widen c <<< 8).toNat = [0, c, sign c, sign c] ∧
      leBytes 4 (widen c <<< 16).toNat = [0, 0, c, sign c] ∧ leBytes 4 (widen c <<< 24).toNat = [0, 0, 0, c] := by
  obtain ⟨b⟩ := c
  revert b
  decide +kernel

theorem leBytes_fourcc (c₀ c₁ c₂ c₃ : UInt8) :
    leBytes 4 (fourcc c₀ c₁ c₂ c₃).toNat =
      [c₀, sign c₀ ||| c₁, sign c₀ ||| sign c₁ ||| c₂, sign c₀ ||| sign c₁ ||| sign c₂ ||| c₃] := by
  simp only [fourcc, UInt32.toNat_or, leBytes_or]
  rw [(leBytes_widen c₀).1, (leBytes_widen c₁).2.1, (leBytes_widen c₂).2.2.1, (leBytes_widen c₃).2.2.2]
  simp only [List.zipWith_cons_cons, List.zipWith_nil_left, UInt8.or_zero]

theorem or_or_eq_iff {a b c : UInt8} : a ||| b ||| c = c ↔ a ||| c = c ∧ b ||| c = c := by
  constructor
  · intro h
    constructor
    · calc a ||| c = a ||| (a ||| b ||| c) := by rw [h]
        _ = a ||| b ||| c := by rw [← UInt8.or_assoc, ← UInt8.or_assoc, UInt8.or_self]
        _ = c := h
    · calc b ||| c = b ||| (a ||| b ||| c) := by rw [h]
        _ = a ||| b ||| c := by rw [UInt8.or_comm a b, ← UInt8.or_assoc, ← UInt8.or_assoc, UInt8.or_self]
        _ = c := h
  · rintro ⟨ha, hb⟩
    rw [UInt8.or_assoc, hb, ha]

/-- A negative `char` under `hi` must find all its bits set. -/
def Extends (lo hi : UInt8) : Prop := 0x80 ≤ lo → hi = 0xff

theorem sign_or_eq_iff {lo hi : UInt8} : sign lo ||| hi = hi ↔ Extends lo hi := by
  unfold sign Extends
  split
  case isTrue h =>
    have hones : (0xff : UInt8) ||| hi = 0xff := UInt8.neg_one_or
    rw [hones]
    exact ⟨fun heq _ => heq.symm, fun hext => (hext h).symm⟩
  case isFalse h =>
    rw [UInt8.zero_or]
    exact iff_of_true rfl (fun hneg => absurd hneg h)

/-- The bytes are those of the characters just when no negative one is under another byte. -/
theorem leBytes_fourcc_iff {c₀ c₁ c₂ c₃ : UInt8} :
    leBytes 4 (fourcc c₀ c₁ c₂ c₃).toNat = [c₀, c₁, c₂, c₃] ↔ [c₀, c₁, c₂, c₃].Pairwise Extends := by
  rw [leBytes_fourcc]
  simp only [List.cons.injEq, or_or_eq_iff, sign_or_eq_iff, List.pairwise_cons, List.forall_mem_cons, List.not_mem_nil,
    List.Pairwise.nil, false_imp_iff, implies_true, and_true, true_and]
  tauto

theorem zero_notMem_fourcc {c₀ c₁ c₂ c₃ : UInt8} (h : 0 ∉ [c₀, c₁, c₂, c₃]) :
    0 ∉ leBytes 4 (fourcc c₀ c₁ c₂ c₃).toNat := by
  rw [leBytes_fourcc]
  simp only [List.mem_cons, List.not_mem_nil, or_false, eq_comm (a := (0 : UInt8)), UInt8.or_eq_zero_iff, not_or] at h ⊢
  tauto

/-! ## Round trips -/

/-- Four characters at least. -/
def padded (s : List UInt8) : List UInt8 := s ++ List.replicate (4 - s.length) 0x20

theorem aloeFourccStr_eq {sz : Nat} (hsz : 5 ≤ sz) (buf : Block sz) (code : UInt32) :
    ∃ out rest, aloeFourccStr (some buf) code = some (some out) ∧ out.bytes = leBytes 4 code.toNat ++ 0 :: rest := by
  have hfour : 0 + (leBytes 4 code.toNat).length ≤ sz := by
    rw [length_leBytes]
    omega
  obtain ⟨buf', hbuf', hbytes'⟩ := store_some (p := buf) hfour
  have htake := take_store hfour hbytes'
  rw [Nat.zero_add, List.take_zero, List.nil_append] at htake
  obtain ⟨out, hout, hbytes⟩ := store_nul (p := buf') (by omega : 4 < sz)
  rw [length_leBytes] at htake
  rw [htake] at hbytes
  refine ⟨out, _, ?_, hbytes⟩
  · simp only [aloeFourccStr, if_neg (by omega : ¬sz < 1), if_neg (by omega : ¬sz < 5), hbuf', hout, Option.bind_eq_bind,
      Option.bind_some]

theorem aloeFourccVal_eq (s : Str) (rest : List UInt8) (hlow : 2 ≤ s.bytes.length) (hhigh : s.bytes.length ≤ 4) :
    ∃ c₀ c₁ c₂ c₃, padded s.bytes = [c₀, c₁, c₂, c₃] ∧
      aloeFourccVal (some (s.bytes ++ 0 :: rest)) = some (fourcc c₀ c₁ c₂ c₃) := by
  have hlen := strlen_append s.nonzero rest
  have hint : toInt s.bytes.length = s.bytes.length := toInt_eq (Nat.le_trans hhigh (by decide))
  rw [aloeFourccVal, hlen, Option.bind_eq_bind, Option.bind_some, hint]
  match hs : s.bytes, hlow, hhigh with
  | [c₀, c₁], _, _ => exact ⟨c₀, c₁, 0x20, 0x20, rfl, rfl⟩
  | [c₀, c₁, c₂], _, _ => exact ⟨c₀, c₁, c₂, 0x20, rfl, rfl⟩
  | [c₀, c₁, c₂, c₃], _, _ => exact ⟨c₀, c₁, c₂, c₃, rfl, rfl⟩

theorem code_inj {v w : UInt32} (h : leBytes 4 v.toNat = leBytes 4 w.toNat) : v = w := by
  have hnat := congrArg leNat h
  rw [leNat_leBytes v.toNat_lt, leNat_leBytes w.toNat_lt] at hnat
  exact UInt32.toNat_inj.1 hnat

/-- From a code and back. -/
theorem val_str_iff {sz : Nat} (hsz : 5 ≤ sz) (buf : Block sz) {code : UInt32} (h : 0 ∉ leBytes 4 code.toNat) :
    (∃ out, aloeFourccStr (some buf) code = some (some out) ∧ aloeFourccVal (some out.bytes) = some code) ↔
      (leBytes 4 code.toNat).Pairwise Extends := by
  obtain ⟨out, rest, hstr, hbytes⟩ := aloeFourccStr_eq hsz buf code
  have hfour : (leBytes 4 code.toNat).length = 4 := length_leBytes _ _
  obtain ⟨c₀, c₁, c₂, c₃, hpadded, hval⟩ := aloeFourccVal_eq ⟨leBytes 4 code.toNat, h⟩ rest
    (by rw [hfour]; decide) (by rw [hfour])
  have hall : leBytes 4 code.toNat = [c₀, c₁, c₂, c₃] := by
    rw [← hpadded, padded, hfour, Nat.sub_self, List.replicate_zero, List.append_nil]
  rw [hall, ← leBytes_fourcc_iff, ← hall]
  constructor
  · rintro ⟨out', hstr', hval'⟩
    rw [hstr] at hstr'
    cases hstr'
    rw [hbytes, hval] at hval'
    rw [Option.some.inj hval']
  · intro hsame
    refine ⟨out, hstr, ?_⟩
    rw [hbytes, hval, code_inj hsame]

/-- From a string and back. -/
theorem str_val_iff {sz : Nat} (hsz : 5 ≤ sz) (buf : Block sz) (s : Str) (hlow : 2 ≤ s.bytes.length)
    (hhigh : s.bytes.length ≤ 4) :
    (∃ code out, aloeFourccVal (some s.object) = some code ∧ aloeFourccStr (some buf) code = some (some out) ∧
        string out.bytes = padded s.bytes) ↔ (padded s.bytes).Pairwise Extends := by
  obtain ⟨c₀, c₁, c₂, c₃, hpadded, hval⟩ := aloeFourccVal_eq s [] hlow hhigh
  obtain ⟨out, rest, hstr, hbytes⟩ := aloeFourccStr_eq hsz buf (fourcc c₀ c₁ c₂ c₃)
  have hnonzero : 0 ∉ [c₀, c₁, c₂, c₃] := by
    rw [← hpadded, padded, List.mem_append, not_or]
    refine ⟨s.nonzero, ?_⟩
    intro hmem
    exact absurd (List.eq_of_mem_replicate hmem) (by decide)
  have hstring : string out.bytes = leBytes 4 (fourcc c₀ c₁ c₂ c₃).toNat := by
    rw [hbytes, string_append (zero_notMem_fourcc hnonzero)]
  rw [hpadded, ← leBytes_fourcc_iff]
  constructor
  · rintro ⟨code, out', hval', hstr', hsame⟩
    rw [Str.object, hval] at hval'
    cases hval'
    rw [hstr] at hstr'
    cases hstr'
    rw [← hstring, hsame]
  · intro hsame
    refine ⟨_, out, hval, hstr, ?_⟩
    rw [hstring, hsame]

/-- **The round trips** hold just when, of any two bytes, the higher one is `0xff` if
the lower one is negative as a `char`. -/
theorem aloeFourcc_iff {sz : Nat} (hsz : 5 ≤ sz) (buf : Block sz) :
    (∀ code : UInt32, 0 ∉ leBytes 4 code.toNat →
      ((∃ out, aloeFourccStr (some buf) code = some (some out) ∧ aloeFourccVal (some out.bytes) = some code) ↔
        (leBytes 4 code.toNat).Pairwise Extends)) ∧
    (∀ s : Str, 2 ≤ s.bytes.length → s.bytes.length ≤ 4 →
      ((∃ code out, aloeFourccVal (some s.object) = some code ∧ aloeFourccStr (some buf) code = some (some out) ∧
          string out.bytes = padded s.bytes) ↔ (padded s.bytes).Pairwise Extends)) :=
  ⟨fun _ h => val_str_iff hsz buf h, fun s hlow hhigh => str_val_iff hsz buf s hlow hhigh⟩

/-- `"H264"` -/
def h264 : Str := ⟨[0x48, 0x32, 0x36, 0x34], by decide⟩

theorem aloeFourcc_h264 :
    (∃ out, aloeFourccStr (some (Block.fill 5 0xff)) 0x34363248 = some (some out) ∧
      aloeFourccVal (some out.bytes) = some 0x34363248) ∧
    ∃ code out, aloeFourccVal (some h264.object) = some code ∧
      aloeFourccStr (some (Block.fill 5 0xff)) code = some (some out) ∧ string out.bytes = padded h264.bytes := by
  obtain ⟨hcode, hstr⟩ := aloeFourcc_iff (by decide : 5 ≤ 5) (Block.fill 5 0xff)
  have hextends : [(0x48 : UInt8), 0x32, 0x36, 0x34].Pairwise Extends := by
    unfold Extends
    decide
  constructor
  · exact (hcode 0x34363248 (by decide)).2 hextends
  · exact (hstr h264 (by decide) (by decide)).2 hextends

/-- A negative `char` under blanks. -/
def negative : Str := ⟨[0x80, 0x20], by decide⟩

theorem not_aloeFourcc :
    (¬∀ (sz : Nat) (buf : Block sz) (code : UInt32), 5 ≤ sz → 0 ∉ leBytes 4 code.toNat →
      ∃ out, aloeFourccStr (some buf) code = some (some out) ∧ aloeFourccVal (some out.bytes) = some code) ∧
    ¬∀ (sz : Nat) (buf : Block sz) (s : Str), 5 ≤ sz → 2 ≤ s.bytes.length → s.bytes.length ≤ 4 →
      ∃ code out, aloeFourccVal (some s.object) = some code ∧ aloeFourccStr (some buf) code = some (some out) ∧
        string out.bytes = padded s.bytes := by
  have hextends : ¬[(0x80 : UInt8), 0x20, 0x20, 0x20].Pairwise Extends := by
    unfold Extends
    decide
  constructor
  · intro hall
    have hcode := hall 5 (Block.fill 5 0xff) 0x20202080 (by decide) (by decide)
    exact hextends ((val_str_iff (by decide) _ (by decide)).1 hcode)
  · intro hall
    have hstr := hall 5 (Block.fill 5 0xff) negative (by decide) (by decide) (by decide)
    exact hextends ((str_val_iff (by decide) _ negative (by decide) (by decide)).1 hstr)

end AlgaeBp.Util
