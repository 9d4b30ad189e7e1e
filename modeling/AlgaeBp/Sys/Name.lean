import AlgaeBp.Lib.Bytes
import AlgaeBp.Lib.Ints
import AlgaeBp.Lib.Strings
/-!
# Names

`snstrncpy` and `snstrcpy` of `sys_linux.cpp`, and the names that `aloe_sem_init`
and `aloe_thread_run` keep. `NULL` is `none`; any other name is an object that ends
with its `NUL`, and reading behind it answers `none`.
-/

namespace AlgaeBp.Sys

open Bytes Ints Strings

/-! ## The code -/

/-- What `memcpy` reads. -/
def readName (name : Option (List UInt8)) (len : Nat) : Option (List UInt8) :=
  match name with
  | none => none
  | some name => if len ≤ name.length then some (name.take len) else none

variable {bufSz : UInt64}

def snstrncpy (buf : Block bufSz.toNat) (name : Option (List UInt8)) (len : UInt64) :
    Option (Int × Block bufSz.toNat) := do
  let len ← if len ≤ 0 then
      match name with
      | none => some 0
      | some name => (strlen name).map UInt64.ofNat
    else some len
  if len > 0 then do
    let len := if len ≥ bufSz then bufSz - 1 else len
    let buf ← buf.store 0 (← readName name len.toNat)
    let buf ← buf.store len.toNat [0]
    some (toInt len.toNat, buf)
  else do
    let buf ← buf.store len.toNat [0]
    some (toInt len.toNat, buf)

/-- The macro hands over -1. -/
def snstrcpy (buf : Block bufSz.toNat) (name : Option (List UInt8)) : Option (Int × Block bufSz.toNat) :=
  snstrncpy buf name (-1)

def aloeSemNameSize : UInt64 := 20

def aloeThreadNameSize : UInt64 := 20

/-- A field that holds a name. `own` says that the name is the one in the field. -/
def keepName (field : Block bufSz.toNat) (own : Bool) (name : Option (List UInt8)) : Option (Block bufSz.toNat) :=
  if own then some field
  else do
    let (_, field) ← snstrcpy field name
    some field

/-- The name in `aloe_sem_init`. -/
def aloeSemInitName (semName : Block aloeSemNameSize.toNat) (own : Bool) (name : Option (List UInt8)) :
    Option (Block aloeSemNameSize.toNat) := keepName semName own name

/-- The name in `aloe_thread_run`. -/
def aloeThreadRunName (thdName : Block aloeThreadNameSize.toNat) (own : Bool) (name : Option (List UInt8)) :
    Option (Block aloeThreadNameSize.toNat) := keepName thdName own name

/-! ## The copy -/

/-- The name, as much as there is room for, and a `NUL`. -/
def Named (name : Str) (buf : Block bufSz.toNat) : Prop := name.bytes.take (bufSz.toNat - 1) ++ [0] <+: buf.bytes

variable {name : Str}

/-- The length handed over is larger than any buffer: all of it but one byte is filled. -/
theorem snstrcpy_eq (hsz : 1 ≤ bufSz.toNat) (buf : Block bufSz.toNat) (name : Option (List UInt8)) :
    snstrcpy buf name = (readName name (bufSz.toNat - 1)).bind fun src => (buf.store 0 src).bind fun buf =>
      (buf.store (bufSz.toNat - 1) [0]).bind fun buf => some (toInt (bufSz.toNat - 1), buf) := by
  have hlast : (bufSz - 1).toNat = bufSz.toNat - 1 := by
    rw [UInt64.toNat_sub_of_le]
    · rfl
    · exact UInt64.le_iff_toNat_le.2 hsz
  have hmax : (-1 : UInt64) ≥ bufSz := by
    apply UInt64.le_iff_toNat_le.2
    exact Nat.le_of_lt_succ bufSz.toNat_lt
  unfold snstrcpy snstrncpy
  rw [if_neg (by decide), Option.bind_eq_bind, Option.bind_some]
  dsimp only
  rw [if_pos (by decide), if_pos hmax, hlast]
  rfl

/-- What `memcpy` reads is there. -/
theorem snstrcpy_some (hsz : 1 ≤ bufSz.toNat) (buf : Block bufSz.toNat) (h : bufSz.toNat - 1 ≤ name.object.length) :
    ∃ out, snstrcpy buf (some name.object) = some (toInt (bufSz.toNat - 1), out) ∧
      out.bytes = name.object.take (bufSz.toNat - 1) ++ [0] := by
  have hlen : (name.object.take (bufSz.toNat - 1)).length = bufSz.toNat - 1 := List.length_take_of_le h
  obtain ⟨buf', hbuf', hbytes'⟩ := store_some (p := buf)
    (by omega : 0 + (name.object.take (bufSz.toNat - 1)).length ≤ bufSz.toNat)
  rw [List.take_zero, List.nil_append] at hbytes'
  obtain ⟨out, hout, hbytes⟩ := store_nul (p := buf') (by omega : bufSz.toNat - 1 < bufSz.toNat)
  rw [hbytes', List.take_left' hlen, ← hbytes'] at hbytes
  refine ⟨out, ?_, ?_⟩
  · have hread : readName (some name.object) (bufSz.toNat - 1) = some (name.object.take (bufSz.toNat - 1)) := if_pos h
    rw [snstrcpy_eq hsz, hread, Option.bind_some, hbuf', Option.bind_some, hout, Option.bind_some]
  · have hend : buf'.bytes.drop (bufSz.toNat - 1 + 1) = [] := by
      apply List.drop_eq_nil_of_le
      rw [buf'.size]
      omega
    rw [hbytes, hend]

theorem snstrcpy_none (hsz : 1 ≤ bufSz.toNat) (buf : Block bufSz.toNat) (h : ¬bufSz.toNat - 1 ≤ name.object.length) :
    snstrcpy buf (some name.object) = none := by
  have hread : readName (some name.object) (bufSz.toNat - 1) = none := if_neg h
  rw [snstrcpy_eq hsz, hread]
  rfl

theorem length_object (name : Str) : name.object.length = name.bytes.length + 1 := by
  rw [Str.object, List.length_append, List.length_singleton]

/-- What is read of a name, with the `NUL` behind it, begins with the copy. -/
theorem named_take (name : Str) {k : Nat} : name.bytes.take k ++ [0] <+: name.object.take k ++ [0] := by
  rcases Nat.lt_or_ge name.bytes.length k with hlong | hshort
  · rw [List.take_of_length_le hlong.le, Str.object, List.take_of_length_le]
    · exact List.prefix_append _ _
    · rw [List.length_append, List.length_singleton]
      exact hlong
  · refine ⟨[], ?_⟩
    rw [List.append_nil, Str.object, List.take_append_of_le_length hshort]

/-- The copy of a name, which is read no further than its `NUL`, and how many characters it has. -/
def Copies (buf : Block bufSz.toNat) (name : Str) : Prop :=
  ∃ n out, snstrcpy buf (some name.object) = some (n, out) ∧ Named name out ∧
    n = (name.bytes.take (bufSz.toNat - 1)).length

/-- The name that a field of the size keeps. -/
def Keeps (copy : Option (Block bufSz.toNat)) (name : Str) : Prop := ∃ out, copy = some out ∧ Named name out

theorem copies_iff (hsz : 1 ≤ bufSz.toNat) (buf : Block bufSz.toNat) (name : Str) :
    Copies buf name ↔ bufSz.toNat - 1 ≤ name.bytes.length ∧ bufSz.toNat - 1 ≤ intMax := by
  have hobject := length_object name
  by_cases hread : bufSz.toNat - 1 ≤ name.object.length
  · obtain ⟨out, hout, hbytes⟩ := snstrcpy_some hsz buf hread
    constructor
    · rintro ⟨n, out', hout', -, hn⟩
      rw [hout] at hout'
      obtain ⟨rfl, rfl⟩ := Prod.mk.inj (Option.some.inj hout')
      rw [List.length_take] at hn
      rcases Nat.lt_or_ge name.bytes.length (bufSz.toNat - 1) with hlong | hshort
      · -- the `NUL` is counted
        have hmod := toInt_emod (bufSz.toNat - 1)
        omega
      · rw [Nat.min_eq_left hshort, toInt_eq_iff] at hn
        exact ⟨hshort, hn⟩
    · rintro ⟨hshort, hint⟩
      refine ⟨_, out, hout, ?_, ?_⟩
      · rw [Named, hbytes]
        exact named_take name
      · rw [List.length_take, Nat.min_eq_left hshort, toInt_eq hint]
  · constructor
    · rintro ⟨n, out, hout, -⟩
      rw [snstrcpy_none hsz buf hread] at hout
      cases hout
    · rintro ⟨hshort, -⟩
      omega

theorem keepName_eq (field : Block bufSz.toNat) (name : Option (List UInt8)) :
    keepName field false name = (snstrcpy field name).map (·.2) := by
  rw [keepName, if_neg Bool.false_ne_true]
  cases snstrcpy field name <;> rfl

theorem keepName_none (hsz : 1 ≤ bufSz.toNat) (field : Block bufSz.toNat) (h : ¬bufSz.toNat - 1 ≤ name.object.length) :
    keepName field false (some name.object) = none := by
  rw [keepName_eq, snstrcpy_none hsz field h]
  rfl

theorem keepName_iff (hsz : 1 ≤ bufSz.toNat) (field : Block bufSz.toNat) (name : Str) :
    Keeps (keepName field false (some name.object)) name ↔ bufSz.toNat - 1 ≤ name.bytes.length + 1 := by
  rw [← length_object]
  by_cases hread : bufSz.toNat - 1 ≤ name.object.length
  · obtain ⟨out, hout, hbytes⟩ := snstrcpy_some hsz field hread
    refine iff_of_true ⟨out, ?_, ?_⟩ hread
    · rw [keepName_eq, hout]
      rfl
    · rw [Named, hbytes]
      exact named_take name
  · refine iff_of_false ?_ hread
    rintro ⟨out, hout, -⟩
    rw [keepName_none hsz field hread] at hout
    cases hout

/-- **The copy of a name** is what it should be just when the name is as long as the
buffer allows. The two fields, whose length nobody asks for, allow for one character less. -/
theorem snstrcpy_iff (name : Str) :
    (∀ (bufSz : UInt64) (buf : Block bufSz.toNat), 1 ≤ bufSz.toNat →
      (Copies buf name ↔ bufSz.toNat - 1 ≤ name.bytes.length ∧ bufSz.toNat - 1 ≤ intMax)) ∧
    (∀ semName : Block aloeSemNameSize.toNat,
      Keeps (aloeSemInitName semName false (some name.object)) name ↔ 18 ≤ name.bytes.length) ∧
    (∀ thdName : Block aloeThreadNameSize.toNat,
      Keeps (aloeThreadRunName thdName false (some name.object)) name ↔ 18 ≤ name.bytes.length) := by
  refine ⟨fun _ buf hsz => copies_iff hsz buf name, ?_, ?_⟩
  · intro semName
    rw [aloeSemInitName, keepName_iff (by decide)]
    exact Nat.succ_le_succ_iff
  · intro thdName
    rw [aloeThreadRunName, keepName_iff (by decide)]
    exact Nat.succ_le_succ_iff

/-- `"ab"` -/
def ab : Str := ⟨[0x61, 0x62], by decide⟩

/-- Two characters in three bytes. -/
theorem snstrcpy_ab : @Copies 3 (Block.fill _ 0xff) ab :=
  ((snstrcpy_iff ab).1 3 (Block.fill _ 0xff) (by decide)).2 ⟨by decide, by decide⟩

/-- 19 bytes are read of the 3 that `"ab"` has. -/
theorem not_copies :
    (¬∀ (bufSz : UInt64) (buf : Block bufSz.toNat) (name : Str), 1 ≤ bufSz.toNat → Copies buf name) ∧
    (¬∀ (semName : Block aloeSemNameSize.toNat) (name : Str),
      Keeps (aloeSemInitName semName false (some name.object)) name) ∧
    ¬∀ (thdName : Block aloeThreadNameSize.toNat) (name : Str),
      Keeps (aloeThreadRunName thdName false (some name.object)) name := by
  refine ⟨?_, ?_, ?_⟩
  · intro hall
    obtain ⟨hread, -⟩ := (copies_iff (by decide) _ ab).1 (hall 20 (Block.fill 20 0xff) ab (by decide))
    exact absurd hread (by decide)
  · intro hall
    obtain ⟨out, hout, -⟩ := hall (Block.fill _ 0xff) ab
    rw [aloeSemInitName, keepName_none (by decide) _ (by decide)] at hout
    cases hout
  · intro hall
    obtain ⟨out, hout, -⟩ := hall (Block.fill _ 0xff) ab
    rw [aloeThreadRunName, keepName_none (by decide) _ (by decide)] at hout
    cases hout

end AlgaeBp.Sys
