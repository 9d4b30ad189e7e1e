import Mathlib.Algebra.Group.Nat.Defs
import Mathlib.Data.Fin.Tuple.Basic
/-!
# Vector instructions on lanes

The NEON and SSE2 instructions, as functions. A NEON vector is its lanes; a
lane of 16 bits wraps at 65536, and narrowing keeps the low byte. An SSE2
register is its 16 bytes, and `epi16` and `epi32` are its lanes of two and of
four bytes, the low byte first.
-/

namespace Lanes

/-- A vector of `n` lanes. -/
abbrev Vec (n : Nat) (α : Type) : Type := Fin n → α

variable {n : Nat}

/-! ## NEON -/

def vdupU16 (c : UInt16) : Vec n UInt16 := fun _ => c

def vdupU8 (c : UInt8) : Vec n UInt8 := fun _ => c

def vaddU16 (a b : Vec n UInt16) : Vec n UInt16 := fun i => a i + b i

def vaddU8 (a b : Vec n UInt8) : Vec n UInt8 := fun i => a i + b i

def vmulNU16 (a : Vec n UInt16) (c : UInt16) : Vec n UInt16 := fun i => a i * c

/-- `a + b * c`. -/
def vmlaNU16 (a b : Vec n UInt16) (c : UInt16) : Vec n UInt16 := fun i => a i + b i * c

/-- The product of two bytes, in 16 bits. -/
def vmullU8 (a b : Vec n UInt8) : Vec n UInt16 := fun i => (a i).toUInt16 * (b i).toUInt16

def vmlalU8 (a : Vec n UInt16) (b c : Vec n UInt8) : Vec n UInt16 := fun i => a i + (b i).toUInt16 * (c i).toUInt16

def vshrNU16 (a : Vec n UInt16) (k : UInt16) : Vec n UInt16 := fun i => a i >>> k

def vmovnU16 (a : Vec n UInt16) : Vec n UInt8 := fun i => (a i).toUInt8

def vshrnNU16 (a : Vec n UInt16) (k : UInt16) : Vec n UInt8 := fun i => (a i >>> k).toUInt8

/-- The low half and the high half of a vector. -/
def vcombine {α : Type} (lo hi : Vec n α) : Vec (n + n) α := Fin.append lo hi

/-- Vector `k` of a load that deals the words out to four. -/
def vld4 {α : Type} (words : Vec (4 * n) α) (k : Fin 4) : Vec n α := fun i => words ⟨4 * i + k, by omega⟩

section Neon

variable (a b : Vec n UInt16) (c : UInt16) (i : Fin n)

@[simp] theorem vdupU16_apply : (vdupU16 c : Vec n UInt16) i = c := rfl

@[simp] theorem vdupU8_apply (c : UInt8) : (vdupU8 c : Vec n UInt8) i = c := rfl

@[simp] theorem toNat_vaddU16 : (vaddU16 a b i).toNat = ((a i).toNat + (b i).toNat) % 65536 := UInt16.toNat_add _ _

@[simp] theorem toNat_vaddU8 (a b : Vec n UInt8) : (vaddU8 a b i).toNat = ((a i).toNat + (b i).toNat) % 256 :=
  UInt8.toNat_add _ _

@[simp] theorem toNat_vmulNU16 : (vmulNU16 a c i).toNat = (a i).toNat * c.toNat % 65536 := UInt16.toNat_mul _ _

@[simp] theorem toNat_vmlaNU16 : (vmlaNU16 a b c i).toNat = ((a i).toNat + (b i).toNat * c.toNat) % 65536 := by
  rw [vmlaNU16, UInt16.toNat_add, UInt16.toNat_mul, Nat.add_mod_mod]

@[simp] theorem toNat_vmullU8 (a b : Vec n UInt8) : (vmullU8 a b i).toNat = (a i).toNat * (b i).toNat % 65536 := by
  rw [vmullU8, UInt16.toNat_mul, UInt8.toNat_toUInt16, UInt8.toNat_toUInt16]

@[simp] theorem toNat_vmlalU8 (b c : Vec n UInt8) :
    (vmlalU8 a b c i).toNat = ((a i).toNat + (b i).toNat * (c i).toNat) % 65536 := by
  rw [vmlalU8, UInt16.toNat_add, UInt16.toNat_mul, UInt8.toNat_toUInt16, UInt8.toNat_toUInt16, Nat.add_mod_mod]

theorem toNat_vshrNU16 : (vshrNU16 a c i).toNat = (a i).toNat / 2 ^ (c.toNat % 16) := by
  rw [vshrNU16, UInt16.toNat_shiftRight, Nat.shiftRight_eq_div_pow]

@[simp] theorem toNat_vmovnU16 : (vmovnU16 a i).toNat = (a i).toNat % 256 := UInt16.toNat_toUInt8 _

theorem toNat_vshrnNU16 : (vshrnNU16 a c i).toNat = (a i).toNat / 2 ^ (c.toNat % 16) % 256 := by
  rw [vshrnNU16, UInt16.toNat_toUInt8, UInt16.toNat_shiftRight, Nat.shiftRight_eq_div_pow]

@[simp] theorem vcombine_low {α : Type} (lo hi : Vec n α) : vcombine lo hi (Fin.castAdd n i) = lo i :=
  Fin.append_left lo hi i

end Neon

/-! ## SSE2 -/

/-- `__m128i`. -/
abbrev M128 : Type := Vec 16 UInt8

def epi16 (v : M128) (i : Fin 8) : UInt16 :=
  UInt16.ofNat ((v ⟨2 * i, by omega⟩).toNat + 256 * (v ⟨2 * i + 1, by omega⟩).toNat)

def ofEpi16 (f : Fin 8 → UInt16) : M128 := fun j => UInt8.ofNat ((f ⟨j / 2, by omega⟩).toNat / 256 ^ (j.val % 2))

def epi32 (v : M128) (i : Fin 4) : UInt32 :=
  UInt32.ofNat ((v ⟨4 * i, by omega⟩).toNat + 256 * (v ⟨4 * i + 1, by omega⟩).toNat +
    65536 * (v ⟨4 * i + 2, by omega⟩).toNat + 16777216 * (v ⟨4 * i + 3, by omega⟩).toNat)

def ofEpi32 (f : Fin 4 → UInt32) : M128 := fun j => UInt8.ofNat ((f ⟨j / 4, by omega⟩).toNat / 256 ^ (j.val % 4))

@[simp] theorem epi16_ofEpi16 (f : Fin 8 → UInt16) (i : Fin 8) : epi16 (ofEpi16 f) i = f i := by
  apply UInt16.toNat_inj.1
  have hf := (f i).toNat_lt
  have hlo : 2 * i.val / 2 = i := by omega
  have hhi : (2 * i.val + 1) / 2 = i := by omega
  have hlo' : 2 * i.val % 2 = 0 := by omega
  have hhi' : (2 * i.val + 1) % 2 = 1 := by omega
  simp only [epi16, ofEpi16, hlo, hhi, hlo', hhi', Fin.eta, UInt8.toNat_ofNat', UInt16.toNat_ofNat', Nat.reducePow]
  omega

def setzeroSi128 : M128 := fun _ => 0

def set1Epi16 (c : UInt16) : M128 := ofEpi16 fun _ => c

def set1Epi32 (c : UInt32) : M128 := ofEpi32 fun _ => c

/-- `_mm_loadl_epi64`: eight bytes, and zeros above. -/
def loadlEpi64 (bytes : Vec 8 UInt8) : M128 := fun j => if h : j.val < 8 then bytes ⟨j, h⟩ else 0

/-- `_mm_storel_epi64`: the low eight bytes. -/
def storelEpi64 (v : M128) : Vec 8 UInt8 := fun i => v ⟨i, by omega⟩

/-- The low bytes of the two registers in turn. -/
def unpackloEpi8 (a b : M128) : M128 :=
  fun j => if j.val % 2 = 0 then a ⟨j / 2, by omega⟩ else b ⟨j / 2, by omega⟩

/-- The low half of the one and the low half of the other register. -/
def unpackloEpi64 (a b : M128) : M128 := fun j => if h : j.val < 8 then a j else b ⟨j - 8, by omega⟩

/-- `_mm_shuffle_epi32`: lane `i` of the result is lane `pick i`. -/
def shuffleEpi32 (a : M128) (pick : Fin 4 → Fin 4) : M128 :=
  fun j => a ⟨4 * (pick ⟨j / 4, by omega⟩).val + j % 4, by omega⟩

def addEpi16 (a b : M128) : M128 := ofEpi16 fun i => epi16 a i + epi16 b i

def mulloEpi16 (a b : M128) : M128 := ofEpi16 fun i => epi16 a i * epi16 b i

def srliEpi16 (a : M128) (k : UInt16) : M128 := ofEpi16 fun i => epi16 a i >>> k

def srlEpi32 (a : M128) (k : UInt32) : M128 := ofEpi32 fun i => epi32 a i >>> k

def andSi128 (a b : M128) : M128 := fun j => a j &&& b j

@[simp] theorem epi16_addEpi16 (a b : M128) (i : Fin 8) : epi16 (addEpi16 a b) i = epi16 a i + epi16 b i :=
  epi16_ofEpi16 _ i

@[simp] theorem epi16_mulloEpi16 (a b : M128) (i : Fin 8) : epi16 (mulloEpi16 a b) i = epi16 a i * epi16 b i :=
  epi16_ofEpi16 _ i

@[simp] theorem epi16_srliEpi16 (a : M128) (k : UInt16) (i : Fin 8) : epi16 (srliEpi16 a k) i = epi16 a i >>> k :=
  epi16_ofEpi16 _ i

@[simp] theorem epi16_set1Epi16 (c : UInt16) (i : Fin 8) : epi16 (set1Epi16 c) i = c := epi16_ofEpi16 _ i

/-- Bytes next to zeros are words. -/
theorem toNat_epi16_unpacklo (bytes : Vec 8 UInt8) (i : Fin 8) :
    (epi16 (unpackloEpi8 (loadlEpi64 bytes) setzeroSi128) i).toNat = (bytes i).toNat := by
  have hb := (bytes i).toNat_lt
  have heven : 2 * i.val % 2 = 0 := by omega
  have hodd : (2 * i.val + 1) % 2 ≠ 0 := by omega
  have hi : 2 * i.val / 2 = i := by omega
  simp only [epi16, unpackloEpi8, loadlEpi64, setzeroSi128, if_pos heven, if_neg hodd, hi, dif_pos i.isLt, Fin.eta,
    UInt8.toNat_zero, UInt16.toNat_ofNat']
  omega

/-- The low byte of each lane. -/
theorem toNat_epi32_low (f : Fin 4 → UInt32) (i : Fin 4) :
    (epi32 (andSi128 (ofEpi32 f) (set1Epi32 255)) i).toNat = (f i).toNat % 256 := by
  have hq : ∀ k < 4, (4 * i.val + k) / 4 = i := fun k hk => by omega
  have hr : ∀ k < 4, (4 * i.val + k) % 4 = k := fun k hk => by omega
  have hq₀ := hq 0 (by omega)
  have hr₀ := hr 0 (by omega)
  rw [Nat.add_zero] at hq₀ hr₀
  have hmask := Nat.and_two_pow_sub_one_eq_mod (((f i).toNat) % 2 ^ 8) 8
  rw [Nat.mod_mod] at hmask
  have hlow : ((UInt8.ofNat (f i).toNat) &&& UInt8.ofNat 255).toNat = (f i).toNat % 256 := by
    rw [UInt8.toNat_and, UInt8.toNat_ofNat']
    exact hmask
  have hhigh : ∀ b : UInt8, (b &&& UInt8.ofNat 0).toNat = 0 := by
    intro b
    rw [UInt8.toNat_and]
    exact Nat.and_zero _
  simp only [epi32, andSi128, ofEpi32, set1Epi32, hq₀, hr₀, hq 1 (by omega), hq 2 (by omega), hq 3 (by omega),
    hr 1 (by omega), hr 2 (by omega), hr 3 (by omega), Fin.eta, UInt32.reduceToNat, Nat.reducePow, Nat.reduceDiv,
    Nat.div_one, hlow, hhigh, UInt32.toNat_ofNat']
  omega

/-- A word with its sign. -/
def signed (w n : Nat) : Int := if n < 2 ^ (w - 1) then n else (n : Int) - (2 ^ w : Nat)

/-- The lanes of two registers, one behind the other. -/
def epi32Pair (a b : M128) (i : Fin 8) : UInt32 := if h : i.val < 4 then epi32 a ⟨i, h⟩ else epi32 b ⟨i - 4, by omega⟩

/-- 32 bits to 16, with saturation. -/
def packsEpi32 (a b : M128) : M128 :=
  ofEpi16 fun i => UInt16.ofInt (max (-32768) (min (signed 32 (epi32Pair a b i).toNat) 32767))

/-- 16 bits to eight without a sign, with saturation. -/
def packusEpi16 (a b : M128) : M128 :=
  fun j =>
    let v := signed 16 (if h : j.val < 8 then epi16 a ⟨j, h⟩ else epi16 b ⟨j - 8, by omega⟩).toNat
    UInt8.ofInt (max 0 (min v 255))

/-- Lanes of at most 255 keep their value. -/
theorem toNat_epi16_packs {a b : M128} {i : Fin 8} (h : (epi32Pair a b i).toNat ≤ 255) :
    (epi16 (packsEpi32 a b) i).toNat = (epi32Pair a b i).toNat := by
  have hsigned : signed 32 (epi32Pair a b i).toNat = (epi32Pair a b i).toNat := if_pos (by omega)
  rw [packsEpi32, epi16_ofEpi16, hsigned, UInt16.ofInt, UInt16.toNat_ofNat']
  omega

theorem toNat_storel_packus {a : M128} (b : M128) {i : Fin 8} (ha : (epi16 a i).toNat ≤ 255) :
    (storelEpi64 (packusEpi16 a b) i).toNat = (epi16 a i).toNat := by
  have hsigned : signed 16 (epi16 a i).toNat = (epi16 a i).toNat := if_pos (by omega)
  simp only [storelEpi64, packusEpi16, dif_pos i.isLt, Fin.eta, hsigned]
  rw [UInt8.ofInt, UInt8.toNat_ofNat']
  omega

end Lanes
