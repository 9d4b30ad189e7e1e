import AlgaeBp.Flash.Code
import AlgaeBp.Lib.Crc
import AlgaeBp.Settings.Theorems
/-!
# The checksum of the settings

`aloe_crc32` and the `crc32` of the flasher are one register, that of the
polynomial 0x104C11DB7 with its bits reversed.
-/
open Crc

namespace AlgaeBp.Settings

/-! ## The register -/

/-- 0xEDB88320. -/
def reversedPoly : BitVec 32 := 0xEDB88320

theorem and_one_ne_zero (c : UInt32) : (c &&& 1 ≠ 0) ↔ c.toBitVec.getLsbD 0 = true := by
  rw [ne_eq, ← UInt32.toNat_inj, UInt32.toNat_and, BitVec.getLsbD, UInt32.toNat_toBitVec, Nat.testBit_zero]
  rw [show (1 : UInt32).toNat = 2 ^ 1 - 1 from rfl, Nat.and_two_pow_sub_one_eq_mod]
  simp

theorem crcBit_toBitVec (c : UInt32) : (crcBit c).toBitVec = shift reversedPoly c.toBitVec := by
  unfold crcBit shift
  by_cases h : c.toBitVec.getLsbD 0 = true
  · rw [if_pos ((and_one_ne_zero c).2 h), if_pos h]
    rfl
  · rw [if_neg (mt (and_one_ne_zero c).1 h), if_neg h]
    rfl

theorem crcBits_toBitVec (n : Nat) (c : UInt32) :
    (Nat.iterate crcBit n c).toBitVec = (shift reversedPoly)^[n] c.toBitVec := by
  induction n generalizing c with
  | zero => rfl
  | succ n ih => rw [Function.iterate_succ_apply, Function.iterate_succ_apply, ih, crcBit_toBitVec]

theorem crcByte_toBitVec (c : UInt32) (b : UInt8) :
    (crcByte c b).toBitVec = feed reversedPoly c.toBitVec b.toBitVec := by
  unfold crcByte feed
  rw [crcBits_toBitVec]
  rfl

theorem crcBytes_toBitVec (d : List UInt8) (c : UInt32) :
    (d.foldl crcByte c).toBitVec = run reversedPoly c.toBitVec (d.map UInt8.toBitVec) := by
  induction d generalizing c with
  | nil => rfl
  | cons b d ih =>
    rw [List.foldl_cons, ih, crcByte_toBitVec]
    rfl

theorem aloeCrc32_toBitVec (d : List UInt8) (c : UInt32) :
    (aloeCrc32 d c).toBitVec = ~~~ run reversedPoly (~~~ c.toBitVec) (d.map UInt8.toBitVec) := by
  unfold aloeCrc32
  rw [UInt32.toBitVec_not, crcBytes_toBitVec, UInt32.toBitVec_not]

/-! ## The polynomial -/

theorem generator_eq : generator reversedPoly = ofNumber 0x104C11DB7 := by
  have hlow : ∀ j < 33, (if j = 32 then 1 else 0) + bit (reversedPoly.getMsbD j) =
      bit (Nat.testBit 0x104C11DB7 j) := by decide +kernel
  ext j
  rw [generator, Polynomial.coeff_add, Polynomial.coeff_X_pow, coeff_ofWord, coeff_ofNumber]
  by_cases hj : j < 33
  · exact hlow j hj
  · have hn : ¬ j < 32 := by omega
    have hbit : Nat.testBit 0x104C11DB7 j = false := by
      apply Nat.testBit_lt_two_pow
      exact lt_of_lt_of_le (by decide) (Nat.pow_le_pow_right (by decide) (Nat.le_of_not_lt hj))
    rw [if_neg (by omega), hbit, BitVec.getMsbD, decide_eq_false hn, Bool.false_and, zero_add]

/-- The bits of a byte string, the lowest of each byte first. -/
def bitsOf (d : List UInt8) : List Bool := message (d.map UInt8.toBitVec)

/-! ## The flasher's register -/

theorem mask_crcBit (c : UInt32) : Flash.crcBit c = crcBit c := by
  have hbit : c &&& 1 = 0 ∨ c &&& 1 = 1 := by
    rw [← UInt32.toNat_inj, ← UInt32.toNat_inj, UInt32.toNat_and, show (1 : UInt32).toNat = 2 ^ 1 - 1 from rfl,
      Nat.and_two_pow_sub_one_eq_mod]
    show _ = 0 ∨ _ = 1
    omega
  unfold Flash.crcBit crcBit
  -- the mask is all zeroes or all ones
  rcases hbit with h | h
  · rw [h, if_neg (not_not.2 rfl)]
    show c >>> 1 ^^^ 0 = _
    exact UInt32.xor_zero
  · rw [h, if_pos (by decide)]
    rfl

theorem flash_crc32_eq (d : List UInt8) : Flash.crc32 d = aloeCrc32 d 0 := by
  have hstep : Flash.crcBit = crcBit := funext mask_crcBit
  have hfold : Flash.crc32 d = d.foldl crcByte 0xffffffff ^^^ 0xffffffff := by
    unfold Flash.crc32
    rw [hstep]
    rfl
  rw [hfold, aloeCrc32, UInt32.not_zero]
  apply UInt32.toBitVec_inj.1
  rw [UInt32.toBitVec_xor, UInt32.toBitVec_not]
  exact BitVec.xor_allOnes

/-- **One checksum.** It may be taken in parts, from any start; the flasher
computes the same; and it is the remainder by 0x104C11DB7, lowest bits first,
with initial and final complement. -/
theorem crc32_agrees :
    (∀ (a b : List UInt8) (c : UInt32), aloeCrc32 b (aloeCrc32 a c) = aloeCrc32 (a ++ b) c) ∧
      ∀ d : List UInt8, aloeCrc32 d 0 = Flash.crc32 d ∧
        (aloeCrc32 d 0).toBitVec = check 32 (ofNumber 0x104C11DB7) (bitsOf d) := by
  refine ⟨fun a b c => (aloeCrc32_append a b c).symm, fun d => ⟨(flash_crc32_eq d).symm, ?_⟩⟩
  rw [aloeCrc32_toBitVec, ← generator_eq]
  exact complemented_eq reversedPoly (by decide) (d.map UInt8.toBitVec)

end AlgaeBp.Settings
