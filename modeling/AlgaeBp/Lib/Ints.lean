import Mathlib.Algebra.Order.Ring.Int
import Mathlib.Tactic.Common
/-!
# The type `int`

32 bits. A value that no `int` has comes from an overflow, which is undefined, or
from a conversion, which takes it modulo `2^32`.
-/

namespace Ints

/-- `INT_MAX` -/
def intMax : Nat := 2 ^ 31 - 1

/-- A result that must be an `int`. -/
def int (n : Nat) : Option Nat := if n ≤ intMax then some n else none

/-- The conversion of a `size_t`. -/
def toInt (n : Nat) : Int := (n : Int).bmod (2 ^ 32)

variable {n : Nat}

theorem int_eq (h : n ≤ intMax) : int n = some n := if_pos h

theorem int_none (h : ¬n ≤ intMax) : int n = none := if_neg h

theorem toInt_eq (h : n ≤ intMax) : toInt n = n := by
  unfold intMax at h
  exact Int.bmod_eq_of_le (by omega) (by omega)

theorem toInt_eq_iff : toInt n = n ↔ n ≤ intMax := by
  constructor
  · intro h
    have hlt := Int.bmod_lt (x := (n : Int)) (m := 2 ^ 32) (by decide)
    unfold toInt at h
    unfold intMax
    omega
  · exact toInt_eq

/-- The conversion keeps the remainder. -/
theorem toInt_emod (n : Nat) : toInt n % 2 ^ 32 = n % 2 ^ 32 := Int.bmod_emod

end Ints
