import Mathlib.Algebra.BigOperators.Group.Finset.Basic
import Mathlib.Algebra.Order.BigOperators.Group.Finset
import Mathlib.Data.Fintype.Basic
/-!
# How many threads are where

Finitely many threads are each at some point. `census p f` is how many of them
are at a point with `p`; one thread's move changes it by what the two points
say of `p`.
-/

namespace Census

variable {ι α : Type} [Fintype ι]

/-- How many threads are at a point with `p`. -/
def census (p : α → Bool) (f : ι → α) : Nat := ∑ i, (p (f i)).toNat

theorem census_pos {p : α → Bool} {f : ι → α} : 0 < census p f ↔ ∃ i, p (f i) = true := by
  unfold census
  rw [Finset.sum_pos_iff]
  simp only [Finset.mem_univ, true_and]
  refine exists_congr (fun i => ?_)
  cases p (f i) <;> simp

theorem census_eq_zero {p : α → Bool} {f : ι → α} : census p f = 0 ↔ ∀ i, p (f i) = false := by
  rw [← Nat.le_zero, ← Nat.not_lt, census_pos]
  simp

/-- Two kinds of points are counted together. -/
theorem census_add {p q r : α → Bool} (h : ∀ a, (r a).toNat = (p a).toNat + (q a).toNat) (f : ι → α) :
    census r f = census p f + census q f := by
  unfold census
  rw [← Finset.sum_add_distrib]
  exact Finset.sum_congr rfl (fun i _ => h (f i))

variable [DecidableEq ι]

theorem census_eq_add_rest (p : α → Bool) (f : ι → α) (i : ι) :
    census p f = (p (f i)).toNat + ∑ j ∈ Finset.univ.erase i, (p (f j)).toNat :=
  (Finset.add_sum_erase Finset.univ _ (Finset.mem_univ i)).symm

/-- One thread moves. -/
theorem census_update (p : α → Bool) (f : ι → α) (i : ι) (a : α) :
    census p (Function.update f i a) + (p (f i)).toNat = census p f + (p a).toNat := by
  have hrest : ∑ j ∈ Finset.univ.erase i, (p (Function.update f i a j)).toNat =
      ∑ j ∈ Finset.univ.erase i, (p (f j)).toNat :=
    Finset.sum_congr rfl (fun j hj => by rw [Function.update_of_ne (Finset.ne_of_mem_erase hj)])
  rw [census_eq_add_rest p f i, census_eq_add_rest p (Function.update f i a) i, hrest, Function.update_self]
  omega

/-- A thread that moves between points that `p` does not tell apart. -/
theorem census_update_same {p : α → Bool} {f : ι → α} {i : ι} {a : α} (h : p (f i) = p a) :
    census p (Function.update f i a) = census p f := by
  have hu := census_update p f i a
  rw [h] at hu
  omega

end Census
