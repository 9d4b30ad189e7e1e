import Mathlib.Data.List.Nodup
import Mathlib.Data.List.Count
import Mathlib.Logic.Function.Basic
import Mathlib.Tactic.Common
/-!
# Elements spread over queues

A family of queues `q`, of which those in `qs` matter. `gathered q qs` has the
elements of all of them. When an element joins or leaves one queue, it joins
or leaves `gathered`; nothing else moves.
-/

namespace Queues

variable {ι α : Type} {q : ι → List α} {qs : List ι} {i : ι} {x : α}

def gathered (q : ι → List α) (qs : List ι) : List α := qs.flatMap q

theorem mem_gathered : x ∈ gathered q qs ↔ ∃ i ∈ qs, x ∈ q i := List.mem_flatMap

theorem gathered_concat : gathered q (qs ++ [i]) = gathered q qs ++ q i := by
  simp [gathered]

variable [DecidableEq ι]

theorem gathered_update_of_notMem {l : List α} (hi : i ∉ qs) : gathered (Function.update q i l) qs = gathered q qs := by
  unfold gathered
  refine List.flatMap_congr (fun j hj => ?_)
  have hne : j ≠ i := fun heq => hi (heq ▸ hj)
  exact Function.update_of_ne hne ..

/-- One of the queues and the others. -/
theorem gathered_perm (q : ι → List α) (hi : i ∈ qs) : (gathered q qs).Perm (q i ++ gathered q (qs.erase i)) := by
  have h : (gathered q qs).Perm (gathered q (i :: qs.erase i)) := (List.perm_cons_erase hi).flatMap_right q
  simpa [gathered] using h

theorem gathered_update_perm {l : List α} (hnd : qs.Nodup) (hi : i ∈ qs) :
    (gathered (Function.update q i l) qs).Perm (l ++ gathered q (qs.erase i)) := by
  have h := gathered_perm (Function.update q i l) hi
  rwa [Function.update_self, gathered_update_of_notMem (hnd.not_mem_erase)] at h

/-- An element joins a queue. -/
theorem gathered_join (hnd : qs.Nodup) (hi : i ∈ qs) :
    (gathered (Function.update q i (q i ++ [x])) qs).Perm (x :: gathered q qs) := by
  refine (gathered_update_perm hnd hi).trans ?_
  rw [List.append_assoc]
  exact List.perm_middle.trans ((gathered_perm q hi).symm.cons x)

/-- An element leaves a queue. -/
theorem gathered_leave [DecidableEq α] (hnd : qs.Nodup) (hi : i ∈ qs) (hx : x ∈ q i) :
    (gathered q qs).Perm (x :: gathered (Function.update q i ((q i).erase x)) qs) := by
  refine (gathered_perm q hi).trans ?_
  refine ((List.perm_cons_erase hx).append_right _).trans ?_
  exact (gathered_update_perm hnd hi).symm.cons x

/-- An empty queue can go. -/
theorem gathered_erase (hi : i ∈ qs) (hq : q i = []) : (gathered q qs).Perm (gathered q (qs.erase i)) := by
  simpa [hq] using gathered_perm q hi

/-! ## An element on the move

Items held in two queues, and those that are loose between two moves. -/

/-- An element taken off the second queue. -/
theorem perm_pop (front rest : List α) (x : α) : (front ++ rest ++ [x]).Perm (front ++ x :: rest ++ []) := by
  rw [List.append_nil]
  exact (List.perm_append_singleton x (front ++ rest)).trans List.perm_middle.symm

/-- An element taken off the first queue. -/
theorem perm_leave {front front' : List α} {x : α} (h : front.Perm (x :: front')) (back : List α) :
    (front' ++ back ++ [x]).Perm (front ++ back ++ []) := by
  rw [List.append_nil]
  exact (List.perm_append_singleton x (front' ++ back)).trans (h.append_right back).symm

end Queues
