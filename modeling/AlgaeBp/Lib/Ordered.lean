import Mathlib.Data.List.Pairwise
import Mathlib.Data.List.Nodup
import Mathlib.Tactic.Common
/-!
# Lists in the order of a comparison

A three-way comparison `cmp` orders a list without repetition. `insert` puts
an element where it belongs, unless one that compares equal is there.
-/

namespace Ordered

variable {α : Type} {cmp : α → α → Ordering} {x y z : α} {l l' : List α}

def Sorted (cmp : α → α → Ordering) (l : List α) : Prop := l.Pairwise fun x y => cmp x y = .lt

def insert (cmp : α → α → Ordering) (x : α) : List α → List α
  | [] => [x]
  | y :: ys =>
    match cmp x y with
    | .lt => x :: y :: ys
    | .eq => y :: ys
    | .gt => y :: insert cmp x ys

/-- The element that compares equal to `x`. -/
def find (cmp : α → α → Ordering) (x : α) (l : List α) : Option α := l.find? fun y => cmp x y = .eq

theorem length_insert_le : (insert cmp x l).length ≤ l.length + 1 := by
  induction l with
  | nil => simp [insert]
  | cons y ys ih =>
    rw [insert]
    cases cmp x y with
    | lt => simp
    | eq => simp
    | gt => simpa using ih

theorem mem_insert (h : y ∈ insert cmp x l) : y = x ∨ y ∈ l := by
  induction l with
  | nil => exact .inl (List.mem_singleton.1 h)
  | cons z zs ih =>
    rw [insert] at h
    split at h
    · exact List.mem_cons.1 h
    · exact .inr h
    · rcases List.mem_cons.1 h with rfl | h
      · exact .inr List.mem_cons_self
      · exact (ih h).imp_right (List.mem_cons_of_mem z)

/-- An element that is not there yet is one more. -/
theorem length_insert (h : find cmp x l = none) : (insert cmp x l).length = l.length + 1 := by
  induction l with
  | nil => rfl
  | cons z zs ih =>
    rw [find, List.find?_cons] at h
    rw [insert]
    cases hxz : cmp x z with
    | lt => rfl
    | eq => simp [hxz] at h
    | gt =>
      simp only [hxz, reduceCtorEq, decide_false] at h
      exact congrArg (· + 1) (ih h)

theorem insert_between (hl : ∀ y ∈ l, cmp x y = .gt) (hl' : ∀ y ∈ l', cmp x y = .lt) :
    insert cmp x (l ++ l') = l ++ x :: l' := by
  induction l with
  | nil =>
    cases l' with
    | nil => rfl
    | cons y ys => simp [insert, hl' y List.mem_cons_self]
  | cons y ys ih =>
    rw [List.cons_append, insert, hl y List.mem_cons_self]
    exact congrArg (y :: ·) (ih (fun z hz => hl z (List.mem_cons_of_mem y hz)))

theorem insert_found (hl : ∀ y ∈ l, cmp x y = .gt) (hz : cmp x z = .eq) : insert cmp x (l ++ z :: l') = l ++ z :: l' := by
  induction l with
  | nil => simp [insert, hz]
  | cons y ys ih =>
    rw [List.cons_append, insert, hl y List.mem_cons_self]
    exact congrArg (y :: ·) (ih (fun z hz => hl z (List.mem_cons_of_mem y hz)))

theorem find_between (hl : ∀ y ∈ l, cmp x y = .gt) (hl' : ∀ y ∈ l', cmp x y = .lt) : find cmp x (l ++ l') = none := by
  rw [find, List.find?_eq_none]
  intro y hy
  rcases List.mem_append.1 hy with hy | hy
  · simp [hl y hy]
  · simp [hl' y hy]

theorem find_found (hl : ∀ y ∈ l, cmp x y = .gt) (hz : cmp x z = .eq) : find cmp x (l ++ z :: l') = some z := by
  rw [find, List.find?_append, List.find?_eq_none.2, Option.none_or, List.find?_cons_of_pos]
  · simpa using hz
  · intro y hy
    simp [hl y hy]

theorem erase_between [DecidableEq α] (h : (l ++ x :: l').Nodup) : (l ++ x :: l').erase x = l ++ l' := by
  have hx : x ∉ l := fun hm => (List.nodup_append.1 h).2.2 x hm x List.mem_cons_self rfl
  rw [List.erase_append_right _ hx, List.erase_cons_head]

variable [Std.TransCmp cmp]

theorem Sorted.gt_of_gt (h : Sorted cmp (l ++ y :: l')) (hx : cmp x y = .gt) : ∀ z ∈ l, cmp x z = .gt := by
  intro z hz
  have hzy : cmp z y = .lt := (List.pairwise_append.1 h).2.2 z hz y List.mem_cons_self
  exact Std.TransCmp.gt_trans hx (Std.OrientedCmp.gt_of_lt hzy)

theorem Sorted.lt_of_lt (h : Sorted cmp (l ++ y :: l')) (hx : cmp x y = .lt) : ∀ z ∈ l', cmp x z = .lt := by
  intro z hz
  have hyz : cmp y z = .lt := (List.pairwise_cons.1 (List.pairwise_append.1 h).2.1).1 z hz
  exact Std.TransCmp.lt_trans hx hyz

theorem Sorted.gt_of_eq (h : Sorted cmp (l ++ y :: l')) (hx : cmp x y = .eq) : ∀ z ∈ l, cmp x z = .gt := by
  intro z hz
  have hzy : cmp z y = .lt := (List.pairwise_append.1 h).2.2 z hz y List.mem_cons_self
  exact Std.TransCmp.gt_of_eq_of_gt hx (Std.OrientedCmp.gt_of_lt hzy)

theorem sorted_between (h : Sorted cmp (l ++ l')) (hl : ∀ y ∈ l, cmp x y = .gt) (hl' : ∀ y ∈ l', cmp x y = .lt) :
    Sorted cmp (l ++ x :: l') := by
  obtain ⟨h₁, h₂, h₁₂⟩ := List.pairwise_append.1 h
  refine List.pairwise_append.2 ⟨h₁, List.pairwise_cons.2 ⟨hl', h₂⟩, fun y hy z hz => ?_⟩
  rcases List.mem_cons.1 hz with rfl | hz
  · exact Std.OrientedCmp.lt_of_gt (hl y hy)
  · exact h₁₂ y hy z hz

theorem Sorted.nodup (h : Sorted cmp l) : l.Nodup := by
  refine List.Pairwise.imp (fun {a b} hab => ?_) h
  rintro rfl
  have hself : cmp a a = .eq := Std.ReflCmp.compare_self
  rw [hself] at hab
  cases hab

omit [Std.TransCmp cmp] in
theorem Sorted.sublist (h : Sorted cmp l) (hs : l'.Sublist l) : Sorted cmp l' := List.Pairwise.sublist hs h

end Ordered
