import AlgaeBp.Evb2.Log
import AlgaeBp.Lib.Contracts
/-!
# The order of `timer_list`

Handles stand on `timer_list` by deadline, and those with the same deadline in
the order in which they were inserted; the log tells when that was. Every
operation keeps the order but one: the deadline of a handle can be changed while
it is on the list, and then it is the only one that may be out of place.
-/
open Reentrant

namespace AlgaeBp.Evb2

def Event.arms (h : Ptr) : Event → Bool
  | .armed k _ => k = h
  | _ => false

/-- How long the log was once the handle had last been inserted into `timer_list`. -/
def armedAt (log : List Event) (h : Ptr) : Nat := (log.dropWhile fun e => !e.arms h).length

theorem armedAt_le (log : List Event) (h : Ptr) : armedAt log h ≤ log.length := (List.dropWhile_sublist _).length_le

theorem armedAt_other {e : Event} {h : Ptr} (he : e.arms h = false) (log : List Event) :
    armedAt (e :: log) h = armedAt log h := by
  simp [armedAt, he]

theorem armedAt_self (h : Ptr) (t : UInt64) (log : List Event) : armedAt (.armed h t :: log) h = log.length + 1 := by
  simp [armedAt, Event.arms]

/-- `a` is due before `b`, or with it and inserted before it. -/
def St.Before (s : St) (a b : Ptr) : Prop :=
  s.deadline a < s.deadline b ∨ s.deadline a = s.deadline b ∧ armedAt s.log a < armedAt s.log b

instance (s : St) (a b : Ptr) : Decidable (s.Before a b) := inferInstanceAs (Decidable (_ ∨ _))

def St.Sorted (s : St) : Prop := (s.lists .timer).Pairwise s.Before

instance (s : St) : Decidable s.Sorted := inferInstanceAs (Decidable (List.Pairwise _ _))

/-- Sorted, were it not for `x`. -/
def St.SortedBut (x : Ptr) (s : St) : Prop := ((s.lists .timer).erase x).Pairwise s.Before

/-- An element put before the first one that it must stand before. -/
theorem pairwise_orderedInsert {α : Type} {r R : α → α → Prop} [DecidableRel r] {x : α} {l : List α} (h : l.Pairwise R)
    (hlt : ∀ b ∈ l, r x b → R x b) (hge : ∀ b ∈ l, ¬ r x b → R b x)
    (hup : ∀ a ∈ l, ∀ b ∈ l, R a b → r x a → r x b) : (l.orderedInsert r x).Pairwise R := by
  induction l with
  | nil => simp
  | cons y ys ih =>
    obtain ⟨hy, hys⟩ := List.pairwise_cons.1 h
    rw [List.orderedInsert_cons]
    split
    · rename_i hxy
      refine List.pairwise_cons.2 ⟨fun z hz => ?_, h⟩
      rcases List.mem_cons.1 hz with rfl | hz
      · exact hlt z (by simp) hxy
      · exact hlt z (by simp [hz]) (hup y (by simp) z (by simp [hz]) (hy z hz) hxy)
    · rename_i hxy
      refine List.pairwise_cons.2 ⟨fun z hz => ?_, ih hys (fun b hb => hlt b (by simp [hb]))
        (fun b hb => hge b (by simp [hb])) (fun a ha b hb => hup a (by simp [ha]) b (by simp [hb]))⟩
      rcases (List.mem_orderedInsert r).1 hz with rfl | hz
      · exact hge y (by simp) hxy
      · exact hy z hz

/-! ## What keeps the order -/

/-- Handles may have left `timer_list`; those on it have the deadlines and places they had. -/
structure TimersKept (s s' : St) : Prop where
  sub : (s'.lists .timer).Sublist (s.lists .timer)
  deadline : ∀ h ∈ s'.lists .timer, s'.deadline h = s.deadline h
  armed : ∀ h ∈ s'.lists .timer, armedAt s'.log h = armedAt s.log h

section Order
variable {m : Mode} {s s' s'' : St} {x : Ptr} {a b : Ptr}

theorem TimersKept.before (h : TimersKept s s') (ha : a ∈ s'.lists .timer) (hb : b ∈ s'.lists .timer)
    (hab : s.Before a b) : s'.Before a b := by
  unfold St.Before
  rw [h.deadline a ha, h.deadline b hb, h.armed a ha, h.armed b hb]
  exact hab

theorem TimersKept.sorted (h : TimersKept s s') (hs : s.Sorted) : s'.Sorted :=
  (hs.sublist h.sub).imp_of_mem fun ha hb => h.before ha hb

theorem TimersKept.sortedBut (h : TimersKept s s') (hs : s.SortedBut x) : s'.SortedBut x :=
  (hs.sublist (h.sub.erase x)).imp_of_mem fun ha hb => h.before (List.mem_of_mem_erase ha) (List.mem_of_mem_erase hb)

theorem SortedBut.of_notMem (hs : s.SortedBut x) (hx : x ∉ s.lists .timer) : s.Sorted := by
  unfold St.SortedBut at hs
  rwa [List.erase_of_not_mem hx] at hs

/-- `timer_insert` puts the handle where it belongs. -/
theorem sorted_arm (hs : s.Sorted) (hx : x ∉ s.lists .timer) : ((s.arm x).emit (.armed x (s.deadline x))).Sorted := by
  set s' := (s.arm x).emit (.armed x (s.deadline x)) with hs'
  have hlist : s'.lists .timer =
      (s.lists .timer).orderedInsert (fun a b => s.deadline a < s.deadline b) x := by
    simp [hs', St.arm, St.setList, St.emit]
  have hlog : s'.log = .armed x (s.deadline x) :: s.log := rfl
  have hne : ∀ k ∈ s.lists .timer, k ≠ x := fun k hk he => hx (he ▸ hk)
  have hat : ∀ k ∈ s.lists .timer, armedAt s'.log k = armedAt s.log k := fun k hk => by
    rw [hlog]
    exact armedAt_other (by simp [Event.arms, Ne.symm (hne k hk)]) s.log
  have hself : armedAt s'.log x = s.log.length + 1 := by rw [hlog, armedAt_self]
  unfold St.Sorted
  rw [hlist]
  refine pairwise_orderedInsert (hs.imp_of_mem fun {a b} ha hb hab => ?_) (fun b _ hb => .inl hb) (fun b hb hnot => ?_)
    fun a _ b _ hab hxa => ?_
  · unfold St.Before
    rw [hat a ha, hat b hb]
    exact hab
  · -- A handle with the same deadline has been on the list for longer.
    have hle : s.deadline b ≤ s.deadline x := UInt64.not_lt.1 hnot
    rcases UInt64.lt_or_eq_of_le hle with hlt | heq
    · exact .inl hlt
    · refine .inr ⟨heq, ?_⟩
      rw [hat b hb, hself]
      exact Nat.lt_succ_of_le (armedAt_le s.log b)
  · rcases hab with hab | ⟨hab, -⟩
    · have hab' : s.deadline a < s.deadline b := hab
      exact UInt64.lt_trans hxa hab'
    · have hab' : s.deadline a = s.deadline b := hab
      exact hab' ▸ hxa

end Order

end AlgaeBp.Evb2
