import AlgaeBp.Lib.Runs
import AlgaeBp.Rbtree.Insert
import AlgaeBp.Rbtree.Walk
/-!
# Runs over a tree

From any memory and `RB_INIT`, a program inserts nodes and removes nodes that
are in. What it has is the sorted list of the nodes that are in, and no loop
turns more often than twice the logarithm of their number, and once more.
-/
open Redblack Redblack.ColorTree

namespace AlgaeBp.Rbtree

variable {α : Type} [DecidableEq α]

inductive Op (α : Type) where
  | insert (x : α)
  | remove (x : α)
  deriving DecidableEq, Repr

def step (cmp : α → α → Ordering) (fuel : Nat) (h : Heap α) : Op α → Option (Heap α)
  | .insert x => (rbInsert cmp fuel h x).map Prod.fst
  | .remove x => rbRemove fuel h x

/-- The nodes that are in, in order. Only such a node may be removed. -/
def listStep (cmp : α → α → Ordering) (l : List α) : Op α → Option (List α)
  | .insert x => some (Ordered.insert cmp x l)
  | .remove x => if x ∈ l then some (l.erase x) else none

variable {cmp : α → α → Ordering} {mem h : Heap α} {t : ColorTree α} {x : α} {l l' : List α} {op : Op α} {ops : List (Op α)}
  {fuel turns n : Nat}

omit [DecidableEq α] in
theorem Makes.height_le (hm : Makes cmp h t) : t.height ≤ 2 * (t.toList.length + 1).log2 := by
  obtain ⟨hc, n, hb⟩ := hm.colored
  exact hb.height_le_log hc

omit [DecidableEq α] in
theorem Makes.height_lt (hm : Makes cmp h t) (hn : t.toList.length ≤ n)
    (hfuel : 2 * (n + 1).log2 < fuel) : t.height < fuel := by
  have hle := hm.height_le
  have hpow : 2 ^ (t.toList.length + 1).log2 ≤ n + 1 := Nat.le_trans (Nat.log2_self_le (by omega)) (by omega)
  have hlog := (Nat.le_log2 (by omega)).2 hpow
  omega

theorem length_listStep_le (hl : listStep cmp l op = some l') : l'.length ≤ l.length + 1 := by
  cases op with
  | insert x =>
    obtain rfl := Option.some.inj hl
    exact Ordered.length_insert_le
  | remove x =>
    rw [listStep] at hl
    split at hl
    · obtain rfl := Option.some.inj hl
      exact Nat.le_succ_of_le List.length_erase_le
    · cases hl

theorem length_run_le (hl : Runs.run (listStep cmp) ops [] = some l) : l.length ≤ ops.length := by
  induction ops using List.reverseRecOn generalizing l with
  | nil =>
    obtain rfl := Option.some.inj hl
    exact Nat.le_refl 0
  | append_singleton ops op ih =>
    obtain ⟨l₁, hl₁, hop⟩ := Runs.run_concat.1 hl
    have hle := length_listStep_le hop
    have hle₁ := ih hl₁
    rw [List.length_append, List.length_singleton]
    omega

variable [Std.TransCmp cmp]

/-- One operation. -/
theorem step_spec (hm : Makes cmp h t) (hl : listStep cmp t.toList op = some l) (hfuel : t.height < fuel) :
    ∃ h' t', step cmp fuel h op = some h' ∧ Makes cmp h' t' ∧ t'.toList = l := by
  cases op with
  | insert x =>
    obtain rfl := Option.some.inj hl
    obtain ⟨h', t', hins, hm', hlist⟩ := rbInsert_spec (x := x) hm hfuel
    exact ⟨h', t', by rw [step, hins]; rfl, hm', hlist⟩
  | remove x =>
    rw [listStep] at hl
    split at hl
    case isTrue hx =>
      obtain rfl := Option.some.inj hl
      exact rbRemove_spec hm hx hfuel
    case isFalse => cases hl

/-- A run. -/
theorem run_makes (mem : Heap α) (hl : Runs.run (listStep cmp) ops [] = some l) (hn : ops.length ≤ n)
    (hfuel : 2 * (n + 1).log2 < fuel) :
    ∃ h t, Runs.run (step cmp fuel) ops mem.init = some h ∧ Makes cmp h t ∧ t.toList = l := by
  induction ops using List.reverseRecOn generalizing l with
  | nil =>
    obtain rfl := Option.some.inj hl
    exact ⟨mem.init, .leaf, rfl, makes_init mem, rfl⟩
  | append_singleton ops op ih =>
    rw [List.length_append, List.length_singleton] at hn
    obtain ⟨l₁, hl₁, hop⟩ := Runs.run_concat.1 hl
    obtain ⟨h, t, hrun, hm, rfl⟩ := ih hl₁ (by omega)
    have hlen := length_run_le hl₁
    obtain ⟨h', t', hstep, hm', hlist⟩ := step_spec hm hop (hm.height_lt (by omega) hfuel)
    exact ⟨h', t', Runs.run_concat.2 ⟨h, hrun, hstep⟩, hm', hlist⟩

/-! ## What holds after every run -/

/-- **Every run goes through, and ends in a red-black search tree of the nodes that are in.** -/
theorem run_balanced (mem : Heap α) (hl : Runs.run (listStep cmp) ops [] = some l)
    (hfuel : 2 * (ops.length + 1).log2 < fuel) :
    ∃ h t, Runs.run (step cmp fuel) ops mem.init = some h ∧ Makes cmp h t ∧ t.toList = l ∧
    t.height ≤ 2 * (l.length + 1).log2 := by
  obtain ⟨h, t, hrun, hm, rfl⟩ := run_makes mem hl (Nat.le_refl _) hfuel
  exact ⟨h, t, hrun, hm, rfl, hm.height_le⟩

/-- Memory with anything in it. -/
def someMemory : Heap Nat := ⟨some 3, fun x => ⟨some x, none, some 2, .red⟩⟩

def someOps : List (Op Nat) := [.insert 2, .insert 1, .insert 3, .insert 4, .insert 1, .remove 2]

theorem someOps_list : Runs.run (listStep compare) someOps [] = some [1, 3, 4] := rfl

theorem run_balanced_some : ∃ h t, Runs.run (step compare 5) someOps someMemory.init = some h ∧ Makes compare h t ∧
    t.toList = [1, 3, 4] ∧ t.height ≤ 4 :=
  have ⟨h, t, hrun, hm, hl, hle⟩ := run_balanced someMemory someOps_list (by decide)
  ⟨h, t, hrun, hm, hl, Nat.le_trans hle (by decide)⟩

/-- **What is found after a run**, and what `RB_INSERT` says is there already. -/
theorem run_find (hl : Runs.run (listStep cmp) ops [] = some l) (hrun : Runs.run (step cmp fuel) ops mem.init = some h)
    (hfuel : 2 * (ops.length + 1).log2 < fuel) (hturns : 2 * (l.length + 1).log2 < turns) :
    rbFind cmp h x turns h.root = some (Ordered.find cmp x l) ∧ rbNfind cmp h x turns h.root none = some (ceil cmp x l) ∧
    (rbInsert cmp turns h x).map Prod.snd = some (Ordered.find cmp x l) := by
  obtain ⟨h', t, hrun', hm, rfl⟩ := run_makes mem hl (Nat.le_refl _) hfuel
  obtain rfl := Option.some.inj (hrun'.symm.trans hrun)
  have hheight := hm.height_lt (Nat.le_refl _) hturns
  have hroot : h'.root = t.root := hm.shape.root
  have hs : Ordered.Sorted cmp (plug t []).toList := hm.sorted
  refine ⟨?_, ?_, ?_⟩
  · rw [hroot, rbFind_spec hm.shape.tree hs around_nil hheight]
    rfl
  · have hres : none = (after ([] : Spine α)).head? := rfl
    rw [hroot, rbNfind_spec hm.shape.tree hs around_nil hres hheight]
    rfl
  · obtain ⟨h₁, t₁, hins, -, -⟩ := rbInsert_spec (x := x) hm hheight
    rw [hins]
    rfl

theorem run_find_some : ∃ h, Runs.run (step compare 5) someOps someMemory.init = some h ∧
    rbFind compare h 4 5 h.root = some (some 4) ∧
    rbNfind compare h 2 5 h.root none = some (some 3) := by
  obtain ⟨h, -, hrun, -⟩ := run_makes someMemory someOps_list (Nat.le_refl _) (show 2 * (6 + 1).log2 < 5 by decide)
  have h₄ := run_find (x := 4) someOps_list hrun (by decide) (show 2 * (3 + 1).log2 < 5 by decide)
  have h₂ := run_find (x := 2) someOps_list hrun (by decide) (show 2 * (3 + 1).log2 < 5 by decide)
  exact ⟨h, hrun, h₄.1, h₂.2.1⟩

/-- **The loops over a tree see the nodes that are in**, in order or the other way round. -/
theorem run_foreach (hl : Runs.run (listStep cmp) ops [] = some l) (hrun : Runs.run (step cmp fuel) ops mem.init = some h)
    (hfuel : 2 * (ops.length + 1).log2 < fuel) (hturns : l.length < turns) :
    rbForeach turns h = some l ∧ rbForeachReverse turns h = some l.reverse := by
  obtain ⟨h', t, hrun', hm, rfl⟩ := run_makes mem hl (Nat.le_refl _) hfuel
  obtain rfl := Option.some.inj (hrun'.symm.trans hrun)
  exact ⟨walk_spec (d := .left) hm.shape hturns, walk_spec (d := .right) hm.shape hturns⟩

theorem run_foreach_some : ∃ h, Runs.run (step compare 5) someOps someMemory.init = some h ∧ rbForeach 4 h = some [1, 3, 4] ∧
    rbForeachReverse 4 h = some [4, 3, 1] := by
  obtain ⟨h, -, hrun, -⟩ := run_makes someMemory someOps_list (Nat.le_refl _) (show 2 * (6 + 1).log2 < 5 by decide)
  exact ⟨h, hrun, run_foreach someOps_list hrun (by decide) (show 3 < 4 by decide)⟩

end AlgaeBp.Rbtree
