import AlgaeBp.Rbtree.Insert
import AlgaeBp.Rbtree.Walk
import Mathlib.Data.List.Find
import Mathlib.Data.List.Perm.Subperm
/-!
# Trees of nodes that are allocated

A program keeps things of some type `β` in nodes that it allocates, one after
another, and puts in a tree. `cmp` compares what is in them. `Store.Holds`
says which nodes are in, in order.
-/
open Redblack Redblack.ColorTree

namespace AlgaeBp.Rbtree

variable {β : Type} {cmp : β → β → Ordering} {fuel : Nat} {nodes : List Nat} {b : β} {a : Nat}

/-- The nodes allocated so far are those below `next`. -/
structure Store (β : Type) where
  content : Nat → β
  tree : Heap Nat
  next : Nat

/-- The comparison of nodes. -/
def on (cmp : β → β → Ordering) (content : Nat → β) (a b : Nat) : Ordering := cmp (content a) (content b)

instance [Std.TransCmp cmp] (content : Nat → β) : Std.TransCmp (on cmp content) where
  eq_swap := by
    intro a b
    have hswap : cmp (content a) (content b) = (cmp (content b) (content a)).swap := Std.OrientedCmp.eq_swap
    exact hswap
  isLE_trans := by
    intro a b c hab hbc
    have htrans : (cmp (content a) (content c)).isLE := Std.TransCmp.isLE_trans hab hbc
    exact htrans

namespace Store

variable {s : Store β}

/-- A node that is allocated, filled and given to `RB_INSERT`. -/
def insert (cmp : β → β → Ordering) (fuel : Nat) (s : Store β) (b : β) : Option (Store β) :=
  let content := Function.update s.content s.next b
  let tree := s.tree.set s.next ⟨none, none, none, .black⟩
  (rbInsert (on cmp content) fuel tree s.next).map fun r => ⟨content, r.1, s.next + 1⟩

/-- `RB_FIND` with a node that is on the stack. -/
def find (cmp : β → β → Ordering) (fuel : Nat) (s : Store β) (b : β) : Option (Option Nat) :=
  rbFind (on cmp (Function.update s.content s.next b)) s.tree s.next fuel s.tree.root

/-- `RB_REMOVE`. -/
def remove (fuel : Nat) (s : Store β) (a : Nat) : Option (Store β) :=
  (rbRemove fuel s.tree a).map fun tree => { s with tree := tree }

/-- These nodes are in the tree. -/
def Holds (cmp : β → β → Ordering) (s : Store β) (nodes : List Nat) : Prop :=
  ∃ t, Makes (on cmp s.content) s.tree t ∧ t.toList = nodes ∧ ∀ a ∈ nodes, a < s.next

/-! ## What is in a tree -/

theorem Holds.nodup [Std.TransCmp cmp] (h : s.Holds cmp nodes) : nodes.Nodup := by
  obtain ⟨t, hm, rfl, -⟩ := h
  exact hm.sorted.nodup

theorem Holds.length_le [Std.TransCmp cmp] (h : s.Holds cmp nodes) : nodes.length ≤ s.next := by
  have hn := h.nodup
  obtain ⟨t, -, -, hlt⟩ := h
  have hsub : nodes ⊆ List.range s.next := fun a ha => List.mem_range.2 (hlt a ha)
  have hle := (List.Nodup.subperm hn hsub).length_le
  rwa [List.length_range] at hle

/-- A tree of as many nodes as have been allocated has them all. -/
theorem Holds.perm_range [Std.TransCmp cmp] (h : s.Holds cmp nodes) (hall : nodes.length = s.next) :
    nodes.Perm (List.range s.next) := by
  have hn := h.nodup
  obtain ⟨t, -, -, hlt⟩ := h
  have hsub : nodes ⊆ List.range s.next := fun a ha => List.mem_range.2 (hlt a ha)
  refine List.Subperm.perm_of_length_le (List.Nodup.subperm hn hsub) ?_
  rw [List.length_range, hall]

theorem Holds.height_lt [Std.TransCmp cmp] (h : s.Holds cmp nodes) (hfuel : s.next < fuel) :
    ∃ t, Makes (on cmp s.content) s.tree t ∧ t.toList = nodes ∧ t.height < fuel := by
  have hlen := h.length_le
  obtain ⟨t, hm, rfl, -⟩ := h
  exact ⟨t, hm, rfl, Nat.lt_of_le_of_lt (Nat.le_trans t.height_le_length hlen) hfuel⟩

theorem holds_init (content : Nat → β) (mem : Heap Nat) : Holds cmp ⟨content, mem.init, 0⟩ [] :=
  ⟨.leaf, makes_init mem, rfl, fun _ ha => nomatch ha⟩

/-- An empty tree. -/
theorem Holds.root_none (h : s.Holds cmp []) : s.tree.root = none := by
  obtain ⟨t, hm, hnil, -⟩ := h
  cases t with
  | leaf => exact hm.shape.root
  | node c l x r => simp at hnil

/-- What is in the nodes, in order. -/
theorem map_insert (content : Nat → β) (a : Nat) (l : List Nat) :
    (Ordered.insert (on cmp content) a l).map content = Ordered.insert cmp (content a) (l.map content) := by
  induction l with
  | nil => rfl
  | cons c l ih =>
    rw [Ordered.insert, List.map_cons, Ordered.insert, on]
    cases cmp (content a) (content c) with
    | lt => rfl
    | eq => rfl
    | gt => rw [List.map_cons, ih]

theorem find_map (content : Nat → β) (b : β) (l : List Nat) :
    (l.find? fun c => cmp b (content c) = .eq).map content = Ordered.find cmp b (l.map content) := by
  rw [Ordered.find, List.find?_map]
  rfl

/-- The nodes in the tree do not see what happens at the next one. -/
theorem Holds.content_old (h : s.Holds cmp nodes) (b : β) :
    ∀ c ∈ nodes, Function.update s.content s.next b c = s.content c := by
  obtain ⟨t, -, -, hlt⟩ := h
  intro c hc
  exact Function.update_of_ne (Nat.ne_of_lt (hlt c hc)) ..

theorem makes_update {t : ColorTree Nat} (hm : Makes (on cmp s.content) s.tree t)
    (hold : ∀ c ∈ t.toList, Function.update s.content s.next b c = s.content c) :
    Makes (on cmp (Function.update s.content s.next b)) s.tree t := by
  refine hm.congr (fun c hc d hd => ?_)
  rw [on, on, hold c hc, hold d hd]

/-! ## The operations -/

variable [Std.TransCmp cmp]

/-- **What the insertion of a new node does.** -/
theorem insert_spec (h : s.Holds cmp nodes) (hfuel : s.next < fuel) (b : β) :
    ∃ s' nodes', s.insert cmp fuel b = some s' ∧ s'.Holds cmp nodes' ∧
      nodes' = Ordered.insert (on cmp s'.content) s.next nodes ∧
      s'.content = Function.update s.content s.next b ∧ s'.next = s.next + 1 := by
  have hold := h.content_old b
  have hlt := h
  obtain ⟨-, -, -, hlt⟩ := hlt
  obtain ⟨t, hm, rfl, hheight⟩ := h.height_lt hfuel
  have hnew : s.next ∉ t.toList := fun hmem => Nat.lt_irrefl _ (hlt _ hmem)
  have hm' := (makes_update hm hold).set hnew ⟨none, none, none, .black⟩
  obtain ⟨h', t', hins, hmakes, hlist⟩ := rbInsert_spec (x := s.next) hm' hheight
  refine ⟨⟨Function.update s.content s.next b, h', s.next + 1⟩, t'.toList, ?_, ⟨t', hmakes, rfl, ?_⟩, hlist, rfl, rfl⟩
  · rw [insert, hins]
    rfl
  · intro a ha
    rw [hlist] at ha
    rcases Ordered.mem_insert ha with rfl | ha
    · exact Nat.lt_succ_self _
    · exact Nat.lt_succ_of_lt (hlt a ha)

/-- **What is found.** -/
theorem find_spec (h : s.Holds cmp nodes) (hfuel : s.next < fuel) (b : β) :
    s.find cmp fuel b = some (nodes.find? fun c => cmp b (s.content c) = .eq) := by
  have hold := h.content_old b
  obtain ⟨t, hm, rfl, hheight⟩ := h.height_lt hfuel
  have hm' := makes_update hm hold
  have hroot : s.tree.root = t.root := hm.shape.root
  have hs : Ordered.Sorted (on cmp (Function.update s.content s.next b)) (plug t []).toList := hm'.sorted
  rw [find, hroot, rbFind_spec hm'.shape.tree hs around_nil hheight, Ordered.find, plug_nil]
  refine congrArg some (List.find?_congr ?_)
  intro c hc
  rw [on, Function.update_self, hold c hc]

omit [Std.TransCmp cmp] in
theorem remove_spec (h : s.Holds cmp nodes) (ha : a ∈ nodes) (hfuel : nodes.length < fuel) :
    ∃ s', s.remove fuel a = some s' ∧ s'.Holds cmp (nodes.erase a) ∧ s'.content = s.content ∧ s'.next = s.next := by
  obtain ⟨t, hm, rfl, hlt⟩ := h
  obtain ⟨h', t', hrem, hmakes, hlist⟩ := rbRemove_spec hm ha (Nat.lt_of_le_of_lt t.height_le_length hfuel)
  refine ⟨{ s with tree := h' }, ?_, ⟨t', hmakes, hlist, ?_⟩, rfl, rfl⟩
  · rw [remove, hrem]
    rfl
  · intro c hc
    exact hlt c (List.mem_of_mem_erase hc)

omit [Std.TransCmp cmp] in
/-- The loop of `RB_FOREACH`. -/
theorem Holds.foreach (h : s.Holds cmp nodes) (hfuel : nodes.length < fuel) : rbForeach fuel s.tree = some nodes := by
  obtain ⟨t, hm, rfl, -⟩ := h
  exact walk_spec (d := .left) hm.shape hfuel

omit [Std.TransCmp cmp] in
/-- `RB_MIN`. -/
theorem Holds.first (h : s.Holds cmp nodes) (hfuel : nodes.length < fuel) :
    rbMinmax .left s.tree fuel s.tree.root none = some nodes.head? := by
  obtain ⟨t, hm, rfl, -⟩ := h
  have hroot : s.tree.root = t.root := hm.shape.root
  rw [hroot, rbMinmax_spec hm.shape.tree (Nat.lt_of_le_of_lt t.height_le_length hfuel), Option.or_none]
  rfl

/-! ## What the program keeps -/

/-- This is in the nodes of the tree, in order. -/
def Lists (cmp : β → β → Ordering) (s : Store β) (l : List β) : Prop := ∃ nodes, s.Holds cmp nodes ∧ nodes.map s.content = l

variable {l : List β}

omit [Std.TransCmp cmp] in
theorem lists_init (content : Nat → β) (mem : Heap Nat) : Lists cmp ⟨content, mem.init, 0⟩ [] :=
  ⟨[], holds_init content mem, rfl⟩

theorem Lists.insert (h : s.Lists cmp l) (hfuel : s.next < fuel) (b : β) :
    ∃ s', s.insert cmp fuel b = some s' ∧ s'.Lists cmp (Ordered.insert cmp b l) ∧ s'.next = s.next + 1 := by
  obtain ⟨nodes, hholds, rfl⟩ := h
  obtain ⟨s', nodes', hins, hholds', rfl, hcontent, hnext⟩ := insert_spec hholds hfuel b
  refine ⟨s', hins, ⟨_, hholds', ?_⟩, hnext⟩
  rw [map_insert, hcontent, Function.update_self, List.map_congr_left (hholds.content_old b)]

omit [Std.TransCmp cmp] in
theorem Lists.sorted (h : s.Lists cmp l) : Ordered.Sorted cmp l := by
  obtain ⟨nodes, ⟨t, hm, rfl, -⟩, rfl⟩ := h
  exact List.pairwise_map.2 hm.sorted

theorem Lists.find (h : s.Lists cmp l) (hfuel : s.next < fuel) (b : β) :
    ∃ found, s.find cmp fuel b = some found ∧ found.map s.content = Ordered.find cmp b l := by
  obtain ⟨nodes, hholds, rfl⟩ := h
  exact ⟨_, find_spec hholds hfuel b, find_map s.content b nodes⟩

theorem Lists.foreach (h : s.Lists cmp l) (hfuel : s.next < fuel) :
    ∃ nodes, rbForeach fuel s.tree = some nodes ∧ nodes.map s.content = l := by
  obtain ⟨nodes, hholds, rfl⟩ := h
  exact ⟨nodes, hholds.foreach (Nat.lt_of_le_of_lt hholds.length_le hfuel), rfl⟩

end Store

end AlgaeBp.Rbtree
