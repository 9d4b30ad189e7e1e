import AlgaeBp.Rbtree.Remove
/-!
# Looking and walking

A search goes down one side at each node, so `2 * log2 (n + 1)` nodes are all
it sees. `RB_NEXT` goes down to the first node of what comes after a node, or
up to the first node that has it on its near side.
-/
open Redblack Redblack.ColorTree

namespace AlgaeBp.Rbtree

variable {α : Type}
variable {cmp : α → α → Ordering} {h : Heap α} {t a b : ColorTree α} {path : Spine α} {d : Side} {c : Color}
    {x y : α} {p res : Option α} {fuel : Nat}

/-- The first node that is not smaller than `x`. -/
def ceil (cmp : α → α → Ordering) (x : α) (l : List α) : Option α := l.find? fun y => cmp x y ≠ .gt

section Search

variable [Std.TransCmp cmp]

theorem rbFind_spec (ht : Linked h.entry p t) (hs : Ordered.Sorted cmp (plug t path).toList) (har : Around cmp x path)
    (hfuel : t.height < fuel) : rbFind cmp h x fuel t.root = some (Ordered.find cmp x (plug t path).toList) := by
  induction t generalizing path fuel p with
  | leaf =>
    obtain ⟨fuel, rfl⟩ := Nat.exists_eq_add_of_lt hfuel
    rw [toList_plug, toList_leaf, List.append_nil, Ordered.find_between har.1 har.2]
    rfl
  | node c a y b iha ihb =>
    obtain ⟨fuel, rfl⟩ := Nat.exists_eq_add_of_lt (Nat.zero_lt_of_lt hfuel)
    obtain ⟨hy, ha, hb⟩ := ht
    simp only [height] at hfuel
    simp only [root_node, Nat.zero_add, rbFind, hy]
    cases hxy : cmp x y with
    | lt =>
      refine iha ha ?_ (har.left hs hxy) (by omega)
      exact hs
    | gt =>
      refine ihb hb ?_ (har.right hs hxy) (by omega)
      exact hs
    | eq =>
      rw [toList_plug, toList_node, ← List.append_assoc, List.append_assoc] at hs ⊢
      rw [List.cons_append] at hs ⊢
      rw [Ordered.find_found (hs.gt_of_eq hxy) hxy]

theorem rbNfind_spec (ht : Linked h.entry p t) (hs : Ordered.Sorted cmp (plug t path).toList) (har : Around cmp x path)
    (hres : res = (after path).head?) (hfuel : t.height < fuel) :
    rbNfind cmp h x fuel t.root res = some (ceil cmp x (plug t path).toList) := by
  induction t generalizing path fuel p res with
  | leaf =>
    obtain ⟨fuel, rfl⟩ := Nat.exists_eq_add_of_lt hfuel
    have hbefore : (before path).find? (fun y => cmp x y ≠ .gt) = none := by
      rw [List.find?_eq_none]
      intro y hy
      simp [har.1 y hy]
    rw [toList_plug, toList_leaf, List.append_nil, ceil, List.find?_append, hbefore, Option.none_or, hres]
    cases hafter : after path with
    | nil => rfl
    | cons y ys =>
      have hy := har.2 y (by simp [hafter])
      simp [rbNfind, hy]
  | node c a y b iha ihb =>
    obtain ⟨fuel, rfl⟩ := Nat.exists_eq_add_of_lt (Nat.zero_lt_of_lt hfuel)
    obtain ⟨hy, ha, hb⟩ := ht
    simp only [height] at hfuel
    simp only [root_node, Nat.zero_add, rbNfind, hy]
    cases hxy : cmp x y with
    | lt =>
      refine iha ha ?_ (har.left hs hxy) rfl (by omega)
      exact hs
    | gt =>
      refine ihb hb ?_ (har.right hs hxy) hres (by omega)
      exact hs
    | eq =>
      rw [toList_plug, toList_node, ← List.append_assoc, List.append_assoc] at hs ⊢
      rw [List.cons_append] at hs ⊢
      have hgt := hs.gt_of_eq hxy
      have hnone : (before path ++ a.toList).find? (fun y => cmp x y ≠ .gt) = none := by
        rw [List.find?_eq_none]
        intro z hz
        simp [hgt z hz]
      rw [ceil, List.find?_append, hnone, Option.none_or, List.find?_cons_of_pos]
      simp [hxy]

end Search

theorem rbMinmax_spec (ht : Linked h.entry p t) (hfuel : t.height < fuel) :
    rbMinmax d h fuel t.root res = some ((t.listFrom d).head?.or res) := by
  induction fuel generalizing t p res with
  | zero => omega
  | succ fuel ih =>
    cases hx : t.root with
    | none =>
      obtain rfl := root_eq_none.1 hx
      simp [rbMinmax]
    | some x =>
      obtain ⟨a, b, hbr⟩ := exists_branch d hx
      have hle := height_plug a [⟨d, t.color, x, b⟩]
      rw [plug_cons, plug_nil, Frame.fill, ← hbr, List.length_singleton] at hle
      rw [hbr] at ht
      obtain ⟨hentry, ha, -⟩ := linked_branch.1 ht
      rw [rbMinmax, hentry, child_entryOn, ih ha (by omega), hbr, listFrom_branch]
      cases a.listFrom d <;> rfl

variable [DecidableEq α]

/-- The way up ends at the first node after the hole. -/
theorem climb_spec (hat : At h t path) (hx : t.root = some x) (hfuel : path.length < fuel) :
    climb d.other h fuel x = some (afterFrom d path).head? := by
  induction fuel generalizing t path x with
  | zero => omega
  | succ fuel ih =>
    have hparent : (h.entry x).parent = top path := by
      obtain ⟨a, b, hbr⟩ := exists_branch .left hx
      have ht := hat.tree
      rw [hbr] at ht
      rw [(linked_branch.1 ht).1, parent_entryOn]
    rw [climb, hparent]
    rcases path with _ | ⟨⟨k, c, y, s⟩, path⟩
    · rfl
    have htop := hat.entry_top
    have hne := hat.sibling_ne hx
    simp only [top_cons]
    rcases Side.eq_or_other d k with rfl | rfl
    · rw [htop, child_other_entryOn, if_neg (Ne.symm hne)]
      simp [afterFrom]
    · rw [htop, child_entryOn, hx, if_pos rfl, ih (at_cons.1 hat) (root_branch ..) (by simpa using hfuel)]
      simp [afterFrom, Side.other_ne]

theorem rbStep_hole (hat : At h (branch d c a x b) path) (hfuel : (plug (branch d c a x b) path).height < fuel) :
    rbStep d fuel h x = some (b.listFrom d ++ afterFrom d path).head? := by
  have hle := height_plug (branch d c a x b) path
  have hleb : b.height ≤ fuel := by
    have hle := height_plug b (⟨d.other, c, x, a⟩ :: path)
    rw [plug_cons, Frame.fill, branch_other] at hle
    exact Nat.le_trans (Nat.le_add_right ..) (Nat.le_of_lt (Nat.lt_of_le_of_lt hle hfuel))
  rw [rbStep, hat.entry_root, child_other_entryOn]
  cases hb : b.root with
  | some w =>
    obtain ⟨c', y, u, q, hout, rfl, hside⟩ := outermost_spec (d := d) (at_far.2 hat).tree hb hleb
    have hnil : afterFrom d.other q = [] := afterFrom_eq_nil (by simpa using hside)
    simp only [hout, Option.map_some, listFrom_plug, hnil, listFrom_branch]
    simp
  | none =>
    obtain rfl := root_eq_none.1 hb
    have hclimb := climb_spec (d := d) hat (root_branch ..) (show path.length < fuel by omega)
    simp only [parent_entryOn, listFrom_leaf, List.nil_append]
    rcases path with _ | ⟨⟨k, c', y, s⟩, path⟩
    · exact hclimb
    have htop := hat.entry_top
    have hne := hat.sibling_ne (root_branch ..)
    simp only [top_cons, htop]
    rcases Side.eq_or_other d k with rfl | rfl
    · rw [child_entryOn, root_branch, if_pos rfl]
      simp [afterFrom]
    · rw [child_entryOn_other, if_neg (Ne.symm hne)]
      exact hclimb

/-- **A step goes to the node that comes next.** -/
theorem rbStep_spec {l l' : List α} (hat : At h t []) (hl : t.listFrom d = l ++ x :: l') (hfuel : t.height < fuel) :
    rbStep d fuel h x = some l'.head? := by
  have hn : (l ++ x :: l').Nodup := hl ▸ nodup_listFrom.2 (by simpa using hat.nodup)
  have hx : x ∈ t.toList := by
    have hmem : x ∈ t.listFrom d := by simp [hl]
    cases d
    · exact hmem
    · exact List.mem_reverse.1 hmem
  obtain ⟨c, a, b, path, rfl⟩ := exists_plug hx
  obtain ⟨a', b', hbr⟩ := exists_branch d (root_node c a x b)
  rw [color_node] at hbr
  rw [hbr] at hat hfuel hl
  rw [rbStep_hole (at_plug.2 hat) hfuel]
  -- what comes after `x` is determined
  rw [listFrom_plug, listFrom_branch, List.append_assoc, ← List.append_assoc, List.cons_append] at hl
  obtain ⟨-, hn', hdisj⟩ := List.nodup_append.1 hn
  have hx : x ∉ l := fun hm => hdisj x hm x List.mem_cons_self rfl
  have hx' : x ∉ l' := (List.nodup_cons.1 hn').1
  obtain ⟨-, -, rfl⟩ := (List.append_cons_inj_of_notMem hx hx').1 hl.symm
  rfl

/-- The loop sees the nodes from `x` on. -/
theorem stepAll_spec {l l' : List α} {turns : Nat} (hat : At h t []) (hl : t.listFrom d = l ++ l') (hfuel : t.height < fuel)
    (hturns : l'.length ≤ turns) : stepAll d fuel h turns l'.head? = some l' := by
  induction l' generalizing l turns with
  | nil => cases turns <;> rfl
  | cons x l' ih =>
    obtain ⟨turns, rfl⟩ := Nat.exists_eq_succ_of_ne_zero (Nat.ne_of_gt (Nat.lt_of_lt_of_le (Nat.succ_pos _) hturns))
    rw [List.head?_cons, stepAll, rbStep_spec hat hl hfuel, Option.bind_some,
      ih (l := l ++ [x]) (by rw [hl, List.append_assoc]; rfl) (by simpa using hturns)]
    rfl

/-- **The loop of `RB_FOREACH`, from either side.** -/
theorem walk_spec (hat : At h t []) (hfuel : t.toList.length < fuel) :
    (rbMinmax d h fuel h.root none).bind (stepAll d fuel h fuel) = some (t.listFrom d) := by
  have hheight : t.height < fuel := Nat.lt_of_le_of_lt t.height_le_length hfuel
  rw [hat.root, plug_nil, rbMinmax_spec hat.tree hheight, Option.bind_some, Option.or_none]
  refine stepAll_spec (l := []) hat rfl hheight ?_
  rw [length_listFrom]
  exact Nat.le_of_lt hfuel

end AlgaeBp.Rbtree
