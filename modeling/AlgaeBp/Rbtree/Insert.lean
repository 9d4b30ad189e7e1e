import AlgaeBp.Rbtree.Shape
/-!
# Inserting

`RB_INSERT_COLOR` goes up from a red node whose parent may be red too. Below
it all is well; above it only that one pair of colours is wrong. A turn either
moves the pair two nodes up or removes it.
-/
open Redblack Redblack.ColorTree

namespace AlgaeBp.Rbtree

variable {α : Type} [DecidableEq α]
variable {h h' : Heap α} {t a b s u : ColorTree α} {path : Spine α} {d k : Side} {x y z p : α} {n fuel : Nat}

/-- A red uncle: the pair of red nodes moves up. -/
theorem insertTurn_red (hat : At h t (⟨k, .red, p, s⟩ :: ⟨d, .black, z, u⟩ :: path)) (hu : u.color = .red) :
    ∃ h', insertTurn d h x p z = some (h', z) ∧ At h' (branch d .red (branch k .black t p s) z u.blacken) path := by
  have hp := at_near.1 hat
  obtain ⟨v, hv⟩ : ∃ v, u.root = some v := by
    cases u with
    | leaf => cases hu
    | node c l v r => exact ⟨v, rfl⟩
  have hred := isRed_root hp.above.2.1
  rw [hv, hu, Heap.isRed] at hred
  have hvc : (h.entry v).color = .red := by simpa using hred
  unfold insertTurn
  simp only [hp.entry_top, child_other_entryOn, hv, hvc, if_true]
  refine ⟨_, rfl, ?_⟩
  have h₁ := at_far.1 ((at_far.2 (at_near.1 hp)).blacken hv)
  have h₂ := at_near.1 ((at_near.2 h₁).setColor .black)
  exact h₂.setColor _

/-- A black uncle, and `x` on the outer side of its parent. -/
theorem insertRotate_outer (hat : At h t (⟨d, .red, p, s⟩ :: ⟨d, .black, z, u⟩ :: path)) (hx : t.root = some x) :
    ∃ h', insertRotate d h x p z = some (h', x) ∧ At h' (branch d .black t p (branch d .red s z u)) path := by
  have hne := hat.sibling_ne hx
  have hp := at_near.1 hat
  have h₁ : At (h.setBlackred p z) (branch d .red (branch d .black t p s) z u) path :=
    (at_near.1 (hp.setColor .black)).setColor _
  rw [← branch_other, ← branch_other d .black] at h₁
  obtain ⟨h', hrot, hat'⟩ := rotate_spec h₁
  rw [branch_other, branch_other] at hat'
  refine ⟨h', ?_, hat'⟩
  unfold insertRotate
  rw [hat.entry_top, child_other_entryOn, if_neg (Ne.symm hne), hrot, Option.map_some]

/-- A black uncle, and `x` on the inner side of its parent. -/
theorem insertRotate_inner (hat : At h (branch d .red a x b) (⟨d.other, .red, p, s⟩ :: ⟨d, .black, z, u⟩ :: path)) :
    ∃ h', insertRotate d h x p z = some (h', p) ∧
      At h' (branch d .black (branch d .red s p a) x (branch d .red b z u)) path := by
  have htop := hat.entry_top
  rw [root_branch] at htop
  obtain ⟨h₁, hrot₁, hat₁⟩ := rotate_spec (at_far.1 hat)
  have h₂ : At (h₁.setBlackred x z) (branch d .red (branch d .black (branch d .red s p a) x b) z u) path :=
    (at_near.1 (hat₁.setColor .black)).setColor _
  rw [← branch_other, ← branch_other d .black] at h₂
  obtain ⟨h', hrot, hat'⟩ := rotate_spec h₂
  rw [branch_other, branch_other] at hat'
  refine ⟨h', ?_, hat'⟩
  unfold insertRotate
  rw [htop, child_entryOn, if_pos rfl, hrot₁, Option.bind_some, hrot, Option.map_some]

theorem insertTurn_black (hat : At h t (⟨k, .red, p, s⟩ :: ⟨d, .black, z, u⟩ :: path)) (hu : u.color = .black) :
    insertTurn d h x p z = insertRotate d h x p z := by
  have hp := at_near.1 hat
  unfold insertTurn
  simp only [hp.entry_top, child_other_entryOn]
  cases u with
  | leaf => rfl
  | node c l v r =>
    have hv : (h.entry v).color = .black := by
      rw [hp.above.2.1.1]
      exact hu
    simp [hv]

/-- Below a black node nothing is wrong. -/
theorem insertColorLoop_black (hat : At h t (⟨k, .black, p, s⟩ :: path)) (hx : t.root = some x) :
    insertColorLoop (fuel + 1) h x = some h := by
  obtain ⟨a, b, hbr⟩ := exists_branch .left hx
  have htop := hat.entry_top
  rw [hbr] at hat
  unfold insertColorLoop
  simp [hat.entry_root, htop]

/-- **The loop of `RB_INSERT_COLOR`.** -/
theorem insertColorLoop_spec (hat : At h t path) (hx : t.root = some x) (hc : t.color = .red)
    (ht : t.Balanced n) (hp : Fits path n) (hfuel : path.length < fuel) :
    ∃ h' t', insertColorLoop fuel h x = some h' ∧ At h' t' [] ∧ t'.toList = (plug t path).toList ∧ ∃ m, t'.Balanced m := by
  induction fuel generalizing h t x path n with
  | zero => omega
  | succ fuel ih =>
    obtain ⟨a, b, hbr⟩ := exists_branch .left hx
    have hparent : (h.entry x).parent = top path := by
      have hat' := hat
      rw [hbr] at hat'
      rw [hat'.entry_root, parent_entryOn]
    rcases path with _ | ⟨⟨k, c, p, s⟩, path⟩
    · refine ⟨h, t, ?_, hat, rfl, n, ht⟩
      simp [insertColorLoop, hparent]
    rcases c with _ | _
    · refine ⟨h, _, insertColorLoop_black hat hx, at_plug.1 hat, rfl, ?_⟩
      exact (wellColored_plug ht hp (fun _ => by simp)).2
    -- the parent is red, so there is a black grandparent
    obtain ⟨hs, hsc, htop, hp'⟩ := fits_red.1 hp
    rcases path with _ | ⟨⟨d, c, z, u⟩, path⟩
    · exact absurd htop blackTop_nil
    obtain rfl : c = .black := by simpa using htop
    obtain ⟨hu, hpath⟩ := fits_black.1 hp'
    have hside : sideOf h z (some p) = d :=
      (at_near.1 hat).sideOf_top (root_branch ..) ((at_near.1 hat).sibling_ne (root_branch ..))
    have hloop : insertColorLoop (fuel + 1) h x = (insertTurn d h x p z).bind fun r => insertColorLoop fuel r.1 r.2 := by
      have htop := hat.entry_top
      simp [insertColorLoop, hparent, htop, hside]
    rw [hloop]
    simp only [List.length_cons] at hfuel
    cases huc : u.color with
    | red =>
      obtain ⟨h', hturn, hat'⟩ := insertTurn_red (x := x) hat huc
      have hbal : (branch d .red (branch k .black t p s) z u.blacken).Balanced (n + 1) :=
        balanced_red.2 ⟨by simp, by simp, balanced_black.2 ⟨ht, hs⟩, hu.blacken_red huc⟩
      obtain ⟨h'', t', hl, hat'', hlist, hm⟩ := ih hat' (root_branch ..) (color_branch ..) hbal hpath (by omega)
      refine ⟨h'', t', ?_, hat'', hlist.trans ?_, hm⟩
      · rw [hturn, Option.bind_some, hl]
      · exact toList_plug_congr (toList_branch_congr (toList_branch_congr rfl rfl) (toList_blacken u)) path
    | black =>
      rw [insertTurn_black hat huc]
      obtain ⟨fuel, rfl⟩ := Nat.exists_eq_add_of_lt (show 0 < fuel by omega)
      rcases Side.eq_or_other d k with rfl | rfl
      · obtain ⟨h', hturn, hat'⟩ := insertRotate_outer hat hx
        refine ⟨h', _, ?_, at_plug.1 hat', toList_plug_congr ?_ path, ?_⟩
        · rw [hturn, Option.bind_some, Nat.zero_add, insertColorLoop_black (at_near.2 hat') hx]
        · exact (toList_rotate ..).symm
        · exact (wellColored_plug (balanced_black.2 ⟨ht, balanced_red.2 ⟨hsc, huc, hs, hu⟩⟩) hpath
            (fun hr => by simp at hr)).2
      · obtain ⟨a, b, hbr'⟩ := exists_branch d hx
        rw [hc] at hbr'
        subst hbr'
        obtain ⟨hac, hbc, ha, hb⟩ := balanced_red.1 ht
        obtain ⟨h', hturn, hat'⟩ := insertRotate_inner hat
        refine ⟨h', _, ?_, at_plug.1 hat', toList_plug_congr ?_ path, ?_⟩
        · rw [hturn, Option.bind_some, Nat.zero_add, insertColorLoop_black (at_near.2 hat') (root_branch ..)]
        · calc
            _ = (branch d .black s p (branch d .red a x (branch d .red b z u))).toList := toList_rotate ..
            _ = (branch d .black s p (branch d .black (branch d .red a x b) z u)).toList :=
              toList_branch_congr rfl (toList_rotate ..).symm
            _ = (branch d .black (branch d .red s p (branch d .red a x b)) z u).toList := (toList_rotate ..).symm
            _ = _ := toList_branch_congr (by rw [Frame.fill, branch_other]) rfl
        · exact (wellColored_plug (balanced_black.2 ⟨balanced_red.2 ⟨hsc, hac, hs, ha⟩,
            balanced_red.2 ⟨hbc, huc, hb, hu⟩⟩) hpath
            (fun hr => by simp at hr)).2

/-- **`RB_INSERT_COLOR`.** -/
theorem rbInsertColor_spec (hat : At h t path) (hx : t.root = some x) (hc : t.color = .red)
    (ht : t.Balanced n) (hp : Fits path n) (hfuel : path.length < fuel) :
    ∃ h' t', rbInsertColor fuel h x = some h' ∧ At h' t' [] ∧ t'.toList = (plug t path).toList ∧ WellColored t' := by
  obtain ⟨h', t', hloop, hat', hlist, m, hm⟩ := insertColorLoop_spec hat hx hc ht hp hfuel
  obtain ⟨r, hr⟩ : ∃ r, t'.root = some r := by
    cases t' with
    | leaf =>
      have hmem : x ∈ (plug t path).toList := by simp [toList_plug, root_mem hx]
      rw [← hlist] at hmem
      cases hmem
    | node c l r r' => exact ⟨r, rfl⟩
  refine ⟨h'.setColor r .black, t'.blacken, ?_, hat'.blacken hr, ?_, wellColored_blacken hm⟩
  · rw [rbInsertColor, hloop, Option.bind_some, hat'.root, plug_nil, hr, Option.map_some]
  · rw [toList_blacken, hlist]

/-! ## `RB_INSERT` -/

/-- The node above the hole and the side that the hole is on. -/
def edge (path : Spine α) : Option (α × Side) := path.head?.map fun f => (f.node, f.side)

omit [DecidableEq α] in
/-- **The loop of `RB_INSERT`** finds the node that compares equal, or the hole where there is none. -/
theorem insertSearch_spec {cmp : α → α → Ordering} [Std.TransCmp cmp] (ht : Linked h.entry (top path) t)
    (hs : Ordered.Sorted cmp (plug t path).toList) (har : Around cmp x path) (hfuel : t.height < fuel) :
    (∃ y path' a b c, insertSearch cmp h x fuel t.root (edge path) = some (.inl y) ∧
      plug t path = plug (node c a y b) path' ∧ cmp x y = .eq) ∨
    ∃ path', insertSearch cmp h x fuel t.root (edge path) = some (.inr (edge path')) ∧ plug t path = plug leaf path' ∧
      Around cmp x path' := by
  induction t generalizing path fuel with
  | leaf =>
    obtain ⟨fuel, rfl⟩ := Nat.exists_eq_add_of_lt hfuel
    exact .inr ⟨path, rfl, rfl, har⟩
  | node c a y b iha ihb =>
    obtain ⟨fuel, rfl⟩ := Nat.exists_eq_add_of_lt (Nat.zero_lt_of_lt hfuel)
    obtain ⟨hy, ha, hb⟩ := ht
    simp only [height] at hfuel
    simp only [root_node, Nat.zero_add, insertSearch, hy]
    cases hxy : cmp x y with
    | lt =>
      refine iha ?_ ?_ (har.left hs hxy) (by omega)
      · exact ha
      · exact hs
    | gt =>
      refine ihb ?_ ?_ (har.right hs hxy) (by omega)
      · exact hb
      · exact hs
    | eq => exact .inl ⟨y, path, a, b, c, rfl, rfl, hxy⟩

/-- What `RB_INSERT` makes of the entries before it looks at the colours. -/
def link (h : Heap α) (x : α) (path : Spine α) : Heap α :=
  match edge path with
  | none => { h.rbSet x none with root := some x }
  | some (p, d) => (h.rbSet x (some p)).setChild d p (some x)

theorem link_spec (hat : At h leaf path) (hx : x ∉ nodes path) : At (link h x path) (node .red leaf x leaf) path := by
  obtain ⟨-, hp, hr, hn⟩ := hat
  rw [toList_leaf, List.nil_append] at hn
  cases path with
  | nil =>
    refine ⟨⟨?_, trivial, trivial⟩, trivial, rfl, by simp⟩
    simp [link, edge, Heap.rbSet, Heap.set]
  | cons f path =>
    have hxf : x ≠ f.node := by
      rintro rfl
      simp at hx
    have hentry : ∀ w, w ≠ x → w ≠ f.node → (link h x (f :: path)).entry w = h.entry w := by
      intro w hwx hwf
      simp [link, edge, Heap.rbSet, entry_setChild, entry_set, hwx, hwf]
    refine ⟨⟨?_, trivial, trivial⟩, hp.rehang hn (fun f' rest heq => ?_), ?_, ?_⟩
    · simp [link, edge, Heap.rbSet, entry_setChild, entry_set, hxf]
    · obtain ⟨rfl, rfl⟩ := List.cons.inj heq
      rw [nodes_cons, List.nodup_cons] at hn
      rw [nodes_cons, List.mem_cons, not_or] at hx
      refine ⟨by simp [link, edge, Heap.rbSet, entry_setChild, entry_set, hxf.symm], fun w hw => hentry w ?_ ?_⟩
      · rintro rfl
        exact hx.2 hw
      · rintro rfl
        exact hn.1 hw
    · rw [← root_plug_cons leaf, ← hr]
      rfl
    · rw [toList_node, toList_leaf, List.nil_append, List.singleton_append, List.nodup_cons]
      exact ⟨hx, hn⟩

/-- **`RB_INSERT` is insertion in the ordered list.** -/
theorem rbInsert_spec {cmp : α → α → Ordering} [Std.TransCmp cmp] (hm : Makes cmp h t) (hfuel : t.height < fuel) :
    ∃ h' t', rbInsert cmp fuel h x = some (h', Ordered.find cmp x t.toList) ∧ Makes cmp h' t' ∧
      t'.toList = Ordered.insert cmp x t.toList := by
  obtain ⟨hat, hcol, hs⟩ := hm
  have hroot : h.root = t.root := hat.root
  have hs' : Ordered.Sorted cmp (plug t []).toList := hs
  rcases insertSearch_spec (x := x) hat.tree hs' around_nil hfuel with
    ⟨y, path, a, b, c, hsearch, hplug, hxy⟩ | ⟨path, hsearch, hplug, har⟩
  · rw [plug_nil] at hplug
    have hlist : t.toList = (before path ++ a.toList) ++ y :: (b.toList ++ after path) := by
      rw [hplug, toList_plug, toList_node]
      simp
    have hgt := Ordered.Sorted.gt_of_eq (hlist ▸ hs) hxy
    refine ⟨h, t, ?_, ⟨hat, hcol, hs⟩, ?_⟩
    · rw [rbInsert, hroot, show (none : Option (α × Side)) = edge [] from rfl, hsearch, Option.bind_some, hlist,
        Ordered.find_found hgt hxy]
    · rw [hlist, Ordered.insert_found hgt hxy]
  · rw [plug_nil] at hplug
    have hlist : t.toList = before path ++ after path := by rw [hplug, toList_plug, toList_leaf, List.append_nil]
    have hx : x ∉ nodes path := fun hmem => har.ne_eq hmem Std.ReflCmp.compare_self
    rw [hplug] at hat hcol
    obtain ⟨n, hn, hfit, -⟩ := fits_of_plug hcol
    obtain rfl := balanced_leaf.1 hn
    have hlen := height_plug leaf path
    rw [← hplug] at hlen
    have hpath : path.length < fuel := by
      simp [height] at hlen
      omega
    obtain ⟨h', t', hcolor, hat', hlist', hcol'⟩ := rbInsertColor_spec (link_spec (at_plug.2 hat) hx) (root_node ..)
      (color_node ..) (.red rfl rfl .leaf .leaf) hfit hpath
    have hins : t'.toList = before path ++ x :: after path := by rw [hlist', toList_plug]; simp
    refine ⟨h', t', ?_, ⟨hat', hcol', ?_⟩, ?_⟩
    · rw [rbInsert, hroot, show (none : Option (α × Side)) = edge [] from rfl, hsearch, Option.bind_some, hlist,
        Ordered.find_between har.1 har.2]
      cases path with
      | nil => exact congrArg (Option.map (·, none)) hcolor
      | cons f path => exact congrArg (Option.map (·, none)) hcolor
    · rw [hins]
      exact Ordered.sorted_between (hlist ▸ hs) har.1 har.2
    · rw [hins, hlist, Ordered.insert_between har.1 har.2]

end AlgaeBp.Rbtree
