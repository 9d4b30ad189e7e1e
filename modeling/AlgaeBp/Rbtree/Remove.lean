import AlgaeBp.Rbtree.Shape
/-!
# Removing

`RB_REMOVE_COLOR` goes up from a subtree that is one black node short, with a
sibling that therefore has a root. A red sibling is turned away first. Then
either the sibling becomes red and the shortage moves up, or a red child of
the sibling pays for it.
-/
open Redblack Redblack.ColorTree

namespace AlgaeBp.Rbtree

variable {α : Type} [DecidableEq α]
variable {h h' : Heap α} {t a b s i o u : ColorTree α} {path : Spine α} {d : Side} {c : Color}
    {x y z p v w : α} {n fuel : Nat}

/-! ## The turns of `RB_REMOVE_COLOR` -/

omit [DecidableEq α] in
theorem At.color_sibling (hat : At h t (⟨d, c, p, s⟩ :: path)) (hv : s.root = some v) : (h.entry v).color = s.color := by
  obtain ⟨a, b, hs⟩ := exists_branch .left hv
  rw [hs] at hat
  rw [(at_far.2 (at_near.1 hat)).entry_root, color_entryOn]

theorem siblingTurn_black (hat : At h t (⟨d, c, p, s⟩ :: path)) (hv : s.root = some v) (hs : s.color = .black) :
    siblingTurn d h p v = some (h, v) := by
  have hc := hat.color_sibling hv
  rw [hs] at hc
  simp [siblingTurn, hc]

/-- A red sibling goes up, and its near child is the sibling. -/
theorem siblingTurn_red (hat : At h t (⟨d, .black, p, branch d .red i v o⟩ :: path)) (hw : i.root = some w) :
    ∃ h', siblingTurn d h p v = some (h', w) ∧ At h' t (⟨d, .red, p, i⟩ :: ⟨d, .black, v, o⟩ :: path) := by
  have hc := hat.color_sibling (root_branch ..)
  rw [color_branch] at hc
  have h₁ : At (h.setBlackred v p) (branch d .red t p (branch d .black i v o)) path :=
    (at_far.1 ((at_far.2 (at_near.1 hat)).setColor .black)).setColor _
  obtain ⟨h', hrot, hat'⟩ := rotate_spec h₁
  have hfar := (at_near.2 (at_near.2 hat')).entry_top
  refine ⟨h', ?_, at_near.2 (at_near.2 hat')⟩
  rw [siblingTurn, if_pos hc, hrot, Option.bind_some, hfar, child_other_entryOn, hw, Option.map_some]

theorem nephewTurn_far (hat : At h t (⟨d, c, p, branch d .black i v o⟩ :: path)) (ho : o.color = .red) :
    nephewTurn d h p v = some (h, v) := by
  have hv := at_far.2 (at_near.1 hat)
  have hred := isRed_root (at_far.2 hv).tree
  rw [nephewTurn, hv.entry_root, child_other_entryOn, hred]
  simp [ho]

/-- A red near child of the sibling goes up. -/
theorem nephewTurn_near (hat : At h t (⟨d, c, p, branch d .black (branch d .red a w b) v o⟩ :: path))
    (ho : o.color = .black) :
    ∃ h', nephewTurn d h p v = some (h', w) ∧ At h' t (⟨d, c, p, branch d .black a w (branch d .red b v o)⟩ :: path) := by
  have hv := at_far.2 (at_near.1 hat)
  have hentry := hv.entry_root
  have hred := isRed_root (at_far.2 hv).tree
  have h₁ := (at_near.1 ((at_near.2 hv).setColor .black)).setColor .red
  rw [← branch_other, ← branch_other d .black] at h₁
  obtain ⟨h', hrot, hat'⟩ := rotate_spec h₁
  rw [branch_other, branch_other] at hat'
  have hat'' := at_near.2 (at_far.1 hat')
  refine ⟨h', ?_, hat''⟩
  rw [nephewTurn, hentry, child_other_entryOn, hred, child_entryOn, root_branch]
  simp only [ho]
  rw [if_neg (by simp), hrot, Option.bind_some, hat''.entry_top, child_other_entryOn, root_branch, Option.map_some]

/-- The red far child of the sibling pays. -/
theorem lastTurn_spec (hat : At h t (⟨d, c, p, branch d .black i v o⟩ :: path)) (ho : o.color = .red) :
    ∃ h', lastTurn d h p v = some h' ∧ At h' (branch d c (branch d .black t p i) v o.blacken) path := by
  obtain ⟨w, hw⟩ : ∃ w, o.root = some w := by
    cases o with
    | leaf => cases ho
    | node c l w r => exact ⟨w, rfl⟩
  have hp := at_near.1 hat
  have hpc : (h.entry p).color = c := by rw [hp.entry_root, color_entryOn]
  have h₁ := (at_far.2 hp).setColor c
  have h₂ := (at_far.1 h₁).setColor .black
  have hv := at_far.2 h₂
  have h₃ := at_far.1 (at_far.1 ((at_far.2 hv).blacken hw))
  obtain ⟨h', hrot, hat'⟩ := rotate_spec h₃
  refine ⟨h', ?_, hat'⟩
  unfold lastTurn
  simp only [hpc, hv.entry_root, child_other_entryOn, hw]
  exact hrot

/-- The sibling after the first turn, whatever its colour was. -/
theorem siblingTurn_spec (hat : At h t (⟨d, c, p, s⟩ :: path)) (hfit : Fits (⟨d, c, p, s⟩ :: path) (n + 1)) :
    ∃ v h' v' c' s' path', s.root = some v ∧ siblingTurn d h p v = some (h', v') ∧ At h' t (⟨d, c', p, s'⟩ :: path') ∧
      Fits (⟨d, c', p, s'⟩ :: path') (n + 1) ∧ s'.root = some v' ∧ s'.color = .black ∧
      (plug t (⟨d, c', p, s'⟩ :: path')).toList = (plug t (⟨d, c, p, s⟩ :: path)).toList ∧
      (c' = .red ∨ path'.length ≤ path.length) := by
  obtain ⟨v, hv⟩ := hfit.1.exists_root
  cases hs : s.color with
  | black => exact ⟨v, h, v, c, s, path, hv, siblingTurn_black hat hv hs, hat, hfit, hv, hs, rfl, .inr (Nat.le_refl _)⟩
  | red =>
    obtain rfl : c = .black := by
      cases c with
      | black => rfl
      | red => exact absurd ((fits_red.1 hfit).2.1.symm.trans hs) (by simp)
    obtain ⟨i, o, hbr⟩ := exists_branch d hv
    rw [hs] at hbr
    subst hbr
    obtain ⟨hsb, hpath⟩ := fits_black.1 hfit
    obtain ⟨hic, hoc, hi, ho⟩ := balanced_red.1 hsb
    obtain ⟨w, hw⟩ := hi.exists_root
    obtain ⟨h', hturn, hat'⟩ := siblingTurn_red hat hw
    refine ⟨v, h', w, .red, i, _, hv, hturn, hat',
      fits_red.2 ⟨hi, hic, by simp, fits_black.2 ⟨ho, hpath⟩⟩, hw, hic, ?_, .inl rfl⟩
    exact toList_plug_congr (toList_rotate ..) path

omit [DecidableEq α] in
/-- Whether the sibling has a red child. -/
theorem isRed_nephews (hat : At h t (⟨d, c, p, branch d .black i v o⟩ :: path)) :
    (h.isRed (h.entry v).left = true ∨ h.isRed (h.entry v).right = true) ↔ i.color = .red ∨ o.color = .red := by
  have hv := at_far.2 (at_near.1 hat)
  have hi := isRed_root (at_near.2 hv).tree
  have ho := isRed_root (at_far.2 hv).tree
  rw [hv.entry_root]
  cases d
  · simp [entryOn, hi, ho]
  · simp [entryOn, hi, ho, or_comm]

/-- A red child of the sibling, near or far. -/
theorem nephewTurn_spec (hat : At h t (⟨d, c, p, branch d .black i v o⟩ :: path)) (hi : i.Balanced n) (ho : o.Balanced n)
    (hred : i.color = .red ∨ o.color = .red) :
    ∃ h' v' i' z o', nephewTurn d h p v = some (h', v') ∧ At h' t (⟨d, c, p, branch d .black i' z o'⟩ :: path) ∧ z = v' ∧
      i'.Balanced n ∧ o'.Balanced n ∧ o'.color = .red ∧
      (plug t (⟨d, c, p, branch d .black i' z o'⟩ :: path)).toList =
      (plug t (⟨d, c, p, branch d .black i v o⟩ :: path)).toList := by
  cases hoc : o.color with
  | red => exact ⟨h, v, i, v, o, nephewTurn_far hat hoc, hat, rfl, hi, ho, hoc, rfl⟩
  | black =>
    have hic : i.color = .red := hred.resolve_right (by simp [hoc])
    obtain ⟨w, hw⟩ : ∃ w, i.root = some w := by
      cases i with
      | leaf => cases hic
      | node c l w r => exact ⟨w, rfl⟩
    obtain ⟨a, b, hbr⟩ := exists_branch d hw
    rw [hic] at hbr
    subst hbr
    obtain ⟨hac, hbc, ha, hb⟩ := balanced_red.1 hi
    obtain ⟨h', hturn, hat'⟩ := nephewTurn_near hat hoc
    refine ⟨h', w, a, w, _, hturn, hat', rfl, ha, balanced_red.2 ⟨hbc, hoc, hb, ho⟩, by simp, ?_⟩
    exact toList_plug_congr (toList_branch_congr rfl (toList_rotate ..).symm) path

/-- The loop ends at a red node. -/
theorem removeColorLoop_red (fuel : Nat) (q : Option α) (hat : At h t path) (ht : t.color = .red) :
    removeColorLoop (fuel + 1) h q t.root = some (h, t.root) := by
  have hred := isRed_root hat.tree
  rw [removeColorLoop, if_pos]
  exact .inl (by simpa [ht] using hred)

/-- What `RB_REMOVE_COLOR` does after its loop. -/
def finish (h : Heap α) (elm : Option α) : Heap α :=
  match elm with
  | none => h
  | some x => h.setColor x .black

theorem finish_spec (hat : At h t path) : At (finish h t.root) t.blacken path := by
  cases t with
  | leaf => exact hat
  | node c l x r => exact hat.blacken rfl

/-- **`RB_REMOVE_COLOR`** on a subtree that is one black node short. -/
theorem removeColorLoop_spec (hat : At h t path) (ht : t.Balanced n) (hp : Fits path (n + 1)) (hfuel : path.length < fuel) :
    ∃ h' e t', removeColorLoop fuel h (top path) t.root = some (h', e) ∧ At (finish h' e) t' [] ∧
      t'.toList = (plug t path).toList ∧ WellColored t' := by
  induction fuel generalizing h t path n with
  | zero => omega
  | succ fuel ih =>
    cases htc : t.color with
    | red =>
      refine ⟨h, t.root, plug t.blacken path, removeColorLoop_red _ _ hat htc, at_plug.1 (finish_spec hat), ?_, ?_⟩
      · exact toList_plug_congr (toList_blacken t) path
      · exact wellColored_plug (ht.blacken_red htc) hp (fun hr => by simp at hr)
    | black =>
      have hred := isRed_root hat.tree
      rcases path with _ | ⟨⟨d, c, p, s⟩, path⟩
      · refine ⟨h, t.root, t.blacken, ?_, finish_spec hat, toList_blacken t, wellColored_blacken ht⟩
        rw [removeColorLoop, if_pos]
        exact .inr hat.root.symm
      have hside : sideOf h p t.root = d := by
        obtain ⟨v, hv⟩ := hp.1.exists_root
        refine hat.sideOf_top rfl ?_
        cases htr : t.root with
        | none => simpa using Ne.symm (hv ▸ Option.some_ne_none v)
        | some x => exact hat.sibling_ne htr
      obtain ⟨v, h₁, v', c', s', path', hv, hturn, hat₁, hfit, hv', hs', hlist, hlen⟩ := siblingTurn_spec hat hp
      obtain ⟨i, o, hbr⟩ := exists_branch d hv'
      rw [hs'] at hbr
      subst hbr
      obtain ⟨hi, ho⟩ := balanced_black.1 hfit.1
      have htop := hat.entry_top
      have hloop : removeColorLoop (fuel + 1) h (some p) t.root =
          if i.color = .red ∨ o.color = .red then
            (nephewTurn d h₁ p v').bind fun r => (lastTurn d r.1 p r.2).map fun h => (h, h.root)
          else removeColorLoop fuel (h₁.setColor v' .red) (h₁.entry p).parent (some p) := by
        rw [removeColorLoop, if_neg (not_or.2 ⟨by simp [hred, htc], hat.root_ne⟩), Option.bind_some]
        simp only [hside, htop, child_other_entryOn, hv, Option.bind_some, hturn, isRed_nephews hat₁]
      have hparent : (h₁.entry p).parent = top path' := by rw [hat₁.entry_top, parent_entryOn]
      rw [top_cons, hloop]
      by_cases hio : i.color = .red ∨ o.color = .red
      · rw [if_pos hio]
        obtain ⟨h₂, v₂, i', z, o', hturn₂, hat₂, rfl, hi', ho', hoc', hlist₂⟩ := nephewTurn_spec hat₁ hi ho hio
        obtain ⟨h₃, hturn₃, hat₃⟩ := lastTurn_spec hat₂ hoc'
        have hplug := at_plug.1 hat₃
        refine ⟨h₃, h₃.root, _, ?_, hplug.root ▸ finish_spec hplug, ?_, ?_⟩
        · rw [hturn₂, Option.bind_some, hturn₃, Option.map_some]
        · rw [toList_blacken, ← hlist, ← hlist₂]
          refine toList_plug_congr ?_ path'
          have hlist₃ : (branch d c' (branch d .black t p i') z o'.blacken).toList =
              (branch d c' (branch d .black t p i') z o').toList :=
            toList_branch_congr rfl (toList_blacken o')
          rw [Frame.fill, hlist₃, toList_rotate d c' .black c' .black]
        · cases c' with
          | black =>
            obtain ⟨-, hpath⟩ := fits_black.1 hfit
            have hbal := balanced_black (d := d) (x := z) |>.2
              ⟨balanced_black (d := d) (x := p) |>.2 ⟨ht, hi'⟩, ho'.blacken_red hoc'⟩
            obtain ⟨-, m, hm⟩ := wellColored_plug hbal hpath (fun hr => by simp at hr)
            exact wellColored_blacken hm
          | red =>
            obtain ⟨-, -, hbt, hpath⟩ := fits_red.1 hfit
            have hbal := balanced_red (d := d) (x := z) |>.2
              ⟨color_branch .., color_blacken o', balanced_black (d := d) (x := p) |>.2 ⟨ht, hi'⟩, ho'.blacken_red hoc'⟩
            obtain ⟨-, m, hm⟩ := wellColored_plug hbal hpath (fun _ => hbt)
            exact wellColored_blacken hm
      · rw [if_neg hio, hparent]
        obtain ⟨hic, hoc⟩ := not_or.1 hio
        have hic : i.color = .black := by cases h : i.color <;> simp_all
        have hoc : o.color = .black := by cases h : o.color <;> simp_all
        have hat₂ := at_far.1 ((at_far.2 (at_near.1 hat₁)).setColor .red)
        have hlist₂ : (plug (branch d c' t p (branch d .red i v' o)) path').toList =
            (plug t (⟨d, c, p, s⟩ :: path)).toList := by
          rw [← hlist]
          exact toList_plug_congr (toList_branch_congr rfl (toList_branch_congr rfl rfl)) path'
        have hbal := balanced_black (d := d) (x := p) |>.2 ⟨ht, balanced_red (d := d) (x := v') |>.2 ⟨hic, hoc, hi, ho⟩⟩
        simp only [List.length_cons] at hfuel
        cases c' with
        | black =>
          obtain ⟨-, hpath⟩ := fits_black.1 hfit
          have hlen := hlen.resolve_left (by simp)
          obtain ⟨h', e, t', hl, hfin, hlist', hcol⟩ := ih hat₂ hbal hpath (by omega)
          exact ⟨h', e, t', by rw [← hl, root_branch], hfin, hlist'.trans hlist₂, hcol⟩
        | red =>
          obtain ⟨-, -, -, hpath⟩ := fits_red.1 hfit
          obtain ⟨fuel, rfl⟩ := Nat.exists_eq_add_of_lt (Nat.zero_lt_of_lt (Nat.lt_of_succ_lt_succ hfuel))
          have hstop := removeColorLoop_red fuel (top path') hat₂ (color_branch ..)
          rw [root_branch] at hstop
          have hfin := at_plug.1 (finish_spec hat₂)
          rw [root_branch] at hfin
          refine ⟨_, _, _, by rw [Nat.zero_add, hstop], hfin, ?_, ?_⟩
          · rw [← hlist₂]
            exact toList_plug_congr (toList_blacken _) path'
          · rw [blacken_branch]
            exact wellColored_plug hbal hpath (fun hr => by simp at hr)

theorem rbRemoveColor_spec (hat : At h t path) (ht : t.Balanced n) (hp : Fits path (n + 1)) (hfuel : path.length < fuel) :
    ∃ h' t', rbRemoveColor fuel h (top path) t.root = some h' ∧ At h' t' [] ∧
    t'.toList = (plug t path).toList ∧ WellColored t' := by
  obtain ⟨h', e, t', hloop, hfin, hlist, hcol⟩ := removeColorLoop_spec hat ht hp hfuel
  refine ⟨finish h' e, t', ?_, hfin, hlist, hcol⟩
  rw [rbRemoveColor, hloop]
  rfl

/-! ## `RB_REMOVE` -/

omit [DecidableEq α] in
/-- The loop over `RB_LEFT` ends at the first node of a subtree, the one over `RB_RIGHT` at the last. -/
theorem outermost_spec {q : Option α} (ht : Linked h.entry q t) (hx : t.root = some x) (hfuel : t.height ≤ fuel) :
    ∃ c y u path, outermost d h fuel x = some y ∧ t = plug (branch d c leaf y u) path ∧ ∀ f ∈ path, f.side = d := by
  induction fuel generalizing t x q with
  | zero =>
    cases t with
    | leaf => cases hx
    | node c l y r => simp [height] at hfuel
  | succ fuel ih =>
    obtain ⟨a, b, hbr⟩ := exists_branch d hx
    rw [hbr] at ht
    obtain ⟨hentry, ha, -⟩ := linked_branch.1 ht
    rw [outermost, hentry, child_entryOn]
    cases har : a.root with
    | none =>
      obtain rfl := root_eq_none.1 har
      exact ⟨t.color, x, b, [], rfl, hbr, fun f hf => absurd hf List.not_mem_nil⟩
    | some y =>
      have hheight : a.height ≤ fuel := by
        have := height_plug a [⟨d, t.color, x, b⟩]
        rw [plug_cons, plug_nil, Frame.fill, ← hbr, List.length_singleton] at this
        omega
      obtain ⟨c, z, u, path, hout, rfl, hside⟩ := ih ha har hheight
      refine ⟨c, z, u, path ++ [⟨d, t.color, x, b⟩], hout, ?_, ?_⟩
      · rw [plug_append]
        exact hbr
      · intro f hf
        rcases List.mem_append.1 hf with hf | hf
        · exact hside f hf
        · rw [List.mem_singleton.1 hf]

/-- **Taking out a node that has one child at most.** -/
theorem bypass_spec (hat : At h (branch d c leaf x u) path) :
    At (bypass h x u.root (top path)) u path ∧ (bypass h x u.root (top path)).entry x = h.entry x := by
  obtain ⟨ht, hp, hr, hn⟩ := hat
  obtain ⟨-, -, hu⟩ := linked_branch.1 ht
  have hn' := ((toList_branch_perm d c leaf x u).append_right (nodes path)).nodup_iff.1 hn
  simp only [toList_leaf, List.nil_append, List.cons_append, List.nodup_cons, List.mem_append, not_or] at hn'
  obtain ⟨⟨hxu, hxp⟩, hn'⟩ := hn'
  obtain ⟨hnu, hnp, hdisj⟩ := List.nodup_append.1 hn'
  rw [root_branch] at hp
  have hentry : ∀ w, (bypass h x u.root (top path)).entry w =
      if top path = some w then (h.entry w).setChild (sideOf h w (some x)) u.root
      else if u.root = some w then (h.entry w).setParent (top path) else h.entry w := by
    intro w
    rw [bypass, entry_replace]
    by_cases hw : top path = some w
    · have hne : u.root ≠ some w := fun hu => hdisj w (root_mem hu) w (top_mem hw) rfl
      simp [hw, sideOf, entry_adopt, hne]
    · simp [hw, entry_adopt]
  refine ⟨⟨hu.reparent hnu (fun w hw => ?_), ?_, ?_, hn'⟩, ?_⟩
  · rw [hentry, if_neg (fun hp => hdisj w hw w (top_mem hp) rfl)]
  · refine hp.rehang hnp (fun f rest hpath => ?_)
    subst hpath
    rw [nodes_cons, List.nodup_cons] at hnp
    refine ⟨?_, fun w hw => ?_⟩
    · rw [hentry, if_pos (top_cons f rest), sideOf_top hp]
      intro hs
      exact hxp (by simp [root_mem hs.symm])
    · rw [hentry, if_neg, if_neg]
      · exact fun hu => hdisj w (root_mem hu) w (by rw [nodes_cons]; exact List.mem_cons_of_mem _ hw) rfl
      · rw [top_cons, Option.some.injEq]
        rintro rfl
        exact hnp.1 hw
  · rw [bypass, root_replace, root_adopt, ← root_refill hr]
  · rw [hentry, if_neg (fun heq => hxp (top_mem heq)), if_neg (fun heq => hxu (root_mem heq))]

/-- **A node that takes the place of another.** -/
theorem takePlace_spec (hat : At h (node c a x b) path) (hv : a.root = some v)
    (hy : y ∉ (node c a x b).toList ++ nodes path) :
    ∃ h', takePlace h x y = some h' ∧ At h' (node c a y b) path := by
  obtain ⟨⟨hx, ha, hb⟩, hp, hr, hn⟩ := hat
  rw [root_node] at hp
  simp only [toList_node, List.mem_append, List.mem_cons, not_or] at hy
  obtain ⟨⟨hya, hyx, hyb⟩, hyp⟩ := hy
  simp only [toList_node, List.nodup_append, List.nodup_cons, List.mem_append, List.mem_cons] at hn
  obtain ⟨⟨hna, ⟨hxb, hnb⟩, hdab⟩, hnp, hdp⟩ := hn
  have hxp : x ∉ nodes path := fun hm => hdp x (.inr (.inl rfl)) x hm rfl
  have hxa : x ∉ a.toList := fun hm => hdab x hm x (.inl rfl) rfl
  have hxv : x ≠ v := by
    rintro rfl
    exact hxa (root_mem hv)
  have hpx : top path ≠ some x := fun heq => hxp (top_mem heq)
  have hpy : top path ≠ some y := fun heq => hyp (top_mem heq)
  have hbx : b.root ≠ some x := fun heq => hxb (root_mem heq)
  have hby : b.root ≠ some y := fun heq => hyb (root_mem heq)
  have hyv : y ≠ v := by
    rintro rfl
    exact hya (root_mem hv)
  have htake : takePlace h x y =
      some (((((h.set y (h.entry x)).replace (top path) x (some y))).setParent v (some y)).adopt b.root (some y)) := by
    simp [takePlace, entry_set, entry_replace, entry_setParent, Ne.symm hyx, hx, hpx, hv, hxv]
  -- the entries but those of the two nodes
  have hw : ∀ w, w ≠ y → w ≠ x → (((((h.set y (h.entry x)).replace (top path) x (some y))).setParent v (some y)).adopt b.root
      (some y)).entry w = if top path = some w then (h.entry w).setChild (sideOf h w (some x)) (some y)
        else if w = v ∨ b.root = some w then (h.entry w).setParent (some y) else h.entry w := by
    intro w hwy hwx
    by_cases hwp : top path = some w
    · have hwv : w ≠ v := by
        rintro rfl
        exact hdp w (.inl (root_mem hv)) w (top_mem hwp) rfl
      have hwb : b.root ≠ some w := fun hb => hdp w (.inr (.inr (root_mem hb))) w (top_mem hwp) rfl
      simp [entry_adopt, entry_setParent, entry_replace, entry_set, sideOf, hwp, hwy, hwv, hwb]
    · have hvp : top path ≠ some v := fun hp => hdp v (.inl (root_mem hv)) v (top_mem hp) rfl
      by_cases hwv : w = v
      · subst hwv
        have hwb : b.root ≠ some w := fun hb => hdab w (root_mem hv) w (.inr (root_mem hb)) rfl
        simp [entry_adopt, entry_setParent, entry_replace, entry_set, hwp, hwy, hwb]
      · simp [entry_adopt, entry_setParent, entry_replace, entry_set, hwp, hwy, hwv]
  refine ⟨_, htake, ⟨?_, ha.reparent hna (fun w hwa => ?_), hb.reparent hnb (fun w hwb => ?_)⟩, ?_, ?_, ?_⟩
  · simp [entry_adopt, entry_setParent, entry_replace, entry_set, hyv, hby, hpy, hx]
  · have hwy : w ≠ y := by rintro rfl; exact hya hwa
    have hwx : w ≠ x := by rintro rfl; exact hxa hwa
    rw [hw w hwy hwx, if_neg (fun hp => hdp w (.inl hwa) w (top_mem hp) rfl), hv]
    have hbw : b.root ≠ some w := fun hb => hdab w hwa w (.inr (root_mem hb)) rfl
    simp [hbw, eq_comm]
  · have hwy : w ≠ y := by rintro rfl; exact hyb hwb
    have hwx : w ≠ x := by rintro rfl; exact hxb hwb
    rw [hw w hwy hwx, if_neg (fun hp => hdp w (.inr (.inr hwb)) w (top_mem hp) rfl)]
    have hwv : w ≠ v := by
      rintro rfl
      exact hdab w (root_mem hv) w (.inr hwb) rfl
    simp [hwv]
  · rw [root_node]
    refine hp.rehang hnp (fun f rest hpath => ?_)
    subst hpath
    have hne : ∀ w ∈ nodes (f :: rest), w ≠ y ∧ w ≠ x ∧ w ≠ v ∧ b.root ≠ some w := by
      intro w hwp
      refine ⟨?_, ?_, ?_, fun hb => hdp w (.inr (.inr (root_mem hb))) w hwp rfl⟩
      · rintro rfl; exact hyp hwp
      · rintro rfl; exact hxp hwp
      · rintro rfl; exact hdp w (.inl (root_mem hv)) w hwp rfl
    rw [nodes_cons, List.nodup_cons] at hnp
    refine ⟨?_, fun w hwf => ?_⟩
    · obtain ⟨hfy, hfx, -, -⟩ := hne f.node (by simp)
      rw [hw _ hfy hfx, if_pos (top_cons f rest), sideOf_top hp]
      intro hs
      exact hxp (by simp [root_mem hs.symm])
    · obtain ⟨hwy, hwx, hwv, hwb⟩ := hne w (by rw [nodes_cons]; exact List.mem_cons_of_mem _ hwf)
      rw [hw w hwy hwx, if_neg, if_neg (not_or.2 ⟨hwv, hwb⟩)]
      rw [top_cons, Option.some.injEq]
      rintro rfl
      exact hnp.1 hwf
  · rw [root_adopt, root_setParent, root_replace, root_set, ← root_refill hr]
    rfl
  · simp only [toList_node, List.nodup_append, List.nodup_cons, List.mem_append, List.mem_cons]
    refine ⟨⟨hna, ⟨hyb, hnb⟩, ?_⟩, hnp, ?_⟩
    · rintro w hwa z (rfl | hz)
      · rintro rfl
        exact hya hwa
      · exact hdab w hwa z (.inr hz)
    · rintro w (hwa | rfl | hwb) z hz
      · exact hdp w (.inl hwa) z hz
      · rintro rfl
        exact hyp hz
      · exact hdp w (.inr (.inr hwb)) z hz

/-- What `RB_REMOVE` does with the colours once `u` has taken the place of a node of colour `c`. -/
theorem settle_spec (hat : At h u path) (hu : u.Balanced n) (hc : c = .black → Fits path (n + 1))
    (hred : c = .red → Fits path n ∧ u.color = .black) (hfuel : path.length < fuel) :
    ∃ h' t', (if c = .black then rbRemoveColor fuel h (top path) u.root else some h) = some h' ∧ At h' t' [] ∧
      t'.toList = (plug u path).toList ∧ WellColored t' := by
  cases c with
  | black => exact rbRemoveColor_spec hat hu (hc rfl) hfuel
  | red =>
    obtain ⟨hfit, hcol⟩ := hred rfl
    exact ⟨h, _, rfl, at_plug.1 hat, rfl, wellColored_plug hu hfit (fun hr => by simp [hcol] at hr)⟩

omit [DecidableEq α] in
/-- The black height that is missing when a node with one child at most is taken out. -/
theorem fits_bypass (hcol : WellColored (plug (branch d c leaf x u) path)) :
    ∃ n, u.Balanced n ∧ (c = .black → Fits path (n + 1)) ∧ (c = .red → Fits path n ∧ u.color = .black) := by
  obtain ⟨n, hn, hfit, -⟩ := fits_of_plug hcol
  cases c with
  | black =>
    obtain ⟨m, rfl⟩ := Nat.exists_eq_succ_of_ne_zero hn.ne_zero
    exact ⟨m, (balanced_black.1 hn).2, fun _ => hfit, nofun⟩
  | red =>
    obtain ⟨-, huc, -, hu⟩ := balanced_red.1 hn
    exact ⟨n, hu, nofun, fun _ => ⟨hfit, huc⟩⟩

/-- A node with one child at most. -/
theorem removeOuter_spec (hat : At h (branch d c leaf x u) path) (hcol : WellColored (plug (branch d c leaf x u) path))
    (hfuel : path.length < fuel) :
    ∃ h' t', (if c = .black then rbRemoveColor fuel (bypass h x u.root (top path)) (top path) u.root
        else some (bypass h x u.root (top path))) = some h' ∧ At h' t' [] ∧
        t'.toList = (plug u path).toList ∧ WellColored t' := by
  obtain ⟨n, hu, hc, hred⟩ := fits_bypass hcol
  exact settle_spec (bypass_spec hat).1 hu hc hred hfuel

/-- A node with two children. -/
theorem removeInner_spec (hat : At h (node c a x b) path) (hv : a.root = some v) (hw : b.root = some w)
    (hcol : WellColored (plug (node c a x b) path)) (hfuel : (plug (node c a x b) path).height < fuel) :
    ∃ h' t', removeInner fuel h x w = some h' ∧ At h' t' [] ∧
    t'.toList = (plug (node c a x b) path).toList.erase x ∧ WellColored t' := by
  have hb : At h b (⟨.right, c, x, a⟩ :: path) := at_near.2 hat
  have hheight : b.height ≤ fuel := by
    have hle : b.height + _ ≤ (plug (node c a x b) path).height := height_plug b (⟨.right, c, x, a⟩ :: path)
    omega
  obtain ⟨cs, y, u, q, hout, rfl, hside⟩ := outermost_spec (d := .left) hb.tree hw hheight
  have hy := (at_append _).2 hb
  obtain ⟨h₁, hentry⟩ := bypass_spec hy
  have hcol' : WellColored (plug (branch .left cs leaf y u) (q ++ ⟨.right, c, x, a⟩ :: path)) := by
    rw [plug_append]
    exact hcol
  obtain ⟨n, hu, hc, hred⟩ := fits_bypass hcol'
  -- the successor is not among the nodes that stay
  have hyn : y ∉ u.toList ++ nodes (q ++ ⟨.right, c, x, a⟩ :: path) := by
    have hn := ((toList_branch_perm .left cs leaf y u).append_right _).nodup_iff.1 hy.nodup
    exact (List.nodup_cons.1 hn).1
  have hy' : y ∉ (node c a x (plug u q)).toList ++ nodes path := by
    intro hmem
    refine hyn ((plug_perm u (q ++ ⟨.right, c, x, a⟩ :: path)).subset ?_)
    rw [plug_append]
    exact (plug_perm _ path).symm.subset hmem
  obtain ⟨h₂, htake, hat₂⟩ := takePlace_spec (at_near.1 ((at_append _).1 h₁)) hv hy'
  have hat₃ : At h₂ u (q ++ ⟨.right, c, y, a⟩ :: path) := (at_append _).2 (at_near.2 hat₂)
  have htop : (if top (q ++ ⟨.right, c, x, a⟩ :: path) = some x then some y else top (q ++ ⟨.right, c, x, a⟩ :: path)) =
      top (q ++ ⟨.right, c, y, a⟩ :: path) := by
    cases q with
    | nil => simp
    | cons f q =>
      have hn := (List.nodup_append.1 hy.nodup).2.1
      rw [List.cons_append, nodes_cons, List.nodup_cons] at hn
      have hfx : f.node ≠ x := fun heq => hn.1 (by simp [heq])
      simp [hfx]
  have hlen : (q ++ ⟨.right, c, y, a⟩ :: path).length < fuel := by
    have hle := height_plug (branch .left cs leaf y u) (q ++ ⟨.right, c, x, a⟩ :: path)
    rw [plug_append] at hle
    simp only [List.length_append, List.length_cons] at hle ⊢
    exact Nat.lt_of_le_of_lt (Nat.le_trans (Nat.le_add_left ..) hle) hfuel
  obtain ⟨h', t', hset, hat', hlist, hcol''⟩ := settle_spec hat₃ hu (fun hcs => fits_rename.1 (hc hcs))
    (fun hcs => ⟨fits_rename.1 (hred hcs).1, (hred hcs).2⟩) hlen
  refine ⟨h', t', ?_, hat', hlist.trans ?_, hcol''⟩
  · have hright : (h.entry y).right = u.root := by
      rw [hy.entry_root]
      rfl
    have hparent : (h.entry y).parent = top (q ++ ⟨.right, c, x, a⟩ :: path) := by rw [hy.entry_root, parent_entryOn]
    have hcolor : (h.entry y).color = cs := by rw [hy.entry_root, color_entryOn]
    rw [removeInner, hout, Option.bind_some]
    simp only [hright, hcolor]
    rw [hparent, hentry, hparent, htop, htake, Option.bind_some, hset]
  · have hnodup := hat.nodup
    have hlist' : (plug (node c a x (plug (branch .left cs leaf y u) q)) path).toList =
        (before path ++ a.toList) ++ x :: (y :: u.toList ++ after q ++ after path) := by
      rw [toList_plug, toList_node, toList_plug, before_eq_nil hside]
      simp [branch]
    have hn := (plug_perm (node c a x (plug (branch .left cs leaf y u) q)) path).nodup_iff.2 hnodup
    rw [hlist'] at hn ⊢
    rw [Ordered.erase_between hn, toList_plug, before_append, after_append, before_eq_nil hside]
    simp [before, after]

/-- **`RB_REMOVE` is erasure from the ordered list.** -/
theorem rbRemove_spec {cmp : α → α → Ordering} (hm : Makes cmp h t) (hx : x ∈ t.toList) (hfuel : t.height < fuel) :
    ∃ h' t', rbRemove fuel h x = some h' ∧ Makes cmp h' t' ∧ t'.toList = t.toList.erase x := by
  obtain ⟨hat, hcol, hs⟩ := hm
  obtain ⟨c, a, b, path, rfl⟩ := exists_plug hx
  have hat := at_plug.2 hat
  have hsorted : ∀ l, l = (plug (node c a x b) path).toList.erase x → Ordered.Sorted cmp l := by
    rintro l rfl
    exact hs.sublist List.erase_sublist
  have hn := (plug_perm (node c a x b) path).nodup_iff.2 hat.nodup
  have herase : (plug (node c a x b) path).toList.erase x = before path ++ (a.toList ++ b.toList) ++ after path := by
    rw [toList_plug, toList_node] at hn ⊢
    simp only [List.append_assoc, List.cons_append] at hn ⊢
    rw [← List.append_assoc] at hn ⊢
    rw [Ordered.erase_between hn, List.append_assoc]
  have hlen : path.length < fuel := by
    have hle := height_plug (node c a x b) path
    omega
  have hentry : h.entry x = ⟨a.root, b.root, top path, c⟩ := hat.tree.1
  cases har : a.root with
  | none =>
    obtain rfl := root_eq_none.1 har
    obtain ⟨h', t', hrem, hat', hlist, hcol'⟩ := removeOuter_spec (d := .left) hat hcol hlen
    refine ⟨h', t', ?_, ⟨hat', hcol', hsorted _ ?_⟩, ?_⟩
    · simpa [rbRemove, hentry] using hrem
    · rw [hlist, herase, toList_plug, toList_leaf, List.nil_append]
    · rw [hlist, herase, toList_plug, toList_leaf, List.nil_append]
  | some v =>
    cases hbr : b.root with
    | none =>
      obtain rfl := root_eq_none.1 hbr
      obtain ⟨h', t', hrem, hat', hlist, hcol'⟩ := removeOuter_spec (d := .right) hat hcol hlen
      refine ⟨h', t', ?_, ⟨hat', hcol', hsorted _ ?_⟩, ?_⟩
      · simpa [rbRemove, hentry, har] using hrem
      · rw [hlist, herase, toList_plug, toList_leaf, List.append_nil]
      · rw [hlist, herase, toList_plug, toList_leaf, List.append_nil]
    | some w =>
      obtain ⟨h', t', hrem, hat', hlist, hcol'⟩ := removeInner_spec hat har hbr hcol hfuel
      refine ⟨h', t', ?_, ⟨hat', hcol', hsorted _ hlist⟩, hlist⟩
      simpa [rbRemove, hentry, har, hbr] using hrem

end AlgaeBp.Rbtree
