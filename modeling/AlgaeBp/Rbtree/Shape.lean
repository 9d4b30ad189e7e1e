import AlgaeBp.Rbtree.Code
import AlgaeBp.Lib.Ordered
/-!
# The tree that the entries make

`Linked e p t`: the entries `e` of the nodes of `t` point at each other as `t`
says, and the root of `t` has the parent `p`. `At h t path`: the head and the
entries make the tree `plug t path`. It is seen from the hole that `t` fills,
so that a turn at the hole is a lemma about `At`: what is above and below the
nodes it moves is carried along (`Linked.congr`, `LinkedSpine.congr`), and only
the root of a subtree that moves gets a new parent (`Linked.reparent`).
-/
open Redblack Redblack.ColorTree

namespace AlgaeBp.Rbtree

variable {α : Type}

/-- An entry seen from side `d`. -/
def entryOn (d : Side) (near far parent : Option α) (c : Color) : Entry α :=
  match d with
  | .left => ⟨near, far, parent, c⟩
  | .right => ⟨far, near, parent, c⟩

section EntryOn

variable (d : Side) (near far parent v : Option α) (c c' : Color)

@[simp] theorem child_entryOn : (entryOn d near far parent c).child d = near := by cases d <;> rfl
@[simp] theorem child_other_entryOn : (entryOn d near far parent c).child d.other = far := by cases d <;> rfl
@[simp] theorem child_entryOn_other : (entryOn d.other near far parent c).child d = far := by cases d <;> rfl
@[simp] theorem parent_entryOn : (entryOn d near far parent c).parent = parent := by cases d <;> rfl
@[simp] theorem color_entryOn : (entryOn d near far parent c).color = c := by cases d <;> rfl
@[simp] theorem setChild_entryOn : (entryOn d near far parent c).setChild d v =
    entryOn d v far parent c := by cases d <;> rfl
@[simp] theorem setChild_other_entryOn : (entryOn d near far parent c).setChild d.other v = entryOn d near v parent c := by
  cases d <;> rfl
@[simp] theorem setParent_entryOn : (entryOn d near far parent c).setParent v = entryOn d near far v c := by cases d <;> rfl
@[simp] theorem setColor_entryOn : (entryOn d near far parent c).setColor c' = entryOn d near far parent c' := by
  cases d <;> rfl

end EntryOn

/-! ## Trees in a heap -/

def Linked (e : α → Entry α) : Option α → ColorTree α → Prop
  | _, .leaf => True
  | p, .node c l x r => e x = ⟨l.root, r.root, p, c⟩ ∧ Linked e (some x) l ∧ Linked e (some x) r

/-- The entries above a hole that has the node `o` in it. -/
def LinkedSpine (e : α → Entry α) : Option α → Spine α → Prop
  | _, [] => True
  | o, f :: path =>
    e f.node = entryOn f.side o f.sibling.root (top path) f.color ∧ Linked e (some f.node) f.sibling ∧
      LinkedSpine e (some f.node) path

structure At (h : Heap α) (t : ColorTree α) (path : Spine α) : Prop where
  tree : Linked h.entry (top path) t
  above : LinkedSpine h.entry t.root path
  root : h.root = (plug t path).root
  nodup : (t.toList ++ nodes path).Nodup

variable {h h' : Heap α} {e e' : α → Entry α} {p q o o' i j k : Option α} {t t' a b s : ColorTree α}
    {f : Frame α} {path : Spine α} {d : Side}
  {c c' cx cy : Color} {x y z : α}

theorem linked_branch :
    Linked e p (branch d c a x b) ↔ e x = entryOn d a.root b.root p c ∧ Linked e (some x) a ∧ Linked e (some x) b := by
  cases d
  · exact Iff.rfl
  · exact ⟨fun ⟨hx, hb, ha⟩ => ⟨hx, ha, hb⟩, fun ⟨hx, ha, hb⟩ => ⟨hx, hb, ha⟩⟩

/-- Entries elsewhere do not matter. -/
theorem Linked.congr (h : Linked e p t) (he : ∀ w ∈ t.toList, e' w = e w) : Linked e' p t := by
  induction t generalizing p with
  | leaf => trivial
  | node c l x r ihl ihr =>
    obtain ⟨hx, hl, hr⟩ := h
    refine ⟨(he x (by simp)).trans hx, ihl hl (fun w hw => he w ?_), ihr hr (fun w hw => he w ?_)⟩
    · simp [hw]
    · simp [hw]

theorem LinkedSpine.congr (h : LinkedSpine e o path) (he : ∀ w ∈ nodes path, e' w = e w) : LinkedSpine e' o path := by
  induction path generalizing o with
  | nil => trivial
  | cons f path ih =>
    obtain ⟨hf, hs, hp⟩ := h
    simp only [nodes_cons, List.mem_cons, List.mem_append] at he
    exact ⟨(he _ (.inl rfl)).trans hf, hs.congr (fun w hw => he w (.inr (.inl hw))),
      ih hp (fun w hw => he w (.inr (.inr hw)))⟩

/-- A hole that gets another node. -/
theorem LinkedSpine.rehang (h : LinkedSpine e o path) (hn : (nodes path).Nodup)
    (he : ∀ f rest, path = f :: rest → e' f.node = (e f.node).setChild f.side o' ∧
      ∀ w ∈ f.sibling.toList ++ nodes rest, e' w = e w) :
    LinkedSpine e' o' path := by
  cases path with
  | nil => trivial
  | cons f rest =>
    obtain ⟨hf, hs, hp⟩ := h
    obtain ⟨hf', hw⟩ := he f rest rfl
    refine ⟨?_, hs.congr (fun w hw' => hw w (by simp [hw'])), hp.congr (fun w hw' => hw w (by simp [hw']))⟩
    rw [hf', hf, setChild_entryOn]

/-- **A tree seen from a hole further up.** -/
theorem at_cons : At h t (f :: path) ↔ At h (f.fill t) path := by
  obtain ⟨d, c, x, s⟩ := f
  have hperm : (t.toList ++ nodes (⟨d, c, x, s⟩ :: path)).Perm ((branch d c t x s).toList ++ nodes path) := by
    refine List.Perm.trans ?_ ((toList_branch_perm d c t x s).symm.append_right (nodes path))
    rw [nodes_cons]
    simp
  constructor
  · rintro ⟨ht, ⟨hx, hs, hp⟩, hr, hn⟩
    refine ⟨linked_branch.2 ⟨hx, ht, hs⟩, ?_, hr, hperm.nodup_iff.1 hn⟩
    rwa [Frame.fill, root_branch]
  · rintro ⟨ht, hp, hr, hn⟩
    obtain ⟨hx, ht, hs⟩ := linked_branch.1 ht
    rw [Frame.fill, root_branch] at hp
    exact ⟨ht, ⟨hx, hs, hp⟩, hr, hperm.nodup_iff.2 hn⟩

/-- A tree seen from the near child of its root. -/
theorem at_near : At h a (⟨d, c, x, b⟩ :: path) ↔ At h (branch d c a x b) path := at_cons

/-- A tree seen from the far child of its root. -/
theorem at_far : At h b (⟨d.other, c, x, a⟩ :: path) ↔ At h (branch d c a x b) path := by
  rw [at_cons, Frame.fill, branch_other]

theorem at_append (path' : Spine α) : At h t (path ++ path') ↔ At h (plug t path) path' := by
  induction path generalizing t with
  | nil => exact Iff.rfl
  | cons f path ih => exact at_cons.trans ih

theorem at_plug : At h t path ↔ At h (plug t path) [] := by
  rw [← at_append, List.append_nil]

/-! ## Writes -/

variable [DecidableEq α]

/-- A subtree whose root gets a new parent. -/
theorem Linked.reparent (h : Linked e p t) (hn : t.toList.Nodup)
    (he : ∀ w ∈ t.toList, e' w = if t.root = some w then (e w).setParent q else e w) : Linked e' q t := by
  cases t with
  | leaf => trivial
  | node c l x r =>
    obtain ⟨hx, hl, hr⟩ := h
    simp only [toList_node, List.nodup_append, List.nodup_cons, List.mem_cons] at hn
    obtain ⟨-, ⟨hxr, -⟩, hlr⟩ := hn
    refine ⟨?_, hl.congr (fun w hw => ?_), hr.congr (fun w hw => ?_)⟩
    · rw [he x (by simp)]
      simp [hx, Entry.setParent]
    · rw [he w (by simp [hw]), if_neg]
      rintro heq
      exact hlr w hw x (.inl rfl) (Option.some.inj heq).symm
    · rw [he w (by simp [hw]), if_neg]
      rintro heq
      obtain rfl := Option.some.inj heq
      exact hxr hw

theorem entry_set (h : Heap α) (x w : α) (v : Entry α) : (h.set x v).entry w = if w = x then v else h.entry w := by
  simp [Heap.set, Function.update_apply]

theorem entry_setChild (h : Heap α) (d : Side) (x w : α) (v : Option α) :
    (h.setChild d x v).entry w = if w = x then (h.entry x).setChild d v else h.entry w := entry_set ..

theorem entry_setParent (h : Heap α) (x w : α) (v : Option α) :
    (h.setParent x v).entry w = if w = x then (h.entry x).setParent v else h.entry w := entry_set ..

theorem entry_setColor (h : Heap α) (x w : α) (c : Color) :
    (h.setColor x c).entry w = if w = x then (h.entry x).setColor c else h.entry w := entry_set ..

theorem entry_adopt (h : Heap α) (o p : Option α) (w : α) :
    (h.adopt o p).entry w = if o = some w then (h.entry w).setParent p else h.entry w := by
  cases o with
  | none => simp [Heap.adopt]
  | some x =>
    simp only [Heap.adopt, entry_setParent, Option.some.injEq, eq_comm (a := w)]
    split_ifs with heq
    · rw [heq]
    · rfl

theorem entry_replace (h : Heap α) (p : Option α) (elm w : α) (v : Option α) :
    (h.replace p elm v).entry w = if p = some w then (h.entry w).setChild (sideOf h w (some elm)) v else h.entry w := by
  cases p with
  | none => simp [Heap.replace]
  | some x =>
    simp only [Heap.replace, sideOf, Option.some.injEq, apply_ite (fun g : Heap α => g.entry w),
      entry_setChild, eq_comm (a := w)]
    split_ifs <;> simp_all

@[simp] theorem root_set (h : Heap α) (x : α) (v : Entry α) : (h.set x v).root = h.root := rfl
@[simp] theorem root_setChild (h : Heap α) (d : Side) (x : α) (v : Option α) : (h.setChild d x v).root = h.root := rfl
@[simp] theorem root_setParent (h : Heap α) (x : α) (v : Option α) : (h.setParent x v).root = h.root := rfl
@[simp] theorem root_setColor (h : Heap α) (x : α) (c : Color) : (h.setColor x c).root = h.root := rfl
@[simp] theorem root_adopt (h : Heap α) (o p : Option α) : (h.adopt o p).root = h.root := by cases o <;> rfl

theorem root_replace (h : Heap α) (p : Option α) (elm : α) (v : Option α) :
    (h.replace p elm v).root = if p = none then v else h.root := by
  cases p with
  | none => rfl
  | some x =>
    simp only [Heap.replace, reduceCtorEq, if_false]
    split <;> rfl

/-! ## Turns -/

/-- Which side of its parent the node in the hole hangs on. -/
theorem sideOf_top (hp : LinkedSpine h.entry o (f :: path)) (hs : o ≠ f.sibling.root) : sideOf h f.node o = f.side := by
  obtain ⟨d, c, x, s⟩ := f
  have hx := hp.1
  unfold sideOf
  cases d
  · simp [hx, entryOn]
  · have hne : s.root ≠ o := fun heq => hs heq.symm
    simp [hx, entryOn, hne]

omit [DecidableEq α] in
/-- The root of the tree, when what is in the hole changes. -/
theorem root_refill {r : Option α} (hr : r = (plug t path).root) :
    (if top path = none then t'.root else r) = (plug t' path).root := by
  cases path with
  | nil => rfl
  | cons f path => exact hr.trans (root_plug_cons t t' f path)

theorem rotate_entry (hx : h.entry x = entryOn d i (some y) p cx) (hy : h.entry y = entryOn d j k (some x) cy) (hxy : x ≠ y)
    (hjx : j ≠ some x) (hjy : j ≠ some y) (hpx : p ≠ some x) (hpy : p ≠ some y) (hjp : ∀ w, p = some w → j ≠ some w) :
    ∃ h', rotate d h x = some h' ∧ h'.entry x = entryOn d i j (some y) cx ∧ h'.entry y = entryOn d (some x) k p cy ∧
      (∀ w, w ≠ x → w ≠ y → h'.entry w =
        if p = some w then (h.entry w).setChild (sideOf h w (some x)) (some y)
        else if j = some w then (h.entry w).setParent (some x) else h.entry w) ∧
      h'.root = if p = none then some y else h.root := by
  unfold rotate
  simp only [hx, child_other_entryOn]
  refine ⟨_, rfl, ?_, ?_, ?_, ?_⟩
  · simp [entry_setParent, entry_setChild, entry_adopt, entry_replace, hx, hy, hxy, hjx, hpx]
  · simp [entry_setParent, entry_setChild, entry_adopt, entry_replace, hx, hy, hxy, hxy.symm, hjx, hjy, hpy]
  · intro w hwx hwy
    by_cases hp : p = some w
    · have hj := hjp w hp
      subst hp
      simp [sideOf, entry_setParent, entry_setChild, entry_adopt, entry_replace, hx, hy, hxy, hwx, hwy, hjx, hj]
    · simp [entry_setParent, entry_setChild, entry_adopt, entry_replace, hx, hy, hxy, hwx, hwy, hjx, hp]
  · simp [root_replace, hx, hy, entry_setParent, entry_adopt, entry_setChild, hxy, hjx]

/-- **A rotation at the hole.** -/
theorem rotate_spec (hat : At h (branch d cx a x (branch d cy b y s)) path) :
    ∃ h', rotate d h x = some h' ∧ At h' (branch d cy (branch d cx a x b) y s) path := by
  obtain ⟨ht, hp, hr, hn⟩ := hat
  obtain ⟨hx, ha, hys⟩ := linked_branch.1 ht
  obtain ⟨hy, hb, hs⟩ := linked_branch.1 hys
  rw [root_branch] at hx hp
  have hn' : (x :: y :: (b.toList ++ (nodes path ++ (a.toList ++ s.toList)))).Nodup := by
    refine (List.Perm.nodup_iff ?_).1 hn
    have hperm := ((toList_branch_perm d cx a x (branch d cy b y s)).trans
      (((toList_branch_perm d cy b y s).append_left a.toList).cons x)).append_right (nodes path)
    refine hperm.trans ?_
    rw [List.cons_append, List.perm_cons]
    grind
  simp only [List.nodup_cons, List.mem_append, List.mem_cons, not_or, List.nodup_append] at hn'
  obtain ⟨⟨hxy, hxb, hxp, hxa, hxs⟩, ⟨hyb, hyp, hya, hys⟩, hnb, ⟨hnp, -, hdp⟩, hdb⟩ := hn'
  obtain ⟨h', hrot, hx', hy', hw', hr'⟩ := rotate_entry hx hy hxy (fun heq => hxb (root_mem heq))
    (fun heq => hyb (root_mem heq))
    (fun heq => hxp (top_mem heq)) (fun heq => hyp (top_mem heq))
    (fun w hw hbw => hdb w (root_mem hbw) w (.inl (top_mem hw)) rfl)
  -- what is neither turned nor next to it
  have hfar : ∀ w, w ∈ a.toList ∨ w ∈ s.toList → h'.entry w = h.entry w := by
    intro w hw
    have hwx : w ≠ x := by rintro rfl; exact hw.elim hxa hxs
    have hwy : w ≠ y := by rintro rfl; exact hw.elim hya hys
    rw [hw' w hwx hwy, if_neg, if_neg]
    · exact fun hbw => hdb w (root_mem hbw) w (.inr hw) rfl
    · exact fun hpw => hdp w (top_mem hpw) w hw rfl
  refine ⟨h', hrot, linked_branch.2 ⟨?_, linked_branch.2 ⟨?_, ?_, ?_⟩, ?_⟩, ?_, ?_, ?_⟩
  · rw [hy', root_branch]
  · exact hx'
  · exact ha.congr (fun w hw => hfar w (.inl hw))
  · refine hb.reparent hnb (fun w hw => ?_)
    have hwx : w ≠ x := by rintro rfl; exact hxb hw
    have hwy : w ≠ y := by rintro rfl; exact hyb hw
    rw [hw' w hwx hwy, if_neg]
    exact fun hpw => hdb w hw w (.inl (top_mem hpw)) rfl
  · exact hs.congr (fun w hw => hfar w (.inr hw))
  · rw [root_branch]
    refine hp.rehang hnp (fun f rest hpath => ?_)
    subst hpath
    have hne : ∀ w ∈ nodes (f :: rest), w ≠ x ∧ w ≠ y ∧ b.root ≠ some w := by
      intro w hw
      refine ⟨?_, ?_, fun hbw => hdb w (root_mem hbw) w (.inl hw) rfl⟩
      · rintro rfl; exact hxp hw
      · rintro rfl; exact hyp hw
    rw [nodes_cons, List.nodup_cons] at hnp
    refine ⟨?_, fun w hw => ?_⟩
    · obtain ⟨hfx, hfy, -⟩ := hne f.node (by simp)
      rw [hw' _ hfx hfy, if_pos (top_cons f rest), sideOf_top hp]
      intro hsx
      exact hxp (by simp [root_mem hsx.symm])
    · obtain ⟨hwx, hwy, hbw⟩ := hne w (by rw [nodes_cons]; exact List.mem_cons_of_mem _ hw)
      rw [hw' w hwx hwy, if_neg, if_neg hbw]
      rw [top_cons, Option.some.injEq]
      rintro rfl
      exact hnp.1 hw
  · rw [hr', ← root_refill hr]
    simp
  · refine (List.Perm.nodup_iff ?_).1 hn
    rw [toList_rotate d cy cx cx cy]

/-! ## Reading and colouring at the hole -/

omit [DecidableEq α] in
theorem At.entry_root (hat : At h (branch d c a x b) path) : h.entry x = entryOn d a.root b.root (top path) c :=
  (linked_branch.1 hat.tree).1

omit [DecidableEq α] in
theorem At.entry_top (hat : At h t (f :: path)) :
    h.entry f.node = entryOn f.side t.root f.sibling.root (top path) f.color := hat.above.1

omit [DecidableEq α] in
/-- The node in the hole is not its sibling. -/
theorem At.sibling_ne (hat : At h t (f :: path)) (hx : t.root = some x) : some x ≠ f.sibling.root := by
  intro heq
  have hn := hat.nodup
  rw [nodes_cons, List.nodup_append] at hn
  exact hn.2.2 x (root_mem hx) x (by simp [root_mem heq.symm]) rfl

omit [DecidableEq α] in
/-- Below the root of the tree, the node in the hole is not the root. -/
theorem At.root_ne (hat : At h t (f :: path)) : t.root ≠ h.root := by
  obtain ⟨r, hr, hroot⟩ := exists_root_plug t f path
  rw [hat.root, hroot]
  intro heq
  exact (List.nodup_append.1 hat.nodup).2.2 r (root_mem heq) r hr rfl

theorem At.sideOf_top (hat : At h t (f :: path)) (ho : t.root = o) (hs : o ≠ f.sibling.root) :
    sideOf h f.node o = f.side := by
  subst ho
  exact Rbtree.sideOf_top hat.above hs

omit [DecidableEq α] in
theorem isRed_root (ht : Linked h.entry p t) : h.isRed t.root = decide (t.color = .red) := by
  cases t with
  | leaf => rfl
  | node c l x r =>
    rw [root_node, Heap.isRed, ht.1]
    rfl

/-- **Colouring the node in the hole.** -/
theorem At.setColor (hat : At h (branch d c a x b) path) (c' : Color) : At (h.setColor x c') (branch d c' a x b) path := by
  obtain ⟨ht, hp, hr, hn⟩ := hat
  obtain ⟨hx, ha, hb⟩ := linked_branch.1 ht
  have hn' := ((toList_branch_perm d c a x b).append_right (nodes path)).nodup_iff.1 hn
  simp only [List.cons_append, List.nodup_cons, List.mem_append, not_or] at hn'
  obtain ⟨⟨⟨hxa, hxb⟩, hxp⟩, -⟩ := hn'
  have hne : ∀ w, w ≠ x → (h.setColor x c').entry w = h.entry w := by
    intro w hw
    rw [entry_setColor, if_neg hw]
  refine ⟨linked_branch.2 ⟨?_, ha.congr ?_, hb.congr ?_⟩, ?_, ?_, ?_⟩
  · rw [entry_setColor, if_pos rfl, hx, setColor_entryOn]
  · intro w hw
    refine hne w ?_
    rintro rfl
    exact hxa hw
  · intro w hw
    refine hne w ?_
    rintro rfl
    exact hxb hw
  · rw [root_branch] at hp ⊢
    refine hp.congr (fun w hw => hne w ?_)
    rintro rfl
    exact hxp hw
  · rw [root_setColor, hr]
    exact root_plug_congr (by simp) path
  · refine (List.Perm.nodup_iff ?_).1 hn
    have hlist : (branch d c a x b).toList = (branch d c' a x b).toList := toList_branch_congr rfl rfl
    rw [hlist]

theorem At.blacken (hat : At h t path) (hx : t.root = some x) : At (h.setColor x .black) t.blacken path := by
  obtain ⟨a, b, ht⟩ := exists_branch .left hx
  rw [ht] at hat ⊢
  rw [blacken_branch]
  exact hat.setColor .black

/-! ## Search trees -/

/-- **The head and the entries make the red-black search tree `t`.** -/
structure Makes (cmp : α → α → Ordering) (h : Heap α) (t : ColorTree α) : Prop where
  shape : At h t []
  colored : WellColored t
  sorted : Ordered.Sorted cmp t.toList

omit [DecidableEq α] in
theorem makes_init {cmp : α → α → Ordering} (mem : Heap α) : Makes cmp mem.init .leaf where
  shape := ⟨trivial, trivial, rfl, List.nodup_nil⟩
  colored := ⟨rfl, 0, .leaf⟩
  sorted := List.Pairwise.nil

theorem Makes.set {cmp : α → α → Ordering} (hm : Makes cmp h t) (hx : x ∉ t.toList) (v : Entry α) :
    Makes cmp (h.set x v) t where
  shape := by
    obtain ⟨ht, -, hr, hn⟩ := hm.shape
    refine ⟨ht.congr (fun w hw => ?_), trivial, hr, hn⟩
    rw [entry_set, if_neg]
    rintro rfl
    exact hx hw
  colored := hm.colored
  sorted := hm.sorted

omit [DecidableEq α] in
theorem Makes.congr {cmp cmp' : α → α → Ordering} (hm : Makes cmp h t)
    (hc : ∀ a ∈ t.toList, ∀ b ∈ t.toList, cmp' a b = cmp a b) :
    Makes cmp' h t where
  shape := hm.shape
  colored := hm.colored
  sorted := hm.sorted.imp_of_mem fun {a b} ha hb hab => (hc a ha b hb).trans hab

/-- What comes before the hole is smaller than `x`, and what comes after it is larger. -/
def Around (cmp : α → α → Ordering) (x : α) (path : Spine α) : Prop :=
  (∀ y ∈ before path, cmp x y = .gt) ∧ ∀ y ∈ after path, cmp x y = .lt

omit [DecidableEq α] in
theorem around_nil {cmp : α → α → Ordering} : Around cmp x [] := by simp [Around, before, after]

omit [DecidableEq α] in
/-- A step to the left of a search. -/
theorem Around.left {cmp : α → α → Ordering} [Std.TransCmp cmp] (har : Around cmp x path)
    (hs : Ordered.Sorted cmp (plug (node c a y b) path).toList) (hxy : cmp x y = .lt) :
    Around cmp x (⟨.left, c, y, b⟩ :: path) := by
  rw [toList_plug, toList_node, List.append_assoc, List.append_assoc] at hs
  have hlt := (hs.sublist (List.sublist_append_right ..)).lt_of_lt hxy
  refine ⟨by simpa [before] using har.1, ?_⟩
  simp only [after, List.cons_append, List.mem_cons, List.mem_append]
  rintro z (rfl | hz)
  · exact hxy
  · exact hlt z (List.mem_append.2 hz)

omit [DecidableEq α] in
/-- A step to the right of a search. -/
theorem Around.right {cmp : α → α → Ordering} [Std.TransCmp cmp] (har : Around cmp x path)
    (hs : Ordered.Sorted cmp (plug (node c a y b) path).toList) (hxy : cmp x y = .gt) :
    Around cmp x (⟨.right, c, y, a⟩ :: path) := by
  rw [toList_plug, toList_node, ← List.append_assoc, List.append_assoc] at hs
  have hgt := hs.gt_of_gt hxy
  refine ⟨?_, by simpa [after] using har.2⟩
  simp only [before, ← List.append_assoc, List.mem_append, List.mem_singleton]
  rintro z (hz | rfl)
  · exact hgt z (List.mem_append.2 hz)
  · exact hxy

omit [DecidableEq α] in
/-- Nothing around the hole compares equal to `x`. -/
theorem Around.ne_eq {cmp : α → α → Ordering} (har : Around cmp x path) (hy : y ∈ nodes path) : cmp x y ≠ .eq := by
  rcases mem_nodes.1 hy with hy | hy
  · simp [har.1 y hy]
  · simp [har.2 y hy]

end AlgaeBp.Rbtree
