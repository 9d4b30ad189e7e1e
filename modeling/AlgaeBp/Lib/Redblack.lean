import Mathlib.Algebra.BigOperators.Group.List.Basic
import Mathlib.Algebra.Order.Ring.Int
import Mathlib.Data.List.Nodup
import Mathlib.Tactic.Common
/-!
# Red-black trees with a hole

A tree of coloured nodes and its inorder list. What is done on the left of a
node is also done on its right, so a node is built from a side, what is on
that side of it and what is on the other (`branch`).

A `Spine` is a tree with a hole, as the frames from the hole up to the root;
`plug` fills the hole. `Balanced t n`: every way down from the root of `t`
meets `n` black nodes, and no red node has a red child. `Fits path n`: filling
the hole with such a tree gives a balanced tree with a black root, if the
colours agree at the hole.
-/

namespace Redblack

inductive Side where
  | left
  | right
  deriving DecidableEq, Repr

def Side.other : Side → Side
  | .left => .right
  | .right => .left

@[simp] theorem Side.other_other (d : Side) : d.other.other = d := by cases d <;> rfl

theorem Side.other_ne (d : Side) : d.other ≠ d := by cases d <;> simp [Side.other]

theorem Side.eq_or_other (d d' : Side) : d' = d ∨ d' = d.other := by cases d <;> cases d' <;> simp [Side.other]

inductive Color where
  | black
  | red
  deriving DecidableEq, Repr

inductive ColorTree (α : Type) where
  | leaf
  | node (c : Color) (l : ColorTree α) (x : α) (r : ColorTree α)
  deriving DecidableEq, Repr

variable {α : Type}

namespace ColorTree

def root : ColorTree α → Option α
  | leaf => none
  | node _ _ x _ => some x

def color : ColorTree α → Color
  | leaf => .black
  | node c _ _ _ => c

def toList : ColorTree α → List α
  | leaf => []
  | node _ l x r => l.toList ++ x :: r.toList

def height : ColorTree α → Nat
  | leaf => 0
  | node _ l _ r => max l.height r.height + 1

/-- The tree with a black root. -/
def blacken : ColorTree α → ColorTree α
  | leaf => leaf
  | node _ l x r => node .black l x r

/-- A node with `near` on side `d` and `far` on the other. -/
def branch (d : Side) (c : Color) (near : ColorTree α) (x : α) (far : ColorTree α) : ColorTree α :=
  match d with
  | .left => node c near x far
  | .right => node c far x near

@[simp] theorem root_branch (d : Side) (c : Color) (a : ColorTree α) (x : α) (b : ColorTree α) :
    (branch d c a x b).root = some x := by
  cases d <;> rfl

@[simp] theorem color_branch (d : Side) (c : Color) (a : ColorTree α) (x : α) (b : ColorTree α) :
    (branch d c a x b).color = c := by
  cases d <;> rfl

@[simp] theorem blacken_branch (d : Side) (c : Color) (a : ColorTree α) (x : α) (b : ColorTree α) :
    (branch d c a x b).blacken = branch d .black a x b := by
  cases d <;> rfl

@[simp] theorem root_leaf : (leaf : ColorTree α).root = none := rfl
@[simp] theorem root_node (c : Color) (l : ColorTree α) (x : α) (r : ColorTree α) : (node c l x r).root = some x := rfl
@[simp] theorem color_leaf : (leaf : ColorTree α).color = .black := rfl
@[simp] theorem color_node (c : Color) (l : ColorTree α) (x : α) (r : ColorTree α) : (node c l x r).color = c := rfl
@[simp] theorem toList_leaf : (leaf : ColorTree α).toList = [] := rfl
@[simp] theorem toList_node (c : Color) (l : ColorTree α) (x : α) (r : ColorTree α) :
    (node c l x r).toList = l.toList ++ x :: r.toList := rfl

@[simp] theorem toList_blacken (t : ColorTree α) : t.blacken.toList = t.toList := by cases t <;> rfl

@[simp] theorem color_blacken (t : ColorTree α) : t.blacken.color = .black := by cases t <;> rfl

@[simp] theorem root_blacken (t : ColorTree α) : t.blacken.root = t.root := by cases t <;> rfl

theorem branch_other (d : Side) (c : Color) (a : ColorTree α) (x : α) (b : ColorTree α) :
    branch d.other c a x b = branch d c b x a := by
  cases d <;> rfl

/-- A tree with a root seen from either side. -/
theorem exists_branch (d : Side) {t : ColorTree α} {x : α} (h : t.root = some x) :
    ∃ a b, t = branch d t.color a x b := by
  rcases t with _ | ⟨c, l, y, r⟩
  · cases h
  · obtain rfl := Option.some.inj h
    cases d
    · exact ⟨l, r, rfl⟩
    · exact ⟨r, l, rfl⟩

theorem root_eq_none {t : ColorTree α} : t.root = none ↔ t = leaf := by cases t <;> simp

theorem root_mem {t : ColorTree α} {x : α} (h : t.root = some x) : x ∈ t.toList := by
  cases t <;> simp_all

theorem toList_branch_perm (d : Side) (c : Color) (a : ColorTree α) (x : α) (b : ColorTree α) :
    (branch d c a x b).toList.Perm (x :: (a.toList ++ b.toList)) := by
  cases d
  · exact List.perm_middle
  · exact List.perm_middle.trans (List.perm_append_comm.cons x)

/-- **Rotating keeps the order.** -/
theorem toList_rotate (d : Side) (c₁ c₂ c₃ c₄ : Color) (a : ColorTree α) (x : α) (b : ColorTree α)
    (y : α) (e : ColorTree α) :
    (branch d c₁ (branch d c₂ a x b) y e).toList = (branch d c₃ a x (branch d c₄ b y e)).toList := by
  cases d <;> simp [branch]

theorem toList_branch_congr {d : Side} {c c' : Color} {a a' b b' : ColorTree α} {x : α}
    (ha : a.toList = a'.toList) (hb : b.toList = b'.toList) :
    (branch d c a x b).toList = (branch d c' a' x b').toList := by
  cases d <;> simp [branch, ha, hb]

theorem height_le_length (t : ColorTree α) : t.height ≤ t.toList.length := by
  induction t with
  | leaf => simp [height]
  | node c l x r ihl ihr =>
    simp only [height, toList_node, List.length_append, List.length_cons]
    omega

/-- The nodes of a tree, from side `d` on. -/
def listFrom (d : Side) (t : ColorTree α) : List α :=
  match d with
  | .left => t.toList
  | .right => t.toList.reverse

@[simp] theorem listFrom_leaf (d : Side) : (leaf : ColorTree α).listFrom d = [] := by cases d <;> rfl

theorem listFrom_branch (d : Side) (c : Color) (a : ColorTree α) (x : α) (b : ColorTree α) :
    (branch d c a x b).listFrom d = a.listFrom d ++ x :: b.listFrom d := by
  cases d <;> simp [branch, listFrom]

theorem reverse_listFrom_other (d : Side) (t : ColorTree α) : (t.listFrom d.other).reverse = t.listFrom d := by
  cases d <;> simp [listFrom, Side.other]

theorem nodup_listFrom {d : Side} {t : ColorTree α} : (t.listFrom d).Nodup ↔ t.toList.Nodup := by
  cases d <;> simp [listFrom]

theorem length_listFrom (d : Side) (t : ColorTree α) : (t.listFrom d).length = t.toList.length := by
  cases d <;> simp [listFrom]

/-! ## Balance -/

inductive Balanced : ColorTree α → Nat → Prop where
  | leaf : Balanced leaf 0
  | red {l r : ColorTree α} {x : α} {n : Nat} : l.color = .black → r.color = .black → Balanced l n →
      Balanced r n → Balanced (node .red l x r) n
  | black {l r : ColorTree α} {x : α} {n : Nat} : Balanced l n → Balanced r n → Balanced (node .black l x r) (n + 1)

theorem balanced_leaf {n : Nat} : (leaf : ColorTree α).Balanced n ↔ n = 0 := by
  constructor
  · intro h
    cases h
    rfl
  · rintro rfl
    exact .leaf

theorem balanced_red {d : Side} {a b : ColorTree α} {x : α} {n : Nat} :
    (branch d .red a x b).Balanced n ↔ a.color = .black ∧ b.color = .black ∧ a.Balanced n ∧ b.Balanced n := by
  constructor
  · intro h
    cases d
    · rcases h with _ | ⟨hl, hr, hl', hr'⟩
      exact ⟨hl, hr, hl', hr'⟩
    · rcases h with _ | ⟨hl, hr, hl', hr'⟩
      exact ⟨hr, hl, hr', hl'⟩
  · rintro ⟨ha, hb, ha', hb'⟩
    cases d
    · exact .red ha hb ha' hb'
    · exact .red hb ha hb' ha'

theorem balanced_black {d : Side} {a b : ColorTree α} {x : α} {n : Nat} :
    (branch d .black a x b).Balanced (n + 1) ↔ a.Balanced n ∧ b.Balanced n := by
  constructor
  · intro h
    cases d
    · rcases h with _ | _ | ⟨hl, hr⟩
      exact ⟨hl, hr⟩
    · rcases h with _ | _ | ⟨hl, hr⟩
      exact ⟨hr, hl⟩
  · rintro ⟨ha, hb⟩
    cases d
    · exact .black ha hb
    · exact .black hb ha

theorem Balanced.ne_zero {d : Side} {a b : ColorTree α} {x : α} {n : Nat}
    (h : (branch d .black a x b).Balanced n) : n ≠ 0 := by
  cases d <;> (cases h; simp)

/-- A tree with black nodes has a root. -/
theorem Balanced.exists_root {t : ColorTree α} {n : Nat} (h : t.Balanced (n + 1)) : ∃ x, t.root = some x := by
  cases t with
  | leaf => cases h
  | node c l x r => exact ⟨x, rfl⟩

theorem Balanced.blacken {t : ColorTree α} {n : Nat} (h : t.Balanced n) : ∃ m, t.blacken.Balanced m := by
  cases h with
  | leaf => exact ⟨0, .leaf⟩
  | red _ _ hl hr => exact ⟨_, .black hl hr⟩
  | black hl hr => exact ⟨_, .black hl hr⟩

/-- A red root that becomes black. -/
theorem Balanced.blacken_red {t : ColorTree α} {n : Nat} (h : t.Balanced n) (hc : t.color = .red) :
    t.blacken.Balanced (n + 1) := by
  cases h with
  | leaf => cases hc
  | red _ _ hl hr => exact .black hl hr
  | black => cases hc

theorem Balanced.height_le {t : ColorTree α} {n : Nat} (h : t.Balanced n) :
    t.height ≤ 2 * n + (if t.color = .red then 1 else 0) := by
  induction h with
  | leaf => simp [height]
  | red hcl hcr _ _ ihl ihr =>
    simp only [hcl, hcr, height, color_node] at *
    simp at *
    omega
  | black _ _ ihl ihr =>
    simp only [height, color_node]
    split at ihl <;> split at ihr <;> simp <;> omega

theorem Balanced.two_pow_le {t : ColorTree α} {n : Nat} (h : t.Balanced n) : 2 ^ n ≤ t.toList.length + 1 := by
  induction h with
  | leaf => simp
  | red _ _ _ _ ihl ihr => simp; omega
  | black _ _ ihl ihr => simp [Nat.pow_succ]; omega

/-- A balanced tree with a black root is no higher than twice the logarithm of its size. -/
theorem Balanced.height_le_log {t : ColorTree α} {n : Nat} (h : t.Balanced n) (hc : t.color = .black) :
    t.height ≤ 2 * Nat.log2 (t.toList.length + 1) := by
  have hh := h.height_le
  have hn : n ≤ Nat.log2 (t.toList.length + 1) := (Nat.le_log2 (by omega)).2 h.two_pow_le
  simp only [hc] at hh
  simp at hh
  omega

end ColorTree

open ColorTree

/-! ## Holes -/

/-- A node above the hole: the side of it that the hole is on, and what is on the other. -/
structure Frame (α : Type) where
  side : Side
  color : Color
  node : α
  sibling : ColorTree α
  deriving DecidableEq, Repr

/-- The frames from the hole up. -/
abbrev Spine (α : Type) := List (Frame α)

def Frame.fill (f : Frame α) (t : ColorTree α) : ColorTree α := branch f.side f.color t f.node f.sibling

def plug (t : ColorTree α) : Spine α → ColorTree α
  | [] => t
  | f :: path => plug (f.fill t) path

@[simp] theorem plug_nil (t : ColorTree α) : plug t [] = t := rfl
@[simp] theorem plug_cons (t : ColorTree α) (f : Frame α) (path : Spine α) : plug t (f :: path) = plug (f.fill t) path := rfl

theorem plug_append (t : ColorTree α) (path path' : Spine α) : plug t (path ++ path') = plug (plug t path) path' := by
  induction path generalizing t with
  | nil => rfl
  | cons f path ih => exact ih (f.fill t)

/-- The node right above the hole. -/
def top (path : Spine α) : Option α := path.head?.map Frame.node

/-- What comes before the hole. -/
def before : Spine α → List α
  | [] => []
  | f :: path => before path ++ (match f.side with | .left => [] | .right => f.sibling.toList ++ [f.node])

/-- What comes after the hole. -/
def after : Spine α → List α
  | [] => []
  | f :: path => (match f.side with | .left => f.node :: f.sibling.toList | .right => []) ++ after path

/-- The nodes of a tree with a hole, from the hole up. -/
def nodes (path : Spine α) : List α := path.flatMap fun f => f.node :: f.sibling.toList

@[simp] theorem top_nil : top ([] : Spine α) = none := rfl
@[simp] theorem top_cons (f : Frame α) (path : Spine α) : top (f :: path) = some f.node := rfl
@[simp] theorem nodes_nil : nodes ([] : Spine α) = [] := rfl
@[simp] theorem nodes_cons (f : Frame α) (path : Spine α) :
    nodes (f :: path) = f.node :: (f.sibling.toList ++ nodes path) := by
  simp [nodes]

@[simp] theorem nodes_append (path path' : Spine α) :
    nodes (path ++ path') = nodes path ++ nodes path' := List.flatMap_append

theorem toList_plug (t : ColorTree α) (path : Spine α) : (plug t path).toList = before path ++ t.toList ++ after path := by
  induction path generalizing t with
  | nil => simp [before, after]
  | cons f path ih =>
    rw [plug_cons, ih, Frame.fill, before, after]
    cases f.side <;> simp [branch]

theorem toList_plug_congr {t t' : ColorTree α} (h : t.toList = t'.toList) (path : Spine α) :
    (plug t path).toList = (plug t' path).toList := by
  rw [toList_plug, toList_plug, h]

theorem height_plug (t : ColorTree α) (path : Spine α) : t.height + path.length ≤ (plug t path).height := by
  induction path generalizing t with
  | nil => simp
  | cons f path ih =>
    refine Nat.le_trans ?_ (ih (f.fill t))
    simp only [Frame.fill, List.length_cons]
    cases f.side <;> simp [branch, height] <;> omega

theorem mem_nodes {path : Spine α} {x : α} : x ∈ nodes path ↔ x ∈ before path ∨ x ∈ after path := by
  induction path with
  | nil => simp [before, after]
  | cons f path ih =>
    rw [nodes_cons, before, after]
    cases f.side <;> simp [ih] <;> tauto

theorem top_mem {path : Spine α} {x : α} (h : top path = some x) : x ∈ nodes path := by
  cases path with
  | nil => cases h
  | cons f path => simp_all

theorem plug_perm (t : ColorTree α) (path : Spine α) : (plug t path).toList.Perm (t.toList ++ nodes path) := by
  induction path generalizing t with
  | nil => simp
  | cons f path ih =>
    refine (ih (f.fill t)).trans ?_
    rw [nodes_cons]
    refine ((toList_branch_perm f.side f.color t f.node f.sibling).append_right (nodes path)).trans ?_
    have hmiddle : (t.toList ++ f.node :: (f.sibling.toList ++ nodes path)).Perm
        (f.node :: (t.toList ++ (f.sibling.toList ++ nodes path))) :=
      List.perm_middle
    simpa using hmiddle.symm

theorem root_plug_congr {t t' : ColorTree α} (h : t.root = t'.root) (path : Spine α) :
    (plug t path).root = (plug t' path).root := by
  induction path generalizing t t' with
  | nil => exact h
  | cons f path ih => exact ih (by simp [Frame.fill])

/-- Below a hole nothing but the hole decides the root. -/
theorem root_plug_cons (t t' : ColorTree α) (f : Frame α) (path : Spine α) :
    (plug t (f :: path)).root = (plug t' (f :: path)).root := root_plug_congr (by simp [Frame.fill]) path

/-- The root of a tree with a hole is above the hole. -/
theorem exists_root_plug (t : ColorTree α) (f : Frame α) (path : Spine α) :
    ∃ r ∈ nodes (f :: path), (plug t (f :: path)).root = some r := by
  induction path generalizing t f with
  | nil => exact ⟨f.node, by simp, by simp [Frame.fill]⟩
  | cons g path ih =>
    obtain ⟨r, hr, hroot⟩ := ih (f.fill t) g
    refine ⟨r, ?_, hroot⟩
    rw [nodes_cons]
    exact List.mem_cons_of_mem _ (List.mem_append_right _ hr)

/-- A node of a tree, and the tree with a hole around it. -/
theorem exists_plug {t : ColorTree α} {x : α} (hx : x ∈ t.toList) : ∃ c l r path, t = plug (node c l x r) path := by
  induction t with
  | leaf => cases hx
  | node c l y r ihl ihr =>
    simp only [toList_node, List.mem_append, List.mem_cons] at hx
    rcases hx with hx | rfl | hx
    · obtain ⟨c', l', r', path, rfl⟩ := ihl hx
      exact ⟨c', l', r', path ++ [⟨.left, c, y, r⟩], by rw [plug_append]; rfl⟩
    · exact ⟨c, l, r, [], rfl⟩
    · obtain ⟨c', l', r', path, rfl⟩ := ihr hx
      exact ⟨c', l', r', path ++ [⟨.right, c, y, l⟩], by rw [plug_append]; rfl⟩

theorem before_append (path path' : Spine α) : before (path ++ path') = before path' ++ before path := by
  induction path with
  | nil => simp [before]
  | cons f path ih => simp [before, ih]

theorem after_append (path path' : Spine α) : after (path ++ path') = after path ++ after path' := by
  induction path with
  | nil => rfl
  | cons f path ih => simp [after, ih]

theorem before_eq_nil {path : Spine α} (h : ∀ f ∈ path, f.side = .left) : before path = [] := by
  induction path with
  | nil => rfl
  | cons f path ih =>
    rw [before, ih (fun g hg => h g (List.mem_cons_of_mem f hg)), h f List.mem_cons_self]
    rfl

/-- What comes after the hole, for one who comes from side `d`. -/
def afterFrom (d : Side) : Spine α → List α
  | [] => []
  | f :: path => (if f.side = d then f.node :: f.sibling.listFrom d else []) ++ afterFrom d path

theorem listFrom_plug (d : Side) (t : ColorTree α) (path : Spine α) :
    (plug t path).listFrom d = (afterFrom d.other path).reverse ++ (t.listFrom d ++ afterFrom d path) := by
  induction path generalizing t with
  | nil => simp [afterFrom]
  | cons f path ih =>
    obtain ⟨k, c, x, s⟩ := f
    rw [plug_cons, ih, Frame.fill, afterFrom, afterFrom]
    rcases Side.eq_or_other d k with rfl | rfl
    · simp [listFrom_branch, Ne.symm (Side.other_ne k)]
    · rw [branch_other, listFrom_branch]
      simp [Side.other_ne, reverse_listFrom_other]

theorem afterFrom_eq_nil {d : Side} {path : Spine α} (h : ∀ f ∈ path, f.side = d.other) : afterFrom d path = [] := by
  induction path with
  | nil => rfl
  | cons f path ih =>
    rw [afterFrom, ih (fun g hg => h g (List.mem_cons_of_mem f hg)), h f List.mem_cons_self]
    simp [Side.other_ne]

/-! ## Balanced trees with a hole -/

/-- There is a node above the hole, and it is black. -/
def BlackTop (path : Spine α) : Prop := path.head?.map Frame.color = some .black

/-- The hole wants a tree of black height `n`. -/
def Fits : Spine α → Nat → Prop
  | [], _ => True
  | f :: path, n =>
    f.sibling.Balanced n ∧
      (match f.color with
      | .black => Fits path (n + 1)
      | .red => f.sibling.color = .black ∧ BlackTop path ∧ Fits path n)

@[simp] theorem blackTop_nil : ¬ BlackTop ([] : Spine α) := by simp [BlackTop]
@[simp] theorem blackTop_cons (f : Frame α) (path : Spine α) : BlackTop (f :: path) ↔ f.color = .black := by simp [BlackTop]

theorem fits_black {d : Side} {x : α} {s : ColorTree α} {path : Spine α} {n : Nat} :
    Fits (⟨d, .black, x, s⟩ :: path) n ↔ s.Balanced n ∧ Fits path (n + 1) := Iff.rfl

theorem fits_red {d : Side} {x : α} {s : ColorTree α} {path : Spine α} {n : Nat} :
    Fits (⟨d, .red, x, s⟩ :: path) n ↔ s.Balanced n ∧ s.color = .black ∧ BlackTop path ∧ Fits path n := Iff.rfl

/-- Which nodes there are does not matter. -/
theorem fits_rename {d : Side} {c : Color} {x y : α} {s : ColorTree α} {q path : Spine α} {n : Nat} :
    Fits (q ++ ⟨d, c, x, s⟩ :: path) n ↔ Fits (q ++ ⟨d, c, y, s⟩ :: path) n := by
  induction q generalizing n with
  | nil => exact Iff.rfl
  | cons f q ih =>
    have htop : BlackTop (q ++ ⟨d, c, x, s⟩ :: path) ↔ BlackTop (q ++ ⟨d, c, y, s⟩ :: path) := by
      cases q <;> simp
    obtain ⟨k, c', z, u⟩ := f
    cases c' with
    | black => exact and_congr_right fun _ => ih
    | red => exact and_congr_right fun _ => and_congr_right fun _ => and_congr htop ih

/-- A balanced tree whose root is black. -/
def WellColored (t : ColorTree α) : Prop := t.color = .black ∧ ∃ n, t.Balanced n

theorem wellColored_blacken {t : ColorTree α} {n : Nat} (h : t.Balanced n) : WellColored t.blacken := by
  exact ⟨color_blacken t, h.blacken⟩

/-- **Filling a hole with what it wants.** -/
theorem wellColored_plug {t : ColorTree α} {path : Spine α} {n : Nat} (ht : t.Balanced n) (hp : Fits path n)
    (hc : t.color = .red → BlackTop path) : WellColored (plug t path) := by
  induction path generalizing t n with
  | nil =>
    refine ⟨?_, n, ht⟩
    cases h : t.color with
    | black => exact h
    | red => exact absurd (hc h) blackTop_nil
  | cons f path ih =>
    obtain ⟨d, c, x, s⟩ := f
    cases c with
    | black =>
      obtain ⟨hs, hp⟩ := fits_black.1 hp
      refine ih (balanced_black.2 ⟨ht, hs⟩) hp (fun hcr => ?_)
      simp [Frame.fill] at hcr
    | red =>
      obtain ⟨hs, hsc, htop, hp⟩ := fits_red.1 hp
      have htc : t.color = .black := by
        cases h : t.color with
        | black => rfl
        | red => simpa using hc h
      exact ih (balanced_red.2 ⟨htc, hsc, ht, hs⟩) hp (fun _ => htop)

/-- What a hole in a balanced tree wants is what was there. -/
theorem fits_of_plug {t : ColorTree α} {path : Spine α} (h : WellColored (plug t path)) :
    ∃ n, t.Balanced n ∧ Fits path n ∧ (t.color = .red → BlackTop path) := by
  induction path generalizing t with
  | nil =>
    obtain ⟨hc, n, hn⟩ := h
    exact ⟨n, hn, trivial, fun hr => by simp_all⟩
  | cons f path ih =>
    obtain ⟨n, hb, hp, hc⟩ := ih h
    obtain ⟨d, c, x, s⟩ := f
    cases c with
    | black =>
      obtain ⟨m, rfl⟩ := Nat.exists_eq_succ_of_ne_zero (Balanced.ne_zero hb)
      obtain ⟨ht, hs⟩ := balanced_black.1 hb
      exact ⟨m, ht, fits_black.2 ⟨hs, hp⟩, fun _ => by simp⟩
    | red =>
      obtain ⟨htc, hsc, ht, hs⟩ := balanced_red.1 hb
      exact ⟨n, ht, fits_red.2 ⟨hs, hsc, hc (by simp [Frame.fill]), hp⟩, fun hr => by simp_all⟩

end Redblack
