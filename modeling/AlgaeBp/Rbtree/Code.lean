import AlgaeBp.Lib.Redblack
import Mathlib.Logic.Function.Basic
/-!
# The red-black trees of `tree.h`

What `RB_GENERATE` expands to. The entry of a node lies in the node, with
pointers to its children and to its parent; `NULL` is `none`. `cmp` compares
what nodes hold besides their entries.

A `NULL` that is dereferenced gives no result. So does a loop that runs out of
`fuel`, which counts its turns. `RB_AUGMENT` is empty.
-/
open Redblack

namespace AlgaeBp.Rbtree

/-- `RB_ENTRY`. -/
structure Entry (α : Type) where
  left : Option α
  right : Option α
  parent : Option α
  color : Color
  deriving DecidableEq, Repr

/-- `RB_LEFT` or `RB_RIGHT`. -/
def Entry.child (e : Entry α) : Side → Option α
  | .left => e.left
  | .right => e.right

def Entry.setChild (e : Entry α) (d : Side) (v : Option α) : Entry α :=
  match d with
  | .left => { e with left := v }
  | .right => { e with right := v }

def Entry.setParent (e : Entry α) (v : Option α) : Entry α := { e with parent := v }

def Entry.setColor (e : Entry α) (c : Color) : Entry α := { e with color := c }

/-- `RB_HEAD`, and the entries of all nodes there are. -/
structure Heap (α : Type) where
  root : Option α
  entry : α → Entry α

variable {α : Type} [DecidableEq α]

namespace Heap

def set (h : Heap α) (x : α) (e : Entry α) : Heap α := { h with entry := Function.update h.entry x e }

def setChild (h : Heap α) (d : Side) (x : α) (v : Option α) : Heap α := h.set x ((h.entry x).setChild d v)

def setParent (h : Heap α) (x : α) (v : Option α) : Heap α := h.set x ((h.entry x).setParent v)

def setColor (h : Heap α) (x : α) (c : Color) : Heap α := h.set x ((h.entry x).setColor c)

/-- `RB_INIT`. -/
def init (h : Heap α) : Heap α := { h with root := none }

/-- `o && RB_COLOR(o) == RB_RED`. -/
def isRed (h : Heap α) : Option α → Bool
  | none => false
  | some x => (h.entry x).color = .red

/-- The parent of `o`, if that is a node. -/
def adopt (h : Heap α) (o : Option α) (parent : Option α) : Heap α :=
  match o with
  | none => h
  | some x => h.setParent x parent

/-- What hangs on `parent`, or on the head, where `elm` does. -/
def replace (h : Heap α) (parent : Option α) (elm : α) (new : Option α) : Heap α :=
  match parent with
  | none => { h with root := new }
  | some p => if (h.entry p).left = some elm then h.setChild .left p new else h.setChild .right p new

/-- `RB_SET`. -/
def rbSet (h : Heap α) (elm : α) (parent : Option α) : Heap α := h.set elm ⟨none, none, parent, .red⟩

/-- `RB_SET_BLACKRED`. -/
def setBlackred (h : Heap α) (black red : α) : Heap α := (h.setColor black .black).setColor red .red

end Heap

/-- The side of its parent that a node hangs on: `elm == RB_LEFT(parent)`. -/
def sideOf (h : Heap α) (parent : α) (elm : Option α) : Side := if (h.entry parent).left = elm then .left else .right

/-! ## Rotations -/

/-- `elm` goes down on side `d`, its child of the other side comes up. -/
def rotate (d : Side) (h : Heap α) (elm : α) : Option (Heap α) :=
  match (h.entry elm).child d.other with
  | none => none
  | some tmp =>
    let inner := (h.entry tmp).child d
    let h := h.setChild d.other elm inner
    let h := h.adopt inner (some elm)
    let h := h.setParent tmp (h.entry elm).parent
    let h := h.replace (h.entry elm).parent elm (some tmp)
    let h := h.setChild d tmp (some elm)
    some (h.setParent elm (some tmp))

/-- `RB_ROTATE_LEFT`. -/
def rotateLeft (h : Heap α) (elm : α) : Option (Heap α) := rotate .left h elm

/-- `RB_ROTATE_RIGHT`. -/
def rotateRight (h : Heap α) (elm : α) : Option (Heap α) := rotate .right h elm

/-! ## `RB_INSERT` -/

/-- The two turns when the uncle of `elm` is black: `parent` is on side `d` of `gparent`. The node that goes on as `elm`. -/
def insertRotate (d : Side) (h : Heap α) (elm parent gparent : α) : Option (Heap α × α) :=
  if (h.entry parent).child d.other = some elm then
    (rotate d h parent).bind fun h =>
      (rotate d.other (h.setBlackred elm gparent) gparent).map fun h => (h, parent)
  else (rotate d.other (h.setBlackred parent gparent) gparent).map fun h => (h, elm)

/-- The body of the loop of `RB_INSERT_COLOR`. -/
def insertTurn (d : Side) (h : Heap α) (elm parent gparent : α) : Option (Heap α × α) :=
  match (h.entry gparent).child d.other with
  | some tmp =>
    if (h.entry tmp).color = .red then some ((h.setColor tmp .black).setBlackred parent gparent, gparent)
    else insertRotate d h elm parent gparent
  | none => insertRotate d h elm parent gparent

/-- The loop of `RB_INSERT_COLOR`. -/
def insertColorLoop : Nat → Heap α → α → Option (Heap α)
  | 0, _, _ => none
  | fuel + 1, h, elm =>
    match (h.entry elm).parent with
    | none => some h
    | some parent =>
      if (h.entry parent).color = .red then
        (h.entry parent).parent.bind fun gparent =>
          (insertTurn (sideOf h gparent (some parent)) h elm parent gparent).bind fun r => insertColorLoop fuel r.1 r.2
      else some h

/-- `RB_INSERT_COLOR`. -/
def rbInsertColor (fuel : Nat) (h : Heap α) (elm : α) : Option (Heap α) :=
  (insertColorLoop fuel h elm).bind fun h => h.root.map fun x => h.setColor x .black

/-- The loop of `RB_INSERT`: the node with this key, or the last node and how `elm` compares to it. -/
def insertSearch (cmp : α → α → Ordering) (h : Heap α) (elm : α) : Nat → Option α → Option (α × Side) →
    Option (α ⊕ Option (α × Side))
  | 0, _, _ => none
  | _ + 1, none, parent => some (.inr parent)
  | fuel + 1, some tmp, _ =>
    match cmp elm tmp with
    | .lt => insertSearch cmp h elm fuel (h.entry tmp).left (some (tmp, .left))
    | .gt => insertSearch cmp h elm fuel (h.entry tmp).right (some (tmp, .right))
    | .eq => some (.inl tmp)

/-- `RB_INSERT`: the node that is there already, if there is one. -/
def rbInsert (cmp : α → α → Ordering) (fuel : Nat) (h : Heap α) (elm : α) : Option (Heap α × Option α) :=
  (insertSearch cmp h elm fuel h.root none).bind fun
  | .inl tmp => some (h, some tmp)
  | .inr parent =>
    let h := h.rbSet elm (parent.map Prod.fst)
    let h := match parent with
      | none => { h with root := some elm }
      | some (p, d) => h.setChild d p (some elm)
    (rbInsertColor fuel h elm).map fun h => (h, none)

/-! ## `RB_REMOVE` -/

/-- The turn of `RB_REMOVE_COLOR` when the sibling `tmp` is red: the sibling after it. -/
def siblingTurn (d : Side) (h : Heap α) (parent tmp : α) : Option (Heap α × α) :=
  if (h.entry tmp).color = .red then
    (rotate d (h.setBlackred tmp parent) parent).bind fun h => ((h.entry parent).child d.other).map fun tmp => (h, tmp)
  else some (h, tmp)

/-- The turn of `RB_REMOVE_COLOR` when the far child of the sibling `tmp` is black: the sibling after it. -/
def nephewTurn (d : Side) (h : Heap α) (parent tmp : α) : Option (Heap α × α) :=
  if h.isRed ((h.entry tmp).child d.other) then some (h, tmp)
  else
    let near := (h.entry tmp).child d
    let h := match near with
      | none => h
      | some x => h.setColor x .black
    (rotate d.other (h.setColor tmp .red) tmp).bind fun h => ((h.entry parent).child d.other).map fun tmp => (h, tmp)

/-- The last turn of `RB_REMOVE_COLOR`. -/
def lastTurn (d : Side) (h : Heap α) (parent tmp : α) : Option (Heap α) :=
  let h := h.setColor tmp (h.entry parent).color
  let h := h.setColor parent .black
  let h := match (h.entry tmp).child d.other with
    | none => h
    | some x => h.setColor x .black
  rotate d h parent

/-- The loop of `RB_REMOVE_COLOR`: what `elm` is at its end. -/
def removeColorLoop : Nat → Heap α → Option α → Option α → Option (Heap α × Option α)
  | 0, _, _, _ => none
  | fuel + 1, h, parent, elm =>
    if h.isRed elm ∨ elm = h.root then some (h, elm)
    else
      parent.bind fun parent =>
        let d := sideOf h parent elm
        ((h.entry parent).child d.other).bind fun tmp =>
          (siblingTurn d h parent tmp).bind fun (h, tmp) =>
            if h.isRed (h.entry tmp).left ∨ h.isRed (h.entry tmp).right then
              (nephewTurn d h parent tmp).bind fun (h, tmp) => (lastTurn d h parent tmp).map fun h => (h, h.root)
            else removeColorLoop fuel (h.setColor tmp .red) (h.entry parent).parent (some parent)

/-- `RB_REMOVE_COLOR`. -/
def rbRemoveColor (fuel : Nat) (h : Heap α) (parent elm : Option α) : Option (Heap α) :=
  (removeColorLoop fuel h parent elm).map fun (h, elm) =>
    match elm with
    | none => h
    | some x => h.setColor x .black

/-- The node that a loop over `RB_LEFT` or `RB_RIGHT` ends at. -/
def outermost (d : Side) (h : Heap α) : Nat → α → Option α
  | 0, _ => none
  | fuel + 1, elm =>
    match (h.entry elm).child d with
    | none => some elm
    | some x => outermost d h fuel x

/-- `child` takes the place of `elm` below its parent. -/
def bypass (h : Heap α) (elm : α) (child parent : Option α) : Heap α := (h.adopt child parent).replace parent elm child

/-- `elm` gets the entry of `old`, and what points to `old` points to `elm`. -/
def takePlace (h : Heap α) (old elm : α) : Option (Heap α) :=
  let h := h.set elm (h.entry old)
  let h := h.replace (h.entry old).parent old (some elm)
  (h.entry old).left.map fun left =>
    let h := h.setParent left (some elm)
    h.adopt (h.entry old).right (some elm)

/-- What `RB_REMOVE` does with `old`, which has two children: its successor takes its place. -/
def removeInner (fuel : Nat) (h : Heap α) (old right : α) : Option (Heap α) :=
  (outermost .left h fuel right).bind fun elm =>
    let child := (h.entry elm).right
    let parent := (h.entry elm).parent
    let color := (h.entry elm).color
    let h := bypass h elm child parent
    let parent := if (h.entry elm).parent = some old then some elm else parent
    (takePlace h old elm).bind fun h => if color = .black then rbRemoveColor fuel h parent child else some h

/-- `RB_REMOVE`. -/
def rbRemove (fuel : Nat) (h : Heap α) (elm : α) : Option (Heap α) :=
  match (h.entry elm).left, (h.entry elm).right with
  | some _, some right => removeInner fuel h elm right
  | none, child | child, none =>
    let parent := (h.entry elm).parent
    let color := (h.entry elm).color
    let h := bypass h elm child parent
    if color = .black then rbRemoveColor fuel h parent child else some h

/-! ## Looking -/

/-- `RB_FIND`. -/
def rbFind (cmp : α → α → Ordering) (h : Heap α) (elm : α) : Nat → Option α → Option (Option α)
  | 0, _ => none
  | _ + 1, none => some none
  | fuel + 1, some tmp =>
    match cmp elm tmp with
    | .lt => rbFind cmp h elm fuel (h.entry tmp).left
    | .gt => rbFind cmp h elm fuel (h.entry tmp).right
    | .eq => some (some tmp)

/-- `RB_NFIND`, with what `res` is so far. -/
def rbNfind (cmp : α → α → Ordering) (h : Heap α) (elm : α) : Nat → Option α → Option α → Option (Option α)
  | 0, _, _ => none
  | _ + 1, none, res => some res
  | fuel + 1, some tmp, res =>
    match cmp elm tmp with
    | .lt => rbNfind cmp h elm fuel (h.entry tmp).left (some tmp)
    | .gt => rbNfind cmp h elm fuel (h.entry tmp).right res
    | .eq => some (some tmp)

/-- `RB_MIN` and `RB_MAX`: the loop of `RB_MINMAX` on side `d`, with what `parent` is so far. -/
def rbMinmax (d : Side) (h : Heap α) : Nat → Option α → Option α → Option (Option α)
  | 0, _, _ => none
  | _ + 1, none, parent => some parent
  | fuel + 1, some tmp, _ => rbMinmax d h fuel ((h.entry tmp).child d) (some tmp)

/-- Up from `elm` as long as that hangs on side `d` of its parent, then once more. -/
def climb (d : Side) (h : Heap α) : Nat → α → Option (Option α)
  | 0, _ => none
  | fuel + 1, elm =>
    match (h.entry elm).parent with
    | none => some none
    | some p => if (h.entry p).child d = some elm then climb d h fuel p else some (some p)

/-- `RB_NEXT`, or `RB_PREV`: `d` is where smaller, or larger, nodes are. -/
def rbStep (d : Side) (fuel : Nat) (h : Heap α) (elm : α) : Option (Option α) :=
  match (h.entry elm).child d.other with
  | some x => (outermost d h fuel x).map some
  | none =>
    match (h.entry elm).parent with
    | some p => if (h.entry p).child d = some elm then some (some p) else climb d.other h fuel elm
    | none => climb d.other h fuel elm

/-- `RB_NEXT`. -/
def rbNext (fuel : Nat) (h : Heap α) (elm : α) : Option (Option α) := rbStep .left fuel h elm

/-- `RB_PREV`. -/
def rbPrev (fuel : Nat) (h : Heap α) (elm : α) : Option (Option α) := rbStep .right fuel h elm

/-- The nodes a loop that starts at `elm` and goes on with `RB_NEXT` or `RB_PREV` sees. -/
def stepAll (d : Side) (fuel : Nat) (h : Heap α) : Nat → Option α → Option (List α)
  | _, none => some []
  | 0, some _ => none
  | turns + 1, some elm => (rbStep d fuel h elm).bind fun next => (stepAll d fuel h turns next).map (elm :: ·)

/-- `RB_FOREACH`: the nodes, in the order in which the loop sees them. -/
def rbForeach (fuel : Nat) (h : Heap α) : Option (List α) :=
  (rbMinmax .left h fuel h.root none).bind (stepAll .left fuel h fuel)

/-- `RB_FOREACH_REVERSE`. -/
def rbForeachReverse (fuel : Nat) (h : Heap α) : Option (List α) :=
  (rbMinmax .right h fuel h.root none).bind (stepAll .right fuel h fuel)

end AlgaeBp.Rbtree
