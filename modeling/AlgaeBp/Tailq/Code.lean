import Mathlib.Logic.Function.Basic
import Mathlib.Tactic.Common
/-!
# The tail queues of `queue.h`

A head has a pointer to the first element and the address of the last pointer
of the queue; an element has a pointer to the next one and the address of the
pointer that points at it. Several heads, of type `ι`, are in one memory with
all elements, of type `α`.

`TAILQ_LAST` and `TAILQ_PREV` take the entry of an element for a head. It is
laid out like one.
-/

namespace AlgaeBp.Tailq

/-- Where a pointer to an element is: `tqh_first` of a head or `tqe_next` of an element. -/
inductive Loc (ι α : Type) where
  | first (head : ι)
  | next (elm : α)
  deriving DecidableEq, Repr

structure Heap (ι α : Type) where
  tqhFirst : ι → Option α
  tqhLast : ι → Loc ι α
  tqeNext : α → Option α
  tqePrev : α → Loc ι α

variable {ι α : Type} [DecidableEq ι] [DecidableEq α]

namespace Heap

/-- What the pointer at `s` is. -/
def get (h : Heap ι α) : Loc ι α → Option α
  | .first head => h.tqhFirst head
  | .next elm => h.tqeNext elm

def put (h : Heap ι α) (s : Loc ι α) (v : Option α) : Heap ι α :=
  match s with
  | .first head => { h with tqhFirst := Function.update h.tqhFirst head v }
  | .next elm => { h with tqeNext := Function.update h.tqeNext elm v }

def setLast (h : Heap ι α) (head : ι) (s : Loc ι α) : Heap ι α := { h with tqhLast := Function.update h.tqhLast head s }

def setPrev (h : Heap ι α) (elm : α) (s : Loc ι α) : Heap ι α := { h with tqePrev := Function.update h.tqePrev elm s }

/-- `tqh_last` of what begins at `s`, if that is a head. Of an element it is `tqe_prev`. -/
def lastAt (h : Heap ι α) : Loc ι α → Loc ι α
  | .first head => h.tqhLast head
  | .next elm => h.tqePrev elm

end Heap

/-- `TAILQ_INIT`. -/
def tailqInit (h : Heap ι α) (head : ι) : Heap ι α := (h.put (.first head) none).setLast head (.first head)

/-- `TAILQ_FIRST`. -/
def tailqFirst (h : Heap ι α) (head : ι) : Option α := h.tqhFirst head

/-- `TAILQ_NEXT`. -/
def tailqNext (h : Heap ι α) (elm : α) : Option α := h.tqeNext elm

/-- `TAILQ_LAST`. -/
def tailqLast (h : Heap ι α) (head : ι) : Option α := h.get (h.lastAt (h.tqhLast head))

/-- `TAILQ_PREV`. -/
def tailqPrev (h : Heap ι α) (elm : α) : Option α := h.get (h.lastAt (h.tqePrev elm))

/-- `TAILQ_EMPTY`. -/
def tailqEmpty (h : Heap ι α) (head : ι) : Bool := (tailqFirst h head).isNone

/-- What is after `elm` now has this address to point back with: the next element, or the head. -/
def relink (h : Heap ι α) (head : ι) (next : Option α) (s : Loc ι α) : Heap ι α :=
  match next with
  | some x => h.setPrev x s
  | none => h.setLast head s

/-- `TAILQ_INSERT_HEAD`. -/
def tailqInsertHead (h : Heap ι α) (head : ι) (elm : α) : Heap ι α :=
  let h := h.put (.next elm) (h.tqhFirst head)
  let h := relink h head (h.tqeNext elm) (.next elm)
  let h := h.put (.first head) (some elm)
  h.setPrev elm (.first head)

/-- `TAILQ_INSERT_TAIL`. -/
def tailqInsertTail (h : Heap ι α) (head : ι) (elm : α) : Heap ι α :=
  let h := h.put (.next elm) none
  let h := h.setPrev elm (h.tqhLast head)
  let h := h.put (h.tqhLast head) (some elm)
  h.setLast head (.next elm)

/-- `TAILQ_INSERT_AFTER`. -/
def tailqInsertAfter (h : Heap ι α) (head : ι) (listelm elm : α) : Heap ι α :=
  let h := h.put (.next elm) (h.tqeNext listelm)
  let h := relink h head (h.tqeNext elm) (.next elm)
  let h := h.put (.next listelm) (some elm)
  h.setPrev elm (.next listelm)

/-- `TAILQ_INSERT_BEFORE`. -/
def tailqInsertBefore (h : Heap ι α) (listelm elm : α) : Heap ι α :=
  let h := h.setPrev elm (h.tqePrev listelm)
  let h := h.put (.next elm) (some listelm)
  let h := h.put (h.tqePrev listelm) (some elm)
  h.setPrev listelm (.next elm)

/-- `TAILQ_REMOVE`. -/
def tailqRemove (h : Heap ι α) (head : ι) (elm : α) : Heap ι α :=
  let h := relink h head (h.tqeNext elm) (h.tqePrev elm)
  h.put (h.tqePrev elm) (h.tqeNext elm)

/-- `TAILQ_REPLACE`. -/
def tailqReplace (h : Heap ι α) (head : ι) (elm elm2 : α) : Heap ι α :=
  let h := h.put (.next elm2) (h.tqeNext elm)
  let h := relink h head (h.tqeNext elm2) (.next elm2)
  let h := h.setPrev elm2 (h.tqePrev elm)
  h.put (h.tqePrev elm2) (some elm2)

/-- `TAILQ_CONCAT`. -/
def tailqConcat (h : Heap ι α) (head1 head2 : ι) : Heap ι α :=
  match h.tqhFirst head2 with
  | none => h
  | some x =>
    let h := h.put (h.tqhLast head1) (some x)
    let h := h.setPrev x (h.tqhLast head1)
    let h := h.setLast head1 (h.tqhLast head2)
    tailqInit h head2

/-- The elements a loop sees that starts at `var` and goes on with `step`, in no more than `fuel` turns. -/
def walk (step : α → Option α) : Nat → Option α → Option (List α)
  | _, none => some []
  | 0, some _ => none
  | fuel + 1, some var => (walk step fuel (step var)).map (var :: ·)

/-- `TAILQ_FOREACH`. -/
def tailqForeach (fuel : Nat) (h : Heap ι α) (head : ι) : Option (List α) := walk (tailqNext h) fuel (tailqFirst h head)

/-- `TAILQ_FOREACH_REVERSE`. -/
def tailqForeachReverse (fuel : Nat) (h : Heap ι α) (head : ι) : Option (List α) :=
  walk (tailqPrev h) fuel (tailqLast h head)

/-- `TAILQ_FOREACH_SAFE`, from `var` on. The next element is read before the body has run. -/
def tailqForeachSafe (body : Heap ι α → α → Heap ι α) : Nat → Heap ι α → Option α → Option (Heap ι α)
  | _, h, none => some h
  | 0, _, some _ => none
  | fuel + 1, h, some var => tailqForeachSafe body fuel (body h var) (tailqNext h var)

/-! ## The loops of `ev.c` -/

/-- `aloe_ev_once`: "move out the triggered event". -/
def moveOut (triggered : α → Bool) (src dst : ι) (fuel : Nat) (h : Heap ι α) : Option (Heap ι α) :=
  tailqForeachSafe (fun h x => if triggered x then tailqInsertTail (tailqRemove h src x) dst x
    else h) fuel h (tailqFirst h src)

/-- The loop of `fd_q_find` and `noti_q_find`, from `var` on. -/
def seek (p : α → Bool) (h : Heap ι α) : Nat → Option α → Option (Option α)
  | _, none => some none
  | 0, some _ => none
  | fuel + 1, some var => if p var then some (some var) else seek p h fuel (tailqNext h var)

def notiQFind (fuel : Nat) (h : Heap ι α) (q : ι) (evNoti : Option α) (pop : Bool) : Option (Option α × Heap ι α) :=
  let found := match evNoti with
    | none => some (tailqFirst h q)
    | some x => seek (· = x) h fuel (tailqFirst h q)
  found.map fun r =>
    match r with
    | some x => (some x, if pop then tailqRemove h q x else h)
    | none => (none, h)

end AlgaeBp.Tailq
