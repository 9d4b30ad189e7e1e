import Mathlib.Data.List.Sort
import Mathlib.Logic.Function.Basic
import AlgaeBp.Lib.Reentrant
/-!
# The `aloe_evb2` event loop: state and primitive operations

The state of one context (`struct aloe_evb2_ctx`), the handles it has
allocated, and the part of the kernel it uses: the epoll interest map and the
wake pipe. Handles are named by the order of their allocation. A list holds
the handles linked through it, in order; `fdmon_list`, `ready_list` and
`async_list` use the same link of a handle, `timer_list` another.

The log records what the outside world sees (results, callbacks, memory
released) and the moves between `async_list` and `timer_list`, newest first.
-/
open Reentrant

namespace AlgaeBp.Evb2

/-- A handle (`aloe_evb2_handle*`), by order of allocation. -/
abbrev Ptr := Nat

/-- A callback: user code, or the wake pipe's handler. -/
inductive Cb where
  | user (f : Nat)
  | asyncHandler
  deriving DecidableEq, Repr

/-- The bits of `flag2`. -/
structure Flag2 where
  oneshot : Bool := false
  dead : Bool := false
  internal : Bool := false
  deriving DecidableEq, Repr

/-- `struct aloe_evb2_handle`, less its links. `calloc` gives the default. -/
structure Handle where
  cb : Option Cb := none
  userData : Nat := 0
  fd : Int := 0
  timeoutMs : UInt64 := 0
  timeoutAt : UInt64 := 0
  flag : UInt32 := 0
  flag2 : Flag2 := {}
  noti : UInt32 := 0
  deriving DecidableEq, Repr

def uint64Max : UInt64 := 0xFFFFFFFFFFFFFFFF
/-- `ALOE_EVB2_INFINITE`. -/
def infinite : UInt64 := uint64Max
/-- `ALOE_EVB2_FD_TIMER`. -/
def fdTimer : Int := -1
def evb2MinRearmMs : UInt64 := 1
def evb2EpollMax : Nat := 32

def flagRead : UInt32 := 1
def flagWrite : UInt32 := 2
def flagExcept : UInt32 := 4
def flagTimeout : UInt32 := 8
def flagCancelled : UInt32 := 16

def epollIn : UInt32 := 0x001
def epollPri : UInt32 := 0x002
def epollOut : UInt32 := 0x004
def epollErr : UInt32 := 0x008
def epollHup : UInt32 := 0x010
def epollRdhup : UInt32 := 0x2000

inductive ListId where
  | fdmon | timer | ready | async
  deriving DecidableEq, Repr

/-- The lists that hold handles through the same link as `l`. -/
def ListId.sharing : ListId → List ListId
  | .timer => [.timer]
  | _ => [.fdmon, .ready, .async]

/-- What the log records. -/
inductive Event where
  /-- An add function handed out the handle. -/
  | added (h : Ptr)
  /-- The handle was linked into `async_list`. -/
  | queued (h : Ptr)
  /-- The handle, with this deadline, was taken off `async_list` to be installed. -/
  | popped (h : Ptr) (timeoutAt : UInt64)
  /-- The handle was taken off `async_list` to be cancelled. -/
  | dequeued (h : Ptr)
  /-- The handle was inserted into `timer_list` with this deadline. -/
  | armed (h : Ptr) (timeoutAt : UInt64)
  /-- `aloe_evb2_cancel` of the handle returned. -/
  | cancel (h : Ptr) (r : Int)
  /-- The callback was called by the dispatch loop. -/
  | dispatch (h : Ptr) (fd : Int) (noti : UInt32) (userData : Nat) (oneshot stopping : Bool)
  /-- That call returned. -/
  | returned (h : Ptr) (stopping : Bool)
  /-- The callback was called with `ALOE_EVB2_FLAG_CANCELLED`. -/
  | cancelled (h : Ptr) (fd : Int) (userData : Nat)
  | freed (h : Ptr)
  /-- `aloe_evb2_destroy` marked the context as stopping. -/
  | stopping
  | ctxFreed
  deriving DecidableEq, Repr

/-- The owner of `async_lock`. -/
inductive Who where
  | loop
  | producer (i : Nat)
  deriving DecidableEq, Repr

/-- A thread other than the loop thread inside `aloe_evb2_add_oneshot_timer`.
The block it has allocated is its own until it links it, so it is named then. -/
inductive Producer where
  /-- The handle is filled in, the mutex not yet taken. -/
  | filled (hd : Handle)
  | locked (hd : Handle)
  /-- On `async_list`, the wake byte not yet written. -/
  | linked (h : Ptr)
  | woken (h : Ptr)
  /-- It found the context stopping. -/
  | refused
  | done (r : Option Ptr)
  deriving DecidableEq, Repr

structure St where
  epfd : Int
  asyncPipe0 : Int
  asyncPipe1 : Int
  lists : ListId → List Ptr
  asyncLock : Option Who
  notifying : Option Ptr
  stopping : Bool
  inRun : Bool
  finalized : Bool
  /-- The context is allocated and not freed. -/
  alive : Bool
  heap : Ptr → Option Handle
  next : Nat
  /-- The kernel's interest in each descriptor. -/
  interest : Int → Option UInt32
  /-- Bytes in the wake pipe. -/
  pipe : Nat
  pipeCap : Nat
  producers : List Producer
  log : List Event

/-- Failures of `epoll_ctl` other than `EEXIST` and `ENOENT`. -/
inductive CtlErr where
  | ebadf | other
  deriving DecidableEq, Repr

inductive Errno where
  | enoent | eexist | ebadf | other
  deriving DecidableEq, Repr

def CtlErr.errno : CtlErr → Errno
  | .ebadf => .ebadf
  | .other => .other

inductive WaitRes where
  | eintr
  | error
  | events (evs : List (Int × UInt32))
  deriving DecidableEq, Repr

/-- What the environment decides in one operation. -/
structure Env where
  clock : UInt64 := 0
  mallocOk : Bool := true
  ctlErr : Option CtlErr := none
  wait : WaitRes := .events []
  mutexOk : Bool := true
  /-- The result of `epoll_create1`, negative on failure. -/
  epfd : Int := -1
  /-- The descriptors made by `pipe2`. -/
  pipeFds : Option (Int × Int) := none

inductive EpollCmd where
  | add | mod | del
  deriving DecidableEq, Repr

inductive CtxFd where
  | rd | wr | ep
  deriving DecidableEq, Repr

inductive Op where
  /-- Read the context's fields. -/
  | ctx
  | load (h : Ptr)
  | store (h : Ptr) (f : Handle → Handle)
  /-- Write `h->timeout_at`. -/
  | setTimeoutAt (h : Ptr) (t : UInt64)
  | calloc
  | free (h : Ptr)
  | callocCtx
  | mutexInit
  | epollCreate
  | pipe2
  | freeCtx
  | insertTail (l : ListId) (h : Ptr)
  | remove (l : ListId) (h : Ptr)
  | contains (l : ListId) (h : Ptr)
  | pop (l : ListId)
  /-- Follow the link of `h` in the list. -/
  | next (l : ListId) (h : Ptr)
  | timerInsert (h : Ptr)
  | setNotifying (o : Option Ptr)
  | setStopping
  | setInRun (b : Bool)
  | setFinalized
  | now
  | epollCtl (cmd : EpollCmd) (fd : Int) (ev : UInt32)
  | epollWait (timeout : Int)
  | close (f : CtxFd)
  | lock
  | unlock
  | pipeWrite
  | pipeRead
  | emit (e : Event)

def Op.Out : Op → Type
  | .ctx => St
  | .load _ => Handle
  | .calloc => Option Ptr
  | .callocCtx => Bool
  | .mutexInit => Bool
  | .epollCreate => Int
  | .pipe2 => Bool
  | .remove _ _ => Bool
  | .contains _ _ => Bool
  | .pop _ => Option Ptr
  | .next _ _ => Option Ptr
  | .now => UInt64
  | .epollCtl _ _ _ => Option Errno
  | .epollWait _ => WaitRes
  | .pipeRead => Nat
  | _ => Unit

/-! ## Updates of the state -/

namespace St

def setList (s : St) (l : ListId) (xs : List Ptr) : St := { s with lists := Function.update s.lists l xs }

def put (s : St) (h : Ptr) (hd : Handle) : St := { s with heap := Function.update s.heap h (some hd) }

def emit (s : St) (e : Event) : St := { s with log := e :: s.log }

/-- `free(h)`. -/
def release (s : St) (h : Ptr) : St :=
  { s with heap := Function.update s.heap h none, log := .freed h :: s.log }

/-- `calloc` of a handle. -/
def allocate (s : St) : St :=
  { s with heap := Function.update s.heap s.next (some {}), next := s.next + 1 }

/-- `calloc` of the context, with no descriptor open yet. -/
def fresh (s : St) : St :=
  { s with
    epfd := -1, asyncPipe0 := -1, asyncPipe1 := -1, lists := fun _ => [], asyncLock := none,
    notifying := none, stopping := false, inRun := false, finalized := false, alive := true }

def append (s : St) (l : ListId) (h : Ptr) : St := s.setList l (s.lists l ++ [h])

def unlink (s : St) (l : ListId) (h : Ptr) : St := s.setList l ((s.lists l).erase h)

/-- The deadline of a handle. -/
def deadline (s : St) (h : Ptr) : UInt64 := ((s.heap h).getD {}).timeoutAt

/-- `timer_insert`: before the first handle with a later deadline. -/
def arm (s : St) (h : Ptr) : St :=
  s.setList .timer ((s.lists .timer).orderedInsert (fun a b => s.deadline a < s.deadline b) h)

def setInterest (s : St) (fd : Int) (m : Option UInt32) : St :=
  { s with interest := Function.update s.interest fd m }

def Live (s : St) (h : Ptr) : Prop := (s.heap h).isSome = true

instance (s : St) (h : Ptr) : Decidable (s.Live h) := inferInstanceAs (Decidable (_ = true))

/-- A list can be walked: the context and every handle on it are allocated. -/
def Walkable (s : St) (l : ListId) : Prop := s.alive = true ∧ ∀ h ∈ s.lists l, s.Live h

instance (s : St) (l : ListId) : Decidable (s.Walkable l) := inferInstanceAs (Decidable (_ ∧ _))

/-- The link through which `l` holds handles is not in use in `h`. -/
def LinkFree (s : St) (l : ListId) (h : Ptr) : Prop := ∀ l' ∈ l.sharing, h ∉ s.lists l'

instance (s : St) (l : ListId) (h : Ptr) : Decidable (s.LinkFree l h) :=
  inferInstanceAs (Decidable (∀ l' ∈ l.sharing, h ∉ s.lists l'))

end St

/-- The element after `h` in a list. -/
def after (h : Ptr) : List Ptr → Option Ptr
  | [] => none
  | q :: qs => if q = h then qs.head? else after h qs

/-! ## Meaning of the operations -/

/-- Undefined unless `p`. -/
def need {α : Type} (p : Prop) [Decidable p] (a : α) : Res α := if p then .ok a else .fault

/-- `epoll_ctl` on a map from descriptors to masks. -/
def ctlResult (s : St) (err : Option CtlErr) (cmd : EpollCmd) (fd : Int) (ev : UInt32) : Option Errno × St :=
  match cmd, s.interest fd, err with
  | .add, some _, _ => (some .eexist, s)
  | .add, none, none => (none, s.setInterest fd (some ev))
  | .mod, none, _ => (some .enoent, s)
  | .mod, some _, none => (none, s.setInterest fd (some ev))
  | .del, none, _ => (some .enoent, s)
  | .del, some _, none => (none, s.setInterest fd none)
  | _, _, some e => (some e.errno, s)

section CtlResult

variable {s : St} {err : Option CtlErr} {c : CtlErr} {cmd : EpollCmd} {fd : Int} {ev x : UInt32}

theorem ctlResult_add (h : s.interest fd = none) :
    ctlResult s none .add fd ev = (none, s.setInterest fd (some ev)) := by
  delta ctlResult
  rw [h]

theorem ctlResult_add_known (h : s.interest fd = some x) : ctlResult s err .add fd ev = (some .eexist, s) := by
  delta ctlResult
  rw [h]

theorem ctlResult_mod (h : s.interest fd = some x) :
    ctlResult s none .mod fd ev = (none, s.setInterest fd (some ev)) := by
  delta ctlResult
  rw [h]

theorem ctlResult_del (h : s.interest fd = some x) :
    ctlResult s none .del fd ev = (none, s.setInterest fd none) := by
  delta ctlResult
  rw [h]

theorem ctlResult_del_unknown (h : s.interest fd = none) : ctlResult s err .del fd ev = (some .enoent, s) := by
  delta ctlResult
  rw [h]

/-- A request that fits the map fails with the error of the kernel. -/
theorem ctlResult_failed (h : cmd = .add ↔ s.interest fd = none) :
    ctlResult s (some c) cmd fd ev = (some c.errno, s) := by
  delta ctlResult
  cases hi : s.interest fd <;> cases cmd <;> first | rfl | simp [hi] at h

theorem ctlResult_interest (s : St) (err : Option CtlErr) (cmd : EpollCmd) (fd : Int) (ev : UInt32) :
    ∃ i, (ctlResult s err cmd fd ev).2 = { s with interest := i } := by
  delta ctlResult
  cases cmd <;> cases s.interest fd <;> cases err <;> exact ⟨_, rfl⟩

end CtlResult

def St.closeFd (s : St) : CtxFd → St
  | .rd => { s with asyncPipe0 := -1 }
  | .wr => { s with asyncPipe1 := -1 }
  | .ep => { s with epfd := -1, interest := fun _ => none }

def Op.exec (o : Op) (e : Env) (s : St) : Res (o.Out × St) :=
  match o with
  | .ctx => need (s.alive = true) (s, s)
  | .load h =>
    match s.heap h with
    | some hd => .ok (hd, s)
    | none => .fault
  | .store h f =>
    match s.heap h with
    | some hd => .ok ((), s.put h (f hd))
    | none => .fault
  | .setTimeoutAt h t =>
    match s.heap h with
    | some hd => .ok ((), s.put h { hd with timeoutAt := t })
    | none => .fault
  | .calloc => if e.mallocOk then .ok (some s.next, s.allocate) else .ok (none, s)
  | .free h => need (s.Live h) ((), s.release h)
  | .callocCtx => .ok (e.mallocOk, if e.mallocOk then s.fresh else s)
  | .mutexInit => need (s.alive = true) (e.mutexOk, s)
  | .epollCreate => need (s.alive = true) (e.epfd, { s with epfd := e.epfd })
  | .pipe2 =>
    need (s.alive = true)
      (match e.pipeFds with
       | some (r, w) => (true, { s with asyncPipe0 := r, asyncPipe1 := w })
       | none => (false, s))
  | .freeCtx =>
    need (s.alive = true ∧ s.asyncLock = none) ((), { s.emit .ctxFreed with alive := false })
  | .insertTail l h =>
    need (s.Walkable l ∧ s.Live h ∧ s.LinkFree l h)
      ((), if l = .async then (s.append l h).emit (.queued h) else s.append l h)
  | .remove l h =>
    need (s.Walkable l)
      (decide (h ∈ s.lists l),
        if l = .async ∧ h ∈ s.lists l then (s.unlink l h).emit (.dequeued h) else s.unlink l h)
  | .contains l h => need (s.Walkable l) (decide (h ∈ s.lists l), s)
  | .pop l =>
    need (s.Walkable l)
      (match s.lists l with
       | [] => (none, s)
       | h :: hs => (some h, if l = .async then (s.setList l hs).emit (.popped h (s.deadline h)) else s.setList l hs))
  | .next l h => need (s.Walkable l ∧ h ∈ s.lists l) (after h (s.lists l), s)
  | .timerInsert h =>
    need (s.Walkable .timer ∧ s.Live h ∧ s.LinkFree .timer h) ((), (s.arm h).emit (.armed h (s.deadline h)))
  | .setNotifying o => need (s.alive = true) ((), { s with notifying := o })
  | .setStopping => need (s.alive = true) ((), { s.emit .stopping with stopping := true })
  | .setInRun b => need (s.alive = true) ((), { s with inRun := b })
  | .setFinalized => need (s.alive = true) ((), { s with finalized := true })
  | .now => .ok (e.clock, s)
  | .epollCtl cmd fd ev => .ok (ctlResult s e.ctlErr cmd fd ev)
  | .epollWait _ =>
    .ok (match e.wait with
         | .events evs => .events (evs.take evb2EpollMax)
         | r => r, s)
  | .close f => need (s.alive = true) ((), s.closeFd f)
  | .lock =>
    match s.alive, s.asyncLock with
    | true, none => .ok ((), { s with asyncLock := some .loop })
    | true, some (.producer _) => .block
    | _, _ => .fault
  | .unlock =>
    need (s.alive = true ∧ s.asyncLock = some .loop) ((), { s with asyncLock := none })
  | .pipeWrite => .ok ((), { s with pipe := if s.pipe < s.pipeCap then s.pipe + 1 else s.pipe })
  | .pipeRead =>
    let n : Nat := min 64 s.pipe
    .ok (n, { s with pipe := s.pipe - n })
  | .emit ev => .ok ((), s.emit ev)

/-- Other threads run at mutex and pipe operations and while the loop waits. -/
def Op.yields : Op → Bool
  | .lock | .unlock | .pipeWrite | .pipeRead | .epollWait _ => true
  | _ => false

end AlgaeBp.Evb2
