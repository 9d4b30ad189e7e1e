import Mathlib.Data.List.Basic
import Mathlib.Logic.Function.Basic
import Mathlib.Tactic.Common
/-!
# The one-shot event loop

`ev.c` keeps its registrations in records that wander through queues: the
queue of a group of records for one descriptor, the queue of the records to
notify, and a queue of spare ones. Groups are on a queue of their own or on a
queue of spare groups. Memory is never given back while the context lives, so
a record or a group is known by its number.

What the system calls answer is laid down in advance: the n-th call succeeds
if `errno n` is zero, and fails with that error otherwise. `fault` is set when
an element is taken off a queue it is not on. `unsigned long` and `time_t`
have 64 bits. What a failed call logs is left out.
-/

namespace AlgaeBp.Ev

/-! ## Times -/

structure Timespec where
  sec : Int64
  nsec : Int64
  deriving DecidableEq, Repr

/-- `ALOE_EV_INFINITE`. -/
def aloeEvInfinite : UInt64 := 0xffffffffffffffff

def Timespec.infinite (t : Timespec) : Bool := t.sec.toUInt64 = aloeEvInfinite

/-- `ALOE_TIMESEC_CMP`. -/
def timesecCmp (a b : Timespec) : Int :=
  if b.sec < a.sec then 1
  else if a.sec < b.sec then -1
  else if b.nsec < a.nsec then 1
  else if a.nsec < b.nsec then -1
  else 0

/-- `ALOE_TIMESEC_ADD` of an `unsigned long` number of seconds and nanoseconds. -/
def timesecAdd (a : Timespec) (sec nsec : UInt64) : Timespec :=
  let s := a.sec.toUInt64 + sec
  let n := a.nsec.toUInt64 + nsec
  if 1000000000 ≤ n then ⟨(s + n / 1000000000).toInt64, (n % 1000000000).toInt64⟩ else ⟨s.toInt64, n.toInt64⟩

/-- `ALOE_TIMESEC_SUB`. -/
def timesecSub (a b : Timespec) : Timespec :=
  if a.nsec < b.nsec then ⟨a.sec - b.sec - 1, 1000000000 + a.nsec - b.nsec⟩ else ⟨a.sec - b.sec, a.nsec - b.nsec⟩

def intMax : Int64 := 2147483647

def dueToTimeoutMs (remain : Timespec) : Int64 :=
  if intMax / 1000 - 1 < remain.sec then intMax
  else
    let ms := remain.sec * 1000 + (remain.nsec + 999999) / 1000000
    if intMax < ms then intMax else ms.toInt32.toInt64

/-! ## Flags -/

def flagRead : UInt32 := 1
def flagWrite : UInt32 := 2
def flagExcept : UInt32 := 4
def flagTime : UInt32 := 8

def epollIn : UInt32 := 0x001
def epollPri : UInt32 := 0x002
def epollOut : UInt32 := 0x004
def epollErr : UInt32 := 0x008
def epollHup : UInt32 := 0x010

def bitIf (c : Bool) (bit : UInt32) : UInt32 := if c then bit else 0

def toEpoll (evWait : UInt32) : UInt32 :=
  bitIf (evWait &&& flagRead ≠ 0) epollIn ||| bitIf (evWait &&& flagWrite ≠ 0) epollOut |||
    bitIf (evWait &&& flagExcept ≠ 0) epollPri

def fromEpoll (e : UInt32) : UInt32 :=
  bitIf (e &&& (epollIn ||| epollHup) ≠ 0) flagRead ||| bitIf (e &&& epollOut ≠ 0) flagWrite |||
    bitIf (e &&& (epollPri ||| epollErr ||| epollHup) ≠ 0) flagExcept

/-! ## State -/

/-- `aloe_ev_ctx_noti_t`. A callback and its argument are addresses. -/
structure Noti where
  fd : Int
  cb : Nat
  cbarg : Nat
  evWait : UInt32
  due : Timespec
  evNoti : UInt32

/-- `aloe_ev_ctx_fd_t`. -/
structure Group where
  fd : Int
  epWait : UInt32
  triggered : UInt32
  epHup : Bool
  notiQ : List Nat

/-- What the n-th system call answers. -/
structure Oracle where
  errno : Nat → Nat
  clock : Nat → Timespec
  /-- The descriptors an `epoll_wait` finds ready, with their events. -/
  ready : Nat → List (Int × UInt32)

structure St where
  withBusySelect : Bool
  fdQ : List Nat
  spareFdQ : List Nat
  notiQ : List Nat
  spareNotiQ : List Nat
  group : Nat → Group
  noti : Nat → Noti
  /-- How many groups and records have been allocated. -/
  groups : Nat
  notis : Nat
  /-- What `epoll` watches: the mask and the pointer it was given. -/
  interest : Int → Option (UInt32 × Nat)
  oracle : Oracle
  asked : Nat
  fault : Bool

abbrev M := StateM St

def setGroup (g : Nat) (f : Group → Group) : M Unit :=
  modify (fun s => { s with group := Function.update s.group g (f (s.group g)) })

def setNoti (x : Nat) (f : Noti → Noti) : M Unit :=
  modify (fun s => { s with noti := Function.update s.noti x (f (s.noti x)) })

/-- `TAILQ_REMOVE`: what is left of the queue. -/
def takeOff (x : Nat) (q : List Nat) : M (List Nat) := do
  modify (fun s => { s with fault := s.fault || !q.contains x })
  return q.erase x

/-! ## System calls -/

/-- The number of the call, and its error. -/
def ask : M (Nat × Nat) := do
  let s ← get
  modify (fun s => { s with asked := s.asked + 1 })
  return (s.asked, s.oracle.errno s.asked)

def eNoEnt : Nat := 2
def eIntr : Nat := 4
def eBadF : Nat := 9
def eExist : Nat := 17

def sysMalloc : M Bool := do return (← ask).2 = 0

/-- `clock_gettime`. -/
def sysClock : M (Except Nat Timespec) := do
  let (n, e) ← ask
  let s ← get
  return if e ≠ 0 then .error e else .ok (s.oracle.clock n)

inductive Ctl where
  | add (events : UInt32) (ptr : Nat)
  | mod (events : UInt32) (ptr : Nat)
  | del

/-- A descriptor that is watched cannot be added, one that is not cannot be changed or deleted. -/
def ctlTable (op : Ctl) (old : Option (UInt32 × Nat)) : Nat × Option (UInt32 × Nat) :=
  match op, old with
  | .add events ptr, none => (0, some (events, ptr))
  | .add _ _, some i => (eExist, some i)
  | .mod events ptr, some _ => (0, some (events, ptr))
  | .mod _ _, none => (eNoEnt, none)
  | .del, some _ => (0, none)
  | .del, none => (eNoEnt, none)

/-- `epoll_ctl`: the error, or 0. -/
def sysEpollCtl (op : Ctl) (fd : Int) : M Nat := do
  let (_, e) ← ask
  let s ← get
  if e ≠ 0 then return e
  else do
    let (r, i) := ctlTable op (s.interest fd)
    modify (fun s => { s with interest := Function.update s.interest fd i })
    return r

def aloeEvEpollMax : Nat := 32

/-- `epoll_wait`: the pointers of the ready descriptors, with their events. -/
def sysEpollWait (_timeoutMs : Int64) : M (Except Nat (List (Nat × UInt32))) := do
  let (n, e) ← ask
  let s ← get
  return if e ≠ 0 then .error e
    else .ok (((s.oracle.ready n).filterMap (fun (fd, events) => (s.interest fd).map (fun i => (i.2, events)))).take
      aloeEvEpollMax)

/-! ## Queues -/

def fdQPopFirst : M (Option Nat) := do
  let s ← get
  match s.spareFdQ with
  | [] => return none
  | g :: rest => do
    modify (fun s => { s with spareFdQ := rest })
    return some g

/-- `fd_q_find` on the active groups. -/
def fdQFind (fd : Int) : M (Option Nat) := do
  let s ← get
  return s.fdQ.find? (fun g => (s.group g).fd = fd)

/-- `noti_q_find` for the first spare record. -/
def popSpareNoti : M (Option Nat) := do
  let s ← get
  match s.spareNotiQ with
  | [] => return none
  | x :: rest => do
    modify (fun s => { s with spareNotiQ := rest })
    return some x

def toSpareNoti (x : Nat) : M Unit := modify (fun s => { s with spareNotiQ := s.spareNotiQ ++ [x] })

def toSpareFd (g : Nat) : M Unit := modify (fun s => { s with spareFdQ := s.spareFdQ ++ [g] })

/-- A record is taken off its group's queue. -/
def offGroup (g x : Nat) : M Unit := do
  let s ← get
  let q ← takeOff x (s.group g).notiQ
  setGroup g (fun e => { e with notiQ := q })

/-- A record is taken off the queue of those to notify. -/
def offReady (x : Nat) : M Unit := do
  let s ← get
  let q ← takeOff x s.notiQ
  modify (fun s => { s with notiQ := q })

/-- A group goes from the active ones to the spare ones. -/
def retireFd (g : Nat) : M Unit := do
  let s ← get
  let q ← takeOff g s.fdQ
  modify (fun s => { s with fdQ := q })
  toSpareFd g

/-- An empty group is not kept. -/
def retireIfEmpty (g : Nat) : M Unit := do
  let s ← get
  if (s.group g).notiQ = [] then retireFd g else return

/-! ## Refreshing what `epoll` watches -/

def groupMask (s : St) (g : Nat) : UInt32 := (s.group g).notiQ.foldl (fun mask x => mask ||| (s.noti x).evWait) 0

def epollDel (g : Nat) (fd : Int) : M Bool := do
  let r ← sysEpollCtl .del fd
  if r ≠ 0 ∧ r ≠ eNoEnt ∧ r ≠ eBadF then return false
  else do
    setGroup g (fun e => { e with epWait := 0 })
    return true

def epollAddOrMod (events : UInt32) (g : Nat) (fd : Int) : M Bool := do
  let r ← sysEpollCtl (.add events g) fd
  if r = 0 then return true
  else if r = eExist then do
    let r ← sysEpollCtl (.mod events g) fd
    return r = 0
  else return false

def epollSet (mask : UInt32) (g : Nat) (fd : Int) : M Bool := do
  let ok ← epollAddOrMod (toEpoll mask) g fd
  if ok then do
    setGroup g (fun e => { e with epWait := mask })
    return true
  else return false

/-- Whether it returns 0. -/
def fdEpRefresh (g : Nat) : M Bool := do
  let s ← get
  let fd := (s.group g).fd
  let mask := groupMask s g
  if fd < 0 then return true
  else if mask = 0 then epollDel g fd
  else if mask = (s.group g).epWait then return true
  else epollSet mask g fd

/-! ## `aloe_ev_get`, `aloe_ev_put` and `aloe_ev_cancel` -/

def aloeEvGet (fd : Int) (cb : Nat) : M (Option Nat) := do
  match ← fdQFind fd with
  | none => return none
  | some g => do
    let s ← get
    return (s.group g).notiQ.find? (fun x => (s.noti x).cb = cb)

/-- What `aloe_ev_put` is given. -/
structure PutArgs where
  fd : Int
  cb : Nat
  cbarg : Nat
  evWait : UInt32
  sec : UInt64
  usec : UInt64

/-- The deadline; the nanoseconds of an infinite one are never looked at. -/
def putDue (a : PutArgs) : M (Option Timespec) := do
  if a.sec = aloeEvInfinite then return some ⟨aloeEvInfinite.toInt64, 0⟩
  else
    match ← sysClock with
    | .error _ => return none
    | .ok now => return some (timesecAdd now a.sec (a.usec * 1000))

def mallocFd : M (Option Nat) := do
  if ← sysMalloc then do
    let s ← get
    modify (fun s => { s with groups := s.groups + 1 })
    return some s.groups
  else return none

def mallocNoti : M (Option Nat) := do
  if ← sysMalloc then do
    let s ← get
    modify (fun s => { s with notis := s.notis + 1 })
    return some s.notis
  else return none

/-- A group that is not active yet. -/
def getSpareFd : M (Option Nat) := do
  match ← fdQPopFirst with
  | some g => return some g
  | none => mallocFd

def getNotiHolder : M (Option Nat) := do
  match ← popSpareNoti with
  | some x => return some x
  | none => mallocNoti

/-- A group becomes active. -/
def newFdGroup (g : Nat) (fd : Int) : M Unit := do
  setGroup g (fun _ => { fd := fd, epWait := 0, triggered := 0, epHup := false, notiQ := [] })
  modify (fun s => { s with fdQ := s.fdQ ++ [g] })

def chainNoti (g x : Nat) (a : PutArgs) (due : Timespec) : M Unit := do
  setGroup g (fun e => { e with notiQ := e.notiQ ++ [x] })
  setNoti x (fun e => { e with fd := a.fd, cb := a.cb, cbarg := a.cbarg, evWait := a.evWait, due := due })

/-- What is undone when `epoll` refuses; `inq` is whether the group was active before. -/
def putUndo (inq : Bool) (g x : Nat) : M Unit := do
  offGroup g x
  toSpareNoti x
  if inq then return else retireIfEmpty g

/-- A record for a group: it is filled in, queued and watched for. -/
def putChain (inq : Bool) (g x : Nat) (a : PutArgs) (due : Timespec) : M (Option Nat) := do
  chainNoti g x a due
  if ← fdEpRefresh g then return some x
  else do
    putUndo inq g x
    return none

/-- A new registration for an active group. -/
def putActive (g : Nat) (a : PutArgs) (due : Timespec) : M (Option Nat) := do
  match ← getNotiHolder with
  | none => return none
  | some x => putChain true g x a due

/-- A new registration for a group that is not active yet; without a record it is retained for next use. -/
def putSpare (g : Nat) (a : PutArgs) (due : Timespec) : M (Option Nat) := do
  match ← getNotiHolder with
  | none => do
    toSpareFd g
    return none
  | some x => do
    newFdGroup g a.fd
    putChain false g x a due

def putGroup (a : PutArgs) (due : Timespec) : M (Option Nat) := do
  match ← fdQFind a.fd with
  | some g => putActive g a due
  | none =>
    match ← getSpareFd with
    | none => return none
    | some g => putSpare g a due

/-- The handle is the record. -/
def aloeEvPut (a : PutArgs) : M (Option Nat) := do
  match ← putDue a with
  | none => return none
  | some due => putGroup a due

/-- The record is on the queue of its group `g`. -/
def cancelActive (g x : Nat) : M Unit := do
  offGroup g x
  toSpareNoti x
  let _ ← fdEpRefresh g
  retireIfEmpty g

/-- The record may be about to be notified. -/
def cancelReady (x : Nat) : M Unit := do
  let s ← get
  if x ∈ s.notiQ then do
    offReady x
    toSpareNoti x
  else return

def cancelFound (x : Nat) : Option Nat → M Unit
  | none => cancelReady x
  | some g => do
    let s ← get
    if x ∈ (s.group g).notiQ then cancelActive g x else cancelReady x

def aloeEvCancel (x : Nat) : M Unit := do
  let s ← get
  let g ← fdQFind (s.noti x).fd
  cancelFound x g

/-! ## `aloe_ev_once` -/

/-- The nearest deadline. -/
def nearest (s : St) : List Nat → Option Timespec → Option Timespec
  | [], due => due
  | x :: xs, due =>
    let d := (s.noti x).due
    nearest s xs (if !d.infinite ∧ due.all (fun e => timesecCmp d e < 0) then some d else due)

/-- The first loop: `has_fd`, `due`, and no group is triggered yet. -/
def scanGroups : List Nat → Bool → Option Timespec → M (Bool × Option Timespec)
  | [], hasFd, due => return (hasFd, due)
  | g :: gs, hasFd, due => do
    setGroup g (fun e => { e with triggered := 0, epHup := false })
    let s ← get
    scanGroups gs (hasFd || 0 ≤ (s.group g).fd) (nearest s (s.group g).notiQ due)

/-- The wait until `due`. -/
def waitFor (due now : Timespec) : Int64 :=
  if timesecCmp now due < 0 then dueToTimeoutMs (timesecSub due now) else 0

/-- `ALOE_EV_PREVENT_BUSY_SELECT`. -/
def preventBusy (busy : Bool) (ms : Int64) : Int64 := if !busy ∧ 0 ≤ ms ∧ ms < 1 then 1 else ms

/-- The time to wait; what `aloe_ev_once` returns if it cannot be told. -/
def timeoutMs (hasFd : Bool) (due : Option Timespec) : M (Except Int Int64) := do
  match due with
  | some due =>
    match ← sysClock with
    | .error e => return .error (-e)
    | .ok now => return .ok (waitFor due now)
  | none => return .ok (if hasFd then -1 else 0)

/-- What `epoll_wait` found is noted in the groups. -/
def markGroups : List (Nat × UInt32) → M Unit
  | [] => return
  | (g, events) :: rest => do
    setGroup g (fun e => { e with
      triggered := fromEpoll events
      epHup := e.epHup || events &&& (epollErr ||| epollHup) ≠ 0 })
    markGroups rest

/-- What a record is notified of. -/
def notified (e : Group) (x : Noti) (now : Timespec) : UInt32 :=
  if e.triggered &&& x.evWait ≠ 0 then e.triggered &&& x.evWait
  else if e.epHup then flagExcept
  else if !x.due.infinite ∧ timesecCmp x.due now ≤ 0 then flagTime
  else 0

/-- The records of a group that are to be notified move on. -/
def collectNotis (g : Nat) (now : Timespec) : List Nat → M Unit
  | [] => return
  | x :: xs => do
    let s ← get
    let ev := notified (s.group g) (s.noti x) now
    setNoti x (fun e => { e with evNoti := ev })
    if ev ≠ 0 then do
      offGroup g x
      modify (fun s => { s with notiQ := s.notiQ ++ [x] })
      collectNotis g now xs
    else collectNotis g now xs

def collectGroups (now : Timespec) : List Nat → M Unit
  | [] => return
  | g :: gs => do
    let s ← get
    collectNotis g now (s.group g).notiQ
    let _ ← fdEpRefresh g
    retireIfEmpty g
    collectGroups now gs

/-- After the wait. -/
def collect (found : List (Nat × UInt32)) : M (Except Int Unit) := do
  markGroups found
  match ← sysClock with
  | .error e => return .error (-e)
  | .ok now => do
    let s ← get
    collectGroups now s.fdQ
    return .ok ()

/-- `aloe_ev_once` up to the wait: what it passes to `epoll_wait`, or returns without waiting. -/
def passed : M (Except Int Int64) := do
  let s ← get
  let (hasFd, due) ← scanGroups s.fdQ false none
  match ← timeoutMs hasFd due with
  | .error e => return .error e
  | .ok ms => do
    let s ← get
    return .ok (preventBusy s.withBusySelect ms)

def waitAndCollect (ms : Int64) : M (Except Int Unit) := do
  match ← sysEpollWait ms with
  -- a signal is no error
  | .error e => return .error (if e = eIntr then 0 else -e)
  | .ok found => collect found

/-- `aloe_ev_once` up to the callbacks, or what it returns before them. -/
def onceCollect : M (Except Int Unit) := do
  match ← passed with
  | .error e => return .error e
  | .ok ms => waitAndCollect ms

/-- A call of a callback, and the record it comes from. -/
structure Call where
  x : Nat
  fd : Int
  cb : Nat
  cbarg : Nat
  triggered : UInt32

/-- One turn of the last loop, up to the callback. -/
def popReady : M (Option Call) := do
  let s ← get
  match s.notiQ with
  | [] => return none
  | x :: _ => do
    let e := s.noti x
    offReady x
    toSpareNoti x
    return some { x := x, fd := e.fd, cb := e.cb, cbarg := e.cbarg, triggered := e.evNoti }

/-! ## Runs -/

/-- What a registration is notified with. -/
structure Reg where
  fd : Int
  cb : Nat
  cbarg : Nat
  deriving DecidableEq, Repr

def PutArgs.reg (a : PutArgs) : Reg := ⟨a.fd, a.cb, a.cbarg⟩

def Noti.reg (e : Noti) : Reg := ⟨e.fd, e.cb, e.cbarg⟩

inductive Event where
  /-- A put succeeded with a handle. -/
  | put (x : Nat) (r : Reg)
  | cancel (x : Nat)
  /-- A callback was called, from a record. -/
  | call (x : Nat) (r : Reg)
  deriving DecidableEq, Repr

/-- The live registrations: put, not cancelled, and not notified. -/
def live : List Event → List (Nat × Reg)
  | [] => []
  | .put x r :: log => (x, r) :: live log
  | .cancel x :: log => (live log).filter (fun p => p.1 ≠ x)
  | .call x _ :: log => (live log).filter (fun p => p.1 ≠ x)

inductive Phase where
  | idle
  /-- A callback is running, the `n`-th of this `aloe_ev_once`. -/
  | callback (n : Nat)
  deriving DecidableEq, Repr

structure Sys where
  st : St
  phase : Phase
  /-- The latest event first. -/
  log : List Event
  /-- How many registrations there were when `epoll_wait` returned. -/
  limit : Nat

inductive Act where
  | put (a : PutArgs)
  | get (fd : Int) (cb : Nat)
  | cancel (x : Nat)
  | once
  /-- The running callback returns. -/
  | ret
  /-- A descriptor is closed: `epoll` forgets it. -/
  | close (fd : Int)

/-- The last loop of `aloe_ev_once` after `n` callbacks: the next callback, or the end. -/
def drain (n : Nat) (s : Sys) : Sys :=
  match popReady s.st with
  | (none, st) => { s with st := st, phase := .idle }
  | (some c, st) => { s with st := st, phase := .callback (n + 1), log := .call c.x ⟨c.fd, c.cb, c.cbarg⟩ :: s.log }

/-- Only live registrations are cancelled, and callbacks do not call `aloe_ev_once`. -/
def step (a : Act) (s : Sys) : Option Sys :=
  match a with
  | .put a =>
    match aloeEvPut a s.st with
    | (none, st) => some { s with st := st }
    | (some x, st) => some { s with st := st, log := .put x a.reg :: s.log }
  | .get fd cb => some { s with st := (aloeEvGet fd cb s.st).2 }
  | .cancel x =>
    if x ∈ (live s.log).map Prod.fst then
      some { s with st := (aloeEvCancel x s.st).2, log := .cancel x :: s.log }
    else none
  | .once =>
    match s.phase with
    | .callback _ => none
    | .idle =>
      match onceCollect s.st with
      | (.error _, st) => some { s with st := st }
      | (.ok (), st) => some (drain 0 { s with st := st, limit := (live s.log).length })
  | .ret =>
    match s.phase with
    | .idle => none
    | .callback n => some (drain n s)
  | .close fd => some { s with st := { s.st with interest := Function.update s.st.interest fd none } }

def run : List Act → Sys → Option Sys
  | [], s => some s
  | a :: as, s => (step a s).bind (run as)

/-- `aloe_ev_init`. What fresh memory holds does not matter. -/
def init (busy : Bool) (group : Nat → Group) (noti : Nat → Noti) (oracle : Oracle) : Sys where
  st := {
    withBusySelect := busy
    fdQ := []
    spareFdQ := []
    notiQ := []
    spareNotiQ := []
    group := group
    noti := noti
    groups := 0
    notis := 0
    interest := fun _ => none
    oracle := oracle
    asked := 0
    fault := false }
  phase := .idle
  log := []
  limit := 0

end AlgaeBp.Ev
