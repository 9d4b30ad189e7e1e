import AlgaeBp.Evb2.State
import AlgaeBp.Lib.Ints
/-!
# The `aloe_evb2` event loop: the code

`evb2.c` function by function, over the operations of `Evb2.State`. The
context is implicit. `NULL` contexts and handles and handles of another
context, which every function rejects before anything else, are left out, and
so is logging.
-/
open Reentrant
open Ints (intMax)

namespace AlgaeBp.Evb2

abbrev Code := Prog Op Op.Out

def ctx : Code St := .act Op.ctx
def load (h : Ptr) : Code Handle := .act (Op.load h)
def store (h : Ptr) (f : Handle → Handle) : Code Unit := .act (Op.store h f)
def free (h : Ptr) : Code Unit := .act (Op.free h)
def qentInsertTail (l : ListId) (h : Ptr) : Code Unit := .act (Op.insertTail l h)
def qentRemove (l : ListId) (h : Ptr) : Code Bool := .act (Op.remove l h)
def qentContains (l : ListId) (h : Ptr) : Code Bool := .act (Op.contains l h)
def qentPop (l : ListId) : Code (Option Ptr) := .act (Op.pop l)
def qentNext (l : ListId) (h : Ptr) : Code (Option Ptr) := .act (Op.next l h)
def timerInsert (h : Ptr) : Code Unit := .act (Op.timerInsert h)
def evb2NowMs : Code UInt64 := .act Op.now
def lock : Code Unit := .act Op.lock
def unlock : Code Unit := .act Op.unlock
def emit (e : Event) : Code Unit := .act (Op.emit e)
def setTimeoutAt (h : Ptr) (t : UInt64) : Code Unit := .act (Op.setTimeoutAt h t)
def setNotifying (o : Option Ptr) : Code Unit := .act (Op.setNotifying o)
def setStopping : Code Unit := .act Op.setStopping
def setInRun (b : Bool) : Code Unit := .act (Op.setInRun b)
def setFinalized : Code Unit := .act Op.setFinalized
def epollCtl (cmd : EpollCmd) (fd : Int) (ev : UInt32) : Code (Option Errno) := .act (Op.epollCtl cmd fd ev)
def epollWait (timeout : Int) : Code WaitRes := .act (Op.epollWait timeout)
def pipeWrite : Code Unit := .act Op.pipeWrite
def pipeRead : Code Nat := .act Op.pipeRead
def closeFd (f : CtxFd) : Code Unit := .act (Op.close f)
def calloc : Code (Option Ptr) := .act Op.calloc
def callocCtx : Code Bool := .act Op.callocCtx
def mutexInit : Code Bool := .act Op.mutexInit
def epollCreate : Code Int := .act Op.epollCreate
def pipe2 : Code Bool := .act Op.pipe2
def freeCtx : Code Unit := .act Op.freeCtx

/-! ## Timers -/

/-- The deadline `evb2_set_timeout` computes: `timeout_ms` from `now`, or
`UINT64_MAX` for no timeout and whenever the sum does not fit. -/
def timeoutFrom (timeoutMs now : UInt64) : UInt64 :=
  if timeoutMs = infinite ∨ timeoutMs > uint64Max - now then uint64Max else now + timeoutMs

def evb2SetTimeout (h : Ptr) (now : UInt64) : Code Unit := do
  let hd ← load h
  setTimeoutAt h (timeoutFrom hd.timeoutMs now)

/-- The deadline a re-armed 0 ms handle gets. -/
def rearmFrom (now : UInt64) : UInt64 :=
  if evb2MinRearmMs > uint64Max - now then uint64Max else now + evb2MinRearmMs

/-- `if (h->timeout_at != UINT64_MAX) timer_insert(evb, h)`. -/
def timerInsertFinite (h : Ptr) : Code Unit := do
  if (← load h).timeoutAt ≠ uint64Max then timerInsert h else pure ()

/-- The deadline of a handle that `evb2_arm_timer` restarts. -/
def evb2RestartTimeout (h : Ptr) (now : UInt64) : Code Unit := do
  if (← load h).timeoutMs = 0 then setTimeoutAt h (rearmFrom now) else evb2SetTimeout h now

def evb2ArmTimer (h : Ptr) : Code Unit := do
  let now ← evb2NowMs
  let _ ← qentRemove .timer h
  evb2RestartTimeout h now
  timerInsertFinite h

def handleDetach (h : Ptr) : Code Unit := do
  let _ ← qentRemove .fdmon h
  let _ ← qentRemove .timer h
  let _ ← qentRemove .ready h

def evb2Wake : Code Unit := do
  if (← ctx).asyncPipe1 < 0 then return () else pipeWrite

/-! ## Epoll -/

def toEpoll (evReq : UInt32) : UInt32 :=
  (if evReq &&& flagRead ≠ 0 then epollIn ||| epollRdhup else 0) |||
  (if evReq &&& flagWrite ≠ 0 then epollOut else 0) |||
  (if evReq &&& flagExcept ≠ 0 then epollPri else 0)

def fromEpoll (e : UInt32) : UInt32 :=
  (if e &&& (epollIn ||| epollRdhup ||| epollHup) ≠ 0 then flagRead else 0) |||
  (if e &&& epollOut ≠ 0 then flagWrite else 0) |||
  (if e &&& (epollPri ||| epollErr ||| epollHup) ≠ 0 then flagExcept else 0)

/-- The walk of `epoll_refresh` over `fdmon_list`: the union of the flags
requested for `fd`, and whether any handle monitors it. -/
def scanFd (fd : Int) : List Ptr → UInt32 → Bool → Code (UInt32 × Bool)
  | [], evReq, found => pure (evReq, found)
  | q :: qs, evReq, found => do
    let h ← load q
    if h.fd = fd then scanFd fd qs (evReq ||| h.flag) true else scanFd fd qs evReq found

def epollRefresh (fd : Int) : Code Int := do
  let evb ← ctx
  if evb.epfd < 0 then return -1
  if fd ≤ fdTimer then return 0
  let (evReq, found) ← scanFd fd (evb.lists .fdmon) 0 false
  if found = false then
    match ← epollCtl .del fd 0 with
    | none | some .enoent | some .ebadf => return 0
    | some _ => return -1
  else
    match ← epollCtl .add fd (toEpoll evReq) with
    | none => return 0
    | some .eexist =>
      match ← epollCtl .mod fd (toEpoll evReq) with
      | none => return 0
      | some _ => return -1
    | some _ => return -1

/-- `if (fd >= 0) epoll_refresh(evb, fd)`, whose result is ignored. -/
def refreshFd (fd : Int) : Code Unit := do
  if 0 ≤ fd then
    let _ ← epollRefresh fd
    return ()
  else return ()

def handleToReady (h : Ptr) (noti : UInt32) : Code Unit := do
  let fd := (← load h).fd
  let _ ← qentRemove .fdmon h
  let _ ← qentRemove .timer h
  store h ({ · with noti := noti })
  qentInsertTail .ready h
  refreshFd fd

/-! ## Cancellation callbacks and asynchronous timers -/

/-- Call a callback with `ALOE_EVB2_FLAG_CANCELLED`. -/
def invokeCancelled (h : Ptr) (hd : Handle) : Code Unit :=
  match hd.cb with
  | some (.user _) => do
    emit (.cancelled h hd.fd hd.userData)
    Prog.callback
  -- `async_handler` returns at once on a cancellation.
  | some .asyncHandler => pure ()
  | none => pure ()

def evb2NotifyCancel (h : Ptr) : Code Unit := do
  let hd ← load h
  invokeCancelled h hd
  free h

/-- Notify a handle taken off `async_list`, without the mutex. -/
def notifyUnlocked (h : Ptr) : Code Unit := do
  unlock
  evb2NotifyCancel h
  lock

def evb2InstallAsync : Code Unit := do
  lock
  Prog.iterate () fun _ => do
    match ← qentPop .async with
    | none => return .inr ()
    | some h =>
      if (← ctx).stopping then
        notifyUnlocked h
        return .inl ()
      else if (← load h).timeoutAt ≠ uint64Max then
        timerInsert h
        return .inl ()
      else
        notifyUnlocked h
        return .inl ()
  unlock

/-- `while (read(fd, buf, sizeof(buf)) > 0) { }`. -/
def drainPipe : Code Unit :=
  Prog.iterate () fun _ => do
    if (← pipeRead) > 0 then return .inl () else return .inr ()

def asyncHandler (flag : UInt32) : Code Unit := do
  if flag &&& flagCancelled ≠ 0 then return ()
  else
    drainPipe
    evb2InstallAsync

/-! ## Destruction -/

/-- One of the first three loops of `evb2_finalize`. -/
def finalizeList (l : ListId) : Code Unit :=
  Prog.iterate () fun _ => do
    match (← ctx).lists l with
    | [] => return .inr ()
    | h :: _ =>
      handleDetach h
      evb2NotifyCancel h
      return .inl ()

/-- The last loop of `evb2_finalize`. -/
def finalizeAsync : Code Unit := do
  lock
  Prog.iterate () fun _ => do
    match ← qentPop .async with
    | none => return .inr ()
    | some h =>
      notifyUnlocked h
      return .inl ()
  unlock

def CtxFd.get : CtxFd → St → Int
  | .rd, s => s.asyncPipe0
  | .wr, s => s.asyncPipe1
  | .ep, s => s.epfd

/-- Close a descriptor of the context if it is open. -/
def closeOpen (f : CtxFd) : Code Unit := do
  if 0 ≤ f.get (← ctx) then closeFd f else pure ()

def evb2Finalize : Code Unit := do
  if (← ctx).finalized then return ()
  else
    setFinalized
    finalizeList .fdmon
    finalizeList .timer
    finalizeList .ready
    finalizeAsync
    closeOpen .rd
    closeOpen .wr
    closeOpen .ep

def evb2Free : Code Unit := do
  evb2Finalize
  freeCtx

def evb2RunLeave (rc : Int) : Code Int := do
  if (← ctx).stopping = false then
    setInRun false
    return rc
  else
    evb2Free
    return -1

/-- The locked part of `aloe_evb2_destroy`: whether a run is in progress. -/
def markStopping : Code Bool := do
  lock
  setStopping
  if (← ctx).inRun then
    unlock
    return true
  else
    setInRun true
    unlock
    return false

def aloeEvb2Destroy : Code Unit := do
  let busy ← markStopping
  evb2Wake
  if busy then return () else evb2Free

/-! ## Registration -/

def handleAlloc : Code (Option Ptr) := do
  match ← calloc with
  | none => return none
  | some h =>
    store h ({ · with fd := fdTimer })
    return some h

/-- Link a new handle into `fdmon_list` and tell the kernel. When that fails
the handle is gone. -/
def monitorFd (h : Ptr) (fd : Int) : Code Bool := do
  if 0 ≤ fd then
    qentInsertTail .fdmon h
    if (← epollRefresh fd) ≠ 0 then
      handleDetach h
      free h
      return false
    else return true
  else return true

def aloeEvb2AddFd (fd : Int) (evReq : UInt32) (timeoutMs : UInt64) (cb : Option Cb) (userData : Nat) :
    Code (Option Ptr) := do
  let evb ← ctx
  if evb.stopping ∨ evb.finalized ∨ cb = none ∨ fd < fdTimer then return none
  else if fd = fdTimer ∧ timeoutMs = infinite then return none
  else match ← handleAlloc with
  | none => return none
  | some h =>
    store h ({ · with cb := cb, userData := userData, fd := fd, flag := evReq, timeoutMs := timeoutMs })
    evb2SetTimeout h (← evb2NowMs)
    if (← monitorFd h fd) = false then return none
    else
      timerInsertFinite h
      return some h

def aloeEvb2AddOneshotFd (fd : Int) (evReq : UInt32) (timeoutMs : UInt64) (cb : Option Cb)
    (userData : Nat) : Code (Option Ptr) := do
  match ← aloeEvb2AddFd fd evReq timeoutMs cb userData with
  | none => return none
  | some h =>
    store h (fun hd => { hd with flag2 := { hd.flag2 with oneshot := true } })
    return some h

def aloeEvb2AddTimer (timeoutMs : UInt64) (cb : Option Cb) (userData : Nat) : Code (Option Ptr) :=
  aloeEvb2AddFd fdTimer 0 timeoutMs cb userData

/-- The handle `aloe_evb2_add_oneshot_timer` fills in before it takes the mutex. -/
def oneshotTimer (timeoutMs : UInt64) (cb : Cb) (userData : Nat) : Handle :=
  { cb := some cb, userData := userData, fd := fdTimer, timeoutMs := timeoutMs, flag2 := { oneshot := true } }

def aloeEvb2AddOneshotTimer (timeoutMs : UInt64) (cb : Option Cb) (userData : Nat) : Code (Option Ptr) := do
  match cb with
  | none => return none
  | some cb =>
    if timeoutMs = infinite then return none
    else match ← handleAlloc with
    | none => return none
    | some h =>
      store h (fun _ => oneshotTimer timeoutMs cb userData)
      evb2SetTimeout h (← evb2NowMs)
      lock
      let evb ← ctx
      if evb.stopping ∨ evb.finalized then
        unlock
        free h
        return none
      else
        qentInsertTail .async h
        evb2Wake
        unlock
        return some h

/-! ## Cancelling and changing timeouts -/

/-- `aloe_evb2_cancel`, before its result is recorded. -/
def cancelHandle (h : Ptr) : Code Int := do
  if (← load h).flag2.internal then return -1
  else if (← ctx).notifying = some h then
    store h (fun hd => { hd with flag2 := { hd.flag2 with dead := true } })
    return 0
  else
    lock
    if ← qentRemove .async h then
      unlock
      free h
      return 0
    else
      unlock
      let fd := (← load h).fd
      -- A handle may be in an FD list and the timer list simultaneously.
      let fdmon ← qentRemove .fdmon h
      let ready ← qentRemove .ready h
      let timer ← qentRemove .timer h
      if (fdmon || ready || timer) = false then return -1
      else
        refreshFd fd
        free h
        return 0

def aloeEvb2Cancel (h : Ptr) : Code Int := do
  let r ← cancelHandle h
  emit (.cancel h r)
  return r

/-- One of the loops of `aloe_evb2_cancel_fd`. -/
def cancelOn (fd : Int) (l : ListId) (n : Int) : Code Int := do
  let q := ((← ctx).lists l).head?
  Prog.iterate (q, n) fun (q, n) => do
    match q with
    | none => return .inr n
    | some q =>
      let h ← load q
      let next ← qentNext l q
      if h.fd = fd then
        if (← aloeEvb2Cancel q) = 0 then return .inl (next, n + 1) else return .inl (next, n)
      else return .inl (next, n)

def aloeEvb2CancelFd (fd : Int) : Code Int := do
  let evb ← ctx
  if fd ≤ fdTimer then return -1
  else if fd = evb.asyncPipe0 ∨ fd = evb.asyncPipe1 then return -1
  else
    let n ← cancelOn fd .fdmon 0
    let n ← cancelOn fd .timer n
    cancelOn fd .ready n

def aloeEvb2SetTimeout (h : Ptr) (timeoutMs : UInt64) : Code Int := do
  let hd ← load h
  let evb ← ctx
  if hd.flag2.internal ∨ hd.flag2.dead then return -1
  else if evb.stopping ∨ evb.finalized then return -1
  else if hd.fd = fdTimer ∧ timeoutMs = infinite then return -1
  else
    store h ({ · with timeoutMs := timeoutMs })
    evb2SetTimeout h (← evb2NowMs)
    -- Own callback: not on timer_list; persistent re-arm uses timeout_ms.
    if evb.notifying = some h then return 0
    else
      lock
      let pending ← qentContains .async h
      unlock
      if pending then return 0
      -- Waiting to dispatch this round: keep ready; new timeout is for re-arm.
      else if ← qentContains .ready h then return 0
      else
        let _ ← qentRemove .timer h
        timerInsertFinite h
        return 0

/-! ## One pass of the loop -/

/-- The `epoll_wait` timeout: until the first deadline, at most `timeoutMs`. -/
def waitTimeout (first : Option UInt64) (now timeoutMs : UInt64) : Int :=
  let timeout : Int :=
    match first with
    | none => -1
    | some t =>
      if t ≤ now then 0
      else if ((t - now).toNat : Int) > intMax then intMax else (t - now).toNat
  if timeoutMs ≠ infinite then
    let userTo : Int := if (timeoutMs.toNat : Int) > intMax then intMax else timeoutMs.toNat
    if timeout < 0 ∨ userTo < timeout then userTo else timeout
  else timeout

/-- The flags a descriptor event and the clock raise for a handle. -/
def eventFlags (h : Handle) (e : UInt32) (now : UInt64) : UInt32 :=
  let noti := fromEpoll e &&& h.flag
  let noti := if e &&& (epollErr ||| epollHup) ≠ 0 ∧ noti = 0 then noti ||| flagExcept else noti
  if h.timeoutAt ≤ now then noti ||| flagTimeout else noti

/-- Move the handles that an event concerns to `ready_list`. -/
def collectEvent (now : UInt64) (fd : Int) (e : UInt32) : Code Unit := do
  let q := ((← ctx).lists .fdmon).head?
  let hit ← Prog.iterate (q, false) fun (q, hit) => do
    match q with
    | none => return .inr hit
    | some q =>
      let h ← load q
      let next ← qentNext .fdmon q
      if h.fd ≠ fd then return .inl (next, hit)
      else if eventFlags h e now = 0 then return .inl (next, hit)
      else
        let _ ← qentRemove .fdmon q
        let _ ← qentRemove .timer q
        store q ({ · with noti := eventFlags h e now })
        qentInsertTail .ready q
        return .inl (next, true)
  if hit then
    let _ ← epollRefresh fd
    return ()
  else return ()

def collectEvents (now : UInt64) : List (Int × UInt32) → Code Unit
  | [] => pure ()
  | (fd, e) :: evs => do
    collectEvent now fd e
    collectEvents now evs

/-- Move the handles whose deadline has passed to `ready_list`. -/
def collectTimers (now : UInt64) : Code Unit :=
  Prog.iterate () fun _ => do
    match (← ctx).lists .timer with
    | [] => return .inr ()
    | h :: _ =>
      if (← load h).timeoutAt > now then return .inr ()
      else
        handleToReady h flagTimeout
        return .inl ()

/-- Call the callback of a handle taken off `ready_list`. -/
def invoke (h : Ptr) (hd : Handle) : Code Unit :=
  match hd.cb with
  | some (.user _) => do
    emit (.dispatch h hd.fd hd.noti hd.userData hd.flag2.oneshot (← ctx).stopping)
    Prog.callback
    emit (.returned h (← ctx).stopping)
  | some .asyncHandler => asyncHandler hd.noti
  | none => pure ()

/-- Re-arm a persistent handle after its callback. -/
def rearm (h : Ptr) (fd : Int) : Code Unit := do
  store h ({ · with noti := 0 })
  (if 0 ≤ fd then qentInsertTail .fdmon h else pure ())
  evb2ArmTimer h
  refreshFd fd

/-- The rest of a round of the dispatch loop, with the handle `hd` as it was
before its callback: count it, and free it or re-arm it. -/
def afterCallback (h : Ptr) (hd : Handle) (cnt : Int) : Code Int := do
  setNotifying none
  let flag2 := (← load h).flag2
  let cnt := if flag2.internal then cnt else cnt + 1
  if (← ctx).stopping ∨ flag2.dead ∨ hd.flag2.oneshot then
    free h
    return cnt
  else
    rearm h hd.fd
    return cnt

def dispatchReady : Code Int :=
  Prog.iterate (0 : Int) fun cnt => do
    match ← qentPop .ready with
    | none => return .inr cnt
    | some h =>
      let hd ← load h
      setNotifying (some h)
      invoke h hd
      return .inl (← afterCallback h hd cnt)

/-- The deadline of the first handle on `timer_list`. -/
def firstDeadline : Code (Option UInt64) := do
  match (← ctx).lists .timer with
  | [] => return none
  | h :: _ => return some (← load h).timeoutAt

def aloeEvb2RunOnce (timeoutMs : UInt64) : Code Int := do
  let evb ← ctx
  if evb.stopping ∨ evb.finalized ∨ evb.inRun ∨ evb.epfd < 0 then return -1
  else
    setInRun true
    evb2InstallAsync
    let now ← evb2NowMs
    let first ← firstDeadline
    match ← epollWait (waitTimeout first now timeoutMs) with
    | .eintr => evb2RunLeave 0
    | .error => evb2RunLeave (-1)
    | .events evs =>
      let now ← evb2NowMs
      collectEvents now evs
      collectTimers now
      let cnt ← dispatchReady
      evb2RunLeave cnt

/-! ## Creation -/

def aloeEvb2Create : Code Bool := do
  if (← callocCtx) = false then return false
  else if (← mutexInit) = false then
    freeCtx
    return false
  else if (← epollCreate) < 0 then fail
  else if (← pipe2) = false then fail
  else
    match ← aloeEvb2AddFd (← ctx).asyncPipe0 flagRead infinite (some .asyncHandler) 0 with
    | none => fail
    | some h =>
      store h (fun hd => { hd with flag2 := { hd.flag2 with internal := true } })
      return true
where
  fail : Code Bool := do
    aloeEvb2Destroy
    return false

/-! ## The calls of the API -/

inductive Call where
  | addFd (fd : Int) (evReq : UInt32) (timeoutMs : UInt64) (cb : Option Nat) (userData : Nat)
  | addOneshotFd (fd : Int) (evReq : UInt32) (timeoutMs : UInt64) (cb : Option Nat) (userData : Nat)
  | addTimer (timeoutMs : UInt64) (cb : Option Nat) (userData : Nat)
  | addOneshotTimer (timeoutMs : UInt64) (cb : Option Nat) (userData : Nat)
  | cancel (h : Ptr)
  | cancelFd (fd : Int)
  | setTimeout (h : Ptr) (timeoutMs : UInt64)
  | runOnce (timeoutMs : UInt64)
  | destroy
  deriving DecidableEq, Repr

inductive Ret where
  | unit
  | int (r : Int)
  | ptr (h : Option Ptr)
  deriving DecidableEq, Repr

/-- Record that an add function hands its result to the user. -/
def handOut (add : Code (Option Ptr)) : Code Ret := do
  match ← add with
  | none => return .ptr none
  | some h =>
    emit (.added h)
    return .ptr (some h)

def api : Call → Code Ret
  | .addFd fd ev t cb ud => handOut (aloeEvb2AddFd fd ev t (cb.map .user) ud)
  | .addOneshotFd fd ev t cb ud => handOut (aloeEvb2AddOneshotFd fd ev t (cb.map .user) ud)
  | .addTimer t cb ud => handOut (aloeEvb2AddTimer t (cb.map .user) ud)
  | .addOneshotTimer t cb ud => handOut (aloeEvb2AddOneshotTimer t (cb.map .user) ud)
  | .cancel h => do return .int (← aloeEvb2Cancel h)
  | .cancelFd fd => do return .int (← aloeEvb2CancelFd fd)
  | .setTimeout h t => do return .int (← aloeEvb2SetTimeout h t)
  | .runOnce t => do return .int (← aloeEvb2RunOnce t)
  | .destroy => do aloeEvb2Destroy; return .unit

end AlgaeBp.Evb2
