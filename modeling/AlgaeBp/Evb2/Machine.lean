import AlgaeBp.Evb2.Code
/-!
# Runs of the `aloe_evb2` event loop

The loop thread runs user code, which makes any sequence of API calls, also
from inside callbacks. Any number of other threads are inside
`aloe_evb2_add_oneshot_timer`, the one function they may call; they proceed
whenever the loop thread stands at a mutex or pipe operation, waits in
`epoll_wait`, or runs user code.

`Mode` says which runs are considered. Callers always keep the context alive
and pass handles the API gave them and has not taken back.
-/
open Reentrant

namespace AlgaeBp.Evb2

/-! ## What the log says about a handle -/

/-- The handle an event is about. -/
def Event.about : Event → Option Ptr
  | .added h | .queued h | .popped h _ | .dequeued h | .armed h _ | .cancel h _ | .dispatch h _ _ _ _ _
  | .returned h _ | .cancelled h _ _ | .freed h => some h
  | .stopping | .ctxFreed => none

/-- The events about a handle. -/
def hist (log : List Event) (h : Ptr) : List Event := log.filter (fun e => e.about = some h)

/-- The API takes the handle back: cancelled with result 0, dispatched as
one-shot, or its CANCELLED callback begun. -/
def Event.releases : Event → Bool
  | .cancel _ r => r = 0
  | .dispatch _ _ _ _ oneshot _ => oneshot
  | .cancelled _ _ _ => true
  | _ => false

def Event.isAdded : Event → Bool
  | .added _ => true
  | _ => false

def Event.isCancelled : Event → Bool
  | .cancelled _ _ _ => true
  | _ => false

/-- The callback returned to the dispatch loop with the context stopping. -/
def Event.drops : Event → Bool
  | .returned _ b => b
  | _ => false

def isAdded (log : List Event) (h : Ptr) : Bool := (hist log h).any Event.isAdded
def released (log : List Event) (h : Ptr) : Bool := (hist log h).any Event.releases
def notified (log : List Event) (h : Ptr) : Bool := (hist log h).any Event.isCancelled
def dropped (log : List Event) (h : Ptr) : Bool := (hist log h).any Event.drops

/-- A handle the user may still pass. -/
def valid (log : List Event) (h : Ptr) : Bool := isAdded log h && !released log h

/-- Valid, and not released behind the user's back by the dispatch loop. -/
def registered (log : List Event) (h : Ptr) : Bool := valid log h && !dropped log h

/-! ## Other threads -/

inductive Other where
  /-- A thread enters `aloe_evb2_add_oneshot_timer` and reads the clock. -/
  | start (timeoutMs : UInt64) (cb : Option Nat) (userData : Nat) (now : UInt64) (mallocOk : Bool)
  | step (i : Nat)
  deriving DecidableEq, Repr

def startProducer (timeoutMs : UInt64) (cb : Option Nat) (userData : Nat) (now : UInt64) (mallocOk : Bool) :
    Producer :=
  match cb with
  | none => .done none
  | some f =>
    if timeoutMs = infinite ∨ mallocOk = false then .done none
    else .filled { oneshotTimer timeoutMs (.user f) userData with timeoutAt := timeoutFrom timeoutMs now }

/-- Producer `i` links its handle into `async_list`. -/
def St.link (s : St) (i : Nat) (hd : Handle) : St :=
  { s with
    heap := Function.update s.heap s.next (some hd)
    next := s.next + 1
    lists := Function.update s.lists .async (s.lists .async ++ [s.next])
    producers := s.producers.set i (.linked s.next)
    log := .added s.next :: .queued s.next :: s.log }

/-- One step of producer `i`. -/
def stepProducer (s : St) (i : Nat) : Option St :=
  match s.producers[i]? with
  | some (.filled hd) =>
    if s.asyncLock = none then
      some { s with asyncLock := some (.producer i), producers := s.producers.set i (.locked hd) }
    else none
  | some (.locked hd) =>
    if s.stopping ∨ s.finalized then some { s with producers := s.producers.set i .refused }
    else some (s.link i hd)
  | some (.linked h) =>
    some { s with
      pipe := if 0 ≤ s.asyncPipe1 ∧ s.pipe < s.pipeCap then s.pipe + 1 else s.pipe
      producers := s.producers.set i (.woken h) }
  | some (.woken h) => some { s with asyncLock := none, producers := s.producers.set i (.done (some h)) }
  | some .refused => some { s with asyncLock := none, producers := s.producers.set i (.done none) }
  | _ => none

def other : Other → St → Option St
  | .start t cb ud now m, s =>
    if s.alive then some { s with producers := s.producers ++ [startProducer t cb ud now m] } else none
  | .step i, s => if s.alive then stepProducer s i else none

/-! ## Which runs are considered -/

/-- Which deadlines of handles without a descriptor may saturate. -/
inductive Sat where
  | any
  /-- Only those of one-shot timers not yet installed, and of handles that are
  about to be or are being dispatched: these are not armed as they stand. -/
  | unarmed
  | never
  deriving DecidableEq, Repr

structure Mode where
  sat : Sat := .any
  /-- User code may pass handles released behind its back. -/
  stale : Bool := false
  /-- The callback of a registered handle may return after `aloe_evb2_destroy`. -/
  drop : Bool := true
  /-- A one-shot handle may be dispatched after `aloe_evb2_destroy`. -/
  late : Bool := true
  /-- `epoll_ctl` may fail outside `aloe_evb2_add_fd`. -/
  ctl : Bool := true

/-- The handle of the wake pipe, the first one allocated. -/
def wake : Ptr := 0

/-- `h->timeout_at = t` is not a saturated deadline, or one the mode allows. -/
def satOk (m : Mode) (s : St) (h : Ptr) (t : UInt64) : Bool :=
  t ≠ uint64Max || m.sat = .any || (s.heap h).any fun hd =>
    0 ≤ hd.fd || (m.sat = .unarmed && (h ∈ s.lists .ready || h ∈ s.lists .async || s.notifying = some h ||
      (hd.flag2.oneshot && h ∉ s.lists .timer)))

def Call.handle : Call → Option Ptr
  | .cancel h | .setTimeout h _ => some h
  | _ => none

def Call.adds : Call → Bool
  | .addFd .. | .addOneshotFd .. | .addTimer .. => true
  | _ => false

def guard (m : Mode) : Guard Op St Env Call Other where
  calls c s := s.alive && c.handle.all fun h => valid s.log h && (m.stale || !dropped s.log h)
  resumes s := !s.stopping || m.drop || s.notifying.all fun h => !registered s.log h
  may c o e s :=
    match o with
    | .setTimeoutAt h t => satOk m s h t
    | .emit (.dispatch _ _ _ _ oneshot stopping) => m.late || !(oneshot && stopping)
    | .epollCtl _ _ _ => m.ctl || c.adds || e.ctlErr.isNone
    -- The caller of `aloe_evb2_add_oneshot_timer` keeps the context alive.
    | .freeCtx => s.producers.all (· matches .done _)
    | _ => true
  others l _ :=
    match l with
    | .start t _ _ now _ => m.sat ≠ .never || timeoutFrom t now ≠ uint64Max
    | .step _ => true

def sys : System Op Op.Out St Env Call Ret Other where
  exec := Op.exec
  yields := Op.yields
  api := api
  other := other

abbrev Config := Cfg Op Op.Out St Call Ret

/-! ## Initial states -/

/-- What `aloe_evb2_create` gets from the kernel. -/
structure Boot where
  epfd : Int
  rd : Int
  wr : Int
  cap : Nat
  epfd_nonneg : 0 ≤ epfd
  rd_nonneg : 0 ≤ rd
  wr_nonneg : 0 ≤ wr
  cap_pos : 0 < cap

def wakeHandle (rd : Int) : Handle :=
  { cb := some .asyncHandler, fd := rd, timeoutMs := infinite, timeoutAt := uint64Max, flag := flagRead,
    flag2 := { internal := true } }

/-- The state a successful `aloe_evb2_create` leaves. -/
def St.init (b : Boot) : St where
  epfd := b.epfd
  asyncPipe0 := b.rd
  asyncPipe1 := b.wr
  lists := fun l => if l = .fdmon then [wake] else []
  asyncLock := none
  notifying := none
  stopping := false
  inRun := false
  finalized := false
  alive := true
  heap := Function.update (fun _ => none) wake (some (wakeHandle b.rd))
  next := 1
  interest := Function.update (fun _ => none) b.rd (some (toEpoll flagRead))
  pipe := 0
  pipeCap := b.cap
  producers := []
  log := []

def Config.init (b : Boot) : Config := ⟨St.init b, []⟩

/-- A configuration that some run of the considered kind reaches. -/
def Reachable (m : Mode) (b : Boot) (c : Config) : Prop := Reaches sys (guard m) (Config.init b) c

end AlgaeBp.Evb2
