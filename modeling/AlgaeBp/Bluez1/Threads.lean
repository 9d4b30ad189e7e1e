import AlgaeBp.Bluez1.Code
import AlgaeBp.Lib.Handshake
import AlgaeBp.Lib.Runs
/-!
# The two threads of the BlueZ peripheral

Public calls come from one thread, one after the other. `bluez1_start` waits
until the worker says that it is ready; the other calls leave a `Work` on the
stack of `dispatch` for the worker's main loop, and wait until it is done. A
step here goes up to what the other thread can notice.

`history` has the calls in the order in which they take effect, with what they
result in, and what others do in the main loop in between. `returned` has what
the public calls have returned.
-/
open Handshakes

namespace AlgaeBp.Bluez1

/-- A public call. -/
inductive Request where
  | start (adapter : Option Path) (receive : Option Nat) (arg : Nat)
  | stop
  | send (data : Option (Nat → UInt8)) (size : Nat) (notify : Bool)
  | pair (device : Option Path)

/-- The call, where GLib and BlueZ answer as `env` says. -/
def Request.call (env : StartEnv) : Request → Call
  | .start adapter receive arg => .start adapter receive arg env
  | .stop => .stop env.toAnswers
  | .send data size notify => .send data size notify
  | .pair device => .pair device env.toAnswers

/-- What the worker runs for it: `stop_work`, `send_work` or `pair_work`. -/
inductive Job where
  | stop
  | send (data : Nat → UInt8) (size : Nat) (notify : Bool)
  | pair

def Job.isStop : Job → Bool
  | .stop => true
  | _ => false

/-- `Work`. -/
structure Work where
  job : Job
  handshake : Handshake
  done : Bool
  result : Int

inductive Caller where
  | idle
  /-- About to call `g_thread_try_new`. -/
  | spawn (q : Request)
  /-- In `bluez1_start`, from `g_mutex_lock` to `g_mutex_unlock`. -/
  | starting (q : Request)
  | joinFailed (q : Request) (rc : Int)
  /-- In `dispatch`, before `g_source_attach`. -/
  | attach (q : Request)
  | dispatching (q : Request)
  | joinStopped (q : Request)

inductive Worker where
  | absent
  | setup (q : Request) (env : StartEnv)
  /-- From `g_mutex_lock` to `g_mutex_unlock` in `worker_main`. -/
  | posting (q : Request) (env : StartEnv) (rc : Int)
  | loop
  /-- In `run_work`, after `fn`. -/
  | running (rc : Int)
  | cleanup (env : StartEnv)
  | ended (env : StartEnv)

structure Sys where
  st : State
  caller : Caller
  worker : Worker
  /-- `mutex` and `cond` of `State`. -/
  ready : Handshake
  /-- The `Work` of `dispatch`, as long as its stack frame is there. -/
  work : Option Work
  /-- A source is attached to `context`. -/
  attached : Bool
  /-- `g_main_loop_quit` was called. -/
  quit : Bool
  /-- A `Work` was used that is not there. -/
  faulty : Bool
  history : List (Call × Int)
  returned : List (Request × Int)

inductive Label where
  | call (q : Request) (env : StartEnv)
  | caller (env : StartEnv)
  | worker (env : StartEnv)
  | happen (h : Happening)

/-! ## The caller -/

def takeEffect (c : Call) (rc : Int) (s : Sys) : Sys := { s with history := s.history ++ [(c, rc)] }

def giveBack (q : Request) (rc : Int) (s : Sys) : Sys := { s with caller := .idle, returned := s.returned ++ [(q, rc)] }

/-- A call that returns before it asks the worker. -/
def refuse (q : Request) (env : StartEnv) (rc : Int) (s : Sys) : Sys := giveBack q rc (takeEffect (q.call env) rc s)

/-- `dispatch`, up to the source: the mutex of the `Work` is locked at once. -/
def dispatch (q : Request) (job : Job) (s : Sys) : Sys :=
  { s with caller := .attach q, work := some ⟨job, .entered, false, 0⟩ }

/-- The beginning of a public call. -/
def begin [GLib] (q : Request) (env : StartEnv) (s : Sys) : Sys :=
  match q with
  | .start adapter receive arg =>
    let path := adapter.getD "/org/bluez/hci0"
    if s.st.worker = true ∨ isObjectPath path = false then refuse q env (-1) s
    else { s with st := prepare path receive arg s.st, caller := .spawn q }
  | .stop => if s.st.worker = false then refuse q env 0 s else dispatch q .stop s
  | .send data size notify =>
    if s.st.worker = false ∨ size > 20 ∨ size ≠ 0 ∧ data = none then refuse q env (-1) s
    else dispatch q (.send (data.getD fun _ => 0) size notify) s
  | .pair device =>
    if s.st.worker = false ∨ device.all isObjectPath = false ∨ device = none then refuse q env (-1) s
    else dispatch q .pair s

/-- `g_thread_try_new`. The worker does not look at `worker`. -/
def spawn (q : Request) (env : StartEnv) (s : Sys) : Sys :=
  if env.thread then
    { s with st := { s.st with worker := true }, caller := .starting q, worker := .setup q env, ready := .fresh }
  else
    giveBack q (-1) (takeEffect (q.call env) (-1)
      { s with st := { s.st with loop := false, context := false, adapter := none } })

/-- `bluez1_start` is past the wait. -/
def started (q : Request) (s : Sys) : Sys :=
  if s.st.startResult ≠ 0 then { s with caller := .joinFailed q s.st.startResult } else giveBack q s.st.startResult s

/-- `dispatch` returns, and its `Work` is gone. -/
def dispatched (q : Request) (w : Work) (s : Sys) : Sys :=
  let s := { s with work := none }
  if w.job.isStop then { s with caller := .joinStopped q } else giveBack q w.result s

/-- `release_worker`, once the worker has ended. -/
def join (q : Request) (env : StartEnv) (rc : Int) (s : Sys) : Sys :=
  giveBack q rc (takeEffect (q.call env) rc { s with st := releaseWorker s.st, worker := .absent, quit := false })

def callerStep (env : StartEnv) (s : Sys) : Option Sys :=
  match s.caller with
  | .idle => none
  | .spawn q => some (spawn q env s)
  | .starting q => (s.ready.waiterStep s.st.ready).map fun h =>
      let s := { s with ready := h }
      if h.waiter = .past then started q s else s
  | .joinFailed q rc =>
    match s.worker with
    | .ended env => some (join q env rc s)
    | _ => none
  | .attach q => some { s with attached := true, caller := .dispatching q }
  | .dispatching q =>
    match s.work with
    | none => some { s with faulty := true }
    | some w => (w.handshake.waiterStep w.done).map fun h =>
      if h.waiter = .past then dispatched q w s else { s with work := some { w with handshake := h } }
  | .joinStopped q =>
    match s.worker with
    | .ended env => some (join q env 0 s)
    | _ => none

/-! ## The worker -/

/-- `fn` of a `Work`. -/
def runJob (env : StartEnv) (q : Request) (job : Job) (s : Sys) : Sys :=
  match job with
  | .stop => { s with quit := true, worker := .running 0 }
  | .send data size notify =>
    let (rc, st) := sendWork data size notify s.st
    takeEffect (q.call env) rc { s with st := st, worker := .running rc }
  | .pair =>
    let (rc, st) := pairWork env.toAnswers s.st
    takeEffect (q.call env) rc { s with st := st, worker := .running rc }

/-- The request that `dispatch` is for, to be named in `history`. -/
def Caller.request : Caller → Option Request
  | .dispatching q => some q
  | _ => none

/-- `g_main_loop_run` takes the source, or returns. -/
def loopStep (env : StartEnv) (s : Sys) : Option Sys :=
  if s.attached then
    match s.work, s.caller.request with
    | some w, some q => some (runJob env q w.job { s with attached := false })
    | _, _ => some { s with faulty := true }
  else if s.quit then some { s with worker := .cleanup env }
  else none

/-- What the step from `set` writes. -/
def post (q : Request) (env : StartEnv) (rc : Int) (s : Sys) : Sys :=
  let s := { s with st := { s.st with startResult := rc, ready := true } }
  if rc = 0 then takeEffect (q.call env) 0 s else s

def postingStep (q : Request) (env : StartEnv) (rc : Int) (s : Sys) : Option Sys :=
  s.ready.posterStep.map fun h =>
    let s := if s.ready.poster = .set then post q env rc s else s
    { s with ready := h, worker := if h.poster ≠ .past then .posting q env rc else if rc = 0 then .loop else .cleanup env }

def runningStep (rc : Int) (s : Sys) : Option Sys :=
  match s.work with
  | none => some { s with faulty := true }
  | some w => w.handshake.posterStep.map fun h =>
    let w := if w.handshake.poster = .set then { w with done := true, result := rc } else w
    { s with work := some { w with handshake := h }, worker := if h.poster ≠ .past then .running rc else .loop }

def workerStep (env : StartEnv) (s : Sys) : Option Sys :=
  match s.worker with
  | .absent | .ended _ => none
  | .setup q env =>
    let (r, st) := (setup env).run s.st
    some { s with st := st, worker := .posting q env (if r = none then -1 else 0) }
  | .posting q env rc => postingStep q env rc s
  | .loop => loopStep env s
  | .running rc => runningStep rc s
  | .cleanup env => some { s with st := (cleanup env.toAnswers s.st).2, worker := .ended env }

/-- Others are served by the main loop. -/
def happenStep (h : Happening) (s : Sys) : Option Sys :=
  match s.worker with
  | .loop => some (takeEffect (.loop h) 0 { s with st := happen s.st h })
  | _ => none

def threadStep [GLib] (s : Sys) : Label → Option Sys
  | .call q env =>
    match s.caller with
    | .idle => some (begin q env s)
    | _ => none
  | .caller env => callerStep env s
  | .worker env => workerStep env s
  | .happen h => happenStep h s

def Sys.init (st : State) : Sys := ⟨st, .idle, .absent, .fresh, none, false, false, false, [], []⟩

/-! ## The calls as one sequence -/

/-- What the calls leave, one after the other, if they result in what is said. -/
def replay [GLib] (s : State) : List (Call × Int) → Option State
  | [] => some s
  | (c, r) :: rest => if (call c s).1 = r then replay (call c s).2 rest else none

/-- The public calls in it. -/
def Call.request : Call → Option Request
  | .start adapter receive arg _ => some (.start adapter receive arg)
  | .stop _ => some .stop
  | .send data size notify => some (.send data size notify)
  | .pair device _ => some (.pair device)
  | .loop _ => none

def answered (history : List (Call × Int)) : List (Request × Int) := history.filterMap fun e => e.1.request.map (·, e.2)

/-- The call in progress. -/
def Caller.current : Caller → Option Request
  | .idle => none
  | .spawn q | .starting q | .joinFailed q _ | .attach q | .dispatching q | .joinStopped q => some q

end AlgaeBp.Bluez1
