import Mathlib.Data.Fintype.Basic
import Mathlib.Logic.Function.Basic
/-!
# Counting semaphores

`aloe_sem_post` and `aloe_sem_wait` of `sys_linux.cpp`, waiting without a time
limit, run by any number of threads. A step is what a thread does up to its
next operation on the mutex or the condition variable. `pthread_cond_signal`
wakes one of the threads that are blocked, whichever it likes, and a blocked
thread may wake up for no reason.
-/

namespace AlgaeBp.Sem

/-- Where a thread is. -/
inductive Pc where
  | idle
  /-- `aloe_sem_post` is about to lock the mutex. -/
  | postLock (broadcast : Bool)
  | postBody (broadcast : Bool)
  | postUnlock
  /-- `aloe_sem_wait` is about to lock the mutex. -/
  | waitLock
  /-- At the test of the loop. -/
  | waitTest
  /-- In `pthread_cond_wait`, and not signalled. -/
  | waitBlocked
  /-- Signalled; `pthread_cond_wait` is about to lock the mutex again. -/
  | waitSignalled
  | waitUnlock
  deriving DecidableEq, Repr

structure St (ι : Type) where
  max : Int
  cnt : Int
  /-- Who holds the mutex. -/
  mutex : Option ι
  pc : ι → Pc
  /-- How many posts have raised the count. -/
  posts : Nat
  /-- How many waits have lowered it. -/
  waits : Nat

inductive Label (ι : Type) where
  /-- An idle thread calls `aloe_sem_post` or `aloe_sem_wait`. -/
  | post (i : ι) (broadcast : Bool)
  | wait (i : ι)
  /-- A blocked thread wakes up. -/
  | wake (i : ι)
  /-- The thread goes on. If it signals, and threads are blocked, it signals `j`. -/
  | run (i j : ι)
  deriving DecidableEq, Repr

variable {ι : Type} [DecidableEq ι]

def goto (i : ι) (pc : Pc) (s : St ι) : St ι := { s with pc := Function.update s.pc i pc }

def lock (i : ι) (pc : Pc) (s : St ι) : Option (St ι) :=
  if s.mutex = none then some { goto i pc s with mutex := some i } else none

def unlock (i : ι) (pc : Pc) (s : St ι) : St ι := { goto i pc s with mutex := none }

/-- `pthread_cond_broadcast`. -/
def condBroadcast (s : St ι) : St ι :=
  { s with pc := fun i => if s.pc i = .waitBlocked then .waitSignalled else s.pc i }

/-- `pthread_cond_signal`. -/
def condSignal [Fintype ι] (j : ι) (s : St ι) : Option (St ι) :=
  if s.pc j = .waitBlocked then some (goto j .waitSignalled s)
  else if ∀ k, s.pc k ≠ .waitBlocked then some s
  else none

/-- `aloe_sem_post` with the mutex locked. -/
def semPost [Fintype ι] (broadcast : Bool) (j : ι) (s : St ι) : Option (St ι) :=
  if s.cnt < s.max then
    let s := { s with cnt := s.cnt + 1, posts := s.posts + 1 }
    if s.cnt = 1 then
      if broadcast then some (condBroadcast s) else condSignal j s
    else some s
  else some s

/-- A turn of the loop of `aloe_sem_wait`, and what follows the loop. -/
def semWait (i : ι) (s : St ι) : St ι :=
  if s.cnt = 0 then unlock i .waitBlocked s
  else goto i .waitUnlock { s with cnt := s.cnt - 1, waits := s.waits + 1 }

def step [Fintype ι] (s : St ι) : Label ι → Option (St ι)
  | .post i broadcast => if s.pc i = .idle then some (goto i (.postLock broadcast) s) else none
  | .wait i => if s.pc i = .idle then some (goto i .waitLock s) else none
  | .wake i => if s.pc i = .waitBlocked then some (goto i .waitSignalled s) else none
  | .run i j =>
    match s.pc i with
    | .idle => none
    | .postLock broadcast => lock i (.postBody broadcast) s
    | .postBody broadcast => (semPost broadcast j s).map (goto i .postUnlock)
    | .postUnlock => some (unlock i .idle s)
    | .waitLock => lock i .waitTest s
    | .waitTest => some (semWait i s)
    | .waitBlocked => none
    | .waitSignalled => lock i .waitTest s
    | .waitUnlock => some (unlock i .idle s)

/-- What `aloe_sem_init` leaves. -/
def init (max cnt : Int) : St ι where
  max := max
  cnt := cnt
  mutex := none
  pc := fun _ => .idle
  posts := 0
  waits := 0

end AlgaeBp.Sem
