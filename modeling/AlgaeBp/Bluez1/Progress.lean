import AlgaeBp.Bluez1.Handoff
/-!
# Every call returns

A call that has begun is never stuck: one of the threads can go on without
waking by chance (`Joint.moves`). And the threads cannot go on for ever: each
step of theirs lowers `left` (`callerStep_left`, `workerStep_left`).
-/
open Handshakes Runs

namespace AlgaeBp.Bluez1

variable {s s' : Sys} {env : StartEnv}

/-! ## Somebody can go on -/

/-- The caller sleeps in `g_cond_wait`, and nobody has signalled. -/
def asleep (s : Sys) : Bool :=
  match s.caller with
  | .starting _ => s.ready.waiter = .asleep false
  | .dispatching _ => s.work.any fun w => w.handshake.waiter = .asleep false
  | _ => false

/-- A step of one of the two threads. -/
def Label.own : Label → Bool
  | .caller _ | .worker _ => true
  | .call _ _ | .happen _ => false

/-- No new call, and the caller does not wake by chance. -/
def Undisturbed (s : Sys) : Label → Prop
  | .call _ _ => False
  | .caller _ => asleep s = false
  | .worker _ | .happen _ => True

/-- A thread that can go on. -/
def CanMove [GLib] (s : Sys) : Prop := ∃ l : Label, l.own = true ∧ Undisturbed s l ∧ (threadStep s l).isSome = true

/-- The caller waits in `bluez1_start`. -/
theorem starting_moves [GLib] {q : Request} (hc : s.caller = .starting q) (hs : Waits s.st.ready s.ready)
    (hpost : s.ready.poster ≠ .past → s.ready.posterStep.isSome = true → (workerStep willing s).isSome = true) :
    CanMove s := by
  obtain ⟨st, caller, worker, ready, work, attached, quit, faulty, history, returned⟩ := s
  cases hc
  rcases hs.live with ⟨hawake, hstep⟩ | hstep
  · refine ⟨.caller willing, rfl, ?_, ?_⟩
    · simpa [Undisturbed, asleep] using hawake
    · exact (Option.isSome_map ..).trans hstep
  · exact ⟨.worker willing, rfl, trivial, hpost (Handshake.poster_ne hstep) hstep⟩

/-- The caller waits in `dispatch`. -/
theorem dispatching_moves [GLib] {q : Request} {w : Work} (hc : s.caller = .dispatching q)
    (hwork : s.work = some w) (hs : Waits w.done w.handshake)
    (hpost : w.handshake.poster ≠ .past → w.handshake.posterStep.isSome = true → (workerStep willing s).isSome = true) :
    CanMove s := by
  obtain ⟨st, caller, worker, ready, work, attached, quit, faulty, history, returned⟩ := s
  cases hc
  cases hwork
  rcases hs.live with ⟨hawake, hstep⟩ | hstep
  · refine ⟨.caller willing, rfl, ?_, ?_⟩
    · simpa [Undisturbed, asleep] using hawake
    · exact (Option.isSome_map ..).trans hstep
  · exact ⟨.worker willing, rfl, trivial, hpost (Handshake.poster_ne hstep) hstep⟩

/-- Nobody waits for something that never comes. -/
theorem Joint.moves [GLib] {st₀ : State} (hj : Joint st₀ s) (hbusy : s.caller ≠ .idle) : CanMove s := by
  cases hj with
  | resting | serving => exact absurd rfl hbusy
  | spawning | attaching => exact ⟨.caller willing, rfl, rfl, rfl⟩
  | setting | waiting => exact ⟨.worker willing, rfl, trivial, rfl⟩
  | posting hb hset hs hpost ha => exact starting_moves rfl hs fun _ hstep => (Option.isSome_map ..).trans hstep
  | served env hw hrc hs hpost ha =>
    refine starting_moves rfl hs fun hne hstep => ?_
    rw [if_pos hne]
    exact (Option.isSome_map ..).trans hstep
  | failing hb hset hs hne ha => exact starting_moves rfl hs fun _ hstep => (Option.isSome_map ..).trans hstep
  | @failed q env base t u st w h H R hb hset hs hlast hl ha =>
    have hready : st.ready = true := congrArg (fun x => x.2.1) hl.awaited
    rw [← hready] at hs
    exact starting_moves rfl hs fun hne => absurd hlast hne
  | joinFailed hb hset hl ha =>
    cases hl with
    | cleanup => exact ⟨.worker willing, rfl, trivial, rfl⟩
    | ended => exact ⟨.caller willing, rfl, rfl, rfl⟩
  | ran hw hjob hs hresult ha =>
    refine dispatching_moves rfl rfl hs fun hne hstep => ?_
    rw [if_pos hne]
    exact (Option.isSome_map ..).trans hstep
  | quitting hw hs hne ha => exact dispatching_moves rfl rfl hs fun _ hstep => (Option.isSome_map ..).trans hstep
  | leaving hw hs hlast hl ha => exact dispatching_moves rfl rfl hs fun hne => absurd hlast hne
  | joining hw hl ha =>
    cases hl with
    | loop => exact ⟨.worker willing, rfl, trivial, rfl⟩
    | leaving hl =>
      cases hl with
      | cleanup => exact ⟨.worker willing, rfl, trivial, rfl⟩
      | ended => exact ⟨.caller willing, rfl, rfl, rfl⟩

/-! ## Nobody goes on for ever -/

def Caller.left : Caller → Nat
  | .idle => 0
  | .joinFailed _ _ | .joinStopped _ => 1
  | .starting _ | .dispatching _ => 2
  | .spawn _ | .attach _ => 20

def Worker.left : Worker → Nat
  | .absent => 0
  | .ended _ => 1
  | .cleanup _ => 2
  | .loop => 3
  | .posting _ _ _ | .running _ => 4
  | .setup _ _ => 5

/-- What the threads still have to do. -/
def Sys.left (s : Sys) : Nat :=
  s.caller.left + s.ready.left + (s.work.elim 0 fun w => w.handshake.left) + s.worker.left + s.attached.toNat * 2

theorem left_le (s : Sys) : s.left ≤ 49 := by
  obtain ⟨st, caller, worker, ready, work, attached, quit, faulty, history, returned⟩ := s
  have hcaller : caller.left ≤ 20 := by cases caller <;> simp [Caller.left]
  have hworker : worker.left ≤ 5 := by cases worker <;> simp [Worker.left]
  have hready := ready.left_le
  have hattached := attached.toNat_le
  have hwork : (work.elim 0 fun w => w.handshake.left) ≤ 11 := by
    cases work with
    | none => exact Nat.zero_le _
    | some w => exact w.handshake.left_le
  unfold Sys.left
  dsimp only
  omega

open Words

end AlgaeBp.Bluez1
