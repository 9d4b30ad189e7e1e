import AlgaeBp.Bluez1.Theorems
import AlgaeBp.Bluez1.Threads
/-!
# The threads do what the calls do one after the other

`Joint st₀ s`: how far the two threads are with the call in progress, and what
the calls that took effect have left, `base`. Every step of a thread keeps it,
with no call or one call more in `history`.
-/
open Handshakes Runs StateWp

namespace AlgaeBp.Bluez1

variable {s s' : Sys} {st base t u : State} {q : Request} {env : StartEnv} {rc : Int}

/-! ## What the worker leaves alone -/

/-- What `bluez1_start` waits for, and the worker's handle. -/
def awaited (s : State) : Bool × Bool × Int := (s.worker, s.ready, s.startResult)

theorem awaited_frame (hf : u.frame = t.frame) : awaited u = awaited t := by
  change awaited u.frame = awaited t.frame
  rw [hf]

theorem happen_awaited (t : State) (h : Happening) : awaited (happen t h) = awaited t := awaited_frame (happen_frame t h)

/-- `awaited` is as it was, wherever the code stops. -/
def Fixes (m : Setup Unit) : Prop := ∀ t, wps m (fun _ u => awaited u = awaited t) (fun u => awaited u = awaited t) t

theorem Fixes.seq {m : Setup Unit} {f : Unit → Setup Unit} (hm : Fixes m) (hf : Fixes (f ())) : Fixes (m >>= f) := by
  intro t
  refine wps.seq ((hm t).mono fun _ u hu => ?_)
  have hrest := hf u
  rw [hu] at hrest
  exact hrest

theorem fixes_ensure (ok : Bool) : Fixes (ensure ok) := fun _ => wps_ensure (fun _ => rfl) fun _ => rfl

/-- An update that leaves `awaited` alone, and what follows. -/
theorem Fixes.update {f : State → State} {rest : Unit → Setup Unit} (hrest : Fixes (rest ()))
    (hf : ∀ t, awaited (f t) = awaited t) : Fixes (modify f >>= rest) := by
  refine Fixes.seq (fun t => ?_) hrest
  exact wps_modify.2 (hf t)

theorem fixes_command (a : Answers) (c : DbusCall) {effect : State → State} (he : ∀ t, awaited (effect t) = awaited t) :
    Fixes (ensureM (command a c effect)) := by
  intro t
  refine wps_command fun u hu => ⟨fun _ => ?_, fun _ => awaited_frame hu⟩
  rw [he, awaited_frame hu]

theorem fixes_exportAll (exportId : Nat → Nat) (l : List Nat) : Fixes (exportAll exportId l) := by
  induction l with
  | nil => exact fun _ => rfl
  | cons i rest ih => exact (fixes_ensure _).seq (Fixes.update ih fun _ => rfl)

theorem fixes_setup (env : StartEnv) : Fixes (setup env) := by
  refine (fixes_ensure _).seq (Fixes.update ?_ ?_)
  · refine (fixes_ensure _).seq (Fixes.update ((fixes_exportAll _ _).seq ?_) ?_)
    · refine (fixes_command _ _ ?_).seq ((fixes_command _ _ ?_).seq ((fixes_command _ _ ?_).seq ?_))
      · exact fun _ => rfl
      · exact fun _ => rfl
      · exact fun _ => rfl
      · refine (fixes_command _ _ ?_).seq ((fixes_command _ _ ?_).seq (Fixes.update ?_ ?_))
        · exact fun _ => rfl
        · exact fun _ => rfl
        · refine (fixes_command _ _ ?_).seq ((fixes_command _ _ ?_).seq fun t => ?_)
          · exact fun _ => rfl
          · exact fun _ => rfl
          · exact wps_modify.2 rfl
        · exact fun _ => rfl
    · exact fun _ => rfl
  · exact fun _ => rfl

theorem setup_awaited {r : Option Unit} (hset : (setup env).run t = (r, u)) : awaited u = awaited t := by
  have hall := fixes_setup env t
  rw [wps, wp, hset] at hall
  cases r with
  | none => exact hall
  | some _ => exact hall

theorem command_awaited (a : Answers) (c : DbusCall) {effect : State → State}
    (he : ∀ t, awaited (effect t) = awaited t) (t : State) :
    wp (command a c effect) (fun _ u => awaited u = awaited t) t := by
  refine wp_command fun u hu => ⟨fun _ => ?_, fun _ => awaited_frame hu⟩
  rw [he, awaited_frame hu]

theorem restore_awaited (a : Answers) (t : State) : wp (restore a) (fun _ u => awaited u = awaited t) t := by
  refine wp_read.2 ?_
  split
  · refine wp.bind (command_awaited a .restorePairable ?_ t) fun _ u hu => hu
    exact fun _ => rfl
  · exact rfl

theorem unregisterObjects_awaited (ids : List Nat) (t : State) : awaited (ids.foldl unregisterObject t) = awaited t := by
  induction ids generalizing t with
  | nil => rfl
  | cons i ids ih =>
    rw [List.foldl_cons, ih]
    rfl

theorem cleanup_awaited (a : Answers) (t : State) : awaited (cleanup a t).2 = awaited t := by
  have hall : wp (cleanup a) (fun _ u => awaited u = awaited t) t := by
    refine wp_read.2 ?_
    split
    · refine wp.bind (restore_awaited a t) fun _ u hu => ?_
      exact (unregisterObjects_awaited u.objects u).trans hu
    · exact rfl
  exact hall

theorem sendWork_awaited (data : Nat → UInt8) (size : Nat) (notify : Bool) (t : State) :
    awaited (sendWork data size notify t).2 = awaited t := by
  have hall : wp (sendWork data size notify) (fun _ u => awaited u = awaited t) t := by
    refine wp_read.2 ?_
    split
    · exact rfl
    · cases notify <;> exact rfl
  exact hall

theorem pairWork_awaited (a : Answers) (t : State) : awaited (pairWork a t).2 = awaited t := by
  have hall : wp (pairWork a) (fun _ u => awaited u = awaited t) t := by
    refine wp_read.2 ?_
    split
    · exact rfl
    · exact wp.update (wp.bind (command_awaited a .pair (fun _ => rfl) _) fun _ u hu => hu)
  exact hall

/-! ## The calls -/

/-- What a start leaves for `g_thread_try_new`. -/
def Prepared [GLib] (q : Request) (base t : State) : Prop :=
  ∃ adapter receive arg, q = .start adapter receive arg ∧ base.worker = false ∧
    isObjectPath (adapter.getD "/org/bluez/hci0") = true ∧ t = prepare (adapter.getD "/org/bluez/hci0") receive arg base

/-- Where the worker of a start begins. -/
def Begun [GLib] (q : Request) (env : StartEnv) (base t : State) : Prop :=
  env.thread = true ∧ ∃ t₀, Prepared q base t₀ ∧ t = { t₀ with worker := true }

theorem Prepared.worker [GLib] (hp : Prepared q base t) : t.worker = false := by
  obtain ⟨adapter, receive, arg, -, hw, -, rfl⟩ := hp
  exact hw

theorem Begun.intro [GLib] {t₀ : State} (hthread : env.thread = true) (hp : Prepared q base t₀) :
    Begun q env base { t₀ with worker := true } :=
  ⟨hthread, t₀, hp, rfl⟩

theorem Begun.worker [GLib] (hb : Begun q env base t) : t.worker = true := by
  obtain ⟨-, t₀, -, rfl⟩ := hb
  rfl

/-- What `worker_main` tells the caller. -/
def told (rc : Int) (u : State) : State := { u with startResult := rc, ready := true }

theorem call_start_unthreaded [GLib] (hp : Prepared q base t) (hthread : env.thread = false) :
    wp (call (q.call env)) (fun r u => r = -1 ∧ u = { t with loop := false, context := false, adapter := none }) base := by
  obtain ⟨adapter, receive, arg, rfl, hw, hpath, rfl⟩ := hp
  refine wp_read.2 ?_
  rw [if_neg (by simp [hw, hpath])]
  refine wp.update ?_
  rw [if_neg (by simp [hthread])]
  exact ⟨rfl, rfl⟩

/-- A start that got its thread waits for it. -/
theorem call_start_threaded [GLib] {Q : Int → State → Prop} (hb : Begun q env base t)
    (hwait : wp (workerMain env >>= fun _ => do
      if (← get).startResult ≠ 0 then modify releaseWorker; return -1 else return 0) Q t) :
    wp (call (q.call env)) Q base := by
  obtain ⟨hthread, t₀, ⟨adapter, receive, arg, rfl, hw, hpath, rfl⟩, rfl⟩ := hb
  refine wp_read.2 ?_
  rw [if_neg (by simp [hw, hpath])]
  refine wp.update ?_
  rw [if_pos hthread]
  exact wp.update hwait

theorem call_start_served [GLib] (hb : Begun q env base t) (hset : (setup env).run t = (some (), u)) :
    wp (call (q.call env)) (fun r v => r = 0 ∧ v = told 0 u) base := by
  refine call_start_threaded hb (wp_bind.2 (wp_bind.2 ?_))
  rw [wp, hset]
  exact ⟨rfl, rfl⟩

theorem call_start_failed [GLib] (hb : Begun q env base t) (hset : (setup env).run t = (none, u)) :
    wp (call (q.call env)) (fun r v => r = -1 ∧ v = releaseWorker (cleanup env.toAnswers (told (-1) u)).2) base := by
  refine call_start_threaded hb (wp_bind.2 (wp_bind.2 ?_))
  rw [wp, hset]
  have hcleanup : wp (cleanup env.toAnswers) (fun _ v => v = (cleanup env.toAnswers (told (-1) u)).2) (told (-1) u) := rfl
  refine wp.update (wp.mono hcleanup fun _ v hv => ?_)
  subst hv
  refine wp.branch (fun _ => ⟨rfl, rfl⟩) fun hzero => ?_
  have hresult : (cleanup env.toAnswers (told (-1) u)).2.startResult = -1 :=
    congrArg (fun x => x.2.2) (cleanup_awaited env.toAnswers (told (-1) u))
  rw [hresult] at hzero
  exact absurd (by decide) hzero

theorem call_stop_served [GLib] (hw : base.worker = true) (env : StartEnv) :
    wp (call (Request.stop.call env)) (fun r v => r = 0 ∧ v = releaseWorker (cleanup env.toAnswers base).2) base := by
  refine wp_read.2 ?_
  rw [if_neg (by simp [hw])]
  exact ⟨rfl, rfl⟩

/-- `dispatch` is called with this for the request. -/
inductive JobOf [GLib] : Request → Job → Prop
  | stop : JobOf .stop .stop
  | send {data : Option (Nat → UInt8)} {size : Nat} {notify : Bool} (hsize : size ≤ 20) (hdata : size = 0 ∨ data ≠ none) :
      JobOf (.send data size notify) (.send (data.getD fun _ => 0) size notify)
  | pair {device : Option Path} (hdevice : device ≠ none) (hpath : device.all isObjectPath = true) :
      JobOf (.pair device) .pair

theorem call_send_served {data : Option (Nat → UInt8)} {size : Nat} {notify : Bool} {Q : Int → State → Prop}
    (hw : base.worker = true)
    (hsize : size ≤ 20) (hdata : size = 0 ∨ data ≠ none) (hQ : wp (sendWork (data.getD fun _ => 0) size notify) Q base) :
    wp (bluez1Send data size notify) Q base := by
  have hok : ¬ (base.worker = false ∨ size > 20 ∨ size ≠ 0 ∧ data = none) := by
    rintro (hfalse | hgt | ⟨hne, hnone⟩)
    · simp [hw] at hfalse
    · omega
    · exact hdata.elim hne (absurd hnone)
  refine wp_read.2 ?_
  rwa [if_neg hok]

theorem call_pair_served [GLib] {device : Option Path} {a : Answers} {Q : Int → State → Prop} (hw : base.worker = true)
    (hdevice : device ≠ none) (hpath : device.all isObjectPath = true) (hQ : wp (pairWork a) Q base) :
    wp (bluez1Pair device a) Q base := by
  refine wp_read.2 ?_
  rwa [if_neg (by simp [hw, hdevice, hpath])]

/-! ## What is recorded -/

/-- The calls in `H` lead to `base`, and all of them but `pend` have returned. -/
structure Accounts [GLib] (st₀ : State) (H : List (Call × Int)) (R : List (Request × Int)) (base : State)
    (pend : List (Request × Int)) :
    Prop where
  replayed : replay st₀ H = some base
  answered : answered H = R ++ pend

section Accounts

variable {st₀ base' : State} {H H' : List (Call × Int)} {R pend : List (Request × Int)} {c : Call}

theorem replay_append [GLib] (t : State) : replay t (H ++ H') = (replay t H).bind fun u => replay u H' := by
  induction H generalizing t with
  | nil => rfl
  | cons e H ih =>
    rw [List.cons_append, replay, replay]
    split
    · exact ih _
    · rfl

theorem Accounts.concat [GLib] (ha : Accounts st₀ H R base pend) (hc : wp (call c) (fun r u => r = rc ∧ u = base') base) :
    replay st₀ (H ++ [(c, rc)]) = some base' := by
  rw [replay_append, ha.replayed, Option.bind_some, replay, if_pos hc.1, replay]
  exact congrArg some hc.2

/-- A call takes effect. -/
theorem Accounts.effect [GLib] (ha : Accounts st₀ H R base [])
    (hc : wp (call (q.call env)) (fun r u => r = rc ∧ u = base') base) :
    Accounts st₀ (H ++ [(q.call env, rc)]) R base' [(q, rc)] where
  replayed := ha.concat hc
  answered := by
    have hq : (q.call env).request = some q := by cases q <;> rfl
    rw [Bluez1.answered, List.filterMap_append, ← Bluez1.answered, ha.answered, List.append_nil]
    simp [hq]

theorem Accounts.returned [GLib] (ha : Accounts st₀ H R base [(q, rc)]) : Accounts st₀ H (R ++ [(q, rc)]) base [] where
  replayed := ha.replayed
  answered := by rw [ha.answered, List.append_nil]

/-- A call that takes effect as it returns. -/
theorem Accounts.refused [GLib] (ha : Accounts st₀ H R base [])
    (hc : wp (call (q.call env)) (fun r u => r = rc ∧ u = base') base) :
    Accounts st₀ (H ++ [(q.call env, rc)]) (R ++ [(q, rc)]) base' [] := (ha.effect hc).returned

theorem Accounts.happen [GLib] (ha : Accounts st₀ H R base pend) (hw : base.worker = true) (h : Happening) :
    Accounts st₀ (H ++ [(.loop h, 0)]) R (happen base h) pend where
  replayed := by
    refine ha.concat (wp_read.2 ?_)
    rw [if_pos hw]
    exact ⟨rfl, rfl⟩
  answered := by
    rw [Bluez1.answered, List.filterMap_append, ← Bluez1.answered, ha.answered]
    exact List.append_nil _

end Accounts

/-! ## Where the threads are -/

/-- The worker that left its main loop with `t`, or never was there. -/
inductive Leaving (env : StartEnv) (t : State) : Worker → State → Prop
  | cleanup : Leaving env t (.cleanup env) t
  | ended : Leaving env t (.ended env) (Bluez1.cleanup env.toAnswers t).2

/-- `g_main_loop_quit` was called. -/
inductive Stopping (base : State) : Worker → State → Prop
  | loop : Stopping base .loop base
  | leaving {env : StartEnv} {w : Worker} {st : State} (hl : Leaving env base w st) : Stopping base w st

/-- How far the threads are, and how far the records. -/
inductive Joint [GLib] (st₀ : State) : Sys → Prop
  | resting {base ready H R} (hw : base.worker = false) (ha : Accounts st₀ H R base []) :
      Joint st₀ ⟨base, .idle, .absent, ready, none, false, false, false, H, R⟩
  | serving {base ready H R} (hw : base.worker = true) (ha : Accounts st₀ H R base []) :
      Joint st₀ ⟨base, .idle, .loop, ready, none, false, false, false, H, R⟩
  | spawning {q base t ready H R} (hp : Prepared q base t) (ha : Accounts st₀ H R base []) :
      Joint st₀ ⟨t, .spawn q, .absent, ready, none, false, false, false, H, R⟩
  | setting {q env base t h H R} (hb : Begun q env base t) (hs : Waits t.ready h) (hlock : h.poster = .lock)
      (ha : Accounts st₀ H R base []) : Joint st₀ ⟨t, .starting q, .setup q env, h, none, false, false, false, H, R⟩
  /-- `setup` has returned. -/
  | posting {q env base t u r h H R} (hb : Begun q env base t) (hset : (setup env).run t = (r, u)) (hs : Waits u.ready h)
      (hpost : h.poster.posted = false) (ha : Accounts st₀ H R base []) :
      Joint st₀ ⟨u, .starting q, .posting q env (if r = none then -1 else 0), h, none, false, false, false, H, R⟩
  /-- The start has taken effect; the worker is in `worker_main` or in its main loop. -/
  | served (env : StartEnv) {q base h H R} (hw : base.worker = true) (hrc : base.startResult = 0) (hs : Waits base.ready h)
      (hpost : h.poster.posted = true) (ha : Accounts st₀ H R base [(q, 0)]) :
      Joint st₀ ⟨base, .starting q, if h.poster ≠ .past then .posting q env 0 else .loop, h, none, false, false, false, H, R⟩
  | failing {q env base t u h H R} (hb : Begun q env base t) (hset : (setup env).run t = (none, u)) (hs : Waits true h)
      (hne : h.poster ≠ .past) (ha : Accounts st₀ H R base []) :
      Joint st₀ ⟨told (-1) u, .starting q, .posting q env (-1), h, none, false, false, false, H, R⟩
  | failed {q env base t u st w h H R} (hb : Begun q env base t) (hset : (setup env).run t = (none, u)) (hs : Waits true h)
      (hpast : h.poster = .past) (hl : Leaving env (told (-1) u) w st) (ha : Accounts st₀ H R base []) :
      Joint st₀ ⟨st, .starting q, w, h, none, false, false, false, H, R⟩
  | joinFailed {q env base t u st w h H R} (hb : Begun q env base t) (hset : (setup env).run t = (none, u))
      (hl : Leaving env (told (-1) u) w st) (ha : Accounts st₀ H R base []) :
      Joint st₀ ⟨st, .joinFailed q (-1), w, h, none, false, false, false, H, R⟩
  | attaching {q job base ready H R} (hw : base.worker = true) (hj : JobOf q job) (ha : Accounts st₀ H R base []) :
      Joint st₀ ⟨base, .attach q, .loop, ready, some ⟨job, .entered, false, 0⟩, false, false, false, H, R⟩
  | waiting {q job base ready h H R} (hw : base.worker = true) (hj : JobOf q job)
      (hs : Waits false h) (hlock : h.poster = .lock) (ha : Accounts st₀ H R base []) :
      Joint st₀ ⟨base, .dispatching q, .loop, ready, some ⟨job, h, false, 0⟩, true, false, false, H, R⟩
  /-- The call has taken effect; the worker is in `run_work` or in its main loop. -/
  | ran {q job base ready h done result rc H R} (hw : base.worker = true) (hjob : job.isStop = false) (hs : Waits done h)
      (hresult : done = true → result = rc) (ha : Accounts st₀ H R base [(q, rc)]) :
      Joint st₀ ⟨base, .dispatching q, if h.poster ≠ .past then .running rc else .loop, ready, some ⟨job, h, done, result⟩,
        false, false, false, H, R⟩
  | quitting {base ready h done result H R} (hw : base.worker = true) (hs : Waits done h) (hne : h.poster ≠ .past)
      (ha : Accounts st₀ H R base []) :
      Joint st₀ ⟨base, .dispatching .stop, .running 0, ready, some ⟨.stop, h, done, result⟩, false, true, false, H, R⟩
  | leaving {base st w ready h done result H R} (hw : base.worker = true) (hs : Waits done h) (hpast : h.poster = .past)
      (hl : Stopping base w st) (ha : Accounts st₀ H R base []) :
      Joint st₀ ⟨st, .dispatching .stop, w, ready, some ⟨.stop, h, done, result⟩, false, true, false, H, R⟩
  | joining {base st w ready H R} (hw : base.worker = true) (hl : Stopping base w st) (ha : Accounts st₀ H R base []) :
      Joint st₀ ⟨st, .joinStopped .stop, w, ready, none, false, true, false, H, R⟩

section Steps

variable {st₀ : State} {ready : Handshake} {H : List (Call × Int)} {R : List (Request × Int)}

/-! ## The calls begin -/

theorem begin_resting [GLib] (hw : base.worker = false) (ha : Accounts st₀ H R base []) (q : Request) (env : StartEnv) :
    Joint st₀ (begin q env ⟨base, .idle, .absent, ready, none, false, false, false, H, R⟩) := by
  cases q with
  | start adapter receive arg =>
    unfold begin
    dsimp only
    split
    · next hbad =>
      refine .resting hw (ha.refused (wp_read.2 ?_))
      rw [if_pos hbad]
      exact ⟨rfl, rfl⟩
    · next hok => exact .spawning ⟨adapter, receive, arg, rfl, hw, by simpa using fun hp => hok (.inr hp), rfl⟩ ha
  | stop =>
    unfold begin
    dsimp only
    rw [if_pos hw]
    exact .resting hw (ha.refused (stop_idle hw))
  | send data size notify =>
    unfold begin
    dsimp only
    rw [if_pos (.inl hw)]
    exact .resting hw (ha.refused (send_idle hw))
  | pair device =>
    unfold begin
    dsimp only
    rw [if_pos (.inl hw)]
    exact .resting hw (ha.refused (pair_idle hw))

theorem begin_serving [GLib] (hw : base.worker = true) (ha : Accounts st₀ H R base []) (q : Request) (env : StartEnv) :
    Joint st₀ (begin q env ⟨base, .idle, .loop, ready, none, false, false, false, H, R⟩) := by
  cases q with
  | start adapter receive arg =>
    unfold begin
    dsimp only
    rw [if_pos (.inl hw)]
    exact .serving hw (ha.refused (start_refused hw))
  | stop =>
    unfold begin
    dsimp only
    rw [if_neg (by simp [hw])]
    exact .attaching hw .stop ha
  | send data size notify =>
    unfold begin
    dsimp only
    split
    · next hbad =>
      refine .serving hw (ha.refused (wp_read.2 ?_))
      rw [if_pos hbad]
      exact ⟨rfl, rfl⟩
    · next hok =>
      refine .attaching hw (.send (Nat.not_lt.1 fun hgt => hok (.inr (.inl hgt))) ?_) ha
      by_cases hsize : size = 0
      · exact .inl hsize
      · exact .inr fun hnone => hok (.inr (.inr ⟨hsize, hnone⟩))
  | pair device =>
    unfold begin
    dsimp only
    split
    · next hbad =>
      refine .serving hw (ha.refused (wp_read.2 ?_))
      rw [if_pos hbad]
      exact ⟨rfl, rfl⟩
    · next hok =>
      refine .attaching hw (.pair (fun hnone => hok (.inr (.inr hnone))) ?_) ha
      simpa using fun hp => hok (.inr (.inl hp))

theorem Joint.begin [GLib] (hj : Joint st₀ s) (hs : threadStep s (.call q env) = some s') : Joint st₀ s' := by
  cases hj with
  | resting hw ha =>
    obtain rfl := Option.some.inj hs
    exact begin_resting hw ha q env
  | serving hw ha =>
    obtain rfl := Option.some.inj hs
    exact begin_serving hw ha q env
  | _ => cases hs

/-! ## The caller goes on -/

theorem Leaving.awaited {w : Worker} (hl : Leaving env t w st) : awaited st = awaited t := by
  cases hl with
  | cleanup => rfl
  | ended => exact cleanup_awaited env.toAnswers t

/-- What the caller does in `bluez1_start` once there is a worker. -/
theorem starting_cases (hc : s.caller = .starting q) (hs : callerStep env s = some s') :
    ∃ h', s.ready.waiterStep s.st.ready = some h' ∧
      (h'.waiter ≠ .past ∧ s' = { s with ready := h' } ∨ h'.waiter = .past ∧ s' = started q { s with ready := h' }) := by
  obtain ⟨st, caller, worker, ready, work, attached, quit, faulty, history, returned⟩ := s
  cases hc
  obtain ⟨h', hwait, rfl⟩ := Option.map_eq_some_iff.1 hs
  refine ⟨h', hwait, ?_⟩
  by_cases hpast : h'.waiter = .past
  · exact .inr ⟨hpast, if_pos hpast⟩
  · exact .inl ⟨hpast, if_neg hpast⟩

/-- What it does in `dispatch` after `g_source_attach`. -/
theorem dispatching_cases {w : Work} (hc : s.caller = .dispatching q) (hwork : s.work = some w)
    (hs : callerStep env s = some s') :
    ∃ h', w.handshake.waiterStep w.done = some h' ∧
      (h'.waiter ≠ .past ∧ s' = { s with work := some { w with handshake := h' } } ∨ h'.waiter = .past ∧
        s' = dispatched q w s) := by
  obtain ⟨st, caller, worker, ready, work, attached, quit, faulty, history, returned⟩ := s
  cases hc
  cases hwork
  obtain ⟨h', hwait, rfl⟩ := Option.map_eq_some_iff.1 hs
  refine ⟨h', hwait, ?_⟩
  by_cases hpast : h'.waiter = .past
  · exact .inr ⟨hpast, if_pos hpast⟩
  · exact .inl ⟨hpast, if_neg hpast⟩

theorem Joint.caller [GLib] {env' : StartEnv} (hj : Joint st₀ s) (hs : callerStep env' s = some s') : Joint st₀ s' := by
  cases hj with
  | resting | serving => cases hs
  | spawning hp ha =>
    obtain rfl := Option.some.inj hs
    unfold spawn
    split
    · next hthread =>
      have hb := Begun.intro hthread hp
      obtain ⟨adapter, receive, arg, rfl, -, -, rfl⟩ := hp
      exact .setting hb waits_fresh rfl ha
    · next hthread =>
      exact .resting hp.worker (ha.refused (call_start_unthreaded hp (by simpa using hthread)))
  | setting hb hsound hlock ha =>
    -- the flag is not set, and the caller stays in its wait
    obtain ⟨h', hwait, ⟨hin, rfl⟩ | ⟨hpast, -⟩⟩ := starting_cases rfl hs
    · exact .setting hb (hsound.waiterStep hwait hin) ((Handshake.waiterStep_poster hwait).trans hlock) ha
    · exact absurd hpast (hsound.not_past hwait (by simp [hlock]))
  | posting hb hset hsound hpost ha =>
    obtain ⟨h', hwait, ⟨hin, rfl⟩ | ⟨hpast, -⟩⟩ := starting_cases rfl hs
    · exact .posting hb hset (hsound.waiterStep hwait hin) (Handshake.waiterStep_poster hwait ▸ hpost) ha
    · exact absurd hpast (hsound.not_past hwait fun hlast => by simp [hlast, Poster.posted] at hpost)
  | served env hw hrc hsound hpost ha =>
    obtain ⟨h', hwait, ⟨hin, rfl⟩ | ⟨hpast, rfl⟩⟩ := starting_cases rfl hs
    · rw [← Handshake.waiterStep_poster hwait]
      exact .served env hw hrc (hsound.waiterStep hwait hin) (Handshake.waiterStep_poster hwait ▸ hpost) ha
    · -- past the wait it finds the worker in its main loop
      have hlast := (hsound.toSound.waiterStep hwait).after (.inr hpast)
      rw [Handshake.waiterStep_poster hwait] at hlast
      rw [started, if_neg (not_not.2 hrc), if_neg (not_not.2 hlast)]
      rw [← hrc] at ha
      exact .serving hw ha.returned
  | failing hb hset hsound hne ha =>
    obtain ⟨h', hwait, ⟨hin, rfl⟩ | ⟨hpast, -⟩⟩ := starting_cases rfl hs
    · exact .failing hb hset (hsound.waiterStep hwait hin) (by rwa [Handshake.waiterStep_poster hwait]) ha
    · exact absurd hpast (hsound.not_past hwait hne)
  | @failed q env base t u st w h H R hb hset hsound hlast hl ha =>
    obtain ⟨h', hwait, hnext⟩ := starting_cases rfl hs
    -- `cleanup` runs meanwhile, and leaves alone what the caller reads
    have hready : st.ready = true := congrArg (fun x => x.2.1) hl.awaited
    have hresult : st.startResult = -1 := congrArg (fun x => x.2.2) hl.awaited
    obtain ⟨hin, rfl⟩ | ⟨-, rfl⟩ := hnext
    · rw [hready] at hwait
      exact .failed hb hset (hsound.waiterStep hwait hin) ((Handshake.waiterStep_poster hwait).trans hlast) hl ha
    · rw [started, if_pos (by simp [hresult])]
      simp only [hresult]
      exact .joinFailed hb hset hl ha
  | joinFailed hb hset hl ha =>
    cases hl with
    | cleanup => cases hs
    | ended =>
      obtain rfl := Option.some.inj hs
      exact .resting rfl (ha.refused (call_start_failed hb hset))
  | attaching hw hj ha =>
    obtain rfl := Option.some.inj hs
    exact .waiting hw hj waits_entered rfl ha
  | waiting hw hj hsound hlock ha =>
    obtain ⟨h', hwait, ⟨hin, rfl⟩ | ⟨hpast, -⟩⟩ := dispatching_cases rfl rfl hs
    · exact .waiting hw hj (hsound.waiterStep hwait hin) ((Handshake.waiterStep_poster hwait).trans hlock) ha
    · exact absurd hpast (hsound.not_past hwait (by simp [hlock]))
  | ran hw hjob hsound hresult ha =>
    obtain ⟨h', hwait, ⟨hin, rfl⟩ | ⟨hpast, rfl⟩⟩ := dispatching_cases rfl rfl hs
    · rw [← Handshake.waiterStep_poster hwait]
      exact .ran hw hjob (hsound.waiterStep hwait hin) hresult ha
    · -- its `Work` goes away only when the worker is through with it
      have hlast := (hsound.toSound.waiterStep hwait).after (.inr hpast)
      rw [Handshake.waiterStep_poster hwait] at hlast
      have hdone := hsound.flag
      rw [hlast] at hdone
      rw [dispatched, if_neg (by simp [hjob]), if_neg (not_not.2 hlast)]
      rw [← hresult hdone] at ha
      exact .serving hw ha.returned
  | quitting hw hsound hne ha =>
    obtain ⟨h', hwait, ⟨hin, rfl⟩ | ⟨hpast, -⟩⟩ := dispatching_cases rfl rfl hs
    · exact .quitting hw (hsound.waiterStep hwait hin) (by rwa [Handshake.waiterStep_poster hwait]) ha
    · exact absurd hpast (hsound.not_past hwait hne)
  | leaving hw hsound hlast hl ha =>
    obtain ⟨h', hwait, ⟨hin, rfl⟩ | ⟨-, rfl⟩⟩ := dispatching_cases rfl rfl hs
    · exact .leaving hw (hsound.waiterStep hwait hin) ((Handshake.waiterStep_poster hwait).trans hlast) hl ha
    · exact .joining hw hl ha
  | joining hw hl ha =>
    cases hl with
    | loop => cases hs
    | leaving hl =>
      cases hl with
      | cleanup => cases hs
      | ended =>
        obtain rfl := Option.some.inj hs
        exact .resting rfl (ha.refused (call_stop_served hw _))

/-! ## The worker goes on -/

/-- What the worker does in `worker_main` after `setup`. -/
theorem posting_cases {env' : StartEnv} (hw : s.worker = .posting q env rc) (hs : workerStep env' s = some s') :
    ∃ h', s.ready.posterStep = some h' ∧
      (s.ready.poster = .set ∧ h'.poster = .signal ∧ s' = { post q env rc s with ready := h', worker := .posting q env rc } ∨
        s.ready.poster ≠ .set ∧ h'.poster ≠ .past ∧ s' = { s with ready := h' } ∨
        s.ready.poster ≠ .set ∧ h'.poster = .past ∧
        s' = { s with ready := h', worker := if rc = 0 then .loop else .cleanup env }) := by
  obtain ⟨st, caller, worker, ready, work, attached, quit, faulty, history, returned⟩ := s
  cases hw
  obtain ⟨h', hpost, rfl⟩ := Option.map_eq_some_iff.1 hs
  refine ⟨h', hpost, ?_⟩
  by_cases hset : ready.poster = .set
  · have hsignal : h'.poster = .signal := by
      rcases Handshake.posterStep_cases hpost with ⟨hfrom, hto⟩ | ⟨hfrom, hto⟩ | ⟨hfrom, hto⟩ | ⟨hfrom, hto⟩
      · cases hset.symm.trans hfrom
      · exact hto
      · cases hset.symm.trans hfrom
      · cases hset.symm.trans hfrom
    refine .inl ⟨hset, hsignal, ?_⟩
    simp only [hset, if_true]
    rw [if_pos (by simp [hsignal])]
  · refine .inr ?_
    simp only [hset, if_false]
    by_cases hlast : h'.poster = .past
    · exact .inr ⟨hset, hlast, by rw [if_neg (not_not.2 hlast)]⟩
    · exact .inl ⟨hset, hlast, by rw [if_pos hlast]⟩

/-- What it does in `run_work` after `fn`. -/
theorem running_cases {env' : StartEnv} {w : Work} (hw : s.worker = .running rc) (hwork : s.work = some w)
    (hs : workerStep env' s = some s') :
    ∃ h', w.handshake.posterStep = some h' ∧
      s' = { s with
        work := some ⟨w.job, h', if w.handshake.poster = .set then true else w.done,
          if w.handshake.poster = .set then rc else w.result⟩
        worker := if h'.poster ≠ .past then .running rc else .loop } := by
  obtain ⟨st, caller, worker, ready, work, attached, quit, faulty, history, returned⟩ := s
  cases hw
  cases hwork
  obtain ⟨h', hpost, rfl⟩ := Option.map_eq_some_iff.1 hs
  refine ⟨h', hpost, ?_⟩
  by_cases hset : w.handshake.poster = .set
  · simp only [hset, if_true]
  · simp only [hset, if_false]

/-- The worker that is leaving goes on with that. -/
theorem Leaving.workerStep {env' : StartEnv} (hl : Leaving env t s.worker s.st) (hs : workerStep env' s = some s') :
    ∃ st w, s' = { s with st := st, worker := w } ∧ Leaving env t w st := by
  obtain ⟨st, caller, worker, ready, work, attached, quit, faulty, history, returned⟩ := s
  cases hl with
  | cleanup =>
    obtain rfl := Option.some.inj hs
    exact ⟨_, _, rfl, .ended⟩
  | ended => cases hs

theorem Stopping.workerStep {env' : StartEnv} (hl : Stopping base s.worker s.st)
    (hattached : s.attached = false) (hquit : s.quit = true)
    (hs : workerStep env' s = some s') : ∃ st w, s' = { s with st := st, worker := w } ∧ Stopping base w st := by
  obtain ⟨st, caller, worker, ready, work, attached, quit, faulty, history, returned⟩ := s
  cases hattached
  cases hquit
  cases hl with
  | loop =>
    obtain rfl := Option.some.inj hs
    exact ⟨_, _, rfl, .leaving .cleanup⟩
  | leaving hl =>
    obtain ⟨st, w, rfl, hl'⟩ := Leaving.workerStep hl hs
    exact ⟨st, w, rfl, .leaving hl'⟩

/-- A call takes effect in `fn`. -/
theorem Joint.ran_now [GLib] {job : Job} {h : Handshake} (hw : base.worker = true)
    (hjob : job.isStop = false) (hs : Waits false h)
    (hlock : h.poster = .lock) {r : Int × State} (hr : awaited r.2 = awaited base) (ha : Accounts st₀ H R base [])
    (hc : wp (call (q.call env)) (fun rc u => rc = r.1 ∧ u = r.2) base) :
    Joint st₀ ⟨r.2, .dispatching q, .running r.1, ready, some ⟨job, h, false, 0⟩, false, false, false,
      H ++ [(q.call env, r.1)], R⟩ := by
  have hworker : r.2.worker = true := (congrArg (fun x => x.1) hr).trans hw
  have hruns : (if h.poster ≠ .past then Worker.running r.1 else .loop) = .running r.1 := if_pos (by simp [hlock])
  rw [← hruns]
  exact .ran hworker hjob hs (fun hne => nomatch hne) (ha.effect hc)

theorem Joint.worker [GLib] {env' : StartEnv} (hj : Joint st₀ s) (hs : workerStep env' s = some s') : Joint st₀ s' := by
  cases hj with
  | resting | serving | spawning | attaching => cases hs
  | @setting q env base t h H R hb hsound hlock ha =>
    obtain rfl := Option.some.inj hs
    have hready : ((setup env).run t).2.ready = t.ready := congrArg (fun x => x.2.1) (setup_awaited rfl)
    exact .posting hb rfl (hready ▸ hsound) (by simp [hlock, Poster.posted]) ha
  | @posting q env base t u r h H R hb hset hsound hpost ha =>
    obtain ⟨h', hstep, hnext⟩ := posting_cases rfl hs
    have hsound' := hsound.posterStep hstep
    have hready : u.ready = false := hsound.flag.trans hpost
    obtain ⟨hfrom, hto, rfl⟩ | ⟨hne, -, rfl⟩ | ⟨hne, hlast, -⟩ := hnext
    · -- the flag is set now: a start that went well takes effect
      rw [if_pos hfrom] at hsound'
      cases r with
      | none => exact .failing hb hset hsound' (by simp [hto]) ha
      | some _ =>
        have hworker : (told 0 u).worker = true := (congrArg (fun x => x.1) (setup_awaited hset)).trans hb.worker
        have hposts : (if h'.poster ≠ .past then Worker.posting q env 0 else .loop) = .posting q env 0 :=
          if_pos (by simp [hto])
        have hj : Joint st₀ _ := .served env hworker rfl hsound' (by simp [hto, Poster.posted])
          (ha.effect (call_start_served hb hset))
        rwa [hposts] at hj
    · rw [if_neg hne] at hsound'
      exact .posting hb hset hsound' (hsound'.flag ▸ hready) ha
    · -- it cannot be done without having set the flag
      rw [if_neg hne, hready] at hsound'
      simpa [hlast, Poster.posted] using hsound'.flag
  | @served env q base h H R hw hrc hsound hpost ha =>
    by_cases hlast : h.poster = .past
    · rw [if_neg (not_not.2 hlast)] at hs
      cases hs
    · rw [if_pos hlast] at hs
      obtain ⟨h', hstep, hnext⟩ := posting_cases rfl hs
      have hsound' := hsound.posterStep hstep
      have hready : base.ready = true := hsound.flag.trans hpost
      obtain ⟨hfrom, -⟩ | ⟨hne, hgoes, rfl⟩ | ⟨hne, hlast', rfl⟩ := hnext
      · change h.poster = .set at hfrom
        simp [hfrom, Poster.posted] at hpost
      · rw [if_neg hne] at hsound'
        have hj : Joint st₀ _ := .served env hw hrc hsound' (hsound'.flag.symm.trans hready) ha
        rwa [if_pos hgoes] at hj
      · rw [if_neg hne] at hsound'
        have hj : Joint st₀ _ := .served env hw hrc hsound' (hsound'.flag.symm.trans hready) ha
        rwa [if_neg (not_not.2 hlast')] at hj
  | @failing q env base t u h H R hb hset hsound hne ha =>
    obtain ⟨h', hstep, hnext⟩ := posting_cases rfl hs
    have hsound' := hsound.posterStep hstep
    obtain ⟨hfrom, -⟩ | ⟨hne, hgoes, rfl⟩ | ⟨hne, hlast, rfl⟩ := hnext
    · change h.poster = .set at hfrom
      simpa [hfrom, Poster.posted] using hsound.flag
    · rw [if_neg hne] at hsound'
      exact .failing hb hset hsound' hgoes ha
    · rw [if_neg hne] at hsound'
      exact .failed hb hset hsound' hlast .cleanup ha
  | failed hb hset hsound hlast hl ha =>
    obtain ⟨st, w, rfl, hl'⟩ := hl.workerStep hs
    exact .failed hb hset hsound hlast hl' ha
  | joinFailed hb hset hl ha =>
    obtain ⟨st, w, rfl, hl'⟩ := hl.workerStep hs
    exact .joinFailed hb hset hl' ha
  | waiting hw hj hsound hlock ha =>
    obtain rfl := Option.some.inj hs
    cases hj with
    | stop => exact .quitting hw hsound (by simp [hlock]) ha
    | send hsize hdata =>
      exact .ran_now hw rfl hsound hlock (sendWork_awaited _ _ _ _) ha (call_send_served hw hsize hdata ⟨rfl, rfl⟩)
    | pair hdevice hpath =>
      exact .ran_now hw rfl hsound hlock (pairWork_awaited _ _) ha (call_pair_served hw hdevice hpath ⟨rfl, rfl⟩)
  | @ran q job base ready h done result rc H R hw hjob hsound hresult ha =>
    by_cases hlast : h.poster = .past
    · rw [if_neg (not_not.2 hlast)] at hs
      cases hs
    · rw [if_pos hlast] at hs
      obtain ⟨h', hstep, rfl⟩ := running_cases rfl rfl hs
      refine .ran hw hjob (hsound.posterStep hstep) ?_ ha
      split
      · exact fun _ => rfl
      · exact hresult
  | quitting hw hsound hne ha =>
    obtain ⟨h', hstep, rfl⟩ := running_cases rfl rfl hs
    by_cases hlast : h'.poster = .past
    · rw [if_neg (not_not.2 hlast)]
      exact .leaving hw (hsound.posterStep hstep) hlast .loop ha
    · rw [if_pos hlast]
      exact .quitting hw (hsound.posterStep hstep) hlast ha
  | leaving hw hsound hlast hl ha =>
    obtain ⟨st, w, rfl, hl'⟩ := hl.workerStep rfl rfl hs
    exact .leaving hw hsound hlast hl' ha
  | joining hw hl ha =>
    obtain ⟨st, w, rfl, hl'⟩ := hl.workerStep rfl rfl hs
    exact .joining hw hl' ha

/-! ## Others are served -/

theorem happen_worker (hw : base.worker = true) (e : Happening) : (happen base e).worker = true :=
  (congrArg (fun x => x.1) (happen_awaited base e)).trans hw

theorem Joint.happen [GLib] {e : Happening} (hj : Joint st₀ s) (hs : happenStep e s = some s') : Joint st₀ s' := by
  cases hj with
  | resting | spawning | setting | posting | failing | quitting => cases hs
  | serving hw ha =>
    obtain rfl := Option.some.inj hs
    exact .serving (happen_worker hw e) (ha.happen hw e)
  | @served env q base h H R hw hrc hsound hpost ha =>
    by_cases hlast : h.poster = .past
    · rw [if_neg (not_not.2 hlast)] at hs
      obtain rfl := Option.some.inj hs
      have hsame := happen_awaited base e
      have hready : (Bluez1.happen base e).ready = base.ready := congrArg (fun x => x.2.1) hsame
      have hj : Joint st₀ _ := .served env (happen_worker hw e) ((congrArg (fun x => x.2.2) hsame).trans hrc)
        (hready ▸ hsound) hpost (ha.happen hw e)
      rwa [if_neg (not_not.2 hlast)] at hj
    · rw [if_pos hlast] at hs
      cases hs
  | failed hb hset hsound hlast hl ha => cases hl <;> cases hs
  | joinFailed hb hset hl ha => cases hl <;> cases hs
  | attaching hw hj ha =>
    obtain rfl := Option.some.inj hs
    exact .attaching (happen_worker hw e) hj (ha.happen hw e)
  | waiting hw hj hsound hlock ha =>
    obtain rfl := Option.some.inj hs
    exact .waiting (happen_worker hw e) hj hsound hlock (ha.happen hw e)
  | @ran q job base ready h done result rc H R hw hjob hsound hresult ha =>
    by_cases hlast : h.poster = .past
    · rw [if_neg (not_not.2 hlast)] at hs
      obtain rfl := Option.some.inj hs
      have hloops : (if h.poster ≠ .past then Worker.running rc else .loop) = .loop := if_neg (not_not.2 hlast)
      rw [← hloops]
      exact .ran (happen_worker hw e) hjob hsound hresult (ha.happen hw e)
    · rw [if_pos hlast] at hs
      cases hs
  | leaving hw hsound hlast hl ha =>
    cases hl with
    | loop =>
      obtain rfl := Option.some.inj hs
      exact .leaving (happen_worker hw e) hsound hlast .loop (ha.happen hw e)
    | leaving hl => cases hl <;> cases hs
  | joining hw hl ha =>
    cases hl with
    | loop =>
      obtain rfl := Option.some.inj hs
      exact .joining (happen_worker hw e) .loop (ha.happen hw e)
    | leaving hl => cases hl <;> cases hs

end Steps

/-! ## Every run -/

theorem Joint.step [GLib] {st₀ : State} {l : Label} (hj : Joint st₀ s) (hs : threadStep s l = some s') : Joint st₀ s' := by
  cases l with
  | call q env => exact hj.begin hs
  | caller env => exact hj.caller hs
  | worker env => exact hj.worker hs
  | happen e => exact hj.happen hs

theorem run_joint [GLib] {st₀ : State} {ls : List Label} (hw : st₀.worker = false)
    (hr : run threadStep ls (.init st₀) = some s) : Joint st₀ s :=
  run_inv (.resting hw ⟨rfl, rfl⟩) (fun _ _ _ hj hs => hj.step hs) hr

/-- What took effect and has not returned is the call in progress. -/
def Pending (s : Sys) (pend : List (Request × Int)) : Prop :=
  pend = [] ∨ ∃ q rc, s.caller.current = some q ∧ pend = [(q, rc)]

theorem Joint.accounts [GLib] {st₀ : State} (hj : Joint st₀ s) :
    s.faulty = false ∧ ∃ base pend, Accounts st₀ s.history s.returned base pend ∧ Pending s pend ∧
    (s.caller = .idle → s.st = base) := by
  cases hj with
  | resting hw ha | serving hw ha => exact ⟨rfl, _, _, ha, .inl rfl, fun _ => rfl⟩
  | served env hw hrc hsound hpost ha => exact ⟨rfl, _, _, ha, .inr ⟨_, _, rfl, rfl⟩, fun hidle => nomatch hidle⟩
  | ran hw hjob hsound hresult ha => exact ⟨rfl, _, _, ha, .inr ⟨_, _, rfl, rfl⟩, fun hidle => nomatch hidle⟩
  | spawning _ ha | setting _ _ _ ha | posting _ _ _ _ ha | failing _ _ _ _ ha | failed _ _ _ _ _ ha | joinFailed _ _ _ ha
  | attaching _ _ ha | waiting _ _ _ _ ha | quitting _ _ _ ha | leaving _ _ _ _ ha | joining _ _ ha =>
    exact ⟨rfl, _, _, ha, .inl rfl, fun hidle => nomatch hidle⟩

theorem replay_run [GLib] {st₀ : State} {H : List (Call × Int)} (hr : replay st₀ H = some st) :
    run step (H.map Prod.fst) st₀ = some st := by
  induction H generalizing st₀ with
  | nil => exact hr
  | cons e H ih =>
    rw [replay] at hr
    split at hr
    · exact ih hr
    · cases hr

/-- Between calls the object is as the sequence of calls leaves it, so what is known of that is known here. -/
theorem idle_between [GLib] {pairable powered : Path → Bool} {ls : List Label}
    (hr : run threadStep ls (.init (initial pairable powered)) = some s)
    (hidle : s.caller = .idle) (hrestores : ∀ e ∈ s.history, e.1.Restores) : Between s.st := by
  obtain ⟨-, base, pend, ha, -, hst⟩ := (run_joint rfl hr).accounts
  rw [hst hidle]
  refine run_between (fun c hc => ?_) (replay_run ha.replayed)
  obtain ⟨e, he, rfl⟩ := List.mem_map.1 hc
  exact hrestores e he

/-- **The calls return what they return one after the other, and leave the same.** -/
theorem run_threads [GLib] {st₀ : State} {ls : List Label} (hw : st₀.worker = false)
    (hr : run threadStep ls (.init st₀) = some s) :
    s.faulty = false ∧ ∃ base pend, replay st₀ s.history = some base ∧
    answered s.history = s.returned ++ pend ∧ Pending s pend ∧
      (s.caller = .idle → s.st = base) := by
  obtain ⟨hfaulty, base, pend, ha, hpending, hidle⟩ := (run_joint hw hr).accounts
  exact ⟨hfaulty, base, pend, ha.replayed, ha.answered, hpending, hidle⟩

/-- A start during which the caller sleeps, and a message that is sent while the value is read. -/
def sending : List Label :=
  let caller := Label.caller willing
  let worker := Label.worker willing
  [.call (.start none none 0) willing, caller, caller, caller, worker, worker, worker, worker, worker,
    caller, caller, caller, caller,
    .call (.send (some fun _ => 7) 3 false) willing, caller, .happen (.method .tx (.readValue 0)), worker,
      caller, worker, worker, worker,
    worker, caller, caller, .happen .closed, caller, caller]

open Words

theorem run_threads_sending : ∃ s, run threadStep sending (.init (initial (fun _ => false) fun _ => false)) = some s ∧
    (s.history.map Prod.snd, s.returned.map Prod.snd) = ([0, 0, 0, 0], [0, 0]) ∧ s.faulty = false ∧ ∃ base pend,
      replay (initial (fun _ => false) fun _ => false) s.history = some base ∧ answered s.history = s.returned ++ pend ∧
        Pending s pend ∧ (s.caller = .idle → s.st = base) := by
  have hrun : (run threadStep sending (.init (initial (fun _ => false) fun _ => false))).map
      (fun s => (s.history.map Prod.snd, s.returned.map Prod.snd)) = some ([0, 0, 0, 0], [0, 0]) := by
    decide +kernel
  obtain ⟨s, hs, hreturned⟩ := Option.map_eq_some_iff.1 hrun
  exact ⟨s, hs, hreturned, run_threads rfl hs⟩

end AlgaeBp.Bluez1
