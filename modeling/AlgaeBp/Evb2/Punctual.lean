import AlgaeBp.Evb2.Rounds
import AlgaeBp.Evb2.Theorems
/-!
# What a pass of the loop guarantees

Statements about every watched run of `aloe_evb2`; every run can be watched. The
first group is about time: `timer_list` is in order, the loop does not wait past
the first deadline, and it collects what is due and nothing else. The second is
about the batch: what is dispatched, how often, and what is counted.
-/
open Reentrant
open Ints (intMax)

namespace AlgaeBp.Evb2

abbrev WatchedConfig := Cfg Op Op.Out Watched Call Ret

/-- A configuration that some watched run of the considered kind reaches. -/
def Watching (m : Mode) (b : Boot) (c : WatchedConfig) : Prop :=
  Reaches watch ((guard m).watched Pass) (Watched.init b) c

section Watching
variable {m : Mode} {b : Boot} {c : WatchedConfig} {s : St}

theorem Watching.plain (h : Watching m b c) : Reachable m b c.plain := Reaches.plain h

/-- Every run can be watched. -/
theorem Reachable.watching {c : Config} (h : Reachable m b c) : ∃ g, Watching m b ⟨(c.st, g), c.stack⟩ :=
  Reaches.watched h Pass.see _

theorem Watching.ok (h : Watching m b c) (hm : m.stale = false) :
    Contract.CfgOk watch (watchGuard m) (passes m) (Watched.init b).st c := by
  refine (passes_met m).reaches ?_ (Reaches.assuming h fun d hd => ?_)
  · have hs : (St.init b).Sorted := by simp [St.Sorted, St.init]
    exact ⟨⟨init_point m b, rfl⟩, ⟨hs, trivial, rfl⟩, fun _ => ⟨.refl _, rfl, rfl⟩⟩
  · have hr : Reachable m b d.plain := Reaches.plain hd
    exact ⟨hr.point hm, hr.user hm, fun hf => (sound hm).no_fault (hr.ok hm) hf.plain⟩

theorem Watching.step_none (h : Config.Stuck c.plain) (l : Label Env Call Other) :
    step watch ((guard m).watched Pass) l c = none :=
  Option.map_eq_none_iff.1 ((step_plain l c).trans (h.step_none l))

theorem step_watched_fresh {l : Label Env Call Other} (hl : ∀ a, l ≠ .call a) :
    step watch ((guard m.fresh).watched Pass) l c = step watch ((guard m).watched Pass) l c :=
  step_guard rfl rfl rfl hl

/-- A watched run, too, ends where a handle is passed that has been freed. -/
theorem Watching.fresh (h : Watching m b c) :
    Watching m.fresh b c ∨ Config.Stuck c.plain ∧ ∃ c', Watching m.fresh b c' ∧ c'.AtUser ∧ c'.st = c.st := by
  refine Reaches.keep (P := fun c : WatchedConfig => Watching m.fresh b c ∨
    Config.Stuck c.plain ∧ ∃ c', Watching m.fresh b c' ∧ c'.AtUser ∧ c'.st = c.st) h (fun l c c' h hs => ?_) (.inl (.refl _))
  rcases h with h | ⟨h, -⟩
  · cases l with
    | call a =>
      obtain ⟨hu, hc, rfl⟩ := step_call.1 hs
      by_cases hd : ∃ h, a.handle = some h ∧ dropped c.st.1.log h = true
      · obtain ⟨h', ha, hd⟩ := hd
        obtain ⟨k, hk⟩ := api_load ha
        refine .inr ⟨⟨a, h', k, c.stack, by rw [← hk]; rfl, ?_⟩, c, h, hu, rfl⟩
        exact (h.plain.user rfl hu).toCore.dropped hd
      · refine .inl (h.trans (.one (.call a) ?_))
        simp only [not_exists, not_and, Bool.not_eq_true] at hd
        exact step_call.2 ⟨hu, guard_calls_fresh hc hd, rfl⟩
    | _ =>
      rw [← step_watched_fresh (by simp)] at hs
      exact .inl (h.trans (.one _ hs))
  · rw [Watching.step_none h] at hs; cases hs

end Watching

/-! ## Time -/

/-- `t` milliseconds are not too long to wait, negative meaning for ever: armed handles
are due after that at the latest, and the caller asked for no less. -/
structure WaitOk (s : St) (clock ms : UInt64) (t : Int) : Prop where
  bound : -1 ≤ t
  armed : ∀ h ∈ s.lists .timer, 0 ≤ t ∧ t ≤ ((s.deadline h).toNat - clock.toNat : Nat)
  caller : ms ≠ infinite → 0 ≤ t ∧ t ≤ ms.toNat
  forever : t = -1 → s.lists .timer = [] ∧ ms = infinite

section Time
variable {s : St} {clock ms now : UInt64} {e : UInt32} {hd : Handle}

/-- What is left until a deadline, at most `INT_MAX`. -/
theorem untilDeadline (t now : UInt64) : ∃ n : Nat, (if t ≤ now then (0 : Int)
    else if ((t - now).toNat : Int) > intMax then intMax else ((t - now).toNat : Int)) = n ∧ n ≤ t.toNat - now.toNat := by
  split
  · exact ⟨0, rfl, Nat.zero_le _⟩
  · rename_i h
    have hlt : now.toNat < t.toNat := by
      rw [UInt64.le_iff_toNat_le] at h
      omega
    have hsub : (t - now).toNat = t.toNat - now.toNat :=
      UInt64.toNat_sub_of_le _ _ (UInt64.le_iff_toNat_le.2 hlt.le)
    rw [hsub]
    split
    · rename_i hbig
      refine ⟨2147483647, rfl, ?_⟩
      unfold intMax at hbig
      omega
    · exact ⟨_, rfl, le_refl _⟩

theorem waitTimeout_ok (hs : s.Sorted) :
    WaitOk s clock ms (waitTimeout ((s.lists .timer).head?.map s.deadline) clock ms) := by
  -- The caller's bound, clamped.
  have huser : ∃ u : Nat, (if (ms.toNat : Int) > intMax then (intMax : Int) else ms.toNat) = u ∧ u ≤ ms.toNat := by
    split
    · rename_i hbig
      refine ⟨2147483647, rfl, ?_⟩
      unfold intMax at hbig
      omega
    · exact ⟨_, rfl, le_refl _⟩
  obtain ⟨u, hu, hule⟩ := huser
  cases hl : s.lists .timer with
  | nil =>
    simp only [List.head?_nil, Option.map_none, waitTimeout, hu]
    split
    · rw [if_pos (.inl (by omega))]
      exact ⟨by omega, by simp [hl], fun _ => ⟨by omega, by omega⟩, by omega⟩
    · rename_i hinf
      rw [ne_eq, not_not] at hinf
      exact ⟨by omega, by simp [hl], fun hne => absurd hinf hne, fun _ => ⟨hl, hinf⟩⟩
  | cons q qs =>
    obtain ⟨n, hn, hnle⟩ := untilDeadline (s.deadline q) clock
    -- The first deadline is the least.
    have hfirst : ∀ h ∈ s.lists .timer, n ≤ (s.deadline h).toNat - clock.toNat := by
      intro h hh
      rw [hl] at hh
      have hle : (s.deadline q).toNat ≤ (s.deadline h).toNat := by
        rcases List.mem_cons.1 hh with rfl | hh
        · exact le_refl _
        · unfold St.Sorted at hs
          rw [hl] at hs
          rcases (List.pairwise_cons.1 hs).1 h hh with hlt | ⟨heq, -⟩
          · exact (UInt64.lt_iff_toNat_lt.1 hlt).le
          · exact (congrArg UInt64.toNat heq).le
      omega
    simp only [List.head?_cons, Option.map_some, waitTimeout, hu, hn]
    split
    · rename_i hinf
      split
      · rename_i hlt
        refine ⟨by omega, fun h hh => ?_, fun _ => ⟨by omega, by omega⟩, by omega⟩
        have := hfirst h hh
        omega
      · rename_i hge
        simp only [not_or, not_lt] at hge
        refine ⟨by omega, fun h hh => ?_, fun _ => ⟨by omega, by omega⟩, by omega⟩
        have := hfirst h hh
        omega
    · rename_i hinf
      rw [ne_eq, not_not] at hinf
      refine ⟨by omega, fun h hh => ?_, fun hne => absurd hinf hne, by omega⟩
      have := hfirst h hh
      omega

theorem fromEpoll_timeout (e : UInt32) : fromEpoll e &&& flagTimeout = 0 := by
  unfold fromEpoll
  split <;> split <;> split <;> rfl

/-- The TIMEOUT flag is raised by the clock only. -/
theorem eventFlags_timeout (h : eventFlags hd e now &&& flagTimeout ≠ 0) : hd.timeoutAt ≤ now := by
  by_contra hlate
  refine h ?_
  have hreq : fromEpoll e &&& hd.flag &&& flagTimeout = 0 := by
    rw [UInt32.and_assoc, UInt32.and_comm hd.flag, ← UInt32.and_assoc, fromEpoll_timeout, UInt32.zero_and]
  unfold eventFlags
  simp only [hlate, if_false]
  split
  · rename_i hz
    rw [hz.2]
    rfl
  · exact hreq

end Time

/-- What the loop does with time. -/
structure Punctual (c : WatchedConfig) : Prop where
  /-- Whenever user code runs, `timer_list` is sorted by deadline and then by insertion. -/
  user : c.AtUser → c.st.1.Sorted
  returned : ∀ a r rest, c.stack = (a, .ret r) :: rest → c.st.1.Sorted
  /-- It is also sorted inside every call but `aloe_evb2_set_timeout`. -/
  during : ∀ a o k rest, c.stack = (a, .op o k) :: rest → (∀ h ms, a ≠ .setTimeout h ms) → c.st.1.Sorted
  wait : ∀ a t k rest, c.stack = (a, .op (.epollWait t) k) :: rest → ∃ ms, a = .runOnce ms ∧
    WaitOk c.st.1 c.st.2.clock ms t
  /-- When dispatching begins, no handle is left whose deadline is at most the sampled time. -/
  collected : ∀ w evs now, c.st.2.phase = .collecting w evs now → ∀ a k rest, c.stack = (a, .op (.pop .ready) k) :: rest →
    ∀ h ∈ c.st.1.lists .timer, now < c.st.1.deadline h
  /-- What was collected for its deadline had passed it. -/
  due : ∀ w evs now, c.st.2.phase = .collecting w evs now → ∀ h ∈ c.st.1.lists .ready, ∀ hd, c.st.1.heap h = some hd →
    hd.noti &&& flagTimeout ≠ 0 → hd.timeoutAt ≤ now

section Punctual
variable {m : Mode} {b : Boot} {c : WatchedConfig} {w : St} {evs : List (Int × UInt32)} {now : UInt64}
    {h : Ptr} {noti : UInt32}

theorem Raised.due (hr : Raised w evs now h noti) (hn : noti &&& flagTimeout ≠ 0) : now ≥ w.deadline h := by
  obtain ⟨hd, hw, ⟨-, e, -, rfl, -⟩ | ⟨-, -, hdue⟩⟩ := hr
  · rw [St.deadline, hw]
    exact eventFlags_timeout hn
  · rw [St.deadline, hw]
    exact hdue

theorem Follows.due {s : St} {g : Pass} (hf : Follows s g) (hp : g.phase = .collecting w evs now) {hd : Handle}
    (hr : h ∈ s.lists .ready) (hh : s.heap h = some hd) (hn : hd.noti &&& flagTimeout ≠ 0) : hd.timeoutAt ≤ now := by
  unfold Follows at hf
  rw [hp] at hf
  obtain ⟨noti, hm, hr⟩ := hf.1.ready h hr
  rw [hh] at hm
  obtain ⟨hd₀, hw, rfl⟩ := Option.map_eq_some_iff.1 hm.symm
  have hdue := hr.due hn
  rw [St.deadline, hw] at hdue
  exact hdue

theorem Watching.punctual (hw : Watching m b c) (hm : m.stale = false) : Punctual c where
  user hu := ((hw.ok hm).2.atUser hu).1
  returned a r rest hst := ((hw.ok hm).post hst).1
  during a o k rest hst ha := ((passes_met m).before (hw.ok hm) hst).1 ha
  wait a t k rest hst := by
    obtain ⟨hs, ms, rfl, rfl⟩ := (passes_met m).before (hw.ok hm) hst
    exact ⟨ms, rfl, waitTimeout_ok (hs fun _ _ he => by cases he)⟩
  collected w evs now hp a k rest hst := ((passes_met m).before (hw.ok hm) hst).2 w evs now hp
  due w evs now hp h hr hd hh hn := (hw.ok hm).1.2.due hp hr hh hn

/-- The loop waits no longer than it may and misses no deadline, whatever the clock says. -/
theorem run_punctual (m : Mode) (b : Boot) (c : WatchedConfig) (hw : Watching m b c) : Punctual c := by
  rcases hw.fresh with hf | ⟨⟨a, h, k, rest, hst, -⟩, c', hf, hu, he⟩
  · exact hf.punctual rfl
  -- A handle that was freed has been passed by user code, and is about to be read.
  have hp := hf.punctual rfl
  have hs : c.st.1.Sorted := he ▸ hp.user hu
  obtain ⟨x, stack⟩ := c
  simp only [Cfg.plain] at hst
  subst hst
  refine ⟨fun _ => hs, fun _ _ _ _ => hs, fun _ _ _ _ _ _ => hs, fun _ _ _ _ h => ?_, fun _ _ _ _ _ _ _ h => ?_, ?_⟩
  · cases h
  · cases h
  · have hst : c'.st = x := he
    rw [← hst]
    exact hp.due

end Punctual

/-! ## Concrete runs -/

/-- User code makes a call at time `t`, watched. -/
def askWatched (m : Mode) (a : Call) (t : UInt64) (c : WatchedConfig) : WatchedConfig :=
  enter watch ((guard m).watched Pass) a { clock := t } 200 c

/-- User code returns from a callback at time `t`, watched. -/
def answerWatched (m : Mode) (t : UInt64) (c : WatchedConfig) : WatchedConfig :=
  back watch ((guard m).watched Pass) { clock := t } 200 c

section
variable {m : Mode} {b : Boot} {c : WatchedConfig}

theorem Watching.ask (h : Watching m b c) (a : Call) (t : UInt64) : Watching m b (askWatched m a t c) :=
  Reaches.enter h a _ 200

theorem Watching.answer (h : Watching m b c) (t : UInt64) : Watching m b (answerWatched m t c) := Reaches.back h _ 200

end

/-- Two timers are due in one pass, and the callback of the first is running. -/
def watchedFirst (m : Mode) : WatchedConfig :=
  askWatched m (.runOnce 0) 10 (askWatched m (.addTimer 5 (some 0) 0) 0 (askWatched m (.addTimer 5 (some 0) 0) 0
    (Watched.init boot)))

theorem watchedFirst_watching (m : Mode) : Watching m boot (watchedFirst m) :=
  ((Watching.ask (Reaches.refl _) _ _).ask _ _).ask _ _

theorem run_punctual_first : Punctual (watchedFirst {}) :=
  run_punctual {} boot (watchedFirst {}) (watchedFirst_watching {})

/-! ## The batch -/

/-- EXCEPT, if an error or hang-up of the descriptor was reported. -/
def exceptFor (evs : List (Int × UInt32)) (fd : Int) : UInt32 :=
  if evs.any fun ev => ev.1 = fd && ev.2 &&& (epollErr ||| epollHup) ≠ 0 then flagExcept else 0

/-- Not empty, and nothing but the requested flags, TIMEOUT, and EXCEPT on an error. -/
def MaskOk (w : St) (evs : List (Int × UInt32)) (h : Ptr) (noti : UInt32) : Prop :=
  ∃ hd, w.heap h = some hd ∧ noti ≠ 0 ∧
    noti ||| (hd.flag ||| flagTimeout ||| exceptFor evs hd.fd) = hd.flag ||| flagTimeout ||| exceptFor evs hd.fd

/-- How a batch is dispatched that was collected after `epoll_wait` returned in `w`. -/
structure Dispatched (w : St) (evs : List (Int × UInt32)) (batch done : List Ptr) (x : Watched) : Prop where
  once : (x.2.calls.map Prod.fst).Nodup
  collected : ∀ call ∈ x.2.calls, call.1 ∈ batch
  bound : x.2.calls.length ≤ batch.length
  rounds : done.length + (x.1.lists .ready).length ≤ batch.length
  registered : ∀ h ∈ batch, h ∈ w.lists .fdmon ∨ h ∈ w.lists .timer
  masks : ∀ call ∈ x.2.calls, MaskOk w evs call.1 call.2

/-- What a pass dispatches and counts. -/
structure Counted (c : WatchedConfig) : Prop where
  batch : ∀ w evs now batch done, c.st.2.phase = .dispatching w evs now batch done → Dispatched w evs batch done c.st
  /-- Besides, only destruction and a deadline that does not fit lead to callbacks. -/
  notice : ∀ a h fd ud k rest, c.stack = (a, .op (.emit (.cancelled h fd ud)) k) :: rest → c.st.1.MayNotice h
  returns : ∀ ms n rest, c.stack = (.runOnce ms, .ret (.int n)) :: rest → c.st.1.inRun = false → c.st.2.Returns n

section Batch
variable {m : Mode} {b : Boot} {c : WatchedConfig} {w : St} {evs : List (Int × UInt32)} {now : UInt64}
    {h : Ptr} {noti e : UInt32}
  {hd : Handle} {batch done : List Ptr} {x : Watched}

theorem or_left_contained (a b : UInt32) : a ||| (a ||| b) = a ||| b := by
  rw [← UInt32.or_assoc, UInt32.or_self]

theorem and_contained (a b : UInt32) : (a &&& b) ||| b = b := by
  refine UInt32.toNat_inj.1 (Nat.eq_of_testBit_eq fun i => ?_)
  simp only [UInt32.toNat_and, UInt32.toNat_or, Nat.testBit_and, Nat.testBit_or]
  cases b.toNat.testBit i <;> simp

theorem contained_or {a b m : UInt32} (ha : a ||| m = m) (hb : b ||| m = m) : (a ||| b) ||| m = m := by
  rw [UInt32.or_assoc, hb, ha]

theorem contained_mono {a m m' : UInt32} (ha : a ||| m = m) (hm : m ||| m' = m') : a ||| m' = m' := by
  rw [← hm, ← UInt32.or_assoc, ha]

theorem exceptFor_eq {fd : Int} (he : (fd, e) ∈ evs) (herr : e &&& (epollErr ||| epollHup) ≠ 0) :
    exceptFor evs fd = flagExcept := by
  refine if_pos (List.any_eq_true.2 ⟨_, he, ?_⟩)
  simpa using herr

/-- What an event raises was asked for, but TIMEOUT and EXCEPT on an error. -/
theorem eventFlags_contained (he : (hd.fd, e) ∈ evs) :
    eventFlags hd e now ||| (hd.flag ||| flagTimeout ||| exceptFor evs hd.fd) =
      hd.flag ||| flagTimeout ||| exceptFor evs hd.fd := by
  set allowed := hd.flag ||| flagTimeout ||| exceptFor evs hd.fd with hall
  have hflag : hd.flag ||| allowed = allowed := by
    rw [hall, UInt32.or_assoc, or_left_contained]
  have htime : flagTimeout ||| allowed = allowed := by
    rw [hall, UInt32.or_comm hd.flag, UInt32.or_assoc, or_left_contained]
  have hasked : (fromEpoll e &&& hd.flag) ||| allowed = allowed := contained_mono (and_contained _ _) hflag
  have hexc : (if e &&& (epollErr ||| epollHup) ≠ 0 ∧ fromEpoll e &&& hd.flag = 0 then fromEpoll e &&& hd.flag ||| flagExcept
      else fromEpoll e &&& hd.flag) ||| allowed = allowed := by
    split
    · rename_i herr
      refine contained_or hasked ?_
      rw [hall, exceptFor_eq he herr.1, UInt32.or_comm _ flagExcept, or_left_contained]
    · exact hasked
  unfold eventFlags
  dsimp only
  split
  · exact contained_or hexc htime
  · exact hexc

theorem Raised.mask (hr : Raised w evs now h noti) : MaskOk w evs h noti := by
  obtain ⟨hd, hw, ⟨-, e, he, rfl, hne⟩ | ⟨-, rfl, -⟩⟩ := hr
  · exact ⟨hd, hw, hne, eventFlags_contained he⟩
  · refine ⟨hd, hw, by decide, ?_⟩
    rw [UInt32.or_comm hd.flag, UInt32.or_assoc, or_left_contained]

theorem Follows.dispatched (hf : Follows x.1 x.2) (hp : x.2.phase = .dispatching w evs now batch done) :
    Dispatched w evs batch done x := by
  unfold Follows at hf
  rw [hp] at hf
  have hsub : (x.2.calls.map Prod.fst).Sublist batch := hf.called.trans ((List.sublist_append_left _ _).trans hf.rest)
  refine ⟨hf.nodup.sublist hsub, fun call hc => hsub.subset (List.mem_map_of_mem hc), ?_, ?_, hf.linked,
    fun call hc => (hf.raised call hc).mask⟩
  · simpa using hsub.length_le
  · simpa using hf.rest.length_le

theorem Watching.counted (hw : Watching m b c) (hm : m.stale = false) : Counted c where
  batch _ _ _ _ _ hp := (hw.ok hm).1.2.dispatched hp
  notice _ _ _ _ _ _ hst := ((passes_met m).before (hw.ok hm) hst).2
  returns ms n _ hst hr := ((hw.ok hm).post hst).2 ms n rfl rfl hr

/-- A pass dispatches each handle it has collected at most once, and counts the callbacks. -/
theorem run_counted (m : Mode) (b : Boot) (c : WatchedConfig) (hw : Watching m b c) : Counted c := by
  rcases hw.fresh with hf | ⟨⟨a, h, k, rest, hst, -⟩, c', hf, -, he⟩
  · exact hf.counted rfl
  have hc := hf.counted rfl
  obtain ⟨x, stack⟩ := c
  simp only [Cfg.plain] at hst
  subst hst
  have hst : c'.st = x := he
  refine ⟨?_, fun _ _ _ _ _ _ h => ?_, fun _ _ _ h => ?_⟩
  · rw [← hst]
    exact hc.batch
  · cases h
  · cases h

theorem run_counted_first : Counted (watchedFirst {}) :=
  run_counted {} boot (watchedFirst {}) (watchedFirst_watching {})

end Batch

/-- What was collected, once dispatching has begun. -/
def Phase.batch? : Phase → Option (List Ptr)
  | dispatching _ _ _ batch _ => some batch
  | _ => none

theorem Phase.batch?_eq {p : Phase} {batch : List Ptr} (h : p.batch? = some batch) :
    ∃ w evs now done, p = .dispatching w evs now batch done := by
  cases p with
  | dispatching w evs now batch' done =>
    cases h
    exact ⟨w, evs, now, done, rfl⟩
  | _ => cases h

/-- A one-shot timer was added whose deadline does not fit into 64 bits. The pass that
follows tells it so and finds nothing else to do. -/
def uncountedNotice : WatchedConfig :=
  answerWatched {} 6 (askWatched {} (.runOnce 0) 6 (askWatched {} (.addOneshotTimer 0xFFFFFFFFFFFFFFFE (some 0) 0) 5
    (Watched.init boot)))

theorem uncountedNotice_watching : Watching {} boot uncountedNotice :=
  ((Watching.ask (Reaches.refl _) _ _).ask _ _).answer _

/-- The notice is a callback, though no handle was collected. -/
theorem run_not_bounded : ¬ ∀ b c, Watching {} b c → ∀ w evs now batch done,
    c.st.2.phase = .dispatching w evs now batch done → c.st.2.calls.length + c.st.2.cancels.length ≤ batch.length := by
  intro h
  have hb : uncountedNotice.st.2.phase.batch? = some [] := by decide +kernel
  have hc : uncountedNotice.st.2.cancels = [1] := by decide +kernel
  obtain ⟨w, evs, now, done, hp⟩ := Phase.batch?_eq hb
  have hle := h boot uncountedNotice uncountedNotice_watching w evs now [] done hp
  rw [hc] at hle
  simp at hle

end AlgaeBp.Evb2
