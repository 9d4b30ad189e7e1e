import AlgaeBp.Evb2.Log
/-!
# What the event loop guarantees

Statements about every run of `aloe_evb2`: any sequence of calls, also from
inside callbacks, and any number of threads adding one-shot timers. `Mode` says
which runs are meant. Where the code breaks a guarantee in some runs, a concrete
run that does stands next to the theorem.
-/
open Reentrant

namespace AlgaeBp.Evb2

/-! ## Concrete runs -/

def boot : Boot where
  epfd := 3
  rd := 4
  wr := 5
  cap := 16
  epfd_nonneg := by decide
  rd_nonneg := by decide
  wr_nonneg := by decide
  cap_pos := by decide

/-- User code makes a call at time `t`. -/
def ask (m : Mode) (a : Call) (t : UInt64) (c : Config) : Config := enter sys (guard m) a { clock := t } 200 c

/-- User code returns from a callback at time `t`. -/
def answer (m : Mode) (t : UInt64) (c : Config) : Config := back sys (guard m) { clock := t } 200 c

section
variable {m : Mode} {b : Boot} {c : Config}

theorem Reachable.init (m : Mode) (b : Boot) : Reachable m b (Config.init b) := Reaches.refl _

theorem Reachable.ask (h : Reachable m b c) (a : Call) (t : UInt64) : Reachable m b (ask m a t c) :=
  Reaches.enter h a _ 200

theorem Reachable.answer (h : Reachable m b c) (t : UInt64) : Reachable m b (answer m t c) := Reaches.back h _ 200

end

/-- Two timers are due in one pass, and the callback of the first is running. -/
def inFirst (m : Mode) : Config :=
  ask m (.runOnce 0) 10 (ask m (.addTimer 5 (some 0) 0) 0 (ask m (.addTimer 5 (some 0) 0) 0 (Config.init boot)))

theorem inFirst_reachable (m : Mode) : Reachable m boot (inFirst m) := (((Reachable.init m boot).ask _ _).ask _ _).ask _ _

/-- The first callback has destroyed the context and returned; the second is running. -/
def inSecond (m : Mode) : Config := answer m 10 (ask m .destroy 10 (inFirst m))

theorem inSecond_reachable (m : Mode) : Reachable m boot (inSecond m) := ((inFirst_reachable m).ask _ _).answer _

/-! ## Lists and memory -/

/-- The four lists hold allocated handles, no handle twice through one link. -/
structure ListsOk (s : St) : Prop where
  nodup : ∀ l, (s.lists l).Nodup
  live : ∀ l, ∀ h ∈ s.lists l, s.Live h
  link : ∀ l l' h, l ≠ .timer → l' ≠ .timer → h ∈ s.lists l → h ∈ s.lists l' → l = l'
  timer : ∀ h, h ∈ s.lists .ready ∨ h ∈ s.lists .async ∨ s.notifying = some h → h ∉ s.lists .timer
  notifying : ∀ h, s.notifying = some h → ∀ l, h ∉ s.lists l

theorem Point.listsOk {m : Mode} {s : St} (hp : Point m s) : ListsOk s where
  nodup := hp.nodup
  live l h hh := (hp.sane h).live l hh
  link l l' h hl hl' hh hh' := (hp.sane h).link l l' hl hl' hh hh'
  timer h hh ht := by
    rcases hh with hh | hh | hh
    · exact ((hp.sane h).timer ht).1 hh
    · exact ((hp.sane h).timer ht).2 hh
    · exact (hp.sane h).noti hh _ ht
  notifying h hh l := (hp.sane h).noti hh l

/-- Lists and memory are in order: nothing is freed twice, and the next
operation does not touch what has been freed. -/
structure MemorySafe (m : Mode) (c : Config) : Prop where
  lists : ListsOk c.st
  freed : ∀ h, c.st.log.count (.freed h) ≤ 1
  noFault : ¬ Faults sys (guard m) c

/-- Lists and memory are in order at every point of every run in which no
handle is passed that the dispatch loop has released behind the user's back. -/
theorem run_memorySafe (m : Mode) (hm : m.stale = false) (b : Boot) (c : Config) (hr : Reachable m b c) :
    MemorySafe m c where
  lists := (hr.point hm).listsOk
  freed h := (hr.point hm).log.freed_le_one h
  noFault := (sound hm).no_fault (hr.ok hm)

theorem run_memorySafe_inSecond : MemorySafe {} (inSecond {}) :=
  run_memorySafe {} rfl boot (inSecond {}) (inSecond_reachable {})

/-- The second callback cancels the first timer. -/
def staleCancel : Config := enter sys (guard { stale := true }) (.cancel 1) {} 0 (inSecond { stale := true })

theorem staleCancel_reachable : Reachable { stale := true } boot staleCancel :=
  Reaches.enter (inSecond_reachable { stale := true }) (.cancel 1) {} 0

theorem staleCancel_faults : Faults sys (guard { stale := true }) staleCancel :=
  faults_of (show faultsAt sys (guard { stale := true }) {} staleCancel = true by decide +kernel)

/-- The first timer of `inSecond` is still the user's to cancel, and freed. -/
theorem run_not_memorySafe : ¬ ∀ b c, Reachable { stale := true } b c → MemorySafe { stale := true } c :=
  fun h => (h boot staleCancel staleCancel_reachable).noFault staleCancel_faults

/-! ## No handle is lost -/

section Attached
variable {m : Mode} {s : St} {h : Ptr}

theorem Core.registered_of_valid (hc : Core m s) (hd : m.drop = false) (hv : valid s.log h = true) :
    Evb2.registered s.log h = true := by
  simp only [Evb2.registered, hv, Bool.true_and, Bool.not_eq_true']
  by_contra hdr
  have hnone := hc.dropped (by simpa using hdr)
  simp only [valid, Bool.and_eq_true, Bool.not_eq_true'] at hv
  have hok := (hc.ok h).2
  rw [show (s.view h).hd = none from hnone] at hok
  rcases hok hv.1 with hr | ⟨hd', -⟩
  · exact absurd (hr.symm.trans hv.2) (by simp)
  · exact absurd (hd'.symm.trans hd) (by simp)

/-- Without saturated deadlines, a registered handle is on a list or being notified. -/
theorem Core.linked (hc : Core m s) (hm : m.sat ≠ .any) (hr : Evb2.registered s.log h = true) :
    (∃ l, h ∈ s.lists l) ∨ s.notifying = some h := by
  obtain ⟨hd, -, hok, hrel, -⟩ := hc.registered hr
  by_cases hb : (s.view h).Busy
  · rcases hb with hb | hb | hb | hb
    · exact .inl ⟨_, hb⟩
    · exact .inl ⟨_, hb⟩
    · exact .inr hb
    · exact absurd (hb.symm.trans (hok.not_notified hrel)) (by simp)
  · by_cases hfd : 0 ≤ hd.fd
    · exact .inl ⟨.fdmon, hok.fdmon.2 ⟨hfd, hb⟩⟩
    · exact .inl ⟨.timer, hok.timer.2 ⟨hok.armed hm hb (not_le.1 hfd), hb⟩⟩

theorem wp_cancel_zero (hu : AtUser m s) (ha : s.alive = true) (hm : m.sat ≠ .any) (hr : registered s.log h = true) :
    Wp m (.cancel h) (api (.cancel h)) (fun r _ => r = .int 0) s := by
  refine wp.seq (wp_aloeEvb2Cancel hu ha hr rfl fun r v' s' hc _ _ _ => wp_pure ?_)
  cases hc with
  | deferred => rfl
  | freed => rfl
  | missing hn hno =>
    rcases hu.toCore.linked hm hr with ⟨l, hl⟩ | hl
    · exact absurd hl (hno l)
    · exact absurd hl hn

end Attached

/-- Every handle the user may still pass can be reached by the loop, which
cancels and destroys through the lists and `notifying`. -/
structure Attached (m : Mode) (c : Config) : Prop where
  live : ∀ l, ∀ h ∈ c.st.lists l, c.st.Live h
  linked : c.AtUser → ∀ h, valid c.st.log h = true → (∃ l, h ∈ c.st.lists l) ∨ c.st.notifying = some h
  cancel : c.AtUser → c.st.alive = true → ∀ h, valid c.st.log h = true → ∀ r s',
    Inside sys (guard m) (.cancel h) c.stack c.st (api (.cancel h)) s' (.ret r) → r = .int 0
  destroy : c.AtUser → c.st.alive = false → ∀ h, c.st.heap h = none

/-- No handle is lost in a run in which no handle without a descriptor is armed
with a saturated deadline and no callback of a registered handle returns after
`aloe_evb2_destroy`. -/
theorem run_attached (m : Mode) (hs : m.sat ≠ .any) (hd : m.drop = false) (b : Boot) (c : Config)
    (hr : Reachable m b c) : Attached m c where
  live := by
    rcases hr.fresh with h | ⟨-, c', h, he⟩
    · exact (h.point rfl).listsOk.live
    · exact he ▸ (h.point rfl).listsOk.live
  linked hu h hv := by
    have hc := ((hr.fresh_of_user hu).user rfl hu).toCore
    exact hc.linked hs (hc.registered_of_valid hd hv)
  cancel hu ha h hv r s' hi := by
    have hu' := (hr.fresh_of_user hu).user rfl hu
    exact ((sound rfl).inside (inside_fresh hi) hu'.point
      (wp_cancel_zero hu' ha hs (hu'.toCore.registered_of_valid hd hv))).2
  destroy hu ha := (((hr.fresh_of_user hu).user rfl hu).dead ha).2 hs

theorem run_attached_inFirst : Attached { sat := .never, drop := false } (inFirst { sat := .never, drop := false }) :=
  run_attached _ (by decide) rfl boot _ (inFirst_reachable _)

/-- A timer whose deadline is as late as a deadline can be. -/
def lateTimer : Config := ask { stale := true } (.addTimer 0xFFFFFFFFFFFFFFFE (some 0) 0) 5 (Config.init boot)

theorem run_not_attached : ¬ ∀ b c, Reachable { stale := true } b c → Attached { stale := true } c := by
  intro h
  have hr : Reachable { stale := true } boot lateTimer := (Reachable.init _ boot).ask _ _
  have hu : lateTimer.AtUser := atUser_of (by decide +kernel)
  rcases (h boot lateTimer hr).linked hu 1 (by decide +kernel) with ⟨l, hl⟩ | hl
  · revert hl
    cases l <;> decide +kernel
  · revert hl
    decide +kernel

/-! ## Cancelling is final -/

/-- Once `aloe_evb2_cancel` has returned 0 for a handle, its callback is not
called any more, whatever comes after in the run. -/
theorem cancel_final (m : Mode) (b : Boot) (c : Config) (hr : Reachable m b c) (h : Ptr) (l₁ l₂ : List Event)
    (hlog : c.st.log = l₁ ++ .cancel h 0 :: l₂) : ∀ e ∈ l₁, e.invokes h = false := by
  have hrel : released (.cancel h 0 :: l₂) h = true := by simp [released, hist, Event.about, Event.releases]
  exact LogOk.quiet (hlog ▸ hr.logOk) hrel

/-- The first callback cancels the second handle, which is ready in the same pass. -/
def cancelReady : Config := answer {} 10 (ask {} (.cancel 2) 10 (inFirst {}))

theorem cancel_final_ready : ∃ l₁ l₂, cancelReady.st.log = l₁ ++ .cancel 2 0 :: l₂ ∧ l₁ ≠ [] ∧
    ∀ e ∈ l₁, e.invokes 2 = false := by
  have hr : Reachable {} boot cancelReady := ((inFirst_reachable {}).ask _ _).answer _
  have hlog : cancelReady.st.log = cancelReady.st.log.take 2 ++ .cancel 2 0 :: cancelReady.st.log.drop 3 := by
    decide +kernel
  exact ⟨_, _, hlog, by decide +kernel, cancel_final {} boot cancelReady hr 2 _ _ hlog⟩

/-! ## Cancelling by descriptor -/

/-- Since the call made in `c`, which ended in `s'` with result `n`, no handle
that was registered on `fd` is any more, none is called again, and `n` is
their number. -/
structure CancelsAll (m : Mode) (c : Config) (fd : Int) (s' : St) (n : Int) : Prop where
  gone : ∀ h ∈ c.st.onFd fd, h ∉ s'.onFd fd
  quiet : ∀ h ∈ c.st.onFd fd, ∀ c', Reaches sys (guard m) ⟨s', c.stack⟩ c' →
    c'.st.log.countP (Event.invokes h) = s'.log.countP (Event.invokes h)
  count : n = (c.st.onFd fd).card

theorem wp_cancelFd {m : Mode} {s : St} {fd : Int} (hu : AtUser m s) (ha : s.alive = true) (hfd : 0 ≤ fd)
    (hr : fd ≠ s.asyncPipe0) (hw : fd ≠ s.asyncPipe1) : Wp m (.cancelFd fd) (api (.cancelFd fd))
      (fun r s' => ∃ n, r = .int n ∧ Sweep m fd s s' ∧ n + (s'.onFd fd).card = ((s.onFd fd).card : Int) ∧
        ∀ h ∈ s'.onFd fd, s.notifying = some h) s := by
  refine wp.seq (wp_aloeEvb2CancelFd hu ha rfl (fun hbad => ?_) fun n s' _ hs hn hrest => ?_)
  · rcases hbad with h | h | h
    · exact absurd hfd (not_le.2 h)
    · exact absurd h hr
    · exact absurd h hw
  · exact wp_pure ⟨n, rfl, hs, hn, hrest⟩

/-- A call of `aloe_evb2_cancel_fd` cancels all handles on its descriptor if and
only if it is not made from the callback of a handle that is registered on it. -/
theorem cancelFd_cancelsAll (m : Mode) (b : Boot) (c : Config) (hr : Reachable m b c) (hu : c.AtUser)
    (ha : c.st.alive = true) (fd : Int) (hfd : 0 ≤ fd) (hrd : fd ≠ c.st.asyncPipe0) (hwr : fd ≠ c.st.asyncPipe1)
    (s' : St) (n : Int)
    (hi : Inside sys (guard m) (.cancelFd fd) c.stack c.st (api (.cancelFd fd)) s' (.ret (.int n))) :
    CancelsAll m c fd s' n ↔ ∀ h, c.st.notifying = some h → h ∉ c.st.onFd fd := by
  have hf := hr.fresh_of_user hu
  have hu' := hf.user rfl hu
  obtain ⟨-, n', hn', hs, hcard, hrest⟩ :=
    (sound rfl).inside (inside_fresh hi) hu'.point (wp_cancelFd hu' ha hfd hrd hwr)
  cases hn'
  constructor
  · intro hall h hn hmem
    -- The handle being notified is as it was before the call.
    refine hall.gone h hmem ?_
    have hv := hs.notiView h hn
    have hl : hist s'.log h = hist c.st.log h := congrArg View.hist hv
    have hh : s'.heap h = c.st.heap h := congrArg View.hd hv
    obtain ⟨-, hreg, hany⟩ := Finset.mem_filter.1 hmem
    obtain ⟨hd, hhd, -⟩ := (Option.any_eq_true _ _).1 hany
    refine Finset.mem_filter.2 ⟨Finset.mem_range.2 (hs.user.point.lt_next ?_), ?_, ?_⟩
    · simp [St.view, hh, hhd]
    · simpa only [registered, valid, isAdded, released, dropped, hl] using hreg
    · rw [hh]; exact hany
  · intro hno
    have hempty : s'.onFd fd = ∅ := Finset.eq_empty_of_forall_notMem fun h hh => hno h (hrest h hh) (hs.sub hh)
    refine ⟨fun h _ => by simp [hempty], fun h hh c' hc' => ?_, by simpa [hempty] using hcard⟩
    have hrel : released s'.log h = true := (hs.gone h hh).resolve_left (by simp [hempty])
    have hcall : step sys (guard m) (.call (.cancelFd fd)) c = some ⟨c.st, (.cancelFd fd, api (.cancelFd fd)) :: c.stack⟩ :=
      step_call.2 ⟨hu, by simp [guard, Call.handle, ha], rfl⟩
    have hr' : Reachable m b c' :=
      hr.trans ((Reaches.one _ hcall).trans (hi.reaches.trans ((Reaches.one .finish rfl).trans hc')))
    obtain ⟨l, hl⟩ := reaches_log hc'
    have hl' : c'.st.log = l ++ s'.log := hl.symm
    have hq := LogOk.quiet (hl' ▸ hr'.logOk) hrel
    rw [hl', List.countP_append, List.countP_eq_zero.2 fun e he => by simp [hq e he], Nat.zero_add]

/-- Two handles on descriptor 7. -/
def onSeven (m : Mode) : Config :=
  ask m (.addFd 7 flagRead infinite (some 0) 0) 0 (ask m (.addFd 7 flagRead infinite (some 0) 0) 0 (Config.init boot))

theorem onSeven_reachable (m : Mode) : Reachable m boot (onSeven m) := ((Reachable.init m boot).ask _ _).ask _ _

/-- The callback of the first is running, and the second is ready. -/
def inSeven (m : Mode) : Config := enter sys (guard m) (.runOnce 0) { wait := .events [(7, epollIn)] } 400 (onSeven m)

/-- `aloe_evb2_cancel_fd` of descriptor 7. -/
def cancelSeven (m : Mode) (c : Config) : St × Code Ret :=
  driveInside sys (guard m) {} (.cancelFd 7) 400 c.st (api (.cancelFd 7))

theorem cancelFd_cancelsAll_onSeven : CancelsAll {} (onSeven {}) 7 (cancelSeven {} (onSeven {})).1 2 := by
  have hu : (onSeven {}).AtUser := atUser_of (by decide +kernel)
  have hres : (cancelSeven {} (onSeven {})).2.result? = some (.int 2) := by decide +kernel
  refine (cancelFd_cancelsAll {} boot (onSeven {}) (onSeven_reachable {}) hu (by decide +kernel) 7 (by decide)
    (by decide +kernel) (by decide +kernel) _ 2 (inside_ret hres _)).2 fun h hn => ?_
  have : (onSeven {}).st.notifying = none := by decide +kernel
  rw [this] at hn
  cases hn

/-- From the first callback only the second handle is cancelled. -/
theorem cancelFd_not_cancelsAll : ¬ ∀ b c, Reachable { stale := true } b c → c.AtUser → c.st.alive = true →
    ∀ fd, 0 ≤ fd → fd ≠ c.st.asyncPipe0 → fd ≠ c.st.asyncPipe1 → ∀ s' n, 0 ≤ n →
    Inside sys (guard { stale := true }) (.cancelFd fd) c.stack c.st (api (.cancelFd fd)) s' (.ret (.int n)) →
    CancelsAll { stale := true } c fd s' n := by
  intro h
  have hr : Reachable { stale := true } boot (inSeven { stale := true }) := Reaches.enter (onSeven_reachable _) _ _ _
  have hu : (inSeven { stale := true }).AtUser := atUser_of (by decide +kernel)
  have hres : (cancelSeven { stale := true } (inSeven { stale := true })).2.result? = some (.int 1) := by decide +kernel
  have hall := h boot _ hr hu (by decide +kernel) 7 (by decide) (by decide +kernel) (by decide +kernel) _ 1 (by decide)
    (inside_ret hres _)
  have hcard : ((inSeven { stale := true }).st.onFd 7).card = 2 := by decide +kernel
  have := hall.count
  rw [hcard] at this
  exact absurd this (by decide)

/-! ## Destruction -/

section Destroy
variable {m : Mode} {b : Boot} {s s' : St} {c c' : Config}

theorem other_log {l : Other} (ho : other l s = some s') :
    s'.log = s.log ∨ ∃ h, s'.log = .added h :: .queued h :: s.log := by
  cases l with
  | start =>
    simp only [other] at ho
    split at ho <;> cases ho
    exact .inl rfl
  | step i =>
    simp only [other] at ho
    split at ho
    · unfold stepProducer at ho
      split at ho
      · split at ho <;> cases ho
        exact .inl rfl
      · split at ho <;> cases ho
        · exact .inl rfl
        · exact .inr ⟨s.next, rfl⟩
      · cases ho; exact .inl rfl
      · cases ho; exact .inl rfl
      · cases ho; exact .inl rfl
      · cases ho
    · cases ho

/-- Nothing was dispatched since `s₀`. -/
def Undispatched (s₀ : St) (log : List Event) : Prop :=
  ∃ q, log = q ++ s₀.log ∧ ∀ e ∈ q, ∀ h, e.invokes h = false

theorem Undispatched.other {s₀ : St} {l : Other} (hu : Undispatched s₀ s.log) (ho : Evb2.other l s = some s') :
    Undispatched s₀ s'.log := by
  obtain ⟨q, hq, hi⟩ := hu
  rcases other_log ho with h | ⟨k, h⟩
  · exact ⟨q, h.trans hq, hi⟩
  · refine ⟨.added k :: .queued k :: q, by simp [h, hq], fun e he h => ?_⟩
    simp only [List.mem_cons] at he
    rcases he with rfl | rfl | he
    · rfl
    · rfl
    · exact hi e he h

/-- `aloe_evb2_destroy` was called in `s₀` and has not yet marked the context,
or it has, and nothing was dispatched in between. -/
def Marking (s₀ : St) (c : Config) : Prop :=
  ((∃ rest, c.stack = (.destroy, api .destroy) :: rest) ∨
      ∃ k rest, c.stack = (.destroy, .op .setStopping k) :: rest) ∧ Undispatched s₀ c.st.log ∨
    ∃ l q, c.st.log = l ++ .stopping :: q ∧ Undispatched s₀ q

theorem Marking.step {s₀ : St} {l : Label Env Call Other} (hm : Marking s₀ c)
    (hs : step sys (guard m) l c = some c') : Marking s₀ c' := by
  rcases hm with ⟨hst, hu⟩ | ⟨l', q, hl, hu⟩
  · have hop : ∃ o k rest, c.stack = (.destroy, .op o k) :: rest ∧ (o = .lock ∧ (∀ r, ∃ k', k r = .op .setStopping k') ∨
        o = .setStopping) := by
      rcases hst with ⟨rest, hst⟩ | ⟨k, rest, hst⟩
      · exact ⟨.lock, _, rest, hst, .inl ⟨rfl, fun _ => ⟨_, rfl⟩⟩⟩
      · exact ⟨.setStopping, k, rest, hst, .inr rfl⟩
    obtain ⟨o, k, rest, hst', ho⟩ := hop
    obtain ⟨a, -, hau, -⟩ | ⟨a, k', r, hc, -⟩ | ⟨e, a, o', k', r, x, t, hc, -, hx, rfl⟩ | ⟨a, σ, β, body, i, k', r, hc, -⟩ |
      ⟨a, x, r, hc, -⟩ | ⟨w, t, hop, -, hx, rfl⟩ := step_cases hs
    · simp [Cfg.AtUser, hst'] at hau
    · rw [hst'] at hc; cases hc
    · rw [hst'] at hc
      cases hc
      rcases ho with ⟨rfl, hk⟩ | rfl
      · have hlog : t.log = c.st.log := by
          simp only [sys, Op.exec] at hx
          split at hx <;> cases hx
          rfl
        obtain ⟨k'', hk''⟩ := hk x
        exact .inl ⟨.inr ⟨k'', rest, by simp [hk'']⟩, by simpa [hlog] using hu⟩
      · have hlog : t.log = .stopping :: c.st.log := by
          obtain ⟨-, hx⟩ := need_eq_ok hx
          cases hx
          rfl
        exact .inr ⟨[], c.st.log, hlog, hu⟩
    · rw [hst'] at hc; cases hc
    · rw [hst'] at hc; cases hc
    · exact .inl ⟨hst, hu.other hx⟩
  · obtain ⟨p, hp⟩ := reaches_log (Reaches.one l hs)
    exact .inr ⟨p ++ l', q, by rw [← hp, hl, List.append_assoc], hu⟩

theorem Marking.mem {s₀ : St} (hm : Marking s₀ c) {e : Event} {h : Ptr} {a z : List Event} (hi : e.invokes h = true)
    (hl : c.st.log = a ++ e :: z) (hn : e ∉ s₀.log) : .stopping ∈ z := by
  have hnu : ∀ {q}, Undispatched s₀ q → e ∉ q := fun ⟨q, hq, hqi⟩ he => by
    subst hq
    rcases List.mem_append.1 he with he | he
    · rw [hqi e he h] at hi; cases hi
    · exact hn he
  rcases hm with ⟨-, hu⟩ | ⟨l, q, hl', hu⟩
  · exact absurd (by simp [hl]) (hnu hu)
  have hne : e ≠ .stopping := by rintro rfl; cases hi
  have hs : .stopping :: q <:+ c.st.log := ⟨l, hl'.symm⟩
  have hs' : e :: z <:+ c.st.log := ⟨a, hl.symm⟩
  rcases List.suffix_or_suffix_of_suffix hs hs' with h | h
  · rcases List.suffix_cons_iff.1 h with h | h
    · exact absurd (List.head_eq_of_cons_eq h).symm hne
    · exact h.subset (by simp)
  · have : e ∈ .stopping :: q := h.subset (by simp)
    rcases List.mem_cons.1 this with h | h
    · exact absurd h hne
    · exact absurd h (hnu hu)

end Destroy

/-- What `aloe_evb2_destroy`, called in `s₀`, has brought about in `c`. -/
structure DestroyOk (s₀ : St) (c : Config) : Prop where
  /-- When the context is freed, every handle has got one CANCELLED callback, or was cancelled. -/
  notified : ∀ h l₁ l₂, c.st.log = l₁ ++ .ctxFreed :: l₂ → valid s₀.log h = true → .cancel h 0 ∉ l₂ →
    l₂.countP (Event.cancels h) = 1
  adds : ∀ l₁ l₂, c.st.log = l₁ ++ .stopping :: l₂ → ∀ h, .added h ∉ l₁
  once : c.st.log.count .ctxFreed ≤ 1 ∧ ∀ h, c.st.log.count (.freed h) ≤ 1
  /-- When the outermost call has returned, everything is freed. -/
  finished : c.stack = [] → .stopping ∈ c.st.log ∧ c.st.log.count .ctxFreed = 1 ∧
    ∀ h < c.st.next, c.st.log.count (.freed h) = 1
  silent : ∀ l₁ l₂, c.st.log = l₁ ++ .ctxFreed :: l₂ → ∀ e ∈ l₁, ∀ h, e.invokes h = false

/-- A handle that was valid when the context was destroyed and was not cancelled by
the user has had its CANCELLED callback when the context is freed. -/
theorem LogOk.notifies {m : Mode} {s₀ : St} {c : Config} {h : Ptr} {l₁ l₂ : List Event} (hs : m.sat ≠ .any)
    (hd : m.drop = false) (hl : m.late = false) (hlog : LogOk m.fresh c.st.log) (hmark : Marking s₀ c)
    (hsuf : s₀.log <:+ l₂) (he : c.st.log = l₁ ++ .ctxFreed :: l₂) (hv : valid s₀.log h = true)
    (hn : .cancel h 0 ∉ l₂) : l₂.countP (Event.cancels h) = 1 := by
  simp only [valid, Bool.and_eq_true, Bool.not_eq_true'] at hv
  rw [he] at hlog
  have hl₂ : LogOk m.fresh l₂ := hlog.after.2
  have hadd : isAdded l₂ h = true := by
    obtain ⟨e, hm, h1⟩ := any_hist.1 hv.1
    exact any_hist.2 ⟨e, hsuf.subset hm, h1⟩
  have hrel : released l₂ h = true := by
    rcases hlog.legal.2 hs h hadd with h1 | ⟨h1, -⟩
    · exact h1
    · exact absurd (h1.symm.trans hd) (by simp)
  obtain ⟨e, hm, hab, hre⟩ := any_hist.1 hrel
  have hnew : e ∉ s₀.log := fun hold => by
    have : released s₀.log h = true := any_hist.2 ⟨e, hold, hab, hre⟩
    rw [hv.2] at this
    cases this
  refine le_antisymm (hl₂.cancels_le_one h) (List.countP_pos_iff.2 ?_)
  obtain ⟨a, z, rfl⟩ := List.append_of_mem hm
  have hlez : Legal m.fresh z e := hl₂.legal
  -- the handle was taken back between the call and the end: by whom?
  rcases Event.releases_cases hre hab with rfl | ⟨fd, noti, ud, stop, rfl⟩ | hcan
  · exact absurd hm hn
  · obtain ⟨-, -, -, -, hstop, hlate⟩ := hlez
    have hmem : Event.stopping ∈ z := hmark.mem (h := h) (a := l₁ ++ .ctxFreed :: a) (by simp [Event.invokes])
      (by simp [he]) hnew
    have hnot := hlate hl
    rw [hstop hmem] at hnot
    cases hnot
  · exact ⟨e, hm, hcan⟩

/-- A context that was told to stop is dead when no call is left. -/
theorem Reachable.dead {m : Mode} {b : Boot} {c : Config} (hr : Reachable m b c) (hst : c.stack = [])
    (hmem : .stopping ∈ c.st.log) : AtUser m.fresh c.st ∧ c.st.alive = false := by
  have hu : c.AtUser := by simp [Cfg.AtUser, hst]
  have hsok := ((hr.fresh_of_user hu).ok rfl).2
  rw [hst] at hsok
  obtain ⟨hau, hk⟩ := hsok
  have hau : AtUser m.fresh c.st := hau
  have hk : Keeps none (St.init b) c.st := hk
  refine ⟨hau, ?_⟩
  by_contra halive
  have halive' : c.st.alive = true := by simpa using halive
  have hstop := (hau.idle halive' (hk.rest rfl halive')).1
  rw [hau.point.stop.2 hmem] at hstop
  cases hstop

/-- Destruction notifies everyone once, in runs in which no deadline saturates,
no one-shot handle is dispatched after `aloe_evb2_destroy`, and no callback of a
registered handle returns to the dispatch loop after it. -/
theorem destroy_notifies (m : Mode) (hs : m.sat ≠ .any) (hd : m.drop = false) (hl : m.late = false) (b : Boot)
    (c₀ c : Config) (hr : Reachable m b c₀) (hu : c₀.AtUser) (ha : c₀.st.alive = true)
    (hc : Reaches sys (guard m) ⟨c₀.st, (.destroy, api .destroy) :: c₀.stack⟩ c) : DestroyOk c₀.st c := by
  have hu₀ := (hr.fresh_of_user hu).user rfl hu
  have hcall : step sys (guard m) (.call .destroy) c₀ = some ⟨c₀.st, (.destroy, api .destroy) :: c₀.stack⟩ :=
    step_call.2 ⟨hu, by simp [guard, Call.handle, ha], rfl⟩
  have hr' : Reachable m b c := hr.trans ((Reaches.one _ hcall).trans hc)
  have hlog := hr'.logOk
  have hmark : Marking c₀.st c :=
    hc.keep (fun _ _ _ h hs => h.step hs) (.inl ⟨.inl ⟨_, rfl⟩, [], rfl, by simp⟩)
  refine ⟨fun h l₁ l₂ he hv hn => ?_, fun l₁ l₂ he => (he ▸ hlog).no_add, ⟨hlog.ctxFreed_le_one, hlog.freed_le_one⟩,
    fun hst => ?_, fun l₁ l₂ he e hm h => (he ▸ hlog).silent e hm⟩
  · have hsuf : c₀.st.log <:+ l₂ := by
      have h1 : c₀.st.log <:+ c.st.log := reaches_log (c := ⟨c₀.st, (.destroy, api .destroy) :: c₀.stack⟩) hc
      have hnot : Event.ctxFreed ∉ c₀.st.log := hu₀.point.ctx.1 ha
      rcases List.suffix_or_suffix_of_suffix h1 ⟨l₁, he.symm⟩ with h2 | h2
      · rcases List.suffix_cons_iff.1 h2 with h2 | h2
        · exact absurd (by simp [h2]) hnot
        · exact h2
      · exact absurd (h2.subset (by simp)) hnot
    exact LogOk.notifies hs hd hl hlog hmark hsuf he hv hn
  · have hmem : .stopping ∈ c.st.log := by
      rcases hmark with ⟨⟨rest, h⟩ | ⟨k, rest, h⟩, -⟩ | ⟨l, q, h, -⟩
      · rw [hst] at h; cases h
      · rw [hst] at h; cases h
      · simp [h]
    obtain ⟨hau, hdead⟩ := hr'.dead hst hmem
    refine ⟨hmem, ?_, fun h hlt => ?_⟩
    · have : Event.ctxFreed ∈ c.st.log := by
        by_contra hn
        have := hau.point.ctx.2 hn
        rw [hdead] at this
        cases this
      exact le_antisymm hlog.ctxFreed_le_one (List.count_pos_iff.2 this)
    · exact le_antisymm (hlog.freed_le_one h) (List.count_pos_iff.2 (hr'.freedLogged h hlt ((hau.dead hdead).2 hs h)))

/-- The context is destroyed in `c`, up to the first callback. -/
def destroying (m : Mode) (c : Config) : Config :=
  drive sys (guard m) {} 400 ⟨c.st, (.destroy, api .destroy) :: c.stack⟩

/-- Two timers outside the loop. -/
def twoTimers (m : Mode) : Config :=
  ask m (.addTimer 5 (some 0) 0) 0 (ask m (.addTimer 5 (some 0) 0) 0 (Config.init boot))

def calm : Mode := { sat := .never, drop := false, late := false }

theorem destroy_notifies_twoTimers : DestroyOk (twoTimers calm).st
    (answer calm 0 (answer calm 0 (destroying calm (twoTimers calm)))) :=
  destroy_notifies calm (by decide) rfl rfl boot (twoTimers calm) _ (((Reachable.init calm boot).ask _ _).ask _ _)
    (atUser_of (by decide +kernel)) (by decide +kernel)
    (Reaches.back (Reaches.back (reaches_drive _ _ _) _ _) _ _)

/-- Runs without saturated deadlines. -/
def loose : Mode := { sat := .never, stale := true }

/-- The first callback of `inFirst` destroys the context, and the pass ends. -/
def dropped12 : Config := answer loose 10 (answer loose 10 (destroying loose (inFirst loose)))

theorem dropped12_log : dropped12.st.log = [] ++ .ctxFreed :: dropped12.st.log.tail := by decide +kernel

theorem dropped12_silent : dropped12.st.log.tail.countP (Event.cancels 1) = 0 := by decide +kernel

/-- Both timers of `inFirst` are registered when the first callback destroys the
context, and neither gets a CANCELLED callback. -/
theorem destroy_not_notifies : ¬ ∀ b c₀ c, Reachable loose b c₀ → c₀.AtUser → c₀.st.alive = true →
    Reaches sys (guard loose) ⟨c₀.st, (.destroy, api .destroy) :: c₀.stack⟩ c → DestroyOk c₀.st c := by
  intro h
  have hc : Reaches sys (guard loose) ⟨(inFirst loose).st, (.destroy, api .destroy) :: (inFirst loose).stack⟩ dropped12 := by
    unfold dropped12
    exact Reaches.back (Reaches.back (reaches_drive _ _ _) _ _) _ _
  have hall := h boot (inFirst loose) dropped12 (inFirst_reachable loose)
    (atUser_of (by decide +kernel)) (by decide +kernel) hc
  have hone := hall.notified 1 [] _ dropped12_log (by decide +kernel) (by decide +kernel)
  rw [dropped12_silent] at hone
  cases hone

/-! ## The kernel's interest -/

theorem wp_addFd_none {m : Mode} {s : St} {fd : Int} {ev : UInt32} {ms : UInt64} {cb : Option Nat} {ud : Nat}
    (hu : AtUser m s) (ha : s.alive = true) :
    Wp m (.addFd fd ev ms cb ud) (api (.addFd fd ev ms cb ud)) (fun r s' => r = .ptr none → Unchanged s s') s :=
  wp_addFd hu ha fun _ _ _ _ h => h

/-- While `epoll_ctl` fails only in the calls that add handles, the kernel's
interest mirrors `fdmon_list` whenever user code runs, until the context is
finalized; and a call that does not add a handle changes neither. -/
theorem interest_mirrors (m : Mode) (hm : m.ctl = false) (b : Boot) (c : Config) (hr : Reachable m b c)
    (hu : c.AtUser) :
    (c.st.finalized = false → ∀ fd, 0 ≤ fd → c.st.interest fd = c.st.want fd) ∧
    ∀ fd ev ms cb ud s', c.st.alive = true →
      Inside sys (guard m) (.addFd fd ev ms cb ud) c.stack c.st (api (.addFd fd ev ms cb ud)) s' (.ret (.ptr none)) →
      s'.lists = c.st.lists ∧ s'.interest = c.st.interest := by
  have hu' := (hr.fresh_of_user hu).user rfl hu
  refine ⟨fun hf => hu'.mirror hm hf, fun fd ev ms cb ud s' ha hi => ?_⟩
  exact ((sound rfl).inside (inside_fresh hi) hu'.point (wp_addFd_none hu' ha)).2 rfl

/-- Runs in which `epoll_ctl` fails only in the calls that add handles. -/
def steady : Mode := { ctl := false }

/-- In the callback on descriptor 7, a third handle is refused by the kernel. -/
def refused : St × Code Ret :=
  driveInside sys (guard steady) { ctlErr := some .other } (.addFd 7 flagWrite infinite (some 0) 0) 400
    (inSeven steady).st (api (.addFd 7 flagWrite infinite (some 0) 0))

theorem interest_mirrors_inSeven : (inSeven steady).st.interest 7 = (inSeven steady).st.want 7 ∧
    refused.1.lists = (inSeven steady).st.lists ∧ refused.1.interest = (inSeven steady).st.interest := by
  have hr : Reachable steady boot (inSeven steady) := Reaches.enter (onSeven_reachable _) _ _ _
  obtain ⟨h1, h2⟩ := interest_mirrors steady rfl boot (inSeven steady) hr (atUser_of (by decide +kernel))
  have hres : refused.2.result? = some (.ptr none) := by decide +kernel
  exact ⟨h1 (by decide +kernel) 7 (by decide),
    h2 7 flagWrite infinite (some 0) 0 refused.1 (by decide +kernel) (inside_ret hres _)⟩

/-! ## Timers added by other threads -/

/-- The loop is about to wait or waits in `epoll_wait`. -/
def waiting (c : Config) : Bool :=
  match c.stack with
  | (_, .op (.epollWait _) _) :: _ => true
  | _ => false

theorem waiting_cases {c : Config} (h : waiting c = true) :
    ∃ a t k rest, c.stack = (a, .op (.epollWait t) k) :: rest := by
  unfold waiting at h
  split at h
  · rename_i a t k rest hst
    exact ⟨a, t, k, rest, hst⟩
  · cases h

/-- The handle leaves `async_list`. -/
def Event.leavesAsync (h : Ptr) (e : Event) : Bool := e.leaves && e.about = some h

theorem LogOk.leaves_le_one {m : Mode} {log : List Event} (hl : LogOk m log) (h : Ptr) :
    log.countP (Event.leavesAsync h) ≤ 1 := by
  refine hl.countP_le_one fun log e he hp => ?_
  simp only [Event.leavesAsync, Bool.and_eq_true, decide_eq_true_eq] at hp
  have hno : (hist log h).any Event.leaves = false := by
    have hf : e.Fits m log (hist log h) := by
      simp only [Legal, hp.2] at he
      exact he.2
    cases e <;> simp only [Event.leaves, Bool.false_eq_true, false_and] at hp
    · exact hf.2
    · exact hf.2
  refine countP_zero hno fun e hpe => ?_
  simp only [Event.leavesAsync, Bool.and_eq_true, decide_eq_true_eq] at hpe
  exact ⟨hpe.2, hpe.1⟩

/-- The first event about a handle after it was popped passes it on. -/
theorem LogOk.passes_on {m : Mode} {a z l : List Event} {e : Event} {h : Ptr} {t : UInt64}
    (hl : LogOk m (a ++ e :: (z ++ .popped h t :: l))) (he : e.about = some h) (hz : hist z h = []) :
    e = .armed h t ∨ ∃ fd ud, e = .cancelled h fd ud := by
  have hleg := hl.legal
  simp only [Legal, he, hist_append, hz, List.nil_append] at hleg
  have hmov : moving (hist (.popped h t :: l) h) = some t := by simp [hist, Event.about, moving]
  rcases hleg.1 t hmov with ⟨k, rfl⟩ | ⟨k, fd, ud, rfl⟩
  · simp only [Event.about, Option.some.injEq] at he
    exact .inl (by rw [he])
  · simp only [Event.about, Option.some.injEq] at he
    exact .inr ⟨fd, ud, by rw [he]⟩

/-- Timers that other threads add are neither lost nor duplicated. -/
structure AsyncOk (m : Mode) (c : Config) : Prop where
  /-- The loop does not wait while a timer is queued, unless it has been woken or
  the thread that queued it holds the mutex and is about to wake it. -/
  woken : waiting c = true → c.st.lists .async ≠ [] → 0 < c.st.pipe ∨
    ∃ i h, c.st.producers[i]? = some (.linked h) ∧ c.st.asyncLock = some (.producer i)
  watched : waiting c = true → m.ctl = false →
    ∃ mask, c.st.interest c.st.asyncPipe0 = some mask ∧ mask &&& epollIn ≠ 0
  stays : ∀ h, .queued h ∈ c.st.log → (∀ e ∈ c.st.log, e.leavesAsync h = false) → h ∈ c.st.lists .async
  once : ∀ h, c.st.log.countP (Event.leavesAsync h) ≤ 1
  /-- What is next recorded about a handle taken off to be installed. -/
  passedOn : ∀ a e z l h t, c.st.log = a ++ e :: (z ++ .popped h t :: l) → e.about = some h → hist z h = [] →
    e = .armed h t ∨ ∃ fd ud, e = .cancelled h fd ud
  settled : c.AtUser → ∀ z l h t, c.st.log = z ++ .popped h t :: l → hist z h ≠ []
  cancels : ∀ h, c.st.log.countP (Event.cancels h) ≤ 1

theorem async_not_lost (m : Mode) (b : Boot) (c : Config) (hr : Reachable m b c) : AsyncOk m c := by
  have hp : Point m.fresh c.st := by
    rcases hr.fresh with h | ⟨-, c', h, hs⟩
    · exact h.point rfl
    · exact hs ▸ h.point rfl
  have hwait : waiting c = true → MayWait m.fresh c.st := fun hw => by
    obtain ⟨a, t, k, rest, hst⟩ := waiting_cases hw
    rcases hr.fresh with h | ⟨⟨_, _, _, _, hst', -⟩, -⟩
    · have hok := h.ok rfl
      obtain ⟨s, stack⟩ := c
      simp only at hst
      subst hst
      exact (sound rfl).before hok
    · rw [hst] at hst'; cases hst'
  refine ⟨fun hw hne => ?_, fun hw => (hwait hw).watched, fun h hq hno => ?_, hp.log.leaves_le_one, ?_, ?_,
    hp.log.cancels_le_one⟩
  · rcases (hwait hw).woken with h | h | ⟨i, h, hi⟩
    · exact absurd h hne
    · exact .inl h
    · exact .inr ⟨i, h, hi, (hp.lock i).2 ⟨_, hi, rfl⟩⟩
  · refine (hp.sane h).async.2 ⟨any_hist.2 ⟨_, hq, rfl, rfl⟩, ?_⟩
    by_contra hl
    obtain ⟨e, he, hab, hlv⟩ := any_hist.1 (Bool.eq_true_of_not_eq_false hl)
    have := hno e he
    simp [Event.leavesAsync, hlv, hab] at this
  · exact fun a e z l h t hlog => LogOk.passes_on (hlog ▸ hp.log)
  · intro hu z l h t hlog hz
    have hmov := (((hr.fresh_of_user hu).user rfl hu).ok h).1
    have hh : (c.st.view h).hist = hist c.st.log h := rfl
    rw [hh, hlog, hist_append, hz] at hmov
    simp [hist, Event.about, moving] at hmov

/-- The loop waits. -/
def waits (m : Mode) (n : Nat) (c : Config) : Config := enter sys (guard m) (.runOnce 0) {} n c

/-- Producer `i` enters, takes the mutex and links its timer, while the loop waits. -/
def links (m : Mode) (i : Nat) (c : Config) : Config :=
  meanwhile sys (guard m) (.step i) (meanwhile sys (guard m) (.step i)
    (meanwhile sys (guard m) (.start 5 (some 0) 0 0 true) c))

/-- It wakes the loop and releases the mutex. -/
def wakes (m : Mode) (i : Nat) (c : Config) : Config :=
  meanwhile sys (guard m) (.step i) (meanwhile sys (guard m) (.step i) c)

def linked : Config := links steady 0 (waits steady 8 (Config.init boot))

theorem linked_reachable : Reachable steady boot linked := by
  unfold linked links waits
  exact (((Reachable.init steady boot).enter _ _ _).meanwhile _).meanwhile _ |>.meanwhile _

theorem async_not_lost_linked : AsyncOk steady linked ∧ waiting linked = true ∧ linked.st.lists .async = [1] :=
  ⟨async_not_lost steady boot linked linked_reachable, by decide +kernel, by decide +kernel⟩

/-- The kernel loses interest in the wake pipe when `epoll_ctl` fails as its handle is re-armed. -/
def unwatched : Config :=
  wakes {} 1 (links {} 1 (waits {} 9
    (drive sys (guard {}) { ctlErr := some .other } 400
      (drive sys (guard {}) { wait := .events [(4, epollIn)] } 20
        (wakes {} 0 (links {} 0 (waits {} 8 (Config.init boot))))))))

theorem unwatched_reachable : Reachable {} boot unwatched := by
  unfold unwatched wakes links waits
  exact ((((((Reachable.init {} boot).enter _ _ _).meanwhile _).meanwhile _ |>.meanwhile _).meanwhile _ |>.meanwhile _).drive
    _ _).drive _ _ |>.enter _ _ _ |>.meanwhile _ |>.meanwhile _ |>.meanwhile _ |>.meanwhile _ |>.meanwhile _

/-- A timer is queued and the pipe still empty, or the pipe is not watched. -/
theorem async_waits_unwoken :
    (∃ c, Reachable steady boot c ∧ waiting c = true ∧ c.st.lists .async ≠ [] ∧ c.st.pipe = 0) ∧
    ∃ c, Reachable {} boot c ∧ waiting c = true ∧ c.st.lists .async ≠ [] ∧ c.st.interest c.st.asyncPipe0 = none :=
  ⟨⟨linked, linked_reachable, by decide +kernel, by decide +kernel, by decide +kernel⟩,
    unwatched, unwatched_reachable, by decide +kernel, by decide +kernel, by decide +kernel⟩

end AlgaeBp.Evb2
