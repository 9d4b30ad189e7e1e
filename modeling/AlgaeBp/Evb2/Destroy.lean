import AlgaeBp.Evb2.CancelFd
/-!
# CANCELLED callbacks and destruction

Handles that leave the context without being dispatched are notified and
freed. User code runs in between, with the handle on no list.
-/
open Reentrant

namespace AlgaeBp.Evb2

/-- The state between two operations of a call in progress. -/
structure Stable (m : Mode) (k : Sync) (s : St) : Prop extends Core m s where
  alive : s.alive = true
  loop : s.asyncLock = some .loop ↔ k = .held
  woken : s.finalized = false → s.notifying ≠ some wake → Wake s
  mirror : m.ctl = false → s.finalized = false → Mirror s

section Stable
variable {m : Mode} {b : Call} {x : Ptr} {s s₀ s' : St} {k k₀ : Sync} {v : View} {hd : Handle}

theorem Stable.atUser (h : Stable m k s) (hk : k ≠ .held) : AtUser m s :=
  ⟨h.toCore, fun hl => hk (h.loop.1 hl), h.woken, h.mirror⟩

theorem AtUser.stable (h : AtUser m s) (ha : s.alive = true) : Stable m .free s :=
  ⟨h.toCore, ha, by simpa using h.unlocked, h.woken, h.mirror⟩

theorem Stable.at (h : Stable m k s) (x : Ptr) : At m x s k (s.view x) s := .start h.point h.alive h.loop

/-- Work on `x` inside a call. -/
theorem Moved.stable (h : Moved m x s₀ k v s) (hs : Stable m k₀ s₀) (hok : Ok m x v)
    (hw : x = wake → (∀ hd, v.hd = some hd → hd.fd = s₀.asyncPipe0) ∧ (s₀.stopping = false → v.hd.isSome = true) ∧
      ((s₀.view wake).noti → v.noti))
    (hcalm : s₀.inRun = false → v.Calm) (hmir : m.ctl = false → s₀.finalized = false → Mirror s) : Stable m k s where
  toCore := by
    refine hs.toCore.touch h.touch hs.alive (h.view ▸ hok) (fun hx => ?_) (fun hr => ?_)
    · obtain ⟨h1, h2, -⟩ := hw hx
      rw [← h.heap, hx] at h1 h2
      exact ⟨h1, h2⟩
    · rw [h.view]; exact hcalm hr
  alive := h.alive
  loop := h.loop
  woken hf hn := by
    refine h.woken (h.touch.finalized ▸ hf) (hs.woken (h.touch.finalized ▸ hf) fun hn₀ => hn ?_)
    by_cases hx : x = wake
    · have hv := (hw hx).2.2 hn₀
      rw [← h.view, hx] at hv
      exact hv
    · exact (congrArg View.noti (hs.toCore.wake_view h.touch hx)).mpr hn₀
  mirror hc hf := hmir hc (h.touch.finalized ▸ hf)

theorem Stable.interf (h : Stable m k s) (hi : Interf m s s') : Stable m k s' ∧ Keeps none s s' := by
  obtain ⟨hc, hk⟩ := hi.core h.toCore
  refine ⟨⟨hc, hi.alive.trans h.alive, hi.loop.trans h.loop, ?_, ?_⟩, hk⟩
  · rw [hi.finalized, hi.notifying]
    exact fun hf hn => hi.woken hf (h.woken hf hn)
  · rw [hi.finalized]
    exact fun hm hf => hi.mirror h.point (h.mirror hm hf)

/-- The mutex and the pipe are nothing to the handles. -/
theorem Core.sync {lock : Option Who} {n : Nat} (h : Core m s) (hp : Point m { s with asyncLock := lock, pipe := n }) :
    Core m { s with asyncLock := lock, pipe := n } :=
  ⟨hp, h.ok, h.fin, h.wakeFd, h.wakeLive, h.idle, h.dead⟩

theorem Keeps.sync (y : Option Ptr) {lock : Option Who} {n : Nat} (s : St) :
    Keeps y s { s with asyncLock := lock, pipe := n } :=
  ⟨fun _ => ⟨rfl, rfl⟩, fun h _ => h, id, fun _ _ => rfl, fun _ _ hd _ h => ⟨hd, h, rfl, rfl, rfl, rfl, rfl⟩,
    fun _ _ _ => rfl, fun _ _ => id, fun _ _ _ _ => id⟩

theorem wp_lockStable {Q : Unit → St → Prop} (hs : Stable m k s) (hk : k ≠ .held)
    (hq : ∀ s', Stable m .held s' → Keeps none s s' → (∀ l, l ≠ .async → s'.lists l = s.lists l) → Q () s') :
    Wp m b lock Q s := by
  refine wp_act_yield rfl fun s₁ hi => ⟨trivial, fun e _ => ?_⟩
  obtain ⟨hs₁, hk₁⟩ := hs.interf hi
  cases hl : s₁.asyncLock with
  | some w =>
    cases w with
    | loop => exact absurd (hs₁.loop.1 hl) hk
    | producer i => exact .inl (by simp only [sys, Op.exec, hs₁.alive, hl])
  | none =>
    have hp : Point m { s₁ with asyncLock := some .loop } := by
      refine hs₁.point.sync (k := some .loop) (p := s₁.producers) (n := s₁.pipe) (fun i => ?_) hs₁.point.proper
      rw [← hs₁.point.lock i, hl]
      simp
    refine .inr ⟨(), { s₁ with asyncLock := some .loop }, ?_, hp, hq _ ?_ (hk₁.trans (.sync none s₁)) hi.lists⟩
    · simp only [sys, Op.exec, hs₁.alive, hl]
    · exact ⟨hs₁.toCore.sync (n := s₁.pipe) hp, hs₁.alive, by simp, hs₁.woken, hs₁.mirror⟩

theorem wp_unlockStable {Q : Unit → St → Prop} (hs : Stable m .held s)
    (hq : ∀ s', Stable m .free s' → Keeps none s s' → s'.lists = s.lists →
      (s.finalized = false → Wake s → Wake s') → Q () s') :
    Wp m b unlock Q s := by
  refine wp_act_yield rfl fun s₁ hi => ⟨trivial, fun e _ => ?_⟩
  obtain ⟨hs₁, hk₁⟩ := hs.interf hi
  have hl := hs₁.loop.2 rfl
  have hp : Point m { s₁ with asyncLock := none } := by
    refine hs₁.point.sync (k := none) (p := s₁.producers) (n := s₁.pipe) (fun i => ?_) hs₁.point.proper
    rw [← hs₁.point.lock i, hl]
    simp
  refine .inr ⟨(), { s₁ with asyncLock := none }, need_ok ⟨hs₁.alive, hl⟩, hp, hq _ ?_ (hk₁.trans (.sync none s₁)) ?_ ?_⟩
  · exact ⟨hs₁.toCore.sync (n := s₁.pipe) hp, hs₁.alive, by simp, hs₁.woken, hs₁.mirror⟩
  · show s₁.lists = s.lists
    rw [hi.held (hs.loop.2 rfl)]
  · exact hi.woken

/-! ## Notifying -/

/-- A user's handle that has been taken off its lists to be notified. -/
structure Doomed (m : Mode) (x : Ptr) (hd : Handle) (v : View) : Prop where
  heap : v.hd = some hd
  name : x ≠ wake
  added : v.hist.any Event.isAdded = true
  cb : ∃ f, hd.cb = some (.user f)
  fd : fdTimer ≤ hd.fd
  internal : hd.flag2.internal = false
  dead : hd.flag2.dead = false
  off : ∀ l, ¬ v.on l
  noti : ¬ v.noti
  released : v.hist.any Event.releases = false
  cancelled : v.hist.any Event.isCancelled = false
  dropped : v.hist.any Event.drops = false

theorem UserOk.doomed {v' : View} (h : UserOk m x hd v) (hv : v.hd = some hd) (hn : ¬ v.noti)
    (hc : v.hist.any Event.isCancelled = false) (hd' : v'.hd = v.hd) (ho : ∀ l, ¬ v'.on l) (hn' : v'.noti = v.noti)
    (hh : v'.hist = v.hist ∨ ∃ t, v'.hist = .popped x t :: v.hist) : Doomed m x hd v' := by
  have hany : ∀ p : Event → Bool, (∀ t, p (.popped x t) = false) → v'.hist.any p = v.hist.any p := by
    intro p hp
    rcases hh with hh | ⟨t, hh⟩ <;> simp [hh, hp]
  refine ⟨hd'.trans hv, h.name, ?_, h.cb, h.fd, h.internal, ?_, ho, by rw [hn']; exact hn, ?_, ?_, ?_⟩
  · rw [hany _ fun _ => rfl]; exact h.added
  · exact h.not_dead hn
  · rw [hany _ fun _ => rfl]; exact h.not_released hn hc
  · rw [hany _ fun _ => rfl]; exact hc
  · rw [hany _ fun _ => rfl]; exact h.dropped

/-- A handle during its CANCELLED callback. -/
theorem Doomed.ok (h : Doomed m x hd v) (fd : Int) (ud : Nat) : Ok m x (v.record (.cancelled x fd ud)) := by
  have hb : (v.record (.cancelled x fd ud)).Busy := .inr (.inr (.inr (by simp [Event.isCancelled])))
  refine ⟨rfl, ?_⟩
  simp only [View.record_hd, h.heap]
  refine .inr ⟨h.name, ?_, h.cb, h.fd, h.internal, ?_, ?_, ?_, ?_, ?_, ?_, ?_, ?_⟩
  · simp [h.added]
  · exact iff_of_false (h.off _) (fun h => h.2 hb)
  · exact iff_of_false (h.off _) (fun h => h.2 hb)
  · exact fun _ => ⟨h.noti, h.off⟩
  · exact fun ho => absurd ho (h.off _)
  · simp [h.dead]
  · simp [Event.releases, Event.isCancelled]
  · exact fun _ h => absurd hb h
  · simp [h.dropped, Event.drops]

/-- Notify a user's handle and free it. -/
theorem wp_notifyUser {Q : Unit → St → Prop} (hs : Stable m k₀ s₀) (hrun : s₀.inRun = true)
    (h : Moved m x s₀ .free v s) (hn₀ : ¬ (s₀.view x).noti) (hdm : Doomed m x hd v)
    (hmir : m.ctl = false → s₀.finalized = false → Mirror s)
    (hq : ∀ v' s', Stable m .free s' → Keeps (some x) s₀ s' → s'.view x = v' → v'.hd = none → (∀ l, ¬ v'.on l) →
      Q () s') : Wp m b (evb2NotifyCancel x) Q s := by
  obtain ⟨f, hcb⟩ := hdm.cb
  have hfreed : v.hist.any Event.isFreed = false := by
    by_contra hf
    have := h.sane.freed (by simpa using hf)
    rw [hdm.heap] at this
    cases this
  have halive : Event.ctxFreed ∉ s.log := h.point.ctx.1 h.alive
  refine wp.seq (wp_load h.point (h.heap.trans hdm.heap) (wp.seq ?_))
  simp only [invokeCancelled, hcb]
  refine wp.seq (wp_emit h.start (.inl (by simp [hdm.heap])) rfl (fun t _ => .inr ⟨_, _, _, rfl⟩)
    (fun _ _ => ⟨hdm.released, hfreed, halive⟩) rfl rfl rfl fun s₁ h₁' => ?_)
  set v₁ := v.record (.cancelled x hd.fd hd.userData) with hv₁
  have h₁ : Moved m x s₀ .free v₁ s₁ := h.trans h₁'.toMoved id
  have hmir₁ : m.ctl = false → s₀.finalized = false → Mirror s₁ := fun hc hf =>
    h₁'.mirror h.point (fun fd f => by rw [h.view]; rfl) (hmir hc hf)
  have hs₁ : Stable m .free s₁ := h₁.stable hs (hdm.ok _ _) (fun hx => absurd hx hdm.name)
    (fun hr => by rw [hrun] at hr; cases hr) hmir₁
  have hk₁ : Keeps (some x) s₀ s₁ := by
    exact Keeps.of_touch hs.toCore h₁.touch (h₁.notifying hs.point (iff_of_false hdm.noti hn₀)) fun hn => absurd hn hn₀
  have hnot₁ : (s₁.view x).Notified := by
    rw [h₁.view]
    exact ⟨by simp [hv₁, hdm.heap], by simp [hv₁, Event.isCancelled]⟩
  refine wp_callback (hs₁.atUser (by simp)) fun s₂ hk₂ hu₂ _ => ?_
  have hrun₁ : s₁.inRun = true := h₁.touch.inRun.trans hrun
  have halive₂ : s₂.alive = true := (hk₂.alive hrun₁).trans h₁.alive
  have hv₂ : s₂.view x = v₁ := (hk₂.held x (by simp) hnot₁).trans h₁.view
  have hs₂ := hu₂.stable halive₂
  have h₂ : At m x s₂ .free v₁ s₂ := hv₂ ▸ hs₂.at x
  refine wp_free h₂ (by simp [hv₁, hdm.heap]) hdm.noti hdm.off rfl fun s₃ h₃ => ?_
  have hs₃ : Stable m .free s₃ := by
    refine h₃.toMoved.stable hs₂ ⟨rfl, ?_⟩ (fun hx => absurd hx hdm.name) (fun hr => ?_) fun hc hf => ?_
    · simp [hv₁, Event.releases]
    · rw [hk₂.inRun hrun₁] at hr; cases hr
    · refine h₃.mirror hs₂.point (fun fd f => ?_) (hs₂.mirror hc hf)
      rw [hv₂]
      exact iff_of_false (fun ha => hdm.off _ ha.1) (fun ha => hdm.off _ ha.1)
  refine hq _ s₃ hs₃ ?_ h₃.view rfl hdm.off
  have hn₂ : ¬ (s₂.view x).noti := by rw [hv₂]; exact hdm.noti
  refine (hk₁.trans (hk₂.but x)).trans (Keeps.of_touch hs₂.toCore h₃.touch ?_ fun hn => absurd hn hn₂)
  exact h₃.notifying hs₂.point (iff_of_false hdm.noti hn₂)

/-- The wake handle is freed without a callback into user code. -/
theorem wp_notifyWake {Q : Unit → St → Prop} (hs : Stable m k₀ s₀) (hstop : s₀.stopping = true)
    (hrun : s₀.inRun = true) (h : Moved m wake s₀ .free v s) (hn₀ : ¬ (s₀.view wake).noti)
    (hv : v.hd = some hd) (hcb : hd.cb = some .asyncHandler)
    (ho : ∀ l, ¬ v.on l) (hn : ¬ v.noti) (hh : v.hist = [])
    (hmir : m.ctl = false → s₀.finalized = false → Mirror s)
    (hq : ∀ v' s', Stable m .free s' → Keeps (some wake) s₀ s' → s'.view wake = v' → v'.hd = none →
      (∀ l, ¬ v'.on l) → Q () s') : Wp m b (evb2NotifyCancel wake) Q s := by
  refine wp.seq (wp_load h.point (h.heap.trans hv) (wp.seq ?_))
  simp only [invokeCancelled, hcb]
  refine wp_pure (wp_free h.start (by simp [hv]) hn ho (by simp [hh, moving]) fun s₁ h₁' => ?_)
  have h₁ := h.trans h₁'.toMoved id
  refine hq _ s₁ (h₁.stable hs ⟨rfl, ?_⟩ (fun _ => ⟨?_, ?_, fun h => absurd h hn₀⟩) (fun hr => ?_)
    fun hc hf => ?_) ?_ h₁.view rfl ho
  · simp [hh, Event.isAdded]
  · intro hd' hhd'; cases hhd'
  · intro hst; rw [hstop] at hst; cases hst
  · rw [hrun] at hr; cases hr
  · refine h₁'.mirror h.point (fun fd f => ?_) (hmir hc hf)
    rw [h.view]
    exact iff_of_false (fun ha => ho _ ha.1) (fun ha => ho _ ha.1)
  · exact Keeps.of_touch hs.toCore h₁.touch (h₁.notifying hs.point (iff_of_false hn hn₀)) fun h => absurd h hn₀

/-! ## Installing queued timers -/

theorem Core.async_user (hc : Core m s) (hx : x ∈ s.lists .async) : ∃ hd, s.heap x = some hd ∧
    UserOk m x hd (s.view x) ∧ ¬ (s.view x).noti ∧ (s.view x).hist.any Event.isCancelled = false ∧
    (∀ l, (s.view x).on l → l = .async) := by
  have hsane := hc.point.sane x
  have hon : (s.view x).on .async := hx
  obtain ⟨hd, hh⟩ := Option.isSome_iff_exists.1 (hsane.live _ hon)
  obtain ⟨-, hok⟩ := hc.ok x
  rw [hh] at hok
  rcases hok with h | h
  · have := (hsane.async.1 hon).1
    rw [h.hist] at this
    cases this
  refine ⟨hd, hh, h, fun hn => hsane.noti hn _ hon, h.linked hon, fun l hl => ?_⟩
  by_cases hlt : l = .timer
  · subst hlt; exact absurd hon (hsane.timer hl).2
  · exact hsane.link l .async hlt (by simp) hl hon

theorem wp_popAsync {Q : Option Ptr → St → Prop} (hs : Stable m .held s) (h0 : s.lists .async = [] → Q none s)
    (h1 : ∀ x hd s', s.heap x = some hd → x ∈ s.lists .async →
      At m x s .held (((s.view x).off .async).record (.popped x hd.timeoutAt)) s' → Q (some x) s') :
    Wp m b (qentPop .async) Q s := by
  have hw := hs.point.walkable hs.alive .async
  refine wp_act rfl trivial fun e _ => ?_
  cases hl : s.lists .async with
  | nil => exact ⟨none, s, by simp only [sys, Op.exec, need_ok hw, hl], hs.point, h0 hl⟩
  | cons x xs =>
    have hx : x ∈ s.lists .async := by simp [hl]
    obtain ⟨hd, hh, hok, -⟩ := hs.toCore.async_user hx
    have hdl : s.deadline x = hd.timeoutAt := by simp [St.deadline, hh]
    have hmov := (hs.ok x).1
    obtain ⟨hqd, hlv⟩ := (hs.point.sane x).async.1 hx
    have ht : Touch m x s ((s.unlink .async x).emit (.popped x hd.timeoutAt)) := by
      refine touch_leave hx rfl ⟨fun t ht => ?_, hqd, hlv⟩ rfl rfl
      rw [show moving (hist s.log x) = none from hmov] at ht
      cases ht
    have hst : (s.setList .async xs).emit (.popped x (s.deadline x)) =
        (s.unlink .async x).emit (.popped x hd.timeoutAt) := by
      simp [St.unlink, hl, hdl]
    refine ⟨some x, (s.unlink .async x).emit (.popped x hd.timeoutAt), ?_, ht.point hs.point,
      h1 x hd _ hh (by simp [hl]) ?_⟩
    · simp only [sys, Op.exec, need_ok hw, hl, if_true, hst]
    · refine ⟨⟨ht.point hs.point, hs.alive, ht, ?_, hs.loop, fun hf hwk => ?_, by simp⟩, rfl⟩
      · rw [view_emit_self rfl, view_unlink_self (hs.point.nodup .async)]
      · rcases hwk with h1 | h1 | h1
        · rw [hl] at h1; cases h1
        · exact .inr (.inl h1)
        · exact .inr (.inr h1)

/-- A popped timer is notified while the mutex is free. -/
theorem wp_notifyUnlocked {Q : Unit → St → Prop} (hs : Stable m .held s₀) (hrun : s₀.inRun = true)
    (hh : s₀.heap x = some hd) (hx : x ∈ s₀.lists .async)
    (h : At m x s₀ .held (((s₀.view x).off .async).record (.popped x hd.timeoutAt)) s)
    (hq : ∀ s', Stable m .held s' → Keeps none s₀ s' → Q () s') : Wp m b (notifyUnlocked x) Q s := by
  obtain ⟨hd', hh', hok, hn, hc, hon⟩ := hs.toCore.async_user hx
  obtain rfl := Option.some.inj (hh.symm.trans hh')
  have hsome : (s₀.view x).hd.isSome = true := by simp [St.view, hh]
  have hdm : Doomed m x hd (((s₀.view x).off .async).record (.popped x hd.timeoutAt)) :=
    hok.doomed hh hn hc rfl (fun l hl => ((View.off_on _ _ _).1 hl).1 (hon l ((View.off_on _ _ _).1 hl).2)) rfl
      (.inr ⟨_, rfl⟩)
  refine wp.seq (wp_unlock h (h.lt_next hsome) fun s₁ h₁ => ?_)
  refine wp.seq (wp_notifyUser hs hrun h₁.toMoved hn hdm (fun hcl hf => ?_) fun v' s₂ hs₂ hk₂ hv₂ hnone hoff => ?_)
  · refine h₁.mirror hs.point (fun fd f => ?_) (hs.mirror hcl hf)
    refine iff_of_false (fun ha => hdm.off _ ha.1) (fun ha => ?_)
    cases hon _ ha.1
  · have hkn : Keeps none s₀ s₂ := by
      refine hk₂.close hok.name (fun h => by simp [h.2] at hc) (fun h => ?_) (fun l _ hl => ?_)
      · rw [hv₂] at h
        have := h.1
        simp [hnone] at this
      · rw [hv₂] at hl
        exact absurd hl (hoff l)
    exact wp_lockStable hs₂ (by simp) fun s₃ hs₃ hk₃ _ => hq s₃ hs₃ (hkn.trans hk₃)

/-- A timer in its place on `timer_list`. -/
theorem UserOk.installed (h : UserOk m x hd v) (hx : v.on .async) (hn : ¬ v.noti)
    (hc : v.hist.any Event.isCancelled = false) (hon : ∀ l, v.on l → l = .async) (ht : hd.timeoutAt ≠ uint64Max)
    (t : UInt64) : UserOk m x hd ((((v.off .async).record (.popped x t)).join .timer).record (.armed x hd.timeoutAt)) := by
  set v' := (((v.off .async).record (.popped x t)).join .timer).record (.armed x hd.timeoutAt) with hv'
  have hon' : ∀ l, v'.on l ↔ l = .timer := by
    intro l
    simp only [hv', View.record_on, View.join_on, View.off_on]
    exact ⟨fun h => h.elim id fun h => absurd (hon l h.2) h.1, .inl⟩
  have hr : ¬ v.on .ready := fun hr => by cases hon _ hr
  have hb : ¬ v'.Busy := by
    simp [View.Busy, hv', hn, hc, hr, Event.isCancelled]
  obtain ⟨hfd, -⟩ := h.async hx
  have hrel := h.not_released hn hc
  refine ⟨h.name, ?_, h.cb, h.fd, h.internal, ?_, ?_, ?_, ?_, ?_, ?_, fun _ _ _ => ht, ?_⟩
  · simp [hv', h.added]
  · rw [hon', hfd]; simp [fdTimer]
  · rw [hon']; simp [ht, hb]
  · simp [hv', hc, Event.isCancelled]
  · rw [hon']; intro h; cases h
  · exact fun hdead => absurd (h.dead hdead) hn
  · simp [hv', hrel, hc, hn, Event.releases, Event.isCancelled]
  · simp [hv', h.dropped, Event.drops]

theorem wp_evb2InstallAsync {Q : Unit → St → Prop} (hs : Stable m .free s) (hrun : s.inRun = true)
    (hq : ∀ s', Stable m .free s' → Keeps none s s' → (s.finalized = false → Wake s') → Q () s') :
    Wp m b evb2InstallAsync Q s := by
  refine wp.seq (wp_lockStable hs (by simp) fun s₁ hs₁ hk₁ _ => wp.seq ?_)
  refine wp_iterate (fun _ s₂ => Stable m .held s₂ ∧ Keeps none s s₂) ⟨hs₁, hk₁⟩ ?_
  rintro _ s₂ ⟨hs₂, hk₂⟩
  have hrun₂ : s₂.inRun = true := hk₂.inRun hrun
  refine wp.seq (wp_popAsync hs₂ (fun hnil => ?_) fun x hd s₃ hh hx h₃ => ?_)
  · refine wp_pure (wp_unlockStable hs₂ fun s₃ hs₃ hk₃ _ hw => hq s₃ hs₃ (hk₂.trans hk₃) fun hf => ?_)
    exact hw ((hk₂.finalized hrun).trans hf) (.inl hnil)
  obtain ⟨hd', hh', hok, hn, hc, hon⟩ := hs₂.toCore.async_user hx
  obtain rfl := Option.some.inj (hh.symm.trans hh')
  refine wp.seq (wp_ctx h₃.point h₃.alive ?_)
  have hnotify : Wp m b (notifyUnlocked x) (fun _ s' => Stable m .held s' ∧ Keeps none s s') s₃ :=
    wp_notifyUnlocked hs₂ hrun₂ hh hx h₃ fun s₄ hs₄ hk₄ => ⟨hs₄, hk₂.trans hk₄⟩
  split
  · exact wp.seq (wp_mono hnotify fun _ s₄ h₄ => wp_pure h₄)
  rename_i hstop
  refine wp.seq (wp_load h₃.point (h₃.heap.trans hh) ?_)
  split
  · rename_i ht
    have hno : ∀ l, l ≠ .async → ¬ (s₂.view x).on l := fun l hl ho => hl (hon l ho)
    refine wp.seq (wp_timerInsert h₃ hh hn (by simp [hno]) (by simp [hno]) (by simp) (fun t h => ?_) fun s₄ h₄ => ?_)
    · simpa [moving] using h.symm
    have hok' := hok.installed hx hn hc hon ht hd.timeoutAt
    have hask : ∀ fd f, ¬ (s₂.view x).Asks fd f := fun fd f ha => by cases hon _ ha.1
    refine wp_pure ⟨h₄.stable hs₂ ⟨rfl, ?_⟩ (fun hw => absurd hw hok.name) (fun hr => ?_) fun hcl hf => ?_,
      hk₂.trans (h₄.keeps hs₂.toCore hok.name (fun hnx => absurd hnx hn) Iff.rfl (fun h => ?_) (fun h => ?_)
        fun l hst hl => ?_)⟩
    · simp only [View.record_hd, View.join_hd, View.off_hd, show (s₂.view x).hd = some hd from hh]
      exact .inr hok'
    · rw [hrun₂] at hr; cases hr
    · refine h₄.mirror hs₂.point (fun fd f => iff_of_false (fun ha => ?_) (hask fd f)) (hs₂.mirror hcl hf)
      have := ha.1
      simp [hno] at this
    · simp [h.2] at hc
    · have := h.2
      simp [hc, Event.isCancelled] at this
    · rcases hst with hst | ⟨-, rfl⟩
      · rw [h₃.touch.stopping] at hstop
        exact absurd hst hstop
      · simp [hno] at hl
  · exact wp.seq (wp_mono hnotify fun _ s₄ h₄ => wp_pure h₄)

/-! ## Finalizing -/

/-- The context is going away: no callback but a CANCELLED one runs any more. -/
structure Leaving (m : Mode) (k : Sync) (s : St) : Prop extends Stable m k s where
  run : s.inRun = true
  stop : s.stopping = true
  quiet : s.notifying = none
  settled : ∀ h, ¬ (s.view h).Notified

/-- Leaving goes on after user code has run, and a handle may have been freed. -/
theorem Leaving.after {y : Option Ptr} (h : Leaving m k₀ s) (hs : Stable m k s') (hk : Keeps y s s')
    (hy : ∀ x, y = some x → (s'.view x).hd = none ∧ ∀ l, ¬ (s'.view x).on l) :
    Leaving m k s' ∧ s'.finalized = s.finalized ∧ ∀ l, s.lists l = [] → s'.lists l = [] := by
  refine ⟨⟨hs, hk.inRun h.run, hk.stop h.stop, (hk.run h.run).2.trans h.quiet, fun j hj => ?_⟩,
    hk.finalized h.run, fun l hl => ?_⟩
  · by_cases hjx : y = some j
    · have := hj.1
      simp [(hy j hjx).1] at this
    · exact h.settled j (hk.settled j hjx hj)
  · refine List.eq_nil_iff_forall_not_mem.2 fun j hj => ?_
    by_cases hjx : y = some j
    · exact (hy j hjx).2 l hj
    · have : j ∈ s.lists l := hk.shrink l (.inl h.stop) j hjx hj
      rw [hl] at this
      cases this

/-- A handle at the head of a list is detached, notified and freed. -/
theorem wp_finalizeOne {l : ListId} {Q : Unit → St → Prop} (h : Leaving m .free s) (hf : s.finalized = true)
    (hl : l ≠ .async) (hx : x ∈ s.lists l)
    (hq : ∀ s', Leaving m .free s' → s'.finalized = true → (∀ l', s.lists l' = [] → s'.lists l' = []) → Q () s') :
    Wp m b (do handleDetach x; evb2NotifyCancel x) Q s := by
  have hsane := h.point.sane x
  have hon : (s.view x).on l := hx
  have hn : ¬ (s.view x).noti := fun hn => hsane.noti hn _ hon
  obtain ⟨hd, hh⟩ := Option.isSome_iff_exists.1 (hsane.live _ hon)
  have hmir : ∀ {s' : St}, m.ctl = false → s.finalized = false → Mirror s' := fun _ hf' => by
    rw [hf] at hf'; cases hf'
  have hdone : ∀ v' s', Stable m .free s' → Keeps (some x) s s' → s'.view x = v' → v'.hd = none →
      (∀ l, ¬ v'.on l) → Q () s' := by
    intro v' s' hs' hk' hv' hnone hoff
    obtain ⟨h1, h2, h3⟩ := h.after hs' hk' fun y hy => by
      obtain rfl := Option.some.inj hy
      rw [hv']
      exact ⟨hnone, hoff⟩
    exact hq s' h1 (h2.trans hf) h3
  refine wp.seq (wp_handleDetach (h.toStable.at x) (by simp [hh]) fun s₁ h₁ => ?_)
  obtain ⟨-, hok⟩ := h.ok x
  rw [hh] at hok
  rcases hok with hok | hok
  · have hna : ¬ (s.view x).on .async := fun ha => by
      have := (hsane.async.1 ha).1
      simp [hok.hist] at this
    obtain rfl := hok.name
    refine wp_notifyWake h.toStable h.stop h.run h₁.toMoved hn hh hok.cb (fun a => ?_) hn hok.hist hmir hdone
    cases a <;> simp [hna]
  · have hna : ¬ (s.view x).on .async := fun ha => by
      by_cases hlt : l = .timer
      · subst hlt; exact (hsane.timer hon).2 ha
      · exact hl (hsane.link l .async hlt (by simp) hon ha)
    have hc : (s.view x).hist.any Event.isCancelled = false := by
      by_contra hc
      exact h.settled x ⟨by simp [hh], by simpa using hc⟩
    have hdm : Doomed m x hd ((((s.view x).off .fdmon).off .timer).off .ready) := by
      refine hok.doomed hh hn hc rfl (fun a => ?_) rfl (.inl rfl)
      cases a <;> simp [hna]
    exact wp_notifyUser h.toStable h.run h₁.toMoved hn hdm hmir hdone

theorem wp_finalizeList {l : ListId} {Q : Unit → St → Prop} (h : Leaving m .free s) (hf : s.finalized = true)
    (hl : l ≠ .async)
    (hq : ∀ s', Leaving m .free s' → s'.finalized = true → s'.lists l = [] →
      (∀ l', s.lists l' = [] → s'.lists l' = []) → Q () s') : Wp m b (finalizeList l) Q s := by
  refine wp_iterate (fun _ s₁ => Leaving m .free s₁ ∧ s₁.finalized = true ∧ ∀ l', s.lists l' = [] → s₁.lists l' = [])
    ⟨h, hf, fun _ => id⟩ ?_
  rintro _ s₁ ⟨h₁, hf₁, hk₁⟩
  refine wp.seq (wp_ctx h₁.point h₁.alive ?_)
  cases hlist : s₁.lists l with
  | nil => exact wp_pure (hq s₁ h₁ hf₁ hlist hk₁)
  | cons x xs =>
    have hone : Wp m b (do handleDetach x; evb2NotifyCancel x)
        (fun _ s' => Leaving m .free s' ∧ s'.finalized = true ∧ ∀ l', s.lists l' = [] → s'.lists l' = []) s₁ :=
      wp_finalizeOne h₁ hf₁ hl (by simp [hlist]) fun s₂ h₂ hf₂ hk₂ => ⟨h₂, hf₂, fun l' hl' => hk₂ l' (hk₁ l' hl')⟩
    have := wp_bind.1 hone
    exact wp.seq (wp_mono this fun _ s₂ h₂ => wp.seq (wp_mono h₂ fun _ s₃ h₃ => wp_pure h₃))

theorem wp_finalizeAsync {Q : Unit → St → Prop} (h : Leaving m .free s) (hf : s.finalized = true)
    (hq : ∀ s', Leaving m .free s' → s'.finalized = true → s'.lists .async = [] →
      (∀ l', l' ≠ .async → s.lists l' = [] → s'.lists l' = []) → Q () s') : Wp m b finalizeAsync Q s := by
  refine wp.seq (wp_lockStable h.toStable (by simp) fun s₁ hs₁ hk₁ _ => wp.seq ?_)
  obtain ⟨h₁, hf₁, hl₁⟩ := h.after hs₁ hk₁ (by simp)
  refine wp_iterate (fun _ s₂ => Leaving m .held s₂ ∧ s₂.finalized = true ∧ ∀ l', s.lists l' = [] → s₂.lists l' = [])
    ⟨h₁, hf₁.trans hf, hl₁⟩ ?_
  rintro _ s₂ ⟨h₂, hf₂, hl₂⟩
  refine wp.seq (wp_popAsync h₂.toStable (fun hnil => ?_) fun x hd s₃ hh hx h₃ => ?_)
  · refine wp_pure (wp_unlockStable h₂.toStable fun s₃ hs₃ hk₃ hlists _ => ?_)
    obtain ⟨h₃, hf₃, -⟩ := h₂.after hs₃ hk₃ (by simp)
    refine hq s₃ h₃ (hf₃.trans hf₂) (by rw [hlists]; exact hnil) fun l' _ hl' => ?_
    rw [hlists]; exact hl₂ l' hl'
  · refine wp.seq (wp_notifyUnlocked h₂.toStable h₂.run hh hx h₃ fun s₄ hs₄ hk₄ => wp_pure ?_)
    obtain ⟨h₄, hf₄, hl₄⟩ := h₂.after hs₄ hk₄ (by simp)
    exact ⟨h₄, hf₄.trans hf₂, fun l' hl' => hl₄ l' (hl₂ l' hl')⟩

/-! ## Freeing the context -/

/-- Nothing is left on any list. -/
structure Empty (m : Mode) (s : St) : Prop extends Leaving m .free s where
  final : s.finalized = true
  lists : ∀ l, s.lists l = []

theorem Empty.off (h : Empty m s) (x : Ptr) (l : ListId) : ¬ (s.view x).on l := fun hx => by
  have hx' : x ∈ s.lists l := hx
  rw [h.lists l] at hx'
  cases hx'

theorem Empty.noti (h : Empty m s) (x : Ptr) : ¬ (s.view x).noti := fun hx => by
  have hx' : s.notifying = some x := hx
  rw [h.quiet] at hx'
  cases hx'

/-- Only handles lost to a saturated deadline are still allocated. -/
theorem Empty.cases (h : Empty m s) (hh : s.heap x = some hd) : UserOk m x hd (s.view x) ∧ hd.fd < 0 ∧
    hd.timeoutAt = uint64Max := by
  have hv : (s.view x).hd = some hd := hh
  obtain ⟨-, hok⟩ := h.ok x
  rw [hv] at hok
  rcases hok with hok | hok
  · exact absurd (hok.fdmon.2 ⟨h.off x _, h.noti x⟩) (h.off x _)
  have hb : ¬ (s.view x).Busy := by
    rintro (h1 | h1 | h1 | h1)
    · exact h.off x _ h1
    · exact h.off x _ h1
    · exact h.noti x h1
    · exact h.settled x ⟨by simp [hv], h1⟩
  refine ⟨hok, ?_, ?_⟩
  · by_contra hfd
    exact h.off x _ (hok.fdmon.2 ⟨not_lt.1 hfd, hb⟩)
  · by_contra ht
    exact h.off x _ (hok.timer.2 ⟨ht, hb⟩)

theorem Empty.wake_gone (h : Empty m s) : s.heap wake = none := by
  cases hh : s.heap wake with
  | none => rfl
  | some hd => exact absurd rfl (h.cases hh).1.name

theorem Empty.heap_none (h : Empty m s) (hm : m.sat ≠ .any) (x : Ptr) : s.heap x = none := by
  cases hh : s.heap x with
  | none => rfl
  | some hd =>
    obtain ⟨hok, hfd, ht⟩ := h.cases hh
    have hb : ¬ (s.view x).Busy := by
      rintro (h1 | h1 | h1 | h1)
      · exact h.off x _ h1
      · exact h.off x _ h1
      · exact h.noti x h1
      · exact h.settled x ⟨by simp [St.view, hh], h1⟩
    exact absurd ht (hok.armed hm hb hfd)

theorem wp_closeOpen {f : CtxFd} {Q : Unit → St → Prop} (h : Empty m s) (hq : ∀ s', Empty m s' → Q () s') :
    Wp m b (closeOpen f) Q s := by
  refine wp.seq (wp_ctx h.point h.alive ?_)
  split
  · have hp : Point m (s.closeFd f) := by
      cases f <;> exact
        ⟨h.point.nodup, h.point.sane, h.point.fresh, h.point.wake_lt, h.point.log, h.point.ctx, h.point.stop,
          h.point.lock, h.point.proper, fun hf => absurd (h.final.symm.trans hf) (by simp), h.point.cap⟩
    have hc : Core m (s.closeFd f) := by
      have hw : (s.closeFd f).heap wake = none := by cases f <;> exact h.wake_gone
      refine ⟨hp, ?_, ?_, ?_, ?_, ?_, ?_⟩
      · cases f <;> exact h.ok
      · cases f <;> exact h.fin
      · rw [hw]; intro hd hhd; cases hhd
      · cases f <;> exact fun hs => absurd (h.stop.symm.trans hs) (by simp)
      · cases f <;> exact fun _ hr => absurd (h.run.symm.trans hr) (by simp)
      · cases f <;> exact h.dead
    refine wp_act rfl trivial fun e _ => ⟨(), s.closeFd f, need_ok h.alive, hp, hq _ ?_⟩
    have hfin : (s.closeFd f).finalized ≠ false := by cases f <;> simp [St.closeFd, h.final]
    refine ⟨⟨⟨hc, ?_, ?_, fun hf => absurd hf hfin, fun _ hf => absurd hf hfin⟩, ?_, ?_, ?_, ?_⟩, ?_, ?_⟩
    · cases f <;> exact h.alive
    · cases f <;> exact h.loop
    · cases f <;> exact h.run
    · cases f <;> exact h.stop
    · cases f <;> exact h.quiet
    · cases f <;> exact h.settled
    · cases f <;> exact h.final
    · cases f <;> exact h.lists
  · exact wp_pure (hq s h)

theorem wp_evb2Finalize {Q : Unit → St → Prop} (h : Leaving m .free s) (hf : s.finalized = false)
    (hq : ∀ s', Empty m s' → Q () s') : Wp m b evb2Finalize Q s := by
  refine wp.seq (wp_ctx h.point h.alive ?_)
  rw [if_neg (by simp [hf])]
  have hp : Point m { s with finalized := true } :=
    ⟨h.point.nodup, h.point.sane, h.point.fresh, h.point.wake_lt, h.point.log, h.point.ctx, h.point.stop,
      h.point.lock, h.point.proper, by simp, h.point.cap⟩
  have h₁ : Leaving m .free { s with finalized := true } :=
    ⟨⟨⟨hp, h.ok, fun _ => h.stop, h.wakeFd, h.wakeLive, h.idle, h.dead⟩, h.alive, h.loop, by simp, by simp⟩,
      h.run, h.stop, h.quiet, h.settled⟩
  refine wp.seq (wp_act rfl trivial fun e _ => ⟨(), { s with finalized := true }, need_ok h.alive, hp, ?_⟩)
  refine wp.seq (wp_finalizeList h₁ rfl (by simp) fun s₂ h₂ hf₂ hl₂ _ => ?_)
  refine wp.seq (wp_finalizeList h₂ hf₂ (by simp) fun s₃ h₃ hf₃ hl₃ hk₃ => ?_)
  refine wp.seq (wp_finalizeList h₃ hf₃ (by simp) fun s₄ h₄ hf₄ hl₄ hk₄ => ?_)
  refine wp.seq (wp_finalizeAsync h₄ hf₄ fun s₅ h₅ hf₅ hl₅ hk₅ => ?_)
  have hempty : Empty m s₅ := by
    refine ⟨h₅, hf₅, fun l => ?_⟩
    cases l with
    | fdmon => exact hk₅ _ (by simp) (hk₄ _ (hk₃ _ hl₂))
    | timer => exact hk₅ _ (by simp) (hk₄ _ hl₃)
    | ready => exact hk₅ _ (by simp) hl₄
    | async => exact hl₅
  refine wp.seq (wp_closeOpen hempty fun s₆ h₆ => wp.seq (wp_closeOpen h₆ fun s₇ h₇ => ?_))
  exact wp_closeOpen h₇ hq

/-- The log before the context is freed: every handle has been taken back. -/
theorem Empty.legal (h : Empty m s) : Legal m s.log .ctxFreed := by
  refine ⟨h.point.ctx.1 h.alive, fun hm x hadd => ?_⟩
  have hok := (h.ok x).2
  rw [show (s.view x).hd = none from h.heap_none hm x] at hok
  exact hok hadd

theorem wp_freeCtx {Q : Unit → St → Prop} (h : Empty m s)
    (hq : ∀ s', AtUser m s' → s'.alive = false → s'.stopping = true → (∀ x, ¬ (s'.view x).Notified) → Q () s') :
    Wp m b freeCtx Q s := by
  refine wp_act rfl trivial fun e hm => ?_
  have hdone : ∀ p ∈ s.producers, ∃ r, p = .done r := by
    have hm' : s.producers.all _ = true := hm
    intro p hp
    have := List.all_eq_true.1 hm' p hp
    cases p <;> simp at this ⊢
  have hlock : s.asyncLock = none := by
    cases hl : s.asyncLock with
    | none => rfl
    | some w =>
      cases w with
      | loop => exact absurd (h.loop.1 hl) (by simp)
      | producer i =>
        obtain ⟨p, hp, hh⟩ := (h.point.lock i).1 hl
        obtain ⟨r, rfl⟩ := hdone p (List.mem_of_getElem? hp)
        cases hh
  set s' : St := { s.emit .ctxFreed with alive := false } with hs'
  have hview : ∀ x, s'.view x = s.view x := fun x =>
    view_emit_ne (s := s) (e := .ctxFreed) (by simp [Event.about])
  have hp : Point m s' := by
    refine ⟨h.point.nodup, fun x => hview x ▸ h.point.sane x, fun x hx => (hview x).trans (h.point.fresh x hx),
      h.point.wake_lt, ⟨h.legal, h.point.log⟩, ?_, ?_, h.point.lock, h.point.proper, h.point.opened, h.point.cap⟩
    · simp [hs', St.emit]
    · simpa [hs', St.emit] using h.point.stop
  refine ⟨(), s', need_ok ⟨h.alive, hlock⟩, hp, hq s' ?_ rfl h.stop fun x => ?_⟩
  · refine ⟨⟨hp, fun x => hview x ▸ h.ok x, h.fin, ?_, ?_, ?_, fun _ => ⟨h.stop, h.heap_none⟩⟩, ?_, ?_, ?_⟩
    · intro hd hhd
      have : s.heap wake = some hd := hhd
      rw [h.wake_gone] at this
      cases this
    · exact fun hs => absurd (h.stop.symm.trans hs) (by simp)
    · intro ha; cases ha
    · intro hl; rw [show s'.asyncLock = none from hlock] at hl; cases hl
    · exact fun hf => absurd (h.final.symm.trans hf) (by simp)
    · exact fun _ hf => absurd (h.final.symm.trans hf) (by simp)
  · rw [hview]; exact h.settled x

theorem wp_evb2Free {Q : Unit → St → Prop} (h : Leaving m .free s) (hf : s.finalized = false)
    (hq : ∀ s', AtUser m s' → s'.alive = false → s'.stopping = true → (∀ x, ¬ (s'.view x).Notified) → Q () s') :
    Wp m b evb2Free Q s :=
  wp.seq (wp_evb2Finalize h hf fun _ h' => wp_freeCtx h' hq)

/-! ## `aloe_evb2_destroy` -/

/-- `evb2_wake` outside the mutex. -/
theorem wp_evb2Wake {Q : Unit → St → Prop} (hs : Stable m .free s)
    (hq : ∀ s', Stable m .free s' → Keeps none s s' → Q () s') : Wp m b evb2Wake Q s := by
  refine wp.seq (wp_ctx hs.point hs.alive ?_)
  split
  · exact wp_pure (hq s hs (.refl none s))
  refine wp_act_yield rfl fun s₁ hi => ⟨trivial, fun e _ => .inr ⟨(), _, rfl, ?_⟩⟩
  obtain ⟨hs₁, hk₁⟩ := hs.interf hi
  set n := if s₁.pipe < s₁.pipeCap then s₁.pipe + 1 else s₁.pipe with hn
  have hp : Point m { s₁ with pipe := n } := hs₁.point.sync (k := s₁.asyncLock) hs₁.point.lock hs₁.point.proper
  refine ⟨hp, hq _ ⟨hs₁.toCore.sync hp, hs₁.alive, hs₁.loop, fun _ _ => .inr (.inl ?_), hs₁.mirror⟩
    (hk₁.trans (.sync none s₁))⟩
  have := hs₁.point.cap
  show 0 < n
  rw [hn]
  split <;> omega

/-- The state after `evb->stopping = 1`. -/
def St.stop (s : St) : St := { s.emit .stopping with stopping := true }

theorem St.view_stop (x : Ptr) : s.stop.view x = s.view x :=
  view_emit_ne (s := s) (e := .stopping) (by simp [Event.about])

theorem Point.stopped (h : Point m s) : Point m s.stop := by
  refine ⟨h.nodup, fun x => St.view_stop x ▸ h.sane x, fun x hx => (St.view_stop x).trans (h.fresh x hx), h.wake_lt,
    ⟨trivial, h.log⟩, ?_, ?_, h.lock, h.proper, h.opened, h.cap⟩
  · simpa [St.stop, St.emit] using h.ctx
  · simp [St.stop, St.emit]

/-- Marking the context while a run of the loop is in progress. -/
theorem Stable.stopped (h : Stable m k s) (hr : s.inRun = true) : Stable m k s.stop ∧ Keeps none s s.stop := by
  refine ⟨⟨⟨h.point.stopped, fun x => St.view_stop x ▸ h.ok x, fun _ => rfl, h.wakeFd,
    fun hs => absurd hs (by simp [St.stop]), fun _ hr' => absurd (hr.symm.trans hr') (by simp), ?_⟩, h.alive,
      h.loop, h.woken, h.mirror⟩, ?_⟩
  · exact fun ha => absurd (h.alive.symm.trans ha) (by simp)
  · exact ⟨fun _ => ⟨rfl, rfl⟩, fun h _ => h, fun _ => rfl, fun _ _ => St.view_stop wake,
      fun _ _ hd _ h => ⟨hd, h, rfl, rfl, rfl, rfl, rfl⟩, fun x _ _ => St.view_stop x,
      fun x _ hn => (St.view_stop x) ▸ hn, fun l _ x _ hl => (St.view_stop x) ▸ hl⟩

/-- Marking the context outside a run: the caller becomes the run that destroys it. -/
theorem Stable.claimed (h : Stable m k s) (hr : s.inRun = false) : Leaving m k { s.stop with inRun := true } := by
  obtain ⟨-, hcalm⟩ := h.idle h.alive hr
  have hp : Point m { s.stop with inRun := true } := by
    have hp' := h.point.stopped
    exact ⟨hp'.nodup, hp'.sane, hp'.fresh, hp'.wake_lt, hp'.log, hp'.ctx, hp'.stop, hp'.lock, hp'.proper, hp'.opened,
      hp'.cap⟩
  have hv : ∀ x, St.view { s.stop with inRun := true } x = s.view x := fun x => St.view_stop x
  refine ⟨⟨⟨hp, fun x => hv x ▸ h.ok x, fun _ => rfl, h.wakeFd,
    fun hs => absurd hs (by simp [St.stop]), fun _ hr' => absurd hr' (by simp), ?_⟩,
    h.alive, h.loop, h.woken, h.mirror⟩, rfl, rfl, ?_, fun x hx => ?_⟩
  · exact fun ha => absurd (h.alive.symm.trans ha) (by simp)
  · show s.notifying = none
    by_contra hn
    obtain ⟨x, hx⟩ := Option.ne_none_iff_exists'.1 hn
    exact (hcalm x).2.1 hx
  · rw [hv x] at hx
    have := (hcalm x).2.2 hx.1
    rw [hx.2] at this
    cases this

/-- What a call made outside the loop has to keep: nothing is left half done. -/
theorem Keeps.of_idle (hu : AtUser m s) (ha : s.alive = true) (hr : s.inRun = false)
    (hrun : s'.alive = true → s'.inRun = false) (hset : ∀ x, ¬ (s'.view x).Notified) : Keeps none s s' := by
  obtain ⟨hstop, hcalm⟩ := hu.idle ha hr
  have hrn : ∀ {p : Prop}, s.inRun = true → p := fun h => absurd (hr.symm.trans h) (by simp)
  have hsn : ∀ {p : Prop}, s.stopping = true → p := fun h => absurd (hstop.symm.trans h) (by simp)
  refine ⟨hrn, fun _ => hrun, hsn, hrn, hrn, fun x _ hx => ?_, fun x _ hx => absurd hx (hset x),
    fun _ h => h.elim hsn fun h => hrn h.1⟩
  have := (hcalm x).2.2 hx.1
  rw [hx.2] at this
  cases this

theorem wp_aloeEvb2Destroy {Q : Unit → St → Prop} (hu : AtUser m s) (ha : s.alive = true)
    (hq : ∀ s', AtUser m s' → Keeps none s s' → Q () s') : Wp m b aloeEvb2Destroy Q s := by
  have hs := hu.stable ha
  refine wp.seq (wp.seq (wp_lockStable hs (by simp) fun s₁ hs₁ hk₁ _ => ?_))
  have hp₁ : Point m s₁.stop := hs₁.point.stopped
  refine wp.seq (wp_act rfl trivial fun e _ => ⟨(), s₁.stop, need_ok hs₁.alive, hp₁, ?_⟩)
  refine wp.seq (wp_ctx hp₁ hs₁.alive ?_)
  by_cases hr : s₁.inRun = true
  · obtain ⟨hs₂, hk₂⟩ := hs₁.stopped hr
    rw [if_pos (show s₁.stop.inRun = true from hr)]
    refine wp.seq (wp_unlockStable hs₂ fun s₃ hs₃ hk₃ _ _ => wp_pure ?_)
    refine wp.seq (wp_evb2Wake hs₃ fun s₄ hs₄ hk₄ => wp_pure ?_)
    exact hq s₄ (hs₄.atUser (by simp)) (((hk₁.trans hk₂).trans hk₃).trans hk₄)
  · have hr' : s₁.inRun = false := by simpa using hr
    have hl₂ := hs₁.claimed hr'
    rw [if_neg (show ¬ s₁.stop.inRun = true from hr)]
    refine wp.seq (wp_act rfl trivial fun e _ => ⟨(), { s₁.stop with inRun := true }, need_ok hs₁.alive, hl₂.point, ?_⟩)
    refine wp.seq (wp_unlockStable hl₂.toStable fun s₃ hs₃ hk₃ _ _ => wp_pure ?_)
    obtain ⟨hl₃, hf₃, -⟩ := hl₂.after hs₃ hk₃ (by simp)
    refine wp.seq (wp_evb2Wake hs₃ fun s₄ hs₄ hk₄ => ?_)
    obtain ⟨hl₄, hf₄, -⟩ := hl₃.after hs₄ hk₄ (by simp)
    have hrun : s.inRun = false := by
      by_contra hrs
      exact hr (hk₁.inRun (by simpa using hrs))
    have hfin : s₄.finalized = false := by
      rw [hf₄, hf₃]
      show s₁.finalized = false
      by_contra hfin
      have := hs₁.fin (by simpa using hfin)
      rw [(hs₁.idle hs₁.alive hr').1] at this
      cases this
    rw [if_neg (by simp)]
    refine wp_evb2Free hl₄ hfin fun s₅ hu₅ ha₅ _ hset => hq s₅ hu₅ ?_
    exact .of_idle hu ha hrun (fun h => absurd (ha₅.symm.trans h) (by simp)) hset

end Stable

end AlgaeBp.Evb2
