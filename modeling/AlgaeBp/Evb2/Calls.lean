import AlgaeBp.Evb2.Rules
/-!
# Registering, cancelling and changing handles

The calls that work on one handle keep the invariant, whatever called them.
-/
open Reentrant

namespace AlgaeBp.Evb2

section Calls
variable {m : Mode} {b : Call} {x : Ptr} {s s' : St} {v : View}

/-! ## From one handle back to the context -/

/-- Work on `x` between two points at which user code runs. -/
theorem Moved.atUser {k : Sync} (h : Moved m x s k v s') (hk : k ≠ .held) (hu : AtUser m s) (hx : x ≠ wake) (hok : Ok m x v)
    (hcalm : s.inRun = false → v.Calm) (hmir : m.ctl = false → s.finalized = false → Mirror s') : AtUser m s' where
  toCore := by
    have ha : s.alive = true := h.touch.alive ▸ h.alive
    refine hu.toCore.touch h.touch ha (h.view ▸ hok) (fun hw => absurd hw hx) (fun hr => ?_)
    rw [h.view]; exact hcalm hr
  unlocked hl := hk (h.loop.1 hl)
  woken hf hn := by
    have hw := congrArg View.noti (hu.toCore.wake_view h.touch hx)
    refine h.woken (h.touch.finalized ▸ hf) (hu.woken (h.touch.finalized ▸ hf) fun hn' => hn ?_)
    exact hw.mpr hn'
  mirror hc hf := hmir hc (h.touch.finalized ▸ hf)

theorem Moved.keeps {k : Sync} (h : Moved m x s k v s') (hc : Core m s) (hx : x ≠ wake)
    (hk : s.notifying = some x → ∀ hd, s.heap x = some hd → ∃ hd', v.hd = some hd' ∧ hd.SameKind hd')
    (hnv : v.noti ↔ (s.view x).noti) (hn : ¬ (s.view x).Notified) (hn' : ¬ v.Notified)
    (hs : ∀ l, s.stopping = true ∨ s.inRun = true ∧ l = .ready → v.on l → (s.view x).on l) : Keeps none s s' := by
  refine (Keeps.of_touch hc h.touch (h.notifying hc.point hnv) fun hnx hd hhd => ?_).close hx hn ?_ ?_
  · rw [h.heap]; exact hk hnx hd hhd
  · rw [h.view]; exact hn'
  · rw [h.view]; exact hs

/-- A handle the user may pass. -/
theorem Core.registered (hc : Core m s) (hr : registered s.log x = true) :
    ∃ hd, s.heap x = some hd ∧ UserOk m x hd (s.view x) ∧ (s.view x).hist.any Event.releases = false ∧
      moving (s.view x).hist = none := by
  simp only [Evb2.registered, valid, Bool.and_eq_true, Bool.not_eq_true'] at hr
  obtain ⟨⟨hadd, hrel⟩, hdrop⟩ := hr
  obtain ⟨hmov, hok⟩ := hc.ok x
  cases hh : (s.view x).hd with
  | none =>
    rw [hh] at hok
    rcases hok hadd with h | ⟨-, h⟩
    · exact absurd (h.symm.trans hrel) (by simp)
    · exact absurd (h.symm.trans hdrop) (by simp)
  | some hd =>
    rw [hh] at hok
    rcases hok with h | h
    · have hadd' : (s.view x).hist.any Event.isAdded = true := hadd
      rw [h.hist] at hadd'
      cases hadd'
    · exact ⟨hd, hh, h, hrel, hmov⟩

theorem UserOk.not_notified {hd : Handle} (h : UserOk m x hd v) (hr : v.hist.any Event.releases = false) :
    v.hist.any Event.isCancelled = false := by
  by_contra hc
  rw [h.released.2 (.inl (by simpa using hc))] at hr
  cases hr

theorem UserOk.linked {hd : Handle} {l : ListId} (h : UserOk m x hd v) (hl : v.on l) :
    v.hist.any Event.isCancelled = false := by
  by_contra hc
  exact (h.notified (by simpa using hc)).2 l hl

/-- A handle no callback of which is running has not been taken back. -/
theorem UserOk.not_released {hd : Handle} (h : UserOk m x hd v) (hn : ¬ v.noti)
    (hc : v.hist.any Event.isCancelled = false) : v.hist.any Event.releases = false := by
  by_contra hr
  rcases h.released.1 (by simpa using hr) with h1 | h1
  · simp [hc] at h1
  · exact hn h1.1

theorem UserOk.not_dead {hd : Handle} (h : UserOk m x hd v) (hn : ¬ v.noti) : hd.flag2.dead = false := by
  by_contra hd
  exact hn (h.dead (by simpa using hd))

/-! ## `aloe_evb2_cancel` -/

/-- What cancelling leaves of a handle, by result. -/
inductive CancelView (x : Ptr) (v : View) : Int → View → Prop
  /-- From the handle's own callback: released when it returns. -/
  | deferred (hd : Handle) : v.noti → v.hd = some hd →
      CancelView x v 0 (v.put { hd with flag2 := { hd.flag2 with dead := true } })
  | freed (v' : View) : ¬ v.noti → (∃ l, v.on l) → v'.hd = none → (∀ l, ¬ v'.on l) → ¬ v'.noti →
      v'.hist = .freed x :: v.hist ∨ v'.hist = .freed x :: .dequeued x :: v.hist → CancelView x v 0 v'
  | missing : ¬ v.noti → (∀ l, ¬ v.on l) → CancelView x v (-1) v

theorem View.busy_record {e : Event} (he : e.isCancelled = false) : (v.record e).Busy ↔ v.Busy := by
  simp [View.Busy, he]

/-- Events that say nothing new about a handle's state. -/
theorem UserOk.record {hd : Handle} {e : Event} (h : UserOk m x hd v) (hc : e.isCancelled = false)
    (hr : e.releases = false) (hd' : e.drops = false) : UserOk m x hd (v.record e) := by
  have hb := View.busy_record (v := v) hc
  refine ⟨h.name, ?_, h.cb, h.fd, h.internal, ?_, ?_, ?_, h.async, h.dead, ?_, ?_, ?_⟩
  · simp [h.added]
  · rw [hb]; exact h.fdmon
  · rw [hb]; exact h.timer
  · simpa [hc] using h.notified
  · simpa [hc, hr] using h.released
  · rw [hb]; exact h.armed
  · simp [hd', h.dropped]

theorem CancelView.ok {hd : Handle} {r : Int} {v' : View} (h : CancelView x v r v') (hv : v.hd = some hd)
    (hok : UserOk m x hd v) (hrel : v.hist.any Event.releases = false) : Ok m x (v'.record (.cancel x r)) := by
  refine ⟨rfl, ?_⟩
  cases h with
  | deferred hd' hn hv' =>
    rw [hv] at hv'
    cases hv'
    have hb : ((v.put { hd with flag2 := { hd.flag2 with dead := true } }).record (.cancel x 0)).Busy :=
      .inr (.inr (.inl hn))
    have hb' : v.Busy := .inr (.inr (.inl hn))
    have hc := hok.not_notified hrel
    refine .inr ⟨hok.name, ?_, hok.cb, hok.fd, hok.internal, ?_, ?_, ?_, hok.async, ?_, ?_, ?_, ?_⟩
    · simp [hok.added]
    · simpa [hb, hb'] using hok.fdmon
    · simpa [hb, hb'] using hok.timer
    · simp [hc, Event.isCancelled]
    · exact fun _ => hn
    · simp [Event.releases, show (v.noti) from hn]
    · exact fun _ h => absurd hb h
    · simp [Event.drops, hok.dropped]
  | freed _ _ _ hnone =>
    simp only [View.record_hd, hnone]
    intro _
    simp [Event.releases]
  | missing =>
    simp only [View.record_hd, hv]
    exact .inr (hok.record rfl (by simp [Event.releases]) rfl)

theorem View.not_asks {hd : Handle} (hh : v.hd = some hd) {fd : Int} (hne : fd ≠ hd.fd) (f : UInt32) :
    ¬ v.Asks fd f := by
  rintro ⟨-, hd', hh', hfd', -⟩
  rw [hh] at hh'
  cases hh'
  exact hne hfd'.symm

theorem wp_cancelHandle {Q : Int → St → Prop} (hu : AtUser m s) (ha : s.alive = true)
    (hr : registered s.log x = true) (hb : b.adds = false)
    (hq : ∀ r v' s', CancelView x (s.view x) r v' → Moved m x s .free v' s' →
      (m.ctl = false → s.finalized = false → Mirror s') → Q r s') : Wp m b (cancelHandle x) Q s := by
  obtain ⟨hd, hh, hok, hrel, hmov⟩ := hu.registered hr
  have hv : (s.view x).hd = some hd := hh
  have hsane := hu.point.sane x
  have hsome : (s.view x).hd.isSome = true := by simp [hv]
  have h₀ : At m x s .free (s.view x) s := .start hu.point ha (by simpa using hu.unlocked)
  refine wp.seq (wp_load hu.point hh ?_)
  simp only [hok.internal, Bool.false_eq_true, if_false]
  refine wp.seq (wp_ctx hu.point ha ?_)
  by_cases hn : s.notifying = some x
  · rw [if_pos hn]
    refine wp.seq (wp_store h₀ hh fun s₁ h₁ => wp_pure (hq _ _ s₁ (.deferred hd hn hh) h₁.toMoved fun hc hf => ?_))
    exact h₁.mirror hu.point (by simp [View.Asks, hv]) (hu.mirror hc hf)
  rw [if_neg hn]
  have hn' : ¬ (s.view x).noti := hn
  refine wp.seq (wp_lock h₀ (by simp) (h₀.lt_next hsome) fun s₁ h₁ => ?_)
  refine wp.seq (wp_removeAsync h₁ hmov (fun s₂ ho h₂ => ?_) (fun ho => ?_))
  · rw [if_pos rfl]
    refine wp.seq (wp_unlock h₂ (h₂.lt_next hsome) fun s₃ h₃ => ?_)
    have hoff : ∀ l, ¬ ((s.view x).off .async).on l := by
      intro l hl
      obtain ⟨hne, h1⟩ := (View.off_on _ _ _).1 hl
      by_cases hlt : l = .timer
      · subst hlt; exact (hsane.timer h1).2 ho
      · exact hne (hsane.link l .async hlt (by simp) h1 ho)
    refine wp.seq (wp_free h₃ hsome hn' hoff rfl fun s₄ h₄ => wp_pure (hq _ _ s₄ ?_ h₄.toMoved fun hc hf => ?_))
    · exact .freed _ hn' ⟨_, ho⟩ rfl hoff hn' (.inr rfl)
    · refine h₄.mirror hu.point (fun fd f => iff_of_false (fun h => hoff .fdmon h.1) (fun h => ?_)) (hu.mirror hc hf)
      have := hsane.link .fdmon .async (by simp) (by simp) h.1 ho
      cases this
  rw [if_neg (by simp)]
  refine wp.seq (wp_unlock h₁ (h₁.lt_next hsome) fun s₂ h₂ => ?_)
  refine wp.seq (wp_load h₂.point (h₂.heap.trans hh) ?_)
  refine wp.seq (wp_remove h₂ (by simp) hsome fun r₁ s₃ hr₁ h₃ => ?_)
  refine wp.seq (wp_remove h₃ (by simp) hsome fun r₂ s₄ hr₂ h₄ => ?_)
  refine wp.seq (wp_remove h₄ (by simp) hsome fun r₃ s₅ hr₃ h₅ => ?_)
  have hoff : ∀ l, ¬ ((((s.view x).off .fdmon).off .ready).off .timer).on l := by
    intro l
    cases l <;> simp [ho]
  by_cases hres : (r₁ || r₂ || r₃) = false
  · rw [if_pos hres]
    simp only [Bool.or_eq_false_iff] at hres
    obtain ⟨⟨rfl, rfl⟩, rfl⟩ := hres
    have h1 : ¬ (s.view x).on .fdmon := by simpa using hr₁
    have h2 : ¬ (s.view x).on .ready := by simpa using hr₂
    have h3 : ¬ (s.view x).on .timer := by simpa using hr₃
    rw [View.off_eq _ _ h1, View.off_eq _ _ h2, View.off_eq _ _ h3] at h₅
    refine wp_pure (hq _ _ s₅ (.missing hn' fun l => ?_) h₅.toMoved fun hc hf => ?_)
    · cases l <;> assumption
    · exact h₅.mirror hu.point (fun _ _ => Iff.rfl) (hu.mirror hc hf)
  · rw [if_neg hres]
    refine wp.seq (wp_refreshFd h₅ hu.point (fun fd' hne f => ?_) fun s₆ h₆ _ hm₆ => ?_)
    · exact iff_of_false (fun h => hoff _ h.1) (View.not_asks hv hne f)
    refine wp.seq (wp_free h₆.start hsome hn' hoff hmov fun s₇ h₇ =>
      wp_pure (hq _ _ s₇ ?_ (h₆.trans h₇.toMoved id) fun hc hf => ?_))
    · refine .freed _ hn' ?_ rfl hoff hn' (.inl rfl)
      by_contra hne
      simp only [not_exists] at hne
      simp [hne] at hr₁ hr₂ hr₃
      simp [hr₁, hr₂, hr₃] at hres
    · refine h₇.mirror h₆.point (fun fd f => ?_) (hm₆ hc hb hf fun fd' h1 _ => hu.mirror hc hf fd' h1)
      rw [h₆.view]
      exact iff_of_false (fun h => hoff .fdmon h.1) (fun h => hoff .fdmon h.1)

/-- The states in which a handle is left by the user's calls. -/
theorem CancelView.cases_hd {r : Int} {v' : View} {hd : Handle} (h : CancelView x v r v') (hv : v.hd = some hd) :
    (v'.hd = none ∧ ¬ v.noti ∨ ∃ hd', v'.hd = some hd' ∧ hd.SameKind hd' ∧ v'.hist = v.hist) ∧
      (∀ l, v'.on l → v.on l) := by
  cases h with
  | deferred hd' _ hv' =>
    rw [hv] at hv'
    cases hv'
    exact ⟨.inr ⟨_, rfl, ⟨rfl, rfl, rfl, rfl, rfl⟩, rfl⟩, fun _ => id⟩
  | freed _ hn _ hnone hoff => exact ⟨.inl ⟨hnone, hn⟩, fun l hl => absurd hl (hoff l)⟩
  | missing hn => exact ⟨.inr ⟨hd, hv, ⟨rfl, rfl, rfl, rfl, rfl⟩, rfl⟩, fun _ => id⟩

theorem CancelView.noti {r : Int} {v' : View} (h : CancelView x v r v') : v'.noti ↔ v.noti := by
  cases h with
  | deferred => exact Iff.rfl
  | freed _ hn _ _ _ hn' => exact iff_of_false hn' hn
  | missing => exact Iff.rfl

theorem wp_aloeEvb2Cancel {Q : Int → St → Prop} (hu : AtUser m s) (ha : s.alive = true)
    (hr : registered s.log x = true) (hb : b.adds = false)
    (hq : ∀ r v' s', CancelView x (s.view x) r v' → Moved m x s .free (v'.record (.cancel x r)) s' →
      AtUser m s' → Keeps none s s' → Q r s') : Wp m b (aloeEvb2Cancel x) Q s := by
  obtain ⟨hd, hh, hok, hrel, hmov⟩ := hu.registered hr
  have hv : (s.view x).hd = some hd := hh
  have hcan := hok.not_notified hrel
  refine wp.seq (wp_cancelHandle hu ha hr hb fun r v' s₁ hc h₁ hm₁ => ?_)
  obtain ⟨hhd, hon⟩ := hc.cases_hd hv
  have hhist : v'.hist.any Event.releases = false ∧ v'.hist.any Event.isCancelled = false ∧
      moving v'.hist = none ∧ (v'.hd.isSome = true ∨ v'.hist ≠ []) := by
    cases hc with
    | deferred hd' hn hv' => exact ⟨hrel, hcan, hmov, .inl rfl⟩
    | freed _ hn _ _ _ _ hhist =>
      rcases hhist with hhist | hhist <;>
        simp [hhist, moving, hrel, hcan, Event.releases, Event.isCancelled]
    | missing => exact ⟨hrel, hcan, hmov, .inl (by simp [hv])⟩
  obtain ⟨hrel', hcan', hmov', hex⟩ := hhist
  refine wp.seq (wp_emit h₁.start hex rfl (fun t ht => by simp [hmov'] at ht) (fun _ _ _ => hrel') rfl rfl rfl
    fun s₂ h₂ => wp_pure ?_)
  have h₂' := h₁.trans h₂.toMoved id
  have hnot : ¬ (s.view x).Notified := fun h => by simp [h.2] at hcan
  have hnot' : ¬ (v'.record (.cancel x r)).Notified := fun h => by
    have := h.2
    simp [hcan', Event.isCancelled] at this
  refine hq r v' s₂ hc h₂' (h₂'.atUser (by simp) hu hok.name (hc.ok hv hok hrel) (fun hrun => ?_) fun hcl hf => ?_)
    (h₂'.keeps hu.toCore hok.name (fun hn hd' hhd' => ?_) hc.noti hnot hnot' fun l _ => hon l)
  · obtain ⟨h1, h2, h3⟩ := (hu.idle ha hrun).2 x
    refine ⟨fun h => h1 (hon _ h), fun h => h2 (hc.noti.1 h), fun _ => ?_⟩
    simp [hcan', Event.isCancelled]
  · refine h₂.mirror h₁.point (fun fd f => ?_) (hm₁ hcl hf)
    rw [h₁.view]; rfl
  · rw [hh] at hhd'
    cases hhd'
    rcases hhd with ⟨-, hnn⟩ | ⟨hd', h1, h2, -⟩
    · exact absurd hn hnn
    · exact ⟨hd', h1, h2⟩

/-! ## `aloe_evb2_set_timeout` -/

/-- The handle with a new timeout. -/
def Handle.withTimeout (hd : Handle) (ms t : UInt64) : Handle := { hd with timeoutMs := ms, timeoutAt := t }

/-- A busy handle keeps its place; the new deadline is for later. -/
theorem UserOk.withTimeout {hd : Handle} {ms t : UInt64} (h : UserOk m x hd v) (hb : v.Busy)
    (ht : (v.put { hd with timeoutMs := ms }).MayHave m t) :
    UserOk m x (hd.withTimeout ms t) (v.put (hd.withTimeout ms t)) := by
  have hb' : (v.put (hd.withTimeout ms t)).Busy := hb
  refine ⟨h.name, h.added, h.cb, h.fd, h.internal, ?_, ?_, h.notified, fun ho => ?_, h.dead, h.released, ?_, h.dropped⟩
  · simpa [hb, hb'] using h.fdmon
  · simpa [hb, hb'] using h.timer
  · obtain ⟨h1, h2, -⟩ := h.async ho
    refine ⟨h1, h2, fun hm => ?_⟩
    rcases ht with ht | ht | ⟨hd', hhd, ht⟩
    · exact ht
    · rw [hm] at ht; cases ht
    · cases hhd
      rcases ht with ht | ⟨ht, -⟩
      · have hfd : 0 ≤ hd.fd := ht
        rw [h1] at hfd
        exact absurd hfd (by decide)
      · rw [hm] at ht; cases ht
  · exact fun _ h => absurd hb' h

theorem View.arm_hd {hd : Handle} : (v.arm x hd).hd = v.hd := by unfold View.arm; split <;> rfl
theorem View.arm_noti {hd : Handle} : (v.arm x hd).noti = v.noti := by unfold View.arm; split <;> rfl

theorem View.arm_on {hd : Handle} (l : ListId) :
    (v.arm x hd).on l ↔ v.on l ∨ l = .timer ∧ hd.timeoutAt ≠ uint64Max := by
  unfold View.arm
  by_cases ht : hd.timeoutAt = uint64Max
  · simp [ht]
  · simp [ht, or_comm]

theorem View.arm_any {hd : Handle} {p : Event → Bool} (hp : p (.armed x hd.timeoutAt) = false) :
    (v.arm x hd).hist.any p = v.hist.any p := by
  unfold View.arm
  split <;> simp [hp]

theorem View.arm_moving {hd : Handle} (hm : moving v.hist = none) : moving (v.arm x hd).hist = none := by
  unfold View.arm
  split
  · exact hm
  · rfl

theorem View.arm_busy {hd : Handle} : (v.arm x hd).Busy ↔ v.Busy := by
  have hc : (v.arm x hd).hist.any Event.isCancelled = v.hist.any Event.isCancelled := View.arm_any rfl
  simp [View.Busy, View.arm_on, View.arm_noti, hc]

/-- An idle handle is put where its new deadline belongs. -/
theorem UserOk.rearmed {hd hd' : Handle} {v' : View} (h : UserOk m x hd v) (hb : ¬ v.Busy) (hk : hd.SameKind hd')
    (hdead : hd'.flag2.dead = hd.flag2.dead) (hv' : ∀ l, v'.on l ↔ v.on l ∧ l ≠ .timer) (hn' : v'.noti = v.noti)
    (hh : v'.hist = v.hist) (ht : m.sat ≠ .any → hd.fd < 0 → hd'.timeoutAt ≠ uint64Max) :
    UserOk m x hd' (v'.arm x hd') := by
  obtain ⟨hcb, hfd, -, hone, hint⟩ := hk
  have hb' : ¬ (v'.arm x hd').Busy := by
    rw [View.arm_busy]
    intro hbusy
    apply hb
    simpa [View.Busy, hv', hn', hh] using hbusy
  have hany : ∀ p : Event → Bool, p (.armed x hd'.timeoutAt) = false → (v'.arm x hd').hist.any p = v.hist.any p :=
    fun p hp => by rw [View.arm_any hp, hh]
  refine ⟨h.name, ?_, ?_, ?_, ?_, ?_, ?_, ?_, ?_, ?_, ?_, ?_, ?_⟩
  · rw [hany _ rfl]; exact h.added
  · rw [hcb]; exact h.cb
  · rw [hfd]; exact h.fd
  · rw [hint]; exact h.internal
  · rw [hfd, View.arm_on, hv']
    simpa [hb, hb'] using h.fdmon
  · simp [View.arm_on, hv', hb']
  · rw [hany _ rfl]
    intro hc
    exact absurd (.inr (.inr (.inr hc))) hb
  · rw [View.arm_on, hv']
    simp only [reduceCtorEq, false_and, or_false]
    exact fun ho => absurd (.inr (.inl ho.1)) hb
  · rw [hdead, View.arm_noti, hn']; exact h.dead
  · rw [hany _ rfl, hany _ rfl, View.arm_noti, hn', hone, hdead]; exact h.released
  · rw [hfd]; exact fun hm _ => ht hm
  · rw [hany _ rfl]; exact h.dropped

theorem View.arm_asks {hd : Handle} {fd : Int} {f : UInt32} : (v.arm x hd).Asks fd f ↔ v.Asks fd f := by
  simp [View.Asks, View.arm_on, View.arm_hd]

/-- A handle has a new deadline and is on `ready_list` only if it was before. -/
theorem AtUser.retimed {hd hd' : Handle} (hu : AtUser m s) (ha : s.alive = true) (hstop : s.stopping = false)
    (hh : s.heap x = some hd) (hok : UserOk m x hd (s.view x)) (hnot : ¬ (s.view x).Notified) (h : At m x s .free v s')
    (hok' : UserOk m x hd' v) (hv : v.hd = some hd') (hkind : hd.SameKind hd') (hmov : moving v.hist = none)
    (hcan : v.hist.any Event.isCancelled = false) (hnoti : v.noti ↔ (s.view x).noti)
    (hask : ∀ fd f, v.Asks fd f ↔ (s.view x).Asks fd f) (hrdy : v.on .ready → (s.view x).on .ready) :
    AtUser m s' ∧ Keeps none s s' := by
  have hnot' : ¬ v.Notified := fun hn => by simp [hn.2] at hcan
  constructor
  · refine h.atUser (by simp) hu hok.name ⟨hmov, by rw [hv]; exact .inr hok'⟩ (fun hrun => ?_) (fun hc hf => ?_)
    · obtain ⟨h1, h2, -⟩ := (hu.idle ha hrun).2 x
      exact ⟨fun h => h1 (hrdy h), fun h => h2 (hnoti.1 h), fun _ => hcan⟩
    · exact h.mirror hu.point hask (hu.mirror hc hf)
  · refine h.keeps hu.toCore hok.name (fun _ hd'' hhd'' => ?_) hnoti hnot hnot' (fun l hst hl => ?_)
    · rw [hh] at hhd''
      cases hhd''
      exact ⟨hd', hv, hkind⟩
    · rcases hst with hst | ⟨-, rfl⟩
      · rw [hstop] at hst
        cases hst
      · exact hrdy hl

theorem wp_aloeEvb2SetTimeout {ms : UInt64} {Q : Int → St → Prop} (hu : AtUser m s) (ha : s.alive = true)
    (hr : registered s.log x = true) (hq : ∀ r s', AtUser m s' → Keeps none s s' → Q r s') :
    Wp m b (aloeEvb2SetTimeout x ms) Q s := by
  obtain ⟨hd, hh, hok, hrel, hmov⟩ := hu.registered hr
  have hv : (s.view x).hd = some hd := hh
  have hsome : (s.view x).hd.isSome = true := by simp [hv]
  have hcan := hok.not_notified hrel
  have hnot : ¬ (s.view x).Notified := fun h => by simp [h.2] at hcan
  have h₀ : At m x s .free (s.view x) s := .start hu.point ha (by simpa using hu.unlocked)
  have hsame : ∀ r, Q r s := fun r => hq r s hu (.refl none s)
  refine wp.seq (wp_load hu.point hh (wp.seq (wp_ctx hu.point ha ?_)))
  split
  · exact wp_pure (hsame _)
  split
  · exact wp_pure (hsame _)
  rename_i hstop
  simp only [not_or, Bool.not_eq_true] at hstop
  split
  · exact wp_pure (hsame _)
  refine wp.seq (wp_store h₀ hh fun s₁ h₁ => wp.seq (wp_now h₁.point fun now => ?_))
  refine wp.seq (wp_evb2SetTimeout h₁ rfl fun hmay s₂ h₂ => ?_)
  -- From here on the handle carries its new deadline.
  set hd' := hd.withTimeout ms (timeoutFrom ms now) with hhd'
  have h₂' : At m x s .free ((s.view x).put hd') s₂ := h₂
  have hkind : hd.SameKind hd' := ⟨rfl, rfl, rfl, rfl, rfl⟩
  have hdone : ∀ r v' s', At m x s .free v' s' → UserOk m x hd' v' → v'.hd = some hd' →
      moving v'.hist = none → v'.hist.any Event.isCancelled = false →
      (v'.noti ↔ (s.view x).noti) → (∀ fd f, v'.Asks fd f ↔ (s.view x).Asks fd f) →
      (v'.on .ready → (s.view x).on .ready) → Q r s' := by
    intro r v' s' h' hok' hv' hmov' hcan' hnv hask hrdy
    obtain ⟨hu', hkeeps⟩ := hu.retimed ha hstop.1 hh hok hnot h' hok' hv' hkind hmov' hcan' hnv hask hrdy
    exact hq r s' hu' hkeeps
  have hasks : ∀ fd f, ((s.view x).put hd').Asks fd f ↔ (s.view x).Asks fd f := fun fd f => by
    simp [View.Asks, hv, hhd', Handle.withTimeout]
  have hbusy : ∀ r s', (s.view x).Busy → At m x s .free ((s.view x).put hd') s' → Q r s' := fun r s' hb h' =>
    hdone r _ s' h' (hok.withTimeout hb hmay) rfl hmov hcan Iff.rfl hasks id
  split
  · rename_i hn
    exact wp_pure (hbusy _ s₂ (.inr (.inr (.inl hn))) h₂')
  rename_i hn
  refine wp.seq (wp_lock h₂' (by simp) (h₂'.lt_next rfl) fun s₃ h₃ => ?_)
  refine wp.seq (wp_contains h₃.point h₃.alive ?_)
  refine wp.seq (wp_unlock h₃ (h₃.lt_next rfl) fun s₄ h₄ => ?_)
  by_cases hpend : (s.view x).on .async
  · have : x ∈ s₃.lists .async := (h₃.mem _).2 hpend
    simp only [this, decide_true, if_true]
    exact wp_pure (hbusy _ s₄ (.inr (.inl hpend)) h₄)
  have hpend' : x ∉ s₃.lists .async := fun h => hpend ((h₃.mem _).1 h)
  simp only [hpend', decide_false, Bool.false_eq_true, if_false]
  refine wp.seq (wp_contains h₄.point h₄.alive ?_)
  by_cases hrdy : (s.view x).on .ready
  · have : x ∈ s₄.lists .ready := (h₄.mem _).2 hrdy
    simp only [this, decide_true, if_true]
    exact wp_pure (hbusy _ s₄ (.inl hrdy) h₄)
  have hrdy' : x ∉ s₄.lists .ready := fun h => hrdy ((h₄.mem _).1 h)
  simp only [hrdy', decide_false, Bool.false_eq_true, if_false]
  have hnb : ¬ (s.view x).Busy := by
    rintro (h | h | h | h)
    · exact hrdy h
    · exact hpend h
    · exact hn h
    · simp [hcan] at h
  refine wp.seq (wp_remove h₄ (by simp) rfl fun _ s₅ _ h₅ => ?_)
  refine wp.seq (wp_timerInsertFinite h₅ rfl hn (by simp) (by simpa using hrdy) (by simpa using hpend)
    (fun t ht => by simp [hmov] at ht) fun s₆ h₆ => wp_pure ?_)
  refine hdone _ _ s₆ h₆ (hok.rearmed hnb hkind rfl (fun l => ?_) rfl rfl fun hm hfd => ?_) View.arm_hd
    (View.arm_moving hmov) (by rw [View.arm_any rfl]; exact hcan) (by rw [View.arm_noti]; rfl) (fun fd f => ?_) (fun h => ?_)
  · simp [and_comm]
  · rcases hmay with ht | ht | ⟨hd'', hhd'', ht⟩
    · exact ht
    · exact absurd ht hm
    · cases hhd''
      rcases ht with ht | ⟨-, ht⟩
      · exact absurd ht (not_le.2 hfd)
      · -- The old deadline was finite, so the handle was on `timer_list`.
        have hon : (s.view x).on .timer := hok.timer.2 ⟨hok.armed hm hnb hfd, hnb⟩
        rcases ht with ht | ht | ht | ⟨-, ht⟩
        · exact absurd ht hrdy
        · exact absurd ht hpend
        · exact absurd ht hn
        · exact absurd hon ht
  · rw [View.arm_asks]
    simpa [View.Asks] using hasks fd f
  · simpa [View.arm_on] using h

/-! ## Adding handles -/

/-- A handle that is ready to be handed out. -/
structure NewOk (m : Mode) (hd : Handle) (v : View) : Prop where
  heap : v.hd = some hd
  cb : ∃ f, hd.cb = some (.user f)
  fd : fdTimer ≤ hd.fd
  internal : hd.flag2.internal = false
  dead : hd.flag2.dead = false
  fdmon : v.on .fdmon ↔ 0 ≤ hd.fd ∧ ¬ v.on .async
  timer : v.on .timer ↔ hd.timeoutAt ≠ uint64Max ∧ ¬ v.on .async
  ready : ¬ v.on .ready
  noti : ¬ v.noti
  async : v.on .async → hd.fd = fdTimer ∧ hd.flag2.oneshot = true ∧ (m.sat = .never → hd.timeoutAt ≠ uint64Max)
  armed : m.sat ≠ .any → ¬ v.on .async → hd.fd < 0 → hd.timeoutAt ≠ uint64Max
  hist : ∀ e ∈ v.hist, e.isAdded = false ∧ e.isCancelled = false ∧ e.releases = false ∧ e.drops = false
  moving : moving v.hist = none

theorem any_eq_false {p : Event → Bool} {es : List Event} (h : ∀ e ∈ es, p e = false) : es.any p = false := by
  simpa using h

theorem NewOk.ok {hd : Handle} (h : NewOk m hd v) (hx : x ≠ wake) : Ok m x (v.record (.added x)) := by
  have hc : v.hist.any Event.isCancelled = false := any_eq_false fun e he => (h.hist e he).2.1
  have hr : v.hist.any Event.releases = false := any_eq_false fun e he => (h.hist e he).2.2.1
  have hd' : v.hist.any Event.drops = false := any_eq_false fun e he => (h.hist e he).2.2.2
  have hb : (v.record (.added x)).Busy ↔ v.on .async := by
    simp [View.Busy, h.ready, h.noti, hc, Event.isCancelled]
  refine ⟨rfl, ?_⟩
  simp only [View.record_hd, h.heap]
  refine .inr ⟨hx, ?_, h.cb, h.fd, h.internal, ?_, ?_, ?_, h.async, ?_, ?_, ?_, ?_⟩
  · simp [Event.isAdded]
  · rw [hb]; exact h.fdmon
  · rw [hb]; exact h.timer
  · simp [hc, Event.isCancelled]
  · simp [h.dead]
  · simp [hr, hc, h.noti, Event.releases, Event.isCancelled]
  · rw [hb]; exact h.armed
  · simp [hd', Event.drops]

/-- Handing out a new handle. -/
theorem Moved.handOut {k : Sync} {hd : Handle} {Q : Ret → St → Prop} (h : Moved m s.next s k v s') (hk : k ≠ .held)
    (hu : AtUser m s) (hs : s.stopping = false) (hn : NewOk m hd v)
    (hmir : m.ctl = false → s.finalized = false → Mirror s')
    (hq : ∀ s'', AtUser m s'' → Keeps none s s'' → Q (.ptr (some s.next)) s'') :
    Wp m b (do emit (.added s.next); return Ret.ptr (some s.next)) Q s' := by
  have hx : s.next ≠ wake := fun h => absurd hu.point.wake_lt (by simp [← h])
  have he : s.view s.next = .empty := hu.point.fresh _ (le_refl _)
  have hstop : Event.stopping ∉ s'.log := fun hl => by
    have := h.point.stop.2 hl
    rw [h.touch.stopping, hs] at this
    cases this
  have hadd : v.hist.any Event.isAdded = false := any_eq_false fun e he => (hn.hist e he).1
  have hcan : v.hist.any Event.isCancelled = false := any_eq_false fun e he => (hn.hist e he).2.1
  refine wp.seq (wp_emit h.start (.inl (by simp [hn.heap])) rfl (fun t ht => by simp [hn.moving] at ht)
    (fun _ _ => ⟨hadd, hstop⟩) rfl rfl rfl fun s₁ h₁ => wp_pure ?_)
  have h₁' := h.trans h₁.toMoved id
  have hnot : ¬ (v.record (.added s.next)).Notified := fun h => by
    have := h.2
    simp [hcan, Event.isCancelled] at this
  refine hq s₁ (h₁'.atUser hk hu hx (hn.ok hx) (fun _ => ⟨hn.ready, hn.noti, fun _ => ?_⟩) fun hc hf => ?_)
    (h₁'.keeps hu.toCore hx (fun hn => ?_) (by rw [he]; exact iff_of_false hn.noti id) ?_ hnot fun l hst hl => ?_)
  · simp [hcan, Event.isCancelled]
  · refine h₁.mirror h.point (fun fd f => ?_) (hmir hc hf)
    rw [h.view]; rfl
  · have : (s.view s.next).noti := hn
    rw [he] at this
    exact this.elim
  · rw [he]; simp [View.Notified, View.empty]
  · rcases hst with hst | ⟨-, rfl⟩
    · rw [hs] at hst; cases hst
    · exact absurd hl hn.ready

/-- An attempt to add that has cleaned up after itself. -/
theorem Moved.discarded {k : Sync} (h : Moved m s.next s k v s') (hk : k ≠ .held) (hu : AtUser m s)
    (hd : v.hd = none) (hon : ∀ l, ¬ v.on l) (hn : ¬ v.noti) (hm : moving v.hist = none)
    (hadd : v.hist.any Event.isAdded = false) (hmir : m.ctl = false → s.finalized = false → Mirror s') :
    AtUser m s' ∧ Keeps none s s' := by
  have hx : s.next ≠ wake := fun h => absurd hu.point.wake_lt (by simp [← h])
  have he : s.view s.next = .empty := hu.point.fresh _ (le_refl _)
  refine ⟨h.atUser hk hu hx ⟨hm, ?_⟩ (fun _ => ⟨hon _, hn, ?_⟩) hmir, 
    h.keeps hu.toCore hx (fun hn => ?_) (by rw [he]; exact iff_of_false hn id) ?_ ?_ ?_⟩
  · simp [hd, hadd]
  · simp [hd]
  · have : (s.view s.next).noti := hn
    rw [he] at this
    exact this.elim
  · rw [he]; simp [View.Notified, View.empty]
  · simp [View.Notified, hd]
  · exact fun l _ hl => absurd hl (hon l)

/-- The lists as they were, up to a handle that is on none of them. -/
theorem Moved.lists_eq (h : Moved m x s .alone v s') (hp : Point m s) (hx : ∀ l, x ∉ s.lists l) (hv : ∀ l, ¬ v.on l) :
    s'.lists = s.lists := by
  funext l
  have hx' : x ∉ s'.lists l := fun hl => hv l ((h.mem l).1 hl)
  have he : (s'.lists l).erase x = (s.lists l).erase x := by
    by_cases hl : l = .async
    · subst hl; exact h.async rfl
    · exact h.touch.order hp l hl
  rwa [List.erase_of_not_mem hx', List.erase_of_not_mem (hx l)] at he

theorem wp_monitorFd {hd : Handle} {Q : Bool → St → Prop} (h : At m x s .alone v s') (hp : Point m s)
    (hx : s.view x = .empty) (hv : v.hd = some hd) (hn : ¬ v.noti) (hon : ∀ l, ¬ v.on l) (hh : v.hist = [])
    (hok : ∀ v' s'', Moved m x s .alone v' s'' → v'.hd = some hd → ¬ v'.noti → v'.hist = [] →
      (∀ l, v'.on l ↔ l = .fdmon ∧ 0 ≤ hd.fd) → (Mirror s → Mirror s'') → Q true s'')
    (herr : ∀ s'', At m x s .alone (v.free x) s'' → Q false s'') : Wp m b (monitorFd x hd.fd) Q s' := by
  unfold monitorFd
  by_cases hfd : 0 ≤ hd.fd
  · rw [if_pos hfd]
    refine wp.seq (wp_insertTail h (.inl rfl) (by simp [hv]) hn (fun a _ => hon a) (by simp) fun s₁ h₁ => ?_)
    have hjoin : ∀ l, (v.join .fdmon).on l ↔ l = .fdmon ∧ 0 ≤ hd.fd := fun l => by simp [hon, hfd]
    have hflags : s₁.flagsOn hd.fd ≠ [] := by
      have hmem : x ∈ s₁.lists .fdmon := (h₁.mem _).2 (by simp)
      have hheap : s₁.heap x = some hd := h₁.heap.trans hv
      intro hnil
      simp only [St.flagsOn, List.map_eq_nil_iff, List.filter_eq_nil_iff] at hnil
      exact hnil x hmem (by simp [hheap])
    refine wp.seq (wp_epollRefresh h₁.point h₁.alive hfd (fun _ => ?_) (fun r _ hr => ?_))
    · rw [if_neg (by simp)]
      have ht : Touch m x s₁ { s₁ with interest := Function.update s₁.interest hd.fd (s₁.want hd.fd) } :=
        touch_unseen rfl rfl rfl rfl rfl rfl rfl rfl
      refine wp_pure (hok _ _ ⟨ht.point h₁.point, h₁.alive, h₁.touch.trans ht, h₁.view, h₁.loop,
        h₁.woken, h₁.async⟩ hv hn hh hjoin fun hm fd' hfd' => ?_)
      show Function.update s₁.interest hd.fd (s₁.want hd.fd) fd' = s₁.want fd'
      by_cases hne : fd' = hd.fd
      · rw [hne, Function.update_self]
      · rw [Function.update_of_ne hne, h₁.interest, hm fd' hfd']
        refine (h₁.touch.want hp fun f => ?_).symm
        rw [h₁.view, hx]
        exact iff_of_false (View.not_asks (v := v.join .fdmon) hv hne f) (View.not_asks_empty fd' f)
    · rw [if_pos (hr hflags)]
      refine wp.seq (wp_handleDetach h₁ (by simp [hv]) fun s₂ h₂ => ?_)
      have hv' : (((v.join .fdmon).off .fdmon).off .timer).off .ready = v := by
        have hj : (v.join .fdmon).off .fdmon = v := by
          simp only [View.join, View.off, Function.update_idem]
          rw [show False = v.on .fdmon by simpa using hon .fdmon, Function.update_eq_self]
        rw [hj, View.off_eq _ _ (hon _), View.off_eq _ _ (hon _)]
      rw [hv'] at h₂
      refine wp.seq (wp_free h₂ (by simp [hv]) hn hon (by simp [hh, moving]) fun s₃ h₃ => wp_pure (herr _ h₃))
  · rw [if_neg hfd]
    refine wp_pure (hok _ _ h.toMoved hv hn hh (fun l => ?_) fun hm => ?_)
    · simp [hon, hfd]
    · refine h.mirror hp (fun fd f => ?_) hm
      rw [hx]
      exact iff_of_false (fun ha => hon _ ha.1) (View.not_asks_empty fd f)

/-- `aloe_evb2_add_fd` leaves the lists and the kernel as they were, or a new handle. -/
theorem wp_aloeEvb2AddFd {fd : Int} {ev : UInt32} {ms : UInt64} {cb : Option Cb} {ud : Nat}
    {Q : Option Ptr → St → Prop} (hu : AtUser m s) (ha : s.alive = true)
    (hcb : ∀ c, cb = some c → ∃ f, c = .user f)
    (hnone : ∀ s', AtUser m s' → Keeps none s s' → s'.lists = s.lists → s'.interest = s.interest → Q none s')
    (hsome : ∀ hd v s', s.stopping = false → Moved m s.next s .alone v s' → NewOk m hd v → ¬ v.on .async →
      (m.ctl = false → s.finalized = false → Mirror s') → Q (some s.next) s') :
    Wp m b (aloeEvb2AddFd fd ev ms cb ud) Q s := by
  have hsame : Q none s := hnone s hu (.refl none s) rfl rfl
  have he : s.view s.next = .empty := hu.point.fresh _ (le_refl _)
  refine wp.seq (wp_ctx hu.point ha ?_)
  split
  · exact wp_pure hsame
  rename_i hc
  simp only [not_or, Bool.not_eq_true, not_lt] at hc
  obtain ⟨hstop, -, hcb', hfd⟩ := hc
  split
  · exact wp_pure hsame
  refine wp.seq (wp_handleAlloc (k := .alone) hu.point ha (by simpa using hu.unlocked) (wp_pure hsame) fun s₁ h₁ => ?_)
  refine wp.seq (wp_store h₁ rfl fun s₂ h₂ => wp.seq (wp_now h₂.point fun now => ?_))
  refine wp.seq (wp_evb2SetTimeout h₂ rfl fun hmay s₃ h₃ => ?_)
  set hd : Handle := {
    cb := cb, userData := ud, fd := fd, timeoutMs := ms, timeoutAt := timeoutFrom ms now, flag := ev } with hhd
  have h₃' : At m s.next s .alone (View.empty.put hd) s₃ := h₃
  have hmay' : m.sat ≠ .any → fd < 0 → timeoutFrom ms now ≠ uint64Max := by
    intro hm hneg
    rcases hmay with ht | ht | ⟨hd', hhd', ht⟩
    · exact ht
    · exact absurd ht hm
    · cases hhd'
      rcases ht with ht | ⟨-, ht⟩
      · exact absurd ht (not_le.2 hneg)
      · simp [View.empty] at ht
  have hhd₃ : (View.empty.put hd).hd = some hd := rfl
  refine wp.seq (wp_monitorFd h₃' hu.point he hhd₃ (by simp [View.empty]) (by simp [View.empty]) rfl
    (fun v' s₄ h₄ hv' hn' hh' hon' hm' => ?_) fun s₄ h₄ => ?_)
  · rw [if_neg (by simp)]
    refine wp.seq (wp_timerInsertFinite h₄.start hv' hn' (by simp [hon']) (by simp [hon']) (by simp [hon'])
      (fun t ht => by simp [hh', moving] at ht) fun s₅ h₅ => wp_pure ?_)
    refine hsome hd _ s₅ hstop (h₄.trans h₅.toMoved id) ?_ (by simp [View.arm_on, hon']) fun hc hf => ?_
    · refine ⟨View.arm_hd.trans hv', ?_, hfd, rfl, rfl, ?_, ?_, ?_, ?_, ?_, fun hm _ => hmay' hm, ?_, ?_⟩
      · obtain ⟨c, rfl⟩ := Option.ne_none_iff_exists'.1 hcb'
        obtain ⟨f, rfl⟩ := hcb c rfl
        exact ⟨f, rfl⟩
      · simp [View.arm_on, hon']
      · simp [View.arm_on, hon']
      · simp [View.arm_on, hon']
      · rw [View.arm_noti]; exact hn'
      · simp [View.arm_on, hon']
      · intro e he
        unfold View.arm at he
        split at he
        · rw [hh'] at he; cases he
        · simp only [View.record_hist, View.join_hist, hh', List.mem_singleton] at he
          subst he
          exact ⟨rfl, rfl, rfl, rfl⟩
      · exact View.arm_moving (by rw [hh']; rfl)
    · refine h₅.mirror h₄.point (fun fd f => ?_) (hm' (hu.mirror hc hf))
      rw [h₄.view]; exact View.arm_asks
  · rw [if_pos rfl]
    obtain ⟨hu', hk'⟩ := h₄.toMoved.discarded (by simp) hu rfl (by simp [View.empty]) (by simp [View.empty]) rfl
      (by simp [View.empty, Event.isAdded]) fun hc hf => by
        refine h₄.mirror hu.point (fun fd f => ?_) (hu.mirror hc hf)
        rw [he]
        exact iff_of_false (fun ha => ha.1) (View.not_asks_empty fd f)
    have hne : ∀ l, s.next ∉ s.lists l := fun l hl => by
      have : (s.view s.next).on l := hl
      rw [he] at this
      exact this
    exact wp_pure (hnone s₄ hu' hk' (h₄.toMoved.lists_eq hu.point hne (by simp [View.empty])) h₄.interest)

/-- A call that hands out a new handle or changes nothing the user sees. -/
theorem wp_handOut {add : Code (Option Ptr)} {P : St → Prop} {Q : Ret → St → Prop} (hu : AtUser m s)
    (hadd : ∀ (R : Option Ptr → St → Prop), (∀ s', AtUser m s' → Keeps none s s' → P s' → R none s') →
      (∀ k hd v s', k ≠ Sync.held → s.stopping = false → Moved m s.next s k v s' → NewOk m hd v →
        (m.ctl = false → s.finalized = false → Mirror s') → R (some s.next) s') → Wp m b add R s)
    (hq : ∀ r s', AtUser m s' → Keeps none s s' → (r = .ptr none → P s') → Q r s') : Wp m b (handOut add) Q s := by
  refine wp.seq (hadd _ (fun s' hu' hk hp => ?_) (fun k hd v s' hk hs hm hn hmir => ?_))
  · exact wp_pure (hq _ s' hu' hk fun _ => hp)
  · exact hm.handOut hk hu hs hn hmir fun s'' hu' hk' => hq _ s'' hu' hk' fun h => by cases h

theorem map_user {cb : Option Nat} (c : Cb) (h : cb.map Cb.user = some c) : ∃ f, c = .user f := by
  cases cb with
  | none => cases h
  | some f => exact ⟨f, (Option.some.inj h).symm⟩

/-- The lists and the kernel's interest are as before. -/
def Unchanged (s s' : St) : Prop := s'.lists = s.lists ∧ s'.interest = s.interest

theorem wp_addFd {fd : Int} {ev : UInt32} {ms : UInt64} {cb : Option Nat} {ud : Nat} {Q : Ret → St → Prop}
    (hu : AtUser m s) (ha : s.alive = true)
    (hq : ∀ r s', AtUser m s' → Keeps none s s' → (r = .ptr none → Unchanged s s') → Q r s') :
    Wp m b (handOut (aloeEvb2AddFd fd ev ms (cb.map .user) ud)) Q s := by
  refine wp_handOut hu (fun R h0 h1 => ?_) hq
  exact wp_aloeEvb2AddFd hu ha map_user (fun s' hu' hk hl hi => h0 s' hu' hk ⟨hl, hi⟩)
    (fun hd v s' hs hm hn _ hmir => h1 .alone hd v s' (by simp) hs hm hn hmir)

theorem NewOk.oneshot {hd : Handle} (h : NewOk m hd v) (ha : ¬ v.on .async) :
    NewOk m { hd with flag2 := { hd.flag2 with oneshot := true } }
      (v.put { hd with flag2 := { hd.flag2 with oneshot := true } }) :=
  ⟨rfl, h.cb, h.fd, h.internal, h.dead, h.fdmon, h.timer, h.ready, h.noti, fun ho => absurd ho ha, h.armed, h.hist,
    h.moving⟩

theorem wp_addOneshotFd {fd : Int} {ev : UInt32} {ms : UInt64} {cb : Option Nat} {ud : Nat} {Q : Ret → St → Prop}
    (hu : AtUser m s) (ha : s.alive = true)
    (hq : ∀ r s', AtUser m s' → Keeps none s s' → (r = .ptr none → Unchanged s s') → Q r s') :
    Wp m b (handOut (aloeEvb2AddOneshotFd fd ev ms (cb.map .user) ud)) Q s := by
  refine wp_handOut hu (fun R h0 h1 => ?_) hq
  refine wp.seq (wp_aloeEvb2AddFd hu ha map_user (fun s' hu' hk hl hi => wp_pure (h0 s' hu' hk ⟨hl, hi⟩))
    (fun hd v s' hs hm hn hasync hmir => ?_))
  refine wp.seq (wp_store hm.start hn.heap fun s₁ h₁ => wp_pure ?_)
  refine h1 .alone _ _ s₁ (by simp) hs (hm.trans h₁.toMoved id) (hn.oneshot hasync) fun hc hf => ?_
  refine h₁.mirror hm.point (fun fd f => ?_) (hmir hc hf)
  rw [hm.view]
  simp [View.Asks, hn.heap]

theorem wp_addOneshotTimer {ms : UInt64} {cb : Option Nat} {ud : Nat} {Q : Ret → St → Prop} (hu : AtUser m s)
    (ha : s.alive = true) (hq : ∀ r s', AtUser m s' → Keeps none s s' → Q r s') :
    Wp m b (handOut (aloeEvb2AddOneshotTimer ms (cb.map .user) ud)) Q s := by
  refine wp_handOut (P := fun _ => True) hu (fun R h0 h1 => ?_) (fun r s' hu' hk _ => hq r s' hu' hk)
  have hsame : R none s := h0 s hu (.refl none s) trivial
  have he : s.view s.next = .empty := hu.point.fresh _ (le_refl _)
  cases cb with
  | none => exact wp_pure hsame
  | some f =>
    unfold aloeEvb2AddOneshotTimer
    simp only [Option.map_some]
    split
    · exact wp_pure hsame
    refine wp.seq (wp_handleAlloc (k := .alone) hu.point ha (by simpa using hu.unlocked) (wp_pure hsame)
      fun s₁ h₁ => ?_)
    refine wp.seq (wp_store h₁ rfl fun s₂ h₂ => wp.seq (wp_now h₂.point fun now => ?_))
    refine wp.seq (wp_evb2SetTimeout h₂ rfl fun hmay s₃ h₃ => ?_)
    set hd : Handle := { oneshotTimer ms (.user f) ud with timeoutAt := timeoutFrom ms now } with hhd
    have h₃' : At m s.next s .alone (View.empty.put hd) s₃ := h₃
    have hnever : m.sat = .never → hd.timeoutAt ≠ uint64Max := by
      intro hm
      rcases hmay with ht | ht | ⟨hd', hhd', ht⟩
      · exact ht
      · rw [hm] at ht; cases ht
      · cases hhd'
        rcases ht with ht | ⟨ht, -⟩
        · exact absurd ht (show ¬ (0 : Int) ≤ fdTimer by decide)
        · rw [hm] at ht; cases ht
    have hmir : ∀ v' s', At m s.next s .free v' s' → ¬ v'.on .fdmon → m.ctl = false → s.finalized = false →
        Mirror s' := by
      intro v' s' h' hno hc hf
      refine h'.mirror hu.point (fun fd f => ?_) (hu.mirror hc hf)
      rw [he]
      exact iff_of_false (fun ha => hno ha.1) (View.not_asks_empty fd f)
    refine wp.seq (wp_lock h₃' (by simp) (h₃'.lt_next rfl) fun s₄ h₄ => ?_)
    refine wp.seq (wp_ctx h₄.point h₄.alive ?_)
    split
    · refine wp.seq (wp_unlock h₄ (h₄.lt_next rfl) fun s₅ h₅ => ?_)
      refine wp.seq (wp_free h₅ rfl (by simp [View.empty]) (by simp [View.empty]) rfl fun s₆ h₆ => wp_pure ?_)
      obtain ⟨hu', hk'⟩ := h₆.toMoved.discarded (by simp) hu rfl (by simp [View.empty]) (by simp [View.empty]) rfl
        (by simp [View.empty, Event.isAdded]) (hmir _ s₆ h₆ (by simp [View.empty]))
      exact h0 s₆ hu' hk' trivial
    · rename_i hns
      simp only [not_or, Bool.not_eq_true] at hns
      have hstop : s.stopping = false := h₄.touch.stopping ▸ hns.1
      have hfin : s.finalized = false := h₄.touch.finalized ▸ hns.2
      refine wp.seq (wp_mono (wp_queueTimer h₄ hfin rfl (by simp [View.empty]) (by simp [View.empty]) rfl
        fun s₅ h₅ => ?_) fun _ _ h => wp.seq h)
      refine wp.seq (wp_unlock h₅ (h₅.lt_next rfl) fun s₆ h₆ => wp_pure ?_)
      refine h1 .free hd _ s₆ (by simp) hstop h₆.toMoved ?_ (hmir _ s₆ h₆ (by simp [View.empty]))
      refine ⟨rfl, ⟨f, rfl⟩, le_refl fdTimer, rfl, rfl, ?_, ?_, ?_, ?_, ?_, ?_, ?_, rfl⟩
      · simp [View.empty]
      · simp [View.empty]
      · simp [View.empty]
      · simp [View.empty]
      · exact fun _ => ⟨rfl, rfl, hnever⟩
      · exact fun _ h => absurd (by simp) h
      · intro e he
        simp only [View.record_hist, View.join_hist, View.put_hist, View.empty, List.mem_singleton] at he
        subst he
        exact ⟨rfl, rfl, rfl, rfl⟩

end Calls

end AlgaeBp.Evb2
