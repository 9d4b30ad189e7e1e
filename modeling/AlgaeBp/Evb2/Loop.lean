import AlgaeBp.Evb2.Destroy
/-!
# One pass of the loop

`aloe_evb2_run_once` installs queued timers, waits, collects the handles that
are due and dispatches them. `Running` holds between two handles; while the
handles of one descriptor are being collected, the kernel's interest in it may
lag behind.
-/
open Reentrant

namespace AlgaeBp.Evb2

/-- No callback of the handle is running. -/
def View.Quiet (v : View) : Prop := ¬ v.noti ∧ ¬ v.Notified

/-- The interest map mirrors `fdmon_list`, except perhaps for `f`. -/
def MirrorBut (f : Option Int) (s : St) : Prop := ∀ fd, 0 ≤ fd → f ≠ some fd → s.interest fd = s.want fd

structure Running (m : Mode) (f : Option Int) (s : St) : Prop extends Core m s where
  alive : s.alive = true
  unlocked : s.asyncLock ≠ some .loop
  woken : Wake s
  run : s.inRun = true
  opens : s.finalized = false
  quiet : ∀ h, (s.view h).Quiet
  mirror : m.ctl = false → MirrorBut f s

section Loop
variable {m : Mode} {b : Call} {x : Ptr} {s s₀ s' : St} {v : View} {hd : Handle} {f : Option Int}

theorem MirrorBut.all (h : MirrorBut none s) : Mirror s := fun fd hfd => h fd hfd (by simp)

theorem Mirror.but (h : Mirror s) (f : Option Int) : MirrorBut f s := fun fd hfd _ => h fd hfd

theorem Queued.quiet (hq : Queued m x v) : v.Quiet := ⟨hq.noti, hq.not_notified⟩

namespace Running

theorem start (h : Running m f s) (x : Ptr) : At m x s .free (s.view x) s :=
  .start h.point h.alive (by simpa using h.unlocked)

theorem stable (h : Running m none s) : Stable m .free s :=
  ⟨h.toCore, h.alive, by simpa using h.unlocked, fun _ _ => h.woken, fun hc _ => (h.mirror hc).all⟩

theorem notifying (h : Running m f s) : s.notifying = none := by
  by_contra hn
  obtain ⟨x, hx⟩ := Option.ne_none_iff_exists'.1 hn
  exact (h.quiet x).1 hx

/-- After user code or other threads have run. -/
theorem after (h : Running m f s) (hs : Stable m .free s') (hk : Keeps none s s') : Running m none s' := by
  have hn : s'.notifying = none := (hk.run h.run).2.trans h.notifying
  have hf : s'.finalized = false := (hk.finalized h.run).trans h.opens
  refine ⟨hs.toCore, hs.alive, by simpa using hs.loop, hs.woken hf (by simp [hn]), hk.inRun h.run, hf, fun j => ?_,
    fun hc => (hs.mirror hc hf).but none⟩
  refine ⟨fun hj => ?_, fun hj => (h.quiet j).2 (hk.settled j (by simp) hj)⟩
  rw [show s'.notifying = some j from hj] at hn
  cases hn

end Running

/-- Work on `x` that ends with no callback of it running. -/
theorem Moved.running (h : Moved m x s₀ .free v s) (hc : Core m s₀) (hrun : s₀.inRun = true)
    (hopen : s₀.finalized = false) (hw : Wake s₀) (hq : ∀ k, k ≠ x → (s₀.view k).Quiet) (hok : Ok m x v)
    (hx : x = wake → (∀ hd, v.hd = some hd → hd.fd = s₀.asyncPipe0) ∧ (s₀.stopping = false → v.hd.isSome = true))
    (hv : v.Quiet) (hmir : m.ctl = false → MirrorBut f s) : Running m f s where
  toCore := by
    have ha : s₀.alive = true := h.touch.alive ▸ h.alive
    refine hc.touch h.touch ha (h.view ▸ hok) (fun hxw => ?_) (fun hr => absurd (hrun.symm.trans hr) (by simp))
    obtain ⟨h1, h2⟩ := hx hxw
    rw [← h.heap, hxw] at h1 h2
    exact ⟨h1, h2⟩
  alive := h.alive
  unlocked hl := by cases h.loop.1 hl
  woken := h.woken hopen hw
  run := h.touch.inRun.trans hrun
  opens := h.touch.finalized.trans hopen
  quiet k := by
    by_cases hk : k = x
    · rw [hk, h.view]; exact hv
    · rcases h.touch.cases hc.point hk with he | ⟨-, -, -, hqd⟩
      · rw [he]; exact hq k hk
      · exact hqd.quiet
  mirror := hmir

/-! ## Collecting -/

/-- A handle on its way to `ready_list`. -/
def View.ready (v : View) (hd : Handle) (noti : UInt32) : View :=
  (((v.off .fdmon).off .timer).put { hd with noti := noti }).join .ready

theorem View.ready_on (hs : v.Sane) (ho : v.on .fdmon ∨ v.on .timer) {noti : UInt32} (l : ListId) :
    (v.ready hd noti).on l ↔ l = .ready := by
  have ha : ¬ v.on .async := fun ha => by
    rcases ho with ho | ho
    · cases hs.link _ _ (by simp) (by simp) ho ha
    · exact (hs.timer ho).2 ha
  cases l <;> simp [View.ready, ha]

theorem not_noti_of_on {l : ListId} (hs : v.Sane) (ho : v.on l) : ¬ v.noti := fun hn => hs.noti hn l ho

/-- A handle that is due. -/
theorem Ok.ready (h : Ok m x v) (hs : v.Sane) (hv : v.hd = some hd) (ho : v.on .fdmon ∨ v.on .timer) (noti : UInt32) :
    Ok m x (v.ready hd noti) := by
  have hon : ∀ l, (v.ready hd noti).on l ↔ l = .ready := View.ready_on hs ho
  have hn : ¬ v.noti := ho.elim (not_noti_of_on hs) (not_noti_of_on hs)
  refine ⟨h.1, ?_⟩
  obtain ⟨-, h⟩ := h
  rw [hv] at h
  show WakeOk x { hd with noti := noti } _ ∨ UserOk m x { hd with noti := noti } _
  rcases h with h | h
  · refine .inl ⟨h.name, h.cb, h.fd, h.flag, h.timeoutMs, h.flag2, h.hist, ?_, ?_⟩
    · simp [hon]
    · simp [hon]
  · have hb : (v.ready hd noti).Busy := .inl ((hon _).2 rfl)
    have hc : v.hist.any Event.isCancelled = false := ho.elim h.linked h.linked
    refine .inr ⟨h.name, h.added, h.cb, h.fd, h.internal, ?_, ?_, ?_, ?_, h.dead, h.released, ?_, h.dropped⟩
    · simp [hon, hb]
    · simp [hon, hb]
    · exact fun hc' => absurd (hc.symm.trans hc') (by simp)
    · simp [hon]
    · exact fun _ h => absurd hb h

theorem View.ready_quiet (h : v.Quiet) (hv : v.hd = some hd) (noti : UInt32) : (v.ready hd noti).Quiet :=
  ⟨h.1, fun hn => h.2 ⟨by simp [hv], hn.2⟩⟩

/-- Detach a handle and link it into `ready_list`. -/
theorem wp_toReady {α : Type} {rest : Code α} {noti : UInt32} {Q : α → St → Prop} (h : Running m f s)
    (hh : s.heap x = some hd) (ho : (s.view x).on .fdmon ∨ (s.view x).on .timer)
    (hq : ∀ s', At m x s .free ((s.view x).ready hd noti) s' → s'.lists .fdmon = (s.lists .fdmon).erase x →
      Wp m b rest Q s') :
    Wp m b (do
      let _ ← qentRemove .fdmon x
      let _ ← qentRemove .timer x
      store x ({ · with noti := noti })
      qentInsertTail .ready x
      rest) Q s := by
  have hsane := h.point.sane x
  have hon : ∀ l, ((s.view x).ready hd noti).on l ↔ l = .ready := View.ready_on hsane ho
  have hn : ¬ (s.view x).noti := (h.quiet x).1
  have hv : (s.view x).hd = some hd := hh
  have hnf : ¬ ((s.view x).ready hd noti).on .fdmon := by simp [hon]
  refine wp.seq (wp_remove (h.start x) (by simp) (by simp [hv]) fun _ s₁ _ h₁ => ?_)
  refine wp.seq (wp_remove h₁ (by simp) (by simp [hv]) fun _ s₂ _ h₂ => ?_)
  refine wp.seq (wp_store h₂ hv fun s₃ h₃ => ?_)
  refine wp.seq (wp_insertTail h₃ (.inr rfl) rfl hn (fun a ha hoa => ?_) (by simp) fun s₄ h₄ => hq s₄ h₄ ?_)
  · have : ((s.view x).ready hd noti).on a := (View.join_on _ _ _).2 (.inr hoa)
    rw [hon] at this
    subst this
    have hr : (s.view x).on .ready := by simpa using hoa
    rcases ho with ho | ho
    · cases hsane.link _ _ (by simp) (by simp) ho hr
    · exact (hsane.timer ho).1 hr
  · exact h₄.toMoved.erase h.point (by simp) hnf

theorem Running.due (h : Running m f s) (hh : s.heap x = some hd) (ho : (s.view x).on .fdmon ∨ (s.view x).on .timer)
    {noti : UInt32} (hm : Moved m x s .free ((s.view x).ready hd noti) s') {f' : Option Int}
    (hmir : m.ctl = false → MirrorBut f' s') : Running m f' s' := by
  have hv : (s.view x).hd = some hd := hh
  refine hm.running h.toCore h.run h.opens h.woken (fun k _ => h.quiet k)
    ((h.ok x).ready (h.point.sane x) hv ho noti) (fun hx => ⟨?_, fun _ => rfl⟩) (View.ready_quiet (h.quiet x) hv noti) hmir
  subst hx
  rintro _ ⟨⟩
  exact h.wakeFd hd hh

theorem wp_handleToReady {noti : UInt32} {Q : Unit → St → Prop} (h : Running m none s) (hb : b.adds = false)
    (ho : (s.view x).on .fdmon ∨ (s.view x).on .timer) (hq : ∀ s', Running m none s' → Q () s') :
    Wp m b (handleToReady x noti) Q s := by
  have hsane := h.point.sane x
  obtain ⟨hd, hh⟩ := Option.isSome_iff_exists.1 (ho.elim (hsane.live _) (hsane.live _))
  have hh' : s.heap x = some hd := hh
  have hon : ∀ l, ((s.view x).ready hd noti).on l ↔ l = .ready := View.ready_on hsane ho
  refine wp.seq (wp_load h.point hh' (wp_toReady h hh' ho fun s₁ h₁ _ => ?_))
  refine wp_refreshFd h₁ h.point (fun fd' hne g => ?_) fun s₂ h₂ _ hm₂ => hq s₂ (h.due hh' ho h₂ fun hc => ?_)
  · exact iff_of_false (fun ha => by simpa [hon] using ha.1) (View.not_asks hh hne g)
  · exact (hm₂ hc hb h.opens fun fd' h1 _ => h.mirror hc fd' h1 (by simp)).but none

/-- The kernel's interest in the descriptor just collected is brought up to date. -/
theorem wp_refreshHit {fd : Int} {Q : Int → St → Prop} (h : Running m (some fd) s) (hb : b.adds = false) (hfd : 0 ≤ fd)
    (hq : ∀ r s', Running m none s' → Q r s') : Wp m b (epollRefresh fd) Q s := by
  refine wp_epollRefresh h.point h.alive hfd (fun _ => ?_) (fun r hr _ => ?_)
  · have ht : Touch m s.next s { s with interest := Function.update s.interest fd (s.want fd) } :=
      touch_unseen rfl rfl rfl rfl rfl rfl rfl rfl
    refine hq 0 _ ⟨⟨ht.point h.point, h.ok, h.fin, h.wakeFd, h.wakeLive, h.idle, h.dead⟩, h.alive,
      h.unlocked, h.woken, h.run,
      h.opens, h.quiet, fun hc fd' hfd' _ => ?_⟩
    show Function.update s.interest fd (s.want fd) fd' = s.want fd'
    by_cases hne : fd' = fd
    · rw [hne, Function.update_self]
    · rw [Function.update_of_ne hne]
      exact h.mirror hc fd' hfd' (by simpa using Ne.symm hne)
  · refine hq r s ⟨h.toCore, h.alive, h.unlocked, h.woken, h.run, h.opens, h.quiet, fun hc => ?_⟩
    have := hr (h.point.opened h.opens).1 hc
    rw [hb] at this
    cases this

theorem Core.fd_nonneg (hc : Core m s) (hx : x ∈ s.lists .fdmon) (hh : s.heap x = some hd) : 0 ≤ hd.fd := by
  obtain ⟨-, hok⟩ := hc.ok x
  rw [show (s.view x).hd = some hd from hh] at hok
  rcases hok with h | h
  · exact h.fd
  · exact (h.fdmon.1 hx).1

theorem wp_collectEvent {now : UInt64} {fd : Int} {e : UInt32} {Q : Unit → St → Prop} (h : Running m none s)
    (hb : b.adds = false) (hq : ∀ s', Running m none s' → Q () s') : Wp m b (collectEvent now fd e) Q s := by
  -- The cursor stands in `fdmon_list`, from which handles before it have been taken.
  let J : Option Ptr × Bool → St → Prop := fun i s₁ => Running m (if i.2 then some fd else none) s₁ ∧
    (i.2 = true → 0 ≤ fd) ∧ ∃ pre suf, s₁.lists .fdmon = pre ++ suf ∧ i.1 = suf.head?
  refine wp.seq (wp_ctx h.point h.alive (wp.seq ?_))
  refine wp_iterate J ⟨h, by simp, [], s.lists .fdmon, rfl, rfl⟩ ?_
  rintro ⟨q, hit⟩ s₁ ⟨h₁, hfd, pre, suf, hsplit, hq₁⟩
  cases suf with
  | nil =>
    simp only [List.head?_nil] at hq₁
    subst hq₁
    refine wp_pure ?_
    cases hit with
    | true => exact wp.seq (wp_refreshHit h₁ hb (hfd rfl) fun _ s₂ h₂ => wp_pure (hq s₂ h₂))
    | false => exact wp_pure (hq s₁ h₁)
  | cons x suf =>
    simp only [List.head?_cons] at hq₁
    subst hq₁
    have hx : x ∈ s₁.lists .fdmon := by simp [hsplit]
    have hxp : x ∉ pre := fun hp => (List.disjoint_of_nodup_append (hsplit ▸ h₁.point.nodup .fdmon)) hp (by simp)
    have hafter : after x (s₁.lists .fdmon) = suf.head? := by rw [hsplit, after_append hxp]
    obtain ⟨hd, hh⟩ := Option.isSome_iff_exists.1 ((h₁.point.sane x).live .fdmon hx)
    have hh' : s₁.heap x = some hd := hh
    refine wp.seq (wp_load h₁.point hh' (wp.seq (wp_next h₁.point h₁.alive hx ?_)))
    rw [hafter]
    have hskip : J (suf.head?, hit) s₁ := ⟨h₁, hfd, pre ++ [x], suf, by simp [hsplit], rfl⟩
    split
    · exact wp_pure hskip
    rename_i hfdx
    simp only [ne_eq, not_not] at hfdx
    split
    · exact wp_pure hskip
    refine wp_toReady h₁ hh' (.inl hx) fun s₂ h₂ hl₂ => wp_pure ⟨?_, fun _ => ?_, pre, suf, ?_, rfl⟩
    · refine h₁.due hh' (.inl hx) h₂.toMoved fun hc fd' hfd' hne => ?_
      have hne' : fd' ≠ hd.fd := by rintro rfl; exact hne (by simp [hfdx])
      have hold : s₁.interest fd' = s₁.want fd' := by
        refine h₁.mirror hc fd' hfd' ?_
        rw [← hfdx]
        split <;> simp [Ne.symm hne']
      rw [h₂.interest, hold]
      refine (h₂.touch.want h₁.point fun g => ?_).symm
      rw [h₂.view]
      refine iff_of_false (fun ha => ?_) (View.not_asks hh hne' g)
      simpa [View.ready_on (h₁.point.sane x) (.inl hx)] using ha.1
    · exact hfdx ▸ h₁.toCore.fd_nonneg hx hh'
    · rw [hl₂, hsplit, List.erase_append_right _ hxp, List.erase_cons_head]

theorem wp_collectEvents {now : UInt64} {evs : List (Int × UInt32)} {Q : Unit → St → Prop} (h : Running m none s)
    (hb : b.adds = false) (hq : ∀ s', Running m none s' → Q () s') : Wp m b (collectEvents now evs) Q s := by
  induction evs generalizing s with
  | nil => exact wp_pure (hq s h)
  | cons ev evs ih => exact wp.seq (wp_collectEvent h hb fun s₁ h₁ => ih h₁)

theorem wp_collectTimers {now : UInt64} {Q : Unit → St → Prop} (h : Running m none s) (hb : b.adds = false)
    (hq : ∀ s', Running m none s' → Q () s') : Wp m b (collectTimers now) Q s := by
  refine wp_iterate (fun _ s₁ => Running m none s₁) h fun _ s₁ h₁ => ?_
  refine wp.seq (wp_ctx h₁.point h₁.alive ?_)
  cases hl : s₁.lists .timer with
  | nil => exact wp_pure (hq s₁ h₁)
  | cons x xs =>
    have hx : (s₁.view x).on .timer := by simp [St.view, hl]
    obtain ⟨hd, hh⟩ := Option.isSome_iff_exists.1 ((h₁.point.sane x).live .timer hx)
    refine wp.seq (wp_load h₁.point hh ?_)
    split
    · exact wp_pure (hq s₁ h₁)
    · exact wp.seq (wp_handleToReady h₁ hb (.inr hx) fun s₂ h₂ => wp_pure h₂)

theorem wp_firstDeadline {Q : Option UInt64 → St → Prop} (hp : Point m s) (ha : s.alive = true) (hq : ∀ r, Q r s) :
    Wp m b firstDeadline Q s := by
  refine wp.seq (wp_ctx hp ha ?_)
  cases hl : s.lists .timer with
  | nil => exact wp_pure (hq none)
  | cons x xs =>
    have hx : (s.view x).on .timer := by simp [St.view, hl]
    obtain ⟨hd, hh⟩ := Option.isSome_iff_exists.1 ((hp.sane x).live .timer hx)
    exact wp.seq (wp_load hp hh (wp_pure (hq _)))

/-! ## Dispatching -/

/-- A handle linked into `fdmon_list` if it has a descriptor. -/
noncomputable def View.monitor (v : View) (fd : Int) : View := if 0 ≤ fd then v.join .fdmon else v

theorem View.monitor_on {fd : Int} (l : ListId) : (v.monitor fd).on l ↔ v.on l ∨ l = .fdmon ∧ 0 ≤ fd := by
  unfold View.monitor
  split
  · simp [*, or_comm]
  · simp [*]

theorem View.monitor_hd {fd : Int} : (v.monitor fd).hd = v.hd := by unfold View.monitor; split <;> rfl
theorem View.monitor_noti {fd : Int} : (v.monitor fd).noti = v.noti := by unfold View.monitor; split <;> rfl
theorem View.monitor_hist {fd : Int} : (v.monitor fd).hist = v.hist := by unfold View.monitor; split <;> rfl

theorem View.monitor_put {fd : Int} (hd : Handle) : (v.monitor fd).put hd = (v.put hd).monitor fd := by
  unfold View.monitor
  split <;> rfl

/-- A handle after it has been re-armed. -/
noncomputable def View.rearm (v : View) (x : Ptr) (hd : Handle) : View := ((v.put hd).monitor hd.fd).arm x hd

theorem View.rearm_hd : (v.rearm x hd).hd = some hd := by simp [View.rearm, View.arm_hd, View.monitor_hd]
theorem View.rearm_noti : (v.rearm x hd).noti = v.noti := by simp [View.rearm, View.arm_noti, View.monitor_noti]

theorem View.rearm_on (ho : ∀ l, ¬ v.on l) (l : ListId) :
    (v.rearm x hd).on l ↔ l = .fdmon ∧ 0 ≤ hd.fd ∨ l = .timer ∧ hd.timeoutAt ≠ uint64Max := by
  simp [View.rearm, View.arm_on, View.monitor_on, ho]

theorem View.rearm_any {p : Event → Bool} (hp : p (.armed x hd.timeoutAt) = false) :
    (v.rearm x hd).hist.any p = v.hist.any p := by
  rw [View.rearm, View.arm_any hp, View.monitor_hist, View.put_hist]

theorem View.rearm_moving (hm : moving v.hist = none) : moving (v.rearm x hd).hist = none :=
  View.arm_moving (by rw [View.monitor_hist]; exact hm)

theorem wp_rearm {Q : Unit → St → Prop} (h : At m x s₀ .free v s) (hp₀ : Point m s₀) (hv : v.hd = some hd)
    (hn : ¬ v.noti) (ho : ∀ l, ¬ v.on l) (hmov : moving v.hist = none) (ho₀ : ¬ (s₀.view x).on .fdmon)
    (hb : b.adds = false)
    (hq : ∀ now s', (m.sat ≠ .any → hd.fd < 0 → hd.flag2.oneshot = false →
        restartFrom hd.timeoutMs now ≠ uint64Max) →
      Moved m x s₀ .free (v.rearm x { hd with noti := 0, timeoutAt := restartFrom hd.timeoutMs now }) s' →
      (m.ctl = false → s₀.finalized = false → Mirror s₀ → Mirror s') → Q () s') : Wp m b (rearm x hd.fd) Q s := by
  have hsane := h.sane
  refine wp.seq (wp_store h hv fun s₁ h₁ => wp.seq ?_)
  -- Linked or not, the handle now looks as `View.monitor` says.
  suffices hrest : ∀ s₂, At m x s₀ .free ((v.put { hd with noti := 0 }).monitor hd.fd) s₂ →
      Wp m b (do evb2ArmTimer x; refreshFd hd.fd) Q s₂ by
    by_cases hfd : 0 ≤ hd.fd
    · rw [if_pos hfd]
      refine wp_insertTail h₁ (.inl rfl) rfl hn (fun a _ => ho a) (by simp) fun s₂ h₂ => hrest s₂ ?_
      rw [View.monitor, if_pos hfd]; exact h₂
    · rw [if_neg hfd]
      refine wp_pure (hrest s₁ ?_)
      rw [View.monitor, if_neg hfd]; exact h₁
  intro s₂ h₂
  have hhd : ((v.put { hd with noti := 0 }).monitor hd.fd).hd = some { hd with noti := 0 } := by
    rw [View.monitor_hd]; rfl
  refine wp.seq (wp_evb2ArmTimer h₂ hhd ?_ ?_ ?_ ?_ ?_ fun now s₃ hmay h₃ => ?_)
  · rw [View.monitor_noti]; exact hn
  · simp [View.monitor_on, ho]
  · simp [View.monitor_on, ho]
  · simp [View.monitor_on, ho]
  · rw [View.monitor_hist]; exact hmov
  rw [View.monitor_put] at h₃
  refine wp_refreshFd h₃ hp₀ (fun fd' hne g => ?_) fun s₄ h₄ _ hm₄ =>
    hq now s₄ (fun hm hneg hone => ?_) h₄ fun hc hf hmir => ?_
  · set hd' : Handle := { hd with noti := 0, timeoutAt := restartFrom hd.timeoutMs now }
    have hhd' : (((v.put hd').monitor hd.fd).arm x hd').hd = some hd' := by rw [View.arm_hd, View.monitor_hd]; rfl
    exact iff_of_false (View.not_asks hhd' hne g) (fun ha => ho₀ ha.1)
  · rcases hmay with ht | ht | ⟨hd', hhd', ht⟩
    · exact ht
    · exact absurd ht hm
    · obtain rfl := Option.some.inj (hhd.symm.trans hhd')
      rcases ht with ht | ⟨-, ht⟩
      · exact absurd ht (not_le.2 hneg)
      · rw [View.monitor_noti] at ht
        simp [View.monitor_on, ho, hn, hone] at ht
  · exact hm₄ hc hb hf fun fd' h1 _ => hmir fd' h1

theorem View.Sane.only_ready (hs : v.Sane) (ho : v.on .ready) (l : ListId) (hl : v.on l) : l = .ready := by
  by_cases hlt : l = .timer
  · subst hlt; exact absurd ho (hs.timer hl).1
  · exact hs.link l .ready hlt (by simp) hl ho

/-- A handle while its callback runs. -/
theorem UserOk.dispatched (h : UserOk m x hd v) (hv : v.hd = some hd) (hs : v.Sane) (ho : v.on .ready) (stop : Bool) :
    Ok m x (((v.off .ready).notify True).record
      (.dispatch x hd.fd hd.noti hd.userData hd.flag2.oneshot stop)) := by
  have hoff : ∀ l, ¬ (v.off .ready).on l := fun l hl =>
    ((View.off_on _ _ _).1 hl).1 (hs.only_ready ho l ((View.off_on _ _ _).1 hl).2)
  have hn : ¬ v.noti := not_noti_of_on hs ho
  have hc := h.linked ho
  have hdead := h.not_dead hn
  have hrel := h.not_released hn hc
  refine ⟨rfl, ?_⟩
  simp only [View.record_hd, View.notify_hd, View.off_hd, hv]
  refine .inr ⟨h.name, ?_, h.cb, h.fd, h.internal, ?_, ?_, ?_, ?_, fun _ => trivial, ?_, ?_, ?_⟩
  · simp [h.added]
  · exact iff_of_false (hoff .fdmon) (fun h => h.2 (.inr (.inr (.inl trivial))))
  · exact iff_of_false (hoff .timer) (fun h => h.2 (.inr (.inr (.inl trivial))))
  · simp [hc, Event.isCancelled]
  · exact fun ha => absurd ha (hoff .async)
  · simp [hc, hrel, hdead, Event.isCancelled, Event.releases]
  · exact fun _ hb => absurd (.inr (.inr (.inl trivial))) hb
  · simp [h.dropped, Event.drops]

/-- A persistent handle back in its place. -/
theorem UserOk.restarted {hd' : Handle} (h : UserOk m x hd v) (hs : v.Sane) (hn : v.noti) (hdead : hd.flag2.dead = false)
    (hone : hd.flag2.oneshot = false) (hk : hd.SameKind hd') (hdead' : hd'.flag2.dead = hd.flag2.dead)
    (ht : m.sat ≠ .any → hd.fd < 0 → hd'.timeoutAt ≠ uint64Max) : UserOk m x hd' ((v.notify False).rearm x hd') := by
  obtain ⟨hcb, hfd, -, hone', hint⟩ := hk
  have hon : ∀ l, ((v.notify False).rearm x hd').on l ↔ l = .fdmon ∧ 0 ≤ hd'.fd ∨ l = .timer ∧ hd'.timeoutAt ≠ uint64Max :=
    View.rearm_on (hs.noti hn)
  have hany : ∀ p : Event → Bool, p (.armed x hd'.timeoutAt) = false →
      ((v.notify False).rearm x hd').hist.any p = v.hist.any p := fun p hp => View.rearm_any hp
  have hc : v.hist.any Event.isCancelled = false := by
    by_contra hc
    exact (h.notified (by simpa using hc)).1 hn
  have hno : ¬ ((v.notify False).rearm x hd').noti := by rw [View.rearm_noti]; exact id
  have hb : ¬ ((v.notify False).rearm x hd').Busy := by
    rintro (h1 | h1 | h1 | h1)
    · simp [hon] at h1
    · simp [hon] at h1
    · exact hno h1
    · rw [hany _ rfl] at h1
      simp [hc] at h1
  refine ⟨h.name, ?_, ?_, ?_, ?_, ?_, ?_, ?_, ?_, ?_, ?_, ?_, ?_⟩
  · rw [hany _ rfl]; exact h.added
  · rw [hcb]; exact h.cb
  · rw [hfd]; exact h.fd
  · rw [hint]; exact h.internal
  · simp [hon, hb]
  · simp [hon, hb]
  · rw [hany _ rfl]; simp [hc]
  · simp [hon]
  · rw [hdead', hdead]; simp
  · rw [hany _ rfl, hany _ rfl, hone', hdead', h.released]
    simp [hc, hone, hdead]
  · rw [hfd]; exact fun hm _ => ht hm
  · rw [hany _ rfl]; exact h.dropped

/-- The wake pipe's handle back in its place. -/
theorem WakeOk.restarted {t : UInt64} (h : WakeOk x hd v) (hs : v.Sane) (hn : v.noti) (ht : t = uint64Max) :
    WakeOk x { hd with noti := 0, timeoutAt := t } ((v.notify False).rearm x { hd with noti := 0, timeoutAt := t }) := by
  have hon : ∀ l, ((v.notify False).rearm x { hd with noti := 0, timeoutAt := t }).on l ↔
      l = .fdmon ∧ 0 ≤ hd.fd ∨ l = .timer ∧ t ≠ uint64Max := View.rearm_on (hs.noti hn)
  refine ⟨h.name, h.cb, h.fd, h.flag, h.timeoutMs, h.flag2, ?_, ?_, ?_⟩
  · rw [View.rearm, View.arm, if_pos ht, View.monitor_hist]; exact h.hist
  · rw [hon]; simp [ht]
  · simp [hon, View.rearm_noti, h.fd]

/-- The rest of the round, from the state `s₂` in which the callback returned. -/
theorem wp_afterCallback {s₂ : St} {hd' : Handle} {cnt : Int} {Q : Int → St → Prop} (h : At m x s₂ .free v s)
    (hc : Core m s₂) (hrun : s₂.inRun = true) (hopen : s₂.finalized = false) (hwk : Wake s₂)
    (hq₂ : ∀ k, k ≠ x → (s₂.view k).Quiet) (hmir : m.ctl = false → Mirror s₂) (hb : b.adds = false)
    (hn₂ : (s₂.view x).noti) (hn : v.noti) (hv : v.hd = some hd') (hfd : hd'.fd = hd.fd) (hmov : moving v.hist = none)
    (hcan : v.hist.any Event.isCancelled = false)
    (hw : x = wake → hd'.flag2.dead = false ∧ hd.flag2.oneshot = false ∧ hd'.fd = s₂.asyncPipe0)
    (hfree : s₂.stopping = true ∨ hd'.flag2.dead = true ∨ hd.flag2.oneshot = true → Ok m x ((v.notify False).free x))
    (hre : s₂.stopping = false → hd'.flag2.dead = false → hd.flag2.oneshot = false → ∀ now,
      (m.sat ≠ .any → hd'.fd < 0 → hd'.flag2.oneshot = false → restartFrom hd'.timeoutMs now ≠ uint64Max) →
      Ok m x ((v.notify False).rearm x { hd' with noti := 0, timeoutAt := restartFrom hd'.timeoutMs now }))
    (hq : ∀ r s', Running m none s' → Q r s') : Wp m b (afterCallback x hd cnt) Q s := by
  have ho : ∀ l, ¬ v.on l := h.sane.noti hn
  have ho₂ : ∀ l, ¬ (s₂.view x).on l := (hc.point.sane x).noti hn₂
  refine wp.seq (wp_unnotify h hn fun s₃ h₃ _ => wp.seq (wp_load h₃.point (h₃.heap.trans hv) ?_))
  refine wp.seq (wp_ctx h₃.point h₃.alive ?_)
  rw [h₃.touch.stopping]
  split
  · rename_i hcase
    refine wp.seq (wp_free h₃ (by simp [hv]) id ho hmov fun s₄ h₄ => wp_pure (hq _ s₄ ?_))
    refine h₄.toMoved.running hc hrun hopen hwk hq₂ (hfree hcase) (fun hx => ⟨?_, fun hs => ?_⟩) ⟨id, ?_⟩ fun hctl => ?_
    · rintro _ ⟨⟩
    · obtain ⟨h1, h2, -⟩ := hw hx
      simp [hs, h1, h2] at hcase
    · simp [View.Notified]
    · refine (h₄.mirror hc.point (fun fd g => ?_) (hmir hctl)).but none
      exact iff_of_false (fun ha => ho _ ha.1) (fun ha => ho₂ _ ha.1)
  · rename_i hcase
    simp only [not_or, Bool.not_eq_true] at hcase
    obtain ⟨hstop, hdead, hone⟩ := hcase
    rw [← hfd]
    refine wp.seq (wp_rearm h₃ hc.point hv id ho hmov (ho₂ _) hb fun now s₄ hmay h₄ hm₄ => wp_pure (hq _ s₄ ?_))
    refine h₄.running hc hrun hopen hwk hq₂ (hre hstop hdead hone now hmay) (fun hx => ⟨?_, fun _ => ?_⟩) ⟨?_, ?_⟩
      fun hctl => (hm₄ hctl hopen (hmir hctl)).but none
    · rw [View.rearm_hd]
      rintro _ ⟨⟩
      exact (hw hx).2.2
    · rw [View.rearm_hd]; rfl
    · rw [View.rearm_noti]; exact id
    · intro hnot
      have := hnot.2
      rw [View.rearm_any rfl] at this
      simp [hcan] at this

theorem Touch.quiet {k : Nat} (ht : Touch m x s s') (hp : Point m s) (hk : k ≠ x) (h : (s.view k).Quiet) :
    (s'.view k).Quiet := by
  rcases ht.cases hp hk with he | ⟨-, -, -, hq⟩
  · rw [he]; exact h
  · exact hq.quiet

/-- The callback of a user's handle has returned. It may have cancelled the handle or
stopped the context. -/
theorem wp_returned {hd' : Handle} {cnt : Int} {Q : Int → St → Prop} (hu : AtUser m s) (ha : s.alive = true)
    (hrun : s.inRun = true) (hopen : s.finalized = false) (hx : x ≠ wake) (hn : s.notifying = some x)
    (hh : s.heap x = some hd') (hkind : hd.SameKind hd') (hquiet : ∀ k, k ≠ x → (s.view k).Quiet)
    (hres : (!s.stopping || m.drop || s.notifying.all fun h => !registered s.log h) = true) (hb : b.adds = false)
    (hq : ∀ r s', Running m none s' → Q r s') :
    Wp m b (do emit (.returned x (← ctx).stopping)) (fun _ => Wp m b (afterCallback x hd cnt) Q) s := by
  obtain ⟨-, hfd, -, hone, -⟩ := hkind
  have hv : (s.view x).hd = some hd' := hh
  obtain ⟨hmov, hok⟩ := hu.ok x
  rw [hv] at hok
  replace hok : UserOk m x hd' (s.view x) := hok.resolve_left fun hw => hx hw.name
  have hcan : (s.view x).hist.any Event.isCancelled = false := by
    by_contra hc
    exact (hok.notified (by simpa using hc)).1 hn
  have h₀ : At m x s .free (s.view x) s := .start hu.point ha (by simpa using hu.unlocked)
  refine wp.seq (wp_ctx hu.point ha ?_)
  refine wp_emit h₀ (.inl (by simp [hv])) rfl (fun t ht => ?_) (fun _ _ => trivial) rfl rfl rfl fun s₁ h₁ => ?_
  · rw [hmov] at ht; cases ht
  refine wp_afterCallback h₁ hu.toCore hrun hopen (hu.woken hopen ?_) hquiet (fun hc => hu.mirror hc hopen) hb hn hn hv hfd
    rfl ?_ (fun hw => absurd hw hx) (fun hcase => ⟨rfl, fun _ => ?_⟩)
    (fun hstop hdead hnot now hmay => ⟨View.rearm_moving rfl, ?_⟩) hq
  · rw [hn]; simpa using hx
  · simp [hcan, Event.isCancelled]
  · by_cases hr : (s.view x).hist.any Event.releases = true
    · exact .inl (by simp [hr])
    refine .inr ?_
    have hnr := fun hc => hr (hok.released.2 (.inr ⟨hn, hc⟩))
    have hstop : s.stopping = true := by
      rcases hcase with hc | hc | hc
      · exact hc
      · exact absurd (.inr hc) hnr
      · exact absurd (.inl (hone.trans hc)) hnr
    refine ⟨?_, by simp [hstop, Event.drops]⟩
    -- Without the drop, the handle was not registered any more.
    have hreg : registered s.log x = true := by
      simp only [registered, valid, Bool.and_eq_true, Bool.not_eq_true']
      exact ⟨⟨hok.added, Bool.eq_false_iff.2 hr⟩, hok.dropped⟩
    simpa [hstop, hn, hreg] using hres
  · rw [View.rearm_hd]
    refine .inr (UserOk.restarted ?_ h₁.sane hn hdead (hone.trans hnot) ⟨rfl, rfl, rfl, rfl, rfl⟩ rfl fun hm hneg => ?_)
    · exact hok.record rfl rfl (by simp [Event.drops, hstop])
    · exact hmay hm hneg (hone.trans hnot)

/-- The callback of a user's handle and what follows. -/
theorem wp_dispatchUser {s₁ : St} {cnt : Int} {Q : Int → St → Prop} (h : Running m none s) (hb : b.adds = false)
    (hh : s.heap x = some hd) (ho : (s.view x).on .ready) (hok : UserOk m x hd (s.view x))
    (h₁ : At m x s .free (((s.view x).off .ready).notify True) s₁) (hq : ∀ r s', Running m none s' → Q r s') :
    Wp m b (do invoke x hd; afterCallback x hd cnt) Q s₁ := by
  obtain ⟨f, hcb⟩ := hok.cb
  have hv : (s.view x).hd = some hd := hh
  have hsane := h.point.sane x
  have hrel := hok.not_released (h.quiet x).1 (hok.linked ho)
  have hfreed : (s.view x).hist.any Event.isFreed = false := by
    by_contra hf
    have := hsane.freed (by simpa using hf)
    rw [hv] at this
    cases this
  refine wp.seq ?_
  simp only [invoke, hcb]
  refine wp.seq (wp_ctx h₁.point h₁.alive (wp.seq ?_))
  refine wp_emit h₁ (.inl (by simp [hv])) rfl (fun t ht => ?_) (fun env hm => ?_) rfl rfl rfl fun s₂ h₂ => wp.seq ?_
  · cases (h.ok x).1.symm.trans ht
  · refine ⟨hrel, hfreed, h₁.point.ctx.1 h₁.alive, h₁.point.stop.2, fun hl => ?_⟩
    have hm' : (m.late || !(hd.flag2.oneshot && s₁.stopping)) = true := hm
    rw [hl, Bool.false_or, Bool.not_eq_true'] at hm'
    exact hm'
  have hask : ∀ fd g, ¬ (s.view x).Asks fd g := fun fd g ha => by cases hsane.only_ready ho _ ha.1
  have hs₂ : Stable m .free s₂ := by
    refine h₂.toMoved.stable h.stable (hok.dispatched hh hsane ho s₁.stopping) (fun hx => absurd hx hok.name)
      (fun hr => absurd (h.run.symm.trans hr) (by simp)) fun hc hf => ?_
    refine h₂.mirror h.point (fun fd g => iff_of_false (fun ha => ?_) (hask fd g)) (h.mirror hc).all
    have hoff : ((s.view x).off .ready).on .fdmon := ha.1
    exact hask fd g ⟨((View.off_on _ _ _).1 hoff).2, ha.2⟩
  have hrun₂ : s₂.inRun = true := h₂.touch.inRun.trans h.run
  have hn₂ : s₂.notifying = some x := by
    have : (s₂.view x).noti := by rw [h₂.view]; trivial
    exact this
  refine wp_callback (hs₂.atUser (by simp)) fun s₃ hk hu₃ hres => ?_
  have hn₃ : s₃.notifying = some x := (hk.run hrun₂).2.trans hn₂
  have hopen₃ : s₃.finalized = false := (hk.finalized hrun₂).trans (h₂.touch.finalized.trans h.opens)
  have halive₃ : s₃.alive = true := (hk.alive hrun₂).trans h₂.alive
  obtain ⟨hd', hh', hkind⟩ := hk.noti hrun₂ x hd hn₂ (h₂.heap.trans hv)
  refine wp_returned hu₃ halive₃ (hk.inRun hrun₂) hopen₃ hok.name hn₃ hh' hkind (fun k hkx => ⟨fun hnk => ?_, fun hnk => ?_⟩)
    hres hb hq
  · exact hkx (Option.some.inj (hn₃.symm.trans hnk)).symm
  · exact (h₂.touch.quiet h.point hkx (h.quiet k)).2 (hk.settled k (by simp) hnk)

/-- `drain_pipe` while the wake pipe's handler runs. -/
theorem wp_drainPipe {Q : Unit → St → Prop} (hs : Stable m .free s) (hrun : s.inRun = true) (hn : s.notifying = some wake)
    (hq : ∀ s', Stable m .free s' → Keeps none s s' → Q () s') : Wp m b drainPipe Q s := by
  refine wp_iterate (fun _ s₁ => Stable m .free s₁ ∧ Keeps none s s₁) ⟨hs, .refl none s⟩ ?_
  rintro _ s₁ ⟨hs₁, hk₁⟩
  refine wp.seq (wp_act_yield rfl fun s₂ hi => ⟨trivial, fun e _ => .inr ⟨_, _, rfl, ?_⟩⟩)
  obtain ⟨hs₂, hk₂⟩ := hs₁.interf hi
  have hn₂ : s₂.notifying = some wake := (hi.notifying.trans (hk₁.run hrun).2).trans hn
  set n := min 64 s₂.pipe
  have hp : Point m { s₂ with pipe := s₂.pipe - n } := hs₂.point.sync (k := s₂.asyncLock) hs₂.point.lock hs₂.point.proper
  have hs₃ : Stable m .free { s₂ with pipe := s₂.pipe - n } :=
    ⟨hs₂.toCore.sync hp, hs₂.alive, hs₂.loop, fun _ h => absurd hn₂ h, hs₂.mirror⟩
  have hk₃ : Keeps none s { s₂ with pipe := s₂.pipe - n } := (hk₁.trans hk₂).trans (.sync none s₂)
  refine ⟨hp, ?_⟩
  split
  · exact wp_pure ⟨hs₃, hk₃⟩
  · exact wp_pure (hq _ hs₃ hk₃)

theorem wp_asyncHandler {flag : UInt32} {Q : Unit → St → Prop} (hs : Stable m .free s) (hrun : s.inRun = true)
    (hopen : s.finalized = false) (hn : s.notifying = some wake) (hw : Wake s)
    (hq : ∀ s', Stable m .free s' → Keeps none s s' → Wake s' → Q () s') : Wp m b (asyncHandler flag) Q s := by
  unfold asyncHandler
  split
  · exact wp_pure (hq s hs (.refl none s) hw)
  refine wp.seq (wp_drainPipe hs hrun hn fun s₁ hs₁ hk₁ => ?_)
  refine wp_evb2InstallAsync hs₁ (hk₁.inRun hrun) fun s₂ hs₂ hk₂ hw₂ => ?_
  exact hq s₂ hs₂ (hk₁.trans hk₂) (hw₂ ((hk₁.finalized hrun).trans hopen))

/-- The wake pipe's handler and what follows. -/
theorem wp_dispatchWake {s₁ : St} {cnt : Int} {Q : Int → St → Prop} (h : Running m none s) (hb : b.adds = false)
    (hh : s.heap wake = some hd) (ho : (s.view wake).on .ready) (hok : WakeOk wake hd (s.view wake))
    (h₁ : At m wake s .free (((s.view wake).off .ready).notify True) s₁) (hq : ∀ r s', Running m none s' → Q r s') :
    Wp m b (do invoke wake hd; afterCallback wake hd cnt) Q s₁ := by
  have hv : (s.view wake).hd = some hd := hh
  have hsane := h.point.sane wake
  have hask : ∀ fd g, ¬ (s.view wake).Asks fd g := fun fd g ha => by cases hsane.only_ready ho _ ha.1
  have hmoved : ¬ ((s.view wake).off .ready).on .fdmon := fun hf => by
    cases hsane.only_ready ho _ ((View.off_on _ _ _).1 hf).2
  have hok₁ : WakeOk wake hd (((s.view wake).off .ready).notify True) := by
    refine ⟨rfl, hok.cb, hok.fd, hok.flag, hok.timeoutMs, hok.flag2, hok.hist, fun ht => ?_, ?_⟩
    · have hoff : ((s.view wake).off .ready).on .timer := ht
      exact hok.timer ((View.off_on _ _ _).1 hoff).2
    · exact iff_of_false hmoved (fun h => h.2 trivial)
  have hs₁ : Stable m .free s₁ := by
    refine h₁.toMoved.stable h.stable ⟨(h.ok wake).1, ?_⟩ (fun _ => ⟨fun hd' hhd' => ?_, fun _ => ?_, fun _ => trivial⟩)
      (fun hr => absurd (h.run.symm.trans hr) (by simp)) fun hc hf => ?_
    · simp only [View.notify_hd, View.off_hd, hv]
      exact .inl hok₁
    · exact h.wakeFd hd' hhd'
    · simp [hv]
    · refine h₁.mirror h.point (fun fd g => iff_of_false (fun ha => hmoved ha.1) (hask fd g)) (h.mirror hc).all
  have hn₁ : s₁.notifying = some wake := by
    have : (s₁.view wake).noti := by rw [h₁.view]; trivial
    exact this
  have hrun₁ := h₁.touch.inRun.trans h.run
  have hopen₁ := h₁.touch.finalized.trans h.opens
  refine wp.seq ?_
  simp only [invoke, hok.cb]
  refine wp_asyncHandler hs₁ hrun₁ hopen₁ hn₁ (h₁.woken h.opens h.woken) fun s₂ hs₂ hk hw₂ => ?_
  have hopen₂ := (hk.finalized hrun₁).trans hopen₁
  have hv₂ : s₂.view wake = ((s.view wake).off .ready).notify True := (hk.wakeView hrun₁ (by simp)).trans h₁.view
  have h₂ : At m wake s₂ .free (((s.view wake).off .ready).notify True) s₂ := hv₂ ▸ hs₂.at wake
  refine wp_afterCallback h₂ hs₂.toCore (hk.inRun hrun₁) hopen₂ hw₂ (fun k hkx => ⟨fun hnk => ?_, fun hnk => ?_⟩)
    (fun hc => hs₂.mirror hc hopen₂) hb (by rw [hv₂]; trivial) trivial hv rfl (h.ok wake).1 ?_ (fun _ => ⟨?_, ?_, ?_⟩)
    (fun _ => ⟨rfl, ?_⟩) (fun _ _ _ now _ => ⟨View.rearm_moving (h.ok wake).1, ?_⟩) hq
  · have : s₂.notifying = some wake := (hk.run hrun₁).2.trans hn₁
    exact hkx (Option.some.inj (this.symm.trans hnk)).symm
  · exact (h₁.touch.quiet h.point hkx (h.quiet k)).2 (hk.settled k (by simp) hnk)
  · simp [hok.hist]
  · rw [hok.flag2]
  · rw [hok.flag2]
  · exact hs₂.wakeFd hd (h₂.heap.trans hv)
  · simp [hok.hist, Event.isAdded]
  · rw [View.rearm_hd]
    refine .inl (hok₁.restarted h₂.sane trivial ?_)
    rw [hok.timeoutMs]
    simp [restartFrom, timeoutFrom, infinite, uint64Max]

theorem wp_dispatchReady {Q : Int → St → Prop} (h : Running m none s) (hb : b.adds = false)
    (hq : ∀ r s', Running m none s' → s'.lists .ready = [] → Q r s') : Wp m b dispatchReady Q s := by
  refine wp_iterate (fun _ s₁ => Running m none s₁) h fun cnt s₁ h₁ => ?_
  refine wp.seq (wp_popReady h₁.point h₁.alive h₁.unlocked (fun hnil => ?_) fun x s₂ ho h₂ => ?_)
  · exact wp_pure (hq cnt s₁ h₁ hnil)
  have hsane := h₁.point.sane x
  obtain ⟨hd, hh⟩ := Option.isSome_iff_exists.1 (hsane.live _ ho)
  have hoff : ∀ l, ¬ ((s₁.view x).off .ready).on l := fun l hl =>
    ((View.off_on _ _ _).1 hl).1 (hsane.only_ready ho l ((View.off_on _ _ _).1 hl).2)
  have hn₂ : s₂.notifying = none := (h₂.notifying h₁.point Iff.rfl).trans h₁.notifying
  refine wp.seq (wp_load h₂.point (h₂.heap.trans hh) (wp.seq ?_))
  refine wp_notify h₂ (by simp [hh]) hoff hn₂ fun s₃ h₃ _ => ?_
  suffices hrest : Wp m b (do invoke x hd; afterCallback x hd cnt) (fun _ s' => Running m none s') s₃ from
    wp.seq (wp_mono (wp_bind.1 hrest) fun _ _ h₄ => wp.seq (wp_mono h₄ fun _ _ h₅ => wp_pure h₅))
  obtain ⟨-, hok⟩ := h₁.ok x
  rw [hh] at hok
  rcases hok with hok | hok
  · obtain rfl := hok.name
    exact wp_dispatchWake h₁ hb hh ho hok h₃ fun _ _ h₄ => h₄
  · exact wp_dispatchUser h₁ hb hh ho hok h₃ fun _ _ h₄ => h₄

/-! ## Entering and leaving -/

/-- The end of a pass: the context is left idle, or freed if it was destroyed meanwhile. -/
theorem wp_evb2RunLeave {rc : Int} {Q : Int → St → Prop} (h : Running m none s) (hr : s.lists .ready = [])
    (hq : ∀ r s', AtUser m s' → (s'.alive = true → s'.inRun = false) → (∀ x, ¬ (s'.view x).Notified) → Q r s') :
    Wp m b (evb2RunLeave rc) Q s := by
  refine wp.seq (wp_ctx h.point h.alive ?_)
  by_cases hs : s.stopping = false
  · rw [if_pos hs]
    have hp : Point m { s with inRun := false } :=
      ⟨h.point.nodup, h.point.sane, h.point.fresh, h.point.wake_lt, h.point.log, h.point.ctx, h.point.stop,
        h.point.lock, h.point.proper, h.point.opened, h.point.cap⟩
    have hcalm : ∀ x, (s.view x).Calm := fun x => by
      refine ⟨fun hx => ?_, (h.quiet x).1, fun hsome => ?_⟩
      · have hx' : x ∈ s.lists .ready := hx
        rw [hr] at hx'
        cases hx'
      · by_contra hc
        exact (h.quiet x).2 ⟨hsome, by simpa using hc⟩
    refine wp.seq (wp_act rfl trivial fun e _ => ⟨(), { s with inRun := false }, need_ok h.alive, hp, wp_pure ?_⟩)
    refine hq rc _ ⟨⟨hp, h.ok, h.fin, h.wakeFd, h.wakeLive, fun _ _ => ⟨hs, hcalm⟩, h.dead⟩, h.unlocked, fun _ _ => h.woken,
      fun hc _ => (h.mirror hc).all⟩ (fun _ => rfl) fun x => (h.quiet x).2
  · rw [if_neg hs]
    have hl : Leaving m .free s := ⟨h.stable, h.run, by simpa using hs, h.notifying, fun x => (h.quiet x).2⟩
    refine wp.seq (wp_evb2Free hl h.opens fun s₁ hu ha _ hset => wp_pure ?_)
    exact hq _ s₁ hu (fun h' => absurd (ha.symm.trans h') (by simp)) hset

theorem foldl_or_and {fs : List UInt32} {a g : UInt32} (h : g ∈ fs ∨ a &&& g = g) :
    (fs.foldl (· ||| ·) a) &&& g = g := by
  induction fs generalizing a with
  | nil => exact h.resolve_left (by simp)
  | cons c fs ih =>
    refine ih ?_
    rcases h with h | h
    · rcases List.mem_cons.1 h with rfl | h
      · refine .inr (UInt32.toNat_inj.1 (Nat.eq_of_testBit_eq fun i => ?_))
        simp only [UInt32.toNat_and, UInt32.toNat_or, Nat.testBit_and, Nat.testBit_or]
        cases g.toNat.testBit i <;> simp
      · exact .inl h
    · refine .inr (UInt32.toNat_inj.1 (Nat.eq_of_testBit_eq fun i => ?_))
      have hi := congrArg (fun n : UInt32 => n.toNat.testBit i) h
      simp only [UInt32.toNat_and, UInt32.toNat_or, Nat.testBit_and, Nat.testBit_or] at hi ⊢
      rw [Bool.and_or_distrib_right, hi]
      cases g.toNat.testBit i <;> simp

theorem toEpoll_read {f : UInt32} (h : f &&& flagRead = flagRead) : toEpoll f &&& epollIn ≠ 0 := by
  have hr : f &&& flagRead ≠ 0 := by rw [h]; decide
  unfold toEpoll
  rw [if_pos hr]
  split <;> split <;> decide

/-- The kernel watches the wake pipe while its handle is monitored. -/
theorem Running.mayWait (h : Running m none s) (hw : (s.view wake).on .fdmon) : MayWait m s := by
  refine ⟨h.woken, fun hc => ?_⟩
  obtain ⟨hd, hh⟩ := Option.isSome_iff_exists.1 ((h.point.sane wake).live _ hw)
  obtain ⟨-, hok⟩ := h.ok wake
  rw [hh] at hok
  replace hok := hok.resolve_right fun hu => hu.name rfl
  have hfd := h.wakeFd hd hh
  have hmem : flagRead ∈ s.flagsOn s.asyncPipe0 := by
    simp only [St.flagsOn, List.mem_map, List.mem_filter]
    refine ⟨wake, ⟨hw, ?_⟩, ?_⟩
    · simp [show s.heap wake = some hd from hh, hfd]
    · simp [show s.heap wake = some hd from hh, hok.flag]
  have hne : s.flagsOn s.asyncPipe0 ≠ [] := fun hnil => by simp [hnil] at hmem
  refine ⟨toEpoll ((s.flagsOn s.asyncPipe0).foldl (· ||| ·) 0), ?_, toEpoll_read (foldl_or_and (.inl hmem))⟩
  rw [(h.mirror hc) _ (h.point.opened h.opens).2.1 (by simp), St.want, if_neg hne]

theorem Core.wake_monitored (hc : Core m s) (hs : s.stopping = false) (hr : ¬ (s.view wake).on .ready)
    (hn : ¬ (s.view wake).noti) : (s.view wake).on .fdmon := by
  obtain ⟨hd, hh⟩ := Option.isSome_iff_exists.1 (hc.wakeLive hs)
  obtain ⟨-, hok⟩ := hc.ok wake
  rw [show (s.view wake).hd = some hd from hh] at hok
  exact (hok.resolve_right fun hu => hu.name rfl).fdmon.2 ⟨hr, hn⟩

/-- Entering the loop. -/
theorem AtUser.enter (hu : AtUser m s) (ha : s.alive = true) (hf : s.finalized = false) (hr : s.inRun = false) :
    Running m none { s with inRun := true } := by
  obtain ⟨hstop, hcalm⟩ := hu.idle ha hr
  have hn : s.notifying ≠ some wake := (hcalm wake).2.1
  have hp : Point m { s with inRun := true } :=
    ⟨hu.point.nodup, hu.point.sane, hu.point.fresh, hu.point.wake_lt, hu.point.log, hu.point.ctx, hu.point.stop,
      hu.point.lock, hu.point.proper, hu.point.opened, hu.point.cap⟩
  refine ⟨⟨hp, hu.ok, hu.fin, hu.wakeFd, hu.wakeLive, fun _ h => absurd h (by simp), hu.dead⟩, ha, hu.unlocked,
    hu.woken hf hn, rfl, hf, fun x => ⟨(hcalm x).2.1, fun hx => ?_⟩, fun hc => (hu.mirror hc hf).but none⟩
  exact absurd (((hcalm x).2.2 hx.1).symm.trans hx.2) (by simp)

theorem wp_aloeEvb2RunOnce {ms : UInt64} {Q : Int → St → Prop} (hu : AtUser m s) (ha : s.alive = true)
    (hb : b.adds = false) (hq : ∀ r s', AtUser m s' → Keeps none s s' → Q r s') :
    Wp m b (aloeEvb2RunOnce ms) Q s := by
  refine wp.seq (wp_ctx hu.point ha ?_)
  split
  · exact wp_pure (hq _ s hu (.refl none s))
  rename_i hcond
  simp only [not_or, Bool.not_eq_true] at hcond
  obtain ⟨hstop, hfin, hrun, -⟩ := hcond
  obtain ⟨-, hcalm⟩ := hu.idle ha hrun
  have h₁ := hu.enter ha hfin hrun
  have hw₁ : (s.view wake).on .fdmon := hu.toCore.wake_monitored hstop (hcalm wake).1 (hcalm wake).2.1
  have hq' : ∀ r s', AtUser m s' → (s'.alive = true → s'.inRun = false) → (∀ x, ¬ (s'.view x).Notified) → Q r s' :=
    fun r s' hu' hr' hset => hq r s' hu' (.of_idle hu ha hrun hr' hset)
  refine wp.seq (wp_act rfl trivial fun e _ => ⟨(), { s with inRun := true }, need_ok ha, h₁.point, ?_⟩)
  refine wp.seq (wp_evb2InstallAsync h₁.stable h₁.run fun s₂ hs₂ hk₂ _ => ?_)
  have h₂ := h₁.after hs₂ hk₂
  refine wp.seq (wp_now h₂.point fun now => wp.seq (wp_firstDeadline h₂.point h₂.alive fun first => wp.seq ?_))
  refine wp_act_yield rfl fun s₃ hi => ?_
  obtain ⟨hs₃, hk₃⟩ := hs₂.interf hi
  have h₃ := h₂.after hs₃ hk₃
  have hk := hk₂.trans hk₃
  have hw₃ : (s₃.view wake).on .fdmon := by
    rw [hk.wakeView rfl (by simp)]; exact hw₁
  -- Nothing is ready while the loop waits.
  have hready : s₃.lists .ready = [] := by
    refine List.eq_nil_iff_forall_not_mem.2 fun x hx => (hcalm x).1 ?_
    exact hk.shrink .ready (.inr ⟨rfl, rfl⟩) x (by simp) hx
  refine ⟨h₃.mayWait hw₃, fun e _ => .inr ⟨_, s₃, rfl, h₃.point, ?_⟩⟩
  cases e.wait with
  | eintr => exact wp_evb2RunLeave h₃ hready hq'
  | error => exact wp_evb2RunLeave h₃ hready hq'
  | events evs =>
    refine wp.seq (wp_now h₃.point fun now => wp.seq (wp_collectEvents h₃ hb fun s₄ h₄ => ?_))
    refine wp.seq (wp_collectTimers h₄ hb fun s₅ h₅ => wp.seq (wp_dispatchReady h₅ hb fun cnt s₆ h₆ hr₆ => ?_))
    exact wp_evb2RunLeave h₆ hr₆ hq'

end Loop

end AlgaeBp.Evb2
