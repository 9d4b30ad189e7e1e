import AlgaeBp.Evb2.Unnoticed
/-!
# The calls between passes

What user code does outside the loop and in callbacks: all calls but
`aloe_evb2_run_once` meet their part of `passes`. Deadlines are written in three
places, by the add functions to handles that are not on `timer_list` yet, and by
`aloe_evb2_set_timeout`, which puts the list in order again.
-/
open Reentrant

namespace AlgaeBp.Evb2

section Tame
variable {k : Prop} {h : Ptr} {fd : Int}

/-- Bringing the kernel's interest in a descriptor up to date only reads the lists. -/
def Passive {α : Type} (p : Code α) : Prop := p.Only (fun o => o.passive = true) False

theorem passive_scanFd (qs : List Ptr) (ev : UInt32) (found : Bool) : Passive (scanFd fd qs ev found) := by
  induction qs generalizing ev found with
  | nil => exact .pure _
  | cons q qs ih => exact .bind (.act rfl) fun hd => .ite (fun _ => ih _ _) (fun _ => ih _ _)

theorem passive_epollRefresh : Passive (epollRefresh fd) := by
  refine .bind (.act rfl) fun evb => .ite (fun _ => .pure _) fun _ => .ite (fun _ => .pure _) fun _ =>
    .bind (passive_scanFd _ _ _) fun r => ?_
  obtain ⟨ev, found⟩ := r
  refine .ite (fun _ => ?_) (fun _ => ?_)
  · refine .bind (.act rfl) fun r => ?_
    split <;> exact .pure _
  · refine .bind (.act rfl) fun r => ?_
    split
    · exact .pure _
    · refine .bind (.act rfl) fun r => ?_
      split <;> exact .pure _
    · exact .pure _

theorem passive_refreshFd : Passive (refreshFd fd) :=
  .ite (fun _ => .bind passive_epollRefresh fun _ => .pure _) (fun _ => .pure _)

theorem Passive.only {α : Type} {p : Code α} (h : Passive p) : p.Only (Op.Allowed k) False :=
  h.mono fun _ => .of_passive

theorem only_timerInsertFinite : (timerInsertFinite h).Only (Op.Allowed k) False :=
  .bind (.act (.of_plain rfl)) fun _ =>
    .ite (fun _ => .act (.of_plain rfl)) (fun _ => .pure _)

theorem only_handleDetach : (handleDetach h).Only (Op.Allowed k) False :=
  .bind (.act (.of_plain rfl)) fun _ => .bind (.act (.of_plain rfl)) fun _ =>
    .bind (.act (.of_plain rfl)) fun _ => .pure _

theorem only_evb2Wake : evb2Wake.Only (Op.Allowed k) False :=
  .bind (.act (.of_plain rfl)) fun _ =>
    .ite (fun _ => .pure _) (fun _ => .act (.of_plain rfl))

theorem only_drainPipe : drainPipe.Only (Op.Allowed k) False :=
  .iterate fun _ => .bind (.act (.of_plain rfl)) fun _ => .ite (fun _ => .pure _) (fun _ => .pure _)

theorem only_closeOpen (f : CtxFd) : (closeOpen f).Only (Op.Allowed k) False :=
  .bind (.act (.of_plain rfl)) fun _ =>
    .ite (fun _ => .act (.of_plain rfl)) (fun _ => .pure _)

theorem only_monitorFd : (monitorFd h fd).Only (Op.Allowed k) False := by
  refine .ite (fun _ => .bind (.act (.of_plain rfl)) fun _ => .bind passive_epollRefresh.only fun r => ?_)
    (fun _ => .pure _)
  exact .ite (fun _ => .bind only_handleDetach fun _ => .bind (.act (.of_plain rfl)) fun _ => .pure _)
    (fun _ => .pure _)

theorem only_cancelHandle : (cancelHandle h).Only (Op.Allowed k) False := by
  refine .bind (.act (.of_plain rfl)) fun hd => .ite (fun _ => .pure _) fun _ =>
    .bind (.act (.of_plain rfl)) fun evb => .ite (fun _ => ?_) (fun _ => ?_)
  · exact .bind (.act ⟨fun _ => ⟨rfl, rfl⟩, fun _ _ => ⟨rfl, rfl⟩, rfl⟩) fun _ => .pure _
  refine .bind (.act (.of_plain rfl)) fun _ => .bind (.act (.of_plain rfl)) fun queued =>
    .ite (fun _ => ?_) (fun _ => ?_)
  · exact .bind (.act (.of_plain rfl)) fun _ => .bind (.act (.of_plain rfl)) fun _ => .pure _
  refine .bind (.act (.of_plain rfl)) fun _ => .bind (.act (.of_plain rfl)) fun hd =>
    .bind (.act (.of_plain rfl)) fun _ => .bind (.act (.of_plain rfl)) fun _ =>
    .bind (.act (.of_plain rfl)) fun _ => .ite (fun _ => .pure _) fun _ => ?_
  exact .bind passive_refreshFd.only fun _ => .bind (.act (.of_plain rfl)) fun _ => .pure _

theorem only_aloeEvb2Cancel : (aloeEvb2Cancel h).Only (Op.Allowed k) False :=
  .bind only_cancelHandle fun _ => .bind (.act ⟨trivial, fun _ => trivial, rfl⟩) fun _ => .pure _

theorem only_cancelOn (l : ListId) (n : Int) : (cancelOn fd l n).Only (Op.Allowed k) False := by
  refine .bind (.act (.of_plain rfl)) fun evb => .iterate fun i => ?_
  obtain ⟨q, n⟩ := i
  cases q with
  | none => exact .pure _
  | some q =>
    refine .bind (.act (.of_plain rfl)) fun hd => .bind (.act (.of_plain rfl)) fun next =>
      .ite (fun _ => ?_) (fun _ => .pure _)
    exact .bind only_aloeEvb2Cancel fun _ => .ite (fun _ => .pure _) (fun _ => .pure _)

theorem only_aloeEvb2CancelFd : (aloeEvb2CancelFd fd).Only (Op.Allowed k) False :=
  .bind (.act (.of_plain rfl)) fun _ => .ite (fun _ => .pure _) fun _ => .ite (fun _ => .pure _) fun _ =>
    .bind (only_cancelOn _ _) fun _ => .bind (only_cancelOn _ _) fun _ => only_cancelOn _ _

end Tame

section Notice
variable {m : Mode} {b : Call} {k : Prop} {x x₀ : Watched} {s : St} {y : Ptr}

/-- A handle that may be told `ALOE_EVB2_FLAG_CANCELLED`. -/
def St.MayNotice (s : St) (y : Ptr) : Prop := s.stopping = true ∨ s.deadline y = uint64Max

theorem Meanwhile.mayNotice (hi : Meanwhile m s s') (hp : Point m s) (h : s.MayNotice y) : s'.MayNotice y := by
  refine h.imp (fun hs => hi.stopping.trans hs) fun hd => ?_
  have hlive : (s.heap y).isSome = true := by
    by_contra hn
    rw [Bool.not_eq_true, Option.isSome_eq_false_iff, Option.isNone_iff_eq_none] at hn
    simp [St.deadline, hn, uint64Max] at hd
  have hh : s'.heap y = s.heap y := congrArg View.hd (hi.view y (hp.lt_next hlive))
  unfold St.deadline at hd ⊢
  rwa [hh]

theorem wq_evb2NotifyCancel {Q : Unit → Watched → Prop} (h : Unnoticed m k x₀ x) (hr : x₀.1.inRun = true)
    (hd : x.1.MayNotice y) (hq : ∀ x', Unnoticed m k x₀ x' → Q () x') : Wq m b (evb2NotifyCancel y) Q x := by
  refine wp.seq (h.act_exec (.of_plain rfl) rfl fun e hd₁ s' hx h₁ => wp.seq ?_)
  have hs : s' = x.1 := by
    simp only [Op.exec] at hx
    split at hx <;> cases hx
    rfl
  subst hs
  have hfree : ∀ x', Unnoticed m k x₀ x' → Wq m b (free y) Q x' := fun x' h' =>
    h'.act (.of_plain rfl) fun _ x'' h'' => hq x'' h''
  unfold invokeCancelled
  split
  · refine wp.seq (h₁.act_due trivial (fun _ => trivial) (fun t ht hn => ⟨fun _ => ht, ?_⟩) fun _ _ _ _ _ _ _ h₂ => ?_)
    · rw [hn rfl]
      exact hd
    · exact h₂.callback hr fun x₃ h₃ => hfree x₃ h₃
  · exact wp_pure (hfree _ h₁)
  · exact wp_pure (hfree _ h₁)

theorem wq_notifyUnlocked {Q : Unit → Watched → Prop} (h : Unnoticed m k x₀ x) (hr : x₀.1.inRun = true)
    (hd : x.1.MayNotice y) (hq : ∀ x', Unnoticed m k x₀ x' → Q () x') : Wq m b (notifyUnlocked y) Q x := by
  refine wp.seq (h.act_full (.of_plain rfl) fun s e _ s' hi _ hx h₁ => ?_)
  obtain ⟨-, hx⟩ := need_eq_ok hx
  cases hx
  refine wp.seq (wq_evb2NotifyCancel h₁ hr (hi.mayNotice h.point hd) fun x₂ h₂ => ?_)
  exact h₂.act (.of_plain rfl) fun _ x₃ h₃ => hq x₃ h₃

/-- Installing what other threads have queued. A timer without a deadline is told
that it is cancelled. -/
theorem wq_evb2InstallAsync {Q : Unit → Watched → Prop} (h : Unnoticed m k x₀ x) (hr : x₀.1.inRun = true)
    (hq : ∀ x', Unnoticed m k x₀ x' → Q () x') : Wq m b evb2InstallAsync Q x := by
  refine wp.seq (h.act (.of_plain rfl) fun _ x₁ h₁ => wp.seq ?_)
  refine wp_iterate (fun _ => Unnoticed m k x₀) h₁ fun _ x₂ h₂ => wp.seq (h₂.act (.of_plain rfl) fun y x₃ h₃ => ?_)
  cases y with
  | none => exact wp_pure (h₃.act (.of_plain rfl) fun _ x₄ h₄ => hq x₄ h₄)
  | some y =>
    refine wp.seq (h₃.act_exec (.of_plain rfl) rfl fun _ evb _ hx h₄ => ?_)
    obtain ⟨-, hx⟩ := need_eq_ok hx
    cases hx
    split
    · rename_i hs
      exact wp.seq (wq_notifyUnlocked h₄ hr (.inl hs) fun x₅ h₅ => wp_pure h₅)
    refine wp.seq (h₄.act_exec (.of_plain rfl) rfl fun _ hd _ hx h₅ => ?_)
    simp only [Op.exec] at hx
    split at hx <;> cases hx
    rename_i hh
    split
    · exact wp.seq (h₅.act (.of_plain rfl) fun _ x₆ h₆ => wp_pure h₆)
    · rename_i ht
      rw [ne_eq, not_not] at ht
      have hmax : x₃.1.deadline y = uint64Max := by
        rw [St.deadline, hh]
        exact ht
      exact wp.seq (wq_notifyUnlocked h₅ hr (.inr hmax) fun x₆ h₆ => wp_pure h₆)

/-! ## Destruction -/

theorem wq_finalizeList {l : ListId} {Q : Unit → Watched → Prop} (h : Unnoticed m k x₀ x) (hr : x₀.1.inRun = true)
    (hs : x₀.1.stopping = true) (hq : ∀ x', Unnoticed m k x₀ x' → Q () x') : Wq m b (finalizeList l) Q x := by
  refine wp_iterate (fun _ => Unnoticed m k x₀) h fun _ x₁ h₁ => wp.seq (h₁.act (.of_plain rfl) fun evb x₂ h₂ => ?_)
  split
  · exact wp_pure (hq x₂ h₂)
  · refine wp.seq (h₂.only only_handleDetach fun _ x₃ h₃ => ?_)
    exact wp.seq (wq_evb2NotifyCancel h₃ hr (.inl (h₃.tame.stop hs)) fun x₄ h₄ => wp_pure h₄)

theorem wq_finalizeAsync {Q : Unit → Watched → Prop} (h : Unnoticed m k x₀ x) (hr : x₀.1.inRun = true)
    (hs : x₀.1.stopping = true) (hq : ∀ x', Unnoticed m k x₀ x' → Q () x') : Wq m b finalizeAsync Q x := by
  refine wp.seq (h.act (.of_plain rfl) fun _ x₁ h₁ => wp.seq ?_)
  refine wp_iterate (fun _ => Unnoticed m k x₀) h₁ fun _ x₂ h₂ => wp.seq (h₂.act (.of_plain rfl) fun y x₃ h₃ => ?_)
  cases y with
  | none => exact wp_pure (h₃.act (.of_plain rfl) fun _ x₄ h₄ => hq x₄ h₄)
  | some y => exact wp.seq (wq_notifyUnlocked h₃ hr (.inl (h₃.tame.stop hs)) fun x₄ h₄ => wp_pure h₄)

theorem wq_evb2Free {Q : Unit → Watched → Prop} (h : Unnoticed m k x₀ x) (hr : x₀.1.inRun = true)
    (hs : x₀.1.stopping = true) (hq : ∀ x', Unnoticed m k x₀ x' → Q () x') : Wq m b evb2Free Q x := by
  have hfree : ∀ x', Unnoticed m k x₀ x' → Wq m b freeCtx Q x' := fun x' h' =>
    h'.act (.of_plain rfl) fun _ x'' h'' => hq x'' h''
  refine wp.seq (wp.seq (h.act (.of_plain rfl) fun evb x₁ h₁ => ?_))
  split
  · exact wp_pure (hfree x₁ h₁)
  refine wp.seq (h₁.act (.of_plain rfl) fun _ x₂ h₂ => ?_)
  refine wp.seq (wq_finalizeList h₂ hr hs fun x₃ h₃ => wp.seq (wq_finalizeList h₃ hr hs fun x₄ h₄ => ?_))
  refine wp.seq (wq_finalizeList h₄ hr hs fun x₅ h₅ => wp.seq (wq_finalizeAsync h₅ hr hs fun x₆ h₆ => ?_))
  refine wp.seq (h₆.only (only_closeOpen _) fun _ x₇ h₇ => wp.seq (h₇.only (only_closeOpen _) fun _ x₈ h₈ => ?_))
  exact h₈.only (only_closeOpen _) fun _ x₉ h₉ => hfree x₉ h₉

end Notice

/-! ## The calls -/

section Calls
variable {m : Mode} {b : Call} {k : Prop} {x x₀ : Watched} {s s' : St} {y : Ptr} {hd hd' : Handle}

theorem Unnoticed.start (hp : Point m x.1) (hu : (passes m).atUser x) (hk : k → x.1.Known) : Unnoticed m k x x :=
  ⟨.refl hp hu.2.2 hu.2.1 hk, hu.1⟩

/-- What a call owes when it returns, if it went unnoticed. -/
theorem Unnoticed.ends (h : Unnoticed m k x₀ x) : (passes m).atUser x ∧ (passes m).keeps x₀ x :=
  ⟨⟨h.sorted, h.opened, h.follows⟩, fun _ => ⟨h.tame, h.phase, h.calls⟩⟩

/-- A handle is written that the loop has not seen, or what is written is not of its concern. -/
theorem tame_put (hh : s.heap y = some hd) (hn : y ∈ s.lists .ready → hd'.noti = hd.noti) : Tame s (s.put y hd') where
  run := id
  stop := id
  ready := .refl _
  noti z hz := by
    by_cases hzy : z = y
    · subst hzy
      simp [St.put, hh, hn hz]
    · simp [St.put, hzy]

theorem timersKept_put (hh : s.heap y = some hd) (ht : y ∈ s.lists .timer → hd'.timeoutAt = hd.timeoutAt) :
    TimersKept s (s.put y hd') where
  sub := .refl _
  deadline z hz := by
    by_cases hzy : z = y
    · subst hzy
      simp [St.deadline, St.put, hh, ht hz]
    · simp [St.deadline, St.put, hzy]
  armed _ _ := rfl

/-- Nothing but the deadline of `y` was changed. -/
theorem sortedBut_put (hs : s.Sorted) (hn : (s.lists .timer).Nodup) : (s.put y hd').SortedBut y := by
  refine (hs.sublist (List.erase_sublist)).imp_of_mem fun {a c} ha hc hac => ?_
  have hay : a ≠ y := fun he => by
    subst he
    exact hn.not_mem_erase ha
  have hcy : c ≠ y := fun he => by
    subst he
    exact hn.not_mem_erase hc
  simpa [St.Before, St.deadline, St.put, hay, hcy] using hac

theorem exec_store {f : Handle → Handle} {e : Env} {r : Unit} (hx : (Op.store y f).exec e s = .ok (r, s')) :
    ∃ hd, s.heap y = some hd ∧ s' = s.put y (f hd) := by
  simp only [Op.exec] at hx
  split at hx <;> cases hx
  exact ⟨_, ‹_›, rfl⟩

theorem exec_setTimeoutAt {t : UInt64} {e : Env} {r : Unit} (hx : (Op.setTimeoutAt y t).exec e s = .ok (r, s')) :
    ∃ hd, s.heap y = some hd ∧ s' = s.put y { hd with timeoutAt := t } := by
  simp only [Op.exec] at hx
  split at hx <;> cases hx
  exact ⟨_, ‹_›, rfl⟩

/-- A handle that is neither due nor armed may be written freely. -/
theorem Unnoticed.put (h : Unnoticed m k x₀ x) (hp : Point m (x.1.put y hd')) (hh : x.1.heap y = some hd)
    (hn : y ∈ x.1.lists .ready → hd'.noti = hd.noti) (ht : y ∈ x.1.lists .timer → hd'.timeoutAt = hd.timeoutAt)
    (hk : k → hd'.cb = hd.cb ∧ hd'.flag2.internal = hd.flag2.internal) : Unnoticed m k x₀ (x.1.put y hd', x.2) :=
  ⟨h.next hp (tame_put hh hn) rfl rfl fun hkn => (h.known hkn).put hh (hk hkn).1 (hk hkn).2,
    (timersKept_put hh ht).sorted h.sorted⟩

theorem Unnoticed.store {f : Handle → Handle} {Q : Unit → Watched → Prop} (h : Unnoticed m k x₀ x)
    (hn : y ∉ x.1.lists .ready) (ht : y ∈ x.1.lists .timer → ∀ hd, (f hd).timeoutAt = hd.timeoutAt)
    (hk : k → ∀ hd, (f hd).cb = hd.cb ∧ (f hd).flag2.internal = hd.flag2.internal)
    (hq : ∀ x', Unnoticed m k x₀ x' → x'.1.lists = x.1.lists → Q () x') : Wq m b (Evb2.store y f) Q x := by
  refine wq_op fun s _ hns => ⟨⟨fun _ => ?_, trivial⟩, fun e r s' _ hp hx => ?_⟩
  · rw [hns rfl]
    exact h.sorted
  obtain rfl := hns rfl
  obtain ⟨hd, hh, rfl⟩ := exec_store hx
  have h' := h.put hp hh (fun hr => absurd hr hn) (fun hy => ht hy hd) fun hkn => hk hkn hd
  exact ⟨h'.follows, hq _ h' rfl⟩

theorem Unnoticed.setTimeoutAt {t : UInt64} {Q : Unit → Watched → Prop} (h : Unnoticed m k x₀ x)
    (ht : y ∉ x.1.lists .timer) (hq : ∀ x', Unnoticed m k x₀ x' → x'.1.lists = x.1.lists → Q () x') :
    Wq m b (Evb2.setTimeoutAt y t) Q x := by
  refine wq_op fun s _ hns => ⟨⟨fun _ => ?_, trivial⟩, fun e r s' _ hp hx => ?_⟩
  · rw [hns rfl]
    exact h.sorted
  obtain rfl := hns rfl
  obtain ⟨hd, hh, rfl⟩ := exec_setTimeoutAt hx
  have h' := h.put hp hh (fun _ => rfl) (fun hy => absurd hy ht) fun _ => ⟨rfl, rfl⟩
  exact ⟨h'.follows, hq _ h' rfl⟩

/-- A deadline is computed and written. -/
theorem wq_evb2SetTimeout {now : UInt64} {Q : Unit → Watched → Prop} (h : Unnoticed m k x₀ x)
    (ht : y ∉ x.1.lists .timer) (hq : ∀ x', Unnoticed m k x₀ x' → x'.1.lists = x.1.lists → Q () x') :
    Wq m b (evb2SetTimeout y now) Q x := by
  refine wp.seq (h.act_exec (.of_plain rfl) rfl fun e hd s' hx h₁ => ?_)
  simp only [Op.exec] at hx
  split at hx <;> cases hx
  exact h₁.setTimeoutAt ht hq

/-- A new handle is on no list. -/
theorem wq_handleAlloc {Q : Option Ptr → Watched → Prop} (h : Unnoticed m False x₀ x)
    (hq : ∀ r x', Unnoticed m False x₀ x' → (∀ y, r = some y → ∀ l, y ∉ x'.1.lists l) → Q r x') :
    Wq m b handleAlloc Q x := by
  refine wp.seq (h.act_exec ⟨trivial, fun hf => hf.elim, rfl⟩ rfl fun e r s' hx h₁ => ?_)
  simp only [Op.exec] at hx
  split at hx <;> cases hx
  · have hnew : ∀ l, x.1.next ∉ x.1.lists l := fun l hl => by
      have hoff : (x.1.view x.1.next).on l := hl
      rw [h.point.fresh x.1.next (le_refl _)] at hoff
      exact hoff
    refine wp.seq (h₁.act_exec ⟨fun _ => ⟨rfl, rfl⟩, fun hf => hf.elim, rfl⟩ rfl fun e _ s' hx h₂ => ?_)
    obtain ⟨hd, -, rfl⟩ := exec_store hx
    refine wp_pure (hq _ _ h₂ ?_)
    rintro _ ⟨⟩ l
    exact hnew l
  · exact wp_pure (hq none _ h₁ (fun _ hy => by cases hy))

theorem wq_aloeEvb2AddFd {fd : Int} {ev : UInt32} {ms : UInt64} {cb : Option Cb} {ud : Nat} {Q : Option Ptr → Watched → Prop}
    (h : Unnoticed m False x₀ x) (hq : ∀ r x', Unnoticed m False x₀ x' → Q r x') :
    Wq m b (aloeEvb2AddFd fd ev ms cb ud) Q x := by
  refine wp.seq (h.act (.of_plain rfl) fun evb x₁ h₁ => ?_)
  split
  · exact wp_pure (hq none x₁ h₁)
  split
  · exact wp_pure (hq none x₁ h₁)
  refine wp.seq (wq_handleAlloc h₁ fun r x₂ h₂ hnew => ?_)
  cases r with
  | none => exact wp_pure (hq none x₂ h₂)
  | some y =>
    have hoff : ∀ l, y ∉ x₂.1.lists l := hnew y rfl
    refine wp.seq (h₂.store (hoff _) (fun hy => absurd hy (hoff _)) (fun hf => hf.elim) fun x₃ h₃ hl₃ => ?_)
    refine wp.seq (h₃.act_exec (.of_plain rfl) rfl fun e now s' hx h₄ => ?_)
    cases hx
    refine wp.seq (wq_evb2SetTimeout h₄ (by rw [hl₃]; exact hoff _) fun x₅ h₅ _ => ?_)
    refine wp.seq (h₅.only only_monitorFd fun ok x₆ h₆ => ?_)
    split
    · exact wp_pure (hq none x₆ h₆)
    · exact wp.seq (h₆.only only_timerInsertFinite fun _ x₇ h₇ => wp_pure (hq _ x₇ h₇))

theorem wq_aloeEvb2AddOneshotFd {fd : Int} {ev : UInt32} {ms : UInt64} {cb : Option Cb} {ud : Nat}
    {Q : Option Ptr → Watched → Prop} (h : Unnoticed m False x₀ x) (hq : ∀ r x', Unnoticed m False x₀ x' → Q r x') :
    Wq m b (aloeEvb2AddOneshotFd fd ev ms cb ud) Q x := by
  refine wp.seq (wq_aloeEvb2AddFd h fun r x₁ h₁ => ?_)
  cases r with
  | none => exact wp_pure (hq none x₁ h₁)
  | some y =>
    refine wp.seq (h₁.act ⟨fun _ => ⟨rfl, rfl⟩, fun _ _ => ⟨rfl, rfl⟩, rfl⟩ fun _ x₂ h₂ => ?_)
    exact wp_pure (hq _ x₂ h₂)

theorem wq_aloeEvb2AddOneshotTimer {ms : UInt64} {cb : Option Cb} {ud : Nat} {Q : Option Ptr → Watched → Prop}
    (h : Unnoticed m False x₀ x) (hq : ∀ r x', Unnoticed m False x₀ x' → Q r x') :
    Wq m b (aloeEvb2AddOneshotTimer ms cb ud) Q x := by
  unfold aloeEvb2AddOneshotTimer
  split
  · exact wp_pure (hq none x h)
  split
  · exact wp_pure (hq none x h)
  refine wp.seq (wq_handleAlloc h fun r x₁ h₁ hnew => ?_)
  cases r with
  | none => exact wp_pure (hq none x₁ h₁)
  | some y =>
    have hoff : ∀ l, y ∉ x₁.1.lists l := hnew y rfl
    refine wp.seq (h₁.store (hoff _) (fun hy => absurd hy (hoff _)) (fun hf => hf.elim) fun x₂ h₂ hl₂ => ?_)
    refine wp.seq (h₂.act_exec (.of_plain rfl) rfl fun e now s' hx h₃ => ?_)
    cases hx
    refine wp.seq (wq_evb2SetTimeout h₃ (by rw [hl₂]; exact hoff _) fun x₄ h₄ _ => ?_)
    refine wp.seq (h₄.act (.of_plain rfl) fun _ x₅ h₅ => wp.seq (h₅.act (.of_plain rfl) fun evb x₆ h₆ => ?_))
    split
    · refine wp.seq (h₆.act (.of_plain rfl) fun _ x₇ h₇ => wp.seq (h₇.act (.of_plain rfl) fun _ x₈ h₈ => ?_))
      exact wp_pure (hq none x₈ h₈)
    · refine wp.seq (h₆.act (.of_plain rfl) fun _ x₇ h₇ => wp.seq (h₇.only only_evb2Wake fun _ x₈ h₈ => ?_))
      exact wp.seq (h₈.act (.of_plain rfl) fun _ x₉ h₉ => wp_pure (hq _ x₉ h₉))

theorem wq_handOut {add : Code (Option Ptr)} {Q : Ret → Watched → Prop} {x : Watched}
    (ha : ∀ Q' : Option Ptr → Watched → Prop, (∀ r x', Unnoticed m False x₀ x' → Q' r x') → Wq m b add Q' x)
    (hq : ∀ r x', Unnoticed m False x₀ x' → Q r x') : Wq m b (handOut add) Q x := by
  refine wp.seq (ha _ fun r x₁ h₁ => ?_)
  cases r with
  | none => exact wp_pure (hq _ x₁ h₁)
  | some y =>
    exact wp.seq (h₁.act ⟨trivial, fun _ => trivial, rfl⟩ fun _ x₂ h₂ => wp_pure (hq _ x₂ h₂))

/-! ### `aloe_evb2_set_timeout` -/

/-- The deadline of `y` is new, and `y` may be out of place. -/
structure Retimed (m : Mode) (y : Ptr) (x₀ x : Watched) : Prop extends Aside m False x₀ x where
  sorted : x.1.SortedBut y

/-- Off `timer_list`, a handle cannot be out of place. -/
theorem Retimed.settled (h : Retimed m y x₀ x) (hy : y ∉ x.1.lists .timer) : Unnoticed m False x₀ x :=
  ⟨h.toAside, SortedBut.of_notMem h.sorted hy⟩

/-- A tame operation that inserts no timer leaves all others in order. -/
theorem Retimed.act {o : Op} {Q : o.Out → Watched → Prop} {ms : UInt64} (h : Retimed m y x₀ x) (ho : o.Allowed False)
    (hi : ∀ z, o ≠ .timerInsert z) (hb : b = .setTimeout y ms)
    (hq : ∀ s e r s', (o.yields = false → s = x.1) → o.exec e s = .ok (r, s') →
      Retimed m y x₀ (s', x.2.see o e r s) → Q r (s', x.2.see o e r s)) : Wq m b (Prog.act o) Q x := by
  refine wq_op fun s hy hn => ?_
  have hmw : Meanwhile m x.1 s := meanwhile_of_yields hy hn
  refine ⟨due_tame ho.tame ho.notice fun hne => absurd hb (hne y ms), fun e r s' hp hp' hx => ?_⟩
  have hsame := exec_same ho.tame hi hp hp' hx
  obtain ⟨hph, hc⟩ := Pass.see_tame ho.tame h.opened e r s
  have h' : Aside m False x₀ (s', x.2.see o e r s) :=
    (h.toAside.meanwhile hmw).next hp' (hsame.tame hp') hph hc fun hf => hf.elim
  have hs : s'.SortedBut y := (hsame.timers hp').sortedBut (((hmw.same h.point).timers hp).sortedBut h.sorted)
  exact ⟨h'.follows, hq s e r s' hn hx ⟨h', hs⟩⟩

/-- `timer_list` is in order again once the handle has been taken off it. -/
theorem Retimed.removed {Q : Bool → Watched → Prop} {ms : UInt64} (h : Retimed m y x₀ x) (hb : b = .setTimeout y ms)
    (hq : ∀ r x', Unnoticed m False x₀ x' → Q r x') : Wq m b (qentRemove .timer y) Q x := by
  refine h.act (.of_plain rfl) (fun _ he => by cases he) hb fun s e r s' hn hx h' => hq r _ (h'.settled fun hy => ?_)
  obtain rfl := hn rfl
  obtain ⟨-, hx⟩ := need_eq_ok hx
  cases hx
  have hy' : y ∈ (x.1.lists .timer).erase y := by
    simpa [St.unlink, St.setList] using hy
  exact (h.point.nodup .timer).not_mem_erase hy'

theorem Retimed.contains {l : ListId} {Q : Bool → Watched → Prop} {ms : UInt64} (h : Retimed m y x₀ x)
    (hb : b = .setTimeout y ms) (hq : ∀ x', Retimed m y x₀ x' → Q (decide (y ∈ x'.1.lists l)) x') :
    Wq m b (qentContains l y) Q x := by
  refine h.act (.of_plain rfl) (fun _ he => by cases he) hb fun s e r s' hn hx h' => ?_
  obtain ⟨-, hx⟩ := need_eq_ok hx
  cases hx
  exact hq _ h'

/-- A deadline is written while the handle may be on `timer_list`. -/
theorem Unnoticed.retime {t : UInt64} {ms : UInt64} {Q : Unit → Watched → Prop} (h : Unnoticed m False x₀ x)
    (hb : b = .setTimeout y ms) (hq : ∀ x', Retimed m y x₀ x' → x'.1.notifying = x.1.notifying → Q () x') :
    Wq m b (Evb2.setTimeoutAt y t) Q x := by
  refine wq_op fun s _ hns => ⟨⟨fun hne => absurd hb (hne y ms), trivial⟩, fun e r s' _ hp hx => ?_⟩
  obtain rfl := hns rfl
  obtain ⟨hd, hh, rfl⟩ := exec_setTimeoutAt hx
  have h' : Aside m False x₀ (x.1.put y { hd with timeoutAt := t }, x.2) :=
    h.next hp (tame_put hh fun _ => rfl) rfl rfl fun hf => hf.elim
  exact ⟨h'.follows, hq _ ⟨h', sortedBut_put h.sorted (h.point.nodup .timer)⟩ rfl⟩

theorem wq_retime {now : UInt64} {ms : UInt64} {Q : Unit → Watched → Prop} (h : Unnoticed m False x₀ x)
    (hb : b = .setTimeout y ms) (hq : ∀ x', Retimed m y x₀ x' → x'.1.notifying = x.1.notifying → Q () x') :
    Wq m b (evb2SetTimeout y now) Q x := by
  refine wp.seq (h.act_exec (.of_plain rfl) rfl fun e hd s' hx h₁ => ?_)
  simp only [Op.exec] at hx
  split at hx <;> cases hx
  exact h₁.retime hb hq

theorem wq_aloeEvb2SetTimeout {ms : UInt64} {Q : Int → Watched → Prop} (h : Unnoticed m False x₀ x)
    (hb : b = .setTimeout y ms) (hq : ∀ r x', Unnoticed m False x₀ x' → Q r x') :
    Wq m b (aloeEvb2SetTimeout y ms) Q x := by
  refine wp.seq (h.act (.of_plain rfl) fun hd x₁ h₁ => wp.seq (h₁.act_exec (.of_plain rfl) rfl fun _ evb _ hx h₂ => ?_))
  obtain ⟨-, hx⟩ := need_eq_ok hx
  cases hx
  split
  · exact wp_pure (hq _ _ h₂)
  split
  · exact wp_pure (hq _ _ h₂)
  split
  · exact wp_pure (hq _ _ h₂)
  refine wp.seq (h₂.act_exec ⟨fun _ => ⟨rfl, rfl⟩, fun _ _ => ⟨rfl, rfl⟩, rfl⟩ rfl fun _ _ s₃ hx h₃ => ?_)
  obtain ⟨hd₃, -, rfl⟩ := exec_store hx
  refine wp.seq (h₃.act_exec (.of_plain rfl) rfl fun _ now _ hx h₄ => ?_)
  cases hx
  refine wp.seq (wq_retime h₄ hb fun x₅ h₅ hn₅ => ?_)
  split
  · -- The handle whose callback runs is on no list.
    rename_i hnoti
    refine wp_pure (hq _ _ (h₅.settled ?_))
    exact (h₅.point.sane y).noti (show x₅.1.notifying = some y from hn₅.trans hnoti) .timer
  refine wp.seq (h₅.act (.of_plain rfl) (fun _ he => by cases he) hb fun _ _ _ s₆ _ _ h₆ => ?_)
  refine wp.seq (h₆.contains hb fun x₇ h₇ => ?_)
  by_cases hp : y ∈ x₇.1.lists .async
  · have h₇' := h₇.settled fun ht => ((h₇.point.sane y).timer ht).2 hp
    refine wp.seq (h₇'.act (.of_plain rfl) fun _ x₈ h₈ => ?_)
    rw [if_pos (decide_eq_true hp)]
    exact wp_pure (hq _ x₈ h₈)
  refine wp.seq (h₇.act (.of_plain rfl) (fun _ he => by cases he) hb fun _ _ _ s₈ _ _ h₈ => ?_)
  rw [if_neg (by simpa using hp)]
  refine wp.seq (h₈.contains hb fun x₉ h₉ => ?_)
  by_cases hr : y ∈ x₉.1.lists .ready
  · rw [if_pos (decide_eq_true hr)]
    exact wp_pure (hq _ _ (h₉.settled fun ht => ((h₉.point.sane y).timer ht).1 hr))
  · rw [if_neg (by simpa using hr)]
    refine wp.seq (h₉.removed hb fun _ x₁₀ h₁₀ => wp.seq (h₁₀.only only_timerInsertFinite fun _ x₁₁ h₁₁ => ?_))
    exact wp_pure (hq _ x₁₁ h₁₁)

/-! ### `aloe_evb2_destroy` -/

/-- Entering the loop, the observer forgets the last pass. -/
theorem wq_setInRun {Q : Unit → Watched → Prop} (h : Unnoticed m k x₀ x)
    (hq : ∀ x', Unnoticed m k x' x' → x'.1 = { x.1 with inRun := true } → x'.2.phase = .idle → x'.2.calls = [] → Q () x') :
    Wq m b (setInRun true) Q x := by
  refine wq_op fun s _ hns => ⟨⟨fun _ => ?_, trivial⟩, fun e r s' _ hp hx => ?_⟩
  · rw [hns rfl]
    exact h.sorted
  obtain rfl := hns rfl
  obtain ⟨-, hx⟩ := need_eq_ok hx
  cases hx
  refine ⟨rfl, hq _ ⟨⟨hp, rfl, trivial, .refl _, rfl, rfl, fun hk => (h.known hk).of_heap rfl⟩, ?_⟩ rfl rfl rfl⟩
  exact h.sorted

/-- Destroyed from a callback, the context is left to the loop. Otherwise it is freed. -/
theorem wq_aloeEvb2Destroy {Q : Unit → Watched → Prop} (h : Unnoticed m k x₀ x)
    (hq : ∀ x', (passes m).atUser x' ∧ (x₀.1.inRun = true → Unnoticed m k x₀ x') → Q () x') :
    Wq m b aloeEvb2Destroy Q x := by
  refine wp.seq (wp.seq (h.act (.of_plain rfl) fun _ x₁ h₁ => ?_))
  refine wp.seq (h₁.act_exec (.of_plain rfl) rfl fun _ _ s₂ hx h₂ => ?_)
  have hstop : s₂.stopping = true := by
    obtain ⟨-, hx⟩ := need_eq_ok hx
    cases hx
    rfl
  refine wp.seq (h₂.act_exec (.of_plain rfl) rfl fun _ evb _ hx h₃ => ?_)
  obtain ⟨-, hx⟩ := need_eq_ok hx
  cases hx
  split
  · refine wp.seq (h₃.act (.of_plain rfl) fun _ x₄ h₄ => wp_pure (wp.seq (h₄.only only_evb2Wake fun _ x₅ h₅ => ?_)))
    exact wp_pure (hq x₅ ⟨h₅.ends.1, fun _ => h₅⟩)
  · rename_i hrun
    have hidle : ¬ x₀.1.inRun = true := fun hr => hrun (h₃.tame.run hr)
    refine wp.seq (wq_setInRun h₃ fun x₄ h₄ hx₄ _ _ => wp.seq (h₄.act (.of_plain rfl) fun _ x₅ h₅ => wp_pure ?_))
    refine wp.seq (h₅.only only_evb2Wake fun _ x₆ h₆ => ?_)
    rw [if_neg (by simp)]
    refine wq_evb2Free h₆ (by rw [hx₄]) (by rw [hx₄]; exact hstop) fun x₇ h₇ => hq x₇ ⟨h₇.ends.1, fun hr => absurd hr hidle⟩

end Calls

end AlgaeBp.Evb2
