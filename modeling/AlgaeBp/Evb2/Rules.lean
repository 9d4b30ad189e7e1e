import AlgaeBp.Evb2.Invariant
/-!
# Rules for the operations on a handle

`Moved m x s₀ k v s`: since `s₀` the loop thread has worked on handle `x`, which
now looks like `v`; `k` says whether it holds `async_lock`, and whether other
threads have run. `At` adds that it has not told the kernel. Every operation has a rule that takes `At` to `At`, so
that the functions of `evb2.c` are followed by their effect on one view.
-/
open Reentrant

namespace AlgaeBp.Evb2

abbrev Wp (m : Mode) (b : Call) {α : Type} (p : Code α) (Q : α → St → Prop) (s : St) : Prop :=
  wp sys (guard m) (logic m) b p Q s

inductive Sync where
  /-- No other thread has run. -/
  | alone
  | free
  /-- The loop thread holds `async_lock`. -/
  | held
  deriving DecidableEq

structure Moved (m : Mode) (x : Ptr) (s₀ : St) (k : Sync) (v : View) (s : St) : Prop where
  point : Point m s
  alive : s.alive = true
  touch : Touch m x s₀ s
  view : s.view x = v
  loop : s.asyncLock = some .loop ↔ k = .held
  woken : s₀.finalized = false → Wake s₀ → Wake s
  async : k = .alone → (s.lists .async).erase x = (s₀.lists .async).erase x

structure At (m : Mode) (x : Ptr) (s₀ : St) (k : Sync) (v : View) (s : St) : Prop extends Moved m x s₀ k v s where
  interest : s.interest = s₀.interest

section Rules
variable {m : Mode} {b : Call} {x : Ptr} {s₀ s s' : St} {k : Sync} {v v' : View} {hd : Handle} {l : ListId}
  {α : Type}

namespace Moved

theorem heap (h : Moved m x s₀ k v s) : s.heap x = v.hd := congrArg View.hd h.view

theorem mem (h : Moved m x s₀ k v s) (l : ListId) : x ∈ s.lists l ↔ v.on l := by
  rw [← h.view]; exact Iff.rfl

theorem sane (h : Moved m x s₀ k v s) : v.Sane := h.view ▸ h.point.sane x

/-- Work on `x` changes who is being notified only as `x` sees it. -/
theorem notifying (h : Moved m x s₀ k v s) (hp : Point m s₀) (hn : v.noti ↔ (s₀.view x).noti) :
    s.notifying = s₀.notifying := by
  refine Option.ext fun (j : Nat) => ?_
  by_cases hj : j = x
  · subst hj
    rw [← h.view] at hn
    exact hn
  rcases h.touch.cases hp hj with he | ⟨-, -, he, hq⟩
  · exact iff_of_eq (congrArg View.noti he)
  · have hno : ¬ (s₀.view j).noti := by rw [he]; exact id
    exact iff_of_false hq.noti hno

theorem lt_next (h : Moved m x s₀ k v s) (hs : v.hd.isSome = true) : x < s.next :=
  h.point.lt_next (by rw [h.view]; exact hs)

/-- Chain two stretches of work on the same handle. -/
theorem trans {k' : Sync} {v'' : View} (h : Moved m x s₀ k v s) (h' : Moved m x s k' v'' s')
    (hk : k' = .alone → k = .alone) : Moved m x s₀ k' v'' s' where
  point := h'.point
  alive := h'.alive
  touch := h.touch.trans h'.touch
  view := h'.view
  loop := h'.loop
  woken hf hw := h'.woken (h.touch.finalized.trans hf) (h.woken hf hw)
  async ha := (h'.async ha).trans (h.async (hk ha))

/-- Continue from here. -/
theorem start (h : Moved m x s₀ k v s) : At m x s k v s :=
  ⟨⟨h.point, h.alive, .refl m x s, h.view, h.loop, fun _ => id, fun _ => rfl⟩, rfl⟩

end Moved

namespace At

theorem start (hp : Point m s) (ha : s.alive = true) (hk : s.asyncLock = some .loop ↔ k = .held) :
    At m x s k (s.view x) s :=
  ⟨⟨hp, ha, .refl m x s, rfl, hk, fun _ => id, fun _ => rfl⟩, rfl⟩

/-- One operation on `x`. -/
theorem next (h : At m x s₀ k v s) (ht : Touch m x s s') (hv : s'.view x = v')
    (hi : s'.interest = s.interest) (hl : s'.asyncLock = s.asyncLock) (ha : s'.lists .async = s.lists .async)
    (hp : s'.pipe = s.pipe) (hq : s'.producers = s.producers) : At m x s₀ k v' s' where
  point := ht.point h.point
  alive := ht.alive.trans h.alive
  touch := h.touch.trans ht
  view := hv
  interest := hi.trans h.interest
  loop := by rw [hl]; exact h.loop
  woken hf hw := by
    have := h.woken hf hw
    unfold Wake at this ⊢
    rwa [ha, hp, hq]
  async hk := by rw [ha]; exact h.async hk

/-- Other threads run. -/
theorem interf (h : At m x s₀ k v s) (hx : x < s.next) (hi : Interf m s s') {k' : Sync} (hk : k' ≠ .alone)
    (hk' : k' = .held ↔ k = .held) : At m x s₀ k' v s' where
  point := hi.point h.point
  alive := hi.alive.trans h.alive
  touch := h.touch.trans (hi.touch x)
  view := (hi.view x hx).trans h.view
  interest := hi.interest.trans h.interest
  loop := (hi.loop.trans h.loop).trans hk'.symm
  woken hf hw := hi.woken (h.touch.finalized.trans hf) (h.woken hf hw)
  async ha := absurd ha hk

/-- Work that does not change what the handle asks of the kernel. -/
theorem mirror (h : At m x s₀ k v s) (hp : Point m s₀) (hx : ∀ fd f, v.Asks fd f ↔ (s₀.view x).Asks fd f)
    (hm : Mirror s₀) : Mirror s := by
  intro fd hfd
  rw [h.interest, hm fd hfd]
  refine (h.touch.want hp fun f => ?_).symm
  rw [h.view]; exact hx fd f

end At

theorem Point.walkable (hp : Point m s) (ha : s.alive = true) (l : ListId) : s.Walkable l :=
  ⟨ha, fun h hh => (hp.sane h).live l hh⟩

theorem need_ok {p : Prop} [Decidable p] {a : α} (h : p) : need p a = .ok a := if_pos h

/-! ## Operations without effect -/

theorem wp_ctx {Q : St → St → Prop} (hp : Point m s) (ha : s.alive = true) (h : Q s s) : Wp m b ctx Q s :=
  wp_act rfl trivial fun _ _ => ⟨s, s, need_ok ha, hp, h⟩

theorem wp_load {Q : Handle → St → Prop} (hp : Point m s) (hx : s.heap x = some hd) (h : Q hd s) :
    Wp m b (load x) Q s :=
  wp_act rfl trivial fun e _ => ⟨hd, s, by simp only [sys, Op.exec, hx], hp, h⟩

theorem wp_now {Q : UInt64 → St → Prop} (hp : Point m s) (h : ∀ t, Q t s) : Wp m b evb2NowMs Q s :=
  wp_act rfl trivial fun e _ => ⟨e.clock, s, rfl, hp, h _⟩

theorem wp_contains {Q : Bool → St → Prop} (hp : Point m s) (ha : s.alive = true)
    (h : Q (decide (x ∈ s.lists l)) s) : Wp m b (qentContains l x) Q s :=
  wp_act rfl trivial fun _ _ => ⟨_, s, need_ok (hp.walkable ha l), hp, h⟩

theorem wp_next {Q : Option Ptr → St → Prop} (hp : Point m s) (ha : s.alive = true) (hx : x ∈ s.lists l)
    (h : Q (after x (s.lists l)) s) : Wp m b (qentNext l x) Q s :=
  wp_act rfl trivial fun _ _ => ⟨_, s, need_ok ⟨hp.walkable ha l, hx⟩, hp, h⟩

/-! ## Operations on the handle -/

theorem wp_store {f : Handle → Handle} {Q : Unit → St → Prop} (h : At m x s₀ k v s) (hx : v.hd = some hd)
    (hq : ∀ s', At m x s₀ k (v.put (f hd)) s' → Q () s') : Wp m b (store x f) Q s := by
  have hh := h.heap.trans hx
  have ht : Touch m x s (s.put x (f hd)) := touch_put (by simp [St.view, hh])
  refine wp_act rfl trivial fun e _ => ⟨(), s.put x (f hd), by simp only [sys, Op.exec, hh], ht.point h.point, hq _ ?_⟩
  exact h.next ht (by rw [view_put_self, h.view]) rfl rfl rfl rfl rfl

/-- A deadline is finite, or saturated where the mode allows it. -/
def View.MayHave (m : Mode) (v : View) (t : UInt64) : Prop :=
  t ≠ uint64Max ∨ m.sat = .any ∨ ∃ hd, v.hd = some hd ∧ (0 ≤ hd.fd ∨ m.sat = .unarmed ∧
    (v.on .ready ∨ v.on .async ∨ v.noti ∨ hd.flag2.oneshot = true ∧ ¬ v.on .timer))

theorem satOk_mayHave {t : UInt64} (h : satOk m s x t = true) : (s.view x).MayHave m t := by
  simp only [satOk, Bool.or_eq_true, decide_eq_true_eq, Option.any_eq_true, Bool.and_eq_true] at h
  rcases h with (h | h) | ⟨hd, hx, h⟩
  · exact .inl h
  · exact .inr (.inl h)
  · refine .inr (.inr ⟨hd, hx, ?_⟩)
    rcases h with h | ⟨hu, h⟩
    · exact .inl h
    · refine .inr ⟨hu, ?_⟩
      rcases h with ((h | h) | h) | ⟨ho, h⟩
      · exact .inl h
      · exact .inr (.inl h)
      · exact .inr (.inr (.inl h))
      · exact .inr (.inr (.inr ⟨ho, h⟩))

theorem wp_setTimeoutAt {t : UInt64} {Q : Unit → St → Prop} (h : At m x s₀ k v s) (hx : v.hd = some hd)
    (hq : v.MayHave m t → ∀ s', At m x s₀ k (v.put { hd with timeoutAt := t }) s' → Q () s') :
    Wp m b (setTimeoutAt x t) Q s := by
  have hh := h.heap.trans hx
  have ht : Touch m x s (s.put x { hd with timeoutAt := t }) := touch_put (by simp [St.view, hh])
  refine wp_act rfl trivial fun e hm => ⟨(), s.put x { hd with timeoutAt := t }, by simp only [sys, Op.exec, hh],
    ht.point h.point, hq ?_ _ ?_⟩
  · rw [← h.view]; exact satOk_mayHave hm
  · exact h.next ht (by rw [view_put_self, h.view]) rfl rfl rfl rfl rfl

/-- Unlinking from `fdmon_list`, `timer_list` or `ready_list`. -/
theorem wp_remove {Q : Bool → St → Prop} (h : At m x s₀ k v s) (hl : l ≠ .async) (hx : v.hd.isSome = true)
    (hq : ∀ r s', (r = true ↔ v.on l) → At m x s₀ k (v.off l) s' → Q r s') :
    Wp m b (qentRemove l x) Q s := by
  have ht : Touch m x s (s.unlink l x) := touch_unlink hl (by rw [h.view]; exact hx)
  refine wp_act rfl trivial fun e _ => ⟨decide (x ∈ s.lists l), s.unlink l x, ?_, ht.point h.point, hq _ _ ?_ ?_⟩
  · simp only [sys, Op.exec, need_ok (h.point.walkable h.alive l), hl, false_and, if_false]
  · rw [decide_eq_true_eq]; exact h.mem l
  · refine h.next ht ?_ rfl rfl ?_ rfl rfl
    · rw [view_unlink_self (h.point.nodup l), h.view]
    · simp [St.unlink, St.setList, Ne.symm hl]

theorem linkFree_of (hn : ∀ a, a ≠ .timer → ¬ (s.view x).on a) (hl : l = .fdmon ∨ l = .ready ∨ l = .async) :
    s.LinkFree l x := by
  intro l' hl'
  refine hn l' ?_
  rcases hl with rfl | rfl | rfl <;> (simp [ListId.sharing] at hl'; rcases hl' with rfl | rfl | rfl <;> simp)

/-- Linking into `fdmon_list` or `ready_list`. -/
theorem wp_insertTail {Q : Unit → St → Prop} (h : At m x s₀ k v s) (hl : l = .fdmon ∨ l = .ready)
    (hx : v.hd.isSome = true) (hn : ¬ v.noti) (ho : ∀ a, a ≠ .timer → ¬ v.on a)
    (hr : l = .ready → ¬ v.on .timer)
    (hq : ∀ s', At m x s₀ k (v.join l) s' → Q () s') :
    Wp m b (qentInsertTail l x) Q s := by
  have hla : l ≠ .async := by rcases hl with rfl | rfl <;> simp
  have ht : Touch m x s (s.append l x) := by
    refine touch_append hl ?_ ?_ ?_ ?_ <;> rw [h.view] <;> assumption
  have hlf : s.LinkFree l x := by
    refine linkFree_of ?_ ?_
    · rw [h.view]; exact ho
    · rcases hl with rfl | rfl <;> simp
  have hlive : s.Live x := by
    show (s.heap x).isSome = true
    rw [h.heap]; exact hx
  refine wp_act rfl trivial fun e _ => ⟨(), s.append l x, ?_, ht.point h.point, hq _ ?_⟩
  · simp only [sys, Op.exec, need_ok (And.intro (h.point.walkable h.alive l) (And.intro hlive hlf)), hla, if_false]
  · refine h.next ht ?_ rfl rfl ?_ rfl rfl
    · rw [view_append_self, h.view]
    · simp [St.append, St.setList, Ne.symm hla]

theorem wp_timerInsert {Q : Unit → St → Prop} (h : At m x s₀ k v s) (hx : v.hd = some hd) (hn : ¬ v.noti)
    (ho : ¬ v.on .timer) (hr : ¬ v.on .ready) (ha : ¬ v.on .async)
    (hm : ∀ t, moving v.hist = some t → t = hd.timeoutAt)
    (hq : ∀ s', At m x s₀ k ((v.join .timer).record (.armed x hd.timeoutAt)) s' → Q () s') :
    Wp m b (timerInsert x) Q s := by
  have hh := h.heap.trans hx
  have hdl : s.deadline x = hd.timeoutAt := by simp [St.deadline, hh]
  have ht : Touch m x s ((s.arm x).emit (.armed x (s.deadline x))) := by
    refine touch_arm ?_ ?_ ?_ ?_ ?_ ?_ <;> rw [h.view]
    · simp [hx]
    · exact hn
    · exact ho
    · exact hr
    · exact ha
    · rw [hdl]; exact hm
  have hlf : s.LinkFree .timer x := by
    intro l' hl'
    simp only [ListId.sharing, List.mem_singleton] at hl'
    subst hl'
    rw [h.mem]; exact ho
  have hlive : s.Live x := by simp [St.Live, hh]
  refine wp_act rfl trivial fun e _ => ⟨(), _,
    need_ok ⟨h.point.walkable h.alive .timer, hlive, hlf⟩, ht.point h.point, hq _ ?_⟩
  refine h.next ht ?_ rfl rfl ?_ rfl rfl
  · rw [view_emit_self rfl, view_arm_self, h.view, hdl]
  · simp [St.arm, St.setList, St.emit]

theorem wp_free {Q : Unit → St → Prop} (h : At m x s₀ k v s) (hx : v.hd.isSome = true) (hn : ¬ v.noti)
    (ho : ∀ a, ¬ v.on a) (hm : moving v.hist = none)
    (hq : ∀ s', At m x s₀ k (v.free x) s' → Q () s') :
    Wp m b (free x) Q s := by
  have ht : Touch m x s (s.release x) := by
    refine touch_release ?_ ?_ ?_ ?_ <;> rw [h.view] <;> assumption
  have hlive : s.Live x := by
    show (s.heap x).isSome = true
    rw [h.heap]; exact hx
  refine wp_act rfl trivial fun e _ => ⟨(), s.release x, need_ok hlive, ht.point h.point, hq _ ?_⟩
  exact h.next ht (by rw [view_release_self, h.view]) rfl rfl rfl rfl rfl

/-- Recording an event that is no move between lists. -/
theorem wp_emit {e : Event} {Q : Unit → St → Prop} (h : At m x s₀ k v s) (hx : v.hd.isSome = true ∨ v.hist ≠ [])
    (ha : e.about = some x) (hp : e.PassesOn v.hist)
    (hf : ∀ env, (guard m).may b (.emit e) env s = true → e.Fits m s.log v.hist) (h1 : e.isFreed = false)
    (h2 : e.isQueued = false) (h3 : e.leaves = false)
    (hq : ∀ s', At m x s₀ k (v.record e) s' → Q () s') : Wp m b (emit e) Q s := by
  refine wp_act rfl trivial fun env hm => ?_
  have hv : hist s.log x = v.hist := congrArg View.hist h.view
  have hl : Legal m s.log e := by
    simp only [Legal, ha, hv]
    exact ⟨hp, hf env hm⟩
  have ht : Touch m x s (s.emit e) := touch_emit (by rw [h.view]; exact hx) ha hl h1 h2 h3
  refine ⟨(), s.emit e, rfl, ht.point h.point, hq _ ?_⟩
  exact h.next ht (by rw [view_emit_self ha, h.view]) rfl rfl rfl rfl rfl

theorem wp_notify {Q : Unit → St → Prop} (h : At m x s₀ k v s) (hx : v.hd.isSome = true) (ho : ∀ a, ¬ v.on a)
    (hn : s.notifying = none) (hq : ∀ s', At m x s₀ k (v.notify True) s' → s'.notifying = some x → Q () s') :
    Wp m b (setNotifying (some x)) Q s := by
  have ht : Touch m x s { s with notifying := some x } := by
    refine touch_notify ?_ ?_ (.inl ⟨hn, rfl⟩) <;> rw [h.view] <;> assumption
  refine wp_act rfl trivial fun e _ => ⟨(), _, need_ok h.alive, ht.point h.point, hq _ ?_ rfl⟩
  refine h.next ht ?_ rfl rfl rfl rfl rfl
  rw [← h.view]
  simp [St.view, View.notify]

theorem wp_unnotify {Q : Unit → St → Prop} (h : At m x s₀ k v s) (hn : v.noti)
    (hq : ∀ s', At m x s₀ k (v.notify False) s' → s'.notifying = none → Q () s') :
    Wp m b (setNotifying none) Q s := by
  have hn' : s.notifying = some x := by rw [← h.view] at hn; exact hn
  have ht : Touch m x s { s with notifying := none } := by
    refine touch_notify ?_ ?_ (.inr ⟨hn', rfl⟩) <;> rw [h.view]
    · exact h.sane.notiLive hn
    · exact h.sane.noti hn
  refine wp_act rfl trivial fun e _ => ⟨(), _, need_ok h.alive, ht.point h.point, hq _ ?_ rfl⟩
  refine h.next ht ?_ rfl rfl rfl rfl rfl
  rw [← h.view]
  simp [St.view, View.notify]

/-- Taking the first handle off `ready_list`. -/
theorem wp_popReady {Q : Option Ptr → St → Prop} (hp : Point m s) (ha : s.alive = true) (hk : s.asyncLock ≠ some .loop)
    (h0 : s.lists .ready = [] → Q none s)
    (h1 : ∀ x s', (s.view x).on .ready → At m x s .free ((s.view x).off .ready) s' → Q (some x) s') :
    Wp m b (qentPop .ready) Q s := by
  have hw := hp.walkable ha .ready
  refine wp_act rfl trivial fun e _ => ?_
  cases hl : s.lists .ready with
  | nil => exact ⟨none, s, by simp only [sys, Op.exec, need_ok hw, hl], hp, h0 hl⟩
  | cons x xs =>
    have hx : (s.view x).on .ready := by simp [St.view, hl]
    have ht : Touch m x s (s.unlink .ready x) := touch_unlink (by simp) ((hp.sane x).live _ hx)
    have hst : s.setList .ready xs = s.unlink .ready x := by simp [St.unlink, hl]
    refine ⟨some x, s.unlink .ready x, ?_, ht.point hp, h1 x _ hx ?_⟩
    · simp only [sys, Op.exec, need_ok hw, hl, hst, reduceCtorEq, if_false]
    · refine (At.start hp ha (by simpa using hk)).next ht ?_ rfl rfl ?_ rfl rfl
      · rw [view_unlink_self (hp.nodup .ready)]
      · simp [St.unlink, St.setList]

/-! ## The mutex -/

/-- Taking the mutex: other threads run until it is free. -/
theorem wp_lock {Q : Unit → St → Prop} (h : At m x s₀ k v s) (hk : k ≠ .held) (hx : x < s.next)
    (hq : ∀ s', At m x s₀ .held v s' → Q () s') : Wp m b lock Q s := by
  refine wp_act_yield rfl fun s₁ hi => ⟨trivial, fun e _ => ?_⟩
  have h₁ : At m x s₀ .free v s₁ := h.interf hx hi (by simp) (by simp [hk])
  cases hl : s₁.asyncLock with
  | some w =>
    cases w with
    | loop => exact absurd (h₁.loop.1 hl) (by simp)
    | producer i => exact .inl (by simp only [sys, Op.exec, h₁.alive, hl])
  | none =>
    have hp : Point m { s₁ with asyncLock := some .loop } := by
      refine h₁.point.sync (k := some .loop) (p := s₁.producers) (n := s₁.pipe) (fun i => ?_) h₁.point.proper
      rw [← h₁.point.lock i, hl]
      simp
    refine .inr ⟨(), { s₁ with asyncLock := some .loop }, ?_, hp, hq _ ?_⟩
    · simp only [sys, Op.exec, h₁.alive, hl]
    exact {
      point := hp, alive := h₁.alive, view := h₁.view, interest := h₁.interest,
      loop := by simp, woken := h₁.woken, async := by simp,
      touch := ⟨fun _ => hp, h₁.touch.view, h₁.touch.fresh, h₁.touch.next, h₁.touch.frame, h₁.touch.order⟩ }

theorem wp_unlock {Q : Unit → St → Prop} (h : At m x s₀ .held v s) (hx : x < s.next)
    (hq : ∀ s', At m x s₀ .free v s' → Q () s') : Wp m b unlock Q s := by
  refine wp_act_yield rfl fun s₁ hi => ⟨trivial, fun e _ => ?_⟩
  have h₁ : At m x s₀ .held v s₁ := h.interf hx hi (by simp) Iff.rfl
  have hl := h₁.loop.2 rfl
  have hp : Point m { s₁ with asyncLock := none } := by
    refine h₁.point.sync (k := none) (p := s₁.producers) (n := s₁.pipe) (fun i => ?_) h₁.point.proper
    rw [← h₁.point.lock i, hl]
    simp
  refine .inr ⟨(), { s₁ with asyncLock := none }, need_ok ⟨h₁.alive, hl⟩, hp, hq _ ?_⟩
  exact {
    point := hp, alive := h₁.alive, view := h₁.view, interest := h₁.interest,
    loop := by simp, woken := h₁.woken, async := by simp,
    touch := ⟨fun _ => hp, h₁.touch.view, h₁.touch.fresh, h₁.touch.next, h₁.touch.frame, h₁.touch.order⟩ }

/-- Unlinking from `async_list`. -/
theorem wp_removeAsync {Q : Bool → St → Prop} (h : At m x s₀ k v s) (hm : moving v.hist = none)
    (hq : ∀ s', v.on .async → At m x s₀ k ((v.off .async).record (.dequeued x)) s' → Q true s')
    (hq' : ¬ v.on .async → Q false s) : Wp m b (qentRemove .async x) Q s := by
  have hw := h.point.walkable h.alive .async
  by_cases ho : v.on .async
  · have hx : x ∈ s.lists .async := (h.mem _).2 ho
    have hv : hist s.log x = v.hist := congrArg View.hist h.view
    obtain ⟨hqd, hlv⟩ := h.sane.async.1 ho
    have hl : Legal m s.log (.dequeued x) := by
      simp only [Legal, Event.about, hv]
      exact ⟨fun t ht => by simp [hm] at ht, hqd, hlv⟩
    have ht : Touch m x s ((s.unlink .async x).emit (.dequeued x)) :=
      touch_leave (by rw [h.view]; exact ho) rfl hl rfl rfl
    refine wp_act rfl trivial fun e _ => ⟨true, (s.unlink .async x).emit (.dequeued x), ?_, ht.point h.point,
      hq _ ho ?_⟩
    · simp only [sys, Op.exec, need_ok hw, hx, and_self, if_true, decide_true]
    · refine { point := ht.point h.point, alive := h.alive, touch := h.touch.trans ht, view := ?_,
               interest := h.interest, loop := h.loop, woken := fun hf hwk => ?_,
               async := fun hk => ?_ }
      · rw [view_emit_self rfl, view_unlink_self (h.point.nodup .async), h.view]
      · rcases h.woken hf hwk with h1 | h1 | h1
        · rw [h1] at hx; cases hx
        · exact .inr (.inl h1)
        · exact .inr (.inr h1)
      · rw [← h.async hk]
        simp only [St.emit, St.unlink, St.setList, Function.update_self]
        exact List.erase_of_not_mem ((h.point.nodup .async).not_mem_erase)
  · have hx : x ∉ s.lists .async := fun hx => ho ((h.mem _).1 hx)
    refine wp_act rfl trivial fun e _ => ⟨false, s, ?_, h.point, hq' ho⟩
    simp only [sys, Op.exec, need_ok hw, hx, and_false, if_false, decide_false, St.unlink, St.setList,
      List.erase_of_not_mem hx, Function.update_eq_self]

/-! ## The interest map -/

/-- The flags that the handles `qs` request for `fd`. -/
def flagsIn (s : St) (fd : Int) (qs : List Ptr) : List UInt32 :=
  (qs.filter fun h => (s.heap h).any (·.fd = fd)).map fun h => ((s.heap h).getD {}).flag

theorem wp_scanFd {fd : Int} {Q : UInt32 × Bool → St → Prop} (hp : Point m s) (qs : List Ptr)
    (hl : ∀ h ∈ qs, (s.heap h).isSome = true) (acc : UInt32) (found : Bool)
    (hq : Q ((flagsIn s fd qs).foldl (· ||| ·) acc, found || !(flagsIn s fd qs).isEmpty) s) :
    Wp m b (scanFd fd qs acc found) Q s := by
  induction qs generalizing acc found with
  | nil => exact wp_pure (by simpa [flagsIn] using hq)
  | cons q qs ih =>
    obtain ⟨hd, hx⟩ := Option.isSome_iff_exists.1 (hl q (by simp))
    refine wp.seq (wp_load hp hx ?_)
    have hl' : ∀ h ∈ qs, (s.heap h).isSome = true := fun h hh => hl h (by simp [hh])
    by_cases hfd : hd.fd = fd
    · have hf : flagsIn s fd (q :: qs) = hd.flag :: flagsIn s fd qs := by simp [flagsIn, hx, hfd]
      rw [hf] at hq
      rw [if_pos hfd]
      exact ih hl' _ _ (by simpa using hq)
    · have hf : flagsIn s fd (q :: qs) = flagsIn s fd qs := by simp [flagsIn, hx, hfd]
      rw [hf] at hq
      rw [if_neg hfd]
      exact ih hl' _ _ hq

/-- What `epoll_ctl` can do to the map. -/
theorem wp_epollCtl {cmd : EpollCmd} {fd : Int} {ev : UInt32} {Q : Option Errno → St → Prop} (hp : Point m s)
    (hq : ∀ err, (m.ctl = false → b.adds = false → err = none) →
      Q (ctlResult s err cmd fd ev).1 (ctlResult s err cmd fd ev).2) : Wp m b (epollCtl cmd fd ev) Q s := by
  refine wp_act rfl trivial fun e hm => ⟨_, _, rfl, ?_, hq e.ctlErr ?_⟩
  · have ht : ∀ i, Touch m s.next s { s with interest := i } := fun i => touch_unseen rfl rfl rfl rfl rfl rfl rfl rfl
    obtain ⟨i, hi⟩ := ctlResult_interest s e.ctlErr cmd fd ev
    show Point m (ctlResult s e.ctlErr cmd fd ev).2
    rw [hi]
    exact (ht i).point hp
  · intro h1 h2
    have hm' : (m.ctl || b.adds || e.ctlErr.isNone) = true := hm
    simpa [h1, h2] using hm'

/-- `epoll_refresh` gives the kernel the wanted interest, or fails and changes
nothing. -/
theorem wp_epollRefresh {fd : Int} {Q : Int → St → Prop} (hp : Point m s) (ha : s.alive = true) (hfd : 0 ≤ fd)
    (hok : 0 ≤ s.epfd → Q 0 { s with interest := Function.update s.interest fd (s.want fd) })
    (herr : ∀ r, (0 ≤ s.epfd → m.ctl = false → b.adds = true) → (s.flagsOn fd ≠ [] → r ≠ 0) → Q r s) :
    Wp m b (epollRefresh fd) Q s := by
  refine wp.seq (wp_ctx hp ha ?_)
  by_cases hep : s.epfd < 0
  · rw [if_pos hep]
    exact herr _ (fun h => absurd h (not_le.2 hep)) (fun _ => by decide)
  have hep' := not_lt.1 hep
  have hnt : ¬ fd ≤ fdTimer := by unfold fdTimer; omega
  simp only [hep, hnt, if_false]
  refine wp.seq (wp_scanFd hp _ (fun h hh => (hp.sane h).live _ hh) _ _ ?_)
  have hfl : flagsIn s fd (s.lists .fdmon) = s.flagsOn fd := rfl
  rw [hfl]
  by_cases hn : s.flagsOn fd = []
  · have hw : s.want fd = none := by simp [St.want, hn]
    simp only [hn, List.isEmpty_nil, Bool.not_true, Bool.or_false, if_true]
    refine wp.seq (wp_epollCtl hp fun err he => ?_)
    cases hi : s.interest fd with
    | none =>
      have hs : { s with interest := Function.update s.interest fd (s.want fd) } = s := by
        rw [hw, ← hi, Function.update_eq_self]
      rw [ctlResult_del_unknown hi]
      exact wp_pure (hs ▸ hok hep')
    | some x =>
      cases err with
      | none =>
        rw [ctlResult_del hi]
        exact wp_pure (hw ▸ hok hep')
      | some c =>
        have hadds : 0 ≤ s.epfd → m.ctl = false → b.adds = true := fun _ h => by
          by_contra hb
          simp at hb
          simpa using he h hb
        rw [ctlResult_failed (by simp [hi])]
        cases c with
        | ebadf => exact wp_pure (herr _ hadds (fun h => absurd hn h))
        | other => exact wp_pure (herr _ hadds (fun h => absurd hn h))
  · have hw : s.want fd = some (toEpoll ((s.flagsOn fd).foldl (· ||| ·) 0)) := by simp [St.want, hn]
    have hne : (s.flagsOn fd).isEmpty = false := by simpa using hn
    simp only [hne, Bool.not_false, Bool.or_true, Bool.true_eq_false, if_false]
    refine wp.seq (wp_epollCtl hp fun err he => ?_)
    have hadds : ∀ {err : Option CtlErr} {c : CtlErr}, err = some c → (m.ctl = false → b.adds = false → err = none) →
        0 ≤ s.epfd → m.ctl = false → b.adds = true := fun hc he _ h => by
      by_contra hb
      simp at hb
      rw [he h hb] at hc
      cases hc
    cases hi : s.interest fd with
    | none =>
      cases err with
      | none =>
        rw [ctlResult_add hi]
        exact wp_pure (hw ▸ hok hep')
      | some c =>
        rw [ctlResult_failed (by simp [hi])]
        cases c with
        | ebadf => exact wp_pure (herr _ (hadds rfl he) (fun _ => by decide))
        | other => exact wp_pure (herr _ (hadds rfl he) (fun _ => by decide))
    | some x =>
      rw [ctlResult_add_known hi]
      refine wp.seq (wp_epollCtl hp fun err' he' => ?_)
      cases err' with
      | none =>
        rw [ctlResult_mod hi]
        exact wp_pure (hw ▸ hok hep')
      | some c =>
        rw [ctlResult_failed (by simp [hi])]
        exact wp_pure (herr _ (hadds rfl he') (fun _ => by decide))

/-- `if (fd >= 0) epoll_refresh(evb, fd)` after work on a handle that concerned
no other descriptor. -/
theorem wp_refreshFd {fd : Int} {Q : Unit → St → Prop} (h : At m x s₀ k v s) (hp₀ : Point m s₀)
    (hx : ∀ fd', fd' ≠ fd → ∀ f, v.Asks fd' f ↔ (s₀.view x).Asks fd' f)
    (hq : ∀ s', Moved m x s₀ k v s' → s'.lists = s.lists →
      (m.ctl = false → b.adds = false → s₀.finalized = false → (∀ fd', 0 ≤ fd' → fd' ≠ fd → s₀.interest fd' = s₀.want fd') →
        Mirror s') → Q () s') : Wp m b (refreshFd fd) Q s := by
  have hw : ∀ fd', fd' ≠ fd → s.want fd' = s₀.want fd' := fun fd' hne =>
    h.touch.want hp₀ (by rw [h.view]; exact hx fd' hne)
  unfold refreshFd
  by_cases hfd : 0 ≤ fd
  · rw [if_pos hfd]
    refine wp.seq (wp_epollRefresh h.point h.alive hfd (fun _ => wp_pure ?_) (fun r hr _ => wp_pure ?_))
    · have ht : Touch m x s { s with interest := Function.update s.interest fd (s.want fd) } :=
        touch_unseen rfl rfl rfl rfl rfl rfl rfl rfl
      refine hq _ ?_ rfl fun _ _ _ hm fd' hfd' => ?_
      · exact ⟨ht.point h.point, h.alive, h.touch.trans ht, h.view, h.loop, h.woken, h.async⟩
      · show Function.update s.interest fd (s.want fd) fd' = s.want fd'
        by_cases hne : fd' = fd
        · rw [hne, Function.update_self]
        · rw [Function.update_of_ne hne, h.interest, hw fd' hne, hm fd' hfd' hne]
    · refine hq _ h.toMoved rfl fun hc hb hf => ?_
      have hep : 0 ≤ s.epfd := (h.point.opened (h.touch.finalized.trans hf)).1
      rw [hr hep hc] at hb
      cases hb
  · rw [if_neg hfd]
    refine wp_pure (hq _ h.toMoved rfl fun _ _ _ hm fd' hfd' => ?_)
    have hne : fd' ≠ fd := by rintro rfl; exact hfd hfd'
    rw [h.interest, hw fd' hne, hm fd' hfd' hne]

/-! ## Timers -/

theorem wp_evb2SetTimeout {now : UInt64} {Q : Unit → St → Prop} (h : At m x s₀ k v s) (hx : v.hd = some hd)
    (hq : v.MayHave m (timeoutFrom hd.timeoutMs now) → ∀ s', At m x s₀ k
      (v.put { hd with timeoutAt := timeoutFrom hd.timeoutMs now }) s' → Q () s') :
    Wp m b (evb2SetTimeout x now) Q s :=
  wp.seq (wp_load h.point (h.heap.trans hx) (wp_setTimeoutAt h hx hq))

/-- The view after `if (h->timeout_at != UINT64_MAX) timer_insert(evb, h)`. -/
noncomputable def View.arm (v : View) (x : Ptr) (hd : Handle) : View :=
  if hd.timeoutAt = uint64Max then v
  else (v.join .timer).record (.armed x hd.timeoutAt)

theorem wp_timerInsertFinite {Q : Unit → St → Prop} (h : At m x s₀ k v s) (hx : v.hd = some hd) (hn : ¬ v.noti)
    (ho : ¬ v.on .timer) (hr : ¬ v.on .ready) (ha : ¬ v.on .async)
    (hm : ∀ t, moving v.hist = some t → t = hd.timeoutAt)
    (hq : ∀ s', At m x s₀ k (v.arm x hd) s' → Q () s') : Wp m b (timerInsertFinite x) Q s := by
  refine wp.seq (wp_load h.point (h.heap.trans hx) ?_)
  by_cases ht : hd.timeoutAt = uint64Max
  · simp only [View.arm, ht, if_true] at hq
    simp only [ht, ne_eq, not_true_eq_false, if_false]
    exact wp_pure (hq _ h)
  · simp only [View.arm, ht, if_false] at hq
    simp only [ne_eq, ht, not_false_eq_true, if_true]
    exact wp_timerInsert h hx hn ho hr ha hm hq

/-- The deadline a handle gets when it is re-armed. -/
def restartFrom (timeoutMs now : UInt64) : UInt64 :=
  if timeoutMs = 0 then rearmFrom now else timeoutFrom timeoutMs now

theorem wp_evb2ArmTimer {Q : Unit → St → Prop} (h : At m x s₀ k v s) (hx : v.hd = some hd) (hn : ¬ v.noti)
    (ho : ¬ v.on .timer) (hr : ¬ v.on .ready) (ha : ¬ v.on .async) (hm : moving v.hist = none)
    (hq : ∀ now s', v.MayHave m (restartFrom hd.timeoutMs now) →
      At m x s₀ k ((v.put { hd with timeoutAt := restartFrom hd.timeoutMs now }).arm x
        { hd with timeoutAt := restartFrom hd.timeoutMs now }) s' → Q () s') : Wp m b (evb2ArmTimer x) Q s := by
  refine wp.seq (wp_now h.point fun now => wp.seq ?_)
  refine wp_remove h (by simp) (by simp [hx]) fun r s₁ _ h₁ => ?_
  rw [v.off_eq _ ho] at h₁
  have hfin : v.MayHave m (restartFrom hd.timeoutMs now) → ∀ s',
      At m x s₀ k (v.put { hd with timeoutAt := restartFrom hd.timeoutMs now }) s' →
      Wp m b (timerInsertFinite x) Q s' := fun hmay s' h' =>
    wp_timerInsertFinite h' rfl hn ho hr ha (fun t ht => by simp [hm] at ht) fun s'' h'' => hq now s'' hmay h''
  refine wp.seq (wp.seq (wp_load h₁.point (h₁.heap.trans hx) ?_))
  by_cases h0 : hd.timeoutMs = 0
  · have hr' : restartFrom hd.timeoutMs now = rearmFrom now := if_pos h0
    rw [hr'] at hfin
    rw [if_pos h0]
    exact wp_setTimeoutAt h₁ hx hfin
  · have hr' : restartFrom hd.timeoutMs now = timeoutFrom hd.timeoutMs now := if_neg h0
    rw [hr'] at hfin
    rw [if_neg h0]
    exact wp_evb2SetTimeout h₁ hx hfin

theorem wp_handleDetach {Q : Unit → St → Prop} (h : At m x s₀ k v s) (hx : v.hd.isSome = true)
    (hq : ∀ s', At m x s₀ k (((v.off .fdmon).off .timer).off .ready) s' → Q () s') : Wp m b (handleDetach x) Q s := by
  refine wp.seq (wp_remove h (by simp) hx fun _ s₁ _ h₁ => ?_)
  refine wp.seq (wp_remove h₁ (by simp) hx fun _ s₂ _ h₂ => ?_)
  refine wp.seq (wp_remove h₂ (by simp) hx fun _ s₃ _ h₃ => ?_)
  exact wp_pure (hq _ h₃)

/-! ## New handles -/

theorem wp_calloc {Q : Option Ptr → St → Prop} (hp : Point m s) (ha : s.alive = true)
    (hk : s.asyncLock = some .loop ↔ k = .held) (h0 : Q none s)
    (h1 : ∀ s', At m s.next s k (View.empty.put {}) s' → Q (some s.next) s') : Wp m b calloc Q s := by
  refine wp_act rfl trivial fun e _ => ?_
  cases hm : e.mallocOk with
  | false => exact ⟨none, s, by simp [sys, Op.exec, hm], hp, h0⟩
  | true =>
    have ht : Touch m s.next s s.allocate := touch_allocate
    refine ⟨some s.next, s.allocate, by simp [sys, Op.exec, hm], ht.point hp, h1 _ ?_⟩
    refine (At.start hp ha hk).next ht ?_ rfl rfl rfl rfl rfl
    rw [view_allocate_self, hp.fresh _ (le_refl _)]

theorem wp_handleAlloc {Q : Option Ptr → St → Prop} (hp : Point m s) (ha : s.alive = true)
    (hk : s.asyncLock = some .loop ↔ k = .held) (h0 : Q none s)
    (h1 : ∀ s', At m s.next s k (View.empty.put { fd := fdTimer }) s' → Q (some s.next) s') :
    Wp m b handleAlloc Q s :=
  wp.seq (wp_calloc hp ha hk (wp_pure h0) fun _ h => wp.seq (wp_store h rfl fun _ h' => wp_pure (h1 _ h')))

/-- Linking into `async_list` and waking the loop, under the mutex. -/
theorem wp_queueTimer {Q : Unit → St → Prop} (h : At m x s₀ .held v s) (hf : s₀.finalized = false)
    (hx : v.hd.isSome = true) (hn : ¬ v.noti) (ho : ∀ a, ¬ v.on a) (hh : v.hist = [])
    (hq : ∀ s', At m x s₀ .held ((v.join .async).record (.queued x)) s' → Q () s') :
    Wp m b (qentInsertTail .async x) (fun _ s' => Wp m b evb2Wake Q s') s := by
  have ht : Touch m x s ((s.append .async x).emit (.queued x)) := by
    refine touch_enqueue ?_ ?_ ?_ ?_ <;> rw [h.view] <;> assumption
  have hlf : s.LinkFree .async x := linkFree_of (by rw [h.view]; exact fun a _ => ho a) (by simp)
  have hlive : s.Live x := by
    show (s.heap x).isSome = true
    rw [h.heap]; exact hx
  have hp₁ := ht.point h.point
  refine wp_act rfl trivial fun e _ => ⟨(), (s.append .async x).emit (.queued x), ?_, hp₁, ?_⟩
  · simp only [sys, Op.exec, need_ok (And.intro (h.point.walkable h.alive .async) (And.intro hlive hlf)), if_true]
  set s₁ := (s.append .async x).emit (.queued x) with hs₁
  have hf₁ : s₁.finalized = false := ht.finalized.trans (h.touch.finalized.trans hf)
  have hwr : ¬ s₁.asyncPipe1 < 0 := not_lt.2 (hp₁.opened hf₁).2.2
  have hl₁ : s₁.asyncLock = some .loop := h.loop.2 rfl
  refine wp.seq (wp_ctx hp₁ h.alive ?_)
  rw [if_neg hwr]
  refine wp_act_yield rfl fun s₂ hi => ⟨trivial, fun e _ => .inr ⟨(), _, rfl, ?_⟩⟩
  have hs₂ := hi.held hl₁
  have hp₂ := hi.point hp₁
  set n := if s₂.pipe < s₂.pipeCap then s₂.pipe + 1 else s₂.pipe with hn'
  have hp₃ : Point m { s₂ with pipe := n } := hp₂.sync (k := s₂.asyncLock) hp₂.lock hp₂.proper
  have ht₃ : Touch m x s₂ { s₂ with pipe := n } := touch_unseen rfl rfl rfl rfl rfl rfl rfl rfl
  have hv₁ : s₁.view x = (v.join .async).record (.queued x) := by
    rw [hs₁, view_emit_self rfl, view_append_self, h.view]
  have hlt : x < s₁.next := hp₁.lt_next (by rw [hv₁]; exact hx)
  refine ⟨hp₃, hq _ ?_⟩
  refine ⟨⟨hp₃, hi.alive.trans h.alive, (h.touch.trans ht).trans ((hi.touch x).trans ht₃), ?_, ?_, ?_, ?_⟩, ?_⟩
  · show s₂.view x = _
    rw [hi.view x hlt, hv₁]
  · exact iff_of_true (hi.loop.2 hl₁) rfl
  · intro _ _
    refine .inr (.inl ?_)
    have := hp₂.cap
    show 0 < n
    rw [hn']
    split <;> omega
  · intro hk; cases hk
  · exact hi.interest.trans h.interest

end Rules

end AlgaeBp.Evb2
