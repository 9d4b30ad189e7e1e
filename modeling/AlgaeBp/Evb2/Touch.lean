import AlgaeBp.Evb2.View
/-!
# What an operation on one handle leaves alone

`Touch m x s s'`: the loop thread worked on handle `x`, and other threads may
have queued new one-shot timers meanwhile. One lemma for each operation on a
handle, and one for the steps of other threads.
-/
namespace AlgaeBp.Evb2

/-! ## Views after single operations -/

namespace View.Sane

variable {v : View} {l : ListId} {x : Ptr} {hd : Handle} {e : Event}

theorem put (h : v.Sane) (hs : v.hd.isSome = true) : (v.put hd).Sane where
  link := h.link
  timer := h.timer
  noti := h.noti
  live _ _ := rfl
  notiLive _ := rfl
  freed hf := by simp [h.freed hf] at hs
  lost hn := by simp at hn
  async := h.async

theorem allocate : (View.empty.put hd).Sane where
  link := by simp [View.empty]
  timer := by simp [View.empty]
  noti := by simp [View.empty]
  live _ _ := rfl
  notiLive _ := rfl
  freed := by simp [View.empty]
  lost := by simp
  async := by simp [View.empty]

/-- Events that do not move the handle between lists or free it. -/
theorem emit (h : v.Sane) (hs : v.hd.isSome = true ∨ v.hist ≠ []) (hf : e.isFreed = false)
    (hq : e.isQueued = false) (hl : e.leaves = false) : (v.record e).Sane where
  link := h.link
  timer := h.timer
  noti := h.noti
  live := h.live
  notiLive := h.notiLive
  freed h' := h.freed (by simpa [hf] using h')
  lost hn _ := by
    rcases hs with hs | hs
    · simp [show v.hd = none from hn] at hs
    · simpa [hf] using h.lost hn hs
  async := by simpa [hq, hl] using h.async

/-- Leaving lists. -/
theorem shrink {v' : View} (h : v.Sane) (hd : v'.hd = v.hd) (hn : v'.noti = v.noti) (ho : ∀ l, v'.on l → v.on l)
    (hf : v'.hist.any Event.isFreed = v.hist.any Event.isFreed)
    (hl : v.hd = none → v'.hist ≠ [] → v.hist ≠ [])
    (ha : v'.on .async ↔ v'.hist.any Event.isQueued = true ∧ v'.hist.any Event.leaves = false) : v'.Sane where
  link a b hat hbt h1 h2 := h.link a b hat hbt (ho a h1) (ho b h2)
  timer h1 := ⟨fun hr => (h.timer (ho _ h1)).1 (ho _ hr), fun hr => (h.timer (ho _ h1)).2 (ho _ hr)⟩
  noti hn' a h1 := h.noti (hn ▸ hn') a (ho a h1)
  live a h1 := by rw [hd]; exact h.live a (ho a h1)
  notiLive h1 := by rw [hd]; exact h.notiLive (hn ▸ h1)
  freed h1 := by rw [hd]; exact h.freed (hf ▸ h1)
  lost h1 h2 := by rw [hf]; exact h.lost (hd ▸ h1) (hl (hd ▸ h1) h2)
  async := ha

theorem off (h : v.Sane) (hl : l ≠ .async) : (v.off l).Sane := by
  refine h.shrink rfl rfl (fun a ha => ((v.off_on l a).1 ha).2) rfl (fun _ => id) ?_
  simpa [Ne.symm hl] using h.async

/-- Leaving `async_list`, as the log records it. -/
theorem leave (h : v.Sane) (hl : e.leaves = true) (hf : e.isFreed = false) (hs : v.hd.isSome = true) :
    ((v.off .async).record e).Sane := by
  refine h.shrink rfl rfl (fun a ha => ((v.off_on .async a).1 ha).2) (by simp [hf]) (fun hn => ?_) ?_
  · simp [hn] at hs
  · simp [hl]

/-- Joining `fdmon_list` or `ready_list`. -/
theorem link_on (h : v.Sane) (hl : l = .fdmon ∨ l = .ready) (hs : v.hd.isSome = true) (hn : ¬ v.noti)
    (ho : ∀ a, a ≠ .timer → ¬ v.on a) (ht : l = .ready → ¬ v.on .timer) : (v.join l).Sane where
  link a b ha hb h1 h2 := by
    simp only [View.join_on, ho a ha, ho b hb, or_false] at h1 h2
    rw [h1, h2]
  timer h1 := by
    rcases hl with rfl | rfl
    · simp [ho .ready (by simp), ho .async (by simp)]
    · simp [ht rfl] at h1
  noti h1 := absurd h1 hn
  live _ _ := hs
  notiLive := h.notiLive
  freed := h.freed
  lost := h.lost
  async := by rcases hl with rfl | rfl <;> simpa using h.async

/-- Joining `async_list`, as the log records it. -/
theorem enqueue (h : v.Sane) (hs : v.hd.isSome = true) (hn : ¬ v.noti) (ho : ∀ a, ¬ v.on a) (hh : v.hist = []) :
    ((v.join .async).record (.queued x)).Sane where
  link a b _ _ h1 h2 := by
    simp only [View.record_on, View.join_on, ho, or_false] at h1 h2
    rw [h1, h2]
  timer h1 := by simp [ho] at h1
  noti h1 := absurd h1 hn
  live _ _ := hs
  notiLive := h.notiLive
  freed h' := by simp [hh, Event.isFreed] at h'
  lost h' := by simp [show v.hd = none from h'] at hs
  async := by simp [hh, Event.isQueued, Event.leaves]

theorem arm (h : v.Sane) (hs : v.hd.isSome = true) (hn : ¬ v.noti) (hr : ¬ v.on .ready) (ha : ¬ v.on .async) :
    (v.join .timer).Sane where
  link a b hat hbt h1 h2 := by
    simp only [View.join_on, hat, hbt, false_or] at h1 h2
    exact h.link a b hat hbt h1 h2
  timer _ := by simp [hr, ha]
  noti h1 := absurd h1 hn
  live _ _ := hs
  notiLive := h.notiLive
  freed := h.freed
  lost := h.lost
  async := by simpa using h.async

theorem release (h : v.Sane) (hn : ¬ v.noti) (ho : ∀ a, ¬ v.on a) : (v.free x).Sane where
  link _ _ _ _ h1 := absurd h1 (ho _)
  timer h1 := absurd h1 (ho _)
  noti h1 := absurd h1 hn
  live a ha := absurd ha (ho a)
  notiLive h1 := absurd h1 hn
  freed _ := rfl
  lost _ _ := by simp [Event.isFreed]
  async := by simpa [Event.isQueued, Event.leaves] using h.async

theorem notify {p : Prop} (h : v.Sane) (hs : v.hd.isSome = true) (ho : ∀ a, ¬ v.on a) : (v.notify p).Sane where
  link := h.link
  timer := h.timer
  noti _ := ho
  live := h.live
  notiLive _ := hs
  freed := h.freed
  lost := h.lost
  async := h.async

end View.Sane

/-! ## The relation -/

/-- A one-shot timer that another thread has queued. -/
structure Queued (m : Mode) (h : Ptr) (v : View) : Prop where
  hd : ∃ hd, v.hd = some hd ∧ ProperTimer m hd
  on : ∀ l, v.on l ↔ l = .async
  noti : ¬ v.noti
  hist : v.hist = [.added h, .queued h]

structure Touch (m : Mode) (x : Nat) (s s' : St) : Prop where
  point : Point m s → Point m s'
  view : ∀ k, k ≠ x → k < s.next → s'.view k = s.view k
  fresh : ∀ k, k ≠ x → s.next ≤ k → k < s'.next → s.stopping = false ∧ Queued m k (s'.view k)
  next : s.next ≤ s'.next
  frame : s'.frame = s.frame
  /-- The other handles on a list keep their order. -/
  order : Point m s → ∀ l, l ≠ .async → (s'.lists l).erase x = (s.lists l).erase x

namespace Touch

variable {m : Mode} {x : Nat} {a b c s s' : St} {l : ListId} {hd : Handle} {e : Event}

theorem refl (m : Mode) (x : Nat) (s : St) : Touch m x s s where
  point := id
  view _ _ _ := rfl
  fresh k _ h h' := by omega
  next := le_refl _
  frame := rfl
  order _ _ _ := rfl

theorem stopping (h : Touch m x a b) : b.stopping = a.stopping := congrArg Frame.stopping h.frame

theorem trans (h : Touch m x a b) (h' : Touch m x b c) : Touch m x a c where
  point hp := h'.point (h.point hp)
  view k hk hn := (h'.view k hk (lt_of_lt_of_le hn h.next)).trans (h.view k hk hn)
  fresh k hk hn hn' := by
    by_cases hb : k < b.next
    · rw [h'.view k hk hb]; exact h.fresh k hk hn hb
    · rw [← h.stopping]; exact h'.fresh k hk (not_lt.1 hb) hn'
  next := le_trans h.next h'.next
  frame := h'.frame.trans h.frame
  order hp l hl := (h'.order (h.point hp) l hl).trans (h.order hp l hl)

end Touch

/-- The log stayed as it is, or recorded one legal event about `x`. -/
def LogStep (m : Mode) (x : Ptr) (s s' : St) : Prop :=
  s'.log = s.log ∨ ∃ e, e.about = some x ∧ Legal m s.log e ∧ s'.log = e :: s.log

theorem LogStep.ok {m : Mode} {x : Ptr} {s s' : St} (h : LogStep m x s s') (hl : LogOk m s.log) : LogOk m s'.log := by
  rcases h with h | ⟨e, -, he, h⟩
  · rwa [h]
  · rw [h]; exact ⟨he, hl⟩

theorem LogStep.mem {m : Mode} {x : Ptr} {s s' : St} (h : LogStep m x s s') {e : Event} (he : e.about = none) :
    e ∈ s'.log ↔ e ∈ s.log := by
  rcases h with h | ⟨e', he', -, h⟩
  · rw [h]
  · have hne : e ≠ e' := by rintro rfl; rw [he] at he'; cases he'
    simp [h, hne]

/-- An operation on `x` alone keeps every point property if it keeps those of `x`. -/
theorem Touch.of_local {m : Mode} {x : Nat} {s s' : St} (hv : ∀ k, k ≠ x → s'.view k = s.view k)
    (hf : s'.frame = s.frame) (hl : s'.asyncLock = s.asyncLock) (hp : s'.producers = s.producers)
    (hn : s'.next = s.next ∨ x = s.next ∧ s'.next = s.next + 1)
    (hd : Point m s → ∀ l, (s'.lists l).Nodup)
    (ho : Point m s → ∀ l, l ≠ .async → (s'.lists l).erase x = (s.lists l).erase x)
    (hx : Point m s → (s'.view x).Sane ∧ x < s'.next) (hlog : Point m s → LogStep m x s s') : Touch m x s s' where
  point h := by
    have hlog := hlog h
    simp only [St.frame, Frame.mk.injEq] at hf
    obtain ⟨h1, h2, h3, h4, -, h6, h7, h8⟩ := hf
    exact {
      nodup := hd h
      sane := fun k => by
        by_cases hk : k = x
        · subst hk; exact (hx h).1
        · rw [hv k hk]; exact h.sane k
      fresh := fun k hkn => by
        have hk : k ≠ x := by rintro rfl; have := (hx h).2; omega
        rw [hv k hk]; exact h.fresh k (by omega)
      wake_lt := lt_of_lt_of_le h.wake_lt (show s.next ≤ s'.next by omega)
      log := hlog.ok h.log
      ctx := by rw [h7, hlog.mem rfl]; exact h.ctx
      stop := by rw [h4, hlog.mem rfl]; exact h.stop
      lock := by rw [hl, hp]; exact h.lock
      proper := by rw [hp]; exact h.proper
      opened := by rw [h1, h2, h3, h6]; exact h.opened
      cap := by rw [h8]; exact h.cap }
  view k hk _ := hv k hk
  fresh k hk h h' := by omega
  next := by omega
  frame := hf
  order := ho

/-! ## Single operations -/

theorem Point.lt_next {m : Mode} {s : St} (h : Point m s) {x : Nat} (hx : (s.view x).hd.isSome = true) :
    x < s.next := by
  by_contra hn
  rw [h.fresh x (not_lt.1 hn)] at hx
  simp [View.empty] at hx

theorem nodup_setList {s : St} {l : ListId} {xs : List Ptr} (h : ∀ l, (s.lists l).Nodup) (hx : xs.Nodup) (l' : ListId) :
    ((s.setList l xs).lists l').Nodup := by
  by_cases hl : l' = l
  · subst hl; simpa [St.setList] using hx
  · simpa [St.setList, hl] using h l'

section Operations
variable {m : Mode} {s : St} {x : Nat} {l : ListId} {hd : Handle} {e : Event}

theorem erase_unlink (h : ∀ l, (s.lists l).Nodup) (l' : ListId) (_ : l' ≠ .async) :
    ((s.unlink l x).lists l').erase x = (s.lists l').erase x := by
  by_cases hl : l' = l
  · subst hl
    simp only [St.unlink, St.setList, Function.update_self]
    exact List.erase_of_not_mem ((h l').not_mem_erase)
  · simp [St.unlink, St.setList, hl]

theorem erase_append (hx : x ∉ s.lists l) (l' : ListId) (_ : l' ≠ .async) :
    ((s.append l x).lists l').erase x = (s.lists l').erase x := by
  by_cases hl : l' = l
  · subst hl
    simp [St.append, St.setList, List.erase_append_right _ hx, List.erase_of_not_mem hx]
  · simp [St.append, St.setList, hl]

theorem touch_put (hx : (s.view x).hd.isSome = true) : Touch m x s (s.put x hd) := by
  refine .of_local (fun k hk => view_put_ne hk) rfl rfl rfl (.inl rfl) (fun h => h.nodup)
    (fun _ _ _ => rfl) (fun h => ?_) (fun _ => .inl rfl)
  rw [view_put_self]
  exact ⟨(h.sane x).put hx, h.lt_next hx⟩

theorem touch_emit (hx : (s.view x).hd.isSome = true ∨ (s.view x).hist ≠ []) (ha : e.about = some x)
    (hl : Legal m s.log e) (hf : e.isFreed = false) (hq : e.isQueued = false) (hv : e.leaves = false) :
    Touch m x s (s.emit e) := by
  refine .of_local (fun k hk => view_emit_ne ?_) rfl rfl rfl (.inl rfl) (fun h => h.nodup)
    (fun _ _ _ => rfl) (fun h => ?_) (fun _ => .inr ⟨e, ha, hl, rfl⟩)
  · rw [ha]; simpa using Ne.symm hk
  · rw [view_emit_self ha]
    refine ⟨(h.sane x).emit hx hf hq hv, ?_⟩
    by_contra hn
    have := h.fresh x (not_lt.1 hn)
    simp [this, View.empty] at hx

/-- `notifying` is set to `x`, or back. -/
theorem touch_notify {o : Option Ptr} (hx : (s.view x).hd.isSome = true) (ho : ∀ a, ¬ (s.view x).on a)
    (hn : s.notifying = none ∧ o = some x ∨ s.notifying = some x ∧ o = none) :
    Touch m x s { s with notifying := o } := by
  refine .of_local (fun k hk => ?_) rfl rfl rfl (.inl rfl) (fun h => h.nodup) (fun _ _ _ => rfl) (fun h => ?_)
    (fun _ => .inl rfl)
  · simp only [St.view, View.mk.injEq, true_and, and_true, eq_iff_iff]
    rcases hn with ⟨hn, rfl⟩ | ⟨hn, rfl⟩ <;> simp [hn, Ne.symm hk]
  · exact ⟨(h.sane x).notify (p := o = some x) hx ho, h.lt_next hx⟩

theorem touch_unlink (hl : l ≠ .async) (hx : (s.view x).hd.isSome = true) : Touch m x s (s.unlink l x) := by
  refine .of_local (fun k hk => view_unlink_ne hk) rfl rfl rfl (.inl rfl)
    (fun h => nodup_setList h.nodup ((h.nodup l).erase x)) (fun h => erase_unlink h.nodup) (fun h => ?_)
    (fun _ => .inl rfl)
  rw [view_unlink_self (h.nodup l)]
  exact ⟨(h.sane x).off hl, h.lt_next hx⟩

/-- Taking `x` off `async_list`. -/
theorem touch_leave (hx : (s.view x).on .async) (ha : e.about = some x) (hl : Legal m s.log e)
    (hv : e.leaves = true) (hf : e.isFreed = false) : Touch m x s ((s.unlink .async x).emit e) := by
  refine .of_local (fun k hk => ?_) rfl rfl rfl (.inl rfl)
    (fun h => nodup_setList h.nodup ((h.nodup .async).erase x)) (fun h => erase_unlink h.nodup) (fun h => ?_)
    (fun _ => .inr ⟨e, ha, hl, rfl⟩)
  · rw [view_emit_ne (by rw [ha]; simpa using Ne.symm hk), view_unlink_ne hk]
  · rw [view_emit_self ha, view_unlink_self (h.nodup .async)]
    have hs := (h.sane x).live _ hx
    exact ⟨(h.sane x).leave hv hf hs, h.lt_next hs⟩

theorem nodup_append_one {xs : List Ptr} (h : xs.Nodup) (hx : x ∉ xs) : (xs ++ [x]).Nodup := by
  rw [List.nodup_append]
  refine ⟨h, List.nodup_singleton x, fun a ha b hb => ?_⟩
  rw [List.mem_singleton] at hb
  rintro rfl
  exact hx (hb ▸ ha)

theorem touch_append (hl : l = .fdmon ∨ l = .ready) (hx : (s.view x).hd.isSome = true) (hn : ¬ (s.view x).noti)
    (ho : ∀ a, a ≠ .timer → ¬ (s.view x).on a) (ht : l = .ready → ¬ (s.view x).on .timer) :
    Touch m x s (s.append l x) := by
  have hlt : l ≠ .timer := by rcases hl with rfl | rfl <;> simp
  refine .of_local (fun k hk => view_append_ne hk) rfl rfl rfl (.inl rfl)
    (fun h => nodup_setList h.nodup (nodup_append_one (h.nodup l) (ho l hlt)))
    (fun _ => erase_append (ho l hlt)) (fun h => ?_) (fun _ => .inl rfl)
  rw [view_append_self]
  exact ⟨(h.sane x).link_on hl hx hn ho ht, h.lt_next hx⟩

/-- Linking `x` into `async_list`. -/
theorem touch_enqueue (hx : (s.view x).hd.isSome = true) (hn : ¬ (s.view x).noti) (ho : ∀ a, ¬ (s.view x).on a)
    (hh : (s.view x).hist = []) : Touch m x s ((s.append .async x).emit (.queued x)) := by
  refine .of_local (fun k hk => ?_) rfl rfl rfl (.inl rfl)
    (fun h => nodup_setList h.nodup (nodup_append_one (h.nodup .async) (ho .async)))
    (fun _ => erase_append (ho .async)) (fun h => ?_) (fun _ => .inr ⟨_, rfl, ?_, rfl⟩)
  · rw [view_emit_ne (by simpa [Event.about] using Ne.symm hk), view_append_ne hk]
  · rw [view_emit_self rfl, view_append_self]
    exact ⟨(h.sane x).enqueue hx hn ho hh, h.lt_next hx⟩
  · have hh' : hist s.log x = [] := hh
    simp [Legal, Event.about, Event.PassesOn, Event.Fits, hh', moving]

/-- Inserting `x` into `timer_list`. -/
theorem touch_arm (hx : (s.view x).hd.isSome = true) (hn : ¬ (s.view x).noti) (ht : ¬ (s.view x).on .timer)
    (hr : ¬ (s.view x).on .ready) (ha : ¬ (s.view x).on .async)
    (hm : ∀ t, moving (s.view x).hist = some t → t = s.deadline x) :
    Touch m x s ((s.arm x).emit (.armed x (s.deadline x))) := by
  refine .of_local (fun k hk => ?_) rfl rfl rfl (.inl rfl) (fun h => nodup_setList h.nodup ?_) (fun _ l _ => ?_)
    (fun h => ?_) (fun _ => .inr ⟨_, rfl, ?_, rfl⟩)
  · rw [view_emit_ne (by simpa [Event.about] using Ne.symm hk), view_arm_ne hk]
  · have hp := List.perm_orderedInsert (fun a b => s.deadline a < s.deadline b) x (s.lists .timer)
    exact hp.nodup_iff.2 (List.nodup_cons.2 ⟨ht, h.nodup .timer⟩)
  · by_cases hl : l = .timer
    · subst hl
      simp only [St.arm, St.setList, St.emit, Function.update_self]
      rw [List.erase_orderedInsert_of_notMem ht, List.erase_of_not_mem ht]
    · simp [St.arm, St.setList, St.emit, hl]
  · rw [view_emit_self rfl, view_arm_self]
    exact ⟨((h.sane x).arm hx hn hr ha).emit (.inl hx) rfl rfl rfl, h.lt_next hx⟩
  · refine ⟨fun t h => .inl ⟨x, ?_⟩, trivial⟩
    rw [hm t h]

theorem touch_release (hx : (s.view x).hd.isSome = true) (hn : ¬ (s.view x).noti) (ho : ∀ a, ¬ (s.view x).on a)
    (hm : moving (s.view x).hist = none) : Touch m x s (s.release x) := by
  refine .of_local (fun k hk => view_release_ne hk) rfl rfl rfl (.inl rfl) (fun h => h.nodup)
    (fun _ _ _ => rfl) (fun h => ?_) (fun h => .inr ⟨_, rfl, ?_, rfl⟩)
  · rw [view_release_self]
    exact ⟨(h.sane x).release hn ho, h.lt_next hx⟩
  · refine ⟨fun t ht => ?_, ?_⟩
    · rw [show moving (hist s.log x) = none from hm] at ht; cases ht
    · have := (h.sane x).freed
      rcases hf : (s.view x).hist.any Event.isFreed with _ | _
      · exact hf
      · rw [this hf] at hx; cases hx

theorem touch_allocate : Touch m s.next s s.allocate := by
  refine .of_local (fun k hk => view_allocate_ne hk) rfl rfl rfl (.inr ⟨rfl, rfl⟩) (fun h => h.nodup)
    (fun _ _ _ => rfl) (fun h => ?_) (fun _ => .inl rfl)
  rw [view_allocate_self, h.fresh s.next (le_refl _)]
  exact ⟨.allocate, Nat.lt_succ_self _⟩

/-- Operations that no handle sees. -/
theorem touch_unseen {s' : St} (hh : s'.heap = s.heap) (hl : s'.lists = s.lists) (hn : s'.notifying = s.notifying)
    (hg : s'.log = s.log) (hf : s'.frame = s.frame) (hk : s'.asyncLock = s.asyncLock)
    (hp : s'.producers = s.producers) (hx : s'.next = s.next) : Touch m x s s' where
  point h := by
    simp only [St.frame, Frame.mk.injEq] at hf
    obtain ⟨h1, h2, h3, h4, -, h6, h7, h8⟩ := hf
    have hv : ∀ k, s'.view k = s.view k := fun k => by simp [St.view, hh, hl, hn, hg]
    exact {
      nodup := by rw [hl]; exact h.nodup
      sane := fun k => by rw [hv k]; exact h.sane k
      fresh := fun k hk => by rw [hv k]; exact h.fresh k (hx ▸ hk)
      wake_lt := by rw [hx]; exact h.wake_lt
      log := by rw [hg]; exact h.log
      ctx := by rw [h7, hg]; exact h.ctx
      stop := by rw [h4, hg]; exact h.stop
      lock := by rw [hk, hp]; exact h.lock
      proper := by rw [hp]; exact h.proper
      opened := by rw [h1, h2, h3, h6]; exact h.opened
      cap := by rw [h8]; exact h.cap }
  view k _ _ := by simp [St.view, hh, hl, hn, hg]
  fresh k _ h h' := by omega
  next := by omega
  frame := hf
  order _ _ _ := by rw [hl]

end Operations

/-! ## Steps of other threads -/

/-- Whoever queued a timer has woken the loop or is about to. -/
def Wake (s : St) : Prop :=
  s.lists .async = [] ∨ 0 < s.pipe ∨ ∃ (i : Nat) (h : Ptr), s.producers[i]? = some (.linked h)

/-- What other threads may change while the loop thread waits for a step of its own. -/
structure Interf (m : Mode) (s s' : St) : Prop where
  point : Point m s → Point m s'
  view : ∀ k : Nat, k < s.next → s'.view k = s.view k
  fresh : ∀ k : Nat, s.next ≤ k → k < s'.next → s.stopping = false ∧ Queued m k (s'.view k)
  next : s.next ≤ s'.next
  frame : s'.frame = s.frame
  interest : s'.interest = s.interest
  notifying : s'.notifying = s.notifying
  lists : ∀ l, l ≠ .async → s'.lists l = s.lists l
  loop : s'.asyncLock = some .loop ↔ s.asyncLock = some .loop
  held : s.asyncLock = some .loop → s' = { s with producers := s'.producers }
  woken : s.finalized = false → Wake s → Wake s'

namespace Interf

variable {m : Mode} {a b c s s' : St}

theorem refl (m : Mode) (s : St) : Interf m s s where
  point := id
  view _ _ := rfl
  fresh k h h' := by omega
  next := le_refl _
  frame := rfl
  interest := rfl
  notifying := rfl
  lists _ _ := rfl
  loop := Iff.rfl
  held _ := rfl
  woken _ := id

theorem stopping (h : Interf m a b) : b.stopping = a.stopping := congrArg Frame.stopping h.frame
theorem finalized (h : Interf m a b) : b.finalized = a.finalized := congrArg Frame.finalized h.frame
theorem alive (h : Interf m a b) : b.alive = a.alive := congrArg Frame.alive h.frame
theorem inRun (h : Interf m a b) : b.inRun = a.inRun := congrArg Frame.inRun h.frame

theorem trans (h : Interf m a b) (h' : Interf m b c) : Interf m a c where
  point hp := h'.point (h.point hp)
  view k hn := (h'.view k (lt_of_lt_of_le hn h.next)).trans (h.view k hn)
  fresh k hn hn' := by
    by_cases hb : k < b.next
    · rw [h'.view k hb]; exact h.fresh k hn hb
    · rw [← h.stopping]; exact h'.fresh k (not_lt.1 hb) hn'
  next := le_trans h.next h'.next
  frame := h'.frame.trans h.frame
  interest := h'.interest.trans h.interest
  notifying := h'.notifying.trans h.notifying
  lists l hl := (h'.lists l hl).trans (h.lists l hl)
  loop := h'.loop.trans h.loop
  held hl := by
    rw [h'.held (h.loop.2 hl), h.held hl]
  woken hf hw := h'.woken (h.finalized ▸ hf) (h.woken hf hw)

theorem touch (h : Interf m s s') (x : Ptr) : Touch m x s s' where
  point := h.point
  view k _ hk := h.view k hk
  fresh k _ hk hk' := h.fresh k hk hk'
  next := h.next
  frame := h.frame
  order _ l hl := by rw [h.lists l hl]

end Interf

section Other
variable {m : Mode} {s : St} {i : Nat} {p p' : Producer} {hd : Handle}

/-- Points see of the other threads only who holds the mutex and what is filled in. -/
theorem Point.sync (h : Point m s) {k : Option Who} {p : List Producer} {n : Nat}
    (hl : ∀ i, k = some (.producer i) ↔ ∃ q, p[i]? = some q ∧ q.holds = true) (hp : ∀ q ∈ p, q.Proper m) :
    Point m { s with asyncLock := k, producers := p, pipe := n } where
  nodup := h.nodup
  sane := h.sane
  fresh := h.fresh
  wake_lt := h.wake_lt
  log := h.log
  ctx := h.ctx
  stop := h.stop
  lock := hl
  proper := hp
  opened := h.opened
  cap := h.cap

/-- A step of another thread that no handle sees. -/
theorem Interf.of_sync {k : Option Who} {p : List Producer} {n : Nat} (hs : Point m s)
    (hl : ∀ i, k = some (.producer i) ↔ ∃ q, p[i]? = some q ∧ q.holds = true) (hp : ∀ q ∈ p, q.Proper m)
    (hk : k = some .loop ↔ s.asyncLock = some .loop) (hn : s.asyncLock = some .loop → n = s.pipe)
    (hw : s.finalized = false → Wake s → Wake { s with asyncLock := k, producers := p, pipe := n }) :
    Interf m s { s with asyncLock := k, producers := p, pipe := n } where
  point _ := hs.sync hl hp
  view _ _ := rfl
  fresh k h h' := absurd h' (not_lt.2 h)
  next := le_refl _
  frame := rfl
  interest := rfl
  notifying := rfl
  lists _ _ := rfl
  loop := hk
  held hl := by simp only [hk.2 hl, hn hl]; rw [← hl]
  woken := hw

theorem Point.holder (h : Point m s) (hi : s.producers[i]? = some p) (hh : p.holds = true) :
    s.asyncLock = some (.producer i) :=
  (h.lock i).2 ⟨p, hi, hh⟩

/-- The holder of the mutex moves on without letting go of it. -/
theorem Point.lock_set (h : Point m s) (hi : s.producers[i]? = some p) (hh : p.holds = true) (hh' : p'.holds = true)
    (j : Nat) : s.asyncLock = some (.producer j) ↔ ∃ q, (s.producers.set i p')[j]? = some q ∧ q.holds = true := by
  by_cases hij : i = j
  · subst hij
    have hlt : i < s.producers.length := (List.getElem?_eq_some_iff.1 hi).1
    exact iff_of_true (h.holder hi hh) ⟨p', List.getElem?_set_self hlt, hh'⟩
  · rw [h.lock j, List.getElem?_set_ne hij]

theorem Point.proper_set (h : Point m s) (hp : p'.Proper m) : ∀ q ∈ s.producers.set i p', q.Proper m := by
  intro q hq
  rcases List.mem_or_eq_of_mem_set hq with hq | rfl
  · exact h.proper q hq
  · exact hp

/-- A step that is not the writing of the wake byte keeps `Wake`. -/
theorem Wake.set {lock : Option Who} (hi : s.producers[i]? = some p) (hl : ∀ h, p ≠ .linked h) (hw : Wake s) :
    Wake { s with asyncLock := lock, producers := s.producers.set i p', pipe := s.pipe } := by
  rcases hw with hw | hw | ⟨j, h, hj⟩
  · exact .inl hw
  · exact .inr (.inl hw)
  · refine .inr (.inr ⟨j, h, ?_⟩)
    have hij : i ≠ j := by
      rintro rfl
      rw [hi] at hj
      exact hl h (Option.some.inj hj)
    rw [List.getElem?_set]
    simpa [hij] using hj

/-- The holder of the mutex lets go of it. -/
theorem Interf.unlock (hs : Point m s) (hi : s.producers[i]? = some p) (hh : p.holds = true) (hl : ∀ h, p ≠ .linked h)
    (hp' : p'.holds = false) (hp : p'.Proper m) :
    Interf m s { s with asyncLock := none, producers := s.producers.set i p' } := by
  have hk := hs.holder hi hh
  refine .of_sync (n := s.pipe) hs (fun j => ?_) (hs.proper_set hp) (by simp [hk]) (fun _ => rfl)
    (fun _ hw => hw.set hi hl)
  rw [List.getElem?_set]
  simp only [reduceCtorEq, false_iff, not_exists, not_and]
  intro q hq hqh
  by_cases hij : i = j
  · subst hij
    have hlt : i < s.producers.length := (List.getElem?_eq_some_iff.1 hi).1
    simp [hlt] at hq
    rw [← hq, hp'] at hqh
    cases hqh
  · simp only [hij, if_false] at hq
    have := hs.holder hq hqh
    rw [hk] at this
    simp only [Option.some.injEq, Who.producer.injEq] at this
    exact hij this

theorem view_link_ne {k : Nat} (hk : k ≠ s.next) : (s.link i hd).view k = s.view k := by
  simp only [St.view, St.link, View.mk.injEq, true_and]
  refine ⟨by simp [hk], ?_, by simp [hist, Event.about, Ne.symm hk]⟩
  funext l
  by_cases hl : l = .async
  · subst hl; simp [hk]
  · simp [hl]

theorem queued_link (hs : Point m s) (hp : ProperTimer m hd) : Queued m s.next ((s.link i hd).view s.next) := by
  have he := hs.fresh s.next (le_refl _)
  simp only [St.view, View.empty, View.mk.injEq] at he
  obtain ⟨-, ho, hn, hh⟩ := he
  refine ⟨⟨hd, by simp [St.view, St.link], hp⟩, fun l => ?_, ?_, ?_⟩
  · by_cases hl : l = .async
    · subst hl; simp [St.view, St.link]
    · simp only [St.view, St.link, Function.update_of_ne hl, hl, iff_false]
      exact fun h => (congrFun ho l).mp h
  · exact fun h => hn.mp h
  · simp only [St.view, St.link]
    rw [hist_cons_self _ rfl, hist_cons_self _ rfl, hh]

theorem Queued.sane {h : Ptr} {v : View} (hq : Queued m h v) : v.Sane := by
  obtain ⟨hd, hhd, -⟩ := hq.hd
  constructor
  · intro a b _ _ h1 h2; rw [(hq.on a).1 h1, (hq.on b).1 h2]
  · intro h1; have := (hq.on _).1 h1; cases this
  · exact fun h1 => absurd h1 hq.noti
  · intro _ _; rw [hhd]; rfl
  · exact fun h1 => absurd h1 hq.noti
  · simp [hq.hist, Event.isFreed]
  · intro h1; rw [hhd] at h1; cases h1
  · simp [hq.hist, hq.on, Event.isQueued, Event.leaves]

theorem Point.link (hs : Point m s) (hi : s.producers[i]? = some (.locked hd)) (hstop : s.stopping = false) :
    Point m (s.link i hd) where
  nodup l := by
    by_cases hl : l = .async
    · subst hl
      have ho := hs.fresh s.next (le_refl _)
      simp only [St.view, View.empty, View.mk.injEq] at ho
      simpa [St.link] using nodup_append_one (hs.nodup .async) (fun h => (congrFun ho.2.1 .async).mp h)
    · simpa [St.link, hl] using hs.nodup l
  sane k := by
    by_cases hk : k = s.next
    · subst hk
      exact (queued_link hs (hs.proper _ (List.mem_of_getElem? hi))).sane
    · rw [view_link_ne hk]; exact hs.sane k
  fresh k hk := by
    have hk' : s.next + 1 ≤ k := hk
    rw [view_link_ne (by omega)]
    exact hs.fresh k (by omega)
  wake_lt := Nat.lt_succ_of_lt hs.wake_lt
  log := by
    have hh : hist s.log s.next = [] := congrArg View.hist (hs.fresh s.next (le_refl _))
    have hns : Event.stopping ∉ s.log := fun h => by rw [hs.stop.2 h] at hstop; cases hstop
    refine ⟨?_, ?_, hs.log⟩
    · have hh' : hist (.queued s.next :: s.log) s.next = [.queued s.next] := by rw [hist_cons_self _ rfl, hh]
      simp [Legal, Event.about, Event.PassesOn, Event.Fits, hh', moving, Event.isAdded, hns]
    · simp [Legal, Event.about, Event.PassesOn, Event.Fits, hh, moving]
  ctx := by simpa [St.link] using hs.ctx
  stop := by simpa [St.link] using hs.stop
  lock j := hs.lock_set hi rfl rfl j
  proper := hs.proper_set trivial
  opened := hs.opened
  cap := hs.cap

theorem Interf.link (hs : Point m s) (hi : s.producers[i]? = some (.locked hd)) (hstop : s.stopping = false) :
    Interf m s (s.link i hd) where
  point _ := hs.link hi hstop
  view k hk := view_link_ne (by omega)
  fresh k hk hk' := by
    have hk'' : k < s.next + 1 := hk'
    obtain rfl : k = s.next := by omega
    exact ⟨hstop, queued_link hs (hs.proper _ (List.mem_of_getElem? hi))⟩
  next := Nat.le_succ _
  frame := rfl
  interest := rfl
  notifying := rfl
  lists l hl := by simp [St.link, hl]
  loop := Iff.rfl
  held hl := by rw [hs.holder hi rfl] at hl; cases hl
  woken _ _ := by
    have hlt : i < s.producers.length := (List.getElem?_eq_some_iff.1 hi).1
    exact .inr (.inr ⟨i, s.next, List.getElem?_set_self hlt⟩)

/-- The wake byte is written, unless the pipe is full. -/
theorem Interf.write (hs : Point m s) {h : Ptr} (hi : s.producers[i]? = some (.linked h)) :
    Interf m s { s with
      pipe := if 0 ≤ s.asyncPipe1 ∧ s.pipe < s.pipeCap then s.pipe + 1 else s.pipe
      producers := s.producers.set i (.woken h) } := by
  refine .of_sync (k := s.asyncLock) hs (hs.lock_set hi rfl rfl) (hs.proper_set trivial) Iff.rfl (fun hl => ?_)
    (fun hf _ => .inr (.inl ?_))
  · rw [hs.holder hi rfl] at hl; cases hl
  · have hwr := (hs.opened hf).2.2
    have hcap := hs.cap
    simp only [hwr, true_and]
    split <;> omega

/-- A thread takes the mutex. -/
theorem Interf.lock (hs : Point m s) (hi : s.producers[i]? = some (.filled hd)) (hl : s.asyncLock = none) :
    Interf m s { s with asyncLock := some (.producer i), producers := s.producers.set i (.locked hd) } := by
  have hlt : i < s.producers.length := (List.getElem?_eq_some_iff.1 hi).1
  have hp : ProperTimer m hd := hs.proper (.filled hd) (List.mem_of_getElem? hi)
  refine .of_sync (n := s.pipe) hs (fun j => ?_) (hs.proper_set hp) (by simp [hl]) (fun _ => rfl)
    (fun _ hw => hw.set hi (by simp))
  by_cases hij : i = j
  · subst hij
    exact iff_of_true rfl ⟨_, List.getElem?_set_self hlt, rfl⟩
  · rw [List.getElem?_set_ne hij, ← hs.lock j, hl]
    simp [hij]

theorem Interf.start (hs : Point m s) (hp : p.Proper m) (hh : p.holds = false) :
    Interf m s { s with producers := s.producers ++ [p] } := by
  refine .of_sync (k := s.asyncLock) (n := s.pipe) hs (fun j => ?_) (fun q hq => ?_) Iff.rfl (fun _ => rfl)
    (fun _ hw => ?_)
  · rw [hs.lock j]
    constructor
    · rintro ⟨q, hq, hqh⟩
      exact ⟨q, by rw [List.getElem?_append_left (List.getElem?_eq_some_iff.1 hq).1]; exact hq, hqh⟩
    · rintro ⟨q, hq, hqh⟩
      by_cases hj : j < s.producers.length
      · rw [List.getElem?_append_left hj] at hq
        exact ⟨q, hq, hqh⟩
      · rw [List.getElem?_append_right (not_lt.1 hj)] at hq
        have : q = p := by simpa using List.mem_of_getElem? hq
        rw [this, hh] at hqh
        cases hqh
  · rcases List.mem_append.1 hq with hq | hq
    · exact hs.proper q hq
    · rw [List.mem_singleton.1 hq]; exact hp
  · rcases hw with hw | hw | ⟨j, h, hj⟩
    · exact .inl hw
    · exact .inr (.inl hw)
    · refine .inr (.inr ⟨j, h, ?_⟩)
      show (s.producers ++ [p])[j]? = _
      rw [List.getElem?_append_left (List.getElem?_eq_some_iff.1 hj).1]
      exact hj

theorem startProducer_proper {t : UInt64} {cb : Option Nat} {ud : Nat} {now : UInt64} {mok : Bool}
    (hg : m.sat ≠ .never ∨ timeoutFrom t now ≠ uint64Max) :
    (startProducer t cb ud now mok).Proper m ∧ (startProducer t cb ud now mok).holds = false := by
  unfold startProducer
  split
  · exact ⟨trivial, rfl⟩
  · split
    · exact ⟨trivial, rfl⟩
    · refine ⟨⟨⟨_, rfl⟩, rfl, rfl, fun hm => ?_⟩, rfl⟩
      exact hg.resolve_left (fun h => h hm)

/-- Every step of another thread. -/
theorem other_interf {l : Other} {s' : St} (hs : Point m s) (hg : (guard m).others l s = true)
    (ho : other l s = some s') : Interf m s s' := by
  match l with
  | .start t cb ud now mok =>
    simp only [other] at ho
    split at ho
    · cases ho
      have hg' : m.sat ≠ .never ∨ timeoutFrom t now ≠ uint64Max := by simpa [guard] using hg
      exact .start hs (startProducer_proper hg').1 (startProducer_proper hg').2
    · cases ho
  | .step i =>
    simp only [other] at ho
    split at ho
    · unfold stepProducer at ho
      split at ho
      · rename_i hd hi
        split at ho
        · rename_i hl; cases ho; exact .lock hs hi hl
        · cases ho
      · rename_i hd hi
        split at ho
        · cases ho
          exact .of_sync (k := s.asyncLock) (n := s.pipe) hs (hs.lock_set hi rfl rfl) (hs.proper_set trivial)
            Iff.rfl (fun _ => rfl) (fun _ hw => hw.set hi (by simp))
        · rename_i hstop; cases ho
          exact .link hs hi (by simpa using fun h => hstop (.inl h))
      · rename_i h hi; cases ho; exact .write hs hi
      · rename_i h hi; cases ho
        exact .unlock hs hi rfl (by simp) rfl trivial
      · rename_i hi; cases ho
        exact .unlock hs hi rfl (by simp) rfl trivial
      · cases ho
    · cases ho

end Other

end AlgaeBp.Evb2
