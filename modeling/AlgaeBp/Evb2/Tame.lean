import AlgaeBp.Evb2.Order
/-!
# What all but the loop does

Most operations only take handles off `ready_list`, change no notification, and
keep the order of `timer_list`. So do the functions made of them, whatever they
do besides. What is left is the work of the loop itself, and the few places that
write a deadline.
-/
open Reentrant

namespace AlgaeBp.Evb2

/-- Nothing becomes ready, and what is ready keeps its notification. -/
structure Tame (s s' : St) : Prop where
  run : s.inRun = true → s'.inRun = true
  stop : s.stopping = true → s'.stopping = true
  ready : (s'.lists .ready).Sublist (s.lists .ready)
  noti : ∀ h ∈ s'.lists .ready, (s'.heap h).map Handle.noti = (s.heap h).map Handle.noti

section Tame
variable {m : Mode} {s s' s'' : St} {x : Ptr}

theorem Tame.refl (s : St) : Tame s s := ⟨id, id, .refl _, fun _ _ => rfl⟩

theorem Tame.trans (h : Tame s s') (h' : Tame s' s'') : Tame s s'' where
  run hr := h'.run (h.run hr)
  stop hs := h'.stop (h.stop hs)
  ready := h'.ready.trans h.ready
  noti k hk := (h'.noti k hk).trans (h.noti k (h'.ready.subset hk))

/-- Operations that are tame wherever they are performed. -/
def Op.Tame : Op → Prop
  | .setTimeoutAt _ _ | .setInRun _ | .callocCtx | .epollWait _ | .pop .ready | .insertTail .ready _
  | .insertTail .timer _ | .pop .timer | .emit (.dispatch _ _ _ _ _ _) | .emit (.armed _ _) => False
  | .store _ f => ∀ hd, (f hd).noti = hd.noti ∧ (f hd).timeoutAt = hd.timeoutAt
  | _ => True

/-- The log is as it was, or has one more event, which is no insertion into `timer_list`. -/
theorem armedAt_kept (h : s'.log = s.log ∨ ∃ e : Event, s'.log = e :: s.log ∧ ∀ h, e.arms h = false) (k : Ptr) :
    armedAt s'.log k = armedAt s.log k := by
  rcases h with h | ⟨e, h, he⟩
  · rw [h]
  · rw [h, armedAt_other (he k)]

/-- What is on `ready_list` and `timer_list` is as it was. -/
structure Same (s s' : St) : Prop where
  run : s.inRun = true → s'.inRun = true
  stop : s.stopping = true → s'.stopping = true
  ready : (s'.lists .ready).Sublist (s.lists .ready)
  timer : (s'.lists .timer).Sublist (s.lists .timer)
  heap : ∀ h, h ∈ s'.lists .ready ∨ h ∈ s'.lists .timer → ∀ hd, s'.heap h = some hd →
    ∃ hd₀, s.heap h = some hd₀ ∧ hd.noti = hd₀.noti ∧ hd.timeoutAt = hd₀.timeoutAt
  armed : ∀ h, armedAt s'.log h = armedAt s.log h

theorem Same.tame (h : Same s s') (hp : Point m s') : Tame s s' where
  run := h.run
  stop := h.stop
  ready := h.ready
  noti k hk := by
    obtain ⟨hd, hhd⟩ := Option.isSome_iff_exists.1 ((hp.sane k).live .ready hk)
    replace hhd : s'.heap k = some hd := hhd
    obtain ⟨hd₀, hhd₀, hn, -⟩ := h.heap k (.inl hk) hd hhd
    simp [hhd, hhd₀, hn]

theorem Same.timers (h : Same s s') (hp : Point m s') : TimersKept s s' where
  sub := h.timer
  deadline k hk := by
    obtain ⟨hd, hhd⟩ := Option.isSome_iff_exists.1 ((hp.sane k).live .timer hk)
    have hhd : s'.heap k = some hd := hhd
    obtain ⟨hd₀, hhd₀, -, ht⟩ := h.heap k (.inr hk) hd hhd
    simp [St.deadline, hhd, hhd₀, ht]
  armed k _ := h.armed k

/-- Operations that leave the handles alone. -/
theorem Same.of_eq (hl : s'.lists = s.lists) (hh : s'.heap = s.heap) (hr : s'.inRun = s.inRun)
    (hs : s.stopping = true → s'.stopping = true)
    (hlog : s'.log = s.log ∨ ∃ e : Event, s'.log = e :: s.log ∧ ∀ h, e.arms h = false) :
    Same s s' where
  run h := hr.trans h
  stop := hs
  ready := by rw [hl]
  timer := by rw [hl]
  heap k _ hd hhd := ⟨hd, by rw [← hh]; exact hhd, rfl, rfl⟩
  armed := armedAt_kept hlog

theorem Same.put {hd hd' : Handle} (hh : s.heap x = some hd) (hn : hd'.noti = hd.noti)
    (ht : hd'.timeoutAt = hd.timeoutAt) : Same s (s.put x hd') where
  run := id
  stop := id
  ready := .refl _
  timer := .refl _
  heap k _ hd₁ hhd := by
    by_cases hk : k = x
    · subst hk
      simp only [St.put, Function.update_self, Option.some.injEq] at hhd
      subst hhd
      exact ⟨hd, hh, hn, ht⟩
    · simp only [St.put, Function.update_of_ne hk] at hhd
      exact ⟨hd₁, hhd, rfl, rfl⟩
  armed _ := rfl

/-- A list other than `ready_list` and `timer_list` has changed, or handles have left those. -/
theorem Same.of_lists {l : ListId} {xs : List Ptr} (hl : l = .ready ∨ l = .timer → xs.Sublist (s.lists l))
    (hs : ∀ l', s'.lists l' = (s.setList l xs).lists l') (hh : s'.heap = s.heap) (hr : s'.inRun = s.inRun)
    (hst : s'.stopping = s.stopping) (hlog : s'.log = s.log ∨ ∃ e : Event, s'.log = e :: s.log ∧ ∀ h, e.arms h = false) :
    Same s s' where
  run h := hr.trans h
  stop h := hst.trans h
  ready := by
    rw [hs]
    by_cases hlr : l = .ready
    · subst hlr
      simpa [St.setList] using hl (.inl rfl)
    · simp [St.setList, Ne.symm hlr]
  timer := by
    rw [hs]
    by_cases hlt : l = .timer
    · subst hlt
      simpa [St.setList] using hl (.inr rfl)
    · simp [St.setList, Ne.symm hlt]
  heap k _ hd hhd := ⟨hd, by rw [← hh]; exact hhd, rfl, rfl⟩
  armed := armedAt_kept hlog

theorem exec_same {o : Op} {e : Env} {r : o.Out} (ht : o.Tame) (ho : ∀ h, o ≠ .timerInsert h) (hp : Point m s)
    (hp' : Point m s') (hx : o.exec e s = .ok (r, s')) : Same s s' := by
  have hsame : ∀ {t : St}, t.lists = s.lists → t.heap = s.heap → t.inRun = s.inRun → t.stopping = s.stopping →
      t.log = s.log → Same s t := fun h1 h2 h3 h4 h5 => .of_eq h1 h2 h3 (fun h => h4.trans h) (.inl h5)
  cases o with
  | ctx => obtain ⟨-, hx⟩ := need_eq_ok hx; cases hx; exact hsame rfl rfl rfl rfl rfl
  | load h =>
    simp only [Op.exec] at hx
    split at hx <;> cases hx
    exact hsame rfl rfl rfl rfl rfl
  | store h f =>
    simp only [Op.exec] at hx
    split at hx <;> cases hx
    rename_i hd hh
    exact .put hh (ht hd).1 (ht hd).2
  | setTimeoutAt h t => exact ht.elim
  | calloc =>
    simp only [Op.exec] at hx
    split at hx <;> cases hx
    · refine ⟨id, id, .refl _, .refl _, fun k hk hd hhd => ?_, fun _ => rfl⟩
      have hne : k ≠ s.next := by
        rintro rfl
        have hfresh := hp.fresh s.next (le_refl _)
        have hoff : ∀ l, ¬ (s.view s.next).on l := fun l => by rw [hfresh]; exact id
        exact hk.elim (hoff .ready) (hoff .timer)
      simp only [St.allocate, Function.update_of_ne hne] at hhd
      exact ⟨hd, hhd, rfl, rfl⟩
    · exact hsame rfl rfl rfl rfl rfl
  | free h =>
    obtain ⟨-, hx⟩ := need_eq_ok hx; cases hx
    refine ⟨id, id, .refl _, .refl _, fun k _ hd hhd => ?_, armedAt_kept (.inr ⟨_, rfl, fun _ => rfl⟩)⟩
    by_cases hk : k = h
    · subst hk
      simp [St.release] at hhd
    · simp only [St.release, Function.update_of_ne hk] at hhd
      exact ⟨hd, hhd, rfl, rfl⟩
  | callocCtx => exact ht.elim
  | mutexInit => obtain ⟨-, hx⟩ := need_eq_ok hx; cases hx; exact hsame rfl rfl rfl rfl rfl
  | epollCreate => obtain ⟨-, hx⟩ := need_eq_ok hx; cases hx; exact hsame rfl rfl rfl rfl rfl
  | pipe2 =>
    obtain ⟨-, hx⟩ := need_eq_ok hx
    split at hx <;> cases hx <;> exact hsame rfl rfl rfl rfl rfl
  | freeCtx =>
    obtain ⟨-, hx⟩ := need_eq_ok hx; cases hx
    exact .of_eq rfl rfl rfl id (.inr ⟨_, rfl, fun _ => rfl⟩)
  | insertTail l h =>
    have hl : l = .ready ∨ l = .timer → (s.lists l ++ [h]).Sublist (s.lists l) := by
      rintro (rfl | rfl) <;> exact ht.elim
    obtain ⟨-, hx⟩ := need_eq_ok hx; cases hx
    split
    · exact .of_lists hl (fun _ => rfl) rfl rfl rfl (.inr ⟨_, rfl, fun _ => rfl⟩)
    · exact .of_lists hl (fun _ => rfl) rfl rfl rfl (.inl rfl)
  | remove l h =>
    obtain ⟨-, hx⟩ := need_eq_ok hx; cases hx
    have hl : l = .ready ∨ l = .timer → ((s.lists l).erase h).Sublist (s.lists l) := fun _ => List.erase_sublist
    split
    · exact .of_lists hl (fun _ => rfl) rfl rfl rfl (.inr ⟨_, rfl, fun _ => rfl⟩)
    · exact .of_lists hl (fun _ => rfl) rfl rfl rfl (.inl rfl)
  | contains l h => obtain ⟨-, hx⟩ := need_eq_ok hx; cases hx; exact hsame rfl rfl rfl rfl rfl
  | pop l =>
    have hl : l ≠ .ready ∧ l ≠ .timer := by constructor <;> rintro rfl <;> exact ht.elim
    obtain ⟨-, hx⟩ := need_eq_ok hx
    split at hx
    · cases hx; exact hsame rfl rfl rfl rfl rfl
    · rename_i h hs hls
      have hl' : l = .ready ∨ l = .timer → hs.Sublist (s.lists l) := fun h => (h.elim hl.1 hl.2).elim
      cases hx
      split
      · exact .of_lists hl' (fun _ => rfl) rfl rfl rfl (.inr ⟨_, rfl, fun _ => rfl⟩)
      · exact .of_lists hl' (fun _ => rfl) rfl rfl rfl (.inl rfl)
  | next l h => obtain ⟨-, hx⟩ := need_eq_ok hx; cases hx; exact hsame rfl rfl rfl rfl rfl
  | timerInsert h => exact absurd rfl (ho h)
  | setNotifying o => obtain ⟨-, hx⟩ := need_eq_ok hx; cases hx; exact hsame rfl rfl rfl rfl rfl
  | setStopping =>
    obtain ⟨-, hx⟩ := need_eq_ok hx; cases hx
    exact .of_eq rfl rfl rfl (fun _ => rfl) (.inr ⟨_, rfl, fun _ => rfl⟩)
  | setInRun b => exact ht.elim
  | setFinalized => obtain ⟨-, hx⟩ := need_eq_ok hx; cases hx; exact hsame rfl rfl rfl rfl rfl
  | now => cases hx; exact hsame rfl rfl rfl rfl rfl
  | epollCtl cmd fd ev =>
    have hs : (ctlResult s e.ctlErr cmd fd ev).2 = s' := congrArg Prod.snd (Res.ok.inj hx)
    obtain ⟨i, hi⟩ := ctlResult_interest s e.ctlErr cmd fd ev
    rw [← hs, hi]
    exact hsame rfl rfl rfl rfl rfl
  | epollWait t => exact ht.elim
  | close f =>
    obtain ⟨-, hx⟩ := need_eq_ok hx; cases hx
    cases f <;> exact hsame rfl rfl rfl rfl rfl
  | lock =>
    simp only [Op.exec] at hx
    split at hx <;> cases hx
    exact hsame rfl rfl rfl rfl rfl
  | unlock => obtain ⟨-, hx⟩ := need_eq_ok hx; cases hx; exact hsame rfl rfl rfl rfl rfl
  | pipeWrite => cases hx; exact hsame rfl rfl rfl rfl rfl
  | pipeRead => cases hx; exact hsame rfl rfl rfl rfl rfl
  | emit ev =>
    cases hx
    refine .of_eq rfl rfl rfl id (.inr ⟨ev, rfl, fun k => ?_⟩)
    cases ev <;> first | rfl | exact ht.elim

/-- A tame operation keeps the order of `timer_list`. -/
theorem exec_tame {o : Op} {e : Env} {r : o.Out} (ht : o.Tame) (hp : Point m s) (hp' : Point m s')
    (hx : o.exec e s = .ok (r, s')) : Tame s s' ∧ (s.Sorted → s'.Sorted) := by
  by_cases ho : ∃ h, o = .timerInsert h
  · obtain ⟨h, rfl⟩ := ho
    obtain ⟨⟨-, -, hfree⟩, hx⟩ := need_eq_ok hx
    cases hx
    have hready : ((s.arm h).emit (.armed h (s.deadline h))).lists .ready = s.lists .ready := by
      simp [St.arm, St.setList, St.emit]
    exact ⟨⟨id, id, by rw [hready], fun _ _ => rfl⟩, fun hs => sorted_arm hs (hfree .timer (by simp [ListId.sharing]))⟩
  · have hsame := exec_same ht (fun h he => ho ⟨h, he⟩) hp hp' hx
    exact ⟨hsame.tame hp', (hsame.timers hp').sorted⟩

/-- What other threads may change, the log included. -/
structure Meanwhile (m : Mode) (s s' : St) : Prop extends Interf m s s' where
  armed : ∀ h, armedAt s'.log h = armedAt s.log h

theorem Meanwhile.refl (m : Mode) (s : St) : Meanwhile m s s := ⟨.refl m s, fun _ => rfl⟩

theorem Meanwhile.trans (h : Meanwhile m s s') (h' : Meanwhile m s' s'') : Meanwhile m s s'' :=
  ⟨h.toInterf.trans h'.toInterf, fun k => (h'.armed k).trans (h.armed k)⟩

theorem other_armedAt {l : Other} (ho : other l s = some s') (k : Ptr) : armedAt s'.log k = armedAt s.log k := by
  cases l with
  | start =>
    simp only [other] at ho
    split at ho <;> cases ho
    rfl
  | step i =>
    simp only [other] at ho
    split at ho
    · unfold stepProducer at ho
      split at ho
      · split at ho <;> cases ho
        rfl
      · split at ho <;> cases ho
        · rfl
        · simp only [St.link]
          rw [armedAt_other rfl, armedAt_other rfl]
      · cases ho; rfl
      · cases ho; rfl
      · cases ho; rfl
      · cases ho
    · cases ho

theorem other_meanwhile {l : Other} (hp : Point m s) (hg : (guard m).others l s = true) (ho : other l s = some s') :
    Meanwhile m s s' :=
  ⟨other_interf hp hg ho, other_armedAt ho⟩

theorem Interf.heap (hi : Interf m s s') (hp : Point m s) {l : ListId} {k : Ptr} (hk : k ∈ s.lists l) :
    s'.heap k = s.heap k :=
  congrArg View.hd (hi.view k (hp.lt_next ((hp.sane k).live l hk)))

theorem Meanwhile.same (hi : Meanwhile m s s') (hp : Point m s) : Same s s' where
  run h := hi.inRun.trans h
  stop h := hi.stopping.trans h
  ready := by rw [hi.lists .ready (by simp)]
  timer := by rw [hi.lists .timer (by simp)]
  heap k hk hd hhd := by
    rw [hi.lists .ready (by simp), hi.lists .timer (by simp)] at hk
    have hh : s'.heap k = s.heap k := hk.elim (hi.heap hp) (hi.heap hp)
    exact ⟨hd, hh ▸ hhd, rfl, rfl⟩
  armed := hi.armed

end Tame

end AlgaeBp.Evb2
