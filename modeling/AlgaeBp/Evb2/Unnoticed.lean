import AlgaeBp.Evb2.Passes
/-!
# What the observer does not notice

Most of the code performs tame operations only. `Unnoticed` is what such work
keeps, user code run in between included: `timer_list` stays in order and the
pass that is in progress, if any, goes on where it was.
-/
open Reentrant

namespace AlgaeBp.Evb2

/-- Every handle is the user's or the wake pipe's, and has its callback. -/
def St.Known (s : St) : Prop := ∀ h hd, s.heap h = some hd →
  (h = wake ∧ hd.cb = some .asyncHandler ∧ hd.flag2.internal = true) ∨
    (h ≠ wake ∧ (∃ f, hd.cb = some (.user f)) ∧ hd.flag2.internal = false)

/-- The operation makes no handle and does not change whose a handle is. -/
def Op.Kind : Op → Prop
  | .calloc => False
  | .store _ f => ∀ hd, (f hd).cb = hd.cb ∧ (f hd).flag2.internal = hd.flag2.internal
  | _ => True

def Op.isNotice : Op → Bool
  | .emit (.cancelled _ _ _) => true
  | _ => false

/-- Operations that are tame and neither make nor change a handle. -/
def Op.plain : Op → Bool
  | .store _ _ | .setTimeoutAt _ _ | .calloc | .callocCtx | .setInRun _ | .epollWait _ | .pop .ready | .pop .timer
  | .insertTail .ready _ | .insertTail .timer _ | .emit _ => false
  | _ => true

/-- Operations that change at most the kernel's interest. -/
def Op.passive : Op → Bool
  | .ctx | .load _ | .next _ _ | .contains _ _ | .epollCtl _ _ _ => true
  | _ => false

/-- The operations of tame code. -/
structure Op.Allowed (k : Prop) (o : Op) : Prop where
  tame : o.Tame
  kind : k → o.Kind
  notice : o.isNotice = false

theorem Op.Allowed.of_plain {k : Prop} {o : Op} (h : o.plain = true) : o.Allowed k := by
  cases o with
  | pop l | insertTail l _ => cases l <;> first | exact ⟨trivial, fun _ => trivial, rfl⟩ | cases h
  | _ => first | exact ⟨trivial, fun _ => trivial, rfl⟩ | cases h

theorem Op.Allowed.of_passive {k : Prop} {o : Op} (h : o.passive = true) : o.Allowed k := by
  cases o <;> first | exact ⟨trivial, fun _ => trivial, rfl⟩ | cases h

/-- Since `x₀`, only tame work has been done. -/
structure Aside (m : Mode) (k : Prop) (x₀ x : Watched) : Prop where
  point : Point m x.1
  follows : Follows x.1 x.2
  opened : x.2.phase.Open
  tame : Tame x₀.1 x.1
  phase : x.2.phase = x₀.2.phase
  calls : x.2.calls = x₀.2.calls
  known : k → x.1.Known

/-- And `timer_list` is in order. -/
structure Unnoticed (m : Mode) (k : Prop) (x₀ x : Watched) : Prop extends Aside m k x₀ x where
  sorted : x.1.Sorted

section Known
variable {m : Mode} {s s' : St} {o : Op} {e : Env} {r : o.Out} {x : Ptr} {hd hd' : Handle}

theorem Core.known (hc : Core m s) : s.Known := by
  intro h hd hh
  obtain ⟨-, hok⟩ := hc.ok h
  rw [show (s.view h).hd = some hd from hh] at hok
  rcases hok with hok | hok
  · exact .inl ⟨hok.name, hok.cb, by rw [hok.flag2]⟩
  · exact .inr ⟨hok.name, hok.cb, hok.internal⟩

theorem St.Known.of_heap (h : s.Known) (hh : s'.heap = s.heap) : s'.Known := by
  intro k hd hk
  rw [hh] at hk
  exact h k hd hk

theorem St.Known.put (h : s.Known) (hh : s.heap x = some hd) (hc : hd'.cb = hd.cb)
    (hi : hd'.flag2.internal = hd.flag2.internal) : (s.put x hd').Known := by
  intro k a hk
  by_cases hkx : k = x
  · subst hkx
    simp only [St.put, Function.update_self, Option.some.injEq] at hk
    subst hk
    rw [hc, hi]
    exact h k hd hh
  · simp only [St.put, Function.update_of_ne hkx] at hk
    exact h k a hk

theorem exec_known (ho : o.Kind) (h : s.Known) (hx : o.exec e s = .ok (r, s')) : s'.Known := by
  have hsame : ∀ {t : St}, t.heap = s.heap → t.Known := fun ht => h.of_heap ht
  cases o with
  | calloc => exact ho.elim
  | store y f =>
    simp only [Op.exec] at hx
    split at hx <;> cases hx
    rename_i hd hh
    exact h.put hh (ho hd).1 (ho hd).2
  | setTimeoutAt y t =>
    simp only [Op.exec] at hx
    split at hx <;> cases hx
    rename_i hd hh
    exact h.put hh rfl rfl
  | free y =>
    obtain ⟨-, hx⟩ := need_eq_ok hx; cases hx
    intro k hd hk
    by_cases hky : k = y
    · subst hky
      simp [St.release] at hk
    · simp only [St.release, Function.update_of_ne hky] at hk
      exact h k hd hk
  | ctx | mutexInit | epollCreate | freeCtx | contains | next | timerInsert | setNotifying | setStopping | setInRun
  | setFinalized | unlock =>
    obtain ⟨-, hx⟩ := need_eq_ok hx; cases hx
    exact hsame rfl
  | insertTail l y | remove l y =>
    obtain ⟨-, hx⟩ := need_eq_ok hx; cases hx
    split <;> exact hsame rfl
  | pop l =>
    obtain ⟨-, hx⟩ := need_eq_ok hx
    split at hx
    · cases hx; exact h
    · cases hx
      split <;> exact hsame rfl
  | pipe2 =>
    obtain ⟨-, hx⟩ := need_eq_ok hx
    split at hx <;> cases hx <;> exact hsame rfl
  | close f =>
    obtain ⟨-, hx⟩ := need_eq_ok hx; cases hx
    cases f <;> exact hsame rfl
  | load y | lock =>
    simp only [Op.exec] at hx
    split at hx <;> cases hx
    exact hsame rfl
  | callocCtx =>
    cases hx
    split <;> exact hsame rfl
  | now | epollWait | pipeWrite | pipeRead | emit => cases hx; exact hsame rfl
  | epollCtl cmd fd ev =>
    have hs : (ctlResult s e.ctlErr cmd fd ev).2 = s' := congrArg Prod.snd (Res.ok.inj hx)
    obtain ⟨i, hi⟩ := ctlResult_interest s e.ctlErr cmd fd ev
    rw [← hs, hi]
    exact hsame rfl

/-- The handles that other threads add are the user's. -/
theorem Meanwhile.known (hi : Meanwhile m s s') (hp : Point m s) (h : s.Known) : s'.Known := by
  intro k hd hk
  by_cases hlt : k < s.next
  · exact h k hd ((congrArg View.hd (hi.view k hlt)).symm.trans hk)
  · have hlt' : k < s'.next := (hi.point hp).lt_next (by simp [St.view, hk])
    obtain ⟨-, hq⟩ := hi.fresh k (not_lt.1 hlt) hlt'
    obtain ⟨hd', hhd', hq'⟩ := hq.hd
    obtain rfl : hd' = hd := Option.some.inj (hhd'.symm.trans hk)
    refine .inr ⟨?_, hq'.cb, by rw [hq'.flag2]⟩
    rintro rfl
    exact hlt hp.wake_lt

end Known

section Rules
variable {m : Mode} {b : Call} {k : Prop} {x x₀ x' : Watched} {s s' : St} {g : Pass} {o : Op} {y : Ptr}

theorem Pass.see_tame (ho : o.Tame) (hg : g.phase.Open) (e : Env) (r : o.Out) (s : St) :
    (g.see o e r s).phase = g.phase ∧ (g.see o e r s).calls = g.calls := by
  unfold Pass.see
  split
  · exact ho.elim
  · refine ⟨?_, rfl⟩
    cases hp : g.phase with
    | idle => simp [Phase.sample]
    | waited w evs => rw [hp] at hg; exact hg.elim
    | collecting w evs now => rw [hp] at hg; exact hg.elim
    | dispatching w evs now batch done => simp [Phase.sample]
  · exact ho.elim
  · exact ho.elim
  · exact ho.elim
  · exact ⟨rfl, rfl⟩
  · exact ⟨rfl, rfl⟩

theorem due_tame (ho : o.Tame) (hn : o.isNotice = false) (hs : (∀ h ms, b ≠ .setTimeout h ms) → s.Sorted) :
    Due b o (s, g) := by
  refine ⟨hs, ?_⟩
  split
  · exact ho.elim
  · exact ho.elim
  · cases hn
  · trivial

theorem Aside.refl (hp : Point m x.1) (hf : Follows x.1 x.2) (ho : x.2.phase.Open) (hk : k → x.1.Known) :
    Aside m k x x :=
  ⟨hp, hf, ho, .refl _, rfl, rfl, hk⟩

theorem Aside.rebase (h : Aside m k x₀ x) : Aside m k x x := .refl h.point h.follows h.opened h.known

theorem Unnoticed.rebase (h : Unnoticed m k x₀ x) : Unnoticed m k x x := ⟨h.toAside.rebase, h.sorted⟩

/-- Nothing but tame changes to the state, and none to what the observer knows of the pass. -/
theorem Aside.next (h : Aside m k x₀ x) (hp : Point m s') (ht : Tame x.1 s') (hph : g.phase = x.2.phase)
    (hc : g.calls = x.2.calls) (hk : k → s'.Known) : Aside m k x₀ (s', g) where
  point := hp
  follows := h.follows.tame h.opened ht hph hc
  opened := hph ▸ h.opened
  tame := h.tame.trans ht
  phase := hph.trans h.phase
  calls := hc.trans h.calls
  known := hk

theorem Aside.meanwhile (h : Aside m k x₀ x) (hi : Meanwhile m x.1 s) : Aside m k x₀ (s, x.2) :=
  h.next (hi.point h.point) ((hi.same h.point).tame (hi.point h.point)) rfl rfl fun hk => hi.known h.point (h.known hk)

theorem meanwhile_of_yields (hy : o.yields = true → Meanwhile m x.1 s) (hn : o.yields = false → s = x.1) :
    Meanwhile m x.1 s := by
  cases ho : o.yields with
  | true => exact hy ho
  | false => exact hn ho ▸ .refl m x.1

/-- A tame operation that is due, with what is known of its execution. -/
theorem Unnoticed.act_due {Q : o.Out → Watched → Prop} (h : Unnoticed m k x₀ x) (ht : o.Tame) (hk : k → o.Kind)
    (hd : ∀ s, s.Sorted → (o.yields = false → s = x.1) → Due b o (s, x.2))
    (hq : ∀ s e r s', Meanwhile m x.1 s → (o.yields = false → s = x.1) → o.exec e s = .ok (r, s') →
      Unnoticed m k x₀ (s', x.2.see o e r s) → Q r (s', x.2.see o e r s)) : Wq m b (Prog.act o) Q x := by
  refine wq_op fun s hy hn => ?_
  have hi : Meanwhile m x.1 s := meanwhile_of_yields hy hn
  have hs : s.Sorted := ((hi.same h.point).timers (hi.point h.point)).sorted h.sorted
  refine ⟨hd s hs hn, fun e r s' hp hp' hx => ?_⟩
  obtain ⟨ht', hsort⟩ := exec_tame ht hp hp' hx
  obtain ⟨hph, hc⟩ := Pass.see_tame ht h.opened e r s
  have hn' : Aside m k x₀ (s', x.2.see o e r s) := (h.meanwhile hi).next hp' ht' hph hc fun hkn =>
    exec_known (hk hkn) (hi.known h.point (h.known hkn)) hx
  exact ⟨hn'.follows, hq s e r s' hi hn hx ⟨hn', hsort hs⟩⟩

theorem Unnoticed.act_full {Q : o.Out → Watched → Prop} (h : Unnoticed m k x₀ x) (ho : o.Allowed k)
    (hq : ∀ s e r s', Meanwhile m x.1 s → (o.yields = false → s = x.1) → o.exec e s = .ok (r, s') →
      Unnoticed m k x₀ (s', x.2.see o e r s) → Q r (s', x.2.see o e r s)) : Wq m b (Prog.act o) Q x :=
  h.act_due ho.tame ho.kind (fun _ hs _ => due_tame ho.tame ho.notice fun _ => hs) hq

theorem Unnoticed.act {Q : o.Out → Watched → Prop} (h : Unnoticed m k x₀ x) (ho : o.Allowed k)
    (hq : ∀ r x', Unnoticed m k x₀ x' → Q r x') : Wq m b (Prog.act o) Q x :=
  h.act_full ho fun _ _ r _ _ _ _ h' => hq r _ h'

/-- An operation that other threads do not come in between of. -/
theorem Unnoticed.act_exec {Q : o.Out → Watched → Prop} (h : Unnoticed m k x₀ x) (ho : o.Allowed k) (hy : o.yields = false)
    (hq : ∀ e r s', o.exec e x.1 = .ok (r, s') → Unnoticed m k x₀ (s', x.2.see o e r x.1) → Q r (s', x.2.see o e r x.1)) :
    Wq m b (Prog.act o) Q x :=
  h.act_full ho fun s e r s' _ hn hx h' => by
    obtain rfl := hn hy
    exact hq e r s' hx h'

/-- User code runs, but makes no call that is not tame. -/
theorem Unnoticed.callback {Q : Unit → Watched → Prop} (h : Unnoticed m k x₀ x) (hr : x₀.1.inRun = true)
    (hq : ∀ x', Unnoticed m k x₀ x' → Q () x') : Wq m b Prog.callback Q x := by
  refine wp_callback ⟨h.sorted, h.opened, h.follows⟩ fun x' hk hu hres => hq x' ?_
  have hau := watchGuard_resumes hres
  obtain ⟨ht, hph, hc⟩ := hk (h.tame.run hr)
  obtain ⟨hs, ho, hf⟩ := hu
  exact ⟨⟨hau.point, hf, ho, h.tame.trans ht, hph.trans h.phase, hc.trans h.calls, fun _ => hau.known⟩, hs⟩

/-- Tame code goes unnoticed. -/
theorem Unnoticed.only {α : Type} {p : Code α} {Q : α → Watched → Prop} (h : Unnoticed m k x₀ x)
    (hp : p.Only (Op.Allowed k) False) (hq : ∀ a x', Unnoticed m k x₀ x' → Q a x') : Wq m b p Q x := by
  refine wp_mono (wp_only (I := Unnoticed m k x₀) (fun o x' ho h' => ?_) (fun hf => hf.elim) hp h) hq
  exact h'.act ho fun _ _ h'' => h''

end Rules

end AlgaeBp.Evb2
