import AlgaeBp.Evb2.Safety
/-!
# Reading the log

The log only grows, and every event in it was legal when it was recorded. What
the theorems about runs say about order and number of events follows from these
two facts.
-/
open Reentrant

namespace AlgaeBp.Evb2

section Legal
variable {m : Mode} {log l₁ l₂ : List Event} {e : Event} {h : Ptr}

theorem LogOk.after (hl : LogOk m (l₁ ++ l₂)) : LogOk m l₂ := by
  induction l₁ with
  | nil => exact hl
  | cons e l₁ ih => exact ih hl.2

theorem LogOk.legal (hl : LogOk m (l₁ ++ e :: l₂)) : Legal m l₂ e := hl.after.1

theorem any_hist {p : Event → Bool} : (hist log h).any p = true ↔ ∃ e ∈ log, e.about = some h ∧ p e = true := by
  simp [hist]

theorem hist_append : hist (l₁ ++ l₂) h = hist l₁ h ++ hist l₂ h := List.filter_append ..

/-- An event that is only legal where none of its kind is in the log occurs at most once. -/
theorem LogOk.countP_le_one {p : Event → Bool} (hl : LogOk m log)
    (hp : ∀ log e, Legal m log e → p e = true → log.countP p = 0) : log.countP p ≤ 1 := by
  induction log with
  | nil => simp
  | cons e log ih =>
    by_cases he : p e = true
    · rw [List.countP_cons_of_pos he, hp log e hl.1 he]
    · rw [List.countP_cons_of_neg he]
      exact ih hl.2

/-- Events about one handle that exclude each other. -/
theorem countP_zero {p q : Event → Bool} (hq : (hist log h).any q = false)
    (hp : ∀ e, p e = true → e.about = some h ∧ q e = true) : log.countP p = 0 := by
  refine List.countP_eq_zero.2 fun e he hpe => ?_
  rw [any_hist.2 ⟨e, he, hp e hpe⟩] at hq
  cases hq

theorem LogOk.freed_le_one (hl : LogOk m log) (h : Ptr) : log.count (.freed h) ≤ 1 := by
  refine hl.countP_le_one fun log e he hp => ?_
  rw [beq_iff_eq] at hp
  subst hp
  refine countP_zero (q := Event.isFreed) he.2 fun e hpe => ?_
  rw [beq_iff_eq] at hpe
  subst hpe
  exact ⟨rfl, rfl⟩

theorem LogOk.ctxFreed_le_one (hl : LogOk m log) : log.count .ctxFreed ≤ 1 := by
  refine hl.countP_le_one fun log e he hp => ?_
  rw [beq_iff_eq] at hp
  subst hp
  exact List.count_eq_zero.2 he.1

/-- The callback of `h` is called. -/
def Event.invokes (h : Ptr) : Event → Bool
  | .dispatch k _ _ _ _ _ | .cancelled k _ _ => k = h
  | _ => false

/-- The callback of `h` is called with `ALOE_EVB2_FLAG_CANCELLED`. -/
def Event.cancels (h : Ptr) : Event → Bool
  | .cancelled k _ _ => k = h
  | _ => false

theorem Event.cancels_about (hc : e.cancels h = true) : e.about = some h ∧ e.isCancelled = true ∧ e.releases = true := by
  cases e <;> simp_all [Event.cancels, Event.about, Event.isCancelled, Event.releases]

/-- How a handle is taken back. -/
theorem Event.releases_cases (hr : e.releases = true) (ha : e.about = some h) :
    e = .cancel h 0 ∨ (∃ fd noti ud stop, e = .dispatch h fd noti ud true stop) ∨ e.cancels h = true := by
  cases e <;> simp only [Event.releases, Bool.false_eq_true, decide_eq_true_eq] at hr <;>
    simp only [Event.about, Option.some.injEq] at ha <;> subst ha
  · exact .inl (by rw [hr])
  · exact .inr (.inl ⟨_, _, _, _, by rw [hr]⟩)
  · exact .inr (.inr (by simp [Event.cancels]))

/-- A callback is only called while the handle is the loop's to call. -/
theorem Legal.invokes (he : Legal m log e) (hi : e.invokes h = true) :
    (hist log h).any Event.releases = false ∧ .ctxFreed ∉ log := by
  cases e <;> simp only [Event.invokes, decide_eq_true_eq, Bool.false_eq_true] at hi
  · subst hi; exact ⟨he.2.1, he.2.2.2.1⟩
  · subst hi; exact ⟨he.2.1, he.2.2.2⟩

theorem LogOk.cancels_le_one (hl : LogOk m log) (h : Ptr) : log.countP (Event.cancels h) ≤ 1 := by
  refine hl.countP_le_one fun log e he hp => ?_
  have hi : e.invokes h = true := by
    cases e <;> simp_all [Event.cancels, Event.invokes]
  exact countP_zero (he.invokes hi).1 fun e hc => ⟨(Event.cancels_about hc).1, (Event.cancels_about hc).2.2⟩

/-- After a handle has been taken back, its callback is not called any more. -/
theorem LogOk.quiet (hl : LogOk m (l₁ ++ l₂)) (hr : released l₂ h = true) : ∀ e ∈ l₁, e.invokes h = false := by
  intro e he
  by_contra hi
  obtain ⟨a, z, rfl⟩ := List.append_of_mem he
  rw [List.append_assoc, List.cons_append] at hl
  have := (hl.legal.invokes (by simpa using hi)).1
  rw [hist_append, List.any_append, show (hist l₂ h).any Event.releases = true from hr, Bool.or_true] at this
  cases this

theorem LogOk.no_add (hl : LogOk m (l₁ ++ .stopping :: l₂)) : ∀ h, .added h ∉ l₁ := by
  intro h he
  obtain ⟨a, z, rfl⟩ := List.append_of_mem he
  rw [List.append_assoc, List.cons_append] at hl
  exact hl.legal.2.2 (by simp)

theorem LogOk.silent (hl : LogOk m (l₁ ++ .ctxFreed :: l₂)) : ∀ e ∈ l₁, e.invokes h = false := by
  intro e he
  by_contra hi
  obtain ⟨a, z, rfl⟩ := List.append_of_mem he
  rw [List.append_assoc, List.cons_append] at hl
  exact (hl.legal.invokes (h := h) (by simpa using hi)).2 (by simp)

end Legal

/-! ## The log along a run -/

section Grow
variable {m : Mode} {b : Boot} {c c' : Config} {s s' : St}

theorem need_eq_ok {α : Type} {p : Prop} [Decidable p] {a r : α} (h : need p a = .ok r) : p ∧ a = r := by
  unfold need at h
  split at h
  · cases h; exact ⟨‹p›, rfl⟩
  · cases h

/-- What an operation does to the log and the heap. -/
structure Grows (s s' : St) : Prop where
  log : s.log <:+ s'.log
  /-- Freeing is recorded. -/
  freed : ∀ h, s.heap h ≠ none → s'.heap h = none → .freed h ∈ s'.log
  /-- New blocks are allocated. -/
  alloc : ∀ h : Nat, s.next ≤ h → h < s'.next → s'.heap h ≠ none
  next : s.next ≤ s'.next

theorem Grows.of_same (hl : s.log <:+ s'.log) (hh : ∀ h, s'.heap h = none → s.heap h = none) (hn : s'.next = s.next) :
    Grows s s' where
  log := hl
  freed h h1 h2 := absurd (hh h h2) h1
  alloc h h1 h2 := by omega
  next := hn.ge

theorem Grows.put (s : St) (h : Ptr) (hd : Handle) : Grows s (s.put h hd) := by
  refine .of_same (List.suffix_refl _) (fun k hk => ?_) rfl
  by_cases hkh : k = h
  · subst hkh; simp [St.put] at hk
  · simpa [St.put, hkh] using hk

theorem exec_grows (o : Op) (e : Env) (s : St) (r : o.Out) (s' : St) (hx : o.exec e s = .ok (r, s')) : Grows s s' := by
  have hsame : ∀ {t : St}, t.log = s.log → t.heap = s.heap → t.next = s.next → Grows s t := fun h1 h2 h3 =>
    .of_same (by rw [h1]) (fun h hh => by rw [← h2]; exact hh) h3
  have hcons : ∀ {t : St} (ev : Event), t.log = ev :: s.log → t.heap = s.heap → t.next = s.next → Grows s t :=
    fun ev h1 h2 h3 => .of_same (by rw [h1]; exact List.suffix_cons _ _) (fun h hh => by rw [← h2]; exact hh) h3
  cases o with
  | ctx => obtain ⟨-, hx⟩ := need_eq_ok hx; cases hx; exact hsame rfl rfl rfl
  | load h =>
    simp only [Op.exec] at hx
    split at hx <;> cases hx
    exact hsame rfl rfl rfl
  | store h f =>
    simp only [Op.exec] at hx
    split at hx <;> cases hx
    exact .put s h _
  | setTimeoutAt h t =>
    simp only [Op.exec] at hx
    split at hx <;> cases hx
    exact .put s h _
  | calloc =>
    simp only [Op.exec] at hx
    split at hx <;> cases hx
    · refine ⟨List.suffix_refl _, fun k h1 h2 => ?_, fun k h1 h2 => ?_, Nat.le_succ _⟩
      · by_cases hk : k = s.next
        · subst hk; simp [St.allocate] at h2
        · simp [St.allocate, hk] at h2
          exact absurd h2 h1
      · have hk : k = s.next := by simp only [St.allocate] at h2; omega
        simp [St.allocate, hk]
    · exact hsame rfl rfl rfl
  | free h =>
    obtain ⟨-, hx⟩ := need_eq_ok hx; cases hx
    refine ⟨List.suffix_cons _ _, fun k h1 h2 => ?_, fun k h1 h2 => ?_, le_refl _⟩
    · by_cases hk : k = h
      · subst hk; simp [St.release]
      · simp [St.release, hk] at h2
        exact absurd h2 h1
    · simp only [St.release] at h2
      omega
  | callocCtx =>
    simp only [Op.exec] at hx
    cases hx
    split <;> exact hsame rfl rfl rfl
  | mutexInit => obtain ⟨-, hx⟩ := need_eq_ok hx; cases hx; exact hsame rfl rfl rfl
  | epollCreate => obtain ⟨-, hx⟩ := need_eq_ok hx; cases hx; exact hsame rfl rfl rfl
  | pipe2 =>
    obtain ⟨-, hx⟩ := need_eq_ok hx
    split at hx <;> cases hx <;> exact hsame rfl rfl rfl
  | freeCtx => obtain ⟨-, hx⟩ := need_eq_ok hx; cases hx; exact hcons .ctxFreed rfl rfl rfl
  | insertTail l h =>
    obtain ⟨-, hx⟩ := need_eq_ok hx; cases hx
    split
    · exact hcons (.queued h) rfl rfl rfl
    · exact hsame rfl rfl rfl
  | remove l h =>
    obtain ⟨-, hx⟩ := need_eq_ok hx; cases hx
    split
    · exact hcons (.dequeued h) rfl rfl rfl
    · exact hsame rfl rfl rfl
  | contains l h => obtain ⟨-, hx⟩ := need_eq_ok hx; cases hx; exact hsame rfl rfl rfl
  | pop l =>
    obtain ⟨-, hx⟩ := need_eq_ok hx
    split at hx
    · cases hx; exact hsame rfl rfl rfl
    · cases hx
      split
      · exact hcons _ rfl rfl rfl
      · exact hsame rfl rfl rfl
  | next l h => obtain ⟨-, hx⟩ := need_eq_ok hx; cases hx; exact hsame rfl rfl rfl
  | timerInsert h => obtain ⟨-, hx⟩ := need_eq_ok hx; cases hx; exact hcons _ rfl rfl rfl
  | setNotifying o => obtain ⟨-, hx⟩ := need_eq_ok hx; cases hx; exact hsame rfl rfl rfl
  | setStopping => obtain ⟨-, hx⟩ := need_eq_ok hx; cases hx; exact hcons .stopping rfl rfl rfl
  | setInRun b => obtain ⟨-, hx⟩ := need_eq_ok hx; cases hx; exact hsame rfl rfl rfl
  | setFinalized => obtain ⟨-, hx⟩ := need_eq_ok hx; cases hx; exact hsame rfl rfl rfl
  | now => cases hx; exact hsame rfl rfl rfl
  | epollCtl cmd fd ev =>
    have hs : (ctlResult s e.ctlErr cmd fd ev).2 = s' := congrArg Prod.snd (Res.ok.inj hx)
    obtain ⟨i, hi⟩ := ctlResult_interest s e.ctlErr cmd fd ev
    rw [← hs, hi]
    exact hsame rfl rfl rfl
  | epollWait t => cases hx; exact hsame rfl rfl rfl
  | close f =>
    obtain ⟨-, hx⟩ := need_eq_ok hx; cases hx
    cases f <;> exact hsame rfl rfl rfl
  | lock =>
    simp only [Op.exec] at hx
    split at hx <;> cases hx
    exact hsame rfl rfl rfl
  | unlock => obtain ⟨-, hx⟩ := need_eq_ok hx; cases hx; exact hsame rfl rfl rfl
  | pipeWrite => cases hx; exact hsame rfl rfl rfl
  | pipeRead => cases hx; exact hsame rfl rfl rfl
  | emit ev => cases hx; exact hcons ev rfl rfl rfl

theorem other_grows (l : Other) (s s' : St) (ho : other l s = some s') : Grows s s' := by
  have hsame : ∀ {t : St}, t.log = s.log → t.heap = s.heap → t.next = s.next → Grows s t := fun h1 h2 h3 =>
    .of_same (by rw [h1]) (fun h hh => by rw [← h2]; exact hh) h3
  cases l with
  | start =>
    simp only [other] at ho
    split at ho <;> cases ho
    exact hsame rfl rfl rfl
  | step i =>
    simp only [other] at ho
    split at ho
    · unfold stepProducer at ho
      split at ho
      · split at ho <;> cases ho
        exact hsame rfl rfl rfl
      · split at ho <;> cases ho
        · exact hsame rfl rfl rfl
        · refine ⟨⟨[_, _], rfl⟩, fun k h1 h2 => ?_, fun k h1 h2 => ?_, Nat.le_succ _⟩
          · by_cases hk : k = s.next
            · subst hk; simp [St.link] at h2
            · simp [St.link, hk] at h2
              exact absurd h2 h1
          · have hk : k = s.next := by simp only [St.link] at h2; omega
            simp [St.link, hk]
      · cases ho; exact hsame rfl rfl rfl
      · cases ho; exact hsame rfl rfl rfl
      · cases ho; exact hsame rfl rfl rfl
      · cases ho
    · cases ho

theorem reaches_log (hr : Reaches sys (guard m) c c') : c.st.log <:+ c'.st.log :=
  hr.keep_st (P := fun s => c.st.log <:+ s.log) (fun o e s r s' h hx => h.trans (exec_grows o e s r s' hx).log)
    (fun l s s' h hx => h.trans (other_grows l s s' hx).log) (List.suffix_refl _)

/-- A handle that has been allocated and is not any more was freed. -/
def FreedLogged (s : St) : Prop := ∀ h : Nat, h < s.next → s.heap h = none → .freed h ∈ s.log

theorem Grows.freedLogged (hg : Grows s s') (h : FreedLogged s) : FreedLogged s' := fun k hk hn => by
  by_cases hlt : k < s.next
  · by_cases hs : s.heap k = none
    · exact hg.log.subset (h k hlt hs)
    · exact hg.freed k hs hn
  · exact absurd hn (hg.alloc k (not_lt.1 hlt) hk)

theorem Reachable.freedLogged (hr : Reachable m b c) : FreedLogged c.st := by
  refine Reaches.keep_st hr (fun o e s r s' h hx => (exec_grows o e s r s' hx).freedLogged h)
    (fun l s s' h hx => (other_grows l s s' hx).freedLogged h) fun h hlt hn => ?_
  have h0 : h = wake := by
    have : h < 1 := hlt
    show h = 0
    omega
  subst h0
  simp [Config.init, St.init] at hn

theorem Reachable.logOk (hr : Reachable m b c) : LogOk m.fresh c.st.log := by
  rcases hr.fresh with h | ⟨-, c', h, hs⟩
  · exact (h.point rfl).log
  · exact hs ▸ (h.point rfl).log

/-- While user code runs, nothing is stuck. -/
theorem Reachable.fresh_of_user (hr : Reachable m b c) (hu : c.AtUser) : Reachable m.fresh b c := by
  rcases hr.fresh with h | ⟨⟨a, h, k, rest, hst, -⟩, -⟩
  · exact h
  · simp [Cfg.AtUser, hst] at hu

end Grow

end AlgaeBp.Evb2
