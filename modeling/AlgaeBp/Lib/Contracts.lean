import AlgaeBp.Lib.Reentrant
/-!
# What calls promise

More about the runs of a `Reentrant.System`. `Prog.Only` says which operations a
program performs, and `wp_only` follows such a program with one invariant.
`System.watched` lets an observer of the operations run along, which changes
nothing else. `Guard.assuming` adds to a guard what is known of all its runs, so
that one proof can build on what another has shown.

A `Contract` also says what holds when a call returns. `Met.reaches`: if every
call meets its contract, every configuration of every run does.
-/

namespace Reentrant

section Only
variable {O : Type} {R : O → Type} {St Env Call Ret Other : Type}

/-- The program performs operations of `ok` only, and hands over control only if `cb`. -/
def Prog.Only (ok : O → Prop) (cb : Prop) {α : Type} : Prog O R α → Prop
  | .ret _ => True
  | .op o k => ok o ∧ ∀ r, (k r).Only ok cb
  | .user k => cb ∧ k.Only ok cb
  | .loop body _ k => (∀ i, (body i).Only ok cb) ∧ ∀ b, (k b).Only ok cb

namespace Prog.Only

variable {ok : O → Prop} {cb : Prop} {α β σ : Type}

theorem pure (a : α) : (Pure.pure a : Prog O R α).Only ok cb := trivial

theorem act {o : O} (h : ok o) : (Prog.act o : Prog O R (R o)).Only ok cb := ⟨h, fun _ => trivial⟩

theorem iterate {i : σ} {body : σ → Prog O R (σ ⊕ β)} (h : ∀ i, (body i).Only ok cb) :
    (Prog.iterate i body).Only ok cb := ⟨h, fun _ => trivial⟩

theorem bind {p : Prog O R α} {f : α → Prog O R β} (h : p.Only ok cb) (hf : ∀ a, (f a).Only ok cb) :
    (p >>= f).Only ok cb := by
  show (p.bind f).Only ok cb
  induction p with
  | ret a => exact hf a
  | op o k ih => exact ⟨h.1, fun r => ih r (h.2 r) hf⟩
  | user k ih => exact ⟨h.1, ih h.2 hf⟩
  | loop body i k _ ih => exact ⟨h.1, fun b => ih b (h.2 b) hf⟩

theorem ite {c : Prop} [Decidable c] {p q : Prog O R α} (hp : c → p.Only ok cb) (hq : ¬ c → q.Only ok cb) :
    (if c then p else q).Only ok cb := by
  split
  · exact hp ‹_›
  · exact hq ‹_›

theorem mono {ok' : O → Prop} (ho : ∀ o, ok o → ok' o) {p : Prog O R α} (h : p.Only ok cb) : p.Only ok' cb := by
  induction p with
  | ret a => trivial
  | op o k ih => exact ⟨ho o h.1, fun r => ih r (h.2 r)⟩
  | user k ih => exact ⟨h.1, ih h.2⟩
  | loop body i k ihb ih => exact ⟨fun i => ihb i (h.1 i), fun b => ih b (h.2 b)⟩

end Prog.Only

variable {S : System O R St Env Call Ret Other} {G : Guard O St Env Call Other} {L : Logic O St}

/-- What every operation and all user code keeps, a program keeps. -/
theorem wp_only {ok : O → Prop} {cb : Prop} {b : Call} {I : St → Prop}
    (hop : ∀ o s, ok o → I s → wp S G L b (Prog.act o) (fun _ s' => I s') s)
    (hcb : cb → ∀ s, I s → wp S G L b Prog.callback (fun _ s' => I s') s) {α : Type} {p : Prog O R α}
    (h : p.Only ok cb) {s : St} (hs : I s) : wp S G L b p (fun _ s' => I s') s := by
  induction p generalizing s with
  | ret a => exact hs
  | op o k ih =>
    intro s₁ hy hn
    obtain ⟨hb, he⟩ := hop o s h.1 hs s₁ hy hn
    refine ⟨hb, fun e hm => ?_⟩
    have hx := he e hm
    revert hx
    split
    · exact fun hx => ⟨hx.1, ih _ (h.2 _) hx.2⟩
    · exact id
    · exact id
  | user k ih =>
    obtain ⟨hu, hk⟩ := hcb h.1 s hs
    exact ⟨hu, fun s' h1 h2 h3 => ih h.2 (hk s' h1 h2 h3)⟩
  | loop body i k ihb ihk =>
    refine ⟨fun _ s => I s, hs, fun i s hi => wp_mono (ihb i (h.1 i) hi) ?_⟩
    rintro (i' | r) s' hx
    · exact hx
    · exact ihk r (h.2 r) hx

end Only

/-! ## Observers -/

section Watched
variable {O : Type} {R : O → Type} {St Env Call Ret Other Γ : Type}

/-- The system with an observer that sees each operation performed, its result,
and the state it was performed in. -/
def System.watched (S : System O R St Env Call Ret Other) (see : (o : O) → Env → R o → St → Γ → Γ) :
    System O R (St × Γ) Env Call Ret Other where
  exec o e x :=
    match S.exec o e x.1 with
    | .ok (r, s) => .ok (r, s, see o e r x.1 x.2)
    | .block => .block
    | .fault => .fault
  yields := S.yields
  api := S.api
  other l x := (S.other l x.1).map (·, x.2)

theorem System.watched_ok {S : System O R St Env Call Ret Other} {see : (o : O) → Env → R o → St → Γ → Γ} {o : O} {e : Env}
    {x : St × Γ} {r : R o} {s : St} (h : S.exec o e x.1 = .ok (r, s)) :
    (S.watched see).exec o e x = .ok (r, s, see o e r x.1 x.2) := by
  simp [System.watched, h]

theorem System.watched_block {S : System O R St Env Call Ret Other} {see : (o : O) → Env → R o → St → Γ → Γ} {o : O}
    {e : Env} {x : St × Γ} (h : S.exec o e x.1 = .block) : (S.watched see).exec o e x = .block := by
  simp [System.watched, h]

theorem System.watched_fault {S : System O R St Env Call Ret Other} {see : (o : O) → Env → R o → St → Γ → Γ} {o : O}
    {e : Env} {x : St × Γ} (h : S.exec o e x.1 = .fault) : (S.watched see).exec o e x = .fault := by
  simp [System.watched, h]

/-- The observer is not asked. -/
def Guard.watched (G : Guard O St Env Call Other) (Γ : Type) : Guard O (St × Γ) Env Call Other where
  calls a x := G.calls a x.1
  resumes x := G.resumes x.1
  may b o e x := G.may b o e x.1
  others l x := G.others l x.1

/-- The configuration without the observer. -/
def Cfg.plain (c : Cfg O R (St × Γ) Call Ret) : Cfg O R St Call Ret := ⟨c.st.1, c.stack⟩

variable {S : System O R St Env Call Ret Other} {G : Guard O St Env Call Other}
  {see : (o : O) → Env → R o → St → Γ → Γ}

/-- Step by step, the watched system does what the system does. -/
theorem step_plain (l : Label Env Call Other) (c : Cfg O R (St × Γ) Call Ret) :
    (step (S.watched see) (G.watched Γ) l c).map Cfg.plain = step S G l c.plain := by
  obtain ⟨⟨s, g⟩, stack⟩ := c
  cases l with
  | call a =>
    have hcall : ∀ stack : List (Call × Prog O R Ret),
        (if G.calls a s = true then some (⟨(s, g), stack⟩ : Cfg O R (St × Γ) Call Ret) else none).map Cfg.plain =
          if G.calls a s = true then some ⟨s, stack⟩ else none := by
      intro stack
      split
      · rfl
      · rfl
    rcases stack with _ | ⟨⟨b, p⟩, rest⟩
    · exact hcall _
    · cases p with
      | user k => exact hcall _
      | ret a | op o k | loop body i k => rfl
  | resume =>
    rcases stack with _ | ⟨⟨b, p⟩, rest⟩
    · rfl
    · cases p with
      | user k => by_cases hr : G.resumes s = true <;> simp [step, Guard.watched, Cfg.plain, hr]
      | ret a | op o k | loop body i k => rfl
  | exec e =>
    rcases stack with _ | ⟨⟨b, p⟩, rest⟩
    · rfl
    · cases p with
      | op o k =>
        by_cases hm : G.may b o e s = true
        · cases hx : S.exec o e s <;> simp [step, Guard.watched, System.watched, Cfg.plain, hm, hx]
        · simp [step, Guard.watched, Cfg.plain, hm]
      | ret a | user k | loop body i k => rfl
  | «unfold» =>
    rcases stack with _ | ⟨⟨b, p⟩, rest⟩
    · rfl
    · cases p <;> rfl
  | finish =>
    rcases stack with _ | ⟨⟨b, p⟩, rest⟩
    · rfl
    · cases p <;> rfl
  | other o =>
    have hopen : openTo (S.watched see) ⟨(s, g), stack⟩ = openTo S ⟨s, stack⟩ := by
      rcases stack with _ | ⟨⟨b, p⟩, rest⟩
      · rfl
      · cases p <;> rfl
    have hother : (S.watched see).other o (s, g) = (S.other o s).map (·, g) := rfl
    simp only [step, hopen, hother, Cfg.plain]
    by_cases ho : (openTo S ⟨s, stack⟩ && G.others o s) = true
    · cases hx : S.other o s <;> simp [Guard.watched, Cfg.plain, ho]
    · simp [Guard.watched, ho]

theorem Reaches.plain {c c' : Cfg O R (St × Γ) Call Ret} (h : Reaches (S.watched see) (G.watched Γ) c c') :
    Reaches S G c.plain c'.plain := by
  refine h.keep (P := fun d => Reaches S G c.plain d.plain) (fun l a b ha hs => ha.trans (.one l ?_)) (.refl _)
  rw [← step_plain l a, hs]
  rfl

/-- Every run can be watched. -/
theorem Reaches.watched {c c' : Cfg O R St Call Ret} (h : Reaches S G c c') (see : (o : O) → Env → R o → St → Γ → Γ)
    (g : Γ) : ∃ g', Reaches (S.watched see) (G.watched Γ) ⟨(c.st, g), c.stack⟩ ⟨(c'.st, g'), c'.stack⟩ := by
  refine h.keep (P := fun d => ∃ g', Reaches (S.watched see) (G.watched Γ) ⟨(c.st, g), c.stack⟩ ⟨(d.st, g'), d.stack⟩)
    ?_ ⟨g, .refl _⟩
  rintro l a b ⟨g', ha⟩ hs
  have hp : (step (S.watched see) (G.watched Γ) l ⟨(a.st, g'), a.stack⟩).map Cfg.plain = some b :=
    (step_plain l _).trans hs
  obtain ⟨b', hb', rfl⟩ := Option.map_eq_some_iff.1 hp
  exact ⟨b'.st.2, ha.trans (.one l hb')⟩

theorem Faults.plain {c : Cfg O R (St × Γ) Call Ret} (h : Faults (S.watched see) (G.watched Γ) c) :
    Faults S G c.plain := by
  obtain ⟨⟨s, g⟩, stack⟩ := c
  match stack, h with
  | (b, .op o k) :: rest, ⟨e, hm, he⟩ =>
    refine ⟨e, hm, ?_⟩
    simp only [System.watched] at he
    split at he
    · cases he
    · cases he
    · assumption

end Watched

/-! ## Building on what is known -/

section Assuming
variable {O : Type} {R : O → Type} {St Env Call Ret Other : Type}

open Classical in
/-- The steps of a guard, as long as `point` holds everywhere, `user` holds where
user code runs, and nothing faults. -/
noncomputable def Guard.assuming (G : Guard O St Env Call Other) (S : System O R St Env Call Ret Other)
    (point user : St → Prop) : Guard O St Env Call Other where
  calls a s := G.calls a s && decide (user s)
  resumes s := G.resumes s && decide (user s)
  may b o e s :=
    G.may b o e s && decide (point s ∧ S.exec o e s ≠ .fault ∧ ∀ r s', S.exec o e s = .ok (r, s') → point s')
  others l s := G.others l s && decide (point s)

variable {S : System O R St Env Call Ret Other} {G : Guard O St Env Call Other} {point user : St → Prop}

/-- What holds of every run may be assumed of it. -/
theorem Reaches.assuming {c c' : Cfg O R St Call Ret} (h : Reaches S G c c')
    (hall : ∀ d, Reaches S G c d → point d.st ∧ (d.AtUser → user d.st) ∧ ¬ Faults S G d) :
    Reaches S (G.assuming S point user) c c' := by
  refine (h.keep (P := fun d => Reaches S G c d ∧ Reaches S (G.assuming S point user) c d)
    (fun l a d ⟨ha, ha'⟩ hs => ?_) ⟨.refl c, .refl c⟩).2
  have hd : Reaches S G c d := ha.trans (.one l hs)
  obtain ⟨hp, hu, hf⟩ := hall a ha
  refine ⟨hd, ha'.trans ?_⟩
  obtain ⟨b, hc, hau, rfl⟩ | ⟨b, k, rest, hst, hr, rfl⟩ | ⟨e, b, o, k, rest, r, s, hst, hm, he, rfl⟩ |
    ⟨b, σ, β, body, i, k, rest, hst, rfl⟩ | ⟨b, r, rest, hst, rfl⟩ | ⟨o, s, ho, hg, hx, rfl⟩ := step_cases hs
  · refine .one (.call b) (step_call.2 ⟨hau, ?_, rfl⟩)
    simp [Guard.assuming, hc, hu hau]
  · obtain ⟨s, stack⟩ := a
    subst hst
    refine .one .resume ?_
    have hu' : user s := hu trivial
    have hr' : G.resumes s = true := hr
    simp [step, Guard.assuming, hr', hu']
  · obtain ⟨t, stack⟩ := a
    subst hst
    refine .one (.exec e) ?_
    have hm' : G.may b o e t = true := hm
    have he' : S.exec o e t = .ok (r, s) := he
    have hp' : point t := hp
    have hs' : point s := (hall _ hd).1
    have hpost : ∀ r' s', S.exec o e t = .ok (r', s') → point s' := fun r' s' hx => by
      rw [he'] at hx
      cases hx
      exact hs'
    simp [step, Guard.assuming, hm', hp', hpost, he']
  · obtain ⟨s, stack⟩ := a
    subst hst
    exact .one .unfold rfl
  · obtain ⟨s, stack⟩ := a
    subst hst
    exact .one .finish rfl
  · refine .one (.other o) ?_
    simp [step, ho, hg, hx, Guard.assuming, hp]

end Assuming

/-! ## Contracts -/

section Contract
variable {O : Type} {R : O → Type} {St Env Call Ret Other : Type}

/-- What a proof keeps track of along a run, and what calls promise on return. -/
structure Contract (O St Call Ret : Type) where
  /-- Holds after every operation. -/
  point : St → Prop
  /-- Holds when this call is about to perform an operation. -/
  before : Call → O → St → Prop
  /-- Holds whenever user code runs. -/
  atUser : St → Prop
  /-- What user code preserves while it runs inside a callback. -/
  keeps : St → St → Prop
  /-- What other threads preserve. -/
  rely : St → St → Prop
  /-- Holds when this call returns. -/
  post : Call → Ret → St → Prop

namespace Contract

/-- The contract, for one call. -/
def logic (C : Contract O St Call Ret) (b : Call) : Logic O St where
  point := C.point
  before := C.before b
  atUser := C.atUser
  keeps := C.keeps
  rely := C.rely

/-- The contract while no call is running. -/
def outside (C : Contract O St Call Ret) : Logic O St where
  point := C.point
  before _ _ := True
  atUser := C.atUser
  keeps := C.keeps
  rely := C.rely

variable (S : System O R St Env Call Ret Other) (G : Guard O St Env Call Other) (C : Contract O St Call Ret)

/-- Every call meets its contract. -/
structure Met : Prop where
  call : ∀ b s, C.point s → C.atUser s → G.calls b s = true →
    wp S G (C.logic b) b (S.api b) (fun r s' => C.post b r s' ∧ C.atUser s' ∧ C.keeps s s') s
  steady : Steady S G C.outside

/-- The running call will meet its contract, and so will the calls it was made from. -/
def StackOk (s₀ : St) : List (Call × Prog O R Ret) → St → Prop
  | [], s => C.atUser s ∧ C.keeps s₀ s
  | (b, p) :: rest, s => wp S G (C.logic b) b p (fun r s' => C.post b r s' ∧ StackOk s₀ rest s') s

def CfgOk (s₀ : St) (c : Cfg O R St Call Ret) : Prop := C.point c.st ∧ StackOk S G C s₀ c.stack c.st

variable {S G C}

theorem Met.steadyFor (hC : Met S G C) (b : Call) : Steady S G (C.logic b) :=
  ⟨hC.steady.other, hC.steady.rely_point, hC.steady.rely_user, hC.steady.rely_refl, hC.steady.rely_trans,
    hC.steady.keeps_refl, hC.steady.keeps_trans⟩

theorem StackOk.atUser {s₀ : St} {c : Cfg O R St Call Ret} (h : StackOk S G C s₀ c.stack c.st) (hu : c.AtUser) :
    C.atUser c.st := by
  obtain ⟨s, stack⟩ := c
  match stack, h, hu with
  | [], h, _ => exact h.1
  | (_, .user _) :: _, h, _ => exact h.1

theorem Met.call_ok (hC : Met S G C) {b : Call} {s₀ : St} {c : Cfg O R St Call Ret} (h : CfgOk S G C s₀ c)
    (hu : c.AtUser) (hc : G.calls b c.st = true) : StackOk S G C s₀ ((b, S.api b) :: c.stack) c.st := by
  refine wp_mono (hC.call b c.st h.1 (h.2.atUser hu) hc) fun r s' hr => ⟨hr.1, ?_⟩
  obtain ⟨s, stack⟩ := c
  match stack, h, hu with
  | [], h, _ => exact ⟨hr.2.1, hC.steady.keeps_trans h.2.2 hr.2.2⟩
  | (a, .user _) :: _, h, _ => exact (hC.steadyFor a).wait h.2 hr.2.1 hr.2.2

theorem Met.other_ok (hC : Met S G C) {s₀ : St} {c : Cfg O R St Call Ret} (h : CfgOk S G C s₀ c)
    (ho : openTo S c = true) {l : Other} {s' : St} (hg : G.others l c.st = true) (hs : S.other l c.st = some s') :
    CfgOk S G C s₀ ⟨s', c.stack⟩ := by
  obtain ⟨hp, hok⟩ := h
  have hr : C.rely c.st s' := hC.steady.other l c.st s' hp hg hs
  refine ⟨hC.steady.rely_point c.st s' hp hr, ?_⟩
  obtain ⟨s, stack⟩ := c
  match stack with
  | [] =>
    obtain ⟨hu, hk⟩ := hC.steady.rely_user s s' hp hok.1 hr
    exact ⟨hu, hC.steady.keeps_trans hok.2 hk⟩
  | (b, p) :: rest => exact (hC.steadyFor b).other_wp hp hok ho hr

theorem Met.step_ok (hC : Met S G C) {s₀ : St} (l : Label Env Call Other) (c c' : Cfg O R St Call Ret)
    (h : CfgOk S G C s₀ c) (hs : step S G l c = some c') : CfgOk S G C s₀ c' := by
  obtain ⟨b, hc, hu, rfl⟩ | ⟨b, k, rest, hst, hr, rfl⟩ | ⟨e, b, o, k, rest, r, s, hst, hm, he, rfl⟩ |
    ⟨b, σ, β, body, i, k, rest, hst, rfl⟩ | ⟨b, r, rest, hst, rfl⟩ | ⟨o, s, ho, hg, hs', rfl⟩ := step_cases hs
  · exact ⟨h.1, hC.call_ok h hu hc⟩
  · obtain ⟨hp, hok⟩ := h
    rw [hst] at hok
    exact ⟨hp, hok.2 c.st (hC.steady.keeps_refl _) hok.1 hr⟩
  · obtain ⟨-, hok⟩ := h
    rw [hst] at hok
    exact (hC.steadyFor b).exec_ok hok hm he
  · obtain ⟨hp, hok⟩ := h
    rw [hst] at hok
    exact ⟨hp, wp_unfold hok⟩
  · obtain ⟨hp, hok⟩ := h
    rw [hst] at hok
    exact ⟨hp, hok.2⟩
  · exact hC.other_ok h ho hg hs'

/-- Every configuration of every run from a good one is good. -/
theorem Met.reaches (hC : Met S G C) {s₀ : St} {c c' : Cfg O R St Call Ret} (h : CfgOk S G C s₀ c)
    (hr : Reaches S G c c') : CfgOk S G C s₀ c' :=
  hr.keep hC.step_ok h

theorem Met.before (hC : Met S G C) {s₀ : St} {c : Cfg O R St Call Ret} (h : CfgOk S G C s₀ c) {b : Call} {o : O}
    {k : R o → Prog O R Ret} {rest : List (Call × Prog O R Ret)} (hst : c.stack = (b, .op o k) :: rest) :
    C.before b o c.st := by
  obtain ⟨-, hok⟩ := h
  rw [hst] at hok
  exact (hok c.st (fun _ => hC.steady.rely_refl _) (fun _ => rfl)).1

theorem CfgOk.post {s₀ : St} {c : Cfg O R St Call Ret} (h : CfgOk S G C s₀ c) {b : Call} {r : Ret}
    {rest : List (Call × Prog O R Ret)} (hst : c.stack = (b, .ret r) :: rest) : C.post b r c.st := by
  obtain ⟨-, hok⟩ := h
  rw [hst] at hok
  exact hok.1

end Contract

end Contract

end Reentrant
