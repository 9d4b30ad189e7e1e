import Mathlib.Data.List.Induction
import Mathlib.Tactic.Common
/-!
# Runs

A machine takes steps that may not be possible in every state. `Steps` speaks of
every step of a run, with the state it starts from. `Steps.inv`: an invariant
that every such step keeps holds at the end, and so after every part of the run.
-/

namespace Runs

variable {σ L : Type} (step : σ → L → Option σ)

/-- The state after these steps, if they are all possible. -/
def run : List L → σ → Option σ
  | [], s => some s
  | l :: ls, s => (step s l).bind (run ls)

/-- Every step of the run meets `C`. -/
def Steps (C : σ → L → Prop) (s₀ : σ) (ls : List L) : Prop :=
  ∀ ls' l s, ls' ++ [l] <+: ls → run step ls' s₀ = some s → C s l

variable {step}

theorem run_append (ls ls' : List L) (s : σ) : run step (ls ++ ls') s = (run step ls s).bind (run step ls') := by
  induction ls generalizing s with
  | nil => rfl
  | cons l ls ih =>
    rw [List.cons_append, run, run, Option.bind_assoc]
    exact congrArg _ (funext ih)

theorem run_one (l : L) (s : σ) : run step [l] s = step s l := by
  rw [run]
  cases step s l <;> rfl

theorem run_concat {ls : List L} {l : L} {s₀ s' : σ} :
    run step (ls ++ [l]) s₀ = some s' ↔ ∃ s, run step ls s₀ = some s ∧ step s l = some s' := by
  simp only [run_append, Option.bind_eq_some_iff, run_one]

/-- Any part of a run is a run. -/
theorem run_prefix {ls ls' : List L} {s₀ s : σ} (h : run step ls s₀ = some s) (hp : ls' <+: ls) :
    ∃ s', run step ls' s₀ = some s' := by
  obtain ⟨rest, rfl⟩ := hp
  rw [run_append, Option.bind_eq_some_iff] at h
  obtain ⟨s', hs', -⟩ := h
  exact ⟨s', hs'⟩

theorem Steps.of_prefix {C : σ → L → Prop} {s₀ : σ} {ls ls' : List L} (h : Steps step C s₀ ls) (hp : ls' <+: ls) :
    Steps step C s₀ ls' := fun ls'' l s hpre hr => h ls'' l s (hpre.trans hp) hr

theorem steps_of_forall {C : σ → L → Prop} {s₀ : σ} {ls : List L} (h : ∀ l ∈ ls, ∀ s, C s l) : Steps step C s₀ ls :=
  fun _ l s hp _ => h l (hp.subset (by simp)) s

/-- **An invariant of the steps is an invariant of the run.** -/
theorem Steps.inv {C : σ → L → Prop} {I : σ → Prop} {s₀ s : σ} {ls : List L} (hC : Steps step C s₀ ls) (h₀ : I s₀)
    (hstep : ∀ s l s', I s → C s l → step s l = some s' → I s') (hr : run step ls s₀ = some s) : I s := by
  induction ls using List.reverseRecOn generalizing s with
  | nil =>
    obtain rfl := Option.some.inj hr
    exact h₀
  | append_singleton ls l ih =>
    obtain ⟨s', hr', hs⟩ := run_concat.1 hr
    have hI := ih (hC.of_prefix (List.prefix_append ls [l])) hr'
    exact hstep s' l s hI (hC ls l s' (List.prefix_refl _) hr') hs

theorem steps_concat {C : σ → L → Prop} {s₀ : σ} {ls : List L} {l : L} :
    Steps step C s₀ (ls ++ [l]) ↔ Steps step C s₀ ls ∧ ∀ s, run step ls s₀ = some s → C s l := by
  constructor
  · intro h
    exact ⟨h.of_prefix (List.prefix_append ls [l]), fun s hr => h ls l s (List.prefix_refl _) hr⟩
  · rintro ⟨hls, hl⟩ ls' l' s hp hr
    rcases List.prefix_concat_iff.1 hp with heq | hp
    · obtain ⟨rfl, hl'⟩ := List.append_inj' heq rfl
      obtain rfl := List.singleton_inj.1 hl'
      exact hl s hr
    · exact hls ls' l' s hp hr

theorem steps_nil (C : σ → L → Prop) (s : σ) : Steps step C s [] := fun _ _ _ hp => by simp at hp

theorem steps_cons {C : σ → L → Prop} {s : σ} {l : L} {ls : List L} :
    Steps step C s (l :: ls) ↔ C s l ∧ ∀ s', step s l = some s' → Steps step C s' ls := by
  constructor
  · intro h
    refine ⟨h [] l s (by simp) rfl, fun s' hs ls' l' t hp hr => h (l :: ls') l' t ?_ ?_⟩
    · exact List.cons_prefix_cons.2 ⟨rfl, hp⟩
    · rw [run, hs]
      exact hr
  · rintro ⟨hl, hls⟩ ls' l' t hp hr
    cases ls' with
    | nil =>
      obtain ⟨rfl, -⟩ := List.cons_prefix_cons.1 hp
      obtain rfl := Option.some.inj hr
      exact hl
    | cons m ls' =>
      obtain ⟨rfl, hrest⟩ := List.cons_prefix_cons.1 hp
      obtain ⟨s', hs, hr⟩ := Option.bind_eq_some_iff.1 hr
      exact hls s' hs ls' l' t hrest hr

/-- Whether the steps meet a condition can be tried out along the run. -/
instance decidableSteps {C : σ → L → Prop} [∀ s l, Decidable (C s l)] :
    (ls : List L) → (s : σ) → Decidable (Steps step C s ls)
  | [], s => isTrue (steps_nil C s)
  | l :: ls, s =>
    match hs : step s l with
    | none => decidable_of_iff (C s l) (by rw [steps_cons, hs]; simp)
    | some s' =>
      have : Decidable (Steps step C s' ls) := decidableSteps ls s'
      decidable_of_iff (C s l ∧ Steps step C s' ls) (by rw [steps_cons, hs]; simp)

/-- Conditions that agree wherever an invariant holds, which steps that meet them keep, hold of the same runs. -/
theorem steps_iff {C D : σ → L → Prop} {I : σ → Prop} {s₀ : σ} {ls : List L} (h₀ : I s₀)
    (hCD : ∀ s l, I s → (C s l ↔ D s l)) (hstep : ∀ s l s', I s → D s l → step s l = some s' → I s') :
    Steps step C s₀ ls ↔ Steps step D s₀ ls := by
  induction ls using List.reverseRecOn with
  | nil => exact iff_of_true (steps_nil C s₀) (steps_nil D s₀)
  | append_singleton ls l ih =>
    rw [steps_concat, steps_concat, ih]
    refine and_congr_right fun hD => forall_congr' fun s => forall_congr' fun hr => hCD s l ?_
    exact hD.inv h₀ hstep hr

/-- What every step keeps holds after every run. -/
theorem run_inv {I : σ → Prop} {s₀ s : σ} {ls : List L} (h₀ : I s₀)
    (hstep : ∀ s l s', I s → step s l = some s' → I s') (hr : run step ls s₀ = some s) : I s :=
  Steps.inv (C := fun _ _ => True) (fun _ _ _ _ _ => trivial) h₀ (fun s l s' hI _ hs => hstep s l s' hI hs) hr

/-- Steps that are possible wherever `I` holds, and keep it, make every run possible. -/
theorem run_total {I : σ → Prop} {s₀ : σ} (h₀ : I s₀) (hstep : ∀ s l, I s → ∃ s', step s l = some s' ∧ I s') (ls : List L) :
    ∃ s, run step ls s₀ = some s ∧ I s := by
  induction ls generalizing s₀ with
  | nil => exact ⟨s₀, rfl, h₀⟩
  | cons l ls ih =>
    obtain ⟨s', hs', hI⟩ := hstep s₀ l h₀
    rw [run, hs', Option.bind_some]
    exact ih hI

end Runs
