import Mathlib.Tactic.Common
/-!
# Weakest preconditions of stateful code

Code that reads and writes a state is a `StateM` program. `wp m Q s` says that
`m`, run from `s`, ends in a result and a state of `Q`. A function is described
by one `wp` lemma; its callers compose such lemmas with `wp_bind` and
`wp.mono` and never look into it.

Code that may also stop for good is an `OptionT (StateM σ)` program, and `wps`
has a second condition for the states it stops in.
-/

namespace StateWp

variable {σ α β : Type}

def wp (m : StateM σ α) (Q : α → σ → Prop) (s : σ) : Prop := Q (m s).1 (m s).2

@[simp] theorem wp_pure (a : α) (Q : α → σ → Prop) (s : σ) : wp (pure a) Q s ↔ Q a s := Iff.rfl

@[simp] theorem wp_get (Q : σ → σ → Prop) (s : σ) : wp get Q s ↔ Q s s := Iff.rfl

@[simp] theorem wp_modify (f : σ → σ) (Q : PUnit → σ → Prop) (s : σ) : wp (modify f) Q s ↔ Q ⟨⟩ (f s) := Iff.rfl

theorem wp_bind {m : StateM σ α} {f : α → StateM σ β} {Q : β → σ → Prop} {s : σ} :
    wp (m >>= f) Q s ↔ wp m (fun a t => wp (f a) Q t) s := Iff.rfl

/-- Code that looks at the state first. -/
theorem wp_read {f : σ → StateM σ α} {Q : α → σ → Prop} {s : σ} : wp (get >>= f) Q s ↔ wp (f s) Q s := Iff.rfl

/-- What follows from every outcome of `m` holds after it. -/
theorem wp.mono {m : StateM σ α} {Q Q' : α → σ → Prop} {s : σ} (h : wp m Q s) (hQ : ∀ a t, Q a t → Q' a t) :
    wp m Q' s := hQ _ _ h

theorem wp.and {m : StateM σ α} {Q Q' : α → σ → Prop} {s : σ} (h : wp m Q s) (h' : wp m Q' s) :
    wp m (fun a t => Q a t ∧ Q' a t) s := ⟨h, h'⟩

/-- Sequencing: the outcomes of `m` are where the rest starts. -/
theorem wp.bind {m : StateM σ α} {f : α → StateM σ β} {Q : α → σ → Prop} {Q' : β → σ → Prop} {s : σ} (h : wp m Q s)
    (hf : ∀ a t, Q a t → wp (f a) Q' t) : wp (m >>= f) Q' s := hf _ _ h

theorem wp.update {f : σ → σ} {g : PUnit → StateM σ α} {Q : α → σ → Prop} {s : σ} (h : wp (g ⟨⟩) Q (f s)) :
    wp (modify f >>= g) Q s := h

/-- A decision on the state. -/
theorem wp.branch {p : σ → Prop} [DecidablePred p] {m n : σ → StateM σ α} {Q : α → σ → Prop} {s : σ}
    (h : p s → wp (m s) Q s) (h' : ¬ p s → wp (n s) Q s) : wp (get >>= fun s => if p s then m s else n s) Q s := by
  change wp (if p s then m s else n s) Q s
  split
  · exact h ‹_›
  · exact h' ‹_›

/-- Code on a part of the state. -/
def zoom {τ : Type} (part : σ → τ) (put : τ → σ → σ) (m : StateM τ α) : StateM σ α := fun s =>
  let (a, t) := m (part s)
  (a, put t s)

/-! ## Code that keeps an invariant -/

/-- The code keeps the invariant, whatever else it does. -/
def Keeps (I : σ → Prop) (m : StateM σ α) : Prop := ∀ s, I s → wp m (fun _ => I) s

section Keeps
variable {I : σ → Prop}

theorem keeps_pure (a : α) : Keeps I (pure a : StateM σ α) := fun _ h => h

theorem keeps_get : Keeps I (get : StateM σ σ) := fun _ h => h

theorem keeps_modify {f : σ → σ} (hf : ∀ s, I s → I (f s)) : Keeps I (modify f : StateM σ PUnit) := hf

theorem Keeps.bind {m : StateM σ α} {f : α → StateM σ β} (hm : Keeps I m) (hf : ∀ a, Keeps I (f a)) :
    Keeps I (m >>= f) := fun s h => (hm s h).bind fun a t ht => hf a t ht

theorem Keeps.ite {c : Prop} [Decidable c] {m m' : StateM σ α} (hm : Keeps I m) (hm' : Keeps I m') :
    Keeps I (if c then m else m') := by
  split
  · exact hm
  · exact hm'

/-- Code that looks at the state first. -/
theorem Keeps.reads {f : σ → StateM σ β} (hf : ∀ s, I s → wp (f s) (fun _ => I) s) : Keeps I (get >>= f) := hf

end Keeps

/-! ## Programs that may stop -/

/-- `m` ends in a result and a state of `Q`, or stops in a state of `E`. -/
def wps (m : OptionT (StateM σ) α) (Q : α → σ → Prop) (E : σ → Prop) (s : σ) : Prop :=
  wp m.run (fun r t => match r with | some a => Q a t | none => E t) s

@[simp] theorem wps_pure (a : α) (Q : α → σ → Prop) (E : σ → Prop) (s : σ) : wps (pure a) Q E s ↔ Q a s := Iff.rfl

theorem wps_lift {m : StateM σ α} {Q : α → σ → Prop} {E : σ → Prop} {s : σ} :
    wps (liftM m) Q E s ↔ wp m Q s := Iff.rfl

theorem wps_modify {f : σ → σ} {Q : PUnit → σ → Prop} {E : σ → Prop} {s : σ} :
    wps (modify f) Q E s ↔ Q ⟨⟩ (f s) := Iff.rfl

theorem wps.bind {m : OptionT (StateM σ) α} {f : α → OptionT (StateM σ) β} {Q : α → σ → Prop} {Q' : β → σ → Prop}
    {E : σ → Prop} {s : σ} (h : wps m Q E s) (hf : ∀ a t, Q a t → wps (f a) Q' E t) : wps (m >>= f) Q' E s := by
  unfold wps at *
  rw [OptionT.run_bind]
  refine wp.bind h (fun r t hr => ?_)
  cases r with
  | none => exact hr
  | some a => exact hf a t hr

/-- Sequencing, as `do` blocks produce it. -/
theorem wps.seq {m : OptionT (StateM σ) α} {f : α → OptionT (StateM σ) β} {Q : β → σ → Prop} {E : σ → Prop} {s : σ}
    (h : wps m (fun a t => wps (f a) Q E t) E s) : wps (m >>= f) Q E s := h.bind (fun _ _ ht => ht)

theorem wps.mono {m : OptionT (StateM σ) α} {Q Q' : α → σ → Prop} {E : σ → Prop} {s : σ} (h : wps m Q E s)
    (hQ : ∀ a t, Q a t → Q' a t) : wps m Q' E s := by
  refine wp.mono h (fun r t hr => ?_)
  cases r with
  | none => exact hr
  | some a => exact hQ a t hr

/-! ## Refinement -/

/-- `m'` does not stop where `m` starts from `s`. It leaves the state that `m` leaves, and its
result stands for that of `m`. -/
def Refines (R : β → α → Prop) (m' : OptionT (StateM σ) β) (m : StateM σ α) (s : σ) : Prop :=
  ∃ b, m'.run s = (some b, (m s).2) ∧ R b (m s).1

theorem refines_pure {R : β → α → Prop} {b : β} {a : α} (h : R b a) (s : σ) : Refines R (pure b) (pure a) s := ⟨b, rfl, h⟩

/-- What both read alike. -/
theorem refines_lift (m : StateM σ α) (s : σ) : Refines Eq (liftM m) m s := ⟨_, rfl, rfl⟩

theorem Refines.bind {α' β' : Type} {R : β → α → Prop} {R' : β' → α' → Prop} {m' : OptionT (StateM σ) β} {m : StateM σ α}
    {f' : β → OptionT (StateM σ) β'} {f : α → StateM σ α'} {s : σ} (h : Refines R m' m s)
    (hf : ∀ b a t, R b a → Refines R' (f' b) (f a) t) : Refines R' (m' >>= f') (m >>= f) s := by
  obtain ⟨b, hrun, hR⟩ := h
  obtain ⟨b', hrun', hR'⟩ := hf b (m s).1 (m s).2 hR
  refine ⟨b', ?_, hR'⟩
  rw [OptionT.run_bind]
  change (fun r : Option β × σ => (r.1.elim (pure none) fun b => (f' b).run : StateM σ (Option β')) r.2) (m'.run s) = _
  rw [hrun]
  exact hrun'

/-- Sequencing after what both do alike. -/
theorem refines_bind {α' β' : Type} {R' : β' → α' → Prop} {m : StateM σ α}
    {f' : α → OptionT (StateM σ) β'} {f : α → StateM σ α'}
    {s : σ} (hf : ∀ a t, Refines R' (f' a) (f a) t) : Refines R' (liftM m >>= f') (m >>= f) s := by
  refine (refines_lift m s).bind ?_
  rintro _ a t rfl
  exact hf _ t

/-- Both branch alike. -/
theorem refines_ite {R : β → α → Prop} {p : Prop} [Decidable p] {b₁ b₂ : OptionT (StateM σ) β} {a₁ a₂ : StateM σ α} {s : σ}
    (h₁ : p → Refines R b₁ a₁ s) (h₂ : ¬ p → Refines R b₂ a₂ s) :
    Refines R (if p then b₁ else b₂) (if p then a₁ else a₂) s := by
  by_cases hp : p
  · rw [if_pos hp, if_pos hp]
    exact h₁ hp
  · rw [if_neg hp, if_neg hp]
    exact h₂ hp

theorem Refines.mono {R R' : β → α → Prop} {m' : OptionT (StateM σ) β} {m : StateM σ α} {s : σ} (h : Refines R m' m s)
    (hR : ∀ b a, R b a → R' b a) : Refines R' m' m s := by
  obtain ⟨b, hrun, hb⟩ := h
  exact ⟨b, hrun, hR b _ hb⟩

end StateWp
