import Mathlib.Logic.Function.Basic
import Mathlib.Tactic.Common
/-!
# Threads over a shared state

Code is a tree of calls: a call reads or changes the shared state in one step,
and what it replies decides how the code goes on. `Throughout` speaks of every
state such code passes through when it runs alone.

A `Pool` runs several threads. Between any two calls of one thread the others,
and the world around them, may take any number of steps. `wp` is the weakest
precondition of a thread's code under such interference: `rely` bounds what
the others do, `guar` is what the thread's own steps keep to. `Sound.reaches`:
if every thread's jobs meet their `wp`, every run keeps the invariant.
-/

namespace Threads

/-- Code over calls `C`, where `R c` is the type of the replies to `c`. -/
inductive Code (C : Type) (R : C → Type) (α : Type) where
  | ret (a : α)
  | call (c : C) (k : R c → Code C R α)

namespace Code

variable {C : Type} {R : C → Type} {α β : Type}

def bind : Code C R α → (α → Code C R β) → Code C R β
  | .ret a, f => f a
  | .call c k, f => .call c (fun r => (k r).bind f)

instance : Monad (Code C R) where
  pure := .ret
  bind := .bind

/-- One call. -/
def act (c : C) : Code C R (R c) := .call c .ret

/-- Every call the code may come to has `P`. -/
def All (P : C → Prop) : Code C R α → Prop
  | .ret _ => True
  | .call c k => P c ∧ ∀ r, (k r).All P

theorem All.bind {P : C → Prop} {p : Code C R α} {f : α → Code C R β} (hp : p.All P) (hf : ∀ a, (f a).All P) :
    (p >>= f).All P := by
  induction p with
  | ret a => exact hf a
  | call c k ih => exact ⟨hp.1, fun r => ih r (hp.2 r)⟩

theorem All.mono {P P' : C → Prop} {p : Code C R α} (hp : p.All P) (h : ∀ c, P c → P' c) : p.All P' := by
  induction p with
  | ret a => trivial
  | call c k ih => exact ⟨h c hp.1, fun r => ih r (hp.2 r)⟩

theorem All.act {P : C → Prop} {c : C} (h : P c) : (Code.act (R := R) c).All P := ⟨h, fun _ => trivial⟩

end Code

variable {C : Type} {R : C → Type} {E σ α β : Type}

/-! ## Code that runs alone -/

section Alone
variable (exec : (c : C) → E → σ → R c × σ) (may : E → Prop) (I : σ → Prop)

/-- `I` holds at every point of the code: before, between and after its calls, whatever they come out as. -/
def Throughout : Code C R α → σ → Prop
  | .ret _, s => I s
  | .call c k, s => I s ∧ ∀ e, may e → Throughout (k (exec c e s).1) (exec c e s).2

variable {exec may I}

theorem Throughout.here {p : Code C R α} {s : σ} (h : Throughout exec may I p s) : I s := by
  cases p with
  | ret a => exact h
  | call c k => exact h.1

variable (exec) in
/-- The code's run alone where the calls come out as `es`, one after another: its result and the state it ends in. -/
def alone : Code C R α → (Nat → E) → σ → α × σ
  | .ret a, _, s => (a, s)
  | .call c k, es, s => alone (k (exec c (es 0) s).1) (fun n => es (n + 1)) (exec c (es 0) s).2

/-- What follows on some code takes up the outcomes where the code left off. -/
theorem alone_bind (p : Code C R α) (f : α → Code C R β) (es : Nat → E) (s : σ) :
    ∃ n, alone exec (p >>= f) es s =
      alone exec (f (alone exec p es s).1) (fun i => es (i + n)) (alone exec p es s).2 := by
  induction p generalizing es s with
  | ret a => exact ⟨0, rfl⟩
  | call c k ih =>
    obtain ⟨n, hn⟩ := ih (exec c (es 0) s).1 (fun i => es (i + 1)) (exec c (es 0) s).2
    exact ⟨n + 1, hn⟩

end Alone

/-! ## Several threads -/

/-- Threads `T`, with jobs `J` to do and steps `N` of the world around them. -/
structure Pool (C : Type) (R : C → Type) (T J E N σ : Type) where
  exec : T → (c : C) → E → σ → R c × σ
  job : T → J → Option (Code C R Unit)
  world : N → σ → σ

structure Cfg (C : Type) (R : C → Type) (T σ : Type) where
  st : σ
  code : T → Code C R Unit

inductive Label (T J E N : Type) where
  /-- The thread's next call is made. -/
  | step (t : T) (e : E)
  /-- The thread, which has nothing to do, takes up a job. -/
  | take (t : T) (j : J)
  | world (n : N)

section Run
variable {T J N : Type} [DecidableEq T] (S : Pool C R T J E N σ) (G : T → C → E → σ → Bool)

/-- One step; a call that `G` excludes is not made. -/
def step (l : Label T J E N) (c : Cfg C R T σ) : Option (Cfg C R T σ) :=
  match l with
  | .step t e =>
    match c.code t with
    | .ret _ => none
    | .call o k =>
      if G t o e c.st then
        let (r, s) := S.exec t o e c.st
        some { st := s, code := Function.update c.code t (k r) }
      else none
  | .take t j =>
    match c.code t, S.job t j with
    | .ret _, some p => some { c with code := Function.update c.code t p }
    | _, _ => none
  | .world n => some { c with st := S.world n c.st }

def run : List (Label T J E N) → Cfg C R T σ → Option (Cfg C R T σ)
  | [], c => some c
  | l :: ls, c => (step S G l c).bind (run ls)

/-- What a step can be. -/
theorem step_cases {l : Label T J E N} {c c' : Cfg C R T σ} (h : step S G l c = some c') :
    (∃ t e o k, c.code t = .call o k ∧ G t o e c.st = true ∧
      c' = { st := (S.exec t o e c.st).2, code := Function.update c.code t (k (S.exec t o e c.st).1) }) ∨
    (∃ t j p u, c.code t = .ret u ∧ S.job t j = some p ∧ c' = { c with code := Function.update c.code t p }) ∨
    (∃ n, c' = { c with st := S.world n c.st }) := by
  cases l with
  | step t e =>
    refine .inl ⟨t, e, ?_⟩
    simp only [step] at h
    split at h
    · cases h
    · next o k hc =>
      split at h
      · next hg => exact ⟨o, k, hc, hg, (Option.some.inj h).symm⟩
      · cases h
  | take t j =>
    refine .inr (.inl ⟨t, j, ?_⟩)
    simp only [step] at h
    split at h
    · next u p hc hj => exact ⟨p, u, hc, hj, (Option.some.inj h).symm⟩
    · cases h
  | world n => exact .inr (.inr ⟨n, (Option.some.inj h).symm⟩)

end Run

/-! ## Weakest preconditions under interference -/

section Wp
variable {T J N : Type} (S : Pool C R T J E N σ) (G : T → C → E → σ → Bool)

/-- The invariant of the shared state, and what each thread relies on and keeps to. -/
structure Logic (T σ : Type) where
  inv : σ → Prop
  rely : T → σ → σ → Prop
  guar : T → σ → σ → Prop
  /-- What holds when the thread has nothing to do. -/
  idle : T → σ → Prop
  refl : ∀ t s, rely t s s
  trans : ∀ {t s s' s''}, rely t s s' → rely t s' s'' → rely t s s''

variable (L : Logic T σ)

def wp (t : T) : Code C R α → (α → σ → Prop) → σ → Prop
  | .ret a, Q, s => ∀ s', L.rely t s s' → L.inv s' → Q a s'
  | .call c k, Q, s => ∀ s', L.rely t s s' → L.inv s' → ∀ e, G t c e s' = true →
      L.guar t s' (S.exec t c e s').2 ∧ L.inv (S.exec t c e s').2 ∧ wp t (k (S.exec t c e s').1) Q (S.exec t c e s').2

variable {S G L} {t : T}

theorem wp_stable {p : Code C R α} {Q : α → σ → Prop} {s s' : σ} (h : wp S G L t p Q s) (hr : L.rely t s s') :
    wp S G L t p Q s' := by
  cases p with
  | ret a => exact fun s'' hr' hi => h s'' (L.trans hr hr') hi
  | call c k => exact fun s'' hr' hi => h s'' (L.trans hr hr') hi

/-- What holds wherever the others may take the state holds here. -/
theorem wp_of_rely {p : Code C R α} {Q : α → σ → Prop} {s : σ}
    (h : ∀ s', L.rely t s s' → L.inv s' → wp S G L t p Q s') : wp S G L t p Q s := by
  cases p with
  | ret a => exact fun s' hr hi => h s' hr hi s' (L.refl t s') hi
  | call c k => exact fun s' hr hi => h s' hr hi s' (L.refl t s') hi

theorem wp_mono {p : Code C R α} {Q Q' : α → σ → Prop} {s : σ} (h : wp S G L t p Q s)
    (hQ : ∀ a s, Q a s → Q' a s) : wp S G L t p Q' s := by
  induction p generalizing s with
  | ret a => exact fun s' hr hi => hQ a s' (h s' hr hi)
  | call c k ih =>
    intro s' hr hi e hg
    obtain ⟨hguar, hinv, hrest⟩ := h s' hr hi e hg
    exact ⟨hguar, hinv, ih _ hrest⟩

theorem wp_bind {p : Code C R α} {f : α → Code C R β} {Q : β → σ → Prop} {s : σ}
    (h : wp S G L t p (fun a s => wp S G L t (f a) Q s) s) : wp S G L t (p >>= f) Q s := by
  induction p generalizing s with
  | ret a => exact wp_of_rely h
  | call c k ih =>
    intro s' hr hi e hg
    obtain ⟨hguar, hinv, hrest⟩ := h s' hr hi e hg
    exact ⟨hguar, hinv, ih _ hrest⟩

/-- Sequencing: what the first part ends with is where the rest starts. -/
theorem wp.seq {p : Code C R α} {f : α → Code C R β} {P : α → σ → Prop} {Q : β → σ → Prop} {s : σ}
    (h : wp S G L t p P s) (hf : ∀ a s, P a s → wp S G L t (f a) Q s) : wp S G L t (p >>= f) Q s :=
  wp_bind (wp_mono h hf)

theorem wp_pure {a : α} {Q : α → σ → Prop} {s : σ} (h : ∀ s', L.rely t s s' → L.inv s' → Q a s') :
    wp S G L t (pure a) Q s := h

/-- One call, made where the others have taken the state. -/
theorem wp_act {c : C} {Q : R c → σ → Prop} {s : σ}
    (h : ∀ s', L.rely t s s' → L.inv s' → ∀ e, G t c e s' = true →
      L.guar t s' (S.exec t c e s').2 ∧ L.inv (S.exec t c e s').2 ∧
        ∀ s'', L.rely t (S.exec t c e s').2 s'' → L.inv s'' → Q (S.exec t c e s').1 s'') :
    wp S G L t (Code.act c) Q s := h

/-- Code every call of which keeps `P`, as the others do. -/
theorem wp_keep {P : σ → Prop} {p : Code C R α} {s : σ} (hP : ∀ s s', L.rely t s s' → P s → P s')
    (h : p.All (fun c => ∀ e s, L.inv s → P s → G t c e s = true →
      L.guar t s (S.exec t c e s).2 ∧ L.inv (S.exec t c e s).2 ∧ P (S.exec t c e s).2)) (hs : P s) :
    wp S G L t p (fun _ => P) s := by
  induction p generalizing s with
  | ret a => exact fun s' hr _ => hP s s' hr hs
  | call c k ih =>
    intro s' hr hi e hg
    obtain ⟨hguar, hinv, hkeep⟩ := h.1 e s' hi (hP s s' hr hs) hg
    exact ⟨hguar, hinv, ih _ (h.2 _) hkeep⟩

/-! ## Every run keeps the invariant -/

variable (S G L)

/-- What makes reasoning thread by thread sound. -/
structure Sound : Prop where
  meets : ∀ {t t' s s'}, t' ≠ t → L.guar t' s s' → L.rely t s s'
  world : ∀ n t s, L.rely t s (S.world n s)
  world_inv : ∀ n s, L.inv s → L.inv (S.world n s)
  job : ∀ t j p s, S.job t j = some p → L.inv s → L.idle t s → wp S G L t p (fun _ => L.idle t) s

/-- Every thread's code meets its precondition. -/
def CfgOk (c : Cfg C R T σ) : Prop :=
  L.inv c.st ∧ ∀ t, wp S G L t (c.code t) (fun _ => L.idle t) c.st

variable {S G L} [DecidableEq T]

theorem Sound.exec_ok (hS : Sound S G L) {c : Cfg C R T σ} (h : CfgOk S G L c) {t : T} {e : E} {o : C}
    {k : R o → Code C R Unit} (hc : c.code t = .call o k) (hg : G t o e c.st = true) :
    CfgOk S G L { st := (S.exec t o e c.st).2, code := Function.update c.code t (k (S.exec t o e c.st).1) } := by
  have ht := h.2 t
  rw [hc] at ht
  obtain ⟨hguar, hinv, hrest⟩ := ht c.st (L.refl t c.st) h.1 e hg
  refine ⟨hinv, fun t' => ?_⟩
  dsimp only
  by_cases heq : t' = t
  · subst heq
    rw [Function.update_self]
    exact hrest
  · rw [Function.update_of_ne heq]
    exact wp_stable (h.2 t') (hS.meets (Ne.symm heq) hguar)

theorem Sound.take_ok (hS : Sound S G L) {c : Cfg C R T σ} (h : CfgOk S G L c) {t : T} {j : J}
    {p : Code C R Unit} {u : Unit} (hc : c.code t = .ret u) (hj : S.job t j = some p) :
    CfgOk S G L { c with code := Function.update c.code t p } := by
  have ht := h.2 t
  rw [hc] at ht
  refine ⟨h.1, fun t' => ?_⟩
  dsimp only
  by_cases heq : t' = t
  · subst heq
    rw [Function.update_self]
    exact hS.job t' j p c.st hj h.1 (ht c.st (L.refl t' c.st) h.1)
  · rw [Function.update_of_ne heq]
    exact h.2 t'

theorem Sound.step_ok (hS : Sound S G L) {c c' : Cfg C R T σ} {l : Label T J E N} (h : CfgOk S G L c)
    (hs : step S G l c = some c') : CfgOk S G L c' := by
  obtain ⟨t, e, o, k, hc, hg, rfl⟩ | ⟨t, j, p, u, hc, hj, rfl⟩ | ⟨n, rfl⟩ := step_cases S G hs
  · exact hS.exec_ok h hc hg
  · exact hS.take_ok h hc hj
  · exact ⟨hS.world_inv n c.st h.1, fun t => wp_stable (h.2 t) (hS.world n t c.st)⟩

/-- **Every run keeps the invariant**, and every thread stays ready to go on. -/
theorem Sound.reaches (hS : Sound S G L) {ls : List (Label T J E N)} {c c' : Cfg C R T σ} (h : CfgOk S G L c)
    (hr : run S G ls c = some c') : CfgOk S G L c' := by
  induction ls generalizing c with
  | nil =>
    obtain rfl := Option.some.inj hr
    exact h
  | cons l ls ih =>
    obtain ⟨c₁, hs, hr⟩ := Option.bind_eq_some_iff.1 hr
    exact ih (hS.step_ok h hs) hr

end Wp

end Threads
