import Mathlib.Data.List.Basic
import Mathlib.Tactic.Common
/-!
# Programs that call back into user code

A library's code is a `Prog`: a tree of primitive operations, loops and points
where it hands control to user code. A `System` gives the operations a meaning
on a state and names the calls user code can make. Its configurations are
stacks of suspended calls: whenever the topmost call has handed over control
(or none is running), user code may make another call or return.

Other threads take steps too, but only while the running call stands at an
operation marked as a yield, or while user code runs.

`wp` is the weakest precondition of a program for a fixed choice of what holds
at every point, what holds whenever user code runs, and what user code and the
other threads preserve. `Sound.reaches`: if every call meets its `wp`, then
every configuration of every run does.
-/

namespace Reentrant

/-- The outcome of an operation: done, waiting, or undefined behaviour. -/
inductive Res (α : Type) where
  | ok (a : α)
  | block
  | fault

/-- Programs over operations `O`, where `R o` is the result type of `o`. -/
inductive Prog (O : Type) (R : O → Type) : Type → Type 1 where
  | ret {α : Type} (a : α) : Prog O R α
  | op {α : Type} (o : O) (k : R o → Prog O R α) : Prog O R α
  /-- User code runs here. -/
  | user {α : Type} (k : Prog O R α) : Prog O R α
  /-- Repeat `body`, threading a state `i`, until it returns `inr`. -/
  | loop {σ β α : Type} (body : σ → Prog O R (σ ⊕ β)) (i : σ) (k : β → Prog O R α) : Prog O R α

namespace Prog

variable {O : Type} {R : O → Type} {α β : Type}

def bind {α β : Type} : Prog O R α → (α → Prog O R β) → Prog O R β
  | .ret a, f => f a
  | .op o k, f => .op o (fun r => (k r).bind f)
  | .user k, f => .user (k.bind f)
  | .loop body i k, f => .loop body i (fun b => (k b).bind f)

instance : Monad (Prog O R) where
  pure := .ret
  bind := .bind

/-- One operation. -/
def act (o : O) : Prog O R (R o) := .op o .ret

/-- Hand control to user code. -/
def callback : Prog O R Unit := .user (.ret ())

/-- `while`, with the loop state `i`. -/
def iterate {σ β : Type} (i : σ) (body : σ → Prog O R (σ ⊕ β)) : Prog O R β := .loop body i .ret

end Prog

/-! ## Runs -/

/-- Operations with their meaning, the calls user code can make, and the steps
of other threads. -/
structure System (O : Type) (R : O → Type) (St Env Call Ret Other : Type) where
  exec : (o : O) → Env → St → Res (R o × St)
  /-- Other threads may run while a call is about to perform this operation. -/
  yields : O → Bool
  api : Call → Prog O R Ret
  other : Other → St → Option St

/-- The state and the calls in progress, the running one first. -/
structure Cfg (O : Type) (R : O → Type) (St Call Ret : Type) where
  st : St
  stack : List (Call × Prog O R Ret)

/-- One step of a run. -/
inductive Label (Env Call Other : Type) where
  /-- User code makes a call. -/
  | call (c : Call)
  /-- User code returns from a callback. -/
  | resume
  /-- The running call performs its next operation. -/
  | exec (e : Env)
  /-- The running call enters the next round of a loop. -/
  | unfold
  /-- The running call returns. -/
  | finish
  /-- Another thread takes a step. -/
  | other (l : Other)

/-- Which steps a run may take: the caller's obligations and the assumptions
on the environment. -/
structure Guard (O St Env Call Other : Type) where
  calls : Call → St → Bool
  resumes : St → Bool
  may : Call → O → Env → St → Bool
  others : Other → St → Bool

section Run
variable {O : Type} {R : O → Type} {St Env Call Ret Other : Type}
variable (S : System O R St Env Call Ret Other) (G : Guard O St Env Call Other)

/-- User code is running. -/
def Cfg.AtUser (c : Cfg O R St Call Ret) : Prop :=
  match c.stack with
  | [] => True
  | (_, .user _) :: _ => True
  | _ => False

def atUser (c : Cfg O R St Call Ret) : Bool :=
  match c.stack with
  | [] => true
  | (_, .user _) :: _ => true
  | _ => false

theorem atUser_of {c : Cfg O R St Call Ret} (h : atUser c = true) : c.AtUser := by
  obtain ⟨s, stack⟩ := c
  match stack with
  | [] | (_, .user _) :: _ => trivial
  | (_, .ret _) :: _ | (_, .op _ _) :: _ | (_, .loop _ _ _) :: _ => cases h

/-- Other threads may run. -/
def openTo (c : Cfg O R St Call Ret) : Bool :=
  match c.stack with
  | [] => true
  | (_, .user _) :: _ => true
  | (_, .op o _) :: _ => S.yields o
  | _ => false

def step (l : Label Env Call Other) (c : Cfg O R St Call Ret) : Option (Cfg O R St Call Ret) :=
  match l, c.stack with
  | .call a, [] => if G.calls a c.st then some ⟨c.st, [(a, S.api a)]⟩ else none
  | .call a, (b, .user k) :: rest =>
    if G.calls a c.st then some ⟨c.st, (a, S.api a) :: (b, .user k) :: rest⟩ else none
  | .resume, (b, .user k) :: rest => if G.resumes c.st then some ⟨c.st, (b, k) :: rest⟩ else none
  | .exec e, (b, .op o k) :: rest =>
    if G.may b o e c.st then
      match S.exec o e c.st with
      | .ok (r, s) => some ⟨s, (b, k r) :: rest⟩
      | _ => none
    else none
  | .unfold, (b, .loop body i k) :: rest =>
    some ⟨c.st, (b, (body i).bind (Sum.elim (fun i' => .loop body i' k) k)) :: rest⟩
  | .finish, (_, .ret _) :: rest => some ⟨c.st, rest⟩
  | .other l, _ =>
    if openTo S c && G.others l c.st then (S.other l c.st).map (fun s => ⟨s, c.stack⟩) else none
  | _, _ => none

/-- The configuration after taking the given steps in order. -/
def run : List (Label Env Call Other) → Cfg O R St Call Ret → Option (Cfg O R St Call Ret)
  | [], c => some c
  | l :: ls, c => (step S G l c).bind (run ls)

/-- `c'` is reached from `c` by some run. -/
def Reaches (c c' : Cfg O R St Call Ret) : Prop := ∃ ls, run S G ls c = some c'

/-- The running call would perform an operation that is undefined. -/
def Faults (c : Cfg O R St Call Ret) : Prop :=
  match c.stack with
  | (b, .op o _) :: _ => ∃ e, G.may b o e c.st = true ∧ S.exec o e c.st = .fault
  | _ => False

variable {S G}

theorem Reaches.refl (c : Cfg O R St Call Ret) : Reaches S G c c := ⟨[], rfl⟩

theorem run_append (ls ls' : List (Label Env Call Other)) (c : Cfg O R St Call Ret) :
    run S G (ls ++ ls') c = (run S G ls c).bind (run S G ls') := by
  induction ls generalizing c with
  | nil => rfl
  | cons l ls ih =>
    simp only [List.cons_append, run]
    cases step S G l c with
    | none => rfl
    | some c' => exact ih c'

theorem Reaches.trans {a b c : Cfg O R St Call Ret} (h : Reaches S G a b) (h' : Reaches S G b c) :
    Reaches S G a c := by
  obtain ⟨ls, hl⟩ := h
  obtain ⟨ls', hl'⟩ := h'
  exact ⟨ls ++ ls', by rw [run_append, hl]; exact hl'⟩

/-- A property kept by every step is kept by every run. -/
theorem Reaches.keep {P : Cfg O R St Call Ret → Prop} {c c' : Cfg O R St Call Ret} (h : Reaches S G c c')
    (hs : ∀ l a b, P a → step S G l a = some b → P b) (h0 : P c) : P c' := by
  obtain ⟨ls, hl⟩ := h
  induction ls generalizing c with
  | nil =>
    simp only [run, Option.some.injEq] at hl
    exact hl ▸ h0
  | cons l ls ih =>
    simp only [run, Option.bind_eq_some_iff] at hl
    obtain ⟨b, hb, hr⟩ := hl
    exact ih (hs l c b h0 hb) hr

theorem Reaches.one {c c' : Cfg O R St Call Ret} (l : Label Env Call Other) (h : step S G l c = some c') :
    Reaches S G c c' :=
  ⟨[l], by simp [run, h]⟩

theorem step_call {a : Call} {c c' : Cfg O R St Call Ret} : step S G (.call a) c = some c' ↔
    c.AtUser ∧ G.calls a c.st = true ∧ c' = ⟨c.st, (a, S.api a) :: c.stack⟩ := by
  obtain ⟨s, stack⟩ := c
  match stack with
  | [] => simp [step, Cfg.AtUser, eq_comm (a := c')]
  | (b, .user k) :: rest => simp [step, Cfg.AtUser, eq_comm (a := c')]
  | (b, .ret _) :: rest => simp [step, Cfg.AtUser]
  | (b, .op _ _) :: rest => simp [step, Cfg.AtUser]
  | (b, .loop _ _ _) :: rest => simp [step, Cfg.AtUser]

/-- Only calls depend on what the guard says about calls. -/
theorem step_guard {G' : Guard O St Env Call Other} {l : Label Env Call Other} {c : Cfg O R St Call Ret}
    (hr : G'.resumes = G.resumes) (hm : G'.may = G.may) (ho : G'.others = G.others) (hl : ∀ a, l ≠ .call a) :
    step S G' l c = step S G l c := by
  obtain ⟨s, stack⟩ := c
  unfold step
  rw [hr, hm, ho]
  cases l with
  | call a => exact absurd rfl (hl a)
  | _ =>
    match stack with
    | [] | (_, .user _) :: _ | (_, .ret _) :: _ | (_, .op _ _) :: _ | (_, .loop _ _ _) :: _ => rfl

/-- The next step of the running call in environment `e`. -/
def stepCall (S : System O R St Env Call Ret Other) (G : Guard O St Env Call Other) (e : Env)
    (c : Cfg O R St Call Ret) : Option (Cfg O R St Call Ret) :=
  match c.stack with
  | (_, .op _ _) :: _ => step S G (.exec e) c
  | (_, .loop _ _ _) :: _ => step S G .unfold c
  | (_, .ret _) :: _ => step S G .finish c
  | _ => none

/-- Let the running call proceed for at most `n` steps, until user code runs. -/
def drive (S : System O R St Env Call Ret Other) (G : Guard O St Env Call Other) (e : Env) :
    Nat → Cfg O R St Call Ret → Cfg O R St Call Ret
  | 0, c => c
  | n + 1, c =>
    match stepCall S G e c with
    | some c' => drive S G e n c'
    | none => c

theorem reaches_drive (e : Env) (n : Nat) (c : Cfg O R St Call Ret) : Reaches S G c (drive S G e n c) := by
  induction n generalizing c with
  | zero => exact .refl c
  | succ n ih =>
    unfold drive
    split
    · rename_i c' h
      refine .trans ?_ (ih c')
      unfold stepCall at h
      split at h
      · exact .one _ h
      · exact .one _ h
      · exact .one _ h
      · cases h
    · exact .refl c

/-- User code makes a call and lets it run. -/
def enter (S : System O R St Env Call Ret Other) (G : Guard O St Env Call Other) (a : Call) (e : Env) (n : Nat)
    (c : Cfg O R St Call Ret) : Cfg O R St Call Ret :=
  match step S G (.call a) c with
  | some c' => drive S G e n c'
  | none => c

/-- User code returns from a callback and lets the call go on. -/
def back (S : System O R St Env Call Ret Other) (G : Guard O St Env Call Other) (e : Env) (n : Nat)
    (c : Cfg O R St Call Ret) : Cfg O R St Call Ret :=
  match step S G .resume c with
  | some c' => drive S G e n c'
  | none => c

theorem Reaches.enter {c c' : Cfg O R St Call Ret} (h : Reaches S G c c') (a : Call) (e : Env) (n : Nat) :
    Reaches S G c (Reentrant.enter S G a e n c') := by
  unfold Reentrant.enter
  split
  · rename_i hs
    exact h.trans ((Reaches.one _ hs).trans (reaches_drive e n _))
  · exact h

theorem Reaches.back {c c' : Cfg O R St Call Ret} (h : Reaches S G c c') (e : Env) (n : Nat) :
    Reaches S G c (Reentrant.back S G e n c') := by
  unfold Reentrant.back
  split
  · rename_i hs
    exact h.trans ((Reaches.one _ hs).trans (reaches_drive e n _))
  · exact h

/-- Another thread takes a step if it can. -/
def meanwhile (S : System O R St Env Call Ret Other) (G : Guard O St Env Call Other) (l : Other)
    (c : Cfg O R St Call Ret) : Cfg O R St Call Ret :=
  (step S G (.other l) c).getD c

theorem Reaches.meanwhile {c c' : Cfg O R St Call Ret} (h : Reaches S G c c') (l : Other) :
    Reaches S G c (Reentrant.meanwhile S G l c') := by
  unfold Reentrant.meanwhile
  cases hs : step S G (.other l) c' with
  | none => exact h
  | some c'' => exact h.trans (Reaches.one _ hs)

theorem Reaches.drive {c c' : Cfg O R St Call Ret} (h : Reaches S G c c') (e : Env) (n : Nat) :
    Reaches S G c (Reentrant.drive S G e n c') :=
  h.trans (reaches_drive e n c')

/-- A call's own steps, without user code: it performs operations and other
threads run, until it stands at `p`. -/
inductive Inside (S : System O R St Env Call Ret Other) (G : Guard O St Env Call Other) (b : Call)
    (rest : List (Call × Prog O R Ret)) : St → Prog O R Ret → St → Prog O R Ret → Prop
  | refl {s p} : Inside S G b rest s p s p
  | step {s p s' p' s'' p''} (l : Label Env Call Other) : Inside S G b rest s p s' p' →
      step S G l ⟨s', (b, p') :: rest⟩ = some ⟨s'', (b, p'') :: rest⟩ → Inside S G b rest s p s'' p''

theorem Inside.reaches {b : Call} {rest : List (Call × Prog O R Ret)} {s s' : St} {p p' : Prog O R Ret}
    (h : Inside S G b rest s p s' p') : Reaches S G ⟨s, (b, p) :: rest⟩ ⟨s', (b, p') :: rest⟩ := by
  induction h with
  | refl => exact .refl _
  | step l _ hs ih => exact ih.trans (.one l hs)

/-- The value a finished program returns. -/
def Prog.result? {α : Type} : Prog O R α → Option α
  | .ret a => some a
  | _ => none

theorem Prog.eq_ret {α : Type} {p : Prog O R α} {a : α} (h : p.result? = some a) : p = .ret a := by
  cases p <;> simp_all [Prog.result?]

/-- Let a call perform at most `n` steps of its own in environment `e`. -/
def driveInside (S : System O R St Env Call Ret Other) (G : Guard O St Env Call Other) (e : Env) (b : Call) :
    Nat → St → Prog O R Ret → St × Prog O R Ret
  | 0, s, p => (s, p)
  | n + 1, s, p =>
    match step S G (.exec e) ⟨s, [(b, p)]⟩ with
    | some ⟨s', [(_, p')]⟩ => driveInside S G e b n s' p'
    | _ =>
      match p with
      | .loop body i k => driveInside S G e b n s ((body i).bind (Sum.elim (fun i' => .loop body i' k) k))
      | _ => (s, p)

theorem step_exec_rest {e : Env} {b : Call} {s s' : St} {p : Prog O R Ret} {x : Call × Prog O R Ret}
    (h : step S G (.exec e) ⟨s, [(b, p)]⟩ = some ⟨s', [x]⟩) (rest : List (Call × Prog O R Ret)) :
    step S G (.exec e) ⟨s, (b, p) :: rest⟩ = some ⟨s', (b, x.2) :: rest⟩ := by
  cases p with
  | op o k =>
    simp only [step] at h ⊢
    split at h
    · rename_i hm
      rw [if_pos hm]
      split at h
      · rename_i r s'' hx
        simp only [Option.some.injEq, Cfg.mk.injEq, List.cons.injEq, and_true] at h
        obtain ⟨rfl, rfl⟩ := h
        rfl
      · cases h
    · cases h
  | _ => cases h

theorem inside_drive (e : Env) (b : Call) (rest : List (Call × Prog O R Ret)) (n : Nat) (s : St) (p : Prog O R Ret) :
    Inside S G b rest s p (driveInside S G e b n s p).1 (driveInside S G e b n s p).2 := by
  suffices h : ∀ s₀ p₀, Inside S G b rest s₀ p₀ s p →
      Inside S G b rest s₀ p₀ (driveInside S G e b n s p).1 (driveInside S G e b n s p).2 from h s p .refl
  intro s₀ p₀ h
  induction n generalizing s p with
  | zero => exact h
  | succ n ih =>
    unfold driveInside
    split
    · rename_i hs
      exact ih _ _ (.step _ h (step_exec_rest hs rest))
    · split
      · exact ih _ _ (.step .unfold h rfl)
      · exact h

theorem inside_ret {e : Env} {b : Call} {n : Nat} {s : St} {p : Prog O R Ret} {r : Ret}
    (h : (driveInside S G e b n s p).2.result? = some r) (rest : List (Call × Prog O R Ret)) :
    Inside S G b rest s p (driveInside S G e b n s p).1 (.ret r) :=
  Prog.eq_ret h ▸ inside_drive e b rest n s p

/-- The running call would fault in environment `e`. -/
def faultsAt (S : System O R St Env Call Ret Other) (G : Guard O St Env Call Other) (e : Env)
    (c : Cfg O R St Call Ret) : Bool :=
  match c.stack with
  | (b, .op o _) :: _ => G.may b o e c.st && (S.exec o e c.st matches .fault)
  | _ => false

theorem faults_of {e : Env} {c : Cfg O R St Call Ret} (h : faultsAt S G e c = true) : Faults S G c := by
  obtain ⟨s, stack⟩ := c
  match stack with
  | [] | (_, .user _) :: _ | (_, .ret _) :: _ | (_, .loop _ _ _) :: _ => cases h
  | (b, .op o k) :: rest =>
    simp only [faultsAt, Bool.and_eq_true] at h
    refine ⟨e, h.1, ?_⟩
    have h2 := h.2
    cases hx : S.exec o e s with
    | fault => rfl
    | ok _ => simp [hx] at h2
    | block => simp [hx] at h2

end Run

/-! ## Weakest preconditions -/

section Wp
variable {O : Type} {R : O → Type} {St Env Call Ret Other : Type}

/-- What a proof keeps track of along a run. -/
structure Logic (O St : Type) where
  /-- Holds after every operation. -/
  point : St → Prop
  /-- Holds when a call is about to perform an operation. -/
  before : O → St → Prop
  /-- Holds whenever user code runs. -/
  atUser : St → Prop
  /-- What user code preserves while it runs inside a callback. -/
  keeps : St → St → Prop
  /-- What other threads preserve. -/
  rely : St → St → Prop

variable (S : System O R St Env Call Ret Other) (G : Guard O St Env Call Other) (L : Logic O St)

/-- Run on behalf of call `b` from a state satisfying this, a program only
passes through states satisfying `L` and ends in a state satisfying `Q`. Loops
are given an invariant `J`. -/
def wp (b : Call) {α : Type} : Prog O R α → (α → St → Prop) → St → Prop
  | .ret a, Q, s => Q a s
  | .op o k, Q, s => ∀ s₁, (S.yields o = true → L.rely s s₁) → (S.yields o = false → s₁ = s) →
      L.before o s₁ ∧ ∀ e, G.may b o e s₁ = true →
        match S.exec o e s₁ with
        | .ok (r, s₂) => L.point s₂ ∧ wp b (k r) Q s₂
        | .block => True
        | .fault => False
  | .user k, Q, s => L.atUser s ∧
      ∀ s', L.keeps s s' → L.atUser s' → G.resumes s' = true → wp b k Q s'
  | .loop body i k, Q, s => ∃ J : _ → St → Prop, J i s ∧
      ∀ i s, J i s → wp b (body i) (fun x s' => x.elim (fun i' => J i' s') (fun r => wp b (k r) Q s')) s

variable {S G L}

theorem wp_mono {b : Call} {α : Type} {p : Prog O R α} {Q Q' : α → St → Prop} {s : St}
    (h : wp S G L b p Q s) (hq : ∀ a s, Q a s → Q' a s) : wp S G L b p Q' s := by
  induction p generalizing s with
  | ret a => exact hq a s h
  | op o k ih =>
    intro s₁ hy hn
    obtain ⟨hb, he⟩ := h s₁ hy hn
    refine ⟨hb, fun e hm => ?_⟩
    have := he e hm
    revert this
    split
    · rintro ⟨hp, hw⟩; exact ⟨hp, ih _ hw hq⟩
    · exact id
    · exact id
  | user k ih => exact ⟨h.1, fun s' hk hu hr => ih (h.2 s' hk hu hr) hq⟩
  | loop body i k ihb ihk =>
    obtain ⟨J, hJ, hb⟩ := h
    refine ⟨J, hJ, fun i s hi => ihb i (hb i s hi) ?_⟩
    rintro (i' | r) s' hx
    · exact hx
    · exact ihk r hx hq

theorem wp_bind {b : Call} {α β : Type} {p : Prog O R α} {f : α → Prog O R β} {Q : β → St → Prop} {s : St} :
    wp S G L b (p.bind f) Q s ↔ wp S G L b p (fun a s => wp S G L b (f a) Q s) s := by
  induction p generalizing s with
  | ret a => exact Iff.rfl
  | op o k ih =>
    simp only [Prog.bind, wp]
    constructor <;> intro h s₁ hy hn <;> obtain ⟨hb, he⟩ := h s₁ hy hn <;>
      refine ⟨hb, fun e hm => ?_⟩ <;> have := he e hm <;> revert this <;> split
    · rintro ⟨hp, hw⟩; exact ⟨hp, (ih _).1 hw⟩
    · exact id
    · exact id
    · rintro ⟨hp, hw⟩; exact ⟨hp, (ih _).2 hw⟩
    · exact id
    · exact id
  | user k ih =>
    exact ⟨fun h => ⟨h.1, fun s' hk hu hr => ih.1 (h.2 s' hk hu hr)⟩,
      fun h => ⟨h.1, fun s' hk hu hr => ih.2 (h.2 s' hk hu hr)⟩⟩
  | loop body i k ihb ihk =>
    constructor
    · rintro ⟨J, hJ, hb⟩
      refine ⟨J, hJ, fun i s hi => wp_mono (hb i s hi) ?_⟩
      rintro (i' | r) s' hx
      · exact hx
      · exact (ihk r).1 hx
    · rintro ⟨J, hJ, hb⟩
      refine ⟨J, hJ, fun i s hi => wp_mono (hb i s hi) ?_⟩
      rintro (i' | r) s' hx
      · exact hx
      · exact (ihk r).2 hx

/-- Sequencing, as `do` blocks produce it. -/
theorem wp.seq {b : Call} {α β : Type} {p : Prog O R α} {f : α → Prog O R β} {Q : β → St → Prop} {s : St}
    (h : wp S G L b p (fun a s => wp S G L b (f a) Q s) s) : wp S G L b (p >>= f) Q s :=
  wp_bind.2 h

theorem wp_pure {b : Call} {α : Type} {a : α} {Q : α → St → Prop} {s : St} (h : Q a s) :
    wp S G L b (pure a) Q s := h

/-- An operation that does not yield. -/
theorem wp_act {b : Call} {o : O} {Q : R o → St → Prop} {s : St} (hy : S.yields o = false)
    (hb : L.before o s)
    (h : ∀ e, G.may b o e s = true → ∃ r s', S.exec o e s = .ok (r, s') ∧ L.point s' ∧ Q r s') :
    wp S G L b (Prog.act o) Q s := by
  intro s₁ _ hs
  obtain rfl := hs hy
  refine ⟨hb, fun e hm => ?_⟩
  obtain ⟨r, s', he, hp, hq⟩ := h e hm
  rw [he]
  exact ⟨hp, hq⟩

/-- A yielding operation: other threads have run, and it may have to wait. -/
theorem wp_act_yield {b : Call} {o : O} {Q : R o → St → Prop} {s : St} (hy : S.yields o = true)
    (h : ∀ s₁, L.rely s s₁ → L.before o s₁ ∧ ∀ e, G.may b o e s₁ = true → S.exec o e s₁ = .block ∨
      ∃ r s', S.exec o e s₁ = .ok (r, s') ∧ L.point s' ∧ Q r s') :
    wp S G L b (Prog.act o) Q s := by
  intro s₁ hr _
  obtain ⟨hb, he⟩ := h s₁ (hr hy)
  refine ⟨hb, fun e hm => ?_⟩
  rcases he e hm with hx | ⟨r, s', hx, hp, hq⟩
  · rw [hx]; trivial
  · rw [hx]; exact ⟨hp, hq⟩

theorem wp_callback {b : Call} {Q : Unit → St → Prop} {s : St} (hu : L.atUser s)
    (h : ∀ s', L.keeps s s' → L.atUser s' → G.resumes s' = true → Q () s') :
    wp S G L b Prog.callback Q s :=
  ⟨hu, h⟩

/-- The loop rule: `J` holds on entry and every round keeps it or ends in `Q`. -/
theorem wp_iterate {b : Call} {σ β : Type} {i : σ} {body : σ → Prog O R (σ ⊕ β)} {Q : β → St → Prop} {s : St}
    (J : σ → St → Prop) (h0 : J i s)
    (h : ∀ i s, J i s → wp S G L b (body i) (fun x s' => x.elim (fun i' => J i' s') (fun r => Q r s')) s) :
    wp S G L b (Prog.iterate i body) Q s :=
  ⟨J, h0, h⟩

/-- Entering the next round of a loop keeps its precondition. -/
theorem wp_unfold {b : Call} {σ β α : Type} {body : σ → Prog O R (σ ⊕ β)} {i : σ} {k : β → Prog O R α}
    {Q : α → St → Prop} {s : St} (h : wp S G L b (.loop body i k) Q s) :
    wp S G L b ((body i).bind (Sum.elim (fun i' => .loop body i' k) k)) Q s := by
  obtain ⟨J, hJ, hb⟩ := h
  refine wp_bind.2 (wp_mono (hb i s hJ) ?_)
  rintro (i' | r) s' hx
  · exact ⟨J, hx, hb⟩
  · exact hx

/-! ## Every run meets the preconditions -/

variable (S G L)

/-- Every call meets its precondition, and other threads keep what is relied on. -/
structure Sound : Prop where
  call : ∀ b s, L.point s → L.atUser s → G.calls b s = true →
    wp S G L b (S.api b) (fun _ s' => L.atUser s' ∧ L.keeps s s') s
  other : ∀ l s s', L.point s → G.others l s = true → S.other l s = some s' → L.rely s s'
  rely_point : ∀ s s', L.point s → L.rely s s' → L.point s'
  rely_user : ∀ s s', L.point s → L.atUser s → L.rely s s' → L.atUser s' ∧ L.keeps s s'
  rely_refl : ∀ s, L.rely s s
  rely_trans : ∀ {a b c}, L.rely a b → L.rely b c → L.rely a c
  keeps_refl : ∀ s, L.keeps s s
  keeps_trans : ∀ {a b c}, L.keeps a b → L.keeps b c → L.keeps a c

/-- Other threads and time spent in user code take nothing from what is kept track of. -/
structure Steady : Prop where
  other : ∀ l s s', L.point s → G.others l s = true → S.other l s = some s' → L.rely s s'
  rely_point : ∀ s s', L.point s → L.rely s s' → L.point s'
  rely_user : ∀ s s', L.point s → L.atUser s → L.rely s s' → L.atUser s' ∧ L.keeps s s'
  rely_refl : ∀ s, L.rely s s
  rely_trans : ∀ {a b c}, L.rely a b → L.rely b c → L.rely a c
  keeps_refl : ∀ s, L.keeps s s
  keeps_trans : ∀ {a b c}, L.keeps a b → L.keeps b c → L.keeps a c

variable {S G L}

theorem Sound.steady (hS : Sound S G L) : Steady S G L :=
  ⟨hS.other, hS.rely_point, hS.rely_user, hS.rely_refl, hS.rely_trans, hS.keeps_refl, hS.keeps_trans⟩

/-- A call waiting for user code to return can wait longer. -/
theorem Steady.wait (hS : Steady S G L) {b : Call} {α : Type} {k : Prog O R α} {Q : α → St → Prop} {s s' : St}
    (h : wp S G L b (.user k) Q s) (hu : L.atUser s') (hk : L.keeps s s') : wp S G L b (.user k) Q s' :=
  ⟨hu, fun s'' hk' => h.2 s'' (hS.keeps_trans hk hk')⟩

theorem Steady.exec_ok (hS : Steady S G L) {b : Call} {α : Type} {o : O} {k : R o → Prog O R α} {Q : α → St → Prop}
    {s : St} (h : wp S G L b (.op o k) Q s) {e : Env} {r : R o} {s' : St} (hm : G.may b o e s = true)
    (he : S.exec o e s = .ok (r, s')) : L.point s' ∧ wp S G L b (k r) Q s' := by
  have := (h s (fun _ => hS.rely_refl s) (fun _ => rfl)).2 e hm
  rw [he] at this
  exact this

/-- Steps of other threads keep the precondition of a call open to them. -/
theorem Steady.other_wp (hS : Steady S G L) {b : Call} {p : Prog O R Ret} {rest : List (Call × Prog O R Ret)}
    {Q : Ret → St → Prop} {s s' : St} (hp : L.point s) (h : wp S G L b p Q s)
    (ho : openTo S ⟨s, (b, p) :: rest⟩ = true) (hr : L.rely s s') : wp S G L b p Q s' := by
  match p with
  | .user k =>
    obtain ⟨hu, hk⟩ := hS.rely_user s s' hp h.1 hr
    exact hS.wait h hu hk
  | .op o k =>
    intro s₁ hy hn
    have ho' : S.yields o = true := ho
    exact h s₁ (fun h => hS.rely_trans hr (hy h)) (fun h => by simp [ho'] at h)
  | .ret a => simp [openTo] at ho
  | .loop body i k => simp [openTo] at ho

variable (S G L)

/-- The running call meets its precondition, and when it returns, so does the
call it was made from. The run started in `s₀`. -/
def StackOk (s₀ : St) : List (Call × Prog O R Ret) → St → Prop
  | [], s => L.atUser s ∧ L.keeps s₀ s
  | (b, p) :: rest, s => wp S G L b p (fun _ s' => StackOk s₀ rest s') s

def CfgOk (s₀ : St) (c : Cfg O R St Call Ret) : Prop := L.point c.st ∧ StackOk S G L s₀ c.stack c.st

variable {S G L}

theorem Sound.call_ok (hS : Sound S G L) {b : Call} {rest : List (Call × Prog O R Ret)} {s₀ s : St}
    (hp : L.point s) (hu : L.atUser s) (hc : G.calls b s = true)
    (hr : ∀ s', L.atUser s' → L.keeps s s' → StackOk S G L s₀ rest s') :
    StackOk S G L s₀ ((b, S.api b) :: rest) s :=
  wp_mono (hS.call b s hp hu hc) (fun _ s' h => hr s' h.1 h.2)

theorem Sound.other_ok (hS : Sound S G L) {s₀ : St} {c : Cfg O R St Call Ret} (h : CfgOk S G L s₀ c)
    (ho : openTo S c = true) {s' : St} (hr : L.rely c.st s') : CfgOk S G L s₀ ⟨s', c.stack⟩ := by
  obtain ⟨hp, hs⟩ := h
  refine ⟨hS.rely_point _ _ hp hr, ?_⟩
  obtain ⟨s, stack⟩ := c
  match stack with
  | [] =>
    obtain ⟨hu, hk⟩ := hS.rely_user s s' hp hs.1 hr
    exact ⟨hu, hS.keeps_trans hs.2 hk⟩
  | (b, p) :: rest => exact hS.steady.other_wp hp hs ho hr

/-- What each kind of step can do. -/
theorem step_cases {l : Label Env Call Other} {c c' : Cfg O R St Call Ret} (h : step S G l c = some c') :
    (∃ b, G.calls b c.st = true ∧ c.AtUser ∧ c' = ⟨c.st, (b, S.api b) :: c.stack⟩) ∨
    (∃ b k rest, c.stack = (b, .user k) :: rest ∧ G.resumes c.st = true ∧ c' = ⟨c.st, (b, k) :: rest⟩) ∨
    (∃ e b o k rest r s, c.stack = (b, .op o k) :: rest ∧ G.may b o e c.st = true ∧
      S.exec o e c.st = .ok (r, s) ∧ c' = ⟨s, (b, k r) :: rest⟩) ∨
    (∃ b, ∃ σ β : Type, ∃ (body : σ → Prog O R (σ ⊕ β)) (i : σ) (k : β → Prog O R Ret), ∃ rest,
      c.stack = (b, .loop body i k) :: rest ∧
      c' = ⟨c.st, (b, (body i).bind (Sum.elim (fun i' => .loop body i' k) k)) :: rest⟩) ∨
    (∃ b r rest, c.stack = (b, .ret r) :: rest ∧ c' = ⟨c.st, rest⟩) ∨
    (∃ o s, openTo S c = true ∧ G.others o c.st = true ∧ S.other o c.st = some s ∧ c' = ⟨s, c.stack⟩) := by
  obtain ⟨s, stack⟩ := c
  unfold step at h
  split at h
  · rename_i a hst
    simp only at hst; subst hst
    split at h
    · rename_i hc; cases h; exact .inl ⟨a, hc, trivial, rfl⟩
    · cases h
  · rename_i a b k rest hst
    simp only at hst; subst hst
    split at h
    · rename_i hc; cases h; exact .inl ⟨a, hc, trivial, rfl⟩
    · cases h
  · rename_i b k rest hst
    simp only at hst; subst hst
    split at h
    · rename_i hc; cases h; exact .inr (.inl ⟨b, k, rest, rfl, hc, rfl⟩)
    · cases h
  · rename_i e b o k rest hst
    simp only at hst; subst hst
    split at h
    · rename_i hm
      split at h
      · rename_i r s' he; cases h
        exact .inr (.inr (.inl ⟨e, b, o, k, rest, r, s', rfl, hm, he, rfl⟩))
      · cases h
    · cases h
  · rename_i b σ β body i k rest hst
    simp only at hst; subst hst
    cases h
    exact .inr (.inr (.inr (.inl ⟨b, σ, β, body, i, k, rest, rfl, rfl⟩)))
  · rename_i b r rest hst
    simp only at hst; subst hst
    cases h
    exact .inr (.inr (.inr (.inr (.inl ⟨b, r, rest, rfl, rfl⟩))))
  · rename_i o
    split at h
    · rename_i hg
      simp only [Bool.and_eq_true] at hg
      simp only [Option.map_eq_some_iff] at h
      obtain ⟨s', hs', rfl⟩ := h
      exact .inr (.inr (.inr (.inr (.inr ⟨o, s', hg.1, hg.2, hs', rfl⟩))))
    · cases h
  · cases h

/-- A property of the state kept by every operation and by other threads. -/
theorem Reaches.keep_st {P : St → Prop} {c c' : Cfg O R St Call Ret} (h : Reaches S G c c')
    (he : ∀ o e s r s', P s → S.exec o e s = .ok (r, s') → P s')
    (ho : ∀ l s s', P s → S.other l s = some s' → P s') (h0 : P c.st) : P c'.st := by
  refine h.keep (P := fun c => P c.st) (fun l a b ha hs => ?_) h0
  obtain ⟨b, -, -, rfl⟩ | ⟨b, k, rest, -, -, rfl⟩ | ⟨e, b, o, k, rest, r, s, -, -, hx, rfl⟩ |
    ⟨b, σ, β, body, i, k, rest, -, rfl⟩ | ⟨b, r, rest, -, rfl⟩ | ⟨o, s, -, -, hx, rfl⟩ := step_cases hs
  · exact ha
  · exact ha
  · exact he _ _ _ _ _ ha hx
  · exact ha
  · exact ha
  · exact ho _ _ _ ha hx

theorem StackOk.atUser {s₀ : St} {c : Cfg O R St Call Ret} (h : StackOk S G L s₀ c.stack c.st) (hu : c.AtUser) :
    L.atUser c.st := by
  obtain ⟨s, stack⟩ := c
  match stack, h, hu with
  | [], h, _ => exact h.1
  | (_, .user _) :: _, h, _ => exact h.1

theorem Sound.step_ok (hS : Sound S G L) {s₀ : St} (l : Label Env Call Other) (c c' : Cfg O R St Call Ret)
    (h : CfgOk S G L s₀ c) (hs : step S G l c = some c') : CfgOk S G L s₀ c' := by
  obtain ⟨b, hc, hu, rfl⟩ | ⟨b, k, rest, hst, hr, rfl⟩ | ⟨e, b, o, k, rest, r, s, hst, hm, he, rfl⟩ |
    ⟨b, σ, β, body, i, k, rest, hst, rfl⟩ | ⟨b, r, rest, hst, rfl⟩ | ⟨o, s, ho, hg, hs', rfl⟩ := step_cases hs
  · refine ⟨h.1, hS.call_ok h.1 (h.2.atUser hu) hc (fun s' hu' hk => ?_)⟩
    obtain ⟨s, stack⟩ := c
    match stack, h, hu with
    | [], h, _ => exact ⟨hu', hS.keeps_trans h.2.2 hk⟩
    | (_, .user _) :: _, h, _ => exact hS.steady.wait h.2 hu' hk
  · obtain ⟨hp, hok⟩ := h
    rw [hst] at hok
    exact ⟨hp, hok.2 c.st (hS.keeps_refl _) hok.1 hr⟩
  · obtain ⟨-, hok⟩ := h
    rw [hst] at hok
    exact hS.steady.exec_ok hok hm he
  · obtain ⟨hp, hok⟩ := h
    rw [hst] at hok
    exact ⟨hp, wp_unfold hok⟩
  · obtain ⟨hp, hok⟩ := h
    rw [hst] at hok
    exact ⟨hp, hok⟩
  · exact hS.other_ok h ho (hS.other o c.st s h.1 hg hs')

/-- Every configuration of every run from a good one is good. -/
theorem Sound.reaches (hS : Sound S G L) {s₀ : St} {c c' : Cfg O R St Call Ret} (h : CfgOk S G L s₀ c)
    (hr : Reaches S G c c') : CfgOk S G L s₀ c' :=
  hr.keep hS.step_ok h

/-- A good configuration about to perform an operation meets its precondition
and does not fault. -/
theorem Sound.before (hS : Sound S G L) {s₀ s : St} {b : Call} {o : O} {k : R o → Prog O R Ret}
    {rest : List (Call × Prog O R Ret)} (h : CfgOk S G L s₀ ⟨s, (b, .op o k) :: rest⟩) : L.before o s :=
  (h.2 s (fun _ => hS.rely_refl s) (fun _ => rfl)).1

theorem Sound.no_fault (hS : Sound S G L) {s₀ : St} {c : Cfg O R St Call Ret} (h : CfgOk S G L s₀ c) :
    ¬ Faults S G c := by
  obtain ⟨s, stack⟩ := c
  match stack, h with
  | [], _ => exact id
  | (_, .ret _) :: _, _ => exact id
  | (_, .user _) :: _, _ => exact id
  | (_, .loop _ _ _) :: _, _ => exact id
  | (b, .op o k) :: rest, h =>
    rintro ⟨e, hm, he⟩
    have := (h.2 s (fun _ => hS.rely_refl s) (fun _ => rfl)).2 e hm
    rw [he] at this
    exact this

/-- A call that does not run user code ends as its precondition says. -/
theorem Sound.inside (hS : Sound S G L) {b : Call} {rest : List (Call × Prog O R Ret)} {s s' : St}
    {p p' : Prog O R Ret} {Q : Ret → St → Prop} (hi : Inside S G b rest s p s' p') (hp : L.point s)
    (h : wp S G L b p Q s) : L.point s' ∧ wp S G L b p' Q s' := by
  induction hi with
  | refl => exact ⟨hp, h⟩
  | @step s₁ p₁ s₂ p₂ l _ hst ih =>
    obtain ⟨hp₁, h₁⟩ := ih
    obtain ⟨a, -, -, hc⟩ | ⟨b', k, r, hs, hr, hc⟩ | ⟨e, b', o, k, r, x, s, hs, hm, he, hc⟩ |
      ⟨b', σ, β, body, i, k, r, hs, hc⟩ | ⟨b', x, r, hs, hc⟩ | ⟨o, s, ho, hg, hs', hc⟩ := step_cases hst
    · simp only [Cfg.mk.injEq, List.cons.injEq] at hc
      exact absurd (congrArg List.length hc.2.2) (by simp)
    · cases hs; cases hc
      exact ⟨hp₁, h₁.2 _ (hS.keeps_refl _) h₁.1 hr⟩
    · cases hs; cases hc
      exact hS.steady.exec_ok h₁ hm he
    · cases hs; cases hc
      exact ⟨hp₁, wp_unfold h₁⟩
    · simp only [List.cons.injEq] at hs
      simp only [Cfg.mk.injEq] at hc
      rw [← hs.2] at hc
      exact absurd (congrArg List.length hc.2) (by simp)
    · cases hc
      have hr := hS.other o _ _ hp₁ hg hs'
      exact ⟨hS.rely_point _ _ hp₁ hr, hS.steady.other_wp hp₁ h₁ ho hr⟩

/-- A call's own steps do not depend on what the guard says about calls. -/
theorem Inside.guard {G' : Guard O St Env Call Other} {b : Call} {rest : List (Call × Prog O R Ret)} {s s' : St}
    {p p' : Prog O R Ret} (hr : G'.resumes = G.resumes) (hm : G'.may = G.may) (ho : G'.others = G.others)
    (h : Inside S G b rest s p s' p') : Inside S G' b rest s p s' p' := by
  induction h with
  | refl => exact .refl
  | step l _ hst ih =>
    refine .step l ih ?_
    rw [step_guard hr hm ho, hst]
    rintro a rfl
    obtain ⟨-, -, hc⟩ := step_call.1 hst
    simp only [Cfg.mk.injEq, List.cons.injEq] at hc
    exact absurd (congrArg List.length hc.2.2) (by simp)

end Wp

end Reentrant
