import Mathlib.Tactic.Common
/-!
# Waiting for a flag

One thread waits for a flag with a mutex and a condition variable; another
locks the mutex, sets the flag, signals and unlocks. A waiter may also wake
without a signal. `done` is the flag, which the program keeps.

`Sound`: the mutex is with who is between `lock` and `unlock`; who got past the
wait finds the other one past its `unlock`; and a waiter that sleeps without a
signal will get one.
-/

namespace Handshakes

inductive Party where
  | waiter
  | poster
  deriving DecidableEq, Repr

inductive Waiter where
  | lock
  /-- `while (!done)`, with the mutex. -/
  | check
  | asleep (signalled : Bool)
  | unlock
  | past
  deriving DecidableEq, Repr

inductive Poster where
  | lock
  | set
  | signal
  | unlock
  | past
  deriving DecidableEq, Repr

structure Handshake where
  waiter : Waiter
  poster : Poster
  mutex : Option Party
  deriving DecidableEq, Repr

/-- Before both. -/
def Handshake.fresh : Handshake := ⟨.lock, .lock, none⟩

/-- The waiter has locked the mutex before the other one can. -/
def Handshake.entered : Handshake := ⟨.check, .lock, some .waiter⟩

/-- The next step of the waiter. `pthread_cond_wait` and its like give the mutex back while they sleep. -/
def Handshake.waiterStep (done : Bool) (h : Handshake) : Option Handshake :=
  match h.waiter with
  | .lock => if h.mutex = none then some { h with waiter := .check, mutex := some .waiter } else none
  | .check => if done then some { h with waiter := .unlock } else some { h with waiter := .asleep false, mutex := none }
  | .asleep _ => some { h with waiter := .lock }
  | .unlock => some { h with waiter := .past, mutex := none }
  | .past => none

/-- Who sleeps is woken. -/
def Waiter.signal : Waiter → Waiter
  | .asleep _ => .asleep true
  | w => w

/-- The next step of the poster; the flag is set by the step from `set`. -/
def Handshake.posterStep (h : Handshake) : Option Handshake :=
  match h.poster with
  | .lock => if h.mutex = none then some { h with poster := .set, mutex := some .poster } else none
  | .set => some { h with poster := .signal }
  | .signal => some { h with waiter := h.waiter.signal, poster := .unlock }
  | .unlock => some { h with poster := .past, mutex := none }
  | .past => none

/-- Between `lock` and `unlock`. -/
def Waiter.inside : Waiter → Bool
  | .check | .unlock => true
  | _ => false

def Poster.inside : Poster → Bool
  | .set | .signal | .unlock => true
  | _ => false

/-- The flag is set. -/
def Poster.posted : Poster → Bool
  | .signal | .unlock | .past => true
  | _ => false

structure Sound (done : Bool) (h : Handshake) : Prop where
  waiter : h.mutex = some .waiter ↔ h.waiter.inside = true
  poster : h.mutex = some .poster ↔ h.poster.inside = true
  flag : done = h.poster.posted
  after : h.waiter = .unlock ∨ h.waiter = .past → h.poster = .past
  heard : h.waiter = .asleep false → h.poster = .lock ∨ h.poster = .set ∨ h.poster = .signal

variable {h h' : Handshake} {done : Bool}

theorem sound_fresh : Sound false .fresh := by
  constructor <;> simp [Handshake.fresh, Waiter.inside, Poster.inside, Poster.posted]

theorem sound_entered : Sound false .entered := by
  constructor <;> simp [Handshake.entered, Waiter.inside, Poster.inside, Poster.posted]

/-- A step of the waiter leaves the poster where it is. -/
theorem Handshake.waiterStep_poster (hs : h.waiterStep done = some h') : h'.poster = h.poster := by
  unfold Handshake.waiterStep at hs
  split at hs
  · split at hs
    · cases hs
      rfl
    · cases hs
  · split at hs <;> cases hs <;> rfl
  all_goals cases hs
  all_goals rfl

theorem Sound.waiterStep (hi : Sound done h) (hs : h.waiterStep done = some h') : Sound done h' := by
  obtain ⟨hw, hp, hflag, hafter, hheard⟩ := hi
  have hposter := Handshake.waiterStep_poster hs
  obtain ⟨waiter, poster, mutex⟩ := h
  cases waiter with
  | lock =>
    simp only [Handshake.waiterStep] at hs
    split at hs
    · next hfree =>
      cases hs
      subst hfree
      constructor <;> simp_all [Waiter.inside]
    · cases hs
  | check =>
    simp only [Handshake.waiterStep] at hs
    split at hs
    · next hdone =>
      cases hs
      -- the poster is not inside, and has set the flag
      constructor <;> cases poster <;> simp_all [Waiter.inside, Poster.inside, Poster.posted]
    · cases hs
      constructor <;> cases poster <;> simp_all [Waiter.inside, Poster.inside, Poster.posted]
  | asleep signalled =>
    cases hs
    constructor <;> simp_all [Waiter.inside]
  | unlock =>
    cases hs
    constructor <;> simp_all [Waiter.inside, Poster.inside]
  | past => cases hs

/-- Nobody gets past the wait before the poster is done. -/
theorem Sound.not_past (hi : Sound done h) (hs : h.waiterStep done = some h')
    (hne : h.poster ≠ .past) : h'.waiter ≠ .past := by
  intro hpast
  apply hne
  rw [← Handshake.waiterStep_poster hs]
  exact (hi.waiterStep hs).after (.inr hpast)

/-- What the poster does next. -/
theorem Handshake.posterStep_cases (hs : h.posterStep = some h') :
    h.poster = .lock ∧ h'.poster = .set ∨ h.poster = .set ∧ h'.poster = .signal ∨ h.poster = .signal ∧ h'.poster = .unlock ∨
      h.poster = .unlock ∧ h'.poster = .past := by
  obtain ⟨waiter, poster, mutex⟩ := h
  cases poster with
  | lock =>
    simp only [Handshake.posterStep] at hs
    split at hs
    · cases hs
      exact .inl ⟨rfl, rfl⟩
    · cases hs
  | set =>
    cases hs
    exact .inr (.inl ⟨rfl, rfl⟩)
  | signal =>
    cases hs
    exact .inr (.inr (.inl ⟨rfl, rfl⟩))
  | unlock =>
    cases hs
    exact .inr (.inr (.inr ⟨rfl, rfl⟩))
  | past => cases hs

/-- The poster goes on; the step from `set` sets the flag. -/
theorem Sound.posterStep (hi : Sound done h) (hs : h.posterStep = some h') :
    Sound (if h.poster = .set then true else done) h' := by
  obtain ⟨hw, hp, hflag, hafter, hheard⟩ := hi
  obtain ⟨waiter, poster, mutex⟩ := h
  cases poster with
  | lock =>
    simp only [Handshake.posterStep] at hs
    split at hs
    · next hfree =>
      cases hs
      subst hfree
      constructor <;> simp_all [Poster.inside, Poster.posted]
    · cases hs
  | set =>
    cases hs
    constructor <;> simp_all [Poster.inside, Poster.posted]
  | signal =>
    cases hs
    constructor <;> cases waiter <;> simp_all [Waiter.signal, Waiter.inside, Poster.inside, Poster.posted]
  | unlock =>
    cases hs
    constructor <;> cases waiter <;> simp_all [Waiter.inside, Poster.inside, Poster.posted]
  | past => cases hs

/-! ## As long as it waits -/

/-- `Sound`, and the waiter is not done. -/
structure Waits (done : Bool) (h : Handshake) : Prop extends Sound done h where
  waiting : h.waiter ≠ .past

theorem waits_fresh : Waits false .fresh := ⟨sound_fresh, by decide⟩

theorem waits_entered : Waits false .entered := ⟨sound_entered, by decide⟩

theorem Waits.waiterStep (hi : Waits done h) (hs : h.waiterStep done = some h')
    (hwait : h'.waiter ≠ .past) : Waits done h' :=
  ⟨hi.toSound.waiterStep hs, hwait⟩

/-- The poster does not let the waiter out. -/
theorem Handshake.posterStep_waiter (hs : h.posterStep = some h') (hwait : h.waiter ≠ .past) : h'.waiter ≠ .past := by
  obtain ⟨waiter, poster, mutex⟩ := h
  cases poster with
  | lock =>
    simp only [Handshake.posterStep] at hs
    split at hs
    · cases hs
      exact hwait
    · cases hs
  | set | unlock =>
    cases hs
    exact hwait
  | signal =>
    cases hs
    cases waiter <;> simp_all [Waiter.signal]
  | past => cases hs

theorem Waits.posterStep (hi : Waits done h) (hs : h.posterStep = some h') :
    Waits (if h.poster = .set then true else done) h' :=
  ⟨hi.toSound.posterStep hs, Handshake.posterStep_waiter hs hi.waiting⟩

/-- A poster that can go on is not done. -/
theorem Handshake.poster_ne (hs : h.posterStep.isSome = true) : h.poster ≠ .past := by
  intro hlast
  rw [Handshake.posterStep, hlast] at hs
  cases hs

/-- Whoever waits is not kept from it: the waiter goes on without waking by chance, or the poster does. -/
theorem Waits.live (hi : Waits done h) :
    (h.waiter ≠ .asleep false ∧ (h.waiterStep done).isSome = true) ∨ h.posterStep.isSome = true := by
  obtain ⟨⟨hw, hp, hflag, hafter, hheard⟩, hwait⟩ := hi
  obtain ⟨waiter, poster, mutex⟩ := h
  cases waiter with
  | lock =>
    -- the mutex is free, or the poster has it
    cases mutex with
    | none => exact .inl ⟨by simp, by simp [Handshake.waiterStep]⟩
    | some party =>
      cases party with
      | waiter => simp [Waiter.inside] at hw
      | poster =>
        refine .inr ?_
        cases poster <;> simp_all [Poster.inside, Handshake.posterStep]
  | check =>
    refine .inl ⟨by simp, ?_⟩
    cases done <;> simp [Handshake.waiterStep]
  | asleep signalled =>
    cases signalled with
    | true => exact .inl ⟨by simp, by simp [Handshake.waiterStep]⟩
    | false =>
      refine .inr ?_
      cases mutex with
      | none => rcases hheard rfl with rfl | rfl | rfl <;> simp [Handshake.posterStep]
      | some party =>
        rcases hheard rfl with rfl | rfl | rfl <;> cases party <;> simp_all [Waiter.inside,
          Poster.inside, Handshake.posterStep]
  | unlock => exact .inl ⟨by simp, by simp [Handshake.waiterStep]⟩
  | past => exact absurd rfl hwait

/-! ## How long it takes -/

/-- What the waiter still does, if the flag is set. A sleeper that is woken does the most. -/
def Waiter.left : Waiter → Nat
  | .asleep true => 4
  | .lock => 3
  | .check => 2
  | .asleep false | .unlock => 1
  | .past => 0

/-- What the poster still does; its signal may wake the waiter. -/
def Poster.left : Poster → Nat
  | .lock => 7
  | .set => 6
  | .signal => 5
  | .unlock => 1
  | .past => 0

def Handshake.left (h : Handshake) : Nat := h.waiter.left + h.poster.left

theorem Handshake.left_le (h : Handshake) : h.left ≤ 11 := by
  obtain ⟨waiter, poster, mutex⟩ := h
  have hw : waiter.left ≤ 4 := by rcases waiter with _ | _ | ⟨_ | _⟩ | _ | _ <;> decide
  have hp : poster.left ≤ 7 := by cases poster <;> decide
  exact Nat.add_le_add hw hp

end Handshakes
