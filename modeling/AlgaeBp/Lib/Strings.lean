import Mathlib.Data.List.Basic
import Mathlib.Tactic.Common
/-!
# Strings that end with a NUL

An object is the list of its bytes from some address on. What looks for a `NUL`
in it answers `none` if the object ends before one comes. `string` is what a
`char *` that points there says.
-/

namespace Strings

/-- The bytes of a string, without the `NUL`. -/
structure Str where
  bytes : List UInt8
  nonzero : 0 ∉ bytes

/-- The object that holds just this string. -/
def Str.object (s : Str) : List UInt8 := s.bytes ++ [0]

def strlen : List UInt8 → Option Nat
  | [] => none
  | b :: bs => if b = 0 then some 0 else (strlen bs).map (· + 1)

/-- Whether `strncmp(p, q, n)` is 0. -/
def strncmp : List UInt8 → List UInt8 → Nat → Option Bool
  | _, _, 0 => some true
  | a :: p, b :: q, n + 1 =>
    if a ≠ b then some false else if a = 0 then some true else strncmp p q n
  | _, _, _ + 1 => none

def string (p : List UInt8) : List UInt8 := p.takeWhile (· ≠ 0)

variable {s q p rest : List UInt8}

theorem strlen_append (h : 0 ∉ s) (rest : List UInt8) : strlen (s ++ 0 :: rest) = some s.length := by
  induction s with
  | nil => rfl
  | cons b s ih =>
    rw [List.mem_cons, not_or] at h
    rw [List.cons_append, strlen, if_neg (Ne.symm h.1), ih h.2]
    rfl

theorem Str.strlen_object (s : Str) : strlen s.object = some s.bytes.length := strlen_append s.nonzero []

theorem string_append (h : 0 ∉ s) (rest : List UInt8) : string (s ++ 0 :: rest) = s := by
  have hall : ∀ b ∈ s, decide (b ≠ 0) = true := by
    intro b hb
    rw [decide_eq_true_eq]
    rintro rfl
    exact h hb
  rw [string, List.takeWhile_append_of_pos hall, List.takeWhile_cons_of_neg (by decide), List.append_nil]

/-- A string that begins with another, or differs from it inside both. -/
theorem strncmp_append (hs : 0 ∉ s) (hq : 0 ∉ q) (rest more : List UInt8) :
    strncmp (s ++ 0 :: rest) (q ++ more) q.length = some (decide (q <+: s)) := by
  induction q generalizing s with
  | nil =>
    rw [decide_eq_true List.nil_prefix]
    cases s <;> rfl
  | cons b q ih =>
    rw [List.mem_cons, not_or] at hq
    cases s with
    | nil =>
      rw [decide_eq_false (by simp)]
      exact if_pos hq.1
    | cons a s =>
      rw [List.mem_cons, not_or] at hs
      rw [List.cons_append, List.cons_append, List.length_cons, strncmp]
      by_cases hab : a = b
      · subst hab
        rw [if_neg (not_not_intro rfl), if_neg (Ne.symm hs.1), ih hs.2 hq.2]
        simp only [List.cons_prefix_cons, true_and]
      · rw [if_pos hab, decide_eq_false]
        intro hpre
        exact hab (List.cons_prefix_cons.1 hpre).1.symm

/-- Every byte string is a string, or one and what comes behind its `NUL`. -/
theorem exists_string (b : List UInt8) : ∃ s, 0 ∉ s ∧ (b = s ∨ ∃ rest, b = s ++ 0 :: rest) := by
  induction b with
  | nil => exact ⟨[], List.not_mem_nil, .inl rfl⟩
  | cons a b ih =>
    by_cases ha : a = 0
    · subst ha
      exact ⟨[], List.not_mem_nil, .inr ⟨b, rfl⟩⟩
    · obtain ⟨s, hs, hb⟩ := ih
      refine ⟨a :: s, ?_, ?_⟩
      · rw [List.mem_cons, not_or]
        exact ⟨Ne.symm ha, hs⟩
      · rcases hb with rfl | ⟨rest, rfl⟩
        · exact .inl rfl
        · exact .inr ⟨rest, rfl⟩

end Strings
