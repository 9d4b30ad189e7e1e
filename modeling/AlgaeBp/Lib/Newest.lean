import Mathlib.Data.List.Basic
import Mathlib.Tactic.Common
/-!
# A ring of the newest values

A ring of cells keeps the newest of the values pushed to it. `pos` is the cell
of the oldest it has and `lmt` how many it has. `Holds` says where each of them
lies, for the values newest first, and every push keeps that. `back_mod`: going
back from the cell of a value one meets the value before it.
-/

namespace Newest

variable {α : Type}

/-- The ring after these values, of which the newest comes first. -/
structure Holds (cells : List α) (pos lmt : Nat) (news : List α) : Prop where
  pos_lt : pos < cells.length
  lmt_eq : lmt = min news.length cells.length
  tail_eq : (pos + lmt) % cells.length = news.length % cells.length
  cell : ∀ i, i < lmt → cells[(news.length - 1 - i) % cells.length]? = news[i]?

theorem holds_nil {cells : List α} (h : 0 < cells.length) : Holds cells 0 0 [] :=
  ⟨h, (Nat.zero_min _).symm, rfl, fun _ hi => absurd hi (Nat.not_lt_zero _)⟩

/-- Start and number of the values after a push. -/
def advance (cap pos lmt : Nat) : Nat × Nat :=
  if lmt < cap then (pos, lmt + 1) else if pos = cap - 1 then (0, lmt) else (pos + 1, lmt)

theorem mod_ne {n d cap : Nat} (hd : 0 < d) (hn : d ≤ n) (hcap : d < cap) : (n - d) % cap ≠ n % cap := by
  intro heq
  have hdvd : cap ∣ n - (n - d) := Nat.dvd_of_mod_eq_zero (Nat.sub_mod_eq_zero_of_mod_eq heq.symm)
  have hsub : n - (n - d) = d := by omega
  rw [hsub] at hdvd
  exact absurd (Nat.le_of_dvd hd hdvd) (by omega)

theorem advance_tail {cells news : List α} {pos lmt : Nat} (h : Holds cells pos lmt news) :
    ((advance cells.length pos lmt).1 + (advance cells.length pos lmt).2) % cells.length =
      (news.length + 1) % cells.length := by
  have hpos := h.pos_lt
  have hlmt := h.lmt_eq
  have htail := Nat.add_mod_eq_add_mod_right 1 h.tail_eq
  unfold advance
  split
  · exact htail
  · have hfull : lmt = cells.length := by omega
    split
    case isTrue hlast =>
      have hround : pos + lmt + 1 = cells.length + cells.length := by omega
      rw [hround, Nat.add_mod_right] at htail
      rw [← htail, hfull, Nat.zero_add]
    case isFalse =>
      rw [← htail]
      exact congrArg (· % cells.length) (Nat.add_right_comm pos 1 lmt)

theorem Holds.push {cells news : List α} {pos lmt : Nat} (h : Holds cells pos lmt news) (v : α) :
    Holds (cells.set ((pos + lmt) % cells.length) v) (advance cells.length pos lmt).1 (advance cells.length pos lmt).2
      (v :: news) := by
  have hpos := h.pos_lt
  have hlmt := h.lmt_eq
  have hnew : (advance cells.length pos lmt).2 = min (news.length + 1) cells.length := by
    unfold advance
    split
    · show lmt + 1 = _
      omega
    · split <;> (show lmt = _; omega)
  constructor
  · rw [List.length_set, advance]
    split
    · exact hpos
    · split
      · show 0 < cells.length
        omega
      · show pos + 1 < cells.length
        omega
  · rw [List.length_set, List.length_cons, hnew]
  · rw [List.length_set, List.length_cons]
    exact advance_tail h
  · intro i hi
    rw [hnew] at hi
    rw [List.length_set, List.length_cons, h.tail_eq, Nat.add_sub_cancel]
    rcases i with _ | i
    · rw [Nat.sub_zero, List.getElem?_set_self (Nat.mod_lt _ (by omega)), List.getElem?_cons_zero]
    · have hne : news.length % cells.length ≠ (news.length - (i + 1)) % cells.length :=
        (mod_ne (Nat.succ_pos i) (by omega) (by omega)).symm
      rw [List.getElem?_set_ne hne, List.getElem?_cons_succ, Nat.add_comm i 1, ← Nat.sub_sub]
      exact h.cell i (by omega)

/-- The cell before, the last one being before the first. -/
def back (cap i : Nat) : Nat := if i = 0 then cap - 1 else i - 1

theorem back_mod {n cap : Nat} (hcap : 0 < cap) (hn : 0 < n) : back cap (n % cap) = (n - 1) % cap := by
  have hdiv := Nat.div_add_mod n cap
  have hlt := Nat.mod_lt n hcap
  unfold back
  split
  case isTrue h₀ =>
    have hdvd : cap ∣ n := Nat.dvd_of_mod_eq_zero h₀
    obtain ⟨q, rfl⟩ := hdvd
    rcases q with _ | q
    · exact absurd hn (Nat.lt_irrefl 0)
    · have hsplit : cap * (q + 1) - 1 = cap - 1 + cap * q := by
        rw [Nat.mul_succ]
        omega
      rw [hsplit, Nat.add_mul_mod_self_left, Nat.mod_eq_of_lt (by omega)]
  case isFalse h₀ =>
    have hsplit : n - 1 = n % cap - 1 + cap * (n / cap) := by omega
    have hsmall : n % cap - 1 < cap := by omega
    rw [hsplit, Nat.add_mul_mod_self_left, Nat.mod_eq_of_lt hsmall]

end Newest
