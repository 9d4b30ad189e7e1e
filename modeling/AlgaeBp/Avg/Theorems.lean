import Mathlib.Algebra.BigOperators.Group.List.Basic
import Mathlib.Tactic.NormNum
import AlgaeBp.Lib.Newest
import AlgaeBp.Avg.Code
/-!
# What the average is taken of

The record is a ring of the newest values (`push_eq`), and the loop meets them
from the newest on (`walk_some`), as long as its index and its counter are
`int`s. Past that it is undefined (`walk_none`, `avgCalcF_none`).
-/
open Ints
open Newest (back back_mod)

namespace AlgaeBp.Avg

/-! ## The loop -/

/-- What the loop adds up, from turn `i` on. -/
def tally (term : Nat → Option (ℚ → ℚ)) : Nat → List ℚ → ℚ
  | _, [] => 0
  | i, v :: vs =>
    match term i with
    | none => 0
    | some f => f v + tally term (i + 1) vs

/-- The turns the loop takes, of those that are left at turn `i`. -/
def reach (term : Nat → Option (ℚ → ℚ)) : Nat → Nat → Nat
  | 0, _ => 0
  | left + 1, i =>
    match term i with
    | none => 0
    | some _ => reach term left (i + 1) + 1

def Rec.Holds (r : Rec) (news : List ℚ) : Prop := Newest.Holds r.vl r.pos r.lmt news

theorem Rec.Holds.lmt_eq {r : Rec} {news : List ℚ} (h : r.Holds news) : r.lmt = (news.take r.cap).length := by
  rw [Newest.Holds.lmt_eq h, r.size, List.length_take, min_comm]

theorem Rec.Holds.cap_pos {r : Rec} {news : List ℚ} (h : r.Holds news) : 0 < r.cap := by
  have := Newest.Holds.pos_lt h
  rw [← r.size]
  omega

/-- In turn `i` the loop stands at the `i`-th newest value. -/
theorem Rec.Holds.read {r : Rec} {news : List ℚ} (h : r.Holds news) {i : Nat} (hi : i < r.lmt) :
    r.read ↑((news.length - 1 - i) % r.cap) = news[i]? := by
  rw [Rec.read, if_pos (Int.natCast_nonneg _), Int.toNat_natCast, ← Newest.Holds.cell h i hi, r.size]

/-- Going back from it leads to the next one, round the end only if that is an `int`. -/
theorem Rec.Holds.back {r : Rec} {news : List ℚ} (h : r.Holds news) (hcap : r.cap < news.length → r.cap ≤ 2 ^ 31) {i : Nat}
    (hi : i + 1 < r.lmt) : r.back ↑((news.length - 1 - i) % r.cap) = ↑((news.length - 1 - (i + 1)) % r.cap) := by
  have hpos := h.cap_pos
  have hlmt := h.lmt_eq
  rw [List.length_take] at hlmt
  have hstep := back_mod (n := news.length - 1 - i) hpos (by omega)
  rw [← Nat.sub_sub, ← hstep, Rec.back, Newest.back]
  rcases Nat.eq_zero_or_pos ((news.length - 1 - i) % r.cap) with h₀ | h₁
  · have hle : r.cap ≤ news.length - 1 - i := Nat.le_of_dvd (by omega) (Nat.dvd_of_mod_eq_zero h₀)
    have hsmall := hcap (by omega)
    rw [if_pos (by omega), if_pos h₀, toInt_eq]
    unfold intMax
    omega
  · rw [if_neg (by omega), if_neg (by omega)]
    omega

theorem walk_some {r : Rec} {news : List ℚ} (h : r.Holds news) (hcap : r.cap < news.length → r.cap ≤ 2 ^ 31)
    (term : Nat → Option (ℚ → ℚ)) {vs : List ℚ} {i : Nat} {pos : Int} (sum : ℚ) (hvs : (news.take r.cap).drop i = vs)
    (hpos : vs ≠ [] → pos = ↑((news.length - 1 - i) % r.cap)) (hreach : i + reach term vs.length i ≤ intMax) :
    r.walk term vs.length pos i sum = some (sum + tally term i vs) := by
  induction vs generalizing i pos sum with
  | nil => rw [tally, add_zero]; rfl
  | cons v vs ih =>
    have hlen := congrArg List.length hvs
    rw [List.length_drop, ← h.lmt_eq, List.length_cons] at hlen
    have hnews : news[i]? = some v := by
      have hget := congrArg (·[0]?) hvs
      have hlt : i < r.cap := by
        have hlmt := h.lmt_eq
        rw [List.length_take] at hlmt
        omega
      simp only [List.getElem?_drop, Nat.add_zero, List.getElem?_cons_zero, List.getElem?_take_of_lt hlt] at hget
      exact hget
    have hread := h.read (i := i) (by omega)
    rw [hnews, ← hpos (List.cons_ne_nil _ _)] at hread
    rw [List.length_cons, reach] at hreach
    rw [List.length_cons, Rec.walk, tally]
    rcases hterm : term i with _ | f
    · rw [add_zero]
    · rw [hterm] at hreach
      dsimp only at hreach ⊢
      have hincr : incr i = some (i + 1) := if_pos (by omega)
      rw [hread, Option.bind_eq_bind, Option.bind_some, hincr, Option.bind_eq_bind, Option.bind_some]
      rw [ih, add_assoc]
      · rw [← List.drop_drop, hvs]
        rfl
      · intro hne
        have := List.length_pos_iff.2 hne
        rw [hpos (List.cons_ne_nil _ _)]
        exact h.back hcap (by omega)
      · omega

/-- Turn number `INT_MAX` does not end. -/
theorem walk_none {r : Rec} {term : Nat → Option (ℚ → ℚ)} {left i : Nat} (pos : Int) (sum : ℚ) (hi : i ≤ intMax)
    (hreach : intMax < i + reach term left i) : r.walk term left pos i sum = none := by
  induction left generalizing i pos sum with
  | zero => exact absurd hreach (by rw [reach]; omega)
  | succ left ih =>
    rw [reach] at hreach
    rw [Rec.walk]
    rcases hterm : term i with _ | f
    · rw [hterm] at hreach
      exact absurd hreach (Nat.not_lt_of_le hi)
    · rw [hterm] at hreach
      dsimp only at hreach ⊢
      rcases r.read pos with _ | v
      · rfl
      rw [Option.bind_eq_bind, Option.bind_some, incr]
      split
      · exact ih _ _ (by omega) (by omega)
      · rfl

/-! ## A push -/

theorem advance_eq (r : Rec) :
    r.advance.cap = r.cap ∧ r.advance.vl = r.vl ∧ r.advance.pos = (Newest.advance r.cap r.pos r.lmt).1 ∧
      r.advance.lmt = (Newest.advance r.cap r.pos r.lmt).2 := by
  unfold Rec.advance Newest.advance
  split
  · exact ⟨rfl, rfl, rfl, rfl⟩
  · split <;> exact ⟨rfl, rfl, rfl, rfl⟩

theorem Rec.Holds.slot {r : Rec} {news : List ℚ} (h : r.Holds news) : (r.pos + r.lmt) % r.cap = news.length % r.cap := by
  have htail := Newest.Holds.tail_eq h
  rwa [r.size] at htail

theorem push_eq {r : Rec} {news : List ℚ} (h : r.Holds news) (val : ℚ) :
    ∃ r', r.write ↑(news.length % r.cap) val = some r' ∧ r'.advance.cap = r.cap ∧ r'.advance.Holds (val :: news) := by
  have hlt : news.length % r.cap < r.cap := Nat.mod_lt _ h.cap_pos
  have hpush := Newest.Holds.push h val
  rw [r.size, h.slot] at hpush
  rw [Rec.write, if_pos ⟨Int.natCast_nonneg _, hlt⟩]
  refine ⟨_, rfl, (advance_eq _).1, ?_⟩
  obtain ⟨-, hvl, hpos, hlmt⟩ := advance_eq
    { r with vl := r.vl.set (news.length % r.cap) val, size := by rw [List.length_set, r.size] }
  unfold Rec.Holds
  dsimp only [Int.toNat_natCast]
  rw [hvl, hpos, hlmt]
  exact hpush

/-- Behind the last `int` there is no cell to write. -/
theorem write_none {r : Rec} (val : ℚ) : r.write (toInt (2 ^ 31)) val = none := by
  have hneg : ¬0 ≤ toInt (2 ^ 31) := by decide
  exact if_neg (fun h => hneg h.1)

/-! ## One call -/

/-- The mean of these values, newest first; if there are weights, their weighted sum. -/
def average (last : List ℚ) (weight : Option (List ℚ)) (weightRemain : ℚ) : ℚ :=
  match weight with
  | none | some [] => last.sum / last.length
  | some (w :: weight) => (last.mapIdx fun i v => v * (w :: weight).getD i weightRemain).sum

/-- The turns of the loop over `n` values. -/
def turns (n : Nat) (weight : Option (List ℚ)) (weightRemain : ℚ) : Nat :=
  match weight with
  | none | some [] => n
  | some (w :: weight) => if weightRemain = 0 then min n (w :: weight).length else n

theorem tally_plain (i : Nat) (vs : List ℚ) : tally plain i vs = vs.sum := by
  induction vs generalizing i with
  | nil => rfl
  | cons v vs ih =>
    rw [tally, List.sum_cons, ← ih (i + 1)]
    rfl

theorem reach_plain (left i : Nat) : reach plain left i = left := by
  induction left generalizing i with
  | zero => rfl
  | succ left ih => exact congrArg (· + 1) (ih (i + 1))

theorem weighted_eq (weight : List ℚ) (weightRemain : ℚ) (i : Nat) :
    weighted weight weightRemain i = (if weight.length ≤ i ∧ weightRemain = 0 then none
      else some (· * weight.getD i weightRemain)) := by
  rw [List.getD_eq_getElem?_getD]
  rcases hw : weight[i]? with _ | w
  · have hle : weight.length ≤ i := List.getElem?_eq_none_iff.1 hw
    simp only [weighted, hw, Option.getD_none, hle, true_and]
    by_cases h₀ : weightRemain = 0
    · rw [if_pos h₀, if_neg (not_not_intro h₀)]
    · rw [if_neg h₀, if_pos h₀]
  · have hlt : i < weight.length := (List.getElem?_eq_some_iff.1 hw).1
    simp only [weighted, hw, Option.getD_some]
    rw [if_neg (fun h => absurd hlt (Nat.not_lt_of_le h.1))]

/-- What comes after the loop has been left would have counted nothing. -/
theorem tally_weighted (weight : List ℚ) (weightRemain : ℚ) (i : Nat) (vs : List ℚ) :
    tally (weighted weight weightRemain) i vs = (vs.mapIdx fun j v => v * weight.getD (i + j) weightRemain).sum := by
  induction vs generalizing i with
  | nil => rfl
  | cons v vs ih =>
    have hrest := ih (i + 1)
    simp only [Nat.add_assoc, Nat.add_comm 1] at hrest
    rw [tally, weighted_eq, List.mapIdx_cons, List.sum_cons, ← hrest, Nat.add_zero i]
    by_cases hstop : weight.length ≤ i ∧ weightRemain = 0
    · have hnone : weighted weight weightRemain (i + 1) = none := by
        rw [weighted_eq, if_pos ⟨hstop.1.trans (Nat.le_succ i), hstop.2⟩]
      have hzero : tally (weighted weight weightRemain) (i + 1) vs = 0 := by
        rcases vs with _ | ⟨v', vs⟩
        · rfl
        · rw [tally, hnone]
      have hout : weight.getD i weightRemain = 0 := by
        rw [List.getD_eq_getElem?_getD, List.getElem?_eq_none_iff.2 hstop.1]
        exact hstop.2
      rw [if_pos hstop, hout, mul_zero, hzero, add_zero]
    · rw [if_neg hstop]

theorem reach_weighted (weight : List ℚ) (weightRemain : ℚ) (left i : Nat) :
    reach (weighted weight weightRemain) left i = if weightRemain = 0 then min left (weight.length - i) else left := by
  induction left generalizing i with
  | zero => rw [reach, Nat.zero_min, ite_self]
  | succ left ih =>
    rw [reach, weighted_eq]
    by_cases h₀ : weightRemain = 0
    · by_cases hle : weight.length ≤ i
      · rw [if_pos ⟨hle, h₀⟩, if_pos h₀]
        dsimp only
        omega
      · rw [if_neg (fun h => hle h.1), if_pos h₀]
        dsimp only
        rw [ih, if_pos h₀]
        omega
    · rw [if_neg (fun h => h₀ h.2), if_neg h₀]
      dsimp only
      rw [ih, if_neg h₀]

/-- What the loop of a call adds up. -/
def loopTerm (weight : Option (List ℚ)) (weightRemain : ℚ) : Nat → Option (ℚ → ℚ) :=
  match weight with
  | none | some [] => plain
  | some (w :: weight) => weighted (w :: weight) weightRemain

/-- What a call makes of the sum of `n` values. -/
def settle (weight : Option (List ℚ)) (n : Nat) (sum : ℚ) : ℚ :=
  match weight with
  | none | some [] => sum / n
  | some (_ :: _) => sum

theorem avgCalcF_eq (r : Rec) (val : ℚ) (weight : Option (List ℚ)) (weightRemain : ℚ) (hcap : r.cap ≠ 0) :
    avgCalcF r val weight weightRemain = (r.write (toInt ((r.pos + r.lmt) % r.cap)) val).bind fun r' =>
      (r'.advance.walk (loopTerm weight weightRemain) r'.advance.lmt (toInt ((r.pos + r.lmt) % r.cap)) 0 0).map fun sum =>
        (settle weight r'.advance.lmt sum, r'.advance) := by
  rw [avgCalcF, if_neg hcap]
  rcases weight with _ | _ | ⟨w, weight⟩ <;> simp only [Option.map_eq_bind] <;> rfl

theorem reach_loopTerm (n : Nat) (weight : Option (List ℚ)) (weightRemain : ℚ) :
    reach (loopTerm weight weightRemain) n 0 = turns n weight weightRemain := by
  rcases weight with _ | _ | ⟨w, weight⟩
  · exact reach_plain n 0
  · exact reach_plain n 0
  · exact reach_weighted (w :: weight) weightRemain n 0

theorem settle_tally (last : List ℚ) (weight : Option (List ℚ)) (weightRemain : ℚ) :
    settle weight last.length (tally (loopTerm weight weightRemain) 0 last) = average last weight weightRemain := by
  rcases weight with _ | _ | ⟨w, weight⟩
  · exact congrArg (· / _) (tally_plain 0 last)
  · exact congrArg (· / _) (tally_plain 0 last)
  · have htally := tally_weighted (w :: weight) weightRemain 0 last
    simp only [Nat.zero_add] at htally
    exact htally

/-- The whole loop, after a push. -/
theorem loop_some {r : Rec} {val : ℚ} {news : List ℚ} (h : r.Holds (val :: news))
    (hcap : r.cap ≤ news.length → r.cap ≤ 2 ^ 31)
    (term : Nat → Option (ℚ → ℚ)) (hreach : reach term r.lmt 0 ≤ intMax) :
    r.walk term r.lmt ↑(news.length % r.cap) 0 0 = some (tally term 0 ((val :: news).take r.cap)) := by
  have hlmt := h.lmt_eq
  rw [hlmt, ← Nat.zero_add (reach _ _ _)] at hreach
  have hwalk := walk_some h (fun hlt => hcap (Nat.lt_succ_iff.1 hlt)) term (i := 0) 0 rfl (fun _ => rfl) hreach
  rw [zero_add, List.drop_zero, ← hlmt] at hwalk
  exact hwalk

/-- No more values have come than there are `int`s to number them, or the ring is smaller. -/
def Few (cap n : Nat) : Prop := cap ≤ 2 ^ 31 ∨ n ≤ 2 ^ 31

/-- The index and the counter of call number `n`, from 0 on, are `int`s. -/
structure InInt (cap n : Nat) (c : Call) : Prop where
  index : n % cap ≤ intMax
  counter : turns (min (n + 1) cap) c.weight c.weightRemain ≤ intMax

/-- **A call whose index and counter are `int`s** answers what it should. -/
theorem avgCalcF_some {r : Rec} {news : List ℚ} (h : r.Holds news) (hfew : Few r.cap news.length) {c : Call}
    (hint : InInt r.cap news.length c) :
    ∃ r', avgCalcF r c.val c.weight c.weightRemain =
        some (average ((c.val :: news).take r.cap) c.weight c.weightRemain, r') ∧
      r'.cap = r.cap ∧ r'.Holds (c.val :: news) := by
  obtain ⟨r', hw, hcap, hr'⟩ := push_eq h c.val
  have hlmt := hr'.lmt_eq
  rw [hcap] at hlmt
  have hround : r'.advance.cap ≤ news.length → r'.advance.cap ≤ 2 ^ 31 := by
    rw [hcap]
    intro hle
    exact hfew.elim id hle.trans
  have hreach : reach (loopTerm c.weight c.weightRemain) r'.advance.lmt 0 ≤ intMax := by
    rw [reach_loopTerm, hlmt, List.length_take, List.length_cons, min_comm]
    exact hint.counter
  have hloop := loop_some hr' hround _ hreach
  rw [hcap] at hloop
  refine ⟨r'.advance, ?_, hcap, hr'⟩
  rw [avgCalcF_eq _ _ _ _ h.cap_pos.ne', h.slot, toInt_eq hint.index, hw, Option.bind_some, hloop, Option.map_some, hlmt,
    settle_tally]

/-- **A call whose index or counter is no `int`** is undefined. -/
theorem avgCalcF_none {r : Rec} {news : List ℚ} (h : r.Holds news) (hfew : Few r.cap news.length) {c : Call}
    (hint : ¬InInt r.cap news.length c) : avgCalcF r c.val c.weight c.weightRemain = none := by
  have hmod := Nat.mod_lt news.length h.cap_pos
  have hmax : intMax = 2 ^ 31 - 1 := rfl
  rw [avgCalcF_eq _ _ _ _ h.cap_pos.ne', h.slot]
  by_cases hindex : news.length % r.cap ≤ intMax
  · obtain ⟨r', hw, hcap, hr'⟩ := push_eq h c.val
    have hover : intMax < 0 + reach (loopTerm c.weight c.weightRemain) r'.advance.lmt 0 := by
      rw [Nat.zero_add, reach_loopTerm, hr'.lmt_eq, List.length_take, List.length_cons, hcap, min_comm]
      exact Nat.lt_of_not_le (fun hle => hint ⟨hindex, hle⟩)
    rw [toInt_eq hindex, hw, Option.bind_some, walk_none _ _ (Nat.zero_le _) hover, Option.map_none]
  · -- the only number that is out of range and can come up is the first one
    have hfirst : news.length % r.cap = 2 ^ 31 := by
      rcases hfew with hle | hle
      · omega
      · have := Nat.mod_le news.length r.cap
        omega
    rw [hfirst, write_none, Option.bind_none]

/-! ## Calls one after another -/

/-- What the calls should answer, after these values. -/
def averages (cap : Nat) : List ℚ → List Call → List ℚ
  | _, [] => []
  | news, c :: cs =>
    average ((c.val :: news).take cap) c.weight c.weightRemain :: averages cap (c.val :: news) cs

theorem Few.next {cap n : Nat} {c : Call} (h : Few cap n) (hint : InInt cap n c) : Few cap (n + 1) := by
  rcases h with h | h
  · exact Or.inl h
  · by_cases hcap : cap ≤ 2 ^ 31
    · exact Or.inl hcap
    · have hmax : intMax = 2 ^ 31 - 1 := rfl
      have hindex := hint.index
      rw [Nat.mod_eq_of_lt (by omega)] at hindex
      exact Or.inr (by omega)

/-- **A sequence of calls.** They answer what they should just when each keeps its `int`s. -/
theorem calcs_eq_iff {r : Rec} {news : List ℚ} (h : r.Holds news) (hfew : Few r.cap news.length) (cs : List Call) :
    calcs r cs = some (averages r.cap news cs) ↔ ∀ i c, cs[i]? = some c → InInt r.cap (news.length + i) c := by
  induction cs generalizing r news with
  | nil =>
    refine iff_of_true rfl ?_
    intro i c hc
    cases hc
  | cons c cs ih =>
    rw [calcs, averages]
    by_cases hint : InInt r.cap news.length c
    · obtain ⟨r', hcalc, hcap, hr'⟩ := avgCalcF_some h hfew hint
      have hrest := ih hr' (by rw [hcap]; exact hfew.next hint)
      rw [hcap] at hrest
      simp only [hcalc, Option.bind_eq_bind, Option.bind_some, Option.bind_eq_some_iff, Option.some.injEq,
        List.cons.injEq, true_and, exists_eq_right]
      rw [hrest]
      constructor
      · intro hall i c' hc
        rcases i with _ | i
        · obtain rfl := Option.some.inj hc
          exact hint
        · have := hall i c' hc
          rwa [List.length_cons, Nat.add_right_comm] at this
      · intro hall i c' hc
        rw [List.length_cons, Nat.add_right_comm]
        exact hall (i + 1) c' hc
    · rw [avgCalcF_none h hfew hint]
      refine iff_of_false ?_ ?_
      · intro hnone
        cases hnone
      · intro hall
        exact hint (hall 0 c rfl)

/-- A capacity that is an `int` is enough. -/
theorem inInt_of_le {cap n : Nat} (hpos : 0 < cap) (h : cap ≤ intMax) (c : Call) : InInt cap n c := by
  have hturns : turns (min (n + 1) cap) c.weight c.weightRemain ≤ min (n + 1) cap := by
    unfold turns
    split
    · exact le_refl _
    · exact le_refl _
    · split
      · exact Nat.min_le_left _ _
      · exact le_refl _
  constructor
  · exact (Nat.mod_lt n hpos).le.trans h
  · omega

/-! ## The remaining weight -/

theorem sumLoop_eq (weight : List ℚ) {pos : Nat} (sum : ℚ) (hpos : pos ≤ intMax) :
    sumLoop weight pos sum = if pos + weight.length ≤ intMax then some (sum + weight.sum) else none := by
  induction weight generalizing pos sum with
  | nil => rw [sumLoop, List.length_nil, Nat.add_zero, if_pos hpos, List.sum_nil, add_zero]
  | cons w weight ih =>
    rw [sumLoop, incr]
    by_cases hlt : pos < intMax
    · rw [if_pos hlt, Option.bind_eq_bind, Option.bind_some, ih _ hlt, List.length_cons, List.sum_cons, add_assoc]
      exact if_congr (by omega) rfl rfl
    · rw [if_neg hlt, if_neg (by rw [List.length_cons]; omega)]
      rfl

/-- The weights of a full record. -/
def weights (weight : List ℚ) (weightRemain : ℚ) (cap : Nat) : List ℚ :=
  (List.range cap).map fun i => weight.getD i weightRemain

theorem weights_eq (weight : List ℚ) (weightRemain : ℚ) (k : Nat) :
    weights weight weightRemain (weight.length + k) = weight ++ List.replicate k weightRemain := by
  apply List.ext_getElem
  · rw [weights, List.length_map, List.length_range, List.length_append, List.length_replicate]
  · intro i _ _
    rw [List.getElem_append]
    simp only [weights, List.getElem_map, List.getElem_range, List.getD_eq_getElem?_getD]
    split
    case isTrue hlt => rw [List.getElem?_eq_getElem hlt, Option.getD_some]
    case isFalse hge => rw [List.getElem?_eq_none (Nat.le_of_not_lt hge), Option.getD_none, List.getElem_replicate]

theorem sum_weights {weight : List ℚ} {cap : Nat} (weightRemain : ℚ) (h : weight.length ≤ cap) :
    (weights weight weightRemain cap).sum = weight.sum + ↑(cap - weight.length) * weightRemain := by
  obtain ⟨k, rfl⟩ := Nat.exists_eq_add_of_le h
  rw [weights_eq, List.sum_append, List.sum_replicate, nsmul_eq_mul, Nat.add_sub_cancel_left]

/-- What is left over is shared out, if the weights can be counted. -/
theorem avgCalcWeightRemain_iff {weight : List ℚ} {cap : Nat} (hlen : weight.length < cap) (hsum : weight.sum < 1) :
    (∃ x, avgCalcWeightRemain (some weight) cap = some x ∧ (weights weight x cap).sum = 1) ↔ weight.length ≤ intMax := by
  have hrest : ((cap - weight.length : Nat) : ℚ) ≠ 0 := Nat.cast_ne_zero.2 (by omega)
  rcases weight with _ | ⟨w, weight⟩
  · refine iff_of_true ⟨_, rfl, ?_⟩ (Nat.zero_le _)
    rw [List.length_nil, Nat.sub_zero] at hrest
    rw [sum_weights _ (Nat.zero_le _), List.sum_nil, zero_add, List.length_nil, Nat.sub_zero]
    exact mul_one_div_cancel hrest
  rw [avgCalcWeightRemain, if_neg (Nat.not_le_of_lt hlen), sumLoop_eq _ _ (Nat.zero_le _), Nat.zero_add, zero_add]
  constructor
  · rintro ⟨x, hx, -⟩
    by_contra hmany
    rw [if_neg hmany] at hx
    cases hx
  · intro hint
    rw [if_pos hint, Option.bind_eq_bind, Option.bind_some, if_neg (not_le_of_gt hsum)]
    refine ⟨_, rfl, ?_⟩
    rw [sum_weights _ hlen.le, mul_div_cancel₀ _ hrest, add_sub_cancel]

theorem holds_empty {r : Rec} (hcap : 1 ≤ r.cap) (hpos : r.pos = 0) (hlmt : r.lmt = 0) : r.Holds [] := by
  unfold Rec.Holds
  rw [hpos, hlmt]
  exact Newest.holds_nil (by rw [r.size]; exact hcap)

/-- **The moving average.** From an empty record every call answers what it should
just when the index and the counter of each call are `int`s, and the weights of a
full record sum to 1 just when their number is one. -/
theorem average_iff {r : Rec} (hcap : 1 ≤ r.cap) (hpos : r.pos = 0) (hlmt : r.lmt = 0) (cs : List Call) (weight : List ℚ) :
    (calcs r cs = some (averages r.cap [] cs) ↔ ∀ i c, cs[i]? = some c → InInt r.cap i c) ∧
    (weight.length < r.cap → weight.sum < 1 →
      ((∃ x, avgCalcWeightRemain (some weight) r.cap = some x ∧ (weights weight x r.cap).sum = 1) ↔
        weight.length ≤ intMax)) := by
  refine ⟨?_, avgCalcWeightRemain_iff⟩
  have hiff := calcs_eq_iff (holds_empty hcap hpos hlmt) (Or.inr (Nat.zero_le _)) cs
  simpa only [List.length_nil, Nat.zero_add] using hiff

/-- Room for two values. -/
def two : Rec := { cap := 2, vl := [0, 0], size := rfl, lmt := 0, pos := 0 }

/-- The third value takes the place of the first. -/
theorem average_two :
    calcs two [⟨4, none, 0⟩, ⟨2, some [1 / 2], 1 / 4⟩, ⟨8, none, 0⟩] = some [4, 2, 5] ∧
      ∃ x, avgCalcWeightRemain (some [1 / 2]) 2 = some x ∧ (weights [1 / 2] x 2).sum = 1 := by
  obtain ⟨hcalcs, hweights⟩ := average_iff (r := two) (by decide) rfl rfl
    [⟨4, none, 0⟩, ⟨2, some [1 / 2], 1 / 4⟩, ⟨8, none, 0⟩] [1 / 2]
  constructor
  · rw [hcalcs.2 (fun _ c _ => inInt_of_le (by decide) (by decide) c)]
    norm_num [averages, average, two]
  · exact (hweights (by decide) (by norm_num)).2 (by decide)

/-- One weight, and nothing for the rest. -/
def newestOnly : Call := { val := 0, weight := some [1], weightRemain := 0 }

/-- The first value whose index is no `int` is written before the array. -/
theorem not_average : ¬∀ r : Rec, 1 ≤ r.cap → r.pos = 0 → r.lmt = 0 → ∀ cs, calcs r cs = some (averages r.cap [] cs) := by
  intro hall
  have hbig := hall
    { cap := 2 ^ 31 + 1, vl := List.replicate (2 ^ 31 + 1) 0, size := List.length_replicate, lmt := 0, pos := 0 }
    (by decide) rfl rfl (List.replicate (2 ^ 31 + 1) newestOnly)
  rw [calcs_eq_iff (holds_empty (by decide) rfl rfl) (Or.inr (Nat.zero_le _))] at hbig
  have hint := hbig (2 ^ 31) newestOnly (by rw [List.getElem?_replicate, if_pos (by decide)])
  exact absurd hint.index (by decide)

end AlgaeBp.Avg
