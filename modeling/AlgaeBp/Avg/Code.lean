import Mathlib.Algebra.Order.Field.Rat
import AlgaeBp.Lib.Ints
/-!
# Moving average

`aloe_avg_calc_weight_remain` and `aloe_avg_calc_f` of `util.cpp`, over the
rationals. `cap`, `lmt` and `pos` of the record are `size_t`, but the index and
the counter of the loops are `int`. Whatever goes past the largest `int` or lies
outside the array answers `none`.
-/
open Ints

namespace AlgaeBp.Avg

/-- `n++`, which must not overflow. -/
def incr (n : Nat) : Option Nat := if n < intMax then some (n + 1) else none

/-! ## The remaining weight -/

/-- The loop over `weight`. -/
def sumLoop : List ℚ → Nat → ℚ → Option ℚ
  | [], _, sum => some sum
  | w :: weight, pos, sum => do
    let pos ← incr pos
    sumLoop weight pos (sum + w)

/-- The weights are given with their number; `none` is `NULL`. -/
def avgCalcWeightRemain (weight : Option (List ℚ)) (cap : Nat) : Option ℚ :=
  match weight with
  | none | some [] => some (1 / cap)
  | some (w :: weight) =>
    if (w :: weight).length ≥ cap then some 0
    else do
      let sum ← sumLoop (w :: weight) 0 0
      if sum ≥ 1 then some 0 else some ((1 - sum) / ↑(cap - (w :: weight).length))

/-! ## The record -/

/-- An `aloe_buf_t` of `double`. -/
structure Rec where
  cap : Nat
  vl : List ℚ
  size : vl.length = cap
  lmt : Nat
  pos : Nat

/-- `vl[i]` -/
def Rec.read (r : Rec) (i : Int) : Option ℚ := if 0 ≤ i then r.vl[i.toNat]? else none

/-- `vl[i] = val` -/
def Rec.write (r : Rec) (i : Int) (val : ℚ) : Option Rec :=
  if 0 ≤ i ∧ i.toNat < r.cap then
    some { r with vl := r.vl.set i.toNat val, size := by rw [List.length_set, r.size] }
  else none

/-- Append, overwrite and wrap, or overwrite. -/
def Rec.advance (r : Rec) : Rec :=
  if r.lmt < r.cap then { r with lmt := r.lmt + 1 }
  else if r.pos = r.cap - 1 then { r with pos := 0 }
  else { r with pos := r.pos + 1 }

/-- One cell back. -/
def Rec.back (r : Rec) (pos : Int) : Int := if pos ≤ 0 then toInt (r.cap - 1) else pos - 1

/-- The loop from tail to head: `term` is what the value in turn `lmt` adds to the
sum, or `none` to leave. -/
def Rec.walk (r : Rec) (term : Nat → Option (ℚ → ℚ)) (left : Nat) (pos : Int) (lmt : Nat) (sum : ℚ) : Option ℚ :=
  match left with
  | 0 => some sum
  | left + 1 =>
    match term lmt with
    | none => some sum
    | some f => do
      let v ← r.read pos
      let lmt ← incr lmt
      r.walk term left (r.back pos) lmt (sum + f v)

/-- Every value counts once. -/
def plain (_ : Nat) : Option (ℚ → ℚ) := some id

def weighted (weight : List ℚ) (weightRemain : ℚ) (lmt : Nat) : Option (ℚ → ℚ) :=
  match weight[lmt]? with
  | some w => some (· * w)
  | none => if weightRemain ≠ 0 then some (· * weightRemain) else none -- remain weighted 0

def avgCalcF (r : Rec) (val : ℚ) (weight : Option (List ℚ)) (weightRemain : ℚ) : Option (ℚ × Rec) :=
  if r.cap = 0 then none
  else do
    let pos := toInt ((r.pos + r.lmt) % r.cap)
    let r ← r.write pos val
    let r := r.advance
    match weight with
    | none | some [] => do
      let sum ← r.walk plain r.lmt pos 0 0
      some (sum / r.lmt, r)
    | some (w :: weight) => do
      let sum ← r.walk (weighted (w :: weight) weightRemain) r.lmt pos 0 0
      some (sum, r)

/-! ## Calls one after another -/

/-- The arguments of a call. -/
structure Call where
  val : ℚ
  weight : Option (List ℚ)
  weightRemain : ℚ

/-- What the calls answer. -/
def calcs : Rec → List Call → Option (List ℚ)
  | _, [] => some []
  | r, c :: cs => do
    let (avg, r) ← avgCalcF r c.val c.weight c.weightRemain
    let avgs ← calcs r cs
    some (avg :: avgs)

end AlgaeBp.Avg
