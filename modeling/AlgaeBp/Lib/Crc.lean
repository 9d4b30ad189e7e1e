import Mathlib.Algebra.Field.ZMod
import Mathlib.Data.List.GetD
import Mathlib.Data.Nat.Size
import Mathlib.Data.ZMod.Basic
import Mathlib.RingTheory.AdjoinRoot
/-!
# Cyclic redundancy checks

A shift register with its bits reversed computes a remainder of polynomials over
the field with two elements: bit strings are read with the first bit as the
highest coefficient, words with the lowest bit first, and a register stands for
the polynomial of its bits. `run_eq` says what the register holds after any
words, `complemented_eq` what a check with initial and final complement is, and
`burst` that no two messages differing in one burst leave the same register.
-/
open Polynomial

namespace Crc

/-! ## Bit strings as polynomials -/

def bit (b : Bool) : ZMod 2 := if b then 1 else 0

theorem bit_xor (a b : Bool) : bit (a ^^ b) = bit a + bit b := by
  cases a <;> cases b <;> decide

theorem bit_injective : Function.Injective bit := by
  intro a b h
  cases a <;> cases b <;> first | rfl | exact absurd h (by decide)

/-- The polynomial of a string of bits, the first bit its highest coefficient. -/
noncomputable def ofBits : List Bool → (ZMod 2)[X]
  | [] => 0
  | b :: bs => C (bit b) * X ^ bs.length + ofBits bs

theorem ofBits_append (as bs : List Bool) : ofBits (as ++ bs) = X ^ bs.length * ofBits as + ofBits bs := by
  induction as with
  | nil => simp [ofBits]
  | cons a as ih =>
    rw [List.cons_append, ofBits, ofBits, ih, List.length_append, pow_add]
    ring

theorem coeff_ofBits (bs : List Bool) (j : ℕ) : (ofBits bs).coeff j = bit (bs.reverse.getD j false) := by
  induction bs with
  | nil => simp [ofBits, bit]
  | cons b bs ih =>
    rw [ofBits, coeff_add, coeff_C_mul, coeff_X_pow, ih, List.reverse_cons]
    rcases lt_trichotomy j bs.length with hj | rfl | hj
    · rw [if_neg hj.ne, mul_zero, zero_add, List.getD_append _ _ _ _ (by simpa using hj)]
    · simp [List.getD_eq_getElem?_getD, bit]
    · rw [if_neg hj.ne', mul_zero, zero_add, List.getD_eq_default _ _ (by simpa using hj.le),
        List.getD_eq_default _ _ (by simpa using hj)]

theorem degree_ofBits_lt (bs : List Bool) : (ofBits bs).degree < bs.length := by
  rw [degree_lt_iff_coeff_zero]
  intro j hj
  rw [coeff_ofBits, List.getD_eq_default _ _ (by simpa using hj)]
  rfl

/-- Strings of one length are told apart by their polynomials. -/
theorem ofBits_injective {as bs : List Bool} (hlen : as.length = bs.length) (h : ofBits as = ofBits bs) : as = bs := by
  apply List.reverse_injective
  apply List.ext_getElem (by simpa using hlen)
  intro j ha hb
  have hj := congrArg (fun q => q.coeff j) h
  simp only [coeff_ofBits] at hj
  rw [← List.getD_eq_getElem _ false ha, ← List.getD_eq_getElem _ false hb]
  exact bit_injective hj

/-! ## Words -/

/-- The bits of a word, the lowest first. -/
def bits {k : ℕ} (w : BitVec k) : List Bool := (List.range k).map w.getLsbD

@[simp] theorem length_bits {k : ℕ} (w : BitVec k) : (bits w).length = k := by
  rw [bits, List.length_map, List.length_range]

/-- The polynomial of a word. -/
noncomputable def ofWord {k : ℕ} (w : BitVec k) : (ZMod 2)[X] := ofBits (bits w)

theorem coeff_ofWord {k : ℕ} (w : BitVec k) (j : ℕ) : (ofWord w).coeff j = bit (w.getMsbD j) := by
  rw [ofWord, coeff_ofBits]
  congr 1
  by_cases hj : j < k
  · rw [List.getD_eq_getElem _ _ (by simpa using hj), List.getElem_reverse]
    simp [bits, BitVec.getMsbD, hj]
  · rw [List.getD_eq_default _ _ (by simpa using hj)]
    simp [BitVec.getMsbD, hj]

theorem ofWord_injective {k : ℕ} : Function.Injective (ofWord (k := k)) := by
  intro v w h
  apply BitVec.eq_of_getMsbD_eq
  intro i _
  apply bit_injective
  rw [← coeff_ofWord, ← coeff_ofWord, h]

theorem degree_ofWord_lt {k : ℕ} (w : BitVec k) : (ofWord w).degree < k := by
  have := degree_ofBits_lt (bits w)
  rwa [length_bits] at this

theorem ofWord_xor {k : ℕ} (v w : BitVec k) : ofWord (v ^^^ w) = ofWord v + ofWord w := by
  ext j
  rw [coeff_add, coeff_ofWord, coeff_ofWord, coeff_ofWord, BitVec.getMsbD_xor, bit_xor]

/-- A word in the low bits of a longer one stands at its high coefficients. -/
theorem ofWord_setWidth {k n : ℕ} (h : k ≤ n) (w : BitVec k) : ofWord (w.setWidth n) = X ^ (n - k) * ofWord w := by
  ext j
  rw [coeff_X_pow_mul', coeff_ofWord, BitVec.getMsbD_setWidth]
  by_cases hj : n - k ≤ j
  · rw [if_pos hj, coeff_ofWord]
    congr 1
    have : j + k - n = j - (n - k) := by omega
    simp [this]
    omega
  · rw [if_neg hj]
    have : j < n - k := by omega
    simp [bit]
    omega

/-- The word of a polynomial of less than `k` coefficients. -/
noncomputable def wordOf (k : ℕ) : (ZMod 2)[X] → BitVec k := Function.invFun ofWord

theorem wordOf_ofWord {k : ℕ} (w : BitVec k) : wordOf k (ofWord w) = w :=
  Function.leftInverse_invFun ofWord_injective w

/-- The polynomial whose coefficients are the binary digits of a number. -/
noncomputable def ofNumber (m : ℕ) : (ZMod 2)[X] := ∑ i ∈ Finset.range m.size, monomial i (bit (m.testBit i))

theorem coeff_ofNumber (m j : ℕ) : (ofNumber m).coeff j = bit (m.testBit j) := by
  rw [ofNumber, finsetSum_coeff]
  simp only [coeff_monomial]
  rw [Finset.sum_ite_eq']
  split
  · rfl
  · rename_i hj
    rw [Finset.mem_range, not_lt, Nat.size_le] at hj
    rw [Nat.testBit_lt_two_pow hj]
    rfl

/-! ## The register -/

section Register

variable {n k : ℕ} (p : BitVec n)

/-- One step of the register; `p` holds the polynomial without its highest coefficient. -/
def shift (s : BitVec n) : BitVec n := if s.getLsbD 0 then (s >>> 1) ^^^ p else s >>> 1

/-- A word is taken in. -/
def feed (s : BitVec n) (w : BitVec k) : BitVec n := (shift p)^[k] (s ^^^ w.setWidth n)

def run (s : BitVec n) (ws : List (BitVec k)) : BitVec n := ws.foldl (feed p) s

/-- The polynomial the register divides by. -/
noncomputable def generator : (ZMod 2)[X] := X ^ n + ofWord p

theorem generator_monic : (generator p).Monic := monic_X_pow_add (degree_ofWord_lt p)

theorem degree_generator : (generator p).degree = n := by
  unfold generator
  rw [degree_add_eq_left_of_degree_lt, degree_X_pow]
  rw [degree_X_pow]
  exact degree_ofWord_lt p

/-- What is shifted out is a multiple of the generator. -/
theorem ofWord_shift (s : BitVec n) :
    X * ofWord s = ofWord (shift p s) + C (bit (s.getLsbD 0)) * generator p := by
  have hout : X * ofWord s = ofWord (s >>> 1) + C (bit (s.getLsbD 0)) * X ^ n := by
    ext j
    rw [coeff_add, coeff_ofWord, coeff_C_mul, coeff_X_pow, BitVec.getMsbD_ushiftRight]
    cases j with
    | zero =>
      rw [coeff_X_mul_zero]
      rcases Nat.eq_zero_or_pos n with rfl | hn
      · simp [bit]
      · simp [bit, hn.ne]
    | succ j =>
      rw [coeff_X_mul, coeff_ofWord]
      rcases lt_trichotomy (j + 1) n with hj | rfl | hj
      · simp [hj, hj.ne]
      · simp [bit, BitVec.getMsbD]
      · have : ¬ j < n := by omega
        simp [bit, BitVec.getMsbD, hj.ne', hj.le, this]
  unfold shift generator
  cases hs : s.getLsbD 0
  · rw [hout, hs]
    simp [bit]
  · rw [if_pos rfl, hout, hs, ofWord_xor, mul_add, add_assoc, add_left_comm (ofWord p)]
    have htwo : ofWord p + C (bit true) * ofWord p = 0 := by
      rw [show bit true = 1 from rfl, C_1, one_mul]
      exact CharTwo.add_self_eq_zero _
    rw [htwo, add_zero]

/-- Modulo the generator a step multiplies by `X`. -/
theorem mk_shift (s : BitVec n) :
    AdjoinRoot.mk (generator p) (ofWord (shift p s)) = AdjoinRoot.mk (generator p) (X * ofWord s) := by
  rw [ofWord_shift p s, map_add, map_mul, AdjoinRoot.mk_self, mul_zero, add_zero]

theorem mk_shifts (s : BitVec n) (k : ℕ) :
    AdjoinRoot.mk (generator p) (ofWord ((shift p)^[k] s)) = AdjoinRoot.mk (generator p) (X ^ k * ofWord s) := by
  induction k with
  | zero => rw [Function.iterate_zero_apply, pow_zero, one_mul]
  | succ k ih =>
    rw [Function.iterate_succ_apply', mk_shift, map_mul, ih, ← map_mul]
    apply congrArg
    ring

/-- Taking in a word is taking its bits behind those of the register. -/
theorem mk_feed (hk : k ≤ n) (s : BitVec n) (w : BitVec k) :
    AdjoinRoot.mk (generator p) (ofWord (feed p s w)) =
      AdjoinRoot.mk (generator p) (X ^ k * ofWord s + X ^ n * ofWord w) := by
  have hplace : X ^ k * ofWord (w.setWidth n) = X ^ n * ofWord w := by
    rw [ofWord_setWidth hk, ← mul_assoc, ← pow_add, Nat.add_sub_cancel' hk]
  unfold feed
  rw [mk_shifts, ofWord_xor, mul_add, hplace]

/-- The bits of a message. -/
def message (ws : List (BitVec k)) : List Bool := ws.flatMap bits

theorem mk_run (hk : k ≤ n) (s : BitVec n) (ws : List (BitVec k)) :
    AdjoinRoot.mk (generator p) (ofWord (run p s ws)) =
      AdjoinRoot.mk (generator p) (X ^ (message ws).length * ofWord s + X ^ n * ofBits (message ws)) := by
  -- the words already taken in are in the register
  induction ws generalizing s with
  | nil => simp [run, message, ofBits]
  | cons w ws ih =>
    have hm : message (w :: ws) = bits w ++ message ws := rfl
    have hstep := mk_feed p hk s w
    show AdjoinRoot.mk (generator p) (ofWord (run p (feed p s w) ws)) = _
    rw [ih, map_add, map_mul, hstep, ← map_mul, ← map_add, hm, ofBits_append, List.length_append, length_bits]
    apply congrArg
    rw [pow_add]
    unfold ofWord
    ring

theorem length_message (ws : List (BitVec k)) : (message ws).length = ws.length * k := by
  induction ws with
  | nil => simp [message]
  | cons w ws ih =>
    have hm : message (w :: ws) = bits w ++ message ws := rfl
    rw [hm, List.length_append, length_bits, ih, List.length_cons]
    ring

theorem message_injective (hk : 0 < k) : Function.Injective (message (k := k)) := by
  intro ws
  induction ws with
  | nil =>
    intro ws' h
    have hlen := congrArg List.length h
    rw [length_message, length_message] at hlen
    cases ws' with
    | nil => rfl
    | cons w ws' => simp [hk.ne'] at hlen
  | cons w ws ih =>
    intro ws' h
    cases ws' with
    | nil =>
      have hlen := congrArg List.length h
      rw [length_message, length_message] at hlen
      simp [hk.ne'] at hlen
    | cons w' ws' =>
      have happ : bits w ++ message ws = bits w' ++ message ws' := h
      obtain ⟨hw, hws⟩ := List.append_inj happ (by rw [length_bits, length_bits])
      have hword : ofWord w = ofWord w' := congrArg ofBits hw
      rw [ofWord_injective hword, ih hws]

/-- A register is what its polynomial leaves. -/
theorem ofWord_eq_mod {s : BitVec n} {q : (ZMod 2)[X]}
    (h : AdjoinRoot.mk (generator p) (ofWord s) = AdjoinRoot.mk (generator p) q) : ofWord s = q %ₘ generator p := by
  have hself : ofWord s %ₘ generator p = ofWord s := by
    rw [modByMonic_eq_self_iff (generator_monic p), degree_generator]
    exact degree_ofWord_lt s
  have hdvd : generator p ∣ ofWord s - q := AdjoinRoot.mk_eq_mk.1 h
  rw [← modByMonic_eq_of_dvd_sub (generator_monic p) hdvd, hself]

/-- **The register holds a remainder**: that of what it held and of the message, moved up. -/
theorem run_eq (hk : k ≤ n) (s : BitVec n) (ws : List (BitVec k)) :
    ofWord (run p s ws) =
      (X ^ (message ws).length * ofWord s + X ^ n * ofBits (message ws)) %ₘ generator p :=
  ofWord_eq_mod p (mk_run p hk s ws)

end Register

/-! ## Checks -/

/-- The check of `n` bits of a message by a polynomial, with initial and final complement. -/
noncomputable def check (n : ℕ) (g : (ZMod 2)[X]) (m : List Bool) : BitVec n :=
  ~~~ wordOf n ((X ^ n * ofBits m + X ^ m.length * ofWord (BitVec.allOnes n)) %ₘ g)

theorem complemented_eq {n k : ℕ} (p : BitVec n) (hk : k ≤ n) (ws : List (BitVec k)) :
    ~~~ run p (BitVec.allOnes n) ws = check n (generator p) (message ws) := by
  unfold check
  rw [add_comm, ← run_eq p hk, wordOf_ofWord]

/-! ## Bursts -/

/-- Strings of one length that differ in a window only. -/
theorem window_split {α : Type} {as bs : List α} (hlen : as.length = bs.length) {a n : ℕ}
    (h : ∀ i, as[i]? ≠ bs[i]? → a ≤ i ∧ i < a + n) :
    ∃ u m m' v, as = u ++ m ++ v ∧ bs = u ++ m' ++ v ∧ m.length = m'.length ∧ m.length ≤ n := by
  have split (xs : List α) : xs = xs.take a ++ (xs.drop a).take n ++ xs.drop (a + n) := by
    rw [List.append_assoc, ← List.drop_drop, List.take_append_drop, List.take_append_drop]
  have hfirst : bs.take a = as.take a := by
    apply List.ext_getElem?
    intro i
    rw [List.getElem?_take, List.getElem?_take]
    split_ifs with hi
    · by_contra hne
      have := h i (Ne.symm hne)
      omega
    · rfl
  have hlast : bs.drop (a + n) = as.drop (a + n) := by
    apply List.ext_getElem?
    intro i
    rw [List.getElem?_drop, List.getElem?_drop]
    by_contra hne
    have := h _ (Ne.symm hne)
    omega
  refine ⟨as.take a, (as.drop a).take n, (bs.drop a).take n, as.drop (a + n), split as, ?_, ?_, ?_⟩
  · rw [← hfirst, ← hlast]
    exact split bs
  · simp only [List.length_take, List.length_drop, hlen]
  · exact List.length_take_le _ _

section Bursts

variable {n k : ℕ} (p : BitVec n)

/-- A register that keeps its last bit has a generator without the factor `X`. -/
theorem isCoprime_generator (hn : 0 < n) (hp : p.getMsbD 0 = true) : IsCoprime X (generator p) := by
  rw [Irreducible.coprime_iff_not_dvd irreducible_X, X_dvd_iff]
  unfold generator
  rw [coeff_add, coeff_X_pow, if_neg hn.ne, coeff_ofWord, hp]
  decide

/-- **No burst goes unnoticed.** Messages that differ in at most `n` consecutive bits leave different registers. -/
theorem burst (hk : k ≤ n) (hn : 0 < n) (hp : p.getMsbD 0 = true) {s : BitVec n} {ws ws' : List (BitVec k)}
    {u m m' v : List Bool} (hws : message ws = u ++ m ++ v) (hws' : message ws' = u ++ m' ++ v)
    (hlen : m.length = m'.length) (hm : m.length ≤ n) (hrun : run p s ws = run p s ws') : m = m' := by
  have hmk := mk_run p hk s ws
  rw [hrun, mk_run p hk s ws', hws, hws'] at hmk
  rw [AdjoinRoot.mk_eq_mk] at hmk
  -- what the messages share cancels
  have hdiff : X ^ (u ++ m' ++ v).length * ofWord s + X ^ n * ofBits (u ++ m' ++ v) -
      (X ^ (u ++ m ++ v).length * ofWord s + X ^ n * ofBits (u ++ m ++ v)) =
        X ^ (n + v.length) * (ofBits m' - ofBits m) := by
    simp only [ofBits_append, List.length_append, hlen]
    ring
  rw [hdiff] at hmk
  have hdvd : generator p ∣ ofBits m' - ofBits m :=
    ((isCoprime_generator p hn hp).symm.pow_right).dvd_of_dvd_mul_left hmk
  have hdeg : (ofBits m' - ofBits m).degree < (generator p).degree := by
    rw [degree_generator]
    refine (degree_sub_le _ _).trans_lt (max_lt ?_ ?_)
    · exact (degree_ofBits_lt m').trans_le (by rw [← hlen]; exact_mod_cast hm)
    · exact (degree_ofBits_lt m).trans_le (by exact_mod_cast hm)
  have hzero := eq_zero_of_dvd_of_degree_lt hdvd hdeg
  exact (ofBits_injective hlen.symm (sub_eq_zero.1 hzero)).symm

end Bursts

end Crc
