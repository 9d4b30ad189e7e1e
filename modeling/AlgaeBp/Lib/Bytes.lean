import Mathlib.Data.List.Basic
import Mathlib.Data.Nat.Bitwise
/-!
# Byte arrays and little-endian words

`Block n` is a C array of `n` bytes. `store` and `load` are `memcpy` into and
out of it at an offset; they answer `none` where the C code would leave the
array, so a program that never answers `none` stays inside its arrays.
-/
namespace Bytes

/-! ## Arrays -/

/-- A C array of `n` bytes. -/
@[ext]
structure Block (n : Nat) where
  bytes : List UInt8
  size : bytes.length = n
  deriving DecidableEq, Repr

variable {n : Nat}

def Block.fill (n : Nat) (b : UInt8) : Block n := ⟨List.replicate n b, List.length_replicate⟩

/-- `memcpy(p + off, src, len)`. -/
def Block.store (p : Block n) (off : Nat) (src : List UInt8) : Option (Block n) :=
  if h : off + src.length ≤ n then
    some ⟨p.bytes.take off ++ src ++ p.bytes.drop (off + src.length), by
      have := p.size
      simp only [List.length_append, List.length_take, List.length_drop]
      omega⟩
  else none

/-- `memcpy(dst, p + off, len)`. -/
def Block.load (p : Block n) (off len : Nat) : Option (List UInt8) :=
  if off + len ≤ n then some ((p.bytes.drop off).take len) else none

theorem store_some {p : Block n} {off : Nat} {src : List UInt8} (h : off + src.length ≤ n) :
    ∃ q, p.store off src = some q ∧
      q.bytes = p.bytes.take off ++ src ++ p.bytes.drop (off + src.length) := by
  unfold Block.store
  rw [dif_pos h]
  exact ⟨_, rfl, rfl⟩

theorem load_some {p : Block n} {off len : Nat} (h : off + len ≤ n) :
    p.load off len = some ((p.bytes.drop off).take len) := if_pos h

/-- What stands before the first `k` bytes of a store are over. -/
theorem take_store_add {p q : Block n} {off k : Nat} {src : List UInt8} (h : off + src.length ≤ n) (hk : k ≤ src.length)
    (hq : q.bytes = p.bytes.take off ++ src ++ p.bytes.drop (off + src.length)) :
    q.bytes.take (off + k) = p.bytes.take off ++ src.take k := by
  have hlen : (p.bytes.take off).length = off := by
    have := p.size
    rw [List.length_take]
    omega
  rw [hq, List.append_assoc, List.take_append, hlen, Nat.add_sub_cancel_left, List.take_append_of_le_length hk]
  rw [List.take_of_length_le (by omega)]

/-- What stands before the end of a store made right after the first `off` bytes. -/
theorem take_store {p q : Block n} {off : Nat} {src : List UInt8} (h : off + src.length ≤ n)
    (hq : q.bytes = p.bytes.take off ++ src ++ p.bytes.drop (off + src.length)) :
    q.bytes.take (off + src.length) = p.bytes.take off ++ src := by
  rw [take_store_add h (le_refl _) hq, List.take_length]

/-- What stands behind a store. -/
theorem drop_store {p q : Block n} {off : Nat} {src : List UInt8} (h : off + src.length ≤ n)
    (hq : q.bytes = p.bytes.take off ++ src ++ p.bytes.drop (off + src.length)) :
    q.bytes.drop (off + src.length) = p.bytes.drop (off + src.length) := by
  have hlen : (p.bytes.take off ++ src).length = off + src.length := by
    have := p.size
    rw [List.length_append, List.length_take]
    omega
  rw [hq, ← hlen, List.drop_left]

theorem load_append {p : Block n} {a x b : List UInt8} {off len : Nat} (h : p.bytes = a ++ (x ++ b)) (ha : a.length = off)
    (hx : x.length = len) : p.load off len = some x := by
  subst ha hx
  have hsize := p.size
  rw [h, List.length_append, List.length_append] at hsize
  rw [load_some (by omega), h, List.drop_left, List.take_left]

theorem store_append {p : Block n} {a x b src : List UInt8} {off : Nat} (h : p.bytes = a ++ (x ++ b)) (ha : a.length = off)
    (hx : x.length = src.length) : ∃ q, p.store off src = some q ∧ q.bytes = a ++ (src ++ b) := by
  subst ha
  have hsize := p.size
  rw [h, List.length_append, List.length_append] at hsize
  obtain ⟨q, hq, hbytes⟩ := store_some (p := p) (by omega : a.length + src.length ≤ n)
  refine ⟨q, hq, ?_⟩
  rw [hbytes, h, List.take_left, ← List.drop_drop, List.drop_left, ← hx, List.drop_left, List.append_assoc]

/-- One `NUL`. -/
theorem store_nul {p : Block n} {off : Nat} (hlt : off < n) :
    ∃ q, p.store off [0] = some q ∧ q.bytes = p.bytes.take off ++ 0 :: p.bytes.drop (off + 1) := by
  have hroom : off + [(0 : UInt8)].length ≤ n := hlt
  obtain ⟨q, hq, hbytes⟩ := store_some (p := p) hroom
  refine ⟨q, hq, ?_⟩
  rw [hbytes, List.append_assoc]
  rfl

/-- It stands where it was stored, and nothing else changes. -/
theorem nul_stored {p q : Block n} {off : Nat} (hle : off ≤ n)
    (hq : q.bytes = p.bytes.take off ++ 0 :: p.bytes.drop (off + 1)) :
    q.bytes.take off = p.bytes.take off ∧ q.bytes[off]? = some 0 ∧ q.bytes.drop (off + 1) = p.bytes.drop (off + 1) := by
  have hlen : (p.bytes.take off).length = off := by
    rw [List.length_take, p.size]
    exact Nat.min_eq_left hle
  refine ⟨?_, ?_, ?_⟩
  · rw [hq, List.take_left' hlen]
  · rw [hq, List.getElem?_append_right (Nat.le_of_eq hlen), hlen, Nat.sub_self]
    rfl
  · rw [hq, ← List.drop_drop, List.drop_left' hlen]
    rfl

/-! ## Little-endian words -/

/-- The two bytes of a 16-bit word, low byte first. -/
def le16 (v : UInt16) : List UInt8 := [v.toUInt8, (v >>> 8).toUInt8]

/-- The 16-bit word with low byte `lo` and high byte `hi`. -/
def word16 (lo hi : UInt8) : UInt16 := lo.toUInt16 ||| (hi.toUInt16 <<< 8)

/-- The number with the given little-endian bytes. -/
def leNat : List UInt8 → Nat
  | [] => 0
  | b :: bs => b.toNat + 256 * leNat bs

/-- The lowest `n` bytes of a number, low byte first. -/
def leBytes : Nat → Nat → List UInt8
  | 0, _ => []
  | n + 1, v => UInt8.ofNat v :: leBytes n (v / 256)

@[simp] theorem length_leBytes (n v : Nat) : (leBytes n v).length = n := by
  induction n generalizing v with
  | zero => rfl
  | succ n ih => rw [leBytes, List.length_cons, ih]

theorem leNat_lt (bs : List UInt8) : leNat bs < 256 ^ bs.length := by
  induction bs with
  | nil => exact Nat.one_pos
  | cons b bs ih =>
    have := b.toNat_lt
    rw [leNat, List.length_cons, Nat.pow_succ]
    omega

theorem leNat_leBytes {n v : Nat} (h : v < 256 ^ n) : leNat (leBytes n v) = v := by
  induction n generalizing v with
  | zero =>
    rw [Nat.pow_zero] at h
    show 0 = v
    omega
  | succ n ih =>
    have hdiv : v / 256 < 256 ^ n := by
      rw [Nat.div_lt_iff_lt_mul (by decide)]
      rwa [Nat.pow_succ] at h
    rw [leBytes, leNat, ih hdiv, UInt8.toNat_ofNat']
    omega

theorem leBytes_leNat (bs : List UInt8) : leBytes bs.length (leNat bs) = bs := by
  induction bs with
  | nil => rfl
  | cons b bs ih =>
    have hlt := b.toNat_lt
    have hlow : UInt8.ofNat (b.toNat + 256 * leNat bs) = b := by
      apply UInt8.toNat_inj.1
      rw [UInt8.toNat_ofNat']
      omega
    have hhigh : (b.toNat + 256 * leNat bs) / 256 = leNat bs := by omega
    rw [List.length_cons, leBytes, leNat, hlow, hhigh, ih]

theorem leBytes_or (n a b : Nat) : leBytes n (a ||| b) = List.zipWith (· ||| ·) (leBytes n a) (leBytes n b) := by
  induction n generalizing a b with
  | zero => rfl
  | succ n ih =>
    have hdiv : (a ||| b) / 256 = a / 256 ||| b / 256 := by
      have hshift := Nat.shiftRight_or_distrib (i := 8) (a := a) (b := b)
      simpa only [Nat.shiftRight_eq_div_pow] using hshift
    rw [leBytes, leBytes, leBytes, UInt8.ofNat_or, hdiv, ih]
    rfl

@[simp] theorem length_le16 (v : UInt16) : (le16 v).length = 2 := rfl

theorem toNat_word16 (lo hi : UInt8) : (word16 lo hi).toNat = lo.toNat + 256 * hi.toNat := by
  have h₁ := lo.toNat_lt
  have h₂ := hi.toNat_lt
  have hs : hi.toNat <<< 8 = 256 * hi.toNat := by rw [Nat.shiftLeft_eq]; omega
  have ho : lo.toNat ||| hi.toNat <<< 8 = lo.toNat + 256 * hi.toNat := by
    rw [Nat.or_comm, ← Nat.shiftLeft_add_eq_or_of_lt (by omega), hs]
    omega
  simp only [word16, UInt16.toNat_or, UInt16.toNat_shiftLeft, UInt8.toNat_toUInt16]
  have hm : hi.toNat <<< (UInt16.toNat 8 % 16) % 2 ^ 16 = hi.toNat <<< 8 := by
    rw [show UInt16.toNat 8 % 16 = 8 from rfl, hs]
    omega
  rw [hm, ho]

theorem word16_le16 (v : UInt16) : word16 v.toUInt8 (v >>> 8).toUInt8 = v := by
  apply UInt16.toNat_inj.1
  have := v.toNat_lt
  rw [toNat_word16]
  simp only [UInt16.toNat_toUInt8, UInt16.toNat_shiftRight]
  rw [show UInt16.toNat 8 % 16 = 8 from rfl, Nat.shiftRight_eq_div_pow]
  omega

theorem le16_word16 (lo hi : UInt8) : le16 (word16 lo hi) = [lo, hi] := by
  have h₁ := lo.toNat_lt
  have h₂ := hi.toNat_lt
  have hlo : (word16 lo hi).toUInt8 = lo := by
    apply UInt8.toNat_inj.1
    rw [UInt16.toNat_toUInt8, toNat_word16]
    omega
  have hhi : (word16 lo hi >>> 8).toUInt8 = hi := by
    apply UInt8.toNat_inj.1
    rw [UInt16.toNat_toUInt8, UInt16.toNat_shiftRight, toNat_word16,
      show UInt16.toNat 8 % 16 = 8 from rfl, Nat.shiftRight_eq_div_pow]
    omega
  rw [le16, hlo, hhi]

end Bytes
