import AlgaeBp.Ev.Code
/-!
# Times as numbers

The macros on seconds and nanoseconds, in nanoseconds. A comparison is that of
the numbers, for normalised times; a subtraction is exact if it does not
overflow; an addition is exact up to two wrap-arounds, that of the nanoseconds
and that of the seconds.
-/

namespace AlgaeBp.Ev

def Timespec.ns (t : Timespec) : Int := t.sec.toInt * 1000000000 + t.nsec.toInt

structure Timespec.Normal (t : Timespec) : Prop where
  low : 0 ≤ t.nsec.toInt
  high : t.nsec.toInt < 1000000000

/-- What `clock_gettime` answers. -/
structure Timespec.Reading (t : Timespec) : Prop extends Timespec.Normal t where
  sec : 0 ≤ t.sec.toInt

/-! ## 64-bit words -/

theorem toInt_toInt64 (u : UInt64) :
    u.toInt64.toInt = if u.toNat < 9223372036854775808 then (u.toNat : Int) else u.toNat - 18446744073709551616 := by
  have hcond := BitVec.toInt_eq_toNat_cond u.toBitVec
  change u.toInt64.toInt = if 2 * u.toNat < 18446744073709551616 then (u.toNat : Int) else _ at hcond
  rw [hcond]
  split
  · rw [if_pos (by omega)]
  · rw [if_neg (by omega)]
    rfl

theorem Int64.toInt_bounds (i : Int64) : -9223372036854775808 ≤ i.toInt ∧ i.toInt < 9223372036854775808 :=
  ⟨i.le_toInt, i.toInt_lt⟩

theorem toNat_toUInt64 (i : Int64) :
    (i.toUInt64.toNat : Int) = if 0 ≤ i.toInt then i.toInt else i.toInt + 18446744073709551616 := by
  have hround : i.toUInt64.toInt64 = i := Int64.toInt64_toUInt64 i
  have hlt : i.toUInt64.toNat < 18446744073709551616 := i.toUInt64.toNat_lt
  have hi := toInt_toInt64 i.toUInt64
  rw [hround] at hi
  split at hi
  · rw [hi, if_pos (by omega)]
  · rw [if_neg (by omega)]
    omega

/-! ## Comparing -/

section
variable {a b : Timespec}

theorem timesecCmp_neg (ha : a.Normal) (hb : b.Normal) : timesecCmp a b < 0 ↔ a.ns < b.ns := by
  obtain ⟨hal, hah⟩ := ha
  obtain ⟨hbl, hbh⟩ := hb
  unfold timesecCmp Timespec.ns
  simp only [Int64.lt_iff_toInt_lt]
  split_ifs <;> omega

theorem timesecCmp_nonpos (ha : a.Normal) (hb : b.Normal) : timesecCmp a b ≤ 0 ↔ a.ns ≤ b.ns := by
  obtain ⟨hal, hah⟩ := ha
  obtain ⟨hbl, hbh⟩ := hb
  unfold timesecCmp Timespec.ns
  simp only [Int64.lt_iff_toInt_lt]
  split_ifs <;> omega

end

theorem infinite_iff (t : Timespec) : t.infinite = true ↔ t.sec.toInt = -1 := by
  unfold Timespec.infinite
  rw [decide_eq_true_iff, ← UInt64.toNat_inj]
  have hlt := Int64.toInt_bounds t.sec
  have hsec := toNat_toUInt64 t.sec
  have hinf : aloeEvInfinite.toNat = 18446744073709551615 := rfl
  split at hsec <;> omega

/-! ## Adding -/

/-- Both wrap-arounds of a sum: of its nanoseconds, and of its seconds. -/
theorem timesecAdd_spec {p : Timespec} (hp : p.Reading) (sec nsec : UInt64) :
    let n := (p.nsec.toInt.toNat + nsec.toNat) % 18446744073709551616
    let d := (p.sec.toInt.toNat + sec.toNat + n / 1000000000) % 18446744073709551616
    (timesecAdd p sec nsec).Normal ∧ (timesecAdd p sec nsec).nsec.toInt = n % 1000000000 ∧
      (timesecAdd p sec nsec).sec.toInt = if d < 9223372036854775808 then (d : Int) else d - 18446744073709551616 := by
  intro n d
  obtain ⟨⟨hlow, hhigh⟩, hsec⟩ := hp
  have hps := toNat_toUInt64 p.sec
  have hpn := toNat_toUInt64 p.nsec
  rw [if_pos hsec] at hps
  rw [if_pos hlow] at hpn
  have hn : (p.nsec.toUInt64 + nsec).toNat = n := by
    rw [UInt64.toNat_add]
    change (p.nsec.toUInt64.toNat + nsec.toNat) % 18446744073709551616 = n
    omega
  have hle : (1000000000 ≤ p.nsec.toUInt64 + nsec) ↔ 1000000000 ≤ n := by
    rw [UInt64.le_iff_toNat_le, hn]
    rfl
  have hs : (p.sec.toUInt64 + sec).toNat = (p.sec.toInt.toNat + sec.toNat) % 18446744073709551616 := by
    rw [UInt64.toNat_add]
    change (p.sec.toUInt64.toNat + sec.toNat) % 18446744073709551616 = _
    omega
  have hdiv : (p.sec.toUInt64 + sec + (p.nsec.toUInt64 + nsec) / 1000000000).toNat = d := by
    rw [UInt64.toNat_add, UInt64.toNat_div, hn, hs]
    change ((p.sec.toInt.toNat + sec.toNat) % 18446744073709551616 + n / 1000000000) % 18446744073709551616 = d
    omega
  have hmod : ((p.nsec.toUInt64 + nsec) % 1000000000).toNat = n % 1000000000 := by
    rw [UInt64.toNat_mod, hn]
    rfl
  -- what the words stand for, whichever branch they come from
  have hsum : ∀ u v : UInt64, u.toNat = d → v.toNat = n % 1000000000 →
      (Timespec.mk u.toInt64 v.toInt64).Normal ∧ v.toInt64.toInt = n % 1000000000 ∧
        u.toInt64.toInt = if d < 9223372036854775808 then (d : Int) else d - 18446744073709551616 := by
    intro u v hu hv
    have hnsec := toInt_toInt64 v
    rw [hv, if_pos (by omega)] at hnsec
    refine ⟨⟨?_, ?_⟩, hnsec, ?_⟩
    · change 0 ≤ v.toInt64.toInt
      omega
    · change v.toInt64.toInt < 1000000000
      omega
    · rw [toInt_toInt64, hu]
  unfold timesecAdd
  simp only [hle]
  split
  · exact hsum _ _ hdiv hmod
  · exact hsum _ _ (by omega) (by omega)

end AlgaeBp.Ev
