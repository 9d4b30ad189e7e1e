import AlgaeBp.Rg10.Code
/-!
# The quarter-size picture

What the converters are for: each tile of four by four samples becomes a pixel,
made of three samples of the tile's upper left block, and each block of two by
two pixels has the chroma of its lower right pixel. Both converters draw this
picture, whichever instructions they are built with.
-/

namespace AlgaeBp.Rg10

open Raster Lanes

/-- The picture with the given pixels. -/
def picture (colour : Nat → Nat → Rgb UInt8) : Cell → UInt8
  | .rgb x y 0 => (colour x y).r
  | .rgb x y 1 => (colour x y).g
  | .rgb x y _ => (colour x y).b
  | .luma x y => UInt8.ofInt (yValue (colour x y).r (colour x y).g (colour x y).b)
  | .u x y =>
    let c := colour (2 * x + 1) (2 * y + 1)
    UInt8.ofInt (uValue c.r c.g c.b)
  | .v x y =>
    let c := colour (2 * x + 1) (2 * y + 1)
    UInt8.ofInt (vValue c.r c.g c.b)

/-- A frame of 16-bit words, of a size that the converters take. -/
structure Frame where
  width : Nat
  height : Nat
  stride : Nat
  rg10 : Nat → UInt8
  width_ge : 8 ≤ width
  height_ge : 8 ≤ height
  width_eight : width % 8 = 0
  height_eight : height % 8 = 0

/-- The pixel of a tile. -/
def Frame.colour (f : Frame) (gains : Option Gains) (x y : Nat) : Rgb UInt8 :=
  adjusted gains
    { r := rg10U8 (word f.rg10 (y * 4 * f.stride) (x * 4))
      g := rg10U8 (word f.rg10 (y * 4 * f.stride) (x * 4 + 1))
      b := rg10U8 (word f.rg10 (y * 4 * f.stride + f.stride) (x * 4 + 1)) }

def Frame.canvas (f : Frame) (i420 rgb : Bool) : Canvas := ⟨f.width / 4, f.height / 4, i420, rgb⟩

/-! ## Ranges -/

theorem tdiv_range (a : Int) (lo hi : Nat) (hlo : -(256 * lo : Int) ≤ a) (hhi : a < 256 * (hi + 1)) :
    -(lo : Int) ≤ a.tdiv 256 ∧ a.tdiv 256 ≤ hi := by
  by_cases ha : 0 ≤ a
  · rw [Int.tdiv_eq_ediv_of_nonneg ha]
    omega
  · rw [← Int.neg_neg a, Int.neg_tdiv, Int.tdiv_eq_ediv_of_nonneg (by omega)]
    omega

theorem uValue_range (r g b : UInt8) : 0 ≤ uValue r g b ∧ uValue r g b ≤ 255 := by
  have hr := r.toNat_lt
  have hg := g.toNat_lt
  have hb := b.toNat_lt
  have h := tdiv_range (-38 * r.toNat - 74 * g.toNat + 112 * b.toNat + 128) 112 112 (by omega) (by omega)
  unfold uValue
  omega

theorem vValue_range (r g b : UInt8) : 0 ≤ vValue r g b ∧ vValue r g b ≤ 255 := by
  have hr := r.toNat_lt
  have hg := g.toNat_lt
  have hb := b.toNat_lt
  have h := tdiv_range (112 * r.toNat - 94 * g.toNat - 18 * b.toNat + 128) 112 112 (by omega) (by omega)
  unfold vValue
  omega

theorem clampU8_eq {v : Int} (h : 0 ≤ v ∧ v ≤ 255) : clampU8 v = v := by
  rw [clampU8, if_neg (by omega), if_neg (by omega)]

theorem toNat_yValue (r g b : UInt8) :
    (UInt8.ofInt (yValue r g b)).toNat = (66 * r.toNat + 129 * g.toNat + 25 * b.toNat + 128) / 256 + 16 := by
  have hr := r.toNat_lt
  have hg := g.toNat_lt
  have hb := b.toNat_lt
  have hnat : yValue r g b = ((66 * r.toNat + 129 * g.toNat + 25 * b.toNat + 128) / 256 + 16 : Nat) := by
    rw [yValue, Int.tdiv_eq_ediv_of_nonneg (by omega)]
    push_cast
    rfl
  rw [hnat, UInt8.ofInt, UInt8.toNat_ofNat']
  omega

/-! ## Lanes -/

/-- Pixel `i` of eight. -/
def Rgb.lane (c : Rgb (Vec 8 UInt8)) (i : Fin 8) : Rgb UInt8 := ⟨c.r i, c.g i, c.b i⟩

/-- The sums of NEON stay in 16 bits. -/
theorem rgbYNeon8_apply (r g b : Vec 8 UInt8) (i : Fin 8) :
    rgbYNeon8 r g b i = UInt8.ofInt (yValue (r i) (g i) (b i)) := by
  have hr := (r i).toNat_lt
  have hg := (g i).toNat_lt
  have hb := (b i).toNat_lt
  apply UInt8.toNat_inj.1
  simp only [rgbYNeon8, toNat_vmovnU16, toNat_vaddU16, toNat_vshrNU16, toNat_vmlalU8, toNat_vmullU8, vdupU8_apply,
    vdupU16_apply, UInt8.reduceToNat, UInt16.reduceToNat, Nat.reduceMod, Nat.reducePow, toNat_yValue]
  simp (disch := omega) only [Nat.mod_eq_of_lt]
  omega

/-- The instructions of `aloe_rg10_rgb8_i420_v6` for the same. -/
theorem v6Luma_apply (c : Rgb (Vec 8 UInt8)) (i : Fin 8) :
    vaddU8 (vshrnNU16 (vaddU16 (vmlalU8 (vmlalU8 (vmullU8 c.r (vdupU8 66)) c.g (vdupU8 129)) c.b (vdupU8 25))
      (vdupU16 128)) 8) (vdupU8 16) i = UInt8.ofInt (yValue (c.r i) (c.g i) (c.b i)) := by
  have hr := (c.r i).toNat_lt
  have hg := (c.g i).toNat_lt
  have hb := (c.b i).toNat_lt
  apply UInt8.toNat_inj.1
  simp only [toNat_vaddU8, toNat_vshrnNU16, toNat_vaddU16, toNat_vmlalU8, toNat_vmullU8, vdupU8_apply,
    vdupU16_apply, UInt8.reduceToNat, UInt16.reduceToNat, Nat.reduceMod, Nat.reducePow, toNat_yValue]
  simp (disch := omega) only [Nat.mod_eq_of_lt]
  omega

/-- The sums of SSE2 stay in 16 bits, too. -/
theorem toNat_sseSum {vr vg vb : M128} {r g b : UInt8} {i : Fin 8} (hr : (epi16 vr i).toNat = r.toNat)
    (hg : (epi16 vg i).toNat = g.toNat) (hb : (epi16 vb i).toNat = b.toNat) :
    (epi16 (addEpi16 (srliEpi16 (addEpi16 (addEpi16 (addEpi16 (mulloEpi16 vr (set1Epi16 66)) (mulloEpi16 vg (set1Epi16 129)))
      (mulloEpi16 vb (set1Epi16 25))) (set1Epi16 128)) 8) (set1Epi16 16)) i).toNat = (UInt8.ofInt (yValue r g b)).toNat := by
  have hr' := r.toNat_lt
  have hg' := g.toNat_lt
  have hb' := b.toNat_lt
  simp only [epi16_addEpi16, epi16_mulloEpi16, epi16_srliEpi16, epi16_set1Epi16, UInt16.toNat_add, UInt16.toNat_mul,
    UInt16.toNat_shiftRight, hr, hg, hb, UInt16.reduceToNat, Nat.reduceMod, Nat.shiftRight_eq_div_pow, Nat.reducePow,
    toNat_yValue]
  simp (disch := omega) only [Nat.mod_eq_of_lt]
  omega

theorem rgbYSse28_apply (r g b : Vec 8 UInt8) (i : Fin 8) :
    rgbYSse28 r g b i = UInt8.ofInt (yValue (r i) (g i) (b i)) := by
  have hsum := toNat_sseSum (toNat_epi16_unpacklo r i) (toNat_epi16_unpacklo g i) (toNat_epi16_unpacklo b i)
  apply UInt8.toNat_inj.1
  rw [← hsum]
  apply toNat_storel_packus
  rw [hsum]
  exact Nat.le_of_lt_succ (UInt8.toNat_lt _)

theorem rgbY8_apply (build : Build) (c : Rgb (Vec 8 UInt8)) (i : Fin 8) :
    rgbY8 build c i = UInt8.ofInt (yValue (c.r i) (c.g i) (c.b i)) := by
  cases build with
  | neon => exact rgbYNeon8_apply c.r c.g c.b i
  | scalar | sse2 => exact rgbYSse28_apply c.r c.g c.b i

/-! ## Loads -/

variable {rg10 : Nat → UInt8} {width row first : Nat}

theorem toNat_word (i : Nat) :
    (word rg10 row i).toNat = (rg10 (row + 2 * i)).toNat + 256 * (rg10 (row + 2 * i + 1)).toNat := by
  have hlo := (rg10 (row + 2 * i)).toNat_lt
  have hhi := (rg10 (row + 2 * i + 1)).toNat_lt
  rw [word, UInt16.toNat_ofNat']
  omega

theorem toNat_rg10U8 (v : UInt16) : (rg10U8 v).toNat = v.toNat / 4 % 256 := by
  have hmask := Nat.and_two_pow_sub_one_eq_mod (v.toNat / 4) 8
  rw [rg10U8, UInt8.toNat_ofNat', show 255 = 2 ^ 8 - 1 from rfl, hmask]
  omega

/-- A de-interleaving load, shifted and narrowed. -/
theorem neonChannel_apply (k : Fin 4) (i : Fin 8) :
    vmovnU16 (vshrNU16 (vld4 (fun j : Fin (4 * 8) => word rg10 row (first + j.val)) k) 2) i =
      rg10U8 (word rg10 row (first + (4 * i.val + k.val))) := by
  apply UInt8.toNat_inj.1
  simp only [toNat_vmovnU16, toNat_vshrNU16, vld4, toNat_rg10U8, UInt16.reduceToNat, Nat.reduceMod, Nat.reducePow]

/-- The double words that `rg10_v6_pairs` picks: every other one. -/
theorem epi32_pairs (src : Nat → UInt8) : ∀ j : Fin 4,
    epi32 (unpackloEpi64 (shuffleEpi32 (fun i => src i.val) (mmShuffle 2 0 2 0))
      (shuffleEpi32 (fun i => src (16 + i.val)) (mmShuffle 2 0 2 0))) j =
    UInt32.ofNat ((src (2 * (4 * j.val))).toNat + 256 * (src (2 * (4 * j.val) + 1)).toNat +
      65536 * (src (2 * (4 * j.val + 1))).toNat + 16777216 * (src (2 * (4 * j.val + 1) + 1)).toNat)
  | 0 => rfl
  | 1 => rfl
  | 2 => rfl
  | 3 => rfl

theorem rg10V6Pairs_spec (rg10 : Nat → UInt8) (row : Nat) (h : first + 16 ≤ width) :
    ∃ v, rg10V6Pairs rg10 width row first = some v ∧ ∀ j : Fin 4, (epi32 v j).toNat =
      (word rg10 row (first + 4 * j.val)).toNat + 65536 * (word rg10 row (first + (4 * j.val + 1))).toNat := by
  have hsecond : loaduSi128 rg10 width row (first + 8) = some fun i => rg10 (row + 2 * first + (16 + i.val)) := by
    rw [loaduSi128, if_pos (by omega)]
    exact congrArg some (funext fun i => congrArg rg10 (by omega))
  refine ⟨_, by rw [rg10V6Pairs, loaduSi128, if_pos (by omega), hsecond]; rfl, fun j => ?_⟩
  have hword : ∀ k, (word rg10 row (first + k)).toNat =
      (rg10 (row + 2 * first + 2 * k)).toNat + 256 * (rg10 (row + 2 * first + (2 * k + 1))).toNat := by
    intro k
    rw [toNat_word, show row + 2 * (first + k) = row + 2 * first + 2 * k by omega]
    rfl
  rw [epi32_pairs (fun k => rg10 (row + 2 * first + k)) j, UInt32.toNat_ofNat']
  have h₀ := (word rg10 row (first + 4 * j.val)).toNat_lt
  have h₁ := (word rg10 row (first + (4 * j.val + 1))).toNat_lt
  rw [hword] at h₀ h₁ ⊢
  rw [hword]
  omega

/-- The channel that `rg10_v6_channel` makes of lanes whose samples are at bit `shift`. -/
theorem rg10V6Channel_apply {a b : M128} {shift : UInt32} (i : Fin 8) :
    (storelEpi64 (rg10V6Channel a b shift) i).toNat = (epi32Pair a b i).toNat / 2 ^ (shift.toNat % 32) % 256 := by
  have hlow : ∀ (v : M128) (j : Fin 4), (epi32 (andSi128 (srlEpi32 v shift) (set1Epi32 255)) j).toNat =
      (epi32 v j).toNat / 2 ^ (shift.toNat % 32) % 256 := by
    intro v j
    rw [srlEpi32, toNat_epi32_low, UInt32.toNat_shiftRight, Nat.shiftRight_eq_div_pow]
  have hpair : (epi32Pair (andSi128 (srlEpi32 a shift) (set1Epi32 255)) (andSi128 (srlEpi32 b shift) (set1Epi32 255))
      i).toNat = (epi32Pair a b i).toNat / 2 ^ (shift.toNat % 32) % 256 := by
    unfold epi32Pair
    split
    · exact hlow a _
    · exact hlow b _
  have hle : (epi32Pair (andSi128 (srlEpi32 a shift) (set1Epi32 255)) (andSi128 (srlEpi32 b shift) (set1Epi32 255))
      i).toNat ≤ 255 := by
    rw [hpair]
    omega
  rw [rg10V6Channel, toNat_storel_packus, toNat_epi16_packs hle, hpair]
  rw [toNat_epi16_packs hle]
  exact hle

/-- Sixteen double words deal out eight samples of each of two channels. -/
theorem sseChannels_spec (rg10 : Nat → UInt8) (row : Nat) (h : first + 32 ≤ width) :
    ∃ a b, rg10V6Pairs rg10 width row first = some a ∧ rg10V6Pairs rg10 width row (first + 16) = some b ∧
      (∀ i, storelEpi64 (rg10V6Channel a b 2) i = rg10U8 (word rg10 row (first + 4 * i.val))) ∧
      ∀ i, storelEpi64 (rg10V6Channel a b 18) i = rg10U8 (word rg10 row (first + (4 * i.val + 1))) := by
  obtain ⟨a, ha, hav⟩ := rg10V6Pairs_spec rg10 row (by omega : first + 16 ≤ width)
  obtain ⟨b, hb, hbv⟩ := rg10V6Pairs_spec rg10 row (by omega : first + 16 + 16 ≤ width)
  have hlane : ∀ i : Fin 8, (epi32Pair a b i).toNat =
      (word rg10 row (first + 4 * i.val)).toNat + 65536 * (word rg10 row (first + (4 * i.val + 1))).toNat := by
    intro i
    unfold epi32Pair
    split
    · exact hav _
    · rw [hbv]
      simp only [show first + 16 + 4 * (i.val - 4) = first + 4 * i.val by omega,
        show first + 16 + (4 * (i.val - 4) + 1) = first + (4 * i.val + 1) by omega]
  -- the lower word is shifted out, or the upper one is masked
  refine ⟨a, b, ha, hb, fun i => ?_, fun i => ?_⟩
  · apply UInt8.toNat_inj.1
    rw [rg10V6Channel_apply, hlane, toNat_rg10U8]
    simp only [UInt32.reduceToNat, Nat.reduceMod, Nat.reducePow]
    omega
  · have hlo := (word rg10 row (first + 4 * i.val)).toNat_lt
    apply UInt8.toNat_inj.1
    rw [rg10V6Channel_apply, hlane, toNat_rg10U8]
    simp only [UInt32.reduceToNat, Nat.reduceMod, Nat.reducePow]
    omega

/-! ## Parts of the picture -/

section Parts

variable {s : Canvas} {colour : Nat → Nat → Rgb UInt8} {x y base : Nat}

/-- The bytes that come of a pixel. -/
def pixelPlaces (x y : Nat) : Set Place :=
  {p | p = .rgb x y ∨ p = .luma x y ∨ (p = .chroma (x / 2) (y / 2) ∧ x % 2 = 1 ∧ y % 2 = 1)}

@[simp] theorem rgb_mem_pixelPlaces {x' y' : Nat} : .rgb x' y' ∈ pixelPlaces x y ↔ x' = x ∧ y' = y := by
  simp [pixelPlaces]

@[simp] theorem luma_mem_pixelPlaces {x' y' : Nat} : .luma x' y' ∈ pixelPlaces x y ↔ x' = x ∧ y' = y := by
  simp [pixelPlaces]

@[simp] theorem chroma_mem_pixelPlaces {x' y' : Nat} : .chroma x' y' ∈ pixelPlaces x y ↔
    x = 2 * x' + 1 ∧ y = 2 * y' + 1 := by
  simp only [pixelPlaces, Set.mem_ofPred_eq, reduceCtorEq, false_or, Place.chroma.injEq]
  omega

theorem rgb_puts {c : Rgb UInt8} (hx : x < s.width) (hy : y < s.height) (hbase : base = (y * s.width + x) * 3)
    (hc : c = colour x y) (hs : s.rgb = true) : Puts s (putRgb base c.r c.g c.b) {.rgb x y} (picture colour) := by
  subst hc
  exact puts_rgb hx hy hbase rfl rfl rfl hs

theorem luma_puts {c : Rgb UInt8} (hx : x < s.width) (hy : y < s.height) (hbase : base = y * s.width + x)
    (hc : c = colour x y) (hs : s.i420 = true) :
    Puts s (putI420 base (UInt8.ofInt (yValue c.r c.g c.b))) {.luma x y} (picture colour) := by
  subst hc
  exact puts_luma hx hy hbase rfl hs

/-- The chroma of an odd pixel in an odd row. -/
theorem chroma_puts {c : Rgb UInt8} {ud vd : Nat} (hx : x < s.width) (hy : y < s.height) (hxo : x % 2 = 1) (hyo : y % 2 = 1)
    (hu : ud = s.width * s.height + y / 2 * (s.width / 2))
    (hv : vd = s.width * s.height + s.width / 2 * (s.height / 2) + y / 2 * (s.width / 2))
    (hc : c = colour x y) (hs : s.i420 = true) :
    Puts s (putI420 (ud + x / 2) (UInt8.ofInt (uValue c.r c.g c.b)) ++
      putI420 (vd + x / 2) (UInt8.ofInt (vValue c.r c.g c.b)))
      {.chroma (x / 2) (y / 2)} (picture colour) := by
  have hx2 : 2 * (x / 2) + 1 = x := by omega
  have hy2 : 2 * (y / 2) + 1 = y := by omega
  subst hu hv hc
  refine puts_chroma (by omega) (by omega) (Nat.add_assoc _ _ _) (Nat.add_assoc _ _ _) ?_ ?_ hs
  · simp only [picture, hx2, hy2]
  · simp only [picture, hx2, hy2]

variable {v : Rgb (Vec 8 UInt8)}

theorem putRgb8_puts (hx : x + 8 ≤ s.width) (hy : y < s.height) (hbase : base = y * s.width * 3)
    (hv : ∀ i, v.lane i = colour (x + i.val) y) (hs : s.rgb = true) :
    Puts s (putRgb8 base x v) {p | ∃ i < 8, p = .rgb (x + i) y} (picture colour) := by
  refine (Puts.lanes fun i => rgb_puts (by omega : x + i.val < s.width) hy ?_ (hv i) hs).congr (fun c _ => ?_)
    (fun _ _ _ => rfl)
  · rw [hbase]
    ring
  · simp [Fin.exists_iff]

theorem putY8_puts {luma : Vec 8 UInt8} (hx : x + 8 ≤ s.width) (hy : y < s.height) (hbase : base = y * s.width)
    (hv : ∀ i, v.lane i = colour (x + i.val) y) (hluma : ∀ i, luma i = UInt8.ofInt (yValue (v.r i) (v.g i) (v.b i)))
    (hs : s.i420 = true) : Puts s (putY8 (base + x) luma) {p | ∃ i < 8, p = .luma (x + i) y} (picture colour) := by
  have hlane : ∀ i : Fin 8, Puts s (putI420 (base + x + i.val) (luma i)) {.luma (x + i.val) y} (picture colour) := by
    intro i
    rw [hluma]
    exact luma_puts (c := v.lane i) (by omega) hy (by omega) (hv i) hs
  refine (Puts.lanes hlane).congr (fun c _ => ?_) (fun _ _ _ => rfl)
  simp [Fin.exists_iff]

theorem mem_oddLanes {i : Fin 8} : i ∈ oddLanes ↔ i.val % 2 = 1 := by
  revert i
  decide

theorem oddLanes_puts {ud vd : Nat} (hxe : x % 2 = 0) (hx : x + 8 ≤ s.width) (hy : y < s.height) (hyo : y % 2 = 1)
    (hu : ud = s.width * s.height + y / 2 * (s.width / 2))
    (hv : vd = s.width * s.height + s.width / 2 * (s.height / 2) + y / 2 * (s.width / 2))
    (hlane : ∀ i, v.lane i = colour (x + i.val) y) (hs : s.i420 = true) :
    Puts s (oddLanes.flatMap fun i =>
        putI420 (ud + (x + i.val) / 2) (UInt8.ofInt (uValue (v.r i) (v.g i) (v.b i))) ++
        putI420 (vd + (x + i.val) / 2) (UInt8.ofInt (vValue (v.r i) (v.g i) (v.b i))))
      {p | ∃ i < 8, p = .chroma ((x + i) / 2) (y / 2) ∧ (x + i) % 2 = 1} (picture colour) := by
  have hpart : ∀ i ∈ oddLanes, Puts s
      (putI420 (ud + (x + i.val) / 2) (UInt8.ofInt (uValue (v.r i) (v.g i) (v.b i))) ++
        putI420 (vd + (x + i.val) / 2) (UInt8.ofInt (vValue (v.r i) (v.g i) (v.b i))))
      {.chroma ((x + i.val) / 2) (y / 2)} (picture colour) := by
    intro i hi
    have hodd := mem_oddLanes.1 hi
    exact chroma_puts (c := v.lane i) (by omega) hy (by omega) hyo hu hv (hlane i) hs
  refine (Puts.flatMap hpart).congr (fun c _ => ?_) (fun _ _ _ => rfl)
  simp only [Set.mem_ofPred_eq, Set.mem_singleton_iff, mem_oddLanes, Fin.exists_iff]
  constructor
  · rintro ⟨i, hi, hodd, hc⟩
    exact ⟨i, hi, hc, by omega⟩
  · rintro ⟨i, hi, hc, hodd⟩
    exact ⟨i, hi, by omega, hc⟩

end Parts

/-! ## `aloe_rg10_rgb8_i420_v5` -/

variable {f : Frame} {rgb i420 : Bool} {x y : Nat}

theorem Frame.outW_even (f : Frame) : f.width / 4 % 2 = 0 := by
  have h := f.width_eight
  omega

theorem Frame.outH_even (f : Frame) : f.height / 4 % 2 = 0 := by
  have h := f.height_eight
  omega

theorem quarter_area {w h : Nat} (hw : w % 2 = 0) (hh : h % 2 = 0) : w * h / 4 = w / 2 * (h / 2) := by
  obtain ⟨a, rfl⟩ : ∃ a, w = 2 * a := ⟨w / 2, by omega⟩
  obtain ⟨b, rfl⟩ : ∃ b, h = 2 * b := ⟨h / 2, by omega⟩
  rw [Nat.mul_div_cancel_left _ Nat.two_pos, Nat.mul_div_cancel_left _ Nat.two_pos,
    show 2 * a * (2 * b) = a * b * 4 by ring, Nat.mul_div_cancel _ (by omega)]

theorem v5Rows_eq (f : Frame) (y : Nat) :
    v5Rows f.width f.height f.stride y =
      { row0 := y * 4 * f.stride
        row1 := y * 4 * f.stride + f.stride
        row4 := (y + 1) * 4 * f.stride
        row5 := (y + 1) * 4 * f.stride + f.stride
        rgb0 := y * (f.width / 4) * 3
        rgb1 := (y + 1) * (f.width / 4) * 3
        y0 := y * (f.width / 4)
        y1 := (y + 1) * (f.width / 4)
        u := f.width / 4 * (f.height / 4) + y / 2 * (f.width / 4 / 2)
        v := f.width / 4 * (f.height / 4) + f.width / 4 / 2 * (f.height / 4 / 2) + y / 2 * (f.width / 4 / 2) } := by
  simp only [v5Rows, quarter_area f.outW_even f.outH_even, V5Rows.mk.injEq, true_and, and_true]
  refine ⟨?_, ?_, ?_, ?_, ?_, ?_⟩ <;> ring

theorem v5Column_puts (hx : x < f.width / 4) (hy : 2 * y < f.height / 4) :
    Puts (f.canvas i420 rgb) (v5Column f.rg10 (v5Rows f.width f.height f.stride (2 * y)) rgb i420 x)
      (pixelPlaces x (2 * y) ∪ pixelPlaces x (2 * y + 1)) (picture (f.colour none)) := by
  have hy' : 2 * y + 1 < f.height / 4 := by
    have h := f.outH_even
    omega
  rw [v5Rows_eq]
  simp only [v5Column, clampU8_eq (uValue_range _ _ _), clampU8_eq (vValue_range _ _ _)]
  refine (Puts.append
    (Puts.ifRgb (P := {.rgb x (2 * y)} ∪ {.rgb x (2 * y + 1)}) rfl (fun hs => ?_) (by simp) (by simp))
    (Puts.ifI420 (P := {.luma x (2 * y)} ∪ {.luma x (2 * y + 1)} ∪
      {p | p ∈ ({.chroma (x / 2) ((2 * y + 1) / 2)} : Set Place) ∧ x % 2 = 1}) rfl (fun hs => ?_) (by simp))).congr
    (fun c _ => ?_) (fun _ _ _ => rfl)
  · refine Puts.append ?_ ?_
    · exact rgb_puts (c := f.colour none x (2 * y)) hx hy (by simp only [Frame.canvas]; ring) rfl hs
    · exact rgb_puts (c := f.colour none x (2 * y + 1)) hx hy' (by simp only [Frame.canvas]; ring) rfl hs
  · refine Puts.append (Puts.append ?_ ?_) (Puts.when fun hodd => ?_)
    · exact luma_puts (c := f.colour none x (2 * y)) hx hy rfl rfl hs
    · exact luma_puts (c := f.colour none x (2 * y + 1)) hx hy' rfl rfl hs
    · exact chroma_puts (c := f.colour none x (2 * y + 1)) hx hy' hodd (by omega)
        (by simp only [Frame.canvas]; congr 2; omega)
        (by simp only [Frame.canvas]; congr 2; omega) rfl hs
  · cases c with
    | rgb _ _ _ | luma _ _ =>
      simp only [Cell.place, Set.mem_union, Set.mem_singleton_iff, Set.mem_ofPred_eq, Place.rgb.injEq, Place.luma.injEq,
        reduceCtorEq, or_false, false_or, false_and, rgb_mem_pixelPlaces, luma_mem_pixelPlaces]
    | u _ _ | v _ _ =>
      simp only [Cell.place, Set.mem_union, Set.mem_singleton_iff, Set.mem_ofPred_eq, Place.chroma.injEq, reduceCtorEq,
        or_false, false_or, chroma_mem_pixelPlaces]
      omega

/-- Eight pixels of a row. -/
def Frame.lanes (f : Frame) (x y : Nat) : Rgb (Vec 8 UInt8) where
  r i := rg10U8 (word f.rg10 (y * 4 * f.stride) (x * 4 + i.val * 4))
  g i := rg10U8 (word f.rg10 (y * 4 * f.stride) (x * 4 + i.val * 4 + 1))
  b i := rg10U8 (word f.rg10 (y * 4 * f.stride + f.stride) (x * 4 + i.val * 4 + 1))

theorem Frame.lane_lanes (f : Frame) (x y : Nat) (i : Fin 8) : (f.lanes x y).lane i = f.colour none (x + i.val) y := by
  rw [Frame.colour, Nat.add_mul]
  rfl

theorem v5Vector_puts {build : Build} (hx : 8 * x + 8 ≤ f.width / 4) (hy : 2 * y < f.height / 4) :
    Puts (f.canvas i420 rgb) (v5Vector build f.rg10 (v5Rows f.width f.height f.stride (2 * y)) rgb i420 (8 * x))
      {p | ∃ i < 8, p ∈ pixelPlaces (8 * x + i) (2 * y) ∪ pixelPlaces (8 * x + i) (2 * y + 1)}
      (picture (f.colour none)) := by
  have hy' : 2 * y + 1 < f.height / 4 := by
    have h := f.outH_even
    omega
  have hrow : 2 * y / 2 = (2 * y + 1) / 2 := by omega
  have h₀ := f.lane_lanes (8 * x) (2 * y)
  have h₁ := f.lane_lanes (8 * x) (2 * y + 1)
  rw [v5Rows_eq, hrow]
  simp only [v5Vector, clampU8_eq (uValue_range _ _ _), clampU8_eq (vValue_range _ _ _)]
  refine (Puts.append
    (Puts.ifRgb (P := {p | ∃ i < 8, p = .rgb (8 * x + i) (2 * y)} ∪ {p | ∃ i < 8, p = .rgb (8 * x + i) (2 * y + 1)}) rfl
      (fun hs => ?_) (by simp) (by simp))
    (Puts.ifI420 (P := {p | ∃ i < 8, p = .luma (8 * x + i) (2 * y)} ∪ {p | ∃ i < 8, p = .luma (8 * x + i) (2 * y + 1)} ∪
      {p | ∃ i < 8, p = .chroma ((8 * x + i) / 2) ((2 * y + 1) / 2) ∧ (8 * x + i) % 2 = 1}) rfl
      (fun hs => ?_) (by simp))).congr
    (fun c _ => ?_) (fun _ _ _ => rfl)
  · exact (putRgb8_puts hx hy rfl h₀ hs).append (putRgb8_puts hx hy' rfl h₁ hs)
  · refine Puts.append (Puts.append ?_ ?_) ?_
    · exact putY8_puts hx hy rfl h₀ (rgbY8_apply build _) hs
    · exact putY8_puts hx hy' rfl h₁ (rgbY8_apply build _) hs
    · exact oddLanes_puts (v := f.lanes (8 * x) (2 * y + 1)) (by omega) hx hy' (by omega) rfl rfl h₁ hs
  · cases c with
    | rgb _ _ _ | luma _ _ | u _ _ | v _ _ =>
      simp only [Cell.place, Set.mem_union, Set.mem_ofPred_eq, Place.rgb.injEq, Place.luma.injEq,
        Place.chroma.injEq, reduceCtorEq, or_false, false_or, and_false, false_and, exists_false, rgb_mem_pixelPlaces,
        luma_mem_pixelPlaces, chroma_mem_pixelPlaces, ← exists_or]
      apply exists_congr
      intro i
      omega

theorem vectorCols_cases (build : Build) (w : Nat) :
    vectorCols build w = [] ∨ (0 < 8 ∧ vectorCols build w = loop 0 (w + 1 - 8) 8) := by
  cases build with
  | scalar => exact .inl rfl
  | neon | sse2 => exact .inr ⟨by omega, rfl⟩

theorem pixels_cover {c : Cell} {i420 rgb : Bool} (hc : c.On (f.canvas i420 rgb)) :
    ∃ x y, x < f.width / 4 ∧ y < f.height / 4 ∧ c.place ∈ pixelPlaces x y := by
  have hw := f.outW_even
  have hh := f.outH_even
  cases c with
  | rgb x y k => exact ⟨x, y, hc.2.1, hc.2.2.1, rgb_mem_pixelPlaces.2 ⟨rfl, rfl⟩⟩
  | luma x y => exact ⟨x, y, hc.2.1, hc.2.2, luma_mem_pixelPlaces.2 ⟨rfl, rfl⟩⟩
  | u x y | v x y =>
    obtain ⟨-, hx, hy⟩ := hc
    simp only [Frame.canvas] at hx hy
    exact ⟨2 * x + 1, 2 * y + 1, by omega, by omega, chroma_mem_pixelPlaces.2 ⟨rfl, rfl⟩⟩

theorem v5_draws (build : Build) (f : Frame) (rgb i420 : Bool) :
    Draws (f.canvas i420 rgb) (aloeRg10Rgb8I420V5 build f.width f.height f.stride f.rg10 rgb i420)
      (picture (f.colour none)) := by
  have hsize := f.width_ge
  have hsize' := f.height_ge
  have height := f.width_eight
  have height' := f.height_eight
  rw [aloeRg10Rgb8I420V5, if_neg (by omega)]
  refine (Puts.steps Nat.two_pos fun y hy => Puts.vectorTail (vectorCols_cases build (f.width / 4))
    (fun x hx => v5Vector_puts hx hy) (fun x hx => v5Column_puts hx hy)).draws (fun c hc => ?_)
  obtain ⟨x, y, hx, hy, hcp⟩ := pixels_cover hc
  refine ⟨y / 2, by omega, x, hx, ?_⟩
  rcases Nat.mod_two_eq_zero_or_one y with h | h
  · exact .inl (by rwa [show 2 * (y / 2) = y by omega])
  · exact .inr (by rwa [show 2 * (y / 2) + 1 = y by omega])

/-! ## `aloe_rg10_rgb8_i420_v6` -/

variable {gains : Option Gains}

theorem v6Row_eq (f : Frame) (y : Nat) :
    v6Row f.width f.height f.stride y =
      { row0 := y * 4 * f.stride
        row1 := y * 4 * f.stride + f.stride
        dst := y * (f.width / 4) * 3
        yd := y * (f.width / 4)
        ud := f.width / 4 * (f.height / 4) + y / 2 * (f.width / 4 / 2)
        vd := f.width / 4 * (f.height / 4) + f.width / 4 / 2 * (f.height / 4 / 2) + y / 2 * (f.width / 4 / 2) } := by
  rw [v6Row, quarter_area f.outW_even f.outH_even]

theorem v6Column_puts (hx : x < f.width / 4) (hy : y < f.height / 4) :
    Puts (f.canvas i420 rgb) (v6Column f.rg10 (v6Row f.width f.height f.stride y) rgb i420 gains y x) (pixelPlaces x y)
      (picture (f.colour gains)) := by
  rw [v6Row_eq]
  refine (Puts.append (Puts.ifRgb (P := {.rgb x y}) rfl (fun hs => ?_) (by simp) (by simp))
    (Puts.ifI420 (P := {.luma x y} ∪ {p | p ∈ ({.chroma (x / 2) (y / 2)} : Set Place) ∧ y % 2 = 1 ∧ x % 2 = 1}) rfl
      (fun hs => ?_) (by simp))).congr (fun c _ => ?_) (fun _ _ _ => rfl)
  · exact rgb_puts (c := f.colour gains x y) hx hy (by simp only [Frame.canvas]; ring) rfl hs
  · refine Puts.append ?_ (Puts.when fun hodd => ?_)
    · exact luma_puts (c := f.colour gains x y) hx hy rfl rfl hs
    · exact chroma_puts (c := f.colour gains x y) hx hy hodd.2 hodd.1 rfl rfl rfl hs
  · cases c with
    | rgb _ _ _ | luma _ _ =>
      simp only [Cell.place, Set.mem_union, Set.mem_singleton_iff, Set.mem_ofPred_eq, Place.rgb.injEq, Place.luma.injEq,
        reduceCtorEq, or_false, false_or, false_and, rgb_mem_pixelPlaces, luma_mem_pixelPlaces]
    | u _ _ | v _ _ =>
      simp only [Cell.place, Set.mem_union, Set.mem_singleton_iff, Set.mem_ofPred_eq, Place.chroma.injEq, reduceCtorEq,
        false_or, chroma_mem_pixelPlaces]
      omega

/-- Eight columns, whatever instructions made the bytes; the arrays are only read for the chroma. -/
theorem v6Parts_puts {v arrays : Rgb (Vec 8 UInt8)} {luma : Vec 8 UInt8} (hx : 8 * x + 8 ≤ f.width / 4)
    (hy : y < f.height / 4) (hv : ∀ i, v.lane i = f.colour gains (8 * x + i.val) y)
    (hluma : ∀ i, luma i = UInt8.ofInt (yValue (v.r i) (v.g i) (v.b i))) (harrays : i420 = true ∧ y % 2 = 1 → arrays = v) :
    Puts (f.canvas i420 rgb)
      ((if rgb then putRgb8 (v6Row f.width f.height f.stride y).dst (8 * x) v else []) ++
        (if i420 then putY8 ((v6Row f.width f.height f.stride y).yd + 8 * x) luma else []) ++
        v6Chroma8 (v6Row f.width f.height f.stride y) i420 y (8 * x) arrays)
      {p | ∃ i < 8, p ∈ pixelPlaces (8 * x + i) y} (picture (f.colour gains)) := by
  rw [v6Row_eq]
  refine (Puts.append (Puts.append
    (Puts.ifRgb (P := {p | ∃ i < 8, p = .rgb (8 * x + i) y}) rfl
      (fun hs => putRgb8_puts hx hy rfl hv hs) (by simp) (by simp))
    (Puts.ifI420 (P := {p | ∃ i < 8, p = .luma (8 * x + i) y}) rfl (fun hs => putY8_puts hx hy rfl hv hluma hs) (by simp)))
    (Puts.when (P := {p | ∃ i < 8, p = .chroma ((8 * x + i) / 2) (y / 2) ∧ (8 * x + i) % 2 = 1}) fun hodd => ?_)).congr
    (fun c hc => ?_) (fun _ _ _ => rfl)
  · rw [harrays hodd]
    exact oddLanes_puts (by omega) hx hy hodd.2 rfl rfl hv hodd.1
  · cases c with
    | rgb _ _ _ | luma _ _ =>
      simp only [Cell.place, Set.mem_union, Set.mem_ofPred_eq, Place.rgb.injEq, Place.luma.injEq, reduceCtorEq, or_false,
        false_or, and_false, false_and, exists_false, rgb_mem_pixelPlaces, luma_mem_pixelPlaces]
    | u x' y' | v x' y' =>
      have hi : i420 = true := hc.1
      simp only [Cell.place, Set.mem_union, Set.mem_ofPred_eq, Place.chroma.injEq, reduceCtorEq, or_false, false_or,
        and_false, exists_false, chroma_mem_pixelPlaces, hi, true_and, ← exists_and_right]
      apply exists_congr
      intro i
      omega

theorem Frame.lane_adjusted (gains : Option Gains) {v : Rgb (Vec 8 UInt8)} (hv : v = f.lanes x y) (i : Fin 8) :
    (match gains with
      | some lut => adjust8 lut v
      | none => v).lane i = f.colour gains (x + i.val) y := by
  have hlane := f.lane_lanes x y i
  rw [← hv] at hlane
  have hcolour : f.colour gains (x + i.val) y = adjusted gains (f.colour none (x + i.val) y) := rfl
  rw [hcolour, ← hlane]
  cases gains <;> rfl

theorem Frame.lanes_eq {r g b : Vec 8 UInt8}
    (hr : ∀ i, r i = rg10U8 (word f.rg10 (y * 4 * f.stride) (x * 4 + 4 * i.val)))
    (hg : ∀ i, g i = rg10U8 (word f.rg10 (y * 4 * f.stride) (x * 4 + (4 * i.val + 1))))
    (hb : ∀ i, b i = rg10U8 (word f.rg10 (y * 4 * f.stride + f.stride) (x * 4 + (4 * i.val + 1)))) :
    ⟨r, g, b⟩ = f.lanes x y := by
  rw [Frame.lanes, Rgb.mk.injEq]
  refine ⟨funext fun i => ?_, funext fun i => ?_, funext fun i => ?_⟩
  · rw [hr, Nat.mul_comm 4 i.val]
  · rw [hg, Nat.mul_comm 4 i.val, ← Nat.add_assoc]
  · rw [hb, Nat.mul_comm 4 i.val, ← Nat.add_assoc]

theorem v6Neon_puts (stack : Rgb (Vec 8 UInt8)) (hx : 8 * x + 8 ≤ f.width / 4) (hy : y < f.height / 4) :
    ∃ log, v6Neon stack f.rg10 f.width (v6Row f.width f.height f.stride y) rgb i420 gains y (8 * x) = some log ∧
      Puts (f.canvas i420 rgb) log {p | ∃ i < 8, p ∈ pixelPlaces (8 * x + i) y} (picture (f.colour gains)) := by
  have hload : ∀ row, loadWords f.rg10 f.width row (8 * x * 4) 32 = some fun j => word f.rg10 row (8 * x * 4 + j.val) :=
    fun row => if_pos (by omega)
  have hlanes := Frame.lanes_eq (f := f) (x := 8 * x) (y := y) (neonChannel_apply 0) (neonChannel_apply 1)
    (neonChannel_apply 1)
  have hlane := fun i => Frame.lane_adjusted gains hlanes i
  simp only [v6Neon, hload]
  cases gains with
  | none => exact ⟨_, rfl, v6Parts_puts hx hy hlane (v6Luma_apply _) (fun hodd => if_pos hodd)⟩
  | some lut => exact ⟨_, rfl, v6Parts_puts hx hy hlane (v6Luma_apply _) (fun _ => ite_self _)⟩

theorem v6Sse2_puts (hx : 8 * x + 8 ≤ f.width / 4) (hy : y < f.height / 4) :
    ∃ log, v6Sse2 f.rg10 f.width (v6Row f.width f.height f.stride y) rgb i420 gains y (8 * x) = some log ∧
      Puts (f.canvas i420 rgb) log {p | ∃ i < 8, p ∈ pixelPlaces (8 * x + i) y} (picture (f.colour gains)) := by
  have hspan : 8 * x * 4 + 32 ≤ f.width := by omega
  obtain ⟨top₀, top₁, ht₀, ht₁, hr, hg⟩ := sseChannels_spec f.rg10 (y * 4 * f.stride) hspan
  obtain ⟨bot₀, bot₁, hb₀, hb₁, -, hb⟩ := sseChannels_spec f.rg10 (y * 4 * f.stride + f.stride) hspan
  have hlane := fun i => Frame.lane_adjusted gains (Frame.lanes_eq hr hg hb) i
  simp only [v6Sse2, v6Row_eq, ht₀, ht₁, hb₀, hb₁]
  rw [← v6Row_eq]
  exact ⟨_, rfl, v6Parts_puts hx hy hlane (rgbYSse28_apply _ _ _) (fun _ => rfl)⟩

theorem v6Vector_puts (build : Build) (stack : Rgb (Vec 8 UInt8)) (rgb i420 : Bool) (gains : Option Gains)
    (hx : 8 * x + 8 ≤ f.width / 4) (hy : y < f.height / 4) :
    ∃ log, v6Vector build stack f.rg10 f.width (v6Row f.width f.height f.stride y) rgb i420 gains y (8 * x) = some log ∧
      Puts (f.canvas i420 rgb) log {p | ∃ i < 8, p ∈ pixelPlaces (8 * x + i) y} (picture (f.colour gains)) := by
  cases build with
  | neon => exact v6Neon_puts stack hx hy
  | scalar | sse2 => exact v6Sse2_puts hx hy

theorem mem_vectorCols {build : Build} {w n : Nat} (h : n ∈ vectorCols build w) : ∃ i, n = 8 * i ∧ 8 * i + 8 ≤ w := by
  rcases vectorCols_cases build w with hnil | ⟨-, hloop⟩
  · rw [hnil] at h
    cases h
  · rw [hloop, mem_loop (by omega)] at h
    obtain ⟨hlt, i, rfl⟩ := h
    exact ⟨i, Nat.zero_add _, by omega⟩

/-- What a turn of the loop over the rows draws. -/
theorem v6Turn_puts (build : Build) (stack : Rgb (Vec 8 UInt8)) (rgb i420 : Bool) (gains : Option Gains)
    (hy : y < f.height / 4) :
    ∃ log, (do
        let vector ← concatM (v6Vector build stack f.rg10 f.width (v6Row f.width f.height f.stride y) rgb i420 gains y)
          (vectorCols build (f.width / 4))
        return vector ++ (loop (8 * (vectorCols build (f.width / 4)).length) (f.width / 4) 1).flatMap
          (v6Column f.rg10 (v6Row f.width f.height f.stride y) rgb i420 gains y)) = some log ∧
      Puts (f.canvas i420 rgb) log {p | ∃ x < f.width / 4, p ∈ pixelPlaces x y} (picture (f.colour gains)) := by
  have hget : ∀ x ∈ vectorCols build (f.width / 4),
      v6Vector build stack f.rg10 f.width (v6Row f.width f.height f.stride y) rgb i420 gains y x =
        some ((v6Vector build stack f.rg10 f.width (v6Row f.width f.height f.stride y) rgb i420 gains y x).getD []) := by
    intro x hx
    obtain ⟨i, rfl, hi⟩ := mem_vectorCols hx
    obtain ⟨log, hlog, -⟩ := v6Vector_puts build stack rgb i420 gains hi hy
    rw [hlog]
    rfl
  rw [concatM_eq hget]
  refine ⟨_, rfl, Puts.vectorTail (vectorCols_cases build (f.width / 4)) (fun x hx => ?_) (fun x hx => v6Column_puts hx hy)⟩
  obtain ⟨log, hlog, hputs⟩ := v6Vector_puts build stack rgb i420 gains hx hy
  rw [hlog]
  exact hputs

theorem v6_draws (build : Build) (stack : Rgb (Vec 8 UInt8)) (f : Frame) (rgb i420 : Bool) (gains : Option Gains) :
    ∃ log, aloeRg10Rgb8I420V6 build stack f.width f.height f.stride f.rg10 rgb i420 gains = some log ∧
      Draws (f.canvas i420 rgb) log (picture (f.colour gains)) := by
  have hsize := f.width_ge
  have hsize' := f.height_ge
  have height := f.width_eight
  have height' := f.height_eight
  rw [aloeRg10Rgb8I420V6, if_neg (by omega)]
  by_cases hnone : (!rgb && !i420) = true
  · rw [if_pos hnone]
    simp only [Bool.and_eq_true, Bool.not_eq_true'] at hnone
    refine ⟨[], rfl, puts_nil (fun c hc => ?_)⟩
    cases c with
    | rgb _ _ _ => exact absurd hc.1 (by simp [Frame.canvas, hnone.1])
    | luma _ _ | u _ _ | v _ _ => exact absurd hc.1 (by simp [Frame.canvas, hnone.2])
  · rw [if_neg hnone]
    obtain ⟨log, hlog, hputs⟩ := Puts.concatM fun y hy => v6Turn_puts (f := f) build stack rgb
      i420 gains (mem_loop_one.1 hy).2
    refine ⟨log, hlog, hputs.draws (fun c hc => ?_)⟩
    obtain ⟨x, y, hx, hy, hcp⟩ := pixels_cover hc
    exact ⟨y, mem_loop_one.2 ⟨Nat.zero_le y, hy⟩, x, hx, hcp⟩

end AlgaeBp.Rg10
