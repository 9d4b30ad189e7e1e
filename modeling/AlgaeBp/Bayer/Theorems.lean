import AlgaeBp.Bayer.Code
/-!
# The two Bayer converters compared

Both converters draw the bilinear picture of the mosaic; they differ in how ten
bits become eight. The original scales and saturates, the optimised one rounds
to a quarter, which is 256 for the two brightest values.
-/

namespace AlgaeBp.Bayer

open Raster

variable {f : Frame} {x y : Nat}

/-! ## BT.601 in the code -/

theorem clampU8_yValue (r g b : Nat) : clampU8 (yValue r g b) = bt601Y ⟨r, g, b⟩ := by
  rw [yValue, Int.shiftRight_eq_div_pow]
  rfl

theorem clampU8_uValue (r g b : Nat) : clampU8 (uValue r g b) = bt601U ⟨r, g, b⟩ := by
  rw [uValue, Int.shiftRight_eq_div_pow]
  rfl

theorem clampU8_vValue (r g b : Nat) : clampU8 (vValue r g b) = bt601V ⟨r, g, b⟩ := by
  rw [vValue, Int.shiftRight_eq_div_pow]
  rfl

theorem clampU8Int_eq (v : Int) : clampU8Int v = clampU8 v := rfl

/-! ## Parts of a picture -/

section Parts

variable {i420 rgb : Bool} {level : Nat → Nat → Rgb Nat}

/-- RGB and luma of a pixel, wherever they are written. -/
theorem pixel_puts {c : Rgb UInt8} {base k : Nat} (h : c.map UInt8.toNat = level x y) (hx : x < f.width) (hy : y < f.height)
    (hbase : base = (y * f.width + x) * 3) (hk : k = y * f.width + x) :
    Puts (f.canvas i420 rgb)
      ((if rgb then putRgb base c.r c.g c.b else []) ++
        (if i420 then putI420 k (clampU8 (yValue c.r.toNat c.g.toNat c.b.toNat)) else []))
      ({.rgb x y} ∪ {.luma x y}) (painted level) := by
  refine Puts.append (Puts.ifRgb rfl (puts_rgb hx hy hbase ?_ ?_ ?_) (by simp) (by simp))
    (Puts.ifI420 rfl (puts_luma hx hy hk ?_) (by simp))
  · simp only [painted, ← h, Rgb.channel, Rgb.map, UInt8.ofNat_toNat]
  · simp only [painted, ← h, Rgb.channel, Rgb.map, UInt8.ofNat_toNat]
  · simp only [painted, ← h, Rgb.channel, Rgb.map, UInt8.ofNat_toNat]
  · rw [clampU8_yValue, painted, ← h]
    rfl

/-- U and V of a block. -/
theorem block_puts (rgb : Bool) (level : Nat → Nat → Rgb Nat) {k k' : Nat} (hx : 2 * x < f.width) (hy : 2 * y < f.height)
    (hk : k = f.width * f.height + (y * (f.width / 2) + x))
    (hk' : k' = f.width * f.height + f.width / 2 * (f.height / 2) + (y * (f.width / 2) + x)) (hi : i420 = true) :
    Puts (f.canvas i420 rgb)
      (putI420 k (bt601U (blockMean level (2 * x) (2 * y))) ++ putI420 k' (bt601V (blockMean level (2 * x) (2 * y))))
      {.chroma x y} (painted level) := by
  have hw := f.width_even
  have hh := f.height_even
  have hX : x < (f.canvas i420 rgb).width / 2 := by
    simp only [Frame.canvas]
    omega
  have hY : y < (f.canvas i420 rgb).height / 2 := by
    simp only [Frame.canvas]
    omega
  exact puts_chroma hX hY hk hk' rfl rfl hi

/-- All pixels, and then all blocks. -/
theorem draws_pixels_blocks {pixel block : Nat → Nat → List Store}
    (hpixel : ∀ x y, x < f.width → y < f.height →
      Puts (f.canvas i420 rgb) (pixel y x) ({.rgb x y} ∪ {.luma x y}) (painted level))
    (hblock : i420 = true → ∀ x y, 2 * x < f.width → 2 * y < f.height →
      Puts (f.canvas i420 rgb) (block (2 * y) (2 * x)) {.chroma x y} (painted level)) :
    Draws (f.canvas i420 rgb)
      (((loop 0 f.height 1).flatMap fun y => (loop 0 f.width 1).flatMap fun x => pixel y x) ++
        (if i420 then (loop 0 f.height 2).flatMap fun y => (loop 0 f.width 2).flatMap fun x => block y x else []))
      (painted level) := by
  have hblocks := fun hi => Puts.loops (w := f.width) (h := f.height) Nat.two_pos (hblock hi)
  refine ((Puts.pixels hpixel).append (Puts.ifI420 rfl hblocks (by simp))).draws (fun c hc => ?_)
  cases c with
  | rgb x y k => exact .inl ⟨x, y, hc.2.1, hc.2.2.1, .inl rfl⟩
  | luma x y => exact .inl ⟨x, y, hc.2.1, hc.2.2, .inr rfl⟩
  | u x y | v x y =>
    obtain ⟨-, hx, hy⟩ := hc
    simp only [Frame.canvas] at hx hy
    exact .inr ⟨x, y, by omega, by omega, rfl⟩

end Parts

/-! ## The original -/

/-- How the original makes eight bits of ten. -/
def scaled (v : Nat) : Nat := (v * 255 + 511) / 1023

theorem extractRaw10_eq {v : UInt16} (h : v.toNat ≤ 1023) : extractRaw10 v = v := by
  apply UInt16.toNat_inj.1
  have hmod := Nat.and_two_pow_sub_one_eq_mod v.toNat 10
  rw [extractRaw10, UInt16.toNat_and]
  exact hmod.trans (Nat.mod_eq_of_lt (by omega))

/-- `get_pixel` reads the pixel that is next to the coordinates. -/
theorem getPixel_eq {a b : Int} (ha : (x : Int) = max 0 (min a (f.width - 1)))
    (hb : (y : Int) = max 0 (min b (f.height - 1))) :
    (getPixel f.width f.height f.raw a b).toNat = f.mosaic.sample x y := by
  have hw := f.width_pos
  have hh := f.height_pos
  have hxw : x < f.width := by omega
  have hyh : y < f.height := by omega
  have hx : (if (if a < 0 then 0 else a) ≥ f.width then (f.width : Int) - 1 else if a < 0 then 0 else a) = x := by
    split <;> split at * <;> omega
  have hy : (if (if b < 0 then 0 else b) ≥ f.height then (f.height : Int) - 1 else if b < 0 then 0 else b) = y := by
    split <;> split at * <;> omega
  have hindex : ((y : Int) * f.width + x).toNat = y * f.width + x := by
    rw [← Int.natCast_mul, ← Int.natCast_add, Int.toNat_natCast]
  simp only [getPixel, hx, hy, hindex]
  rw [extractRaw10_eq (f.ten _ (rowMajor_lt hxw hyh))]
  rfl

theorem interpolate_eq (hx : x < f.width) (hy : y < f.height) :
    interpolate f.width f.height f.raw x y = (f.mosaic.colour x y).map UInt16.ofNat := by
  have hleft : ((x - 1 : Nat) : Int) = max 0 (min ((x : Int) - 1) (f.width - 1)) := by omega
  have hright : ((f.mosaic.right x : Nat) : Int) = max 0 (min ((x : Int) + 1) (f.width - 1)) := by
    simp only [Mosaic.right, Frame.mosaic]
    omega
  have hup : ((y - 1 : Nat) : Int) = max 0 (min ((y : Int) - 1) (f.height - 1)) := by omega
  have hdown : ((f.mosaic.below y : Nat) : Int) = max 0 (min ((y : Int) + 1) (f.height - 1)) := by
    simp only [Mosaic.below, Frame.mosaic]
    omega
  have hx0 : (x : Int) = max 0 (min (x : Int) (f.width - 1)) := by omega
  have hy0 : (y : Int) = max 0 (min (y : Int) (f.height - 1)) := by omega
  have hown : getPixel f.width f.height f.raw x y = UInt16.ofNat (f.mosaic.sample x y) := by
    rw [← getPixel_eq hx0 hy0, UInt16.ofNat_toNat]
  have hxpar : ((x : Int) % 2 = 0) ↔ x % 2 = 0 := by omega
  have hypar : ((y : Int) % 2 = 0) ↔ y % 2 = 0 := by omega
  simp only [interpolate, hown, getPixel_eq hleft hy0, getPixel_eq hright hy0, getPixel_eq hx0 hup, getPixel_eq hx0 hdown,
    getPixel_eq hleft hup, getPixel_eq hright hup, getPixel_eq hleft hdown, getPixel_eq hright hdown, hxpar, hypar]
  unfold Mosaic.colour
  split
  · split <;> rfl
  · split <;> rfl

theorem toNat_raw10ToU8 {v : Nat} (h : v ≤ 1023) : (raw10ToU8 (UInt16.ofNat v)).toNat = scaled v := by
  rw [raw10ToU8, UInt16.toNat_ofNat', Nat.mod_eq_of_lt (by omega : v < 2 ^ 16), UInt8.toNat_ofNat']
  unfold scaled
  omega

/-- The levels of the original. -/
theorem level_original (hx : x < f.width) (hy : y < f.height) :
    (interpolate f.width f.height f.raw x y).map (fun v => (raw10ToU8 v).toNat) = f.mosaic.levels scaled x y := by
  obtain ⟨hr, hg, hb⟩ := f.colour_le hx hy
  rw [interpolate_eq hx hy]
  simp only [Rgb.map, toNat_raw10ToU8 hr, toNat_raw10ToU8 hg, toNat_raw10ToU8 hb, Mosaic.levels]

/-- U and V come from the colours of the block. -/
theorem chromaBody_eq (width height : Nat) (raw : Nat → UInt16) (y x : Nat) :
    chromaBody width height raw y x =
      let mean := blockMean (fun dx dy => (chromaColour width height raw y x dy dx).map fun v => (raw10ToU8 v).toNat) 0 0
      putI420 (width * height + (y / 2 * (width / 2) + x / 2)) (bt601U mean) ++
      putI420 (width * height + width / 2 * (height / 2) + (y / 2 * (width / 2) + x / 2)) (bt601V mean) := by
  simp only [chromaBody, clampU8_uValue, clampU8_vValue]
  rfl

theorem chromaColour_eq {dx dy : Nat} (hx : x + dx < f.width) (hy : y + dy < f.height) :
    chromaColour f.width f.height f.raw y x dy dx = (f.mosaic.colour (x + dx) (y + dy)).map UInt16.ofNat := by
  rw [chromaColour, ← Int.natCast_add, ← Int.natCast_add, interpolate_eq hx hy]

theorem chromaBody_puts (i420 rgb : Bool) (hi : i420 = true) (hx : 2 * x < f.width) (hy : 2 * y < f.height) :
    Puts (f.canvas i420 rgb) (chromaBody f.width f.height f.raw (2 * y) (2 * x)) {.chroma x y}
      (f.mosaic.rendered scaled) := by
  have hw := f.width_even
  have hh := f.height_even
  have hx2 : 2 * x / 2 = x := by omega
  have hy2 : 2 * y / 2 = y := by omega
  have hlevel : ∀ dx dy : Nat, dx < 2 → dy < 2 →
      (chromaColour f.width f.height f.raw (2 * y) (2 * x) dy dx).map (fun v => (raw10ToU8 v).toNat) =
        f.mosaic.levels scaled (2 * x + dx) (2 * y + dy) := by
    intro dx dy hdx hdy
    have hX : 2 * x + dx < f.width := by omega
    have hY : 2 * y + dy < f.height := by omega
    rw [chromaColour_eq hX hY, ← interpolate_eq hX hY, level_original hX hY]
  rw [chromaBody_eq, hx2, hy2]
  have hblock := block_puts rgb (f.mosaic.levels scaled) hx hy rfl rfl hi
  simp only [blockMean, hlevel 0 0 (by omega) (by omega), hlevel 0 1 (by omega) (by omega), hlevel 1 0 (by omega) (by omega),
    hlevel 1 1 (by omega) (by omega), Nat.zero_add] at hblock ⊢
  exact hblock

/-- The original draws the bilinear picture. -/
theorem original_draws (f : Frame) (i420 rgb : Bool) :
    Draws (f.canvas i420 rgb) (aloeRggb10ToRgb888I420 f.width f.height f.raw i420 rgb) (f.mosaic.rendered scaled) :=
  draws_pixels_blocks
    (fun x y hx hy => pixel_puts (c := (interpolate f.width f.height f.raw x y).map raw10ToU8) (level_original hx hy) hx hy
      rfl rfl)
    (fun hi _ _ hx hy => chromaBody_puts i420 rgb hi hx hy)

/-! ## The optimised one -/

/-- How the optimised one makes eight bits of ten. -/
def rounded (v : Nat) : Nat := (v + 2) / 4

/-- What one block takes part in. -/
def blockPlaces (x y : Nat) : Set Place :=
  ({.rgb (2 * x) (2 * y)} ∪ {.rgb (2 * x + 1) (2 * y)} ∪ {.rgb (2 * x) (2 * y + 1)} ∪ {.rgb (2 * x + 1) (2 * y + 1)}) ∪
  ({.luma (2 * x) (2 * y)} ∪ {.luma (2 * x + 1) (2 * y)} ∪ {.luma (2 * x) (2 * y + 1)} ∪
    {.luma (2 * x + 1) (2 * y + 1)}) ∪ {.chroma x y}

theorem rgb_mem_block (x y : Nat) : .rgb x y ∈ blockPlaces (x / 2) (y / 2) := by
  simp only [blockPlaces, Set.mem_union, Set.mem_singleton_iff, Place.rgb.injEq, reduceCtorEq, or_false]
  omega

theorem luma_mem_block (x y : Nat) : .luma x y ∈ blockPlaces (x / 2) (y / 2) := by
  simp only [blockPlaces, Set.mem_union, Set.mem_singleton_iff, Place.luma.injEq, reduceCtorEq, or_false, false_or]
  omega

theorem v2Colours_eq (hx : 2 * x < f.width) (hy : 2 * y < f.height) :
    v2Colours f.width f.height f.raw (2 * y) (2 * x) =
      { c0 := f.mosaic.colour (2 * x) (2 * y)
        c1 := f.mosaic.colour (2 * x + 1) (2 * y)
        c2 := f.mosaic.colour (2 * x) (2 * y + 1)
        c3 := f.mosaic.colour (2 * x + 1) (2 * y + 1) } := by
  have hw := f.width_even
  have hh := f.height_even
  have hx' : 2 * x + 1 < f.width := by omega
  have hy' : 2 * y + 1 < f.height := by omega
  have hym1 : (if 2 * y > 0 then 2 * y - 1 else 2 * y) = 2 * y - 1 := by split <;> omega
  have hyp2 : (if 2 * y + 2 < f.height then 2 * y + 2 else 2 * y + 1) = f.mosaic.below (2 * y + 1) := by
    simp only [Mosaic.below, Frame.mosaic]
    split <;> omega
  have hxm1 : (if 2 * x > 0 then 2 * x - 1 else 2 * x) = 2 * x - 1 := by split <;> omega
  have hxp2 : (if 2 * x + 2 < f.width then 2 * x + 2 else 2 * x + 1) = f.mosaic.right (2 * x + 1) := by
    simp only [Mosaic.right, Frame.mosaic]
    split <;> omega
  obtain ⟨h₀, h₁, h₂, h₃⟩ := Mosaic.colour_block (m := f.mosaic) hx' hy'
  simp only [v2Colours, if_pos hx', if_pos hy', hym1, hyp2, hxm1, hxp2, h₀, h₁, h₂, h₃]
  rfl

theorem v2Levels_eq (hx : 2 * x < f.width) (hy : 2 * y < f.height) :
    v2Levels f.width f.height f.raw (2 * y) (2 * x) =
      { c0 := f.mosaic.levels rounded (2 * x) (2 * y)
        c1 := f.mosaic.levels rounded (2 * x + 1) (2 * y)
        c2 := f.mosaic.levels rounded (2 * x) (2 * y + 1)
        c3 := f.mosaic.levels rounded (2 * x + 1) (2 * y + 1) } := by
  rw [v2Levels, v2Colours_eq hx hy]
  rfl

theorem v2Block_puts (i420 rgb : Bool) (hx : 2 * x < f.width) (hy : 2 * y < f.height) :
    Puts (f.canvas i420 rgb) (v2Block f.width f.height f.raw i420 rgb (2 * y) (2 * x)) (blockPlaces x y)
      (f.mosaic.rendered rounded) := by
  have hw := f.width_even
  have hh := f.height_even
  have hx' : 2 * x + 1 < f.width := by omega
  have hy' : 2 * y + 1 < f.height := by omega
  have hx2 : 2 * x / 2 = x := by omega
  have hy2 : 2 * y / 2 = y := by omega
  simp only [v2Block, v2Levels_eq hx hy, if_pos hy', clampU8Int_eq, clampU8_yValue, clampU8_uValue, clampU8_vValue, hx2,
    hy2, Nat.add_assoc (_ * _) (_ * _) x]
  refine Puts.append (Puts.append (Puts.ifRgb rfl (fun hs => ?_) (by simp) (by simp))
    (Puts.ifI420 rfl (fun hs => ?_) (by simp))) (Puts.ifI420 rfl (fun hs => ?_) (by simp))
  · refine Puts.append (Puts.append (Puts.append ?_ ?_) ?_) ?_
    · exact puts_rgb hx hy (by simp only [Frame.canvas]; ring) rfl rfl rfl hs
    · exact puts_rgb hx' hy (by simp only [Frame.canvas]; ring) rfl rfl rfl hs
    · exact puts_rgb hx hy' (by simp only [Frame.canvas]; ring) rfl rfl rfl hs
    · exact puts_rgb hx' hy' (by simp only [Frame.canvas]; ring) rfl rfl rfl hs
  · refine Puts.append (Puts.append (Puts.append ?_ ?_) ?_) ?_
    · exact puts_luma hx hy rfl rfl hs
    · exact puts_luma hx' hy rfl rfl hs
    · exact puts_luma hx hy' rfl rfl hs
    · exact puts_luma hx' hy' rfl rfl hs
  · refine puts_chroma (s := f.canvas i420 rgb) (show x < f.width / 2 by omega) (show y < f.height / 2 by omega) rfl
      (Nat.add_assoc _ _ _) rfl rfl hs

/-- The optimised one draws the same picture with levels of its own. -/
theorem v2_draws (f : Frame) (i420 rgb : Bool) :
    Draws (f.canvas i420 rgb) (aloeRggb10ToRgb888I420V2 f.width f.height f.raw i420 rgb) (f.mosaic.rendered rounded) := by
  have hw := f.width_even
  have hh := f.height_even
  have hw0 := f.width_pos
  have hh0 := f.height_pos
  rw [aloeRggb10ToRgb888I420V2, if_neg (by omega), if_neg (by omega)]
  refine (Puts.loops Nat.two_pos fun x y hx hy => v2Block_puts i420 rgb hx hy).draws (fun c hc => ?_)
  cases c with
  | rgb x y k =>
    obtain ⟨-, hx, hy, -⟩ := hc
    simp only [Frame.canvas] at hx hy
    exact ⟨x / 2, y / 2, by omega, by omega, rgb_mem_block x y⟩
  | luma x y =>
    obtain ⟨-, hx, hy⟩ := hc
    simp only [Frame.canvas] at hx hy
    exact ⟨x / 2, y / 2, by omega, by omega, luma_mem_block x y⟩
  | u x y | v x y =>
    obtain ⟨-, hx, hy⟩ := hc
    simp only [Frame.canvas] at hx hy
    exact ⟨x, y, by omega, by omega, .inr rfl⟩

/-! ## How far apart they are -/

/-- Two bytes differ by at most one. -/
def Near (a b : UInt8) : Prop := a.toNat ≤ b.toNat + 1 ∧ b.toNat ≤ a.toNat + 1

instance (a b : UInt8) : Decidable (Near a b) := inferInstanceAs (Decidable (_ ∧ _))

theorem near_iff {v : Nat} (h : v ≤ 1023) : Near (UInt8.ofNat (rounded v)) (UInt8.ofNat (scaled v)) ↔ v ≤ 1021 := by
  by_cases hv : v ≤ 1021
  · have hr : rounded v < 2 ^ 8 := by
      unfold rounded
      omega
    have hs : scaled v < 2 ^ 8 := by
      unfold scaled
      omega
    refine iff_of_true ?_ hv
    rw [Near, UInt8.toNat_ofNat', UInt8.toNat_ofNat', Nat.mod_eq_of_lt hr, Nat.mod_eq_of_lt hs]
    unfold rounded scaled
    omega
  · obtain rfl | rfl : v = 1022 ∨ v = 1023 := by omega
    · exact iff_of_false (by decide) hv
    · exact iff_of_false (by decide) hv

theorem channel_le {c : Rgb Nat} {n k : Nat} (h : c.r ≤ n ∧ c.g ≤ n ∧ c.b ≤ n) : c.channel k ≤ n := by
  unfold Rgb.channel
  split
  · exact h.1
  · exact h.2.1
  · exact h.2.2

theorem rendered_rgb (m : Mosaic) (scale : Nat → Nat) (x y k : Nat) :
    m.rendered scale (.rgb x y k) = UInt8.ofNat (scale ((m.colour x y).channel k)) := by
  have hmap : ∀ c : Rgb Nat, (c.map scale).channel k = scale (c.channel k) := by
    intro c
    unfold Rgb.channel
    split <;> rfl
  exact congrArg UInt8.ofNat (hmap _)

/-- **When the optimised converter is as good as the original.** Its bytes of RGB are those of the original or next to
them just when no sample of the frame is one of the two brightest. -/
theorem v2_near_iff (f : Frame) (i420 : Bool) :
    (∀ k < f.width * f.height * 3, ∃ a b,
      after (aloeRggb10ToRgb888I420V2 f.width f.height f.raw i420 true) (.rgb, k) = some a ∧
      after (aloeRggb10ToRgb888I420 f.width f.height f.raw i420 true) (.rgb, k) = some b ∧ Near a b) ↔
    ∀ i < f.width * f.height, (f.raw i).toNat < 1022 := by
  have hv2 := v2_draws f i420 true
  have horig := original_draws f i420 true
  constructor
  · intro h i hi
    obtain ⟨x, y, hx, hy, rfl⟩ := rowMajor_surj hi
    obtain ⟨k, hk, hsample⟩ := f.mosaic.colour_sample x y
    have hcell : Cell.On (f.canvas i420 true) (.rgb x y k) := ⟨rfl, hx, hy, hk⟩
    obtain ⟨a, b, ha, hb, hnear⟩ := h _ (Cell.at_lt hcell)
    obtain rfl := Option.some.inj ((hv2.shows hcell).symm.trans ha)
    obtain rfl := Option.some.inj ((horig.shows hcell).symm.trans hb)
    rw [rendered_rgb, rendered_rgb, hsample, near_iff (Frame.sample_le hx hy)] at hnear
    exact Nat.lt_succ_of_le hnear
  · intro h k hk
    obtain ⟨c, hc, hck⟩ := exists_cell (s := f.canvas i420 true) (o := .rgb) hk
    refine ⟨_, _, hck ▸ hv2.shows hc, hck ▸ horig.shows hc, ?_⟩
    cases c with
    | rgb x y j =>
      obtain ⟨-, hx, hy, hj⟩ := hc
      have hdark := Mosaic.colour_le (m := f.mosaic) (n := 1021)
        (fun x y hx hy => Nat.le_of_lt_succ (h _ (rowMajor_lt hx hy))) hx hy
      rw [rendered_rgb, rendered_rgb, near_iff (channel_le (f.colour_le hx hy))]
      exact channel_le hdark
    | luma _ _ | u _ _ | v _ _ => cases hck

/-- A saturated frame. -/
def white : Frame where
  width := 2
  height := 2
  raw _ := 1023
  width_pos := by decide
  height_pos := by decide
  width_even := by decide
  height_even := by decide
  ten _ _ := by decide

/-- White comes out black. -/
theorem v2_not_near :
    ¬ ∀ (f : Frame) (i420 : Bool), ∀ k < f.width * f.height * 3, ∃ a b,
      after (aloeRggb10ToRgb888I420V2 f.width f.height f.raw i420 true) (.rgb, k) = some a ∧
      after (aloeRggb10ToRgb888I420 f.width f.height f.raw i420 true) (.rgb, k) = some b ∧ Near a b := by
  intro h
  obtain ⟨a, b, ha, hb, hnear⟩ := h white false 0 (by decide)
  have hblack : after (aloeRggb10ToRgb888I420V2 2 2 (fun _ => 1023) false true) (.rgb, 0) = some 0 := by decide +kernel
  have hwhite : after (aloeRggb10ToRgb888I420 2 2 (fun _ => 1023) false true) (.rgb, 0) = some 255 := by decide +kernel
  obtain rfl := Option.some.inj (hblack.symm.trans ha)
  obtain rfl := Option.some.inj (hwhite.symm.trans hb)
  exact absurd hnear (by decide)

end AlgaeBp.Bayer
