import AlgaeBp.Bayer.Simd
import AlgaeBp.Bayer.Theorems
/-!
# The NEON converter and the scalar one

Both draw whole pictures. The scalar one draws the bilinear picture; the NEON
one draws it too, but for the columns that the vector loop takes: there the red
of a green pixel in a blue row comes from the wrong row, and a level of 256 is
not cut to a byte before it goes into the luma. What the vector loop writes of
the chroma is overwritten.
-/

namespace AlgaeBp.Bayer.Simd

open Raster Lanes

variable {f : Frame} {x y : Nat}

/-! ## The scalar implementation -/

/-- A rounded level, as a byte. -/
def byteOf (v : Nat) : Nat := rounded v % 256

theorem demosaic_eq (hx : x < f.width) (hy : y < f.height) :
    demosaicRggb10Pixel f.raw f.width f.height x y = f.mosaic.colour x y := by
  have hxm1 : (if x > 0 then x - 1 else 0) = x - 1 := by split <;> omega
  have hxp1 : (if x + 1 < f.width then x + 1 else f.width - 1) = f.mosaic.right x := by
    simp only [Mosaic.right, Frame.mosaic]
    split <;> omega
  have hym1 : (if y > 0 then y - 1 else 0) = y - 1 := by split <;> omega
  have hyp1 : (if y + 1 < f.height then y + 1 else f.height - 1) = f.mosaic.below y := by
    simp only [Mosaic.below, Frame.mosaic]
    split <;> omega
  simp only [demosaicRggb10Pixel, hxm1, hxp1, hym1, hyp1]
  unfold Mosaic.colour
  by_cases hyp : y % 2 = 0
  · by_cases hxp : x % 2 = 0
    · rw [if_pos ⟨hyp, hxp⟩, if_pos hyp, if_pos hxp]
      rfl
    · rw [if_neg (by omega), if_pos (by omega), if_pos hyp, if_neg hxp]
      rfl
  · by_cases hxp : x % 2 = 0
    · rw [if_neg (by omega), if_neg (by omega), if_pos (by omega), if_neg hyp, if_pos hxp]
      rfl
    · rw [if_neg (by omega), if_neg (by omega), if_neg (by omega), if_neg hyp, if_neg hxp]
      rfl

theorem toNat_raw10ToU8 {v : Nat} (h : v ≤ 1023) : (raw10ToU8 (UInt16.ofNat v)).toNat = byteOf v := by
  rw [raw10ToU8, UInt16.toNat_ofNat', Nat.mod_eq_of_lt (by omega : v < 2 ^ 16), UInt8.toNat_ofNat']
  rfl

/-- The levels of the scalar implementation. -/
theorem level_scalar (hx : x < f.width) (hy : y < f.height) :
    (pixelU8 f.raw f.width f.height x y).map UInt8.toNat = f.mosaic.levels byteOf x y := by
  obtain ⟨hr, hg, hb⟩ := f.colour_le hx hy
  rw [pixelU8, demosaic_eq hx hy]
  simp only [Rgb.map, toNat_raw10ToU8 hr, toNat_raw10ToU8 hg, toNat_raw10ToU8 hb, Mosaic.levels]

/-- The bytes of a pixel, wherever they are written. -/
theorem pixelU8_puts (i420 rgb : Bool) {base k : Nat} (hx : x < f.width) (hy : y < f.height)
    (hbase : base = (y * f.width + x) * 3) (hk : k = y * f.width + x) :
    Puts (f.canvas i420 rgb)
      ((if rgb then putRgb base (pixelU8 f.raw f.width f.height x y).r (pixelU8 f.raw f.width f.height x y).g
          (pixelU8 f.raw f.width f.height x y).b else []) ++
        (if i420 then putI420 k (rgbToY (pixelU8 f.raw f.width f.height x y).r.toNat
          (pixelU8 f.raw f.width f.height x y).g.toNat (pixelU8 f.raw f.width f.height x y).b.toNat) else []))
      ({.rgb x y} ∪ {.luma x y}) (f.mosaic.rendered byteOf) :=
  pixel_puts (level_scalar hx hy) hx hy hbase hk

theorem scalarBlock_puts (i420 rgb : Bool) (hi : i420 = true) (hx : 2 * x < f.width) (hy : 2 * y < f.height) :
    Puts (f.canvas i420 rgb) (scalarBlock f.width f.height f.raw (2 * y) (2 * x)) {.chroma x y}
      (f.mosaic.rendered byteOf) := by
  have hw := f.width_even
  have hh := f.height_even
  have h₀ := level_scalar hx hy
  have h₁ := level_scalar (by omega : 2 * x + 1 < f.width) hy
  have h₂ := level_scalar hx (by omega : 2 * y + 1 < f.height)
  have h₃ := level_scalar (by omega : 2 * x + 1 < f.width) (by omega : 2 * y + 1 < f.height)
  have hx2 : 2 * x / 2 = x := by omega
  have hy2 : 2 * y / 2 = y := by omega
  have hblock := block_puts rgb (f.mosaic.levels byteOf) hx hy (Nat.add_assoc _ _ _) (Nat.add_assoc _ _ _) hi
  rw [blockMean, ← h₀, ← h₁, ← h₂, ← h₃] at hblock
  simp only [scalarBlock, hx2, hy2, rgbToU, rgbToV, clampU8_uValue, clampU8_vValue]
  exact hblock

theorem scalar_draws (f : Frame) (i420 rgb : Bool) :
    Draws (f.canvas i420 rgb) (aloeRggb10ToRgb888I420Scalar f.width f.height f.raw i420 rgb)
      (f.mosaic.rendered byteOf) :=
  draws_pixels_blocks
    (fun x y hx hy => pixelU8_puts i420 rgb hx hy (show y * f.width * 3 + x * 3 = (y * f.width + x) * 3 by ring) rfl)
    (fun hi _ _ hx hy => scalarBlock_puts i420 rgb hi hx hy)

/-! ## Lanes -/

def laneAt (c : Rgb (Vec 4 UInt16)) (i : Fin 4) : Rgb Nat := c.map fun v => (v i).toNat

theorem neonRaw10ToU8_apply (v : Vec 4 UInt16) (i : Fin 4) : neonRaw10ToU8 v i = (v i + 2) >>> 2 := rfl

theorem toNat_lane {n : Nat} (hn : n ≤ 1023) : ((UInt16.ofNat n + 2) >>> 2).toNat = rounded n := by
  simp only [UInt16.toNat_shiftRight, UInt16.toNat_add, UInt16.toNat_ofNat', UInt16.reduceToNat, Nat.reduceMod,
    Nat.shiftRight_eq_div_pow]
  unfold rounded
  omega

theorem rowAt_eq (f : Frame) (x y : Nat) : rowAt f.raw f.width y x = f.mosaic.sample x y := rfl

/-- The luma of four lanes stays in 16 bits, and is what BT.601 has for their levels. -/
theorem neonY_eq {c : Rgb (Vec 4 UInt16)} {i : Fin 4}
    (h : (laneAt c i).r ≤ 256 ∧ (laneAt c i).g ≤ 256 ∧ (laneAt c i).b ≤ 256) :
    neonStore4U16AsU8 (neonY c) i = bt601Y (laneAt c i) := by
  rw [bt601Y_eq h]
  obtain ⟨hr, hg, hb⟩ := h
  simp only [laneAt, Rgb.map] at hr hg hb ⊢
  apply UInt8.toNat_inj.1
  simp only [neonStore4U16AsU8, neonY, toNat_vmovnU16, vcombine_low, toNat_vaddU16, toNat_vshrNU16, toNat_vmlaNU16,
    toNat_vmulNU16, vdupU16_apply, UInt16.reduceToNat, Nat.reduceMod, UInt8.toNat_ofNat']
  simp (disch := omega) only [Nat.mod_eq_of_lt]
  omega

/-- The mean of four lanes. -/
theorem toNat_mean {a b c d : Vec 4 UInt16} {i : Fin 4} (ha : (a i).toNat ≤ 256) (hb : (b i).toNat ≤ 256)
    (hc : (c i).toNat ≤ 256) (hd : (d i).toNat ≤ 256) :
    (vshrNU16 (vaddU16 (vaddU16 a b) (vaddU16 c d)) 2 i).toNat =
      ((a i).toNat + (b i).toNat + (c i).toNat + (d i).toNat) / 4 := by
  simp only [toNat_vshrNU16, toNat_vaddU16, UInt16.reduceToNat, Nat.reduceMod]
  omega

/-! ## The columns of the vector loop -/

/-- The colours that the vector loop takes: the red of a green pixel in a blue row is the mean of the rows two above and
one below. -/
def vecColour (m : Mosaic) (x y : Nat) : Rgb Nat :=
  if x % 2 = 0 ∧ y % 2 = 1 then { m.colour x y with r := (m.sample x (y - 2) + m.sample x (m.below y)) / 2 }
  else m.colour x y

def vecLevels (m : Mosaic) (x y : Nat) : Rgb Nat := (vecColour m x y).map rounded

theorem vecColour_le (hx : x < f.width) (hy : y < f.height) :
    (vecColour f.mosaic x y).r ≤ 1023 ∧ (vecColour f.mosaic x y).g ≤ 1023 ∧ (vecColour f.mosaic x y).b ≤ 1023 := by
  have h := f.colour_le hx hy
  unfold vecColour
  split
  · refine ⟨?_, h.2⟩
    have habove := Frame.sample_le (f := f) hx (by omega : y - 2 < f.height)
    have hbelow := Frame.sample_le (f := f) hx (Mosaic.below_lt (m := f.mosaic) hy)
    simp only
    omega
  · exact h

theorem vecLevels_le (hx : x < f.width) (hy : y < f.height) :
    (vecLevels f.mosaic x y).r ≤ 256 ∧ (vecLevels f.mosaic x y).g ≤ 256 ∧ (vecLevels f.mosaic x y).b ≤ 256 := by
  obtain ⟨hr, hg, hb⟩ := vecColour_le hx hy
  simp only [vecLevels, Rgb.map, rounded]
  omega

/-- The lanes are the levels of four blocks. -/
structure Holds (f : Frame) (b : Blocks) (x y : Nat) : Prop where
  c0 : ∀ i : Fin 4, laneAt b.c0 i = vecLevels f.mosaic (2 * (x + i)) (2 * y)
  c1 : ∀ i : Fin 4, laneAt b.c1 i = vecLevels f.mosaic (2 * (x + i) + 1) (2 * y)
  c2 : ∀ i : Fin 4, laneAt b.c2 i = vecLevels f.mosaic (2 * (x + i)) (2 * y + 1)
  c3 : ∀ i : Fin 4, laneAt b.c3 i = vecLevels f.mosaic (2 * (x + i) + 1) (2 * y + 1)

theorem neonBlocks_lane (i : Fin 4) (hxw : 2 * x + 8 < f.width) (hy : 2 * y < f.height) {b : Blocks}
    (hb : b = neonBlocks (rowAt f.raw f.width (2 * y - 1)) (rowAt f.raw f.width (2 * y)) (rowAt f.raw f.width (2 * y + 1))
      (rowAt f.raw f.width (f.mosaic.below (2 * y + 1))) (2 * x)) :
    laneAt b.c0 i = vecLevels f.mosaic (2 * (x + i)) (2 * y) ∧
    laneAt b.c1 i = vecLevels f.mosaic (2 * (x + i) + 1) (2 * y) ∧
    laneAt b.c2 i = vecLevels f.mosaic (2 * (x + i)) (2 * y + 1) ∧
    laneAt b.c3 i = vecLevels f.mosaic (2 * (x + i) + 1) (2 * y + 1) := by
  have hh := f.height_even
  have hi := i.isLt
  have hX : 2 * (x + i) + 1 < f.width := by omega
  have hY : 2 * y + 1 < f.height := by omega
  have hxx : 2 * x + i.val * 2 = 2 * (x + i) := by omega
  have hright : f.mosaic.right (2 * (x + i) + 1) = 2 * (x + i) + 2 := by
    simp only [Mosaic.right, Frame.mosaic]
    omega
  obtain ⟨h₀, h₁, h₂, h₃⟩ := Mosaic.colour_block (m := f.mosaic) hX hY
  have hle₀ := vecColour_le (by omega : 2 * (x + i) < f.width) hy
  have hle₁ := vecColour_le hX hy
  have hle₂ := vecColour_le (by omega : 2 * (x + i) < f.width) hY
  have hle₃ := vecColour_le hX hY
  rw [hright] at h₁ h₃
  have hp₀ : vecColour f.mosaic (2 * (x + i)) (2 * y) = f.mosaic.colour (2 * (x + i)) (2 * y) := if_neg (by omega)
  have hp₁ : vecColour f.mosaic (2 * (x + i) + 1) (2 * y) = f.mosaic.colour (2 * (x + i) + 1) (2 * y) := if_neg (by omega)
  have hp₃ : vecColour f.mosaic (2 * (x + i) + 1) (2 * y + 1) = f.mosaic.colour (2 * (x + i) + 1) (2 * y + 1) :=
    if_neg (by omega)
  have hp₂ : vecColour f.mosaic (2 * (x + i)) (2 * y + 1) =
      { f.mosaic.colour (2 * (x + i)) (2 * y + 1) with
        r := (f.mosaic.sample (2 * (x + i)) (2 * y - 1) + f.mosaic.sample (2 * (x + i))
            (f.mosaic.below (2 * y + 1))) / 2 } :=
    if_pos (by omega)
  rw [hp₀, h₀] at hle₀
  rw [hp₁, h₁] at hle₁
  rw [hp₂, h₂] at hle₂
  rw [hp₃, h₃] at hle₃
  simp only at hle₀ hle₁ hle₂ hle₃
  subst hb
  simp only [vecLevels, hp₀, hp₁, hp₂, hp₃, h₀, h₁, h₂, h₃, laneAt, neonBlocks, Rgb.map, neonRaw10ToU8_apply, hxx, rowAt_eq]
  refine ⟨?_, ?_, ?_, ?_⟩
  · rw [toNat_lane hle₀.1, toNat_lane hle₀.2.1, toNat_lane hle₀.2.2]
  · rw [toNat_lane hle₁.1, toNat_lane hle₁.2.1, toNat_lane hle₁.2.2]
  · rw [toNat_lane hle₂.1, toNat_lane hle₂.2.1, toNat_lane hle₂.2.2]
  · rw [toNat_lane hle₃.1, toNat_lane hle₃.2.1, toNat_lane hle₃.2.2]

/-- The rows that `neon_process_8_columns` is given for the blocks of row `2 * y`. -/
theorem neonBlocks_holds (hx : 2 * x + 8 < f.width) (hy : 2 * y < f.height) :
    Holds f (neonBlocks (rowAt f.raw f.width (2 * y - 1)) (rowAt f.raw f.width (2 * y)) (rowAt f.raw f.width (2 * y + 1))
      (rowAt f.raw f.width (f.mosaic.below (2 * y + 1))) (2 * x)) x y where
  c0 i := (neonBlocks_lane i hx hy rfl).1
  c1 i := (neonBlocks_lane i hx hy rfl).2.1
  c2 i := (neonBlocks_lane i hx hy rfl).2.2.1
  c3 i := (neonBlocks_lane i hx hy rfl).2.2.2

/-! ## What the parts write -/

/-- The RGB of the columns from `a` on and before `b`, in two rows. -/
def rgbOf (a b y : Nat) : Set Place := {p | ∃ x' y', ((a ≤ x' ∧ x' < b) ∧ y' / 2 = y) ∧ p = .rgb x' y'}

/-- The luma of these columns. -/
def lumaOf (a b y : Nat) : Set Place := {p | ∃ x' y', ((a ≤ x' ∧ x' < b) ∧ y' / 2 = y) ∧ p = .luma x' y'}

/-- The chroma of the blocks in these columns. -/
def chromaOf (a b y : Nat) : Set Place := {p | ∃ x', (a ≤ 2 * x' ∧ 2 * x' < b) ∧ p = .chroma x' y}

section Membership

variable {a b x' y' : Nat}

@[simp] theorem rgb_mem_rgbOf : .rgb x' y' ∈ rgbOf a b y ↔ (a ≤ x' ∧ x' < b) ∧ y' / 2 = y := by simp [rgbOf]

@[simp] theorem luma_notMem_rgbOf : .luma x' y' ∉ rgbOf a b y := by simp [rgbOf]

@[simp] theorem chroma_notMem_rgbOf : .chroma x' y' ∉ rgbOf a b y := by simp [rgbOf]

@[simp] theorem luma_mem_lumaOf : .luma x' y' ∈ lumaOf a b y ↔ (a ≤ x' ∧ x' < b) ∧ y' / 2 = y := by simp [lumaOf]

@[simp] theorem rgb_notMem_lumaOf : .rgb x' y' ∉ lumaOf a b y := by simp [lumaOf]

@[simp] theorem chroma_notMem_lumaOf : .chroma x' y' ∉ lumaOf a b y := by simp [lumaOf]

@[simp] theorem chroma_mem_chromaOf : .chroma x' y' ∈ chromaOf a b y ↔ (a ≤ 2 * x' ∧ 2 * x' < b) ∧ y' = y := by
  simp [chromaOf]

@[simp] theorem rgb_notMem_chromaOf : .rgb x' y' ∉ chromaOf a b y := by simp [chromaOf]

@[simp] theorem luma_notMem_chromaOf : .luma x' y' ∉ chromaOf a b y := by simp [chromaOf]

end Membership

/-- Every other column. -/
theorem exists_everyOther {a n : Nat} : (∃ i : Fin 4, n = a + i.val * 2) ↔ a ≤ n ∧ n < a + 8 ∧ (n - a) % 2 = 0 := by
  constructor
  · rintro ⟨i, rfl⟩
    omega
  · intro h
    exact ⟨⟨(n - a) / 2, by omega⟩, by simp only; omega⟩

theorem exists_next {a n : Nat} : (∃ i : Fin 4, n = a + i.val) ↔ a ≤ n ∧ n < a + 4 := by
  constructor
  · rintro ⟨i, rfl⟩
    omega
  · intro h
    exact ⟨⟨n - a, by omega⟩, by simp only; omega⟩

section Parts

variable {s : Canvas} {pic : Cell → UInt8}

theorem neonPutY_puts {k : Nat} {tmp : Vec 4 UInt8} (hx : x + 6 < s.width) (hy : y < s.height) (hk : k = y * s.width + x)
    (htmp : ∀ i : Fin 4, tmp i = pic (.luma (x + i.val * 2) y)) (hs : s.i420 = true) :
    Puts s (neonPutY k tmp) {p | ∃ i : Fin 4, p ∈ ({.luma (x + i.val * 2) y} : Set Place)} pic :=
  Puts.lanes fun i => puts_luma (by omega) hy (by omega) (htmp i) hs

theorem neonPutRgb_puts {rgbRow : Nat} {c : Rgb (Vec 4 UInt16)} (level : Nat → Nat → Rgb Nat) (hx : x + 6 < s.width)
    (hy : y < s.height) (hrow : rgbRow = y * s.width * 3) (hc : ∀ i : Fin 4, laneAt c i = level (x + i.val * 2) y)
    (hs : s.rgb = true) :
    Puts s (neonPutRgb rgbRow x c) {p | ∃ i : Fin 4, p ∈ ({.rgb (x + i.val * 2) y} : Set Place)} (painted level) := by
  refine Puts.lanes fun i => puts_rgb (by omega) hy (by rw [hrow]; ring) ?_ ?_ ?_ hs
  · rw [painted, ← hc i]
    rfl
  · rw [painted, ← hc i]
    rfl
  · rw [painted, ← hc i]
    rfl

end Parts

section Kernel

variable {b : Blocks} {i420 rgb : Bool}

theorem neonWriteY_puts (h : Holds f b x y) (hx : 2 * x + 8 < f.width) (hy : 2 * y < f.height) (hi : i420 = true) :
    Puts (f.canvas i420 rgb) (neonWriteY b (2 * x) (2 * y * f.width) ((2 * y + 1) * f.width))
      (lumaOf (2 * x) (2 * x + 8) y) (painted (vecLevels f.mosaic)) := by
  have hh := f.height_even
  have hY : 2 * y + 1 < f.height := by omega
  have hxx : ∀ i : Fin 4, 2 * x + i.val * 2 = 2 * (x + i) := fun i => by omega
  have hxx1 : ∀ i : Fin 4, 2 * x + 1 + i.val * 2 = 2 * (x + i) + 1 := fun i => by omega
  have hluma : ∀ {c : Rgb (Vec 4 UInt16)} {a b : Nat} (i : Fin 4), laneAt c i = vecLevels f.mosaic a b → a < f.width →
      b < f.height → neonStore4U16AsU8 (neonY c) i = painted (vecLevels f.mosaic) (.luma a b) := by
    intro c a b i hc ha hb
    rw [neonY_eq (hc ▸ vecLevels_le ha hb), hc]
    rfl
  have h₀ := neonPutY_puts (s := f.canvas i420 rgb) (x := 2 * x) (y := 2 * y) (show 2 * x + 6 < f.width by omega) hy rfl
    (fun i => hluma i (by rw [h.c0, hxx]) (by omega) hy) hi
  have h₁ := neonPutY_puts (s := f.canvas i420 rgb) (x := 2 * x + 1) (y := 2 * y) (show 2 * x + 1 + 6 < f.width by omega) hy
    rfl (fun i => hluma i (by rw [h.c1, hxx1]) (by omega) hy) hi
  have h₂ := neonPutY_puts (s := f.canvas i420 rgb) (x := 2 * x) (y := 2 * y + 1) (show 2 * x + 6 < f.width by omega) hY rfl
    (fun i => hluma i (by rw [h.c2, hxx]) (by omega) hY) hi
  have h₃ := neonPutY_puts (s := f.canvas i420 rgb) (x := 2 * x + 1) (y := 2 * y + 1) (show 2 * x + 1 + 6 < f.width by omega)
    hY rfl (fun i => hluma i (by rw [h.c3, hxx1]) (by omega) hY) hi
  refine (((h₀.append h₁).append h₂).append h₃).congr (fun c hc => ?_) (fun _ _ _ => rfl)
  cases c with
  | luma x' y' =>
    simp only [Cell.place, Set.mem_union, Set.mem_ofPred_eq, Set.mem_singleton_iff, Place.luma.injEq, exists_and_right,
      exists_everyOther, luma_mem_lumaOf]
    omega
  | rgb _ _ _ | u _ _ | v _ _ => simp [Cell.place]

theorem neonWriteRgb_puts (h : Holds f b x y) (hx : 2 * x + 8 < f.width) (hy : 2 * y < f.height) (hr : rgb = true) :
    Puts (f.canvas i420 rgb) (neonWriteRgb b (2 * x) (2 * y * f.width * 3) ((2 * y + 1) * f.width * 3))
      (rgbOf (2 * x) (2 * x + 8) y) (painted (vecLevels f.mosaic)) := by
  have hh := f.height_even
  have hY : 2 * y + 1 < f.height := by omega
  have hxx : ∀ i : Fin 4, 2 * x + i.val * 2 = 2 * (x + i) := fun i => by omega
  have hxx1 : ∀ i : Fin 4, 2 * x + 1 + i.val * 2 = 2 * (x + i) + 1 := fun i => by omega
  have h₀ := neonPutRgb_puts (s := f.canvas i420 rgb) (x := 2 * x) (y := 2 * y) (vecLevels f.mosaic)
    (show 2 * x + 6 < f.width by omega) hy rfl (fun i => by rw [h.c0, hxx]) hr
  have h₁ := neonPutRgb_puts (s := f.canvas i420 rgb) (x := 2 * x + 1) (y := 2 * y) (vecLevels f.mosaic)
    (show 2 * x + 1 + 6 < f.width by omega) hy rfl (fun i => by rw [h.c1, hxx1]) hr
  have h₂ := neonPutRgb_puts (s := f.canvas i420 rgb) (x := 2 * x) (y := 2 * y + 1) (vecLevels f.mosaic)
    (show 2 * x + 6 < f.width by omega) hY rfl (fun i => by rw [h.c2, hxx]) hr
  have h₃ := neonPutRgb_puts (s := f.canvas i420 rgb) (x := 2 * x + 1) (y := 2 * y + 1) (vecLevels f.mosaic)
    (show 2 * x + 1 + 6 < f.width by omega) hY rfl (fun i => by rw [h.c3, hxx1]) hr
  refine (((h₀.append h₁).append h₂).append h₃).congr (fun c hc => ?_) (fun _ _ _ => rfl)
  cases c with
  | rgb x' y' k =>
    simp only [Cell.place, Set.mem_union, Set.mem_ofPred_eq, Set.mem_singleton_iff, Place.rgb.injEq, exists_and_right,
      exists_everyOther, rgb_mem_rgbOf]
    omega
  | luma _ _ | u _ _ | v _ _ => simp [Cell.place]

/-- The chroma is that of the levels; it does not stay. -/
theorem neonWriteUv_puts (h : Holds f b x y) (hx : 2 * x + 8 < f.width) (hy : 2 * y < f.height) (hi : i420 = true) :
    Puts (f.canvas i420 rgb)
      (neonWriteUv b (2 * x) (f.width * f.height + y * (f.width / 2))
        (f.width * f.height + f.width / 2 * (f.height / 2) + y * (f.width / 2)))
      (chromaOf (2 * x) (2 * x + 8) y) (painted (vecLevels f.mosaic)) := by
  have hh := f.height_even
  have hY : 2 * y + 1 < f.height := by omega
  have hx2 : 2 * x / 2 = x := by omega
  have hmean : ∀ i : Fin 4, laneAt (neonAvg b) i = blockMean (vecLevels f.mosaic) (2 * (x + i)) (2 * y) := by
    intro i
    have hX : 2 * (x + i) < f.width := by omega
    have hX1 : 2 * (x + i) + 1 < f.width := by omega
    have hle₀ := h.c0 i ▸ vecLevels_le (f := f) hX hy
    have hle₁ := h.c1 i ▸ vecLevels_le (f := f) hX1 hy
    have hle₂ := h.c2 i ▸ vecLevels_le (f := f) hX hY
    have hle₃ := h.c3 i ▸ vecLevels_le (f := f) hX1 hY
    rw [blockMean, ← h.c0, ← h.c1, ← h.c2, ← h.c3]
    exact Rgb.ext (toNat_mean hle₀.1 hle₁.1 hle₂.1 hle₃.1) (toNat_mean hle₀.2.1 hle₁.2.1 hle₂.2.1 hle₃.2.1)
      (toNat_mean hle₀.2.2 hle₁.2.2 hle₂.2.2 hle₃.2.2)
  simp only [neonWriteUv, hx2]
  refine (Puts.lanes fun i => puts_chroma (s := f.canvas i420 rgb) (x := x + i) (y := y)
    (show x + i < f.width / 2 by omega) (show y < f.height / 2 by omega) (Nat.add_assoc _ _ _) (Nat.add_assoc _ _ _)
    ?_ ?_ hi).congr (fun c hc => ?_) (fun _ _ _ => rfl)
  · rw [rgbToU, clampU8_uValue, painted, ← hmean]
    rfl
  · rw [rgbToV, clampU8_vValue, painted, ← hmean]
    rfl
  · cases c with
    | u x' y' | v x' y' =>
      simp only [Cell.place, Set.mem_ofPred_eq, Set.mem_singleton_iff, Place.chroma.injEq, exists_and_right, exists_next,
        chroma_mem_chromaOf]
      omega
    | rgb _ _ _ | luma _ _ => simp [Cell.place]

theorem kernel_puts (hx : 2 * x + 8 < f.width) (hy : 2 * y < f.height) :
    Puts (f.canvas i420 rgb)
      (neonProcess8Columns (rowAt f.raw f.width (2 * y - 1)) (rowAt f.raw f.width (2 * y))
        (rowAt f.raw f.width (2 * y + 1)) (rowAt f.raw f.width (f.mosaic.below (2 * y + 1))) (2 * x) (2 * y * f.width)
        ((2 * y + 1) * f.width) (2 * y * f.width * 3) ((2 * y + 1) * f.width * 3)
        (f.width * f.height + y * (f.width / 2))
        (f.width * f.height + f.width / 2 * (f.height / 2) + y * (f.width / 2)) i420 rgb i420)
      (lumaOf (2 * x) (2 * x + 8) y ∪ rgbOf (2 * x) (2 * x + 8) y ∪ chromaOf (2 * x) (2 * x + 8) y)
      (painted (vecLevels f.mosaic)) := by
  have h := neonBlocks_holds (f := f) hx hy
  exact Puts.append (Puts.append (Puts.ifI420 rfl (neonWriteY_puts h hx hy) (by simp))
    (Puts.ifRgb rfl (neonWriteRgb_puts h hx hy) (by simp) (by simp)))
    (Puts.ifI420 rfl (neonWriteUv_puts h hx hy) (by simp))

end Kernel

/-! ## The rows of a block -/

/-- What the converter draws: in the columns of the vector loop, the pixels with its levels. -/
def vectorized (width x : Nat) : Prop := 4 ≤ x ∧ x < 4 + 8 * (interior width).length

instance (width x : Nat) : Decidable (vectorized width x) := inferInstanceAs (Decidable (_ ∧ _))

def neonPicture (f : Frame) : Cell → UInt8
  | .rgb x y k =>
    if vectorized f.width x then painted (vecLevels f.mosaic) (.rgb x y k) else f.mosaic.rendered byteOf (.rgb x y k)
  | .luma x y =>
    if vectorized f.width x then painted (vecLevels f.mosaic) (.luma x y) else f.mosaic.rendered byteOf (.luma x y)
  | .u x y => f.mosaic.rendered byteOf (.u x y)
  | .v x y => f.mosaic.rendered byteOf (.v x y)

/-- The picture before the chroma is calculated again. -/
def firstPicture (f : Frame) : Cell → UInt8
  | .u x y => painted (vecLevels f.mosaic) (.u x y)
  | .v x y => painted (vecLevels f.mosaic) (.v x y)
  | c => neonPicture f c

section Rows

variable {i420 rgb : Bool}

theorem neonColumn_puts (hx : x < f.width) (hy : 2 * y < f.height) :
    Puts (f.canvas i420 rgb) (neonColumn f.width f.height f.raw i420 rgb (2 * y) x)
      (rgbOf x (x + 1) y ∪ lumaOf x (x + 1) y) (f.mosaic.rendered byteOf) := by
  have hh := f.height_even
  refine (Puts.flatMap (P := fun dy => {.rgb x (2 * y + dy)} ∪ {.luma x (2 * y + dy)}) fun dy hdy => ?_).congr
    (fun c hc => ?_) (fun _ _ _ => rfl)
  · have hrow := mem_loop_one.1 hdy
    simp only
    rw [if_neg (by omega)]
    exact pixelU8_puts i420 rgb hx (by omega) rfl rfl
  · have hpair : ∀ a : Nat, (∃ dy ∈ loop 0 2 1, a = 2 * y + dy) ↔ a / 2 = y := by
      intro a
      simp only [mem_loop_one]
      constructor
      · rintro ⟨dy, hdy, rfl⟩
        omega
      · intro ha
        exact ⟨a % 2, by omega, by omega⟩
    cases c with
    | rgb x' y' k =>
      simp only [Cell.place, Set.mem_ofPred_eq, Set.mem_union, Set.mem_singleton_iff,
        Place.rgb.injEq, reduceCtorEq, or_false,
        and_left_comm (b := x' = x), exists_and_left, hpair, rgb_mem_rgbOf, rgb_notMem_lumaOf]
      omega
    | luma x' y' =>
      simp only [Cell.place, Set.mem_ofPred_eq, Set.mem_union, Set.mem_singleton_iff,
        Place.luma.injEq, reduceCtorEq, false_or,
        and_left_comm (b := x' = x), exists_and_left, hpair, luma_mem_lumaOf, luma_notMem_rgbOf]
      omega
    | u _ _ | v _ _ => simp [Cell.place]

theorem neonColumns_puts (i420 rgb : Bool) {a b : Nat} (hb : b ≤ f.width) (hy : 2 * y < f.height) :
    Puts (f.canvas i420 rgb) ((loop a b 1).flatMap fun x => neonColumn f.width f.height f.raw i420 rgb (2 * y) x)
      (rgbOf a b y ∪ lumaOf a b y) (f.mosaic.rendered byteOf) := by
  refine (Puts.flatMap fun x hx => neonColumn_puts (by have := mem_loop_one.1 hx; omega) hy).congr (fun c hc => ?_)
    (fun _ _ _ => rfl)
  have hcolumn : ∀ (n : Nat) (p : Prop), (∃ x, (a ≤ x ∧ x < b) ∧ (x ≤ n ∧ n < x + 1) ∧ p) ↔ (a ≤ n ∧ n < b) ∧ p := by
    intro n p
    constructor
    · rintro ⟨x, hx, hn, hp⟩
      exact ⟨by omega, hp⟩
    · rintro ⟨hn, hp⟩
      exact ⟨n, hn, by omega, hp⟩
  cases c with
  | rgb x' y' k => simp only [Cell.place, Set.mem_ofPred_eq, Set.mem_union, rgb_mem_rgbOf, rgb_notMem_lumaOf, or_false,
      mem_loop_one, hcolumn]
  | luma x' y' => simp only [Cell.place, Set.mem_ofPred_eq, Set.mem_union, luma_mem_lumaOf, luma_notMem_rgbOf, false_or,
      mem_loop_one, hcolumn]
  | u _ _ | v _ _ => simp [Cell.place]

theorem length_interior (hw : 16 ≤ f.width) : (interior f.width).length = (f.width - 8) / 8 := by
  rw [interior, length_loop]
  congr 1
  omega

theorem mem_interior (hw : 16 ≤ f.width) {x : Nat} (hx : x ∈ interior f.width) :
    ∃ i, x = 2 * (2 + 4 * i) ∧ i < (interior f.width).length ∧ x + 12 ≤ f.width := by
  obtain ⟨hlt, i, rfl⟩ := (mem_loop (by omega)).1 hx
  rw [length_interior hw]
  exact ⟨i, by omega, by omega, by omega⟩

theorem interior_puts (i420 rgb : Bool) (hw : 16 ≤ f.width) (hy : 2 * y < f.height) :
    Puts (f.canvas i420 rgb)
      ((interior f.width).flatMap fun x =>
        neonProcess8Columns (rowAt f.raw f.width (2 * y - 1)) (rowAt f.raw f.width (2 * y))
        (rowAt f.raw f.width (2 * y + 1)) (rowAt f.raw f.width (f.mosaic.below (2 * y + 1))) x (2 * y * f.width)
        ((2 * y + 1) * f.width) (2 * y * f.width * 3) ((2 * y + 1) * f.width * 3)
        (f.width * f.height + y * (f.width / 2))
        (f.width * f.height + f.width / 2 * (f.height / 2) + y * (f.width / 2)) i420 rgb i420)
      (lumaOf 4 (4 + 8 * (interior f.width).length) y ∪ rgbOf 4 (4 + 8 * (interior f.width).length) y ∪
        chromaOf 4 (4 + 8 * (interior f.width).length) y)
      (painted (vecLevels f.mosaic)) := by
  refine (Puts.flatMap (P := fun x => lumaOf x (x + 8) y ∪ rgbOf x (x + 8) y ∪ chromaOf x (x + 8) y) fun x hx => ?_).congr
    (fun c hc => ?_) (fun _ _ _ => rfl)
  · obtain ⟨i, rfl, hi, hlt⟩ := mem_interior hw hx
    exact kernel_puts (by omega) hy
  · have hcolumn : ∀ (n : Nat) (p : Prop), (∃ x ∈ interior f.width, (x ≤ n ∧ n < x + 8) ∧ p) ↔
        (4 ≤ n ∧ n < 4 + 8 * (interior f.width).length) ∧ p := by
      intro n p
      constructor
      · rintro ⟨x, hx, hn, hp⟩
        obtain ⟨i, rfl, hi, hlt⟩ := mem_interior hw hx
        exact ⟨by omega, hp⟩
      · rintro ⟨hn, hp⟩
        rw [length_interior hw] at hn
        refine ⟨4 + 8 * ((n - 4) / 8), ?_, by omega, hp⟩
        rw [interior, mem_loop (by omega)]
        exact ⟨by omega, _, rfl⟩
    cases c with
    | rgb x' y' k => simp only [Cell.place, Set.mem_ofPred_eq, Set.mem_union, rgb_mem_rgbOf, rgb_notMem_lumaOf,
        rgb_notMem_chromaOf, or_false, false_or, hcolumn]
    | luma x' y' => simp only [Cell.place, Set.mem_ofPred_eq, Set.mem_union, luma_mem_lumaOf, luma_notMem_rgbOf,
        luma_notMem_chromaOf, or_false, hcolumn]
    | u x' y' | v x' y' => simp only [Cell.place, Set.mem_ofPred_eq, Set.mem_union, chroma_mem_chromaOf, chroma_notMem_rgbOf,
        chroma_notMem_lumaOf, false_or, hcolumn]

theorem blockUv_puts (hi : i420 = true) (hx : 2 * x < f.width) (hy : 2 * y < f.height) :
    Puts (f.canvas i420 rgb) (neonBlockUv f.width f.height f.raw (2 * y) (2 * x)) {.chroma x y}
      (f.mosaic.rendered byteOf) := by
  have hw := f.width_even
  have hh := f.height_even
  have hinside : neonBlockUv f.width f.height f.raw (2 * y) (2 * x) =
      scalarBlock f.width f.height f.raw (2 * y) (2 * x) := by
    have hX : ¬ (2 * x + 1 ≥ f.width) := by omega
    have hX' : ¬ (2 * x ≥ f.width) := by omega
    have hY : ¬ (2 * y + 1 ≥ f.height) := by omega
    have hY' : ¬ (2 * y ≥ f.height) := by omega
    simp only [neonBlockUv, Nat.add_zero, if_neg hX, if_neg hX', if_neg hY, if_neg hY']
    rfl
  rw [hinside]
  exact scalarBlock_puts i420 rgb hi hx hy

theorem firstPicture_plain {a b : Nat} {c : Cell} (hab : b ≤ 4 ∨ 4 + 8 * (interior f.width).length ≤ a)
    (hc : c.place ∈ rgbOf a b y ∪ lumaOf a b y) : f.mosaic.rendered byteOf c = firstPicture f c := by
  cases c with
  | rgb x' y' k =>
    simp only [Cell.place, Set.mem_union, rgb_mem_rgbOf, rgb_notMem_lumaOf, or_false] at hc
    refine (if_neg (fun hv => ?_)).symm
    unfold vectorized at hv
    omega
  | luma x' y' =>
    simp only [Cell.place, Set.mem_union, luma_mem_lumaOf, luma_notMem_rgbOf, false_or] at hc
    refine (if_neg (fun hv => ?_)).symm
    unfold vectorized at hv
    omega
  | u _ _ | v _ _ => simp [Cell.place] at hc

theorem firstPicture_vec {c : Cell}
    (hc : c.place ∈ lumaOf 4 (4 + 8 * (interior f.width).length) y ∪ rgbOf 4 (4 + 8 * (interior f.width).length) y ∪
      chromaOf 4 (4 + 8 * (interior f.width).length) y) : painted (vecLevels f.mosaic) c = firstPicture f c := by
  cases c with
  | rgb x' y' k =>
    simp only [Cell.place, Set.mem_union, rgb_mem_rgbOf, rgb_notMem_lumaOf, rgb_notMem_chromaOf, or_false, false_or] at hc
    exact (if_pos hc.1).symm
  | luma x' y' =>
    simp only [Cell.place, Set.mem_union, luma_mem_lumaOf, luma_notMem_rgbOf, luma_notMem_chromaOf, or_false] at hc
    exact (if_pos hc.1).symm
  | u _ _ | v _ _ => rfl

/-- What a turn of the loop over the rows draws. -/
theorem neonRows_puts (hw : 16 ≤ f.width) (hy : 2 * y < f.height) :
    Puts (f.canvas i420 rgb) (neonRows f.width f.height f.raw i420 rgb (2 * y))
      (rgbOf 0 f.width y ∪ lumaOf 0 f.width y ∪ chromaOf 0 f.width y) (neonPicture f) := by
  have hh := f.height_even
  have hwe := f.width_even
  have hlen := length_interior hw
  have hym1 : (if 2 * y > 0 then 2 * y - 1 else 2 * y) = 2 * y - 1 := by split <;> omega
  have hyp2 : (if 2 * y + 2 < f.height then 2 * y + 2 else 2 * y + 1) = f.mosaic.below (2 * y + 1) := by
    simp only [Mosaic.below, Frame.mosaic]
    split <;> omega
  have hy2 : 2 * y / 2 = y := by omega
  have hleft := neonColumns_puts (f := f) i420 rgb (a := 0) (b := min 4 f.width) (by omega) hy
  have hrest := neonColumns_puts (f := f) i420 rgb (a := 4 + 8 * (interior f.width).length) le_rfl hy
  have hvec := interior_puts i420 rgb hw hy
  have huv : Puts (f.canvas i420 rgb)
      (if i420 then (loop 0 f.width 2).flatMap fun bx => neonBlockUv f.width f.height f.raw (2 * y) bx else [])
      (chromaOf 0 f.width y) (f.mosaic.rendered byteOf) := by
    refine (Puts.ifI420 rfl (fun hi => Puts.steps Nat.two_pos fun x hx => blockUv_puts hi hx hy) (by simp)).congr
      (fun c hc => ?_) (fun _ _ _ => rfl)
    cases c with
    | u x' y' | v x' y' => simp [Cell.place]
    | rgb _ _ _ | luma _ _ => simp [Cell.place]
  simp only [neonRows, if_pos (by omega : 2 * y + 1 < f.height), hym1, hyp2, hy2]
  have hleft' := hleft.congr (fun _ _ => Iff.rfl) (fun c _ hP => firstPicture_plain (by omega) hP)
  have hvec' := hvec.congr (fun _ _ => Iff.rfl) (fun c _ hP => firstPicture_vec hP)
  have hrest' := hrest.congr (fun _ _ => Iff.rfl) (fun c _ hP => firstPicture_plain (by omega) hP)
  refine (((hleft'.append hvec').append hrest').over huv (fun c _ hP hQ => ?_) (fun c _ hQ => ?_)).congr
    (fun c hc => ?_) (fun _ _ _ => rfl)
  · cases c with
    | rgb _ _ _ | luma _ _ => rfl
    | u x' y' | v x' y' =>
      simp only [Cell.place, Set.mem_union, chroma_mem_chromaOf, chroma_notMem_rgbOf, chroma_notMem_lumaOf, or_false,
        false_or] at hP hQ
      omega
  · cases c with
    | rgb _ _ _ | luma _ _ => simp [Cell.place] at hQ
    | u _ _ | v _ _ => rfl
  · cases c with
    | rgb x' y' k =>
      simp only [Cell.place, Set.mem_union, rgb_mem_rgbOf, rgb_notMem_lumaOf, rgb_notMem_chromaOf, or_false, false_or]
      omega
    | luma x' y' =>
      simp only [Cell.place, Set.mem_union, luma_mem_lumaOf, luma_notMem_rgbOf, luma_notMem_chromaOf, or_false, false_or]
      omega
    | u x' y' | v x' y' =>
      simp only [Cell.place, Set.mem_union, chroma_mem_chromaOf, chroma_notMem_rgbOf, chroma_notMem_lumaOf, or_false,
        false_or]
      omega

/-- The NEON converter draws a whole picture, too. -/
theorem neon_draws (i420 rgb : Bool) (hw : 16 ≤ f.width) (hh : 4 ≤ f.height) :
    Draws (f.canvas i420 rgb) (aloeRggb10ToRgb888I420Neon f.width f.height f.raw i420 rgb) (neonPicture f) := by
  rw [aloeRggb10ToRgb888I420Neon, if_neg (by omega)]
  refine (Puts.steps Nat.two_pos fun y hy => neonRows_puts hw hy).draws (fun c hc => ?_)
  have hhe := f.height_even
  cases c with
  | rgb x y k =>
    obtain ⟨-, hx, hy, -⟩ := hc
    simp only [Frame.canvas] at hx hy
    refine ⟨y / 2, by omega, ?_⟩
    simpa [Cell.place] using hx
  | luma x y =>
    obtain ⟨-, hx, hy⟩ := hc
    simp only [Frame.canvas] at hx hy
    refine ⟨y / 2, by omega, ?_⟩
    simpa [Cell.place] using hx
  | u x y | v x y =>
    obtain ⟨-, hx, hy⟩ := hc
    simp only [Frame.canvas] at hx hy
    exact ⟨y, by omega, .inr (chroma_mem_chromaOf.2 ⟨⟨by omega, by omega⟩, rfl⟩)⟩

end Rows

/-! ## Where they agree -/

/-- The luma of three levels, before 16 is added. -/
def lumaQuotient (r g b : Nat) : Nat := (66 * r + 129 * g + 25 * b + 128) / 256

/-- The mean that the vector loop takes for red: of the rows two above and one below. -/
def redMean (m : Mosaic) (x y : Nat) : Nat := (m.sample x (y - 2) + m.sample x (m.below y)) / 2

/-- What a pixel in the columns of the vector loop must be like. -/
def AgreesAt (m : Mosaic) (i420 rgb : Bool) (x y : Nat) : Prop :=
  if x % 2 = 0 ∧ y % 2 = 1 then
    (rgb = true → byteOf (redMean m x y) = byteOf (m.colour x y).r) ∧
    (i420 = true → lumaQuotient (rounded (redMean m x y)) (rounded (m.colour x y).g) (rounded (m.colour x y).b) =
      lumaQuotient (byteOf (m.colour x y).r) (byteOf (m.colour x y).g) (byteOf (m.colour x y).b))
  else
    i420 = true → (m.colour x y).r ≤ 1021 ∧ (m.colour x y).g ≤ 1021 ∧ (m.colour x y).b ≤ 1021

def Agrees (f : Frame) (i420 rgb : Bool) : Prop :=
  16 ≤ f.width → 4 ≤ f.height → ∀ x y, x < f.width → y < f.height → vectorized f.width x → AgreesAt f.mosaic i420 rgb x y

theorem ofNat_rounded_eq {v w : Nat} : UInt8.ofNat (rounded v) = UInt8.ofNat (byteOf w) ↔ byteOf v = byteOf w := by
  rw [← UInt8.toNat_inj, UInt8.toNat_ofNat', UInt8.toNat_ofNat']
  unfold byteOf
  omega

theorem byteOf_le (v : Nat) : byteOf v ≤ 256 := by
  unfold byteOf
  omega

theorem luma_eq_iff {c d : Rgb Nat} (hc : c.r ≤ 256 ∧ c.g ≤ 256 ∧ c.b ≤ 256) (hd : d.r ≤ 256 ∧ d.g ≤ 256 ∧ d.b ≤ 256) :
    bt601Y c = bt601Y d ↔ lumaQuotient c.r c.g c.b = lumaQuotient d.r d.g d.b := by
  rw [bt601Y_eq hc, bt601Y_eq hd, ← UInt8.toNat_inj, UInt8.toNat_ofNat', UInt8.toNat_ofNat']
  unfold lumaQuotient
  omega

/-- A level of 256 shows in the luma. -/
theorem lumaQuotient_rounded {r g b : Nat} (hr : r ≤ 1023) (hg : g ≤ 1023) (hb : b ≤ 1023) :
    lumaQuotient (rounded r) (rounded g) (rounded b) = lumaQuotient (byteOf r) (byteOf g) (byteOf b) ↔
      r ≤ 1021 ∧ g ≤ 1021 ∧ b ≤ 1021 := by
  have hlevel : ∀ v ≤ 1023, (v ≤ 1021 ∧ rounded v = byteOf v) ∨ (1022 ≤ v ∧ rounded v = 256 ∧ byteOf v = 0) := by
    intro v hv
    unfold byteOf rounded
    omega
  have hr' := hlevel r hr
  have hg' := hlevel g hg
  have hb' := hlevel b hb
  unfold lumaQuotient
  omega

theorem rgb_eq_iff (m : Mosaic) (x y : Nat) :
    (∀ k < 3, painted (vecLevels m) (.rgb x y k) = m.rendered byteOf (.rgb x y k)) ↔
      byteOf (vecColour m x y).r = byteOf (m.colour x y).r ∧ byteOf (vecColour m x y).g = byteOf (m.colour x y).g ∧
        byteOf (vecColour m x y).b = byteOf (m.colour x y).b := by
  constructor
  · intro h
    exact ⟨ofNat_rounded_eq.1 (h 0 (by omega)), ofNat_rounded_eq.1 (h 1 (by omega)), ofNat_rounded_eq.1 (h 2 (by omega))⟩
  · rintro ⟨hr, hg, hb⟩ k hk
    obtain rfl | rfl | rfl : k = 0 ∨ k = 1 ∨ k = 2 := by omega
    · exact ofNat_rounded_eq.2 hr
    · exact ofNat_rounded_eq.2 hg
    · exact ofNat_rounded_eq.2 hb

theorem luma_cell_iff (hx : x < f.width) (hy : y < f.height) :
    painted (vecLevels f.mosaic) (.luma x y) = f.mosaic.rendered byteOf (.luma x y) ↔
      lumaQuotient (rounded (vecColour f.mosaic x y).r) (rounded (vecColour f.mosaic x y).g)
          (rounded (vecColour f.mosaic x y).b) =
        lumaQuotient (byteOf (f.mosaic.colour x y).r) (byteOf (f.mosaic.colour x y).g) (byteOf (f.mosaic.colour x y).b) :=
  luma_eq_iff (vecLevels_le hx hy) ⟨byteOf_le _, byteOf_le _, byteOf_le _⟩

theorem agreesAt_iff {i420 rgb : Bool} (hx : x < f.width) (hy : y < f.height) :
    AgreesAt f.mosaic i420 rgb x y ↔
      (rgb = true → ∀ k < 3, painted (vecLevels f.mosaic) (.rgb x y k) = f.mosaic.rendered byteOf (.rgb x y k)) ∧
      (i420 = true → painted (vecLevels f.mosaic) (.luma x y) = f.mosaic.rendered byteOf (.luma x y)) := by
  rw [rgb_eq_iff, luma_cell_iff hx hy]
  obtain ⟨hr, hg, hb⟩ := f.colour_le hx hy
  by_cases hp : x % 2 = 0 ∧ y % 2 = 1
  · have hvec : vecColour f.mosaic x y =
        ⟨redMean f.mosaic x y, (f.mosaic.colour x y).g, (f.mosaic.colour x y).b⟩ := if_pos hp
    rw [AgreesAt, if_pos hp, hvec]
    simp only [and_true]
  · have hvec : vecColour f.mosaic x y = f.mosaic.colour x y := if_neg hp
    rw [AgreesAt, if_neg hp, hvec, lumaQuotient_rounded hr hg hb]
    simp only [and_self, implies_true, true_and]

/-- **When the NEON converter equals the scalar one.** They leave the same bytes, and both write all that is asked for,
just when in the columns of the vector loop no mean is one of the two brightest and the wrong row makes no difference. -/
theorem neon_same_iff (f : Frame) (i420 rgb : Bool) :
    ((∀ k, after (aloeRggb10ToRgb888I420Neon f.width f.height f.raw i420 rgb) k =
        after (aloeRggb10ToRgb888I420Scalar f.width f.height f.raw i420 rgb) k) ∧
      (∀ o, ∀ k < (f.canvas i420 rgb).size o,
        (after (aloeRggb10ToRgb888I420Neon f.width f.height f.raw i420 rgb) (o, k)).isSome ∧
        (after (aloeRggb10ToRgb888I420Scalar f.width f.height f.raw i420 rgb) (o, k)).isSome)) ↔
    Agrees f i420 rgb := by
  have hscalar := scalar_draws f i420 rgb
  by_cases hsize : f.width < 16 ∨ f.height < 4
  · rw [aloeRggb10ToRgb888I420Neon, if_pos hsize]
    refine iff_of_true ⟨fun _ => rfl, fun o k hk => ?_⟩ (fun hw hh => by omega)
    exact ⟨(hscalar.isSome_iff o k).2 hk, (hscalar.isSome_iff o k).2 hk⟩
  · have hw : 16 ≤ f.width := by omega
    have hh : 4 ≤ f.height := by omega
    have hneon := neon_draws i420 rgb hw hh
    have hall : ∀ o, ∀ k < (f.canvas i420 rgb).size o, _ := fun o k hk =>
      And.intro ((hneon.isSome_iff o k).2 hk) ((hscalar.isSome_iff o k).2 hk)
    rw [and_iff_left hall, hneon.same_iff hscalar]
    constructor
    · intro h _ _ x y hx hy hv
      refine (agreesAt_iff hx hy).2 ⟨fun hr k hk => ?_, fun hi => ?_⟩
      · exact (if_pos hv).symm.trans (h (.rgb x y k) ⟨hr, hx, hy, hk⟩)
      · exact (if_pos hv).symm.trans (h (.luma x y) ⟨hi, hx, hy⟩)
    · intro h c hc
      cases c with
      | rgb x y k =>
        obtain ⟨hr, hx, hy, hk⟩ := hc
        by_cases hv : vectorized f.width x
        · exact (if_pos hv).trans (((agreesAt_iff hx hy).1 (h hw hh x y hx hy hv)).1 hr k hk)
        · exact if_neg hv
      | luma x y =>
        obtain ⟨hi, hx, hy⟩ := hc
        by_cases hv : vectorized f.width x
        · exact (if_pos hv).trans (((agreesAt_iff hx hy).1 (h hw hh x y hx hy hv)).2 hi)
        · exact if_neg hv
      | u x y | v x y => rfl

/-- One bright row of green and blue. -/
def brightRow : Frame where
  width := 18
  height := 4
  raw i := if 18 ≤ i ∧ i < 36 then 1020 else 0
  width_pos := by decide
  height_pos := by decide
  width_even := by decide
  height_even := by decide
  ten i _ := by
    split
    · decide
    · decide

/-- Its green comes out as red, two rows below. -/
theorem neon_not_same :
    ¬ ∀ (f : Frame) (i420 rgb : Bool),
      (∀ k, after (aloeRggb10ToRgb888I420Neon f.width f.height f.raw i420 rgb) k =
        after (aloeRggb10ToRgb888I420Scalar f.width f.height f.raw i420 rgb) k) ∧
      (∀ o, ∀ k < (f.canvas i420 rgb).size o,
        (after (aloeRggb10ToRgb888I420Neon f.width f.height f.raw i420 rgb) (o, k)).isSome ∧
        (after (aloeRggb10ToRgb888I420Scalar f.width f.height f.raw i420 rgb) (o, k)).isSome) := by
  intro h
  have hred := (h brightRow false true).1 (.rgb, (3 * 18 + 4) * 3)
  revert hred
  decide +kernel

end AlgaeBp.Bayer.Simd
