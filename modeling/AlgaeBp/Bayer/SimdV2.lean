import AlgaeBp.Bayer.Neon
/-!
# All the demosaicers

`convert_scalar` of `simd/rggb10_rgb888_i420_simd_v2.cpp` keeps two rows of
RGB and takes U and V from them. `demosaicers_agree` says that the colours are
the same in every converter, and that `convert_scalar` writes what
`aloe_rggb10_to_rgb888_i420_scalar` writes.
-/

namespace AlgaeBp.Bayer.SimdV2

open Raster

/-! ## The code -/

def clampU8 (v : Int) : UInt8 := if v < 0 then 0 else if v > 255 then 255 else UInt8.ofInt v

def raw10ToU8 (v : UInt16) : UInt8 := UInt8.ofNat ((v.toNat + 2) / 4)

def rgbToY (r g b : Int) : UInt8 := clampU8 (((66 * r + 129 * g + 25 * b + 128) >>> (8 : Nat)) + 16)

def rgbToU (r g b : Int) : UInt8 := clampU8 (((-38 * r - 74 * g + 112 * b + 128) >>> (8 : Nat)) + 128)

def rgbToV (r g b : Int) : UInt8 := clampU8 (((112 * r - 94 * g - 18 * b + 128) >>> (8 : Nat)) + 128)

def demosaicRggb10 (raw : Nat → UInt16) (width height x y : Nat) : Rgb Nat :=
  let xm1 := if x > 0 then x - 1 else x
  let xp1 := if x + 1 < width then x + 1 else x
  let ym1 := if y > 0 then y - 1 else y
  let yp1 := if y + 1 < height then y + 1 else y
  let rowM1 := rowAt raw width ym1
  let row := rowAt raw width y
  let rowP1 := rowAt raw width yp1
  if y % 2 = 0 ∧ x % 2 = 0 then
    { r := row x
      g := (row xm1 + row xp1 + rowM1 x + rowP1 x) / 4
      b := (rowM1 xm1 + rowM1 xp1 + rowP1 xm1 + rowP1 xp1) / 4 }
  else if y % 2 = 0 ∧ x % 2 = 1 then
    { g := row x
      r := (row xm1 + row xp1) / 2
      b := (rowM1 x + rowP1 x) / 2 }
  else if y % 2 = 1 ∧ x % 2 = 0 then
    { g := row x
      r := (rowM1 x + rowP1 x) / 2
      b := (row xm1 + row xp1) / 2 }
  else
    { b := row x
      g := (row xm1 + row xp1 + rowM1 x + rowP1 x) / 4
      r := (rowM1 xm1 + rowM1 xp1 + rowP1 xm1 + rowP1 xp1) / 4 }

/-- `r8`, `g8` and `b8` of a pixel. -/
def pixelU8 (raw : Nat → UInt16) (width height x y : Nat) : Rgb UInt8 :=
  (demosaicRggb10 raw width height x y).map fun v => raw10ToU8 (UInt16.ofNat v)

/-- What is stored of a pixel of the row `py = y + dy` in `cache`, which is `rgb_row_0` or `rgb_row_1`. -/
def cachePixel (width height : Nat) (raw : Nat → UInt16) (y dy x : Nat) : List (Nat × UInt8) :=
  let c := pixelU8 raw width height x (y + dy)
  let cache := if dy = 0 then 0 else width * 3
  [(cache + (x * 3 + 0), c.r), (cache + (x * 3 + 1), c.g), (cache + (x * 3 + 2), c.b)]

/-- What is stored of it in the picture. -/
def putPixel (width height : Nat) (raw : Nat → UInt16) (i420 rgb : Bool) (y dy x : Nat) : List Store :=
  let py := y + dy
  let c := pixelU8 raw width height x py
  (if rgb then putRgb ((py * width + x) * 3) c.r c.g c.b else []) ++
  (if i420 then putI420 (py * width + x) (rgbToY c.r.toNat c.g.toNat c.b.toNat) else [])

/-- `rgb_cache` once two rows are demosaiced. -/
def fillCache (width height : Nat) (raw : Nat → UInt16) (y : Nat) (rgbCache : Nat → UInt8) : Nat → UInt8 := fun k =>
  (after ((loop 0 2 1).flatMap fun dy => (loop 0 width 1).flatMap fun x => cachePixel width height raw y dy x) k).getD
    (rgbCache k)

/-- U and V of a block, from the cache. -/
def cacheUv (width height : Nat) (rgbCache : Nat → UInt8) (y x : Nat) : List Store :=
  let uvWidth := width / 2
  let uPlane := width * height
  let vPlane := uPlane + uvWidth * (height / 2)
  let uRow := uPlane + y / 2 * uvWidth
  let vRow := vPlane + y / 2 * uvWidth
  let rgbRow0 := fun i => (rgbCache i).toNat
  let rgbRow1 := fun i => (rgbCache (width * 3 + i)).toNat
  let rSum := rgbRow0 (x * 3 + 0) + rgbRow0 (x * 3 + 3) + rgbRow1 (x * 3 + 0) + rgbRow1 (x * 3 + 3)
  let gSum := rgbRow0 (x * 3 + 1) + rgbRow0 (x * 3 + 4) + rgbRow1 (x * 3 + 1) + rgbRow1 (x * 3 + 4)
  let bSum := rgbRow0 (x * 3 + 2) + rgbRow0 (x * 3 + 5) + rgbRow1 (x * 3 + 2) + rgbRow1 (x * 3 + 5)
  let rAvg := rSum / 4
  let gAvg := gSum / 4
  let bAvg := bSum / 4
  putI420 (uRow + x / 2) (rgbToU rAvg gAvg bAvg) ++ putI420 (vRow + x / 2) (rgbToV rAvg gAvg bAvg)

/-- The loop over `y`, which leaves the cache to the next turn. -/
def convertRows (width height : Nat) (raw : Nat → UInt16) (i420 rgb : Bool) : List Nat → (Nat → UInt8) → List Store
  | [], _ => []
  | y :: ys, rgbCache =>
    let rgbCache := fillCache width height raw y rgbCache
    ((loop 0 2 1).flatMap fun dy => (loop 0 width 1).flatMap fun x => putPixel width height raw i420 rgb y dy x) ++
    (if i420 then (loop 0 width 2).flatMap fun x => cacheUv width height rgbCache y x else []) ++
    convertRows width height raw i420 rgb ys rgbCache

/-- `new` leaves `rgbCache` as it is. -/
def convertScalar (width height : Nat) (raw : Nat → UInt16) (i420 rgb : Bool) (rgbCache : Nat → UInt8) : List Store :=
  convertRows width height raw i420 rgb (loop 0 height 2) rgbCache

variable {f : Frame} {x y : Nat}

/-! ## The cache -/

theorem demosaic_eq (hx : x < f.width) (hy : y < f.height) :
    demosaicRggb10 f.raw f.width f.height x y = f.mosaic.colour x y := by
  rw [← Simd.demosaic_eq hx hy]
  -- The two differ in how they name the first and the last row and column.
  have hxm1 : (if x > 0 then x - 1 else x) = if x > 0 then x - 1 else 0 := by split <;> omega
  have hxp1 : (if x + 1 < f.width then x + 1 else x) = if x + 1 < f.width then x + 1 else f.width - 1 := by split <;> omega
  have hym1 : (if y > 0 then y - 1 else y) = if y > 0 then y - 1 else 0 := by split <;> omega
  have hyp1 : (if y + 1 < f.height then y + 1 else y) = if y + 1 < f.height then y + 1 else f.height - 1 := by
    split <;> omega
  simp only [demosaicRggb10, hxm1, hxp1, hym1, hyp1]
  rfl

theorem pixelU8_eq (hx : x < f.width) (hy : y < f.height) :
    pixelU8 f.raw f.width f.height x y = Simd.pixelU8 f.raw f.width f.height x y := by
  rw [pixelU8, Simd.pixelU8, demosaic_eq hx hy, Simd.demosaic_eq hx hy]
  rfl

theorem mem_cachePixel {width height : Nat} {raw : Nat → UInt16} {dy : Nat} (hdy : dy < 2) {p : Nat × UInt8} :
    p ∈ cachePixel width height raw y dy x ↔
      ∃ k < 3, p = (dy * (width * 3) + (x * 3 + k), (pixelU8 raw width height x (y + dy)).channel k) := by
  have hrow : (if dy = 0 then 0 else width * 3) = dy * (width * 3) := by
    obtain rfl | rfl : dy = 0 ∨ dy = 1 := by omega
    · simp
    · simp
  simp only [cachePixel, hrow, List.mem_cons, List.not_mem_nil, or_false]
  constructor
  · rintro (rfl | rfl | rfl)
    · exact ⟨0, by omega, rfl⟩
    · exact ⟨1, by omega, rfl⟩
    · exact ⟨2, by omega, rfl⟩
  · rintro ⟨k, hk, rfl⟩
    obtain rfl | rfl | rfl : k = 0 ∨ k = 1 ∨ k = 2 := by omega
    · exact .inl rfl
    · exact .inr (.inl rfl)
    · exact .inr (.inr rfl)

/-- **What the cache holds does not depend on what it held.** -/
theorem fillCache_pixel (width height : Nat) (raw : Nat → UInt16) (y : Nat) (rgbCache : Nat → UInt8) {dy x k : Nat}
    (hdy : dy < 2) (hx : x < width) (hk : k < 3) :
    fillCache width height raw y rgbCache (dy * (width * 3) + (x * 3 + k)) =
      (pixelU8 raw width height x (y + dy)).channel k := by
  have hstored : after ((loop 0 2 1).flatMap fun dy => (loop 0 width 1).flatMap fun x => cachePixel width height raw y dy x)
      (dy * (width * 3) + (x * 3 + k)) = some ((pixelU8 raw width height x (y + dy)).channel k) := by
    apply after_of_agree
    · exact List.mem_flatMap.2 ⟨dy, mem_loop_one.2 ⟨Nat.zero_le _, hdy⟩,
        List.mem_flatMap.2 ⟨x, mem_loop_one.2 ⟨Nat.zero_le _, hx⟩, (mem_cachePixel hdy).2 ⟨k, hk, rfl⟩⟩⟩
    · intro p hp hplace
      obtain ⟨dy', hdy', hp⟩ := List.mem_flatMap.1 hp
      obtain ⟨x', hx', hp⟩ := List.mem_flatMap.1 hp
      obtain ⟨-, hdy'⟩ := mem_loop_one.1 hdy'
      obtain ⟨-, hx'⟩ := mem_loop_one.1 hx'
      obtain ⟨k', hk', rfl⟩ := (mem_cachePixel hdy').1 hp
      -- No two of these stores go to the same byte.
      obtain ⟨hcolumn, rfl⟩ := rowMajor_inj (by omega) (by omega) hplace
      obtain ⟨rfl, rfl⟩ := rowMajor_inj hk' hk hcolumn
      rfl
  rw [fillCache, hstored]
  rfl

/-! ## What is written -/

/-- U and V of the cache are U and V of the block. -/
theorem cacheUv_eq (rgbCache : Nat → UInt8) (hx : 2 * x < f.width) (hy : 2 * y < f.height) :
    cacheUv f.width f.height (fillCache f.width f.height f.raw (2 * y) rgbCache) (2 * y) (2 * x) =
      Simd.scalarBlock f.width f.height f.raw (2 * y) (2 * x) := by
  have hw := f.width_even
  have hh := f.height_even
  let cache := fillCache f.width f.height f.raw (2 * y) rgbCache
  let level := fun (X Y k : Nat) => ((Simd.pixelU8 f.raw f.width f.height X Y).channel k).toNat
  have hcache : ∀ dy X k i : Nat, dy < 2 → X < f.width → k < 3 → i = dy * (f.width * 3) + (X * 3 + k) →
      (cache i).toNat = level X (2 * y + dy) k := by
    intro dy X k i hdy hX hk hi
    have hpixel := fillCache_pixel f.width f.height f.raw (2 * y) rgbCache hdy hX hk
    rw [pixelU8_eq hX (by omega), ← hi] at hpixel
    exact congrArg UInt8.toNat hpixel
  have hsum : ∀ k < 3, (cache (2 * x * 3 + k)).toNat + (cache (2 * x * 3 + (3 + k))).toNat +
      (cache (f.width * 3 + (2 * x * 3 + k))).toNat + (cache (f.width * 3 + (2 * x * 3 + (3 + k)))).toNat =
      level (2 * x) (2 * y) k + level (2 * x + 1) (2 * y) k + level (2 * x) (2 * y + 1) k +
        level (2 * x + 1) (2 * y + 1) k := by
    intro k hk
    rw [hcache 0 (2 * x) k _ (by omega) hx hk (by omega), hcache 0 (2 * x + 1) k _ (by omega) (by omega) hk (by omega),
      hcache 1 (2 * x) k _ (by omega) hx hk (by omega), hcache 1 (2 * x + 1) k _ (by omega) (by omega) hk (by omega)]
    rfl
  have huv : ∀ {r g b r' g' b' : Nat}, r = r' → g = g' → b = b' → ∀ k k' : Nat,
      putI420 k (rgbToU (r / 4 : Nat) (g / 4 : Nat) (b / 4 : Nat)) ++
        putI420 k' (rgbToV (r / 4 : Nat) (g / 4 : Nat) (b / 4 : Nat)) =
      putI420 k (Simd.rgbToU (r' / 4 : Nat) (g' / 4 : Nat) (b' / 4 : Nat)) ++
        putI420 k' (Simd.rgbToV (r' / 4 : Nat) (g' / 4 : Nat) (b' / 4 : Nat)) := by
    rintro r g b _ _ _ rfl rfl rfl k k'
    rfl
  exact huv (hsum 0 (by omega)) (hsum 1 (by omega)) (hsum 2 (by omega)) _ _

/-- What one turn of the loop over `y` takes part in. -/
def rowPlaces (width y : Nat) : Set Place :=
  {p | ∃ x dy, x < width ∧ dy < 2 ∧ p ∈ ({.rgb x (2 * y + dy)} ∪ {.luma x (2 * y + dy)} : Set Place)} ∪
    {p | ∃ x, 2 * x < width ∧ p ∈ ({.chroma x y} : Set Place)}

theorem row_puts (i420 rgb : Bool) (rgbCache : Nat → UInt8) (hy : 2 * y < f.height) :
    Puts (f.canvas i420 rgb)
      (((loop 0 2 1).flatMap fun dy => (loop 0 f.width 1).flatMap fun x =>
        putPixel f.width f.height f.raw i420 rgb (2 * y) dy x) ++
      (if i420 then (loop 0 f.width 2).flatMap fun x =>
        cacheUv f.width f.height (fillCache f.width f.height f.raw (2 * y) rgbCache) (2 * y) x else []))
      (rowPlaces f.width y) (f.mosaic.rendered Simd.byteOf) := by
  have hh := f.height_even
  apply Puts.append
  · apply Puts.pixels
    intro x dy hx hdy
    have hlevel := pixelU8_eq hx (by omega : 2 * y + dy < f.height)
    unfold putPixel
    dsimp only
    rw [hlevel]
    exact Simd.pixelU8_puts i420 rgb hx (by omega) rfl rfl
  · apply Puts.ifI420 rfl
    · intro hi
      apply Puts.steps Nat.two_pos
      intro x hx
      rw [cacheUv_eq rgbCache hx hy]
      exact Simd.scalarBlock_puts i420 rgb hi hx hy
    · simp

theorem convertRows_puts (i420 rgb : Bool) {ys : List Nat} (hys : ∀ y ∈ ys, ∃ i, 2 * i < f.height ∧ y = 2 * i)
    (rgbCache : Nat → UInt8) :
    Puts (f.canvas i420 rgb) (convertRows f.width f.height f.raw i420 rgb ys rgbCache)
      {p | ∃ y ∈ ys, p ∈ rowPlaces f.width (y / 2)} (f.mosaic.rendered Simd.byteOf) := by
  induction ys generalizing rgbCache with
  | nil => exact puts_nil (by simp)
  | cons y ys ih =>
    obtain ⟨⟨i, hi, rfl⟩, hrest⟩ := List.forall_mem_cons.1 hys
    have hi2 : 2 * i / 2 = i := by omega
    refine ((row_puts i420 rgb rgbCache hi).append (ih hrest _)).congr (fun c _ => ?_) (fun _ _ _ => rfl)
    simp [hi2]

/-- `convert_scalar` draws the picture of the scalar implementation. -/
theorem convertScalar_draws (f : Frame) (i420 rgb : Bool) (rgbCache : Nat → UInt8) :
    Draws (f.canvas i420 rgb) (convertScalar f.width f.height f.raw i420 rgb rgbCache)
      (f.mosaic.rendered Simd.byteOf) := by
  have hw := f.width_even
  have hh := f.height_even
  have hys : ∀ y ∈ loop 0 f.height 2, ∃ i, 2 * i < f.height ∧ y = 2 * i := by
    intro y hy
    obtain ⟨hlt, i, rfl⟩ := (mem_loop Nat.two_pos).1 hy
    exact ⟨i, by omega, by omega⟩
  have hturn : ∀ y, y < f.height → y / 2 * 2 ∈ loop 0 f.height 2 := fun y hy =>
    (mem_loop Nat.two_pos).2 ⟨by omega, y / 2, by omega⟩
  refine (convertRows_puts i420 rgb hys rgbCache).draws (fun c hc => ?_)
  cases c with
  | rgb x y k =>
    obtain ⟨-, hx, hy, -⟩ := hc
    refine ⟨_, hturn y hy, .inl ⟨x, y % 2, hx, by omega, .inl ?_⟩⟩
    show Place.rgb x y = Place.rgb x (2 * (y / 2 * 2 / 2) + y % 2)
    rw [show 2 * (y / 2 * 2 / 2) + y % 2 = y by omega]
  | luma x y =>
    obtain ⟨-, hx, hy⟩ := hc
    refine ⟨_, hturn y hy, .inl ⟨x, y % 2, hx, by omega, .inr ?_⟩⟩
    show Place.luma x y = Place.luma x (2 * (y / 2 * 2 / 2) + y % 2)
    rw [show 2 * (y / 2 * 2 / 2) + y % 2 = y by omega]
  | u x y | v x y =>
    obtain ⟨-, hx, hy⟩ := hc
    simp only [Frame.canvas] at hx hy
    refine ⟨_, hturn (2 * y) (by omega), .inr ⟨x, by omega, ?_⟩⟩
    show Place.chroma x y = Place.chroma x (2 * y / 2 * 2 / 2)
    rw [show 2 * y / 2 * 2 / 2 = y by omega]

/-! ## The colours -/

/-- The colour of one of the four pixels of a block. -/
def colourOf (l : Levels) (dx dy : Nat) : Rgb Nat :=
  if dy = 0 then if dx = 0 then l.c0 else l.c1 else if dx = 0 then l.c2 else l.c3

theorem colour_word (hx : x < f.width) (hy : y < f.height) :
    ((f.mosaic.colour x y).map UInt16.ofNat).map UInt16.toNat = f.mosaic.colour x y := by
  obtain ⟨hr, hg, hb⟩ := f.colour_le hx hy
  have hword : ∀ {v : Nat}, v ≤ 1023 → (UInt16.ofNat v).toNat = v := fun hv => by
    rw [UInt16.toNat_ofNat', Nat.mod_eq_of_lt (by omega)]
  simp only [Rgb.map, hword hr, hword hg, hword hb]

theorem v2Colour (hx : x < f.width) (hy : y < f.height) :
    colourOf (v2Colours f.width f.height f.raw (2 * (y / 2)) (2 * (x / 2))) (x % 2) (y % 2) = f.mosaic.colour x y := by
  have hw := f.width_even
  have hh := f.height_even
  rw [v2Colours_eq (by omega) (by omega), colourOf]
  split
  · split
    · rw [show 2 * (x / 2) = x by omega, show 2 * (y / 2) = y by omega]
    · rw [show 2 * (x / 2) + 1 = x by omega, show 2 * (y / 2) = y by omega]
  · split
    · rw [show 2 * (x / 2) = x by omega, show 2 * (y / 2) + 1 = y by omega]
    · rw [show 2 * (x / 2) + 1 = x by omega, show 2 * (y / 2) + 1 = y by omega]

/-- **All demosaicers compute the same colours**: the original where it writes Y and where it writes U and V, the
optimised one, and the two that go pixel by pixel. `convert_scalar` and `aloe_rggb10_to_rgb888_i420_scalar` write the
same bytes, and all of them. -/
theorem demosaicers_agree (f : Frame) :
    (∀ x y, x < f.width → y < f.height → ∃ c : Rgb Nat, (c.r ≤ 1023 ∧ c.g ≤ 1023 ∧ c.b ≤ 1023) ∧
      (interpolate f.width f.height f.raw x y).map UInt16.toNat = c ∧
      (chromaColour f.width f.height f.raw (2 * (y / 2)) (2 * (x / 2)) (y % 2) (x % 2)).map UInt16.toNat = c ∧
      colourOf (v2Colours f.width f.height f.raw (2 * (y / 2)) (2 * (x / 2))) (x % 2) (y % 2) = c ∧
      Simd.demosaicRggb10Pixel f.raw f.width f.height x y = c ∧
      demosaicRggb10 f.raw f.width f.height x y = c) ∧
    ∀ (i420 rgb : Bool) (rgbCache : Nat → UInt8),
      (∀ k, after (convertScalar f.width f.height f.raw i420 rgb rgbCache) k =
        after (Simd.aloeRggb10ToRgb888I420Scalar f.width f.height f.raw i420 rgb) k) ∧
      ∀ o k, (after (convertScalar f.width f.height f.raw i420 rgb rgbCache) (o, k)).isSome ↔
        k < (f.canvas i420 rgb).size o := by
  constructor
  · intro x y hx hy
    refine ⟨f.mosaic.colour x y, f.colour_le hx hy, ?_, ?_, v2Colour hx hy, Simd.demosaic_eq hx hy, demosaic_eq hx hy⟩
    · rw [interpolate_eq hx hy, colour_word hx hy]
    · rw [chromaColour_eq (by omega) (by omega), Nat.div_add_mod, Nat.div_add_mod, colour_word hx hy]
  · intro i420 rgb rgbCache
    have hdraws := convertScalar_draws f i420 rgb rgbCache
    exact ⟨(hdraws.same_iff (Simd.scalar_draws f i420 rgb)).2 (fun _ _ => rfl), hdraws.isSome_iff⟩

end AlgaeBp.Bayer.SimdV2
