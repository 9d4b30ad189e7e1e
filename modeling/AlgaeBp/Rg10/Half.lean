import AlgaeBp.Rg10.Theorems
/-!
# The half-size converter

`aloe_rg10_rgb8_i420_v4` of `rg10_rgb8_i420_v4.cpp`. The source answers `none`
outside the samples of the frame, and so does a converter that reads there. The
macros are unrolled for the index pairs of `unrolled`.
-/

namespace AlgaeBp.Rg10

open Raster

/-! ## The code -/

/-- `((uint16_t *)row)[i]`. -/
def sampleAt (rg10 : Nat → Option UInt8) (row i : Nat) : Option Nat := do
  let lo ← rg10 (row + 2 * i)
  let hi ← rg10 (row + 2 * i + 1)
  return lo.toNat + 256 * hi.toNat

def rg10StrideRow (stride p y : Nat) : Nat := p + y * stride

/-- `rg10_fetch`, with `rg10_fetch_g`: what becomes of `rgb_val[_y][_x]`. -/
def rg10Fetch (rg10 : Nat → Option UInt8) (stride pos y x : Nat) : Option (Rgb Nat) := do
  let red ← sampleAt rg10 (rg10StrideRow stride pos (y * 2)) (x * 2)
  let green ← sampleAt rg10 (rg10StrideRow stride pos (y * 2)) (x * 2 + 1)
  let green' ← sampleAt rg10 (rg10StrideRow stride pos (y * 2 + 1)) (x * 2)
  let blue ← sampleAt rg10 (rg10StrideRow stride pos (y * 2 + 1)) (x * 2 + 1)
  return { r := red / 4, g := (green + green') / 2 / 4, b := blue / 4 }

def rgbYVec (r g b : Int) : UInt8 := UInt8.ofInt (clampU8 ((r * 66 + g * 129 + b * 25 + 128).tdiv 256 + 16))

def rgbUVec (r g b : Int) : UInt8 := UInt8.ofInt (clampU8 ((r * -38 + g * -74 + b * 112 + 128).tdiv 256 + 128))

def rgbVVec (r g b : Int) : UInt8 := UInt8.ofInt (clampU8 ((r * 112 + g * -94 + b * -18 + 128).tdiv 256 + 128))

/-- The pairs `(_y, _x)` of `rg10_fetch`, `rgb_put` and `yuv_put_y`. -/
def unrolled : List (Nat × Nat) :=
  [(0, 0), (0, 1), (0, 2), (0, 3), (1, 0), (1, 1), (1, 2), (1, 3),
    (2, 0), (2, 1), (2, 2), (2, 3), (3, 0), (3, 1), (3, 2), (3, 3)]

/-- Those of `yuv_put_u` and `yuv_put_v`. -/
def unrolledUv : List (Nat × Nat) := [(0, 0), (0, 2), (2, 0), (2, 2)]

/-- The offsets of a turn of the loop over the rows. -/
structure V4Rows where
  rg10Row : Nat
  rgbRow : Nat
  yRow : Nat
  uRow : Nat
  vRow : Nat

def v4Rows (width height stride y outY : Nat) : V4Rows :=
  let outW := width / 2
  let outH := height / 2
  let uvSize := outH / 2 * (outW / 2)
  let uPlane := outW * outH
  let vPlane := uPlane + uvSize
  { rg10Row := rg10StrideRow stride 0 y
    rgbRow := outW * outY * 3
    yRow := outW * outY
    uRow := uPlane + outW / 2 * (outY / 2)
    vRow := vPlane + outW / 2 * (outY / 2) }

/-- The body of the loops. -/
def v4Block (rg10 : Nat → Option UInt8) (outW stride : Nat) (rows : V4Rows) (rgb i420 : Bool) (x outX : Nat) :
    Option (List Store) := do
  let rg10Pos := rows.rg10Row + 2 * x
  let vals ← concatM (fun p => (rg10Fetch rg10 stride rg10Pos p.1 p.2).map ([·])) unrolled
  let rgbVal := fun p : Nat × Nat => vals.getD (4 * p.1 + p.2) ⟨0, 0, 0⟩
  let rgbPos := rows.rgbRow + outX * 3
  let yPos := rows.yRow + outX
  let uPos := rows.uRow + outX / 2
  let vPos := rows.vRow + outX / 2
  return (if rgb then
      unrolled.flatMap fun p =>
        putRgb (rgbPos + (p.1 * outW + p.2) * 3) (UInt8.ofNat (rgbVal p).r) (UInt8.ofNat (rgbVal p).g)
          (UInt8.ofNat (rgbVal p).b)
    else []) ++
    (if i420 then
      (unrolled.flatMap fun p =>
        putI420 (yPos + (p.1 * outW + p.2)) (rgbYVec (rgbVal p).r (rgbVal p).g (rgbVal p).b)) ++
      ((unrolledUv.flatMap fun p =>
        putI420 (uPos + (p.1 / 2 * (outW / 2) + p.2 / 2)) (rgbUVec (rgbVal p).r (rgbVal p).g (rgbVal p).b)) ++
      unrolledUv.flatMap fun p =>
        putI420 (vPos + (p.1 / 2 * (outW / 2) + p.2 / 2)) (rgbVVec (rgbVal p).r (rgbVal p).g (rgbVal p).b))
    else [])

/-- `out_y` and `out_x` grow by 4 where `y` and `x` grow by 8. -/
def aloeRg10Rgb8I420V4 (width height stride : Nat) (rg10 : Nat → Option UInt8) (rgb i420 : Bool) : Option (List Store) :=
  let outW := width / 2
  if width < 8 ∨ height < 8 ∨ width % 8 ≠ 0 ∨ height % 8 ≠ 0 then some []
  else (loop 0 height 8) |> concatM fun y =>
    let outY := y / 8 * 4
    let rows := v4Rows width height stride y outY
    (loop 0 width 8) |> concatM fun x => v4Block rg10 outW stride rows rgb i420 x (x / 8 * 4)

/-! ## The picture -/

/-- A frame of 10-bit samples in rows of 16-bit words. -/
structure HalfFrame where
  width : Nat
  height : Nat
  stride : Nat
  bytes : Nat → UInt8
  width_pos : 0 < width
  height_pos : 0 < height
  width_eight : width % 8 = 0
  height_eight : height % 8 = 0
  stride_ge : 2 * width ≤ stride
  ten : ∀ x y, x < width → y < height →
    (bytes (y * stride + 2 * x)).toNat + 256 * (bytes (y * stride + 2 * x + 1)).toNat ≤ 1023

variable (f : HalfFrame)

/-- The bytes of the samples, and nothing else. -/
def HalfFrame.memory (off : Nat) : Option UInt8 :=
  if off / f.stride < f.height ∧ off % f.stride < 2 * f.width then some (f.bytes off) else none

def HalfFrame.sample (x y : Nat) : Nat :=
  (f.bytes (y * f.stride + 2 * x)).toNat + 256 * (f.bytes (y * f.stride + 2 * x + 1)).toNat

/-- The levels of a cell of the mosaic: red, the mean of the two greens, blue. -/
def HalfFrame.level (x y : Nat) : Rgb Nat where
  r := f.sample (2 * x) (2 * y) / 4
  g := (f.sample (2 * x + 1) (2 * y) + f.sample (2 * x) (2 * y + 1)) / 2 / 4
  b := f.sample (2 * x + 1) (2 * y + 1) / 4

def HalfFrame.colour (x y : Nat) : Rgb UInt8 :=
  ⟨UInt8.ofNat (f.level x y).r, UInt8.ofNat (f.level x y).g, UInt8.ofNat (f.level x y).b⟩

/-- One pixel for each cell; the chroma is that of the upper left pixel of four. -/
def HalfFrame.picture : Cell → UInt8
  | .rgb x y 0 => (f.colour x y).r
  | .rgb x y 1 => (f.colour x y).g
  | .rgb x y _ => (f.colour x y).b
  | .luma x y => UInt8.ofInt (yValue (f.colour x y).r (f.colour x y).g (f.colour x y).b)
  | .u x y => UInt8.ofInt (uValue (f.colour (2 * x) (2 * y)).r (f.colour (2 * x) (2 * y)).g (f.colour (2 * x) (2 * y)).b)
  | .v x y => UInt8.ofInt (vValue (f.colour (2 * x) (2 * y)).r (f.colour (2 * x) (2 * y)).g (f.colour (2 * x) (2 * y)).b)

def HalfFrame.canvas (i420 rgb : Bool) : Canvas := ⟨f.width / 2, f.height / 2, i420, rgb⟩

variable {f : HalfFrame} {x y : Nat}

/-! ## Reading -/

theorem HalfFrame.sampleAt_eq (hx : x < f.width) (hy : y < f.height) :
    sampleAt f.memory (y * f.stride) x = some (f.sample x y) := by
  have hstride := f.stride_ge
  have hbyte : ∀ k < 2, f.memory (y * f.stride + (2 * x + k)) = some (f.bytes (y * f.stride + (2 * x + k))) := by
    intro k hk
    have hlt : 2 * x + k < f.stride := by omega
    refine if_pos ⟨?_, ?_⟩
    · rw [Nat.add_comm, Nat.add_mul_div_right _ _ (by omega), Nat.div_eq_of_lt hlt, Nat.zero_add]
      exact hy
    · rw [Nat.add_comm, Nat.add_mul_mod_self_right, Nat.mod_eq_of_lt hlt]
      omega
  have hlo := hbyte 0 (by omega)
  have hhi := hbyte 1 (by omega)
  rw [Nat.add_zero] at hlo
  rw [← Nat.add_assoc] at hhi
  rw [sampleAt, hlo, hhi]
  rfl

theorem HalfFrame.level_le (hx : 2 * x + 1 < f.width) (hy : 2 * y + 1 < f.height) :
    (f.level x y).r < 256 ∧ (f.level x y).g < 256 ∧ (f.level x y).b < 256 := by
  have h₀ := f.ten (2 * x) (2 * y) (by omega) (by omega)
  have h₁ := f.ten (2 * x + 1) (2 * y) hx (by omega)
  have h₂ := f.ten (2 * x) (2 * y + 1) (by omega) hy
  have h₃ := f.ten (2 * x + 1) (2 * y + 1) hx hy
  simp only [HalfFrame.level, HalfFrame.sample]
  omega

/-- What the macros fetch from a block. -/
theorem rg10Fetch_eq {X Y : Nat} (hx : 8 * X + (2 * x + 1) < f.width) (hy : 8 * Y + (2 * y + 1) < f.height) :
    rg10Fetch f.memory f.stride (rg10StrideRow f.stride 0 (8 * Y) + 2 * (8 * X)) y x =
      some (f.level (4 * X + x) (4 * Y + y)) := by
  have hat : ∀ dx dy, dx < 2 → dy < 2 →
      sampleAt f.memory (rg10StrideRow f.stride (rg10StrideRow f.stride 0 (8 * Y) + 2 * (8 * X)) (y * 2 + dy)) (x * 2 + dx) =
        some (f.sample (2 * (4 * X + x) + dx) (2 * (4 * Y + y) + dy)) := by
    intro dx dy hdx hdy
    rw [← HalfFrame.sampleAt_eq (by omega) (by omega)]
    have hrow : rg10StrideRow f.stride (rg10StrideRow f.stride 0 (8 * Y) + 2 * (8 * X)) (y * 2 + dy) + 2 * (x * 2 + dx) =
        (2 * (4 * Y + y) + dy) * f.stride + 2 * (2 * (4 * X + x) + dx) := by
      simp only [rg10StrideRow]
      ring
    simp only [sampleAt, hrow]
  have h₀ := hat 0 0 (by omega) (by omega)
  have h₁ := hat 1 0 (by omega) (by omega)
  have h₂ := hat 0 1 (by omega) (by omega)
  have h₃ := hat 1 1 (by omega) (by omega)
  simp only [Nat.add_zero] at h₀ h₁ h₂
  simp only [rg10Fetch, h₀, h₁, h₂, h₃]
  rfl

/-! ## A block -/

theorem mem_unrolled {p : Nat × Nat} : p ∈ unrolled ↔ p.1 < 4 ∧ p.2 < 4 := by
  have hlt : ∀ p ∈ unrolled, p.1 < 4 ∧ p.2 < 4 := by decide
  have hmem : ∀ a < 4, ∀ b < 4, (a, b) ∈ unrolled := by decide
  exact ⟨hlt p, fun h => hmem p.1 h.1 p.2 h.2⟩

theorem mem_unrolledUv {p : Nat × Nat} : p ∈ unrolledUv ↔ p.1 < 4 ∧ p.2 < 4 ∧ p.1 % 2 = 0 ∧ p.2 % 2 = 0 := by
  obtain ⟨a, b⟩ := p
  simp only [unrolledUv, List.mem_cons, Prod.mk.injEq, List.not_mem_nil, or_false]
  omega

/-- The array `rgb_val` holds what was fetched for each pair. -/
theorem getD_unrolled {α : Type} (g : Nat × Nat → α) (d : α) :
    ∀ p ∈ unrolled, (unrolled.flatMap fun q => [g q]).getD (4 * p.1 + p.2) d = g p := by
  simp [unrolled]

section Vec

variable {c : Rgb Nat} (hc : c.r < 256 ∧ c.g < 256 ∧ c.b < 256)

include hc

theorem rgbYVec_eq : rgbYVec c.r c.g c.b = UInt8.ofInt (yValue (UInt8.ofNat c.r) (UInt8.ofNat c.g) (UInt8.ofNat c.b)) := by
  have hsum : (c.r * 66 + c.g * 129 + c.b * 25 + 128 : Int) = 66 * c.r + 129 * c.g + 25 * c.b + 128 := by ring
  have hnat : (66 * c.r + 129 * c.g + 25 * c.b + 128 : Int).tdiv 256 + 16 =
      ((66 * c.r + 129 * c.g + 25 * c.b + 128) / 256 + 16 : Nat) := by
    rw [Int.tdiv_eq_ediv_of_nonneg (by omega)]
    push_cast
    rfl
  rw [rgbYVec, yValue, UInt8.toNat_ofNat', UInt8.toNat_ofNat', UInt8.toNat_ofNat', Nat.mod_eq_of_lt hc.1,
    Nat.mod_eq_of_lt hc.2.1, Nat.mod_eq_of_lt hc.2.2, hsum, hnat, clampU8_eq (by omega)]

theorem rgbUVec_eq : rgbUVec c.r c.g c.b = UInt8.ofInt (uValue (UInt8.ofNat c.r) (UInt8.ofNat c.g) (UInt8.ofNat c.b)) := by
  have hrange := uValue_range (UInt8.ofNat c.r) (UInt8.ofNat c.g) (UInt8.ofNat c.b)
  have hsum : (c.r * -38 + c.g * -74 + c.b * 112 + 128 : Int) = -38 * c.r - 74 * c.g + 112 * c.b + 128 := by ring
  rw [rgbUVec, hsum]
  rw [uValue, UInt8.toNat_ofNat', UInt8.toNat_ofNat', UInt8.toNat_ofNat', Nat.mod_eq_of_lt hc.1,
    Nat.mod_eq_of_lt hc.2.1, Nat.mod_eq_of_lt hc.2.2] at hrange ⊢
  rw [clampU8_eq hrange]

theorem rgbVVec_eq : rgbVVec c.r c.g c.b = UInt8.ofInt (vValue (UInt8.ofNat c.r) (UInt8.ofNat c.g) (UInt8.ofNat c.b)) := by
  have hrange := vValue_range (UInt8.ofNat c.r) (UInt8.ofNat c.g) (UInt8.ofNat c.b)
  have hsum : (c.r * 112 + c.g * -94 + c.b * -18 + 128 : Int) = 112 * c.r - 94 * c.g - 18 * c.b + 128 := by ring
  rw [rgbVVec, hsum]
  rw [vValue, UInt8.toNat_ofNat', UInt8.toNat_ofNat', UInt8.toNat_ofNat', Nat.mod_eq_of_lt hc.1,
    Nat.mod_eq_of_lt hc.2.1, Nat.mod_eq_of_lt hc.2.2] at hrange ⊢
  rw [clampU8_eq hrange]

end Vec

/-- The pixels of a block, and the chroma of its quarters. -/
def v4Places (X Y : Nat) : Set Place :=
  {p | ∃ q ∈ unrolled, p = .rgb (4 * X + q.2) (4 * Y + q.1)} ∪
  ({p | ∃ q ∈ unrolled, p = .luma (4 * X + q.2) (4 * Y + q.1)} ∪
    {p | ∃ q ∈ unrolledUv, p = .chroma (2 * X + q.2 / 2) (2 * Y + q.1 / 2)})

variable {X Y : Nat} {rgb i420 : Bool}

theorem v4Rows_eq (f : HalfFrame) (Y : Nat) :
    v4Rows f.width f.height f.stride (8 * Y) (4 * Y) =
      { rg10Row := rg10StrideRow f.stride 0 (8 * Y)
        rgbRow := 4 * Y * (f.width / 2) * 3
        yRow := 4 * Y * (f.width / 2)
        uRow := f.width / 2 * (f.height / 2) + 2 * Y * (f.width / 2 / 2)
        vRow := f.width / 2 * (f.height / 2) + f.width / 2 / 2 * (f.height / 2 / 2) + 2 * Y * (f.width / 2 / 2) } := by
  have hhalf : 4 * Y / 2 = 2 * Y := by omega
  simp only [v4Rows, hhalf, V4Rows.mk.injEq, true_and]
  refine ⟨?_, ?_, ?_, ?_⟩ <;> ring

/-- U and V of the four quarters, all U first. -/
theorem v4Chroma_puts (rgb i420 : Bool) (hs : i420 = true) (hx : 8 * X < f.width) (hy : 8 * Y < f.height) :
    Puts (f.canvas i420 rgb)
      ((unrolledUv.flatMap fun p =>
        putI420 (f.width / 2 * (f.height / 2) + 2 * Y * (f.width / 2 / 2) + 4 * X / 2 +
            (p.1 / 2 * (f.width / 2 / 2) + p.2 / 2))
          (rgbUVec (f.level (4 * X + p.2) (4 * Y + p.1)).r (f.level (4 * X + p.2) (4 * Y + p.1)).g
            (f.level (4 * X + p.2) (4 * Y + p.1)).b)) ++
      unrolledUv.flatMap fun p =>
        putI420 (f.width / 2 * (f.height / 2) + f.width / 2 / 2 * (f.height / 2 / 2) + 2 * Y * (f.width / 2 / 2) +
            4 * X / 2 + (p.1 / 2 * (f.width / 2 / 2) + p.2 / 2))
          (rgbVVec (f.level (4 * X + p.2) (4 * Y + p.1)).r (f.level (4 * X + p.2) (4 * Y + p.1)).g
            (f.level (4 * X + p.2) (4 * Y + p.1)).b))
      {p | ∃ q ∈ unrolledUv, p = .chroma (2 * X + q.2 / 2) (2 * Y + q.1 / 2)} f.picture := by
  have hw := f.width_eight
  have hh := f.height_eight
  have hquarter : ∀ p ∈ unrolledUv, 4 * X + p.2 = 2 * (2 * X + p.2 / 2) ∧ 4 * Y + p.1 = 2 * (2 * Y + p.1 / 2) ∧
      2 * X + p.2 / 2 < f.width / 2 / 2 ∧ 2 * Y + p.1 / 2 < f.height / 2 / 2 := by
    intro p hp
    have h := mem_unrolledUv.1 hp
    omega
  have hlevel : ∀ p ∈ unrolledUv, _ := fun p hp =>
    f.level_le (x := 4 * X + p.2) (y := 4 * Y + p.1) (by have h := mem_unrolledUv.1 hp; omega)
      (by have h := mem_unrolledUv.1 hp; omega)
  have hhalf : 4 * X / 2 = 2 * X := by omega
  have hcells : Puts (f.canvas i420 rgb)
      (((unrolledUv.map fun q => Cell.u (2 * X + q.2 / 2) (2 * Y + q.1 / 2)) ++
        unrolledUv.map fun q => Cell.v (2 * X + q.2 / 2) (2 * Y + q.1 / 2)).map
          fun c => (c.at (f.canvas i420 rgb), f.picture c))
      {p | ∃ q ∈ unrolledUv, p = .chroma (2 * X + q.2 / 2) (2 * Y + q.1 / 2)} f.picture := by
    apply puts_cells
    · intro c hc
      simp only [List.mem_append, List.mem_map] at hc
      rcases hc with ⟨q, hq, rfl⟩ | ⟨q, hq, rfl⟩
      · exact ⟨hs, (hquarter q hq).2.2⟩
      · exact ⟨hs, (hquarter q hq).2.2⟩
    · intro c _
      simp only [List.mem_append, List.mem_map, Set.mem_ofPred_eq]
      cases c <;> simp [Cell.place, eq_comm]
  rw [List.map_append, List.map_map, List.map_map, List.map_eq_flatMap, List.map_eq_flatMap] at hcells
  convert hcells using 2
  · refine List.flatMap_congr fun p hp => ?_
    obtain ⟨hpx, hpy, -, -⟩ := hquarter p hp
    simp only [Function.comp, Cell.at, HalfFrame.picture, HalfFrame.colour, ← hpx, ← hpy, rgbUVec_eq (hlevel p hp), putI420,
      HalfFrame.canvas, hhalf]
    congr 3
    ring
  · refine List.flatMap_congr fun p hp => ?_
    obtain ⟨hpx, hpy, -, -⟩ := hquarter p hp
    simp only [Function.comp, Cell.at, HalfFrame.picture, HalfFrame.colour, ← hpx, ← hpy, rgbVVec_eq (hlevel p hp), putI420,
      HalfFrame.canvas, hhalf]
    congr 3
    ring

theorem v4Block_puts (hx : 8 * X < f.width) (hy : 8 * Y < f.height) :
    ∃ log, v4Block f.memory (f.width / 2) f.stride (v4Rows f.width f.height f.stride (8 * Y) (4 * Y)) rgb i420 (8 * X)
        (4 * X) = some log ∧ Puts (f.canvas i420 rgb) log (v4Places X Y) f.picture := by
  have hw := f.width_eight
  have hh := f.height_eight
  have hfetch : ∀ p ∈ unrolled,
      (rg10Fetch f.memory f.stride (rg10StrideRow f.stride 0 (8 * Y) + 2 * (8 * X)) p.1 p.2).map ([·]) =
        some [f.level (4 * X + p.2) (4 * Y + p.1)] := by
    intro p hp
    obtain ⟨h₁, h₂⟩ := mem_unrolled.1 hp
    rw [rg10Fetch_eq (by omega) (by omega)]
    rfl
  have hval := getD_unrolled (fun p => f.level (4 * X + p.2) (4 * Y + p.1)) ⟨0, 0, 0⟩
  have hlevel : ∀ p ∈ unrolled, _ := fun p hp =>
    f.level_le (x := 4 * X + p.2) (y := 4 * Y + p.1) (by have h := mem_unrolled.1 hp; omega)
      (by have h := mem_unrolled.1 hp; omega)
  have hsub : ∀ p ∈ unrolledUv, p ∈ unrolled := by decide
  rw [v4Rows_eq]
  simp only [v4Block, concatM_eq hfetch]
  refine ⟨_, rfl, Puts.append
    (Puts.ifRgb rfl (fun hs => Puts.flatMap (P := fun q : Nat × Nat => {.rgb (4 * X + q.2) (4 * Y + q.1)}) fun p hp => ?_)
      (by simp) (by simp))
    (Puts.ifI420 rfl (fun hs => Puts.append
      (Puts.flatMap (P := fun q : Nat × Nat => {.luma (4 * X + q.2) (4 * Y + q.1)}) fun p hp => ?_) ?_) (by simp))⟩
  · obtain ⟨h₁, h₂⟩ := mem_unrolled.1 hp
    rw [hval p hp]
    refine puts_rgb (show 4 * X + p.2 < f.width / 2 by omega) (show 4 * Y + p.1 < f.height / 2 by omega) ?_ rfl rfl rfl hs
    simp only [HalfFrame.canvas]
    ring
  · obtain ⟨h₁, h₂⟩ := mem_unrolled.1 hp
    rw [hval p hp, rgbYVec_eq (hlevel p hp)]
    refine puts_luma (show 4 * X + p.2 < f.width / 2 by omega) (show 4 * Y + p.1 < f.height / 2 by omega) ?_ rfl hs
    simp only [HalfFrame.canvas]
    ring
  · have hchroma := v4Chroma_puts rgb i420 hs hx hy
    convert hchroma using 2
    · refine List.flatMap_congr fun p hp => ?_
      rw [hval p (hsub p hp)]
    · refine List.flatMap_congr fun p hp => ?_
      rw [hval p (hsub p hp)]

/-! ## The whole picture -/

/-- The bytes that a block takes. -/
def v4BlockBytes (rgb i420 : Bool) : Nat := (if rgb then 48 else 0) + if i420 then 24 else 0

theorem length_v4Block {rg10 : Nat → Option UInt8} {outW stride x outX : Nat} {rows : V4Rows} {log : List Store}
    (h : v4Block rg10 outW stride rows rgb i420 x outX = some log) : log.length = v4BlockBytes rgb i420 := by
  simp only [v4Block, Option.bind_eq_bind, Option.bind_eq_some_iff] at h
  obtain ⟨vals, -, hlog⟩ := h
  obtain rfl := Option.some.inj hlog
  cases rgb <;> cases i420 <;> rfl

theorem v4_draws (f : HalfFrame) (rgb i420 : Bool) :
    ∃ log, aloeRg10Rgb8I420V4 f.width f.height f.stride f.memory rgb i420 = some log ∧
      Draws (f.canvas i420 rgb) log f.picture ∧ log.length = f.height / 8 * (f.width / 8 * v4BlockBytes rgb i420) := by
  have hw := f.width_eight
  have hh := f.height_eight
  have hw0 := f.width_pos
  have hh0 := f.height_pos
  have hcol : ∀ Y, 8 * Y < f.height → ∀ x ∈ loop 0 f.width 8, ∃ log,
      v4Block f.memory (f.width / 2) f.stride (v4Rows f.width f.height f.stride (8 * Y) (4 * Y)) rgb i420 x (x / 8 * 4) =
        some log ∧ Puts (f.canvas i420 rgb) log (v4Places (x / 8) Y) f.picture := by
    intro Y hY x hx
    obtain ⟨hlt, X, rfl⟩ := (mem_loop (by omega)).1 hx
    rw [Nat.zero_add] at hlt ⊢
    rw [Nat.mul_div_cancel_left X (by omega), Nat.mul_comm X 4]
    exact v4Block_puts hlt hY
  have hrow : ∀ y ∈ loop 0 f.height 8, ∃ log,
      ((loop 0 f.width 8) |> concatM fun x => v4Block f.memory (f.width / 2) f.stride
        (v4Rows f.width f.height f.stride y (y / 8 * 4)) rgb i420 x (x / 8 * 4)) = some log ∧
        Puts (f.canvas i420 rgb) log {p | ∃ x ∈ loop 0 f.width 8, p ∈ v4Places (x / 8) (y / 8)} f.picture := by
    intro y hy
    obtain ⟨hlt, Y, rfl⟩ := (mem_loop (by omega)).1 hy
    rw [Nat.zero_add] at hlt ⊢
    rw [Nat.mul_div_cancel_left Y (by omega), Nat.mul_comm Y 4]
    exact Puts.concatM (hcol Y hlt)
  obtain ⟨log, hlog, hputs⟩ := Puts.concatM hrow
  rw [aloeRg10Rgb8I420V4, if_neg (by omega)]
  refine ⟨log, hlog, hputs.draws (fun c hc => ?_), ?_⟩
  · have hcover : ∀ x y, x < f.width / 2 → y < f.height / 2 → ∀ p : Place, p ∈ v4Places (x / 4) (y / 4) →
        ∃ y ∈ loop 0 f.height 8, ∃ x ∈ loop 0 f.width 8, p ∈ v4Places (x / 8) (y / 8) := by
      intro x y hx hy p hp
      refine ⟨8 * (y / 4), (mem_loop (by omega)).2 ⟨by omega, y / 4, by omega⟩, 8 * (x / 4),
        (mem_loop (by omega)).2 ⟨by omega, x / 4, by omega⟩, ?_⟩
      rwa [Nat.mul_div_cancel_left _ (by omega), Nat.mul_div_cancel_left _ (by omega)]
    cases c with
    | rgb x y k =>
      refine hcover x y hc.2.1 hc.2.2.1 _ (.inl ⟨(y % 4, x % 4), mem_unrolled.2 (by omega), ?_⟩)
      simp only [Cell.place, Nat.div_add_mod]
    | luma x y =>
      refine hcover x y hc.2.1 hc.2.2 _ (.inr (.inl ⟨(y % 4, x % 4), mem_unrolled.2 (by omega), ?_⟩))
      simp only [Cell.place, Nat.div_add_mod]
    | u x y | v x y =>
      obtain ⟨-, hx, hy⟩ := hc
      simp only [HalfFrame.canvas] at hx hy
      refine hcover (2 * x) (2 * y) (by omega) (by omega) _
        (.inr (.inr ⟨(2 * (y % 2), 2 * (x % 2)), mem_unrolledUv.2 (by omega), ?_⟩))
      simp only [Cell.place, Place.chroma.injEq]
      omega
  · have hlen := length_concatM (fun y _ a ha => length_concatM (fun x _ b hb => length_v4Block hb) ha) hlog
    rw [hlen, length_loop, length_loop, show (f.height - 0 + 8 - 1) / 8 = f.height / 8 by omega,
      show (f.width - 0 + 8 - 1) / 8 = f.width / 8 by omega]

/-- The bytes of the two buffers that a picture takes. -/
def halfBytes (width height : Nat) (rgb i420 : Bool) : Out → Nat
  | .rgb => if rgb then width / 2 * (height / 2) * 3 else 0
  | .i420 => if i420 then width / 2 * (height / 2) * 3 / 2 else 0

theorem halfBytes_eq (f : HalfFrame) (rgb i420 : Bool) (o : Out) :
    (f.canvas i420 rgb).size o = halfBytes f.width f.height rgb i420 o := by
  have hw := f.width_eight
  have hh := f.height_eight
  cases o with
  | rgb => rfl
  | i420 =>
    simp only [Canvas.size, HalfFrame.canvas, halfBytes,
      half_planes (show f.width / 2 % 2 = 0 by omega) (show f.height / 2 % 2 = 0 by omega)]

theorem v4_size (f : HalfFrame) (rgb i420 : Bool) :
    f.height / 8 * (f.width / 8 * v4BlockBytes rgb i420) =
      (f.canvas i420 rgb).size .rgb + (f.canvas i420 rgb).size .i420 := by
  obtain ⟨a, ha⟩ : ∃ a, f.width = 8 * a := ⟨f.width / 8, by have h := f.width_eight; omega⟩
  obtain ⟨b, hb⟩ : ∃ b, f.height = 8 * b := ⟨f.height / 8, by have h := f.height_eight; omega⟩
  have hw : f.width / 8 = a ∧ f.width / 2 = 4 * a ∧ 4 * a / 2 = 2 * a := by omega
  have hh : f.height / 8 = b ∧ f.height / 2 = 4 * b ∧ 4 * b / 2 = 2 * b := by omega
  cases rgb <;> cases i420 <;> simp [Canvas.size, HalfFrame.canvas, v4BlockBytes, hw, hh] <;> ring

/-- **The half-size conversion is complete and exact.** Reading only samples of the frame, it writes each byte of the
pictures asked for once and no other, and leaves the picture there. -/
theorem v4_exact (f : HalfFrame) (rgb i420 : Bool) :
    ∃ log, aloeRg10Rgb8I420V4 f.width f.height f.stride f.memory rgb i420 = some log ∧
      WritesOnce log (halfBytes f.width f.height rgb i420) ∧
      ∀ c : Cell, c.On (f.canvas i420 rgb) → after log (c.at (f.canvas i420 rgb)) = some (f.picture c) := by
  obtain ⟨log, hlog, hdraws, hlen⟩ := v4_draws f rgb i420
  refine ⟨log, hlog, fun o k => ?_, fun c hc => hdraws.shows hc⟩
  rw [hdraws.once (by rw [hlen, v4_size]), halfBytes_eq]

/-- Eight rows of eight samples, with four bytes behind each row. -/
def eightByEight : HalfFrame where
  width := 8
  height := 8
  stride := 20
  bytes off := if off % 2 = 0 then UInt8.ofNat off else 3
  width_pos := by decide
  height_pos := by decide
  width_eight := rfl
  height_eight := rfl
  stride_ge := by decide
  ten x y _ _ := by
    have hlow := (UInt8.ofNat (y * 20 + 2 * x)).toNat_lt
    have hhigh : (3 : UInt8).toNat = 3 := rfl
    rw [if_pos (by omega), if_neg (by omega), hhigh]
    omega

theorem v4_exact_eight :
    ∃ log, aloeRg10Rgb8I420V4 8 8 20 eightByEight.memory true true = some log ∧
    WritesOnce log (halfBytes 8 8 true true) := by
  obtain ⟨log, hlog, honce, -⟩ := v4_exact eightByEight true true
  exact ⟨log, hlog, honce⟩

end AlgaeBp.Rg10
