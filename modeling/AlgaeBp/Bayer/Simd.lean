import AlgaeBp.Bayer.Code
import AlgaeBp.Lib.Lanes
/-!
# The Bayer converters with vector instructions

`aloe_rggb10_to_rgb888_i420_scalar` and `aloe_rggb10_to_rgb888_i420_neon` of
`simd/rggb10_rgb888_i420_simd.cpp`. A row pointer is a function of the column,
and a pointer into an output is its offset.
-/

namespace AlgaeBp.Bayer.Simd

open Raster Lanes

/-! ## Common helpers -/

def raw10ToU8 (v : UInt16) : UInt8 := UInt8.ofNat ((v.toNat + 2) / 4)

def rgbToY (r g b : Int) : UInt8 := clampU8 (yValue r g b)

def rgbToU (r g b : Int) : UInt8 := clampU8 (uValue r g b)

def rgbToV (r g b : Int) : UInt8 := clampU8 (vValue r g b)

def demosaicRggb10Pixel (raw : Nat → UInt16) (width height x y : Nat) : Rgb Nat :=
  let xm1 := if x > 0 then x - 1 else 0
  let xp1 := if x + 1 < width then x + 1 else width - 1
  let ym1 := if y > 0 then y - 1 else 0
  let yp1 := if y + 1 < height then y + 1 else height - 1
  let rowM1 := rowAt raw width ym1
  let row := rowAt raw width y
  let rowP1 := rowAt raw width yp1
  if y % 2 = 0 ∧ x % 2 = 0 then
    { r := row x
      g := (row xm1 + row xp1 + rowM1 x + rowP1 x) / 4
      b := (rowM1 xm1 + rowM1 xp1 + rowP1 xm1 + rowP1 xp1) / 4 }
  else if y % 2 = 0 ∧ x % 2 = 1 then
    { g := row x
      r := (row xm1 + row xp1) / 2
      b := (rowM1 x + rowP1 x) / 2 }
  else if y % 2 = 1 ∧ x % 2 = 0 then
    { g := row x
      r := (rowM1 x + rowP1 x) / 2
      b := (row xm1 + row xp1) / 2 }
  else
    { b := row x
      g := (row xm1 + row xp1 + rowM1 x + rowP1 x) / 4
      r := (rowM1 xm1 + rowM1 xp1 + rowP1 xm1 + rowP1 xp1) / 4 }

/-- `r8`, `g8` and `b8` of a pixel. -/
def pixelU8 (raw : Nat → UInt16) (width height x y : Nat) : Rgb UInt8 :=
  (demosaicRggb10Pixel raw width height x y).map fun v => raw10ToU8 (UInt16.ofNat v)

/-! ## Scalar implementation -/

def scalarPixel (width height : Nat) (raw : Nat → UInt16) (i420 rgb : Bool) (y x : Nat) : List Store :=
  let c := pixelU8 raw width height x y
  let yRow := y * width
  let rgbRow := y * width * 3
  (if rgb then putRgb (rgbRow + x * 3) c.r c.g c.b else []) ++
  (if i420 then putI420 (yRow + x) (rgbToY c.r.toNat c.g.toNat c.b.toNat) else [])

/-- U and V of a block, at `uRow[x >> 1]` and `vRow[x >> 1]`. -/
def scalarBlock (width height : Nat) (raw : Nat → UInt16) (y x : Nat) : List Store :=
  let uvWidth := width / 2
  let uPlane := width * height
  let vPlane := uPlane + uvWidth * (height / 2)
  let uRow := uPlane + y / 2 * uvWidth
  let vRow := vPlane + y / 2 * uvWidth
  let sum := fun f : Rgb UInt8 → UInt8 =>
    (f (pixelU8 raw width height x y)).toNat + (f (pixelU8 raw width height (x + 1) y)).toNat +
    (f (pixelU8 raw width height x (y + 1))).toNat + (f (pixelU8 raw width height (x + 1) (y + 1))).toNat
  let rAvg := sum Rgb.r / 4
  let gAvg := sum Rgb.g / 4
  let bAvg := sum Rgb.b / 4
  putI420 (uRow + x / 2) (rgbToU rAvg gAvg bAvg) ++ putI420 (vRow + x / 2) (rgbToV rAvg gAvg bAvg)

def aloeRggb10ToRgb888I420Scalar (width height : Nat) (raw : Nat → UInt16) (i420 rgb : Bool) : List Store :=
  ((loop 0 height 1).flatMap fun y => (loop 0 width 1).flatMap fun x => scalarPixel width height raw i420 rgb y x) ++
  (if i420 then
    (loop 0 height 2).flatMap fun y => (loop 0 width 2).flatMap fun x => scalarBlock width height raw y x
  else [])

/-! ## NEON implementation -/

def neonRaw10ToU8 (v : Vec 4 UInt16) : Vec 4 UInt16 :=
  let v := vaddU16 v (vdupU16 2)
  vshrNU16 v 2

/-- The four bytes that `vst1_lane_u32` stores of the packed vector. -/
def neonStore4U16AsU8 (v : Vec 4 UInt16) : Vec 4 UInt8 :=
  let packed := vmovnU16 (vcombine v (vdupU16 0))
  fun i => packed (Fin.castAdd 4 i)

/-- `r0_tmp`, `g0_tmp` and so on, loaded and made eight bits: the four pixels of four blocks. -/
structure Blocks where
  c0 : Rgb (Vec 4 UInt16)
  c1 : Rgb (Vec 4 UInt16)
  c2 : Rgb (Vec 4 UInt16)
  c3 : Rgb (Vec 4 UInt16)

def neonBlocks (rowM1 row0 row1 rowP2 : Nat → Nat) (x : Nat) : Blocks :=
  let lanes := fun tmp : Nat → Nat => neonRaw10ToU8 fun i => UInt16.ofNat (tmp (x + i.val * 2))
  let r0 := fun xx => row0 xx
  let g0 := fun xx => (row0 (xx - 1) + row0 (xx + 1) + rowM1 xx + row1 xx) / 4
  let b0 := fun xx => (rowM1 (xx - 1) + rowM1 (xx + 1) + row1 (xx - 1) + row1 (xx + 1)) / 4
  let g1 := fun xx => row0 (xx + 1)
  let r1 := fun xx => (row0 xx + row0 (xx + 2)) / 2
  let b1 := fun xx => (rowM1 (xx + 1) + row1 (xx + 1)) / 2
  let g2 := fun xx => row1 xx
  let r2 := fun xx => (rowM1 xx + rowP2 xx) / 2
  let b2 := fun xx => (row1 (xx - 1) + row1 (xx + 1)) / 2
  let b3 := fun xx => row1 (xx + 1)
  let g3 := fun xx => (row1 xx + row1 (xx + 2) + row0 (xx + 1) + rowP2 (xx + 1)) / 4
  let r3 := fun xx => (row0 xx + row0 (xx + 2) + rowP2 xx + rowP2 (xx + 2)) / 4
  { c0 := ⟨lanes r0, lanes g0, lanes b0⟩
    c1 := ⟨lanes r1, lanes g1, lanes b1⟩
    c2 := ⟨lanes r2, lanes g2, lanes b2⟩
    c3 := ⟨lanes r3, lanes g3, lanes b3⟩ }

/-- `y0` to `y3`. -/
def neonY (c : Rgb (Vec 4 UInt16)) : Vec 4 UInt16 :=
  let y := vmulNU16 c.r 66
  let y := vmlaNU16 y c.g 129
  let y := vmlaNU16 y c.b 25
  let y := vaddU16 y (vdupU16 128)
  let y := vshrNU16 y 8
  vaddU16 y (vdupU16 16)

/-- Four bytes of a row, every other one. -/
def neonPutY (k : Nat) (tmp : Vec 4 UInt8) : List Store := (List.finRange 4).flatMap fun i => putI420 (k + i.val * 2) (tmp i)

/-- Four pixels of a row of RGB, every other one. -/
def neonPutRgb (rgbRow x : Nat) (c : Rgb (Vec 4 UInt16)) : List Store :=
  (List.finRange 4).flatMap fun i =>
    putRgb (rgbRow + (x + i.val * 2) * 3) (c.r i).toUInt8 (c.g i).toUInt8 (c.b i).toUInt8

/-- The part under `write_y`. -/
def neonWriteY (b : Blocks) (x yRow0 yRow1 : Nat) : List Store :=
  neonPutY (yRow0 + x) (neonStore4U16AsU8 (neonY b.c0)) ++ neonPutY (yRow0 + (x + 1)) (neonStore4U16AsU8 (neonY b.c1)) ++
  neonPutY (yRow1 + x) (neonStore4U16AsU8 (neonY b.c2)) ++ neonPutY (yRow1 + (x + 1)) (neonStore4U16AsU8 (neonY b.c3))

/-- The part under `write_rgb`. -/
def neonWriteRgb (b : Blocks) (x rgbRow0 rgbRow1 : Nat) : List Store :=
  neonPutRgb rgbRow0 x b.c0 ++ neonPutRgb rgbRow0 (x + 1) b.c1 ++ neonPutRgb rgbRow1 x b.c2 ++
  neonPutRgb rgbRow1 (x + 1) b.c3

/-- `r_avg`, `g_avg` and `b_avg`. -/
def neonAvg (b : Blocks) : Rgb (Vec 4 UInt16) :=
  let avg := fun f : Rgb (Vec 4 UInt16) → Vec 4 UInt16 =>
    vshrNU16 (vaddU16 (vaddU16 (f b.c0) (f b.c1)) (vaddU16 (f b.c2) (f b.c3))) 2
  ⟨avg Rgb.r, avg Rgb.g, avg Rgb.b⟩

/-- The part under `write_uv`. -/
def neonWriteUv (b : Blocks) (x uRow vRow : Nat) : List Store :=
  let avg := neonAvg b
  (List.finRange 4).flatMap fun i =>
    putI420 (uRow + (x / 2 + i.val)) (rgbToU (avg.r i).toNat (avg.g i).toNat (avg.b i).toNat) ++
    putI420 (vRow + (x / 2 + i.val)) (rgbToV (avg.r i).toNat (avg.g i).toNat (avg.b i).toNat)

def neonProcess8Columns (rowM1 row0 row1 rowP2 : Nat → Nat) (x yRow0 yRow1 rgbRow0 rgbRow1 uRow vRow : Nat)
    (writeY writeRgb writeUv : Bool) : List Store :=
  let b := neonBlocks rowM1 row0 row1 rowP2 x
  (if writeY then neonWriteY b x yRow0 yRow1 else []) ++
  (if writeRgb then neonWriteRgb b x rgbRow0 rgbRow1 else []) ++
  (if writeUv then neonWriteUv b x uRow vRow else [])

/-- A column of the rows `y` and `y + 1`, at the borders. -/
def neonColumn (width height : Nat) (raw : Nat → UInt16) (i420 rgb : Bool) (y x : Nat) : List Store :=
  (loop 0 2 1).flatMap fun dy =>
    let py := y + dy
    if py ≥ height then [] else
    let c := pixelU8 raw width height x py
    (if rgb then putRgb ((py * width + x) * 3) c.r c.g c.b else []) ++
    (if i420 then putI420 (py * width + x) (rgbToY c.r.toNat c.g.toNat c.b.toNat) else [])

/-- U and V of a block, calculated again. -/
def neonBlockUv (width height : Nat) (raw : Nat → UInt16) (y bx : Nat) : List Store :=
  let uvWidth := width / 2
  let uPlane := width * height
  let vPlane := uPlane + uvWidth * (height / 2)
  let uRow := uPlane + y / 2 * uvWidth
  let vRow := vPlane + y / 2 * uvWidth
  let level := fun (dx dy : Nat) =>
    let px := if bx + dx ≥ width then width - 1 else bx + dx
    let py := if y + dy ≥ height then height - 1 else y + dy
    pixelU8 raw width height px py
  let sum := fun f : Rgb UInt8 → UInt8 =>
    (f (level 0 0)).toNat + (f (level 1 0)).toNat + (f (level 0 1)).toNat + (f (level 1 1)).toNat
  let rAvg := sum Rgb.r / 4
  let gAvg := sum Rgb.g / 4
  let bAvg := sum Rgb.b / 4
  putI420 (uRow + bx / 2) (rgbToU rAvg gAvg bAvg) ++ putI420 (vRow + bx / 2) (rgbToV rAvg gAvg bAvg)

/-- Where the columns of the vector loop begin: `for (; x + 8 <= width - 4; x += 8)`. -/
def interior (width : Nat) : List Nat := loop 4 (width - 11) 8

/-- The body of the loop over `y`. -/
def neonRows (width height : Nat) (raw : Nat → UInt16) (i420 rgb : Bool) (y : Nat) : List Store :=
  let y1 := if y + 1 < height then y + 1 else y
  let rowM1 := rowAt raw width (if y > 0 then y - 1 else y)
  let row0 := rowAt raw width y
  let row1 := rowAt raw width y1
  let rowP2 := rowAt raw width (if y + 2 < height then y + 2 else y1)
  let uvWidth := width / 2
  let uPlane := width * height
  let vPlane := uPlane + uvWidth * (height / 2)
  let rest := 4 + 8 * (interior width).length
  ((loop 0 (min 4 width) 1).flatMap fun x => neonColumn width height raw i420 rgb y x) ++
  ((interior width).flatMap fun x =>
    neonProcess8Columns rowM1 row0 row1 rowP2 x (y * width) (y1 * width) (y * width * 3) (y1 * width * 3)
      (uPlane + y / 2 * uvWidth) (vPlane + y / 2 * uvWidth) i420 rgb i420) ++
  ((loop rest width 1).flatMap fun x => neonColumn width height raw i420 rgb y x) ++
  (if i420 then (loop 0 width 2).flatMap fun bx => neonBlockUv width height raw y bx else [])

def aloeRggb10ToRgb888I420Neon (width height : Nat) (raw : Nat → UInt16) (i420 rgb : Bool) : List Store :=
  if width < 16 ∨ height < 4 then aloeRggb10ToRgb888I420Scalar width height raw i420 rgb
  else (loop 0 height 2).flatMap fun y => neonRows width height raw i420 rgb y

end AlgaeBp.Bayer.Simd
