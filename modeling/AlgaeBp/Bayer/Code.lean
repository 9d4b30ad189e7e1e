import AlgaeBp.Bayer.Mosaic
/-!
# The Bayer converters

`aloe_rggb10_to_rgb888_i420` of `rggb10_rgb888_i420.cpp` and the optimised
`aloe_rggb10_to_rgb888_i420_v2`. A frame is its words by their index, an output
that is `NULL` is one that is not asked for, and a converter is the list of its
stores. Coordinates and offsets are unbounded; where they would leave `int` the
C code means nothing. `int` sums of samples are not negative and are `Nat`s.
-/

namespace AlgaeBp.Bayer

open Raster

/-- A byte that is written: to which buffer, at which offset. -/
abbrev Store := (Out × Nat) × UInt8

/-! ## The original -/

def extractRaw10 (pixel : UInt16) : UInt16 := pixel &&& 0x03FF

def clampU8 (value : Int) : UInt8 := if value < 0 then 0 else if value > 255 then 255 else UInt8.ofInt value

def raw10ToU8 (value : UInt16) : UInt8 := UInt8.ofNat ((value.toNat * 255 + 511) / 1023)

def getPixel (width height : Nat) (raw : Nat → UInt16) (x y : Int) : UInt16 :=
  let x := if x < 0 then 0 else x
  let x := if x ≥ width then (width : Int) - 1 else x
  let y := if y < 0 then 0 else y
  let y := if y ≥ height then (height : Int) - 1 else y
  extractRaw10 (raw (y * width + x).toNat)

/-- `r`, `g` and `b` of a pixel; the code stands in the loop for the Y plane and again in the one for U and V. -/
def interpolate (width height : Nat) (raw : Nat → UInt16) (x y : Int) : Rgb UInt16 :=
  let get := fun x y => (getPixel width height raw x y).toNat
  let cross := (get (x - 1) y + get (x + 1) y + get x (y - 1) + get x (y + 1)) / 4
  let diagonal := (get (x - 1) (y - 1) + get (x + 1) (y - 1) + get (x - 1) (y + 1) + get (x + 1) (y + 1)) / 4
  if y % 2 = 0 then
    if x % 2 = 0 then
      ⟨getPixel width height raw x y, UInt16.ofNat cross, UInt16.ofNat diagonal⟩
    else
      ⟨UInt16.ofNat ((get (x - 1) y + get (x + 1) y) / 2), getPixel width height raw x y,
        UInt16.ofNat ((get x (y - 1) + get x (y + 1)) / 2)⟩
  else
    if x % 2 = 0 then
      ⟨UInt16.ofNat ((get x (y - 1) + get x (y + 1)) / 2), getPixel width height raw x y,
        UInt16.ofNat ((get (x - 1) y + get (x + 1) y) / 2)⟩
    else
      ⟨UInt16.ofNat diagonal, UInt16.ofNat cross, getPixel width height raw x y⟩

def yValue (r8 g8 b8 : Int) : Int := ((66 * r8 + 129 * g8 + 25 * b8 + 128) >>> (8 : Nat)) + 16

def uValue (r8 g8 b8 : Int) : Int := ((-38 * r8 - 74 * g8 + 112 * b8 + 128) >>> (8 : Nat)) + 128

def vValue (r8 g8 b8 : Int) : Int := ((112 * r8 - 94 * g8 - 18 * b8 + 128) >>> (8 : Nat)) + 128

/-- The body of the loops that write RGB and Y. -/
def pixelBody (width height : Nat) (raw : Nat → UInt16) (i420 rgb : Bool) (y x : Nat) : List Store :=
  let c := interpolate width height raw x y
  let r8 := raw10ToU8 c.r
  let g8 := raw10ToU8 c.g
  let b8 := raw10ToU8 c.b
  (if rgb then putRgb ((y * width + x) * 3) r8 g8 b8 else []) ++
  (if i420 then putI420 (y * width + x) (clampU8 (yValue r8.toNat g8.toNat b8.toNat)) else [])

/-- `r`, `g` and `b` in the loops for U and V, where `px = x + dx` and `py = y + dy`. -/
def chromaColour (width height : Nat) (raw : Nat → UInt16) (y x dy dx : Nat) : Rgb UInt16 :=
  interpolate width height raw (x + dx) (y + dy)

/-- The body of the loops that write U and V. -/
def chromaBody (width height : Nat) (raw : Nat → UInt16) (y x : Nat) : List Store :=
  let uPlane := width * height
  let vPlane := uPlane + width / 2 * (height / 2)
  let sum := fun f : Rgb UInt16 → UInt16 =>
    let level := fun dy dx => (raw10ToU8 (f (chromaColour width height raw y x dy dx))).toNat
    level 0 0 + level 0 1 + level 1 0 + level 1 1
  let r8 := sum Rgb.r / 4
  let g8 := sum Rgb.g / 4
  let b8 := sum Rgb.b / 4
  putI420 (uPlane + (y / 2 * (width / 2) + x / 2)) (clampU8 (uValue r8 g8 b8)) ++
  putI420 (vPlane + (y / 2 * (width / 2) + x / 2)) (clampU8 (vValue r8 g8 b8))

def aloeRggb10ToRgb888I420 (width height : Nat) (raw : Nat → UInt16) (i420 rgb : Bool) : List Store :=
  ((loop 0 height 1).flatMap fun y => (loop 0 width 1).flatMap fun x => pixelBody width height raw i420 rgb y x) ++
  (if i420 then
    (loop 0 height 2).flatMap fun y => (loop 0 width 2).flatMap fun x => chromaBody width height raw y x
  else [])

/-! ## The optimised one -/

def clampU8Int (v : Int) : UInt8 := if v < 0 then 0 else if v > 255 then 255 else UInt8.ofInt v

/-- `row[x]`. -/
def rowAt (raw : Nat → UInt16) (width y x : Nat) : Nat := (raw (y * width + x)).toNat

/-- What there is of the four pixels of a block. -/
structure Levels where
  c0 : Rgb Nat
  c1 : Rgb Nat
  c2 : Rgb Nat
  c3 : Rgb Nat

def Levels.map (g : Nat → Nat) (l : Levels) : Levels := ⟨l.c0.map g, l.c1.map g, l.c2.map g, l.c3.map g⟩

/-- `r0`, `g0`, `b0` and so on: the colours of the four pixels. -/
def v2Colours (width height : Nat) (raw : Nat → UInt16) (y x : Nat) : Levels :=
  let y0 := y
  let y1 := if y + 1 < height then y + 1 else y
  let rowM1 := rowAt raw width (if y0 > 0 then y0 - 1 else y0)
  let row0 := rowAt raw width y0
  let row1 := rowAt raw width y1
  let rowP2 := rowAt raw width (if y + 2 < height then y + 2 else y1)
  let xm1 := if x > 0 then x - 1 else x
  let xp1 := if x + 1 < width then x + 1 else x
  let xp2 := if x + 2 < width then x + 2 else xp1
  { c0 := ⟨row0 x, (row0 xm1 + row0 xp1 + rowM1 x + row1 x) / 4, (rowM1 xm1 + rowM1 xp1 + row1 xm1 + row1 xp1) / 4⟩
    c1 := ⟨(row0 x + row0 xp2) / 2, row0 xp1, (rowM1 xp1 + row1 xp1) / 2⟩
    c2 := ⟨(row0 x + rowP2 x) / 2, row1 x, (row1 xm1 + row1 xp1) / 2⟩
    c3 := ⟨(row0 x + row0 xp2 + rowP2 x + rowP2 xp2) / 4, (row1 x + row1 xp2 + row0 xp1 + rowP2 xp1) / 4, row1 xp1⟩ }

/-- `r0_8`, `g0_8`, `b0_8` and so on. -/
def v2Levels (width height : Nat) (raw : Nat → UInt16) (y x : Nat) : Levels :=
  (v2Colours width height raw y x).map (fun v => (v + 2) / 4)

/-- The body of the loops of `aloe_rggb10_to_rgb888_i420_v2`. -/
def v2Block (width height : Nat) (raw : Nat → UInt16) (i420 rgb : Bool) (y x : Nat) : List Store :=
  let l := v2Levels width height raw y x
  let y0 := y
  let y1 := if y + 1 < height then y + 1 else y
  let uPlane := width * height
  let vPlane := uPlane + width / 2 * (height / 2)
  let put := fun (p : Nat) (c : Rgb Nat) => putRgb p (UInt8.ofNat c.r) (UInt8.ofNat c.g) (UInt8.ofNat c.b)
  let putY := fun (k : Nat) (c : Rgb Nat) => putI420 k (clampU8Int (yValue c.r c.g c.b))
  let p0 := y0 * width * 3 + x * 3
  let p2 := y1 * width * 3 + x * 3
  (if rgb then put p0 l.c0 ++ put (p0 + 3) l.c1 ++ put p2 l.c2 ++ put (p2 + 3) l.c3 else []) ++
  (if i420 then
    putY (y0 * width + x) l.c0 ++ putY (y0 * width + (x + 1)) l.c1 ++ putY (y1 * width + x) l.c2 ++
      putY (y1 * width + (x + 1)) l.c3
  else []) ++
  (if i420 then
    let rAvg := (l.c0.r + l.c1.r + l.c2.r + l.c3.r) / 4
    let gAvg := (l.c0.g + l.c1.g + l.c2.g + l.c3.g) / 4
    let bAvg := (l.c0.b + l.c1.b + l.c2.b + l.c3.b) / 4
    putI420 (uPlane + y / 2 * (width / 2) + x / 2) (clampU8Int (uValue rAvg gAvg bAvg)) ++
    putI420 (vPlane + y / 2 * (width / 2) + x / 2) (clampU8Int (vValue rAvg gAvg bAvg))
  else [])

def aloeRggb10ToRgb888I420V2 (width height : Nat) (raw : Nat → UInt16) (i420 rgb : Bool) : List Store :=
  if width = 0 ∨ height = 0 then []
  else if width % 2 = 1 ∨ height % 2 = 1 then []
  else (loop 0 height 2).flatMap fun y => (loop 0 width 2).flatMap fun x => v2Block width height raw i420 rgb y x

end AlgaeBp.Bayer
