import AlgaeBp.Lib.Raster
import AlgaeBp.Lib.Lanes
import Mathlib.Data.Fin.VecNotation
/-!
# The quarter-size converters

`aloe_rg10_rgb8_i420_v5` and `aloe_rg10_rgb8_i420_v6` of
`rg10_rgb8_i420_v4.cpp`, each as built without vector instructions, with NEON
and with SSE2. The source is its bytes, a row pointer is an offset into them,
and a converter is the list of its stores. A vector load from a row answers
`none` where it would read on behind the row. The gains are the tables made of
them, or none when they are all 1; the range check of the gains and the floating
point arithmetic that fills the tables are left out.
-/

namespace AlgaeBp.Rg10

open Raster Lanes

/-- A byte that is written: to which buffer, at which offset. -/
abbrev Store := (Out × Nat) × UInt8

inductive Build where
  /-- No vector instructions, or `ALOE_RG10_V6_SCALAR`. -/
  | scalar
  | neon
  | sse2
  deriving DecidableEq, Repr

structure Rgb (α : Type) where
  r : α
  g : α
  b : α

/-- `gain_lut`. -/
abbrev Gains := Rgb (UInt8 → UInt8)

/-! ## The source -/

/-- `row[i]`. -/
def word (rg10 : Nat → UInt8) (row i : Nat) : UInt16 :=
  UInt16.ofNat ((rg10 (row + 2 * i)).toNat + 256 * (rg10 (row + 2 * i + 1)).toNat)

/-- `n` words of a row of `width` words. -/
def loadWords (rg10 : Nat → UInt8) (width row first n : Nat) : Option (Vec n UInt16) :=
  if first + n ≤ width then some fun i => word rg10 row (first + i.val) else none

/-- `_mm_loadu_si128`: eight words of the row. -/
def loaduSi128 (rg10 : Nat → UInt8) (width row first : Nat) : Option M128 :=
  if first + 8 ≤ width then some fun j => rg10 (row + 2 * first + j.val) else none

/-! ## Common helpers -/

def rg10U8 (value : UInt16) : UInt8 := UInt8.ofNat ((value.toNat / 4) &&& 0xff)

def clampU8 (value : Int) : Int := if value > 255 then 255 else if value < 0 then 0 else value

/-- `int` arithmetic on bytes; `/` cuts towards zero. -/
def yValue (r g b : UInt8) : Int := (66 * r.toNat + 129 * g.toNat + 25 * b.toNat + 128 : Int).tdiv 256 + 16

def uValue (r g b : UInt8) : Int := (-38 * r.toNat - 74 * g.toNat + 112 * b.toNat + 128 : Int).tdiv 256 + 128

def vValue (r g b : UInt8) : Int := (112 * r.toNat - 94 * g.toNat - 18 * b.toNat + 128 : Int).tdiv 256 + 128

def rgbYNeon8 (r g b : Vec 8 UInt8) : Vec 8 UInt8 :=
  let bias := vdupU16 128
  let offset := vdupU16 16
  let sum := vmlalU8 (vmullU8 r (vdupU8 66)) g (vdupU8 129)
  let sum := vmlalU8 sum b (vdupU8 25)
  vmovnU16 (vaddU16 (vshrNU16 (vaddU16 sum bias) 8) offset)

def rgbYSse28 (r g b : Vec 8 UInt8) : Vec 8 UInt8 :=
  let zero := setzeroSi128
  let vr := unpackloEpi8 (loadlEpi64 r) zero
  let vg := unpackloEpi8 (loadlEpi64 g) zero
  let vb := unpackloEpi8 (loadlEpi64 b) zero
  let sum := addEpi16 (mulloEpi16 vr (set1Epi16 66)) (mulloEpi16 vg (set1Epi16 129))
  let sum := addEpi16 sum (mulloEpi16 vb (set1Epi16 25))
  let sum := addEpi16 sum (set1Epi16 128)
  let sum := addEpi16 (srliEpi16 sum 8) (set1Epi16 16)
  storelEpi64 (packusEpi16 sum zero)

/-- Which of the two a build has. -/
def rgbY8 (build : Build) (c : Rgb (Vec 8 UInt8)) : Vec 8 UInt8 :=
  match build with
  | .neon => rgbYNeon8 c.r c.g c.b
  | .scalar | .sse2 => rgbYSse28 c.r c.g c.b

/-- Eight bytes of a row of Y. -/
def putY8 (k : Nat) (v : Vec 8 UInt8) : List Store := (List.finRange 8).flatMap fun i => putI420 (k + i.val) (v i)

/-- Eight pixels of a row of RGB, in a loop or with `vst3_u8`. -/
def putRgb8 (dst x : Nat) (c : Rgb (Vec 8 UInt8)) : List Store :=
  (List.finRange 8).flatMap fun i => putRgb (dst + (x + i.val) * 3) (c.r i) (c.g i) (c.b i)

/-- The loops `for (i = 1; i < 8; i += 2)`. -/
def oddLanes : List (Fin 8) := [1, 3, 5, 7]

/-- The columns that the vector loop begins its turns with: `for (; x + 8 <= out_w; x += 8)`. -/
def vectorCols (build : Build) (outW : Nat) : List Nat :=
  match build with
  | .scalar => []
  | .neon | .sse2 => loop 0 (outW + 1 - 8) 8

/-! ## `aloe_rg10_rgb8_i420_v5` -/

/-- The offsets of a turn of the loop over the rows. -/
structure V5Rows where
  row0 : Nat
  row1 : Nat
  row4 : Nat
  row5 : Nat
  rgb0 : Nat
  rgb1 : Nat
  y0 : Nat
  y1 : Nat
  u : Nat
  v : Nat

def v5Rows (width height stride outY : Nat) : V5Rows :=
  let outW := width / 4
  let outH := height / 4
  let rgbStride := outW * 3
  let uPlane := outW * outH
  let vPlane := uPlane + outW * outH / 4
  { row0 := outY * 4 * stride
    row1 := (outY * 4 + 1) * stride
    row4 := (outY * 4 + 4) * stride
    row5 := (outY * 4 + 5) * stride
    rgb0 := outY * rgbStride
    rgb1 := outY * rgbStride + rgbStride
    y0 := outY * outW
    y1 := outY * outW + outW
    u := uPlane + outY / 2 * (outW / 2)
    v := vPlane + outY / 2 * (outW / 2) }

/-- Eight columns of two rows. -/
def v5Vector (build : Build) (rg10 : Nat → UInt8) (rows : V5Rows) (rgb i420 : Bool) (outX : Nat) : List Store :=
  let x := outX * 4
  let c0 : Rgb (Vec 8 UInt8) :=
    { r := fun i => rg10U8 (word rg10 rows.row0 (x + i.val * 4))
      g := fun i => rg10U8 (word rg10 rows.row0 (x + i.val * 4 + 1))
      b := fun i => rg10U8 (word rg10 rows.row1 (x + i.val * 4 + 1)) }
  let c1 : Rgb (Vec 8 UInt8) :=
    { r := fun i => rg10U8 (word rg10 rows.row4 (x + i.val * 4))
      g := fun i => rg10U8 (word rg10 rows.row4 (x + i.val * 4 + 1))
      b := fun i => rg10U8 (word rg10 rows.row5 (x + i.val * 4 + 1)) }
  (if rgb then putRgb8 rows.rgb0 outX c0 ++ putRgb8 rows.rgb1 outX c1 else []) ++
  (if i420 then
    putY8 (rows.y0 + outX) (rgbY8 build c0) ++ putY8 (rows.y1 + outX) (rgbY8 build c1) ++
    oddLanes.flatMap fun i =>
      putI420 (rows.u + (outX + i.val) / 2) (UInt8.ofInt (clampU8 (uValue (c1.r i) (c1.g i) (c1.b i)))) ++
      putI420 (rows.v + (outX + i.val) / 2) (UInt8.ofInt (clampU8 (vValue (c1.r i) (c1.g i) (c1.b i))))
  else [])

/-- One column of two rows. -/
def v5Column (rg10 : Nat → UInt8) (rows : V5Rows) (rgb i420 : Bool) (outX : Nat) : List Store :=
  let x := outX * 4
  let r0 := rg10U8 (word rg10 rows.row0 x)
  let g0 := rg10U8 (word rg10 rows.row0 (x + 1))
  let b0 := rg10U8 (word rg10 rows.row1 (x + 1))
  let r1 := rg10U8 (word rg10 rows.row4 x)
  let g1 := rg10U8 (word rg10 rows.row4 (x + 1))
  let b1 := rg10U8 (word rg10 rows.row5 (x + 1))
  (if rgb then putRgb (rows.rgb0 + outX * 3) r0 g0 b0 ++ putRgb (rows.rgb1 + outX * 3) r1 g1 b1 else []) ++
  (if i420 then
    putI420 (rows.y0 + outX) (UInt8.ofInt (yValue r0 g0 b0)) ++ putI420 (rows.y1 + outX) (UInt8.ofInt (yValue r1 g1 b1)) ++
    (if outX % 2 = 1 then
      putI420 (rows.u + outX / 2) (UInt8.ofInt (clampU8 (uValue r1 g1 b1))) ++
      putI420 (rows.v + outX / 2) (UInt8.ofInt (clampU8 (vValue r1 g1 b1)))
    else [])
  else [])

def aloeRg10Rgb8I420V5 (build : Build) (width height stride : Nat) (rg10 : Nat → UInt8) (rgb i420 : Bool) : List Store :=
  let outW := width / 4
  let outH := height / 4
  if width < 8 ∨ height < 8 ∨ width % 8 ≠ 0 ∨ height % 8 ≠ 0 then []
  else (loop 0 outH 2).flatMap fun outY =>
    let rows := v5Rows width height stride outY
    (vectorCols build outW).flatMap (v5Vector build rg10 rows rgb i420) ++
    (loop (8 * (vectorCols build outW).length) outW 1).flatMap (v5Column rg10 rows rgb i420)

/-! ## `aloe_rg10_rgb8_i420_v6` -/

def mmShuffle (z y x w : Fin 4) : Fin 4 → Fin 4 := ![w, x, y, z]

def rg10V6Pairs (rg10 : Nat → UInt8) (width row first : Nat) : Option M128 := do
  let a ← loaduSi128 rg10 width row first
  let b ← loaduSi128 rg10 width row (first + 8)
  return unpackloEpi64 (shuffleEpi32 a (mmShuffle 2 0 2 0)) (shuffleEpi32 b (mmShuffle 2 0 2 0))

def rg10V6Channel (a b : M128) (shift : UInt32) : M128 :=
  let mask := set1Epi32 255
  let a := andSi128 (srlEpi32 a shift) mask
  let b := andSi128 (srlEpi32 b shift) mask
  packusEpi16 (packsEpi32 a b) setzeroSi128

/-- The offsets of a turn of the loop over the rows. -/
structure V6Row where
  row0 : Nat
  row1 : Nat
  dst : Nat
  yd : Nat
  ud : Nat
  vd : Nat

def v6Row (width height stride y : Nat) : V6Row :=
  let outW := width / 4
  let outH := height / 4
  let ySize := outW * outH
  let up := ySize
  let vp := up + ySize / 4
  { row0 := y * 4 * stride
    row1 := y * 4 * stride + stride
    dst := y * outW * 3
    yd := y * outW
    ud := up + y / 2 * (outW / 2)
    vd := vp + y / 2 * (outW / 2) }

/-- `if (adjust)` for one pixel. -/
def adjusted (gains : Option Gains) (c : Rgb UInt8) : Rgb UInt8 :=
  match gains with
  | some lut => { r := lut.r c.r, g := lut.g c.g, b := lut.b c.b }
  | none => c

/-- The loop that adjusts eight pixels. -/
def adjust8 (lut : Gains) (c : Rgb (Vec 8 UInt8)) : Rgb (Vec 8 UInt8) :=
  { r := fun i => lut.r (c.r i), g := fun i => lut.g (c.g i), b := fun i => lut.b (c.b i) }

/-- `if (yd && (y & 1))`: every other column of eight. -/
def v6Chroma8 (row : V6Row) (i420 : Bool) (y x : Nat) (c : Rgb (Vec 8 UInt8)) : List Store :=
  if i420 ∧ y % 2 = 1 then
    oddLanes.flatMap fun i =>
      putI420 (row.ud + (x + i.val) / 2) (UInt8.ofInt (uValue (c.r i) (c.g i) (c.b i))) ++
      putI420 (row.vd + (x + i.val) / 2) (UInt8.ofInt (vValue (c.r i) (c.g i) (c.b i)))
  else []

/-- Eight columns with NEON. `stack` is what the arrays `r`, `g` and `b` hold before anything is stored in them. -/
def v6Neon (stack : Rgb (Vec 8 UInt8)) (rg10 : Nat → UInt8) (width : Nat) (row : V6Row) (rgb i420 : Bool)
    (gains : Option Gains) (y x : Nat) : Option (List Store) := do
  let top ← loadWords rg10 width row.row0 (x * 4) 32
  let bottom ← loadWords rg10 width row.row1 (x * 4) 32
  let channels : Rgb (Vec 8 UInt8) :=
    { r := vmovnU16 (vshrNU16 (vld4 top 0) 2)
      g := vmovnU16 (vshrNU16 (vld4 top 1) 2)
      b := vmovnU16 (vshrNU16 (vld4 bottom 1) 2) }
  let arrays := match gains with
    | some lut => adjust8 lut channels
    | none => stack
  let channels := match gains with
    | some _ => arrays
    | none => channels
  let sum := vmullU8 channels.r (vdupU8 66)
  let sum := vmlalU8 sum channels.g (vdupU8 129)
  let sum := vmlalU8 sum channels.b (vdupU8 25)
  let luma := vaddU8 (vshrnNU16 (vaddU16 sum (vdupU16 128)) 8) (vdupU8 16)
  let arrays := if i420 ∧ y % 2 = 1 then channels else arrays
  return (if rgb then putRgb8 row.dst x channels else []) ++ (if i420 then putY8 (row.yd + x) luma else []) ++
    v6Chroma8 row i420 y x arrays

/-- Eight columns with SSE2. -/
def v6Sse2 (rg10 : Nat → UInt8) (width : Nat) (row : V6Row) (rgb i420 : Bool) (gains : Option Gains) (y x : Nat) :
    Option (List Store) := do
  let top0 ← rg10V6Pairs rg10 width row.row0 (x * 4)
  let top1 ← rg10V6Pairs rg10 width row.row0 (x * 4 + 16)
  let bot0 ← rg10V6Pairs rg10 width row.row1 (x * 4)
  let bot1 ← rg10V6Pairs rg10 width row.row1 (x * 4 + 16)
  let arrays : Rgb (Vec 8 UInt8) :=
    { r := storelEpi64 (rg10V6Channel top0 top1 2)
      g := storelEpi64 (rg10V6Channel top0 top1 18)
      b := storelEpi64 (rg10V6Channel bot0 bot1 18) }
  let arrays := match gains with
    | some lut => adjust8 lut arrays
    | none => arrays
  return (if rgb then putRgb8 row.dst x arrays else []) ++
    (if i420 then putY8 (row.yd + x) (rgbYSse28 arrays.r arrays.g arrays.b) else []) ++ v6Chroma8 row i420 y x arrays

/-- One column. -/
def v6Column (rg10 : Nat → UInt8) (row : V6Row) (rgb i420 : Bool) (gains : Option Gains) (y x : Nat) : List Store :=
  let c : Rgb UInt8 :=
    { r := rg10U8 (word rg10 row.row0 (x * 4))
      g := rg10U8 (word rg10 row.row0 (x * 4 + 1))
      b := rg10U8 (word rg10 row.row1 (x * 4 + 1)) }
  let c := adjusted gains c
  (if rgb then putRgb (row.dst + x * 3) c.r c.g c.b else []) ++
  (if i420 then
    putI420 (row.yd + x) (UInt8.ofInt (yValue c.r c.g c.b)) ++
    (if y % 2 = 1 ∧ x % 2 = 1 then
      putI420 (row.ud + x / 2) (UInt8.ofInt (uValue c.r c.g c.b)) ++
      putI420 (row.vd + x / 2) (UInt8.ofInt (vValue c.r c.g c.b))
    else [])
  else [])

def v6Vector (build : Build) (stack : Rgb (Vec 8 UInt8)) (rg10 : Nat → UInt8) (width : Nat) (row : V6Row)
    (rgb i420 : Bool) (gains : Option Gains) (y x : Nat) : Option (List Store) :=
  match build with
  | .neon => v6Neon stack rg10 width row rgb i420 gains y x
  | .scalar | .sse2 => v6Sse2 rg10 width row rgb i420 gains y x

def aloeRg10Rgb8I420V6 (build : Build) (stack : Rgb (Vec 8 UInt8)) (width height stride : Nat) (rg10 : Nat → UInt8)
    (rgb i420 : Bool) (gains : Option Gains) : Option (List Store) :=
  let outW := width / 4
  let outH := height / 4
  if width < 8 ∨ height < 8 ∨ width % 8 ≠ 0 ∨ height % 8 ≠ 0 then some []
  else if !rgb && !i420 then some []
  else (loop 0 outH 1) |> concatM fun y => do
    let row := v6Row width height stride y
    let vector ← concatM (v6Vector build stack rg10 width row rgb i420 gains y) (vectorCols build outW)
    return vector ++
      (loop (8 * (vectorCols build outW).length) outW 1).flatMap (v6Column rg10 row rgb i420 gains y)

end AlgaeBp.Rg10
