import AlgaeBp.Lib.Raster
import Mathlib.Tactic.Push
/-!
# Bilinear pictures of a Bayer mosaic

What the converters are for. A sensor with an RGGB colour filter samples one
colour at each pixel; the other two are means of the samples next to it, where
the rim of the picture is repeated outwards. `rendered` is the picture that
comes of it, for a given way to make a level of 8 bits from a mean of 10 bits.
-/

namespace AlgaeBp.Bayer

open Raster

@[ext]
structure Rgb (α : Type) where
  r : α
  g : α
  b : α
  deriving DecidableEq, Repr

def Rgb.map {α β : Type} (f : α → β) (c : Rgb α) : Rgb β := ⟨f c.r, f c.g, f c.b⟩

def Rgb.channel {α : Type} (c : Rgb α) : Nat → α
  | 0 => c.r
  | 1 => c.g
  | _ => c.b

/-! ## BT.601 -/

def clamp (v : Int) : UInt8 := if v < 0 then 0 else if 255 < v then 255 else UInt8.ofInt v

def bt601Y (c : Rgb Nat) : UInt8 := clamp ((66 * c.r + 129 * c.g + 25 * c.b + 128) / 256 + 16)

def bt601U (c : Rgb Nat) : UInt8 := clamp ((-38 * c.r - 74 * c.g + 112 * c.b + 128) / 256 + 128)

def bt601V (c : Rgb Nat) : UInt8 := clamp ((112 * c.r - 94 * c.g - 18 * c.b + 128) / 256 + 128)

/-- Levels of up to 256 need no clamping. -/
theorem bt601Y_eq {c : Rgb Nat} (h : c.r ≤ 256 ∧ c.g ≤ 256 ∧ c.b ≤ 256) :
    bt601Y c = UInt8.ofNat ((66 * c.r + 129 * c.g + 25 * c.b + 128) / 256 + 16) := by
  have hcast : ((66 * c.r + 129 * c.g + 25 * c.b + 128) / 256 + 16 : Int) =
      (((66 * c.r + 129 * c.g + 25 * c.b + 128) / 256 + 16 : Nat) : Int) := by push_cast; rfl
  rw [bt601Y, clamp, hcast, if_neg (by omega), if_neg (by omega), UInt8.ofInt]
  congr 1
  omega

/-! ## The mosaic -/

structure Mosaic where
  width : Nat
  height : Nat
  sample : Nat → Nat → Nat

variable (m : Mosaic)

/-- The next column, or the last one. -/
def Mosaic.right (x : Nat) : Nat := min (x + 1) (m.width - 1)

/-- The next row, or the last one. -/
def Mosaic.below (y : Nat) : Nat := min (y + 1) (m.height - 1)

/-- The mean of the samples to the left and to the right. -/
def Mosaic.across (x y : Nat) : Nat := (m.sample (x - 1) y + m.sample (m.right x) y) / 2

/-- The mean of the samples above and below. -/
def Mosaic.upright (x y : Nat) : Nat := (m.sample x (y - 1) + m.sample x (m.below y)) / 2

def Mosaic.cross (x y : Nat) : Nat :=
  (m.sample (x - 1) y + m.sample (m.right x) y + m.sample x (y - 1) + m.sample x (m.below y)) / 4

def Mosaic.diagonal (x y : Nat) : Nat :=
  (m.sample (x - 1) (y - 1) + m.sample (m.right x) (y - 1) + m.sample (x - 1) (m.below y) +
    m.sample (m.right x) (m.below y)) / 4

/-- The colour at a pixel. -/
def Mosaic.colour (x y : Nat) : Rgb Nat :=
  if y % 2 = 0 then
    if x % 2 = 0 then ⟨m.sample x y, m.cross x y, m.diagonal x y⟩ else ⟨m.across x y, m.sample x y, m.upright x y⟩
  else
    if x % 2 = 0 then ⟨m.upright x y, m.sample x y, m.across x y⟩ else ⟨m.diagonal x y, m.cross x y, m.sample x y⟩

/-- The mean level of a block of two by two. -/
def blockMean (level : Nat → Nat → Rgb Nat) (x y : Nat) : Rgb Nat :=
  let mean := fun f : Rgb Nat → Nat =>
    (f (level x y) + f (level (x + 1) y) + f (level x (y + 1)) + f (level (x + 1) (y + 1))) / 4
  ⟨mean Rgb.r, mean Rgb.g, mean Rgb.b⟩

/-- The picture with the given levels. -/
def painted (level : Nat → Nat → Rgb Nat) : Cell → UInt8
  | .rgb x y k => UInt8.ofNat ((level x y).channel k)
  | .luma x y => bt601Y (level x y)
  | .u x y => bt601U (blockMean level (2 * x) (2 * y))
  | .v x y => bt601V (blockMean level (2 * x) (2 * y))

def Mosaic.levels (scale : Nat → Nat) (x y : Nat) : Rgb Nat := (m.colour x y).map scale

def Mosaic.rendered (scale : Nat → Nat) : Cell → UInt8 := painted (m.levels scale)

variable {m : Mosaic} {x y : Nat}

/-- The four colours of a block come from the rows and columns around it. -/
theorem Mosaic.colour_block (hx : 2 * x + 1 < m.width) (hy : 2 * y + 1 < m.height) :
    m.colour (2 * x) (2 * y) = ⟨m.sample (2 * x) (2 * y),
      (m.sample (2 * x - 1) (2 * y) + m.sample (2 * x + 1) (2 * y) + m.sample (2 * x) (2 * y - 1) +
        m.sample (2 * x) (2 * y + 1)) / 4,
      (m.sample (2 * x - 1) (2 * y - 1) + m.sample (2 * x + 1) (2 * y - 1) + m.sample (2 * x - 1) (2 * y + 1) +
        m.sample (2 * x + 1) (2 * y + 1)) / 4⟩ ∧
    m.colour (2 * x + 1) (2 * y) = ⟨(m.sample (2 * x) (2 * y) + m.sample (m.right (2 * x + 1)) (2 * y)) / 2,
      m.sample (2 * x + 1) (2 * y), (m.sample (2 * x + 1) (2 * y - 1) + m.sample (2 * x + 1) (2 * y + 1)) / 2⟩ ∧
    m.colour (2 * x) (2 * y + 1) = ⟨(m.sample (2 * x) (2 * y) + m.sample (2 * x) (m.below (2 * y + 1))) / 2,
      m.sample (2 * x) (2 * y + 1), (m.sample (2 * x - 1) (2 * y + 1) + m.sample (2 * x + 1) (2 * y + 1)) / 2⟩ ∧
    m.colour (2 * x + 1) (2 * y + 1) =
      ⟨(m.sample (2 * x) (2 * y) + m.sample (m.right (2 * x + 1)) (2 * y) + m.sample (2 * x) (m.below (2 * y + 1)) +
          m.sample (m.right (2 * x + 1)) (m.below (2 * y + 1))) / 4,
        (m.sample (2 * x) (2 * y + 1) + m.sample (m.right (2 * x + 1)) (2 * y + 1) + m.sample (2 * x + 1) (2 * y) +
          m.sample (2 * x + 1) (m.below (2 * y + 1))) / 4,
        m.sample (2 * x + 1) (2 * y + 1)⟩ := by
  have hright : m.right (2 * x) = 2 * x + 1 := by
    unfold Mosaic.right
    omega
  have hbelow : m.below (2 * y) = 2 * y + 1 := by
    unfold Mosaic.below
    omega
  have hx0 : 2 * x % 2 = 0 := by omega
  have hx1 : (2 * x + 1) % 2 ≠ 0 := by omega
  have hy0 : 2 * y % 2 = 0 := by omega
  have hy1 : (2 * y + 1) % 2 ≠ 0 := by omega
  simp only [Mosaic.colour, Mosaic.across, Mosaic.upright, Mosaic.cross, Mosaic.diagonal, hright, hbelow, if_pos hx0,
    if_pos hy0, if_neg hx1, if_neg hy1, Nat.add_sub_cancel, and_self]

/-! ## Bounds -/

theorem Mosaic.right_lt (hx : x < m.width) : m.right x < m.width := by
  unfold Mosaic.right
  omega

theorem Mosaic.below_lt (hy : y < m.height) : m.below y < m.height := by
  unfold Mosaic.below
  omega

/-- A colour is no brighter than the brightest sample. -/
theorem Mosaic.colour_le {n : Nat} (hn : ∀ x y, x < m.width → y < m.height → m.sample x y ≤ n) (hx : x < m.width)
    (hy : y < m.height) : (m.colour x y).r ≤ n ∧ (m.colour x y).g ≤ n ∧ (m.colour x y).b ≤ n := by
  have hr := m.right_lt hx
  have hb := m.below_lt hy
  have hl : x - 1 < m.width := by omega
  have hu : y - 1 < m.height := by omega
  have hs := hn x y hx hy
  have hacross : m.across x y ≤ n := by
    have h₁ := hn _ _ hl hy
    have h₂ := hn _ _ hr hy
    unfold Mosaic.across
    omega
  have hupright : m.upright x y ≤ n := by
    have h₁ := hn _ _ hx hu
    have h₂ := hn _ _ hx hb
    unfold Mosaic.upright
    omega
  have hcross : m.cross x y ≤ n := by
    have h₁ := hn _ _ hl hy
    have h₂ := hn _ _ hr hy
    have h₃ := hn _ _ hx hu
    have h₄ := hn _ _ hx hb
    unfold Mosaic.cross
    omega
  have hdiagonal : m.diagonal x y ≤ n := by
    have h₁ := hn _ _ hl hu
    have h₂ := hn _ _ hr hu
    have h₃ := hn _ _ hl hb
    have h₄ := hn _ _ hr hb
    unfold Mosaic.diagonal
    omega
  unfold Mosaic.colour
  split
  · split
    · exact ⟨hs, hcross, hdiagonal⟩
    · exact ⟨hacross, hs, hupright⟩
  · split
    · exact ⟨hupright, hs, hacross⟩
    · exact ⟨hdiagonal, hcross, hs⟩

/-- Every sample is a colour of its own pixel. -/
theorem Mosaic.colour_sample (x y : Nat) : ∃ k < 3, (m.colour x y).channel k = m.sample x y := by
  unfold Mosaic.colour
  split
  · split
    · exact ⟨0, by omega, rfl⟩
    · exact ⟨1, by omega, rfl⟩
  · split
    · exact ⟨1, by omega, rfl⟩
    · exact ⟨2, by omega, rfl⟩

/-! ## Frames -/

/-- A frame of 10-bit samples in 16-bit words, of even size. -/
structure Frame where
  width : Nat
  height : Nat
  raw : Nat → UInt16
  width_pos : 0 < width
  height_pos : 0 < height
  width_even : width % 2 = 0
  height_even : height % 2 = 0
  ten : ∀ i < width * height, (raw i).toNat ≤ 1023

variable (f : Frame)

def Frame.mosaic : Mosaic := ⟨f.width, f.height, fun x y => (f.raw (y * f.width + x)).toNat⟩

def Frame.canvas (i420 rgb : Bool) : Canvas := ⟨f.width, f.height, i420, rgb⟩

variable {f : Frame} {x y : Nat}

theorem Frame.sample_le (hx : x < f.width) (hy : y < f.height) : f.mosaic.sample x y ≤ 1023 :=
  f.ten _ (rowMajor_lt hx hy)

theorem Frame.colour_le (hx : x < f.width) (hy : y < f.height) :
    (f.mosaic.colour x y).r ≤ 1023 ∧ (f.mosaic.colour x y).g ≤ 1023 ∧ (f.mosaic.colour x y).b ≤ 1023 :=
  Mosaic.colour_le (m := f.mosaic) (fun _ _ => Frame.sample_le) hx hy

end AlgaeBp.Bayer
