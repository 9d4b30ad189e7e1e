import AlgaeBp.Bayer.Theorems
/-!
# The original Bayer converter and its buffers

`aloe_rggb10_to_rgb888_i420` once more, with the reads of `raw` made visible:
the frame answers `none` outside its `width * height` words. Whatever the size,
no read leaves the frame. The writes stay in the buffers just when width and
height are even: the planes are sized with halves rounded down, and the loops
for U and V begin a block in the last column and row of an odd size.
-/

namespace AlgaeBp.Bayer

open Raster

variable {width height : Nat} {raw : Nat → UInt16}

/-! ## The code, with its reads -/

def getPixelIn (width height : Nat) (raw : Int → Option UInt16) (x y : Int) : Option UInt16 := do
  let x := if x < 0 then 0 else x
  let x := if x ≥ width then (width : Int) - 1 else x
  let y := if y < 0 then 0 else y
  let y := if y ≥ height then (height : Int) - 1 else y
  let pixel ← raw (y * width + x)
  return extractRaw10 pixel

def interpolateIn (width height : Nat) (raw : Int → Option UInt16) (x y : Int) : Option (Rgb UInt16) := do
  let get := fun x y => getPixelIn width height raw x y
  let mean2 := fun x₀ y₀ x₁ y₁ => do
    let p₀ ← get x₀ y₀
    let p₁ ← get x₁ y₁
    return UInt16.ofNat ((p₀.toNat + p₁.toNat) / 2)
  let mean4 := fun x₀ y₀ x₁ y₁ x₂ y₂ x₃ y₃ => do
    let p₀ ← get x₀ y₀
    let p₁ ← get x₁ y₁
    let p₂ ← get x₂ y₂
    let p₃ ← get x₃ y₃
    return UInt16.ofNat ((p₀.toNat + p₁.toNat + p₂.toNat + p₃.toNat) / 4)
  let own := get x y
  let cross := mean4 (x - 1) y (x + 1) y x (y - 1) x (y + 1)
  let diagonal := mean4 (x - 1) (y - 1) (x + 1) (y - 1) (x - 1) (y + 1) (x + 1) (y + 1)
  let across := mean2 (x - 1) y (x + 1) y
  let upright := mean2 x (y - 1) x (y + 1)
  if y % 2 = 0 then
    if x % 2 = 0 then return ⟨← own, ← cross, ← diagonal⟩ else return ⟨← across, ← own, ← upright⟩
  else
    if x % 2 = 0 then return ⟨← upright, ← own, ← across⟩ else return ⟨← diagonal, ← cross, ← own⟩

def pixelBodyIn (width height : Nat) (raw : Int → Option UInt16) (i420 rgb : Bool) (y x : Nat) : Option (List Store) := do
  let c ← interpolateIn width height raw x y
  let r8 := raw10ToU8 c.r
  let g8 := raw10ToU8 c.g
  let b8 := raw10ToU8 c.b
  return (if rgb then putRgb ((y * width + x) * 3) r8 g8 b8 else []) ++
    (if i420 then putI420 (y * width + x) (clampU8 (yValue r8.toNat g8.toNat b8.toNat)) else [])

/-- The offset of the chroma of a block in the planes of U and V. -/
def uvOffset (width y x : Nat) : Nat := y / 2 * (width / 2) + x / 2

def chromaBodyIn (width height : Nat) (raw : Int → Option UInt16) (y x : Nat) : Option (List Store) := do
  let uPlane := width * height
  let vPlane := uPlane + width / 2 * (height / 2)
  let colour := fun dy dx : Nat => interpolateIn width height raw (x + dx) (y + dy)
  let c₀ ← colour 0 0
  let c₁ ← colour 0 1
  let c₂ ← colour 1 0
  let c₃ ← colour 1 1
  let sum := fun f : Rgb UInt16 → UInt16 =>
    (raw10ToU8 (f c₀)).toNat + (raw10ToU8 (f c₁)).toNat + (raw10ToU8 (f c₂)).toNat + (raw10ToU8 (f c₃)).toNat
  let r8 := sum Rgb.r / 4
  let g8 := sum Rgb.g / 4
  let b8 := sum Rgb.b / 4
  return putI420 (uPlane + uvOffset width y x) (clampU8 (uValue r8 g8 b8)) ++
    putI420 (vPlane + uvOffset width y x) (clampU8 (vValue r8 g8 b8))

def aloeRggb10ToRgb888I420In (width height : Nat) (raw : Int → Option UInt16) (i420 rgb : Bool) : Option (List Store) := do
  let pixels ← (loop 0 height 1) |> concatM fun y =>
    (loop 0 width 1) |> concatM fun x => pixelBodyIn width height raw i420 rgb y x
  let chroma ← if i420 then
      (loop 0 height 2) |> concatM fun y => (loop 0 width 2) |> concatM fun x => chromaBodyIn width height raw y x
    else some []
  return pixels ++ chroma

/-! ## Reads -/

/-- A frame of `width * height` words. -/
def frameMemory (width height : Nat) (raw : Nat → UInt16) (i : Int) : Option UInt16 :=
  if 0 ≤ i ∧ i < width * height then some (raw i.toNat) else none

/-- Wherever `get_pixel` is asked for, it reads in the frame. -/
theorem getPixelIn_eq (hw : 0 < width) (hh : 0 < height) (x y : Int) :
    getPixelIn width height (frameMemory width height raw) x y = some (getPixel width height raw x y) := by
  have hin : ∀ a b : Int, 0 ≤ a → a < width → 0 ≤ b → b < height →
      frameMemory width height raw (b * width + a) = some (raw (b * width + a).toNat) := by
    intro a b ha haw hb hbh
    obtain ⟨a, rfl⟩ := Int.eq_ofNat_of_zero_le ha
    obtain ⟨b, rfl⟩ := Int.eq_ofNat_of_zero_le hb
    have hlt := rowMajor_lt (Int.ofNat_lt.1 haw) (Int.ofNat_lt.1 hbh)
    apply if_pos
    constructor
    · omega
    · exact_mod_cast hlt
  simp only [getPixelIn, getPixel]
  rw [hin _ _ (by split <;> split <;> omega) (by split <;> split <;> omega) (by split <;> split <;> omega)
    (by split <;> split <;> omega)]
  rfl

theorem interpolateIn_eq (hw : 0 < width) (hh : 0 < height) (x y : Int) :
    interpolateIn width height (frameMemory width height raw) x y = some (interpolate width height raw x y) := by
  simp only [interpolateIn, interpolate, getPixelIn_eq hw hh]
  split
  · split <;> rfl
  · split <;> rfl

theorem pixelBodyIn_eq (hw : 0 < width) (hh : 0 < height) (i420 rgb : Bool) (y x : Nat) :
    pixelBodyIn width height (frameMemory width height raw) i420 rgb y x =
      some (pixelBody width height raw i420 rgb y x) := by
  rw [pixelBodyIn, interpolateIn_eq hw hh]
  rfl

theorem chromaBodyIn_eq (hw : 0 < width) (hh : 0 < height) (y x : Nat) :
    chromaBodyIn width height (frameMemory width height raw) y x = some (chromaBody width height raw y x) := by
  simp only [chromaBodyIn, interpolateIn_eq hw hh]
  rfl

/-- No read leaves the frame, of whatever size. -/
theorem original_reads (hw : 0 < width) (hh : 0 < height) (i420 rgb : Bool) :
    aloeRggb10ToRgb888I420In width height (frameMemory width height raw) i420 rgb =
      some (aloeRggb10ToRgb888I420 width height raw i420 rgb) := by
  have hpixels := concatM_eq (l := loop 0 height 1) fun y _ =>
    concatM_eq (l := loop 0 width 1) fun x _ =>
      (pixelBodyIn_eq hw hh i420 rgb y x : pixelBodyIn width height (frameMemory width height raw) i420 rgb y x = _)
  have hchroma := concatM_eq (l := loop 0 height 2) fun y _ =>
    concatM_eq (l := loop 0 width 2) fun x _ =>
      (chromaBodyIn_eq hw hh y x : chromaBodyIn width height (frameMemory width height raw) y x = _)
  rw [aloeRggb10ToRgb888I420In, hpixels, hchroma]
  cases i420 <;> rfl

/-! ## Writes -/

/-- Only the lower ten bits of a word count. -/
theorem original_masked (width height : Nat) (raw : Nat → UInt16) (i420 rgb : Bool) :
    aloeRggb10ToRgb888I420 width height (fun i => extractRaw10 (raw i)) i420 rgb =
      aloeRggb10ToRgb888I420 width height raw i420 rgb := by
  have hget : getPixel width height (fun i => extractRaw10 (raw i)) = getPixel width height raw := by
    funext x y
    simp only [getPixel, extractRaw10, UInt16.and_assoc, UInt16.and_self]
  simp only [aloeRggb10ToRgb888I420, pixelBody, chromaBody, chromaColour, interpolate, hget]

theorem extractRaw10_le (v : UInt16) : (extractRaw10 v).toNat ≤ 1023 := by
  have hmod := Nat.and_two_pow_sub_one_eq_mod v.toNat 10
  rw [extractRaw10, UInt16.toNat_and]
  exact hmod.trans_le (Nat.le_of_lt_succ (Nat.mod_lt _ (by decide)))

/-- A frame of any words and of even size. -/
def maskedFrame (raw : Nat → UInt16) (hw : 0 < width) (hh : 0 < height) (hwe : width % 2 = 0) (hhe : height % 2 = 0) :
    Frame where
  width := width
  height := height
  raw i := extractRaw10 (raw i)
  width_pos := hw
  height_pos := hh
  width_even := hwe
  height_even := hhe
  ten i _ := extractRaw10_le (raw i)

/-- The sizes of the buffers for a picture, both given. -/
def bufferSize (width height : Nat) : Out → Nat
  | .i420 => width * height + 2 * (width / 2) * (height / 2)
  | .rgb => width * height * 3

/-- What keeping inside the buffers means: every read is in the frame, every write in its buffer, every byte is written,
and the U of a block, which is stored first, stands before the plane of V. -/
def Contained (width height : Nat) (raw : Nat → UInt16) : Prop :=
  ∃ log, aloeRggb10ToRgb888I420In width height (frameMemory width height raw) true true = some log ∧
    (∀ p ∈ log, p.1.2 < bufferSize width height p.1.1) ∧
    (∀ o, ∀ k < bufferSize width height o, ∃ p ∈ log, p.1 = (o, k)) ∧
    ∀ y ∈ loop 0 height 2, ∀ x ∈ loop 0 width 2, ∀ p ∈ (chromaBody width height raw y x).head?,
      p.1.2 < width * height + width / 2 * (height / 2)

theorem bufferSize_eq (width height : Nat) (o : Out) :
    (Canvas.mk width height true true).size o = bufferSize width height o := by
  cases o with
  | rgb => rfl
  | i420 => simp only [Canvas.size, bufferSize, if_true, Nat.mul_assoc]

theorem head_chromaBody (width height : Nat) (raw : Nat → UInt16) (y x : Nat) :
    ∃ v, (chromaBody width height raw y x).head? = some ((.i420, width * height + uvOffset width y x), v) := ⟨_, rfl⟩

/-- With an even size a block lies in the planes. -/
theorem uvOffset_lt {y x : Nat} (hwe : width % 2 = 0) (hhe : height % 2 = 0) (hy : y < height) (hx : x < width) :
    uvOffset width y x < width / 2 * (height / 2) := rowMajor_lt (by omega) (by omega)

/-- The last block of an odd size does not. -/
theorem uvOffset_ge (hodd : width % 2 = 1 ∨ height % 2 = 1) :
    width / 2 * (height / 2) ≤ uvOffset width (2 * ((height - 1) / 2)) (2 * ((width - 1) / 2)) := by
  rw [uvOffset, Nat.mul_div_cancel_left _ Nat.two_pos, Nat.mul_div_cancel_left _ Nat.two_pos]
  rcases hodd with hw | hh
  · have hx : (width - 1) / 2 = width / 2 := by omega
    calc width / 2 * (height / 2) ≤ width / 2 * ((height - 1) / 2 + 1) := Nat.mul_le_mul_left _ (by omega)
      _ = (height - 1) / 2 * (width / 2) + (width - 1) / 2 := by
        rw [hx]
        ring
  · have hy : (height - 1) / 2 = height / 2 := by omega
    rw [hy, Nat.mul_comm]
    exact Nat.le_add_right _ _

theorem not_contained (hw : 0 < width) (hh : 0 < height) (hodd : width % 2 = 1 ∨ height % 2 = 1) :
    ¬ Contained width height raw := by
  rintro ⟨log, -, -, -, hu⟩
  have hy : 2 * ((height - 1) / 2) ∈ loop 0 height 2 := (mem_loop Nat.two_pos).2 ⟨by omega, (height - 1) / 2, by omega⟩
  have hx : 2 * ((width - 1) / 2) ∈ loop 0 width 2 := (mem_loop Nat.two_pos).2 ⟨by omega, (width - 1) / 2, by omega⟩
  obtain ⟨v, hv⟩ := head_chromaBody width height raw (2 * ((height - 1) / 2)) (2 * ((width - 1) / 2))
  have hlt := hu _ hy _ hx _ hv
  have hge := uvOffset_ge hodd
  simp only at hlt
  omega

theorem contained (hw : 0 < width) (hh : 0 < height) (hwe : width % 2 = 0) (hhe : height % 2 = 0) :
    Contained width height raw := by
  have hdraws := original_draws (maskedFrame raw hw hh hwe hhe) true true
  have hmask := original_masked width height raw true true
  simp only [maskedFrame, Frame.canvas, hmask] at hdraws
  refine ⟨_, original_reads hw hh true true, ?_, ?_, ?_⟩
  · intro p hp
    obtain ⟨c, hc, -, hpc⟩ := Puts.stores hdraws p hp
    rw [hpc, ← bufferSize_eq]
    exact Cell.at_lt hc
  · intro o k hk
    rw [← bufferSize_eq] at hk
    obtain ⟨v, hv⟩ := Option.isSome_iff_exists.1 ((hdraws.isSome_iff o k).2 hk)
    exact mem_of_after hv
  · intro y hy x hx p hp
    obtain ⟨v, hv⟩ := head_chromaBody width height raw y x
    obtain rfl := Option.some.inj (hv.symm.trans hp)
    have hlt := uvOffset_lt hwe hhe ((mem_loop Nat.two_pos).1 hy).1 ((mem_loop Nat.two_pos).1 hx).1
    simp only
    omega

/-- **When the original Bayer converter stays inside its buffers.** -/
theorem contained_iff (width height : Nat) (raw : Nat → UInt16) (hw : 0 < width) (hh : 0 < height) :
    Contained width height raw ↔ width % 2 = 0 ∧ height % 2 = 0 := by
  constructor
  · intro h
    by_contra hne
    exact not_contained hw hh (by omega) h
  · rintro ⟨hwe, hhe⟩
    exact contained hw hh hwe hhe

theorem contained_iff_two : Contained 2 2 (fun _ => 0) ↔ 2 % 2 = 0 ∧ 2 % 2 = 0 :=
  contained_iff 2 2 (fun _ => 0) (by decide) (by decide)

/-- Three columns: the U of the last block is stored where V begins, its V behind the buffer. -/
theorem three_columns_escape : ¬ Contained 3 2 (fun _ => 0) := not_contained (by decide) (by decide) (.inl (by decide))

end AlgaeBp.Bayer
