import AlgaeBp.Bmp.Format
import Mathlib.Data.Nat.ModEq
/-!
# Drawing a BMP file

`bmp_open` and `lfb_draw_bmp` of `tester_fb1.c`. A file is the list of its
bytes, and a pointer into it is an offset modulo 2^64; a `memcpy` is a `Move`
from an offset of the file to an offset of the framebuffer. `none` is a header
read beyond the end of the file or an `int` overflow.

`bmp_open` finds the pixels behind the info header and never reads `bfOffBits`;
`draw_bmp` in the same source file seeks to `bfOffBits`. `drawsRows_iff` says
when the right rows are drawn nevertheless.
-/

namespace AlgaeBp.Bmp

open Raster

/-! ## The code -/

def BMP_TYPE_BM : UInt16 := 0x4d42
def BMP_BI_RGB : UInt32 := 0
def BMP_BI_BITFIELDS : UInt32 := 3

/-- The screen infos of the driver, as far as they are used. -/
structure Lfb where
  smemLen : UInt32
  xres : UInt32
  yres : UInt32
  bitsPerPixel : UInt32
  deriving DecidableEq, Repr

/-- `lfb_open`, in the types of the driver. -/
def Lfb.stride (lfb : Lfb) : Nat := ((lfb.bitsPerPixel + 7) / 8 * lfb.xres).toNat

def Lfb.fbmemSz (lfb : Lfb) : Nat := lfb.smemLen.toNat

structure OpenBmp where
  fhdr : FileHeader
  bhdr : InfoHeader
  stride : Nat
  bdata : Nat
  deriving DecidableEq, Repr

/-- An `int` result that must not be negative. -/
def int (n : Nat) : Option Nat := if n < 2 ^ 31 then some n else none

/-- `abs`, which overflows for `INT_MIN`. -/
def abs (n : Int32) : Option Nat := int n.toInt.natAbs

/-- The test on the headers. -/
def Supported (fhdr : FileHeader) (bhdr : InfoHeader) : Prop :=
  fhdr.bfType = BMP_TYPE_BM ∧ (bhdr.biCompression = BMP_BI_RGB ∨ bhdr.biCompression = BMP_BI_BITFIELDS) ∧
    bhdr.biClrUsed = 0 ∧ bhdr.biBitCount = 32

instance (fhdr : FileHeader) (bhdr : InfoHeader) : Decidable (Supported fhdr bhdr) :=
  inferInstanceAs (Decidable (_ ∧ _))

/-- `bmp_open` on the bytes of the file; `some none` is its -1. -/
def bmpOpen (f : List UInt8) : Option (Option OpenBmp) := do
  let fhdr ← FileHeader.ofBytes f
  let bhdr ← InfoHeader.ofBytes (f.drop fileHeaderSize)
  if Supported fhdr bhdr then
    let width ← abs bhdr.biWidth
    let bits ← int (width * bhdr.biBitCount.toNat)
    let rounded ← int (bits + 31)
    -- `& ~31` clears the last five bits
    return some { fhdr, bhdr, stride := (rounded / 32 * 32) >>> 3, bdata := fileHeaderSize + bhdr.biSize.toNat }
  else
    return none

/-- A `memcpy`. -/
structure Move where
  dst : Nat
  src : Nat
  size : Nat
  deriving DecidableEq, Repr

/-- The turns of the loop, from the values of `lfb_row` and `bmp_row` on. -/
def drawRows (rowSz lfbStride bmpStride : Nat) : Nat → Nat → Nat → List Move
  | 0, _, _ => []
  | turns + 1, lfbRow, bmpRow =>
    { dst := lfbRow, src := bmpRow, size := rowSz } ::
      drawRows rowSz lfbStride bmpStride turns (lfbRow + lfbStride) ((bmpRow + bmpStride) % 2 ^ 64)

/-- `lfb_draw_bmp`, with the value of `opt_bmp_height`. -/
def lfbDrawBmp (lfb : Lfb) (optBmpHeight : Int) (bmp : OpenBmp) : Option (List Move) := do
  let rowSz := min bmp.stride lfb.stride
  let height ← abs bmp.bhdr.biHeight
  let bmpHeight := if 0 < optBmpHeight then min height optBmpHeight.toNat else height
  let biHeight := bmp.bhdr.biHeight.toInt
  let bmpRow := if 0 < biHeight then (bmp.bdata + bmp.stride * biHeight.toNat - bmp.stride) % 2 ^ 64 else bmp.bdata
  let bmpStride := if 0 < biHeight then (2 ^ 64 - bmp.stride) % 2 ^ 64 else bmp.stride
  return drawRows rowSz lfb.stride bmpStride (min bmpHeight lfb.yres.toNat) 0 bmpRow

/-! ## The rows to draw -/

/-- What a `memcpy` does byte by byte: the offset written and the offset read. -/
def Move.bytes (m : Move) : List (Nat × Nat) := (List.range m.size).map fun k => (m.dst + k, m.src + k)

variable (ih : InfoHeader) (lfb : Lfb) (optBmpHeight : Int)

def InfoHeader.height : Nat := ih.biHeight.toInt.natAbs

/-- The bytes of a row of 32 bits a pixel. -/
def InfoHeader.stride : Nat := rowBytes 32 ih.biWidth.toInt.natAbs

def drawnRows : Nat := min (if 0 < optBmpHeight then min ih.height optBmpHeight.toNat else ih.height) lfb.yres.toNat

def drawnBytes : Nat := min ih.stride lfb.stride

/-- Row `i` of the screen shows row `i` from the top, with the pixels from `off` on. -/
def rowMove (off i : Nat) : Move where
  dst := i * lfb.stride
  src := off + storedRow ih.biHeight.toInt i * ih.stride
  size := drawnBytes ih lfb

def rowMoves (off : Nat) : List Move := (List.range (drawnRows ih lfb optBmpHeight)).map (rowMove ih lfb off)

/-- The rows are drawn from where `bfOffBits` says, inside the pixel data and inside the framebuffer. -/
def DrawsRows (f : List UInt8) (fh : FileHeader) : Prop :=
  ∃ bmp moves, bmpOpen f = some (some bmp) ∧ lfbDrawBmp lfb optBmpHeight bmp = some moves ∧
    moves.flatMap Move.bytes = (rowMoves ih lfb optBmpHeight fh.bfOffBits.toNat).flatMap Move.bytes ∧
    (∀ p ∈ moves.flatMap Move.bytes,
      fh.bfOffBits.toNat ≤ p.2 ∧ p.2 < fh.bfOffBits.toNat + ih.height * ih.stride) ∧
    ∀ p ∈ moves.flatMap Move.bytes, p.1 < lfb.fbmemSz

/-- A file that passes the test and holds the pixel data its headers announce. -/
structure Consistent (f : List UInt8) (fh : FileHeader) (ih : InfoHeader) : Prop where
  file : FileHeader.ofBytes f = some fh
  info : InfoHeader.ofBytes (f.drop fileHeaderSize) = some ih
  supported : Supported fh ih
  pixels : fh.bfOffBits.toNat + ih.height * ih.stride ≤ f.length

/-- Some byte is to be drawn. -/
def Draws : Prop := 0 < drawnRows ih lfb optBmpHeight ∧ 0 < drawnBytes ih lfb

instance : Decidable (Draws ih lfb optBmpHeight) := inferInstanceAs (Decidable (_ ∧ _))

/-- The sizes fit in an `int`; and if anything is drawn, then the pixels follow the info header at once and the last
row lies in the framebuffer. -/
def Drawable (fh : FileHeader) : Prop :=
  ih.biWidth.toInt.natAbs < 2 ^ 26 ∧ ih.biHeight.toInt ≠ -2 ^ 31 ∧
    (Draws ih lfb optBmpHeight → fh.bfOffBits.toNat = fileHeaderSize + ih.biSize.toNat ∧
      (drawnRows ih lfb optBmpHeight - 1) * lfb.stride + drawnBytes ih lfb ≤ lfb.fbmemSz)

variable {ih : InfoHeader} {lfb : Lfb} {optBmpHeight : Int} {f : List UInt8} {fh : FileHeader}

/-! ## Opening -/

theorem abs_eq_some {n : Int32} {a : Nat} : abs n = some a ↔ n.toInt ≠ -2 ^ 31 ∧ a = n.toInt.natAbs := by
  have hlow := n.le_toInt
  have hhigh := n.toInt_lt
  unfold abs int
  split <;> simp only [Option.some.injEq, reduceCtorEq, false_iff, not_and] <;> omega

theorem stride_eq : ih.stride = 4 * ih.biWidth.toInt.natAbs := by
  unfold InfoHeader.stride rowBytes
  omega

/-- The file is opened unless the bits of a row overflow. -/
theorem bmpOpen_eq (h : Consistent f fh ih) :
    bmpOpen f =
      if ih.biWidth.toInt.natAbs < 2 ^ 26 then
        some (some { fhdr := fh, bhdr := ih, stride := ih.stride, bdata := fileHeaderSize + ih.biSize.toNat })
      else none := by
  have hbits : ih.biBitCount.toNat = 32 := congrArg UInt16.toNat h.supported.2.2.2
  simp only [bmpOpen, h.file, h.info, if_pos h.supported, Option.bind_eq_bind, Option.bind_some, hbits, abs]
  by_cases hfits : ih.biWidth.toInt.natAbs < 2 ^ 26
  · have hshift : ((ih.biWidth.toInt.natAbs * 32 + 31) / 32 * 32) >>> 3 = ih.stride := by
      rw [Nat.shiftRight_eq_div_pow, stride_eq]
      omega
    rw [if_pos hfits, int, if_pos (by omega), Option.bind_some, int, if_pos (by omega), Option.bind_some, int,
      if_pos (by omega), Option.bind_some, hshift]
    rfl
  · rw [if_neg hfits]
    by_cases habs : ih.biWidth.toInt.natAbs < 2 ^ 31
    · rw [int, if_pos habs, Option.bind_some, int, if_neg (by omega)]
      rfl
    · rw [int, if_neg habs]
      rfl

/-! ## The loop -/

theorem drawRows_eq (rowSz lfbStride bmpStride turns lfbRow bmpRow : Nat) (h : bmpRow < 2 ^ 64) :
    drawRows rowSz lfbStride bmpStride turns lfbRow bmpRow =
      (List.range turns).map fun i =>
        { dst := lfbRow + i * lfbStride, src := (bmpRow + i * bmpStride) % 2 ^ 64, size := rowSz } := by
  induction turns generalizing lfbRow bmpRow with
  | zero => rfl
  | succ turns ih =>
    rw [drawRows, ih _ _ (Nat.mod_lt _ (by norm_num)), List.range_succ_eq_map, List.map_cons, List.map_map]
    congr 1
    · rw [Nat.zero_mul, Nat.zero_mul, Nat.add_zero, Nat.add_zero, Nat.mod_eq_of_lt h]
    · apply List.map_congr_left
      intro i _
      rw [Function.comp_apply, Move.mk.injEq, Nat.mod_add_mod, Nat.succ_mul, Nat.succ_mul]
      exact ⟨by omega, congrArg (· % 2 ^ 64) (by omega), rfl⟩

/-- Going back by a stride, as the addition of its negative. -/
theorem goes_back {base stride rows i : Nat} (hi : i < rows) (hstride : stride ≤ 2 ^ 64)
    (hfits : base + rows * stride < 2 ^ 64) :
    ((base + stride * rows - stride) % 2 ^ 64 + i * ((2 ^ 64 - stride) % 2 ^ 64)) % 2 ^ 64 =
      base + (rows - 1 - i) * stride := by
  have hlast : base + stride * rows - stride = base + (rows - 1 - i) * stride + i * stride := by
    obtain ⟨n, rfl⟩ : ∃ n, rows = i + n + 1 := ⟨rows - i - 1, by omega⟩
    rw [show i + n + 1 - 1 - i = n by omega, Nat.mul_comm stride, Nat.succ_mul, Nat.add_mul]
    omega
  have hwhole : i * stride + i * (2 ^ 64 - stride) = i * 2 ^ 64 := by
    rw [← Nat.mul_add, Nat.add_sub_cancel' hstride]
  have hlt : (rows - 1 - i) * stride ≤ rows * stride := Nat.mul_le_mul_right _ (by omega)
  have hmod : ∀ a b, (a % 2 ^ 64 + i * (b % 2 ^ 64)) % 2 ^ 64 = (a + i * b) % 2 ^ 64 := by
    intro a b
    exact (Nat.ModEq.add (Nat.mod_modEq a _) ((Nat.mod_modEq b _).mul_left i))
  rw [hmod, hlast, Nat.add_assoc, hwhole, Nat.add_mul_mod_self_right, Nat.mod_eq_of_lt (by omega)]

theorem height_lt (hheight : ih.biHeight.toInt ≠ -2 ^ 31) : ih.height < 2 ^ 31 := by
  have hlow := ih.biHeight.le_toInt
  have hhigh := ih.biHeight.toInt_lt
  unfold InfoHeader.height
  omega

/-- What is drawn from an open file. -/
theorem lfbDrawBmp_eq (hwidth : ih.biWidth.toInt.natAbs < 2 ^ 26) (hheight : ih.biHeight.toInt ≠ -2 ^ 31) :
    lfbDrawBmp lfb optBmpHeight
        { fhdr := fh, bhdr := ih, stride := ih.stride, bdata := fileHeaderSize + ih.biSize.toNat } =
      some (rowMoves ih lfb optBmpHeight (fileHeaderSize + ih.biSize.toNat)) := by
  have hstride : ih.stride < 2 ^ 28 := by
    rw [stride_eq]
    omega
  have hbase : fileHeaderSize + ih.biSize.toNat < 2 ^ 33 := by
    have hsize := ih.biSize.toNat_lt
    unfold fileHeaderSize
    omega
  have harea : ih.height * ih.stride ≤ 2 ^ 31 * 2 ^ 28 := Nat.mul_le_mul (height_lt hheight).le hstride.le
  simp only [lfbDrawBmp, abs_eq_some.2 ⟨hheight, rfl⟩, Option.bind_eq_bind, Option.bind_some, Option.pure_def]
  rw [drawRows_eq]
  · apply congrArg some
    apply List.map_congr_left
    intro i hi
    have hrow : i < ih.height := by
      have hlt := List.mem_range.1 hi
      unfold InfoHeader.height
      split at hlt <;> omega
    rw [rowMove, Move.mk.injEq]
    refine ⟨Nat.zero_add _, ?_, rfl⟩
    by_cases hup : 0 < ih.biHeight.toInt
    · have hnat : ih.biHeight.toInt.toNat = ih.height := by
        unfold InfoHeader.height
        omega
      rw [if_pos hup, if_pos hup, hnat, goes_back hrow (by omega) (by omega), storedRow, if_pos hup]
      rfl
    · have hle : i * ih.stride ≤ ih.height * ih.stride := Nat.mul_le_mul_right _ hrow.le
      rw [if_neg hup, if_neg hup, storedRow, if_neg hup, Nat.mod_eq_of_lt (by omega)]
  · split
    · exact Nat.mod_lt _ (by norm_num)
    · omega

/-! ## Where the rows are found -/

theorem mem_rowMoves_bytes {off : Nat} {p : Nat × Nat} :
    p ∈ (rowMoves ih lfb optBmpHeight off).flatMap Move.bytes ↔
      ∃ i k, i < drawnRows ih lfb optBmpHeight ∧ k < drawnBytes ih lfb ∧
        p = (i * lfb.stride + k, off + storedRow ih.biHeight.toInt i * ih.stride + k) := by
  simp only [rowMoves, List.mem_flatMap, List.mem_map, List.mem_range, Move.bytes]
  constructor
  · rintro ⟨_, ⟨i, hi, rfl⟩, k, hk, rfl⟩
    exact ⟨i, k, hi, hk, rfl⟩
  · rintro ⟨i, k, hi, hk, rfl⟩
    exact ⟨_, ⟨i, hi, rfl⟩, k, hk, rfl⟩

/-- The first byte that is drawn. -/
theorem head_rowMoves_bytes (hdraws : Draws ih lfb optBmpHeight) (off : Nat) :
    ((rowMoves ih lfb optBmpHeight off).flatMap Move.bytes).head? =
      some (0, off + storedRow ih.biHeight.toInt 0 * ih.stride) := by
  obtain ⟨rows, hrows⟩ := Nat.exists_eq_succ_of_ne_zero hdraws.1.ne'
  obtain ⟨bytes, hbytes⟩ := Nat.exists_eq_succ_of_ne_zero hdraws.2.ne'
  rw [rowMoves, hrows, List.range_succ_eq_map, List.map_cons, List.flatMap_cons, Move.bytes, rowMove, hbytes,
    List.range_succ_eq_map]
  simp

theorem rowMoves_bytes_of_not (hdraws : ¬ Draws ih lfb optBmpHeight) (off : Nat) :
    (rowMoves ih lfb optBmpHeight off).flatMap Move.bytes = [] := by
  apply List.eq_nil_iff_forall_not_mem.2
  intro p hp
  obtain ⟨i, k, hi, hk, -⟩ := mem_rowMoves_bytes.1 hp
  exact hdraws ⟨by omega, by omega⟩

/-- From two places the same is drawn if they are one or nothing is drawn. -/
theorem rowMoves_bytes_inj {off off' : Nat} :
    (rowMoves ih lfb optBmpHeight off).flatMap Move.bytes = (rowMoves ih lfb optBmpHeight off').flatMap Move.bytes ↔
      (Draws ih lfb optBmpHeight → off' = off) := by
  constructor
  · intro h hdraws
    have hhead := congrArg List.head? h
    rw [head_rowMoves_bytes hdraws, head_rowMoves_bytes hdraws, Option.some.injEq, Prod.mk.injEq] at hhead
    omega
  · intro h
    by_cases hdraws : Draws ih lfb optBmpHeight
    · rw [h hdraws]
    · rw [rowMoves_bytes_of_not hdraws, rowMoves_bytes_of_not hdraws]

theorem storedRow_lt {height : Int} {y : Nat} (hy : y < height.natAbs) : storedRow height y < height.natAbs := by
  unfold storedRow
  split <;> omega

/-- What is drawn from the right place is inside the pixel data. -/
theorem rowMoves_in_pixels {off : Nat} {p : Nat × Nat} (hp : p ∈ (rowMoves ih lfb optBmpHeight off).flatMap Move.bytes) :
    off ≤ p.2 ∧ p.2 < off + ih.height * ih.stride := by
  obtain ⟨i, k, hi, hk, rfl⟩ := mem_rowMoves_bytes.1 hp
  have hheight : i < ih.height := by
    unfold drawnRows at hi
    split at hi <;> omega
  have hstride : k < ih.stride := Nat.lt_of_lt_of_le hk (Nat.min_le_left _ _)
  have hlt := rowMajor_lt hstride (storedRow_lt hheight)
  rw [Nat.mul_comm ih.stride] at hlt
  have hdata : storedRow ih.biHeight.toInt i * ih.stride + k < ih.height * ih.stride := hlt
  exact ⟨by omega, by omega⟩

/-- The framebuffer holds what is drawn if it holds the last row. -/
theorem rowMoves_in_framebuffer {off : Nat} :
    (∀ p ∈ (rowMoves ih lfb optBmpHeight off).flatMap Move.bytes, p.1 < lfb.fbmemSz) ↔
      (Draws ih lfb optBmpHeight →
        (drawnRows ih lfb optBmpHeight - 1) * lfb.stride + drawnBytes ih lfb ≤ lfb.fbmemSz) := by
  constructor
  · intro h hdraws
    have hrows := hdraws.1
    have hbytes := hdraws.2
    have hlast := h _ (mem_rowMoves_bytes.2
      ⟨drawnRows ih lfb optBmpHeight - 1, drawnBytes ih lfb - 1, by omega, by omega, rfl⟩)
    have hlt : (drawnRows ih lfb optBmpHeight - 1) * lfb.stride + (drawnBytes ih lfb - 1) < lfb.fbmemSz := hlast
    omega
  · intro h p hp
    obtain ⟨i, k, hi, hk, rfl⟩ := mem_rowMoves_bytes.1 hp
    have hlast := h ⟨by omega, by omega⟩
    have hle : i * lfb.stride ≤ (drawnRows ih lfb optBmpHeight - 1) * lfb.stride := Nat.mul_le_mul_right _ (by omega)
    show i * lfb.stride + k < _
    omega

/-- Exactly when the rows of the picture are drawn. -/
theorem drawsRows_iff {f : List UInt8} {fh : FileHeader} {ih : InfoHeader} (hfile : Consistent f fh ih) (lfb : Lfb)
    (optBmpHeight : Int) : DrawsRows ih lfb optBmpHeight f fh ↔ Drawable ih lfb optBmpHeight fh := by
  rw [DrawsRows, bmpOpen_eq hfile, Drawable]
  constructor
  · rintro ⟨bmp, moves, hopen, hdraw, hrows, -, hframe⟩
    by_cases hwidth : ih.biWidth.toInt.natAbs < 2 ^ 26
    · rw [if_pos hwidth, Option.some.injEq, Option.some.injEq] at hopen
      subst hopen
      have hheight : ih.biHeight.toInt ≠ -2 ^ 31 := by
        intro hmin
        have hnone : abs ih.biHeight = none := by
          rw [abs, hmin]
          rfl
        simp only [lfbDrawBmp, hnone, Option.bind_eq_bind, Option.bind_none, reduceCtorEq] at hdraw
      rw [lfbDrawBmp_eq hwidth hheight, Option.some.injEq] at hdraw
      subst hdraw
      refine ⟨hwidth, hheight, ?_⟩
      intro hdraws
      exact ⟨rowMoves_bytes_inj.1 hrows hdraws, rowMoves_in_framebuffer.1 hframe hdraws⟩
    · rw [if_neg hwidth] at hopen
      cases hopen
  · rintro ⟨hwidth, hheight, hplace⟩
    rw [if_pos hwidth]
    refine ⟨_, _, rfl, lfbDrawBmp_eq hwidth hheight, ?_, ?_, ?_⟩
    · exact rowMoves_bytes_inj.2 fun hdraws => (hplace hdraws).1
    · rw [rowMoves_bytes_inj.2 fun hdraws => (hplace hdraws).1]
      intro p hp
      exact rowMoves_in_pixels hp
    · exact rowMoves_in_framebuffer.2 fun hdraws => (hplace hdraws).2

/-! ## A file with masks -/

/-- The headers of one pixel, with `gap` bytes between the info header and the pixel data. -/
def pixelFileHeader (gap : Nat) : FileHeader where
  bfType := BMP_TYPE_BM
  bfSize := UInt32.ofNat (fileHeaderSize + infoHeaderSize + gap + 4)
  bfReserved1 := 0
  bfReserved2 := 0
  bfOffBits := UInt32.ofNat (fileHeaderSize + infoHeaderSize + gap)

def pixelInfoHeader (biCompression : UInt32) : InfoHeader where
  biSize := UInt32.ofNat infoHeaderSize
  biWidth := 1
  biHeight := 1
  biPlanes := 1
  biBitCount := 32
  biCompression := biCompression
  biSizeImage := 4
  biXPelsPerMeter := 0
  biYPelsPerMeter := 0
  biClrUsed := 0
  biClrImportant := 0

def pixelFile (biCompression : UInt32) (gap : List UInt8) : List UInt8 :=
  (pixelFileHeader gap.length).bytes ++ ((pixelInfoHeader biCompression).bytes ++ (gap ++ [0x11, 0x22, 0x33, 0xff]))

/-- A screen of one pixel. -/
def pixelScreen : Lfb where
  smemLen := 4
  xres := 1
  yres := 1
  bitsPerPixel := 32

/-- The masks of red, green and blue that follow a header of 40 bytes. -/
def masks : List UInt8 := [0, 0, 0xff, 0, 0, 0xff, 0, 0, 0xff, 0, 0, 0]

theorem consistent_pixelFile {biCompression : UInt32} {gap : List UInt8}
    (hcompression : biCompression = BMP_BI_RGB ∨ biCompression = BMP_BI_BITFIELDS) (hgap : gap.length < 2 ^ 31) :
    Consistent (pixelFile biCompression gap) (pixelFileHeader gap.length) (pixelInfoHeader biCompression) where
  file := FileHeader.ofBytes_bytes _ _
  info := by
    rw [pixelFile, List.drop_left' (by simp)]
    exact InfoHeader.ofBytes_bytes _ _
  supported := ⟨rfl, hcompression, rfl, rfl⟩
  pixels := by
    have hoff : (pixelFileHeader gap.length).bfOffBits.toNat = fileHeaderSize + infoHeaderSize + gap.length :=
      UInt32.toNat_ofNat_of_lt' (by unfold fileHeaderSize infoHeaderSize UInt32.size; omega)
    have hpixels : (pixelInfoHeader biCompression).height * (pixelInfoHeader biCompression).stride = 4 := by
      rw [stride_eq]
      rfl
    rw [hoff, hpixels, pixelFile]
    simp only [List.length_append, FileHeader.length_bytes, InfoHeader.length_bytes, List.length_cons, List.length_nil]
    omega

/-- Two rows of three pixels, on a screen that is narrower and has room for one more row. -/
def smallInfoHeader : InfoHeader := { pixelInfoHeader BMP_BI_RGB with biWidth := 3, biHeight := 2, biSizeImage := 24 }

def smallFileHeader : FileHeader := { pixelFileHeader 0 with bfSize := 78 }

def smallFile : List UInt8 := smallFileHeader.bytes ++ (smallInfoHeader.bytes ++ (List.range 24).map UInt8.ofNat)

def smallScreen : Lfb where
  smemLen := 24
  xres := 2
  yres := 3
  bitsPerPixel := 32

theorem drawsRows_iff_small :
    Consistent smallFile smallFileHeader smallInfoHeader ∧
    DrawsRows smallInfoHeader smallScreen (-1) smallFile smallFileHeader := by
  have hfile : Consistent smallFile smallFileHeader smallInfoHeader :=
    ⟨by decide +kernel, by decide +kernel, by decide, by decide +kernel⟩
  exact ⟨hfile, (drawsRows_iff hfile smallScreen (-1)).2 ⟨by decide, by decide, fun _ => ⟨by decide, by decide⟩⟩⟩

/-- With the masks between the header and the pixels, the first mask is drawn in place of the pixel. -/
theorem masks_are_drawn :
    Consistent (pixelFile BMP_BI_BITFIELDS masks) (pixelFileHeader 12) (pixelInfoHeader BMP_BI_BITFIELDS) ∧
      (pixelFile BMP_BI_BITFIELDS masks).length = (pixelFileHeader 12).bfSize.toNat ∧
      (pixelFileHeader 12).bfOffBits = 66 ∧
      (∃ bmp, bmpOpen (pixelFile BMP_BI_BITFIELDS masks) = some (some bmp) ∧
        lfbDrawBmp pixelScreen (-1) bmp = some [{ dst := 0, src := 54, size := 4 }]) ∧
      ¬ DrawsRows (pixelInfoHeader BMP_BI_BITFIELDS) pixelScreen (-1) (pixelFile BMP_BI_BITFIELDS masks)
        (pixelFileHeader 12) := by
  have hfile : Consistent (pixelFile BMP_BI_BITFIELDS masks) (pixelFileHeader 12) (pixelInfoHeader BMP_BI_BITFIELDS) :=
    consistent_pixelFile (.inr rfl) (by decide)
  have hopen := (bmpOpen_eq hfile).trans (if_pos (by decide))
  have hdraw : lfbDrawBmp pixelScreen (-1) ⟨pixelFileHeader 12, pixelInfoHeader BMP_BI_BITFIELDS, _, _⟩ = some _ :=
    lfbDrawBmp_eq (by decide) (by decide)
  refine ⟨hfile, rfl, rfl, ⟨_, hopen, hdraw⟩, ?_⟩
  rintro ⟨bmp, moves, hopen', hdraw', hrows, -, -⟩
  rw [hopen, Option.some.injEq, Option.some.injEq] at hopen'
  subst hopen'
  rw [hdraw', Option.some.injEq] at hdraw
  rw [hdraw] at hrows
  exact absurd (rowMoves_bytes_inj.1 hrows (by decide)) (by decide)

end AlgaeBp.Bmp
