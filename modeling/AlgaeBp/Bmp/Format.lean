import AlgaeBp.Lib.Raster
import AlgaeBp.Lib.Bytes
import Mathlib.Data.List.Range
/-!
# BMP files

The headers of a BMP file, which are packed and little-endian, and the rules by
which its pixels are found: they begin at `bfOffBits`, a row is padded to a
multiple of four bytes, and with a positive height the last row comes first.
-/

namespace AlgaeBp.Bmp

open Raster Bytes

/-! ## Headers -/

structure FileHeader where
  bfType : UInt16
  bfSize : UInt32
  bfReserved1 : UInt16
  bfReserved2 : UInt16
  bfOffBits : UInt32
  deriving DecidableEq, Repr

structure InfoHeader where
  biSize : UInt32
  biWidth : Int32
  biHeight : Int32
  biPlanes : UInt16
  biBitCount : UInt16
  biCompression : UInt32
  biSizeImage : UInt32
  biXPelsPerMeter : Int32
  biYPelsPerMeter : Int32
  biClrUsed : UInt32
  biClrImportant : UInt32
  deriving DecidableEq, Repr

def FileHeader.bytes (h : FileHeader) : List UInt8 :=
  leBytes 2 h.bfType.toNat ++ (leBytes 4 h.bfSize.toNat ++ (leBytes 2 h.bfReserved1.toNat ++
    (leBytes 2 h.bfReserved2.toNat ++ leBytes 4 h.bfOffBits.toNat)))

def InfoHeader.bytes (h : InfoHeader) : List UInt8 :=
  leBytes 4 h.biSize.toNat ++ (leBytes 4 h.biWidth.toUInt32.toNat ++ (leBytes 4 h.biHeight.toUInt32.toNat ++
    (leBytes 2 h.biPlanes.toNat ++ (leBytes 2 h.biBitCount.toNat ++ (leBytes 4 h.biCompression.toNat ++
    (leBytes 4 h.biSizeImage.toNat ++ (leBytes 4 h.biXPelsPerMeter.toUInt32.toNat ++
    (leBytes 4 h.biYPelsPerMeter.toUInt32.toNat ++ (leBytes 4 h.biClrUsed.toNat ++ leBytes 4 h.biClrImportant.toNat)))))))))

/-- `sizeof` the two headers. -/
def fileHeaderSize : Nat := 14
def infoHeaderSize : Nat := 40

@[simp] theorem FileHeader.length_bytes (h : FileHeader) : h.bytes.length = fileHeaderSize := by
  simp [FileHeader.bytes, fileHeaderSize]

@[simp] theorem InfoHeader.length_bytes (h : InfoHeader) : h.bytes.length = infoHeaderSize := by
  simp [InfoHeader.bytes, infoHeaderSize]

/-- The field of `n` bytes at an offset. -/
def field (f : List UInt8) (off n : Nat) : Nat := leNat ((f.drop off).take n)

def FileHeader.ofBytes (f : List UInt8) : Option FileHeader :=
  if fileHeaderSize ≤ f.length then
    some
      { bfType := UInt16.ofNat (field f 0 2)
        bfSize := UInt32.ofNat (field f 2 4)
        bfReserved1 := UInt16.ofNat (field f 6 2)
        bfReserved2 := UInt16.ofNat (field f 8 2)
        bfOffBits := UInt32.ofNat (field f 10 4) }
  else none

def InfoHeader.ofBytes (f : List UInt8) : Option InfoHeader :=
  if infoHeaderSize ≤ f.length then
    some
      { biSize := UInt32.ofNat (field f 0 4)
        biWidth := (UInt32.ofNat (field f 4 4)).toInt32
        biHeight := (UInt32.ofNat (field f 8 4)).toInt32
        biPlanes := UInt16.ofNat (field f 12 2)
        biBitCount := UInt16.ofNat (field f 14 2)
        biCompression := UInt32.ofNat (field f 16 4)
        biSizeImage := UInt32.ofNat (field f 20 4)
        biXPelsPerMeter := (UInt32.ofNat (field f 24 4)).toInt32
        biYPelsPerMeter := (UInt32.ofNat (field f 28 4)).toInt32
        biClrUsed := UInt32.ofNat (field f 32 4)
        biClrImportant := UInt32.ofNat (field f 36 4) }
  else none

theorem ofNat_leBytes16 (v : UInt16) : UInt16.ofNat (leNat (leBytes 2 v.toNat)) = v := by
  rw [leNat_leBytes v.toNat_lt, UInt16.ofNat_toNat]

theorem ofNat_leBytes32 (v : UInt32) : UInt32.ofNat (leNat (leBytes 4 v.toNat)) = v := by
  rw [leNat_leBytes v.toNat_lt, UInt32.ofNat_toNat]

/-- A header is read as it was written. -/
theorem FileHeader.ofBytes_bytes (h : FileHeader) (rest : List UInt8) : FileHeader.ofBytes (h.bytes ++ rest) = some h := by
  rw [FileHeader.ofBytes, if_pos (by simp)]
  apply congrArg some
  obtain ⟨type, size, reserved₁, reserved₂, offBits⟩ := h
  rw [FileHeader.mk.injEq]
  refine ⟨?_, ?_, ?_, ?_, ?_⟩
  · exact ofNat_leBytes16 type
  · exact ofNat_leBytes32 size
  · exact ofNat_leBytes16 reserved₁
  · exact ofNat_leBytes16 reserved₂
  · exact ofNat_leBytes32 offBits

theorem InfoHeader.ofBytes_bytes (h : InfoHeader) (rest : List UInt8) : InfoHeader.ofBytes (h.bytes ++ rest) = some h := by
  have hsigned : ∀ v : Int32, (UInt32.ofNat (leNat (leBytes 4 v.toUInt32.toNat))).toInt32 = v := by
    intro v
    rw [ofNat_leBytes32, Int32.toInt32_toUInt32]
  rw [InfoHeader.ofBytes, if_pos (by simp)]
  apply congrArg some
  obtain ⟨size, width, height, planes, bitCount, compression, sizeImage, xPels, yPels, clrUsed, clrImportant⟩ := h
  rw [InfoHeader.mk.injEq]
  refine ⟨?_, ?_, ?_, ?_, ?_, ?_, ?_, ?_, ?_, ?_, ?_⟩
  · exact ofNat_leBytes32 size
  · exact hsigned width
  · exact hsigned height
  · exact ofNat_leBytes16 planes
  · exact ofNat_leBytes16 bitCount
  · exact ofNat_leBytes32 compression
  · exact ofNat_leBytes32 sizeImage
  · exact hsigned xPels
  · exact hsigned yPels
  · exact ofNat_leBytes32 clrUsed
  · exact ofNat_leBytes32 clrImportant

/-! ## Pixels -/

/-- The bytes of a row, padded to a multiple of four. -/
def rowBytes (bitCount width : Nat) : Nat := (width * bitCount + 31) / 32 * 4

/-- The row, counted from the beginning of the pixel data, that is row `y` from the top. -/
def storedRow (height : Int) (y : Nat) : Nat := if 0 < height then height.natAbs - 1 - y else y

/-- A pixel of three bytes, put in the order red, green, blue. -/
def pixel24 (f : List UInt8) (off : Nat) : Option (List UInt8) := do
  let b ← f[off]?
  let g ← f[off + 1]?
  let r ← f[off + 2]?
  return [r, g, b]

/-- The picture in a file of 24 bits a pixel: its width, its height and its bytes, row after row from the top. -/
def decode24 (f : List UInt8) : Option (Nat × Nat × List UInt8) := do
  let fh ← FileHeader.ofBytes f
  let ih ← InfoHeader.ofBytes (f.drop fileHeaderSize)
  if fh.bfType = 0x4d42 ∧ ih.biPlanes = 1 ∧ ih.biBitCount = 24 ∧ ih.biCompression = 0 ∧ 0 < ih.biWidth.toInt then
    let width := ih.biWidth.toInt.toNat
    let height := ih.biHeight.toInt.natAbs
    let rgb ← (List.range height) |> concatM fun y => (List.range width) |> concatM fun x =>
      pixel24 f (fh.bfOffBits.toNat + storedRow ih.biHeight.toInt y * rowBytes 24 width + 3 * x)
    return (width, height, rgb)
  else none

end AlgaeBp.Bmp
