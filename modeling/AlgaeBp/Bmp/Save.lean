import AlgaeBp.Bmp.Format
/-!
# Saving a BMP file

`aloe_bmp_save` of `bmp.cpp`: the list of what it hands to `fwrite` and `fputc`,
in order; when all writes succeed the file is these bytes one after another. A
byte that would be read outside the image is `none`. `width` and `height` are
positive `int`s, and sizes are unbounded up to where they go into a header.
-/

namespace AlgaeBp.Bmp

open Raster

/-- The pixel as it is written: blue, green, red. -/
def bgr (rgb : List UInt8) (off : Nat) : Option (List UInt8) := do
  let r ← rgb[off]?
  let g ← rgb[off + 1]?
  let b ← rgb[off + 2]?
  return [b, g, r]

/-- One turn of the loop over the rows. -/
def saveRow (width padding : Nat) (rgb : List UInt8) (y : Nat) : Option (List (List UInt8)) := do
  let pixels ← (List.range width) |> concatM fun x => do
    let pixel ← bgr rgb ((y * width + x) * 3)
    return [pixel]
  return pixels ++ List.replicate padding [0]

/-- `fopened` tells whether `fopen` succeeds. -/
def aloeBmpSave (fopened : Bool) (width height : Nat) (rgb : List UInt8) : Option (Int × List (List UInt8)) :=
  let rowSize := width * 3
  let padding := (4 - rowSize % 4) % 4
  let bmpRowSize := rowSize + padding
  let imageSize := UInt32.ofNat (bmpRowSize * height)
  let bfOffBits := UInt32.ofNat (fileHeaderSize + infoHeaderSize)
  let fileHeader : FileHeader :=
    { bfType := 0x4D42, bfSize := bfOffBits + imageSize, bfReserved1 := 0, bfReserved2 := 0, bfOffBits }
  let infoHeader : InfoHeader :=
    { biSize := UInt32.ofNat infoHeaderSize
      biWidth := Int32.ofNat width
      biHeight := Int32.ofNat height
      biPlanes := 1
      biBitCount := 24
      biCompression := 0
      biSizeImage := imageSize
      biXPelsPerMeter := 0
      biYPelsPerMeter := 0
      biClrUsed := 0
      biClrImportant := 0 }
  if !fopened then some (-1, [])
  else do
    let rows ← (List.range height).reverse |> concatM (saveRow width padding rgb)
    return (0, [fileHeader.bytes, infoHeader.bytes] ++ rows)

/-! ## The file -/

/-- An RGB image whose file has a size of 31 bits. -/
structure Image where
  width : Nat
  height : Nat
  rgb : List UInt8
  width_pos : 0 < width
  height_pos : 0 < height
  length_rgb : rgb.length = width * height * 3
  fits : fileHeaderSize + infoHeaderSize + rowBytes 24 width * height < 2 ^ 31

variable (m : Image)

/-- Byte `k` of the image. -/
def Image.byte (k : Nat) : UInt8 := m.rgb.getD k 0

/-- A pixel in the file. -/
def Image.pixel (y x : Nat) : List UInt8 :=
  [m.byte ((y * m.width + x) * 3 + 2), m.byte ((y * m.width + x) * 3 + 1), m.byte ((y * m.width + x) * 3)]

/-- Row `y` in the file. -/
def Image.row (y : Nat) : List UInt8 :=
  (List.range m.width).flatMap (m.pixel y) ++ List.replicate ((4 - m.width * 3 % 4) % 4) 0

def Image.pixelData : List UInt8 := (List.range m.height).reverse.flatMap m.row

/-- The headers that the code fills in. -/
def Image.fileHeader : FileHeader where
  bfType := 0x4D42
  bfSize := UInt32.ofNat (fileHeaderSize + infoHeaderSize + rowBytes 24 m.width * m.height)
  bfReserved1 := 0
  bfReserved2 := 0
  bfOffBits := UInt32.ofNat (fileHeaderSize + infoHeaderSize)

def Image.infoHeader : InfoHeader where
  biSize := UInt32.ofNat infoHeaderSize
  biWidth := Int32.ofNat m.width
  biHeight := Int32.ofNat m.height
  biPlanes := 1
  biBitCount := 24
  biCompression := 0
  biSizeImage := UInt32.ofNat (rowBytes 24 m.width * m.height)
  biXPelsPerMeter := 0
  biYPelsPerMeter := 0
  biClrUsed := 0
  biClrImportant := 0

def Image.file : List UInt8 := m.fileHeader.bytes ++ (m.infoHeader.bytes ++ m.pixelData)

variable {m : Image} {x y k : Nat}

theorem rowBytes_eq (width : Nat) : width * 3 + (4 - width * 3 % 4) % 4 = rowBytes 24 width := by
  unfold rowBytes
  omega

theorem Image.offset_lt (hx : x < m.width) (hy : y < m.height) : (y * m.width + x) * 3 + 2 < m.rgb.length := by
  have hlt := rowMajor_lt hx hy
  rw [m.length_rgb]
  omega

theorem Image.getElem?_rgb (hk : k < m.rgb.length) : m.rgb[k]? = some (m.byte k) := by
  rw [List.getElem?_eq_getElem hk, Image.byte, List.getD_eq_getElem _ _ hk]

theorem bgr_eq (hx : x < m.width) (hy : y < m.height) : bgr m.rgb ((y * m.width + x) * 3) = some (m.pixel y x) := by
  have hlt := m.offset_lt hx hy
  rw [bgr, m.getElem?_rgb (by omega), m.getElem?_rgb (by omega), m.getElem?_rgb hlt]
  rfl

/-- A row is written pixel by pixel. -/
theorem saveRow_eq (hy : y < m.height) :
    ∃ writes, saveRow m.width ((4 - m.width * 3 % 4) % 4) m.rgb y = some writes ∧ writes.flatten = m.row y := by
  have hpixels : concatM (fun x => (bgr m.rgb ((y * m.width + x) * 3)).bind fun pixel => some [pixel]) (List.range m.width) =
      some ((List.range m.width).flatMap fun x => [m.pixel y x]) := by
    apply concatM_eq
    intro x hx
    rw [bgr_eq (List.mem_range.1 hx) hy]
    rfl
  simp only [saveRow, Option.bind_eq_bind, Option.pure_def, hpixels]
  refine ⟨_, rfl, ?_⟩
  rw [List.flatten_append, Image.row]
  congr 1
  · rw [← List.flatMap_id, List.flatMap_assoc]
    simp
  · simp

/-- What is written, as one sequence of bytes. -/
theorem save_writes (m : Image) :
    ∃ writes, aloeBmpSave true m.width m.height m.rgb = some (0, writes) ∧ writes.flatten = m.file := by
  have hrow : ∀ y ∈ (List.range m.height).reverse,
      saveRow m.width ((4 - m.width * 3 % 4) % 4) m.rgb y =
        some ((saveRow m.width ((4 - m.width * 3 % 4) % 4) m.rgb y).getD []) := by
    intro y hy
    obtain ⟨writes, hwrites, -⟩ := saveRow_eq (m := m) (List.mem_range.1 (List.mem_reverse.1 hy))
    rw [hwrites]
    rfl
  have hflat : ((List.range m.height).reverse.flatMap fun y =>
      (saveRow m.width ((4 - m.width * 3 % 4) % 4) m.rgb y).getD []).flatten = m.pixelData := by
    rw [← List.flatMap_id, List.flatMap_assoc, Image.pixelData]
    apply List.flatMap_congr
    intro y hy
    obtain ⟨writes, hwrites, hrow⟩ := saveRow_eq (m := m) (List.mem_range.1 (List.mem_reverse.1 hy))
    rw [hwrites, ← hrow]
    exact List.flatMap_id
  simp only [aloeBmpSave, concatM_eq hrow, rowBytes_eq]
  refine ⟨_, rfl, ?_⟩
  simp only [List.cons_append, List.nil_append, List.flatten_cons, hflat, Image.file, ← UInt32.ofNat_add]
  rfl

/-! ## Reading it back -/

theorem Image.length_pixels (m : Image) (y : Nat) : ((List.range m.width).flatMap (m.pixel y)).length = m.width * 3 := by
  have hthree : ∀ x ∈ List.range m.width, (m.pixel y x).length = 3 := fun _ _ => rfl
  rw [length_turns hthree, List.length_range]

theorem Image.length_row (m : Image) (y : Nat) : (m.row y).length = rowBytes 24 m.width := by
  rw [Image.row, List.length_append, m.length_pixels, List.length_replicate, rowBytes_eq]

theorem Image.length_file (m : Image) :
    m.file.length = fileHeaderSize + infoHeaderSize + rowBytes 24 m.width * m.height := by
  have hdata : m.pixelData.length = m.height * rowBytes 24 m.width := by
    rw [Image.pixelData, length_turns fun y _ => m.length_row y, List.length_reverse, List.length_range]
  rw [Image.file, List.length_append, List.length_append, hdata, FileHeader.length_bytes, InfoHeader.length_bytes,
    Nat.mul_comm m.height, Nat.add_assoc]

/-- Where byte `k` of a pixel stands in the file. -/
theorem Image.getElem?_file (hx : x < m.width) (hy : y < m.height) (hk : k < 3) :
    m.file[fileHeaderSize + infoHeaderSize + (m.height - 1 - y) * rowBytes 24 m.width + 3 * x + k]? = (m.pixel y x)[k]? := by
  have hwidth : m.width * 3 ≤ rowBytes 24 m.width := by
    rw [← rowBytes_eq]
    exact Nat.le_add_right _ _
  have hheaders : m.file[fileHeaderSize + infoHeaderSize + ((m.height - 1 - y) * rowBytes 24 m.width + (3 * x + k))]? =
      m.pixelData[(m.height - 1 - y) * rowBytes 24 m.width + (3 * x + k)]? := by
    rw [Image.file, ← List.append_assoc, List.getElem?_append_right (by simp), List.length_append, FileHeader.length_bytes,
      InfoHeader.length_bytes, Nat.add_sub_cancel_left]
  have hrow : (List.range m.height).reverse[m.height - 1 - y]? = some y := by
    rw [List.getElem?_reverse (by rw [List.length_range]; omega), List.length_range, List.getElem?_range (by omega)]
    exact congrArg some (by omega)
  have hpixel : (m.row y)[x * 3 + k]? = (m.pixel y x)[k]? := by
    have hlen := m.length_pixels y
    have hthree : ∀ x ∈ List.range m.width, (m.pixel y x).length = 3 := fun _ _ => rfl
    rw [Image.row, List.getElem?_append_left (by omega), getElem?_turns hthree hk, List.getElem?_range hx]
    rfl
  rw [Nat.add_assoc, Nat.add_assoc, hheaders, Image.pixelData, getElem?_turns (fun y _ => m.length_row y) (by omega), hrow,
    Nat.mul_comm 3 x]
  exact hpixel

/-- A pixel in the order red, green, blue. -/
def Image.colour (m : Image) (y x : Nat) : List UInt8 :=
  [m.byte ((y * m.width + x) * 3), m.byte ((y * m.width + x) * 3 + 1), m.byte ((y * m.width + x) * 3 + 2)]

theorem pixel24_file (hx : x < m.width) (hy : y < m.height) :
    pixel24 m.file (fileHeaderSize + infoHeaderSize + (m.height - 1 - y) * rowBytes 24 m.width + 3 * x) =
      some (m.colour y x) := by
  have h₀ := m.getElem?_file hx hy (by omega : 0 < 3)
  have h₁ := m.getElem?_file hx hy (by omega : 1 < 3)
  have h₂ := m.getElem?_file hx hy (by omega : 2 < 3)
  rw [Nat.add_zero] at h₀
  rw [pixel24, h₀, h₁, h₂]
  rfl

/-- The image is its pixels, row after row. -/
theorem Image.rgb_eq (m : Image) :
    ((List.range m.height).flatMap fun y => (List.range m.width).flatMap (m.colour y)) = m.rgb := by
  have hthree : ∀ y, ∀ x ∈ List.range m.width, (m.colour y x).length = 3 := fun _ _ _ => rfl
  have hrow : ∀ y ∈ List.range m.height, ((List.range m.width).flatMap (m.colour y)).length = m.width * 3 := by
    intro y _
    rw [length_turns (hthree y), List.length_range]
  have hsize : m.rgb.length = m.width * 3 * m.height := by
    rw [m.length_rgb]
    ring
  apply List.ext_getElem?
  intro k
  by_cases hk : k < m.width * 3 * m.height
  · have hbyte := m.getElem?_rgb (hsize ▸ hk : k < m.rgb.length)
    obtain ⟨j, y, hj, hy, rfl⟩ := rowMajor_surj hk
    have hindex : y * (m.width * 3) + j = (y * m.width + j / 3) * 3 + j % 3 := by
      calc y * (m.width * 3) + j = y * (m.width * 3) + (j / 3 * 3 + j % 3) := by omega
        _ = (y * m.width + j / 3) * 3 + j % 3 := by ring
    have hpixel : ((List.range m.width).flatMap (m.colour y))[j]? = (m.colour y (j / 3))[j % 3]? := by
      have hturn := getElem?_turns (i := j / 3) (hthree y) (Nat.mod_lt j (by omega : 0 < 3))
      rw [List.getElem?_range (by omega), show j / 3 * 3 + j % 3 = j by omega] at hturn
      exact hturn
    rw [getElem?_turns hrow hj, List.getElem?_range hy, Option.bind_some, hpixel, hbyte, hindex]
    rcases (by omega : j % 3 = 0 ∨ j % 3 = 1 ∨ j % 3 = 2) with h | h | h <;> rw [h] <;> rfl
  · have hlength : ((List.range m.height).flatMap fun y => (List.range m.width).flatMap (m.colour y)).length ≤ k := by
      rw [length_turns hrow, List.length_range, Nat.mul_comm]
      exact Nat.le_of_not_lt hk
    rw [List.getElem?_eq_none hlength, List.getElem?_eq_none (hsize ▸ Nat.le_of_not_lt hk)]

/-! ## The round trip -/

theorem toNat_ofNat32 {n : Nat} (h : n < 2 ^ 31) : (UInt32.ofNat n).toNat = n :=
  UInt32.toNat_ofNat_of_lt (by unfold UInt32.size; omega)

theorem toInt_ofNat32 {n : Nat} (h : n < 2 ^ 31) : (Int32.ofNat n).toInt = n :=
  Int32.toInt_ofNat_of_lt h

/-- A dimension is no longer than the file. -/
theorem Image.width_fits (m : Image) : m.width < 2 ^ 31 := by
  have hfits := m.fits
  have hrow : rowBytes 24 m.width ≤ rowBytes 24 m.width * m.height := Nat.le_mul_of_pos_right _ m.height_pos
  have hwidth := rowBytes_eq m.width
  omega

theorem Image.height_fits (m : Image) : m.height < 2 ^ 31 := by
  have hfits := m.fits
  have hwidth := rowBytes_eq m.width
  have hpos := m.width_pos
  have hrow : m.height ≤ rowBytes 24 m.width * m.height := Nat.le_mul_of_pos_left _ (by omega)
  omega

theorem Image.fileHeader_file (m : Image) : FileHeader.ofBytes m.file = some m.fileHeader :=
  FileHeader.ofBytes_bytes _ _

theorem Image.infoHeader_file (m : Image) : InfoHeader.ofBytes (m.file.drop fileHeaderSize) = some m.infoHeader := by
  rw [Image.file, List.drop_left' (by simp)]
  exact InfoHeader.ofBytes_bytes _ _

theorem Image.decode24_file (m : Image) : decode24 m.file = some (m.width, m.height, m.rgb) := by
  have hwidth : m.infoHeader.biWidth.toInt = m.width := toInt_ofNat32 m.width_fits
  have hheight : m.infoHeader.biHeight.toInt = m.height := toInt_ofNat32 m.height_fits
  have hpixels : concatM (fun y => concatM (fun x => pixel24 m.file (m.fileHeader.bfOffBits.toNat +
      storedRow (m.height : Int) y * rowBytes 24 m.width + 3 * x)) (List.range m.width))
          (List.range m.height) = some m.rgb := by
    refine (concatM_eq ?_).trans (congrArg some m.rgb_eq)
    intro y hy
    apply concatM_eq
    intro x hx
    rw [storedRow, if_pos (Int.natCast_pos.2 m.height_pos), Int.natAbs_natCast]
    exact pixel24_file (List.mem_range.1 hx) (List.mem_range.1 hy)
  simp only [decode24, m.fileHeader_file, m.infoHeader_file, Option.bind_eq_bind, Option.bind_some, hwidth, hheight]
  rw [if_pos ⟨rfl, rfl, rfl, rfl, Int.natCast_pos.2 m.width_pos⟩, Int.toNat_natCast, Int.natAbs_natCast, hpixels]
  rfl

/-- What is saved decodes to the image, and the two sizes in the headers are right. -/
theorem save_decodes (m : Image) :
    ∃ writes, aloeBmpSave true m.width m.height m.rgb = some (0, writes) ∧
      decode24 writes.flatten = some (m.width, m.height, m.rgb) ∧
      ∃ fh ih, FileHeader.ofBytes writes.flatten = some fh ∧
        InfoHeader.ofBytes (writes.flatten.drop fileHeaderSize) = some ih ∧
        writes.flatten.length = fh.bfSize.toNat ∧
        writes.flatten.length = fh.bfOffBits.toNat + ih.biSizeImage.toNat := by
  obtain ⟨writes, hwrites, hfile⟩ := save_writes m
  have hfits := m.fits
  refine ⟨writes, hwrites, ?_⟩
  rw [hfile]
  refine ⟨m.decode24_file, m.fileHeader, m.infoHeader, m.fileHeader_file, m.infoHeader_file, ?_, ?_⟩
  · rw [m.length_file, Image.fileHeader, toNat_ofNat32 hfits]
  · have hsize : m.infoHeader.biSizeImage.toNat = rowBytes 24 m.width * m.height :=
      toNat_ofNat32 (by omega)
    rw [m.length_file, hsize]
    rfl

/-- Three by two pixels, with three bytes of padding behind each row. -/
def threeByTwo : List UInt8 := (List.range 18).map UInt8.ofNat

theorem save_decodes_padded :
    ∃ writes, aloeBmpSave true 3 2 threeByTwo = some (0, writes) ∧
    decode24 writes.flatten = some (3, 2, threeByTwo) := by
  let m : Image :=
    { width := 3, height := 2, rgb := threeByTwo, width_pos := by decide, height_pos := by decide,
      length_rgb := rfl, fits := by decide }
  obtain ⟨writes, hwrites, hdecodes, -⟩ := save_decodes m
  exact ⟨writes, hwrites, hdecodes⟩

end AlgaeBp.Bmp
