import AlgaeBp.Rg10.Picture
/-!
# The quarter-size converters compared

`aloe_rg10_rgb8_i420_v6` writes what `aloe_rg10_rgb8_i420_v5` writes, each byte
once, and its chroma needs no clamping. Built with vector instructions, either
writes what it writes without.
-/

namespace AlgaeBp.Rg10

open Raster Lanes

variable {f : Frame} {rgb i420 : Bool}

/-! ## How many bytes are written -/

/-- The bytes of the two buffers that a picture takes. -/
def outBytes (width height : Nat) (rgb i420 : Bool) : Out → Nat
  | .rgb => if rgb then width / 4 * (height / 4) * 3 else 0
  | .i420 => if i420 then width / 4 * (height / 4) * 3 / 2 else 0

/-- Each of the first bytes of a buffer is written once, and no other. -/
def WritesOnce (log : List Store) (bytes : Out → Nat) : Prop :=
  ∀ o k, (log.map Prod.fst).count (o, k) = if k < bytes o then 1 else 0

theorem half_planes {w h : Nat} (hw : w % 2 = 0) (hh : h % 2 = 0) : w * h + 2 * (w / 2 * (h / 2)) = w * h * 3 / 2 := by
  obtain ⟨a, rfl⟩ : ∃ a, w = 2 * a := ⟨w / 2, by omega⟩
  obtain ⟨b, rfl⟩ : ∃ b, h = 2 * b := ⟨h / 2, by omega⟩
  rw [Nat.mul_div_cancel_left _ Nat.two_pos, Nat.mul_div_cancel_left _ Nat.two_pos,
    show 2 * a * (2 * b) * 3 = a * b * 6 * 2 by ring, Nat.mul_div_cancel _ Nat.two_pos]
  ring

theorem size_canvas (f : Frame) (rgb i420 : Bool) (o : Out) :
    (f.canvas i420 rgb).size o = outBytes f.width f.height rgb i420 o := by
  cases o with
  | rgb => rfl
  | i420 => simp only [Canvas.size, Frame.canvas, outBytes, half_planes f.outW_even f.outH_even]

theorem Draws.writesOnce {log : List Store} {pic : Cell → UInt8} (h : Draws (f.canvas i420 rgb) log pic)
    (hlen : log.length ≤ (f.canvas i420 rgb).size .rgb + (f.canvas i420 rgb).size .i420) :
    WritesOnce log (outBytes f.width f.height rgb i420) := by
  intro o k
  rw [h.once hlen, size_canvas]

/-- The bytes of a pixel without its chroma. -/
def pixelBytes (rgb i420 : Bool) : Nat := (if rgb then 3 else 0) + if i420 then 1 else 0

theorem size_sum (f : Frame) (rgb i420 : Bool) :
    (f.canvas i420 rgb).size .rgb + (f.canvas i420 rgb).size .i420 =
      f.height / 4 * (f.width / 4 * pixelBytes rgb i420) +
        f.height / 4 / 2 * (f.width / 4 / 2 * if i420 then 2 else 0) := by
  cases rgb <;> cases i420 <;> simp [Canvas.size, Frame.canvas, pixelBytes] <;> ring

theorem length_v5Column (rg10 : Nat → UInt8) (rows : V5Rows) (rgb i420 : Bool) (x : Nat) :
    (v5Column rg10 rows rgb i420 x).length =
      2 * pixelBytes rgb i420 + if x % 2 = 1 then (if i420 then 2 else 0) else 0 := by
  cases rgb <;> cases i420 <;> by_cases h : x % 2 = 1 <;> simp [v5Column, pixelBytes, putRgb, putI420, h]

theorem length_v6Column (rg10 : Nat → UInt8) (row : V6Row) (rgb i420 : Bool) (gains : Option Gains) (x y : Nat) :
    (v6Column rg10 row rgb i420 gains y x).length =
      pixelBytes rgb i420 + if x % 2 = 1 then (if y % 2 = 1 then (if i420 then 2 else 0) else 0) else 0 := by
  cases rgb <;> cases i420 <;> by_cases h : x % 2 = 1 <;> by_cases h' : y % 2 = 1 <;>
    simp [v6Column, pixelBytes, putRgb, putI420, h, h']

theorem length_v5 (f : Frame) (rgb i420 : Bool) :
    (aloeRg10Rgb8I420V5 .scalar f.width f.height f.stride f.rg10 rgb i420).length =
      (f.canvas i420 rgb).size .rgb + (f.canvas i420 rgb).size .i420 := by
  have hsize := f.width_ge
  have hsize' := f.height_ge
  have height := f.width_eight
  have height' := f.height_eight
  have hrow : ∀ outY ∈ loop 0 (f.height / 4) 2, _ := fun outY _ =>
    length_oddTurns (w := f.width / 4)
      fun x _ => length_v5Column f.rg10 (v5Rows f.width f.height f.stride outY) rgb i420 x
  obtain ⟨b, hb⟩ : ∃ b, f.height / 4 = 2 * b := ⟨f.height / 4 / 2, by have h := f.outH_even; omega⟩
  rw [aloeRg10Rgb8I420V5, if_neg (by omega), size_sum]
  refine (length_turns hrow).trans ?_
  rw [length_loop, hb, Nat.mul_div_cancel_left b Nat.two_pos, show (2 * b - 0 + 2 - 1) / 2 = b by omega]
  ring

/-- Without vector instructions nothing is loaded that could lie behind the row. -/
theorem v6_scalar_eq (stack : Rgb (Vec 8 UInt8)) (f : Frame) (gains : Option Gains) (hasked : (!rgb && !i420) = false) :
    aloeRg10Rgb8I420V6 .scalar stack f.width f.height f.stride f.rg10 rgb i420 gains =
      some ((loop 0 (f.height / 4) 1).flatMap fun y => (loop 0 (f.width / 4) 1).flatMap
        (v6Column f.rg10 (v6Row f.width f.height f.stride y) rgb i420 gains y)) := by
  have hsize := f.width_ge
  have hsize' := f.height_ge
  have height := f.width_eight
  have height' := f.height_eight
  rw [aloeRg10Rgb8I420V6, if_neg (by omega), if_neg (by rw [hasked]; exact Bool.false_ne_true)]
  exact concatM_eq fun y _ => rfl

theorem length_v6 {stack : Rgb (Vec 8 UInt8)} {gains : Option Gains} {log : List Store}
    (h : aloeRg10Rgb8I420V6 .scalar stack f.width f.height f.stride f.rg10 rgb i420 gains = some log) :
    log.length ≤ (f.canvas i420 rgb).size .rgb + (f.canvas i420 rgb).size .i420 := by
  cases hasked : (!rgb && !i420) with
  | true =>
    rw [aloeRg10Rgb8I420V6, if_pos hasked] at h
    split at h
    · cases h
      exact Nat.zero_le _
    · cases h
      exact Nat.zero_le _
  | false =>
    rw [v6_scalar_eq stack f gains hasked] at h
    obtain rfl := Option.some.inj h
    have hrow : ∀ y < f.height / 4, ((loop 0 (f.width / 4) 1).flatMap
        (v6Column f.rg10 (v6Row f.width f.height f.stride y) rgb i420 gains y)).length =
          f.width / 4 * pixelBytes rgb i420 + if y % 2 = 1 then (f.width / 4 / 2 * if i420 then 2 else 0) else 0 := by
      intro y _
      rw [length_oddTurns fun x _ => length_v6Column f.rg10 (v6Row f.width f.height f.stride y) rgb i420 gains x y]
      split <;> rfl
    rw [length_oddTurns hrow, size_sum]

/-! ## The results -/

/-- A value that fits in a byte. -/
def InByte (v : Int) : Prop := 0 ≤ v ∧ v ≤ 255

/-- **`aloe_rg10_rgb8_i420_v6` refines `aloe_rg10_rgb8_i420_v5`.** With all gains 1 it leaves the same bytes, each of
which either writes once, and the chroma of whatever a gain table makes of a pixel fits in a byte. -/
theorem v6_refines_v5 (f : Frame) (stack : Rgb (Vec 8 UInt8)) (rgb i420 : Bool) :
    ∃ log, aloeRg10Rgb8I420V6 .scalar stack f.width f.height f.stride f.rg10 rgb i420 none = some log ∧
      (∀ k, after log k = after (aloeRg10Rgb8I420V5 .scalar f.width f.height f.stride f.rg10 rgb i420) k) ∧
      WritesOnce log (outBytes f.width f.height rgb i420) ∧
      WritesOnce (aloeRg10Rgb8I420V5 .scalar f.width f.height f.stride f.rg10 rgb i420)
        (outBytes f.width f.height rgb i420) ∧
      ∀ (gains : Option Gains) (c : Rgb UInt8),
        InByte (uValue (adjusted gains c).r (adjusted gains c).g (adjusted gains c).b) ∧
        InByte (vValue (adjusted gains c).r (adjusted gains c).g (adjusted gains c).b) := by
  obtain ⟨log, hlog, hv6⟩ := v6_draws .scalar stack f rgb i420 none
  have hv5 := v5_draws .scalar f rgb i420
  refine ⟨log, hlog, (hv6.same_iff hv5).2 (fun _ _ => rfl), Draws.writesOnce hv6 (length_v6 hlog),
    Draws.writesOnce hv5 (length_v5 f rgb i420).le, fun gains c => ⟨uValue_range _ _ _, vValue_range _ _ _⟩⟩

/-- **The vector instructions change nothing.** Built with NEON or SSE2 either converter leaves the bytes it leaves
without, and `aloe_rg10_rgb8_i420_v6` makes no load that would read on behind a row. -/
theorem builds_agree (build : Build) (stack stack' : Rgb (Vec 8 UInt8)) (width height stride : Nat) (rg10 : Nat → UInt8)
    (rgb i420 : Bool) (gains : Option Gains) :
    (∀ k, after (aloeRg10Rgb8I420V5 build width height stride rg10 rgb i420) k =
      after (aloeRg10Rgb8I420V5 .scalar width height stride rg10 rgb i420) k) ∧
    ∃ log log', aloeRg10Rgb8I420V6 build stack width height stride rg10 rgb i420 gains = some log ∧
      aloeRg10Rgb8I420V6 .scalar stack' width height stride rg10 rgb i420 gains = some log' ∧
      ∀ k, after log k = after log' k := by
  by_cases hsize : width < 8 ∨ height < 8 ∨ width % 8 ≠ 0 ∨ height % 8 ≠ 0
  · have hv5 : ∀ b, aloeRg10Rgb8I420V5 b width height stride rg10 rgb i420 = [] := fun b => if_pos hsize
    have hv6 : ∀ b junk, aloeRg10Rgb8I420V6 b junk width height stride rg10 rgb i420 gains = some [] :=
      fun b junk => if_pos hsize
    rw [hv5, hv5]
    exact ⟨fun _ => rfl, [], [], hv6 _ _, hv6 _ _, fun _ => rfl⟩
  · let f : Frame :=
      { width, height, stride, rg10
        width_ge := by omega
        height_ge := by omega
        width_eight := by omega
        height_eight := by omega }
    have hv5 := v5_draws build f rgb i420
    have hv5' := v5_draws .scalar f rgb i420
    obtain ⟨log, hlog, hv6⟩ := v6_draws build stack f rgb i420 gains
    obtain ⟨log', hlog', hv6'⟩ := v6_draws .scalar stack' f rgb i420 gains
    exact ⟨(hv5.same_iff hv5').2 (fun _ _ => rfl), log, log', hlog, hlog', (hv6.same_iff hv6').2 (fun _ _ => rfl)⟩

end AlgaeBp.Rg10
