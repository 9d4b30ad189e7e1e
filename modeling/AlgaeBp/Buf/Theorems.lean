import AlgaeBp.Lib.Runs
import AlgaeBp.Buf.Code
/-!
# What stands in a buffer

`AloeBuf.Valid` holds after every sequence of calls. `rewind_eq`, `expand_eq`
and `vzprintf_eq` say what one call does to the bytes. `Printed` composes, so a
cleared buffer collects the texts that fit (`prints_eq`). A buffer that is only
cleared holds no string: the `NUL` comes with the first print.
-/

namespace AlgaeBp.Buf

open Bytes (Block store_some store_nul nul_stored load_some take_store take_store_add)

namespace AloeBuf

structure Valid (buf : AloeBuf) : Prop where
  pos_le : buf.pos ≤ buf.lmt
  lmt_le : buf.lmt ≤ buf.cap

/-- What has been written. -/
def text (buf : AloeBuf) : List UInt8 := buf.data.bytes.take buf.pos

/-- What has not been read. -/
def unread (buf : AloeBuf) : List UInt8 := (buf.data.bytes.take buf.lmt).drop buf.pos

theorem Valid.length_text {buf : AloeBuf} (h : buf.Valid) : buf.text.length = buf.pos := by
  have h₁ := h.pos_le
  have h₂ := h.lmt_le
  have h₃ := buf.data.size
  rw [text, List.length_take]
  omega

theorem Valid.length_unread {buf : AloeBuf} (h : buf.Valid) : buf.unread.length = buf.lmt - buf.pos := by
  have h₁ := h.lmt_le
  have h₂ := buf.data.size
  rw [unread, List.length_drop, List.length_take]
  omega

/-! ## Clear, flip, rewind -/

theorem valid_clear (buf : AloeBuf) : buf.clear.Valid := ⟨Nat.zero_le _, le_refl _⟩

theorem Valid.flip {buf : AloeBuf} (h : buf.Valid) : buf.flip.Valid := ⟨Nat.zero_le _, h.pos_le.trans h.lmt_le⟩

/-- The buffer after `rewind`. -/
structure Rewound (buf b : AloeBuf) : Prop where
  cap : b.cap = buf.cap
  pos : b.pos = 0
  lmt : b.lmt = buf.lmt - buf.pos
  bytes : b.data.bytes = buf.unread ++ buf.data.bytes.drop (buf.lmt - buf.pos)

theorem rewind_eq {buf : AloeBuf} (h : buf.Valid) : ∃ b, buf.rewind = some b ∧ Rewound buf b := by
  have hpos := h.pos_le
  have hlmt := h.lmt_le
  unfold rewind
  split
  case isTrue h₀ =>
    have h₀ : buf.pos = 0 := by omega
    refine ⟨buf, rfl, rfl, h₀, by omega, ?_⟩
    rw [unread, h₀, List.drop_zero, Nat.sub_zero, List.take_append_drop]
  case isFalse =>
    split
    case isTrue hlt =>
      have hlen : ((buf.data.bytes.drop buf.pos).take (buf.lmt - buf.pos)).length = buf.lmt - buf.pos := by
        rw [← List.drop_take]
        exact h.length_unread
      have hload : buf.data.load buf.pos (buf.lmt - buf.pos) = _ := load_some (by omega)
      have hsize : 0 + ((buf.data.bytes.drop buf.pos).take (buf.lmt - buf.pos)).length ≤ buf.cap := by omega
      obtain ⟨data, hs, hbytes⟩ := store_some (p := buf.data) hsize
      simp only [hload, Option.bind_eq_bind, Option.bind_some, hs]
      refine ⟨_, rfl, rfl, rfl, rfl, ?_⟩
      rw [hlen, List.take_zero, List.nil_append, Nat.zero_add] at hbytes
      rw [unread, List.drop_take]
      exact hbytes
    case isFalse hge =>
      have hend : buf.lmt - buf.pos = 0 := by omega
      refine ⟨_, rfl, rfl, rfl, hend.symm, ?_⟩
      have hnone : buf.unread = [] := List.eq_nil_of_length_eq_zero (h.length_unread.trans hend)
      rw [hnone, hend]
      rfl

theorem Rewound.valid {buf b : AloeBuf} (hr : Rewound buf b) (h : buf.Valid) : b.Valid := by
  have := h.lmt_le
  constructor
  · rw [hr.pos]
    exact Nat.zero_le _
  · rw [hr.lmt, hr.cap]
    omega

theorem Rewound.unread {buf b : AloeBuf} (hr : Rewound buf b) (h : buf.Valid) : b.unread = buf.unread := by
  rw [AloeBuf.unread, hr.pos, hr.lmt, hr.bytes, List.drop_zero, ← h.length_unread]
  exact List.take_left

/-! ## Expand -/

/-- The buffer after `expand` to `cap`, which answered `r`. -/
structure Expanded (buf : AloeBuf) (cap : Nat) (retain r : Int) (b : AloeBuf) : Prop where
  failed : r ≠ 0 → b = buf
  cap : r = 0 → b.cap = max buf.cap cap
  pos : b.pos = buf.pos
  lmt : b.lmt = if buf.lmt = buf.cap then b.cap else buf.lmt
  text : 0 < retain → b.text = buf.text

theorem expand_eq {buf : AloeBuf} (h : buf.Valid) (cap : Nat) (retain : Int) (mem : Option (Block cap)) :
    ∃ r b, buf.expand cap retain mem = some (r, b) ∧ Expanded buf cap retain r b := by
  have hpos := h.pos_le
  have hlmt := h.lmt_le
  have hsame : buf.lmt = if buf.lmt = buf.cap then buf.cap else buf.lmt := by
    split
    · assumption
    · rfl
  unfold expand
  split
  case isTrue hge => exact ⟨_, _, rfl, fun _ => rfl, fun _ => (max_eq_left hge).symm, rfl, hsame, fun _ => rfl⟩
  case isFalse hlt =>
    rcases mem with _ | data
    · exact ⟨_, _, rfl, fun _ => rfl, fun h0 => absurd h0 (by decide), rfl, hsame, fun _ => rfl⟩
    have hmax : cap = max buf.cap cap := (max_eq_right (by omega)).symm
    dsimp only
    split
    case isTrue =>
      have hlen : ((buf.data.bytes.drop 0).take buf.pos).length = buf.pos := h.length_text
      have hload : buf.data.load 0 buf.pos = _ := load_some (by omega)
      have hsize : 0 + ((buf.data.bytes.drop 0).take buf.pos).length ≤ cap := by omega
      obtain ⟨kept, hs, hbytes⟩ := store_some (p := data) hsize
      simp only [hload, Option.bind_eq_bind, Option.bind_some, hs]
      refine ⟨_, _, rfl, fun hr => absurd rfl hr, fun _ => hmax, rfl, rfl, fun _ => ?_⟩
      have htext := take_store hsize hbytes
      rw [hlen, Nat.zero_add] at htext
      exact htext
    case isFalse hn =>
      refine ⟨_, _, rfl, fun hr => absurd rfl hr, fun _ => hmax, rfl, rfl, fun hretain => ?_⟩
      have h₀ : buf.pos = 0 := by
        by_contra hp
        exact hn ⟨by omega, Or.inr hretain⟩
      rw [text, text, h₀, List.take_zero, List.take_zero]

theorem Expanded.valid {buf b : AloeBuf} {cap : Nat} {retain r : Int} (he : Expanded buf cap retain r b) (h : buf.Valid) :
    b.Valid := by
  have hpos := h.pos_le
  have hlmt := h.lmt_le
  have hb := he.lmt
  by_cases hr : r = 0
  · have hcap := he.cap hr
    have := he.pos
    constructor
    · split at hb <;> omega
    · split at hb <;> omega
  · rw [he.failed hr]
    exact h

/-! ## Print -/

/-- `s` has been added to the text, and the byte after it is `NUL` if there is room. -/
structure Printed (fb b : AloeBuf) (s : List UInt8) : Prop where
  cap : b.cap = fb.cap
  lmt : b.lmt = fb.lmt
  pos : b.pos = fb.pos + s.length
  text : b.text = fb.text ++ s
  ends : fb.pos < fb.lmt → b.pos < b.lmt ∧ b.data.bytes[b.pos]? = some 0

theorem finish_eq {fb : AloeBuf} (h : fb.Valid) (r : Int) : ∃ b, fb.finish r = some (r, b) ∧ Printed fb b [] := by
  have hlmt := h.lmt_le
  unfold finish
  split
  case isTrue hlt =>
    have hsize : fb.pos < fb.cap := by omega
    obtain ⟨data, hs, hbytes⟩ := store_nul (p := fb.data) hsize
    obtain ⟨htext, hnul, -⟩ := nul_stored hsize.le hbytes
    rw [hs, Option.bind_eq_bind, Option.bind_some]
    refine ⟨_, rfl, rfl, rfl, rfl, ?_, ?_⟩
    · rw [List.append_nil]
      exact htext
    · intro _
      exact ⟨hlt, hnul⟩
  case isFalse hge =>
    refine ⟨fb, rfl, rfl, rfl, rfl, ?_, ?_⟩
    · rw [List.append_nil]
    · intro hlt
      exact absurd hlt hge

theorem Printed.valid {fb b : AloeBuf} {s : List UInt8} (hp : Printed fb b s) (h : fb.Valid)
    (hs : fb.pos + s.length ≤ fb.lmt) :
    b.Valid := by
  have hlmt := h.lmt_le
  have h₁ := hp.cap
  have h₂ := hp.lmt
  have h₃ := hp.pos
  constructor <;> omega

theorem Printed.trans {fb b b' : AloeBuf} {s s' : List UInt8} (hp : Printed fb b s) (hp' : Printed b b' s') :
    Printed fb b' (s ++ s') where
  cap := hp'.cap.trans hp.cap
  lmt := hp'.lmt.trans hp.lmt
  pos := by rw [hp'.pos, hp.pos, List.length_append, Nat.add_assoc]
  text := by rw [hp'.text, hp.text, List.append_assoc]
  ends hlt := hp'.ends (hp.ends hlt).1

end AloeBuf

/-- The text, if there is one and `room` bytes hold it with a `NUL`. -/
def fitting (room : Nat) : Option Format → Option (List UInt8)
  | some (.text s _) => if s.length < room then some s else none
  | _ => none

theorem length_fitting {room : Nat} {fmt : Option Format} {s : List UInt8}
    (h : fitting room fmt = some s) : s.length < room := by
  rcases fmt with _ | ⟨t, ht⟩ | t
  · cases h
  · rw [fitting, Option.ite_none_right_eq_some] at h
    obtain ⟨hlt, hs⟩ := h
    obtain rfl := Option.some.inj hs
    exact hlt
  · cases h

theorem fitting_zero (fmt : Option Format) : fitting 0 fmt = none := by
  rcases hs : fitting 0 fmt with _ | s
  · rfl
  · exact absurd (length_fitting hs) (Nat.not_lt_zero _)

theorem length_vsnprintf {size : Nat} (fmt : Format) (h : 0 < size) : (vsnprintf fmt size).2.length ≤ size := by
  cases fmt with
  | text s _ =>
    rw [vsnprintf, List.length_append, List.length_take, List.length_singleton]
    omega
  | fails s => exact List.length_take_le _ _

/-- The answer says whether all of the text, with its `NUL`, has been written. -/
theorem vsnprintf_eq (fmt : Format) (size : Nat) :
    (∃ s, fitting size (some fmt) = some s ∧ vsnprintf fmt size = (↑s.length, s ++ [0])) ∨
      fitting size (some fmt) = none ∧ ((vsnprintf fmt size).1 < 0 ∨ size ≤ (vsnprintf fmt size).1.toNat) := by
  cases fmt with
  | text s _ =>
    by_cases hlt : s.length < size
    · left
      refine ⟨s, if_pos hlt, ?_⟩
      rw [vsnprintf, List.take_of_length_le (by omega)]
    · right
      exact ⟨if_neg hlt, Or.inr (Nat.le_of_not_lt hlt)⟩
  | fails s =>
    right
    exact ⟨rfl, Or.inl (Int.negSucc_lt_zero 0)⟩

/-- **One print.** The text is added if it fits, and else nothing is. -/
theorem AloeBuf.vzprintf_eq {fb : AloeBuf} (h : fb.Valid) (fmt : Option Format) :
    let s := (fitting (fb.lmt - fb.pos) fmt).getD []
    ∃ b, fb.vzprintf fmt = some (↑s.length, b) ∧ Printed fb b s := by
  have hpos := h.pos_le
  have hlmt := h.lmt_le
  dsimp only
  rcases fmt with _ | fmt
  · exact finish_eq h 0
  by_cases hge : fb.pos ≥ fb.lmt
  · rw [Nat.sub_eq_zero_of_le hge, fitting_zero, vzprintf, if_pos hge]
    exact finish_eq h 0
  have hlen := length_vsnprintf fmt (Nat.sub_pos_of_lt (Nat.lt_of_not_le hge))
  have hsize : fb.pos + (vsnprintf fmt (fb.lmt - fb.pos)).2.length ≤ fb.cap := by omega
  obtain ⟨data, hst, hbytes⟩ := store_some (p := fb.data) hsize
  simp only [vzprintf, if_neg hge, hst, Option.bind_eq_bind, Option.bind_some]
  rcases vsnprintf_eq fmt (fb.lmt - fb.pos) with ⟨s, hs, heq⟩ | ⟨hnone, hr⟩
  · have hfit := length_fitting hs
    rw [heq] at hbytes hlen ⊢
    dsimp only at hlen hbytes ⊢
    have hfits : ¬((s.length : Int) < 0 ∨ fb.pos + (s.length : Int).toNat ≥ fb.lmt) := by omega
    rw [if_neg hfits, hs, Option.getD_some, Int.toNat_natCast]
    have hall := take_store_add (k := s.length) (by omega) (by rw [List.length_append]; omega) hbytes
    rw [List.take_left] at hall
    have hend : fb.pos + s.length < fb.lmt := by omega
    have hv : Valid { fb with data, pos := fb.pos + s.length } := ⟨hend.le, hlmt⟩
    obtain ⟨b, hb, hp⟩ := finish_eq hv s.length
    refine ⟨b, hb, hp.cap, hp.lmt, hp.pos, ?_, fun _ => hp.ends hend⟩
    rw [hp.text, List.append_nil]
    exact hall
  · have hkeep := take_store_add (k := 0) (by omega) (Nat.zero_le _) hbytes
    rw [List.take_zero, List.append_nil, Nat.add_zero] at hkeep
    rw [if_pos (by omega), hnone, Option.getD_none]
    have hv : Valid { fb with data } := ⟨hpos, hlmt⟩
    obtain ⟨b, hb, hp⟩ := finish_eq hv 0
    refine ⟨b, hb, hp.cap, hp.lmt, hp.pos, ?_, hp.ends⟩
    rw [hp.text]
    exact congrArg (· ++ []) hkeep

theorem AloeBuf.Printed.valid_fitting {fb b : AloeBuf} {fmt : Option Format}
    (hp : Printed fb b ((fitting (fb.lmt - fb.pos) fmt).getD [])) (h : fb.Valid) : b.Valid := by
  apply hp.valid h
  have := h.pos_le
  rcases hs : fitting (fb.lmt - fb.pos) fmt with _ | s
  · exact h.pos_le
  · have := length_fitting hs
    rw [Option.getD_some]
    omega

/-- The texts that fit when they are printed, into `room` bytes at first. -/
def fitted : Nat → List (Option Format) → List (List UInt8)
  | _, [] => []
  | room, fmt :: fmts =>
    match fitting room fmt with
    | some s => s :: fitted (room - s.length) fmts
    | none => fitted room fmts

theorem flatten_fitted_cons (room : Nat) (fmt : Option Format) (fmts : List (Option Format)) :
    (fitted room (fmt :: fmts)).flatten =
      (fitting room fmt).getD [] ++ (fitted (room - ((fitting room fmt).getD []).length) fmts).flatten := by
  rw [fitted]
  rcases fitting room fmt with _ | s
  · rfl
  · exact List.flatten_cons

/-! ## Sequences of calls -/

open AloeBuf
open Runs (run)

/-- **One call.** It stays in the array and leaves a valid buffer. -/
theorem Call.exec_valid {buf : AloeBuf} (call : Call) (h : buf.Valid) : ∃ b, call.exec buf = some b ∧ b.Valid := by
  cases call with
  | clear => exact ⟨_, rfl, valid_clear buf⟩
  | flip => exact ⟨_, rfl, h.flip⟩
  | rewind =>
    obtain ⟨b, hb, hr⟩ := rewind_eq h
    exact ⟨b, hb, hr.valid h⟩
  | expand cap retain mem =>
    obtain ⟨r, b, hb, he⟩ := expand_eq h cap retain mem
    exact ⟨b, congrArg (Option.map Prod.snd) hb, he.valid h⟩
  | zprintf fmt =>
    obtain ⟨b, hb, hp⟩ := vzprintf_eq h fmt
    exact ⟨b, congrArg (Option.map Prod.snd) hb, hp.valid_fitting h⟩

/-- **A sequence of prints.** -/
theorem prints_eq {fb : AloeBuf} (h : fb.Valid) (fmt : Option Format) (fmts : List (Option Format)) :
    ∃ b, run Call.exec ((fmt :: fmts).map Call.zprintf) fb = some b ∧
      Printed fb b (fitted (fb.lmt - fb.pos) (fmt :: fmts)).flatten := by
  induction fmts generalizing fb fmt with
  | nil =>
    obtain ⟨b, hb, hp⟩ := vzprintf_eq h fmt
    refine ⟨b, ?_, ?_⟩
    · exact (Runs.run_one _ fb).trans (congrArg (Option.map Prod.snd) hb)
    · rw [flatten_fitted_cons, fitted, List.flatten_nil, List.append_nil]
      exact hp
  | cons fmt' fmts ih =>
    obtain ⟨b₁, hb₁, hp₁⟩ := vzprintf_eq h fmt
    obtain ⟨b, hb, hp⟩ := ih (hp₁.valid_fitting h) fmt'
    have hroom : b₁.lmt - b₁.pos = fb.lmt - fb.pos - ((fitting (fb.lmt - fb.pos) fmt).getD []).length := by
      rw [hp₁.lmt, hp₁.pos, Nat.sub_sub]
    have hexec : Call.exec fb (.zprintf fmt) = some b₁ := congrArg (Option.map Prod.snd) hb₁
    refine ⟨b, ?_, ?_⟩
    · rw [List.map_cons, run, hexec]
      exact hb
    · rw [flatten_fitted_cons, ← hroom]
      exact hp₁.trans hp

/-- A cleared buffer holds its text, and after the first print a `NUL` ends it. -/
theorem clear_prints {buf : AloeBuf} (hcap : 1 ≤ buf.cap) (fmts : List (Option Format)) :
    ∃ b, run Call.exec (fmts.map Call.zprintf) buf.clear = some b ∧ b.text = (fitted buf.cap fmts).flatten ∧
      b.pos = b.text.length ∧ (fmts ≠ [] → b.data.bytes[b.pos]? = some 0) := by
  rcases fmts with _ | ⟨fmt, fmts⟩
  · exact ⟨buf.clear, rfl, rfl, rfl, fun hne => absurd rfl hne⟩
  obtain ⟨b, hb, hp⟩ := prints_eq (valid_clear buf) fmt fmts
  have htext : b.text = (fitted buf.cap (fmt :: fmts)).flatten := hp.text
  refine ⟨b, hb, htext, ?_, fun _ => (hp.ends hcap).2⟩
  rw [htext, hp.pos]
  exact Nat.zero_add _

/-- **The buffer, from any valid state.** Every sequence of calls keeps it valid,
and each call moves the bytes it should and no others. -/
theorem discipline {buf : AloeBuf} (h : buf.Valid) :
    (∀ calls, ∃ b, run Call.exec calls buf = some b ∧ b.Valid) ∧
    (∃ b, buf.rewind = some b ∧ Rewound buf b) ∧
    (∀ cap retain mem, ∃ r b, buf.expand cap retain mem = some (r, b) ∧ Expanded buf cap retain r b) ∧
    (1 ≤ buf.cap → ∀ fmts, ∃ b, run Call.exec (fmts.map Call.zprintf) buf.clear = some b ∧
      b.text = (fitted buf.cap fmts).flatten ∧ b.pos = b.text.length ∧ (fmts ≠ [] → b.data.bytes[b.pos]? = some 0)) ∧
    (∀ fmt, ∃ r b, buf.zprintf fmt = some (r, b) ∧
      (∀ s, fitting (buf.lmt - buf.pos) fmt = some s → r = s.length ∧ b.text = buf.text ++ s) ∧
      (fitting (buf.lmt - buf.pos) fmt = none → r = 0 ∧ b.pos = buf.pos ∧ b.text = buf.text)) := by
  refine ⟨?_, rewind_eq h, expand_eq h, clear_prints, ?_⟩
  · intro calls
    exact Runs.run_total h (fun _ call hv => Call.exec_valid call hv) calls
  · intro fmt
    obtain ⟨b, hb, hp⟩ := vzprintf_eq h fmt
    refine ⟨_, b, hb, ?_, ?_⟩
    · intro s hs
      have htext := hp.text
      rw [hs] at htext ⊢
      exact ⟨rfl, htext⟩
    · intro hnone
      have hpos := hp.pos
      have htext := hp.text
      rw [hnone] at hpos htext ⊢
      rw [Option.getD_none, List.append_nil] at htext
      exact ⟨rfl, hpos, htext⟩

/-- Five bytes that nobody has cleared. -/
def five : AloeBuf := { cap := 5, data := ⟨[0x41, 0x41, 0x41, 0x41, 0x41], rfl⟩, lmt := 3, pos := 1 }

/-- `"hi"` fits, `"lots"` does not, and then `"!"` does. -/
theorem discipline_five :
    ∃ b, run Call.exec ([some (.text [0x68, 0x69] (by decide)), some (.text [0x6c, 0x6f, 0x74, 0x73] (by decide)),
      some (.text [0x21] (by decide))].map Call.zprintf) five.clear = some b ∧ b.text = [0x68, 0x69, 0x21] ∧
      b.data.bytes[b.pos]? = some 0 := by
  obtain ⟨-, -, -, hprint, -⟩ := discipline (⟨by decide, by decide⟩ : five.Valid)
  obtain ⟨b, hb, htext, -, hnul⟩ := hprint (by decide) _
  exact ⟨b, hb, htext, hnul (List.cons_ne_nil _ _)⟩

/-- A cleared buffer holds no string before anything is printed. -/
theorem clear_holds_no_string : ¬∀ (buf : AloeBuf) (fmts : List (Option Format)), buf.Valid → 1 ≤ buf.cap →
    ∃ b, run Call.exec (fmts.map Call.zprintf) buf.clear = some b ∧ b.text = (fitted buf.cap fmts).flatten ∧
      b.data.bytes[b.pos]? = some 0 := by
  intro hall
  obtain ⟨b, hb, -, hnul⟩ := hall five [] ⟨by decide, by decide⟩ (by decide)
  obtain rfl := Option.some.inj hb
  exact absurd hnul (by decide)

end AlgaeBp.Buf
