import Mathlib.Data.List.FinRange
import Mathlib.Data.Set.Basic
import Mathlib.Tactic.Ring
/-!
# Loops that fill a picture

A routine that fills a picture is the list of its stores, in order; `after` is
what stands in the memory then. The picture is packed RGB888, planar I420, or
both: `Cell` names what a byte of it is about, `Cell.at` says where the byte
lies, and `Puts` is what a part of the routine contributes. The rules for
`Puts` follow the routine: a pixel, one part after another, a loop.
-/

namespace Raster

/-! ## Stores -/

section Stores

variable {κ β : Type} [BEq κ] [LawfulBEq κ]

/-- What the last store to `k` has left there. -/
def after (log : List (κ × β)) (k : κ) : Option β := log.reverse.lookup k

omit [LawfulBEq κ] in
theorem after_append (a b : List (κ × β)) (k : κ) : after (a ++ b) k = (after b k).or (after a k) := by
  rw [after, List.reverse_append, List.lookup_append]
  rfl

theorem after_eq_none {log : List (κ × β)} {k : κ} : after log k = none ↔ ∀ p ∈ log, p.1 ≠ k := by
  rw [after, List.lookup_eq_none_iff]
  simp only [List.mem_reverse, bne_iff_ne, ne_comm (a := k)]

theorem mem_of_after {log : List (κ × β)} {k : κ} {v : β} (h : after log k = some v) : ∃ p ∈ log, p.1 = k := by
  by_contra hnone
  have hn : after log k = none := after_eq_none.2 (fun p hp hk => hnone ⟨p, hp, hk⟩)
  rw [hn] at h
  cases h

/-- If all stores to a place agree, it does not matter which was the last. -/
theorem after_of_agree {log : List (κ × β)} {k : κ} {v : β} (hmem : (k, v) ∈ log)
    (hagree : ∀ p ∈ log, p.1 = k → p.2 = v) : after log k = some v := by
  cases h : after log k with
  | none => exact absurd rfl (after_eq_none.1 h _ hmem)
  | some w =>
    rw [after, List.lookup_eq_some_iff] at h
    obtain ⟨l₁, l₂, heq, -⟩ := h
    have hw : (k, w) ∈ log := by
      rw [← List.mem_reverse, heq]
      simp
    exact congrArg some (hagree _ hw rfl)

end Stores

/-! ## Loops -/

/-- `for (x = start; x < stop; x += step)`. -/
def loop (start stop step : Nat) : List Nat := List.range' start ((stop - start + step - 1) / step) step

theorem mem_loop_one {start stop x : Nat} : x ∈ loop start stop 1 ↔ start ≤ x ∧ x < stop := by
  simp only [loop, List.mem_range', Nat.div_one, Nat.one_mul]
  constructor
  · rintro ⟨i, hi, rfl⟩
    omega
  · intro h
    exact ⟨x - start, by omega, by omega⟩

theorem mem_loop {start stop step x : Nat} (hs : 0 < step) :
    x ∈ loop start stop step ↔ x < stop ∧ ∃ i, x = start + step * i := by
  simp only [loop, List.mem_range']
  constructor
  · rintro ⟨i, hi, rfl⟩
    refine ⟨?_, i, rfl⟩
    have hlt : i + 1 ≤ (stop - start + step - 1) / step := hi
    rw [Nat.le_div_iff_mul_le hs, Nat.add_mul, Nat.one_mul, Nat.mul_comm] at hlt
    omega
  · rintro ⟨hx, i, rfl⟩
    refine ⟨i, ?_, rfl⟩
    have hlt : i + 1 ≤ (stop - start + step - 1) / step := by
      rw [Nat.le_div_iff_mul_le hs, Nat.add_mul, Nat.one_mul, Nat.mul_comm]
      omega
    exact hlt

theorem length_loop (start stop step : Nat) : (loop start stop step).length = (stop - start + step - 1) / step :=
  List.length_range'

theorem length_turns {ι α : Type} {l : List ι} {f : ι → List α} {a : Nat} (h : ∀ i ∈ l, (f i).length = a) :
    (l.flatMap f).length = l.length * a := by
  induction l with
  | nil => exact (Nat.zero_mul a).symm
  | cons i l ih =>
    rw [List.flatMap_cons, List.length_append, h i List.mem_cons_self, ih (fun j hj => h j (List.mem_cons_of_mem i hj)),
      List.length_cons, Nat.succ_mul, Nat.add_comm]

/-- What a turn has left, when all turns leave the same number. -/
theorem getElem?_turns {ι α : Type} {l : List ι} {f : ι → List α} {a i j : Nat}
    (h : ∀ x ∈ l, (f x).length = a) (hj : j < a) :
    (l.flatMap f)[i * a + j]? = l[i]?.bind fun x => (f x)[j]? := by
  induction l generalizing i with
  | nil => rfl
  | cons x l ih =>
    have hx := h x List.mem_cons_self
    rw [List.flatMap_cons]
    cases i with
    | zero =>
      rw [Nat.zero_mul, Nat.zero_add, List.getElem?_append_left (by omega)]
      rfl
    | succ i =>
      have hge : (f x).length ≤ (i + 1) * a + j := by
        rw [hx, Nat.succ_mul]
        omega
      rw [List.getElem?_append_right hge, hx, show (i + 1) * a + j - a = i * a + j by rw [Nat.succ_mul]; omega]
      exact ih fun y hy => h y (List.mem_cons_of_mem x hy)

theorem loop_succ (w : Nat) : loop 0 (w + 1) 1 = loop 0 w 1 ++ [w] := by
  simp [loop, List.range'_concat]

/-- A loop whose odd turns do more. -/
theorem length_oddTurns {α : Type} {w a b : Nat} {f : Nat → List α}
    (h : ∀ x < w, (f x).length = a + if x % 2 = 1 then b else 0) :
    ((loop 0 w 1).flatMap f).length = w * a + w / 2 * b := by
  induction w with
  | zero => simp [loop]
  | succ w ih =>
    rw [loop_succ, List.flatMap_append, List.length_append, ih (fun x hx => h x (by omega)), List.flatMap_singleton,
      h w (by omega)]
    by_cases hodd : w % 2 = 1
    · rw [if_pos hodd, show (w + 1) / 2 = w / 2 + 1 by omega]
      ring
    · rw [if_neg hodd, show (w + 1) / 2 = w / 2 by omega]
      ring

/-- The stores of a loop whose turns may fail. -/
def concatM {ι α : Type} (f : ι → Option (List α)) : List ι → Option (List α)
  | [] => some []
  | i :: l => do
    let first ← f i
    let rest ← concatM f l
    return first ++ rest

theorem concatM_eq {ι α : Type} {f : ι → Option (List α)} {g : ι → List α} {l : List ι} (h : ∀ i ∈ l, f i = some (g i)) :
    concatM f l = some (l.flatMap g) := by
  induction l with
  | nil => rfl
  | cons i l ih =>
    rw [concatM, h i List.mem_cons_self, ih (fun j hj => h j (List.mem_cons_of_mem i hj))]
    rfl

theorem length_concatM {ι α : Type} {f : ι → Option (List α)} {l : List ι} {n : Nat} {log : List α}
    (h : ∀ i ∈ l, ∀ a, f i = some a → a.length = n) (hlog : concatM f l = some log) : log.length = l.length * n := by
  induction l generalizing log with
  | nil =>
    obtain rfl := Option.some.inj hlog
    exact (Nat.zero_mul n).symm
  | cons i l ih =>
    simp only [concatM, Option.bind_eq_bind, Option.bind_eq_some_iff] at hlog
    obtain ⟨first, hfirst, rest, hrest, heq⟩ := hlog
    obtain rfl := Option.some.inj heq
    rw [List.length_append, h i List.mem_cons_self first hfirst, ih (fun j hj => h j (List.mem_cons_of_mem i hj)) hrest,
      List.length_cons, Nat.succ_mul, Nat.add_comm]

/-! ## Rows one after another -/

theorem rowMajor_lt {w h x y : Nat} (hx : x < w) (hy : y < h) : y * w + x < w * h := by
  calc y * w + x < y * w + w := by omega
    _ = (y + 1) * w := by ring
    _ ≤ h * w := Nat.mul_le_mul_right w hy
    _ = w * h := Nat.mul_comm h w

theorem rowMajor_inj {w x y x' y' : Nat} (hx : x < w) (hx' : x' < w) (h : y * w + x = y' * w + x') :
    x = x' ∧ y = y' := by
  have hy : y = y' := by
    have hdiv := congrArg (· / w) h
    simp only [Nat.add_comm (_ * w), Nat.add_mul_div_right _ _ (by omega : 0 < w), Nat.div_eq_of_lt hx,
      Nat.div_eq_of_lt hx', Nat.zero_add] at hdiv
    exact hdiv
  subst hy
  exact ⟨by omega, rfl⟩

theorem rowMajor_surj {w h k : Nat} (hk : k < w * h) : ∃ x y, x < w ∧ y < h ∧ y * w + x = k := by
  have hw : 0 < w := Nat.pos_of_mul_pos_right (Nat.zero_lt_of_lt hk)
  refine ⟨k % w, k / w, Nat.mod_lt _ hw, Nat.div_lt_of_lt_mul hk, ?_⟩
  rw [Nat.mul_comm]
  exact Nat.div_add_mod k w

/-! ## Pictures -/

/-- The two buffers. -/
inductive Out where
  | rgb
  | i420
  deriving DecidableEq, Repr

/-- What a byte of the picture is. -/
inductive Cell where
  | rgb (x y channel : Nat)
  | luma (x y : Nat)
  | u (x y : Nat)
  | v (x y : Nat)
  deriving DecidableEq, Repr

/-- What the bytes that are stored together are about. -/
inductive Place where
  | rgb (x y : Nat)
  | luma (x y : Nat)
  | chroma (x y : Nat)
  deriving DecidableEq, Repr

def Cell.place : Cell → Place
  | .rgb x y _ => .rgb x y
  | .luma x y => .luma x y
  | .u x y | .v x y => .chroma x y

/-- The size of the picture, and the forms of it that are asked for. -/
structure Canvas where
  width : Nat
  height : Nat
  i420 : Bool
  rgb : Bool

variable {s : Canvas}

def Cell.On (s : Canvas) : Cell → Prop
  | .rgb x y channel => s.rgb = true ∧ x < s.width ∧ y < s.height ∧ channel < 3
  | .luma x y => s.i420 = true ∧ x < s.width ∧ y < s.height
  | .u x y | .v x y => s.i420 = true ∧ x < s.width / 2 ∧ y < s.height / 2

/-- Where the byte lies. -/
def Cell.at (s : Canvas) : Cell → Out × Nat
  | .rgb x y channel => (.rgb, (y * s.width + x) * 3 + channel)
  | .luma x y => (.i420, y * s.width + x)
  | .u x y => (.i420, s.width * s.height + (y * (s.width / 2) + x))
  | .v x y => (.i420, s.width * s.height + s.width / 2 * (s.height / 2) + (y * (s.width / 2) + x))

/-- How many bytes of a buffer the picture takes. -/
def Canvas.size (s : Canvas) : Out → Nat
  | .rgb => if s.rgb = true then s.width * s.height * 3 else 0
  | .i420 => if s.i420 = true then s.width * s.height + 2 * (s.width / 2 * (s.height / 2)) else 0

theorem Cell.at_inj {c d : Cell} (hc : c.On s) (hd : d.On s) (h : c.at s = d.at s) : c = d := by
  cases c with
  | rgb x y k =>
    cases d with
    | rgb x' y' k' =>
      simp only [Cell.at, Prod.mk.injEq, true_and] at h
      obtain ⟨rfl, hxy⟩ := rowMajor_inj hc.2.2.2 hd.2.2.2 h
      obtain ⟨rfl, rfl⟩ := rowMajor_inj hc.2.1 hd.2.1 hxy
      rfl
    | luma _ _ | u _ _ | v _ _ => simp [Cell.at] at h
  | luma x y =>
    have hlt := rowMajor_lt hc.2.1 hc.2.2
    cases d with
    | luma x' y' =>
      simp only [Cell.at, Prod.mk.injEq, true_and] at h
      obtain ⟨rfl, rfl⟩ := rowMajor_inj hc.2.1 hd.2.1 h
      rfl
    | rgb _ _ _ => simp [Cell.at] at h
    | u _ _ | v _ _ =>
      simp only [Cell.at, Prod.mk.injEq, true_and] at h
      omega
  | u x y =>
    have hlt := rowMajor_lt hc.2.1 hc.2.2
    cases d with
    | u x' y' =>
      simp only [Cell.at, Prod.mk.injEq, true_and] at h
      obtain ⟨rfl, rfl⟩ := rowMajor_inj hc.2.1 hd.2.1 (Nat.add_left_cancel h)
      rfl
    | rgb _ _ _ => simp [Cell.at] at h
    | luma x' y' =>
      have hlt' := rowMajor_lt hd.2.1 hd.2.2
      simp only [Cell.at, Prod.mk.injEq, true_and] at h
      omega
    | v _ _ =>
      simp only [Cell.at, Prod.mk.injEq, true_and] at h
      omega
  | v x y =>
    cases d with
    | v x' y' =>
      simp only [Cell.at, Prod.mk.injEq, true_and] at h
      obtain ⟨rfl, rfl⟩ := rowMajor_inj hc.2.1 hd.2.1 (Nat.add_left_cancel h)
      rfl
    | rgb _ _ _ => simp [Cell.at] at h
    | luma x' y' =>
      have hlt' := rowMajor_lt hd.2.1 hd.2.2
      simp only [Cell.at, Prod.mk.injEq, true_and] at h
      omega
    | u x' y' =>
      have hlt' := rowMajor_lt hd.2.1 hd.2.2
      simp only [Cell.at, Prod.mk.injEq, true_and] at h
      omega

theorem Cell.at_lt {c : Cell} (hc : c.On s) : (c.at s).2 < s.size (c.at s).1 := by
  cases c with
  | rgb x y k =>
    obtain ⟨hr, hx, hy, hk⟩ := hc
    have hlt := rowMajor_lt hx hy
    simp only [Cell.at, Canvas.size, hr, if_true]
    omega
  | luma x y | u x y | v x y =>
    have hlt := rowMajor_lt hc.2.1 hc.2.2
    simp only [Cell.at, Canvas.size, hc.1, if_true]
    omega

/-- Every byte of the picture is about something. -/
theorem exists_cell {o : Out} {k : Nat} (hk : k < s.size o) : ∃ c : Cell, c.On s ∧ c.at s = (o, k) := by
  cases o with
  | rgb =>
    simp only [Canvas.size] at hk
    split at hk
    · obtain ⟨x, y, hx, hy, hxy⟩ := rowMajor_surj (show k / 3 < s.width * s.height by omega)
      refine ⟨.rgb x y (k % 3), ⟨‹_›, hx, hy, Nat.mod_lt _ (by omega)⟩, ?_⟩
      simp only [Cell.at, hxy, Prod.mk.injEq, true_and]
      omega
    · omega
  | i420 =>
    simp only [Canvas.size] at hk
    split at hk
    · rename_i hi
      by_cases hluma : k < s.width * s.height
      · obtain ⟨x, y, hx, hy, hxy⟩ := rowMajor_surj hluma
        exact ⟨.luma x y, ⟨hi, hx, hy⟩, by simp only [Cell.at, hxy]⟩
      by_cases hu : k - s.width * s.height < s.width / 2 * (s.height / 2)
      · obtain ⟨x, y, hx, hy, hxy⟩ := rowMajor_surj hu
        refine ⟨.u x y, ⟨hi, hx, hy⟩, ?_⟩
        simp only [Cell.at, hxy, Prod.mk.injEq, true_and]
        omega
      · obtain ⟨x, y, hx, hy, hxy⟩ :=
          rowMajor_surj (show k - s.width * s.height - s.width / 2 * (s.height / 2) < s.width / 2 * (s.height / 2) by omega)
        refine ⟨.v x y, ⟨hi, hx, hy⟩, ?_⟩
        simp only [Cell.at, hxy, Prod.mk.injEq, true_and]
        omega
    · omega

/-! ## Drawing -/

variable {β : Type}

/-- The stores are bytes of the places `P`, and leave those as in `pic`. -/
structure Puts (s : Canvas) (log : List ((Out × Nat) × β)) (P : Set Place) (pic : Cell → β) : Prop where
  stores : ∀ p ∈ log, ∃ c : Cell, c.On s ∧ c.place ∈ P ∧ p.1 = c.at s
  shows : ∀ c : Cell, c.On s → c.place ∈ P → after log (c.at s) = some (pic c)

/-- `p[0] = r; p[1] = g; p[2] = b;`. -/
def putRgb (base : Nat) (r g b : β) : List ((Out × Nat) × β) :=
  [((.rgb, base), r), ((.rgb, base + 1), g), ((.rgb, base + 2), b)]

def putI420 (k : Nat) (v : β) : List ((Out × Nat) × β) := [((.i420, k), v)]

section Rules

variable {log a b : List ((Out × Nat) × β)} {P Q : Set Place} {pic pic₁ pic₂ : Cell → β}

/-- Only the places on the canvas count. -/
theorem Puts.congr (h : Puts s log P pic₁) (hP : ∀ c : Cell, c.On s → (c.place ∈ P ↔ c.place ∈ Q))
    (hpic : ∀ c : Cell, c.On s → c.place ∈ Q → pic₁ c = pic₂ c) : Puts s log Q pic₂ where
  stores p hp := by
    obtain ⟨c, hc, hcP, heq⟩ := h.stores p hp
    exact ⟨c, hc, (hP c hc).1 hcP, heq⟩
  shows c hc hcQ := by rw [h.shows c hc ((hP c hc).2 hcQ), hpic c hc hcQ]

theorem puts_nil (hP : ∀ c : Cell, c.On s → c.place ∉ P) : Puts s [] P pic :=
  ⟨fun _ hp => absurd hp List.not_mem_nil, fun c hc hcP => absurd hcP (hP c hc)⟩

theorem Puts.after_none (h : Puts s log P pic) {c : Cell} (hc : c.On s) (hcP : c.place ∉ P) :
    after log (c.at s) = none := by
  refine after_eq_none.2 (fun p hp heq => ?_)
  obtain ⟨d, hd, hdP, hpd⟩ := h.stores p hp
  obtain rfl := Cell.at_inj hc hd (heq.symm.trans hpd)
  exact hcP hdP

/-- What is drawn later stands over what was drawn before. -/
theorem Puts.over (ha : Puts s a P pic₁) (hb : Puts s b Q pic₂)
    (hpic₁ : ∀ c : Cell, c.On s → c.place ∈ P → c.place ∉ Q → pic₁ c = pic c)
    (hpic₂ : ∀ c : Cell, c.On s → c.place ∈ Q → pic₂ c = pic c) : Puts s (a ++ b) (P ∪ Q) pic where
  stores p hp := by
    rcases List.mem_append.1 hp with hp | hp
    · obtain ⟨c, hc, hcP, heq⟩ := ha.stores p hp
      exact ⟨c, hc, .inl hcP, heq⟩
    · obtain ⟨c, hc, hcQ, heq⟩ := hb.stores p hp
      exact ⟨c, hc, .inr hcQ, heq⟩
  shows c hc hcPQ := by
    rw [after_append]
    by_cases hcQ : c.place ∈ Q
    · rw [hb.shows c hc hcQ, Option.some_or, hpic₂ c hc hcQ]
    · have hcP := hcPQ.resolve_right hcQ
      rw [hb.after_none hc hcQ, Option.none_or, ha.shows c hc hcP, hpic₁ c hc hcP hcQ]

theorem Puts.append (ha : Puts s a P pic) (hb : Puts s b Q pic) : Puts s (a ++ b) (P ∪ Q) pic :=
  ha.over hb (fun _ _ _ _ => rfl) (fun _ _ _ => rfl)

/-- A loop draws what its turns draw. -/
theorem Puts.flatMap {ι : Type} {l : List ι} {f : ι → List ((Out × Nat) × β)} {P : ι → Set Place}
    (h : ∀ i ∈ l, Puts s (f i) (P i) pic) : Puts s (l.flatMap f) {p | ∃ i ∈ l, p ∈ P i} pic := by
  induction l with
  | nil => exact puts_nil (by simp)
  | cons i l ih =>
    have hrest := ih (fun j hj => h j (List.mem_cons_of_mem i hj))
    refine ((h i List.mem_cons_self).append hrest).congr (fun c _ => ?_) (fun _ _ _ => rfl)
    simp [List.mem_cons]

/-- A loop of which no turn fails. -/
theorem Puts.concatM {ι : Type} {l : List ι} {f : ι → Option (List ((Out × Nat) × β))} {P : ι → Set Place}
    (h : ∀ i ∈ l, ∃ log, f i = some log ∧ Puts s log (P i) pic) :
    ∃ log, concatM f l = some log ∧ Puts s log {p | ∃ i ∈ l, p ∈ P i} pic := by
  have hget : ∀ i ∈ l, f i = some ((f i).getD []) := by
    intro i hi
    obtain ⟨log, hlog, -⟩ := h i hi
    rw [hlog]
    rfl
  refine ⟨_, concatM_eq hget, Puts.flatMap fun i hi => ?_⟩
  obtain ⟨log, hlog, hputs⟩ := h i hi
  rw [hlog]
  exact hputs

/-- A loop over the lanes of a vector. -/
theorem Puts.lanes {n : Nat} {f : Fin n → List ((Out × Nat) × β)} {P : Fin n → Set Place}
    (h : ∀ i, Puts s (f i) (P i) pic) : Puts s ((List.finRange n).flatMap f) {p | ∃ i, p ∈ P i} pic := by
  simpa using Puts.flatMap (l := List.finRange n) fun i _ => h i

/-- A loop from 0 on with steps of `k`. -/
theorem Puts.steps {w k : Nat} {f : Nat → List ((Out × Nat) × β)} {P : Nat → Set Place} (hk : 0 < k)
    (hf : ∀ x, k * x < w → Puts s (f (k * x)) (P x) pic) :
    Puts s ((loop 0 w k).flatMap f) {p | ∃ x, k * x < w ∧ p ∈ P x} pic := by
  have hturn : ∀ x ∈ loop 0 w k, Puts s (f x) (P (x / k)) pic := by
    intro x hx
    obtain ⟨hxw, i, rfl⟩ := (mem_loop hk).1 hx
    rw [Nat.zero_add] at hxw ⊢
    rw [Nat.mul_div_cancel_left _ hk]
    exact hf i hxw
  refine (Puts.flatMap hturn).congr (fun c _ => ?_) (fun _ _ _ => rfl)
  simp only [Set.mem_ofPred_eq, mem_loop hk, Nat.zero_add]
  constructor
  · rintro ⟨_, ⟨hxw, i, rfl⟩, hc⟩
    rw [Nat.mul_div_cancel_left _ hk] at hc
    exact ⟨i, hxw, hc⟩
  · rintro ⟨i, hxw, hc⟩
    exact ⟨k * i, ⟨hxw, i, rfl⟩, by rwa [Nat.mul_div_cancel_left _ hk]⟩

/-- Two nested loops with steps of `k`. -/
theorem Puts.loops {w h k : Nat} {f : Nat → Nat → List ((Out × Nat) × β)} {P : Nat → Nat → Set Place} (hk : 0 < k)
    (hf : ∀ x y, k * x < w → k * y < h → Puts s (f (k * y) (k * x)) (P x y) pic) :
    Puts s ((loop 0 h k).flatMap fun y => (loop 0 w k).flatMap fun x => f y x)
      {p | ∃ x y, k * x < w ∧ k * y < h ∧ p ∈ P x y} pic := by
  refine (Puts.steps hk fun y hy => Puts.steps hk fun x hx => hf x y hx hy).congr (fun c _ => ?_) (fun _ _ _ => rfl)
  constructor
  · rintro ⟨y, hy, x, hx, hc⟩
    exact ⟨x, y, hx, hy, hc⟩
  · rintro ⟨x, y, hx, hy, hc⟩
    exact ⟨y, hy, x, hx, hc⟩

/-- Two nested loops over all pixels. -/
theorem Puts.pixels {w h : Nat} {f : Nat → Nat → List ((Out × Nat) × β)} {P : Nat → Nat → Set Place}
    (hf : ∀ x y, x < w → y < h → Puts s (f y x) (P x y) pic) :
    Puts s ((loop 0 h 1).flatMap fun y => (loop 0 w 1).flatMap fun x => f y x)
      {p | ∃ x y, x < w ∧ y < h ∧ p ∈ P x y} pic := by
  have h₁ : ∀ x y, 1 * x < w → 1 * y < h → Puts s (f (1 * y) (1 * x)) (P x y) pic := by simpa using hf
  simpa using Puts.loops Nat.one_pos h₁

/-- A vector loop with `n` columns a turn, and a loop for the columns that are left. -/
theorem Puts.vectorTail {w n : Nat} {f g : Nat → List ((Out × Nat) × β)} {P : Nat → Set Place} {l : List Nat}
    (hl : l = [] ∨ (0 < n ∧ l = loop 0 (w + 1 - n) n))
    (hf : ∀ x, n * x + n ≤ w → Puts s (f (n * x)) {p | ∃ i < n, p ∈ P (n * x + i)} pic)
    (hg : ∀ x < w, Puts s (g x) (P x) pic) :
    Puts s (l.flatMap f ++ (loop (n * l.length) w 1).flatMap g) {p | ∃ x < w, p ∈ P x} pic := by
  have hturn : ∀ x ∈ l, x + n ≤ w ∧ ∃ i < l.length, x = n * i := by
    intro x hx
    rcases hl with rfl | ⟨hn, rfl⟩
    · cases hx
    · obtain ⟨hlt, i, rfl⟩ := (mem_loop hn).1 hx
      rw [Nat.zero_add] at hlt ⊢
      refine ⟨by omega, i, ?_, rfl⟩
      rw [length_loop, Nat.lt_iff_add_one_le, Nat.le_div_iff_mul_le hn, Nat.add_mul, Nat.mul_comm i, Nat.one_mul]
      omega
  have hcover : ∀ i < l.length, n * i ∈ l := by
    intro i hi
    rcases hl with rfl | ⟨hn, rfl⟩
    · cases hi
    · refine (mem_loop hn).2 ⟨?_, i, (Nat.zero_add _).symm⟩
      rw [length_loop, Nat.lt_iff_add_one_le, Nat.le_div_iff_mul_le hn, Nat.add_mul, Nat.mul_comm i, Nat.one_mul] at hi
      omega
  have hvec : Puts s (l.flatMap f) {p | ∃ x ∈ l, ∃ i < n, p ∈ P (x + i)} pic := by
    refine Puts.flatMap (P := fun x => {p | ∃ i < n, p ∈ P (x + i)}) (fun x hx => ?_)
    obtain ⟨hxw, i, -, rfl⟩ := hturn x hx
    exact hf i hxw
  have htail := Puts.flatMap (l := loop (n * l.length) w 1) fun x hx => hg x (mem_loop_one.1 hx).2
  refine (hvec.append htail).congr (fun c _ => ?_) (fun _ _ _ => rfl)
  constructor
  · rintro (⟨x, hx, i, hi, hc⟩ | ⟨x, hx, hc⟩)
    · exact ⟨x + i, by have := (hturn x hx).1; omega, hc⟩
    · exact ⟨x, (mem_loop_one.1 hx).2, hc⟩
  · rintro ⟨x, hx, hc⟩
    by_cases hlt : x < n * l.length
    · have hn : 0 < n := Nat.pos_of_mul_pos_right (Nat.zero_lt_of_lt hlt)
      refine .inl ⟨n * (x / n), hcover _ (Nat.div_lt_of_lt_mul hlt), x % n, Nat.mod_lt _ hn, ?_⟩
      rwa [Nat.div_add_mod]
    · exact .inr ⟨x, mem_loop_one.2 ⟨by omega, hx⟩, hc⟩

/-- Stores of some bytes, each as it is in the picture. -/
theorem puts_cells (cs : List Cell) (hon : ∀ c ∈ cs, c.On s) (hP : ∀ c : Cell, c.On s → (c.place ∈ P ↔ c ∈ cs)) :
    Puts s (cs.map fun c => (c.at s, pic c)) P pic where
  stores p hp := by
    obtain ⟨c, hc, rfl⟩ := List.mem_map.1 hp
    exact ⟨c, hon c hc, (hP c (hon c hc)).2 hc, rfl⟩
  shows c hc hcP := by
    refine after_of_agree (List.mem_map.2 ⟨c, (hP c hc).1 hcP, rfl⟩) (fun p hp heq => ?_)
    obtain ⟨d, hd, rfl⟩ := List.mem_map.1 hp
    rw [Cell.at_inj (hon d hd) hc heq]

/-- The three bytes of a pixel. -/
theorem puts_rgb {x y base : Nat} {r g b : β} (hx : x < s.width) (hy : y < s.height) (hbase : base = (y * s.width + x) * 3)
    (hr : r = pic (.rgb x y 0)) (hg : g = pic (.rgb x y 1)) (hb : b = pic (.rgb x y 2)) (hs : s.rgb = true) :
    Puts s (putRgb base r g b) {.rgb x y} pic := by
  subst hbase hr hg hb
  apply puts_cells [.rgb x y 0, .rgb x y 1, .rgb x y 2]
  · simp [Cell.On, hs, hx, hy]
  · rintro c hc
    cases c with
    | rgb x' y' k =>
      have hk := hc.2.2.2
      have hk : k = 0 ∨ k = 1 ∨ k = 2 := by omega
      rcases hk with rfl | rfl | rfl <;> simp [Cell.place]
    | luma _ _ | u _ _ | v _ _ => simp [Cell.place]

theorem puts_luma {x y k : Nat} {v : β} (hx : x < s.width) (hy : y < s.height) (hk : k = y * s.width + x)
    (hv : v = pic (.luma x y)) (hs : s.i420 = true) : Puts s (putI420 k v) {.luma x y} pic := by
  subst hk hv
  apply puts_cells [.luma x y]
  · simp [Cell.On, hs, hx, hy]
  · rintro c -
    cases c <;> simp [Cell.place]

theorem puts_chroma {x y k k' : Nat} {u v : β} (hx : x < s.width / 2) (hy : y < s.height / 2)
    (hk : k = s.width * s.height + (y * (s.width / 2) + x))
    (hk' : k' = s.width * s.height + s.width / 2 * (s.height / 2) + (y * (s.width / 2) + x))
    (hu : u = pic (.u x y)) (hv : v = pic (.v x y)) (hs : s.i420 = true) :
    Puts s (putI420 k u ++ putI420 k' v) {.chroma x y} pic := by
  subst hk hk' hu hv
  apply puts_cells [.u x y, .v x y]
  · simp [Cell.On, hs, hx, hy]
  · rintro c -
    cases c <;> simp [Cell.place]

/-- A part that is not always drawn. -/
theorem Puts.when {q : Prop} [Decidable q] (h : q → Puts s log P pic) :
    Puts s (if q then log else []) {p | p ∈ P ∧ q} pic := by
  by_cases hq : q
  · rw [if_pos hq]
    exact (h hq).congr (fun c _ => ⟨fun hc => ⟨hc, hq⟩, And.left⟩) (fun _ _ _ => rfl)
  · rw [if_neg hq]
    exact puts_nil (fun c _ hc => hq hc.2)

/-- `if (rgb)`. -/
theorem Puts.ifRgb {rgb : Bool} (hs : s.rgb = rgb) (h : s.rgb = true → Puts s log P pic)
    (hluma : ∀ x y, .luma x y ∉ P) (hchroma : ∀ x y, .chroma x y ∉ P) : Puts s (if rgb then log else []) P pic := by
  subst hs
  by_cases hr : s.rgb = true
  · rw [if_pos hr]
    exact h hr
  · rw [if_neg hr]
    refine puts_nil (fun c hc hcP => ?_)
    cases c with
    | rgb _ _ _ => exact hr hc.1
    | luma x y => exact hluma x y hcP
    | u x y | v x y => exact hchroma x y hcP

/-- `if (i420)`. -/
theorem Puts.ifI420 {i420 : Bool} (hs : s.i420 = i420) (h : s.i420 = true → Puts s log P pic)
    (hP : ∀ x y, .rgb x y ∉ P) : Puts s (if i420 then log else []) P pic := by
  subst hs
  by_cases hi : s.i420 = true
  · rw [if_pos hi]
    exact h hi
  · rw [if_neg hi]
    refine puts_nil (fun c hc hcP => ?_)
    cases c with
    | rgb x y _ => exact hP x y hcP
    | luma _ _ | u _ _ | v _ _ => exact hi hc.1

end Rules

/-! ## Whole pictures -/

/-- The stores are those of the whole picture. -/
def Draws (s : Canvas) (log : List ((Out × Nat) × β)) (pic : Cell → β) : Prop := Puts s log Set.univ pic

variable {log log' : List ((Out × Nat) × β)} {pic pic' : Cell → β}

theorem Puts.draws {P : Set Place} (h : Puts s log P pic) (hP : ∀ c : Cell, c.On s → c.place ∈ P) : Draws s log pic :=
  h.congr (fun c hc => iff_of_true (hP c hc) trivial) (fun _ _ _ => rfl)

theorem Draws.shows (h : Draws s log pic) {c : Cell} (hc : c.On s) : after log (c.at s) = some (pic c) :=
  Puts.shows h c hc trivial

/-- Every byte asked for is written, and no other. -/
theorem Draws.isSome_iff (h : Draws s log pic) (o : Out) (k : Nat) : (after log (o, k)).isSome ↔ k < s.size o := by
  constructor
  · intro hsome
    obtain ⟨v, hv⟩ := Option.isSome_iff_exists.1 hsome
    obtain ⟨p, hp, hpk⟩ := mem_of_after hv
    obtain ⟨c, hc, -, hpc⟩ := Puts.stores h p hp
    have hlt := Cell.at_lt hc
    rw [← hpc, hpk] at hlt
    exact hlt
  · intro hk
    obtain ⟨c, hc, hck⟩ := exists_cell hk
    rw [← hck, h.shows hc]
    rfl

/-- Every byte of the two buffers. -/
def Canvas.offsets (s : Canvas) : List (Out × Nat) :=
  (List.range (s.size .rgb)).map (Prod.mk .rgb) ++ (List.range (s.size .i420)).map (Prod.mk .i420)

theorem mem_offsets {o : Out} {k : Nat} : (o, k) ∈ s.offsets ↔ k < s.size o := by
  cases o <;> simp [Canvas.offsets]

theorem nodup_offsets (s : Canvas) : s.offsets.Nodup := by
  refine List.Nodup.append ?_ ?_ ?_
  · exact List.nodup_range.map (Prod.mk_right_injective _)
  · exact List.nodup_range.map (Prod.mk_right_injective _)
  · simp [List.disjoint_left]

theorem length_offsets (s : Canvas) : s.offsets.length = s.size .rgb + s.size .i420 := by
  simp [Canvas.offsets]

/-- With no more stores than bytes, each is written once. -/
theorem Draws.once (h : Draws s log pic) (hlen : log.length ≤ s.size .rgb + s.size .i420) (o : Out) (k : Nat) :
    (log.map Prod.fst).count (o, k) = if k < s.size o then 1 else 0 := by
  have hsub : s.offsets ⊆ log.map Prod.fst := by
    rintro ⟨o, k⟩ hk
    obtain ⟨v, hv⟩ := Option.isSome_iff_exists.1 ((h.isSome_iff o k).2 (mem_offsets.1 hk))
    obtain ⟨p, hp, hpk⟩ := mem_of_after hv
    exact List.mem_map.2 ⟨p, hp, hpk⟩
  have hperm : s.offsets.Perm (log.map Prod.fst) := by
    apply (List.subperm_of_subset (nodup_offsets s) hsub).perm_of_length_le
    rw [List.length_map, length_offsets]
    exact hlen
  rw [← hperm.count_eq, (nodup_offsets s).count]
  simp only [mem_offsets]

/-- Two routines that draw the same canvas leave the same memory just when their pictures are the same. -/
theorem Draws.same_iff (h : Draws s log pic) (h' : Draws s log' pic') :
    (∀ k, after log k = after log' k) ↔ ∀ c : Cell, c.On s → pic c = pic' c := by
  constructor
  · intro hsame c hc
    have heq := hsame (c.at s)
    rw [h.shows hc, h'.shows hc] at heq
    exact Option.some.inj heq
  · rintro hpic ⟨o, k⟩
    by_cases hk : k < s.size o
    · obtain ⟨c, hc, hck⟩ := exists_cell hk
      rw [← hck, h.shows hc, h'.shows hc, hpic c hc]
    · have hnone := mt (h.isSome_iff o k).1 hk
      have hnone' := mt (h'.isSome_iff o k).1 hk
      rw [Option.not_isSome_iff_eq_none] at hnone hnone'
      rw [hnone, hnone']

end Raster
