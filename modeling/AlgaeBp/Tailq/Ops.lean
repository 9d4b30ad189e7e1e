import AlgaeBp.Tailq.Shape
/-!
# The operations

A queue is `a ++ b` around the pointer an element is put in at, and
`a ++ x :: b` around an element that is there.
-/

namespace AlgaeBp.Tailq

variable {ι α : Type} {h h' : Heap ι α} {s s' e : Loc ι α} {x y w z : α} {l a b m m' : List α} {q q' : ι} {v : Option α}

/-! ## Around a pointer -/

@[simp] theorem tqeNext_eq (h : Heap ι α) (x : α) : h.tqeNext x = h.get (.next x) := rfl
@[simp] theorem tqhFirst_eq (h : Heap ι α) (q : ι) : h.tqhFirst q = h.get (.first q) := rfl

theorem Queue.get_ending (hq : Queue h q (a ++ b)) : h.get (ending (.first q) a) = b.head? := by
  cases b with
  | nil =>
    have hnull := hq.null
    rwa [List.append_nil] at hnull
  | cons z b => exact (links_append.1 hq.links).2.1

theorem Queue.prev_head (hq : Queue h q (a ++ x :: b)) : h.tqePrev x = ending (.first q) a := (links_append.1 hq.links).2.2.1

theorem Queue.get_next (hq : Queue h q (a ++ x :: b)) : h.get (.next x) = b.head? := by
  have hq' : Queue h q ((a ++ [x]) ++ b) := by simpa using hq
  have hget := hq'.get_ending
  rwa [ending_append] at hget

/-- An element that is not in a queue is not what a queue ends with. -/
theorem ending_ne_next (hx : x ∉ a) : ending (.first q) a ≠ .next x := by
  intro heq
  rcases mem_slots.1 (ending_mem (s := Loc.first q) (l := a)) with h₁ | ⟨y, hy, h₁⟩
  · rw [h₁] at heq
    cases heq
  · rw [h₁] at heq
    obtain rfl := Loc.next.inj heq
    exact hx hy

/-! ## Writes -/

section

variable [DecidableEq ι]

@[simp] theorem get_setLast : (h.setLast q s).get s' = h.get s' := by cases s' <;> rfl
@[simp] theorem tqePrev_setLast : (h.setLast q s).tqePrev = h.tqePrev := rfl

theorem tqhLast_setLast : (h.setLast q s).tqhLast q' = if q' = q then s else h.tqhLast q' := by
  simp [Heap.setLast, Function.update_apply]

end

section

variable [DecidableEq α]

@[simp] theorem get_setPrev : (h.setPrev x s).get s' = h.get s' := by cases s' <;> rfl
@[simp] theorem tqhLast_setPrev : (h.setPrev x s).tqhLast = h.tqhLast := rfl

theorem tqePrev_setPrev : (h.setPrev x s).tqePrev w = if w = x then s else h.tqePrev w := by
  simp [Heap.setPrev, Function.update_apply]

end

variable [DecidableEq ι] [DecidableEq α]

theorem get_put : (h.put s v).get s' = if s' = s then v else h.get s' := by
  cases s <;> cases s' <;> simp [Heap.put, Heap.get, Function.update_apply, -tqeNext_eq, -tqhFirst_eq]

@[simp] theorem get_relink : (relink h q v s).get s' = h.get s' := by cases v <;> simp [relink]
@[simp] theorem tqePrev_put : (h.put s v).tqePrev = h.tqePrev := by cases s <;> rfl
@[simp] theorem tqhLast_put : (h.put s v).tqhLast = h.tqhLast := by cases s <;> rfl

theorem tqePrev_relink : (relink h q v s).tqePrev w = if v = some w then s else h.tqePrev w := by
  cases v with
  | none => simp [relink]
  | some x => simp [relink, tqePrev_setPrev, eq_comm]

theorem tqhLast_relink : (relink h q v s).tqhLast q' = if v = none ∧ q' = q then s else h.tqhLast q' := by
  cases v with
  | none => simp [relink, tqhLast_setLast]
  | some x => simp [relink]

/-! ## Putting in -/

/-- An element put in at the pointer `e`. -/
def insertAt (h : Heap ι α) (q : ι) (e : Loc ι α) (x : α) : Heap ι α :=
  let h := h.put (.next x) (h.get e)
  let h := relink h q (h.get (.next x)) (.next x)
  let h := h.put e (some x)
  h.setPrev x e

theorem insertAt_spliced (hq : Queue h q (a ++ b)) (hx : x ∉ a ∧ x ∉ b) :
    Spliced h (insertAt h q (ending (.first q) a) x) q (ending (.first q) a) [x] b := by
  have hget := hq.get_ending
  have hne : (.next x : Loc ι α) ≠ ending (.first q) a := Ne.symm (ending_ne_next hx.1)
  have hxz : ∀ z, b.head? = some z → z ≠ x := by
    rintro z hz rfl
    exact hx.2 (List.mem_of_head? hz)
  constructor
  case middle => simp [Links, insertAt, get_put, tqePrev_setPrev]
  case seam => simp [insertAt, get_put, hne, hget]
  case back =>
    intro z hz
    simp [insertAt, get_put, tqePrev_setPrev, tqePrev_relink, hget, hz, hxz z hz]
  case last_nil =>
    rintro rfl
    simp [insertAt, get_put, tqhLast_relink, hget]
  case last_cons =>
    intro hb
    simp [insertAt, get_put, tqhLast_relink, hget, hb]
  case get =>
    intro s hs hsx
    have hsx' : s ≠ .next x := by simpa [eq_comm] using hsx
    simp [insertAt, get_put, hs, hsx']
  case prev =>
    intro w hw hwb
    have hwx : w ≠ x := by simpa using hw
    simp [insertAt, get_put, tqePrev_setPrev, tqePrev_relink, hget, hwx, hwb]
  case others =>
    intro q' hq'
    simp [insertAt, tqhLast_relink, hq']

/-- `TAILQ_INSERT_TAIL` puts in at the last pointer. -/
theorem tailqInsertTail_eq (hnull : h.get (h.tqhLast q) = none) : tailqInsertTail h q x = insertAt h q (h.tqhLast q) x := by
  have hget : (h.put (.next x) none).get (.next x) = none := by simp [get_put]
  rw [insertAt, hnull, hget, tailqInsertTail]
  cases hl : h.tqhLast q <;> simp [relink, Heap.put, Heap.setPrev, Heap.setLast, hl, -tqeNext_eq, -tqhFirst_eq]

/-- `TAILQ_INSERT_BEFORE` puts in at the pointer to `y`. -/
theorem tailqInsertBefore_eq (hget : h.get (h.tqePrev y) = some y) (hxy : x ≠ y) :
    tailqInsertBefore h y x = insertAt h q (h.tqePrev y) x := by
  have hget' : (h.put (.next x) (some y)).get (.next x) = some y := by simp [get_put]
  have hprev (s : Loc ι α) : Function.update h.tqePrev x s y = h.tqePrev y := Function.update_of_ne (Ne.symm hxy) ..
  have hcomm (s t : Loc ι α) : Function.update (Function.update h.tqePrev x s) y t =
      Function.update (Function.update h.tqePrev y t) x s :=
    Function.update_comm hxy ..
  rw [insertAt, hget, hget', tailqInsertBefore]
  cases hl : h.tqePrev y <;> simp [relink, Heap.put, Heap.setPrev, hprev, hcomm, hl, -tqeNext_eq, -tqhFirst_eq]

/-! ## Taking out -/

theorem tailqRemove_spliced (hq : Queue h q (a ++ x :: b)) (hn : (a ++ x :: b).Nodup) :
    Spliced h (tailqRemove h q x) q (ending (.first q) a) [] b := by
  have hprev := hq.prev_head
  have hnext := hq.get_next
  have hxa : x ∉ a := fun hm => (List.nodup_append.1 hn).2.2 x hm x List.mem_cons_self rfl
  have hne : (.next x : Loc ι α) ≠ ending (.first q) a := Ne.symm (ending_ne_next hxa)
  have hxb : b.head? ≠ some x := by
    intro hz
    exact (List.nodup_cons.1 (List.nodup_append.1 hn).2.1).1 (List.mem_of_head? hz)
  have hprev' : (relink h q b.head? (ending (.first q) a)).tqePrev x = ending (.first q) a := by
    rw [tqePrev_relink, if_neg hxb, hprev]
  constructor
  case middle => trivial
  case seam => simp [tailqRemove, get_put, hnext, hprev, hprev']
  case back =>
    intro z hz
    simp [tailqRemove, tqePrev_relink, hnext, hprev, hz]
  case last_nil =>
    rintro rfl
    simp [tailqRemove, tqhLast_relink, hnext, hprev]
  case last_cons =>
    intro hb
    simp [tailqRemove, tqhLast_relink, hnext, hb]
  case get =>
    intro s hs _
    simp [tailqRemove, get_put, hnext, hprev, hprev', hs]
  case prev =>
    intro w _ hwb
    simp [tailqRemove, tqePrev_relink, hnext, hwb]
  case others =>
    intro q' hq'
    simp [tailqRemove, tqhLast_relink, hq']

theorem tailqReplace_spliced (hq : Queue h q (a ++ x :: b)) (hn : (a ++ x :: b).Nodup) (hy : y ∉ a ++ x :: b) :
    Spliced h (tailqReplace h q x y) q (ending (.first q) a) [y] b := by
  have hprev := hq.prev_head
  have hnext := hq.get_next
  simp only [List.mem_append, List.mem_cons, not_or] at hy
  obtain ⟨hya, hyx, hyb⟩ := hy
  have hne : (.next y : Loc ι α) ≠ ending (.first q) a := Ne.symm (ending_ne_next hya)
  have hxb : b.head? ≠ some x := by
    intro hz
    exact (List.nodup_cons.1 (List.nodup_append.1 hn).2.1).1 (List.mem_of_head? hz)
  have hzy : ∀ z, b.head? = some z → z ≠ y := by
    rintro z hz rfl
    exact hyb (List.mem_of_head? hz)
  constructor
  case middle => simp [Links, tailqReplace, get_put, tqePrev_setPrev, tqePrev_relink, hnext, hprev, hxb]
  case seam => simp [tailqReplace, get_put, tqePrev_setPrev, tqePrev_relink, hnext, hprev, hxb, hne]
  case back =>
    intro z hz
    simp [tailqReplace, get_put, tqePrev_setPrev, tqePrev_relink, hnext, hz, hzy z hz]
  case last_nil =>
    rintro rfl
    simp [tailqReplace, get_put, tqhLast_relink, hnext]
  case last_cons =>
    intro hb
    simp [tailqReplace, get_put, tqhLast_relink, hnext, hb]
  case get =>
    intro s hs hsy
    have hsy' : s ≠ .next y := by simpa [eq_comm] using hsy
    simp [tailqReplace, get_put, tqePrev_setPrev, tqePrev_relink, hnext, hprev, hxb, hs, hsy']
  case prev =>
    intro w hw hwb
    have hwy : w ≠ y := by simpa using hw
    simp [tailqReplace, get_put, tqePrev_setPrev, tqePrev_relink, hnext, hwy, hwb]
  case others =>
    intro q' hq'
    simp [tailqReplace, tqhLast_relink, hq']

end AlgaeBp.Tailq
