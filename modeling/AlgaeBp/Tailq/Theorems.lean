import AlgaeBp.Tailq.Lists
/-!
# Theorems about tail queues

`run_reads`: after any moves a program may make, each queue reads like the
list it should be, forwards, backwards and around each element. `moveOut_filters`
is about the loop that takes elements off while it walks, `notiQFind_spec` about
a search.
-/

namespace AlgaeBp.Tailq

variable {ι α : Type} {h h' : Heap ι α} {x y z w : α} {a b l : List α} {q q' : ι} {ls : ι → List α} {fuel : Nat}

/-! ## Reading -/

/-- The element before the pointer `ending (.first q) a`, by way of the entry or head it is the first field of. -/
theorem Queue.get_lastAt (hq : Queue h q (a ++ b)) : h.get (h.lastAt (ending (.first q) a)) = a.getLast? := by
  rcases List.eq_nil_or_concat' a with rfl | ⟨c, y, rfl⟩
  · change h.get (h.tqhLast q) = none
    rw [hq.last, hq.null]
  · rw [ending_append, List.getLast?_concat]
    rw [List.append_assoc] at hq
    change h.get (h.tqePrev y) = some y
    rw [hq.prev_head, hq.get_ending]
    rfl

theorem Queue.tailqFirst_eq (hq : Queue h q l) : tailqFirst h q = l.head? := hq.get_ending (a := [])

theorem Queue.tailqNext_eq (hq : Queue h q (a ++ x :: b)) : tailqNext h x = b.head? := hq.get_next

theorem Queue.tailqEmpty_eq (hq : Queue h q l) : tailqEmpty h q = l.isEmpty := by
  rw [tailqEmpty, hq.tailqFirst_eq]
  cases l <;> rfl

theorem Queue.tailqLast_eq (hq : Queue h q l) : tailqLast h q = l.getLast? := by
  rw [tailqLast, hq.last]
  exact Queue.get_lastAt (b := []) (by rwa [List.append_nil])

theorem Queue.tailqPrev_eq (hq : Queue h q (a ++ x :: b)) : tailqPrev h x = a.getLast? := by
  rw [tailqPrev, hq.prev_head]
  exact hq.get_lastAt

/-- A walk sees a list whose elements lead to each other. -/
theorem walk_eq {step : α → Option α} (hstep : ∀ a x b, l = a ++ x :: b → step x = b.head?) (hf : l.length ≤ fuel) :
    walk step fuel l.head? = some l := by
  induction l generalizing fuel with
  | nil => cases fuel <;> rfl
  | cons x l ih =>
    obtain ⟨fuel, rfl⟩ : ∃ n, fuel = n + 1 := ⟨fuel - 1, by rw [List.length_cons] at hf; omega⟩
    have hx : step x = l.head? := hstep [] x l rfl
    have hl : walk step fuel l.head? = some l := by
      refine ih (fun a y b heq => ?_) (by simpa using hf)
      exact hstep (x :: a) y b (by rw [heq, List.cons_append])
    rw [List.head?_cons, walk, hx, hl]
    rfl

theorem Queue.foreach_eq (hq : Queue h q l) (hf : l.length ≤ fuel) : tailqForeach fuel h q = some l := by
  rw [tailqForeach, hq.tailqFirst_eq]
  refine walk_eq ?_ hf
  rintro a x b rfl
  exact hq.tailqNext_eq

theorem Queue.foreachReverse_eq (hq : Queue h q l) (hf : l.length ≤ fuel) :
    tailqForeachReverse fuel h q = some l.reverse := by
  rw [tailqForeachReverse, hq.tailqLast_eq, ← List.head?_reverse]
  refine walk_eq (fun a x b heq => ?_) (by simpa using hf)
  have hl : l = b.reverse ++ x :: a.reverse := by
    rw [← List.reverse_reverse l, heq]
    simp
  rw [hl] at hq
  rw [hq.tailqPrev_eq, List.getLast?_reverse]

/-! ## Runs -/

inductive Op (ι α : Type) where
  | init (head : ι)
  | insertHead (head : ι) (elm : α)
  | insertTail (head : ι) (elm : α)
  | insertAfter (head : ι) (listelm elm : α)
  | insertBefore (listelm elm : α)
  | remove (head : ι) (elm : α)
  | replace (head : ι) (elm elm2 : α)
  | concat (head1 head2 : ι)

/-- What the macros ask of their arguments. -/
def Op.Allowed (ls : ι → List α) : Op ι α → Prop
  | .init _ => True
  | .insertHead _ x => Free ls x
  | .insertTail _ x => Free ls x
  | .insertAfter q y x => y ∈ ls q ∧ Free ls x
  | .insertBefore y x => (∃ q, y ∈ ls q) ∧ Free ls x
  | .remove q x => x ∈ ls q
  | .replace q x y => x ∈ ls q ∧ Free ls y
  | .concat q₁ q₂ => q₁ ≠ q₂

variable [DecidableEq ι] [DecidableEq α]

def Op.exec (h : Heap ι α) : Op ι α → Heap ι α
  | .init q => tailqInit h q
  | .insertHead q x => tailqInsertHead h q x
  | .insertTail q x => tailqInsertTail h q x
  | .insertAfter q y x => tailqInsertAfter h q y x
  | .insertBefore y x => tailqInsertBefore h y x
  | .remove q x => tailqRemove h q x
  | .replace q x y => tailqReplace h q x y
  | .concat q₁ q₂ => tailqConcat h q₁ q₂

/-- `m` in the place of `x`. -/
def inPlace (x : α) (m l : List α) : List α := l.flatMap fun z => if z = x then m else [z]

/-- What the lists should be afterwards. -/
def Op.apply (ls : ι → List α) : Op ι α → ι → List α
  | .init q => Function.update ls q []
  | .insertHead q x => Function.update ls q (x :: ls q)
  | .insertTail q x => Function.update ls q (ls q ++ [x])
  | .insertAfter q y x => Function.update ls q (inPlace y [y, x] (ls q))
  | .insertBefore y x => fun q => inPlace y [x, y] (ls q)
  | .remove q x => Function.update ls q (inPlace x [] (ls q))
  | .replace q x y => Function.update ls q (inPlace x [y] (ls q))
  | .concat q₁ q₂ => Function.update (Function.update ls q₁ (ls q₁ ++ ls q₂)) q₂ []

/-- Each move is allowed when it is made. -/
def Proper (ls : ι → List α) : List (Op ι α) → Prop
  | [] => True
  | op :: ops => op.Allowed ls ∧ Proper (op.apply ls) ops

omit [DecidableEq ι] in
theorem inPlace_absent {m : List α} (hx : x ∉ l) : inPlace x m l = l := by
  have hsame : ∀ z ∈ l, (if z = x then m else [z]) = [z] := by
    intro z hz
    rw [if_neg]
    rintro rfl
    exact hx hz
  rw [inPlace, List.flatMap_congr hsame, List.flatMap_singleton']

omit [DecidableEq ι] in
theorem inPlace_once {m : List α} (hn : (a ++ x :: b).Nodup) : inPlace x m (a ++ x :: b) = a ++ (m ++ b) := by
  obtain ⟨-, hb, hab⟩ := List.nodup_append.1 hn
  have hxa : x ∉ a := fun hm => hab x hm x List.mem_cons_self rfl
  have happ : inPlace x m (a ++ x :: b) = inPlace x m a ++ (m ++ inPlace x m b) := by simp [inPlace]
  rw [happ, inPlace_absent hxa, inPlace_absent (List.nodup_cons.1 hb).1]

/-- One move keeps memory and lists in step. -/
theorem exec_spec (hr : Reps h ls) (op : Op ι α) (ho : op.Allowed ls) : Reps (op.exec h) (op.apply ls) := by
  have hput : ∀ {q x}, x ∈ ls q → ∃ a b, ls q = a ++ x :: b ∧ ∀ m, inPlace x m (ls q) = a ++ (m ++ b) := by
    intro q x hx
    obtain ⟨a, b, heq⟩ := List.append_of_mem hx
    have hn := hr.nodup q
    rw [heq] at hn
    refine ⟨a, b, heq, fun m => ?_⟩
    rw [heq]
    exact inPlace_once hn
  cases op with
  | init q => exact hr.init q
  | insertHead q x => exact hr.insertHead ho
  | insertTail q x => exact hr.insertTail ho
  | insertAfter q y x =>
    obtain ⟨a, b, heq, hin⟩ := hput ho.1
    rw [Op.apply, hin]
    exact hr.insertAfter heq ho.2
  | insertBefore y x =>
    obtain ⟨⟨q, hy⟩, hx⟩ := ho
    obtain ⟨a, b, heq, hin⟩ := hput hy
    have happly : (Op.insertBefore y x).apply ls = Function.update ls q (a ++ x :: y :: b) := by
      funext q'
      by_cases hne : q' = q
      · subst hne
        rw [Function.update_self]
        exact hin [x, y]
      · rw [Function.update_of_ne hne]
        exact inPlace_absent (hr.apart q q' (Ne.symm hne) y hy)
    rw [happly]
    exact hr.insertBefore heq hx
  | remove q x =>
    obtain ⟨a, b, heq, hin⟩ := hput ho
    rw [Op.apply, hin]
    exact hr.remove heq
  | replace q x y =>
    obtain ⟨a, b, heq, hin⟩ := hput ho.1
    rw [Op.apply, hin]
    exact hr.replace heq ho.2
  | concat q₁ q₂ => exact hr.concat ho

theorem run_spec (hr : Reps h ls) (ops : List (Op ι α)) (hp : Proper ls ops) :
    Reps (ops.foldl Op.exec h) (ops.foldl Op.apply ls) := by
  induction ops generalizing h ls with
  | nil => exact hr
  | cons op ops ih => exact ih (exec_spec hr op hp.1) hp.2

/-- `TAILQ_HEAD_INITIALIZER` for every head, and any entries. -/
def initialized (h : Heap ι α) : Heap ι α := { h with tqhFirst := fun _ => none, tqhLast := .first }

omit [DecidableEq ι] [DecidableEq α] in
theorem initialized_reps (h : Heap ι α) : Reps (initialized h) fun _ => [] where
  queue _ := ⟨trivial, rfl, rfl⟩
  nodup _ := List.nodup_nil
  apart _ _ _ _ hw := absurd hw List.not_mem_nil

/-- **After any moves, in any number of queues, a queue reads like its list:
forwards, backwards, at both ends and on both sides of each element. No
element is in two queues, or twice in one.** -/
theorem run_reads (h : Heap ι α) (ops : List (Op ι α)) (hp : Proper (fun _ => []) ops) (q : ι) :
    let ls := ops.foldl Op.apply (fun _ => [])
    let h := ops.foldl Op.exec (initialized h)
    (∀ fuel, (ls q).length ≤ fuel → tailqForeach fuel h q = some (ls q) ∧
      tailqForeachReverse fuel h q = some (ls q).reverse) ∧
      tailqFirst h q = (ls q).head? ∧ tailqLast h q = (ls q).getLast? ∧ tailqEmpty h q = (ls q).isEmpty ∧
      (∀ a x b, ls q = a ++ x :: b → tailqNext h x = b.head? ∧ tailqPrev h x = a.getLast?) ∧
      (ls q).Nodup ∧ ∀ q', q' ≠ q → ∀ w ∈ ls q, w ∉ ls q' := by
  intro ls h
  have hr : Reps h ls := run_spec (initialized_reps _) ops hp
  have hq := hr.queue q
  refine ⟨fun fuel hf => ⟨hq.foreach_eq hf, hq.foreachReverse_eq hf⟩, hq.tailqFirst_eq,
    hq.tailqLast_eq, hq.tailqEmpty_eq, ?_,
    hr.nodup q, fun q' hne => hr.apart q q' (Ne.symm hne)⟩
  intro a x b hl
  rw [hl] at hq
  exact ⟨hq.tailqNext_eq, hq.tailqPrev_eq⟩

/-- Two queues, and memory that has been used before. -/
def littered : Heap Bool Nat := ⟨fun _ => some 9, fun _ => .next 9, fun _ => some 8, fun _ => .next 7⟩

def moves : List (Op Bool Nat) :=
  [.insertTail false 1, .insertHead false 2, .insertAfter false 2 3, .insertBefore 1 4, .remove false 3, .insertTail true 3,
    .replace false 2 5, .concat false true]

theorem moves_proper : Proper (fun _ => []) moves := by
  simp [moves, Proper, Op.Allowed, Op.apply, Free, inPlace, Function.update_apply]

theorem run_reads_some : Proper (fun _ => []) moves ∧
    tailqForeachReverse 4 (moves.foldl Op.exec (initialized littered)) false = some [3, 1, 4, 5] :=
  ⟨moves_proper, ((run_reads littered moves moves_proper false).1 4 (by decide)).2⟩

/-! ## Loops -/

/-- The loop of `moveOut` with `a` behind it and `rest` to come. -/
theorem moveOut_loop {triggered : α → Bool} {rest : List α} (hne : q ≠ q') (hr : Reps h ls) (hq : ls q = a ++ rest)
    (hf : rest.length ≤ fuel) :
    ∃ h', tailqForeachSafe (fun h x => if triggered x then tailqInsertTail (tailqRemove h q x) q' x
      else h) fuel h rest.head? = some h' ∧
      Reps h' (Function.update (Function.update ls q (a ++ rest.filter (!triggered ·))) q'
        (ls q' ++ rest.filter triggered)) := by
  induction rest generalizing h ls a fuel with
  | nil =>
    refine ⟨h, by cases fuel <;> rfl, ?_⟩
    rw [List.filter_nil, List.filter_nil, ← hq, Function.update_eq_self, List.append_nil, Function.update_eq_self]
    exact hr
  | cons x rest ih =>
    obtain ⟨fuel, rfl⟩ : ∃ n, fuel = n + 1 := ⟨fuel - 1, by rw [List.length_cons] at hf; omega⟩
    have hf' : rest.length ≤ fuel := by simpa using hf
    have hnext : tailqNext h x = rest.head? := by
      have hqueue := hr.queue q
      rw [hq] at hqueue
      exact hqueue.tailqNext_eq
    rw [List.head?_cons, tailqForeachSafe, hnext]
    cases hx : triggered x with
    | false =>
      obtain ⟨h', hrun, hr'⟩ := ih (a := a ++ [x]) hr (by rw [hq, List.append_assoc]; rfl) hf'
      refine ⟨h', by simpa using hrun, ?_⟩
      simpa [hx] using hr'
    | true =>
      have hr₁ := hr.remove hq
      have hfree : Free (Function.update ls q (a ++ rest)) x := by
        intro q₁ hm
        by_cases h₁ : q₁ = q
        · subst h₁
          rw [Function.update_self] at hm
          have hn := hr.nodup q₁
          rw [hq] at hn
          exact (List.nodup_cons.1 (List.nodup_middle.1 hn)).1 hm
        · rw [Function.update_of_ne h₁] at hm
          exact hr.apart q₁ q h₁ x hm (by simp [hq])
      have hr₂ := hr₁.insertTail (q := q') hfree
      rw [Function.update_of_ne (Ne.symm hne)] at hr₂
      obtain ⟨h', hrun, hr'⟩ := ih (a := a) hr₂ (by rw [Function.update_of_ne hne, Function.update_self]) hf'
      refine ⟨h', by simpa using hrun, ?_⟩
      have hsame : Function.update (Function.update (Function.update (Function.update ls q (a ++ rest)) q' (ls q' ++ [x])) q
          (a ++ rest.filter (!triggered ·))) q' (ls q' ++ [x] ++ rest.filter triggered) =
          Function.update (Function.update ls q (a ++ (x :: rest).filter (!triggered ·))) q'
              (ls q' ++ (x :: rest).filter triggered) := by
        funext i
        by_cases hi : i = q
        · simp [hi, hne, hx]
        · by_cases hi' : i = q' <;> simp [hi, hi', hx]
      rw [← hsame]
      simpa using hr'

/-- **The elements that are triggered leave one queue for the end of another,
in their order, while the loop walks the queue they leave.** -/
theorem moveOut_filters (hr : Reps h ls) (triggered : α → Bool) (hne : q ≠ q') (hf : (ls q).length ≤ fuel) :
    ∃ h', moveOut triggered q q' fuel h = some h' ∧
      Reps h' (Function.update (Function.update ls q ((ls q).filter (!triggered ·))) q'
        (ls q' ++ (ls q).filter triggered)) := by
  rw [moveOut, (hr.queue q).tailqFirst_eq]
  exact moveOut_loop (a := []) hne hr rfl hf

theorem moveOut_filters_some : false ≠ true ∧
    ∃ h', moveOut (· ≤ 3) false true 4 (moves.foldl Op.exec (initialized littered)) = some h' ∧
    Queue h' true [1, 3] := by
  have hlen : (moves.foldl Op.apply (fun _ => []) false).length ≤ 4 := by decide
  obtain ⟨h', hrun, hr⟩ := moveOut_filters (run_spec (initialized_reps littered) moves moves_proper)
    (· ≤ 3) Bool.false_ne_true hlen
  exact ⟨Bool.false_ne_true, h', hrun, hr.queue true⟩

omit [DecidableEq ι] [DecidableEq α] in
theorem seek_eq {p : α → Bool} (hq : Queue h q (a ++ b)) (hf : b.length ≤ fuel) :
    seek p h fuel b.head? = some (b.find? p) := by
  induction b generalizing a fuel with
  | nil => cases fuel <;> rfl
  | cons x b ih =>
    obtain ⟨fuel, rfl⟩ : ∃ n, fuel = n + 1 := ⟨fuel - 1, by rw [List.length_cons] at hf; omega⟩
    rw [List.head?_cons, seek, hq.tailqNext_eq]
    cases hx : p x with
    | true => simp [hx]
    | false =>
      have hrest := ih (a := a ++ [x]) (by rwa [List.append_assoc]) (by simpa using hf)
      simpa [hx] using hrest

/-- `noti_q_find` for a record: it is found, and taken off if asked, just when it is there. -/
theorem notiQFind_spec (hr : Reps h ls) (x : α) (pop : Bool) (hf : (ls q).length ≤ fuel) :
    ∃ h', notiQFind fuel h q (some x) pop = some (if x ∈ ls q then some x else none, h') ∧
      Reps h' (if pop then Function.update ls q ((ls q).erase x) else ls) := by
  have hseek : seek (· = x) h fuel (tailqFirst h q) = some ((ls q).find? (· = x)) := by
    rw [(hr.queue q).tailqFirst_eq]
    exact seek_eq (a := []) (hr.queue q) hf
  simp only [notiQFind, hseek, Option.map_some]
  by_cases hx : x ∈ ls q
  · obtain ⟨a, b, heq⟩ := List.append_of_mem hx
    have hxa : x ∉ a := by
      have hn := hr.nodup q
      rw [heq] at hn
      exact fun hm => (List.nodup_append.1 hn).2.2 x hm x List.mem_cons_self rfl
    have hfind : (ls q).find? (· = x) = some x := by
      rw [List.find?_eq_some_iff_append]
      refine ⟨by simp, a, b, heq, fun y hy => ?_⟩
      have hyx : y ≠ x := fun h => hxa (h ▸ hy)
      simpa using hyx
    rw [hfind, if_pos hx]
    refine ⟨_, rfl, ?_⟩
    cases pop with
    | false => exact hr
    | true =>
      have herase : (ls q).erase x = a ++ b := by rw [heq, List.erase_append_right _ hxa, List.erase_cons_head]
      simp only [if_true, herase]
      exact hr.remove heq
  · have hfind : (ls q).find? (· = x) = none := by
      rw [List.find?_eq_none]
      rintro y hy hyx
      obtain rfl := of_decide_eq_true hyx
      exact hx hy
    rw [hfind, if_neg hx]
    refine ⟨_, rfl, ?_⟩
    rw [List.erase_of_not_mem hx, Function.update_eq_self, ite_self]
    exact hr

end AlgaeBp.Tailq
