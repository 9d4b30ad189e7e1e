import AlgaeBp.Tailq.Code
import Mathlib.Data.List.Nodup
/-!
# The queues that the entries make

`Links h s l`: from the pointer at `s`, the elements of `l` point at each
other, and each has the address of the pointer that points at it. Every
operation puts a few elements in the place of a few others (`Spliced`).
-/

namespace AlgaeBp.Tailq

variable {ι α : Type} {h h' : Heap ι α} {s s' e : Loc ι α} {x w z : α} {l a b m m' : List α} {q q' : ι}

/-! ## Chains -/

def Links (h : Heap ι α) : Loc ι α → List α → Prop
  | _, [] => True
  | s, x :: l => h.get s = some x ∧ h.tqePrev x = s ∧ Links h (.next x) l

/-- The last pointer of a chain. -/
def ending : Loc ι α → List α → Loc ι α
  | s, [] => s
  | _, x :: l => ending (.next x) l

/-- The pointers of a chain, with the last. -/
def slots (s : Loc ι α) (l : List α) : List (Loc ι α) := s :: l.map .next

@[simp] theorem ending_nil : ending s [] = s := rfl
@[simp] theorem ending_cons : ending s (x :: l) = ending (.next x) l := rfl

theorem ending_append : ending s (a ++ b) = ending (ending s a) b := by
  induction a generalizing s with
  | nil => rfl
  | cons x a ih => exact ih

theorem links_append : Links h s (a ++ b) ↔ Links h s a ∧ Links h (ending s a) b := by
  induction a generalizing s with
  | nil => simp [Links]
  | cons x a ih => simp only [List.cons_append, Links, ih, ending_cons, and_assoc]

theorem ending_mem : ending s l ∈ slots s l := by
  induction l generalizing s with
  | nil => exact List.mem_singleton.2 rfl
  | cons x l ih => exact List.mem_cons_of_mem s ih

theorem mem_slots : s' ∈ slots s l ↔ s' = s ∨ ∃ x ∈ l, s' = .next x := by
  simp only [slots, List.mem_cons, List.mem_map, eq_comm]

/-- A chain is found in any memory that agrees on it. The last pointer does not matter. -/
theorem Links.congr (hl : Links h s l) (hn : (slots s l).Nodup)
    (hget : ∀ s' ∈ slots s l, s' ≠ ending s l → h'.get s' = h.get s')
    (hprev : ∀ w ∈ l, h'.tqePrev w = h.tqePrev w) : Links h' s l := by
  induction l generalizing s with
  | nil => trivial
  | cons x l ih =>
    obtain ⟨hx, hp, hrest⟩ := hl
    have hn' := List.nodup_cons.1 hn
    refine ⟨?_, (hprev x List.mem_cons_self).trans hp, ih hrest hn'.2 ?_ ?_⟩
    · rw [hget s List.mem_cons_self, hx]
      intro heq
      exact hn'.1 (heq ▸ ending_mem)
    · intro s' hs' hne
      exact hget s' (List.mem_cons_of_mem s hs') hne
    · intro w hw
      exact hprev w (List.mem_cons_of_mem x hw)

structure Queue (h : Heap ι α) (q : ι) (l : List α) : Prop where
  links : Links h (.first q) l
  last : h.tqhLast q = ending (.first q) l
  null : h.get (ending (.first q) l) = none

theorem nodup_slots_first (hl : l.Nodup) : (slots (.first q) l).Nodup := by
  refine List.nodup_cons.2 ⟨by simp, hl.map ?_⟩
  intro x y hxy
  exact Loc.next.inj hxy

theorem nodup_slots_next (hl : (x :: l).Nodup) : (slots (.next x : Loc ι α) l).Nodup := by
  have hmap := hl.map (f := (Loc.next : α → Loc ι α)) fun x y hxy => Loc.next.inj hxy
  exact hmap

/-! ## Splices -/

/-- From `e` on there is `m'`, then `b`, and nothing else has changed. -/
structure Spliced (h h' : Heap ι α) (q : ι) (e : Loc ι α) (m' b : List α) : Prop where
  middle : Links h' e m'
  seam : h'.get (ending e m') = b.head?
  back : ∀ z, b.head? = some z → h'.tqePrev z = ending e m'
  last_nil : b = [] → h'.tqhLast q = ending e m'
  last_cons : b ≠ [] → h'.tqhLast q = h.tqhLast q
  get : ∀ s, s ≠ e → s ∉ m'.map .next → h'.get s = h.get s
  prev : ∀ w, w ∉ m' → b.head? ≠ some w → h'.tqePrev w = h.tqePrev w
  others : ∀ q', q' ≠ q → h'.tqhLast q' = h.tqhLast q'

theorem Queue.splice (hq : Queue h q (a ++ (m ++ b))) (hn : (a ++ (m ++ b)).Nodup) (hm' : ∀ w ∈ m', w ∉ a ∧ w ∉ b)
    (hs : Spliced h h' q (ending (.first q) a) m' b) : Queue h' q (a ++ (m' ++ b)) := by
  obtain ⟨ha, hmb⟩ := links_append.1 hq.links
  obtain ⟨-, hb⟩ := links_append.1 hmb
  have hna := (List.nodup_append.1 hn).1
  have hnb := (List.nodup_append.1 (List.nodup_append.1 hn).2.1).2.1
  have hab : ∀ y ∈ a, y ∉ b := fun y hy hyb => (List.nodup_append.1 hn).2.2 y hy y (List.mem_append_right m hyb) rfl
  -- the end of `a` is not a pointer of `b`
  have hend : ∀ w ∈ b, (.next w : Loc ι α) ≠ ending (.first q) a := by
    intro w hw heq
    rcases mem_slots.1 (ending_mem (s := Loc.first q) (l := a)) with h₁ | ⟨y, hy, h₁⟩
    · rw [h₁] at heq
      cases heq
    · rw [h₁] at heq
      obtain rfl := Loc.next.inj heq
      exact hab w hy hw
  have hlinks : Links h' (.first q) a := by
    refine ha.congr (nodup_slots_first hna) (fun s' hs' hne => hs.get s' hne ?_) (fun w hw => hs.prev w ?_ ?_)
    · intro hmem
      obtain ⟨w, hw, rfl⟩ := List.mem_map.1 hmem
      rcases mem_slots.1 hs' with h₁ | ⟨y, hy, h₁⟩
      · cases h₁
      · obtain rfl := Loc.next.inj h₁
        exact (hm' w hw).1 hy
    · exact fun hw' => (hm' w hw').1 hw
    · intro heq
      exact hab w hw (List.mem_of_head? heq)
  cases b with
  | nil =>
    rw [List.append_nil]
    refine ⟨links_append.2 ⟨hlinks, hs.middle⟩, ?_, ?_⟩
    · rw [ending_append]
      exact hs.last_nil rfl
    · rw [ending_append]
      exact hs.seam
  | cons z b =>
    obtain ⟨-, -, hrest⟩ := hb
    have hkeep : ∀ w ∈ z :: b, h'.get (.next w) = h.get (.next w) := by
      intro w hw
      refine hs.get _ (hend w hw) (fun hmem => ?_)
      obtain ⟨y, hy, h₁⟩ := List.mem_map.1 hmem
      cases h₁
      exact (hm' w hy).2 hw
    have hrest' : Links h' (.next z) b := by
      refine hrest.congr (nodup_slots_next hnb) (fun s' hs' _ => ?_) (fun w hw => hs.prev w ?_ ?_)
      · rcases mem_slots.1 hs' with rfl | ⟨w, hw, rfl⟩
        · exact hkeep z List.mem_cons_self
        · exact hkeep w (List.mem_cons_of_mem z hw)
      · exact fun hw' => (hm' w hw').2 (List.mem_cons_of_mem z hw)
      · rw [List.head?_cons, Ne, Option.some.injEq]
        rintro rfl
        exact (List.nodup_cons.1 hnb).1 hw
    refine ⟨links_append.2 ⟨hlinks, links_append.2 ⟨hs.middle, hs.seam, hs.back z rfl, hrest'⟩⟩, ?_, ?_⟩
    · rw [hs.last_cons (List.cons_ne_nil z b), hq.last]
      simp only [ending_append, ending_cons]
    · have hnull := hq.null
      simp only [ending_append, ending_cons] at hnull ⊢
      rw [← hnull]
      rcases mem_slots.1 (ending_mem (s := (Loc.next z : Loc ι α)) (l := b)) with h₁ | ⟨w, hw, h₁⟩
      · rw [h₁]
        exact hkeep z List.mem_cons_self
      · rw [h₁]
        exact hkeep w (List.mem_cons_of_mem z hw)

/-- Another queue does not see a splice. -/
theorem Queue.apart (hq : Queue h q' l) (hne : q' ≠ q) (hn : l.Nodup) (hl : ∀ w ∈ l, w ∉ a ∧ w ∉ m' ∧ w ∉ b)
    (hs : Spliced h h' q (ending (.first q) a) m' b) : Queue h' q' l := by
  have hget : ∀ s' ∈ slots (.first q') l, h'.get s' = h.get s' := by
    intro s' hs'
    refine hs.get s' ?_ ?_
    · rintro rfl
      rcases mem_slots.1 (ending_mem (s := Loc.first q) (l := a)) with h₁ | ⟨y, hy, h₁⟩
      · rw [h₁] at hs'
        rcases mem_slots.1 hs' with h₂ | ⟨w, hw, h₂⟩
        · cases h₂
          exact hne rfl
        · cases h₂
      · rw [h₁] at hs'
        rcases mem_slots.1 hs' with h₂ | ⟨w, hw, h₂⟩
        · cases h₂
        · cases h₂
          exact (hl y hw).1 hy
    · intro hmem
      obtain ⟨w, hw, rfl⟩ := List.mem_map.1 hmem
      rcases mem_slots.1 hs' with h₂ | ⟨y, hy, h₂⟩
      · cases h₂
      · cases h₂
        exact (hl w hy).2.1 hw
  refine ⟨hq.links.congr (nodup_slots_first hn) (fun s' hs' _ => hget s' hs') (fun w hw => ?_), ?_, ?_⟩
  · refine hs.prev w (hl w hw).2.1 (fun heq => ?_)
    exact (hl w hw).2.2 (List.mem_of_head? heq)
  · rw [hs.others q' hne, hq.last]
  · rw [hget _ ending_mem, hq.null]

end AlgaeBp.Tailq
