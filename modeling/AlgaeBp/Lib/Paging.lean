import Mathlib.Data.List.Sort
/-!
# Reading a sorted list page by page

A server holds items sorted by a key. Asked for the items from a key on it
answers with some of them, starting with the first, or that there are none. A
client that asks again from behind the last item it got reads every item of
the range once and in order.
-/
namespace Paging

variable {ι : Type} (key stop : ι → Nat) (first last : Nat)

/-- The items of a range. -/
def inRange (items : List ι) (start : Nat) : List ι := items.filter (fun x => decide (start ≤ key x ∧ key x ≤ last))

/-- The client: it goes on behind `stop` of the last item of a page, until
there is nothing left or the range ends. The outer `none` is a client that
did not get to an end. -/
def collect (ask : Nat → Option (List ι)) : Nat → Nat → Option (List ι)
  | 0, _ => none
  | fuel + 1, start =>
    if start > last then some []
    else
      match ask start with
      | none => some []
      | some page =>
        match page.getLast? with
        | none => none
        | some x => (collect ask fuel (stop x + 1)).map (page ++ ·)

/-- Asked for items from `first` on, every answer is a nonempty first part of what is left, and nothing is left
when there is no answer. -/
structure Pages (items : List ι) (ask : Nat → Option (List ι)) : Prop where
  none : ∀ start, first ≤ start → start ≤ last → ask start = .none → inRange key last items start = []
  some : ∀ start page, first ≤ start → start ≤ last → ask start = .some page →
    page ≠ [] ∧ page <+: inRange key last items start

variable {key stop first last}

theorem inRange_empty {items : List ι} {start : Nat} (h : last < start) : inRange key last items start = [] := by
  apply List.filter_eq_nil_iff.2
  intro x _
  simp only [decide_eq_true_eq]
  omega

/-- What is left behind the last item of a page is what the page left out. -/
theorem inRange_behind {items page rest : List ι} {x : ι} {start : Nat}
    (hsort : (inRange key last items start).Pairwise (fun a b => key a < key b))
    (hgap : ∀ a ∈ items, ∀ b ∈ items, key a < key b → stop a < key b) (hstop : ∀ a ∈ items, key a ≤ stop a)
    (hsplit : inRange key last items start = page ++ rest) (hx : page.getLast? = some x) :
    inRange key last items (stop x + 1) = rest := by
  have hxp : x ∈ page := List.mem_of_getLast? hx
  have hmem : ∀ y, y ∈ page ++ rest → y ∈ items ∧ start ≤ key y ∧ key y ≤ last := by
    intro y hy
    rw [← hsplit] at hy
    simpa [inRange] using hy
  have hle : start ≤ stop x + 1 := by
    have := hstop x (hmem x (List.mem_append_left _ hxp)).1
    have := (hmem x (List.mem_append_left _ hxp)).2.1
    omega
  -- filtering the items from `stop x + 1` on is filtering what was left before
  have hagain : inRange key last items (stop x + 1) =
      (inRange key last items start).filter (fun y => decide (stop x + 1 ≤ key y)) := by
    unfold inRange
    rw [List.filter_filter]
    apply List.filter_congr
    intro y _
    simp only [Bool.decide_and]
    by_cases h : stop x + 1 ≤ key y
    · simp [h, le_trans hle h]
    · simp [h]
  rw [hagain, hsplit, List.filter_append]
  rw [hsplit, List.pairwise_append] at hsort
  have hpage : page.filter (fun y => decide (stop x + 1 ≤ key y)) = [] := by
    apply List.filter_eq_nil_iff.2
    intro y hy
    simp only [decide_eq_true_eq, not_le]
    have hyx : key y ≤ key x := by
      obtain ⟨pre, rfl⟩ := List.getLast?_eq_some_iff.1 hx
      rcases List.mem_append.1 hy with h | h
      · exact le_of_lt ((List.pairwise_append.1 hsort.1).2.2 y h x (List.mem_singleton_self x))
      · rw [List.mem_singleton.1 h]
    have := hstop x (hmem x (List.mem_append_left _ hxp)).1
    omega
  have hrest : rest.filter (fun y => decide (stop x + 1 ≤ key y)) = rest := by
    apply List.filter_eq_self.2
    intro y hy
    simp only [decide_eq_true_eq]
    exact hgap x (hmem x (List.mem_append_left _ hxp)).1 y (hmem y (List.mem_append_right _ hy)).1
      (hsort.2.2 x hxp y hy)
  rw [hpage, hrest, List.nil_append]

/-- The client reads exactly the items of the range, once each and in order. -/
theorem collect_inRange {items : List ι} {ask : Nat → Option (List ι)} (h : Pages key first last items ask)
    (hsort : items.Pairwise (fun a b => key a < key b))
    (hgap : ∀ a ∈ items, ∀ b ∈ items, key a < key b → stop a < key b) (hstop : ∀ a ∈ items, key a ≤ stop a)
    (fuel start : Nat) (hfirst : first ≤ start) (hfuel : last + 1 - start < fuel) :
    collect stop last ask fuel start = some (inRange key last items start) := by
  -- each page ends behind `start`, so the fuel left is still enough
  induction fuel generalizing start with
  | zero => omega
  | succ fuel ih =>
    unfold collect
    by_cases hs : start > last
    · rw [if_pos hs, inRange_empty hs]
    rw [if_neg hs]
    cases hask : ask start with
    | none => rw [h.none start hfirst (by omega) hask]
    | some page =>
      obtain ⟨hne, rest, hsplit⟩ := h.some start page hfirst (by omega) hask
      obtain ⟨x, hx⟩ : ∃ x, page.getLast? = some x := ⟨_, List.getLast?_eq_some_getLast hne⟩
      have hxi : x ∈ inRange key last items start := by
        rw [← hsplit]
        exact List.mem_append_left _ (List.mem_of_getLast? hx)
      have hxk : start ≤ key x ∧ x ∈ items := by
        unfold inRange at hxi
        simp only [List.mem_filter, decide_eq_true_eq] at hxi
        exact ⟨hxi.2.1, hxi.1⟩
      have hlt := hstop x hxk.2
      simp only [hx]
      rw [ih (stop x + 1) (by omega) (by omega),
        inRange_behind (hsort.filter _) hgap hstop hsplit.symm hx, Option.map_some, hsplit]

end Paging
