import AlgaeBp.Tailq.Ops
import Mathlib.Data.List.Induction
/-!
# Queues and lists

Several queues in one memory are several lists with no element in common.
`Allowed` is what a program has to see to: what it puts in is in no queue, and
what it takes out, or puts something next to, is in the queue it says.
-/

namespace AlgaeBp.Tailq

variable {ι α : Type} {h h' : Heap ι α} {x y z w : α} {a b m m' l : List α} {q q' q₁ q₂ : ι} {ls : ι → List α} {fuel : Nat}

/-- The memory has these queues. -/
structure Reps (h : Heap ι α) (ls : ι → List α) : Prop where
  queue : ∀ q, Queue h q (ls q)
  nodup : ∀ q, (ls q).Nodup
  apart : ∀ q q', q ≠ q' → ∀ w ∈ ls q, w ∉ ls q'

/-- The element is in no queue. -/
def Free (ls : ι → List α) (x : α) : Prop := ∀ q, x ∉ ls q

variable [DecidableEq ι]

theorem Reps.splice (hr : Reps h ls) (hq : ls q = a ++ (m ++ b)) (hm : m'.Nodup) (hm' : ∀ w ∈ m', Free ls w)
    (hs : Spliced h h' q (ending (.first q) a) m' b) : Reps h' (Function.update ls q (a ++ (m' ++ b))) := by
  have hn : (a ++ (m ++ b)).Nodup := hq ▸ hr.nodup q
  have hfree : ∀ w ∈ m', w ∉ a ∧ w ∉ m ∧ w ∉ b := by
    intro w hw
    have hnot := hm' w hw q
    rw [hq] at hnot
    simpa [not_or] using hnot
  obtain ⟨hna, hnmb, hamb⟩ := List.nodup_append.1 hn
  obtain ⟨-, hnb, -⟩ := List.nodup_append.1 hnmb
  have hmem : ∀ w, w ∈ a ++ (m' ++ b) → w ∈ m' ∨ w ∈ ls q := by
    intro w hw
    rw [hq]
    simp only [List.mem_append] at hw ⊢
    rcases hw with hw | hw | hw
    · exact .inr (.inl hw)
    · exact .inl hw
    · exact .inr (.inr (.inr hw))
  constructor
  case queue =>
    intro q'
    by_cases hne : q' = q
    · subst hne
      rw [Function.update_self]
      have hqueue := hr.queue q'
      rw [hq] at hqueue
      exact hqueue.splice hn (fun w hw => ⟨(hfree w hw).1, (hfree w hw).2.2⟩) hs
    · rw [Function.update_of_ne hne]
      refine (hr.queue q').apart hne (hr.nodup q') (fun w hw => ?_) hs
      have hnot := hr.apart q' q hne w hw
      rw [hq] at hnot
      simp only [List.mem_append, not_or] at hnot
      exact ⟨hnot.1, fun hw' => hm' w hw' q' hw, hnot.2.2⟩
  case nodup =>
    intro q'
    by_cases hne : q' = q
    · subst hne
      rw [Function.update_self]
      refine List.nodup_append.2 ⟨hna, List.nodup_append.2 ⟨hm, hnb, ?_⟩, ?_⟩
      · rintro w hw _ hw' rfl
        exact (hfree w hw).2.2 hw'
      · rintro w hw _ hw' rfl
        rcases List.mem_append.1 hw' with hw' | hw'
        · exact (hfree w hw').1 hw
        · exact hamb w hw w (List.mem_append_right m hw') rfl
    · rw [Function.update_of_ne hne]
      exact hr.nodup q'
  case apart =>
    intro q₁ q₂ hne w hw hw'
    by_cases h₁ : q₁ = q
    · subst h₁
      rw [Function.update_self] at hw
      rw [Function.update_of_ne (Ne.symm hne)] at hw'
      rcases hmem w hw with hw | hw
      · exact hm' w hw q₂ hw'
      · exact hr.apart q₁ q₂ hne w hw hw'
    · rw [Function.update_of_ne h₁] at hw
      by_cases h₂ : q₂ = q
      · subst h₂
        rw [Function.update_self] at hw'
        rcases hmem w hw' with hw' | hw'
        · exact hm' w hw' q₁ hw
        · exact hr.apart q₁ q₂ hne w hw hw'
      · rw [Function.update_of_ne h₂] at hw'
        exact hr.apart q₁ q₂ hne w hw hw'

variable [DecidableEq α]

/-- **An element that is in no queue, put in at a pointer of one.** -/
theorem Reps.insertAt (hr : Reps h ls) (hq : ls q = a ++ b) (hx : Free ls x) :
    Reps (insertAt h q (ending (.first q) a) x) (Function.update ls q (a ++ x :: b)) := by
  have hnot := hx q
  rw [hq] at hnot
  have hqueue := hr.queue q
  rw [hq] at hqueue
  have hs := insertAt_spliced hqueue (by simpa [not_or] using hnot)
  exact hr.splice (m := []) hq (List.nodup_singleton x) (by simpa using hx) hs

theorem Reps.insertHead (hr : Reps h ls) (hx : Free ls x) :
    Reps (tailqInsertHead h q x) (Function.update ls q (x :: ls q)) :=
  hr.insertAt (a := []) rfl hx

theorem Reps.insertAfter (hr : Reps h ls) (hq : ls q = a ++ y :: b) (hx : Free ls x) :
    Reps (tailqInsertAfter h q y x) (Function.update ls q (a ++ y :: x :: b)) := by
  have hins := hr.insertAt (a := a ++ [y]) (b := b) (by simpa using hq) hx
  rw [ending_append, List.append_assoc] at hins
  exact hins

theorem Reps.insertTail (hr : Reps h ls) (hx : Free ls x) :
    Reps (tailqInsertTail h q x) (Function.update ls q (ls q ++ [x])) := by
  have hlast := (hr.queue q).last
  have hnull : h.get (h.tqhLast q) = none := by rw [hlast, (hr.queue q).null]
  rw [tailqInsertTail_eq hnull, hlast]
  exact hr.insertAt (List.append_nil _).symm hx

theorem Reps.insertBefore (hr : Reps h ls) (hq : ls q = a ++ y :: b) (hx : Free ls x) :
    Reps (tailqInsertBefore h y x) (Function.update ls q (a ++ x :: y :: b)) := by
  have hqueue := hr.queue q
  rw [hq] at hqueue
  have hprev := hqueue.prev_head
  have hget : h.get (h.tqePrev y) = some y := by rw [hprev, hqueue.get_ending, List.head?_cons]
  have hxy : x ≠ y := by
    rintro rfl
    exact hx q (by simp [hq])
  rw [tailqInsertBefore_eq (q := q) hget hxy, hprev]
  exact hr.insertAt hq hx

theorem Reps.remove (hr : Reps h ls) (hq : ls q = a ++ x :: b) :
    Reps (tailqRemove h q x) (Function.update ls q (a ++ b)) := by
  have hqueue := hr.queue q
  have hn := hr.nodup q
  rw [hq] at hqueue hn
  exact hr.splice (m := [x]) hq List.nodup_nil (by simp) (tailqRemove_spliced hqueue hn)

theorem Reps.replace (hr : Reps h ls) (hq : ls q = a ++ x :: b) (hy : Free ls y) :
    Reps (tailqReplace h q x y) (Function.update ls q (a ++ y :: b)) := by
  have hqueue := hr.queue q
  have hn := hr.nodup q
  rw [hq] at hqueue hn
  have hs := tailqReplace_spliced hqueue hn (hq ▸ hy q)
  exact hr.splice (m := [x]) hq (List.nodup_singleton y) (by simpa using hy) hs

theorem Queue.init_self (h : Heap ι α) (q : ι) : Queue (tailqInit h q) q [] where
  links := trivial
  last := by simp [tailqInit, tqhLast_setLast]
  null := by simp [tailqInit, get_put]

theorem Queue.init_other (hq : Queue h q' l) (hn : l.Nodup) (hne : q' ≠ q) : Queue (tailqInit h q) q' l := by
  have hget : ∀ s ∈ slots (.first q') l, (tailqInit h q).get s = h.get s := by
    intro s hs
    rcases mem_slots.1 hs with rfl | ⟨w, -, rfl⟩
    · simp [tailqInit, get_put, hne]
    · simp [tailqInit, get_put]
  refine ⟨hq.links.congr (nodup_slots_first hn) (fun s hs _ => hget s hs) (fun w _ => by simp [tailqInit]), ?_, ?_⟩
  · simp [tailqInit, tqhLast_setLast, hne, hq.last]
  · rw [hget _ ending_mem, hq.null]

theorem Reps.init (hr : Reps h ls) (q : ι) : Reps (tailqInit h q) (Function.update ls q []) where
  queue := by
    intro q'
    by_cases hne : q' = q
    · subst hne
      rw [Function.update_self]
      exact Queue.init_self h q'
    · rw [Function.update_of_ne hne]
      exact (hr.queue q').init_other (hr.nodup q') hne
  nodup := by
    intro q'
    by_cases hne : q' = q
    · subst hne
      rw [Function.update_self]
      exact List.nodup_nil
    · rw [Function.update_of_ne hne]
      exact hr.nodup q'
  apart := by
    intro q₁ q₂ hne w hw hw'
    by_cases h₁ : q₁ = q
    · subst h₁
      simp at hw
    · by_cases h₂ : q₂ = q
      · subst h₂
        simp at hw'
      · rw [Function.update_of_ne h₁] at hw
        rw [Function.update_of_ne h₂] at hw'
        exact hr.apart q₁ q₂ hne w hw hw'

/-- `TAILQ_CONCAT` before the second head is made empty. -/
def joined (h : Heap ι α) (q₁ q₂ : ι) (x : α) : Heap ι α :=
  let h := h.put (h.tqhLast q₁) (some x)
  let h := h.setPrev x (h.tqhLast q₁)
  h.setLast q₁ (h.tqhLast q₂)

theorem joined_spliced (hr : Reps h ls) (hne : q₁ ≠ q₂) (hq : ls q₂ = x :: l) :
    Spliced h (joined h q₁ q₂ x) q₁ (ending (.first q₁) (ls q₁)) (x :: l) [] := by
  have h₂ := hr.queue q₂
  have hn := hr.nodup q₂
  rw [hq] at h₂ hn
  have hlast := (hr.queue q₁).last
  have happart : ∀ w ∈ x :: l, w ∉ ls q₁ := by
    intro w hw hw'
    exact hr.apart q₁ q₂ hne w hw' (hq ▸ hw)
  have hnext : ∀ w ∈ x :: l, (.next w : Loc ι α) ≠ ending (.first q₁) (ls q₁) := fun w hw =>
    Ne.symm (ending_ne_next (happart w hw))
  have hget : ∀ s ∈ slots (.next x) l, (joined h q₁ q₂ x).get s = h.get s := by
    intro s hs
    have hs' : s ≠ ending (.first q₁) (ls q₁) := by
      rcases mem_slots.1 hs with rfl | ⟨w, hw, rfl⟩
      · exact hnext x List.mem_cons_self
      · exact hnext w (List.mem_cons_of_mem x hw)
    simp [joined, get_put, hlast, hs']
  have hprev : ∀ w, w ≠ x → (joined h q₁ q₂ x).tqePrev w = h.tqePrev w := by
    intro w hw
    simp [joined, tqePrev_setPrev, hw]
  constructor
  case middle =>
    refine ⟨?_, ?_, h₂.links.2.2.congr (nodup_slots_next hn) (fun s hs _ => hget s hs) (fun w hw => hprev w ?_)⟩
    · simp [joined, get_put, hlast]
    · simp [joined, tqePrev_setPrev, hlast]
    · rintro rfl
      exact (List.nodup_cons.1 hn).1 hw
  case seam => rw [ending_cons, hget _ ending_mem, ← ending_cons, h₂.null, List.head?_nil]
  case back => simp
  case last_nil =>
    intro _
    simp [joined, tqhLast_setLast, h₂.last]
  case last_cons => simp
  case get =>
    intro s hs _
    simp [joined, get_put, hlast, hs]
  case prev =>
    intro w hw _
    exact hprev w (fun heq => hw (heq ▸ List.mem_cons_self))
  case others =>
    intro q' hq'
    simp [joined, tqhLast_setLast, hq']

theorem Reps.concat (hr : Reps h ls) (hne : q₁ ≠ q₂) :
    Reps (tailqConcat h q₁ q₂) (Function.update (Function.update ls q₁ (ls q₁ ++ ls q₂)) q₂ []) := by
  cases hq : ls q₂ with
  | nil =>
    have hnil : h.tqhFirst q₂ = none := by
      have hqueue := hr.queue q₂
      rw [hq] at hqueue
      exact hqueue.null
    have hsame : Function.update (Function.update ls q₁ (ls q₁ ++ [])) q₂ [] = ls := by
      rw [List.append_nil, Function.update_eq_self, ← hq, Function.update_eq_self]
    rw [tailqConcat, hnil, hsame]
    exact hr
  | cons x l =>
    have hfirst : h.tqhFirst q₂ = some x := by
      have hlinks := (hr.queue q₂).links
      rw [hq] at hlinks
      exact hlinks.1
    have hs := joined_spliced hr hne hq
    have hconcat : tailqConcat h q₁ q₂ = tailqInit (joined h q₁ q₂ x) q₂ := by rw [tailqConcat, hfirst]; rfl
    have hn₂ : (x :: l).Nodup := hq ▸ hr.nodup q₂
    have happart : ∀ w ∈ x :: l, ∀ q, q ≠ q₂ → w ∉ ls q := by
      intro w hw q hqne
      exact hr.apart q₂ q (Ne.symm hqne) w (hq ▸ hw)
    have hn₁ : (ls q₁ ++ x :: l).Nodup := by
      refine List.nodup_append.2 ⟨hr.nodup q₁, hn₂, ?_⟩
      rintro w hw _ hw' rfl
      exact happart w hw' q₁ hne hw
    have hqueue₁ : Queue (joined h q₁ q₂ x) q₁ (ls q₁ ++ ((x :: l) ++ [])) := by
      have hold : Queue h q₁ (ls q₁ ++ ([] ++ [])) := by simpa using hr.queue q₁
      exact hold.splice (by simpa using hr.nodup q₁) (fun w hw => ⟨happart w hw q₁ hne, List.not_mem_nil⟩) hs
    rw [List.append_nil] at hqueue₁
    rw [hconcat]
    constructor
    case queue =>
      intro q
      by_cases h₂ : q = q₂
      · subst h₂
        rw [Function.update_self]
        exact Queue.init_self _ q
      · rw [Function.update_of_ne h₂]
        by_cases h₁ : q = q₁
        · subst h₁
          rw [Function.update_self]
          exact hqueue₁.init_other hn₁ h₂
        · rw [Function.update_of_ne h₁]
          refine ((hr.queue q).apart h₁ (hr.nodup q) (fun w hw => ?_) hs).init_other (hr.nodup q) h₂
          exact ⟨hr.apart q q₁ h₁ w hw, fun hw' => happart w hw' q h₂ hw, List.not_mem_nil⟩
    case nodup =>
      intro q
      by_cases h₂ : q = q₂
      · subst h₂
        rw [Function.update_self]
        exact List.nodup_nil
      · rw [Function.update_of_ne h₂]
        by_cases h₁ : q = q₁
        · subst h₁
          rw [Function.update_self]
          exact hn₁
        · rw [Function.update_of_ne h₁]
          exact hr.nodup q
    case apart =>
      -- what has been joined was in one of the two, and in no third
      have hfrom : ∀ q w, w ∈ Function.update (Function.update ls q₁ (ls q₁ ++ x :: l)) q₂ [] q →
          q ≠ q₂ ∧ (w ∈ ls q ∨ q = q₁ ∧ w ∈ x :: l) := by
        intro q w hw
        by_cases h₂ : q = q₂
        · subst h₂
          rw [Function.update_self] at hw
          exact absurd hw List.not_mem_nil
        · rw [Function.update_of_ne h₂] at hw
          refine ⟨h₂, ?_⟩
          by_cases h₁ : q = q₁
          · subst h₁
            rw [Function.update_self] at hw
            exact (List.mem_append.1 hw).imp_right (And.intro rfl)
          · rw [Function.update_of_ne h₁] at hw
            exact .inl hw
      intro q q' hqq w hw hw'
      obtain ⟨hq₂, hm | ⟨h₁, hm⟩⟩ := hfrom q w hw
      · obtain ⟨-, hm' | ⟨-, hm'⟩⟩ := hfrom q' w hw'
        · exact hr.apart q q' hqq w hm hm'
        · exact happart w hm' q hq₂ hm
      · obtain ⟨hq₂', hm' | ⟨h₁', -⟩⟩ := hfrom q' w hw'
        · exact happart w hm q' hq₂' hm'
        · exact hqq (h₁.trans h₁'.symm)

end AlgaeBp.Tailq
