import Mathlib.Data.List.Basic
import Mathlib.Tactic.Common
/-!
# Edges in a stream that comes in batches

Each message of a batch is compared with a reference, and what is noticed is
put out. The last message of the batch becomes the reference for the next one.
`feed_eq_iff`: what is put out does not depend on how the messages are cut into
batches just when no message can tell the messages before it from the first
reference.
-/

namespace Batches

variable {F I : Type} (edges : F → F → List I)

/-- What is put out for these batches. -/
def feed : F → List (List F) → List I
  | _, [] => []
  | ref, g :: gs => g.flatMap (edges ref) ++ feed (g.getLastD ref) gs

/-- No message tells what came before it from the first reference. -/
def Blind (ref : F) (ms : List F) : Prop :=
  ∀ pre m post, ms = pre ++ m :: post → ∀ p ∈ pre, edges p m = edges ref m

variable {edges}

theorem feed_cons_concat (ref m : F) (g : List F) (gs : List (List F)) :
    feed edges ref ((g ++ [m]) :: gs) = g.flatMap (edges ref) ++ edges ref m ++ feed edges m gs := by
  simp [feed]

/-- A message that tells nothing apart may as well be compared with the first reference. -/
theorem Blind.flatMap {ref p : F} {pre g post : List F} (h : Blind edges ref (pre ++ g ++ post)) (hp : p = ref ∨ p ∈ pre) :
    g.flatMap (edges p) = g.flatMap (edges ref) := by
  refine List.flatMap_congr (fun m hm => ?_)
  obtain ⟨a, b, rfl⟩ := List.append_of_mem hm
  rcases hp with rfl | hp
  · rfl
  · exact h (pre ++ a) m (b ++ post) (by simp) p (List.mem_append_left _ hp)

theorem Blind.feed {ref p : F} (pre : List F) {gs : List (List F)} (h : Blind edges ref (pre ++ gs.flatten))
    (hp : p = ref ∨ p ∈ pre) : feed edges p gs = gs.flatten.flatMap (edges ref) := by
  induction gs generalizing p pre with
  | nil => rfl
  | cons g gs ih =>
    rw [List.flatten_cons, ← List.append_assoc] at h
    have hlast : g.getLastD p = ref ∨ g.getLastD p ∈ pre ++ g := by
      rcases List.eq_nil_or_concat g with rfl | ⟨g', m, rfl⟩
      · simpa using hp
      · right
        simp
    rw [Batches.feed, ih _ h hlast, h.flatMap hp, List.flatten_cons, List.flatMap_append]

/-- If the cut does not matter, comparing with an earlier message is as good as comparing with the first reference: the
messages between the two are compared with that message in one cut, and with the reference in another. -/
theorem blind_of_feed_eq {ref : F} {ms : List F}
    (h : ∀ gs gs' : List (List F), gs.flatten = ms → gs'.flatten = ms → feed edges ref gs = feed edges ref gs') :
    Blind edges ref ms := by
  intro pre
  induction hn : pre.length using Nat.strongRecOn generalizing pre with
  | ind n ih =>
    rintro m post rfl p hp
    obtain ⟨a, b, rfl⟩ := List.append_of_mem hp
    have hb : b.flatMap (edges p) = b.flatMap (edges ref) := by
      refine List.flatMap_congr (fun x hx => ?_)
      obtain ⟨c, d, rfl⟩ := List.append_of_mem hx
      refine ih (a ++ p :: c).length ?_ (a ++ p :: c) rfl x (d ++ m :: post) (by simp) p (by simp)
      simp only [← hn, List.length_append, List.length_cons]
      omega
    have hcut := h [a ++ [p], b ++ [m], post] [a ++ p :: b ++ [m], post] (by simp) (by simp)
    rw [feed_cons_concat, feed_cons_concat, feed_cons_concat] at hcut
    simpa [hb] using hcut

/-- **The cut does not matter just when no message tells the earlier ones apart.** -/
theorem feed_eq_iff {ref : F} {ms : List F} :
    (∀ gs gs' : List (List F), gs.flatten = ms → gs'.flatten = ms → feed edges ref gs = feed edges ref gs') ↔
      Blind edges ref ms := by
  refine ⟨blind_of_feed_eq, fun h gs gs' hgs hgs' => ?_⟩
  have hfeed : ∀ gs : List (List F), gs.flatten = ms → feed edges ref gs = ms.flatMap (edges ref) := by
    rintro gs rfl
    exact Blind.feed [] (by simpa using h) (.inl rfl)
  rw [hfeed gs hgs, hfeed gs' hgs']

/-- The reference after all batches is the last message, however they are cut. -/
theorem foldl_getLastD (ref : F) (gs : List (List F)) :
    gs.foldl (fun ref g => g.getLastD ref) ref = gs.flatten.getLastD ref := by
  induction gs generalizing ref with
  | nil => rfl
  | cons g gs ih =>
    rw [List.foldl_cons, ih, List.flatten_cons]
    rcases List.eq_nil_or_concat gs.flatten with hgs | ⟨ms, m, hgs⟩
    · simp [hgs]
    · simp [hgs, ← List.append_assoc]

end Batches
