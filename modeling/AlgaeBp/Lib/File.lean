import Mathlib.Data.List.Basic
import Mathlib.Data.List.Infix
/-!
# Files as sequences

A file is a list; writing at an offset replaces what stands there and fills
the gap in front of it. `At f off a` says that `a` stands at an offset. What was
written stands where it was written, and everything before and behind it stands
where it stood.
-/
namespace File

variable {β : Type}

def overwrite (zero : β) (f : List β) (off : Nat) (d : List β) : List β :=
  (f ++ List.replicate (off - f.length) zero).take off ++ d ++ f.drop (off + d.length)

def At (f : List β) (off : Nat) (a : List β) : Prop := a <+: f.drop off

theorem at_nil (f : List β) (off : Nat) : At f off [] := List.nil_prefix

theorem at_append {f : List β} {off : Nat} {a b : List β} : At f off (a ++ b) ↔ At f off a ∧ At f (off + a.length) b := by
  unfold At
  constructor
  · rintro ⟨r, hr⟩
    refine ⟨⟨b ++ r, by rw [← hr, List.append_assoc]⟩, ⟨r, ?_⟩⟩
    rw [← List.drop_drop, ← hr, List.append_assoc, List.drop_left]
  · rintro ⟨⟨r, hr⟩, hb⟩
    rw [← List.drop_drop, ← hr, List.drop_left] at hb
    rw [← hr]
    exact (List.prefix_append_right_inj a).2 hb

theorem At.take {f : List β} {off : Nat} {a : List β} (h : At f off a) : (f.drop off).take a.length = a :=
  (List.prefix_iff_eq_take.1 h).symm

theorem length_before (zero : β) (f : List β) (off : Nat) :
    ((f ++ List.replicate (off - f.length) zero).take off).length = off := by
  simp only [List.length_take, List.length_append, List.length_replicate]
  omega

theorem at_overwrite (zero : β) (f : List β) (off : Nat) (d : List β) : At (overwrite zero f off d) off d := by
  unfold At overwrite
  rw [List.append_assoc, List.drop_left' (length_before zero f off)]
  exact List.prefix_append _ _

/-- What stands before a write stays. -/
theorem At.before {f : List β} {off : Nat} {a : List β} (h : At f off a) (zero : β) {p : Nat} (d : List β)
    (hp : off + a.length ≤ p) : At (overwrite zero f p d) off a := by
  unfold At overwrite at *
  have hl := length_before zero f p
  have hpad : a <+: (f ++ List.replicate (p - f.length) zero).drop off := by
    rw [List.drop_append]
    exact h.trans (List.prefix_append _ _)
  have hcut : a <+: ((f ++ List.replicate (p - f.length) zero).take p).drop off := by
    rw [List.drop_take]
    exact List.prefix_take_iff.2 ⟨hpad, by omega⟩
  rw [List.append_assoc, List.drop_append]
  exact hcut.trans (List.prefix_append _ _)

/-- What stands behind a write stays. -/
theorem At.behind {f : List β} {off : Nat} {a : List β} (h : At f off a) (zero : β) {p : Nat} {d : List β}
    (hp : p + d.length ≤ off) : At (overwrite zero f p d) off a := by
  unfold At overwrite at *
  have hl : ((f ++ List.replicate (p - f.length) zero).take p ++ d).length = p + d.length := by
    rw [List.length_append, length_before]
  have hoff : off = p + d.length + (off - (p + d.length)) := by omega
  rw [hoff] at h ⊢
  rw [← List.drop_drop, ← hl, List.drop_left, hl, List.drop_drop]
  exact h

end File
