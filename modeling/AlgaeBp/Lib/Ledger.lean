import Mathlib.Data.List.Nodup
import Mathlib.Data.List.Perm.Basic
import Mathlib.Tactic.Common
/-!
# Things taken and given back

A `Ledger` has what a program has taken and not given back: descriptors, blocks
of memory, registrations, children. `fault` is set when it takes what it has,
or gives back what it does not have. `Holds l rs`: it has exactly `rs`, and
there was no fault.
-/

namespace Ledgers

structure Ledger (R : Type) where
  held : List R
  fault : Bool

variable {R : Type} {l : Ledger R} {r : R} {rs rs' : List R}

def Ledger.empty : Ledger R := ⟨[], false⟩

structure Holds (l : Ledger R) (rs : List R) : Prop where
  fault : l.fault = false
  held : l.held.Perm rs
  nodup : rs.Nodup

theorem holds_empty : Holds (Ledger.empty : Ledger R) [] := ⟨rfl, .refl _, List.nodup_nil⟩

theorem Holds.perm (h : Holds l rs) (hp : rs.Perm rs') : Holds l rs' := ⟨h.fault, h.held.trans hp, hp.nodup_iff.1 h.nodup⟩

theorem Holds.mem_iff (h : Holds l rs) : r ∈ l.held ↔ r ∈ rs := h.held.mem_iff

variable [DecidableEq R]

def Ledger.take (l : Ledger R) (r : R) : Ledger R := ⟨r :: l.held, l.fault || decide (r ∈ l.held)⟩

def Ledger.give (l : Ledger R) (r : R) : Ledger R := ⟨l.held.erase r, l.fault || !decide (r ∈ l.held)⟩

/-- Something that has to be there is used. -/
def Ledger.use (l : Ledger R) (r : R) : Ledger R := { l with fault := l.fault || !decide (r ∈ l.held) }

theorem Holds.take (h : Holds l rs) (hr : r ∉ l.held) : Holds (l.take r) (r :: rs) where
  fault := by simp [Ledger.take, h.fault, hr]
  held := h.held.cons r
  nodup := List.nodup_cons.2 ⟨fun hm => hr (h.mem_iff.2 hm), h.nodup⟩

theorem Holds.give (h : Holds l (r :: rs)) : Holds (l.give r) rs where
  fault := by
    have hr : r ∈ l.held := h.mem_iff.2 List.mem_cons_self
    simp [Ledger.give, h.fault, hr]
  held := by
    have hp := h.held.erase r
    rwa [List.erase_cons_head] at hp
  nodup := (List.nodup_cons.1 h.nodup).2

theorem Holds.use (h : Holds l rs) (hr : r ∈ rs) : Holds (l.use r) rs where
  fault := by simp [Ledger.use, h.fault, h.mem_iff.2 hr]
  held := h.held
  nodup := h.nodup

end Ledgers
