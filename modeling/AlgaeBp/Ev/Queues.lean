import AlgaeBp.Ev.Code
import AlgaeBp.Lib.Queues
/-!
# Who owns a record

Between two operations every record is on exactly one queue, and every group
too. Within an operation one record and one group may be loose, on their way
from a queue to another, and one active group may be empty. `Owned` says so,
and each lemma here is one such move.

Only part of the state is concerned: its `View`.
-/
open Queues

namespace AlgaeBp.Ev

/-! ## The part of the state that matters -/

structure View where
  fdQ : List Nat
  spareFdQ : List Nat
  ready : List Nat
  spare : List Nat
  gfd : Nat → Int
  gq : Nat → List Nat
  reg : Nat → Reg
  groups : Nat
  notis : Nat
  fault : Bool

def St.view (s : St) : View where
  fdQ := s.fdQ
  spareFdQ := s.spareFdQ
  ready := s.notiQ
  spare := s.spareNotiQ
  gfd g := (s.group g).fd
  gq g := (s.group g).notiQ
  reg x := (s.noti x).reg
  groups := s.groups
  notis := s.notis
  fault := s.fault

/-- The records that stand for registrations. -/
def View.active (v : View) : List Nat := gathered v.gq v.fdQ ++ v.ready

/-! ## The invariant -/

/-- `regs` are the live registrations; `loose` and `looseFd` are on the move; the group in `hollow` may be empty. -/
structure Owned (v : View) (regs : List (Nat × Reg)) (loose looseFd : List Nat) (hollow : Option Nat) : Prop where
  notis : (v.active ++ v.spare ++ loose).Perm (List.range v.notis)
  groups : (v.fdQ ++ v.spareFdQ ++ looseFd).Perm (List.range v.groups)
  fds : (v.fdQ.map v.gfd).Nodup
  own : ∀ g ∈ v.fdQ, ∀ x ∈ v.gq g, (v.reg x).fd = v.gfd g
  full : ∀ g ∈ v.fdQ, v.gq g = [] → hollow = some g
  live : regs.Perm (v.active.map (fun x => (x, v.reg x)))
  fault : v.fault = false

section
variable {v : View} {regs : List (Nat × Reg)} {loose looseFd : List Nat} {hollow : Option Nat} {g x : Nat}

theorem Owned.nodup (h : Owned v regs loose looseFd hollow) : (v.active ++ v.spare ++ loose).Nodup :=
  h.notis.nodup_iff.2 List.nodup_range

theorem Owned.nodup_groups (h : Owned v regs loose looseFd hollow) : (v.fdQ ++ v.spareFdQ ++ looseFd).Nodup :=
  h.groups.nodup_iff.2 List.nodup_range

theorem Owned.nodup_fdQ (h : Owned v regs loose looseFd hollow) : v.fdQ.Nodup :=
  (List.nodup_append.1 (List.nodup_append.1 h.nodup_groups).1).1

theorem Owned.nodup_active (h : Owned v regs loose looseFd hollow) : v.active.Nodup :=
  (List.nodup_append.1 (List.nodup_append.1 h.nodup).1).1

/-- A record on the move stands for nothing. -/
theorem Owned.loose_notMem (h : Owned v regs [x] looseFd hollow) : x ∉ v.active := by
  intro hx
  have hdisj := (List.nodup_append.1 h.nodup).2.2
  exact hdisj x (List.mem_append_left _ hx) x List.mem_cons_self rfl

theorem Owned.looseFd_notMem (h : Owned v regs loose [g] hollow) : g ∉ v.fdQ := by
  intro hg
  have hdisj := (List.nodup_append.1 h.nodup_groups).2.2
  exact hdisj g (List.mem_append_left _ hg) g List.mem_cons_self rfl

/-- Live registrations have different handles. -/
theorem Owned.handles (h : Owned v regs loose looseFd hollow) : (regs.map Prod.fst).Nodup := by
  have hperm := h.live.map Prod.fst
  rw [List.map_map] at hperm
  refine hperm.nodup_iff.2 ?_
  simpa [Function.comp_def] using h.nodup_active

theorem Owned.mem_active (h : Owned v regs loose looseFd hollow) : x ∈ regs.map Prod.fst ↔ x ∈ v.active := by
  have hperm := h.live.map Prod.fst
  rw [List.map_map] at hperm
  rw [hperm.mem_iff]
  simp [Function.comp_def]

/-! ## Records on the move -/

theorem Owned.popSpare (h : Owned v regs [] looseFd hollow) {rest : List Nat} (hs : v.spare = x :: rest) :
    Owned { v with spare := rest } regs [x] looseFd hollow :=
  { h with
    notis := by
      have hp := h.notis
      rw [hs] at hp
      exact (perm_pop v.active rest x).trans hp }

theorem Owned.newNoti (h : Owned v regs [] looseFd hollow) :
    Owned { v with notis := v.notis + 1 } regs [v.notis] looseFd hollow :=
  { h with
    notis := by
      have hp := h.notis
      rw [List.append_nil] at hp
      rw [List.range_succ]
      exact hp.append_right _ }

theorem Owned.toSpare (h : Owned v regs [x] looseFd hollow) :
    Owned { v with spare := v.spare ++ [x] } regs [] looseFd hollow :=
  { h with notis := by simpa only [View.active, List.append_assoc, List.append_nil] using h.notis }

/-! ## Groups on the move -/

theorem Owned.popSpareFd (h : Owned v regs loose [] hollow) {rest : List Nat} (hs : v.spareFdQ = g :: rest) :
    Owned { v with spareFdQ := rest } regs loose [g] hollow :=
  { h with
    groups := by
      have hp := h.groups
      rw [hs] at hp
      exact (perm_pop v.fdQ rest g).trans hp }

theorem Owned.newFd (h : Owned v regs loose [] hollow) :
    Owned { v with groups := v.groups + 1 } regs loose [v.groups] hollow :=
  { h with
    groups := by
      have hp := h.groups
      rw [List.append_nil] at hp
      rw [List.range_succ]
      exact hp.append_right _ }

theorem Owned.toSpareFd (h : Owned v regs loose [g] hollow) :
    Owned { v with spareFdQ := v.spareFdQ ++ [g] } regs loose [] hollow :=
  { h with groups := by simpa only [List.append_assoc, List.append_nil] using h.groups }

/-- A group becomes active, for a descriptor that has none. -/
theorem Owned.openGroup (h : Owned v regs loose [g] none) {fd : Int} (hfd : fd ∉ v.fdQ.map v.gfd) :
    Owned { v with
      fdQ := v.fdQ ++ [g]
      gfd := Function.update v.gfd g fd
      gq := Function.update v.gq g [] } regs loose [] (some g) := by
  have hg := h.looseFd_notMem
  have hactive : gathered (Function.update v.gq g []) (v.fdQ ++ [g]) = gathered v.gq v.fdQ := by
    rw [gathered_concat, Function.update_self, List.append_nil, gathered_update_of_notMem hg]
  have hold : ∀ g' ∈ v.fdQ, g' ≠ g := fun g' hg' heq => hg (heq ▸ hg')
  refine ⟨?_, ?_, ?_, ?_, ?_, ?_, h.fault⟩
  · simpa only [View.active, hactive] using h.notis
  · exact (perm_leave (List.perm_append_singleton g v.fdQ) v.spareFdQ).symm.trans h.groups
  · rw [List.map_append, List.map_congr_left (fun g' hg' => Function.update_of_ne (hold g' hg') ..)]
    simpa [List.nodup_append, h.fds] using hfd
  · intro g' hg' x hx
    dsimp only at hg' hx ⊢
    rcases List.mem_append.1 hg' with hmem | hnew
    · rw [Function.update_of_ne (hold g' hmem)] at hx ⊢
      exact h.own g' hmem x hx
    · obtain rfl := List.mem_singleton.1 hnew
      rw [Function.update_self] at hx
      exact absurd hx List.not_mem_nil
  · intro g' hg' hempty
    dsimp only at hg' hempty
    rcases List.mem_append.1 hg' with hmem | hnew
    · rw [Function.update_of_ne (hold g' hmem)] at hempty
      exact absurd (h.full g' hmem hempty) (by simp)
    · rw [List.mem_singleton.1 hnew]
  · simpa only [View.active, hactive] using h.live

/-- An empty group becomes a spare one. -/
theorem Owned.retire (h : Owned v regs loose [] (some g)) (hg : g ∈ v.fdQ) (hempty : v.gq g = []) :
    Owned { v with fdQ := v.fdQ.erase g, spareFdQ := v.spareFdQ ++ [g] } regs loose [] none := by
  have hactive : (View.active { v with fdQ := v.fdQ.erase g, spareFdQ := v.spareFdQ ++ [g] }).Perm v.active :=
    (gathered_erase hg hempty).symm.append_right _
  refine ⟨?_, ?_, ?_, ?_, ?_, ?_, h.fault⟩
  · exact ((hactive.append_right _).append_right _).trans h.notis
  · refine List.Perm.trans ?_ ((perm_leave (List.perm_cons_erase hg) v.spareFdQ).trans h.groups)
    simp only [List.append_assoc, List.append_nil, List.Perm.refl]
  · exact h.fds.sublist (List.erase_sublist.map _)
  · exact fun g' hg' => h.own g' (List.mem_of_mem_erase hg')
  · intro g' hg' he
    have heq := Option.some.inj (h.full g' (List.mem_of_mem_erase hg') he)
    exact absurd (heq ▸ hg') (h.nodup_fdQ.not_mem_erase)
  · exact h.live.trans (hactive.map _).symm

/-- A group that has a record is not hollow. -/
theorem Owned.filled (h : Owned v regs loose looseFd (some g)) (hfull : v.gq g ≠ []) :
    Owned v regs loose looseFd none :=
  { h with
    full := by
      intro g' hg' hempty
      have heq := Option.some.inj (h.full g' hg' hempty)
      exact absurd hempty (heq ▸ hfull) }

/-! ## Registrations -/

/-- A loose record becomes a registration of an active group. -/
theorem Owned.link (h : Owned v regs [x] looseFd hollow) (hg : g ∈ v.fdQ) (hh : ∀ g', hollow = some g' → g' = g)
    {r : Reg} (hr : r.fd = v.gfd g) :
    Owned { v with
      gq := Function.update v.gq g (v.gq g ++ [x])
      reg := Function.update v.reg x r } ((x, r) :: regs) [] looseFd none := by
  have hx := h.loose_notMem
  have hactive : (View.active { v with
      gq := Function.update v.gq g (v.gq g ++ [x]), reg := Function.update v.reg x r }).Perm (x :: v.active) :=
    (gathered_join h.nodup_fdQ hg).append_right _
  have hreg : ∀ y ∈ v.active, Function.update v.reg x r y = v.reg y := by
    intro y hy
    have hne : y ≠ x := fun heq => hx (heq ▸ hy)
    exact Function.update_of_ne hne ..
  have hmem : ∀ g' ∈ v.fdQ, ∀ y ∈ v.gq g', y ∈ v.active :=
    fun g' hg' y hy => List.mem_append_left _ (mem_gathered.2 ⟨g', hg', hy⟩)
  refine ⟨?_, h.groups, h.fds, ?_, ?_, ?_, h.fault⟩
  · exact (perm_leave hactive v.spare).symm.trans h.notis
  -- a registration is in the group of its descriptor
  · intro g' hg' y hy
    dsimp only at hy ⊢
    by_cases heq : g' = g
    · subst heq
      rw [Function.update_self] at hy
      rcases List.mem_append.1 hy with hold | hnew
      · rw [hreg y (hmem g' hg' y hold)]
        exact h.own g' hg' y hold
      · obtain rfl := List.mem_singleton.1 hnew
        rw [Function.update_self]
        exact hr
    · rw [Function.update_of_ne heq] at hy
      rw [hreg y (hmem g' hg' y hy)]
      exact h.own g' hg' y hy
  -- the group that was hollow is the one the record joined
  · intro g' hg' hempty
    dsimp only at hempty
    by_cases heq : g' = g
    · subst heq
      rw [Function.update_self] at hempty
      exact absurd hempty (by simp)
    · rw [Function.update_of_ne heq] at hempty
      exact absurd (hh g' (h.full g' hg' hempty)) heq
  · refine List.Perm.trans ?_ (hactive.map _).symm
    dsimp only
    rw [List.map_cons, Function.update_self]
    refine List.Perm.cons _ (h.live.trans ?_)
    rw [List.map_congr_left (fun y hy => congrArg (Prod.mk y) (hreg y hy))]

/-- A record leaves its group, for the loose ones or for those to notify. -/
theorem Owned.leave (h : Owned v regs [] looseFd hollow) (hg : g ∈ v.fdQ) (hx : x ∈ v.gq g)
    (hh : ∀ g', hollow = some g' → g' = g) :
    (∀ g' ∈ v.fdQ, ∀ y ∈ Function.update v.gq g ((v.gq g).erase x) g', (v.reg y).fd = v.gfd g') ∧
    (∀ g' ∈ v.fdQ, Function.update v.gq g ((v.gq g).erase x) g' = [] → some g = some g') := by
  constructor
  · intro g' hg' y hy
    by_cases heq : g' = g
    · subst heq
      rw [Function.update_self] at hy
      exact h.own g' hg' y (List.mem_of_mem_erase hy)
    · rw [Function.update_of_ne heq] at hy
      exact h.own g' hg' y hy
  · intro g' hg' hempty
    by_cases heq : g' = g
    · rw [heq]
    · rw [Function.update_of_ne heq] at hempty
      exact absurd (hh g' (h.full g' hg' hempty)) heq

theorem Owned.unlink (h : Owned v regs [] looseFd hollow) (hg : g ∈ v.fdQ) (hx : x ∈ v.gq g)
    (hh : ∀ g', hollow = some g' → g' = g) {regs' : List (Nat × Reg)} (hregs : regs.Perm ((x, v.reg x) :: regs')) :
    Owned { v with gq := Function.update v.gq g ((v.gq g).erase x) } regs' [x] looseFd (some g) := by
  have hactive : v.active.Perm (x :: View.active { v with gq := Function.update v.gq g ((v.gq g).erase x) }) :=
    (gathered_leave h.nodup_fdQ hg hx).append_right _
  obtain ⟨hown, hfull⟩ := h.leave hg hx hh
  refine ⟨?_, h.groups, h.fds, hown, hfull, ?_, h.fault⟩
  · exact (perm_leave hactive v.spare).trans h.notis
  · exact List.Perm.cons_inv (hregs.symm.trans (h.live.trans (hactive.map _)))

theorem Owned.toReady (h : Owned v regs [] looseFd hollow) (hg : g ∈ v.fdQ) (hx : x ∈ v.gq g)
    (hh : ∀ g', hollow = some g' → g' = g) :
    Owned { v with
      gq := Function.update v.gq g ((v.gq g).erase x)
      ready := v.ready ++ [x] } regs [] looseFd (some g) := by
  have hactive : (View.active { v with
      gq := Function.update v.gq g ((v.gq g).erase x), ready := v.ready ++ [x] }).Perm v.active := by
    have hp := perm_leave (gathered_leave h.nodup_fdQ hg hx) v.ready
    rwa [List.append_nil, List.append_assoc] at hp
  obtain ⟨hown, hfull⟩ := h.leave hg hx hh
  refine ⟨?_, h.groups, h.fds, hown, hfull, ?_, h.fault⟩
  · exact ((hactive.append_right _).append_right _).trans h.notis
  · exact h.live.trans (hactive.map _).symm

/-- A record to notify is taken off. -/
theorem Owned.unready (h : Owned v regs [] looseFd hollow) (hx : x ∈ v.ready) {regs' : List (Nat × Reg)}
    (hregs : regs.Perm ((x, v.reg x) :: regs')) :
    Owned { v with ready := v.ready.erase x } regs' [x] looseFd hollow := by
  have hactive : v.active.Perm (x :: View.active { v with ready := v.ready.erase x }) :=
    ((List.perm_cons_erase hx).append_left _).trans List.perm_middle
  refine ⟨?_, h.groups, h.fds, h.own, h.full, ?_, h.fault⟩
  · exact (perm_leave hactive v.spare).trans h.notis
  · exact List.Perm.cons_inv (hregs.symm.trans (h.live.trans (hactive.map _)))

end

end AlgaeBp.Ev
