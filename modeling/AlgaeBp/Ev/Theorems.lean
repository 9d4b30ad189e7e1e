import AlgaeBp.Ev.Calls
/-!
# Ownership and delivery

`run_owned`: whatever is put, cancelled and waited for, from inside callbacks
or not, and whichever system calls fail, every record and every group is on
exactly one queue between two operations.

`run_delivers`: every callback is called for a registration that is live, with
what it was put with, and the registration ends there; and one `aloe_ev_once`
makes at most as many calls as there were registrations.
-/
open Queues StateWp

namespace AlgaeBp.Ev

/-! ## Histories -/

/-- Handles are put when they stand for nothing, and what is cancelled or called is live. -/
def Legal : List Event → Prop
  | [] => True
  | .put x _ :: log => x ∉ (live log).map Prod.fst ∧ Legal log
  | .cancel x :: log => x ∈ (live log).map Prod.fst ∧ Legal log
  | .call x r :: log => (x, r) ∈ live log ∧ Legal log

/-- What stays live when a handle ends. -/
theorem live_perm {regs : List (Nat × Reg)} {x : Nat} {r : Reg} (hnd : (regs.map Prod.fst).Nodup) (hx : (x, r) ∈ regs) :
    regs.Perm ((x, r) :: regs.filter (fun p => p.1 ≠ x)) := by
  induction regs with
  | nil => exact absurd hx List.not_mem_nil
  | cons p regs ih =>
    obtain ⟨hp, hnd⟩ := List.nodup_cons.1 hnd
    rcases List.mem_cons.1 hx with heq | hx'
    · -- this is the one, and no other has its handle
      subst heq
      have hrest : ((x, r) :: regs).filter (fun p => p.1 ≠ x) = regs := by
        rw [List.filter_cons_of_neg (by simp), List.filter_eq_self]
        intro p hmem
        have hne : p.1 ≠ x := fun heq => hp (List.mem_map.2 ⟨p, hmem, heq⟩)
        simpa using hne
      rw [hrest]
    · have hne : p.1 ≠ x := fun heq => hp (List.mem_map.2 ⟨(x, r), hx', heq.symm⟩)
      rw [List.filter_cons_of_pos (by simpa using hne)]
      exact ((ih hnd hx').cons p).trans (List.Perm.swap _ _ _)

/-! ## Runs -/

/-- What every run keeps. -/
structure Inv (s : Sys) : Prop where
  owned : Owned s.st.view (live s.log) [] [] none
  legal : Legal s.log
  bounded : ∀ n, s.phase = .callback n → n + s.st.view.ready.length ≤ s.limit

theorem drain_inv {s : Sys} {n : Nat} (h : Owned s.st.view (live s.log) [] [] none) (hl : Legal s.log)
    (hb : n + s.st.view.ready.length ≤ s.limit) : Inv (drain n s) := by
  have hpop := popReady_wp h
  unfold wp at hpop
  unfold drain
  cases hres : popReady s.st with
  | mk r st =>
    rw [hres] at hpop
    cases r with
    | none =>
      obtain rfl : st = s.st := hpop
      exact ⟨h, hl, fun n hn => by cases hn⟩
    | some c =>
      obtain ⟨hmem, hlen, hown⟩ := hpop
      refine ⟨hown _ (live_perm h.handles hmem), ⟨hmem, hl⟩, fun m hm => ?_⟩
      obtain rfl : n + 1 = m := Phase.callback.inj hm
      dsimp only at hlen ⊢
      omega

/-- With nothing left to notify, `aloe_ev_once` returns. -/
theorem drain_idle {s : Sys} {n : Nat} (h : Owned s.st.view (live s.log) [] [] none)
    (hempty : s.st.view.ready.length = 0) : (drain n s).phase = .idle := by
  have hpop := popReady_wp h
  unfold wp at hpop
  unfold drain
  cases hres : popReady s.st with
  | mk r st =>
    rw [hres] at hpop
    cases r with
    | none => rfl
    | some c =>
      obtain ⟨-, hlen, -⟩ := hpop
      omega

theorem put_inv {s : Sys} (h : Inv s) (a : PutArgs) {s' : Sys} (hs : step (.put a) s = some s') : Inv s' := by
  have hput := aloeEvPut_wp a h.owned
  unfold wp at hput
  unfold step at hs
  cases hres : aloeEvPut a s.st with
  | mk r st =>
    simp only [hres] at hs hput
    cases r with
    | none =>
      obtain rfl := Option.some.inj hs
      exact ⟨hput.1, h.legal, fun n hn => hput.2 ▸ h.bounded n hn⟩
    | some x =>
      obtain rfl := Option.some.inj hs
      refine ⟨hput.1, ⟨?_, h.legal⟩, fun n hn => hput.2 ▸ h.bounded n hn⟩
      exact (List.nodup_cons.1 hput.1.handles).1

theorem cancel_inv {s : Sys} (h : Inv s) {x : Nat} (hx : x ∈ (live s.log).map Prod.fst) :
    Inv { s with st := (aloeEvCancel x s.st).2, log := .cancel x :: s.log } := by
  have hactive := h.owned.mem_active.1 hx
  have hmem : (x, s.st.view.reg x) ∈ live s.log :=
    h.owned.live.mem_iff.2 (List.mem_map.2 ⟨x, hactive, rfl⟩)
  have hcancel := aloeEvCancel_wp h.owned hactive (live_perm h.owned.handles hmem)
  refine ⟨hcancel.1, ⟨hx, h.legal⟩, fun n hn => ?_⟩
  exact Nat.le_trans (Nat.add_le_add_left hcancel.2 n) (h.bounded n hn)

/-- There are no more records to notify than registrations. -/
theorem Owned.ready_le {v : View} {regs : List (Nat × Reg)} {loose looseFd : List Nat} {hollow : Option Nat}
    (h : Owned v regs loose looseFd hollow) : v.ready.length ≤ regs.length := by
  rw [h.live.length_eq, List.length_map, View.active, List.length_append]
  omega

theorem once_inv {s : Sys} (h : Inv s) {s' : Sys} (hs : step .once s = some s') : Inv s' := by
  have hcollect := onceCollect_wp h.owned
  unfold wp at hcollect
  unfold step at hs
  cases hphase : s.phase with
  | callback n => simp [hphase] at hs
  | idle =>
    cases hres : onceCollect s.st with
    | mk r st =>
      simp only [hphase, hres] at hs hcollect
      cases r with
      | error e =>
        obtain rfl := Option.some.inj hs
        exact ⟨hcollect, h.legal, fun n hn => by cases hn⟩
      | ok u =>
        obtain rfl := Option.some.inj hs
        refine drain_inv hcollect h.legal ?_
        rw [Nat.zero_add]
        exact hcollect.ready_le

theorem step_inv {a : Act} {s s' : Sys} (h : Inv s) (hs : step a s = some s') : Inv s' := by
  cases a with
  | put a => exact put_inv h a hs
  | get fd cb =>
    obtain rfl := Option.some.inj hs
    have hview : (aloeEvGet fd cb s.st).2.view = s.st.view := quiet_aloeEvGet fd cb s.st
    exact ⟨hview ▸ h.owned, h.legal, fun n hn => hview ▸ h.bounded n hn⟩
  | cancel x =>
    simp only [step] at hs
    split at hs
    · next hx =>
      obtain rfl := Option.some.inj hs
      exact cancel_inv h hx
    · cases hs
  | once => exact once_inv h hs
  | ret =>
    unfold step at hs
    cases hphase : s.phase with
    | idle => simp [hphase] at hs
    | callback n =>
      simp only [hphase] at hs
      obtain rfl := Option.some.inj hs
      exact drain_inv h.owned h.legal (h.bounded n hphase)
  | close fd =>
    obtain rfl := Option.some.inj hs
    exact ⟨h.owned, h.legal, h.bounded⟩

theorem init_inv (busy : Bool) (group : Nat → Group) (noti : Nat → Noti) (oracle : Oracle) :
    Inv (init busy group noti oracle) where
  owned := {
    notis := List.Perm.refl _
    groups := List.Perm.refl _
    fds := List.nodup_nil
    own := fun g hg => absurd hg List.not_mem_nil
    full := fun g hg => absurd hg List.not_mem_nil
    live := List.Perm.refl _
    fault := rfl }
  legal := trivial
  bounded n hn := by cases hn

theorem run_inv {as : List Act} {s s' : Sys} (h : Inv s) (hr : run as s = some s') : Inv s' := by
  induction as generalizing s with
  | nil =>
    obtain rfl := Option.some.inj hr
    exact h
  | cons a as ih =>
    obtain ⟨s₁, hs, hr⟩ := Option.bind_eq_some_iff.1 hr
    exact ih (step_inv h hs) hr

/-! ## Ownership -/

/-- The queues between two operations. -/
structure QueuesOk (s : St) : Prop where
  /-- Every record is on exactly one queue: of an active group, of those to notify, of the spare ones. -/
  noti : ∀ x < s.notis, (gathered (fun g => (s.group g).notiQ) s.fdQ ++ s.notiQ ++ s.spareNotiQ).count x = 1
  /-- Every group is active or spare. -/
  group : ∀ g < s.groups, (s.fdQ ++ s.spareFdQ).count g = 1
  /-- No two active groups have the same descriptor. -/
  fds : (s.fdQ.map (fun g => (s.group g).fd)).Nodup
  own : ∀ g ∈ s.fdQ, ∀ x ∈ (s.group g).notiQ, (s.noti x).fd = (s.group g).fd
  full : ∀ g ∈ s.fdQ, (s.group g).notiQ ≠ []
  fault : s.fault = false

theorem count_range_of_perm {l : List Nat} {n x : Nat} (h : l.Perm (List.range n)) (hx : x < n) : l.count x = 1 := by
  rw [h.count_eq]
  exact List.count_eq_one_of_mem List.nodup_range (List.mem_range.2 hx)

/-- **Every record and every group is on exactly one queue**, and no two live registrations share a handle: between the
operations of every run, and whenever a callback is called. -/
theorem run_owned (busy : Bool) (group : Nat → Group) (noti : Nat → Noti) (oracle : Oracle) (as : List Act) (s : Sys)
    (h : run as (init busy group noti oracle) = some s) : QueuesOk s.st ∧ ((live s.log).map Prod.fst).Nodup := by
  have hown := (run_inv (init_inv busy group noti oracle) h).owned
  refine ⟨⟨fun x hx => ?_, fun g hg => ?_, hown.fds, hown.own, fun g hg hempty => ?_, hown.fault⟩, hown.handles⟩
  · have hp := hown.notis
    rw [List.append_nil] at hp
    exact count_range_of_perm hp hx
  · have hp := hown.groups
    rw [List.append_nil] at hp
    exact count_range_of_perm hp hg
  · exact absurd (hown.full g hg hempty) (by simp)

/-- For a run on fixed inputs: every call succeeds, and the descriptor 3 is always readable. -/
def readable : Oracle := ⟨fun _ => 0, fun _ => ⟨0, 0⟩, fun _ => [(3, epollIn)]⟩

def fresh : Sys := init false (fun _ => ⟨0, 0, 0, false, []⟩) (fun _ => ⟨0, 0, 0, 0, ⟨0, 0⟩, 0⟩) readable

def waitRead (cb cbarg : Nat) : PutArgs := ⟨3, cb, cbarg, flagRead, aloeEvInfinite, 0⟩

/-- A timer without a descriptor. -/
def timer (sec usec : UInt64) : PutArgs := ⟨-1, 100, 7, 0, sec, usec⟩

/-- Two registrations are collected; the first callback takes its own record for another one and cancels the second. -/
def recycled : List Act :=
  [.put (waitRead 100 7), .put (waitRead 101 8), .once, .put (waitRead 102 9), .cancel 1, .ret]

theorem run_owned_recycled : ∃ s, run recycled fresh = some s ∧ (s.st.fdQ, s.st.spareNotiQ) = ([0], [1]) ∧
    QueuesOk s.st ∧ ((live s.log).map Prod.fst).Nodup := by
  have hqueues : (run recycled fresh).map (fun s => (s.st.fdQ, s.st.spareNotiQ)) = some ([0], [1]) := by decide +kernel
  obtain ⟨s, hrun, hs⟩ := Option.map_eq_some_iff.1 hqueues
  exact ⟨s, hrun, hs, run_owned false _ _ readable recycled s hrun⟩

/-! ## Delivery -/

def Event.isCall (x : Nat) : Event → Bool
  | .call y _ => y = x
  | _ => false

/-- The registration with the handle ends. -/
def Event.isEnd (x : Nat) : Event → Bool
  | .call y _ => y = x
  | .cancel y => y = x
  | .put _ _ => false

/-- What is said of registrations and calls. `own` are events since a put, and none of them puts its handle again. -/
structure Delivered (log : List Event) : Prop where
  /-- A registration's callback is called at most once, and with what it was put with. -/
  once : ∀ later own before x r, log = later ++ (own ++ .put x r :: before) → (∀ r', .put x r' ∉ own) →
    own.countP (Event.isCall x) ≤ 1 ∧ ∀ r', .call x r' ∈ own → r' = r
  /-- It is not called after it was cancelled. -/
  cancelled : ∀ later own before x r, log = later ++ (own ++ .put x r :: before) → (∀ r', .put x r' ∉ own) →
    ∀ after old, own = after ++ .cancel x :: old → ∀ r', .call x r' ∉ after
  /-- There is a registration for every call. -/
  put : ∀ later before x r, log = later ++ .call x r :: before →
    ∃ own old, before = own ++ .put x r :: old ∧ ∀ r', .put x r' ∉ own

theorem Legal.suffix (later : List Event) {log : List Event} (h : Legal (later ++ log)) : Legal log := by
  induction later with
  | nil => exact h
  | cons e later ih => cases e <;> exact ih h.2

/-- A handle that is live after a put stands for that put, and has not ended. -/
theorem Legal.live_own {own before : List Event} {x : Nat} {r r' : Reg} (h : Legal (own ++ .put x r :: before))
    (hown : ∀ r', .put x r' ∉ own) (hx : (x, r') ∈ live (own ++ .put x r :: before)) :
    r' = r ∧ own.countP (Event.isEnd x) = 0 := by
  -- no put of `x` in `own`: each of its events leaves `x` live with `r`, or ends it
  induction own with
  | nil =>
    rcases List.mem_cons.1 hx with heq | hbefore
    · cases heq
      exact ⟨rfl, rfl⟩
    · exact absurd (List.mem_map.2 ⟨_, hbefore, rfl⟩) h.1
  | cons e own ih =>
    have hown' : ∀ r', .put x r' ∉ own := fun r' hmem => hown r' (List.mem_cons_of_mem _ hmem)
    cases e with
    | put y q =>
      have hne : y ≠ x := by
        rintro rfl
        exact hown q List.mem_cons_self
      rcases List.mem_cons.1 hx with heq | hrest
      · exact absurd (congrArg Prod.fst heq).symm hne
      · have hih := ih h.2 hown' hrest
        exact ⟨hih.1, by simpa [Event.isEnd] using hih.2⟩
    | cancel y =>
      obtain ⟨hrest, hne⟩ := List.mem_filter.1 hx
      have hne' : y ≠ x := fun heq => by simp [heq] at hne
      have hih := ih h.2 hown' hrest
      exact ⟨hih.1, by simpa [Event.isEnd, hne'] using hih.2⟩
    | call y q =>
      obtain ⟨hrest, hne⟩ := List.mem_filter.1 hx
      have hne' : y ≠ x := fun heq => by simp [heq] at hne
      have hih := ih h.2 hown' hrest
      exact ⟨hih.1, by simpa [Event.isEnd, hne'] using hih.2⟩

/-- A live handle was put and has not been put since. -/
theorem Legal.live_put {log : List Event} {x : Nat} {r : Reg} (h : Legal log) (hx : (x, r) ∈ live log) :
    ∃ own old, log = own ++ .put x r :: old ∧ ∀ r', .put x r' ∉ own := by
  -- the newest event is the put, or the registration was live before it
  induction log with
  | nil => exact absurd hx List.not_mem_nil
  | cons e log ih =>
    have hlater : (x, r) ∈ live log → (∀ r', e ≠ .put x r') →
        ∃ own old, e :: log = own ++ .put x r :: old ∧ ∀ r', .put x r' ∉ own := by
      intro hrest hne
      have hlegal : Legal log := by cases e <;> exact h.2
      obtain ⟨own, old, rfl, hown⟩ := ih hlegal hrest
      refine ⟨e :: own, old, rfl, fun r' hmem => ?_⟩
      rcases List.mem_cons.1 hmem with heq | hmem
      · exact hne r' heq.symm
      · exact hown r' hmem
    cases e with
    | put y q =>
      rcases List.mem_cons.1 hx with heq | hrest
      · cases heq
        exact ⟨[], log, rfl, fun r' => List.not_mem_nil⟩
      · refine hlater hrest (fun r' heq => ?_)
        obtain ⟨rfl, -⟩ := Event.put.inj heq
        exact h.1 (List.mem_map.2 ⟨_, hrest, rfl⟩)
    | cancel y => exact hlater (List.mem_filter.1 hx).1 (fun r' heq => by cases heq)
    | call y q => exact hlater (List.mem_filter.1 hx).1 (fun r' heq => by cases heq)

/-- A call since a put is of that put, and nothing ended the registration before. -/
theorem Legal.call_own (after : List Event) {old before : List Event} {x : Nat} {r r' : Reg}
    (h : Legal ((after ++ .call x r' :: old) ++ .put x r :: before)) (hown : ∀ r', .put x r' ∉ old) :
    r' = r ∧ old.countP (Event.isEnd x) = 0 := by
  rw [List.append_assoc] at h
  have hcall := h.suffix after
  exact hcall.2.live_own hown hcall.1

theorem Legal.calls_le_one {own before : List Event} {x : Nat} {r : Reg} (h : Legal (own ++ .put x r :: before))
    (hown : ∀ r', .put x r' ∉ own) : own.countP (Event.isCall x) ≤ 1 := by
  have hle : ∀ own : List Event, own.countP (Event.isCall x) ≤ own.countP (Event.isEnd x) :=
    fun own => List.countP_mono_left (fun e _ he => by cases e <;> simp_all [Event.isCall, Event.isEnd])
  -- a call needs a live handle, and there is none after an end
  induction own with
  | nil => exact Nat.zero_le _
  | cons e own ih =>
    have hown' : ∀ r', .put x r' ∉ own := fun r' hmem => hown r' (List.mem_cons_of_mem _ hmem)
    have hlegal : Legal (own ++ .put x r :: before) := Legal.suffix [e] h
    by_cases hcall : Event.isCall x e = true
    · cases e with
      | call y r' =>
        obtain rfl : y = x := by simpa [Event.isCall] using hcall
        have hnone := (Legal.call_own [] h hown').2
        have := hle own
        rw [List.countP_cons_of_pos hcall]
        omega
      | put y q => simp [Event.isCall] at hcall
      | cancel y => simp [Event.isCall] at hcall
    · rw [List.countP_cons_of_neg hcall]
      exact ih hlegal hown'

theorem Legal.delivered {log : List Event} (h : Legal log) : Delivered log where
  once := by
    rintro later own before x r rfl hown
    have hlegal := h.suffix later
    refine ⟨hlegal.calls_le_one hown, fun r' hmem => ?_⟩
    obtain ⟨after, old, rfl⟩ := List.append_of_mem hmem
    exact (hlegal.call_own after (fun q hq => hown q (List.mem_append_right _ (List.mem_cons_of_mem _ hq)))).1
  cancelled := by
    rintro later own before x r rfl hown after old rfl r' hmem
    -- the call would come after the cancel, which ended the registration
    obtain ⟨after, mid, rfl⟩ := List.append_of_mem hmem
    have hlegal : Legal ((after ++ .call x r' :: (mid ++ .cancel x :: old)) ++ .put x r :: before) := by
      simpa using h.suffix later
    have hnone := (hlegal.call_own after (fun q hq => hown q (by
      simp only [List.mem_append, List.mem_cons] at hq ⊢
      tauto))).2
    simp [Event.isEnd] at hnone
  put := by
    rintro later before x r rfl
    have hcall := h.suffix later
    exact hcall.2.live_put hcall.1

/-- **Every callback is called for a live registration, once, with what it was put with**; and one `aloe_ev_once` makes
at most as many calls as there were registrations when the wait ended: after that many, it returns. -/
theorem run_delivers (busy : Bool) (group : Nat → Group) (noti : Nat → Noti) (oracle : Oracle) (as : List Act) (s : Sys)
    (h : run as (init busy group noti oracle) = some s) :
    Delivered s.log ∧ ∀ n, s.phase = .callback n →
      n ≤ s.limit ∧ (n = s.limit → ∀ s', step .ret s = some s' → s'.phase = .idle) := by
  have hinv := run_inv (init_inv busy group noti oracle) h
  refine ⟨hinv.legal.delivered, fun n hn => ?_⟩
  have hbound := hinv.bounded n hn
  refine ⟨by omega, fun hlast s' hs => ?_⟩
  simp only [step, hn] at hs
  obtain rfl := Option.some.inj hs
  exact drain_idle hinv.owned (by omega)

theorem run_delivers_recycled : ∃ s, run recycled fresh = some s ∧ s.log.countP (Event.isCall 0) = 1 ∧ Delivered s.log ∧
    ∀ n, s.phase = .callback n → n ≤ s.limit ∧ (n = s.limit → ∀ s', step .ret s = some s' → s'.phase = .idle) := by
  have hcalls : (run recycled fresh).map (fun s => s.log.countP (Event.isCall 0)) = some 1 := by decide +kernel
  obtain ⟨s, hrun, hs⟩ := Option.map_eq_some_iff.1 hcalls
  exact ⟨s, hrun, hs, run_delivers false _ _ readable recycled s hrun⟩

end AlgaeBp.Ev
