import AlgaeBp.Evb2.Loop
/-!
# Every run keeps the invariant

The calls meet their preconditions, so every configuration of every run from a
new context is good. Handles that the dispatch loop has released behind the
user's back can be passed in a `stale` run; such a call reads freed memory at
once and the run ends there.
-/
open Reentrant

namespace AlgaeBp.Evb2

section Safety
variable {m : Mode} {b : Boot} {c : Config} {s s' : St}

theorem sound (hm : m.stale = false) : Sound sys (guard m) (logic m) where
  call a s hp hu hc := by
    have hc' : (s.alive && a.handle.all fun h => valid s.log h && (m.stale || !dropped s.log h)) = true := hc
    simp only [hm, Bool.false_or, Bool.and_eq_true] at hc'
    obtain ⟨ha, hh⟩ := hc'
    have hu : AtUser m s := hu
    have hreg : ∀ h, a.handle = some h → registered s.log h = true := fun h he => by
      simpa [he, registered] using hh
    cases a with
    | addFd => exact wp_addFd hu ha fun _ s' hu' hk _ => ⟨hu', hk⟩
    | addOneshotFd => exact wp_addOneshotFd hu ha fun _ s' hu' hk _ => ⟨hu', hk⟩
    | addTimer => exact wp_addFd hu ha fun _ s' hu' hk _ => ⟨hu', hk⟩
    | addOneshotTimer => exact wp_addOneshotTimer hu ha fun _ s' hu' hk => ⟨hu', hk⟩
    | cancel h =>
      exact wp.seq (wp_aloeEvb2Cancel hu ha (hreg h rfl) rfl fun _ _ _ _ _ hu' hk => wp_pure ⟨hu', hk⟩)
    | cancelFd fd =>
      exact wp.seq (wp_aloeEvb2CancelFd hu ha rfl (fun _ => wp_pure ⟨hu, .refl none s⟩)
        fun _ _ _ hs _ _ => wp_pure ⟨hs.user, hs.keeps⟩)
    | setTimeout h ms =>
      exact wp.seq (wp_aloeEvb2SetTimeout hu ha (hreg h rfl) fun _ _ hu' hk => wp_pure ⟨hu', hk⟩)
    | runOnce ms => exact wp.seq (wp_aloeEvb2RunOnce hu ha rfl fun _ _ hu' hk => wp_pure ⟨hu', hk⟩)
    | destroy => exact wp.seq (wp_aloeEvb2Destroy hu ha fun _ hu' hk => wp_pure ⟨hu', hk⟩)
  other _ _ _ hp hg ho := other_interf hp hg ho
  rely_point _ _ hp hr := Interf.point hr hp
  rely_user _ _ _ hu hr := Interf.user hr hu
  rely_refl s := .refl m s
  rely_trans h h' := Interf.trans h h'
  keeps_refl s := .refl none s
  keeps_trans h h' := Keeps.trans h h'

/-! ## A new context -/

theorem init_view (b : Boot) (h : Nat) : (St.init b).view h =
    if h = wake then { hd := some (wakeHandle b.rd), on := (· = .fdmon), noti := False, hist := [] } else .empty := by
  by_cases hh : h = wake
  · subst hh
    simp only [if_true, St.view, St.init, Function.update_self, hist, List.filter_nil, View.mk.injEq, true_and,
      and_true]
    refine ⟨?_, by simp⟩
    funext l
    cases l <;> simp
  · simp only [hh, if_false, St.view, St.init, Function.update_of_ne hh, hist, List.filter_nil, View.empty,
      View.mk.injEq, true_and, and_true]
    refine ⟨?_, by simp⟩
    funext l
    cases l <;> simp [hh]

theorem init_point (m : Mode) (b : Boot) : Point m (St.init b) where
  nodup l := by cases l <;> simp [St.init]
  sane h := by
    rw [init_view]
    split
    · exact ⟨fun l l' _ _ h h' => h.trans h'.symm, by simp, by simp, by simp, by simp, by simp, by simp, by simp⟩
    · exact View.sane_empty
  fresh h hh := by
    rw [init_view, if_neg]
    rintro rfl
    exact absurd hh (show ¬ 1 ≤ 0 by decide)
  wake_lt := show 0 < 1 by decide
  log := trivial
  ctx := by simp [St.init]
  stop := by simp [St.init]
  lock i := by simp [St.init]
  proper := by simp [St.init]
  opened _ := ⟨b.epfd_nonneg, b.rd_nonneg, b.wr_nonneg⟩
  cap := b.cap_pos

theorem init_wakeOk (b : Boot) : WakeOk wake (wakeHandle b.rd) ((St.init b).view wake) := by
  rw [init_view, if_pos rfl]
  exact ⟨rfl, rfl, b.rd_nonneg, rfl, rfl, rfl, rfl, by simp, by simp⟩

theorem init_mirror (b : Boot) : Mirror (St.init b) := by
  intro fd _
  by_cases hfd : fd = b.rd
  · subst hfd
    simp [St.init, St.want, St.flagsOn, wake, wakeHandle]
  · have : ((wakeHandle b.rd).fd = fd) = False := by simpa [wakeHandle] using Ne.symm hfd
    simp [St.init, St.want, St.flagsOn, wake, hfd, this]

theorem init_atUser (m : Mode) (b : Boot) : AtUser m (St.init b) where
  point := init_point m b
  ok h := by
    by_cases hh : h = wake
    · subst hh
      have hw := init_wakeOk b
      refine ⟨by rw [hw.hist]; rfl, ?_⟩
      rw [show ((St.init b).view wake).hd = some (wakeHandle b.rd) by rw [init_view, if_pos rfl]]
      exact .inl hw
    · rw [init_view, if_neg hh]
      exact ok_empty m h
  fin h := by cases h
  wakeFd hd hh := by
    have : (St.init b).heap wake = some (wakeHandle b.rd) := by simp [St.init]
    rw [this] at hh
    cases hh
    rfl
  wakeLive _ := by simp [St.init]
  idle _ _ := by
    refine ⟨rfl, fun h => ?_⟩
    rw [init_view]
    split
    · exact ⟨by simp, by simp, by simp⟩
    · exact ⟨by simp [View.empty], by simp [View.empty], by simp [View.empty]⟩
  dead h := by cases h
  unlocked h := by cases h
  woken _ _ := .inl rfl
  mirror _ _ := init_mirror b

/-! ## Runs -/

theorem Reachable.ok (hr : Reachable m b c) (hm : m.stale = false) :
    CfgOk sys (guard m) (logic m) (St.init b) c := by
  refine (sound hm).reaches ?_ hr
  exact ⟨init_point m b, init_atUser m b, Keeps.refl none _⟩

theorem Reachable.point (hr : Reachable m b c) (hm : m.stale = false) : Point m c.st := (hr.ok hm).1

theorem Reachable.user (hr : Reachable m b c) (hm : m.stale = false) (hu : c.AtUser) : AtUser m c.st :=
  (hr.ok hm).2.atUser hu

/-- The mode in which no handle is passed that has been released behind the user's back. -/
def Mode.fresh (m : Mode) : Mode := { m with stale := false }

/-- The running call is about to read a freed handle. -/
def Config.Stuck (c : Config) : Prop :=
  ∃ a h k rest, c.stack = (a, .op (.load h) k) :: rest ∧ c.st.heap h = none

theorem Config.Stuck.step_none (h : c.Stuck) (l : Label Env Call Other) : step sys (guard m) l c = none := by
  obtain ⟨a, h, k, rest, hst, hh⟩ := h
  obtain ⟨s, stack⟩ := c
  simp only at hst hh
  subst hst
  cases l <;> simp [step, openTo, sys, Op.yields, Op.exec, hh]

/-- The first thing a call does with the handle passed to it is read it. -/
theorem api_load {a : Call} {h : Ptr} (ha : a.handle = some h) : ∃ k, api a = .op (.load h) k := by
  cases a <;> simp only [Call.handle, reduceCtorEq, Option.some.injEq] at ha
  · subst ha; exact ⟨_, rfl⟩
  · subst ha; exact ⟨_, rfl⟩

theorem Core.dropped (hc : Core m s) {h : Ptr} (hd : dropped s.log h = true) : s.heap h = none := by
  have hd' : (s.view h).hist.any Event.drops = true := hd
  obtain ⟨-, hok⟩ := hc.ok h
  cases hh : (s.view h).hd with
  | none => exact hh
  | some x =>
    rw [hh] at hok
    rcases hok with hok | hok
    · rw [hok.hist] at hd'; cases hd'
    · rw [hok.dropped] at hd'; cases hd'

theorem guard_calls_fresh {a : Call} (hc : (guard m).calls a s = true)
    (hd : ∀ h, a.handle = some h → dropped s.log h = false) : (guard m.fresh).calls a s = true := by
  simp only [guard, Mode.fresh, Bool.and_eq_true, Bool.false_or] at hc ⊢
  refine ⟨hc.1, ?_⟩
  cases hh : a.handle with
  | none => rfl
  | some h =>
    have h1 := hc.2
    rw [hh] at h1
    simp only [Option.all_some, Bool.and_eq_true] at h1 ⊢
    exact ⟨h1.1, by simp [hd h hh]⟩

theorem step_fresh {l : Label Env Call Other} (hl : ∀ a, l ≠ .call a) :
    step sys (guard m.fresh) l c = step sys (guard m) l c :=
  step_guard rfl rfl rfl hl

theorem inside_fresh {a : Call} {rest : List (Call × Code Ret)} {p p' : Code Ret}
    (h : Inside sys (guard m) a rest s p s' p') : Inside sys (guard m.fresh) a rest s p s' p' := by
  refine Inside.guard ?_ ?_ ?_ h <;> rfl

/-- A run ends where a handle is passed that has been freed. -/
theorem Reachable.fresh (hr : Reachable m b c) :
    Reachable m.fresh b c ∨ c.Stuck ∧ ∃ c', Reachable m.fresh b c' ∧ c'.st = c.st := by
  refine Reaches.keep (P := fun c : Config => Reachable m.fresh b c ∨
    Config.Stuck c ∧ ∃ c', Reachable m.fresh b c' ∧ c'.st = c.st) hr
    (fun l c c' h hs => ?_) (.inl (.refl _))
  rcases h with h | ⟨h, -⟩
  · cases l with
    | call a =>
      obtain ⟨hu, hc, rfl⟩ := step_call.1 hs
      by_cases hd : ∃ h, a.handle = some h ∧ dropped c.st.log h = true
      · obtain ⟨h', ha, hd⟩ := hd
        obtain ⟨k, hk⟩ := api_load ha
        refine .inr ⟨⟨a, h', k, c.stack, by rw [← hk]; rfl, ?_⟩, c, h, rfl⟩
        exact (h.user rfl hu).toCore.dropped hd
      · refine .inl (h.trans (.one (.call a) ?_))
        simp only [not_exists, not_and, Bool.not_eq_true] at hd
        exact step_call.2 ⟨hu, guard_calls_fresh hc hd, rfl⟩
    | _ =>
      rw [← step_fresh (by simp)] at hs
      exact .inl (h.trans (.one _ hs))
  · rw [h.step_none] at hs; cases hs

end Safety

end AlgaeBp.Evb2
