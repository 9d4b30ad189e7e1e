import AlgaeBp.Lib.Census
import AlgaeBp.Lib.Runs
import AlgaeBp.Sem.Code
/-!
# What the semaphore keeps

The count stays within its bounds and accounts for every post and wait. A post
wakes a waiter only when it raises the count from zero, so a wakeup can be lost:
`sem_wakeups` says which posts lose none.

A `Tally` is all that matters of a state: the counters, and how many waiters are
asleep and awake. The threads simulate the steps of the tally.
-/
open Census Runs

namespace AlgaeBp.Sem

/-! ## Tallies -/

/-- The counters, and how many waiters sleep or are on their way to the count. -/
structure Tally where
  max : Int
  cnt : Int
  posts : Nat
  waits : Nat
  asleep : Nat
  awake : Nat

/-- What may become of a tally. `C` is promised by those who post. -/
inductive Tally.Step (C : Prop) (t : Tally) : Tally → Prop
  | stay : Step C t t
  | enter : Step C t { t with awake := t.awake + 1 }
  | wake (h : 0 < t.asleep) : Step C t { t with asleep := t.asleep - 1, awake := t.awake + 1 }
  | sleep (h : t.cnt = 0) (ha : 0 < t.awake) : Step C t { t with asleep := t.asleep + 1, awake := t.awake - 1 }
  | take (h : t.cnt ≠ 0) (ha : 0 < t.awake) :
    Step C t { t with cnt := t.cnt - 1, waits := t.waits + 1, awake := t.awake - 1 }
  | first (h : t.cnt = 0) (hm : t.cnt < t.max) (asleep awake : Nat) (ha : asleep + awake = t.asleep + t.awake)
    (hw : asleep = 0 ∨ t.awake < awake) :
    Step C t { t with cnt := t.cnt + 1, posts := t.posts + 1, asleep := asleep, awake := awake }
  | raise (h : t.cnt ≠ 0) (hm : t.cnt < t.max) (hC : C → 1 ≤ t.cnt → t.asleep = 0 ∨ t.cnt + 1 ≤ t.awake) :
    Step C t { t with cnt := t.cnt + 1, posts := t.posts + 1 }

/-- The count is in its bounds, and is what the posts have left over for the waits. -/
structure Tally.Sound (max cnt : Int) (t : Tally) : Prop where
  max_eq : t.max = max
  nonneg : 0 ≤ t.cnt
  le_max : t.cnt ≤ max
  waits_add : t.waits + t.cnt = cnt + t.posts

/-- Nobody sleeps, or there is a waiter awake for every count. -/
def Tally.Served (t : Tally) : Prop := t.asleep = 0 ∨ t.cnt ≤ t.awake

theorem Tally.Sound.step {max cnt : Int} {C : Prop} {t t' : Tally} (h : t.Sound max cnt) (hs : t.Step C t') :
    t'.Sound max cnt := by
  obtain ⟨hmax, hnonneg, hle, hadd⟩ := h
  cases hs with
  | stay => exact ⟨hmax, hnonneg, hle, hadd⟩
  | enter => exact ⟨hmax, hnonneg, hle, hadd⟩
  | wake _ => exact ⟨hmax, hnonneg, hle, hadd⟩
  | sleep _ _ => exact ⟨hmax, hnonneg, hle, hadd⟩
  | take hne _ => constructor <;> dsimp only <;> omega
  | first _ hm asleep awake _ _ => constructor <;> dsimp only <;> omega
  | raise _ hm _ => constructor <;> dsimp only <;> omega

theorem Tally.Served.step {max cnt : Int} {C : Prop} {t t' : Tally} (h : t.Served) (hC : C) (hsound : t.Sound max cnt)
    (hs : t.Step C t') : t'.Served := by
  have hnonneg := hsound.nonneg
  unfold Served at h ⊢
  cases hs with
  | stay => exact h
  | enter => dsimp only; omega
  | wake _ => dsimp only; omega
  | sleep hz ha => dsimp only; omega
  | take hne ha => dsimp only; omega
  | first hz hm asleep awake ha hw => dsimp only; omega
  | raise hne hm hok =>
    have hok := hok hC (by omega)
    dsimp only
    omega

/-! ## Threads -/

variable {ι : Type} [DecidableEq ι] [Fintype ι]

/-- In `aloe_sem_wait`, not blocked, and without its count. -/
def Pc.awake : Pc → Bool
  | .waitLock | .waitTest | .waitSignalled => true
  | _ => false

def Pc.asleep : Pc → Bool
  | .waitBlocked => true
  | _ => false

def tally (s : St ι) : Tally where
  max := s.max
  cnt := s.cnt
  posts := s.posts
  waits := s.waits
  asleep := census Pc.asleep s.pc
  awake := census Pc.awake s.pc

/-- A post that raises the count from one or more finds nobody asleep, or a waiter awake for every count there then
is. -/
def Careful (s : St ι) : Label ι → Prop
  | .run i _ => ∀ broadcast, s.pc i = .postBody broadcast → 1 ≤ s.cnt → s.cnt < s.max →
      (∀ k, s.pc k ≠ .waitBlocked) ∨ s.cnt + 1 ≤ census Pc.awake s.pc
  | _ => True

instance (s : St ι) : (l : Label ι) → Decidable (Careful s l)
  | .run i _ => inferInstanceAs (Decidable (∀ broadcast, s.pc i = .postBody broadcast → 1 ≤ s.cnt → s.cnt < s.max →
      (∀ k, s.pc k ≠ .waitBlocked) ∨ s.cnt + 1 ≤ census Pc.awake s.pc))
  | .post _ _ | .wait _ | .wake _ => isTrue trivial

omit [DecidableEq ι] in
theorem asleep_eq_zero {s : St ι} : census Pc.asleep s.pc = 0 ↔ ∀ k, s.pc k ≠ .waitBlocked := by
  rw [census_eq_zero]
  refine forall_congr' (fun k => ?_)
  cases s.pc k <;> simp [Pc.asleep]

/-- A thread goes elsewhere. -/
theorem tally_goto (i : ι) (pc : Pc) (s : St ι) : tally (goto i pc s) =
    { tally s with
      asleep := (tally s).asleep + pc.asleep.toNat - (s.pc i).asleep.toNat
      awake := (tally s).awake + pc.awake.toNat - (s.pc i).awake.toNat } := by
  have hb := census_update Pc.asleep s.pc i pc
  have ha := census_update Pc.awake s.pc i pc
  simp only [tally, goto, Tally.mk.injEq, true_and]
  omega

/-- It counts there as before. -/
theorem tally_goto_same (i : ι) (pc : Pc) (s : St ι) (hb : (s.pc i).asleep = pc.asleep) (ha : (s.pc i).awake = pc.awake) :
    tally (goto i pc s) = tally s := by
  rw [tally_goto, hb, ha]
  simp only [Nat.add_sub_cancel]

theorem tally_lock {s s' : St ι} {i : ι} {pc : Pc} (hb : (s.pc i).asleep = pc.asleep) (ha : (s.pc i).awake = pc.awake)
    (h : lock i pc s = some s') : tally s' = tally s := by
  unfold lock at h
  split at h
  · obtain rfl := Option.some.inj h
    exact tally_goto_same _ _ _ hb ha
  · cases h

/-- A sleeper wakes up. -/
theorem tally_wake {s : St ι} {i : ι} (h : s.pc i = .waitBlocked) :
    0 < (tally s).asleep ∧ tally (goto i .waitSignalled s) =
      { tally s with asleep := (tally s).asleep - 1, awake := (tally s).awake + 1 } := by
  refine ⟨census_pos.2 ⟨i, by rw [h]; rfl⟩, ?_⟩
  rw [tally_goto, h]
  rfl

omit [DecidableEq ι] in
theorem tally_condBroadcast (s : St ι) : tally (condBroadcast s) =
    { tally s with asleep := 0, awake := (tally s).asleep + (tally s).awake } := by
  have hnone : census Pc.asleep (condBroadcast s).pc = 0 := by
    rw [asleep_eq_zero]
    intro k h
    simp only [condBroadcast] at h
    split at h
    · cases h
    · next hk => exact hk h
  have hall : census Pc.awake (condBroadcast s).pc = census Pc.asleep s.pc + census Pc.awake s.pc := by
    refine census_add (r := fun pc => Pc.awake (if pc = .waitBlocked then .waitSignalled else pc)) (fun pc => ?_) s.pc
    cases pc <;> rfl
  simp only [tally, hnone, hall]
  rfl

/-- A signal wakes one sleeper, if there is one. -/
theorem tally_condSignal {j : ι} {s s' : St ι} (h : condSignal j s = some s') :
    ∃ asleep awake, tally s' = { tally s with asleep := asleep, awake := awake } ∧
      asleep + awake = (tally s).asleep + (tally s).awake ∧ (asleep = 0 ∨ (tally s).awake < awake) := by
  unfold condSignal at h
  split at h
  · next hj =>
    obtain rfl := Option.some.inj h
    obtain ⟨hpos, heq⟩ := tally_wake hj
    exact ⟨_, _, heq, by omega, .inr (by omega)⟩
  · split at h
    · next hk =>
      obtain rfl := Option.some.inj h
      exact ⟨(tally s).asleep, (tally s).awake, rfl, rfl, .inl (asleep_eq_zero.2 hk)⟩
    · cases h

/-- Neither call moves a thread that does not sleep. -/
theorem condSignal_pc {i j : ι} {s s' : St ι} (h : condSignal j s = some s') (hi : s.pc i ≠ .waitBlocked) :
    s'.pc i = s.pc i := by
  unfold condSignal at h
  split at h
  · next hj =>
    obtain rfl := Option.some.inj h
    have hne : i ≠ j := by
      rintro rfl
      exact hi hj
    exact Function.update_of_ne hne _ _
  · split at h
    · rw [Option.some.inj h]
    · cases h

/-- The post of a thread is a step of the tally. -/
theorem tally_semPost {i j : ι} {broadcast : Bool} {s s' : St ι} (hpc : s.pc i = .postBody broadcast)
    (h : semPost broadcast j s = some s') :
    (tally s).Step (Careful s (.run i j)) (tally s') ∧ s'.pc i = s.pc i := by
  have hi : s.pc i ≠ .waitBlocked := by simp [hpc]
  unfold semPost at h
  split at h
  · next hm =>
    dsimp only at h
    split at h
    · next hone =>
      have hz : (tally s).cnt = 0 := by
        simp only [tally]
        omega
      cases broadcast with
      | true =>
        obtain rfl := Option.some.inj h
        refine ⟨?_, if_neg hi⟩
        rw [tally_condBroadcast]
        exact .first hz hm 0 _ (by simp [tally]) (.inl rfl)
      | false =>
        obtain ⟨asleep, awake, heq, hadd, hw⟩ := tally_condSignal h
        refine ⟨?_, (condSignal_pc h hi).trans rfl⟩
        rw [heq]
        exact .first hz hm asleep awake hadd hw
    · next hne =>
      obtain rfl := Option.some.inj h
      refine ⟨.raise ?_ hm (fun hC hle => ?_), rfl⟩
      · simp only [tally]
        omega
      · exact (hC broadcast hpc hle hm).imp_left asleep_eq_zero.2
  · obtain rfl := Option.some.inj h
    exact ⟨.stay, rfl⟩

/-- The test of a waiter is a step of the tally. -/
theorem tally_semWait {i : ι} {s : St ι} (h : s.pc i = .waitTest) (C : Prop) : (tally s).Step C (tally (semWait i s)) := by
  have ha : 0 < (tally s).awake := census_pos.2 ⟨i, by rw [h]; rfl⟩
  unfold semWait
  split
  · next hz =>
    have heq : tally (unlock i .waitBlocked s) =
        { tally s with asleep := (tally s).asleep + 1, awake := (tally s).awake - 1 } := by
      refine (tally_goto i .waitBlocked s).trans ?_
      rw [h]
      rfl
    rw [heq]
    exact .sleep hz ha
  · next hne =>
    have heq : tally (goto i .waitUnlock { s with cnt := s.cnt - 1, waits := s.waits + 1 }) =
        { tally s with cnt := s.cnt - 1, waits := s.waits + 1, awake := (tally s).awake - 1 } := by
      rw [tally_goto]
      dsimp only
      rw [h]
      rfl
    rw [heq]
    exact .take hne ha

/-- **The threads simulate the tally.** -/
theorem tally_step {s s' : St ι} {l : Label ι} (h : step s l = some s') : (tally s).Step (Careful s l) (tally s') := by
  cases l with
  | post i broadcast =>
    simp only [step] at h
    split at h
    · next hpc =>
      obtain rfl := Option.some.inj h
      rw [tally_goto_same _ _ _ (by rw [hpc]; rfl) (by rw [hpc]; rfl)]
      exact .stay
    · cases h
  | wait i =>
    simp only [step] at h
    split at h
    · next hpc =>
      obtain rfl := Option.some.inj h
      have heq : tally (goto i .waitLock s) = { tally s with awake := (tally s).awake + 1 } := by
        rw [tally_goto, hpc]
        rfl
      rw [heq]
      exact .enter
    · cases h
  | wake i =>
    simp only [step] at h
    split at h
    · next hpc =>
      obtain rfl := Option.some.inj h
      obtain ⟨hpos, heq⟩ := tally_wake hpc
      rw [heq]
      exact .wake hpos
    · cases h
  | run i j =>
    simp only [step] at h
    cases hpc : s.pc i <;> simp only [hpc] at h
    case idle => cases h
    case waitBlocked => cases h
    case postLock broadcast =>
      rw [tally_lock (by rw [hpc]; rfl) (by rw [hpc]; rfl) h]
      exact .stay
    case waitLock =>
      rw [tally_lock (by rw [hpc]; rfl) (by rw [hpc]; rfl) h]
      exact .stay
    case waitSignalled =>
      rw [tally_lock (by rw [hpc]; rfl) (by rw [hpc]; rfl) h]
      exact .stay
    case waitTest =>
      obtain rfl := Option.some.inj h
      exact tally_semWait hpc _
    case postBody broadcast =>
      obtain ⟨s₁, hpost, rfl⟩ := Option.map_eq_some_iff.1 h
      obtain ⟨hstep, hsame⟩ := tally_semPost hpc hpost
      rw [tally_goto_same _ _ _ (by rw [hsame, hpc]; rfl) (by rw [hsame, hpc]; rfl)]
      exact hstep
    all_goals
      obtain rfl := Option.some.inj h
      have hidle : tally (unlock i .idle s) = tally s :=
        tally_goto_same i .idle s (by rw [hpc]; rfl) (by rw [hpc]; rfl)
      rw [hidle]
      exact .stay

/-! ## Runs -/

/-- A count is left, a thread sleeps, and no waiter is on its way to the count. -/
def Lost (s : St ι) : Prop := 0 < s.cnt ∧ (∃ i, s.pc i = .waitBlocked) ∧ ∀ i, (s.pc i).awake = false

omit [DecidableEq ι] in
theorem Tally.Served.not_lost {s : St ι} (h : (tally s).Served) : ¬ Lost s := by
  rintro ⟨hcnt, ⟨i, hi⟩, hnone⟩
  have hawake : (tally s).awake = 0 := census_eq_zero.2 hnone
  rcases h with h | h
  · exact asleep_eq_zero.1 h i hi
  · rw [hawake] at h
    exact absurd hcnt (not_lt.2 h)

/-- The thread holds the mutex. -/
def Pc.holds : Pc → Bool
  | .postBody _ | .postUnlock | .waitTest | .waitUnlock => true
  | _ => false

/-- Only the thread that is said to hold the mutex does. -/
def Exclusive (s : St ι) : Prop := ∀ i, (s.pc i).holds = true → s.mutex = some i

/-- What is left when a waiter has taken its count and gone. -/
def taken (i : ι) (s : St ι) : St ι := { goto i .idle s with cnt := s.cnt - 1, waits := s.waits + 1 }

/-- A waiter with the mutex to itself takes its count and leaves. -/
theorem run_taken {s : St ι} {i : ι} (hmutex : s.mutex = none) (hcnt : 0 < s.cnt)
    (hi : s.pc i = .waitLock ∨ s.pc i = .waitSignalled) :
    run step [.run i i, .run i i, .run i i] s = some (taken i s) := by
  have hlock : step s (.run i i) = some { goto i .waitTest s with mutex := some i } := by
    rcases hi with hi | hi <;> simp [step, hi, lock, hmutex]
  have htake : step { goto i .waitTest s with mutex := some i } (.run i i) =
      some { goto i .waitUnlock s with mutex := some i, cnt := s.cnt - 1, waits := s.waits + 1 } := by
    simp [step, goto, semWait, hcnt.ne']
  have hleave : step { goto i .waitUnlock s with mutex := some i, cnt := s.cnt - 1, waits := s.waits + 1 } (.run i i) =
      some (taken i s) := by
    simp [step, goto, unlock, taken, hmutex]
  rw [run, hlock, Option.bind_some, run, htake, Option.bind_some, run_one, hleave]

/-- The waiters that are awake take their counts one by one. If there are more counts than such waiters, a sleeper is
left with one. -/
theorem drains (n : Nat) {s : St ι} (hmutex : s.mutex = none) (hex : ∀ i, (s.pc i).holds = false)
    (hn : census Pc.awake s.pc = n) (hcnt : (n : Int) < s.cnt) (hsleep : ∃ k, s.pc k = .waitBlocked) :
    ∃ ls s', run step ls s = some s' ∧ Lost s' := by
  induction n generalizing s with
  | zero => exact ⟨[], s, rfl, hcnt, hsleep, census_eq_zero.1 hn⟩
  | succ n ih =>
    have hpos : 0 < census Pc.awake s.pc := by omega
    obtain ⟨i, hi⟩ := census_pos.1 hpos
    have hat : s.pc i = .waitLock ∨ s.pc i = .waitSignalled := by
      have hnot := hex i
      cases hpc : s.pc i <;> simp [hpc, Pc.awake, Pc.holds] at hi hnot ⊢
    obtain ⟨k, hk⟩ := hsleep
    have hne : k ≠ i := by
      rintro rfl
      simp [hk, Pc.awake] at hi
    have hcensus := census_update Pc.awake s.pc i .idle
    rw [hi, hn] at hcensus
    have hholds : ∀ j, ((taken i s).pc j).holds = false := by
      intro j
      rcases eq_or_ne j i with rfl | hj
      · simp [taken, goto, Pc.holds]
      · simpa [taken, goto, hj] using hex j
    have hless : (n : Int) < (taken i s).cnt := by
      simp only [taken]
      omega
    obtain ⟨ls, s', hrun, hlost⟩ := ih (s := taken i s) hmutex hholds (Nat.succ.inj hcensus) hless
      ⟨k, (Function.update_of_ne hne _ _).trans hk⟩
    refine ⟨[.run i i, .run i i, .run i i] ++ ls, s', ?_, hlost⟩
    rw [run_append, run_taken hmutex (by omega) hat]
    exact hrun

omit [Fintype ι] in
theorem Exclusive.goto {s : St ι} (h : Exclusive s) {i : ι} {pc : Pc} (hpc : pc.holds = true → s.mutex = some i) :
    Exclusive (goto i pc s) := by
  intro j hj
  rcases eq_or_ne j i with rfl | hne
  · exact hpc (by simpa [Sem.goto] using hj)
  · exact h j (by simpa [Sem.goto, hne] using hj)

omit [Fintype ι] in
theorem Exclusive.lock {s s' : St ι} (h : Exclusive s) {i : ι} {pc : Pc} (hs : lock i pc s = some s') : Exclusive s' := by
  unfold Sem.lock at hs
  split at hs
  · next hnone =>
    obtain rfl := Option.some.inj hs
    intro j hj
    rcases eq_or_ne j i with rfl | hne
    · rfl
    · have hj' := h j (by simpa [Sem.goto, hne] using hj)
      rw [hnone] at hj'
      cases hj'
  · cases hs

omit [Fintype ι] in
/-- Who unlocks the mutex has it. -/
theorem unlocked {s : St ι} (h : Exclusive s) {i : ι} {pc : Pc} (hi : (s.pc i).holds = true) (hpc : pc.holds = false)
    (j : ι) : ((unlock i pc s).pc j).holds = false := by
  rcases eq_or_ne j i with rfl | hne
  · simpa [unlock, goto] using hpc
  · by_contra hj
    have hj' := h j (by simpa [unlock, goto, hne] using hj)
    rw [h i hi] at hj'
    exact hne (Option.some.inj hj').symm

omit [Fintype ι] in
theorem Exclusive.unlock {s : St ι} (h : Exclusive s) {i : ι} {pc : Pc} (hi : (s.pc i).holds = true)
    (hpc : pc.holds = false) : Exclusive (unlock i pc s) := fun j hj => by
  rw [unlocked h hi hpc j] at hj
  cases hj

/-- Posting wakes sleepers, who hold nothing. -/
theorem Exclusive.semPost {s s' : St ι} (h : Exclusive s) {broadcast : Bool} {j : ι}
    (hs : semPost broadcast j s = some s') : Exclusive s' ∧ s'.mutex = s.mutex := by
  unfold Sem.semPost at hs
  split at hs
  · dsimp only at hs
    split at hs
    · split at hs
      · obtain rfl := Option.some.inj hs
        refine ⟨fun i hi => h i ?_, rfl⟩
        simp only [condBroadcast] at hi
        split at hi
        · cases hi
        · exact hi
      · unfold condSignal at hs
        split at hs
        · obtain rfl := Option.some.inj hs
          exact ⟨Exclusive.goto (s := { s with cnt := s.cnt + 1, posts := s.posts + 1 }) h (by simp [Pc.holds]), rfl⟩
        · split at hs
          · obtain rfl := Option.some.inj hs
            exact ⟨h, rfl⟩
          · cases hs
    · obtain rfl := Option.some.inj hs
      exact ⟨h, rfl⟩
  · obtain rfl := Option.some.inj hs
    exact ⟨h, rfl⟩

omit [Fintype ι] in
theorem Exclusive.semWait {s : St ι} (h : Exclusive s) {i : ι} (hi : s.pc i = .waitTest) : Exclusive (semWait i s) := by
  have hholds : (s.pc i).holds = true := by rw [hi]; rfl
  unfold Sem.semWait
  split
  · exact h.unlock hholds rfl
  · exact Exclusive.goto (s := { s with cnt := s.cnt - 1, waits := s.waits + 1 }) h (fun _ => h i hholds)

theorem Exclusive.step {s s' : St ι} (h : Exclusive s) {l : Label ι} (hs : step s l = some s') : Exclusive s' := by
  cases l with
  | run i j =>
    have hheld : ∀ {pc}, s.pc i = pc → pc.holds = true → s.mutex = some i := fun hpc hh => h i (by rw [hpc, hh])
    simp only [Sem.step] at hs
    cases hpc : s.pc i <;> simp only [hpc] at hs
    case idle => cases hs
    case waitBlocked => cases hs
    case postLock broadcast => exact h.lock hs
    case waitLock => exact h.lock hs
    case waitSignalled => exact h.lock hs
    case waitTest =>
      obtain rfl := Option.some.inj hs
      exact h.semWait hpc
    case postBody broadcast =>
      obtain ⟨s₁, hpost, rfl⟩ := Option.map_eq_some_iff.1 hs
      obtain ⟨hex, hmutex⟩ := h.semPost hpost
      exact hex.goto (fun _ => hmutex.trans (hheld hpc rfl))
    all_goals
      obtain rfl := Option.some.inj hs
      exact h.unlock (by rw [hpc]; rfl) rfl
  | _ =>
    simp only [Sem.step] at hs
    split at hs
    · obtain rfl := Option.some.inj hs
      exact h.goto (by simp [Pc.holds])
    · cases hs

/-- A post that is not careful may lose a wakeup: the waiters that are awake leave a count for the sleepers. -/
theorem careless_loses {s s' : St ι} (hex : Exclusive s) {l : Label ι} (hs : step s l = some s') (hc : ¬ Careful s l) :
    ∃ ls s'', run step ls s' = some s'' ∧ Lost s'' := by
  cases l with
  | run i j =>
    simp only [Careful, not_forall, not_or, not_le, ne_eq, not_not] at hc
    obtain ⟨broadcast, hpc, hle, hmax, ⟨k, hk⟩, hfew⟩ := hc
    have hki : k ≠ i := by
      rintro rfl
      rw [hpc] at hk
      cases hk
    have hs' : s' = goto i .postUnlock { s with cnt := s.cnt + 1, posts := s.posts + 1 } := by
      simp only [step, hpc, semPost, if_pos hmax] at hs
      rw [if_neg (by omega)] at hs
      exact (Option.some.inj hs).symm
    have hex' := hex.step hs
    have hholds : (s'.pc i).holds = true := by simp [hs', goto, Pc.holds]
    have hleave : step s' (.run i j) = some (unlock i .idle s') := by simp [step, hs', goto]
    have hcensus : census Pc.awake (unlock i .idle s').pc = census Pc.awake s.pc := by
      rw [hs']
      simp only [unlock, goto, Function.update_idem]
      exact census_update_same (by rw [hpc]; rfl)
    obtain ⟨ls, s'', hrun, hlost⟩ := drains (census Pc.awake s.pc) (s := unlock i .idle s') rfl
      (unlocked hex' hholds rfl) hcensus (by rw [hs']; exact hfew) ⟨k, by simp [hs', unlock, goto, hki, hk]⟩
    exact ⟨.run i j :: ls, s'', by rw [run, hleave]; exact hrun, hlost⟩
  | _ => exact absurd trivial hc

/-- **Which posts lose no wakeup.** In every run the count stays in its bounds and is what the posts leave over for the
waits. If every post that raises it from one or more is careful, no thread sleeps on a count that no waiter is on its
way to; and a post that is not careful may lead to just that. -/
theorem sem_wakeups (max cnt : Int) (h0 : 0 ≤ cnt) (hm : cnt ≤ max) (ls : List (Label ι)) (s : St ι)
    (hr : run step ls (init max cnt) = some s) :
    (0 ≤ s.cnt ∧ s.cnt ≤ max) ∧ s.waits + s.cnt = cnt + s.posts ∧ (Steps step Careful (init max cnt) ls → ¬ Lost s) ∧
      ∀ l s', step s l = some s' → ¬ Careful s l → ∃ ls' s'', run step ls' s' = some s'' ∧ Lost s'' := by
  have hboot : (tally (init max cnt : St ι)).Sound max cnt := ⟨rfl, h0, hm, by simp [tally, init]⟩
  have hsound : (tally s).Sound max cnt :=
    run_inv (I := fun s => (tally s).Sound max cnt) hboot (fun s l s' h hs => h.step (tally_step hs)) hr
  have hexcl : Exclusive s :=
    run_inv (I := Exclusive) (fun i hi => by cases hi) (fun s l s' h hs => h.step hs) hr
  refine ⟨⟨hsound.nonneg, hsound.le_max⟩, hsound.waits_add, fun hc => ?_, fun l s' hs hl => careless_loses hexcl hs hl⟩
  have hserved : (tally s).Sound max cnt ∧ (tally s).Served := by
    refine Steps.inv (I := fun s => (tally s).Sound max cnt ∧ (tally s).Served) hc ⟨hboot, .inl ?_⟩ ?_ hr
    · exact asleep_eq_zero.2 (fun k => by simp [init])
    · exact fun s l s' h hl hs => ⟨h.1.step (tally_step hs), h.2.step hl h.1 (tally_step hs)⟩
  exact hserved.2.not_lost

/-- A thread waits, finds no count and sleeps; another one posts twice, and wakes it up. -/
def posted : List (Label (Fin 3)) :=
  [.wait 0, .run 0 0, .run 0 0, .post 2 false, .run 2 0, .run 2 0, .run 2 0, .post 2 false, .run 2 0, .run 2 0, .run 2 0]

theorem sem_wakeups_posted : ∃ s, run step posted (init 5 0) = some s ∧ (0 ≤ s.cnt ∧ s.cnt ≤ 5) ∧
    s.waits + s.cnt = 0 + s.posts ∧ ¬ Lost s ∧
      ∀ l s', step s l = some s' → ¬ Careful s l → ∃ ls' s'', run step ls' s' = some s'' ∧ Lost s'' := by
  have hsome : (run step posted (init 5 0)).isSome = true := by decide +kernel
  obtain ⟨s, hr⟩ := Option.isSome_iff_exists.1 hsome
  obtain ⟨hbounds, hwaits, hlost, hcareless⟩ := sem_wakeups 5 0 (by decide) (by decide) posted s hr
  exact ⟨s, hr, hbounds, hwaits, hlost (by decide +kernel), hcareless⟩

/-- Two threads sleep, the third posts twice and wakes one of them; that one takes its count and is gone. -/
def doublePost : List (Label (Fin 3)) :=
  [.wait 0, .run 0 0, .run 0 0, .wait 1, .run 1 0, .run 1 0] ++
    [.post 2 false, .run 2 0, .run 2 0, .run 2 0, .post 2 false, .run 2 0, .run 2 0, .run 2 0] ++
    [.run 0 0, .run 0 0, .run 0 0]

/-- The other one sleeps on. -/
theorem wakeup_lost :
    ¬ ∀ (ι : Type) [DecidableEq ι] [Fintype ι] (max cnt : Int) (ls : List (Label ι)) (s : St ι), 0 ≤ cnt → cnt ≤ max →
      run step ls (init max cnt) = some s →
      (0 ≤ s.cnt ∧ s.cnt ≤ max) ∧ s.waits + s.cnt = cnt + s.posts ∧ ¬ Lost s := by
  intro h
  have hend : (run step doublePost (init 5 0)).map (fun s => (s.cnt, s.pc 0, s.pc 1, s.pc 2)) =
      some (1, .idle, .waitBlocked, .idle) := by decide +kernel
  obtain ⟨s, hr, hs⟩ := Option.map_eq_some_iff.1 hend
  simp only [Prod.mk.injEq] at hs
  obtain ⟨hcnt, h0, h1, h2⟩ := hs
  refine (h (Fin 3) 5 0 doublePost s (by decide) (by decide) hr).2.2 ⟨by rw [hcnt]; decide, ⟨1, h1⟩, fun i => ?_⟩
  have hthree : ∀ i : Fin 3, i = 0 ∨ i = 1 ∨ i = 2 := by decide
  rcases hthree i with rfl | rfl | rfl
  · rw [h0]; rfl
  · rw [h1]; rfl
  · rw [h2]; rfl

end AlgaeBp.Sem
