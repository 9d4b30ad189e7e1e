import AlgaeBp.Ev.Theorems
import AlgaeBp.Ev.Times
/-!
# How long `aloe_ev_once` waits

The time it passes to `epoll_wait` is that until the nearest deadline, in whole
milliseconds. From `INT_MAX / 1000` whole seconds on it is `INT_MAX`, although
the last of these would still fit.
-/
open Queues StateWp

namespace AlgaeBp.Ev

/-! ## Milliseconds -/

/-- The time to wait with so many nanoseconds left. -/
def waitMs (left : Int) : Int :=
  if left ≤ 0 then 0 else if 2147483000000000 ≤ left then 2147483647 else (left + 999999) / 1000000

theorem bmod_64 {i : Int} (hlow : -9223372036854775808 ≤ i) (hhigh : i < 9223372036854775808) :
    i.bmod 18446744073709551616 = i := by
  rw [Int.bmod_def]
  split <;> omega

theorem dueToTimeoutMs_spec {r : Timespec} (hr : r.Normal) (hsec : 0 ≤ r.sec.toInt) (hpos : 0 < r.ns) :
    (dueToTimeoutMs r).toInt = waitMs r.ns := by
  obtain ⟨hlow, hhigh⟩ := hr
  have hlarge : intMax / 1000 - 1 < r.sec ↔ 2147482 < r.sec.toInt := by
    rw [Int64.lt_iff_toInt_lt]
    rfl
  unfold dueToTimeoutMs waitMs
  rw [if_neg (Int.not_le.2 hpos)]
  simp only [hlarge]
  unfold Timespec.ns
  split
  · rw [if_pos (by omega)]
    rfl
  · next hsmall =>
    have hround : ((r.nsec + 999999) / 1000000).toInt = (r.nsec.toInt + 999999) / 1000000 := by
      have hsum : (r.nsec + 999999).toInt = r.nsec.toInt + 999999 := by
        rw [Int64.toInt_add]
        exact bmod_64 (by change _ ≤ _ + 999999; omega) (by change _ + 999999 < _; omega)
      rw [Int64.toInt_div, hsum]
      change (Int.tdiv _ 1000000).bmod 18446744073709551616 = _
      rw [Int.tdiv_eq_ediv_of_nonneg (by omega)]
      exact bmod_64 (by omega) (by omega)
    have hsecs : (r.sec * 1000).toInt = r.sec.toInt * 1000 := by
      rw [Int64.toInt_mul]
      exact bmod_64 (by change _ ≤ _ * 1000; omega) (by change _ * 1000 < _; omega)
    have hms : (r.sec * 1000 + (r.nsec + 999999) / 1000000).toInt =
        (r.sec.toInt * 1000000000 + r.nsec.toInt + 999999) / 1000000 := by
      rw [Int64.toInt_add, hround, hsecs]
      refine (bmod_64 (by omega) (by omega)).trans ?_
      omega
    generalize r.sec * 1000 + (r.nsec + 999999) / 1000000 = ms at hms
    have hfits : ¬ intMax < ms := by
      rw [Int64.lt_iff_toInt_lt, hms]
      change ¬ 2147483647 < _
      omega
    rw [if_neg hfits, if_neg (by omega), Int32.toInt_toInt64, Int64.toInt_toInt32, hms]
    change Int.bmod _ 4294967296 = _
    rw [Int.bmod_def]
    split <;> omega

theorem timesecSub_spec {a b : Timespec} (ha : a.Normal) (hb : b.Reading) (hlt : b.ns < a.ns) :
    (timesecSub a b).Normal ∧ 0 ≤ (timesecSub a b).sec.toInt ∧ (timesecSub a b).ns = a.ns - b.ns := by
  obtain ⟨halow, hahigh⟩ := ha
  obtain ⟨⟨hblow, hbhigh⟩, hbsec⟩ := hb
  have habound := Int64.toInt_bounds a.sec
  unfold Timespec.ns at hlt
  have hsec : (a.sec - b.sec).toInt = a.sec.toInt - b.sec.toInt := by
    rw [Int64.toInt_sub]
    exact bmod_64 (by omega) (by omega)
  unfold timesecSub Timespec.ns
  simp only [Int64.lt_iff_toInt_lt]
  split
  · next hborrow =>
    have hsec' : (a.sec - b.sec - 1).toInt = a.sec.toInt - b.sec.toInt - 1 := by
      rw [Int64.toInt_sub, hsec]
      exact bmod_64 (by change _ ≤ _ - 1; omega) (by change _ - 1 < _; omega)
    have hnsec : (1000000000 + a.nsec - b.nsec).toInt = 1000000000 + a.nsec.toInt - b.nsec.toInt := by
      have hsum : (1000000000 + a.nsec).toInt = 1000000000 + a.nsec.toInt := by
        rw [Int64.toInt_add]
        exact bmod_64 (by change _ ≤ 1000000000 + _; omega) (by change 1000000000 + _ < _; omega)
      rw [Int64.toInt_sub, hsum]
      exact bmod_64 (by omega) (by omega)
    dsimp only
    rw [hsec', hnsec]
    exact ⟨⟨by dsimp only; omega, by dsimp only; omega⟩, by omega, by omega⟩
  · next hborrow =>
    have hnsec : (a.nsec - b.nsec).toInt = a.nsec.toInt - b.nsec.toInt := by
      rw [Int64.toInt_sub]
      exact bmod_64 (by omega) (by omega)
    dsimp only
    rw [hsec, hnsec]
    exact ⟨⟨by dsimp only; omega, by dsimp only; omega⟩, by omega, by omega⟩

theorem waitFor_spec {due now : Timespec} (hd : due.Normal) (hn : now.Reading) :
    (waitFor due now).toInt = waitMs (due.ns - now.ns) := by
  unfold waitFor
  simp only [timesecCmp_neg hn.toNormal hd]
  split
  · next hlt =>
    obtain ⟨hnormal, hsec, hns⟩ := timesecSub_spec hd hn hlt
    rw [dueToTimeoutMs_spec hnormal hsec (by omega), hns]
  · rw [waitMs, if_pos (by omega)]
    rfl

theorem waitMs_bounds (left : Int) : 0 ≤ waitMs left ∧ waitMs left ≤ 2147483647 := by
  unfold waitMs
  split_ifs <;> omega

/-- The wait does not end before the deadline but for the limit. -/
theorem waitMs_reaches (left : Int) : left ≤ waitMs left * 1000000 ∨ waitMs left = 2147483647 := by
  unfold waitMs
  split_ifs <;> omega

/-- At least a millisecond, unless looping busily is allowed. -/
def raised (busy : Bool) (ms : Int) : Int := if busy then ms else max 1 ms

theorem preventBusy_spec {busy : Bool} {ms : Int64} (hms : 0 ≤ ms.toInt) :
    (preventBusy busy ms).toInt = raised busy ms.toInt := by
  unfold preventBusy raised
  simp only [Int64.le_iff_toInt_le, Int64.lt_iff_toInt_lt]
  have hzero : (0 : Int64).toInt = 0 := rfl
  have hone : (1 : Int64).toInt = 1 := rfl
  rw [hzero, hone]
  cases busy with
  | true => rfl
  | false =>
    change _ = max 1 ms.toInt
    split
    · next hlow =>
      rw [hone]
      omega
    · next hhigh =>
      have hge : 1 ≤ ms.toInt := by
        simp at hhigh
        omega
      omega

/-! ## The nearest deadline -/

/-- `r` is the least of the times in `P`, if there is one. -/
def Least (P : Timespec → Prop) : Option Timespec → Prop
  | none => ∀ d, ¬ P d
  | some d => P d ∧ ∀ e, P e → d.ns ≤ e.ns

theorem Least.congr {P Q : Timespec → Prop} {r : Option Timespec} (h : Least P r) (hPQ : ∀ d, P d ↔ Q d) : Least Q r := by
  have heq : P = Q := funext fun d => propext (hPQ d)
  exact heq ▸ h

/-- A record that waits has this deadline. -/
def Finite (s : St) (x : Nat) (d : Timespec) : Prop := (s.noti x).due = d ∧ d.infinite = false

/-- One turn of the loop over the records. -/
theorem nearest_step {s : St} {x : Nat} (hn : ∀ d, Finite s x d → d.Normal) {P : Timespec → Prop}
    (hP : ∀ d, P d → d.Normal) {due : Option Timespec} (h : Least P due) :
    Least (fun d => P d ∨ Finite s x d)
      (if !(s.noti x).due.infinite ∧ due.all (fun e => timesecCmp (s.noti x).due e < 0) then some (s.noti x).due
        else due) := by
  by_cases hinf : (s.noti x).due.infinite = true
  · -- it has no deadline
    have hnone : ∀ d, ¬ Finite s x d := by
      rintro d ⟨rfl, hfin⟩
      rw [hinf] at hfin
      cases hfin
    rw [if_neg (by simp [hinf])]
    exact h.congr fun d => by simp [hnone]
  have hfin : (s.noti x).due.infinite = false := Bool.eq_false_iff.2 hinf
  have hx : Finite s x (s.noti x).due := ⟨rfl, hfin⟩
  cases due with
  | none =>
    rw [if_pos (by simp [hfin])]
    refine ⟨.inr hx, fun e he => ?_⟩
    rcases he with he | ⟨rfl, -⟩
    · exact absurd he (h e)
    · exact Int.le_refl _
  | some d =>
    obtain ⟨hd, hleast⟩ := h
    have hcmp := timesecCmp_neg (hn _ hx) (hP d hd)
    split
    · next hlt =>
      have hlt : (s.noti x).due.ns < d.ns := hcmp.1 (by simpa using hlt.2)
      refine ⟨.inr hx, fun e he => ?_⟩
      rcases he with he | ⟨rfl, -⟩
      · exact Int.le_trans (Int.le_of_lt hlt) (hleast e he)
      · exact Int.le_refl _
    · next hge =>
      have hge : d.ns ≤ (s.noti x).due.ns := by
        by_contra hlt
        exact hge ⟨by simp [hfin], by simpa using hcmp.2 (Int.not_le.1 hlt)⟩
      refine ⟨.inl hd, fun e he => ?_⟩
      rcases he with he | ⟨rfl, -⟩
      · exact hleast e he
      · exact hge

theorem nearest_least {s : St} (xs : List Nat) (hn : ∀ x ∈ xs, ∀ d, Finite s x d → d.Normal) {P : Timespec → Prop}
    (hP : ∀ d, P d → d.Normal) {due : Option Timespec} (h : Least P due) :
    Least (fun d => P d ∨ ∃ x ∈ xs, Finite s x d) (nearest s xs due) := by
  induction xs generalizing P due with
  | nil => exact h.congr fun d => by simp
  | cons x xs ih =>
    have hstep := nearest_step (hn x List.mem_cons_self) hP h
    have hP' : ∀ d, (P d ∨ Finite s x d) → d.Normal := fun d hd => hd.elim (hP d) (hn x List.mem_cons_self d)
    refine (ih (fun y hy => hn y (List.mem_cons_of_mem _ hy)) hP' hstep).congr fun d => ?_
    simp [or_assoc]

theorem nearest_append (s : St) (xs ys : List Nat) (due : Option Timespec) :
    nearest s (xs ++ ys) due = nearest s ys (nearest s xs due) := by
  induction xs generalizing due with
  | nil => rfl
  | cons x xs ih => exact ih _

theorem nearest_congr {s t : St} (h : t.noti = s.noti) (xs : List Nat) (due : Option Timespec) :
    nearest t xs due = nearest s xs due := by
  induction xs generalizing due with
  | nil => rfl
  | cons x xs ih =>
    unfold nearest
    rw [ih, h]

/-- Only what an `epoll_wait` finds changes in the first loop. -/
structure Scanned (s t : St) : Prop where
  busy : t.withBusySelect = s.withBusySelect
  oracle : t.oracle = s.oracle
  asked : t.asked = s.asked

/-- The first loop finds whether there is a descriptor, and the nearest deadline. -/
theorem scanGroups_spec (gs : List Nat) (hasFd : Bool) (due : Option Timespec) (s : St) :
    wp (scanGroups gs hasFd due) (fun r t => r = (hasFd || gs.any (fun g => 0 ≤ s.view.gfd g),
      nearest s (gathered s.view.gq gs) due) ∧ Scanned s t) s := by
  induction gs generalizing hasFd due s with
  | nil =>
    refine ⟨?_, rfl, rfl, rfl⟩
    rw [List.any_nil, Bool.or_false]
    rfl
  | cons g gs ih =>
    have hset : wp (setGroup g fun e => { e with triggered := 0, epHup := false }) (fun _ t => t.noti = s.noti ∧
        t.view = s.view ∧ Scanned s t) s := ⟨rfl, quiet_setGroup (by simp) s, rfl, rfl, rfl⟩
    refine hset.bind fun _ t ht => ?_
    obtain ⟨hnoti, hview, hscan⟩ := ht
    rw [wp_bind, wp_get]
    change wp (scanGroups gs (hasFd || 0 ≤ t.view.gfd g) (nearest t (t.view.gq g) due)) _ t
    refine (ih _ _ t).mono fun r u hu => ⟨hu.1.trans ?_, hu.2.busy.trans hscan.busy, hu.2.oracle.trans hscan.oracle,
      hu.2.asked.trans hscan.asked⟩
    rw [hview, nearest_congr hnoti, nearest_congr hnoti, ← nearest_append, Bool.or_assoc]
    rfl

theorem timeoutMs_spec (hasFd : Bool) (e : Timespec) (s : St) :
    wp (timeoutMs hasFd (some e)) (fun r t => t.withBusySelect = s.withBusySelect ∧
      ∀ ms, r = .ok ms → ms = waitFor e (s.oracle.clock s.asked)) s := by
  refine (sysClock_wp s).bind fun r t ht => ?_
  obtain ⟨rfl, hr⟩ := ht
  cases r with
  | error e => exact ⟨rfl, nofun⟩
  | ok now =>
    refine ⟨rfl, fun ms hms => ?_⟩
    rw [← hr now rfl]
    exact (Except.ok.inj hms).symm

/-! ## The wait -/

def Registered (s : St) (x : Nat) : Prop := ∃ g ∈ s.fdQ, x ∈ (s.group g).notiQ

/-- Some registration has this deadline. -/
def HasDeadline (s : St) (d : Timespec) : Prop := ∃ x, Registered s x ∧ Finite s x d

/-- What is to be said of the wait when the clock reads `now`. -/
structure WaitTime (s : St) (now : Timespec) (ms : Int) : Prop where
  forever : ms = -1 ↔ (∀ d, ¬ HasDeadline s d) ∧ ∃ x, Registered s x ∧ 0 ≤ (s.noti x).fd
  prompt : (∀ d, ¬ HasDeadline s d) → (∀ x, Registered s x → (s.noti x).fd < 0) → ms = raised s.withBusySelect 0
  /-- The time to the nearest deadline; the wait does not end before it but for the limit. -/
  deadline : ∀ d, HasDeadline s d → ∃ e, HasDeadline s e ∧ (∀ f, HasDeadline s f → e.ns ≤ f.ns) ∧
    ms = raised s.withBusySelect (waitMs (e.ns - now.ns)) ∧ (e.ns ≤ now.ns + ms * 1000000 ∨ ms = 2147483647)
  bounds : -1 ≤ ms ∧ ms ≤ 2147483647

theorem raised_nonneg (busy : Bool) {ms : Int} (h : 0 ≤ ms) : ms ≤ raised busy ms ∧ 0 ≤ raised busy ms ∧
    (ms ≤ 2147483647 → raised busy ms ≤ 2147483647) := by
  unfold raised
  split <;> omega

section
variable {s : St} {now : Timespec}

/-- No registration has a deadline. -/
theorem waitTime_none (hq : QueuesOk s) (hnone : ∀ d, ¬ HasDeadline s d) :
    WaitTime s now (preventBusy s.withBusySelect (if s.fdQ.any (fun g => 0 ≤ s.view.gfd g) then -1 else 0)).toInt := by
  -- a group with a descriptor has a registration with it, and the other way round
  have hfd : s.fdQ.any (fun g => 0 ≤ s.view.gfd g) = true ↔ ∃ x, Registered s x ∧ 0 ≤ (s.noti x).fd := by
    simp only [List.any_eq_true, decide_eq_true_eq]
    constructor
    · rintro ⟨g, hg, hpos⟩
      obtain ⟨x, hx⟩ := List.exists_mem_of_ne_nil _ (hq.full g hg)
      exact ⟨x, ⟨g, hg, hx⟩, (hq.own g hg x hx).symm ▸ hpos⟩
    · rintro ⟨x, ⟨g, hg, hx⟩, hpos⟩
      rw [hq.own g hg x hx] at hpos
      exact ⟨g, hg, hpos⟩
  split
  · next hany =>
    have hms : (preventBusy s.withBusySelect (-1)).toInt = -1 := by
      cases s.withBusySelect <;> rfl
    rw [hms]
    refine ⟨iff_of_true rfl ⟨hnone, hfd.1 hany⟩, fun _ hneg => ?_, fun d hd => absurd hd (hnone d), by omega⟩
    obtain ⟨x, hx, hpos⟩ := hfd.1 hany
    exact absurd hpos (Int.not_le.2 (hneg x hx))
  · next hany =>
    have hms : (preventBusy s.withBusySelect 0).toInt = raised s.withBusySelect 0 := preventBusy_spec (Int.le_refl 0)
    have hraised := raised_nonneg s.withBusySelect (Int.le_refl 0)
    rw [hms]
    refine ⟨iff_of_false (by omega) fun h => hany (hfd.2 h.2), fun _ _ => rfl, fun d hd => absurd hd (hnone d), by omega⟩

/-- Some registration has one. -/
theorem waitTime_some {e : Timespec} (he : HasDeadline s e) (hleast : ∀ f, HasDeadline s f → e.ns ≤ f.ns)
    (hn : e.Normal) (hnow : now.Reading) : WaitTime s now (preventBusy s.withBusySelect (waitFor e now)).toInt := by
  have hwait := waitFor_spec hn hnow
  obtain ⟨hlow, hhigh⟩ := waitMs_bounds (e.ns - now.ns)
  have hms : (preventBusy s.withBusySelect (waitFor e now)).toInt = raised s.withBusySelect (waitFor e now).toInt :=
    preventBusy_spec (by omega)
  rw [hwait] at hms
  obtain ⟨hge, hnonneg, hcap⟩ := raised_nonneg s.withBusySelect hlow
  rw [hms]
  refine ⟨iff_of_false (by omega) fun h => h.1 e he, fun hnone => absurd he (hnone e), fun _ _ => ⟨e, he, hleast, rfl, ?_⟩,
    by omega, hcap hhigh⟩
  have hreach := waitMs_reaches (e.ns - now.ns)
  have hcap := hcap hhigh
  omega

end

/-- **How long `aloe_ev_once` waits.** -/
theorem wait_time (s : St) (hq : QueuesOk s) (hn : ∀ d, HasDeadline s d → d.Normal)
    (hnow : (s.oracle.clock s.asked).Reading) (ms : Int64) (hp : (passed s).1 = .ok ms) :
    WaitTime s (s.oracle.clock s.asked) ms.toInt := by
  have hleast : Least (HasDeadline s) (nearest s (gathered s.view.gq s.fdQ) none) := by
    have hreg : ∀ x, x ∈ gathered s.view.gq s.fdQ ↔ Registered s x := fun x => mem_gathered
    have hnone : Least (fun _ => False) none := fun _ => id
    refine (nearest_least (gathered s.view.gq s.fdQ) (fun x hx d hd => hn d ⟨x, (hreg x).1 hx, hd⟩)
      (fun _ => False.elim) hnone).congr fun d => ?_
    simp only [false_or, hreg]
    rfl
  have hpassed : wp passed (fun r _ => ∀ ms, r = .ok ms → WaitTime s (s.oracle.clock s.asked) ms.toInt) s := by
    unfold passed
    rw [wp_bind, wp_get]
    refine (scanGroups_spec s.fdQ false none s).bind fun r t ht => ?_
    obtain ⟨rfl, hbusy, horacle, hasked⟩ := ht
    rw [Bool.false_or]
    generalize nearest s (gathered s.view.gq s.fdQ) none = due at hleast ⊢
    cases due with
    | none =>
      intro ms hms
      obtain rfl := Except.ok.inj hms
      rw [hbusy]
      exact waitTime_none hq hleast
    | some e =>
      refine (timeoutMs_spec _ e t).bind fun r u hu => ?_
      cases r with
      | error e => exact nofun
      | ok ms =>
        intro ms' hms
        obtain rfl := Except.ok.inj hms
        rw [hu.1, hbusy, hu.2 ms rfl, horacle, hasked]
        exact waitTime_some hleast.1 hleast.2 (hn e hleast.1) hnow
  exact hpassed ms hp

/-- What the runs below come to: one timer that waits, and a clock at zero. -/
structure OneTimer (d : Timespec) (ms : Int64) (s : St) : Prop where
  fdQ : s.fdQ = [0]
  notiQ : (s.group 0).notiQ = [0]
  due : (s.noti 0).due = d
  clock : s.oracle.clock s.asked = ⟨0, 0⟩
  busy : s.withBusySelect = false
  wait : (passed s).1.toOption = some ms

instance (d : Timespec) (ms : Int64) (s : St) : Decidable (OneTimer d ms s) :=
  decidable_of_iff (s.fdQ = [0] ∧ (s.group 0).notiQ = [0] ∧ (s.noti 0).due = d ∧ s.oracle.clock s.asked = ⟨0, 0⟩ ∧
    s.withBusySelect = false ∧ (passed s).1.toOption = some ms)
    ⟨fun ⟨hfdQ, hq, hdue, hclock, hbusy, hms⟩ => ⟨hfdQ, hq, hdue, hclock, hbusy, hms⟩,
      fun ⟨hfdQ, hq, hdue, hclock, hbusy, hms⟩ => ⟨hfdQ, hq, hdue, hclock, hbusy, hms⟩⟩

theorem run_oneTimer (as : List Act) (d : Timespec) (ms : Int64)
    (h : (run as fresh).any (fun s => OneTimer d ms s.st) = true) : ∃ s, run as fresh = some s ∧ OneTimer d ms s.st := by
  obtain ⟨s, hs, ht⟩ := (Option.any_eq_true ..).1 h
  exact ⟨s, hs, of_decide_eq_true ht⟩

theorem OneTimer.spec {s : St} {d : Timespec} {ms : Int64} (h : OneTimer d ms s) (hd : d.infinite = false) :
    HasDeadline s d ∧ (∀ f, HasDeadline s f → f = d) ∧ (passed s).1 = .ok ms := by
  obtain ⟨hfdQ, hq, hdue, -, -, hms⟩ := h
  refine ⟨⟨0, ⟨0, ?_, ?_⟩, hdue, hd⟩, ?_, ?_⟩
  · rw [hfdQ]
    exact List.mem_cons_self
  · rw [hq]
    exact List.mem_cons_self
  · rintro f ⟨x, ⟨g, hg, hx⟩, rfl, -⟩
    rw [hfdQ] at hg
    obtain rfl := List.mem_singleton.1 hg
    rw [hq] at hx
    obtain rfl := List.mem_singleton.1 hx
    exact hdue
  · generalize (passed s).1 = r at hms ⊢
    cases r with
    | error e => cases hms
    | ok ms' => exact congrArg Except.ok (Option.some.inj hms)

theorem wait_time_minute : ∃ s ms, run [.put (timer 60 0)] fresh = some s ∧ (passed s.st).1 = .ok ms ∧ ms = 60000 ∧
    WaitTime s.st (s.st.oracle.clock s.st.asked) ms.toInt := by
  obtain ⟨s, hrun, hs⟩ := run_oneTimer [.put (timer 60 0)] ⟨60, 0⟩ 60000 (by decide +kernel)
  obtain ⟨-, honly, hms⟩ := hs.spec (by decide)
  refine ⟨s, 60000, hrun, hms, rfl, wait_time s.st ?_ (fun d hd => ?_) ?_ 60000 hms⟩
  · exact (run_owned false _ _ readable _ s hrun).1
  · rw [honly d hd]
    exact ⟨by decide, by decide⟩
  · rw [hs.clock]
    exact ⟨⟨by decide, by decide⟩, by decide⟩

/-- The milliseconds of a time, with no other limit than `INT_MAX`. -/
def capped (left : Int) : Int := if left ≤ 0 then 0 else min ((left + 999999) / 1000000) 2147483647

/-- With 2147483 seconds left the wait is 647 ms longer than that. -/
theorem wait_over_deadline : ∃ s e, run [.put (timer 2147483 0)] fresh = some s ∧ HasDeadline s.st e ∧
    (∀ f, HasDeadline s.st f → e.ns ≤ f.ns) ∧ ∃ ms, (passed s.st).1 = .ok ms ∧
      ms.toInt ≠ raised s.st.withBusySelect (capped (e.ns - (s.st.oracle.clock s.st.asked).ns)) := by
  obtain ⟨s, hrun, hs⟩ := run_oneTimer [.put (timer 2147483 0)] ⟨2147483, 0⟩ 2147483647 (by decide +kernel)
  obtain ⟨he, honly, hms⟩ := hs.spec (by decide)
  refine ⟨s, ⟨2147483, 0⟩, hrun, he, fun f hf => honly f hf ▸ Int.le_refl _, 2147483647, hms, ?_⟩
  rw [hs.clock, hs.busy]
  decide

end AlgaeBp.Ev
