import AlgaeBp.Ev.Interest
import AlgaeBp.Ev.Times
/-!
# No timeout before its time

`aloe_ev_put` computes a deadline with arithmetic that wraps around, and
`aloe_ev_once` compares it with the clock. `Fits` says for which arguments the
deadline that is computed is never too early: `fits_iff` says it is exactly
those. Over runs, a registration whose arguments fit is not notified before
its time, and one without a deadline never for its time.
-/
open Queues StateWp

namespace AlgaeBp.Ev

/-! ## One deadline -/

/-- When a registration put at `p` is to be notified, in nanoseconds. -/
def deadline (p : Timespec) (a : PutArgs) : Int := p.ns + a.sec.toNat * 1000000000 + a.usec.toNat * 1000

/-- The seconds of the sum, before they wrap around; the nanoseconds have. -/
def dueSeconds (p : Timespec) (a : PutArgs) : Nat :=
  p.sec.toInt.toNat + a.sec.toNat + (p.nsec.toInt.toNat + a.usec.toNat * 1000) % 18446744073709551616 / 1000000000

/-- Nothing wraps around, or the seconds come to those of no deadline at all. -/
def Fits (p : Timespec) (a : PutArgs) : Prop :=
  p.nsec.toInt.toNat + a.usec.toNat * 1000 < 18446744073709551616 ∧ dueSeconds p a < 9223372036854775808 ∨
    dueSeconds p a % 18446744073709551616 = 18446744073709551615

/-- What `aloe_ev_once` asks of a deadline. -/
def Expired (due now : Timespec) : Prop := due.infinite = false ∧ timesecCmp due now ≤ 0

theorem due_spec {p : Timespec} (hp : p.Reading) (a : PutArgs) :
    let due := timesecAdd p a.sec (a.usec * 1000)
    let n := (p.nsec.toInt.toNat + a.usec.toNat * 1000) % 18446744073709551616
    let d := dueSeconds p a % 18446744073709551616
    due.Normal ∧ due.nsec.toInt = n % 1000000000 ∧
      due.sec.toInt = if d < 9223372036854775808 then (d : Int) else d - 18446744073709551616 := by
  intro due n d
  have hspec := timesecAdd_spec hp a.sec (a.usec * 1000)
  have husec : (a.usec * 1000).toNat = a.usec.toNat * 1000 % 18446744073709551616 := by
    rw [UInt64.toNat_mul]
    rfl
  rw [husec, Nat.add_mod_mod] at hspec
  exact hspec

/-- The latest time there is. -/
def latest : Timespec := ⟨9223372036854775807, 999999999⟩

theorem latest_reading : latest.Reading := ⟨⟨by decide, by decide⟩, by decide⟩

theorem deadline_ge {p : Timespec} (hp : p.Reading) (a : PutArgs) : (dueSeconds p a : Int) * 1000000000 ≤ deadline p a := by
  have hps := hp.sec
  have hlow := hp.low
  unfold deadline Timespec.ns dueSeconds
  omega

/-- If the nanoseconds wrap around, the deadline is reached too early, or when it is put. -/
theorem early_of_wrapped {p : Timespec} (hp : p.Reading) {a : PutArgs} (hd : dueSeconds p a < 9223372036854775808)
    (hwrap : 18446744073709551616 ≤ p.nsec.toInt.toNat + a.usec.toNat * 1000) :
    ∃ now : Timespec, now.Reading ∧ p.ns ≤ now.ns ∧ Expired (timesecAdd p a.sec (a.usec * 1000)) now ∧
      now.ns < deadline p a := by
  obtain ⟨hnormal, hnsec, hsec⟩ := due_spec hp a
  have hlow := hp.low
  have hps := hp.sec
  rw [Nat.mod_eq_of_lt (by omega), if_pos hd] at hsec
  generalize timesecAdd p a.sec (a.usec * 1000) = due at hnormal hnsec hsec
  have hreading : due.Reading := ⟨hnormal, by omega⟩
  have hfin : due.infinite = false := by
    rw [Bool.eq_false_iff, ne_eq, infinite_iff]
    omega
  have hdue : due.ns < deadline p a := by
    unfold deadline Timespec.ns
    unfold dueSeconds at hsec
    omega
  by_cases hle : due.ns ≤ p.ns
  · refine ⟨p, hp, Int.le_refl _, ⟨hfin, (timesecCmp_nonpos hnormal hp.toNormal).2 hle⟩, ?_⟩
    have hhigh := hp.high
    unfold deadline
    omega
  · refine ⟨due, hreading, by omega, ⟨hfin, (timesecCmp_nonpos hnormal hnormal).2 (Int.le_refl _)⟩, hdue⟩

/-- Seconds that do not fit into `time_t` are reached before the end of time. -/
theorem early_of_large {p : Timespec} (hp : p.Reading) {a : PutArgs} (hd : 9223372036854775808 ≤ dueSeconds p a)
    (hne : dueSeconds p a % 18446744073709551616 ≠ 18446744073709551615) :
    ∃ now : Timespec, now.Reading ∧ p.ns ≤ now.ns ∧ Expired (timesecAdd p a.sec (a.usec * 1000)) now ∧
      now.ns < deadline p a := by
  obtain ⟨hnormal, -, hsec⟩ := due_spec hp a
  have hge := deadline_ge hp a
  have hlatest : latest.ns = 9223372036854775807999999999 := by decide
  have hle : ∀ t : Timespec, t.Normal → t.ns ≤ latest.ns := by
    intro t ht
    have hb := (Int64.toInt_bounds t.sec).2
    have hhigh := ht.high
    rw [hlatest, Timespec.ns]
    omega
  refine ⟨latest, latest_reading, hle p hp.toNormal, ⟨?_, ?_⟩, by omega⟩
  · rw [Bool.eq_false_iff, ne_eq, infinite_iff]
    split at hsec <;> omega
  · exact (timesecCmp_nonpos hnormal latest_reading.toNormal).2 (hle _ hnormal)

theorem Fits.timely {p now : Timespec} {a : PutArgs} (h : Fits p a) (hp : p.Reading) (hnow : now.Reading)
    (hexp : Expired (timesecAdd p a.sec (a.usec * 1000)) now) : deadline p a ≤ now.ns := by
  obtain ⟨hnormal, hnsec, hsec⟩ := due_spec hp a
  obtain ⟨hfin, hcmp⟩ := hexp
  rcases h with ⟨hn, hd⟩ | hinf
  · -- the deadline is exact
    have hle := (timesecCmp_nonpos hnormal hnow.toNormal).1 hcmp
    have hlow := hp.low
    have hps := hp.sec
    unfold Timespec.ns at hle
    unfold deadline Timespec.ns
    rw [Nat.mod_eq_of_lt (by omega), if_pos hd] at hsec
    unfold dueSeconds at hsec
    omega
  · -- it is none at all
    rw [hinf, if_neg (by omega)] at hsec
    have hone : (timesecAdd p a.sec (a.usec * 1000)).sec.toInt = -1 := by omega
    rw [(infinite_iff _).2 hone] at hfin
    cases hfin

/-- **The deadline that is computed is never too early exactly if the arguments fit.** -/
theorem fits_iff {p : Timespec} (hp : p.Reading) (a : PutArgs) :
    Fits p a ↔ ∀ now : Timespec, now.Reading → p.ns ≤ now.ns → Expired (timesecAdd p a.sec (a.usec * 1000)) now →
      deadline p a ≤ now.ns := by
  constructor
  · intro h now hnow _ hexp
    exact h.timely hp hnow hexp
  · intro h
    by_contra hcon
    obtain ⟨hcon, hne⟩ := not_or.1 hcon
    have hearly : ∃ now : Timespec, now.Reading ∧ p.ns ≤ now.ns ∧ Expired (timesecAdd p a.sec (a.usec * 1000)) now ∧
        now.ns < deadline p a := by
      by_cases hd : dueSeconds p a < 9223372036854775808
      · exact early_of_wrapped hp hd (Nat.le_of_not_lt fun hn => hcon ⟨hn, hd⟩)
      · exact early_of_large hp (Nat.le_of_not_lt hd) hne
    obtain ⟨now, hnow, hpn, hexp, hlt⟩ := hearly
    exact absurd (h now hnow hpn hexp) (Int.not_le.2 hlt)

/-! ## Deadlines on the queues -/

/-- `W` holds of the deadline of every record that waits, and `R` of every record that is to be notified. A group is not
marked with a timeout. -/
structure Dated (o : Oracle) (W : Nat → Timespec → Prop) (R : Nat → Noti → Prop) (s : St) : Prop where
  oracle : s.oracle = o
  waiting : ∀ g ∈ s.fdQ, ∀ x ∈ (s.group g).notiQ, W x (s.noti x).due
  ready : ∀ x ∈ s.notiQ, R x (s.noti x)
  marks : ∀ g ∈ s.fdQ, (s.group g).triggered &&& flagTime = 0

section Dated
variable {o : Oracle} {W : Nat → Timespec → Prop} {R : Nat → Noti → Prop}

/-- A group loses records, if anything. -/
theorem Dated.setGroup {s : St} (h : Dated o W R s) {g : Nat} {e : Group} (hq : ∀ x ∈ e.notiQ, x ∈ (s.group g).notiQ)
    (ht : (s.group g).triggered &&& flagTime = 0 → e.triggered &&& flagTime = 0) :
    Dated o W R { s with group := Function.update s.group g e } := by
  refine ⟨h.oracle, fun g' hg' x hx => h.waiting g' hg' x ?_, h.ready, fun g' hg' => ?_⟩
  · by_cases heq : g' = g
    · subst heq
      exact hq x (by simpa using hx)
    · simpa [heq] using hx
  · have hmark := h.marks g' hg'
    by_cases heq : g' = g
    · subst heq
      simpa using ht hmark
    · simpa [heq] using hmark

theorem dated_setGroup {g : Nat} {f : Group → Group} (hq : ∀ e, ∀ x ∈ (f e).notiQ, x ∈ e.notiQ)
    (ht : ∀ e, e.triggered &&& flagTime = 0 → (f e).triggered &&& flagTime = 0) : Keeps (Dated o W R) (setGroup g f) :=
  keeps_modify fun _ h => h.setGroup (hq _) (ht _)

theorem dated_ask : Keeps (Dated o W R) ask :=
  keeps_get.bind fun _ => (keeps_modify fun _ h => ⟨h.oracle, h.waiting, h.ready, h.marks⟩).bind fun _ => keeps_pure _

theorem dated_sysClock : Keeps (Dated o W R) sysClock := dated_ask.bind fun _ => keeps_get.bind fun _ => keeps_pure _

theorem dated_sysMalloc : Keeps (Dated o W R) sysMalloc := dated_ask.bind fun _ => keeps_pure _

theorem dated_sysEpollWait (ms : Int64) : Keeps (Dated o W R) (sysEpollWait ms) :=
  dated_ask.bind fun _ => keeps_get.bind fun _ => keeps_pure _

theorem dated_sysEpollCtl (op : Ctl) (fd : Int) : Keeps (Dated o W R) (sysEpollCtl op fd) :=
  dated_ask.bind fun _ => keeps_get.bind fun _ => (keeps_pure _).ite
    ((keeps_modify fun _ h => ⟨h.oracle, h.waiting, h.ready, h.marks⟩).bind fun _ => keeps_pure _)

theorem dated_takeOff (x : Nat) (q : List Nat) : Keeps (Dated o W R) (takeOff x q) :=
  (keeps_modify fun _ h => ⟨h.oracle, h.waiting, h.ready, h.marks⟩).bind fun _ => keeps_pure _

theorem dated_toSpareNoti (x : Nat) : Keeps (Dated o W R) (toSpareNoti x) :=
  keeps_modify fun _ h => ⟨h.oracle, h.waiting, h.ready, h.marks⟩

theorem dated_toSpareFd (g : Nat) : Keeps (Dated o W R) (toSpareFd g) :=
  keeps_modify fun _ h => ⟨h.oracle, h.waiting, h.ready, h.marks⟩

theorem dated_offGroup (g x : Nat) : Keeps (Dated o W R) (offGroup g x) := by
  refine Keeps.reads fun s h => ?_
  have htake : wp (takeOff x (s.group g).notiQ) (fun q t => (∀ y ∈ q, y ∈ (s.group g).notiQ) ∧ t.group = s.group ∧
      Dated o W R t) s := ⟨fun y hy => List.mem_of_mem_erase hy, rfl, dated_takeOff x _ s h⟩
  refine htake.bind fun q t ht => ?_
  obtain ⟨hq, hgroup, ht⟩ := ht
  rw [← hgroup] at hq
  exact ht.setGroup hq id

theorem dated_offReady (x : Nat) : Keeps (Dated o W R) (offReady x) := by
  refine Keeps.reads fun s h => ?_
  have htake : wp (takeOff x s.notiQ) (fun q t => (∀ y ∈ q, y ∈ s.notiQ) ∧ t.notiQ = s.notiQ ∧ Dated o W R t) s :=
    ⟨fun y hy => List.mem_of_mem_erase hy, rfl, dated_takeOff x _ s h⟩
  refine htake.bind fun q t ht => ?_
  obtain ⟨hq, hready, ht⟩ := ht
  exact ⟨ht.oracle, ht.waiting, fun y hy => ht.ready y (hready ▸ hq y hy), ht.marks⟩

theorem dated_retireIfEmpty (g : Nat) : Keeps (Dated o W R) (retireIfEmpty g) := by
  have hretire : Keeps (Dated o W R) (retireFd g) := by
    refine Keeps.reads fun s h => ?_
    have htake : wp (takeOff g s.fdQ) (fun q t => (∀ y ∈ q, y ∈ s.fdQ) ∧ t.fdQ = s.fdQ ∧ Dated o W R t) s :=
      ⟨fun y hy => List.mem_of_mem_erase hy, rfl, dated_takeOff g _ s h⟩
    refine htake.bind fun q t ht => wp.update (dated_toSpareFd g _ ?_)
    obtain ⟨hq, hfdQ, ht⟩ := ht
    exact ⟨ht.oracle, fun g' hg' => ht.waiting g' (hfdQ ▸ hq g' hg'), ht.ready, fun g' hg' => ht.marks g' (hfdQ ▸ hq g' hg')⟩
  exact keeps_get.bind fun _ => hretire.ite (keeps_pure _)

theorem dated_fdEpRefresh (g : Nat) : Keeps (Dated o W R) (fdEpRefresh g) := by
  have hset : ∀ mask, Keeps (Dated o W R) (setGroup g fun e => { e with epWait := mask }) :=
    fun _ => dated_setGroup (fun _ _ hx => hx) fun _ ht => ht
  have hdel : ∀ fd, Keeps (Dated o W R) (epollDel g fd) := fun fd =>
    (dated_sysEpollCtl _ fd).bind fun _ => (keeps_pure _).ite ((hset 0).bind fun _ => keeps_pure _)
  have hadd : ∀ events fd, Keeps (Dated o W R) (epollAddOrMod events g fd) := fun events fd =>
    (dated_sysEpollCtl _ fd).bind fun _ => (keeps_pure _).ite
      (((dated_sysEpollCtl _ fd).bind fun _ => keeps_pure _).ite (keeps_pure _))
  have hepoll : ∀ mask fd, Keeps (Dated o W R) (epollSet mask g fd) := fun mask fd =>
    (hadd _ fd).bind fun _ => ((hset mask).bind fun _ => keeps_pure _).ite (keeps_pure _)
  exact keeps_get.bind fun _ => (keeps_pure _).ite ((hdel _).ite ((keeps_pure _).ite (hepoll _ _)))

/-! ### Cancelling -/

theorem dated_cancelReady (x : Nat) : Keeps (Dated o W R) (cancelReady x) :=
  keeps_get.bind fun _ => ((dated_offReady x).bind fun _ => dated_toSpareNoti x).ite (keeps_pure _)

theorem dated_fdQFind (fd : Int) : Keeps (Dated o W R) (fdQFind fd) := keeps_get.bind fun _ => keeps_pure _

theorem dated_aloeEvCancel (x : Nat) : Keeps (Dated o W R) (aloeEvCancel x) := by
  refine keeps_get.bind fun s => (dated_fdQFind (s.noti x).fd).bind fun r => ?_
  cases r with
  | none => exact dated_cancelReady x
  | some g =>
    refine keeps_get.bind fun _ => Keeps.ite ?_ (dated_cancelReady x)
    exact (dated_offGroup g x).bind fun _ => (dated_toSpareNoti x).bind fun _ => (dated_fdEpRefresh g).bind fun _ =>
      dated_retireIfEmpty g

theorem dated_aloeEvGet (fd : Int) (cb : Nat) : Keeps (Dated o W R) (aloeEvGet fd cb) := by
  refine (dated_fdQFind fd).bind fun r => ?_
  cases r with
  | none => exact keeps_pure _
  | some g => exact keeps_get.bind fun _ => keeps_pure _

/-- What is notified was ready. -/
theorem popReady_dated {s : St} (h : Dated o W R s) :
    wp popReady (fun r t => Dated o W R t ∧ (r = none → t.notiQ = []) ∧
      ∀ c, r = some c → R c.x (s.noti c.x) ∧ c.triggered = (s.noti c.x).evNoti) s := by
  unfold popReady
  rw [wp_bind, wp_get]
  split
  · next hq => exact ⟨h, fun _ => hq, nofun⟩
  · next x rest hq =>
    have hx : R x (s.noti x) := h.ready x (hq ▸ List.mem_cons_self)
    refine (dated_offReady x s h).bind fun _ t ht =>
      (dated_toSpareNoti x t ht).bind fun _ u hu => ⟨hu, nofun, fun c hc => ?_⟩
    obtain rfl := Option.some.inj hc
    exact ⟨hx, rfl⟩

theorem Dated.mono {W' : Nat → Timespec → Prop} {R' : Nat → Noti → Prop} {s : St} (h : Dated o W R s)
    (hW : ∀ g ∈ s.fdQ, ∀ x ∈ (s.group g).notiQ, W x (s.noti x).due → W' x (s.noti x).due)
    (hR : ∀ x ∈ s.notiQ, R x (s.noti x) → R' x (s.noti x)) : Dated o W' R' s :=
  ⟨h.oracle, fun g hg x hx => hW g hg x hx (h.waiting g hg x hx), fun x hx => hR x hx (h.ready x hx), h.marks⟩

/-! ### Putting -/

/-- The record `x` waits with this deadline, and the others as before. -/
def Joined (W : Nat → Timespec → Prop) (x : Nat) (due : Timespec) : Nat → Timespec → Prop :=
  fun y d => if y = x then d = due else W y d

/-- The record `x` is not ready, and the others are as before. -/
def Apart (R : Nat → Noti → Prop) (x : Nat) : Nat → Noti → Prop := fun y e => y ≠ x ∧ R y e

theorem chainNoti_dated {s : St} (h : Dated o W R s) {g x : Nat} (a : PutArgs) (due : Timespec) (hx : x ∉ s.view.active) :
    wp (chainNoti g x a due) (fun _ => Dated o (Joined W x due) (Apart R x)) s := by
  have hnoti : ∀ y ≠ x, Function.update s.noti x { s.noti x with
      fd := a.fd, cb := a.cb, cbarg := a.cbarg, evWait := a.evWait, due := due } y = s.noti y :=
    fun y hy => Function.update_of_ne hy ..
  have hold : ∀ g' ∈ s.fdQ, ∀ y ∈ (s.group g').notiQ, y ≠ x := fun g' hg' y hy heq =>
    hx (heq ▸ List.mem_append_left _ (mem_gathered.2 ⟨g', hg', hy⟩))
  refine ⟨h.oracle, fun g' hg' y hy => ?_, fun y hy => ?_, fun g' hg' => ?_⟩
  · change Joined W x due y (Function.update s.noti x _ y).due
    unfold Joined
    split
    · next heq => rw [heq, Function.update_self]
    · next hne =>
      rw [hnoti y hne]
      refine h.waiting g' hg' y ?_
      change y ∈ (Function.update s.group g _ g').notiQ at hy
      by_cases heq : g' = g
      · subst heq
        rw [Function.update_self] at hy
        exact (List.mem_append.1 hy).resolve_right fun hmem => hne (List.mem_singleton.1 hmem)
      · rwa [Function.update_of_ne heq] at hy
  · have hne : y ≠ x := fun heq => hx (heq ▸ List.mem_append_right _ hy)
    refine ⟨hne, ?_⟩
    change R y (Function.update s.noti x _ y)
    rw [hnoti y hne]
    exact h.ready y hy
  · change (Function.update s.group g _ g').triggered &&& flagTime = 0
    by_cases heq : g' = g
    · subst heq
      rw [Function.update_self]
      exact h.marks g' hg'
    · rw [Function.update_of_ne heq]
      exact h.marks g' hg'

/-- What `aloe_ev_put` comes to. -/
def PutDated (o : Oracle) (W : Nat → Timespec → Prop) (R : Nat → Noti → Prop) (due : Timespec) (r : Option Nat) (t : St) :
    Prop :=
  match r with
  | none => Dated o W R t
  | some x => Dated o (Joined W x due) (Apart R x) t

section
variable {s : St} {regs : List (Nat × Reg)} {g x : Nat} {a : PutArgs}

theorem putChain_dated {hollow : Option Nat} (inq : Bool) (due : Timespec) (h : Owned s.view regs [x] [] hollow)
    (hd : Dated o W R s) (hg : g ∈ s.view.fdQ) (hfd : a.fd = s.view.gfd g) (hh : ∀ g', hollow = some g' → g' = g)
    (hinq : inq = true → s.view.gq g ≠ []) : wp (putChain inq g x a due) (PutDated o W R due) s := by
  have hx := h.loose_notMem
  have hkeeps : wp (putChain inq g x a due) (fun r t => (∀ y, r = some y → y = x) ∧
      Dated o (Joined W x due) (Apart R x) t) s := by
    refine (chainNoti_dated hd a due hx).bind fun _ t ht => (dated_fdEpRefresh g t ht).bind fun ok u hu => ?_
    split
    · exact ⟨fun y hy => (Option.some.inj hy).symm, hu⟩
    · have hundo : Keeps (Dated o (Joined W x due) (Apart R x)) (putUndo inq g x) :=
        (dated_offGroup g x).bind fun _ => (dated_toSpareNoti x).bind fun _ => (keeps_pure _).ite (dated_retireIfEmpty g)
      exact (hundo u hu).bind fun _ v hv => ⟨nofun, hv⟩
  refine ((putChain_wp inq due h hg hfd hh hinq).and hkeeps).mono fun r t ht => ?_
  obtain ⟨⟨hown, -⟩, hr, ht⟩ := ht
  cases r with
  | some y =>
    obtain rfl := hr y rfl
    exact ht
  | none =>
    -- the record is on no queue again
    have hgone : x ∉ t.view.active := fun hmem => hx (h.mem_active.1 (hown.mem_active.2 hmem))
    refine ht.mono (fun g' hg' y hy hW => ?_) fun y hy hR => hR.2
    have hne : y ≠ x := fun heq => hgone (heq ▸ List.mem_append_left _ (mem_gathered.2 ⟨g', hg', hy⟩))
    rwa [Joined, if_neg hne] at hW

theorem dated_getNotiHolder : Keeps (Dated o W R) getNotiHolder := by
  have hpop : Keeps (Dated o W R) popSpareNoti := by
    refine Keeps.reads fun s h => ?_
    split
    · exact h
    · exact ⟨h.oracle, h.waiting, h.ready, h.marks⟩
  refine hpop.bind fun r => ?_
  cases r with
  | none => exact dated_sysMalloc.bind fun _ => (keeps_get.bind fun _ => (keeps_modify fun _ h =>
      ⟨h.oracle, h.waiting, h.ready, h.marks⟩).bind fun _ => keeps_pure _).ite (keeps_pure _)
  | some x => exact keeps_pure _

theorem dated_getSpareFd : Keeps (Dated o W R) getSpareFd := by
  have hpop : Keeps (Dated o W R) fdQPopFirst := by
    refine Keeps.reads fun s h => ?_
    split
    · exact h
    · exact ⟨h.oracle, h.waiting, h.ready, h.marks⟩
  refine hpop.bind fun r => ?_
  cases r with
  | none => exact dated_sysMalloc.bind fun _ => (keeps_get.bind fun _ => (keeps_modify fun _ h =>
      ⟨h.oracle, h.waiting, h.ready, h.marks⟩).bind fun _ => keeps_pure _).ite (keeps_pure _)
  | some g => exact keeps_pure _

/-- A new group has no records and no marks. -/
theorem newFdGroup_dated (hd : Dated o W R s) (g : Nat) (fd : Int) : wp (newFdGroup g fd) (fun _ => Dated o W R) s := by
  have hset : Dated o W R { s with group := Function.update s.group g ⟨fd, 0, 0, false, []⟩ } :=
    hd.setGroup (fun x hx => absurd hx List.not_mem_nil) fun _ => UInt32.zero_and
  refine ⟨hset.oracle, fun g' hg' x hx => ?_, hset.ready, fun g' hg' => ?_⟩
  · rcases List.mem_append.1 hg' with hmem | hnew
    · exact hset.waiting g' hmem x hx
    · obtain rfl := List.mem_singleton.1 hnew
      change x ∈ (Function.update s.group g' _ g').notiQ at hx
      rw [Function.update_self] at hx
      exact absurd hx List.not_mem_nil
  · rcases List.mem_append.1 hg' with hmem | hnew
    · exact hset.marks g' hmem
    · obtain rfl := List.mem_singleton.1 hnew
      change (Function.update s.group g' _ g').triggered &&& flagTime = 0
      rw [Function.update_self]
      exact UInt32.zero_and

theorem putActive_dated (due : Timespec) (h : Owned s.view regs [] [] none) (hd : Dated o W R s) (hg : g ∈ s.view.fdQ)
    (hfd : s.view.gfd g = a.fd) : wp (putActive g a due) (PutDated o W R due) s := by
  refine ((getNotiHolder_wp h).and (dated_getNotiHolder s hd)).bind fun r t ht => ?_
  obtain ⟨⟨hsame, hown⟩, ht⟩ := ht
  cases r with
  | none => exact ht
  | some x =>
    have hfull : s.view.gq g ≠ [] := fun hempty => absurd (h.full g hg hempty) (by simp)
    refine putChain_dated true due hown ht ?_ ?_ (by simp) fun _ => ?_
    · rw [hsame.fdQ]
      exact hg
    · rw [hsame.gfd]
      exact hfd.symm
    · rw [hsame.gq]
      exact hfull

theorem putSpare_dated (due : Timespec) (h : Owned s.view regs [] [g] none) (hd : Dated o W R s)
    (hfd : a.fd ∉ s.view.fdQ.map s.view.gfd) : wp (putSpare g a due) (PutDated o W R due) s := by
  refine ((getNotiHolder_wp h).and (dated_getNotiHolder s hd)).bind fun r t ht => ?_
  obtain ⟨⟨hsame, hown⟩, ht⟩ := ht
  cases r with
  | none => exact dated_toSpareFd g t ht
  | some x =>
    have hfd' : a.fd ∉ t.view.fdQ.map t.view.gfd := by
      rw [hsame.fdQ, hsame.gfd]
      exact hfd
    refine ((newFdGroup_wp hown hfd').and (newFdGroup_dated ht g a.fd)).bind fun _ u hu => ?_
    obtain ⟨⟨hopen, hg, hgfd, -⟩, hu⟩ := hu
    exact putChain_dated false due hopen hu hg hgfd.symm (fun g' hg' => (Option.some.inj hg').symm) nofun

theorem putGroup_dated (due : Timespec) (h : Owned s.view regs [] [] none) (hd : Dated o W R s) :
    wp (putGroup a due) (PutDated o W R due) s := by
  refine (fdQFind_wp a.fd s).bind fun r t ht => ?_
  obtain ⟨rfl, hfound, hnone⟩ := ht
  cases r with
  | some g =>
    obtain ⟨hg, hfd⟩ := hfound g rfl
    exact putActive_dated due h hd hg hfd
  | none =>
    refine ((getSpareFd_wp h).and (dated_getSpareFd t hd)).bind fun r u hu => ?_
    obtain ⟨⟨hsame, hown⟩, hu⟩ := hu
    cases r with
    | none => exact hu
    | some g =>
      refine putSpare_dated due hown hu ?_
      rw [hsame.fdQ, hsame.gfd]
      exact hnone rfl

/-- The deadline `aloe_ev_put` computes if the clock reads `p`. -/
def DueOf (p : Timespec) (a : PutArgs) (due : Timespec) : Prop :=
  if a.sec = aloeEvInfinite then due.infinite = true else due = timesecAdd p a.sec (a.usec * 1000)

theorem sysClock_dated (hd : Dated o W R s) : wp sysClock (fun r t => Dated o W R t ∧ t.fdQ = s.fdQ ∧
    ∀ now, r = .ok now → now = o.clock s.asked) s := by
  refine ((sysClock_wp s).and (dated_sysClock s hd)).mono fun r t ht => ?_
  obtain ⟨⟨rfl, hr⟩, ht⟩ := ht
  exact ⟨ht, rfl, fun now hnow => hd.oracle ▸ hr now hnow⟩

theorem putDue_dated (a : PutArgs) (hd : Dated o W R s) :
    wp (putDue a) (fun r t => Dated o W R t ∧ ∀ due, r = some due → DueOf (o.clock s.asked) a due) s := by
  unfold putDue DueOf
  split
  · refine ⟨hd, fun due hdue => ?_⟩
    obtain rfl := Option.some.inj hdue
    rfl
  · refine (sysClock_dated hd).bind fun r t ht => ?_
    cases r with
    | error e => exact ⟨ht.1, nofun⟩
    | ok now =>
      refine ⟨ht.1, fun due hdue => ?_⟩
      rw [ht.2.2 now rfl] at hdue
      exact (Option.some.inj hdue).symm

theorem aloeEvPut_dated (a : PutArgs) (h : Owned s.view regs [] [] none) (hd : Dated o W R s) :
    wp (aloeEvPut a) (fun r t => match r with
      | none => Dated o W R t
      | some x => ∃ due, DueOf (o.clock s.asked) a due ∧ Dated o (Joined W x due) (Apart R x) t) s := by
  refine (wp.and (quiet_putDue a s) (putDue_dated a hd)).bind fun r t ht => ?_
  obtain ⟨hview, ht, hdue⟩ := ht
  rw [← hview] at h
  cases r with
  | none => exact ht
  | some due =>
    refine (putGroup_dated due h ht).mono fun r u hu => ?_
    cases r with
    | none => exact hu
    | some x => exact ⟨due, hdue due rfl, hu⟩

end

/-! ### Collecting -/

theorem fromEpoll_time (e : UInt32) : fromEpoll e &&& flagTime = 0 := by
  unfold fromEpoll bitIf
  split_ifs <;> rfl

theorem dated_scanGroups (gs : List Nat) (hasFd : Bool) (due : Option Timespec) :
    Keeps (Dated o W R) (scanGroups gs hasFd due) := by
  induction gs generalizing hasFd due with
  | nil => exact keeps_pure _
  | cons g gs ih =>
    refine Keeps.bind ?_ fun _ => keeps_get.bind fun _ => ih _ _
    exact dated_setGroup (fun _ _ hx => hx) fun _ _ => UInt32.zero_and

theorem dated_timeoutMs (hasFd : Bool) (due : Option Timespec) : Keeps (Dated o W R) (timeoutMs hasFd due) := by
  cases due with
  | none => exact keeps_pure _
  | some due =>
    refine dated_sysClock.bind fun r => ?_
    cases r with
    | error e => exact keeps_pure _
    | ok now => exact keeps_pure _

theorem dated_passed : Keeps (Dated o W R) passed := by
  refine keeps_get.bind fun s => (dated_scanGroups s.fdQ false none).bind fun r =>
    (dated_timeoutMs r.1 r.2).bind fun ms => ?_
  cases ms with
  | error e => exact keeps_pure _
  | ok ms => exact keeps_get.bind fun s => keeps_pure _

theorem dated_markGroups (found : List (Nat × UInt32)) : Keeps (Dated o W R) (markGroups found) := by
  induction found with
  | nil => exact keeps_pure _
  | cons p found ih =>
    refine Keeps.bind (dated_setGroup (fun _ _ hx => hx) fun _ _ => ?_) fun _ => ih
    exact fromEpoll_time p.2

/-- A timeout is noted only for a deadline that has expired. -/
theorem notified_time {e : Group} {x : Noti} {now : Timespec} (he : e.triggered &&& flagTime = 0)
    (ht : notified e x now &&& flagTime ≠ 0) : Expired x.due now := by
  unfold notified at ht
  split at ht
  · refine absurd ?_ ht
    rw [UInt32.and_assoc, UInt32.and_comm x.evWait, ← UInt32.and_assoc, he, UInt32.zero_and]
  split at ht
  · exact absurd rfl ht
  split at ht
  · next hexp => exact ⟨by simpa using hexp.1, hexp.2⟩
  · exact absurd UInt32.zero_and ht

/-- A record that has waited may be notified, for its time only if that has come. -/
def Notifiable (W : Nat → Timespec → Prop) (R : Nat → Noti → Prop) (now : Timespec) : Prop :=
  ∀ x e, W x e.due → (e.evNoti &&& flagTime ≠ 0 → Expired e.due now) → R x e

section
variable {now : Timespec} {s : St}

theorem setNoti_dated (h : Dated o W R s) {x : Nat} {ev : UInt32} (hx : R x { s.noti x with evNoti := ev }) :
    wp (setNoti x fun e => { e with evNoti := ev }) (fun _ t => Dated o W R t ∧ R x (t.noti x) ∧ t.fdQ = s.fdQ ∧
      ∀ y, (t.noti y).due = (s.noti y).due) s := by
  have hself : Function.update s.noti x { s.noti x with evNoti := ev } x = { s.noti x with evNoti := ev } :=
    Function.update_self ..
  have hold : ∀ y ≠ x, Function.update s.noti x { s.noti x with evNoti := ev } y = s.noti y :=
    fun y hy => Function.update_of_ne hy ..
  have hsame : ∀ y, (Function.update s.noti x { s.noti x with evNoti := ev } y).due = (s.noti y).due := by
    intro y
    by_cases heq : y = x
    · rw [heq, hself]
    · rw [hold y heq]
  refine ⟨⟨h.oracle, fun g hg y hy => ?_, fun y hy => ?_, h.marks⟩, ?_, rfl, hsame⟩
  · change W y (Function.update s.noti x _ y).due
    rw [hsame]
    exact h.waiting g hg y hy
  · change R y (Function.update s.noti x _ y)
    by_cases heq : y = x
    · rw [heq, hself]
      exact hx
    · rw [hold y heq]
      exact h.ready y hy
  · change R x (Function.update s.noti x _ x)
    rw [hself]
    exact hx

theorem collectNotis_dated (hnow : Notifiable W R now) {g : Nat} {xs : List Nat} (h : Dated o W R s) (hg : g ∈ s.fdQ)
    (hxs : ∀ x ∈ xs, W x (s.noti x).due) :
    wp (collectNotis g now xs) (fun _ t => Dated o W R t ∧ t.fdQ = s.fdQ) s := by
  induction xs generalizing s with
  | nil => exact ⟨h, rfl⟩
  | cons x xs ih =>
    unfold collectNotis
    rw [wp_bind, wp_get]
    have hx : R x { s.noti x with evNoti := notified (s.group g) (s.noti x) now } :=
      hnow x _ (hxs x List.mem_cons_self) fun ht => notified_time (h.marks g hg) ht
    refine (setNoti_dated h hx).bind fun _ t ht => ?_
    obtain ⟨ht, hxt, hfdQ, hsame⟩ := ht
    have hrest : ∀ y ∈ xs, W y (t.noti y).due := fun y hy => hsame y ▸ hxs y (List.mem_cons_of_mem _ hy)
    rw [← hfdQ] at hg ⊢
    split
    · -- it is on the queue of those to notify from here on
      have hoff : wp (offGroup g x) (fun _ u => Dated o W R u ∧ u.noti = t.noti ∧ u.fdQ = t.fdQ) t :=
        ⟨dated_offGroup g x t ht, rfl, rfl⟩
      refine hoff.bind fun _ u hu => wp.update ?_
      obtain ⟨hu, hnoti, hfdQ⟩ := hu
      rw [← hfdQ] at hg ⊢
      rw [← hnoti] at hrest hxt
      refine ih (s := { u with notiQ := u.notiQ ++ [x] }) ⟨hu.oracle, hu.waiting, fun y hy => ?_, hu.marks⟩ hg hrest
      rcases List.mem_append.1 hy with hmem | hnew
      · exact hu.ready y hmem
      · exact List.mem_singleton.1 hnew ▸ hxt
    · exact ih ht hg hrest

theorem collectGroups_dated (hnow : Notifiable W R now) {gs : List Nat} (h : Dated o W R s) (hgs : ∀ g ∈ gs, g ∈ s.fdQ)
    (hnd : gs.Nodup) : wp (collectGroups now gs) (fun _ => Dated o W R) s := by
  induction gs generalizing s with
  | nil => exact h
  | cons g gs ih =>
    obtain ⟨hnot, hnd⟩ := List.nodup_cons.1 hnd
    have hg := hgs g List.mem_cons_self
    unfold collectGroups
    rw [wp_bind, wp_get]
    refine (collectNotis_dated hnow h hg (h.waiting g hg)).bind fun _ t ht => ?_
    refine (wp.and (quiet_fdEpRefresh g t) (dated_fdEpRefresh g t ht.1)).bind fun _ u hu => ?_
    refine (wp.and (retireIfEmpty_watch g u) (dated_retireIfEmpty g u hu.2)).bind fun _ v hv =>
      ih hv.2 (fun g' hg' => ?_) hnd
    -- no other group has been retired
    have hne : g' ≠ g := fun heq => hnot (heq ▸ hg')
    have hfdQ : u.watch.fdQ = s.fdQ := (congrArg View.fdQ hu.1).trans ht.2
    have hg'u : g' ∈ u.watch.fdQ := hfdQ ▸ hgs g' (List.mem_cons_of_mem _ hg')
    change g' ∈ v.watch.fdQ
    obtain ⟨⟨-, ⟨-, hw⟩ | ⟨-, hw⟩⟩, -⟩ := hv
    · rw [hw]
      exact (List.mem_erase_of_ne hne).2 hg'u
    · rw [hw]
      exact hg'u

/-- The number of the call that reads the clock after the wait. -/
def clockAfterWait (s : St) : Nat := (passed s).2.asked + 1

/-- Nothing is to be notified. -/
def NoneReady : Nat → Noti → Prop := fun _ _ => False

/-- An `aloe_ev_once` that collects compares with one reading of the clock. -/
def OnceDated (o : Oracle) (W : Nat → Timespec → Prop) (R : Nat → Noti → Prop) (r : Except Int Unit) (t : St) : Prop :=
  match r with
  | .error _ => Dated o W NoneReady t
  | .ok () => Dated o W R t

theorem collect_dated (found : List (Nat × UInt32)) (hnow : Notifiable W R (o.clock s.asked)) (h : Dated o W NoneReady s)
    (hnd : s.fdQ.Nodup) : wp (collect found) (OnceDated o W R) s := by
  have hmark : wp (markGroups found) (fun _ t => t.asked = s.asked ∧ t.fdQ = s.fdQ ∧ Dated o W NoneReady t) s := by
    have hasked : Keeps (fun t => t.asked = s.asked) (markGroups found) := by
      induction found with
      | nil => exact keeps_pure _
      | cons p found ih =>
        refine Keeps.bind ?_ fun _ => ih
        exact fun _ h => h
    exact ⟨hasked s rfl, congrArg View.fdQ (quiet_markGroups found s), dated_markGroups found s h⟩
  refine hmark.bind fun _ t ht => ?_
  obtain ⟨hasked, hfdQ, ht⟩ := ht
  refine (sysClock_dated ht).bind fun r u hu => ?_
  obtain ⟨hu, hfdQ', hr⟩ := hu
  cases r with
  | error e => exact hu
  | ok now =>
    dsimp only
    rw [wp_bind, wp_get]
    rw [hr now rfl, hasked]
    refine (collectGroups_dated hnow (hu.mono (fun _ _ _ _ hW => hW) fun _ _ => False.elim) (fun g hg => hg) ?_).bind
      fun _ v hv => hv
    rw [hfdQ', hfdQ]
    exact hnd

theorem onceCollect_dated (hnow : Notifiable W R (o.clock (clockAfterWait s))) (h : Dated o W NoneReady s)
    (hnd : s.fdQ.Nodup) : wp onceCollect (OnceDated o W R) s := by
  unfold onceCollect
  have hpassed : wp passed (fun _ t => t.asked + 1 = clockAfterWait s ∧ t.fdQ = s.fdQ ∧ Dated o W NoneReady t) s :=
    ⟨rfl, congrArg View.fdQ (quiet_passed s), dated_passed s h⟩
  refine hpassed.bind fun r t ht => ?_
  obtain ⟨hasked, hfdQ, ht⟩ := ht
  cases r with
  | error e => exact ht
  | ok ms =>
    unfold waitAndCollect
    have hwait : wp (sysEpollWait ms) (fun _ u => u.asked = t.asked + 1 ∧ u.fdQ = t.fdQ ∧ Dated o W NoneReady u) t :=
      ⟨rfl, rfl, dated_sysEpollWait _ t ht⟩
    refine hwait.bind fun found u hu => ?_
    obtain ⟨hasked', hfdQ', hu⟩ := hu
    cases found with
    | error e => exact hu
    | ok found =>
      refine collect_dated found ?_ hu ?_
      · rw [hasked', hasked]
        exact hnow
      · rw [hfdQ', hfdQ]
        exact hnd

end

end Dated

/-! ## Runs -/

/-- A run, and what is to be said of its times. -/
structure Timed where
  sys : Sys
  /-- What a record was last put with, and the number of the call that read the clock for it. -/
  put : Nat → Option (Nat × PutArgs)
  /-- The number of the call that read the clock for the last `aloe_ev_once`. -/
  now : Nat

/-- A put that succeeds is remembered for its handle. -/
def Timed.remember (s : Timed) (a : PutArgs) : Option Nat → Nat → Option (Nat × PutArgs)
  | some x => Function.update s.put x (some (s.sys.st.asked, a))
  | none => s.put

def putAfter (a : Act) (s : Timed) : Nat → Option (Nat × PutArgs) :=
  match a with
  | .put a => s.remember a (aloeEvPut a s.sys.st).1
  | _ => s.put

def nowAfter (a : Act) (s : Timed) : Nat :=
  match a with
  | .once => clockAfterWait s.sys.st
  | _ => s.now

def timedStep (a : Act) (s : Timed) : Option Timed :=
  (step a s.sys).map (fun t => { sys := t, put := putAfter a s, now := nowAfter a s })

def timedRun : List Act → Timed → Option Timed
  | [], s => some s
  | a :: as, s => (timedStep a s).bind (timedRun as)

def timedInit (busy : Bool) (group : Nat → Group) (noti : Nat → Noti) (oracle : Oracle) : Timed where
  sys := init busy group noti oracle
  put := fun _ => none
  now := 0

/-- The callback that a step calls. -/
def called (a : Act) (s : Sys) : Option Call :=
  match a with
  | .once =>
    match s.phase with
    | .callback _ => none
    | .idle =>
      match onceCollect s.st with
      | (.error _, _) => none
      | (.ok (), st) => (popReady st).1
  | .ret =>
    match s.phase with
    | .idle => none
    | .callback _ => (popReady s.st).1
  | _ => none

/-- A deadline that waits is that of the put. -/
def Waits (o : Oracle) (put : Nat → Option (Nat × PutArgs)) (x : Nat) (due : Timespec) : Prop :=
  ∃ n a, put x = some (n, a) ∧ DueOf (o.clock n) a due

/-- What is said of a registration that is notified for its time when the clock reads `now`. -/
def Timely (o : Oracle) (put : Nat → Option (Nat × PutArgs)) (now x : Nat) : Prop :=
  ∃ n a, put x = some (n, a) ∧ a.sec ≠ aloeEvInfinite ∧ (Fits (o.clock n) a → deadline (o.clock n) a ≤ (o.clock now).ns)

def TimelyReady (o : Oracle) (put : Nat → Option (Nat × PutArgs)) (now x : Nat) (e : Noti) : Prop :=
  e.evNoti &&& flagTime ≠ 0 → Timely o put now x

structure TimedInv (o : Oracle) (s : Timed) : Prop where
  inv : Inv s.sys
  idle : s.sys.phase = .idle → Dated o (Waits o s.put) NoneReady s.sys.st
  callback : ∀ n, s.sys.phase = .callback n → Dated o (Waits o s.put) (TimelyReady o s.put s.now) s.sys.st

theorem waits_notifiable {o : Oracle} (ho : ∀ n, (o.clock n).Reading) (put : Nat → Option (Nat × PutArgs)) (now : Nat) :
    Notifiable (Waits o put) (TimelyReady o put now) (o.clock now) := by
  rintro x e ⟨n, a, hput, hdue⟩ hexp ht
  have hexp := hexp ht
  unfold DueOf at hdue
  split at hdue
  · rw [hexp.1] at hdue
    cases hdue
  · next hsec =>
    rw [hdue] at hexp
    exact ⟨n, a, hput, hsec, fun hfits => hfits.timely (ho n) (ho now) hexp⟩

theorem drain_dated {o : Oracle} {W : Nat → Timespec → Prop} {R : Nat → Noti → Prop} {s : Sys} (n : Nat)
    (h : Dated o W R s.st) :
    ((drain n s).phase = .idle → Dated o W NoneReady (drain n s).st) ∧ Dated o W R (drain n s).st := by
  have hpop : Dated o W R (popReady s.st).2 ∧ ((popReady s.st).1 = none → (popReady s.st).2.notiQ = []) ∧ _ :=
    popReady_dated h
  unfold drain
  generalize popReady s.st = p at hpop ⊢
  obtain ⟨c, st⟩ := p
  obtain ⟨hst, hnone, -⟩ := hpop
  cases c with
  | none =>
    refine ⟨fun _ => hst.mono (fun _ _ _ _ hW => hW) fun x hx => ?_, hst⟩
    change x ∈ st.notiQ at hx
    rw [hnone rfl] at hx
    exact absurd hx List.not_mem_nil
  | some c => exact ⟨nofun, hst⟩

/-- The invariant for code that does not touch deadlines. -/
theorem TimedInv.keeps {o : Oracle} {s : Timed} (h : TimedInv o s) {α : Type} {m : M α}
    (hm : ∀ R, Keeps (Dated o (Waits o s.put) R) m) {t : Sys} (hinv : Inv t) (hphase : t.phase = s.sys.phase)
    (hst : t.st = (m s.sys.st).2) : TimedInv o { s with sys := t } where
  inv := hinv
  idle hidle := by
    have hd := hm NoneReady s.sys.st (h.idle (hphase ▸ hidle))
    change Dated _ _ _ t.st
    rw [hst]
    exact hd
  callback n hn := by
    have hd := hm _ s.sys.st (h.callback n (hphase ▸ hn))
    change Dated _ _ _ t.st
    rw [hst]
    exact hd

theorem waits_congr {o : Oracle} {put put' : Nat → Option (Nat × PutArgs)} {x : Nat} {due : Timespec}
    (heq : put' x = put x) (h : Waits o put x due) : Waits o put' x due := by
  obtain ⟨n, a, hput, hdue⟩ := h
  exact ⟨n, a, heq.trans hput, hdue⟩

theorem timelyReady_congr {o : Oracle} {put put' : Nat → Option (Nat × PutArgs)} {now x : Nat} {e : Noti}
    (heq : put' x = put x) (h : TimelyReady o put now x e) : TimelyReady o put' now x e := by
  intro ht
  obtain ⟨n, a, hput, htimely⟩ := h ht
  exact ⟨n, a, heq.trans hput, htimely⟩

/-- A put is remembered for its record, and the others are as they were. -/
theorem put_timed {o : Oracle} {s : Timed} (hinv : Inv s.sys) (a : PutArgs)
    {R : (Nat → Option (Nat × PutArgs)) → Nat → Noti → Prop}
    (hR : ∀ put put' x e, put' x = put x → R put x e → R put' x e) (hd : Dated o (Waits o s.put) (R s.put) s.sys.st) :
    Dated o (Waits o (putAfter (.put a) s)) (R (putAfter (.put a) s)) (aloeEvPut a s.sys.st).2 := by
  have hput := aloeEvPut_dated a hinv.owned hd
  have hafter : putAfter (.put a) s = s.remember a (aloeEvPut a s.sys.st).1 := rfl
  rw [hafter]
  unfold wp at hput
  generalize aloeEvPut a s.sys.st = p at hput ⊢
  obtain ⟨r, st⟩ := p
  cases r with
  | none => exact hput
  | some x =>
    obtain ⟨due, hdue, hput⟩ := hput
    have hold : ∀ y ≠ x, Function.update s.put x (some (s.sys.st.asked, a)) y = s.put y :=
      fun y hy => Function.update_of_ne hy ..
    refine hput.mono (fun g _ y _ hW => ?_) fun y _ hy => hR _ _ y _ (hold y hy.1) hy.2
    unfold Joined at hW
    split at hW
    · next heq => exact heq ▸ ⟨_, a, Function.update_self .., hW ▸ hdue⟩
    · next hne => exact waits_congr (hold y hne) hW

theorem timedStep_inv {o : Oracle} (ho : ∀ n, (o.clock n).Reading) {a : Act} {s s' : Timed} (h : TimedInv o s)
    (hs : timedStep a s = some s') : TimedInv o s' := by
  obtain ⟨t, hstep, rfl⟩ := Option.map_eq_some_iff.1 hs
  have hinv := step_inv h.inv hstep
  cases a with
  | put a =>
    have hidle (hp : s.sys.phase = .idle) := put_timed h.inv a (R := fun _ => NoneReady) (fun _ _ _ _ _ => id) (h.idle hp)
    have hcallback (n : Nat) (hp : s.sys.phase = .callback n) :=
      put_timed h.inv a (R := fun put => TimelyReady o put s.now) (fun _ _ _ _ => timelyReady_congr) (h.callback n hp)
    simp only [step] at hstep
    split at hstep
    · next st heq =>
      obtain rfl := Option.some.inj hstep
      rw [heq] at hidle hcallback
      exact ⟨hinv, hidle, hcallback⟩
    · next x st heq =>
      obtain rfl := Option.some.inj hstep
      rw [heq] at hidle hcallback
      exact ⟨hinv, hidle, hcallback⟩
  | get fd cb =>
    obtain rfl := Option.some.inj hstep
    exact h.keeps (fun _ => dated_aloeEvGet fd cb) hinv rfl rfl
  | cancel x =>
    simp only [step] at hstep
    split at hstep
    · obtain rfl := Option.some.inj hstep
      exact h.keeps (fun _ => dated_aloeEvCancel x) hinv rfl rfl
    · cases hstep
  | once =>
    simp only [step] at hstep
    split at hstep
    · cases hstep
    · next hphase =>
      have honce := onceCollect_dated (waits_notifiable ho s.put (clockAfterWait s.sys.st)) (h.idle hphase)
        h.inv.owned.nodup_fdQ
      unfold wp at honce
      split at hstep
      · next e st heq =>
        obtain rfl := Option.some.inj hstep
        rw [heq] at honce
        refine ⟨hinv, fun _ => honce, fun n hn => ?_⟩
        rw [hphase] at hn
        cases hn
      · next st heq =>
        obtain rfl := Option.some.inj hstep
        rw [heq] at honce
        have hdrain := drain_dated (s := { s.sys with st := st, limit := (live s.sys.log).length }) 0 honce
        exact ⟨hinv, hdrain.1, fun _ _ => hdrain.2⟩
  | ret =>
    simp only [step] at hstep
    split at hstep
    · cases hstep
    · next n hphase =>
      obtain rfl := Option.some.inj hstep
      have hdrain := drain_dated n (h.callback n hphase)
      exact ⟨hinv, hdrain.1, fun _ _ => hdrain.2⟩
  | close fd =>
    obtain rfl := Option.some.inj hstep
    refine h.keeps (m := modify fun t => { t with interest := Function.update t.interest fd none }) ?_ hinv rfl rfl
    exact fun R t ht => ⟨ht.oracle, ht.waiting, ht.ready, ht.marks⟩

theorem timedRun_inv {o : Oracle} (ho : ∀ n, (o.clock n).Reading) {as : List Act} {s s' : Timed} (h : TimedInv o s)
    (hr : timedRun as s = some s') : TimedInv o s' := by
  induction as generalizing s with
  | nil =>
    obtain rfl := Option.some.inj hr
    exact h
  | cons a as ih =>
    obtain ⟨t, hs, hr⟩ := Option.bind_eq_some_iff.1 hr
    exact ih (timedStep_inv ho h hs) hr

/-- What is remembered does not change the runs. -/
theorem timedRun_sys (as : List Act) (s : Timed) : (timedRun as s).map Timed.sys = run as s.sys := by
  induction as generalizing s with
  | nil => rfl
  | cons a as ih =>
    unfold timedRun run timedStep
    cases hstep : step a s.sys with
    | none => rfl
    | some t => exact ih _

theorem timedInit_inv (busy : Bool) (group : Nat → Group) (noti : Nat → Noti) (oracle : Oracle) :
    TimedInv oracle (timedInit busy group noti oracle) where
  inv := init_inv busy group noti oracle
  idle _ := ⟨rfl, fun g hg => absurd hg List.not_mem_nil, fun x hx => absurd hx List.not_mem_nil,
    fun g hg => absurd hg List.not_mem_nil⟩
  callback n hn := by cases hn

/-- What a step calls is what its event in the log says. -/
theorem step_called {a : Act} {s s' : Sys} {c : Call} (hs : step a s = some s') (hc : called a s = some c) :
    s'.log = .call c.x ⟨c.fd, c.cb, c.cbarg⟩ :: s.log := by
  have hdrain : ∀ n (t : Sys), (popReady t.st).1 = some c →
      (drain n t).log = .call c.x ⟨c.fd, c.cb, c.cbarg⟩ :: t.log := by
    intro n t ht
    unfold drain
    generalize popReady t.st = p at ht ⊢
    obtain ⟨r, st⟩ := p
    obtain rfl : r = some c := ht
    rfl
  cases a with
  | once =>
    simp only [step, called] at hs hc
    cases hphase : s.phase with
    | callback n => simp [hphase] at hs
    | idle =>
      simp only [hphase] at hs hc
      split at hs
      · next heq => simp [heq] at hc
      · next heq =>
        simp only [heq] at hc
        obtain rfl := Option.some.inj hs
        exact hdrain 0 _ hc
  | ret =>
    simp only [step, called] at hs hc
    cases hphase : s.phase with
    | idle => simp [hphase] at hs
    | callback n =>
      simp only [hphase] at hs hc
      obtain rfl := Option.some.inj hs
      exact hdrain n s hc
  | put a => cases hc
  | get fd cb => cases hc
  | cancel x => cases hc
  | close fd => cases hc

theorem popReady_call {o : Oracle} {W : Nat → Timespec → Prop} {R : Nat → Noti → Prop} {s : St} {c : Call}
    (h : Dated o W R s) (hc : (popReady s).1 = some c) : ∃ e, R c.x e ∧ c.triggered = e.evNoti :=
  ⟨s.noti c.x, (popReady_dated h).2.2 c hc⟩

/-- **A registration is not notified for its time before it**, if its arguments fit, and one without a deadline is not
notified for its time at all. -/
theorem timeouts_timely (busy : Bool) (group : Nat → Group) (noti : Nat → Noti) (oracle : Oracle)
    (hclock : ∀ n, (oracle.clock n).Reading) (as : List Act) (s : Timed)
    (h : timedRun as (timedInit busy group noti oracle) = some s) (a : Act) (c : Call) (hc : called a s.sys = some c)
    (ht : c.triggered &&& flagTime ≠ 0) : Timely oracle s.put (nowAfter a s) c.x := by
  have hinv := timedRun_inv hclock (timedInit_inv busy group noti oracle) h
  cases a with
  | once =>
    simp only [called] at hc
    split at hc
    · cases hc
    · next hphase =>
      have honce := onceCollect_dated (waits_notifiable hclock s.put (clockAfterWait s.sys.st)) (hinv.idle hphase)
        hinv.inv.owned.nodup_fdQ
      unfold wp at honce
      split at hc
      · cases hc
      · next st heq =>
        rw [heq] at honce
        obtain ⟨e, he, htrig⟩ := popReady_call honce hc
        exact he (htrig ▸ ht)
  | ret =>
    simp only [called] at hc
    split at hc
    · cases hc
    · next n hphase =>
      obtain ⟨e, he, htrig⟩ := popReady_call (hinv.callback n hphase) hc
      exact he (htrig ▸ ht)
  | put a => cases hc
  | get fd cb => cases hc
  | cancel x => cases hc
  | close fd => cases hc

def freshTimed : Timed := ⟨fresh, fun _ => none, 0⟩

theorem readable_reading (n : Nat) : (readable.clock n).Reading := by
  change (Timespec.mk 0 0).Reading
  exact ⟨⟨by decide, by decide⟩, by decide⟩

theorem timeouts_timely_now : ∃ s c, timedRun [.put (timer 0 0)] freshTimed = some s ∧ called .once s.sys = some c ∧
    Timely readable s.put (nowAfter .once s) c.x := by
  have hcall : ((timedRun [.put (timer 0 0)] freshTimed).bind fun s => called .once s.sys).map Call.triggered =
      some flagTime := by decide +kernel
  obtain ⟨c, hc, ht⟩ := Option.map_eq_some_iff.1 hcall
  obtain ⟨s, hs, hc⟩ := Option.bind_eq_some_iff.1 hc
  have htime : c.triggered &&& flagTime ≠ 0 := by
    rw [ht]
    decide
  exact ⟨s, c, hs, hc, timeouts_timely false _ _ readable readable_reading _ s hs .once c hc htime⟩

/-- `usec * 1000` wraps around to nothing, and a deadline in 73000 years is found expired at once. -/
theorem overlong_notified_now : ∃ s c, timedRun [.put (timer 0 2305843009213693952)] freshTimed = some s ∧
    called .once s.sys = some c ∧ c.triggered &&& flagTime ≠ 0 ∧
    ∃ n a, s.put c.x = some (n, a) ∧ (readable.clock (nowAfter .once s)).ns < deadline (readable.clock n) a := by
  have hcall : ((timedRun [.put (timer 0 2305843009213693952)] freshTimed).bind fun s => (called .once s.sys).map fun c =>
      (c.triggered, (s.put c.x).map fun p => (p.2.sec, p.2.usec))) = some (flagTime, some (0, 2305843009213693952)) := by
    decide +kernel
  obtain ⟨s, hs, hc⟩ := Option.bind_eq_some_iff.1 hcall
  obtain ⟨c, hc, heq⟩ := Option.map_eq_some_iff.1 hc
  obtain ⟨ht, hput⟩ := Prod.mk.inj heq
  obtain ⟨⟨n, a⟩, hput, ha⟩ := Option.map_eq_some_iff.1 hput
  obtain ⟨hsec, husec⟩ := Prod.mk.inj ha
  have hzero (n : Nat) : (readable.clock n).ns = 0 := by
    change (Timespec.mk 0 0).ns = 0
    decide
  refine ⟨s, c, hs, hc, ?_, n, a, hput, ?_⟩
  · rw [ht]
    decide
  · rw [deadline, hzero, hzero]
    dsimp only at hsec husec
    rw [hsec, husec]
    decide

end AlgaeBp.Ev
