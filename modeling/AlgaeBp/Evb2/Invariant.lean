import AlgaeBp.Evb2.Touch
/-!
# The invariant of the event loop

`Ok` says in which states a handle can be while user code runs, `Core` adds
the context, `AtUser` the kernel's interest map and the wake pipe, and `Keeps`
is what user code cannot change behind the back of the call that runs it.
-/
open Reentrant

namespace AlgaeBp.Evb2

/-! ## The states of a handle -/

/-- Waiting to be dispatched or installed, or being notified. -/
def View.Busy (v : View) : Prop :=
  v.on .ready ∨ v.on .async ∨ v.noti ∨ v.hist.any Event.isCancelled = true

/-- The handle of the wake pipe. -/
structure WakeOk (h : Ptr) (hd : Handle) (v : View) : Prop where
  name : h = wake
  cb : hd.cb = some .asyncHandler
  fd : 0 ≤ hd.fd
  flag : hd.flag = flagRead
  timeoutMs : hd.timeoutMs = infinite
  flag2 : hd.flag2 = { internal := true }
  hist : v.hist = []
  timer : ¬ v.on .timer
  fdmon : v.on .fdmon ↔ ¬ v.on .ready ∧ ¬ v.noti

/-- A handle that an add function has handed out. -/
structure UserOk (m : Mode) (h : Ptr) (hd : Handle) (v : View) : Prop where
  name : h ≠ wake
  added : v.hist.any Event.isAdded = true
  cb : ∃ f, hd.cb = some (.user f)
  fd : fdTimer ≤ hd.fd
  internal : hd.flag2.internal = false
  fdmon : v.on .fdmon ↔ 0 ≤ hd.fd ∧ ¬ v.Busy
  timer : v.on .timer ↔ hd.timeoutAt ≠ uint64Max ∧ ¬ v.Busy
  notified : v.hist.any Event.isCancelled = true → ¬ v.noti ∧ ∀ l, ¬ v.on l
  async : v.on .async → hd.fd = fdTimer ∧ hd.flag2.oneshot = true ∧ (m.sat = .never → hd.timeoutAt ≠ uint64Max)
  dead : hd.flag2.dead = true → v.noti
  released : v.hist.any Event.releases = true ↔
    v.hist.any Event.isCancelled = true ∨ v.noti ∧ (hd.flag2.oneshot = true ∨ hd.flag2.dead = true)
  /-- Without saturated deadlines, a handle without a descriptor is on `timer_list`. -/
  armed : m.sat ≠ .any → ¬ v.Busy → hd.fd < 0 → hd.timeoutAt ≠ uint64Max
  dropped : v.hist.any Event.drops = false

def Ok (m : Mode) (h : Ptr) (v : View) : Prop :=
  moving v.hist = none ∧
  match v.hd with
  | none => v.hist.any Event.isAdded = true →
      v.hist.any Event.releases = true ∨ m.drop = true ∧ v.hist.any Event.drops = true
  | some hd => WakeOk h hd v ∨ UserOk m h hd v

/-- A handle while no call of the loop is in progress. -/
def View.Calm (v : View) : Prop :=
  ¬ v.on .ready ∧ ¬ v.noti ∧ (v.hd.isSome = true → v.hist.any Event.isCancelled = false)

theorem ok_empty (m : Mode) (h : Ptr) : Ok m h .empty := by
  simp [Ok, View.empty, moving]

theorem Queued.ok {m : Mode} {h : Nat} {v : View} (hq : Queued m h v) (hh : h ≠ wake) : Ok m h v := by
  obtain ⟨hd, hhd, hp⟩ := hq.hd
  have hr : ¬ v.on .ready := fun h => by cases (hq.on _).1 h
  have ha : v.on .async := (hq.on _).2 rfl
  have hb : v.Busy := .inr (.inl ha)
  refine ⟨by simp [hq.hist, moving], ?_⟩
  rw [hhd]
  refine .inr ⟨hh, ?_, hp.cb, ?_, ?_, ?_, ?_, ?_, ?_, ?_, ?_, ?_, ?_⟩
  · simp [hq.hist, Event.isAdded]
  · rw [hp.fd]
  · rw [hp.flag2]
  · simp [hq.on, hb]
  · simp [hq.on, hb]
  · simp [hq.hist, Event.isCancelled]
  · exact fun _ => ⟨hp.fd, by rw [hp.flag2], hp.armed⟩
  · simp [hp.flag2]
  · simp [hq.hist, Event.releases, Event.isCancelled, hq.noti]
  · exact fun _ h => absurd hb h
  · simp [hq.hist, Event.drops]

/-! ## The kernel's interest -/

/-- The handle is on `fdmon_list` for `fd` and asks for the events `f`. -/
def View.Asks (v : View) (fd : Int) (f : UInt32) : Prop :=
  v.on .fdmon ∧ ∃ hd, v.hd = some hd ∧ hd.fd = fd ∧ hd.flag = f

/-- The flags requested for `fd`, in the order of `fdmon_list`. -/
def St.flagsOn (s : St) (fd : Int) : List UInt32 :=
  ((s.lists .fdmon).filter fun h => (s.heap h).any (·.fd = fd)).map fun h => ((s.heap h).getD {}).flag

/-- The interest the kernel should have in `fd`. -/
def St.want (s : St) (fd : Int) : Option UInt32 :=
  if s.flagsOn fd = [] then none else some (toEpoll ((s.flagsOn fd).foldl (· ||| ·) 0))

/-- The kernel's interest map mirrors `fdmon_list`. -/
def Mirror (s : St) : Prop := ∀ fd, 0 ≤ fd → s.interest fd = s.want fd

theorem flagsOn_perm {s s' : St} {fd : Int} (hn : (s.lists .fdmon).Nodup) (hn' : (s'.lists .fdmon).Nodup)
    (h : ∀ k f, (s'.view k).Asks fd f ↔ (s.view k).Asks fd f) : (s'.flagsOn fd).Perm (s.flagsOn fd) := by
  have hmem : ∀ (t : St) k, k ∈ ((t.lists .fdmon).filter fun h => (t.heap h).any (·.fd = fd)) ↔
      (t.view k).Asks fd ((t.heap k).getD {}).flag := by
    intro t k
    simp only [List.mem_filter, View.Asks, St.view]
    refine and_congr_right fun _ => ?_
    cases t.heap k <;> simp
  have hperm : ((s'.lists .fdmon).filter fun h => (s'.heap h).any (·.fd = fd)).Perm
      ((s.lists .fdmon).filter fun h => (s.heap h).any (·.fd = fd)) := by
    refine (List.perm_ext_iff_of_nodup (hn'.filter _) (hn.filter _)).2 fun k => ?_
    constructor
    · intro hk
      obtain ⟨ho, hd, hhd, hfd, -⟩ := (h k _).1 ((hmem s' k).1 hk)
      exact (hmem s k).2 ⟨ho, hd, hhd, hfd, by simp [show s.heap k = some hd from hhd]⟩
    · intro hk
      obtain ⟨ho, hd, hhd, hfd, -⟩ := (h k _).2 ((hmem s k).1 hk)
      exact (hmem s' k).2 ⟨ho, hd, hhd, hfd, by simp [show s'.heap k = some hd from hhd]⟩
  refine (hperm.map _).trans (List.Perm.of_eq (List.map_congr_left fun k hk => ?_))
  obtain ⟨-, hd, hhd, -, hf⟩ := (h k _).2 ((hmem s k).1 hk)
  simp [show s'.heap k = some hd from hhd, hf]

/-- The wanted interest depends only on what the handles ask for. -/
theorem want_congr {s s' : St} {fd : Int} (hn : (s.lists .fdmon).Nodup) (hn' : (s'.lists .fdmon).Nodup)
    (h : ∀ k f, (s'.view k).Asks fd f ↔ (s.view k).Asks fd f) : s'.want fd = s.want fd := by
  have hp := flagsOn_perm hn hn' h
  have hnil : s'.flagsOn fd = [] ↔ s.flagsOn fd = [] := by
    constructor <;> intro he
    · rw [he] at hp; exact hp.nil_eq.symm
    · rw [he] at hp; exact hp.eq_nil
  have hfold : (s'.flagsOn fd).foldl (· ||| ·) 0 = (s.flagsOn fd).foldl (· ||| ·) 0 := by
    refine hp.foldl_eq' (fun a _ b _ c => ?_) 0
    rw [UInt32.or_assoc, UInt32.or_comm a b, ← UInt32.or_assoc]
  simp only [St.want, hnil, hfold]

theorem View.not_asks_empty (fd : Int) (f : UInt32) : ¬ View.empty.Asks fd f := fun h => h.1

theorem Queued.not_asks {m : Mode} {h : Ptr} {v : View} (hq : Queued m h v) (fd : Int) (f : UInt32) :
    ¬ v.Asks fd f := by
  rintro ⟨ho, -⟩
  cases (hq.on _).1 ho

theorem Touch.want {m : Mode} {x : Nat} {s s' : St} (ht : Touch m x s s') (hp : Point m s) {fd : Int}
    (hx : ∀ f, (s'.view x).Asks fd f ↔ (s.view x).Asks fd f) : s'.want fd = s.want fd := by
  have hp' := ht.point hp
  refine want_congr (hp.nodup _) (hp'.nodup _) fun (k : Nat) f => ?_
  by_cases hk : k = x
  · subst hk; exact hx f
  by_cases hlt : k < s.next
  · rw [ht.view k hk hlt]
  rw [hp.fresh k (not_lt.1 hlt)]
  by_cases hlt' : k < s'.next
  · exact iff_of_false ((ht.fresh k hk (not_lt.1 hlt) hlt').2.not_asks fd f) (View.not_asks_empty fd f)
  · rw [hp'.fresh k (not_lt.1 hlt')]

/-! ## The state while user code runs -/

/-- What holds between the operations on single handles. -/
structure Core (m : Mode) (s : St) : Prop where
  point : Point m s
  ok : ∀ h, Ok m h (s.view h)
  fin : s.finalized = true → s.stopping = true
  wakeFd : ∀ hd, s.heap wake = some hd → hd.fd = s.asyncPipe0
  wakeLive : s.stopping = false → (s.heap wake).isSome = true
  idle : s.alive = true → s.inRun = false → s.stopping = false ∧ ∀ h, (s.view h).Calm
  /-- Without saturated deadlines, destruction leaves no handle behind. -/
  dead : s.alive = false → s.stopping = true ∧ (m.sat ≠ .any → ∀ h, s.heap h = none)

structure AtUser (m : Mode) (s : St) : Prop extends Core m s where
  unlocked : s.asyncLock ≠ some .loop
  /-- While the wake pipe's handler runs, it installs what is queued before it returns. -/
  woken : s.finalized = false → s.notifying ≠ some wake → Wake s
  mirror : m.ctl = false → s.finalized = false → Mirror s

/-- The fields of a handle that stay fixed while its callback runs. -/
def Handle.SameKind (hd hd' : Handle) : Prop :=
  hd'.cb = hd.cb ∧ hd'.fd = hd.fd ∧ hd'.flag = hd.flag ∧ hd'.flag2.oneshot = hd.flag2.oneshot ∧
    hd'.flag2.internal = hd.flag2.internal

/-- The handle's CANCELLED callback is running. -/
def View.Notified (v : View) : Prop := v.hd.isSome = true ∧ v.hist.any Event.isCancelled = true

/-- What user code keeps of the state it was called in, the handle `x` apart. -/
structure Keeps (x : Option Ptr) (s s' : St) : Prop where
  run : s.inRun = true → { s'.frame with stopping := s.stopping } = s.frame ∧ s'.notifying = s.notifying
  rest : s.inRun = false → s'.alive = true → s'.inRun = false
  stop : s.stopping = true → s'.stopping = true
  wakeView : s.inRun = true → x ≠ some wake → s'.view wake = s.view wake
  noti : s.inRun = true → ∀ h hd, s.notifying = some h → s.heap h = some hd →
    ∃ hd', s'.heap h = some hd' ∧ hd.SameKind hd'
  held : ∀ h, x ≠ some h → (s.view h).Notified → s'.view h = s.view h
  settled : ∀ h, x ≠ some h → (s'.view h).Notified → (s.view h).Notified
  /-- Nothing becomes ready, and after `aloe_evb2_destroy` nothing is linked. -/
  shrink : ∀ l, s.stopping = true ∨ s.inRun = true ∧ l = .ready → ∀ h, x ≠ some h → (s'.view h).on l → (s.view h).on l

/-- When the loop is about to wait, queued timers have woken it and the kernel
watches the wake pipe. -/
structure MayWait (m : Mode) (s : St) : Prop where
  woken : Wake s
  watched : m.ctl = false → ∃ mask, s.interest s.asyncPipe0 = some mask ∧ mask &&& epollIn ≠ 0

def logic (m : Mode) : Logic Op St where
  point := Point m
  before o s :=
    match o with
    | .epollWait _ => MayWait m s
    | _ => True
  atUser := AtUser m
  keeps := Keeps none
  rely := Interf m

/-! ## Work on one handle -/

section Touch
variable {m : Mode} {x : Nat} {s s' : St}

theorem Touch.alive (h : Touch m x s s') : s'.alive = s.alive := congrArg Frame.alive h.frame
theorem Touch.inRun (h : Touch m x s s') : s'.inRun = s.inRun := congrArg Frame.inRun h.frame
theorem Touch.finalized (h : Touch m x s s') : s'.finalized = s.finalized := congrArg Frame.finalized h.frame
theorem Touch.asyncPipe0 (h : Touch m x s s') : s'.asyncPipe0 = s.asyncPipe0 := congrArg Frame.asyncPipe0 h.frame

/-- What every handle but `x` can look like after work on `x`. -/
theorem Touch.cases (ht : Touch m x s s') (hp : Point m s) {k : Nat} (hk : k ≠ x) :
    s'.view k = s.view k ∨ s.stopping = false ∧ s.next ≤ k ∧ s.view k = .empty ∧ Queued m k (s'.view k) := by
  by_cases hlt : k < s.next
  · exact .inl (ht.view k hk hlt)
  have he := hp.fresh k (not_lt.1 hlt)
  by_cases hlt' : k < s'.next
  · obtain ⟨h1, h2⟩ := ht.fresh k hk (not_lt.1 hlt) hlt'
    exact .inr ⟨h1, not_lt.1 hlt, he, h2⟩
  · exact .inl (((ht.point hp).fresh k (not_lt.1 hlt')).trans he.symm)

theorem Queued.calm {h : Ptr} {v : View} (hq : Queued m h v) : v.Calm := by
  refine ⟨fun h => absurd ((hq.on _).1 h) (by simp), hq.noti, fun _ => ?_⟩
  simp [hq.hist, Event.isCancelled]

theorem Core.wake_view (hc : Core m s) (ht : Touch m x s s') (hx : x ≠ wake) : s'.view wake = s.view wake :=
  ht.view wake (Ne.symm hx) hc.point.wake_lt

/-- Work on `x` that leaves it in a good state. -/
theorem Core.touch (hc : Core m s) (ht : Touch m x s s') (ha : s.alive = true) (hok : Ok m x (s'.view x))
    (hw : x = wake → (∀ hd, s'.heap wake = some hd → hd.fd = s.asyncPipe0) ∧
      (s.stopping = false → (s'.heap wake).isSome = true))
    (hcalm : s.inRun = false → (s'.view x).Calm) : Core m s' where
  point := ht.point hc.point
  ok k := by
    by_cases hk : k = x
    · subst hk; exact hok
    rcases ht.cases hc.point hk with h | ⟨-, hn, -, hq⟩
    · rw [h]; exact hc.ok k
    · exact hq.ok (fun hw => absurd (hw ▸ hn) (not_le.2 hc.point.wake_lt))
  fin := by rw [ht.finalized, ht.stopping]; exact hc.fin
  wakeFd := by
    rw [ht.asyncPipe0]
    by_cases hx : x = wake
    · exact (hw hx).1
    · rw [show s'.heap wake = s.heap wake from congrArg View.hd (hc.wake_view ht hx)]
      exact hc.wakeFd
  wakeLive := by
    rw [ht.stopping]
    by_cases hx : x = wake
    · exact (hw hx).2
    · rw [show s'.heap wake = s.heap wake from congrArg View.hd (hc.wake_view ht hx)]
      exact hc.wakeLive
  idle := by
    rw [ht.alive, ht.inRun, ht.stopping]
    intro ha hr
    obtain ⟨h1, h2⟩ := hc.idle ha hr
    refine ⟨h1, fun k => ?_⟩
    by_cases hk : k = x
    · subst hk; exact hcalm hr
    rcases ht.cases hc.point hk with h | ⟨-, -, -, hq⟩
    · rw [h]; exact h2 k
    · exact hq.calm
  dead := by rw [ht.alive, ha]; intro h; cases h

theorem Queued.not_notified {h : Ptr} {v : View} (hq : Queued m h v) : ¬ v.Notified := by
  rintro ⟨-, h⟩
  simp [hq.hist, Event.isCancelled] at h

/-- Work on `x`, as user code that was running before sees it. -/
theorem Keeps.of_touch (hc : Core m s) (ht : Touch m x s s') (hn : s'.notifying = s.notifying)
    (hk : s.notifying = some x → ∀ hd, s.heap x = some hd → ∃ hd', s'.heap x = some hd' ∧ hd.SameKind hd') :
    Keeps (some x) s s' where
  run _ := ⟨by rw [ht.frame]; rfl, hn⟩
  rest h _ := by rw [ht.inRun]; exact h
  stop h := by rw [ht.stopping]; exact h
  wakeView _ hx := hc.wake_view ht (fun h => hx (by rw [h]))
  noti _ h hd hh hhd := by
    by_cases hxh : h = x
    · subst hxh; exact hk hh hd hhd
    · have hlt := hc.point.lt_next (x := h) (by simp [St.view, hhd])
      have hv := congrArg View.hd (ht.view h hxh hlt)
      exact ⟨hd, hv.trans hhd, rfl, rfl, rfl, rfl, rfl⟩
  held h hxh hnot := ht.view h (fun he => hxh (by rw [he])) (hc.point.lt_next hnot.1)
  settled h hxh hnot := by
    rcases ht.cases hc.point (k := h) (fun he => hxh (by rw [he])) with hv | ⟨-, -, -, hq⟩
    · rwa [hv] at hnot
    · exact absurd hnot hq.not_notified
  shrink l hs h hxh hl := by
    rcases ht.cases hc.point (k := h) (fun he => hxh (by rw [he])) with hv | ⟨hs', -, -, hq⟩
    · rwa [hv] at hl
    · rcases hs with hs | ⟨-, hs⟩
      · rw [hs] at hs'; cases hs'
      · rw [(hq.on l).1 hl] at hs; cases hs

theorem Handle.SameKind.trans {a b c : Handle} (h : a.SameKind b) (h' : b.SameKind c) : a.SameKind c :=
  ⟨h'.1.trans h.1, h'.2.1.trans h.2.1, h'.2.2.1.trans h.2.2.1, h'.2.2.2.1.trans h.2.2.2.1,
    h'.2.2.2.2.trans h.2.2.2.2⟩

namespace Keeps

variable {y : Option Ptr} {a b c : St}

theorem refl (y : Option Ptr) (s : St) : Keeps y s s where
  run _ := ⟨rfl, rfl⟩
  rest h _ := h
  stop := id
  wakeView _ _ := rfl
  noti _ _ hd _ h := ⟨hd, h, rfl, rfl, rfl, rfl, rfl⟩
  held _ _ _ := rfl
  settled _ _ := id
  shrink _ _ _ _ := id

theorem inRun (h : Keeps y a b) (hr : a.inRun = true) : b.inRun = true := by
  have := congrArg Frame.inRun (h.run hr).1
  exact this.trans hr

theorem finalized (h : Keeps y a b) (hr : a.inRun = true) : b.finalized = a.finalized :=
  congrArg Frame.finalized (h.run hr).1

theorem alive (h : Keeps y a b) (hr : a.inRun = true) : b.alive = a.alive :=
  congrArg Frame.alive (h.run hr).1

theorem trans (h : Keeps y a b) (h' : Keeps y b c) : Keeps y a c where
  run hr := by
    obtain ⟨h1, h2⟩ := h.run hr
    obtain ⟨h3, h4⟩ := h'.run (h.inRun hr)
    refine ⟨?_, h4.trans h2⟩
    rw [← h1, ← h3]
  rest hr ha := by
    by_cases hb : b.alive = true
    · exact h'.rest (h.rest hr hb) ha
    · cases hbr : b.inRun with
      | false => exact h'.rest hbr ha
      | true =>
        have := h'.alive hbr
        rw [ha] at this
        exact absurd this.symm hb
  stop hs := h'.stop (h.stop hs)
  wakeView hr hy := (h'.wakeView (h.inRun hr) hy).trans (h.wakeView hr hy)
  noti hr k hd hk hhd := by
    obtain ⟨hd', h1, h2⟩ := h.noti hr k hd hk hhd
    obtain ⟨hd'', h3, h4⟩ := h'.noti (h.inRun hr) k hd' ((h.run hr).2.trans hk) h1
    exact ⟨hd'', h3, h2.trans h4⟩
  held k hk hn := by
    have h1 := h.held k hk hn
    exact (h'.held k hk (h1 ▸ hn)).trans h1
  settled k hk hn := h.settled k hk (h'.settled k hk hn)
  shrink l hs k hk hl :=
    h.shrink l hs k hk (h'.shrink l (hs.imp h.stop fun h1 => ⟨h.inRun h1.1, h1.2⟩) k hk hl)

/-- Once `x` is dealt with, nothing is exempt. -/
theorem close (h : Keeps (some x) a b) (hw : x ≠ Evb2.wake) (hx : ¬ (a.view x).Notified) (hx' : ¬ (b.view x).Notified)
    (hs : ∀ l, a.stopping = true ∨ a.inRun = true ∧ l = .ready → (b.view x).on l → (a.view x).on l) :
    Keeps none a b where
  run := h.run
  rest := h.rest
  stop := h.stop
  wakeView hr _ := h.wakeView hr (by simpa using hw)
  noti := h.noti
  held k _ hn := by
    by_cases hk : k = x
    · subst hk; exact absurd hn hx
    · exact h.held k (by simpa using Ne.symm hk) hn
  settled k _ hn := by
    by_cases hk : k = x
    · subst hk; exact absurd hn hx'
    · exact h.settled k (by simpa using Ne.symm hk) hn
  shrink l hst k _ hl := by
    by_cases hk : k = x
    · subst hk; exact hs l hst hl
    · exact h.shrink l hst k (by simpa using Ne.symm hk) hl

theorem but (h : Keeps none a b) (x : Ptr) : Keeps (some x) a b where
  run := h.run
  rest := h.rest
  stop := h.stop
  wakeView hr _ := h.wakeView hr (by simp)
  noti := h.noti
  held k _ := h.held k (by simp)
  settled k _ := h.settled k (by simp)
  shrink l hs k _ := h.shrink l hs k (by simp)

end Keeps

theorem Interf.mirror (hi : Interf m s s') (hp : Point m s) (hm : Mirror s) : Mirror s' := by
  intro fd hfd
  rw [hi.interest, hm fd hfd]
  refine ((hi.touch s'.next).want hp fun f => ?_).symm
  rw [(hi.point hp).fresh _ (le_refl _), hp.fresh _ hi.next]

/-- Steps of other threads are nothing to the loop thread. -/
theorem Interf.core (hi : Interf m s s') (hc : Core m s) : Core m s' ∧ Keeps none s s' := by
  -- The handle worked on is one that does not exist.
  have hx : s'.next ≠ wake := fun h => absurd (h ▸ hi.next) (not_le.2 hc.point.wake_lt)
  have ht := hi.touch s'.next
  have he : s'.view s'.next = .empty := (hi.point hc.point).fresh _ (le_refl _)
  have he' : s.view s'.next = .empty := hc.point.fresh _ hi.next
  have hw : s'.view wake = s.view wake := hi.view wake hc.point.wake_lt
  refine ⟨⟨hi.point hc.point, fun k => ?_, ?_, ?_, ?_, ?_, ?_⟩, ?_⟩
  · by_cases hk : k = s'.next
    · subst hk; rw [he]; exact ok_empty m _
    rcases ht.cases hc.point hk with h | ⟨-, hn, -, hq⟩
    · rw [h]; exact hc.ok k
    · exact hq.ok (fun hw => absurd (hw ▸ hn) (not_le.2 hc.point.wake_lt))
  · rw [hi.finalized, hi.stopping]; exact hc.fin
  · rw [show s'.heap wake = s.heap wake from congrArg View.hd hw, ht.asyncPipe0]
    exact hc.wakeFd
  · rw [hi.stopping, show s'.heap wake = s.heap wake from congrArg View.hd hw]
    exact hc.wakeLive
  · rw [hi.alive, hi.inRun, hi.stopping]
    intro ha hr
    obtain ⟨h1, h2⟩ := hc.idle ha hr
    refine ⟨h1, fun k => ?_⟩
    by_cases hk : k = s'.next
    · subst hk; rw [he, ← he']; exact h2 _
    rcases ht.cases hc.point hk with h | ⟨-, -, -, hq⟩
    · rw [h]; exact h2 k
    · exact hq.calm
  · rw [hi.alive]
    intro ha
    obtain ⟨hs, hn⟩ := hc.dead ha
    refine ⟨by rw [hi.stopping]; exact hs, fun hm k => ?_⟩
    by_cases hk : k = s'.next
    · subst hk; exact congrArg View.hd he
    rcases ht.cases hc.point hk with h | ⟨hs', -⟩
    · exact (congrArg View.hd h).trans (hn hm k)
    · rw [hs] at hs'; cases hs'
  · refine (Keeps.of_touch hc ht hi.notifying ?_).close hx ?_ ?_ ?_
    · intro hn
      have : (s.view s'.next).noti := hn
      rw [he'] at this
      exact this.elim
    · rw [he']; simp [View.Notified, View.empty]
    · rw [he]; simp [View.Notified, View.empty]
    · rw [he]; simp [View.empty]

theorem Interf.user (hi : Interf m s s') (hu : AtUser m s) : AtUser m s' ∧ Keeps none s s' := by
  obtain ⟨hc, hk⟩ := hi.core hu.toCore
  refine ⟨⟨hc, ?_, ?_, ?_⟩, hk⟩
  · rw [Ne, hi.loop]; exact hu.unlocked
  · rw [hi.finalized, hi.notifying]
    exact fun hf hn => hi.woken hf (hu.woken hf hn)
  · rw [hi.finalized]
    exact fun hm hf => hi.mirror hu.point (hu.mirror hm hf)

end Touch

end AlgaeBp.Evb2
