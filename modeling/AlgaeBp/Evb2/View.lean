import AlgaeBp.Evb2.Machine
/-!
# One handle at a time

A state as a single handle sees it: its memory, the lists it is on, whether it
is being notified, and what the log says about it. Almost every operation of
the loop thread changes one view only, so its invariants are predicates on
views, and an operation keeps them once it keeps that of the handle it works on.
-/
namespace AlgaeBp.Evb2

/-! ## What the log may record next -/

def Event.isFreed : Event → Bool
  | .freed _ => true
  | _ => false

def Event.isQueued : Event → Bool
  | .queued _ => true
  | _ => false

/-- The handle is taken off `async_list`. -/
def Event.leaves : Event → Bool
  | .popped _ _ | .dequeued _ => true
  | _ => false

/-- A handle taken off `async_list` and not yet passed on, with the deadline it
had. -/
def moving : List Event → Option UInt64
  | .popped _ t :: _ => some t
  | _ => none

/-- A handle on its way from `async_list` goes to `timer_list` with the same
deadline, or to a CANCELLED callback. -/
def Event.PassesOn (es : List Event) (e : Event) : Prop :=
  ∀ t, moving es = some t → (∃ h, e = .armed h t) ∨ ∃ h fd ud, e = .cancelled h fd ud

/-- The event may follow the log, whose events about the same handle are `es`. -/
def Event.Fits (m : Mode) (log es : List Event) : Event → Prop
  | .added _ => es.any Event.isAdded = false ∧ .stopping ∉ log
  | .queued _ => es = []
  | .popped _ _ | .dequeued _ => es.any Event.isQueued = true ∧ es.any Event.leaves = false
  | .armed _ _ => True
  | .cancel _ r => r = 0 → es.any Event.releases = false
  | .dispatch _ _ _ _ once stop => es.any Event.releases = false ∧ es.any Event.isFreed = false ∧
      .ctxFreed ∉ log ∧ (.stopping ∈ log → stop = true) ∧ (m.late = false → (once && stop) = false)
  | .returned _ _ => True
  | .cancelled _ _ _ => es.any Event.releases = false ∧ es.any Event.isFreed = false ∧ .ctxFreed ∉ log
  | .freed _ => es.any Event.isFreed = false
  | .stopping => True
  | .ctxFreed => .ctxFreed ∉ log ∧ (m.sat ≠ .any → ∀ h, Evb2.isAdded log h = true →
      released log h = true ∨ m.drop = true ∧ dropped log h = true)

def Legal (m : Mode) (log : List Event) (e : Event) : Prop :=
  match e.about with
  | some h => e.PassesOn (hist log h) ∧ e.Fits m log (hist log h)
  | none => e.Fits m log []

/-- Every event of the log was legal when it was recorded. -/
def LogOk (m : Mode) : List Event → Prop
  | [] => True
  | e :: log => Legal m log e ∧ LogOk m log

/-! ## Views -/

structure View where
  hd : Option Handle
  on : ListId → Prop
  noti : Prop
  hist : List Event

def St.view (s : St) (h : Ptr) : View where
  hd := s.heap h
  on := fun l => h ∈ s.lists l
  noti := s.notifying = some h
  hist := hist s.log h

/-- The view of a block not allocated yet. -/
def View.empty : View := { hd := none, on := fun _ => False, noti := False, hist := [] }

namespace View

def put (v : View) (hd : Handle) : View := { v with hd := some hd }
def off (v : View) (l : ListId) : View := { v with on := Function.update v.on l False }
def join (v : View) (l : ListId) : View := { v with on := Function.update v.on l True }
def record (v : View) (e : Event) : View := { v with hist := e :: v.hist }
def free (v : View) (x : Ptr) : View := { v with hd := none, hist := .freed x :: v.hist }
def notify (v : View) (p : Prop) : View := { v with noti := p }

variable (v : View) (l l' : ListId) (hd : Handle) (e : Event) (x : Ptr)

@[simp] theorem put_hd : (v.put hd).hd = some hd := rfl
@[simp] theorem put_on : (v.put hd).on = v.on := rfl
@[simp] theorem put_noti : (v.put hd).noti = v.noti := rfl
@[simp] theorem put_hist : (v.put hd).hist = v.hist := rfl
@[simp] theorem off_hd : (v.off l).hd = v.hd := rfl
@[simp] theorem off_noti : (v.off l).noti = v.noti := rfl
@[simp] theorem off_hist : (v.off l).hist = v.hist := rfl
@[simp] theorem join_hd : (v.join l).hd = v.hd := rfl
@[simp] theorem join_noti : (v.join l).noti = v.noti := rfl
@[simp] theorem join_hist : (v.join l).hist = v.hist := rfl
@[simp] theorem record_hd : (v.record e).hd = v.hd := rfl
@[simp] theorem record_on : (v.record e).on = v.on := rfl
@[simp] theorem record_noti : (v.record e).noti = v.noti := rfl
@[simp] theorem record_hist : (v.record e).hist = e :: v.hist := rfl
@[simp] theorem free_hd : (v.free x).hd = none := rfl
@[simp] theorem free_on : (v.free x).on = v.on := rfl
@[simp] theorem free_noti : (v.free x).noti = v.noti := rfl
@[simp] theorem free_hist : (v.free x).hist = .freed x :: v.hist := rfl
@[simp] theorem notify_hd (p : Prop) : (v.notify p).hd = v.hd := rfl
@[simp] theorem notify_on (p : Prop) : (v.notify p).on = v.on := rfl
@[simp] theorem notify_noti (p : Prop) : (v.notify p).noti = p := rfl
@[simp] theorem notify_hist (p : Prop) : (v.notify p).hist = v.hist := rfl

@[simp] theorem off_on : (v.off l).on l' ↔ l' ≠ l ∧ v.on l' := by
  by_cases h : l' = l
  · subst h; simp [off]
  · simp [off, h]

@[simp] theorem join_on : (v.join l).on l' ↔ l' = l ∨ v.on l' := by
  by_cases h : l' = l
  · subst h; simp [join]
  · simp [join, h]

theorem off_eq (h : ¬ v.on l) : v.off l = v := by
  unfold off
  rw [show False = v.on l by simpa using h, Function.update_eq_self]

end View

/-- What holds of every handle at every point. -/
structure View.Sane (v : View) : Prop where
  /-- `fdmon_list`, `ready_list` and `async_list` share a link. -/
  link : ∀ l l', l ≠ .timer → l' ≠ .timer → v.on l → v.on l' → l = l'
  timer : v.on .timer → ¬ v.on .ready ∧ ¬ v.on .async
  noti : v.noti → ∀ l, ¬ v.on l
  live : ∀ l, v.on l → v.hd.isSome = true
  notiLive : v.noti → v.hd.isSome = true
  freed : v.hist.any Event.isFreed = true → v.hd = none
  lost : v.hd = none → v.hist ≠ [] → v.hist.any Event.isFreed = true
  async : v.on .async ↔ v.hist.any Event.isQueued = true ∧ v.hist.any Event.leaves = false

theorem View.sane_empty : View.empty.Sane where
  link := by simp [View.empty]
  timer := by simp [View.empty]
  noti := by simp [View.empty]
  live := by simp [View.empty]
  notiLive := by simp [View.empty]
  freed := by simp [View.empty]
  lost := by simp [View.empty]
  async := by simp [View.empty]

section Update
variable {s : St} {x k : Ptr} {hd : Handle} {l : ListId} {e : Event}

theorem hist_cons_self (log : List Event) (he : e.about = some x) : hist (e :: log) x = e :: hist log x := by
  simp [hist, he]

theorem hist_cons_ne (log : List Event) (he : e.about ≠ some k) : hist (e :: log) k = hist log k := by
  simp [hist, he]

theorem view_put_self : (s.put x hd).view x = (s.view x).put hd := by
  simp [St.view, St.put, View.put]

theorem view_put_ne (hk : k ≠ x) : (s.put x hd).view k = s.view k := by
  simp [St.view, St.put, hk]

theorem view_emit_self (he : e.about = some x) :
    (s.emit e).view x = (s.view x).record e := by
  simp [St.view, St.emit, View.record, hist_cons_self _ he]

theorem view_emit_ne (he : e.about ≠ some k) : (s.emit e).view k = s.view k := by
  simp [St.view, St.emit, hist_cons_ne _ he]

theorem view_unlink_self (hn : (s.lists l).Nodup) :
    (s.unlink l x).view x = (s.view x).off l := by
  simp only [St.view, St.unlink, St.setList, View.off, View.mk.injEq, true_and, and_true]
  funext l'
  by_cases hl : l' = l
  · subst hl; simp [hn.mem_erase_iff]
  · simp [hl]

theorem view_unlink_ne (hk : k ≠ x) : (s.unlink l x).view k = s.view k := by
  simp only [St.view, St.unlink, St.setList, View.mk.injEq, true_and, and_true]
  funext l'
  by_cases hl : l' = l
  · subst hl; simp [List.mem_erase_of_ne hk]
  · simp [hl]

theorem view_append_self :
    (s.append l x).view x = (s.view x).join l := by
  simp only [St.view, St.append, St.setList, View.join, View.mk.injEq, true_and, and_true]
  funext l'
  by_cases hl : l' = l
  · subst hl; simp
  · simp [hl]

theorem view_append_ne (hk : k ≠ x) : (s.append l x).view k = s.view k := by
  simp only [St.view, St.append, St.setList, View.mk.injEq, true_and, and_true]
  funext l'
  by_cases hl : l' = l
  · subst hl; simp [hk]
  · simp [hl]

theorem view_arm_self :
    (s.arm x).view x = (s.view x).join .timer := by
  simp only [St.view, St.arm, St.setList, View.join, View.mk.injEq, true_and, and_true]
  funext l'
  by_cases hl : l' = .timer
  · subst hl; simp
  · simp [hl]

theorem view_arm_ne (hk : k ≠ x) : (s.arm x).view k = s.view k := by
  simp only [St.view, St.arm, St.setList, View.mk.injEq, true_and, and_true]
  funext l'
  by_cases hl : l' = .timer
  · subst hl; simp [hk]
  · simp [hl]

theorem view_release_self :
    (s.release x).view x = (s.view x).free x := by
  simp [St.view, St.release, View.free, hist, Event.about]

theorem view_release_ne (hk : k ≠ x) : (s.release x).view k = s.view k := by
  simp [St.view, St.release, hist, Event.about, hk, Ne.symm hk]

theorem view_allocate_self : s.allocate.view s.next = (s.view s.next).put {} := by
  simp [St.view, St.allocate, View.put]

theorem view_allocate_ne (hk : k ≠ s.next) : s.allocate.view k = s.view k := by
  simp [St.view, St.allocate, hk]

end Update

/-! ## Points -/

/-- The handle a producer has filled in: a one-shot timer. -/
structure ProperTimer (m : Mode) (hd : Handle) : Prop where
  cb : ∃ f, hd.cb = some (.user f)
  fd : hd.fd = fdTimer
  flag2 : hd.flag2 = { oneshot := true }
  armed : m.sat = .never → hd.timeoutAt ≠ uint64Max

def Producer.holds : Producer → Bool
  | .locked _ | .linked _ | .woken _ | .refused => true
  | _ => false

def Producer.Proper (m : Mode) : Producer → Prop
  | .filled hd | .locked hd => ProperTimer m hd
  | _ => True

/-- What holds after every operation. -/
structure Point (m : Mode) (s : St) : Prop where
  nodup : ∀ l, (s.lists l).Nodup
  sane : ∀ h, (s.view h).Sane
  fresh : ∀ h : Nat, s.next ≤ h → s.view h = .empty
  wake_lt : wake < s.next
  log : LogOk m s.log
  ctx : s.alive = true ↔ .ctxFreed ∉ s.log
  stop : s.stopping = true ↔ .stopping ∈ s.log
  lock : ∀ i, s.asyncLock = some (.producer i) ↔ ∃ p, s.producers[i]? = some p ∧ p.holds = true
  proper : ∀ p ∈ s.producers, p.Proper m
  opened : s.finalized = false → 0 ≤ s.epfd ∧ 0 ≤ s.asyncPipe0 ∧ 0 ≤ s.asyncPipe1
  cap : 0 < s.pipeCap

/-- The fields of the context that single operations set. -/
structure Frame where
  epfd : Int
  asyncPipe0 : Int
  asyncPipe1 : Int
  stopping : Bool
  inRun : Bool
  finalized : Bool
  alive : Bool
  pipeCap : Nat

def St.frame (s : St) : Frame :=
  { epfd := s.epfd, asyncPipe0 := s.asyncPipe0, asyncPipe1 := s.asyncPipe1, stopping := s.stopping,
    inRun := s.inRun, finalized := s.finalized, alive := s.alive, pipeCap := s.pipeCap }

end AlgaeBp.Evb2
