import AlgaeBp.Evb2.Machine
/-!
# Creating a context

`aloe_evb2_create` on its own, in a process without a context: no other thread
knows the context before it returns. Every run of it ends in one of the states
the runs of `Evb2.Machine` start from, or gives everything back.
-/
open Reentrant

namespace AlgaeBp.Evb2

/-- No context, and a wake pipe to come that takes `cap` bytes. -/
def St.blank (cap : Nat) : St where
  epfd := -1
  asyncPipe0 := -1
  asyncPipe1 := -1
  lists := fun _ => []
  asyncLock := none
  notifying := none
  stopping := false
  inRun := false
  finalized := false
  alive := false
  heap := fun _ => none
  next := 0
  interest := fun _ => none
  pipe := 0
  pipeCap := cap
  producers := []
  log := []

namespace Create

def sys : System Op Op.Out St Env Unit Bool Empty where
  exec := Op.exec
  yields _ := false
  api _ := aloeEvb2Create
  other l _ := nomatch l

/-- `pipe2` makes descriptors or fails, and any of the other calls may fail. -/
def guard : Guard Op St Env Unit Empty where
  calls _ _ := false
  resumes _ := true
  may _ _ e _ := e.pipeFds.all fun p => 0 ≤ p.1 ∧ 0 ≤ p.2
  others l _ := nomatch l

/-- The call may come to stand at `p`, in the state `s`. -/
abbrev Stands (cap : Nat) (s : St) (p : Code Bool) : Prop :=
  Inside sys guard () [] (St.blank cap) aloeEvb2Create s p

end Create

/-- The context is freed, with every handle, and no descriptor is open. -/
structure Gone (s : St) : Prop where
  alive : s.alive = false
  heap : ∀ h, s.heap h = none
  closed : ∀ f : CtxFd, f.get s < 0
  interest : ∀ fd, s.interest fd = none

/-- A context without handles, its mutex free. -/
structure Bare (s : St) : Prop where
  alive : s.alive = true
  unlocked : s.asyncLock = none
  lists : ∀ l, s.lists l = []
  heap : ∀ h, s.heap h = none
  interest : ∀ fd, s.interest fd = none

theorem Bare.closeFd {s : St} (h : Bare s) (f : CtxFd) : Bare (s.closeFd f) := by
  cases f
  · exact ⟨h.alive, h.unlocked, h.lists, h.heap, h.interest⟩
  · exact ⟨h.alive, h.unlocked, h.lists, h.heap, h.interest⟩
  · exact ⟨h.alive, h.unlocked, h.lists, h.heap, fun _ => rfl⟩

theorem CtxFd.get_closeFd (f g : CtxFd) (s : St) : g.get (s.closeFd f) = if f = g then -1 else g.get s := by
  cases f <;> cases g <;> rfl

namespace Create

def quiet : Logic Op St where
  point _ := True
  before _ _ := True
  atUser _ := True
  keeps _ _ := True
  rely := Eq

abbrev Wp {α : Type} (p : Code α) (Q : α → St → Prop) (s : St) : Prop := wp sys guard quiet () p Q s

theorem need_true {p : Prop} [Decidable p] {α : Type} {a : α} (h : p) : need p a = .ok a := if_pos h

section Rules
variable {o : Op} {s s' : St} {α : Type}

theorem wp_op {Q : o.Out → St → Prop}
    (h : ∀ e, (∀ p ∈ e.pipeFds, 0 ≤ p.1 ∧ 0 ≤ p.2) → ∃ r s', o.exec e s = .ok (r, s') ∧ Q r s') :
    Wp (Prog.act o) Q s := by
  refine wp_act rfl trivial fun e hm => ?_
  obtain ⟨r, s', he, hq⟩ := h e (by simpa [guard, Option.all_eq_true] using hm)
  exact ⟨r, s', he, trivial, hq⟩

/-- An operation whose outcome the environment has no part in. -/
theorem wp_do {r : o.Out} {Q : o.Out → St → Prop} (he : ∀ e, o.exec e s = .ok (r, s')) (hq : Q r s') :
    Wp (Prog.act o) Q s :=
  wp_op fun e _ => ⟨r, s', he e, hq⟩

theorem wp_ctx {Q : St → St → Prop} (ha : s.alive = true) (hq : Q s s) : Wp ctx Q s :=
  wp_do (fun _ => need_true ha) hq

theorem wp_lock {Q : Unit → St → Prop} (ha : s.alive = true) (hl : s.asyncLock = none)
    (hq : Q () { s with asyncLock := some .loop }) : Wp lock Q s :=
  wp_do (fun _ => by simp only [Op.exec, ha, hl]) hq

theorem wp_popEmpty {l : ListId} {Q : Option Ptr → St → Prop} (ha : s.alive = true) (hl : s.lists l = [])
    (hq : Q none s) : Wp (qentPop l) Q s := by
  refine wp_do (fun _ => ?_) hq
  simp only [Op.exec, hl]
  exact need_true ⟨ha, by simp [hl]⟩

/-! ## Destruction of a context without handles -/

theorem wp_markStopping {Q : Bool → St → Prop} (h : Bare s) (hr : s.inRun = false)
    (hq : Q false { s.emit .stopping with stopping := true, inRun := true, asyncLock := none }) :
    Wp markStopping Q s := by
  refine wp.seq (wp_lock h.alive h.unlocked ?_)
  refine wp.seq (wp_do (fun _ => need_true h.alive) ?_)
  refine wp.seq (wp_ctx h.alive ?_)
  rw [if_neg (by simp [St.emit, hr])]
  refine wp.seq (wp_do (fun _ => need_true h.alive) ?_)
  exact wp.seq (wp_do (fun _ => need_true ⟨h.alive, rfl⟩) hq)

theorem wp_evb2Wake {Q : Unit → St → Prop} (ha : s.alive = true) (hq : ∀ n, Q () { s with pipe := n }) :
    Wp evb2Wake Q s := by
  refine wp.seq (wp_ctx ha ?_)
  split
  · exact wp_pure (hq s.pipe)
  · exact wp_do (fun _ => rfl) (hq _)

theorem wp_finalizeList {l : ListId} {Q : Unit → St → Prop} (h : Bare s) (hq : Q () s) : Wp (finalizeList l) Q s := by
  refine wp_iterate (fun _ s' => s' = s) rfl ?_
  rintro _ _ rfl
  -- the first turn finds the list empty
  refine wp.seq (wp_ctx h.alive ?_)
  rw [h.lists l]
  exact wp_pure hq

theorem wp_finalizeAsync {Q : Unit → St → Prop} (h : Bare s) (hq : Q () { s with asyncLock := none }) :
    Wp finalizeAsync Q s := by
  refine wp.seq (wp_lock h.alive h.unlocked ?_)
  refine wp.seq (wp_iterate (fun _ s' => s' = { s with asyncLock := some .loop }) rfl ?_)
  rintro _ _ rfl
  refine wp.seq (wp_popEmpty h.alive (h.lists .async) (wp_pure ?_))
  exact wp_do (fun _ => need_true ⟨h.alive, rfl⟩) hq

/-- A descriptor that is closed stays closed. -/
theorem wp_closeOpen {f : CtxFd} {Q : Unit → St → Prop} (h : Bare s)
    (hq : ∀ s', Bare s' → f.get s' < 0 → (∀ g : CtxFd, g.get s < 0 → g.get s' < 0) → Q () s') :
    Wp (closeOpen f) Q s := by
  refine wp.seq (wp_ctx h.alive ?_)
  split
  · refine wp_do (fun _ => need_true h.alive) (hq _ (h.closeFd f) ?_ fun g hg => ?_)
    · rw [CtxFd.get_closeFd, if_pos rfl]
      decide
    · rw [CtxFd.get_closeFd]
      split
      · decide
      · exact hg
  · rename_i hf
    exact wp_pure (hq s h (Int.not_le.1 hf) fun _ => id)

theorem wp_evb2Finalize {Q : Unit → St → Prop} (h : Bare s) (hf : s.finalized = false)
    (hq : ∀ s', Bare s' → (∀ f : CtxFd, f.get s' < 0) → Q () s') : Wp evb2Finalize Q s := by
  refine wp.seq (wp_ctx h.alive ?_)
  rw [if_neg (by simp [hf])]
  have hb : Bare { s with finalized := true } := ⟨h.alive, h.unlocked, h.lists, h.heap, h.interest⟩
  refine wp.seq (wp_do (fun _ => need_true h.alive) ?_)
  -- fdmon, timer and ready
  refine wp.seq (wp_finalizeList hb ?_)
  refine wp.seq (wp_finalizeList hb ?_)
  refine wp.seq (wp_finalizeList hb ?_)
  refine wp.seq (wp_finalizeAsync hb ?_)
  -- what is closed stays closed while the others are
  refine wp.seq (wp_closeOpen ⟨h.alive, rfl, h.lists, h.heap, h.interest⟩ fun s₁ h₁ hrd _ => ?_)
  refine wp.seq (wp_closeOpen h₁ fun s₂ h₂ hwr hk₂ => ?_)
  refine wp_closeOpen h₂ fun s₃ h₃ hep hk₃ => hq s₃ h₃ fun f => ?_
  cases f with
  | rd => exact hk₃ .rd (hk₂ .rd hrd)
  | wr => exact hk₃ .wr hwr
  | ep => exact hep

theorem wp_aloeEvb2Destroy {Q : Unit → St → Prop} (h : Bare s) (hr : s.inRun = false) (hf : s.finalized = false)
    (hq : ∀ s', Gone s' → Q () s') : Wp aloeEvb2Destroy Q s := by
  refine wp.seq (wp_markStopping h hr ?_)
  refine wp.seq (wp_evb2Wake h.alive fun n => ?_)
  refine wp.seq (wp_evb2Finalize ⟨h.alive, rfl, h.lists, h.heap, h.interest⟩ hf fun s' h' hc => ?_)
  refine wp_do (fun _ => need_true ⟨h'.alive, h'.unlocked⟩) (hq _ ⟨rfl, h'.heap, fun f => ?_, h'.interest⟩)
  cases f
  · exact hc .rd
  · exact hc .wr
  · exact hc .ep

theorem wp_fail {Q : Bool → St → Prop} (h : Bare s) (hr : s.inRun = false) (hf : s.finalized = false)
    (hq : ∀ s', Gone s' → Q false s') : Wp aloeEvb2Create.fail Q s :=
  wp.seq (wp_aloeEvb2Destroy h hr hf fun s' hs => wp_pure (hq s' hs))

/-! ## The wake pipe's handle -/

/-- The context with all its descriptors, before it has a handle. -/
def opened (b : Boot) : St :=
  { St.blank b.cap with epfd := b.epfd, asyncPipe0 := b.rd, asyncPipe1 := b.wr, alive := true }

/-- With the wake pipe's handle, not yet linked. -/
def allocated (b : Boot) (hd : Handle) : St :=
  { opened b with heap := Function.update (fun _ => none) wake (some hd), next := 1 }

/-- With that handle linked. -/
def linked (b : Boot) (hd : Handle) : St :=
  { allocated b hd with lists := fun l => if l = .fdmon then [wake] else [] }

/-- With the kernel watching the pipe. -/
def watched (b : Boot) (hd : Handle) : St := (linked b hd).setInterest b.rd (some (toEpoll flagRead))

variable {b : Boot} {hd : Handle} {cap : Nat}

theorem opened_bare (b : Boot) : Bare (opened b) := ⟨rfl, rfl, fun _ => rfl, fun _ => rfl, fun _ => rfl⟩

theorem allocated_heap : (allocated b hd).heap wake = some hd := by simp [allocated]

theorem allocated_put {hd' : Handle} : (allocated b hd).put wake hd' = allocated b hd' := by
  simp [allocated, St.put]

theorem watched_heap : (watched b hd).heap wake = some hd := by simp [watched, linked, allocated, St.setInterest]

theorem watched_put {hd' : Handle} : (watched b hd).put wake hd' = watched b hd' := by
  simp [watched, linked, allocated, St.put, St.setInterest]

/-- Taken off its list and freed, the handle leaves nothing behind. -/
theorem bare_detached (b : Boot) (hd : Handle) :
    Bare ((((linked b hd).unlink .fdmon wake).unlink .timer wake).unlink .ready wake |>.release wake) where
  alive := rfl
  unlocked := rfl
  lists l := by cases l <;> simp [St.release, St.unlink, St.setList, linked]
  heap h := by simp [St.release, St.unlink, St.setList, linked, allocated]
  interest _ := rfl

theorem wp_now {Q : UInt64 → St → Prop} (hq : ∀ t, Q t s) : Wp evb2NowMs Q s :=
  wp_op fun e _ => ⟨e.clock, s, rfl, hq e.clock⟩

theorem wp_load {x : Ptr} {Q : Handle → St → Prop} (hx : s.heap x = some hd) (hq : Q hd s) : Wp (load x) Q s :=
  wp_do (fun _ => by simp only [Op.exec, hx]) hq

theorem wp_store {x : Ptr} {f : Handle → Handle} {Q : Unit → St → Prop} (hx : s.heap x = some hd)
    (hq : Q () (s.put x (f hd))) : Wp (store x f) Q s :=
  wp_do (fun _ => by simp only [Op.exec, hx]) hq

theorem wp_setTimeoutAt {x : Ptr} {t : UInt64} {Q : Unit → St → Prop} (hx : s.heap x = some hd)
    (hq : Q () (s.put x { hd with timeoutAt := t })) : Wp (setTimeoutAt x t) Q s :=
  wp_do (fun _ => by simp only [Op.exec, hx]) hq

theorem wp_remove {l : ListId} {x : Ptr} {Q : Bool → St → Prop} (hw : s.Walkable l) (hl : l ≠ .async)
    (hq : Q (decide (x ∈ s.lists l)) (s.unlink l x)) : Wp (qentRemove l x) Q s :=
  wp_do (fun _ => by simp only [Op.exec, need_true hw, hl, false_and, if_false]) hq

theorem walkable_unlink {l : ListId} {x : Ptr} (h : ∀ l, s.Walkable l) (l' : ListId) : (s.unlink l x).Walkable l' := by
  refine ⟨(h l').1, fun y hy => (h l').2 y ?_⟩
  simp only [St.unlink, St.setList, Function.update_apply] at hy
  split at hy
  · rename_i hl
    exact hl ▸ List.mem_of_mem_erase hy
  · exact hy

theorem wp_handleDetach {x : Ptr} {Q : Unit → St → Prop} (hw : ∀ l, s.Walkable l)
    (hq : Q () (((s.unlink .fdmon x).unlink .timer x).unlink .ready x)) : Wp (handleDetach x) Q s := by
  have hw₁ := fun l => walkable_unlink (l := .fdmon) (x := x) hw l
  have hw₂ := fun l => walkable_unlink (l := .timer) (x := x) hw₁ l
  refine wp.seq (wp_remove (hw _) (by decide) ?_)
  refine wp.seq (wp_remove (hw₁ _) (by decide) ?_)
  exact wp.seq (wp_remove (hw₂ _) (by decide) (wp_pure hq))

theorem wp_handleAlloc {Q : Option Ptr → St → Prop} (hs : Q none (opened b))
    (hq : Q (some wake) (allocated b { fd := fdTimer })) : Wp handleAlloc Q (opened b) := by
  refine wp.seq (wp_op fun e _ => ?_)
  cases hm : e.mallocOk with
  | false => exact ⟨none, opened b, by simp [Op.exec, hm], wp_pure hs⟩
  | true =>
    refine ⟨some wake, allocated b {}, by simp only [Op.exec, hm, if_true]; rfl, ?_⟩
    refine wp.seq (wp_store allocated_heap (wp_pure ?_))
    rw [allocated_put]
    exact hq

theorem wp_insertTail {l : ListId} {x : Ptr} {Q : Unit → St → Prop} (hw : s.Walkable l) (hx : s.Live x)
    (hf : s.LinkFree l x) (hl : l ≠ .async) (hq : Q () (s.append l x)) : Wp (qentInsertTail l x) Q s :=
  wp_do (fun _ => by simp only [Op.exec, hl, if_false]; exact need_true ⟨hw, hx, hf⟩) hq

theorem linked_eq : (allocated b hd).append .fdmon wake = linked b hd := by
  simp only [St.append, St.setList, linked]
  congr 1
  funext l
  cases l <;> rfl

theorem linked_heap : (linked b hd).heap wake = some hd := by simp [linked, allocated]

theorem linked_fdmon : (linked b hd).lists .fdmon = [wake] := rfl

theorem linked_walkable (l : ListId) : (linked b hd).Walkable l := by
  refine ⟨rfl, fun h hh => ?_⟩
  have hw : h = wake := by cases l <;> simp_all [linked]
  simp [hw, St.Live, linked_heap]

theorem wp_epollRefresh {Q : Int → St → Prop} (hfd : hd.fd = b.rd) (hflag : hd.flag = flagRead)
    (hok : Q 0 (watched b hd)) (herr : Q (-1) (linked b hd)) : Wp (epollRefresh b.rd) Q (linked b hd) := by
  have hep : ¬ (linked b hd).epfd < 0 := Int.not_lt.2 b.epfd_nonneg
  have hrd : ¬ b.rd ≤ fdTimer := by
    have := b.rd_nonneg
    simp only [fdTimer]
    omega
  refine wp.seq (wp_ctx rfl ?_)
  rw [if_neg hep, if_neg hrd, linked_fdmon]
  refine wp.seq (wp.seq (wp_load linked_heap ?_))
  rw [if_pos hfd]
  refine wp_pure ?_
  dsimp only
  rw [if_neg (by simp), hflag]
  refine wp.seq (wp_op fun e _ => ?_)
  cases he : e.ctlErr with
  | none =>
    exact ⟨none, watched b hd, by simp only [Op.exec, he, ctlResult_add (s := linked b hd) rfl]; rfl, wp_pure hok⟩
  | some err =>
    refine ⟨some err.errno, linked b hd, ?_, ?_⟩
    · simp only [Op.exec, he, ctlResult_failed (s := linked b hd) (iff_of_true rfl rfl)]
      rfl
    · cases err <;> exact wp_pure herr

/-- The kernel takes the pipe or does not; then the handle is freed again. -/
theorem wp_monitorFd {Q : Bool → St → Prop} (hfd : hd.fd = b.rd) (hflag : hd.flag = flagRead)
    (hok : Q true (watched b hd)) (herr : ∀ s', Bare s' → s'.inRun = false → s'.finalized = false → Q false s') :
    Wp (monitorFd wake b.rd) Q (allocated b hd) := by
  unfold monitorFd
  rw [if_pos b.rd_nonneg]
  refine wp.seq (wp_insertTail ⟨rfl, by simp [allocated, opened, St.blank]⟩ (by simp [St.Live, allocated_heap])
    (by simp [St.LinkFree, allocated, opened, St.blank]) (by decide) ?_)
  rw [linked_eq]
  refine wp.seq (wp_epollRefresh hfd hflag (wp_pure hok) ?_)
  rw [if_pos (by decide)]
  refine wp.seq (wp_handleDetach linked_walkable ?_)
  refine wp.seq (wp_do (fun _ => need_true (by simp [St.Live, St.unlink, St.setList, linked_heap])) (wp_pure ?_))
  exact herr _ (bare_detached b hd) rfl rfl

theorem timeoutFrom_infinite (now : UInt64) : timeoutFrom infinite now = uint64Max := if_pos (.inl rfl)

/-- The wake pipe's handle as `aloe_evb2_add_fd` makes it. -/
def wakeAdded (rd : Int) : Handle := { wakeHandle rd with flag2 := {} }

theorem wp_addWake {Q : Option Ptr → St → Prop} (hok : Q (some wake) (watched b (wakeAdded b.rd)))
    (herr : ∀ s', Bare s' → s'.inRun = false → s'.finalized = false → Q none s') :
    Wp (aloeEvb2AddFd b.rd flagRead infinite (some .asyncHandler) 0) Q (opened b) := by
  have hrd := b.rd_nonneg
  refine wp.seq (wp_ctx rfl ?_)
  rw [if_neg (by simp [opened, St.blank, fdTimer]; omega), if_neg (by simp [fdTimer]; omega)]
  refine wp.seq (wp_handleAlloc (wp_pure (herr _ (opened_bare b) rfl rfl)) ?_)
  refine wp.seq (wp_store allocated_heap ?_)
  rw [allocated_put]
  refine wp.seq (wp_now fun now => ?_)
  refine wp.seq (wp.seq (wp_load allocated_heap (wp_setTimeoutAt allocated_heap ?_)))
  rw [allocated_put, timeoutFrom_infinite]
  refine wp.seq (wp_monitorFd rfl rfl ?_ fun s' hs hr hf => wp_pure (herr s' hs hr hf))
  rw [if_neg (by simp)]
  refine wp.seq (wp.seq (wp_load watched_heap ?_))
  rw [if_neg (by simp)]
  exact wp_pure (wp_pure hok)

theorem blank_gone (cap : Nat) : Gone (St.blank cap) :=
  ⟨rfl, fun _ => rfl, fun f => by cases f <;> exact (by decide : (-1 : Int) < 0), fun _ => rfl⟩

theorem wp_create {Q : Bool → St → Prop} (hq : ∀ b : Boot, b.cap = cap → Q true (St.init b))
    (hgone : ∀ s', Gone s' → Q false s') (hc : 0 < cap) :
    Wp aloeEvb2Create Q (St.blank cap) := by
  refine wp.seq (wp_op fun e _ => ?_)
  cases hm : e.mallocOk with
  | false => exact ⟨false, St.blank cap, by simp [Op.exec, hm], wp_pure (hgone _ (blank_gone cap))⟩
  | true =>
  refine ⟨true, (St.blank cap).fresh, by simp [Op.exec, hm], ?_⟩
  have hf : Bare (St.blank cap).fresh := ⟨rfl, rfl, fun _ => rfl, fun _ => rfl, fun _ => rfl⟩
  rw [if_neg (by decide)]
  refine wp.seq (wp_op fun e _ => ⟨e.mutexOk, _, need_true rfl, ?_⟩)
  split
  · refine wp.seq (wp_do (fun _ => need_true ⟨rfl, rfl⟩) (wp_pure (hgone _ ⟨rfl, fun _ => rfl, ?_, fun _ => rfl⟩)))
    intro f
    cases f <;> exact (by decide : (-1 : Int) < 0)
  refine wp.seq (wp_op fun e _ => ⟨e.epfd, _, need_true rfl, ?_⟩)
  split
  · exact wp_fail ⟨rfl, rfl, fun _ => rfl, fun _ => rfl, fun _ => rfl⟩ rfl rfl hgone
  rename_i hep
  refine wp.seq (wp_op fun e' hp => ?_)
  cases hfd : e'.pipeFds with
  | none =>
    refine ⟨false, _, by simp only [Op.exec, hfd]; exact need_true rfl, ?_⟩
    exact wp_fail ⟨rfl, rfl, fun _ => rfl, fun _ => rfl, fun _ => rfl⟩ rfl rfl hgone
  | some p =>
    let b : Boot := ⟨e.epfd, p.1, p.2, cap, Int.not_lt.1 hep, (hp p hfd).1, (hp p hfd).2, hc⟩
    refine ⟨true, opened b, by simp only [Op.exec, hfd]; exact need_true rfl, ?_⟩
    rw [if_neg (by decide)]
    refine wp.seq (wp_ctx rfl ?_)
    refine wp.seq (wp_addWake (b := b) ?_ fun s' hs hr hf => wp_fail hs hr hf hgone)
    refine wp.seq (wp_store watched_heap (wp_pure ?_))
    rw [watched_put]
    -- with its handle marked as internal, the context is as runs start
    exact hq b rfl

end Rules

theorem sound : Sound sys guard quiet where
  call _ _ _ _ h := by cases h
  other l := nomatch l
  rely_point _ _ _ _ := trivial
  rely_user _ _ _ _ _ := ⟨trivial, trivial⟩
  rely_refl _ := rfl
  rely_trans := Eq.trans
  keeps_refl _ := trivial
  keeps_trans _ _ := trivial

/-- What a call that returns has left. -/
def Left (cap : Nat) (ok : Bool) (s : St) : Prop := if ok then ∃ b : Boot, b.cap = cap ∧ s = St.init b else Gone s

theorem wp_stands {cap : Nat} {s : St} {p : Code Bool} (hc : 0 < cap) (h : Stands cap s p) : Wp p (Left cap) s := by
  have hcreate : Wp aloeEvb2Create (Left cap) (St.blank cap) := wp_create (fun b hb => ⟨b, hb, rfl⟩) (fun _ hs => hs) hc
  exact (sound.inside h trivial hcreate).2

theorem no_fault {cap : Nat} {s : St} {p : Code Bool} (hc : 0 < cap) (h : Stands cap s p) :
    ¬ Faults sys guard ⟨s, [((), p)]⟩ := by
  have hok : CfgOk sys guard quiet s ⟨s, [((), p)]⟩ :=
    ⟨trivial, wp_mono (wp_stands hc h) fun _ _ _ => ⟨trivial, trivial⟩⟩
  exact sound.no_fault hok

end Create

section
open Create

/-- `aloe_evb2_create` does nothing undefined, whichever of its calls fail. When
it returns a context, that is in a state runs start from; when it returns none,
nothing is left of it. -/
theorem create_init {cap : Nat} (hc : 0 < cap) :
    (∀ s p, Stands cap s p → ¬ Faults Create.sys Create.guard ⟨s, [((), p)]⟩) ∧
    (∀ s, Stands cap s (.ret true) → ∃ b : Boot, b.cap = cap ∧ s = St.init b) ∧
    ∀ s, Stands cap s (.ret false) → Gone s :=
  ⟨fun _ _ => no_fault hc, fun _ h => wp_stands hc h, fun _ h => wp_stands hc h⟩

/-- A call whose own calls all succeed, with descriptors 3, 4 and 5. -/
def opening : St × Code Bool :=
  driveInside Create.sys Create.guard { epfd := 3, pipeFds := some (4, 5) } () 40 (St.blank 16) aloeEvb2Create

/-- A call for which `epoll_ctl` fails. -/
def noEpoll : St × Code Bool :=
  driveInside Create.sys Create.guard { epfd := 3, pipeFds := some (4, 5), ctlErr := some .other } () 80 (St.blank 16)
    aloeEvb2Create

/-- Both ends of the call are reached. -/
theorem create_init_ends :
    (∃ b : Boot, b.rd = 4 ∧ Stands 16 (St.init b) (.ret true)) ∧ ∃ s, s.next = 1 ∧ Gone s ∧ Stands 16 s (.ret false) := by
  have ho : Stands 16 opening.1 (.ret true) := inside_ret rfl []
  have hr : Stands 16 noEpoll.1 (.ret false) := inside_ret rfl []
  obtain ⟨-, hinit, hgone⟩ := create_init (by decide : 0 < 16)
  obtain ⟨b, -, hb⟩ := hinit _ ho
  have hrd : b.rd = 4 := by
    have : opening.1.asyncPipe0 = 4 := rfl
    rwa [hb] at this
  exact ⟨⟨b, hrd, hb ▸ ho⟩, noEpoll.1, rfl, hgone _ hr, hr⟩

end

end AlgaeBp.Evb2
