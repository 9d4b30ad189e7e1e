import AlgaeBp.Rtsp.Invariant
/-!
# Buffers and units of the capture source

Every function of the source keeps `Inv` at each of its operations and leads
from rest to rest; so every run does (`Reachable.ok`), and the buffers, the
queue and what is delivered are as `Conserves` says.
-/
open Reentrant

namespace AlgaeBp.Rtsp

def logic (pl : Pipeline) : Logic Op St where
  point := Inv pl
  before _ _ := True
  atUser := AtRest pl
  keeps _ _ := True
  rely := Eq

abbrev Wp (pl : Pipeline) (b : Call) {α : Type} (p : Code α) (Q : α → St → Prop) (s : St) : Prop :=
  wp (sys pl) (guard pl) (logic pl) b p Q s

section
variable {pl : Pipeline} {b : Call} {s : St} {call i : Nat}

/-! ## Operations -/

theorem wp_op {o : Op} {Q : o.Out → St → Prop}
    (h : ∀ e, (guard pl).may b o e s = true → ∃ r s', o.exec pl e s = .ok (r, s') ∧ Inv pl s' ∧ Q r s') :
    Wp pl b (.act o) Q s :=
  wp_act rfl trivial h

theorem wp_user {Q : Unit → St → Prop} (hs : AtRest pl s) (h : ∀ s', AtRest pl s' → Q () s') :
    Wp pl b Prog.callback Q s :=
  wp_callback hs fun s' _ hs' _ => h s' hs'

/-! ## Delivery -/

theorem wp_deliverQueuedNal (hs : AtRest pl s) :
    Wp pl b (deliverQueuedNal pl) (fun r s' => AtRest pl s' ∧ (r = false → s'.nalQueue = [])) s := by
  refine .seq (wp_op fun e _ => ⟨_, s, rfl, hs.toInv, ?_⟩)
  cases hq : s.nalQueue with
  | nil => exact wp_pure ⟨hs, fun _ => hq⟩
  | cons nal rest =>
    obtain ⟨hunit, himage, hplace, hrest⟩ := hs.head hq
    have hbegun : 0 < s.encoded := by
      refine Nat.pos_of_ne_zero fun h0 => ?_
      have hnil := hs.blank h0
      rw [hq] at hnil
      cases hnil
    have htime := hs.stamped (by rw [hq]; exact List.cons_ne_nil _ _)
    have hpop := hs.toInv.popFront hq
    refine .seq (wp_op fun e _ => ⟨nal, { s with nalQueue := rest }, ?_, hpop, ?_⟩)
    · simp only [Op.exec, hq]
    refine .seq (wp_op fun e _ => ⟨_, _, rfl, hpop, ?_⟩)
    refine .seq (wp_op fun e _ => ⟨_, _, rfl, hpop, ?_⟩)
    have hlast : rest.isEmpty = decide (s.sent + 1 = (s.units s.last).length) := by
      rw [hrest, tagged_drop_isEmpty hunit]
    have hduration : (if rest.isEmpty then pl.frameDurationUs else 0) =
        if s.sent + 1 = (s.units s.last).length then pl.frameDurationUs else 0 := by
      simp only [hlast, decide_eq_true_eq]
    have hframe := fun size truncated => hpop.setFrame hunit himage hplace hbegun htime size truncated hduration
    refine .seq (wp_op fun e _ => ⟨_, _, rfl, hframe _ _, ?_⟩)
    refine .seq (wp_user ⟨hframe _ _, .inr hrest, hs.balanced⟩ fun s' hs' => ?_)
    exact wp_pure ⟨hs', fun h => nomatch h⟩

theorem wp_doGetNextFrame (hs : AtRest pl s) : Wp pl b (doGetNextFrame pl) (fun _ s' => AtRest pl s') s := by
  refine .seq (wp_op fun e _ => ⟨_, s, rfl, hs.toInv, ?_⟩)
  by_cases hstreaming : e.streaming = false
  · rw [if_pos hstreaming]
    exact wp_user hs fun _ => id
  rw [if_neg hstreaming]
  refine .seq (wp_mono (wp_deliverQueuedNal hs) ?_)
  rintro (_ | _) s₁ ⟨hs₁, hempty⟩
  · refine .seq (wp_op fun e _ => ⟨_, s₁, rfl, hs₁.toInv, ?_⟩)
    cases hstarted : s₁.fHaveStartedReading with
    | true => exact wp_pure hs₁
    | false =>
      have hq := hempty rfl
      have hon := hs₁.toInv.turnOn hq
      refine .seq (wp_op fun e _ => ⟨_, _, rfl, hon, ?_⟩)
      exact wp_op fun e _ => ⟨_, _, rfl, hon.setHaveStartedReading true,
        hon.setHaveStartedReading true, .inl hq, hs₁.balanced⟩
  · exact wp_pure hs₁

theorem wp_doStopGettingFrames (hs : AtRest pl s) : Wp pl b doStopGettingFrames (fun _ s' => AtRest pl s') s := by
  have hoff := hs.toInv.turnOff
  refine .seq (wp_op fun e _ => ⟨_, _, rfl, hoff, ?_⟩)
  refine .seq (wp_op fun e _ => ⟨_, _, rfl, hoff.setHaveStartedReading false, ?_⟩)
  have hclear := (hoff.setHaveStartedReading false).clear
  exact wp_op fun e _ => ⟨_, _, rfl, hclear, hclear, .inl rfl, hs.balanced⟩

/-! ## Buffers -/

/-- A call of the handler that has still to encode. -/
structure Holding (pl : Pipeline) (call : Nat) (held : List Nat) (s : St) : Prop extends Inv pl s where
  empty : s.nalQueue = []
  owes : Owes s call held

theorem Holding.atRest (h : Holding pl call [] s) : AtRest pl s := ⟨h.toInv, .inl h.empty, h.owes.balanced⟩

theorem wp_drain {turns bufIndex : Nat} {staleBuffers : List Nat} (hs : Holding pl call (bufIndex :: staleBuffers) s)
    (hindex : bufIndex < pl.buffers.length) (hroom : (s.dequeued call).length + turns ≤ pl.buffers.length) :
    Wp pl b (drain call turns bufIndex staleBuffers)
      (fun r s' => Holding pl call (r.1 :: r.2) s' ∧ r.1 < pl.buffers.length) s := by
  induction turns generalizing s bufIndex staleBuffers with
  | zero => exact wp_pure ⟨hs, hindex⟩
  | succ turns ih =>
    refine .seq (wp_op fun e hmay => ?_)
    cases hfilled : e.filled with
    | none => exact ⟨none, s, by simp only [Op.exec, hfilled]; rfl, hs.toInv, wp_pure ⟨hs, hindex⟩⟩
    | some nextIndex =>
      have hinv : Inv pl (s.dequeue call nextIndex) := hs.toInv.dequeue hs.owes.made (by omega)
      have howes : Owes (s.dequeue call nextIndex) call (nextIndex :: (staleBuffers ++ [bufIndex])) :=
        (hs.owes.dequeue nextIndex).perm (((List.perm_append_singleton bufIndex staleBuffers).symm).cons nextIndex)
      refine ⟨some nextIndex, s.dequeue call nextIndex, by simp only [Op.exec, hfilled]; rfl, hinv, ?_⟩
      refine ih ⟨hinv, hs.empty, howes⟩ ?_ ?_
      · simpa [guard, hfilled] using hmay
      · simp only [St.dequeue, Function.update_self, List.length_cons]
        omega

theorem wp_enqueueAll {bufIndex : Nat} {staleBuffers : List Nat} (hs : Holding pl call (bufIndex :: staleBuffers) s) :
    Wp pl b (enqueueAll call staleBuffers) (fun _ s' => Holding pl call [bufIndex] s') s := by
  induction staleBuffers generalizing s with
  | nil => exact wp_pure hs
  | cons staleIndex rest ih =>
    have hinv : Inv pl (s.enqueue call staleIndex) := hs.toInv.enqueue hs.owes.made
    have howes : Owes (s.enqueue call staleIndex) call (bufIndex :: rest) :=
      (hs.owes.perm (List.Perm.swap staleIndex bufIndex rest)).enqueue
    refine .seq (wp_op fun e _ => ⟨_, _, rfl, hinv, ?_⟩)
    exact ih ⟨hinv, hs.empty, howes⟩

/-! ## Encoding -/

theorem wp_pushAll {nalUnits : List (List UInt8)} (hs : Filling pl s) (hb : Balanced s) :
    Wp pl b (pushAll nalUnits) (fun _ s' => Filling pl s' ∧ Balanced s') s := by
  induction nalUnits generalizing s with
  | nil => exact wp_pure ⟨hs, hb⟩
  | cons nal rest ih =>
    refine .seq (wp_op fun e _ => ⟨_, _, rfl, (hs.pushBack nal).toInv, ?_⟩)
    exact ih (hs.pushBack nal) hb

theorem wp_getNextIfAwaiting (hs : AtRest pl s) : Wp pl b (getNextIfAwaiting pl) (fun _ s' => AtRest pl s') s := by
  refine .seq (wp_op fun e _ => ⟨_, s, rfl, hs.toInv, ?_⟩)
  cases hawaiting : e.awaiting with
  | true => exact wp_doGetNextFrame hs
  | false => exact wp_pure hs

theorem wp_encodeBuffer {bufIndex : Nat} (hs : Holding pl call [bufIndex] s) (hoff : s.background = false) :
    Wp pl b (encodeBuffer pl call bufIndex) (fun _ s' => AtRest pl s') s := by
  have hfill := hs.toInv.encode_filling hs.empty hoff
  have howes : Owes s.encode call [bufIndex] := ⟨hs.owes.made, hs.owes.own, hs.owes.others⟩
  have hinv : Inv pl (s.encode.enqueue call bufIndex) := hfill.toInv.enqueue hs.owes.made
  have hbalanced : Balanced (s.encode.enqueue call bufIndex) := howes.enqueue.balanced
  have hfill' : Filling pl (s.encode.enqueue call bufIndex) := ⟨hinv, hfill.begun, hoff, rfl, hfill.all, hfill.now⟩
  refine .seq (wp_op fun e _ => ⟨_, _, rfl, hfill.toInv, ?_⟩)
  refine .seq (wp_op fun _ _ => ⟨_, _, rfl, hinv, ?_⟩)
  by_cases hsome : e.encSize > 0 ∧ e.annexB ≠ []
  · rw [if_pos hsome]
    obtain ⟨spans, hsplit, -⟩ := splitFrom_pieces (p := e.annexB) (i := 0) (Nat.lt_succ_self _) []
    have hsplit : splitAnnexBNals e.annexB [] = _ := hsplit
    refine .seq (wp_op fun _ _ => ⟨_, _, by simp only [Op.exec, hsplit]; rfl, hinv, ?_⟩)
    refine .seq (wp_mono (wp_pushAll hfill' hbalanced) ?_)
    rintro ⟨⟩ s' ⟨hs', hb'⟩
    exact wp_getNextIfAwaiting ⟨hs'.toInv, hs'.settled, hb'⟩
  · rw [if_neg hsome]
    exact wp_getNextIfAwaiting ⟨hinv, hfill'.settled, hbalanced⟩

theorem wp_useBuffer {bufIndex : Nat} (hs : Holding pl call [bufIndex] s) (hindex : bufIndex < pl.buffers.length) :
    Wp pl b (useBuffer pl call bufIndex) (fun _ s' => AtRest pl s') s := by
  have hoff := hs.toInv.turnOff
  have howes := hs.owes
  refine .seq (wp_op fun e _ => ⟨_, _, rfl, hoff, ?_⟩)
  refine .seq (wp_op fun e _ => ⟨_, _, rfl, hoff.setHaveStartedReading false, ?_⟩)
  refine .seq (wp_op fun e _ => ?_)
  have htime := (hoff.setHaveStartedReading false).gettimeofday hs.empty e.now
  have hold : Holding pl call [bufIndex] _ := ⟨htime, hs.empty, ⟨howes.made, howes.own, howes.others⟩⟩
  refine ⟨_, _, rfl, htime, .seq (wp_op fun e _ => ⟨pl.buffers[bufIndex], _, ?_, htime, ?_⟩)⟩
  · simp only [Op.exec, List.getElem?_eq_getElem hindex]
    rfl
  · by_cases hraw : pl.pixelformat = pixFmtSrggb10
    · rw [if_pos hraw]
      by_cases hsmall : pl.buffers[bufIndex] < pl.srcsz
      · rw [if_pos hsmall]
        have hinv := htime.enqueue (i := bufIndex) howes.made
        refine .seq (wp_op fun e _ => ⟨_, _, rfl, hinv, ?_⟩)
        exact wp_doGetNextFrame (Holding.atRest ⟨hinv, hs.empty, hold.owes.enqueue⟩)
      · rw [if_neg hsmall]
        refine .seq (wp_op fun e _ => ⟨_, _, rfl, htime, ?_⟩)
        exact wp_encodeBuffer hold rfl
    · rw [if_neg hraw]
      exact wp_encodeBuffer hold rfl

/-- The scheduler calls the handler only while the queue is empty. -/
theorem wp_v4l2ReadableHandler (hs : AtRest pl s) (hon : s.background = true) :
    Wp pl b (v4l2ReadableHandler pl) (fun _ s' => AtRest pl s') s := by
  have hbegin : Holding pl s.calls [] s.begin := ⟨hs.toInv.begin, hs.idle hon, hs.balanced.begin hs.toInv⟩
  have hnone : (s.begin.dequeued s.calls).length = 0 := by
    show (s.dequeued s.calls).length = 0
    rw [(hs.fresh s.calls le_rfl).1, List.length_nil]
  refine .seq (wp_op fun e _ => ⟨_, _, rfl, hbegin.toInv, ?_⟩)
  refine .seq (wp_op fun e _ => ⟨_, _, rfl, hbegin.toInv, ?_⟩)
  by_cases hstreaming : e.streaming = false
  · rw [if_pos hstreaming]
    exact wp_pure hbegin.atRest
  rw [if_neg hstreaming]
  refine .seq (wp_op fun e _ => ⟨_, _, rfl, hbegin.toInv, ?_⟩)
  by_cases hawaiting : e.awaiting = false
  · rw [if_pos hawaiting]
    exact wp_pure hbegin.atRest
  rw [if_neg hawaiting]
  refine .seq (wp_op fun e hmay => ?_)
  cases hfilled : e.filled with
  | none => exact ⟨none, s.begin, by simp only [Op.exec, hfilled]; rfl, hbegin.toInv, wp_pure hbegin.atRest⟩
  | some bufIndex =>
    have hindex : bufIndex < pl.buffers.length := by simpa [guard, hfilled] using hmay
    have hinv : Inv pl (s.begin.dequeue s.calls bufIndex) := hbegin.toInv.dequeue hbegin.owes.made (by omega)
    have hhold : Holding pl s.calls [bufIndex] (s.begin.dequeue s.calls bufIndex) :=
      ⟨hinv, hbegin.empty, hbegin.owes.dequeue bufIndex⟩
    refine ⟨some bufIndex, s.begin.dequeue s.calls bufIndex, by simp only [Op.exec, hfilled]; rfl, hinv, ?_⟩
    have hroom : ((s.begin.dequeue s.calls bufIndex).dequeued s.calls).length +
        (pl.buffers.length - 1) ≤ pl.buffers.length := by
      simp only [St.dequeue, Function.update_self, List.length_cons]
      omega
    refine .seq (wp_mono (wp_drain hhold hindex hroom) ?_)
    rintro ⟨newest, staleBuffers⟩ s₁ ⟨hs₁, hnewest⟩
    refine .seq (wp_mono (wp_enqueueAll hs₁) ?_)
    rintro ⟨⟩ s₂ hs₂
    exact wp_useBuffer hs₂ hnewest

end

/-! ## Every run -/

theorem sound (pl : Pipeline) : Sound (sys pl) (guard pl) (logic pl) where
  call b s _ hs hcall := by
    have hrest : Wp pl b ((sys pl).api b) (fun _ s' => AtRest pl s') s := by
      cases b with
      | doGetNextFrame => exact wp_doGetNextFrame hs
      | doStopGettingFrames => exact wp_doStopGettingFrames hs
      | readable =>
        have hon : s.background = true := by simpa [guard] using hcall
        exact wp_v4l2ReadableHandler hs hon
    exact wp_mono hrest fun _ _ hs' => ⟨hs', trivial⟩
  other l := l.elim
  rely_point _ _ hp := by
    rintro rfl
    exact hp
  rely_user _ _ _ hu := by
    rintro rfl
    exact ⟨hu, trivial⟩
  rely_refl _ := rfl
  rely_trans := Eq.trans
  keeps_refl _ := trivial
  keeps_trans _ _ := trivial

theorem Reachable.ok {pl : Pipeline} {c : Config} (h : Reachable pl c) :
    CfgOk (sys pl) (guard pl) (logic pl) St.init c :=
  (sound pl).reaches (c := ⟨St.init, []⟩) ⟨(init_atRest pl).toInv, init_atRest pl, trivial⟩ h

/-- What is kept of buffers and of units. -/
structure Conserves (pl : Pipeline) (c : Config) : Prop where
  /-- Nothing undefined happens next. -/
  safe : ¬ Faults (sys pl) (guard pl) c
  /-- A call of the handler dequeues at most as many buffers as there are. -/
  few : ∀ k, (c.st.dequeued k).length ≤ pl.buffers.length
  /-- Whenever it has returned, or user code runs inside it, it has enqueued each of them exactly once. -/
  requeued : c.AtUser → ∀ k, (c.st.enqueued k).Perm (c.st.dequeued k)
  /-- The queue holds units of the last image. -/
  oneImage : ∀ q ∈ c.st.nalQueue, q.image = c.st.last ∧ (c.st.units c.st.last)[q.place]? = some q.bytes
  /-- Every frame is a unit, as far as it fits in `fMaxSize`. -/
  units : ∀ f ∈ c.st.delivered, ∃ nal, (c.st.units f.image)[f.place]? = some nal ∧ f.data = nal.take f.fFrameSize.toNat
  /-- Units are delivered in order, each at most once. -/
  order : c.st.delivered.Pairwise Frame.Before
  time : ∀ f ∈ c.st.delivered, ∀ g ∈ c.st.delivered, f.image = g.image → f.fPresentationTime = g.fPresentationTime
  /-- The last unit of an image is charged with the duration, the others with nothing. -/
  charged : ∀ f ∈ c.st.delivered, f.fDurationInMicroseconds =
    if f.place + 1 = (c.st.units f.image).length then pl.frameDurationUs else 0
  /-- With its last unit an image is delivered completely. -/
  complete : ∀ f ∈ c.st.delivered, f.place + 1 = (c.st.units f.image).length →
    ∀ place < (c.st.units f.image).length, ∃ g ∈ c.st.delivered, g.image = f.image ∧ g.place = place

theorem Inv.oneImage {pl : Pipeline} {s : St} (h : Inv pl s) :
    ∀ q ∈ s.nalQueue, q.image = s.last ∧ (s.units s.last)[q.place]? = some q.bytes := by
  intro q hq
  obtain ⟨place, hlt, hplace⟩ := List.getElem_of_mem (h.queue.subset hq)
  have hunits : place < (s.units s.last).length := by simpa [St.tagged] using hlt
  simp only [St.tagged, List.getElem_mapIdx] at hplace
  subst hplace
  exact ⟨rfl, List.getElem?_eq_getElem hunits⟩

theorem Inv.complete {pl : Pipeline} {s : St} (h : Inv pl s) {f : Frame} (hf : f ∈ s.delivered)
    (hlast : f.place + 1 = (s.units f.image).length) :
    ∀ place < (s.units f.image).length, ∃ g ∈ s.delivered, g.image = f.image ∧ g.place = place := by
  intro place hlt
  rcases Nat.lt_or_eq_of_le (by omega : place ≤ f.place) with hlt | rfl
  · exact (h.good f hf).earlier place hlt
  · exact ⟨f, hf, rfl, rfl⟩

/-- **Every run conserves buffers and units.** -/
theorem conserves {pl : Pipeline} {c : Config} (h : Reachable pl c) : Conserves pl c := by
  have hinv : Inv pl c.st := h.ok.1
  constructor
  · exact (sound pl).no_fault h.ok
  · exact hinv.few
  · intro hu
    have hrest : AtRest pl c.st := h.ok.2.atUser hu
    exact hrest.balanced
  · exact hinv.oneImage
  · intro f hf
    exact (hinv.good f hf).nal
  · exact hinv.order
  · intro f hf g hg hsame
    rw [(hinv.good f hf).time, (hinv.good g hg).time, hsame]
  · intro f hf
    exact (hinv.good f hf).duration
  · intro f hf
    exact hinv.complete hf

/-- Two buffers, no conversion. -/
def twoBuffers : Pipeline where
  buffers := [150, 150]
  width := 10
  height := 10
  pixelformat := 0
  vencW := 10
  vencH := 10
  fps := 15

/-- An image of two units was encoded, and `afterGetting` runs for the first. -/
def firstUnit : Config :=
  enter (sys twoBuffers) (guard twoBuffers) .readable
    { filled := some 1, now := ⟨3, 4⟩, encSize := 10, annexB := [0, 0, 1, 5, 0, 0, 0, 1, 6, 7], fMaxSize := 100 } 40
    (enter (sys twoBuffers) (guard twoBuffers) .doGetNextFrame {} 20 ⟨St.init, []⟩)

theorem conserves_firstUnit :
    firstUnit.st.delivered.map Frame.data = [[5]] ∧ firstUnit.st.nalQueue.map QueuedNal.bytes = [[6, 7]] ∧
      firstUnit.st.dequeued 0 = [1, 1] ∧ Conserves twoBuffers firstUnit := by
  refine ⟨by decide, by decide, by decide, conserves ?_⟩
  exact .enter (.enter (.refl _) _ _ _) _ _ _

end AlgaeBp.Rtsp
