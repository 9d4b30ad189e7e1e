import AlgaeBp.Rtsp.Code
/-!
# What every operation of the capture source keeps

`Inv` holds after every operation: the queue is the rest of the units of the
last image, and what was delivered are its units before, and the units of
earlier images, in order. Between calls and callbacks `AtRest` adds that no unit
was left out between these two and that every handler has given back its
buffers.
-/
open Reentrant

namespace AlgaeBp.Rtsp

/-! ## Units and frames -/

/-- The units of the last image, as they are queued. -/
def St.tagged (s : St) : List QueuedNal :=
  (s.units s.last).mapIdx fun place bytes => { bytes, image := s.last, place }

/-- Of an earlier image, or at an earlier place in the same. -/
def Frame.Before (f g : Frame) : Prop := f.image < g.image ∨ f.image = g.image ∧ f.place < g.place

/-- The frame is a unit of its image, has its time, and the duration is charged on the last unit. -/
structure Frame.Good (pl : Pipeline) (s : St) (f : Frame) : Prop where
  image_lt : f.image < s.encoded
  nal : ∃ nal, (s.units f.image)[f.place]? = some nal ∧ f.data = nal.take f.fFrameSize.toNat
  time : f.fPresentationTime = s.stamp f.image
  duration : f.fDurationInMicroseconds = if f.place + 1 = (s.units f.image).length then pl.frameDurationUs else 0
  /-- All units before it were delivered. -/
  earlier : ∀ place < f.place, ∃ g ∈ s.delivered, g.image = f.image ∧ g.place = place

structure Inv (pl : Pipeline) (s : St) : Prop where
  few : ∀ k, (s.dequeued k).length ≤ pl.buffers.length
  fresh : ∀ k, s.calls ≤ k → s.dequeued k = [] ∧ s.enqueued k = []
  idle : s.background = true → s.nalQueue = []
  blank : s.encoded = 0 → s.nalQueue = []
  queue : s.nalQueue <:+ s.tagged
  stamped : s.nalQueue ≠ [] → s.fFramePresentTime = s.stamp s.last
  order : s.delivered.Pairwise Frame.Before
  good : ∀ f ∈ s.delivered, f.Good pl s
  sent : ∀ f ∈ s.delivered, f.image = s.last → f.place < s.sent
  covered : ∀ place < s.sent, ∃ f ∈ s.delivered, f.image = s.last ∧ f.place = place

/-- Every buffer that was dequeued was enqueued. -/
def Balanced (s : St) : Prop := ∀ k, (s.enqueued k).Perm (s.dequeued k)

/-- The queue goes on where delivery has stopped. -/
def Settled (s : St) : Prop := s.nalQueue = [] ∨ s.nalQueue = s.tagged.drop s.sent

structure AtRest (pl : Pipeline) (s : St) : Prop extends Inv pl s where
  settled : Settled s
  balanced : Balanced s

/-- A call of the handler has dequeued `held` and not yet enqueued it. -/
structure Owes (s : St) (call : Nat) (held : List Nat) : Prop where
  made : call < s.calls
  own : (s.dequeued call).Perm (held ++ s.enqueued call)
  others : ∀ k ≠ call, (s.enqueued k).Perm (s.dequeued k)

/-- The units of the image that was just encoded are being queued. -/
structure Filling (pl : Pipeline) (s : St) : Prop extends Inv pl s where
  begun : 0 < s.encoded
  off : s.background = false
  none_sent : s.sent = 0
  all : s.nalQueue = s.tagged
  now : s.fFramePresentTime = s.stamp s.last

theorem Owes.balanced {s : St} {call : Nat} (h : Owes s call []) : Balanced s := by
  intro k
  by_cases hk : k = call
  · subst hk
    exact h.own.symm
  · exact h.others k hk

theorem Filling.settled {pl : Pipeline} {s : St} (h : Filling pl s) : Settled s := by
  right
  rw [h.none_sent, List.drop_zero, h.all]

section
variable {pl : Pipeline} {s : St} {call i : Nat} {held : List Nat}

theorem init_atRest (pl : Pipeline) : AtRest pl St.init where
  few _ := Nat.zero_le _
  fresh _ _ := ⟨rfl, rfl⟩
  idle _ := rfl
  blank _ := rfl
  queue := List.suffix_rfl
  stamped h := absurd rfl h
  order := List.Pairwise.nil
  good _ hf := nomatch hf
  sent _ hf := nomatch hf
  covered _ hlt := absurd hlt (Nat.not_lt_zero _)
  settled := .inl rfl
  balanced _ := .refl _

/-! ## Buffers -/

theorem Inv.begin (h : Inv pl s) : Inv pl s.begin :=
  { h with
    fresh := fun k hk => h.fresh k (Nat.le_of_succ_le hk)
    good := fun f hf => { h.good f hf with } }

theorem Balanced.begin (hb : Balanced s) (h : Inv pl s) : Owes s.begin s.calls [] where
  made := Nat.lt_succ_self _
  own := by
    obtain ⟨hd, he⟩ := h.fresh s.calls le_rfl
    show (s.dequeued s.calls).Perm ([] ++ s.enqueued s.calls)
    rw [hd, he]
    exact .refl _
  others k _ := hb k

theorem Inv.dequeue (h : Inv pl s) (hmade : call < s.calls) (hroom : (s.dequeued call).length < pl.buffers.length) :
    Inv pl (s.dequeue call i) :=
  { h with
    few := by
      intro k
      by_cases hk : k = call
      · subst hk
        simp only [St.dequeue, Function.update_self, List.length_cons]
        exact hroom
      · simp only [St.dequeue, Function.update_of_ne hk]
        exact h.few k
    fresh := by
      intro k hk
      have hne : k ≠ call := Nat.ne_of_gt (Nat.lt_of_lt_of_le hmade hk)
      simp only [St.dequeue, Function.update_of_ne hne]
      exact h.fresh k hk
    good := fun f hf => { h.good f hf with } }

theorem Owes.dequeue (h : Owes s call held) (i : Nat) : Owes (s.dequeue call i) call (i :: held) where
  made := h.made
  own := by
    simp only [St.dequeue, Function.update_self]
    exact h.own.cons i
  others k hk := by
    simp only [St.dequeue, Function.update_of_ne hk]
    exact h.others k hk

theorem Inv.enqueue (h : Inv pl s) (hmade : call < s.calls) : Inv pl (s.enqueue call i) :=
  { h with
    fresh := by
      intro k hk
      have hne : k ≠ call := Nat.ne_of_gt (Nat.lt_of_lt_of_le hmade hk)
      simp only [St.enqueue, Function.update_of_ne hne]
      exact h.fresh k hk
    good := fun f hf => { h.good f hf with } }

theorem Owes.enqueue (h : Owes s call (i :: held)) : Owes (s.enqueue call i) call held where
  made := h.made
  own := by
    simp only [St.enqueue, Function.update_self]
    exact h.own.trans List.perm_middle.symm
  others k hk := by
    simp only [St.enqueue, Function.update_of_ne hk]
    exact h.others k hk

theorem Owes.perm {held' : List Nat} (h : Owes s call held) (hp : held.Perm held') : Owes s call held' :=
  { h with own := h.own.trans (hp.append_right _) }

/-! ## Reading -/

theorem Inv.turnOn (h : Inv pl s) (hq : s.nalQueue = []) : Inv pl { s with background := true } :=
  { h with idle := fun _ => hq, good := fun f hf => { h.good f hf with } }

theorem Inv.turnOff (h : Inv pl s) : Inv pl { s with background := false } :=
  { h with idle := fun hon => (nomatch hon), good := fun f hf => { h.good f hf with } }

theorem Inv.setHaveStartedReading (h : Inv pl s) (v : Bool) : Inv pl { s with fHaveStartedReading := v } :=
  { h with good := fun f hf => { h.good f hf with } }

theorem Inv.gettimeofday (h : Inv pl s) (hq : s.nalQueue = []) (now : Timeval) :
    Inv pl { s with fFramePresentTime := now } :=
  { h with stamped := fun hne => absurd hq hne, good := fun f hf => { h.good f hf with } }

theorem Inv.clear (h : Inv pl s) : Inv pl { s with nalQueue := [] } :=
  { h with
    idle := fun _ => rfl
    blank := fun _ => rfl
    queue := List.nil_suffix
    stamped := fun hne => absurd rfl hne
    good := fun f hf => { h.good f hf with } }

/-! ## Images -/

/-- A new image has no units yet, and nothing of it was delivered. -/
theorem Inv.encode (h : Inv pl s) (hq : s.nalQueue = []) : Inv pl s.encode where
  few := h.few
  fresh := h.fresh
  idle := h.idle
  blank h0 := absurd h0 (Nat.succ_ne_zero _)
  queue := by
    show s.nalQueue <:+ _
    rw [hq]
    exact List.nil_suffix
  stamped hne := absurd hq hne
  order := h.order
  good f hf := by
    have hgood := h.good f hf
    have hne : f.image ≠ s.encoded := Nat.ne_of_lt hgood.image_lt
    constructor
    · exact Nat.lt_succ_of_lt hgood.image_lt
    · simp only [St.encode, Function.update_of_ne hne]
      exact hgood.nal
    · simp only [St.encode, Function.update_of_ne hne]
      exact hgood.time
    · simp only [St.encode, Function.update_of_ne hne]
      exact hgood.duration
    · exact hgood.earlier
  sent f hf hlast := absurd hlast (Nat.ne_of_lt (h.good f hf).image_lt)
  covered _ hlt := absurd hlt (Nat.not_lt_zero _)

theorem Inv.encode_filling (h : Inv pl s) (hq : s.nalQueue = []) (hoff : s.background = false) : Filling pl s.encode where
  toInv := h.encode hq
  begun := Nat.succ_pos _
  off := hoff
  none_sent := rfl
  all := by
    show s.nalQueue = s.encode.tagged
    simp only [St.tagged, St.encode, St.last, Nat.add_sub_cancel, Function.update_self, List.mapIdx_nil, hq]
  now := by simp only [St.encode, St.last, Nat.add_sub_cancel, Function.update_self]

theorem tagged_pushBack (s : St) (nal : List UInt8) :
    (s.pushBack nal).tagged = s.tagged ++ [{ bytes := nal, image := s.last, place := (s.units s.last).length }] := by
  simp only [St.tagged, St.pushBack, St.last, Function.update_self, List.mapIdx_concat]

/-- While nothing of the last image was delivered, units can be added to it. -/
theorem Filling.pushBack (h : Filling pl s) (nal : List UInt8) : Filling pl (s.pushBack nal) where
  few := h.few
  fresh := h.fresh
  idle hon := by
    have hoff := h.off
    exact absurd hon (by rw [St.pushBack, hoff]; exact Bool.false_ne_true)
  blank h0 := absurd h0 h.begun.ne'
  queue := by
    rw [tagged_pushBack, ← h.all]
    exact List.suffix_rfl
  stamped _ := h.now
  order := h.order
  good f hf := by
    have hgood := h.good f hf
    have hne : f.image ≠ s.last := by
      intro hlast
      have hlt := h.sent f hf hlast
      rw [h.none_sent] at hlt
      exact Nat.not_lt_zero _ hlt
    constructor
    · exact hgood.image_lt
    · simp only [St.pushBack, Function.update_of_ne hne]
      exact hgood.nal
    · exact hgood.time
    · simp only [St.pushBack, Function.update_of_ne hne]
      exact hgood.duration
    · exact hgood.earlier
  sent := h.sent
  covered := h.covered
  begun := h.begun
  off := h.off
  none_sent := h.none_sent
  all := by rw [tagged_pushBack, ← h.all]; rfl
  now := h.now

/-! ## Delivery -/

/-- The first unit in the queue is the next one of the last image. -/
theorem AtRest.head (h : AtRest pl s) {nal : QueuedNal} {rest : List QueuedNal} (hq : s.nalQueue = nal :: rest) :
    (s.units s.last)[s.sent]? = some nal.bytes ∧ nal.image = s.last ∧ nal.place = s.sent ∧
    rest = s.tagged.drop (s.sent + 1) := by
  rcases h.settled with hnil | hdrop
  · rw [hnil] at hq
    cases hq
  · rw [hq] at hdrop
    have hhead : s.tagged[s.sent]? = some nal := by
      rw [← List.head?_drop, ← hdrop]
      rfl
    simp only [St.tagged, List.getElem?_mapIdx, Option.map_eq_some_iff] at hhead
    obtain ⟨bytes, hbytes, rfl⟩ := hhead
    exact ⟨hbytes, rfl, rfl, by rw [← List.tail_drop, ← hdrop]; rfl⟩

/-- The queue is empty behind the last unit of the image, and only there. -/
theorem tagged_drop_isEmpty {bytes : List UInt8} (h : (s.units s.last)[s.sent]? = some bytes) :
    (s.tagged.drop (s.sent + 1)).isEmpty = decide (s.sent + 1 = (s.units s.last).length) := by
  have hlt := (List.getElem?_eq_some_iff.1 h).1
  rw [Bool.eq_iff_iff, List.isEmpty_iff, List.drop_eq_nil_iff, St.tagged, List.length_mapIdx, decide_eq_true_eq]
  omega

theorem Inv.popFront (h : Inv pl s) {nal : QueuedNal} {rest : List QueuedNal} (hq : s.nalQueue = nal :: rest) :
    Inv pl { s with nalQueue := rest } :=
  { h with
    idle := by
      intro hon
      have hnil := h.idle hon
      rw [hq] at hnil
      cases hnil
    blank := by
      intro h0
      have hnil := h.blank h0
      rw [hq] at hnil
      cases hnil
    queue := by
      have hsuffix := h.queue
      rw [hq] at hsuffix
      exact (List.suffix_cons nal rest).trans hsuffix
    stamped := fun _ => h.stamped (by rw [hq]; exact List.cons_ne_nil _ _)
    good := fun f hf => { h.good f hf with } }

/-- The next unit of the last image comes after all that were delivered. -/
theorem Inv.before_next (h : Inv pl s) {f g : Frame} (hf : f ∈ s.delivered) (himage : g.image = s.last)
    (hplace : g.place = s.sent) : f.Before g := by
  have hlt := (h.good f hf).image_lt
  by_cases hlast : f.image = s.last
  · right
    rw [himage, hplace]
    exact ⟨hlast, h.sent f hf hlast⟩
  · left
    rw [himage]
    unfold St.last at hlast ⊢
    omega

/-- It is delivered with its time, and after all units before it. -/
theorem Inv.good_next (h : Inv pl s) {nal : QueuedNal} (hunit : (s.units s.last)[s.sent]? = some nal.bytes)
    (himage : nal.image = s.last) (hplace : nal.place = s.sent) (hbegun : 0 < s.encoded)
    (htime : s.fFramePresentTime = s.stamp s.last) (size truncated : UInt32) {duration : UInt32}
    (hduration : duration = if s.sent + 1 = (s.units s.last).length then pl.frameDurationUs else 0) :
    Frame.Good pl (s.setFrame nal size truncated duration)
      { image := nal.image, place := nal.place, data := nal.bytes.take size.toNat, fFrameSize := size,
        fNumTruncatedBytes := truncated, fPresentationTime := s.fFramePresentTime,
        fDurationInMicroseconds := duration } where
  image_lt := by
    show nal.image < s.encoded
    rw [himage, St.last]
    omega
  nal := by
    refine ⟨nal.bytes, ?_, rfl⟩
    show (s.units nal.image)[nal.place]? = _
    rw [himage, hplace, hunit]
  time := by
    show s.fFramePresentTime = s.stamp nal.image
    rw [himage, htime]
  duration := by
    show duration = if nal.place + 1 = (s.units nal.image).length then _ else _
    rw [himage, hplace, hduration]
  earlier := by
    intro place hlt
    have hlt : place < nal.place := hlt
    rw [hplace] at hlt
    obtain ⟨g, hg, hsame⟩ := h.covered place hlt
    exact ⟨g, List.mem_append_left _ hg, hsame.1.trans himage.symm, hsame.2⟩

/-- The next unit of the last image is delivered. -/
theorem Inv.setFrame (h : Inv pl s) {nal : QueuedNal} (hunit : (s.units s.last)[s.sent]? = some nal.bytes)
    (himage : nal.image = s.last) (hplace : nal.place = s.sent) (hbegun : 0 < s.encoded)
    (htime : s.fFramePresentTime = s.stamp s.last) (size truncated : UInt32) {duration : UInt32}
    (hduration : duration = if s.sent + 1 = (s.units s.last).length then pl.frameDurationUs else 0) :
    Inv pl (s.setFrame nal size truncated duration) where
  few := h.few
  fresh := h.fresh
  idle := h.idle
  blank := h.blank
  queue := h.queue
  stamped := h.stamped
  order := by
    refine List.pairwise_append.2 ⟨h.order, List.pairwise_singleton _ _, ?_⟩
    intro f hf g hg
    obtain rfl := List.mem_singleton.1 hg
    exact h.before_next hf himage hplace
  good f hf := by
    rcases List.mem_append.1 hf with hf | hf
    · have hgood := h.good f hf
      refine { hgood with earlier := ?_ }
      intro place hlt
      obtain ⟨g, hg, hsame⟩ := hgood.earlier place hlt
      exact ⟨g, List.mem_append_left _ hg, hsame⟩
    · obtain rfl := List.mem_singleton.1 hf
      exact h.good_next hunit himage hplace hbegun htime size truncated hduration
  sent f hf hlast := by
    show f.place < s.sent + 1
    rcases List.mem_append.1 hf with hf | hf
    · exact Nat.lt_succ_of_lt (h.sent f hf hlast)
    · obtain rfl := List.mem_singleton.1 hf
      exact Nat.lt_succ_of_le hplace.le
  covered place hlt := by
    rcases Nat.lt_succ_iff_lt_or_eq.1 hlt with hlt | rfl
    · obtain ⟨f, hf, hsame⟩ := h.covered place hlt
      exact ⟨f, List.mem_append_left _ hf, hsame⟩
    · exact ⟨_, List.mem_append_right _ (List.mem_singleton.2 rfl), himage, hplace⟩

end

end AlgaeBp.Rtsp
