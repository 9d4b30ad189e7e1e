import AlgaeBp.Evb2.Tame
/-!
# Watching the loop

An observer follows `aloe_evb2_run_once` by the operations it performs: in which
state `epoll_wait` returned and with which events, what the clock said then,
which handles were collected, and whose callbacks were called. `passes` is what
the calls promise about it.
-/
open Reentrant

namespace AlgaeBp.Evb2

/-- How far a pass of the loop has come. -/
inductive Phase where
  | idle
  /-- `epoll_wait` returned these events in this state. -/
  | waited (w : St) (evs : List (Int × UInt32))
  /-- The clock was read and handles are being collected. -/
  | collecting (w : St) (evs : List (Int × UInt32)) (now : UInt64)
  /-- `batch` was collected, and `done` of it taken up. -/
  | dispatching (w : St) (evs : List (Int × UInt32)) (now : UInt64) (batch done : List Ptr)

namespace Phase

def sample (t : UInt64) : Phase → Phase
  | waited w evs => collecting w evs t
  | p => p

def take (ready : List Ptr) (h : Option Ptr) : Phase → Phase
  | collecting w evs now => dispatching w evs now ready h.toList
  | dispatching w evs now batch done => dispatching w evs now batch (done ++ h.toList)
  | p => p

/-- User code may run. -/
def Open : Phase → Prop
  | idle | dispatching _ _ _ _ _ => True
  | _ => False

end Phase

/-- What the observer knows of the pass in progress, or of the last one. -/
structure Pass where
  /-- The last time read from the clock. -/
  clock : UInt64
  phase : Phase
  /-- The users' handles that were dispatched, with what they were told. -/
  calls : List (Ptr × UInt32)
  /-- The handles that were told `ALOE_EVB2_FLAG_CANCELLED`. -/
  cancels : List Ptr

def Pass.see (o : Op) (_ : Env) (r : o.Out) (s : St) (g : Pass) : Pass :=
  match o, r with
  | .setInRun true, _ => { g with phase := .idle, calls := [], cancels := [] }
  | .now, t => { g with clock := t, phase := g.phase.sample t }
  | .epollWait _, .events evs => { g with phase := .waited s evs }
  | .pop .ready, h => { g with phase := g.phase.take (s.lists .ready) h }
  | .emit (.dispatch h _ noti _ _ _), _ => { g with calls := g.calls ++ [(h, noti)] }
  | .emit (.cancelled h _ _), _ => { g with cancels := g.cancels ++ [h] }
  | _, _ => g

abbrev Watched := St × Pass

def watch : System Op Op.Out Watched Env Call Ret Other := sys.watched Pass.see

/-- A new context, watched. -/
def Watched.init (b : Boot) : Cfg Op Op.Out Watched Call Ret := ⟨(St.init b, ⟨0, .idle, [], []⟩), []⟩

/-! ## What the observer can tell -/

/-- What a handle may be told that was registered in `w`: the flags of an event on
its descriptor, or that its time is up. -/
def Raised (w : St) (evs : List (Int × UInt32)) (now : UInt64) (h : Ptr) (noti : UInt32) : Prop :=
  ∃ hd, w.heap h = some hd ∧
    ((h ∈ w.lists .fdmon ∧ ∃ e, (hd.fd, e) ∈ evs ∧ noti = eventFlags hd e now ∧ noti ≠ 0) ∨
      (h ∈ w.lists .timer ∧ noti = flagTimeout ∧ hd.timeoutAt ≤ now))

/-- Handles are as they were in `w`, but those on `ready_list` were told something. -/
structure Gathered (w : St) (told : Ptr → UInt32 → Prop) (s : St) : Prop where
  fdmon : ∀ h ∈ s.lists .fdmon, h ∈ w.lists .fdmon ∧ s.heap h = w.heap h
  timer : ∀ h ∈ s.lists .timer, h ∈ w.lists .timer ∧ s.heap h = w.heap h
  ready : ∀ h ∈ s.lists .ready, ∃ noti, s.heap h = (w.heap h).map (fun hd => { hd with noti := noti }) ∧ told h noti

/-- What is left of the batch, and what the callbacks were told. -/
structure BatchOk (w : St) (evs : List (Int × UInt32)) (now : UInt64) (batch done : List Ptr)
    (calls : List (Ptr × UInt32)) (s : St) : Prop where
  nodup : batch.Nodup
  rest : (done ++ s.lists .ready).Sublist batch
  linked : ∀ h ∈ batch, h ∈ w.lists .fdmon ∨ h ∈ w.lists .timer
  ready : ∀ h ∈ s.lists .ready, ∃ noti, (s.heap h).map Handle.noti = some noti ∧ Raised w evs now h noti
  called : (calls.map Prod.fst).Sublist done
  raised : ∀ c ∈ calls, Raised w evs now c.1 c.2

/-- The state is as the observer has seen it come about. -/
def Follows (s : St) (g : Pass) : Prop :=
  match g.phase with
  | .idle => g.calls = []
  | .waited w _ => Gathered w (fun _ _ => False) s ∧ g.calls = []
  | .collecting w evs now => Gathered w (Raised w evs now) s ∧ g.calls = []
  | .dispatching w evs now batch done => BatchOk w evs now batch done g.calls s

/-- No handle is left whose time was up when the clock was read. -/
def Spent (s : St) (g : Pass) : Prop :=
  ∀ w evs now, g.phase = .collecting w evs now → ∀ h ∈ s.lists .timer, now < s.deadline h

/-- What a pass of the loop returns. -/
def Pass.Returns (g : Pass) (n : Int) : Prop :=
  match g.phase with
  | .idle => n = 0 ∨ n = -1
  | .dispatching _ _ _ _ _ => n = g.calls.length
  | _ => False

/-- What holds when a call is about to perform an operation. Only `aloe_evb2_set_timeout`
works on a list that may be out of order. -/
def Due (b : Call) (o : Op) (x : Watched) : Prop :=
  ((∀ h ms, b ≠ .setTimeout h ms) → x.1.Sorted) ∧
  match o with
  | .epollWait t => ∃ ms, b = .runOnce ms ∧
      t = waitTimeout ((x.1.lists .timer).head?.map x.1.deadline) x.2.clock ms
  | .pop .ready => Spent x.1 x.2
  | .emit (.cancelled h _ _) => x.1.stopping = true ∨ x.1.deadline h = uint64Max
  | _ => True

def passes (m : Mode) : Contract Op Watched Call Ret where
  point x := Point m x.1 ∧ Follows x.1 x.2
  before := Due
  atUser x := x.1.Sorted ∧ x.2.phase.Open ∧ Follows x.1 x.2
  keeps x x' := x.1.inRun = true → Tame x.1 x'.1 ∧ x'.2.phase = x.2.phase ∧ x'.2.calls = x.2.calls
  rely x x' := Meanwhile m x.1 x'.1 ∧ x'.2 = x.2
  post b r x := x.1.Sorted ∧ ∀ ms n, b = .runOnce ms → r = .int n → x.1.inRun = false → x.2.Returns n

/-- The steps of a run of which the invariants of the event loop are known. -/
noncomputable def watchGuard (m : Mode) : Guard Op Watched Env Call Other :=
  ((guard m).watched Pass).assuming watch (fun x => Point m x.1) (fun x => AtUser m x.1)

abbrev Wq (m : Mode) (b : Call) {α : Type} (p : Code α) (Q : α → Watched → Prop) (x : Watched) : Prop :=
  wp watch (watchGuard m) ((passes m).logic b) b p Q x

section Rules
variable {m : Mode} {b : Call} {x x' : Watched} {s s' : St} {g g' : Pass}

theorem watchGuard_calls (h : (watchGuard m).calls b x = true) : (guard m).calls b x.1 = true ∧ AtUser m x.1 := by
  simpa [watchGuard, Guard.assuming, Guard.watched] using h

theorem watchGuard_resumes (h : (watchGuard m).resumes x = true) : AtUser m x.1 := by
  have h' : (guard m).resumes x.1 = true ∧ AtUser m x.1 := by
    simpa [watchGuard, Guard.assuming, Guard.watched] using h
  exact h'.2

theorem watchGuard_others {l : Other} (h : (watchGuard m).others l x = true) :
    (guard m).others l x.1 = true ∧ Point m x.1 := by
  simpa [watchGuard, Guard.assuming, Guard.watched] using h

theorem watchGuard_may {o : Op} {e : Env} (h : (watchGuard m).may b o e x = true) :
    Point m x.1 ∧ o.exec e x.1 ≠ .fault ∧ ∀ r s', o.exec e x.1 = .ok (r, s') → Point m s' := by
  have h' : (guard m).may b o e x.1 = true ∧ Point m x.1 ∧ watch.exec o e x ≠ .fault ∧
      ∀ r (y : Watched), watch.exec o e x = .ok (r, y) → Point m y.1 := by
    simpa [watchGuard, Guard.assuming, Guard.watched] using h
  obtain ⟨-, hp, hf, hk⟩ := h'
  exact ⟨hp, fun he => hf (System.watched_fault he), fun r s' he => hk r (s', x.2.see o e r x.1) (System.watched_ok he)⟩

/-- One operation. -/
theorem wq_op {o : Op} {Q : o.Out → Watched → Prop} (h : ∀ s, (o.yields = true → Meanwhile m x.1 s) →
    (o.yields = false → s = x.1) → Due b o (s, x.2) ∧ ∀ e r s', Point m s → Point m s' →
      o.exec e s = .ok (r, s') → Follows s' (x.2.see o e r s) ∧ Q r (s', x.2.see o e r s)) :
    Wq m b (Prog.act o) Q x := by
  rintro ⟨s, g⟩ hy hn
  obtain rfl : g = x.2 := by
    cases ho : o.yields with
    | true => exact (hy ho).2
    | false => exact congrArg Prod.snd (hn ho)
  obtain ⟨hb, hx⟩ := h s (fun ho => (hy ho).1) (fun ho => congrArg Prod.fst (hn ho))
  refine ⟨hb, fun e hm => ?_⟩
  obtain ⟨hp, hf, hk⟩ := watchGuard_may hm
  cases hxe : o.exec e s with
  | ok a =>
    obtain ⟨r, s'⟩ := a
    have hp' : Point m s' := hk r s' hxe
    obtain ⟨hfol, hq⟩ := hx e r s' hp hp' hxe
    rw [show watch.exec o e (s, x.2) = .ok (r, s', x.2.see o e r s) from System.watched_ok hxe]
    exact ⟨⟨hp', hfol⟩, hq⟩
  | block =>
    rw [show watch.exec o e (s, x.2) = .block from System.watched_block hxe]
    trivial
  | fault => exact absurd hxe hf

/-- An operation that other threads do not come in between of. -/
theorem wq_exec {o : Op} {Q : o.Out → Watched → Prop} (hy : o.yields = false) (hd : Due b o x)
    (hq : ∀ e r s', Point m s' → o.exec e x.1 = .ok (r, s') →
      Follows s' (x.2.see o e r x.1) ∧ Q r (s', x.2.see o e r x.1)) : Wq m b (Prog.act o) Q x := by
  refine wq_op fun s _ hn => ?_
  obtain rfl := hn hy
  exact ⟨hd, fun e r s' _ hp hx => hq e r s' hp hx⟩

/-- Tame work goes unnoticed. -/
theorem Follows.tame (h : Follows s g) (ho : g.phase.Open) (ht : Tame s s') (hp : g'.phase = g.phase)
    (hc : g'.calls = g.calls) : Follows s' g' := by
  unfold Follows at h ⊢
  rw [hp, hc]
  split at h
  · exact h
  · rename_i hph
    rw [hph] at ho
    exact ho.elim
  · rename_i hph
    rw [hph] at ho
    exact ho.elim
  · refine ⟨h.nodup, (ht.ready.append_left _).trans h.rest, h.linked, fun k hk => ?_, h.called, h.raised⟩
    rw [ht.noti k hk]
    exact h.ready k (ht.ready.subset hk)

/-- What is noted concerns the handles on the lists only. -/
theorem Follows.of_lists (h : Follows s g) (hl : ∀ l, l ≠ .async → s'.lists l = s.lists l)
    (hh : ∀ l k, k ∈ s.lists l → s'.heap k = s.heap k) : Follows s' g := by
  have hg : ∀ {w : St} {told : Ptr → UInt32 → Prop}, Gathered w told s → Gathered w told s' := fun hg => by
    refine ⟨fun k hk => ?_, fun k hk => ?_, fun k hk => ?_⟩
    · rw [hl _ (by simp)] at hk
      rw [hh _ k hk]
      exact hg.fdmon k hk
    · rw [hl _ (by simp)] at hk
      rw [hh _ k hk]
      exact hg.timer k hk
    · rw [hl _ (by simp)] at hk
      rw [hh _ k hk]
      exact hg.ready k hk
  unfold Follows at h ⊢
  split at h
  · exact h
  · exact ⟨hg h.1, h.2⟩
  · exact ⟨hg h.1, h.2⟩
  · refine ⟨h.nodup, ?_, h.linked, fun k hk => ?_, h.called, h.raised⟩
    · rw [hl _ (by simp)]
      exact h.rest
    · rw [hl _ (by simp)] at hk
      rw [hh _ k hk]
      exact h.ready k hk

theorem Follows.meanwhile (h : Follows s g) (hp : Point m s) (hi : Meanwhile m s s') : Follows s' g :=
  h.of_lists hi.lists fun _ _ hk => hi.heap hp hk

end Rules

end AlgaeBp.Evb2
