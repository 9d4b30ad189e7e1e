import AlgaeBp.Streamcap.Code
import AlgaeBp.Lib.Runs
/-!
# Starting again

`v4l2_start` keeps the encoder and its file for the next call and takes a pointer
that is not null for a resource that is ready. `restartable_iff` says for which
runs that is true: nothing half made may be left when a start goes through, and
a start may not fail with buffers in the driver's queue.
-/

namespace AlgaeBp.Streamcap

open Runs

variable {s : V4l2} {env : StartEnv} {enc : Encoder}

/-! ## What a run is to keep -/

/-- All that `V4L2_STATE_START` stands for. -/
structure Capturing (s : V4l2) : Prop where
  encoder : ∃ enc fp, s.encoder = some enc ∧ enc.initialised = true ∧ s.x264Fp = some fp ∧ enc.headers <+: fp
  streaming : s.driver.streaming = true
  event : ∃ handle, s.ev = some handle ∧ handle ∈ s.watched

/-- Each `fwrite` of `writeHeaders` can write all it is to write. -/
def Fits (room : Nat → Nat) (enc : Encoder) : Prop :=
  startCode4.length ≤ room 0 ∧ enc.sps.length ≤ room 1 ∧ startCode4.length ≤ room 2 ∧ enc.pps.length ≤ room 3

/-- The encoder a start goes on with. -/
def encoderInUse (s : V4l2) (env : StartEnv) : Option Encoder :=
  match s.encoder with
  | some enc => some enc
  | none =>
    let enc := (newEncoder s.fmt.width s.fmt.height 30 2000).init env.init
    if env.alloc && enc.2 then some enc.1 else none

/-- The start has an encoder and a file, kept or new, as far as its own steps go. -/
def ReachesQueue (s : V4l2) (env : StartEnv) : Prop :=
  ∃ enc, encoderInUse s env = some enc ∧ (s.x264Fp = none → env.fopen = true ∧ Fits env.room enc)

/-- The steps of the driver and the event loop. -/
def CaptureSucceeds (s : V4l2) (env : StartEnv) : Prop :=
  (∀ i < s.memCnt, env.qbuf i = true) ∧ env.streamon = true ∧ env.addFd.isSome

/-- **Restartable.** In `V4L2_STATE_START` capturing is under way; a failed start leaves an open device open, no event and
no queued buffer, and a start whose steps all succeed does not fail. -/
def Restartable (s : V4l2) (c : Call) : Prop :=
  ∀ t r, call s c = some (t, r) →
    (t.state = .stateStart → Capturing t) ∧
    ∀ env, c = .callStart env →
      (r = -1 → (s.state ≠ .stateReset → t.state = .stateOpen) ∧ t.watched = [] ∧ t.driver.queued = []) ∧
      (s.state ≠ .stateReset → ReachesQueue s env → CaptureSucceeds s env → r = 0)

/-! ## The encoder and its file -/

theorem fwrites_spec (parts : List (List UInt8 × Nat)) (fp : List UInt8) :
    ((fwrites parts fp).2 = true ↔ ∀ p ∈ parts, p.1.length ≤ p.2) ∧
    ((fwrites parts fp).2 = true → (fwrites parts fp).1 = fp ++ parts.flatMap Prod.fst) ∧
    ((fwrites parts fp).2 = false → (fwrites parts fp).1.length < fp.length + (parts.flatMap Prod.fst).length) := by
  induction parts generalizing fp with
  | nil => simp [fwrites]
  | cons p rest ih =>
    obtain ⟨data, room⟩ := p
    rw [fwrites]
    by_cases hroom : room < data.length
    · rw [if_pos hroom]
      refine ⟨iff_of_false Bool.false_ne_true (fun h => ?_), (fun h => absurd h Bool.false_ne_true), (fun _ => ?_)⟩
      · have hle : data.length ≤ room := h _ List.mem_cons_self
        omega
      · simp only [List.length_append, List.length_take, List.flatMap_cons]
        omega
    · rw [if_neg hroom]
      obtain ⟨hiff, hall, hshort⟩ := ih (fp ++ data)
      refine ⟨?_, fun h => ?_, fun h => ?_⟩
      · rw [hiff]
        simp only [List.forall_mem_cons]
        exact ⟨fun h => ⟨by omega, h⟩, And.right⟩
      · rw [hall h, List.flatMap_cons, List.append_assoc]
      · have hlt := hshort h
        simp only [List.length_append, List.flatMap_cons] at hlt ⊢
        omega

theorem writeHeaders_spec (enc : Encoder) (room : Nat → Nat) :
    ((writeHeaders enc room []).2 = true ↔ Fits room enc) ∧
    ((writeHeaders enc room []).2 = true → (writeHeaders enc room []).1 = enc.headers) ∧
    ((writeHeaders enc room []).2 = false → (writeHeaders enc room []).1.length < enc.headers.length) := by
  obtain ⟨hiff, hall, hshort⟩ :=
    fwrites_spec [(startCode4, room 0), (enc.sps, room 1), (startCode4, room 2), (enc.pps, room 3)] []
  have hheaders : [(startCode4, room 0), (enc.sps, room 1), (startCode4, room 2), (enc.pps, room 3)].flatMap Prod.fst =
      enc.headers := by simp [Encoder.headers]
  rw [hheaders] at hall hshort
  rw [List.length_nil, Nat.zero_add] at hshort
  exact ⟨hiff.trans (by simp [Fits]), hall, hshort⟩

/-- The file begins with the headers, or it is too short for them. -/
def FileOk (enc : Encoder) (fp : List UInt8) : Prop := enc.headers <+: fp ∨ fp.length < enc.headers.length

theorem FileOk.iff {fp : List UInt8} (h : FileOk enc fp) : enc.headers <+: fp ↔ enc.headers.length ≤ fp.length := by
  constructor
  · exact List.IsPrefix.length_le
  · intro hle
    exact h.resolve_right (Nat.not_lt.2 hle)

/-- What is kept of the encoder and the file. -/
structure Kept (encoder : Option Encoder) (x264Fp : Option (List UInt8)) : Prop where
  file : encoder = none → x264Fp = none
  headers : ∀ enc fp, encoder = some enc → x264Fp = some fp → FileOk enc fp

/-- Nothing that is kept is half made. -/
def KeptWhole (s : V4l2) : Prop :=
  ∀ enc, s.encoder = some enc → enc.initialised = true ∧ ∀ fp, s.x264Fp = some fp → enc.headers.length ≤ fp.length

theorem startFile_spec (s : V4l2) (env : StartEnv) (hfile : ∀ fp, s.x264Fp = some fp → FileOk enc fp) :
    ∃ fp go, startFile s env enc = ({ s with x264Fp := fp }, go) ∧ (∀ f, fp = some f → FileOk enc f) ∧
      (go = true ↔ (s.x264Fp = none → env.fopen = true ∧ Fits env.room enc)) ∧
      (go = true → ∃ f, fp = some f ∧
        (enc.headers <+: f ↔ ∀ g, s.x264Fp = some g → enc.headers.length ≤ g.length)) := by
  cases hfp : s.x264Fp with
  | some fp =>
    have hstart : startFile s env enc = (s, true) := by simp only [startFile, hfp]
    rw [hstart]
    refine ⟨some fp, true, by rw [← hfp], ?_, by simp, (fun _ => ⟨fp, rfl, ?_⟩)⟩
    · rw [← hfp]
      exact hfile
    · rw [(hfile fp hfp).iff]
      simp
  | none =>
    obtain ⟨hiff, hall, hshort⟩ := writeHeaders_spec enc env.room
    by_cases hopen : env.fopen = true
    · have hstart : startFile s env enc =
          ({ s with x264Fp := some (writeHeaders enc env.room []).1 }, (writeHeaders enc env.room []).2) := by
        simp only [startFile, hfp, if_pos hopen]
      rw [hstart]
      refine ⟨_, _, rfl, (fun f hf => ?_), by simp [hiff, hopen], (fun hok => ⟨_, rfl, ?_⟩)⟩
      · obtain rfl := Option.some.inj hf
        cases hok : (writeHeaders enc env.room []).2 with
        | true =>
          rw [hall hok]
          exact .inl List.prefix_rfl
        | false => exact .inr (hshort hok)
      · rw [hall hok]
        exact iff_of_true List.prefix_rfl (fun g hg => nomatch hg)
    · have hstart : startFile s env enc = (s, false) := by simp only [startFile, hfp, if_neg hopen]
      rw [hstart]
      refine ⟨none, false, by rw [← hfp], (fun f hf => nomatch hf), by simp [hopen], (fun h => absurd h Bool.false_ne_true)⟩

/-- A start without an encoder gets an initialised one, or it ends there. -/
theorem startX264_new (henc : s.encoder = none) (env : StartEnv) :
    (encoderInUse s env = none ∧ ∃ k, startX264 s env = ({ s with encoder := k }, false)) ∨
      ∃ enc, enc.initialised = true ∧ encoderInUse s env = some enc ∧
        startX264 s env = startFile { s with encoder := some enc } env enc := by
  by_cases halloc : env.alloc = true
  · cases hinit : env.init with
    | none =>
      refine .inl ⟨?_, some (newEncoder s.fmt.width s.fmt.height 30 2000), ?_⟩
      · simp only [encoderInUse, henc, halloc, hinit, Encoder.init]
        rfl
      · simp only [startX264, henc, if_pos halloc, hinit, Encoder.init]
        rfl
    | some sets =>
      obtain ⟨sps, pps⟩ := sets
      refine .inr ⟨{ newEncoder s.fmt.width s.fmt.height 30 2000 with initialised := true, sps, pps }, rfl, ?_, ?_⟩
      · simp only [encoderInUse, henc, halloc, hinit, Encoder.init]
        rfl
      · simp only [startX264, henc, if_pos halloc, hinit, Encoder.init]
        rfl
  · refine .inl ⟨?_, none, ?_⟩
    · simp only [encoderInUse, henc, Bool.not_eq_true _ ▸ halloc]
      rfl
    · simp only [startX264, henc, if_neg halloc]
      rw [← henc]

/-- What the part of `v4l2_start` about the encoder comes to. -/
theorem startX264_spec (h : Kept s.encoder s.x264Fp) (env : StartEnv) :
    ∃ k fp go, startX264 s env = ({ s with encoder := k, x264Fp := fp }, go) ∧
      Kept k fp ∧ (go = true ↔ ReachesQueue s env) ∧
      (go = true → ∃ enc f, k = some enc ∧ fp = some f ∧
        (enc.initialised = true ∧ enc.headers <+: f ↔ KeptWhole s)) := by
  cases henc : s.encoder with
  | some enc =>
    have hstart : startX264 s env = startFile s env enc := by simp only [startX264, henc]
    have huse : encoderInUse s env = some enc := by simp only [encoderInUse, henc]
    obtain ⟨fp, go, hfile_eq, hok, hiff, hfile⟩ := startFile_spec s env (fun fp => h.headers enc fp henc)
    rw [hstart]
    refine ⟨some enc, fp, go, by rw [hfile_eq, ← henc], ⟨(fun hnone => nomatch hnone), ?_⟩, ?_, (fun hgo => ?_)⟩
    · rintro _ f ⟨⟩ hf
      exact hok f hf
    · rw [hiff, ReachesQueue, huse]
      simp
    · obtain ⟨f, hf, hheaders⟩ := hfile hgo
      refine ⟨enc, f, rfl, hf, ?_⟩
      rw [hheaders]
      simp [KeptWhole, henc]
  | none =>
    have hfp := h.file henc
    have hwhole : KeptWhole s := fun enc hsome => by rw [henc] at hsome; cases hsome
    rcases startX264_new henc env with ⟨huse, k, hstart⟩ | ⟨enc, hinit, huse, hstart⟩
    · rw [hstart]
      refine ⟨k, none, false, by rw [← hfp], ⟨fun _ => rfl, fun _ _ _ hf => nomatch hf⟩, ?_,
        (fun hgo => absurd hgo Bool.false_ne_true)⟩
      simp [ReachesQueue, huse]
    · obtain ⟨fp, go, hfile_eq, hok, hiff, hfile⟩ := startFile_spec { s with encoder := some enc } env
        (fun fp hf => by rw [show s.x264Fp = some fp from hf] at hfp; cases hfp)
      rw [hstart]
      refine ⟨some enc, fp, go, hfile_eq, ⟨(fun hnone => nomatch hnone), ?_⟩, ?_, (fun hgo => ?_)⟩
      · rintro _ f ⟨⟩ hf
        exact hok f hf
      · rw [hiff, ReachesQueue, huse]
        simp
      · obtain ⟨f, hf, hheaders⟩ := hfile hgo
        refine ⟨enc, f, rfl, hf, iff_of_true ⟨hinit, hheaders.2 fun g hg => ?_⟩ hwhole⟩
        rw [show s.x264Fp = some g from hg] at hfp
        cases hfp

/-! ## The driver and the event loop -/

/-- Buffers are queued up to the first that fails. -/
theorem queueAll_eq (qbuf : Nat → Bool) (is : List Nat) (d : Driver) (hnodup : is.Nodup) (hfree : ∀ i ∈ is, i ∉ d.queued) :
    queueAll qbuf is d = ({ d with queued := d.queued ++ is.takeWhile qbuf }, is.all qbuf) := by
  induction is generalizing d with
  | nil => simp [queueAll]
  | cons i rest ih =>
    obtain ⟨hi, hrest⟩ := List.nodup_cons.1 hnodup
    have hfree_i := hfree i List.mem_cons_self
    cases hq : qbuf i with
    | false => simp [queueAll, Driver.qbuf, hq]
    | true =>
      have hfree_rest : ∀ j ∈ rest, j ∉ d.queued ++ [i] := by
        intro j hj
        rw [List.mem_append, List.mem_singleton]
        rintro (hj' | rfl)
        · exact hfree j (List.mem_cons_of_mem i hj) hj'
        · exact hi hj
      have hrec := ih { d with queued := d.queued ++ [i] } hrest hfree_rest
      simp [queueAll, Driver.qbuf, hq, hfree_i, hrec]

theorem takeWhile_range_eq_nil {n : Nat} {q : Nat → Bool} :
    (List.range n).takeWhile q = [] ↔ (0 < n → q 0 = false) := by
  cases n with
  | zero => simp
  | succ n =>
    rw [List.range_succ_eq_map]
    cases hq : q 0 <;> simp [hq]

/-- If a start fails, it leaves no buffer queued: none got into the queue, or all did and streaming was on. -/
def GivesBack (s : V4l2) (env : StartEnv) : Prop :=
  0 < s.memCnt → env.qbuf 0 = true → (∀ i < s.memCnt, env.qbuf i = true) ∧ env.streamon = true

theorem queued_nil_iff (hfail : ¬ ((∀ i < s.memCnt, env.qbuf i = true) ∧ env.streamon = true)) :
    (List.range s.memCnt).takeWhile env.qbuf = [] ↔ GivesBack s env := by
  rw [takeWhile_range_eq_nil]
  simp only [GivesBack, hfail, imp_false, Bool.not_eq_true]

theorem startCapture_spec (env : StartEnv) (hq : s.driver.queued = []) (hev : s.ev = none) :
    (CaptureSucceeds s env ∧ ∃ queued handle, startCapture s env =
      ({ s with driver := ⟨queued, true⟩, ev := some handle, watched := handle :: s.watched, state := .stateStart }, 0)) ∨
    (¬ CaptureSucceeds s env ∧ ∃ queued streaming, startCapture s env = ({ s with driver := ⟨queued, streaming⟩ }, -1) ∧
      (queued = [] ↔ GivesBack s env)) := by
  have hqueue := queueAll_eq env.qbuf (List.range s.memCnt) s.driver List.nodup_range (by simp [hq])
  have hall : (List.range s.memCnt).all env.qbuf = true ↔ ∀ i < s.memCnt, env.qbuf i = true := by simp
  rw [hq, List.nil_append] at hqueue
  by_cases hdriver : (∀ i < s.memCnt, env.qbuf i = true) ∧ env.streamon = true
  · obtain ⟨hqbuf, hon⟩ := hdriver
    have hok := hall.2 hqbuf
    cases hadd : env.addFd with
    | none =>
      have hfail : ¬ CaptureSucceeds s env := fun h => by
        have hsome := h.2.2
        rw [hadd] at hsome
        cases hsome
      refine .inr ⟨hfail, [], false, ?_, iff_of_true rfl fun _ _ => ⟨hqbuf, hon⟩⟩
      simp only [startCapture, hqueue, hok, if_pos hon, hadd]
      rw [← hev]
      rfl
    | some handle =>
      refine .inl ⟨⟨hqbuf, hon, by rw [hadd]; rfl⟩, (List.range s.memCnt).takeWhile env.qbuf, handle, ?_⟩
      simp only [startCapture, hqueue, hok, if_pos hon, hadd]
  · refine .inr ⟨fun h => hdriver ⟨h.1, h.2.1⟩, _, s.driver.streaming, ?_, queued_nil_iff hdriver⟩
    cases hok : (List.range s.memCnt).all env.qbuf with
    | false => simp only [startCapture, hqueue, hok]
    | true =>
      have hoff : ¬ env.streamon = true := fun hon => hdriver ⟨hall.1 hok, hon⟩
      simp only [startCapture, hqueue, hok, if_neg hoff]

/-! ## The invariant -/

/-- What is so between the calls of a tolerated run. -/
structure Inv (s : V4l2) : Prop where
  fd : 0 ≤ s.fd ↔ s.state ≠ .stateReset
  kept : Kept s.encoder s.x264Fp
  watched : s.watched = s.ev.toList
  idle : s.state ≠ .stateStart → s.ev = none
  drained : s.state ≠ .stateStart → s.driver.queued = []
  capturing : s.state = .stateStart → Capturing s

theorem inv_initial : Inv initial where
  fd := by decide
  kept := ⟨fun _ => rfl, fun _ _ h => nomatch h⟩
  watched := rfl
  idle _ := rfl
  drained _ := rfl
  capturing h := nomatch h

/-- What a start must be like: it fails with no buffer queued, and if it succeeds, nothing that it kept is half made. -/
def Tolerated (s : V4l2) : Call → Prop
  | .callStart env => s.state = .stateOpen → ReachesQueue s env →
      GivesBack s env ∧ (CaptureSucceeds s env → KeptWhole s)
  | _ => True

theorem Inv.watched_nil (h : Inv s) (hs : s.state ≠ .stateStart) : s.watched = [] := by
  rw [h.watched, h.idle hs]
  rfl

/-- How `v4l2_start` ends. -/
inductive StartOutcome (s : V4l2) (env : StartEnv) : V4l2 × Int → Prop
  | closed (hs : s.state = .stateReset) : StartOutcome s env (s, -1)
  | already (hs : s.state = .stateStart) : StartOutcome s env (s, 0)
  | unprepared (k : Option Encoder) (fp : Option (List UInt8)) (hs : s.state = .stateOpen)
      (hkept : Kept k fp) (hreach : ¬ ReachesQueue s env) :
      StartOutcome s env ({ s with encoder := k, x264Fp := fp }, -1)
  | failed (k : Option Encoder) (fp : Option (List UInt8)) (driver : Driver) (hs : s.state = .stateOpen)
      (hkept : Kept k fp) (hreach : ReachesQueue s env) (hfail : ¬ CaptureSucceeds s env)
      (hqueued : driver.queued = [] ↔ GivesBack s env) :
      StartOutcome s env ({ s with encoder := k, x264Fp := fp, driver := driver }, -1)
  | capturing (enc : Encoder) (fp : List UInt8) (queued : List Nat) (handle : Nat) (hs : s.state = .stateOpen)
      (hkept : Kept (some enc) (some fp)) (hreach : ReachesQueue s env)
      (hok : CaptureSucceeds s env) (hwhole : enc.initialised = true ∧ enc.headers <+: fp ↔ KeptWhole s) :
      StartOutcome s env ({ s with encoder := some enc, x264Fp := some fp, driver := ⟨queued, true⟩, ev := some handle,
                                   watched := handle :: s.watched, state := .stateStart }, 0)

theorem v4l2Start_spec (h : Inv s) (env : StartEnv) : StartOutcome s env (v4l2Start s env) := by
  have hfd := h.fd
  cases hs : s.state with
  | stateReset =>
    rw [hs] at hfd
    rw [v4l2Start, if_pos (Int.not_le.1 (mt hfd.1 (by simp)))]
    exact .closed hs
  | stateStart =>
    rw [v4l2Start, if_neg (Int.not_lt.2 (hfd.2 (by simp [hs]))), if_pos hs]
    exact .already hs
  | stateOpen =>
    have hns : s.state ≠ .stateStart := by simp [hs]
    obtain ⟨k, fp, go, hx264, hkept, hiff, hok⟩ := startX264_spec h.kept env
    rw [v4l2Start, if_neg (Int.not_lt.2 (hfd.2 (by simp [hs]))), if_neg hns, if_neg (not_not_intro hs), hx264]
    cases go with
    | false => exact .unprepared k fp hs hkept (fun hreach => absurd (hiff.2 hreach) Bool.false_ne_true)
    | true =>
      have hreach := hiff.1 rfl
      obtain ⟨enc, f, rfl, rfl, hwhole⟩ := hok rfl
      rcases startCapture_spec (s := { s with encoder := some enc, x264Fp := some f }) env (h.drained hns) (h.idle hns) with
        ⟨hcap, queued, handle, heq⟩ | ⟨hcap, queued, streaming, heq, hqueued⟩
      · dsimp only
        rw [heq]
        exact .capturing enc f queued handle hs hkept hreach hcap hwhole
      · dsimp only
        rw [heq]
        exact .failed (some enc) (some f) ⟨queued, streaming⟩ hs hkept hreach hcap hqueued

/-! ## One call -/

theorem v4l2Stop_inv (h : Inv s) : Inv (v4l2Stop s).1 ∧ (v4l2Stop s).1.state ≠ .stateStart := by
  rw [v4l2Stop]
  by_cases hs : s.state = .stateStart
  · rw [if_neg (not_not_intro hs)]
    obtain ⟨handle, hev, -⟩ := (h.capturing hs).event
    have hwatched := h.watched
    rw [hev] at hwatched
    have hfd : s.fd ≥ 0 := h.fd.2 (by simp [hs])
    simp only [evconnCancel, hev, hwatched, if_pos hfd]
    exact ⟨⟨iff_of_true hfd (by simp), h.kept, by simp, fun _ => rfl, fun _ => rfl, (fun hstart => nomatch hstart)⟩, by simp⟩
  · rw [if_pos hs]
    exact ⟨h, hs⟩

theorem v4l2Close_inv (h : Inv s) : Inv (v4l2Close s).1 ∧ (v4l2Close s).1.state = .stateReset := by
  obtain ⟨hstop, hns⟩ := v4l2Stop_inv h
  have hkept : Kept none none := ⟨fun _ => rfl, fun _ _ hsome => nomatch hsome⟩
  rw [v4l2Close]
  by_cases hfd : (v4l2Stop s).1.fd ≥ 0
  · simp only [if_pos hfd]
    exact ⟨⟨by simp, hkept, hstop.watched, fun _ => hstop.idle hns, fun _ => rfl, (fun hs => nomatch hs)⟩, trivial⟩
  · simp only [if_neg hfd]
    exact ⟨⟨by simpa using hfd, hkept, hstop.watched, fun _ => hstop.idle hns, fun _ => hstop.drained hns,
      (fun hs => nomatch hs)⟩, trivial⟩

theorem v4l2Open_inv (h : Inv s) (env : OpenEnv) : Inv (v4l2Open s env).1 := by
  have hclosed : Inv (if s.state ≠ .stateReset then (v4l2Close s).1 else s) ∧
      (if s.state ≠ .stateReset then (v4l2Close s).1 else s).state = .stateReset := by
    by_cases hs : s.state = .stateReset
    · rw [if_neg (not_not_intro hs)]
      exact ⟨h, hs⟩
    · rw [if_pos hs]
      exact v4l2Close_inv h
  rw [v4l2Open]
  generalize (if s.state ≠ .stateReset then (v4l2Close s).1 else s) = t at hclosed
  obtain ⟨ht, hreset⟩ := hclosed
  have hns : t.state ≠ .stateStart := by simp [hreset]
  split
  · rename_i u hu
    simp only [Option.bind_eq_bind, Option.bind_eq_some_iff] at hu
    obtain ⟨fd, -, size, -, vmemCnt, -, hu⟩ := hu
    split at hu
    · obtain rfl := Option.some.inj hu
      exact ⟨by simp, ht.kept, ht.watched, fun _ => ht.idle hns, fun _ => rfl, (fun hs => nomatch hs)⟩
    · cases hu
  · exact ht

/-- In `V4L2_STATE_START` the queue is the driver's business. -/
theorem Inv.requeue (h : Inv s) (hs : s.state = .stateStart) (queued : List Nat) :
    Inv { s with driver := { s.driver with queued } } where
  fd := h.fd
  kept := h.kept
  watched := h.watched
  idle := h.idle
  drained hns := absurd hs hns
  capturing _ := ⟨(h.capturing hs).encoder, (h.capturing hs).streaming, (h.capturing hs).event⟩

theorem writeFrame_inv (h : Inv s) (hs : s.state = .stateStart) (frame : Frame) :
    Inv (writeFrame s frame) ∧ (writeFrame s frame).state = .stateStart := by
  obtain ⟨enc, fp, henc, hinit, hfp, hheaders⟩ := (h.capturing hs).encoder
  have hwrite : writeFrame s frame = { s with x264Fp := some (fp ++ frame.encoded.take frame.room) } := by
    simp only [writeFrame, hfp, henc, Option.isSome_some, if_true]
  have hmore : enc.headers <+: fp ++ frame.encoded.take frame.room := hheaders.trans (List.prefix_append _ _)
  rw [hwrite]
  refine ⟨⟨h.fd, ⟨fun hnone => ?_, fun enc' f henc' hf => ?_⟩, h.watched, h.idle, h.drained, fun _ => ?_⟩, hs⟩
  · rw [show s.encoder = none from hnone] at henc
    cases henc
  · rw [show s.encoder = some enc' from henc'] at henc
    obtain rfl := Option.some.inj henc
    obtain rfl := Option.some.inj hf
    exact .inl hmore
  · exact ⟨⟨enc, _, henc, hinit, rfl, hmore⟩, (h.capturing hs).streaming, (h.capturing hs).event⟩

theorem streamcapCb_inv (frames : List Frame) (h : Inv s) (hs : s.state = .stateStart) : Inv (v4l2StreamcapCb frames s) := by
  induction frames generalizing s with
  | nil => exact h
  | cons frame rest ih =>
    rw [v4l2StreamcapCb]
    split
    · obtain ⟨hw, hws⟩ := writeFrame_inv (h.requeue hs (s.driver.queued.erase frame.index)) hs frame
      dsimp only
      split
      · rename_i d hd
        rw [Driver.qbuf] at hd
        split at hd
        · obtain rfl := Option.some.inj hd
          exact ih (hw.requeue hws _) hws
        · cases hd
      · exact hw
    · exact h

theorem v4l2Start_inv (h : Inv s) (hc : Tolerated s (.callStart env)) : Inv (v4l2Start s env).1 := by
  have hout := v4l2Start_spec h env
  generalize v4l2Start s env = p at hout
  cases hout with
  | closed hs => exact h
  | already hs => exact h
  | unprepared k fp hs hkept hreach =>
    have hns : s.state ≠ .stateStart := by simp [hs]
    exact ⟨h.fd, hkept, h.watched, h.idle, h.drained, fun hstart => absurd hstart hns⟩
  | failed k fp driver hs hkept hreach hfail hqueued =>
    have hns : s.state ≠ .stateStart := by simp [hs]
    have hnil := hqueued.2 (hc hs hreach).1
    exact ⟨h.fd, hkept, h.watched, h.idle, fun _ => hnil, fun hstart => absurd hstart hns⟩
  | capturing enc fp queued handle hs hkept hreach hok hwhole =>
    obtain ⟨hinit, hheaders⟩ := hwhole.2 ((hc hs hreach).2 hok)
    have hfd : 0 ≤ s.fd := h.fd.2 (by simp [hs])
    refine ⟨iff_of_true hfd (by simp), hkept, ?_, fun hns => absurd rfl hns, fun hns => absurd rfl hns, fun _ =>
      ⟨⟨enc, fp, rfl, hinit, rfl, hheaders⟩, rfl, handle, rfl, List.mem_cons_self⟩⟩
    rw [h.watched_nil (by simp [hs])]
    rfl

theorem Inv.step {c : Call} {t : V4l2} {r : Int} (h : Inv s) (hc : Tolerated s c) (hcall : call s c = some (t, r)) :
    Inv t := by
  cases c with
  | callOpen env =>
    obtain rfl := congrArg Prod.fst (Option.some.inj hcall)
    exact v4l2Open_inv h env
  | callStart env =>
    obtain rfl := congrArg Prod.fst (Option.some.inj hcall)
    exact v4l2Start_inv h hc
  | callStop =>
    obtain rfl := congrArg Prod.fst (Option.some.inj hcall)
    exact (v4l2Stop_inv h).1
  | callClose =>
    obtain rfl := congrArg Prod.fst (Option.some.inj hcall)
    exact (v4l2Close_inv h).1
  | ready frames =>
    rw [call] at hcall
    split at hcall
    · cases hcall
    · rename_i hwatched
      obtain rfl := congrArg Prod.fst (Option.some.inj hcall)
      exact streamcapCb_inv frames h (by_contra fun hns => hwatched (h.watched_nil hns))

/-- A call keeps what it is to keep just when it is tolerated. -/
theorem restartable_iff_tolerated (h : Inv s) (c : Call) : Restartable s c ↔ Tolerated s c := by
  by_cases hstart : ∃ env, c = .callStart env
  · obtain ⟨env, rfl⟩ := hstart
    have hout := v4l2Start_spec h env
    have hone : Restartable s (.callStart env) ↔
        ((v4l2Start s env).1.state = .stateStart → Capturing (v4l2Start s env).1) ∧
        ((v4l2Start s env).2 = -1 → (s.state ≠ .stateReset → (v4l2Start s env).1.state = .stateOpen) ∧
          (v4l2Start s env).1.watched = [] ∧ (v4l2Start s env).1.driver.queued = []) ∧
        (s.state ≠ .stateReset → ReachesQueue s env → CaptureSucceeds s env → (v4l2Start s env).2 = 0) := by
      constructor
      · intro hr
        obtain ⟨hcap, henv⟩ := hr _ _ rfl
        exact ⟨hcap, henv env rfl⟩
      · rintro ⟨hcap, henv⟩ t r hcall
        obtain rfl := congrArg Prod.fst (Option.some.inj hcall)
        obtain rfl := congrArg Prod.snd (Option.some.inj hcall)
        refine ⟨hcap, fun env' heq => ?_⟩
        obtain rfl := Call.callStart.inj heq
        exact henv
    rw [hone]
    generalize v4l2Start s env = p at hout
    cases hout with
    | closed hs =>
      have hns : s.state ≠ .stateStart := by simp [hs]
      refine iff_of_true ⟨fun hst => absurd hst hns, fun _ => ⟨fun hne => absurd hs hne, h.watched_nil hns, h.drained hns⟩,
        fun hne => absurd hs hne⟩ (fun hopen => ?_)
      rw [hs] at hopen
      cases hopen
    | already hs =>
      refine iff_of_true ⟨h.capturing, (fun hr => by cases hr), fun _ _ _ => rfl⟩ (fun hopen => ?_)
      rw [hs] at hopen
      cases hopen
    | unprepared k fp hs hkept hreach =>
      have hns : s.state ≠ .stateStart := by simp [hs]
      exact iff_of_true ⟨fun hst => absurd hst hns, fun _ => ⟨fun _ => hs, h.watched_nil hns, h.drained hns⟩,
        fun _ hr => absurd hr hreach⟩ (fun _ hr => absurd hr hreach)
    | failed k fp driver hs hkept hreach hfail hqueued =>
      have hns : s.state ≠ .stateStart := by simp [hs]
      constructor
      · rintro ⟨-, hclean, -⟩ - -
        exact ⟨hqueued.1 (hclean rfl).2.2, fun hok => absurd hok hfail⟩
      · intro hc
        exact ⟨fun hst => absurd hst hns, fun _ => ⟨fun _ => hs, h.watched_nil hns, hqueued.2 (hc hs hreach).1⟩,
          fun _ _ hok => absurd hok hfail⟩
    | capturing enc fp queued handle hs hkept hreach hok hwhole =>
      constructor
      · rintro ⟨hcap, -, -⟩ - -
        obtain ⟨enc', fp', henc, hinit, hfp, hheaders⟩ := (hcap rfl).encoder
        obtain rfl := Option.some.inj henc
        obtain rfl := Option.some.inj hfp
        exact ⟨fun _ _ => ⟨hok.1, hok.2.1⟩, fun _ => hwhole.1 ⟨hinit, hheaders⟩⟩
      · intro hc
        obtain ⟨hinit, hheaders⟩ := hwhole.2 ((hc hs hreach).2 hok)
        exact ⟨fun _ => ⟨⟨enc, fp, rfl, hinit, rfl, hheaders⟩, rfl, handle, rfl, List.mem_cons_self⟩,
          (fun hr => by cases hr), fun _ _ _ => rfl⟩
  · have htol : Tolerated s c := by
      cases c with
      | callStart env => exact absurd ⟨env, rfl⟩ hstart
      | callOpen _ | callStop | callClose | ready _ => trivial
    exact iff_of_true (fun t r hcall => ⟨(h.step htol hcall).capturing, fun env heq => absurd ⟨env, heq⟩ hstart⟩) htol

/-! ## Runs -/

/-- **When capturing can be started again.** A run of calls keeps what it is to keep, in every state and after every failed
start, just when each of its starts fails with no buffer queued and none that succeeds has kept an encoder whose `init()`
had failed or a file without all of the headers. -/
theorem restartable_iff (calls : List Call) :
    Steps step Restartable initial calls ↔ Steps step Tolerated initial calls := by
  refine steps_iff inv_initial (fun s c hI => restartable_iff_tolerated hI c) (fun s c t hI hc hs => ?_)
  obtain ⟨⟨t, r⟩, hcall, rfl⟩ := Option.map_eq_some_iff.1 hs
  exact hI.step hc hcall

/-- A device with one buffer. -/
def oneBuffer : OpenEnv where
  openStreamcap := some 3
  configFmt := some (1920, 1080)
  requestDevbuf := some 1
  calloc := true
  mapDevbuf := true

/-- A start all of whose steps succeed. -/
def smooth : StartEnv where
  alloc := true
  init := some ([0x67], [0x68])
  fopen := true
  room _ := 100
  qbuf _ := true
  streamon := true
  addFd := some 7

/-- Capturing is stopped and to be started again, where `VIDIOC_STREAMON` fails. The buffer stays queued. -/
theorem not_restartable : ¬ ∀ calls, Steps step Restartable initial calls := by
  intro h
  let started := (v4l2Start (v4l2Open initial oneBuffer).1 smooth).1
  let stopped := (v4l2Stop started).1
  let restart : Call := .callStart { smooth with streamon := false }
  have hrun : run step [.callOpen oneBuffer, .callStart smooth, .callStop] initial = some stopped := rfl
  have hlast := h [.callOpen oneBuffer, .callStart smooth, .callStop, restart] _ _ _ (List.prefix_refl _) hrun
  obtain ⟨-, hstart⟩ := hlast _ _ rfl
  obtain ⟨-, -, hqueued⟩ := (hstart _ rfl).1 rfl
  exact absurd hqueued (by decide)

end AlgaeBp.Streamcap
