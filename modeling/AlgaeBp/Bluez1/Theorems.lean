import AlgaeBp.Bluez1.Code
import AlgaeBp.Lib.Runs
import AlgaeBp.Lib.StateWp
/-!
# A session leaves nothing behind

`setup` may stop at each of its steps. `Session` is what holds wherever it does:
what is exported is what `objects` lists, and undoing what `restorePairable` asks
for gives the adapters back as they were. So `cleanup` ends in a `Clean` state,
after a failed start as after a stop (`sessions_leave_nothing`).
-/

namespace AlgaeBp.Bluez1

open Runs StateWp

variable {s s' t : State} {before : Path → Bool} {a : Answers} {env : StartEnv}

/-! ## What others can change -/

/-- The state without what others can change. -/
def State.frame (s : State) : State :=
  { s with notifying := false, signals := [], received := [], bus := s.bus.map fun _ => false }

theorem method_read (offset : UInt16) (s : State) : method .tx (.readValue offset) s =
    if offset.toNat > s.valueSize then (.error "org.bluez.Error.InvalidOffset" "Offset exceeds value length", s)
    else (.value (bytes s offset.toNat), s) := rfl

theorem happen_frame (s : State) (h : Happening) : (happen s h).frame = s.frame := by
  cases h with
  | closed =>
    simp only [happen, State.frame, Option.map_map]
    rfl
  | method path m =>
    cases m with
    | writeValue data offset prepare =>
      cases path with
      | tx => rfl
      | rx =>
        unfold happen method
        dsimp only
        split
        · rfl
        · unfold deliver
          split <;> rfl
    | readValue offset =>
      cases path with
      | rx => rfl
      | tx =>
        rw [happen, method_read]
        split <;> rfl
    | startNotify => cases path <;> rfl
    | stopNotify => cases path <;> rfl

theorem foldl_happen_frame (hs : List Happening) (s : State) : (hs.foldl happen s).frame = s.frame := by
  induction hs generalizing s with
  | nil => rfl
  | cons h hs ih =>
    rw [List.foldl_cons, ih]
    exact happen_frame s h

/-- What starting and stopping keep but for the worker's handle. -/
def kept (s : State) : Bool × Bool × (Fin 20 → UInt8) × Nat := (s.worker, s.pairing, s.value, s.valueSize)

/-- What `setup` and `cleanup` do not touch. -/
def fixed (s : State) : (Bool × Bool × (Fin 20 → UInt8) × Nat) × Int := (kept s, s.startResult)

/-- The adapters' `Pairable` once `cleanup` has restored it. -/
def undone (s : State) : Path → Bool :=
  if s.restorePairable then Function.update s.pairable (adapterPath s) s.oldPairable else s.pairable

/-- What holds all along a session that began in `s₀`, when the adapters were as `before`. -/
structure Session (before : Path → Bool) (s₀ s : State) : Prop where
  exported : s.exports = s.objects
  undone : undone s = before
  unbound : s.bus = none → s.exports = [] ∧ s.registered = [] ∧ s.restorePairable = false
  fixed : fixed s = fixed s₀

theorem Session.frame {s₀ : State} (h : Session before s₀ s) (hf : s'.frame = s.frame) : Session before s₀ s' where
  exported := by
    have hx := congrArg State.exports hf
    have ho := congrArg State.objects hf
    exact hx.trans (h.exported.trans ho.symm)
  undone := by
    rw [← h.undone]
    change Bluez1.undone s'.frame = Bluez1.undone s.frame
    rw [hf]
  unbound hb := by
    have hbus := congrArg State.bus hf
    simp only [State.frame, hb, Option.map_none] at hbus
    obtain ⟨hx, hr, hp⟩ := h.unbound (Option.map_eq_none_iff.1 hbus.symm)
    exact ⟨(congrArg State.exports hf).trans hx, (congrArg State.registered hf).trans hr,
      (congrArg State.restorePairable hf).trans hp⟩
  fixed := by
    rw [← h.fixed]
    change Bluez1.fixed s'.frame = Bluez1.fixed s.frame
    rw [hf]

/-! ## Rules for the steps of `setup` -/

section Rules

variable {Q : Unit → State → Prop} {E : State → Prop}

theorem wps_ensure {ok : Bool} (h : ok = true → Q () s) (hE : ok = false → E s) : wps (ensure ok) Q E s := by
  cases ok with
  | true => exact h rfl
  | false => exact hE rfl

theorem wp_command {c : DbusCall} {effect : State → State} {Q : Bool → State → Prop}
    (h : ∀ s', s'.frame = s.frame →
      (a.succeeds c = true → Q true (effect s')) ∧ (a.succeeds c = false → Q false s')) :
    wp (command a c effect) Q s := by
  obtain ⟨hok, hfail⟩ := h _ (foldl_happen_frame (a.during c) s)
  cases hc : a.succeeds c with
  | true =>
    have hrun : command a c effect s = (true, effect ((a.during c).foldl happen s)) := by
      simp only [command, hc]
      rfl
    rw [wp, hrun]
    exact hok hc
  | false =>
    have hrun : command a c effect s = (false, (a.during c).foldl happen s) := by
      simp only [command, hc]
      rfl
    rw [wp, hrun]
    exact hfail hc

theorem wps_command {c : DbusCall} {effect : State → State}
    (h : ∀ s', s'.frame = s.frame → (a.succeeds c = true → Q () (effect s')) ∧ (a.succeeds c = false → E s')) :
    wps (ensureM (command a c effect)) Q E s := by
  refine wps.bind (Q := fun ok t => (ok = true → Q () t) ∧ (ok = false → E t)) ?_ (fun ok t ht => wps_ensure ht.1 ht.2)
  refine wps_lift.2 (wp_command fun s' hs' => ?_)
  obtain ⟨hok, hfail⟩ := h s' hs'
  exact ⟨fun hc => ⟨fun _ => hok hc, (fun hne => nomatch hne)⟩, fun hc => ⟨(fun hne => nomatch hne), fun _ => hfail hc⟩⟩

end Rules

/-! ## `setup` -/

/-- All the steps of a start succeed. -/
structure AllSucceed (env : StartEnv) : Prop where
  thread : env.thread = true
  address : env.address = true
  connect : env.connect = true
  nodeInfo : env.nodeInfo = true
  exportId : ∀ i < 6, env.exportId i ≠ 0
  succeeds : ∀ c, env.succeeds c = true

/-- A session over an open connection, with what is known of `Pairable` and whether it has been set. -/
structure Stage (before : Path → Bool) (s₀ : State) (known set : Bool) (s : State) : Prop extends Session before s₀ s where
  bound : s.bus.isSome = true
  oldPairable : known = true → s.oldPairable = before (adapterPath s)
  restorePairable : s.restorePairable = set

section Setup

variable {s₀ : State} {known set : Bool}

theorem Stage.frame (h : Stage before s₀ known set s) (hf : s'.frame = s.frame) : Stage before s₀ known set s' where
  toSession := h.toSession.frame hf
  bound := by
    have hbus := congrArg (fun t => t.bus.isSome) hf
    simp only [State.frame, Option.isSome_map] at hbus
    exact hbus.trans h.bound
  oldPairable hk := by
    have hadapter : adapterPath s' = adapterPath s := congrArg (fun t => t.adapter.getD "") hf
    rw [hadapter]
    exact (congrArg State.oldPairable hf).trans (h.oldPairable hk)
  restorePairable := (congrArg State.restorePairable hf).trans h.restorePairable

theorem Stage.bus_ne (h : Stage before s₀ known set s) : s.bus ≠ none := Option.isSome_iff_ne_none.1 h.bound

/-- What `setup` stops in. -/
def Stopped (before : Path → Bool) (s₀ : State) (env : StartEnv) (s : State) : Prop :=
  Session before s₀ s ∧ ¬ AllSucceed env

/-- A D-Bus call of `setup`: what its effect is to show. -/
theorem Stage.command {c : DbusCall} {effect : State → State} {Q : Unit → State → Prop} (h : Stage before s₀ known set s)
    (hQ : ∀ s', Stage before s₀ known set s' → Q () (effect s')) :
    wps (ensureM (Bluez1.command env.toAnswers c effect)) Q (Stopped before s₀ env) s := by
  refine wps_command fun s' hs' => ⟨fun _ => hQ s' (h.frame hs'), fun hc => ⟨h.toSession.frame hs', fun hall => ?_⟩⟩
  rw [hall.succeeds c] at hc
  cases hc

theorem exportAll_spec {l : List Nat} (hl : ∀ i ∈ l, i < 6) (h : Stage before s₀ false false s) :
    wps (exportAll env.exportId l) (fun _ t => Stage before s₀ false false t) (Stopped before s₀ env) s := by
  induction l generalizing s with
  | nil => exact h
  | cons i rest ih =>
    refine wps.seq (wps_ensure (fun _ => ?_) (fun hfail => ?_))
    · refine ih (fun j hj => hl j (List.mem_cons_of_mem i hj)) { h with exported := ?_, unbound := ?_ }
      · exact congrArg (· ++ [env.exportId i]) h.exported
      · exact fun hb => absurd hb h.bus_ne
    · refine ⟨h.toSession, fun hall => ?_⟩
      exact hall.exportId i (hl i List.mem_cons_self) (by simpa using hfail)

theorem Stage.register (h : Stage before s₀ known set s) (r : Registration) :
    Stage before s₀ known set (Bluez1.register r s) :=
  { h with unbound := fun hb => absurd hb h.bus_ne }

/-- What the first D-Bus call leaves. -/
theorem Stage.knowing (h : Stage before s₀ false false s) :
    Stage before s₀ true false { s with oldPairable := s.pairable (adapterPath s) } := by
  have hpairable : s.pairable = before := by
    have hundone := h.undone
    rwa [Bluez1.undone, h.restorePairable, if_neg Bool.false_ne_true] at hundone
  refine ⟨⟨h.exported, ?_, h.unbound, h.fixed⟩, h.bound, fun _ => congrFun hpairable _, h.restorePairable⟩
  change (if s.restorePairable = true then _ else s.pairable) = before
  rw [h.restorePairable, if_neg Bool.false_ne_true, hpairable]

theorem Stage.powered (h : Stage before s₀ known set s) : Stage before s₀ known set (setPowered s) :=
  ⟨⟨h.exported, h.undone, h.unbound, h.fixed⟩, h.bound, h.oldPairable, h.restorePairable⟩

theorem Stage.activate (h : Stage before s₀ known set s) : Stage before s₀ known set { s with active := true } :=
  ⟨⟨h.exported, h.undone, h.unbound, h.fixed⟩, h.bound, h.oldPairable, h.restorePairable⟩

/-- `Pairable` is set, and is to be restored. -/
theorem Stage.setPairable (h : Stage before s₀ true false s) :
    Stage before s₀ true true { Bluez1.setPairable true s with restorePairable := true } := by
  have hpairable : s.pairable = before := by
    have hundone := h.undone
    rwa [Bluez1.undone, h.restorePairable, if_neg Bool.false_ne_true] at hundone
  refine { h with undone := ?_, unbound := fun hb => absurd hb h.bus_ne, restorePairable := rfl }
  change Function.update (Function.update s.pairable (adapterPath s) true) (adapterPath s) s.oldPairable = before
  rw [Function.update_idem, h.oldPairable rfl, hpairable, Function.update_eq_self]

/-- **`setup` can be undone wherever it stops.** -/
theorem setup_spec (h : Session before s₀ s) (hset : s.restorePairable = false) :
    wps (setup env) (fun _ t => Stage before s₀ true true t ∧ t.active = true) (Stopped before s₀ env) s := by
  refine wps.seq (wps_ensure (fun _ => ?_) (fun hfail => ⟨h, fun hall => ?_⟩))
  · have hopen : Stage before s₀ false false { s with bus := some false } :=
      { h with unbound := (fun hb => nomatch hb), bound := rfl, oldPairable := (fun hk => nomatch hk),
               restorePairable := hset }
    refine wps.seq (wps_modify.2 (wps.seq (wps_ensure (fun _ => ?_) (fun hfail => ⟨hopen.toSession, fun hall => ?_⟩))))
    · have hxml : Stage before s₀ false false { s with bus := some false, xml := true } :=
        ⟨⟨hopen.exported, hopen.undone, hopen.unbound, hopen.fixed⟩, hopen.bound, hopen.oldPairable,
          hopen.restorePairable⟩
      refine wps.seq (wps_modify.2 (wps.seq ?_))
      refine (exportAll_spec (fun i hi => List.mem_range.1 hi) hxml).mono fun _ s₁ h₁ => ?_
      refine wps.seq (h₁.command fun s₂ h₂ => wps.seq (h₂.knowing.command fun s₃ h₃ => ?_))
      refine wps.seq (h₃.powered.command fun s₄ h₄ => wps.seq ((h₄.register .agent).command fun s₅ h₅ => ?_))
      refine wps.seq (h₅.command fun s₆ h₆ => wps.seq (wps_modify.2 (wps.seq ?_)))
      refine h₆.setPairable.command fun s₇ h₇ => wps.seq ((h₇.register .application).command fun s₈ h₈ => ?_)
      exact ⟨(h₈.register .advertisement).activate, rfl⟩
    · rw [hall.nodeInfo] at hfail
      cases hfail
  · rw [hall.address, hall.connect] at hfail
    cases hfail

end Setup

/-! ## `cleanup` -/

/-- Nothing is left of a session. -/
structure Clean (s : State) : Prop where
  worker : s.worker = false
  loop : s.loop = false
  context : s.context = false
  adapter : s.adapter = none
  bus : s.bus = none
  xml : s.xml = false
  objects : s.objects = []
  exports : s.exports = []
  registered : s.registered = []
  active : s.active = false
  notifying : s.notifying = false
  restorePairable : s.restorePairable = false
  pairing : s.pairing = false

theorem unregisterAll (l : List Nat) (s : State) (h : s.exports = l) :
    l.foldl unregisterObject s = { s with exports := [] } := by
  induction l generalizing s with
  | nil =>
    rw [List.foldl_nil, ← h]
  | cons id l ih =>
    rw [List.foldl_cons, ih (unregisterObject s id)]
    · rfl
    · rw [unregisterObject, h, List.erase_cons_head]

theorem restore_spec {s₀ : State} (h : Session before s₀ s) (hr : a.succeeds .restorePairable = true) :
    wp (restore a) (fun _ t => t.pairable = before ∧ t.exports = t.objects ∧ fixed t = fixed s₀) s := by
  refine wp.branch (fun hset => ?_) (fun hset => ?_)
  · refine wp.bind (Q := fun _ t => _) (wp_command fun s' hs' => ⟨fun _ => ?_, fun hc => ?_⟩) (fun _ _ ht => ht)
    · have h' := h.frame hs'
      have hset' : s'.restorePairable = true := (congrArg State.restorePairable hs').trans hset
      refine ⟨?_, h'.exported, h'.fixed⟩
      rw [← h'.undone, undone, hset', if_pos rfl]
      rfl
    · rw [hr] at hc
      cases hc
  · refine ⟨?_, h.exported, h.fixed⟩
    rw [← h.undone, undone, if_neg hset]
    rfl

/-- **`cleanup` undoes a session.** -/
theorem cleanup_spec {s₀ : State} (h : Session before s₀ s) (hr : a.succeeds .restorePairable = true) :
    wp (cleanup a) (fun _ t => Clean { releaseWorker t with pairing := false } ∧ t.pairable = before ∧
      fixed t = fixed s₀) s := by
  refine wp.branch (fun _ => ?_) (fun hbus => ?_)
  · refine wp.bind (restore_spec h hr) (fun _ t ht => ?_)
    obtain ⟨hp, hx, hf⟩ := ht
    change Clean { releaseWorker { closeBus (t.objects.foldl unregisterObject t) with
      objects := [], xml := false, active := false, notifying := false, restorePairable := false } with
        pairing := false } ∧ (t.objects.foldl unregisterObject t).pairable = before ∧
      fixed (t.objects.foldl unregisterObject t) = fixed s₀
    rw [unregisterAll _ _ hx]
    exact ⟨⟨rfl, rfl, rfl, rfl, rfl, rfl, rfl, rfl, rfl, rfl, rfl, rfl, rfl⟩, hp, hf⟩
  · have hnone : s.bus = none := Option.not_isSome_iff_eq_none.1 hbus
    obtain ⟨hx, hreg, hset⟩ := h.unbound hnone
    refine ⟨⟨rfl, rfl, rfl, rfl, hnone, rfl, rfl, hx, hreg, rfl, rfl, rfl, rfl⟩, ?_, h.fixed⟩
    rw [← h.undone, undone, hset, if_neg Bool.false_ne_true]
    rfl

/-! ## The calls -/

/-- A session is under way, and the adapters were as `before` when it began. -/
structure Running (before : Path → Bool) (s : State) : Prop extends Stage before s true true s where
  worker : s.worker = true
  active : s.active = true
  pairing : s.pairing = false

theorem Clean.session (h : Clean s) (path : Path) (receive : Option Nat) (arg : Nat) :
    Session s.pairable (prepare path receive arg s) (prepare path receive arg s) where
  exported := h.exports.trans h.objects.symm
  undone := by
    change (if s.restorePairable = true then _ else s.pairable) = s.pairable
    rw [h.restorePairable, if_neg Bool.false_ne_true]
  unbound _ := ⟨h.exports, h.registered, h.restorePairable⟩
  fixed := rfl

/-- How the worker's part of a start ends. -/
theorem workerMain_spec {s₀ : State} (h : Session before s₀ s) (hset : s.restorePairable = false)
    (hr : env.succeeds .restorePairable = true) :
    wp (workerMain env) (fun _ t =>
      (t.startResult = 0 ∧ Stage before t true true t ∧ t.active = true ∧ kept t = kept s₀) ∨
      (t.startResult = -1 ∧ ¬ AllSucceed env ∧ Clean { releaseWorker t with pairing := false } ∧ t.pairable = before ∧
        kept t = kept s₀)) s := by
  refine wp.bind (setup_spec h hset) (fun r t ht => ?_)
  cases r with
  | some _ =>
    obtain ⟨hstage, hactive⟩ := ht
    exact .inl ⟨rfl, ⟨⟨hstage.exported, hstage.undone, hstage.unbound, rfl⟩, hstage.bound, hstage.oldPairable,
      hstage.restorePairable⟩, hactive, congrArg Prod.fst hstage.fixed⟩
  | none =>
    obtain ⟨hs, hfail⟩ := ht
    have hs' : Session before { t with startResult := -1, ready := true } { t with startResult := -1, ready := true } :=
      ⟨hs.exported, hs.undone, hs.unbound, rfl⟩
    refine wp.update (wp.mono (cleanup_spec hs' hr) fun _ t' ht' => Or.inr ?_)
    obtain ⟨hclean, hp, hf⟩ := ht'
    exact ⟨congrArg Prod.snd hf, hfail, hclean, hp, (congrArg Prod.fst hf).trans (congrArg Prod.fst hs.fixed)⟩

theorem awaitWorker_spec (h : Session before s s) (hset : s.restorePairable = false) (hpairing : s.pairing = false)
    (hr : env.succeeds .restorePairable = true) :
    wp (awaitWorker env) (fun r t =>
      (r = -1 ∧ Clean t ∧ t.pairable = before ∧ ¬ AllSucceed env ∨ r = 0 ∧ Running before t) ∧
        t.value = s.value ∧ t.valueSize = s.valueSize) s := by
  have h' : Session before { s with worker := true } { s with worker := true } :=
    ⟨h.exported, h.undone, h.unbound, rfl⟩
  refine wp.update (wp.bind (workerMain_spec h' hset hr) fun _ t ht => wp.branch (fun hrc => ?_) (fun hrc => ?_))
  · rcases ht with ⟨hzero, -⟩ | ⟨-, hfail, hclean, hp, hk⟩
    · exact absurd hzero hrc
    · have hpairing' : t.pairing = false := (congrArg (fun x => x.2.1) hk).trans hpairing
      exact ⟨.inl ⟨rfl, { hclean with pairing := hpairing' }, hp, hfail⟩, congrArg (fun x => x.2.2.1) hk,
        congrArg (fun x => x.2.2.2) hk⟩
  · rcases ht with ⟨-, hstage, hactive, hk⟩ | ⟨hone, -⟩
    · exact ⟨.inr ⟨rfl, { hstage with
        worker := congrArg (fun x => x.1) hk
        active := hactive
        pairing := (congrArg (fun x => x.2.1) hk).trans hpairing }⟩, congrArg (fun x => x.2.2.1) hk,
        congrArg (fun x => x.2.2.2) hk⟩
    · rw [hone] at hrc
      exact absurd (by decide) hrc

/-- What a start comes to that finds no session. -/
theorem start_spec [GLib] {adapter : Option Path} {receive : Option Nat} {arg : Nat} (h : Clean s)
    (hr : env.succeeds .restorePairable = true) :
    wp (bluez1Start adapter receive arg env) (fun r t =>
      (r = -1 ∧ Clean t ∧ t.pairable = s.pairable ∧
          ¬ (isObjectPath (adapter.getD "/org/bluez/hci0") = true ∧ AllSucceed env) ∨
        r = 0 ∧ Running s.pairable t) ∧ t.value = s.value ∧ t.valueSize = s.valueSize) s := by
  refine wp.branch (fun hbad => ?_) (fun hok => ?_)
  · refine ⟨.inl ⟨rfl, h, rfl, fun hall => ?_⟩, rfl, rfl⟩
    rcases hbad with hworker | hpath
    · rw [h.worker] at hworker
      cases hworker
    · rw [hall.1] at hpath
      cases hpath
  · refine wp.update ?_
    cases hthread : env.thread with
    | false =>
      refine ⟨.inl ⟨rfl, { h with loop := rfl, context := rfl, adapter := rfl }, rfl, fun hall => ?_⟩, rfl, rfl⟩
      rw [hall.2.thread] at hthread
      cases hthread
    | true =>
      have hpath : isObjectPath (adapter.getD "/org/bluez/hci0") = true := by simpa using fun hp => hok (.inr hp)
      rw [if_pos rfl]
      refine wp.mono (awaitWorker_spec (h.session _ receive arg) h.restorePairable h.pairing hr) fun r t ht => ?_
      obtain ⟨hres, hvalue, hsize⟩ := ht
      refine ⟨?_, hvalue, hsize⟩
      rcases hres with ⟨hr, hclean, hp, hfail⟩ | hrunning
      · exact .inl ⟨hr, hclean, hp, fun hall => hfail hall.2⟩
      · exact .inr hrunning

/-- What a stop comes to that finds a session. -/
theorem stop_spec (h : Running before s) (hr : a.succeeds .restorePairable = true) :
    wp (bluez1Stop a) (fun r t => r = 0 ∧ Clean t ∧ t.pairable = before ∧ t.value = s.value ∧
      t.valueSize = s.valueSize) s := by
  refine wp.branch (fun hworker => ?_) (fun _ => ?_)
  · rw [h.worker] at hworker
    cases hworker
  · refine wp.bind (cleanup_spec h.toSession hr) (fun _ t ht => ?_)
    obtain ⟨hclean, hp, hf⟩ := ht
    have hpairing : t.pairing = false := (congrArg (fun x => x.1.2.1) hf).trans h.pairing
    refine ⟨rfl, { hclean with pairing := hpairing }, hp, congrArg (fun x => x.1.2.2.1) hf, congrArg (fun x => x.1.2.2.2) hf⟩

theorem happen_running (h : Running before s) (e : Happening) : Running before (happen s e) := by
  have hf := happen_frame s e
  have hstage := h.toStage.frame hf
  exact { hstage with
    fixed := rfl
    worker := (congrArg State.worker hf).trans h.worker
    active := (congrArg State.active hf).trans h.active
    pairing := (congrArg State.pairing hf).trans h.pairing }

theorem happen_value (s : State) (e : Happening) : (happen s e).value = s.value ∧ (happen s e).valueSize = s.valueSize := by
  have hf := happen_frame s e
  constructor
  · change (happen s e).frame.value = s.frame.value
    rw [hf]
  · change (happen s e).frame.valueSize = s.frame.valueSize
    rw [hf]

/-- The message at the address `data`, which may be `NULL`. -/
def message (data : Option (Nat → UInt8)) (size : Nat) : List UInt8 := (List.range size).map (data.getD fun _ => 0)

/-- `bluez1_send` copies the message, or leaves all as it is. -/
theorem send_spec (data : Option (Nat → UInt8)) (size : Nat) (notify : Bool) (s : State) :
    wp (bluez1Send data size notify) (fun r t => r = -1 ∧ t = s ∨
      r = 0 ∧ size ≤ 20 ∧ ∃ signals, t = { copyValue (data.getD fun _ => 0) size s with signals := signals }) s := by
  refine wp.branch (fun _ => .inl ⟨rfl, rfl⟩) (fun hok => wp.branch (fun _ => .inl ⟨rfl, rfl⟩) (fun _ => ?_))
  have hsize : size ≤ 20 := Nat.not_lt.1 fun hgt => hok (.inr (.inl hgt))
  refine wp.update ?_
  cases notify with
  | true => exact .inr ⟨rfl, hsize, _, rfl⟩
  | false => exact .inr ⟨rfl, hsize, _, rfl⟩

theorem take_copyValue {data : Nat → UInt8} {size : Nat} (hsize : size ≤ 20) (s : State) :
    (List.ofFn (copyValue data size s).value).take size = (List.range size).map data := by
  refine List.ext_getElem (by simp [hsize]) fun i hi hi' => ?_
  have hlt : i < size := by simpa using hi'
  rw [List.getElem_take, List.getElem_ofFn, List.getElem_map, List.getElem_range]
  exact if_pos hlt

theorem pair_spec [GLib] {device : Option Path} (h : Running before s) :
    wp (bluez1Pair device a) (fun _ t => Running before t ∧ t.valueSize = s.valueSize) s := by
  refine wp.branch (fun _ => ⟨h, rfl⟩) (fun _ => wp.branch (fun _ => ⟨h, rfl⟩) (fun _ => wp.update ?_))
  have hpairing : Stage before { s with pairing := true } true true { s with pairing := true } :=
    ⟨⟨h.exported, h.undone, h.unbound, rfl⟩, h.bound, h.oldPairable, h.restorePairable⟩
  refine wp.bind (Q := fun _ t => Stage before t true true t ∧ t.worker = true ∧ t.active = true ∧
    t.valueSize = s.valueSize) (wp_command fun s' hs' => ?_) (fun ok t ht => ?_)
  · have hstage := hpairing.frame hs'
    have hsize : s'.valueSize = s.valueSize := by
      have hf := congrArg State.valueSize hs'
      exact hf
    have hall : Stage before s' true true s' ∧ s'.worker = true ∧ s'.active = true ∧ s'.valueSize = s.valueSize :=
      ⟨{ hstage with fixed := rfl }, (congrArg State.worker hs').trans h.worker, (congrArg State.active hs').trans h.active,
        hsize⟩
    exact ⟨fun _ => hall, fun _ => hall⟩
  · obtain ⟨hstage, hworker, hactive, hsize⟩ := ht
    exact ⟨{ exported := hstage.exported, undone := hstage.undone, unbound := hstage.unbound, fixed := rfl,
             bound := hstage.bound, oldPairable := hstage.oldPairable, restorePairable := hstage.restorePairable,
             worker := hworker, active := hactive, pairing := rfl }, hsize⟩

/-! ## Runs -/

/-- Should the call restore `Pairable`, that succeeds. -/
def Call.Restores : Call → Prop
  | .start _ _ _ env => env.succeeds .restorePairable = true
  | .stop a => a.succeeds .restorePairable = true
  | _ => True

/-- A start none of whose steps fails returns 0. -/
def Startable [GLib] (s : State) : Prop :=
  ∀ adapter receive arg env, isObjectPath (adapter.getD "/org/bluez/hci0") = true → AllSucceed env →
    (bluez1Start adapter receive arg env s).1 = 0

theorem Clean.startable [GLib] (h : Clean s) : Startable s := by
  intro adapter receive arg env hpath hall
  have hspec : wp (bluez1Start adapter receive arg env) _ s := start_spec h (hall.succeeds .restorePairable)
  obtain ⟨hres, -⟩ := hspec
  rcases hres with ⟨-, -, -, hfail⟩ | ⟨hzero, -⟩
  · exact absurd ⟨hpath, hall⟩ hfail
  · exact hzero

/-- What holds between calls. -/
def Between (s : State) : Prop := (Clean s ∨ ∃ before, Running before s) ∧ s.valueSize ≤ 20

theorem initial_between (pairable powered : Path → Bool) : Between (initial pairable powered) :=
  ⟨.inl ⟨rfl, rfl, rfl, rfl, rfl, rfl, rfl, rfl, rfl, rfl, rfl, rfl, rfl⟩, Nat.zero_le _⟩

/-- A start is refused while there is a worker. -/
theorem start_refused [GLib] {adapter : Option Path} {receive : Option Nat} {arg : Nat} (hw : s.worker = true) :
    wp (bluez1Start adapter receive arg env) (fun r t => r = -1 ∧ t = s) s :=
  wp.branch (fun _ => ⟨rfl, rfl⟩) (fun hok => absurd (.inl hw) hok)

theorem stop_idle (hw : s.worker = false) : wp (bluez1Stop a) (fun r t => r = 0 ∧ t = s) s :=
  wp.branch (fun _ => ⟨rfl, rfl⟩) (fun hworker => absurd hw hworker)

theorem pair_idle [GLib] {device : Option Path} (hw : s.worker = false) :
    wp (bluez1Pair device a) (fun r t => r = -1 ∧ t = s) s :=
  wp.branch (fun _ => ⟨rfl, rfl⟩) (fun hok => absurd (.inl hw) hok)

theorem send_idle {data : Option (Nat → UInt8)} {size : Nat} {notify : Bool} (hw : s.worker = false) :
    wp (bluez1Send data size notify) (fun r t => r = -1 ∧ t = s) s :=
  wp.branch (fun _ => ⟨rfl, rfl⟩) (fun hok => absurd (.inl hw) hok)

theorem loop_spec [GLib] (e : Happening) (s : State) :
    wp (call (.loop e)) (fun _ t => s.worker = true ∧ t = happen s e ∨ s.worker = false ∧ t = s) s := by
  have hrun : (call (.loop e) s).2 = if s.worker then happen s e else s := by
    cases hw : s.worker with
    | true =>
      simp only [call, bind, StateT.bind, get, getThe, MonadStateOf.get, StateT.get, pure, hw]
      rfl
    | false =>
      simp only [call, bind, StateT.bind, get, getThe, MonadStateOf.get, StateT.get, pure, hw]
      rfl
  rw [wp, hrun]
  cases hw : s.worker with
  | true => exact .inl ⟨rfl, rfl⟩
  | false => exact .inr ⟨rfl, rfl⟩

/-- A message is stored, and the session goes on. -/
theorem Running.copyValue (h : Running before s) (data : Nat → UInt8) (size : Nat) (signals : List Signal) :
    Running before { Bluez1.copyValue data size s with signals := signals } where
  exported := h.exported
  undone := h.undone
  unbound := h.unbound
  fixed := rfl
  bound := h.bound
  oldPairable := h.oldPairable
  restorePairable := h.restorePairable
  worker := h.worker
  active := h.active
  pairing := h.pairing

/-- Calls other than a stop keep the session. -/
theorem Running.call [GLib] {c : Call} (h : Running before s) (hstop : ∀ a, c ≠ .stop a) :
    wp (Bluez1.call c) (fun _ t => Running before t) s := by
  cases c with
  | start adapter receive arg env => exact wp.mono (start_refused h.worker) fun _ t ht => ht.2 ▸ h
  | stop a => exact absurd rfl (hstop a)
  | send data size notify =>
    refine wp.mono (send_spec data size notify s) fun _ t ht => ?_
    rcases ht with ⟨-, rfl⟩ | ⟨-, -, signals, rfl⟩
    · exact h
    · exact h.copyValue _ _ _
  | pair device a => exact wp.mono (pair_spec h) fun _ t ht => ht.1
  | loop e =>
    refine wp.mono (loop_spec e s) fun _ t ht => ?_
    rcases ht with ⟨-, rfl⟩ | ⟨-, rfl⟩
    · exact happen_running h e
    · exact h

/-- Without a session there is none after a call, unless it starts one. -/
theorem Clean.call [GLib] {c : Call} (h : Clean s) (hc : c.Restores) :
    wp (Bluez1.call c) (fun _ t => Clean t ∨ ∃ before, Running before t) s := by
  cases c with
  | start adapter receive arg env =>
    refine wp.mono (start_spec h hc) fun _ t ht => ?_
    obtain ⟨⟨-, hclean, -⟩ | ⟨-, hrunning⟩, -⟩ := ht
    · exact .inl hclean
    · exact .inr ⟨_, hrunning⟩
  | stop a => exact wp.mono (stop_idle h.worker) fun _ t ht => .inl (ht.2 ▸ h)
  | send data size notify => exact wp.mono (send_idle h.worker) fun _ t ht => .inl (ht.2 ▸ h)
  | pair device a => exact wp.mono (pair_idle h.worker) fun _ t ht => .inl (ht.2 ▸ h)
  | loop e =>
    refine wp.mono (loop_spec e s) fun _ t ht => ?_
    rcases ht with ⟨hw, -⟩ | ⟨-, rfl⟩
    · rw [h.worker] at hw
      cases hw
    · exact .inl h

/-- No call makes the value longer than 20 bytes. -/
theorem Between.valueSize [GLib] {c : Call} (h : Between s) (hc : c.Restores) :
    wp (Bluez1.call c) (fun _ t => t.valueSize ≤ 20) s := by
  obtain ⟨hsession, hsize⟩ := h
  cases c with
  | start adapter receive arg env =>
    rcases hsession with hclean | ⟨before, hrunning⟩
    · exact wp.mono (start_spec hclean hc) fun _ t ht => ht.2.2 ▸ hsize
    · exact wp.mono (start_refused hrunning.worker) fun _ t ht => ht.2 ▸ hsize
  | stop a =>
    rcases hsession with hclean | ⟨before, hrunning⟩
    · exact wp.mono (stop_idle hclean.worker) fun _ t ht => ht.2 ▸ hsize
    · exact wp.mono (stop_spec hrunning hc) fun _ t ht => ht.2.2.2.2 ▸ hsize
  | send data size notify =>
    refine wp.mono (send_spec data size notify s) fun _ t ht => ?_
    rcases ht with ⟨-, rfl⟩ | ⟨-, hle, signals, rfl⟩
    · exact hsize
    · exact hle
  | pair device a =>
    rcases hsession with hclean | ⟨before, hrunning⟩
    · exact wp.mono (pair_idle hclean.worker) fun _ t ht => ht.2 ▸ hsize
    · exact wp.mono (pair_spec hrunning) fun _ t ht => ht.2 ▸ hsize
  | loop e =>
    refine wp.mono (loop_spec e s) fun _ t ht => ?_
    rcases ht with ⟨-, rfl⟩ | ⟨-, rfl⟩
    · exact (happen_value s e).2 ▸ hsize
    · exact hsize

theorem Between.call [GLib] {c : Call} (h : Between s) (hc : c.Restores) : wp (Bluez1.call c) (fun _ t => Between t) s := by
  refine ⟨?_, h.valueSize hc⟩
  rcases h.1 with hclean | ⟨before, hrunning⟩
  · exact hclean.call hc
  · by_cases hstop : ∃ a, c = .stop a
    · obtain ⟨a, rfl⟩ := hstop
      obtain ⟨-, hclean, -⟩ := stop_spec hrunning hc
      exact .inl hclean
    · exact .inr ⟨before, hrunning.call (fun a hca => hstop ⟨a, hca⟩)⟩

/-- **`Between` holds after every run.** -/
theorem run_between [GLib] {pairable powered : Path → Bool} {cs : List Call} (hr : ∀ c ∈ cs, c.Restores)
    (h : run step cs (initial pairable powered) = some s) : Between s := by
  refine Steps.inv (C := fun _ c => c.Restores) (steps_of_forall fun c hc _ => hr c hc) (initial_between pairable powered)
    (fun s c s' hs hc hstep => ?_) h
  obtain rfl := Option.some.inj hstep
  exact hs.call hc

/-- A session goes on through every run without a stop. -/
theorem run_running [GLib] {cs : List Call} (hstop : ∀ a, Call.stop a ∉ cs) (hs : Running before s)
    (h : run step cs s = some t) : Running before t := by
  refine Steps.inv (C := fun _ c => ∀ a, c ≠ .stop a)
    (steps_of_forall fun c hc _ a hca => hstop a (by rwa [hca] at hc)) hs (fun s c s' hs hc hstep => ?_) h
  obtain rfl := Option.some.inj hstep
  exact hs.call hc

/-- What is read of a message that was sent, whatever the characteristics are asked meanwhile. -/
theorem read_sent {data : Nat → UInt8} {size : Nat} (hsize : size ≤ 20) (hs : List Happening) (offset : UInt16)
    (ho : offset.toNat ≤ size) (hv : t.value = (copyValue data size s).value) (hn : t.valueSize = size) :
    (method .tx (.readValue offset) (hs.foldl happen t)).1 = .value (((List.range size).map data).drop offset.toNat) := by
  have hf := foldl_happen_frame hs t
  have hvalue : (hs.foldl happen t).value = (copyValue data size s).value := by
    have hx := congrArg State.value hf
    exact Eq.trans hx hv
  have hlen : (hs.foldl happen t).valueSize = size := by
    have hx := congrArg State.valueSize hf
    exact Eq.trans hx hn
  rw [method_read, hlen, if_neg (Nat.not_lt.2 ho), bytes, hvalue, hlen, take_copyValue hsize]

/-- What a session does for the adapters and for those who read the characteristics. -/
structure LeavesNothing [GLib] (s : State) : Prop where
  valueSize : s.valueSize ≤ 20
  /-- A start that fails leaves nothing, or all as it is if a session is under way. -/
  failed : ∀ adapter receive arg env, env.succeeds .restorePairable = true →
    wp (bluez1Start adapter receive arg env) (fun r t => r ≠ 0 →
      s.worker = true ∧ t = s ∨ s.worker = false ∧ Clean t ∧ Startable t ∧ t.pairable = s.pairable) s
  stopped : ∀ a, a.succeeds .restorePairable = true →
    wp (bluez1Stop a) (fun _ t => Clean t ∧ Startable t ∧ (s.worker = false → t = s)) s
  /-- The stop that ends a session gives `Pairable` back as the start found it. -/
  restored : ∀ adapter receive arg env, env.succeeds .restorePairable = true →
    wp (bluez1Start adapter receive arg env) (fun r t => r = 0 → ∀ cs s', (∀ a, Call.stop a ∉ cs) →
      run step cs t = some s' → ∀ a, a.succeeds .restorePairable = true →
      wp (bluez1Stop a) (fun _ t' => t'.pairable = s.pairable) s') s
  sendFails : ∀ data size notify,
    wp (bluez1Send data size notify) (fun r t => r = -1 → t.value = s.value ∧ t.valueSize = s.valueSize) s
  sendReads : ∀ data size notify,
    wp (bluez1Send data size notify) (fun r t => r = 0 → ∀ (hs : List Happening) (offset : UInt16), offset.toNat ≤ size →
      (method .tx (.readValue offset) (hs.foldl happen t)).1 = .value ((message data size).drop offset.toNat)) s

/-- **Sessions leave nothing behind.** -/
theorem sessions_leave_nothing [GLib] {pairable powered : Path → Bool} {cs : List Call} {s : State}
    (hr : ∀ c ∈ cs, c.Restores) (h : run step cs (initial pairable powered) = some s) : LeavesNothing s := by
  obtain ⟨hsession, hsize⟩ := run_between hr h
  refine ⟨hsize, fun adapter receive arg env hres => ?_, fun a hres => ?_, fun adapter receive arg env hres => ?_,
    fun data size notify => ?_, fun data size notify => ?_⟩
  · rcases hsession with hclean | ⟨before, hrunning⟩
    · refine wp.mono (start_spec hclean hres) fun r t ht hne => .inr ?_
      obtain ⟨⟨-, htclean, hp, -⟩ | ⟨hzero, -⟩, -⟩ := ht
      · exact ⟨hclean.worker, htclean, htclean.startable, hp⟩
      · exact absurd hzero hne
    · exact wp.mono (start_refused hrunning.worker) fun r t ht _ => .inl ⟨hrunning.worker, ht.2⟩
  · rcases hsession with hclean | ⟨before, hrunning⟩
    · refine wp.mono (stop_idle hclean.worker) fun r t ht => ?_
      obtain ⟨-, rfl⟩ := ht
      exact ⟨hclean, hclean.startable, fun _ => rfl⟩
    · refine wp.mono (stop_spec hrunning hres) fun r t ht => ⟨ht.2.1, ht.2.1.startable, fun hw => ?_⟩
      rw [hrunning.worker] at hw
      cases hw
  · rcases hsession with hclean | ⟨before, hrunning⟩
    · refine wp.mono (start_spec hclean hres) fun r t ht hzero cs s' hstop hrun a ha => ?_
      obtain ⟨⟨hone, -⟩ | ⟨-, ht⟩, -⟩ := ht
      · rw [hone] at hzero
        exact absurd hzero (by decide)
      · exact wp.mono (stop_spec (run_running hstop ht hrun) ha) fun _ _ ht' => ht'.2.2.1
    · refine wp.mono (start_refused hrunning.worker) fun r t ht hzero => ?_
      rw [ht.1] at hzero
      exact absurd hzero (by decide)
  · refine wp.mono (send_spec data size notify s) fun r t ht hone => ?_
    rcases ht with ⟨-, rfl⟩ | ⟨hzero, -⟩
    · exact ⟨rfl, rfl⟩
    · rw [hzero] at hone
      exact absurd hone (by decide)
  · refine wp.mono (send_spec data size notify s) fun r t ht hzero hs offset ho => ?_
    rcases ht with ⟨hone, -⟩ | ⟨-, hle, signals, rfl⟩
    · rw [hone] at hzero
      exact absurd hzero (by decide)
    · exact read_sent hle hs offset ho rfl rfl

/-- An environment in which nothing fails. -/
def willing : StartEnv where
  succeeds := fun _ => true
  during := fun _ => []
  thread := true
  address := true
  connect := true
  nodeInfo := true
  exportId := fun i => i + 1

/-- A start, with nothing that fails. -/
def startWilling : Call := .start none none 0 willing

namespace Words

/-- Words of letters, digits and underscores, with a slash before each. -/
scoped instance : GLib where
  isObjectPath path :=
    let elements := path.toList.splitOn '/'
    path = "/" || elements.head? = some [] && elements.length ≠ 1 &&
      elements.tail.all fun e => e ≠ [] && e.all fun c => c.isAlphanum || c = '_'

end Words

open Words

/-- A second start fails, and the session it found goes on. -/
theorem second_start_keeps_session :
    ∃ s, run step [startWilling] (initial (fun _ => false) fun _ => false) = some s ∧
      (call startWilling s).1 = -1 ∧ ¬ Clean (call startWilling s).2 :=
  ⟨_, rfl, by decide, fun h => absurd h.worker (by decide)⟩

theorem sessions_leave_nothing_two :
    ∃ s, run step [startWilling, .stop willing.toAnswers] (initial (fun _ => false) fun _ => false) = some s ∧
      LeavesNothing s := by
  have hrun : run step [startWilling, .stop willing.toAnswers] (initial (fun _ => false) fun _ => false) = some _ := rfl
  exact ⟨_, hrun, sessions_leave_nothing (by simp [startWilling, Call.Restores, willing]) hrun⟩

end AlgaeBp.Bluez1
