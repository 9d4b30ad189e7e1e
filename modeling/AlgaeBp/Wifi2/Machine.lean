import AlgaeBp.Wifi2.Code
/-!
# What the machine does

`run_sm` loops until it comes to rest. `runSm_settles` says where, and whether
the timer is then the one that state has armed; `Heard` says what a call leaves
alone. `handle_rtnl` gives the machine one input after another: `handleRtnl_eq`
says which.
-/

namespace AlgaeBp.Wifi2

/-! ## Logs -/

def Act.call : Act → Option Stin
  | .runSm stin => some stin
  | _ => none

def Act.read : Act → Option (Timer × State)
  | .timerRead timer state => some (timer, state)
  | _ => none

/-- The inputs given to `run_sm`. -/
def St.calls (s : St) : List Stin := s.acts.filterMap Act.call

/-- The reads of the timer. -/
def St.reads (s : St) : List (Timer × State) := s.acts.filterMap Act.read

@[simp] theorem St.calls_act (a : Act) (s : St) : (s.act a).calls = s.calls ++ a.call.toList := by
  unfold St.calls St.act
  rw [List.filterMap_append]
  cases h : a.call <;> simp [h]

@[simp] theorem St.reads_act (a : Act) (s : St) : (s.act a).reads = s.reads ++ a.read.toList := by
  unfold St.reads St.act
  rw [List.filterMap_append]
  cases h : a.read <;> simp [h]

/-! ## What a turn is made of -/

theorem smLoop_stop {stin : Stin} {s : St} (h : (smTurn stin s).2 = none) : smLoop stin s = (smTurn stin s).1 := by
  rw [smLoop]
  split
  · rfl
  · next h' => rw [h] at h'; cases h'

theorem smLoop_again {stin stin' : Stin} {s : St} (h : (smTurn stin s).2 = some stin') :
    smLoop stin s = smLoop stin' (smTurn stin s).1 := by
  rw [smLoop]
  split
  · next h' => rw [h] at h'; cases h'
  · next h' => rw [h] at h'; cases h'; rfl

/-- `R` holds between two states if one of the things that a turn is made of leads from the first to the second. -/
structure Moves (R : St → St → Prop) : Prop where
  refl : ∀ s, R s s
  trans : ∀ {s s' s''}, R s s' → R s' s'' → R s s''
  act : ∀ a s, a.call = none → a.read = none → (∀ net, a = .networkConnect net → net = s.network) → R s (s.act a)
  timer : ∀ t s, R s { s with timer := t }
  smGoto : ∀ st s, R s (s.smGoto st)
  ping : ∀ n s, R s { s with pings := n }

namespace Moves

variable {R : St → St → Prop}

theorem plain (h : Moves R) {a : Act} (hc : a.call = none) (hr : a.read = none) (hn : ∀ net, a ≠ .networkConnect net)
    (s : St) : R s (s.act a) := h.act a s hc hr fun net ha => absurd ha (hn net)

theorem timerSet (h : Moves R) (ms : Nat) (s : St) : R s (s.timerSet ms) :=
  h.trans (h.plain (a := .timerSet ms) rfl rfl (fun _ => Act.noConfusion) s) (h.timer _ _)

theorem wpasupPing (h : Moves R) (s : St) : R s s.wpasupPing :=
  h.trans (h.plain (a := .wpasupPing s.ponged) rfl rfl (fun _ => Act.noConfusion) s) (h.ping _ _)

/-- What a state does on `STIN_ENTER`. -/
theorem entered (h : Moves R) {a : Act} (hc : a.call = none) (hr : a.read = none) (ms : Nat) (s : St)
    (hn : ∀ net, a = .networkConnect net → net = s.network) : R s ((s.act a).timerSet ms) :=
  h.trans (h.act a s hc hr hn) (h.timerSet ms _)

theorem smReset (h : Moves R) (stin : Stin) (s : St) : R s (smReset stin s).1 := by
  unfold Wifi2.smReset
  split
  · have hacts : ∀ (as : List Act) (s : St), (∀ a ∈ as, a.call = none ∧ a.read = none ∧ ∀ net, a ≠ .networkConnect net) →
        R s (as.foldl (fun s a => s.act a) s) := by
      intro as
      induction as with
      | nil => exact fun s _ => h.refl s
      | cons a as ih =>
        intro s has
        obtain ⟨⟨hc, hr, hn⟩, has⟩ := List.forall_mem_cons.1 has
        exact h.trans (h.plain hc hr hn s) (ih _ has)
    refine hacts [.dhcpcStart 0, .zcipStart 0, .killall, .killall, .killall, .ifup false, .ipFlush, .ifup true,
      .wpasupStart 1] s ?_
    simp [Act.call, Act.read]
  · split
    · exact h.smGoto _ _
    · exact h.refl s

theorem smTurn (h : Moves R) (stin : Stin) (s : St) : R s (smTurn stin s).1 := by
  have hgoto := fun st => h.smGoto st s
  unfold Wifi2.smTurn
  split
  · unfold smInit
    split
    · exact h.timerSet 10 s
    · split
      · exact hgoto .reset
      · exact h.refl s
  · exact h.smReset stin s
  · have hping := h.wpasupPing s
    unfold smWpasupCtrl
    split
    · split
      · exact h.trans (h.trans hping (h.smGoto .wpasupReady _)) (h.timerSet 100 _)
      · exact h.trans hping (h.timerSet 100 _)
    · exact h.refl s
  · unfold smWpasupReady
    split
    · split
      · exact h.trans (hgoto .wpasupConnect) (h.timerSet 1000 _)
      · exact h.timerSet 1000 s
    · exact h.refl s
  · unfold smWpasupConnect
    split
    · apply h.entered rfl rfl
      rintro net hnet
      cases hnet
      rfl
    · split
      · exact hgoto .dhcpc
      · split
        · exact hgoto .wpasupReady
        · exact h.refl s
  · unfold smDhcpc
    split
    · exact h.entered (a := .dhcpcStart 1) rfl rfl 10000 s (fun _ => Act.noConfusion)
    · split
      · exact hgoto .zcip
      · split
        · exact hgoto .mon
        · exact h.refl s
  · unfold smZcip
    split
    · exact h.entered (a := .zcipStart 1) rfl rfl 10000 s (fun _ => Act.noConfusion)
    · split
      · exact hgoto .mon
      · split
        · exact hgoto .mon
        · exact h.refl s
  · unfold smMon
    split
    · exact h.timerSet 5000 s
    · split
      · exact h.timerSet 5000 s
      · split
        · exact h.trans (h.plain (a := .ipFlush) rfl rfl (fun _ => Act.noConfusion) s) (h.smGoto .wpasupReady _)
        · exact h.refl s
  · exact h.refl s

/-- **What every move keeps, the loop keeps.** -/
theorem smLoop (h : Moves R) (stin : Stin) (s : St) : R s (smLoop stin s) := by
  induction stin, s using smLoop.induct with
  | case1 stin s hturn =>
    rw [smLoop_stop hturn]
    exact h.smTurn stin s
  | case2 stin s stin' hturn ih =>
    rw [smLoop_again hturn]
    exact h.trans (h.smTurn stin s) ih

end Moves

/-! ## What is left alone -/

/-- `run_sm` was given these inputs; other than that, the machine's own part of the state is all that differs. -/
structure Heard (ins : List Stin) (s s' : St) : Prop where
  ifflag : s'.ifflag = s.ifflag
  ifindex : s'.ifindex = s.ifindex
  applies : s'.applies = s.applies
  networkApply : s'.networkApply = s.networkApply
  hung : s'.hung = s.hung
  calls : s'.calls = s.calls ++ ins
  reads : s'.reads = s.reads

/-- The machine's own part of the state is all that differs. -/
abbrev Kept : St → St → Prop := Heard []

theorem Kept.refl (s : St) : Kept s s := ⟨rfl, rfl, rfl, rfl, rfl, (List.append_nil _).symm, rfl⟩

theorem Heard.trans {ins ins' : List Stin} {s s' s'' : St} (h : Heard ins s s') (h' : Heard ins' s' s'') :
    Heard (ins ++ ins') s s'' where
  ifflag := h'.ifflag.trans h.ifflag
  ifindex := h'.ifindex.trans h.ifindex
  applies := h'.applies.trans h.applies
  networkApply := h'.networkApply.trans h.networkApply
  hung := h'.hung.trans h.hung
  calls := by rw [h'.calls, h.calls, List.append_assoc]
  reads := h'.reads.trans h.reads

theorem Kept.trans {s s' s'' : St} (h : Kept s s') (h' : Kept s' s'') : Kept s s'' := Heard.trans h h'

theorem kept_act {a : Act} (s : St) (hc : a.call = none) (hr : a.read = none) : Kept s (s.act a) :=
  ⟨rfl, rfl, rfl, rfl, rfl, by simp [hc], by simp [hr]⟩

theorem kept_smGoto (st : State) (s : St) : Kept s (s.smGoto st) :=
  ⟨rfl, rfl, rfl, rfl, rfl, (List.append_nil _).symm, rfl⟩

theorem kept_moves : Moves Kept where
  refl := .refl
  trans := Kept.trans
  act _ s hc hr _ := kept_act s hc hr
  timer _ _ := ⟨rfl, rfl, rfl, rfl, rfl, (List.append_nil _).symm, rfl⟩
  smGoto := kept_smGoto
  ping _ _ := ⟨rfl, rfl, rfl, rfl, rfl, (List.append_nil _).symm, rfl⟩

theorem heard_runSm (stin : Stin) (s : St) : Heard [stin] s (runSm stin s) := by
  have hcall : Heard [stin] s (s.act (.runSm stin)) :=
    ⟨rfl, rfl, rfl, rfl, rfl, St.calls_act _ s, by simp [Act.read]⟩
  exact hcall.trans (kept_moves.smLoop stin _)

/-! ## Where the machine comes to rest -/

/-- From `WPASUP_READY` on. -/
def readied (applies : Bool) : State := if applies then .wpasupConnect else .wpasupReady

/-- From `WPASUP_CTRL` on. -/
def controlled (ponged applies : Bool) : State := if ponged then readied applies else .wpasupCtrl

/-- The state `run_sm` ends in. -/
def settle (ponged applies : Bool) : State → Stin → State
  | .init, .timeout => .reset
  | .reset, .iffUp => controlled ponged applies
  | .wpasupCtrl, .enter | .wpasupCtrl, .timeout => controlled ponged applies
  | .wpasupReady, .enter | .wpasupReady, .timeout => readied applies
  | .wpasupConnect, .iffRunning => .dhcpc
  | .wpasupConnect, .timeout => readied applies
  | .dhcpc, .timeout => .zcip
  | .dhcpc, .ipAdd => .mon
  | .zcip, .timeout | .zcip, .ipAdd => .mon
  | .mon, .iffLowDown => readied applies
  | st, _ => st

/-- Whether the timer has been set then. -/
def rearms : State → Stin → Bool
  | .init, stin => stin = .enter
  | .reset, stin => stin = .iffUp
  | .wpasupCtrl, stin | .wpasupReady, stin => stin = .enter ∨ stin = .timeout
  | .wpasupConnect, stin => stin = .enter ∨ stin = .timeout ∨ stin = .iffRunning
  | .dhcpc, stin | .zcip, stin => stin = .enter ∨ stin = .timeout ∨ stin = .ipAdd
  | .mon, stin => stin = .enter ∨ stin = .timeout ∨ stin = .iffLowDown
  | .pause, _ => false

/-- `run_sm` comes to rest as the tables say. -/
structure Settles (stin : Stin) (s s' : St) : Prop where
  state : s'.state = settle s.ponged s.applies s.state stin
  timer : s'.timer = if rearms s.state stin then .armed s'.state else s.timer

/-- A turn that ends the loop. -/
theorem settles_stop {stin : Stin} {s : St} (hturn : (smTurn stin s).2 = none)
    (hstate : (smTurn stin s).1.state = settle s.ponged s.applies s.state stin)
    (htimer : (smTurn stin s).1.timer = if rearms s.state stin then .armed (smTurn stin s).1.state else s.timer) :
    Settles stin s (smLoop stin s) := by
  rw [smLoop_stop hturn]
  exact ⟨hstate, htimer⟩

/-- A turn after which the loop goes on with `STIN_ENTER`. -/
theorem settles_again {stin : Stin} {s s' : St} (hturn : smTurn stin s = (s', some .enter))
    (hnext : Settles .enter s' (smLoop .enter s'))
    (hstate : settle s'.ponged s'.applies s'.state .enter = settle s.ponged s.applies s.state stin)
    (htimer : rearms s'.state .enter = rearms s.state stin) (hleft : rearms s.state stin = false → s'.timer = s.timer) :
    Settles stin s (smLoop stin s) := by
  rw [smLoop_again (by rw [hturn]), hturn]
  refine ⟨hnext.state.trans hstate, hnext.timer.trans ?_⟩
  rw [htimer]
  cases hre : rearms s.state stin with
  | true => rfl
  | false => exact hleft hre

theorem settles_ready {stin : Stin} {s : St} (h : s.state = .wpasupReady) (hin : stin = .enter ∨ stin = .timeout) :
    Settles stin s (smLoop stin s) := by
  have hre : rearms s.state stin = true := by rcases hin with rfl | rfl <;> rw [h] <;> rfl
  have hset : settle s.ponged s.applies s.state stin = readied s.applies := by
    rcases hin with rfl | rfl <;> rw [h] <;> rfl
  cases happ : s.applies with
  | true =>
    have hturn : smTurn stin s = ((s.smGoto .wpasupConnect).timerSet 1000, some .enter) := by
      simp [smTurn, h, smWpasupReady, happ, hin]
    have hconnect : Settles .enter ((s.smGoto .wpasupConnect).timerSet 1000)
        (smLoop .enter ((s.smGoto .wpasupConnect).timerSet 1000)) :=
      settles_stop rfl rfl rfl
    refine settles_again hturn hconnect ?_ (by rw [hre]; rfl) (by simp [hre])
    rw [hset, happ]
    rfl
  | false =>
    have hturn : smTurn stin s = (s.timerSet 1000, none) := by
      simp [smTurn, h, smWpasupReady, happ, hin]
    refine settles_stop (by rw [hturn]) ?_ ?_
    · rw [hturn, hset, happ]
      exact h
    · rw [hturn, hre]
      rfl

theorem settles_ctrl {stin : Stin} {s : St} (h : s.state = .wpasupCtrl) (hin : stin = .enter ∨ stin = .timeout) :
    Settles stin s (smLoop stin s) := by
  have hre : rearms s.state stin = true := by rcases hin with rfl | rfl <;> rw [h] <;> rfl
  have hset : settle s.ponged s.applies s.state stin = controlled s.ponged s.applies := by
    rcases hin with rfl | rfl <;> rw [h] <;> rfl
  cases hpong : s.ponged with
  | true =>
    have hturn : smTurn stin s = ((s.wpasupPing.smGoto .wpasupReady).timerSet 100, some .enter) := by
      simp [smTurn, h, smWpasupCtrl, hpong, hin]
    refine settles_again hturn (settles_ready rfl (.inl rfl)) ?_ (by rw [hre]; rfl) (by simp [hre])
    rw [hset, hpong]
    rfl
  | false =>
    have hturn : smTurn stin s = (s.wpasupPing.timerSet 100, none) := by
      simp [smTurn, h, smWpasupCtrl, hpong, hin]
    refine settles_stop (by rw [hturn]) ?_ ?_
    · rw [hturn, hset, hpong]
      exact h
    · rw [hturn, hre]
      rfl

theorem settles_enter (s : St) : Settles .enter s (smLoop .enter s) := by
  cases h : s.state
  case wpasupCtrl => exact settles_ctrl h (.inl rfl)
  case wpasupReady => exact settles_ready h (.inl rfl)
  all_goals
    cases s
    cases h
    exact settles_stop rfl rfl rfl

/-- An input that the state answers by moving on to `st`. -/
theorem settles_goto (st : State) (s' : St) {stin : Stin} {s : St} (hturn : smTurn stin s = (s'.smGoto st, some .enter))
    (happ : s'.applies = s.applies) (hpong : s'.ponged = s.ponged) (htimer : s'.timer = s.timer)
    (hstate : settle s.ponged s.applies st .enter = settle s.ponged s.applies s.state stin)
    (hre : rearms st .enter = rearms s.state stin) : Settles stin s (smLoop stin s) := by
  refine settles_again hturn (settles_enter _) ?_ hre (fun _ => htimer)
  rw [← hstate, ← happ, ← hpong]
  rfl

/-- An input that the state does not answer. -/
theorem settles_stay {stin : Stin} {s : St} (hturn : smTurn stin s = (s, none))
    (hstate : settle s.ponged s.applies s.state stin = s.state) (hre : rearms s.state stin = false) :
    Settles stin s (smLoop stin s) := by
  refine settles_stop (by rw [hturn]) ?_ ?_
  · rw [hturn, hstate]
  · simp [hturn, hre]

theorem settles_init (stin : Stin) {s : St} (h : s.state = .init) : Settles stin s (smLoop stin s) := by
  cases s
  cases h
  cases stin
  case enter => exact settles_enter _
  case timeout => exact settles_goto .reset _ rfl rfl rfl rfl rfl rfl
  all_goals exact settles_stay rfl rfl rfl

theorem settles_reset (stin : Stin) {s : St} (h : s.state = .reset) : Settles stin s (smLoop stin s) := by
  cases s
  cases h
  cases stin
  case enter => exact settles_enter _
  case iffUp => exact settles_goto .wpasupCtrl _ rfl rfl rfl rfl rfl rfl
  all_goals exact settles_stay rfl rfl rfl

theorem settles_connecting (stin : Stin) {s : St} (h : s.state = .wpasupConnect) : Settles stin s (smLoop stin s) := by
  cases s
  cases h
  cases stin
  case enter => exact settles_enter _
  case timeout => exact settles_goto .wpasupReady _ rfl rfl rfl rfl rfl rfl
  case iffRunning => exact settles_goto .dhcpc _ rfl rfl rfl rfl rfl rfl
  all_goals exact settles_stay rfl rfl rfl

theorem settles_dhcpc (stin : Stin) {s : St} (h : s.state = .dhcpc) : Settles stin s (smLoop stin s) := by
  cases s
  cases h
  cases stin
  case enter => exact settles_enter _
  case timeout => exact settles_goto .zcip _ rfl rfl rfl rfl rfl rfl
  case ipAdd => exact settles_goto .mon _ rfl rfl rfl rfl rfl rfl
  all_goals exact settles_stay rfl rfl rfl

theorem settles_zcip (stin : Stin) {s : St} (h : s.state = .zcip) : Settles stin s (smLoop stin s) := by
  cases s
  cases h
  cases stin
  case enter => exact settles_enter _
  case timeout => exact settles_goto .mon _ rfl rfl rfl rfl rfl rfl
  case ipAdd => exact settles_goto .mon _ rfl rfl rfl rfl rfl rfl
  all_goals exact settles_stay rfl rfl rfl

theorem settles_mon (stin : Stin) {s : St} (h : s.state = .mon) : Settles stin s (smLoop stin s) := by
  cases s
  cases h
  cases stin
  case enter => exact settles_enter _
  case timeout => exact settles_stop rfl rfl rfl
  case iffLowDown => exact settles_goto .wpasupReady (St.act .ipFlush _) rfl rfl rfl rfl rfl rfl
  all_goals exact settles_stay rfl rfl rfl

theorem smLoop_settles (stin : Stin) (s : St) : Settles stin s (smLoop stin s) := by
  cases h : s.state with
  | init => exact settles_init stin h
  | reset => exact settles_reset stin h
  | wpasupCtrl =>
    by_cases hin : stin = .enter ∨ stin = .timeout
    · exact settles_ctrl h hin
    · cases s
      cases h
      cases stin
      case enter | timeout => simp at hin
      all_goals exact settles_stay rfl rfl rfl
  | wpasupReady =>
    by_cases hin : stin = .enter ∨ stin = .timeout
    · exact settles_ready h hin
    · cases s
      cases h
      cases stin
      case enter | timeout => simp at hin
      all_goals exact settles_stay rfl rfl rfl
  | wpasupConnect => exact settles_connecting stin h
  | dhcpc => exact settles_dhcpc stin h
  | zcip => exact settles_zcip stin h
  | mon => exact settles_mon stin h
  | pause =>
    cases s
    cases h
    cases stin <;> exact settles_stay rfl rfl rfl

/-- **Where `run_sm` comes to rest.** -/
theorem runSm_settles (stin : Stin) (s : St) : Settles stin s (runSm stin s) :=
  have h := smLoop_settles stin (s.act (.runSm stin))
  ⟨h.state, h.timer⟩

/-! ## What a buffer gives the machine -/

/-- `run_sm` on one input after another. -/
def runAll (ins : List Stin) (s : St) : St := ins.foldl (fun s stin => runSm stin s) s

theorem runAll_cons (stin : Stin) (ins : List Stin) (s : St) : runAll (stin :: ins) s = runAll ins (runSm stin s) := rfl

theorem runAll_append (ins ins' : List Stin) (s : St) : runAll (ins ++ ins') s = runAll ins' (runAll ins s) :=
  List.foldl_append

theorem heard_runAll (ins : List Stin) (s : St) : Heard ins s (runAll ins s) := by
  induction ins generalizing s with
  | nil => exact Kept.refl s
  | cons stin ins ih => exact (heard_runSm stin s).trans (ih _)

/-- The flag is set now, or not, as `up` says, and was the other way in `ref`. -/
def crossed (bit : Flags) (up : Bool) (ref flags : Flags) : Prop :=
  (flags &&& bit ≠ 0 ↔ up = true) ∧ ¬ (ref &&& bit ≠ 0 ↔ up = true)

instance (bit : Flags) (up : Bool) (ref flags : Flags) : Decidable (crossed bit up ref flags) :=
  inferInstanceAs (Decidable (_ ∧ _))

/-- The inputs for flags that come after `ref`. -/
def noticed (ref flags : Flags) : List Stin :=
  (if crossed iffUp true ref flags then [.iffUp] else []) ++
    (if crossed iffRunning true ref flags then [.iffRunning] else []) ++
    (if crossed iffLowerUp false ref flags then [.iffLowDown] else [])

theorem noticed_inputs {ref flags : Flags} :
    ∀ stin ∈ noticed ref flags, stin ≠ .enter ∧ stin ≠ .timeout ∧ stin ≠ .ipAdd := by
  intro stin h
  unfold noticed at h
  refine ⟨?_, ?_, ?_⟩ <;> rintro rfl <;> revert h <;> split <;> split <;> split <;> simp

/-- The inputs for a message. -/
def heard (ifindex : BitVec 32) (ref : Flags) : NlMsg → List Stin
  | .addr new index family scope attrs =>
    if index = ifindex ∧ new = true ∧ stinIpadd family scope attrs = true then [.ipAdd] else []
  | .link index flags => if index = ifindex then noticed ref flags else []
  | .other _ => []

theorem heard_inputs {ifindex : BitVec 32} {ref : Flags} {msg : NlMsg} :
    ∀ stin ∈ heard ifindex ref msg, stin ≠ .enter ∧ stin ≠ .timeout := by
  intro stin h
  cases msg with
  | addr new index family scope attrs =>
    simp only [heard] at h
    split at h
    · rw [List.mem_singleton.1 h]
      simp
    · cases h
  | link index flags =>
    simp only [heard] at h
    split at h
    · exact ⟨(noticed_inputs stin h).1, (noticed_inputs stin h).2.1⟩
    · cases h
  | other type => cases h

/-- The flags a message gives the interface. -/
def flagsOf (ifindex : BitVec 32) : NlMsg → Option Flags
  | .link index flags => if index = ifindex then some flags else none
  | _ => none

theorem and_twoPow_ne_zero (x : Flags) {i : Nat} (hi : i < 32) : x &&& BitVec.twoPow 32 i ≠ 0 ↔ x.getLsbD i = true := by
  rw [BitVec.and_twoPow]
  have htwo : BitVec.twoPow 32 i ≠ 0#32 := by
    rw [Ne, ← BitVec.toNat_inj, BitVec.toNat_twoPow_of_lt hi]
    exact Nat.ne_of_gt (Nat.two_pow_pos i)
  cases x.getLsbD i <;> simp [htwo]

theorem xor_and_twoPow_ne_zero (x y : Flags) {i : Nat} (hi : i < 32) :
    (x ^^^ y) &&& BitVec.twoPow 32 i ≠ 0 ↔ ¬ (x &&& BitVec.twoPow 32 i ≠ 0 ↔ y &&& BitVec.twoPow 32 i ≠ 0) := by
  rw [and_twoPow_ne_zero _ hi, and_twoPow_ne_zero _ hi, and_twoPow_ne_zero _ hi, BitVec.getLsbD_xor]
  cases x.getLsbD i <;> cases y.getLsbD i <;> simp

theorem onEdge_eq (bit : Flags) (i : Nat) (hi : i < 32) (hbit : bit = BitVec.twoPow 32 i) (up : Bool) (stin : Stin)
    (flags : Flags) (s : St) :
    onEdge bit up stin flags s = runAll (if crossed bit up s.ifflag flags then [stin] else []) s := by
  subst hbit
  have hcond : ((flags ^^^ s.ifflag) &&& BitVec.twoPow 32 i ≠ 0 ∧ (flags &&& BitVec.twoPow 32 i ≠ 0 ↔ up = true)) ↔
      crossed (BitVec.twoPow 32 i) up s.ifflag flags := by
    rw [xor_and_twoPow_ne_zero _ _ hi]
    unfold crossed
    tauto
  unfold onEdge
  rw [if_congr hcond rfl rfl]
  split <;> rfl

theorem handleMsg_eq (msg : NlMsg) (update : Option Flags) (s : St) :
    handleMsg msg update s = ((flagsOf s.ifindex msg).or update, runAll (heard s.ifindex s.ifflag msg) s) := by
  cases msg with
  | addr new index family scope attrs =>
    simp only [handleMsg, heard, flagsOf, Option.none_or]
    split <;> rfl
  | other type => rfl
  | link index flags =>
    by_cases hi : index = s.ifindex
    · have hup := onEdge_eq iffUp 0 (by decide) (by decide)
      have hrun := onEdge_eq iffRunning 6 (by decide) (by decide)
      have hlow := onEdge_eq iffLowerUp 16 (by decide) (by decide)
      simp only [handleMsg, heard, flagsOf, hi, if_true, hup, hrun, hlow, noticed, runAll_append, Option.some_or,
        (heard_runAll _ _).ifflag]
    · simp only [handleMsg, heard, flagsOf, hi, if_false, Option.none_or]
      rfl

theorem handleMsgs_eq (msgs : List NlMsg) (update : Option Flags) (s : St) :
    handleMsgs msgs update s =
      (((msgs.filterMap (flagsOf s.ifindex)).getLast?).or update, runAll (msgs.flatMap (heard s.ifindex s.ifflag)) s) := by
  induction msgs generalizing update s with
  | nil => simp [handleMsgs, runAll]
  | cons msg msgs ih =>
    have hh := heard_runAll (heard s.ifindex s.ifflag msg) s
    simp only [handleMsgs, ih, handleMsg_eq, hh.ifflag, hh.ifindex, List.flatMap_cons, runAll_append]
    cases hf : flagsOf s.ifindex msg with
    | none => simp [hf]
    | some flags =>
      cases hl : (msgs.filterMap (flagsOf s.ifindex)).getLast? <;> simp [hf, List.getLast?_cons, hl]

/-- **What a buffer does**: its inputs in turn, and then the flags are stored. -/
theorem handleRtnl_eq (msgs : List NlMsg) (s : St) :
    handleRtnl msgs s = { runAll (msgs.flatMap (heard s.ifindex s.ifflag)) s with
      ifflag := (msgs.filterMap (flagsOf s.ifindex)).getLastD s.ifflag } := by
  have hflag := (heard_runAll (msgs.flatMap (heard s.ifindex s.ifflag)) s).ifflag
  simp only [handleRtnl, handleMsgs_eq, Option.or_none, hflag, List.getLastD_eq_getLast?]

/-! ## Events and runs -/

theorem onTimer_eq {s : St} (ht : s.timer ≠ .disarmed) :
    onTimer s = runSm .timeout { s.act (.timerRead s.timer s.state) with timer := .disarmed } := by
  unfold onTimer
  dsimp only
  split
  · next hd => exact absurd hd ht
  · rfl

theorem heard_onTimer (s : St) : (onTimer s).ifflag = s.ifflag ∧ (onTimer s).ifindex = s.ifindex := by
  unfold onTimer
  dsimp only
  split
  · exact ⟨rfl, rfl⟩
  · exact ⟨(heard_runSm _ _).ifflag, (heard_runSm _ _).ifindex⟩

theorem wificfg_cases (ssid psk : Option (List UInt8)) (flag : BitVec 32) (s : St) : ∃ net apply,
    (wificfg ssid psk flag s).2 = { s with network := net, networkApply := apply } ∨
      (wificfg ssid psk flag s).2 = runSm .enter { s with network := net, networkApply := apply, state := .init } := by
  unfold wificfg
  dsimp only
  split
  · exact ⟨_, _, .inl rfl⟩
  · split
    · split
      · exact ⟨_, _, .inr rfl⟩
      · exact ⟨_, _, .inl rfl⟩
    · exact ⟨_, _, .inl rfl⟩

@[simp] theorem expire_state (s : St) : s.expire.state = s.state := rfl
@[simp] theorem expire_ifflag (s : St) : s.expire.ifflag = s.ifflag := rfl
@[simp] theorem expire_ifindex (s : St) : s.expire.ifindex = s.ifindex := rfl
@[simp] theorem expire_hung (s : St) : s.expire.hung = s.hung := rfl
@[simp] theorem expire_calls (s : St) : s.expire.calls = s.calls := rfl
@[simp] theorem expire_reads (s : St) : s.expire.reads = s.reads := rfl

/-- The callback with one descriptor. -/
theorem epollCb_single {s : St} (h : s.hung = false) (b : Bool) (ready : Ready) :
    epollCb [(b, ready)] s = onReady ready (if b then s.expire else s) := by
  simp [epollCb, h]

theorem step_eq_some {s s' : St} {e : Event} (h : step s e = some s') : e.enabled s = true ∧ happen s e = s' := by
  unfold step at h
  split at h
  · next hen => exact ⟨hen, Option.some.inj h⟩
  · cases h

theorem not_hung {s : St} {e : Event} (hen : e.enabled s = true) : s.hung = false := by
  have h := (Bool.and_eq_true_iff.1 hen).1
  simpa using h

theorem expired_of_enabled {s : St} {b : Bool} (hen : (Event.poll [(b, .timer)]).enabled s = true) :
    s.timer.isExpired = true := by
  simpa [Event.enabled, Ready.isTimer] using (Bool.and_eq_true_iff.1 hen).2

theorem armed_of_expired {s : St} (h : s.timer.isExpired = true) (b : Bool) :
    (if b then s.expire else s).timer ≠ .disarmed := by
  cases ht : s.timer <;> cases b <;> simp [ht, Timer.isExpired, St.expire] at h ⊢

end AlgaeBp.Wifi2
