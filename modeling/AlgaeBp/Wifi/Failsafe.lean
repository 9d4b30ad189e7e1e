import AlgaeBp.Wifi.Meanwhile
/-!
# Failsafe provisioning

`app_wifi_provision_fallsafe` puts a try file in place and raises the flag;
the Wi-Fi thread starts a session from the try file, and when the session has
a connection and an address, renames the try file over the official one. It
looks at the flag once a turn, and at the try file again right before it
renames it.

A try file put in place after the look at the flag is therefore taken for the
one being tested. The history's `missed` is set exactly while that can be the
case; `commits_proved` says that every commit made while it is not set is of
the configuration its session was started from.
-/
open Threads

namespace AlgaeBp.Wifi

/-! ## Resets -/

/-- There is no usable try file, or not for long. -/
def Blank (w : World) : Prop := (∀ x, shown w = some x → configured x = false) ∨ Pending w

theorem stable_blank : Stable Blank := by
  intro w w' h hw
  rcases hw with hb | hp
  · exact (h.try_or (P := fun o => ∀ x, o = some x → configured x = false) (fun _ hx => by cases hx) hb).imp_right
      And.right
  · exact .inr (h.pending hp)

theorem wp_configured_conf {P : World → Prop} {w : World} (hP : Stable P) (hw : P w) :
    Wp (wpasupNetworkConfigured .conf) (fun _ => P) w :=
  wp_quiet hP (.bind (.act trivial) (fun _ => trivial)) hw

theorem exec_read_reset {e : Outcome} {w : World} (hw : w.wifiState = .reset) :
    exec .wifi (.read .tryConf) e w = (if e.ok then shown w else none, { w with hist := { w.hist with
      late := (if e.ok then shown w else none) ≠ shown w, missed := (if e.ok then shown w else none) ≠ shown w } }) := by
  simp only [exec, effect, wifiWatch, hw, if_pos, shown]
  rfl

/-- The look for a try file in a reset. -/
theorem wp_configured_reset {w : World} (hw : w.wifiState = .reset) :
    Wp (wpasupNetworkConfigured .tryConf) (fun r w => w.wifiState = .reset ∧ (r = false → Blank w)) w := by
  have hstable : ∀ b : Bool, Stable (fun w => w.wifiState = .reset ∧ (b = false → Blank w)) :=
    fun b w w' h hw => ⟨h.wifiState.trans hw.1, fun hr => stable_blank w w' h (hw.2 hr)⟩
  refine wp.seq (P := fun r w => w.wifiState = .reset ∧ (r.any configured = false → Blank w))
    (wp_one (stable_state .reset) (fun r => hstable _) (by simp) ?_ hw) (fun r w hr => wp_ret (hstable _) hr)
  intro e w hs
  rw [exec_read_reset hs]
  refine ⟨hs, fun hnone => ?_⟩
  by_cases hread : (if e.ok then shown w else none) = shown w
  · refine .inl (fun x hx => ?_)
    have hx' : (if e.ok then shown w else none) = some x := hread.trans hx
    simpa [hx'] using hnone
  · exact .inr (.inl (decide_eq_true hread))

theorem wp_resetCfg {w : World} (hw : w.wifiState = .reset) :
    Wp resetCfg (fun cfg w => w.wifiState = .reset ∧ (cfg ≠ some .tryConf → Blank w)) w := by
  have hstable : ∀ cfg : Option Path, Stable (fun w => w.wifiState = .reset ∧ (cfg ≠ some .tryConf → Blank w)) :=
    fun b w w' h hw => ⟨h.wifiState.trans hw.1, fun hr => stable_blank w w' h (hw.2 hr)⟩
  refine wp.seq (wp_configured_reset hw) (fun r w hr => ?_)
  cases r with
  | true => exact wp_ret (hstable _) ⟨hr.1, fun h => absurd rfl h⟩
  | false =>
    have hblank : w.wifiState = .reset ∧ Blank w := ⟨hr.1, hr.2 rfl⟩
    refine wp.seq (wp_configured_conf ((stable_state .reset).and stable_blank) hblank) (fun r w hr => ?_)
    cases r with
    | true => exact wp_ret (hstable _) ⟨hr.1, fun _ => hr.2⟩
    | false => exact wp_ret (hstable _) ⟨hr.1, fun _ => hr.2⟩

theorem Blank.fits {w : World} (h : Blank w) (conf : Conf) : Fits conf w ∨ Pending w := by
  rcases h with hb | hp
  · exact .inl (fun x hx hconf => absurd ((hb x hx).symm.trans hconf) (by simp))
  · exact .inr hp

theorem stable_tested : Stable (fun w => ∃ conf, Tested conf w) := fun _ _ h hw => hw.imp (fun _ ht => h.tested ht)

theorem exec_run_state (cmd : Cmd) (e : Outcome) (w : World) : (exec .wifi (.run cmd) e w).2.wifiState = w.wifiState := by
  cases cmd with
  | wpaSupplicant cfg =>
    simp only [exec, effect, runCmd]
    split <;> rfl
  | _ => rfl

/-- A supplicant that was started has read the file it was given. -/
theorem exec_startWpa {cfg : Path} {e : Outcome} {w : World} (hb : cfg ≠ .tryConf → Blank w)
    (hr : (exec .wifi (.run (.wpaSupplicant cfg)) e w).1 = true) :
    ∃ conf, Tested conf (exec .wifi (.run (.wpaSupplicant cfg)) e w).2 := by
  cases hconf : w.fs.content cfg with
  | none => simp [exec, effect, runCmd, hconf] at hr
  | some conf =>
    have hok : e.ok = true := by
      simp only [exec, effect, runCmd, hconf] at hr
      exact hr
    have hwpa : (exec .wifi (.run (.wpaSupplicant cfg)) e w).2.wpa = some conf := by
      simp [exec, effect, runCmd, hconf, hok]
    have hfs : (exec .wifi (.run (.wpaSupplicant cfg)) e w).2.fs = w.fs := by
      simp [exec, effect, runCmd, hconf]
    refine ⟨conf, .inl hwpa, ?_⟩
    by_cases htry : cfg = .tryConf
    · -- the try file is what the session was started from
      subst htry
      refine .inl (fun x hx _ => ?_)
      rw [shown, hfs, hconf] at hx
      exact (Option.some.inj hx).symm
    · have hkeep : (exec .wifi (.run (.wpaSupplicant cfg)) e w).2 = { w with wpa := some conf } := by
        cases cfg <;> first | exact absurd rfl htry | simp [exec, effect, runCmd, hconf, hok, wifiWatch]
      rw [hkeep]
      exact (hb htry).fits conf

theorem wp_startWpa {cfg : Path} {w : World} (hw : w.wifiState = .reset ∧ (cfg ≠ .tryConf → Blank w)) :
    Wp (wifiStartWpa cfg) (fun r w => w.wifiState = .reset ∧ (r = true → ∃ conf, Tested conf w)) w := by
  refine wp_one (P := fun w => w.wifiState = .reset ∧ (cfg ≠ .tryConf → Blank w)) ?_ ?_ (by simp) ?_ hw
  · exact fun w w' h hw => ⟨h.wifiState.trans hw.1, fun hne => stable_blank w w' h (hw.2 hne)⟩
  · exact fun r w w' h hw => ⟨h.wifiState.trans hw.1, fun hr => stable_tested w w' h (hw.2 hr)⟩
  · intro e w hw
    exact ⟨(exec_run_state ..).trans hw.1, fun hr => exec_startWpa hw.2 hr⟩

theorem all_startAp : wifiStartAp.All Quiet := by
  have hfalse : (pure false : Code Bool).All Quiet := trivial
  refine .bind (.act trivial) (fun b => ?_)
  cases b with
  | false => exact hfalse
  | true =>
    refine .bind (.act trivial) (fun b => ?_)
    cases b with
    | false => exact hfalse
    | true =>
      refine .bind (.act trivial) (fun _ => .bind (.act trivial) (fun b => ?_))
      cases b with
      | false => exact hfalse
      | true => exact .act trivial

theorem wp_resetStart {cfg : Option Path} {w : World} (hw : w.wifiState = .reset ∧ (cfg ≠ some .tryConf → Blank w)) :
    Wp (resetStart cfg) (fun _ => Idle) w := by
  cases cfg with
  | some cfg =>
    refine wp.seq (wp_startWpa ⟨hw.1, fun hne => hw.2 (by simpa using hne)⟩) (fun r w hr => ?_)
    cases r with
    | true =>
      refine wp_setState stable_tested (fun w ⟨conf, ht⟩ d => ?_) (hr.2 rfl)
      exact ⟨fun _ => ⟨conf, ht.wpa, ht.fits⟩, fun h => by cases h⟩
    | false => exact wp_ret stable_idle (idle_of (by simp [hr.1]) (by simp [hr.1]))
  | none =>
    refine wp.seq (wp_quiet (stable_state .reset) all_startAp hw.1) (fun r w hs => ?_)
    cases r with
    | true => exact wp_setState_idle (by simp) (by simp) 0 w
    | false => exact wp_ret stable_idle (idle_of (by simp [hs]) (by simp [hs]))

theorem wp_reset {w : World} (hw : w.wifiState = .reset) : Wp wifiHandleReset (fun _ => Idle) w := by
  have hrun : ∀ cmd w, w.wifiState = .reset → Wp (wifiRun cmd) (fun _ w => w.wifiState = .reset) w :=
    fun cmd w hw => wp_one (stable_state .reset) (fun _ => stable_state .reset) (by simp)
      (fun e w hs => (exec_run_state cmd e w).trans hs) hw
  have hkill : Wp wifiKillDaemons (fun _ w => w.wifiState = .reset) w :=
    wp.seq (hrun _ w hw) (fun _ w hs => wp_ret (stable_state .reset) hs)
  refine wp.seq hkill (fun _ w hs => wp.seq ?_ (fun _ w hs => wp.seq (wp_resetCfg hs) (fun _ w hc => wp_resetStart hc)))
  refine wp_quiet (stable_state .reset) ?_ hs
  exact .bind (.bind (.act trivial) (fun _ => trivial))
    (fun _ => .bind (.act trivial) (fun _ => .bind (.act trivial) (fun _ => trivial)))

/-! ## Sessions -/

/-- The removal of the try file, before a state without a session. -/
theorem wp_removeThen {st : State} (hc : st ≠ .connecting) (hi : st ≠ .ipsetup) (w : World) :
    Wp (do wifiRemoveTryConf; wifiSetState st 0) (fun _ => Idle) w := by
  have hremove : Wp wifiRemoveTryConf (fun _ _ => True) w :=
    wp_keeps stable_true (.bind (.act ⟨by simp, fun _ _ _ => trivial⟩) (fun _ => trivial)) trivial
  exact wp.seq hremove (fun _ w _ => wp_setState_idle hc hi 0 w)

/-- A session that answers `COMPLETED` is the one that was started. -/
theorem wp_wpaConnected {w : World} (hw : w.wifiState = .connecting ∧ ∃ conf, Tested conf w) :
    Wp wifiWpaConnected (fun r w => w.wifiState = .connecting ∧
      ∃ conf, Tested conf w ∧ (r = true → w.hist.link = some conf)) w := by
  refine wp_one ((stable_state .connecting).and stable_tested) ?_ (by simp) ?_ hw
  · rintro r w w' h ⟨hs, conf, ht, hlink⟩
    exact ⟨h.wifiState.trans hs, conf, h.tested ht, fun hr => h.link.trans (hlink hr)⟩
  · rintro e w ⟨hs, conf, ht⟩
    cases hr : e.ok && w.wpa.isSome with
    | false =>
      have hexec : exec .wifi .wpaConnected e w = (false, w) := by
        simp only [exec, effect, wifiWatch, hr]
        rfl
      rw [hexec]
      exact ⟨hs, conf, ht, fun h => by cases h⟩
    | true =>
      have hexec : exec .wifi .wpaConnected e w = (true, { w with hist := { w.hist with link := w.wpa } }) := by
        simp only [exec, effect, wifiWatch, hr]
        rfl
      have hwpa : w.wpa = some conf := by
        rcases ht.wpa with h | h
        · exact h
        · simp [h] at hr
      rw [hexec]
      exact ⟨hs, conf, ⟨ht.wpa, ht.fits⟩, fun _ => hwpa⟩

theorem wp_connecting {w : World} (hw : w.wifiState = .connecting ∧ ∃ conf, Tested conf w) :
    Wp wifiHandleConnecting (fun _ => Idle) w := by
  refine wp.seq (wp_wpaConnected hw) (fun r w hr => ?_)
  obtain ⟨hs, conf, ht, hlink⟩ := hr
  cases r with
  | true =>
    -- the session goes on to `IPSETUP`
    have hstable : Stable (fun w => Tested conf w ∧ w.hist.link = some conf) :=
      fun w w' h hw => ⟨h.tested hw.1, h.link.trans hw.2⟩
    have hudhcpc : wifiStartUdhcpc.All Quiet := .bind (.act trivial) (fun _ => .bind (.act trivial) (fun _ => trivial))
    refine wp.seq (wp_quiet hstable hudhcpc ⟨ht, hlink rfl⟩) (fun _ w hw => ?_)
    refine wp_setState hstable (fun w hw d => ⟨fun h => (by cases h), fun _ => ?_⟩) hw
    exact ⟨conf, ⟨hw.1.wpa, hw.1.fits⟩, hw.2⟩
  | false =>
    have hidle : Idle w := ⟨fun _ => ⟨conf, ht⟩, fun h => by rw [hs] at h; cases h⟩
    refine wp.seq (wp_quiet stable_idle (.act trivial) hidle) (fun r w hi => ?_)
    cases r with
    | true => exact wp_removeThen (by simp) (by simp) w
    | false => exact wp_ret stable_idle hi

/-! ## Commits -/

/-- The session with `conf` has an address, and the thread has looked at the flag. -/
structure Proven (conf : Conf) (w : World) : Prop where
  state : w.wifiState = .ipsetup
  link : w.hist.link = some conf
  proved : conf ∈ w.hist.proved
  seen : Fits conf w ∨ w.hist.missed = true

theorem stable_proven (conf : Conf) : Stable (Proven conf) := fun _ _ h hw =>
  ⟨h.wifiState.trans hw.state, h.link.trans hw.link, h.proved ▸ hw.proved, h.fits_or_missed hw.seen⟩

/-- The try file is the one that was tested, or gone, or it was missed. -/
structure Committable (conf : Conf) (w : World) : Prop where
  link : w.hist.link = some conf
  proved : conf ∈ w.hist.proved
  tryFile : (shown w = some conf ∨ shown w = none) ∨ w.hist.missed = true

theorem stable_committable (conf : Conf) : Stable (Committable conf) := by
  intro w w' h hw
  refine ⟨h.link.trans hw.link, h.proved ▸ hw.proved, ?_⟩
  rcases hw.tryFile with hs | hm
  · exact (h.try_or (P := fun o => o = some conf ∨ o = none) (.inr rfl) hs).imp_right And.left
  · exact .inr (h.missed hm)

theorem exec_read_ipsetup {e : Outcome} {w : World} (hw : w.wifiState = .ipsetup) :
    exec .wifi (.read .tryConf) e w = (if e.ok then shown w else none, w) := by
  have hne : w.wifiState ≠ .reset := by simp [hw]
  simp only [exec, effect, wifiWatch, if_neg hne]
  rfl

/-- A usable try file found in `IPSETUP`, if none was missed, is the one that was tested. -/
theorem wp_configured_ipsetup {conf : Conf} {w : World} (hw : Proven conf w) :
    Wp (wpasupNetworkConfigured .tryConf) (fun r w => Proven conf w ∧ (r = true → Committable conf w)) w := by
  have hstable : ∀ b : Bool, Stable (fun w => Proven conf w ∧ (b = true → Committable conf w)) :=
    fun b w w' h hw => ⟨stable_proven conf w w' h hw.1, fun hb => stable_committable conf w w' h (hw.2 hb)⟩
  refine wp.seq (P := fun r w => Proven conf w ∧ (r.any configured = true → Committable conf w))
    (wp_one (stable_proven conf) (fun r => hstable _) (by simp) ?_ hw) (fun r w hr => wp_ret (hstable _) hr)
  intro e w hw
  rw [exec_read_ipsetup hw.state]
  refine ⟨hw, fun hr => ⟨hw.link, hw.proved, hw.seen.imp_left (fun hf => ?_)⟩⟩
  cases hok : e.ok with
  | false => simp [hok] at hr
  | true =>
    cases hx : shown w with
    | none => exact .inr rfl
    | some x =>
      simp only [hok, hx, if_true, Option.any_some] at hr
      exact .inl (congrArg some (hf x hx hr))

/-- A commit of a try file that was tested is recorded as such. -/
theorem CommitsProved.commit {conf : Conf} {w : World} (hi : CommitsProved w) (hlink : w.hist.link = some conf)
    (hproved : conf ∈ w.hist.proved) (htry : shown w = some conf ∨ shown w = none) (r : Bool) :
    ∀ x ∈ (wifiWatch w (.rename .tryConf .conf) r).commits,
      x.session = some x.conf ∧ x.conf ∈ (wifiWatch w (.rename .tryConf .conf) r).proved := by
  cases r with
  | false => exact hi
  | true =>
    intro x hx
    rcases List.mem_append.1 hx with hold | hnew
    · exact hi x hold
    · unfold shown at htry
      rcases htry with hs | hs
      · simp only [hs, Option.map_some, Option.toList_some, List.mem_singleton] at hnew
        subst hnew
        exact ⟨hlink, hproved⟩
      · simp [hs] at hnew

theorem wp_rename {conf : Conf} {w : World} (hw : Committable conf w) :
    Wp (rename .tryConf .conf) (fun _ _ => True) w := by
  refine wp_act (fun w' hr hi e hg => ⟨trivial, ?_, fun _ _ _ => trivial⟩)
  have hw' := stable_committable conf w w' hr hw
  have hseen : w'.hist.missed = false := by simpa [unmissed] using hg
  have htry : shown w' = some conf ∨ shown w' = none := by
    rcases hw'.tryFile with h | h
    · exact h
    · simp [hseen] at h
  exact hi.commit hw'.link hw'.proved htry _

theorem wp_ipsetupCommit {conf : Conf} {w : World} (hw : Proven conf w) : Wp ipsetupCommit (fun _ _ => True) w := by
  have hdone : ∀ {α : Type} (a : α) (w : World), Wp (pure a) (fun _ _ => True) w := fun a w => wp_ret stable_true trivial
  have hcommit : ∀ w, Proven conf w → Wp wifiCommitTryConf (fun _ _ => True) w := by
    intro w hw
    refine wp.seq (wp_configured_ipsetup hw) (fun r w hr => ?_)
    cases r with
    | true => exact wp_rename (hr.2 rfl)
    | false => exact hdone true w
  refine wp.seq (wp_configured_ipsetup hw) (fun r w hr => ?_)
  cases r with
  | true => exact wp.seq (hcommit w hr.1) (fun _ w _ => hdone () w)
  | false => exact hdone () w

/-- A session on trial, in `IPSETUP`. -/
def OnTrial (conf : Conf) (w : World) : Prop :=
  w.wifiState = .ipsetup ∧ Tested conf w ∧ w.hist.link = some conf

theorem stable_onTrial (conf : Conf) : Stable (OnTrial conf) := fun _ _ h hw =>
  ⟨h.wifiState.trans hw.1, h.tested hw.2.1, h.link.trans hw.2.2⟩

theorem OnTrial.idle {conf : Conf} {w : World} (h : OnTrial conf w) : Idle w :=
  ⟨fun hs => absurd (h.1.symm.trans hs) (by simp), fun _ => ⟨conf, h.2⟩⟩

theorem wp_ipConfigured {conf : Conf} {w : World} (hw : OnTrial conf w ∧ (Fits conf w ∨ w.hist.missed = true)) :
    Wp wifiIpConfigured (fun r w => OnTrial conf w ∧ (r = true → Proven conf w)) w := by
  refine wp_one (P := fun w => OnTrial conf w ∧ (Fits conf w ∨ w.hist.missed = true)) ?_ ?_ (by simp) ?_ hw
  · exact fun w w' h hw => ⟨stable_onTrial conf w w' h hw.1, h.fits_or_missed hw.2⟩
  · exact fun r w w' h hw => ⟨stable_onTrial conf w w' h hw.1, fun hr => stable_proven conf w w' h (hw.2 hr)⟩
  · rintro e w ⟨ht, hseen⟩
    obtain ⟨hs, htested, hlink⟩ := ht
    cases hok : e.ok with
    | false =>
      have hexec : exec .wifi .ipConfigured e w = (false, w) := by
        simp only [exec, effect, wifiWatch, hok]
        rfl
      rw [hexec]
      exact ⟨⟨hs, htested, hlink⟩, fun h => by cases h⟩
    | true =>
      have hexec : exec .wifi .ipConfigured e w =
          (true, { w with hist := { w.hist with proved := w.hist.proved ++ w.hist.link.toList } }) := by
        simp only [exec, effect, wifiWatch, hok]
        rfl
      rw [hexec]
      refine ⟨⟨hs, ⟨htested.wpa, htested.fits⟩, hlink⟩, fun _ => ⟨hs, hlink, ?_, hseen⟩⟩
      simp [hlink]

theorem wp_ipsetupTimeout {conf : Conf} {w : World} (hw : OnTrial conf w) : Wp ipsetupTimeout (fun _ => Idle) w := by
  have hstable := stable_onTrial conf
  refine wp.seq (wp_quiet hstable (.act trivial) hw) (fun r w hw => ?_)
  cases r with
  | false => exact wp_ret stable_idle hw.idle
  | true =>
    have hflush : wifiFlushIp.All Quiet := .bind (.act trivial) (fun _ => trivial)
    refine wp.seq (wp_quiet hstable hflush hw) (fun _ w hw => ?_)
    refine wp.seq (wp_quiet hstable (.act trivial) hw) (fun _ w hw => ?_)
    have hread : Wp (wpasupNetworkConfigured .tryConf) (fun _ => OnTrial conf) w := by
      refine wp_keeps hstable (.bind (.act ⟨by simp, fun e w hw => ?_⟩) (fun _ => trivial)) hw
      rw [exec_read_ipsetup hw.1]
      exact hw
    refine wp.seq hread (fun r w hw => ?_)
    cases r with
    | true => exact wp_removeThen (by simp) (by simp) w
    | false =>
      refine wp_setState hstable (fun w hw d => ⟨fun _ => ?_, fun h => by cases h⟩) hw
      exact ⟨conf, hw.2.1.wpa, hw.2.1.fits⟩

theorem wp_ipsetup {conf : Conf} {w : World} (hw : OnTrial conf w ∧ (Fits conf w ∨ w.hist.missed = true)) :
    Wp wifiHandleIpsetup (fun _ => Idle) w := by
  refine wp.seq (wp_ipConfigured hw) (fun r w hr => ?_)
  cases r with
  | true => exact wp.seq (wp_ipsetupCommit (hr.2 rfl)) (fun _ w _ => wp_setState_idle (by simp) (by simp) 0 w)
  | false => exact wp_ipsetupTimeout hr.1

/-! ## Turns -/

theorem wp_init {w : World} (hw : w.wifiState = .init) : Wp wifiHandleInit (fun _ => Idle) w := by
  refine wp.seq (wp_quiet (stable_state .init) (.act trivial) hw) (fun r w hs => ?_)
  cases r with
  | true => exact wp_setState_idle (by simp) (by simp) 0 w
  | false => exact wp_ret stable_idle (idle_of (by simp [hs]) (by simp [hs]))

theorem wp_provisioning {w : World} (hw : w.wifiState = .provisioning) :
    Wp wifiHandleProvisioning (fun _ => Idle) w := by
  refine wp.seq (wp_configured_conf (stable_state .provisioning) hw) (fun r w hs => ?_)
  cases r with
  | true => exact wp_setState_idle (by simp) (by simp) 0 w
  | false => exact wp_ret stable_idle (idle_of (by simp [hs]) (by simp [hs]))

theorem wp_connected {w : World} (hw : w.wifiState = .connected) : Wp wifiHandleConnected (fun _ => Idle) w := by
  have hkeep : ∀ c, c = .wpaConnected ∨ c = .ipConfigured → c ≠ .rename .tryConf .conf ∧
      ∀ e w, w.wifiState = .connected → (exec .wifi c e w).2.wifiState = .connected := by
    rintro c (rfl | rfl) <;> exact ⟨by simp, fun e w hs => hs⟩
  have hlink : Wp linkUp (fun _ w => w.wifiState = .connected) w := by
    refine wp_keeps (stable_state .connected) (.bind (.act (hkeep _ (.inl rfl))) (fun r => ?_)) hw
    cases r with
    | true => exact .act (hkeep _ (.inr rfl))
    | false => exact trivial
  refine wp.seq hlink (fun r w hs => ?_)
  cases r with
  | true => exact wp_ret stable_idle (idle_of (by simp [hs]) (by simp [hs]))
  | false => exact wp_setState_idle (by simp) (by simp) 0 w

theorem wp_handle {st : State} {w : World} (hw : w.wifiState = st ∧ Looked w) : Wp (wifiHandle st) (fun _ => Idle) w := by
  obtain ⟨hs, hl⟩ := hw
  cases st with
  | init => exact wp_init hs
  | reset => exact wp_reset hs
  | provisioning => exact wp_provisioning hs
  | connecting => exact wp_connecting ⟨hs, hl.connecting hs⟩
  | ipsetup =>
    obtain ⟨conf, ht, hlink, hseen⟩ := hl.ipsetup hs
    exact wp_ipsetup ⟨⟨hs, ht, hlink⟩, hseen⟩
  | connected => exact wp_connected hs

/-- A try file that came after the reset and was announced shows in the flag; one that was not counts as missed. -/
theorem exec_checkReset {e : Outcome} {w : World} (hw : Idle w) (hr : (exec .wifi .wifiRequestReset e w).1 = false) :
    Looked (exec .wifi .wifiRequestReset e w).2 := by
  have hflag : w.wifiRequestReset = false := hr
  have hexec : (exec .wifi .wifiRequestReset e w).2 = { w with hist := { w.hist with missed := w.hist.late } } := by
    simp only [exec, effect, wifiWatch, hflag]
    rfl
  rw [hexec]
  refine ⟨fun hs => ?_, fun hs => ?_⟩
  · obtain ⟨conf, ht⟩ := hw.connecting hs
    exact ⟨conf, ht.wpa, ht.fits⟩
  · obtain ⟨conf, ht, hlink⟩ := hw.ipsetup hs
    refine ⟨conf, ⟨ht.wpa, ht.fits⟩, hlink, ?_⟩
    rcases ht.fits with hf | hlate | hraised
    · exact .inl hf
    · exact .inr hlate
    · simp [hflag] at hraised

theorem stable_looked : Stable Looked := fun _ _ h => h.looked

theorem wp_checkReset {w : World} (hw : Idle w) : Wp checkReset (fun _ => Looked) w := by
  have hlook : Wp wifiRequestReset (fun r w => r = false → Looked w) w :=
    wp_one stable_idle (fun r w w' h hw hr => h.looked (hw hr)) (by simp) (fun e w hi hr => exec_checkReset hi hr) hw
  refine wp.seq hlook (fun r w hr => ?_)
  cases r with
  | false => exact wp_ret stable_looked (hr rfl)
  | true =>
    have hclear : Wp (setRequestReset false) (fun _ _ => True) w :=
      wp_one stable_true (fun _ => stable_true) (by simp) (fun _ _ _ => trivial) trivial
    refine wp.seq hclear (fun _ w _ => ?_)
    exact wp_one stable_true (fun _ => stable_looked) (by simp)
      (fun e w _ => ⟨fun h => (by cases h), fun h => (by cases h)⟩) trivial

theorem wp_turn {w : World} (hw : Idle w) : Wp wifiTurn (fun _ => Idle) w := by
  refine wp.seq (wp_quiet stable_idle (.act trivial) hw) (fun r w hi => ?_)
  cases r with
  | true => exact wp_ret stable_idle hi
  | false =>
    refine wp.seq (wp_checkReset hi) (fun _ w hl => ?_)
    have hstate : Wp wifiState (fun st w => w.wifiState = st ∧ Looked w) w :=
      wp_one stable_looked (fun st => (stable_state st).and stable_looked) (by simp) (fun e w hl => ⟨rfl, hl⟩) hl
    exact wp.seq hstate (fun st w hw => wp_handle hw)

theorem wp_thread (w : World) : Wp wifiThread (fun _ => Idle) w := wp_removeThen (by simp) (by simp) w

/-! ## Runs -/

theorem CommitsProved.meanwhile {w w' : World} (hi : CommitsProved w) (h : Meanwhile w w') : CommitsProved w' := by
  intro x hx
  rw [h.proved]
  rw [h.commits] at hx
  exact hi x hx

theorem meanwhile_event (n : Event) (w : World) : Meanwhile w (event n w) := by
  cases n with
  | wpaEnds => exact ⟨rfl, rfl, rfl, rfl, .inr rfl, id, .inl, id, .inl rfl⟩
  | started => exact ⟨rfl, rfl, rfl, rfl, .inl rfl, id, .inl, id, .inl rfl⟩
  | exits => exact ⟨rfl, rfl, rfl, rfl, .inl rfl, id, .inl, id, .inl rfl⟩

theorem sound : Sound pool unmissed logic where
  meets {t t' w w'} hne h := by
    cases t with
    | client => trivial
    | wifi =>
      cases t' with
      | wifi => exact absurd rfl hne
      | client => exact h
  world n t w := by
    cases t with
    | client => trivial
    | wifi => exact meanwhile_event n w
  world_inv n w hi := hi.meanwhile (meanwhile_event n w)
  job t j p w hj hi hidle := by
    cases t with
    | wifi =>
      cases j with
      | turn =>
        obtain rfl := Option.some.inj hj
        exact wp_turn hidle
      | _ => cases hj
    | client =>
      refine wp_keep (P := fun _ => True) (fun _ _ _ _ => trivial) ((all_client hj).mono (fun c hc e w hi _ _ => ?_)) trivial
      have h := exec_client hc e w
      exact ⟨h, hi.meanwhile h, trivial⟩

/-- **Only what was proven is committed.** In every run of the two threads in which no try file is renamed while one may
have been missed: every try file that replaced the official configuration held just what the session was started from
that had the connection and then the address. -/
theorem commits_proved (fs : Fs) (wpa : Option Conf) (running : Bool) (ls : List (Label Thread Job Outcome Event))
    (c : Cfg Call Call.Reply Thread World) (h : run pool unmissed ls (boot fs wpa running) = some c) :
    ∀ x ∈ c.st.hist.commits, x.session = some x.conf ∧ x.conf ∈ c.st.hist.proved := by
  have hboot : CfgOk pool unmissed logic (boot fs wpa running) := by
    refine ⟨fun x hx => absurd hx List.not_mem_nil, fun t => ?_⟩
    cases t with
    | wifi => exact wp_thread _
    | client => exact fun _ _ _ => trivial
  exact (sound.reaches hboot h).1

/-- The thread makes its next `n` calls, and all of them succeed. -/
def goes (t : Thread) (n : Nat) : List (Label Thread Job Outcome Event) := List.replicate n (.step t {})

/-- A try file is put in place and announced, tested and committed. -/
def tried : List (Label Thread Job Outcome Event) :=
  goes .wifi 2 ++ .take .client (.fallsafe (some newSsid) none) :: goes .client 7 ++
    .take .wifi .turn :: goes .wifi 12 ++ .take .wifi .turn :: goes .wifi 7 ++ .take .wifi .turn :: goes .wifi 8

theorem commits_proved_tried : ∃ c, run pool unmissed tried
    (boot (Fs.official oldConf 4096 (by decide)) none true) = some c ∧
    c.st.hist.commits = [⟨confHead ++ confOpen newSsid.bytes, some (confHead ++ confOpen newSsid.bytes)⟩] ∧
    ∀ x ∈ c.st.hist.commits, x.session = some x.conf ∧ x.conf ∈ c.st.hist.proved := by
  have hcommits : (run pool unmissed tried (boot (Fs.official oldConf 4096 (by decide)) none true)).map
      (·.st.hist.commits) = some [⟨confHead ++ confOpen newSsid.bytes, some (confHead ++ confOpen newSsid.bytes)⟩] := by
    decide +kernel
  obtain ⟨c, hrun, hc⟩ := Option.map_eq_some_iff.1 hcommits
  exact ⟨c, hrun, hc, commits_proved _ none true tried c hrun⟩

/-- The official configuration has a connection and an address; a try file comes after the look at the flag. -/
def overtaken : List (Label Thread Job Outcome Event) :=
  goes .wifi 2 ++ .take .wifi .turn :: goes .wifi 5 ++ .take .wifi .turn :: goes .wifi 11 ++
    .take .wifi .turn :: goes .wifi 7 ++ .take .wifi .turn :: goes .wifi 4 ++
    .take .client (.fallsafe (some newSsid) none) :: goes .client 5 ++ goes .wifi 3

/-- It is committed, though no session was ever started from it. -/
theorem commits_untried :
    ¬ ∀ (fs : Fs) (wpa : Option Conf) (running : Bool) (ls : List (Label Thread Job Outcome Event))
      (c : Cfg Call Call.Reply Thread World), run pool (fun _ _ _ _ => true) ls (boot fs wpa running) = some c →
      ∀ x ∈ c.st.hist.commits, x.session = some x.conf ∧ x.conf ∈ c.st.hist.proved := by
  intro h
  have hcommits : (run pool (fun _ _ _ _ => true) overtaken
      (boot (Fs.official oldConf 4096 (by decide)) none true)).map (·.st.hist.commits) =
      some [⟨confHead ++ confOpen newSsid.bytes, some oldConf⟩] := by
    decide +kernel
  obtain ⟨c, hrun, hc⟩ := Option.map_eq_some_iff.1 hcommits
  have hx := (h _ none true overtaken c hrun ⟨confHead ++ confOpen newSsid.bytes, some oldConf⟩ (by simp [hc])).1
  exact absurd hx (by decide +kernel)

end AlgaeBp.Wifi
