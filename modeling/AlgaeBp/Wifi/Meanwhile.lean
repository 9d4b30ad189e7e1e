import AlgaeBp.Wifi.Code
/-!
# The Wi-Fi thread and the other one

What holds at the points of the Wi-Fi thread where it matters, what the other
thread may do meanwhile, and the rules to reason with: an assertion the other
thread does not undo can be carried over any number of its steps.
-/
open Threads

namespace AlgaeBp.Wifi

/-! ## What is asserted -/

/-- What the try file's name shows. -/
def shown (w : World) : Option Conf := w.fs.content .tryConf

/-- A usable try file is the one with `conf` in it. -/
def Fits (conf : Conf) (w : World) : Prop := ∀ x, shown w = some x → configured x = true → x = conf

/-- The flag has been raised, or is going to be. -/
def Pending (w : World) : Prop := w.hist.late = true ∨ w.wifiRequestReset = true

/-- The session under way, if it is still there, was started from `conf`. -/
structure Tested (conf : Conf) (w : World) : Prop where
  wpa : w.wpa = some conf ∨ w.wpa = none
  fits : Fits conf w ∨ Pending w

/-- What holds between two turns of the Wi-Fi thread. -/
structure Idle (w : World) : Prop where
  connecting : w.wifiState = .connecting → ∃ conf, Tested conf w
  ipsetup : w.wifiState = .ipsetup → ∃ conf, Tested conf w ∧ w.hist.link = some conf

/-- The same, after the look at the flag. -/
structure Looked (w : World) : Prop where
  connecting : w.wifiState = .connecting → ∃ conf, Tested conf w
  ipsetup : w.wifiState = .ipsetup →
    ∃ conf, Tested conf w ∧ w.hist.link = some conf ∧ (Fits conf w ∨ w.hist.missed = true)

/-- Every commit was of what its session was started from, and that session had an address. -/
def CommitsProved (w : World) : Prop :=
  ∀ x ∈ w.hist.commits, x.session = some x.conf ∧ x.conf ∈ w.hist.proved

/-! ## What the others do meanwhile -/

/-- What the Wi-Fi thread may find changed between two of its calls. -/
structure Meanwhile (w w' : World) : Prop where
  wifiState : w'.wifiState = w.wifiState
  link : w'.hist.link = w.hist.link
  proved : w'.hist.proved = w.hist.proved
  commits : w'.hist.commits = w.hist.commits
  wpa : w'.wpa = w.wpa ∨ w'.wpa = none
  flag : w.wifiRequestReset = true → w'.wifiRequestReset = true
  late : w.hist.late = true → Pending w'
  missed : w.hist.missed = true → w'.hist.missed = true
  tryFile : shown w' = shown w ∨ shown w' = none ∨ (w'.hist.missed = true ∧ Pending w')

theorem Meanwhile.refl (w : World) : Meanwhile w w where
  wifiState := rfl
  link := rfl
  proved := rfl
  commits := rfl
  wpa := .inl rfl
  flag := id
  late := .inl
  missed := id
  tryFile := .inl rfl

theorem Meanwhile.pending {w w' : World} (h : Meanwhile w w') : Pending w → Pending w'
  | .inl hlate => h.late hlate
  | .inr hflag => .inr (h.flag hflag)

theorem Meanwhile.trans {w w' w'' : World} (h : Meanwhile w w') (h' : Meanwhile w' w'') : Meanwhile w w'' where
  wifiState := h'.wifiState.trans h.wifiState
  link := h'.link.trans h.link
  proved := h'.proved.trans h.proved
  commits := h'.commits.trans h.commits
  wpa := by
    rcases h'.wpa with heq | hnone
    · rw [heq]; exact h.wpa
    · exact .inr hnone
  flag hf := h'.flag (h.flag hf)
  late hl := h'.pending (h.late hl)
  missed hm := h'.missed (h.missed hm)
  tryFile := by
    rcases h'.tryFile with heq | hnone | hnew
    · rw [heq]
      rcases h.tryFile with heq' | hnone' | ⟨hm, hp⟩
      · exact .inl heq'
      · exact .inr (.inl hnone')
      · exact .inr (.inr ⟨h'.missed hm, h'.pending hp⟩)
    · exact .inr (.inl hnone)
    · exact .inr (.inr hnew)

/-- What is so of the try file stays so, or there is another one and it was missed. -/
theorem Meanwhile.try_or {w w' : World} (h : Meanwhile w w') {P : Option Conf → Prop} (hnone : P none)
    (hw : P (shown w)) : P (shown w') ∨ (w'.hist.missed = true ∧ Pending w') := by
  rcases h.tryFile with heq | hgone | hnew
  · exact .inl (heq ▸ hw)
  · exact .inl (hgone ▸ hnone)
  · exact .inr hnew

section Stable
variable {w w' : World} (h : Meanwhile w w') {conf : Conf}
include h

theorem Meanwhile.fits (hf : Fits conf w) : Fits conf w' ∨ (w'.hist.missed = true ∧ Pending w') :=
  h.try_or (P := fun o => ∀ x, o = some x → configured x = true → x = conf) (fun _ hx => by cases hx) hf

theorem Meanwhile.tested (ht : Tested conf w) : Tested conf w' where
  wpa := by
    rcases h.wpa with heq | hnone
    · rw [heq]; exact ht.wpa
    · exact .inr hnone
  fits := by
    rcases ht.fits with hf | hp
    · exact (h.fits hf).imp_right And.right
    · exact .inr (h.pending hp)

theorem Meanwhile.fits_or_missed (hf : Fits conf w ∨ w.hist.missed = true) : Fits conf w' ∨ w'.hist.missed = true := by
  rcases hf with hf | hm
  · exact (h.fits hf).imp_right And.left
  · exact .inr (h.missed hm)

theorem Meanwhile.idle (hi : Idle w) : Idle w' where
  connecting hs := (hi.connecting (h.wifiState ▸ hs)).imp (fun _ ht => h.tested ht)
  ipsetup hs := by
    obtain ⟨conf, ht, hlink⟩ := hi.ipsetup (h.wifiState ▸ hs)
    exact ⟨conf, h.tested ht, h.link.trans hlink⟩

theorem Meanwhile.looked (hl : Looked w) : Looked w' where
  connecting hs := (hl.connecting (h.wifiState ▸ hs)).imp (fun _ ht => h.tested ht)
  ipsetup hs := by
    obtain ⟨conf, ht, hlink, hf⟩ := hl.ipsetup (h.wifiState ▸ hs)
    exact ⟨conf, h.tested ht, h.link.trans hlink, h.fits_or_missed hf⟩

end Stable

/-! ## The other thread -/

/-- The calls of the provisioning functions. -/
def ClientCall : Call → Prop
  | .unlink _ | .rename _ _ | .fopen _ | .fprintf _ _ | .fclose _ | .wifiRunning => True
  | .setRequestReset b => b = true
  | _ => False

/-- They change files, or raise the flag. -/
theorem effect_client {c : Call} (hc : ClientCall c) (e : Outcome) (w : World) :
    (∃ fs, (effect e w c).2 = { w with fs := fs } ∧ c ≠ .setRequestReset true) ∨
      (c = .setRequestReset true ∧ (effect e w c).2 = { w with wifiRequestReset := true }) := by
  cases c with
  | unlink p =>
    refine .inl ?_
    simp only [effect]
    split
    · exact ⟨_, rfl, by simp⟩
    · exact ⟨w.fs, rfl, by simp⟩
  | rename p q =>
    refine .inl ?_
    simp only [effect, renameFile]
    split
    · exact ⟨w.fs, rfl, by simp⟩
    · split
      · exact ⟨_, rfl, by simp⟩
      · exact ⟨w.fs, rfl, by simp⟩
  | fopen p =>
    refine .inl ?_
    simp only [effect]
    split
    · exact ⟨_, rfl, by simp⟩
    · exact ⟨w.fs, rfl, by simp⟩
  | fprintf f bytes => exact .inl ⟨_, rfl, by simp⟩
  | fclose f => exact .inl ⟨_, rfl, by simp⟩
  | wifiRunning => exact .inl ⟨w.fs, rfl, by simp⟩
  | setRequestReset b =>
    obtain rfl : b = true := hc
    exact .inr ⟨rfl, rfl⟩
  | _ => exact hc.elim

theorem exec_client_fs {c : Call} {e : Outcome} {w : World} {fs : Fs} (hw : (effect e w c).2 = { w with fs := fs })
    (hc : c ≠ .setRequestReset true) : Meanwhile w (exec .client c e w).2 := by
  have hexec : (exec .client c e w).2 = { w with fs := fs, hist := clientWatch c w { w with fs := fs } } := by
    rw [← hw]
    simp only [exec, hw]
  rw [hexec, clientWatch, if_neg hc]
  split
  · exact ⟨rfl, rfl, rfl, rfl, .inl rfl, id, fun _ => .inl rfl, fun _ => rfl, .inr (.inr ⟨rfl, .inl rfl⟩)⟩
  · next hsame =>
    refine ⟨rfl, rfl, rfl, rfl, .inl rfl, id, .inl, id, ?_⟩
    by_cases heq : fs.content .tryConf = w.fs.content .tryConf
    · exact .inl heq
    · exact .inr (.inl (Classical.byContradiction (fun hne => hsame ⟨heq, hne⟩)))

theorem exec_client {c : Call} (hc : ClientCall c) (e : Outcome) (w : World) : Meanwhile w (exec .client c e w).2 := by
  rcases effect_client hc e w with ⟨fs, hw, hne⟩ | ⟨rfl, -⟩
  · exact exec_client_fs hw hne
  · exact ⟨rfl, rfl, rfl, rfl, .inl rfl, fun _ => rfl, fun _ => .inr rfl, id, .inl rfl⟩

theorem all_unlink (p : Path) : (unlink p).All ClientCall := .act trivial

theorem all_requestReset : requestReset.All ClientCall := by
  refine .bind (.act trivial) (fun b => ?_)
  cases b
  · exact trivial
  · exact .act rfl

theorem all_fprintfAll (f : Nat) (texts : List (List UInt8)) : (fprintfAll f texts).All ClientCall := by
  induction texts with
  | nil => exact trivial
  | cons text texts ih => exact .bind (.act trivial) (fun _ => ih)

theorem all_renamed (f : Nat) (r : Bool) : (renamed f r).All ClientCall := by
  cases r with
  | true => exact .bind (.act trivial) (fun _ => trivial)
  | false => exact .bind (all_unlink _) (fun _ => .bind (.act trivial) (fun _ => trivial))

theorem all_writeProvisionConf (ssid password : Option CStr) (cfg : Path) :
    (wifiWriteProvisionConf ssid password cfg).All ClientCall := by
  unfold wifiWriteProvisionConf
  dsimp only
  split
  · refine .bind (.act trivial) (fun fp => ?_)
    cases fp with
    | none => exact trivial
    | some f => exact .bind (all_fprintfAll f _) (fun _ => .bind (.act trivial) (fun r => all_renamed f r))
  · exact trivial

theorem all_provision (ssid password : Option CStr) : (appWifiProvision ssid password).All ClientCall := by
  unfold appWifiProvision
  split
  · exact .bind (all_unlink _) (fun _ => .bind (.bind (all_unlink _) (fun _ => trivial))
      (fun _ => .bind all_requestReset (fun _ => trivial)))
  · refine .bind (.bind (.bind (all_unlink _) (fun _ => trivial)) (fun _ => all_writeProvisionConf _ _ _)) (fun r => ?_)
    cases r with
    | true => exact .bind all_requestReset (fun _ => trivial)
    | false => exact trivial

theorem all_fallsafe (ssid password : Option CStr) : (appWifiProvisionFallsafe ssid password).All ClientCall := by
  unfold appWifiProvisionFallsafe
  split
  · exact .bind (.bind (all_unlink _) (fun _ => trivial)) (fun _ => .bind all_requestReset (fun _ => trivial))
  · refine .bind (all_writeProvisionConf _ _ _) (fun r => ?_)
    cases r with
    | true => exact .bind all_requestReset (fun _ => trivial)
    | false => exact trivial

theorem all_client {j : Job} {p : Code Unit} (h : job .client j = some p) : p.All ClientCall := by
  cases j with
  | turn => cases h
  | provision ssid password =>
    obtain rfl := Option.some.inj h
    exact .bind (all_provision _ _) (fun _ => trivial)
  | fallsafe ssid password =>
    obtain rfl := Option.some.inj h
    exact .bind (all_fallsafe _ _) (fun _ => trivial)
  | reload =>
    obtain rfl := Option.some.inj h
    exact all_requestReset

/-! ## Reasoning about the Wi-Fi thread -/

/-- The condition on runs: no try file is committed while one may have been missed. -/
def unmissed : Thread → Call → Outcome → World → Bool
  | .wifi, .rename .tryConf .conf, _, w => !w.hist.missed
  | _, _, _, _ => true

def logic : Logic Thread World where
  inv := CommitsProved
  rely
    | .wifi => Meanwhile
    | .client => fun _ _ => True
  guar
    | .wifi => fun _ _ => True
    | .client => Meanwhile
  idle
    | .wifi => Idle
    | .client => fun _ => True
  refl
    | .wifi => Meanwhile.refl
    | .client => fun _ => trivial
  trans {t} := match t with
    | .wifi => Meanwhile.trans
    | .client => fun _ _ => trivial

/-- What the others do not undo. -/
def Stable (P : World → Prop) : Prop := ∀ w w', Meanwhile w w' → P w → P w'

/-- From `w` the Wi-Fi thread gets through `p`, and then `Q` holds. -/
abbrev Wp {α : Type} (p : Code α) (Q : α → World → Prop) (w : World) : Prop := wp pool unmissed logic .wifi p Q w

/-- The renaming of a try file apart, no call adds a commit. -/
theorem wifiWatch_commits {c : Call} (hc : c ≠ .rename .tryConf .conf) (w : World) (r : c.Reply) :
    (wifiWatch w c r).commits = w.hist.commits ∧ ∀ x ∈ w.hist.proved, x ∈ (wifiWatch w c r).proved := by
  unfold wifiWatch
  split
  all_goals try split
  all_goals first
    | exact absurd rfl hc
    | exact ⟨rfl, fun x hx => hx⟩
    | exact ⟨rfl, fun x hx => List.mem_append_left _ hx⟩

theorem CommitsProved.keep {c : Call} {e : Outcome} {w : World} (h : CommitsProved w) (hc : c ≠ .rename .tryConf .conf) :
    CommitsProved (exec .wifi c e w).2 := by
  obtain ⟨hcommits, hproved⟩ := wifiWatch_commits hc w (effect e w c).1
  intro x hx
  have hx' : x ∈ w.hist.commits := hcommits ▸ hx
  exact ⟨(h x hx').1, hproved _ (h x hx').2⟩

/-- One call of the Wi-Fi thread. -/
theorem wp_one {c : Call} {P : World → Prop} {Q : c.Reply → World → Prop} {w : World} (hP : Stable P)
    (hQ : ∀ r, Stable (Q r)) (hc : c ≠ .rename .tryConf .conf)
    (h : ∀ e w, P w → Q (exec .wifi c e w).1 (exec .wifi c e w).2) (hw : P w) : Wp (Code.act c) Q w :=
  wp_act (fun w' hr hi e _ =>
    ⟨trivial, hi.keep hc, fun w'' hr' _ => hQ _ _ w'' hr' (h e w' (hP w w' hr hw))⟩)

/-- Calls that keep `P`. -/
theorem wp_keeps {α : Type} {p : Code α} {P : World → Prop} {w : World} (hP : Stable P)
    (h : p.All (fun c => c ≠ .rename .tryConf .conf ∧ ∀ e w, P w → P (exec .wifi c e w).2)) (hw : P w) :
    Wp p (fun _ => P) w :=
  wp_keep hP (h.mono (fun _ hc e w hi hw' _ => ⟨trivial, hi.keep hc.1, hc.2 e w hw'⟩)) hw

/-- Calls of the Wi-Fi thread that change nothing. -/
def Quiet : Call → Prop
  | .run .killDaemons | .run (.wpaSupplicant _) => False
  | .run _ | .writeFile | .ifaceReady | .wifiStateTimedOut | .wifiProcessExit | .wifiState | .read .conf => True
  | _ => False

theorem Quiet.exec {c : Call} (h : Quiet c) (e : Outcome) (w : World) : (exec .wifi c e w).2 = w := by
  cases c with
  | run cmd => cases cmd <;> first | exact h.elim | rfl
  | read p => cases p <;> first | exact h.elim | rfl
  | _ => first | exact h.elim | rfl

theorem wp_quiet {α : Type} {p : Code α} {P : World → Prop} {w : World} (hP : Stable P) (h : p.All Quiet) (hw : P w) :
    Wp p (fun _ => P) w := by
  refine wp_keeps hP (h.mono (fun c hc => ⟨?_, fun e w hw => ?_⟩)) hw
  · rintro rfl
    exact hc
  · rw [hc.exec]
    exact hw

theorem wp_ret {α : Type} {a : α} {Q : α → World → Prop} {w : World} (hQ : Stable (Q a)) (hw : Q a w) :
    Wp (pure a) Q w := wp_pure (fun w' hr _ => hQ w w' hr hw)

theorem stable_state (st : State) : Stable (fun w => w.wifiState = st) := fun _ _ h hs => h.wifiState.trans hs

theorem stable_idle : Stable Idle := fun _ _ h => h.idle

theorem stable_true : Stable (fun _ => True) := fun _ _ _ _ => trivial

theorem Stable.and {P Q : World → Prop} (hP : Stable P) (hQ : Stable Q) : Stable (fun w => P w ∧ Q w) :=
  fun w w' h hw => ⟨hP w w' h hw.1, hQ w w' h hw.2⟩

theorem wp_setState {st : State} {timeout : Nat} {P : World → Prop} {w : World} (hP : Stable P)
    (h : ∀ w, P w → ∀ d, Idle { w with wifiState := st, deadline := d }) (hw : P w) :
    Wp (wifiSetState st timeout) (fun _ => Idle) w :=
  wp_one hP (fun _ => stable_idle) (by simp) (fun e w hw => h w hw _) hw

/-- In a state without a session to judge there is nothing to keep. -/
theorem idle_of {w : World} (hc : w.wifiState ≠ .connecting) (hi : w.wifiState ≠ .ipsetup) : Idle w :=
  ⟨fun h => absurd h hc, fun h => absurd h hi⟩

theorem wp_setState_idle {st : State} (hc : st ≠ .connecting) (hi : st ≠ .ipsetup) (timeout : Nat) (w : World) :
    Wp (wifiSetState st timeout) (fun _ => Idle) w :=
  wp_setState stable_true (fun _ _ _ => idle_of hc hi) trivial

end AlgaeBp.Wifi
