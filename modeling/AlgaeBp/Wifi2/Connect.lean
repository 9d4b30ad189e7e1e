import AlgaeBp.Lib.Runs
import AlgaeBp.Wifi.Files
import AlgaeBp.Wifi2.Machine
/-!
# Connecting

`wificonn` gives `wpa_supplicant` a network at once; `wificfg` stores it, and
the machine gives it on when it comes to `ST_WPASUP_CONNECT`.
`wificfg_connects_iff` says when that is the same. `wificfg_rejected_iff` says
when a `wificfg` that fails has changed nothing.
-/
open Runs
open AlgaeBp.Wifi (text)

namespace AlgaeBp.Wifi2

/-! ## What `wpa_supplicant` is told -/

/-- `wpa_supplicant`, as one call of `wpasup_network_connect` finds it. -/
structure Supplicant where
  /-- The control connection is open, or can be opened. -/
  opens : Bool
  /-- What the n-th command is answered with, if the request succeeds. -/
  reply : Nat → Option (List UInt8)

/-- Code that may fail; the commands sent so far are kept. -/
abbrev Talk := OptionT (StateM (List (List UInt8)))

/-- `wpasup_cmdsf`, with what is received in a buffer that takes `replySz` bytes. -/
def wpasupCmdsf (sup : Supplicant) (replySz cmdSz : Nat) (cmd : List UInt8) : Talk (List UInt8) := .mk fun sent =>
  if cmd.length < cmdSz ∧ sup.opens = true then ((sup.reply sent.length).map (·.take replySz), sent ++ [cmd])
  else (none, sent)

def tolower (c : UInt8) : UInt8 := if 65 ≤ c ∧ c ≤ 90 then c + 32 else c

/-- `strncasecmp(reply, "OK\n", 3) == 0`. -/
def isOk (reply : List UInt8) : Bool := (reply.take 3).map tolower = text "ok\n"

/-- A command that has to be answered `OK`. Its `reply_sz` is what the last reply took, and is given on. -/
def wpasupOk (sup : Supplicant) (replySz : Nat) (cmd : List UInt8) : Talk Nat := do
  let reply ← wpasupCmdsf sup replySz 256 cmd
  if isOk reply then pure reply.length else failure

/-- The string in a reply buffer is `"0\n"`. -/
def isIndex (reply : List UInt8) : Bool := reply.takeWhile (· ≠ 0) = text "0\n"

def wpasupAddNetwork (sup : Supplicant) : Talk Unit := do
  let reply ← wpasupCmdsf sup 32 32 (text "ADD_NETWORK")
  if isIndex reply then pure () else failure

def setSsid (ssid : List UInt8) : List UInt8 := text "SET_NETWORK 0 ssid \"" ++ ssid ++ text "\""
def setPsk (psk : List UInt8) : List UInt8 := text "SET_NETWORK 0 psk \"" ++ psk ++ text "\""

/-- `wpasup_network_connect` up to the SSID. -/
def connectSsid (sup : Supplicant) (ssid : List UInt8) : Talk Nat := do
  let replySz ← wpasupOk sup 32 (text "FLUSH")
  wpasupAddNetwork sup
  let replySz ← wpasupOk sup replySz (text "SET_NETWORK 0 scan_ssid 1")
  wpasupOk sup replySz (setSsid ssid)

/-- What it does with `flag`. -/
def connectSae (sup : Supplicant) (replySz : Nat) (psk : List UInt8) (flag : BitVec 32) : Talk Nat := do
  if flag ≠ 0 then
    let replySz ← wpasupOk sup replySz (setPsk psk)
    let replySz ← wpasupOk sup replySz (text "SET_NETWORK 0 key_mgmt SAE")
    wpasupOk sup replySz (text "SET_NETWORK 0 ieee80211w 2")
  else pure replySz

/-- What it does with `psk`, which is null in the first case. -/
def connectPsk (sup : Supplicant) (replySz : Nat) (flag : BitVec 32) : Option (List UInt8) → Talk Nat
  | none => wpasupOk sup replySz (text "SET_NETWORK 0 key_mgmt NONE")
  | some psk => do
    let replySz ← wpasupOk sup replySz (setPsk psk)
    connectSae sup replySz psk flag

def wpasupNetworkConnect (sup : Supplicant) (ssid : List UInt8) (psk : Option (List UInt8)) (flag : BitVec 32) :
    Talk Unit := do
  let replySz ← connectSsid sup ssid
  let replySz ← connectPsk sup replySz flag psk
  let _ ← wpasupOk sup replySz (text "SELECT_NETWORK 0")
  return ()

/-- The commands sent. -/
def Talk.sent {α : Type} (m : Talk α) : List (List UInt8) := (m.run.run []).2

/-- `wificonn`. -/
def wificonn (sup : Supplicant) (ssid : List UInt8) (psk : Option (List UInt8)) (flag : BitVec 32) : Talk Unit :=
  wpasupNetworkConnect sup ssid psk flag

/-- `ST_WPASUP_CONNECT` on `network_apply`, whose `psk` is an array. -/
def connectApply (sup : Supplicant) (net : Network) : Talk Unit :=
  wpasupNetworkConnect sup net.ssid (some net.psk) net.flag

/-- The answers that let a call get past the SSID. -/
def Supplicant.Takes (sup : Supplicant) : Prop :=
  sup.opens = true ∧ (sup.reply 0).any isOk ∧ (sup.reply 1).any (fun reply => isIndex (reply.take 32)) ∧
    (sup.reply 2).any isOk ∧ (sup.reply 3).any isOk

instance (sup : Supplicant) : Decidable sup.Takes := inferInstanceAs (Decidable (_ ∧ _))

/-! ## How a call goes -/

theorem talk_bind {α β : Type} {m : Talk α} {f : α → Talk β} {sent sent' : List (List UInt8)} {a : α}
    (h : m.run.run sent = (some a, sent')) : (m >>= f).run.run sent = (f a).run.run sent' := by
  rw [OptionT.run_bind, Option.elimM, StateT.run_bind, h]
  rfl

theorem talk_bind_none {α β : Type} {m : Talk α} {f : α → Talk β} {sent sent' : List (List UInt8)}
    (h : m.run.run sent = (none, sent')) : (m >>= f).run.run sent = (none, sent') := by
  rw [OptionT.run_bind, Option.elimM, StateT.run_bind, h]
  rfl

theorem wpasupCmdsf_run {sup : Supplicant} (ho : sup.opens = true) (replySz : Nat) {cmdSz : Nat} {cmd : List UInt8}
    (hcmd : cmd.length < cmdSz) (sent : List (List UInt8)) :
    (wpasupCmdsf sup replySz cmdSz cmd).run.run sent = ((sup.reply sent.length).map (·.take replySz), sent ++ [cmd]) :=
  if_pos ⟨hcmd, ho⟩

theorem isOk_take {replySz : Nat} (h : 3 ≤ replySz) (reply : List UInt8) : isOk (reply.take replySz) = isOk reply := by
  unfold isOk
  rw [List.take_take, Nat.min_eq_left h]

theorem isOk_length {reply : List UInt8} (h : isOk reply = true) : 3 ≤ reply.length := by
  have hlen := congrArg List.length (of_decide_eq_true h)
  have htext : (text "ok\n").length = 3 := by decide
  rw [List.length_map, List.length_take, htext] at hlen
  omega

/-- **A command that has to be answered `OK`.** -/
theorem wpasupOk_run {sup : Supplicant} (ho : sup.opens = true) {replySz : Nat} (hsz : 3 ≤ replySz) {cmd : List UInt8}
    (hcmd : cmd.length < 256) (sent : List (List UInt8)) :
    ∃ got : Option Nat, (wpasupOk sup replySz cmd).run.run sent = (got, sent ++ [cmd]) ∧
      (got.isSome = (sup.reply sent.length).any isOk) ∧ ∀ n ∈ got, 3 ≤ n := by
  have hrun := wpasupCmdsf_run ho replySz hcmd sent
  unfold wpasupOk
  cases hreply : sup.reply sent.length with
  | none =>
    rw [hreply] at hrun
    exact ⟨none, talk_bind_none hrun, rfl, fun _ h => by cases h⟩
  | some reply =>
    rw [hreply] at hrun
    rw [talk_bind hrun]
    have hok := isOk_take hsz reply
    cases htake : isOk (reply.take replySz) with
    | true =>
      refine ⟨some (reply.take replySz).length, rfl, ?_, ?_⟩
      · simp [← hok, htake]
      · rintro n ⟨⟩
        exact isOk_length htake
    | false => exact ⟨none, rfl, by simp [← hok, htake], fun _ h => by cases h⟩

theorem wpasupAddNetwork_run {sup : Supplicant} (ho : sup.opens = true) (sent : List (List UInt8)) :
    ∃ got : Option Unit, (wpasupAddNetwork sup).run.run sent = (got, sent ++ [text "ADD_NETWORK"]) ∧
      got.isSome = (sup.reply sent.length).any (fun reply => isIndex (reply.take 32)) := by
  have hrun := wpasupCmdsf_run ho 32 (by decide : (text "ADD_NETWORK").length < 32) sent
  unfold wpasupAddNetwork
  cases hreply : sup.reply sent.length with
  | none =>
    rw [hreply] at hrun
    exact ⟨none, talk_bind_none hrun, rfl⟩
  | some reply =>
    rw [hreply] at hrun
    rw [talk_bind hrun]
    dsimp only
    cases htake : isIndex (reply.take 32) with
    | true => exact ⟨some (), rfl, by simp [htake]⟩
    | false => exact ⟨none, rfl, by simp [htake]⟩

theorem setSsid_length (ssid : List UInt8) : (setSsid ssid).length = ssid.length + 21 := by
  have hlen : (text "SET_NETWORK 0 ssid \"").length = 20 ∧ (text "\"").length = 1 := by decide
  rw [setSsid, List.length_append, List.length_append, hlen.1, hlen.2]
  omega

theorem setPsk_length (psk : List UInt8) : (setPsk psk).length = psk.length + 20 := by
  have hlen : (text "SET_NETWORK 0 psk \"").length = 19 ∧ (text "\"").length = 1 := by decide
  rw [setPsk, List.length_append, List.length_append, hlen.1, hlen.2]
  omega

/-- **A call gets past the SSID, or stops whatever would come next.** -/
theorem connectSsid_run (sup : Supplicant) {ssid : List UInt8} (hssid : ssid.length ≤ 63) :
    (sup.Takes ∧ ∃ n, 3 ≤ n ∧ (connectSsid sup ssid).run.run [] =
      (some n, [text "FLUSH", text "ADD_NETWORK", text "SET_NETWORK 0 scan_ssid 1", setSsid ssid])) ∨
    (¬ sup.Takes ∧ ∃ sent, (connectSsid sup ssid).run.run [] = (none, sent)) := by
  have hset : (setSsid ssid).length < 256 := by
    rw [setSsid_length]
    omega
  cases ho : sup.opens with
  | false =>
    have hclosed : (wpasupCmdsf sup 32 256 (text "FLUSH")).run.run [] = (none, []) := if_neg (by simp [ho])
    exact .inr ⟨fun h => Bool.noConfusion (ho.symm.trans h.1), [], talk_bind_none (talk_bind_none hclosed)⟩
  | true =>
    -- The first command that is not answered as it should be ends the call.
    obtain ⟨got, hflush, hgot, hn⟩ := wpasupOk_run ho (by decide : 3 ≤ 32) (by decide : (text "FLUSH").length < 256) []
    cases got with
    | none => exact .inr ⟨fun h => by simp [h.2.1] at hgot, _, talk_bind_none hflush⟩
    | some n =>
      have hfirst := hn n rfl
      obtain ⟨gadd, hadd, hgadd⟩ := wpasupAddNetwork_run ho [text "FLUSH"]
      cases gadd with
      | none =>
        refine .inr ⟨fun h => by simp [h.2.2.1] at hgadd, [text "FLUSH", text "ADD_NETWORK"], ?_⟩
        exact (talk_bind hflush).trans (talk_bind_none hadd)
      | some u =>
        obtain ⟨gscan, hscan, hgscan, hn'⟩ := wpasupOk_run ho hfirst
          (by decide : (text "SET_NETWORK 0 scan_ssid 1").length < 256) [text "FLUSH", text "ADD_NETWORK"]
        cases gscan with
        | none =>
          refine .inr ⟨fun h => by simp [h.2.2.2.1] at hgscan,
            [text "FLUSH", text "ADD_NETWORK", text "SET_NETWORK 0 scan_ssid 1"], ?_⟩
          exact (talk_bind hflush).trans ((talk_bind hadd).trans (talk_bind_none hscan))
        | some n' =>
          obtain ⟨gssid, hsent, hgssid, hn''⟩ := wpasupOk_run ho (hn' n' rfl) hset
            [text "FLUSH", text "ADD_NETWORK", text "SET_NETWORK 0 scan_ssid 1"]
          have hall : (connectSsid sup ssid).run.run [] =
              (gssid, [text "FLUSH", text "ADD_NETWORK", text "SET_NETWORK 0 scan_ssid 1", setSsid ssid]) :=
            (talk_bind hflush).trans ((talk_bind hadd).trans ((talk_bind hscan).trans hsent))
          cases gssid with
          | none => exact .inr ⟨fun h => by simp [h.2.2.2.2] at hgssid, _, hall⟩
          | some n'' =>
            refine .inl ⟨⟨ho, ?_, ?_, ?_, ?_⟩, n'', hn'' n'' rfl, hall⟩
            · exact hgot.symm
            · exact hgadd.symm
            · exact hgscan.symm
            · exact hgssid.symm

/-- What was sent stays sent. -/
def Talk.Extends {α : Type} (m : Talk α) : Prop := ∀ sent, sent <+: (m.run.run sent).2

theorem Talk.Extends.bind {α β : Type} {m : Talk α} {f : α → Talk β} (hm : m.Extends) (hf : ∀ a, (f a).Extends) :
    (m >>= f).Extends := by
  intro sent
  have hsent := hm sent
  rcases h : m.run.run sent with ⟨got, sent'⟩
  rw [h] at hsent
  cases got with
  | none => rwa [talk_bind_none h]
  | some a =>
    rw [talk_bind h]
    exact hsent.trans (hf a sent')

theorem wpasupCmdsf_extends (sup : Supplicant) (replySz cmdSz : Nat) (cmd : List UInt8) :
    (wpasupCmdsf sup replySz cmdSz cmd).Extends := by
  intro sent
  show sent <+: (if cmd.length < cmdSz ∧ sup.opens = true then _ else _ : Option (List UInt8) × List (List UInt8)).2
  split
  · exact List.prefix_append sent [cmd]
  · exact List.prefix_refl sent

theorem wpasupOk_extends (sup : Supplicant) (replySz : Nat) (cmd : List UInt8) :
    (wpasupOk sup replySz cmd).Extends := by
  apply (wpasupCmdsf_extends sup replySz 256 cmd).bind
  intro reply sent
  cases isOk reply <;> exact List.prefix_refl sent

theorem connectSae_extends (sup : Supplicant) (replySz : Nat) (psk : List UInt8) (flag : BitVec 32) :
    (connectSae sup replySz psk flag).Extends := by
  unfold connectSae
  split
  · apply (wpasupOk_extends sup replySz _).bind
    intro replySz
    apply (wpasupOk_extends sup replySz _).bind
    intro replySz
    exact wpasupOk_extends sup replySz _
  · exact fun sent => List.prefix_refl sent

/-- The command that says how to authenticate. -/
def keyCommand : Option (List UInt8) → List UInt8
  | none => text "SET_NETWORK 0 key_mgmt NONE"
  | some psk => setPsk psk

theorem connectPsk_sent {sup : Supplicant} (ho : sup.opens = true) {replySz : Nat} (hsz : 3 ≤ replySz)
    {psk : Option (List UInt8)} (hpsk : ∀ p ∈ psk, p.length ≤ 99) (flag : BitVec 32) (sent : List (List UInt8)) :
    sent ++ [keyCommand psk] <+: ((connectPsk sup replySz flag psk).run.run sent).2 := by
  cases psk with
  | none =>
    obtain ⟨got, hrun, -⟩ := wpasupOk_run ho hsz (by decide : (text "SET_NETWORK 0 key_mgmt NONE").length < 256) sent
    rw [connectPsk, hrun]
    exact List.prefix_refl _
  | some p =>
    have hshort : (setPsk p).length < 256 := by
      have hp := hpsk p rfl
      rw [setPsk_length]
      omega
    obtain ⟨got, hrun, -⟩ := wpasupOk_run ho hsz hshort sent
    rw [connectPsk]
    cases got with
    | none =>
      rw [talk_bind_none hrun]
      exact List.prefix_refl _
    | some n =>
      rw [talk_bind hrun]
      exact connectSae_extends sup n p flag _

/-- What is sent once the SSID is taken. -/
theorem sent_of_takes {sup : Supplicant} (hs : sup.Takes) {ssid : List UInt8} (hssid : ssid.length ≤ 63)
    {psk : Option (List UInt8)} (hpsk : ∀ p ∈ psk, p.length ≤ 99) (flag : BitVec 32) :
    [text "FLUSH", text "ADD_NETWORK", text "SET_NETWORK 0 scan_ssid 1", setSsid ssid, keyCommand psk] <+:
      (wpasupNetworkConnect sup ssid psk flag).sent := by
  obtain ⟨-, n, hn, hrun⟩ | ⟨hno, -⟩ := connectSsid_run sup hssid
  · have hkey := connectPsk_sent hs.1 hn hpsk flag
      [text "FLUSH", text "ADD_NETWORK", text "SET_NETWORK 0 scan_ssid 1", setSsid ssid]
    unfold Talk.sent wpasupNetworkConnect
    rw [talk_bind hrun]
    rcases hgot : (connectPsk sup n flag psk).run.run
      [text "FLUSH", text "ADD_NETWORK", text "SET_NETWORK 0 scan_ssid 1", setSsid ssid] with ⟨got, sent⟩
    rw [hgot] at hkey
    cases got with
    | none => rwa [talk_bind_none hgot]
    | some n' =>
      rw [talk_bind hgot]
      have hlast : ∀ _ : Nat, Talk.Extends (pure ()) := fun _ sent => List.prefix_refl sent
      exact hkey.trans ((wpasupOk_extends sup n' _).bind hlast sent)
  · exact absurd hs hno

/-- What is sent when the SSID is not taken. -/
theorem sent_of_not_takes {sup : Supplicant} (hs : ¬ sup.Takes) {ssid : List UInt8} (hssid : ssid.length ≤ 63)
    (psk psk' : Option (List UInt8)) (flag : BitVec 32) :
    (wpasupNetworkConnect sup ssid psk flag).sent = (wpasupNetworkConnect sup ssid psk' flag).sent := by
  obtain ⟨htakes, -⟩ | ⟨-, sent, hrun⟩ := connectSsid_run sup hssid
  · exact absurd htakes hs
  · unfold Talk.sent wpasupNetworkConnect
    rw [talk_bind_none hrun, talk_bind_none hrun]

/-- **An absent passphrase is not an empty one**, unless nothing is said about either. -/
theorem sent_absent_iff (sup : Supplicant) {ssid : List UInt8} (hssid : ssid.length ≤ 63) (flag : BitVec 32) :
    (wpasupNetworkConnect sup ssid (some []) flag).sent = (wpasupNetworkConnect sup ssid none flag).sent ↔ ¬ sup.Takes := by
  constructor
  · intro heq hs
    have hempty := sent_of_takes hs hssid (by simp : ∀ p ∈ some ([] : List UInt8), p.length ≤ 99) flag
    have habsent := sent_of_takes hs hssid (by simp : ∀ p ∈ (none : Option (List UInt8)), p.length ≤ 99) flag
    rw [heq] at hempty
    have hsame := (List.prefix_of_prefix_length_le hempty habsent (Nat.le_refl _)).eq_of_length rfl
    simp only [List.cons.injEq, true_and, and_true] at hsame
    exact absurd hsame (by decide)
  · intro hs
    exact sent_of_not_takes hs hssid _ _ flag

/-! ## Which network the machine connects -/

/-- `wificfg` aside, the network stays, and no other is connected. -/
structure Connects (s s' : St) : Prop where
  network : s'.network = s.network
  acts : ∃ as, s'.acts = s.acts ++ as ∧ ∀ net, .networkConnect net ∈ as → net = s.network

theorem Connects.quiet {s s' : St} (hnet : s'.network = s.network) (hacts : s'.acts = s.acts) : Connects s s' :=
  ⟨hnet, [], hacts.trans (List.append_nil _).symm, fun _ h => absurd h List.not_mem_nil⟩

theorem Connects.act {a : Act} {s : St} (h : ∀ net, a = .networkConnect net → net = s.network) :
    Connects s (s.act a) :=
  ⟨rfl, [a], rfl, fun net hmem => h net (List.mem_singleton.1 hmem).symm⟩

theorem Connects.trans {s s' s'' : St} (h : Connects s s') (h' : Connects s' s'') : Connects s s'' := by
  obtain ⟨as, hacts, has⟩ := h.acts
  obtain ⟨as', hacts', has'⟩ := h'.acts
  refine ⟨h'.network.trans h.network, as ++ as', ?_, ?_⟩
  · rw [hacts', hacts, List.append_assoc]
  · intro net hmem
    rcases List.mem_append.1 hmem with hmem | hmem
    · exact has net hmem
    · exact (has' net hmem).trans h.network

theorem connects_moves : Moves Connects where
  refl _ := .quiet rfl rfl
  trans := Connects.trans
  act _ _ _ _ h := .act h
  timer _ _ := .quiet rfl rfl
  smGoto _ _ := .quiet rfl rfl
  ping _ _ := .quiet rfl rfl

theorem connects_runSm (stin : Stin) (s : St) : Connects s (runSm stin s) :=
  (Connects.act (a := .runSm stin) (fun _ => Act.noConfusion)).trans (connects_moves.smLoop stin _)

theorem connects_runAll (ins : List Stin) (s : St) : Connects s (runAll ins s) := by
  induction ins generalizing s with
  | nil => exact .quiet rfl rfl
  | cons stin ins ih => exact (connects_runSm stin s).trans (ih _)

theorem connects_onReady (ready : Ready) (s : St) : Connects s (onReady ready s) := by
  cases ready with
  | rtnl msgs =>
    rw [onReady, handleRtnl_eq]
    exact (connects_runAll _ s).trans (.quiet rfl rfl)
  | timer =>
    have hread : Connects s (s.act (.timerRead s.timer s.state)) := .act (fun _ => Act.noConfusion)
    unfold onReady onTimer
    dsimp only
    split
    · exact hread.trans (.quiet rfl rfl)
    · exact hread.trans ((connects_moves.timer .disarmed _).trans (connects_runSm .timeout _))

theorem connects_epollCb (batch : List (Bool × Ready)) (s : St) : Connects s (epollCb batch s) := by
  induction batch generalizing s with
  | nil => exact .quiet rfl rfl
  | cons b batch ih =>
    obtain ⟨expires, ready⟩ := b
    unfold epollCb
    split
    · exact .quiet rfl rfl
    · have hexp : Connects s (if expires then s.expire else s) := by
        cases expires <;> exact .quiet rfl rfl
      exact hexp.trans ((connects_onReady ready _).trans (ih _))

def Event.configures : Event → Bool
  | .wificfg _ _ _ => true
  | _ => false

theorem connects_happen {e : Event} (he : e.configures = false) (s : St) : Connects s (happen s e) := by
  cases e with
  | wificfg ssid psk flag => cases he
  | state st => exact (connects_moves.smGoto st s).trans (connects_runSm .enter _)
  | timer ms => exact connects_moves.timerSet ms s
  | expire => exact .quiet rfl rfl
  | poll batch => exact connects_epollCb batch s

/-- **A run without `wificfg` connects the network that was stored at first, and no other.** -/
theorem connects_run {s s' : St} {es : List Event} (hes : ∀ e ∈ es, e.configures = false)
    (hr : run step es s = some s') : Connects s s' := by
  refine Steps.inv (C := fun _ e => e.configures = false) (steps_of_forall (fun e he _ => hes e he)) (.quiet rfl rfl) ?_ hr
  intro s' e s'' hs he hstep
  obtain ⟨-, rfl⟩ := step_eq_some hstep
  exact hs.trans (connects_happen he s')

theorem Connects.eq {s s' : St} {net : Network} (h : Connects s s')
    (hnet : .networkConnect net ∈ s'.acts.drop s.acts.length) : net = s.network := by
  obtain ⟨as, hacts, has⟩ := h.acts
  rw [hacts, List.drop_left] at hnet
  exact has net hnet

/-! ## The two ways to connect -/

theorem snprintf_fits {size : Nat} {str : List UInt8} (hne : str ≠ []) (hlen : str.length < size) :
    snprintf size str = (str, true) := by
  unfold snprintf
  rw [List.take_of_length_le (by omega)]
  simp [hne, hlen]

/-- A `wificfg` that is accepted stores what it was given, and nothing where it was given no passphrase. -/
theorem wificfg_accepted {ssid : List UInt8} (hssid : ssid ≠ [] ∧ ssid.length ≤ 63) {psk : Option (List UInt8)}
    (hpsk : ∀ p ∈ psk, p ≠ [] ∧ p.length ≤ 99) (flag : BitVec 32) (s : St) :
    (wificfg (some ssid) psk flag s).2 =
      runSm .enter { s with network := ⟨ssid, psk.getD [], flag⟩, networkApply := true, state := .init } := by
  have hfit := snprintf_fits hssid.1 (by omega : ssid.length < 64)
  unfold wificfg
  simp only [Option.getD_some, hssid.1, if_false, hfit, if_true]
  cases psk with
  | none => rfl
  | some p =>
    obtain ⟨hne, hlen⟩ := hpsk p rfl
    simp only [Option.map_some, Option.getD_some, snprintf_fits hne (by omega : p.length < 100), if_true]

/-- **When both ways to connect tell `wpa_supplicant` the same.** After a `wificfg`, the machine sends the commands of
the `wificonn` with the same arguments just when there is a passphrase, or when the answers end the call before it
comes to the passphrase. -/
theorem wificfg_connects_iff (ssid : List UInt8) (psk : Option (List UInt8)) (flag : BitVec 32)
    (hssid : ssid ≠ [] ∧ ssid.length ≤ 63) (hpsk : ∀ p ∈ psk, p ≠ [] ∧ p.length ≤ 99) (s s' : St) (es : List Event)
    (hes : ∀ e ∈ es, e.configures = false) (hr : run step (.wificfg (some ssid) psk flag :: es) s = some s')
    (net : Network) (hnet : .networkConnect net ∈ s'.acts.drop s.acts.length) (sup : Supplicant) :
    (connectApply sup net).sent = (wificonn sup ssid psk flag).sent ↔ psk.isSome = true ∨ ¬ sup.Takes := by
  obtain ⟨s₁, hstep, hrun⟩ := Option.bind_eq_some_iff.1 hr
  obtain ⟨-, rfl⟩ := step_eq_some hstep
  rw [happen, wificfg_accepted hssid hpsk] at hrun
  -- What is stored is connected, whatever happens on the way.
  have hstored : net = ⟨ssid, psk.getD [], flag⟩ :=
    ((connects_runSm .enter _).trans (connects_run hes hrun)).eq hnet
  subst hstored
  cases psk with
  | some p => exact iff_of_true rfl (.inl rfl)
  | none =>
    refine (sent_absent_iff sup hssid.2 flag).trans ?_
    simp

/-- The timer expires, and the interface comes up. -/
def comingUp : List Event := [.expire, .poll [(false, .timer)], .poll [(false, .rtnl [.link 3 iffUp])]]

/-- Every command is taken. -/
def obliging : Supplicant := ⟨true, fun n => some (if n = 1 then text "0\n" else text "OK\n")⟩

theorem comingUp_connects : ∃ s', run step (.wificfg (some [65]) none 0 :: comingUp) (boot 0 3 (fun _ => true)) = some s' ∧
    .networkConnect ⟨[65], [], 0⟩ ∈ s'.acts.drop (boot 0 3 (fun _ => true)).acts.length := by
  have hacts : (run step (.wificfg (some [65]) none 0 :: comingUp) (boot 0 3 (fun _ => true))).map
      (fun s => (s.acts.drop 0).contains (.networkConnect ⟨[65], [], 0⟩)) = some true := by decide +kernel
  obtain ⟨s', hr, hnet⟩ := Option.map_eq_some_iff.1 hacts
  exact ⟨s', hr, List.contains_iff_mem.1 hnet⟩

theorem wificfg_connects_open :
    (connectApply obliging ⟨[65], [], 0⟩).sent ≠ (wificonn obliging [65] none 0).sent := by
  obtain ⟨s', hr, hnet⟩ := comingUp_connects
  intro heq
  have h := (wificfg_connects_iff [65] none 0 (by decide) (by simp) _ s' comingUp (by decide) hr _ hnet obliging).1 heq
  exact absurd h (by decide +kernel)

/-- A network without a passphrase. `wificonn` asks for `key_mgmt NONE`, the machine sets an empty passphrase. -/
theorem wificfg_connects_otherwise :
    ¬ ∀ (ssid : List UInt8) (psk : Option (List UInt8)) (flag : BitVec 32), ssid ≠ [] ∧ ssid.length ≤ 63 →
      (∀ p ∈ psk, p ≠ [] ∧ p.length ≤ 99) → ∀ (s s' : St) (es : List Event), (∀ e ∈ es, e.configures = false) →
      run step (.wificfg (some ssid) psk flag :: es) s = some s' → ∀ net,
      .networkConnect net ∈ s'.acts.drop s.acts.length → ∀ sup : Supplicant,
      (connectApply sup net).sent = (wificonn sup ssid psk flag).sent := by
  intro h
  obtain ⟨s', hr, hnet⟩ := comingUp_connects
  have heq := h [65] none 0 (by decide) (by simp) _ s' comingUp (by decide) hr _ hnet obliging
  exact absurd heq (by decide +kernel)

/-! ## A `wificfg` that fails -/

/-- What a `wificfg` that fails leaves behind. -/
theorem wificfg_rejected {ssid psk : Option (List UInt8)} {flag : BitVec 32} {s : St}
    (h : (wificfg ssid psk flag s).1 = -1) :
    (wificfg ssid psk flag s).2 = if (ssid.getD []).length < 64 then
      { s with network := { s.network with ssid := ssid.getD [], psk := (psk.getD []).take 99 } }
    else { s with network := { s.network with ssid := (ssid.getD []).take 63 } } := by
  unfold wificfg at h ⊢
  dsimp only at h ⊢
  by_cases hne : ssid.getD [] = []
  · rw [if_pos hne] at h
    cases h
  · rw [if_neg hne] at h ⊢
    by_cases hlen : (ssid.getD []).length < 64
    · rw [snprintf_fits hne hlen] at h ⊢
      cases psk with
      | none => cases h
      | some p =>
        simp only [Option.map_some, Option.getD_some, if_true] at h ⊢
        rw [if_pos hlen]
        split at h
        · cases h
        · next hp => rw [if_neg hp]; rfl
    · have hlong : (snprintf 64 (ssid.getD [])).2 = false := by
        unfold snprintf
        simp [hlen]
      rw [hlong, if_neg Bool.false_ne_true, if_neg hlen]
      rfl

/-- **When a `wificfg` that fails has changed nothing.** The record, the pointer and the state are as before, and the
machine goes on to connect the network it had, just when what was written over the record was there already: the SSID
cut to 63 bytes and, if it was not too long, the passphrase cut to 99. -/
theorem wificfg_rejected_iff (ssid psk : Option (List UInt8)) (flag : BitVec 32) (s : St)
    (h : (wificfg ssid psk flag s).1 = -1) :
    ((wificfg ssid psk flag s).2.network = s.network ∧ (wificfg ssid psk flag s).2.networkApply = s.networkApply ∧
      (wificfg ssid psk flag s).2.state = s.state ∧
      ∀ es s', (∀ e ∈ es, e.configures = false) → run step es (wificfg ssid psk flag s).2 = some s' →
        ∀ net, .networkConnect net ∈ s'.acts.drop s.acts.length → net = s.network) ↔
      if (ssid.getD []).length < 64 then s.network.ssid = ssid.getD [] ∧ s.network.psk = (psk.getD []).take 99
      else s.network.ssid = (ssid.getD []).take 63 := by
  have hrej := wificfg_rejected h
  have hacts : (wificfg ssid psk flag s).2.acts = s.acts := by
    rw [hrej]
    split <;> rfl
  have hpart : (wificfg ssid psk flag s).2.networkApply = s.networkApply ∧ (wificfg ssid psk flag s).2.state = s.state := by
    rw [hrej]
    split <;> exact ⟨rfl, rfl⟩
  have hnetwork : (wificfg ssid psk flag s).2.network = s.network ↔
      if (ssid.getD []).length < 64 then s.network.ssid = ssid.getD [] ∧ s.network.psk = (psk.getD []).take 99
      else s.network.ssid = (ssid.getD []).take 63 := by
    rw [hrej]
    rcases s.network with ⟨ssid', psk', flag'⟩
    split
    · simp [eq_comm]
    · simp [eq_comm]
  rw [← hnetwork]
  constructor
  · exact fun h => h.1
  · intro hnet
    refine ⟨hnet, hpart.1, hpart.2, fun es s' hes hr net hmem => ?_⟩
    rw [← hacts] at hmem
    exact ((connects_run hes hr).eq hmem).trans hnet

/-- The machine is connected to a network. -/
def athome : St :=
  { boot 0 3 (fun _ => true) with network := ⟨text "home", text "password1", 0⟩, networkApply := true, state := .mon }

theorem wificfg_rejected_athome : ¬ ((wificfg (some (text "other")) (some []) 0 athome).2.network = athome.network ∧
    (wificfg (some (text "other")) (some []) 0 athome).2.networkApply = athome.networkApply ∧
    (wificfg (some (text "other")) (some []) 0 athome).2.state = athome.state ∧
    ∀ es s', (∀ e ∈ es, e.configures = false) →
      run step es (wificfg (some (text "other")) (some []) 0 athome).2 = some s' →
      ∀ net, .networkConnect net ∈ s'.acts.drop athome.acts.length → net = athome.network) := by
  rw [wificfg_rejected_iff _ _ 0 athome (by decide)]
  decide

/-- The next network comes with an empty passphrase. That is refused, but from then on the old name is gone, and the
old passphrase too. -/
theorem wificfg_rejected_changes :
    ¬ ∀ (ssid psk : Option (List UInt8)) (flag : BitVec 32) (s : St), (wificfg ssid psk flag s).1 = -1 →
      (wificfg ssid psk flag s).2.network = s.network ∧ (wificfg ssid psk flag s).2.networkApply = s.networkApply ∧
        (wificfg ssid psk flag s).2.state = s.state ∧
        ∀ es s', (∀ e ∈ es, e.configures = false) → run step es (wificfg ssid psk flag s).2 = some s' →
          ∀ net, .networkConnect net ∈ s'.acts.drop s.acts.length → net = s.network := by
  intro h
  have hnet := (h (some (text "other")) (some []) 0 athome (by decide)).1
  exact absurd hnet (by decide)

end AlgaeBp.Wifi2
