import AlgaeBp.Lib.Threads
import AlgaeBp.Wifi.Files
/-!
# Wi-Fi provisioning

The Wi-Fi thread of `app_network.c` drives `wpa_supplicant` and friends through
a state machine; another thread provisions credentials by writing the official
or the try configuration and raising `wifi_request_reset`.

The code is a tree of calls: library calls on the configuration files,
commands and checks answered by the daemons, and accesses to the variables the
two threads share. What a call comes out as is an `Outcome`, chosen from
outside. Log messages and delays are left out.
-/
open Threads

namespace AlgaeBp.Wifi

/-! ## Calls -/

/-- `WIFI_STATE_*`. -/
inductive State where
  | init
  | reset
  | provisioning
  | connecting
  | ipsetup
  | connected
  deriving DecidableEq, Repr

/-- The commands given to `wifi_run`. -/
inductive Cmd where
  | killDaemons
  | addrFlush
  | linkDown
  | linkUp
  | killUdhcpc
  | udhcpc
  | ifconfig
  | hostapd
  | dnsmasq
  | wpaSupplicant (cfg : Path)
  deriving DecidableEq, Repr

inductive Call where
  /-- The file is opened, read and closed by `wpasup_network_configured`. -/
  | read (p : Path)
  | unlink (p : Path)
  | rename (p q : Path)
  | fopen (p : Path)
  | fprintf (f : Nat) (bytes : List UInt8)
  | fclose (f : Nat)
  /-- `wifi_write_file` of what `hostapd` and `dnsmasq` are told, which nothing here reads. -/
  | writeFile
  | run (cmd : Cmd)
  | ifaceReady
  | wpaConnected
  | ipConfigured
  | wifiRunning
  | wifiProcessExit
  | wifiRequestReset
  | setRequestReset (b : Bool)
  | wifiState
  | wifiSetState (st : State) (timeout : Nat)
  | wifiStateTimedOut
  deriving DecidableEq

def Call.Reply : Call → Type
  | read _ => Option Conf
  | fopen _ => Option Nat
  | fprintf _ _ => Unit
  | fclose _ => Unit
  | setRequestReset _ => Unit
  | wifiState => State
  | wifiSetState _ _ => Unit
  | _ => Bool

/-- How a call comes out. -/
structure Outcome where
  /-- Whether it succeeds, or the answer is yes. -/
  ok : Bool := true
  /-- Whether a daemon is left running all the same. -/
  left : Bool := false
  /-- `time(NULL)`. -/
  now : Nat := 0
  /-- How much the calls of `write` take. -/
  taken : List Nat := []

inductive Thread where
  | wifi
  | client
  deriving DecidableEq, Repr

/-- A commit of the try file: what it held, and what the session that had shown it to work was started from. -/
structure Commit where
  conf : Conf
  session : Option Conf
  deriving DecidableEq

/-- What has happened, as far as the code itself does not keep track of it. -/
structure History where
  /-- What the session that last answered `COMPLETED` was started from. -/
  link : Option Conf := none
  /-- What sessions were started from that answered `COMPLETED` and then had an address. -/
  proved : List Conf := []
  commits : List Commit := []
  /-- The try file is one that a client put in place after the reset looked for it (or that could not be read then),
  and the flag has not been raised since. -/
  late : Bool := false
  /-- The try file became such a file after the thread last looked at the flag, or was one already then. -/
  missed : Bool := false

structure World where
  fs : Fs
  wifiRunning : Bool
  wifiProcessExit : Bool
  wifiRequestReset : Bool
  wifiState : State
  /-- `wifi_state_deadline`. -/
  deadline : Nat
  /-- The `wpa_supplicant` that answers `wpa_cli`: what it was started from. -/
  wpa : Option Conf
  hist : History

/-! ## What calls do -/

/-- `wifi_run`. A daemon that is up answers from what its file held when it was started. -/
def runCmd (cmd : Cmd) (e : Outcome) (w : World) : Bool × World :=
  match cmd with
  | .killDaemons => (e.ok, { w with wpa := if e.left then w.wpa else none })
  | .wpaSupplicant cfg =>
    match w.fs.content cfg with
    | none => (false, w)
    | some conf => (e.ok, { w with wpa := if e.ok || e.left then some conf else w.wpa })
  | _ => (e.ok, w)

def renameFile (p q : Path) (e : Outcome) (w : World) : Bool × World :=
  match h : w.fs.name p with
  | none => (false, w)
  | some i => if e.ok then (true, { w with fs := w.fs.rename p q i h }) else (false, w)

def effect (e : Outcome) (w : World) : (c : Call) → c.Reply × World
  | .read p => (if e.ok then w.fs.content p else none, w)
  | .unlink p => if e.ok then ((w.fs.name p).isSome, { w with fs := w.fs.unlink p }) else (false, w)
  | .rename p q => renameFile p q e w
  | .fopen p => if e.ok then (some (w.fs.fopen p).1, { w with fs := (w.fs.fopen p).2 }) else (none, w)
  | .fprintf f bytes => ((), { w with fs := w.fs.fprintf f e.taken bytes })
  | .fclose f => ((), { w with fs := w.fs.fclose f e.taken })
  | .writeFile => (e.ok, w)
  | .run cmd => runCmd cmd e w
  | .ifaceReady => (e.ok, w)
  | .wpaConnected => (e.ok && w.wpa.isSome, w)
  | .ipConfigured => (e.ok, w)
  | .wifiRunning => (w.wifiRunning, w)
  | .wifiProcessExit => (w.wifiProcessExit, w)
  | .wifiRequestReset => (w.wifiRequestReset, w)
  | .setRequestReset b => ((), { w with wifiRequestReset := b })
  | .wifiState => (w.wifiState, w)
  | .wifiSetState st timeout =>
    ((), { w with wifiState := st, deadline := if timeout > 0 then e.now + timeout else 0 })
  | .wifiStateTimedOut => (w.deadline ≠ 0 && w.deadline ≤ e.now, w)

/-- A client's step as the history sees it. -/
def clientWatch (c : Call) (w w' : World) : History :=
  if c = .setRequestReset true then { w.hist with late := false }
  else if w'.fs.content .tryConf ≠ w.fs.content .tryConf ∧ w'.fs.content .tryConf ≠ none then
    { w.hist with late := true, missed := true }
  else w.hist

/-- A step of the Wi-Fi thread as the history sees it. -/
def wifiWatch (w : World) : (c : Call) → c.Reply → History
  | .wifiRequestReset, (r : Bool) => if r then w.hist else { w.hist with missed := w.hist.late }
  | .read .tryConf, (r : Option Conf) =>
    if w.wifiState = .reset then
      { w.hist with late := r ≠ w.fs.content .tryConf, missed := r ≠ w.fs.content .tryConf }
    else w.hist
  | .run (.wpaSupplicant .tryConf), (r : Bool) => if r then { w.hist with late := false, missed := false } else w.hist
  | .wpaConnected, (r : Bool) => if r then { w.hist with link := w.wpa } else w.hist
  | .ipConfigured, (r : Bool) =>
    if r then { w.hist with proved := w.hist.proved ++ w.hist.link.toList } else w.hist
  | .rename .tryConf .conf, (r : Bool) =>
    if r then { w.hist with commits := w.hist.commits ++ ((w.fs.content .tryConf).map (⟨·, w.hist.link⟩)).toList }
    else w.hist
  | _, _ => w.hist

def exec (t : Thread) (c : Call) (e : Outcome) (w : World) : c.Reply × World :=
  let (r, w') := effect e w c
  match t with
  | .client => (r, { w' with hist := clientWatch c w w' })
  | .wifi => (r, { w' with hist := wifiWatch w c r })

abbrev Code := Threads.Code Call Call.Reply

/-! ## Writing a configuration -/

def fopen (p : Path) : Code (Option Nat) := Code.act (Call.fopen p)

def fprintf (f : Nat) (bytes : List UInt8) : Code Unit := Code.act (Call.fprintf f bytes)

def fclose (f : Nat) : Code Unit := Code.act (Call.fclose f)

def rename (p q : Path) : Code Bool := Code.act (Call.rename p q)

def unlink (p : Path) : Code Bool := Code.act (Call.unlink p)

def wifiConfNeedsEscape (s : List UInt8) : Bool := s.any (fun b => b = 34 ∨ b = 92 ∨ b = 10 ∨ b = 13)

/-- The first `fprintf`. -/
def confHead : List UInt8 := text "ctrl_interface=/var/run/wpa_supplicant\nupdate_config=1\n"

def confOpen (ssid : List UInt8) : List UInt8 :=
  text "\nnetwork=\x7b\n  scan_ssid=1\n  ssid=\"" ++ ssid ++ text "\"\n  key_mgmt=NONE\n\x7d\n"

def confSae (ssid password : List UInt8) : List UInt8 :=
  text "\nnetwork=\x7b\n  scan_ssid=1\n  ssid=\"" ++ ssid ++
    text "\"\n  key_mgmt=SAE\n  ieee80211w=2\n  psk=\"" ++ password ++ text "\"\n\x7d\n"

def confPsk (ssid password : List UInt8) : List UInt8 :=
  text "\nnetwork=\x7b\n  scan_ssid=1\n  ssid=\"" ++ ssid ++
    text "\"\n  key_mgmt=WPA-PSK\n  psk=\"" ++ password ++ text "\"\n\x7d\n"

/-- `open_net` is set for an empty password. -/
def confTexts (ssid password : List UInt8) : List (List UInt8) :=
  if password = [] then [confHead, confOpen ssid] else [confHead, confSae ssid password, confPsk ssid password]

/-- The arguments `wifi_write_provision_conf` does not refuse; a missing string is as good as an empty one. -/
def accepted (ssid password : List UInt8) : Bool :=
  ssid ≠ [] && !(wifiConfNeedsEscape ssid || (password ≠ [] && wifiConfNeedsEscape password)) &&
    !(password ≠ [] && (password.length < 8 || 63 < password.length))

def fprintfAll (f : Nat) : List (List UInt8) → Code Unit
  | [] => pure ()
  | bytes :: rest => do
    fprintf f bytes
    fprintfAll f rest

/-- What is done when the renaming succeeded, or failed. -/
def renamed (f : Nat) : Bool → Code Bool
  | true => do
    fclose f
    return true
  | false => do
    let _ ← unlink .confTmp
    fclose f
    return false

/-- The file is given its name before the stream is closed. -/
def renameAndClose (f : Nat) (cfgFile : Path) : Code Bool := do
  let r ← rename .confTmp cfgFile
  renamed f r

def writeConf (texts : List (List UInt8)) (cfgFile : Path) : Option Nat → Code Bool
  | none => return false
  | some f => do
    fprintfAll f texts
    renameAndClose f cfgFile

def wifiWriteProvisionConf (ssid password : Option CStr) (cfgFile : Path) : Code Bool :=
  let ssid := (ssid.map CStr.bytes).getD []
  let password := (password.map CStr.bytes).getD []
  if accepted ssid password then do
    let fp ← fopen .confTmp
    writeConf (confTexts ssid password) cfgFile fp
  else return false

/-! ## The Wi-Fi thread -/

def wifiRun (cmd : Cmd) : Code Bool := Code.act (Call.run cmd)

def wifiSetState (st : State) (timeout : Nat) : Code Unit := Code.act (Call.wifiSetState st timeout)

def wifiStateTimedOut : Code Bool := Code.act Call.wifiStateTimedOut

def wifiState : Code State := Code.act Call.wifiState

def wifiProcessExit : Code Bool := Code.act Call.wifiProcessExit

def wifiRunning : Code Bool := Code.act Call.wifiRunning

def wifiRequestReset : Code Bool := Code.act Call.wifiRequestReset

def setRequestReset (b : Bool) : Code Unit := Code.act (Call.setRequestReset b)

def readConf (p : Path) : Code (Option Conf) := Code.act (Call.read p)

def wifiWpaConnected : Code Bool := Code.act Call.wpaConnected

def wifiIpConfigured : Code Bool := Code.act Call.ipConfigured

def wifiIfaceReady : Code Bool := Code.act Call.ifaceReady

def wpasupNetworkConfigured (cfgFile : Path) : Code Bool := do
  let conf ← readConf cfgFile
  return conf.any configured

def wifiRemoveTryConf : Code Unit := do
  let _ ← unlink .tryConf

def wifiCommitTryConf : Code Bool := do
  if ← wpasupNetworkConfigured .tryConf then rename .tryConf .conf else return true

def wifiKillDaemons : Code Unit := do
  let _ ← wifiRun .killDaemons

def wifiFlushIp : Code Unit := do
  let _ ← wifiRun .addrFlush

def wifiResetInterface : Code Unit := do
  wifiFlushIp
  let _ ← wifiRun .linkDown
  let _ ← wifiRun .linkUp

def wifiWriteFile : Code Bool := Code.act Call.writeFile

def startDnsmasq : Code Bool := do
  if ← wifiRun .hostapd then wifiRun .dnsmasq else return false

def wifiStartAp : Code Bool := do
  if ← wifiWriteFile then
    if ← wifiWriteFile then
      let _ ← wifiRun .ifconfig
      startDnsmasq
    else return false
  else return false

def wifiStartWpa (cfgFile : Path) : Code Bool := wifiRun (.wpaSupplicant cfgFile)

def wifiStartUdhcpc : Code Unit := do
  let _ ← wifiRun .killUdhcpc
  let _ ← wifiRun .udhcpc

def wifiConnectTimeoutS : Nat := 30

def wifiIpsetupTimeoutS : Nat := 30

def wifiHandleInit : Code Unit := do
  if ← wifiIfaceReady then wifiSetState .reset 0 else return

/-- The configuration `wifi_handle_reset` goes by. -/
def resetCfg : Code (Option Path) := do
  if ← wpasupNetworkConfigured .tryConf then return some .tryConf
  else if ← wpasupNetworkConfigured .conf then return some .conf
  else return none

def resetStart : Option Path → Code Unit
  | some cfg => do
    if ← wifiStartWpa cfg then wifiSetState .connecting wifiConnectTimeoutS else return
  | none => do
    if ← wifiStartAp then wifiSetState .provisioning 0 else return

def wifiHandleReset : Code Unit := do
  wifiKillDaemons
  wifiResetInterface
  let cfg ← resetCfg
  resetStart cfg

def wifiHandleProvisioning : Code Unit := do
  if ← wpasupNetworkConfigured .conf then wifiSetState .reset 0 else return

def connectingTimeout : Code Unit := do
  if ← wifiStateTimedOut then
    wifiRemoveTryConf
    wifiSetState .reset 0
  else return

def wifiHandleConnecting : Code Unit := do
  if ← wifiWpaConnected then
    wifiStartUdhcpc
    wifiSetState .ipsetup wifiIpsetupTimeoutS
  else connectingTimeout

def ipsetupCommit : Code Unit := do
  if ← wpasupNetworkConfigured .tryConf then
    let _ ← wifiCommitTryConf
  else return

def ipsetupTimeout : Code Unit := do
  if ← wifiStateTimedOut then
    wifiFlushIp
    let _ ← wifiRun .killUdhcpc
    if ← wpasupNetworkConfigured .tryConf then
      wifiRemoveTryConf
      wifiSetState .reset 0
    else wifiSetState .connecting wifiConnectTimeoutS
  else return

def wifiHandleIpsetup : Code Unit := do
  if ← wifiIpConfigured then
    ipsetupCommit
    wifiSetState .connected 0
  else ipsetupTimeout

/-- `wifi_ip_configured` is not asked when `wifi_wpa_connected` has said no. -/
def linkUp : Code Bool := do
  if ← wifiWpaConnected then wifiIpConfigured else return false

def wifiHandleConnected : Code Unit := do
  if ← linkUp then return else wifiSetState .reset 0

def wifiHandle : State → Code Unit
  | .init => wifiHandleInit
  | .reset => wifiHandleReset
  | .provisioning => wifiHandleProvisioning
  | .connecting => wifiHandleConnecting
  | .ipsetup => wifiHandleIpsetup
  | .connected => wifiHandleConnected

def checkReset : Code Unit := do
  if ← wifiRequestReset then
    setRequestReset false
    wifiSetState .reset 0
  else return

/-- One turn of the loop of `wifi_thread`. A thread that is told to exit takes no more turns. -/
def wifiTurn : Code Unit := do
  if ← wifiProcessExit then return
  else
    checkReset
    let st ← wifiState
    wifiHandle st

/-- `wifi_thread` up to its loop. -/
def wifiThread : Code Unit := do
  wifiRemoveTryConf
  wifiSetState .init 0

/-! ## The other thread -/

def requestReset : Code Unit := do
  if ← wifiRunning then setRequestReset true else return

def provisionConf (ssid password : Option CStr) : Code Bool := do
  wifiRemoveTryConf
  wifiWriteProvisionConf ssid password .conf

/-- Whether `!ssid || ssid[0] == '\0'`. -/
def noSsid (ssid : Option CStr) : Bool := (ssid.map CStr.bytes).getD [] = []

def appWifiProvision (ssid password : Option CStr) : Code Bool := do
  if noSsid ssid then
    let _ ← unlink .conf
    wifiRemoveTryConf
    requestReset
    return true
  else if ← provisionConf ssid password then
    requestReset
    return true
  else return false

def appWifiProvisionFallsafe (ssid password : Option CStr) : Code Bool := do
  if noSsid ssid then
    wifiRemoveTryConf
    requestReset
    return true
  else if ← wifiWriteProvisionConf ssid password .tryConf then
    requestReset
    return true
  else return false

def appWifiReload : Code Unit := requestReset

/-! ## Both threads -/

inductive Job where
  | turn
  | provision (ssid password : Option CStr)
  | fallsafe (ssid password : Option CStr)
  | reload

def job : Thread → Job → Option (Code Unit)
  | .wifi, .turn => some wifiTurn
  | .client, .provision ssid password => some (do let _ ← appWifiProvision ssid password)
  | .client, .fallsafe ssid password => some (do let _ ← appWifiProvisionFallsafe ssid password)
  | .client, .reload => some appWifiReload
  | _, _ => none

/-- What happens besides: the supplicant ends, `app_wifi_init` notes that the thread runs, `app_wifi_deinit` wants it
to exit. -/
inductive Event where
  | wpaEnds
  | started
  | exits

def event : Event → World → World
  | .wpaEnds, w => { w with wpa := none }
  | .started, w => { w with wifiRunning := true }
  | .exits, w => { w with wifiProcessExit := true }

def pool : Pool Call Call.Reply Thread Job Outcome Event World where
  exec := exec
  job := job
  world := event

/-- `app_wifi_init` has just created the thread. A supplicant of an earlier run may still be there. -/
def boot (fs : Fs) (wpa : Option Conf) (running : Bool) : Cfg Call Call.Reply Thread World where
  st := {
    fs := fs
    wifiRunning := running
    wifiProcessExit := false
    wifiRequestReset := false
    wifiState := .init
    deadline := 0
    wpa := wpa
    hist := {} }
  code
    | .wifi => wifiThread
    | .client => pure ()

/-- For runs on fixed inputs: the configuration of a network, and the name of another one. -/
def oldConf : Conf := confHead ++ confOpen (text "old")

def newSsid : CStr := ⟨text "new", by decide +kernel⟩

end AlgaeBp.Wifi
