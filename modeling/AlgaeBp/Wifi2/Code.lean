import Mathlib.Data.List.Basic
import Mathlib.Tactic.Common
/-!
# The Wi-Fi machine of `tester1`

`wifi.cpp` brings an interface up through a state machine. Its inputs come from
a timer, from netlink messages about the interface, and from commands. The
model follows the build with `USE_WPASUPCLIENT`.

Everything the code does to the world outside is an `Act`. The timer is a
one-shot timer of the kernel; which state armed it is kept along. What the
daemons are told by the helpers below is left out, and so is what is logged.
-/

namespace AlgaeBp.Wifi2

/-- `state_t`. -/
inductive State where
  | init
  | reset
  | wpasupCtrl
  | wpasupReady
  | wpasupConnect
  | dhcpc
  | zcip
  | mon
  | pause
  deriving DecidableEq, Repr

/-- `state_input_t`. -/
inductive Stin where
  | enter
  | timeout
  | iffUp
  | iffRunning
  | ipAdd
  | iffLowDown
  deriving DecidableEq, Repr

abbrev Flags := BitVec 32

def iffUp : Flags := 0x1
def iffRunning : Flags := 0x40
def iffLowerUp : Flags := 0x10000

structure Network where
  ssid : List UInt8
  psk : List UInt8
  flag : BitVec 32
  deriving DecidableEq, Repr

/-- The timer behind `timer_fd`, with the state the machine was in when it was set. -/
inductive Timer where
  | disarmed
  | armed (owner : State)
  /-- It has expired and was not read since. -/
  | expired (owner : State)
  deriving DecidableEq, Repr

inductive Act where
  | dhcpcStart (en : Nat)
  | zcipStart (en : Nat)
  | killall
  | ifup (en : Bool)
  | ipFlush
  | wpasupStart (en : Nat)
  | wpasupPing (ok : Bool)
  | networkConnect (net : Network)
  | timerSet (ms : Nat)
  /-- `run_sm` is called. -/
  | runSm (stin : Stin)
  /-- `timer_fd` is read: what the timer is like then, and the state of the machine. -/
  | timerRead (timer : Timer) (state : State)
  deriving DecidableEq, Repr

structure St where
  state : State
  ifflag : Flags
  ifindex : BitVec 32
  network : Network
  /-- Whether `network_apply` points to `network`. -/
  networkApply : Bool
  timer : Timer
  /-- How `wpa_supplicant` answers the n-th `PING`. -/
  pong : Nat → Bool
  pings : Nat
  acts : List Act
  /-- A read that nothing will end. -/
  hung : Bool

namespace St

def act (a : Act) (s : St) : St := { s with acts := s.acts ++ [a] }

/-- `timer_set`; what the timer had to tell is lost. -/
def timerSet (ms : Nat) (s : St) : St :=
  { s.act (.timerSet ms) with timer := if 0 < ms then .armed s.state else .disarmed }

/-- `SM_GOTO`. Its `break` ends no more than the macro's own loop. -/
def smGoto (st : State) (s : St) : St := { s with state := st }

/-- `wpasup_ping` succeeds. -/
def ponged (s : St) : Bool := s.pong s.pings

def wpasupPing (s : St) : St := { s.act (.wpasupPing s.ponged) with pings := s.pings + 1 }

/-- `network_apply` has an SSID. -/
def applies (s : St) : Bool := s.networkApply && s.network.ssid ≠ []

end St

/-! ## `run_sm`

One turn of the loop is given for each state: the input of the next turn if
`sm_continue` is set. -/

def smInit (stin : Stin) (s : St) : St × Option Stin :=
  if stin = .enter then (s.timerSet 10, none)
  else if stin = .timeout then (s.smGoto .reset, some .enter)
  else (s, none)

def smReset (stin : Stin) (s : St) : St × Option Stin :=
  if stin = .enter then
    let s := (s.act (.dhcpcStart 0)).act (.zcipStart 0)
    let s := ((s.act .killall).act .killall).act .killall
    let s := ((s.act (.ifup false)).act .ipFlush).act (.ifup true)
    (s.act (.wpasupStart 1), none)
  else if stin = .iffUp then (s.smGoto .wpasupCtrl, some .enter)
  else (s, none)

/-- The timer is set even when the machine has moved on. -/
def smWpasupCtrl (stin : Stin) (s : St) : St × Option Stin :=
  if stin = .enter ∨ stin = .timeout then
    if s.ponged then ((s.wpasupPing.smGoto .wpasupReady).timerSet 100, some .enter)
    else (s.wpasupPing.timerSet 100, none)
  else (s, none)

def smWpasupReady (stin : Stin) (s : St) : St × Option Stin :=
  if stin = .enter ∨ stin = .timeout then
    if s.applies then ((s.smGoto .wpasupConnect).timerSet 1000, some .enter) else (s.timerSet 1000, none)
  else (s, none)

def smWpasupConnect (stin : Stin) (s : St) : St × Option Stin :=
  if stin = .enter then ((s.act (.networkConnect s.network)).timerSet 15000, none)
  else if stin = .iffRunning then (s.smGoto .dhcpc, some .enter)
  else if stin = .timeout then (s.smGoto .wpasupReady, some .enter)
  else (s, none)

def smDhcpc (stin : Stin) (s : St) : St × Option Stin :=
  if stin = .enter then ((s.act (.dhcpcStart 1)).timerSet 10000, none)
  else if stin = .timeout then (s.smGoto .zcip, some .enter)
  else if stin = .ipAdd then (s.smGoto .mon, some .enter)
  else (s, none)

def smZcip (stin : Stin) (s : St) : St × Option Stin :=
  if stin = .enter then ((s.act (.zcipStart 1)).timerSet 10000, none)
  else if stin = .timeout then (s.smGoto .mon, some .enter)
  else if stin = .ipAdd then (s.smGoto .mon, some .enter)
  else (s, none)

def smMon (stin : Stin) (s : St) : St × Option Stin :=
  if stin = .enter then (s.timerSet 5000, none)
  else if stin = .timeout then (s.timerSet 5000, none)
  else if stin = .iffLowDown then ((s.act .ipFlush).smGoto .wpasupReady, some .enter)
  else (s, none)

def smTurn (stin : Stin) (s : St) : St × Option Stin :=
  match s.state with
  | .init => smInit stin s
  | .reset => smReset stin s
  | .wpasupCtrl => smWpasupCtrl stin s
  | .wpasupReady => smWpasupReady stin s
  | .wpasupConnect => smWpasupConnect stin s
  | .dhcpc => smDhcpc stin s
  | .zcip => smZcip stin s
  | .mon => smMon stin s
  | .pause => (s, none)

/-- How many more turns there may be. -/
def smRank (st : State) (stin : Stin) : Nat :=
  if stin ≠ .enter then 3
  else match st with
    | .wpasupCtrl => 2
    | .wpasupReady => 1
    | _ => 0

/-- Only `enter` is ever passed on. -/
theorem smTurn_enter {s : St} {stin stin' : Stin} (h : (smTurn stin s).2 = some stin') : stin' = .enter := by
  unfold smTurn at h
  cases hst : s.state <;> simp only [hst] at h
  case init => cases stin <;> simp_all [smInit]
  case reset => cases stin <;> simp_all [smReset]
  case wpasupCtrl =>
    unfold smWpasupCtrl at h
    by_cases hp : s.ponged = true <;> cases stin <;> simp_all
  case wpasupReady =>
    unfold smWpasupReady at h
    by_cases ha : s.applies = true <;> cases stin <;> simp_all
  case wpasupConnect => cases stin <;> simp_all [smWpasupConnect]
  case dhcpc => cases stin <;> simp_all [smDhcpc]
  case zcip => cases stin <;> simp_all [smZcip]
  case mon => cases stin <;> simp_all [smMon]
  case pause => cases h

theorem smTurn_rank {s : St} {stin stin' : Stin} (h : (smTurn stin s).2 = some stin') :
    smRank (smTurn stin s).1.state stin' < smRank s.state stin := by
  obtain rfl := smTurn_enter h
  unfold smTurn at h ⊢
  cases hst : s.state <;> simp only [hst] at h ⊢
  -- An input other than `enter` is the rank's first turn; on `enter` two states have a turn left.
  case init => cases stin <;> simp_all [smInit, smRank, St.smGoto]
  case reset => cases stin <;> simp_all [smReset, smRank, St.smGoto]
  case wpasupCtrl =>
    unfold smWpasupCtrl at h ⊢
    by_cases hp : s.ponged = true <;> cases stin <;> simp_all [smRank, St.smGoto, St.timerSet, St.act]
  case wpasupReady =>
    unfold smWpasupReady at h ⊢
    by_cases ha : s.applies = true <;> cases stin <;> simp_all [smRank, St.smGoto, St.timerSet, St.act]
  case wpasupConnect => cases stin <;> simp_all [smWpasupConnect, smRank, St.smGoto]
  case dhcpc => cases stin <;> simp_all [smDhcpc, smRank, St.smGoto]
  case zcip => cases stin <;> simp_all [smZcip, smRank, St.smGoto]
  case mon => cases stin <;> simp_all [smMon, smRank, St.smGoto, St.act]
  case pause => cases h

/-- The loop. -/
def smLoop (stin : Stin) (s : St) : St :=
  match _h : (smTurn stin s).2 with
  | none => (smTurn stin s).1
  | some stin' => smLoop stin' (smTurn stin s).1
termination_by smRank s.state stin
decreasing_by exact smTurn_rank _h

/-- `run_sm`. No state looks at `args`. -/
def runSm (stin : Stin) (s : St) : St := smLoop stin (s.act (.runSm stin))

/-! ## Netlink -/

/-- A message in a receive buffer, as far as it is looked at. -/
inductive NlMsg where
  /-- `RTM_NEWADDR` or `RTM_DELADDR`, with the types of its attributes. -/
  | addr (new : Bool) (index : BitVec 32) (family scope : Nat) (attrs : List Nat)
  /-- `RTM_NEWLINK`. -/
  | link (index : BitVec 32) (flags : Flags)
  | other (type : Nat)
  deriving DecidableEq, Repr

def afInet : Nat := 2
def rtScopeUniverse : Nat := 0
def rtScopeLink : Nat := 253
def ifaLocal : Nat := 2

/-- Whether the attributes set a bit of `stin_ipadd`. -/
def stinIpadd (family scope : Nat) (attrs : List Nat) : Bool :=
  attrs.any (fun rtaType => rtaType = ifaLocal ∧ family = afInet ∧ (scope = rtScopeUniverse ∨ scope = rtScopeLink))

/-- What is done for one edge: `bit` differs from the stored flags and has come to be as `up` says. -/
def onEdge (bit : Flags) (up : Bool) (stin : Stin) (flags : Flags) (s : St) : St :=
  if (flags ^^^ s.ifflag) &&& bit ≠ 0 ∧ (flags &&& bit ≠ 0 ↔ up = true) then runSm stin s else s

/-- `update` is what `ifflag_update` holds. -/
def handleMsg (msg : NlMsg) (update : Option Flags) (s : St) : Option Flags × St :=
  match msg with
  | .addr new index family scope attrs =>
    (update, if index = s.ifindex ∧ new = true ∧ stinIpadd family scope attrs = true then runSm .ipAdd s else s)
  | .link index flags =>
    if index = s.ifindex then
      let s := onEdge iffUp true .iffUp flags s
      let s := onEdge iffRunning true .iffRunning flags s
      (some flags, onEdge iffLowerUp false .iffLowDown flags s)
    else (update, s)
  | .other _ => (update, s)

def handleMsgs : List NlMsg → Option Flags → St → Option Flags × St
  | [], update, s => (update, s)
  | msg :: msgs, update, s => handleMsgs msgs (handleMsg msg update s).1 (handleMsg msg update s).2

/-- `handle_rtnl` on a buffer with these messages. The flags are stored after the last of them. -/
def handleRtnl (msgs : List NlMsg) (s : St) : St :=
  let (update, s) := handleMsgs msgs none s
  { s with ifflag := update.getD s.ifflag }

/-! ## The callback -/

/-- What a descriptor that `epoll_wait` returned has to give. -/
inductive Ready where
  | rtnl (msgs : List NlMsg)
  | timer
  deriving DecidableEq, Repr

def St.expire (s : St) : St :=
  { s with timer := match s.timer with
    | .armed o => .expired o
    | t => t }

/-- `read` takes the expiration. Without one it waits until the timer expires. -/
def onTimer (s : St) : St :=
  let s := s.act (.timerRead s.timer s.state)
  match s.timer with
  | .disarmed => { s with hung := true }
  | _ => runSm .timeout { s with timer := .disarmed }

def onReady : Ready → St → St
  | .rtnl msgs, s => handleRtnl msgs s
  | .timer, s => onTimer s

/-- The loop of `wifi2_epoll_cb`. The timer may expire before a descriptor gets its turn. -/
def epollCb : List (Bool × Ready) → St → St
  | [], s => s
  | (expires, ready) :: batch, s =>
    if s.hung then s else epollCb batch (onReady ready (if expires then s.expire else s))

/-! ## Commands -/

/-- `snprintf` into a buffer of `size` bytes: what it leaves there, and whether its result passes for success. -/
def snprintf (size : Nat) (str : List UInt8) : List UInt8 × Bool := (str.take (size - 1), str ≠ [] && str.length < size)

/-- `wificfg`: what it returns, and the state it leaves. `swqa` is `wificfg` with arguments of its own. -/
def wificfg (ssid psk : Option (List UInt8)) (flag : BitVec 32) (s : St) : Int × St :=
  let ssid := ssid.getD []
  if ssid = [] then (0, { s with networkApply := false })
  else
    let s := { s with network.ssid := (snprintf 64 ssid).1 }
    if (snprintf 64 ssid).2 then
      let s := { s with network.psk := (psk.map (fun psk => (snprintf 100 psk).1)).getD [] }
      if (psk.map (fun psk => (snprintf 100 psk).2)).getD true then
        (0, runSm .enter { s with network.flag := flag, networkApply := true, state := .init })
      else (-1, s)
    else (-1, s)

/-- `state`. -/
def cliState (st : State) (s : St) : St := runSm .enter { s with state := st }

/-! ## Runs -/

inductive Event where
  | wificfg (ssid psk : Option (List UInt8)) (flag : BitVec 32)
  | state (st : State)
  | timer (ms : Nat)
  /-- The timer expires. -/
  | expire
  /-- The callback, with the descriptors `epoll_wait` returns. -/
  | poll (batch : List (Bool × Ready))
  deriving DecidableEq, Repr

def Ready.isTimer : Ready → Bool
  | .timer => true
  | .rtnl _ => false

def Timer.isExpired : Timer → Bool
  | .expired _ => true
  | _ => false

/-- What can happen. A descriptor is returned once, and the timer's when it has expired; a command that would make
`run_sm` follow a null `network_apply` ends the process. -/
def Event.enabled (s : St) (e : Event) : Bool :=
  !s.hung &&
    match e with
    | .poll batch => (batch.map (·.2.isTimer)).Nodup && (!batch.any (·.2.isTimer) || s.timer.isExpired)
    | .state st => st ≠ .wpasupConnect || s.networkApply
    | _ => true

def happen (s : St) : Event → St
  | .wificfg ssid psk flag => (wificfg ssid psk flag s).2
  | .state st => cliState st s
  | .timer ms => s.timerSet ms
  | .expire => s.expire
  | .poll batch => epollCb batch s

def step (s : St) (e : Event) : Option St := if e.enabled s then some (happen s e) else none

/-- What `wifi2_init` leaves. -/
def boot (ifflag : Flags) (ifindex : BitVec 32) (pong : Nat → Bool) : St where
  state := .pause
  ifflag := ifflag
  ifindex := ifindex
  network := ⟨[], [], 0⟩
  networkApply := false
  timer := .disarmed
  pong := pong
  pings := 0
  acts := []
  hung := false

end AlgaeBp.Wifi2
