import AlgaeBp.Lib.Host
import AlgaeBp.Lib.Runs
import AlgaeBp.Wifi2.Code
/-!
# The programs the Wi-Fi machine starts

`wifi.cpp` starts `udhcpc`, `zcip` and `wpa_supplicant`, which run until they
end by themselves or are killed, and stay children until they are waited for.
Two connections go to `wpa_supplicant`; one of them is in the event loop.

The kernel lets a process kill its children. A `kill` or a `waitpid` of
anything else is a fault of the ledger. A blocking `waitpid` may be interrupted
as often as there are answers for it, and then finds that the child has ended.
-/
open Hosts Ledgers Runs StateWp

namespace AlgaeBp.Wifi2.Daemons

inductive Prog where
  | udhcpc
  | zcip
  | wpaSupplicant
  deriving DecidableEq, Repr

/-- The part of `wifi2_t` that is about them. -/
structure St where
  host : Host Unit
  children : Ledger Int
  /-- What was started in a child. -/
  prog : Int → Prog
  /-- `udhcpc_pid`, `zcip_pid` and `wpasup_pid`. -/
  pid : Prog → Int
  wpasupCln : Option Int
  wpasupMon : Option Int
  /-- `evconn_wpasup_mon.ev`. -/
  ev : Option (Reg Unit)
  /-- A null pointer was followed. -/
  crashed : Bool

abbrev M := StateM St

def eintr : Int := 4
def echild : Int := 10

def onHost {α : Type} (m : StateM (Host Unit) α) : M α := zoom St.host (fun h s => { s with host := h }) m

def ask : M Int := onHost Hosts.ask

def setPid (p : Prog) (pid : Int) : M Unit := modify fun s => { s with pid := Function.update s.pid p pid }

/-! ## Processes -/

/-- `fork`, as the parent sees it. No child that is there has the number of the new one. -/
def fork (p : Prog) : M Int := do
  let r ← ask
  let s ← get
  if r ≤ 0 ∨ r ∈ s.children.held then return -1
  else do
    modify fun s => { s with children := s.children.take r, prog := Function.update s.prog r p }
    return r

/-- Whether `kill` succeeds. -/
def kill (pid : Int) : M Bool := do
  let s ← get
  modify fun s => { s with children := s.children.use pid }
  return decide (pid ∈ s.children.held)

def reap (pid : Int) : M Unit := modify fun s => { s with children := s.children.give pid }

/-- The loop of `aloe_waitpid`. -/
def waitLoop (pid : Int) : Nat → M Unit
  | 0 => return ()
  | fuel + 1 => do
    let r ← ask
    if r = -eintr then waitLoop pid fuel else reap pid

def aloeWaitpid (pid : Int) : M Unit := do
  let s ← get
  waitLoop pid (s.host.answers.length + 1)

/-- `waitpid` with `WNOHANG`: the child if it has ended, 0 if it has not, or `-errno`. -/
def waitNohang (pid : Int) : M Int := do
  let s ← get
  modify fun s => { s with children := s.children.use pid }
  if pid ∈ s.children.held then do
    let r ← ask
    if 0 < r then do
      reap pid
      return pid
    else if r = -eintr then return r
    else return 0
  else return -echild

def pidKill (pid : Int) : M Unit := do
  if pid < 0 then return ()
  else do
    let ok ← kill pid
    if ok then aloeWaitpid pid else return ()

/-- The first part of `dhcpc_start` and `zcip_start`. -/
def stop (p : Prog) : M Unit := do
  let s ← get
  if 0 < s.pid p then do
    pidKill (s.pid p)
    setPid p (-1)
  else return ()

/-- The rest, and that of `wpasup_start`. -/
def spawn (p : Prog) : M Int := do
  let pid ← fork p
  if pid < 0 then return -1
  else do
    setPid p pid
    return 0

def start (p : Prog) (en : Int) : M Int := do
  stop p
  if en ≤ 0 then return 0 else spawn p

def dhcpcStart (en : Int) : M Int := start .udhcpc en

def zcipStart (en : Int) : M Int := start .zcip en

/-! ## The connections to `wpa_supplicant` -/

/-- `wpasup_ctrl_open`: the descriptor of the connection. -/
def wpasupCtrlOpen (attach : Bool) : M (Option Int) := do
  let fd ← onHost newFd
  if fd < 0 then return none
  else if attach then do
    let r ← ask
    if r < 0 then do
      onHost (close fd)
      return none
    else return some fd
  else return some fd

def closeCln : M Unit := do
  let s ← get
  match s.wpasupCln with
  | none => return ()
  | some fd => do
    onHost (close fd)
    modify fun s => { s with wpasupCln := none }

/-- `evconn_cancel`. -/
def cancelMon : M Unit := do
  let s ← get
  match s.ev with
  | none => return ()
  | some reg => do
    onHost (unwatch reg)
    modify fun s => { s with ev := none }

def closeMon : M Unit := do
  let s ← get
  match s.wpasupMon with
  | none => return ()
  | some fd => do
    onHost (close fd)
    modify fun s => { s with wpasupMon := none }

/-- The loop of `wpasup_start` that gives `wpa_supplicant` time to end. -/
def exitLoop : Nat → M Unit
  | 0 => return ()
  | n + 1 => do
    let s ← get
    let wp ← waitNohang (s.pid .wpaSupplicant)
    if wp = s.pid .wpaSupplicant then setPid .wpaSupplicant (-1)
    else if wp < 0 then
      if -wp = eintr then exitLoop n
      else if -wp = echild then setPid .wpaSupplicant (-1)
      else return ()
    else exitLoop n

def wpasupStop : M Unit := do
  let s ← get
  if 0 < s.pid .wpaSupplicant then do
    closeCln
    cancelMon
    closeMon
    let s ← get
    let _ ← kill (s.pid .wpaSupplicant)
    exitLoop 10
    let s ← get
    pidKill (s.pid .wpaSupplicant)
    setPid .wpaSupplicant (-1)
  else return ()

/-- The configuration may not be written. -/
def wpasupStart (en : Int) : M Int := do
  wpasupStop
  if en ≤ 0 then return 0
  else do
    let r ← ask
    if r < 0 then return -1 else spawn .wpaSupplicant

def openCln : M Bool := do
  let s ← get
  match s.wpasupCln with
  | some _ => return true
  | none => do
    let cln ← wpasupCtrlOpen false
    modify fun s => { s with wpasupCln := cln }
    return cln.isSome

def armMon : M Unit := do
  let s ← get
  match s.ev, s.wpasupMon with
  | some _, _ => return ()
  | none, none => modify fun s => { s with crashed := true }
  | none, some fd => do
    let ev ← onHost (watch fd ())
    modify fun s => { s with ev := ev }

def openMon : M Unit := do
  let s ← get
  match s.wpasupMon with
  | some _ => armMon
  | none => do
    let mon ← wpasupCtrlOpen true
    modify fun s => { s with wpasupMon := mon }
    if mon = none then return () else armMon

def wpasupCmd : M Int := do
  let ok ← openCln
  if ok then do
    openMon
    let r ← ask
    if r < 0 then return -1 else return 0
  else return -1

def wifi2WpasupMonCb : M Unit := do
  let s ← get
  match s.wpasupMon with
  | none => modify fun s => { s with crashed := true }
  | some _ => do
    let _ ← ask
    return ()

/-! ## Runs -/

inductive Op where
  | dhcpc (en : Int)
  | zcip (en : Int)
  | wpasup (en : Int)
  /-- `wpasup_cmd`, for a `PING`, a network or the command line. -/
  | cmd
  /-- The event loop calls the callback of a registration that stands. -/
  | mon (reg : Reg Unit)

/-- What the machine and the command line do with the programs, and the answers there are for it. -/
def step (s : St) (e : Op × List Int) : Option St :=
  let s := { s with host := { s.host with answers := e.2 } }
  match e.1 with
  | .dhcpc en => some (dhcpcStart en s).2
  | .zcip en => some (zcipStart en s).2
  | .wpasup en => some (wpasupStart en s).2
  | .cmd => some (wpasupCmd s).2
  | .mon reg => if reg ∈ s.host.regs.held then some (wifi2WpasupMonCb s).2 else none

/-- The part of `wifi2_init`: the record is all zero. -/
def boot (prog : Int → Prog) : St where
  host := .empty
  children := .empty
  prog := prog
  pid := fun _ => 0
  wpasupCln := none
  wpasupMon := none
  ev := none
  crashed := false

/-- What an action of the machine starts or stops. -/
def ofAct : Act → Option Op
  | .dhcpcStart en => some (.dhcpc en)
  | .zcipStart en => some (.zcip en)
  | .wpasupStart en => some (.wpasup en)
  | _ => none

end AlgaeBp.Wifi2.Daemons
