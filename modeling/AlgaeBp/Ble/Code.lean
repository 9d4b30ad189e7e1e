import AlgaeBp.Att.Code
/-!
# The BLE peripheral: advertising, connections and notifications

`ble2_t` has one descriptor the event loop watches (`evconn.fd`) and the
listening socket; while advertising both are the same. Its functions run one
at a time, from the command line or from a callback of the event loop.

The kernel and the event loop are part of the state. What a system call
returns is drawn from `answers`: 0 for a failure, a number to choose by
otherwise. Sockets have, besides a descriptor, a serial number that is never
used again. `fault` is set by what a correct program never does: closing or
using a descriptor that is not open, cancelling a registration that is gone,
an array access out of bounds.
-/
open Bytes

namespace AlgaeBp.Ble

open Att

/-! ## State -/

inductive BleSt where
  | idle
  | adv
  | connected
  deriving DecidableEq, Repr

/-- `ble2_t` without the peer's name and the HCI device, which are only printed and passed on. -/
structure Ble2 extends Server where
  evFd : Int
  ev : Option Nat
  listenFd : Int
  state : BleSt
  advWanted : Bool
  advOn : Bool

inductive Cb where
  | bleAcceptCb
  | bleRxCb
  deriving DecidableEq, Repr

structure Sock where
  fd : Nat
  serial : Nat
  deriving DecidableEq, Repr

/-- A registration of `aloe_evb2_add_fd`. It lasts until it is cancelled. -/
structure Reg where
  handle : Nat
  fd : Int
  cb : Cb
  deriving DecidableEq, Repr

/-- What happened on connections; a connection is the serial number of its socket. -/
inductive Event where
  | accepted (conn : Nat)
  | received (conn : Nat) (pdu : List UInt8)
  /-- `ble_notify` sends a PDU; the server as it then is. -/
  | notified (conn : Nat) (pdu : List UInt8) (server : Server)

structure World where
  answers : Nat → Nat
  asked : Nat
  /-- What an uninitialised response buffer holds. -/
  stack : Rsp
  opened : List Sock
  /-- The serial number of the next socket. -/
  next : Nat
  /-- The serial numbers of the sockets closed so far. -/
  closed : List Nat
  regs : List Reg
  nextHandle : Nat
  /-- The latest event first. -/
  log : List Event
  fault : Bool

structure Sys where
  b : Ble2
  w : World

abbrev M := StateM Sys

/-! ## System calls and the event loop -/

def setB (f : Ble2 → Ble2) : M Unit := modify (fun s => { s with b := f s.b })

def setW (f : World → World) : M Unit := modify (fun s => { s with w := f s.w })

def ask : M Nat := do
  let s ← get
  setW (fun w => { w with asked := w.asked + 1 })
  return s.w.answers s.w.asked

/-- A call that only succeeds or fails. -/
def succeeds : M Bool := do return decide ((← ask) ≠ 0)

/-- The kernel's choice of a descriptor: any that is not open. -/
def World.freeFd (w : World) (n : Nat) : Nat :=
  if n ∈ w.opened.map Sock.fd then (w.opened.map Sock.fd).foldr max 0 + 1 + n else n

def World.newSock (w : World) (n : Nat) : World :=
  { w with opened := ⟨w.freeFd n, w.next⟩ :: w.opened, next := w.next + 1 }

/-- `socket`: -1 for a failure. -/
def sysSocket : M Int := do
  match ← ask with
  | 0 => return -1
  | n + 1 => do
    let s ← get
    setW (fun w => w.newSock n)
    return (s.w.freeFd n : Int)

/-- `accept4`. -/
def sysAccept : M Int := do
  let fd ← sysSocket
  if fd < 0 then return -1
  else do
    setW (fun w => { w with log := .accepted (w.next - 1) :: w.log })
    return fd

def World.sockOf (w : World) (fd : Int) : Option Sock := w.opened.find? (fun k => decide ((k.fd : Int) = fd))

def setFault : M Unit := setW (fun w => { w with fault := true })

def World.drop (w : World) (k : Sock) : World :=
  { w with opened := w.opened.erase k, closed := k.serial :: w.closed }

def sysClose (fd : Int) : M Unit := do
  match (← get).w.sockOf fd with
  | none => setFault
  | some k => setW (fun w => w.drop k)

/-- An event on the socket behind a descriptor. -/
def record (fd : Int) (event : Nat → Event) : M Unit := do
  match (← get).w.sockOf fd with
  | none => setFault
  | some k => setW (fun w => { w with log := event k.serial :: w.log })

/-- `aloe_evb2_add_fd`. -/
def evb2AddFd (fd : Int) (cb : Cb) : M (Option Nat) := do
  if ← succeeds then do
    let s ← get
    setW (fun w => { w with regs := ⟨w.nextHandle, fd, cb⟩ :: w.regs, nextHandle := w.nextHandle + 1 })
    return some s.w.nextHandle
  else return none

/-- `aloe_evb2_cancel`. -/
def evb2Cancel (h : Nat) : M Unit := do
  let s ← get
  if s.w.regs.any (fun r => decide (r.handle = h)) then
    setW (fun w => { w with regs := w.regs.filter (fun r => decide (r.handle ≠ h)) })
  else setFault

def evconnCancel : M Unit := do
  match (← get).b.ev with
  | none => return ()
  | some h => do
    evb2Cancel h
    setB (fun b => { b with ev := none })

/-! ## HCI -/

def bleHciFd : M Int := sysSocket

def bleHciAddr : M Bool := do
  let fd ← bleHciFd
  if fd < 0 then return false
  else do
    let ok ← succeeds
    sysClose fd
    return ok

def bleHciUp : M Bool := do
  let fd ← bleHciFd
  if fd < 0 then return false
  else do
    let ok ← succeeds
    sysClose fd
    if ok then do
      -- the address is only printed
      let _ ← bleHciAddr
      return true
    else return false

def bleHciBind : M Int := do
  let fd ← bleHciFd
  if fd < 0 then return -1
  else do
    if ← succeeds then do
      if ← succeeds then return fd
      else do
        sysClose fd
        return -1
    else do
      sysClose fd
      return -1

/-- `hci_cmd_status`: the status of a command, `none` for a local error or a timeout. -/
def hciCmdStatus : M (Option Nat) := do
  match ← ask with
  | 0 => return none
  | n + 1 => return some n

def hciCmd (ignoreStatus : Bool) : M Bool := do
  match ← hciCmdStatus with
  | none => return false
  | some st => return decide (st = 0 ∨ ignoreStatus = true)

/-- Commands one after another, up to the first that fails. -/
def hciCmds : List Bool → M Bool
  | [] => return true
  | ignoreStatus :: rest => do
    if ← hciCmd ignoreStatus then hciCmds rest else return false

/-- `ble_adv_config`: host support, advertising off, and if it is to be enabled the parameters, the
advertising data, the scan response and advertising on. -/
def bleAdvConfig (enable : Bool) : M Bool :=
  hciCmds ([true, true] ++ if enable then [false, false, false, false] else [])

def advCmds (enable : Bool) : M Bool := if enable then bleAdvConfig true else hciCmd true

def bleAdvSet (enable : Bool) : M Bool := do
  let fd ← bleHciBind
  if fd < 0 then return false
  else do
    let ok ← advCmds enable
    sysClose fd
    if ok then do
      setB (fun b => { b with advOn := enable })
      return true
    else return false

/-! ## Connections -/

def bleArm (fd : Int) (cb : Cb) : M Bool := do
  evconnCancel
  setB (fun b => { b with evFd := -1 })
  match ← evb2AddFd fd cb with
  | none => return false
  | some h => do
    setB (fun b => { b with evFd := fd, ev := some h })
    return true

/-- `send` of a whole PDU. -/
def sysSend (fd : Int) : M Bool := do
  match (← get).w.sockOf fd with
  | none => do
    setFault
    return false
  | some _ => succeeds

def bleTx (fd : Int) (pdu : List UInt8) : M Bool :=
  if pdu.length ≤ 0 then return true else sysSend fd

/-- Close the connection's socket, which is not the listening socket. -/
def closeConn : M Unit := do
  let b := (← get).b
  if b.evFd ≥ 0 ∧ b.evFd ≠ b.listenFd then sysClose b.evFd else return ()

def closeListen : M Unit := do
  let b := (← get).b
  if b.listenFd ≥ 0 then do
    sysClose b.listenFd
    setB (fun b => { b with listenFd := -1 })
  else return ()

def bleStop : M Unit := do
  let wasOn := (← get).b.advOn
  setB (fun b => { b with advWanted := false, advOn := false })
  evconnCancel
  closeConn
  setB (fun b => { b with evFd := -1 })
  closeListen
  setB (fun b => { b with state := .idle, cccd := 0, mtu := attMtuDefault })
  if wasOn then do
    let _ ← bleAdvSet false
    return ()
  else return ()

/-- `ble_adv_set(b, 1) == 0 && ble_arm(b, b->listen_fd, &ble_accept_cb) == 0`. -/
def bleListenOn : M Bool := do
  if ← bleAdvSet true then bleArm (← get).b.listenFd .bleAcceptCb else return false

def blePeerLeft : M Unit := do
  evconnCancel
  closeConn
  setB (fun b => { b with evFd := -1, cccd := 0, mtu := attMtuDefault, advOn := false, state := .idle })
  let b := (← get).b
  if b.advWanted = false ∨ b.listenFd < 0 then return ()
  else do
    if ← bleListenOn then setB (fun b => { b with state := .adv }) else bleStop

/-- A result of `recv`. No data is the end of the connection. -/
inductive Recv where
  | data (bytes : List UInt8)
  | eintr
  | eagain
  | failed
  deriving DecidableEq, Repr

/-- The size of `b->rx`. -/
def rxMax : Nat := 512

/-- The loop of `ble_rx_cb` on the results its `recv` calls give; after them there is nothing to receive. -/
def rxLoop (fd : Int) : List Recv → M Unit
  | [] => return ()
  | .eintr :: rest => rxLoop fd rest
  | .eagain :: _ => return ()
  | .failed :: _ => blePeerLeft
  | .data bytes :: rest => do
    let pdu := bytes.take rxMax
    if pdu = [] then blePeerLeft
    else do
      record fd (fun conn => .received conn pdu)
      let s ← get
      match attOnPdu 12 s.b.toServer pdu s.w.stack with
      | .error _ => setFault
      | .ok r => do
        setB (fun b => { b with toServer := r.server })
        if ← bleTx fd r.bytes then rxLoop fd rest else blePeerLeft

def bleRxCb (fd : Int) (read : Bool) (recvs : List Recv) : M Unit := do
  if (← get).b.evFd ≠ fd then return ()
  else if read = false then return ()
  else rxLoop fd recvs

def bleAcceptCb (fd : Int) (read : Bool) : M Unit := do
  if (← get).b.evFd ≠ fd then return ()
  else if read = false then return ()
  else do
    let conn ← sysAccept
    if conn < 0 then return ()
    else do
      setB (fun b => { b with mtu := attMtuDefault, cccd := 0, advOn := false, state := .connected })
      if ← bleArm conn .bleRxCb then return ()
      else do
        sysClose conn
        blePeerLeft

/-- Calls that must all succeed: bind, BT_SECURITY, listen, nonblock. -/
def allSucceed : Nat → M Bool
  | 0 => return true
  | n + 1 => do
    if ← succeeds then allSucceed n else return false

def bleListenOpen : M Bool := do
  let fd ← sysSocket
  if fd < 0 then return false
  else do
    if ← allSucceed 4 then do
      setB (fun b => { b with listenFd := fd })
      return true
    else do
      sysClose fd
      return false

/-- `ble_advertise(b, 1)` once an earlier session is stopped. -/
def bleAdvertiseOn : M Bool := do
  if ← bleHciUp then do
    if ← bleListenOpen then do
      setB (fun b => { b with advWanted := true })
      if ← bleListenOn then do
        setB (fun b => { b with state := .adv })
        let _ ← bleHciAddr
        return true
      else do
        bleStop
        return false
    else return false
  else return false

def bleAdvertise (on : Bool) : M Bool := do
  if on then do
    if (← get).b.state ≠ .idle then do
      bleStop
      bleAdvertiseOn
    else bleAdvertiseOn
  else do
    bleStop
    return true

/-- The Handle Value Notification of a value. -/
def nfyPdu (text : List UInt8) : List UInt8 := [0x1b] ++ le16 (UInt16.ofNat hdlCusVal) ++ text

/-- The most bytes `ble_notify` takes. -/
def notifyMax (b : Ble2) : Int := min ((b.mtu.toNat : Int) - 3) bleValueMax

def bleNotify (text : List UInt8) : M Bool := do
  let b := (← get).b
  if b.state ≠ .connected ∨ b.evFd < 0 then return false
  else if b.cccd &&& 1 = 0 then return false
  else if (text.length : Int) > notifyMax b then return false
  else
    match b.value.store 0 text with
    | none => do
      setFault
      return false
    | some value => do
      setB (fun b => { b with value := value, valueLen := UInt16.ofNat text.length })
      let b := (← get).b
      record b.evFd (fun conn => .notified conn (nfyPdu text) b.toServer)
      if ← bleTx b.evFd (nfyPdu text) then return true
      else do
        blePeerLeft
        return false

/-! ## Runs -/

inductive Op where
  | up
  | advertise (on : Bool)
  /-- The event loop runs the callback of a registration, if there still is one of this handle. -/
  | event (handle : Nat) (read : Bool) (recvs : List Recv)
  | notify (text : List UInt8)
  | peerLeft
  deriving DecidableEq, Repr

def dispatch (r : Reg) (read : Bool) (recvs : List Recv) : M Unit :=
  match r.cb with
  | .bleAcceptCb => bleAcceptCb r.fd read
  | .bleRxCb => bleRxCb r.fd read recvs

def Op.run : Op → M Bool
  | .up => bleHciUp
  | .advertise on => bleAdvertise on
  | .event h read recvs => do
    match (← get).w.regs.find? (fun r => decide (r.handle = h)) with
    | none => return true
    | some r => do
      dispatch r read recvs
      return true
  | .notify text => bleNotify text
  | .peerLeft => do
    blePeerLeft
    return true

/-- `blegatt_init`. -/
def init (answers : Nat → Nat) (stack : Rsp) : Sys where
  b := { mtu := attMtuDefault, cccd := 0, value := Block.fill bleValueMax 0, valueLen := 0, evFd := -1, ev := none,
         listenFd := -1, state := .idle, advWanted := false, advOn := false }
  w := { answers := answers, asked := 0, stack := stack, opened := [], next := 0, closed := [], regs := [],
         nextHandle := 0, log := [], fault := false }

def runOps (ops : List Op) (s : Sys) : Sys := ops.foldl (fun s op => (op.run s).2) s

end AlgaeBp.Ble
