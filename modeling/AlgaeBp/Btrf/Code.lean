import AlgaeBp.Lib.Host
/-!
# The RFCOMM session of `tester1`

`btrfcomm.cpp` listens or connects, waits for the socket in the event loop,
and sends what the command line gives it. Every call of the kernel may fail,
and gives `-errno` then.

What is logged, and what `recv` reads for the log, is left out.
-/
open Hosts Ledgers StateWp

namespace AlgaeBp.Btrf

/-! ## State -/

/-- `bt_st_idle` and so on. -/
inductive BtSt where
  | idle
  | listen
  | connecting
  | connected
  deriving DecidableEq, Repr

inductive Cb where
  | accept
  | connect
  | rx
  deriving DecidableEq, Repr

/-- What is given to `aloe_evb2_add_fd` beside the descriptor. -/
structure Wait where
  flag : UInt32
  timeoutMs : UInt64
  cb : Cb
  deriving DecidableEq, Repr

/-- `bdaddr_t`, from `b[0]` to `b[5]`. -/
abbrev BdAddr := List UInt8

/-- `bt2_t`. `peer` is `none` for the empty text. -/
structure Bt2 where
  fd : Int
  ev : Option (Reg Wait)
  state : BtSt
  hciId : Int
  channel : UInt8
  peer : Option BdAddr
  deriving DecidableEq, Repr

structure St where
  bt2 : Bt2
  host : Host Wait
  /-- The peer of a connection that `accept4` takes, and its channel. -/
  caller : BdAddr × UInt8
  /-- The pieces `send` has taken, with their descriptors. -/
  tx : List (Int × List UInt8)
  /-- What the scan mode of the adapter was last set to. -/
  scan : Option UInt32

abbrev M := StateM St

def eintr : Int := 4
def eagain : Int := 11
def ealready : Int := 114
def einprogress : Int := 115

def flagRead : UInt32 := 1
def flagWrite : UInt32 := 2
def flagExcept : UInt32 := 4
def flagTimeout : UInt32 := 8

/-- `ALOE_EVB2_INFINITE`. -/
def infinite : UInt64 := 0xFFFFFFFFFFFFFFFF

def scanInquiry : UInt32 := 1
def scanPage : UInt32 := 2

def modifyBt (f : Bt2 → Bt2) : M Unit := modify fun s => { s with bt2 := f s.bt2 }

/-! ## The kernel and the event loop -/

def onHost {α : Type} (m : StateM (Host Wait) α) : M α := zoom St.host (fun h s => { s with host := h }) m

def ask : M Int := onHost Hosts.ask

def newFd : M Int := onHost Hosts.newFd

def close (fd : Int) : M Unit := onHost (Hosts.close fd)

def aloeEvb2AddFd (fd : Int) (wait : Wait) : M (Option (Reg Wait)) := onHost (watch fd wait)

/-- `evconn_cancel`. -/
def evconnCancel : M Unit := do
  let s ← get
  match s.bt2.ev with
  | none => return ()
  | some reg => do
    onHost (unwatch reg)
    modifyBt fun b => { b with ev := none }

/-! ## The adapter -/

/-- `bt_hci_fd`. -/
def btHciFd : M Int := newFd

/-- `bt_hci_addr`: whether the address was read, for the log. -/
def btHciAddr : M Bool := do
  let fd ← btHciFd
  if fd < 0 then return false
  else do
    let r ← ask
    close fd
    return decide (0 ≤ r)

def btHciUp : M Int := do
  let fd ← btHciFd
  if fd < 0 then return -1
  else do
    let r ← ask
    close fd
    if r < 0 ∧ -r ≠ ealready then return -1
    else do
      let _ ← btHciAddr
      return 0

def btScanSet (scan : UInt32) : M Int := do
  let fd ← btHciFd
  if fd < 0 then return -1
  else do
    let r ← ask
    close fd
    if r < 0 then return -1
    else do
      modify fun s => { s with scan := some scan }
      return 0

/-- The scan mode `bt_discoverable` asks for. -/
def scanFor (on : Bool) (st : BtSt) : UInt32 :=
  if on then scanInquiry ||| scanPage else if st = .listen then scanPage else 0

def btDiscoverable (on : Bool) : M Int := do
  let r ← btHciUp
  if r ≠ 0 then return -1
  else do
    let s ← get
    let r ← btScanSet (scanFor on s.bt2.state)
    if r ≠ 0 then return -1 else return 0

/-! ## The session -/

/-- The descriptor, in `bt_session_close`. -/
def closeOwn : M Unit := do
  let s ← get
  if 0 ≤ s.bt2.fd then do
    close s.bt2.fd
    modifyBt fun b => { b with fd := -1 }
  else pure ()

def btSessionClose : M Unit := do
  evconnCancel
  closeOwn
  modifyBt fun b => { b with state := .idle, peer := none }

def btArm (wait : Wait) : M Int := do
  evconnCancel
  let s ← get
  let reg ← aloeEvb2AddFd s.bt2.fd wait
  modifyBt fun b => { b with ev := reg }
  if reg = none then return -1 else return 0

def btArmRx : M Int := btArm ⟨flagRead, infinite, .rx⟩

/-- `bt_rfcomm_socket`: the security level and `O_NONBLOCK` can fail. -/
def btRfcommSocket : M Int := do
  let fd ← newFd
  if fd < 0 then return -1
  else do
    let r ← ask
    if r < 0 then do
      close fd
      return -1
    else do
      let r ← ask
      if r < 0 then do
        close fd
        return -1
      else return fd

/-- The loop of `bt_rx_cb`. -/
def rxLoop : Nat → M Unit
  | 0 => pure ()
  | fuel + 1 => do
    let len ← ask
    if len < 0 then
      if -len = eintr then rxLoop fuel
      else if -len = eagain then return ()
      else btSessionClose
    else if len = 0 then btSessionClose
    else rxLoop fuel

def btRxCb (fd : Int) (ev : UInt32) : M Unit := do
  let s ← get
  if s.bt2.fd ≠ fd then return ()
  else if ev &&& flagRead = 0 then return ()
  else rxLoop (s.host.answers.length + 1)

def btAcceptCb (fd : Int) (ev : UInt32) : M Unit := do
  let s ← get
  if s.bt2.fd ≠ fd then return ()
  else if ev &&& flagRead = 0 then return ()
  else do
    let conn ← newFd
    if conn < 0 then return ()
    else do
      btSessionClose
      modifyBt fun b => { b with peer := some s.caller.1, channel := s.caller.2, fd := conn, state := .connected }
      let r ← ask
      if r < 0 then btSessionClose
      else do
        let r ← btArmRx
        if r ≠ 0 then btSessionClose else return ()

/-- `bt_connect_cb`. `getsockopt` gives the error of the connection. -/
def btConnectCb (fd : Int) (ev : UInt32) : M Unit := do
  let s ← get
  if s.bt2.fd ≠ fd then return ()
  else if ev &&& (flagTimeout ||| flagExcept) ≠ 0 then btSessionClose
  else if ev &&& flagWrite = 0 then return ()
  else do
    let err ← ask
    if err ≠ 0 then btSessionClose
    else do
      modifyBt fun b => { b with state := .connected }
      let r ← btArmRx
      if r ≠ 0 then btSessionClose else return ()

/-- The two calls that make a socket of `bt_listen` listen. -/
def bindListen (fd : Int) : M Int := do
  let r ← ask
  if r < 0 then do
    close fd
    return -1
  else do
    let r ← ask
    if r < 0 then do
      close fd
      return -1
    else return 0

def btListen (channel : Int) : M Int := do
  if channel < 1 ∨ 30 < channel then return -1
  else do
    let r ← btHciUp
    if r ≠ 0 then return -1
    else do
      btSessionClose
      let fd ← btRfcommSocket
      if fd < 0 then return -1
      else do
        let r ← bindListen fd
        if r < 0 then return -1
        else do
          modifyBt fun b => { b with fd := fd, channel := UInt8.ofInt channel, state := .listen }
          let r ← btArm ⟨flagRead, infinite, .accept⟩
          if r ≠ 0 then do
            btSessionClose
            return -1
          else return 0

/-- `str2ba`, of the numbers `sscanf` has read if it has read all six. -/
def str2ba (scanned : Option (List UInt32)) : Option BdAddr :=
  match scanned with
  | none => none
  | some b => if b.any (0xff < ·) then none else some (b.reverse.map UInt32.toUInt8)

def btConnect (addr : Option (List UInt32)) (channel : Int) : M Int := do
  if channel < 1 ∨ 30 < channel then return -1
  else match str2ba addr with
  | none => return -1
  | some peer => do
    let r ← btHciUp
    if r ≠ 0 then return -1
    else do
      btSessionClose
      let fd ← btRfcommSocket
      if fd < 0 then return -1
      else do
        let r ← ask
        if r < 0 ∧ -r ≠ einprogress then do
          close fd
          return -1
        else do
          modifyBt fun b => { b with peer := some peer, fd := fd, channel := UInt8.ofInt channel, state := .connecting }
          let r ← btArm ⟨flagWrite ||| flagExcept, 30000, .connect⟩
          if r ≠ 0 then do
            btSessionClose
            return -1
          else return 0

/-- The loop of `bt_send`. -/
def sendLoop : Nat → List UInt8 → M Int
  | 0, _ => return -1
  | fuel + 1, rest =>
    if rest = [] then return 0
    else do
      let s ← get
      let n ← ask
      if n < 0 then
        if -n = eintr then sendLoop fuel rest
        else do
          btSessionClose
          return -1
      else do
        modify fun t => { t with tx := t.tx ++ [(s.bt2.fd, rest.take n.toNat)] }
        sendLoop fuel (rest.drop n.toNat)

def btSend (text : List UInt8) : M Int := do
  let s ← get
  if s.bt2.state ≠ .connected ∨ s.bt2.fd < 0 then return -1
  else sendLoop (s.host.answers.length + 1) text

/-- The loop of `btrfcomm send`, which puts the words into a buffer of 512 bytes. -/
def joinWords (text : List UInt8) (first : Bool) : List (List UInt8) → Option (List UInt8)
  | [] => some text
  | w :: ws =>
    let piece := (if first then [] else [32]) ++ w
    if 512 - text.length ≤ piece.length then none else joinWords (text ++ piece) false ws

/-- A command line of `btrfcomm` with its numbers read: a channel by `atoi`, an address by `sscanf`. -/
inductive Cmd where
  | up
  | discoverable (on : Bool)
  | listen (channel : Int)
  | connect (addr : Option (List UInt32)) (channel : Int)
  | send (words : List (List UInt8))
  | close

def cliCmdBtrfcomm : Cmd → M Int
  | .up => btHciUp
  | .discoverable on => btDiscoverable on
  | .listen channel => btListen channel
  | .connect addr channel => btConnect addr channel
  | .send [] => return -1
  | .send words =>
    match joinWords [] true words with
    | none => return -1
    | some text => btSend text
  | .close => do
    btSessionClose
    return 0

/-! ## Runs -/

def callback (reg : Reg Wait) (ev : UInt32) : M Unit :=
  match reg.how.cb with
  | .accept => btAcceptCb reg.fd ev
  | .connect => btConnectCb reg.fd ev
  | .rx => btRxCb reg.fd ev

inductive Event where
  | cli (c : Cmd)
  /-- The event loop calls the callback of a registration that stands. -/
  | ready (reg : Reg Wait) (ev : UInt32)

/-- An event, with the answers the kernel has for it and the peer that may be calling. -/
structure Turn where
  event : Event
  answers : List Int
  caller : BdAddr × UInt8

def step (s : St) (t : Turn) : Option St :=
  let s := { s with host := { s.host with answers := t.answers }, caller := t.caller }
  match t.event with
  | .cli c => some (cliCmdBtrfcomm c s).2
  | .ready reg ev => if reg ∈ s.host.regs.held then some (callback reg ev s).2 else none

/-- `bt_init`. -/
def btInit : St where
  bt2 := ⟨-1, none, .idle, 0, 0, none⟩
  host := .empty
  caller := ([], 0)
  tx := []
  scan := none

end AlgaeBp.Btrf
