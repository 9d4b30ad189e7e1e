import AlgaeBp.Lib.Host
import AlgaeBp.Tailq.Code
/-!
# The management socket of `tester1`

`mgmt.cpp` listens on a local socket. Each connection has a record in the heap
that is linked into a queue of the server, and a registration with the event
loop whose callback gets the address of the record.

`aloe_calloc` gives an address that is not in use, which may have been in use
before, or none. Every access through a pointer marks the record as used. What
`read` reads is only logged, and left out.
-/
open Hosts Ledgers StateWp

namespace AlgaeBp.Mgmt

open Tailq

inductive Cb where
  | accept
  | client
  deriving DecidableEq, Repr

/-- The callback of a registration and its argument. All wait for `ALOE_EVB2_FLAG_READ` without end. -/
structure Wait where
  cb : Cb
  cbarg : Nat
  deriving DecidableEq, Repr

/-- `evconn_t`, without its queue entry. -/
structure Evconn where
  fd : Int
  ev : Option (Reg Wait)
  deriving DecidableEq, Repr

/-- `mgmt1_client_t`. -/
structure Client where
  evconn : Evconn
  mgmt : Option Nat
  deriving DecidableEq, Repr

structure St where
  host : Host Wait
  /-- The addresses `aloe_calloc` has given. -/
  blocks : Ledger Nat
  /-- What `mgmt1_init` has returned. -/
  ctx : Option Nat
  /-- `evconn` of the `mgmt1_t`. -/
  server : Evconn
  /-- The queue entries of the clients and `client_list`. -/
  links : Heap Unit Nat
  clients : Nat → Client

abbrev M := StateM St

def eagain : Int := 11

def flagRead : UInt32 := 1

/-- `sizeof(sun_path)`. -/
def sunPathSz : Nat := 108

def onHost {α : Type} (m : StateM (Host Wait) α) : M α := zoom St.host (fun h s => { s with host := h }) m

def ask : M Int := onHost Hosts.ask

def newFd : M Int := onHost Hosts.newFd

def close (fd : Int) : M Unit := onHost (Hosts.close fd)

/-! ## Memory -/

def aloeCalloc : M (Option Nat) := do
  let r ← ask
  let s ← get
  if r < 0 then return none
  else if r.toNat ∈ s.blocks.held then return none
  else do
    modify fun s => { s with blocks := s.blocks.take r.toNat }
    return some r.toNat

def aloeFree (p : Nat) : M Unit := modify fun s => { s with blocks := s.blocks.give p }

/-- The record at `p` is read or written. -/
def access (p : Nat) : M Unit := modify fun s => { s with blocks := s.blocks.use p }

/-- The record a pointer of the queue is in. -/
def ownerOf (mgmt : Nat) : Loc Unit Nat → Nat
  | .first _ => mgmt
  | .next client => client

def modifyClient (client : Nat) (f : Client → Client) : M Unit := do
  access client
  modify fun s => { s with clients := Function.update s.clients client (f (s.clients client)) }

/-! ## `evconn` -/

/-- `evconn_add_read`, for the connection of a client. -/
def clientAddRead (client : Nat) : M Bool := do
  let s ← get
  let ev ← onHost (watch (s.clients client).evconn.fd ⟨.client, client⟩)
  modifyClient client fun c => { c with evconn.ev := ev }
  return ev.isSome

/-- `evconn_cancel`. -/
def clientCancel (client : Nat) : M Unit := do
  access client
  let s ← get
  match (s.clients client).evconn.ev with
  | none => return ()
  | some reg => do
    onHost (unwatch reg)
    modifyClient client fun c => { c with evconn.ev := none }

/-- The end of a client's record: the descriptor is closed `if (client->evconn.fd)`. -/
def clientClose (client : Nat) : M Unit := do
  access client
  let s ← get
  if (s.clients client).evconn.fd ≠ 0 then close (s.clients client).evconn.fd else pure ()

/-- `evconn_add_read` and `evconn_cancel` of the server. -/
def serverAddRead (mgmt : Nat) : M Bool := do
  access mgmt
  let s ← get
  let ev ← onHost (watch s.server.fd ⟨.accept, mgmt⟩)
  modify fun s => { s with server.ev := ev }
  return ev.isSome

def serverCancel (mgmt : Nat) : M Unit := do
  access mgmt
  let s ← get
  match s.server.ev with
  | none => return ()
  | some reg => do
    onHost (unwatch reg)
    modify fun s => { s with server.ev := none }

/-- The end of the server's record. -/
def serverClose (mgmt : Nat) : M Unit := do
  serverCancel mgmt
  let s ← get
  if s.server.fd ≠ -1 then close s.server.fd else pure ()
  aloeFree mgmt

/-! ## Clients -/

def mgmt1ClientAdd (mgmt client : Nat) : M Unit := do
  let s ← get
  access client
  access (ownerOf mgmt (s.links.tqhLast ()))
  access mgmt
  modify fun s => { s with links := tailqInsertTail s.links () client }

def mgmt1ClientRm (mgmt client : Nat) : M Unit := do
  let s ← get
  access client
  access ((s.links.tqeNext client).getD mgmt)
  access (ownerOf mgmt (s.links.tqePrev client))
  modify fun s => { s with links := tailqRemove s.links () client }

def mgmt1ClientRelease (client : Nat) : M Unit := do
  clientCancel client
  clientClose client
  let s ← get
  match (s.clients client).mgmt with
  | none => aloeFree client
  | some mgmt => do
    mgmt1ClientRm mgmt client
    aloeFree client

def mgmt1ClientCb (ev : UInt32) (client : Nat) : M Unit := do
  if ev &&& flagRead = 0 then return ()
  else do
    let r ← ask
    if r = 0 then mgmt1ClientRelease client
    else if r < 0 ∧ -r ≠ eagain then mgmt1ClientRelease client
    else return ()

/-- The part of `mgmt1_accept_cb` that has a record for the connection. -/
def mgmt1Accepted (mgmt : Nat) (clientFd : Int) (client : Nat) : M Unit := do
  access mgmt
  modifyClient client fun _ => ⟨⟨clientFd, none⟩, some mgmt⟩
  mgmt1ClientAdd mgmt client
  let ok ← clientAddRead client
  if ok then return () else mgmt1ClientRelease client

def mgmt1AcceptCb (mgmt : Nat) : M Unit := do
  let clientFd ← newFd
  if clientFd < 0 then return ()
  else do
    let _ ← ask
    let r ← ask
    if r < 0 then close clientFd
    else do
      let r ← ask
      if r < 0 then close clientFd
      else do
        let client ← aloeCalloc
        match client with
        | none => close clientFd
        | some client => mgmt1Accepted mgmt clientFd client

/-! ## The server -/

/-- What can fail of a new socket: `bind`, `aloe_file_nonblock`, `aloe_so_reuseaddr`, `listen`. -/
def socketSteps : Nat → M Bool
  | 0 => return true
  | n + 1 => do
    let r ← ask
    if r < 0 then return false else socketSteps n

/-- `mgmt1_init` once it has its record. -/
def mgmt1Open (mgmt : Nat) : M (Option Nat) := do
  access mgmt
  modify fun s => { s with links := tailqInit s.links (), server := ⟨-1, none⟩ }
  let fd ← newFd
  if fd < 0 then do
    serverClose mgmt
    return none
  else do
    modify fun s => { s with server.fd := fd }
    let ok ← socketSteps 4
    if ok = false then do
      serverClose mgmt
      return none
    else do
      let ok ← serverAddRead mgmt
      if ok then return some mgmt
      else do
        serverClose mgmt
        return none

def mgmt1Init (path : List UInt8) : M (Option Nat) := do
  if sunPathSz ≤ path.length then return none
  else do
    let mgmt ← aloeCalloc
    match mgmt with
    | none => return none
    | some mgmt => mgmt1Open mgmt

/-- The loop of `mgmt1_destroy`. -/
def destroyLoop (mgmt : Nat) : Nat → M Unit
  | 0 => return ()
  | fuel + 1 => do
    access mgmt
    let s ← get
    match tailqFirst s.links () with
    | none => return ()
    | some client => do
      mgmt1ClientRm mgmt client
      clientCancel client
      clientClose client
      aloeFree client
      destroyLoop mgmt fuel

def mgmt1Destroy (mgmt : Nat) : M Unit := do
  let s ← get
  destroyLoop mgmt (s.blocks.held.length + 1)
  serverClose mgmt

/-! ## Runs -/

inductive Event where
  | init (path : List UInt8)
  | destroy
  /-- The event loop calls the callback of a registration that stands. -/
  | ready (reg : Reg Wait) (ev : UInt32)

def callback (wait : Wait) (ev : UInt32) : M Unit :=
  match wait.cb with
  | .accept => mgmt1AcceptCb wait.cbarg
  | .client => mgmt1ClientCb ev wait.cbarg

def doInit (path : List UInt8) : M Unit := do
  let ctx ← mgmt1Init path
  modify fun s => { s with ctx := ctx }

def doDestroy (mgmt : Nat) : M Unit := do
  mgmt1Destroy mgmt
  modify fun s => { s with ctx := none }

/-- An event, with the answers the kernel has for it. There is one server at a time. -/
def step (s : St) (e : Event × List Int) : Option St :=
  let s := { s with host := { s.host with answers := e.2 } }
  match e.1 with
  | .init path => if s.ctx = none then some (doInit path s).2 else none
  | .destroy => s.ctx.map fun mgmt => (doDestroy mgmt s).2
  | .ready reg ev => if reg ∈ s.host.regs.held then some (callback reg.how ev s).2 else none

def boot (links : Heap Unit Nat) (clients : Nat → Client) : St where
  host := .empty
  blocks := .empty
  ctx := none
  server := ⟨-1, none⟩
  links := links
  clients := clients

end AlgaeBp.Mgmt
