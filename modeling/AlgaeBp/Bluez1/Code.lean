import Mathlib.Logic.Function.Basic
/-!
# The BlueZ peripheral

`bluez1.cpp`: one object that owns a worker thread, a private bus connection and
what it exports there. Public calls are serialised, and the caller of
`bluez1_start` waits for the worker, joining it if `setup` fails, so what the two
threads do is one sequence. GLib is asked for each step that can fail
(`StartEnv`, `Answers`); while a D-Bus call is awaited, and while the worker runs
its main loop, others call the exported characteristics (`Happening`).
Of the methods only those of the characteristics change anything; the object
manager, the agent and the properties are left out.
-/

namespace AlgaeBp.Bluez1

/-- A D-Bus object path. -/
abbrev Path := String

/-- What GLib knows of D-Bus. -/
class GLib where
  /-- `g_variant_is_object_path`. -/
  isObjectPath : Path → Bool

export GLib (isObjectPath)

/-! ## The object -/

/-- What is registered with BlueZ over the connection. -/
inductive Registration where
  | agent
  | application
  | advertisement
  deriving DecidableEq, Repr

/-- A signal `PropertiesChanged` of the characteristic that is read. -/
inductive Signal where
  | notifying (on : Bool)
  | value (data : List UInt8)
  deriving DecidableEq, Repr

/-- `State`, and below `arg` what the module leaves outside. -/
structure State where
  /-- Pointers that are not `NULL`. -/
  context : Bool
  loop : Bool
  worker : Bool
  xml : Bool
  /-- Whether `bus` has been closed by the peer. -/
  bus : Option Bool
  /-- The first `object_count` of `objects`. -/
  objects : List Nat
  value : Fin 20 → UInt8
  valueSize : Nat
  adapter : Option Path
  notifying : Bool
  active : Bool
  pairing : Bool
  oldPairable : Bool
  restorePairable : Bool
  ready : Bool
  startResult : Int
  receive : Option Nat
  arg : Nat
  /-- The objects exported on the connection. -/
  exports : List Nat
  registered : List Registration
  signals : List Signal
  /-- The calls of `receive`. -/
  received : List (Nat × List UInt8 × Nat)
  /-- Properties of the adapters. -/
  pairable : Path → Bool
  powered : Path → Bool

/-- As `bluez1_init` makes it. -/
def initial (pairable powered : Path → Bool) : State where
  context := false
  loop := false
  worker := false
  xml := false
  bus := none
  objects := []
  value := fun _ => 0
  valueSize := 0
  adapter := none
  notifying := false
  active := false
  pairing := false
  oldPairable := false
  restorePairable := false
  ready := false
  startResult := 0
  receive := none
  arg := 0
  exports := []
  registered := []
  signals := []
  received := []
  pairable := pairable
  powered := powered

/-- `bytes`. -/
def bytes (s : State) (offset : Nat) : List UInt8 := ((List.ofFn s.value).take s.valueSize).drop offset

def changed (signal : Signal) (s : State) : State := { s with signals := s.signals ++ [signal] }

/-! ## The characteristics -/

inductive Characteristic where
  | rx
  | tx
  deriving DecidableEq, Repr

inductive Method where
  | writeValue (data : List UInt8) (offset : UInt16) (prepare : Bool)
  | readValue (offset : UInt16)
  | startNotify
  | stopNotify
  deriving DecidableEq, Repr

inductive Reply where
  | done
  | value (data : List UInt8)
  | error (name message : String)
  deriving DecidableEq, Repr

def notSupported : Reply := .error "org.bluez.Error.NotSupported" "Operation not supported by this characteristic"

/-- `if (s->receive) s->receive(data, size, s->arg)`. -/
def deliver (data : List UInt8) (s : State) : State :=
  match s.receive with
  | some f => { s with received := s.received ++ [(f, data, s.arg)] }
  | none => s

def setNotifying (on : Bool) (s : State) : State := changed (.notifying on) { s with notifying := on }

/-- `method`, for `org.bluez.GattCharacteristic1`. -/
def method (path : Characteristic) (m : Method) (s : State) : Reply × State :=
  match m, path with
  | .writeValue data offset prepare, .rx =>
    if offset ≠ 0 ∨ prepare = true ∨ data.length > 20 then
      (.error "org.bluez.Error.NotSupported" "Only complete messages of at most 20 bytes are supported", s)
    else (.done, deliver data s)
  | .readValue offset, .tx =>
    if offset.toNat > s.valueSize then (.error "org.bluez.Error.InvalidOffset" "Offset exceeds value length", s)
    else (.value (bytes s offset.toNat), s)
  | .startNotify, .tx => (.done, setNotifying true s)
  | .stopNotify, .tx => (.done, setNotifying false s)
  | _, _ => (notSupported, s)

/-- What others do while the worker dispatches. -/
inductive Happening where
  | method (path : Characteristic) (m : Method)
  /-- The peer closes the connection. -/
  | closed
  deriving DecidableEq, Repr

def happen (s : State) : Happening → State
  | .method path m => (method path m s).2
  | .closed => { s with bus := s.bus.map fun _ => true }

/-! ## D-Bus calls -/

inductive DbusCall where
  | getPairable
  | setPowered
  | registerAgent
  | requestDefaultAgent
  | setPairable
  | registerApplication
  | registerAdvertisement
  | restorePairable
  | pair
  deriving DecidableEq, Repr

/-- What becomes of the D-Bus calls: which succeed, and what happens while one is awaited. -/
structure Answers where
  succeeds : DbusCall → Bool
  during : DbusCall → List Happening

/-- `command`, where `effect` is what the call does unless it reports an error. -/
def command (a : Answers) (c : DbusCall) (effect : State → State) : StateM State Bool := do
  modify fun s => (a.during c).foldl happen s
  if a.succeeds c then
    modify effect
    return true
  else return false

/-- `s->adapter`, where it is passed on. -/
def adapterPath (s : State) : Path := s.adapter.getD ""

def setPairable (on : Bool) (s : State) : State :=
  { s with pairable := Function.update s.pairable (adapterPath s) on }

def setPowered (s : State) : State := { s with powered := Function.update s.powered (adapterPath s) true }

def register (r : Registration) (s : State) : State := { s with registered := s.registered ++ [r] }

/-! ## Starting and cleaning up -/

/-- What GLib and BlueZ answer to `bluez1_start`. -/
structure StartEnv extends Answers where
  /-- `g_thread_try_new`. -/
  thread : Bool
  /-- `g_dbus_address_get_for_bus_sync` and `g_dbus_connection_new_for_address_sync`. -/
  address : Bool
  connect : Bool
  /-- `g_dbus_node_info_new_for_xml`. -/
  nodeInfo : Bool
  /-- `g_dbus_connection_register_object` for each of the six paths, 0 if it fails. -/
  exportId : Nat → Nat

/-- Code that may return -1. -/
abbrev Setup := OptionT (StateM State)

/-- `return -1` unless `ok`. -/
def ensure (ok : Bool) : Setup Unit := if ok then pure () else failure

def ensureM (ok : StateM State Bool) : Setup Unit := do ensure (← ok)

/-- The loop that exports the objects. -/
def exportAll (exportId : Nat → Nat) : List Nat → Setup Unit
  | [] => pure ()
  | i :: rest => do
    ensure (exportId i ≠ 0)
    modify fun s => { s with exports := s.exports ++ [exportId i], objects := s.objects ++ [exportId i] }
    exportAll exportId rest

def setup (env : StartEnv) : Setup Unit := do
  ensure (env.address && env.connect)
  modify ({ · with bus := some false })
  ensure env.nodeInfo
  modify ({ · with xml := true })
  exportAll env.exportId (List.range 6)
  ensureM (command env.toAnswers .getPairable fun s => { s with oldPairable := s.pairable (adapterPath s) })
  ensureM (command env.toAnswers .setPowered setPowered)
  ensureM (command env.toAnswers .registerAgent (register .agent))
  ensureM (command env.toAnswers .requestDefaultAgent id)
  ensureM (command env.toAnswers .setPairable (setPairable true))
  modify ({ · with restorePairable := true })
  ensureM (command env.toAnswers .registerApplication (register .application))
  ensureM (command env.toAnswers .registerAdvertisement (register .advertisement))
  modify ({ · with active := true })

def unregisterObject (s : State) (id : Nat) : State := { s with exports := s.exports.erase id }

/-- `g_dbus_connection_close_sync` and the end of the connection, which owns what is registered over it. -/
def closeBus (s : State) : State := { s with registered := [], bus := none }

def restore (a : Answers) : StateM State Unit := do
  if (← get).restorePairable then
    let _ ← command a .restorePairable fun s => setPairable s.oldPairable s
    return ()
  else return ()

def cleanup (a : Answers) : StateM State Unit := do
  if (← get).bus.isSome then
    restore a
    modify fun s => s.objects.foldl unregisterObject s
    modify closeBus
  modify ({ · with objects := [], xml := false, active := false, notifying := false, restorePairable := false })

/-- `worker_main` up to its main loop, or to its end if `setup` fails. -/
def workerMain (env : StartEnv) : StateM State Unit := do
  match ← (setup env).run with
  | some () => modify ({ · with startResult := 0, ready := true })
  | none =>
    modify ({ · with startResult := -1, ready := true })
    cleanup env.toAnswers

/-- `release_worker`, which joins the worker. -/
def releaseWorker (s : State) : State := { s with worker := false, loop := false, context := false, adapter := none }

/-- The rest of `bluez1_start` once there is a worker. -/
def awaitWorker (env : StartEnv) : StateM State Int := do
  modify ({ · with worker := true })
  workerMain env
  if (← get).startResult ≠ 0 then
    modify releaseWorker
    return -1
  else return 0

/-- What `bluez1_start` gets ready for the worker. -/
def prepare (path : Path) (receive : Option Nat) (arg : Nat) (s : State) : State :=
  { s with adapter := some path, receive, arg, context := true, loop := true, ready := false }

def bluez1Start [GLib] (adapter : Option Path) (receive : Option Nat) (arg : Nat) (env : StartEnv) : StateM State Int := do
  let path := adapter.getD "/org/bluez/hci0"
  if (← get).worker = true ∨ isObjectPath path = false then return -1
  else
    modify (prepare path receive arg)
    if env.thread then awaitWorker env
    else
      modify ({ · with loop := false, context := false, adapter := none })
      return -1

/-- The worker leaves its main loop and cleans up; then it is joined. -/
def bluez1Stop (a : Answers) : StateM State Int := do
  if (← get).worker = false then return 0
  else
    cleanup a
    modify releaseWorker
    return 0

/-! ## Sending and pairing -/

/-- `memcpy(s->value, data, size)`, where `data` is not read beyond `size`. -/
def copyValue (data : Nat → UInt8) (size : Nat) (s : State) : State :=
  { s with value := fun i => if i.val < size then data i else s.value i, valueSize := size }

def sendWork (data : Nat → UInt8) (size : Nat) (notify : Bool) : StateM State Int := do
  let s ← get
  if s.active = false ∨ s.bus ≠ some false ∨ notify = true ∧ s.notifying = false then return -1
  else
    modify (copyValue data size)
    if notify then modify fun s => changed (.value (bytes s 0)) s
    return 0

/-- `data` is what the pointer points to, if it is not `NULL`. -/
def bluez1Send (data : Option (Nat → UInt8)) (size : Nat) (notify : Bool) : StateM State Int := do
  if (← get).worker = false ∨ size > 20 ∨ size ≠ 0 ∧ data = none then return -1
  else sendWork (data.getD fun _ => 0) size notify

def pairWork (a : Answers) : StateM State Int := do
  let s ← get
  if s.active = false ∨ s.pairing = true then return -1
  else
    modify ({ · with pairing := true })
    let ok ← command a .pair id
    modify ({ · with pairing := false })
    return if ok then 0 else -1

def bluez1Pair [GLib] (device : Option Path) (a : Answers) : StateM State Int := do
  if (← get).worker = false ∨ device.all isObjectPath = false ∨ device = none then return -1
  else pairWork a

/-! ## Runs -/

inductive Call where
  | start (adapter : Option Path) (receive : Option Nat) (arg : Nat) (env : StartEnv)
  | stop (a : Answers)
  | send (data : Option (Nat → UInt8)) (size : Nat) (notify : Bool)
  | pair (device : Option Path) (a : Answers)
  /-- The worker dispatches in its main loop. -/
  | loop (h : Happening)

/-- What a call returns and leaves. -/
def call [GLib] (c : Call) : StateM State Int :=
  match c with
  | .start adapter receive arg env => bluez1Start adapter receive arg env
  | .stop a => bluez1Stop a
  | .send data size notify => bluez1Send data size notify
  | .pair device a => bluez1Pair device a
  | .loop h => do
    if (← get).worker then modify fun s => happen s h
    return 0

def step [GLib] (s : State) (c : Call) : Option State := some (call c s).2

end AlgaeBp.Bluez1
