import AlgaeBp.Lib.Bytes
/-!
# The tester's message channel

`ipc1_write` frames a message and writes it to one end of a socket pair,
`ipc1_input` takes what was read from the other end, in pieces of any size,
and hands every message it assembles to `ipc1_input_msg`. A message of type
`ipc1_type_callback1` makes the receiver call a function pointer it carries.

Bytes are fed one at a time, as the loop of `ipc1_input` takes them. The log
stamps what happens with the number of bytes taken so far.
-/
open Bytes

namespace AlgaeBp.Ipc

/-! ## Messages -/

/-- `IPC1_MSG_LEADNG`. -/
def leadingBytes : List UInt8 := [1, 0xa5, 1, 0x5a]

/-- `aloe_offsetafter(ipc1_msg_t, length)`. -/
def hdrLen : Nat := 10

/-- `sizeof(msg_fb_data)`, the capacity of the reassembly buffer. -/
def cap : Nat := 2048

/-- `ipc1_type_callback1`. -/
def typeCallback1 : UInt16 := 1

/-- `ipc1_msg_t` with the bytes of its payload. -/
structure Msg where
  leading : List UInt8
  seq : UInt16
  type : UInt16
  length : UInt16
  val : List UInt8
  deriving DecidableEq, Repr

def Msg.header (m : Msg) : List UInt8 := m.leading ++ le16 m.seq ++ le16 m.type ++ le16 m.length

/-- The message as it lies in memory. -/
def Msg.bytes (m : Msg) : List UInt8 := m.header ++ m.val

/-! ## The receiver -/

inductive ParseState where
  | sync
  | header
  | payload
  deriving DecidableEq, Repr

/-- The fields of `ipc1_t` that reassemble messages. -/
structure Ipc1 where
  msgFbData : Block cap
  msgFbPos : Nat
  parseState : ParseState

/-- `aloe_calloc` in `ipc1_init`. -/
def Ipc1.init : Ipc1 := ⟨Block.fill cap 0, 0, .sync⟩

inductive Event where
  /-- `ipc1_input_msg` is called with this message. -/
  | message (m : Msg)
  /-- `func(cbarg)` in `ipc1_input_msg`. -/
  | call (func cbarg : Nat)
  deriving DecidableEq, Repr

structure St where
  ipc : Ipc1
  /-- Bytes taken so far. -/
  fed : Nat
  log : List (Nat × Event)

def St.init : St := ⟨Ipc1.init, 0, []⟩

/-- The platform: the size of a pointer, and what the uninitialised local
`func` of `ipc1_input_msg` holds when it is called after `k` bytes. -/
structure Platform where
  ptrSize : Nat
  stack : Nat → Nat

/-- A 16-bit field of the message at the start of the buffer. -/
def load16 (data : Block cap) (off : Nat) : Option UInt16 :=
  match data.load off 2 with
  | some [lo, hi] => some (word16 lo hi)
  | _ => none

/-- The local `func` of `ipc1_input_msg`, which nothing sets when the payload is too short for it. -/
def loadFunc (pf : Platform) (fed : Nat) (data : Block cap) (length : Nat) : Option Nat :=
  if pf.ptrSize ≤ length then (data.load hdrLen pf.ptrSize).map leNat else some (pf.stack fed)

/-- The local `cbarg`, initially `NULL`. -/
def loadCbarg (pf : Platform) (data : Block cap) (length : Nat) : Option Nat :=
  if pf.ptrSize + pf.ptrSize ≤ length then (data.load (hdrLen + pf.ptrSize) pf.ptrSize).map leNat else some 0

/-- `ipc1_input_msg` on the message at the start of the buffer. -/
def ipc1InputMsg (pf : Platform) (fed : Nat) (data : Block cap) : Option (List Event) := do
  let leading ← data.load 0 4
  let seq ← load16 data 4
  let type ← load16 data 6
  let length ← load16 data 8
  let val ← data.load hdrLen length.toNat
  let msg := Event.message ⟨leading, seq, type, length, val⟩
  if type = typeCallback1 then
    let func ← loadFunc pf fed data length.toNat
    let cbarg ← loadCbarg pf data length.toNat
    if func ≠ 0 then some [msg, .call func cbarg] else some [msg]
  else some [msg]

/-- `memmove(msg_fb.data, msg_fb.data + n, msg_fb.pos -= n)`. -/
def dropFront (ipc : Ipc1) (n : Nat) : Option Ipc1 := do
  let kept ← ipc.msgFbData.load n (ipc.msgFbPos - n)
  let data ← ipc.msgFbData.store 0 kept
  some { ipc with msgFbData := data, msgFbPos := ipc.msgFbPos - n }

/-- The payload branch of the loop body, reached directly or from the sync branch. -/
def inputPayload (pf : Platform) (s : St) : Option St := do
  let length ← load16 s.ipc.msgFbData 8
  let msgSz := hdrLen + length.toNat
  if s.ipc.msgFbPos < msgSz then some s
  else
    let events ← ipc1InputMsg pf s.fed s.ipc.msgFbData
    let s := { s with log := s.log ++ events.map (fun e => (s.fed, e)) }
    if msgSz ≥ s.ipc.msgFbPos then some { s with ipc := { s.ipc with msgFbPos := 0 } }
    else
      let ipc ← dropFront s.ipc msgSz
      some { s with ipc := ipc }

/-- The loop body after the byte is stored. -/
def inputStored (pf : Platform) (s : St) : Option St :=
  match s.ipc.parseState with
  | .sync =>
    if s.ipc.msgFbPos < hdrLen then some s
    else do
      let leading ← s.ipc.msgFbData.load 0 4
      if leading ≠ leadingBytes then
        let ipc ← dropFront s.ipc 1
        some { s with ipc := ipc }
      else inputPayload pf { s with ipc := { s.ipc with parseState := .payload } }
  | .header => some s
  | .payload => inputPayload pf s

/-- "too long data": a full buffer is given up. -/
def resetFull (ipc : Ipc1) : Ipc1 :=
  if ipc.msgFbPos ≥ cap then { ipc with parseState := .sync, msgFbPos := 0 } else ipc

/-- One round of the loop of `ipc1_input`. -/
def inputByte (pf : Platform) (s : St) (c : UInt8) : Option St := do
  let ipc := resetFull s.ipc
  let data ← ipc.msgFbData.store ipc.msgFbPos [c]
  inputStored pf { s with ipc := { ipc with msgFbData := data, msgFbPos := ipc.msgFbPos + 1 }, fed := s.fed + 1 }

/-- `ipc1_input(ipc, data, data_sz)`. -/
def ipc1Input (pf : Platform) : St → List UInt8 → Option St
  | s, [] => some s
  | s, c :: rest => do
    let s ← inputByte pf s c
    ipc1Input pf s rest

/-- The calls of `ipc1_input` for successive reads. -/
def inputReads (pf : Platform) : St → List (List UInt8) → Option St
  | s, [] => some s
  | s, buf :: rest => do
    let s ← ipc1Input pf s buf
    inputReads pf s rest

/-! ## The sender -/

inductive WriteResult where
  /-- At least one byte was taken, at most what was offered. -/
  | wrote (more : Nat)
  | closed
  | failed
  deriving DecidableEq, Repr

/-- The socket: what it answers to the `i`-th write, how many writes it saw, the bytes it took. -/
structure Socket where
  results : Nat → WriteResult
  writes : Nat
  taken : List UInt8

/-- `write(fd, p, n)`: the bytes still to write, or `none` when nothing was taken. -/
def Socket.write (sk : Socket) (todo : List UInt8) : Socket × Option (List UInt8) :=
  match sk.results sk.writes with
  | .wrote more =>
    ({ sk with writes := sk.writes + 1, taken := sk.taken ++ todo.take (more + 1) }, some (todo.drop (more + 1)))
  | _ => ({ sk with writes := sk.writes + 1 }, none)

/-- The loops `while (data_pos < n)` of `ipc1_write`; every round writes at
least one byte or leaves, so `fuel` is the number of bytes. The result is
the number of bytes left, 0 when all are written. -/
def writeLoop : Nat → Socket → List UInt8 → Socket × Nat
  | 0, sk, todo => (sk, todo.length)
  | fuel + 1, sk, todo =>
    if todo = [] then (sk, 0)
    else
      match sk.write todo with
      | (sk, some todo) => writeLoop fuel sk todo
      | (sk, none) => (sk, todo.length)

/-- The sending process: the static `msg_seq` and the socket. -/
structure Sender where
  msgSeq : UInt32
  socket : Socket

structure Call where
  type : Int
  data : List UInt8

/-- The message `ipc1_write` builds: the `(uint16_t)` casts of its arguments. -/
def Call.msg (c : Call) (seq : UInt16) : Msg where
  leading := leadingBytes
  seq := seq
  type := UInt16.ofBitVec (BitVec.ofInt 16 c.type)
  length := UInt16.ofNat c.data.length
  val := c.data

/-- `ipc1_write` with the lock taken: what it returns, and the value stored in `*seq`. -/
def ipc1Write (w : Sender) (c : Call) : Sender × Nat × UInt16 :=
  let seq := w.msgSeq.toUInt16
  let w := { w with msgSeq := w.msgSeq + 1 }
  match writeLoop hdrLen w.socket (c.msg seq).header with
  | (sk, 0) =>
    match writeLoop c.data.length sk c.data with
    | (sk, left) => ({ w with socket := sk }, c.data.length - left, seq)
  | (sk, _) => ({ w with socket := sk }, 0, seq)

/-- A sequence of calls, and the sequence numbers they report. -/
def writeAll : Sender → List Call → Sender × List UInt16
  | w, [] => (w, [])
  | w, c :: rest =>
    let r := writeAll (ipc1Write w c).1 rest
    (r.1, (ipc1Write w c).2.2 :: r.2)

end AlgaeBp.Ipc
