import AlgaeBp.Lib.Bytes
/-!
# The CC1352 flasher

`cc1352-flash` talks to the ROM bootloader of a CC1352 over a UART: it
synchronises, erases, downloads, compares a CRC and resets. Any unexpected
answer makes the program exit.

The target is a `Peer`, a machine that takes one byte after another and
answers each with some bytes, which then wait to be read. What `poll`, `read`
and `write` do is a list of attempts; after the last one every call transfers
all it can. The model starts with the UART opened and flushed and the target
in its bootloader.
-/
open Bytes

namespace AlgaeBp.Flash

/-! ## The UART -/

/-- One round of the loop of `transfer`. -/
inductive Attempt where
  /-- EINTR of `poll`, EINTR or EAGAIN of `read` and `write`. -/
  | again
  /-- At most so many bytes are transferred. -/
  | count (n : Nat)
  /-- The deadline, a hangup or another error. -/
  | failed
  deriving DecidableEq, Repr

/-- What the program does on the UART. -/
inductive Event where
  /-- `command` starts to write a packet. -/
  | start (cmd : UInt8)
  | sent (b : UInt8)
  | got (b : UInt8)
  deriving DecidableEq, Repr

structure Peer (σ : Type) where
  feed : σ → UInt8 → σ × List UInt8

variable {σ : Type}

/-- The target after some bytes, and its answers to them. -/
def Peer.feedAll (p : Peer σ) : σ → List UInt8 → σ × List UInt8
  | s, [] => (s, [])
  | s, b :: bs =>
    let (s, out) := p.feed s b
    let (s, more) := p.feedAll s bs
    (s, out ++ more)

structure Host (σ : Type) where
  target : σ
  /-- Bytes of the target not yet read. -/
  rx : List UInt8
  attempts : List Attempt
  wire : List Event

/-- Programs that may exit with `EXIT_FAILURE`. -/
abbrev M (σ : Type) := OptionT (StateM (Host σ))

/-- The loop of `transfer` for reading: what is read, whether that is all, and the attempts left. -/
def readAttempts : List Attempt → List UInt8 → Nat → List UInt8 × Bool × List Attempt
  | attempts, _, 0 => ([], true, attempts)
  | [], rx, len => (rx.take len, decide (len ≤ rx.length), [])
  | .again :: attempts, rx, len => readAttempts attempts rx len
  | .failed :: attempts, _, _ => ([], false, attempts)
  | .count n :: attempts, rx, len =>
    let r := min n (min len rx.length)
    if r = 0 then ([], false, attempts)
    else
      let (more, ok, attempts) := readAttempts attempts (rx.drop r) (len - r)
      (rx.take r ++ more, ok, attempts)

/-- The loop of `transfer` for writing: how many bytes are written and the attempts left. -/
def writeAttempts : List Attempt → Nat → Nat × List Attempt
  | attempts, 0 => (0, attempts)
  | [], len => (len, [])
  | .again :: attempts, len => writeAttempts attempts len
  | .failed :: attempts, _ => (0, attempts)
  | .count n :: attempts, len =>
    let r := min n len
    if r = 0 then (0, attempts)
    else
      let (more, attempts) := writeAttempts attempts (len - r)
      (r + more, attempts)

/-- `transfer` for reading. -/
def transferIn (len : Nat) : M σ (List UInt8) := OptionT.mk fun h =>
  let (data, ok, attempts) := readAttempts h.attempts h.rx len
  let h := { h with rx := h.rx.drop data.length, attempts := attempts, wire := h.wire ++ data.map .got }
  (if ok then some data else none, h)

/-- `transfer` for writing. -/
def transferOut (p : Peer σ) (data : List UInt8) : M σ Unit := OptionT.mk fun h =>
  let (n, attempts) := writeAttempts h.attempts data.length
  let (target, answers) := p.feedAll h.target (data.take n)
  let h := { target := target, rx := h.rx ++ answers, attempts := attempts, wire := h.wire ++ (data.take n).map .sent }
  (if n = data.length then some () else none, h)

/-! ## Packets -/

def ack : UInt8 := 0xcc
def nack : UInt8 := 0x33

/-- The loop of `nonzero`. It ends after the bytes that are there, as then `transfer` does. -/
def nonzeroLoop : Nat → M σ UInt8
  | 0 => failure
  | n + 1 => do
    let b ← transferIn 1
    if b = [0] then nonzeroLoop n else return b.headD 0

def nonzero : M σ UInt8 := do
  let h ← get
  nonzeroLoop (h.rx.length + 1)

def expectAck : M σ Unit := do
  let b ← nonzero
  if b ≠ ack then failure else return ()

def checksum (data : List UInt8) : UInt8 := data.foldl (· + ·) 0

/-- The packet of a command. -/
def packet (cmd : UInt8) (data : List UInt8) : List UInt8 :=
  [UInt8.ofNat (data.length + 3), cmd + checksum data, cmd] ++ data

def started (cmd : UInt8) : M σ Unit := modify (fun h => { h with wire := h.wire ++ [.start cmd] })

def command (p : Peer σ) (cmd : UInt8) (data : List UInt8) : M σ Unit :=
  if data.length > 252 then failure
  else do
    started cmd
    transferOut p (packet cmd data)
    expectAck

/-- `response` of `n` bytes. -/
def response (p : Peer σ) (n : Nat) : M σ (List UInt8) := do
  let len ← nonzero
  if len.toNat ≠ n + 2 then failure
  else do
    let sum ← transferIn 1
    let data ← transferIn n
    if sum ≠ [checksum data] then do
      transferOut p [nack]
      failure
    else do
      transferOut p [ack]
      return data

def status (p : Peer σ) : M σ Unit := do
  command p 0x23 []
  let s ← response p 1
  if s ≠ [0x40] then failure else return ()

def be32 (v : UInt32) : List UInt8 := [(v >>> 24).toUInt8, (v >>> 16).toUInt8, (v >>> 8).toUInt8, v.toUInt8]

def crcBit (c : UInt32) : UInt32 := (c >>> 1) ^^^ (0xedb88320 &&& (0 - (c &&& 1)))

def crc32 (data : List UInt8) : UInt32 :=
  data.foldl (fun c b => Nat.iterate crcBit 8 (c ^^^ b.toUInt32)) 0xffffffff ^^^ 0xffffffff

/-! ## The program -/

def flashSize : Nat := 704 * 1024

/-- The image, filled up with FF. -/
def padded (image : List UInt8) : List UInt8 := image ++ List.replicate (flashSize - image.length) 0xff

/-- The loop that sends the image from an offset on. -/
def programLoop (p : Peer σ) (image : List UInt8) (off : Nat) : M σ Unit :=
  if _ : off < flashSize then do
    command p 0x24 ((image.drop off).take (min (flashSize - off) 252))
    status p
    programLoop p image (off + 252)
  else return ()
termination_by flashSize - off
decreasing_by exact Nat.sub_lt_sub_left ‹_› (by omega)

def program (p : Peer σ) (image : List UInt8) : M σ Unit := do
  command p 0x2c []
  status p
  command p 0x21 (be32 0 ++ be32 (UInt32.ofNat flashSize))
  status p
  programLoop p image 0

def programUnless (p : Peer σ) (verify : Bool) (image : List UInt8) : M σ Unit :=
  if verify then return () else program p image

/-- `actual != expected` on the four bytes of the CRC response. -/
def compareCrc (result : List UInt8) (expected : UInt32) : M σ Unit :=
  if leNat result.reverse ≠ expected.toNat then failure else return ()

/-- `main` from the first byte on the UART, with the padded image. -/
def session (p : Peer σ) (verify : Bool) (image : List UInt8) : M σ Unit := do
  transferOut p [0x55, 0x55]
  expectAck
  status p
  programUnless p verify image
  command p 0x27 (be32 0 ++ be32 (UInt32.ofNat flashSize) ++ be32 0)
  let result ← response p 4
  compareCrc result (crc32 image)
  command p 0x25 []

/-- `main` on a firmware file; the result `some ()` is exit code 0. -/
def main (p : Peer σ) (verify : Bool) (file : List UInt8) : M σ Unit :=
  if file.length = 0 ∨ file.length > flashSize then failure else session p verify (padded file)

end AlgaeBp.Flash
