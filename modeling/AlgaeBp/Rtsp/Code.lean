import Mathlib.Logic.Function.Basic
import AlgaeBp.Lib.Reentrant
import AlgaeBp.Rtsp.Split
/-!
# The RTSP capture source

`V4l2H264FramedSource` of `tester_v4l2rtsp2.cpp` with the pipeline it uses.
Live555 is user code: it calls `doGetNextFrame`, `doStopGettingFrames` and, as
long as background read handling is on, `v4l2ReadableHandler`, and may do so
from inside `afterGetting` and `handleClosure`. What the camera, the encoder,
the clock and Live555 answer is the environment's; `enqueueBuffer` succeeds, and
a buffer that is dequeued is one of `buffers()`.

The state also counts what no code reads: which call of the handler dequeued and
enqueued which buffers, the units of every encoded image, and what was
delivered. Pictures, logging and the dump of the first frame are left out.
-/
open Reentrant

namespace AlgaeBp.Rtsp

/-! ## State -/

/-- What does not change: the capture and the size of the encoder's picture. -/
structure Pipeline where
  /-- `buffers()[i].length`. -/
  buffers : List Nat
  width : UInt32
  height : UInt32
  pixelformat : UInt32
  vencW : UInt32
  vencH : UInt32
  fps : Int

/-- `V4L2_PIX_FMT_SRGGB10`, "RG10". -/
def pixFmtSrggb10 : UInt32 := 0x30314752

def Pipeline.frameDurationUs (pl : Pipeline) : UInt32 := UInt32.ofNat (1000000 / (if 0 < pl.fps then pl.fps.toNat else 30))

/-- `struct timeval`. -/
structure Timeval where
  sec : Int
  usec : Int
  deriving DecidableEq, Repr

/-- An element of `nalQueue`, with the number of its image and its place there. -/
structure QueuedNal where
  bytes : List UInt8
  image : Nat
  place : Nat
  deriving DecidableEq, Repr

/-- What is handed to `afterGetting`. -/
structure Frame where
  image : Nat
  place : Nat
  /-- The bytes at `fTo`. -/
  data : List UInt8
  fFrameSize : UInt32
  fNumTruncatedBytes : UInt32
  fPresentationTime : Timeval
  fDurationInMicroseconds : UInt32
  deriving DecidableEq, Repr

structure St where
  nalQueue : List QueuedNal
  fHaveStartedReading : Bool
  fFramePresentTime : Timeval
  maxNalSize : Nat
  /-- Background read handling is on. -/
  background : Bool
  /-- The calls of `v4l2ReadableHandler` so far, and the buffers each has dequeued and enqueued. -/
  calls : Nat
  dequeued : Nat → List Nat
  enqueued : Nat → List Nat
  /-- The images encoded so far: the units of each, and `fFramePresentTime` when it was encoded. -/
  encoded : Nat
  units : Nat → List (List UInt8)
  stamp : Nat → Timeval
  /-- How many units of the last image were delivered. -/
  sent : Nat
  delivered : List Frame

/-- What the environment decides in one operation. -/
structure Env where
  streaming : Bool := true
  awaiting : Bool := true
  /-- The buffer that `VIDIOC_DQBUF` finds filled. -/
  filled : Option Nat := none
  now : Timeval := ⟨0, 0⟩
  encSize : Int := 0
  annexB : List UInt8 := []
  fMaxSize : UInt32 := 0

/-! ## Operations -/

/-- Which converter makes the picture for the encoder. -/
inductive Converter where
  | v6
  | v4
  | none
  deriving DecidableEq, Repr

inductive Op where
  /-- A call of `v4l2ReadableHandler` begins. -/
  | begin
  /-- `gPipeline && gPipeline->streaming`. -/
  | streaming
  | isCurrentlyAwaitingData
  | dequeueBuffer (call : Nat)
  | enqueueBuffer (call index : Nat)
  | turnOnBackgroundReadHandling
  | turnOffBackgroundReadHandling
  | haveStartedReading
  | setHaveStartedReading (v : Bool)
  | gettimeofday
  /-- `buffers[index].length`. -/
  | bufLength (index : Nat)
  | convert (c : Converter)
  | encode
  | split (annexB : List UInt8)
  | pushBack (nal : List UInt8)
  | clear
  | empty
  | popFront
  | maxSize
  /-- The fields of the frame are set and handed over. -/
  | setFrame (nal : QueuedNal) (size truncated duration : UInt32)

def Op.Out : Op → Type
  | begin => Nat
  | streaming | isCurrentlyAwaitingData | haveStartedReading | empty => Bool
  | dequeueBuffer _ => Option Nat
  | bufLength _ => Nat
  | encode => Int × List UInt8
  | split _ => List (List UInt8)
  | popFront => QueuedNal
  | maxSize => UInt32
  | enqueueBuffer .. | turnOnBackgroundReadHandling | turnOffBackgroundReadHandling | setHaveStartedReading _ | gettimeofday
  | convert _ | pushBack _ | clear | setFrame .. => Unit

def St.begin (s : St) : St := { s with calls := s.calls + 1 }

def St.dequeue (s : St) (call i : Nat) : St :=
  { s with dequeued := Function.update s.dequeued call (i :: s.dequeued call) }

def St.enqueue (s : St) (call i : Nat) : St :=
  { s with enqueued := Function.update s.enqueued call (i :: s.enqueued call) }

/-- A new image, without units yet. -/
def St.encode (s : St) : St :=
  { s with
    encoded := s.encoded + 1
    units := Function.update s.units s.encoded []
    stamp := Function.update s.stamp s.encoded s.fFramePresentTime
    sent := 0 }

/-- The number of the image that is or was encoded last. -/
def St.last (s : St) : Nat := s.encoded - 1

def St.pushBack (s : St) (nal : List UInt8) : St :=
  { s with
    maxNalSize := if nal.length > s.maxNalSize then nal.length else s.maxNalSize
    nalQueue := s.nalQueue ++ [{ bytes := nal, image := s.last, place := (s.units s.last).length }]
    units := Function.update s.units s.last (s.units s.last ++ [nal]) }

def St.setFrame (s : St) (nal : QueuedNal) (size truncated duration : UInt32) : St :=
  { s with
    sent := s.sent + 1
    delivered := s.delivered ++
      [{ image := nal.image, place := nal.place, data := nal.bytes.take size.toNat, fFrameSize := size,
         fNumTruncatedBytes := truncated, fPresentationTime := s.fFramePresentTime, fDurationInMicroseconds := duration }] }

def Op.exec (pl : Pipeline) : (o : Op) → Env → St → Res (o.Out × St)
  | begin, _, s => .ok (s.calls, s.begin)
  | streaming, e, s => .ok (e.streaming, s)
  | isCurrentlyAwaitingData, e, s => .ok (e.awaiting, s)
  | dequeueBuffer call, e, s => .ok (e.filled, e.filled.elim s (s.dequeue call))
  | enqueueBuffer call i, _, s => .ok ((), s.enqueue call i)
  | turnOnBackgroundReadHandling, _, s => .ok ((), { s with background := true })
  | turnOffBackgroundReadHandling, _, s => .ok ((), { s with background := false })
  | haveStartedReading, _, s => .ok (s.fHaveStartedReading, s)
  | setHaveStartedReading v, _, s => .ok ((), { s with fHaveStartedReading := v })
  | gettimeofday, e, s => .ok ((), { s with fFramePresentTime := e.now })
  | bufLength i, _, s => pl.buffers[i]?.elim .fault fun n => .ok (n, s)
  | convert _, _, s => .ok ((), s)
  | encode, e, s => .ok ((e.encSize, e.annexB), s.encode)
  | split annexB, _, s => (splitAnnexBNals annexB []).elim .fault fun nalUnits => .ok (nalUnits, s)
  | pushBack nal, _, s => .ok ((), s.pushBack nal)
  | clear, _, s => .ok ((), { s with nalQueue := [] })
  | empty, _, s => .ok (s.nalQueue.isEmpty, s)
  | popFront, _, s =>
    match s.nalQueue with
    | [] => .fault
    | nal :: rest => .ok (nal, { s with nalQueue := rest })
  | maxSize, e, s => .ok (e.fMaxSize, s)
  | setFrame nal size truncated duration, _, s => .ok ((), s.setFrame nal size truncated duration)

/-! ## The code -/

abbrev Code := Prog Op Op.Out

def begin : Code Nat := .act Op.begin
def streaming : Code Bool := .act Op.streaming
def isCurrentlyAwaitingData : Code Bool := .act Op.isCurrentlyAwaitingData
def dequeueBuffer (call : Nat) : Code (Option Nat) := .act (Op.dequeueBuffer call)
def enqueueBuffer (call index : Nat) : Code Unit := .act (Op.enqueueBuffer call index)
def turnOnBackgroundReadHandling : Code Unit := .act Op.turnOnBackgroundReadHandling
def turnOffBackgroundReadHandling : Code Unit := .act Op.turnOffBackgroundReadHandling
def haveStartedReading : Code Bool := .act Op.haveStartedReading
def setHaveStartedReading (v : Bool) : Code Unit := .act (Op.setHaveStartedReading v)
def gettimeofday : Code Unit := .act Op.gettimeofday
def bufLength (index : Nat) : Code Nat := .act (Op.bufLength index)
def convert (c : Converter) : Code Unit := .act (Op.convert c)
def encode : Code (Int × List UInt8) := .act Op.encode
def split (annexB : List UInt8) : Code (List (List UInt8)) := .act (Op.split annexB)
def pushBack (nal : List UInt8) : Code Unit := .act (Op.pushBack nal)
def clear : Code Unit := .act Op.clear
def empty : Code Bool := .act Op.empty
def popFront : Code QueuedNal := .act Op.popFront
def maxSize : Code UInt32 := .act Op.maxSize
def setFrame (nal : QueuedNal) (size truncated duration : UInt32) : Code Unit :=
  .act (Op.setFrame nal size truncated duration)

def deliverQueuedNal (pl : Pipeline) : Code Bool := do
  if ← empty then return false
  else
    let nal ← popFront
    let fMaxSize ← maxSize
    let truncates := nal.bytes.length > fMaxSize.toNat
    let size := if truncates then fMaxSize else UInt32.ofNat nal.bytes.length
    let truncated := if truncates then UInt32.ofNat (nal.bytes.length - fMaxSize.toNat) else 0
    let last ← empty
    setFrame nal size truncated (if last then pl.frameDurationUs else 0)
    Prog.callback -- `afterGetting`
    return true

def doGetNextFrame (pl : Pipeline) : Code Unit := do
  if (← streaming) = false then Prog.callback -- `handleClosure`
  else if ← deliverQueuedNal pl then return ()
  else if ← haveStartedReading then return ()
  else
    turnOnBackgroundReadHandling
    setHaveStartedReading true

def doStopGettingFrames : Code Unit := do
  turnOffBackgroundReadHandling
  setHaveStartedReading false
  clear

/-- The loop that prefers the newest buffer, with the turns that are left. -/
def drain (call : Nat) : Nat → Nat → List Nat → Code (Nat × List Nat)
  | 0, bufIndex, staleBuffers => pure (bufIndex, staleBuffers)
  | turns + 1, bufIndex, staleBuffers => do
    match ← dequeueBuffer call with
    | none => return (bufIndex, staleBuffers)
    | some nextIndex => drain call turns nextIndex (staleBuffers ++ [bufIndex])

def enqueueAll (call : Nat) : List Nat → Code Unit
  | [] => pure ()
  | staleIndex :: rest => do
    enqueueBuffer call staleIndex
    enqueueAll call rest

def pushAll : List (List UInt8) → Code Unit
  | [] => pure ()
  | nal :: rest => do
    pushBack nal
    pushAll rest

def Pipeline.srcsz (pl : Pipeline) : Nat := (pl.height * (pl.width * 2)).toNat

def Pipeline.converter (pl : Pipeline) : Converter :=
  if pl.vencW = pl.width / 4 ∧ pl.vencH = pl.height / 4 then .v6
  else if pl.vencW = pl.width / 2 ∧ pl.vencH = pl.height / 2 then .v4
  else .none

/-- `if (source->isCurrentlyAwaitingData()) source->doGetNextFrame()`. -/
def getNextIfAwaiting (pl : Pipeline) : Code Unit := do
  if ← isCurrentlyAwaitingData then doGetNextFrame pl else return ()

/-- The handler from the encoder on. -/
def encodeBuffer (pl : Pipeline) (call bufIndex : Nat) : Code Unit := do
  let (encSize, annexB) ← encode
  enqueueBuffer call bufIndex
  if encSize > 0 ∧ annexB ≠ [] then
    let nalUnits ← split annexB
    pushAll nalUnits
    getNextIfAwaiting pl
  else getNextIfAwaiting pl

/-- The handler from the end of the drain on. -/
def useBuffer (pl : Pipeline) (call bufIndex : Nat) : Code Unit := do
  turnOffBackgroundReadHandling
  setHaveStartedReading false
  gettimeofday
  let length ← bufLength bufIndex
  if pl.pixelformat = pixFmtSrggb10 then
    if length < pl.srcsz then
      enqueueBuffer call bufIndex
      doGetNextFrame pl
    else
      convert pl.converter
      encodeBuffer pl call bufIndex
  else encodeBuffer pl call bufIndex

def v4l2ReadableHandler (pl : Pipeline) : Code Unit := do
  let call ← begin
  if (← streaming) = false then return ()
  else if (← isCurrentlyAwaitingData) = false then return ()
  else
    match ← dequeueBuffer call with
    | none => return ()
    | some bufIndex =>
      let (bufIndex, staleBuffers) ← drain call (pl.buffers.length - 1) bufIndex []
      enqueueAll call staleBuffers
      useBuffer pl call bufIndex

/-! ## Runs -/

inductive Call where
  | doGetNextFrame
  | doStopGettingFrames
  /-- The scheduler finds the capture readable. -/
  | readable
  deriving DecidableEq, Repr

def sys (pl : Pipeline) : System Op Op.Out St Env Call Unit Empty where
  exec := Op.exec pl
  yields _ := false
  api
    | .doGetNextFrame => doGetNextFrame pl
    | .doStopGettingFrames => doStopGettingFrames
    | .readable => v4l2ReadableHandler pl
  other l := l.elim

def guard (pl : Pipeline) : Guard Op St Env Call Empty where
  calls a s := a ≠ .readable || s.background
  resumes _ := true
  may _ o e _ :=
    match o with
    | .dequeueBuffer _ => e.filled.all (· < pl.buffers.length)
    | _ => true
  others l := l.elim

abbrev Config := Cfg Op Op.Out St Call Unit

def St.init : St where
  nalQueue := []
  fHaveStartedReading := false
  fFramePresentTime := ⟨0, 0⟩
  maxNalSize := 0
  background := false
  calls := 0
  dequeued _ := []
  enqueued _ := []
  encoded := 0
  units _ := []
  stamp _ := ⟨0, 0⟩
  sent := 0
  delivered := []

/-- Some run of a new source leads here. -/
def Reachable (pl : Pipeline) (c : Config) : Prop := Reaches (sys pl) (guard pl) ⟨St.init, []⟩ c

end AlgaeBp.Rtsp
