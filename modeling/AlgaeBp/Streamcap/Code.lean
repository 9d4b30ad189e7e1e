import Mathlib.Data.List.Basic
/-!
# Capturing from a video device

`v4l2_open`, `v4l2_start`, `v4l2_stop`, `v4l2_close` and the callback
`v4l2_streamcap_cb` of `v4l2.cpp`, built with `USE_X264`. What the system
answers is an argument of the call: which step fails, how many buffers the
driver has, what the encoder makes. Of the driver there is its queue and whether
it is streaming, of the event loop the handles registered for this object, of
the output file its content.
-/

namespace AlgaeBp.Streamcap

/-! ## The driver -/

structure Driver where
  /-- The buffers in the driver's queue. -/
  queued : List Nat
  streaming : Bool
  deriving DecidableEq, Repr

def Driver.idle : Driver := { queued := [], streaming := false }

/-- `VIDIOC_QBUF`, which fails on a buffer that is queued. -/
def Driver.qbuf (works : Bool) (d : Driver) (i : Nat) : Option Driver :=
  if works = true ∧ i ∉ d.queued then some { d with queued := d.queued ++ [i] } else none

/-- `VIDIOC_STREAMOFF`, which gives all buffers back. -/
def Driver.streamoff (_ : Driver) : Driver := .idle

/-! ## The encoder and its file -/

/-- `X264Encoder`. -/
structure Encoder where
  width : Nat
  height : Nat
  fps : Nat
  bitrateKbps : Nat
  /-- `init()` returned true. -/
  initialised : Bool
  sps : List UInt8
  pps : List UInt8
  deriving DecidableEq, Repr

def newEncoder (width height fps bitrateKbps : Nat) : Encoder :=
  { width, height, fps, bitrateKbps, initialised := false, sps := [], pps := [] }

/-- `init()`, where `headers` are the SPS and PPS if all its steps succeed. -/
def Encoder.init (enc : Encoder) (headers : Option (List UInt8 × List UInt8)) : Encoder × Bool :=
  match headers with
  | some (sps, pps) => ({ enc with initialised := true, sps, pps }, true)
  | none => (enc, false)

def startCode4 : List UInt8 := [0x00, 0x00, 0x00, 0x01]

/-- What `writeHeaders` is to write. -/
def Encoder.headers (enc : Encoder) : List UInt8 := startCode4 ++ enc.sps ++ startCode4 ++ enc.pps

/-- `fwrite`s one after another, up to the first that is cut short. -/
def fwrites : List (List UInt8 × Nat) → List UInt8 → List UInt8 × Bool
  | [], fp => (fp, true)
  | (data, room) :: rest, fp =>
    if room < data.length then (fp ++ data.take room, false) else fwrites rest (fp ++ data)

def writeHeaders (enc : Encoder) (room : Nat → Nat) (fp : List UInt8) : List UInt8 × Bool :=
  fwrites [(startCode4, room 0), (enc.sps, room 1), (startCode4, room 2), (enc.pps, room 3)] fp

/-! ## `v4l2_t` -/

inductive State where
  | stateReset
  | stateOpen
  | stateStart
  deriving DecidableEq, Repr

structure Fmt where
  width : Nat
  height : Nat
  pixelformat : Nat
  deriving DecidableEq, Repr

/-- The object, with the driver, the event loop and the file behind it. -/
structure V4l2 where
  /-- `evconn.fd`. -/
  fd : Int
  /-- `evconn.ev`. -/
  ev : Option Nat
  fmt : Fmt
  /-- `v4l2_mem_cnt`. -/
  memCnt : Nat
  state : State
  encoder : Option Encoder
  x264Fp : Option (List UInt8)
  driver : Driver
  /-- The handles registered with the event loop. -/
  watched : List Nat
  deriving DecidableEq, Repr

/-- As `v4l2_init` makes it, before it opens the device. -/
def initial : V4l2 where
  fd := -1
  ev := none
  fmt := { width := 0, height := 0, pixelformat := 0 }
  memCnt := 0
  state := .stateReset
  encoder := none
  x264Fp := none
  driver := .idle
  watched := []

def evconnCancel (s : V4l2) : V4l2 :=
  match s.ev with
  | some handle => { s with watched := s.watched.erase handle, ev := none }
  | none => s

/-! ## Starting -/

/-- What the system answers to `v4l2_start`. -/
structure StartEnv where
  /-- `new X264Encoder` is not null. -/
  alloc : Bool
  /-- SPS and PPS, if `init()` succeeds. -/
  init : Option (List UInt8 × List UInt8)
  fopen : Bool
  /-- How much each `fwrite` of `writeHeaders` can write. -/
  room : Nat → Nat
  qbuf : Nat → Bool
  streamon : Bool
  /-- What `aloe_evb2_add_fd` returns. -/
  addFd : Option Nat

/-- `v4l2_queue_all`. -/
def queueAll (qbuf : Nat → Bool) : List Nat → Driver → Driver × Bool
  | [], d => (d, true)
  | i :: rest, d =>
    match d.qbuf (qbuf i) i with
    | some d => queueAll qbuf rest d
    | none => (d, false)

/-- The output file of `v4l2_start`. -/
def startFile (s : V4l2) (env : StartEnv) (enc : Encoder) : V4l2 × Bool :=
  match s.x264Fp with
  | some _ => (s, true)
  | none =>
    if env.fopen then
      let fp := writeHeaders enc env.room []
      ({ s with x264Fp := some fp.1 }, fp.2)
    else (s, false)

/-- What `v4l2_start` does with `USE_X264`. -/
def startX264 (s : V4l2) (env : StartEnv) : V4l2 × Bool :=
  match s.encoder with
  | some enc => startFile s env enc
  | none =>
    if env.alloc then
      let enc := (newEncoder s.fmt.width s.fmt.height 30 2000).init env.init
      let s := { s with encoder := some enc.1 }
      if enc.2 then startFile s env enc.1 else (s, false)
    else (s, false)

/-- What `v4l2_start` does after that. -/
def startCapture (s : V4l2) (env : StartEnv) : V4l2 × Int :=
  match queueAll env.qbuf (List.range s.memCnt) s.driver with
  | (d, false) => ({ s with driver := d }, -1)
  | (d, true) =>
    if env.streamon then
      match env.addFd with
      | some handle =>
        ({ s with driver := { d with streaming := true }, ev := some handle, watched := handle :: s.watched,
                  state := .stateStart }, 0)
      | none => ({ s with driver := Driver.streamoff { d with streaming := true }, ev := none }, -1)
    else ({ s with driver := d }, -1)

def v4l2Start (s : V4l2) (env : StartEnv) : V4l2 × Int :=
  if s.fd < 0 then (s, -1)
  else if s.state = .stateStart then (s, 0)
  else if s.state ≠ .stateOpen then (s, -1)
  else
    match startX264 s env with
    | (s, false) => (s, -1)
    | (s, true) => startCapture s env

/-! ## Stopping, closing, opening -/

def v4l2Stop (s : V4l2) : V4l2 × Int :=
  if s.state ≠ .stateStart then (s, 0)
  else
    let s := evconnCancel s
    let s := if s.fd ≥ 0 then { s with driver := s.driver.streamoff } else s
    ({ s with state := .stateOpen }, 0)

/-- `delete` and `fclose` included; closing the descriptor takes the buffers back. -/
def v4l2Close (s : V4l2) : V4l2 × Int :=
  let s := (v4l2Stop s).1
  let s := { s with encoder := none, x264Fp := none, memCnt := 0 }
  let s := if s.fd ≥ 0 then { s with driver := .idle, fd := -1 } else s
  ({ s with state := .stateReset }, 0)

/-- What the system answers to `v4l2_open`: nothing where a step fails. -/
structure OpenEnv where
  /-- The descriptor of a device that can be captured from. -/
  openStreamcap : Option Nat
  /-- The size of the pictures, as the driver set it. -/
  configFmt : Option (Nat × Nat)
  /-- How many buffers there are. -/
  requestDevbuf : Option Nat
  calloc : Bool
  mapDevbuf : Bool

/-- `V4L2_PIX_FMT_YUV420`. -/
def pixFmtYuv420 : Nat := 0x32315559

def v4l2Open (s : V4l2) (env : OpenEnv) : V4l2 × Int :=
  let s := if s.state ≠ .stateReset then (v4l2Close s).1 else s
  let opened : Option V4l2 := do
    let fd ← env.openStreamcap
    let size ← env.configFmt
    let vmemCnt ← env.requestDevbuf
    if env.calloc && env.mapDevbuf then
      some { s with fd := fd, memCnt := vmemCnt, driver := .idle, state := .stateOpen,
                    fmt := { width := size.1, height := size.2, pixelformat := pixFmtYuv420 } }
    else none
  match opened with
  | some s => (s, 0)
  | none => (s, -1)

/-! ## Frames -/

/-- A turn of the loop of `v4l2_streamcap_cb`. -/
structure Frame where
  /-- The buffer `VIDIOC_DQBUF` gives. -/
  index : Nat
  /-- What the encoder makes of it, and how much of that `fwrite` can write. -/
  encoded : List UInt8
  room : Nat
  qbuf : Bool

/-- `if (v4l2->encoder && v4l2->x264_fp)`. -/
def writeFrame (s : V4l2) (frame : Frame) : V4l2 :=
  match s.x264Fp with
  | some fp => if s.encoder.isSome then { s with x264Fp := some (fp ++ frame.encoded.take frame.room) } else s
  | none => s

/-- `v4l2_streamcap_cb`, until `VIDIOC_DQBUF` or `VIDIOC_QBUF` fails. -/
def v4l2StreamcapCb : List Frame → V4l2 → V4l2
  | [], s => s
  | frame :: rest, s =>
    if frame.index ∈ s.driver.queued then
      let s := { s with driver := { s.driver with queued := s.driver.queued.erase frame.index } }
      let s := writeFrame s frame
      match s.driver.qbuf frame.qbuf frame.index with
      | some d => v4l2StreamcapCb rest { s with driver := d }
      | none => s
    else s

/-! ## Calls -/

inductive Call where
  | callOpen (env : OpenEnv)
  | callStart (env : StartEnv)
  | callStop
  | callClose
  /-- The event loop calls `v4l2_streamcap_cb`. -/
  | ready (frames : List Frame)

/-- The object afterwards, and what the call returned. Only a registered event can be ready. -/
def call (s : V4l2) : Call → Option (V4l2 × Int)
  | .callOpen env => some (v4l2Open s env)
  | .callStart env => some (v4l2Start s env)
  | .callStop => some (v4l2Stop s)
  | .callClose => some (v4l2Close s)
  | .ready frames => if s.watched = [] then none else some (v4l2StreamcapCb frames s, 0)

def step (s : V4l2) (c : Call) : Option V4l2 := (call s c).map Prod.fst

end AlgaeBp.Streamcap
