import AlgaeBp.Lib.Bytes
/-!
# The HID report descriptor parser

`mini_hid_parse_report_descriptor` of `usbhid_mini.c`. What it prints is the
list of its calls of `outf`, with the offset of the byte at which the turn of
the loop began. `none` is a read outside `desc`, an `int` overflow, or a loop
that is not left within one turn more than there are bytes.
-/

namespace AlgaeBp.Hid

/-! ## Data -/

/-- `hid_item_udata` with the turns that are left, its `i` and its `v`; `p` is `&desc[off]`. -/
def udataLoop (desc : List UInt8) (off : Nat) : Nat → Nat → UInt32 → Option UInt32
  | 0, _, v => some v
  | turns + 1, i, v => do
    let byte ← desc[off + i]?
    udataLoop desc off turns (i + 1) (v ||| byte.toUInt32 <<< UInt32.ofNat (8 * i))

def hidItemUdata (desc : List UInt8) (off size : Nat) : Option UInt32 := udataLoop desc off size 0 0

def hidItemSdata (desc : List UInt8) (off size : Nat) : Option Int := do
  let v ← hidItemUdata desc off size
  if size = 1 then return v.toUInt8.toInt8.toInt
  else if size = 2 then return v.toUInt16.toInt16.toInt
  else return v.toInt32.toInt

/-! ## Items -/

/-- An argument after the format. -/
inductive Arg where
  | str (s : String)
  | unsigned (n : UInt32)
  | int (n : Int)
  deriving DecidableEq, Repr

/-- A call of `outf`. -/
structure Printed where
  /-- The offset at which the turn of the loop began; none before the loop. -/
  item : Option Nat
  fmt : String
  args : List Arg
  deriving DecidableEq, Repr

/-- The variables that outlive a turn. -/
structure State where
  reportSize : UInt32 := 0
  reportCount : UInt32 := 0
  reportId : UInt32 := 0
  usagePage : UInt32 := 0
  logicalMin : Int := 0
  logicalMax : Int := 0
  indent : Nat := 0
  deriving DecidableEq, Repr

def pad (indent : Nat) : Arg := .str (if indent > 0 then "  " else "")

/-- What `Input` and `Output` print after their names. -/
def ioArgs (st : State) (udata : UInt32) : List Arg :=
  [pad st.indent, .unsigned udata, .unsigned st.reportSize, .unsigned st.reportCount,
    .unsigned (st.reportSize * st.reportCount), .unsigned ((st.reportSize * st.reportCount + 7) / 8),
    .str (if st.reportSize > 32 then "  << exceeds kernel 32-bit extract()" else "")]

def mainItem (st : State) (tag : Nat) (udata : UInt32) : State × String × List Arg :=
  match tag with
  | 8 => (st, "%sInput (0x%x): size=%u bits, count=%u, total=%u bits (%u bytes)%s\n", ioArgs st udata)
  | 9 => (st, "%sOutput (0x%x): size=%u bits, count=%u, total=%u bits (%u bytes)%s\n", ioArgs st udata)
  | 10 => ({ st with indent := st.indent + 1 }, "%sCollection (0x%x)\n", [pad st.indent, .unsigned udata])
  | 11 =>
    (st, "%sFeature (0x%x): size=%u bits, count=%u\n",
      [pad st.indent, .unsigned udata, .unsigned st.reportSize, .unsigned st.reportCount])
  | 12 =>
    let indent := if st.indent > 0 then st.indent - 1 else st.indent
    ({ st with indent }, "%sEnd Collection\n", [pad indent])
  | _ => (st, "%sMain tag=%u data=0x%x\n", [pad st.indent, .unsigned (UInt32.ofNat tag), .unsigned udata])

def globalItem (st : State) (tag : Nat) (udata : UInt32) (sdata : Int) : State × String × List Arg :=
  match tag with
  | 0 => ({ st with usagePage := udata }, "%sUsage Page (0x%x)\n", [pad st.indent, .unsigned udata])
  | 1 => ({ st with logicalMin := sdata }, "%sLogical Minimum (%d)\n", [pad st.indent, .int sdata])
  | 2 => ({ st with logicalMax := sdata }, "%sLogical Maximum (%d)\n", [pad st.indent, .int sdata])
  | 7 =>
    ({ st with reportSize := udata }, "%sReport Size (%u bits)%s\n",
      [pad st.indent, .unsigned udata, .str (if udata > 32 then "  << > 32" else "")])
  | 8 => ({ st with reportId := udata }, "%sReport ID (%u)\n", [pad st.indent, .unsigned udata])
  | 9 => ({ st with reportCount := udata }, "%sReport Count (%u)\n", [pad st.indent, .unsigned udata])
  | _ => (st, "%sGlobal tag=%u data=0x%x\n", [pad st.indent, .unsigned (UInt32.ofNat tag), .unsigned udata])

def localItem (st : State) (tag : Nat) (udata : UInt32) : State × String × List Arg :=
  match tag with
  | 0 => (st, "%sUsage (0x%x)\n", [pad st.indent, .unsigned udata])
  | _ => (st, "%sLocal tag=%u data=0x%x\n", [pad st.indent, .unsigned (UInt32.ofNat tag), .unsigned udata])

def shortItem (st : State) (pre : UInt8) (type tag : Nat) (udata : UInt32) (sdata : Int) : State × String × List Arg :=
  match type with
  | 0 => mainItem st tag udata
  | 1 => globalItem st tag udata sdata
  | 2 => localItem st tag udata
  | _ => (st, "%sReserved type item 0x%02x\n", [pad st.indent, .int pre.toNat])

/-! ## The loop -/

/-- `prefix & 0x03`, where 3 means 4. -/
def dataSize (pre : UInt8) : Nat :=
  let size := (pre &&& 0x03).toNat
  if size = 3 then 4 else size

def itemType (pre : UInt8) : Nat := ((pre >>> 2) &&& 0x03).toNat

def itemTag (pre : UInt8) : Nat := ((pre >>> 4) &&& 0x0f).toNat

/-- An `int` that has not overflowed. -/
def int (n : Nat) : Option Int := if n < 2 ^ 31 then some n else none

/-- One turn: what is printed, and `i` and the variables if the loop goes on. -/
def turn (desc : List UInt8) (len : Int) (i : Nat) (st : State) : Option (Printed × Option (Nat × State)) := do
  let pre ← desc[i]?
  let size := dataSize pre
  let stop ← int (i + 1 + size)
  if stop > len then return ({ item := i, fmt := "truncated item at offset %d\n", args := [.int i] }, none)
  else
    let udata ← hidItemUdata desc (i + 1) size
    let sdata ← hidItemSdata desc (i + 1) size
    -- a long item: its length byte and its tag were taken for the data
    if pre = 0xfe then
      return ({ item := i, fmt := "  LongItem (unsupported)\n", args := [] }, some (i + 1 + size, st))
    else
      let (st, fmt, args) := shortItem st pre (itemType pre) (itemTag pre) udata sdata
      return ({ item := i, fmt, args }, some (i + 1 + size, st))

/-- The loop, with the turns that are left. -/
def parseFrom (desc : List UInt8) (len : Int) : Nat → Nat → State → Option (List Printed)
  | 0, _, _ => none
  | turns + 1, i, st =>
    if i < len then do
      let (line, next) ← turn desc len i st
      match next with
      | none => return [line]
      | some (i, st) =>
        let lines ← parseFrom desc len turns i st
        return line :: lines
    else some []

/-- With a `NULL` for `outf` nothing is printed. -/
def miniHidParseReportDescriptor (desc : List UInt8) (len : Int) (outf : Bool) : Option (List Printed) := do
  let lines ← parseFrom desc len (len.toNat + 1) 0 {}
  return if outf then { item := none, fmt := "parsed report descriptor:\n", args := [] } :: lines else []

end AlgaeBp.Hid
