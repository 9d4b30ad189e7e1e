import Mathlib.Data.List.Basic
import Mathlib.Tactic.Common
/-!
# The command line of `tester1`

`cli_input` collects what `cli1_cb` reads in a buffer of 2048 bytes and hands
every line that is complete to `cli_input_line`. What does not fit is dropped,
together with what the buffer holds.

Each line is logged with the number of bytes received up to its end.
-/

namespace AlgaeBp.Cli

/-- `'\n'`. -/
def lf : UInt8 := 10

/-- `line_fb.cap`. -/
def cap : Nat := 2048

structure St where
  /-- `line_fb.data` up to `line_fb.pos`. -/
  lineFb : List UInt8
  /-- How many bytes have been received. -/
  received : Nat
  /-- The lines handed to `cli_input_line`, and where they end. -/
  handed : List (Nat × List UInt8)
  deriving DecidableEq, Repr

/-! ## `cli_input_line` -/

def isprint (ch : UInt8) : Bool := 32 ≤ ch && ch < 127

/-- What `cli_line_trim` stops at. -/
def solid (ch : UInt8) : Bool := isprint ch && !([32, 13, 10, 9].contains ch)

def cliLineTrim (data : List UInt8) : List UInt8 := ((data.dropWhile (!solid ·)).reverse.dropWhile (!solid ·)).reverse

/-- What is looked up as a command and run, if anything. -/
def cliInputLine (line : List UInt8) : Option (List UInt8) :=
  let line := cliLineTrim line
  if line = [] then none
  else if 1024 ≤ line.length then none
  else some line

/-- The commands run so far. -/
def St.commands (cli : St) : List (List UInt8) := cli.handed.filterMap (fun x => cliInputLine x.2)

/-! ## `cli_input` -/

/-- The loop over the lines. `kept` is what the buffer holds before `data`, which is all that is searched; `received` is
how much has been received before `data`. -/
def inputLines (received : Nat) (kept data : List UInt8) : List (Nat × List UInt8) × List UInt8 :=
  match _h : data.findIdx? (· = lf) with
  | none => ([], kept ++ data)
  | some i =>
    let (lines, rest) := inputLines (received + (i + 1)) [] (data.drop (i + 1))
    ((received + (i + 1), kept ++ data.take (i + 1)) :: lines, rest)
termination_by data.length
decreasing_by
  have hlt := (List.findIdx?_eq_some_iff_findIdx_eq.1 _h).1
  rw [List.length_drop]
  omega

/-- There is no room, and everything is dropped. -/
def drops (cli : St) (data : List UInt8) : Bool := cap ≤ cli.lineFb.length + data.length

def cliInput (cli : St) (data : List UInt8) : St :=
  if drops cli data then { cli with lineFb := [], received := cli.received + data.length }
  else
    let (lines, rest) := inputLines cli.received cli.lineFb data
    { lineFb := rest, received := cli.received + data.length, handed := cli.handed ++ lines }

/-- What `cli1_init` leaves. -/
def init : St := ⟨[], 0, []⟩

/-- `cli_input` on one read after another. -/
def feed (reads : List (List UInt8)) : St := reads.foldl cliInput init

end AlgaeBp.Cli
