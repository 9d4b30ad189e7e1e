import AlgaeBp.Lib.Bytes
import AlgaeBp.Lib.Ints
/-!
# A buffer with a position and a limit

`aloe_buf_t` of `util.cpp`. Every access to the data may leave the array; then
the answer is `none`. `malloc` and `vsnprintf` answer as the caller of the model
likes, within what the standard says.
-/
open Ints (intMax)

namespace AlgaeBp.Buf

/-- `aloe_buf_t`. -/
structure AloeBuf where
  cap : Nat
  data : Bytes.Block cap
  lmt : Nat
  pos : Nat
  deriving Repr

namespace AloeBuf

/-- `_aloe_buf_clear` -/
def clear (buf : AloeBuf) : AloeBuf := { buf with lmt := buf.cap, pos := 0 }

/-- `_aloe_buf_flip` -/
def flip (buf : AloeBuf) : AloeBuf := { buf with lmt := buf.pos, pos := 0 }

def rewind (buf : AloeBuf) : Option AloeBuf :=
  if buf.pos ≤ 0 then some buf
  else if buf.pos < buf.lmt then do
    let sz := buf.lmt - buf.pos
    let moved ← buf.data.load buf.pos sz
    let data ← buf.data.store 0 moved
    some { buf with data, pos := 0, lmt := sz }
  else some { buf with pos := 0, lmt := 0 } -- an invalid buffer is only logged

/-- `ALOE_BUF_FLAG_RETAIN_NORMAL` -/
def retainNormal : Int := 1

def enomem : Int := 12

/-- `mem` is what `malloc(cap)` answers, with what happens to stand in it. -/
def expand (buf : AloeBuf) (cap : Nat) (retain : Int) (mem : Option (Bytes.Block cap)) : Option (Int × AloeBuf) :=
  if buf.cap ≥ cap then some (0, buf)
  else
    match mem with
    | none => some (enomem, buf)
    | some data => do
      let data ←
        if buf.pos > 0 ∧ (retain = retainNormal ∨ retain > 0) then do
          let kept ← buf.data.load 0 buf.pos
          data.store 0 kept
        else some data
      some (0, { cap, data, lmt := if buf.lmt = buf.cap then cap else buf.lmt, pos := buf.pos })

end AloeBuf

/-! ## Printing -/

/-- What a format and its arguments come to. -/
inductive Format where
  /-- A text whose length is an `int`. -/
  | text (s : List UInt8) (h : s.length ≤ intMax)
  /-- `vsnprintf` fails, and may have written some of this. -/
  | fails (s : List UInt8)
  deriving DecidableEq, Repr

/-- `vsnprintf` to `size > 0` bytes: the answer, and what it writes. -/
def vsnprintf (fmt : Format) (size : Nat) : Int × List UInt8 :=
  match fmt with
  | .text s _ => (s.length, s.take (size - 1) ++ [0])
  | .fails s => (-1, s.take size)

namespace AloeBuf

/-- From the label `finally` on. -/
def finish (fb : AloeBuf) (r : Int) : Option (Int × AloeBuf) :=
  if fb.pos < fb.lmt then do
    let data ← fb.data.store fb.pos [0]
    some (r, { fb with data })
  else some (r, fb)

/-- No format is `NULL`. -/
def vzprintf (fb : AloeBuf) (fmt : Option Format) : Option (Int × AloeBuf) :=
  match fmt with
  | none => fb.finish 0
  | some fmt =>
    if fb.pos ≥ fb.lmt then fb.finish 0
    else do
      let (r, out) := vsnprintf fmt (fb.lmt - fb.pos)
      let data ← fb.data.store fb.pos out
      let fb := { fb with data }
      if r < 0 ∨ fb.pos + r.toNat ≥ fb.lmt then fb.finish 0 -- likely insufficient buffer
      else finish { fb with pos := fb.pos + r.toNat } r

def zprintf (fb : AloeBuf) (fmt : Option Format) : Option (Int × AloeBuf) := fb.vzprintf fmt

end AloeBuf

/-! ## Calls -/

inductive Call where
  | clear
  | flip
  | rewind
  | expand (cap : Nat) (retain : Int) (mem : Option (Bytes.Block cap))
  | zprintf (fmt : Option Format)

/-- The buffer after a call. -/
def Call.exec (buf : AloeBuf) : Call → Option AloeBuf
  | .clear => some buf.clear
  | .flip => some buf.flip
  | .rewind => buf.rewind
  | .expand cap retain mem => (buf.expand cap retain mem).map Prod.snd
  | .zprintf fmt => (buf.zprintf fmt).map Prod.snd

end AlgaeBp.Buf
