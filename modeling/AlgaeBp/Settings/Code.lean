import AlgaeBp.Lib.Bytes
import AlgaeBp.Lib.File
import AlgaeBp.Lib.Ints
/-!
# The settings store

`keyval_save` writes a tree of keys and values to a file, `keyval_load` reads
it back. The file has a header of tag, version, checksum and length of what
follows it, then for each key a small header, the key and the value.

`read` and `write` may transfer less than asked for. What they do is a list of
steps; a call after the last step transfers everything. So it is with memory:
a list says which of the next allocations succeed, and those after it do. Words
are stored low byte first.
-/
open Bytes File
open Ints (toInt)

namespace AlgaeBp.Settings

/-! ## Files -/

/-- What the next call of `read` or `write` does. -/
inductive Step where
  /-- At most so many bytes are transferred. -/
  | count (n : Nat)
  | eintr
  | failed
  deriving DecidableEq, Repr

structure Fd where
  bytes : List UInt8
  off : Nat
  steps : List Step
  /-- Whether the next calls of `lseek` succeed. -/
  seeks : List Bool
  deriving DecidableEq, Repr

/-- The loop of `aloe_bio_read` for `want` more bytes of what is left of a file: the bytes and the steps not taken. -/
def readSteps : List Step → List UInt8 → Nat → List UInt8 × List Step
  | steps, _, 0 => ([], steps)
  | [], left, want => (left.take want, [])
  | .eintr :: steps, left, want => readSteps steps left want
  | .failed :: steps, _, _ => ([], steps)
  | .count n :: steps, left, want =>
    let r := min n (min want left.length)
    if r = 0 then ([], steps)
    else
      let (more, steps) := readSteps steps (left.drop r) (want - r)
      (left.take r ++ more, steps)

/-- `aloe_bio_read`: what it stores in the buffer. -/
def bioRead (want : Nat) : StateM Fd (List UInt8) := fun fd =>
  let (data, steps) := readSteps fd.steps (fd.bytes.drop fd.off) want
  (data, { fd with off := fd.off + data.length, steps := steps })

/-- The loop of `aloe_bio_write`: how many bytes are written, the file and the steps not taken. -/
def writeSteps : List Step → List UInt8 → Nat → List UInt8 → Nat × List UInt8 × List Step
  | steps, f, _, [] => (0, f, steps)
  | [], f, off, data => (data.length, overwrite 0 f off data, [])
  | .eintr :: steps, f, off, data => writeSteps steps f off data
  | .failed :: steps, f, _, _ => (0, f, steps)
  | .count n :: steps, f, off, data =>
    let r := min n data.length
    if r = 0 then (0, f, steps)
    else
      let (more, f, steps) := writeSteps steps (overwrite 0 f off (data.take r)) (off + r) (data.drop r)
      (r + more, f, steps)

/-- `aloe_bio_write(..) == data_sz`. -/
def bioWrite (data : List UInt8) : StateM Fd Bool := fun fd =>
  let (n, f, steps) := writeSteps fd.steps fd.bytes fd.off data
  (decide (n = data.length), { fd with bytes := f, off := fd.off + n, steps := steps })

/-- `lseek(fd, off, SEEK_SET)`. -/
def seekSet (off : Nat) : StateM Fd Bool := fun fd =>
  match fd.seeks with
  | [] => (true, { fd with off := off })
  | true :: seeks => (true, { fd with off := off, seeks := seeks })
  | false :: seeks => (false, { fd with seeks := seeks })

/-! ## Checksums -/

def crcBit (c : UInt32) : UInt32 := if c &&& 1 ≠ 0 then (c >>> 1) ^^^ 0xEDB88320 else c >>> 1

def crcByte (c : UInt32) (b : UInt8) : UInt32 := Nat.iterate crcBit 8 (c ^^^ b.toUInt32)

def aloeCrc32 (data : List UInt8) (cksum : UInt32) : UInt32 := ~~~ data.foldl crcByte (~~~ cksum)

/-- `keyval_cksum_update` on the first four of the eight bytes; the others are zero. -/
def keyvalCksumUpdate (cksum : UInt32) (data : List UInt8) : UInt32 := aloeCrc32 data cksum

def cksumBytes (cksum : UInt32) : List UInt8 := leBytes 4 cksum.toNat ++ [0, 0, 0, 0]

/-! ## Trees -/

/-- A key as it lies in memory, without its final NUL, and the bytes of its value. -/
structure Keyval where
  key : List UInt8
  value : List UInt8
  deriving DecidableEq, Repr

/-- `strcmp`: a string ends at its first NUL. -/
def strcmp : List UInt8 → List UInt8 → Ordering
  | [], [] => .eq
  | [], b :: _ => if b = 0 then .eq else .lt
  | a :: _, [] => if a = 0 then .eq else .gt
  | a :: as, b :: bs => if a < b then .lt else if b < a then .gt else if a = 0 then .eq else strcmp as bs

def strlen (key : List UInt8) : Nat := (key.takeWhile (fun b => b ≠ 0)).length

/-- A tree in the order of `RB_FOREACH`. -/
abbrev KeyvalRoot := List Keyval

/-- `RB_INSERT`: a key that is there already stays. -/
def rbInsert (kv : Keyval) : KeyvalRoot → KeyvalRoot
  | [] => [kv]
  | x :: xs =>
    match strcmp kv.key x.key with
    | .lt => kv :: x :: xs
    | .eq => x :: xs
    | .gt => x :: rbInsert kv xs

/-! ## Saving -/

/-- `keyval_hdr_t`. -/
structure KeyvalHdr where
  keyLen : UInt8
  valLen : UInt16
  deriving DecidableEq, Repr

def KeyvalHdr.bytes (h : KeyvalHdr) : List UInt8 := h.keyLen :: le16 h.valLen

def keyvalHdrSize : Nat := 3

/-- `settings_hdr_t`. -/
structure SettingsHdr where
  tag : List UInt8
  ver : UInt16
  cksum : UInt32
  payloadLen : UInt32
  deriving DecidableEq, Repr

def SettingsHdr.bytes (h : SettingsHdr) : List UInt8 :=
  h.tag ++ le16 h.ver ++ cksumBytes h.cksum ++ leBytes 4 h.payloadLen.toNat

def settingsHdrSize : Nat := 20

/-- The header of an entry: the lengths as far as its fields hold them. -/
def Keyval.hdr (kv : Keyval) : KeyvalHdr := ⟨UInt8.ofNat (strlen kv.key), UInt16.ofNat kv.value.length⟩

/-- Write a chunk and take it into checksum and length. -/
def savePart (data : List UInt8) (h : SettingsHdr) : StateM Fd (Option SettingsHdr) := do
  if ← bioWrite data then
    return some { h with
      cksum := keyvalCksumUpdate h.cksum data
      payloadLen := h.payloadLen + UInt32.ofNat data.length }
  else return none

def saveValue (kv : Keyval) (h : SettingsHdr) : StateM Fd (Option SettingsHdr) :=
  if kv.hdr.valLen > 0 then savePart (kv.value.take kv.hdr.valLen.toNat) h else return some h

def saveEntry (kv : Keyval) (h : SettingsHdr) : StateM Fd (Option SettingsHdr) := do
  match ← savePart kv.hdr.bytes h with
  | none => return none
  | some h => do
    match ← savePart (kv.key.take kv.hdr.keyLen.toNat) h with
    | none => return none
    | some h => saveValue kv h

def saveLoop : KeyvalRoot → SettingsHdr → StateM Fd (Option SettingsHdr)
  | [], h => return some h
  | kv :: rest, h => do
    match ← saveEntry kv h with
    | none => return none
    | some h => saveLoop rest h

/-- The header before anything is saved. -/
def newHdr (tag : Block 6) (ver : UInt16) : SettingsHdr :=
  ⟨if tag.bytes.headD 0 ≠ 0 then tag.bytes else List.replicate 6 0, ver, 0, 0⟩

/-- The checksum taken on over the header around its own place. -/
def cksumHdr (cksum : UInt32) (raw : List UInt8) : UInt32 :=
  keyvalCksumUpdate (keyvalCksumUpdate cksum (raw.take 8)) (raw.drop 16)

def keyvalSave (root : KeyvalRoot) (tag : Block 6) (ver : UInt16) : StateM Fd Int := do
  let fpos := (← get).off
  if ← seekSet (fpos + settingsHdrSize) then do
    match ← saveLoop root (newHdr tag ver) with
    | none => return -1
    | some h => do
      let h := { h with cksum := cksumHdr h.cksum h.bytes }
      if ← seekSet fpos then do
        if ← bioWrite h.bytes then return toInt (h.payloadLen.toNat + settingsHdrSize) else return -1
      else return -1
  else return -1

/-! ## Loading -/

/-- The locals of the loop of `keyval_load`. -/
structure Loading where
  payloadLen : Nat
  /-- The buffer; its length is the capacity. -/
  fb : List UInt8
  cksum : UInt32
  root : KeyvalRoot
  deriving DecidableEq, Repr

/-- An allocation that is made if it is needed: whether there is memory, and the answers that are left. -/
def alloc (need : Bool) (allocs : List Bool) : Bool × List Bool :=
  if need then (allocs.headD true, allocs.tail) else (true, allocs)

/-- `aloe_buf_expand` of the buffer where it is too small; new memory holds anything. -/
def expand (noise : UInt8) (fb : List UInt8) (kvSz : Nat) : List UInt8 :=
  if kvSz > fb.length then List.replicate (kvSz + 1024) noise else fb

/-- The entry that lies in the buffer. -/
def entryOf (fb : List UInt8) (keyLen valLen : Nat) : Keyval := ⟨fb.take keyLen, (fb.drop keyLen).take valLen⟩

/-- The loop of `keyval_load` up to the given length: whether it comes to its end. -/
def loadLoop (noise : UInt8) (len : Nat) (allocs : List Bool) (s : Loading) : StateM Fd (Bool × Loading) :=
  if _ : s.payloadLen < len then do
    let raw ← bioRead keyvalHdrSize
    if raw.length ≠ keyvalHdrSize then return (false, s)
    else do
      let keyLen := leNat (raw.take 1)
      let valLen := leNat (raw.drop 1)
      let kvSz := keyLen + valLen
      let room := alloc (kvSz > s.fb.length) allocs
      if room.1 = false then return (false, s)
      else do
        let data ← bioRead kvSz
        if data.length ≠ kvSz then return (false, s)
        else do
          let fb := data ++ (expand noise s.fb kvSz).drop kvSz
          let node := alloc true room.2
          let value := alloc (valLen > 0) node.2
          if node.1 = false ∨ value.1 = false then return (false, s)
          else
            loadLoop noise len value.2
              { payloadLen := s.payloadLen + 3 + kvSz
                fb := fb
                cksum := keyvalCksumUpdate (keyvalCksumUpdate s.cksum raw) (fb.take kvSz)
                root := rbInsert (entryOf fb keyLen valLen) s.root }
  else return (true, s)
termination_by len - s.payloadLen

/-- `keyval_load` into a tree: its result and the tree. -/
def keyvalLoad (noise : UInt8) (allocs : List Bool) (root : KeyvalRoot) (tag : Block 6) (ver : UInt16) :
    StateM Fd (Int × KeyvalRoot) := do
  let raw ← bioRead settingsHdrSize
  if raw.length ≠ settingsHdrSize then return (-1, root)
  else if tag.bytes.headD 0 ≠ 0 ∧ raw.take 6 ≠ tag.bytes then return (-1, root)
  else if ver > 0 ∧ ver.toNat ≠ leNat ((raw.drop 6).take 2) then return (-1, root)
  else do
    let (done, s) ← loadLoop noise (leNat (raw.drop 16)) allocs ⟨0, [], 0, root⟩
    if done = false then return (-1, s.root)
    else if cksumBytes (cksumHdr s.cksum raw) ≠ (raw.drop 8).take 8 then return (-1, s.root)
    else return (toInt (s.payloadLen + settingsHdrSize), s.root)

end AlgaeBp.Settings
