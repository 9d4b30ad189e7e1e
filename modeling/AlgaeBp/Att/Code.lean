import AlgaeBp.Lib.Bytes
/-!
# The ATT server of the BLE peripheral

`att_on_pdu` answers one PDU of the connected peer. The attributes and their
handles are fixed; only the characteristic value, its length and the client
configuration (CCCD) change.

Every access to the received PDU, to a scratch array and to the response
buffer is checked: `Stop.outside` stands for an access outside of them,
`Stop.forever` for a loop over handles that used up its rounds.
-/
open Bytes

namespace AlgaeBp.Att

/-! ## Checked memory and loops -/

inductive Stop where
  | outside
  | forever
  deriving DecidableEq, Repr

def checked {α : Type} : Option α → Except Stop α
  | some a => .ok a
  | none => .error .outside

/-- `len` bytes at an offset of an array. -/
def slice (p : List UInt8) (off len : Nat) : Except Stop (List UInt8) :=
  if off + len ≤ p.length then .ok ((p.drop off).take len) else .error .outside

/-- `get_le16`. -/
def getLe16 (p : List UInt8) (off : Nat) : Except Stop UInt16 := do
  match ← slice p off 2 with
  | [lo, hi] => return word16 lo hi
  | _ => throw .outside

inductive Flow (σ : Type) where
  | next (s : σ)
  | leave (s : σ)

/-- `for (hdl = first; hdl <= last; hdl++)`, for at most as many rounds as given. -/
def forHandles {σ : Type} (last : UInt16) (body : UInt16 → σ → Except Stop (Flow σ)) :
    Nat → UInt16 → σ → Except Stop σ
  | 0, _, _ => throw .forever
  | rounds + 1, hdl, s =>
    if hdl ≤ last then do
      match ← body hdl s with
      | .next s => forHandles last body rounds (hdl + 1) s
      | .leave s => return s
    else return s

/-! ## Constants -/

def attMtuDefault : UInt16 := 23
def attMtuMax : UInt16 := 128
def bleValueMax : Nat := 64

def ecodeInvalidHandle : UInt8 := 0x01
def ecodeWriteNotPerm : UInt8 := 0x03
def ecodeInvalidPdu : UInt8 := 0x04
def ecodeReqNotSupp : UInt8 := 0x06
def ecodeInvalidOffset : UInt8 := 0x07
def ecodeAttrNotFound : UInt8 := 0x0a
def ecodeInvalAttrValueLen : UInt8 := 0x0d
def ecodeUnsuppGrpType : UInt8 := 0x10

@[match_pattern] def hdlGapSvc : Nat := 1
@[match_pattern] def hdlGapNameCh : Nat := 2
@[match_pattern] def hdlGapName : Nat := 3
@[match_pattern] def hdlGapAppCh : Nat := 4
@[match_pattern] def hdlGapApp : Nat := 5
@[match_pattern] def hdlGattSvc : Nat := 6
@[match_pattern] def hdlCusSvc : Nat := 7
@[match_pattern] def hdlCusCh : Nat := 8
@[match_pattern] def hdlCusVal : Nat := 9
@[match_pattern] def hdlCusCccd : Nat := 10
def hdlMax : UInt16 := 10

/-- 12345678-1234-5678-1234-56789abcdef0, air byte order. -/
def uuidSvc : List UInt8 :=
  [0xf0, 0xde, 0xbc, 0x9a, 0x78, 0x56, 0x34, 0x12, 0x78, 0x56, 0x34, 0x12, 0x78, 0x56, 0x34, 0x12]

/-- 12345678-1234-5678-1234-56789abcdef1. -/
def uuidChr : List UInt8 :=
  [0xf1, 0xde, 0xbc, 0x9a, 0x78, 0x56, 0x34, 0x12, 0x78, 0x56, 0x34, 0x12, 0x78, 0x56, 0x34, 0x12]

/-- `ble_name`, "tester". -/
def bleName : List UInt8 := [0x74, 0x65, 0x73, 0x74, 0x65, 0x72]

/-! ## The attributes -/

/-- The fields of `ble2_t` the ATT server uses. -/
structure Server where
  mtu : UInt16
  cccd : UInt16
  value : Block bleValueMax
  valueLen : UInt16
  deriving DecidableEq

/-- `att_type_get`: the bytes it stores; none for a handle without attribute. -/
def attTypeGet (hdl : UInt16) : List UInt8 :=
  match hdl.toNat with
  | hdlGapSvc | hdlGattSvc | hdlCusSvc => le16 0x2800
  | hdlGapNameCh | hdlGapAppCh | hdlCusCh => le16 0x2803
  | hdlGapName => le16 0x2a00
  | hdlGapApp => le16 0x2a01
  | hdlCusCccd => le16 0x2902
  | hdlCusVal => uuidChr
  | _ => []

def attGroupEnd (hdl : UInt16) : UInt16 :=
  match hdl.toNat with
  | hdlGapSvc => UInt16.ofNat hdlGapApp
  | hdlGattSvc => UInt16.ofNat hdlGattSvc
  | hdlCusSvc => UInt16.ofNat hdlCusCccd
  | _ => 0

/-- The values that do not lie in `b->value`; `none` for a handle without attribute. -/
def attFixed (b : Server) (hdl : UInt16) : Option (List UInt8) :=
  match hdl.toNat with
  | hdlGapSvc => some (le16 0x1800)
  | hdlGattSvc => some (le16 0x1801)
  | hdlCusSvc => some uuidSvc
  | hdlGapNameCh => some ([0x02] ++ le16 (UInt16.ofNat hdlGapName) ++ le16 0x2a00)
  | hdlGapAppCh => some ([0x02] ++ le16 (UInt16.ofNat hdlGapApp) ++ le16 0x2a01)
  | hdlCusCh => some ([0x1e] ++ le16 (UInt16.ofNat hdlCusVal) ++ uuidChr)
  | hdlGapName => some bleName
  | hdlGapApp => some (le16 0)
  | hdlCusCccd => some (le16 b.cccd)
  | _ => none

/-- `att_value` into an array of `max` bytes; `none` is its result -1. -/
def attValue (b : Server) (hdl : UInt16) (max : Nat) : Except Stop (Option (List UInt8)) :=
  if hdl.toNat = hdlCusVal then
    if b.valueLen.toNat > max then .ok none else (checked (b.value.load 0 b.valueLen.toNat)).map some
  else
    match attFixed b hdl with
    | none => .ok none
    | some src => if src.length > max then .ok none else .ok (some src)

/-- `att_write`: the error code, 0 for none. -/
def attWrite (b : Server) (hdl : UInt16) (v : List UInt8) : Except Stop (Server × UInt8) :=
  if hdl.toNat = hdlCusCccd then
    if v.length ≠ 2 then .ok (b, ecodeInvalAttrValueLen)
    else do
      let cccd ← getLe16 v 0
      return ({ b with cccd := cccd }, 0)
  else if hdl.toNat = hdlCusVal then
    if v.length > bleValueMax then .ok (b, ecodeInvalAttrValueLen)
    else do
      let value ← checked (b.value.store 0 v)
      return ({ b with value := value, valueLen := UInt16.ofNat v.length }, 0)
  else if hdl.toNat < hdlGapSvc ∨ hdl > hdlMax then .ok (b, ecodeInvalidHandle)
  else .ok (b, ecodeWriteNotPerm)

/-! ## Responses -/

/-- The response buffer of `ble_rx_cb`. -/
abbrev Rsp := Block 128

/-- The server after a PDU, the response buffer and the length of the response. -/
structure Reply where
  server : Server
  rsp : Rsp
  len : Nat

/-- The response as it is sent. -/
def Reply.bytes (r : Reply) : List UInt8 := r.rsp.bytes.take r.len

/-- `att_error`. -/
def attError (b : Server) (rsp : Rsp) (op : UInt8) (hdl : UInt16) (code : UInt8) : Except Stop Reply := do
  let rsp ← checked (rsp.store 0 ([0x01, op] ++ le16 hdl ++ [code]))
  return ⟨b, rsp, 5⟩

/-- `att_range`: `none` is its result -1. -/
def attRange (req : List UInt8) : Except Stop (Option (UInt16 × UInt16)) :=
  if req.length < 5 then .ok none
  else do
    let start ← getLe16 req 1
    let last ← getLe16 req 3
    if start = 0 ∨ start > last then return none else return some (start, last)

/-- `att_last`. -/
def attLast (last : UInt16) : UInt16 := if last > hdlMax then hdlMax else last

/-- The local `mtu` of `att_on_pdu`. -/
def Server.attMtu (b : Server) : Nat :=
  let mtu := if b.mtu < attMtuDefault then attMtuDefault else b.mtu
  (if mtu > attMtuMax then attMtuMax else mtu).toNat

/-! ## Requests -/

def onMtuReq (b : Server) (op : UInt8) (req : List UInt8) (rsp : Rsp) : Except Stop Reply :=
  if req.length < 3 then attError b rsp op 0 ecodeInvalidPdu
  else do
    let client ← getLe16 req 1
    if client < attMtuDefault then attError b rsp op 0 ecodeInvalidPdu
    else
      let rsp ← checked (rsp.store 0 ([0x03] ++ le16 attMtuMax))
      return ⟨{ b with mtu := if client < attMtuMax then client else attMtuMax }, rsp, 3⟩

/-- The locals of the loops that assemble a list: the response so far, and
what fixes the shape of its entries (0 before the first entry). -/
structure Listing where
  shape : Nat
  out : Nat
  rsp : Rsp

def findInfoBody (mtu : Nat) (hdl : UInt16) (s : Listing) : Except Stop (Flow Listing) := do
  let uuid := attTypeGet hdl
  let form := if uuid.length = 16 then 2 else 1
  let pair := 2 + uuid.length
  let fmt := if s.shape = 0 then form else s.shape
  if form ≠ fmt ∨ s.out + pair > mtu then return .leave { s with shape := fmt }
  else
    let rsp ← checked (s.rsp.store s.out (le16 hdl ++ uuid))
    return .next ⟨fmt, s.out + pair, rsp⟩

def onFindInfo (rounds : Nat) (b : Server) (op : UInt8) (req : List UInt8) (rsp : Rsp) : Except Stop Reply := do
  match ← attRange req with
  | none => attError b rsp op 0 ecodeInvalidHandle
  | some (start, last) =>
    if start > hdlMax then attError b rsp op start ecodeAttrNotFound
    else
      let s ← forHandles (attLast last) (findInfoBody b.attMtu) rounds start ⟨0, 2, rsp⟩
      if s.shape = 0 then attError b s.rsp op start ecodeAttrNotFound
      else
        let rsp ← checked (s.rsp.store 0 [0x05, UInt8.ofNat s.shape])
        return ⟨b, rsp, s.out⟩

def findByTypeBody (b : Server) (mtu : Nat) (type : UInt16) (want : List UInt8) (hdl : UInt16) (s : Listing) :
    Except Stop (Flow Listing) :=
  if type ≠ 0x2800 then .ok (.next s)
  else
    let gend := attGroupEnd hdl
    if gend = 0 then .ok (.next s)
    else do
      let val ← attValue b hdl 32
      if val ≠ some want then return .next s
      else if s.out + 4 > mtu then return .leave s
      else
        let rsp ← checked (s.rsp.store s.out (le16 hdl ++ le16 gend))
        return .next { s with out := s.out + 4, rsp := rsp }

def onFindByType (rounds : Nat) (b : Server) (op : UInt8) (req : List UInt8) (rsp : Rsp) : Except Stop Reply :=
  if req.length < 7 then attError b rsp op 0 ecodeInvalidPdu
  else do
    match ← attRange req with
    | none => attError b rsp op 0 ecodeInvalidHandle
    | some (start, last) =>
      let type ← getLe16 req 5
      let want ← slice req 7 (req.length - 7)
      if start > hdlMax then attError b rsp op start ecodeAttrNotFound
      else
        let s ← forHandles (attLast last) (findByTypeBody b b.attMtu type want) rounds start ⟨0, 1, rsp⟩
        if s.out = 1 then attError b s.rsp op start ecodeAttrNotFound
        else
          let rsp ← checked (s.rsp.store 0 [0x07])
          return ⟨b, rsp, s.out⟩

/-- What stands before the value in an entry of a Read By Type or Read By Group Type response. -/
def readHead (grouped : Bool) (hdl : UInt16) : List UInt8 :=
  if grouped then le16 hdl ++ le16 (attGroupEnd hdl) else le16 hdl

/-- The loop body of Read By Type and Read By Group Type from the value on. -/
def readByPut (mtu : Nat) (head val : List UInt8) (s : Listing) : Except Stop (Flow Listing) :=
  let trunc := head.length + val.length + 2 > mtu
  if trunc ∧ mtu < 2 + head.length then .ok (.leave s)
  else
    let vlen := if trunc then mtu - 2 - head.length else val.length
    let pair := head.length + vlen
    let pairLen := if s.shape = 0 then pair else s.shape
    if pair ≠ pairLen ∨ s.out + pair > mtu then .ok (.leave { s with shape := pairLen })
    else do
      let cut ← slice val 0 vlen
      let rsp ← checked (s.rsp.store s.out (head ++ cut))
      if trunc then return .leave ⟨pairLen, s.out + pair, rsp⟩ else return .next ⟨pairLen, s.out + pair, rsp⟩

def readByBody (b : Server) (mtu : Nat) (grouped : Bool) (want : List UInt8) (hdl : UInt16) (s : Listing) :
    Except Stop (Flow Listing) :=
  if attTypeGet hdl ≠ want then .ok (.next s)
  else if grouped ∧ attGroupEnd hdl = 0 then .ok (.next s)
  else do
    match ← attValue b hdl bleValueMax with
    | none => return .next s
    | some val => readByPut mtu (readHead grouped hdl) val s

def onReadBy (rounds : Nat) (b : Server) (op : UInt8) (grouped : Bool) (req : List UInt8) (rsp : Rsp) :
    Except Stop Reply :=
  let wlen := req.length - 5
  if req.length < 7 ∨ (wlen ≠ 2 ∧ wlen ≠ 16) then attError b rsp op 0 ecodeInvalidPdu
  else do
    match ← attRange req with
    | none => attError b rsp op 0 ecodeInvalidHandle
    | some (start, last) =>
      let want ← slice req 5 wlen
      if grouped ∧ want ≠ le16 0x2800 then attError b rsp op start ecodeUnsuppGrpType
      else if start > hdlMax then attError b rsp op start ecodeAttrNotFound
      else
        let s ← forHandles (attLast last) (readByBody b b.attMtu grouped want) rounds start ⟨0, 2, rsp⟩
        if s.shape = 0 then attError b s.rsp op start ecodeAttrNotFound
        else
          let rsp ← checked (s.rsp.store 0 [if grouped then 0x11 else 0x09, UInt8.ofNat s.shape])
          return ⟨b, rsp, s.out⟩

/-- The offset of a Read Blob request; a Read request starts at 0. -/
def readOffset (blob : Bool) (req : List UInt8) : Except Stop UInt16 := if blob then getLe16 req 3 else .ok 0

/-- Read and Read Blob once handle and offset are known. -/
def readFrom (b : Server) (op : UInt8) (blob : Bool) (hdl off : UInt16) (rsp : Rsp) : Except Stop Reply := do
  match ← attValue b hdl bleValueMax with
  | none => attError b rsp op hdl ecodeInvalidHandle
  | some val =>
    if off.toNat > val.length then attError b rsp op hdl ecodeInvalidOffset
    else
      let n := if val.length - off.toNat > b.attMtu - 1 then b.attMtu - 1 else val.length - off.toNat
      let cut ← slice val off.toNat n
      let rsp ← checked (rsp.store 0 ([if blob then 0x0d else 0x0b] ++ cut))
      return ⟨b, rsp, 1 + n⟩

def onRead (b : Server) (op : UInt8) (blob : Bool) (req : List UInt8) (rsp : Rsp) : Except Stop Reply :=
  if req.length < (if blob then 5 else 3) then attError b rsp op 0 ecodeInvalidPdu
  else do
    let hdl ← getLe16 req 1
    let off ← readOffset blob req
    readFrom b op blob hdl off rsp

def onWrite (b : Server) (op : UInt8) (command : Bool) (req : List UInt8) (rsp : Rsp) : Except Stop Reply :=
  if req.length < 3 then if command then .ok ⟨b, rsp, 0⟩ else attError b rsp op 0 ecodeInvalidPdu
  else do
    let hdl ← getLe16 req 1
    let v ← slice req 3 (req.length - 3)
    let (b, code) ← attWrite b hdl v
    if command then return ⟨b, rsp, 0⟩
    else if code ≠ 0 then attError b rsp op hdl code
    else
      let rsp ← checked (rsp.store 0 [0x13])
      return ⟨b, rsp, 1⟩

/-- The handle named in the answer to an unknown request. -/
def namedHandle (req : List UInt8) : Except Stop UInt16 := if req.length ≥ 3 then getLe16 req 1 else .ok 0

def onOther (b : Server) (op : UInt8) (req : List UInt8) (rsp : Rsp) : Except Stop Reply := do
  let hdl ← namedHandle req
  attError b rsp op hdl ecodeReqNotSupp

/-- `att_on_pdu` on the received bytes and the response buffer, with loops of at most `rounds` rounds. -/
def attOnPdu (rounds : Nat) (b : Server) (req : List UInt8) (rsp : Rsp) : Except Stop Reply :=
  match req with
  | [] => .ok ⟨b, rsp, 0⟩
  | op :: _ =>
    match op with
    | 0x02 => onMtuReq b op req rsp
    | 0x04 => onFindInfo rounds b op req rsp
    | 0x06 => onFindByType rounds b op req rsp
    | 0x08 => onReadBy rounds b op false req rsp
    | 0x10 => onReadBy rounds b op true req rsp
    | 0x0a => onRead b op false req rsp
    | 0x0c => onRead b op true req rsp
    | 0x12 => onWrite b op false req rsp
    | 0x52 => onWrite b op true req rsp
    | _ => onOther b op req rsp

end AlgaeBp.Att
