import AlgaeBp.Att.Theorems
/-!
# Reading, writing and who may change what

`Change` is what one PDU can do to the server, together with the answer it
gets. A client that reads a long value piece by piece gets what was written,
and commands are answered as they should not be when they are unknown.
-/
open Bytes

namespace AlgaeBp.Att

/-! ## The requests that change something -/

/-- An MTU Request, whatever follows the client's MTU. -/
def MtuRequest (client : UInt16) (req : List UInt8) : Prop := ∃ rest, req = 0x02 :: (le16 client ++ rest)

/-- A Write Request or Write Command. -/
def WriteOf (hdl : UInt16) (v req : List UInt8) : Prop := ∃ op, (op = 0x12 ∨ op = 0x52) ∧ req = op :: (le16 hdl ++ v)

theorem getLe16_word {op lo hi : UInt8} {rest : List UInt8} : getLe16 (op :: lo :: hi :: rest) 1 = .ok (word16 lo hi) := by
  refine getLe16_le16 (q := rest) (word16 lo hi) ?_
  rw [le16_word16]
  rfl

/-- A PDU too short for a word after its opcode, or one that has it. -/
theorem word_cases (op : UInt8) (rest : List UInt8) :
    (op :: rest).length < 3 ∨ ∃ w v, rest = le16 w ++ v ∧ getLe16 (op :: rest) 1 = .ok w := by
  match rest with
  | [] => exact .inl (by simp)
  | [_] => exact .inl (by simp)
  | lo :: hi :: v =>
    refine .inr ⟨word16 lo hi, v, ?_, getLe16_word⟩
    rw [le16_word16]
    rfl

/-- What a PDU with this answer does to the server. -/
inductive Change (b : Server) (req : List UInt8) : Server → List UInt8 → Prop where
  | nothing (bytes : List UInt8) : Change b req b bytes
  | mtu (client : UInt16) (hreq : MtuRequest client req) (h : attMtuDefault ≤ client) :
      Change b req { b with mtu := if client < attMtuMax then client else attMtuMax } ([0x03] ++ le16 attMtuMax)
  | write (hdl : UInt16) (v : List UInt8) (b' : Server) (bytes : List UInt8) (hreq : WriteOf hdl v req)
      (h : Written b hdl v b' 0) (hbytes : bytes = [] ∨ bytes = [0x13]) : Change b req b' bytes

/-- An MTU Request with a large enough MTU is accepted. -/
theorem onMtuReq_accepts (b : Server) {client : UInt16} {req : List UInt8} (hreq : MtuRequest client req)
    (h : attMtuDefault ≤ client) (rsp : Rsp) :
    Sends (onMtuReq b 0x02 req rsp) { b with mtu := if client < attMtuMax then client else attMtuMax }
      ([0x03] ++ le16 attMtuMax) := by
  obtain ⟨rest, rfl⟩ := hreq
  have hclient : getLe16 (0x02 :: (le16 client ++ rest)) 1 = .ok client := getLe16_le16 (q := rest) client rfl
  unfold onMtuReq
  rw [if_neg (by simp), hclient]
  show Sends (if client < attMtuDefault then _ else _) _ _
  rw [if_neg (UInt16.not_lt.2 h)]
  exact sends_store _ rsp ([0x03] ++ le16 attMtuMax) (by decide)

theorem onMtuReq_change (b : Server) (rest : List UInt8) (rsp : Rsp) :
    ∃ b' bytes, Sends (onMtuReq b 0x02 (0x02 :: rest) rsp) b' bytes ∧ Change b (0x02 :: rest) b' bytes := by
  rcases word_cases 0x02 rest with hlen | ⟨client, v, rfl, hclient⟩
  · unfold onMtuReq
    rw [if_pos hlen]
    exact ⟨b, _, attError_sends b rsp 0x02 0 ecodeInvalidPdu, .nothing _⟩
  by_cases hlow : client < attMtuDefault
  · unfold onMtuReq
    rw [if_neg (by simp), hclient]
    show ∃ b' bytes, Sends (if client < attMtuDefault then _ else _) _ _ ∧ _
    rw [if_pos hlow]
    exact ⟨b, _, attError_sends b rsp 0x02 0 ecodeInvalidPdu, .nothing _⟩
  · have h := UInt16.not_lt.1 hlow
    exact ⟨_, _, onMtuReq_accepts b ⟨v, rfl⟩ h rsp, .mtu client ⟨v, rfl⟩ h⟩

/-- What was written, if there was no error. -/
theorem Written.change {b b' : Server} {hdl : UInt16} {v : List UInt8} {code : UInt8} (h : Written b hdl v b' code) :
    (code = 0 → Written b hdl v b' 0) ∧ (code ≠ 0 → b' = b) := by
  refine ⟨fun hcode => hcode ▸ h, fun hcode => ?_⟩
  cases h with
  | cccd w hw hv => exact absurd rfl hcode
  | value p hw hlen hp => exact absurd rfl hcode
  | refused code' hne => rfl

theorem onWrite_change (b : Server) {op : UInt8} (command : Bool) (hop : op = if command then 0x52 else 0x12)
    (rest : List UInt8) (rsp : Rsp) :
    ∃ b' bytes, Sends (onWrite b op command (op :: rest) rsp) b' bytes ∧ Change b (op :: rest) b' bytes := by
  rcases word_cases op rest with hlen | ⟨hdl, v, rfl, hhdl⟩
  · unfold onWrite
    rw [if_pos hlen]
    cases command with
    | true => exact ⟨b, [], ⟨⟨b, rsp, 0⟩, rfl, rfl, rfl, List.take_zero⟩, .nothing _⟩
    | false => exact ⟨b, _, attError_sends b rsp op 0 ecodeInvalidPdu, .nothing _⟩
  obtain ⟨b', code, hw, hwritten⟩ := attWrite_written b hdl v
  obtain ⟨hdone, hrefused⟩ := hwritten.change
  have hwrite : WriteOf hdl v (op :: (le16 hdl ++ v)) := by
    refine ⟨op, ?_, rfl⟩
    cases command with
    | true => exact .inr hop
    | false => exact .inl hop
  rw [onWrite_eq (by simp) hhdl hw]
  by_cases hcode : code = 0
  · cases command with
    | true =>
      exact ⟨b', [], ⟨⟨b', rsp, 0⟩, rfl, rfl, rfl, List.take_zero⟩, .write hdl v b' _ hwrite (hdone hcode) (.inl rfl)⟩
    | false =>
      rw [if_neg Bool.false_ne_true, if_neg (not_not.2 hcode)]
      exact ⟨b', [0x13], sends_store b' rsp [0x13] (by decide), .write hdl v b' _ hwrite (hdone hcode) (.inr rfl)⟩
  · obtain rfl := hrefused hcode
    cases command with
    | true => exact ⟨b', [], ⟨⟨b', rsp, 0⟩, rfl, rfl, rfl, List.take_zero⟩, .nothing _⟩
    | false =>
      rw [if_neg Bool.false_ne_true, if_pos hcode]
      exact ⟨b', _, attError_sends b' rsp op hdl code, .nothing _⟩

/-- Every PDU is answered as `Change` says. -/
theorem attOnPdu_change {rounds : Nat} (hr : 12 ≤ rounds) {b : Server} (hb : b.Ok) (req : List UInt8) (rsp : Rsp) :
    ∃ b' bytes, Sends (attOnPdu rounds b req rsp) b' bytes ∧ Change b req b' bytes := by
  cases req with
  | nil => exact ⟨b, [], ⟨⟨b, rsp, 0⟩, rfl, rfl, rfl, List.take_zero⟩, .nothing _⟩
  | cons op rest =>
    -- a request that is only answered
    have answer {op' : UInt8} {res : Except Stop Reply} (h : ∃ bytes, Sends res b bytes ∧ Formed b op' bytes) :
        ∃ b' bytes, Sends res b' bytes ∧ Change b (op' :: rest) b' bytes := by
      obtain ⟨bytes, hs, -⟩ := h
      exact ⟨b, bytes, hs, .nothing _⟩
    unfold attOnPdu
    dsimp only
    split
    · exact onMtuReq_change b rest rsp
    · exact answer (onFindInfo_formed hr b _ rsp)
    · exact answer (onFindByType_formed hr hb _ rsp)
    · exact answer (onReadBy_formed hr hb rfl _ rsp)
    · exact answer (onReadBy_formed hr hb rfl _ rsp)
    · exact answer (onRead_formed hb rfl _ rsp)
    · exact answer (onRead_formed hb rfl _ rsp)
    · exact onWrite_change b false rfl rest rsp
    · exact onWrite_change b true rfl rest rsp
    · exact answer (onOther_formed b op _ rsp)

/-- The MTU settled on. -/
theorem settled_toNat (client : UInt16) :
    (if client < attMtuMax then client else attMtuMax).toNat = min client.toNat 128 := by
  have h₁₂₈ : attMtuMax.toNat = 128 := rfl
  simp only [UInt16.lt_iff_toNat_lt]
  split <;> omega

theorem settled_bounds {client : UInt16} (h : attMtuDefault ≤ client) :
    23 ≤ (if client < attMtuMax then client else attMtuMax).toNat ∧
      (if client < attMtuMax then client else attMtuMax).toNat ≤ 128 := by
  have h₂₃ : 23 ≤ client.toNat := UInt16.le_iff_toNat_le.1 h
  rw [settled_toNat]
  omega

/-- What a write without error stores keeps the length within its bound. -/
theorem Written.valueLen {b b' : Server} {hdl : UInt16} {v : List UInt8} (h : Written b hdl v b' 0)
    (hlen : b.valueLen.toNat ≤ 64) : b'.mtu = b.mtu ∧ b'.valueLen.toNat ≤ 64 := by
  cases h with
  | cccd w hw hv => exact ⟨rfl, hlen⟩
  | value p hw hv hp =>
    refine ⟨rfl, ?_⟩
    have hlt : v.length < UInt16.size := lt_of_le_of_lt hv (by decide)
    exact (UInt16.toNat_ofNat_of_lt' hlt).trans_le hv
  | refused _ hne => exact absurd rfl hne

/-- A write without error goes to the value or to the CCCD. -/
theorem Written.handle {b b' : Server} {hdl : UInt16} {v : List UInt8} (h : Written b hdl v b' 0) :
    hdl = 9 ∧ v.length ≤ 64 ∧ b'.cccd = b.cccd ∨
      hdl = 10 ∧ v.length = 2 ∧ b'.value = b.value ∧ b'.valueLen = b.valueLen := by
  cases h with
  | cccd w hw hv => exact .inr ⟨UInt16.toNat_inj.1 hw, by rw [hv]; rfl, rfl, rfl⟩
  | value p hw hv hp => exact .inl ⟨UInt16.toNat_inj.1 hw, hv, rfl⟩
  | refused _ hne => exact absurd rfl hne

/-- **A request changes what it may, and nothing when it fails.** -/
theorem requests_change (rounds : Nat) (hr : 12 ≤ rounds) (b : Server) (hlow : 23 ≤ b.mtu.toNat)
    (hhigh : b.mtu.toNat ≤ 128) (hlen : b.valueLen.toNat ≤ 64) (req : List UInt8) (rsp : Rsp) :
    ∃ r, attOnPdu rounds b req rsp = .ok r ∧
      (23 ≤ r.server.mtu.toNat ∧ r.server.mtu.toNat ≤ 128 ∧ r.server.valueLen.toNat ≤ 64) ∧
      (r.server.mtu ≠ b.mtu → ∃ client, MtuRequest client req ∧ 23 ≤ client.toNat) ∧
      (∀ client, MtuRequest client req → 23 ≤ client.toNat → r.server.mtu.toNat = min client.toNat 128) ∧
      (r.server.value ≠ b.value ∨ r.server.valueLen ≠ b.valueLen → ∃ v, WriteOf 9 v req ∧ v.length ≤ 64) ∧
      (r.server.cccd ≠ b.cccd → ∃ v, WriteOf 10 v req ∧ v.length = 2) ∧
      (r.bytes.head? = some 0x01 → r.server = b) ∧
      ((∀ client, MtuRequest client req → client.toNat < 23) → (∀ v, WriteOf 9 v req → 64 < v.length) →
        (∀ v, WriteOf 10 v req → v.length ≠ 2) → r.server = b) := by
  obtain ⟨b', bytes, ⟨r, hok, hserver, hrlen, hbytes⟩, hchange⟩ := attOnPdu_change hr hlen req rsp
  refine ⟨r, hok, ?_⟩
  rw [hbytes, hserver]
  -- an MTU Request that is accepted settles the MTU
  have hsettled : ∀ client, MtuRequest client req → 23 ≤ client.toNat → b'.mtu.toNat = min client.toNat 128 := by
    intro client hreq hle
    have hsends := onMtuReq_accepts b hreq (UInt16.le_iff_toNat_le.2 hle) rsp
    obtain ⟨rest, rfl⟩ := hreq
    obtain ⟨r', hok', hserver', -⟩ := hsends
    obtain rfl : r = r' := Except.ok.inj (hok.symm.trans hok')
    rw [← hserver, hserver']
    exact settled_toNat client
  cases hchange with
  | nothing =>
    refine ⟨⟨hlow, hhigh, hlen⟩, fun hne => absurd rfl hne, hsettled, fun hne => ?_, fun hne => absurd rfl hne,
      fun _ => rfl, fun _ _ _ => rfl⟩
    rcases hne with hne | hne <;> exact absurd rfl hne
  | mtu client hreq h =>
    have h₂₃ : 23 ≤ client.toNat := UInt16.le_iff_toNat_le.1 h
    obtain ⟨hlow', hhigh'⟩ := settled_bounds h
    refine ⟨⟨hlow', hhigh', hlen⟩, fun _ => ⟨client, hreq, h₂₃⟩, hsettled, fun hne => ?_, fun hne => absurd rfl hne,
      fun he => ?_, fun hno _ _ => ?_⟩
    · rcases hne with hne | hne <;> exact absurd rfl hne
    · exact absurd (Option.some.inj he) (by decide)
    · have := hno client hreq
      omega
  | write hdl v b'' bytes hreq h hb =>
    obtain ⟨hmtu, hlen'⟩ := h.valueLen hlen
    refine ⟨⟨hmtu ▸ hlow, hmtu ▸ hhigh, hlen'⟩, fun hne => absurd hmtu hne, hsettled, fun hne => ?_, fun hne => ?_,
      fun he => ?_, fun _ hvalue hcccd => ?_⟩
    · rcases h.handle with ⟨rfl, hv, -⟩ | ⟨-, -, hval, hvlen⟩
      · exact ⟨v, hreq, hv⟩
      · rcases hne with hne | hne
        · exact absurd hval hne
        · exact absurd hvlen hne
    · rcases h.handle with ⟨-, -, hc⟩ | ⟨rfl, hv, -⟩
      · exact absurd hc hne
      · exact ⟨v, hreq, hv⟩
    · rcases hb with rfl | rfl
      · simp at he
      · exact absurd (Option.some.inj he) (by decide)
    · rcases h.handle with ⟨rfl, hv, -⟩ | ⟨rfl, hv, -⟩
      · exact absurd (hvalue v hreq) (Nat.not_lt.2 hv)
      · exact absurd hv (hcccd v hreq)

/-- A write of three bytes to the CCCD is refused. -/
theorem requests_change_refused : ∃ r, attOnPdu 12 plain [0x12, 10, 0, 1, 0, 0] noise = .ok r ∧ r.server = plain := by
  obtain ⟨r, hok, -, -, -, -, -, herror, -⟩ :=
    requests_change 12 (by decide) plain (by decide) (by decide) (by decide) [0x12, 10, 0, 1, 0, 0] noise
  obtain rfl : _ = r := Except.ok.inj ((rfl : attOnPdu 12 plain [0x12, 10, 0, 1, 0, 0] noise = .ok _).symm.trans hok)
  exact ⟨_, hok, herror rfl⟩

/-! ## Commands -/

/-- A command gets no answer. -/
def Unanswered (rounds : Nat) (b : Server) (req : List UInt8) (rsp : Rsp) : Prop :=
  ∀ op, req.head? = some op → op &&& 0x40 ≠ 0 → ∃ r, attOnPdu rounds b req rsp = .ok r ∧ r.len = 0

/-- The opcode has no command flag, or it is that of the Write Command. -/
def KnownOpcode (req : List UInt8) : Prop := ∀ op, req.head? = some op → op &&& 0x40 = 0 ∨ op = 0x52

/-- An opcode with the command flag is none of the requests' opcodes. -/
theorem attOnPdu_command {rounds : Nat} {b : Server} {op : UInt8} {rest : List UInt8} {rsp : Rsp} (hop : op &&& 0x40 ≠ 0)
    (hne : op ≠ 0x52) : attOnPdu rounds b (op :: rest) rsp = onOther b op (op :: rest) rsp := by
  unfold attOnPdu
  dsimp only
  split
  all_goals first | rfl | exact absurd rfl hne | exact absurd (by decide) hop

/-- **A command goes unanswered exactly if it is the Write Command.** -/
theorem unanswered_iff (rounds : Nat) (b : Server) (req : List UInt8) (rsp : Rsp) :
    Unanswered rounds b req rsp ↔ KnownOpcode req := by
  cases req with
  | nil =>
    constructor
    · intro _ op hop
      cases hop
    · intro _ op hop
      cases hop
  | cons op rest =>
    constructor
    · intro h op' hop'
      obtain rfl := Option.some.inj hop'
      by_contra hnot
      rw [not_or] at hnot
      obtain ⟨r, hok, hlen⟩ := h op rfl hnot.1
      obtain ⟨bytes, ⟨r', hok', -, hlen', -⟩, hformed⟩ := onOther_formed b op (op :: rest) rsp
      rw [attOnPdu_command hnot.1 hnot.2, hok'] at hok
      obtain rfl := Except.ok.inj hok
      rw [hlen] at hlen'
      rcases hformed.2 with ⟨hdl, code, rfl⟩ | ⟨tail, rfl⟩ <;> simp [errorPdu] at hlen'
    · intro h op' hop' hflag
      obtain rfl := Option.some.inj hop'
      rcases h op rfl with hop | rfl
      · exact absurd hop hflag
      · have hcommand : true = false → (0x52 : UInt8) = 0x12 := by intro hc; cases hc
        obtain ⟨b', bytes, ⟨r, hok, -, hlen, -⟩, hbytes, -⟩ := onWrite_formed b 0x52 true hcommand (0x52 :: rest) rsp
        rw [if_pos rfl] at hbytes
        subst hbytes
        exact ⟨r, hok, hlen⟩

/-- A signed write is answered with an error. -/
theorem signed_write_answered : ¬ Unanswered 12 plain [0xd2, 9, 0] noise := by
  intro h
  obtain ⟨r, hok, hlen⟩ := h 0xd2 rfl (by decide)
  have hfive : (attOnPdu 12 plain [0xd2, 9, 0] noise).toOption.map Reply.len = some 5 := rfl
  rw [hok, Except.toOption, Option.map_some, hlen] at hfive
  cases hfive

/-! ## A long read -/

def writeReq (command : Bool) (v : List UInt8) : List UInt8 := (if command then 0x52 else 0x12) :: (le16 9 ++ v)

def readReq : List UInt8 := 0x0a :: le16 9

def readBlobReq (off : UInt16) : List UInt8 := 0x0c :: (le16 9 ++ le16 off)

/-- A client's request, of whose answer it takes what follows the opcode it expects. -/
def ask (rounds : Nat) (rsp : Rsp) (b : Server) (req : List UInt8) (code : UInt8) : Option (List UInt8 × Server) :=
  match attOnPdu rounds b req rsp with
  | .ok r => if r.bytes.head? = some code then some (r.bytes.tail, r.server) else none
  | .error _ => none

/-- A client reads on while responses are full, with at most this many requests. -/
def readOn (rounds mtu : Nat) (rsp : Nat → Rsp) : Nat → Server → List UInt8 → Option (List UInt8)
  | 0, _, _ => none
  | n + 1, b, got => do
    let (data, b) ← ask rounds (rsp n) b (readBlobReq (UInt16.ofNat got.length)) 0x0d
    if data.length < mtu - 1 then return got ++ data else readOn rounds mtu rsp n b (got ++ data)

/-- A long read. -/
def readLong (rounds mtu : Nat) (rsp : Nat → Rsp) : Nat → Server → Option (List UInt8)
  | 0, _ => none
  | n + 1, b => do
    let (data, b) ← ask rounds (rsp n) b readReq 0x0b
    if data.length < mtu - 1 then return data else readOn rounds mtu rsp n b data

theorem ask_sends {rounds : Nat} {rsp : Rsp} {b b' : Server} {req data : List UInt8} {code : UInt8}
    (h : Sends (attOnPdu rounds b req rsp) b' (code :: data)) : ask rounds rsp b req code = some (data, b') := by
  obtain ⟨r, hok, hserver, -, hbytes⟩ := h
  rw [ask, hok]
  dsimp only
  rw [hbytes, hserver]
  exact if_pos rfl

theorem attWrite_value (b : Server) {v : List UInt8} (hv : v.length ≤ bleValueMax) :
    ∃ p, attWrite b 9 v = .ok ({ b with value := p, valueLen := UInt16.ofNat v.length }, 0) ∧
      p.bytes.take v.length = v := by
  have hfit : 0 + v.length ≤ bleValueMax := by omega
  obtain ⟨p, hp, hbytes⟩ := store_some (p := b.value) hfit
  have htake := take_store hfit hbytes
  rw [Nat.zero_add, List.take_zero, List.nil_append] at htake
  refine ⟨p, ?_, htake⟩
  rw [attWrite, if_neg (by decide), if_pos (by decide), if_neg (Nat.not_lt.2 hv), hp]
  rfl

/-- A written value is the current one, whatever it was before. -/
theorem write_sends (rounds : Nat) (b : Server) (command : Bool) {v : List UInt8} (hv : v.length ≤ bleValueMax)
    (rsp : Rsp) :
    ∃ b' bytes, Sends (attOnPdu rounds b (writeReq command v) rsp) b' bytes ∧ b'.current = v ∧ b'.mtu = b.mtu ∧
      b'.Ok := by
  obtain ⟨p, hw, hp⟩ := attWrite_value b hv
  have hlen : (UInt16.ofNat v.length).toNat = v.length :=
    UInt16.toNat_ofNat_of_lt' (lt_of_le_of_lt hv (by decide))
  have hcurrent : ({ b with value := p, valueLen := UInt16.ofNat v.length } : Server).current = v := by
    change p.bytes.take (UInt16.ofNat v.length).toNat = v
    rw [hlen, hp]
  have hok : ({ b with value := p, valueLen := UInt16.ofNat v.length } : Server).Ok := by
    change (UInt16.ofNat v.length).toNat ≤ bleValueMax
    rwa [hlen]
  have hhdl (op : UInt8) : getLe16 (op :: (le16 9 ++ v)) 1 = .ok 9 := getLe16_le16 (q := v) 9 rfl
  cases command with
  | true =>
    refine ⟨_, [], ⟨⟨_, rsp, 0⟩, ?_, rfl, rfl, List.take_zero⟩, hcurrent, rfl, hok⟩
    exact onWrite_eq (by simp) (hhdl 0x52) hw 0x52 true rsp
  | false =>
    refine ⟨_, [0x13], ?_, hcurrent, rfl, hok⟩
    change Sends (onWrite b 0x12 false (0x12 :: (le16 9 ++ v)) rsp) _ _
    rw [onWrite_eq (by simp) (hhdl 0x12) hw, if_neg Bool.false_ne_true, if_neg (by decide)]
    exact sends_store _ rsp [0x13] (by decide)

/-- A read from beyond the end of a value. -/
theorem readFrom_beyond {b : Server} (hb : b.Ok) (op : UInt8) (blob : Bool) (rsp : Rsp) {hdl off : UInt16}
    {val : List UInt8} (hval : b.valueOf hdl = some val) (hlt : val.length < off.toNat) :
    Sends (readFrom b op blob hdl off rsp) b (errorPdu op hdl ecodeInvalidOffset) := by
  unfold readFrom
  rw [attValue_full hb, hval]
  change Sends (if off.toNat > val.length then _ else _) _ _
  rw [if_pos hlt]
  exact attError_sends b rsp op hdl ecodeInvalidOffset

theorem readBlob_sends (rounds : Nat) {b : Server} (hb : b.Ok) (rsp : Rsp) (off : UInt16) :
    Sends (attOnPdu rounds b (readBlobReq off) rsp) b
      (if off.toNat ≤ b.current.length then 0x0d :: (b.current.drop off.toNat).take (b.attMtu - 1)
        else errorPdu 0x0c 9 ecodeInvalidOffset) := by
  have hhdl : getLe16 (readBlobReq off) 1 = .ok 9 := getLe16_le16 (q := le16 off) 9 rfl
  have hoff : getLe16 (readBlobReq off) 3 = .ok off := getLe16_le16 (q := []) off rfl
  change Sends (onRead b 0x0c true (readBlobReq off) rsp) _ _
  have hread : onRead b 0x0c true (readBlobReq off) rsp = readFrom b 0x0c true 9 off rsp := by
    unfold onRead
    rw [if_neg (by simp [readBlobReq]), hhdl, readOffset, if_pos rfl, hoff]
    rfl
  rw [hread]
  split
  · exact readFrom_value hb 0x0c true rsp rfl ‹_›
  · exact readFrom_beyond hb 0x0c true rsp rfl (Nat.not_le.1 ‹_›)

/-- **Reading on from what was read so far collects the rest.** -/
theorem readOn_rest (rounds : Nat) {b : Server} (hb : b.Ok) (rsp : Nat → Rsp) {n k : Nat}
    (hk : k ≤ b.current.length) (hn : b.current.length < k + n * (b.attMtu - 1)) :
    readOn rounds b.attMtu rsp n b (b.current.take k) = some b.current := by
  have hmtu := attMtu_bounds b
  induction n generalizing k with
  | zero =>
    rw [Nat.zero_mul] at hn
    omega
  | succ n ih =>
    have hgot : (b.current.take k).length = k := List.length_take_of_le hk
    have hbound : b.current.length ≤ 64 := hb.length_current.trans_le hb
    have hoff : (UInt16.ofNat (b.current.take k).length).toNat = k := by
      rw [hgot]
      exact UInt16.toNat_ofNat_of_lt' (lt_of_le_of_lt (hk.trans hbound) (by decide))
    have hsends := readBlob_sends rounds hb (rsp n) (UInt16.ofNat (b.current.take k).length)
    rw [hoff, if_pos hk] at hsends
    have hcollected : b.current.take k ++ (b.current.drop k).take (b.attMtu - 1) = b.current.take (k + (b.attMtu - 1)) :=
      List.take_add.symm
    rw [readOn, ask_sends hsends]
    simp only [Option.bind_eq_bind, Option.bind_some, hcollected, List.length_take, List.length_drop]
    split
    · -- a response that is not full ends the value
      rename_i hshort
      have hend : b.current.length ≤ k + (b.attMtu - 1) := by omega
      rw [List.take_of_length_le hend]
      rfl
    · rename_i hfull
      refine ih (by omega) ?_
      rw [Nat.add_mul, Nat.one_mul] at hn
      omega

/-- **A long read returns what was written.** -/
theorem long_read_written (rounds : Nat) (b : Server) (hlow : 23 ≤ b.mtu.toNat) (hhigh : b.mtu.toNat ≤ 128)
    (v : List UInt8) (hv : v.length ≤ 64) (command : Bool) (rsp : Rsp) :
    ∃ r, attOnPdu rounds b (writeReq command v) rsp = .ok r ∧
      (∀ rsps n, v.length / (b.mtu.toNat - 1) < n → readLong rounds b.mtu.toNat rsps n r.server = some v) ∧
      ∀ off rsp', Sends (attOnPdu rounds r.server (readBlobReq off) rsp') r.server
        (if off.toNat ≤ v.length then 0x0d :: (v.drop off.toNat).take (b.mtu.toNat - 1)
          else errorPdu 0x0c 9 ecodeInvalidOffset) := by
  obtain ⟨b', bytes, ⟨r, hok, rfl, -⟩, hcurrent, hmtu, hfit⟩ := write_sends rounds b command hv rsp
  have hattMtu : r.server.attMtu = b.mtu.toNat := by
    rw [attMtu_eq, hmtu]
    omega
  refine ⟨r, hok, fun rsps n hn => ?_, fun off rsp' => ?_⟩
  · cases n with
    | zero => exact absurd hn (Nat.not_lt_zero _)
    | succ n =>
      have hread : Sends (attOnPdu rounds r.server readReq (rsps n)) _ _ := read_sends rounds hfit (rsps n)
      rw [hcurrent, hattMtu] at hread
      rw [readLong, ask_sends hread]
      simp only [Option.bind_eq_bind, Option.bind_some, List.length_take]
      split
      · rename_i hshort
        rw [List.take_of_length_le (by omega)]
        rfl
      · rename_i hfull
        have hrest := readOn_rest rounds hfit rsps (n := n) (k := b.mtu.toNat - 1) (by rw [hcurrent]; omega)
          (by
            rw [hcurrent, hattMtu]
            have hdiv := (Nat.div_lt_iff_lt_mul (by omega)).1 hn
            rw [Nat.add_mul, Nat.one_mul] at hdiv
            omega)
        rwa [hcurrent, hattMtu] at hrest
  · have hblob := readBlob_sends rounds hfit rsp' off
    rwa [hcurrent, hattMtu] at hblob

/-- A value of 44 bytes, twice the 22 bytes of a full response. -/
theorem long_read_written_full : ∃ r, attOnPdu 12 plain (writeReq true (List.replicate 44 7)) noise = .ok r ∧
    readLong 12 23 (fun _ => noise) 3 r.server = some (List.replicate 44 7) := by
  obtain ⟨r, hok, hread, -⟩ :=
    long_read_written 12 plain (by decide) (by decide) (List.replicate 44 7) (by decide) true noise
  exact ⟨r, hok, hread (fun _ => noise) 3 (by decide)⟩

end AlgaeBp.Att
