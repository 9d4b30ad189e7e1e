import AlgaeBp.Att.Listing
/-!
# What the ATT server answers

One lemma for each request: the reply it gives, with no access outside its
arrays and no loop without end, as long as the stored value fits its array.
-/
open Bytes

namespace AlgaeBp.Att

/-! ## Reading and writing checked memory -/

theorem slice_ok {p : List UInt8} {off len : Nat} (h : off + len ≤ p.length) :
    slice p off len = .ok ((p.drop off).take len) := if_pos h

theorem getLe16_ok (p : List UInt8) (off : Nat) (h : off + 2 ≤ p.length) : ∃ v, getLe16 p off = .ok v := by
  have hlen : ((p.drop off).take 2).length = 2 := by
    rw [List.length_take, List.length_drop]
    omega
  obtain ⟨lo, hi, hb⟩ := List.length_eq_two.1 hlen
  refine ⟨word16 lo hi, ?_⟩
  unfold getLe16
  rw [slice_ok h, hb]
  rfl

/-- A word written in little-endian order is read back. -/
theorem getLe16_le16 {p q : List UInt8} {off : Nat} (v : UInt16) (h : p.drop off = le16 v ++ q) :
    getLe16 p off = .ok v := by
  have hlen : off + 2 ≤ p.length := by
    have := congrArg List.length h
    simp only [List.length_drop, List.length_append, length_le16] at this
    omega
  unfold getLe16
  rw [slice_ok hlen, h]
  show Except.ok (word16 v.toUInt8 (v >>> 8).toUInt8) = _
  rw [word16_le16]

/-- A store at the start replaces the first bytes. -/
theorem store_front (p : Rsp) (src : List UInt8) (h : src.length ≤ 128) :
    ∃ q, checked (p.store 0 src) = .ok q ∧ ∀ n, src.length ≤ n →
    q.bytes.take n = src ++ (p.bytes.take n).drop src.length := by
  obtain ⟨q, hq, hb⟩ := (store_some (by omega) : ∃ q, p.store 0 src = some q ∧
    q.bytes = p.bytes.take 0 ++ src ++ p.bytes.drop (0 + src.length))
  refine ⟨q, by rw [hq]; rfl, fun n hn => ?_⟩
  rw [hb, List.take_zero, List.nil_append, Nat.zero_add, List.take_append, List.take_of_length_le hn, List.drop_take]

theorem store_front_all (p : Rsp) (src : List UInt8) (h : src.length ≤ 128) :
    ∃ q, checked (p.store 0 src) = .ok q ∧ q.bytes.take src.length = src := by
  obtain ⟨q, hq, hb⟩ := store_front p src h
  refine ⟨q, hq, ?_⟩
  rw [hb _ le_rfl, List.drop_eq_nil_of_le (by rw [List.length_take]; omega), List.append_nil]

/-! ## The MTU -/

theorem attMtu_eq (b : Server) : b.attMtu = max 23 (min b.mtu.toNat 128) := by
  have h₂₃ : attMtuDefault.toNat = 23 := rfl
  have h₁₂₈ : attMtuMax.toNat = 128 := rfl
  unfold Server.attMtu
  simp only [UInt16.lt_iff_toNat_lt, gt_iff_lt]
  split <;> split <;> omega

theorem attMtu_bounds (b : Server) : 23 ≤ b.attMtu ∧ b.attMtu ≤ 128 := by
  rw [attMtu_eq]
  omega

/-! ## Values -/

/-- The stored value fits its array. -/
def Server.Ok (b : Server) : Prop := b.valueLen.toNat ≤ bleValueMax

/-- The bytes of the characteristic value. -/
def Server.current (b : Server) : List UInt8 := b.value.bytes.take b.valueLen.toNat

theorem Server.Ok.length_current {b : Server} (h : b.Ok) : b.current.length = b.valueLen.toNat := by
  unfold Server.current
  rw [List.length_take, b.value.size, Nat.min_eq_left h]

/-- The value of an attribute. -/
def Server.valueOf (b : Server) (hdl : UInt16) : Option (List UInt8) :=
  if hdl.toNat = hdlCusVal then some b.current else attFixed b hdl

theorem attFixed_length {b : Server} {hdl : UInt16} {v : List UInt8} (h : attFixed b hdl = some v) : v.length ≤ 19 := by
  unfold attFixed at h
  split at h
  case h_9 =>
    obtain rfl := Option.some.inj h
    rw [length_le16]
    decide
  case h_10 => simp at h
  all_goals
    obtain rfl := Option.some.inj h
    decide

theorem Server.Ok.length_valueOf {b : Server} (h : b.Ok) {hdl : UInt16} {v : List UInt8} (hv : b.valueOf hdl = some v) :
    v.length ≤ bleValueMax := by
  unfold Server.valueOf at hv
  split at hv
  · obtain rfl := Option.some.inj hv
    rw [h.length_current]
    exact h
  · exact le_trans (attFixed_length hv) (by decide)

/-- `att_value` copies the value if the array is large enough. -/
theorem attValue_eq {b : Server} (h : b.Ok) (hdl : UInt16) (max : Nat) :
    attValue b hdl max = .ok ((b.valueOf hdl).bind (fun v => if v.length > max then none else some v)) := by
  unfold attValue Server.valueOf
  split
  · have hle : 0 + b.valueLen.toNat ≤ bleValueMax := by
      have : b.valueLen.toNat ≤ bleValueMax := h
      omega
    rw [Option.bind_some, h.length_current, load_some hle]
    split <;> rfl
  · cases attFixed b hdl with
    | none => rfl
    | some v =>
      rw [Option.bind_some]
      dsimp only
      split <;> rfl

theorem attValue_full {b : Server} (h : b.Ok) (hdl : UInt16) : attValue b hdl bleValueMax = .ok (b.valueOf hdl) := by
  rw [attValue_eq h]
  cases hv : b.valueOf hdl with
  | none => rfl
  | some v => rw [Option.bind_some, if_neg (not_lt.2 (h.length_valueOf hv))]

/-! ## What the attributes contribute -/

/-- Find Information: the handle and its type. -/
def infoEntry (hdl : UInt16) : Entry :=
  ⟨if (attTypeGet hdl).length = 16 then 2 else 1, le16 hdl ++ attTypeGet hdl, false⟩

def infoItem (hdl : UInt16) : Option Entry := some (infoEntry hdl)

/-- Read By Type and Read By Group Type: the handle part and as much of the value as fits a response alone. -/
def readEntry (mtu : Nat) (head val : List UInt8) : Entry :=
  let cut := val.take (mtu - 2 - head.length)
  ⟨head.length + cut.length, head ++ cut, decide (head.length + val.length + 2 > mtu)⟩

def readItem (b : Server) (mtu : Nat) (grouped : Bool) (want : List UInt8) (hdl : UInt16) : Option Entry :=
  if attTypeGet hdl ≠ want then none
  else if grouped ∧ attGroupEnd hdl = 0 then none
  else (b.valueOf hdl).map (readEntry mtu (readHead grouped hdl))

/-- Find By Type Value: services with the wanted value. -/
def serviceItem (b : Server) (type : UInt16) (want : List UInt8) (hdl : UInt16) : Option Entry :=
  if type ≠ 0x2800 ∨ attGroupEnd hdl = 0 ∨
      (b.valueOf hdl).bind (fun v => if v.length > 32 then none else some v) ≠ some want then none
  else some ⟨0, le16 hdl ++ le16 (attGroupEnd hdl), false⟩

theorem findInfoBody_eq (mtu : Nat) : findInfoBody mtu = listBody mtu infoItem := by
  funext hdl s
  unfold findInfoBody listBody infoItem infoEntry
  simp only [Entry.put, Entry.fix, List.length_append, length_le16]
  split <;> rfl

theorem length_readHead (grouped : Bool) (hdl : UInt16) : (readHead grouped hdl).length = if grouped then 4 else 2 := by
  cases grouped <;> rfl

theorem readByPut_eq {mtu : Nat} {head : List UInt8} (hm : 2 + head.length ≤ mtu) (val : List UInt8) (s : Listing) :
    readByPut mtu head val s = (readEntry mtu head val).put mtu s := by
  have hvlen : (if head.length + val.length + 2 > mtu then mtu - 2 - head.length else val.length) =
      (val.take (mtu - 2 - head.length)).length := by
    rw [List.length_take]
    split <;> omega
  have hcut : slice val 0 (val.take (mtu - 2 - head.length)).length = .ok (val.take (mtu - 2 - head.length)) := by
    rw [slice_ok (by rw [List.length_take]; omega), List.drop_zero, List.length_take, ← List.take_eq_take_min]
  unfold readByPut readEntry Entry.put Entry.fix
  rw [if_neg (by omega)]
  simp only [hvlen, hcut, List.length_append, decide_eq_true_eq]
  rfl

theorem readByBody_eq {b : Server} (h : b.Ok) {mtu : Nat} (hm : 23 ≤ mtu) (grouped : Bool) (want : List UInt8) :
    readByBody b mtu grouped want = listBody mtu (readItem b mtu grouped want) := by
  funext hdl s
  unfold readByBody listBody readItem
  by_cases ht : attTypeGet hdl ≠ want
  · rw [if_pos ht, if_pos ht]
  rw [if_neg ht, if_neg ht]
  by_cases hg : grouped ∧ attGroupEnd hdl = 0
  · rw [if_pos hg, if_pos hg]
  rw [if_neg hg, if_neg hg, attValue_full h]
  cases hv : b.valueOf hdl with
  | none => rfl
  | some val =>
    apply readByPut_eq
    rw [length_readHead]
    split <;> omega

theorem findByTypeBody_eq {b : Server} (h : b.Ok) (mtu : Nat) (type : UInt16) (want : List UInt8) (hdl : UInt16)
    {s : Listing} (hs : s.shape = 0) :
    findByTypeBody b mtu type want hdl s = listBody mtu (serviceItem b type want) hdl s := by
  obtain ⟨shape, out, rsp⟩ := s
  simp only at hs
  subst hs
  unfold findByTypeBody listBody serviceItem
  by_cases ht : type ≠ 0x2800
  · rw [if_pos ht, if_pos (.inl ht)]
  by_cases hg : attGroupEnd hdl = 0
  · rw [if_neg ht, if_pos hg, if_pos (.inr (.inl hg))]
  rw [if_neg ht, if_neg hg, attValue_eq h]
  by_cases hv : (b.valueOf hdl).bind (fun v => if v.length > 32 then none else some v) ≠ some want
  · have hnone : type ≠ 0x2800 ∨ attGroupEnd hdl = 0 ∨
        (b.valueOf hdl).bind (fun v => if v.length > 32 then none else some v) ≠ some want := .inr (.inr hv)
    simp only [if_pos hnone]
    exact if_pos hv
  have hsome : ¬ (type ≠ 0x2800 ∨ attGroupEnd hdl = 0 ∨
      (b.valueOf hdl).bind (fun v => if v.length > 32 then none else some v) ≠ some want) := by
    rw [not_or, not_or]
    exact ⟨ht, hg, hv⟩
  simp only [if_neg hsome]
  refine (if_neg hv).trans ?_
  simp only [Entry.put, Entry.fix, if_true, List.length_append, length_le16]
  by_cases hfull : out + 4 > mtu
  · rw [if_pos hfull, if_pos (.inr hfull)]
    rfl
  · rw [if_neg hfull, if_neg (by simpa using hfull)]
    rfl

theorem serviceItem_shape {b : Server} {type : UInt16} {want : List UInt8} {hdl : UInt16} {e : Entry}
    (h : serviceItem b type want hdl = some e) : e = ⟨0, le16 hdl ++ le16 (attGroupEnd hdl), false⟩ := by
  unfold serviceItem at h
  split at h
  · simp at h
  · exact (Option.some.inj h).symm

/-- The loop of Find By Type Value keeps no shape. -/
theorem serviceBody_shape {b : Server} {mtu : Nat} {type : UInt16} {want : List UInt8} {hdl : UInt16} {s s' : Listing}
    (hs : s.shape = 0) (h : listBody mtu (serviceItem b type want) hdl s = .ok (.next s')) : s'.shape = 0 := by
  unfold listBody at h
  cases hi : serviceItem b type want hdl with
  | none =>
    rw [hi] at h
    simp only [Except.ok.injEq, Flow.next.injEq] at h
    rw [← h, hs]
  | some e =>
    rw [hi, serviceItem_shape hi] at h
    rw [put_next_shape h, Entry.fix, if_pos hs]

/-! ## Replies -/

/-- The request is answered with these bytes and leaves this server. -/
def Sends (res : Except Stop Reply) (b : Server) (bytes : List UInt8) : Prop :=
  ∃ r, res = .ok r ∧ r.server = b ∧ r.len = bytes.length ∧ r.bytes = bytes

/-- An Error Response. -/
def errorPdu (op : UInt8) (hdl : UInt16) (code : UInt8) : List UInt8 := [0x01, op] ++ le16 hdl ++ [code]

theorem sends_store (b : Server) (rsp : Rsp) (bytes : List UInt8) (h : bytes.length ≤ 128) :
    Sends (do let q ← checked (rsp.store 0 bytes); return ⟨b, q, bytes.length⟩) b bytes := by
  obtain ⟨q, hq, hb⟩ := store_front_all rsp bytes h
  rw [hq]
  exact ⟨⟨b, q, bytes.length⟩, rfl, rfl, rfl, hb⟩

theorem attError_sends (b : Server) (rsp : Rsp) (op : UInt8) (hdl : UInt16) (code : UInt8) :
    Sends (attError b rsp op hdl code) b (errorPdu op hdl code) :=
  sends_store b rsp (errorPdu op hdl code) (by simp [errorPdu])

/-- A list is sent behind the bytes stored at the end. -/
theorem sends_list (b : Server) {s s' : Listing} {es : List Entry} {shape : Nat} (hst : Stored s s' es shape)
    {front : List UInt8} (hf : front.length = s.out) (hfit : s.out + (joined es).length ≤ 128) :
    Sends (do let q ← checked (s'.rsp.store 0 front); return ⟨b, q, s'.out⟩) b (front ++ joined es) := by
  obtain ⟨q, hq, hb⟩ := store_front s'.rsp front (by omega)
  rw [hq]
  refine ⟨⟨b, q, s'.out⟩, rfl, rfl, ?_, ?_⟩
  · show s'.out = _
    rw [hst.out, List.length_append, hf]
  · show q.bytes.take s'.out = _
    have hlen : (s.rsp.bytes.take s.out).length = front.length := by
      rw [List.length_take, s.rsp.size, hf]
      omega
    rw [hb _ (by rw [hst.out, hf]; omega), hst.bytes, ← hlen, List.drop_left]

theorem attRange_cases (req : List UInt8) :
    attRange req = .ok none ∨ ∃ start last, attRange req = .ok (some (start, last)) ∧ 0 < start ∧ start ≤ last := by
  unfold attRange
  by_cases hlen : req.length < 5
  · exact .inl (if_pos hlen)
  obtain ⟨start, hs⟩ := getLe16_ok req 1 (by omega)
  obtain ⟨last, hl⟩ := getLe16_ok req 3 (by omega)
  rw [if_neg hlen, hs, hl]
  by_cases hbad : start = 0 ∨ start > last
  · exact .inl (if_pos hbad)
  · rw [not_or] at hbad
    refine .inr ⟨start, last, if_neg (by rw [not_or]; exact hbad), ?_, ?_⟩
    · exact UInt16.pos_iff_ne_zero.2 hbad.1
    · exact UInt16.not_lt.1 hbad.2

theorem attLast_le (last : UInt16) : attLast last ≤ hdlMax := by
  unfold attLast
  split
  · exact UInt16.le_refl _
  · rename_i h
    exact UInt16.not_lt.1 h

theorem enough_le (first last : UInt16) (hl : last ≤ hdlMax) : enough first last ≤ 12 := by
  rw [UInt16.le_iff_toNat_le] at hl
  have : hdlMax.toNat = 10 := rfl
  unfold enough
  omega

/-! ## One lemma for each request -/

/-- A response names the request's opcode, or is an error that does, and keeps to the MTU. -/
def Formed (b : Server) (op : UInt8) (bytes : List UInt8) : Prop :=
  bytes.length ≤ b.attMtu ∧ ((∃ hdl code, bytes = errorPdu op hdl code) ∨ ∃ rest, bytes = (op + 1) :: rest)

theorem formed_error (b : Server) (op : UInt8) (hdl : UInt16) (code : UInt8) : Formed b op (errorPdu op hdl code) := by
  have := (attMtu_bounds b).1
  refine ⟨?_, .inl ⟨hdl, code, rfl⟩⟩
  show 5 ≤ b.attMtu
  omega

/-- The list of a Find Information response. -/
def infoPage (b : Server) (start last : UInt16) : List Entry × Nat :=
  page b.attMtu infoItem (handles start (attLast last)) 0 2

theorem onFindInfo_list {rounds : Nat} (hr : 12 ≤ rounds) (b : Server) (op : UInt8) {req : List UInt8} (rsp : Rsp)
    {start last : UInt16} (hrange : attRange req = .ok (some (start, last))) (hs : start ≤ hdlMax) :
    Sends (onFindInfo rounds b op req rsp) b
      (if (infoPage b start last).2 = 0 then errorPdu op start ecodeAttrNotFound
        else [0x05, UInt8.ofNat (infoPage b start last).2] ++ joined (infoPage b start last).1) := by
  have hmtu := attMtu_bounds b
  have hle := page_le b.attMtu infoItem (handles start (attLast last)) 0 2 (by omega)
  obtain ⟨s', hloop, hst⟩ := forHandles_page hmtu.2 infoItem (attLast_le last) rounds start ⟨0, 2, rsp⟩
    (le_trans (enough_le start _ (attLast_le last)) hr) (by omega)
  unfold onFindInfo
  rw [hrange, findInfoBody_eq]
  show Sends (if start > hdlMax then _ else _) _ _
  rw [if_neg (UInt16.not_lt.2 hs), hloop]
  show Sends (if s'.shape = 0 then _ else _) _ _
  have hshape : s'.shape = (infoPage b start last).2 := hst.shape
  rw [hshape]
  split
  · exact attError_sends b s'.rsp op start ecodeAttrNotFound
  · exact sends_list b hst rfl (le_trans hle hmtu.2)

theorem onFindInfo_formed {rounds : Nat} (hr : 12 ≤ rounds) (b : Server) (req : List UInt8) (rsp : Rsp) :
    ∃ bytes, Sends (onFindInfo rounds b 0x04 req rsp) b bytes ∧ Formed b 0x04 bytes := by
  rcases attRange_cases req with hbad | ⟨start, last, hrange, -, -⟩
  · refine ⟨_, ?_, formed_error b 0x04 0 ecodeInvalidHandle⟩
    unfold onFindInfo
    rw [hbad]
    exact attError_sends b rsp 0x04 0 ecodeInvalidHandle
  by_cases hs : start ≤ hdlMax
  · refine ⟨_, onFindInfo_list hr b 0x04 rsp hrange hs, ?_⟩
    split
    · exact formed_error b 0x04 start ecodeAttrNotFound
    · refine ⟨?_, .inr ⟨_, rfl⟩⟩
      rw [List.length_append]
      exact page_le b.attMtu infoItem _ 0 2 (by have := attMtu_bounds b; omega)
  · refine ⟨_, ?_, formed_error b 0x04 start ecodeAttrNotFound⟩
    unfold onFindInfo
    rw [hrange]
    show Sends (if start > hdlMax then _ else _) _ _
    rw [if_pos (UInt16.not_le.1 hs)]
    exact attError_sends b rsp 0x04 start ecodeAttrNotFound

theorem onFindByType_formed {rounds : Nat} (hr : 12 ≤ rounds) {b : Server} (hb : b.Ok) (req : List UInt8) (rsp : Rsp) :
    ∃ bytes, Sends (onFindByType rounds b 0x06 req rsp) b bytes ∧ Formed b 0x06 bytes := by
  have hmtu := attMtu_bounds b
  unfold onFindByType
  by_cases hlen : req.length < 7
  · rw [if_pos hlen]
    exact ⟨_, attError_sends b rsp 0x06 0 ecodeInvalidPdu, formed_error ..⟩
  rw [if_neg hlen]
  rcases attRange_cases req with hbad | ⟨start, last, hrange, -, -⟩
  · rw [hbad]
    exact ⟨_, attError_sends b rsp 0x06 0 ecodeInvalidHandle, formed_error ..⟩
  obtain ⟨type, htype⟩ := getLe16_ok req 5 (by omega)
  rw [hrange, htype, slice_ok (by omega)]
  show ∃ bytes, Sends (if start > hdlMax then _ else _) _ _ ∧ _
  by_cases hs : start ≤ hdlMax
  · rw [if_neg (UInt16.not_lt.2 hs)]
    obtain ⟨s', hloop, hst⟩ := forHandles_page hmtu.2 (serviceItem b type ((req.drop 7).take (req.length - 7)))
      (attLast_le last) rounds start ⟨0, 1, rsp⟩ (le_trans (enough_le start _ (attLast_le last)) hr) (by omega)
    rw [forHandles_congr (fun s => s.shape = 0) (fun hdl s => findByTypeBody_eq hb _ _ _ hdl)
      (fun hdl s s' => serviceBody_shape) rounds start _ rfl, hloop]
    show ∃ bytes, Sends (if s'.out = 1 then _ else _) _ _ ∧ _
    split
    · exact ⟨_, attError_sends b s'.rsp 0x06 start ecodeAttrNotFound, formed_error ..⟩
    · have hle := page_le b.attMtu (serviceItem b type ((req.drop 7).take (req.length - 7)))
        (handles start (attLast last)) 0 1 (by omega)
      refine ⟨_, sends_list b hst rfl (le_trans hle hmtu.2), ?_, .inr ⟨_, rfl⟩⟩
      rw [List.length_append]
      exact hle
  · rw [if_pos (UInt16.not_le.1 hs)]
    exact ⟨_, attError_sends b rsp 0x06 start ecodeAttrNotFound, formed_error ..⟩

/-- The list of a Read By Type or Read By Group Type response. -/
def readPage (b : Server) (grouped : Bool) (want : List UInt8) (start last : UInt16) : List Entry × Nat :=
  page b.attMtu (readItem b b.attMtu grouped want) (handles start (attLast last)) 0 2

/-- The response opcode of Read By Type and Read By Group Type. -/
def readByRsp (grouped : Bool) : UInt8 := if grouped then 0x11 else 0x09

theorem onReadBy_list {rounds : Nat} (hr : 12 ≤ rounds) {b : Server} (hb : b.Ok) (op : UInt8) {grouped : Bool}
    {req want : List UInt8} (rsp : Rsp) {start last : UInt16} (hlen : want.length = 2 ∨ want.length = 16)
    (hreq : req.drop 5 = want) (hrange : attRange req = .ok (some (start, last)))
    (hg : grouped = true → want = le16 0x2800) (hs : start ≤ hdlMax) :
    Sends (onReadBy rounds b op grouped req rsp) b
      (if (readPage b grouped want start last).2 = 0 then errorPdu op start ecodeAttrNotFound
        else [readByRsp grouped, UInt8.ofNat (readPage b grouped want start last).2] ++
          joined (readPage b grouped want start last).1) := by
  have hmtu := attMtu_bounds b
  have hle := page_le b.attMtu (readItem b b.attMtu grouped want) (handles start (attLast last)) 0 2 (by omega)
  have hwlen : req.length - 5 = want.length := by rw [← hreq, List.length_drop]
  obtain ⟨s', hloop, hst⟩ := forHandles_page hmtu.2 (readItem b b.attMtu grouped want) (attLast_le last) rounds start
    ⟨0, 2, rsp⟩ (le_trans (enough_le start _ (attLast_le last)) hr) (by omega)
  unfold onReadBy
  rw [if_neg (by omega), hrange, slice_ok (by omega), hreq, hwlen, List.take_length]
  show Sends (if grouped = true ∧ want ≠ le16 0x2800 then _ else if start > hdlMax then _ else _) _ _
  rw [if_neg (fun h => h.2 (hg h.1)), if_neg (UInt16.not_lt.2 hs), readByBody_eq hb hmtu.1, hloop]
  show Sends (if s'.shape = 0 then _ else _) _ _
  have hshape : s'.shape = (readPage b grouped want start last).2 := hst.shape
  rw [hshape]
  split
  · exact attError_sends b s'.rsp op start ecodeAttrNotFound
  · exact sends_list b hst rfl (le_trans hle hmtu.2)

theorem onReadBy_formed {rounds : Nat} (hr : 12 ≤ rounds) {b : Server} (hb : b.Ok) {op : UInt8} {grouped : Bool}
    (hop : readByRsp grouped = op + 1) (req : List UInt8) (rsp : Rsp) :
    ∃ bytes, Sends (onReadBy rounds b op grouped req rsp) b bytes ∧ Formed b op bytes := by
  have hmtu := attMtu_bounds b
  by_cases hlen : req.length < 7 ∨ (req.length - 5 ≠ 2 ∧ req.length - 5 ≠ 16)
  · unfold onReadBy
    rw [if_pos hlen]
    exact ⟨_, attError_sends b rsp op 0 ecodeInvalidPdu, formed_error ..⟩
  have hwant : (req.drop 5).length = 2 ∨ (req.drop 5).length = 16 := by
    rw [List.length_drop]
    omega
  have htake : slice req 5 (req.length - 5) = .ok (req.drop 5) := by
    rw [slice_ok (by omega), List.take_of_length_le (by rw [List.length_drop])]
  rcases attRange_cases req with hbad | ⟨start, last, hrange, -, -⟩
  · unfold onReadBy
    rw [if_neg hlen, hbad]
    exact ⟨_, attError_sends b rsp op 0 ecodeInvalidHandle, formed_error ..⟩
  by_cases hg : grouped = true ∧ req.drop 5 ≠ le16 0x2800
  · unfold onReadBy
    rw [if_neg hlen, hrange, htake]
    show ∃ bytes, Sends (if grouped = true ∧ req.drop 5 ≠ le16 0x2800 then _ else _) _ _ ∧ _
    rw [if_pos hg]
    exact ⟨_, attError_sends b rsp op start ecodeUnsuppGrpType, formed_error ..⟩
  by_cases hs : start ≤ hdlMax
  · refine ⟨_, onReadBy_list hr hb op rsp hwant rfl hrange (fun h => by_contra fun hn => hg ⟨h, hn⟩) hs, ?_⟩
    split
    · exact formed_error ..
    · refine ⟨?_, .inr ⟨_, by rw [hop]; rfl⟩⟩
      rw [List.length_append]
      exact page_le b.attMtu (readItem b b.attMtu grouped (req.drop 5)) _ 0 2 (by omega)
  · unfold onReadBy
    rw [if_neg hlen, hrange, htake]
    show ∃ bytes, Sends (if grouped = true ∧ req.drop 5 ≠ le16 0x2800 then _ else if start > hdlMax then _ else _) _ _ ∧ _
    rw [if_neg hg, if_pos (UInt16.not_le.1 hs)]
    exact ⟨_, attError_sends b rsp op start ecodeAttrNotFound, formed_error ..⟩

/-- The response opcode of Read and Read Blob. -/
def readRsp (blob : Bool) : UInt8 := if blob then 0x0d else 0x0b

/-- A read of an existing attribute from an offset within its value. -/
theorem readFrom_value {b : Server} (hb : b.Ok) (op : UInt8) (blob : Bool) (rsp : Rsp) {hdl off : UInt16}
    {val : List UInt8} (hval : b.valueOf hdl = some val) (hle : off.toNat ≤ val.length) :
    Sends (readFrom b op blob hdl off rsp) b (readRsp blob :: (val.drop off.toNat).take (b.attMtu - 1)) := by
  have hmtu := attMtu_bounds b
  have hcut : (if val.length - off.toNat > b.attMtu - 1 then b.attMtu - 1 else val.length - off.toNat) =
      ((val.drop off.toNat).take (b.attMtu - 1)).length := by
    rw [List.length_take, List.length_drop]
    split <;> omega
  have hslice : slice val off.toNat ((val.drop off.toNat).take (b.attMtu - 1)).length =
      .ok ((val.drop off.toNat).take (b.attMtu - 1)) := by
    rw [slice_ok (by rw [List.length_take, List.length_drop]; omega), List.length_take, List.length_drop,
      ← List.length_drop, ← List.take_eq_take_min]
  unfold readFrom
  rw [attValue_full hb, hval]
  show Sends (if off.toNat > val.length then _ else _) _ _
  rw [if_neg (by omega), hcut, hslice, Nat.add_comm 1]
  exact sends_store b rsp (readRsp blob :: (val.drop off.toNat).take (b.attMtu - 1)) (by
    rw [List.length_cons, List.length_take]
    omega)

/-- A read at the value handle. -/
theorem read_sends (rounds : Nat) {b : Server} (hb : b.Ok) (rsp : Rsp) :
    Sends (attOnPdu rounds b (0x0a :: le16 9) rsp) b (0x0b :: b.current.take (b.attMtu - 1)) := by
  have hval : b.valueOf 9 = some b.current := rfl
  have hle : (0 : UInt16).toNat ≤ b.current.length := Nat.zero_le _
  exact readFrom_value hb 0x0a false rsp hval hle

theorem readFrom_formed {b : Server} (hb : b.Ok) {op : UInt8} {blob : Bool} (hop : readRsp blob = op + 1)
    (hdl off : UInt16) (rsp : Rsp) :
    ∃ bytes, Sends (readFrom b op blob hdl off rsp) b bytes ∧ Formed b op bytes := by
  have hmtu := attMtu_bounds b
  cases hval : b.valueOf hdl with
  | none =>
    unfold readFrom
    rw [attValue_full hb, hval]
    exact ⟨_, attError_sends b rsp op hdl ecodeInvalidHandle, formed_error ..⟩
  | some val =>
    by_cases hle : off.toNat ≤ val.length
    · refine ⟨_, readFrom_value hb op blob rsp hval hle, ?_, .inr ⟨_, by rw [hop]⟩⟩
      rw [List.length_cons, List.length_take]
      omega
    · unfold readFrom
      rw [attValue_full hb, hval]
      show ∃ bytes, Sends (if off.toNat > val.length then _ else _) _ _ ∧ _
      rw [if_pos (by omega)]
      exact ⟨_, attError_sends b rsp op hdl ecodeInvalidOffset, formed_error ..⟩

theorem onRead_formed {b : Server} (hb : b.Ok) {op : UInt8} {blob : Bool} (hop : readRsp blob = op + 1)
    (req : List UInt8) (rsp : Rsp) :
    ∃ bytes, Sends (onRead b op blob req rsp) b bytes ∧ Formed b op bytes := by
  unfold onRead
  by_cases hlen : req.length < if blob then 5 else 3
  · rw [if_pos hlen]
    exact ⟨_, attError_sends b rsp op 0 ecodeInvalidPdu, formed_error ..⟩
  obtain ⟨hdl, hhdl⟩ := getLe16_ok req 1 (by split at hlen <;> omega)
  obtain ⟨off, hoff⟩ : ∃ off, readOffset blob req = .ok off := by
    cases blob with
    | false => exact ⟨0, rfl⟩
    | true => exact getLe16_ok req 3 (by simpa using hlen)
  rw [if_neg hlen, hhdl, hoff]
  exact readFrom_formed hb hop hdl off rsp

theorem onMtuReq_formed (b : Server) (req : List UInt8) (rsp : Rsp) :
    ∃ b' bytes, Sends (onMtuReq b 0x02 req rsp) b' bytes ∧ Formed b 0x02 bytes ∧
      ((b' = b ∧ ∃ hdl code, bytes = errorPdu 0x02 hdl code) ∨
        ∃ client, getLe16 req 1 = .ok client ∧ attMtuDefault ≤ client ∧
          b' = { b with mtu := if client < attMtuMax then client else attMtuMax }) := by
  have hmtu := attMtu_bounds b
  unfold onMtuReq
  by_cases hlen : req.length < 3
  · rw [if_pos hlen]
    exact ⟨b, _, attError_sends b rsp 0x02 0 ecodeInvalidPdu, formed_error .., .inl ⟨rfl, _, _, rfl⟩⟩
  obtain ⟨client, hclient⟩ := getLe16_ok req 1 (by omega)
  rw [if_neg hlen, hclient]
  show ∃ b' bytes, Sends (if client < attMtuDefault then _ else _) _ _ ∧ _ ∧ _
  by_cases hlow : client < attMtuDefault
  · rw [if_pos hlow]
    exact ⟨b, _, attError_sends b rsp 0x02 0 ecodeInvalidPdu, formed_error .., .inl ⟨rfl, _, _, rfl⟩⟩
  · rw [if_neg hlow]
    refine ⟨_, _, sends_store _ rsp ([0x03] ++ le16 attMtuMax) (by decide), ⟨?_, .inr ⟨_, rfl⟩⟩,
      .inr ⟨client, rfl, UInt16.not_lt.1 hlow, rfl⟩⟩
    show 3 ≤ b.attMtu
    omega

/-! ## Writes -/

/-- What a write does to the server. -/
inductive Written (b : Server) (hdl : UInt16) (v : List UInt8) : Server → UInt8 → Prop where
  | cccd (w : UInt16) (h : hdl.toNat = hdlCusCccd) (hv : v = le16 w) : Written b hdl v { b with cccd := w } 0
  | value (p : Block bleValueMax) (h : hdl.toNat = hdlCusVal) (hlen : v.length ≤ bleValueMax)
      (hp : p.bytes.take v.length = v) : Written b hdl v { b with value := p, valueLen := UInt16.ofNat v.length } 0
  | refused (code : UInt8) (h : code ≠ 0) : Written b hdl v b code

theorem attWrite_written (b : Server) (hdl : UInt16) (v : List UInt8) :
    ∃ b' code, attWrite b hdl v = .ok (b', code) ∧ Written b hdl v b' code := by
  unfold attWrite
  by_cases hc : hdl.toNat = hdlCusCccd
  · rw [if_pos hc]
    by_cases hlen : v.length ≠ 2
    · rw [if_pos hlen]
      exact ⟨_, _, rfl, .refused _ (by decide)⟩
    · obtain ⟨lo, hi, rfl⟩ := List.length_eq_two.1 (not_not.1 hlen)
      rw [if_neg hlen]
      refine ⟨_, _, rfl, .cccd (word16 lo hi) hc ?_⟩
      rw [le16_word16]
  rw [if_neg hc]
  by_cases hv : hdl.toNat = hdlCusVal
  · rw [if_pos hv]
    by_cases hlen : v.length > bleValueMax
    · rw [if_pos hlen]
      exact ⟨_, _, rfl, .refused _ (by decide)⟩
    · have hfit : 0 + v.length ≤ bleValueMax := by omega
      obtain ⟨q, hq, hb⟩ := store_some (p := b.value) hfit
      rw [if_neg hlen, hq]
      refine ⟨_, _, rfl, .value q hv (by omega) ?_⟩
      have := take_store hfit hb
      simpa using this
  rw [if_neg hv]
  split
  · exact ⟨_, _, rfl, .refused _ (by decide)⟩
  · exact ⟨_, _, rfl, .refused _ (by decide)⟩

/-- A write with a handle: its answer after `att_write`. -/
theorem onWrite_eq {b b' : Server} {req : List UInt8} {hdl : UInt16} {code : UInt8} (hlen : 3 ≤ req.length)
    (hhdl : getLe16 req 1 = .ok hdl) (hw : attWrite b hdl (req.drop 3) = .ok (b', code)) (op : UInt8) (command : Bool)
    (rsp : Rsp) :
    onWrite b op command req rsp =
      if command then .ok ⟨b', rsp, 0⟩
      else if code ≠ 0 then attError b' rsp op hdl code
      else (checked (rsp.store 0 [0x13])).map (fun rsp => ⟨b', rsp, 1⟩) := by
  have hv : slice req 3 (req.length - 3) = .ok (req.drop 3) := by
    rw [slice_ok (by omega), List.take_of_length_le (by rw [List.length_drop])]
  unfold onWrite
  rw [if_neg (by omega), hhdl, hv]
  simp only [bind, Except.bind, hw]
  rfl

/-- A write leaves the server as `att_write` does, and is answered unless it is a command. -/
theorem onWrite_formed (b : Server) (op : UInt8) (command : Bool) (hop : command = false → op = 0x12)
    (req : List UInt8) (rsp : Rsp) :
    ∃ b' bytes, Sends (onWrite b op command req rsp) b' bytes ∧
      (if command then bytes = [] else Formed b op bytes) ∧
      (b' = b ∨ ∃ hdl code, 3 ≤ req.length ∧ getLe16 req 1 = .ok hdl ∧ Written b hdl (req.drop 3) b' code) := by
  have hmtu := attMtu_bounds b
  by_cases hlen : req.length < 3
  · unfold onWrite
    rw [if_pos hlen]
    cases command with
    | true => exact ⟨b, [], ⟨⟨b, rsp, 0⟩, rfl, rfl, rfl, List.take_zero⟩, rfl, .inl rfl⟩
    | false => exact ⟨b, _, attError_sends b rsp op 0 ecodeInvalidPdu, formed_error .., .inl rfl⟩
  obtain ⟨hdl, hhdl⟩ := getLe16_ok req 1 (by omega)
  obtain ⟨b', code, hw, hwr⟩ := attWrite_written b hdl (req.drop 3)
  rw [onWrite_eq (by omega) hhdl hw]
  have heff : b' = b ∨ ∃ hdl' code, 3 ≤ req.length ∧ getLe16 req 1 = .ok hdl' ∧ Written b hdl' (req.drop 3) b' code :=
    .inr ⟨hdl, code, by omega, hhdl, hwr⟩
  cases command with
  | true => exact ⟨b', [], ⟨⟨b', rsp, 0⟩, rfl, rfl, rfl, List.take_zero⟩, rfl, heff⟩
  | false =>
    obtain rfl := hop rfl
    by_cases hcode : code ≠ 0
    · refine ⟨b', errorPdu 0x12 hdl code, ?_, formed_error .., heff⟩
      rw [if_neg Bool.false_ne_true, if_pos hcode]
      exact attError_sends b' rsp 0x12 hdl code
    · refine ⟨b', [0x13], ?_, ⟨?_, .inr ⟨[], rfl⟩⟩, heff⟩
      · rw [if_neg Bool.false_ne_true, if_neg hcode]
        exact sends_store b' rsp [0x13] (by decide)
      · show 1 ≤ b.attMtu
        omega

theorem onOther_formed (b : Server) (op : UInt8) (req : List UInt8) (rsp : Rsp) :
    ∃ bytes, Sends (onOther b op req rsp) b bytes ∧ Formed b op bytes := by
  unfold onOther
  obtain ⟨hdl, hhdl⟩ : ∃ hdl, namedHandle req = .ok hdl := by
    unfold namedHandle
    split
    · exact getLe16_ok req 1 (by omega)
    · exact ⟨0, rfl⟩
  rw [hhdl]
  exact ⟨_, attError_sends b rsp op hdl ecodeReqNotSupp, formed_error ..⟩

/-! ## Any PDU -/

/-- What a PDU can do to the server. -/
inductive Effect (b : Server) (req : List UInt8) : Server → Prop where
  | same : Effect b req b
  | mtu (client : UInt16) (h : attMtuDefault ≤ client) :
      Effect b req { b with mtu := if client < attMtuMax then client else attMtuMax }
  | write (op : UInt8) (hdl : UInt16) (code : UInt8) (b' : Server) (hop : op = 0x12 ∨ op = 0x52)
      (hreq : req.head? = some op) (hlen : 3 ≤ req.length) (hhdl : getLe16 req 1 = .ok hdl)
      (h : Written b hdl (req.drop 3) b' code) : Effect b req b'

/-- Every PDU is answered, within the MTU and by a response to its opcode, unless it is empty or a Write Command. -/
theorem attOnPdu_answers {rounds : Nat} (hr : 12 ≤ rounds) {b : Server} (hb : b.Ok) (req : List UInt8) (rsp : Rsp) :
    ∃ b' bytes, Sends (attOnPdu rounds b req rsp) b' bytes ∧ Effect b req b' ∧
      (bytes = [] ∧ (req = [] ∨ req.head? = some 0x52) ∨ ∃ op, req.head? = some op ∧ Formed b op bytes) := by
  unfold attOnPdu
  cases req with
  | nil => exact ⟨b, [], ⟨⟨b, rsp, 0⟩, rfl, rfl, rfl, List.take_zero⟩, .same, .inl ⟨rfl, .inl rfl⟩⟩
  | cons op rest =>
    have list {o : UInt8} {res : Except Stop Reply} (h : ∃ bytes, Sends res b bytes ∧ Formed b o bytes) :
        ∃ b' bytes, Sends res b' bytes ∧ Effect b (o :: rest) b' ∧
          (bytes = [] ∧ (o :: rest = [] ∨ (o :: rest).head? = some 0x52) ∨
            ∃ op, (o :: rest).head? = some op ∧ Formed b op bytes) := by
      obtain ⟨bytes, hs, hf⟩ := h
      exact ⟨b, bytes, hs, .same, .inr ⟨o, rfl, hf⟩⟩
    dsimp only
    split
    · obtain ⟨b', bytes, hs, hf, he⟩ := onMtuReq_formed b (0x02 :: rest) rsp
      refine ⟨b', bytes, hs, ?_, .inr ⟨_, rfl, hf⟩⟩
      rcases he with ⟨rfl, -⟩ | ⟨client, -, hc, rfl⟩
      · exact .same
      · exact .mtu client hc
    · exact list (onFindInfo_formed hr b _ rsp)
    · exact list (onFindByType_formed hr hb _ rsp)
    · exact list (onReadBy_formed hr hb rfl _ rsp)
    · exact list (onReadBy_formed hr hb rfl _ rsp)
    · exact list (onRead_formed hb rfl _ rsp)
    · exact list (onRead_formed hb rfl _ rsp)
    · obtain ⟨b', bytes, hs, hf, he⟩ := onWrite_formed b 0x12 false (fun _ => rfl) (0x12 :: rest) rsp
      refine ⟨b', bytes, hs, ?_, .inr ⟨_, rfl, hf⟩⟩
      rcases he with rfl | ⟨hdl, code, hlen, hhdl, hw⟩
      · exact .same
      · exact .write 0x12 hdl code b' (.inl rfl) rfl hlen hhdl hw
    · obtain ⟨b', bytes, hs, hf, he⟩ := onWrite_formed b 0x52 true (by simp) (0x52 :: rest) rsp
      refine ⟨b', bytes, hs, ?_, .inl ⟨hf, .inr rfl⟩⟩
      rcases he with rfl | ⟨hdl, code, hlen, hhdl, hw⟩
      · exact .same
      · exact .write 0x52 hdl code b' (.inr rfl) rfl hlen hhdl hw
    · exact list (onOther_formed b op _ rsp)

end AlgaeBp.Att
