import AlgaeBp.Att.Server
import AlgaeBp.Lib.Paging
/-!
# Theorems about the ATT server

Any PDU is answered within the MTU, and a client that reads the attributes
list by list gets each of them once.
-/
open Bytes

namespace AlgaeBp.Att

/-! ## Any PDU -/

/-- **Every response is well formed and fits.** Whatever was received: no
access leaves the PDU, the scratch arrays and the response buffer, no loop
runs on, and the response is an error naming the request or has the opcode
that answers it. -/
theorem onPdu_formed (rounds : Nat) (hr : 12 ≤ rounds) (b : Server) (hb : b.valueLen.toNat ≤ 64) (req : List UInt8)
    (rsp : Rsp) :
    ∃ r, attOnPdu rounds b req rsp = .ok r ∧
      (r.len = 0 ∧ (req = [] ∨ req.head? = some 0x52) ∨
        ∃ op, req.head? = some op ∧
          (r.len = 5 ∧ (∃ hdl code, r.bytes = [0x01, op] ++ le16 hdl ++ [code]) ∨
            0 < r.len ∧ r.bytes.head? = some (op + 1))) ∧
      r.bytes.length = r.len ∧ r.len ≤ max 23 (min b.mtu.toNat 128) ∧ r.len ≤ 128 := by
  obtain ⟨b', bytes, ⟨r, hok, -, hlen, hbytes⟩, -, hcase⟩ := attOnPdu_answers hr hb req rsp
  have hmtu := attMtu_bounds b
  have heq := attMtu_eq b
  have hrl : r.bytes.length = r.len := by rw [hbytes, hlen]
  refine ⟨r, hok, ?_, hrl, ?_⟩
  · rcases hcase with ⟨rfl, hreq⟩ | ⟨op, hop, -, ⟨hdl, code, rfl⟩ | ⟨rest, rfl⟩⟩
    · exact .inl ⟨hlen, hreq⟩
    · exact .inr ⟨op, hop, .inl ⟨hlen, hdl, code, hbytes⟩⟩
    · refine .inr ⟨op, hop, .inr ⟨?_, by rw [hbytes]; rfl⟩⟩
      rw [hlen]
      exact Nat.succ_pos _
  · have hle : bytes.length ≤ b.attMtu := by
      rcases hcase with ⟨rfl, -⟩ | ⟨op, -, hf, -⟩
      · exact Nat.zero_le _
      · exact hf
    omega

def plain : Server := ⟨23, 0, Block.fill 64 0x61, 30⟩
def noise : Rsp := Block.fill 128 0xee

/-- A read of a value longer than the MTU allows. -/
theorem onPdu_formed_read : ∃ r, attOnPdu 12 plain [0x0a, 9, 0] noise = .ok r ∧ r.len ≤ max 23 (min 23 128) := by
  obtain ⟨r, hr, -, -, hlen, -⟩ := onPdu_formed 12 (by decide) plain (by decide) [0x0a, 9, 0] noise
  exact ⟨r, hr, hlen⟩

/-! ## The client -/

/-- A list cut into `k` pieces of `n` bytes. -/
def pieces (n : Nat) : Nat → List UInt8 → List (List UInt8)
  | 0, _ => []
  | k + 1, l => l.take n :: pieces n k (l.drop n)

/-- How a client reads the answer to a request that asks for a list: no
attribute found, or the entries; the empty list stands for anything else,
also for a list that is empty or not made of entries of one size. -/
def readList (op : UInt8) (size : UInt8 → Nat) (bytes : List UInt8) : Option (List (List UInt8)) :=
  if bytes.take 2 = [0x01, op] ∧ bytes.drop 4 = [ecodeAttrNotFound] then none
  else
    match bytes with
    | o :: k :: data =>
      if o = op + 1 ∧ 0 < size k ∧ data.length % size k = 0 then some (pieces (size k) (data.length / size k) data)
      else some []
    | _ => some []

/-- What the server sends; nothing if it does not answer. -/
def sent (rounds : Nat) (b : Server) (rsp : Rsp) (req : List UInt8) : List UInt8 :=
  match attOnPdu rounds b req rsp with
  | .ok r => r.bytes
  | .error _ => []

/-- The handle an entry begins with. -/
def handleOf (entry : List UInt8) : Nat := (word16 (entry.getD 0 0) (entry.getD 1 0)).toNat

/-- The end group handle of an entry of a Read By Group Type response. -/
def endOf (entry : List UInt8) : Nat := (word16 (entry.getD 2 0) (entry.getD 3 0)).toNat

def infoSize (fmt : UInt8) : Nat := if fmt = 1 then 4 else if fmt = 2 then 18 else 0

def findInfoReq (last start : UInt16) : List UInt8 := [0x04] ++ le16 start ++ le16 last

/-- A client that asks with one kind of request until the end of the range. -/
def discover (rounds : Nat) (b : Server) (rsp : UInt16 → Rsp) (op : UInt8) (size : UInt8 → Nat) (stop : List UInt8 → Nat)
    (req : UInt16 → List UInt8) (last : UInt16) : Nat → Nat → Option (List (List UInt8)) :=
  Paging.collect stop last.toNat fun start =>
    readList op size (sent rounds b (rsp (UInt16.ofNat start)) (req (UInt16.ofNat start)))

/-! ## Reading a list -/

theorem pieces_joined {n : Nat} {es : List Entry} (h : ∀ e ∈ es, e.bytes.length = n) :
    pieces n es.length (joined es) = es.map Entry.bytes := by
  induction es with
  | nil => rfl
  | cons e es ih =>
    have he : e.bytes.length = n := h e List.mem_cons_self
    rw [List.length_cons, pieces, joined_cons, List.map_cons]
    conv => lhs; rw [← he]
    rw [List.take_left, List.drop_left, he, ih (fun x hx => h x (List.mem_cons_of_mem e hx))]

theorem length_joined {n : Nat} {es : List Entry} (h : ∀ e ∈ es, e.bytes.length = n) :
    (joined es).length = es.length * n := by
  induction es with
  | nil => simp [joined]
  | cons e es ih =>
    rw [joined_cons, List.length_append, h e List.mem_cons_self, ih (fun x hx => h x (List.mem_cons_of_mem e hx)),
      List.length_cons, Nat.add_mul]
    omega

theorem readList_notFound (op : UInt8) (size : UInt8 → Nat) (hdl : UInt16) :
    readList op size (errorPdu op hdl ecodeAttrNotFound) = none := if_pos ⟨rfl, rfl⟩

/-- A list of entries of the announced size is read as these entries. -/
theorem readList_entries {op : UInt8} (hop : op ≠ 0) {size : UInt8 → Nat} {k : UInt8} {es : List Entry}
    (hsize : 0 < size k) (h : ∀ e ∈ es, e.bytes.length = size k) :
    readList op size ([op + 1, k] ++ joined es) = some (es.map Entry.bytes) := by
  have hlen := length_joined h
  have hne : ¬ (([op + 1, k] ++ joined es).take 2 = [0x01, op] ∧
      ([op + 1, k] ++ joined es).drop 4 = [ecodeAttrNotFound]) := by
    rintro ⟨heq, -⟩
    have hop1 : op + 1 = 1 := (List.cons.inj heq).1
    apply hop
    calc op = op + 1 - 1 := by rw [UInt8.add_sub_cancel]
      _ = 0 := by rw [hop1]; rfl
  unfold readList
  rw [if_neg hne]
  show (if op + 1 = op + 1 ∧ 0 < size k ∧ (joined es).length % size k = 0 then
    some (pieces (size k) ((joined es).length / size k) (joined es)) else some []) = _
  rw [if_pos ⟨rfl, hsize, by rw [hlen, Nat.mul_mod_left]⟩, hlen, Nat.mul_div_cancel _ hsize, pieces_joined h]

/-! ## The attributes of a range -/

/-- The handles of the attributes. -/
def attributes : List UInt16 := [1, 2, 3, 4, 5, 6, 7, 8, 9, 10]

/-- The attributes whose handle lies in a range. -/
def attributesIn (start last : Nat) : List UInt16 :=
  attributes.filter (fun h => decide (start ≤ h.toNat ∧ h.toNat ≤ last))

theorem all_attributes {p : UInt16 → Prop} (h : p 1 ∧ p 2 ∧ p 3 ∧ p 4 ∧ p 5 ∧ p 6 ∧ p 7 ∧ p 8 ∧ p 9 ∧ p 10) :
    ∀ a ∈ attributes, p a := by
  simpa [attributes] using h

theorem toNat_attribute : ∀ a ∈ attributes, a.toNat ≤ 10 :=
  all_attributes (by decide)

theorem eq_of_toNat {h : UInt16} {n : Nat} (hn : n < 2 ^ 16) (heq : h.toNat = n) : h = UInt16.ofNat n := by
  apply UInt16.toNat_inj.1
  rw [heq, UInt16.toNat_ofNat', Nat.mod_eq_of_lt hn]

theorem mem_of_type {hdl : UInt16} (h : attTypeGet hdl ≠ []) : hdl ∈ attributes := by
  have hpos : ∀ n, hdl.toNat = n → n < 2 ^ 16 → UInt16.ofNat n ∈ attributes → hdl ∈ attributes := by
    intro n hn hlt hmem
    rwa [eq_of_toNat hlt hn]
  unfold attTypeGet at h
  split at h
  case h_11 => exact absurd rfl h
  all_goals
    rename_i heq
    exact hpos _ heq (by decide) (by decide)

theorem valueOf_attribute (b : Server) {hdl : UInt16} (h : hdl ∈ attributes) : ∃ v, b.valueOf hdl = some v := by
  simp only [attributes, List.mem_cons, List.not_mem_nil, or_false] at h
  rcases h with rfl | rfl | rfl | rfl | rfl | rfl | rfl | rfl | rfl | rfl <;> exact ⟨_, rfl⟩

/-- The tables agree on which handles have an attribute. -/
theorem mem_attributes (b : Server) (hdl : UInt16) :
    hdl ∈ attributes ↔ attTypeGet hdl ≠ [] ∧ ∃ v, b.valueOf hdl = some v := by
  constructor
  · intro h
    have hall : ∀ a ∈ attributes, attTypeGet a ≠ [] := all_attributes (by decide)
    exact ⟨hall hdl h, valueOf_attribute b h⟩
  · intro h
    exact mem_of_type h.1

theorem range_attributes : ∀ s ∈ List.range' 1 10, ∀ l ∈ List.range 11,
    (List.range' s (l + 1 - s)).map UInt16.ofNat = attributesIn s l := by
  decide +kernel

theorem handles_attributes {start last : UInt16} (h : 0 < start) :
    handles start (attLast last) = attributesIn start.toNat last.toNat := by
  have hmax : hdlMax.toNat = 10 := rfl
  have hle := attLast_le last
  have hpos : 0 < start.toNat := by simpa [UInt16.lt_iff_toNat_lt] using h
  rw [UInt16.le_iff_toNat_le] at hle
  have hsame : attributesIn start.toNat last.toNat = attributesIn start.toNat (attLast last).toNat := by
    apply List.filter_congr
    intro a ha
    have ha10 := toNat_attribute a ha
    have : a.toNat ≤ last.toNat ↔ a.toNat ≤ (attLast last).toNat := by
      unfold attLast
      split
      · rename_i hgt
        have : hdlMax.toNat < last.toNat := UInt16.lt_iff_toNat_lt.1 hgt
        omega
      · rfl
    simp only [this]
  rw [hsame]
  unfold handles
  by_cases hs : start.toNat ≤ 10
  · exact range_attributes _ (List.mem_range'_1.2 ⟨hpos, by omega⟩) _ (List.mem_range.2 (by omega))
  · rw [Nat.sub_eq_zero_of_le (by omega)]
    symm
    apply List.filter_eq_nil_iff.2
    intro a ha
    have ha10 := toNat_attribute a ha
    simp only [decide_eq_true_eq]
    omega

/-! ## Lists page by page -/

/-- The entries an item function makes of the attributes of a range. -/
def entriesIn (item : UInt16 → Option Entry) (start last : Nat) : List (List UInt8) :=
  ((attributesIn start last).filterMap item).map Entry.bytes

/-- What a client relies on: an entry names its handle, its size follows from
its shape, and it fits a response alone. -/
structure Readable (mtu : Nat) (size : UInt8 → Nat) (item : UInt16 → Option Entry) : Prop where
  handle : ∀ h ∈ attributes, ∀ e, item h = some e → handleOf e.bytes = h.toNat
  shape : ∀ h ∈ attributes, ∀ e, item h = some e → e.shape ≠ 0 ∧ size (UInt8.ofNat e.shape) = e.bytes.length
  fits : ∀ h ∈ attributes, ∀ e, item h = some e → 0 < e.bytes.length ∧ 2 + e.bytes.length ≤ mtu

/-- The server answers a request from a handle on with a page of entries. -/
def Answers (b : Server) (op : UInt8) (item : UInt16 → Option Entry) (last : UInt16) (answer : UInt16 → List UInt8) : Prop :=
  ∀ start, 0 < start → start ≤ last →
    answer start =
      if hdlMax < start ∨ (page b.attMtu item (handles start (attLast last)) 0 2).2 = 0 then
        errorPdu op start ecodeAttrNotFound
      else [op + 1, UInt8.ofNat (page b.attMtu item (handles start (attLast last)) 0 2).2] ++
        joined (page b.attMtu item (handles start (attLast last)) 0 2).1

theorem filter_entries {item : UInt16 → Option Entry} (l : List UInt16)
    (h : ∀ a ∈ l, ∀ e, item a = some e → handleOf e.bytes = a.toNat) (start last : Nat) :
    ((l.filterMap item).map Entry.bytes).filter (fun x => decide (start ≤ handleOf x ∧ handleOf x ≤ last)) =
      ((l.filter (fun a => decide (start ≤ a.toNat ∧ a.toNat ≤ last))).filterMap item).map Entry.bytes := by
  induction l with
  | nil => rfl
  | cons a l ih =>
    have ih' := ih (fun x hx => h x (List.mem_cons_of_mem a hx))
    cases hi : item a with
    | none =>
      rw [List.filterMap_cons_none hi, ih', List.filter_cons]
      split
      · rw [List.filterMap_cons_none hi]
      · rfl
    | some e =>
      have hkey := h a List.mem_cons_self e hi
      rw [List.filterMap_cons_some hi, List.map_cons, List.filter_cons, List.filter_cons, hkey, ih']
      split
      · rw [List.filterMap_cons_some hi, List.map_cons]
      · rfl

/-- An answer is a nonempty first part of what the attributes contribute, or says that there is nothing. -/
theorem readList_answer {b : Server} {op : UInt8} (hop : op ≠ 0) {size : UInt8 → Nat} {item : UInt16 → Option Entry}
    {last start : UInt16} {answer : UInt16 → List UInt8} (hitem : Readable b.attMtu size item)
    (hans : Answers b op item last answer) (hpos : 0 < start) (hle : start ≤ last) :
    ((handles start (attLast last)).filterMap item = [] ∧ readList op size (answer start) = none) ∨
      ∃ es, readList op size (answer start) = some (es.map Entry.bytes) ∧ es ≠ [] ∧
        es <+: (handles start (attLast last)).filterMap item := by
  have hmem : ∀ h ∈ handles start (attLast last), h ∈ attributes := by
    intro h hh
    rw [handles_attributes hpos] at hh
    exact List.mem_of_mem_filter hh
  rw [hans start hpos hle]
  cases hes : (handles start (attLast last)).filterMap item with
  | nil =>
    have hzero : (page b.attMtu item (handles start (attLast last)) 0 2).2 = 0 := by rw [page_none _ _ _ _ _ hes]
    rw [if_pos (.inr hzero)]
    exact .inl ⟨rfl, readList_notFound op size start⟩
  | cons e rest =>
    obtain ⟨h, hh, he⟩ := List.mem_filterMap.1 (hes ▸ List.mem_cons_self)
    obtain ⟨hshape, -⟩ := hitem.shape h (hmem h hh) e he
    obtain ⟨hne, hsh, hall⟩ := page_first hes hshape (hitem.fits h (hmem h hh) e he).2
    have hlow : ¬ hdlMax < start := by
      intro hlt
      rw [handles_empty (UInt16.not_le.2 (UInt16.lt_of_le_of_lt (attLast_le last) hlt))] at hh
      simp at hh
    have hpre := page_prefix b.attMtu item (handles start (attLast last)) 0 2
    rw [if_neg (by rw [not_or, hsh]; exact ⟨hlow, hshape⟩), hsh]
    refine .inr ⟨_, readList_entries hop ?_ ?_, hne, hes ▸ hpre⟩
    · rw [(hitem.shape h (hmem h hh) e he).2]
      exact (hitem.fits h (hmem h hh) e he).1
    · intro x hx
      obtain ⟨h', hh', hx'⟩ := List.mem_filterMap.1 (hpre.subset hx)
      have := (hitem.shape h' (hmem h' hh') x hx').2
      rw [hall x hx] at this
      exact this.symm

/-- Such a server lets its attributes be read page by page. -/
theorem answers_pages {b : Server} {op : UInt8} (hop : op ≠ 0) {size : UInt8 → Nat} {item : UInt16 → Option Entry}
    {last : UInt16} {answer : UInt16 → List UInt8} (hitem : Readable b.attMtu size item)
    (hans : Answers b op item last answer) :
    Paging.Pages handleOf 1 last.toNat ((attributes.filterMap item).map Entry.bytes)
      (fun start => readList op size (answer (UInt16.ofNat start))) := by
  have hrange (start : Nat) : Paging.inRange handleOf last.toNat ((attributes.filterMap item).map Entry.bytes) start =
      entriesIn item start last.toNat := filter_entries attributes hitem.handle start last.toNat
  -- what is asked for, and what the page is cut from
  have hpage : ∀ start : Nat, 1 ≤ start → start ≤ last.toNat →
      (UInt16.ofNat start).toNat = start ∧ (0 : UInt16) < UInt16.ofNat start ∧ UInt16.ofNat start ≤ last ∧
        entriesIn item start last.toNat =
          ((handles (UInt16.ofNat start) (attLast last)).filterMap item).map Entry.bytes := by
    intro start h1 hle
    have hlt := last.toNat_lt
    have heq : (UInt16.ofNat start).toNat = start := by
      rw [UInt16.toNat_ofNat', Nat.mod_eq_of_lt (by omega)]
    have hpos : (0 : UInt16) < UInt16.ofNat start := by
      rw [UInt16.lt_iff_toNat_lt, heq]
      exact h1
    refine ⟨heq, hpos, ?_, ?_⟩
    · rw [UInt16.le_iff_toNat_le, heq]
      exact hle
    · rw [handles_attributes hpos, heq]
      rfl
  constructor
  · intro start h1 hle hask
    obtain ⟨heq, hpos, hl, hent⟩ := hpage start h1 hle
    rw [hrange, hent]
    rcases readList_answer hop hitem hans hpos hl with ⟨hnil, -⟩ | ⟨es, hes, -, -⟩
    · rw [hnil]
      rfl
    · rw [hes] at hask
      simp at hask
  · intro start pg h1 hle hask
    obtain ⟨heq, hpos, hl, hent⟩ := hpage start h1 hle
    rw [hrange, hent]
    rcases readList_answer hop hitem hans hpos hl with ⟨-, hnone⟩ | ⟨es, hes, hne, hpre⟩
    · rw [hnone] at hask
      simp at hask
    · rw [hes] at hask
      obtain rfl := Option.some.inj hask
      exact ⟨by simpa using hne, hpre.map _⟩

/-- A client that goes on behind the last handle, or behind the last group, reads every entry of the range once. -/
theorem discover_entries {rounds : Nat} {b : Server} {rsp : UInt16 → Rsp} {op : UInt8} (hop : op ≠ 0) {size : UInt8 → Nat}
    {item : UInt16 → Option Entry} {stop : List UInt8 → Nat} {req : UInt16 → List UInt8} {last : UInt16}
    (hitem : Readable b.attMtu size item)
    (hans : Answers b op item last (fun start => sent rounds b (rsp start) (req start)))
    (hstop : ∀ x ∈ (attributes.filterMap item).map Entry.bytes, handleOf x ≤ stop x)
    (hgap : ∀ x ∈ (attributes.filterMap item).map Entry.bytes, ∀ y ∈ (attributes.filterMap item).map Entry.bytes,
      handleOf x < handleOf y → stop x < handleOf y)
    {fuel start : Nat} (h1 : 1 ≤ start) (hfuel : last.toNat + 1 - start < fuel) :
    discover rounds b rsp op size stop req last fuel start = some (entriesIn item start last.toNat) := by
  have hsort : ((attributes.filterMap item).map Entry.bytes).Pairwise (fun x y => handleOf x < handleOf y) := by
    rw [List.pairwise_map, List.pairwise_filterMap]
    have hattr : attributes.Pairwise (fun a b => a.toNat < b.toNat) := by decide
    refine hattr.imp_of_mem ?_
    intro a a' ha ha' hlt e he e' he'
    rw [hitem.handle a ha e he, hitem.handle a' ha' e' he']
    exact hlt
  unfold discover
  rw [Paging.collect_inRange (answers_pages hop hitem hans) hsort hgap hstop fuel start h1 hfuel]
  exact congrArg some (filter_entries attributes hitem.handle start last.toNat)

/-! ## The three lists -/

theorem handleOf_le16 (h : UInt16) (t : List UInt8) : handleOf (le16 h ++ t) = h.toNat :=
  congrArg UInt16.toNat (word16_le16 h)

theorem endOf_le16 (h g : UInt16) (t : List UInt8) : endOf (le16 h ++ le16 g ++ t) = g.toNat :=
  congrArg UInt16.toNat (word16_le16 g)

theorem infoItem_readable (b : Server) : Readable b.attMtu infoSize infoItem := by
  have hmtu := attMtu_bounds b
  have htype : ∀ h ∈ attributes, (attTypeGet h).length = 2 ∨ (attTypeGet h).length = 16 :=
    all_attributes (by decide)
  constructor
  · rintro h - e he
    obtain rfl := Option.some.inj he
    exact handleOf_le16 h _
  · intro h hh e he
    obtain rfl := Option.some.inj he
    rcases htype h hh with ht | ht
    · simp [infoEntry, ht, infoSize]
    · simp [infoEntry, ht, infoSize]
  · intro h hh e he
    obtain rfl := Option.some.inj he
    rcases htype h hh with ht | ht
    · simp [infoEntry, ht]
      omega
    · simp [infoEntry, ht]
      omega

theorem readItem_some {b : Server} {mtu : Nat} {grouped : Bool} {want : List UInt8} {h : UInt16} {e : Entry}
    (he : readItem b mtu grouped want h = some e) :
    attTypeGet h = want ∧ ¬ (grouped = true ∧ attGroupEnd h = 0) ∧
      ∃ v, b.valueOf h = some v ∧ e = readEntry mtu (readHead grouped h) v := by
  unfold readItem at he
  split at he
  · simp at he
  · rename_i ht
    split at he
    · simp at he
    · rename_i hg
      obtain ⟨v, hv, rfl⟩ := Option.map_eq_some_iff.1 he
      exact ⟨not_not.1 ht, hg, v, hv, rfl⟩

theorem readItem_readable {b : Server} (grouped : Bool) (want : List UInt8) :
    Readable b.attMtu UInt8.toNat (readItem b b.attMtu grouped want) := by
  have hmtu := attMtu_bounds b
  have hentry {h : UInt16} {e : Entry} (he : readItem b b.attMtu grouped want h = some e) :
      handleOf e.bytes = h.toNat ∧ e.shape = e.bytes.length ∧ 2 ≤ e.bytes.length ∧ 2 + e.bytes.length ≤ b.attMtu := by
    obtain ⟨-, -, v, -, rfl⟩ := readItem_some he
    have hhead := length_readHead grouped h
    refine ⟨?_, ?_, ?_, ?_⟩
    · cases grouped with
      | false => exact handleOf_le16 h _
      | true =>
        show handleOf (le16 h ++ le16 (attGroupEnd h) ++ _) = _
        rw [List.append_assoc]
        exact handleOf_le16 h _
    · simp [readEntry]
    · simp only [readEntry, List.length_append]
      split at hhead <;> omega
    · simp only [readEntry, List.length_append, List.length_take]
      split at hhead <;> omega
  constructor
  · intro h _ e he
    exact (hentry he).1
  · intro h _ e he
    obtain ⟨-, hs, h2, hf⟩ := hentry he
    refine ⟨by omega, ?_⟩
    rw [hs, UInt8.toNat_ofNat', Nat.mod_eq_of_lt (by omega)]
  · intro h _ e he
    obtain ⟨-, -, h2, hf⟩ := hentry he
    exact ⟨by omega, hf⟩

/-- The range of a request for a list. -/
theorem attRange_req (op : UInt8) {start last : UInt16} (t : List UInt8) (hpos : 0 < start) (hle : start ≤ last) :
    attRange ([op] ++ le16 start ++ le16 last ++ t) = .ok (some (start, last)) := by
  have hs : getLe16 ([op] ++ le16 start ++ le16 last ++ t) 1 = .ok start := by
    apply getLe16_le16 start (q := le16 last ++ t)
    simp
  have hl : getLe16 ([op] ++ le16 start ++ le16 last ++ t) 3 = .ok last := by
    apply getLe16_le16 last (q := t)
    simp [le16]
  unfold attRange
  rw [if_neg (by simp; omega), hs, hl]
  apply if_neg
  rw [not_or]
  exact ⟨UInt16.pos_iff_ne_zero.1 hpos, UInt16.not_lt.2 hle⟩

theorem sent_of_sends {rounds : Nat} {b b' : Server} {rsp : Rsp} {req bytes : List UInt8}
    (h : Sends (attOnPdu rounds b req rsp) b' bytes) : sent rounds b rsp req = bytes := by
  obtain ⟨r, hr, -, -, hb⟩ := h
  unfold sent
  rw [hr]
  exact hb

theorem findInfo_sends {rounds : Nat} (hr : 12 ≤ rounds) (b : Server) (rsp : Rsp) {start last : UInt16}
    (hpos : 0 < start) (hle : start ≤ last) :
    Sends (attOnPdu rounds b (findInfoReq last start) rsp) b
      (if hdlMax < start ∨ (infoPage b start last).2 = 0 then errorPdu 0x04 start ecodeAttrNotFound
        else [0x05, UInt8.ofNat (infoPage b start last).2] ++ joined (infoPage b start last).1) := by
  have hrange : attRange (findInfoReq last start) = .ok (some (start, last)) := by
    have := attRange_req 0x04 [] hpos hle
    rwa [List.append_nil] at this
  show Sends (onFindInfo rounds b 0x04 (findInfoReq last start) rsp) b _
  by_cases hs : start ≤ hdlMax
  · have := onFindInfo_list hr b 0x04 rsp hrange hs
    simpa [UInt16.not_lt.2 hs] using this
  · rw [if_pos (.inl (UInt16.not_le.1 hs))]
    unfold onFindInfo
    rw [hrange]
    show Sends (if start > hdlMax then _ else _) _ _
    rw [if_pos (UInt16.not_le.1 hs)]
    exact attError_sends b rsp 0x04 start ecodeAttrNotFound

def readByOp (grouped : Bool) : UInt8 := if grouped then 0x10 else 0x08

/-- A Read By Type or Read By Group Type request. -/
def readByReq (grouped : Bool) (want : List UInt8) (last start : UInt16) : List UInt8 :=
  [readByOp grouped] ++ le16 start ++ le16 last ++ want

theorem readBy_sends {rounds : Nat} (hr : 12 ≤ rounds) {b : Server} (hb : b.Ok) (rsp : Rsp) (grouped : Bool)
    {want : List UInt8} (hlen : want.length = 2 ∨ want.length = 16) (hg : grouped = true → want = le16 0x2800)
    {start last : UInt16} (hpos : 0 < start) (hle : start ≤ last) :
    Sends (attOnPdu rounds b (readByReq grouped want last start) rsp) b
      (if hdlMax < start ∨ (readPage b grouped want start last).2 = 0 then
          errorPdu (readByOp grouped) start ecodeAttrNotFound
        else [readByRsp grouped, UInt8.ofNat (readPage b grouped want start last).2] ++
          joined (readPage b grouped want start last).1) := by
  have hrange : attRange (readByReq grouped want last start) = .ok (some (start, last)) := attRange_req _ want hpos hle
  have hreq : (readByReq grouped want last start).drop 5 = want := by simp [readByReq, le16]
  have hon : attOnPdu rounds b (readByReq grouped want last start) rsp =
      onReadBy rounds b (readByOp grouped) grouped (readByReq grouped want last start) rsp := by
    cases grouped <;> rfl
  rw [hon]
  by_cases hs : start ≤ hdlMax
  · have := onReadBy_list hr hb (readByOp grouped) rsp hlen hreq hrange hg hs
    simpa [UInt16.not_lt.2 hs] using this
  · have hwlen : (readByReq grouped want last start).length - 5 = want.length := by rw [← hreq, List.length_drop, hreq]
    rw [if_pos (.inl (UInt16.not_le.1 hs))]
    unfold onReadBy
    rw [if_neg (by omega), hrange, slice_ok (by omega), hreq, hwlen, List.take_length]
    show Sends (if grouped = true ∧ want ≠ le16 0x2800 then _ else if start > hdlMax then _ else _) _ _
    rw [if_neg (fun h => h.2 (hg h.1)), if_pos (UInt16.not_le.1 hs)]
    exact attError_sends b rsp _ start ecodeAttrNotFound

/-! ## Discovery -/

/-- The value of an attribute. -/
def Server.valueD (b : Server) (hdl : UInt16) : List UInt8 := (b.valueOf hdl).getD []

/-- The attributes of a range that have a type. -/
def attributesOf (type : List UInt8) (start last : Nat) : List UInt16 :=
  (attributesIn start last).filter (fun h => decide (attTypeGet h = type))

theorem entries_of_type {b : Server} {mtu : Nat} {grouped : Bool} {want : List UInt8} {f : UInt16 → List UInt8}
    (hg : ∀ h ∈ attributes, attTypeGet h = want → ¬ (grouped = true ∧ attGroupEnd h = 0))
    (hf : ∀ h ∈ attributes, attTypeGet h = want → (readEntry mtu (readHead grouped h) (b.valueD h)).bytes = f h)
    (start last : Nat) :
    entriesIn (readItem b mtu grouped want) start last = (attributesOf want start last).map f := by
  have hstep : ∀ l : List UInt16, (∀ h ∈ l, h ∈ attributes) →
      (l.filterMap (readItem b mtu grouped want)).map Entry.bytes =
        (l.filter (fun h => decide (attTypeGet h = want))).map f := by
    intro l
    induction l with
    | nil => intro _; rfl
    | cons h l ih =>
      intro hl
      have hmem := hl h List.mem_cons_self
      have ih' := ih (fun x hx => hl x (List.mem_cons_of_mem h hx))
      by_cases ht : attTypeGet h = want
      · obtain ⟨v, hv⟩ := valueOf_attribute b hmem
        have hitem : readItem b mtu grouped want h = some (readEntry mtu (readHead grouped h) (b.valueD h)) := by
          unfold readItem Server.valueD
          rw [if_neg (not_not.2 ht), if_neg (hg h hmem ht), hv]
          rfl
        rw [List.filterMap_cons_some hitem, List.map_cons, hf h hmem ht, ih', List.filter_cons, if_pos (by simpa using ht),
          List.map_cons]
      · have hitem : readItem b mtu grouped want h = none := by
          unfold readItem
          rw [if_pos ht]
        rw [List.filterMap_cons_none hitem, ih', List.filter_cons, if_neg (by simpa using ht)]
  exact hstep _ (fun h hh => List.mem_of_mem_filter hh)

/-- A 0x2803 declaration holds a property byte, a value handle and the type
of that value; both lie in the service group the declaration lies in. -/
def Declares (b : Server) (hdl : UInt16) : Prop :=
  ∃ props value uuid, b.valueOf hdl = some ([props] ++ le16 value ++ uuid) ∧ attTypeGet value = uuid ∧ uuid ≠ [] ∧
    ∃ svc, attTypeGet svc = le16 0x2800 ∧ svc < hdl ∧ hdl < value ∧ value ≤ attGroupEnd svc

theorem declares_all (b : Server) (hdl : UInt16) (h : attTypeGet hdl = le16 0x2803) : Declares b hdl := by
  have hall : ∀ a ∈ attributes, attTypeGet a = le16 0x2803 → a = 2 ∨ a = 4 ∨ a = 8 :=
    all_attributes (by and_intros <;> decide)
  have hthree := hall hdl (mem_of_type (by rw [h]; decide)) h
  rcases hthree with rfl | rfl | rfl
  · exact ⟨0x02, 3, le16 0x2a00, rfl, rfl, by decide, 1, rfl, by decide, by decide, by decide⟩
  · exact ⟨0x02, 5, le16 0x2a01, rfl, rfl, by decide, 1, rfl, by decide, by decide, by decide⟩
  · exact ⟨0x1e, 9, uuidChr, rfl, rfl, by decide, 7, rfl, by decide, by decide, by decide⟩

theorem services_attributes : ∀ a ∈ attributes, attTypeGet a = le16 0x2800 → a = 1 ∨ a = 6 ∨ a = 7 :=
  all_attributes (by and_intros <;> decide)

/-- The value of a service fits a Read By Group Type response at the smallest MTU. -/
theorem length_service (b : Server) {h : UInt16} (hh : h ∈ attributes) (ht : attTypeGet h = le16 0x2800) :
    (b.valueD h).length ≤ 16 := by
  rcases services_attributes h hh ht with rfl | rfl | rfl
  · show 2 ≤ 16
    decide
  · show 2 ≤ 16
    decide
  · show 16 ≤ 16
    decide

/-- The groups do not overlap: going on behind a group skips no service. -/
theorem services_apart : ∀ h ∈ attributes, attTypeGet h = le16 0x2800 → h.toNat ≤ (attGroupEnd h).toNat ∧
    ∀ h' ∈ attributes, attTypeGet h' = le16 0x2800 → h.toNat < h'.toNat → (attGroupEnd h).toNat < h'.toNat := by
  intro h hh ht
  refine ⟨?_, fun h' hh' ht' => ?_⟩
  · rcases services_attributes h hh ht with rfl | rfl | rfl <;> decide
  · rcases services_attributes h hh ht with rfl | rfl | rfl <;>
      rcases services_attributes h' hh' ht' with rfl | rfl | rfl <;> decide

theorem service_item {b : Server} {x : List UInt8}
    (hx : x ∈ (attributes.filterMap (readItem b b.attMtu true (le16 0x2800))).map Entry.bytes) :
    ∃ h ∈ attributes, attTypeGet h = le16 0x2800 ∧ handleOf x = h.toNat ∧ endOf x = (attGroupEnd h).toNat := by
  obtain ⟨e, he, rfl⟩ := List.mem_map.1 hx
  obtain ⟨h, hh, hi⟩ := List.mem_filterMap.1 he
  obtain ⟨ht, -, v, -, rfl⟩ := readItem_some hi
  exact ⟨h, hh, ht, (readItem_readable true _).handle h hh _ hi, endOf_le16 h _ _⟩

section Discovery

variable {rounds fuel : Nat} {b : Server} {start last : UInt16}

theorem discover_info (hr : 12 ≤ rounds) (rsp : UInt16 → Rsp) (h1 : 1 ≤ start.toNat)
    (hfuel : last.toNat + 1 - start.toNat < fuel) :
    discover rounds b rsp 0x04 infoSize handleOf (findInfoReq last) last fuel start.toNat =
      some ((attributesIn start.toNat last.toNat).map (fun h => le16 h ++ attTypeGet h)) := by
  have hans : Answers b 0x04 infoItem last (fun s => sent rounds b (rsp s) (findInfoReq last s)) :=
    fun s hs hsl => sent_of_sends (findInfo_sends hr b (rsp s) hs hsl)
  rw [discover_entries (by decide) (infoItem_readable b) hans (fun x _ => le_rfl) (fun x _ y _ h => h) h1 hfuel]
  unfold entriesIn
  rw [show infoItem = some ∘ infoEntry from rfl, List.filterMap_eq_map, List.map_map]
  rfl

theorem discover_services (hr : 12 ≤ rounds) (hb : b.valueLen.toNat ≤ 64) (rsp : UInt16 → Rsp) (h1 : 1 ≤ start.toNat)
    (hfuel : last.toNat + 1 - start.toNat < fuel) :
    discover rounds b rsp 0x10 UInt8.toNat endOf (readByReq true (le16 0x2800) last) last fuel start.toNat =
      some ((attributesOf (le16 0x2800) start.toNat last.toNat).map
        (fun h => le16 h ++ le16 (attGroupEnd h) ++ b.valueD h)) := by
  have hans : Answers b 0x10 (readItem b b.attMtu true (le16 0x2800)) last
      (fun s => sent rounds b (rsp s) (readByReq true (le16 0x2800) last s)) :=
    fun s hs hsl => sent_of_sends (readBy_sends hr hb (rsp s) true (.inl rfl) (fun _ => rfl) hs hsl)
  rw [discover_entries (by decide) (readItem_readable true _) hans ?_ ?_ h1 hfuel]
  · rw [entries_of_type (all_attributes (by decide))]
    intro h hh ht
    have hlen := length_service b hh ht
    have hmtu := attMtu_bounds b
    show readHead true h ++ (b.valueD h).take (b.attMtu - 2 - 4) = _
    rw [List.take_of_length_le (by omega)]
    rfl
  · intro x hx
    obtain ⟨h, hh, ht, hk, hend⟩ := service_item hx
    rw [hk, hend]
    exact (services_apart h hh ht).1
  · intro x hx y hy hlt
    obtain ⟨h, hh, ht, hk, hend⟩ := service_item hx
    obtain ⟨h', hh', ht', hk', -⟩ := service_item hy
    rw [hk, hk'] at hlt
    rw [hend, hk']
    exact (services_apart h hh ht).2 h' hh' ht' hlt

theorem discover_type (hr : 12 ≤ rounds) (hb : b.valueLen.toNat ≤ 64) (rsp : UInt16 → Rsp) {want : List UInt8}
    (hwant : want.length = 2 ∨ want.length = 16) (h1 : 1 ≤ start.toNat)
    (hfuel : last.toNat + 1 - start.toNat < fuel) :
    discover rounds b rsp 0x08 UInt8.toNat handleOf (readByReq false want last) last fuel start.toNat =
      some ((attributesOf want start.toNat last.toNat).map (fun h => le16 h ++ (b.valueD h).take (b.attMtu - 4))) := by
  have hans : Answers b 0x08 (readItem b b.attMtu false want) last
      (fun s => sent rounds b (rsp s) (readByReq false want last s)) :=
    fun s hs hsl => sent_of_sends (readBy_sends hr hb (rsp s) false hwant (by simp) hs hsl)
  rw [discover_entries (by decide) (readItem_readable false want) hans (fun x _ => le_rfl) (fun x _ y _ h => h) h1
    hfuel, entries_of_type (by simp)]
  intro h _ _
  show readHead false h ++ (b.valueD h).take (b.attMtu - 2 - 2) = _
  rw [Nat.sub_sub]
  rfl

end Discovery

/-- **Discovery is complete.** For any range, MTU, value and type, a client
that repeats Find Information, Read By Group Type 0x2800 or Read By Type from
behind what it got comes to an end, never meets a list that is empty or not of
one entry size, leaves the server as it is, and has then, once each and in the order of handles: all
attributes with their types, all services with their end handle and UUID, and
all attributes of the type with as much of the value as an MTU allows. -/
theorem discovery_complete (rounds : Nat) (hr : 12 ≤ rounds) (b : Server) (hb : b.valueLen.toNat ≤ 64)
    (rsp : UInt16 → Rsp) (start last : UInt16) (hpos : 1 ≤ start) (want : List UInt8)
    (hwant : want.length = 2 ∨ want.length = 16) (fuel : Nat) (hfuel : last.toNat + 1 - start.toNat < fuel) :
    discover rounds b rsp 0x04 infoSize handleOf (findInfoReq last) last fuel start.toNat =
        some ((attributesIn start.toNat last.toNat).map (fun h => le16 h ++ attTypeGet h)) ∧
      discover rounds b rsp 0x10 UInt8.toNat endOf (readByReq true (le16 0x2800) last) last fuel start.toNat =
        some ((attributesOf (le16 0x2800) start.toNat last.toNat).map
          (fun h => le16 h ++ le16 (attGroupEnd h) ++ b.valueD h)) ∧
      discover rounds b rsp 0x08 UInt8.toNat handleOf (readByReq false want last) last fuel start.toNat =
        some ((attributesOf want start.toNat last.toNat).map (fun h => le16 h ++ (b.valueD h).take (b.attMtu - 4))) ∧
      (∀ h, h ∈ attributes ↔ attTypeGet h ≠ []) ∧ (∀ h, attTypeGet h = le16 0x2803 → Declares b h) ∧
      (∀ s p, 0 < s → s ≤ last → (∃ bytes, Sends (attOnPdu rounds b (findInfoReq last s) p) b bytes) ∧
        (∃ bytes, Sends (attOnPdu rounds b (readByReq true (le16 0x2800) last s) p) b bytes) ∧
        ∃ bytes, Sends (attOnPdu rounds b (readByReq false want last s) p) b bytes) := by
  have h1 : 1 ≤ start.toNat := by simpa [UInt16.le_iff_toNat_le] using hpos
  refine ⟨discover_info hr rsp h1 hfuel, discover_services hr hb rsp h1 hfuel, discover_type hr hb rsp hwant h1 hfuel,
    ?_, declares_all b, ?_⟩
  · intro h
    exact ⟨fun hh => ((mem_attributes b h).1 hh).1, mem_of_type⟩
  · intro s p hs hsl
    exact ⟨⟨_, findInfo_sends hr b p hs hsl⟩, ⟨_, readBy_sends hr hb p true (.inl rfl) (fun _ => rfl) hs hsl⟩,
      ⟨_, readBy_sends hr hb p false hwant (by simp) hs hsl⟩⟩

/-- All characteristic declarations, from the second handle on. -/
theorem discovery_complete_plain :
    discover 12 plain (fun _ => noise) 0x08 UInt8.toNat handleOf (readByReq false (le16 0x2803) 0xffff) 0xffff 65536 2 =
      some ([2, 4, 8].map (fun h => le16 h ++ (plain.valueD h).take 19)) :=
  (discovery_complete 12 (by decide) plain (by decide) (fun _ => noise) 2 0xffff (by decide) (le16 0x2803)
    (.inl rfl) 65536 (by decide)).2.2.1

end AlgaeBp.Att
