import AlgaeBp.Hid.Code
/-!
# The items of a HID report descriptor

Every byte string is a sequence of items, short and long ones, and the
beginning of one more (`exists_descriptor`). The parser takes the length byte
and the tag of a long item for its data and goes on in what really is the data;
`keeps_iff` says that otherwise it prints one line for every item, each from its
own bytes, and says when the last one is cut off.
-/

namespace AlgaeBp.Hid

open Bytes

/-! ## Items -/

inductive Item where
  | short (pre : UInt8) (data : List UInt8) (not_long : pre ≠ 0xfe) (length_data : data.length = dataSize pre)
  | long (tag : UInt8) (data : List UInt8) (length_data : data.length < 256)

def Item.bytes : Item → List UInt8
  | short pre data _ _ => pre :: data
  | long tag data _ => 0xfe :: UInt8.ofNat data.length :: tag :: data

/-- The data bytes that the parser does not skip. -/
def Item.unskipped : Item → Nat
  | short .. => 0
  | long _ data _ => data.length

def unsignedValue (data : List UInt8) : UInt32 := UInt32.ofNat (leNat data)

/-- Sign-extended. -/
def signedValue (data : List UInt8) : Int := (leNat data : Int).bmod (256 ^ data.length)

/-- The data of a global item with this tag. -/
def Item.global? (tag : Nat) : Item → Option (List UInt8)
  | short pre data _ _ => if itemType pre = 1 ∧ itemTag pre = tag then some data else none
  | long .. => none

/-- The data of the latest such item; none count as 0. -/
def latest (tag : Nat) (before : List Item) : List UInt8 := (before.reverse.findSome? (Item.global? tag)).getD []

/-- How many collections are open after the item. -/
def Item.nest (depth : Nat) : Item → Nat
  | short pre _ _ _ =>
    if itemType pre = 0 ∧ itemTag pre = 10 then depth + 1
    else if itemType pre = 0 ∧ itemTag pre = 12 then depth - 1
    else depth
  | long .. => depth

/-- What the items before say. -/
def context (before : List Item) : State where
  reportSize := unsignedValue (latest 7 before)
  reportCount := unsignedValue (latest 9 before)
  reportId := unsignedValue (latest 8 before)
  usagePage := unsignedValue (latest 0 before)
  logicalMin := signedValue (latest 1 before)
  logicalMax := signedValue (latest 2 before)
  indent := before.foldl Item.nest 0

/-- What `Input` and `Output` are printed with: their own flags, and the size and the count that the
items before have set. -/
def fieldArgs (before : List Item) (data : List UInt8) : List Arg :=
  let flags := unsignedValue data
  let size := unsignedValue (latest 7 before)
  let count := unsignedValue (latest 9 before)
  [.str (if before.foldl Item.nest 0 > 0 then "  " else ""), .unsigned flags, .unsigned size, .unsigned count,
    .unsigned (size * count), .unsigned ((size * count + 7) / 8),
    .str (if size > 32 then "  << exceeds kernel 32-bit extract()" else "")]

/-- The format and the arguments of a short item; those that are no fields print what they are given. -/
def shortLine (before : List Item) (pre : UInt8) (data : List UInt8) : String × List Arg :=
  if itemType pre = 0 ∧ itemTag pre = 8 then
    ("%sInput (0x%x): size=%u bits, count=%u, total=%u bits (%u bytes)%s\n", fieldArgs before data)
  else if itemType pre = 0 ∧ itemTag pre = 9 then
    ("%sOutput (0x%x): size=%u bits, count=%u, total=%u bits (%u bytes)%s\n", fieldArgs before data)
  else (shortItem (context before) pre (itemType pre) (itemTag pre) (unsignedValue data) (signedValue data)).2

/-- The line of an item. -/
def Item.line (before : List Item) (off : Nat) : Item → Printed
  | short pre data _ _ => { item := off, fmt := (shortLine before pre data).1, args := (shortLine before pre data).2 }
  | long .. => { item := off, fmt := "  LongItem (unsupported)\n", args := [] }

def itemLines (off : Nat) (before : List Item) : List Item → List Printed
  | [] => []
  | it :: items => it.line before off :: itemLines (off + it.bytes.length) (before ++ [it]) items

/-- What may stand behind the last item: the beginning of another. -/
structure Tail where
  bytes : List UInt8
  cut : ∃ it : Item, bytes <+: it.bytes ∧ bytes ≠ it.bytes

def Tail.lines (tail : Tail) (off : Nat) : List Printed :=
  if tail.bytes = [] then [] else [{ item := off, fmt := "truncated item at offset %d\n", args := [.int off] }]

def descriptor (items : List Item) (tail : Tail) : List UInt8 := items.flatMap Item.bytes ++ tail.bytes

/-- One line for every item from its own bytes, and truncation is reported just when the last item is cut off. -/
def Keeps (items : List Item) (tail : Tail) : Prop :=
  miniHidParseReportDescriptor (descriptor items tail) (descriptor items tail).length true =
    some ({ item := none, fmt := "parsed report descriptor:\n", args := [] } ::
      (itemLines 0 [] items ++ tail.lines (items.flatMap Item.bytes).length))

/-- A long item that is cut off is cut off in its first two bytes, and what is missing would end within an `int`. -/
def Tail.Harmless (tail : Tail) (off : Nat) : Prop :=
  ∀ pre ∈ tail.bytes.head?, (pre = 0xfe → tail.bytes.length < 3) ∧ off + 1 + dataSize pre < 2 ^ 31

/-! ## Data -/

/-- A byte goes into the eight bits above what is there. -/
theorem or_shiftLeft {i : Nat} {v : UInt32} {byte : UInt8} (hi : i < 4) (hv : v.toNat < 256 ^ i) :
    (v ||| byte.toUInt32 <<< UInt32.ofNat (8 * i)).toNat = v.toNat + 256 ^ i * byte.toNat := by
  have hpow : 256 ^ i = 2 ^ (8 * i) := (Nat.pow_mul 2 8 i).symm
  have hshift : (UInt32.ofNat (8 * i)).toNat % 32 = 8 * i := by
    rw [UInt32.toNat_ofNat', Nat.mod_mod_of_dvd _ (by decide)]
    exact Nat.mod_eq_of_lt (by omega)
  have hfits : 2 ^ (8 * i) * byte.toNat < 2 ^ 32 := by
    calc 2 ^ (8 * i) * byte.toNat < 2 ^ (8 * i) * 2 ^ 8 := Nat.mul_lt_mul_of_pos_left byte.toNat_lt (Nat.two_pow_pos _)
      _ = 2 ^ (8 * i + 8) := (Nat.pow_add ..).symm
      _ ≤ 2 ^ 32 := Nat.pow_le_pow_right (by decide) (by omega)
  rw [UInt32.toNat_or, UInt32.toNat_shiftLeft, UInt8.toNat_toUInt32, hshift, Nat.shiftLeft_eq, Nat.mul_comm,
    Nat.mod_eq_of_lt hfits, hpow, Nat.or_comm, Nat.mul_comm, ← Nat.shiftLeft_eq,
    ← Nat.shiftLeft_add_eq_or_of_lt (hpow ▸ hv), Nat.add_comm]

theorem udataLoop_eq {desc data rest : List UInt8} {off i : Nat} {v : UInt32} (hdrop : desc.drop (off + i) = data ++ rest)
    (hv : v.toNat < 256 ^ i) (hfour : i + data.length ≤ 4) :
    udataLoop desc off data.length i v = some (UInt32.ofNat (v.toNat + 256 ^ i * leNat data)) := by
  induction data generalizing i v with
  | nil => simp [udataLoop, leNat]
  | cons byte data ih =>
    rw [List.length_cons] at hfour
    have hbyte : desc[off + i]? = some byte := by
      rw [← List.head?_drop, hdrop]
      rfl
    have hnext : desc.drop (off + (i + 1)) = data ++ rest := by
      rw [← Nat.add_assoc, ← List.tail_drop, hdrop]
      rfl
    have hpow : 256 ^ i * 256 = 256 ^ (i + 1) := (Nat.pow_succ ..).symm
    have hle : 256 ^ (i + 1) ≤ 256 ^ 4 := Nat.pow_le_pow_right (by decide) (by omega)
    have hlt := byte.toNat_lt
    have hor : (v ||| byte.toUInt32 <<< UInt32.ofNat (8 * i)).toNat = _ := or_shiftLeft (by omega) hv
    have hor_lt : v.toNat + 256 ^ i * byte.toNat < 256 ^ (i + 1) := by
      have hmul : 256 ^ i * (byte.toNat + 1) ≤ 256 ^ i * 256 := Nat.mul_le_mul_left _ hlt
      rw [Nat.mul_add, Nat.mul_one] at hmul
      omega
    rw [List.length_cons, udataLoop, hbyte, Option.bind_eq_bind, Option.bind_some,
      ih hnext (by rw [hor]; exact hor_lt) (by omega), hor, leNat, Nat.mul_add, ← Nat.mul_assoc, hpow, Nat.add_assoc]

theorem dataSize_cases (pre : UInt8) : dataSize pre = 0 ∨ dataSize pre = 1 ∨ dataSize pre = 2 ∨ dataSize pre = 4 := by
  have hlt : (pre &&& 3).toNat < 4 := by
    have hmod := Nat.and_two_pow_sub_one_eq_mod pre.toNat 2
    rw [UInt8.toNat_and]
    exact hmod.trans_lt (Nat.mod_lt _ (by decide))
  simp only [dataSize]
  split <;> omega

theorem hidItemUdata_eq {desc data rest : List UInt8} {off : Nat} (hdrop : desc.drop off = data ++ rest)
    (hfour : data.length ≤ 4) : hidItemUdata desc off data.length = some (unsignedValue data) := by
  have h : udataLoop desc off data.length 0 0 = _ := udataLoop_eq hdrop (by decide) (by omega)
  rw [hidItemUdata, h, unsignedValue]
  congr 2
  show 0 + 1 * _ = _
  omega

/-- The lowest byte, word or double word of a value, as a signed number. -/
theorem toInt_toInt8 (v : UInt32) : v.toUInt8.toInt8.toInt = (v.toNat : Int).bmod (256 ^ 1) := by
  calc v.toUInt8.toInt8.toInt = (v.toUInt8.toNat : Int).bmod 256 := BitVec.toInt_eq_toNat_bmod _
    _ = ((v.toNat : Int) % 256).bmod 256 := by rw [UInt32.toNat_toUInt8]; rfl
    _ = (v.toNat : Int).bmod 256 := Int.emod_bmod ..

theorem toInt_toInt16 (v : UInt32) : v.toUInt16.toInt16.toInt = (v.toNat : Int).bmod (256 ^ 2) := by
  calc v.toUInt16.toInt16.toInt = (v.toUInt16.toNat : Int).bmod 65536 := BitVec.toInt_eq_toNat_bmod _
    _ = ((v.toNat : Int) % 65536).bmod 65536 := by rw [UInt32.toNat_toUInt16]; rfl
    _ = (v.toNat : Int).bmod 65536 := Int.emod_bmod ..

theorem toInt_toInt32 (v : UInt32) : v.toInt32.toInt = (v.toNat : Int).bmod (256 ^ 4) := BitVec.toInt_eq_toNat_bmod _

theorem hidItemSdata_eq {desc data rest : List UInt8} {off : Nat} (hdrop : desc.drop off = data ++ rest) {pre : UInt8}
    (hsize : data.length = dataSize pre) : hidItemSdata desc off data.length = some (signedValue data) := by
  have hcases := dataSize_cases pre
  rw [← hsize] at hcases
  have hvalue : (unsignedValue data).toNat = leNat data := by
    have hle : 256 ^ data.length ≤ 256 ^ 4 := Nat.pow_le_pow_right (by decide) (by omega)
    exact UInt32.toNat_ofNat_of_lt' (Nat.lt_of_lt_of_le (leNat_lt data) hle)
  rw [hidItemSdata, hidItemUdata_eq hdrop (by omega), Option.bind_eq_bind, Option.bind_some, signedValue, ← hvalue]
  rcases hcases with h | h | h | h
  · obtain rfl := List.length_eq_zero_iff.1 h
    rfl
  · rw [h, if_pos rfl, toInt_toInt8]
    rfl
  · rw [h, if_neg (by decide), if_pos rfl, toInt_toInt16]
    rfl
  · rw [h, if_neg (by decide), if_neg (by decide), toInt_toInt32]
    rfl

/-! ## What the items before say -/

theorem latest_append (tag : Nat) (before : List Item) (it : Item) :
    latest tag (before ++ [it]) = (it.global? tag).getD (latest tag before) := by
  rw [latest, List.reverse_append, List.reverse_singleton, List.singleton_append, List.findSome?_cons]
  cases it.global? tag <;> rfl

theorem context_long (before : List Item) {tag : UInt8} {data : List UInt8} (h : data.length < 256) :
    context (before ++ [.long tag data h]) = context before := by
  simp [context, latest_append, Item.global?, Item.nest]

/-- The variables after an item are what the items up to it say. -/
theorem context_short (before : List Item) {pre : UInt8} {data : List UInt8} (hpre : pre ≠ 0xfe)
    (hdata : data.length = dataSize pre) :
    context (before ++ [.short pre data hpre hdata]) =
      (shortItem (context before) pre (itemType pre) (itemTag pre) (unsignedValue data) (signedValue data)).1 := by
  unfold shortItem
  split
  · rename_i htype
    unfold mainItem
    split
    case h_6 =>
      rename_i h₁₀ _ h₁₂
      simp [context, latest_append, Item.global?, Item.nest, htype, show itemTag pre ≠ 10 from h₁₀,
        show itemTag pre ≠ 12 from h₁₂]
    case h_5 =>
      rename_i htag
      simp [context, latest_append, Item.global?, Item.nest, htype, htag]
      omega
    all_goals
      rename_i htag
      simp [context, latest_append, Item.global?, Item.nest, htype, htag]
  · rename_i htype
    unfold globalItem
    split
    case h_7 =>
      rename_i h₀ h₁ h₂ h₇ h₈ h₉
      simp [context, latest_append, Item.global?, Item.nest, htype, show itemTag pre ≠ 0 from h₀,
        show itemTag pre ≠ 1 from h₁,
        show itemTag pre ≠ 2 from h₂, show itemTag pre ≠ 7 from h₇, show itemTag pre ≠ 8 from h₈,
          show itemTag pre ≠ 9 from h₉]
    all_goals
      rename_i htag
      simp [context, latest_append, Item.global?, Item.nest, htype, htag]
  · rename_i htype
    unfold localItem
    split <;> simp [context, latest_append, Item.global?, Item.nest, htype]
  · rename_i h₀ h₁ h₂
    have h₀ : itemType pre ≠ 0 := h₀
    have h₁ : itemType pre ≠ 1 := h₁
    simp [context, latest_append, Item.global?, Item.nest, h₀, h₁]

/-- An item is printed as its line says. -/
theorem shortLine_eq (before : List Item) (pre : UInt8) (data : List UInt8) :
    shortLine before pre data =
      (shortItem (context before) pre (itemType pre) (itemTag pre) (unsignedValue data) (signedValue data)).2 := by
  unfold shortLine
  split
  case isTrue h =>
    rw [h.1, h.2]
    rfl
  case isFalse =>
    split
    case isTrue h =>
      rw [h.1, h.2]
      rfl
    case isFalse => rfl

/-! ## One turn of the loop -/

section Turn
variable {desc data rest : List UInt8} {i turns : Nat} {pre : UInt8} {st : State}

theorem getElem?_of_drop (h : desc.drop i = pre :: rest) : desc[i]? = some pre := by
  rw [← List.head?_drop, h]
  rfl

theorem drop_succ (h : desc.drop i = pre :: rest) : desc.drop (i + 1) = rest := by
  rw [← List.tail_drop, h]
  rfl

theorem lt_of_drop (h : desc.drop i = pre :: rest) : i < desc.length := by
  have hlen := congrArg List.length h
  rw [List.length_drop, List.length_cons] at hlen
  omega

/-- A turn that does not overflow and whose data is there. -/
theorem turn_data (h : desc.drop i = pre :: (data ++ rest)) (hsize : data.length = dataSize pre)
    (hfits : desc.length < 2 ^ 31) :
    turn desc desc.length i st =
      if pre = 0xfe then some ({ item := i, fmt := "  LongItem (unsupported)\n", args := [] },
        some (i + 1 + data.length, st))
      else
        let (st, fmt, args) := shortItem st pre (itemType pre) (itemTag pre) (unsignedValue data) (signedValue data)
        some ({ item := i, fmt, args }, some (i + 1 + data.length, st)) := by
  have hlen := congrArg List.length h
  rw [List.length_drop, List.length_cons, List.length_append] at hlen
  have hfour : data.length ≤ 4 := by
    have hcases := dataSize_cases pre
    omega
  have hstop : ¬ ((i + 1 + dataSize pre : Nat) : Int) > desc.length := by omega
  rw [turn, getElem?_of_drop h]
  simp only [Option.bind_eq_bind, Option.bind_some]
  rw [int, if_pos (by omega), Option.bind_some, if_neg hstop, ← hsize, hidItemUdata_eq (drop_succ h) hfour,
    hidItemSdata_eq (drop_succ h) hsize]
  rfl

/-- A turn whose data is not there. -/
theorem turn_cut (h : desc.drop i = pre :: rest) (hcut : rest.length < dataSize pre) :
    turn desc desc.length i st =
      if i + 1 + dataSize pre < 2 ^ 31 then
        some ({ item := i, fmt := "truncated item at offset %d\n", args := [.int i] }, none)
      else none := by
  have hlen := congrArg List.length h
  rw [List.length_drop, List.length_cons] at hlen
  have hstop : ((i + 1 + dataSize pre : Nat) : Int) > desc.length := by omega
  rw [turn, getElem?_of_drop h]
  simp only [Option.bind_eq_bind, Option.bind_some]
  rw [int]
  split
  · rw [Option.bind_some, if_pos hstop]
    rfl
  · rfl

/-- Every turn prints one line, about the byte it began with. -/
theorem turn_item {line : Printed} {next : Option (Nat × State)} {len : Int} (h : turn desc len i st = some (line, next)) :
    line.item = some i := by
  simp only [turn, Option.bind_eq_bind, Option.bind_eq_some_iff] at h
  obtain ⟨pre, -, stop, -, h⟩ := h
  split at h
  · cases h
    rfl
  · simp only [Option.bind_eq_some_iff] at h
    obtain ⟨udata, -, sdata, -, h⟩ := h
    split at h <;> cases h <;> rfl

theorem parseFrom_item {lines : List Printed} (hi : i < desc.length)
    (h : parseFrom desc desc.length turns i st = some lines) :
    ∃ line more, lines = line :: more ∧ line.item = some i := by
  cases turns with
  | zero => cases h
  | succ turns =>
    rw [parseFrom, if_pos (Int.ofNat_lt.2 hi)] at h
    simp only [Option.bind_eq_bind, Option.bind_eq_some_iff] at h
    obtain ⟨⟨line, next⟩, hturn, h⟩ := h
    cases next with
    | none =>
      cases h
      exact ⟨line, [], rfl, turn_item hturn⟩
    | some next =>
      simp only [Option.bind_eq_some_iff] at h
      obtain ⟨more, -, h⟩ := h
      cases h
      exact ⟨line, more, rfl, turn_item hturn⟩

/-- What a turn prints comes first. -/
theorem parseFrom_next {line : Printed} {j : Nat} {st' : State} (hi : i < desc.length)
    (hturn : turn desc desc.length i st = some (line, some (j, st'))) :
    parseFrom desc desc.length (turns + 1) i st = (parseFrom desc desc.length turns j st').map (line :: ·) := by
  rw [parseFrom, if_pos (Int.ofNat_lt.2 hi), hturn, Option.map_eq_bind]
  rfl

end Turn

/-! ## All turns -/

section Turns
variable {desc : List UInt8} {i turns : Nat}

theorem head_lines {items : List Item} {before : List Item} {tail : Tail} {line : Printed} {more : List Printed}
    (h : itemLines i before items ++ tail.lines (i + (items.flatMap Item.bytes).length) = line :: more) :
    line.item = some i := by
  cases items with
  | nil =>
    rw [itemLines, List.nil_append, List.flatMap_nil, List.length_nil, Nat.add_zero, Tail.lines] at h
    split at h <;> cases h
    rfl
  | cons it items =>
    rw [itemLines, List.cons_append] at h
    cases h
    cases it <;> rfl

/-- How the beginning of an item is met: its data is missing, or it is the head of a long item. -/
theorem Tail.cases (tail : Tail) {pre : UInt8} {rest : List UInt8} (h : tail.bytes = pre :: rest) :
    rest.length < dataSize pre ∨ pre = 0xfe ∧ 3 ≤ tail.bytes.length := by
  obtain ⟨it, hpref, hne⟩ := tail.cut
  rw [h] at hpref hne ⊢
  cases it with
  | short pre' data hpre hdata =>
    rw [Item.bytes, List.cons_prefix_cons] at hpref
    obtain ⟨rfl, hpref⟩ := hpref
    left
    rw [← hdata]
    refine Nat.lt_of_le_of_ne hpref.length_le ?_
    intro hlen
    exact hne (congrArg _ (hpref.eq_of_length hlen))
  | long tag data hdata =>
    rw [Item.bytes, List.cons_prefix_cons] at hpref
    obtain ⟨rfl, -⟩ := hpref
    by_cases hlen : 3 ≤ (0xfe :: rest : List UInt8).length
    · exact .inr ⟨rfl, hlen⟩
    · left
      rw [List.length_cons] at hlen
      show rest.length < 2
      omega

theorem dataSize_long : dataSize 0xfe = 2 := by decide

/-- A cut item whose data is not there only has to end at an `int`. -/
theorem Tail.harmless_cut (tail : Tail) {pre : UInt8} {rest : List UInt8} (h : tail.bytes = pre :: rest)
    (hcut : rest.length < dataSize pre) : tail.Harmless i ↔ i + 1 + dataSize pre < 2 ^ 31 := by
  constructor
  · intro hharmless
    exact (hharmless pre (by rw [h]; rfl)).2
  · intro hend pre' hpre
    rw [h] at hpre
    cases hpre
    refine ⟨?_, hend⟩
    rintro rfl
    rw [h, List.length_cons]
    rw [dataSize_long] at hcut
    omega

/-- The head of a long item is taken for an item with two bytes of data. -/
theorem turn_long {size tag : UInt8} {rest : List UInt8} (hdrop : desc.drop i = 0xfe :: size :: tag :: rest)
    (hfits : desc.length < 2 ^ 31) (st : State) :
    turn desc desc.length i st =
      some ({ item := i, fmt := "  LongItem (unsupported)\n", args := [] }, some (i + 3, st)) :=
  (turn_data (show desc.drop i = 0xfe :: ([size, tag] ++ rest) from hdrop) dataSize_long.symm hfits).trans (if_pos rfl)

/-- The end of the descriptor. -/
theorem parseFrom_tail (tail : Tail) (hdrop : desc.drop i = tail.bytes) (hi : i ≤ desc.length)
    (hturns : desc.length < i + turns) (hfits : desc.length < 2 ^ 31) (st : State) :
    parseFrom desc desc.length turns i st = some (tail.lines i) ↔ tail.Harmless i := by
  obtain ⟨turns, rfl⟩ := Nat.exists_eq_succ_of_ne_zero (by omega : turns ≠ 0)
  cases hbytes : tail.bytes with
  | nil =>
    have hharmless : tail.Harmless i := by
      intro pre hpre
      rw [hbytes] at hpre
      cases hpre
    have hend : ¬ (i : Int) < desc.length := by
      have hlen := congrArg List.length hdrop
      rw [hbytes, List.length_drop, List.length_nil] at hlen
      omega
    rw [parseFrom, if_neg hend, Tail.lines, if_pos hbytes]
    exact iff_of_true rfl hharmless
  | cons pre rest =>
    rw [hbytes] at hdrop
    have hlt := Int.ofNat_lt.2 (lt_of_drop hdrop)
    rw [Tail.lines, hbytes, if_neg (List.cons_ne_nil _ _)]
    rcases tail.cases hbytes with hcut | ⟨rfl, hlong⟩
    · rw [parseFrom, if_pos hlt, turn_cut hdrop hcut, tail.harmless_cut hbytes hcut]
      split
      · rename_i hend
        exact iff_of_true rfl hend
      · rename_i hend
        exact iff_of_false (fun h => nomatch h) hend
    · rw [hbytes] at hlong
      obtain ⟨size, tag, rest, rfl⟩ : ∃ size tag more, rest = size :: tag :: more := by
        rcases rest with _ | ⟨size, _ | ⟨tag, more⟩⟩
        · simp at hlong
        · simp at hlong
        · exact ⟨size, tag, more, rfl⟩
      apply iff_of_false
      · rw [parseFrom_next (lt_of_drop hdrop) (turn_long hdrop hfits st)]
        intro h
        obtain ⟨more, -, heq⟩ := Option.map_eq_some_iff.1 h
        obtain ⟨hline, -⟩ := List.cons.inj heq
        rw [Printed.mk.injEq] at hline
        exact absurd hline.2.1 (by decide)
      · intro h
        have hlen := (h 0xfe (by rw [hbytes]; rfl)).1 rfl
        rw [hbytes] at hlen
        omega

/-- All items, from some item on. -/
theorem parseFrom_items (items : List Item) (tail : Tail) (before : List Item) (hdrop : desc.drop i = descriptor items tail)
    (hi : i ≤ desc.length) (hturns : desc.length < i + turns) (hfits : desc.length < 2 ^ 31) :
    parseFrom desc desc.length turns i (context before) =
        some (itemLines i before items ++ tail.lines (i + (items.flatMap Item.bytes).length)) ↔
      (∀ it ∈ items, it.unskipped = 0) ∧ tail.Harmless (i + (items.flatMap Item.bytes).length) := by
  induction items generalizing i turns before with
  | nil =>
    simp only [itemLines, List.nil_append, List.flatMap_nil, List.length_nil, Nat.add_zero, List.not_mem_nil, false_imp_iff,
      implies_true, true_and]
    exact parseFrom_tail tail hdrop hi hturns hfits _
  | cons it items ih =>
    obtain ⟨turns, rfl⟩ := Nat.exists_eq_succ_of_ne_zero (by omega : turns ≠ 0)
    have hrest : desc.drop (i + it.bytes.length) = descriptor items tail := by
      rw [← List.drop_drop, hdrop, descriptor, List.flatMap_cons, List.append_assoc, List.drop_left]
      rfl
    have hbytes : desc.drop i = it.bytes ++ descriptor items tail := by
      rw [hdrop, descriptor, List.flatMap_cons, List.append_assoc]
      rfl
    have hend : i + it.bytes.length ≤ desc.length := by
      have hlen := congrArg List.length hbytes
      rw [List.length_drop, List.length_append] at hlen
      omega
    have hoff : i + ((it :: items).flatMap Item.bytes).length = i + it.bytes.length + (items.flatMap Item.bytes).length := by
      rw [List.flatMap_cons, List.length_append, Nat.add_assoc]
    have hpos : 0 < it.bytes.length := by cases it <;> exact Nat.succ_pos _
    have hnext := ih (before ++ [it]) hrest hend (by omega : desc.length < i + it.bytes.length + turns)
    rw [hoff, List.forall_mem_cons, itemLines, List.cons_append, and_assoc]
    cases it with
    | short pre data hpre hdata =>
      have hturn : turn desc desc.length i (context before) = some ((Item.short pre data hpre hdata).line before i,
          some (i + (Item.short pre data hpre hdata).bytes.length, context (before ++ [.short pre data hpre hdata]))) := by
        rw [turn_data hbytes hdata hfits, if_neg hpre, context_short before hpre hdata, Item.bytes,
          List.length_cons, Nat.add_right_comm, Item.line, shortLine_eq]
        rfl
      rw [parseFrom_next (lt_of_drop hbytes) hturn, Option.map_eq_some_iff]
      simp only [List.cons.injEq, true_and, exists_eq_right, Item.unskipped]
      exact hnext
    | long tag data hdata =>
      have hturn := turn_long hbytes hfits (context before)
      rw [parseFrom_next (lt_of_drop hbytes) hturn, Option.map_eq_some_iff]
      simp only [Item.line, List.cons.injEq, true_and, exists_eq_right, Item.unskipped]
      rw [context_long] at hnext
      cases data with
      | nil => exact hnext.trans (and_iff_right rfl).symm
      | cons byte data =>
        -- the turn after it begins with the first of the data bytes
        apply iff_of_false
        · intro h
          obtain ⟨line, more, heq, hitem⟩ := parseFrom_item (by simp only [Item.bytes, List.length_cons] at hend; omega) h
          have hhead := head_lines heq
          rw [hitem, Option.some.injEq] at hhead
          simp only [Item.bytes, List.length_cons] at hhead
          omega
        · intro h
          exact absurd h.1 (Nat.succ_ne_zero _)

end Turns

/-! ## Every descriptor -/

/-- The beginning of an item that is not all of it. -/
theorem Tail.exists_of_prefix {bytes : List UInt8} (it : Item) (hpref : bytes <+: it.bytes)
    (hlt : bytes.length < it.bytes.length) :
    ∃ tail : Tail, tail.bytes = bytes := by
  refine ⟨⟨bytes, it, hpref, ?_⟩, rfl⟩
  rintro rfl
  exact Nat.lt_irrefl _ hlt

/-- A descriptor begins with an item, or is the beginning of one. -/
theorem exists_item (desc : List UInt8) :
    (∃ it rest, desc = Item.bytes it ++ rest) ∨ ∃ tail : Tail, tail.bytes = desc := by
  have hlong : ([] : List UInt8).length < 256 := by decide
  rcases desc with _ | ⟨pre, rest⟩
  · exact .inr (Tail.exists_of_prefix (.long 0 [] hlong) List.nil_prefix (Nat.succ_pos _))
  by_cases hpre : pre = 0xfe
  · subst hpre
    rcases rest with _ | ⟨size, _ | ⟨tag, rest⟩⟩
    · exact .inr (Tail.exists_of_prefix (.long 0 [] hlong) ⟨[0, 0], rfl⟩ (by simp [Item.bytes]))
    · have hsize : (List.replicate size.toNat (0 : UInt8)).length < 256 := by
        rw [List.length_replicate]
        exact size.toNat_lt
      refine .inr (Tail.exists_of_prefix (.long 0 _ hsize) ⟨0 :: List.replicate size.toNat 0, ?_⟩ ?_)
      · rw [Item.bytes, List.length_replicate, UInt8.ofNat_toNat]
        rfl
      · simp [Item.bytes]
    · have hsize := size.toNat_lt
      by_cases hfull : size.toNat ≤ rest.length
      · have htake : (rest.take size.toNat).length = size.toNat := List.length_take_of_le hfull
        refine .inl ⟨.long tag (rest.take size.toNat) (by rw [htake]; exact hsize), rest.drop size.toNat, ?_⟩
        rw [Item.bytes, htake, UInt8.ofNat_toNat, List.cons_append, List.cons_append,
          List.cons_append, List.take_append_drop]
      · have hdata : (rest ++ List.replicate (size.toNat - rest.length) 0).length = size.toNat := by
          rw [List.length_append, List.length_replicate]
          omega
        refine .inr (Tail.exists_of_prefix (.long tag _ (by rw [hdata]; exact hsize))
          ⟨List.replicate (size.toNat - rest.length) 0, ?_⟩ ?_)
        · rw [Item.bytes, hdata, UInt8.ofNat_toNat]
          rfl
        · simp only [Item.bytes, List.length_cons, hdata]
          omega
  · by_cases hfull : dataSize pre ≤ rest.length
    · refine .inl ⟨.short pre (rest.take (dataSize pre)) hpre (List.length_take_of_le hfull), rest.drop (dataSize pre), ?_⟩
      rw [Item.bytes, List.cons_append, List.take_append_drop]
    · have hdata : (rest ++ List.replicate (dataSize pre - rest.length) 0).length = dataSize pre := by
        rw [List.length_append, List.length_replicate]
        omega
      refine .inr (Tail.exists_of_prefix (.short pre _ hpre hdata) ⟨List.replicate (dataSize pre - rest.length) 0, rfl⟩ ?_)
      simp only [Item.bytes, List.length_cons, hdata]
      omega

/-- Every byte string is read as items. -/
theorem exists_descriptor (desc : List UInt8) : ∃ items tail, desc = descriptor items tail := by
  induction hn : desc.length using Nat.strong_induction_on generalizing desc with
  | _ n ih =>
    rcases exists_item desc with ⟨it, rest, rfl⟩ | ⟨tail, rfl⟩
    · have hpos : 0 < it.bytes.length := by cases it <;> exact Nat.succ_pos _
      rw [List.length_append] at hn
      obtain ⟨items, tail, hrest⟩ := ih rest.length (by omega) rest rfl
      exact ⟨it :: items, tail, by rw [hrest, descriptor, descriptor, List.flatMap_cons, List.append_assoc]⟩
    · exact ⟨[], tail, rfl⟩

/-- **When the parser keeps to the items**, for every byte string an `int` can count. -/
theorem keeps_iff (desc : List UInt8) (hfits : desc.length < 2 ^ 31) :
    (∃ items tail, desc = descriptor items tail) ∧
      ∀ items tail, desc = descriptor items tail →
        (Keeps items tail ↔ (∀ it ∈ items, it.unskipped = 0) ∧ tail.Harmless (items.flatMap Item.bytes).length) := by
  refine ⟨exists_descriptor desc, ?_⟩
  rintro items tail rfl
  have hall := parseFrom_items items tail [] (List.drop_zero ..) (Nat.zero_le _)
    (by omega : (descriptor items tail).length < 0 + ((descriptor items tail).length + 1)) hfits
  rw [Nat.zero_add] at hall
  rw [← hall, Keeps, miniHidParseReportDescriptor, Int.toNat_natCast]
  show (Option.bind _ fun lines => some (_ :: lines)) = _ ↔ _
  constructor
  · intro h
    obtain ⟨lines, hlines, heq⟩ := Option.bind_eq_some_iff.1 h
    cases heq
    exact hlines
  · intro h
    have h : parseFrom (descriptor items tail) (descriptor items tail).length
      ((descriptor items tail).length + 1) 0 {} = _ := h
    rw [h, Option.bind_some]

/-- No item is begun behind the last one. -/
def noTail : Tail := ⟨[], .long 0 [] (by decide), List.nil_prefix, by decide⟩

/-- A report of two fields of eight bits. -/
def twoBytes : List Item :=
  [.short 0x75 [8] (by decide) (by decide), .short 0x95 [2] (by decide) (by decide), .short 0x81 [2] (by decide) (by decide)]

theorem keeps_twoBytes : Keeps twoBytes noTail :=
  ((keeps_iff (descriptor twoBytes noTail) (by decide)).2 twoBytes noTail rfl).2 ⟨by decide, fun _ h => nomatch h⟩

/-- A long item with one byte of data. -/
def oneByte : Item := .long 0 [0x05] (by decide)

/-- The data of a long item is read as the next item, here as one that is cut off. -/
theorem oneByte_not_skipped :
    miniHidParseReportDescriptor [0xfe, 0x01, 0x00, 0x05] 4 true =
        some [{ item := none, fmt := "parsed report descriptor:\n", args := [] },
          { item := some 0, fmt := "  LongItem (unsupported)\n", args := [] },
          { item := some 3, fmt := "truncated item at offset %d\n", args := [.int 3] }] ∧
      descriptor [oneByte] noTail = [0xfe, 0x01, 0x00, 0x05] ∧ ¬ Keeps [oneByte] noTail := by
  refine ⟨by decide, rfl, by unfold Keeps; decide⟩

end AlgaeBp.Hid
