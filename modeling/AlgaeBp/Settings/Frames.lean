import AlgaeBp.Settings.Theorems
/-!
# Loading any file

What `keyval_load` does with a file it did not write. The complete entries a
file has, up to the length in its header, are read off the bytes alone
(`framesIn`); whatever `read` does, the loop of `keyval_load` inserts some of
them, from the first on, and has taken exactly their bytes into its checksum.
-/
open Bytes File StateWp
open Ints (toInt)

namespace AlgaeBp.Settings

/-! ## Entries in a file -/

/-- An entry as a file holds it: the header, then key and value of the lengths it says. -/
structure Frame where
  hdr : List UInt8
  data : List UInt8
  hdrSize : hdr.length = keyvalHdrSize
  dataSize : data.length = leNat (hdr.take 1) + leNat (hdr.drop 1)

def Frame.bytes (c : Frame) : List UInt8 := c.hdr ++ c.data

def Frame.entry (c : Frame) : Keyval := entryOf c.data (leNat (c.hdr.take 1)) (leNat (c.hdr.drop 1))

def bytesOf (cs : List Frame) : List UInt8 := cs.flatMap Frame.bytes

theorem length_frame (c : Frame) : c.bytes.length = 3 + c.data.length := by
  rw [Frame.bytes, List.length_append, c.hdrSize]
  rfl

theorem length_bytesOf_cons (c : Frame) (cs : List Frame) :
    (bytesOf (c :: cs)).length = 3 + c.data.length + (bytesOf cs).length := by
  show (c.bytes ++ bytesOf cs).length = _
  rw [List.length_append, length_frame]

/-- The entry some bytes begin with, if it is there in full. -/
def firstFrame (content : List UInt8) : Option Frame :=
  if h : keyvalHdrSize ≤ content.length then
    let hdr := content.take keyvalHdrSize
    let size := leNat (hdr.take 1) + leNat (hdr.drop 1)
    if h' : size ≤ (content.drop keyvalHdrSize).length then
      some ⟨hdr, (content.drop keyvalHdrSize).take size, by rw [List.length_take, Nat.min_eq_left h],
        by rw [List.length_take, Nat.min_eq_left h']⟩
    else none
  else none

theorem firstFrame_append (c : Frame) (rest : List UInt8) : firstFrame (c.bytes ++ rest) = some c := by
  obtain ⟨hdr, data, hh, hd⟩ := c
  have htake : (hdr ++ data ++ rest).take keyvalHdrSize = hdr := by
    rw [List.append_assoc, ← hh, List.take_left]
  have hdrop : (hdr ++ data ++ rest).drop keyvalHdrSize = data ++ rest := by
    rw [List.append_assoc, ← hh, List.drop_left]
  have hsize : leNat (hdr.take 1) + leNat (hdr.drop 1) ≤ (data ++ rest).length := by
    rw [← hd, List.length_append]
    exact Nat.le_add_right _ _
  unfold firstFrame Frame.bytes
  dsimp only
  rw [dif_pos (by rw [← hh, List.append_assoc, List.length_append]; exact Nat.le_add_right _ _)]
  simp only [htake, hdrop]
  rw [dif_pos hsize]
  simp only [← hd, List.take_left]

/-- Bytes too few for a header, or for what the header says. -/
theorem firstFrame_short {content : List UInt8} (h : (content.take keyvalHdrSize).length ≠ keyvalHdrSize) :
    firstFrame content = none := by
  unfold firstFrame
  rw [dif_neg]
  intro hle
  exact h (by rw [List.length_take, Nat.min_eq_left hle])

theorem firstFrame_cut {content hdr : List UInt8} {size : Nat} (hh : content.take keyvalHdrSize = hdr)
    (hs : size = leNat (hdr.take 1) + leNat (hdr.drop 1))
    (h : ((content.drop keyvalHdrSize).take size).length ≠ size) : firstFrame content = none := by
  subst hh hs
  unfold firstFrame
  dsimp only
  split
  · rw [dif_neg]
    intro hle
    exact h (by rw [List.length_take, Nat.min_eq_left hle])
  · rfl

/-- The complete entries of a file from a position on, as long as the position is below `len`. -/
def framesIn (len pos : Nat) (content : List UInt8) : List Frame :=
  if _ : pos < len then
    match firstFrame content with
    | none => []
    | some c => c :: framesIn len (pos + 3 + c.data.length) (content.drop (3 + c.data.length))
  else []
termination_by len - pos

theorem framesIn_done {len pos : Nat} (h : len ≤ pos) (content : List UInt8) : framesIn len pos content = [] := by
  rw [framesIn, dif_neg (Nat.not_lt.2 h)]

theorem framesIn_none {content : List UInt8} (h : firstFrame content = none) (len pos : Nat) :
    framesIn len pos content = [] := by
  rw [framesIn, h]
  split
  all_goals rfl

theorem framesIn_cons {len pos : Nat} (h : pos < len) (c : Frame) (rest : List UInt8) :
    framesIn len pos (c.bytes ++ rest) = c :: framesIn len (pos + 3 + c.data.length) rest := by
  rw [framesIn, dif_pos h, firstFrame_append]
  dsimp only
  rw [← length_frame, List.drop_left]

/-! ## Reading whatever comes -/

/-- Reads give the first of the bytes asked for. -/
theorem readSteps_prefix (steps : List Step) (left : List UInt8) (want : Nat) :
    (readSteps steps left want).1 <+: left.take want := by
  fun_induction readSteps steps left want with
  | case1 => exact List.nil_prefix
  | case2 => exact List.prefix_rfl
  | case3 steps left want hne ih => exact ih
  | case4 => exact List.nil_prefix
  | case5 => exact List.nil_prefix
  | case6 n steps left want hne r hr more steps' heq ih =>
    rw [heq] at ih
    have hle : r ≤ want := (Nat.min_le_right _ _).trans (Nat.min_le_left _ _)
    have hsplit : left.take want = left.take r ++ (left.drop r).take (want - r) := by
      rw [← List.take_add, Nat.add_sub_cancel' hle]
    rw [hsplit]
    exact (List.prefix_append_right_inj _).2 ih

/-- A full read gives what stands at the offset; a read that only may be short gives all there is. -/
structure Gives (want : Nat) (fd : Fd) (d : List UInt8) (fd' : Fd) : Prop where
  bytes : fd'.bytes = fd.bytes
  full : d.length = want → d = (fd.bytes.drop fd.off).take want ∧ fd'.off = fd.off + want
  short : Short fd.steps → d = (fd.bytes.drop fd.off).take want ∧ Short fd'.steps

theorem bioRead_gives (want : Nat) (fd : Fd) : wp (bioRead want) (Gives want fd) fd := by
  have hpre := readSteps_prefix fd.steps (fd.bytes.drop fd.off) want
  refine ⟨rfl, fun h => ?_, fun hs => readSteps_short hs (fd.bytes.drop fd.off) want⟩
  have hlen : (readSteps fd.steps (fd.bytes.drop fd.off) want).1.length = want := h
  refine ⟨hpre.eq_of_length ?_, ?_⟩
  · have hle := hpre.length_le
    have hcut := List.length_take_le want (fd.bytes.drop fd.off)
    omega
  · show fd.off + (readSteps fd.steps (fd.bytes.drop fd.off) want).1.length = _
    rw [hlen]

/-! ## The loop -/

def insertAll (root : KeyvalRoot) (es : List Keyval) : KeyvalRoot := es.foldl (fun t kv => rbInsert kv t) root

/-- What the loop has done when it ends: it has gone through these entries, and has ended for the length if it ends well. -/
structure Loaded (len : Nat) (s : Loading) (cs : List Frame) (r : Bool × Loading) : Prop where
  payloadLen : r.2.payloadLen = s.payloadLen + (bytesOf cs).length
  cksum : r.2.cksum = aloeCrc32 (bytesOf cs) s.cksum
  root : r.2.root = insertAll s.root (cs.map Frame.entry)
  done : r.1 = true ↔ len ≤ r.2.payloadLen

theorem entryOf_data (c : Frame) (rest : List UInt8) :
    entryOf (c.data ++ rest) (leNat (c.hdr.take 1)) (leNat (c.hdr.drop 1)) = c.entry := by
  obtain ⟨hdr, data, hh, hd⟩ := c
  unfold Frame.entry entryOf
  dsimp only at hd ⊢
  rw [List.take_append_of_le_length (by omega), List.drop_append_of_le_length (by omega),
    List.take_append_of_le_length (by rw [List.length_drop]; omega)]

/-- Every allocation succeeds. -/
def Plenty (allocs : List Bool) : Prop := ∀ b ∈ allocs, b = true

theorem Plenty.alloc {allocs : List Bool} (h : Plenty allocs) (need : Bool) :
    (Settings.alloc need allocs).1 = true ∧ Plenty (Settings.alloc need allocs).2 := by
  unfold Settings.alloc
  split
  · cases allocs with
    | nil => exact ⟨rfl, h⟩
    | cons b rest => exact ⟨h b List.mem_cons_self, fun b' hb' => h b' (List.mem_cons_of_mem b hb')⟩
  · exact ⟨rfl, h⟩

/-- Where the loop stops, it takes in nothing more. -/
theorem loaded_stop {len : Nat} {s : Loading} {ok : Bool} (hok : ok = true ↔ len ≤ s.payloadLen) :
    Loaded len s [] (ok, s) where
  payloadLen := rfl
  cksum := (aloeCrc32_nil s.cksum).symm
  root := rfl
  done := hok

/-- A turn that reads an entry, and the turns after it. -/
theorem Loaded.turn {len : Nat} {s : Loading} {c : Frame} {cs : List Frame} {r : Bool × Loading} {fb : List UInt8}
    (h : Loaded len ⟨s.payloadLen + 3 + c.data.length, fb, keyvalCksumUpdate (keyvalCksumUpdate s.cksum c.hdr) c.data,
      rbInsert c.entry s.root⟩ cs r) : Loaded len s (c :: cs) r where
  payloadLen := by
    rw [h.payloadLen, length_bytesOf_cons]
    dsimp only
    omega
  cksum := by
    rw [h.cksum]
    show _ = aloeCrc32 (c.hdr ++ c.data ++ bytesOf cs) s.cksum
    rw [aloeCrc32_append, aloeCrc32_append]
    rfl
  root := h.root
  done := h.done

/-- Two full reads, and what is left behind them. -/
theorem Gives.content {n m : Nat} {fd fd₁ fd₂ : Fd} {raw data : List UInt8} (h₁ : Gives n fd raw fd₁)
    (h₂ : Gives m fd₁ data fd₂) (hraw : raw.length = n) (hdata : data.length = m) :
    fd.bytes.drop fd.off = raw ++ data ++ fd₂.bytes.drop fd₂.off := by
  obtain ⟨heq₁, hoff₁⟩ := h₁.full hraw
  obtain ⟨heq₂, hoff₂⟩ := h₂.full hdata
  have hrest : fd₁.bytes.drop fd₁.off = (fd.bytes.drop fd.off).drop n := by
    rw [h₁.bytes, hoff₁, List.drop_drop]
  rw [h₂.bytes, hoff₂, ← List.drop_drop, heq₂, List.append_assoc, List.take_append_drop, hrest, heq₁,
    List.take_append_drop]

/-- **The loop goes through the entries of the file**, from the first on; where
reads only may be short and memory can be had it goes through them all. -/
theorem loadLoop_frames (noise : UInt8) (len : Nat) (allocs : List Bool) (s : Loading) (fd : Fd) :
    wp (loadLoop noise len allocs s) (fun r _ => ∃ cs, cs <+: framesIn len s.payloadLen (fd.bytes.drop fd.off) ∧
      Loaded len s cs r ∧ (Short fd.steps → Plenty allocs → cs = framesIn len s.payloadLen (fd.bytes.drop fd.off))) fd := by
  -- induction on what the length leaves to read
  induction hn : len - s.payloadLen using Nat.strong_induction_on generalizing s fd allocs with
  | _ n ih =>
    rw [loadLoop]
    by_cases hlt : s.payloadLen < len
    · rw [dif_pos hlt]
      have hcut : Loaded len s [] (false, s) := loaded_stop (iff_of_false Bool.false_ne_true (Nat.not_le.2 hlt))
      refine (bioRead_gives keyvalHdrSize fd).bind (fun raw fd₁ h₁ => ?_)
      by_cases hraw : raw.length ≠ keyvalHdrSize
      · rw [if_pos hraw]
        refine (wp_pure _ _ _).2 ⟨[], List.nil_prefix, hcut, fun hs _ => ?_⟩
        rw [(h₁.short hs).1] at hraw
        rw [framesIn_none (firstFrame_short hraw)]
      · rw [if_neg hraw]
        rw [not_not] at hraw
        obtain ⟨heq₁, hoff₁⟩ := h₁.full hraw
        dsimp only
        generalize hkl : leNat (raw.take 1) = keyLen
        generalize hvl : leNat (raw.drop 1) = valLen
        by_cases hroom : (alloc (decide (keyLen + valLen > s.fb.length)) allocs).1 = false
        · rw [if_pos hroom]
          refine (wp_pure _ _ _).2 ⟨[], List.nil_prefix, hcut, fun _ hp => ?_⟩
          rw [(hp.alloc _).1] at hroom
          cases hroom
        rw [if_neg hroom]
        generalize hallocs : alloc (decide (keyLen + valLen > s.fb.length)) allocs = room at *
        have hplenty (hp : Plenty allocs) : Plenty room.2 := hallocs ▸ (hp.alloc _).2
        refine (bioRead_gives (keyLen + valLen) fd₁).bind (fun data fd₂ h₂ => ?_)
        by_cases hdata : data.length ≠ keyLen + valLen
        · rw [if_pos hdata]
          refine (wp_pure _ _ _).2 ⟨[], List.nil_prefix, hcut, fun hs _ => ?_⟩
          have hrest : fd₁.bytes.drop fd₁.off = (fd.bytes.drop fd.off).drop keyvalHdrSize := by
            rw [h₁.bytes, hoff₁, List.drop_drop]
          rw [(h₂.short (h₁.short hs).2).1, hrest] at hdata
          rw [framesIn_none (firstFrame_cut heq₁.symm (by rw [hkl, hvl]) hdata)]
        · rw [if_neg hdata]
          rw [not_not] at hdata
          by_cases hnode : (alloc true room.2).1 = false ∨ (alloc (decide (valLen > 0)) (alloc true room.2).2).1 = false
          · rw [if_pos hnode]
            refine (wp_pure _ _ _).2 ⟨[], List.nil_prefix, hcut, fun _ hp => ?_⟩
            rw [((hplenty hp).alloc true).1, (((hplenty hp).alloc true).2.alloc _).1] at hnode
            simp at hnode
          rw [if_neg hnode]
          -- a complete entry was read
          let c : Frame := ⟨raw, data, hraw, by rw [hdata, hkl, hvl]⟩
          have hcontent : fd.bytes.drop fd.off = c.bytes ++ fd₂.bytes.drop fd₂.off := h₁.content h₂ hraw hdata
          have hentry := entryOf_data c ((expand noise s.fb (keyLen + valLen)).drop (keyLen + valLen))
          rw [show c.hdr = raw from rfl, hkl, hvl, show c.data = data from rfl] at hentry
          rw [hentry, ← hdata, List.take_left, hcontent, framesIn_cons hlt]
          refine (ih (len - (s.payloadLen + 3 + c.data.length)) (by omega) _ _ fd₂ rfl).mono ?_
          rintro r fd₃ ⟨cs, hpre, hload, hall⟩
          refine ⟨c :: cs, (List.cons_prefix_cons).2 ⟨rfl, hpre⟩, hload.turn, fun hs hp => ?_⟩
          rw [hall (h₂.short (h₁.short hs).2).2 (((hplenty hp).alloc true).2.alloc _).2]
    · rw [dif_neg hlt]
      have hle : len ≤ s.payloadLen := Nat.le_of_not_lt hlt
      exact (wp_pure _ _ _).2 ⟨[], List.nil_prefix, loaded_stop (iff_of_true rfl hle), fun _ _ => (framesIn_done hle _).symm⟩

/-! ## Loading -/

/-- What stands where the header is read. -/
def fileHdr (fd : Fd) : List UInt8 := (fd.bytes.drop fd.off).take settingsHdrSize

/-- The length of the entries, as the header has it. -/
def fileLen (fd : Fd) : Nat := leNat ((fileHdr fd).drop 16)

/-- The complete entries behind the header. -/
def fileFrames (fd : Fd) : List Frame := framesIn (fileLen fd) 0 (fd.bytes.drop (fd.off + settingsHdrSize))

/-- There is a header, of this tag and version if they are asked for. -/
structure Accepts (tag : Block 6) (ver : UInt16) (raw : List UInt8) : Prop where
  size : raw.length = settingsHdrSize
  tag : tag.bytes.headD 0 ≠ 0 → raw.take 6 = tag.bytes
  ver : ver > 0 → ver.toNat = leNat ((raw.drop 6).take 2)

/-- The entries fill the length in the header and have its checksum. -/
def Matches (fd : Fd) (cs : List Frame) : Prop :=
  fileLen fd ≤ (bytesOf cs).length ∧
    cksumBytes (cksumHdr (aloeCrc32 (bytesOf cs) 0) (fileHdr fd)) = ((fileHdr fd).drop 8).take 8

/-- What a load has done: it has put these entries of the file into the tree, and has ended well only
where they match the header. -/
structure LoadedFrom (allocs : List Bool) (root : KeyvalRoot) (tag : Block 6) (ver : UInt16) (fd : Fd) (cs : List Frame)
    (r : Int × KeyvalRoot) : Prop where
  frames : cs <+: fileFrames fd
  tree : r.2 = insertAll root (cs.map Frame.entry)
  refused : ¬ Accepts tag ver (fileHdr fd) → cs = []
  whole : Short fd.steps → Plenty allocs → Accepts tag ver (fileHdr fd) → cs = fileFrames fd
  matched : r.1 ≠ -1 → Matches fd cs
  success : Short fd.steps → Accepts tag ver (fileHdr fd) → Matches fd cs →
    r.1 = toInt ((bytesOf cs).length + settingsHdrSize)

section
variable {allocs : List Bool} {root : KeyvalRoot} {tag : Block 6} {ver : UInt16} {fd : Fd} {raw : List UInt8}

/-- The tests of the header let through what they are for. -/
theorem accepts_of_tests (hraw : raw.length = settingsHdrSize) (htag : ¬ (tag.bytes.headD 0 ≠ 0 ∧ raw.take 6 ≠ tag.bytes))
    (hver : ¬ (ver > 0 ∧ ver.toNat ≠ leNat ((raw.drop 6).take 2))) : Accepts tag ver raw where
  size := hraw
  tag h := by
    by_contra hne
    exact htag ⟨h, hne⟩
  ver h := by
    by_contra hne
    exact hver ⟨h, hne⟩

/-- Before the first entry the tree is as it was. -/
theorem loadedFrom_refused (h : Short fd.steps → ¬ Accepts tag ver (fileHdr fd)) :
    LoadedFrom allocs root tag ver fd [] (-1, root) where
  frames := List.nil_prefix
  tree := rfl
  refused _ := rfl
  whole hs _ ha := absurd ha (h hs)
  matched hne := absurd rfl hne
  success hs ha := absurd ha (h hs)

end

theorem keyvalLoad_frames (noise : UInt8) (allocs : List Bool) (root : KeyvalRoot) (tag : Block 6) (ver : UInt16) (fd : Fd) :
    wp (keyvalLoad noise allocs root tag ver) (fun r _ => ∃ cs, LoadedFrom allocs root tag ver fd cs r) fd := by
  unfold keyvalLoad
  refine (bioRead_gives settingsHdrSize fd).bind (fun raw fd₁ h₁ => ?_)
  by_cases hraw : raw.length ≠ settingsHdrSize
  · rw [if_pos hraw]
    refine (wp_pure _ _ _).2 ⟨[], loadedFrom_refused (fun hs ha => hraw ?_)⟩
    rw [(h₁.short hs).1]
    exact ha.size
  · rw [if_neg hraw]
    rw [not_not] at hraw
    obtain ⟨heq, hoff⟩ := h₁.full hraw
    have hraw' : raw = fileHdr fd := heq
    by_cases htag : tag.bytes.headD 0 ≠ 0 ∧ raw.take 6 ≠ tag.bytes
    · rw [if_pos htag]
      refine (wp_pure _ _ _).2 ⟨[], loadedFrom_refused (fun _ ha => htag.2 ?_)⟩
      rw [hraw', ha.tag htag.1]
    · rw [if_neg htag]
      by_cases hver : ver > 0 ∧ ver.toNat ≠ leNat ((raw.drop 6).take 2)
      · rw [if_pos hver]
        refine (wp_pure _ _ _).2 ⟨[], loadedFrom_refused (fun _ ha => hver.2 ?_)⟩
        rw [hraw', ha.ver hver.1]
      · rw [if_neg hver]
        have hacc : Accepts tag ver (fileHdr fd) := hraw' ▸ accepts_of_tests hraw htag hver
        refine (loadLoop_frames noise (leNat (raw.drop 16)) allocs ⟨0, [], 0, root⟩ fd₁).bind ?_
        rintro ⟨done, s⟩ fd₂ ⟨cs, hpre, hload, hall⟩
        have hin : framesIn (leNat (raw.drop 16)) 0 (fd₁.bytes.drop fd₁.off) = fileFrames fd := by
          rw [h₁.bytes, hoff, hraw']
          rfl
        dsimp only at hpre hall
        rw [hin] at hpre hall
        have hlen : s.payloadLen = (bytesOf cs).length := by
          rw [hload.payloadLen]
          exact Nat.zero_add _
        have hcksum : s.cksum = aloeCrc32 (bytesOf cs) 0 := hload.cksum
        have hend : done = true ↔ fileLen fd ≤ (bytesOf cs).length := by
          rw [← hlen]
          have := hload.done
          rwa [hraw'] at this
        -- every outcome from here has the tree of these entries
        have ends {ret : Int} (hm : ret ≠ -1 → Matches fd cs)
            (hs : Matches fd cs → ret = toInt ((bytesOf cs).length + settingsHdrSize)) :
            ∃ cs, LoadedFrom allocs root tag ver fd cs (ret, s.root) :=
          ⟨cs, hpre, hload.root, fun hn => absurd hacc hn, fun hs hp _ => hall (h₁.short hs).2 hp, hm, fun _ _ => hs⟩
        dsimp only
        by_cases hdone : done = false
        · rw [if_pos hdone]
          refine (wp_pure _ _ _).2 (ends (fun h => absurd rfl h) (fun hm => ?_))
          rw [hend.2 hm.1] at hdone
          exact absurd hdone (by decide)
        · rw [if_neg hdone]
          by_cases hck : cksumBytes (cksumHdr s.cksum raw) ≠ (raw.drop 8).take 8
          · rw [if_pos hck]
            refine (wp_pure _ _ _).2 (ends (fun h => absurd rfl h) (fun hm => absurd ?_ hck))
            rw [hcksum, hraw']
            exact hm.2
          · rw [if_neg hck]
            rw [not_not, hcksum, hraw'] at hck
            refine (wp_pure _ _ _).2 (ends (fun _ => ⟨?_, hck⟩) (fun _ => by rw [hlen]))
            exact hend.1 (Bool.eq_true_of_not_eq_false hdone)

/-! ## Files that make no trouble -/

/-- Every call does all that it is asked for. -/
structure Calm (fd : Fd) : Prop where
  steps : fd.steps = []
  seeks : fd.seeks = []

theorem bioWrite_calm (data : List UInt8) {fd : Fd} (h : Calm fd) :
    wp (bioWrite data) (fun ok fd' => ok = true ∧ Calm fd') fd := by
  obtain ⟨bytes, off, steps, seeks⟩ := fd
  obtain ⟨rfl, rfl⟩ := h
  cases data with
  | nil => exact ⟨rfl, ⟨rfl, rfl⟩⟩
  | cons b data => exact ⟨decide_eq_true rfl, ⟨rfl, rfl⟩⟩

theorem seekSet_calm (off : Nat) {fd : Fd} (h : Calm fd) : wp (seekSet off) (fun ok fd' => ok = true ∧ Calm fd') fd := by
  obtain ⟨bytes, o, steps, seeks⟩ := fd
  obtain ⟨rfl, rfl⟩ := h
  exact ⟨rfl, ⟨rfl, rfl⟩⟩

/-- There is a header to go on with. -/
def GoesOn (r : Option SettingsHdr) (fd' : Fd) : Prop := r.isSome = true ∧ Calm fd'

theorem savePart_calm (data : List UInt8) (h : SettingsHdr) {fd : Fd} (hc : Calm fd) : wp (savePart data h) GoesOn fd := by
  unfold savePart
  refine (bioWrite_calm data hc).bind ?_
  rintro ok fd' ⟨rfl, hc'⟩
  exact (wp_pure _ _ _).2 ⟨rfl, hc'⟩

theorem GoesOn.bind {m : StateM Fd (Option SettingsHdr)} {k : SettingsHdr → StateM Fd (Option SettingsHdr)} {fd : Fd}
    (hm : wp m GoesOn fd) (hk : ∀ h fd', Calm fd' → wp (k h) GoesOn fd') :
    wp (do match ← m with | none => return none | some h => k h) GoesOn fd := by
  refine hm.bind (fun r fd' hr => ?_)
  cases r with
  | none => exact absurd hr.1 (by decide)
  | some h => exact hk h fd' hr.2

theorem saveEntry_calm (kv : Keyval) (h : SettingsHdr) {fd : Fd} (hc : Calm fd) : wp (saveEntry kv h) GoesOn fd := by
  apply GoesOn.bind (savePart_calm _ h hc)
  intro h₁ fd₁ hc₁
  apply GoesOn.bind (savePart_calm _ h₁ hc₁)
  intro h₂ fd₂ hc₂
  unfold saveValue
  split
  · exact savePart_calm _ h₂ hc₂
  · exact (wp_pure _ _ _).2 ⟨rfl, hc₂⟩

theorem saveLoop_calm (root : KeyvalRoot) (h : SettingsHdr) {fd : Fd} (hc : Calm fd) : wp (saveLoop root h) GoesOn fd := by
  induction root generalizing h fd with
  | nil => exact (wp_pure _ _ _).2 ⟨rfl, hc⟩
  | cons kv root ih => exact GoesOn.bind (saveEntry_calm kv h hc) (fun h' fd' hc' => ih h' hc')

/-- Then a tree is saved, and the count is that of the header. -/
theorem keyvalSave_calm (root : KeyvalRoot) (tag : Block 6) (ver : UInt16) {fd : Fd} (hc : Calm fd) :
    (keyvalSave root tag ver fd).1 = toInt ((savedHdr root tag ver).payloadLen.toNat + settingsHdrSize) := by
  suffices h : wp (keyvalSave root tag ver)
      (fun ret _ => ret = toInt ((savedHdr root tag ver).payloadLen.toNat + settingsHdrSize)) fd from h
  unfold keyvalSave
  refine wp_bind.2 ((wp_get _ _).2 ((seekSet_calm _ hc).bind ?_))
  rintro ok fd₁ ⟨rfl, hc₁⟩
  refine ((saveLoop_wp root (newHdr tag ver) fd₁).and (saveLoop_calm root _ hc₁)).bind ?_
  rintro r fd₂ ⟨hgrows, hsome, hc₂⟩
  cases r with
  | none => exact absurd hsome (by decide)
  | some h =>
    obtain ⟨rfl, -⟩ := hgrows h rfl
    refine (seekSet_calm _ hc₂).bind ?_
    rintro ok fd₃ ⟨rfl, hc₃⟩
    refine (bioWrite_calm _ hc₃).bind ?_
    rintro ok fd₄ ⟨rfl, -⟩
    exact (wp_pure _ _ _).2 rfl

end AlgaeBp.Settings
