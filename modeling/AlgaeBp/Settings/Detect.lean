import AlgaeBp.Settings.Checksum
import AlgaeBp.Settings.Frames
/-!
# Corrupted settings

A file whose keys and values were changed in one short burst is read with the
old headers, so the loop takes in bytes that differ from the saved ones in the
burst alone; then the checksum differs.
-/
open Bytes File StateWp Crc

namespace AlgaeBp.Settings

/-! ## The entries of a saved tree -/

theorem strlen_le (key : List UInt8) : strlen key ≤ key.length := (List.takeWhile_sublist _).length_le

theorem hdr_le (kv : Keyval) : kv.hdr.keyLen.toNat ≤ kv.key.length ∧ kv.hdr.valLen.toNat ≤ kv.value.length := by
  have hk : kv.hdr.keyLen.toNat = strlen kv.key % 2 ^ 8 := UInt8.toNat_ofNat'
  have hv : kv.hdr.valLen.toNat = kv.value.length % 2 ^ 16 := UInt16.toNat_ofNat'
  rw [hk, hv]
  exact ⟨(Nat.mod_le _ _).trans (strlen_le kv.key), Nat.mod_le _ _⟩

/-- The lengths in the bytes of a header. -/
theorem hdr_lens (h : KeyvalHdr) : leNat (h.bytes.take 1) = h.keyLen.toNat ∧ leNat (h.bytes.drop 1) = h.valLen.toNat := by
  refine ⟨by simp [KeyvalHdr.bytes, leNat], ?_⟩
  rw [← leNat_le16]
  rfl

/-- What is saved of a key and a value. -/
def Keyval.frame (kv : Keyval) : Frame where
  hdr := kv.hdr.bytes
  data := kv.key.take kv.hdr.keyLen.toNat ++ kv.value.take kv.hdr.valLen.toNat
  hdrSize := rfl
  dataSize := by
    obtain ⟨hk, hv⟩ := hdr_le kv
    rw [List.length_append, List.length_take, List.length_take, Nat.min_eq_left hk, Nat.min_eq_left hv,
      (hdr_lens kv.hdr).1, (hdr_lens kv.hdr).2]

theorem payload_frames (root : KeyvalRoot) : payload root = bytesOf (root.map Keyval.frame) := by
  unfold payload bytesOf
  rw [List.flatMap_map]
  rfl

theorem bytesOf_append (cs cs' : List Frame) : bytesOf (cs ++ cs') = bytesOf cs ++ bytesOf cs' := List.flatMap_append

/-- Entries that stand behind one another are found again. -/
theorem framesIn_bytesOf (cs : List Frame) (rest : List UInt8) (pos : Nat) :
    framesIn (pos + (bytesOf cs).length) pos (bytesOf cs ++ rest) = cs := by
  induction cs generalizing pos with
  | nil => exact framesIn_done (by simp [bytesOf]) _
  | cons c cs ih =>
    have hsize := length_bytesOf_cons c cs
    have hbytes : bytesOf (c :: cs) ++ rest = c.bytes ++ (bytesOf cs ++ rest) := List.append_assoc _ _ _
    have htail := ih (pos + 3 + c.data.length)
    rw [show pos + 3 + c.data.length + (bytesOf cs).length = pos + (bytesOf (c :: cs)).length by omega] at htail
    rw [hbytes, framesIn_cons (by omega), htail]

/-- Some of the entries that take no fewer bytes are all of them. -/
theorem frames_all {cs cs' : List Frame} (h : cs <+: cs')
    (hlen : (bytesOf cs').length ≤ (bytesOf cs).length) : cs = cs' := by
  obtain ⟨t, rfl⟩ := h
  rw [bytesOf_append, List.length_append] at hlen
  cases t with
  | nil => rw [List.append_nil]
  | cons c t =>
    rw [length_bytesOf_cons] at hlen
    omega

/-! ## Keys and values in a file -/

/-- Which bytes of an entry are of its key or value. -/
def Frame.mask (c : Frame) : List Bool := List.replicate 3 false ++ List.replicate c.data.length true

def maskOf (cs : List Frame) : List Bool := cs.flatMap Frame.mask

theorem length_mask (c : Frame) : c.mask.length = c.bytes.length := by
  rw [length_frame, Frame.mask, List.length_append, List.length_replicate, List.length_replicate]

/-- Bytes that differ in keys and values only are entries with the old headers. -/
theorem reframe {cs : List Frame} {d : List UInt8} (hlen : d.length = (bytesOf cs).length)
    (h : ∀ j : Nat, d[j]? ≠ (bytesOf cs)[j]? → (maskOf cs)[j]? = some true) : ∃ cs', bytesOf cs' = d := by
  induction cs generalizing d with
  | nil => exact ⟨[], (List.length_eq_zero_iff.1 hlen).symm⟩
  | cons c cs ih =>
    have hsize := length_bytesOf_cons c cs
    have hc := length_frame c
    have hm := length_mask c
    have hbytes : bytesOf (c :: cs) = c.bytes ++ bytesOf cs := rfl
    have hmask : maskOf (c :: cs) = c.mask ++ maskOf cs := rfl
    -- the header is as it was
    have hhdr : d.take 3 = c.hdr := by
      have h3 : c.hdr.length = 3 := c.hdrSize
      apply List.ext_getElem?
      intro i
      by_cases hi : i < 3
      · have hold : (bytesOf (c :: cs))[i]? = c.hdr[i]? := by
          rw [hbytes, List.getElem?_append_left (by omega), Frame.bytes, List.getElem?_append_left (by omega)]
        rw [List.getElem?_take_of_lt hi, ← hold]
        by_contra hne
        have := h i hne
        rw [hmask, List.getElem?_append_left (by omega), Frame.mask,
          List.getElem?_append_left (by simpa using hi), List.getElem?_replicate, if_pos hi] at this
        simp at this
      · rw [List.getElem?_eq_none (by rw [List.length_take]; omega), List.getElem?_eq_none (by omega)]
    have hdata : ((d.drop 3).take c.data.length).length = c.data.length := by
      rw [List.length_take, List.length_drop]
      omega
    obtain ⟨cs', hcs'⟩ := ih (d := d.drop (3 + c.data.length)) (by rw [List.length_drop]; omega) (fun j hj => by
      have hnext := h (c.bytes.length + j) (by
        rw [hbytes, List.getElem?_append_right (Nat.le_add_right _ _), Nat.add_sub_cancel_left, hc]
        rwa [List.getElem?_drop] at hj)
      rwa [hmask, List.getElem?_append_right (by omega), hm, Nat.add_sub_cancel_left] at hnext)
    refine ⟨⟨d.take 3, (d.drop 3).take c.data.length, by rw [hhdr]; exact c.hdrSize, ?_⟩ :: cs', ?_⟩
    · rw [hdata, hhdr]
      exact c.dataSize
    · show d.take 3 ++ (d.drop 3).take c.data.length ++ bytesOf cs' = d
      rw [hcs', List.append_assoc, ← List.drop_drop, List.take_append_drop, List.take_append_drop]

/-! ## Bursts -/

theorem bitsOf_append (a b : List UInt8) : bitsOf (a ++ b) = bitsOf a ++ bitsOf b := by
  unfold bitsOf message
  rw [List.map_append, List.flatMap_append]

theorem length_bitsOf (a : List UInt8) : (bitsOf a).length = a.length * 8 := by
  unfold bitsOf
  rw [length_message, List.length_map]

theorem bitsOf_injective : Function.Injective bitsOf := by
  intro a b h
  have hmap := message_injective (by decide) h
  exact List.map_injective_iff.2 (fun x y hxy => UInt8.toBitVec_inj.1 hxy) hmap

/-- The strings differ in no more than 32 consecutive bits, counted from the lowest of each byte. -/
def Burst (a b : List UInt8) : Prop := ∃ p, ∀ i, (bitsOf a)[i]? ≠ (bitsOf b)[i]? → p ≤ i ∧ i < p + 32

/-- A burst is seen by the checksum, whatever follows. -/
theorem aloeCrc32_burst {a b : List UInt8} (hlen : a.length = b.length) (h : Burst a b) (t : List UInt8) (c : UInt32)
    (hcrc : aloeCrc32 (a ++ t) c = aloeCrc32 (b ++ t) c) : a = b := by
  obtain ⟨p, hp⟩ := h
  obtain ⟨u, m, m', v, ha, hb, hm, hmn⟩ := window_split (by rw [length_bitsOf, length_bitsOf, hlen]) hp
  have hmsg (x : List UInt8) : message ((x ++ t).map UInt8.toBitVec) = bitsOf x ++ bitsOf t := bitsOf_append x t
  have hrun : run reversedPoly (~~~ c.toBitVec) ((a ++ t).map UInt8.toBitVec) =
      run reversedPoly (~~~ c.toBitVec) ((b ++ t).map UInt8.toBitVec) := by
    have hbv := congrArg UInt32.toBitVec hcrc
    rw [aloeCrc32_toBitVec, aloeCrc32_toBitVec] at hbv
    exact BitVec.not_inj.1 hbv
  have hmm : m = m' := by
    apply burst reversedPoly (by decide) (by decide) (by decide) (u := u) (v := v ++ bitsOf t) ?_ ?_ hm hmn hrun
    · rw [hmsg, ha, List.append_assoc]
    · rw [hmsg, hb, List.append_assoc]
  apply bitsOf_injective
  rw [ha, hb, hmm]

/-! ## A corrupted file -/

/-- Which bytes behind the header of a saved tree are of a key or a value. -/
def dataMask (root : KeyvalRoot) : List Bool := maskOf (root.map Keyval.frame)

/-- A file like one the tree was saved to at the offset, but other: keys and values differ, in one short burst. -/
structure Corrupted (root : KeyvalRoot) (off : Nat) (f f' : List UInt8) : Prop where
  length : f'.length = f.length
  inside : ∀ i : Nat, f'[i]? ≠ f[i]? → ∃ j, i = off + settingsHdrSize + j ∧ (dataMask root)[j]? = some true
  burst : Burst f' f
  other : f' ≠ f

/-- A window of the whole is one of a part. -/
theorem burst_of_append {pre post a b : List UInt8} (h : Burst (pre ++ a ++ post) (pre ++ b ++ post))
    (hlen : a.length = b.length) : Burst a b := by
  obtain ⟨p, hp⟩ := h
  have ha := length_bitsOf a
  have hb := length_bitsOf b
  refine ⟨p - (bitsOf pre).length, fun i hne => ?_⟩
  have hi : i < (bitsOf a).length := by
    by_contra hge
    apply hne
    rw [List.getElem?_eq_none (by omega), List.getElem?_eq_none (by omega)]
  have part {x : List UInt8} (hx : i < (bitsOf x).length) :
      (bitsOf (pre ++ x ++ post))[(bitsOf pre).length + i]? = (bitsOf x)[i]? := by
    rw [bitsOf_append, bitsOf_append, List.append_assoc, List.getElem?_append_right (Nat.le_add_right _ _),
      Nat.add_sub_cancel_left, List.getElem?_append_left hx]
  have := hp ((bitsOf pre).length + i) (by rwa [part hi, part (by omega)])
  omega

theorem length_maskOf (cs : List Frame) : (maskOf cs).length = (bytesOf cs).length := by
  induction cs with
  | nil => rfl
  | cons c cs ih =>
    show (c.mask ++ maskOf cs).length = (c.bytes ++ bytesOf cs).length
    rw [List.length_append, List.length_append, length_mask, ih]

/-- A corrupted file has the old header, and other entries in the place of the old ones. -/
theorem Corrupted.entries {root : KeyvalRoot} {off : Nat} {f f' hdr : List UInt8} (h : Corrupted root off f f')
    (hh : hdr.length = settingsHdrSize) (hat : At f off (hdr ++ payload root)) :
    ∃ cs, At f' off (hdr ++ bytesOf cs) ∧ (bytesOf cs).length = (payload root).length ∧
      Burst (bytesOf cs) (payload root) ∧ bytesOf cs ≠ payload root := by
  obtain ⟨rest, hrest⟩ := hat
  have hoff : off ≤ f.length := by
    by_contra hlt
    rw [List.drop_eq_nil_of_le (by omega)] at hrest
    have := congrArg List.length hrest
    simp [hh, settingsHdrSize] at this
  have hlen := h.length
  have hmask : (dataMask root).length = (payload root).length := by
    rw [dataMask, length_maskOf, payload_frames]
  -- `f` is cut where the entries begin and end
  generalize hpre : f.take off ++ hdr = pre
  have hplen : pre.length = off + settingsHdrSize := by
    rw [← hpre, List.length_append, hh, List.length_take, Nat.min_eq_left hoff]
  have hf : f = pre ++ payload root ++ rest := by
    rw [← hpre, List.append_assoc, List.append_assoc, ← List.append_assoc hdr, hrest, List.take_append_drop]
  have hflen : f.length = pre.length + (payload root).length + rest.length := by
    rw [hf, List.length_append, List.length_append]
  have same {i : Nat} (hi : i < pre.length ∨ pre.length + (payload root).length ≤ i) : f'[i]? = f[i]? := by
    by_contra hne
    obtain ⟨j, rfl, hj⟩ := h.inside i hne
    have : j < (dataMask root).length := (List.getElem?_eq_some_iff.1 hj).1
    omega
  have hpre' : f'.take pre.length = pre := by
    have hold : f.take pre.length = pre := by rw [hf, List.append_assoc, List.take_left]
    refine Eq.trans ?_ hold
    apply List.ext_getElem?
    intro i
    rw [List.getElem?_take, List.getElem?_take]
    split_ifs with hi
    · exact same (Or.inl hi)
    · rfl
  have hrest' : f'.drop (pre.length + (payload root).length) = rest := by
    have hold : f.drop (pre.length + (payload root).length) = rest := by
      rw [hf, ← List.length_append, List.drop_left]
    rw [← hold]
    apply List.ext_getElem?
    intro i
    rw [List.getElem?_drop, List.getElem?_drop]
    exact same (Or.inr (by omega))
  generalize hd : (f'.drop pre.length).take (payload root).length = d
  have hdlen : d.length = (payload root).length := by
    rw [← hd, List.length_take, List.length_drop]
    omega
  have hf' : f' = pre ++ d ++ rest := by
    rw [← hrest', ← List.drop_drop, ← hd, List.append_assoc, List.take_append_drop]
    conv => lhs; rw [← List.take_append_drop pre.length f', hpre']
  have hinside (j : Nat) (hne : d[j]? ≠ (bytesOf (root.map Keyval.frame))[j]?) :
      (maskOf (root.map Keyval.frame))[j]? = some true := by
    rw [← payload_frames] at hne
    have hj : j < d.length := by
      by_contra hge
      apply hne
      rw [List.getElem?_eq_none (by omega), List.getElem?_eq_none (by omega)]
    have part {x : List UInt8} (hx : j < x.length) : (pre ++ x ++ rest)[pre.length + j]? = x[j]? := by
      rw [List.append_assoc, List.getElem?_append_right (Nat.le_add_right _ _), Nat.add_sub_cancel_left,
        List.getElem?_append_left hx]
    obtain ⟨j', hjj, hm⟩ := h.inside (pre.length + j) (by rw [hf', hf, part hj, part (by omega)]; exact hne)
    have : j' = j := by omega
    rwa [this] at hm
  obtain ⟨cs, hcs⟩ := reframe (by rw [hdlen, payload_frames]) hinside
  refine ⟨cs, ⟨rest, ?_⟩, ?_, ?_, ?_⟩
  · rw [hcs]
    have hdrop := congrArg (List.drop off) hf'
    rw [hdrop, ← hpre, List.append_assoc, List.append_assoc, List.append_assoc,
      List.drop_left' (by rw [List.length_take, Nat.min_eq_left hoff])]
  · rw [hcs, hdlen]
  · rw [hcs]
    have hb := h.burst
    rw [hf', hf] at hb
    exact burst_of_append hb hdlen
  · rw [hcs]
    rintro rfl
    exact h.other (by rw [hf', hf])

/-! ## Detection -/

theorem cksumBytes_injective : Function.Injective cksumBytes := by
  intro a b h
  have h4 := (List.append_inj h (by rw [length_leBytes, length_leBytes])).1
  have hnat := congrArg leNat h4
  rw [leNat_leBytes (by have := a.toNat_lt; omega), leNat_leBytes (by have := b.toNat_lt; omega)] at hnat
  exact UInt32.toNat_inj.1 hnat

theorem cksumHdr_eq (d raw : List UInt8) :
    cksumHdr (aloeCrc32 d 0) raw = aloeCrc32 (d ++ (raw.take 8 ++ raw.drop 16)) 0 := by
  rw [aloeCrc32_append, aloeCrc32_append]
  rfl

theorem fileHdr_saved {root : KeyvalRoot} {tag : Block 6} {ver : UInt16} {fd : Fd}
    (hat : At fd.bytes fd.off (savedHdr root tag ver).bytes) :
    fileHdr fd = (savedHdr root tag ver).bytes ∧ fileLen fd = (savedHdr root tag ver).payloadLen.toNat := by
  obtain ⟨-, -, -, -, hpl⟩ := SettingsHdr.fields (h := savedHdr root tag ver) (length_newTag tag ver)
  have hhdr : fileHdr fd = (savedHdr root tag ver).bytes := by
    unfold fileHdr
    rw [← length_hdr root tag ver]
    exact hat.take
  refine ⟨hhdr, ?_⟩
  unfold fileLen
  rw [hhdr, hpl, leNat_leBytes (by have := (savedHdr root tag ver).payloadLen.toNat_lt; omega)]

/-- Behind a saved header stand the entries. -/
theorem fileFrames_saved {root : KeyvalRoot} {tag : Block 6} {ver : UInt16} {fd : Fd} {cs : List Frame}
    (hat : At fd.bytes fd.off ((savedHdr root tag ver).bytes ++ bytesOf cs))
    (hlen : (savedHdr root tag ver).payloadLen.toNat = (bytesOf cs).length) : fileFrames fd = cs := by
  rw [at_append, length_hdr] at hat
  obtain ⟨hat₁, rest, hrest⟩ := hat
  have hfound := framesIn_bytesOf cs rest 0
  rw [Nat.zero_add] at hfound
  unfold fileFrames
  rw [(fileHdr_saved hat₁).2, hlen, ← hrest, hfound]

/-- Where the entries behind a saved header are those of the file, a load that
ends well has gone through all of them and found their checksum in the header. -/
theorem load_saved {root : KeyvalRoot} {tag : Block 6} {ver : UInt16} {fd : Fd} {cs : List Frame}
    (hat : At fd.bytes fd.off ((savedHdr root tag ver).bytes ++ bytesOf cs))
    (hlen : (savedHdr root tag ver).payloadLen.toNat = (bytesOf cs).length) {noise : UInt8} {allocs : List Bool}
    {root' : KeyvalRoot} (hok : (keyvalLoad noise allocs root' tag ver fd).1.1 ≠ -1) :
    cksumHdr (aloeCrc32 (bytesOf cs) 0) (savedHdr root tag ver).bytes = (savedHdr root tag ver).cksum := by
  obtain ⟨-, -, -, hck, -⟩ := SettingsHdr.fields (h := savedHdr root tag ver) (length_newTag tag ver)
  obtain ⟨hhdr, hflen⟩ := fileHdr_saved (at_append.1 hat).1
  obtain ⟨cs', hload⟩ := keyvalLoad_frames noise allocs root' tag ver fd
  obtain ⟨hle, hsum⟩ := hload.matched hok
  have hpre := hload.frames
  rw [fileFrames_saved hat hlen] at hpre
  rw [hflen, hlen] at hle
  obtain rfl := frames_all hpre hle
  rw [hhdr, hck] at hsum
  exact cksumBytes_injective hsum

/-- **Corrupted keys and values are detected.** Where a tree was saved whose
entries take less than 2^32 bytes, a load from a file that differs in one burst
of no more than 32 bits within keys and values fails, whatever `read` and
`malloc` do and whatever the tree it loads into. -/
theorem load_detects (root : KeyvalRoot) (hsize : (payload root).length < 2 ^ 32) (tag : Block 6) (ver : UInt16) (fd : Fd)
    (hok : 0 ≤ (keyvalSave root tag ver fd).1) (f' : List UInt8)
    (hcor : Corrupted root fd.off (keyvalSave root tag ver fd).2.bytes f') (noise : UInt8) (allocs : List Bool)
    (root' : KeyvalRoot) (steps : List Step) (seeks : List Bool) :
    (keyvalLoad noise allocs root' tag ver ⟨f', fd.off, steps, seeks⟩).1.1 = -1 := by
  obtain ⟨-, hat⟩ := keyvalSave_wp root tag ver fd hok
  obtain ⟨cs, hat', hlen, hburst, hne⟩ := hcor.entries (length_hdr root tag ver) hat
  by_contra hret
  have hsum := @load_saved root tag ver ⟨f', fd.off, steps, seeks⟩ cs hat'
    (by rw [payloadLen_saved hsize, hlen]) noise allocs root' hret
  rw [← savedHdr_cksum, cksumHdr_eq, cksumHdr_eq] at hsum
  exact hne (aloeCrc32_burst hlen hburst _ _ hsum)

/-! ## One changed byte -/

theorem burst_set (f : List UInt8) (i : Nat) (b : UInt8) : Burst (f.set i b) f := by
  refine ⟨8 * i, fun j hne => ?_⟩
  by_cases hi : i < f.length
  · have hset : f.set i b = f.take i ++ ([b] ++ f.drop (i + 1)) := by
      rw [List.set_eq_take_append_cons_drop, if_pos hi]
      rfl
    have hf : f = f.take i ++ ([f[i]] ++ f.drop (i + 1)) := by
      rw [List.singleton_append, ← List.drop_eq_getElem_cons hi, List.take_append_drop]
    have hbits (x : UInt8) : bitsOf (f.take i ++ ([x] ++ f.drop (i + 1))) =
        bitsOf (f.take i) ++ (bitsOf [x] ++ bitsOf (f.drop (i + 1))) := by
      rw [bitsOf_append, bitsOf_append]
    have hlen : (bitsOf (f.take i)).length = 8 * i := by
      rw [length_bitsOf, List.length_take, Nat.min_eq_left hi.le]
      omega
    have hone (x : UInt8) : (bitsOf [x]).length = 8 := length_bitsOf [x]
    rw [hset] at hne
    conv at hne => rhs; rw [hf]
    rw [hbits, hbits] at hne
    constructor
    · by_contra hlt
      apply hne
      rw [List.getElem?_append_left (by omega), List.getElem?_append_left (by omega)]
    · by_contra hge
      apply hne
      have hb := hone b
      have hi := hone f[i]
      rw [List.getElem?_append_right (by omega), List.getElem?_append_right (by omega),
        List.getElem?_append_right (by omega), List.getElem?_append_right (by omega), hb, hi]
  · rw [List.set_eq_of_length_le (Nat.le_of_not_lt hi)] at hne
    exact absurd rfl hne

theorem corrupted_set {root : KeyvalRoot} {off j : Nat} {f : List UInt8} {a b : UInt8}
    (hj : (dataMask root)[j]? = some true) (ha : f[off + settingsHdrSize + j]? = some a) (hne : b ≠ a) :
    Corrupted root off f (f.set (off + settingsHdrSize + j) b) := by
  obtain ⟨hlt, hget⟩ := List.getElem?_eq_some_iff.1 ha
  refine ⟨List.length_set, fun i hi => ⟨j, ?_, hj⟩, burst_set f _ b, fun h => hne ?_⟩
  · by_contra hij
    exact hi (List.getElem?_set_ne (Ne.symm hij))
  · have := congrArg (fun l => l[off + settingsHdrSize + j]?) h
    rw [List.getElem?_set_self hlt, ha] at this
    exact Option.some.inj this

/-- A key and a value of one byte each. -/
def oneKey : KeyvalRoot := [⟨[0x61], [0x62]⟩]

def newFile : Fd := ⟨[], 0, [], []⟩

theorem load_detects_flip :
    (keyvalLoad 0 [] [] (Block.fill 6 0x74) 1
      ⟨(keyvalSave oneKey (Block.fill 6 0x74) 1 newFile).2.bytes.set 24 0x63, 0, [.count 7, .eintr], []⟩).1.1 = -1 :=
  load_detects oneKey (by decide) (Block.fill 6 0x74) 1 newFile (by decide +kernel) _
    (corrupted_set (j := 4) (a := 0x62) (by decide) (by decide +kernel) (by decide)) 0 [] [] _ _

/-! ## Trees the length does not hold -/

/-- The four bytes behind some others can be such that the checksum is any. -/
theorem crc_reaches (a : List UInt8) (t : UInt32) : ∃ l : List UInt8, l.length = 4 ∧ aloeCrc32 (a ++ l) 0 = t := by
  let g : Fin (2 ^ 32) → Fin (2 ^ 32) := fun w => ⟨(aloeCrc32 (a ++ leBytes 4 w) 0).toNat, UInt32.toNat_lt _⟩
  have hinj : Function.Injective g := by
    intro v w h
    have hcrc : aloeCrc32 (a ++ leBytes 4 v) 0 = aloeCrc32 (a ++ leBytes 4 w) 0 :=
      UInt32.toNat_inj.1 (Fin.mk.inj h)
    have hlen : (a ++ leBytes 4 v).length = (a ++ leBytes 4 w).length := by simp
    have hburst : Burst (a ++ leBytes 4 v) (a ++ leBytes 4 w) := by
      refine ⟨(bitsOf a).length, fun i hne => ?_⟩
      rw [bitsOf_append, bitsOf_append] at hne
      have hv := length_bitsOf (leBytes 4 v)
      have hw := length_bitsOf (leBytes 4 w)
      rw [length_leBytes] at hv hw
      constructor
      · by_contra hlt
        apply hne
        rw [List.getElem?_append_left (by omega), List.getElem?_append_left (by omega)]
      · by_contra hge
        apply hne
        rw [List.getElem?_eq_none (by rw [List.length_append]; omega),
          List.getElem?_eq_none (by rw [List.length_append]; omega)]
    have heq := aloeCrc32_burst hlen hburst [] 0 (by rw [List.append_nil, List.append_nil, hcrc])
    have hbytes := congrArg leNat (List.append_cancel_left heq)
    rw [leNat_leBytes (by have := v.isLt; omega), leNat_leBytes (by have := w.isLt; omega)] at hbytes
    exact Fin.ext hbytes
  obtain ⟨w, hw⟩ := Finite.surjective_of_injective hinj ⟨t.toNat, t.toNat_lt⟩
  exact ⟨leBytes 4 w, length_leBytes 4 w, UInt32.toNat_inj.1 (Fin.mk.inj hw)⟩

/-- A key of three bytes without NUL, for every number below 255^3. -/
def numberKey (i : Nat) : List UInt8 :=
  [UInt8.ofNat (1 + i / 65025 % 255), UInt8.ofNat (1 + i / 255 % 255), UInt8.ofNat (1 + i % 255)]

theorem toNat_digit (d : Nat) : (UInt8.ofNat (1 + d % 255)).toNat = 1 + d % 255 := by
  rw [UInt8.toNat_ofNat']
  omega

theorem digit_ne_zero (d : Nat) : UInt8.ofNat (1 + d % 255) ≠ 0 := by
  intro h
  have := congrArg UInt8.toNat h
  rw [toNat_digit] at this
  simp at this

theorem numberKey_nul (i : Nat) : 0 ∉ numberKey i := by
  intro h
  simp only [numberKey, List.mem_cons, List.not_mem_nil, or_false] at h
  rcases h with h | h | h
  all_goals exact digit_ne_zero _ h.symm

theorem numberKey_lt {i j : Nat} (hij : i < j) (hj : j < 65025 * 255) : strcmp (numberKey i) (numberKey j) = .lt := by
  have hlt (a b : Nat) : UInt8.ofNat (1 + a % 255) < UInt8.ofNat (1 + b % 255) ↔ a % 255 < b % 255 := by
    rw [UInt8.lt_iff_toNat_lt, toNat_digit, toNat_digit]
    omega
  unfold numberKey
  simp only [strcmp, hlt, digit_ne_zero, if_false]
  split_ifs
  all_goals first | rfl | omega

/-- Keys by number, each with a value. -/
def numbered (vals : Nat → List UInt8) (n : Nat) : KeyvalRoot := (List.range n).map (fun i => ⟨numberKey i, vals i⟩)

theorem numbered_ascending (vals : Nat → List UInt8) {n : Nat} (hn : n ≤ 65025 * 255) : Ascending (numbered vals n) := by
  unfold Ascending numbered
  rw [List.pairwise_map]
  refine List.pairwise_lt_range.imp_of_mem (fun {i j} _ hj hij => numberKey_lt hij ?_)
  exact lt_of_lt_of_le (List.mem_range.1 hj) hn

theorem numbered_fits {vals : Nat → List UInt8} {n : Nat} (h : ∀ i, (vals i).length ≤ 65535) :
    ∀ kv ∈ numbered vals n, kv.Fits := by
  intro kv hkv
  obtain ⟨i, -, rfl⟩ := List.mem_map.1 hkv
  exact ⟨by show (3 : Nat) ≤ 255; omega, h i, numberKey_nul i⟩

theorem numbered_succ (vals : Nat → List UInt8) (n : Nat) :
    numbered vals (n + 1) = numbered vals n ++ [⟨numberKey n, vals n⟩] := by
  unfold numbered
  rw [List.range_succ, List.map_append]
  rfl

theorem totalSize_numbered {vals : Nat → List UInt8} {v : Nat} (h : ∀ i, (vals i).length = v) (n : Nat) :
    totalSize (numbered vals n) = n * (6 + v) := by
  induction n with
  | zero => simp [numbered, totalSize]
  | succ n ih =>
    have happ (a b : KeyvalRoot) : totalSize (a ++ b) = totalSize a + totalSize b := by
      unfold totalSize
      rw [List.map_append, List.sum_append]
    rw [numbered_succ, happ, ih]
    have hlast : totalSize [⟨numberKey n, vals n⟩] = 6 + v := by
      simp [totalSize, numberKey, h n]
    rw [hlast, Nat.succ_mul]

/-- Values of one length, in the last of which four bytes are left to choose. -/
def lastChosen (n v : Nat) (l : List UInt8) (i : Nat) : List UInt8 :=
  if i = n then List.replicate v 0 ++ l else List.replicate (v + 4) 0

/-- There is a tree whose entries take 2^32 bytes and have the checksum of nothing. -/
theorem exists_wrapping : ∃ root, Ascending root ∧ (∀ kv ∈ root, kv.Fits) ∧ (payload root).length = 2 ^ 32 ∧
    aloeCrc32 (payload root) 0 = 0 ∧ root ≠ [] ∧ ∀ kv ∈ root, kv.key.length = 3 := by
  generalize hn : 65535 = n
  generalize hv : 65526 = v
  have hlen {l : List UInt8} (hl : l.length = 4) (i : Nat) : (lastChosen n v l i).length = v + 4 := by
    unfold lastChosen
    split <;> simp [hl]
  have hfits {l : List UInt8} (hl : l.length = 4) : ∀ kv ∈ numbered (lastChosen n v l) (n + 1), kv.Fits :=
    numbered_fits (fun i => by rw [hlen hl]; omega)
  -- only the last four bytes of the payload depend on the choice
  have hpay : ∃ a, ∀ l : List UInt8, l.length = 4 → payload (numbered (lastChosen n v l) (n + 1)) = a ++ l := by
    refine ⟨payload (numbered (fun _ => List.replicate (v + 4) 0) n) ++
      (KeyvalHdr.bytes ⟨3, UInt16.ofNat (v + 4)⟩ ++ (numberKey n ++ List.replicate v 0)), fun l hl => ?_⟩
    have hfirst : numbered (lastChosen n v l) n = numbered (fun _ => List.replicate (v + 4) 0) n := by
      unfold numbered
      apply List.map_congr_left
      intro i hi
      rw [lastChosen, if_neg (List.mem_range.1 hi).ne]
    have hlast : (lastChosen n v l n) = List.replicate v 0 ++ l := if_pos rfl
    have hkv := hfits hl ⟨numberKey n, lastChosen n v l n⟩ (by rw [numbered_succ]; simp)
    have hhdr : (Keyval.mk (numberKey n) (lastChosen n v l n)).hdr = ⟨3, UInt16.ofNat (v + 4)⟩ := by
      unfold Keyval.hdr
      rw [strlen_nul hkv.nul, hlen hl]
      rfl
    have happ (x y : KeyvalRoot) : payload (x ++ y) = payload x ++ payload y := List.flatMap_append
    have hsingle (kv : Keyval) : payload [kv] = kv.bytes := List.append_nil _
    rw [numbered_succ, happ, hfirst, hsingle, hkv.bytes_eq, hhdr, hlast]
    simp only [List.append_assoc]
  obtain ⟨a, ha⟩ := hpay
  obtain ⟨l, hl, hcrc⟩ := crc_reaches a 0
  refine ⟨numbered (lastChosen n v l) (n + 1), numbered_ascending _ (by omega), hfits hl, ?_, ?_, ?_, ?_⟩
  · rw [length_payload (hfits hl), totalSize_numbered (hlen hl), ← hn, ← hv]
    norm_num
  · rw [ha l hl, hcrc]
  · rw [numbered_succ]
    simp
  · intro kv hkv
    obtain ⟨i, -, rfl⟩ := List.mem_map.1 hkv
    rfl

theorem accepts_saved (root : KeyvalRoot) (tag : Block 6) (ver : UInt16) :
    Accepts tag ver (savedHdr root tag ver).bytes := by
  obtain ⟨htag, hver, -, -, -⟩ := SettingsHdr.fields (h := savedHdr root tag ver) (length_newTag tag ver)
  refine ⟨length_hdr root tag ver, fun h => ?_, fun _ => ?_⟩
  · rw [htag]
    exact if_pos h
  · rw [hver, leNat_le16]
    rfl

/-- A header that says that there are no entries is enough where their checksum is that of nothing. -/
theorem load_nothing {root : KeyvalRoot} {tag : Block 6} {ver : UInt16} {fd : Fd} (hs : Short fd.steps)
    (hat : At fd.bytes fd.off (savedHdr root tag ver).bytes) (hlen : (savedHdr root tag ver).payloadLen.toNat = 0)
    (hcrc : aloeCrc32 (payload root) 0 = 0) (noise : UInt8) (root' : KeyvalRoot) :
    (keyvalLoad noise [] root' tag ver fd).1.1 = 20 := by
  obtain ⟨-, -, -, hck, -⟩ := SettingsHdr.fields (h := savedHdr root tag ver) (length_newTag tag ver)
  obtain ⟨hhdr, hflen⟩ := fileHdr_saved hat
  rw [hlen] at hflen
  obtain ⟨cs, hload⟩ := keyvalLoad_frames noise [] root' tag ver fd
  have hnone : cs = [] := by
    have hpre := hload.frames
    rw [fileFrames, hflen, framesIn_done le_rfl] at hpre
    exact List.prefix_nil.1 hpre
  subst hnone
  have hmatch : Matches fd [] := by
    refine ⟨hflen.le, ?_⟩
    rw [hhdr, hck, ← savedHdr_cksum, hcrc]
    rfl
  rw [hload.success hs (by rw [hhdr]; exact accepts_saved root tag ver) hmatch]
  rfl

/-- **The length wraps.** The header of a tree of 2^32 bytes says that there are
none, and with the checksum of nothing any corrupted file is loaded. -/
theorem load_detects_not_all :
    ¬ ∀ (root : KeyvalRoot), Ascending root → (∀ kv ∈ root, kv.Fits) → ∀ (tag : Block 6) (ver : UInt16) (fd : Fd),
      0 ≤ (keyvalSave root tag ver fd).1 → ∀ f', Corrupted root fd.off (keyvalSave root tag ver fd).2.bytes f' →
        ∀ (noise : UInt8) (root' : KeyvalRoot) (steps : List Step) (seeks : List Bool),
          (keyvalLoad noise [] root' tag ver ⟨f', fd.off, steps, seeks⟩).1.1 = -1 := by
  intro hall
  obtain ⟨root, hasc, hfits, hlen, hcrc, hne, hkeys⟩ := exists_wrapping
  have hwrap : (savedHdr root (Block.fill 6 0x74) 1).payloadLen.toNat = 0 := by
    show (0 + UInt32.ofNat (payload root).length).toNat = 0
    rw [UInt32.zero_add, UInt32.toNat_ofNat', hlen, Nat.mod_self]
  have hok : 0 ≤ (keyvalSave root (Block.fill 6 0x74) 1 newFile).1 := by
    rw [keyvalSave_calm root _ 1 ⟨rfl, rfl⟩, hwrap]
    decide
  obtain ⟨-, hat⟩ := keyvalSave_wp root (Block.fill 6 0x74) 1 newFile hok
  have hsz := length_hdr root (Block.fill 6 0x74) 1
  -- the first byte of the first key is changed
  have hj : (dataMask root)[3]? = some true := by
    obtain ⟨kv, rest, rfl⟩ := List.exists_cons_of_ne_nil hne
    have hmask : dataMask (kv :: rest) = List.replicate 3 false ++
        (List.replicate kv.frame.data.length true ++ dataMask rest) := List.append_assoc _ _ _
    have hkey := (hfits kv List.mem_cons_self).hdr.1
    have hk3 := hkeys kv List.mem_cons_self
    have hdata : 0 < kv.frame.data.length := by
      show 0 < (kv.key.take kv.hdr.keyLen.toNat ++ _).length
      rw [hkey, List.take_length, List.length_append]
      omega
    rw [hmask, List.getElem?_append_right (by simp), List.getElem?_append_left (by simpa using hdata)]
    simp [hdata]
  obtain ⟨a, ha⟩ : ∃ a, (keyvalSave root
      (Block.fill 6 0x74) 1 newFile).2.bytes[newFile.off + settingsHdrSize + 3]? = some a := by
    have hle := hat.length_le
    rw [List.length_append, hsz, hlen, List.length_drop] at hle
    have h20 : settingsHdrSize = 20 := rfl
    exact ⟨_, List.getElem?_eq_getElem (by omega)⟩
  have hflip : a ^^^ 1 ≠ a := by
    intro h
    have hone : a ^^^ (a ^^^ 1) = a ^^^ a := congrArg (a ^^^ ·) h
    rw [← UInt8.xor_assoc, UInt8.xor_self, UInt8.zero_xor] at hone
    exact absurd hone (by decide)
  have hcor := corrupted_set hj ha hflip
  obtain ⟨cs, hat', -, -, -⟩ := hcor.entries hsz hat
  have hload := hall root hasc hfits _ 1 newFile hok _ hcor 0 [] [] []
  rw [load_nothing (fun _ h => absurd h List.not_mem_nil) (at_append.1 hat').1 hwrap hcrc] at hload
  exact absurd hload (by decide)

end AlgaeBp.Settings
