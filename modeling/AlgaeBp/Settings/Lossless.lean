import AlgaeBp.Settings.Detect
/-!
# Which trees are saved without loss

The header of an entry holds the length of the key in 8 bits and that of the
value in 16, and `keyval_save` writes as much of them as these lengths say. A
longer key or value is cut, and the save succeeds.
-/
open Bytes File StateWp
open Ints (toInt)

namespace AlgaeBp.Settings

/-! ## What a save returns -/

/-- The bytes the entries take in the file: the lengths wrap. -/
def storedSize (root : KeyvalRoot) : Nat :=
  (root.map (fun kv => 3 + kv.key.length % 256 + kv.value.length % 65536)).sum

theorem length_keyval {kv : Keyval} (h : 0 ∉ kv.key) :
    kv.bytes.length = 3 + kv.key.length % 256 + kv.value.length % 65536 := by
  have hk : kv.hdr.keyLen.toNat = kv.key.length % 256 := by
    rw [← strlen_nul h]
    exact UInt8.toNat_ofNat'
  have hv : kv.hdr.valLen.toNat = kv.value.length % 65536 := UInt16.toNat_ofNat'
  have hb : kv.hdr.bytes.length = 3 := rfl
  unfold Keyval.bytes
  rw [List.length_append, List.length_append, List.length_take, List.length_take, hk, hv, hb]
  have := Nat.mod_le kv.key.length 256
  have := Nat.mod_le kv.value.length 65536
  omega

theorem length_stored {root : KeyvalRoot} (h : ∀ kv ∈ root, 0 ∉ kv.key) : (payload root).length = storedSize root := by
  induction root with
  | nil => rfl
  | cons kv root ih =>
    show (kv.bytes ++ payload root).length = 3 + kv.key.length % 256 + kv.value.length % 65536 + storedSize root
    rw [List.length_append, length_keyval (h kv List.mem_cons_self), ih (fun x hx => h x (List.mem_cons_of_mem kv hx))]

theorem toInt_mod (n k : Nat) : toInt (n % 2 ^ 32 + k) = toInt (n + k) := by
  unfold toInt
  rw [← Int.emod_bmod, ← Int.emod_bmod (n := 2 ^ 32) (x := ((n + k : Nat) : Int))]
  congr 1
  omega

/-- The count a save of the tree returns if nothing fails. -/
theorem savedHdr_count {root : KeyvalRoot} (h : ∀ kv ∈ root, 0 ∉ kv.key) (tag : Block 6) (ver : UInt16) :
    toInt ((savedHdr root tag ver).payloadLen.toNat + settingsHdrSize) = toInt (storedSize root + 20) := by
  have hlen : (savedHdr root tag ver).payloadLen.toNat = storedSize root % 2 ^ 32 := by
    show (0 + UInt32.ofNat (payload root).length).toNat = _
    rw [UInt32.zero_add, UInt32.toNat_ofNat', length_stored h]
  rw [hlen]
  exact toInt_mod _ 20

/-- A save fails or returns the count of the header. -/
theorem keyvalSave_ret (root : KeyvalRoot) (tag : Block 6) (ver : UInt16) (fd : Fd) :
    wp (keyvalSave root tag ver) (fun ret _ =>
      ret = -1 ∨ ret = toInt ((savedHdr root tag ver).payloadLen.toNat + settingsHdrSize)) fd := by
  unfold keyvalSave
  refine wp_bind.2 ((wp_get _ _).2 ((seekSet_wp _ fd).bind (fun ok fd₁ _ => ?_)))
  cases ok with
  | false => exact (wp_pure _ _ _).2 (Or.inl rfl)
  | true =>
    refine (saveLoop_wp root (newHdr tag ver) fd₁).bind (fun r fd₂ h₂ => ?_)
    cases r with
    | none => exact (wp_pure _ _ _).2 (Or.inl rfl)
    | some h =>
      obtain ⟨rfl, -⟩ := h₂ h rfl
      refine (seekSet_wp _ fd₂).bind (fun ok fd₃ _ => ?_)
      cases ok with
      | false => exact (wp_pure _ _ _).2 (Or.inl rfl)
      | true =>
        refine (bioWrite_wp _ fd₃).bind (fun ok fd₄ _ => ?_)
        cases ok with
        | false => exact (wp_pure _ _ _).2 (Or.inl rfl)
        | true => exact (wp_pure _ _ _).2 (Or.inr rfl)

/-! ## Trees that fit -/

/-- The lengths of keys and values fit the header of an entry. -/
def Fitting (root : KeyvalRoot) : Prop := ∀ kv ∈ root, kv.key.length ≤ 255 ∧ kv.value.length ≤ 65535

theorem Fitting.fits {root : KeyvalRoot} (h : Fitting root) (hnul : ∀ kv ∈ root, 0 ∉ kv.key) : ∀ kv ∈ root, kv.Fits :=
  fun kv hkv => ⟨(h kv hkv).1, (h kv hkv).2, hnul kv hkv⟩

/-! ## Trees too long for the header -/

theorem length_data_le (c : Frame) : c.data.length ≤ 65790 := by
  have hk := leNat_lt (c.hdr.take 1)
  have hv := leNat_lt (c.hdr.drop 1)
  rw [List.length_take, c.hdrSize] at hk
  rw [List.length_drop, c.hdrSize] at hv
  rw [c.dataSize]
  have h1 : 256 ^ min 1 keyvalHdrSize = 256 := by decide
  have h2 : 256 ^ (keyvalHdrSize - 1) = 65536 := by decide
  omega

/-- The entries that are read do not reach far behind the length. -/
theorem length_framesIn (len pos : Nat) (content : List UInt8) :
    pos + (bytesOf (framesIn len pos content)).length ≤ max pos (len + 65793) := by
  fun_induction framesIn len pos content with
  | case1 => simp [bytesOf]
  | case2 pos content h c hc ih =>
    have := length_data_le c
    rw [length_bytesOf_cons]
    omega
  | case3 => simp [bytesOf]

/-- With a length that is too short some of the entries are found. -/
theorem framesIn_prefix {cs : List Frame} {len pos : Nat} (h : len ≤ pos + (bytesOf cs).length) (rest : List UInt8) :
    framesIn len pos (bytesOf cs ++ rest) <+: cs := by
  induction cs generalizing pos with
  | nil =>
    have hle : len ≤ pos := h
    rw [framesIn_done hle]
  | cons c cs ih =>
    rcases Nat.lt_or_ge pos len with hlt | hle
    · have hbytes : bytesOf (c :: cs) ++ rest = c.bytes ++ (bytesOf cs ++ rest) := List.append_assoc _ _ _
      rw [length_bytesOf_cons] at h
      rw [hbytes, framesIn_cons hlt]
      exact List.cons_prefix_cons.2 ⟨rfl, ih (by omega)⟩
    · rw [framesIn_done hle]
      exact List.nil_prefix

theorem length_rbInsert (kv : Keyval) (root : KeyvalRoot) : (rbInsert kv root).length ≤ root.length + 1 := by
  induction root with
  | nil => exact le_rfl
  | cons x root ih =>
    unfold rbInsert
    split
    · exact le_rfl
    · exact Nat.le_succ _
    · exact Nat.succ_le_succ ih

theorem length_insertAll (root : KeyvalRoot) (es : List Keyval) : (insertAll root es).length ≤ root.length + es.length := by
  induction es generalizing root with
  | nil => exact le_rfl
  | cons kv es ih =>
    have hstep := length_rbInsert kv root
    have hrest := ih (rbInsert kv root)
    show (insertAll (rbInsert kv root) es).length ≤ _
    rw [List.length_cons]
    omega

/-- Where the length has wrapped a load does not come to the end of the tree. -/
theorem load_wrapped {root : KeyvalRoot} (hsize : 2 ^ 32 ≤ (payload root).length) {tag : Block 6} {ver : UInt16} {fd : Fd}
    (hat : At fd.bytes fd.off ((savedHdr root tag ver).bytes ++ payload root)) (noise : UInt8) :
    (keyvalLoad noise [] [] tag ver fd).1.2 ≠ root := by
  intro htree
  rw [at_append, length_hdr] at hat
  obtain ⟨hat₁, rest, hrest⟩ := hat
  have hflen : fileLen fd = (payload root).length % 2 ^ 32 := by
    rw [(fileHdr_saved hat₁).2]
    show (0 + UInt32.ofNat (payload root).length).toNat = _
    rw [UInt32.zero_add, UInt32.toNat_ofNat']
  rw [payload_frames] at hrest hflen hsize
  obtain ⟨cs, hload⟩ := keyvalLoad_frames noise [] [] tag ver fd
  have hpre := hload.frames
  have hfar := length_framesIn (fileLen fd) 0 (fd.bytes.drop (fd.off + settingsHdrSize))
  have hall : fileFrames fd <+: root.map Keyval.frame := by
    unfold fileFrames
    rw [← hrest]
    apply framesIn_prefix
    omega
  -- as many entries were read as the tree has, so all of them
  have hcount : root.length ≤ cs.length := by
    have := length_insertAll [] (cs.map Frame.entry)
    rw [← hload.tree, htree, List.length_map] at this
    simpa using this
  have hcs : cs = root.map Keyval.frame := by
    apply (hpre.trans hall).eq_of_length
    have := (hpre.trans hall).length_le
    rw [List.length_map] at this ⊢
    omega
  obtain rfl := hcs
  have hsame := hpre.eq_of_length (hpre.length_le.antisymm hall.length_le)
  unfold fileFrames at hsame
  rw [← hsame] at hfar
  omega

/-! ## The trees a save is right about -/

/-- A save of the tree that succeeds has written what is loaded as the tree, and a tree that does not fit is refused. -/
structure SavedFaithfully (root : KeyvalRoot) : Prop where
  decodes : ∀ (tag : Block 6) (ver : UInt16) (fd : Fd), 0 ≤ (keyvalSave root tag ver fd).1 →
    ∀ (noise : UInt8) (steps : List Step), Short steps → ∀ seeks : List Bool,
      0 ≤ (keyvalLoad noise [] [] tag ver ⟨(keyvalSave root tag ver fd).2.bytes, fd.off, steps, seeks⟩).1.1 ∧
        (keyvalLoad noise [] [] tag ver ⟨(keyvalSave root tag ver fd).2.bytes, fd.off, steps, seeks⟩).1.2 = root
  refuses : ¬ Fitting root → ∀ (tag : Block 6) (ver : UInt16) (fd : Fd), (keyvalSave root tag ver fd).1 = -1

/-- **When a save loses nothing.** A tree whose lengths fit is saved faithfully
unless its entries take 2^32 bytes and the count is not negative for it; a tree whose
lengths do not fit is saved with what was cut, but for those whose count is -1. -/
theorem savedFaithfully_iff (root : KeyvalRoot) (hasc : Ascending root) (hnul : ∀ kv ∈ root, 0 ∉ kv.key) :
    SavedFaithfully root ↔
      (Fitting root ∧ (storedSize root < 2 ^ 32 ∨ toInt (storedSize root + 20) < 0)) ∨
        (¬ Fitting root ∧ toInt (storedSize root + 20) = -1) := by
  have hlen := length_stored hnul
  have hcalm (tag : Block 6) (ver : UInt16) : (keyvalSave root tag ver newFile).1 = toInt (storedSize root + 20) := by
    rw [keyvalSave_calm root tag ver ⟨rfl, rfl⟩, savedHdr_count hnul]
  have hret (tag : Block 6) (ver : UInt16) (fd : Fd) :
      (keyvalSave root tag ver fd).1 = -1 ∨ (keyvalSave root tag ver fd).1 = toInt (storedSize root + 20) := by
    rw [← savedHdr_count hnul tag ver]
    exact keyvalSave_ret root tag ver fd
  constructor
  · intro h
    by_cases hfit : Fitting root
    · refine Or.inl ⟨hfit, ?_⟩
      by_contra hno
      obtain ⟨hbig, hpos⟩ := not_or.1 hno
      have hok : 0 ≤ (keyvalSave root (Block.fill 6 0) 0 newFile).1 := by
        rw [hcalm]
        exact Int.not_lt.1 hpos
      obtain ⟨-, hat⟩ := keyvalSave_wp root (Block.fill 6 0) 0 newFile hok
      have htree := (h.decodes _ _ newFile hok 0 [] (fun _ hst => absurd hst List.not_mem_nil) []).2
      refine @load_wrapped root ?_ _ _ ⟨_, newFile.off, [], []⟩ hat 0 htree
      rw [hlen]
      exact Nat.le_of_not_lt hbig
    · exact Or.inr ⟨hfit, by rw [← hcalm (Block.fill 6 0) 0]; exact h.refuses hfit _ _ _⟩
  · rintro (⟨hfit, hsize | hneg⟩ | ⟨hfit, hcount⟩)
    · refine ⟨fun tag ver fd hok noise steps hs seeks => ?_, fun hn => absurd hfit hn⟩
      obtain ⟨heq, hat⟩ := keyvalSave_wp root tag ver fd hok
      have hload := @keyvalLoad_wp root hasc (hfit.fits hnul) (by rw [hlen]; exact hsize) noise tag ver
        ⟨(keyvalSave root tag ver fd).2.bytes, fd.off, steps, seeks⟩ hs hat
      rw [hload]
      exact ⟨heq ▸ hok, rfl⟩
    · refine ⟨fun tag ver fd hok => ?_, fun hn => absurd hfit hn⟩
      have := hret tag ver fd
      omega
    · refine ⟨fun tag ver fd hok => ?_, fun _ tag ver fd => ?_⟩
      · have := hret tag ver fd
        omega
      · have := hret tag ver fd
        omega

/-- A key of 256 bytes, of which the header says that it is empty. -/
def longKey : KeyvalRoot := [⟨List.replicate 256 0x61, []⟩]

theorem savedFaithfully_twoKeys :
    SavedFaithfully twoKeys ↔
      (Fitting twoKeys ∧ (storedSize twoKeys < 2 ^ 32 ∨ toInt (storedSize twoKeys + 20) < 0)) ∨
        (¬ Fitting twoKeys ∧ toInt (storedSize twoKeys + 20) = -1) :=
  savedFaithfully_iff twoKeys (by unfold Ascending; decide) (fun kv hkv => (twoKeys_fits kv hkv).nul)

/-- It is saved as an empty key, and the save says that 23 bytes were written. -/
theorem longKey_cut : ¬ SavedFaithfully longKey := by
  intro h
  have hfit : ¬ Fitting longKey := by
    intro hf
    have := (hf _ List.mem_cons_self).1
    rw [List.length_replicate] at this
    omega
  have hsize : storedSize longKey = 3 := by
    unfold storedSize longKey
    rw [List.map_cons, List.length_replicate]
    rfl
  have hnul : ∀ kv ∈ longKey, 0 ∉ kv.key := by
    intro kv hkv
    rw [List.mem_singleton.1 hkv]
    exact fun h => absurd (List.eq_of_mem_replicate h) (by decide)
  have hret := h.refuses hfit (Block.fill 6 0) 0 newFile
  rw [keyvalSave_calm longKey _ 0 ⟨rfl, rfl⟩, savedHdr_count hnul, hsize] at hret
  exact absurd hret (by decide)

end AlgaeBp.Settings
