import AlgaeBp.Settings.Code
import AlgaeBp.Lib.StateWp
import Mathlib.Data.List.TakeWhile
/-!
# Theorems about the settings store

What `keyval_save` leaves in the file is described by where bytes stand; from
that alone `keyval_load` finds its way back to the tree.
-/
open Bytes File StateWp
open Ints (toInt)

namespace AlgaeBp.Settings

/-! ## Checksums -/

theorem aloeCrc32_append (a b : List UInt8) (c : UInt32) : aloeCrc32 (a ++ b) c = aloeCrc32 b (aloeCrc32 a c) := by
  unfold aloeCrc32
  rw [List.foldl_append, UInt32.not_not]

theorem aloeCrc32_nil (c : UInt32) : aloeCrc32 [] c = c := UInt32.not_not

/-! ## Writing -/

/-- `data` was written at the offset, and what stands before it was left alone. -/
structure Saved (fd fd' : Fd) (data : List UInt8) : Prop where
  off : fd'.off = fd.off + data.length
  stands : At fd'.bytes fd.off data
  before : ∀ o a, o + a.length ≤ fd.off → At fd.bytes o a → At fd'.bytes o a
  behind : ∀ o a, fd.off + data.length ≤ o → At fd.bytes o a → At fd'.bytes o a

theorem saved_nil (fd : Fd) : Saved fd fd [] := ⟨rfl, at_nil _ _, fun _ _ _ h => h, fun _ _ _ h => h⟩

theorem Saved.append {fd fd₁ fd₂ : Fd} {a b : List UInt8} (h : Saved fd fd₁ a) (h' : Saved fd₁ fd₂ b) :
    Saved fd fd₂ (a ++ b) := by
  have hoff := h.off
  refine ⟨?_, ?_, ?_, ?_⟩
  · rw [h'.off, hoff, List.length_append, Nat.add_assoc]
  · rw [at_append]
    refine ⟨h'.before _ _ hoff.ge h.stands, ?_⟩
    rw [← hoff]
    exact h'.stands
  · intro o x ho hx
    exact h'.before o x (by omega) (h.before o x ho hx)
  · intro o x ho hx
    rw [List.length_append] at ho
    exact h'.behind o x (by omega) (h.behind o x (by omega) hx)

/-- Written in parts or at once, the same stands in the file. -/
theorem writeSteps_saved (steps : List Step) (f : List UInt8) (off : Nat) (data : List UInt8) (st st' : List Step)
    (seeks : List Bool) (h : (writeSteps steps f off data).1 = data.length) :
    Saved ⟨f, off, st, seeks⟩ ⟨(writeSteps steps f off data).2.1, off + data.length, st', seeks⟩ data := by
  have whole (f : List UInt8) (off : Nat) (d : List UInt8) (st st' : List Step) :
      Saved ⟨f, off, st, seeks⟩ ⟨overwrite 0 f off d, off + d.length, st', seeks⟩ d :=
    ⟨rfl, at_overwrite 0 f off d, fun o a ho ha => ha.before 0 d ho, fun o a ho ha => ha.behind 0 ho⟩
  -- a short write is continued where it stopped
  fun_induction writeSteps steps f off data with
  | case1 steps f off => exact ⟨rfl, at_nil _ _, fun _ _ _ h => h, fun _ _ _ h => h⟩
  | case2 f off data hne => exact whole f off data st st'
  | case3 steps f off data hne ih => exact ih h
  | case4 steps f off data hne => exact absurd (List.length_eq_zero_iff.1 h.symm) hne
  | case5 n steps f off data hne r hr => exact absurd (List.length_eq_zero_iff.1 h.symm) hne
  | case6 n steps f off data hne r hr more f' steps' heq ih =>
    have hr' : r ≤ data.length := Nat.min_le_right _ _
    have hlen : (data.take r).length = r := by
      rw [List.length_take]
      exact Nat.min_eq_left hr'
    have hmore : more = (data.drop r).length := by
      have : r + more = data.length := h
      rw [List.length_drop]
      omega
    rw [heq] at ih
    have hfirst := whole f off (data.take r) st st
    rw [hlen] at hfirst
    have hboth := hfirst.append (ih hmore)
    rw [List.take_append_drop] at hboth
    exact ⟨rfl, hboth.stands, hboth.before, hboth.behind⟩

theorem bioWrite_wp (data : List UInt8) (fd : Fd) :
    wp (bioWrite data) (fun ok fd' => ok = true → Saved fd fd' data) fd := by
  intro hok
  have hn : (writeSteps fd.steps fd.bytes fd.off data).1 = data.length := of_decide_eq_true hok
  have := writeSteps_saved fd.steps fd.bytes fd.off data fd.steps (writeSteps fd.steps fd.bytes fd.off data).2.2 fd.seeks hn
  rw [← hn] at this
  exact this

theorem seekSet_wp (off : Nat) (fd : Fd) :
    wp (seekSet off) (fun ok fd' => ok = true → fd'.bytes = fd.bytes ∧ fd'.off = off) fd := by
  obtain ⟨bytes, o, steps, seeks⟩ := fd
  match seeks with
  | [] => exact fun _ => ⟨rfl, rfl⟩
  | true :: _ => exact fun _ => ⟨rfl, rfl⟩
  | false :: _ => exact fun h => absurd h Bool.false_ne_true

/-! ## Saving -/

/-- The header once `data` has been saved. -/
def SettingsHdr.grown (h : SettingsHdr) (data : List UInt8) : SettingsHdr :=
  { h with cksum := aloeCrc32 data h.cksum, payloadLen := h.payloadLen + UInt32.ofNat data.length }

theorem grown_nil (h : SettingsHdr) : h.grown [] = h := by
  unfold SettingsHdr.grown
  rw [aloeCrc32_nil]
  simp

theorem grown_append (h : SettingsHdr) (a b : List UInt8) : (h.grown a).grown b = h.grown (a ++ b) := by
  unfold SettingsHdr.grown
  simp only [aloeCrc32_append, List.length_append, UInt32.ofNat_add, UInt32.add_assoc]

/-- The data was saved, or there is no header to go on with. -/
def Grows (h : SettingsHdr) (data : List UInt8) (fd : Fd) (r : Option SettingsHdr) (fd' : Fd) : Prop :=
  ∀ h', r = some h' → h' = h.grown data ∧ Saved fd fd' data

theorem savePart_wp (data : List UInt8) (h : SettingsHdr) (fd : Fd) : wp (savePart data h) (Grows h data fd) fd := by
  unfold savePart
  refine (bioWrite_wp data fd).bind (fun ok fd' hok => ?_)
  cases ok with
  | false => exact (wp_pure _ _ _).2 (fun h' hh => by simp at hh)
  | true => exact (wp_pure _ _ _).2 (fun h' hh => ⟨(Option.some.inj hh).symm, hok rfl⟩)

/-- Saving goes on with the header so far. -/
theorem Grows.bind {m : StateM Fd (Option SettingsHdr)} {k : SettingsHdr → StateM Fd (Option SettingsHdr)}
    {h : SettingsHdr} {a b : List UInt8} {fd : Fd} (hm : wp m (Grows h a fd) fd)
    (hk : ∀ fd', wp (k (h.grown a)) (Grows (h.grown a) b fd') fd') :
    wp (do match ← m with | none => return none | some h => k h) (Grows h (a ++ b) fd) fd := by
  refine hm.bind (fun r fd' hr => ?_)
  cases r with
  | none => exact (wp_pure _ _ _).2 (fun h' hh => by simp at hh)
  | some h' =>
    obtain ⟨rfl, hs⟩ := hr h' rfl
    refine (hk fd').mono (fun r fd'' hr h'' hh => ?_)
    obtain ⟨rfl, hs'⟩ := hr h'' hh
    exact ⟨grown_append h a b, hs.append hs'⟩

/-- An entry as it stands in the file. -/
def Keyval.bytes (kv : Keyval) : List UInt8 :=
  kv.hdr.bytes ++ (kv.key.take kv.hdr.keyLen.toNat ++ kv.value.take kv.hdr.valLen.toNat)

def payload (root : KeyvalRoot) : List UInt8 := root.flatMap Keyval.bytes

theorem saveValue_wp (kv : Keyval) (h : SettingsHdr) (fd : Fd) :
    wp (saveValue kv h) (Grows h (kv.value.take kv.hdr.valLen.toNat) fd) fd := by
  unfold saveValue
  split
  · exact savePart_wp _ h fd
  · rename_i hz
    have hzero : kv.hdr.valLen.toNat = 0 := by
      rw [gt_iff_lt, UInt16.lt_iff_toNat_lt] at hz
      exact Nat.eq_zero_of_not_pos hz
    rw [hzero, List.take_zero]
    refine (wp_pure _ _ _).2 (fun h' hh => ?_)
    obtain rfl := Option.some.inj hh
    exact ⟨(grown_nil h).symm, saved_nil fd⟩

theorem saveEntry_wp (kv : Keyval) (h : SettingsHdr) (fd : Fd) : wp (saveEntry kv h) (Grows h kv.bytes fd) fd :=
  Grows.bind (savePart_wp _ h fd) (fun fd' => Grows.bind (savePart_wp _ _ fd') (fun fd'' => saveValue_wp kv _ fd''))

theorem saveLoop_wp (root : KeyvalRoot) (h : SettingsHdr) (fd : Fd) :
    wp (saveLoop root h) (Grows h (payload root) fd) fd := by
  induction root generalizing h fd with
  | nil =>
    refine (wp_pure _ _ _).2 (fun h' hh => ?_)
    obtain rfl := Option.some.inj hh
    exact ⟨(grown_nil h).symm, saved_nil fd⟩
  | cons kv root ih => exact Grows.bind (saveEntry_wp kv h fd) (fun fd' => ih _ fd')

/-- The header `keyval_save` writes. -/
def savedHdr (root : KeyvalRoot) (tag : Block 6) (ver : UInt16) : SettingsHdr :=
  let h := (newHdr tag ver).grown (payload root)
  { h with cksum := cksumHdr h.cksum h.bytes }

theorem length_newTag (tag : Block 6) (ver : UInt16) : (newHdr tag ver).tag.length = 6 := by
  unfold newHdr
  dsimp only
  split
  · exact tag.size
  · rfl

theorem length_hdr (root : KeyvalRoot) (tag : Block 6) (ver : UInt16) :
    (savedHdr root tag ver).bytes.length = settingsHdrSize := by
  have : (savedHdr root tag ver).tag.length = 6 := length_newTag tag ver
  simp [SettingsHdr.bytes, this, cksumBytes, settingsHdrSize]

/-- A successful save has left the header at the old offset and the entries behind it. -/
theorem keyvalSave_wp (root : KeyvalRoot) (tag : Block 6) (ver : UInt16) (fd : Fd) :
    wp (keyvalSave root tag ver) (fun ret fd' => 0 ≤ ret →
      ret = toInt ((savedHdr root tag ver).payloadLen.toNat + settingsHdrSize) ∧
        At fd'.bytes fd.off ((savedHdr root tag ver).bytes ++ payload root)) fd := by
  unfold keyvalSave
  refine wp_bind.2 ((wp_get _ _).2 ((seekSet_wp _ fd).bind (fun ok fd₁ h₁ => ?_)))
  cases ok with
  | false => exact (wp_pure _ _ _).2 (fun h => absurd h (by decide))
  | true =>
    obtain ⟨hb₁, ho₁⟩ := h₁ rfl
    refine (saveLoop_wp root (newHdr tag ver) fd₁).bind (fun r fd₂ h₂ => ?_)
    cases r with
    | none => exact (wp_pure _ _ _).2 (fun h => absurd h (by decide))
    | some h =>
      obtain ⟨rfl, hs₂⟩ := h₂ h rfl
      refine (seekSet_wp _ fd₂).bind (fun ok fd₃ h₃ => ?_)
      cases ok with
      | false => exact (wp_pure _ _ _).2 (fun h => absurd h (by decide))
      | true =>
        obtain ⟨hb₃, ho₃⟩ := h₃ rfl
        refine (bioWrite_wp _ fd₃).bind (fun ok fd₄ h₄ => ?_)
        cases ok with
        | false => exact (wp_pure _ _ _).2 (fun h => absurd h (by decide))
        | true =>
          have hs₄ : Saved fd₃ fd₄ (savedHdr root tag ver).bytes := h₄ rfl
          refine (wp_pure _ _ _).2 (fun _ => ⟨rfl, ?_⟩)
          rw [at_append, length_hdr, ← ho₃]
          refine ⟨hs₄.stands, hs₄.behind _ _ (by rw [length_hdr]) ?_⟩
          rw [hb₃, ho₃, ← ho₁]
          exact hs₂.stands

/-! ## Reading -/

/-- The call makes progress, though it may be short. -/
def Step.Progress : Step → Prop
  | .count n => 0 < n
  | .eintr => True
  | .failed => False

def Short (steps : List Step) : Prop := ∀ st ∈ steps, st.Progress

theorem readSteps_short {steps : List Step} (h : Short steps) (left : List UInt8) (want : Nat) :
    (readSteps steps left want).1 = left.take want ∧ Short (readSteps steps left want).2 := by
  fun_induction readSteps steps left want with
  | case1 steps left => exact ⟨by rw [List.take_zero], h⟩
  | case2 left want hne => exact ⟨rfl, h⟩
  | case3 steps left want hne ih => exact ih (fun st hst => h st (List.mem_cons_of_mem _ hst))
  | case4 steps left want hne => exact (h .failed List.mem_cons_self).elim
  | case5 n steps left want hne r hr =>
    have hn : 0 < n := h (.count n) List.mem_cons_self
    have hw : want ≠ 0 := hne
    have hempty : left = [] := by
      apply List.length_eq_zero_iff.1
      have : min n (min want left.length) = 0 := hr
      omega
    rw [hempty, List.take_nil]
    exact ⟨rfl, fun st hst => h st (List.mem_cons_of_mem _ hst)⟩
  | case6 n steps left want hne r hr more steps' heq ih =>
    obtain ⟨hmore, hsteps⟩ := ih (fun st hst => h st (List.mem_cons_of_mem _ hst))
    rw [heq] at hmore hsteps
    have hle : r ≤ want := (Nat.min_le_right _ _).trans (Nat.min_le_left _ _)
    have hmore' : more = (left.drop r).take (want - r) := hmore
    refine ⟨?_, hsteps⟩
    show left.take r ++ more = left.take want
    rw [hmore', ← List.take_add, Nat.add_sub_cancel' hle]

/-- What stands at the offset is read. -/
theorem bioRead_wp {fd : Fd} {a : List UInt8} (hs : Short fd.steps) (h : At fd.bytes fd.off a) :
    wp (bioRead a.length) (fun d fd' => d = a ∧ fd'.bytes = fd.bytes ∧ fd'.off = fd.off + a.length ∧
      Short fd'.steps) fd := by
  obtain ⟨hread, hshort⟩ := readSteps_short hs (fd.bytes.drop fd.off) a.length
  have hd : (readSteps fd.steps (fd.bytes.drop fd.off) a.length).1 = a := by rw [hread, h.take]
  refine ⟨hd, rfl, ?_, hshort⟩
  show fd.off + (readSteps fd.steps (fd.bytes.drop fd.off) a.length).1.length = _
  rw [hd]

/-! ## Trees -/

theorem strcmp_gt {a b : List UInt8} (h : strcmp a b = .lt) : strcmp b a = .gt := by
  fun_induction strcmp a b with
  | case1 => simp at h
  | case2 => simp at h
  | case3 b bs hb => simp [strcmp, hb]
  | case4 => simp at h
  | case5 => simp at h
  | case6 a as b bs hlt =>
    have : ¬ b < a := UInt8.lt_asymm hlt
    simp [strcmp, hlt, this]
  | case7 => simp at h
  | case8 => simp at h
  | case9 a as b bs hlt hgt hz ih =>
    have hab : a = b := UInt8.le_antisymm (UInt8.not_lt.1 hgt) (UInt8.not_lt.1 hlt)
    subst hab
    simp [strcmp, hz, ih h]

/-- The tree of a program: its keys ascend. -/
def Ascending (root : KeyvalRoot) : Prop := root.Pairwise (fun a b => strcmp a.key b.key = .lt)

theorem rbInsert_last {kv : Keyval} {root : KeyvalRoot} (h : ∀ x ∈ root, strcmp x.key kv.key = .lt) :
    rbInsert kv root = root ++ [kv] := by
  -- the new key is behind every key it is compared with
  induction root with
  | nil => rfl
  | cons x root ih =>
    unfold rbInsert
    rw [strcmp_gt (h x List.mem_cons_self), ih (fun y hy => h y (List.mem_cons_of_mem x hy))]
    rfl

/-! ## Loading -/

/-- An entry whose lengths fit its header and whose key is a C string. -/
structure Keyval.Fits (kv : Keyval) : Prop where
  key : kv.key.length ≤ 255
  value : kv.value.length ≤ 65535
  nul : 0 ∉ kv.key

theorem strlen_nul {key : List UInt8} (h : 0 ∉ key) : strlen key = key.length := by
  unfold strlen
  rw [List.takeWhile_eq_self_iff.2]
  intro b hb
  rw [decide_eq_true_eq]
  rintro rfl
  exact h hb

theorem Keyval.Fits.hdr {kv : Keyval} (h : kv.Fits) :
    kv.hdr.keyLen.toNat = kv.key.length ∧ kv.hdr.valLen.toNat = kv.value.length := by
  have hk := h.key
  have hv := h.value
  unfold Keyval.hdr
  rw [strlen_nul h.nul, UInt8.toNat_ofNat', UInt16.toNat_ofNat']
  omega

theorem Keyval.Fits.bytes_eq {kv : Keyval} (h : kv.Fits) : kv.bytes = kv.hdr.bytes ++ (kv.key ++ kv.value) := by
  unfold Keyval.bytes
  rw [h.hdr.1, h.hdr.2, List.take_length, List.take_length]

theorem leNat_le16 (v : UInt16) : leNat (le16 v) = v.toNat := by
  rw [← word16_le16 v, toNat_word16, word16_le16]
  simp [leNat, le16]

theorem entryOf_append (key value rest : List UInt8) :
    entryOf (key ++ value ++ rest) key.length value.length = ⟨key, value⟩ := by
  unfold entryOf
  rw [List.append_assoc, List.take_left, List.drop_left, List.take_left]

theorem Keyval.Fits.keyLen {kv : Keyval} (h : kv.Fits) : leNat (kv.hdr.bytes.take 1) = kv.key.length := by
  rw [← h.hdr.1]
  simp [KeyvalHdr.bytes, leNat]

theorem Keyval.Fits.valueLen {kv : Keyval} (h : kv.Fits) : leNat (kv.hdr.bytes.drop 1) = kv.value.length := by
  rw [← h.hdr.2, ← leNat_le16]
  rfl

/-- Where memory can be had. -/
theorem alloc_some (need : Bool) : alloc need [] = (true, []) := by cases need <;> rfl

/-- From where the entries stand the loop finds them all. -/
theorem loadLoop_wp (noise : UInt8) (es : KeyvalRoot) {s : Loading} {fd : Fd} {len : Nat} (hf : ∀ kv ∈ es, kv.Fits)
    (hs : Short fd.steps) (hat : At fd.bytes fd.off (payload es)) (hlen : len = s.payloadLen + (payload es).length)
    (hasc : Ascending (s.root ++ es)) :
    wp (loadLoop noise len [] s) (fun r _ => r.1 = true ∧ r.2.payloadLen = len ∧
      r.2.cksum = aloeCrc32 (payload es) s.cksum ∧ r.2.root = s.root ++ es) fd := by
  -- `es` is what the file still holds; the entries before it are in `s.root`, in order
  induction es generalizing s fd with
  | nil =>
    have hl : s.payloadLen = len := hlen.symm
    rw [loadLoop, dif_neg (by omega)]
    refine (wp_pure _ _ _).2 ⟨rfl, hl, ?_, ?_⟩
    · exact (aloeCrc32_nil s.cksum).symm
    · rw [List.append_nil]
  | cons kv es ih =>
    have hkv := hf kv List.mem_cons_self
    have hp : payload (kv :: es) = kv.hdr.bytes ++ ((kv.key ++ kv.value) ++ payload es) := by
      show kv.bytes ++ payload es = _
      rw [hkv.bytes_eq, List.append_assoc]
    have hhl : kv.hdr.bytes.length = keyvalHdrSize := rfl
    have hplen : (payload (kv :: es)).length = 3 + (kv.key ++ kv.value).length + (payload es).length := by
      rw [hp, List.length_append, List.length_append, hhl, keyvalHdrSize]
      omega
    rw [hp, at_append, at_append] at hat
    obtain ⟨hat₁, hat₂, hat₃⟩ := hat
    rw [loadLoop, dif_pos (by omega)]
    refine (bioRead_wp hs hat₁).bind ?_
    rintro raw fd₁ ⟨rfl, hb₁, ho₁, hs₁⟩
    rw [if_neg (not_not.2 hhl)]
    dsimp only
    rw [hkv.keyLen, hkv.valueLen, ← List.length_append]
    rw [← hb₁, ← ho₁] at hat₂
    rw [alloc_some, if_neg (by decide)]
    refine (bioRead_wp hs₁ hat₂).bind ?_
    rintro data fd₂ ⟨rfl, hb₂, ho₂, hs₂⟩
    rw [if_neg (not_not.2 rfl), alloc_some, alloc_some, if_neg (by decide), entryOf_append, List.take_left]
    have hlast : rbInsert ⟨kv.key, kv.value⟩ s.root = s.root ++ [kv] := by
      apply rbInsert_last
      intro x hx
      exact (List.pairwise_append.1 hasc).2.2 x hx kv List.mem_cons_self
    rw [hlast]
    refine (ih (fun x hx => hf x (List.mem_cons_of_mem kv hx)) hs₂ ?_ ?_ ?_).mono ?_
    · rw [hb₂, ho₂, hb₁, ho₁]
      exact hat₃
    · show len = s.payloadLen + 3 + _ + _
      omega
    · show Ascending (s.root ++ [kv] ++ es)
      rw [List.append_assoc]
      exact hasc
    · rintro r fd₃ ⟨hr, hrl, hrc, hrr⟩
      refine ⟨hr, hrl, ?_, ?_⟩
      · rw [hrc, hp, aloeCrc32_append, aloeCrc32_append]
        rfl
      · rw [hrr, List.append_assoc]
        rfl

/-! ## The round trip -/

/-- The bytes the entries of a tree take. -/
def totalSize (root : KeyvalRoot) : Nat := (root.map (fun kv => 3 + kv.key.length + kv.value.length)).sum

theorem length_payload {root : KeyvalRoot} (h : ∀ kv ∈ root, kv.Fits) : (payload root).length = totalSize root := by
  induction root with
  | nil => rfl
  | cons kv root ih =>
    have hkv := (h kv List.mem_cons_self).bytes_eq
    have hhl : kv.hdr.bytes.length = 3 := rfl
    show (kv.bytes ++ payload root).length = 3 + kv.key.length + kv.value.length + totalSize root
    rw [List.length_append, ih (fun x hx => h x (List.mem_cons_of_mem kv hx)), hkv, List.length_append,
      List.length_append, hhl]
    omega

/-- The fields of a header in its bytes. -/
theorem SettingsHdr.fields {h : SettingsHdr} (ht : h.tag.length = 6) :
    h.bytes.take 6 = h.tag ∧ (h.bytes.drop 6).take 2 = le16 h.ver ∧ h.bytes.take 8 = h.tag ++ le16 h.ver ∧
      (h.bytes.drop 8).take 8 = cksumBytes h.cksum ∧ h.bytes.drop 16 = leBytes 4 h.payloadLen.toNat := by
  have hck : (cksumBytes h.cksum).length = 8 := by
    rw [cksumBytes, List.length_append, length_leBytes]
    rfl
  have h8 : (h.tag ++ le16 h.ver).length = 8 := by rw [List.length_append, ht, length_le16]
  unfold SettingsHdr.bytes
  refine ⟨?_, ?_, ?_, ?_, ?_⟩
  · rw [List.append_assoc, List.append_assoc, List.take_left' ht]
  · rw [List.append_assoc, List.append_assoc, List.drop_left' ht, List.take_left' (length_le16 h.ver)]
  · rw [List.append_assoc, List.take_left' h8]
  · rw [List.append_assoc, List.drop_left' h8, List.take_left' hck]
  · rw [List.drop_left' (by rw [List.length_append, h8, hck])]

/-- The checksum of the saved header is the one over the payload and the header around it. -/
theorem savedHdr_cksum (root : KeyvalRoot) (tag : Block 6) (ver : UInt16) :
    cksumHdr (aloeCrc32 (payload root) 0) (savedHdr root tag ver).bytes = (savedHdr root tag ver).cksum := by
  have htag := length_newTag tag ver
  obtain ⟨-, -, h₁, -, h₂⟩ := SettingsHdr.fields (h := savedHdr root tag ver) htag
  obtain ⟨-, -, h₃, -, h₄⟩ := SettingsHdr.fields (h := (newHdr tag ver).grown (payload root)) htag
  show cksumHdr _ _ = cksumHdr _ ((newHdr tag ver).grown (payload root)).bytes
  unfold cksumHdr
  rw [h₁, h₂, h₃, h₄]
  rfl

theorem payloadLen_saved {root : KeyvalRoot} (hsize : (payload root).length < 2 ^ 32) (tag : Block 6) (ver : UInt16) :
    (savedHdr root tag ver).payloadLen.toNat = (payload root).length := by
  show (0 + UInt32.ofNat (payload root).length).toNat = _
  rw [UInt32.zero_add, UInt32.toNat_ofNat', Nat.mod_eq_of_lt hsize]

/-- Where a saved tree stands it is loaded. -/
theorem keyvalLoad_wp {root : KeyvalRoot} (hasc : Ascending root) (hf : ∀ kv ∈ root, kv.Fits)
    (hsize : (payload root).length < 2 ^ 32) (noise : UInt8) (tag : Block 6) (ver : UInt16) {fd : Fd}
    (hs : Short fd.steps) (hat : At fd.bytes fd.off ((savedHdr root tag ver).bytes ++ payload root)) :
    wp (keyvalLoad noise [] [] tag ver)
      (fun r _ => r = (toInt ((savedHdr root tag ver).payloadLen.toNat + settingsHdrSize), root)) fd := by
  obtain ⟨htag, hver, -, hck, hpl⟩ := SettingsHdr.fields (h := savedHdr root tag ver) (length_newTag tag ver)
  have hplen := payloadLen_saved hsize tag ver
  rw [at_append, length_hdr] at hat
  obtain ⟨hat₁, hat₂⟩ := hat
  unfold keyvalLoad
  have hread := bioRead_wp hs hat₁
  rw [length_hdr] at hread
  refine hread.bind ?_
  rintro raw fd₁ ⟨rfl, hb₁, ho₁, hs₁⟩
  rw [if_neg (not_not.2 (length_hdr root tag ver)), if_neg, if_neg]
  · rw [hpl, leNat_leBytes (by have := (savedHdr root tag ver).payloadLen.toNat_lt; omega)]
    rw [← hb₁, ← ho₁] at hat₂
    refine (loadLoop_wp noise root hf hs₁ hat₂ ?_ ?_).bind ?_
    · rw [hplen]
      exact (Nat.zero_add _).symm
    · exact hasc
    · rintro ⟨done, s⟩ fd₂ ⟨hd, hl, hc, hr⟩
      dsimp only at hd hl hc hr ⊢
      have hcc : cksumHdr s.cksum (savedHdr root tag ver).bytes = (savedHdr root tag ver).cksum := by
        rw [hc, savedHdr_cksum]
      rw [if_neg (by rw [hd]; decide), if_neg (not_not.2 (by rw [hcc, hck]))]
      refine (wp_pure _ _ _).2 ?_
      rw [hl, hr, List.nil_append]
  · rintro ⟨-, hne⟩
    apply hne
    rw [hver, leNat_le16]
    rfl
  · rintro ⟨hset, hne⟩
    apply hne
    rw [htag]
    exact if_pos hset

/-- **Settings are read back as they were saved.** If saving a tree succeeds,
then loading from the same offset, by reads as short as may be and with memory
to be had, gives the tree and the same count; and what the file holds elsewhere
does not matter. -/
theorem save_load (root : KeyvalRoot) (hasc : Ascending root) (hf : ∀ kv ∈ root, kv.Fits)
    (hsize : totalSize root + 20 < 2 ^ 31) (tag : Block 6) (ver : UInt16) (fd : Fd)
    (hok : 0 ≤ (keyvalSave root tag ver fd).1) (noise : UInt8) (f : List UInt8)
    (hagree : (f.drop fd.off).take (keyvalSave root tag ver fd).1.toNat =
      ((keyvalSave root tag ver fd).2.bytes.drop fd.off).take (keyvalSave root tag ver fd).1.toNat)
    (steps : List Step) (hshort : Short steps) (seeks : List Bool) :
    (keyvalLoad noise [] [] tag ver ⟨f, fd.off, steps, seeks⟩).1 = ((keyvalSave root tag ver fd).1, root) := by
  obtain ⟨hret, hat⟩ := keyvalSave_wp root tag ver fd hok
  have hlp := length_payload hf
  have h20 : settingsHdrSize = 20 := rfl
  have hlen : ((savedHdr root tag ver).bytes ++ payload root).length = (keyvalSave root tag ver fd).1.toNat := by
    rw [hret, payloadLen_saved (by rw [hlp]; omega), Ints.toInt_eq (by unfold Ints.intMax; omega),
      List.length_append, length_hdr]
    omega
  have hat' : At f fd.off ((savedHdr root tag ver).bytes ++ payload root) := by
    unfold At at hat ⊢
    rw [List.prefix_iff_eq_take, hlen] at hat ⊢
    rw [hagree]
    exact hat
  rw [hret]
  exact keyvalLoad_wp hasc hf (by rw [hlp]; omega) noise tag ver hshort hat'

/-- An empty key with an empty value, and a key with a value of two bytes. -/
def twoKeys : KeyvalRoot := [⟨[], []⟩, ⟨[0x61], [1, 2]⟩]

theorem twoKeys_fits : ∀ kv ∈ twoKeys, kv.Fits := by
  intro kv hkv
  rcases List.mem_pair.1 hkv with rfl | rfl
  · exact ⟨by decide, by decide, by decide⟩
  · exact ⟨by decide, by decide, by decide⟩

/-- An old file of two bytes, and an offset behind its end. -/
def oldFile : Fd := ⟨[9, 9], 3, [.count 1, .eintr, .count 2], []⟩

theorem save_load_twoKeys :
    (keyvalLoad 0xaa [] [] (Block.fill 6 0x74) 1
        ⟨(keyvalSave twoKeys (Block.fill 6 0x74) 1 oldFile).2.bytes, 3, [.count 2, .eintr], []⟩).1 =
      ((keyvalSave twoKeys (Block.fill 6 0x74) 1 oldFile).1, twoKeys) :=
  save_load twoKeys (by unfold Ascending; decide) twoKeys_fits (by decide) (Block.fill 6 0x74) 1 oldFile
    (by decide +kernel) 0xaa _ rfl [.count 2, .eintr] (by simp [Short, Step.Progress]) []

end AlgaeBp.Settings
