import AlgaeBp.Settings.Lossless
/-!
# What a failed load leaves

`keyval_load` puts each entry into the tree as it is read, and takes none out
again when it fails. The entries of the tree stay; the others it has afterwards
are those of the file that were read in full, one for each new key.
-/
open Bytes File StateWp

namespace AlgaeBp.Settings

/-! ## Insertion -/

/-- The string ends at its first zero. -/
theorem strcmp_zero (c bs : List UInt8) : strcmp c (0 :: bs) = strcmp c [] := by
  cases c with
  | nil => rfl
  | cons x xs =>
    by_cases hx : x = 0
    · subst hx
      rfl
    · have hpos : (0 : UInt8) < x := UInt8.pos_iff_ne_zero.2 hx
      simp [strcmp, hx, hpos, UInt8.lt_asymm hpos]

/-- Equal strings compare alike. -/
theorem strcmp_congr {a b : List UInt8} (h : strcmp a b = .eq) (c : List UInt8) : strcmp c a = strcmp c b := by
  fun_induction strcmp a b generalizing c with
  | case1 => rfl
  | case2 bs => exact (strcmp_zero c bs).symm
  | case3 => simp at h
  | case4 as => exact strcmp_zero c as
  | case5 => simp at h
  | case6 => simp at h
  | case7 => simp at h
  | case8 as b bs hlt hgt =>
    have hab : b = 0 := UInt8.le_antisymm (UInt8.not_lt.1 hlt) (UInt8.not_lt.1 hgt)
    subst hab
    rw [strcmp_zero, strcmp_zero]
  | case9 a as b bs hlt hgt hz ih =>
    have hab : a = b := UInt8.le_antisymm (UInt8.not_lt.1 hgt) (UInt8.not_lt.1 hlt)
    subst hab
    cases c with
    | nil => simp [strcmp]
    | cons x xs => simp only [strcmp, ih h]

/-- A key that is there is not put in again. -/
theorem rbInsert_known {kv : Keyval} {root : KeyvalRoot} (hasc : Ascending root)
    (h : ∃ x ∈ root, strcmp kv.key x.key = .eq) : rbInsert kv root = root := by
  induction root with
  | nil =>
    obtain ⟨x, hx, -⟩ := h
    exact absurd hx List.not_mem_nil
  | cons y root ih =>
    obtain ⟨x, hx, heq⟩ := h
    obtain ⟨hy, htail⟩ := List.pairwise_cons.1 hasc
    unfold rbInsert
    rcases List.mem_cons.1 hx with rfl | hx
    · rw [heq]
    · have hlt : strcmp y.key kv.key = .lt := by
        rw [strcmp_congr heq]
        exact hy x hx
      rw [strcmp_gt hlt, ih htail ⟨x, hx, heq⟩]

theorem rbInsert_sublist (kv : Keyval) (root : KeyvalRoot) : root.Sublist (rbInsert kv root) := by
  induction root with
  | nil => exact List.nil_sublist _
  | cons x root ih =>
    unfold rbInsert
    split
    · exact List.sublist_cons_self _ _
    · exact List.Sublist.refl _
    · exact ih.cons_cons x

theorem mem_rbInsert {kv x : Keyval} {root : KeyvalRoot} (h : x ∈ rbInsert kv root) : x = kv ∨ x ∈ root := by
  induction root with
  | nil => exact Or.inl (List.mem_singleton.1 h)
  | cons y root ih =>
    unfold rbInsert at h
    split at h
    · exact List.mem_cons.1 h
    · exact Or.inr h
    · rcases List.mem_cons.1 h with rfl | h
      · exact Or.inr List.mem_cons_self
      · exact (ih h).imp_right (List.mem_cons_of_mem y)

theorem known_of_rbInsert {kv : Keyval} {root : KeyvalRoot} (h : rbInsert kv root = root) :
    ∃ x ∈ root, strcmp kv.key x.key = .eq := by
  induction root with
  | nil => simp [rbInsert] at h
  | cons y root ih =>
    unfold rbInsert at h
    split at h
    · simp at h
    · rename_i heq
      exact ⟨y, List.mem_cons_self, heq⟩
    · obtain ⟨x, hx, heq⟩ := ih (List.cons.inj h).2
      exact ⟨x, List.mem_cons_of_mem y hx, heq⟩

theorem insertAll_sublist (root : KeyvalRoot) (es : List Keyval) : root.Sublist (insertAll root es) := by
  induction es generalizing root with
  | nil => exact List.Sublist.refl root
  | cons kv es ih => exact (rbInsert_sublist kv root).trans (ih (rbInsert kv root))

theorem mem_insertAll {root : KeyvalRoot} {es : List Keyval} {x : Keyval} (h : x ∈ insertAll root es) :
    x ∈ root ∨ x ∈ es := by
  induction es generalizing root with
  | nil => exact Or.inl h
  | cons kv es ih =>
    rcases ih h with h | h
    · rcases mem_rbInsert h with rfl | h
      · exact Or.inr List.mem_cons_self
      · exact Or.inl h
    · exact Or.inr (List.mem_cons_of_mem kv h)

/-- A tree stays what it is if its keys are all there is to insert. -/
theorem insertAll_eq_iff {root : KeyvalRoot} (hasc : Ascending root) (es : List Keyval) :
    insertAll root es = root ↔ ∀ kv ∈ es, ∃ x ∈ root, strcmp kv.key x.key = .eq := by
  induction es with
  | nil => exact iff_of_true rfl (fun kv h => absurd h List.not_mem_nil)
  | cons kv es ih =>
    rw [List.forall_mem_cons, ← ih]
    constructor
    · intro h
      have hle : (insertAll (rbInsert kv root) es).length = root.length := congrArg List.length h
      have hrest := (insertAll_sublist (rbInsert kv root) es).length_le
      have hone : rbInsert kv root = root :=
        ((rbInsert_sublist kv root).eq_of_length_le (by omega)).symm
      refine ⟨known_of_rbInsert hone, ?_⟩
      have h' : insertAll (rbInsert kv root) es = root := h
      rwa [hone] at h'
    · rintro ⟨hk, hes⟩
      show insertAll (rbInsert kv root) es = root
      rw [rbInsert_known hasc hk, hes]

/-! ## The turns of the loop -/

/-- The loop of `keyval_load` with so many tests of its condition allowed. -/
def loadTurns (noise : UInt8) (len : Nat) : Nat → List Bool → Loading → StateM Fd (Option (Bool × Loading))
  | 0, _, _ => return none
  | n + 1, allocs, s =>
    if s.payloadLen < len then do
      let raw ← bioRead keyvalHdrSize
      if raw.length ≠ keyvalHdrSize then return some (false, s)
      else do
        let keyLen := leNat (raw.take 1)
        let valLen := leNat (raw.drop 1)
        let kvSz := keyLen + valLen
        let room := alloc (kvSz > s.fb.length) allocs
        if room.1 = false then return some (false, s)
        else do
          let data ← bioRead kvSz
          if data.length ≠ kvSz then return some (false, s)
          else do
            let fb := data ++ (expand noise s.fb kvSz).drop kvSz
            let node := alloc true room.2
            let value := alloc (valLen > 0) node.2
            if node.1 = false ∨ value.1 = false then return some (false, s)
            else
              loadTurns noise len n value.2
                { payloadLen := s.payloadLen + 3 + kvSz
                  fb := fb
                  cksum := keyvalCksumUpdate (keyvalCksumUpdate s.cksum raw) (fb.take kvSz)
                  root := rbInsert (entryOf fb keyLen valLen) s.root }
    else return some (true, s)

/-- A program ends as another does, and says that it has ended. -/
def Ends {α : Type} (m : StateM Fd (Option α)) (m' : StateM Fd α) (fd : Fd) : Prop :=
  m fd = (some (m' fd).1, (m' fd).2)

theorem Ends.bind {α β : Type} {x : StateM Fd α} {f : α → StateM Fd (Option β)} {g : α → StateM Fd β} {fd : Fd}
    (h : ∀ a fd', Ends (f a) (g a) fd') : Ends (x >>= f) (x >>= g) fd := h _ _

theorem Ends.ite {α : Type} {c : Prop} [Decidable c] {m n : StateM Fd (Option α)} {m' n' : StateM Fd α} {fd : Fd}
    (h : Ends m m' fd) (h' : Ends n n' fd) : Ends (if c then m else n) (if c then m' else n') fd := by
  split
  · exact h
  · exact h'

/-- Enough turns are allowed, and the outcome is that of the loop. -/
theorem loadTurns_eq (noise : UInt8) (len n : Nat) (allocs : List Bool) (s : Loading) (fd : Fd)
    (h : len ≤ s.payloadLen + 3 * n) :
    Ends (loadTurns noise len (n + 1) allocs s) (loadLoop noise len allocs s) fd := by
  induction n generalizing allocs s fd with
  | zero =>
    have hdone : ¬ s.payloadLen < len := by omega
    rw [loadTurns, loadLoop, if_neg hdone, dif_neg hdone]
    rfl
  | succ n ih =>
    rw [loadTurns, loadLoop]
    by_cases hlt : s.payloadLen < len
    · rw [if_pos hlt, dif_pos hlt]
      refine Ends.bind (fun raw fd₁ => Ends.ite rfl ?_)
      refine Ends.ite rfl (Ends.bind (fun data fd₂ => Ends.ite rfl (Ends.ite rfl ?_)))
      apply ih
      dsimp only
      omega
    · rw [if_neg hlt, dif_neg hlt]
      rfl

/-! ## A load that fails -/

/-- The complete entries behind the header of a file, up to the length it says. -/
def fileEntries (fd : Fd) : List Keyval := (fileFrames fd).map Frame.entry

/-- **What a load leaves in the tree.** Whatever the file is and however the load
ends, the tree has the entries it had; what it has more is of the entries of
the file that were read in full, none if the header was refused, all of them if
reads only may be short and memory can be had; and it is the tree before if and
only if all their keys were in it. The loop ends within as many turns as the
length has room for entries. -/
theorem load_inserts (noise : UInt8) (allocs : List Bool) (root : KeyvalRoot) (hasc : Ascending root)
    (tag : Block 6) (ver : UInt16) (fd : Fd) :
    (∃ es, es <+: fileEntries fd ∧ (keyvalLoad noise allocs root tag ver fd).1.2 = insertAll root es ∧
      (¬ Accepts tag ver (fileHdr fd) → es = []) ∧
      (Short fd.steps → Plenty allocs → Accepts tag ver (fileHdr fd) → es = fileEntries fd) ∧
      root.Sublist (keyvalLoad noise allocs root tag ver fd).1.2 ∧
      (∀ kv ∈ (keyvalLoad noise allocs root tag ver fd).1.2, kv ∈ root ∨ kv ∈ es) ∧
      ((keyvalLoad noise allocs root tag ver fd).1.2 = root ↔ ∀ kv ∈ es, ∃ x ∈ root, strcmp kv.key x.key = .eq)) ∧
    ∀ (len : Nat) (allocs' : List Bool) (s : Loading) (fd' : Fd),
      Ends (loadTurns noise len (len / 3 + 2) allocs' s) (loadLoop noise len allocs' s) fd' := by
  refine ⟨?_, fun len allocs' s fd' => loadTurns_eq noise len (len / 3 + 1) allocs' s fd' (by omega)⟩
  obtain ⟨cs, hload⟩ := keyvalLoad_frames noise allocs root tag ver fd
  have htree := hload.tree
  refine ⟨cs.map Frame.entry, hload.frames.map Frame.entry, htree, fun hn => ?_, fun hs hp ha => ?_, ?_, ?_, ?_⟩
  · rw [hload.refused hn]
    rfl
  · rw [hload.whole hs hp ha]
    rfl
  · rw [htree]
    exact insertAll_sublist root _
  · rw [htree]
    exact fun kv hkv => mem_insertAll hkv
  · rw [htree]
    exact insertAll_eq_iff hasc _

/-- One entry, and a checksum that is not its own. -/
def wrongSum : Fd := ⟨[0, 0, 0, 0, 0, 0, 0, 0, 0, 0, 0, 0, 0, 0, 0, 0, 5, 0, 0, 0, 1, 1, 0, 0x61, 0x62], 0, [], []⟩

theorem fileFrames_wrongSum : fileFrames wrongSum = [⟨[1, 1, 0], [0x61, 0x62], rfl, rfl⟩] := by
  have hlen : fileLen wrongSum = 5 := by decide
  unfold fileFrames
  rw [hlen]
  exact framesIn_bytesOf [⟨[1, 1, 0], [0x61, 0x62], rfl, rfl⟩] [] 0

theorem load_inserts_wrongSum :
    ∃ es, es <+: fileEntries wrongSum ∧ (keyvalLoad 0 [] [] (Block.fill 6 0) 0 wrongSum).1.2 = insertAll [] es :=
  let ⟨es, hpre, htree, _⟩ := (load_inserts 0 [] [] List.Pairwise.nil (Block.fill 6 0) 0 wrongSum).1
  ⟨es, hpre, htree⟩

/-- The load fails, and the entry is in the tree. -/
theorem load_not_allOrNothing :
    ¬ ∀ (noise : UInt8) (root : KeyvalRoot) (tag : Block 6) (ver : UInt16) (fd : Fd), Ascending root →
      (keyvalLoad noise [] root tag ver fd).1.1 = -1 → (keyvalLoad noise [] root tag ver fd).1.2 = root := by
  intro hall
  obtain ⟨cs, hload⟩ := keyvalLoad_frames 0 [] [] (Block.fill 6 0) 0 wrongSum
  have hacc : Accepts (Block.fill 6 0) 0 (fileHdr wrongSum) :=
    ⟨rfl, fun h => absurd rfl h, fun h => absurd h (by decide)⟩
  have hcs := hload.whole (fun _ h => absurd h List.not_mem_nil) (fun _ h => absurd h List.not_mem_nil) hacc
  rw [fileFrames_wrongSum] at hcs
  subst hcs
  have hret : (keyvalLoad 0 [] [] (Block.fill 6 0) 0 wrongSum).1.1 = -1 := by
    by_contra hne
    exact absurd (hload.matched hne).2 (by decide +kernel)
  have hroot := hall 0 [] (Block.fill 6 0) 0 wrongSum List.Pairwise.nil hret
  rw [hload.tree] at hroot
  exact absurd hroot (by decide)

end AlgaeBp.Settings
