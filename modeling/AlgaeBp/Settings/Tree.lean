import AlgaeBp.Lib.Runs
import AlgaeBp.Lib.Strings
import AlgaeBp.Rbtree.Store
import AlgaeBp.Settings.Theorems
/-!
# The tree of the settings

Elsewhere the settings are the list of what `RB_FOREACH` sees. Here they are
what they are in memory: a red-black tree of the `keyval_t` that
`keyval_load` has allocated.
-/
open Bytes File StateWp Strings Redblack AlgaeBp.Rbtree
open Ints (toInt)

namespace AlgaeBp.Settings

/-! ## `strcmp` -/

theorem string_cons (b : UInt8) (s : List UInt8) : string (b :: s) = if b = 0 then [] else b :: string s := by
  by_cases hb : b = 0 <;> simp [string, hb]

theorem compare_byte (a b : UInt8) : compare a b = if a < b then .lt else if b < a then .gt else .eq := by
  have hc : compare a b = if a < b then Ordering.lt else if a = b then .eq else .gt := rfl
  rw [hc]
  by_cases hlt : a < b
  · simp [hlt]
  · by_cases heq : a = b
    · simp [heq, UInt8.lt_irrefl]
    · have hgt : b < a := by
        rcases UInt8.lt_or_eq_of_le (UInt8.not_lt.1 hlt) with h | h
        · exact h
        · exact absurd h.symm heq
      simp [hlt, heq, hgt]

/-- `strcmp` compares the strings byte by byte. -/
theorem strcmp_eq (a b : List UInt8) : strcmp a b = compare (string a) (string b) := by
  induction a generalizing b with
  | nil =>
    cases b with
    | nil => rfl
    | cons b bs => by_cases hb : b = 0 <;> simp [strcmp, string, hb]
  | cons a as ih =>
    cases b with
    | nil => by_cases ha : a = 0 <;> simp [strcmp, string, ha]
    | cons b bs =>
      rw [strcmp, ih, string_cons, string_cons]
      by_cases ha : a = 0
      · by_cases hb : b = 0
        · simp [ha, hb, UInt8.lt_irrefl]
        · simp [ha, hb, UInt8.pos_iff_ne_zero]
      · by_cases hb : b = 0
        · simp [ha, hb, UInt8.pos_iff_ne_zero]
        · simp only [ha, hb, if_false, List.compare_cons_cons, compare_byte]
          split
          · rfl
          · split <;> rfl

instance strcmp_trans {β : Type} (f : β → List UInt8) : Std.TransCmp (fun a b => strcmp (f a) (f b)) where
  eq_swap := by
    intro a b
    rw [strcmp_eq, strcmp_eq]
    exact Std.OrientedCmp.eq_swap
  isLE_trans := by
    intro a b c hab hbc
    rw [strcmp_eq] at hab hbc ⊢
    exact Std.TransCmp.isLE_trans hab hbc

/-! ## The tree in memory -/

/-- `keyval_cmp`. -/
def keyvalCmp (a b : Keyval) : Ordering := strcmp a.key b.key

instance : Std.TransCmp keyvalCmp := strcmp_trans Keyval.key

theorem rbInsert_eq (kv : Keyval) (root : KeyvalRoot) : rbInsert kv root = Ordered.insert keyvalCmp kv root := by
  induction root with
  | nil => rfl
  | cons x xs ih =>
    cases h : strcmp kv.key x.key <;> simp [rbInsert, Ordered.insert, keyvalCmp, h, ih]

/-- The locals of the loop of `keyval_load`, with the tree in memory. -/
structure MemLoading where
  payloadLen : Nat
  fb : List UInt8
  cksum : UInt32
  mem : Store Keyval

/-- `loadLoop` on the tree in memory. -/
def loadMemLoop (fuel : Nat) (noise : UInt8) (len : Nat) (allocs : List Bool) (s : MemLoading) :
    OptionT (StateM Fd) (Bool × MemLoading) :=
  if _ : s.payloadLen < len then do
    let raw ← bioRead keyvalHdrSize
    if raw.length ≠ keyvalHdrSize then return (false, s)
    else do
      let keyLen := leNat (raw.take 1)
      let valLen := leNat (raw.drop 1)
      let kvSz := keyLen + valLen
      let room := alloc (kvSz > s.fb.length) allocs
      if room.1 = false then return (false, s)
      else do
        let data ← bioRead kvSz
        if data.length ≠ kvSz then return (false, s)
        else do
          let fb := data ++ (expand noise s.fb kvSz).drop kvSz
          let node := alloc true room.2
          let value := alloc (valLen > 0) node.2
          if node.1 = false ∨ value.1 = false then return (false, s)
          else
            match s.mem.insert keyvalCmp fuel (entryOf fb keyLen valLen) with
            | none => failure
            | some mem =>
              loadMemLoop fuel noise len value.2
                { payloadLen := s.payloadLen + 3 + kvSz
                  fb := fb
                  cksum := keyvalCksumUpdate (keyvalCksumUpdate s.cksum raw) (fb.take kvSz)
                  mem := mem }
  else return (true, s)
termination_by len - s.payloadLen

/-- `keyvalLoad` on the tree in memory. -/
def keyvalLoadMem (fuel : Nat) (noise : UInt8) (allocs : List Bool) (m : Store Keyval) (tag : Block 6) (ver : UInt16) :
    OptionT (StateM Fd) (Int × Store Keyval) := do
  let raw ← bioRead settingsHdrSize
  if raw.length ≠ settingsHdrSize then return (-1, m)
  else if tag.bytes.headD 0 ≠ 0 ∧ raw.take 6 ≠ tag.bytes then return (-1, m)
  else if ver > 0 ∧ ver.toNat ≠ leNat ((raw.drop 6).take 2) then return (-1, m)
  else do
    let (done, s) ← loadMemLoop fuel noise (leNat (raw.drop 16)) allocs ⟨0, [], 0, m⟩
    if done = false then return (-1, s.mem)
    else if cksumBytes (cksumHdr s.cksum raw) ≠ (raw.drop 8).take 8 then return (-1, s.mem)
    else return (toInt (s.payloadLen + settingsHdrSize), s.mem)

/-- `keyvalSave` of what `RB_FOREACH` sees of the tree in memory. -/
def keyvalSaveMem (fuel : Nat) (m : Store Keyval) (tag : Block 6) (ver : UInt16) : OptionT (StateM Fd) Int :=
  match rbForeach fuel m.tree with
  | none => failure
  | some nodes => keyvalSave (nodes.map m.content) tag ver

variable {m : Store Keyval} {root : KeyvalRoot} {fuel : Nat}

/-! ## Loading and saving -/

/-- The same locals, with the list the memory stands for. -/
def MemLoading.on (s : MemLoading) (root : KeyvalRoot) : Loading := ⟨s.payloadLen, s.fb, s.cksum, root⟩

/-- The results of the loops in memory and on the list, where the next node is at most `n`. -/
structure Same (n : Nat) (r : Bool × MemLoading) (r₀ : Bool × Loading) : Prop where
  done : r₀.1 = r.1
  locals : r₀.2 = r.2.on r₀.2.root
  holds : r.2.mem.Lists keyvalCmp r₀.2.root
  next : r.2.mem.next ≤ n

/-- **The loop does to the memory what `loadLoop` does to the list.** Every turn reads more than a byte. -/
theorem loadMemLoop_spec {s : MemLoading} {len : Nat} (h : s.mem.Lists keyvalCmp root)
    (hfuel : s.mem.next + (len - s.payloadLen) < fuel) (noise : UInt8) (allocs : List Bool) (fd : Fd) :
    Refines (Same (s.mem.next + (len - s.payloadLen))) (loadMemLoop fuel noise len allocs s)
    (loadLoop noise len allocs (s.on root)) fd := by
  induction hn : len - s.payloadLen using Nat.strong_induction_on generalizing s root allocs fd with
  | _ n ih =>
    subst hn
    have hstop (ok : Bool) : Same (s.mem.next + (len - s.payloadLen)) (ok, s) (ok, s.on root) :=
      ⟨rfl, rfl, h, Nat.le_add_right ..⟩
    rw [loadMemLoop, loadLoop]
    by_cases hlt : s.payloadLen < len
    case neg =>
      rw [dif_neg hlt, dif_neg (show ¬ (s.on root).payloadLen < len from hlt)]
      exact refines_pure (hstop true) fd
    case pos =>
      rw [dif_pos hlt, dif_pos (show (s.on root).payloadLen < len from hlt)]
      refine refines_bind (fun raw fd₁ => ?_)
      refine refines_ite (fun _ => refines_pure (hstop false) fd₁) (fun _ => ?_)
      refine refines_ite (fun _ => refines_pure (hstop false) fd₁) (fun _ => refines_bind (fun data fd₂ => ?_))
      refine refines_ite (fun _ => refines_pure (hstop false) fd₂) (fun _ => ?_)
      refine refines_ite (fun _ => refines_pure (hstop false) fd₂) (fun _ => ?_)
      -- a node more, and less to go
      have hnext : s.mem.next < fuel := Nat.lt_of_le_of_lt (Nat.le_add_right ..) hfuel
      obtain ⟨mem, hins, hholds, hmem⟩ := h.insert hnext _
      rw [← rbInsert_eq] at hholds
      rw [hins]
      dsimp only
      refine (ih _ ?_ hholds ?_ _ fd₂ rfl).mono ?_
      · dsimp only
        omega
      · dsimp only
        omega
      · rintro r r₀ ⟨hdone, hlocals, hroot, hle⟩
        refine ⟨hdone, hlocals, hroot, ?_⟩
        dsimp only at hle
        omega

/-- The results of `keyval_load` in memory and on the list, where the next node is at most `n`. -/
structure LoadedMem (n : Nat) (r : Int × Store Keyval) (r₀ : Int × KeyvalRoot) : Prop where
  result : r₀.1 = r.1
  holds : r.2.Lists keyvalCmp r₀.2
  next : r.2.next ≤ n

/-- **`keyval_load` does to the tree in memory what it does to the list.** -/
theorem keyvalLoadMem_spec (h : m.Lists keyvalCmp root) (hfuel : m.next + 2 ^ 32 ≤ fuel) (noise : UInt8)
    (allocs : List Bool) (tag : Block 6) (ver : UInt16) (fd : Fd) :
    Refines (LoadedMem (m.next + 2 ^ 32)) (keyvalLoadMem fuel noise allocs m tag ver)
    (keyvalLoad noise allocs root tag ver) fd := by
  have hrefused : LoadedMem (m.next + 2 ^ 32) (-1, m) (-1, root) := ⟨rfl, h, Nat.le_add_right ..⟩
  rw [keyvalLoadMem, keyvalLoad]
  refine refines_bind (fun raw fd₁ => ?_)
  split
  case isTrue => exact refines_pure hrefused fd₁
  case isFalse hsize =>
    split
    · exact refines_pure hrefused fd₁
    split
    · exact refines_pure hrefused fd₁
    rw [not_not] at hsize
    have hlt : leNat (raw.drop 16) < 2 ^ 32 := by
      have hlen := leNat_lt (raw.drop 16)
      rwa [List.length_drop, hsize] at hlen
    have hroom : m.next + (leNat (raw.drop 16) - 0) < fuel := by omega
    have hloop := loadMemLoop_spec (s := ⟨0, [], 0, m⟩) h hroom noise allocs fd₁
    refine hloop.bind ?_
    rintro ⟨done, s⟩ ⟨_, s₀⟩ fd₂ ⟨rfl, hlocals, hroot, hnext⟩
    dsimp only at hlocals hroot hnext ⊢
    rw [hlocals]
    have hdone (n : Int) : LoadedMem (m.next + 2 ^ 32) (n, s.mem) (n, s₀.root) := ⟨rfl, hroot, by dsimp only; omega⟩
    split
    · exact refines_pure (hdone (-1)) fd₂
    by_cases hcksum : cksumBytes (cksumHdr s.cksum raw) ≠ (raw.drop 8).take 8
    · rw [if_pos hcksum, if_pos (show cksumBytes (cksumHdr (s.on s₀.root).cksum raw) ≠ _ from hcksum)]
      exact refines_pure (hdone (-1)) fd₂
    · rw [if_neg hcksum, if_neg (show ¬ cksumBytes (cksumHdr (s.on s₀.root).cksum raw) ≠ _ from hcksum)]
      exact refines_pure (hdone _) fd₂

/-- **`keyval_save` writes what the list has.** -/
theorem keyvalSaveMem_spec (h : m.Lists keyvalCmp root) (hfuel : m.next < fuel) (tag : Block 6) (ver : UInt16) (fd : Fd) :
    Refines Eq (keyvalSaveMem fuel m tag ver) (keyvalSave root tag ver) fd := by
  obtain ⟨nodes, hnodes, rfl⟩ := h.foreach hfuel
  rw [keyvalSaveMem, hnodes]
  exact refines_lift _ fd

/-! ## Runs -/

inductive Call where
  | load (noise : UInt8) (allocs : List Bool) (tag : Block 6) (ver : UInt16) (fd : Fd)
  | save (tag : Block 6) (ver : UInt16) (fd : Fd)

/-- A call on the list: the list, and the results of all calls with what they leave of their files. -/
def listCall (s : KeyvalRoot × List (Int × Fd)) : Call → KeyvalRoot × List (Int × Fd)
  | .load noise allocs tag ver fd =>
    let r := keyvalLoad noise allocs s.1 tag ver fd
    (r.1.2, s.2 ++ [(r.1.1, r.2)])
  | .save tag ver fd =>
    let r := keyvalSave s.1 tag ver fd
    (s.1, s.2 ++ [(r.1, r.2)])

/-- The same in memory. -/
def memCall (fuel : Nat) (s : Store Keyval × List (Int × Fd)) : Call → Option (Store Keyval × List (Int × Fd))
  | .load noise allocs tag ver fd =>
    let r := (keyvalLoadMem fuel noise allocs s.1 tag ver).run fd
    r.1.map fun loaded => (loaded.2, s.2 ++ [(loaded.1, r.2)])
  | .save tag ver fd =>
    let r := (keyvalSaveMem fuel s.1 tag ver).run fd
    r.1.map fun n => (s.1, s.2 ++ [(n, r.2)])

theorem memCall_spec {outs : List (Int × Fd)} (h : m.Lists keyvalCmp root) (hfuel : m.next + 2 ^ 32 ≤ fuel) (call : Call) :
    ∃ m', memCall fuel (m, outs) call = some (m', (listCall (root, outs) call).2) ∧
    m'.Lists keyvalCmp (listCall (root, outs) call).1 ∧
      m'.next ≤ m.next + 2 ^ 32 := by
  cases call with
  | load noise allocs tag ver fd =>
    obtain ⟨⟨n, m'⟩, hrun, hresult, hholds, hnext⟩ := keyvalLoadMem_spec h hfuel noise allocs tag ver fd
    refine ⟨m', ?_, hholds, hnext⟩
    simp only [memCall, hrun, listCall, Option.map_some, hresult]
  | save tag ver fd =>
    have hroom : m.next < fuel := by omega
    obtain ⟨n, hrun, rfl⟩ := keyvalSaveMem_spec h hroom tag ver fd
    refine ⟨m, ?_, h, Nat.le_add_right ..⟩
    simp only [memCall, hrun, listCall, Option.map_some]

/-- **Whatever is loaded and saved, the tree in memory and the list give the same results and the same files.** -/
theorem calls_refine (keyval : Nat → Keyval) (mem : Heap Nat) (calls : List Call) (hfuel : calls.length * 2 ^ 32 ≤ fuel) :
    ∃ m, Runs.run (memCall fuel) calls (⟨keyval, mem.init, 0⟩, []) = some (m, (calls.foldl listCall ([], [])).2) ∧
      m.Lists keyvalCmp (calls.foldl listCall ([], [])).1 ∧ m.next ≤ calls.length * 2 ^ 32 := by
  induction calls using List.reverseRecOn with
  | nil =>
    exact ⟨⟨keyval, mem.init, 0⟩, rfl, Store.lists_init keyval mem, Nat.zero_le _⟩
  | append_singleton calls call ih =>
    rw [List.length_append, List.length_singleton, Nat.add_mul, Nat.one_mul] at hfuel ⊢
    obtain ⟨m, hrun, hholds, hnext⟩ := ih (Nat.le_trans (Nat.le_add_right ..) hfuel)
    have hsum := Nat.add_le_add_right hnext (2 ^ 32)
    obtain ⟨m', hcall, hholds', hnext'⟩ := memCall_spec hholds (Nat.le_trans hsum hfuel) call
    refine ⟨m', ?_, ?_, Nat.le_trans hnext' hsum⟩
    · rw [List.foldl_append]
      exact Runs.run_concat.2 ⟨_, hrun, hcall⟩
    · rw [List.foldl_append]
      exact hholds'

/-- Something is loaded, and saved again. -/
def someCalls : List Call :=
  let file := [0, 0, 0, 0, 0, 0, 1, 0, 0, 0, 0, 0, 0, 0, 0, 0, 5, 0, 0, 0, 1, 1, 0, 107, 118]
  [.load 0 [] ⟨[0, 0, 0, 0, 0, 0], rfl⟩ 1 ⟨file, 0, [.count 2], []⟩, .save ⟨[0, 0, 0, 0, 0, 0], rfl⟩ 1 ⟨[], 0, [.eintr], []⟩]

def someMem : Heap Nat := ⟨some 7, fun a => ⟨some a, none, none, .red⟩⟩

theorem calls_refine_some : ∃ m, Runs.run (memCall (2 ^ 33)) someCalls (⟨fun _ => ⟨[], []⟩, someMem.init, 0⟩, []) =
    some (m, (someCalls.foldl listCall ([], [])).2) ∧ m.Lists keyvalCmp (someCalls.foldl listCall ([], [])).1 := by
  obtain ⟨m, hrun, hholds, -⟩ := calls_refine
    (fun _ => ⟨[], []⟩) someMem someCalls (show someCalls.length * 2 ^ 32 ≤ 2 ^ 33 by decide)
  exact ⟨m, hrun, hholds⟩

end AlgaeBp.Settings
