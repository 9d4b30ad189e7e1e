import AlgaeBp.Lib.Bytes
import Mathlib.Data.Nat.Basic
/-!
# Guarded memory

`aloe_malloc`, `aloe_calloc` and `aloe_free` of `sys_linux.cpp` with
`aloe_mem_init` and `aloe_mem_check` of `sys.cpp`, where `size_t` and pointers
have 64 bits. `malloc` is a parameter: `NULL`, or an array of the bytes asked for
and its address. Whatever leaves the array answers `none`.
-/

namespace AlgaeBp.Sys

open Bytes

/-! ## The code -/

/-- What `malloc(n)` gives. -/
structure Chunk (n : Nat) where
  addr : UInt64
  mem : Block n
  deriving DecidableEq, Repr

/-- `sizeof(aloe_mem_t)`: `sig`, `id` and `sz`, packed. -/
def memSize : Nat := 20

/-- `sizeof(aloe_mem_t *)` -/
def ptrSize : Nat := 8

variable {n : Nat}

/-- The guard is a pointer to the record, right behind the user bytes. -/
def aloeMemInit (sig : UInt64) (mm : Chunk n) (id : UInt32) (sz : UInt64) : Option (Chunk n) := do
  let mem ← mm.mem.store 0 (leBytes 8 sig.toNat)
  let mem ← mem.store 8 (leBytes 4 id.toNat)
  let mem ← mem.store 12 (leBytes 8 sz.toNat)
  let mem ← mem.store (memSize + sz.toNat) (leBytes 8 mm.addr.toNat)
  some { mm with mem }

def aloeMemCheck (sig : UInt64) (mm : Chunk n) : Option Int := do
  if leNat (← mm.mem.load 0 8) ≠ sig.toNat then some (-1)
  else do
    let sz ← mm.mem.load 12 8
    if leNat (← mm.mem.load (memSize + leNat sz) 8) ≠ mm.addr.toNat then some 1
    else some 0

/-- `aloe_mem_id_stdc` -/
def aloeMemIdStdc : UInt32 := 0

/-- What is asked of `malloc`. -/
def mallocSize (sz : UInt64) : UInt64 := .ofNat memSize + sz + .ofNat ptrSize

/-- `sig` is the address of `aloe_mem_sig`. -/
def aloeMalloc (malloc : (n : UInt64) → Option (Chunk n.toNat)) (sig sz : UInt64) :
    Option (Option (Chunk (mallocSize sz).toNat)) :=
  match malloc (mallocSize sz) with
  | none => some none
  | some mm => do
    let mm ← aloeMemInit sig mm aloeMemIdStdc sz
    some (some mm)

def aloeCalloc (malloc : (n : UInt64) → Option (Chunk n.toNat)) (sig cnt sz : UInt64) :
    Option (Option (Chunk (mallocSize (sz * cnt)).toNat)) := do
  match ← aloeMalloc malloc sig (sz * cnt) with
  | none => some none
  | some mm => do
    let mem ← mm.mem.store memSize (List.replicate (sz * cnt).toNat 0)
    some (some { mm with mem })

/-- The answer, and the record if it is not released. -/
def aloeFree (sig : UInt64) (p : Option (Chunk n)) : Option (Int × Option (Chunk n)) :=
  match p with
  | none => some (0, none)
  | some mm => do
    let ret ← aloeMemCheck sig mm
    if ret < 0 then some (-1, some mm)
    else do
      let mem ← mm.mem.store 0 (leBytes 8 0)
      let id ← mem.load 8 4
      some (ret, if leNat id = aloeMemIdStdc.toNat then none else some { mm with mem })

/-! ## The layout -/

/-- The bytes of `aloe_mem_t`. -/
def header (sig sz : UInt64) : List UInt8 :=
  leBytes 8 sig.toNat ++ (leBytes 4 aloeMemIdStdc.toNat ++ leBytes 8 sz.toNat)

/-- The record, `sz` user bytes and the guard. -/
def Laid (sig sz : UInt64) (mm : Chunk n) : Prop :=
  ∃ user : List UInt8, user.length = sz.toNat ∧ mm.mem.bytes = header sig sz ++ (user ++ leBytes 8 mm.addr.toNat)

variable {sig sz : UInt64} {mm : Chunk n}

theorem length_header (sig sz : UInt64) : (header sig sz).length = memSize := by
  simp only [header, List.length_append, length_leBytes]
  rfl

theorem aloeMemInit_laid (sig : UInt64) (mm : Chunk n) (hn : n = memSize + sz.toNat + ptrSize) :
    ∃ mm', aloeMemInit sig mm aloeMemIdStdc sz = some mm' ∧ Laid sig sz mm' := by
  unfold memSize ptrSize at hn
  have hroom : ∀ off k v, off + k ≤ 20 → off + (leBytes k v).length ≤ n := by
    intro off k v hle
    rw [length_leBytes]
    omega
  obtain ⟨m₁, hm₁, hbytes₁⟩ := store_some (p := mm.mem) (hroom 0 8 sig.toNat (by decide))
  obtain ⟨m₂, hm₂, hbytes₂⟩ := store_some (p := m₁) (hroom 8 4 aloeMemIdStdc.toNat (by decide))
  obtain ⟨m₃, hm₃, hbytes₃⟩ := store_some (p := m₂) (hroom 12 8 sz.toNat (by decide))
  have hguard : 20 + sz.toNat + (leBytes 8 mm.addr.toNat).length ≤ n := by
    rw [length_leBytes]
    omega
  obtain ⟨m₄, hm₄, hbytes₄⟩ := store_some (p := m₃) hguard
  have htake₁ := take_store (hroom 0 8 sig.toNat (by decide)) hbytes₁
  have htake₂ := take_store (hroom 8 4 aloeMemIdStdc.toNat (by decide)) hbytes₂
  have htake₃ := take_store (hroom 12 8 sz.toNat (by decide)) hbytes₃
  simp only [length_leBytes, Nat.reduceAdd, List.take_zero, List.nil_append] at htake₁ htake₂ htake₃
  refine ⟨{ mm with mem := m₄ }, ?_, (m₃.bytes.drop 20).take sz.toNat, ?_, ?_⟩
  · simp only [aloeMemInit, memSize, hm₁, hm₂, hm₃, hm₄, Option.bind_eq_bind, Option.bind_some]
  · rw [List.length_take, List.length_drop, m₃.size]
    omega
  · have hend : m₃.bytes.drop (20 + sz.toNat + (leBytes 8 mm.addr.toNat).length) = [] := by
      apply List.drop_eq_nil_of_le
      rw [m₃.size, length_leBytes]
      omega
    rw [hbytes₄, hend, List.take_add, htake₃, htake₂, htake₁]
    simp only [header, List.append_assoc, List.append_nil]

theorem laid_size (h : Laid sig sz mm) : n = memSize + sz.toNat + ptrSize := by
  obtain ⟨user, huser, hbytes⟩ := h
  have hsize := mm.mem.size
  rw [hbytes, List.length_append, List.length_append, length_header, length_leBytes, huser] at hsize
  unfold ptrSize
  omega

/-- The fields of the header, in a block that begins so. -/
theorem load_header {mem : Block n} {rest : List UInt8} (h : mem.bytes = header sig sz ++ rest) :
    mem.load 0 8 = some (leBytes 8 sig.toNat) ∧ mem.load 8 4 = some (leBytes 4 aloeMemIdStdc.toNat) ∧
      mem.load 12 8 = some (leBytes 8 sz.toNat) := by
  rw [header, List.append_assoc, List.append_assoc] at h
  refine ⟨load_append (a := []) h rfl (length_leBytes _ _), load_append h (length_leBytes _ _) (length_leBytes _ _), ?_⟩
  rw [← List.append_assoc] at h
  apply load_append h
  · rw [List.length_append, length_leBytes, length_leBytes]
  · exact length_leBytes _ _

theorem leNat_word (v : UInt64) : leNat (leBytes 8 v.toNat) = v.toNat := leNat_leBytes v.toNat_lt

/-- The check of a record with this behind its user bytes. -/
theorem aloeMemCheck_guard {user guard : List UInt8} (huser : user.length = sz.toNat) (hguard : guard.length = ptrSize)
    (h : mm.mem.bytes = header sig sz ++ (user ++ guard)) :
    aloeMemCheck sig mm = some (if leNat guard ≠ mm.addr.toNat then 1 else 0) := by
  obtain ⟨hsig, -, hsz⟩ := load_header h
  have hload : mm.mem.load (memSize + sz.toNat) 8 = some guard := by
    rw [← List.append_nil guard, ← List.append_assoc, ← List.append_assoc, List.append_assoc _ guard] at h
    apply load_append h
    · rw [List.length_append, length_header, huser]
    · exact hguard
  simp only [aloeMemCheck, hsig, hsz, leNat_word, hload, Option.bind_eq_bind, Option.bind_some]
  rw [if_neg (not_not_intro rfl)]
  split <;> rfl

/-- The record is released, whatever the check says of the guard. -/
theorem aloeFree_guard {user guard : List UInt8} (huser : user.length = sz.toNat) (hguard : guard.length = ptrSize)
    (h : mm.mem.bytes = header sig sz ++ (user ++ guard)) :
    aloeFree sig (some mm) = some (if leNat guard ≠ mm.addr.toNat then 1 else 0, none) := by
  have hcheck := aloeMemCheck_guard huser hguard h
  rw [header, List.append_assoc, List.append_assoc] at h
  obtain ⟨mem, hmem, hcleared⟩ := store_append (a := []) h (rfl : ([] : List UInt8).length = 0)
    (by rw [length_leBytes, length_leBytes] : (leBytes 8 sig.toNat).length = (leBytes 8 0).length)
  rw [List.length_nil] at hmem
  rw [List.nil_append] at hcleared
  have hid : mem.load 8 4 = some (leBytes 4 aloeMemIdStdc.toNat) :=
    load_append hcleared (length_leBytes _ _) (length_leBytes _ _)
  have hnonneg : ¬(if leNat guard ≠ mm.addr.toNat then (1 : Int) else 0) < 0 := by
    split <;> decide
  simp only [aloeFree, hcheck, hmem, hid, Option.bind_eq_bind, Option.bind_some]
  rw [if_neg hnonneg]
  rfl

/-- `mm'` differs from `mm` in the first `user` user bytes at most. -/
structure WritesUser (user : Nat) (mm mm' : Chunk n) : Prop where
  addr : mm'.addr = mm.addr
  header : mm'.mem.bytes.take memSize = mm.mem.bytes.take memSize
  guard : mm'.mem.bytes.drop (memSize + user) = mm.mem.bytes.drop (memSize + user)

theorem laid_writesUser {mm' : Chunk n} (h : Laid sig sz mm) (hw : WritesUser sz.toNat mm mm') : Laid sig sz mm' := by
  have hn := laid_size h
  unfold memSize ptrSize at hn
  obtain ⟨user, huser, hbytes⟩ := h
  have hheader : mm'.mem.bytes.take memSize = header sig sz := by
    rw [hw.header, hbytes, ← length_header sig sz, List.take_left]
  have hguard : mm'.mem.bytes.drop (memSize + sz.toNat) = leBytes 8 mm'.addr.toNat := by
    rw [hw.guard, hw.addr, hbytes, ← List.drop_drop, ← length_header sig sz, List.drop_left, ← huser, List.drop_left]
  refine ⟨(mm'.mem.bytes.drop memSize).take sz.toNat, ?_, ?_⟩
  · rw [List.length_take, List.length_drop, mm'.mem.size]
    unfold memSize
    omega
  · rw [← hheader, ← hguard, ← List.drop_drop, List.take_append_drop, List.take_append_drop]

theorem aloeFree_laid (h : Laid sig sz mm) : aloeFree sig (some mm) = some (0, none) := by
  obtain ⟨user, huser, hbytes⟩ := h
  rw [aloeFree_guard huser (length_leBytes 8 _) hbytes, leNat_word, if_neg (not_not_intro rfl)]

/-- Whoever writes into the guard is reported. -/
theorem aloeFree_overflow {user guard : List UInt8} (huser : user.length = sz.toNat) (hguard : guard.length = ptrSize)
    (h : mm.mem.bytes = header sig sz ++ (user ++ guard)) (hne : guard ≠ leBytes 8 mm.addr.toNat) :
    aloeFree sig (some mm) = some (1, none) := by
  rw [aloeFree_guard huser hguard h, if_pos]
  intro heq
  apply hne
  rw [← heq, ← leBytes_leNat guard, hguard, leNat_leBytes]
  · rfl
  · exact hguard ▸ leNat_lt guard

/-! ## Allocation -/

/-- The header, `user` bytes and the guard are inside, and after writes to these bytes the
chunk is released without complaint. -/
structure Holds (sig : UInt64) (user : Nat) (mm : Chunk n) : Prop where
  room : memSize + user + ptrSize ≤ n
  released : ∀ mm', WritesUser user mm mm' → aloeFree sig (some mm') = some (0, none)

/-- `aloe_malloc` stays inside, and what it gives holds `sz` bytes. -/
def MallocHolds (malloc : (n : UInt64) → Option (Chunk n.toNat)) (sig sz : UInt64) : Prop :=
  ∃ r, aloeMalloc malloc sig sz = some r ∧ ∀ mm ∈ r, Holds sig sz.toNat mm

/-- `aloe_calloc` stays inside, and what it gives holds `cnt * sz` bytes, all of them 0. -/
def CallocHolds (malloc : (n : UInt64) → Option (Chunk n.toNat)) (sig cnt sz : UInt64) : Prop :=
  ∃ r, aloeCalloc malloc sig cnt sz = some r ∧ ∀ mm ∈ r, Holds sig (cnt.toNat * sz.toNat) mm ∧
    (mm.mem.bytes.drop memSize).take (cnt.toNat * sz.toNat) = List.replicate (cnt.toNat * sz.toNat) 0

theorem laid_holds (h : Laid sig sz mm) : Holds sig sz.toNat mm where
  room := Nat.le_of_eq (laid_size h).symm
  released _ hw := aloeFree_laid (laid_writesUser h hw)

theorem toNat_mallocSize (sz : UInt64) : (mallocSize sz).toNat = (memSize + sz.toNat + ptrSize) % 2 ^ 64 := by
  unfold mallocSize memSize ptrSize
  rw [UInt64.toNat_add, UInt64.toNat_add, UInt64.toNat_ofNat', UInt64.toNat_ofNat']
  omega

theorem mallocSize_eq (h : memSize + sz.toNat + ptrSize < 2 ^ 64) :
    (mallocSize sz).toNat = memSize + sz.toNat + ptrSize := by
  rw [toNat_mallocSize, Nat.mod_eq_of_lt h]

variable {malloc : (n : UInt64) → Option (Chunk n.toNat)}

theorem aloeMalloc_null (sig : UInt64) (h : malloc (mallocSize sz) = none) : aloeMalloc malloc sig sz = some none := by
  rw [aloeMalloc, h]

theorem aloeMalloc_laid (sig : UInt64) (h : memSize + sz.toNat + ptrSize < 2 ^ 64)
    {mm : Chunk (mallocSize sz).toNat} (hmm : malloc (mallocSize sz) = some mm) :
    ∃ mm', aloeMalloc malloc sig sz = some (some mm') ∧ Laid sig sz mm' := by
  obtain ⟨mm', hinit, hlaid⟩ := aloeMemInit_laid sig mm (mallocSize_eq h)
  refine ⟨mm', ?_, hlaid⟩
  rw [aloeMalloc, hmm]
  simp only [hinit, Option.bind_eq_bind, Option.bind_some]

/-- A chunk that `malloc` gave is not lost. -/
theorem aloeMalloc_some {mm : Chunk (mallocSize sz).toNat} (hmm : malloc (mallocSize sz) = some mm)
    {r : Option (Chunk (mallocSize sz).toNat)} (h : aloeMalloc malloc sig sz = some r) : ∃ mm', r = some mm' := by
  rw [aloeMalloc, hmm, Option.bind_eq_bind, Option.bind_eq_some_iff] at h
  obtain ⟨mm', -, hsome⟩ := h
  cases hsome
  exact ⟨mm', rfl⟩

/-- No chunk has `2^64` bytes. -/
theorem not_holds {mm : Chunk (mallocSize sz).toNat} {user : Nat} (h : ¬memSize + user + ptrSize < 2 ^ 64) :
    ¬Holds sig user mm := by
  intro hholds
  exact h (Nat.lt_of_le_of_lt hholds.room (mallocSize sz).toNat_lt)

theorem mallocHolds_iff (malloc : (n : UInt64) → Option (Chunk n.toNat)) (sig sz : UInt64) :
    MallocHolds malloc sig sz ↔ malloc (mallocSize sz) = none ∨ memSize + sz.toNat + ptrSize < 2 ^ 64 := by
  constructor
  · rintro ⟨r, hr, hholds⟩
    by_contra hnot
    rw [not_or] at hnot
    obtain ⟨mm, hmm⟩ := Option.ne_none_iff_exists'.1 hnot.1
    obtain ⟨mm', rfl⟩ := aloeMalloc_some hmm hr
    exact not_holds hnot.2 (hholds mm' rfl)
  · rintro (hnull | hlt)
    · exact ⟨none, aloeMalloc_null sig hnull, fun _ hmm => nomatch hmm⟩
    · cases hmm : malloc (mallocSize sz) with
      | none => exact ⟨none, aloeMalloc_null sig hmm, fun _ h => nomatch h⟩
      | some mm =>
        obtain ⟨mm', hmalloc, hlaid⟩ := aloeMalloc_laid sig hlt hmm
        refine ⟨some mm', hmalloc, ?_⟩
        rintro _ ⟨⟩
        exact laid_holds hlaid

/-- The zero fill. -/
theorem fill_laid (h : Laid sig sz mm) :
    ∃ mem, mm.mem.store memSize (List.replicate sz.toNat 0) = some mem ∧ Laid sig sz { mm with mem } ∧
      (mem.bytes.drop memSize).take sz.toNat = List.replicate sz.toNat 0 := by
  obtain ⟨user, huser, hbytes⟩ := h
  obtain ⟨mem, hmem, hfilled⟩ := store_append hbytes (length_header sig sz)
    (by rw [huser, List.length_replicate] : user.length = (List.replicate sz.toNat (0 : UInt8)).length)
  refine ⟨mem, hmem, ⟨_, List.length_replicate, hfilled⟩, ?_⟩
  rw [hfilled, ← length_header sig sz, List.drop_left]
  exact List.take_left' List.length_replicate

theorem toNat_product (cnt sz : UInt64) (h : cnt.toNat * sz.toNat < 2 ^ 64) : (sz * cnt).toNat = cnt.toNat * sz.toNat := by
  rw [UInt64.toNat_mul, Nat.mul_comm, Nat.mod_eq_of_lt h]

theorem callocHolds_iff (malloc : (n : UInt64) → Option (Chunk n.toNat)) (sig cnt sz : UInt64) :
    CallocHolds malloc sig cnt sz ↔
      malloc (mallocSize (sz * cnt)) = none ∨ memSize + cnt.toNat * sz.toNat + ptrSize < 2 ^ 64 := by
  constructor
  · rintro ⟨r, hr, hholds⟩
    by_contra hnot
    rw [not_or] at hnot
    obtain ⟨mm, hmm⟩ := Option.ne_none_iff_exists'.1 hnot.1
    rw [aloeCalloc, Option.bind_eq_bind, Option.bind_eq_some_iff] at hr
    obtain ⟨r₁, hmalloc, hfill⟩ := hr
    obtain ⟨mm', rfl⟩ := aloeMalloc_some hmm hmalloc
    rw [Option.bind_eq_bind, Option.bind_eq_some_iff] at hfill
    obtain ⟨mem, -, hsome⟩ := hfill
    cases hsome
    exact not_holds hnot.2 (hholds _ rfl).1
  · intro h
    cases hmm : malloc (mallocSize (sz * cnt)) with
    | none =>
      refine ⟨none, ?_, fun _ h => nomatch h⟩
      rw [aloeCalloc, aloeMalloc_null sig hmm]
      rfl
    | some mm =>
      have hlt := h.resolve_left (by rw [hmm]; exact Option.some_ne_none mm)
      have hproduct := toNat_product cnt sz (by unfold memSize ptrSize at hlt; omega)
      rw [← hproduct] at hlt
      obtain ⟨mm', hmalloc, hlaid⟩ := aloeMalloc_laid sig hlt hmm
      obtain ⟨mem, hmem, hlaid', hzero⟩ := fill_laid hlaid
      refine ⟨some { mm' with mem }, ?_, ?_⟩
      · rw [aloeCalloc, hmalloc, Option.bind_eq_bind, Option.bind_some]
        simp only [hmem, Option.bind_eq_bind, Option.bind_some]
      · rintro _ ⟨⟩
        rw [← hproduct]
        exact ⟨laid_holds hlaid', hzero⟩

/-- **Guarded memory** is large enough just when the sum of the sizes, which `malloc` is
asked for modulo `2^64`, does not exceed it, or there is no memory anyway. -/
theorem aloeMem_iff (malloc : (n : UInt64) → Option (Chunk n.toNat)) (sig : UInt64) :
    (∀ sz, MallocHolds malloc sig sz ↔ malloc (mallocSize sz) = none ∨ memSize + sz.toNat + ptrSize < 2 ^ 64) ∧
    (∀ cnt sz, CallocHolds malloc sig cnt sz ↔
      malloc (mallocSize (sz * cnt)) = none ∨ memSize + cnt.toNat * sz.toNat + ptrSize < 2 ^ 64) :=
  ⟨mallocHolds_iff malloc sig, callocHolds_iff malloc sig⟩

/-- A page at most. -/
def page (n : UInt64) : Option (Chunk n.toNat) :=
  if n ≤ 4096 then some { addr := 0x5000, mem := Block.fill _ 0xaa } else none

theorem page_ne_none {n : UInt64} (h : n ≤ 4096) : page n ≠ none := by
  rw [page, if_pos h]
  exact Option.some_ne_none _

/-- `aloe_malloc(-1)` gets 27 bytes, and `aloe_calloc(1 << 63, 2)` 28. -/
theorem not_holds_page :
    (¬∀ (malloc : (n : UInt64) → Option (Chunk n.toNat)) (sig sz : UInt64), MallocHolds malloc sig sz) ∧
    ¬∀ (malloc : (n : UInt64) → Option (Chunk n.toNat)) (sig cnt sz : UInt64), CallocHolds malloc sig cnt sz := by
  constructor
  · intro hall
    rcases (mallocHolds_iff page 0x4000 0xffffffffffffffff).1 (hall page 0x4000 0xffffffffffffffff) with hnull | hlt
    · exact page_ne_none (by decide) hnull
    · exact absurd hlt (by decide)
  · intro hall
    rcases (callocHolds_iff page 0x4000 0x8000000000000000 2).1 (hall page 0x4000 0x8000000000000000 2) with hnull | hlt
    · exact page_ne_none (by decide) hnull
    · exact absurd hlt (by decide)

end AlgaeBp.Sys
