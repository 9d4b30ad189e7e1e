import AlgaeBp.Lib.Strings
/-!
# Looking up a key in a uevent

`mini_udev_uevent_check` and `mini_udev_uevent_is_hidraw` of `udev_mini.c`. A
position is counted from the beginning of the buffer, which is an object of its
own: whatever reads behind it answers `none`, and so does a loop that takes more
turns than there are bytes. `check_eq` says that neither happens.
-/

namespace AlgaeBp.Udev

open Strings

/-! ## The code -/

/-- `strncmp(p, key, key_len) == 0 && p[key_len] == '='` -/
def hasKey (buf : List UInt8) (p : Nat) (key : List UInt8) (keyLen : Nat) : Option Bool := do
  let same ← strncmp (buf.drop p) key keyLen
  if same then buf[p + keyLen]?.map (· == 0x3d) else some false

/-- The loop from `p` on. -/
def checkLoop (buf : List UInt8) (len : Int) (key : List UInt8) (keyLen : Nat) : Nat → Nat → Option (Option Nat)
  | 0, _ => none
  | turns + 1, p =>
    if (p : Int) < len then do
      let c ← buf[p]?
      if c = 0 then some none
      else do
        let found ← hasKey buf p key keyLen
        if found then some (some (p + keyLen + 1))
        else do
          let n ← strlen (buf.drop p)
          checkLoop buf len key keyLen turns (p + n + 1)
    else some none

def miniUdevUeventCheck (buf : List UInt8) (len : Int) (key : List UInt8) : Option (Option Nat) := do
  let keyLen ← strlen key
  checkLoop buf len key keyLen (buf.length + 1) 0

/-- `"SUBSYSTEM"` -/
def subsystem : Str := ⟨[0x53, 0x55, 0x42, 0x53, 0x59, 0x53, 0x54, 0x45, 0x4d], by decide⟩

/-- `"hidraw"` -/
def hidraw : Str := ⟨[0x68, 0x69, 0x64, 0x72, 0x61, 0x77], by decide⟩

def miniUdevUeventIsHidraw (buf : List UInt8) (len : Int) : Option Int := do
  let found ← miniUdevUeventCheck buf len subsystem.object
  match found with
  | none => some 0
  | some p => do
    let keyLen ← strlen hidraw.object
    let same ← strncmp (buf.drop p) hidraw.object keyLen
    some (if same then 1 else 0)

/-! ## What is looked up -/

/-- The entries of `len` bytes with a `NUL` behind them. -/
def entries (bytes : List UInt8) : List (List UInt8) := bytes.splitOn 0

/-- The text behind `key=` in the first entry that begins so, none of those before it being empty. -/
def lookup (bytes key : List UInt8) : Option (List UInt8) :=
  (((entries bytes).takeWhile (· ≠ [])).find? fun e => decide (key ++ [0x3d] <+: e)).map (·.drop (key.length + 1))

variable {bytes s rest key : List UInt8}

theorem lookup_nil (key : List UInt8) : lookup [] key = none := rfl

theorem lookup_empty (rest key : List UInt8) : lookup (0 :: rest) key = none := by
  have hsplit : (0 :: rest).splitOn 0 = [] :: rest.splitOn 0 :=
    List.splitOn_append_cons_self_of_not_mem List.not_mem_nil rest
  rw [lookup, entries, hsplit]
  rfl

/-- The last entry. -/
theorem lookup_last (hs : 0 ∉ s) (hne : s ≠ []) :
    lookup s key = if key ++ [0x3d] <+: s then some (s.drop (key.length + 1)) else none := by
  rw [lookup, entries, List.splitOn_eq_singleton hs, List.takeWhile_cons_of_pos (by simpa using hne), List.takeWhile_nil,
    List.find?_singleton]
  split <;> simp_all

/-- An entry with others behind it. -/
theorem lookup_cons (hs : 0 ∉ s) (hne : s ≠ []) (rest : List UInt8) :
    lookup (s ++ 0 :: rest) key = if key ++ [0x3d] <+: s then some (s.drop (key.length + 1)) else lookup rest key := by
  rw [lookup, lookup, entries, entries, List.splitOn_append_cons_self_of_not_mem hs,
    List.takeWhile_cons_of_pos (by simpa using hne), List.find?_cons]
  split <;> simp_all

/-! ## The loop -/

theorem hasKey_eq {buf : List UInt8} {p : Nat} (hdrop : buf.drop p = s ++ 0 :: rest) (hs : 0 ∉ s) (key : Str) :
    hasKey buf p key.object key.bytes.length = some (decide (key.bytes ++ [0x3d] <+: s)) := by
  rw [hasKey, hdrop, Str.object, strncmp_append hs key.nonzero, Option.bind_eq_bind, Option.bind_some]
  by_cases hpre : key.bytes <+: s
  · obtain ⟨t, rfl⟩ := hpre
    rw [if_pos (decide_eq_true (List.prefix_append _ _)), ← List.getElem?_drop, hdrop, List.append_assoc,
      List.getElem?_append_right (Nat.le_refl _), Nat.sub_self]
    simp only [List.prefix_append_right_inj]
    cases t with
    | nil => rfl
    | cons c t =>
      rw [List.cons_append, List.getElem?_cons_zero, Option.map_some, beq_eq_decide]
      simp only [List.cons_prefix_cons, List.nil_prefix, and_true, eq_comm]
  · rw [decide_eq_false hpre, if_neg Bool.false_ne_true, decide_eq_false]
    intro hlong
    exact hpre ((List.prefix_append _ _).trans hlong)

/-- One turn, at an entry. -/
theorem checkLoop_entry {buf : List UInt8} {len : Int} {p : Nat} (hdrop : buf.drop p = s ++ 0 :: rest) (hs : 0 ∉ s)
    (hne : s ≠ []) (hlt : (p : Int) < len) (key : Str) (turns : Nat) :
    checkLoop buf len key.object key.bytes.length (turns + 1) p =
      if key.bytes ++ [0x3d] <+: s then some (some (p + key.bytes.length + 1))
      else checkLoop buf len key.object key.bytes.length turns (p + s.length + 1) := by
  obtain ⟨c, t, rfl⟩ := List.exists_cons_of_ne_nil hne
  have hc : c ≠ 0 := by
    rintro rfl
    exact hs List.mem_cons_self
  have hread : buf[p]? = some c := by
    rw [← List.head?_drop, hdrop]
    rfl
  rw [checkLoop, if_pos hlt, hread, Option.bind_eq_bind, Option.bind_some, if_neg hc, hasKey_eq hdrop hs, hdrop,
    strlen_append hs]
  simp only [Option.bind_eq_bind, Option.bind_some, decide_eq_true_eq]

theorem key_le (hpre : key ++ [0x3d] <+: s) : key.length + 1 ≤ s.length := by
  have hlen := hpre.length_le
  rwa [List.length_append, List.length_singleton] at hlen

/-- What is said at a found position. -/
theorem string_found {buf : List UInt8} {p : Nat} (hdrop : buf.drop p = s ++ 0 :: rest) (hs : 0 ∉ s)
    (hpre : key ++ [0x3d] <+: s) : string (buf.drop (p + key.length + 1)) = s.drop (key.length + 1) := by
  rw [Nat.add_assoc, ← List.drop_drop, hdrop, List.drop_append_of_le_length (key_le hpre)]
  exact string_append (fun hmem => hs (List.mem_of_mem_drop hmem)) rest

/-- **The loop.** From an entry on it finds what is looked up in the entries from there on. -/
theorem checkLoop_eq (key : Str) {b : List UInt8} {p turns : Nat} (hdrop : (bytes ++ [0]).drop p = b ++ [0])
    (hp : p + b.length = bytes.length) (hturns : b.length < turns) :
    ∃ r, checkLoop (bytes ++ [0]) bytes.length key.object key.bytes.length turns p = some r ∧
      r.map (fun q => string ((bytes ++ [0]).drop q)) = lookup b key.bytes ∧ ∀ q ∈ r, q ≤ bytes.length := by
  have hnone : ∀ q ∈ (none : Option Nat), q ≤ bytes.length := fun _ hq => nomatch hq
  induction turns generalizing b p with
  | zero => exact absurd hturns (Nat.not_lt_zero _)
  | succ turns ih =>
    obtain ⟨s, hs, hb⟩ := exists_string b
    rcases eq_or_ne s [] with rfl | hne
    · refine ⟨none, ?_, ?_, hnone⟩
      · rcases hb with rfl | ⟨rest, rfl⟩
        · exact if_neg (by simp at hp; omega)
        · have hlt : (p : Int) < bytes.length := by
            rw [List.nil_append, List.length_cons] at hp
            omega
          have hread : (bytes ++ [0])[p]? = some 0 := by
            rw [← List.head?_drop, hdrop]
            rfl
          rw [checkLoop, if_pos hlt, hread]
          rfl
      · rcases hb with rfl | ⟨rest, rfl⟩
        · exact (lookup_nil key.bytes).symm
        · exact (lookup_empty rest key.bytes).symm
    · have hpos := List.length_pos_iff.2 hne
      rcases hb with rfl | ⟨rest, rfl⟩
      · -- the entry that `len` may have cut
        rw [checkLoop_entry hdrop hs hne (by omega), lookup_last hs hne]
        split
        case isTrue hpre =>
          have hle := key_le hpre
          exact ⟨_, rfl, congrArg some (string_found hdrop hs hpre), by rintro _ ⟨⟩; omega⟩
        case isFalse =>
          obtain ⟨turns, rfl⟩ := Nat.exists_eq_succ_of_ne_zero (by omega : turns ≠ 0)
          exact ⟨none, if_neg (by omega), rfl, hnone⟩
      · have hdrop' : (bytes ++ [0]).drop p = s ++ 0 :: (rest ++ [0]) := by
          rw [hdrop, List.append_assoc, List.cons_append]
        rw [List.length_append, List.length_cons] at hp hturns
        rw [checkLoop_entry hdrop' hs hne (by omega), lookup_cons hs hne]
        split
        case isTrue hpre =>
          have hle := key_le hpre
          exact ⟨_, rfl, congrArg some (string_found hdrop' hs hpre), by rintro _ ⟨⟩; omega⟩
        case isFalse =>
          apply ih
          · rw [Nat.add_assoc, ← List.drop_drop, hdrop', ← List.drop_drop, List.drop_left]
            rfl
          · omega
          · omega

theorem check_loop (buf : List UInt8) (len : Int) (key : Str) :
    miniUdevUeventCheck buf len key.object = checkLoop buf len key.object key.bytes.length (buf.length + 1) 0 := by
  rw [miniUdevUeventCheck, key.strlen_object, Option.bind_eq_bind, Option.bind_some]

theorem turns_lt (bytes : List UInt8) : bytes.length < (bytes ++ [0]).length + 1 := by
  rw [List.length_append]
  omega

/-- **The lookup of a key**, in any bytes with a `NUL` behind them. -/
theorem check_eq (bytes : List UInt8) (key : Str) :
    ∃ r, miniUdevUeventCheck (bytes ++ [0]) bytes.length key.object = some r ∧
      r.map (fun q => string ((bytes ++ [0]).drop q)) = lookup bytes key.bytes ∧ ∀ q ∈ r, q ≤ bytes.length := by
  rw [check_loop]
  apply checkLoop_eq
  · rfl
  · exact Nat.zero_add _
  · exact turns_lt bytes

/-- The event is about a hidraw device if the text of `SUBSYSTEM` begins so. -/
theorem isHidraw_eq (bytes : List UInt8) :
    miniUdevUeventIsHidraw (bytes ++ [0]) bytes.length =
      some (if ((lookup bytes subsystem.bytes).any fun t => decide (hidraw.bytes <+: t)) then 1 else 0) := by
  obtain ⟨r, hr, hlookup, hle⟩ := checkLoop_eq subsystem (b := bytes) rfl (Nat.zero_add _) (turns_lt bytes)
  rw [miniUdevUeventIsHidraw, check_loop, hr, Option.bind_eq_bind, Option.bind_some, ← hlookup]
  rcases r with _ | q
  · rfl
  obtain ⟨s, rest, hs, hdrop⟩ : ∃ s rest, 0 ∉ s ∧ (bytes ++ [0]).drop q = s ++ 0 :: rest := by
    rw [List.drop_append_of_le_length (hle q rfl)]
    obtain ⟨s, hs, heq | ⟨rest, heq⟩⟩ := exists_string (bytes.drop q)
    · exact ⟨s, [], hs, by rw [heq]⟩
    · exact ⟨s, rest ++ [0], hs, by rw [heq, List.append_assoc, List.cons_append]⟩
  simp only [hidraw.strlen_object, Option.bind_eq_bind, Option.bind_some, Option.map_some, Option.any_some]
  simp only [hdrop, Str.object, strncmp_append hs hidraw.nonzero, string_append hs, Option.bind_some]

end AlgaeBp.Udev
