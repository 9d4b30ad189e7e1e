import AlgaeBp.Lib.Bytes
import AlgaeBp.Lib.Ints
import Mathlib.Data.Set.Finite.Lattice
/-!
# Blocking reads and writes

`aloe_bio_read` and `aloe_bio_write` of `util.cpp`. What the system answers to
the calls of a loop is given in advance, and how many turns the loop may take;
one that would take more answers `none`. The two loops differ only in the call.
-/

namespace AlgaeBp.Util

open Bytes Ints

/-! ## The code -/

/-- What `read` or `write` comes to. -/
inductive Result where
  /-- That many bytes are moved, or as many as were asked for or are there. -/
  | moved (n : Nat)
  | eintr
  /-- Any other error. -/
  | error
  deriving DecidableEq, Repr

variable {σ : Type}

/-- The loop over `call`, which moves bytes from or to position `pos`. The results are recorded. -/
def bioLoop (call : Nat → Nat → σ → Option (Nat × σ)) (answers : Nat → Result) (sz : Nat) :
    Nat → Nat → Nat → σ → List Result → Option (Nat × σ × List Result)
  | 0, _, _, _, _ => none
  | turns + 1, k, pos, s, calls =>
    if pos < sz then
      match answers k with
      | .eintr => bioLoop call answers sz turns (k + 1) pos s (calls ++ [.eintr])
      | .error => some (pos, s, calls ++ [.error])
      | .moved n => do
        let (moved, s) ← call pos (min n (sz - pos)) s
        if toInt moved < 0 then none -- `errno` would be left from some other call
        else if toInt moved = 0 then some (pos, s, calls ++ [.moved moved])
        else bioLoop call answers sz turns (k + 1) (pos + (toInt moved).toNat) s (calls ++ [.moved moved])
    else some (pos, s, calls)

/-- `read(fd, buf + pos, n)`, where `input` is what can be read. -/
def readCall {bufSz : Nat} (pos n : Nat) : Block bufSz × List UInt8 → Option (Nat × Block bufSz × List UInt8)
  | (buf, input) => do
    let chunk := input.take n
    let buf ← buf.store pos chunk
    some (chunk.length, buf, input.drop n)

/-- `write(fd, data + pos, n)`, where `output` is what was written. -/
def writeCall (data : List UInt8) (pos n : Nat) (output : List UInt8) : Option (Nat × List UInt8) :=
  let chunk := (data.drop pos).take n
  some (chunk.length, output ++ chunk)

def aloeBioRead {bufSz : Nat} (answers : Nat → Result) (turns : Nat) (buf : Block bufSz) (input : List UInt8) :
    Option (Int × Block bufSz × List UInt8 × List Result) := do
  let (pos, (buf, input), calls) ← bioLoop readCall answers bufSz turns 0 0 (buf, input) []
  if pos < bufSz then do
    let buf ← buf.store pos [0]
    some (toInt pos, buf, input, calls)
  else some (toInt pos, buf, input, calls)

def aloeBioWrite (answers : Nat → Result) (turns : Nat) (data output : List UInt8) :
    Option (Int × List UInt8 × List Result) := do
  let (pos, output, calls) ← bioLoop (writeCall data) answers data.length turns 0 0 output []
  some (toInt pos, output, calls)

/-! ## Results -/

/-- What an answer comes to when so many bytes can be moved. -/
def Result.within (room : Nat) : Result → Result
  | .moved n => .moved (min n room)
  | .eintr => .eintr
  | .error => .error

def Result.bytes : Result → Nat
  | .moved n => n
  | .eintr => 0
  | .error => 0

/-- How many bytes the calls have moved. -/
def movedBy (calls : List Result) : Nat := (calls.map Result.bytes).sum

theorem movedBy_concat (calls : List Result) (r : Result) : movedBy (calls ++ [r]) = movedBy calls + r.bytes := by
  simp [movedBy]

/-- What the first `k` answers come to, where `there` bytes can be moved in all. -/
def results (answers : Nat → Result) (there : Nat) : Nat → List Result
  | 0 => []
  | k + 1 => results answers there k ++ [(answers k).within (there - movedBy (results answers there k))]

/-- These calls came to what was answered, one after the other, and `n` bytes were moved. -/
structure Answered (answers : Nat → Result) (there : Nat) (calls : List Result) (n : Nat) : Prop where
  results : ∃ k, calls = results answers there k
  bytes : n = movedBy calls

/-- The whole request, or a reason why not. -/
def Complete (sz n : Nat) (calls : List Result) : Prop := n = sz ∨ .moved 0 ∈ calls ∨ .error ∈ calls

/-! ## The loop -/

/-- A call moves what was asked for as far as it is there, and keeps `I`, which speaks of the bytes moved so far. -/
def Moves (call : Nat → Nat → σ → Option (Nat × σ)) (sz there : Nat) (I : Nat → σ → Prop) : Prop :=
  ∀ pos n s, pos + n ≤ sz → I pos s → ∃ s', call pos n s = some (min n (there - pos), s') ∧ I (pos + min n (there - pos)) s'

variable {call : Nat → Nat → σ → Option (Nat × σ)} {answers : Nat → Result} {sz there : Nat} {I : Nat → σ → Prop}
  {turns k pos : Nat} {s : σ} {calls : List Result}

/-- One turn with an answer that moves bytes. -/
theorem bioLoop_moved (turns : Nat) (calls : List Result) (hmoves : Moves call sz there I)
    (hthere : there ≤ sz) (hsz : sz ≤ intMax)
    (hlt : pos < sz) (hI : I pos s) {n : Nat} (hanswer : answers k = .moved n) :
    ∃ s', I (pos + min n (there - pos)) s' ∧
      bioLoop call answers sz (turns + 1) k pos s calls =
        if min n (there - pos) = 0 then some (pos, s', calls ++ [(answers k).within (there - pos)])
        else bioLoop call answers sz turns (k + 1) (pos + min n (there - pos)) s'
        (calls ++ [(answers k).within (there - pos)]) := by
  obtain ⟨s', hcall, hI'⟩ := hmoves pos (min n (sz - pos)) s (by omega) hI
  have hmin : min (min n (sz - pos)) (there - pos) = min n (there - pos) := by omega
  rw [hmin] at hcall hI'
  have hint : toInt (min n (there - pos)) = (min n (there - pos) : Nat) := toInt_eq (by omega)
  refine ⟨s', hI', ?_⟩
  rw [bioLoop, if_pos hlt, hanswer]
  dsimp only
  rw [hcall, Option.bind_eq_bind, Option.bind_some]
  dsimp only
  rw [hint, Int.toNat_natCast, if_neg (by omega)]
  exact if_congr (by omega) rfl rfl

/-- However the loop ends. -/
theorem bioLoop_done (hmoves : Moves call sz there I) (hthere : there ≤ sz) (hsz : sz ≤ intMax)
    (hle : pos ≤ sz) (hI : I pos s)
    (hcalls : calls = results answers there k) (hpos : pos = movedBy calls) {r : Nat × σ × List Result}
    (h : bioLoop call answers sz turns k pos s calls = some r) :
    r.1 ≤ sz ∧ I r.1 r.2.1 ∧ Complete sz r.1 r.2.2 ∧ Answered answers there r.2.2 r.1 := by
  induction turns generalizing k pos s calls with
  | zero => cases h
  | succ turns ih =>
    -- the answer goes to the results
    have hnext : calls ++ [(answers k).within (there - pos)] = results answers there (k + 1) := by
      rw [results, ← hcalls, ← hpos]
    have hbytes : pos + ((answers k).within (there - pos)).bytes =
        movedBy (calls ++ [(answers k).within (there - pos)]) := by
      rw [movedBy_concat, ← hpos]
    rcases Nat.lt_or_ge pos sz with hlt | hge
    · cases hanswer : answers k with
      | eintr =>
        rw [bioLoop, if_pos hlt, hanswer] at h
        rw [hanswer] at hnext hbytes
        exact ih hle hI hnext hbytes h
      | error =>
        rw [bioLoop, if_pos hlt, hanswer] at h
        rw [hanswer] at hnext hbytes
        cases h
        exact ⟨hle, hI, Or.inr (Or.inr (List.mem_append_right _ List.mem_cons_self)), ⟨k + 1, hnext⟩, hbytes⟩
      | moved n =>
        obtain ⟨s', hI', hturn⟩ := bioLoop_moved turns calls hmoves hthere hsz hlt hI hanswer
        rw [hturn] at h
        rw [hanswer] at hnext hbytes h
        change pos + min n (there - pos) = _ at hbytes
        split at h
        case isTrue hzero =>
          cases h
          rw [hzero] at hI' hbytes
          refine ⟨hle, hI', Or.inr (Or.inl (List.mem_append_right _ ?_)), ⟨k + 1, hnext⟩, hbytes⟩
          rw [Result.within, hzero]
          exact List.mem_cons_self
        case isFalse => exact ih (by omega) hI' hnext hbytes h
    · rw [bioLoop, if_neg (Nat.not_lt_of_le hge)] at h
      cases h
      exact ⟨hle, hI, Or.inl (Nat.le_antisymm hle hge), ⟨k, hcalls⟩, hpos⟩

/-- It ends when no interrupt comes from some call on. -/
theorem bioLoop_ends (k : Nat) (calls : List Result) (hmoves : Moves call sz there I)
    (hthere : there ≤ sz) (hsz : sz ≤ intMax)
    (hle : pos ≤ sz) (hI : I pos s) {quiet : Nat} (hquiet : ∀ k ≥ quiet, answers k ≠ .eintr)
    (hturns : quiet - k + (sz - pos) < turns) :
    ∃ r, bioLoop call answers sz turns k pos s calls = some r := by
  induction turns generalizing k pos s calls with
  | zero => exact absurd hturns (Nat.not_lt_zero _)
  | succ turns ih =>
    rcases Nat.lt_or_ge pos sz with hlt | hge
    · cases hanswer : answers k with
      | eintr =>
        have hk : k < quiet := by
          by_contra hk
          exact hquiet k (Nat.le_of_not_lt hk) hanswer
        rw [bioLoop, if_pos hlt, hanswer]
        exact ih _ _ hle hI (by omega)
      | error =>
        rw [bioLoop, if_pos hlt, hanswer]
        exact ⟨_, rfl⟩
      | moved n =>
        obtain ⟨s', hI', hturn⟩ := bioLoop_moved turns calls hmoves hthere hsz hlt hI hanswer
        rw [hturn]
        split
        case isTrue => exact ⟨_, rfl⟩
        case isFalse => exact ih _ _ (by omega) hI' (by omega)
    · rw [bioLoop, if_neg (Nat.not_lt_of_le hge)]
      exact ⟨_, rfl⟩

/-! ## Reading -/

/-- What the buffer holds when `pos` bytes are read, `input` being what was there at first. -/
def ReadTo {bufSz : Nat} (buf₀ : Block bufSz) (input : List UInt8) (pos : Nat) (s : Block bufSz × List UInt8) : Prop :=
  input = s.1.bytes.take pos ++ s.2 ∧ s.1.bytes.drop pos = buf₀.bytes.drop pos

theorem readCall_moves {bufSz : Nat} (buf₀ : Block bufSz) (input : List UInt8) :
    Moves readCall bufSz (min bufSz input.length) (ReadTo buf₀ input) := by
  rintro pos n ⟨buf, left⟩ hle ⟨hinput, hkept⟩
  dsimp only at hinput hkept
  have hpos : (buf.bytes.take pos).length = pos := by
    rw [List.length_take, buf.size]
    omega
  have hlen : input.length = pos + left.length := by
    rw [hinput, List.length_append, hpos]
  have hchunk : (left.take n).length = min n (min bufSz input.length - pos) := by
    rw [List.length_take]
    omega
  have hroom : pos + (left.take n).length ≤ bufSz := by omega
  obtain ⟨buf', hbuf', hbytes⟩ := store_some (p := buf) hroom
  rw [← hchunk]
  refine ⟨(buf', left.drop n), ?_, ?_, ?_⟩
  · rw [readCall, hbuf']
    rfl
  · rw [take_store hroom hbytes, List.append_assoc, List.take_append_drop]
    exact hinput
  · rw [drop_store hroom hbytes, ← List.drop_drop, hkept, List.drop_drop]

/-- The first `n` bytes of `input`, with a `NUL` behind them if there is room, and nothing else. -/
structure ReadDone {bufSz : Nat} (answers : Nat → Result) (buf : Block bufSz) (input : List UInt8)
    (n : Nat) (out : Block bufSz) (left : List UInt8) (calls : List Result) : Prop where
  le : n ≤ bufSz
  bytes : input = out.bytes.take n ++ left
  terminated : n < bufSz → out.bytes[n]? = some 0
  kept : out.bytes.drop (n + 1) = buf.bytes.drop (n + 1)
  complete : Complete bufSz n calls
  answered : Answered answers (min bufSz input.length) calls n

theorem aloeBioRead_done {bufSz : Nat} {buf : Block bufSz} {input : List UInt8} (hsz : bufSz ≤ intMax) {n : Int}
    {out : Block bufSz} {left : List UInt8} (h : aloeBioRead answers turns buf input = some (n, out, left, calls)) :
    ∃ pos : Nat, n = pos ∧ ReadDone answers buf input pos out left calls := by
  rw [aloeBioRead, Option.bind_eq_bind, Option.bind_eq_some_iff] at h
  obtain ⟨⟨pos, ⟨buf', left'⟩, calls'⟩, hloop, hfinish⟩ := h
  obtain ⟨hle, ⟨hinput, hkept⟩, hcomplete, hanswered⟩ :=
    bioLoop_done (k := 0) (readCall_moves buf input) (Nat.min_le_left ..) hsz (Nat.zero_le _) ⟨rfl, rfl⟩ rfl rfl hloop
  have hint : toInt pos = pos := toInt_eq (Nat.le_trans hle hsz)
  have hbehind : buf'.bytes.drop (pos + 1) = buf.bytes.drop (pos + 1) := by
    rw [← List.drop_drop, hkept, List.drop_drop]
  dsimp only at hinput hfinish
  split_ifs at hfinish with hlt
  · obtain ⟨buf'', hbuf'', hbytes⟩ := store_nul (p := buf') hlt
    obtain ⟨htake, hnul, hdrop⟩ := nul_stored hle hbytes
    rw [hbuf'', Option.bind_eq_bind, Option.bind_some, Option.some.injEq, Prod.mk.injEq, Prod.mk.injEq,
      Prod.mk.injEq] at hfinish
    obtain ⟨rfl, rfl, rfl, rfl⟩ := hfinish
    refine ⟨pos, hint, hle, ?_, fun _ => hnul, ?_, hcomplete, hanswered⟩
    · rw [htake]
      exact hinput
    · rw [hdrop]
      exact hbehind
  · rw [Option.some.injEq, Prod.mk.injEq, Prod.mk.injEq, Prod.mk.injEq] at hfinish
    obtain ⟨rfl, rfl, rfl, rfl⟩ := hfinish
    exact ⟨pos, hint, hle, hinput, fun h => absurd h hlt, hbehind, hcomplete, hanswered⟩

theorem exists_quiet (h : {k | answers k = .eintr}.Finite) : ∃ quiet, ∀ k ≥ quiet, answers k ≠ .eintr := by
  obtain ⟨last, hlast⟩ := h.bddAbove
  refine ⟨last + 1, ?_⟩
  intro k hk heintr
  have hle : k ≤ last := hlast heintr
  omega

theorem aloeBioRead_ends {bufSz : Nat} (buf : Block bufSz) (input : List UInt8) (hsz : bufSz ≤ intMax)
    (h : {k | answers k = .eintr}.Finite) : ∃ turns r, aloeBioRead answers turns buf input = some r := by
  obtain ⟨quiet, hquiet⟩ := exists_quiet h
  obtain ⟨⟨pos, ⟨buf', left⟩, calls⟩, hloop⟩ :=
    bioLoop_ends 0 [] (s := (buf, input)) (readCall_moves buf input) (Nat.min_le_left ..) hsz
      (Nat.zero_le _) ⟨rfl, rfl⟩ hquiet
      (Nat.lt_succ_self _)
  refine ⟨quiet - 0 + (bufSz - 0) + 1, ?_⟩
  rw [aloeBioRead, hloop, Option.bind_eq_bind, Option.bind_some]
  dsimp only
  split_ifs with hlt
  · obtain ⟨buf'', hbuf'', -⟩ := store_nul (p := buf') hlt
    rw [hbuf'']
    exact ⟨_, rfl⟩
  · exact ⟨_, rfl⟩

/-! ## Writing -/

theorem writeCall_moves (data output : List UInt8) :
    Moves (writeCall data) data.length data.length fun pos out => out = output ++ data.take pos := by
  rintro pos n out hle rfl
  have hchunk : ((data.drop pos).take n).length = min n (data.length - pos) := by
    rw [List.length_take, List.length_drop]
  have hall : min n (data.length - pos) = n := by omega
  refine ⟨_, congrArg some (Prod.ext hchunk rfl), ?_⟩
  rw [hall]
  show _ = output ++ data.take (pos + n)
  rw [List.append_assoc, List.take_add]

theorem aloeBioWrite_done {data output : List UInt8} (hsz : data.length ≤ intMax) {n : Int} {output' : List UInt8}
    (h : aloeBioWrite answers turns data output = some (n, output', calls)) :
    ∃ pos : Nat, n = pos ∧ pos ≤ data.length ∧ output' = output ++ data.take pos ∧ Complete data.length pos calls ∧
      Answered answers data.length calls pos := by
  rw [aloeBioWrite, Option.bind_eq_bind, Option.bind_eq_some_iff] at h
  obtain ⟨⟨pos, out, calls'⟩, hloop, hfinish⟩ := h
  obtain ⟨hle, hout, hcomplete, hanswered⟩ :=
    bioLoop_done (k := 0) (writeCall_moves data output) (Nat.le_refl _) hsz (Nat.zero_le _)
      (List.append_nil _).symm rfl rfl hloop
  rw [Option.some.injEq, Prod.mk.injEq, Prod.mk.injEq] at hfinish
  obtain ⟨rfl, rfl, rfl⟩ := hfinish
  exact ⟨pos, toInt_eq (Nat.le_trans hle hsz), hle, hout, hcomplete, hanswered⟩

theorem aloeBioWrite_ends (data output : List UInt8) (hsz : data.length ≤ intMax) (h : {k | answers k = .eintr}.Finite) :
    ∃ turns r, aloeBioWrite answers turns data output = some r := by
  obtain ⟨quiet, hquiet⟩ := exists_quiet h
  obtain ⟨r, hloop⟩ := bioLoop_ends 0 [] (writeCall_moves data output) (Nat.le_refl _) hsz (Nat.zero_le _)
    (List.append_nil output).symm hquiet (Nat.lt_succ_self _)
  refine ⟨quiet - 0 + (data.length - 0) + 1, ?_⟩
  rw [aloeBioWrite, hloop]
  exact ⟨_, rfl⟩

/-- **Blocking reads and writes** move a prefix, all of it unless there is a reason
not to among what their calls were answered, and end when the interrupts do. -/
theorem aloeBio_transfers (answers : Nat → Result) :
    (∀ (bufSz : Nat) (buf : Block bufSz) (input : List UInt8), bufSz ≤ intMax →
      (∀ turns n out left calls, aloeBioRead answers turns buf input = some (n, out, left, calls) →
        ∃ pos : Nat, n = pos ∧ ReadDone answers buf input pos out left calls) ∧
      ({k | answers k = .eintr}.Finite → ∃ turns r, aloeBioRead answers turns buf input = some r)) ∧
    (∀ data output : List UInt8, data.length ≤ intMax →
      (∀ turns n output' calls, aloeBioWrite answers turns data output = some (n, output', calls) →
        ∃ pos : Nat, n = pos ∧ pos ≤ data.length ∧ output' = output ++ data.take pos ∧ Complete data.length pos calls ∧
          Answered answers data.length calls pos) ∧
      ({k | answers k = .eintr}.Finite → ∃ turns r, aloeBioWrite answers turns data output = some r)) := by
  constructor
  · intro bufSz buf input hsz
    exact ⟨fun _ _ _ _ _ h => aloeBioRead_done hsz h, aloeBioRead_ends buf input hsz⟩
  · intro data output hsz
    exact ⟨fun _ _ _ _ h => aloeBioWrite_done hsz h, aloeBioWrite_ends data output hsz⟩

/-- Two bytes, an interrupt, and then whatever there is. -/
def interrupted : Nat → Result
  | 0 => .moved 2
  | 1 => .eintr
  | _ + 2 => .moved 8

theorem interrupted_finite : {k | interrupted k = .eintr}.Finite := by
  apply (Set.finite_singleton 1).subset
  intro k hk
  match k, hk with
  | 1, _ => exact Set.mem_singleton 1

theorem aloeBio_interrupted :
    (∃ turns r, aloeBioRead interrupted turns (Block.fill 6 0xff) [1, 2, 3] = some r) ∧
      ∃ pos : Nat, (3 : Int) = pos ∧ pos ≤ 3 ∧ ([1, 2, 3] : List UInt8) = [] ++ [1, 2, 3].take pos ∧
        Complete 3 pos [.moved 2, .eintr, .moved 1] ∧ Answered interrupted 3 [.moved 2, .eintr, .moved 1] pos := by
  obtain ⟨hread, hwrite⟩ := aloeBio_transfers interrupted
  constructor
  · exact (hread 6 (Block.fill 6 0xff) [1, 2, 3] (by decide)).2 interrupted_finite
  · exact (hwrite [1, 2, 3] [] (by decide)).1 4 3 [1, 2, 3] [.moved 2, .eintr, .moved 1] rfl

end AlgaeBp.Util
