import Mathlib.Data.List.DropRight
import AlgaeBp.Cli.Theorems
/-!
# Lines and reads

As long as no line is longer than 1024 bytes, it does not matter how the input
is cut into reads: the lines handed over are those of the input, and each of
them with something in it is looked up, but for one of just 1024 bytes.
-/

namespace AlgaeBp.Cli

/-! ## The lines of a stream -/

/-- The lines of a stream, each with its newline, and what is behind the last newline. -/
def splitLf : List UInt8 → List (List UInt8) × List UInt8
  | [] => ([], [])
  | b :: bs =>
    if b = lf then ([lf] :: (splitLf bs).1, (splitLf bs).2)
    else
      match splitLf bs with
      | ([], rest) => ([], b :: rest)
      | (line :: lines, rest) => ((b :: line) :: lines, rest)

theorem splitLf_none {bs : List UInt8} (h : lf ∉ bs) : splitLf bs = ([], bs) := by
  induction bs with
  | nil => rfl
  | cons b bs ih =>
    rw [List.mem_cons, not_or] at h
    rw [splitLf, if_neg (Ne.symm h.1), ih h.2]

theorem splitLf_line {body : List UInt8} (h : lf ∉ body) (rest : List UInt8) :
    splitLf (body ++ lf :: rest) = ((body ++ [lf]) :: (splitLf rest).1, (splitLf rest).2) := by
  induction body with
  | nil => rw [List.nil_append, splitLf, if_pos rfl, List.nil_append]
  | cons b body ih =>
    rw [List.mem_cons, not_or] at h
    rw [List.cons_append, splitLf, if_neg (Ne.symm h.1), ih h.2]
    rfl

/-- A stream is split on with what is left of it. -/
theorem splitLf_append (a b : List UInt8) :
    splitLf (a ++ b) =
      ((splitLf a).1 ++ (splitLf ((splitLf a).2 ++ b)).1, (splitLf ((splitLf a).2 ++ b)).2) := by
  induction hn : a.length using Nat.strongRecOn generalizing a with
  | ind n ih =>
    by_cases hlf : lf ∈ a
    · obtain ⟨body, rest, rfl, hbody⟩ := List.eq_append_cons_of_mem hlf
      have hrest := ih rest.length (by simp at hn; omega) rest rfl
      rw [List.append_assoc, List.cons_append, splitLf_line hbody, splitLf_line hbody, hrest]
      rfl
    · rw [splitLf_none hlf]
      rfl

/-- What is left is the end of the stream and has no newline. -/
theorem splitLf_rest (bs : List UInt8) : (splitLf bs).2 <:+ bs ∧ lf ∉ (splitLf bs).2 := by
  induction hn : bs.length using Nat.strongRecOn generalizing bs with
  | ind n ih =>
    by_cases hlf : lf ∈ bs
    · obtain ⟨body, rest, rfl, hbody⟩ := List.eq_append_cons_of_mem hlf
      obtain ⟨hsuf, hopen⟩ := ih rest.length (by simp at hn; omega) rest rfl
      rw [splitLf_line hbody]
      refine ⟨hsuf.trans ?_, hopen⟩
      exact (List.suffix_cons lf rest).trans (List.suffix_append _ _)
    · rw [splitLf_none hlf]
      exact ⟨List.suffix_rfl, hlf⟩

/-! ## The loop -/

/-- With the beginning of a line in the buffer the loop finds the lines of it and the new bytes. -/
theorem inputLines_split {received : Nat} {kept : List UInt8} (data : List UInt8) (h : lf ∉ kept) :
    (inputLines received kept data).1.map Prod.snd = (splitLf (kept ++ data)).1 ∧
      (inputLines received kept data).2 = (splitLf (kept ++ data)).2 := by
  induction hn : data.length using Nat.strongRecOn generalizing received kept data with
  | ind n ih =>
    by_cases hlf : lf ∈ data
    · obtain ⟨body, rest, rfl, hbody⟩ := List.eq_append_cons_of_mem hlf
      have hrest := @ih rest.length (by simp at hn; omega) (received + (body.length + 1)) [] rest
        List.not_mem_nil rfl
      have hopen : lf ∉ kept ++ body := by simp [h, hbody]
      rw [List.nil_append] at hrest
      rw [inputLines_line hbody, ← List.append_assoc kept body (lf :: rest), splitLf_line hopen]
      refine ⟨?_, hrest.2⟩
      rw [List.map_cons, hrest.1, List.append_assoc]
    · have hopen : lf ∉ kept ++ data := by simp [h, hlf]
      rw [inputLines_none _ _ hlf, splitLf_none hopen]
      exact ⟨rfl, rfl⟩

/-! ## Reads -/

/-- The bytes between two newlines, or between an end of the stream and one, are no more than 1024. -/
def ShortLines (stream : List UInt8) : Prop := ∀ run, run <:+: stream → lf ∉ run → run.length ≤ 1024

/-- `cli_input` has split what has come so far, and has dropped nothing. -/
structure Split (reads : List (List UInt8)) : Prop where
  lines : (feed reads).handed.map Prod.snd = (splitLf reads.flatten).1
  rest : (feed reads).lineFb = (splitLf reads.flatten).2

/-- A read of no more than 1023 bytes fits behind a line of no more than 1024. -/
theorem drops_false {reads : List (List UInt8)} {data : List UInt8} (h : Split reads) (hdata : data.length ≤ 1023)
    (hshort : ShortLines (reads ++ [data]).flatten) : drops (feed reads) data = false := by
  obtain ⟨hsuf, hopen⟩ := splitLf_rest reads.flatten
  have hrun : (feed reads).lineFb <:+: (reads ++ [data]).flatten := by
    rw [h.rest, List.flatten_concat]
    exact hsuf.isInfix.trans (List.prefix_append _ _).isInfix
  have hlen := hshort _ hrun (by rw [h.rest]; exact hopen)
  rw [drops, decide_eq_false_iff_not, cap]
  omega

theorem split_concat {reads : List (List UInt8)} {data : List UInt8} (h : Split reads)
    (hd : drops (feed reads) data = false) : Split (reads ++ [data]) := by
  have hfeed := (feed_concat reads data).trans (cliInput_taken hd)
  have hopen : lf ∉ (feed reads).lineFb := by
    rw [h.rest]
    exact (splitLf_rest reads.flatten).2
  obtain ⟨hlines, hrest⟩ := @inputLines_split (feed reads).received _ data hopen
  rw [h.rest] at hlines hrest
  constructor
  · rw [hfeed, List.flatten_concat, splitLf_append, List.map_append, h.lines, h.rest, hlines]
  · rw [hfeed, List.flatten_concat, splitLf_append, h.rest, hrest]

theorem split_of_short {reads : List (List UInt8)} (hreads : ∀ r ∈ reads, r.length ≤ 1023)
    (hshort : ShortLines reads.flatten) : Split reads := by
  induction reads using List.reverseRecOn with
  | nil => exact ⟨rfl, rfl⟩
  | append_singleton reads data ih =>
    have hsplit := ih (fun r hr => hreads r (List.mem_append_left _ hr)) (fun run hrun => by
      apply hshort
      rw [List.flatten_concat]
      exact hrun.trans (List.prefix_append _ _).isInfix)
    exact split_concat hsplit (drops_false hsplit (hreads data (by simp)) hshort)

/-! ## Tokens -/

/-- `aloe_str_sep`. -/
def aloeStrSep : List UInt8 := [32, 13, 10, 9]

/-- The tokens `strtok_r` finds in a string, one call after another, no more than `argmax`. -/
def strtoks : Nat → List UInt8 → List (List UInt8)
  | 0, _ => []
  | argmax + 1, s =>
    let s := s.dropWhile (aloeStrSep.contains ·)
    if s = [] then []
    else s.takeWhile (!aloeStrSep.contains ·) :: strtoks argmax (s.dropWhile (!aloeStrSep.contains ·)).tail

/-- `aloe_cli_tok` on `line_buf`, which is a string to its first NUL, with room for 19 arguments. -/
def aloeCliTok (line : List UInt8) : List (List UInt8) := strtoks 19 (line.takeWhile (fun b => b ≠ 0))

/-- `argv[1]` where `cli_input_line` looks a command up. -/
def looksUp (line : List UInt8) : Option (Option (List UInt8)) := (cliInputLine line).map (fun l => (aloeCliTok l).head?)

theorem solid_spec {b : UInt8} (h : solid b = true) : b ≠ 0 ∧ aloeStrSep.contains b = false := by
  unfold solid at h
  rw [Bool.and_eq_true, Bool.not_eq_true'] at h
  refine ⟨?_, h.2⟩
  rintro rfl
  exact absurd h.1 (by decide)

/-- What is left of a line begins where its first solid byte is. -/
theorem trim_head {line : List UInt8} (h : cliLineTrim line ≠ []) :
    ∃ b rest, cliLineTrim line = b :: rest ∧ solid b = true := by
  have htrim : cliLineTrim line = (line.dropWhile (!solid ·)).rdropWhile (!solid ·) := rfl
  rw [htrim] at h ⊢
  generalize hd : line.dropWhile (!solid ·) = d at h
  have hpre := List.rdropWhile_prefix (!solid ·) (l := d)
  cases d with
  | nil => exact absurd (List.prefix_nil.1 hpre) h
  | cons b rest =>
    have hb := List.head_dropWhile_not (!solid ·) (l := line) (by rw [hd]; exact List.cons_ne_nil b rest)
    simp only [hd, List.head_cons, Bool.not_eq_false'] at hb
    obtain ⟨c, cs, hcs⟩ := List.exists_cons_of_ne_nil h
    rw [hcs] at hpre
    obtain ⟨rfl, -⟩ := List.cons_prefix_cons.1 hpre
    exact ⟨c, cs, hcs, hb⟩

theorem trim_ne_nil {line : List UInt8} (h : ∃ b ∈ line, solid b = true) : cliLineTrim line ≠ [] := by
  obtain ⟨b, hb, hs⟩ := h
  have htrim : cliLineTrim line = (line.dropWhile (!solid ·)).rdropWhile (!solid ·) := rfl
  intro hnil
  rw [htrim, List.rdropWhile_eq_nil_iff] at hnil
  have hmem : b ∈ line.dropWhile (!solid ·) := by
    have hall : b ∈ line.takeWhile (!solid ·) ++ line.dropWhile (!solid ·) := by
      rw [List.takeWhile_append_dropWhile]
      exact hb
    rcases List.mem_append.1 hall with hb | hb
    · have := List.mem_takeWhile_imp hb
      simp [hs] at this
    · exact hb
  have := hnil b hmem
  simp [hs] at this

/-- A string that begins with a solid byte has a first token. -/
theorem aloeCliTok_solid {b : UInt8} (h : solid b = true) (rest : List UInt8) :
    ∃ tok, (aloeCliTok (b :: rest)).head? = some (b :: tok) := by
  obtain ⟨hnul, hsep⟩ := solid_spec h
  unfold aloeCliTok
  rw [List.takeWhile_cons_of_pos (by simpa using hnul), strtoks]
  rw [List.dropWhile_cons_of_neg (by rw [hsep]; decide)]
  rw [if_neg (List.cons_ne_nil _ _), List.takeWhile_cons_of_pos (by rw [hsep]; rfl)]
  exact ⟨_, rfl⟩

/-- **Lines do not depend on reads.** From reads of no more than 1023 bytes, in which no line has more than 1024,
the lines handed over are those of the input, in order, what is behind the last newline stays in
the buffer, the buffer never overflows, and every line with something in it that is less than
1024 bytes when it is trimmed is looked up by its first token. -/
theorem cli_lines (reads : List (List UInt8)) (hreads : ∀ r ∈ reads, 1 ≤ r.length ∧ r.length ≤ 1023)
    (hshort : ShortLines reads.flatten) :
    (feed reads).handed.map Prod.snd = (splitLf reads.flatten).1 ∧
      (feed reads).lineFb = (splitLf reads.flatten).2 ∧
      (∀ pre data, pre ++ [data] <+: reads → (feed pre).lineFb.length + data.length < cap) ∧
      ∀ line ∈ (feed reads).handed.map Prod.snd, (∃ b ∈ line, solid b = true) → (cliLineTrim line).length < 1024 →
        ∃ b tok, looksUp line = some (some (b :: tok)) := by
  have hle (r : List UInt8) (hr : r ∈ reads) : r.length ≤ 1023 := (hreads r hr).2
  obtain ⟨hlines, hrest⟩ := split_of_short hle hshort
  refine ⟨hlines, hrest, fun pre data hpre => ?_, fun line _ hsolid hlen => ?_⟩
  · obtain ⟨more, rfl⟩ := hpre
    have hin : (pre ++ [data]).flatten <:+: (pre ++ [data] ++ more).flatten := by
      have happ : (pre ++ [data] ++ more).flatten = (pre ++ [data]).flatten ++ more.flatten := List.flatten_append
      rw [happ]
      exact (List.prefix_append _ _).isInfix
    have hshort' : ShortLines (pre ++ [data]).flatten := fun run hrun => hshort run (hrun.trans hin)
    have hsplit : Split pre := by
      refine split_of_short (fun r hr => hle r (by simp [hr])) (fun run hrun => hshort' run (hrun.trans ?_))
      rw [List.flatten_concat]
      exact (List.prefix_append _ _).isInfix
    have hfits := drops_false hsplit (hle data (by simp)) hshort'
    rw [drops, decide_eq_false_iff_not] at hfits
    omega
  · obtain ⟨b, rest, htrim, hb⟩ := trim_head (trim_ne_nil hsolid)
    obtain ⟨tok, htok⟩ := aloeCliTok_solid hb rest
    refine ⟨b, tok, ?_⟩
    rw [htrim] at hlen
    unfold looksUp cliInputLine
    dsimp only
    rw [htrim, if_neg (List.cons_ne_nil b rest), if_neg (by omega), Option.map_some, htok]

theorem shortLines_of_length {stream : List UInt8} (h : stream.length ≤ 1024) : ShortLines stream :=
  fun _ hrun _ => hrun.length_le.trans h

/-- The reads of `cli1_test1`. -/
def test1 : List (List UInt8) := [[104, 101, 108], [112, 10, 104, 101, 108], [112, 10]]

theorem cli_lines_test1 : (feed test1).handed.map Prod.snd = (splitLf test1.flatten).1 :=
  (cli_lines test1 (by decide) (shortLines_of_length (by decide))).1

/-- A line of 1024 bytes and its newline. -/
def fullLine : List (List UInt8) := [List.replicate 1023 120, [120, 10]]

theorem fullLine_short : ShortLines fullLine.flatten := by
  have hflat : fullLine.flatten = List.replicate 1023 120 ++ [120, 10] := by
    rw [fullLine, List.flatten_cons, List.flatten_cons, List.flatten_nil, List.append_nil]
  intro run hrun hlf
  rw [hflat] at hrun
  by_contra hlong
  have hlen := hrun.length_le
  rw [List.length_append, List.length_replicate] at hlen
  have hall : run = List.replicate 1023 120 ++ [120, 10] := by
    apply hrun.eq_of_length
    rw [List.length_append, List.length_replicate]
    exact le_antisymm hlen (Nat.lt_of_not_le hlong)
  rw [hall] at hlf
  exact hlf (List.mem_append_right _ (by decide))

/-- A line of 1024 bytes is too long for `line_buf` and is not looked up. -/
theorem cli_full_refused :
    ¬ ∀ reads : List (List UInt8), (∀ r ∈ reads, 1 ≤ r.length ∧ r.length ≤ 1023) → ShortLines reads.flatten →
      ∀ line ∈ (feed reads).handed.map Prod.snd, (∃ b ∈ line, solid b = true) →
        ∃ b tok, looksUp line = some (some (b :: tok)) := by
  intro hall
  have hreads : ∀ r ∈ fullLine, 1 ≤ r.length ∧ r.length ≤ 1023 := by
    intro r hr
    simp only [fullLine, List.mem_cons, List.not_mem_nil, or_false] at hr
    rcases hr with rfl | rfl
    · rw [List.length_replicate]
      omega
    · decide
  have hhanded : (feed fullLine).handed = [(1025, List.replicate 1023 120 ++ [120, 10])] := by decide +kernel
  obtain ⟨b, tok, h⟩ := hall fullLine hreads fullLine_short (List.replicate 1023 120 ++ [120, 10])
    (by rw [hhanded]; exact List.mem_cons_self) ⟨120, List.mem_append_right _ (by decide), by decide⟩
  have hnone : cliInputLine (List.replicate 1023 120 ++ [120, 10]) = none := by decide +kernel
  rw [looksUp, hnone] at h
  exact absurd h (by simp)

end AlgaeBp.Cli
