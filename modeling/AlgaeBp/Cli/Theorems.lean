import Mathlib.Data.List.Induction
import AlgaeBp.Cli.Code
/-!
# Whole lines

What is handed to `cli_input_line` should be lines of the input. Dropping what
does not fit loses the head of a line, and its tail is then run as if it were
one: `cli_whole_lines_iff` says when that does not happen.
-/

namespace AlgaeBp.Cli

/-- Nothing of a line has been begun. -/
def EndsLine (pre : List UInt8) : Prop := pre = [] ∨ pre.getLast? = some lf

/-- `x` is a line of the stream: from after a newline, or the start, up to the next newline, which is where it says. -/
def WholeLine (stream : List UInt8) (x : Nat × List UInt8) : Prop :=
  ∃ pre body post, stream = pre ++ x.2 ++ post ∧ x.2 = body ++ [lf] ∧ lf ∉ body ∧ EndsLine pre ∧ x.1 = (pre ++ x.2).length

theorem WholeLine.append {stream : List UInt8} {x : Nat × List UInt8} (h : WholeLine stream x) (more : List UInt8) :
    WholeLine (stream ++ more) x := by
  obtain ⟨pre, body, post, rfl, hx, hlf, hends, hpos⟩ := h
  exact ⟨pre, body, post ++ more, by simp, hx, hlf, hends, hpos⟩

theorem endsLine_concat (pre : List UInt8) : EndsLine (pre ++ [lf]) := .inr (by simp)

/-! ## The loop -/

theorem inputLines_none (received : Nat) (kept : List UInt8) {data : List UInt8} (h : lf ∉ data) :
    inputLines received kept data = ([], kept ++ data) := by
  have hnone : data.findIdx? (· = lf) = none := by
    rw [List.findIdx?_eq_none_iff]
    intro b hb
    simp only [decide_eq_false_iff_not]
    rintro rfl
    exact h hb
  rw [inputLines]
  split
  · rfl
  · next hsome =>
    rw [hnone] at hsome
    cases hsome

theorem inputLines_line {received : Nat} {kept body rest : List UInt8} (h : lf ∉ body) :
    inputLines received kept (body ++ lf :: rest) =
      ((received + (body.length + 1), kept ++ (body ++ [lf])) :: (inputLines (received + (body.length + 1)) [] rest).1,
        (inputLines (received + (body.length + 1)) [] rest).2) := by
  have hbody : ∀ b ∈ body, ¬ b = lf := by
    rintro b hb rfl
    exact h hb
  have hsome : (body ++ lf :: rest).findIdx? (· = lf) = some body.length := by
    rw [List.findIdx?_append, List.findIdx?_eq_none_iff.2 (by simpa using hbody)]
    simp [List.findIdx?_cons]
  have hsplit : body ++ lf :: rest = (body ++ [lf]) ++ rest := by simp
  have htake : (body ++ lf :: rest).take (body.length + 1) = body ++ [lf] := by
    rw [hsplit]
    exact List.take_left' (by simp)
  have hdrop : (body ++ lf :: rest).drop (body.length + 1) = rest := by
    rw [hsplit]
    exact List.drop_left' (by simp)
  rw [inputLines]
  split
  · next hnone =>
    rw [hsome] at hnone
    cases hnone
  · next i hi =>
    rw [hsome] at hi
    obtain rfl := Option.some.inj hi
    rw [htake, hdrop]

/-- What the buffer holds is the line that has been begun: then every line found is whole, and the rest is the line
begun after them. -/
theorem inputLines_spec {pre kept : List UInt8} (data : List UInt8) (hpre : EndsLine pre) (hkept : lf ∉ kept) :
    (∀ x ∈ (inputLines (pre ++ kept).length kept data).1, WholeLine (pre ++ kept ++ data) x) ∧
      lf ∉ (inputLines (pre ++ kept).length kept data).2 ∧
      ∃ pre', EndsLine pre' ∧ pre ++ kept ++ data = pre' ++ (inputLines (pre ++ kept).length kept data).2 := by
  induction hn : data.length using Nat.strongRecOn generalizing pre kept data with
  | ind n ih =>
    by_cases hlf : lf ∈ data
    · obtain ⟨body, rest, rfl, hbody⟩ := List.eq_append_cons_of_mem hlf
      rw [inputLines_line hbody]
      have hlen : (pre ++ kept).length + (body.length + 1) = (pre ++ kept ++ (body ++ [lf]) ++ []).length := by simp; omega
      have hstream : pre ++ kept ++ (body ++ lf :: rest) = pre ++ kept ++ (body ++ [lf]) ++ [] ++ rest := by simp
      have hends : EndsLine (pre ++ kept ++ (body ++ [lf])) := by
        rw [← List.append_assoc]
        exact endsLine_concat _
      obtain ⟨hlines, hrest, pre', hpre', heq⟩ := @ih rest.length (by simp at hn; omega) _ _ rest hends
        List.not_mem_nil rfl
      rw [hlen, hstream]
      refine ⟨fun x hx => ?_, hrest, pre', hpre', heq⟩
      rcases List.mem_cons.1 hx with rfl | hx
      · exact ⟨pre, kept ++ body, rest, by simp, by simp, by simp [hkept, hbody], hpre, by simp⟩
      · exact hlines x hx
    · rw [inputLines_none _ _ hlf]
      exact ⟨fun x hx => absurd hx List.not_mem_nil, by simp [hkept, hlf], pre, hpre, by simp⟩

/-! ## Reads -/

theorem feed_concat (reads : List (List UInt8)) (data : List UInt8) :
    feed (reads ++ [data]) = cliInput (feed reads) data := List.foldl_concat cliInput init data reads

theorem cliInput_dropped {cli : St} {data : List UInt8} (h : drops cli data = true) :
    cliInput cli data = { cli with lineFb := [], received := cli.received + data.length } := if_pos h

theorem cliInput_taken {cli : St} {data : List UInt8} (h : drops cli data = false) :
    cliInput cli data =
      { lineFb := (inputLines cli.received cli.lineFb data).2
        received := cli.received + data.length
        handed := cli.handed ++ (inputLines cli.received cli.lineFb data).1 } := if_neg (by simp [h])

theorem feed_received (reads : List (List UInt8)) : (feed reads).received = reads.flatten.length := by
  induction reads using List.reverseRecOn with
  | nil => rfl
  | append_singleton reads data ih =>
    rw [feed_concat, List.flatten_concat, List.length_append, ← ih]
    cases h : drops (feed reads) data with
    | true => rw [cliInput_dropped h]
    | false => rw [cliInput_taken h]

/-- What the buffer holds lacks its head: it came after a read that was dropped in the middle of a line. -/
def Headless (reads : List (List UInt8)) : Prop :=
  ∃ pre c mid, reads = pre ++ c :: mid ∧ drops (feed pre) c = true ∧ c.getLast? ≠ some lf ∧ mid.flatten = (feed reads).lineFb

/-- A read that is dropped ends in a newline, or as long as what follows it fits into the buffer there is no newline
in it. -/
def Clean (reads : List (List UInt8)) : Prop :=
  ∀ pre c mid d, pre ++ c :: mid ++ [d] <+: reads → drops (feed pre) c = true → c.getLast? ≠ some lf →
    lf ∉ mid.flatten → mid.flatten.length + d.length < cap → lf ∉ d

/-- What holds after the reads. -/
structure Tidy (reads : List (List UInt8)) : Prop where
  whole : ∀ x ∈ (feed reads).handed, WholeLine reads.flatten x
  open_ : lf ∉ (feed reads).lineFb
  held : (∃ pre, EndsLine pre ∧ reads.flatten = pre ++ (feed reads).lineFb) ∨ Headless reads

theorem tidy_dropped {reads : List (List UInt8)} {data : List UInt8} (h : Tidy reads)
    (hd : drops (feed reads) data = true) : Tidy (reads ++ [data]) := by
  have hfeed := (feed_concat reads data).trans (cliInput_dropped hd)
  refine ⟨fun x hx => ?_, by simp [hfeed], ?_⟩
  · rw [hfeed] at hx
    rw [List.flatten_concat]
    exact (h.whole x hx).append data
  · by_cases hends : data.getLast? = some lf
    · refine .inl ⟨(reads ++ [data]).flatten, .inr ?_, by simp [hfeed]⟩
      rw [List.flatten_concat, List.getLast?_append, hends]
      rfl
    · exact .inr ⟨reads, data, [], rfl, hd, hends, by simp [hfeed]⟩

theorem tidy_taken {reads : List (List UInt8)} {data : List UInt8} (h : Tidy reads)
    (hd : drops (feed reads) data = false) (hclean : Clean (reads ++ [data])) : Tidy (reads ++ [data]) := by
  have hfeed := (feed_concat reads data).trans (cliInput_taken hd)
  rcases h.held with ⟨pre, hpre, heq⟩ | ⟨pre, c, mid, hreads, hdrop, hends, hmid⟩
  · have hspec := inputLines_spec data hpre h.open_
    rw [← heq, ← feed_received] at hspec
    obtain ⟨hlines, hrest, pre', hpre', heq'⟩ := hspec
    refine ⟨fun x hx => ?_, by rw [hfeed]; exact hrest, .inl ⟨pre', hpre', ?_⟩⟩
    · rw [List.flatten_concat]
      rw [hfeed] at hx
      rcases List.mem_append.1 hx with hx | hx
      · exact (h.whole x hx).append data
      · exact hlines x hx
    · rw [hfeed, List.flatten_concat]
      exact heq'
  · have hfits : mid.flatten.length + data.length < cap := by
      simp only [drops, decide_eq_false_iff_not] at hd
      rw [hmid]
      omega
    have hlf : lf ∉ data := by
      refine hclean pre c mid data (by simp [hreads]) hdrop hends ?_ hfits
      rw [hmid]
      exact h.open_
    have hlines := inputLines_none (feed reads).received (feed reads).lineFb hlf
    refine ⟨fun x hx => ?_, ?_, .inr ⟨pre, c, mid ++ [data], by simp [hreads], hdrop, hends, ?_⟩⟩
    · rw [hfeed, hlines] at hx
      rw [List.flatten_concat]
      exact (h.whole x (by simpa using hx)).append data
    · rw [hfeed, hlines]
      simp [h.open_, hlf]
    · rw [hfeed, hlines, List.flatten_concat, hmid]

theorem Clean.of_prefix {reads reads' : List (List UInt8)} (h : Clean reads) (hp : reads' <+: reads) : Clean reads' :=
  fun pre c mid d hpre => h pre c mid d (hpre.trans hp)

theorem tidy_of_clean {reads : List (List UInt8)} (h : Clean reads) : Tidy reads := by
  induction reads using List.reverseRecOn with
  | nil => exact ⟨fun x hx => absurd hx List.not_mem_nil, List.not_mem_nil, .inl ⟨[], .inl rfl, rfl⟩⟩
  | append_singleton reads data ih =>
    have htidy := ih (h.of_prefix (List.prefix_append reads [data]))
    cases hd : drops (feed reads) data with
    | true => exact tidy_dropped htidy hd
    | false => exact tidy_taken htidy hd h

/-! ## What a newline after a dropped read does -/

/-- After a read that was dropped the buffer collects what comes, as long as it fits and there is no newline. -/
theorem lineFb_after_drop {pre : List (List UInt8)} {c : List UInt8} (hd : drops (feed pre) c = true)
    {mid : List (List UInt8)} (hlf : lf ∉ mid.flatten) (hfits : mid.flatten.length < cap) :
    (feed (pre ++ c :: mid)).lineFb = mid.flatten := by
  induction mid using List.reverseRecOn with
  | nil => rw [feed_concat, cliInput_dropped hd]; rfl
  | append_singleton mid d ih =>
    simp only [List.flatten_concat, List.mem_append, not_or, List.length_append] at hlf hfits
    have hmid := ih hlf.1 (by omega)
    have hnot : drops (feed (pre ++ c :: mid)) d = false := by
      simp only [drops, hmid, decide_eq_false_iff_not]
      omega
    rw [List.flatten_concat, ← List.cons_append, ← List.append_assoc, feed_concat, cliInput_taken hnot,
      inputLines_none _ _ hlf.2, hmid]

theorem handed_concat (reads : List (List UInt8)) (d : List UInt8) : (feed reads).handed ⊆ (feed (reads ++ [d])).handed := by
  rw [feed_concat]
  cases h : drops (feed reads) d with
  | true => rw [cliInput_dropped h]; exact List.Subset.refl _
  | false => rw [cliInput_taken h]; exact List.subset_append_left _ _

theorem handed_before {reads reads' : List (List UInt8)} (h : reads' <+: reads) :
    (feed reads').handed ⊆ (feed reads).handed := by
  obtain ⟨more, rfl⟩ := h
  induction more using List.reverseRecOn with
  | nil => simp
  | append_singleton more d ih =>
    rw [← List.append_assoc]
    exact List.Subset.trans ih (handed_concat _ d)

/-- What is handed over for the newline has lost its head. -/
theorem clean_of_whole {reads : List (List UInt8)} (hne : ∀ r ∈ reads, r ≠ [])
    (h : ∀ x ∈ (feed reads).handed, WholeLine reads.flatten x) : Clean reads := by
  intro pre c mid d hp hd hends hlf hfits hmem
  obtain ⟨body, rest, rfl, hbody⟩ := List.eq_append_cons_of_mem hmem
  have hfb := lineFb_after_drop hd hlf (by omega)
  have hnot : drops (feed (pre ++ c :: mid)) (body ++ lf :: rest) = false := by
    simp only [drops, hfb, decide_eq_false_iff_not]
    omega
  have hhanded : ((feed (pre ++ c :: mid)).received + (body.length + 1), mid.flatten ++ (body ++ [lf])) ∈
      (feed (pre ++ c :: mid ++ [body ++ lf :: rest])).handed := by
    rw [feed_concat, cliInput_taken hnot, inputLines_line hbody, hfb]
    simp
  obtain ⟨p, b, post, hstream, -, -, hpends, hpos⟩ := h _ (handed_before hp hhanded)
  obtain ⟨more, hmore⟩ := hp
  -- the line would have to begin after the read that was dropped
  have hstream' : reads.flatten = (pre ++ [c]).flatten ++ (mid.flatten ++ (body ++ lf :: rest) ++ more.flatten) := by
    rw [← hmore]
    simp
  have hlen : p.length = (pre ++ [c]).flatten.length := by
    rw [feed_received] at hpos
    simp only [List.flatten_append, List.flatten_cons, List.length_append, List.length_cons, List.length_nil,
      List.flatten_nil] at hpos ⊢
    omega
  have hp : p = (pre ++ [c]).flatten := by
    rw [hstream', List.append_assoc p] at hstream
    exact (List.append_inj hstream hlen.symm).1.symm
  have hc : c ≠ [] := hne c (by rw [← hmore]; simp)
  rcases hpends with hnil | hlast
  · rw [hp, List.flatten_concat] at hnil
    exact hc (List.append_eq_nil_iff.1 hnil).2
  · rw [hp, List.flatten_concat, List.getLast?_append_of_ne_nil _ hc] at hlast
    exact hends hlast

/-- **When only whole lines are run.** All that is handed to `cli_input_line` are lines of the input just when every
read that is dropped ends in a newline, or is followed by no newline in what fits into the buffer after it. -/
theorem cli_whole_lines_iff (reads : List (List UInt8)) (hne : ∀ r ∈ reads, r ≠ []) :
    (∀ x ∈ (feed reads).handed, WholeLine reads.flatten x) ↔ Clean reads :=
  ⟨clean_of_whole hne, fun h => (tidy_of_clean h).whole⟩

/-- A line of more than 2048 bytes that ends with a read, and another line. -/
def longLine : List (List UInt8) := [List.replicate 1023 120, List.replicate 1023 120, [120, 120, 10], [108, 115, 10]]

theorem clean_longLine : Clean longLine := by
  intro pre c mid d hp hd hends
  match pre, hp, hd with
  | [], hp, hd =>
    obtain ⟨rfl, -⟩ := List.cons_prefix_cons.1 hp
    exact absurd hd (by decide +kernel)
  | [_], hp, hd =>
    obtain ⟨rfl, hrest⟩ := List.cons_prefix_cons.1 hp
    obtain ⟨rfl, -⟩ := List.cons_prefix_cons.1 hrest
    exact absurd hd (by decide +kernel)
  | [_, _], hp, _ =>
    obtain ⟨-, hp⟩ := List.cons_prefix_cons.1 hp
    obtain ⟨-, hp⟩ := List.cons_prefix_cons.1 hp
    obtain ⟨rfl, -⟩ := List.cons_prefix_cons.1 hp
    exact absurd (by decide) hends
  | _ :: _ :: _ :: pre, hp, _ =>
    have hlen := hp.length_le
    simp only [longLine, List.length_append, List.length_cons, List.length_nil] at hlen
    omega

/-- The read that does not fit is dropped, and the line after it is run. -/
theorem cli_whole_lines_dropped : drops (feed (longLine.take 2)) [120, 120, 10] = true ∧
    (feed longLine).handed = [(2052, [108, 115, 10])] ∧ ∀ x ∈ (feed longLine).handed, WholeLine longLine.flatten x := by
  have hne : ∀ r ∈ longLine, r ≠ [] := by decide +kernel
  exact ⟨by decide +kernel, by decide +kernel, (cli_whole_lines_iff longLine hne).2 clean_longLine⟩

/-- A line of more than 2048 bytes, whose end comes in a read of its own. -/
def tooLong : List (List UInt8) :=
  [List.replicate 1023 120, List.replicate 1023 120, [120, 120], [114, 101, 98, 111, 111, 116, 10]]

/-- Its tail is run as a command. -/
theorem cli_tail_run : (feed tooLong).commands = [[114, 101, 98, 111, 111, 116]] ∧
    ¬ ∀ reads : List (List UInt8), (∀ r ∈ reads, 1 ≤ r.length ∧ r.length ≤ 1023) →
      ∀ x ∈ (feed reads).handed, WholeLine reads.flatten x := by
  have hhanded : (feed tooLong).handed = [(2055, [114, 101, 98, 111, 111, 116, 10])] := by decide +kernel
  constructor
  · rw [St.commands, hhanded]
    decide
  · intro h
    have hne : ∀ r ∈ tooLong, 1 ≤ r.length ∧ r.length ≤ 1023 := by
      intro r hr
      simp only [tooLong, List.mem_cons, List.not_mem_nil, or_false] at hr
      rcases hr with rfl | rfl | rfl | rfl
      · rw [List.length_replicate]; omega
      · rw [List.length_replicate]; omega
      · decide
      · decide
    have hclean := clean_of_whole (fun r hr hnil => by simpa [hnil] using (hne r hr).1) (h tooLong hne)
    have hdrops : drops (feed [List.replicate 1023 120, List.replicate 1023 120]) [120, 120] = true := by decide +kernel
    exact hclean [List.replicate 1023 120, List.replicate 1023 120] [120, 120] [] [114, 101, 98, 111, 111, 116, 10]
      (List.prefix_refl _) hdrops (by decide) (by simp) (by decide) (by decide)

end AlgaeBp.Cli
