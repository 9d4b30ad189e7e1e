import AlgaeBp.Cli.Lines
import AlgaeBp.Lib.Runs
import AlgaeBp.Settings.Tree
/-!
# The commands of the command line

Commands are `help`, which is always there, and those that `cli1_cmd_add` puts
in the tree `cmdq`. A line is cut into words, and the first of them says which
command is called with all of them.

`cli_global` is the one command line there is, and no command adds commands.
-/
open Strings AlgaeBp.Rbtree

namespace AlgaeBp.Cli

def ascii (s : String) : List UInt8 := s.toList.map fun c => UInt8.ofNat c.toNat

/-- What a command runs: `cli_help`, or a function of its owner. -/
inductive Fn where
  | cliHelp
  | given (f : Nat)
  deriving DecidableEq, Repr

/-- `cli_cmd_t`, but for its place in the tree. -/
structure Cmd where
  str : List UInt8
  run : Fn
  detail : Option (List UInt8)
  cbarg : Option Nat
  deriving DecidableEq, Repr

def cliCmdCmp (a b : Cmd) : Ordering := Settings.strcmp a.str b.str

instance : Std.TransCmp cliCmdCmp := Settings.strcmp_trans Cmd.str

def cliLut : List Cmd := [⟨ascii "help", .cliHelp, some (ascii "Show this help"), none⟩]

def tolower (ch : UInt8) : UInt8 := if 65 ≤ ch ∧ ch ≤ 90 then ch + 32 else ch

/-- `strcasecmp(a, b) == 0`. -/
def strcasecmp (a b : List UInt8) : Bool := (string a).map tolower = (string b).map tolower

/-! ## The functions -/

/-- `cli_lut_find`. -/
def cliLutFind (fuel : Nat) (cmdq : Store Cmd) (str : List UInt8) : Option (Option Cmd) :=
  match cliLut.find? fun c => strcasecmp str c.str with
  | some c => some (some c)
  | none => (cmdq.find cliCmdCmp fuel ⟨str, .given 0, none, none⟩).map fun found => found.map cmdq.content

/-- What `cli1_cmd_add` is called with, and whether there is memory. -/
structure Request where
  str : Option (List UInt8)
  run : Option Nat
  cbarg : Option Nat
  detail : Option (List UInt8)
  alloc : Bool
  deriving DecidableEq, Repr

/-- `cli1_cmd_add`. -/
def cli1CmdAdd (fuel : Nat) (cmdq : Store Cmd) (r : Request) : Option (Int × Store Cmd) :=
  match r.str, r.run with
  | some str, some run =>
    if (string str).length ≤ 0 then some (-1, cmdq)
    else
      (cliLutFind fuel cmdq str).bind fun
      | some _ => some (-1, cmdq)
      | none =>
        if r.alloc then (cmdq.insert cliCmdCmp fuel ⟨string str, .given run, r.detail.map string,
          r.cbarg⟩).map fun cmdq => (0, cmdq)
        else some (-1, cmdq)
  | _, _ => some (-1, cmdq)

/-- What `cli_help` prints for a command. -/
def helpLine (c : Cmd) : List UInt8 :=
  match c.detail with
  | some detail => c.str ++ ascii " - " ++ detail
  | none => c.str

/-- A loop of `cli_help` over commands: what it prints, and whether it returns. -/
def helpLoop (tgt : Option (List UInt8)) : List Cmd → List (List UInt8) × Bool
  | [] => ([], false)
  | c :: cs =>
    match tgt with
    | some str => if strcasecmp str c.str then ([helpLine c], true) else helpLoop tgt cs
    | none => (helpLine c :: (helpLoop tgt cs).1, (helpLoop tgt cs).2)

/-- `cli_help`. -/
def cliHelp (fuel : Nat) (cmdq : Store Cmd) (argv : List (List UInt8)) : Option (List (List UInt8)) :=
  let tgt := argv[2]?
  let (lines, done) := helpLoop tgt cliLut
  if done then some lines
  else (rbForeach fuel cmdq.tree).map fun nodes => lines ++ (helpLoop tgt (nodes.map cmdq.content)).1

/-- What comes of a line or a request. -/
inductive Out where
  | called (f : Nat) (cbarg : Option Nat) (argv : List (List UInt8))
  | printed (lines : List (List UInt8))
  | notFound (str : List UInt8)
  | added (r : Int)
  deriving DecidableEq, Repr

/-- `cli_input_line`, from its trimmed line on. The first word has to be there. -/
def runLine (fuel : Nat) (cmdq : Store Cmd) (line : List UInt8) : Option (List Out) :=
  match cliInputLine line with
  | none => some []
  | some line =>
    match aloeCliTok line with
    | [] => none
    | str :: args =>
      (cliLutFind fuel cmdq str).bind fun
      | none => some [.notFound str]
      | some c =>
        match c.run with
        | .cliHelp => (cliHelp fuel cmdq (str :: args)).map fun lines => [.printed lines]
        | .given f => some [.called f c.cbarg (str :: args)]

/-- The loop of `cli1_destroy`: the nodes it frees. -/
def destroyLoop (fuel : Nat) : Nat → Store Cmd → Option (Store Cmd × List Nat)
  | 0, _ => none
  | turns + 1, cmdq =>
    (rbMinmax .left cmdq.tree fuel cmdq.tree.root none).bind fun
    | none => some (cmdq, [])
    | some cmd => (cmdq.remove fuel cmd).bind fun cmdq => (destroyLoop fuel turns cmdq).map fun r => (r.1, cmd :: r.2)

/-! ## Sessions -/

inductive Event where
  | add (r : Request)
  /-- `cli1_cb` reads so many bytes. -/
  | read (data : List UInt8)
  deriving DecidableEq, Repr

structure Session (σ : Type) where
  lines : St
  cmdq : σ
  out : List Out

/-- The lines a read completes. -/
def newLines (st : St) (data : List UInt8) : List (List UInt8) :=
  ((cliInput st data).handed.drop st.handed.length).map Prod.snd

def runLines (fuel : Nat) (cmdq : Store Cmd) : List (List UInt8) → Option (List Out)
  | [] => some []
  | line :: lines => (runLine fuel cmdq line).bind fun out => (runLines fuel cmdq lines).map fun more => out ++ more

def step (fuel : Nat) (s : Session (Store Cmd)) : Event → Option (Session (Store Cmd))
  | .add r => (cli1CmdAdd fuel s.cmdq r).map fun (n, cmdq) => { s with cmdq := cmdq, out := s.out ++ [.added n] }
  | .read data =>
    (runLines fuel s.cmdq (newLines s.lines data)).map fun out =>
      { s with lines := cliInput s.lines data, out := s.out ++ out }

/-! ## Sessions on a list

The same, when the commands that have been added are a list in the order of their names. -/

def find (cmds : List Cmd) (str : List UInt8) : Option Cmd :=
  match cliLut.find? fun c => strcasecmp str c.str with
  | some c => some c
  | none => Ordered.find cliCmdCmp ⟨str, .given 0, none, none⟩ cmds

def listAdd (cmds : List Cmd) (r : Request) : Int × List Cmd :=
  match r.str, r.run with
  | some str, some run =>
    if (string str).length ≤ 0 ∨ find cmds str ≠ none ∨ r.alloc = false then (-1, cmds)
    else (0, Ordered.insert cliCmdCmp ⟨string str, .given run, r.detail.map string, r.cbarg⟩ cmds)
  | _, _ => (-1, cmds)

def listHelp (cmds : List Cmd) (argv : List (List UInt8)) : List (List UInt8) :=
  let (lines, done) := helpLoop argv[2]? cliLut
  if done then lines else lines ++ (helpLoop argv[2]? cmds).1

def listLine (cmds : List Cmd) (line : List UInt8) : List Out :=
  match cliInputLine line with
  | none => []
  | some line =>
    match aloeCliTok line with
    | [] => []
    | str :: args =>
      match find cmds str with
      | none => [.notFound str]
      | some c =>
        match c.run with
        | .cliHelp => [.printed (listHelp cmds (str :: args))]
        | .given f => [.called f c.cbarg (str :: args)]

def listStep (s : Session (List Cmd)) : Event → Session (List Cmd)
  | .add r => { s with cmdq := (listAdd s.cmdq r).2, out := s.out ++ [.added (listAdd s.cmdq r).1] }
  | .read data =>
    { s with lines := cliInput s.lines data, out := s.out ++ (newLines s.lines data).flatMap (listLine s.cmdq) }

/-! ## The functions do this -/

variable {fuel : Nat} {cmdq : Store Cmd} {cmds : List Cmd}

/-- Every node that has been allocated is in the tree, and this is what is in them, in order. -/
structure Keeps (cmdq : Store Cmd) (cmds : List Cmd) : Prop where
  lists : cmdq.Lists cliCmdCmp cmds
  all : cmds.length = cmdq.next

theorem cliLutFind_spec (h : Keeps cmdq cmds) (hfuel : cmdq.next < fuel) (str : List UInt8) :
    cliLutFind fuel cmdq str = some (find cmds str) := by
  rw [cliLutFind, find]
  cases cliLut.find? fun c => strcasecmp str c.str with
  | some c => rfl
  | none =>
    obtain ⟨found, hfound, hmap⟩ := h.lists.find hfuel ⟨str, .given 0, none, none⟩
    simp only [hfound, Option.map_some, hmap]

/-- A command that is not found has a name that is not in the tree. -/
theorem find_none {str : List UInt8} (h : find cmds str = none) (run : Fn)
    (detail : Option (List UInt8)) (cbarg : Option Nat) :
    Ordered.find cliCmdCmp ⟨string str, run, detail, cbarg⟩ cmds = none := by
  have hstr : string (string str) = string str := by rw [string, string, List.takeWhile_takeWhile]; simp
  have hcmp : ∀ c, cliCmdCmp ⟨string str, run, detail, cbarg⟩ c = cliCmdCmp ⟨str, .given 0, none, none⟩ c := by
    intro c
    rw [cliCmdCmp, cliCmdCmp, Settings.strcmp_eq, Settings.strcmp_eq, hstr]
  rw [find] at h
  split at h
  · cases h
  · simpa only [Ordered.find, hcmp] using h

/-- **`cli1_cmd_add` takes in what is new.** -/
theorem cli1CmdAdd_spec (h : Keeps cmdq cmds) (hfuel : cmdq.next < fuel) (r : Request) :
    ∃ cmdq', cli1CmdAdd fuel cmdq r = some ((listAdd cmds r).1, cmdq') ∧ Keeps cmdq' (listAdd cmds r).2 ∧
    cmdq'.next ≤ cmdq.next + 1 := by
  obtain ⟨str, run, cbarg, detail, alloc⟩ := r
  have hrefused : ∃ cmdq', some ((-1 : Int), cmdq) = some (-1, cmdq') ∧ Keeps cmdq' cmds ∧ cmdq'.next ≤ cmdq.next + 1 :=
    ⟨cmdq, rfl, h, Nat.le_succ _⟩
  cases str with
  | none => exact hrefused
  | some str =>
    cases run with
    | none => exact hrefused
    | some run =>
      simp only [cli1CmdAdd, listAdd]
      by_cases hempty : (string str).length ≤ 0
      · rw [if_pos hempty, if_pos (.inl hempty)]
        exact hrefused
      rw [if_neg hempty, cliLutFind_spec h hfuel, Option.bind_some]
      cases hfind : find cmds str with
      | some c =>
        have hthere : (string str).length ≤ 0 ∨ some c ≠ none ∨ alloc = false := .inr (.inl (Option.some_ne_none c))
        rw [if_pos hthere]
        exact hrefused
      | none =>
        cases alloc with
        | false =>
          have hfull : (string str).length ≤ 0 ∨ (none : Option Cmd) ≠ none ∨ false = false := .inr (.inr rfl)
          rw [if_pos hfull]
          exact hrefused
        | true =>
          have hnew : ¬ ((string str).length ≤ 0 ∨ (none : Option Cmd) ≠ none ∨ true = false) := by simp [hempty]
          obtain ⟨cmdq', hins, hlists, hnext⟩ := h.lists.insert hfuel ⟨string str, .given run, detail.map string, cbarg⟩
          rw [if_neg hnew]
          refine ⟨cmdq', by simp [hins], ⟨hlists, ?_⟩, Nat.le_of_eq hnext⟩
          rw [Ordered.length_insert (find_none hfind ..), h.all, hnext]

theorem cliHelp_spec (h : Keeps cmdq cmds) (hfuel : cmdq.next < fuel) (argv : List (List UInt8)) :
    cliHelp fuel cmdq argv = some (listHelp cmds argv) := by
  obtain ⟨nodes, hnodes, hmap⟩ := h.lists.foreach hfuel
  simp only [cliHelp, listHelp]
  split
  · rfl
  · rw [hnodes, Option.map_some, hmap]

/-- A line that is not empty has a first word. -/
theorem aloeCliTok_ne_nil {line trimmed : List UInt8} (h : cliInputLine line = some trimmed) : aloeCliTok trimmed ≠ [] := by
  rw [cliInputLine] at h
  split at h
  · cases h
  case isFalse hne =>
    split at h
    · cases h
    · obtain rfl := Option.some.inj h
      obtain ⟨b, rest, htrim, hb⟩ := trim_head hne
      obtain ⟨tok, htok⟩ := aloeCliTok_solid hb rest
      rw [htrim]
      intro hnil
      rw [hnil] at htok
      cases htok

theorem runLine_spec (h : Keeps cmdq cmds) (hfuel : cmdq.next < fuel) (line : List UInt8) :
    runLine fuel cmdq line = some (listLine cmds line) := by
  rw [runLine, listLine]
  cases hline : cliInputLine line with
  | none => rfl
  | some trimmed =>
    have hne := aloeCliTok_ne_nil hline
    cases hwords : aloeCliTok trimmed with
    | nil => exact absurd hwords hne
    | cons str args =>
      simp only [hwords, cliLutFind_spec h hfuel, Option.bind_some]
      cases find cmds str with
      | none => rfl
      | some c =>
        cases hrun : c.run with
        | cliHelp => simp only [hrun, cliHelp_spec h hfuel, Option.map_some]
        | given f => simp only [hrun]

theorem runLines_spec (h : Keeps cmdq cmds) (hfuel : cmdq.next < fuel) (lines : List (List UInt8)) :
    runLines fuel cmdq lines = some (lines.flatMap (listLine cmds)) := by
  induction lines with
  | nil => rfl
  | cons line lines ih =>
    rw [runLines, runLine_spec h hfuel, Option.bind_some, ih]
    rfl

/-! ## Whole sessions -/

structure Agrees (s : Session (Store Cmd)) (a : Session (List Cmd)) : Prop where
  lines : s.lines = a.lines
  out : s.out = a.out
  keeps : Keeps s.cmdq a.cmdq

theorem step_spec {s : Session (Store Cmd)} {a : Session (List Cmd)} (h : Agrees s a)
    (hfuel : s.cmdq.next < fuel) (e : Event) :
    ∃ s', step fuel s e = some s' ∧ Agrees s' (listStep a e) ∧ s'.cmdq.next ≤ s.cmdq.next + 1 := by
  obtain ⟨hlines, hout, hkeeps⟩ := h
  cases e with
  | add r =>
    obtain ⟨cmdq', hadd, hkeeps', hnext⟩ := cli1CmdAdd_spec hkeeps hfuel r
    refine ⟨⟨s.lines, cmdq', s.out ++ [.added (listAdd a.cmdq r).1]⟩, ?_, ⟨hlines, ?_, hkeeps'⟩, hnext⟩
    · rw [step, hadd]
      rfl
    · rw [hout]
      rfl
  | read data =>
    refine ⟨⟨cliInput s.lines data, s.cmdq, s.out ++ (newLines s.lines data).flatMap (listLine a.cmdq)⟩, ?_,
      ⟨?_, ?_, hkeeps⟩,
      Nat.le_succ _⟩
    · rw [step, runLines_spec hkeeps hfuel]
      rfl
    · rw [hlines]
      rfl
    · rw [hlines, hout]
      rfl

theorem run_agrees (content : Nat → Cmd) (mem : Heap Nat) (events : List Event) (hfuel : events.length < fuel) :
    ∃ s, Runs.run (step fuel) events ⟨init, ⟨content, mem.init, 0⟩, []⟩ = some s ∧
      Agrees s (events.foldl listStep ⟨init, [], []⟩) ∧ s.cmdq.next ≤ events.length := by
  induction events using List.reverseRecOn with
  | nil => exact ⟨_, rfl, ⟨rfl, rfl, Store.lists_init content mem, rfl⟩, Nat.le_refl 0⟩
  | append_singleton events e ih =>
    rw [List.length_append, List.length_singleton] at hfuel ⊢
    obtain ⟨s, hrun, hagrees, hnext⟩ := ih (by omega)
    have hroom : s.cmdq.next < fuel := by omega
    obtain ⟨s', hstep, hagrees', hnext'⟩ := step_spec hagrees hroom e
    rw [List.foldl_append]
    exact ⟨s', Runs.run_concat.2 ⟨s, hrun, hstep⟩, hagrees', by omega⟩

/-- **Whatever is added and read, what is called, printed and answered is what the list says**, which is in the order of
the names. -/
theorem session_refines (content : Nat → Cmd) (mem : Heap Nat) (events : List Event) (hfuel : events.length < fuel) :
    ∃ s, Runs.run (step fuel) events ⟨init, ⟨content, mem.init, 0⟩, []⟩ = some s ∧
      s.lines = (events.foldl listStep ⟨init, [], []⟩).lines ∧ s.out = (events.foldl listStep ⟨init, [], []⟩).out ∧
      Ordered.Sorted cliCmdCmp (events.foldl listStep ⟨init, [], []⟩).cmdq := by
  obtain ⟨s, hrun, hagrees, -⟩ := run_agrees content mem events hfuel
  exact ⟨s, hrun, hagrees.lines, hagrees.out, hagrees.keeps.lists.sorted⟩

/-- Two commands, the second in two reads, and `q` again. -/
def someEvents : List Event :=
  [.add ⟨some (ascii "q"), some 1, none, none, true⟩, .add ⟨some (ascii "fork"), some 2, some 7, some (ascii "fork"), true⟩,
    .read (ascii "fo"), .read (ascii "rk 1\nHELP\n"), .add ⟨some (ascii "q"), some 3, none, none, true⟩]

def someMem : Heap Nat := ⟨some 5, fun a => ⟨some a, none, none, .red⟩⟩

def blank : Nat → Cmd := fun _ => ⟨[], .cliHelp, none, none⟩

theorem session_refines_some : ∃ s, Runs.run (step 6) someEvents ⟨init, ⟨blank, someMem.init, 0⟩, []⟩ = some s ∧
    s.lines = (someEvents.foldl listStep ⟨init, [], []⟩).lines ∧ s.out = (someEvents.foldl listStep ⟨init, [], []⟩).out ∧
    Ordered.Sorted cliCmdCmp (someEvents.foldl listStep ⟨init, [], []⟩).cmdq :=
  session_refines blank someMem someEvents (by decide)

/-- `cli1_destroy` frees what is in the tree, from the first on. -/
theorem destroyLoop_spec {nodes : List Nat} {turns : Nat} (h : cmdq.Holds cliCmdCmp nodes) (hfuel : nodes.length < fuel)
    (hturns : nodes.length < turns) :
    ∃ cmdq', destroyLoop fuel turns cmdq = some (cmdq', nodes) ∧ cmdq'.Holds cliCmdCmp [] := by
  induction nodes generalizing cmdq turns with
  | nil =>
    obtain ⟨turns, rfl⟩ := Nat.exists_eq_add_of_lt hturns
    refine ⟨cmdq, ?_, h⟩
    rw [destroyLoop, h.first hfuel]
    rfl
  | cons cmd nodes ih =>
    rw [List.length_cons] at hfuel hturns
    obtain ⟨turns, rfl⟩ := Nat.exists_eq_succ_of_ne_zero (Nat.ne_of_gt (Nat.zero_lt_of_lt hturns))
    obtain ⟨cmdq₁, hrem, hholds, -, -⟩ := Store.remove_spec h List.mem_cons_self hfuel
    rw [List.erase_cons_head] at hholds
    obtain ⟨cmdq₂, hloop, hempty⟩ := ih hholds (by omega) (show nodes.length < turns by omega)
    refine ⟨cmdq₂, ?_, hempty⟩
    rw [destroyLoop, h.first hfuel]
    simp only [Option.bind_some, List.head?_cons, hrem, hloop, Option.map_some]

/-- **`cli1_destroy` frees every command that has been allocated, once**, and the tree is empty. -/
theorem destroy_frees (content : Nat → Cmd) (mem : Heap Nat) (events : List Event) (hfuel : events.length < fuel) :
    ∃ s cmdq freed, Runs.run (step fuel) events ⟨init, ⟨content, mem.init, 0⟩, []⟩ = some s ∧
      destroyLoop fuel fuel s.cmdq = some (cmdq, freed) ∧ freed.Perm (List.range s.cmdq.next) ∧ cmdq.tree.root = none := by
  obtain ⟨s, hrun, hagrees, hnext⟩ := run_agrees content mem events hfuel
  obtain ⟨nodes, hholds, hcmds⟩ := hagrees.keeps.lists
  have hall : nodes.length = s.cmdq.next := by rw [← hagrees.keeps.all, ← hcmds, List.length_map]
  have hlt : nodes.length < fuel := by omega
  obtain ⟨cmdq, hloop, hempty⟩ := destroyLoop_spec hholds hlt hlt
  exact ⟨s, cmdq, nodes, hrun, hloop, hholds.perm_range hall, hempty.root_none⟩

theorem destroy_frees_some : ∃ s cmdq freed, Runs.run (step 6) someEvents ⟨init, ⟨blank, someMem.init, 0⟩, []⟩ = some s ∧
    destroyLoop 6 6 s.cmdq = some (cmdq, freed) ∧ freed.Perm (List.range s.cmdq.next) ∧ cmdq.tree.root = none :=
  destroy_frees blank someMem someEvents (by decide)

end AlgaeBp.Cli
