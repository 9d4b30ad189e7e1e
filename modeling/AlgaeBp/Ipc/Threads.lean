import AlgaeBp.Ipc.Overlong
import AlgaeBp.Lib.Runs
/-!
# Threads that share the channel

Any number of threads are in `ipc1_write` and `ipc1_register_callback`, and the
event loop reads what arrives. A step goes up to the next call that another
thread can notice: the mutex, one `write`, or one `read` with what the loop
makes of it. `history` has the calls that got the mutex, in this order, with
the bytes each of them has put into the socket; `refused` has the others.
-/
open Bytes Runs

namespace AlgaeBp.Ipc

/-! ## The threads -/

inductive Req where
  /-- `ipc1_write`. -/
  | write (c : Call)
  /-- `ipc1_register_callback`. -/
  | register (func cbarg : Nat)

/-- `sizeof(ipc1_type_callback_t)`. -/
def Platform.callbackSize (pf : Platform) : Nat := pf.ptrSize + pf.ptrSize

/-- The arguments of `ipc1_write`. -/
def Req.call (pf : Platform) : Req → Call
  | .write c => c
  | .register func cbarg => ⟨1, leBytes pf.ptrSize func ++ leBytes pf.ptrSize cbarg⟩

/-- Where a thread is. `wrote` is what a loop has written, `todo` what it has not. -/
inductive Pc where
  | idle
  /-- About to lock; `ipc` is not `NULL` if `ipc` is set. -/
  | lock (ipc : Bool) (q : Req)
  | header (q : Req) (m : Msg) (wrote todo : List UInt8)
  | payload (q : Req) (m : Msg) (wrote todo : List UInt8)
  | unlock (ret : Nat)

/-- A call of `ipc1_write` that is done with the socket. -/
structure Entry (ι : Type) where
  thread : ι
  req : Req
  msg : Msg
  wrote : List UInt8
  ret : Nat

structure Sys (ι : Type) where
  msgSeq : UInt32
  mutex : Option ι
  pc : ι → Pc
  /-- In the socket, and not read. -/
  buffered : List UInt8
  recv : Option St
  history : List (Entry ι)
  refused : List (Entry ι)

inductive Label (ι : Type) where
  | call (i : ι) (ipc : Bool) (q : Req)
  /-- `pthread_mutex_lock`. -/
  | lock (i : ι) (ok : Bool)
  | write (i : ι) (r : WriteResult)
  | unlock (i : ι)
  /-- The loop's `read` gets no more than `n + 1` bytes. -/
  | read (n : Nat)

variable {ι : Type} [DecidableEq ι]

def goto (i : ι) (pc : Pc) (s : Sys ι) : Sys ι := { s with pc := Function.update s.pc i pc }

def finish (i : ι) (q : Req) (m : Msg) (wrote : List UInt8) (ret : Nat) (s : Sys ι) : Sys ι :=
  { goto i (.unlock ret) s with history := s.history ++ [⟨i, q, m, wrote, ret⟩] }

/-- `failed lock`. The message has no sequence number yet. -/
def refuse (pf : Platform) (i : ι) (q : Req) (s : Sys ι) : Sys ι :=
  { goto i .idle s with refused := s.refused ++ [⟨i, q, (q.call pf).msg 0, [], 0⟩] }

/-- What follows the lock. -/
def stamp (pf : Platform) (i : ι) (ipc : Bool) (q : Req) (s : Sys ι) : Sys ι :=
  let m := (q.call pf).msg s.msgSeq.toUInt16
  let s := { s with mutex := some i, msgSeq := s.msgSeq + 1 }
  if ipc then goto i (.header q m [] m.header) s else finish i q m [] 0 s

/-- One round of the first loop, and what follows it. -/
def headerRound (i : ι) (q : Req) (m : Msg) (wrote todo : List UInt8) (s : Sys ι) : WriteResult → Sys ι
  | .wrote more =>
    let s := { s with buffered := s.buffered ++ todo.take (more + 1) }
    if todo.drop (more + 1) = [] then
      if m.val = [] then finish i q m m.header 0 s else goto i (.payload q m [] m.val) s
    else goto i (.header q m (wrote ++ todo.take (more + 1)) (todo.drop (more + 1))) s
  | .closed | .failed => finish i q m wrote 0 s

def payloadRound (i : ι) (q : Req) (m : Msg) (wrote todo : List UInt8) (s : Sys ι) : WriteResult → Sys ι
  | .wrote more =>
    let s := { s with buffered := s.buffered ++ todo.take (more + 1) }
    let wrote := wrote ++ todo.take (more + 1)
    if todo.drop (more + 1) = [] then finish i q m (m.header ++ wrote) wrote.length s
    else goto i (.payload q m wrote (todo.drop (more + 1))) s
  | .closed | .failed => finish i q m (m.header ++ wrote) wrote.length s

/-- `ipc1_cb` where there is something to read, into a buffer of 1024 bytes. -/
def ipc1Cb (pf : Platform) (n : Nat) (s : Sys ι) : Sys ι :=
  let k := min (n + 1) 1023
  { s with buffered := s.buffered.drop k, recv := s.recv.bind (ipc1Input pf · (s.buffered.take k)) }

def step (pf : Platform) (s : Sys ι) : Label ι → Option (Sys ι)
  | .call i ipc q =>
    match s.pc i with
    | .idle => some (goto i (.lock ipc q) s)
    | _ => none
  | .lock i ok =>
    match s.pc i with
    | .lock ipc q =>
      if ok then (if s.mutex = none then some (stamp pf i ipc q s) else none) else some (refuse pf i q s)
    | _ => none
  | .write i r =>
    match s.pc i with
    | .header q m wrote todo => some (headerRound i q m wrote todo s r)
    | .payload q m wrote todo => some (payloadRound i q m wrote todo s r)
    | _ => none
  | .unlock i =>
    match s.pc i with
    | .unlock _ => some { goto i .idle s with mutex := none }
    | _ => none
  | .read n => if s.buffered = [] then some s else some (ipc1Cb pf n s)

/-- `msg_seq` starts at 1. -/
def Sys.init : Sys ι := ⟨1, none, fun _ => .idle, [], some St.init, [], []⟩

/-- What the steps do. -/
inductive Moves (pf : Platform) (s : Sys ι) : Label ι → Sys ι → Prop
  | call {i : ι} {ipc : Bool} {q : Req} (hpc : s.pc i = .idle) : Moves pf s (.call i ipc q) (goto i (.lock ipc q) s)
  | stamp {i : ι} {ipc : Bool} {q : Req} (hpc : s.pc i = .lock ipc q) (hm : s.mutex = none) :
      Moves pf s (.lock i true) (stamp pf i ipc q s)
  | refuse {i : ι} {ipc : Bool} {q : Req} (hpc : s.pc i = .lock ipc q) : Moves pf s (.lock i false) (refuse pf i q s)
  | header {i : ι} {q : Req} {m : Msg} {wrote todo : List UInt8} {r : WriteResult} (hpc : s.pc i = .header q m wrote todo) :
      Moves pf s (.write i r) (headerRound i q m wrote todo s r)
  | payload {i : ι} {q : Req} {m : Msg} {wrote todo : List UInt8} {r : WriteResult}
      (hpc : s.pc i = .payload q m wrote todo) : Moves pf s (.write i r) (payloadRound i q m wrote todo s r)
  | unlock {i : ι} {ret : Nat} (hpc : s.pc i = .unlock ret) : Moves pf s (.unlock i) { goto i .idle s with mutex := none }
  | nothing {n : Nat} : Moves pf s (.read n) s
  | read {n : Nat} : Moves pf s (.read n) (ipc1Cb pf n s)

theorem step_moves {pf : Platform} {s s' : Sys ι} {l : Label ι} (hs : step pf s l = some s') : Moves pf s l s' := by
  cases l with
  | call i ipc q =>
    simp only [step] at hs
    split at hs
    · next hpc =>
      obtain rfl := Option.some.inj hs
      exact .call hpc
    · cases hs
  | lock i ok =>
    simp only [step] at hs
    split at hs
    · next ipc q hpc =>
      cases ok with
      | true =>
        rw [if_pos rfl] at hs
        split at hs
        · next hm =>
          obtain rfl := Option.some.inj hs
          exact .stamp hpc hm
        · cases hs
      | false =>
        obtain rfl := Option.some.inj hs
        exact .refuse hpc
    · cases hs
  | write i r =>
    simp only [step] at hs
    split at hs
    · next hpc =>
      obtain rfl := Option.some.inj hs
      exact .header hpc
    · next hpc =>
      obtain rfl := Option.some.inj hs
      exact .payload hpc
    · cases hs
  | unlock i =>
    simp only [step] at hs
    split at hs
    · next hpc =>
      obtain rfl := Option.some.inj hs
      exact .unlock hpc
    · cases hs
  | read n =>
    simp only [step] at hs
    split at hs
    · obtain rfl := Option.some.inj hs
      exact .nothing
    · obtain rfl := Option.some.inj hs
      exact .read

/-! ## What the threads keep -/

/-- The sequence number of the `k`-th call. -/
def seqAt (k : Nat) : UInt16 := (UInt32.ofNat (k + 1)).toUInt16

/-- What a call has written that is not done. -/
def Pc.wrote : Pc → List UInt8
  | .header _ _ wrote _ => wrote
  | .payload _ m wrote _ => m.header ++ wrote
  | _ => []

@[simp] theorem wrote_unlock {ret : Nat} : (Pc.unlock ret).wrote = [] := rfl

/-- In one of the two loops. -/
def Pc.busy : Pc → Bool
  | .header .. | .payload .. => true
  | _ => false

/-- All that has gone into the socket. -/
def wire (s : Sys ι) : List UInt8 :=
  (s.history.map Entry.wrote).flatten ++ s.mutex.elim [] fun i => (s.pc i).wrote

/-- Where the holder of the mutex can be after `k` calls. -/
def Pc.Holds (pf : Platform) (k : Nat) (seq : UInt32) : Pc → Prop
  | .header q m wrote todo => m = (q.call pf).msg (seqAt k) ∧ wrote ++ todo = m.header ∧ todo ≠ [] ∧
      seq = UInt32.ofNat (k + 2)
  | .payload q m wrote todo => m = (q.call pf).msg (seqAt k) ∧ wrote ++ todo = m.val ∧ todo ≠ [] ∧ seq = UInt32.ofNat (k + 2)
  | .unlock _ => seq = UInt32.ofNat (k + 1)
  | _ => False

/-- Where the others can be. -/
def Pc.outside : Pc → Bool
  | .idle | .lock .. => true
  | _ => false

/-- A call returns the number of payload bytes it has written. -/
structure Entry.Ok (pf : Platform) (seq : UInt16) (e : Entry ι) : Prop where
  msg : e.msg = (e.req.call pf).msg seq
  wrote : e.wrote <+: e.msg.bytes
  ret : e.ret = e.wrote.length - hdrLen

structure Inv (pf : Platform) (s : Sys ι) : Prop where
  free : s.mutex = none → s.msgSeq = UInt32.ofNat (s.history.length + 1)
  holder : ∀ i, s.mutex = some i → (s.pc i).Holds pf s.history.length s.msgSeq
  others : ∀ i, s.mutex ≠ some i → (s.pc i).outside = true
  entry : ∀ (k : Nat) (e : Entry ι), s.history[k]? = some e → e.Ok pf (seqAt k)
  refused : ∀ e ∈ s.refused, e.Ok pf 0
  recv : ∃ reads, s.recv = inputReads pf .init reads ∧ reads.flatten ++ s.buffered = wire s

section
variable {pf : Platform} {s s' : Sys ι} {i : ι} {pc : Pc} {q : Req} {m : Msg} {b w : List UInt8} {ret : Nat}

omit [DecidableEq ι] in
theorem wire_holder (h : s.mutex = some i) : wire s = (s.history.map Entry.wrote).flatten ++ (s.pc i).wrote := by
  rw [wire, h]
  rfl

omit [DecidableEq ι] in
theorem wire_free (h : s.mutex = none) : wire s = (s.history.map Entry.wrote).flatten := by
  rw [wire, h]
  exact List.append_nil _

/-- A thread without the mutex goes elsewhere without it. -/
theorem Inv.goto_outside (hi : Inv pf s) (hm : s.mutex ≠ some i) (hpc : pc.outside = true) : Inv pf (goto i pc s) where
  free := hi.free
  holder j hj := by
    have hne : j ≠ i := by
      rintro rfl
      exact hm hj
    simp only [goto, Function.update_of_ne hne]
    exact hi.holder j hj
  others j hj := by
    by_cases hne : j = i
    · subst hne
      simp only [goto, Function.update_self]
      exact hpc
    · simp only [goto, Function.update_of_ne hne]
      exact hi.others j hj
  entry := hi.entry
  refused := hi.refused
  recv := by
    obtain ⟨reads, hrecv, hbytes⟩ := hi.recv
    refine ⟨reads, hrecv, hbytes.trans ?_⟩
    cases hs : s.mutex with
    | none => rw [wire_free hs, wire_free (s := goto i pc s) hs]; rfl
    | some j =>
      have hne : j ≠ i := by
        rintro rfl
        exact hm hs
      rw [wire_holder hs, wire_holder (s := goto i pc s) hs]
      simp only [goto, Function.update_of_ne hne]

/-- Its lock fails. -/
theorem Inv.refuse (hi : Inv pf s) (hm : s.mutex ≠ some i) (q : Req) : Inv pf (refuse pf i q s) := by
  have hidle : Inv pf (goto i .idle s) := hi.goto_outside hm rfl
  refine ⟨hidle.free, hidle.holder, hidle.others, hidle.entry, fun e he => ?_, hidle.recv⟩
  rcases List.mem_append.1 he with he | he
  · exact hi.refused e he
  · obtain rfl := List.mem_singleton.1 he
    exact ⟨rfl, List.nil_prefix, rfl⟩

/-- The holder writes `b` and goes on. -/
theorem Inv.goto_holder (hi : Inv pf s) (hm : s.mutex = some i) (hpc : pc.Holds pf s.history.length s.msgSeq)
    (hw : pc.wrote = (s.pc i).wrote ++ b) : Inv pf (goto i pc { s with buffered := s.buffered ++ b }) where
  free hn := by
    have hn' : s.mutex = none := hn
    rw [hm] at hn'
    cases hn'
  holder j hj := by
    obtain rfl : i = j := Option.some.inj (hm.symm.trans hj)
    simp only [goto, Function.update_self]
    exact hpc
  others j hj := by
    have hne : j ≠ i := by
      rintro rfl
      exact hj hm
    simp only [goto, Function.update_of_ne hne]
    exact hi.others j hj
  entry := hi.entry
  refused := hi.refused
  recv := by
    obtain ⟨reads, hrecv, hbytes⟩ := hi.recv
    refine ⟨reads, hrecv, ?_⟩
    rw [wire_holder (s := goto i pc { s with buffered := s.buffered ++ b }) hm]
    rw [wire_holder hm] at hbytes
    simp only [goto, Function.update_self, hw]
    rw [← List.append_assoc, hbytes, List.append_assoc]

omit [DecidableEq ι] in
theorem entry_concat {l : List (Entry ι)} {e : Entry ι}
    (hl : ∀ (k : Nat) (e : Entry ι), l[k]? = some e → e.Ok pf (seqAt k)) (he : e.Ok pf (seqAt l.length)) :
    ∀ (k : Nat) (e' : Entry ι), (l ++ [e])[k]? = some e' → e'.Ok pf (seqAt k) := by
  intro k e' hk
  rw [List.getElem?_append] at hk
  split at hk
  · exact hl k e' hk
  · obtain ⟨hlt, heq⟩ := List.getElem?_eq_some_iff.1 hk
    have hk0 : k - l.length = 0 := by simpa using hlt
    have hkl : k = l.length := by omega
    subst hkl
    simp only [hk0, List.getElem_cons_zero] at heq
    exact heq ▸ he

/-- The holder writes `b` and is done with the socket. -/
theorem Inv.finish (hi : Inv pf s) (hm : s.mutex = some i) (hmsg : m = (q.call pf).msg (seqAt s.history.length))
    (hseq : s.msgSeq = UInt32.ofNat (s.history.length + 2)) (hw : w = (s.pc i).wrote ++ b) (hpre : w <+: m.bytes)
    (hret : ret = w.length - hdrLen) : Inv pf (finish i q m w ret { s with buffered := s.buffered ++ b }) where
  free hn := by
    have hn' : s.mutex = none := hn
    rw [hm] at hn'
    cases hn'
  holder j hj := by
    obtain rfl : i = j := Option.some.inj (hm.symm.trans hj)
    simp only [Ipc.finish, goto, Function.update_self, List.length_append, List.length_singleton]
    exact hseq
  others j hj := by
    have hne : j ≠ i := by
      rintro rfl
      exact hj hm
    simp only [Ipc.finish, goto, Function.update_of_ne hne]
    exact hi.others j hj
  entry := entry_concat hi.entry ⟨hmsg, hpre, hret⟩
  refused := hi.refused
  recv := by
    obtain ⟨reads, hrecv, hbytes⟩ := hi.recv
    refine ⟨reads, hrecv, ?_⟩
    rw [wire_holder (s := Ipc.finish i q m w ret { s with buffered := s.buffered ++ b }) hm]
    rw [wire_holder hm] at hbytes
    simp only [Ipc.finish, goto, Function.update_self, hw, wrote_unlock, List.append_nil, List.map_append,
      List.map_cons, List.map_nil,
      List.flatten_append, List.flatten_singleton]
    rw [← List.append_assoc, hbytes, List.append_assoc]

theorem Inv.stamp (hi : Inv pf s) (hm : s.mutex = none) (ipc : Bool) (q : Req) : Inv pf (stamp pf i ipc q s) := by
  have hseq := hi.free hm
  have hmsg : s.msgSeq.toUInt16 = seqAt s.history.length := by rw [hseq, seqAt]
  have hnext : s.msgSeq + 1 = UInt32.ofNat (s.history.length + 2) := by
    rw [hseq, ← UInt32.ofNat_one, ← UInt32.ofNat_add]
  obtain ⟨reads, hrecv, hbytes⟩ := hi.recv
  rw [wire_free hm] at hbytes
  have hothers : ∀ j, j ≠ i → ∀ pc, (Function.update s.pc i pc j).outside = true := by
    intro j hj pc
    rw [Function.update_of_ne hj]
    exact hi.others j (by rw [hm]; exact Option.some_ne_none j |>.symm)
  have hother : ∀ {j}, some i ≠ some j → j ≠ i := by
    rintro j hj rfl
    exact hj rfl
  cases ipc with
  | true =>
    refine ⟨fun hn => absurd hn (Option.some_ne_none i), fun j hj => ?_, fun j hj => hothers j (hother hj) _, hi.entry,
      hi.refused, reads, hrecv, ?_⟩
    · obtain rfl := Option.some.inj hj
      simp only [Ipc.stamp, goto, Function.update_self, if_true, Pc.Holds]
      refine ⟨by rw [hmsg], rfl, ?_, hnext⟩
      simp [Msg.header, Call.msg, leadingBytes]
    · rw [wire_holder (i := i) rfl]
      simp only [Ipc.stamp, goto, Function.update_self, if_true, Pc.wrote, List.append_nil]
      exact hbytes
  | false =>
    refine ⟨fun hn => absurd hn (Option.some_ne_none i), fun j hj => ?_, fun j hj => hothers j (hother hj) _, ?_,
      hi.refused, reads, hrecv, ?_⟩
    · obtain rfl := Option.some.inj hj
      simp only [Ipc.stamp, Ipc.finish, goto, Function.update_self, Bool.false_eq_true, if_false,
        Pc.Holds, List.length_append,
        List.length_singleton]
      exact hnext
    · exact entry_concat hi.entry ⟨by rw [hmsg], List.nil_prefix, rfl⟩
    · rw [wire_holder (i := i) rfl]
      simp only [Ipc.stamp, Ipc.finish, goto, Function.update_self, Bool.false_eq_true, if_false,
        wrote_unlock, List.append_nil,
        List.map_append, List.map_cons, List.map_nil, List.flatten_append, List.flatten_singleton]
      exact hbytes

omit [DecidableEq ι] in
/-- A thread that is not outside has the mutex. -/
theorem Inv.mutex_of (hi : Inv pf s) (h : (s.pc i).outside = false) : s.mutex = some i := by
  by_contra hm
  rw [hi.others i hm] at h
  cases h

omit [DecidableEq ι] in
/-- A thread that is outside does not. -/
theorem Inv.mutex_ne (hi : Inv pf s) (h : (s.pc i).outside = true) : s.mutex ≠ some i := by
  intro hm
  have hholds := hi.holder i hm
  cases hpc : s.pc i <;> rw [hpc] at h hholds
  case idle => exact hholds
  case lock => exact hholds
  all_goals cases h

theorem Inv.headerRound {todo : List UInt8} (hi : Inv pf s) (hpc : s.pc i = .header q m w todo) (r : WriteResult) :
    Inv pf (headerRound i q m w todo s r) := by
  have hm : s.mutex = some i := hi.mutex_of (by rw [hpc]; rfl)
  obtain ⟨hmsg, hsplit, hne, hseq⟩ : Pc.Holds pf s.history.length s.msgSeq (.header q m w todo) := hpc ▸ hi.holder i hm
  have hlen : m.header.length = hdrLen := length_header (hmsg ▸ (q.call pf).built _)
  have hw : (s.pc i).wrote = w := by rw [hpc]; rfl
  have hstop : Inv pf (Ipc.finish i q m w 0 s) := by
    have hpre : w <+: m.header := hsplit ▸ List.prefix_append w todo
    have hle := hpre.length_le
    have hret : 0 = w.length - hdrLen := by omega
    have hinv := hi.finish (b := []) hm hmsg hseq (w := w) (by rw [hw, List.append_nil])
      (hpre.trans (List.prefix_append _ _)) hret
    rwa [List.append_nil] at hinv
  cases r with
  | closed => exact hstop
  | failed => exact hstop
  | wrote more =>
    have hsplit' : w ++ todo.take (more + 1) ++ todo.drop (more + 1) = m.header := by
      rw [List.append_assoc, List.take_append_drop, hsplit]
    simp only [Ipc.headerRound]
    split
    · next hdone =>
      rw [hdone, List.append_nil] at hsplit'
      split
      · refine hi.finish hm hmsg hseq (by rw [hw, hsplit']) (List.prefix_append _ _) (by omega)
      · next hval =>
        refine hi.goto_holder hm ⟨hmsg, rfl, hval, hseq⟩ ?_
        rw [hw, hsplit', Pc.wrote, List.append_nil]
    · next hmore =>
      refine hi.goto_holder hm ⟨hmsg, hsplit', hmore, hseq⟩ ?_
      rw [hw]
      rfl

theorem Inv.payloadRound {todo : List UInt8} (hi : Inv pf s) (hpc : s.pc i = .payload q m w todo) (r : WriteResult) :
    Inv pf (payloadRound i q m w todo s r) := by
  have hm : s.mutex = some i := hi.mutex_of (by rw [hpc]; rfl)
  obtain ⟨hmsg, hsplit, hne, hseq⟩ : Pc.Holds pf s.history.length s.msgSeq (.payload q m w todo) := hpc ▸ hi.holder i hm
  have hlen : m.header.length = hdrLen := length_header (hmsg ▸ (q.call pf).built _)
  have hw : (s.pc i).wrote = m.header ++ w := by rw [hpc]; rfl
  have hret : ∀ w : List UInt8, w.length = (m.header ++ w).length - hdrLen := by
    intro w
    rw [List.length_append]
    omega
  have hstop : Inv pf (Ipc.finish i q m (m.header ++ w) w.length s) := by
    have hpre : m.header ++ w <+: m.bytes := (List.prefix_append_right_inj _).2 (hsplit ▸ List.prefix_append w todo)
    have hinv := hi.finish (b := []) hm hmsg hseq (by rw [hw, List.append_nil]) hpre (hret w)
    rwa [List.append_nil] at hinv
  cases r with
  | closed => exact hstop
  | failed => exact hstop
  | wrote more =>
    have hsplit' : w ++ todo.take (more + 1) ++ todo.drop (more + 1) = m.val := by
      rw [List.append_assoc, List.take_append_drop, hsplit]
    simp only [Ipc.payloadRound]
    split
    · next hdone =>
      rw [hdone, List.append_nil] at hsplit'
      refine hi.finish hm hmsg hseq (by rw [hw, List.append_assoc]) ?_ (hret _)
      rw [hsplit']
      exact List.prefix_refl _
    · next hmore =>
      refine hi.goto_holder hm ⟨hmsg, hsplit', hmore, hseq⟩ ?_
      rw [hw, Pc.wrote, List.append_assoc]

omit [DecidableEq ι] in
theorem inputReads_concat (pf : Platform) (reads : List (List UInt8)) (buf : List UInt8) :
    inputReads pf .init (reads ++ [buf]) = (inputReads pf .init reads).bind (ipc1Input pf · buf) := by
  rw [inputReads_flatten, inputReads_flatten, List.flatten_append, List.flatten_singleton, ipc1Input_append]

/-- The holder gives the mutex back. -/
theorem Inv.unlock (hi : Inv pf s) (hpc : s.pc i = .unlock ret) : Inv pf { goto i .idle s with mutex := none } := by
  have hm := hi.mutex_of (i := i) (by rw [hpc]; rfl)
  have hholds : Pc.Holds pf s.history.length s.msgSeq (.unlock ret) := hpc ▸ hi.holder i hm
  obtain ⟨reads, hrecv, hbytes⟩ := hi.recv
  refine ⟨fun _ => hholds, nofun, fun j _ => ?_, hi.entry, hi.refused, reads, hrecv, ?_⟩
  · by_cases hne : j = i
    · subst hne
      simp only [goto, Function.update_self]
      rfl
    · simp only [goto, Function.update_of_ne hne]
      refine hi.others j (fun hj => hne ?_)
      exact Option.some.inj (hj.symm.trans hm)
  · rw [wire_free rfl]
    rw [wire_holder hm, hpc, wrote_unlock, List.append_nil] at hbytes
    exact hbytes

omit [DecidableEq ι] in
/-- The loop reads. -/
theorem Inv.read (hi : Inv pf s) (n : Nat) : Inv pf (ipc1Cb pf n s) := by
  obtain ⟨reads, hrecv, hbytes⟩ := hi.recv
  refine ⟨hi.free, hi.holder, hi.others, hi.entry, hi.refused, reads ++ [s.buffered.take (min (n + 1) 1023)], ?_, ?_⟩
  · rw [inputReads_concat, ← hrecv]
    rfl
  · rw [List.flatten_append, List.flatten_singleton, List.append_assoc]
    simp only [ipc1Cb, List.take_append_drop]
    exact hbytes

/-- One step keeps the invariant. -/
theorem Inv.step {l : Label ι} (hi : Inv pf s) (hs : step pf s l = some s') : Inv pf s' := by
  cases step_moves hs with
  | call hpc => exact hi.goto_outside (hi.mutex_ne (by rw [hpc]; rfl)) rfl
  | stamp hpc hm => exact hi.stamp hm _ _
  | refuse hpc => exact hi.refuse (hi.mutex_ne (by rw [hpc]; rfl)) _
  | header hpc => exact hi.headerRound hpc _
  | payload hpc => exact hi.payloadRound hpc _
  | unlock hpc => exact hi.unlock hpc
  | nothing => exact hi
  | read => exact hi.read _

omit [DecidableEq ι] in
theorem init_inv (pf : Platform) : Inv (ι := ι) pf Sys.init where
  free _ := rfl
  holder _ h := nomatch h
  others _ _ := rfl
  entry _ _ h := nomatch h
  refused _ h := nomatch h
  recv := ⟨[], rfl, rfl⟩

/-! ## What is asked for -/

def Pc.req : Pc → Option Req
  | .lock _ q | .header q _ _ _ | .payload q _ _ _ => some q
  | _ => none

/-- All that the threads have asked for has `P`. -/
structure Asked (P : Req → Prop) (s : Sys ι) : Prop where
  pc : ∀ i q, (s.pc i).req = some q → P q
  entry : ∀ e ∈ s.history ++ s.refused, P e.req

variable {P : Req → Prop}

theorem Asked.goto {buffered : List UInt8} (h : Asked P s) (hpc : ∀ q, pc.req = some q → P q) :
    Asked P (goto i pc { s with buffered := buffered }) where
  pc j q hq := by
    by_cases hne : j = i
    · subst hne
      simp only [Ipc.goto, Function.update_self] at hq
      exact hpc q hq
    · simp only [Ipc.goto, Function.update_of_ne hne] at hq
      exact h.pc j q hq
  entry := h.entry

theorem Asked.finish {buffered : List UInt8} (h : Asked P s) (hq : P q) :
    Asked P (finish i q m w ret { s with buffered := buffered }) := by
  have hout : Asked P (Ipc.goto i (.unlock ret) { s with buffered := buffered }) := h.goto nofun
  refine ⟨hout.pc, fun e he => ?_⟩
  simp only [Ipc.finish, List.mem_append, List.mem_singleton] at he
  rcases he with (he | rfl) | he
  · exact h.entry e (List.mem_append_left _ he)
  · exact hq
  · exact h.entry e (List.mem_append_right _ he)

theorem Asked.refuse (h : Asked P s) (hq : P q) : Asked P (refuse pf i q s) := by
  have hout : Asked P (Ipc.goto i .idle s) := h.goto nofun
  refine ⟨hout.pc, fun e he => ?_⟩
  simp only [Ipc.refuse, List.mem_append, List.mem_singleton] at he
  rcases he with he | he | rfl
  · exact h.entry e (List.mem_append_left _ he)
  · exact h.entry e (List.mem_append_right _ he)
  · exact hq

theorem Asked.stamp (h : Asked P s) (hq : P q) (ipc : Bool) : Asked P (stamp pf i ipc q s) := by
  have hbase : Asked P { s with mutex := some i, msgSeq := s.msgSeq + 1 } := ⟨h.pc, h.entry⟩
  cases ipc with
  | true => exact hbase.goto fun q' hq' => Option.some.inj hq' ▸ hq
  | false => exact hbase.finish hq

theorem Asked.headerRound {todo : List UInt8} (h : Asked P s) (hq : P q) (r : WriteResult) :
    Asked P (headerRound i q m w todo s r) := by
  cases r with
  | closed | failed => exact h.finish hq
  | wrote more =>
    simp only [Ipc.headerRound]
    split
    · split
      · exact h.finish hq
      · exact h.goto fun q' hq' => Option.some.inj hq' ▸ hq
    · exact h.goto fun q' hq' => Option.some.inj hq' ▸ hq

theorem Asked.payloadRound {todo : List UInt8} (h : Asked P s) (hq : P q) (r : WriteResult) :
    Asked P (payloadRound i q m w todo s r) := by
  cases r with
  | closed | failed => exact h.finish hq
  | wrote more =>
    simp only [Ipc.payloadRound]
    split
    · exact h.finish hq
    · exact h.goto fun q' hq' => Option.some.inj hq' ▸ hq

/-- The threads go on with what they asked for. -/
theorem Asked.step {l : Label ι} (h : Asked P s) (hl : ∀ i ipc q, l = .call i ipc q → P q)
    (hs : step pf s l = some s') : Asked P s' := by
  cases step_moves hs with
  | call hpc => exact h.goto fun q' hq' => Option.some.inj hq' ▸ hl _ _ _ rfl
  | stamp hpc hm => exact h.stamp (h.pc _ _ (by rw [hpc]; rfl)) _
  | refuse hpc => exact h.refuse (h.pc _ _ (by rw [hpc]; rfl))
  | header hpc => exact h.headerRound (h.pc _ _ (by rw [hpc]; rfl)) _
  | payload hpc => exact h.payloadRound (h.pc _ _ (by rw [hpc]; rfl)) _
  | @unlock i ret hpc =>
    have hout : Asked P (Ipc.goto i .idle s) := h.goto nofun
    exact ⟨hout.pc, hout.entry⟩
  | nothing => exact h
  | read => exact ⟨h.pc, h.entry⟩

/-- Requests that have `P` when they are made have it after the run. -/
theorem run_asked {ls : List (Label ι)} (hl : ∀ i ipc q, Label.call i ipc q ∈ ls → P q)
    (hr : run (step pf) ls Sys.init = some s) :
    Inv pf s ∧ Asked P s := by
  have hsteps : Steps (step pf) (fun _ l => l ∈ ls) (Sys.init (ι := ι)) ls := fun _ l _ hp _ => hp.subset (by simp)
  refine hsteps.inv (I := fun s => Inv pf s ∧ Asked P s) ⟨init_inv pf, nofun, nofun⟩ ?_ hr
  rintro s l s' ⟨hi, ha⟩ hmem hs
  exact ⟨hi.step hs, ha.step (fun i ipc q hq => hl i ipc q (hq ▸ hmem)) hs⟩

end

end AlgaeBp.Ipc
