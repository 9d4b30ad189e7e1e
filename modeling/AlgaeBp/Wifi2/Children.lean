import AlgaeBp.Wifi2.Daemons
/-!
# Every child is known

`Kids`: the children that were not waited for are those the pids of the record
name, each with its own program. `Conn`: the connections that are open are
those of the record, and what is in the event loop is one of them.
-/
open Hosts Ledgers Runs StateWp

namespace AlgaeBp.Wifi2.Daemons

variable {s t u : St} {p q : Prog} {pid : Int} {l : List Int} {α : Type}

/-! ## Pids -/

def own (pid : Prog → Int) (p : Prog) : List Int := if 0 < pid p then [pid p] else []

def owned (pid : Prog → Int) : List Int := own pid .udhcpc ++ (own pid .zcip ++ own pid .wpaSupplicant)

/-- Those of the other programs. -/
def rest (pid : Prog → Int) : Prog → List Int
  | .udhcpc => own pid .zcip ++ own pid .wpaSupplicant
  | .zcip => own pid .udhcpc ++ own pid .wpaSupplicant
  | .wpaSupplicant => own pid .udhcpc ++ own pid .zcip

theorem owned_perm (pid : Prog → Int) (p : Prog) : (owned pid).Perm (own pid p ++ rest pid p) := by
  cases p with
  | udhcpc => exact .refl _
  | zcip => exact List.perm_append_comm_assoc ..
  | wpaSupplicant =>
    rw [owned, ← List.append_assoc]
    exact List.perm_append_comm

theorem own_pos {pid : Prog → Int} (h : 0 < pid p) : own pid p = [pid p] := if_pos h

theorem own_update_of_ne {v : Int} (h : q ≠ p) (pid : Prog → Int) : own (Function.update pid p v) q = own pid q := by
  rw [own, own, Function.update_of_ne h]

theorem rest_update {v : Int} (pid : Prog → Int) (p : Prog) : rest (Function.update pid p v) p = rest pid p := by
  cases p <;> simp [rest, own_update_of_ne]

theorem mem_rest {pid : Prog → Int} (hq : q ≠ p) (hpos : 0 < pid q) : pid q ∈ rest pid p := by
  have hown : own pid q = [pid q] := if_pos hpos
  cases p <;> cases q <;> simp_all [rest]

structure Kids (s : St) : Prop where
  children : Holds s.children (owned s.pid)
  prog : ∀ p, 0 < s.pid p → s.prog (s.pid p) = p

theorem Kids.holds (h : Kids s) (p : Prog) : Holds s.children (own s.pid p ++ rest s.pid p) :=
  h.children.perm (owned_perm s.pid p)

/-- The pid of one program changes with its child. -/
theorem Holds.owned {pid : Prog → Int} {v : Int} {children : Ledger Int}
    (h : Holds children (own (Function.update pid p v) p ++ rest pid p)) :
    Holds children (owned (Function.update pid p v)) := by
  rw [← rest_update pid p] at h
  exact h.perm (owned_perm _ p).symm

/-! ## Processes -/

/-- The connections are left alone. -/
structure Procs (s t : St) : Prop where
  cln : t.wpasupCln = s.wpasupCln
  mon : t.wpasupMon = s.wpasupMon
  ev : t.ev = s.ev
  crashed : t.crashed = s.crashed
  owns : ∀ {fds regs}, Owns s.host fds regs → Owns t.host fds regs

theorem Procs.refl (s : St) : Procs s s := ⟨rfl, rfl, rfl, rfl, fun h => h⟩

theorem Procs.trans (h : Procs s t) (h' : Procs t u) : Procs s u :=
  ⟨h'.cln.trans h.cln, h'.mon.trans h.mon, h'.ev.trans h.ev, h'.crashed.trans h.crashed, fun ho => h'.owns (h.owns ho)⟩

/-- So are the pids. -/
structure Kept (s t : St) : Prop where
  procs : Procs s t
  pid : t.pid = s.pid
  prog : t.prog = s.prog

theorem Kept.refl (s : St) : Kept s s := ⟨Procs.refl s, rfl, rfl⟩

theorem Kept.trans (h : Kept s t) (h' : Kept t u) : Kept s u :=
  ⟨h.procs.trans h'.procs, h'.pid.trans h.pid, h'.prog.trans h.prog⟩

theorem ask_wp (s : St) : wp ask (fun r t => Kept s t ∧ t.children = s.children ∧
    t.host.answers = s.host.answers.tail ∧ (s.host.answers = [] → r = -1)) s :=
  ⟨⟨⟨rfl, rfl, rfl, rfl, fun ho => ho.ask⟩, rfl, rfl⟩, rfl, ask_spends s.host⟩

theorem reap_wp (hk : Holds s.children (pid :: l)) : wp (reap pid) (fun _ t => Holds t.children l ∧ Kept s t) s :=
  ⟨hk.give, ⟨⟨rfl, rfl, rfl, rfl, fun h => h⟩, rfl, rfl⟩⟩

/-- The loop ends: an interruption is an answer, and there are only so many. -/
theorem waitLoop_wp (fuel : Nat) (hk : Holds s.children (pid :: l)) (hf : s.host.answers.length < fuel) :
    wp (waitLoop pid fuel) (fun _ t => Holds t.children l ∧ Kept s t) s := by
  induction fuel generalizing s with
  | zero => exact absurd hf (Nat.not_lt_zero _)
  | succ fuel ih =>
    refine (ask_wp s).bind fun r t ht => ?_
    obtain ⟨hkept, hchildren, hanswers, hend⟩ := ht
    have hkt : Holds t.children (pid :: l) := hchildren ▸ hk
    split
    · next hintr =>
      have hne : s.host.answers ≠ [] := by
        intro hnil
        rw [hend hnil] at hintr
        exact absurd hintr (by decide)
      have hlen := List.length_pos_iff.2 hne
      have hfuel : t.host.answers.length < fuel := by
        rw [hanswers, List.length_tail]
        omega
      exact (ih hkt hfuel).mono fun _ u hu => ⟨hu.1, hkept.trans hu.2⟩
    · exact (reap_wp hkt).mono fun _ u hu => ⟨hu.1, hkept.trans hu.2⟩

theorem kill_wp (hk : Holds s.children (pid :: l)) :
    wp (kill pid) (fun ok t => ok = true ∧ Holds t.children (pid :: l) ∧ Kept s t) s := by
  have hmem : pid ∈ s.children.held := hk.mem_iff.2 List.mem_cons_self
  exact ⟨decide_eq_true hmem, hk.use List.mem_cons_self, ⟨⟨rfl, rfl, rfl, rfl, fun h => h⟩, rfl, rfl⟩⟩

theorem pidKill_wp (hk : Holds s.children (pid :: l)) (hpos : 0 < pid) :
    wp (pidKill pid) (fun _ t => Holds t.children l ∧ Kept s t) s := by
  unfold pidKill
  split
  · next hneg => omega
  · refine (kill_wp hk).bind fun ok t ht => ?_
    obtain ⟨rfl, ht, hkept⟩ := ht
    exact wp_read.2 ((waitLoop_wp _ ht (Nat.lt_succ_self _)).mono fun _ u hu => ⟨hu.1, hkept.trans hu.2⟩)

/-- Whatever becomes of the child of `p`, the other programs are as before. -/
structure Others (s t : St) (p : Prog) : Prop where
  procs : Procs s t
  pid : ∀ q, q ≠ p → t.pid q = s.pid q

theorem Others.trans (h : Others s t p) (h' : Others t u p) : Others s u p :=
  ⟨h.procs.trans h'.procs, fun q hq => (h'.pid q hq).trans (h.pid q hq)⟩

/-- The child of `p` has gone. -/
theorem setPid_wp (hk : Holds s.children (rest s.pid p)) (hprog : ∀ q, q ≠ p → 0 < s.pid q → s.prog (s.pid q) = q) :
    wp (setPid p (-1)) (fun _ t => Kids t ∧ Others s t p ∧ t.pid p = -1) s := by
  have hown : own (Function.update s.pid p (-1)) p = [] := by
    rw [own, Function.update_self]
    exact if_neg (by decide)
  refine ⟨⟨Holds.owned (by rw [hown]; exact hk), fun q hq => ?_⟩,
    ⟨⟨rfl, rfl, rfl, rfl, fun h => h⟩, fun q hq => Function.update_of_ne hq ..⟩, Function.update_self ..⟩
  change 0 < Function.update s.pid p (-1) q at hq
  by_cases hqp : q = p
  · rw [hqp, Function.update_self] at hq
    exact absurd hq (by decide)
  · rw [Function.update_of_ne hqp] at hq
    change s.prog (Function.update s.pid p (-1) q) = q
    rw [Function.update_of_ne hqp]
    exact hprog q hqp hq

theorem Kids.rest (h : Kids s) (hno : ¬0 < s.pid p) : Holds s.children (rest s.pid p) := by
  have hk := h.holds p
  rwa [own, if_neg hno] at hk

theorem Kids.child (h : Kids s) (hpos : 0 < s.pid p) : Holds s.children (s.pid p :: Daemons.rest s.pid p) := by
  have hk := h.holds p
  rwa [own, if_pos hpos] at hk

theorem stop_wp (h : Kids s) (p : Prog) : wp (stop p) (fun _ t => Kids t ∧ Others s t p ∧ ¬0 < t.pid p) s := by
  refine wp_read.2 ?_
  split
  · next hpos =>
    refine (pidKill_wp (h.child hpos) hpos).bind fun _ t ht => ?_
    obtain ⟨hk, hkept⟩ := ht
    rw [← hkept.pid] at hk
    refine (setPid_wp hk ?_).mono fun _ u hu => ⟨hu.1, ⟨hkept.procs.trans hu.2.1.procs, fun q hq => ?_⟩, ?_⟩
    · intro q _ hq
      rw [hkept.pid] at hq ⊢
      rw [hkept.prog]
      exact h.prog q hq
    · rw [hu.2.1.pid q hq, hkept.pid]
    · rw [hu.2.2]
      decide
  · next hno => exact ⟨h, ⟨Procs.refl s, fun _ _ => rfl⟩, hno⟩

theorem spawn_wp (h : Kids s) (hno : ¬0 < s.pid p) :
    wp (spawn p) (fun r t => Kids t ∧ Others s t p ∧ (r = 0 ∧ 0 < t.pid p ∨ r = -1 ∧ ¬0 < t.pid p)) s := by
  have hfork : wp (fork p) (fun r t => (r = -1 ∧ t.children = s.children ∧ Kept s t) ∨
      (0 < r ∧ r ∉ s.children.held ∧ t.children = s.children.take r ∧ Procs s t ∧ t.pid = s.pid ∧
          t.prog = Function.update s.prog r p)) s := by
    refine (ask_wp s).bind fun r t ht => wp_read.2 ?_
    obtain ⟨hkept, hchildren, -, -⟩ := ht
    split
    · exact .inl ⟨rfl, hchildren, hkept⟩
    · next hnew =>
      obtain ⟨hr, hfresh⟩ := not_or.1 hnew
      rw [hchildren] at hfresh
      exact .inr ⟨Int.not_le.1 hr, hfresh, congrArg (·.take r) hchildren,
        ⟨hkept.procs.cln, hkept.procs.mon, hkept.procs.ev, hkept.procs.crashed, hkept.procs.owns⟩, hkept.pid,
          congrArg (fun prog : Int → Prog => Function.update prog r p) hkept.prog⟩
  refine hfork.bind fun r t ht => ?_
  rcases ht with ⟨rfl, hchildren, hkept⟩ | ⟨hr, hfresh, hchildren, hprocs, hpid, hprog⟩
  · refine ⟨⟨?_, ?_⟩, ⟨hkept.procs, fun q _ => by rw [← hkept.pid]; rfl⟩, .inr ⟨rfl, ?_⟩⟩
    · change Holds t.children (Daemons.owned t.pid)
      rw [hchildren, hkept.pid]
      exact h.children
    · change ∀ q, 0 < t.pid q → t.prog (t.pid q) = q
      rw [hkept.pid, hkept.prog]
      exact h.prog
    · change ¬0 < t.pid p
      rw [hkept.pid]
      exact hno
  · rw [if_neg (by omega)]
    have hown : own (Function.update s.pid p r) p = [r] := by
      rw [own, Function.update_self]
      exact if_pos hr
    have hpid' : Function.update t.pid p r = Function.update s.pid p r := by rw [hpid]
    refine ⟨⟨?_, fun q hq => ?_⟩, ⟨⟨hprocs.cln, hprocs.mon, hprocs.ev, hprocs.crashed, hprocs.owns⟩,
      fun q hq => ?_⟩, .inl ⟨rfl, ?_⟩⟩
    · change Holds t.children (Daemons.owned (Function.update t.pid p r))
      rw [hpid', hchildren]
      refine Holds.owned ?_
      rw [hown]
      exact (h.rest hno).take hfresh
    · change 0 < Function.update t.pid p r q at hq
      change t.prog (Function.update t.pid p r q) = q
      rw [hpid'] at hq ⊢
      rw [hprog]
      by_cases hqp : q = p
      · rw [hqp, Function.update_self, Function.update_self]
      · rw [Function.update_of_ne hqp] at hq ⊢
        -- the number of the new child is not that of another
        have hne : s.pid q ≠ r := fun heq => hfresh ((h.rest hno).mem_iff.2 (heq ▸ mem_rest hqp hq))
        rw [Function.update_of_ne hne]
        exact h.prog q hq
    · change Function.update t.pid p r q = _
      rw [hpid', Function.update_of_ne hq]
    · change 0 < Function.update t.pid p r p
      rw [Function.update_self]
      exact hr

/-- **A program is started, or stopped.** -/
theorem start_wp (h : Kids s) (p : Prog) (en : Int) :
    wp (start p en) (fun r t => Kids t ∧ Others s t p ∧ (0 < t.pid p ↔ 0 < en ∧ r = 0)) s := by
  refine (stop_wp h p).bind fun _ t ht => ?_
  obtain ⟨hkids, hothers, hno⟩ := ht
  split
  · next hen => exact ⟨hkids, hothers, iff_of_false hno fun hpos => absurd hpos.1 (Int.not_lt.2 hen)⟩
  · next hen =>
    refine (spawn_wp hkids hno).mono fun r u hu => ⟨hu.1, hothers.trans hu.2.1, ?_⟩
    rcases hu.2.2 with ⟨hr, hpos⟩ | ⟨hr, hno⟩
    · exact iff_of_true hpos ⟨Int.not_le.1 hen, hr⟩
    · refine iff_of_false hno fun hpos => ?_
      rw [hr] at hpos
      exact absurd hpos.2 (by decide)

/-! ## Connections -/

structure Conn (s : St) : Prop where
  owns : Owns s.host (s.wpasupCln.toList ++ s.wpasupMon.toList) s.ev.toList
  ev : ∀ reg ∈ s.ev, s.wpasupMon = some reg.fd
  crashed : s.crashed = false

theorem Conn.procs (h : Conn s) (hp : Procs s t) : Conn t where
  owns := by
    rw [hp.cln, hp.mon, hp.ev]
    exact hp.owns h.owns
  ev := by
    rw [hp.ev, hp.mon]
    exact h.ev
  crashed := hp.crashed.trans h.crashed

/-- The programs are left alone. -/
structure Still (s t : St) : Prop where
  children : t.children = s.children
  pid : t.pid = s.pid
  prog : t.prog = s.prog

theorem Still.refl (s : St) : Still s s := ⟨rfl, rfl, rfl⟩

theorem Still.trans (h : Still s t) (h' : Still t u) : Still s u :=
  ⟨h'.children.trans h.children, h'.pid.trans h.pid, h'.prog.trans h.prog⟩

theorem Kids.still (h : Kids s) (hs : Still s t) : Kids t where
  children := by
    rw [hs.children, hs.pid]
    exact h.children
  prog := by
    rw [hs.pid, hs.prog]
    exact h.prog

theorem closeCln_wp (h : Conn s) : wp closeCln (fun _ t => Conn t ∧ Still s t ∧ t.wpasupCln = none) s := by
  refine wp_read.2 ?_
  cases hcln : s.wpasupCln with
  | none => exact ⟨h, Still.refl s, hcln⟩
  | some fd =>
    have ho := h.owns
    rw [hcln] at ho
    have hw : ∀ reg ∈ s.ev.toList, reg.fd ∈ s.wpasupMon.toList := by
      intro reg hreg
      rw [h.ev reg (Option.mem_toList.1 hreg)]
      exact List.mem_cons_self
    exact ⟨⟨ho.close (ho.unwatched hw), h.ev, h.crashed⟩, ⟨rfl, rfl, rfl⟩, rfl⟩

theorem cancelMon_wp (h : Conn s) : wp cancelMon
    (fun _ t => Conn t ∧ Still s t ∧ t.wpasupCln = s.wpasupCln ∧ t.ev = none) s := by
  refine wp_read.2 ?_
  cases hev : s.ev with
  | none => exact ⟨h, Still.refl s, rfl, hev⟩
  | some reg =>
    have ho := h.owns
    rw [hev] at ho
    exact ⟨⟨ho.unwatch, fun _ hreg => (Option.not_mem_none _ hreg).elim, h.crashed⟩, ⟨rfl, rfl, rfl⟩, rfl, rfl⟩

theorem closeMon_wp (h : Conn s) (hev : s.ev = none) :
    wp closeMon (fun _ t => Conn t ∧ Still s t ∧ t.wpasupCln = s.wpasupCln ∧ t.ev = none ∧ t.wpasupMon = none) s := by
  refine wp_read.2 ?_
  cases hmon : s.wpasupMon with
  | none => exact ⟨h, Still.refl s, rfl, hev, hmon⟩
  | some fd =>
    have ho := h.owns
    rw [hmon, hev] at ho
    have ho' : Owns s.host (fd :: s.wpasupCln.toList) [] := ho.perm List.perm_append_comm (.refl _)
    have hclosed := ho'.close fun _ hreg => absurd hreg List.not_mem_nil
    refine ⟨⟨?_, ?_, h.crashed⟩, ⟨rfl, rfl, rfl⟩, rfl, hev, rfl⟩
    · change Owns (close fd s.host).2 (s.wpasupCln.toList ++ []) s.ev.toList
      rw [List.append_nil, hev]
      exact hclosed
    · intro reg hreg
      change reg ∈ s.ev at hreg
      rw [hev] at hreg
      exact (Option.not_mem_none _ hreg).elim

theorem wpasupCtrlOpen_wp {fds : List Int} {regs : List (Reg Unit)} (ho : Owns s.host fds regs) (attach : Bool) :
    wp (wpasupCtrlOpen attach) (fun fd t => Owns t.host (fd.toList ++ fds) regs ∧
      ∃ host, t = { s with host := host }) s := by
  have hnew : wp (onHost newFd) (fun r t =>
      ((r < 0 → Owns t.host fds regs) ∧ (¬r < 0 → Owns t.host (r :: fds) regs)) ∧ ∃ host, t = { s with host := host }) s :=
    ⟨ho.newFd, _, rfl⟩
  refine hnew.bind fun fd t ht => ?_
  obtain ⟨⟨hneg, hpos⟩, host, rfl⟩ := ht
  split
  · next hfd => exact ⟨hneg hfd, host, rfl⟩
  · next hfd =>
    have hpos := hpos hfd
    split
    · have hask : wp ask (fun _ u => Owns u.host (fd :: fds) regs ∧
        ∃ host, u = { s with host := host }) { s with host := host } := ⟨hpos.ask, _, rfl⟩
      refine hask.bind fun r u hu => ?_
      obtain ⟨hu, host', rfl⟩ := hu
      split
      · exact ⟨hu.close (hu.unwatched ho.watched), _, rfl⟩
      · exact ⟨hu, _, rfl⟩
    · exact ⟨hpos, host, rfl⟩

theorem openCln_wp (h : Conn s) : wp openCln (fun _ t => Conn t ∧ Still s t) s := by
  refine wp_read.2 ?_
  cases hcln : s.wpasupCln with
  | some fd => exact ⟨h, Still.refl s⟩
  | none =>
    have ho := h.owns
    rw [hcln] at ho
    refine (wpasupCtrlOpen_wp ho false).bind fun cln t ht => ?_
    obtain ⟨ht, host, rfl⟩ := ht
    exact ⟨⟨ht, h.ev, h.crashed⟩, ⟨rfl, rfl, rfl⟩⟩

theorem armMon_wp (h : Conn s) (hmon : s.wpasupMon ≠ none) : wp armMon (fun _ t => Conn t ∧ Still s t) s := by
  refine wp_read.2 ?_
  cases hev : s.ev with
  | some reg => exact ⟨h, Still.refl s⟩
  | none =>
    obtain ⟨fd, hfd⟩ := Option.ne_none_iff_exists'.1 hmon
    have ho := h.owns
    rw [hev] at ho
    have hmem : fd ∈ s.wpasupCln.toList ++ s.wpasupMon.toList := by
      rw [hfd]
      exact List.mem_append_right _ List.mem_cons_self
    rw [hfd]
    have hwatch : wp (onHost (watch fd ())) (fun ev t => (∃ host, t = { s with host := host }) ∧
        Owns t.host (s.wpasupCln.toList ++ s.wpasupMon.toList) ev.toList ∧ ∀ reg ∈ ev, reg.fd = fd) s := by
      change (∃ host, { s with host := (watch fd () s.host).2 } = { s with host := host }) ∧
        Owns (watch fd () s.host).2 (s.wpasupCln.toList ++ s.wpasupMon.toList) (watch fd () s.host).1.toList ∧
        ∀ reg ∈ (watch fd () s.host).1, reg.fd = fd
      refine ⟨⟨_, rfl⟩, ?_⟩
      rcases ho.watch hmem () with ⟨hreg, hg⟩ | ⟨n, hreg, hg⟩
      · rw [hreg]
        exact ⟨hg, fun _ hr => (Option.not_mem_none _ hr).elim⟩
      · rw [hreg]
        refine ⟨hg, fun reg hr => ?_⟩
        obtain rfl := Option.some.inj hr
        rfl
    refine hwatch.bind fun ev t ht => ?_
    obtain ⟨⟨host, rfl⟩, hg, hreg⟩ := ht
    exact ⟨⟨hg, fun reg hr => hfd.trans (congrArg some (hreg reg hr).symm), h.crashed⟩, ⟨rfl, rfl, rfl⟩⟩

theorem openMon_wp (h : Conn s) : wp openMon (fun _ t => Conn t ∧ Still s t) s := by
  refine wp_read.2 ?_
  cases hmon : s.wpasupMon with
  | some fd =>
    refine armMon_wp h ?_
    rw [hmon]
    exact Option.some_ne_none fd
  | none =>
    have ho := h.owns
    rw [hmon, Option.toList_none, List.append_nil] at ho
    refine (wpasupCtrlOpen_wp ho true).bind fun mon t ht => ?_
    obtain ⟨ht, host, rfl⟩ := ht
    have hev : s.ev = none := by
      cases hev : s.ev with
      | none => rfl
      | some reg =>
        have hreg := h.ev reg hev
        rw [hmon] at hreg
        cases hreg
    refine wp.update ?_
    have hconn : Conn { s with host := host, wpasupMon := mon } := by
      refine ⟨ht.perm List.perm_append_comm (.refl _), fun reg hreg => ?_, h.crashed⟩
      change reg ∈ s.ev at hreg
      rw [hev] at hreg
      exact (Option.not_mem_none _ hreg).elim
    split
    · exact ⟨hconn, ⟨rfl, rfl, rfl⟩⟩
    · next hsome => exact (armMon_wp hconn hsome).mono fun _ u hu => ⟨hu.1, hu.2.children, hu.2.pid, hu.2.prog⟩

theorem wpasupCmd_wp (h : Conn s) : wp wpasupCmd (fun _ t => Conn t ∧ Still s t) s := by
  refine (openCln_wp h).bind fun ok t ht => ?_
  split
  · refine (openMon_wp ht.1).bind fun _ u hu => (ask_wp u).bind fun r v hv => ?_
    have hend : Conn v ∧ Still s v := by
      have hstill : Still u v := ⟨hv.2.1, hv.1.pid, hv.1.prog⟩
      exact ⟨hu.1.procs hv.1.procs, ht.2.trans (hu.2.trans hstill)⟩
    split
    · exact hend
    · exact hend
  · exact ht

/-! ## `wpa_supplicant` -/

/-- A child that may have ended by now. -/
theorem waitNohang_wp (hk : Holds s.children (pid :: l)) :
    wp (waitNohang pid) (fun r t => (r = pid ∧ Holds t.children l ∧ Kept s t) ∨
      ((r = 0 ∨ r = -eintr) ∧ Holds t.children (pid :: l) ∧ Kept s t)) s := by
  have hmem : pid ∈ s.children.held := hk.mem_iff.2 List.mem_cons_self
  refine wp_read.2 (wp.update ?_)
  have huse : Holds (s.children.use pid) (pid :: l) := hk.use List.mem_cons_self
  have hused : Kept s { s with children := s.children.use pid } := ⟨⟨rfl, rfl, rfl, rfl, fun h => h⟩, rfl, rfl⟩
  rw [if_pos hmem]
  refine (ask_wp _).bind fun r t ht => ?_
  obtain ⟨hasked, hchildren, -, -⟩ := ht
  have hkept : Kept s t := hused.trans hasked
  have hkt : Holds t.children (pid :: l) := hchildren ▸ huse
  split
  · exact (reap_wp hkt).bind fun _ u hu => .inl ⟨rfl, hu.1, hkept.trans hu.2⟩
  · split
    · next hintr => exact .inr ⟨.inr hintr, hkt, hkept⟩
    · exact .inr ⟨.inl rfl, hkt, hkept⟩

/-- The loop leaves the child to be killed, or it has ended and is known to. -/
theorem exitLoop_wp (n : Nat) (h : Kids s) (hpos : 0 < s.pid .wpaSupplicant) :
    wp (exitLoop n) (fun _ t => Kids t ∧ Others s t .wpaSupplicant ∧
      (0 < t.pid .wpaSupplicant ∨ t.pid .wpaSupplicant = -1)) s := by
  induction n generalizing s with
  | zero => exact ⟨h, ⟨Procs.refl s, fun _ _ => rfl⟩, .inl hpos⟩
  | succ n ih =>
    refine wp_read.2 ((waitNohang_wp (h.child hpos)).bind fun r t ht => ?_)
    rcases ht with ⟨rfl, hk, hkept⟩ | ⟨hr, hk, hkept⟩
    · rw [if_pos rfl]
      rw [← hkept.pid] at hk
      have hprog : ∀ q, q ≠ Prog.wpaSupplicant → 0 < t.pid q → t.prog (t.pid q) = q := by
        intro q _ hq
        rw [hkept.pid] at hq ⊢
        rw [hkept.prog]
        exact h.prog q hq
      refine (setPid_wp hk hprog).mono fun _ u hu => ⟨hu.1, ⟨hkept.procs.trans hu.2.1.procs, fun q hq => ?_⟩, .inr hu.2.2⟩
      rw [hu.2.1.pid q hq, hkept.pid]
    · have hne : r ≠ s.pid .wpaSupplicant := by
        rcases hr with rfl | rfl
        · exact Int.ne_of_lt hpos
        · have hneg : (-eintr : Int) < 0 := by decide
          omega
      have hkids : Kids t := by
        refine ⟨?_, fun q hq => ?_⟩
        · rw [hkept.pid]
          have hperm := (owned_perm s.pid .wpaSupplicant).symm
          rw [own_pos hpos] at hperm
          exact hk.perm hperm
        · rw [hkept.pid] at hq ⊢
          rw [hkept.prog]
          exact h.prog q hq
      have hpos' : 0 < t.pid .wpaSupplicant := by rwa [hkept.pid]
      have hnext := (ih hkids hpos').mono fun _ u hu =>
        And.intro hu.1 (And.intro (Others.trans ⟨hkept.procs, fun q _ => by rw [hkept.pid]⟩ hu.2.1) hu.2.2)
      rw [if_neg hne]
      rcases hr with rfl | rfl
      · exact hnext
      · exact hnext

theorem wpasupStop_wp (hk : Kids s) (hc : Conn s) :
    wp wpasupStop (fun _ t => Kids t ∧ Conn t ∧ (∀ q, q ≠ .wpaSupplicant → t.pid q = s.pid q) ∧ ¬0 < t.pid .wpaSupplicant ∧
      (0 < s.pid .wpaSupplicant → t.wpasupCln = none ∧ t.wpasupMon = none ∧ t.ev = none)) s := by
  refine wp_read.2 ?_
  split
  · next hpos =>
    refine (closeCln_wp hc).bind fun _ t ht => (cancelMon_wp ht.1).bind fun _ u hu =>
      (closeMon_wp hu.1 hu.2.2.2).bind fun _ v hv => wp_read.2 ?_
    obtain ⟨hcv, hsv, hcln, hev, hmon⟩ := hv
    have hstill := ht.2.1.trans (hu.2.1.trans hsv)
    have hkv := hk.still hstill
    have hclosed : v.wpasupCln = none := hcln.trans (hu.2.2.1.trans ht.2.2)
    have hposv : 0 < v.pid .wpaSupplicant := by rwa [hstill.pid]
    refine (kill_wp (hkv.child hposv)).bind fun ok w hw => ?_
    obtain ⟨-, hchild, hkept⟩ := hw
    have hkw : Kids w := by
      refine ⟨?_, fun q hq => ?_⟩
      · have hperm := (owned_perm v.pid .wpaSupplicant).symm
        rw [own_pos hposv] at hperm
        rw [hkept.pid]
        exact hchild.perm hperm
      · rw [hkept.pid] at hq ⊢
        rw [hkept.prog]
        exact hkv.prog q hq
    have hposw : 0 < w.pid .wpaSupplicant := by rwa [hkept.pid]
    refine (exitLoop_wp 10 hkw hposw).bind fun _ x hx => wp_read.2 ?_
    obtain ⟨hkx, hox, hend⟩ := hx
    -- what is left of the child, if anything is
    have hlast : wp (pidKill (x.pid .wpaSupplicant))
        (fun _ y => Holds y.children (rest x.pid .wpaSupplicant) ∧ Kept x y) x := by
      rcases hend with hpos | hneg
      · exact pidKill_wp (hkx.child hpos) hpos
      · have hno : ¬0 < x.pid .wpaSupplicant := by
          rw [hneg]
          decide
        rw [hneg]
        exact ⟨hkx.rest hno, Kept.refl x⟩
    refine hlast.bind fun _ y hy => ?_
    obtain ⟨hrest, hky⟩ := hy
    rw [← hky.pid] at hrest
    have hprog : ∀ q, q ≠ Prog.wpaSupplicant → 0 < y.pid q → y.prog (y.pid q) = q := by
      intro q _ hq
      rw [hky.pid] at hq ⊢
      rw [hky.prog]
      exact hkx.prog q hq
    refine (setPid_wp hrest hprog).mono fun _ z hz => ?_
    have hprocs := hkept.procs.trans (hox.procs.trans (hky.procs.trans hz.2.1.procs))
    refine ⟨hz.1, hcv.procs hprocs, fun q hq => ?_, ?_, fun _ => ?_⟩
    · rw [hz.2.1.pid q hq, hky.pid, hox.pid q hq, hkept.pid, hstill.pid]
    · rw [hz.2.2]
      decide
    · exact ⟨hprocs.cln.trans hclosed, hprocs.mon.trans hmon, hprocs.ev.trans hev⟩
  · next hno => exact ⟨hk, hc, fun _ _ => rfl, hno, fun hpos => absurd hpos hno⟩

theorem wpasupStart_wp (hk : Kids s) (hc : Conn s) (en : Int) :
    wp (wpasupStart en) (fun r t => Kids t ∧ Conn t ∧ (∀ q, q ≠ .wpaSupplicant → t.pid q = s.pid q) ∧
      (0 < t.pid .wpaSupplicant ↔ 0 < en ∧ r = 0)) s := by
  refine (wpasupStop_wp hk hc).bind fun _ t ht => ?_
  obtain ⟨hkt, hct, hothers, hno, -⟩ := ht
  split
  · next hen => exact ⟨hkt, hct, hothers, iff_of_false hno fun hpos => absurd hpos.1 (Int.not_lt.2 hen)⟩
  · next hen =>
    refine (ask_wp t).bind fun r u hu => ?_
    obtain ⟨hkept, hchildren, -, -⟩ := hu
    have hku := hkt.still ⟨hchildren, hkept.pid, hkept.prog⟩
    have hcu := hct.procs hkept.procs
    have hno' : ¬0 < u.pid .wpaSupplicant := by rwa [hkept.pid]
    have hothers' : ∀ q, q ≠ .wpaSupplicant → u.pid q = s.pid q := fun q hq => by rw [hkept.pid, hothers q hq]
    have hfail : ∀ r : Int, r = -1 → ¬(0 < en ∧ r = 0) := by
      rintro r rfl hboth
      exact absurd hboth.2 (by decide)
    split
    · exact ⟨hku, hcu, hothers', iff_of_false hno' (hfail _ rfl)⟩
    · refine (spawn_wp hku hno').mono fun r v hv => ⟨hv.1, hcu.procs hv.2.1.procs, fun q hq =>
        (hv.2.1.pid q hq).trans (hothers' q hq), ?_⟩
      rcases hv.2.2 with ⟨hr, hpos⟩ | ⟨hr, hno''⟩
      · exact iff_of_true hpos ⟨Int.not_le.1 hen, hr⟩
      · exact iff_of_false hno'' (hfail r hr)

/-! ## Runs -/

structure Inv (s : St) : Prop where
  kids : Kids s
  conn : Conn s

theorem Inv.answer (h : Inv s) (answers : List Int) : Inv { s with host := { s.host with answers := answers } } :=
  ⟨⟨h.kids.children, h.kids.prog⟩, ⟨h.conn.owns.answer answers, h.conn.ev, h.conn.crashed⟩⟩

theorem wifi2WpasupMonCb_wp {reg : Reg Unit} (h : Inv s) (hreg : reg ∈ s.host.regs.held) :
    wp wifi2WpasupMonCb (fun _ t => Inv t) s := by
  have hev : reg ∈ s.ev := Option.mem_toList.1 (h.conn.owns.standing.mem_iff.1 hreg)
  refine wp_read.2 ?_
  rw [h.conn.ev reg hev]
  refine (ask_wp s).bind fun r t ht => ?_
  have hstill : Still s t := ⟨ht.2.1, ht.1.pid, ht.1.prog⟩
  exact ⟨h.kids.still hstill, h.conn.procs ht.1.procs⟩

theorem step_inv {e : Op × List Int} (h : Inv s) (hs : step s e = some t) : Inv t := by
  obtain ⟨op, answers⟩ := e
  have h' := h.answer answers
  cases op with
  | dhcpc en =>
    obtain rfl := Option.some.inj hs
    obtain ⟨hkids, hothers, -⟩ := start_wp h'.kids .udhcpc en
    exact ⟨hkids, h'.conn.procs hothers.procs⟩
  | zcip en =>
    obtain rfl := Option.some.inj hs
    obtain ⟨hkids, hothers, -⟩ := start_wp h'.kids .zcip en
    exact ⟨hkids, h'.conn.procs hothers.procs⟩
  | wpasup en =>
    obtain rfl := Option.some.inj hs
    obtain ⟨hkids, hconn, -⟩ := wpasupStart_wp h'.kids h'.conn en
    exact ⟨hkids, hconn⟩
  | cmd =>
    obtain rfl := Option.some.inj hs
    obtain ⟨hconn, hstill⟩ := wpasupCmd_wp h'.conn
    exact ⟨h'.kids.still hstill, hconn⟩
  | mon reg =>
    by_cases hreg : reg ∈ s.host.regs.held
    · obtain rfl := Option.some.inj ((if_pos hreg).symm.trans hs)
      exact wifi2WpasupMonCb_wp h' hreg
    · cases (if_neg hreg).symm.trans hs

theorem boot_inv (prog : Int → Prog) : Inv (boot prog) where
  kids := ⟨holds_empty, fun _ h => absurd h (Int.lt_irrefl 0)⟩
  conn := ⟨owns_empty, fun _ h => (Option.not_mem_none _ h).elim, rfl⟩

theorem run_daemons_inv {prog : Int → Prog} {ops : List (Op × List Int)} (hr : run step ops (boot prog) = some s) : Inv s :=
  run_inv (I := Inv) (boot_inv prog) (fun _ _ _ h hs => step_inv h hs) hr

/-- **In every run the children that were not waited for are those the pids of
the record name, one of each program at most; nothing but such a child was ever
killed or waited for. The control connections that are open are those of the
record, none was closed twice or while it was registered, and the callback of
the monitor never runs without it.** -/
theorem run_daemons (prog : Int → Prog) (ops : List (Op × List Int)) (s : St) (hr : run step ops (boot prog) = some s) :
    Holds s.children (owned s.pid) ∧ (∀ p, 0 < s.pid p → s.prog (s.pid p) = p) ∧
      Owns s.host (s.wpasupCln.toList ++ s.wpasupMon.toList) s.ev.toList ∧
      (∀ reg ∈ s.ev, s.wpasupMon = some reg.fd) ∧ s.crashed = false := by
  have h := run_daemons_inv hr
  exact ⟨h.kids.children, h.kids.prog, h.conn.owns, h.conn.ev, h.conn.crashed⟩

/-- udhcpc, wpa_supplicant with its two connections, another udhcpc, and wpa_supplicant is stopped in time. -/
theorem run_daemons_some : ∃ s, run step [(.dhcpc 1, [50]), (.wpasup 1, [0, 51]),
    (.cmd, [7, 8, 0, 0, 0]), (.dhcpc 2, [-4, 0, 52]),
    (.wpasup 0, [0, -4, 1])] (boot fun _ => .zcip) = some s ∧ Holds s.children [52] ∧ Owns s.host [] [] := by
  have hend : (run step [(.dhcpc 1, [50]), (.wpasup 1, [0, 51]), (.cmd, [7, 8, 0, 0, 0]),
    (.dhcpc 2, [-4, 0, 52]), (.wpasup 0, [0, -4, 1])]
      (boot fun _ => .zcip)).map (fun s =>
          (owned s.pid, s.wpasupCln.toList ++ s.wpasupMon.toList, s.ev.toList)) = some ([52], [], []) := by
    decide +kernel
  obtain ⟨s, hr, hs⟩ := Option.map_eq_some_iff.1 hend
  obtain ⟨howned, hs⟩ := Prod.mk.inj hs
  obtain ⟨hconn, hev⟩ := Prod.mk.inj hs
  obtain ⟨hkids, -, howns, -⟩ := run_daemons _ _ s hr
  rw [howned] at hkids
  rw [hconn, hev] at howns
  exact ⟨s, hr, hkids, howns⟩

def startOf : Prog → Int → M Int
  | .udhcpc => dhcpcStart
  | .zcip => zcipStart
  | .wpaSupplicant => wpasupStart

/-- **Starting a program leaves one new child of it exactly if 0 is returned,
and none otherwise, also where one was running; stopping leaves none. The
children of the other programs stay.** -/
theorem run_start (prog : Int → Prog) (ops : List (Op × List Int)) (s : St)
    (hr : run step ops (boot prog) = some s) (p : Prog) (en : Int) (answers : List Int) :
    let out := startOf p en { s with host := { s.host with answers := answers } }
    Holds out.2.children (if 0 < en ∧ out.1 = 0 then out.2.pid p :: rest s.pid p else rest s.pid p) ∧
      (0 < en ∧ out.1 = 0 → out.2.prog (out.2.pid p) = p) := by
  intro out
  have h := (run_daemons_inv hr).answer answers
  have hout : Kids out.2 ∧ (∀ q, q ≠ p → out.2.pid q = s.pid q) ∧ (0 < out.2.pid p ↔ 0 < en ∧ out.1 = 0) := by
    cases p with
    | udhcpc =>
      obtain ⟨hkids, hothers, hiff⟩ := start_wp h.kids .udhcpc en
      exact ⟨hkids, hothers.pid, hiff⟩
    | zcip =>
      obtain ⟨hkids, hothers, hiff⟩ := start_wp h.kids .zcip en
      exact ⟨hkids, hothers.pid, hiff⟩
    | wpaSupplicant =>
      obtain ⟨hkids, -, hothers, hiff⟩ := wpasupStart_wp h.kids h.conn en
      exact ⟨hkids, hothers, hiff⟩
  obtain ⟨hkids, hothers, hiff⟩ := hout
  have hrest : rest out.2.pid p = rest s.pid p := by
    have hupd : out.2.pid = Function.update s.pid p (out.2.pid p) := by
      funext q
      by_cases hq : q = p
      · rw [hq, Function.update_self]
      · rw [Function.update_of_ne hq, hothers q hq]
    rw [hupd, rest_update]
  refine ⟨?_, fun hstarted => hkids.prog p (hiff.2 hstarted)⟩
  rw [← hrest]
  split
  · next hstarted => exact hkids.child (hiff.2 hstarted)
  · next hno => exact hkids.rest (mt hiff.1 hno)

theorem run_start_some : ∃ s l, run step [(.dhcpc 1, [50]), (.zcip 1, [53])] (boot fun _ => .zcip) = some s ∧
    Holds (startOf .udhcpc 1 { s with host := { s.host with answers := [0, 54] } }).2.children l ∧ l = [54, 53] := by
  have hend : ((run step [(.dhcpc 1, [50]), (.zcip 1, [53])] (boot fun _ => .zcip)).map fun s =>
      let out := startOf .udhcpc 1 { s with host := { s.host with answers := [0, 54] } }
      (if 0 < (1 : Int) ∧ out.1 = 0 then out.2.pid .udhcpc :: rest s.pid .udhcpc else rest s.pid .udhcpc)) =
        some [54, 53] := by decide +kernel
  obtain ⟨s, hr, hs⟩ := Option.map_eq_some_iff.1 hend
  exact ⟨s, _, hr, (run_start _ _ s hr .udhcpc 1 [0, 54]).1, hs⟩

/-- **When the machine enters `ST_RESET`, what it does there leaves no child but
one `wpa_supplicant`, whatever was running.** -/
theorem run_reset (prog : Int → Prog) (ops : List (Op × List Int)) (s : St)
    (hr : run step ops (boot prog) = some s) (m : Wifi2.St) (a b c : List Int) (t : St)
    (ht : run step ((((smReset .enter m).1.acts.drop m.acts.length).filterMap ofAct).zip [a, b, c]) s = some t) :
    Holds t.children [] ∨ ∃ pid, Holds t.children [pid] ∧ t.prog pid = .wpaSupplicant := by
  have hacts : ((smReset .enter m).1.acts.drop m.acts.length).filterMap ofAct = [.dhcpc 0, .zcip 0, .wpasup 1] := by
    have hdrop : (smReset .enter m).1.acts.drop m.acts.length =
        [.dhcpcStart 0, .zcipStart 0, .killall, .killall, .killall, .ifup false, .ipFlush, .ifup true, .wpasupStart 1] := by
      simp [smReset, Wifi2.St.act]
    rw [hdrop]
    rfl
  rw [hacts] at ht
  have h := (run_daemons_inv hr).answer a
  obtain ⟨hk₁, ho₁, hno₁⟩ := start_wp h.kids .udhcpc 0
  have hi₁ := (Inv.mk hk₁ (h.conn.procs ho₁.procs)).answer b
  obtain ⟨hk₂, ho₂, hno₂⟩ := start_wp hi₁.kids .zcip 0
  have hi₂ := (Inv.mk hk₂ (hi₁.conn.procs ho₂.procs)).answer c
  obtain ⟨hk₃, -, ho₃, -⟩ := wpasupStart_wp hi₂.kids hi₂.conn 1
  obtain rfl := Option.some.inj ht
  have hstopped : ∀ r : Int, ¬(0 < (0 : Int) ∧ r = 0) := fun _ hboth => absurd hboth.1 (Int.lt_irrefl 0)
  have hudhcpc := mt hno₁.1 (hstopped _)
  have hzcip := mt hno₂.1 (hstopped _)
  have hkids := hk₃.children
  rw [owned, own, own, ho₃ .udhcpc (by decide), ho₃ .zcip (by decide), if_neg hzcip,
    ho₂.pid .udhcpc (by decide), if_neg hudhcpc] at hkids
  change Holds _ (own _ .wpaSupplicant) at hkids
  rw [own] at hkids
  split at hkids
  · next hpos => exact .inr ⟨_, hkids, hk₃.prog .wpaSupplicant hpos⟩
  · exact .inl hkids

/-- Two programs run when `ST_RESET` comes, and `wpa_supplicant` cannot be started again. -/
theorem run_reset_two : ∃ s t, run step [(.dhcpc 1, [50]), (.wpasup 1, [0, 51])] (boot fun _ => .zcip) = some s ∧
    run step ((((smReset .enter (Wifi2.boot 0 3 fun _ => true)).1.acts.drop 0).filterMap ofAct).zip
      [[], [], [0, 0, 0]]) s = some t ∧
      (Holds t.children [] ∨ ∃ pid, Holds t.children [pid] ∧ t.prog pid = .wpaSupplicant) := by
  have hsome : ((run step [(.dhcpc 1, [50]), (.wpasup 1, [0, 51])] (boot fun _ => .zcip)).bind fun s =>
      (run step ((((smReset .enter (Wifi2.boot 0 3 fun _ => true)).1.acts.drop 0).filterMap ofAct).zip
        [[], [], [0, 0, 0]]) s).map fun t =>
        owned s.pid ++ owned t.pid) = some [50, 51] := by decide +kernel
  obtain ⟨s, hr, hs⟩ := Option.bind_eq_some_iff.1 hsome
  obtain ⟨t, ht, -⟩ := Option.map_eq_some_iff.1 hs
  exact ⟨s, t, hr, ht, run_reset _ _ s hr (Wifi2.boot 0 3 fun _ => true) [] [] [0, 0, 0] t ht⟩

end AlgaeBp.Wifi2.Daemons
