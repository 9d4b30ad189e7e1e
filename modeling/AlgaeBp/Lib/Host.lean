import AlgaeBp.Lib.Ledger
import AlgaeBp.Lib.StateWp
/-!
# A kernel and an event loop

What a program asks of the kernel is answered from a list: a number that is not
negative, or an error below zero. When the list is at its end everything fails.

A registration with the event loop is for an open descriptor, which is closed
when the registration has gone; otherwise it dangles. `Owns h fds regs`: these
descriptors are open and these registrations stand, and nothing was ever closed
twice, given up twice or left dangling.
-/
open Ledgers StateWp

namespace Hosts

/-- A registration of `fd`, with what is wanted of it. -/
structure Reg (K : Type) where
  handle : Nat
  fd : Int
  how : K
  deriving DecidableEq, Repr

structure Host (K : Type) where
  fds : Ledger Int
  regs : Ledger (Reg K)
  handles : Nat
  answers : List Int
  dangling : Bool

variable {K : Type} {h : Host K} {fds fds' : List Int} {regs regs' : List (Reg K)} {reg : Reg K} {fd : Int} {how : K}

def Host.empty : Host K := ⟨.empty, .empty, 0, [], false⟩

def ask : StateM (Host K) Int := fun h =>
  match h.answers with
  | [] => (-1, h)
  | r :: rest => (r, { h with answers := rest })

/-- A new descriptor, or an error. No kernel gives a descriptor that is open. -/
def newFd : StateM (Host K) Int := do
  let r ← ask
  let h ← get
  if r < 0 then return r
  else if r ∈ h.fds.held then return -1
  else do
    modify fun h => { h with fds := h.fds.take r }
    return r

def close (fd : Int) : StateM (Host K) Unit :=
  modify fun h => { h with fds := h.fds.give fd, dangling := h.dangling || h.regs.held.any (·.fd = fd) }

section
variable [DecidableEq K]

def watch (fd : Int) (how : K) : StateM (Host K) (Option (Reg K)) := do
  let r ← ask
  let h ← get
  if r < 0 then return none
  else do
    let reg : Reg K := ⟨h.handles, fd, how⟩
    modify fun h =>
      { h with regs := h.regs.take reg, handles := h.handles + 1, dangling := h.dangling || !decide (fd ∈ h.fds.held) }
    return some reg

def unwatch (reg : Reg K) : StateM (Host K) Unit := modify fun h => { h with regs := h.regs.give reg }

end

/-! ## What is owned -/

structure Owns (h : Host K) (fds : List Int) (regs : List (Reg K)) : Prop where
  opened : Holds h.fds fds
  standing : Holds h.regs regs
  fresh : ∀ reg ∈ regs, reg.handle < h.handles
  watched : ∀ reg ∈ regs, reg.fd ∈ fds
  sound : h.dangling = false

theorem owns_empty : Owns (Host.empty : Host K) [] [] :=
  ⟨holds_empty, holds_empty, fun _ h => absurd h List.not_mem_nil, fun _ h => absurd h List.not_mem_nil, rfl⟩

theorem Owns.perm (ho : Owns h fds regs) (hf : fds.Perm fds') (hr : regs.Perm regs') : Owns h fds' regs' where
  opened := ho.opened.perm hf
  standing := ho.standing.perm hr
  fresh reg hreg := ho.fresh reg (hr.mem_iff.2 hreg)
  watched reg hreg := hf.mem_iff.1 (ho.watched reg (hr.mem_iff.2 hreg))
  sound := ho.sound

/-- New answers are no matter. -/
theorem Owns.answer (ho : Owns h fds regs) (answers : List Int) : Owns { h with answers := answers } fds regs :=
  ⟨ho.opened, ho.standing, ho.fresh, ho.watched, ho.sound⟩

/-- An answer is used up, and there is no other than -1 at the end. -/
theorem ask_spends (h : Host K) : wp ask (fun r t => t.answers = h.answers.tail ∧ (h.answers = [] → r = -1)) h := by
  cases ha : h.answers with
  | nil =>
    simp only [wp, ask, ha]
    exact ⟨rfl, fun _ => trivial⟩
  | cons r rest =>
    simp only [wp, ask, ha]
    exact ⟨rfl, fun hnil => absurd hnil (List.cons_ne_nil r rest)⟩

theorem Owns.ask (ho : Owns h fds regs) : wp ask (fun _ t => Owns t fds regs) h := by
  cases ha : h.answers with
  | nil =>
    simp only [wp, Hosts.ask, ha]
    exact ho
  | cons r rest =>
    simp only [wp, Hosts.ask, ha]
    exact ho.answer rest

theorem Owns.newFd (ho : Owns h fds regs) :
    wp newFd (fun r t => (r < 0 → Owns t fds regs) ∧ (¬r < 0 → Owns t (r :: fds) regs)) h := by
  refine ho.ask.bind fun r t ht => wp_read.2 ?_
  split
  · next hr => exact ⟨fun _ => ht, fun hpos => absurd hr hpos⟩
  · next hr =>
    split
    · exact ⟨fun _ => ht, fun hpos => absurd (by decide : (-1 : Int) < 0) hpos⟩
    · next hnew =>
      refine ⟨fun hneg => absurd hneg hr,
        fun _ => ⟨ht.opened.take hnew, ht.standing, ht.fresh, fun reg hreg => ?_, ht.sound⟩⟩
      exact List.mem_cons_of_mem r (ht.watched reg hreg)

theorem Owns.close (ho : Owns h (fd :: fds) regs) (hfd : ∀ reg ∈ regs, reg.fd ≠ fd) :
    wp (close fd) (fun _ t => Owns t fds regs) h := by
  refine ⟨ho.opened.give, ho.standing, ho.fresh, fun reg hreg => ?_, ?_⟩
  · exact (List.mem_cons.1 (ho.watched reg hreg)).resolve_left (hfd reg hreg)
  · have hnone : h.regs.held.any (·.fd = fd) = false := by
      simp only [List.any_eq_false, decide_eq_true_eq]
      exact fun reg hreg => hfd reg (ho.standing.mem_iff.1 hreg)
    change (h.dangling || h.regs.held.any (·.fd = fd)) = false
    rw [ho.sound, hnone]
    rfl

/-- What nobody watches can be closed. -/
theorem Owns.unwatched (ho : Owns h (fd :: fds) regs) (hw : ∀ reg ∈ regs, reg.fd ∈ fds) : ∀ reg ∈ regs, reg.fd ≠ fd := by
  rintro reg hreg rfl
  exact (List.nodup_cons.1 ho.opened.nodup).1 (hw reg hreg)

variable [DecidableEq K]

theorem Owns.watch (ho : Owns h fds regs) (hfd : fd ∈ fds) (how : K) :
    wp (watch fd how) (fun r t => r = none ∧ Owns t fds regs ∨ ∃ n, r = some ⟨n, fd, how⟩ ∧
      Owns t fds (⟨n, fd, how⟩ :: regs)) h := by
  refine ho.ask.bind fun r t ht => wp_read.2 ?_
  split
  · exact .inl ⟨rfl, ht⟩
  · have hnew : (⟨t.handles, fd, how⟩ : Reg K) ∉ t.regs.held := fun hm =>
      Nat.lt_irrefl _ (ht.fresh _ (ht.standing.mem_iff.1 hm))
    refine .inr ⟨t.handles, rfl, ht.opened, ht.standing.take hnew, fun reg hreg => ?_, fun reg hreg => ?_, ?_⟩
    · rcases List.mem_cons.1 hreg with rfl | hreg
      · exact Nat.lt_succ_self _
      · exact Nat.lt_succ_of_lt (ht.fresh reg hreg)
    · rcases List.mem_cons.1 hreg with rfl | hreg
      · exact hfd
      · exact ht.watched reg hreg
    · have hopen : fd ∈ t.fds.held := ht.opened.mem_iff.2 hfd
      change (t.dangling || !decide (fd ∈ t.fds.held)) = false
      rw [ht.sound, decide_eq_true hopen]
      rfl

theorem Owns.unwatch (ho : Owns h fds (reg :: regs)) : wp (unwatch reg) (fun _ t => Owns t fds regs) h :=
  ⟨ho.opened, ho.standing.give, fun r hr => ho.fresh r (List.mem_cons_of_mem reg hr), fun r hr =>
    ho.watched r (List.mem_cons_of_mem reg hr), ho.sound⟩

end Hosts
