import AlgaeBp.Ble.Code
import AlgaeBp.Lib.StateWp
import Mathlib.Data.List.Nodup
import Mathlib.Data.List.Perm.Basic
import Mathlib.Data.List.Range
/-!
# Sockets and registrations of the peripheral

`Holds s fds reg`: the sockets in `fds` are open, every other socket was
closed once, and the event loop has the registration `reg` and no other. One
lemma for each call says how it moves this.
-/
open StateWp

namespace AlgaeBp.Ble

open Att

/-! ## The books -/

/-- The open sockets are those of `fds`, each socket is open or was closed once, and nothing went wrong. -/
structure Books (w : World) (fds : List Int) : Prop where
  faultless : w.fault = false
  fds : (w.opened.map (fun k => (k.fd : Int))).Perm fds
  distinct : (w.opened.map Sock.fd).Nodup
  serials : (w.opened.map Sock.serial ++ w.closed).Perm (List.range w.next)

/-- `evconn.ev` is the only registration. -/
def Registered (s : Sys) : Option (Int × Cb) → Prop
  | none => s.b.ev = none ∧ s.w.regs = []
  | some (fd, cb) => ∃ h, s.b.ev = some h ∧ s.w.regs = [⟨h, fd, cb⟩]

structure Holds (s : Sys) (fds : List Int) (reg : Option (Int × Cb)) : Prop where
  books : Books s.w fds
  registered : Registered s reg

/-- The peripheral and the history are as before. -/
structure Same (s t : Sys) : Prop where
  b : t.b = s.b
  log : t.w.log = s.w.log
  next : s.w.next ≤ t.w.next

theorem Same.refl (s : Sys) : Same s s := ⟨rfl, rfl, le_rfl⟩

theorem Same.trans {s t u : Sys} (h : Same s t) (h' : Same t u) : Same s u :=
  ⟨h'.b.trans h.b, h'.log.trans h.log, h.next.trans h'.next⟩

theorem Books.nonneg {w : World} {fds : List Int} (h : Books w fds) {fd : Int} (hm : fd ∈ fds) : 0 ≤ fd := by
  obtain ⟨k, -, rfl⟩ := List.mem_map.1 (h.fds.mem_iff.2 hm)
  exact Int.natCast_nonneg _

theorem Books.nodup {w : World} {fds : List Int} (h : Books w fds) : fds.Nodup := by
  have hmap : w.opened.map (fun k => (k.fd : Int)) = (w.opened.map Sock.fd).map Int.ofNat := by
    rw [List.map_map]
    rfl
  rw [← h.fds.nodup_iff, hmap]
  exact h.distinct.map (fun a b hab => Int.ofNat.inj hab)

theorem Books.sockOf {w : World} {fds : List Int} (h : Books w fds) {fd : Int} (hm : fd ∈ fds) :
    ∃ k, w.sockOf fd = some k ∧ k ∈ w.opened ∧ (k.fd : Int) = fd := by
  obtain ⟨k, hk, hfd⟩ := List.mem_map.1 (h.fds.mem_iff.2 hm)
  have hsome : (w.sockOf fd).isSome := by
    unfold World.sockOf
    rw [List.find?_isSome]
    exact ⟨k, hk, by simpa using hfd⟩
  obtain ⟨k', hk'⟩ := Option.isSome_iff_exists.1 hsome
  refine ⟨k', hk', List.mem_of_find?_eq_some hk', ?_⟩
  simpa using List.find?_some hk'

/-- A change of the world that leaves sockets, registrations and history alone. -/
theorem Holds.asked {s : Sys} {fds : List Int} {reg : Option (Int × Cb)} (h : Holds s fds reg) (n : Nat) :
    Holds { s with w := { s.w with asked := n } } fds reg := by
  refine ⟨⟨h.books.faultless, h.books.fds, h.books.distinct, h.books.serials⟩, ?_⟩
  have := h.registered
  cases reg with
  | none => exact this
  | some r => exact this

/-! ## System calls -/

theorem no_fd : (-1 : Int) < 0 := by decide

theorem fd_of_nat (n : Nat) : ¬ (n : Int) < 0 := by omega

/-- The state after one more system call. -/
def Sys.tick (s : Sys) : Sys := { s with w := { s.w with asked := s.w.asked + 1 } }

theorem Same.tick (s : Sys) : Same s s.tick := ⟨rfl, rfl, le_rfl⟩

theorem Holds.tick {s : Sys} {fds : List Int} {reg : Option (Int × Cb)} (h : Holds s fds reg) : Holds s.tick fds reg :=
  h.asked _

theorem ask_wp {s : Sys} {Q : Nat → Sys → Prop} (h : ∀ n, Q n s.tick) : wp ask Q s := h _

theorem succeeds_wp {s : Sys} {Q : Bool → Sys → Prop} (h : ∀ ok, Q ok s.tick) : wp succeeds Q s := h _

theorem freeFd_notMem (w : World) (n : Nat) : w.freeFd n ∉ w.opened.map Sock.fd := by
  unfold World.freeFd
  split
  · intro hm
    have hle : ∀ l : List Nat, ∀ x ∈ l, x ≤ l.foldr max 0 := by
      intro l
      induction l with
      | nil => simp
      | cons a l ih =>
        intro x hx
        rcases List.mem_cons.1 hx with rfl | hx
        · exact le_max_left _ _
        · exact (ih x hx).trans (le_max_right _ _)
    have := hle _ _ hm
    omega
  · assumption

theorem Books.newSock {w : World} {fds : List Int} (h : Books w fds) (n : Nat) :
    Books (w.newSock n) ((w.freeFd n : Int) :: fds) := by
  refine ⟨h.faultless, h.fds.cons _, ?_, ?_⟩
  · exact List.nodup_cons.2 ⟨freeFd_notMem w n, h.distinct⟩
  · show (w.next :: (w.opened.map Sock.serial ++ w.closed)).Perm (List.range (w.next + 1))
    rw [List.range_succ]
    exact (h.serials.cons _).trans (List.perm_append_singleton _ _).symm

/-- A new socket is one more to be held. -/
theorem sysSocket_wp {s : Sys} {fds : List Int} {reg : Option (Int × Cb)} (h : Holds s fds reg) :
    wp sysSocket (fun fd t => Same s t ∧ (fd < 0 ∧ t = s.tick ∨
      ∃ n, fd = (s.w.freeFd n : Int) ∧ t = { s.tick with w := s.tick.w.newSock n } ∧ Holds t (fd :: fds) reg)) s := by
  refine wp_bind.2 (ask_wp (fun n => ?_))
  cases n with
  | zero => exact ⟨Same.tick s, .inl ⟨no_fd, rfl⟩⟩
  | succ n =>
    refine ⟨⟨rfl, rfl, Nat.le_succ _⟩, .inr ⟨n, rfl, rfl, ⟨h.tick.books.newSock n, ?_⟩⟩⟩
    have := h.registered
    cases reg with
    | none => exact this
    | some r => exact this

theorem Books.drop {w : World} {fd : Int} {fds : List Int} (h : Books w (fd :: fds)) {k : Sock} (hk : k ∈ w.opened)
    (hfd : (k.fd : Int) = fd) : Books (w.drop k) fds := by
  have hp := List.perm_cons_erase hk
  refine ⟨h.faultless, ?_, ?_, ?_⟩
  · have := (hp.map (fun k => (k.fd : Int))).symm.trans h.fds
    rw [List.map_cons, hfd] at this
    exact this.cons_inv
  · exact (((hp.map Sock.fd).nodup_iff.1 h.distinct).of_cons)
  · refine List.Perm.trans ?_ h.serials
    show ((w.opened.erase k).map Sock.serial ++ k.serial :: w.closed).Perm _
    refine List.perm_middle.trans ?_
    exact ((hp.map Sock.serial).append_right w.closed).symm

theorem Holds.drop {s : Sys} {fd : Int} {fds : List Int} {reg : Option (Int × Cb)} (h : Holds s (fd :: fds) reg)
    {k : Sock} (hk : k ∈ s.w.opened) (hfd : (k.fd : Int) = fd) : Holds { s with w := s.w.drop k } fds reg := by
  refine ⟨h.books.drop hk hfd, ?_⟩
  have := h.registered
  cases reg with
  | none => exact this
  | some r => exact this

/-- A held socket can be closed. -/
theorem sysClose_wp {s : Sys} {fd : Int} {fds : List Int} {reg : Option (Int × Cb)} (h : Holds s (fd :: fds) reg) :
    wp (sysClose fd) (fun _ t => Same s t ∧ Holds t fds reg) s := by
  obtain ⟨k, hk, hmem, hfd⟩ := h.books.sockOf (List.mem_cons_self (a := fd))
  unfold sysClose
  refine wp_bind.2 ((wp_get _ _).2 ?_)
  rw [hk]
  exact ⟨⟨rfl, rfl, le_rfl⟩, h.drop hmem hfd⟩

/-- The socket opened last is closed again. -/
theorem sysClose_last {s : Sys} {k : Sock} {rest : List Sock} {fds : List Int} {reg : Option (Int × Cb)}
    (h : Holds s ((k.fd : Int) :: fds) reg) (hk : s.w.opened = k :: rest) :
    wp (sysClose k.fd) (fun _ t => Same s t ∧ t.w.opened = rest ∧ Holds t fds reg) s := by
  have hof : s.w.sockOf k.fd = some k := by
    unfold World.sockOf
    rw [hk]
    exact List.find?_cons_of_pos (by simp)
  unfold sysClose
  refine wp_bind.2 ((wp_get _ _).2 ?_)
  rw [hof]
  refine ⟨⟨rfl, rfl, le_rfl⟩, ?_, h.drop (by rw [hk]; exact List.mem_cons_self) rfl⟩
  show s.w.opened.erase k = rest
  rw [hk, List.erase_cons_head]

/-! ## Calls that leave everything as it was -/

/-- Whatever is held is still held, and neither the peripheral nor the open sockets have changed. -/
def Quiet {α : Type} (m : M α) : Prop :=
  ∀ s fds reg, Holds s fds reg → wp m (fun _ t => Same s t ∧ t.w.opened = s.w.opened ∧ Holds t fds reg) s

theorem quiet_pure {α : Type} (a : α) : Quiet (pure a : M α) := fun s _ _ h => ⟨Same.refl s, rfl, h⟩

theorem quiet_succeeds : Quiet succeeds := fun s _ _ h => succeeds_wp (fun _ => ⟨Same.tick s, rfl, h.tick⟩)

theorem Quiet.bind {α β : Type} {m : M α} {f : α → M β} (hm : Quiet m) (hf : ∀ a, Quiet (f a)) : Quiet (m >>= f) := by
  intro s fds reg h
  refine (hm s fds reg h).bind (fun a t ht => (hf a t fds reg ht.2.2).mono (fun b u hu => ?_))
  exact ⟨ht.1.trans hu.1, hu.2.1.trans ht.2.1, hu.2.2⟩

theorem Quiet.ite {α : Type} {c : Prop} [Decidable c] {m m' : M α} (hm : Quiet m) (hm' : Quiet m') :
    Quiet (if c then m else m') := by
  split
  · exact hm
  · exact hm'

/-- A socket is opened and closed again after something quiet. -/
theorem quiet_socket {α β : Type} {bad : M β} {m : M α} {k : α → M β} (hbad : Quiet bad) (hm : Quiet m)
    (hk : ∀ a, Quiet (k a)) :
    Quiet (do let fd ← sysSocket; if fd < 0 then bad else do let a ← m; sysClose fd; k a) := by
  intro s fds reg h
  refine (sysSocket_wp h).bind ?_
  rintro fd t ⟨hs, ⟨hneg, rfl⟩ | ⟨n, rfl, heq, ht⟩⟩
  · rw [if_pos hneg]
    exact (hbad _ _ _ h.tick).mono (fun a u hu => ⟨(Same.tick s).trans hu.1, hu.2⟩)
  · rw [if_neg (fd_of_nat _)]
    refine (hm t _ reg ht).bind (fun a u hu => ?_)
    have hopen : u.w.opened = ⟨s.w.freeFd n, s.w.next⟩ :: s.w.opened := by
      rw [hu.2.1, heq]
      rfl
    refine (sysClose_last hu.2.2 hopen).bind (fun _ v hv => (hk a v fds reg hv.2.2).mono (fun b x hx => ?_))
    exact ⟨((hs.trans hu.1).trans hv.1).trans hx.1, hx.2.1.trans hv.2.1, hx.2.2⟩

theorem quiet_bleHciAddr : Quiet bleHciAddr := quiet_socket (quiet_pure _) quiet_succeeds (fun _ => quiet_pure _)

theorem quiet_bleHciUp : Quiet bleHciUp :=
  quiet_socket (quiet_pure _) quiet_succeeds (fun _ => (quiet_bleHciAddr.bind (fun _ => quiet_pure _)).ite (quiet_pure _))

theorem quiet_hciCmdStatus : Quiet hciCmdStatus := by
  intro s fds reg h
  refine wp_bind.2 (ask_wp (fun n => ?_))
  cases n with
  | zero => exact ⟨Same.tick s, rfl, h.tick⟩
  | succ n => exact ⟨Same.tick s, rfl, h.tick⟩

theorem quiet_hciCmd (ignoreStatus : Bool) : Quiet (hciCmd ignoreStatus) := by
  refine quiet_hciCmdStatus.bind (fun st => ?_)
  cases st with
  | none => exact quiet_pure _
  | some st => exact quiet_pure _

theorem quiet_hciCmds (l : List Bool) : Quiet (hciCmds l) := by
  induction l with
  | nil => exact quiet_pure _
  | cons ignoreStatus rest ih => exact (quiet_hciCmd ignoreStatus).bind (fun _ => ih.ite (quiet_pure _))

theorem quiet_advCmds (enable : Bool) : Quiet (advCmds enable) := by
  unfold advCmds
  exact (quiet_hciCmds _).ite (quiet_hciCmd _)

theorem quiet_allSucceed (n : Nat) : Quiet (allSucceed n) := by
  induction n with
  | zero => exact quiet_pure _
  | succ n ih => exact quiet_succeeds.bind (fun _ => ih.ite (quiet_pure _))

/-- The HCI socket is open for the commands to come, or nothing is. -/
theorem bleHciBind_wp {s : Sys} {fds : List Int} {reg : Option (Int × Cb)} (h : Holds s fds reg) :
    wp bleHciBind (fun fd t => Same s t ∧ (fd < 0 ∧ Holds t fds reg ∨ 0 ≤ fd ∧ Holds t (fd :: fds) reg)) s := by
  refine (sysSocket_wp h).bind ?_
  rintro fd t ⟨hs, ⟨hneg, rfl⟩ | ⟨n, rfl, -, ht⟩⟩
  · rw [if_pos hneg]
    exact ⟨hs, .inl ⟨no_fd, h.tick⟩⟩
  have hfail {u : Sys} (hu : Same s u) (hh : Holds u ((s.w.freeFd n : Int) :: fds) reg) :
      wp (do sysClose (s.w.freeFd n : Int); return (-1 : Int)) (fun fd t => Same s t ∧
        (fd < 0 ∧ Holds t fds reg ∨ 0 ≤ fd ∧ Holds t (fd :: fds) reg)) u :=
    (sysClose_wp hh).bind (fun _ v hv => ⟨hu.trans hv.1, .inl ⟨no_fd, hv.2⟩⟩)
  rw [if_neg (fd_of_nat _)]
  refine wp_bind.2 (succeeds_wp (fun ok => ?_))
  split
  · refine wp_bind.2 (succeeds_wp (fun ok' => ?_))
    split
    · exact ⟨(hs.trans (Same.tick t)).trans (Same.tick t.tick), .inr ⟨Int.natCast_nonneg _, ht.tick.tick⟩⟩
    · exact hfail ((hs.trans (Same.tick t)).trans (Same.tick t.tick)) ht.tick.tick
  · exact hfail (hs.trans (Same.tick t)) ht.tick

end AlgaeBp.Ble
