import AlgaeBp.Btrf.Code
import AlgaeBp.Lib.Runs
/-!
# What the session holds

Between two events the session has one descriptor and one registration for it,
with the callback its state waits for, or nothing at all. `Sane` is what of
this holds while code runs.
-/
open Hosts Ledgers Runs StateWp

namespace AlgaeBp.Btrf

variable {s t u : St} {fd : Int} {more fds : List Int} {wait : Wait} {α : Type}

/-! ## Calls about other things -/

/-- The session is left alone; the descriptors in `more` are new. -/
structure Aside (s t : St) (more : List Int) : Prop where
  bt2 : t.bt2 = s.bt2
  tx : t.tx = s.tx
  owns : ∀ {fds regs}, Owns s.host fds regs → Owns t.host (more ++ fds) regs

theorem Aside.refl (s : St) : Aside s s [] := ⟨rfl, rfl, fun h => h⟩

theorem Aside.trans (h : Aside s t fds) (h' : Aside t u more) : Aside s u (more ++ fds) where
  bt2 := h'.bt2.trans h.bt2
  tx := h'.tx.trans h.tx
  owns ho := by
    rw [List.append_assoc]
    exact h'.owns (h.owns ho)

theorem ask_wp (s : St) :
    wp ask (fun r t => Aside s t [] ∧ t.host.answers = s.host.answers.tail ∧ (s.host.answers = [] → r = -1)) s :=
  ⟨⟨rfl, rfl, fun ho => ho.ask⟩, ask_spends s.host⟩

/-- An answer is all that is wanted. -/
theorem ask_aside (h : Aside s t fds) : wp ask (fun _ u => Aside s u fds) t :=
  (ask_wp t).mono fun _ _ hu => h.trans hu.1

theorem newFd_wp (h : Aside s t []) : wp newFd (fun r u => (r < 0 → Aside s u []) ∧ (¬r < 0 → Aside s u [r])) t :=
  ⟨fun hr => ⟨h.bt2, h.tx, fun ho => (h.owns ho).newFd.1 hr⟩, fun hr => ⟨h.bt2, h.tx, fun ho => (h.owns ho).newFd.2 hr⟩⟩

theorem close_wp (h : Aside s t [fd]) : wp (close fd) (fun _ u => Aside s u []) t :=
  ⟨h.bt2, h.tx, fun ho => (h.owns ho).close ((h.owns ho).unwatched ho.watched)⟩

/-- A descriptor is closed, and that is all. -/
theorem close_pure {a : α} {Q : α → St → Prop} (h : Aside s t [fd]) (hQ : ∀ u, Aside s u [] → Q a u) :
    wp (do close fd; return a) Q t := (close_wp h).bind fun _ u hu => hQ u hu

theorem btHciAddr_wp (h : Aside s t []) : wp btHciAddr (fun _ u => Aside s u []) t := by
  refine (newFd_wp h).bind fun fd u hu => ?_
  split
  · next hneg => exact hu.1 hneg
  · next hpos => exact (ask_aside (hu.2 hpos)).bind fun r v hv => close_pure hv fun _ hw => hw

theorem btHciUp_wp (s : St) : wp btHciUp (fun _ u => Aside s u []) s := by
  refine (newFd_wp (Aside.refl s)).bind fun fd u hu => ?_
  split
  · next hneg => exact hu.1 hneg
  · next hpos =>
    refine (ask_aside (hu.2 hpos)).bind fun r v hv => (close_wp hv).bind fun _ w hw => ?_
    split
    · exact hw
    · exact (btHciAddr_wp hw).bind fun _ _ hx => hx

theorem btScanSet_wp (scan : UInt32) (h : Aside s t []) : wp (btScanSet scan) (fun _ u => Aside s u []) t := by
  refine (newFd_wp h).bind fun fd u hu => ?_
  split
  · next hneg => exact hu.1 hneg
  · next hpos =>
    refine (ask_aside (hu.2 hpos)).bind fun r v hv => (close_wp hv).bind fun _ w hw => ?_
    split
    · exact hw
    · exact ⟨hw.bt2, hw.tx, hw.owns⟩

theorem btDiscoverable_wp (on : Bool) (s : St) : wp (btDiscoverable on) (fun _ u => Aside s u []) s := by
  refine (btHciUp_wp s).bind fun r t ht => ?_
  split
  · exact ht
  · refine wp_read.2 ((btScanSet_wp _ ht).bind fun r u hu => ?_)
    split <;> exact hu

/-- What a call that fails leaves. -/
theorem failed {more : List Int} (h : Aside s t []) : ((-1 : Int) < 0 → Aside s t []) ∧ (¬(-1 : Int) < 0 → Aside s t more) :=
  ⟨fun _ => h, fun hpos => absurd (by decide) hpos⟩

/-- What of a new socket fails closes it. -/
theorem btRfcommSocket_wp (h : Aside s t []) :
    wp btRfcommSocket (fun r u => (r < 0 → Aside s u []) ∧ (¬r < 0 → Aside s u [r])) t := by
  refine (newFd_wp h).bind fun fd u hu => ?_
  split
  · next hneg => exact failed (hu.1 hneg)
  · next hpos =>
    refine (ask_aside (hu.2 hpos)).bind fun r v hv => ?_
    split
    · exact close_pure hv fun _ => failed
    · refine (ask_aside hv).bind fun r w hw => ?_
      split
      · exact close_pure hw fun _ => failed
      · exact ⟨fun hneg => absurd hneg hpos, fun _ => hw⟩

theorem bindListen_wp (h : Aside s t [fd]) :
    wp (bindListen fd) (fun r u => (r < 0 → Aside s u []) ∧ (¬r < 0 → Aside s u [fd])) t := by
  refine (ask_aside h).bind fun r u hu => ?_
  split
  · exact close_pure hu fun _ => failed
  · refine (ask_aside hu).bind fun r v hv => ?_
    split
    · exact close_pure hv fun _ => failed
    · exact ⟨fun hneg => absurd hneg (by decide : ¬(0 : Int) < 0), fun _ => hv⟩

/-! ## The session -/

/-- The descriptor of the session, if it has one. -/
def Bt2.own (b : Bt2) : List Int := if 0 ≤ b.fd then [b.fd] else []

/-- What is owned is the session's descriptor and registration, and `fds` besides. -/
structure Sane (s : St) (fds : List Int) : Prop where
  owns : Owns s.host (s.bt2.own ++ fds) s.bt2.ev.toList
  closed : s.bt2.fd < 0 → s.bt2.fd = -1

theorem Sane.aside (h : Sane s fds) (ha : Aside s t more) : Sane t (more ++ fds) where
  owns := by
    rw [ha.bt2]
    refine (ha.owns h.owns).perm ?_ (.refl _)
    rw [← List.append_assoc, ← List.append_assoc]
    exact List.perm_append_comm.append_right fds
  closed := by
    rw [ha.bt2]
    exact h.closed

/-- Nothing is owned but `fds`. -/
structure Idle (s : St) (fds : List Int) : Prop where
  sane : Sane s fds
  fd : s.bt2.fd = -1
  ev : s.bt2.ev = none
  state : s.bt2.state = .idle

theorem Idle.owns (h : Idle s fds) : Owns s.host fds [] := by
  have ho := h.sane.owns
  rw [Bt2.own, h.fd, h.ev] at ho
  exact ho

theorem evconnCancel_wp (h : Sane s fds) :
    wp evconnCancel (fun _ t => Sane t fds ∧ t.bt2 = { s.bt2 with ev := none } ∧ t.tx = s.tx) s := by
  refine wp_read.2 ?_
  split
  · next hev => exact ⟨h, by rw [← hev]; rfl, rfl⟩
  · next reg hev =>
    have ho := h.owns
    rw [hev, Option.toList_some] at ho
    exact ⟨⟨ho.unwatch, h.closed⟩, rfl, rfl⟩

theorem btSessionClose_wp (h : Sane s fds) : wp btSessionClose (fun _ t => Idle t fds ∧ t.tx = s.tx) s := by
  refine (evconnCancel_wp h).bind fun _ t ht => ?_
  obtain ⟨hsane, hbt2, htx⟩ := ht
  have hev : t.bt2.ev = none := by rw [hbt2]
  have hclose : wp closeOwn (fun _ u => Sane u fds ∧ u.bt2 = { t.bt2 with fd := -1 } ∧ u.tx = t.tx) t := by
    refine wp_read.2 ?_
    split
    · next hfd =>
      have ho := hsane.owns
      rw [Bt2.own, if_pos hfd] at ho
      -- the registration has gone before
      have hnone : ∀ reg ∈ t.bt2.ev.toList, reg.fd ≠ t.bt2.fd := by
        rw [hev]
        exact fun _ hreg => absurd hreg List.not_mem_nil
      exact ⟨⟨ho.close hnone, fun _ => rfl⟩, rfl, rfl⟩
    · next hfd =>
      refine ⟨hsane, ?_, rfl⟩
      rw [← hsane.closed (Int.not_le.1 hfd)]
      rfl
  refine hclose.bind fun _ u hu => ?_
  obtain ⟨hsane', hbt2', htx'⟩ := hu
  refine ⟨⟨⟨hsane'.owns, hsane'.closed⟩, ?_, ?_, rfl⟩, htx'.trans htx⟩
  · change u.bt2.fd = -1
    rw [hbt2']
  · change u.bt2.ev = none
    rw [hbt2', hev]

theorem aloeEvb2AddFd_wp (ho : Owns s.host fds []) (hfd : fd ∈ fds) (wait : Wait) :
    wp (aloeEvb2AddFd fd wait) (fun reg t => Owns t.host fds reg.toList ∧ t.bt2 = s.bt2 ∧ ∀ r, reg = some r →
      ∃ n, r = ⟨n, fd, wait⟩) s := by
  change Owns (watch fd wait s.host).2 fds (watch fd wait s.host).1.toList ∧ s.bt2 = s.bt2 ∧
    ∀ r, (watch fd wait s.host).1 = some r → ∃ n, r = ⟨n, fd, wait⟩
  rcases ho.watch hfd wait with ⟨hreg, hg⟩ | ⟨n, hreg, hg⟩
  · rw [hreg]
    exact ⟨hg, rfl, nofun⟩
  · rw [hreg]
    exact ⟨hg, rfl, fun r hr => ⟨n, (Option.some.inj hr).symm⟩⟩

/-- A registration for the session's descriptor, or none. -/
theorem btArm_wp (h : Sane s fds) (hfd : 0 ≤ s.bt2.fd) (wait : Wait) :
    wp (btArm wait) (fun r t => Sane t fds ∧ (∃ ev, t.bt2 = { s.bt2 with ev := ev }) ∧
      (r = 0 → ∃ n, t.bt2.ev = some ⟨n, s.bt2.fd, wait⟩)) s := by
  refine (evconnCancel_wp h).bind fun _ t ht => ?_
  obtain ⟨hsane, hbt2, -⟩ := ht
  have hev : t.bt2.ev = none := by rw [hbt2]
  have heq : t.bt2.fd = s.bt2.fd := by rw [hbt2]
  have ho := hsane.owns
  rw [hev, Option.toList_none] at ho
  have hown : t.bt2.fd ∈ t.bt2.own ++ fds := by
    rw [Bt2.own, if_pos (heq ▸ hfd)]
    exact List.mem_cons_self
  refine wp_read.2 ((aloeEvb2AddFd_wp ho hown wait).bind fun reg u hu => ?_)
  obtain ⟨hu, hbt2', hreg⟩ := hu
  refine wp.update ?_
  have hsane' : Sane { u with bt2 := { u.bt2 with ev := reg } } fds := by
    rw [hbt2']
    exact ⟨hu, hsane.closed⟩
  have hkeep : ∃ ev, { u.bt2 with ev := reg } = { s.bt2 with ev := ev } := ⟨reg, by rw [hbt2', hbt2]⟩
  split
  · exact ⟨hsane', hkeep, nofun⟩
  · next hsome =>
    obtain ⟨r, rfl⟩ := Option.ne_none_iff_exists'.1 hsome
    obtain ⟨n, rfl⟩ := hreg r rfl
    rw [heq] at hsane' hkeep ⊢
    exact ⟨hsane', hkeep, fun _ => ⟨n, rfl⟩⟩

/-! ## What every event keeps -/

/-- What a state waits for. -/
def waits : BtSt → Option Wait
  | .idle => none
  | .listen => some ⟨flagRead, infinite, .accept⟩
  | .connecting => some ⟨flagWrite ||| flagExcept, 30000, .connect⟩
  | .connected => some ⟨flagRead, infinite, .rx⟩

structure Inv (s : St) : Prop where
  sane : Sane s []
  idle : waits s.bt2.state = none → s.bt2.fd = -1 ∧ s.bt2.ev = none
  waiting : ∀ wait, waits s.bt2.state = some wait → 0 ≤ s.bt2.fd ∧ ∃ n, s.bt2.ev = some ⟨n, s.bt2.fd, wait⟩

theorem Idle.inv (h : Idle s []) : Inv s where
  sane := h.sane
  idle _ := ⟨h.fd, h.ev⟩
  waiting wait hw := by
    rw [h.state] at hw
    cases hw

theorem Inv.aside (h : Inv s) (ha : Aside s t []) : Inv t where
  sane := h.sane.aside ha
  idle := by
    rw [ha.bt2]
    exact h.idle
  waiting := by
    rw [ha.bt2]
    exact h.waiting

theorem Inv.close_wp (h : Inv s) : wp btSessionClose (fun _ t => Inv t) s :=
  (btSessionClose_wp h.sane).mono fun _ _ ht => ht.1.inv

theorem Idle.aside (h : Idle s fds) (ha : Aside s t more) : Idle t (more ++ fds) where
  sane := h.sane.aside ha
  fd := by rw [ha.bt2, h.fd]
  ev := by rw [ha.bt2, h.ev]
  state := by rw [ha.bt2, h.state]

/-- The session takes a descriptor over, in any state. -/
theorem Idle.adopt (h : Idle s [fd]) (hfd : 0 ≤ fd) {b : Bt2} (hb : b.fd = fd) (hev : b.ev = none) :
    Sane { s with bt2 := b } [] where
  owns := by
    simp only [Bt2.own, hb, if_pos hfd, hev]
    exact h.owns
  closed hneg := absurd hfd (Int.not_le.2 (hb ▸ hneg))

/-- A state is waited for, or there is no registration. -/
theorem btArm_open (h : Sane s []) (hfd : 0 ≤ s.bt2.fd) (hw : waits s.bt2.state = some wait) :
    wp (btArm wait) (fun r t => Sane t [] ∧ (r = 0 → Inv t)) s := by
  refine (btArm_wp h hfd wait).mono fun r t ht => ?_
  obtain ⟨hsane, ⟨ev, hbt2⟩, hreg⟩ := ht
  have hstate : t.bt2.state = s.bt2.state := by rw [hbt2]
  have hfd' : t.bt2.fd = s.bt2.fd := by rw [hbt2]
  refine ⟨hsane, fun hr => ⟨hsane, fun hn => ?_, fun wait' hw' => ?_⟩⟩
  · rw [hstate, hw] at hn
    cases hn
  · rw [hstate, hw] at hw'
    obtain rfl := Option.some.inj hw'
    rw [hfd']
    exact ⟨hfd, hreg hr⟩

/-- The end of a call that has made the session wait, or closes it. -/
theorem arm_or_close {α : Type} {a b : α} (h : Sane s []) (hfd : 0 ≤ s.bt2.fd) (hw : waits s.bt2.state = some wait) :
    wp (do
      let r ← btArm wait
      if r ≠ 0 then do
        btSessionClose
        return a
      else return b) (fun _ t => Inv t) s := by
  refine (btArm_open h hfd hw).bind fun r t ht => ?_
  split
  · exact (btSessionClose_wp ht.1).bind fun _ _ hu => hu.1.inv
  · next hr => exact ht.2 (Decidable.not_not.1 hr)

theorem rxLoop_wp (fuel : Nat) (h : Inv s) : wp (rxLoop fuel) (fun _ t => Inv t) s := by
  induction fuel generalizing s with
  | zero => exact h
  | succ fuel ih =>
    refine (ask_wp s).bind fun len t ht => ?_
    have ht := h.aside ht.1
    split
    · split
      · exact ih ht
      · split
        · exact ht
        · exact ht.close_wp
    · split
      · exact ht.close_wp
      · exact ih ht

theorem btRxCb_wp (h : Inv s) (ev : UInt32) : wp (btRxCb fd ev) (fun _ t => Inv t) s := by
  refine wp_read.2 ?_
  split
  · exact h
  · split
    · exact h
    · exact rxLoop_wp _ h

theorem btAcceptCb_wp (h : Inv s) (ev : UInt32) : wp (btAcceptCb fd ev) (fun _ t => Inv t) s := by
  refine wp_read.2 ?_
  split
  · exact h
  · split
    · exact h
    · refine (newFd_wp (Aside.refl s)).bind fun conn t ht => ?_
      split
      · next hneg => exact h.aside (ht.1 hneg)
      · next hpos =>
        have hconn := Int.not_lt.1 hpos
        have ht := ht.2 hpos
        -- the listening socket is closed while the new one is known only here
        refine (btSessionClose_wp (h.sane.aside ht)).bind fun _ u hu => ?_
        have hsane := hu.1.adopt hconn
          (b := { u.bt2 with peer := some s.caller.1, channel := s.caller.2, fd := conn, state := .connected }) rfl hu.1.ev
        refine wp.update ((ask_wp _).bind fun r v hv => ?_)
        have hbt2 := hv.1.bt2
        have hsane := hsane.aside hv.1
        split
        · exact (btSessionClose_wp hsane).mono fun _ _ hw => hw.1.inv
        · have hw : waits v.bt2.state = some ⟨flagRead, infinite, .rx⟩ := by rw [hbt2]; rfl
          have hown : 0 ≤ v.bt2.fd := by rw [hbt2]; exact hconn
          exact arm_or_close hsane hown hw

theorem btConnectCb_wp (h : Inv s) (hfd : 0 ≤ fd) (ev : UInt32) : wp (btConnectCb fd ev) (fun _ t => Inv t) s := by
  refine wp_read.2 ?_
  split
  · exact h
  · next heq =>
    split
    · exact h.close_wp
    · split
      · exact h
      · refine (ask_wp s).bind fun err t ht => ?_
        have hbt2 := ht.1.bt2
        have ht := h.aside ht.1
        split
        · exact ht.close_wp
        · refine wp.update ?_
          have hown : 0 ≤ t.bt2.fd := by rw [hbt2, Decidable.not_not.1 heq]; exact hfd
          have hsane : Sane { t with bt2 := { t.bt2 with state := .connected } } [] := ⟨ht.sane.owns, ht.sane.closed⟩
          have hw : waits BtSt.connected = some ⟨flagRead, infinite, .rx⟩ := rfl
          exact arm_or_close hsane hown hw

theorem btListen_wp (h : Inv s) (channel : Int) : wp (btListen channel) (fun _ t => Inv t) s := by
  unfold btListen
  split
  · exact h
  · refine (btHciUp_wp s).bind fun r t ht => ?_
    have ht := h.aside ht
    split
    · exact ht
    · refine (btSessionClose_wp ht.sane).bind fun _ u hu => (btRfcommSocket_wp (Aside.refl u)).bind fun fd v hv => ?_
      have hu := hu.1
      split
      · next hneg => exact hu.inv.aside (hv.1 hneg)
      · next hpos =>
        have hfd := Int.not_lt.1 hpos
        refine (bindListen_wp (hv.2 hpos)).bind fun r w hw => ?_
        split
        · next hneg => exact hu.inv.aside (hw.1 hneg)
        · next hpos =>
          have hw := hu.aside (hw.2 hpos)
          refine wp.update ?_
          have hsane := hw.adopt hfd
            (b := { w.bt2 with fd := fd, channel := UInt8.ofInt channel, state := .listen }) rfl hw.ev
          have hwait : waits BtSt.listen = some ⟨flagRead, infinite, .accept⟩ := rfl
          exact arm_or_close hsane hfd hwait

theorem btConnect_wp (h : Inv s) (addr : Option (List UInt32)) (channel : Int) :
    wp (btConnect addr channel) (fun _ t => Inv t) s := by
  unfold btConnect
  split
  · exact h
  · split
    · exact h
    · next peer _ =>
      refine (btHciUp_wp s).bind fun r t ht => ?_
      have ht := h.aside ht
      split
      · exact ht
      · refine (btSessionClose_wp ht.sane).bind fun _ u hu => (btRfcommSocket_wp (Aside.refl u)).bind fun fd v hv => ?_
        have hu := hu.1
        split
        · next hneg => exact hu.inv.aside (hv.1 hneg)
        · next hpos =>
          have hfd := Int.not_lt.1 hpos
          refine (ask_aside (hv.2 hpos)).bind fun r w hw => ?_
          split
          · exact close_pure hw fun _ hx => hu.inv.aside hx
          · have hw := hu.aside hw
            refine wp.update ?_
            have hsane := hw.adopt hfd
              (b := { w.bt2 with peer := some peer, fd := fd, channel := UInt8.ofInt channel, state := .connecting }) rfl
              hw.ev
            have hwait : waits BtSt.connecting = some ⟨flagWrite ||| flagExcept, 30000, .connect⟩ := rfl
            exact arm_or_close hsane hfd hwait

/-- What `send` has taken of a text from where the call starts. -/
def Sent (s t : St) (rest : List UInt8) (r : Int) : Prop :=
  ∃ pieces : List (List UInt8), t.tx = s.tx ++ pieces.map (s.bt2.fd, ·) ∧ pieces.flatten <+: rest ∧
    (r = 0 ∧ pieces.flatten = rest ∧ t.bt2 = s.bt2 ∨ r = -1 ∧ pieces.flatten ≠ rest ∧ t.bt2.state = .idle)

/-- One `send` that takes something, and the ones after it. -/
theorem Sent.cons {s' t : St} {rest : List UInt8} {n : Nat} {r : Int} (h : Sent s' t (rest.drop n) r)
    (htx : s'.tx = s.tx ++ [(s.bt2.fd, rest.take n)]) (hbt : s'.bt2 = s.bt2) : Sent s t rest r := by
  obtain ⟨pieces, htaken, hpre, hres⟩ := h
  rw [htx, hbt] at htaken
  rw [hbt] at hres
  have hsplit := List.take_append_drop n rest
  have hwhole : (rest.take n :: pieces).flatten = rest ↔ pieces.flatten = rest.drop n := by
    rw [List.flatten_cons]
    exact ⟨fun hall => List.append_cancel_left (hall.trans hsplit.symm), fun hall => by rw [hall, hsplit]⟩
  refine ⟨rest.take n :: pieces, ?_, ?_, ?_⟩
  · rw [htaken, List.map_cons, List.append_assoc, List.singleton_append]
  · rw [List.flatten_cons]
    conv_rhs => rw [← hsplit]
    exact (List.prefix_append_right_inj _).2 hpre
  · rw [Ne, hwhole]
    exact hres

theorem sendLoop_wp (fuel : Nat) (rest : List UInt8) (h : Inv s) (hf : s.host.answers.length < fuel) :
    wp (sendLoop fuel rest) (fun r t => Inv t ∧ Sent s t rest r) s := by
  induction fuel generalizing s rest with
  | zero => exact absurd hf (Nat.not_lt_zero _)
  | succ fuel ih =>
    unfold sendLoop
    split
    · next hnil =>
      subst hnil
      exact ⟨h, [], (List.append_nil _).symm, List.nil_prefix, .inl ⟨rfl, rfl, rfl⟩⟩
    · next hrest =>
      refine wp_read.2 ((ask_wp s).bind fun n t ht => ?_)
      obtain ⟨haside, hanswers, hend⟩ := ht
      have ht := h.aside haside
      -- an answer is used up unless the call ends here
      have hfuel : n ≠ -1 → t.host.answers.length < fuel := by
        intro hn
        have hpos := List.length_pos_iff.2 fun hnil => hn (hend hnil)
        rw [hanswers, List.length_tail]
        omega
      split
      · split
        · next hintr =>
          have hn : n ≠ -1 := by
            rintro rfl
            exact absurd hintr (by decide)
          refine (ih rest ht (hfuel hn)).mono fun r u hu => ⟨hu.1, ?_⟩
          obtain ⟨pieces, htx, hpre, hres⟩ := hu.2
          rw [haside.tx, haside.bt2] at htx
          rw [haside.bt2] at hres
          exact ⟨pieces, htx, hpre, hres⟩
        · refine (btSessionClose_wp ht.sane).bind fun _ u hu =>
            ⟨hu.1.inv, [], ?_, List.nil_prefix, .inr ⟨rfl, Ne.symm hrest, hu.1.state⟩⟩
          rw [List.map_nil, List.append_nil]
          exact hu.2.trans haside.tx
      · next hpos =>
        have hn : n ≠ -1 := by
          rintro rfl
          exact hpos (by decide)
        refine wp.update ?_
        have htook : Inv { t with tx := t.tx ++ [(s.bt2.fd, rest.take n.toNat)] } := ⟨⟨ht.sane.owns, ht.sane.closed⟩,
          ht.idle, ht.waiting⟩
        refine (ih (rest.drop n.toNat) htook (hfuel hn)).mono fun r u hu => ⟨hu.1, ?_⟩
        exact hu.2.cons (by rw [← haside.tx]) haside.bt2

theorem btSend_wp (h : Inv s) (text : List UInt8) :
    wp (btSend text) (fun r t => Inv t ∧
      (s.bt2.state = .connected ∧ Sent s t text r ∨ s.bt2.state ≠ .connected ∧ r = -1 ∧ t = s)) s := by
  refine wp_read.2 ?_
  split
  · next hno =>
    have hstate : s.bt2.state ≠ .connected := by
      intro hst
      obtain ⟨hfd, -⟩ := h.waiting _ (by rw [hst]; rfl)
      exact hno.elim (fun hne => hne hst) fun hneg => absurd hneg (Int.not_lt.2 hfd)
    exact ⟨h, .inr ⟨hstate, rfl, rfl⟩⟩
  · next hyes =>
    simp only [not_or, Decidable.not_not] at hyes
    exact (sendLoop_wp _ text h (Nat.lt_succ_self _)).mono fun r t ht => ⟨ht.1, .inl ⟨hyes.1, ht.2⟩⟩

theorem cliCmdBtrfcomm_wp (h : Inv s) (c : Cmd) : wp (cliCmdBtrfcomm c) (fun _ t => Inv t) s := by
  cases c with
  | up => exact (btHciUp_wp s).mono fun _ _ ht => h.aside ht
  | discoverable on => exact (btDiscoverable_wp on s).mono fun _ _ ht => h.aside ht
  | listen channel => exact btListen_wp h channel
  | connect addr channel => exact btConnect_wp h addr channel
  | send words =>
    cases words with
    | nil => exact h
    | cons w ws =>
      simp only [cliCmdBtrfcomm]
      split
      · exact h
      · exact (btSend_wp h _).mono fun _ _ ht => ht.1
  | close => exact h.close_wp.bind fun _ _ ht => ht

/-- A registration that stands is the session's own. -/
theorem Inv.ready {reg : Reg Wait} (h : Inv s) (hreg : reg ∈ s.host.regs.held) :
    0 ≤ s.bt2.fd ∧ reg.fd = s.bt2.fd ∧ waits s.bt2.state = some reg.how := by
  have hev : s.bt2.ev = some reg := Option.mem_toList.1 (h.sane.owns.standing.mem_iff.1 hreg)
  cases hw : waits s.bt2.state with
  | none =>
    rw [(h.idle hw).2] at hev
    cases hev
  | some wait =>
    obtain ⟨hfd, n, heq⟩ := h.waiting wait hw
    rw [hev] at heq
    obtain rfl := Option.some.inj heq
    exact ⟨hfd, rfl, rfl⟩

theorem callback_wp {reg : Reg Wait} (h : Inv s) (hreg : reg ∈ s.host.regs.held) (ev : UInt32) :
    wp (callback reg ev) (fun _ t => Inv t) s := by
  obtain ⟨hfd, heq, -⟩ := h.ready hreg
  unfold callback
  split
  · exact btAcceptCb_wp h ev
  · exact btConnectCb_wp h (heq ▸ hfd) ev
  · exact btRxCb_wp h ev

theorem step_inv {turn : Turn} (h : Inv s) (hs : step s turn = some t) : Inv t := by
  have h' : Inv { s with host := { s.host with answers := turn.answers }, caller := turn.caller } :=
    ⟨⟨h.sane.owns.answer turn.answers, h.sane.closed⟩, h.idle, h.waiting⟩
  simp only [step] at hs
  split at hs
  · obtain rfl := Option.some.inj hs
    exact cliCmdBtrfcomm_wp h' _
  · split at hs
    · next reg ev _ hreg =>
      obtain rfl := Option.some.inj hs
      exact callback_wp h' hreg ev
    · cases hs

theorem btInit_inv : Inv btInit where
  sane := ⟨owns_empty, fun _ => rfl⟩
  idle _ := ⟨rfl, rfl⟩
  waiting _ h := nomatch h

/-- **After every run of commands and callbacks, whatever the kernel answers,
the session owns nothing, or one descriptor with the one registration its
state waits for. Nothing was closed or cancelled twice or closed while it was
registered. So the check that a callback is for the session's descriptor never
fails, and `bt_destroy` gives everything back.** -/
theorem run_session (turns : List Turn) (s : St) (hr : run step turns btInit = some s) :
    (s.bt2.state = .idle ∧ s.bt2.fd = -1 ∧ Owns s.host [] [] ∨
      ∃ n wait, waits s.bt2.state = some wait ∧ 0 ≤ s.bt2.fd ∧ Owns s.host [s.bt2.fd] [⟨n, s.bt2.fd, wait⟩]) ∧
      (∀ reg ∈ s.host.regs.held, reg.fd = s.bt2.fd) ∧ Owns (btSessionClose s).2.host [] [] := by
  have h : Inv s := run_inv (I := Inv) btInit_inv (fun _ _ _ h hs => step_inv h hs) hr
  have ho := h.sane.owns
  have hclosed : Idle (btSessionClose s).2 [] := (btSessionClose_wp h.sane).1
  refine ⟨?_, fun reg hreg => (h.ready hreg).2.1, hclosed.owns⟩
  cases hw : waits s.bt2.state with
  | none =>
    obtain ⟨hfd, hev⟩ := h.idle hw
    have hstate : s.bt2.state = .idle := by
      cases hst : s.bt2.state with
      | idle => rfl
      | _ => rw [hst] at hw; cases hw
    rw [Bt2.own, hfd, hev] at ho
    exact .inl ⟨hstate, hfd, ho⟩
  | some wait =>
    obtain ⟨hfd, n, hev⟩ := h.waiting wait hw
    rw [Bt2.own, if_pos hfd, hev] at ho
    exact .inr ⟨n, wait, rfl, hfd, ho⟩

theorem run_session_some : ∃ s, run step [⟨.cli (.listen 3), [4, 0, 4, 0, 5, 0, 0, 0, 0, 0], ([], 0)⟩] btInit = some s ∧
    ∃ reg, Owns s.host [s.bt2.fd] [reg] := by
  refine ⟨_, rfl, ?_⟩
  rcases (run_session [⟨.cli (.listen 3), [4, 0, 4, 0, 5, 0, 0, 0, 0, 0], ([], 0)⟩] _ rfl).1 with hidle | ⟨n, wait, -, -, ho⟩
  · exact absurd hidle.1 (by decide)
  · exact ⟨_, ho⟩

/-! ## Sending -/

/-- Words after the first. -/
theorem joinWords_rest (text : List UInt8) (words : List (List UInt8)) (htext : text.length < 512) :
    joinWords text false words =
      if (text ++ words.flatMap (32 :: ·)).length < 512 then some (text ++ words.flatMap (32 :: ·)) else none := by
  induction words generalizing text with
  | nil => simp [joinWords, htext]
  | cons w words ih =>
    have hall : text ++ (w :: words).flatMap (32 :: ·) = text ++ 32 :: w ++ words.flatMap (32 :: ·) := by simp
    simp only [joinWords, Bool.false_eq_true, if_false, List.singleton_append]
    rw [hall]
    split
    · next hlong =>
      rw [if_neg]
      rw [List.length_append, List.length_append]
      omega
    · next hfits =>
      refine ih (text ++ 32 :: w) ?_
      rw [List.length_append]
      omega

theorem intercalate_eq (w : List UInt8) (words : List (List UInt8)) :
    [32].intercalate (w :: words) = w ++ words.flatMap (32 :: ·) := by
  induction words generalizing w with
  | nil => simp
  | cons w' words ih =>
    rw [List.intercalate_cons_cons, ih, List.flatMap_cons, List.append_assoc]
    rfl

/-- The words with a blank between any two, if there is room. -/
theorem joinWords_eq {words : List (List UInt8)} (hne : words ≠ []) :
    joinWords [] true words = if ([32].intercalate words).length < 512 then some ([32].intercalate words) else none := by
  cases words with
  | nil => exact absurd rfl hne
  | cons w words =>
    rw [intercalate_eq]
    simp only [joinWords, if_true, List.nil_append, List.length_nil, Nat.sub_zero]
    split
    · next hlong =>
      rw [if_neg]
      rw [List.length_append]
      omega
    · next hfits => exact joinWords_rest w words (Nat.not_le.1 hfits)

/-- **`btrfcomm send` returns zero when the session is connected and the kernel
has taken the words with a blank between any two, in pieces, on the session's
descriptor. Otherwise it returns -1; then nothing was sent, or what was sent is
a beginning of the text, not all of it, and the session is closed.** -/
theorem run_send (turns : List Turn) (s : St) (hr : run step turns btInit = some s)
    (words : List (List UInt8)) (hne : words ≠ []) (answers : List Int) :
    let text := [32].intercalate words
    let out := cliCmdBtrfcomm (.send words) { s with host := { s.host with answers := answers } }
    ∃ pieces : List (List UInt8), out.2.tx = s.tx ++ pieces.map (s.bt2.fd, ·) ∧
      (out.1 = 0 ∧ s.bt2.state = .connected ∧ text.length < 512 ∧ pieces.flatten = text ∧ out.2.bt2 = s.bt2 ∨
        out.1 = -1 ∧ (512 ≤ text.length ∨ s.bt2.state ≠ .connected) ∧ pieces = [] ∧ out.2.bt2 = s.bt2 ∨
        out.1 = -1 ∧ s.bt2.state = .connected ∧ pieces.flatten <+: text ∧ pieces.flatten ≠ text ∧
        out.2.bt2.state = .idle) := by
  intro text out
  have h : Inv s := run_inv (I := Inv) btInit_inv (fun _ _ _ h hs => step_inv h hs) hr
  have h' : Inv { s with host := { s.host with answers := answers } } := ⟨⟨h.sane.owns.answer answers,
    h.sane.closed⟩, h.idle, h.waiting⟩
  obtain ⟨w, ws, rfl⟩ := List.exists_cons_of_ne_nil hne
  have hjoin := joinWords_eq hne
  by_cases hlen : text.length < 512
  · rw [if_pos hlen] at hjoin
    have hout : out = btSend text { s with host := { s.host with answers := answers } } := by
      simp only [out, cliCmdBtrfcomm, hjoin]
      rfl
    rw [hout]
    obtain ⟨-, hsend⟩ := btSend_wp h' text
    rcases hsend with ⟨hst, pieces, htx, hpre, hres⟩ | ⟨hst, hr, hsame⟩
    · refine ⟨pieces, htx, ?_⟩
      rcases hres with ⟨hr, hall, hbt2⟩ | ⟨hr, hpart, hidle⟩
      · exact .inl ⟨hr, hst, hlen, hall, hbt2⟩
      · exact .inr (.inr ⟨hr, hst, hpre, hpart, hidle⟩)
    · refine ⟨[], ?_, .inr (.inl ⟨hr, .inr hst, rfl, ?_⟩)⟩
      · rw [hsame, List.map_nil, List.append_nil]
      · rw [hsame]
  · rw [if_neg hlen] at hjoin
    have hout : out = ((-1 : Int), { s with host := { s.host with answers := answers } }) := by
      simp only [out, cliCmdBtrfcomm, hjoin]
      rfl
    refine ⟨[], ?_, .inr (.inl ⟨?_, .inl (Nat.not_lt.1 hlen), rfl, ?_⟩)⟩
    all_goals rw [hout]
    rw [List.map_nil, List.append_nil]

/-- A peer connects, and gets two words in two pieces, with an interruption in between. -/
theorem run_send_two : ∃ s, run step [⟨.cli (.listen 3), [4, 0, 4, 0, 5, 0, 0, 0, 0, 0], ([], 0)⟩,
      ⟨.ready ⟨0, 5, ⟨flagRead, infinite, .accept⟩⟩ flagRead, [6, 0, 0], ([1, 2, 3, 4, 5, 6], 3)⟩] btInit = some s ∧
    ∃ pieces : List (List UInt8),
      (cliCmdBtrfcomm (.send [[104, 105], [121]]) { s with host := { s.host with answers := [2, -4, 3] } }).2.tx =
        pieces.map ((6 : Int), ·) ∧
      pieces.flatten = [104, 105, 32, 121] := by
  refine ⟨_, rfl, ?_⟩
  obtain ⟨pieces, htx, hres⟩ := run_send [⟨.cli (.listen 3), [4, 0, 4, 0, 5, 0, 0, 0, 0, 0], ([], 0)⟩,
    ⟨.ready ⟨0, 5, ⟨flagRead, infinite, .accept⟩⟩ flagRead, [6, 0, 0], ([1, 2, 3, 4, 5, 6], 3)⟩] _ rfl
    [[104, 105], [121]] (by decide) [2, -4, 3]
  refine ⟨pieces, htx, ?_⟩
  rcases hres with ⟨-, -, -, hall, -⟩ | ⟨hr, -⟩ | ⟨hr, -⟩
  · exact hall
  all_goals exact absurd hr (by decide)

end AlgaeBp.Btrf
