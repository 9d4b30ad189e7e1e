import AlgaeBp.Ble.Sockets
/-!
# The three states of the peripheral

Between operations the peripheral is idle, advertises on a listening socket, or
serves one connection beside its listening socket. `Is s a` says what each of
these means for the fields, the open sockets and the registration; stopping and
the departure of a peer lead from any of them back to the first two.
-/
open StateWp

namespace AlgaeBp.Ble

open Att

/-! ## Shapes -/

inductive Shape where
  | idle
  | adv (listen : Int)
  | connected (listen conn : Int)

def Shape.fds : Shape → List Int
  | .idle => []
  | .adv listen => [listen]
  | .connected listen conn => [conn, listen]

def Shape.reg : Shape → Option (Int × Cb)
  | .idle => none
  | .adv listen => some (listen, .bleAcceptCb)
  | .connected _ conn => some (conn, .bleRxCb)

def Shape.evFd : Shape → Int
  | .idle => -1
  | .adv listen => listen
  | .connected _ conn => conn

def Shape.listenFd : Shape → Int
  | .idle => -1
  | .adv listen => listen
  | .connected listen _ => listen

def Shape.state : Shape → BleSt
  | .idle => .idle
  | .adv _ => .adv
  | .connected _ _ => .connected

def Shape.wanted : Shape → Bool
  | .idle => false
  | .adv _ => true
  | .connected _ _ => true

structure Is (s : Sys) (a : Shape) : Prop where
  holds : Holds s a.fds a.reg
  evFd : s.b.evFd = a.evFd
  listenFd : s.b.listenFd = a.listenFd
  state : s.b.state = a.state
  wanted : s.b.advWanted = a.wanted

/-- The sockets in the fields of the peripheral. -/
def slots (b : Ble2) : List Int :=
  (if 0 ≤ b.evFd ∧ b.evFd ≠ b.listenFd then [b.evFd] else []) ++ if 0 ≤ b.listenFd then [b.listenFd] else []

theorem Is.slots {s : Sys} {a : Shape} (h : Is s a) : slots s.b = a.fds := by
  have hb := h.holds.books
  unfold Ble.slots
  rw [h.evFd, h.listenFd]
  cases a with
  | idle => rfl
  | adv l =>
    have hl : 0 ≤ l := hb.nonneg (List.mem_singleton_self l)
    simp [Shape.evFd, Shape.listenFd, Shape.fds, hl]
  | connected l c =>
    have hc : 0 ≤ c := hb.nonneg List.mem_cons_self
    have hl : 0 ≤ l := hb.nonneg (List.mem_cons_of_mem c (List.mem_singleton_self l))
    have hne : c ≠ l := by simpa [Shape.fds] using hb.nodup
    simp [Shape.evFd, Shape.listenFd, Shape.fds, hl, hc, hne]

/-- A session is wanted just as long as there is a listening socket. -/
def Wanted (b : Ble2) : Prop := b.advWanted = false ∧ b.listenFd = -1 ∨ b.advWanted = true ∧ 0 ≤ b.listenFd

theorem Is.wantedOf {s : Sys} {a : Shape} (h : Is s a) : Wanted s.b := by
  have hb := h.holds.books
  unfold Wanted
  rw [h.wanted, h.listenFd]
  cases a with
  | idle => exact .inl ⟨rfl, rfl⟩
  | adv l => exact .inr ⟨rfl, hb.nonneg (List.mem_singleton_self l)⟩
  | connected l c => exact .inr ⟨rfl, hb.nonneg (List.mem_cons_of_mem c (List.mem_singleton_self l))⟩

/-! ## Registrations -/

/-- The stored value and the history are as before. -/
structure Kept (s t : Sys) : Prop where
  log : t.w.log = s.w.log
  next : s.w.next ≤ t.w.next
  value : t.b.value = s.b.value
  valueLen : t.b.valueLen = s.b.valueLen

theorem Kept.trans {s t u : Sys} (h : Kept s t) (h' : Kept t u) : Kept s u :=
  ⟨h'.log.trans h.log, h.next.trans h'.next, h'.value.trans h.value, h'.valueLen.trans h.valueLen⟩

theorem Same.kept {s t : Sys} (h : Same s t) : Kept s t := ⟨h.log, h.next, by rw [h.b], by rw [h.b]⟩

theorem Holds.setB {s : Sys} {fds : List Int} {reg : Option (Int × Cb)} (h : Holds s fds reg) {b : Ble2}
    (hev : b.ev = s.b.ev) : Holds { s with b := b } fds reg := by
  refine ⟨h.books, ?_⟩
  have := h.registered
  cases reg with
  | none => exact ⟨hev.trans this.1, this.2⟩
  | some r =>
    obtain ⟨k, hk, hr⟩ := this
    exact ⟨k, hev.trans hk, hr⟩

/-- The state without a registration. -/
def Sys.unregistered (s : Sys) : Sys := { b := { s.b with ev := none }, w := { s.w with regs := [] } }

theorem evconnCancel_wp {s : Sys} {fds : List Int} {reg : Option (Int × Cb)} (h : Holds s fds reg) :
    wp evconnCancel (fun _ t => t = s.unregistered ∧ Holds t fds none) s := by
  obtain ⟨hb, hr⟩ := h
  have hholds : Holds s.unregistered fds none := ⟨⟨hb.faultless, hb.fds, hb.distinct, hb.serials⟩, rfl, rfl⟩
  unfold evconnCancel
  refine wp_bind.2 ((wp_get _ _).2 ?_)
  cases reg with
  | none =>
    obtain ⟨hev, hregs⟩ := hr
    have hs : s = s.unregistered := by
      obtain ⟨b, w⟩ := s
      obtain ⟨sv, fd, ev, l, st, aw, ao⟩ := b
      simp only at hev hregs
      subst hev
      simp [Sys.unregistered, ← hregs]
    rw [hev]
    refine (wp_pure _ _ _).2 ⟨hs, ?_⟩
    rw [hs]
    exact hholds
  | some r =>
    obtain ⟨k, hev, hregs⟩ := hr
    rw [hev]
    refine wp_bind.2 ?_
    unfold evb2Cancel
    refine wp_bind.2 ((wp_get _ _).2 ?_)
    rw [hregs, if_pos (by simp)]
    suffices heq : ({ b := { s.b with ev := none }
                      w := { s.w with regs := s.w.regs.filter (fun r => decide (r.handle ≠ k)) } } : Sys) = s.unregistered by
      refine (wp_modify _ _ _).2 ?_
      refine (wp_modify _ _ _).2 ?_
      exact ⟨heq, heq ▸ hholds⟩
    unfold Sys.unregistered
    rw [hregs]
    simp

/-- After `ble_arm` there is the new registration, or none. -/
theorem bleArm_wp {s : Sys} {fds : List Int} {reg : Option (Int × Cb)} (h : Holds s fds reg) (fd : Int) (cb : Cb) :
    wp (bleArm fd cb) (fun ok t => (t.w.opened = s.w.opened ∧ t.w.log = s.w.log ∧ t.w.next = s.w.next) ∧
      (ok = true ∧ (∃ k, t.b = { s.b with evFd := fd, ev := some k }) ∧ Holds t fds (some (fd, cb)) ∨
        ok = false ∧ t.b = { s.b with evFd := -1, ev := none } ∧ Holds t fds none)) s := by
  refine (evconnCancel_wp h).bind ?_
  rintro - t ⟨rfl, ht⟩
  have hb := h.books
  unfold evb2AddFd
  refine wp_bind.2 ((wp_modify _ _ _).2 (wp_bind.2 (wp_bind.2 (succeeds_wp (fun ok => ?_)))))
  cases ok with
  | false => exact ⟨⟨rfl, rfl, rfl⟩, .inr ⟨rfl, rfl, ⟨hb.faultless, hb.fds, hb.distinct, hb.serials⟩, rfl, rfl⟩⟩
  | true =>
    exact ⟨⟨rfl, rfl, rfl⟩,
      .inl ⟨rfl, ⟨_, rfl⟩, ⟨hb.faultless, hb.fds, hb.distinct, hb.serials⟩, _, rfl, rfl⟩⟩

theorem bleAdvSet_wp {s : Sys} {fds : List Int} {reg : Option (Int × Cb)} (h : Holds s fds reg) (enable : Bool) :
    wp (bleAdvSet enable) (fun _ t => (∃ on, t.b = { s.b with advOn := on }) ∧ t.w.log = s.w.log ∧ s.w.next ≤ t.w.next ∧
      Holds t fds reg) s := by
  refine (bleHciBind_wp h).bind ?_
  rintro fd t ⟨hs, ⟨hneg, ht⟩ | ⟨hpos, ht⟩⟩
  · rw [if_pos hneg]
    exact ⟨⟨s.b.advOn, hs.b⟩, hs.log, hs.next, ht⟩
  rw [if_neg (Int.not_lt.2 hpos)]
  refine (quiet_advCmds enable t _ _ ht).bind (fun ok u hu => (sysClose_wp hu.2.2).bind (fun _ v hv => ?_))
  have hsv := (hs.trans hu.1).trans hv.1
  split
  · refine ⟨⟨enable, ?_⟩, hsv.log, hsv.next, hv.2.setB rfl⟩
    show { v.b with advOn := enable } = _
    rw [hsv.b]
  · exact ⟨⟨s.b.advOn, hsv.b⟩, hsv.log, hsv.next, hv.2⟩

/-! ## Stopping -/

theorem closeConn_wp {s : Sys} {reg : Option (Int × Cb)} (h : Holds s (slots s.b) reg) :
    wp closeConn (fun _ t => Same s t ∧ Holds t (if 0 ≤ s.b.listenFd then [s.b.listenFd] else []) reg) s := by
  unfold closeConn
  refine wp_bind.2 ((wp_get _ _).2 ?_)
  unfold slots at h
  dsimp only
  by_cases hc : 0 ≤ s.b.evFd ∧ s.b.evFd ≠ s.b.listenFd
  · rw [if_pos hc] at h
    rw [if_pos hc]
    exact sysClose_wp h
  · rw [if_neg hc] at h
    rw [if_neg hc]
    exact ⟨Same.refl s, h⟩

theorem closeListen_wp {s : Sys} {reg : Option (Int × Cb)}
    (h : Holds s (if 0 ≤ s.b.listenFd then [s.b.listenFd] else []) reg) (hlow : -1 ≤ s.b.listenFd) :
    wp closeListen (fun _ t => t.b = { s.b with listenFd := -1 } ∧ t.w.log = s.w.log ∧ s.w.next ≤ t.w.next ∧
      Holds t [] reg) s := by
  unfold closeListen
  refine wp_bind.2 ((wp_get _ _).2 ?_)
  dsimp only
  split
  case isTrue hl =>
    rw [if_pos hl] at h
    refine (sysClose_wp h).bind (fun _ t ht => (wp_modify _ _ _).2 ⟨?_, ht.1.log, ht.1.next, ht.2.setB rfl⟩)
    show { t.b with listenFd := -1 } = _
    rw [ht.1.b]
  case isFalse hl =>
    rw [if_neg hl] at h
    refine (wp_pure _ _ _).2 ⟨?_, rfl, le_rfl, h⟩
    have : s.b.listenFd = -1 := by omega
    rw [← this]

theorem bleStop_wp {s : Sys} {reg : Option (Int × Cb)} (h : Holds s (slots s.b) reg) (hlow : -1 ≤ s.b.listenFd) :
    wp bleStop (fun _ t => Kept s t ∧ Is t .idle) s := by
  unfold bleStop
  refine wp_bind.2 ((wp_get _ _).2 (wp_bind.2 ((wp_modify _ _ _).2 ?_)))
  have h₁ : Holds { s with b := { s.b with advWanted := false, advOn := false } } (slots s.b) reg := h.setB rfl
  refine (evconnCancel_wp h₁).bind ?_
  rintro - t₂ ⟨rfl, h₂⟩
  refine (closeConn_wp h₂).bind (fun _ t₃ ht₃ => wp_bind.2 ((wp_modify _ _ _).2 ?_))
  obtain ⟨hs₃, h₃⟩ := ht₃
  have hb₃ := hs₃.b
  have hl : t₃.b.listenFd = s.b.listenFd := by rw [hb₃]; rfl
  have h₄ : Holds { t₃ with b := { t₃.b with evFd := -1 } }
      (if 0 ≤ t₃.b.listenFd then [t₃.b.listenFd] else []) none := by
    rw [hl]
    exact h₃.setB rfl
  refine (closeListen_wp h₄ (by rw [hl]; exact hlow)).bind ?_
  rintro - t₅ ⟨hb₅, hlog₅, hn₅, h₅⟩
  refine wp_bind.2 ((wp_modify _ _ _).2 ?_)
  have hkept : Kept s { t₅ with b := { t₅.b with state := .idle, cccd := 0, mtu := attMtuDefault } } := by
    refine ⟨hlog₅.trans hs₃.log, hs₃.next.trans hn₅, ?_, ?_⟩
    · show t₅.b.value = _
      rw [hb₅, hb₃]
      rfl
    · show t₅.b.valueLen = _
      rw [hb₅, hb₃]
      rfl
  have his : Is { t₅ with b := { t₅.b with state := .idle, cccd := 0, mtu := attMtuDefault } } .idle := by
    refine ⟨h₅.setB rfl, ?_, ?_, rfl, ?_⟩
    · show t₅.b.evFd = _
      rw [hb₅]
      rfl
    · show t₅.b.listenFd = _
      rw [hb₅]
      rfl
    · show t₅.b.advWanted = _
      rw [hb₅, hb₃]
      rfl
  split
  · refine (bleAdvSet_wp his.holds false).bind ?_
    rintro ok u ⟨⟨on, hbu⟩, hlu, hnu, hu⟩
    refine (wp_pure _ _ _).2 ⟨hkept.trans ⟨hlu, hnu, by rw [hbu], by rw [hbu]⟩, hu, ?_, ?_, ?_, ?_⟩
    · rw [hbu]
      exact his.evFd
    · rw [hbu]
      exact his.listenFd
    · rw [hbu]
      rfl
    · rw [hbu]
      exact his.wanted
  · exact ⟨hkept, his⟩

theorem Is.stop_wp {s : Sys} {a : Shape} (h : Is s a) : wp bleStop (fun _ t => Kept s t ∧ Is t .idle) s := by
  apply bleStop_wp (h.slots ▸ h.holds)
  rcases h.wantedOf with ⟨-, hl⟩ | ⟨-, hl⟩ <;> omega

/-! ## Advertising -/

/-- With only the listening socket left, advertising starts or the peripheral is ready to stop. -/
theorem bleListenOn_wp {s : Sys} (h : Holds s [s.b.listenFd] none) :
    wp bleListenOn (fun ok t => Kept s t ∧
      ((ok = true ∧ Holds t [s.b.listenFd] (some (s.b.listenFd, .bleAcceptCb)) ∧ t.b.evFd = s.b.listenFd ∨
          ok = false ∧ Holds t [s.b.listenFd] none ∧ (t.b.evFd = -1 ∨ t.b.evFd = s.b.evFd)) ∧
        t.b.listenFd = s.b.listenFd ∧ t.b.advWanted = s.b.advWanted)) s := by
  unfold bleListenOn
  refine (bleAdvSet_wp h true).bind ?_
  rintro ok t ⟨⟨on, hb⟩, hlog, hn, ht⟩
  cases ok with
  | false =>
    refine (wp_pure _ _ _).2 ⟨⟨hlog, hn, by rw [hb], by rw [hb]⟩, .inr ⟨rfl, ht, .inr ?_⟩, ?_, ?_⟩
    all_goals rw [hb]
  | true =>
    refine wp_bind.2 ((wp_get _ _).2 ?_)
    have hl : t.b.listenFd = s.b.listenFd := by rw [hb]
    rw [hl]
    refine (bleArm_wp ht s.b.listenFd .bleAcceptCb).mono ?_
    rintro ok u ⟨⟨-, hlog', hn'⟩, ⟨rfl, ⟨k, hbu⟩, hu⟩ | ⟨rfl, hbu, hu⟩⟩
    · refine ⟨⟨hlog'.trans hlog, by omega, ?_, ?_⟩, .inl ⟨rfl, hu, ?_⟩, ?_, ?_⟩
      all_goals rw [hbu]
      all_goals rw [hb]
    · refine ⟨⟨hlog'.trans hlog, by omega, ?_, ?_⟩, .inr ⟨rfl, hu, .inl ?_⟩, ?_, ?_⟩
      all_goals rw [hbu]
      all_goals rw [hb]

/-- The slots of a peripheral that only listens. -/
theorem slots_listen {b : Ble2} (he : b.evFd = -1) : slots b = if 0 ≤ b.listenFd then [b.listenFd] else [] := by
  unfold slots
  rw [he, if_neg (by omega), List.nil_append]

/-- After a peer left the peripheral advertises again or is idle. -/
theorem blePeerLeft_wp {s : Sys} {reg : Option (Int × Cb)} (h : Holds s (slots s.b) reg) (hw : Wanted s.b) :
    wp blePeerLeft (fun _ t => Kept s t ∧ (Is t .idle ∨ ∃ l, Is t (.adv l))) s := by
  unfold blePeerLeft
  refine (evconnCancel_wp h).bind ?_
  rintro - t₁ ⟨rfl, h₁⟩
  refine (closeConn_wp h₁).bind (fun _ t₂ ht₂ => wp_bind.2 ((wp_modify _ _ _).2 (wp_bind.2 ((wp_get _ _).2 ?_))))
  obtain ⟨hs₂, h₂⟩ := ht₂
  have hb₂ : t₂.b = { s.b with ev := none } := hs₂.b
  have hk₂ : Kept s t₂ := ⟨hs₂.log, hs₂.next, by rw [hb₂], by rw [hb₂]⟩
  have hl : t₂.b.listenFd = s.b.listenFd := by rw [hb₂]
  have haw : t₂.b.advWanted = s.b.advWanted := by rw [hb₂]
  generalize ht₃ :
    ({ t₂ with b := { t₂.b with evFd := -1, cccd := 0, mtu := attMtuDefault, advOn := false, state := .idle } } : Sys) = t₃
  have hk₃ : Kept s t₃ := by
    subst ht₃
    exact ⟨hk₂.log, hk₂.next, hk₂.value, hk₂.valueLen⟩
  have h₃ : Holds t₃ (if 0 ≤ s.b.listenFd then [s.b.listenFd] else []) none := by
    subst ht₃
    exact h₂.setB rfl
  obtain ⟨hl₃, haw₃, he₃, hst₃⟩ : t₃.b.listenFd = s.b.listenFd ∧ t₃.b.advWanted = s.b.advWanted ∧ t₃.b.evFd = -1 ∧
      t₃.b.state = .idle := by
    subst ht₃
    exact ⟨hl, haw, rfl, rfl⟩
  dsimp only
  rcases hw with ⟨haf, hno⟩ | ⟨hat, hpos⟩
  · rw [if_pos (.inl (haw₃.trans haf))]
    refine ⟨hk₃, .inl ⟨?_, he₃, hl₃.trans hno, hst₃, haw₃.trans haf⟩⟩
    rw [hno, if_neg (by decide)] at h₃
    exact h₃
  · rw [if_neg (by rw [haw₃, hl₃, hat]; simp; exact hpos)]
    rw [if_pos hpos, ← hl₃] at h₃
    refine (bleListenOn_wp h₃).bind ?_
    rintro ok t₄ ⟨hk₄, hcase, hl₄, haw₄⟩
    rcases hcase with ⟨rfl, h₄, he₄⟩ | ⟨rfl, h₄, he₄⟩
    · refine (wp_modify _ _ _).2 ⟨hk₃.trans ⟨hk₄.log, hk₄.next, hk₄.value, hk₄.valueLen⟩, .inr ⟨t₃.b.listenFd, ?_⟩⟩
      exact ⟨h₄.setB rfl, he₄, hl₄, rfl, (haw₄.trans haw₃).trans hat⟩
    · have he : t₄.b.evFd = -1 := by
        rcases he₄ with he₄ | he₄
        · exact he₄
        · rw [he₄, he₃]
      have hstop : Holds t₄ (slots t₄.b) none := by
        rw [slots_listen he, hl₄, if_pos (by omega)]
        exact h₄
      exact (bleStop_wp hstop (by omega)).mono (fun _ u hu => ⟨(hk₃.trans hk₄).trans hu.1, .inl hu.2⟩)

theorem Is.left_wp {s : Sys} {a : Shape} (h : Is s a) :
    wp blePeerLeft (fun _ t => Kept s t ∧ (Is t .idle ∨ ∃ l, Is t (.adv l))) s :=
  blePeerLeft_wp (h.slots ▸ h.holds) h.wantedOf

end AlgaeBp.Ble
