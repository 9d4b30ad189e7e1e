import AlgaeBp.Ble.History
/-!
# Theorems about the BLE peripheral

Each operation leads from one of the three states to one of them, whatever
fails on the way, so this holds after every run. From it: no socket is lost or
closed twice, and only a subscribed peer is notified.
-/
open Bytes StateWp

namespace AlgaeBp.Ble

open Att

/-! ## Receiving -/

theorem Holds.logged {s : Sys} {fds : List Int} {reg : Option (Int × Cb)} (h : Holds s fds reg) (log : List Event) :
    Holds { s with w := { s.w with log := log } } fds reg := by
  have hb := h.books
  refine ⟨⟨hb.faultless, hb.fds, hb.distinct, hb.serials⟩, ?_⟩
  have := h.registered
  cases reg with
  | none => exact this
  | some r => exact this

theorem record_wp {s : Sys} {fd : Int} {event : Nat → Event} {k : Sock} (hk : s.w.sockOf fd = some k)
    {Q : Unit → Sys → Prop} (h : Q () { s with w := { s.w with log := event k.serial :: s.w.log } }) :
    wp (record fd event) Q s := by
  unfold record
  refine wp_bind.2 ((wp_get _ _).2 ?_)
  rw [hk]
  exact h

theorem bleTx_wp {s : Sys} {fd : Int} {pdu : List UInt8} {k : Sock} (hk : s.w.sockOf fd = some k)
    {Q : Bool → Sys → Prop} (h₀ : Q true s) (h : ∀ ok, Q ok s.tick) : wp (bleTx fd pdu) Q s := by
  unfold bleTx
  split
  · exact h₀
  · unfold sysSend
    refine wp_bind.2 ((wp_get _ _).2 ?_)
    rw [hk]
    exact succeeds_wp h

theorem Inv.tick {s : Sys} {a : Shape} (h : Inv s a) : Inv s.tick a := h.same (Same.tick s) rfl h.is.holds.tick

/-- The state after a received PDU and its effect on the server. -/
def Sys.after (s : Sys) (server : Server) (event : Event) : Sys :=
  { b := { s.b with toServer := server }, w := { s.w with log := event :: s.w.log } }

/-- A PDU keeps the invariant. -/
theorem Inv.received {s : Sys} {l c : Int} (h : Inv s (.connected l c)) {k : Sock} (hk : s.w.sockOf c = some k)
    {pdu bytes : List UInt8} {server : Server} (hs : Sends (attOnPdu 12 s.b.toServer pdu s.w.stack) server bytes) :
    Inv (s.after server (.received k.serial pdu)) (.connected l c) := by
  obtain ⟨hcccd, hmtu, hok⟩ := attOnPdu_settings le_rfl h.value hs
  obtain ⟨k', hk', hacc, hc, hm⟩ := h.peer
  obtain rfl : k = k' := Option.some.inj (hk.symm.trans hk')
  have hi := h.is
  have hholds : Holds (s.after server (.received k.serial pdu)) _ _ := (hi.holds.logged _).setB rfl
  refine ⟨⟨hholds, hi.evFd, hi.listenFd, hi.state, hi.wanted⟩, hok, h.sound.cons (by simp), k, hk,
    List.mem_cons_of_mem _ hacc, ?_, ?_⟩
  · show server.cccd = (latestCccd k.serial (.received k.serial pdu :: s.w.log)).getD 0
    rw [hcccd, hc, latestCccd_received]
    cases cccdWrite pdu with
    | none => rfl
    | some v => rfl
  · show server.mtu = connMtu k.serial (.received k.serial pdu :: s.w.log)
    rw [hmtu, hm, connMtu_received]

theorem rxLoop_wp {c : Int} (recvs : List Recv) {s : Sys} {l : Int} (h : Inv s (.connected l c)) :
    wp (rxLoop c recvs) (fun _ t => ∃ a, Inv t a) s := by
  -- while the connection stands every round starts as the first
  induction recvs generalizing s with
  | nil => exact ⟨_, h⟩
  | cons r rest ih =>
    cases r with
    | eintr => exact ih h
    | eagain => exact ⟨_, h⟩
    | failed => exact h.left_wp
    | data bytes =>
      unfold rxLoop
      dsimp only
      split
      · exact h.left_wp
      · obtain ⟨k, hk, -⟩ := h.peer
        refine wp_bind.2 (record_wp hk (wp_bind.2 ((wp_get _ _).2 ?_)))
        obtain ⟨server, out, hs, -, -⟩ := attOnPdu_answers le_rfl h.value (bytes.take rxMax) s.w.stack
        have hafter := h.received hk hs
        obtain ⟨r, hr, hserver, -, hbytes⟩ := hs
        dsimp only
        rw [hr]
        refine wp_bind.2 ((wp_modify _ _ _).2 ?_)
        rw [hserver, hbytes]
        have hk' : (s.after server (.received k.serial (bytes.take rxMax))).w.sockOf c = some k := hk
        refine wp_bind.2 (bleTx_wp hk' (ih hafter) (fun ok => ?_))
        cases ok with
        | true => exact ih hafter.tick
        | false => exact hafter.tick.left_wp

/-! ## Accepting -/

theorem Is.listen_nonneg {s : Sys} {l : Int} (h : Is s (.adv l)) : 0 ≤ l :=
  h.holds.books.nonneg (List.mem_singleton_self l)

/-- The connection `k` was accepted on `l` and is not registered yet. -/
structure Accepted (s : Sys) (l : Int) (k : Sock) : Prop where
  holds : Holds s [k.fd, l] (some (l, .bleAcceptCb))
  opened : s.w.opened.head? = some k
  log : ∃ log, s.w.log = .accepted k.serial :: log
  sound : Sound s.w.log
  listenFd : s.b.listenFd = l
  wanted : s.b.advWanted = true
  state : s.b.state = .connected
  cccd : s.b.cccd = 0
  mtu : s.b.mtu = attMtuDefault
  value : s.b.toServer.Ok

/-- `ble_arm` has registered the connection. -/
theorem Accepted.armed {s t : Sys} {l : Int} {k : Sock} (h : Accepted s l k) {ev : Nat}
    (hb : t.b = { s.b with evFd := k.fd, ev := some ev }) (ht : Holds t [k.fd, l] (some (k.fd, .bleRxCb)))
    (hopened : t.w.opened = s.w.opened) (hlog : t.w.log = s.w.log) : Inv t (.connected l k.fd) := by
  obtain ⟨log, hacc⟩ := h.log
  refine ⟨⟨ht, ?_, ?_, ?_, ?_⟩, ?_, ?_, k, ?_, ?_, ?_, ?_⟩
  · rw [hb]
    rfl
  · rw [hb]
    exact h.listenFd
  · rw [hb]
    exact h.state
  · rw [hb]
    exact h.wanted
  · rw [hb]
    exact h.value
  · rw [hlog]
    exact h.sound
  · obtain ⟨rest, hrest⟩ := List.head?_eq_some_iff.1 h.opened
    unfold World.sockOf
    rw [hopened, hrest]
    exact List.find?_cons_of_pos (by simp)
  · rw [hlog, hacc]
    exact List.mem_cons_self
  · rw [hb, hlog, hacc, latestCccd, pdus_accepted]
    exact h.cccd
  · rw [hb, hlog, hacc, connMtu, pdus_accepted]
    exact h.mtu

/-- `ble_arm` has failed: the connection is closed as if its peer had left. -/
theorem Accepted.unarmed_wp {s t : Sys} {l : Int} {k : Sock} (h : Accepted s l k)
    (hb : t.b = { s.b with evFd := -1, ev := none }) (ht : Holds t [k.fd, l] none) (hlog : t.w.log = s.w.log) :
    wp (do sysClose k.fd; blePeerLeft) (fun _ t => ∃ a, Inv t a) t := by
  have hl : 0 ≤ l := h.holds.books.nonneg (List.mem_cons_of_mem _ (List.mem_singleton_self l))
  refine (sysClose_wp ht).bind (fun _ u hu => ?_)
  obtain ⟨hsame, hholds⟩ := hu
  have hbu : u.b = { s.b with evFd := -1, ev := none } := hsame.b.trans hb
  have hlu : u.b.listenFd = l := by
    rw [hbu]
    exact h.listenFd
  have hslots : slots u.b = [l] := by
    rw [slots_listen (by rw [hbu]), hlu, if_pos hl]
  have hw : Wanted u.b := .inr ⟨by rw [hbu]; exact h.wanted, by rw [hlu]; exact hl⟩
  refine (blePeerLeft_wp (by rw [hslots]; exact hholds) hw).mono (fun _ x hx => ?_)
  refine hx.1.inv ?_ ?_ hx.2
  · rw [hbu]
    exact h.value
  · rw [hsame.log, hlog]
    exact h.sound

theorem bleAcceptCb_wp {s : Sys} {l : Int} (h : Inv s (.adv l)) (read : Bool) :
    wp (bleAcceptCb l read) (fun _ t => ∃ a, Inv t a) s := by
  have hi := h.is
  unfold bleAcceptCb
  refine wp_bind.2 ((wp_get _ _).2 ?_)
  have hev : s.b.evFd = l := hi.evFd
  rw [if_neg (not_not.2 hev)]
  split
  · exact ⟨_, h⟩
  refine wp_bind.2 ?_
  unfold sysAccept
  refine (sysSocket_wp hi.holds).bind ?_
  rintro conn t ⟨hs, ⟨hneg, rfl⟩ | ⟨n, rfl, ht, hh⟩⟩
  · rw [if_pos hneg]
    exact ⟨_, h.tick⟩
  rw [if_neg (fd_of_nat _)]
  refine wp_bind.2 ((wp_modify _ _ _).2 ((wp_pure _ _ _).2 ?_))
  rw [if_neg (fd_of_nat _)]
  refine wp_bind.2 ((wp_modify _ _ _).2 ?_)
  subst ht
  -- the new socket has the serial number the history names
  have hserial : (s.tick.w.newSock n).next - 1 = s.w.next := Nat.add_sub_cancel ..
  dsimp only
  rw [hserial]
  generalize ht : (Sys.mk _ _) = t
  have hacc : Accepted t l ⟨s.w.freeFd n, s.w.next⟩ := by
    subst ht
    exact {
      holds := (hh.logged _).setB rfl
      opened := rfl
      log := ⟨s.w.log, rfl⟩
      sound := h.sound.cons (by simp)
      listenFd := hi.listenFd
      wanted := hi.wanted
      state := rfl
      cccd := rfl
      mtu := rfl
      value := h.value }
  refine (bleArm_wp hacc.holds _ _).bind ?_
  rintro ok u ⟨⟨hou, hlu, -⟩, ⟨rfl, ⟨k, hbu⟩, hu⟩ | ⟨rfl, hbu, hu⟩⟩
  · exact ⟨_, hacc.armed hbu hu hou hlu⟩
  · exact hacc.unarmed_wp hbu hu hlu

/-! ## Advertising -/

theorem bleListenOpen_wp {s : Sys} (h : Inv s .idle) :
    wp bleListenOpen (fun ok t => (ok = false ∧ Inv t .idle) ∨ (ok = true ∧ Kept s t ∧ 0 ≤ t.b.listenFd ∧
      Holds t [t.b.listenFd] none ∧ t.b.evFd = -1)) s := by
  have hi := h.is
  unfold bleListenOpen
  refine (sysSocket_wp hi.holds).bind ?_
  rintro fd t ⟨hs, ⟨hneg, rfl⟩ | ⟨n, rfl, heq, ht⟩⟩
  · rw [if_pos hneg]
    exact .inl ⟨rfl, h.tick⟩
  rw [if_neg (fd_of_nat _)]
  refine (quiet_allSucceed 4 t _ _ ht).bind (fun ok u hu => ?_)
  have hsu := hs.trans hu.1
  cases ok with
  | true =>
    refine .inr ⟨rfl, ⟨hsu.log, hsu.next, ?_, ?_⟩, Int.natCast_nonneg _, hu.2.2.setB rfl, ?_⟩
    · show u.b.value = _
      rw [hsu.b]
    · show u.b.valueLen = _
      rw [hsu.b]
    · show u.b.evFd = _
      rw [hsu.b]
      exact hi.evFd
  | false =>
    refine (sysClose_wp hu.2.2).bind (fun _ v hv => .inl ⟨rfl, ?_⟩)
    have hsv := hsu.trans hv.1
    refine ⟨⟨hv.2, ?_, ?_, ?_, ?_⟩, hsv.kept.ok h.value, ?_, trivial⟩
    · exact (congrArg Ble2.evFd hsv.b).trans hi.evFd
    · exact (congrArg Ble2.listenFd hsv.b).trans hi.listenFd
    · exact (congrArg Ble2.state hsv.b).trans hi.state
    · exact (congrArg Ble2.advWanted hsv.b).trans hi.wanted
    · exact hsv.log ▸ h.sound

theorem bleAdvertiseOn_wp {s : Sys} (h : Inv s .idle) : wp bleAdvertiseOn (fun _ t => ∃ a, Inv t a) s := by
  unfold bleAdvertiseOn
  refine (h.quiet_wp quiet_bleHciUp).bind (fun ok t ht => ?_)
  cases ok with
  | false => exact ⟨_, ht⟩
  | true =>
    refine (bleListenOpen_wp ht).bind ?_
    rintro ok u (⟨rfl, hu⟩ | ⟨rfl, hk, hpos, hh, he⟩)
    · exact ⟨_, hu⟩
    refine wp_bind.2 ((wp_modify _ _ _).2 ?_)
    have hon : Holds { u with b := { u.b with advWanted := true } } [u.b.listenFd] none := hh.setB rfl
    refine (bleListenOn_wp hon).bind ?_
    rintro ok v ⟨hkv, hcase, hlv, hwv⟩
    have hk' : Kept t v := hk.trans ⟨hkv.log, hkv.next, hkv.value, hkv.valueLen⟩
    rcases hcase with ⟨rfl, hv, hev⟩ | ⟨rfl, hv, hev⟩
    · refine wp_bind.2 ((wp_modify _ _ _).2 ?_)
      have hinv : Inv { v with b := { v.b with state := .adv } } (.adv u.b.listenFd) := by
        refine ⟨⟨hv.setB rfl, hev, hlv, rfl, hwv⟩, hk'.ok ht.value, ?_, trivial⟩
        show Sound v.w.log
        rw [hk'.log]
        exact ht.sound
      exact (hinv.quiet_wp quiet_bleHciAddr).bind (fun _ x hx => ⟨_, hx⟩)
    · have hev' : v.b.evFd = -1 := by
        rcases hev with hev | hev
        · exact hev
        · exact hev.trans he
      have hlv' : v.b.listenFd = u.b.listenFd := hlv
      have hslots : Holds v (slots v.b) none := by
        rw [slots_listen hev', hlv', if_pos hpos]
        exact hv
      refine (bleStop_wp hslots (by omega)).bind (fun _ x hx => ?_)
      exact (hk'.trans hx.1).inv ht.value ht.sound (.inl hx.2)

theorem bleAdvertise_wp {s : Sys} {a : Shape} (h : Inv s a) (on : Bool) :
    wp (bleAdvertise on) (fun _ t => ∃ a, Inv t a) s := by
  unfold bleAdvertise
  cases on with
  | false => exact h.stop_wp.bind (fun _ t ht => ⟨_, ht⟩)
  | true =>
    refine wp_bind.2 ((wp_get _ _).2 ?_)
    by_cases hst : s.b.state ≠ .idle
    · rw [if_pos hst]
      exact h.stop_wp.bind (fun _ t ht => bleAdvertiseOn_wp ht)
    · rw [if_neg hst]
      have hidle := h.is.state.symm.trans (not_not.1 hst)
      cases a with
      | idle => exact bleAdvertiseOn_wp h
      | adv l => simp [Shape.state] at hidle
      | connected l c => simp [Shape.state] at hidle

/-! ## Notifying -/

/-- A Read request for the characteristic value of the moment. -/
theorem read_value {b : Server} (hb : b.Ok) (hmtu : b.current.length < b.attMtu) (rounds : Nat) (rsp : Rsp) :
    Sends (attOnPdu rounds b ([0x0a] ++ le16 9) rsp) b ([0x0b] ++ b.current) := by
  have hread := read_sends rounds hb rsp
  rw [List.take_of_length_le (by omega)] at hread
  exact hread

theorem length_nfyPdu (text : List UInt8) : (nfyPdu text).length = text.length + 3 := by
  simp [nfyPdu, le16]

/-- The state in which `ble_notify` sends. -/
def Sys.notifying (s : Sys) (value : Block bleValueMax) (text : List UInt8) : Sys :=
  { s with b := { s.b with value := value, valueLen := UInt16.ofNat text.length } }

theorem Inv.due {s : Sys} {l c : Int} (h : Inv s (.connected l c)) {k : Sock} (hk : s.w.sockOf c = some k)
    (hsub : ¬ s.b.cccd &&& 1 = 0) {text : List UInt8} (hmax : ¬ (text.length : Int) > notifyMax s.b)
    {value : Block bleValueMax} (hv : s.b.value.store 0 text = some value) :
    Due k.serial (nfyPdu text) (s.notifying value text).b.toServer s.w.log ∧ (s.notifying value text).b.toServer.Ok := by
  obtain ⟨k', hk', hacc, hc, hm⟩ := h.peer
  obtain rfl : k = k' := Option.some.inj (hk.symm.trans hk')
  have h64 : bleValueMax = 64 := rfl
  have hlen : (text.length : Int) ≤ s.b.mtu.toNat - 3 ∧ text.length ≤ 64 := by
    unfold notifyMax at hmax
    omega
  have htoNat : (UInt16.ofNat text.length).toNat = text.length := by
    rw [UInt16.toNat_ofNat', Nat.mod_eq_of_lt (by omega)]
  have hok : (s.notifying value text).b.toServer.Ok := by
    show (UInt16.ofNat text.length).toNat ≤ bleValueMax
    omega
  have hcur : (s.notifying value text).b.toServer.current = text := by
    obtain ⟨q, hq, hb⟩ := store_some (p := s.b.value) (by omega : 0 + text.length ≤ bleValueMax)
    obtain rfl := Option.some.inj (hv.symm.trans hq)
    show value.bytes.take (UInt16.ofNat text.length).toNat = text
    rw [htoNat]
    have := take_store (by omega) hb
    simpa using this
  refine ⟨⟨hacc, ?_, ?_, text, rfl, ?_⟩, hok⟩
  · cases hl : latestCccd k.serial s.w.log with
    | none =>
      rw [hl] at hc
      exact absurd (by rw [hc]; rfl) hsub
    | some v =>
      rw [hl] at hc
      exact ⟨v, rfl, by rw [← show s.b.cccd = v from hc]; exact hsub⟩
  · rw [← hm]
    rw [length_nfyPdu]
    omega
  · intro rounds rsp
    have := read_value hok (by rw [hcur]; rw [attMtu_eq]; show _ < max 23 (min s.b.mtu.toNat 128); omega) rounds rsp
    rwa [hcur] at this

theorem Inv.notified {s : Sys} {l c : Int} (h : Inv s (.connected l c)) {k : Sock} (hk : s.w.sockOf c = some k)
    {server : Server} {pdu : List UInt8} (hdue : Due k.serial pdu server s.w.log) (hok : server.Ok)
    (hcccd : server.cccd = s.b.cccd) (hmtu : server.mtu = s.b.mtu) :
    Inv (s.after server (.notified k.serial pdu server)) (.connected l c) := by
  obtain ⟨k', hk', hacc, hc, hm⟩ := h.peer
  obtain rfl : k = k' := Option.some.inj (hk.symm.trans hk')
  have hi := h.is
  have hholds : Holds (s.after server (.notified k.serial pdu server)) _ _ := (hi.holds.logged _).setB rfl
  refine ⟨⟨hholds, hi.evFd, hi.listenFd, hi.state, hi.wanted⟩, hok, h.sound.cons ?_, k, hk,
    List.mem_cons_of_mem _ hacc, ?_, ?_⟩
  · intro conn pdu' server' he
    obtain ⟨rfl, rfl, rfl⟩ := Event.notified.inj he
    exact hdue
  · show server.cccd = (latestCccd k.serial (.notified k.serial pdu server :: s.w.log)).getD 0
    rw [latestCccd, pdus_notified, hcccd]
    exact hc
  · show server.mtu = connMtu k.serial (.notified k.serial pdu server :: s.w.log)
    rw [connMtu, pdus_notified, hmtu]
    exact hm

/-- A notification keeps the invariant; if it succeeds it is the last event. -/
theorem bleNotify_wp {s : Sys} {a : Shape} (h : Inv s a) (text : List UInt8) :
    wp (bleNotify text) (fun ok t => (∃ a, Inv t a) ∧
      (ok = true → ∃ conn, t.w.log = .notified conn (nfyPdu text) t.b.toServer :: s.w.log)) s := by
  unfold bleNotify
  refine wp_bind.2 ((wp_get _ _).2 ?_)
  dsimp only
  split
  · exact (wp_pure _ _ _).2 ⟨⟨_, h⟩, by simp⟩
  rename_i hst
  split
  · exact (wp_pure _ _ _).2 ⟨⟨_, h⟩, by simp⟩
  rename_i hsub
  split
  · exact (wp_pure _ _ _).2 ⟨⟨_, h⟩, by simp⟩
  rename_i hmax
  have h64 : bleValueMax = 64 := rfl
  have hfit : 0 + text.length ≤ bleValueMax := by
    unfold notifyMax at hmax
    omega
  obtain ⟨value, hv, -⟩ := store_some (p := s.b.value) hfit
  rw [hv]
  cases a with
  | idle => exact absurd (.inl (by rw [h.is.state]; simp [Shape.state])) hst
  | adv l => exact absurd (.inl (by rw [h.is.state]; simp [Shape.state])) hst
  | connected l c =>
    obtain rfl : s.b.evFd = c := h.is.evFd
    obtain ⟨k, hk, -⟩ := h.peer
    obtain ⟨hdue, hok⟩ := h.due hk hsub hmax hv
    have hinv := h.notified hk hdue hok rfl rfl
    refine wp_bind.2 ((wp_modify _ _ _).2 (wp_bind.2 ((wp_get _ _).2 (wp_bind.2 ?_))))
    have hkn : (s.notifying value text).w.sockOf (s.notifying value text).b.evFd = some k := hk
    refine record_wp hkn ?_
    have hkt : (s.after (s.notifying value text).b.toServer
        (.notified k.serial (nfyPdu text) (s.notifying value text).b.toServer)).w.sockOf s.b.evFd = some k := hk
    refine wp_bind.2 (bleTx_wp hkt ?_ (fun ok => ?_))
    · exact (wp_pure _ _ _).2 ⟨⟨_, hinv⟩, fun _ => ⟨k.serial, rfl⟩⟩
    · cases ok with
      | true => exact (wp_pure _ _ _).2 ⟨⟨_, hinv.tick⟩, fun _ => ⟨k.serial, rfl⟩⟩
      | false => exact hinv.tick.left_wp.bind (fun _ u hu => (wp_pure _ _ _).2 ⟨hu, by simp⟩)

/-! ## Every operation -/

theorem dispatch_wp {s : Sys} {a : Shape} (h : Inv s a) {r : Reg} (hr : r ∈ s.w.regs) (read : Bool) (recvs : List Recv) :
    wp (dispatch r read recvs) (fun _ t => ∃ a, Inv t a) s := by
  have hreg := h.is.holds.registered
  cases a with
  | idle =>
    rw [hreg.2] at hr
    simp at hr
  | adv l =>
    obtain ⟨k, -, hregs⟩ := hreg
    rw [hregs] at hr
    obtain rfl := List.mem_singleton.1 hr
    exact bleAcceptCb_wp h read
  | connected l c =>
    obtain ⟨k, -, hregs⟩ := hreg
    rw [hregs] at hr
    obtain rfl := List.mem_singleton.1 hr
    have hev : s.b.evFd = c := h.is.evFd
    show wp (bleRxCb c read recvs) _ s
    unfold bleRxCb
    refine wp_bind.2 ((wp_get _ _).2 ?_)
    rw [if_neg (not_not.2 hev)]
    split
    · exact (wp_pure _ _ _).2 ⟨_, h⟩
    · exact rxLoop_wp recvs h

/-- One operation, whatever its system calls return. -/
theorem run_wp {s : Sys} {a : Shape} (h : Inv s a) (op : Op) : wp op.run (fun _ t => ∃ a, Inv t a) s := by
  cases op with
  | up => exact (h.quiet_wp quiet_bleHciUp).mono (fun _ t ht => ⟨_, ht⟩)
  | advertise on => exact bleAdvertise_wp h on
  | event handle read recvs =>
    unfold Op.run
    refine wp_bind.2 ((wp_get _ _).2 ?_)
    cases hf : s.w.regs.find? (fun r => decide (r.handle = handle)) with
    | none => exact (wp_pure _ _ _).2 ⟨_, h⟩
    | some r => exact (dispatch_wp h (List.mem_of_find?_eq_some hf) read recvs).bind (fun _ t ht => (wp_pure _ _ _).2 ht)
  | notify text => exact (bleNotify_wp h text).mono (fun _ t ht => ht.1)
  | peerLeft => exact h.left_wp.bind (fun _ t ht => (wp_pure _ _ _).2 ht)

theorem init_inv (answers : Nat → Nat) (stack : Rsp) : Inv (init answers stack) .idle := by
  refine ⟨⟨⟨⟨rfl, ?_, List.nodup_nil, ?_⟩, rfl, rfl⟩, rfl, rfl, rfl, rfl⟩, Nat.zero_le _, sound_nil, trivial⟩
  · exact List.Perm.refl _
  · exact List.Perm.refl _

theorem runOps_inv (ops : List Op) {s : Sys} {a : Shape} (h : Inv s a) : ∃ a, Inv (runOps ops s) a := by
  induction ops generalizing s a with
  | nil => exact ⟨a, h⟩
  | cons op ops ih =>
    obtain ⟨a', h'⟩ := run_wp h op
    exact ih h'

/-! ## Main results -/

/-- Each socket so far is open, or was closed once. -/
theorem Books.open_or_closed {w : World} {fds : List Int} (h : Books w fds) {n : Nat} (hn : n < w.next) :
    (∃ k ∈ w.opened, k.serial = n ∧ fds.count (k.fd : Int) = 1) ∧ w.closed.count n = 0 ∨
      (∀ k ∈ w.opened, k.serial ≠ n) ∧ w.closed.count n = 1 := by
  have hone : (w.opened.map Sock.serial).count n + w.closed.count n = 1 := by
    rw [← List.count_append, h.serials.count_eq, List.count_eq_one_of_mem List.nodup_range (List.mem_range.2 hn)]
  by_cases hmem : n ∈ w.opened.map Sock.serial
  · obtain ⟨k, hk, hs⟩ := List.mem_map.1 hmem
    have hpos := List.count_pos_iff.2 hmem
    refine .inl ⟨⟨k, hk, hs, ?_⟩, by omega⟩
    exact List.count_eq_one_of_mem h.nodup (h.fds.mem_iff.1 (List.mem_map_of_mem hk))
  · have hzero := List.count_eq_zero.2 hmem
    exact .inr ⟨fun k hk hs => hmem (hs ▸ List.mem_map_of_mem hk), by omega⟩

/-- What holds between operations: the fields tell the state, a watched
descriptor has its registration, every socket ever opened is in one slot or was
closed once, and nothing was closed or cancelled that was not there. -/
structure Consistent (s : Sys) : Prop where
  idle : s.b.state = .idle ↔ s.b.listenFd = -1 ∧ s.b.evFd = -1
  adv : s.b.state = .adv ↔ s.b.evFd = s.b.listenFd ∧ 0 ≤ s.b.listenFd
  connected : s.b.state = .connected ↔
    0 ≤ s.b.listenFd ∧ (∃ k ∈ s.w.opened, (k.fd : Int) = s.b.evFd) ∧ s.b.evFd ≠ s.b.listenFd
  wanted : s.b.advWanted = true ↔ 0 ≤ s.b.listenFd
  registered : 0 ≤ s.b.evFd → ∃ h cb, s.b.ev = some h ∧ ⟨h, s.b.evFd, cb⟩ ∈ s.w.regs
  sockets : ∀ n < s.w.next,
    (∃ k ∈ s.w.opened, k.serial = n ∧ (slots s.b).count (k.fd : Int) = 1) ∧ s.w.closed.count n = 0 ∨
      (∀ k ∈ s.w.opened, k.serial ≠ n) ∧ s.w.closed.count n = 1
  faultless : s.w.fault = false

theorem Is.consistent {s : Sys} {a : Shape} (h : Is s a) : Consistent s := by
  have hb := h.holds.books
  have hreg := h.holds.registered
  have hsockets := fun n (hn : n < s.w.next) => hb.open_or_closed hn
  rw [← h.slots] at hsockets
  have he := h.evFd
  have hl := h.listenFd
  have hs := h.state
  have hw := h.wanted
  cases a with
  | idle =>
    refine ⟨?_, ?_, ?_, ?_, ?_, hsockets, hb.faultless⟩
    all_goals simp [he, hs, hl, hw, Shape.state, Shape.listenFd, Shape.evFd, Shape.wanted]
  | adv l =>
    have hpos : 0 ≤ l := h.listen_nonneg
    obtain ⟨k, hk, hregs⟩ := hreg
    refine ⟨?_, ?_, ?_, ?_, fun _ => ⟨k, .bleAcceptCb, hk, ?_⟩, hsockets, hb.faultless⟩
    · simp [he, hs, hl, Shape.state, Shape.listenFd, Shape.evFd]
      omega
    · simp [he, hs, hl, Shape.state, Shape.listenFd, Shape.evFd, hpos]
    · simp [he, hs, hl, Shape.state, Shape.listenFd, Shape.evFd]
    · simp [hl, hw, Shape.listenFd, Shape.wanted, hpos]
    · rw [hregs, he]
      exact List.mem_singleton_self _
  | connected l c =>
    have hposc : 0 ≤ c := hb.nonneg List.mem_cons_self
    have hpos : 0 ≤ l := hb.nonneg (List.mem_cons_of_mem c (List.mem_singleton_self l))
    have hne : c ≠ l := by simpa [Shape.fds] using hb.nodup
    obtain ⟨k, hk, hregs⟩ := hreg
    obtain ⟨k', -, hk', hc⟩ := hb.sockOf (List.mem_cons_self : c ∈ (Shape.connected l c).fds)
    refine ⟨?_, ?_, ?_, ?_, fun _ => ⟨k, .bleRxCb, hk, ?_⟩, hsockets, hb.faultless⟩
    · simp [he, hs, hl, Shape.state, Shape.listenFd, Shape.evFd]
      omega
    · simp [he, hs, hl, Shape.state, Shape.listenFd, Shape.evFd, hne]
    · simp only [he, hs, hl, Shape.state, Shape.listenFd, Shape.evFd, hpos, hne, true_and, true_iff, ne_eq,
        not_false_eq_true, and_true]
      exact ⟨k', hk', hc⟩
    · simp [hl, hw, Shape.listenFd, Shape.wanted, hpos]
    · rw [hregs, he]
      exact List.mem_singleton_self _

/-- **The states of the peripheral.** After any operations, whatever their
system calls return, the peripheral is consistent. -/
theorem ops_consistent (answers : Nat → Nat) (stack : Rsp) (ops : List Op) :
    Consistent (runOps ops (init answers stack)) := by
  obtain ⟨a, h⟩ := runOps_inv ops (init_inv answers stack)
  exact h.is.consistent

/-- **Only a subscribed peer is notified.** Whatever happened before and
whatever fails: the connection a notification goes to was accepted, the latest
CCCD value its peer wrote since then has bit 0 set, the notification fits the
MTU of the connection, and a Read request of that moment returns the same
value. After a successful `ble_notify` that moment is its end. -/
theorem notifications_due (answers : Nat → Nat) (stack : Rsp) (ops : List Op) :
    (∀ later conn pdu server earlier,
      (runOps ops (init answers stack)).w.log = later ++ .notified conn pdu server :: earlier →
      .accepted conn ∈ earlier ∧ (∃ v, latestCccd conn earlier = some v ∧ v &&& 1 ≠ 0) ∧
        pdu.length ≤ (connMtu conn earlier).toNat ∧
        ∃ v, pdu = [0x1b] ++ le16 9 ++ v ∧
          ∀ rounds rsp, Sends (attOnPdu rounds server ([0x0a] ++ le16 9) rsp) server ([0x0b] ++ v)) ∧
      ∀ text, (bleNotify text (runOps ops (init answers stack))).1 = true →
        ∃ conn, (bleNotify text (runOps ops (init answers stack))).2.w.log =
          .notified conn (nfyPdu text) (bleNotify text (runOps ops (init answers stack))).2.b.toServer ::
            (runOps ops (init answers stack)).w.log := by
  obtain ⟨a, h⟩ := runOps_inv ops (init_inv answers stack)
  constructor
  · intro later conn pdu server earlier hlog
    obtain ⟨hacc, hsub, hfits, hval⟩ := h.sound later conn pdu server earlier hlog
    exact ⟨hacc, hsub, hfits, hval⟩
  · intro text
    exact (bleNotify_wp h text).2

end AlgaeBp.Ble
