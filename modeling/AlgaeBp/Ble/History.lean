import AlgaeBp.Ble.Shape
import AlgaeBp.Att.Server
/-!
# What a connection's peer has asked for

The MTU and the subscription of the connected peer are fields that every
connection reuses. Here they are computed from the PDUs received since the
connection was accepted, and shown to be what the fields hold.
-/
open Bytes

namespace AlgaeBp.Att

/-! ## The PDUs that change MTU and subscription -/

/-- The value of an accepted write to the CCCD. -/
def cccdWrite : List UInt8 → Option UInt16
  | [op, h₀, h₁, lo, hi] =>
    if (op = 0x12 ∨ op = 0x52) ∧ (word16 h₀ h₁).toNat = hdlCusCccd then some (word16 lo hi) else none
  | _ => none

/-- The MTU an accepted Exchange MTU request leads to. -/
def mtuAsked : List UInt8 → Option UInt16
  | 0x02 :: lo :: hi :: _ =>
    if word16 lo hi < attMtuDefault then none
    else some (if word16 lo hi < attMtuMax then word16 lo hi else attMtuMax)
  | _ => none

theorem cccdWrite_other {op : UInt8} (h₁ : op ≠ 0x12) (h₂ : op ≠ 0x52) (rest : List UInt8) :
    cccdWrite (op :: rest) = none := by
  unfold cccdWrite
  split
  · rename_i heq
    obtain ⟨rfl, -⟩ := List.cons.inj heq
    rw [if_neg (by simp [h₁, h₂])]
  · rfl

theorem mtuAsked_other {op : UInt8} (h : op ≠ 0x02) (rest : List UInt8) : mtuAsked (op :: rest) = none := by
  unfold mtuAsked
  split
  · rename_i heq
    exact absurd (List.cons.inj heq).1 h
  · rfl

theorem Sends.server_eq {res : Except Stop Reply} {b b' : Server} {bytes bytes' : List UInt8}
    (h : Sends res b bytes) (h' : Sends res b' bytes') : b = b' := by
  obtain ⟨r, hr, hs, -, -⟩ := h
  obtain ⟨r', hr', hs', -, -⟩ := h'
  rw [hr] at hr'
  obtain rfl := Except.ok.inj hr'
  exact hs.symm.trans hs'

theorem getLe16_front {p : List UInt8} {lo hi : UInt8} {off : Nat} {q : List UInt8} (h : p.drop off = lo :: hi :: q) :
    getLe16 p off = .ok (word16 lo hi) := by
  apply getLe16_le16 (word16 lo hi) (q := q)
  rw [h, le16_word16]
  rfl

/-- MTU, subscription and the room for the value after an Exchange MTU request. -/
theorem onMtuReq_settings {b b' : Server} {rest : List UInt8} {rsp : Rsp} {bytes : List UInt8}
    (h : Sends (onMtuReq b 0x02 (0x02 :: rest) rsp) b' bytes) :
    b' = { b with mtu := (mtuAsked (0x02 :: rest)).getD b.mtu } := by
  unfold onMtuReq at h
  match rest, h with
  | [], h => exact h.server_eq (attError_sends b rsp 0x02 0 ecodeInvalidPdu)
  | [_], h => exact h.server_eq (attError_sends b rsp 0x02 0 ecodeInvalidPdu)
  | lo :: hi :: rest, h =>
    rw [if_neg (by simp), getLe16_front (p := 0x02 :: lo :: hi :: rest) rfl] at h
    change Sends (if word16 lo hi < attMtuDefault then _ else _) _ _ at h
    by_cases hlow : word16 lo hi < attMtuDefault
    · rw [if_pos hlow] at h
      simp only [mtuAsked, hlow, if_true, Option.getD_none]
      exact h.server_eq (attError_sends b rsp 0x02 0 ecodeInvalidPdu)
    · rw [if_neg hlow] at h
      simp only [mtuAsked, hlow, if_false, Option.getD_some]
      exact h.server_eq (sends_store _ rsp ([0x03] ++ le16 attMtuMax) (by decide))

/-- The same after a write; the value is one that fits. -/
theorem attWrite_settings {b b' : Server} (hb : b.Ok) {op h₀ h₁ : UInt8} {v : List UInt8} (hop : op = 0x12 ∨ op = 0x52)
    {code : UInt8} (h : attWrite b (word16 h₀ h₁) v = .ok (b', code)) :
    b'.cccd = (cccdWrite (op :: h₀ :: h₁ :: v)).getD b.cccd ∧ b'.mtu = b.mtu ∧ b'.Ok := by
  unfold attWrite at h
  by_cases hc : (word16 h₀ h₁).toNat = hdlCusCccd
  · rw [if_pos hc] at h
    by_cases hlen : v.length ≠ 2
    · rw [if_pos hlen] at h
      obtain ⟨rfl, -⟩ := Prod.mk.inj (Except.ok.inj h)
      have hnone : cccdWrite (op :: h₀ :: h₁ :: v) = none := by
        unfold cccdWrite
        split
        · rename_i heq
          simp only [List.cons.injEq] at heq
          exact absurd (by rw [heq.2.2.2]; rfl) hlen
        · rfl
      rw [hnone]
      exact ⟨rfl, rfl, hb⟩
    · obtain ⟨lo, hi, rfl⟩ := List.length_eq_two.1 (not_not.1 hlen)
      rw [if_neg hlen, getLe16_front (p := [lo, hi]) rfl] at h
      obtain ⟨rfl, -⟩ := Prod.mk.inj (Except.ok.inj h)
      simp only [cccdWrite, hop, hc, and_self, if_true, Option.getD_some]
      exact ⟨trivial, trivial, hb⟩
  have hnone : cccdWrite (op :: h₀ :: h₁ :: v) = none := by
    unfold cccdWrite
    split
    · rename_i heq
      simp only [List.cons.injEq] at heq
      obtain ⟨-, rfl, rfl, -⟩ := heq
      rw [if_neg (fun hh => hc hh.2)]
    · rfl
  rw [if_neg hc] at h
  rw [hnone]
  by_cases hv : (word16 h₀ h₁).toNat = hdlCusVal
  · rw [if_pos hv] at h
    by_cases hlen : v.length > bleValueMax
    · rw [if_pos hlen] at h
      obtain ⟨rfl, -⟩ := Prod.mk.inj (Except.ok.inj h)
      exact ⟨rfl, rfl, hb⟩
    · have hmax : bleValueMax = 64 := rfl
      have hfit : 0 + v.length ≤ bleValueMax := by omega
      obtain ⟨q, hq, -⟩ := store_some (p := b.value) hfit
      rw [if_neg hlen, hq] at h
      obtain ⟨rfl, -⟩ := Prod.mk.inj (Except.ok.inj h)
      refine ⟨rfl, rfl, ?_⟩
      show (UInt16.ofNat v.length).toNat ≤ bleValueMax
      rw [UInt16.toNat_ofNat', Nat.mod_eq_of_lt (by omega)]
      omega
  · rw [if_neg hv] at h
    split at h
    all_goals
      obtain ⟨rfl, -⟩ := Prod.mk.inj (Except.ok.inj h)
      exact ⟨rfl, rfl, hb⟩

theorem onWrite_settings {b b' : Server} (hb : b.Ok) {op : UInt8} {command : Bool} {rest : List UInt8} {rsp : Rsp}
    {bytes : List UInt8} (hop : op = 0x12 ∨ op = 0x52) (h : Sends (onWrite b op command (op :: rest) rsp) b' bytes) :
    b'.cccd = (cccdWrite (op :: rest)).getD b.cccd ∧ b'.mtu = b.mtu ∧ b'.Ok := by
  have short (hs : cccdWrite (op :: rest) = none)
      (h : Sends (if command = true then .ok ⟨b, rsp, 0⟩ else attError b rsp op 0 ecodeInvalidPdu) b' bytes) :
      b'.cccd = (cccdWrite (op :: rest)).getD b.cccd ∧ b'.mtu = b.mtu ∧ b'.Ok := by
    have hbb : b' = b := by
      cases command with
      | true => exact h.server_eq ⟨⟨b, rsp, 0⟩, rfl, rfl, rfl, (List.take_zero : _ = [])⟩
      | false => exact h.server_eq (attError_sends b rsp op 0 ecodeInvalidPdu)
    rw [hs, hbb]
    exact ⟨rfl, rfl, hb⟩
  match rest, h, short with
  | [], h, short => exact short rfl h
  | [_], h, short => exact short rfl h
  | h₀ :: h₁ :: v, h, _ =>
    obtain ⟨b'', code, hw, -⟩ := attWrite_written b (word16 h₀ h₁) v
    have hset := attWrite_settings hb hop hw
    rw [onWrite_eq (by simp) (getLe16_front (p := op :: h₀ :: h₁ :: v) rfl) hw] at h
    suffices hbb : b' = b'' by rw [hbb]; exact hset
    cases command with
    | true => exact h.server_eq ⟨⟨b'', rsp, 0⟩, rfl, rfl, rfl, (List.take_zero : _ = [])⟩
    | false =>
      rw [if_neg Bool.false_ne_true] at h
      split at h
      · exact h.server_eq (attError_sends b'' rsp op (word16 h₀ h₁) code)
      · exact h.server_eq (sends_store b'' rsp [0x13] (by decide))

/-- MTU and subscription after a PDU are what it asks for, else as before. -/
theorem attOnPdu_settings {rounds : Nat} (hr : 12 ≤ rounds) {b b' : Server} (hb : b.Ok) {req : List UInt8} {rsp : Rsp}
    {bytes : List UInt8} (h : Sends (attOnPdu rounds b req rsp) b' bytes) :
    b'.cccd = (cccdWrite req).getD b.cccd ∧ b'.mtu = (mtuAsked req).getD b.mtu ∧ b'.Ok := by
  unfold attOnPdu at h
  cases req with
  | nil =>
    rw [h.server_eq ⟨⟨b, rsp, 0⟩, rfl, rfl, rfl, (List.take_zero : _ = [])⟩]
    exact ⟨rfl, rfl, hb⟩
  | cons op rest =>
    have same {o : UInt8} {res : Except Stop Reply} (h : Sends res b' bytes) (h₁₂ : o ≠ 0x12) (h₅₂ : o ≠ 0x52)
        (h₂ : o ≠ 0x02) (hf : ∃ bytes, Sends res b bytes ∧ Formed b o bytes) :
        b'.cccd = (cccdWrite (o :: rest)).getD b.cccd ∧ b'.mtu = (mtuAsked (o :: rest)).getD b.mtu ∧ b'.Ok := by
      obtain ⟨_, h', -⟩ := hf
      rw [h.server_eq h', cccdWrite_other h₁₂ h₅₂, mtuAsked_other h₂]
      exact ⟨rfl, rfl, hb⟩
    dsimp only at h
    split at h
    · rw [onMtuReq_settings h, cccdWrite_other (by decide) (by decide)]
      exact ⟨rfl, rfl, hb⟩
    · exact same h (by decide) (by decide) (by decide) (onFindInfo_formed hr b _ rsp)
    · exact same h (by decide) (by decide) (by decide) (onFindByType_formed hr hb _ rsp)
    · exact same h (by decide) (by decide) (by decide) (onReadBy_formed hr hb rfl _ rsp)
    · exact same h (by decide) (by decide) (by decide) (onReadBy_formed hr hb rfl _ rsp)
    · exact same h (by decide) (by decide) (by decide) (onRead_formed hb rfl _ rsp)
    · exact same h (by decide) (by decide) (by decide) (onRead_formed hb rfl _ rsp)
    · rw [mtuAsked_other (by decide) rest]
      exact onWrite_settings hb (.inl rfl) h
    · rw [mtuAsked_other (by decide) rest]
      exact onWrite_settings hb (.inr rfl) h
    · rename_i h₂ _ _ _ _ _ _ h₁₂ h₅₂
      exact same h (fun he => h₁₂ he) (fun he => h₅₂ he) (fun he => h₂ he) (onOther_formed b op _ rsp)

end AlgaeBp.Att

namespace AlgaeBp.Ble

open Att StateWp

/-! ## Histories -/

def Event.accepts (conn : Nat) : Event → Bool
  | .accepted c => decide (c = conn)
  | _ => false

def Event.pdu? (conn : Nat) : Event → Option (List UInt8)
  | .received c pdu => if c = conn then some pdu else none
  | _ => none

/-- The PDUs received on a connection since it was accepted, the latest first. -/
def pdus (conn : Nat) (log : List Event) : List (List UInt8) :=
  (log.takeWhile (fun e => !e.accepts conn)).filterMap (Event.pdu? conn)

/-- The latest accepted CCCD write of a connection's peer. -/
def latestCccd (conn : Nat) (log : List Event) : Option UInt16 := ((pdus conn log).filterMap cccdWrite).head?

/-- The MTU of a connection. -/
def connMtu (conn : Nat) (log : List Event) : UInt16 := ((pdus conn log).filterMap mtuAsked).head?.getD attMtuDefault

theorem pdus_accepted (conn : Nat) (log : List Event) : pdus conn (.accepted conn :: log) = [] := by
  simp [pdus, Event.accepts]

theorem pdus_received (conn : Nat) (pdu : List UInt8) (log : List Event) :
    pdus conn (.received conn pdu :: log) = pdu :: pdus conn log := by
  simp [pdus, Event.accepts, Event.pdu?]

theorem pdus_notified (conn c : Nat) (pdu : List UInt8) (server : Server) (log : List Event) :
    pdus conn (.notified c pdu server :: log) = pdus conn log := by
  unfold pdus
  rw [List.takeWhile_cons_of_pos rfl]
  rfl

theorem latestCccd_received (conn : Nat) (pdu : List UInt8) (log : List Event) :
    latestCccd conn (.received conn pdu :: log) = (cccdWrite pdu).or (latestCccd conn log) := by
  unfold latestCccd
  rw [pdus_received, List.filterMap_cons]
  cases cccdWrite pdu with
  | none => rfl
  | some v => rfl

theorem connMtu_received (conn : Nat) (pdu : List UInt8) (log : List Event) :
    connMtu conn (.received conn pdu :: log) = (mtuAsked pdu).getD (connMtu conn log) := by
  unfold connMtu
  rw [pdus_received, List.filterMap_cons]
  cases mtuAsked pdu with
  | none => rfl
  | some v => rfl

/-- A notification that went to a subscribed peer, fits its MTU and carries
the value that a Read request of that moment returns. -/
structure Due (conn : Nat) (pdu : List UInt8) (server : Server) (earlier : List Event) : Prop where
  accepted : .accepted conn ∈ earlier
  subscribed : ∃ v, latestCccd conn earlier = some v ∧ v &&& 1 ≠ 0
  fits : pdu.length ≤ (connMtu conn earlier).toNat
  value : ∃ v, pdu = [0x1b] ++ le16 9 ++ v ∧
    ∀ rounds rsp, Sends (attOnPdu rounds server ([0x0a] ++ le16 9) rsp) server ([0x0b] ++ v)

/-- Every notification of a history was due. -/
def Sound (log : List Event) : Prop :=
  ∀ later conn pdu server earlier, log = later ++ .notified conn pdu server :: earlier → Due conn pdu server earlier

theorem sound_nil : Sound [] := by
  intro later conn pdu server earlier h
  simp at h

theorem Sound.cons {e : Event} {log : List Event} (h : Sound log)
    (he : ∀ conn pdu server, e = .notified conn pdu server → Due conn pdu server log) : Sound (e :: log) := by
  intro later conn pdu server earlier heq
  cases later with
  | nil =>
    obtain ⟨rfl, rfl⟩ := List.cons.inj heq
    exact he conn pdu server rfl
  | cons e' later =>
    obtain ⟨-, rfl⟩ := List.cons.inj heq
    exact h later conn pdu server earlier rfl

/-! ## The invariant -/

/-- The connected peer's MTU and subscription are what it asked for. -/
def Peer (s : Sys) : Shape → Prop
  | .connected _ conn => ∃ k, s.w.sockOf conn = some k ∧ .accepted k.serial ∈ s.w.log ∧
      s.b.cccd = (latestCccd k.serial s.w.log).getD 0 ∧ s.b.mtu = connMtu k.serial s.w.log
  | _ => True

structure Inv (s : Sys) (a : Shape) : Prop where
  is : Is s a
  value : s.b.toServer.Ok
  sound : Sound s.w.log
  peer : Peer s a

theorem Kept.ok {s t : Sys} (h : Kept s t) (hs : s.b.toServer.Ok) : t.b.toServer.Ok := by
  unfold Server.Ok at *
  rw [h.valueLen]
  exact hs

/-- Where no connection is left, the history is all that matters. -/
theorem Kept.inv {s t : Sys} (h : Kept s t) (hs : s.b.toServer.Ok) (hlog : Sound s.w.log)
    (ht : Is t .idle ∨ ∃ l, Is t (.adv l)) : ∃ a, Inv t a := by
  rcases ht with ht | ⟨l, ht⟩
  · exact ⟨_, ht, h.ok hs, h.log ▸ hlog, trivial⟩
  · exact ⟨_, ht, h.ok hs, h.log ▸ hlog, trivial⟩

theorem Inv.left_wp {s : Sys} {a : Shape} (h : Inv s a) : wp blePeerLeft (fun _ t => ∃ a, Inv t a) s :=
  h.is.left_wp.mono (fun _ _ ht => ht.1.inv h.value h.sound ht.2)

theorem Inv.stop_wp {s : Sys} {a : Shape} (h : Inv s a) : wp bleStop (fun _ t => Inv t .idle) s :=
  h.is.stop_wp.mono (fun _ _ ht => ⟨ht.2, ht.1.ok h.value, ht.1.log ▸ h.sound, trivial⟩)

theorem Inv.same {s t : Sys} {a : Shape} (h : Inv s a) (hs : Same s t) (hopen : t.w.opened = s.w.opened)
    (ht : Holds t a.fds a.reg) : Inv t a := by
  refine ⟨⟨ht, ?_, ?_, ?_, ?_⟩, ?_, ?_, ?_⟩
  · rw [hs.b]
    exact h.is.evFd
  · rw [hs.b]
    exact h.is.listenFd
  · rw [hs.b]
    exact h.is.state
  · rw [hs.b]
    exact h.is.wanted
  · rw [hs.b]
    exact h.value
  · rw [hs.log]
    exact h.sound
  · have := h.peer
    unfold Peer World.sockOf at *
    rw [hopen, hs.b, hs.log]
    exact this

/-- What is quiet keeps the invariant. -/
theorem Inv.quiet_wp {α : Type} {m : M α} (hm : Quiet m) {s : Sys} {a : Shape} (h : Inv s a) : wp m (fun _ t => Inv t a) s :=
  (hm s _ _ h.is.holds).mono (fun _ _ ht => h.same ht.1 ht.2.1 ht.2.2)

end AlgaeBp.Ble
