import AlgaeBp.Lib.Batches
import AlgaeBp.Lib.Runs
import AlgaeBp.Wifi2.Machine
/-!
# Links and addresses

Two things the machine relies on: that an edge of a flag reaches it however the
messages come (`link_inputs_iff`), and that `ST_MON` is entered with a link
(`mon_linked_iff`).
-/
open Batches Runs

namespace AlgaeBp.Wifi2

/-! ## Edges -/

/-- `handle_rtnl` on one buffer after another. -/
def handleAll (bufs : List (List NlMsg)) (s : St) : St := bufs.foldl (fun s msgs => handleRtnl msgs s) s

/-- Buffers of `RTM_NEWLINK` messages for the interface with these flags. -/
def linkBuffers (ifindex : BitVec 32) (gs : List (List Flags)) : List (List NlMsg) := gs.map (·.map (.link ifindex))

/-- What can be an edge in `m` is told the same way by the flags `p` and `r` that come before it. -/
def Agree (p r m : Flags) : Prop :=
  (m &&& iffUp ≠ 0 → (p &&& iffUp ≠ 0 ↔ r &&& iffUp ≠ 0)) ∧
    (m &&& iffRunning ≠ 0 → (p &&& iffRunning ≠ 0 ↔ r &&& iffRunning ≠ 0)) ∧
    (m &&& iffLowerUp = 0 → (p &&& iffLowerUp ≠ 0 ↔ r &&& iffLowerUp ≠ 0))

theorem crossed_iff (bit : Flags) (up : Bool) (p r m : Flags) :
    (crossed bit up p m ↔ crossed bit up r m) ↔
      ((m &&& bit ≠ 0 ↔ up = true) → (p &&& bit ≠ 0 ↔ r &&& bit ≠ 0)) := by
  unfold crossed
  rw [and_congr_right_iff]
  refine imp_congr_right fun _ => ?_
  cases up with
  | true => simp only [iff_true, not_iff_not]
  | false => simp only [Bool.false_eq_true, iff_false, not_iff_not]

/-- Which inputs there are says which flags have crossed. -/
theorem mem_noticed (r m : Flags) :
    (.iffUp ∈ noticed r m ↔ crossed iffUp true r m) ∧ (.iffRunning ∈ noticed r m ↔ crossed iffRunning true r m) ∧
      (.iffLowDown ∈ noticed r m ↔ crossed iffLowerUp false r m) := by
  unfold noticed
  refine ⟨?_, ?_, ?_⟩ <;> split <;> split <;> split <;> simp [*]

theorem noticed_eq_iff (p r m : Flags) : noticed p m = noticed r m ↔ Agree p r m := by
  have hcross : Agree p r m ↔ (crossed iffUp true p m ↔ crossed iffUp true r m) ∧
      (crossed iffRunning true p m ↔ crossed iffRunning true r m) ∧
      (crossed iffLowerUp false p m ↔ crossed iffLowerUp false r m) := by
    rw [crossed_iff, crossed_iff, crossed_iff]
    simp only [Agree, iff_true, Bool.false_eq_true, iff_false, ne_eq, not_not]
  rw [hcross]
  constructor
  · intro h
    obtain ⟨hp, hp', hp''⟩ := mem_noticed p m
    obtain ⟨hr, hr', hr''⟩ := mem_noticed r m
    exact ⟨by rw [← hp, ← hr, h], by rw [← hp', ← hr', h], by rw [← hp'', ← hr'', h]⟩
  · rintro ⟨hu, hr, hl⟩
    simp only [noticed, hu, hr, hl]

theorem heard_link (ifindex : BitVec 32) (ref : Flags) (g : List Flags) :
    (g.map (NlMsg.link ifindex)).flatMap (heard ifindex ref) = g.flatMap (noticed ref) := by
  rw [List.flatMap_map]
  exact List.flatMap_congr (fun flags _ => by simp [heard])

theorem flagsOf_link (ifindex : BitVec 32) (g : List Flags) :
    (g.map (NlMsg.link ifindex)).filterMap (flagsOf ifindex) = g := by
  induction g with
  | nil => rfl
  | cons flags g ih => simp [flagsOf, ih]

/-- Buffers of link messages feed the machine edges. -/
theorem handleAll_links (gs : List (List Flags)) (s : St) :
    (handleAll (linkBuffers s.ifindex gs) s).calls = s.calls ++ feed noticed s.ifflag gs ∧
      (handleAll (linkBuffers s.ifindex gs) s).ifflag = gs.flatten.getLastD s.ifflag := by
  rw [← foldl_getLastD]
  induction gs generalizing s with
  | nil => exact ⟨(List.append_nil _).symm, rfl⟩
  | cons g gs ih =>
    have hh := heard_runAll (g.flatMap (noticed s.ifflag)) s
    have hs : handleRtnl (g.map (.link s.ifindex)) s =
        { runAll (g.flatMap (noticed s.ifflag)) s with ifflag := g.getLastD s.ifflag } := by
      rw [handleRtnl_eq, heard_link, flagsOf_link]
    obtain ⟨hcalls, hflag⟩ := ih (handleRtnl (g.map (.link s.ifindex)) s)
    have hi : (handleRtnl (g.map (.link s.ifindex)) s).ifindex = s.ifindex := by
      rw [hs]
      exact hh.ifindex
    have hc : (handleRtnl (g.map (.link s.ifindex)) s).calls = s.calls ++ g.flatMap (noticed s.ifflag) := by
      rw [hs]
      exact hh.calls
    have hf : (handleRtnl (g.map (.link s.ifindex)) s).ifflag = g.getLastD s.ifflag := by rw [hs]
    rw [hi, hf] at hcalls hflag
    refine ⟨?_, hflag⟩
    rw [feed, ← List.append_assoc, ← hc]
    exact hcalls

/-- **Which link messages may come in any buffers.** The inputs and the flags do not depend on the buffers just when
every message with `IFF_UP` set comes after flags that agree on `IFF_UP`, the same holds for `IFF_RUNNING`, and every
message with `IFF_LOWER_UP` clear comes after flags that agree on it. -/
theorem link_inputs_iff (s : St) (ms : List Flags) :
    (∀ gs gs' : List (List Flags), gs.flatten = ms → gs'.flatten = ms →
      (handleAll (linkBuffers s.ifindex gs) s).calls = (handleAll (linkBuffers s.ifindex gs') s).calls ∧
        (handleAll (linkBuffers s.ifindex gs) s).ifflag = (handleAll (linkBuffers s.ifindex gs') s).ifflag) ↔
      ∀ pre m post, ms = pre ++ m :: post → ∀ p ∈ pre, Agree p s.ifflag m := by
  have hblind : Blind noticed s.ifflag ms ↔ ∀ pre m post, ms = pre ++ m :: post → ∀ p ∈ pre, Agree p s.ifflag m := by
    simp only [Blind, noticed_eq_iff]
  rw [← hblind, ← feed_eq_iff]
  constructor
  · intro h gs gs' hgs hgs'
    have hcalls := (h gs gs' hgs hgs').1
    rw [(handleAll_links gs s).1, (handleAll_links gs' s).1] at hcalls
    exact List.append_cancel_left hcalls
  · intro h gs gs' hgs hgs'
    rw [(handleAll_links gs s).1, (handleAll_links gs' s).1, (handleAll_links gs s).2, (handleAll_links gs' s).2]
    exact ⟨by rw [h gs gs' hgs hgs'], by rw [hgs, hgs']⟩

/-- The machine waits in `ST_RESET`; the interface goes down and up again. Told in two buffers, it is an `IFF_UP`; told
in one, it is nothing. -/
theorem link_inputs_lost :
    ¬ ∀ (s : St) (ms : List Flags) (gs gs' : List (List Flags)), gs.flatten = ms → gs'.flatten = ms →
      (handleAll (linkBuffers s.ifindex gs) s).calls = (handleAll (linkBuffers s.ifindex gs') s).calls ∧
        (handleAll (linkBuffers s.ifindex gs) s).ifflag = (handleAll (linkBuffers s.ifindex gs') s).ifflag := by
  intro h
  have hdown := (h { boot 1 3 (fun _ => true) with state := .reset } [0, 1] [[0], [1]] [[0, 1]] rfl rfl).1
  rw [(handleAll_links _ _).1, (handleAll_links _ _).1] at hdown
  exact absurd hdown (by decide)

/-! ## `ST_MON` and the link -/

/-- One descriptor at a time, and one message in a buffer. -/
def Event.single : Event → Prop
  | .wificfg _ _ _ | .expire => True
  | .state _ | .timer _ => False
  | .poll batch => ∃ b, batch = [(b, .timer)] ∨ ∃ msg, batch = [(b, .rtnl [msg])]

def Ready.msgs : Ready → List NlMsg
  | .rtnl msgs => msgs
  | .timer => []

def Event.msgs : Event → List NlMsg
  | .poll batch => batch.flatMap (·.2.msgs)
  | _ => []

/-- The flags of the last `RTM_NEWLINK` for the interface, or those it had at first. -/
def latest (ifindex : BitVec 32) (ifflag : Flags) (es : List Event) : Flags :=
  ((es.flatMap Event.msgs).filterMap (flagsOf ifindex)).getLastD ifflag

/-- An IPv4 address of the interface is announced. -/
def NlMsg.isAddress (ifindex : BitVec 32) : NlMsg → Prop
  | .addr new index family scope attrs => index = ifindex ∧ new = true ∧ stinIpadd family scope attrs = true
  | _ => False

/-- What takes the machine to `ST_MON`. -/
def EntersMon (s : St) : Ready → Prop
  | .timer => s.state = .zcip
  | .rtnl msgs => (s.state = .dhcpc ∨ s.state = .zcip) ∧ ∃ msg ∈ msgs, msg.isAddress s.ifindex

/-- It finds the link up. -/
def Carried (s : St) (e : Event) : Prop :=
  ∀ b ready, e = .poll [(b, ready)] → EntersMon s ready → s.ifflag &&& iffLowerUp ≠ 0

theorem onReady_ifindex (ready : Ready) (s : St) : (onReady ready s).ifindex = s.ifindex := by
  cases ready with
  | timer => exact (heard_onTimer s).2
  | rtnl msgs =>
    rw [onReady, handleRtnl_eq]
    exact (heard_runAll _ s).ifindex

theorem onReady_ifflag (ready : Ready) (s : St) :
    (onReady ready s).ifflag = (ready.msgs.filterMap (flagsOf s.ifindex)).getLastD s.ifflag := by
  cases ready with
  | timer => exact (heard_onTimer s).1
  | rtnl msgs => rw [onReady, handleRtnl_eq, Ready.msgs]

theorem happen_flags {s : St} {e : Event} (he : e.single) (hh : s.hung = false) :
    (happen s e).ifindex = s.ifindex ∧ (happen s e).ifflag = (e.msgs.filterMap (flagsOf s.ifindex)).getLastD s.ifflag := by
  cases e with
  | wificfg ssid psk flag =>
    obtain ⟨net, apply, h | h⟩ := wificfg_cases ssid psk flag s
    · rw [happen, h]
      exact ⟨rfl, rfl⟩
    · rw [happen, h]
      exact ⟨(heard_runSm _ _).ifindex, (heard_runSm _ _).ifflag⟩
  | state st => exact he.elim
  | timer ms => exact he.elim
  | expire => exact ⟨rfl, rfl⟩
  | poll batch =>
    have hone : ∃ b ready, batch = [(b, ready)] := by
      obtain ⟨b, rfl | ⟨msg, rfl⟩⟩ := he <;> exact ⟨b, _, rfl⟩
    obtain ⟨b, ready, rfl⟩ := hone
    rw [happen, epollCb_single hh, onReady_ifindex, onReady_ifflag]
    cases b <;> simp [Event.msgs]

/-- The machine's flags are the latest ones. -/
theorem run_flags {s s' : St} {es : List Event} (hr : run step es s = some s') (hs : ∀ e ∈ es, e.single) :
    s'.ifindex = s.ifindex ∧ s'.ifflag = latest s.ifindex s.ifflag es := by
  induction es using List.reverseRecOn generalizing s' with
  | nil =>
    obtain rfl := Option.some.inj hr
    exact ⟨rfl, rfl⟩
  | append_singleton es e ih =>
    obtain ⟨s₁, hr₁, hstep⟩ := run_concat.1 hr
    obtain ⟨hen, rfl⟩ := step_eq_some hstep
    obtain ⟨hi, hf⟩ := ih hr₁ (fun e' h => hs e' (List.mem_append_left _ h))
    obtain ⟨hi', hf'⟩ := happen_flags (hs e (by simp)) (not_hung hen)
    rw [hi', hf', hi, hf]
    refine ⟨rfl, ?_⟩
    unfold latest
    rw [List.flatMap_append, List.filterMap_append]
    simp only [List.flatMap_cons, List.flatMap_nil, List.append_nil]
    rw [List.getLastD_eq_getLast?, List.getLastD_eq_getLast?, List.getLastD_eq_getLast?, List.getLast?_append]
    cases (e.msgs.filterMap (flagsOf s.ifindex)).getLast? <;> rfl

/-- `ST_MON` only with a link. -/
def Linked (s : St) : Prop := s.state = .mon → s.ifflag &&& iffLowerUp ≠ 0

theorem settle_eq_mon (ponged applies : Bool) (st : State) (stin : Stin) :
    settle ponged applies st stin = .mon ↔
      st = .mon ∧ stin ≠ .iffLowDown ∨ st = .zcip ∧ (stin = .timeout ∨ stin = .ipAdd) ∨ st = .dhcpc ∧ stin = .ipAdd := by
  cases st <;> cases stin <;> cases ponged <;> cases applies <;> simp [settle, controlled, readied]

/-- No link message takes the machine to `ST_MON`, and one that says the link is down takes it away. -/
theorem runAll_link_mon {ins : List Stin} (hins : ∀ stin ∈ ins, stin ≠ .timeout ∧ stin ≠ .ipAdd) {s : St}
    (h : (runAll ins s).state = .mon) : s.state = .mon ∧ .iffLowDown ∉ ins := by
  induction ins generalizing s with
  | nil => exact ⟨h, List.not_mem_nil⟩
  | cons stin ins ih =>
    obtain ⟨hone, hins⟩ := List.forall_mem_cons.1 hins
    obtain ⟨hmon, hnot⟩ := ih hins h
    rw [(runSm_settles stin s).state, settle_eq_mon] at hmon
    simp only [hone.1, hone.2, or_self, and_false, or_false] at hmon
    exact ⟨hmon.1, by simp [Ne.symm hmon.2, hnot]⟩

theorem linked_onTimer {s : St} (h : Linked s) (hz : s.state = .zcip → s.ifflag &&& iffLowerUp ≠ 0)
    (ht : s.timer ≠ .disarmed) :
    Linked (onTimer s) := by
  intro hmon
  rw [(heard_onTimer s).1]
  rw [onTimer_eq ht, (runSm_settles _ _).state, settle_eq_mon] at hmon
  rcases hmon with hm | hm | hm
  · exact h hm.1
  · exact hz hm.1
  · cases hm.2

theorem heard_address {ifindex : BitVec 32} {msg : NlMsg} (h : msg.isAddress ifindex) (ref : Flags) :
    heard ifindex ref msg = [.ipAdd] ∧ flagsOf ifindex msg = none := by
  cases msg with
  | addr new index family scope attrs => exact ⟨if_pos h, rfl⟩
  | link index flags => exact h.elim
  | other type => exact h.elim

theorem linked_onMsg {s : St} (h : Linked s) (msg : NlMsg)
    (hc : EntersMon s (.rtnl [msg]) → s.ifflag &&& iffLowerUp ≠ 0) : Linked (handleRtnl [msg] s) := by
  rw [handleRtnl_eq]
  intro hmon
  dsimp only at hmon ⊢
  cases msg with
  | other type => exact h hmon
  | addr new index family scope attrs =>
    have hflag : ([NlMsg.addr new index family scope attrs].filterMap (flagsOf s.ifindex)).getLastD s.ifflag =
      s.ifflag := rfl
    rw [hflag]
    by_cases haddr : (NlMsg.addr new index family scope attrs).isAddress s.ifindex
    · simp only [List.flatMap_cons, List.flatMap_nil, (heard_address haddr _).1, List.append_nil] at hmon
      rw [runAll_cons, runAll, List.foldl_nil, (runSm_settles _ _).state, settle_eq_mon] at hmon
      rcases hmon with hm | hm | hm
      · exact h hm.1
      · exact hc ⟨.inr hm.1, _, List.mem_singleton_self _, haddr⟩
      · exact hc ⟨.inl hm.1, _, List.mem_singleton_self _, haddr⟩
    · have hins : [NlMsg.addr new index family scope attrs].flatMap (heard s.ifindex s.ifflag) = [] := by
        simp only [List.flatMap_cons, List.flatMap_nil, List.append_nil, heard]
        exact if_neg haddr
      rw [hins] at hmon
      exact h hmon
  | link index flags =>
    by_cases hi : index = s.ifindex
    · simp only [List.flatMap_cons, List.flatMap_nil, List.append_nil, heard, hi, if_true] at hmon
      have hflag : ([NlMsg.link index flags].filterMap (flagsOf s.ifindex)).getLastD s.ifflag = flags := by
        simp [flagsOf, hi]
      rw [hflag]
      obtain ⟨hm, hnot⟩ := runAll_link_mon (fun stin h => (noticed_inputs stin h).2) hmon
      rw [(mem_noticed _ _).2.2, crossed] at hnot
      have hlow := h hm
      simp only [Bool.false_eq_true, iff_false] at hnot
      intro hclear
      exact hnot ⟨not_not.2 hclear, not_not.2 hlow⟩
    · have hins : [NlMsg.link index flags].flatMap (heard s.ifindex s.ifflag) = [] := by simp [heard, hi]
      have hflag : ([NlMsg.link index flags].filterMap (flagsOf s.ifindex)).getLastD s.ifflag = s.ifflag := by
        simp [flagsOf, hi]
      rw [hins] at hmon
      rw [hflag]
      exact h hmon

theorem Linked.happen {s : St} {e : Event} (h : Linked s) (he : e.single) (hen : e.enabled s = true) (hc : Carried s e) :
    Linked (happen s e) := by
  cases e with
  | wificfg ssid psk flag =>
    obtain ⟨net, apply, hcfg | hcfg⟩ := wificfg_cases ssid psk flag s
    · rw [Wifi2.happen, hcfg]
      exact h
    · rw [Wifi2.happen, hcfg]
      intro hmon
      rw [(runSm_settles _ _).state, settle_eq_mon] at hmon
      simp at hmon
  | state st => exact he.elim
  | timer ms => exact he.elim
  | expire => exact h
  | poll batch =>
    obtain ⟨b, rfl | ⟨msg, rfl⟩⟩ := he
    · rw [Wifi2.happen, epollCb_single (not_hung hen)]
      have ht := armed_of_expired (expired_of_enabled hen) b
      cases b with
      | true => exact linked_onTimer (s := s.expire) h (hc true .timer rfl) ht
      | false => exact linked_onTimer h (hc false .timer rfl) ht
    · rw [Wifi2.happen, epollCb_single (not_hung hen)]
      cases b with
      | true => exact linked_onMsg (s := s.expire) h msg (hc true _ rfl)
      | false => exact linked_onMsg h msg (hc false _ rfl)

theorem mon_onTimer {s : St} (hst : s.state = .zcip) (ht : s.timer ≠ .disarmed) : (onTimer s).state = .mon := by
  rw [onTimer_eq ht, (runSm_settles _ _).state, settle_eq_mon]
  exact .inr (.inl ⟨hst, .inl rfl⟩)

theorem mon_onAddress {s : St} {msg : NlMsg} (hst : s.state = .dhcpc ∨ s.state = .zcip)
    (haddr : msg.isAddress s.ifindex) : (handleRtnl [msg] s).state = .mon ∧ (handleRtnl [msg] s).ifflag = s.ifflag := by
  obtain ⟨hins, hflag⟩ := heard_address haddr s.ifflag
  rw [handleRtnl_eq]
  simp only [List.flatMap_cons, List.flatMap_nil, hins, List.append_nil, List.filterMap_cons, hflag,
    List.filterMap_nil, List.getLastD_nil, and_true]
  rw [runAll_cons, runAll, List.foldl_nil, (runSm_settles _ _).state, settle_eq_mon]
  rcases hst with hst | hst
  · exact .inr (.inr ⟨hst, rfl⟩)
  · exact .inr (.inl ⟨hst, .inr rfl⟩)

/-- An address announced in `ST_DHCPC` or `ST_ZCIP`, or the timer of `ST_ZCIP`, takes the machine to `ST_MON` whatever
the link is like. -/
theorem enters_mon {s : St} {e : Event} (he : e.single) (hen : e.enabled s = true) (hc : ¬ Carried s e) :
    (happen s e).state = .mon ∧ (happen s e).ifflag &&& iffLowerUp = 0 := by
  simp only [Carried, not_forall, not_not] at hc
  obtain ⟨b, ready, rfl, hmon, hlow⟩ := hc
  rw [Wifi2.happen, epollCb_single (not_hung hen)]
  obtain ⟨c, hcase | ⟨msg, hcase⟩⟩ := he <;> cases hcase
  · have ht := armed_of_expired (expired_of_enabled hen) b
    cases b with
    | true => exact ⟨mon_onTimer (s := s.expire) hmon ht, by rwa [onReady, (heard_onTimer _).1]⟩
    | false => exact ⟨mon_onTimer hmon ht, by rwa [onReady, (heard_onTimer _).1]⟩
  · obtain ⟨hfrom, msg', hmem, haddr⟩ := hmon
    obtain rfl := List.mem_singleton.1 hmem
    cases b with
    | true =>
      obtain ⟨hs, hf⟩ := mon_onAddress (s := s.expire) hfrom haddr
      exact ⟨hs, hf ▸ hlow⟩
    | false =>
      obtain ⟨hs, hf⟩ := mon_onAddress hfrom haddr
      exact ⟨hs, hf ▸ hlow⟩

/-- **When `ST_MON` means a link.** In a run in which buffers hold one message each, `ST_MON` always finds the flags of
the last link message to have `IFF_LOWER_UP`, just when no address in `ST_DHCPC` or `ST_ZCIP` and no timer in `ST_ZCIP`
comes while the flags lack it. -/
theorem mon_linked_iff (ifflag : Flags) (ifindex : BitVec 32) (pong : Nat → Bool) (es : List Event) (s : St)
    (hr : run step es (boot ifflag ifindex pong) = some s) (hs : ∀ e ∈ es, e.single) :
    (∀ es' s', es' <+: es → run step es' (boot ifflag ifindex pong) = some s' → s'.state = .mon →
      latest ifindex ifflag es' &&& iffLowerUp ≠ 0) ↔
      Steps step Carried (boot ifflag ifindex pong) es := by
  have hflags : ∀ {es' s'}, es' <+: es → run step es' (boot ifflag ifindex pong) = some s' →
      s'.ifflag = latest ifindex ifflag es' := fun hp hr' => (run_flags hr' (fun e he => hs e (hp.subset he))).2
  constructor
  · intro h es' e s' hp hr'
    by_contra hc
    obtain ⟨s'', hr''⟩ := run_prefix hr hp
    obtain ⟨s₁, hr₁, hstep⟩ := run_concat.1 hr''
    obtain rfl : s' = s₁ := Option.some.inj (hr'.symm.trans hr₁)
    obtain ⟨hen, rfl⟩ := step_eq_some hstep
    obtain ⟨hmon, hlow⟩ := enters_mon (hs e (hp.subset (by simp))) hen hc
    rw [hflags hp hr''] at hlow
    exact h _ _ hp hr'' hmon hlow
  · intro h es' s' hp hr' hmon
    have hlinked : Linked s' := by
      refine Steps.inv (C := fun s e => Carried s e ∧ e.single) (fun es'' e s'' hp' hr'' => ?_) ?_ ?_ hr'
      · exact ⟨h es'' e s'' (hp'.trans hp) hr'', hs e ((hp'.trans hp).subset (by simp))⟩
      · exact fun hmon => by cases hmon
      · intro s₁ e s₂ hl hc hstep
        obtain ⟨hen, rfl⟩ := step_eq_some hstep
        exact hl.happen hc.2 hen hc.1
    rw [← hflags hp hr']
    exact hlinked hmon

/-- A network is configured, the interface comes up, and the link after it. -/
def joining : List Event :=
  [.wificfg (some [65]) none 0, .expire, .poll [(false, .timer)], .poll [(false, .rtnl [.link 3 iffUp])],
    .poll [(false, .rtnl [.link 3 (iffUp ||| iffRunning ||| iffLowerUp)])]]

/-- An address is announced. -/
def addressed : Event := .poll [(false, .rtnl [.addr true 3 afInet rtScopeUniverse [ifaLocal]])]

theorem mon_linked_joining : ∃ s, run step (joining ++ [addressed]) (boot 0 3 (fun _ => true)) = some s ∧
    ((∀ es' s', es' <+: joining ++ [addressed] → run step es' (boot 0 3 (fun _ => true)) = some s' → s'.state = .mon →
      latest 3 0 es' &&& iffLowerUp ≠ 0) ↔
      Steps step Carried (boot 0 3 (fun _ => true)) (joining ++ [addressed])) := by
  have hsome : (run step (joining ++ [addressed]) (boot 0 3 (fun _ => true))).isSome = true := by decide +kernel
  obtain ⟨s, hr⟩ := Option.isSome_iff_exists.1 hsome
  exact ⟨s, hr, mon_linked_iff 0 3 (fun _ => true) _ s hr (by simp [joining, addressed, Event.single])⟩

/-- The link goes down in `ST_DHCPC`, which does not hear of it; two timers later the machine is in `ST_MON`. -/
theorem mon_unlinked :
    ¬ ∀ (ifflag : Flags) (ifindex : BitVec 32) (pong : Nat → Bool) (es : List Event) (s : St),
      run step es (boot ifflag ifindex pong) = some s → (∀ e ∈ es, e.single) →
      s.state = .mon → latest ifindex ifflag es &&& iffLowerUp ≠ 0 := by
  intro h
  have hmon : (run step (joining ++ [.poll [(false, .rtnl [.link 3 iffUp])], .expire, .poll [(false, .timer)],
      .expire, .poll [(false, .timer)]]) (boot 0 3 (fun _ => true))).map (·.state) = some .mon := by decide +kernel
  obtain ⟨s, hr, hs⟩ := Option.map_eq_some_iff.1 hmon
  exact absurd (h 0 3 (fun _ => true) _ s hr (by simp [joining, Event.single]) hs) (by decide)

end AlgaeBp.Wifi2
