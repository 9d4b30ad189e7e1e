import AlgaeBp.Lib.Runs
import AlgaeBp.Wifi2.Machine
/-!
# Reads of the timer

`epoll_wait` says that the timer has expired before any handler runs. In the
same batch the netlink handler may move the machine on, which sets the timer
anew; the read then waits for that one. `timer_reads_fresh` says when every
read finds an expiration, and one of the timer that the state it is in has
armed.
-/
open Runs

namespace AlgaeBp.Wifi2

/-- The timer is the one that the state the machine is in has armed. -/
def Owned (s : St) : Prop := ∀ o, s.timer = .armed o ∨ s.timer = .expired o → o = s.state

/-- Every read so far found an expiration of such a timer, and each gave the machine its `STIN_TIMEOUT`. -/
structure Fresh (s : St) : Prop where
  reads : ∀ timer state, (timer, state) ∈ s.reads → timer = .expired state
  timeouts : s.calls.count .timeout = s.reads.length
  hung : s.hung = false

/-- The state answers the input by moving on. -/
def Answers : State → Stin → Prop
  | .reset, stin => stin = .iffUp
  | .wpasupConnect, stin => stin = .iffRunning
  | .dhcpc, stin | .zcip, stin => stin = .ipAdd
  | .mon, stin => stin = .iffLowDown
  | _, _ => False

/-- In no batch does the timer come behind a buffer that moves the machine on, and no command takes the machine to a
state that sets no timer while there is one. -/
def Calm (s : St) : Event → Prop
  | .poll batch => ∀ pre b msgs post, batch = pre ++ (b, .rtnl msgs) :: post → (∃ b', (b', .timer) ∈ post) →
      ∀ msg ∈ msgs, ∀ stin ∈ heard s.ifindex s.ifflag msg, ¬ Answers s.state stin
  | .state st => st = .reset ∨ st = .pause → s.timer = .disarmed
  | _ => True

/-! ## `run_sm` -/

/-- Only the timer takes the machine on without setting it again. -/
theorem settle_of_not_rearms {ponged applies : Bool} {st : State} {stin : Stin} (h : rearms st stin = false)
    (hne : stin ≠ .timeout) : settle ponged applies st stin = st := by
  cases st <;> cases stin <;> first | rfl | exact absurd rfl hne | exact absurd h (by decide)

theorem owned_of_rearmed {stin : Stin} {s : St} (h : rearms s.state stin = true) : Owned (runSm stin s) := by
  intro o ho
  rw [(runSm_settles stin s).timer, h, if_pos rfl] at ho
  rcases ho with ho | ho
  · cases ho
    rfl
  · cases ho

theorem Owned.runSm {stin : Stin} {s : St} (h : Owned s) (hne : stin ≠ .timeout) : Owned (runSm stin s) := by
  cases hre : rearms s.state stin with
  | true => exact owned_of_rearmed hre
  | false =>
    intro o ho
    rw [(runSm_settles stin s).timer, hre] at ho
    rw [(runSm_settles stin s).state, settle_of_not_rearms hre hne]
    exact h o ho

theorem owned_of_disarmed {stin : Stin} {s : St} (h : s.timer = .disarmed) : Owned (Wifi2.runSm stin s) := by
  cases hre : rearms s.state stin with
  | true => exact owned_of_rearmed hre
  | false =>
    intro o ho
    rw [(runSm_settles stin s).timer, hre, h] at ho
    rcases ho with ho | ho <;> cases ho

theorem Fresh.heard {ins : List Stin} {s s' : St} (h : Fresh s) (hh : Heard ins s s') (hne : .timeout ∉ ins) : Fresh s' where
  reads := by
    rw [hh.reads]
    exact h.reads
  timeouts := by
    rw [hh.reads, hh.calls, List.count_append, List.count_eq_zero_of_not_mem hne]
    exact h.timeouts
  hung := hh.hung.trans h.hung

/-! ## Buffers -/

theorem Owned.runAll {ins : List Stin} (hne : .timeout ∉ ins) {s : St} (h : Owned s) : Owned (runAll ins s) := by
  induction ins generalizing s with
  | nil => exact h
  | cons stin ins ih =>
    simp only [List.mem_cons, not_or] at hne
    exact ih hne.2 (h.runSm (Ne.symm hne.1))

theorem rearms_of_not_answers {st : State} {stin : Stin} (hne : stin ≠ .enter ∧ stin ≠ .timeout) (h : ¬ Answers st stin) :
    rearms st stin = false := by
  cases st <;> cases stin <;> simp_all [Answers, rearms]

/-- Inputs that the state does not answer leave it and the timer as they are. -/
theorem runAll_quiet {ins : List Stin} {s : St}
    (h : ∀ stin ∈ ins, (stin ≠ .enter ∧ stin ≠ .timeout) ∧ ¬ Answers s.state stin) :
    (runAll ins s).state = s.state ∧ (runAll ins s).timer = s.timer := by
  induction ins generalizing s with
  | nil => exact ⟨rfl, rfl⟩
  | cons stin ins ih =>
    obtain ⟨⟨hne, hans⟩, hins⟩ := List.forall_mem_cons.1 h
    have hre := rearms_of_not_answers hne hans
    have hst : (runSm stin s).state = s.state := by
      rw [(runSm_settles stin s).state, settle_of_not_rearms hre hne.2]
    have ht : (runSm stin s).timer = s.timer := by
      rw [(runSm_settles stin s).timer, hre]
      rfl
    obtain ⟨hst', ht'⟩ := ih (s := runSm stin s) (by rwa [hst])
    exact ⟨hst'.trans hst, ht'.trans ht⟩

theorem timeout_not_heard {ifindex : BitVec 32} {ref : Flags} (msgs : List NlMsg) :
    .timeout ∉ msgs.flatMap (heard ifindex ref) := by
  intro h
  obtain ⟨msg, -, hmem⟩ := List.mem_flatMap.1 h
  exact (heard_inputs _ hmem).2 rfl

theorem handleRtnl_fresh {s : St} (ho : Owned s) (hf : Fresh s) (msgs : List NlMsg) :
    Owned (handleRtnl msgs s) ∧ Fresh (handleRtnl msgs s) := by
  have hne : .timeout ∉ msgs.flatMap (heard s.ifindex s.ifflag) := timeout_not_heard msgs
  rw [handleRtnl_eq]
  have hfresh := hf.heard (heard_runAll _ s) hne
  exact ⟨ho.runAll hne, hfresh.reads, hfresh.timeouts, hfresh.hung⟩

theorem handleRtnl_quiet {s : St} {msgs : List NlMsg}
    (h : ∀ msg ∈ msgs, ∀ stin ∈ heard s.ifindex s.ifflag msg, ¬ Answers s.state stin) :
    (handleRtnl msgs s).timer = s.timer := by
  rw [handleRtnl_eq]
  refine (runAll_quiet (fun stin hmem => ?_)).2
  obtain ⟨msg, hmsg, hin⟩ := List.mem_flatMap.1 hmem
  exact ⟨heard_inputs stin hin, h msg hmsg stin hin⟩

/-! ## Events -/

theorem owned_expire {s : St} (ho : Owned s) : Owned s.expire := by
  intro o h
  cases ht : s.timer <;> simp only [St.expire, ht] at h <;> rcases h with h | h <;> cases h
  · exact ho o (.inl ht)
  · exact ho o (.inr ht)

theorem fresh_expire {s : St} (hf : Fresh s) : Fresh s.expire := ⟨hf.reads, hf.timeouts, hf.hung⟩

/-- The timer has expired, and belongs to the state. -/
theorem onTimer_fresh {s : St} (ho : Owned s) (hf : Fresh s) (he : s.timer.isExpired = true) :
    Owned (onTimer s) ∧ Fresh (onTimer s) := by
  obtain ⟨o, ht⟩ : ∃ o, s.timer = .expired o := by
    cases ht : s.timer <;> simp [ht, Timer.isExpired] at he
    exact ⟨_, rfl⟩
  obtain rfl := ho o (.inr ht)
  rw [onTimer_eq (by simp [ht])]
  refine ⟨owned_of_disarmed rfl, ?_⟩
  have hh := heard_runSm .timeout { s.act (.timerRead s.timer s.state) with timer := .disarmed }
  have hreads := hh.reads.trans (St.reads_act (.timerRead s.timer s.state) s)
  have hcalls := hh.calls.trans (congrArg (· ++ [Stin.timeout]) (St.calls_act (.timerRead s.timer s.state) s))
  simp only [Act.read, Act.call, Option.toList_some, Option.toList_none, List.append_nil, ht] at hreads hcalls
  refine ⟨fun timer state h => ?_, ?_, hh.hung.trans hf.hung⟩
  · rw [ht, hreads] at h
    rcases List.mem_append.1 h with h | h
    · exact hf.reads timer state h
    · cases List.mem_singleton.1 h
      rfl
  · rw [ht, hreads, hcalls]
    simp [hf.timeouts]

/-- Before a handler the timer may expire; nothing else about the machine changes. -/
theorem maybe_expired (b : Bool) {s : St} (ho : Owned s) (hf : Fresh s) :
    ∃ s', (if b then s.expire else s) = s' ∧ Owned s' ∧ Fresh s' ∧ s'.state = s.state ∧ s'.ifflag = s.ifflag ∧
      s'.ifindex = s.ifindex ∧ (s.timer.isExpired = true → s'.timer.isExpired = true) := by
  cases b with
  | true =>
    refine ⟨_, rfl, owned_expire ho, fresh_expire hf, rfl, rfl, rfl, ?_⟩
    cases ht : s.timer <;> simp [St.expire, ht, Timer.isExpired]
  | false => exact ⟨_, rfl, ho, hf, rfl, rfl, rfl, id⟩

theorem any_isTimer {batch : List (Bool × Ready)} (h : batch.any (·.2.isTimer) = true) : ∃ b, (b, Ready.timer) ∈ batch := by
  obtain ⟨⟨b, ready⟩, hmem, htimer⟩ := List.any_eq_true.1 h
  cases ready with
  | timer => exact ⟨b, hmem⟩
  | rtnl msgs => cases htimer

theorem epollCb_fresh {batch : List (Bool × Ready)} {s : St} (ho : Owned s) (hf : Fresh s)
    (hnodup : (batch.map (·.2.isTimer)).Nodup) (he : batch.any (·.2.isTimer) = true → s.timer.isExpired = true)
    (hcalm : Calm s (.poll batch)) : Owned (epollCb batch s) ∧ Fresh (epollCb batch s) := by
  induction batch generalizing s with
  | nil => exact ⟨ho, hf⟩
  | cons entry batch ih =>
    obtain ⟨b, ready⟩ := entry
    obtain ⟨hnot, hrest⟩ := List.nodup_cons.1 hnodup
    obtain ⟨s', hs', ho', hf', hst, hflag, hidx, he'⟩ := maybe_expired b ho hf
    rw [epollCb, hf.hung, if_neg (by simp), hs']
    cases ready with
    | timer =>
      -- no other timer is left in the batch
      have hnone : ∀ b', (b', Ready.timer) ∉ batch := fun b' h => hnot (List.mem_map.2 ⟨_, h, rfl⟩)
      obtain ⟨ho'', hf''⟩ := onTimer_fresh ho' hf' (he' (he (by simp [Ready.isTimer])))
      refine ih ho'' hf'' hrest (fun h => ?_) ?_
      · obtain ⟨b', hmem⟩ := any_isTimer h
        exact absurd hmem (hnone b')
      · rintro pre b' msgs post rfl ⟨b'', hmem⟩
        exact absurd (List.mem_append_right _ (List.mem_cons_of_mem _ hmem)) (hnone b'')
    | rtnl msgs =>
      obtain ⟨ho'', hf''⟩ := handleRtnl_fresh ho' hf' msgs
      refine ih ho'' hf'' hrest (fun h => ?_) ?_
      · have hquiet : (handleRtnl msgs s').timer = s'.timer := by
          refine handleRtnl_quiet (fun msg hmsg stin hin => ?_)
          rw [hflag, hidx] at hin
          rw [hst]
          exact hcalm [] b msgs batch rfl (any_isTimer h) msg hmsg stin hin
        rw [onReady, hquiet]
        exact he' (he (by simp [h]))
      · rintro pre b' msgs' post rfl -
        exact absurd (List.mem_map.2 ⟨(b', Ready.rtnl msgs'), by simp, rfl⟩) hnot

theorem happen_fresh {s : St} {e : Event} (ho : Owned s) (hf : Fresh s) (hen : e.enabled s = true) (hcalm : Calm s e) :
    Owned (happen s e) ∧ Fresh (happen s e) := by
  cases e with
  | expire => exact ⟨owned_expire ho, fresh_expire hf⟩
  | poll batch =>
    simp only [Event.enabled, Bool.and_eq_true, Bool.or_eq_true, decide_eq_true_eq, Bool.not_eq_true'] at hen
    refine epollCb_fresh ho hf hen.2.1 (fun h => ?_) hcalm
    rcases hen.2.2 with hno | hexp
    · rw [h] at hno
      cases hno
    · exact hexp
  | timer ms =>
    refine ⟨fun o h => ?_, hf.heard (kept_moves.timerSet ms s) List.not_mem_nil⟩
    simp only [happen, St.timerSet] at h
    split at h <;> rcases h with h | h <;> cases h
    rfl
  | state st =>
    refine ⟨?_, Fresh.heard (s := { s with state := st }) ⟨hf.reads, hf.timeouts, hf.hung⟩ (heard_runSm .enter _) (by simp)⟩
    by_cases hsets : st = .reset ∨ st = .pause
    · exact owned_of_disarmed (hcalm hsets)
    · refine owned_of_rearmed ?_
      cases st <;> first | rfl | simp at hsets
  | wificfg ssid psk flag =>
    obtain ⟨net, apply, h | h⟩ := wificfg_cases ssid psk flag s
    · rw [happen, h]
      exact ⟨ho, hf.reads, hf.timeouts, hf.hung⟩
    · rw [happen, h]
      exact ⟨owned_of_rearmed rfl, Fresh.heard (s := { s with network := net, networkApply := apply, state := .init })
        ⟨hf.reads, hf.timeouts, hf.hung⟩ (heard_runSm .enter _) (by simp)⟩

/-- **When no read of the timer is in vain.** In a run all of whose steps are calm, every read of the timer finds an
expiration of the timer that the state has armed; each `STIN_TIMEOUT` comes with one read, and none blocks for good. -/
theorem timer_reads_fresh (ifflag : Flags) (ifindex : BitVec 32) (pong : Nat → Bool) (es : List Event) (s : St)
    (hr : run step es (boot ifflag ifindex pong) = some s) (hc : Steps step Calm (boot ifflag ifindex pong) es) :
    Fresh s := by
  refine (Steps.inv (I := fun s => Owned s ∧ Fresh s) hc ⟨fun o h => ?_, fun _ _ h => absurd h List.not_mem_nil, rfl, rfl⟩
    ?_ hr).2
  · rcases h with h | h <;> cases h
  · intro s e s' hI hcalm hstep
    obtain ⟨hen, rfl⟩ := step_eq_some hstep
    exact happen_fresh hI.1 hI.2 hen hcalm

theorem calm_one (s : St) (b : Bool) (ready : Ready) : Calm s (.poll [(b, ready)]) := by
  rintro pre b' msgs post h ⟨b'', hmem⟩
  have hlen := congrArg List.length h
  simp only [List.length_cons, List.length_nil, List.length_append] at hlen
  rw [List.eq_nil_of_length_eq_zero (by omega : post.length = 0)] at hmem
  cases hmem

/-- A network is configured; the timer expires, and the interface comes up. -/
def started : List Event :=
  [.wificfg (some [65]) none 0, .expire, .poll [(false, .timer)], .poll [(false, .rtnl [.link 3 iffUp])]]

theorem timer_reads_fresh_started : ∃ s, run step started (boot 0 3 (fun _ => true)) = some s ∧
    s.reads = [(.expired .init, .init)] ∧ Fresh s := by
  have hreads : (run step started (boot 0 3 (fun _ => true))).map (·.reads) = some [(.expired .init, .init)] := by
    decide +kernel
  obtain ⟨s, hr, hs⟩ := Option.map_eq_some_iff.1 hreads
  refine ⟨s, hr, hs, timer_reads_fresh 0 3 (fun _ => true) started s hr (steps_of_forall (fun e he s => ?_))⟩
  simp only [started, List.mem_cons, List.not_mem_nil, or_false] at he
  rcases he with rfl | rfl | rfl | rfl
  · trivial
  · trivial
  · exact calm_one _ _ _
  · exact calm_one _ _ _

/-- The link comes up just when the timer of `WPASUP_CONNECT` expires. The machine goes to `ST_DHCPC` and sets the timer
anew, and the read waits for that. -/
theorem timer_read_blocks :
    ¬ ∀ (ifflag : Flags) (ifindex : BitVec 32) (pong : Nat → Bool) (es : List Event) (s : St),
      run step es (boot ifflag ifindex pong) = some s → Fresh s := by
  intro h
  have hreads : (run step (started ++ [.expire, .poll [(false, .rtnl [.link 3 (iffUp ||| iffRunning)]), (false, .timer)]])
      (boot 0 3 (fun _ => true))).map (·.reads) = some [(.expired .init, .init), (.armed .dhcpc, .dhcpc)] := by
    decide +kernel
  obtain ⟨s, hr, hs⟩ := Option.map_eq_some_iff.1 hreads
  have hread := (h 0 3 (fun _ => true) _ s hr).reads (.armed .dhcpc) .dhcpc (by simp [hs])
  cases hread

end AlgaeBp.Wifi2
