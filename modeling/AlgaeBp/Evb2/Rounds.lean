import AlgaeBp.Evb2.Between
/-!
# One pass, watched

`aloe_evb2_run_once` meets its part of `passes`: while handles are collected they
are as they were when `epoll_wait` returned, and the dispatch loop takes them up
one by one. What callbacks do to `ready_list` is tame, so no handle joins a batch
that has been collected.
-/
open Reentrant

namespace AlgaeBp.Evb2

/-! ## Collecting -/

/-- Between `epoll_wait` and the first callback. -/
structure Collecting (m : Mode) (w : St) (evs : List (Int × UInt32)) (now : UInt64) (x : Watched) : Prop where
  point : Point m x.1
  gathered : Gathered w (Raised w evs now) x.1
  calls : x.2.calls = []
  phase : x.2.phase = .collecting w evs now
  sorted : x.1.Sorted
  known : x.1.Known
  run : x.1.inRun = true

section Collect
variable {m : Mode} {b : Call} {x : Watched} {s s' w : St} {evs : List (Int × UInt32)} {now : UInt64} {q : Ptr} {hd : Handle}
  {noti : UInt32}

namespace Collecting

theorem follows (h : Collecting m w evs now x) : Follows x.1 x.2 := by
  unfold Follows
  rw [h.phase]
  exact ⟨h.gathered, h.calls⟩

/-- What is collected is found again where the lists have only lost handles. -/
theorem shrink {g : Pass} (h : Collecting m w evs now x) (hp : Point m s') (hl : ∀ l, (s'.lists l).Sublist (x.1.lists l))
    (hh : s'.heap = x.1.heap) (hlog : s'.log = x.1.log) (hr : s'.inRun = x.1.inRun) (hg : g = x.2) :
    Collecting m w evs now (s', g) where
  point := hp
  gathered := by
    refine ⟨fun k hk => ?_, fun k hk => ?_, fun k hk => ?_⟩
    · rw [show s'.heap k = x.1.heap k from congrFun hh k]
      exact h.gathered.fdmon k ((hl _).subset hk)
    · rw [show s'.heap k = x.1.heap k from congrFun hh k]
      exact h.gathered.timer k ((hl _).subset hk)
    · rw [show s'.heap k = x.1.heap k from congrFun hh k]
      exact h.gathered.ready k ((hl _).subset hk)
  calls := hg ▸ h.calls
  phase := hg ▸ h.phase
  sorted := by
    refine TimersKept.sorted ⟨hl .timer, fun k _ => ?_, fun k _ => ?_⟩ h.sorted
    · unfold St.deadline
      rw [show s'.heap k = x.1.heap k from congrFun hh k]
    · rw [show s'.log = x.1.log from hlog]
  known := h.known.of_heap hh
  run := hr.trans h.run

/-- Reading changes nothing. -/
theorem passive {o : Op} {Q : o.Out → Watched → Prop} (h : Collecting m w evs now x) (ho : o.passive = true)
    (hq : ∀ e r s', o.exec e x.1 = .ok (r, s') → Collecting m w evs now (s', x.2) → Q r (s', x.2)) :
    Wq m b (Prog.act o) Q x := by
  have hy : o.yields = false := by cases o <;> first | rfl | cases ho
  have hsee : ∀ e r s, x.2.see o e r s = x.2 := by cases o <;> first | exact fun _ _ _ => rfl | cases ho
  refine wq_exec hy (due_tame (Op.Allowed.of_passive (k := False) ho).tame (Op.Allowed.of_passive (k := False) ho).notice
    fun _ => h.sorted) fun e r s' hp hx => ?_
  have hsame : s'.lists = x.1.lists ∧ s'.heap = x.1.heap ∧ s'.log = x.1.log ∧ s'.inRun = x.1.inRun := by
    cases o <;> try cases ho
    case ctx | next | contains => obtain ⟨-, hx⟩ := need_eq_ok hx; cases hx; exact ⟨rfl, rfl, rfl, rfl⟩
    case load =>
      simp only [Op.exec] at hx
      split at hx <;> cases hx
      exact ⟨rfl, rfl, rfl, rfl⟩
    case epollCtl cmd fd ev =>
      have hs : (ctlResult x.1 e.ctlErr cmd fd ev).2 = s' := congrArg Prod.snd (Res.ok.inj hx)
      obtain ⟨i, hi⟩ := ctlResult_interest x.1 e.ctlErr cmd fd ev
      rw [← hs, hi]
      exact ⟨rfl, rfl, rfl, rfl⟩
  rw [hsee]
  obtain ⟨hl, hh, hlog, hr⟩ := hsame
  have h' : Collecting m w evs now (s', x.2) := h.shrink hp (fun l => by rw [hl]) hh hlog hr rfl
  exact ⟨h'.follows, hq e r s' hx h'⟩

theorem only {α : Type} {p : Code α} {Q : α → Watched → Prop} (h : Collecting m w evs now x) (hp : Passive p)
    (hq : ∀ a x', Collecting m w evs now x' → Q a x') : Wq m b p Q x := by
  refine wp_mono (wp_only (I := Collecting m w evs now) (fun o x' ho h' => ?_) (fun hf => hf.elim) hp h) hq
  exact h'.passive ho fun _ _ _ _ h'' => h''

theorem load {Q : Handle → Watched → Prop} (h : Collecting m w evs now x)
    (hq : ∀ hd, x.1.heap q = some hd → Q hd x) : Wq m b (Evb2.load q) Q x := by
  refine h.passive rfl fun e hd s' hx _ => ?_
  simp only [Op.exec] at hx
  split at hx <;> cases hx
  exact hq hd ‹_›

theorem ctx {Q : St → Watched → Prop} (h : Collecting m w evs now x) (hq : Q x.1 x) : Wq m b Evb2.ctx Q x := by
  refine h.passive rfl fun e r s' hx _ => ?_
  obtain ⟨-, hx⟩ := need_eq_ok hx
  cases hx
  exact hq

/-- Only what is on the list has a successor. -/
theorem next {l : ListId} {Q : Option Ptr → Watched → Prop} (h : Collecting m w evs now x)
    (hq : ∀ r, q ∈ x.1.lists l → Q r x) : Wq m b (qentNext l q) Q x := by
  refine h.passive rfl fun e r s' hx _ => ?_
  obtain ⟨⟨-, hmem⟩, hx⟩ := need_eq_ok hx
  cases hx
  exact hq _ hmem

theorem remove {l : ListId} {Q : Bool → Watched → Prop} (h : Collecting m w evs now x) (hl : l ≠ .async)
    (hq : ∀ r x', Collecting m w evs now x' → x'.1.heap = x.1.heap → (∀ l', l' ≠ l → x'.1.lists l' = x.1.lists l') →
      q ∉ x'.1.lists l → Q r x') : Wq m b (qentRemove l q) Q x := by
  refine wq_exec rfl ⟨fun _ => h.sorted, trivial⟩ fun e r s' hp hx => ?_
  obtain ⟨-, hx⟩ := need_eq_ok hx
  rw [if_neg (fun hc => hl hc.1)] at hx
  cases hx
  have hsub : ∀ l', ((x.1.unlink l q).lists l').Sublist (x.1.lists l') := fun l' => by
    by_cases hll : l' = l
    · subst hll
      simpa [St.unlink, St.setList] using List.erase_sublist
    · simp [St.unlink, St.setList, hll]
  have h' := h.shrink (g := x.2) hp hsub rfl rfl rfl rfl
  refine ⟨h'.follows, hq _ _ h' rfl (fun l' hll => by simp [St.unlink, St.setList, hll]) ?_⟩
  simpa [St.unlink, St.setList] using (h.point.nodup l).not_mem_erase

end Collecting

/-- A handle that is due moves to `ready_list`. -/
theorem wq_toReady {α : Type} {rest : Code α} {Q : α → Watched → Prop} (h : Collecting m w evs now x)
    (hh : x.1.heap q = some hd) (ho : q ∈ x.1.lists .fdmon ∨ q ∈ x.1.lists .timer) (hr : Raised w evs now q noti)
    (hq : ∀ x', Collecting m w evs now x' → Wq m b rest Q x') :
    Wq m b (do
      let _ ← qentRemove .fdmon q
      let _ ← qentRemove .timer q
      store q ({ · with noti := noti })
      qentInsertTail .ready q
      rest) Q x := by
  have hnr : q ∉ x.1.lists .ready := fun hr => by
    rcases ho with ho | ho
    · cases (h.point.sane q).link _ _ (by simp) (by simp) ho hr
    · exact ((h.point.sane q).timer ho).1 hr
  have hw : w.heap q = some hd := by
    rcases ho with ho | ho
    · rw [← (h.gathered.fdmon q ho).2]
      exact hh
    · rw [← (h.gathered.timer q ho).2]
      exact hh
  refine wp.seq (h.remove (by simp) fun _ x₁ h₁ hh₁ hl₁ hf₁ => wp.seq ?_)
  refine h₁.remove (by simp) fun _ x₂ h₂ hh₂ hl₂ ht₂ => wp.seq ?_
  have hf₂ : q ∉ x₂.1.lists .fdmon := by
    rw [hl₂ _ (by simp)]
    exact hf₁
  have hr₂ : q ∉ x₂.1.lists .ready := by
    rw [hl₂ _ (by simp), hl₁ _ (by simp)]
    exact hnr
  have hq₂ : x₂.1.heap q = some hd := by
    rw [hh₂, hh₁]
    exact hh
  refine wq_exec rfl ⟨fun _ => h₂.sorted, trivial⟩ fun e r s₃ hp₃ hx => ?_
  obtain ⟨hd', hhd', rfl⟩ := exec_store hx
  obtain rfl : hd = hd' := Option.some.inj (hq₂.symm.trans hhd')
  have hne : ∀ {l k}, q ∉ x₂.1.lists l → k ∈ x₂.1.lists l → (x₂.1.put q { hd with noti := noti }).heap k = x₂.1.heap k :=
    fun hn hk => by
      have hkq : _ ≠ q := fun he => hn (he ▸ hk)
      simp [St.put, hkq]
  have hself : (x₂.1.put q { hd with noti := noti }).heap q = some { hd with noti := noti } := by simp [St.put]
  have h₃ : Collecting m w evs now (x₂.1.put q { hd with noti := noti }, x₂.2) := by
    refine ⟨hp₃, ⟨fun k hk => ?_, fun k hk => ?_, fun k hk => ?_⟩, h₂.calls, h₂.phase, ?_, h₂.known.put hq₂ rfl rfl, h₂.run⟩
    · rw [hne hf₂ hk]
      exact h₂.gathered.fdmon k hk
    · rw [hne ht₂ hk]
      exact h₂.gathered.timer k hk
    · rw [hne hr₂ hk]
      exact h₂.gathered.ready k hk
    · exact (timersKept_put hq₂ fun hy => absurd hy ht₂).sorted h₂.sorted
  refine ⟨h₃.follows, wp.seq (wq_exec rfl ⟨fun _ => h₃.sorted, trivial⟩ fun e r s₄ hp₄ hx => ?_)⟩
  obtain ⟨-, hx⟩ := need_eq_ok hx
  cases hx
  have h₄ : Collecting m w evs now ((x₂.1.put q { hd with noti := noti }).append .ready q, x₂.2) := by
    refine ⟨hp₄, ⟨h₃.gathered.fdmon, h₃.gathered.timer, fun k hk => ?_⟩, h₃.calls, h₃.phase, h₃.sorted, h₃.known, h₃.run⟩
    have hk' : k ∈ x₂.1.lists .ready ++ [q] := by
      simpa [St.append, St.setList, St.put] using hk
    rcases List.mem_append.1 hk' with hk | hk
    · exact h₃.gathered.ready k hk
    · obtain rfl := List.mem_singleton.1 hk
      refine ⟨noti, ?_, hr⟩
      rw [hw]
      exact hself
  exact ⟨h₄.follows, hq _ h₄⟩

theorem wq_handleToReady {Q : Unit → Watched → Prop} (h : Collecting m w evs now x)
    (ho : q ∈ x.1.lists .fdmon ∨ q ∈ x.1.lists .timer) (hr : Raised w evs now q noti)
    (hq : ∀ x', Collecting m w evs now x' → Q () x') : Wq m b (handleToReady q noti) Q x := by
  refine wp.seq (h.load fun hd hh => ?_)
  exact wq_toReady h hh ho hr fun x' h' => h'.only passive_refreshFd fun _ x'' h'' => hq x'' h''

theorem wq_collectEvent {fd : Int} {e : UInt32} {Q : Unit → Watched → Prop} (h : Collecting m w evs now x)
    (he : (fd, e) ∈ evs) (hq : ∀ x', Collecting m w evs now x' → Q () x') : Wq m b (collectEvent now fd e) Q x := by
  refine wp.seq (h.ctx (wp.seq ?_))
  refine wp_iterate (fun _ => Collecting m w evs now) h ?_
  rintro ⟨q, hit⟩ x₁ h₁
  cases q with
  | none =>
    refine wp_pure ?_
    show Wq m b (if hit then _ else _) Q x₁
    cases hit with
    | true => exact wp.seq (h₁.only passive_epollRefresh fun _ x₂ h₂ => wp_pure (hq x₂ h₂))
    | false => exact wp_pure (hq x₁ h₁)
  | some q =>
    refine wp.seq (h₁.load fun hd hh => wp.seq (h₁.next fun next hmem => ?_))
    split
    · exact wp_pure h₁
    rename_i hfd
    simp only [ne_eq, not_not] at hfd
    split
    · exact wp_pure h₁
    rename_i hne
    obtain ⟨hw, hwh⟩ := h₁.gathered.fdmon q hmem
    refine wq_toReady h₁ hh (.inl hmem) ⟨hd, hwh ▸ hh, .inl ⟨hw, e, ?_, rfl, hne⟩⟩ fun x₂ h₂ => wp_pure h₂
    rw [hfd]
    exact he

theorem wq_collectEvents {evs' : List (Int × UInt32)} {Q : Unit → Watched → Prop} (h : Collecting m w evs now x)
    (he : ∀ ev ∈ evs', ev ∈ evs) (hq : ∀ x', Collecting m w evs now x' → Q () x') :
    Wq m b (collectEvents now evs') Q x := by
  induction evs' generalizing x with
  | nil => exact wp_pure (hq x h)
  | cons ev evs' ih =>
    obtain ⟨fd, e⟩ := ev
    refine wp.seq (wq_collectEvent h (he _ (by simp)) fun x₁ h₁ => ?_)
    exact ih h₁ fun ev hev => he ev (by simp [hev])

/-- The timers are collected from the front of the list until one is not due. -/
theorem wq_collectTimers {Q : Unit → Watched → Prop} (h : Collecting m w evs now x)
    (hq : ∀ x', Collecting m w evs now x' → Spent x'.1 x'.2 → Q () x') : Wq m b (collectTimers now) Q x := by
  refine wp_iterate (fun _ => Collecting m w evs now) h fun _ x₁ h₁ => wp.seq (h₁.ctx ?_)
  have hspent : (∀ k ∈ x₁.1.lists .timer, now < x₁.1.deadline k) → Spent x₁.1 x₁.2 := by
    intro hall w' evs' now' hph
    rw [h₁.phase] at hph
    cases hph
    exact hall
  cases hl : x₁.1.lists .timer with
  | nil => exact wp_pure (hq x₁ h₁ (hspent (by simp [hl])))
  | cons q qs =>
    have hmem : q ∈ x₁.1.lists .timer := by simp [hl]
    refine wp.seq (h₁.load fun hd hh => ?_)
    have hdl : x₁.1.deadline q = hd.timeoutAt := by simp [St.deadline, hh]
    split
    · rename_i hlate
      refine wp_pure (hq x₁ h₁ (hspent fun k hk => ?_))
      rw [← hdl] at hlate
      -- All others stand behind the first.
      rw [hl] at hk
      rcases List.mem_cons.1 hk with rfl | hk
      · exact hlate
      · have hs := h₁.sorted
        unfold St.Sorted at hs
        rw [hl] at hs
        rcases (List.pairwise_cons.1 hs).1 k hk with hlt | ⟨heq, -⟩
        · exact UInt64.lt_trans hlate hlt
        · exact heq ▸ hlate
    · rename_i hdue
      obtain ⟨hw, hwh⟩ := h₁.gathered.timer q hmem
      refine wp.seq (wq_handleToReady h₁ (.inr hmem) ⟨hd, hwh ▸ hh, .inr ⟨hw, rfl, UInt64.not_lt.1 hdue⟩⟩ fun x₂ h₂ => ?_)
      exact wp_pure h₂

end Collect

/-! ## Dispatching -/

/-- Between two rounds of the dispatch loop. -/
structure Turn (m : Mode) (x : Watched) : Prop where
  point : Point m x.1
  sorted : x.1.Sorted
  known : x.1.Known
  run : x.1.inRun = true
  spent : Spent x.1 x.2
  /-- `done` of `batch` has been taken up, before the first round nothing of what was collected. -/
  stage : ∃ w evs now batch done, BatchOk w evs now batch done x.2.calls x.1 ∧
    ∀ r : Option Ptr, x.2.phase.take (x.1.lists .ready) r = .dispatching w evs now batch (done ++ r.toList)

/-- A handle has been taken off `ready_list`, and its callback not been called. -/
structure Taken (m : Mode) (q : Ptr) (noti : UInt32) (x : Watched) : Prop extends Unnoticed m True x x where
  run : x.1.inRun = true
  off : q ∉ x.1.lists .ready
  stage : ∃ w evs now batch done, x.2.phase = .dispatching w evs now batch (done ++ [q]) ∧
    (x.2.calls.map Prod.fst).Sublist done ∧ Raised w evs now q noti

section Dispatch
variable {m : Mode} {b : Call} {x x₀ : Watched} {s s' w : St} {evs : List (Int × UInt32)} {now : UInt64} {q : Ptr}
  {hd : Handle} {noti : UInt32}

theorem Collecting.turn (h : Collecting m w evs now x) (hs : Spent x.1 x.2) : Turn m x := by
  refine ⟨h.point, h.sorted, h.known, h.run, hs, w, evs, now, x.1.lists .ready, [], ?_, fun r => ?_⟩
  · refine ⟨h.point.nodup .ready, .refl _, fun k hk => ?_, fun k hk => ?_, ?_, ?_⟩
    · obtain ⟨noti, -, hd, -, hl⟩ := h.gathered.ready k hk
      exact hl.imp (fun hl => hl.1) fun hl => hl.1
    · obtain ⟨noti, hh, hr⟩ := h.gathered.ready k hk
      obtain ⟨hd, hw, -⟩ := id hr
      exact ⟨noti, by simp [hh, hw], hr⟩
    · simp [h.calls]
    · simp [h.calls]
  · rw [h.phase]
    rfl

/-- Work that goes unnoticed while a batch is dispatched comes to the next round. -/
theorem Unnoticed.turn (h : Unnoticed m True x₀ x) (hr : x₀.1.inRun = true) {batch done : List Ptr}
    (hp : x₀.2.phase = .dispatching w evs now batch done) : Turn m x := by
  have hph : x.2.phase = .dispatching w evs now batch done := h.phase.trans hp
  refine ⟨h.point, h.sorted, h.known trivial, h.tame.run hr, fun w' evs' now' hp' => ?_, w, evs, now, batch, done, ?_,
    fun r => ?_⟩
  · rw [hph] at hp'
    cases hp'
  · have hf := h.follows
    unfold Follows at hf
    rw [hph] at hf
    exact hf
  · rw [hph]
    rfl

/-- Taking the next handle. Without one, the batch is done. -/
theorem wq_popReady {Q : Option Ptr → Watched → Prop} (h : Turn m x)
    (hnone : ∀ x', Unnoticed m True x' x' → x'.1.inRun = true → (∃ w evs now batch done,
      x'.2.phase = .dispatching w evs now batch done) → x'.2.calls = x.2.calls → Q none x')
    (hsome : ∀ q noti x', Taken m q noti x' → (x'.1.heap q).map Handle.noti = some noti → x'.2.calls = x.2.calls →
      Q (some q) x') : Wq m b (qentPop .ready) Q x := by
  obtain ⟨w, evs, now, batch, done, hb, htake⟩ := h.stage
  refine wq_exec rfl ⟨fun _ => h.sorted, h.spent⟩ fun e r s' hp hx => ?_
  obtain ⟨-, hx⟩ := need_eq_ok hx
  cases hl : x.1.lists .ready with
  | nil =>
    simp only [hl] at hx
    cases hx
    set g : Pass := { x.2 with phase := x.2.phase.take (x.1.lists .ready) none } with hg
    have hph : g.phase = .dispatching w evs now batch done := by
      rw [hg]
      simpa using htake none
    have hf : Follows x.1 g := by
      unfold Follows
      rw [hph]
      exact hb
    refine ⟨hf, hnone (x.1, g) ⟨.refl h.point hf ?_ fun _ => h.known, h.sorted⟩ h.run ⟨w, evs, now, batch, done, hph⟩ rfl⟩
    show g.phase.Open
    rw [hph]
    trivial
  | cons q qs =>
    simp only [hl] at hx
    rw [if_neg (by simp)] at hx
    cases hx
    set g : Pass := { x.2 with phase := x.2.phase.take (x.1.lists .ready) (some q) } with hg
    set s' := x.1.setList .ready qs with hs'
    have hph : g.phase = .dispatching w evs now batch (done ++ [q]) := by
      rw [hg]
      exact htake (some q)
    have hqs : s'.lists .ready = qs := by simp [hs', St.setList]
    have hnd : (q :: qs).Nodup := hl ▸ h.point.nodup .ready
    have hrest := hb.rest
    have hbatch : BatchOk w evs now batch (done ++ [q]) g.calls s' := by
      refine ⟨hb.nodup, ?_, hb.linked, fun k hk => ?_, hb.called.trans (List.sublist_append_left _ _), hb.raised⟩
      · rw [hqs, List.append_assoc]
        rw [hl] at hrest
        exact hrest
      · rw [hqs] at hk
        exact hb.ready k (by simp [hl, hk])
    have hf : Follows s' g := by
      unfold Follows
      rw [hph]
      exact hbatch
    have hopen : g.phase.Open := by
      rw [hph]
      trivial
    obtain ⟨noti, hn, hr⟩ := hb.ready q (by simp [hl])
    have htl : s'.lists .timer = x.1.lists .timer := by simp [hs', St.setList]
    have hsort : s'.Sorted := by
      refine TimersKept.sorted ⟨?_, fun _ _ => rfl, fun _ _ => rfl⟩ h.sorted
      rw [htl]
    refine ⟨hf, hsome q noti (s', g) ⟨⟨.refl hp hf hopen fun _ => h.known.of_heap rfl, hsort⟩, h.run, ?_, w, evs, now, batch,
      done, hph, hb.called, hr⟩ hn rfl⟩
    show q ∉ s'.lists .ready
    rw [hqs]
    exact (List.nodup_cons.1 hnd).1

theorem wq_asyncHandler {flag : UInt32} {Q : Unit → Watched → Prop} (h : Unnoticed m True x₀ x) (hr : x₀.1.inRun = true)
    (hq : ∀ x', Unnoticed m True x₀ x' → Q () x') : Wq m b (asyncHandler flag) Q x := by
  unfold asyncHandler
  split
  · exact wp_pure (hq x h)
  · exact wp.seq (h.only only_drainPipe fun _ x₁ h₁ => wq_evb2InstallAsync h₁ hr hq)

/-- A pass in which the callback of `q` has been called, since when only tame work was done. -/
structure Called (m : Mode) (q : Ptr) (x₀ x : Watched) : Prop extends Unnoticed m True x₀ x where
  run : x₀.1.inRun = true
  off : q ∉ x₀.1.lists .ready
  stage : ∃ w evs now batch done, x₀.2.phase = .dispatching w evs now batch done

/-- The callback of a handle that was taken is called, and noted if it is a user's. -/
theorem wq_invoke {Q : Unit → Watched → Prop} (h : Taken m q hd.noti x)
    (hk : (q = wake ∧ hd.cb = some .asyncHandler) ∨ (q ≠ wake ∧ ∃ f, hd.cb = some (.user f)))
    (hq : ∀ x₁ x', Called m q x₁ x' → x₁.2.calls.length = x.2.calls.length + (if q = wake then 0 else 1) → Q () x') :
    Wq m b (invoke q hd) Q x := by
  obtain ⟨w, evs, now, batch, done, hph, hcalled, hr⟩ := h.stage
  unfold invoke
  rcases hk with ⟨hw, hcb⟩ | ⟨hw, f, hcb⟩
  · rw [hcb]
    refine wq_asyncHandler h.toUnnoticed h.run fun x' h' => hq x x' ⟨h', h.run, h.off, w, evs, now, batch, _, hph⟩ ?_
    rw [if_pos hw, Nat.add_zero]
  rw [hcb]
  refine wp.seq (h.act_exec (.of_plain rfl) rfl fun _ evb _ hx h₁ => ?_)
  obtain ⟨-, hx⟩ := need_eq_ok hx
  cases hx
  refine wp.seq (wq_exec rfl ⟨fun _ => h.sorted, trivial⟩ fun e r s₂ hp₂ hx => ?_)
  cases hx
  set ev : Event := .dispatch q hd.fd hd.noti hd.userData hd.flag2.oneshot x.1.stopping with hev
  set g : Pass := { x.2 with calls := x.2.calls ++ [(q, hd.noti)] } with hg
  have hb : BatchOk w evs now batch (done ++ [q]) x.2.calls x.1 := by
    have hf := h.follows
    unfold Follows at hf
    rw [hph] at hf
    exact hf
  have hf : Follows (x.1.emit ev) g := by
    unfold Follows
    rw [show g.phase = .dispatching w evs now batch (done ++ [q]) from hph]
    refine ⟨hb.nodup, hb.rest, hb.linked, hb.ready, ?_, fun c hc => ?_⟩
    · rw [show g.calls = x.2.calls ++ [(q, hd.noti)] from rfl, List.map_append]
      exact hcalled.append (.refl _)
    · rcases List.mem_append.1 hc with hc | hc
      · exact hb.raised c hc
      · obtain rfl := List.mem_singleton.1 hc
        exact hr
  have hsame : Same x.1 (x.1.emit ev) := .of_eq rfl rfl rfl id (.inr ⟨ev, rfl, fun _ => rfl⟩)
  have h₂ : Unnoticed m True (x.1.emit ev, g) (x.1.emit ev, g) :=
    ⟨.refl hp₂ hf h.opened fun _ => (h.known trivial).of_heap rfl, (hsame.timers hp₂).sorted h.sorted⟩
  refine ⟨hf, wp.seq (h₂.callback h.run fun x₃ h₃ => wp.seq (h₃.act (.of_plain rfl) fun evb x₄ h₄ => ?_))⟩
  refine h₄.act ⟨trivial, fun _ => trivial, rfl⟩ fun _ x₅ h₅ => hq _ x₅ ⟨h₅, h.run, h.off, w, evs, now, batch, _, hph⟩ ?_
  rw [if_neg hw]
  exact List.length_append

theorem wq_evb2ArmTimer {Q : Unit → Watched → Prop} (h : Unnoticed m True x₀ x)
    (hq : ∀ x', Unnoticed m True x₀ x' → Q () x') : Wq m b (evb2ArmTimer q) Q x := by
  refine wp.seq (h.act (.of_plain rfl) fun now x₁ h₁ => wp.seq (h₁.act_exec (.of_plain rfl) rfl fun e r s₂ hx h₂ => ?_))
  have hoff : q ∉ s₂.lists .timer := by
    obtain ⟨-, hx⟩ := need_eq_ok hx
    cases hx
    simpa [St.unlink, St.setList] using (h₁.point.nodup .timer).not_mem_erase
  have harm : ∀ x', Unnoticed m True x₀ x' → Wq m b (timerInsertFinite q) Q x' := fun x' h' =>
    h'.only only_timerInsertFinite fun _ x'' h'' => hq x'' h''
  refine wp.seq (wp.seq (h₂.act_exec (.of_plain rfl) rfl fun e hd s' hx h₃ => ?_))
  simp only [Op.exec] at hx
  split at hx <;> cases hx
  split
  · exact h₃.setTimeoutAt hoff fun x₄ h₄ _ => harm x₄ h₄
  · exact wq_evb2SetTimeout h₃ hoff fun x₄ h₄ _ => harm x₄ h₄

theorem wq_rearm {fd : Int} {Q : Unit → Watched → Prop} (h : Unnoticed m True x₀ x) (hoff : q ∉ x.1.lists .ready)
    (hq : ∀ x', Unnoticed m True x₀ x' → Q () x') : Wq m b (rearm q fd) Q x := by
  have hrest : ∀ x', Unnoticed m True x₀ x' → Wq m b (do evb2ArmTimer q; refreshFd fd) Q x' := fun x' h' =>
    wp.seq (wq_evb2ArmTimer h' fun x₁ h₁ => h₁.only passive_refreshFd.only fun _ x₂ h₂ => hq x₂ h₂)
  refine wp.seq (h.store hoff (fun _ _ => rfl) (fun _ _ => ⟨rfl, rfl⟩) fun x₁ h₁ _ => wp.seq ?_)
  split
  · exact h₁.act (.of_plain rfl) fun _ x₂ h₂ => hrest x₂ h₂
  · exact wp_pure (hrest x₁ h₁)

/-- The rest of a round counts the callback that was noted. -/
theorem wq_afterCallback {cnt : Int} {Q : Int → Watched → Prop} (h : Called m q x₀ x)
    (hq : ∀ n x', Turn m x' → x'.2.calls = x₀.2.calls → n = cnt + (if q = wake then 0 else 1) → Q n x') :
    Wq m b (afterCallback q hd cnt) Q x := by
  obtain ⟨w, evs, now, batch, done, hph⟩ := h.stage
  refine wp.seq (h.act (.of_plain rfl) fun _ x₁ h₁ => wp.seq (h₁.act_exec (.of_plain rfl) rfl fun e hd' s' hx h₂ => ?_))
  simp only [Op.exec] at hx
  split at hx <;> cases hx
  rename_i hh
  have hcnt : (if hd'.flag2.internal = true then cnt else cnt + 1) = cnt + (if q = wake then 0 else 1) := by
    rcases h₁.known trivial q hd' hh with ⟨hw, -, hi⟩ | ⟨hw, -, hi⟩
    · rw [if_pos hi, if_pos hw, Int.add_zero]
    · rw [if_neg (by simp [hi]), if_neg hw]
  refine wp.seq (h₂.act (.of_plain rfl) fun evb x₃ h₃ => ?_)
  have hdone : ∀ x', Unnoticed m True x₀ x' → Q (if hd'.flag2.internal = true then cnt else cnt + 1) x' := fun x' h' =>
    hq _ x' (h'.turn h.run hph) h'.calls hcnt
  split
  · exact wp.seq (h₃.act (.of_plain rfl) fun _ x₄ h₄ => wp_pure (hdone x₄ h₄))
  · refine wp.seq (wq_rearm h₃ (fun hr => h.off (h₃.tame.ready.subset hr)) fun x₄ h₄ => wp_pure (hdone x₄ h₄))

/-- A batch is dispatched to its end. -/
theorem wq_dispatchReady {Q : Int → Watched → Prop} (h : Turn m x) (hc : x.2.calls = [])
    (hq : ∀ (n : Int) x', Unnoticed m True x' x' → x'.1.inRun = true → (∃ w evs now batch done,
      x'.2.phase = .dispatching w evs now batch done) → n = x'.2.calls.length → Q n x') :
    Wq m b dispatchReady Q x := by
  refine wp_iterate (fun (cnt : Int) x₁ => Turn m x₁ ∧ cnt = x₁.2.calls.length) ⟨h, by simp [hc]⟩ ?_
  rintro cnt x₁ ⟨h₁, hcnt⟩
  refine wp.seq (wq_popReady h₁ (fun x₂ h₂ hr hph hcalls => ?_) fun q noti x₂ h₂ hn hcalls => ?_)
  · exact wp_pure (hq cnt x₂ h₂ hr hph (by rw [hcnt, hcalls]))
  refine wp.seq (h₂.act_exec (.of_plain rfl) rfl fun e hd s' hx h₃ => ?_)
  simp only [Op.exec] at hx
  split at hx <;> cases hx
  rename_i hh
  obtain rfl : hd.noti = noti := by
    rw [hh] at hn
    exact Option.some.inj hn
  have hk : (q = wake ∧ hd.cb = some .asyncHandler) ∨ (q ≠ wake ∧ ∃ f, hd.cb = some (.user f)) :=
    (h₂.known trivial q hd hh).imp (fun h => ⟨h.1, h.2.1⟩) fun h => ⟨h.1, h.2.1⟩
  refine wp.seq (h₃.act_exec (.of_plain rfl) rfl fun e r s₄ hx h₄ => ?_)
  obtain ⟨-, hx⟩ := need_eq_ok hx
  cases hx
  have h₅ : Taken m q hd.noti ({ x₂.1 with notifying := some q }, x₂.2) := ⟨h₄.rebase, h₂.run, h₂.off, h₂.stage⟩
  refine wp.seq (wq_invoke h₅ hk fun x₀ x₆ h₆ hlen => wp.seq (wq_afterCallback h₆ fun n x₇ h₇ hc₇ hn₇ => ?_))
  have hlen' : x₀.2.calls.length = x₁.2.calls.length + (if q = wake then 0 else 1) := hcalls ▸ hlen
  refine wp_pure ⟨h₇, ?_⟩
  rw [hn₇, hc₇, hlen', hcnt]
  split <;> simp

end Dispatch

/-! ## The whole pass -/

section Pass
variable {m : Mode} {b : Call} {x x₀ : Watched} {s s' : St}

theorem wq_evb2RunLeave {rc : Int} {Q : Int → Watched → Prop} (h : Unnoticed m True x x) (hr : x.1.inRun = true)
    (hret : x.2.Returns rc) (hq : ∀ n x', (passes m).atUser x' → (x'.1.inRun = false → x'.2.Returns n) → Q n x') :
    Wq m b (evb2RunLeave rc) Q x := by
  refine wp.seq (h.act_exec (.of_plain rfl) rfl fun e evb s' hx h₁ => ?_)
  obtain ⟨-, hx⟩ := need_eq_ok hx
  cases hx
  split
  · refine wp.seq (wq_exec rfl ⟨fun _ => h.sorted, trivial⟩ fun e r s₂ hp hx => ?_)
    obtain ⟨-, hx⟩ := need_eq_ok hx
    cases hx
    have hf : Follows { x.1 with inRun := false } x.2 := h.follows.of_lists (fun _ _ => rfl) fun _ _ _ => rfl
    exact ⟨hf, wp_pure (hq rc _ ⟨h.sorted, h.opened, hf⟩ fun _ => hret)⟩
  · rename_i hs
    refine wp.seq (wq_evb2Free h₁ hr (by simpa using hs) fun x₂ h₂ => wp_pure (hq _ x₂ h₂.ends.1 fun hi => ?_))
    rw [h₂.tame.run hr] at hi
    cases hi

theorem wq_firstDeadline {k : Prop} {Q : Option UInt64 → Watched → Prop} (h : Unnoticed m k x₀ x)
    (hq : Q ((x.1.lists .timer).head?.map x.1.deadline) x) : Wq m b firstDeadline Q x := by
  refine wp.seq (h.act_exec (.of_plain rfl) rfl fun e evb s' hx h₁ => ?_)
  obtain ⟨-, hx⟩ := need_eq_ok hx
  cases hx
  cases hl : x.1.lists .timer with
  | nil =>
    rw [hl] at hq
    exact wp_pure hq
  | cons q qs =>
    refine wp.seq (h₁.act_exec (.of_plain rfl) rfl fun e hd s' hx h₂ => ?_)
    clear h₂
    simp only [Op.exec] at hx
    split at hx <;> cases hx
    rename_i hh
    have hfirst : (x.1.lists .timer).head?.map x.1.deadline = some hd.timeoutAt := by
      have hd' : x.1.deadline q = hd.timeoutAt := by
        rw [St.deadline, hh]
        rfl
      rw [hl, List.head?_cons, Option.map_some, hd']
    rw [hfirst] at hq
    exact wp_pure hq

/-- `epoll_wait` has returned these events. -/
structure Waiting (m : Mode) (w : St) (evs : List (Int × UInt32)) (x : Watched) : Prop where
  point : Point m x.1
  same : x.1 = w
  idle : w.lists .ready = []
  calls : x.2.calls = []
  phase : x.2.phase = .waited w evs
  sorted : x.1.Sorted
  known : x.1.Known
  run : x.1.inRun = true

/-- The loop waits until the first deadline at the latest. -/
theorem wq_epollWait {t : Int} {ms : UInt64} {Q : WaitRes → Watched → Prop}
    (h : Unnoticed m True x₀ x) (hb : b = .runOnce ms)
    (ht : t = waitTimeout ((x.1.lists .timer).head?.map x.1.deadline) x.2.clock ms) (hr : x₀.1.inRun = true)
    (hidle : x.1.lists .ready = []) (hph : x.2.phase = .idle)
    (hfail : ∀ r x', (∀ evs, r ≠ .events evs) → Unnoticed m True x' x' → x'.1.inRun = true → x'.2.phase = .idle → Q r x')
    (hevs : ∀ w evs x', Waiting m w evs x' → Q (.events evs) x') : Wq m b (epollWait t) Q x := by
  have hcalls : x.2.calls = [] := by
    have hf := h.follows
    unfold Follows at hf
    rw [hph] at hf
    exact hf
  refine wq_op fun s hy _ => ?_
  have hi : Meanwhile m x.1 s := hy rfl
  have hps : Point m s := hi.point h.point
  have hsort : s.Sorted := ((hi.same h.point).timers hps).sorted h.sorted
  have hrun : s.inRun = true := hi.inRun.trans (h.tame.run hr)
  have hlt : s.lists .timer = x.1.lists .timer := hi.lists .timer (by simp)
  have hready : s.lists .ready = [] := (hi.lists .ready (by simp)).trans hidle
  have hfirst : (s.lists .timer).head?.map s.deadline = (x.1.lists .timer).head?.map x.1.deadline := by
    rw [hlt]
    cases hl : x.1.lists .timer with
    | nil => rfl
    | cons q qs =>
      have hq : s.heap q = x.1.heap q := hi.heap h.point (l := .timer) (by simp [hl])
      simp [St.deadline, hq]
  refine ⟨⟨fun _ => hsort, ms, hb, ?_⟩, fun e r s' _ hp hx => ?_⟩
  · rw [ht, ← hfirst]
  have hother : ∀ r, (∀ evs, r ≠ .events evs) → (x.2.see (.epollWait t) e r s) = x.2 := by
    intro r hr
    cases r with
    | events evs => exact absurd rfl (hr evs)
    | eintr | error => rfl
  cases hx
  cases e.wait with
  | eintr | error =>
    have hu : Unnoticed m True x₀ (s, x.2) := ⟨h.toAside.meanwhile hi, hsort⟩
    exact ⟨hu.follows, hfail _ (s, x.2) (fun _ he => by cases he) hu.rebase hrun hph⟩
  | events evs =>
    set g : Pass := { x.2 with phase := .waited s (evs.take evb2EpollMax) } with hg
    have hf : Follows s g := by
      unfold Follows
      rw [show g.phase = .waited s (evs.take evb2EpollMax) from rfl]
      refine ⟨⟨fun k hk => ⟨hk, rfl⟩, fun k hk => ⟨hk, rfl⟩, fun k hk => ?_⟩, hcalls⟩
      rw [hready] at hk
      cases hk
    exact ⟨hf, hevs s _ (s, g) ⟨hp, rfl, hready, hcalls, rfl, hsort, hi.known h.point (h.known trivial), hrun⟩⟩

/-- The clock is read again, and collecting begins. -/
theorem Waiting.sample {w : St} {evs : List (Int × UInt32)} {Q : UInt64 → Watched → Prop} (h : Waiting m w evs x)
    (hq : ∀ now x', Collecting m w evs now x' → Q now x') : Wq m b evb2NowMs Q x := by
  refine wq_exec rfl ⟨fun _ => h.sorted, trivial⟩ fun e now s' hp hx => ?_
  cases hx
  have hc : Collecting m w evs e.clock (x.1, { x.2 with clock := e.clock, phase := x.2.phase.sample e.clock }) := by
    refine ⟨h.point, ⟨fun k hk => ?_, fun k hk => ?_, fun k hk => ?_⟩, h.calls, ?_, h.sorted, h.known, h.run⟩
    · rw [h.same] at hk ⊢
      exact ⟨hk, rfl⟩
    · rw [h.same] at hk ⊢
      exact ⟨hk, rfl⟩
    · rw [h.same, h.idle] at hk
      cases hk
    · show x.2.phase.sample e.clock = _
      rw [h.phase]
      rfl
  exact ⟨hc.follows, hq _ _ hc⟩

/-- A pass of the loop. A nested one is refused, and nothing else prevents one. -/
theorem wq_aloeEvb2RunOnce {ms : UInt64} {Q : Int → Watched → Prop} (h : Unnoticed m True x x) (hu : AtUser m x.1)
    (ha : x.1.alive = true) (hb : b = .runOnce ms)
    (hq : ∀ n x', (passes m).atUser x' → (x'.1.inRun = false → x'.2.Returns n) →
      (x.1.inRun = true → Unnoticed m True x x') → Q n x') : Wq m b (aloeEvb2RunOnce ms) Q x := by
  refine wp.seq (h.act_exec (.of_plain rfl) rfl fun e evb s' hx h₀ => ?_)
  obtain ⟨-, hx⟩ := need_eq_ok hx
  cases hx
  split
  · rename_i hcond
    refine wp_pure (hq _ _ h₀.ends.1 (fun hi => ?_) fun _ => h₀)
    have hi : x.1.inRun = false := hi
    obtain ⟨hstop, -⟩ := hu.idle ha hi
    have hfin : x.1.finalized = false := by
      by_contra hf
      rw [hu.fin (by simpa using hf)] at hstop
      cases hstop
    have hep := (hu.point.opened hfin).1
    rw [hstop, hfin, hi] at hcond
    simp only [Bool.false_eq_true, false_or] at hcond
    exact absurd hcond (not_lt.2 hep)
  rename_i hcond
  simp only [not_or, Bool.not_eq_true] at hcond
  obtain ⟨-, -, hrun, -⟩ := hcond
  have hout : ¬ x.1.inRun = true := by simp [hrun]
  have hleave : ∀ rc x', Unnoticed m True x' x' → x'.1.inRun = true → x'.2.Returns rc → Wq m b (evb2RunLeave rc) Q x' :=
    fun rc x' h' hr' hret => wq_evb2RunLeave h' hr' hret fun n x'' ha'' hn'' => hq n x'' ha'' hn'' fun hi => absurd hi hout
  refine wp.seq (wq_setInRun h₀ fun x₁ h₁ hx₁ hph₁ _ => wp.seq ?_)
  have hr₁ : x₁.1.inRun = true := by rw [hx₁]
  refine wq_evb2InstallAsync h₁ hr₁ fun x₂ h₂ => wp.seq (h₂.act_exec (.of_plain rfl) rfl fun e now s₃ hx h₃ => ?_)
  cases hx
  -- Nothing is ready while the loop waits.
  have hidle : x₂.1.lists .ready = [] := by
    refine List.eq_nil_iff_forall_not_mem.2 fun q hq => ?_
    have hq₁ : q ∈ x₁.1.lists .ready := h₂.tame.ready.subset hq
    rw [hx₁] at hq₁
    exact ((hu.idle ha hrun).2 q).1 hq₁
  refine wp.seq (wq_firstDeadline h₃ (wp.seq ?_))
  refine wq_epollWait h₃ hb rfl hr₁ hidle (h₃.phase.trans hph₁) (fun r x₄ hne h₄ hr₄ hph₄ => ?_) fun w evs x₄ h₄ => ?_
  · have hret : ∀ n : Int, n = 0 ∨ n = -1 → x₄.2.Returns n := fun n hn => by
      unfold Pass.Returns
      rw [hph₄]
      exact hn
    cases r with
    | eintr => exact hleave 0 x₄ h₄ hr₄ (hret 0 (.inl rfl))
    | error => exact hleave (-1) x₄ h₄ hr₄ (hret (-1) (.inr rfl))
    | events evs => exact absurd rfl (hne evs)
  refine wp.seq (h₄.sample fun now x₅ h₅ => wp.seq (wq_collectEvents h₅ (fun _ => id) fun x₆ h₆ => wp.seq ?_))
  refine wq_collectTimers h₆ fun x₇ h₇ hspent => wp.seq (wq_dispatchReady (h₇.turn hspent) h₇.calls ?_)
  rintro n x₈ h₈ hr₈ ⟨w, evs, now, batch, done, hph₈⟩ hn
  refine hleave n x₈ h₈ hr₈ ?_
  unfold Pass.Returns
  rw [hph₈]
  exact hn

end Pass

/-! ## The contract is met -/

section Met
variable {m : Mode} {b : Call} {x x₀ : Watched}

theorem Unnoticed.post {k : Prop} {r : Ret} (h : Unnoticed m k x₀ x) (hb : ∀ ms, b ≠ .runOnce ms) :
    (passes m).post b r x ∧ (passes m).atUser x ∧ (passes m).keeps x₀ x :=
  ⟨⟨h.sorted, fun ms _ he => absurd he (hb ms)⟩, h.ends⟩

theorem passes_met (m : Mode) : Contract.Met watch (watchGuard m) (passes m) where
  call b x hp hu hc := by
    obtain ⟨hg, hau⟩ := watchGuard_calls hc
    have ha : x.1.alive = true := by
      have hg' : (x.1.alive && b.handle.all fun h => valid x.1.log h && (m.stale || !dropped x.1.log h)) = true := hg
      simp only [Bool.and_eq_true] at hg'
      exact hg'.1
    have h : Unnoticed m False x x := .start hp.1 hu fun hf => hf.elim
    have hk : Unnoticed m True x x := .start hp.1 hu fun _ => hau.known
    cases b with
    | addFd fd ev t cb ud =>
      exact wq_handOut (fun _ => wq_aloeEvb2AddFd h) fun r x' h' => h'.post fun _ he => by cases he
    | addOneshotFd fd ev t cb ud =>
      exact wq_handOut (fun _ => wq_aloeEvb2AddOneshotFd h) fun r x' h' => h'.post fun _ he => by cases he
    | addTimer t cb ud =>
      exact wq_handOut (fun _ => wq_aloeEvb2AddFd h) fun r x' h' => h'.post fun _ he => by cases he
    | addOneshotTimer t cb ud =>
      exact wq_handOut (fun _ => wq_aloeEvb2AddOneshotTimer h) fun r x' h' => h'.post fun _ he => by cases he
    | cancel y =>
      exact wp.seq (h.only only_aloeEvb2Cancel fun r x' h' => wp_pure (h'.post fun _ he => by cases he))
    | cancelFd fd =>
      exact wp.seq (h.only only_aloeEvb2CancelFd fun r x' h' => wp_pure (h'.post fun _ he => by cases he))
    | setTimeout y ms =>
      exact wp.seq (wq_aloeEvb2SetTimeout h rfl fun r x' h' => wp_pure (h'.post fun _ he => by cases he))
    | runOnce ms =>
      refine wp.seq (wq_aloeEvb2RunOnce hk hau ha rfl fun n x' hu' hret hkeep => wp_pure ⟨⟨hu'.1, ?_⟩, hu', fun hr => ?_⟩)
      · rintro _ _ - ⟨⟩ hi
        exact hret hi
      · exact (hkeep hr).ends.2 hr
    | destroy =>
      refine wp.seq (wq_aloeEvb2Destroy h fun x' h' => wp_pure ⟨⟨h'.1.1, fun _ _ he => by cases he⟩, h'.1, fun hr => ?_⟩)
      exact (h'.2 hr).ends.2 hr
  steady := {
    other := fun l x x' _ hg ho => by
      obtain ⟨hg', hp⟩ := watchGuard_others hg
      have ho' : (Evb2.other l x.1).map (·, x.2) = some x' := ho
      obtain ⟨s', hs', rfl⟩ := Option.map_eq_some_iff.1 ho'
      exact ⟨other_meanwhile hp hg' hs', rfl⟩
    rely_point := fun x x' hp hr => by
      obtain ⟨s', g'⟩ := x'
      obtain ⟨hi, rfl⟩ := hr
      exact ⟨hi.point hp.1, hp.2.meanwhile hp.1 hi⟩
    rely_user := fun x x' hp hu hr => by
      obtain ⟨s', g'⟩ := x'
      obtain ⟨hi, rfl⟩ := hr
      have hs := hi.same hp.1
      have hp' := hi.point hp.1
      exact ⟨⟨(hs.timers hp').sorted hu.1, hu.2.1, hp.2.meanwhile hp.1 hi⟩, fun _ => ⟨hs.tame hp', rfl, rfl⟩⟩
    rely_refl := fun x => ⟨.refl m x.1, rfl⟩
    rely_trans := fun h h' => ⟨h.1.trans h'.1, h'.2.trans h.2⟩
    keeps_refl := fun x _ => ⟨.refl x.1, rfl, rfl⟩
    keeps_trans := fun h h' hr => by
      obtain ⟨h1, h2, h3⟩ := h hr
      obtain ⟨h4, h5, h6⟩ := h' (h1.run hr)
      exact ⟨h1.trans h4, h5.trans h2, h6.trans h3⟩ }

end Met

end AlgaeBp.Evb2
