import AlgaeBp.Ev.Queues
import AlgaeBp.Lib.StateWp
/-!
# The calls of the event loop

What `aloe_ev_put`, `aloe_ev_cancel` and `aloe_ev_once` do to the queues: each
is a sequence of the moves of `Owned`, whichever system calls fail.
-/
open Queues StateWp

namespace AlgaeBp.Ev

/-! ## Code that moves nothing -/

/-- The code leaves queues and registrations alone. -/
def Quiet {α : Type} (m : M α) : Prop := ∀ s, wp m (fun _ t => t.view = s.view) s

section Quiet
variable {α β : Type}

theorem quiet_pure (a : α) : Quiet (pure a : M α) := fun _ => rfl

theorem quiet_get : Quiet (get : M St) := fun _ => rfl

theorem Quiet.bind {m : M α} {f : α → M β} (hm : Quiet m) (hf : ∀ a, Quiet (f a)) : Quiet (m >>= f) :=
  fun s => (hm s).bind (fun a t ht => (hf a t).mono (fun _ _ hu => hu.trans ht))

theorem Quiet.ite {c : Prop} [Decidable c] {m m' : M α} (hm : Quiet m) (hm' : Quiet m') : Quiet (if c then m else m') := by
  split
  · exact hm
  · exact hm'

/-- A group keeps its descriptor and its queue. -/
theorem quiet_setGroup {g : Nat} {f : Group → Group} (hf : ∀ e, (f e).fd = e.fd ∧ (f e).notiQ = e.notiQ) :
    Quiet (setGroup g f) := by
  intro s
  have hupd : ∀ g', (Function.update s.group g (f (s.group g)) g').fd = (s.group g').fd ∧
      (Function.update s.group g (f (s.group g)) g').notiQ = (s.group g').notiQ := by
    intro g'
    by_cases h : g' = g
    · subst h
      rw [Function.update_self]
      exact hf _
    · rw [Function.update_of_ne h]
      exact ⟨rfl, rfl⟩
  simp only [setGroup, wp_modify, St.view]
  congr 1
  · exact funext (fun g' => (hupd g').1)
  · exact funext (fun g' => (hupd g').2)

/-- A record keeps what it is notified with. -/
theorem quiet_setNoti {x : Nat} {f : Noti → Noti} (hf : ∀ e, (f e).reg = e.reg) : Quiet (setNoti x f) := by
  intro s
  simp only [setNoti, wp_modify, St.view]
  congr 1
  funext y
  by_cases h : y = x
  · subst h
    rw [Function.update_self]
    exact hf _
  · rw [Function.update_of_ne h]

theorem quiet_ask : Quiet ask := fun _ => rfl

theorem quiet_sysMalloc : Quiet sysMalloc := quiet_ask.bind (fun _ => quiet_pure _)

theorem quiet_sysClock : Quiet sysClock := quiet_ask.bind (fun _ => quiet_get.bind (fun _ => quiet_pure _))

theorem quiet_sysEpollCtl (op : Ctl) (fd : Int) : Quiet (sysEpollCtl op fd) :=
  quiet_ask.bind (fun _ => quiet_get.bind (fun _ => .ite (quiet_pure _) (.bind (fun _ => rfl) (fun _ => quiet_pure _))))

theorem quiet_sysEpollWait (ms : Int64) : Quiet (sysEpollWait ms) :=
  quiet_ask.bind (fun _ => quiet_get.bind (fun _ => quiet_pure _))

theorem quiet_epollDel (g : Nat) (fd : Int) : Quiet (epollDel g fd) :=
  (quiet_sysEpollCtl _ _).bind (fun _ => .ite (quiet_pure _)
    ((quiet_setGroup (by simp)).bind (fun _ => quiet_pure _)))

theorem quiet_epollAddOrMod (events : UInt32) (g : Nat) (fd : Int) : Quiet (epollAddOrMod events g fd) :=
  (quiet_sysEpollCtl _ _).bind (fun _ => .ite (quiet_pure _) (.ite
    ((quiet_sysEpollCtl _ _).bind (fun _ => quiet_pure _)) (quiet_pure _)))

theorem quiet_epollSet (mask : UInt32) (g : Nat) (fd : Int) : Quiet (epollSet mask g fd) :=
  (quiet_epollAddOrMod _ _ _).bind (fun _ => .ite
    ((quiet_setGroup (by simp)).bind (fun _ => quiet_pure _)) (quiet_pure _))

theorem quiet_fdEpRefresh (g : Nat) : Quiet (fdEpRefresh g) :=
  quiet_get.bind (fun _ => .ite (quiet_pure _) (.ite (quiet_epollDel _ _) (.ite (quiet_pure _) (quiet_epollSet _ _ _))))

theorem quiet_putDue (a : PutArgs) : Quiet (putDue a) := by
  refine .ite (quiet_pure _) (quiet_sysClock.bind (fun r => ?_))
  cases r with
  | error e => exact quiet_pure _
  | ok now => exact quiet_pure _

theorem quiet_fdQFind (fd : Int) : Quiet (fdQFind fd) := quiet_get.bind (fun _ => quiet_pure _)

theorem quiet_aloeEvGet (fd : Int) (cb : Nat) : Quiet (aloeEvGet fd cb) := by
  refine (quiet_fdQFind fd).bind (fun g => ?_)
  cases g with
  | none => exact quiet_pure _
  | some g => exact quiet_get.bind (fun _ => quiet_pure _)

theorem quiet_scanGroups (gs : List Nat) (hasFd : Bool) (due : Option Timespec) : Quiet (scanGroups gs hasFd due) := by
  induction gs generalizing hasFd due with
  | nil => exact quiet_pure _
  | cons g gs ih => exact (quiet_setGroup (by simp)).bind (fun _ => quiet_get.bind (fun _ => ih _ _))

theorem quiet_timeoutMs (hasFd : Bool) (due : Option Timespec) : Quiet (timeoutMs hasFd due) := by
  cases due with
  | none => exact quiet_pure _
  | some due =>
    refine quiet_sysClock.bind (fun r => ?_)
    cases r with
    | error e => exact quiet_pure _
    | ok now => exact quiet_pure _

theorem quiet_passed : Quiet passed := by
  refine quiet_get.bind (fun s => (quiet_scanGroups s.fdQ false none).bind
    (fun r => (quiet_timeoutMs r.1 r.2).bind (fun ms => ?_)))
  cases ms with
  | error e => exact quiet_pure _
  | ok ms => exact quiet_get.bind (fun s => quiet_pure _)

theorem quiet_markGroups (found : List (Nat × UInt32)) : Quiet (markGroups found) := by
  induction found with
  | nil => exact quiet_pure _
  | cons p rest ih => exact (quiet_setGroup (by simp)).bind (fun _ => ih)

end Quiet

/-! ## Moves -/

/-- A clock that answers reads what it reads at this call. -/
theorem sysClock_wp (s : St) : wp sysClock (fun r t => t = { s with asked := s.asked + 1 } ∧
    ∀ now, r = .ok now → now = s.oracle.clock s.asked) s := by
  refine ⟨rfl, fun now hnow => ?_⟩
  change (if s.oracle.errno s.asked ≠ 0 then _ else _) = _ at hnow
  split at hnow
  · cases hnow
  · exact (Except.ok.inj hnow).symm

/-- A new queue for one group. -/
theorem view_setQueue (s : St) (g : Nat) (q : List Nat) :
    St.view { s with group := Function.update s.group g { s.group g with notiQ := q } } =
      { s.view with gq := Function.update s.view.gq g q } := by
  have hupd : ∀ g', (Function.update s.group g { s.group g with notiQ := q } g').fd = (s.group g').fd ∧
      (Function.update s.group g { s.group g with notiQ := q } g').notiQ =
        Function.update (fun g => (s.group g).notiQ) g q g' := by
    intro g'
    by_cases h : g' = g
    · subst h
      rw [Function.update_self, Function.update_self]
      exact ⟨rfl, rfl⟩
    · rw [Function.update_of_ne h, Function.update_of_ne h]
      exact ⟨rfl, rfl⟩
  simp only [St.view]
  congr 1
  · exact funext (fun g' => (hupd g').1)
  · exact funext (fun g' => (hupd g').2)

theorem takeOff_wp {x : Nat} {q : List Nat} (hx : x ∈ q) (s : St) :
    wp (takeOff x q) (fun r t => r = q.erase x ∧ t = s) s := by
  refine ⟨rfl, ?_⟩
  show { s with fault := s.fault || !q.contains x } = s
  simp [hx]

theorem offGroup_wp {g x : Nat} {s : St} (hx : x ∈ s.view.gq g) :
    wp (offGroup g x) (fun _ t => t.view = { s.view with gq := Function.update s.view.gq g ((s.view.gq g).erase x) }) s := by
  have hx' : x ∈ (s.group g).notiQ := hx
  unfold offGroup
  rw [wp_bind, wp_get]
  refine (takeOff_wp hx' s).bind (fun q t ht => ?_)
  obtain ⟨rfl, rfl⟩ := ht
  exact view_setQueue t g _

theorem offReady_wp {x : Nat} {s : St} (hx : x ∈ s.view.ready) :
    wp (offReady x) (fun _ t => t.view = { s.view with ready := s.view.ready.erase x }) s := by
  have hx' : x ∈ s.notiQ := hx
  unfold offReady
  rw [wp_bind, wp_get]
  refine (takeOff_wp hx' s).bind (fun q t ht => ?_)
  obtain ⟨rfl, rfl⟩ := ht
  rfl

theorem retireFd_wp {g : Nat} {s : St} (hg : g ∈ s.view.fdQ) :
    wp (retireFd g) (fun _ t => t.view =
      { s.view with fdQ := s.view.fdQ.erase g, spareFdQ := s.view.spareFdQ ++ [g] }) s := by
  have hg' : g ∈ s.fdQ := hg
  unfold retireFd
  rw [wp_bind, wp_get]
  refine (takeOff_wp hg' s).bind (fun q t ht => ?_)
  obtain ⟨rfl, rfl⟩ := ht
  rfl

section
variable {s : St} {regs : List (Nat × Reg)} {g x : Nat}

/-- A group that may be empty is retired if it is. -/
theorem retireIfEmpty_wp (h : Owned s.view regs [] [] (some g)) (hg : g ∈ s.view.fdQ) :
    wp (retireIfEmpty g) (fun _ t => Owned t.view regs [] [] none ∧ t.view.ready = s.view.ready ∧
      ∀ g' ∈ s.view.fdQ, g' ≠ g → g' ∈ t.view.fdQ) s := by
  unfold retireIfEmpty
  rw [wp_bind, wp_get]
  split
  · next hempty =>
    refine (retireFd_wp hg).mono (fun _ t ht => ?_)
    rw [ht]
    exact ⟨h.retire hg hempty, rfl, fun g' hg' hne => (List.mem_erase_of_ne hne).2 hg'⟩
  · next hfull => exact ⟨h.filled hfull, rfl, fun g' hg' _ => hg'⟩

theorem fdQFind_wp (fd : Int) (s : St) : wp (fdQFind fd) (fun r t => t = s ∧
    (∀ g, r = some g → g ∈ s.view.fdQ ∧ s.view.gfd g = fd) ∧
    (r = none → fd ∉ s.view.fdQ.map s.view.gfd)) s := by
  refine ⟨rfl, fun g hg => ?_, fun hnone hmem => ?_⟩
  · have hfind : s.fdQ.find? (fun g => decide ((s.group g).fd = fd)) = some g := hg
    have hfd : (s.group g).fd = fd := by simpa using List.find?_some hfind
    exact ⟨List.mem_of_find?_eq_some hfind, hfd⟩
  · have hfind : s.fdQ.find? (fun g => decide ((s.group g).fd = fd)) = none := hnone
    obtain ⟨g, hg, hfd⟩ := List.mem_map.1 hmem
    have hne : (s.group g).fd ≠ fd := by simpa using List.find?_eq_none.1 hfind g hg
    exact hne hfd

/-! ## Putting -/

/-- The active groups and the records to notify are as before. -/
structure SameActive (v v' : View) : Prop where
  fdQ : v'.fdQ = v.fdQ
  gfd : v'.gfd = v.gfd
  gq : v'.gq = v.gq
  ready : v'.ready = v.ready

theorem mallocNoti_wp {looseFd : List Nat} {hollow : Option Nat} (h : Owned s.view regs [] looseFd hollow) :
    wp mallocNoti (fun r t => SameActive s.view t.view ∧
      Owned t.view regs r.toList looseFd hollow) s := by
  refine (quiet_sysMalloc s).bind (fun b t ht => ?_)
  rw [← ht] at h ⊢
  split
  · exact ⟨⟨rfl, rfl, rfl, rfl⟩, h.newNoti⟩
  · exact ⟨⟨rfl, rfl, rfl, rfl⟩, h⟩

/-- A record is found, or nothing has changed. -/
theorem getNotiHolder_wp {looseFd : List Nat} {hollow : Option Nat} (h : Owned s.view regs [] looseFd hollow) :
    wp getNotiHolder (fun r t => SameActive s.view t.view ∧
      Owned t.view regs r.toList looseFd hollow) s := by
  unfold getNotiHolder popSpareNoti
  rw [wp_bind, wp_bind, wp_get]
  split
  · exact mallocNoti_wp h
  · next x rest hs => exact ⟨⟨rfl, rfl, rfl, rfl⟩, h.popSpare hs⟩

theorem mallocFd_wp (h : Owned s.view regs [] [] none) :
    wp mallocFd (fun r t => SameActive s.view t.view ∧ Owned t.view regs [] r.toList none) s := by
  refine (quiet_sysMalloc s).bind (fun b t ht => ?_)
  rw [← ht] at h ⊢
  split
  · exact ⟨⟨rfl, rfl, rfl, rfl⟩, h.newFd⟩
  · exact ⟨⟨rfl, rfl, rfl, rfl⟩, h⟩

theorem getSpareFd_wp (h : Owned s.view regs [] [] none) :
    wp getSpareFd (fun r t => SameActive s.view t.view ∧ Owned t.view regs [] r.toList none) s := by
  unfold getSpareFd fdQPopFirst
  rw [wp_bind, wp_bind, wp_get]
  split
  · exact mallocFd_wp h
  · next g rest hs => exact ⟨⟨rfl, rfl, rfl, rfl⟩, h.popSpareFd hs⟩

theorem chainNoti_wp (g x : Nat) (a : PutArgs) (due : Timespec) (s : St) :
    wp (chainNoti g x a due) (fun _ t => t.view = { s.view with
      gq := Function.update s.view.gq g (s.view.gq g ++ [x])
      reg := Function.update s.view.reg x a.reg }) s := by
  have hq : wp (setGroup g (fun e => { e with notiQ := e.notiQ ++ [x] })) (fun _ t => t.noti = s.noti ∧
      t.view = { s.view with gq := Function.update s.view.gq g (s.view.gq g ++ [x]) }) s := ⟨rfl, view_setQueue s g _⟩
  refine hq.bind (fun _ t ht => ?_)
  have hreg : ∀ y, (Function.update t.noti x { t.noti x with
      fd := a.fd, cb := a.cb, cbarg := a.cbarg, evWait := a.evWait, due := due } y).reg =
      Function.update s.view.reg x a.reg y := by
    intro y
    by_cases h : y = x
    · subst h
      rw [Function.update_self, Function.update_self]
      rfl
    · rw [Function.update_of_ne h, Function.update_of_ne h, ht.1]
      rfl
  have hview : ∀ noti : Nat → Noti, St.view { t with noti := noti } =
      { t.view with reg := fun y => (noti y).reg } := fun _ => rfl
  refine (hview _).trans ?_
  rw [ht.2]
  dsimp only
  congr 1
  exact funext hreg

/-- What `aloe_ev_put` comes to: a new registration, or none. -/
def PutPost (regs : List (Nat × Reg)) (r : Reg) (ready : List Nat) (x : Option Nat) (t : St) : Prop :=
  Owned t.view ((x.map (·, r)).toList ++ regs) [] [] none ∧ t.view.ready = ready

theorem putUndo_wp {r : Reg} (inq : Bool) (h : Owned s.view ((x, r) :: regs) [] [] none) (hg : g ∈ s.view.fdQ)
    (hx : x ∈ s.view.gq g) (hr : s.view.reg x = r) (hinq : inq = true → (s.view.gq g).erase x ≠ []) :
    wp (putUndo inq g x) (fun _ t => PutPost regs r s.view.ready none t) s := by
  refine (offGroup_wp hx).bind (fun _ t ht => ?_)
  have hloose : Owned t.view regs [x] [] (some g) := by
    rw [ht]
    exact h.unlink hg hx (by simp) (hr ▸ List.Perm.refl _)
  have hspare : wp (toSpareNoti x) (fun _ u => Owned u.view regs [] [] (some g) ∧
      SameActive t.view u.view) t := ⟨hloose.toSpare, rfl, rfl, rfl, rfl⟩
  refine hspare.bind (fun _ u hu => ?_)
  have hready : u.view.ready = s.view.ready := by rw [hu.2.ready, ht]
  have hgu : g ∈ u.view.fdQ := by
    rw [hu.2.fdQ, ht]
    exact hg
  cases inq with
  | true =>
    have hfull : u.view.gq g ≠ [] := by
      rw [hu.2.gq, ht]
      simpa using hinq rfl
    exact ⟨hu.1.filled hfull, hready⟩
  | false => exact (retireIfEmpty_wp hu.1 hgu).mono (fun _ _ hv => ⟨hv.1, hv.2.1.trans hready⟩)

theorem putChain_wp {hollow : Option Nat} {a : PutArgs} (inq : Bool) (due : Timespec)
    (h : Owned s.view regs [x] [] hollow) (hg : g ∈ s.view.fdQ) (hfd : a.fd = s.view.gfd g)
    (hh : ∀ g', hollow = some g' → g' = g) (hinq : inq = true → s.view.gq g ≠ []) :
    wp (putChain inq g x a due) (PutPost regs a.reg s.view.ready) s := by
  refine (chainNoti_wp g x a due s).bind (fun _ t ht => ?_)
  have hlinked : Owned t.view ((x, a.reg) :: regs) [] [] none := by
    rw [ht]
    exact h.link hg hh hfd
  refine (quiet_fdEpRefresh g t).bind (fun ok u hu => ?_)
  rw [← hu] at hlinked ht
  have hready : u.view.ready = s.view.ready := by rw [ht]
  split
  · exact ⟨hlinked, hready⟩
  · have hgu : g ∈ u.view.fdQ := by rw [ht]; exact hg
    have hxu : x ∈ u.view.gq g := by simp [ht]
    have hru : u.view.reg x = a.reg := by simp [ht]
    refine (putUndo_wp inq hlinked hgu hxu hru (fun hb => ?_)).bind (fun _ v hv => ?_)
    · -- the records the group had before are still there
      have hlen := List.length_erase_of_mem hxu
      have hq : u.view.gq g = s.view.gq g ++ [x] := by simp [ht]
      rw [hq] at hlen ⊢
      intro hnil
      rw [hnil] at hlen
      have := List.length_pos_iff.2 (hinq hb)
      simp only [List.length_nil, List.length_append, List.length_cons] at hlen
      omega
    · exact ⟨hv.1, hv.2.trans hready⟩

theorem putActive_wp {a : PutArgs} (due : Timespec) (h : Owned s.view regs [] [] none) (hg : g ∈ s.view.fdQ)
    (hfd : s.view.gfd g = a.fd) : wp (putActive g a due) (PutPost regs a.reg s.view.ready) s := by
  refine (getNotiHolder_wp h).bind (fun r t ht => ?_)
  obtain ⟨hsame, hown⟩ := ht
  cases r with
  | none => exact ⟨hown, hsame.ready⟩
  | some x =>
    have hfull : s.view.gq g ≠ [] := fun hempty => absurd (h.full g hg hempty) (by simp)
    rw [← hsame.ready]
    refine putChain_wp true due hown ?_ ?_ (by simp) (fun _ => ?_)
    · rw [hsame.fdQ]
      exact hg
    · rw [hsame.gfd]
      exact hfd.symm
    · rw [hsame.gq]
      exact hfull

theorem newFdGroup_wp {fd : Int} {loose : List Nat} (h : Owned s.view regs loose [g] none)
    (hfd : fd ∉ s.view.fdQ.map s.view.gfd) :
    wp (newFdGroup g fd) (fun _ t => Owned t.view regs loose [] (some g) ∧ g ∈ t.view.fdQ ∧ t.view.gfd g = fd ∧
      t.view.ready = s.view.ready) s := by
  have hview : (newFdGroup g fd s).2.view = { s.view with
      fdQ := s.view.fdQ ++ [g]
      gfd := Function.update s.view.gfd g fd
      gq := Function.update s.view.gq g [] } := by
    have hupd : ∀ g', (Function.update s.group g ⟨fd, 0, 0, false, []⟩ g').fd =
        Function.update (fun g => (s.group g).fd) g fd g' ∧
        (Function.update s.group g ⟨fd, 0, 0, false, []⟩ g').notiQ =
          Function.update (fun g => (s.group g).notiQ) g [] g' := by
      intro g'
      by_cases heq : g' = g
      · subst heq
        simp only [Function.update_self, and_self]
      · simp only [Function.update_of_ne heq, and_self]
    have hst : (newFdGroup g fd s).2 = { s with
        group := Function.update s.group g ⟨fd, 0, 0, false, []⟩, fdQ := s.fdQ ++ [g] } := rfl
    rw [hst]
    simp only [St.view]
    congr 1
    · exact funext (fun g' => (hupd g').1)
    · exact funext (fun g' => (hupd g').2)
  unfold wp
  dsimp only
  rw [hview]
  exact ⟨h.openGroup hfd, List.mem_append_right _ List.mem_cons_self, Function.update_self .., rfl⟩

theorem putSpare_wp {a : PutArgs} (due : Timespec) (h : Owned s.view regs [] [g] none)
    (hfd : a.fd ∉ s.view.fdQ.map s.view.gfd) : wp (putSpare g a due) (PutPost regs a.reg s.view.ready) s := by
  refine (getNotiHolder_wp h).bind (fun r t ht => ?_)
  obtain ⟨hsame, hown⟩ := ht
  cases r with
  | none => exact ⟨hown.toSpareFd, hsame.ready⟩
  | some x =>
    have hfd' : a.fd ∉ t.view.fdQ.map t.view.gfd := by
      rw [hsame.fdQ, hsame.gfd]
      exact hfd
    refine (newFdGroup_wp hown hfd').bind (fun _ u hu => ?_)
    obtain ⟨hopen, hg, hgfd, hready⟩ := hu
    rw [← hsame.ready, ← hready]
    exact putChain_wp false due hopen hg hgfd.symm (fun g' hg' => (Option.some.inj hg').symm) (fun hb => by cases hb)

theorem putGroup_wp {a : PutArgs} (due : Timespec) (h : Owned s.view regs [] [] none) :
    wp (putGroup a due) (PutPost regs a.reg s.view.ready) s := by
  refine (fdQFind_wp a.fd s).bind (fun r t ht => ?_)
  obtain ⟨rfl, hfound, hnone⟩ := ht
  cases r with
  | some g =>
    obtain ⟨hg, hfd⟩ := hfound g rfl
    exact putActive_wp due h hg hfd
  | none =>
    refine (getSpareFd_wp h).bind (fun r u hu => ?_)
    obtain ⟨hsame, hown⟩ := hu
    cases r with
    | none => exact ⟨hown, hsame.ready⟩
    | some g =>
      rw [← hsame.ready]
      refine putSpare_wp due hown ?_
      rw [hsame.fdQ, hsame.gfd]
      exact hnone rfl

theorem aloeEvPut_wp (a : PutArgs) (h : Owned s.view regs [] [] none) :
    wp (aloeEvPut a) (PutPost regs a.reg s.view.ready) s := by
  refine (quiet_putDue a s).bind (fun r t ht => ?_)
  rw [← ht] at h ⊢
  cases r with
  | none => exact ⟨h, rfl⟩
  | some due => exact putGroup_wp due h

/-! ## Cancelling -/

/-- After a cancel the registration is gone, and no more records are to be notified. -/
def CancelPost (regs : List (Nat × Reg)) (ready : List Nat) (t : St) : Prop :=
  Owned t.view regs [] [] none ∧ t.view.ready.length ≤ ready.length

theorem cancelActive_wp {regs' : List (Nat × Reg)} (h : Owned s.view regs [] [] none) (hg : g ∈ s.view.fdQ)
    (hx : x ∈ s.view.gq g) (hregs : regs.Perm ((x, s.view.reg x) :: regs')) :
    wp (cancelActive g x) (fun _ => CancelPost regs' s.view.ready) s := by
  refine (offGroup_wp hx).bind (fun _ t ht => ?_)
  have hloose : Owned t.view regs' [x] [] (some g) := by
    rw [ht]
    exact h.unlink hg hx (by simp) hregs
  have hspare : wp (toSpareNoti x) (fun _ u => Owned u.view regs' [] [] (some g) ∧
      SameActive t.view u.view) t := ⟨hloose.toSpare, rfl, rfl, rfl, rfl⟩
  refine hspare.bind (fun _ u hu => (quiet_fdEpRefresh g u).bind (fun _ v hv => ?_))
  rw [← hv] at hu
  have hgv : g ∈ v.view.fdQ := by
    rw [hu.2.fdQ, ht]
    exact hg
  refine (retireIfEmpty_wp hu.1 hgv).mono (fun _ w hw => ⟨hw.1, Nat.le_of_eq ?_⟩)
  rw [hw.2.1, hu.2.ready, ht]

theorem cancelReady_wp {regs' : List (Nat × Reg)} (h : Owned s.view regs [] [] none) (hx : x ∈ s.view.ready)
    (hregs : regs.Perm ((x, s.view.reg x) :: regs')) :
    wp (cancelReady x) (fun _ => CancelPost regs' s.view.ready) s := by
  have hx' : x ∈ s.notiQ := hx
  unfold cancelReady
  rw [wp_bind, wp_get, if_pos hx']
  refine (offReady_wp hx).bind (fun _ t ht => ?_)
  have hloose : Owned t.view regs' [x] [] none := by
    rw [ht]
    exact h.unready hx hregs
  have hlen : t.view.ready.length ≤ s.view.ready.length := by
    rw [ht]
    exact List.length_erase_le
  exact ⟨hloose.toSpare, hlen⟩

/-- The group a record is on is the one that is found for its descriptor. -/
theorem Owned.group_unique {v : View} {loose looseFd : List Nat} {hollow : Option Nat} {g' : Nat}
    (h : Owned v regs loose looseFd hollow) (hg : g ∈ v.fdQ) (hg' : g' ∈ v.fdQ) (heq : v.gfd g = v.gfd g') : g = g' :=
  List.inj_on_of_nodup_map h.fds hg hg' heq

theorem aloeEvCancel_wp {regs' : List (Nat × Reg)} (h : Owned s.view regs [] [] none) (hx : x ∈ s.view.active)
    (hregs : regs.Perm ((x, s.view.reg x) :: regs')) :
    wp (aloeEvCancel x) (fun _ => CancelPost regs' s.view.ready) s := by
  unfold aloeEvCancel
  rw [wp_bind, wp_get]
  refine (fdQFind_wp (s.noti x).fd s).bind (fun r t ht => ?_)
  obtain ⟨rfl, hfound, hnone⟩ := ht
  rcases List.mem_append.1 hx with hgroup | hready
  · -- on the queue of its group, which is found
    obtain ⟨g, hg, hxg⟩ := mem_gathered.1 hgroup
    have hfd : (t.noti x).fd = t.view.gfd g := h.own g hg x hxg
    cases r with
    | none => exact absurd (List.mem_map.2 ⟨g, hg, hfd.symm⟩) (hnone rfl)
    | some g' =>
      obtain ⟨hg', hfd'⟩ := hfound g' rfl
      obtain rfl := h.group_unique hg hg' (hfd.symm.trans hfd'.symm)
      have hxg' : x ∈ (t.group g).notiQ := hxg
      unfold cancelFound
      rw [wp_bind, wp_get, if_pos hxg']
      exact cancelActive_wp h hg hxg hregs
  · -- already collected, and then on no group's queue
    cases r with
    | none => exact cancelReady_wp h hready hregs
    | some g' =>
      have hnot : x ∉ (t.group g').notiQ := by
        intro hxg
        have hdisj := (List.nodup_append.1 h.nodup_active).2.2
        exact hdisj x (mem_gathered.2 ⟨g', (hfound g' rfl).1, hxg⟩) x hready rfl
      unfold cancelFound
      rw [wp_bind, wp_get, if_neg hnot]
      exact cancelReady_wp h hready hregs

/-! ## Collecting -/

theorem Owned.hollowed {v : View} {loose looseFd : List Nat} (h : Owned v regs loose looseFd none) (g : Nat) :
    Owned v regs loose looseFd (some g) :=
  { h with full := fun g' hg' hempty => absurd (h.full g' hg' hempty) (by simp) }

theorem Owned.nodup_gq {v : View} {loose looseFd : List Nat} {hollow : Option Nat}
    (h : Owned v regs loose looseFd hollow) (hg : g ∈ v.fdQ) : (v.gq g).Nodup := by
  have hgathered := (List.nodup_append.1 h.nodup_active).1
  exact (List.nodup_append.1 ((gathered_perm v.gq hg).nodup_iff.1 hgathered)).1

/-- A record moves on to be notified. -/
theorem collectOne_wp (h : Owned s.view regs [] [] (some g)) (hg : g ∈ s.view.fdQ) (hx : x ∈ s.view.gq g) :
    wp (do offGroup g x; modify (fun s => { s with notiQ := s.notiQ ++ [x] }))
      (fun _ t => Owned t.view regs [] [] (some g) ∧ t.view.fdQ = s.view.fdQ ∧
        t.view.gq g = (s.view.gq g).erase x) s := by
  refine (offGroup_wp hx).bind (fun _ t ht => ?_)
  have hview : St.view { t with notiQ := t.notiQ ++ [x] } = { s.view with
      gq := Function.update s.view.gq g ((s.view.gq g).erase x), ready := s.view.ready ++ [x] } := by
    have hready : St.view { t with notiQ := t.notiQ ++ [x] } = { t.view with ready := t.view.ready ++ [x] } := rfl
    rw [hready, ht]
  rw [wp_modify, hview]
  refine ⟨h.toReady hg hx ?_, rfl, Function.update_self ..⟩
  exact fun g' hg' => (Option.some.inj hg').symm

theorem collectNotis_wp {now : Timespec} {xs : List Nat} (h : Owned s.view regs [] [] (some g)) (hg : g ∈ s.view.fdQ)
    (hxs : ∀ x ∈ xs, x ∈ s.view.gq g) (hnd : xs.Nodup) :
    wp (collectNotis g now xs) (fun _ t => Owned t.view regs [] [] (some g) ∧ t.view.fdQ = s.view.fdQ) s := by
  -- `xs` are the records of the group the loop has not come to; those it moved are gone from the group
  induction xs generalizing s with
  | nil => exact ⟨h, rfl⟩
  | cons x xs ih =>
    obtain ⟨hx, hnd⟩ := List.nodup_cons.1 hnd
    unfold collectNotis
    rw [wp_bind, wp_get]
    dsimp only
    refine (quiet_setNoti (by intro; rfl) s).bind (fun _ t ht => ?_)
    rw [← ht] at h hg hxs ⊢
    split
    · have hrest : ∀ u : St, Owned u.view regs [] [] (some g) ∧ u.view.fdQ = t.view.fdQ ∧
          u.view.gq g = (t.view.gq g).erase x →
          wp (collectNotis g now xs) (fun _ v => Owned v.view regs [] [] (some g) ∧ v.view.fdQ = t.view.fdQ) u := by
        rintro u ⟨hu, hfdQ, hgq⟩
        refine (ih hu (hfdQ ▸ hg) (fun y hy => ?_) hnd).mono (fun _ _ hv => ⟨hv.1, hv.2.trans hfdQ⟩)
        have hne : y ≠ x := fun heq => hx (heq ▸ hy)
        rw [hgq]
        exact (List.mem_erase_of_ne hne).2 (hxs y (List.mem_cons_of_mem _ hy))
      exact (collectOne_wp h hg (hxs x List.mem_cons_self)).bind (fun _ u hu => hrest u hu)
    · exact ih h hg (fun y hy => hxs y (List.mem_cons_of_mem _ hy)) hnd

theorem collectGroups_wp {now : Timespec} {gs : List Nat} (h : Owned s.view regs [] [] none)
    (hgs : ∀ g ∈ gs, g ∈ s.view.fdQ) (hnd : gs.Nodup) :
    wp (collectGroups now gs) (fun _ t => Owned t.view regs [] [] none) s := by
  induction gs generalizing s with
  | nil => exact h
  | cons g gs ih =>
    obtain ⟨hnot, hnd⟩ := List.nodup_cons.1 hnd
    have hg := hgs g List.mem_cons_self
    unfold collectGroups
    rw [wp_bind, wp_get]
    -- the group may be empty until `retireIfEmpty`
    refine (collectNotis_wp (h.hollowed g) hg (fun x hx => hx) (h.nodup_gq hg)).bind (fun _ t ht => ?_)
    refine (quiet_fdEpRefresh g t).bind (fun _ u hu => ?_)
    rw [← hu] at ht
    refine (retireIfEmpty_wp ht.1 (ht.2 ▸ hg)).bind (fun _ v hv => ih hv.1 (fun g' hg' => ?_) hnd)
    have hne : g' ≠ g := fun heq => hnot (heq ▸ hg')
    exact hv.2.2 g' (ht.2 ▸ hgs g' (List.mem_cons_of_mem _ hg')) hne

theorem collect_wp (found : List (Nat × UInt32)) (h : Owned s.view regs [] [] none) :
    wp (collect found) (fun _ t => Owned t.view regs [] [] none) s := by
  refine (quiet_markGroups found s).bind (fun _ t ht => (quiet_sysClock t).bind (fun r u hu => ?_))
  rw [← hu.trans ht] at h
  cases r with
  | error e => exact h
  | ok now =>
    dsimp only
    rw [wp_bind, wp_get]
    exact (collectGroups_wp h (fun g hg => hg) h.nodup_fdQ).bind (fun _ v hv => hv)

theorem waitAndCollect_wp (ms : Int64) (h : Owned s.view regs [] [] none) :
    wp (waitAndCollect ms) (fun _ t => Owned t.view regs [] [] none) s := by
  unfold waitAndCollect
  refine (quiet_sysEpollWait _ s).bind (fun found t ht => ?_)
  rw [← ht] at h
  cases found with
  | error e => exact h
  | ok found => exact collect_wp found h

theorem onceCollect_wp (h : Owned s.view regs [] [] none) :
    wp onceCollect (fun _ t => Owned t.view regs [] [] none) s := by
  unfold onceCollect
  refine (quiet_passed s).bind (fun r t ht => ?_)
  rw [← ht] at h
  cases r with
  | error e => exact h
  | ok ms => exact waitAndCollect_wp ms h

/-! ## Notifying -/

/-- The next call is made for a live registration, with what it was put with, and ends it. -/
theorem popReady_wp (h : Owned s.view regs [] [] none) :
    wp popReady (fun r t => match r with
      | none => t = s
      | some c => (c.x, ⟨c.fd, c.cb, c.cbarg⟩) ∈ regs ∧ t.view.ready.length + 1 = s.view.ready.length ∧
          ∀ regs', regs.Perm ((c.x, ⟨c.fd, c.cb, c.cbarg⟩) :: regs') → Owned t.view regs' [] [] none) s := by
  unfold popReady
  rw [wp_bind, wp_get]
  split
  · rfl
  · next x rest hq =>
    have hx : x ∈ s.view.ready := by
      simp only [St.view, hq]
      exact List.mem_cons_self
    refine (offReady_wp hx).bind (fun _ t ht => ?_)
    refine ⟨?_, ?_, fun regs' hregs => ?_⟩
    · have hmem : (x, s.view.reg x) ∈ s.view.active.map (fun x => (x, s.view.reg x)) :=
        List.mem_map.2 ⟨x, List.mem_append_right _ hx, rfl⟩
      exact h.live.mem_iff.2 hmem
    · have hlen := List.length_erase_of_mem hx
      have hpos := List.length_pos_of_mem hx
      have hready : t.view.ready = s.view.ready.erase x := by rw [ht]
      have hend : t.view.ready.length + 1 = s.view.ready.length := by
        rw [hready]
        omega
      exact hend
    · have hloose : Owned t.view regs' [x] [] none := by
        rw [ht]
        exact h.unready hx hregs
      exact hloose.toSpare

end

end AlgaeBp.Ev
