import AlgaeBp.Ev.Theorems
/-!
# What the kernel watches

`fd_ep_refresh` keeps in `ep_wait` what `epoll` was last told for a group, and
skips the call when nothing has changed. `Mirror` says that this is what the
kernel has, for every group, and that it is what the group's records ask for,
but for one group that is being changed. Only the `Watch` of a state is
concerned.
-/
open Queues StateWp

namespace AlgaeBp.Ev

/-! ## The part of the state that matters -/

/-- Active groups, their records, and the kernel's map; `rec` is a record without what it is notified of. -/
structure Watch where
  fdQ : List Nat
  gfd : Nat → Int
  gq : Nat → List Nat
  epWait : Nat → UInt32
  record : Nat → Noti
  interest : Int → Option (UInt32 × Nat)

def St.watch (s : St) : Watch where
  fdQ := s.fdQ
  gfd g := (s.group g).fd
  gq g := (s.group g).notiQ
  epWait g := (s.group g).epWait
  record x := { s.noti x with evNoti := 0 }
  interest := s.interest

theorem watch_setGroup (s : St) (g : Nat) (e : Group) :
    St.watch { s with group := Function.update s.group g e } = { s.watch with
      gfd := Function.update s.watch.gfd g e.fd
      gq := Function.update s.watch.gq g e.notiQ
      epWait := Function.update s.watch.epWait g e.epWait } := by
  simp only [St.watch]
  congr 1
  · exact Function.comp_update Group.fd s.group g e
  · exact Function.comp_update Group.notiQ s.group g e
  · exact Function.comp_update Group.epWait s.group g e

theorem watch_setNoti (s : St) (x : Nat) (e : Noti) :
    St.watch { s with noti := Function.update s.noti x e } =
      { s.watch with record := Function.update s.watch.record x { e with evNoti := 0 } } := by
  simp only [St.watch]
  congr 1
  exact Function.comp_update (fun e : Noti => { e with evNoti := 0 }) s.noti x e

/-- The OR of what the records of a group wait for. -/
def Watch.mask (w : Watch) (g : Nat) : UInt32 := (w.gq g).foldl (fun mask x => mask ||| (w.record x).evWait) 0

theorem groupMask_watch (s : St) (g : Nat) : groupMask s g = s.watch.mask g := rfl

/-- What the kernel is to have for a group with this mask. -/
def wanted (mask : UInt32) (g : Nat) : Option (UInt32 × Nat) := if mask = 0 then none else some (toEpoll mask, g)

/-- The kernel has what the groups' caches say, and they what the records ask for; in `hollow` they need not. -/
structure Mirror (w : Watch) (hollow : Option Nat) : Prop where
  fds : (w.fdQ.map w.gfd).Nodup
  cached : ∀ g ∈ w.fdQ, 0 ≤ w.gfd g → w.interest (w.gfd g) = wanted (w.epWait g) g
  mask : ∀ g ∈ w.fdQ, 0 ≤ w.gfd g → hollow ≠ some g → w.epWait g = w.mask g
  other : ∀ fd, 0 ≤ fd → fd ∉ w.fdQ.map w.gfd → w.interest fd = none

section Moves
variable {w : Watch} {hollow : Option Nat} {g x : Nat}

theorem Mirror.nodup_fdQ (h : Mirror w hollow) : w.fdQ.Nodup := List.Nodup.of_map _ h.fds

/-- The records of the group that is being changed do not matter. -/
theorem Mirror.setQueue (h : Mirror w hollow) (hh : ∀ g', hollow = some g' → g' = g) (q : List Nat) :
    Mirror { w with gq := Function.update w.gq g q } (some g) where
  fds := h.fds
  cached := h.cached
  mask g' hg' hfd hne := by
    have hgg : g' ≠ g := fun heq => hne (heq ▸ rfl)
    have hold := h.mask g' hg' hfd (fun heq => hgg (hh g' heq))
    rw [Watch.mask]
    change w.epWait g' = (Function.update w.gq g q g').foldl _ 0
    rw [Function.update_of_ne hgg]
    exact hold
  other := h.other

/-- A group is told to the kernel anew. -/
theorem Mirror.refreshed (h : Mirror w (some g)) (hg : g ∈ w.fdQ) :
    Mirror { w with
      epWait := Function.update w.epWait g (w.mask g)
      interest := Function.update w.interest (w.gfd g) (wanted (w.mask g) g) } none where
  fds := h.fds
  cached g' hg' hfd' := by
    change Function.update w.interest (w.gfd g) (wanted (w.mask g) g) (w.gfd g') =
      wanted (Function.update w.epWait g (w.mask g) g') g'
    by_cases heq : g' = g
    · rw [heq, Function.update_self, Function.update_self]
    · have hne : w.gfd g' ≠ w.gfd g := fun hsame => heq (List.inj_on_of_nodup_map h.fds hg' hg hsame)
      rw [Function.update_of_ne heq, Function.update_of_ne hne]
      exact h.cached g' hg' hfd'
  mask g' hg' hfd' _ := by
    change Function.update w.epWait g (w.mask g) g' = w.mask g'
    by_cases heq : g' = g
    · rw [heq, Function.update_self]
    · rw [Function.update_of_ne heq]
      exact h.mask g' hg' hfd' (fun hs => heq (Option.some.inj hs).symm)
  other fd hfd' hnot := by
    have hne : fd ≠ w.gfd g := by
      rintro rfl
      exact hnot (List.mem_map_of_mem hg)
    exact (Function.update_of_ne hne ..).trans (h.other fd hfd' hnot)

/-- Nothing is to be told that has been told. -/
theorem Mirror.settled (h : Mirror w (some g)) (heq : w.epWait g = w.mask g) : Mirror w none := by
  refine { h with mask := fun g' hg' hfd' _ => ?_ }
  by_cases hgg : g' = g
  · rw [hgg]
    exact heq
  · exact h.mask g' hg' hfd' fun hs => hgg (Option.some.inj hs).symm

theorem Mirror.weaken (h : Mirror w none) (g : Nat) : Mirror w (some g) :=
  { h with mask := fun g' hg' hfd' _ => h.mask g' hg' hfd' (by simp) }

/-- For a group without descriptor there is nothing to tell. -/
theorem Mirror.timer (h : Mirror w (some g)) (hfd : ¬ 0 ≤ w.gfd g) : Mirror w none := by
  refine { h with mask := fun g' hg' hfd' _ => h.mask g' hg' hfd' ?_ }
  rintro ⟨⟩
  exact hfd hfd'

/-- A group without records is not watched. -/
theorem Mirror.retire (h : Mirror w none) (hg : g ∈ w.fdQ) (hempty : w.gq g = []) :
    Mirror { w with fdQ := w.fdQ.erase g } none where
  fds := h.fds.sublist (List.erase_sublist.map _)
  cached g' hg' := h.cached g' (List.mem_of_mem_erase hg')
  mask g' hg' := h.mask g' (List.mem_of_mem_erase hg')
  other fd hfd hnot := by
    by_cases heq : w.gfd g = fd
    · subst heq
      have hzero : w.epWait g = 0 := by
        rw [h.mask g hg hfd (by simp), Watch.mask, hempty]
        rfl
      change w.interest (w.gfd g) = none
      rw [h.cached g hg hfd, hzero]
      rfl
    · refine h.other fd hfd fun hmem => hnot ?_
      obtain ⟨g', hg', rfl⟩ := List.mem_map.1 hmem
      have hne : g' ≠ g := fun he => heq (he ▸ rfl)
      exact List.mem_map_of_mem ((List.mem_erase_of_ne hne).2 hg')

/-- A group is opened for a descriptor that is not watched. -/
theorem Mirror.openGroup (h : Mirror w none) {fd : Int} (hfd : fd ∉ w.fdQ.map w.gfd) (hg : g ∉ w.fdQ) :
    Mirror { w with
      fdQ := w.fdQ ++ [g]
      gfd := Function.update w.gfd g fd
      gq := Function.update w.gq g []
      epWait := Function.update w.epWait g 0 } none := by
  have hold : ∀ g' ∈ w.fdQ, g' ≠ g := fun g' hg' heq => hg (heq ▸ hg')
  have hmap : (w.fdQ ++ [g]).map (Function.update w.gfd g fd) = w.fdQ.map w.gfd ++ [fd] := by
    rw [List.map_append, List.map_singleton, Function.update_self]
    congr 1
    exact List.map_congr_left fun g' hg' => Function.update_of_ne (hold g' hg') ..
  refine ⟨?_, fun g' hg' hfd' => ?_, fun g' hg' hfd' _ => ?_, fun fd' hfd' hnot => ?_⟩
  · rw [hmap]
    exact List.nodup_append.2 ⟨h.fds, List.nodup_singleton fd, fun a ha b hb hab =>
      hfd (List.mem_singleton.1 hb ▸ hab ▸ ha)⟩
  · change w.interest (Function.update w.gfd g fd g') = wanted (Function.update w.epWait g 0 g') g'
    rcases List.mem_append.1 hg' with hg' | hg'
    · rw [Function.update_of_ne (hold g' hg'), Function.update_of_ne (hold g' hg')]
      refine h.cached g' hg' ?_
      change 0 ≤ Function.update w.gfd g fd g' at hfd'
      rwa [Function.update_of_ne (hold g' hg')] at hfd'
    · obtain rfl := List.mem_singleton.1 hg'
      change 0 ≤ Function.update w.gfd g' fd g' at hfd'
      rw [Function.update_self] at hfd'
      rw [Function.update_self, Function.update_self]
      exact h.other fd hfd' hfd
  · change Function.update w.epWait g 0 g' = (Function.update w.gq g [] g').foldl _ 0
    rcases List.mem_append.1 hg' with hg' | hg'
    · rw [Function.update_of_ne (hold g' hg'), Function.update_of_ne (hold g' hg')]
      refine h.mask g' hg' ?_ (by simp)
      change 0 ≤ Function.update w.gfd g fd g' at hfd'
      rwa [Function.update_of_ne (hold g' hg')] at hfd'
    · obtain rfl := List.mem_singleton.1 hg'
      rw [Function.update_self, Function.update_self]
      rfl
  · rw [hmap] at hnot
    exact h.other fd' hfd' (fun hmem => hnot (List.mem_append_left _ hmem))

/-- A record that is on no active group is filled in. -/
theorem Mirror.setRecord (h : Mirror w hollow) (hx : ∀ g' ∈ w.fdQ, x ∉ w.gq g') (r : Noti) :
    Mirror { w with record := Function.update w.record x r } hollow where
  fds := h.fds
  cached := h.cached
  mask g' hg' hfd hne := by
    rw [h.mask g' hg' hfd hne]
    refine List.foldl_ext _ _ _ fun m y hy => ?_
    have hyx : y ≠ x := fun heq => hx g' hg' (heq ▸ hy)
    change m ||| (w.record y).evWait = m ||| (Function.update w.record x r y).evWait
    rw [Function.update_of_ne hyx]
  other := h.other

end Moves

/-! ## Code that changes nothing of it -/

/-- Calls are only added, and what they answer is as before. -/
def Onward (s t : St) : Prop := s.asked ≤ t.asked ∧ t.oracle = s.oracle

theorem Onward.trans {s t u : St} (h : Onward s t) (h' : Onward t u) : Onward s u :=
  ⟨Nat.le_trans h.1 h'.1, h'.2.trans h.2⟩

theorem Onward.refl (s : St) : Onward s s := ⟨Nat.le_refl _, rfl⟩

/-- The code leaves alone what the kernel is concerned with. -/
def Still {α : Type} (m : M α) : Prop := ∀ s, wp m (fun _ t => t.watch = s.watch ∧ Onward s t) s

section Still
variable {α β : Type}

theorem still_pure (a : α) : Still (pure a : M α) := fun s => ⟨rfl, .refl s⟩

theorem still_get : Still (get : M St) := fun s => ⟨rfl, .refl s⟩

theorem still_modify {f : St → St} (h : ∀ s, (f s).watch = s.watch ∧ Onward s (f s)) : Still (modify f : M Unit) := h

theorem Still.bind {m : M α} {f : α → M β} (hm : Still m) (hf : ∀ a, Still (f a)) : Still (m >>= f) :=
  fun s => (hm s).bind fun a t ht => (hf a t).mono fun _ _ hu => ⟨hu.1.trans ht.1, ht.2.trans hu.2⟩

theorem Still.ite {c : Prop} [Decidable c] {m m' : M α} (hm : Still m) (hm' : Still m') : Still (if c then m else m') := by
  split
  · exact hm
  · exact hm'

/-- A group keeps what matters of it. -/
theorem still_setGroup {g : Nat} {f : Group → Group}
    (hf : ∀ e, (f e).fd = e.fd ∧ (f e).notiQ = e.notiQ ∧ (f e).epWait = e.epWait) : Still (setGroup g f) := by
  refine still_modify fun s => ⟨?_, .refl s⟩
  obtain ⟨hfd, hq, hep⟩ := hf (s.group g)
  have hfd' : (f (s.group g)).fd = s.watch.gfd g := hfd
  have hq' : (f (s.group g)).notiQ = s.watch.gq g := hq
  have hep' : (f (s.group g)).epWait = s.watch.epWait g := hep
  rw [watch_setGroup, hfd', hq', hep', Function.update_eq_self, Function.update_eq_self, Function.update_eq_self]

theorem still_setNoti {x : Nat} {ev : UInt32} : Still (setNoti x fun e => { e with evNoti := ev }) := by
  refine still_modify fun s => ⟨?_, .refl s⟩
  rw [watch_setNoti]
  have hrecord : ({ s.noti x with evNoti := 0 } : Noti) = s.watch.record x := rfl
  rw [hrecord, Function.update_eq_self]

theorem still_ask : Still ask := fun _ => ⟨rfl, Nat.le_succ _, rfl⟩

theorem still_sysMalloc : Still sysMalloc := still_ask.bind fun _ => still_pure _

theorem still_sysClock : Still sysClock := still_ask.bind fun _ => still_get.bind fun _ => still_pure _

theorem still_sysEpollWait (ms : Int64) : Still (sysEpollWait ms) :=
  still_ask.bind fun _ => still_get.bind fun _ => still_pure _

theorem still_takeOff (x : Nat) (q : List Nat) : Still (takeOff x q) :=
  (still_modify (by intro s; exact ⟨rfl, .refl s⟩)).bind fun _ => still_pure _

theorem still_toSpareNoti (x : Nat) : Still (toSpareNoti x) := still_modify (by intro s; exact ⟨rfl, .refl s⟩)

theorem still_offReady (x : Nat) : Still (offReady x) :=
  still_get.bind fun _ => (still_takeOff x _).bind fun _ => still_modify (by intro s; exact ⟨rfl, .refl s⟩)

theorem still_cancelReady (x : Nat) : Still (cancelReady x) :=
  still_get.bind fun _ => ((still_offReady x).bind fun _ => still_toSpareNoti x).ite (still_pure _)

theorem still_fdQFind (fd : Int) : Still (fdQFind fd) := still_get.bind fun _ => still_pure _

theorem still_aloeEvGet (fd : Int) (cb : Nat) : Still (aloeEvGet fd cb) := by
  refine (still_fdQFind fd).bind fun r => ?_
  cases r with
  | none => exact still_pure _
  | some g => exact still_get.bind fun _ => still_pure _

theorem still_putDue (a : PutArgs) : Still (putDue a) := by
  refine (still_pure _).ite (still_sysClock.bind fun r => ?_)
  cases r with
  | error e => exact still_pure _
  | ok now => exact still_pure _

theorem still_mallocFd : Still mallocFd :=
  still_sysMalloc.bind fun _ => (still_get.bind fun _ => (still_modify (by intro s; exact ⟨rfl, .refl s⟩)).bind fun _ =>
    still_pure _).ite (still_pure _)

theorem still_mallocNoti : Still mallocNoti :=
  still_sysMalloc.bind fun _ => (still_get.bind fun _ => (still_modify (by intro s; exact ⟨rfl, .refl s⟩)).bind fun _ =>
    still_pure _).ite (still_pure _)

theorem still_getSpareFd : Still getSpareFd := by
  have hpop : Still fdQPopFirst := by
    intro s
    unfold fdQPopFirst
    rw [wp_bind, wp_get]
    split
    · exact ⟨rfl, .refl s⟩
    · exact ⟨rfl, .refl s⟩
  refine hpop.bind fun r => ?_
  cases r with
  | none => exact still_mallocFd
  | some g => exact still_pure _

theorem still_getNotiHolder : Still getNotiHolder := by
  have hpop : Still popSpareNoti := by
    intro s
    unfold popSpareNoti
    rw [wp_bind, wp_get]
    split
    · exact ⟨rfl, .refl s⟩
    · exact ⟨rfl, .refl s⟩
  refine hpop.bind fun r => ?_
  cases r with
  | none => exact still_mallocNoti
  | some x => exact still_pure _

theorem still_scanGroups (gs : List Nat) (hasFd : Bool) (due : Option Timespec) : Still (scanGroups gs hasFd due) := by
  induction gs generalizing hasFd due with
  | nil => exact still_pure _
  | cons g gs ih => exact (still_setGroup (by intro; exact ⟨rfl, rfl, rfl⟩)).bind fun _ => still_get.bind fun _ => ih _ _

theorem still_timeoutMs (hasFd : Bool) (due : Option Timespec) : Still (timeoutMs hasFd due) := by
  cases due with
  | none => exact still_pure _
  | some due =>
    refine still_sysClock.bind fun r => ?_
    cases r with
    | error e => exact still_pure _
    | ok now => exact still_pure _

theorem still_passed : Still passed := by
  refine still_get.bind fun s => (still_scanGroups s.fdQ false none).bind fun r =>
    (still_timeoutMs r.1 r.2).bind fun ms => ?_
  cases ms with
  | error e => exact still_pure _
  | ok ms => exact still_get.bind fun s => still_pure _

theorem still_markGroups (found : List (Nat × UInt32)) : Still (markGroups found) := by
  induction found with
  | nil => exact still_pure _
  | cons p found ih => exact (still_setGroup (by intro; exact ⟨rfl, rfl, rfl⟩)).bind fun _ => ih

theorem still_popReady : Still popReady := by
  intro s
  unfold popReady
  rw [wp_bind, wp_get]
  split
  · exact ⟨rfl, .refl s⟩
  · exact ((still_offReady _).bind fun _ => (still_toSpareNoti _).bind fun _ => still_pure _) s

end Still

/-! ## Telling the kernel -/

section
variable {s : St} {g x : Nat}

/-- A system call failed between two states. -/
def Failed (s t : St) : Prop := ∃ n, s.asked ≤ n ∧ n < t.asked ∧ s.oracle.errno n ≠ 0

instance (s t : St) : Decidable (Failed s t) :=
  decidable_of_iff (∃ n, n < t.asked ∧ s.asked ≤ n ∧ s.oracle.errno n ≠ 0)
    ⟨fun ⟨n, hn, hn', he⟩ => ⟨n, hn', hn, he⟩, fun ⟨n, hn, hn', he⟩ => ⟨n, hn', hn, he⟩⟩

theorem Failed.left {t u : St} (h : Failed s t) (hon : t.asked ≤ u.asked) : Failed s u := by
  obtain ⟨n, hn, hn', he⟩ := h
  exact ⟨n, hn, Nat.lt_of_lt_of_le hn' hon, he⟩

theorem Failed.right {t u : St} (hon : Onward s t) (h : Failed t u) : Failed s u := by
  obtain ⟨n, hn, hn', he⟩ := h
  exact ⟨n, Nat.le_trans hon.1 hn, hn', hon.2 ▸ he⟩

/-- What a call of `epoll_ctl` comes to: it is done, the map does not allow it, or it fails otherwise. -/
inductive Controlled (s : St) (op : Ctl) (fd : Int) (r : Nat) (t : St) : Prop where
  | done (hr : r = 0) (hi : (ctlTable op (s.interest fd)).1 = 0)
      (hw : t.watch = { s.watch with interest := Function.update s.watch.interest fd (ctlTable op (s.interest fd)).2 })
  | denied (hr : r = (ctlTable op (s.interest fd)).1) (hi : (ctlTable op (s.interest fd)).1 ≠ 0) (hw : t.watch = s.watch)
  | refused (hfail : Failed s t) (hr : r ≠ 0) (hw : t.watch = s.watch)

theorem ctlTable_denied {op : Ctl} {i : Option (UInt32 × Nat)} (h : (ctlTable op i).1 ≠ 0) : (ctlTable op i).2 = i := by
  cases op <;> cases i <;> first | rfl | exact absurd rfl h

theorem sysEpollCtl_watch (op : Ctl) (fd : Int) (s : St) :
    wp (sysEpollCtl op fd) (fun r t => Onward s t ∧ Controlled s op fd r t) s := by
  have hask : wp ask (fun r t => r = (s.asked, s.oracle.errno s.asked) ∧ t = { s with asked := s.asked + 1 }) s :=
    ⟨rfl, rfl⟩
  refine hask.bind fun r t ht => ?_
  obtain ⟨rfl, rfl⟩ := ht
  dsimp only
  rw [wp_bind, wp_get]
  split
  · next he => exact ⟨⟨Nat.le_succ _, rfl⟩, .refused ⟨s.asked, Nat.le_refl _, Nat.lt_succ_self _, he⟩ he rfl⟩
  · refine ⟨⟨Nat.le_succ _, rfl⟩, ?_⟩
    by_cases hi : (ctlTable op (s.interest fd)).1 = 0
    · exact .done hi hi rfl
    · refine .denied rfl hi ?_
      change { s.watch with interest := Function.update s.interest fd (ctlTable op (s.interest fd)).2 } = s.watch
      rw [ctlTable_denied hi, Function.update_eq_self]
      rfl

/-- What a refresh comes to: whether it succeeds, and what is watched then. -/
inductive Refreshed (s : St) (g : Nat) : Bool → St → Prop where
  | timer {t : St} (hfd : ¬ 0 ≤ s.watch.gfd g) (hw : t.watch = s.watch) : Refreshed s g true t
  | told {t : St} (hw : t.watch = { s.watch with
      epWait := Function.update s.watch.epWait g (s.watch.mask g)
      interest := Function.update s.watch.interest (s.watch.gfd g) (wanted (s.watch.mask g) g) }) : Refreshed s g true t
  | skipped {t : St} (heq : s.watch.epWait g = s.watch.mask g) (hw : t.watch = s.watch) : Refreshed s g true t
  /-- A failure to delete is taken for success. -/
  | lost {t : St} (hfail : Failed s t) (hfd : 0 ≤ s.watch.gfd g) (hmask : s.watch.mask g = 0)
      (hw : t.watch = { s.watch with epWait := Function.update s.watch.epWait g 0 }) : Refreshed s g true t
  | refused {t : St} (hfail : Failed s t) (hw : t.watch = s.watch) : Refreshed s g false t

theorem setEpWait_watch (mask : UInt32) (s : St) :
    wp (setGroup g fun e => { e with epWait := mask }) (fun _ t => Onward s t ∧
      t.watch = { s.watch with epWait := Function.update s.watch.epWait g mask }) s := by
  refine ⟨.refl s, (watch_setGroup s g _).trans ?_⟩
  have hfd : (s.group g).fd = s.watch.gfd g := rfl
  have hq : (s.group g).notiQ = s.watch.gq g := rfl
  rw [hfd, hq, Function.update_eq_self, Function.update_eq_self]

theorem epollDel_refreshed (hfd : 0 ≤ s.watch.gfd g) (hmask : s.watch.mask g = 0) :
    wp (epollDel g (s.watch.gfd g)) (fun r t => Onward s t ∧ Refreshed s g r t) s := by
  refine (sysEpollCtl_watch .del _ s).bind fun r t ht => ?_
  obtain ⟨hon, hctl⟩ := ht
  -- with nothing to delete, as with an entry, nothing is watched afterwards
  have hdel : (ctlTable .del (s.interest (s.watch.gfd g))).2 = none := by
    cases s.interest (s.watch.gfd g) <;> rfl
  split
  · next hbad =>
    cases hctl with
    | done hr hi hw => exact absurd hr hbad.1
    | denied hr hi hw =>
      refine absurd ?_ hbad.2.1
      cases hin : s.interest (s.watch.gfd g) with
      | none => rw [hr, hin, ctlTable]
      | some i => exact absurd (by rw [hin, ctlTable]) hi
    | refused hfail hr hw => exact ⟨hon, .refused hfail hw⟩
  · refine (setEpWait_watch 0 t).bind fun _ u hu => ?_
    obtain ⟨hon', hw'⟩ := hu
    rw [wp_pure]
    refine ⟨hon.trans hon', ?_⟩
    cases hctl with
    | done hr hi hw =>
      refine .told ?_
      rw [hw', hw, hmask, hdel]
      rfl
    | denied hr hi hw =>
      refine .told ?_
      have hnone : s.watch.interest (s.watch.gfd g) = none := (ctlTable_denied hi).symm.trans hdel
      have hwanted : wanted 0 g = s.watch.interest (s.watch.gfd g) := hnone.symm
      rw [hw', hw, hmask, hwanted, Function.update_eq_self]
    | refused hfail hr hw => exact .lost (hfail.left hon'.1) hfd hmask (by rw [hw', hw])

/-- What adding or changing comes to: the kernel has it, or nothing has changed. -/
def Added (s : St) (events : UInt32) (g : Nat) (fd : Int) (r : Bool) (t : St) : Prop :=
  r = true ∧ t.watch = { s.watch with interest := Function.update s.watch.interest fd (some (events, g)) } ∨
    r = false ∧ Failed s t ∧ t.watch = s.watch

/-- `EPOLL_CTL_MOD` after `EEXIST`, for which the map has given reason, or an error from elsewhere. -/
theorem epollMod_added {t : St} {events : UInt32} {fd : Int} (hon : Onward s t) (hw : t.watch = s.watch)
    (hreason : s.interest fd ≠ none ∨ Failed s t) :
    wp (do
      let r ← sysEpollCtl (.mod events g) fd
      return decide (r = 0)) (fun r u => Onward s u ∧ Added s events g fd r u) t := by
  refine (sysEpollCtl_watch (.mod events g) fd t).bind fun r u hu => ?_
  obtain ⟨hon', hctl⟩ := hu
  have hti : t.interest = s.interest := congrArg Watch.interest hw
  rw [wp_pure]
  refine ⟨hon.trans hon', ?_⟩
  cases hctl with
  | done hr hi hw' =>
    refine .inl ⟨decide_eq_true hr, ?_⟩
    have hsome : (ctlTable (.mod events g) (t.interest fd)).2 = some (events, g) := by
      cases hin : t.interest fd with
      | none =>
        rw [hin] at hi
        cases hi
      | some i => rfl
    rw [hw', hw, hsome]
  | denied hr hi hw' =>
    have hnone : s.interest fd = none := by
      cases hin : s.interest fd with
      | none => rfl
      | some i => exact absurd (by rw [hti, hin, ctlTable]) hi
    have hfail := hreason.resolve_left (not_not.2 hnone)
    exact .inr ⟨decide_eq_false (hr ▸ hi), hfail.left hon'.1, hw'.trans hw⟩
  | refused hfail hr hw' => exact .inr ⟨decide_eq_false hr, .right hon hfail, hw'.trans hw⟩

theorem epollAddOrMod_added (events : UInt32) (g : Nat) (fd : Int) (s : St) :
    wp (epollAddOrMod events g fd) (fun r t => Onward s t ∧ Added s events g fd r t) s := by
  refine (sysEpollCtl_watch (.add events g) fd s).bind fun r t ht => ?_
  obtain ⟨hon, hctl⟩ := ht
  cases hctl with
  | done hr hi hw =>
    rw [if_pos hr]
    refine ⟨hon, .inl ⟨rfl, ?_⟩⟩
    have hsome : (ctlTable (.add events g) (s.interest fd)).2 = some (events, g) := by
      cases hin : s.interest fd with
      | none => rfl
      | some i =>
        rw [hin] at hi
        cases hi
    exact hw.trans (by rw [hsome])
  | denied hr hi hw =>
    have hsome : s.interest fd ≠ none := by
      intro hnone
      exact hi (by rw [hnone, ctlTable])
    have hexist : r = eExist := by
      obtain ⟨i, hin⟩ := Option.ne_none_iff_exists'.1 hsome
      rw [hr, hin, ctlTable]
    rw [if_neg (hr ▸ hi), if_pos hexist]
    exact epollMod_added hon hw (.inl hsome)
  | refused hfail hr hw =>
    rw [if_neg hr]
    split
    · exact epollMod_added hon hw (.inr hfail)
    · exact ⟨hon, .inr ⟨rfl, hfail, hw⟩⟩

theorem fdEpRefresh_refreshed (g : Nat) (s : St) :
    wp (fdEpRefresh g) (fun r t => Onward s t ∧ Refreshed s g r t) s := by
  unfold fdEpRefresh
  rw [wp_bind, wp_get]
  change wp (if s.watch.gfd g < 0 then _ else if s.watch.mask g = 0 then epollDel g (s.watch.gfd g)
    else if s.watch.mask g = s.watch.epWait g then _ else epollSet (s.watch.mask g) g (s.watch.gfd g)) _ s
  split
  · next hneg => exact ⟨.refl s, .timer (Int.not_le.2 hneg) rfl⟩
  next hfd =>
  have hfd := Int.not_lt.1 hfd
  split
  · next hmask => exact epollDel_refreshed hfd hmask
  next hmask =>
  split
  · next heq => exact ⟨.refl s, .skipped heq.symm rfl⟩
  · refine (epollAddOrMod_added _ g _ s).bind fun ok t ht => ?_
    obtain ⟨hon, ⟨rfl, hw⟩ | ⟨rfl, hfail, hw⟩⟩ := ht
    · refine (setEpWait_watch _ t).bind fun _ u hu => ?_
      obtain ⟨hon', hw'⟩ := hu
      rw [wp_pure]
      refine ⟨hon.trans hon', .told ?_⟩
      rw [hw', hw, wanted, if_neg hmask]
    · exact ⟨hon, .refused hfail hw⟩

theorem Refreshed.fdQ {ok : Bool} {t : St} (h : Refreshed s g ok t) : t.watch.fdQ = s.watch.fdQ := by
  cases h with
  | timer hfd hw => rw [hw]
  | told hw => rw [hw]
  | skipped heq hw => rw [hw]
  | lost hfail hfd hmask hw => rw [hw]
  | refused hfail hw => rw [hw]

/-- After a refresh that did not fail the group is in order, too. -/
theorem Refreshed.mirror {ok : Bool} {t : St} (h : Refreshed s g ok t) (hm : Mirror s.watch (some g)) (hg : g ∈ s.watch.fdQ)
    (hfine : ¬ Failed s t) : Mirror t.watch none := by
  cases h with
  | timer hfd hw => exact hw ▸ hm.timer hfd
  | told hw => exact hw ▸ hm.refreshed hg
  | skipped heq hw => exact hw ▸ hm.settled heq
  | lost hfail hfd hmask hw => exact absurd hfail hfine
  | refused hfail hw => exact absurd hfail hfine

/-! ## Moves -/

theorem offGroup_watch (g x : Nat) (s : St) :
    wp (offGroup g x) (fun _ t => Onward s t ∧
      t.watch = { s.watch with gq := Function.update s.watch.gq g ((s.watch.gq g).erase x) }) s := by
  have htake : wp (takeOff x (s.group g).notiQ) (fun q t => q = (s.group g).notiQ.erase x ∧ t.group = s.group ∧
      t.watch = s.watch ∧ Onward s t) s := ⟨rfl, rfl, rfl, .refl s⟩
  unfold offGroup
  rw [wp_bind, wp_get]
  refine htake.bind fun q t ht => ?_
  obtain ⟨rfl, hgroup, hw, hon⟩ := ht
  refine ⟨hon, (watch_setGroup t g _).trans ?_⟩
  have hfd : (t.group g).fd = t.watch.gfd g := rfl
  have hep : (t.group g).epWait = t.watch.epWait g := rfl
  have hq : (s.group g).notiQ = s.watch.gq g := rfl
  dsimp only
  rw [hfd, hep, hq, hw, Function.update_eq_self, Function.update_eq_self]

theorem retireIfEmpty_watch (g : Nat) (s : St) :
    wp (retireIfEmpty g) (fun _ t => Onward s t ∧
      (s.watch.gq g = [] ∧ t.watch = { s.watch with fdQ := s.watch.fdQ.erase g } ∨
        s.watch.gq g ≠ [] ∧ t.watch = s.watch)) s := by
  unfold retireIfEmpty
  rw [wp_bind, wp_get]
  split
  · next hempty => exact ⟨.refl s, .inl ⟨hempty, rfl⟩⟩
  · next hfull => exact ⟨.refl s, .inr ⟨hfull, rfl⟩⟩

/-- What holds of a state while no call has failed since `s`. -/
structure Kept (s : St) (hollow : Option Nat) (t : St) : Prop where
  onward : Onward s t
  mirror : ¬ Failed s t → Mirror t.watch hollow

theorem Kept.step {hollow hollow' : Option Nat} {t u : St} (h : Kept s hollow t) (hon : Onward t u)
    (hstep : ¬ Failed t u → Mirror t.watch hollow → Mirror u.watch hollow') : Kept s hollow' u where
  onward := h.onward.trans hon
  mirror hfine := hstep (fun hfail => hfine (.right h.onward hfail)) (h.mirror fun hfail => hfine (hfail.left hon.1))

theorem Kept.still {hollow : Option Nat} {t u : St} (h : Kept s hollow t) (hu : u.watch = t.watch ∧ Onward t u) :
    Kept s hollow u := h.step hu.2 fun _ hm => hu.1 ▸ hm

/-- A group changed is refreshed, and retired if it is empty. -/
theorem refreshRetire_kept {s₀ : St} (h : Kept s₀ (some g) s) (hg : g ∈ s.watch.fdQ) :
    wp (do
      let _ ← fdEpRefresh g
      retireIfEmpty g) (fun _ t => Kept s₀ none t ∧ ∀ g' ∈ s.watch.fdQ, g' ≠ g → g' ∈ t.watch.fdQ) s := by
  refine (fdEpRefresh_refreshed g s).bind fun ok t ht => ?_
  obtain ⟨hon, href⟩ := ht
  have ht : Kept s₀ none t := h.step hon fun hfine hm => href.mirror hm hg hfine
  refine (retireIfEmpty_watch g t).mono fun _ u hu => ?_
  rw [← href.fdQ] at hg ⊢
  obtain ⟨hon', ⟨hempty, hw⟩ | ⟨-, hw⟩⟩ := hu
  · rw [hw]
    refine ⟨ht.step hon' fun _ hm => hw ▸ hm.retire hg hempty, fun g' hg' hne => ?_⟩
    exact (List.mem_erase_of_ne hne).2 hg'
  · rw [hw]
    exact ⟨ht.still ⟨hw, hon'⟩, fun g' hg' _ => hg'⟩

/-! ## Cancelling -/

theorem cancelActive_kept (h : Kept s none s) (hg : g ∈ s.watch.fdQ) : wp (cancelActive g x) (fun _ => Kept s none) s := by
  refine (offGroup_watch g x s).bind fun _ t ht => (still_toSpareNoti x t).bind fun _ u hu => ?_
  obtain ⟨hon, hw⟩ := ht
  have hkept : Kept s (some g) t := h.step hon fun _ hm => hw ▸ hm.setQueue (by simp) _
  have hgu : g ∈ u.watch.fdQ := by
    rw [hu.1, hw]
    exact hg
  exact (refreshRetire_kept (hkept.still hu) hgu).mono fun _ v hv => hv.1

theorem aloeEvCancel_kept (x : Nat) (h : Kept s none s) : wp (aloeEvCancel x) (fun _ => Kept s none) s := by
  unfold aloeEvCancel
  rw [wp_bind, wp_get]
  refine (fdQFind_wp (s.noti x).fd s).bind fun r t ht => ?_
  obtain ⟨rfl, hfound, -⟩ := ht
  cases r with
  | none => exact (still_cancelReady x t).mono fun _ u hu => h.still hu
  | some g =>
    unfold cancelFound
    rw [wp_bind, wp_get]
    split
    · exact cancelActive_kept h (hfound g rfl).1
    · exact (still_cancelReady x t).mono fun _ u hu => h.still hu

/-! ## Collecting -/

theorem collectNotis_kept {s₀ : St} {now : Timespec} {xs : List Nat} (h : Kept s₀ (some g) s) :
    wp (collectNotis g now xs) (fun _ t => Kept s₀ (some g) t ∧ t.watch.fdQ = s.watch.fdQ) s := by
  induction xs generalizing s with
  | nil => exact ⟨h, rfl⟩
  | cons x xs ih =>
    unfold collectNotis
    rw [wp_bind, wp_get]
    refine (still_setNoti s).bind fun _ t ht => ?_
    have h := h.still ht
    rw [← ht.1]
    split
    · refine (offGroup_watch g x t).bind fun _ u hu => ?_
      obtain ⟨hon, hw⟩ := hu
      refine wp.update ?_
      have hkept : Kept s₀ (some g) u := h.step hon fun _ hm =>
        hw ▸ hm.setQueue (fun g' hg' => (Option.some.inj hg').symm) _
      have hfdQ : u.watch.fdQ = t.watch.fdQ := by rw [hw]
      exact (ih (hkept.still (u := { u with notiQ := u.notiQ ++ [x] }) ⟨rfl, .refl u⟩)).mono fun _ v hv =>
        ⟨hv.1, hv.2.trans hfdQ⟩
    · exact ih h

theorem collectGroups_kept {s₀ : St} {now : Timespec} {gs : List Nat} (h : Kept s₀ none s)
    (hgs : ∀ g ∈ gs, g ∈ s.watch.fdQ) (hnd : gs.Nodup) : wp (collectGroups now gs) (fun _ => Kept s₀ none) s := by
  induction gs generalizing s with
  | nil => exact h
  | cons g gs ih =>
    obtain ⟨hnot, hnd⟩ := List.nodup_cons.1 hnd
    unfold collectGroups
    rw [wp_bind, wp_get]
    -- the group's cache is behind from here until the refresh
    have hbehind : Kept s₀ (some g) s := ⟨h.onward, fun hfine => (h.mirror hfine).weaken g⟩
    refine (collectNotis_kept hbehind).bind fun _ t ht => ?_
    have hg : g ∈ t.watch.fdQ := ht.2 ▸ hgs g List.mem_cons_self
    change wp ((do
      let _ ← fdEpRefresh g
      retireIfEmpty g) >>= fun _ => collectGroups now gs) _ t
    refine (refreshRetire_kept ht.1 hg).bind fun _ u hu => ?_
    refine ih hu.1 (fun g' hg' => ?_) hnd
    have hne : g' ≠ g := fun heq => hnot (heq ▸ hg')
    exact hu.2 g' (ht.2 ▸ hgs g' (List.mem_cons_of_mem _ hg')) hne

/-- An `aloe_ev_once` that collects nothing leaves everything as it was. -/
def CollectPost (s : St) (r : Except Int Unit) (t : St) : Prop :=
  match r with
  | .error _ => t.watch = s.watch
  | .ok () => Kept s none t

section
variable {s₀ : St}

theorem collect_kept (found : List (Nat × UInt32)) (h : Kept s₀ none s) (hs : s.watch = s₀.watch)
    (hnd : s₀.watch.fdQ.Nodup) : wp (collect found) (CollectPost s₀) s := by
  refine (still_markGroups found s).bind fun _ t ht => (still_sysClock t).bind fun r u hu => ?_
  have hus : u.watch = s₀.watch := (hu.1.trans ht.1).trans hs
  cases r with
  | error e => exact hus
  | ok now =>
    dsimp only
    rw [wp_bind, wp_get]
    refine (collectGroups_kept ((h.still ht).still hu) (fun g hg => hg) ?_).bind fun _ v hv => hv
    rw [← hus] at hnd
    exact hnd

theorem waitAndCollect_kept (ms : Int64) (h : Kept s₀ none s) (hs : s.watch = s₀.watch) (hnd : s₀.watch.fdQ.Nodup) :
    wp (waitAndCollect ms) (CollectPost s₀) s := by
  unfold waitAndCollect
  refine (still_sysEpollWait _ s).bind fun found t ht => ?_
  cases found with
  | error e => exact ht.1.trans hs
  | ok found => exact collect_kept found (h.still ht) (ht.1.trans hs) hnd

end

theorem onceCollect_kept (h : Kept s none s) (hnd : s.watch.fdQ.Nodup) : wp onceCollect (CollectPost s) s := by
  unfold onceCollect
  refine (still_passed s).bind fun r t ht => ?_
  cases r with
  | error e => exact ht.1
  | ok ms => exact waitAndCollect_kept ms (h.still ht) ht.1 hnd

/-! ## Putting -/

/-- Active groups, their records, their caches and the kernel's map are as before. -/
structure Unchanged (w w' : Watch) : Prop where
  fdQ : w'.fdQ = w.fdQ
  gfd : ∀ g ∈ w.fdQ, w'.gfd g = w.gfd g
  gq : ∀ g ∈ w.fdQ, w'.gq g = w.gq g
  epWait : ∀ g ∈ w.fdQ, w'.epWait g = w.epWait g
  record : ∀ g ∈ w.fdQ, ∀ x ∈ w.gq g, w'.record x = w.record x
  interest : w'.interest = w.interest

theorem Unchanged.of_eq {w w' : Watch} (h : w' = w) : Unchanged w w' :=
  h ▸ ⟨rfl, fun _ _ => rfl, fun _ _ => rfl, fun _ _ => rfl, fun _ _ _ _ => rfl, rfl⟩

theorem Unchanged.mirror {w w' : Watch} (h : Unchanged w w') (hm : Mirror w none) : Mirror w' none := by
  have hmap : w'.fdQ.map w'.gfd = w.fdQ.map w.gfd := by
    rw [h.fdQ]
    exact List.map_congr_left h.gfd
  refine ⟨hmap ▸ hm.fds, fun g hg hfd => ?_, fun g hg hfd _ => ?_, fun fd hfd hnot => ?_⟩
  · rw [h.fdQ] at hg
    rw [h.gfd g hg] at hfd ⊢
    rw [h.interest, h.epWait g hg]
    exact hm.cached g hg hfd
  · rw [h.fdQ] at hg
    rw [h.gfd g hg] at hfd
    rw [h.epWait g hg, hm.mask g hg hfd (by simp), Watch.mask, Watch.mask, h.gq g hg]
    exact List.foldl_ext _ _ _ fun m x hx => by rw [h.record g hg x hx]
  · rw [h.interest]
    exact hm.other fd hfd (hmap ▸ hnot)

/-- What `aloe_ev_put` comes to. -/
def Put (w : Watch) (r : Option Nat) (t : St) : Prop :=
  match r with
  | none => Unchanged w t.watch
  | some _ => Mirror t.watch none

theorem chainNoti_watch (g x : Nat) (a : PutArgs) (due : Timespec) (s : St) :
    wp (chainNoti g x a due) (fun _ t => t.watch = { s.watch with
      gq := Function.update s.watch.gq g (s.watch.gq g ++ [x])
      record := Function.update s.watch.record x ⟨a.fd, a.cb, a.cbarg, a.evWait, due, 0⟩ }) s := by
  have hq : wp (setGroup g fun e => { e with notiQ := e.notiQ ++ [x] }) (fun _ t =>
      t.watch = { s.watch with gq := Function.update s.watch.gq g (s.watch.gq g ++ [x]) }) s := by
    refine (watch_setGroup s g _).trans ?_
    have hfd : (s.group g).fd = s.watch.gfd g := rfl
    have hep : (s.group g).epWait = s.watch.epWait g := rfl
    dsimp only
    rw [hfd, hep, Function.update_eq_self, Function.update_eq_self]
    rfl
  refine hq.bind fun _ t ht => ?_
  exact (watch_setNoti t x _).trans (by rw [ht])

theorem newFdGroup_watch (g : Nat) (fd : Int) (s : St) :
    wp (newFdGroup g fd) (fun _ t => t.watch = { s.watch with
      fdQ := s.watch.fdQ ++ [g]
      gfd := Function.update s.watch.gfd g fd
      gq := Function.update s.watch.gq g []
      epWait := Function.update s.watch.epWait g 0 }) s := by
  have hset := watch_setGroup s g ⟨fd, 0, 0, false, []⟩
  have hopen : St.watch { s with group := Function.update s.group g ⟨fd, 0, 0, false, []⟩, fdQ := s.fdQ ++ [g] } =
      { St.watch { s with group := Function.update s.group g ⟨fd, 0, 0, false, []⟩ } with fdQ := s.watch.fdQ ++ [g] } := rfl
  exact hopen.trans (by rw [hset])

/-- After undoing, only the record is not what it was, and a group opened for it is closed. -/
theorem putUndo_watch {w : Watch} {e : Noti} (inq : Bool) (hx : x ∉ w.gq g) (hs : s.watch = { w with
      gq := Function.update w.gq g (w.gq g ++ [x]), record := Function.update w.record x e })
    (hinq : inq = false → w.gq g = []) :
    wp (putUndo inq g x) (fun _ t => t.watch = { w with
      fdQ := if inq then w.fdQ else w.fdQ.erase g, record := Function.update w.record x e }) s := by
  refine (offGroup_watch g x s).bind fun _ t ht => (still_toSpareNoti x t).bind fun _ u hu => ?_
  have hu : u.watch = { w with record := Function.update w.record x e } := by
    rw [hu.1, ht.2, hs]
    dsimp only
    rw [Function.update_self, Function.update_idem, List.erase_append_right _ hx, List.erase_cons_head, List.append_nil,
      Function.update_eq_self]
  cases inq with
  | true => exact hu
  | false =>
    have hempty : u.watch.gq g = [] := by
      rw [hu]
      exact hinq rfl
    refine (retireIfEmpty_watch g u).mono fun _ v hv => ?_
    obtain ⟨-, ⟨-, hw⟩ | ⟨hfull, -⟩⟩ := hv
    · rw [hw, hu]
      rfl
    · exact absurd hempty hfull

/-- A record that waits for nothing makes no difference to a group's mask. -/
theorem mask_chained {w : Watch} {e : Noti} (hx : x ∉ w.gq g) :
    Watch.mask { w with gq := Function.update w.gq g (w.gq g ++ [x]), record := Function.update w.record x e } g =
      w.mask g ||| e.evWait := by
  have hold : (w.gq g).foldl (fun mask y => mask ||| (Function.update w.record x e y).evWait) 0 = w.mask g := by
    refine List.foldl_ext _ _ _ fun m y hy => ?_
    have hne : y ≠ x := fun heq => hx (heq ▸ hy)
    rw [Function.update_of_ne hne]
  rw [Watch.mask]
  dsimp only
  rw [Function.update_self, List.foldl_append, hold, List.foldl_cons, List.foldl_nil, Function.update_self]

theorem putChain_watch {a : PutArgs} (inq : Bool) (due : Timespec) (hm : Mirror s.watch none) (hg : g ∈ s.watch.fdQ)
    (hx : ∀ g' ∈ s.watch.fdQ, x ∉ s.watch.gq g') (hinq : inq = false → s.watch.gq g = []) :
    wp (putChain inq g x a due) (fun r t => match r with
      | none => t.watch = { s.watch with
          fdQ := if inq then s.watch.fdQ else s.watch.fdQ.erase g
          record := Function.update s.watch.record x ⟨a.fd, a.cb, a.cbarg, a.evWait, due, 0⟩ }
      | some _ => Mirror t.watch none) s := by
  refine (chainNoti_watch g x a due s).bind fun _ t ht => ?_
  have hmt : Mirror t.watch (some g) := ht ▸ (hm.setRecord hx _).setQueue (by simp) _
  have hgt : g ∈ t.watch.fdQ := by
    rw [ht]
    exact hg
  refine (fdEpRefresh_refreshed g t).bind fun ok u hu => ?_
  cases hu.2 with
  | timer hfd hw =>
    change Mirror u.watch none
    exact hw ▸ hmt.timer hfd
  | told hw =>
    change Mirror u.watch none
    exact hw ▸ hmt.refreshed hgt
  | skipped heq hw =>
    change Mirror u.watch none
    exact hw ▸ hmt.settled heq
  | lost hfail hfd hmask hw =>
    -- nothing was watched for the group before
    rw [ht, mask_chained (hx g hg)] at hmask
    have hzero := (UInt32.or_eq_zero_iff.1 hmask).1
    have hep : t.watch.epWait g = 0 := by
      rw [ht] at hfd ⊢
      exact (hm.mask g hg hfd (by simp)).trans hzero
    have hsame : u.watch = t.watch := by rw [hw, ← hep, Function.update_eq_self]
    change Mirror u.watch none
    refine hsame ▸ hmt.settled (hep.trans ?_)
    rw [ht, mask_chained (hx g hg)]
    exact hmask.symm
  | refused hfail hw =>
    exact (putUndo_watch inq (hx g hg) (hw.trans ht) hinq).bind fun _ v hv => hv

theorem putActive_watch {a : PutArgs} {regs : List (Nat × Reg)} (due : Timespec) (h : Owned s.view regs [] [] none)
    (hm : Mirror s.watch none) (hg : g ∈ s.watch.fdQ) : wp (putActive g a due) (Put s.watch) s := by
  refine ((getNotiHolder_wp h).and (still_getNotiHolder s)).bind fun r t ht => ?_
  obtain ⟨⟨-, hown⟩, hw, -⟩ := ht
  rw [← hw] at hm hg ⊢
  cases r with
  | none => exact Unchanged.of_eq (by rfl)
  | some x =>
    have hx : ∀ g' ∈ t.watch.fdQ, x ∉ t.watch.gq g' := fun g' hg' hmem =>
      hown.loose_notMem (List.mem_append_left _ (mem_gathered.2 ⟨g', hg', hmem⟩))
    refine (putChain_watch true due hm hg hx (by simp)).mono fun r u hu => ?_
    cases r with
    | some x => exact hu
    | none =>
      rw [Put, hu]
      refine ⟨rfl, fun _ _ => rfl, fun _ _ => rfl, fun _ _ => rfl, fun g' hg' y hy => ?_, rfl⟩
      have hne : y ≠ x := fun heq => hx g' hg' (heq ▸ hy)
      exact Function.update_of_ne hne ..

theorem putSpare_watch {a : PutArgs} {regs : List (Nat × Reg)} (due : Timespec) (h : Owned s.view regs [] [g] none)
    (hm : Mirror s.watch none) (hfd : a.fd ∉ s.watch.fdQ.map s.watch.gfd) : wp (putSpare g a due) (Put s.watch) s := by
  refine ((getNotiHolder_wp h).and (still_getNotiHolder s)).bind fun r t ht => ?_
  obtain ⟨⟨-, hown⟩, hw, -⟩ := ht
  rw [← hw] at hm hfd ⊢
  cases r with
  | none => exact Unchanged.of_eq (by rfl)
  | some x =>
    have hg : g ∉ t.watch.fdQ := hown.looseFd_notMem
    have hold : ∀ g' ∈ t.watch.fdQ, g' ≠ g := fun g' hg' heq => hg (heq ▸ hg')
    have hx : ∀ g' ∈ t.watch.fdQ, x ∉ t.watch.gq g' := fun g' hg' hmem =>
      hown.loose_notMem (List.mem_append_left _ (mem_gathered.2 ⟨g', hg', hmem⟩))
    refine (newFdGroup_watch g a.fd t).bind fun _ u hu => ?_
    have hmu : Mirror u.watch none := hu ▸ hm.openGroup hfd hg
    have hgu : g ∈ u.watch.fdQ := by
      rw [hu]
      exact List.mem_append_right _ List.mem_cons_self
    have hempty : u.watch.gq g = [] := by
      rw [hu]
      exact Function.update_self ..
    have hxu : ∀ g' ∈ u.watch.fdQ, x ∉ u.watch.gq g' := by
      intro g' hg' hmem
      by_cases heq : g' = g
      · rw [heq, hempty] at hmem
        exact absurd hmem List.not_mem_nil
      · rw [hu] at hg' hmem
        have hg' : g' ∈ t.watch.fdQ := (List.mem_append.1 hg').resolve_right fun hmem => heq (List.mem_singleton.1 hmem)
        dsimp only at hmem
        rw [Function.update_of_ne heq] at hmem
        exact hx g' hg' hmem
    refine (putChain_watch false due hmu hgu hxu (fun _ => hempty)).mono fun r v hv => ?_
    cases r with
    | some x => exact hv
    | none =>
      rw [Put, hv, hu]
      refine ⟨?_, fun g' hg' => ?_, fun g' hg' => ?_, fun g' hg' => ?_, fun g' hg' y hy => ?_, rfl⟩
      · change (t.watch.fdQ ++ [g]).erase g = t.watch.fdQ
        rw [List.erase_append_right _ hg, List.erase_cons_head, List.append_nil]
      · exact Function.update_of_ne (hold g' hg') ..
      · exact Function.update_of_ne (hold g' hg') ..
      · exact Function.update_of_ne (hold g' hg') ..
      · have hne : y ≠ x := fun heq => hx g' hg' (heq ▸ hy)
        exact Function.update_of_ne hne ..

theorem putGroup_watch {a : PutArgs} {regs : List (Nat × Reg)} (due : Timespec) (h : Owned s.view regs [] [] none)
    (hm : Mirror s.watch none) : wp (putGroup a due) (Put s.watch) s := by
  refine (fdQFind_wp a.fd s).bind fun r t ht => ?_
  obtain ⟨rfl, hfound, hnone⟩ := ht
  cases r with
  | some g => exact putActive_watch due h hm (hfound g rfl).1
  | none =>
    refine ((getSpareFd_wp h).and (still_getSpareFd t)).bind fun r u hu => ?_
    obtain ⟨⟨-, hown⟩, hw, -⟩ := hu
    have hfd : a.fd ∉ t.watch.fdQ.map t.watch.gfd := hnone rfl
    rw [← hw] at hm hfd ⊢
    cases r with
    | none => exact .of_eq rfl
    | some g => exact putSpare_watch due hown hm hfd

theorem aloeEvPut_watch {regs : List (Nat × Reg)} (a : PutArgs) (h : Owned s.view regs [] [] none)
    (hm : Mirror s.watch none) : wp (aloeEvPut a) (Put s.watch) s := by
  refine ((quiet_putDue a s).and (still_putDue a s)).bind fun r t ht => ?_
  obtain ⟨hview, hw, -⟩ := ht
  rw [← hview] at h
  rw [← hw] at hm ⊢
  cases r with
  | none => exact .of_eq rfl
  | some due => exact putGroup_watch due h hm

end

/-! ## Runs -/

/-- Outside `aloe_ev_put` no call of `epoll_ctl` fails but for what its map has, and no descriptor is closed that has a
group. A cancel makes no other calls, and in an `aloe_ev_once` that collects the others have not failed. -/
def Behaves (s : Sys) : Act → Prop
  | .cancel x => ¬ Failed s.st (aloeEvCancel x s.st).2
  | .once => (onceCollect s.st).1.isOk → ¬ Failed s.st (onceCollect s.st).2
  | .close fd => ∀ g ∈ s.st.fdQ, (s.st.group g).fd ≠ fd
  | _ => True

def BehavesAll : List Act → Sys → Prop
  | [], _ => True
  | a :: as, s => Behaves s a ∧ ∀ s' ∈ step a s, BehavesAll as s'

instance (s : Sys) : DecidablePred (Behaves s)
  | .put _ => .isTrue trivial
  | .get _ _ => .isTrue trivial
  | .cancel _ => inferInstanceAs (Decidable (¬ _))
  | .once => inferInstanceAs (Decidable (_ → _))
  | .ret => .isTrue trivial
  | .close _ => inferInstanceAs (Decidable (∀ g ∈ _, _))

instance decidableBehavesAll : (as : List Act) → DecidablePred (BehavesAll as)
  | [], _ => .isTrue trivial
  | a :: as, s =>
    have := decidableBehavesAll as
    inferInstanceAs (Decidable (Behaves s a ∧ ∀ s' ∈ step a s, BehavesAll as s'))

theorem drain_watch (n : Nat) (s : Sys) : (drain n s).st.watch = s.st.watch := by
  have hstill := (still_popReady s.st).1
  unfold drain
  generalize popReady s.st = p at hstill ⊢
  obtain ⟨c, st⟩ := p
  cases c with
  | none => exact hstill
  | some c => exact hstill

/-- A descriptor without a group is not watched when it is closed. -/
theorem close_watch {s : St} {fd : Int} (hm : Mirror s.watch none) (hfd : ∀ g ∈ s.fdQ, (s.group g).fd ≠ fd) :
    Mirror (St.watch { s with interest := Function.update s.interest fd none }) none := by
  have hnot : fd ∉ s.watch.fdQ.map s.watch.gfd := by
    intro hmem
    obtain ⟨g, hg, heq⟩ := List.mem_map.1 hmem
    exact hfd g hg heq
  refine { hm with cached := fun g hg hg0 => ?_, other := fun fd' hfd' hnot' => ?_ }
  · exact (Function.update_of_ne (hfd g hg) ..).trans (hm.cached g hg hg0)
  · by_cases heq : fd' = fd
    · subst heq
      exact Function.update_self ..
    · exact (Function.update_of_ne heq ..).trans (hm.other fd' hfd' hnot')

theorem step_mirror {a : Act} {s s' : Sys} (h : Inv s) (hm : Mirror s.st.watch none) (hb : Behaves s a)
    (hs : step a s = some s') : Mirror s'.st.watch none := by
  have hkept : Kept s.st none s.st := ⟨.refl s.st, fun _ => hm⟩
  cases a with
  | put a =>
    have hput : Put s.st.watch (aloeEvPut a s.st).1 (aloeEvPut a s.st).2 := aloeEvPut_watch a h.owned hm
    simp only [step] at hs
    split at hs
    · next st heq =>
      obtain rfl := Option.some.inj hs
      rw [heq] at hput
      exact hput.mirror hm
    · next x st heq =>
      obtain rfl := Option.some.inj hs
      rw [heq] at hput
      exact hput
  | get fd cb =>
    obtain rfl := Option.some.inj hs
    have hw : (aloeEvGet fd cb s.st).2.watch = s.st.watch := (still_aloeEvGet fd cb s.st).1
    exact hw ▸ hm
  | cancel x =>
    have hcancel : Kept s.st none (aloeEvCancel x s.st).2 := aloeEvCancel_kept x hkept
    simp only [step] at hs
    split at hs
    · obtain rfl := Option.some.inj hs
      exact hcancel.mirror hb
    · cases hs
  | once =>
    have hcollect : CollectPost s.st (onceCollect s.st).1 (onceCollect s.st).2 := onceCollect_kept hkept hm.nodup_fdQ
    simp only [step] at hs
    split at hs
    · cases hs
    · split at hs
      · next e st heq =>
        obtain rfl := Option.some.inj hs
        rw [heq] at hcollect
        exact hcollect ▸ hm
      · next st heq =>
        obtain rfl := Option.some.inj hs
        rw [drain_watch]
        unfold Behaves at hb
        rw [heq] at hcollect hb
        exact hcollect.mirror (hb rfl)
  | ret =>
    simp only [step] at hs
    split at hs
    · cases hs
    · obtain rfl := Option.some.inj hs
      rw [drain_watch]
      exact hm
  | close fd =>
    obtain rfl := Option.some.inj hs
    exact close_watch hm hb

theorem run_mirror {as : List Act} {s s' : Sys} (h : Inv s) (hm : Mirror s.st.watch none) (hb : BehavesAll as s)
    (hr : run as s = some s') : Mirror s'.st.watch none := by
  induction as generalizing s with
  | nil =>
    obtain rfl := Option.some.inj hr
    exact hm
  | cons a as ih =>
    obtain ⟨t, hs, hr⟩ := Option.bind_eq_some_iff.1 hr
    exact ih (step_inv h hs) (step_mirror h hm hb.1 hs) (hb.2 t hs) hr

/-- What the kernel watches is what the registrations wait for. -/
structure Mirrors (s : St) : Prop where
  watched : ∀ fd, 0 ≤ fd → ∀ g ∈ s.fdQ, (s.group g).fd = fd → groupMask s g ≠ 0 →
    s.interest fd = some (toEpoll (groupMask s g), g) ∧ (s.group g).epWait = groupMask s g
  unwatched : ∀ fd, 0 ≤ fd → (∀ g ∈ s.fdQ, (s.group g).fd = fd → groupMask s g = 0) → s.interest fd = none

theorem Mirror.mirrors {s : St} (h : Mirror s.watch none) : Mirrors s where
  watched fd hfd g hg heq hmask := by
    subst heq
    have hep : (s.group g).epWait = groupMask s g := h.mask g hg hfd (by simp)
    have hi : s.interest (s.group g).fd = wanted (s.group g).epWait g := h.cached g hg hfd
    rw [hep, wanted, if_neg hmask] at hi
    exact ⟨hi, hep⟩
  unwatched fd hfd hnone := by
    by_cases hmem : fd ∈ s.watch.fdQ.map s.watch.gfd
    · obtain ⟨g, hg, heq⟩ := List.mem_map.1 hmem
      subst heq
      have hi := h.cached g hg hfd
      rw [h.mask g hg hfd (by simp), ← groupMask_watch, hnone g hg rfl] at hi
      exact hi
    · exact h.other fd hfd hmem

/-- **What the kernel watches is what the registrations wait for**, between the operations of every run and whenever a
callback is called; and an `aloe_ev_put` that fails changes nothing, wherever it fails. -/
theorem kernel_watches (busy : Bool) (group : Nat → Group) (noti : Nat → Noti) (oracle : Oracle) (as : List Act) (s : Sys)
    (h : run as (init busy group noti oracle) = some s) (hb : BehavesAll as (init busy group noti oracle)) :
    Mirrors s.st ∧ ∀ a, (aloeEvPut a s.st).1 = none → Unchanged s.st.watch (aloeEvPut a s.st).2.watch := by
  have hinit : Mirror (init busy group noti oracle).st.watch none :=
    ⟨List.nodup_nil, fun g hg => absurd hg List.not_mem_nil, fun g hg => absurd hg List.not_mem_nil, fun _ _ _ => rfl⟩
  have hinv := run_inv (init_inv busy group noti oracle) h
  have hm := run_mirror (init_inv busy group noti oracle) hinit hb h
  refine ⟨hm.mirrors, fun a hnone => ?_⟩
  have hput : Put s.st.watch (aloeEvPut a s.st).1 (aloeEvPut a s.st).2 := aloeEvPut_watch a hinv.owned hm
  rw [hnone] at hput
  exact hput

theorem kernel_watches_recycled : ∃ s, run recycled fresh = some s ∧ s.st.interest 3 = some (epollIn, 0) ∧ Mirrors s.st ∧
    ∀ a, (aloeEvPut a s.st).1 = none → Unchanged s.st.watch (aloeEvPut a s.st).2.watch := by
  have hinterest : (run recycled fresh).map (fun s => s.st.interest 3) = some (some (epollIn, 0)) := by decide +kernel
  obtain ⟨s, hrun, hs⟩ := Option.map_eq_some_iff.1 hinterest
  exact ⟨s, hrun, hs, kernel_watches false _ _ readable recycled s hrun (by decide +kernel)⟩

end AlgaeBp.Ev
