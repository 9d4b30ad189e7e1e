import AlgaeBp.Lib.Runs
import AlgaeBp.Mgmt.Code
import AlgaeBp.Tailq.Lists
/-!
# What the management server owns

`World` has what is in memory, open and registered; one lemma for each function
says how it changes these. `Serves` puts it in terms of the clients in the
queue. Of a connection whose descriptor is zero only the descriptor stays.
-/
open Hosts Ledgers Runs StateWp

namespace AlgaeBp.Mgmt

open Tailq

variable {s t : St} {m c p : Nat} {a b linked blocks ids : List Nat} {fd : Int} {fds lost : List Int}
    {reg : Reg Wait} {regs : List (Reg Wait)}

structure World (s : St) (m : Nat) (linked blocks : List Nat) (fds : List Int) (regs : List (Reg Wait)) : Prop where
  links : Reps s.links fun _ => linked
  mem : Holds s.blocks (m :: blocks)
  alive : ∀ c ∈ linked, c ∈ blocks
  owns : Owns s.host fds regs

/-- The records are as before. -/
structure Same (s t : St) : Prop where
  clients : t.clients = s.clients
  server : t.server = s.server
  ctx : t.ctx = s.ctx

theorem Same.refl (s : St) : Same s s := ⟨rfl, rfl, rfl⟩

theorem Same.trans {u : St} (h : Same s t) (h' : Same t u) : Same s u :=
  ⟨h'.clients.trans h.clients, h'.server.trans h.server, h'.ctx.trans h.ctx⟩

theorem World.records (h : World s m linked blocks fds regs) (clients : Nat → Client) (server : Evconn) :
    World { s with clients := clients, server := server } m linked blocks fds regs := ⟨h.links, h.mem, h.alive, h.owns⟩

/-! ## Memory and queue -/

theorem access_wp (h : World s m linked blocks fds regs) (hp : p ∈ m :: blocks) :
    wp (access p) (fun _ t => World t m linked blocks fds regs ∧ Same s t) s :=
  ⟨⟨h.links, h.mem.use hp, h.alive, h.owns⟩, ⟨rfl, rfl, rfl⟩⟩

/-- A pointer of the queue is in the server's record or in that of an element. -/
theorem ownerOf_ending (m : Nat) (l : List Nat) : ownerOf m (ending (.first ()) l) ∈ m :: l := by
  rcases mem_slots.1 (ending_mem (s := Loc.first ()) (l := l)) with hs | ⟨x, hx, hs⟩
  · rw [hs]
    exact List.mem_cons_self
  · rw [hs]
    exact List.mem_cons_of_mem m hx

theorem alive_cons {l : List Nat} (h : ∀ c ∈ l, c ∈ blocks) : ∀ c ∈ m :: l, c ∈ m :: blocks :=
  fun _ hc => List.cons_subset_cons m h hc

theorem update_unit (l l' : List Nat) : Function.update (fun _ : Unit => l) () l' = fun _ => l' :=
  funext fun _ => Function.update_self ..

theorem mgmt1ClientAdd_wp (h : World s m linked blocks fds regs) (hc : c ∈ blocks) (hnew : c ∉ linked) :
    wp (mgmt1ClientAdd m c) (fun _ t => World t m (linked ++ [c]) blocks fds regs ∧ Same s t) s := by
  have hlast : ownerOf m (s.links.tqhLast ()) ∈ m :: blocks := by
    rw [(h.links.queue ()).last]
    exact alive_cons h.alive _ (ownerOf_ending m linked)
  refine wp_read.2 ((access_wp h (List.mem_cons_of_mem m hc)).bind fun _ t ht => (access_wp ht.1 hlast).bind fun _ u hu =>
    (access_wp hu.1 List.mem_cons_self).bind fun _ v hv => ?_)
  have hins := hv.1.links.insertTail (q := ()) (x := c) fun _ => hnew
  rw [update_unit] at hins
  refine ⟨⟨hins, hv.1.mem, fun x hx => ?_, hv.1.owns⟩, ht.2.trans (hu.2.trans ⟨hv.2.clients, hv.2.server, hv.2.ctx⟩)⟩
  rcases List.mem_append.1 hx with hx | hx
  · exact h.alive x hx
  · exact List.mem_singleton.1 hx ▸ hc

theorem mgmt1ClientRm_wp (h : World s m (a ++ c :: b) blocks fds regs) :
    wp (mgmt1ClientRm m c) (fun _ t => World t m (a ++ b) blocks fds regs ∧ Same s t) s := by
  have hqueue := h.links.queue ()
  have hc : c ∈ blocks := h.alive c (by simp)
  have hnext : (s.links.tqeNext c).getD m ∈ m :: blocks := by
    rw [tqeNext_eq, hqueue.get_next]
    cases b with
    | nil => exact List.mem_cons_self
    | cons x b => exact List.mem_cons_of_mem m (h.alive x (by simp))
  have hprev : ownerOf m (s.links.tqePrev c) ∈ m :: blocks := by
    rw [hqueue.prev_head]
    exact alive_cons (fun x hx => h.alive x (List.mem_append_left _ hx)) _ (ownerOf_ending m a)
  refine wp_read.2 ((access_wp h (List.mem_cons_of_mem m hc)).bind fun _ t ht => (access_wp ht.1 hnext).bind fun _ u hu =>
    (access_wp hu.1 hprev).bind fun _ v hv => ?_)
  have hrm := hv.1.links.remove (q := ()) rfl
  rw [update_unit] at hrm
  refine ⟨⟨hrm, hv.1.mem, fun x hx => h.alive x ?_, hv.1.owns⟩,
    ht.2.trans (hu.2.trans ⟨hv.2.clients, hv.2.server, hv.2.ctx⟩)⟩
  exact ((List.sublist_cons_self c b).append_left a).subset hx

theorem aloeFree_wp (h : World s m linked (c :: blocks) fds regs) (hfree : c ∉ linked) :
    wp (aloeFree c) (fun _ t => World t m linked blocks fds regs ∧ Same s t) s := by
  refine ⟨⟨h.links, (h.mem.perm (List.Perm.swap c m blocks)).give, fun x hx => ?_, h.owns⟩, ⟨rfl, rfl, rfl⟩⟩
  exact (List.mem_cons.1 (h.alive x hx)).resolve_left fun heq => hfree (heq ▸ hx)

/-! ## The connection of a client -/

/-- The record of a client is changed; the others are as before. -/
structure Changed (s t : St) (c : Nat) (client : Client) : Prop where
  clients : t.clients = Function.update s.clients c client
  server : t.server = s.server
  ctx : t.ctx = s.ctx

theorem modifyClient_wp (h : World s m linked blocks fds regs) (hc : c ∈ blocks) (f : Client → Client) :
    wp (modifyClient c f) (fun _ t => World t m linked blocks fds regs ∧ Changed s t c (f (s.clients c))) s := by
  refine (access_wp h (List.mem_cons_of_mem m hc)).bind fun _ t ht => ⟨ht.1.records _ _, ?_, ht.2.server, ht.2.ctx⟩
  rw [← ht.2.clients]
  rfl

theorem World.perm (h : World s m linked blocks fds regs) {fds' : List Int} {regs' : List (Reg Wait)}
    (hf : fds.Perm fds') (hr : regs.Perm regs') :
    World s m linked blocks fds' regs' := ⟨h.links, h.mem, h.alive, h.owns.perm hf hr⟩

/-- The client has no registration from here on. -/
def Client.cancelled (client : Client) : Client := { client with evconn.ev := none }

theorem clientCancel_wp (h : World s m linked blocks fds ((s.clients c).evconn.ev.toList ++ regs)) (hc : c ∈ blocks) :
    wp (clientCancel c) (fun _ t => World t m linked blocks fds regs ∧ Changed s t c (s.clients c).cancelled) s := by
  refine (access_wp h (List.mem_cons_of_mem m hc)).bind fun _ t ht => wp_read.2 ?_
  obtain ⟨ht, hsame⟩ := ht
  rw [hsame.clients]
  cases hev : (s.clients c).evconn.ev with
  | none =>
    rw [hev] at ht
    have hnone : (s.clients c).cancelled = s.clients c := by rw [Client.cancelled, ← hev]
    refine ⟨ht, ?_, hsame.server, hsame.ctx⟩
    rw [hnone, Function.update_eq_self]
    exact hsame.clients
  | some reg =>
    rw [hev] at ht
    have hu : wp (onHost (unwatch reg)) (fun _ u => World u m linked blocks fds regs ∧ Same s u) t :=
      ⟨⟨ht.links, ht.mem, ht.alive, ht.owns.unwatch⟩, ⟨hsame.clients, hsame.server, hsame.ctx⟩⟩
    refine hu.bind fun _ u hu => (modifyClient_wp hu.1 hc _).mono
      fun _ v hv => ⟨hv.1, ?_, hv.2.server.trans hu.2.server, hv.2.ctx.trans hu.2.ctx⟩
    rw [hv.2.clients, hu.2.clients]
    rfl

/-- What stays of a descriptor when its client goes. -/
def kept (fd : Int) : List Int := if fd = 0 then [fd] else []

theorem clientClose_wp (h : World s m linked blocks ((s.clients c).evconn.fd :: fds) regs) (hc : c ∈ blocks)
    (hw : ∀ reg ∈ regs, reg.fd ∈ fds) :
    wp (clientClose c) (fun _ t => World t m linked blocks (kept (s.clients c).evconn.fd ++ fds) regs ∧ Same s t) s := by
  refine (access_wp h (List.mem_cons_of_mem m hc)).bind fun _ t ht => wp_read.2 ?_
  obtain ⟨ht, hsame⟩ := ht
  rw [hsame.clients]
  split
  · next hfd =>
    rw [kept, if_neg hfd]
    exact ⟨⟨ht.links, ht.mem, ht.alive, ht.owns.close (ht.owns.unwatched hw)⟩, ⟨hsame.clients, hsame.server, hsame.ctx⟩⟩
  · next hfd =>
    rw [kept, if_pos (Decidable.not_not.1 hfd)]
    exact ⟨ht, hsame⟩

/-! ## Clients -/

def fdOf (s : St) (c : Nat) : Int := (s.clients c).evconn.fd

def regsOf (s : St) (c : Nat) : List (Reg Wait) := (s.clients c).evconn.ev.toList

/-- The server, its clients, and what has stayed of earlier ones. -/
def openFds (s : St) (ids : List Nat) (lost : List Int) : List Int := s.server.fd :: (ids.map (fdOf s) ++ lost)

def openRegs (s : St) (ids : List Nat) : List (Reg Wait) := s.server.ev.toList ++ ids.flatMap (regsOf s)

structure Serves (s : St) (m : Nat) (ids : List Nat) (lost : List Int) : Prop where
  world : World s m ids ids (openFds s ids lost) (openRegs s ids)
  accepts : ∀ reg ∈ s.server.ev, reg.fd = s.server.fd ∧ reg.how = ⟨.accept, m⟩
  mine : ∀ c ∈ ids, (s.clients c).mgmt = some m
  reads : ∀ c ∈ ids, ∀ reg ∈ regsOf s c, reg.fd = fdOf s c ∧ reg.how = ⟨.client, c⟩
  zero : ∀ fd ∈ lost, fd = 0

/-- Where the records are as before. -/
theorem Serves.same (h : Serves s m ids lost) (hsame : Same s t)
    (hw : World t m ids ids (openFds s ids lost) (openRegs s ids)) :
    Serves t m ids lost := by
  have hfd : fdOf t = fdOf s := funext fun c => by rw [fdOf, fdOf, hsame.clients]
  have hreg : regsOf t = regsOf s := funext fun c => by rw [regsOf, regsOf, hsame.clients]
  constructor
  case world =>
    rw [openFds, openRegs, hfd, hreg, hsame.server]
    exact hw
  case accepts =>
    rw [hsame.server]
    exact h.accepts
  case mine =>
    rw [hsame.clients]
    exact h.mine
  case reads =>
    rw [hfd, hreg]
    exact h.reads
  case zero => exact h.zero

theorem openFds_perm (s : St) (a b : List Nat) (lost : List Int) :
    (openFds s (a ++ c :: b) lost).Perm (fdOf s c :: openFds s (a ++ b) lost) := by
  unfold openFds
  refine .trans (.cons _ ?_) (.swap ..)
  rw [List.map_append, List.map_cons, List.map_append, List.append_assoc, List.append_assoc]
  exact List.perm_middle

theorem openRegs_perm (s : St) (a b : List Nat) : (openRegs s (a ++ c :: b)).Perm (regsOf s c ++ openRegs s (a ++ b)) := by
  unfold openRegs
  rw [List.flatMap_append, List.flatMap_cons, List.flatMap_append, ← List.append_assoc,
    ← List.append_assoc s.server.ev.toList]
  exact List.perm_append_comm_assoc ..

/-- Other registrations are for other descriptors. -/
theorem Serves.watched (h : Serves s m (a ++ c :: b) lost) :
    ∀ reg ∈ openRegs s (a ++ b), reg.fd ∈ openFds s (a ++ b) lost := by
  intro reg hreg
  rcases List.mem_append.1 hreg with hreg | hreg
  · rw [(h.accepts reg (Option.mem_toList.1 hreg)).1]
    exact List.mem_cons_self
  · obtain ⟨x, hx, hreg⟩ := List.mem_flatMap.1 hreg
    have hx' : x ∈ a ++ c :: b := ((List.sublist_cons_self c b).append_left a).subset hx
    rw [(h.reads x hx' reg hreg).1]
    exact List.mem_cons_of_mem _ (List.mem_append_left _ (List.mem_map_of_mem hx))

theorem Changed.other (h : Changed s t c (s.clients c).cancelled) {x : Nat} (hx : x ≠ c) : t.clients x = s.clients x := by
  rw [h.clients, Function.update_of_ne hx]

/-- A client has gone. -/
theorem Serves.gone (h : Serves s m (a ++ c :: b) lost) (hch : Changed s t c (s.clients c).cancelled)
    (hw : World t m (a ++ b) (a ++ b) (kept (fdOf s c) ++ openFds s (a ++ b) lost) (openRegs s (a ++ b))) :
    Serves t m (a ++ b) (kept (fdOf s c) ++ lost) := by
  have hnodup := h.world.links.nodup ()
  have hne : ∀ x ∈ a ++ b, x ≠ c := by
    rintro x hx rfl
    rw [List.nodup_middle] at hnodup
    exact (List.nodup_cons.1 hnodup).1 hx
  have hclient : ∀ x ∈ a ++ b, t.clients x = s.clients x := fun x hx => hch.other (hne x hx)
  have hsub : ∀ x ∈ a ++ b, x ∈ a ++ c :: b := fun x hx => ((List.sublist_cons_self c b).append_left a).subset hx
  have hfd : ∀ x ∈ a ++ b, fdOf t x = fdOf s x := fun x hx => by rw [fdOf, fdOf, hclient x hx]
  have hreg : ∀ x ∈ a ++ b, regsOf t x = regsOf s x := fun x hx => by rw [regsOf, regsOf, hclient x hx]
  have hfds : (kept (fdOf s c) ++ openFds s (a ++ b) lost).Perm (openFds t (a ++ b) (kept (fdOf s c) ++ lost)) := by
    unfold openFds
    rw [hch.server, List.map_congr_left hfd]
    refine .trans List.perm_middle (.cons _ ?_)
    rw [← List.append_assoc, ← List.append_assoc]
    exact List.perm_append_comm.append_right lost
  have hregs : openRegs s (a ++ b) = openRegs t (a ++ b) := by
    unfold openRegs
    rw [hch.server, List.flatMap_congr hreg]
  constructor
  case world => exact hw.perm hfds (.of_eq hregs)
  case accepts =>
    rw [hch.server]
    exact h.accepts
  case mine =>
    intro x hx
    rw [hclient x hx]
    exact h.mine x (hsub x hx)
  case reads =>
    intro x hx reg hr
    rw [hreg x hx] at hr
    rw [hfd x hx]
    exact h.reads x (hsub x hx) reg hr
  case zero =>
    intro fd hlost
    rcases List.mem_append.1 hlost with hlost | hlost
    · unfold kept at hlost
      split at hlost
      · next hzero => exact (List.mem_singleton.1 hlost).trans hzero
      · exact absurd hlost List.not_mem_nil
    · exact h.zero fd hlost

/-- The records that are left when the client's is free. -/
theorem World.free (h : World s m (a ++ b) (a ++ c :: b) fds regs) (hn : (a ++ c :: b).Nodup) :
    wp (aloeFree c) (fun _ t => World t m (a ++ b) (a ++ b) fds regs ∧ Same s t) s := by
  have hfree : c ∉ a ++ b := by
    rw [List.nodup_middle] at hn
    exact (List.nodup_cons.1 hn).1
  have hmem : Holds s.blocks (m :: c :: (a ++ b)) := h.mem.perm (List.perm_middle.cons m)
  exact aloeFree_wp ⟨h.links, hmem, fun x hx => List.mem_cons_of_mem c hx, h.owns⟩ hfree

/-- **A client is given up in the order of its callback.** -/
theorem mgmt1ClientRelease_wp (h : Serves s m (a ++ c :: b) lost) :
    wp (mgmt1ClientRelease c) (fun _ t => Serves t m (a ++ b) (kept (fdOf s c) ++ lost) ∧
      Changed s t c (s.clients c).cancelled) s := by
  have hc : c ∈ a ++ c :: b := by simp
  have hw := h.world.perm (openFds_perm s a b lost) (openRegs_perm s a b)
  refine (clientCancel_wp hw hc).bind fun _ t ht => ?_
  obtain ⟨ht, htc⟩ := ht
  have hclient : t.clients c = (s.clients c).cancelled := by rw [htc.clients, Function.update_self]
  have hfd : (t.clients c).evconn.fd = fdOf s c := by rw [hclient]; rfl
  have hmgmt : (t.clients c).mgmt = some m := by
    rw [hclient]
    exact h.mine c hc
  rw [← hfd] at ht
  refine (clientClose_wp ht hc h.watched).bind fun _ u hu => wp_read.2 ?_
  obtain ⟨hu, hsame⟩ := hu
  rw [hfd] at hu
  rw [hsame.clients, hmgmt]
  refine (mgmt1ClientRm_wp hu).bind fun _ v hv => (hv.1.free (h.world.links.nodup ())).mono fun _ w hw => ?_
  have hch : Changed s w c (s.clients c).cancelled := by
    have hall := hsame.trans (hv.2.trans hw.2)
    exact ⟨hall.clients.trans htc.clients, hall.server.trans htc.server, hall.ctx.trans htc.ctx⟩
  exact ⟨h.gone hch hw.1, hch⟩

/-- The body of the loop of `mgmt1_destroy`. -/
theorem destroyTurn_wp (h : Serves s m (c :: b) lost) :
    wp (do mgmt1ClientRm m c; clientCancel c; clientClose c; aloeFree c)
      (fun _ t => Serves t m b (kept (fdOf s c) ++ lost) ∧ Changed s t c (s.clients c).cancelled) s := by
  have hc : c ∈ [] ++ c :: b := List.mem_cons_self
  have hw := h.world.perm (openFds_perm s [] b lost) (openRegs_perm s [] b)
  refine (mgmt1ClientRm_wp (a := []) hw).bind fun _ t ht => ?_
  obtain ⟨ht, hsame⟩ := ht
  rw [regsOf, ← hsame.clients] at ht
  refine (clientCancel_wp ht hc).bind fun _ u hu => ?_
  obtain ⟨hu, huc⟩ := hu
  have hclient : u.clients c = (s.clients c).cancelled := by rw [huc.clients, Function.update_self, hsame.clients]
  have hfd : (u.clients c).evconn.fd = fdOf s c := by rw [hclient]; rfl
  rw [← hfd] at hu
  refine (clientClose_wp hu hc (h.watched (a := []))).bind fun _ v hv =>
    (hv.1.free (a := []) (h.world.links.nodup ())).mono fun _ w hw => ?_
  have hall := hv.2.trans hw.2
  have hch : Changed s w c (s.clients c).cancelled := by
    refine ⟨?_, (hall.server.trans huc.server).trans hsame.server, (hall.ctx.trans huc.ctx).trans hsame.ctx⟩
    rw [hall.clients, huc.clients, hsame.clients]
  have hgone := hw.1
  rw [hfd] at hgone
  exact ⟨h.gone (a := []) hch hgone, hch⟩

theorem destroyLoop_wp (fuel : Nat) (h : Serves s m ids lost) (hf : ids.length < fuel) :
    wp (destroyLoop m fuel) (fun _ t => ∃ lost', Serves t m [] lost' ∧ t.server = s.server) s := by
  induction fuel generalizing s ids lost with
  | zero => exact absurd hf (Nat.not_lt_zero _)
  | succ fuel ih =>
    refine (access_wp h.world List.mem_cons_self).bind fun _ t ht => wp_read.2 ?_
    obtain ⟨ht, hsame⟩ := ht
    have hserves := h.same hsame ht
    have hfirst : tailqFirst t.links () = ids.head? := ((ht.links.queue ()).get_ending (a := []))
    rw [hfirst]
    cases ids with
    | nil => exact ⟨lost, hserves, hsame.server⟩
    | cons c b =>
      have hrest : wp (do mgmt1ClientRm m c; clientCancel c; clientClose c; aloeFree c)
          (fun _ u => wp (destroyLoop m fuel) (fun _ v => ∃ lost', Serves v m [] lost' ∧ v.server = s.server) u) t := by
        refine (destroyTurn_wp hserves).mono fun _ u hu => (ih hu.1 (Nat.lt_of_succ_lt_succ hf)).mono fun _ v hv => ?_
        obtain ⟨lost', hdone, hserver⟩ := hv
        exact ⟨lost', hdone, hserver.trans (hu.2.server.trans hsame.server)⟩
      exact hrest

/-! ## A new client -/

theorem ask_wp (h : World s m linked blocks fds regs) : wp ask (fun _ t => World t m linked blocks fds regs ∧ Same s t) s :=
  ⟨⟨h.links, h.mem, h.alive, h.owns.ask⟩, ⟨rfl, rfl, rfl⟩⟩

theorem newFd_wp (h : World s m linked blocks fds regs) :
    wp newFd (fun r t => (r < 0 → World t m linked blocks fds regs) ∧
      (¬r < 0 → World t m linked blocks (r :: fds) regs) ∧ Same s t) s :=
  ⟨fun hr => ⟨h.links, h.mem, h.alive, h.owns.newFd.1 hr⟩,
    fun hr => ⟨h.links, h.mem, h.alive, h.owns.newFd.2 hr⟩, ⟨rfl, rfl, rfl⟩⟩

theorem close_wp (h : World s m linked blocks (fd :: fds) regs) (hw : ∀ reg ∈ regs, reg.fd ∈ fds) :
    wp (close fd) (fun _ t => World t m linked blocks fds regs ∧ Same s t) s :=
  ⟨⟨h.links, h.mem, h.alive, h.owns.close (h.owns.unwatched hw)⟩, ⟨rfl, rfl, rfl⟩⟩

theorem aloeCalloc_wp (hb : Holds s.blocks blocks) (ho : Owns s.host fds regs) :
    wp aloeCalloc (fun r t => Owns t.host fds regs ∧ t.links = s.links ∧ Same s t ∧ (r = none → Holds t.blocks blocks) ∧
      ∀ p, r = some p → p ∉ blocks ∧ Holds t.blocks (p :: blocks)) s := by
  have hask : wp ask (fun _ t => Owns t.host fds regs ∧ Holds t.blocks blocks ∧ t.links = s.links ∧ Same s t) s :=
    ⟨ho.ask, hb, rfl, ⟨rfl, rfl, rfl⟩⟩
  refine hask.bind fun r t ht => wp_read.2 ?_
  obtain ⟨ho, hb, hlinks, hsame⟩ := ht
  split
  · exact ⟨ho, hlinks, hsame, fun _ => hb, nofun⟩
  · split
    · exact ⟨ho, hlinks, hsame, fun _ => hb, nofun⟩
    · next hnew =>
      refine ⟨ho, hlinks, ⟨hsame.clients, hsame.server, hsame.ctx⟩, nofun, fun p hp => ?_⟩
      obtain rfl := Option.some.inj hp
      exact ⟨fun hm => hnew (hb.mem_iff.2 hm), hb.take hnew⟩

/-- A registration, or none. -/
theorem watch_cases (ho : Owns s.host fds regs) (hfd : fd ∈ fds) (wait : Wait) :
    wp (onHost (watch fd wait)) (fun ev t => (∃ host, t = { s with host := host }) ∧ Owns t.host fds (ev.toList ++ regs) ∧
      ∀ reg ∈ ev, reg.fd = fd ∧ reg.how = wait) s := by
  change (∃ host, { s with host := (watch fd wait s.host).2 } = { s with host := host }) ∧
    Owns (watch fd wait s.host).2 fds ((watch fd wait s.host).1.toList ++ regs) ∧
      ∀ reg ∈ (watch fd wait s.host).1, reg.fd = fd ∧ reg.how = wait
  refine ⟨⟨_, rfl⟩, ?_⟩
  rcases ho.watch hfd wait with ⟨hev, hg⟩ | ⟨n, hev, hg⟩
  · rw [hev]
    exact ⟨hg, fun _ hreg => nomatch hreg⟩
  · rw [hev]
    refine ⟨hg, fun reg hreg => ?_⟩
    obtain rfl := Option.some.inj hreg
    exact ⟨rfl, rfl⟩

theorem clientAddRead_wp (h : World s m linked blocks fds regs) (hc : c ∈ blocks) (hfd : fdOf s c ∈ fds) :
    wp (clientAddRead c) (fun ok t => ∃ ev, ok = ev.isSome ∧ Changed s t c { s.clients c with evconn.ev := ev } ∧
      World t m linked blocks fds (ev.toList ++ regs) ∧ ∀ reg ∈ ev, reg.fd = fdOf s c ∧ reg.how = ⟨.client, c⟩) s := by
  refine wp_read.2 ((watch_cases h.owns hfd ⟨.client, c⟩).bind fun ev t ht => ?_)
  obtain ⟨⟨host, rfl⟩, ho, hreg⟩ := ht
  have hw : World { s with host := host } m linked blocks fds (ev.toList ++ regs) := ⟨h.links, h.mem, h.alive, ho⟩
  exact (modifyClient_wp hw hc _).bind fun _ u hu => ⟨ev, rfl, ⟨hu.2.clients, hu.2.server, hu.2.ctx⟩, hu.1, hreg⟩

/-- Everything of the server and its clients is registered. -/
structure Open (s : St) (m : Nat) (ids : List Nat) (lost : List Int) : Prop where
  serves : Serves s m ids lost
  fd : 0 ≤ s.server.fd
  listening : s.server.ev ≠ none
  reading : ∀ c ∈ ids, (s.clients c).evconn.ev ≠ none

theorem Open.same (h : Open s m ids lost) (hsame : Same s t)
    (hw : World t m ids ids (openFds s ids lost) (openRegs s ids)) : Open t m ids lost where
  serves := h.serves.same hsame hw
  fd := by
    rw [hsame.server]
    exact h.fd
  listening := by
    rw [hsame.server]
    exact h.listening
  reading := by
    rw [hsame.clients]
    exact h.reading

/-- The server is as before, but not its clients. -/
theorem Open.next (h : Open s m ids lost) {ids' : List Nat} {lost' : List Int} (hs : Serves t m ids' lost')
    (hserver : t.server = s.server)
    (hr : ∀ c ∈ ids', (t.clients c).evconn.ev ≠ none) : Open t m ids' lost' :=
    ⟨hs, hserver ▸ h.fd, hserver ▸ h.listening, hr⟩

/-- A record with a descriptor joins the queue. -/
theorem Serves.join (h : Serves s m ids lost) (hc : c ∉ ids) (hch : Changed s t c ⟨⟨fd, none⟩, some m⟩)
    (hw : World t m (ids ++ [c]) (c :: ids) (fd :: openFds s ids lost) (openRegs s ids)) : Serves t m (ids ++ [c]) lost := by
  have hclient : t.clients c = ⟨⟨fd, none⟩, some m⟩ := by rw [hch.clients, Function.update_self]
  have hold : ∀ x ∈ ids, t.clients x = s.clients x := by
    intro x hx
    rw [hch.clients, Function.update_of_ne]
    rintro rfl
    exact hc hx
  have hfd : ∀ x ∈ ids, fdOf t x = fdOf s x := fun x hx => by rw [fdOf, fdOf, hold x hx]
  have hreg : ∀ x ∈ ids, regsOf t x = regsOf s x := fun x hx => by rw [regsOf, regsOf, hold x hx]
  have hfds : (fd :: openFds s ids lost).Perm (openFds t (ids ++ [c]) lost) := by
    refine .trans ?_ (openFds_perm t ids [] lost).symm
    rw [List.append_nil, fdOf, hclient]
    unfold openFds
    rw [hch.server, List.map_congr_left hfd]
  have hregs : openRegs s ids = openRegs t (ids ++ [c]) := by
    unfold openRegs
    rw [hch.server, List.flatMap_append, List.flatMap_congr hreg, List.flatMap_singleton, regsOf, hclient]
    exact congrArg (s.server.ev.toList ++ ·) (List.append_nil _).symm
  constructor
  case world =>
    have hworld : World t m (ids ++ [c]) (ids ++ [c]) (fd :: openFds s ids lost) (openRegs s ids) :=
      ⟨hw.links, hw.mem.perm ((List.perm_append_singleton c ids).symm.cons m), fun x hx => hx, hw.owns⟩
    exact hworld.perm hfds (.of_eq hregs)
  case accepts =>
    rw [hch.server]
    exact h.accepts
  case mine =>
    intro x hx
    rcases List.mem_append.1 hx with hx | hx
    · rw [hold x hx]
      exact h.mine x hx
    · rw [List.mem_singleton.1 hx, hclient]
  case reads =>
    intro x hx reg hr
    rcases List.mem_append.1 hx with hx | hx
    · rw [hreg x hx] at hr
      rw [hfd x hx]
      exact h.reads x hx reg hr
    · rw [List.mem_singleton.1 hx, regsOf, hclient] at hr
      exact absurd hr List.not_mem_nil
  case zero => exact h.zero

/-- Its registration. -/
theorem Serves.arm (h : Serves s m (ids ++ [c]) lost) (hc : c ∉ ids) (hnone : (s.clients c).evconn.ev = none)
    (hch : Changed s t c { s.clients c with evconn.ev := some reg }) (hreg : reg.fd = fdOf s c ∧ reg.how = ⟨.client, c⟩)
    (hw : World t m (ids ++ [c]) (ids ++ [c]) (openFds s (ids ++ [c]) lost) (reg :: openRegs s (ids ++ [c]))) :
    Serves t m (ids ++ [c]) lost := by
  have hclient : t.clients c = { s.clients c with evconn.ev := some reg } := by rw [hch.clients, Function.update_self]
  have hold : ∀ x ∈ ids, t.clients x = s.clients x := by
    intro x hx
    rw [hch.clients, Function.update_of_ne]
    rintro rfl
    exact hc hx
  have hfd : fdOf t = fdOf s := by
    funext x
    by_cases hx : x = c
    · rw [hx, fdOf, hclient]
      rfl
    · rw [fdOf, fdOf, hch.clients, Function.update_of_ne hx]
  have hregs : (reg :: openRegs s (ids ++ [c])).Perm (openRegs t (ids ++ [c])) := by
    have hs : regsOf s c = [] := by rw [regsOf, hnone]; rfl
    have ht : regsOf t c = [reg] := by rw [regsOf, hclient]; rfl
    have hsame : ∀ x ∈ ids, regsOf t x = regsOf s x := fun x hx => by rw [regsOf, regsOf, hold x hx]
    unfold openRegs
    rw [hch.server, List.flatMap_append, List.flatMap_append, List.flatMap_singleton, List.flatMap_singleton,
      hs, ht, List.flatMap_congr hsame,
      List.append_nil, ← List.append_assoc]
    exact (List.perm_append_singleton reg _).symm
  constructor
  case world =>
    rw [openFds, hfd, hch.server]
    exact hw.perm (.refl _) hregs
  case accepts =>
    rw [hch.server]
    exact h.accepts
  case mine =>
    intro x hx
    rw [hch.clients]
    by_cases hxc : x = c
    · rw [hxc, Function.update_self]
      exact h.mine c (by simp)
    · rw [Function.update_of_ne hxc]
      exact h.mine x hx
  case reads =>
    intro x hx r hr
    rw [hfd]
    rcases List.mem_append.1 hx with hx' | hx'
    · rw [regsOf, hold x hx'] at hr
      exact h.reads x hx r hr
    · obtain rfl := List.mem_singleton.1 hx'
      rw [regsOf, hclient] at hr
      obtain rfl := List.mem_singleton.1 hr
      exact hreg
  case zero => exact h.zero

theorem mgmt1Accepted_wp (h : Open s m ids lost) (hsame : Same s t) (hc : c ∉ ids)
    (hw : World t m ids (c :: ids) (fd :: openFds s ids lost) (openRegs s ids)) :
    wp (mgmt1Accepted m fd c) (fun _ u => ∃ ids' lost', Open u m ids' lost' ∧ u.ctx = s.ctx) t := by
  refine (access_wp hw List.mem_cons_self).bind fun _ u hu => (modifyClient_wp hu.1 List.mem_cons_self _).bind fun _ v hv =>
    (mgmt1ClientAdd_wp hv.1 List.mem_cons_self hc).bind fun _ w hw' => ?_
  have hall := hsame.trans hu.2
  have hch : Changed s w c ⟨⟨fd, none⟩, some m⟩ := by
    refine ⟨?_, (hw'.2.server.trans hv.2.server).trans hall.server, (hw'.2.ctx.trans hv.2.ctx).trans hall.ctx⟩
    rw [hw'.2.clients, hv.2.clients, hall.clients]
  have hjoin := h.serves.join hc hch hw'.1
  have hclient : w.clients c = ⟨⟨fd, none⟩, some m⟩ := by rw [hch.clients, Function.update_self]
  have hmem : c ∈ ids ++ [c] := by simp
  have hown : fdOf w c ∈ openFds w (ids ++ [c]) lost :=
    List.mem_cons_of_mem _ (List.mem_append_left _ (List.mem_map_of_mem hmem))
  refine (clientAddRead_wp hjoin.world hmem hown).bind fun ok x hx => ?_
  obtain ⟨ev, rfl, hxc, hxw, hreg⟩ := hx
  have hold : ∀ y ∈ ids, x.clients y = s.clients y := by
    intro y hy
    have hne : y ≠ c := fun heq => hc (heq ▸ hy)
    rw [hxc.clients, Function.update_of_ne hne, hch.clients, Function.update_of_ne hne]
  have hserver := hxc.server.trans hch.server
  have hctx := hxc.ctx.trans hch.ctx
  cases ev with
  | some reg =>
    have harm := hjoin.arm hc (by rw [hclient]) hxc (hreg reg rfl) hxw
    change ∃ ids' lost', Open x m ids' lost' ∧ x.ctx = s.ctx
    refine ⟨ids ++ [c], lost, h.next harm hserver fun y hy => ?_, hctx⟩
    rcases List.mem_append.1 hy with hy | hy
    · rw [hold y hy]
      exact h.reading y hy
    · rw [List.mem_singleton.1 hy, hxc.clients, Function.update_self]
      exact Option.some_ne_none reg
  | none =>
    -- the client is given up again
    have hback : x.clients = w.clients := by
      rw [hxc.clients, hclient]
      exact (congrArg (Function.update w.clients c) hclient.symm).trans (Function.update_eq_self ..)
    have hserves := hjoin.same ⟨hback, hxc.server, hxc.ctx⟩ hxw
    refine (mgmt1ClientRelease_wp hserves).mono fun _ y hy => ?_
    have hgone := hy.1
    rw [List.append_nil] at hgone
    refine ⟨ids, kept (fdOf x c) ++ lost, h.next hgone (hy.2.server.trans hserver) fun z hz => ?_, hy.2.ctx.trans hctx⟩
    rw [hy.2.other fun heq => hc (heq ▸ hz), hold z hz]
    exact h.reading z hz

theorem mgmt1AcceptCb_wp (h : Open s m ids lost) :
    wp (mgmt1AcceptCb m) (fun _ t => ∃ ids' lost', Open t m ids' lost' ∧ t.ctx = s.ctx) s := by
  refine (newFd_wp h.serves.world).bind fun fd t ht => ?_
  obtain ⟨hneg, hpos, hsame⟩ := ht
  split
  · next hfd => exact ⟨ids, lost, h.same hsame (hneg hfd), hsame.ctx⟩
  · next hfd =>
    have hclose : ∀ u, World u m ids ids (fd :: openFds s ids lost) (openRegs s ids) → Same s u →
        wp (close fd) (fun _ v => ∃ ids' lost', Open v m ids' lost' ∧ v.ctx = s.ctx) u := fun u hu hs =>
      (close_wp hu h.serves.world.owns.watched).mono
        fun _ v hv => ⟨ids, lost, h.same (hs.trans hv.2) hv.1, hv.2.ctx.trans hs.ctx⟩
    refine (ask_wp (hpos hfd)).bind fun _ u hu => (ask_wp hu.1).bind fun r v hv => ?_
    have hsame := hsame.trans (hu.2.trans hv.2)
    split
    · exact hclose v hv.1 hsame
    · refine (ask_wp hv.1).bind fun r w hw => ?_
      have hsame := hsame.trans hw.2
      split
      · exact hclose w hw.1 hsame
      · refine (aloeCalloc_wp hw.1.mem hw.1.owns).bind fun client x hx => ?_
        obtain ⟨ho, hlinks, hsame', hnone, hsome⟩ := hx
        have hsame := hsame.trans hsame'
        have hl : Reps x.links fun _ => ids := hlinks ▸ hw.1.links
        cases client with
        | none => exact hclose x ⟨hl, hnone rfl, fun y hy => hy, ho⟩ hsame
        | some c =>
          obtain ⟨hnew, hb⟩ := hsome c rfl
          have hc : c ∉ ids := fun hc => hnew (List.mem_cons_of_mem m hc)
          exact mgmt1Accepted_wp h hsame hc ⟨hl, hb.perm (.swap ..), fun y hy => List.mem_cons_of_mem c hy, ho⟩

theorem mgmt1ClientCb_wp (h : Open s m ids lost) (hc : c ∈ ids) (ev : UInt32) :
    wp (mgmt1ClientCb ev c) (fun _ t => ∃ ids' lost', Open t m ids' lost' ∧ t.ctx = s.ctx) s := by
  unfold mgmt1ClientCb
  split
  · exact ⟨ids, lost, h, rfl⟩
  · refine (ask_wp h.serves.world).bind fun r t ht => ?_
    have hsame := ht.2
    have ht := h.same hsame ht.1
    have hrelease : wp (mgmt1ClientRelease c) (fun _ u => ∃ ids' lost', Open u m ids' lost' ∧ u.ctx = s.ctx) t := by
      obtain ⟨a, b, rfl⟩ := List.append_of_mem hc
      have hn := ht.serves.world.links.nodup ()
      rw [List.nodup_middle] at hn
      refine (mgmt1ClientRelease_wp ht.serves).mono
        fun _ u hu => ⟨a ++ b, _, ht.next hu.1 hu.2.server fun x hx => ?_, hu.2.ctx.trans hsame.ctx⟩
      have hne : x ≠ c := fun heq => (List.nodup_cons.1 hn).1 (heq ▸ hx)
      rw [hu.2.other hne]
      exact ht.reading x (((List.sublist_cons_self c b).append_left a).subset hx)
    split
    · exact hrelease
    · split
      · exact hrelease
      · exact ⟨ids, lost, ht, hsame.ctx⟩

/-! ## The server -/

/-- There is no server. -/
structure Bare (s : St) (lost : List Int) : Prop where
  mem : Holds s.blocks []
  owns : Owns s.host lost []
  zero : ∀ fd ∈ lost, fd = 0

theorem serverCancel_wp (h : World s m linked blocks fds s.server.ev.toList) :
    wp (serverCancel m) (fun _ t => World t m linked blocks fds [] ∧ t.server.fd = s.server.fd) s := by
  refine (access_wp h List.mem_cons_self).bind fun _ t ht => wp_read.2 ?_
  obtain ⟨ht, hsame⟩ := ht
  have hfd : t.server.fd = s.server.fd := by rw [hsame.server]
  rw [hsame.server]
  cases hev : s.server.ev with
  | none =>
    rw [hev] at ht
    exact ⟨ht, hfd⟩
  | some reg =>
    rw [hev] at ht
    exact ⟨⟨ht.links, ht.mem, ht.alive, ht.owns.unwatch⟩, hfd⟩

/-- The descriptor of the server, if it has one. -/
def ownFd (s : St) : List Int := if s.server.fd ≠ -1 then [s.server.fd] else []

theorem serverClose_wp (h : World s m [] [] (ownFd s ++ lost) s.server.ev.toList) (hz : ∀ fd ∈ lost, fd = 0) :
    wp (serverClose m) (fun _ t => Bare t lost) s := by
  refine (serverCancel_wp h).bind fun _ t ht => wp_read.2 ?_
  obtain ⟨ht, hfd⟩ := ht
  rw [ownFd, ← hfd] at ht
  split
  · next hopen =>
    rw [if_pos hopen] at ht
    exact ⟨ht.mem.give, ht.owns.close (fun _ hreg => absurd hreg List.not_mem_nil), hz⟩
  · next hno =>
    rw [if_neg hno] at ht
    exact ⟨ht.mem.give, ht.owns, hz⟩

theorem mgmt1Destroy_wp (h : Open s m ids lost) : wp (mgmt1Destroy m) (fun _ t => ∃ lost', Bare t lost') s := by
  have hfuel : ids.length < s.blocks.held.length + 1 := by
    have hlen := h.serves.world.mem.held.length_eq
    rw [List.length_cons] at hlen
    omega
  refine wp_read.2 ((destroyLoop_wp _ h.serves hfuel).bind fun _ t ht => ?_)
  obtain ⟨lost', hs, hserver⟩ := ht
  have hw := hs.world
  rw [openFds, openRegs, List.map_nil, List.nil_append, List.flatMap_nil, List.append_nil] at hw
  have hown : ownFd t = [t.server.fd] := by
    have hfd := h.fd
    rw [← hserver] at hfd
    exact if_pos (by omega)
  rw [← List.singleton_append, ← hown] at hw
  exact (serverClose_wp hw hs.zero).mono fun _ u hu => ⟨lost', hu⟩

theorem socketSteps_wp (n : Nat) (h : World s m linked blocks fds regs) :
    wp (socketSteps n) (fun _ t => World t m linked blocks fds regs ∧ Same s t) s := by
  induction n generalizing s with
  | zero => exact ⟨h, Same.refl s⟩
  | succ n ih =>
    refine (ask_wp h).bind fun r t ht => ?_
    split
    · exact ht
    · exact (ih ht.1).mono fun _ u hu => ⟨hu.1, ht.2.trans hu.2⟩

theorem serverAddRead_wp (h : World s m linked blocks fds regs) (hfd : s.server.fd ∈ fds) :
    wp (serverAddRead m) (fun ok t => ∃ ev, ok = ev.isSome ∧ t.server = ⟨s.server.fd, ev⟩ ∧
      World t m linked blocks fds (ev.toList ++ regs) ∧
      ∀ reg ∈ ev, reg.fd = s.server.fd ∧ reg.how = ⟨.accept, m⟩) s := by
  refine (access_wp h List.mem_cons_self).bind fun _ t ht => wp_read.2 ?_
  obtain ⟨ht, hsame⟩ := ht
  rw [← hsame.server] at hfd ⊢
  refine (watch_cases ht.owns hfd ⟨.accept, m⟩).bind fun ev u hu => ?_
  obtain ⟨⟨host, rfl⟩, ho, hreg⟩ := hu
  exact ⟨ev, rfl, rfl, ⟨ht.links, ht.mem, ht.alive, ho⟩, hreg⟩

theorem reps_init (links : Heap Unit Nat) : Reps (tailqInit links ()) fun _ => [] where
  queue q := Queue.init_self links q
  nodup _ := List.nodup_nil
  apart _ _ _ _ h := absurd h List.not_mem_nil

theorem mgmt1Open_wp (hb : Holds s.blocks [m]) (ho : Owns s.host lost []) (hz : ∀ fd ∈ lost, fd = 0) :
    wp (mgmt1Open m) (fun r t => (r = none ∧ Bare t lost) ∨ (r = some m ∧ Open t m [] lost)) s := by
  have hinit : World { s with blocks := s.blocks.use m, links := tailqInit s.links (), server := ⟨-1, none⟩ }
      m [] [] lost [] :=
    ⟨reps_init s.links, hb.use List.mem_cons_self, fun _ h => absurd h List.not_mem_nil, ho⟩
  refine wp.update (wp.update ((newFd_wp hinit).bind fun fd t ht => ?_))
  obtain ⟨hneg, hpos, hsame⟩ := ht
  have hgive : ∀ u, World u m [] [] (ownFd u ++ lost) [] → u.server.ev = none →
      wp (do serverClose m; return none) (fun r t => (r = none ∧ Bare t lost) ∨ (r = some m ∧ Open t m [] lost)) u := by
    intro u hu hev
    have hw : World u m [] [] (ownFd u ++ lost) u.server.ev.toList := by rwa [hev]
    exact (serverClose_wp hw hz).bind fun _ v hv => .inl ⟨rfl, hv⟩
  split
  · next hfd =>
    have hown : ownFd t = [] := by rw [ownFd, hsame.server]; rfl
    refine hgive t ?_ (congrArg Evconn.ev hsame.server)
    rw [hown]
    exact hneg hfd
  · next hfd =>
    have hw := (hpos hfd).records t.clients { t.server with fd := fd }
    refine wp.update ((socketSteps_wp 4 hw).bind fun ok u hu => ?_)
    have hserver : u.server = ⟨fd, none⟩ := by rw [hu.2.server, hsame.server]
    have hne : fd ≠ -1 := by omega
    have hown : ownFd u = [fd] := by
      rw [ownFd, hserver]
      exact if_pos hne
    split
    · refine hgive u ?_ (by rw [hserver])
      rw [hown]
      exact hu.1
    · have hmem : u.server.fd ∈ fd :: lost := by
        rw [hserver]
        exact List.mem_cons_self
      refine (serverAddRead_wp hu.1 hmem).bind fun ok v hv => ?_
      obtain ⟨ev, rfl, hvs, hvw, hreg⟩ := hv
      rw [hserver] at hvs hreg
      cases ev with
      | none =>
        have hown : ownFd v = [fd] := by
          rw [ownFd, hvs]
          exact if_pos hne
        refine hgive v ?_ (by rw [hvs])
        rw [hown]
        exact hvw
      | some reg =>
        refine .inr ⟨rfl, ⟨?_, ?_, nofun, nofun, hz⟩, ?_, ?_, nofun⟩
        · change World v m [] [] (openFds v [] lost) (openRegs v [])
          rw [openFds, openRegs, hvs]
          exact hvw
        · change ∀ r ∈ v.server.ev, r.fd = v.server.fd ∧ r.how = ⟨.accept, m⟩
          rw [hvs]
          exact hreg
        · change 0 ≤ v.server.fd
          rw [hvs]
          exact Int.not_lt.1 hfd
        · change v.server.ev ≠ none
          rw [hvs]
          exact Option.some_ne_none reg

/-! ## Runs -/

inductive Inv (s : St) : Prop where
  | idle (lost : List Int) (hctx : s.ctx = none) (hb : Bare s lost)
  | serving (m : Nat) (ids : List Nat) (lost : List Int) (hctx : s.ctx = some m) (ho : Open s m ids lost)

/-- What may be called, with its argument. -/
theorem Open.ready (h : Open s m ids lost) (hreg : reg ∈ s.host.regs.held) :
    reg.how = ⟨.accept, m⟩ ∨ ∃ c ∈ ids, reg.how = ⟨.client, c⟩ := by
  have hmem := h.serves.world.owns.standing.mem_iff.1 hreg
  rcases List.mem_append.1 hmem with hmem | hmem
  · exact .inl (h.serves.accepts reg (Option.mem_toList.1 hmem)).2
  · obtain ⟨c, hc, hmem⟩ := List.mem_flatMap.1 hmem
    exact .inr ⟨c, hc, (h.serves.reads c hc reg hmem).2⟩

theorem doInit_wp (hb : Bare s lost) (path : List UInt8) : wp (doInit path) (fun _ t => Inv t) s := by
  have hend : wp (mgmt1Init path) (fun r t => (r = none ∧ Bare t lost) ∨ ∃ m, r = some m ∧ Open t m [] lost) s := by
    unfold mgmt1Init
    split
    · exact .inl ⟨rfl, hb⟩
    · refine (aloeCalloc_wp hb.mem hb.owns).bind fun r t ht => ?_
      obtain ⟨ho, -, -, hnone, hsome⟩ := ht
      cases r with
      | none => exact .inl ⟨rfl, hnone rfl, ho, hb.zero⟩
      | some m =>
        refine (mgmt1Open_wp (hsome m rfl).2 ho hb.zero).mono fun r u hu => ?_
        rcases hu with hu | hu
        · exact .inl hu
        · exact .inr ⟨m, hu⟩
  refine hend.bind fun r t ht => ?_
  rcases ht with ⟨rfl, ht⟩ | ⟨m, rfl, ht⟩
  · exact .idle lost rfl ⟨ht.mem, ht.owns, ht.zero⟩
  · have hw := ht.serves.world
    exact .serving m [] lost rfl ⟨⟨⟨hw.links, hw.mem, hw.alive, hw.owns⟩, ht.serves.accepts, nofun, nofun,
      ht.serves.zero⟩, ht.fd, ht.listening, nofun⟩

theorem doDestroy_wp (h : Open s m ids lost) : wp (doDestroy m) (fun _ t => Inv t) s := by
  refine (mgmt1Destroy_wp h).bind fun _ t ht => ?_
  obtain ⟨lost', ht⟩ := ht
  exact .idle lost' rfl ⟨ht.mem, ht.owns, ht.zero⟩

theorem Open.answer (h : Open s m ids lost) (answers : List Int) :
    Open { s with host := { s.host with answers := answers } } m ids lost :=
  have hw := h.serves.world
  ⟨⟨⟨hw.links, hw.mem, hw.alive, hw.owns.answer answers⟩, h.serves.accepts, h.serves.mine, h.serves.reads,
    h.serves.zero⟩, h.fd, h.listening, h.reading⟩

theorem step_inv {e : Event × List Int} (h : Inv s) (hs : step s e = some t) : Inv t := by
  obtain ⟨event, answers⟩ := e
  cases h with
  | idle lost hctx hb =>
    have hb' : Bare { s with host := { s.host with answers := answers } } lost := ⟨hb.mem, hb.owns.answer answers, hb.zero⟩
    cases event with
    | init path =>
      obtain rfl := Option.some.inj ((if_pos hctx).symm.trans hs)
      exact doInit_wp hb' path
    | destroy =>
      obtain ⟨m, hm, -⟩ := Option.map_eq_some_iff.1 hs
      rw [hctx] at hm
      cases hm
    | ready reg ev =>
      -- nothing is registered
      have hno : reg ∉ s.host.regs.held := fun hreg => absurd (hb.owns.standing.mem_iff.1 hreg) List.not_mem_nil
      cases (if_neg hno).symm.trans hs
  | serving m ids lost hctx ho =>
    have ho' := ho.answer answers
    cases event with
    | init path =>
      have hno : s.ctx ≠ none := by
        rw [hctx]
        exact Option.some_ne_none m
      cases (if_neg hno).symm.trans hs
    | destroy =>
      obtain ⟨m', hm, rfl⟩ := Option.map_eq_some_iff.1 hs
      obtain rfl := Option.some.inj (hctx.symm.trans hm)
      exact doDestroy_wp ho'
    | ready reg ev =>
      by_cases hreg : reg ∈ s.host.regs.held
      · obtain rfl := Option.some.inj ((if_pos hreg).symm.trans hs)
        have hcb : wp (callback reg.how ev) (fun _ t => ∃ ids' lost', Open t m ids' lost' ∧ t.ctx = s.ctx)
            { s with host := { s.host with answers := answers } } := by
          rcases ho'.ready hreg with hhow | ⟨c, hc, hhow⟩
          · rw [hhow]
            exact mgmt1AcceptCb_wp ho'
          · rw [hhow]
            exact mgmt1ClientCb_wp ho' hc ev
        obtain ⟨ids', lost', ho'', hctx'⟩ := hcb
        exact .serving m ids' lost' (hctx'.trans hctx) ho''
      · cases (if_neg hreg).symm.trans hs

theorem boot_inv (links : Heap Unit Nat) (clients : Nat → Client) : Inv (boot links clients) :=
  .idle [] rfl ⟨holds_empty, owns_empty, fun _ h => absurd h List.not_mem_nil⟩

/-- **After every run of starts, stops and callbacks, whatever the kernel
answers: a server has its record and those of its clients, which are the
queue, one descriptor each and one registration each, for that descriptor and
with that record as its argument. Without a server there is nothing. No record
was used after it was freed, and nothing was freed or closed twice, or closed
while it was registered. Only descriptor 0 stays open when it was a
client's.** -/
theorem run_mgmt (links : Heap Unit Nat) (clients : Nat → Client) (turns : List (Event × List Int)) (s : St)
    (hr : run step turns (boot links clients) = some s) :
    ∃ lost : List Int, (lost = [] ∨ lost = [0]) ∧ (s.ctx = none → Holds s.blocks [] ∧ Owns s.host lost []) ∧
      ∀ m, s.ctx = some m → ∃ (ids : List Nat) (n : Nat) (handle : Nat → Nat), Reps s.links (fun _ => ids) ∧
      Holds s.blocks (m :: ids) ∧
        Owns s.host (s.server.fd :: (ids.map (fdOf s) ++ lost))
          (⟨n, s.server.fd, ⟨.accept, m⟩⟩ :: ids.map fun c => ⟨handle c, fdOf s c, ⟨.client, c⟩⟩) := by
  have h : Inv s := run_inv (I := Inv) (boot_inv links clients) (fun _ _ _ h hs => step_inv h hs) hr
  have hzero : ∀ lost : List Int, lost.Nodup → (∀ fd ∈ lost, fd = 0) → lost = [] ∨ lost = [0] := by
    intro lost hn hz
    rcases List.eq_replicate_iff.2 ⟨rfl, hz⟩ with hrep
    rw [hrep, List.nodup_replicate] at hn
    rw [hrep]
    match hl : lost.length, hn with
    | 0, _ => exact .inl rfl
    | 1, _ => exact .inr rfl
  cases h with
  | idle lost hctx hb =>
    refine ⟨lost, hzero lost hb.owns.opened.nodup hb.zero, fun _ => ⟨hb.mem, hb.owns⟩, fun m hm => ?_⟩
    rw [hctx] at hm
    cases hm
  | serving m ids lost hctx ho =>
    have hw := ho.serves.world
    have hn : lost.Nodup := ((List.nodup_cons.1 hw.owns.opened.nodup).2.sublist (List.sublist_append_right _ lost))
    refine ⟨lost, hzero lost hn ho.serves.zero, fun hnone => ?_, fun m' hm => ?_⟩
    · rw [hctx] at hnone
      cases hnone
    · rw [hctx] at hm
      obtain rfl := Option.some.inj hm
      obtain ⟨reg, hev⟩ := Option.ne_none_iff_exists'.1 ho.listening
      obtain ⟨hfd, hhow⟩ := ho.serves.accepts reg hev
      refine ⟨ids, reg.handle, fun c => ((regsOf s c).map Reg.handle).headD 0, hw.links, hw.mem, ?_⟩
      have hregs : openRegs s ids = ⟨reg.handle, s.server.fd, ⟨.accept, m⟩⟩ ::
          ids.map fun c => ⟨((regsOf s c).map Reg.handle).headD 0, fdOf s c, ⟨.client, c⟩⟩ := by
        rw [openRegs, hev, Option.toList_some, List.singleton_append, ← hfd, ← hhow, List.map_eq_flatMap]
        refine congrArg _ (List.flatMap_congr fun c hc => ?_)
        obtain ⟨r, hr⟩ := Option.ne_none_iff_exists'.1 (ho.reading c hc)
        have hlist : regsOf s c = [r] := by rw [regsOf, hr]; rfl
        obtain ⟨hrfd, hrhow⟩ := ho.serves.reads c hc r (by rw [hlist]; exact List.mem_cons_self)
        rw [hlist, ← hrfd, ← hrhow]
        rfl
      rw [← hregs]
      exact hw.owns

/-- A server, a client with descriptor 0 that goes away, and the end of the server. -/
theorem run_mgmt_lost : ∃ s lost, run step [(.init [47], [100, 5, 0, 0, 0, 0, 0]),
    (.ready ⟨0, 5, ⟨.accept, 100⟩⟩ flagRead, [0, 0, 0, 0, 200, 0]),
    (.ready ⟨1, 0, ⟨.client, 200⟩⟩ flagRead, [0]), (.destroy, [])]
      (boot ⟨fun _ => none, fun _ => .first (), fun _ => none, fun _ => .first ()⟩ fun _ => ⟨⟨0, none⟩, none⟩) = some s ∧
    Owns s.host lost [] ∧ 0 ∈ lost := by
  have hend : (run step [(.init [47], [100, 5, 0, 0, 0, 0, 0]),
    (.ready ⟨0, 5, ⟨.accept, 100⟩⟩ flagRead, [0, 0, 0, 0, 200, 0]),
      (.ready ⟨1, 0, ⟨.client, 200⟩⟩ flagRead, [0]), (.destroy, [])]
      (boot ⟨fun _ => none, fun _ => .first (), fun _ => none, fun _ => .first ()⟩ fun _ => ⟨⟨0, none⟩, none⟩)).map
        (fun s => (s.ctx, s.host.fds.held)) = some (none, [0]) := by decide +kernel
  obtain ⟨s, hr, hs⟩ := Option.map_eq_some_iff.1 hend
  obtain ⟨hctx, hopen⟩ := Prod.mk.inj hs
  obtain ⟨lost, -, hnone, -⟩ := run_mgmt _ _ _ s hr
  refine ⟨s, lost, hr, (hnone hctx).2, (hnone hctx).2.opened.mem_iff.1 ?_⟩
  rw [hopen]
  exact List.mem_cons_self

end AlgaeBp.Mgmt
