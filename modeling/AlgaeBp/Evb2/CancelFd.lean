import AlgaeBp.Evb2.Calls
import Mathlib.Data.Finset.Card
import Mathlib.Data.Finset.Range
/-!
# Cancelling by descriptor

`aloe_evb2_cancel_fd` walks three lists and cancels the handles it finds. What
it cannot find is a handle whose callback is running: that one is on no list.
-/
open Reentrant

namespace AlgaeBp.Evb2

/-- The handles registered on a descriptor. -/
def St.onFd (s : St) (fd : Int) : Finset Nat :=
  (Finset.range s.next).filter fun h => registered s.log h = true ∧ (s.heap h).any (·.fd = fd) = true

/-- No handle on the list is for `fd`. -/
def Clean (s : St) (fd : Int) (l : ListId) : Prop :=
  ∀ h ∈ s.lists l, ∀ hd, s.heap h = some hd → hd.fd ≠ fd

section CancelFd
variable {m : Mode} {b : Call} {x : Ptr} {s s' : St} {fd : Int} {l : ListId}

theorem after_append {pre suf : List Ptr} (h : x ∉ pre) : after x (pre ++ x :: suf) = suf.head? := by
  induction pre with
  | nil => simp [after]
  | cons a pre ih =>
    simp only [List.mem_cons, not_or] at h
    simp only [List.cons_append, after, Ne.symm h.1, if_false]
    exact ih h.2

/-- A handle on one of the walked lists, on a descriptor that is not the wake pipe's. -/
theorem Core.registered_on (hc : Core m s) {hd : Handle} (hl : x ∈ s.lists l) (hh : s.heap x = some hd)
    (hfd : hd.fd ≠ s.asyncPipe0) : Evb2.registered s.log x = true := by
  obtain ⟨-, hok⟩ := hc.ok x
  have hv : (s.view x).hd = some hd := hh
  have hon : (s.view x).on l := hl
  rw [hv] at hok
  rcases hok with h | h
  · exact absurd (hc.wakeFd hd (h.name ▸ hh)) hfd
  have hnn : ¬ (s.view x).noti := fun hn => (hc.point.sane x).noti hn l hon
  have hrel := h.not_released hnn (h.linked hon)
  simp only [Evb2.registered, valid, Bool.and_eq_true, Bool.not_eq_true']
  exact ⟨⟨h.added, hrel⟩, h.dropped⟩

/-- What is left registered on a descriptor once its lists are clean. -/
theorem Core.clean_onFd (hc : Core m s) (hfd : 0 ≤ fd) (h1 : Clean s fd .fdmon) (h2 : Clean s fd .ready) {h : Nat}
    (hh : h ∈ s.onFd fd) : s.notifying = some h := by
  simp only [St.onFd, Finset.mem_filter, Option.any_eq_true, decide_eq_true_eq] at hh
  obtain ⟨-, hr, hd', hhd', hfd'⟩ := hh
  obtain ⟨hd, hhd, hok, hrel, -⟩ := hc.registered hr
  rw [hhd] at hhd'
  cases hhd'
  by_contra hn
  have hcan := hok.not_notified hrel
  have hbusy : ¬ (s.view h).Busy := by
    rintro (h3 | h3 | h3 | h3)
    · exact h2 h h3 _ hhd hfd'
    · have := (hok.async h3).1
      rw [hfd'] at this
      rw [this] at hfd
      exact absurd hfd (by decide)
    · exact hn h3
    · simp [hcan] at h3
  exact h1 h (hok.fdmon.2 ⟨hfd'.symm ▸ hfd, hbusy⟩) _ hhd hfd'

/-- What cancelling `x` does to the handles registered on its descriptor. -/
theorem Moved.onFd {k : Sync} {v : View} (h : Moved m x s k v s') (hfd : 0 ≤ fd)
    (hr : v.hist.any Event.releases = true) : s'.onFd fd = (s.onFd fd).erase x := by
  have hreg : ∀ t : St, ∀ h : Nat, (registered t.log h = true ∧ (t.heap h).any (·.fd = fd) = true) ↔
      ((t.view h).hist.any Event.isAdded = true ∧ (t.view h).hist.any Event.releases = false ∧
        (t.view h).hist.any Event.drops = false) ∧ (t.view h).hd.any (·.fd = fd) = true := by
    intro t h
    simp only [registered, valid, isAdded, released, dropped, St.view, Bool.and_eq_true, Bool.not_eq_true', and_assoc]
  ext j
  simp only [St.onFd, Finset.mem_erase, Finset.mem_filter, Finset.mem_range, hreg]
  by_cases hj : j = x
  · subst hj
    rw [h.view]
    simp [hr]
  by_cases hlt : j < s.next
  · rw [h.touch.view j hj hlt]
    have hlt' : j < s'.next := lt_of_lt_of_le hlt h.touch.next
    simp [hj, hlt, hlt']
  · refine iff_of_false (fun hh => ?_) (fun hh => hlt hh.2.1)
    obtain ⟨hlt', -, hany⟩ := hh
    obtain ⟨hd, hhd, hpt⟩ := (h.touch.fresh j hj (not_lt.1 hlt) hlt').2.hd
    rw [hhd] at hany
    simp only [Option.any_some, decide_eq_true_eq, hpt.fd] at hany
    rw [← hany] at hfd
    exact absurd hfd (by decide)

/-- A list stays clean when a handle leaves it. -/
theorem Clean.moved {k : Sync} {v : View} (hc : Clean s fd l) (h : Moved m x s k v s') (hp : Point m s)
    (hl : l ≠ .async) (hv : ¬ v.on l) : Clean s' fd l := by
  intro j hj hd hhd
  have hjx : j ≠ x := by rintro rfl; exact hv ((h.mem l).1 hj)
  rcases h.touch.cases hp hjx with he | ⟨-, -, -, hq⟩
  · have hj' : (s.view j).on l := by rw [← he]; exact hj
    have hhd' : (s.view j).hd = some hd := by rw [← he]; exact hhd
    exact hc j hj' hd hhd'
  · exact absurd ((hq.on l).1 hj) hl

theorem Moved.erase {k : Sync} {v : View} (h : Moved m x s k v s') (hp : Point m s) (hl : l ≠ .async)
    (hv : ¬ v.on l) : s'.lists l = (s.lists l).erase x := by
  have hx : x ∉ s'.lists l := fun hx => hv ((h.mem l).1 hx)
  rw [← h.touch.order hp l hl, List.erase_of_not_mem hx]

/-- Handles on `fd` have been cancelled since `s₀`. -/
structure Sweep (m : Mode) (fd : Int) (s₀ s : St) : Prop where
  user : AtUser m s
  alive : s.alive = true
  keeps : Keeps none s₀ s
  rd : s.asyncPipe0 = s₀.asyncPipe0
  noti : s.notifying = s₀.notifying
  notiView : ∀ h, s₀.notifying = some h → s.view h = s₀.view h
  sub : s.onFd fd ⊆ s₀.onFd fd
  gone : ∀ h ∈ s₀.onFd fd, h ∈ s.onFd fd ∨ released s.log h = true

theorem Sweep.refl (hu : AtUser m s) (ha : s.alive = true) : Sweep m fd s s :=
  ⟨hu, ha, .refl none s, rfl, rfl, fun _ _ => rfl, subset_rfl, fun _ h => .inl h⟩

theorem wp_cancelOne {s₀ : St} {hd : Handle} {Q : Int → St → Prop} (hs : Sweep m fd s₀ s) (hb : b.adds = false)
    (hfd : 0 ≤ fd) (hrd : fd ≠ s.asyncPipe0) (hl : l ≠ .async) (hx : x ∈ s.lists l) (hh : s.heap x = some hd)
    (hhd : hd.fd = fd)
    (hq : ∀ s', Sweep m fd s₀ s' → (s'.onFd fd).card + 1 = (s.onFd fd).card → s'.lists l = (s.lists l).erase x →
      (∀ l', l' ≠ .async → Clean s fd l' → Clean s' fd l') →
      (∀ j ∈ s'.lists l, ∀ hd, s'.heap j = some hd → s.heap j = some hd) → Q 0 s') :
    Wp m b (aloeEvb2Cancel x) Q s := by
  have hp := hs.user.point
  have hon : (s.view x).on l := hx
  have hnn : ¬ (s.view x).noti := fun hn => (hp.sane x).noti hn l hon
  have hr : registered s.log x = true := hs.user.toCore.registered_on hx hh (hhd ▸ hrd)
  refine wp_aloeEvb2Cancel hs.user hs.alive hr hb fun r v' s' hc hm hu' hk' => ?_
  cases hc with
  | deferred _ hn => exact absurd hn hnn
  | missing _ hno => exact absurd hon (hno l)
  | freed _ _ _ hnone hoff hnoti =>
    have hrel : (v'.record (.cancel x 0)).hist.any Event.releases = true := by simp [Event.releases]
    have hfds := hm.onFd hfd hrel
    have hmem : x ∈ s.onFd fd := by
      simp only [St.onFd, Finset.mem_filter, Finset.mem_range]
      exact ⟨hp.lt_next (by simp [St.view, hh]), hr, by simp [hh, hhd]⟩
    refine hq s' ⟨hu', hm.alive, hs.keeps.trans hk', ?_, (hm.notifying hp ?_).trans hs.noti,
      fun h hn => ?_, ?_, fun h hh' => ?_⟩
      ?_ (hm.erase hp hl (hoff l)) (fun l' hl' hcl => hcl.moved hm hp hl' (hoff l')) (fun j hj hd' hhd' => ?_)
    · exact hm.touch.asyncPipe0.trans hs.rd
    · exact iff_of_false hnoti hnn
    · have hhx : h ≠ x := by rintro rfl; exact hnn (hs.noti.trans hn)
      have hlt : h < s.next := by
        refine hp.lt_next ((hp.sane h).notiLive ?_)
        exact hs.noti.trans hn
      exact (hm.touch.view h hhx hlt).trans (hs.notiView h hn)
    · rw [hfds]; exact (Finset.erase_subset _ _).trans hs.sub
    · by_cases hhx : h = x
      · subst hhx
        refine .inr ?_
        show (s'.view h).hist.any Event.releases = true
        rw [hm.view]; exact hrel
      · rcases hs.gone h hh' with h1 | h1
        · rw [hfds]; exact .inl (Finset.mem_erase.2 ⟨hhx, h1⟩)
        · refine .inr ?_
          have hlt : h < s.next := by
            by_contra hn
            have := hp.fresh h (not_lt.1 hn)
            have h1' : (s.view h).hist.any Event.releases = true := h1
            simp [this, View.empty] at h1'
          show (s'.view h).hist.any Event.releases = true
          rw [hm.touch.view h hhx hlt]; exact h1
    · rw [hfds, Finset.card_erase_of_mem hmem]
      have := Finset.card_pos.2 ⟨x, hmem⟩
      omega
    · have hjx : j ≠ x := by rintro rfl; exact hoff l ((hm.mem l).1 hj)
      rcases hm.touch.cases hp hjx with he | ⟨-, -, -, hq'⟩
      · exact (congrArg View.hd he).symm.trans hhd'
      · exact absurd ((hq'.on l).1 hj) hl

/-- One of the walks: every handle on the list that is for `fd` is cancelled. -/
theorem wp_cancelOn {s₀ : St} {n : Int} {Q : Int → St → Prop} (hs : Sweep m fd s₀ s) (hb : b.adds = false)
    (hfd : 0 ≤ fd) (hrd : fd ≠ s₀.asyncPipe0) (hl : l ≠ .async)
    (hq : ∀ n' s', Sweep m fd s₀ s' → n' + (s'.onFd fd).card = n + (s.onFd fd).card → Clean s' fd l →
      (∀ l', l' ≠ .async → Clean s fd l' → Clean s' fd l') → Q n' s') : Wp m b (cancelOn fd l n) Q s := by
  -- The cursor splits the list into a clean part and the rest.
  let J : Option Ptr × Int → St → Prop := fun i s₁ => Sweep m fd s₀ s₁ ∧
    i.2 + (s₁.onFd fd).card = n + (s.onFd fd).card ∧ (∀ l', l' ≠ .async → Clean s fd l' → Clean s₁ fd l') ∧
    ∃ pre suf, s₁.lists l = pre ++ suf ∧ i.1 = suf.head? ∧ ∀ h ∈ pre, ∀ hd, s₁.heap h = some hd → hd.fd ≠ fd
  refine wp.seq (wp_ctx hs.user.point hs.alive ?_)
  refine wp_iterate J ⟨hs, rfl, fun _ _ => id, [], s.lists l, rfl, rfl, by simp⟩ ?_
  rintro ⟨q, n'⟩ s₁ ⟨hs₁, hn, hcl, pre, suf, hsplit, hq₁, hpre⟩
  cases suf with
  | nil =>
    simp only [List.head?_nil] at hq₁
    subst hq₁
    refine wp_pure (hq n' s₁ hs₁ hn ?_ hcl)
    intro h hh
    rw [hsplit, List.append_nil] at hh
    exact hpre h hh
  | cons x suf =>
    simp only [List.head?_cons] at hq₁
    subst hq₁
    have hp := hs₁.user.point
    have hx : x ∈ s₁.lists l := by simp [hsplit]
    have hnd : (pre ++ x :: suf).Nodup := hsplit ▸ hp.nodup l
    have hxp : x ∉ pre := fun h => (List.disjoint_of_nodup_append hnd) h (by simp)
    obtain ⟨hd, hh⟩ := Option.isSome_iff_exists.1 ((hp.sane x).live l hx)
    have hh' : s₁.heap x = some hd := hh
    have hafter : after x (s₁.lists l) = suf.head? := by rw [hsplit, after_append hxp]
    refine wp.seq (wp_load hp hh' (wp.seq (wp_next hp hs₁.alive hx ?_)))
    rw [hafter]
    by_cases hfd' : hd.fd = fd
    · rw [if_pos hfd']
      refine wp.seq (wp_cancelOne hs₁ hb hfd (hs₁.rd ▸ hrd) hl hx hh' hfd' fun s₂ hs₂ hcard hlist hcl₂ hheap => ?_)
      rw [if_pos rfl]
      refine wp_pure ⟨hs₂, ?_, fun l' h1 h2 => hcl₂ l' h1 (hcl l' h1 h2), pre, suf, ?_, rfl, ?_⟩
      · simp only at hn ⊢
        omega
      · rw [hlist, hsplit, List.erase_append_right _ hxp, List.erase_cons_head]
      · intro h hh₂ hd₂ hhd₂
        refine hpre h hh₂ hd₂ (hheap h ?_ hd₂ hhd₂)
        rw [hlist, hsplit, List.erase_append_right _ hxp, List.erase_cons_head]
        simp [hh₂]
    · rw [if_neg hfd']
      refine wp_pure ⟨hs₁, hn, hcl, pre ++ [x], suf, by simp [hsplit], rfl, ?_⟩
      intro h hh₂ hd₂ hhd₂
      rcases List.mem_append.1 hh₂ with h1 | h1
      · exact hpre h h1 hd₂ hhd₂
      · rw [List.mem_singleton.1 h1, hh'] at hhd₂
        cases hhd₂
        exact hfd'

/-- `aloe_evb2_cancel_fd` cancels what is registered on `fd`, except a handle
whose callback is running. -/
theorem wp_aloeEvb2CancelFd {Q : Int → St → Prop} (hu : AtUser m s) (ha : s.alive = true) (hb : b.adds = false)
    (hbad : fd < 0 ∨ fd = s.asyncPipe0 ∨ fd = s.asyncPipe1 → Q (-1) s)
    (hq : ∀ n s', 0 ≤ fd → Sweep m fd s s' → n + (s'.onFd fd).card = ((s.onFd fd).card : Int) →
      (∀ h ∈ s'.onFd fd, s.notifying = some h) → Q n s') : Wp m b (aloeEvb2CancelFd fd) Q s := by
  refine wp.seq (wp_ctx hu.point ha ?_)
  split
  · rename_i h
    exact wp_pure (hbad (.inl (by unfold fdTimer at h; omega)))
  rename_i hneg
  have hfd : 0 ≤ fd := by unfold fdTimer at hneg; omega
  split
  · rename_i h; exact wp_pure (hbad (.inr h))
  rename_i hrd
  have hrd' : fd ≠ s.asyncPipe0 := fun h => hrd (.inl h)
  refine wp.seq (wp_cancelOn (.refl hu ha) hb hfd hrd' (by simp) fun n₁ s₁ hs₁ hn₁ hc₁ hk₁ => ?_)
  refine wp.seq (wp_cancelOn hs₁ hb hfd hrd' (by simp) fun n₂ s₂ hs₂ hn₂ hc₂ hk₂ => ?_)
  refine wp_cancelOn hs₂ hb hfd hrd' (by simp) fun n₃ s₃ hs₃ hn₃ hc₃ hk₃ => ?_
  refine hq n₃ s₃ hfd hs₃ (by omega) fun h hh => ?_
  exact hs₃.noti ▸ hs₃.user.toCore.clean_onFd hfd (hk₃ _ (by simp) (hk₂ _ (by simp) hc₁)) hc₃ hh

end CancelFd

end AlgaeBp.Evb2
