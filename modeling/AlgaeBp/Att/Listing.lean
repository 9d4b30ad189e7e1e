import AlgaeBp.Att.Code
/-!
# Lists of attributes in a response

Three requests are answered by a list that a loop over the handles assembles:
an attribute is passed over or contributes an entry, all entries of a response
have one shape, and the list ends where the shape changes, where the MTU is
reached or behind an entry that was cut. `page` is that list; the loops of the
code store exactly it.
-/
open Bytes

namespace AlgaeBp.Att

/-! ## The list -/

/-- What an attribute contributes: the shape of its entry, the bytes of the
entry, and whether its value was cut. -/
structure Entry where
  shape : Nat
  bytes : List UInt8
  cut : Bool
  deriving DecidableEq, Repr

/-- The shape the list has once the entry was looked at. -/
def Entry.fix (e : Entry) (shape : Nat) : Nat := if shape = 0 then e.shape else shape

/-- The entries of a response, from the shape and the length it already has, and the shape in the end. -/
def page (mtu : Nat) (item : UInt16 → Option Entry) : List UInt16 → Nat → Nat → List Entry × Nat
  | [], shape, _ => ([], shape)
  | hdl :: rest, shape, out =>
    match item hdl with
    | none => page mtu item rest shape out
    | some e =>
      if e.shape ≠ e.fix shape ∨ out + e.bytes.length > mtu then ([], e.fix shape)
      else if e.cut then ([e], e.fix shape)
      else
        let t := page mtu item rest (e.fix shape) (out + e.bytes.length)
        (e :: t.1, t.2)

theorem page_skip {mtu : Nat} {item : UInt16 → Option Entry} {hdl : UInt16} (hi : item hdl = none) (rest : List UInt16)
    (shape out : Nat) : page mtu item (hdl :: rest) shape out = page mtu item rest shape out := by
  rw [page, hi]

theorem page_entry {mtu : Nat} {item : UInt16 → Option Entry} {hdl : UInt16} {e : Entry} (hi : item hdl = some e)
    (rest : List UInt16) (shape out : Nat) : page mtu item (hdl :: rest) shape out =
      if e.shape ≠ e.fix shape ∨ out + e.bytes.length > mtu then ([], e.fix shape)
      else if e.cut then ([e], e.fix shape)
      else (e :: (page mtu item rest (e.fix shape) (out + e.bytes.length)).1,
        (page mtu item rest (e.fix shape) (out + e.bytes.length)).2) := by
  rw [page, hi]

/-- The bytes of a list of entries. -/
def joined (es : List Entry) : List UInt8 := (es.map Entry.bytes).flatten

theorem joined_cons (e : Entry) (es : List Entry) : joined (e :: es) = e.bytes ++ joined es := by
  simp [joined]

/-- The entry is taken into the response. -/
def Entry.put (mtu : Nat) (e : Entry) (s : Listing) : Except Stop (Flow Listing) :=
  if e.shape ≠ e.fix s.shape ∨ s.out + e.bytes.length > mtu then .ok (.leave { s with shape := e.fix s.shape })
  else do
    let rsp ← checked (s.rsp.store s.out e.bytes)
    if e.cut then return .leave ⟨e.fix s.shape, s.out + e.bytes.length, rsp⟩
    else return .next ⟨e.fix s.shape, s.out + e.bytes.length, rsp⟩

/-- A loop body that passes over attributes or takes their entries. -/
def listBody (mtu : Nat) (item : UInt16 → Option Entry) (hdl : UInt16) (s : Listing) : Except Stop (Flow Listing) :=
  match item hdl with
  | none => .ok (.next s)
  | some e => e.put mtu s

/-! ## Handles -/

/-- The handles a loop runs over. -/
def handles (first last : UInt16) : List UInt16 :=
  (List.range' first.toNat (last.toNat + 1 - first.toNat)).map UInt16.ofNat

theorem handles_empty {first last : UInt16} (h : ¬ first ≤ last) : handles first last = [] := by
  unfold handles
  rw [UInt16.le_iff_toNat_le] at h
  rw [Nat.sub_eq_zero_of_le (by omega)]
  rfl

theorem handles_cons {first last : UInt16} (h : first ≤ last) (hl : last ≤ hdlMax) :
    handles first last = first :: handles (first + 1) last := by
  rw [UInt16.le_iff_toNat_le] at h hl
  have hmax : hdlMax.toNat = 10 := rfl
  have hnext : (first + 1).toNat = first.toNat + 1 := by
    rw [UInt16.toNat_add]
    show (first.toNat + 1) % 2 ^ 16 = _
    omega
  unfold handles
  rw [hnext, show last.toNat + 1 - first.toNat = (last.toNat + 1 - (first.toNat + 1)) + 1 by omega,
    List.range'_succ, List.map_cons, UInt16.ofNat_toNat]

/-- The rounds a loop over attributes needs. -/
def enough (first last : UInt16) : Nat := last.toNat + 2 - first.toNat

/-- Bodies that agree where the loop can get to make the same loop. -/
theorem forHandles_congr {σ : Type} {last : UInt16} {body body' : UInt16 → σ → Except Stop (Flow σ)} (I : σ → Prop)
    (hb : ∀ hdl s, I s → body hdl s = body' hdl s) (hI : ∀ hdl s s', I s → body' hdl s = .ok (.next s') → I s')
    (rounds : Nat) (first : UInt16) (s : σ) (hs : I s) :
    forHandles last body rounds first s = forHandles last body' rounds first s := by
  induction rounds generalizing first s with
  | zero => rfl
  | succ rounds ih =>
    unfold forHandles
    rw [hb first s hs]
    cases hr : body' first s with
    | error e => rfl
    | ok f =>
      cases f with
      | leave s' => rfl
      | next s' =>
        split
        · exact ih (first + 1) s' (hI first s s' hs hr)
        · rfl

/-! ## The loop stores the list -/

/-- What a listing holds once the entries are stored behind its first `out` bytes. -/
structure Stored (s s' : Listing) (es : List Entry) (shape : Nat) : Prop where
  shape : s'.shape = shape
  out : s'.out = s.out + (joined es).length
  bytes : s'.rsp.bytes.take s'.out = s.rsp.bytes.take s.out ++ joined es

theorem put_store {mtu : Nat} {e : Entry} {s : Listing} (hmtu : mtu ≤ 128)
    (h : ¬ (e.shape ≠ e.fix s.shape ∨ s.out + e.bytes.length > mtu)) :
    ∃ rsp, e.put mtu s = .ok (if e.cut then .leave ⟨e.fix s.shape, s.out + e.bytes.length, rsp⟩
        else .next ⟨e.fix s.shape, s.out + e.bytes.length, rsp⟩) ∧
      rsp.bytes.take (s.out + e.bytes.length) = s.rsp.bytes.take s.out ++ e.bytes := by
  have hfit : s.out + e.bytes.length ≤ 128 := by
    rw [not_or] at h
    omega
  obtain ⟨rsp, hr, hb⟩ := store_some (p := s.rsp) hfit
  refine ⟨rsp, ?_, take_store hfit hb⟩
  unfold Entry.put
  rw [if_neg h, hr]
  cases e.cut <;> rfl

theorem put_next_shape {mtu : Nat} {e : Entry} {s s' : Listing} (h : e.put mtu s = .ok (.next s')) :
    s'.shape = e.fix s.shape := by
  unfold Entry.put at h
  by_cases hbreak : e.shape ≠ e.fix s.shape ∨ s.out + e.bytes.length > mtu
  · rw [if_pos hbreak] at h
    simp at h
  · rw [if_neg hbreak] at h
    cases hst : checked (s.rsp.store s.out e.bytes) with
    | error err =>
      rw [hst] at h
      exact absurd h (by simp [bind, Except.bind])
    | ok rsp =>
      rw [hst] at h
      cases hc : e.cut with
      | true => exact absurd h (by simp [bind, Except.bind, hc, pure, Except.pure])
      | false =>
        simp only [bind, Except.bind, hc, pure, Except.pure] at h
        simp only [Bool.false_eq_true, if_false, Except.ok.injEq, Flow.next.injEq] at h
        rw [← h]

/-- The loop over handles stores the page of its handles. -/
theorem forHandles_page {mtu : Nat} (hmtu : mtu ≤ 128) (item : UInt16 → Option Entry) {last : UInt16}
    (hl : last ≤ hdlMax) (rounds : Nat) (first : UInt16) (s : Listing) (hr : enough first last ≤ rounds) (hp : 0 < rounds) :
    ∃ s', forHandles last (listBody mtu item) rounds first s = .ok s' ∧
      Stored s s' (page mtu item (handles first last) s.shape s.out).1
        (page mtu item (handles first last) s.shape s.out).2 := by
  -- each round takes one handle, so `enough` rounds leave none
  induction rounds generalizing first s with
  | zero => omega
  | succ rounds ih =>
    unfold forHandles
    by_cases h : first ≤ last
    · have hle := h
      rw [UInt16.le_iff_toNat_le] at hle
      have hmax : last.toNat ≤ 10 := by
        rw [UInt16.le_iff_toNat_le] at hl
        exact hl
      have hnext : (first + 1).toNat = first.toNat + 1 := by
        rw [UInt16.toNat_add]
        show (first.toNat + 1) % 2 ^ 16 = _
        omega
      have hr' : enough (first + 1) last ≤ rounds ∧ 0 < rounds := by
        unfold enough at hr ⊢
        omega
      rw [if_pos h, handles_cons h hl]
      cases hi : item first with
      | none =>
        rw [page_skip hi]
        obtain ⟨s', hs', hst⟩ := ih (first + 1) s hr'.1 hr'.2
        refine ⟨s', ?_, hst⟩
        simp only [listBody, hi]
        exact hs'
      | some e =>
        rw [page_entry hi]
        by_cases hbreak : e.shape ≠ e.fix s.shape ∨ s.out + e.bytes.length > mtu
        · simp only [listBody, hi, Entry.put, if_pos hbreak]
          exact ⟨_, rfl, rfl, by simp [joined], by simp [joined]⟩
        · obtain ⟨rsp, hput, hb⟩ := put_store hmtu hbreak
          simp only [listBody, hi, hput, if_neg hbreak]
          cases hc : e.cut with
          | true => exact ⟨_, rfl, rfl, by simp [joined], by simpa [joined] using hb⟩
          | false =>
            obtain ⟨s', hs', hst⟩ := ih (first + 1) ⟨e.fix s.shape, s.out + e.bytes.length, rsp⟩ hr'.1 hr'.2
            refine ⟨s', hs', hst.shape, ?_, ?_⟩
            · rw [hst.out, if_neg (by simp), joined_cons, List.length_append, Nat.add_assoc]
            · rw [hst.bytes, if_neg (by simp), joined_cons, hb, List.append_assoc]
    · rw [if_neg h, handles_empty h]
      exact ⟨s, rfl, rfl, by simp [page, joined], by simp [page, joined]⟩

/-! ## What is in the list -/

/-- The list stays within the MTU. -/
theorem page_le (mtu : Nat) (item : UInt16 → Option Entry) (hs : List UInt16) (shape out : Nat) (h : out ≤ mtu) :
    out + (joined (page mtu item hs shape out).1).length ≤ mtu := by
  -- the entry that would overrun the MTU is cut or ends the page
  induction hs generalizing shape out with
  | nil => simpa [page, joined] using h
  | cons hdl rest ih =>
    cases hi : item hdl with
    | none =>
      rw [page_skip hi]
      exact ih shape out h
    | some e =>
      rw [page_entry hi]
      by_cases hbreak : e.shape ≠ e.fix shape ∨ out + e.bytes.length > mtu
      · simpa [if_pos hbreak, joined] using h
      · have hfit : out + e.bytes.length ≤ mtu := by
          rw [not_or] at hbreak
          omega
        simp only [if_neg hbreak]
        cases hc : e.cut with
        | true => simpa [joined] using hfit
        | false =>
          have := ih (e.fix shape) (out + e.bytes.length) hfit
          rw [if_neg (by simp), joined_cons, List.length_append]
          omega

/-- The list is a first part of what the attributes contribute. -/
theorem page_prefix (mtu : Nat) (item : UInt16 → Option Entry) (hs : List UInt16) (shape out : Nat) :
    (page mtu item hs shape out).1 <+: hs.filterMap item := by
  induction hs generalizing shape out with
  | nil => exact List.nil_prefix
  | cons hdl rest ih =>
    cases hi : item hdl with
    | none =>
      rw [page_skip hi, List.filterMap_cons_none hi]
      exact ih shape out
    | some e =>
      rw [page_entry hi, List.filterMap_cons_some hi]
      split
      · exact List.nil_prefix
      · split
        · exact ⟨rest.filterMap item, rfl⟩
        · exact List.cons_prefix_cons.2 ⟨rfl, ih _ _⟩

/-- A list that has its shape keeps it. -/
theorem page_shape (mtu : Nat) (item : UInt16 → Option Entry) (hs : List UInt16) (shape out : Nat) (h : shape ≠ 0) :
    (page mtu item hs shape out).2 = shape ∧ ∀ e ∈ (page mtu item hs shape out).1, e.shape = shape := by
  induction hs generalizing out with
  | nil => exact ⟨rfl, by simp [page]⟩
  | cons hdl rest ih =>
    cases hi : item hdl with
    | none =>
      rw [page_skip hi]
      exact ih out
    | some e =>
      have hfix : e.fix shape = shape := if_neg h
      rw [page_entry hi, hfix]
      split
      · exact ⟨rfl, by simp⟩
      · rename_i hbreak
        have he : e.shape = shape := by
          by_contra hne
          exact hbreak (.inl hne)
        split
        · exact ⟨rfl, by simpa using he⟩
        · obtain ⟨h₁, h₂⟩ := ih (out + e.bytes.length)
          exact ⟨h₁, by simpa [he] using h₂⟩

/-- Without anything to contribute there is no list. -/
theorem page_none (mtu : Nat) (item : UInt16 → Option Entry) (hs : List UInt16) (shape out : Nat)
    (h : hs.filterMap item = []) : page mtu item hs shape out = ([], shape) := by
  induction hs with
  | nil => rfl
  | cons hdl rest ih =>
    rw [List.filterMap_eq_nil_iff] at h
    rw [page_skip (h hdl List.mem_cons_self)]
    exact ih (List.filterMap_eq_nil_iff.2 fun x hx => h x (List.mem_cons_of_mem hdl hx))

/-- The first entry that fits gives the list its shape. -/
theorem page_first {mtu : Nat} {item : UInt16 → Option Entry} {hs : List UInt16} {out : Nat} {e : Entry}
    {es : List Entry} (h : hs.filterMap item = e :: es) (hs0 : e.shape ≠ 0) (hfit : out + e.bytes.length ≤ mtu) :
    (page mtu item hs 0 out).1 ≠ [] ∧ (page mtu item hs 0 out).2 = e.shape ∧
      ∀ x ∈ (page mtu item hs 0 out).1, x.shape = e.shape := by
  induction hs with
  | nil => simp at h
  | cons hdl rest ih =>
    cases hi : item hdl with
    | none =>
      rw [List.filterMap_cons_none hi] at h
      rw [page_skip hi]
      exact ih h
    | some e' =>
      rw [List.filterMap_cons_some hi] at h
      obtain ⟨rfl, -⟩ := List.cons.inj h
      have hfix : e'.fix 0 = e'.shape := if_pos rfl
      rw [page_entry hi, hfix, if_neg (by simp; omega)]
      split
      · exact ⟨by simp, rfl, by simp⟩
      · obtain ⟨h₁, h₂⟩ := page_shape mtu item rest e'.shape (out + e'.bytes.length) hs0
        exact ⟨by simp, h₁, by simpa using h₂⟩

end AlgaeBp.Att
