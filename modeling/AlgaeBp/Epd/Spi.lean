import Mathlib.Algebra.BigOperators.Group.List.Basic
import Mathlib.Algebra.Order.Ring.Int
import Mathlib.Data.List.Nodup
import Mathlib.Data.List.Range
/-!
# Writing to the SPI device of the display

`spi_write_bytes` and `epd_data_buffer` of `epd_v21.c`. Given are the answers of
`write` before the first error: every call ends, at the latest, when there are
none left and the next `write` fails. A call that would go on for ever makes the
writes of those that end later and later.

The chunk is not cut to what is left of the data, and an interrupted write takes
the position back by one. `sends_iff` says when the bytes are sent nevertheless.
-/

namespace AlgaeBp.Epd

/-! ## The code -/

/-- An answer of `write`, other than an error. -/
inductive Answer where
  /-- The device takes that many bytes, at most all of them. -/
  | takes (n : Nat)
  /-- `EINTR`. -/
  | interrupted
  deriving DecidableEq, Repr

/-- `write(epd->spi_fd, data + pos, trunk)`, and how many bytes the device accepted. -/
structure Write where
  pos : Nat
  trunk : Nat
  accepted : Nat
  deriving DecidableEq, Repr

/-- The conversion of an `ssize_t` in a comparison with a `size_t`. -/
def toSize (n : Int) : Nat := (n % 2 ^ 64).toNat

/-- The loop from a value of `pos` on. -/
def spiLoop (len trunk : Nat) : List Answer → Int → Int × List Write
  | [], pos => if toSize pos < len then (-1, [{ pos := pos.toNat, trunk, accepted := 0 }]) else (0, [])
  | .takes n :: answers, pos =>
    if toSize pos < len then
      let accepted := min n trunk
      let (r, writes) := spiLoop len trunk answers (pos + accepted)
      (r, { pos := pos.toNat, trunk, accepted } :: writes)
    else (0, [])
  | .interrupted :: answers, pos =>
    if toSize pos < len then
      let (r, writes) := spiLoop len trunk answers (pos + -1)
      (r, { pos := pos.toNat, trunk, accepted := 0 } :: writes)
    else (0, [])

/-- The bytes asked for in one write. -/
def chunk (spiTrunk : Int) (len : Nat) : Nat := if spiTrunk > 0 ∧ len > spiTrunk.toNat then spiTrunk.toNat else len

def spiWriteBytes (spiTrunk : Int) (len : Nat) (answers : List Answer) : Int × List Write :=
  if len = 0 then (0, []) else spiLoop len (chunk spiTrunk len) answers 0

/-- `pin` is what `gpio_set` answers. -/
def epdDataBuffer (pin : Int) (spiTrunk : Int) (len : Nat) (answers : List Answer) : Int × List Write :=
  if pin < 0 then (-1, []) else spiWriteBytes spiTrunk len answers

/-! ## What is sent -/

/-- The offsets of the bytes that the device accepted, in order. -/
def sent (writes : List Write) : List Nat := writes.flatMap fun w => List.range' w.pos w.accepted

/-- All writes are inside the data; on success all bytes were sent, on failure fewer, each once and in order. -/
def Sends (len : Nat) (out : Int × List Write) : Prop :=
  (∀ w ∈ out.2, w.pos + w.trunk ≤ len) ∧ (out.1 = 0 → sent out.2 = List.range len) ∧
    (out.1 = -1 → ∃ k < len, sent out.2 = List.range k)

/-! ## When it is sent -/

/-- What is accepted by the writes before the first that is interrupted. -/
def sizes (trunk : Nat) : List Answer → List Nat
  | .takes n :: answers => min n trunk :: sizes trunk answers
  | _ => []

/-- The answers from the first interruption on. -/
def fromInterruption : List Answer → List Answer
  | .takes _ :: answers => fromInterruption answers
  | answers => answers

/-- After an interruption with `p` bytes accepted, no more is, and the position does not get below 0. -/
def Fruitless (p : Nat) (answers : List Answer) : Prop :=
  (∀ n, .takes n ∈ answers → n = 0) ∧ answers.count .interrupted ≤ p

/-- With `p` bytes accepted: as long as bytes are missing a whole chunk is, and an interruption before the last byte is
accepted leads to an error and nothing else. -/
def Undisturbed (len trunk p : Nat) (answers : List Answer) : Prop :=
  (∀ k ≤ (sizes trunk answers).length, p + ((sizes trunk answers).take k).sum < len →
    p + ((sizes trunk answers).take k).sum + trunk ≤ len) ∧
  (p + (sizes trunk answers).sum < len → Fruitless (p + (sizes trunk answers).sum) (fromInterruption answers))

section
variable {len trunk p q : Nat} {answers : List Answer} {out : Int × List Write}

theorem toSize_natCast (h : p < 2 ^ 64) : toSize p = p := by
  unfold toSize
  omega

/-- -1 is taken for a large number. -/
theorem toSize_neg_one : toSize (-1) = 2 ^ 64 - 1 := rfl

/-- As `Sends`, with the bytes before `p` sent already. -/
def SendsFrom (p len : Nat) (out : Int × List Write) : Prop :=
  (∀ w ∈ out.2, w.pos + w.trunk ≤ len) ∧ (out.1 = 0 → List.range p ++ sent out.2 = List.range len) ∧
    (out.1 = -1 → ∃ k < len, List.range p ++ sent out.2 = List.range k)

theorem spiLoop_result (len trunk : Nat) (answers : List Answer) :
    ∀ pos, (spiLoop len trunk answers pos).1 = 0 ∨ (spiLoop len trunk answers pos).1 = -1 := by
  induction answers with
  | nil =>
    intro pos
    rw [spiLoop]
    split
    · exact .inr rfl
    · exact .inl rfl
  | cons a answers ih =>
    intro pos
    cases a with
    | takes n =>
      rw [spiLoop]
      split
      · exact ih _
      · exact .inl rfl
    | interrupted =>
      rw [spiLoop]
      split
      · exact ih _
      · exact .inl rfl

/-- Whatever it returns, a byte that is sent twice is one too many. -/
theorem not_sendsFrom_of_repeat {more : List Nat} (hr : out.1 = 0 ∨ out.1 = -1) (hq : q < p)
    (hsent : sent out.2 = q :: more) :
    ¬ SendsFrom p len out := by
  rintro ⟨-, hok, hfail⟩
  have hnot : ∀ k, List.range p ++ sent out.2 ≠ List.range k := by
    intro k heq
    have hnodup := List.nodup_range (n := k)
    rw [← heq, hsent, List.nodup_append] at hnodup
    exact hnodup.2.2 q (List.mem_range.2 hq) q List.mem_cons_self rfl
  rcases hr with h | h
  · exact hnot len (hok h)
  · obtain ⟨k, -, heq⟩ := hfail h
    exact hnot k heq

theorem sendsFrom_cons {r : Int} {w : Write} {writes : List Write} (hpos : w.pos = p) :
    SendsFrom p len (r, w :: writes) ↔ p + w.trunk ≤ len ∧ SendsFrom (p + w.accepted) len (r, writes) := by
  have hrange : List.range p ++ sent (w :: writes) = List.range (p + w.accepted) ++ sent writes := by
    have happend := List.range'_append_1 (s := 0) (m := p) (n := w.accepted)
    rw [Nat.zero_add] at happend
    rw [sent, List.flatMap_cons, hpos, List.range_eq_range', List.range_eq_range', ← happend, List.append_assoc]
    rfl
  simp only [SendsFrom, hrange, List.forall_mem_cons, hpos, and_assoc]

/-- A write that is not accepted leaves what was sent. -/
theorem sendsFrom_cons_none {r : Int} {w : Write} {writes : List Write} (hnone : w.accepted = 0)
    (hin : w.pos + w.trunk ≤ len) :
    SendsFrom p len (r, w :: writes) ↔ SendsFrom p len (r, writes) := by
  have hsent : sent (w :: writes) = sent writes := by
    rw [sent, List.flatMap_cons, hnone]
    rfl
  simp only [SendsFrom, hsent, List.forall_mem_cons, hin, true_and]

/-! ## The loop -/

/-- Position -1 ends the loop, as if all were sent. -/
theorem spiLoop_neg_one (hlen : len < 2 ^ 63) : spiLoop len trunk answers (-1) = (0, []) := by
  have hge : ¬ toSize (-1) < len := by
    rw [toSize_neg_one]
    omega
  rcases answers with _ | ⟨_ | _, answers⟩ <;> rw [spiLoop, if_neg hge]

theorem not_sendsFrom_early (hp : p < len) : ¬ SendsFrom p len (0, []) := by
  rintro ⟨-, hok, -⟩
  have hlength := congrArg List.length (hok rfl)
  rw [List.length_append, List.length_range, List.length_range] at hlength
  have hnone : (sent (0, ([] : List Write)).2).length = 0 := rfl
  omega

theorem not_fruitless_zero : ¬ Fruitless 0 (.interrupted :: answers) := by
  rintro ⟨-, hcount⟩
  rw [List.count_cons_self] at hcount
  omega

theorem fruitless_interrupted : Fruitless (q + 1) (.interrupted :: answers) ↔ Fruitless q answers := by
  rw [Fruitless, Fruitless, List.count_cons_self]
  simp

/-- From a position before `p`, where `p` bytes are accepted already. -/
theorem spiLoop_back (hlen : len < 2 ^ 63) (htrunk : 0 < trunk) (hp : p < len) (hin : p + trunk ≤ len) (hq : q < p) :
    SendsFrom p len (spiLoop len trunk answers q) ↔ Fruitless q answers := by
  induction answers generalizing q with
  | nil =>
    have hlt : toSize q < len := by
      rw [toSize_natCast (by omega)]
      omega
    rw [spiLoop, if_pos hlt, sendsFrom_cons_none rfl (by simp only [Int.toNat_natCast]; omega)]
    refine iff_of_true ⟨fun _ h => (nomatch h), fun h => (nomatch h), fun _ => ⟨p, hp, List.append_nil _⟩⟩ ?_
    exact ⟨fun _ h => (nomatch h), Nat.zero_le _⟩
  | cons a answers ih =>
    have hlt : toSize q < len := by
      rw [toSize_natCast (by omega)]
      omega
    cases a with
    | takes n =>
      have hresult := spiLoop_result len trunk answers (q + (min n trunk : Nat))
      rw [spiLoop, if_pos hlt]
      by_cases hn : n = 0
      · subst hn
        rw [sendsFrom_cons_none (Nat.zero_min _) (by simp only [Int.toNat_natCast]; omega), Nat.zero_min]
        have hback := ih hq
        rw [show ((q : Int) + (0 : Nat)) = q from Int.add_zero _, hback, Fruitless, Fruitless]
        simp
      · apply iff_of_false
        · obtain ⟨m, hm⟩ := Nat.exists_eq_succ_of_ne_zero (by omega : min n trunk ≠ 0)
          refine not_sendsFrom_of_repeat hresult hq
            (?_ : _ = q :: (List.range' (q + 1) m ++ sent (spiLoop len trunk answers (q + (min n trunk : Nat))).2))
          rw [sent, List.flatMap_cons, hm, Int.toNat_natCast, List.range'_succ]
          rfl
        · intro h
          exact hn (h.1 n List.mem_cons_self)
    | interrupted =>
      rw [spiLoop, if_pos hlt, sendsFrom_cons_none rfl (by simp only [Int.toNat_natCast]; omega)]
      cases q with
      | zero =>
        have hend : spiLoop len trunk answers (((0 : Nat) : Int) + -1) = (0, []) := spiLoop_neg_one hlen
        rw [hend]
        exact iff_of_false (not_sendsFrom_early hp) not_fruitless_zero
      | succ q => rw [show (((q + 1 : Nat) : Int) + -1) = q by omega, ih (by omega), fruitless_interrupted]

/-- Nothing is left to send. -/
theorem spiLoop_done (hlen : len < 2 ^ 63) (hp : p = len) : spiLoop len trunk answers p = (0, []) := by
  have hge : ¬ toSize p < len := by
    rw [toSize_natCast (by omega)]
    omega
  rcases answers with _ | ⟨_ | _, answers⟩ <;> rw [spiLoop, if_neg hge]

theorem undisturbed_done (hp : len ≤ p) : Undisturbed len trunk p answers :=
  ⟨fun k _ h => by omega, fun h => by omega⟩

theorem undisturbed_takes (hp : p < len) (n : Nat) :
    Undisturbed len trunk p (.takes n :: answers) ↔ p + trunk ≤ len ∧ Undisturbed len trunk (p + min n trunk) answers := by
  have hsum : ∀ k, p + ((sizes trunk (.takes n :: answers)).take (k + 1)).sum =
      p + min n trunk + ((sizes trunk answers).take k).sum := by
    intro k
    rw [sizes, List.take_succ_cons, List.sum_cons, Nat.add_assoc]
  have hall : p + (sizes trunk (.takes n :: answers)).sum = p + min n trunk + (sizes trunk answers).sum := by
    rw [sizes, List.sum_cons, Nat.add_assoc]
  rw [Undisturbed, Undisturbed, hall]
  constructor
  · rintro ⟨hroom, hrest⟩
    refine ⟨hroom 0 (Nat.zero_le _) hp, ?_, hrest⟩
    intro k hk
    rw [← hsum k]
    exact hroom (k + 1) (Nat.succ_le_succ hk)
  · rintro ⟨hfirst, hroom, hrest⟩
    refine ⟨?_, hrest⟩
    intro k hk
    cases k with
    | zero => exact fun _ => hfirst
    | succ k =>
      rw [hsum k]
      exact hroom k (Nat.le_of_succ_le_succ hk)

/-- Without another answer, or with an interruption as the next one. -/
theorem undisturbed_stop (hp : p < len) (hsizes : sizes trunk answers = []) :
    Undisturbed len trunk p answers ↔ p + trunk ≤ len ∧ Fruitless p (fromInterruption answers) := by
  rw [Undisturbed, hsizes]
  simp [hp]

theorem spiLoop_sends (hlen : len < 2 ^ 63) (htrunk : 0 < trunk) (hp : p ≤ len) :
    SendsFrom p len (spiLoop len trunk answers p) ↔ Undisturbed len trunk p answers := by
  induction answers generalizing p with
  | nil =>
    rcases Nat.lt_or_eq_of_le hp with hlt | heq
    · have hmore : toSize p < len := by rwa [toSize_natCast (by omega)]
      rw [spiLoop, if_pos hmore, sendsFrom_cons (Int.toNat_natCast p), undisturbed_stop hlt rfl]
      refine and_congr_right fun _ => iff_of_true ?_ ⟨fun _ h => (nomatch h), Nat.zero_le _⟩
      exact ⟨fun _ h => (nomatch h), fun h => (nomatch h), fun _ => ⟨p, hlt, List.append_nil _⟩⟩
    · rw [spiLoop_done hlen heq]
      refine iff_of_true ⟨fun _ h => (nomatch h), fun _ => ?_, fun h => (nomatch h)⟩ (undisturbed_done heq.ge)
      rw [heq]
      exact List.append_nil _
  | cons a answers ih =>
    rcases Nat.lt_or_eq_of_le hp with hlt | heq
    · have hmore : toSize p < len := by rwa [toSize_natCast (by omega)]
      cases a with
      | takes n =>
        rw [spiLoop, if_pos hmore, sendsFrom_cons (Int.toNat_natCast p), undisturbed_takes hlt]
        apply and_congr_right
        intro hin
        have hin : p + trunk ≤ len := hin
        have hnext := ih (p := p + min n trunk) (by omega)
        rw [Int.natCast_add] at hnext
        exact hnext
      | interrupted =>
        rw [spiLoop, if_pos hmore, sendsFrom_cons (Int.toNat_natCast p), undisturbed_stop hlt rfl]
        apply and_congr_right
        intro hin
        have hin : p + trunk ≤ len := hin
        cases p with
        | zero =>
          have hend : spiLoop len trunk answers (((0 : Nat) : Int) + -1) = (0, []) := spiLoop_neg_one hlen
          rw [hend]
          exact iff_of_false (not_sendsFrom_early hlt) not_fruitless_zero
        | succ q =>
          rw [show (((q + 1 : Nat) : Int) + -1) = q by omega]
          exact (spiLoop_back hlen htrunk hlt hin (Nat.lt_succ_self q)).trans fruitless_interrupted.symm
    · rw [spiLoop_done hlen heq]
      refine iff_of_true ⟨fun _ h => (nomatch h), fun _ => ?_, fun h => (nomatch h)⟩ (undisturbed_done heq.ge)
      rw [heq]
      exact List.append_nil _

theorem sends_eq (out : Int × List Write) : Sends len out ↔ SendsFrom 0 len out := by
  simp only [Sends, SendsFrom, List.range_zero, List.nil_append]

theorem chunk_pos (spiTrunk : Int) (hlen : 0 < len) : 0 < chunk spiTrunk len := by
  unfold chunk
  split <;> omega

theorem spiWriteBytes_sends (hlen : len < 2 ^ 63) (spiTrunk : Int) (answers : List Answer) :
    Sends len (spiWriteBytes spiTrunk len answers) ↔ Undisturbed len (chunk spiTrunk len) 0 answers := by
  rw [spiWriteBytes, sends_eq]
  by_cases hzero : len = 0
  · rw [if_pos hzero]
    refine iff_of_true ⟨fun _ h => (nomatch h), fun _ => ?_, fun h => (nomatch h)⟩ (undisturbed_done hzero.le)
    rw [hzero]
    rfl
  · rw [if_neg hzero]
    exact spiLoop_sends hlen (chunk_pos spiTrunk (Nat.pos_of_ne_zero hzero)) (Nat.zero_le _)

end

/-- **When the bytes are sent**, for any number of bytes that an object can have. With the pin set, `epd_data_buffer`
sends what `spi_write_bytes` does. -/
theorem sends_iff (len : Nat) (hlen : len < 2 ^ 63) (spiTrunk : Int) (answers : List Answer) :
    (Sends len (spiWriteBytes spiTrunk len answers) ↔ Undisturbed len (chunk spiTrunk len) 0 answers) ∧
      (0 < len → ∀ pin, (Sends len (epdDataBuffer pin spiTrunk len answers) ↔
        pin < 0 ∨ Undisturbed len (chunk spiTrunk len) 0 answers)) := by
  have hsends := spiWriteBytes_sends hlen spiTrunk answers
  refine ⟨hsends, ?_⟩
  intro hpos pin
  rw [epdDataBuffer]
  split
  · rename_i hpin
    exact iff_of_true ⟨fun _ h => (nomatch h), fun h => (nomatch h), fun _ => ⟨0, hpos, rfl⟩⟩ (.inl hpin)
  · rename_i hpin
    exact hsends.trans (or_iff_right hpin).symm

/-- Six bytes in two whole chunks. -/
theorem sends_iff_six : Sends 6 (spiWriteBytes 3 6 [.takes 3, .takes 3]) :=
  ((sends_iff 6 (by decide) 3 [.takes 3, .takes 3]).1).2 ⟨by decide, fun h => absurd h (by decide)⟩

/-- The last chunk of four bytes reaches two bytes behind them, which the device accepts too; and of one that is
interrupted at once nothing is sent, with success. -/
theorem not_sends :
    spiWriteBytes 3 4 [.takes 3, .takes 3] =
        (0, [{ pos := 0, trunk := 3, accepted := 3 }, { pos := 3, trunk := 3, accepted := 3 }]) ∧
      ¬ Sends 4 (spiWriteBytes 3 4 [.takes 3, .takes 3]) ∧
      spiWriteBytes 0 4 [.interrupted] = (0, [{ pos := 0, trunk := 4, accepted := 0 }]) ∧
      ¬ Sends 4 (spiWriteBytes 0 4 [.interrupted]) := by
  refine ⟨by decide, ?_, by decide, ?_⟩
  · intro h
    exact absurd (h.1 { pos := 3, trunk := 3, accepted := 3 } (by decide)) (by decide)
  · intro h
    exact absurd (h.2.1 (by decide)) (by decide)

end AlgaeBp.Epd
