import AlgaeBp.Flash.Code
import AlgaeBp.Lib.StateWp
import Mathlib.Data.List.Infix
/-!
# Watching the flasher

`monitor` follows the bytes on the UART and knows nothing of the program: it
says whether all that was asked for so far was answered well, and whether the
CRC was among it. Whatever the target sends, the program starts a command only
where the monitor is ready.
-/
open Bytes StateWp

namespace AlgaeBp.Flash

/-! ## The monitor -/

/-- The responses a command asks for. -/
inductive Want where
  | status
  | crc
  deriving DecidableEq, Repr

def Want.size : Want → Nat
  | .status => 1
  | .crc => 4

/-- The response there should be. -/
def Want.expected (crc : UInt32) : Want → List UInt8
  | .status => [0x40]
  | .crc => be32 crc

def wants (cmd : UInt8) : Option Want :=
  if cmd = 0x23 then some .status else if cmd = 0x27 then some .crc else none

/-- What is to come from the target. `seen`: the CRC was as expected. -/
inductive Mon where
  | ack (want : Option Want) (seen : Bool)
  | len (want : Want) (seen : Bool)
  | sum (want : Want) (seen : Bool)
  | data (want : Want) (sum : UInt8) (got : List UInt8) (seen : Bool)
  /-- Everything was answered well. -/
  | ready (seen : Bool)
  /-- A NACK, an unexpected byte, a wrong length, checksum, status or CRC; or a command too early. -/
  | bad
  deriving DecidableEq, Repr

def Mon.acked (want : Option Want) (seen : Bool) : Mon :=
  match want with
  | none => .ready seen
  | some w => .len w seen

def Mon.input (crc : UInt32) (b : UInt8) : Mon → Mon
  | .ack want seen => if b = 0 then .ack want seen else if b = Flash.ack then .acked want seen else .bad
  | .len w seen => if b = 0 then .len w seen else if b.toNat = w.size + 2 then .sum w seen else .bad
  | .sum w seen => .data w b [] seen
  | .data w s got seen =>
    if got.length + 1 < w.size then .data w s (got ++ [b]) seen
    else if checksum (got ++ [b]) = s ∧ got ++ [b] = w.expected crc then .ready (seen || decide (w = .crc)) else .bad
  | .ready _ => .bad
  | .bad => .bad

def Mon.step (crc : UInt32) (m : Mon) : Event → Mon
  | .start cmd =>
    match m with
    | .ready seen => .ack (wants cmd) seen
    | _ => .bad
  | .sent _ => m
  | .got b => m.input crc b

/-- The monitor after some events; the first ACK is that of the synchronisation. -/
def monitor (crc : UInt32) (wire : List Event) : Mon := wire.foldl (Mon.step crc) (.ack none false)

theorem monitor_append (crc : UInt32) (w v : List Event) : monitor crc (w ++ v) = v.foldl (Mon.step crc) (monitor crc w) :=
  List.foldl_append

theorem monitor_sent (crc : UInt32) (w : List Event) (bs : List UInt8) :
    monitor crc (w ++ bs.map .sent) = monitor crc w := by
  rw [monitor_append]
  induction bs with
  | nil => rfl
  | cons b bs ih => exact ih

/-- Once an answer was bad the monitor stays bad. -/
theorem monitor_bad {crc : UInt32} {w : List Event} (h : monitor crc w = .bad) (v : List Event) :
    monitor crc (w ++ v) = .bad := by
  rw [monitor_append, h]
  induction v with
  | nil => rfl
  | cons e v ih =>
    cases e with
    | start cmd => exact ih
    | sent b => exact ih
    | got b => exact ih

/-! ## Commands on the wire -/

/-- Each command was started where the monitor was ready, the reset after the CRC. -/
def Careful (crc : UInt32) (allowed : UInt8 → Prop) (wire : List Event) : Prop :=
  ∀ pre cmd post, wire = pre ++ .start cmd :: post →
    allowed cmd ∧ ∃ seen, monitor crc pre = .ready seen ∧ (cmd = 0x25 → seen = true)

variable {σ : Type} {crc : UInt32} {allowed : UInt8 → Prop}

theorem careful_nil : Careful crc allowed [] := by
  intro pre cmd post h
  simp at h

/-- A command was started before anything that starts none. -/
theorem start_split {w v pre post : List Event} {cmd : UInt8} (hv : ∀ cmd, .start cmd ∉ v)
    (heq : w ++ v = pre ++ .start cmd :: post) :
    ∃ mid, w = pre ++ .start cmd :: mid ∧ post = mid ++ v := by
  rcases List.append_eq_append_iff.1 heq with ⟨a, rfl, ha⟩ | ⟨a, rfl, ha⟩
  · exact absurd (by rw [ha]; simp) (hv cmd)
  · cases a with
    | nil =>
      rw [List.nil_append] at ha
      exact absurd (by rw [← ha]; simp) (hv cmd)
    | cons e a =>
      obtain ⟨rfl, rfl⟩ := List.cons.inj ha
      exact ⟨a, rfl, rfl⟩

theorem Careful.append {w v : List Event} (h : Careful crc allowed w) (hv : ∀ cmd, .start cmd ∉ v) :
    Careful crc allowed (w ++ v) := by
  intro pre cmd post heq
  obtain ⟨mid, hw, -⟩ := start_split hv heq
  exact h pre cmd mid hw

theorem Careful.start {w : List Event} (h : Careful crc allowed w) {cmd : UInt8} {seen : Bool}
    (hm : monitor crc w = .ready seen) (ha : allowed cmd) (hr : cmd = 0x25 → seen = true) :
    Careful crc allowed (w ++ [.start cmd]) := by
  intro pre cmd' post heq
  rcases List.append_eq_append_iff.1 heq with ⟨a, rfl, ha'⟩ | ⟨a, rfl, ha'⟩
  · cases a with
    | nil =>
      obtain ⟨hcmd, rfl⟩ := List.cons.inj ha'
      obtain rfl := Event.start.inj hcmd
      rw [List.append_nil]
      exact ⟨ha, seen, hm, hr⟩
    | cons e a => simp at ha'
  · cases a with
    | nil =>
      obtain ⟨hcmd, rfl⟩ := List.cons.inj ha'
      obtain rfl := Event.start.inj hcmd
      rw [List.append_nil] at hm
      exact ⟨ha, seen, hm, hr⟩
    | cons e a =>
      obtain ⟨rfl, rfl⟩ := List.cons.inj ha'
      exact h pre cmd' a rfl

/-! ## What the program sees -/

/-- The monitor's state, and that commands were started with care. -/
structure At (crc : UInt32) (allowed : UInt8 → Prop) (m : Mon) (h : Host σ) : Prop where
  mon : monitor crc h.wire = m
  careful : Careful crc allowed h.wire

/-- Where the program may exit. -/
def Stopped (crc : UInt32) (allowed : UInt8 → Prop) (h : Host σ) : Prop := Careful crc allowed h.wire

theorem no_start_got (bs : List UInt8) (cmd : UInt8) : .start cmd ∉ bs.map Event.got := by simp

theorem no_start_sent (bs : List UInt8) (cmd : UInt8) : .start cmd ∉ bs.map Event.sent := by simp

theorem readAttempts_length (attempts : List Attempt) (rx : List UInt8) (len : Nat)
    (h : (readAttempts attempts rx len).2.1 = true) : (readAttempts attempts rx len).1.length = len := by
  fun_induction readAttempts attempts rx len with
  | case1 attempts rx => rfl
  | case2 rx len hne =>
    have : len ≤ rx.length := of_decide_eq_true h
    rw [List.length_take, Nat.min_eq_left this]
  | case3 attempts rx len hne ih => exact ih h
  | case4 attempts rx len hne => simp at h
  | case5 n attempts rx len hne r hr => simp at h
  | case6 n attempts rx len hne r hr more ok attempts' heq ih =>
    have hlen : r ≤ rx.length := (Nat.min_le_right _ _).trans (Nat.min_le_right _ _)
    have hle : r ≤ len := (Nat.min_le_right _ _).trans (Nat.min_le_left _ _)
    rw [heq] at ih
    have hmore : more.length = len - r := ih h
    rw [List.length_append, List.length_take, Nat.min_eq_left hlen, hmore]
    omega

/-- Bytes that were read moved the monitor on. -/
theorem transferIn_at {m : Mon} {h : Host σ} (hm : At crc allowed m h) (len : Nat) :
    wps (transferIn len) (fun data t => data.length = len ∧ At crc allowed (data.foldl (fun m b => m.input crc b) m) t)
      (Stopped crc allowed) h := by
  have hcareful (data : List UInt8) : Careful crc allowed (h.wire ++ data.map .got) :=
    hm.careful.append (no_start_got data)
  have hmon (data : List UInt8) : monitor crc (h.wire ++ data.map .got) = data.foldl (fun m b => m.input crc b) m := by
    rw [monitor_append, hm.mon, List.foldl_map]
    rfl
  unfold wps transferIn wp
  simp only [OptionT.run, OptionT.mk]
  cases hok : (readAttempts h.attempts h.rx len).2.1 with
  | false => exact hcareful _
  | true => exact ⟨readAttempts_length _ _ _ hok, hmon _, hcareful _⟩

/-- Bytes that were written did not. -/
theorem transferOut_at {m : Mon} {h : Host σ} (hm : At crc allowed m h) (p : Peer σ) (data : List UInt8) :
    wps (transferOut p data) (fun _ t => At crc allowed m t) (Stopped crc allowed) h := by
  have hcareful (data : List UInt8) : Careful crc allowed (h.wire ++ data.map .sent) :=
    hm.careful.append (no_start_sent data)
  have hmon (data : List UInt8) : monitor crc (h.wire ++ data.map .sent) = m := by
    rw [monitor_sent, hm.mon]
  unfold wps transferOut wp
  simp only [OptionT.run, OptionT.mk]
  split
  · rename_i heq
    split at heq
    · exact ⟨hmon _, hcareful _⟩
    · simp at heq
  · exact hcareful _

theorem nonzeroLoop_at {m : Mon} (hz : m.input crc 0 = m) (n : Nat) {h : Host σ} (hm : At crc allowed m h) :
    wps (nonzeroLoop n) (fun b t => b ≠ 0 ∧ At crc allowed (m.input crc b) t) (Stopped crc allowed) h := by
  -- a zero byte leaves the monitor where it is, so the loop goes on from `m`
  induction n generalizing h with
  | zero => exact hm.careful
  | succ n ih =>
    refine (transferIn_at hm 1).bind ?_
    rintro data t ⟨hlen, ht⟩
    obtain ⟨b, rfl⟩ := List.length_eq_one_iff.1 hlen
    have ht : At crc allowed (m.input crc b) t := ht
    by_cases hb : [b] = [0]
    · rw [if_pos hb]
      obtain rfl := (List.cons.inj hb).1
      rw [hz] at ht
      exact ih ht
    · rw [if_neg hb]
      exact (wps_pure _ _ _ _).2 ⟨fun h0 => hb (by rw [← h0]; rfl), ht⟩

theorem nonzero_at {m : Mon} (hz : m.input crc 0 = m) {h : Host σ} (hm : At crc allowed m h) :
    wps nonzero (fun b t => b ≠ 0 ∧ At crc allowed (m.input crc b) t) (Stopped crc allowed) h :=
  nonzeroLoop_at hz (h.rx.length + 1) hm

theorem expectAck_at {want : Option Want} {seen : Bool} {h : Host σ} (hm : At crc allowed (.ack want seen) h) :
    wps expectAck (fun _ t => At crc allowed (.acked want seen) t) (Stopped crc allowed) h := by
  have hz : Mon.input crc 0 (.ack want seen) = .ack want seen := rfl
  refine (nonzero_at hz hm).bind ?_
  rintro b t ⟨-, ht⟩
  by_cases hack : b = ack
  · subst hack
    exact ht
  · rw [if_pos hack]
    exact ht.careful

theorem command_at {seen : Bool} {h : Host σ} (hm : At crc allowed (.ready seen) h) (p : Peer σ) {cmd : UInt8}
    (data : List UInt8) (ha : allowed cmd) (hr : cmd = 0x25 → seen = true) :
    wps (command p cmd data) (fun _ t => At crc allowed (.acked (wants cmd) seen) t) (Stopped crc allowed) h := by
  unfold command
  split
  · exact hm.careful
  · have hstart : At crc allowed (.ack (wants cmd) seen) { h with wire := h.wire ++ [.start cmd] } := by
      refine ⟨?_, hm.careful.start hm.mon ha hr⟩
      show monitor crc (h.wire ++ [.start cmd]) = _
      rw [monitor_append, hm.mon]
      rfl
    have hstarted : wps (started cmd) (fun _ t => At crc allowed (.ack (wants cmd) seen) t) (Stopped crc allowed) h := hstart
    exact hstarted.bind (fun _ t ht => (transferOut_at ht p _).bind (fun _ u hu => expectAck_at hu))

/-- The bytes of a response end the wait for it. -/
theorem input_data (crc : UInt32) (w : Want) (sum : UInt8) (seen : Bool) (got data : List UInt8)
    (hlen : got.length + data.length = w.size) (hne : data ≠ []) :
    data.foldl (fun m b => Mon.input crc b m) (.data w sum got seen) =
      if checksum (got ++ data) = sum ∧ got ++ data = w.expected crc then .ready (seen || decide (w = .crc)) else .bad := by
  -- the last byte is judged with all that came before it
  induction data generalizing got with
  | nil => exact absurd rfl hne
  | cons b data ih =>
    rw [List.length_cons] at hlen
    rw [List.foldl_cons, Mon.input]
    cases data with
    | nil =>
      rw [List.length_nil] at hlen
      rw [if_neg (by omega)]
      rfl
    | cons b' data =>
      rw [List.length_cons] at hlen
      have hnext := ih (got ++ [b]) (by rw [List.length_append, List.length_singleton, List.length_cons]; omega) (by simp)
      rw [List.append_assoc] at hnext
      rw [if_pos (by omega)]
      exact hnext

theorem response_at {w : Want} {seen : Bool} {h : Host σ} (hm : At crc allowed (.len w seen) h) (p : Peer σ) :
    wps (response p w.size) (fun data t => data.length = w.size ∧
      At crc allowed (if data = w.expected crc then .ready (seen || decide (w = .crc)) else .bad) t)
      (Stopped crc allowed) h := by
  have hz : Mon.input crc 0 (.len w seen) = .len w seen := rfl
  refine (nonzero_at hz hm).bind ?_
  rintro len t ⟨hne, ht⟩
  by_cases hlen : len.toNat ≠ w.size + 2
  · rw [if_pos hlen]
    exact ht.careful
  rw [if_neg hlen]
  have hsum : Mon.input crc len (.len w seen) = .sum w seen := by
    simp only [Mon.input]
    rw [if_neg hne, if_pos (not_not.1 hlen)]
  rw [hsum] at ht
  refine (transferIn_at ht 1).bind ?_
  rintro sum u ⟨hs, hu⟩
  obtain ⟨s, rfl⟩ := List.length_eq_one_iff.1 hs
  have hu : At crc allowed (.data w s [] seen) u := hu
  refine (transferIn_at hu w.size).bind ?_
  rintro data v ⟨hd, hv⟩
  have hnil : data ≠ [] := by
    rintro rfl
    cases w <;> simp [Want.size] at hd
  rw [input_data crc w s seen [] data (by rw [List.length_nil, hd, Nat.zero_add]) hnil, List.nil_append] at hv
  by_cases hc : [s] ≠ [checksum data]
  · rw [if_pos hc]
    exact (transferOut_at hv p [nack]).bind (fun _ x hx => hx.careful)
  · rw [if_neg hc]
    have hsc : checksum data = s := ((List.cons.inj (not_not.1 hc)).1).symm
    refine (transferOut_at hv p [ack]).bind (fun _ x hx => (wps_pure _ _ _ _).2 ⟨hd, ?_⟩)
    simpa [hsc] using hx

theorem status_at {seen : Bool} {h : Host σ} (hm : At crc allowed (.ready seen) h) (p : Peer σ) (ha : allowed 0x23) :
    wps (status p) (fun _ t => At crc allowed (.ready seen) t) (Stopped crc allowed) h := by
  refine (command_at hm p [] ha (fun h => absurd h (by decide))).bind (fun _ t ht => ?_)
  have ht : At crc allowed (.len .status seen) t := ht
  refine (response_at ht p).bind ?_
  rintro s u ⟨-, hu⟩
  by_cases hs : s ≠ [0x40]
  · rw [if_pos hs]
    exact hu.careful
  · rw [if_neg hs]
    rw [if_pos (not_not.1 hs : s = Want.expected crc .status)] at hu
    simpa using hu

/-! ## The whole program -/

theorem be32_bytes (v : UInt32) : leNat (be32 v).reverse = v.toNat := by
  have := v.toNat_lt
  simp only [be32, List.reverse_cons, List.reverse_nil, List.nil_append, List.cons_append, leNat, UInt32.toNat_toUInt8,
    UInt32.toNat_shiftRight, Nat.shiftRight_eq_div_pow, show UInt32.toNat 8 % 32 = 8 from rfl,
    show UInt32.toNat 16 % 32 = 16 from rfl, show UInt32.toNat 24 % 32 = 24 from rfl]
  omega

theorem leNat_inj {a b : List UInt8} (hlen : a.length = b.length) (h : leNat a = leNat b) : a = b := by
  induction a generalizing b with
  | nil => exact (List.length_eq_zero_iff.1 hlen.symm).symm
  | cons x a ih =>
    obtain ⟨y, b, rfl⟩ := List.exists_cons_of_length_eq_add_one hlen.symm
    have hx := x.toNat_lt
    have hy := y.toNat_lt
    have heq : x.toNat + 256 * leNat a = y.toNat + 256 * leNat b := h
    obtain rfl : x = y := UInt8.toNat_inj.1 (by omega)
    rw [ih (Nat.succ.inj hlen) (by omega)]

/-- The four bytes that pass the comparison are those of the CRC. -/
theorem eq_be32 {result : List UInt8} {v : UInt32} (hlen : result.length = 4) (h : leNat result.reverse = v.toNat) :
    result = be32 v := by
  apply List.reverse_injective
  apply leNat_inj
  · rw [List.length_reverse, List.length_reverse, hlen]
    rfl
  · rw [h, be32_bytes]

theorem programLoop_at {seen : Bool} (p : Peer σ) (image : List UInt8) (off : Nat) {h : Host σ}
    (hm : At crc allowed (.ready seen) h) (hs : allowed 0x23) (hd : allowed 0x24) :
    wps (programLoop p image off) (fun _ t => At crc allowed (.ready seen) t) (Stopped crc allowed) h := by
  fun_induction programLoop p image off generalizing h with
  | case1 off hlt ih =>
    refine (command_at hm p _ hd (fun h => absurd h (by decide))).bind (fun _ t ht => ?_)
    exact (status_at ht p hs).bind (fun _ u hu => ih hu)
  | case2 off hge => exact hm

/-- The commands of a mode. -/
def Allowed (verify : Bool) (cmd : UInt8) : Prop := verify = true → cmd ≠ 0x2c ∧ cmd ≠ 0x21 ∧ cmd ≠ 0x24

theorem programUnless_at {seen : Bool} (p : Peer σ) (verify : Bool) (image : List UInt8) {h : Host σ}
    (hm : At crc (Allowed verify) (.ready seen) h) :
    wps (programUnless p verify image) (fun _ t => At crc (Allowed verify) (.ready seen) t)
      (Stopped crc (Allowed verify)) h := by
  unfold programUnless
  cases verify with
  | true => exact hm
  | false =>
    have hall (cmd : UInt8) : Allowed false cmd := fun h => absurd h (by decide)
    refine (command_at hm p [] (hall 0x2c) (fun h => absurd h (by decide))).bind (fun _ t ht => ?_)
    refine (status_at ht p (hall 0x23)).bind (fun _ u hu => ?_)
    refine (command_at hu p _ (hall 0x21) (fun h => absurd h (by decide))).bind (fun _ v hv => ?_)
    exact (status_at hv p (hall 0x23)).bind (fun _ x hx => programLoop_at p image 0 hx (hall 0x23) (hall 0x24))

theorem session_at (p : Peer σ) (verify : Bool) (image : List UInt8) {h : Host σ}
    (hm : At (crc32 image) (Allowed verify) (.ack none false) h) :
    wps (session p verify image) (fun _ t => At (crc32 image) (Allowed verify) (.ready true) t)
      (Stopped (crc32 image) (Allowed verify)) h := by
  have hall {cmd : UInt8} (h₁ : cmd ≠ 0x2c) (h₂ : cmd ≠ 0x21) (h₃ : cmd ≠ 0x24) : Allowed verify cmd :=
    fun _ => ⟨h₁, h₂, h₃⟩
  unfold session
  refine (transferOut_at hm p _).bind (fun _ t₁ h₁ => (expectAck_at h₁).bind (fun _ t₂ h₂ => ?_))
  refine (status_at h₂ p (hall (by decide) (by decide) (by decide))).bind (fun _ t₃ h₃ => ?_)
  refine (programUnless_at p verify image h₃).bind (fun _ t₄ h₄ => ?_)
  refine (command_at h₄ p _ (hall (by decide) (by decide) (by decide)) (fun h => absurd h (by decide))).bind
    (fun _ t₅ h₅ => ?_)
  have h₅ : At (crc32 image) (Allowed verify) (.len .crc false) t₅ := h₅
  refine (response_at h₅ p).bind ?_
  rintro result t₆ ⟨hlen, h₆⟩
  have hcompare : wps (compareCrc result (crc32 image)) (fun _ t => At (crc32 image) (Allowed verify) (.ready true) t)
      (Stopped (crc32 image) (Allowed verify)) t₆ := by
    unfold compareCrc
    by_cases heq : leNat result.reverse = (crc32 image).toNat
    · have hres : result = Want.expected (crc32 image) .crc := eq_be32 hlen heq
      rw [if_pos hres] at h₆
      rw [if_neg (not_not.2 heq)]
      exact h₆
    · rw [if_pos heq]
      exact h₆.careful
  refine hcompare.bind (fun _ t₇ h₇ => ?_)
  exact command_at h₇ p [] (hall (by decide) (by decide) (by decide)) (fun _ => rfl)

/-- **No bad flash is certified.** Whatever machine the target is, whatever
bytes wait to be read and however they arrive, in both modes: a command is
started only where the synchronisation and every command before it were
answered well, the reset only where the CRC was as well, and so is exit code 0;
after a bad answer no command is started; and to verify, nothing is erased or
written. -/
theorem main_certifies (p : Peer σ) (target : σ) (rx : List UInt8) (attempts : List Attempt) (verify : Bool)
    (file : List UInt8) :
    let run := (main p verify file).run ⟨target, rx, attempts, []⟩
    let crc := crc32 (padded file)
    (∀ pre cmd post, run.2.wire = pre ++ .start cmd :: post →
        ∃ seen, monitor crc pre = .ready seen ∧ (cmd = 0x25 → seen = true)) ∧
      (run.1 = some () → monitor crc run.2.wire = .ready true) ∧
      (∀ pre post, run.2.wire = pre ++ post → monitor crc pre = .bad → ∀ cmd, .start cmd ∉ post) ∧
      (verify = true → ∀ cmd, .start cmd ∈ run.2.wire → cmd ≠ 0x2c ∧ cmd ≠ 0x21 ∧ cmd ≠ 0x24) := by
  intro run crc
  have hboth : Careful crc (Allowed verify) run.2.wire ∧ (run.1 = some () → monitor crc run.2.wire = .ready true) := by
    have hmain : wps (main p verify file) (fun _ t => At crc (Allowed verify) (.ready true) t)
        (Stopped crc (Allowed verify)) ⟨target, rx, attempts, []⟩ := by
      unfold main
      split
      · exact careful_nil
      · exact session_at p verify (padded file) ⟨rfl, careful_nil⟩
    unfold wps wp at hmain
    cases hr : run.1 with
    | none =>
      rw [hr] at hmain
      exact ⟨hmain, by simp⟩
    | some u =>
      rw [hr] at hmain
      exact ⟨hmain.careful, fun _ => hmain.mon⟩
  obtain ⟨hcareful, hexit⟩ := hboth
  refine ⟨fun pre cmd post heq => (hcareful pre cmd post heq).2, hexit, ?_, ?_⟩
  · intro pre post heq hbad cmd hmem
    obtain ⟨a, b, rfl⟩ := List.append_of_mem hmem
    obtain ⟨-, seen, hready, -⟩ := hcareful (pre ++ a) cmd b (by rw [heq, List.append_assoc])
    rw [monitor_bad hbad] at hready
    simp at hready
  · intro hv cmd hmem
    obtain ⟨a, b, heq⟩ := List.append_of_mem hmem
    exact (hcareful a cmd b heq).1 hv

end AlgaeBp.Flash
