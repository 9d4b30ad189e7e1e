import AlgaeBp.Flash.Monitor
/-!
# What the flasher sends

Whatever the target answers, what the program sends is the two bytes that
synchronise, whole packets, each behind the start of its command, ACKs and
NACKs. Only where the program gives up may the last of these be cut short.
-/
open Bytes StateWp

namespace AlgaeBp.Flash

/-! ## Whole messages -/

/-- Among the bytes that come, whole messages are sent, and nothing else. -/
inductive Framed : List Event → Prop where
  | nil : Framed []
  | got {wire : List Event} (data : List UInt8) : Framed wire → Framed (wire ++ data.map .got)
  | sync {wire : List Event} : Framed wire → Framed (wire ++ [0x55, 0x55].map .sent)
  | answer {wire : List Event} {b : UInt8} : b = ack ∨ b = nack → Framed wire → Framed (wire ++ [b].map .sent)
  | packet {wire : List Event} {cmd : UInt8} {data : List UInt8} : data.length ≤ 252 → Framed wire →
      Framed (wire ++ [.start cmd] ++ (packet cmd data).map .sent)

/-- A packet of the command comes first. -/
def Leads (cmd : UInt8) (wire : List Event) : Prop :=
  ∃ data rest, data.length ≤ 252 ∧ wire = (packet cmd data).map .sent ++ rest

/-- What starts no command comes behind what has been started. -/
theorem leads_append {wire v pre post : List Event} {cmd : UInt8} (hv : ∀ cmd, .start cmd ∉ v)
    (hwire : ∀ post, wire = pre ++ .start cmd :: post → Leads cmd post) (heq : wire ++ v = pre ++ .start cmd :: post) :
    Leads cmd post := by
  obtain ⟨mid, hmid, rfl⟩ := start_split hv heq
  obtain ⟨data, rest, hlen, rfl⟩ := hwire mid hmid
  exact ⟨data, rest ++ v, hlen, List.append_assoc ..⟩

/-- Behind the start of a command there is its packet. -/
theorem Framed.start {wire pre post : List Event} {cmd : UInt8} (h : Framed wire)
    (heq : wire = pre ++ .start cmd :: post) : Leads cmd post := by
  induction h generalizing post with
  | nil => simp at heq
  | got data _ ih => exact leads_append (no_start_got data) (fun _ => ih) heq
  | sync _ ih => exact leads_append (no_start_sent _) (fun _ => ih) heq
  | answer _ _ ih => exact leads_append (no_start_sent _) (fun _ => ih) heq
  | packet hdata _ ih =>
    obtain ⟨mid, hwire, rfl⟩ := start_split (no_start_sent _) heq
    rcases List.eq_nil_or_concat mid with rfl | ⟨mid, e, rfl⟩
    · -- it is the last command
      obtain ⟨-, hcmd⟩ := List.append_inj' hwire rfl
      obtain rfl := Event.start.inj (List.cons.inj hcmd).1
      exact ⟨_, [], hdata, by rw [List.append_nil, List.nil_append]⟩
    · rw [List.concat_eq_append, ← List.cons_append, ← List.append_assoc] at hwire
      obtain ⟨hwire, -⟩ := List.append_inj' hwire rfl
      obtain ⟨d, rest, hlen, rfl⟩ := ih hwire
      exact ⟨d, _, hlen, by rw [List.concat_eq_append, List.append_assoc, List.append_assoc]⟩

/-! ## The program -/

/-- The program may have given up in the middle of a message. -/
def Exited (wire : List Event) : Prop := ∃ whole, Framed whole ∧ wire <+: whole

theorem Framed.exited {wire : List Event} (h : Framed wire) : Exited wire := ⟨wire, h, List.prefix_rfl⟩

variable {σ α β : Type}

/-- The code goes from whole messages to whole messages. -/
def Frames (m : M σ α) : Prop := ∀ h, Framed h.wire → wps m (fun _ t => Framed t.wire) (fun t => Exited t.wire) h

theorem frames_pure (a : α) : Frames (pure a : M σ α) := fun _ h => h

theorem frames_failure : Frames (failure : M σ α) := fun _ h => h.exited

theorem Frames.bind {m : M σ α} {f : α → M σ β} (hm : Frames m) (hf : ∀ a, Frames (f a)) : Frames (m >>= f) :=
  fun h hw => (hm h hw).bind (fun a t ht => hf a t ht)

theorem Frames.ite {c : Prop} [Decidable c] {m m' : M σ α} (hm : Frames m) (hm' : Frames m') :
    Frames (if c then m else m') := by
  split
  · exact hm
  · exact hm'

theorem frames_transferIn (len : Nat) : Frames (transferIn len : M σ (List UInt8)) := by
  intro h hw
  unfold wps transferIn wp
  simp only [OptionT.run, OptionT.mk]
  cases (readAttempts h.attempts h.rx len).2.1 with
  | false => exact (hw.got _).exited
  | true => exact hw.got _

/-- A message is sent whole, or the program exits. -/
theorem transferOut_frames (p : Peer σ) (data : List UInt8) {h : Host σ} (hw : Framed (h.wire ++ data.map .sent)) :
    wps (transferOut p data) (fun _ t => Framed t.wire) (fun t => Exited t.wire) h := by
  unfold wps transferOut wp
  simp only [OptionT.run, OptionT.mk]
  split
  · rename_i heq
    split at heq
    · next hall =>
      rw [hall, List.take_length]
      exact hw
    · simp at heq
  · refine ⟨_, hw, (List.prefix_append_right_inj _).2 ?_⟩
    exact (List.take_prefix _ data).map _

theorem frames_answer (p : Peer σ) {b : UInt8} (hb : b = ack ∨ b = nack) : Frames (transferOut p [b]) :=
  fun _ hw => transferOut_frames p [b] (hw.answer hb)

theorem frames_nonzero : Frames (nonzero : M σ UInt8) := by
  have hloop (n : Nat) : Frames (nonzeroLoop n : M σ UInt8) := by
    induction n with
    | zero => exact frames_failure
    | succ n ih => exact (frames_transferIn 1).bind (fun b => ih.ite (frames_pure _))
  exact fun h hw => hloop (h.rx.length + 1) h hw

theorem frames_expectAck : Frames (expectAck : M σ Unit) :=
  frames_nonzero.bind (fun _ => frames_failure.ite (frames_pure _))

theorem frames_command (p : Peer σ) (cmd : UInt8) (data : List UInt8) : Frames (command p cmd data) := by
  unfold command
  split
  · exact frames_failure
  · next hlen =>
    intro h hw
    have hstarted : wps (started cmd) (fun _ t => t.wire = h.wire ++ [.start cmd]) (fun t => Exited t.wire) h := rfl
    refine hstarted.bind (fun _ t ht => ?_)
    have hpacket : Framed (t.wire ++ (packet cmd data).map .sent) := ht ▸ hw.packet (Nat.not_lt.1 hlen)
    exact (transferOut_frames p (packet cmd data) hpacket).bind (fun _ u hu => frames_expectAck u hu)

theorem frames_response (p : Peer σ) (n : Nat) : Frames (response p n) := by
  refine frames_nonzero.bind (fun _ => frames_failure.ite ((frames_transferIn 1).bind
    (fun _ => (frames_transferIn n).bind (fun _ => ?_))))
  exact ((frames_answer p (.inr rfl)).bind (fun _ => frames_failure)).ite ((frames_answer p (.inl rfl)).bind
    (fun _ => frames_pure _))

theorem frames_status (p : Peer σ) : Frames (status p) :=
  (frames_command p 0x23 []).bind (fun _ => (frames_response p 1).bind (fun _ => frames_failure.ite (frames_pure _)))

theorem frames_programLoop (p : Peer σ) (image : List UInt8) (off : Nat) : Frames (programLoop p image off) := by
  fun_induction programLoop p image off with
  | case1 off hlt ih => exact (frames_command p 0x24 _).bind (fun _ => (frames_status p).bind (fun _ => ih))
  | case2 off hge => exact frames_pure _

theorem frames_program (p : Peer σ) (image : List UInt8) : Frames (program p image) := by
  refine (frames_command p 0x2c []).bind (fun _ => (frames_status p).bind (fun _ => ?_))
  exact (frames_command p 0x21 _).bind (fun _ => (frames_status p).bind (fun _ => frames_programLoop p image 0))

theorem frames_session (p : Peer σ) (verify : Bool) (image : List UInt8) : Frames (session p verify image) := by
  intro h hw
  refine (transferOut_frames p [0x55, 0x55] hw.sync).bind (fun _ t ht => ?_)
  have hcompare (result : List UInt8) : Frames (compareCrc result (crc32 image) : M σ Unit) :=
    frames_failure.ite (frames_pure _)
  have hrest := (frames_expectAck (σ := σ)).bind (fun _ => (frames_status p).bind (fun _ =>
    ((frames_pure ()).ite (frames_program p image) : Frames (programUnless p verify image)).bind (fun _ =>
      (frames_command p 0x27 (be32 0 ++ be32 (UInt32.ofNat flashSize) ++ be32 0)).bind (fun _ =>
        (frames_response p 4).bind (fun result =>
          (hcompare result).bind (fun _ => frames_command p 0x25 []))))))
  exact hrest t ht

/-- **Nothing but packets, ACKs and NACKs is sent** after the synchronisation,
whatever machine the target is and in both modes: the wire is that of whole
messages, of which the last is cut short only where the program gives up, and
a command that is started goes out as its packet as far as the wire goes. -/
theorem main_sends (p : Peer σ) (target : σ) (rx : List UInt8) (attempts : List Attempt)
    (verify : Bool) (file : List UInt8) :
    let run := (main p verify file).run ⟨target, rx, attempts, []⟩
    (run.1.isSome = true → Framed run.2.wire) ∧ Exited run.2.wire ∧
      ∀ pre cmd post, run.2.wire = pre ++ .start cmd :: post → ∃ data rest : List _, data.length ≤ 252 ∧
        post <+: (packet cmd data).map .sent ++ rest := by
  intro run
  have hmain : Frames (main p verify file) := by
    unfold main
    exact frames_failure.ite (frames_session p verify (padded file))
  have hends := hmain ⟨target, rx, attempts, []⟩ .nil
  unfold wps wp at hends
  have hframed : run.1.isSome = true → Framed run.2.wire := by
    intro hsome
    obtain ⟨u, hr⟩ := Option.isSome_iff_exists.1 hsome
    rw [hr] at hends
    exact hends
  have hexited : Exited run.2.wire := by
    cases hr : run.1 with
    | none =>
      rw [hr] at hends
      exact hends
    | some u => exact (hframed (by rw [hr]; rfl)).exited
  refine ⟨hframed, hexited, fun pre cmd post heq => ?_⟩
  obtain ⟨whole, hwhole, more, rfl⟩ := hexited
  rw [heq, List.append_assoc] at hwhole
  obtain ⟨data, rest, hlen, hpost⟩ := hwhole.start rfl
  exact ⟨data, rest, hlen, more, hpost⟩

end AlgaeBp.Flash
