import AlgaeBp.Flash.Rom
/-!
# Flashing against the ROM

With a bootloader that does its part, and a line that only delays, the image
arrives: the loop over the flash keeps the part programmed so far equal to that
part of the image.
-/
open Bytes StateWp

namespace AlgaeBp.Flash

/-! ## Chunks -/

/-- Data that follow each other from an address on, not empty, of at most 252 bytes and whole words. -/
def Contiguous : Nat → List (Nat × List UInt8) → Prop
  | _, [] => True
  | addr, (a, d) :: rest => a = addr ∧ d ≠ [] ∧ d.length ≤ 252 ∧ 4 ∣ d.length ∧ Contiguous (addr + d.length) rest

def contents (chunks : List (Nat × List UInt8)) : List UInt8 := chunks.flatMap Prod.snd

theorem Contiguous.append {addr : Nat} {l : List (Nat × List UInt8)} {a : Nat} {d : List UInt8} (h : Contiguous addr l)
    (ha : a = addr + (contents l).length) (hne : d ≠ []) (hd : d.length ≤ 252) (h4 : 4 ∣ d.length) :
    Contiguous addr (l ++ [(a, d)]) := by
  induction l generalizing addr with
  | nil => exact ⟨ha, hne, hd, h4, trivial⟩
  | cons x l ih =>
    obtain ⟨hx, hxne, hxd, hx4, hrest⟩ := h
    refine ⟨hx, hxne, hxd, hx4, ih hrest ?_⟩
    rw [ha, contents, List.flatMap_cons, List.length_append, Nat.add_assoc]
    rfl

/-! ## Programming -/

theorem flashSize_eq : flashSize = 720896 := rfl

/-- The flash holds the image up to an offset and is erased behind it. -/
structure Programmed (image : List UInt8) (off : Nat) (m : Memory) : Prop where
  flash : m.flash = image.take off ++ List.replicate (flashSize - off) 0xff
  addr : m.addr = off
  remaining : m.remaining = flashSize - off
  resets : m.resets = 0
  contiguous : Contiguous 0 m.chunks
  chunks : contents m.chunks = image.take off

theorem take_add_take {α : Type} (l : List α) (a b : Nat) : l.take a ++ (l.drop a).take b = l.take (a + b) :=
  List.take_add.symm

/-- One packet of data. -/
theorem Programmed.next {image : List UInt8} (hi : image.length = flashSize) {off n : Nat} {m : Memory}
    (h : Programmed image off m) (hn : 0 < n) (hn' : n ≤ 252) (hoff : off + n ≤ flashSize) (h4 : 4 ∣ n) :
    Programmed image (off + n) (m.exec 0x24 ((image.drop off).take n)) := by
  have hlen : ((image.drop off).take n).length = n := by
    rw [List.length_take, List.length_drop]
    omega
  have hto : (image.take off).length = off := by
    rw [List.length_take]
    omega
  have hcat := take_add_take image off n
  have hexec : m.exec 0x24 ((image.drop off).take n) =
      { m with
        flash := m.flash.take m.addr ++ (image.drop off).take n ++ m.flash.drop (m.addr + ((image.drop off).take n).length)
        addr := m.addr + ((image.drop off).take n).length
        remaining := m.remaining - ((image.drop off).take n).length
        chunks := m.chunks ++ [(m.addr, (image.drop off).take n)] } := rfl
  rw [hexec, hlen, h.addr]
  refine ⟨?_, rfl, ?_, h.resets, ?_, ?_⟩
  · show m.flash.take off ++ (image.drop off).take n ++ m.flash.drop (off + n) = _
    rw [h.flash, List.take_left' hto, hcat, ← List.drop_drop, List.drop_left' hto, List.drop_replicate, Nat.sub_sub]
  · show m.remaining - n = _
    rw [h.remaining, Int.natCast_add, Int.sub_sub]
  · refine h.contiguous.append ?_ ?_ (by omega) (by rw [hlen]; exact h4)
    · rw [h.chunks, hto, Nat.zero_add]
    · intro h0
      rw [h0, List.length_nil] at hlen
      omega
  · show contents (m.chunks ++ [(off, _)]) = _
    rw [contents, List.flatMap_append, ← contents, h.chunks, ← hcat]
    simp

theorem programLoop_rest {idle : Nat → Nat} {image : List UInt8} (hi : image.length = flashSize) (off : Nat) (h4 : 4 ∣ off)
    (hle : off ≤ flashSize + 251) {m : Memory} (hm : Programmed image (min off flashSize) m) {h : Host Rom} (ht : Rest m h) :
    wps (programLoop (rom idle) image off) (fun _ t => ∃ m, Programmed image flashSize m ∧ Rest m t) Never h := by
  -- after each round the image up to `off` is in the flash, contiguous and aligned
  fun_induction programLoop (rom idle) image off generalizing m h with
  | case1 off hlt ih =>
    have hsize := flashSize_eq
    have hn : 4 ∣ min (flashSize - off) 252 := by omega
    rw [Nat.min_eq_left hlt.le] at hm
    have hlen : ((image.drop off).take (min (flashSize - off) 252)).length ≤ 252 := by
      rw [List.length_take]
      omega
    have hnext := hm.next hi (n := min (flashSize - off) 252) (by omega) (by omega) (by omega) hn
    refine (command_rest ht hlen rfl).bind (fun _ t ht => (status_rest ht).bind (fun _ u hu => ?_))
    refine ih (by omega) (by omega) ?_ hu
    have heq : off + min (flashSize - off) 252 = min (off + 252) flashSize := by omega
    rw [heq] at hnext
    exact hnext
  | case2 off hge =>
    rw [Nat.min_eq_right (by omega)] at hm
    exact ⟨m, hm, ht⟩

theorem length_be32 (v : UInt32) : (be32 v).length = 4 := rfl

theorem word32_be32 (v : UInt32) (rest : List UInt8) : word32 (be32 v ++ rest) = v.toNat := by
  unfold word32
  rw [List.take_left' (length_be32 v), be32_bytes]

/-! ## The whole session -/

theorem sync_rest {idle : Nat → Nat} {flash : List UInt8} {h : Host Rom} (ht : Talk (Rom.init flash) [] h) {β : Type}
    {k : M Rom β} {Q : β → Host Rom → Prop} (hk : ∀ t, Rest ⟨flash, 0, 0, 0, []⟩ t → wps k Q Never t) :
    wps (do transferOut (rom idle) [0x55, 0x55]; expectAck; k) Q Never h := by
  refine (transferOut_talk ht [0x55, 0x55]).bind (fun _ t ht => ?_)
  have hfeed : (rom idle).feedAll (Rom.init flash) [0x55, 0x55] =
      (⟨true, [], false, 1, ⟨flash, 0, 0, 0, []⟩⟩, zeros (idle 0) ++ ack :: []) := by
    simp [Peer.feedAll, rom, Rom.feed, Rom.init]
  rw [hfeed, List.nil_append] at ht
  exact (expectAck_talk ht).bind (fun _ u hu => hk u ⟨_, ⟨rfl, rfl, rfl⟩, rfl, hu⟩)

theorem program_rest {idle : Nat → Nat} {image : List UInt8} (hi : image.length = flashSize) {flash : List UInt8}
    {h : Host Rom} (ht : Rest ⟨flash, 0, 0, 0, []⟩ h) :
    wps (program (rom idle) image) (fun _ t => ∃ m, Programmed image flashSize m ∧ Rest m t) Never h := by
  have hzero := word32_be32 0 (be32 (UInt32.ofNat flashSize))
  have hsize : word32 ((be32 0 ++ be32 (UInt32.ofNat flashSize)).drop 4) = flashSize := by
    rw [List.drop_left' (length_be32 0), ← List.append_nil (be32 (UInt32.ofNat flashSize)), word32_be32, UInt32.toNat_ofNat',
      flashSize_eq]
  refine (command_rest ht (Nat.zero_le _) rfl).bind (fun _ t₁ h₁ => (status_rest h₁).bind (fun _ t₂ h₂ => ?_))
  refine (command_rest h₂ (by decide) rfl).bind (fun _ t₃ h₃ => (status_rest h₃).bind (fun _ t₄ h₄ => ?_))
  refine programLoop_rest hi 0 (Nat.dvd_zero 4) (Nat.zero_le _) ?_ h₄
  rw [Nat.zero_min]
  refine ⟨?_, hzero, ?_, rfl, trivial, ?_⟩
  · rw [List.take_zero, Nat.sub_zero]
    rfl
  · show (word32 ((be32 0 ++ be32 (UInt32.ofNat flashSize)).drop 4) : Int) = flashSize - (0 : Nat)
    rw [hsize, Int.natCast_zero, Int.sub_zero]
  · rw [List.take_zero]
    rfl

/-- The CRC of a flash that holds the image. -/
theorem reply_crc {image : List UInt8} (hi : image.length = flashSize) {m : Memory} (hm : Programmed image flashSize m) :
    m.reply 0x27 (be32 0 ++ be32 (UInt32.ofNat flashSize) ++ be32 0) = some (be32 (crc32 image)) := by
  have hflash : m.flash = image := by
    rw [hm.flash, Nat.sub_self, List.replicate_zero, List.append_nil, List.take_of_length_le hi.le]
  have haddr : word32 (be32 0 ++ be32 (UInt32.ofNat flashSize) ++ be32 0) = 0 := by
    rw [List.append_assoc, word32_be32]
    rfl
  have hsize : word32 ((be32 0 ++ be32 (UInt32.ofNat flashSize) ++ be32 0).drop 4) = flashSize := by
    rw [List.append_assoc, List.drop_left' (length_be32 0), word32_be32, UInt32.toNat_ofNat', flashSize_eq]
  have hdone : m.remaining = 0 := by rw [hm.remaining, Int.sub_self]
  have hask : (0x27 : UInt8) = 0x27 ∧ m.remaining = 0 := ⟨rfl, hdone⟩
  unfold Memory.reply
  rw [if_neg (by decide), if_pos hask, haddr, hsize, hflash, List.drop_zero, List.take_of_length_le hi.le]

/-- A flash that holds the image, after one reset. -/
structure Flashed (image : List UInt8) (m : Memory) : Prop where
  flash : m.flash = image
  resets : m.resets = 1
  contiguous : Contiguous 0 m.chunks
  chunks : contents m.chunks = image

theorem session_rest {idle : Nat → Nat} {image : List UInt8} (hi : image.length = flashSize) {flash : List UInt8}
    {h : Host Rom} (ht : Talk (Rom.init flash) [] h) :
    wps (session (rom idle) false image) (fun _ t => Flashed image t.target.mem) Never h := by
  refine sync_rest ht (fun t₁ h₁ => (status_rest h₁).bind (fun _ t₂ h₂ => ?_))
  refine (program_rest hi h₂).bind ?_
  rintro - t₃ ⟨m, hm, h₃⟩
  refine asked_rest h₃ (by decide) (reply_crc hi hm) (by rw [length_be32]; decide) (fun t₄ h₄ => ?_)
  have hcompare : wps (compareCrc (be32 (crc32 image)) (crc32 image)) (fun _ t => Rest m t) Never t₄ := by
    unfold compareCrc
    rw [if_neg (not_not.2 (be32_bytes _))]
    exact h₄
  refine hcompare.bind (fun _ t₅ h₅ => (command_rest h₅ (Nat.zero_le _) rfl).mono ?_)
  rintro - t₆ ⟨r, -, hr, h₆⟩
  rw [h₆.target, hr]
  refine ⟨?_, ?_, hm.contiguous, ?_⟩
  · show m.flash = image
    rw [hm.flash, Nat.sub_self, List.replicate_zero, List.append_nil, List.take_of_length_le hi.le]
  · show m.resets + 1 = 1
    rw [hm.resets]
  · show contents m.chunks = image
    rw [hm.chunks, List.take_of_length_le hi.le]

/-- **The image arrives.** For every image that fits, whatever the flash held,
however reads and writes are cut up and however many zeros the ROM sends: the
program ends with exit code 0 and one reset of the target, the flash holds the
image filled up with FF, and the data came in contiguous packets of at most 252
bytes, in whole words, that are the filled image. -/
theorem main_flashes (idle : Nat → Nat) (flash : List UInt8) (file : List UInt8) (hpos : 1 ≤ file.length)
    (hmax : file.length ≤ 720896) (attempts : List Attempt) (hb : Benign attempts) :
    let run := (main (rom idle) false file).run ⟨Rom.init flash, [], attempts, []⟩
    run.1 = some () ∧ run.2.target.mem.resets = 1 ∧
      run.2.target.mem.flash = file ++ List.replicate (720896 - file.length) 0xff ∧
      Contiguous 0 run.2.target.mem.chunks ∧
      contents run.2.target.mem.chunks = file ++ List.replicate (720896 - file.length) 0xff := by
  intro run
  have hsize := flashSize_eq
  have hlen : (padded file).length = flashSize := by
    rw [padded, List.length_append, List.length_replicate]
    omega
  have hmain : wps (main (rom idle) false file) (fun _ t => Flashed (padded file) t.target.mem) Never
      ⟨Rom.init flash, [], attempts, []⟩ := by
    unfold main
    rw [if_neg (by omega)]
    exact session_rest hlen ⟨rfl, rfl, hb⟩
  unfold wps wp at hmain
  cases hr : run.1 with
  | none =>
    rw [hr] at hmain
    exact hmain.elim
  | some u =>
    rw [hr] at hmain
    exact ⟨rfl, hmain.resets, hmain.flash, hmain.contiguous, hmain.chunks⟩

/-- One byte of firmware, a line that interrupts and cuts, two zeros before each answer. -/
theorem main_flashes_one :
    let run := (main (rom (fun _ => 2)) false [0x42]).run ⟨Rom.init [], [], [.again, .count 1], []⟩
    run.1 = some () ∧ run.2.target.mem.resets = 1 ∧
      run.2.target.mem.flash = [0x42] ++ List.replicate (720896 - 1) 0xff :=
  have h := main_flashes (fun _ => 2) [] [0x42] (by decide) (by decide) [.again, .count 1]
    (by simp [Benign])
  ⟨h.1, h.2.1, h.2.2.1⟩

end AlgaeBp.Flash
