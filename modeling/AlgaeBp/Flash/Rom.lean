import AlgaeBp.Flash.Monitor
/-!
# The ROM bootloader

A target that acknowledges well-formed packets, executes them and has only
good news. Before an ACK or the length of a response it may send zeros: `idle n`
of them before the `n`-th.
-/
open Bytes StateWp

namespace AlgaeBp.Flash

/-! ## The target -/

/-- What the commands work on. -/
structure Memory where
  flash : List UInt8
  /-- Where the next data go. -/
  addr : Nat
  /-- How many bytes of the download are still to come. -/
  remaining : Int
  resets : Nat
  /-- The data received, with the address each went to. -/
  chunks : List (Nat × List UInt8)
  deriving DecidableEq

structure Rom where
  synced : Bool
  /-- The packet received so far. -/
  buf : List UInt8
  /-- A response was sent and is not acknowledged yet. -/
  replying : Bool
  /-- The answers so far. -/
  answers : Nat
  mem : Memory
  deriving DecidableEq

def zeros (n : Nat) : List UInt8 := List.replicate n 0

/-- A number of four bytes, high byte first. -/
def word32 (data : List UInt8) : Nat := leNat (data.take 4).reverse

/-- What a command does to the memory. -/
def Memory.exec (m : Memory) (cmd : UInt8) (data : List UInt8) : Memory :=
  if cmd = 0x2c then { m with flash := List.replicate flashSize 0xff }
  else if cmd = 0x21 then { m with addr := word32 data, remaining := word32 (data.drop 4) }
  else if cmd = 0x24 then
    { m with
      flash := m.flash.take m.addr ++ data ++ m.flash.drop (m.addr + data.length)
      addr := m.addr + data.length
      remaining := m.remaining - data.length
      chunks := m.chunks ++ [(m.addr, data)] }
  else if cmd = 0x25 then { m with resets := m.resets + 1 }
  else m

/-- The response to a command, if it has one. There is no CRC in the middle of a download. -/
def Memory.reply (m : Memory) (cmd : UInt8) (data : List UInt8) : Option (List UInt8) :=
  if cmd = 0x23 then some [0x40]
  else if cmd = 0x27 ∧ m.remaining = 0 then some (be32 (crc32 ((m.flash.drop (word32 data)).take (word32 (data.drop 4)))))
  else none

/-- The bytes of a response. -/
def replyBytes (idle : Nat) : Option (List UInt8) → List UInt8
  | none => []
  | some d => zeros idle ++ [UInt8.ofNat (d.length + 2), checksum d] ++ d

/-- A packet is complete. -/
def Rom.packet (idle : Nat → Nat) (r : Rom) (buf : List UInt8) : Rom × List UInt8 :=
  match buf with
  | len :: sum :: cmd :: data =>
    if len.toNat = buf.length ∧ sum = cmd + checksum data then
      let reply := r.mem.reply cmd data
      ({ r with buf := [], replying := reply.isSome, answers := r.answers + 2, mem := r.mem.exec cmd data },
        zeros (idle r.answers) ++ ack :: replyBytes (idle (r.answers + 1)) reply)
    else ({ r with buf := [] }, [nack])
  | _ => ({ r with buf := buf }, [])

def Rom.feed (idle : Nat → Nat) (r : Rom) (b : UInt8) : Rom × List UInt8 :=
  if r.replying then ({ r with replying := false }, [])
  else
    let buf := r.buf ++ [b]
    if r.synced = false then
      if buf = [0x55, 0x55] then
        ({ r with synced := true, buf := [], answers := r.answers + 1 }, zeros (idle r.answers) ++ [ack])
      else ({ r with buf := buf }, [])
    else if buf.length < 3 ∨ buf.length < (buf.headD 0).toNat then ({ r with buf := buf }, [])
    else r.packet idle buf

def rom (idle : Nat → Nat) : Peer Rom := ⟨Rom.feed idle⟩

/-- The target once it is in its bootloader. -/
def Rom.init (flash : List UInt8) : Rom := ⟨false, [], false, 0, ⟨flash, 0, 0, 0, []⟩⟩

/-! ## Calls that only wait -/

/-- The attempts get nowhere or on, but never fail. -/
def Benign (attempts : List Attempt) : Prop := ∀ a ∈ attempts, a = .again ∨ ∃ n, a = .count (n + 1)

theorem Benign.tail {a : Attempt} {attempts : List Attempt} (h : Benign (a :: attempts)) : Benign attempts :=
  fun x hx => h x (List.mem_cons_of_mem a hx)

theorem writeAttempts_benign {attempts : List Attempt} (h : Benign attempts) (len : Nat) :
    (writeAttempts attempts len).1 = len ∧ Benign (writeAttempts attempts len).2 := by
  fun_induction writeAttempts attempts len with
  | case1 attempts => exact ⟨rfl, h⟩
  | case2 len hne => exact ⟨rfl, h⟩
  | case3 attempts len hne ih => exact ih h.tail
  | case4 attempts len hne =>
    rcases h .failed List.mem_cons_self with h | ⟨n, h⟩
    · simp at h
    · simp at h
  | case5 n attempts len hne r hr =>
    rcases h (.count n) List.mem_cons_self with h | ⟨k, h⟩
    · simp at h
    · obtain rfl := Attempt.count.inj h
      have hlen : len ≠ 0 := hne
      have : min (k + 1) len = 0 := hr
      omega
  | case6 n attempts len hne r hr more attempts' heq ih =>
    have hle : r ≤ len := Nat.min_le_right _ _
    obtain ⟨h₁, h₂⟩ := ih h.tail
    rw [heq] at h₁ h₂
    refine ⟨?_, h₂⟩
    show r + more = len
    have : more = len - r := h₁
    omega

theorem readAttempts_benign {attempts : List Attempt} (h : Benign attempts) (rx : List UInt8) (len : Nat)
    (hlen : len ≤ rx.length) :
    (readAttempts attempts rx len).1 = rx.take len ∧ (readAttempts attempts rx len).2.1 = true ∧
      Benign (readAttempts attempts rx len).2.2 := by
  fun_induction readAttempts attempts rx len with
  | case1 attempts rx => exact ⟨by rw [List.take_zero], rfl, h⟩
  | case2 rx len hne => exact ⟨rfl, decide_eq_true hlen, h⟩
  | case3 attempts rx len hne ih => exact ih h.tail hlen
  | case4 attempts rx len hne =>
    rcases h .failed List.mem_cons_self with h | ⟨n, h⟩
    · simp at h
    · simp at h
  | case5 n attempts rx len hne r hr =>
    rcases h (.count n) List.mem_cons_self with h | ⟨k, h⟩
    · simp at h
    · obtain rfl := Attempt.count.inj h
      have hlen' : len ≠ 0 := hne
      have : min (k + 1) (min len rx.length) = 0 := hr
      omega
  | case6 n attempts rx len hne r hr more ok attempts' heq ih =>
    have hle : r ≤ len := (Nat.min_le_right _ _).trans (Nat.min_le_left _ _)
    obtain ⟨h₁, h₂, h₃⟩ := ih h.tail (by rw [List.length_drop]; omega)
    rw [heq] at h₁ h₂ h₃
    have hmore : more = (rx.drop r).take (len - r) := h₁
    refine ⟨?_, h₂, h₃⟩
    show rx.take r ++ more = rx.take len
    rw [hmore, ← List.take_add, Nat.add_sub_cancel' hle]

/-! ## Talking to the target -/

section Talk
variable {idle : Nat → Nat}

/-- Where the program never exits. -/
def Never (_ : Host Rom) : Prop := False

/-- The target, what of it waits to be read, and no failure ahead. -/
structure Talk (r : Rom) (rx : List UInt8) (h : Host Rom) : Prop where
  target : h.target = r
  rx : h.rx = rx
  benign : Benign h.attempts

theorem transferOut_talk {r : Rom} {rx : List UInt8} {h : Host Rom} (ht : Talk r rx h) (data : List UInt8) :
    wps (transferOut (rom idle) data) (fun _ t => Talk ((rom idle).feedAll r data).1 (rx ++ ((rom idle).feedAll r data).2) t)
      Never h := by
  obtain ⟨hn, hb⟩ := writeAttempts_benign ht.benign data.length
  unfold wps transferOut wp
  simp only [OptionT.run, OptionT.mk]
  rw [hn, if_pos rfl, List.take_length, ht.target, ht.rx]
  exact ⟨rfl, rfl, hb⟩

theorem transferIn_talk {r : Rom} {a rest : List UInt8} {h : Host Rom} (ht : Talk r (a ++ rest) h) :
    wps (transferIn a.length) (fun d t => d = a ∧ Talk r rest t) Never h := by
  obtain ⟨hd, hok, hb⟩ := readAttempts_benign ht.benign h.rx a.length
    (by rw [ht.rx, List.length_append]; exact Nat.le_add_right _ _)
  have ha : (readAttempts h.attempts h.rx a.length).1 = a := by rw [hd, ht.rx, List.take_left]
  unfold wps transferIn wp
  simp only [OptionT.run, OptionT.mk]
  rw [hok, if_pos rfl, ha]
  refine ⟨rfl, ht.target, ?_, hb⟩
  show h.rx.drop a.length = rest
  rw [ht.rx, List.drop_left]

theorem nonzeroLoop_talk {r : Rom} {b : UInt8} {rest : List UInt8} (hb : b ≠ 0) (k n : Nat) (hn : k < n) {h : Host Rom}
    (ht : Talk r (zeros k ++ b :: rest) h) : wps (nonzeroLoop n) (fun c t => c = b ∧ Talk r rest t) Never h := by
  -- the target is idle for `k` bytes, the host is patient for more
  induction k generalizing n h with
  | zero =>
    obtain ⟨n, rfl⟩ := Nat.exists_eq_add_of_lt hn
    have ht : Talk r ([b] ++ rest) h := ht
    refine (transferIn_talk ht).bind ?_
    rintro d t ⟨rfl, ht⟩
    rw [if_neg (fun h => hb (List.cons.inj h).1)]
    exact ⟨rfl, ht⟩
  | succ k ih =>
    obtain ⟨n, rfl⟩ : ∃ m, n = m + 1 := ⟨n - 1, by omega⟩
    have ht : Talk r ([0] ++ (zeros k ++ b :: rest)) h := ht
    refine (transferIn_talk ht).bind ?_
    rintro d t ⟨rfl, ht⟩
    rw [if_pos rfl]
    exact ih n (by omega) ht

theorem nonzero_talk {r : Rom} {b : UInt8} {k : Nat} {rest : List UInt8} (hb : b ≠ 0) {h : Host Rom}
    (ht : Talk r (zeros k ++ b :: rest) h) : wps nonzero (fun c t => c = b ∧ Talk r rest t) Never h := by
  have hk : k < h.rx.length + 1 := by
    rw [ht.rx, List.length_append, zeros, List.length_replicate]
    omega
  exact nonzeroLoop_talk hb k (h.rx.length + 1) hk ht

theorem expectAck_talk {r : Rom} {k : Nat} {rest : List UInt8} {h : Host Rom} (ht : Talk r (zeros k ++ ack :: rest) h) :
    wps expectAck (fun _ t => Talk r rest t) Never h := by
  refine (nonzero_talk (by decide) ht).bind ?_
  rintro b t ⟨rfl, ht⟩
  rw [if_neg (not_not.2 rfl)]
  exact ht

/-! ## Packets -/

/-- The target waits for a packet. -/
structure Ready (r : Rom) : Prop where
  synced : r.synced = true
  buf : r.buf = []
  replying : r.replying = false

theorem length_packet (cmd : UInt8) (data : List UInt8) : (packet cmd data).length = data.length + 3 := by
  simp [packet]

/-- The target after a command. -/
def Rom.executed (r : Rom) (cmd : UInt8) (data : List UInt8) : Rom :=
  { r with buf := [], replying := (r.mem.reply cmd data).isSome, answers := r.answers + 2, mem := r.mem.exec cmd data }

/-- Its answer. -/
def Rom.answer (idle : Nat → Nat) (r : Rom) (cmd : UInt8) (data : List UInt8) : List UInt8 :=
  zeros (idle r.answers) ++ ack :: replyBytes (idle (r.answers + 1)) (r.mem.reply cmd data)

theorem packet_len {data : List UInt8} (hlen : data.length ≤ 252) :
    (UInt8.ofNat (data.length + 3)).toNat = data.length + 3 := by
  rw [UInt8.toNat_ofNat', Nat.mod_eq_of_lt (by omega)]

theorem Rom.packet_eq (r : Rom) {cmd : UInt8} {data : List UInt8} (hlen : data.length ≤ 252) :
    r.packet idle (Flash.packet cmd data) = (r.executed cmd data, r.answer idle cmd data) := by
  have hl : (UInt8.ofNat (data.length + 3)).toNat = (Flash.packet cmd data).length := by
    rw [packet_len hlen, length_packet]
  exact if_pos ⟨hl, rfl⟩

theorem feed_more {r : Rom} (hs : r.synced = true) (hr : r.replying = false) (b : UInt8)
    (h : (r.buf ++ [b]).length < 3 ∨ (r.buf ++ [b]).length < ((r.buf ++ [b]).headD 0).toNat) :
    Rom.feed idle r b = ({ r with buf := r.buf ++ [b] }, []) := by
  unfold Rom.feed
  rw [hr, hs, if_neg (by decide), if_neg (by decide), if_pos h]

theorem feed_last {r : Rom} (hs : r.synced = true) (hr : r.replying = false) (b : UInt8)
    (h : ¬ ((r.buf ++ [b]).length < 3 ∨ (r.buf ++ [b]).length < ((r.buf ++ [b]).headD 0).toNat)) :
    Rom.feed idle r b = r.packet idle (r.buf ++ [b]) := by
  unfold Rom.feed
  rw [hr, hs, if_neg (by decide), if_neg (by decide), if_neg h]

theorem feedAll_cons (r : Rom) (b : UInt8) (bs : List UInt8) :
    (rom idle).feedAll r (b :: bs) =
      (((rom idle).feedAll (Rom.feed idle r b).1 bs).1,
        (Rom.feed idle r b).2 ++ ((rom idle).feedAll (Rom.feed idle r b).1 bs).2) :=
  rfl

/-- The first byte of a packet, as long as any of it was received. -/
theorem headD_packet {cmd : UInt8} {data got rest : List UInt8} (b : UInt8) (hp : got ++ b :: rest = packet cmd data) :
    (got ++ [b]).headD 0 = UInt8.ofNat (data.length + 3) := by
  cases got with
  | nil =>
    obtain ⟨rfl, -⟩ := List.cons.inj hp
    rfl
  | cons c got =>
    obtain ⟨rfl, -⟩ := List.cons.inj hp
    rfl

/-- The rest of a packet, the first part of which was received. -/
theorem feedAll_rest {cmd : UInt8} {data : List UInt8} (hlen : data.length ≤ 252) (rest : List UInt8) {r : Rom}
    (hs : r.synced = true) (hr : r.replying = false) (hp : r.buf ++ rest = packet cmd data) (hne : rest ≠ []) :
    (rom idle).feedAll r rest = (r.executed cmd data, r.answer idle cmd data) := by
  -- every byte but the last is only stored: the length in the packet says which is the last
  induction rest generalizing r with
  | nil => exact absurd rfl hne
  | cons b rest ih =>
    have hhead := congrArg UInt8.toNat (headD_packet b hp)
    rw [packet_len hlen] at hhead
    have hsum := congrArg List.length hp
    rw [List.length_append, List.length_cons, length_packet] at hsum
    have hgot : (r.buf ++ [b]).length = r.buf.length + 1 := by rw [List.length_append, List.length_singleton]
    rw [feedAll_cons]
    cases rest with
    | nil =>
      rw [List.length_nil] at hsum
      rw [feed_last hs hr b (by omega), hp, Rom.packet_eq r hlen]
      show (_, _ ++ []) = _
      rw [List.append_nil]
      rfl
    | cons c rest =>
      rw [List.length_cons] at hsum
      rw [feed_more hs hr b (by omega)]
      have hnext : ({ r with buf := r.buf ++ [b] } : Rom).buf ++ c :: rest = packet cmd data := by
        rw [List.append_assoc]
        exact hp
      rw [ih (r := { r with buf := r.buf ++ [b] }) hs hr hnext (by simp)]
      rfl

theorem feedAll_packet {r : Rom} (h : Ready r) (cmd : UInt8) {data : List UInt8} (hlen : data.length ≤ 252) :
    (rom idle).feedAll r (packet cmd data) = (r.executed cmd data, r.answer idle cmd data) :=
  feedAll_rest hlen (packet cmd data) h.synced h.replying (by rw [h.buf, List.nil_append]) (by simp [packet])

/-- A command is acknowledged and executed; its response waits. -/
theorem command_talk {r : Rom} (hr : Ready r) {h : Host Rom} (ht : Talk r [] h) (cmd : UInt8) {data : List UInt8}
    (hlen : data.length ≤ 252) :
    wps (command (rom idle) cmd data)
      (fun _ t => Talk (r.executed cmd data) (replyBytes (idle (r.answers + 1)) (r.mem.reply cmd data)) t) Never h := by
  unfold command
  rw [if_neg (by omega)]
  have hstarted : wps (started cmd) (fun _ t => Talk r [] t) Never h := ⟨ht.target, ht.rx, ht.benign⟩
  refine hstarted.bind (fun _ t ht => (transferOut_talk ht (packet cmd data)).bind (fun _ u hu => ?_))
  rw [feedAll_packet hr cmd hlen, List.nil_append] at hu
  exact expectAck_talk hu

/-- A response is read and acknowledged. -/
theorem response_talk {r : Rom} (hr : r.replying = true) {k : Nat} {d : List UInt8} (hd : d.length ≤ 253) {h : Host Rom}
    (ht : Talk r (replyBytes k (some d)) h) :
    wps (response (rom idle) d.length) (fun x t => x = d ∧ Talk { r with replying := false } [] t) Never h := by
  have hlen : (UInt8.ofNat (d.length + 2)).toNat = d.length + 2 := by
    rw [UInt8.toNat_ofNat', Nat.mod_eq_of_lt (by omega)]
  have hne : UInt8.ofNat (d.length + 2) ≠ 0 := by
    intro h0
    rw [h0, UInt8.toNat_zero] at hlen
    omega
  have ht : Talk r (zeros k ++ UInt8.ofNat (d.length + 2) :: ([checksum d] ++ (d ++ []))) h := by
    have : replyBytes k (some d) = zeros k ++ UInt8.ofNat (d.length + 2) :: ([checksum d] ++ (d ++ [])) := by
      simp [replyBytes]
    rw [← this]
    exact ht
  refine (nonzero_talk hne ht).bind ?_
  rintro len t ⟨rfl, ht⟩
  rw [if_neg (not_not.2 hlen)]
  refine (transferIn_talk ht).bind ?_
  rintro sum u ⟨rfl, hu⟩
  refine (transferIn_talk hu).bind ?_
  rintro x v ⟨rfl, hv⟩
  rw [if_neg (not_not.2 rfl)]
  refine (transferOut_talk hv [ack]).bind (fun _ y hy => (wps_pure _ _ _ _).2 ⟨rfl, ?_⟩)
  have hack : (rom idle).feedAll r [ack] = ({ r with replying := false }, []) := by
    rw [feedAll_cons]
    unfold Rom.feed
    rw [hr, if_pos rfl]
    rfl
  rw [hack] at hy
  exact hy

/-! ## Between commands -/

/-- The target waits for a packet, and nothing for the program. -/
def Rest (m : Memory) (h : Host Rom) : Prop := ∃ r, Ready r ∧ r.mem = m ∧ Talk r [] h

/-- A command without a response. -/
theorem command_rest {m : Memory} {h : Host Rom} (ht : Rest m h) {cmd : UInt8} {data : List UInt8} (hlen : data.length ≤ 252)
    (hreply : m.reply cmd data = none) :
    wps (command (rom idle) cmd data) (fun _ t => Rest (m.exec cmd data) t) Never h := by
  obtain ⟨r, hr, rfl, ht⟩ := ht
  refine (command_talk hr ht cmd hlen).mono (fun _ t ht => ⟨r.executed cmd data, ⟨hr.synced, rfl, ?_⟩, rfl, ?_⟩)
  · show (r.mem.reply cmd data).isSome = false
    rw [hreply]
    rfl
  · rw [hreply] at ht
    exact ht

/-- A command with a response. -/
theorem asked_rest {m : Memory} {h : Host Rom} (ht : Rest m h) {cmd : UInt8} {data d : List UInt8} (hlen : data.length ≤ 252)
    (hreply : m.reply cmd data = some d) (hd : d.length ≤ 253) {β : Type} {k : List UInt8 → M Rom β}
    {Q : β → Host Rom → Prop} (hk : ∀ t, Rest (m.exec cmd data) t → wps (k d) Q Never t) :
    wps (do command (rom idle) cmd data; let x ← response (rom idle) d.length; k x) Q Never h := by
  obtain ⟨r, hr, rfl, ht⟩ := ht
  refine (command_talk hr ht cmd hlen).bind (fun _ t ht => ?_)
  have hreplying : (r.executed cmd data).replying = true := by
    show (r.mem.reply cmd data).isSome = true
    rw [hreply]
    rfl
  rw [hreply] at ht
  refine (response_talk hreplying hd ht).bind ?_
  rintro x u ⟨rfl, hu⟩
  exact hk u ⟨{ r.executed cmd data with replying := false }, ⟨hr.synced, rfl, rfl⟩, rfl, hu⟩

theorem status_rest {m : Memory} {h : Host Rom} (ht : Rest m h) : wps (status (rom idle)) (fun _ t => Rest m t) Never h := by
  refine asked_rest ht (Nat.zero_le _) (rfl : m.reply 0x23 [] = some [0x40]) (by decide) (fun t ht => ?_)
  rw [if_neg (not_not.2 rfl)]
  exact ht

end Talk

end AlgaeBp.Flash
