import AlgaeBp.Wifi.Spared
/-!
# The reader of a configuration agrees with its writer

`wpasup_network_configured` reads with a buffer of 256 bytes, so it sees a long
line in pieces. The first piece of the line of the ssid is enough to know that
there is one, and whatever the others look like, none of them takes that back.
-/

namespace AlgaeBp.Wifi

/-! ## Pieces -/

theorem fgetsAll_cut {sz : Nat} {line : List UInt8} {b : UInt8} (h : b = 10 ∨ sz ≤ line.length + 2) (bs : List UInt8) :
    fgetsAll sz line (b :: bs) = (line ++ [b]) :: fgetsAll sz [] bs := if_pos h

theorem fgetsAll_more {sz : Nat} {line : List UInt8} {b : UInt8} (h : ¬ (b = 10 ∨ sz ≤ line.length + 2)) (bs : List UInt8) :
    fgetsAll sz line (b :: bs) = fgetsAll sz (line ++ [b]) bs := if_neg h

/-- Bytes that neither end a line nor fill the buffer wait for more. -/
theorem fgetsAll_wait {sz : Nat} {line body : List UInt8} (hlf : 10 ∉ body) (h : line.length + body.length + 2 ≤ sz)
    (rest : List UInt8) : fgetsAll sz line (body ++ rest) = fgetsAll sz (line ++ body) rest := by
  induction body generalizing line with
  | nil => rw [List.nil_append, List.append_nil]
  | cons b body ih =>
    rw [List.mem_cons, not_or] at hlf
    rw [List.length_cons] at h
    have hgo : ¬ (b = 10 ∨ sz ≤ line.length + 2) := by
      rintro (rfl | hle)
      · exact hlf.1 rfl
      · omega
    rw [List.cons_append, fgetsAll_more hgo, ih hlf.2 (by rw [List.length_append, List.length_singleton]; omega),
      List.append_assoc]
    rfl

/-- A line that fits is read in one piece. -/
theorem fgetsAll_short {sz : Nat} {line body : List UInt8} (hlf : 10 ∉ body) (h : line.length + body.length + 2 ≤ sz)
    (rest : List UInt8) : fgetsAll sz line (body ++ 10 :: rest) = (line ++ body ++ [10]) :: fgetsAll sz [] rest := by
  rw [fgetsAll_wait hlf h]
  exact fgetsAll_cut (Or.inl rfl) rest

/-- A line is read in pieces, the first of which goes on from what there is. -/
theorem fgetsAll_line (sz : Nat) (line body rest : List UInt8) :
    ∃ piece pieces, line <+: piece ∧ fgetsAll sz line (body ++ 10 :: rest) = piece :: pieces ++ fgetsAll sz [] rest := by
  induction body generalizing line with
  | nil => exact ⟨line ++ [10], [], List.prefix_append _ _, fgetsAll_cut (Or.inl rfl) rest⟩
  | cons b body ih =>
    rw [List.cons_append]
    by_cases hcut : b = 10 ∨ sz ≤ line.length + 2
    · rw [fgetsAll_cut hcut]
      obtain ⟨piece, pieces, -, heq⟩ := ih []
      exact ⟨line ++ [b], piece :: pieces, List.prefix_append _ _, by rw [heq]; rfl⟩
    · rw [fgetsAll_more hcut]
      obtain ⟨piece, pieces, hpre, heq⟩ := ih (line ++ [b])
      exact ⟨piece, pieces, (List.prefix_append _ _).trans hpre, heq⟩

/-- Lines that fit are read as they are. -/
theorem fgetsAll_lines {sz : Nat} {ls : List (List UInt8)} (h : ∀ l ∈ ls, 10 ∉ l ∧ l.length + 2 ≤ sz) (rest : List UInt8) :
    fgetsAll sz [] (ls.flatMap (· ++ [10]) ++ rest) = ls.map (· ++ [10]) ++ fgetsAll sz [] rest := by
  induction ls with
  | nil => rfl
  | cons l ls ih =>
    obtain ⟨hlf, hlen⟩ := h l List.mem_cons_self
    have hsplit : (l :: ls).flatMap (· ++ [10]) ++ rest = l ++ 10 :: (ls.flatMap (· ++ [10]) ++ rest) := by simp
    rw [hsplit, fgetsAll_short hlf (by simpa using hlen), ih (fun x hx => h x (List.mem_cons_of_mem l hx))]
    rfl

/-! ## The state machine -/

/-- The state after some lines that do not end the loop. -/
def walk (ls : List (List UInt8)) (s : Bool × Bool) : Option (Bool × Bool) := ls.foldlM (fun s l => confLine l s.1 s.2) s

theorem confLines_goes {l : List UInt8} {s : Bool × Bool} {t : Bool × Bool} (h : confLine l s.1 s.2 = some t)
    (rest : List (List UInt8)) : confLines (l :: rest) s.1 s.2 = confLines rest t.1 t.2 := by
  rw [confLines, h]

theorem confLines_ends {l : List UInt8} {s : Bool × Bool} (h : confLine l s.1 s.2 = none) (rest : List (List UInt8)) :
    confLines (l :: rest) s.1 s.2 = true := by
  rw [confLines, h]

theorem confLines_walk {ls : List (List UInt8)} {s t : Bool × Bool} (h : walk ls s = some t) (rest : List (List UInt8)) :
    confLines (ls ++ rest) s.1 s.2 = confLines rest t.1 t.2 := by
  induction ls generalizing s with
  | nil =>
    obtain rfl := Option.some.inj h
    rfl
  | cons l ls ih =>
    unfold walk at h
    rw [List.foldlM_cons] at h
    obtain ⟨s', hs', hrest⟩ := Option.bind_eq_some_iff.1 h
    rw [List.cons_append, confLines_goes hs']
    exact ih hrest

/-- In a network block with an ssid a line ends the loop or changes nothing. -/
theorem confLine_ssid (line : List UInt8) : confLine line true true = none ∨
    confLine line true true = some (true, true) := by
  unfold confLine
  dsimp only
  split
  · exact Or.inr rfl
  · split_ifs
    all_goals simp_all

/-- The block is closed, and whatever stood before is no matter. -/
theorem confLines_closed (pieces rest : List (List UInt8)) : confLines (pieces ++ [125, 10] :: rest) true true = true := by
  induction pieces with
  | nil =>
    have hclose : confLine [125, 10] true true = none := by decide
    exact confLines_ends (s := (true, true)) hclose rest
  | cons piece pieces ih =>
    rcases confLine_ssid piece with h | h
    · exact confLines_ends (s := (true, true)) h _
    · exact (confLines_goes (s := (true, true)) h _).trans ih

/-- `  ssid="`. -/
def ssidStart : List UInt8 := [32, 32, 115, 115, 105, 100, 61, 34]

/-- The first piece of the line of the ssid is enough. -/
theorem confLine_ssidStart {x : UInt8} (h0 : x ≠ 0) (hquote : x ≠ 34) (hlf : x ≠ 10) {piece : List UInt8}
    (h : ssidStart ++ [x] <+: piece) : confLine piece true false = some (true, true) := by
  obtain ⟨more, rfl⟩ := h
  have hp : ((ssidStart ++ [x] ++ more).takeWhile (· ≠ 0)).dropWhile isspace =
      115 :: 115 :: 105 :: 100 :: 61 :: 34 :: x :: more.takeWhile (· ≠ 0) := by
    simp [ssidStart, isspace, h0]
  unfold confLine
  dsimp only
  rw [hp]
  have hgiven (t : List UInt8) : ssidGiven (34 :: x :: t) = true := by
    simp [ssidGiven, isspace, hquote, hlf]
  have htext : text "ssid=" = [115, 115, 105, 100, 61] := rfl
  simp [hgiven, htext]

/-! ## The file -/

/-- The lines in front of that of the ssid. -/
def headLines : List (List UInt8) :=
  [text "ctrl_interface=/var/run/wpa_supplicant", text "update_config=1", [], text "network=\x7b", text "  scan_ssid=1"]

/-- A block up to its ssid. -/
def blockHead : List UInt8 := text "\nnetwork=\x7b\n  scan_ssid=1\n  ssid=\""

theorem head_bytes : confHead ++ blockHead = headLines.flatMap (· ++ [10]) ++ ssidStart := rfl

theorem head_walk : walk (headLines.map (· ++ [10])) (false, false) = some (true, false) := by decide

/-- Whatever lines stand in front of it, the closing line is read as it is. -/
theorem fgetsAll_close (lines : List (List UInt8)) (rest : List UInt8) :
    ∃ pieces, fgetsAll 256 [] (lines.flatMap (· ++ [10]) ++ 125 :: 10 :: rest) =
      pieces ++ [125, 10] :: fgetsAll 256 [] rest := by
  induction lines with
  | nil => exact ⟨[], fgetsAll_short (by decide : (10 : UInt8) ∉ [125])
    (by decide : ([] : List UInt8).length + ([125] : List UInt8).length + 2 ≤ 256) rest⟩
  | cons l lines ih =>
    obtain ⟨pieces, heq⟩ := ih
    obtain ⟨piece, more, -, hline⟩ := fgetsAll_line 256 [] l (lines.flatMap (· ++ [10]) ++ 125 :: 10 :: rest)
    have hsplit : (l :: lines).flatMap (· ++ [10]) ++ 125 :: 10 :: rest =
        l ++ 10 :: (lines.flatMap (· ++ [10]) ++ 125 :: 10 :: rest) := by simp
    refine ⟨piece :: more ++ pieces, ?_⟩
    rw [hsplit, hline, heq, List.append_assoc]

/-- A network block with an ssid is found, however long its lines are. -/
theorem configured_block {x : UInt8} (h0 : x ≠ 0) (hquote : x ≠ 34) (hlf : x ≠ 10) (more : List UInt8)
    (lines : List (List UInt8)) (rest : List UInt8) :
    configured (confHead ++ (blockHead ++
      x :: (more ++ 10 :: (lines.flatMap (· ++ [10]) ++ 125 :: 10 :: rest)))) = true := by
  have hhead : ∀ l ∈ headLines, 10 ∉ l ∧ l.length + 2 ≤ 256 := by decide
  have hstart : 10 ∉ ssidStart ++ [x] := by
    simp [ssidStart, Ne.symm hlf]
  obtain ⟨piece, pieces, hpre, hline⟩ := fgetsAll_line 256 (ssidStart ++ [x]) more
    (lines.flatMap (· ++ [10]) ++ 125 :: 10 :: rest)
  obtain ⟨closing, hclose⟩ := fgetsAll_close lines rest
  have hfile (t : List UInt8) : confHead ++ (blockHead ++ x :: t) =
      headLines.flatMap (· ++ [10]) ++ (ssidStart ++ [x] ++ t) := by
    rw [← List.append_assoc, head_bytes, List.append_assoc, List.append_assoc]
    rfl
  unfold configured
  rw [hfile, fgetsAll_lines hhead, confLines_walk head_walk,
    fgetsAll_wait hstart (by simp [ssidStart]), List.nil_append, hline,
    hclose, List.cons_append]
  have hssid := confLine_ssidStart h0 hquote hlf hpre
  rw [confLines_goes (s := (true, false)) hssid, ← List.append_assoc]
  exact confLines_closed _ _

theorem accepted_first {x : UInt8} {ssid password : List UInt8} (h : accepted (x :: ssid) password = true) :
    x ≠ 34 ∧ x ≠ 10 := by
  simp [accepted, wifiConfNeedsEscape] at h
  exact ⟨h.1.1.1.1, h.1.1.1.2.2.1⟩

/-- A network is found in every configuration that is written. -/
theorem configured_provisioned (ssid password : Option CStr)
    (hacc : accepted ((ssid.map CStr.bytes).getD []) ((password.map CStr.bytes).getD []) = true) :
    configured (provisioned ssid password) = true := by
  have hnul : 0 ∉ (ssid.map CStr.bytes).getD [] := by
    cases ssid with
    | none => exact List.not_mem_nil
    | some s => exact s.nonzero
  unfold provisioned
  generalize (ssid.map CStr.bytes).getD [] = s at hacc hnul
  generalize (password.map CStr.bytes).getD [] = p at hacc
  cases s with
  | nil => exact absurd hacc (by simp [accepted])
  | cons x s =>
    obtain ⟨hquote, hlf⟩ := accepted_first hacc
    have h0 : x ≠ 0 := fun h => hnul (h ▸ List.mem_cons_self)
    unfold confTexts
    split
    · -- an open network
      have htail : text "\"\n  key_mgmt=NONE\n\x7d\n" =
          34 :: 10 :: ([text "  key_mgmt=NONE"].flatMap (· ++ [10]) ++ 125 :: 10 :: []) := rfl
      have hblock := configured_block h0 hquote hlf (s ++ [34]) [text "  key_mgmt=NONE"] []
      simpa [confOpen, blockHead, htail] using hblock
    · -- the block of the password that comes first is the one that is found
      have hmid : text "\"\n  key_mgmt=SAE\n  ieee80211w=2\n  psk=\"" =
          34 :: 10 :: ([text "  key_mgmt=SAE", text "  ieee80211w=2"].flatMap (· ++ [10]) ++ text "  psk=\"") := rfl
      have hend : text "\"\n\x7d\n" = [34, 10, 125, 10] := rfl
      have hblock := configured_block h0 hquote hlf (s ++ [34])
        [text "  key_mgmt=SAE", text "  ieee80211w=2", text "  psk=\"" ++ p ++ [34]] (confPsk (x :: s) p)
      simpa [confSae, blockHead, hmid, hend] using hblock

/-- **What is written is found.** For every accepted ssid and password, `wpasup_network_configured` finds a network in the
configuration; so it does after every `wifi_write_provision_conf` that has written all of it, if it can open the file. -/
theorem provisioned_configured (ssid password : Option CStr)
    (hacc : accepted ((ssid.map CStr.bytes).getD []) ((password.map CStr.bytes).getD []) = true) :
    configured (provisioned ssid password) = true ∧
      ∀ (cfg : Path) (es es' : Nat → Outcome) (w : World), Renamed ssid password es → lost w.fs.bufsiz ssid password es = 0 →
        (es' 0).ok = true → (aloneClient (wifiWriteProvisionConf ssid password cfg) es w).1 = true ∧
          (aloneClient (wpasupNetworkConfigured cfg) es'
            (aloneClient (wifiWriteProvisionConf ssid password cfg) es w).2).1 = true := by
  have hconf := configured_provisioned ssid password hacc
  refine ⟨hconf, fun cfg es es' w hren hall hopen => ?_⟩
  obtain ⟨hok, hwhole⟩ := (write_alone ssid password cfg es w).1 hren
  refine ⟨hok, ?_⟩
  have hread : (aloneClient (wpasupNetworkConfigured cfg) es'
    (aloneClient (wifiWriteProvisionConf ssid password cfg) es w).2).1 =
      (if (es' 0).ok then (aloneClient (wifiWriteProvisionConf ssid password cfg) es w).2.fs.content cfg
        else none).any configured := rfl
  rw [hread, if_pos hopen, hwhole.2 hall]
  exact hconf

/-- Nothing fails. -/
theorem provisioned_configured_new :
    configured (provisioned (some newSsid) none) = true ∧ (aloneClient (wpasupNetworkConfigured .conf) (fun _ => {})
      (aloneClient (wifiWriteProvisionConf (some newSsid) none .conf) (fun _ => {})
        (boot (Fs.official oldConf 4096 (by decide)) none true).st).2).1 = true := by
  obtain ⟨hconf, hrun⟩ := provisioned_configured (some newSsid) none (by decide)
  exact ⟨hconf, (hrun .conf (fun _ => {}) (fun _ => {}) _ (by decide +kernel) (by decide +kernel) rfl).2⟩

end AlgaeBp.Wifi
