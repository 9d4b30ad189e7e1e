import AlgaeBp.Wifi.Provision
/-!
# What a provisioning leaves alone

`app_wifi_provision` and `app_wifi_provision_fallsafe`, run alone with calls
that come out as they may. A provisioning that fails should leave both files as
they were, one that succeeds should leave the whole configuration: `write_alone`
says what `wifi_write_provision_conf` does, `provision_spares_iff` and
`fallsafe_spares_iff` what that makes of the two.
-/
open Threads

namespace AlgaeBp.Wifi

/-! ## Writes that take less than they are given -/

/-- How many of `n` bytes a `write` does not take. -/
def lostBy (taken : List Nat) (n : Nat) : Nat :=
  match taken with
  | [] => 0
  | t :: _ => n - t

/-- How many bytes are lost while `n` more go through a buffer that holds some. -/
def putLost (bufsiz : Nat) : List Nat → Nat → Nat → Nat
  | _, _, 0 => 0
  | taken, held, n + 1 =>
    if held < bufsiz then putLost bufsiz taken (held + 1) n else lostBy taken held + putLost bufsiz taken.tail 1 n

theorem length_writeTaken (taken : List Nat) (bytes : List UInt8) :
    (writeTaken taken bytes).length + lostBy taken bytes.length = bytes.length := by
  cases taken with
  | nil => rfl
  | cons t taken =>
    show (bytes.take t).length + (bytes.length - t) = bytes.length
    rw [List.length_take]
    omega

theorem writeTaken_all {taken : List Nat} {bytes : List UInt8} (h : lostBy taken bytes.length = 0) :
    writeTaken taken bytes = bytes := by
  cases taken with
  | nil => rfl
  | cons t taken => exact List.take_of_length_le (Nat.le_of_sub_eq_zero h)

theorem putBytes_count (bufsiz : Nat) (taken : List Nat) (data buf bytes : List UInt8) :
    (putBytes bufsiz taken data buf bytes).1.length + (putBytes bufsiz taken data buf bytes).2.length +
      putLost bufsiz taken buf.length bytes.length = data.length + buf.length + bytes.length := by
  induction bytes generalizing taken data buf with
  | nil => rfl
  | cons b bs ih =>
    have hone : (buf ++ [b]).length = buf.length + 1 := by rw [List.length_append, List.length_singleton]
    rw [List.length_cons]
    unfold putBytes putLost
    by_cases h : buf.length < bufsiz
    · rw [if_pos h, if_pos h, ← hone, ih, hone]
      omega
    · have htaken := length_writeTaken taken buf
      have hrest := ih taken.tail (data ++ writeTaken taken buf) [b]
      rw [if_neg h, if_neg h]
      rw [List.length_append, List.length_singleton] at hrest
      omega

/-- Where nothing is lost all is sent. -/
theorem putBytes_sent {bufsiz : Nat} {taken : List Nat} {data buf bytes : List UInt8}
    (h : putLost bufsiz taken buf.length bytes.length = 0) :
    (putBytes bufsiz taken data buf bytes).1 ++ (putBytes bufsiz taken data buf bytes).2 = data ++ buf ++ bytes := by
  induction bytes generalizing taken data buf with
  | nil => rw [putBytes, List.append_nil]
  | cons b bs ih =>
    have hone : (buf ++ [b]).length = buf.length + 1 := by rw [List.length_append, List.length_singleton]
    rw [List.length_cons] at h
    unfold putLost at h
    unfold putBytes
    by_cases hroom : buf.length < bufsiz
    · rw [if_pos hroom, ← hone] at h
      rw [if_pos hroom, ih h, List.append_assoc, List.append_assoc, List.append_assoc]
      rfl
    · rw [if_neg hroom] at h
      obtain ⟨hnow, hlater⟩ := Nat.add_eq_zero_iff.1 h
      rw [if_neg hroom, ih (show putLost bufsiz _ [b].length _ = 0 from hlater), writeTaken_all hnow]
      simp

/-! ## Streams -/

/-- `fs` differs from `fs₀` in the file `f`, which has been sent `bytes`, of which so many were lost. -/
structure Sent (fs₀ fs : Fs) (f : Nat) (bytes : List UInt8) (lost : Nat) : Prop where
  name : fs.name = fs₀.name
  bufsiz : fs.bufsiz = fs₀.bufsiz
  other : ∀ i, i ≠ f → fs.data i = fs₀.data i
  held : (fs.buf f).length = unflushed fs.bufsiz bytes.length
  count : (fs.data f).length + (fs.buf f).length + lost = bytes.length
  sent : lost = 0 → fs.data f ++ fs.buf f = bytes

theorem sent_fopen {fs : Fs} {p : Path} : Sent (fs.fopen p).2 (fs.fopen p).2 (fs.fopen p).1 [] 0 where
  name := rfl
  bufsiz := rfl
  other _ _ := rfl
  held := by rw [Fs.buf_fopen, List.length_nil, unflushed_zero]
  count := by rw [Fs.data_fopen, Fs.buf_fopen]; rfl
  sent _ := by rw [Fs.data_fopen, Fs.buf_fopen, List.append_nil]

theorem Sent.fprintf {fs₀ fs : Fs} {f : Nat} {bytes : List UInt8} {lost : Nat} (h : Sent fs₀ fs f bytes lost)
    (taken : List Nat) (more : List UInt8) :
    Sent fs₀ (fs.fprintf f taken more) f (bytes ++ more)
      (lost + putLost fs₀.bufsiz taken (unflushed fs₀.bufsiz bytes.length) more.length) := by
  have hheld : (fs.buf f).length = unflushed fs₀.bufsiz bytes.length := by rw [h.held, h.bufsiz]
  have hdata : (fs.fprintf f taken more).data f = (putBytes fs.bufsiz taken (fs.data f) (fs.buf f) more).1 :=
    Function.update_self ..
  have hbuf : (fs.fprintf f taken more).buf f = (putBytes fs.bufsiz taken (fs.data f) (fs.buf f) more).2 :=
    Function.update_self ..
  have hcount := putBytes_count fs.bufsiz taken (fs.data f) (fs.buf f) more
  rw [hheld, h.bufsiz] at hcount
  refine ⟨h.name, h.bufsiz, fun i hi => ?_, ?_, ?_, fun hlost => ?_⟩
  · rw [← h.other i hi]
    exact Function.update_of_ne hi ..
  · have hlen := length_putBytes fs.bufsiz_pos taken (fs.data f) (fs.buf f) more h.held
    rw [← List.length_append] at hlen
    rw [hbuf]
    exact hlen
  · have hbefore := h.count
    rw [hdata, hbuf, List.length_append, h.bufsiz]
    omega
  · obtain ⟨hold, hnew⟩ := Nat.add_eq_zero_iff.1 hlost
    rw [hdata, hbuf, putBytes_sent (by rw [hheld, h.bufsiz]; exact hnew), h.sent hold]

theorem Sent.content {fs₀ fs : Fs} {f : Nat} {bytes : List UInt8} {lost : Nat} (h : Sent fs₀ fs f bytes lost) {q : Path}
    (hq : fs₀.name q ≠ some f) : fs.content q = fs₀.content q :=
  Fs.content_congr (congrFun h.name q) (fun i hi => h.other i (fun heq => hq (heq ▸ hi)))

/-! ## The file -/

/-- How many bytes are lost of texts that are sent behind `n` bytes. -/
def textsLost (bufsiz : Nat) : Nat → List (List UInt8) → (Nat → Outcome) → Nat
  | _, [], _ => 0
  | n, text :: texts, es =>
    putLost bufsiz (es 0).taken (unflushed bufsiz n) text.length + textsLost bufsiz (n + text.length) texts
      (fun i => es (i + 1))

/-- How many bytes of a configuration are lost, where `es` begins with its first text. The stream is closed after the file
was renamed. -/
def confLost (bufsiz : Nat) (texts : List (List UInt8)) (es : Nat → Outcome) : Nat :=
  textsLost bufsiz 0 texts es + lostBy (es (texts.length + 1)).taken (unflushed bufsiz texts.flatten.length)

theorem alone_fprintfAll {fs₀ : Fs} {f : Nat} (texts : List (List UInt8)) (g : Unit → Code Bool) (es : Nat → Outcome)
    {bytes : List UInt8} {lost : Nat} {w : World} (h : Sent fs₀ w.fs f bytes lost) :
    ∃ w', alone (exec .client) (fprintfAll f texts >>= g) es w =
        alone (exec .client) (g ()) (fun i => es (i + texts.length)) w' ∧
      Sent fs₀ w'.fs f (bytes ++ texts.flatten) (lost + textsLost fs₀.bufsiz bytes.length texts es) := by
  induction texts generalizing es bytes lost w with
  | nil =>
    refine ⟨w, rfl, ?_⟩
    rw [List.flatten_nil, List.append_nil]
    exact h
  | cons text texts ih =>
    have hstep : Sent fs₀ (exec .client (.fprintf f text) (es 0) w).2.fs f _ _ := h.fprintf (es 0).taken text
    obtain ⟨w', heq, hsent⟩ := ih (fun i => es (i + 1)) hstep
    refine ⟨w', ?_, ?_⟩
    · exact heq
    · rw [List.append_assoc, Nat.add_assoc, List.length_append] at hsent
      exact hsent

/-- The stream of a file that got its name is closed: the file is whole if nothing is lost. -/
theorem fclose_whole {fs : Fs} {p q : Path} {f : Nat} (hp : fs.name p = some f) {bytes : List UInt8} {lost : Nat}
    {fs₀ : Fs} (h : Sent fs₀ fs f bytes lost) (taken : List Nat) :
    ((fs.rename p q f hp).fclose f taken).content q = some bytes ↔
      lost + lostBy taken (unflushed fs₀.bufsiz bytes.length) = 0 := by
  have hcontent : ((fs.rename p q f hp).fclose f taken).content q = some (fs.data f ++ writeTaken taken (fs.buf f)) := by
    have hname : ((fs.rename p q f hp).fclose f taken).name q = some f := if_pos rfl
    have hdata : ((fs.rename p q f hp).fclose f taken).data f = fs.data f ++ writeTaken taken (fs.buf f) :=
      Function.update_self ..
    rw [Fs.content, hname, ← hdata]
    rfl
  have hheld : (fs.buf f).length = unflushed fs₀.bufsiz bytes.length := by rw [h.held, h.bufsiz]
  have htaken := length_writeTaken taken (fs.buf f)
  have hcount := h.count
  rw [hcontent, Option.some_inj]
  rw [hheld] at htaken hcount
  constructor
  · intro heq
    have hlen := congrArg List.length heq
    rw [List.length_append] at hlen
    omega
  · intro hzero
    obtain ⟨hlost, hlast⟩ := Nat.add_eq_zero_iff.1 hzero
    rw [writeTaken_all (by rw [hheld]; exact hlast), h.sent hlost]

/-! ## Writing a configuration -/

/-- The code alone, as a client runs it. -/
abbrev aloneClient {α : Type} (p : Code α) (es : Nat → Outcome) (w : World) : α × World := alone (exec .client) p es w

/-- After a renaming that failed no other name leads elsewhere. -/
theorem alone_giveUp (f : Nat) (es : Nat → Outcome) {w : World} {q : Path} (hq : q ≠ .confTmp)
    (hname : w.fs.name q ≠ some f) :
    (aloneClient (renamed f false) es w).1 = false ∧
      (aloneClient (renamed f false) es w).2.fs.content q = w.fs.content q := by
  have hkeep : (exec .client (.unlink .confTmp) (es 0) w).2.fs.name q = w.fs.name q ∧
      (exec .client (.unlink .confTmp) (es 0) w).2.fs.content q = w.fs.content q := by
    simp only [exec, effect]
    split
    · exact ⟨Function.update_of_ne hq .., Fs.content_unlink hq⟩
    · exact ⟨rfl, rfl⟩
  refine ⟨rfl, ?_⟩
  show ((exec .client (.unlink .confTmp) (es 0) w).2.fs.fclose f (es 1).taken).content q = _
  rw [Fs.content_fclose_of_ne _ (by rw [hkeep.1]; exact hname), hkeep.2]

/-- From the renaming on. -/
theorem alone_renameAndClose {fs₀ : Fs} {f : Nat} {cfg : Path} (htmp : fs₀.name .confTmp = some f)
    {bytes : List UInt8} {lost : Nat} {w : World} (h : Sent fs₀ w.fs f bytes lost) (es : Nat → Outcome) :
    ((es 0).ok = true → (aloneClient (renameAndClose f cfg) es w).1 = true ∧
      ((aloneClient (renameAndClose f cfg) es w).2.fs.content cfg = some bytes ↔
        lost + lostBy (es 1).taken (unflushed fs₀.bufsiz bytes.length) = 0)) ∧
    ((es 0).ok = false → (aloneClient (renameAndClose f cfg) es w).1 = false ∧
      ∀ q, q ≠ .confTmp → (aloneClient (renameAndClose f cfg) es w).2.fs.content q = fs₀.content q) := by
  have htmp' : w.fs.name .confTmp = some f := (congrFun h.name _).trans htmp
  have hgoes : aloneClient (renameAndClose f cfg) es w =
    aloneClient (renamed f (exec .client (.rename .confTmp cfg) (es 0) w).1)
      (fun i => es (i + 1)) (exec .client (.rename .confTmp cfg) (es 0) w).2 := rfl
  constructor
  · intro hok
    obtain ⟨hrep, hfs⟩ := exec_rename_ok (t := .client) (q := cfg) htmp' hok
    rw [hgoes, hrep]
    refine ⟨rfl, ?_⟩
    show (Fs.fclose _ f (es 1).taken).content cfg = _ ↔ _
    rw [hfs]
    exact fclose_whole htmp' h (es 1).taken
  · intro hno
    obtain ⟨hrep, hfs⟩ := exec_rename_failed (t := .client) (p := .confTmp) (q := cfg) (w := w) hno
    rw [hgoes, hrep]
    refine ⟨rfl, fun q hq => ?_⟩
    have hname : fs₀.name q ≠ some f := fun hn => hq (fs₀.apart hn htmp)
    have hname' : (exec .client (.rename .confTmp cfg) (es 0) w).2.fs.name q ≠ some f := by
      rw [hfs, congrFun h.name q]
      exact hname
    rw [(alone_giveUp f _ hq hname').2, hfs, h.content hname]

/-- The arguments are accepted, and the temporary file is opened and renamed. -/
def Renamed (ssid password : Option CStr) (es : Nat → Outcome) : Prop :=
  accepted ((ssid.map CStr.bytes).getD []) ((password.map CStr.bytes).getD []) = true ∧ (es 0).ok = true ∧
    (es ((confTexts ((ssid.map CStr.bytes).getD []) ((password.map CStr.bytes).getD [])).length + 1)).ok = true

instance (ssid password : Option CStr) (es : Nat → Outcome) : Decidable (Renamed ssid password es) :=
  inferInstanceAs (Decidable (_ ∧ _ ∧ _))

/-- How many bytes of the configuration its file lacks. -/
def lost (bufsiz : Nat) (ssid password : Option CStr) (es : Nat → Outcome) : Nat :=
  confLost bufsiz (confTexts ((ssid.map CStr.bytes).getD []) ((password.map CStr.bytes).getD [])) (fun i => es (i + 1))

/-- **What writing a configuration does**, however its calls come out. If the file gets its name the answer is
success, and it is whole if and only if no byte was lost; otherwise the answer is failure, and
nothing but the temporary file was touched. -/
theorem write_alone (ssid password : Option CStr) (cfg : Path) (es : Nat → Outcome) (w : World) :
    (Renamed ssid password es → (aloneClient (wifiWriteProvisionConf ssid password cfg) es w).1 = true ∧
      ((aloneClient (wifiWriteProvisionConf ssid password cfg) es w).2.fs.content cfg = some (provisioned ssid password) ↔
        lost w.fs.bufsiz ssid password es = 0)) ∧
    (¬ Renamed ssid password es → (aloneClient (wifiWriteProvisionConf ssid password cfg) es w).1 = false ∧
      ∀ q, q ≠ .confTmp →
        (aloneClient (wifiWriteProvisionConf ssid password cfg) es w).2.fs.content q = w.fs.content q) := by
  unfold Renamed lost provisioned confLost wifiWriteProvisionConf
  generalize (ssid.map CStr.bytes).getD [] = s
  generalize (password.map CStr.bytes).getD [] = p
  dsimp only
  by_cases hacc : accepted s p = true
  · rw [if_pos hacc]
    generalize confTexts s p = texts
    have hgoes : aloneClient (do let fp ← fopen .confTmp; writeConf texts cfg fp) es w =
        aloneClient (writeConf texts cfg (exec .client (.fopen .confTmp) (es 0) w).1) (fun i => es (i + 1))
          (exec .client (.fopen .confTmp) (es 0) w).2 := rfl
    rw [hgoes]
    by_cases hopen : (es 0).ok = true
    · obtain ⟨hrep, hfs⟩ := exec_fopen_ok (t := .client) (p := .confTmp) (w := w) hopen
      have hsent : Sent (w.fs.fopen .confTmp).2 (exec .client (.fopen .confTmp) (es 0) w).2.fs
          (w.fs.fopen .confTmp).1 [] 0 := by
        rw [hfs]
        exact sent_fopen
      obtain ⟨w', heq, hsent'⟩ := alone_fprintfAll texts (fun _ => renameAndClose (w.fs.fopen .confTmp).1 cfg)
        (fun i => es (i + 1)) hsent
      obtain ⟨hdone, hfailed⟩ := alone_renameAndClose Fs.name_fopen hsent' (fun i => es (i + texts.length + 1))
      rw [hrep]
      have heq' : aloneClient (writeConf texts cfg (some (w.fs.fopen .confTmp).1)) (fun i => es (i + 1))
          (exec .client (.fopen .confTmp) (es 0) w).2 = _ := heq
      rw [heq']
      rw [Fs.bufsiz_fopen] at hdone
      simp only [Nat.zero_add, List.nil_append, List.length_nil] at hdone hfailed
      constructor
      · rintro ⟨-, -, hren⟩
        have := hdone hren
        rw [Nat.add_comm 1 texts.length] at this
        exact this
      · intro hno
        have hren : (es (texts.length + 1)).ok = false :=
          Bool.eq_false_iff.2 (fun h => hno ⟨hacc, hopen, h⟩)
        obtain ⟨hret, hkeep⟩ := hfailed hren
        exact ⟨hret, fun q hq => (hkeep q hq).trans (Fs.content_fopen hq)⟩
    · obtain ⟨hrep, hfs⟩ := exec_fopen_failed (t := .client) (p := .confTmp) (w := w) (Bool.eq_false_iff.2 hopen)
      rw [hrep]
      refine ⟨fun h => absurd h.2.1 hopen, fun _ => ⟨rfl, fun q _ => ?_⟩⟩
      exact congrArg (Fs.content · q) hfs
  · rw [if_neg hacc]
    exact ⟨fun h => absurd h.1 hacc, fun _ => ⟨rfl, fun _ _ => rfl⟩⟩

/-! ## Provisioning -/

/-- What is asked of a provisioning that ends so: if it failed, both configurations are as they were, and if it succeeded
with a network, the target has the whole new configuration. -/
def Spares (target : Path) (ssid password : Option CStr) (w : World) (r : Bool × World) : Prop :=
  (r.1 = false → r.2.fs.content .conf = w.fs.content .conf ∧ r.2.fs.content .tryConf = w.fs.content .tryConf) ∧
    (r.1 = true → noSsid ssid = false → r.2.fs.content target = some (provisioned ssid password))

/-- Asking for a reset touches no file. -/
theorem alone_requestReset (es : Nat → Outcome) (w : World) :
    (aloneClient (do requestReset; return true) es w).1 = true ∧
      (aloneClient (do requestReset; return true) es w).2.fs = w.fs := by
  have hgoes : aloneClient (do requestReset; return true) es w =
      aloneClient ((if w.wifiRunning = true then setRequestReset true else pure ()) >>= fun _ => pure true)
        (fun i => es (i + 1)) (exec .client .wifiRunning (es 0) w).2 := rfl
  rw [hgoes]
  split
  · exact ⟨rfl, rfl⟩
  · exact ⟨rfl, rfl⟩

/-- A provisioning of a network ends as its writing does. -/
theorem alone_provisioned (p : Code Bool) (es : Nat → Outcome) (w : World) :
    (aloneClient (do if ← p then requestReset; return true else return false) es w).1 = (aloneClient p es w).1 ∧
      (aloneClient (do if ← p then requestReset; return true else return false) es w).2.fs = (aloneClient p es w).2.fs := by
  obtain ⟨n, hn⟩ := @alone_bind _ _ _ _ _ _ (exec .client) p
    (fun r => if r = true then (do requestReset; return true) else return false) es w
  have hgoes : aloneClient (do if ← p then requestReset; return true else return false) es w = _ := hn
  rw [hgoes]
  cases hr : (aloneClient p es w).1 with
  | true =>
    rw [if_pos rfl]
    exact alone_requestReset _ _
  | false =>
    rw [if_neg Bool.false_ne_true]
    exact ⟨rfl, rfl⟩

/-- Without a network there is nothing to write, and no failure. -/
theorem cleared_spares {target : Path} {ssid password : Option CStr} {w : World} {r : Bool × World}
    (hssid : noSsid ssid = true) (hr : r.1 = true) : Spares target ssid password w r :=
  ⟨fun h => absurd (hr.symm.trans h) (by decide), fun _ h => absurd (hssid.symm.trans h) (by decide)⟩

/-- `wifi_remove_try_conf`: the other files stay, and the try file goes if it can be removed. -/
theorem exec_removeTry (e : Outcome) (w : World) :
    (exec .client (.unlink .tryConf) e w).2.fs.content .conf = w.fs.content .conf ∧
      (exec .client (.unlink .tryConf) e w).2.fs.bufsiz = w.fs.bufsiz ∧
      ((exec .client (.unlink .tryConf) e w).2.fs.content .tryConf = w.fs.content .tryConf ↔
        w.fs.content .tryConf = none ∨ e.ok = false) := by
  simp only [exec, effect]
  by_cases hok : e.ok = true
  · have hgone : (w.fs.unlink .tryConf).content .tryConf = none := by
      have hname : (w.fs.unlink .tryConf).name .tryConf = none := by
        show Function.update w.fs.name .tryConf none .tryConf = none
        rw [Function.update_self]
      rw [Fs.content, hname]
      rfl
    rw [if_pos hok, hgone]
    refine ⟨Fs.content_unlink (by decide), rfl, fun h => .inl h.symm, fun h => ?_⟩
    rcases h with h | h
    · exact h.symm
    · exact absurd (hok.symm.trans h) (by decide)
  · rw [if_neg hok]
    exact ⟨rfl, rfl, fun _ => .inr (Bool.eq_false_iff.2 hok), fun _ => rfl⟩

/-- What `app_wifi_provision_fallsafe` leaves alone: it is right unless it has renamed a file that lacks something. -/
theorem fallsafe_spares_iff (ssid password : Option CStr) (es : Nat → Outcome) (w : World) :
    Spares .tryConf ssid password w (aloneClient (appWifiProvisionFallsafe ssid password) es w) ↔
      noSsid ssid = true ∨ (Renamed ssid password es → lost w.fs.bufsiz ssid password es = 0) := by
  cases hssid : noSsid ssid with
  | true =>
    refine iff_of_true (cleared_spares hssid ?_) (.inl rfl)
    have hgoes : appWifiProvisionFallsafe ssid password = (do wifiRemoveTryConf; requestReset; return true) := if_pos hssid
    rw [hgoes]
    exact (alone_requestReset (fun i => es (i + 1)) _).1
  | false =>
    have hgoes : appWifiProvisionFallsafe ssid password =
        (do if ← wifiWriteProvisionConf ssid password .tryConf then requestReset; return true else return false) := by
      unfold appWifiProvisionFallsafe
      rw [if_neg (by rw [hssid]; decide)]
    obtain ⟨hdone, hfailed⟩ := write_alone ssid password .tryConf es w
    obtain ⟨hret, hfs⟩ := alone_provisioned (wifiWriteProvisionConf ssid password .tryConf) es w
    rw [hgoes, Spares, hret, hfs, hssid]
    by_cases hren : Renamed ssid password es
    · obtain ⟨hok, hwhole⟩ := hdone hren
      rw [hok, hwhole]
      simp [hren]
    · obtain ⟨hno, hkeep⟩ := hfailed hren
      rw [hno, hkeep .conf (by decide), hkeep .tryConf (by decide)]
      simp [hren]

/-- What `app_wifi_provision` leaves alone. It has removed the try file before it writes. -/
theorem provision_spares_iff (ssid password : Option CStr) (es : Nat → Outcome) (w : World) :
    Spares .conf ssid password w (aloneClient (appWifiProvision ssid password) es w) ↔
      noSsid ssid = true ∨
        if Renamed ssid password (fun i => es (i + 1)) then lost w.fs.bufsiz ssid password (fun i => es (i + 1)) = 0
        else w.fs.content .tryConf = none ∨ (es 0).ok = false := by
  cases hssid : noSsid ssid with
  | true =>
    refine iff_of_true (cleared_spares hssid ?_) (.inl rfl)
    have hgoes : appWifiProvision ssid password =
        (do let _ ← unlink .conf; wifiRemoveTryConf; requestReset; return true) := if_pos hssid
    rw [hgoes]
    exact (alone_requestReset (fun i => es (i + 2)) _).1
  | false =>
    have hgoes : appWifiProvision ssid password =
        (do if ← provisionConf ssid password then requestReset; return true else return false) := by
      unfold appWifiProvision
      rw [if_neg (by rw [hssid]; decide)]
    have hfirst : aloneClient (provisionConf ssid password) es w =
        aloneClient (wifiWriteProvisionConf ssid password .conf) (fun i => es (i + 1))
          (exec .client (.unlink .tryConf) (es 0) w).2 := rfl
    obtain ⟨hconf, hsiz, htry⟩ := exec_removeTry (es 0) w
    obtain ⟨hdone, hfailed⟩ := write_alone ssid password .conf (fun i => es (i + 1))
      (exec .client (.unlink .tryConf) (es 0) w).2
    obtain ⟨hret, hfs⟩ := alone_provisioned (provisionConf ssid password) es w
    rw [hgoes, Spares, hret, hfs, hfirst, hssid]
    by_cases hren : Renamed ssid password (fun i => es (i + 1))
    · obtain ⟨hok, hwhole⟩ := hdone hren
      rw [hok, hwhole, hsiz, if_pos hren]
      simp
    · obtain ⟨hno, hkeep⟩ := hfailed hren
      rw [hno, hkeep .conf (by decide), hkeep .tryConf (by decide), hconf, htry, if_neg hren]
      simp

/-- **When a provisioning leaves alone what it should.** For every network, every content of the files and every
outcome of the calls: `app_wifi_provision` does if it renames a file that lacks nothing, or
fails with no try file there or one that could not be removed; `app_wifi_provision_fallsafe` does
unless it renames a file that lacks something. -/
theorem provisioning_spares_iff (ssid password : Option CStr) (es : Nat → Outcome) (w : World) :
    (Spares .conf ssid password w (aloneClient (appWifiProvision ssid password) es w) ↔
      noSsid ssid = true ∨
        if Renamed ssid password (fun i => es (i + 1)) then lost w.fs.bufsiz ssid password (fun i => es (i + 1)) = 0
        else w.fs.content .tryConf = none ∨ (es 0).ok = false) ∧
    (Spares .tryConf ssid password w (aloneClient (appWifiProvisionFallsafe ssid password) es w) ↔
      noSsid ssid = true ∨
        (Renamed ssid password es → lost w.fs.bufsiz ssid password es = 0)) :=
  ⟨provision_spares_iff ssid password es w, fallsafe_spares_iff ssid password es w⟩

/-- A network is being tried. -/
def trying : World :=
  let fs := (Fs.official oldConf 4096 (by decide)).fopen .tryConf
  (boot (fs.2.fprintf fs.1 [] oldConf |>.fclose fs.1 []) none true).st

def shortPassword : CStr := ⟨text "short", by decide +kernel⟩

/-- A password that is refused costs the network that is being tried; and what the disk does not take of a new
configuration is not missed. -/
theorem provisioning_not_spared :
    (¬ Spares .conf (some newSsid) (some shortPassword) trying
      (aloneClient (appWifiProvision (some newSsid) (some shortPassword)) (fun _ => {}) trying)) ∧
    ¬ Spares .tryConf (some newSsid) none trying
      (aloneClient (appWifiProvisionFallsafe (some newSsid) none) (fun _ => { taken := [0] }) trying) := by
  constructor
  · rw [provision_spares_iff]
    decide +kernel
  · rw [fallsafe_spares_iff]
    decide +kernel

end AlgaeBp.Wifi
