import AlgaeBp.Wifi.Code
/-!
# Replacing a configuration

`wifi_write_provision_conf` builds the new configuration under a temporary
name and renames it over the old one, so that a reader should see the one or
the other. But it renames before it closes the stream: between the two calls
the name shows what has left the stream's buffer so far.

`write_provision_conf_atomic_iff` says when that is no harm: only where the file
that is replaced happens to hold just that part.
-/
open Threads

namespace AlgaeBp.Wifi

/-! ## Files -/

namespace Fs

variable {fs : Fs} {p q : Path} {i f : Nat}

/-- An opened file is emptied under its name, and under no other. -/
theorem fopen_spec :
    (fs.fopen p).2.name = Function.update fs.name p (some (fs.fopen p).1) ∧
    (fs.fopen p).2.data = Function.update fs.data (fs.fopen p).1 [] ∧
    (fs.fopen p).2.buf = Function.update fs.buf (fs.fopen p).1 [] ∧
    (fs.fopen p).2.bufsiz = fs.bufsiz ∧ ∀ q, q ≠ p → fs.name q ≠ some (fs.fopen p).1 := by
  unfold fopen
  split
  · next i hp =>
    refine ⟨?_, rfl, rfl, rfl, fun q hq hi => hq (fs.apart hi hp)⟩
    rw [← hp, Function.update_eq_self]
  · exact ⟨rfl, rfl, rfl, rfl, fun q _ hi => absurd (fs.lt_next hi) (Nat.lt_irrefl _)⟩

theorem name_fopen : (fs.fopen p).2.name p = some (fs.fopen p).1 := by
  rw [fopen_spec.1, Function.update_self]

theorem data_fopen : (fs.fopen p).2.data (fs.fopen p).1 = [] := by
  rw [fopen_spec.2.1, Function.update_self]

theorem buf_fopen : (fs.fopen p).2.buf (fs.fopen p).1 = [] := by
  rw [fopen_spec.2.2.1, Function.update_self]

theorem bufsiz_fopen : (fs.fopen p).2.bufsiz = fs.bufsiz := fopen_spec.2.2.2.1

/-- A change to a file is not seen under a name of another file. -/
theorem content_congr {fs' : Fs} (hname : fs'.name q = fs.name q)
    (hdata : ∀ i, fs.name q = some i → fs'.data i = fs.data i) :
    fs'.content q = fs.content q := by
  unfold content
  rw [hname]
  cases h : fs.name q with
  | none => rfl
  | some i => exact congrArg some (hdata i h)

theorem content_fopen (h : q ≠ p) : (fs.fopen p).2.content q = fs.content q := by
  obtain ⟨hname, hdata, -, -, hfresh⟩ := @fopen_spec fs p
  refine content_congr ?_ (fun i hi => ?_)
  · rw [hname, Function.update_of_ne h]
  · have hne : i ≠ (fs.fopen p).1 := fun heq => hfresh q h (heq ▸ hi)
    rw [hdata, Function.update_of_ne hne]

theorem content_unlink (h : q ≠ p) : (fs.unlink p).content q = fs.content q :=
  content_congr (Function.update_of_ne h ..) (fun _ _ => rfl)

theorem content_rename (h : fs.name p = some i) : (fs.rename p q i h).content q = some (fs.data i) := by
  have hname : (fs.rename p q i h).name q = some i := if_pos rfl
  rw [content, hname]
  rfl

theorem content_fclose (h : fs.name q = some f) : (fs.fclose f []).content q = some (fs.data f ++ fs.buf f) := by
  have hdata : (fs.fclose f []).data f = fs.data f ++ fs.buf f := Function.update_self ..
  have hname : (fs.fclose f []).name q = some f := h
  rw [content, hname, ← hdata]
  rfl

theorem content_fclose_of_ne (taken : List Nat) (h : fs.name q ≠ some f) : (fs.fclose f taken).content q = fs.content q := by
  refine content_congr rfl (fun i hi => ?_)
  have hne : i ≠ f := fun heq => h (heq ▸ hi)
  exact Function.update_of_ne hne ..

end Fs

theorem renameFile_ok {p q : Path} {e : Outcome} {w : World} {i : Nat} (h : w.fs.name p = some i) (he : e.ok = true) :
    renameFile p q e w = (true, { w with fs := w.fs.rename p q i h }) := by
  unfold renameFile
  split
  · next hn => exact absurd (hn.symm.trans h) (by simp)
  · next j hj =>
    obtain rfl : j = i := Option.some.inj (hj.symm.trans h)
    rw [if_pos he]

theorem renameFile_failed {p q : Path} {e : Outcome} {w : World} (he : e.ok = false) :
    renameFile p q e w = (false, w) := by
  unfold renameFile
  split
  · rfl
  · rw [he, if_neg Bool.false_ne_true]

/-- What either thread does to the files and is told. -/
theorem exec_effect (t : Thread) (c : Call) (e : Outcome) (w : World) :
    (exec t c e w).1 = (effect e w c).1 ∧ (exec t c e w).2.fs = (effect e w c).2.fs := by
  cases t <;> exact ⟨rfl, rfl⟩

theorem exec_rename_ok {t : Thread} {p q : Path} {e : Outcome} {w : World} {i : Nat} (h : w.fs.name p = some i)
    (he : e.ok = true) :
    (exec t (.rename p q) e w).1 = true ∧ (exec t (.rename p q) e w).2.fs = w.fs.rename p q i h := by
  have heffect : effect e w (.rename p q) = (true, { w with fs := w.fs.rename p q i h }) := renameFile_ok h he
  have hexec := exec_effect t (.rename p q) e w
  rwa [heffect] at hexec

theorem exec_rename_failed {t : Thread} {p q : Path} {e : Outcome} {w : World} (he : e.ok = false) :
    (exec t (.rename p q) e w).1 = false ∧ (exec t (.rename p q) e w).2.fs = w.fs := by
  have heffect : effect e w (.rename p q) = (false, w) := renameFile_failed he
  have hexec := exec_effect t (.rename p q) e w
  rwa [heffect] at hexec

theorem exec_fopen_ok {t : Thread} {p : Path} {e : Outcome} {w : World} (he : e.ok = true) :
    (exec t (.fopen p) e w).1 = some (w.fs.fopen p).1 ∧ (exec t (.fopen p) e w).2.fs = (w.fs.fopen p).2 := by
  have heffect : effect e w (.fopen p) = (some (w.fs.fopen p).1, { w with fs := (w.fs.fopen p).2 }) := if_pos he
  have hexec := exec_effect t (.fopen p) e w
  rwa [heffect] at hexec

theorem exec_fopen_failed {t : Thread} {p : Path} {e : Outcome} {w : World} (he : e.ok = false) :
    (exec t (.fopen p) e w).1 = none ∧ (exec t (.fopen p) e w).2.fs = w.fs := by
  have heffect : effect e w (.fopen p) = (none, w) := if_neg (by simp [he])
  have hexec := exec_effect t (.fopen p) e w
  rwa [heffect] at hexec

/-! ## Streams -/

/-- How many of `n` bytes have left a stream's buffer. -/
def flushed (bufsiz n : Nat) : Nat := (n - 1) / bufsiz * bufsiz

/-- How many of them are still there. -/
def unflushed (bufsiz n : Nat) : Nat := n - flushed bufsiz n

theorem unflushed_zero (bufsiz : Nat) : unflushed bufsiz 0 = 0 := Nat.zero_sub _

/-- The buffer is never empty again. -/
theorem unflushed_pos {bufsiz n : Nat} : unflushed bufsiz (n + 1) = n % bufsiz + 1 := by
  have hsplit := Nat.div_add_mod' n bufsiz
  unfold unflushed flushed
  rw [Nat.add_sub_cancel]
  omega

theorem flushed_le (bufsiz n : Nat) : flushed bufsiz n ≤ n := Nat.le_trans (Nat.div_mul_le_self _ _) (Nat.sub_le n 1)

/-- One more byte. -/
theorem unflushed_succ {bufsiz : Nat} (hpos : 0 < bufsiz) (n : Nat) :
    unflushed bufsiz (n + 1) = if unflushed bufsiz n < bufsiz then unflushed bufsiz n + 1 else 1 := by
  cases n with
  | zero =>
    rw [unflushed_zero, if_pos hpos, unflushed_pos, Nat.zero_mod]
  | succ k =>
    rw [unflushed_pos, unflushed_pos]
    have hsplit := Nat.div_add_mod k bufsiz
    have hlt := Nat.mod_lt k hpos
    split
    · next hroom =>
      have hmod : (k + 1) % bufsiz = k % bufsiz + 1 := by
        rw [← hsplit, Nat.add_assoc, Nat.mul_add_mod, Nat.mul_add_mod, Nat.mod_mod, Nat.mod_eq_of_lt hroom]
      rw [hmod]
    · next hfull =>
      have hmod : (k + 1) % bufsiz = 0 := by
        have hlast : k % bufsiz + 1 = bufsiz := by omega
        rw [← hsplit, Nat.add_assoc, Nat.mul_add_mod, hlast, Nat.mod_self]
      rw [hmod]

/-- With complete writes nothing is lost on the way through the buffer. -/
theorem putBytes_append (bufsiz : Nat) (data buf bytes : List UInt8) :
    (putBytes bufsiz [] data buf bytes).1 ++ (putBytes bufsiz [] data buf bytes).2 = data ++ buf ++ bytes := by
  induction bytes generalizing data buf with
  | nil => simp [putBytes]
  | cons b bs ih =>
    unfold putBytes
    split
    · rw [ih]
      simp
    · rw [List.tail_nil, ih]
      simp [writeTaken]

theorem length_putBytes {bufsiz : Nat} (hpos : 0 < bufsiz) (taken : List Nat) (data buf bytes : List UInt8) {n : Nat}
    (hbuf : buf.length = unflushed bufsiz n) :
    (putBytes bufsiz taken data buf bytes).2.length = unflushed bufsiz (n + bytes.length) := by
  induction bytes generalizing taken data buf n with
  | nil => exact hbuf
  | cons b bs ih =>
    have hnext := unflushed_succ hpos n
    rw [← hbuf] at hnext
    rw [List.length_cons, Nat.add_comm bs.length, ← Nat.add_assoc]
    unfold putBytes
    split
    · next hroom =>
      rw [if_pos hroom] at hnext
      exact ih _ _ _ (by rw [hnext, List.length_append, List.length_singleton])
    · next hfull =>
      rw [if_neg hfull] at hnext
      exact ih _ _ _ hnext.symm

/-- `fs` differs from `fs₀` in the file `f`, which has been sent `bytes`. -/
structure Filled (fs₀ fs : Fs) (f : Nat) (bytes : List UInt8) : Prop where
  name : fs.name = fs₀.name
  bufsiz : fs.bufsiz = fs₀.bufsiz
  other : ∀ i, i ≠ f → fs.data i = fs₀.data i
  sent : fs.data f ++ fs.buf f = bytes
  held : (fs.buf f).length = unflushed fs.bufsiz bytes.length

theorem Filled.fprintf {fs₀ fs : Fs} {f : Nat} {bytes : List UInt8} (h : Filled fs₀ fs f bytes) (more : List UInt8) :
    Filled fs₀ (fs.fprintf f [] more) f (bytes ++ more) where
  name := h.name
  bufsiz := h.bufsiz
  other i hi := by
    rw [← h.other i hi]
    exact Function.update_of_ne hi ..
  sent := by
    have hput := putBytes_append fs.bufsiz (fs.data f) (fs.buf f) more
    rw [h.sent] at hput
    simpa only [Fs.fprintf, Function.update_self] using hput
  held := by
    have hput := length_putBytes fs.bufsiz_pos [] (fs.data f) (fs.buf f) more h.held
    rw [← List.length_append] at hput
    simpa only [Fs.fprintf, Function.update_self] using hput

theorem filled_fopen {fs : Fs} {p : Path} : Filled (fs.fopen p).2 (fs.fopen p).2 (fs.fopen p).1 [] where
  name := rfl
  bufsiz := rfl
  other _ _ := rfl
  sent := by rw [Fs.data_fopen, Fs.buf_fopen, List.append_nil]
  held := by rw [Fs.buf_fopen, List.length_nil, unflushed_zero]

/-- What of `bytes` has left the buffer of a stream that was sent them. -/
def written (bufsiz : Nat) (bytes : List UInt8) : List UInt8 := bytes.take (flushed bufsiz bytes.length)

theorem Filled.data {fs₀ fs : Fs} {f : Nat} {bytes : List UInt8} (h : Filled fs₀ fs f bytes) :
    fs.data f = written fs.bufsiz bytes := by
  have hlen : (fs.data f).length = flushed fs.bufsiz bytes.length := by
    have hall := congrArg List.length h.sent
    have hheld := h.held
    have hle := flushed_le fs.bufsiz bytes.length
    rw [List.length_append] at hall
    unfold unflushed at hheld
    omega
  rw [written, ← hlen, ← h.sent, List.take_left]

theorem Filled.content {fs₀ fs : Fs} {f : Nat} {bytes : List UInt8} (h : Filled fs₀ fs f bytes) {q : Path}
    (hq : fs₀.name q ≠ some f) : fs.content q = fs₀.content q :=
  Fs.content_congr (congrFun h.name q) (fun i hi => h.other i (fun heq => hq (heq ▸ hi)))

/-- Something stays in the buffer. -/
theorem written_ne {bufsiz : Nat} {bytes : List UInt8} (hne : bytes ≠ []) : written bufsiz bytes ≠ bytes := by
  intro h
  have hlen := congrArg List.length h
  have hle := flushed_le bufsiz bytes.length
  have hpos : bytes.length = bytes.length - 1 + 1 := (Nat.succ_pred_eq_of_pos (List.length_pos_iff.2 hne)).symm
  have hheld : unflushed bufsiz bytes.length = (bytes.length - 1) % bufsiz + 1 := by
    rw [hpos]
    exact unflushed_pos
  rw [written, List.length_take] at hlen
  unfold unflushed at hheld
  omega

/-! ## The code -/

/-- Every `write` takes all it is given. -/
def Complete (e : Outcome) : Prop := e.taken = []

/-- What `wifi_write_provision_conf` writes. -/
def provisioned (ssid password : Option CStr) : Conf :=
  (confTexts ((ssid.map CStr.bytes).getD []) ((password.map CStr.bytes).getD [])).flatten

theorem provisioned_ne (ssid password : Option CStr) : provisioned ssid password ≠ [] := by
  have hhead : confHead ≠ [] := by decide +kernel
  unfold provisioned confTexts
  split <;> simp [hhead]

/-- `cfg` shows all of `old` or all of `new`. -/
def OldOrNew (cfg : Path) (old : Option Conf) (new : Conf) (w : World) : Prop :=
  w.fs.content cfg = old ∨ w.fs.content cfg = some new

section
variable {cfg : Path} {old : Option Conf} {new : Conf} {bytes : List UInt8} {f : Nat} {fs₀ : Fs}

/-- The writes before the renaming are not seen under another name. -/
theorem throughout_fprintfAll {g : Unit → Code Bool} {P : Prop} (hcfg : fs₀.name cfg ≠ some f) (texts : List (List UInt8))
    (hg : ∀ w, Filled fs₀ w.fs f (bytes ++ texts.flatten) →
      (Throughout (exec .client) Complete (OldOrNew cfg (fs₀.content cfg) new) (g ()) w ↔ P))
    {w : World} (hw : Filled fs₀ w.fs f bytes) :
    Throughout (exec .client) Complete (OldOrNew cfg (fs₀.content cfg) new) (fprintfAll f texts >>= g) w ↔ P := by
  induction texts generalizing bytes w with
  | nil => exact hg w (by simpa using hw)
  | cons text texts ih =>
    have hstep : ∀ e, Complete e → Filled fs₀ (exec .client (.fprintf f text) e w).2.fs f (bytes ++ text) := by
      intro e he
      have := hw.fprintf text
      rw [← he] at this
      exact this
    have hrest : ∀ e, Complete e → (Throughout (exec .client) Complete (OldOrNew cfg (fs₀.content cfg) new)
        (fprintfAll f texts >>= g) (exec .client (.fprintf f text) e w).2 ↔ P) :=
      fun e he => ih (by simpa using hg) (hstep e he)
    constructor
    · intro h
      exact (hrest {} rfl).1 (h.2 {} rfl)
    · intro h
      exact ⟨.inl (hw.content hcfg), fun e he => (hrest e he).2 h⟩

/-- A closed stream whose file got its name shows everything. -/
theorem throughout_close {w : World} (hname : w.fs.name cfg = some f) (hsent : w.fs.data f ++ w.fs.buf f = new) :
    Throughout (exec .client) Complete (OldOrNew cfg old new) (renamed f true) w ↔ OldOrNew cfg old new w := by
  refine ⟨fun h => h.1, fun h => ⟨h, fun e he => .inr ?_⟩⟩
  have hclose := Fs.content_fclose hname
  rw [hsent, ← he] at hclose
  exact hclose

/-- After a failed renaming nothing happens to `cfg`. -/
theorem throughout_giveUp (hcfg : cfg ≠ .confTmp) {w : World} (hname : w.fs.name cfg ≠ some f)
    (hold : w.fs.content cfg = old) :
    Throughout (exec .client) Complete (OldOrNew cfg old new)
      (renamed f false) w := by
  refine ⟨.inl hold, fun e _ => ?_⟩
  have hkeep : (exec .client (.unlink .confTmp) e w).2.fs.name cfg = w.fs.name cfg ∧
      (exec .client (.unlink .confTmp) e w).2.fs.content cfg = w.fs.content cfg := by
    simp only [exec, effect]
    split
    · exact ⟨Function.update_of_ne hcfg .., Fs.content_unlink hcfg⟩
    · exact ⟨rfl, rfl⟩
  refine ⟨.inl (hkeep.2.trans hold), fun e' _ => .inl ?_⟩
  exact (Fs.content_fclose_of_ne _ (hkeep.1 ▸ hname)).trans (hkeep.2.trans hold)

/-- From the renaming on: what has left the buffer shows until the stream is closed. -/
theorem throughout_renameAndClose (hcfg : cfg ≠ .confTmp) (hnew : new ≠ []) (htmp : fs₀.name .confTmp = some f) {w : World}
    (hw : Filled fs₀ w.fs f new) :
    Throughout (exec .client) Complete (OldOrNew cfg (fs₀.content cfg) new) (renameAndClose f cfg) w ↔
      fs₀.content cfg = some (written fs₀.bufsiz new) := by
  have hname : fs₀.name cfg ≠ some f := fun h => hcfg (fs₀.apart h htmp)
  have hname' : w.fs.name cfg ≠ some f := fun h => hname ((congrFun hw.name cfg).symm.trans h)
  have hold : w.fs.content cfg = fs₀.content cfg := hw.content hname
  have htmp' : w.fs.name .confTmp = some f := (congrFun hw.name _).trans htmp
  have hshown : ∀ w' : World, w'.fs = w.fs.rename .confTmp cfg f htmp' → (OldOrNew cfg (fs₀.content cfg) new w' ↔
      fs₀.content cfg = some (written fs₀.bufsiz new)) := by
    intro w' hw'
    rw [OldOrNew, hw', Fs.content_rename, hw.data, hw.bufsiz, Option.some_inj, or_iff_left (written_ne hnew)]
    exact eq_comm
  have hok : ∀ e : Outcome, e.ok = true →
      (Throughout (exec .client) Complete (OldOrNew cfg (fs₀.content cfg) new) (renamed f true)
        (exec .client (.rename .confTmp cfg) e w).2 ↔
      fs₀.content cfg = some (written fs₀.bufsiz new)) := by
    intro e he
    have hfs := (exec_rename_ok (t := .client) (q := cfg) htmp' he).2
    rw [throughout_close (by rw [hfs]; exact if_pos rfl) (by rw [hfs]; exact hw.sent)]
    exact hshown _ hfs
  constructor
  · intro h
    have hrest := h.2 {} rfl
    rw [(exec_rename_ok htmp' rfl).1] at hrest
    exact (hok {} rfl).1 hrest
  · intro h
    refine ⟨.inl hold, fun e _ => ?_⟩
    cases hres : e.ok with
    | true =>
      rw [(exec_rename_ok htmp' hres).1]
      exact (hok e hres).2 h
    | false =>
      obtain ⟨hrep, hfs⟩ := exec_rename_failed (t := .client) (p := .confTmp) (q := cfg) (w := w) hres
      rw [hrep]
      exact throughout_giveUp hcfg (hfs ▸ hname') (hfs ▸ hold)

end

/-- **When replacing a configuration is atomic.** With complete writes, for accepted arguments: `cfg` shows all of the
old file or all of the new configuration at every point if and only if the old file holds just the part of the new
configuration that has left the stream's buffer. -/
theorem write_provision_conf_atomic_iff (w : World) (ssid password : Option CStr) (cfg : Path) (hcfg : cfg ≠ .confTmp)
    (hacc : accepted ((ssid.map CStr.bytes).getD []) ((password.map CStr.bytes).getD []) = true) :
    Throughout (exec .client) Complete (OldOrNew cfg (w.fs.content cfg) (provisioned ssid password))
        (wifiWriteProvisionConf ssid password cfg) w ↔
      w.fs.content cfg = some (written w.fs.bufsiz (provisioned ssid password)) := by
  unfold wifiWriteProvisionConf
  rw [if_pos hacc]
  have hname : (w.fs.fopen .confTmp).2.name cfg ≠ some (w.fs.fopen .confTmp).1 :=
    fun h => hcfg ((w.fs.fopen .confTmp).2.apart h Fs.name_fopen)
  have hopened : ∀ e : Outcome, e.ok = true →
      (Throughout (exec .client) Complete (OldOrNew cfg (w.fs.content cfg) (provisioned ssid password))
        (writeConf (confTexts ((ssid.map CStr.bytes).getD []) ((password.map CStr.bytes).getD [])) cfg
          (exec .client (.fopen .confTmp) e w).1) (exec .client (.fopen .confTmp) e w).2 ↔
        w.fs.content cfg = some (written w.fs.bufsiz (provisioned ssid password))) := by
    intro e he
    obtain ⟨hrep, hfs⟩ := exec_fopen_ok (t := .client) (p := .confTmp) (w := w) he
    have hsiz : (w.fs.fopen .confTmp).2.bufsiz = w.fs.bufsiz := Fs.bufsiz_fopen
    rw [hrep, ← Fs.content_fopen hcfg, ← hsiz]
    have hfill : Filled (w.fs.fopen .confTmp).2 (exec .client (.fopen .confTmp) e w).2.fs (w.fs.fopen .confTmp).1 [] := by
      rw [hfs]
      exact filled_fopen
    refine throughout_fprintfAll hname _ ?_ hfill
    intro w' hw'
    exact throughout_renameAndClose hcfg (provisioned_ne ssid password) Fs.name_fopen hw'
  constructor
  · intro h
    exact (hopened {} rfl).1 (h.2 {} rfl)
  · intro h
    refine ⟨.inl rfl, fun e _ => ?_⟩
    cases hres : e.ok with
    | true => exact (hopened e hres).2 h
    | false =>
      obtain ⟨hrep, hfs⟩ := exec_fopen_failed (t := .client) (p := .confTmp) (w := w) hres
      rw [hrep]
      exact .inl (congrArg (Fs.content · cfg) hfs)

/-- A file that was there but empty is replaced by a short configuration in one go. -/
theorem write_provision_conf_atomic_empty :
    Throughout (exec .client) Complete (OldOrNew .conf (some []) (provisioned (some newSsid) none))
      (wifiWriteProvisionConf (some newSsid) none .conf) (boot (Fs.official [] 4096 (by decide)) none true).st :=
  (write_provision_conf_atomic_iff (boot (Fs.official [] 4096 (by decide)) none true).st (some newSsid) none .conf
    (by decide) (by decide +kernel)).2 (by decide +kernel)

theorem throughout_renamed {I : World → Prop} {w : World} {f : Nat} {text₁ text₂ : List UInt8} {cfg : Path}
    (h : Throughout (exec .client) Complete I (writeConf [text₁, text₂] cfg (some f)) w) :
    I (exec .client (.rename .confTmp cfg) {} (exec .client (.fprintf f text₂) {}
      (exec .client (.fprintf f text₁) {} w).2).2).2 :=
  Throughout.here (((h.2 {} rfl).2 {} rfl).2 {} rfl)

/-- A reader between the renaming and the closing sees an empty file. -/
theorem write_provision_conf_shows_nothing :
    ¬ ∀ (w : World) (ssid password : Option CStr) (cfg : Path), cfg ≠ .confTmp →
      accepted ((ssid.map CStr.bytes).getD []) ((password.map CStr.bytes).getD []) = true →
      Throughout (exec .client) Complete (OldOrNew cfg (w.fs.content cfg) (provisioned ssid password))
        (wifiWriteProvisionConf ssid password cfg) w := by
  intro h
  have hrun := h (boot (Fs.official oldConf 4096 (by decide)) none true).st (some newSsid) none .conf (by decide)
    (by decide +kernel)
  unfold wifiWriteProvisionConf at hrun
  rw [if_pos (by decide +kernel)] at hrun
  have hopened := hrun.2 {} rfl
  rw [(exec_fopen_ok rfl).1] at hopened
  have hshown := throughout_renamed hopened
  unfold OldOrNew at hshown
  exact absurd hshown (by decide +kernel)

end AlgaeBp.Wifi
