import Mathlib.Logic.Function.Basic
import Mathlib.Tactic.Common
/-!
# Configuration files

The three files `app_network.c` keeps configurations in, the library calls on
them, and what `wpasup_network_configured` makes of a file. A name leads to a
file; a stream belongs to the file, not to the name it was opened by.
-/

namespace AlgaeBp.Wifi

/-- The bytes of a literal. -/
def text (s : String) : List UInt8 := s.toUTF8.data.toList

/-- A C string. -/
structure CStr where
  bytes : List UInt8
  nonzero : 0 ∉ bytes
  deriving DecidableEq

/-- What a configuration file holds. -/
abbrev Conf := List UInt8

/-! ## Files -/

/-- `WIFI_WPASUP_CONF`, `WIFI_WPASUP_TRY_CONF` and `WIFI_WPASUP_CONF_TMP`. -/
inductive Path where
  | conf
  | tryConf
  | confTmp
  deriving DecidableEq, Repr

/-- Files and their names. An open stream is known by its file; `buf` is what it has not written yet. -/
structure Fs where
  name : Path → Option Nat
  data : Nat → List UInt8
  buf : Nat → List UInt8
  next : Nat
  /-- The size of a stream's buffer. -/
  bufsiz : Nat
  bufsiz_pos : 0 < bufsiz
  lt_next : ∀ {p i}, name p = some i → i < next
  apart : ∀ {p q i}, name p = some i → name q = some i → p = q

/-- What a reader of `p` sees. -/
def Fs.content (fs : Fs) (p : Path) : Option Conf := (fs.name p).map fs.data

/-- There is an official configuration and nothing else. -/
def Fs.official (conf : Conf) (bufsiz : Nat) (hpos : 0 < bufsiz) : Fs where
  name p := if p = .conf then some 0 else none
  data _ := conf
  buf _ := []
  next := 1
  bufsiz := bufsiz
  bufsiz_pos := hpos
  lt_next := by
    intro p i h
    split at h
    · cases h; decide
    · cases h
  apart := by
    intro p q i h h'
    split at h
    · split at h'
      · next hp hq => rw [hp, hq]
      · cases h'
    · cases h

/-- `fopen(p, "w")`. -/
def Fs.fopen (fs : Fs) (p : Path) : Nat × Fs :=
  match h : fs.name p with
  | some i => (i, { fs with data := Function.update fs.data i [], buf := Function.update fs.buf i [] })
  | none => (fs.next, { fs with
      name := Function.update fs.name p (some fs.next)
      data := Function.update fs.data fs.next []
      buf := Function.update fs.buf fs.next []
      next := fs.next + 1
      lt_next := by
        intro q i hq
        rw [Function.update_apply] at hq
        split at hq
        · cases hq; omega
        · exact Nat.lt_succ_of_lt (fs.lt_next hq)
      apart := by
        intro q q' i hq hq'
        have hnew : ∀ {q}, fs.name q = some fs.next → False := fun h => absurd (fs.lt_next h) (Nat.lt_irrefl _)
        rw [Function.update_apply] at hq hq'
        split at hq <;> split at hq'
        · next h1 h2 => rw [h1, h2]
        · cases hq; exact (hnew hq').elim
        · cases hq'; exact (hnew hq).elim
        · exact fs.apart hq hq' })

/-- `unlink(p)`. -/
def Fs.unlink (fs : Fs) (p : Path) : Fs := { fs with
  name := Function.update fs.name p none
  lt_next := by
    intro q i hq
    rw [Function.update_apply] at hq
    split at hq
    · cases hq
    · exact fs.lt_next hq
  apart := by
    intro q q' i hq hq'
    rw [Function.update_apply] at hq hq'
    split at hq <;> split at hq'
    · cases hq
    · cases hq
    · cases hq'
    · exact fs.apart hq hq' }

/-- `rename(p, q)` of a name `p` that there is. -/
def Fs.rename (fs : Fs) (p q : Path) (i : Nat) (h : fs.name p = some i) : Fs :=
  { fs with
    name := fun r => if r = q then some i else if r = p then none else fs.name r
    lt_next := by
      intro r j hr
      split at hr
      · cases hr; exact fs.lt_next h
      · split at hr
        · cases hr
        · exact fs.lt_next hr
    apart := by
      intro r r' j hr hr'
      -- `i` is named by `p` alone, and `p` goes away
      have hold : ∀ {r}, r ≠ p → fs.name r ≠ some i := fun hne h' => hne (fs.apart h' h)
      split at hr <;> split at hr'
      · next h1 h2 => rw [h1, h2]
      · cases hr
        split at hr'
        · cases hr'
        · next hne => exact absurd hr' (hold hne)
      · cases hr'
        split at hr
        · cases hr
        · next hne => exact absurd hr (hold hne)
      · split at hr
        · cases hr
        · split at hr'
          · cases hr'
          · exact fs.apart hr hr' }

/-- What `write` takes of `bytes`; without a step to go by, all of it. What it does not take is lost. -/
def writeTaken (taken : List Nat) (bytes : List UInt8) : List UInt8 :=
  match taken with
  | [] => bytes
  | n :: _ => bytes.take n

/-- `fprintf`, byte by byte: the file, the buffer. A full buffer is written out when one more byte comes. -/
def putBytes (bufsiz : Nat) : List Nat → List UInt8 → List UInt8 → List UInt8 → List UInt8 × List UInt8
  | _, data, buf, [] => (data, buf)
  | taken, data, buf, b :: bs =>
    if buf.length < bufsiz then putBytes bufsiz taken data (buf ++ [b]) bs
    else putBytes bufsiz taken.tail (data ++ writeTaken taken buf) [b] bs

def Fs.fprintf (fs : Fs) (f : Nat) (taken : List Nat) (bytes : List UInt8) : Fs :=
  let (data, buf) := putBytes fs.bufsiz taken (fs.data f) (fs.buf f) bytes
  { fs with data := Function.update fs.data f data, buf := Function.update fs.buf f buf }

/-- `fclose`. -/
def Fs.fclose (fs : Fs) (f : Nat) (taken : List Nat) : Fs :=
  { fs with
    data := Function.update fs.data f (fs.data f ++ writeTaken taken (fs.buf f))
    buf := Function.update fs.buf f [] }

/-! ## Reading a configuration -/

/-- The pieces `fgets` reads with a buffer of `sz` bytes; `line` is what the next one has so far. -/
def fgetsAll (sz : Nat) : List UInt8 → List UInt8 → List (List UInt8)
  | line, [] => if line = [] then [] else [line]
  | line, b :: bs =>
    if b = 10 ∨ sz ≤ line.length + 2 then (line ++ [b]) :: fgetsAll sz [] bs else fgetsAll sz (line ++ [b]) bs

def isspace (b : UInt8) : Bool := b = 32 ∨ (9 ≤ b ∧ b ≤ 13)

/-- Whether what follows `ssid=` names a network. -/
def ssidGiven (p : List UInt8) : Bool :=
  match p.dropWhile isspace with
  | [] => false
  | b :: rest =>
    if b = 34 then
      match rest with
      | [] => false
      | b :: _ => b ≠ 34 ∧ b ≠ 10
    else b ≠ 10

/-- One turn of the loop with `in_network` and `has_ssid`; `none` is the return of 1. -/
def confLine (line : List UInt8) (inNetwork hasSsid : Bool) : Option (Bool × Bool) :=
  let p := (line.takeWhile (· ≠ 0)).dropWhile isspace
  match p with
  | [] => some (inNetwork, hasSsid)
  | b :: _ =>
    if b = 35 then some (inNetwork, hasSsid)
    else if !inNetwork then
      if p.take 8 = text "network=" then some (true, false) else some (inNetwork, hasSsid)
    else if b = 125 then
      if hasSsid then none else some (false, hasSsid)
    else if p.take 5 = text "ssid=" ∧ ssidGiven (p.drop 5) then some (inNetwork, true)
    else some (inNetwork, hasSsid)

def confLines : List (List UInt8) → Bool → Bool → Bool
  | [], _, _ => false
  | line :: lines, inNetwork, hasSsid =>
    match confLine line inNetwork hasSsid with
    | none => true
    | some (inNetwork, hasSsid) => confLines lines inNetwork hasSsid

/-- What `wpasup_network_configured` makes of a file. -/
def configured (conf : Conf) : Bool := confLines (fgetsAll 256 [] conf) false false

end AlgaeBp.Wifi
