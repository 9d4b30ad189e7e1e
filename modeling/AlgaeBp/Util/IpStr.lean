import AlgaeBp.Lib.Bytes
import AlgaeBp.Lib.Ints
import AlgaeBp.Lib.Strings
/-!
# Address formatting

`aloe_ip_str` of `util.cpp`. `inet_ntop` and `snprintf` are parameters with what
POSIX says of them; `str` is an array of `str_sz` bytes, and whatever goes past
its end answers `none`.
-/

namespace AlgaeBp.Util

open Bytes Ints Strings

/-! ## The library -/

/-- The text of an address, what a call that fails leaves behind, and which sizes
`snprintf` refuses. -/
structure Libc where
  inet : BitVec 32 → Str
  inet6 : BitVec 128 → Str
  left : Nat → List UInt8
  refuses : Nat → Bool
  inet_pos : ∀ a, 0 < (inet a).bytes.length
  inet6_pos : ∀ a, 0 < (inet6 a).bytes.length
  /-- `INET_ADDRSTRLEN` -/
  inet_lt : ∀ a, (inet a).bytes.length < 16
  /-- `INET6_ADDRSTRLEN` -/
  inet6_lt : ∀ a, (inet6 a).bytes.length < 46
  left_le : ∀ size, (left size).length ≤ size
  refuses_gt : ∀ size, refuses size → intMax < size

/-- `inet_ntop` of an address with this text: whether it answers `dst`, and what it writes. -/
def Libc.inetNtop (lib : Libc) (text : Str) (size : Nat) : Bool × List UInt8 :=
  if text.bytes.length < size then (true, text.object) else (false, lib.left size)

/-- `snprintf` of this text to `size > 0` bytes: the answer, and what it writes. -/
def Libc.snprintf (lib : Libc) (text : Str) (size : Nat) : Int × List UInt8 :=
  if lib.refuses size then (-1, lib.left size)
  else (text.bytes.length, text.bytes.take (size - 1) ++ [0])

/-- What `%d` prints for a number that is not negative. -/
def decimal (n : Nat) : List UInt8 := (Nat.toDigits 10 n).map Char.toUInt8

theorem zero_notMem_decimal (n : Nat) : 0 ∉ decimal n := by
  intro hmem
  obtain ⟨c, hc, hzero⟩ := List.mem_map.1 hmem
  have hdigit := Nat.isDigit_of_mem_toDigits (by decide) (by decide) hc
  rw [Char.isDigit, Bool.and_eq_true, decide_eq_true_eq, decide_eq_true_eq] at hdigit
  have hlow : 48 ≤ c.val.toNat := UInt32.le_iff_toNat_le.1 hdigit.1
  have hhigh : c.val.toNat ≤ 57 := UInt32.le_iff_toNat_le.1 hdigit.2
  have hval := congrArg UInt8.toNat hzero
  rw [Char.toUInt8, UInt32.toNat_toUInt8] at hval
  have hz : UInt8.toNat 0 = 0 := rfl
  omega

def ntohs (n : UInt16) : UInt16 := (n <<< 8) ||| (n >>> 8)

/-- `":%d"` -/
def portText (port : UInt16) : Str where
  bytes := 0x3a :: decimal (ntohs port).toNat
  nonzero := by
    rw [List.mem_cons, not_or]
    exact ⟨by decide, zero_notMem_decimal _⟩

theorem portText_le (port : UInt16) : (portText port).bytes.length ≤ 6 := by
  have hlen : (decimal (ntohs port).toNat).length ≤ 5 := by
    rw [decimal, List.length_map, Nat.length_toDigits_le_iff (by decide) (by decide)]
    have := (ntohs port).toNat_lt
    omega
  exact Nat.succ_le_succ hlen

/-! ## The code -/

/-- A socket address: `sin_port` and `sin_addr` of the two families. -/
inductive Sockaddr where
  | inet (port : UInt16) (addr : BitVec 32)
  | inet6 (port : UInt16) (addr : BitVec 128)
  | other
  deriving DecidableEq, Repr

def aloeIpStrAddr : UInt32 := 1

def aloeIpStrPort : UInt32 := 2

/-- `(socklen_t)str_sz - pos - 1` -/
def ntopSize (strSz pos : Nat) : Nat := (UInt32.ofNat strSz - UInt32.ofNat pos - 1).toNat

variable {strSz : Nat}

/-- The address. No position is `goto finally`. -/
def ipStrAddr (lib : Libc) (text : Str) (flag : UInt32) (pos : Nat) (str : Block strSz) :
    Option (Option Nat × Block strSz) :=
  if flag &&& aloeIpStrAddr ≠ 0 then do
    let (ok, out) := lib.inetNtop text (ntopSize strSz pos)
    let str ← str.store pos out
    if ok then do
      let len ← strlen (str.bytes.drop pos)
      some (some (pos + len), str)
    else some (none, str)
  else some (some pos, str)

/-- The port. Whether its text fits is `checked` in one family only. -/
def ipStrPort (checked : Bool) (lib : Libc) (port : UInt16) (flag : UInt32) (pos : Nat) (str : Block strSz) :
    Option (Option Nat × Block strSz) :=
  if flag &&& aloeIpStrPort ≠ 0 then
    if pos ≥ strSz then some (none, str)
    else do
      let (r, out) := lib.snprintf (portText port) (strSz - pos)
      let str ← str.store pos out
      if r ≤ 0 ∨ (checked ∧ pos + r.toNat ≥ strSz) then some (none, str)
      else some (some (pos + r.toNat), str)
  else some (some pos, str)

def ipStrFamily (checked : Bool) (lib : Libc) (text : Str) (port : UInt16) (flag : UInt32) (str : Block strSz) :
    Option (Option Nat × Block strSz) := do
  match ← ipStrAddr lib text flag 0 str with
  | (none, str) => some (none, str)
  | (some pos, str) => ipStrPort checked lib port flag pos str

/-- From the label `finally` on. -/
def ipStrFinally (pos : Option Nat) (str : Block strSz) : Option (Nat × Block strSz) := do
  let pos := pos.getD 0
  let str ← str.store pos [0]
  some (pos, str)

def aloeIpStr (lib : Libc) (str : Block strSz) (sa : Sockaddr) (flag : UInt32) : Option (Nat × Block strSz) := do
  -- `if (flag == 0) flag == 1;` compares and leaves `flag` as it is
  let (pos, str) ← match sa with
    | .inet port addr => ipStrFamily true lib (lib.inet addr) port flag str
    | .inet6 port addr => ipStrFamily false lib (lib.inet6 addr) port flag str
    | .other => some (none, str)
  ipStrFinally pos str

/-! ## The parts -/

def addrPart (text : Str) (flag : UInt32) : List UInt8 := if flag &&& aloeIpStrAddr ≠ 0 then text.bytes else []

def portPart (port : UInt16) (flag : UInt32) : List UInt8 :=
  if flag &&& aloeIpStrPort ≠ 0 then (portText port).bytes else []

/-- What the branch of a family prints. -/
def printed (text : Str) (port : UInt16) (flag : UInt32) : List UInt8 := addrPart text flag ++ portPart port flag

/-- The address, if it is printed, fits in what `inet_ntop` is given. -/
def AddrFits (strSz : Nat) (text : Str) (flag : UInt32) : Prop :=
  flag &&& aloeIpStrAddr ≠ 0 → text.bytes.length < ntopSize strSz 0

instance (strSz : Nat) (text : Str) (flag : UInt32) : Decidable (AddrFits strSz text flag) := by
  unfold AddrFits
  infer_instance

variable {lib : Libc} {text : Str} {port : UInt16} {flag : UInt32} {str : Block strSz} {checked : Bool} {pos : Nat}

theorem ntopSize_lt (hsz : 1 ≤ strSz) : ntopSize strSz 0 < strSz := by
  have hle : strSz % 2 ^ 32 ≤ strSz := Nat.mod_le _ _
  unfold ntopSize
  rw [UInt32.toNat_sub, UInt32.toNat_sub, UInt32.toNat_ofNat', UInt32.toNat_ofNat']
  have hone : UInt32.toNat 1 = 1 := rfl
  omega

theorem ipStrAddr_fits (lib : Libc) (str : Block strSz) (hsz : 1 ≤ strSz) (h : AddrFits strSz text flag) :
    ∃ out, ipStrAddr lib text flag 0 str = some (some (addrPart text flag).length, out) ∧
      out.bytes.take (addrPart text flag).length = addrPart text flag ∧ (addrPart text flag).length < strSz := by
  unfold ipStrAddr addrPart
  split_ifs with hflag
  · have hfits := h hflag
    have hlt := ntopSize_lt hsz
    have hroom : 0 + text.object.length ≤ strSz := by
      rw [Str.object, List.length_append, List.length_singleton]
      omega
    obtain ⟨out, hout, hbytes⟩ := store_some (p := str) hroom
    rw [List.take_zero, List.nil_append, Str.object, List.append_assoc, List.singleton_append] at hbytes
    refine ⟨out, ?_, ?_, by omega⟩
    · rw [Libc.inetNtop, if_pos hfits]
      simp only [hout, Option.bind_eq_bind, Option.bind_some, List.drop_zero, hbytes, strlen_append text.nonzero,
        Nat.zero_add, if_true]
    · rw [hbytes, List.take_left]
  · exact ⟨str, rfl, rfl, hsz⟩

theorem ipStrAddr_unfit (lib : Libc) (str : Block strSz) (hsz : 1 ≤ strSz) (h : ¬AddrFits strSz text flag) :
    ∃ out, ipStrAddr lib text flag 0 str = some (none, out) := by
  rw [AddrFits, Classical.not_imp] at h
  have hlt := ntopSize_lt hsz
  have hleft := lib.left_le (ntopSize strSz 0)
  obtain ⟨out, hout, -⟩ := store_some (p := str) (by omega : 0 + (lib.left (ntopSize strSz 0)).length ≤ strSz)
  refine ⟨out, ?_⟩
  rw [ipStrAddr, if_pos h.1, Libc.inetNtop, if_neg h.2]
  simp only [hout, Option.bind_eq_bind, Option.bind_some, Bool.false_eq_true, if_false]

/-- A port that fits, or that `snprintf` refuses. -/
theorem ipStrPort_fits (checked : Bool) (lib : Libc) (str : Block strSz) (h : pos + (portPart port flag).length < strSz) :
    ∃ out, ipStrPort checked lib port flag pos str = some (none, out) ∨
      ipStrPort checked lib port flag pos str = some (some (pos + (portPart port flag).length), out) ∧
        out.bytes.take (pos + (portPart port flag).length) = str.bytes.take pos ++ portPart port flag := by
  unfold portPart at h ⊢
  unfold ipStrPort
  split_ifs at h ⊢ with hflag hpos
  · omega
  · have hpos : 0 < (portText port).bytes.length := Nat.succ_pos _
    unfold Libc.snprintf
    cases hrefuses : lib.refuses (strSz - pos) with
    | true =>
      have hleft := lib.left_le (strSz - pos)
      obtain ⟨out, hout, -⟩ := store_some (p := str) (by omega : pos + (lib.left (strSz - pos)).length ≤ strSz)
      refine ⟨out, Or.inl ?_⟩
      simp only [hout, Option.bind_eq_bind, Option.bind_some, if_true, if_pos (Or.inl (by decide : (-1 : Int) ≤ 0))]
    | false =>
      have hwhole : (portText port).bytes.take (strSz - pos - 1) = (portText port).bytes :=
        List.take_of_length_le (by omega)
      have hroom : pos + ((portText port).bytes ++ [0]).length ≤ strSz := by
        rw [List.length_append, List.length_singleton]
        omega
      obtain ⟨out, hout, hbytes⟩ := store_some (p := str) hroom
      refine ⟨out, Or.inr ⟨?_, ?_⟩⟩
      · simp only [hout, hwhole, Option.bind_eq_bind, Option.bind_some, Bool.false_eq_true, if_false, Int.toNat_natCast]
        rw [if_neg]
        omega
      · have hlong : (portText port).bytes.length ≤ ((portText port).bytes ++ [0]).length := by
          rw [List.length_append]
          omega
        rw [take_store_add hroom hlong hbytes, List.take_left]
  · exact ⟨str, Or.inr ⟨rfl, (List.append_nil _).symm⟩⟩

/-- A port that does not fit. -/
theorem ipStrPort_unfit (checked : Bool) (lib : Libc) (str : Block strSz) (hpos : pos < strSz)
    (h : strSz ≤ pos + (portPart port flag).length) :
    ∃ out, ipStrPort checked lib port flag pos str =
      some (if checked then none else some (pos + (portPart port flag).length), out) := by
  by_cases hflag : flag &&& aloeIpStrPort ≠ 0
  · rw [portPart, if_pos hflag] at h ⊢
    have hle := portText_le port
    have hsize : lib.refuses (strSz - pos) = false := by
      by_contra hnot
      have hgt := lib.refuses_gt _ (Bool.eq_true_of_not_eq_false hnot)
      unfold intMax at hgt
      omega
    have hroom : pos + ((portText port).bytes.take (strSz - pos - 1) ++ [0]).length ≤ strSz := by
      rw [List.length_append, List.length_take, List.length_singleton]
      omega
    obtain ⟨out, hout, -⟩ := store_some (p := str) hroom
    refine ⟨out, ?_⟩
    rw [ipStrPort, if_pos hflag, if_neg (Nat.not_le_of_lt hpos), Libc.snprintf, hsize, if_neg Bool.false_ne_true]
    simp only [hout, Option.bind_eq_bind, Option.bind_some, Int.toNat_natCast]
    have hsome : ¬((portText port).bytes.length : Int) ≤ 0 := by
      have : 0 < (portText port).bytes.length := Nat.succ_pos _
      omega
    cases checked with
    | true => rw [if_pos (Or.inr ⟨rfl, h⟩), if_pos rfl]
    | false =>
      rw [if_neg, if_neg Bool.false_ne_true]
      rintro (hneg | ⟨hfalse, -⟩)
      · exact hsome hneg
      · exact Bool.false_ne_true hfalse
  · rw [portPart, if_neg hflag, List.length_nil] at h
    omega

/-! ## The whole -/

/-- What a flag selects; 0 means the address. -/
def selected (text : Str) (port : UInt16) (flag : UInt32) : List UInt8 :=
  printed text port (if flag = 0 then aloeIpStrAddr else flag)

/-- A `NUL` at `pos`, and before it nothing or all of `want`, which must leave room for it. -/
structure Formatted (want : List UInt8) (pos : Nat) (str : Block strSz) : Prop where
  inside : pos < strSz
  terminated : str.bytes[pos]? = some 0
  text : str.bytes.take pos = [] ∨ str.bytes.take pos = want
  unfit : strSz ≤ want.length → str.bytes.take pos = []

/-- The call formats what is selected, and with flag 0 as with the address alone. -/
def Formats (lib : Libc) (str : Block strSz) (sa : Sockaddr) (flag : UInt32) (want : List UInt8) : Prop :=
  ∃ pos out, aloeIpStr lib str sa flag = some (pos, out) ∧ Formatted want pos out ∧
    (flag = 0 → ∃ pos' out', aloeIpStr lib str sa aloeIpStrAddr = some (pos', out') ∧
      out'.bytes.take pos' = out.bytes.take pos)

theorem finally_empty (str : Block strSz) (hsz : 1 ≤ strSz) {p : Option Nat} (hp : p.getD 0 = 0) :
    ∃ out, ipStrFinally p str = some (0, out) ∧ ∀ want, Formatted want 0 out := by
  obtain ⟨out, hout, hbytes⟩ := store_nul (p := str) hsz
  obtain ⟨-, hnul, -⟩ := nul_stored (Nat.zero_le _) hbytes
  refine ⟨out, ?_, fun want => ⟨hsz, hnul, Or.inl rfl, fun _ => rfl⟩⟩
  rw [ipStrFinally, hp]
  simp only [hout, Option.bind_eq_bind, Option.bind_some]

theorem finally_text {str : Block strSz} {want : List UInt8} (hlt : want.length < strSz)
    (htake : str.bytes.take want.length = want) :
    ∃ out, ipStrFinally (some want.length) str = some (want.length, out) ∧ Formatted want want.length out ∧
      out.bytes.take want.length = want := by
  obtain ⟨out, hout, hbytes⟩ := store_nul (p := str) hlt
  obtain ⟨htext, hnul, -⟩ := nul_stored hlt.le hbytes
  rw [htake] at htext
  refine ⟨out, ?_, ⟨hlt, hnul, Or.inr htext, ?_⟩, htext⟩
  · simp only [ipStrFinally, Option.getD_some, hout, Option.bind_eq_bind, Option.bind_some]
  · intro hle
    omega

theorem finally_outside (str : Block strSz) (h : strSz ≤ pos) : ipStrFinally (some pos) str = none := by
  have hstore : str.store pos [0] = none := dif_neg (by rw [List.length_singleton]; omega)
  rw [ipStrFinally, Option.getD_some, hstore]
  rfl

/-- A branch that gives up, or prints what fits. -/
theorem ipStrFamily_fits (lib : Libc) (str : Block strSz) (hsz : 1 ≤ strSz)
    (h : AddrFits strSz text flag → checked = true ∨ (printed text port flag).length < strSz) :
    ∃ out, ipStrFamily checked lib text port flag str = some (none, out) ∨
      AddrFits strSz text flag ∧
      ipStrFamily checked lib text port flag str = some (some (printed text port flag).length, out) ∧
        (printed text port flag).length < strSz ∧
        out.bytes.take (printed text port flag).length = printed text port flag := by
  unfold ipStrFamily printed at *
  by_cases haddr : AddrFits strSz text flag
  · obtain ⟨str₁, hstr₁, htake₁, hlt₁⟩ := ipStrAddr_fits lib str hsz haddr
    rw [List.length_append] at *
    rw [hstr₁, Option.bind_eq_bind, Option.bind_some]
    rcases Nat.lt_or_ge ((addrPart text flag).length + (portPart port flag).length) strSz with hlt | hge
    · obtain ⟨out, hout | ⟨hout, htake⟩⟩ := ipStrPort_fits checked lib str₁ hlt
      · exact ⟨out, Or.inl hout⟩
      · rw [htake₁] at htake
        exact ⟨out, Or.inr ⟨haddr, hout, hlt, htake⟩⟩
    · obtain ⟨out, hout⟩ := ipStrPort_unfit checked lib str₁ hlt₁ hge
      have hchecked : checked = true := (h haddr).resolve_right (Nat.not_lt_of_le hge)
      rw [hchecked, if_pos rfl] at hout
      exact ⟨out, Or.inl (hchecked ▸ hout)⟩
  · obtain ⟨out, hout⟩ := ipStrAddr_unfit lib str hsz haddr
    rw [hout]
    exact ⟨out, Or.inl rfl⟩

/-- The branch that checks nothing. -/
theorem ipStrFamily_over (lib : Libc) (str : Block strSz) (hsz : 1 ≤ strSz) (haddr : AddrFits strSz text flag)
    (h : strSz ≤ (printed text port flag).length) :
    ∃ out, ipStrFamily false lib text port flag str = some (some (printed text port flag).length, out) := by
  unfold ipStrFamily printed at *
  obtain ⟨str₁, hstr₁, -, hlt₁⟩ := ipStrAddr_fits lib str hsz haddr
  rw [List.length_append] at *
  obtain ⟨out, hout⟩ := ipStrPort_unfit false lib str₁ hlt₁ h
  rw [if_neg Bool.false_ne_true] at hout
  rw [hstr₁]
  exact ⟨out, hout⟩

theorem ipStrFamily_addr (checked : Bool) (lib : Libc) (text : Str) (port : UInt16) (str : Block strSz)
    (h : ¬flag &&& aloeIpStrPort ≠ 0) : ipStrFamily checked lib text port flag str = ipStrAddr lib text flag 0 str := by
  rw [ipStrFamily]
  rcases ipStrAddr lib text flag 0 str with _ | ⟨_ | pos, out⟩
  · rfl
  · rfl
  · exact if_neg h

section Runs

variable {sa : Sockaddr}
  (hrun : ∀ flag, aloeIpStr lib str sa flag =
    (ipStrFamily checked lib text port flag str).bind fun r => ipStrFinally r.1 r.2)
include hrun

theorem run_addr_fits (hsz : 1 ≤ strSz) (h : text.bytes.length < ntopSize strSz 0) :
    ∃ pos out, aloeIpStr lib str sa aloeIpStrAddr = some (pos, out) ∧ out.bytes.take pos = text.bytes := by
  obtain ⟨str₁, hstr₁, htake, hlt⟩ := ipStrAddr_fits lib str hsz (fun _ => h : AddrFits strSz text aloeIpStrAddr)
  obtain ⟨out, hout, -, htext⟩ := finally_text hlt htake
  refine ⟨_, out, ?_, htext⟩
  rw [hrun, ipStrFamily_addr checked lib text port str (by decide), hstr₁, Option.bind_some]
  exact hout

theorem run_addr_unfit (hsz : 1 ≤ strSz) (h : ¬text.bytes.length < ntopSize strSz 0) :
    ∃ pos out, aloeIpStr lib str sa aloeIpStrAddr = some (pos, out) ∧ out.bytes.take pos = [] := by
  obtain ⟨str₁, hstr₁⟩ := ipStrAddr_unfit lib str hsz
    (fun hfits => h (hfits (by decide)) : ¬AddrFits strSz text aloeIpStrAddr)
  obtain ⟨out, hout, -⟩ := finally_empty str₁ hsz (p := none) rfl
  refine ⟨0, out, ?_, rfl⟩
  rw [hrun, ipStrFamily_addr checked lib text port str (by decide), hstr₁, Option.bind_some]
  exact hout

/-- Nothing is printed for flag 0. -/
theorem formats_zero (hsz : 1 ≤ strSz) (hpos : 0 < text.bytes.length) (want : List UInt8) :
    Formats lib str sa 0 want ↔ ¬text.bytes.length < ntopSize strSz 0 := by
  obtain ⟨out, hout, hformatted⟩ := finally_empty str hsz (p := some 0) rfl
  have hzero : aloeIpStr lib str sa 0 = some (0, out) := by
    rw [hrun, ipStrFamily_addr checked lib text port str (by decide), ipStrAddr, if_neg (by decide), Option.bind_some]
    exact hout
  constructor
  · rintro ⟨pos, out', hrun', -, hsame⟩ hfits
    rw [hzero] at hrun'
    cases hrun'
    obtain ⟨p₁, out₁, hrun₁, htext₁⟩ := run_addr_fits hrun hsz hfits
    obtain ⟨p₂, out₂, hrun₂, htext₂⟩ := hsame rfl
    rw [hrun₁] at hrun₂
    cases hrun₂
    rw [htext₁, List.take_zero] at htext₂
    rw [htext₂] at hpos
    exact Nat.lt_irrefl _ hpos
  · intro hunfit
    obtain ⟨p₁, out₁, hrun₁, htext₁⟩ := run_addr_unfit hrun hsz hunfit
    exact ⟨0, out, hzero, hformatted want, fun _ => ⟨p₁, out₁, hrun₁, htext₁⟩⟩

/-- Any other flag. -/
theorem formats_flag (hsz : 1 ≤ strSz) (hflag : flag ≠ 0) :
    Formats lib str sa flag (selected text port flag) ↔
      (AddrFits strSz text flag → checked = true ∨ (printed text port flag).length < strSz) := by
  rw [selected, if_neg hflag]
  constructor
  · rintro ⟨pos, out, hsome, -⟩ haddr
    by_contra hnot
    rw [not_or, Bool.not_eq_true, Nat.not_lt] at hnot
    obtain ⟨hchecked, hover⟩ := hnot
    subst hchecked
    obtain ⟨out', hout'⟩ := ipStrFamily_over lib str hsz haddr hover
    rw [hrun, hout', Option.bind_some, finally_outside _ hover] at hsome
    cases hsome
  · intro h
    obtain ⟨str₁, hstr₁ | ⟨-, hstr₁, hlt, htake⟩⟩ := ipStrFamily_fits lib str hsz h
    · obtain ⟨out, hout, hformatted⟩ := finally_empty str₁ hsz (p := none) rfl
      refine ⟨0, out, ?_, hformatted _, fun hzero => absurd hzero hflag⟩
      rw [hrun, hstr₁, Option.bind_some]
      exact hout
    · obtain ⟨out, hout, hformatted, -⟩ := finally_text hlt htake
      refine ⟨_, out, ?_, hformatted, fun hzero => absurd hzero hflag⟩
      rw [hrun, hstr₁, Option.bind_some]
      exact hout

end Runs

/-- Any other family. -/
theorem aloeIpStr_other (lib : Libc) (str : Block strSz) (hsz : 1 ≤ strSz) (flag : UInt32) :
    ∃ out, aloeIpStr lib str .other flag = some (0, out) ∧ out.bytes[0]? = some 0 := by
  obtain ⟨out, hout, hformatted⟩ := finally_empty str hsz (p := none) rfl
  exact ⟨out, hout, (hformatted []).terminated⟩

/-- **Address formatting** does what it should just when flag 0 would print nothing
anyway and, in the family that checks nothing, the port fits behind the address. -/
theorem aloeIpStr_iff (lib : Libc) (hsz : 1 ≤ strSz) (str : Block strSz) (port : UInt16) (flag : UInt32) :
    (∀ addr, Formats lib str (.inet port addr) flag (selected (lib.inet addr) port flag) ↔
      (flag = 0 → ¬(lib.inet addr).bytes.length < ntopSize strSz 0)) ∧
    (∀ addr, Formats lib str (.inet6 port addr) flag (selected (lib.inet6 addr) port flag) ↔
      (flag = 0 → ¬(lib.inet6 addr).bytes.length < ntopSize strSz 0) ∧
      (flag ≠ 0 → AddrFits strSz (lib.inet6 addr) flag → (printed (lib.inet6 addr) port flag).length < strSz)) := by
  constructor
  · intro addr
    have hrun : ∀ flag, aloeIpStr lib str (.inet port addr) flag =
        (ipStrFamily true lib (lib.inet addr) port flag str).bind fun r => ipStrFinally r.1 r.2 := fun _ => rfl
    by_cases hflag : flag = 0
    · subst hflag
      rw [formats_zero hrun hsz (lib.inet_pos addr)]
      exact ⟨fun h _ => h, fun h => h rfl⟩
    · rw [formats_flag hrun hsz hflag]
      exact iff_of_true (fun _ => Or.inl rfl) (fun hzero => absurd hzero hflag)
  · intro addr
    have hrun : ∀ flag, aloeIpStr lib str (.inet6 port addr) flag =
        (ipStrFamily false lib (lib.inet6 addr) port flag str).bind fun r => ipStrFinally r.1 r.2 := fun _ => rfl
    by_cases hflag : flag = 0
    · subst hflag
      rw [formats_zero hrun hsz (lib.inet6_pos addr)]
      exact ⟨fun h => ⟨fun _ => h, fun hne => absurd rfl hne⟩, fun h => h.1 rfl⟩
    · rw [formats_flag hrun hsz hflag]
      constructor
      · intro h
        exact ⟨fun hzero => absurd hzero hflag, fun _ haddr => (h haddr).resolve_left Bool.false_ne_true⟩
      · intro h haddr
        exact Or.inr (h.2 hflag haddr)

/-- A library that knows `127.0.0.1` and `::1`. -/
def loopback : Libc where
  inet _ := ⟨[0x31, 0x32, 0x37, 0x2e, 0x30, 0x2e, 0x30, 0x2e, 0x31], by decide⟩
  inet6 _ := ⟨[0x3a, 0x3a, 0x31], by decide⟩
  left _ := []
  refuses _ := false
  inet_pos _ := by decide
  inet6_pos _ := by decide
  inet_lt _ := by decide
  inet6_lt _ := by decide
  left_le _ := Nat.zero_le _
  refuses_gt _ h := by cases h

/-- The address and port 80, in 16 bytes. -/
theorem aloeIpStr_loopback :
    Formats loopback (Block.fill 16 0xff) (.inet 0x5000 0x7f000001) 3 (selected (loopback.inet 0x7f000001) 0x5000 3) ∧
      Formats loopback (Block.fill 16 0xff) (.inet6 0x5000 1) 3 (selected (loopback.inet6 1) 0x5000 3) := by
  obtain ⟨hinet, hinet6⟩ := aloeIpStr_iff loopback (by decide : 1 ≤ 16) (Block.fill 16 0xff) 0x5000 3
  constructor
  · apply (hinet 0x7f000001).2
    intro hzero
    cases hzero
  · apply (hinet6 1).2
    constructor
    · intro hzero
      cases hzero
    · intro _ _
      decide

/-- Flag 0 prints no address, and `:80` of `::1` is cut and ended behind three bytes. -/
theorem not_formats :
    (¬∀ (lib : Libc) (strSz : Nat) (str : Block strSz) (port : UInt16) (addr : BitVec 32) (flag : UInt32), 1 ≤ strSz →
      Formats lib str (.inet port addr) flag (selected (lib.inet addr) port flag)) ∧
    ¬∀ (lib : Libc) (strSz : Nat) (str : Block strSz) (port : UInt16) (addr : BitVec 128) (flag : UInt32), 1 ≤ strSz →
      Formats lib str (.inet6 port addr) flag (selected (lib.inet6 addr) port flag) := by
  constructor
  · intro hall
    obtain ⟨pos, out, hsome, -, hsame⟩ := hall loopback 16 (Block.fill 16 0xff) 0x5000 0x7f000001 0 (by decide)
    obtain ⟨pos', out', hsome', htext⟩ := hsame rfl
    cases hsome
    cases hsome'
    exact absurd htext (by decide)
  · intro hall
    obtain ⟨pos, out, hsome, -⟩ := hall loopback 3 (Block.fill 3 0xff) 0x5000 1 2 (by decide)
    cases hsome

end AlgaeBp.Util
