/-
**Host names of certificates.**

`tnu_x509_validate_der` of `userspace/libc/src/tls.c` does not walk a certificate.  It looks at every
byte for the tag of a DNS name or for the identifier of a common name, keeps four of the former and one
of the latter as C strings, and takes a certificate whose digest is listed in a file of pins.

Main definitions:

* `derReadTlv`, `tlsHostnameMatch`, `x509ScanNames`,
  `tlsTrustStoreHasFingerprint`, `tnuX509ValidateDer` — the functions of the source;
* `HostMatches`, `dnsNames`, `commonNames`, `Named` — what they decide.

Main results:

* `tlsHostnameMatch_iff`, `x509ScanNames_eq` — the match and the scan;
* `parseHexSha256Line_hexLine` — a digest that is written down is read back;
* `tnuX509ValidateDer_eq_ok_iff` — **what is accepted**.
-/

import Tnu.Tls.Aead
import Tnu.Tls.Sha256

set_option autoImplicit false

namespace Tnu.Tls

/-! ### Reading a field -/

/-- The memory from the start of a certificate, which a length that wraps can reach beyond its end. -/
abbrev Memory := ℕ → Byte

/-- The length octets at `pos + 1`: the length and the position behind them. -/
def derLength (mem : Memory) (len pos : ℕ) : Option (ℕ × ℕ) :=
  let l := mem (pos + 1)
  if l &&& 0x80 = 0 then some (l.toNat, pos + 2)
  else
    let bytes := (l &&& 0x7f).toNat
    if bytes = 0 ∨ 8 < bytes ∨ len < pos + 2 + bytes then none
    else some ((List.range bytes).foldl (fun n i => n * 256 + (mem (pos + 2 + i)).toNat) 0, pos + 2 + bytes)

/-- `der_read_tlv`: the tag, the position of the value and its length; the sum of the last two wraps. -/
def derReadTlv (mem : Memory) (len pos : ℕ) : Option (Byte × ℕ × ℕ) :=
  if len < pos + 2 then none
  else
    match derLength mem len pos with
    | none => none
    | some (n, p) => if len < (p + n) % 2 ^ 64 then none else some (mem pos, p, n)

/-! ### Matching a name -/

def tolower (c : Byte) : Byte := if 0x41 ≤ c ∧ c ≤ 0x5a then c + 0x20 else c

/-- `tls_ascii_eq_nocase` of two C strings. -/
def tlsAsciiEqNocase : List Byte → List Byte → Bool
  | a :: as, b :: bs => if tolower a ≠ tolower b then false else tlsAsciiEqNocase as bs
  | [], [] => true
  | [], _ :: _ => false
  | _ :: _, [] => false

/-- `tls_hostname_match` of two C strings. -/
def tlsHostnameMatch (pattern host : List Byte) : Bool :=
  if pattern = [] ∨ host = [] then false
  else if pattern.take 2 = lit "*." then
    let suffix := pattern.tail
    if host.length ≤ suffix.length then false
    else
      let tail := host.drop (host.length - suffix.length)
      if tlsAsciiEqNocase tail suffix = false then false
      else !(host.take (host.length - suffix.length)).contains 0x2e
  else tlsAsciiEqNocase pattern host

/-- The host name is the name, letters in either case, or the name is a wildcard for the first label of
the host name. -/
def HostMatches (pattern host : List Byte) : Prop :=
  pattern ≠ [] ∧ host ≠ [] ∧
    if lit "*." <+: pattern then
      ∃ label rest, host = label ++ rest ∧ label ≠ [] ∧ 0x2e ∉ label ∧
        rest.map tolower = pattern.tail.map tolower
    else pattern.map tolower = host.map tolower

theorem tlsAsciiEqNocase_iff (as bs : List Byte) :
    tlsAsciiEqNocase as bs = true ↔ as.map tolower = bs.map tolower := by
  induction as generalizing bs with
  | nil => cases bs <;> simp [tlsAsciiEqNocase]
  | cons a as ih =>
    cases bs with
    | nil => simp [tlsAsciiEqNocase]
    | cons b bs =>
      rw [tlsAsciiEqNocase]
      by_cases hab : tolower a = tolower b
      · rw [if_neg (not_not.2 hab), ih bs]
        simp [hab]
      · simp [hab]

theorem take_two_eq_iff (pattern : List Byte) : pattern.take 2 = lit "*." ↔ lit "*." <+: pattern := by
  rw [List.prefix_iff_eq_take]
  exact eq_comm

theorem tlsHostnameMatch_iff (pattern host : List Byte) :
    tlsHostnameMatch pattern host = true ↔ HostMatches pattern host := by
  unfold tlsHostnameMatch HostMatches
  by_cases hempty : pattern = [] ∨ host = []
  · rw [if_pos hempty]
    rcases hempty with rfl | rfl <;> simp
  · rw [if_neg hempty]
    push Not at hempty
    by_cases hwild : lit "*." <+: pattern
    · rw [if_pos ((take_two_eq_iff pattern).2 hwild), if_pos hwild]
      have hlower : ∀ tail, ¬ tlsAsciiEqNocase tail pattern.tail = false ↔
          tail.map tolower = pattern.tail.map tolower := fun tail => by
        rw [← tlsAsciiEqNocase_iff, Bool.not_eq_false]
      constructor
      · intro h
        dsimp only at h
        split_ifs at h with hlen hcase
        refine ⟨hempty.1, hempty.2, _, _, (List.take_append_drop _ host).symm, ?_, ?_, (hlower _).1 hcase⟩
        · rw [ne_eq, List.take_eq_nil_iff]
          push Not
          exact ⟨by omega, hempty.2⟩
        · simpa using h
      · rintro ⟨-, -, label, rest, rfl, hlabel, hdot, hrest⟩
        have hlen : rest.length = pattern.tail.length := by
          simpa using congrArg List.length hrest
        have hpos := List.length_pos_iff.2 hlabel
        have hcut : (label ++ rest).length - pattern.tail.length = label.length := by
          rw [List.length_append]
          omega
        dsimp only
        rw [if_neg (by rw [List.length_append]; omega), hcut, List.drop_left, List.take_left,
          if_neg ((hlower rest).2 hrest)]
        simpa using hdot
    · rw [if_neg (fun h => hwild ((take_two_eq_iff pattern).1 h)), if_neg hwild, tlsAsciiEqNocase_iff]
      exact ⟨fun h => ⟨hempty.1, hempty.2, h⟩, fun h => h.2.2⟩

/-! ### The scan -/

abbrev tnuX509NameMax : ℕ := 128

/-- `struct tnu_x509_info`; the names are C strings. -/
structure X509Info where
  commonName : List Byte
  dnsNames : List (List Byte)
  fingerprint : List Byte
  deriving DecidableEq

/-- The C string that `tls_copy_string` leaves in a buffer of `outSize` bytes. -/
def tlsCopyString (outSize : ℕ) (mem : Memory) (value len : ℕ) : List Byte :=
  cstr ((List.range (min len (outSize - 1))).map fun i => mem (value + i))

/-- The string behind the identifier of a common name at `i`. -/
def cnAt (mem : Memory) (len i : ℕ) : Option (List Byte) :=
  if mem i = 0x06 ∧ mem (i + 1) = 3 ∧ mem (i + 2) = 0x55 ∧ mem (i + 3) = 0x04 ∧ mem (i + 4) = 0x03 then
    match derReadTlv mem len (i + 5) with
    | some (tag, value, n) =>
      if tag = 0x0c ∨ tag = 0x13 ∨ tag = 0x16 then some (tlsCopyString tnuX509NameMax mem value n) else none
    | none => none
  else none

/-- The string of a field at `i` with the tag of a DNS name. -/
def dnsAt (mem : Memory) (len i : ℕ) : Option (List Byte) :=
  if mem i = 0x82 ∧ i + 1 < len then
    match derReadTlv mem len i with
    | some (tag, value, n) =>
      if tag = 0x82 ∧ 0 < n ∧ n < tnuX509NameMax then some (tlsCopyString tnuX509NameMax mem value n)
      else none
    | none => none
  else none

/-- One turn of the loop of `x509_scan_names`. -/
def scanAt (mem : Memory) (len : ℕ) (info : X509Info) (i : ℕ) : X509Info :=
  let info :=
    match cnAt mem len i with
    | some name => if info.commonName = [] then { info with commonName := name } else info
    | none => info
  if info.dnsNames.length < 4 then
    match dnsAt mem len i with
    | some name => { info with dnsNames := info.dnsNames ++ [name] }
    | none => info
  else info

def x509ScanNames (mem : Memory) (len : ℕ) (info : X509Info) : X509Info :=
  (List.range (len - 5)).foldl (scanAt mem len) info

def derBytes (mem : Memory) (len : ℕ) : List Byte := (List.range len).map mem

abbrev tnuTlsErrCertUntrusted : ℤ := -6

abbrev tnuTlsErrCertHostname : ℤ := -7

abbrev tnuTlsErrCertParse : ℤ := -8

def tnuX509ParseDer (mem : Memory) (len : ℕ) : Except ℤ X509Info :=
  if len < 8 then .error tnuTlsErrCertParse
  else
    match derReadTlv mem len 0 with
    | some (tag, _, _) =>
      if tag ≠ 0x30 then .error tnuTlsErrCertParse
      else .ok (x509ScanNames mem len ⟨[], [], tnuSha256 (derBytes mem len)⟩)
    | none => .error tnuTlsErrCertParse

/-! ### Pins -/

def hexVal (c : Byte) : Option Byte :=
  if 0x30 ≤ c ∧ c ≤ 0x39 then some (c - 0x30)
  else if 0x61 ≤ c ∧ c ≤ 0x66 then some (10 + (c - 0x61))
  else if 0x41 ≤ c ∧ c ≤ 0x46 then some (10 + (c - 0x41))
  else none

/-- The loop of `parse_hex_sha256_line` with so many bytes to go. -/
def parseHexLoop : ℕ → List Byte → Option (List Byte)
  | 0, _ => some []
  | k + 1, p =>
    if p = [] then none
    else
      match p.dropWhile fun c => c = 0x3a || c = 0x20 || c = 0x09 with
      | a :: b :: rest =>
        match hexVal a, hexVal b with
        | some hi, some lo => (parseHexLoop k rest).map fun bytes => (hi <<< 4 ||| lo) :: bytes
        | _, _ => none
      | _ => none

def parseHexSha256Line (line : List Byte) : Option (List Byte) := parseHexLoop 32 line

/-- `tls_trust_store_has_fingerprint` with what is read from `/etc/ssl/certs/tnu-pins.txt`; there is
nothing when it cannot be opened. -/
def tlsTrustStoreHasFingerprint (pins : Option (List Byte)) (fp : List Byte) : Bool :=
  match pins with
  | none => false
  | some text =>
    ((cstr (text.take 1023)).splitOn 0x0a).any fun line =>
      match parseHexSha256Line line with
      | some parsed => bytesEq parsed fp
      | none => false

def tnuX509ValidateDer (pins : Option (List Byte)) (mem : Memory) (len : ℕ) (host : CString) : ℤ :=
  match tnuX509ParseDer mem len with
  | .error rc => rc
  | .ok info =>
    let hostOk :=
      if info.dnsNames ≠ [] then info.dnsNames.any fun name => tlsHostnameMatch name host.chars
      else if info.commonName ≠ [] then tlsHostnameMatch info.commonName host.chars
      else false
    if hostOk = false then tnuTlsErrCertHostname
    else if tlsTrustStoreHasFingerprint pins info.fingerprint = false then tnuTlsErrCertUntrusted
    else tnuTlsOk

/-! ### What the scan finds -/

def dnsNames (mem : Memory) (len : ℕ) : List (List Byte) :=
  (List.range (len - 5)).filterMap (dnsAt mem len)

/-- The names that are found behind the identifier of a common name. -/
def commonNames (mem : Memory) (len : ℕ) : List (List Byte) :=
  (List.range (len - 5)).filterMap (cnAt mem len)

variable {mem : Memory} {len : ℕ}

def firstName (name : List Byte) (names : List (List Byte)) : List Byte :=
  if name = [] then (names.find? (· ≠ [])).getD [] else name

theorem scanAt_eq (info : X509Info) (i : ℕ) :
    scanAt mem len info i =
      { commonName := firstName info.commonName (cnAt mem len i).toList
        dnsNames :=
          if info.dnsNames.length < 4 then info.dnsNames ++ (dnsAt mem len i).toList else info.dnsNames
        fingerprint := info.fingerprint } := by
  obtain ⟨cn, dns, fp⟩ := info
  unfold scanAt firstName
  cases cnAt mem len i with
  | none =>
    cases dnsAt mem len i <;> by_cases hdns : dns.length < 4 <;> by_cases hcn : cn = [] <;>
      simp [hdns, hcn]
  | some name =>
    cases dnsAt mem len i <;> by_cases hdns : dns.length < 4 <;> by_cases hcn : cn = [] <;>
      by_cases hname : name = [] <;> simp [hdns, hcn, hname]

theorem firstName_append (name : List Byte) (names names' : List (List Byte)) :
    firstName (firstName name names) names' = firstName name (names ++ names') := by
  unfold firstName
  by_cases hname : name = []
  · rw [if_pos hname, if_pos hname, List.find?_append]
    cases hfind : names.find? (· ≠ []) with
    | none => simp
    | some found =>
      have hne : found ≠ [] := by simpa using List.find?_some hfind
      simp [hne]
  · simp [hname]

theorem take_four_append (names names' : List (List Byte)) (hlen : names.length ≤ 4)
    (hone : names'.length ≤ 1) :
    (if names.length < 4 then names ++ names' else names) = (names ++ names').take 4 := by
  split_ifs with hlt
  · rw [List.take_of_length_le]
    rw [List.length_append]
    omega
  · rw [List.take_append_of_le_length (by omega), List.take_of_length_le hlen]

theorem take_append_take (names names' : List (List Byte)) :
    (names.take 4 ++ names').take 4 = (names ++ names').take 4 := by
  rcases le_total names.length 4 with hle | hge
  · rw [List.take_of_length_le hle]
  · rw [List.take_append_of_le_length (by rw [List.length_take]; omega), List.take_append_of_le_length hge,
      List.take_take, min_self]

theorem foldl_scanAt (l : List ℕ) (info : X509Info) (hlen : info.dnsNames.length ≤ 4) :
    l.foldl (scanAt mem len) info =
      { commonName := firstName info.commonName (l.filterMap (cnAt mem len))
        dnsNames := (info.dnsNames ++ l.filterMap (dnsAt mem len)).take 4
        fingerprint := info.fingerprint } := by
  induction l generalizing info with
  | nil =>
    obtain ⟨cn, dns, fp⟩ := info
    have htake : dns.take 4 = dns := List.take_of_length_le hlen
    by_cases hcn : cn = [] <;> simp [firstName, hcn, htake]
  | cons i l ih =>
    have hdns := take_four_append info.dnsNames (dnsAt mem len i).toList hlen (by
      cases dnsAt mem len i <;> simp)
    have hstep : scanAt mem len info i = _ := scanAt_eq info i
    rw [hdns] at hstep
    rw [List.foldl_cons, hstep, ih _ (by simp)]
    have hcns : (i :: l).filterMap (cnAt mem len) =
        (cnAt mem len i).toList ++ l.filterMap (cnAt mem len) := by
      cases hcn : cnAt mem len i <;> simp [hcn]
    have hnames : (i :: l).filterMap (dnsAt mem len) =
        (dnsAt mem len i).toList ++ l.filterMap (dnsAt mem len) := by
      cases hdns : dnsAt mem len i <;> simp [hdns]
    simp only [firstName_append, hcns, hnames, X509Info.mk.injEq, true_and, and_true]
    rw [take_append_take, List.append_assoc]

theorem x509ScanNames_eq (fp : List Byte) :
    x509ScanNames mem len ⟨[], [], fp⟩ =
      ⟨firstName [] (commonNames mem len), (dnsNames mem len).take 4, fp⟩ := by
  rw [x509ScanNames, foldl_scanAt _ _ (by simp)]
  rfl

/-! ### Pinned digests -/

def hexDigit (d : Byte) : Byte := if d < 10 then d + 0x30 else d + 0x57

def hexLine (fp : List Byte) : List Byte :=
  fp.flatMap fun b : Byte => [hexDigit (b >>> 4), hexDigit (b &&& 0x0f)]

def Pinned (pins : Option (List Byte)) (fp : List Byte) : Prop :=
  ∃ text ∈ pins, ∃ line ∈ (cstr (text.take 1023)).splitOn 0x0a, parseHexSha256Line line = some fp

variable {fp : List Byte}

theorem length_parseHexLoop {k : ℕ} {line : List Byte} (h : parseHexLoop k line = some fp) :
    fp.length = k := by
  induction k generalizing line fp with
  | zero =>
    obtain rfl : [] = fp := by simpa [parseHexLoop] using h
    rfl
  | succ k ih =>
    rw [parseHexLoop] at h
    split_ifs at h
    split at h
    · split at h
      · obtain ⟨bytes, hbytes, rfl⟩ := Option.map_eq_some_iff.1 h
        rw [List.length_cons, ih hbytes]
      · exact absurd h (by simp)
    · exact absurd h (by simp)

theorem tlsTrustStoreHasFingerprint_iff {pins : Option (List Byte)} (hfp : fp.length = 32) :
    tlsTrustStoreHasFingerprint pins fp = true ↔ Pinned pins fp := by
  cases pins with
  | none => simp [tlsTrustStoreHasFingerprint, Pinned]
  | some text =>
    simp only [tlsTrustStoreHasFingerprint, Pinned, List.any_eq_true, Option.mem_def,
      Option.some.injEq, exists_eq_left']
    refine exists_congr fun line => and_congr_right fun _ => ?_
    cases hparse : parseHexSha256Line line with
    | none => simp
    | some parsed =>
      have hlen : parsed.length = fp.length := (length_parseHexLoop hparse).trans hfp.symm
      rw [bytesEq_iff hlen, Option.some.injEq]

theorem forall_byte {p : Byte → Prop} (h : ∀ n < 256, p (UInt8.ofNat n)) (b : Byte) : p b := by
  have hb := h b.toNat b.toNat_lt
  rwa [UInt8.ofNat_toNat] at hb

theorem hexVal_hexDigit : ∀ d : Byte, d < 16 → hexVal (hexDigit d) = some d :=
  forall_byte (by decide +kernel)

theorem hexDigit_plain : ∀ d : Byte, d < 16 →
    hexDigit d ≠ 0x3a ∧ hexDigit d ≠ 0x20 ∧ hexDigit d ≠ 0x09 ∧ hexDigit d ≠ 0x0a ∧ hexDigit d ≠ 0 :=
  forall_byte (by decide +kernel)

theorem nibbles : ∀ b : Byte, b >>> 4 < 16 ∧ b &&& 0x0f < 16 ∧ b >>> 4 <<< 4 ||| b &&& 0x0f = b :=
  forall_byte (by decide +kernel)

theorem parseHexLoop_hexLine (fp : List Byte) : parseHexLoop fp.length (hexLine fp) = some fp := by
  induction fp with
  | nil => rfl
  | cons b fp ih =>
    obtain ⟨hhi, hlo, hb⟩ := nibbles b
    obtain ⟨hcolon, hblank, htab, -, -⟩ := hexDigit_plain _ hhi
    have hline : hexLine (b :: fp) = hexDigit (b >>> 4) :: hexDigit (b &&& 0x0f) :: hexLine fp := rfl
    rw [List.length_cons, parseHexLoop, if_neg (by simp [hline]), hline,
      List.dropWhile_cons_of_neg (by simp [hcolon, hblank, htab])]
    simp only [hexVal_hexDigit _ hhi, hexVal_hexDigit _ hlo, ih, Option.map_some, hb]

theorem parseHexSha256Line_hexLine (hfp : fp.length = 32) :
    parseHexSha256Line (hexLine fp) = some fp := by
  have h := parseHexLoop_hexLine fp
  rwa [hfp] at h

theorem not_mem_hexLine {c : Byte} (hc : c = 0x0a ∨ c = 0) : c ∉ hexLine fp := by
  intro hmem
  obtain ⟨b, -, hb⟩ := List.mem_flatMap.1 hmem
  obtain ⟨hhi, hlo, -⟩ := nibbles b
  have hdigit : ∀ d < 16, c ≠ hexDigit d := fun d hd heq => by
    rcases hc with rfl | rfl
    · exact (hexDigit_plain d hd).2.2.2.1 heq.symm
    · exact (hexDigit_plain d hd).2.2.2.2 heq.symm
  rcases List.mem_cons.1 hb with hb | hb
  · exact hdigit _ hhi hb
  · exact hdigit _ hlo (List.mem_singleton.1 hb)

theorem length_hexLine (fp : List Byte) : (hexLine fp).length = 2 * fp.length := by
  induction fp with
  | nil => rfl
  | cons b fp ih =>
    have hline : hexLine (b :: fp) = hexDigit (b >>> 4) :: hexDigit (b &&& 0x0f) :: hexLine fp := rfl
    rw [hline, List.length_cons, List.length_cons, ih, List.length_cons]
    omega

theorem pinned_hexLine (hfp : fp.length = 32) : Pinned (some (hexLine fp)) fp := by
  have hlen : (hexLine fp).length ≤ 1023 := by
    rw [length_hexLine]
    omega
  refine ⟨_, rfl, hexLine fp, ?_, parseHexSha256Line_hexLine hfp⟩
  rw [List.take_of_length_le hlen, cstr_of_notMem (not_mem_hexLine (.inr rfl)),
    List.splitOn_eq_singleton (not_mem_hexLine (.inl rfl))]
  exact List.mem_singleton_self _

/-! ### What is accepted -/

/-- The host name matches one of the first four DNS names that are found or, when none is found, the
first common name that is not empty. -/
def Named (mem : Memory) (len : ℕ) (host : CString) : Prop :=
  (∃ name ∈ (dnsNames mem len).take 4, HostMatches name host.chars) ∨
    dnsNames mem len = [] ∧
      ∃ name, (commonNames mem len).find? (· ≠ []) = some name ∧ HostMatches name host.chars

theorem named_iff (host : CString) :
    (if (dnsNames mem len).take 4 ≠ [] then
        ((dnsNames mem len).take 4).any fun name => tlsHostnameMatch name host.chars
      else if firstName [] (commonNames mem len) ≠ [] then
        tlsHostnameMatch (firstName [] (commonNames mem len)) host.chars
      else false) = true ↔ Named mem len host := by
  unfold Named firstName
  by_cases hdns : dnsNames mem len = []
  · rw [hdns]
    simp only [List.take_nil, ne_eq, not_true_eq_false, if_false, List.not_mem_nil, false_and,
      exists_false, false_or, true_and, if_true]
    cases hfind : (commonNames mem len).find? (· ≠ []) with
    | none => simp
    | some name =>
      have hne : name ≠ [] := by simpa using List.find?_some hfind
      simp [hne, tlsHostnameMatch_iff]
  · have htake : (dnsNames mem len).take 4 ≠ [] := by
      rw [ne_eq, List.take_eq_nil_iff]
      simpa using hdns
    rw [if_pos htake]
    simp only [List.any_eq_true, tlsHostnameMatch_iff, hdns, false_and, or_false]

theorem verdict_eq_ok (hostOk pinOk : Bool) :
    (if hostOk = false then tnuTlsErrCertHostname
      else if pinOk = false then tnuTlsErrCertUntrusted else tnuTlsOk) = tnuTlsOk ↔
      hostOk = true ∧ pinOk = true := by
  cases hostOk <;> cases pinOk <;> simp

theorem tnuX509ValidateDer_of_sequence (pins : Option (List Byte)) (host : CString) (hlen : 8 ≤ len)
    {value n : ℕ} (htlv : derReadTlv mem len 0 = some (0x30, value, n)) :
    tnuX509ValidateDer pins mem len host = tnuTlsOk ↔
      Named mem len host ∧ Pinned pins (tnuSha256 (derBytes mem len)) := by
  have hparse : tnuX509ParseDer mem len =
      .ok ⟨firstName [] (commonNames mem len), (dnsNames mem len).take 4,
        tnuSha256 (derBytes mem len)⟩ := by
    unfold tnuX509ParseDer
    rw [if_neg (not_lt.2 hlen), htlv]
    dsimp only
    rw [if_neg (not_not_intro rfl), x509ScanNames_eq]
  unfold tnuX509ValidateDer
  rw [hparse]
  dsimp only
  rw [verdict_eq_ok, named_iff, tlsTrustStoreHasFingerprint_iff (length_tnuSha256 _)]

/-- **A certificate is accepted exactly when it begins with a sequence, one of the strings the scan
finds matches the host name, and its digest is pinned.** -/
theorem tnuX509ValidateDer_eq_ok_iff (pins : Option (List Byte)) (mem : Memory) (len : ℕ)
    (host : CString) :
    tnuX509ValidateDer pins mem len host = tnuTlsOk ↔
      8 ≤ len ∧ (∃ value n, derReadTlv mem len 0 = some (0x30, value, n)) ∧ Named mem len host ∧
        Pinned pins (tnuSha256 (derBytes mem len)) := by
  constructor
  · intro h
    have hparsed : 8 ≤ len ∧ ∃ value n, derReadTlv mem len 0 = some (0x30, value, n) := by
      unfold tnuX509ValidateDer tnuX509ParseDer at h
      by_cases hlen : len < 8
      · simp [hlen] at h
      rw [if_neg hlen] at h
      cases htlv : derReadTlv mem len 0 with
      | none => simp [htlv] at h
      | some field =>
        obtain ⟨tag, value, n⟩ := field
        by_cases htag : tag = 0x30
        · exact ⟨not_lt.1 hlen, value, n, by rw [htag]⟩
        · simp [htlv, htag] at h
    obtain ⟨hlen, value, n, htlv⟩ := hparsed
    exact ⟨hlen, ⟨value, n, htlv⟩, (tnuX509ValidateDer_of_sequence pins host hlen htlv).1 h⟩
  · rintro ⟨hlen, ⟨value, n, htlv⟩, h⟩
    exact (tnuX509ValidateDer_of_sequence pins host hlen htlv).2 h

/-! ### The names of a certificate -/

def readLength : List Byte → Option (ℕ × List Byte)
  | [] => none
  | l :: rest =>
    if l < 0x80 then some (l.toNat, rest)
    else
      let bytes := (l - 0x80).toNat
      if rest.length < bytes then none
      else some ((rest.take bytes).foldl (fun n b => n * 256 + b.toNat) 0, rest.drop bytes)

def readField : List Byte → Option (Byte × List Byte × List Byte)
  | [] => none
  | tag :: rest =>
    match readLength rest with
    | some (n, rest) => if rest.length < n then none else some (tag, rest.take n, rest.drop n)
    | none => none

/-- The fields that a value of at most so many bytes consists of. -/
def readFields : ℕ → List Byte → Option (List (Byte × List Byte))
  | _, [] => some []
  | 0, _ :: _ => none
  | n + 1, b :: bs =>
    match readField (b :: bs) with
    | some (tag, value, rest) => (readFields n rest).map fun fields => (tag, value) :: fields
    | none => none

def fields (value : List Byte) : Option (List (Byte × List Byte)) := readFields value.length value

/-- The names in a certificate: the DNS names of the extension for alternative names, when there is one,
and the common name of the subject. -/
structure CertNames where
  dns : Option (List (List Byte))
  commonName : Option (List Byte)
  deriving DecidableEq

/-- The DNS names of an extension, when it is the one for alternative names. -/
def readAltNames (extension : List Byte) : Option (List (List Byte)) := do
  let parts ← fields extension
  guard (parts.head? = some (0x06, [0x55, 0x1d, 0x11]))
  let octets ← parts.getLast?
  guard (octets.1 = 0x04)
  match ← fields octets.2 with
  | [(0x30, names)] => return (← fields names).filterMap fun f => if f.1 = 0x82 then some f.2 else none
  | _ => none

/-- The common name of a name: in a sequence of sets of attributes. -/
def readCommonName (subject : List Byte) : Option (List Byte) := do
  let sets ← fields subject
  sets.findSome? fun set => do
    let pairs ← fields set.2
    pairs.findSome? fun pair => do
      match ← fields pair.2 with
      | [(0x06, [0x55, 0x04, 0x03]), (_, name)] => some name
      | _ => none

/-- The names of the signed part of a certificate, from its subject on. -/
def readSubject : List (Byte × List Byte) → Option CertNames
  | (0x30, subject) :: (0x30, _) :: rest => do
      let extensions ← match rest.find? fun f => f.1 = 0xa3 with
        | some f => do
            match ← fields f.2 with
            | [(0x30, list)] => fields list
            | _ => none
        | none => some []
      return ⟨extensions.findSome? fun f => readAltNames f.2, readCommonName subject⟩
  | _ => none

/-- A walk through a certificate: version, serial number, algorithm, issuer, validity, subject, key and
extensions, then the algorithm and the signature. -/
def CertNames.read (der : List Byte) : Option CertNames := do
  match ← fields der with
  | [(0x30, certificate)] =>
    match ← fields certificate with
    | [(0x30, signed), (0x30, _), (0x03, _)] =>
      match ← fields signed with
      | (0xa0, _) :: (0x02, _) :: (0x30, _) :: (0x30, _) :: (0x30, _) :: rest => readSubject rest
      | (0x02, _) :: (0x30, _) :: (0x30, _) :: (0x30, _) :: rest => readSubject rest
      | _ => none
    | _ => none
  | _ => none

/-- One of the DNS names of the extension is the host name or, when there is no extension, the common
name is. -/
def CertNames.Allow (names : CertNames) (host : CString) : Prop :=
  match names.dns with
  | some dns => ∃ name ∈ dns, HostMatches name host.chars
  | none => ∃ name ∈ names.commonName, HostMatches name host.chars

/-- What is accepted is a certificate with the host name among its names. -/
def NamesLaw (pins : Option (List Byte)) (mem : Memory) (len : ℕ) (host : CString) : Prop :=
  tnuX509ValidateDer pins mem len host = tnuTlsOk →
    ∃ names, CertNames.read (derBytes mem len) = some names ∧ names.Allow host

/-- A certificate for `b.io` that has `a.io`, behind the byte `0x82`, in its serial number. -/
def serialSample : List Byte :=
  [0x30, 0x42, 0x30, 0x3b, 0xa0, 0x03, 0x02, 0x01, 0x02, 0x02, 0x06, 0x82, 0x04, 0x61, 0x2e, 0x69, 0x6f,
   0x30, 0x00, 0x30, 0x00, 0x30, 0x00, 0x30, 0x0f, 0x31, 0x0d, 0x30, 0x0b, 0x06, 0x03, 0x55, 0x04, 0x03,
   0x0c, 0x04, 0x62, 0x2e, 0x69, 0x6f, 0x30, 0x00, 0xa3, 0x13, 0x30, 0x11, 0x30, 0x0f, 0x06, 0x03, 0x55,
   0x1d, 0x11, 0x04, 0x08, 0x30, 0x06, 0x82, 0x04, 0x62, 0x2e, 0x69, 0x6f, 0x30, 0x00, 0x03, 0x01, 0x00]

/-- The bytes of the serial number are taken for a name. -/
theorem not_namesLaw :
    ¬ ∀ (pins : Option (List Byte)) (mem : Memory) (len : ℕ) (host : CString),
      NamesLaw pins mem len host := by
  intro hall
  have hbytes : derBytes (fun i => serialSample.getD i 0) 68 = serialSample := by rfl
  have hread : CertNames.read serialSample = some ⟨some [lit "b.io"], some (lit "b.io")⟩ := by
    decide +kernel
  have hdns : dnsNames (fun i => serialSample.getD i 0) 68 = [lit "a.io", lit "b.io"] := by
    decide +kernel
  have hnamed : Named (fun i => serialSample.getD i 0) 68 ⟨lit "a.io", by decide⟩ := by
    refine .inl ⟨lit "a.io", ?_, ?_⟩
    · rw [hdns]
      simp
    · rw [← tlsHostnameMatch_iff]
      rfl
  have hlaw := hall (some (hexLine (tnuSha256 serialSample))) (fun i => serialSample.getD i 0) 68
    ⟨lit "a.io", by decide⟩
  rw [NamesLaw, hbytes, hread, tnuX509ValidateDer_of_sequence _ _ (by norm_num) (by rfl),
    hbytes] at hlaw
  obtain ⟨names, hnames, hallow⟩ := hlaw ⟨hnamed, pinned_hexLine (length_tnuSha256 _)⟩
  obtain rfl := Option.some.inj hnames
  obtain ⟨name, hname, hmatch⟩ := hallow
  obtain rfl := List.mem_singleton.1 hname
  rw [← tlsHostnameMatch_iff] at hmatch
  exact absurd hmatch (by decide)

end Tnu.Tls
