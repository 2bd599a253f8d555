/-
**The URL of a request.**

`tls_parse_https_url` of `userspace/libc/src/tls.c` splits a URL at the first slash and the first colon.
A host that does not fit its buffer is refused, and so is a port that is not a number from 1 to 65535; a
path that does not fit is cut.  A question mark, a number sign or an at sign in front of the first slash
stays in the host.

Main definitions:

* `tlsParseHttpsUrl` — the parser.

Main result:

* `faithful_iff` — **a URL that is accepted is held faithfully exactly when its parts fit**.
-/

import Tnu.Tls.Aead

set_option autoImplicit false

namespace Tnu.Tls

/-! ### The parser -/

/-- `struct tls_url`. -/
structure TlsUrl where
  host : CharBuf 127
  path : CharBuf 255
  port : UInt16

def IsDigit (c : Byte) : Prop := 0x30 ≤ c ∧ c ≤ 0x39

instance (c : Byte) : Decidable (IsDigit c) := inferInstanceAs (Decidable (0x30 ≤ c ∧ c ≤ 0x39))

/-- The loop over the digits of a port; the product and the sum are of 32 bits. -/
def portLoop : List Byte → ℕ → Option ℕ
  | [], port => some port
  | c :: p, port =>
    if ¬IsDigit c then none
    else if 65535 < (port * 10 + (c - 0x30).toNat) % 2 ^ 32 then none
    else portLoop p ((port * 10 + (c - 0x30).toNat) % 2 ^ 32)

def parsePort : List Byte → Option ℕ
  | [] => some 443
  | _ :: p =>
    if p = [] then none
    else
      match portLoop p 0 with
      | some port => if port = 0 then none else some port
      | none => none

def httpsScheme : List Byte := lit "https://"

def beforeSlash (url : CString) : List Byte := (url.chars.drop 8).takeWhile (· ≠ 0x2f)

def fromSlash (url : CString) : List Byte := (url.chars.drop 8).dropWhile (· ≠ 0x2f)

def hostText (url : CString) : List Byte := (beforeSlash url).takeWhile (· ≠ 0x3a)

def colonText (url : CString) : List Byte := (beforeSlash url).dropWhile (· ≠ 0x3a)

def pathText (url : CString) : List Byte := if fromSlash url ≠ [] then fromSlash url else [0x2f]

def tlsParseHttpsUrl (url : CString) : Except ℤ TlsUrl :=
  if url.chars.take 8 ≠ httpsScheme then .error tnuTlsErrBadUrl
  else if (hostText url).length = 0 ∨ 128 ≤ (hostText url).length then .error tnuTlsErrBadUrl
  else
    match parsePort (colonText url) with
    | none => .error tnuTlsErrBadUrl
    | some port =>
      .ok ⟨CharBuf.strncpy 127 (hostText url), CharBuf.strncpy 255 (pathText url), UInt16.ofNat port⟩

/-! ### The parts of a URL -/

/-- The characters that end the part of a URL with the host and the port. -/
def IsDelimiter (c : Byte) : Prop := c = 0x2f ∨ c = 0x3f ∨ c = 0x23

def decimal (digits : List Byte) : ℕ := digits.foldl (fun n c => n * 10 + (c - 0x30).toNat) 0

/-- The text between the host and what is asked for: nothing, or a colon and the digits of a port. -/
def PortText (text : List Byte) (port : ℕ) : Prop :=
  text = [] ∧ port = 443 ∨
    ∃ digits, text = 0x3a :: digits ∧ digits ≠ [] ∧ (∀ c ∈ digits, IsDigit c) ∧ decimal digits = port

/-- **The record holds the parts of the URL**: put together again they are the URL, with a port and a
slash where it leaves them out. -/
def TlsUrl.Faithful (u : TlsUrl) (url : CString) : Prop :=
  ∃ host text target, url.chars = httpsScheme ++ host ++ text ++ target ∧
    (host ≠ [] ∧ ∀ c ∈ host, ¬IsDelimiter c ∧ c ≠ 0x3a ∧ c ≠ 0x40) ∧
    (∀ c ∈ target.head?, IsDelimiter c) ∧
    u.host.chars = host ∧ PortText text u.port.toNat ∧ 1 ≤ u.port.toNat ∧
    u.path.chars = if target.head? = some 0x2f then target else 0x2f :: target

/-- **The parts have a place in the record**: there is no user, no query and no fragment in front of the
first slash, and what follows it is shorter than the buffer. -/
structure Fits (url : CString) : Prop where
  plain : ∀ c ∈ beforeSlash url, c ≠ 0x3f ∧ c ≠ 0x23 ∧ c ≠ 0x40
  short : (fromSlash url).length ≤ 255

/-! ### The port -/

variable {c : Byte} {url : CString} {text : List Byte} {u : TlsUrl} {port : ℕ}

theorem digit_toNat (h : IsDigit c) : (c - 0x30).toNat ≤ 9 := by
  have h1 := UInt8.le_iff_toNat_le.1 h.1
  have h2 := UInt8.le_iff_toNat_le.1 h.2
  rw [UInt8.toNat_sub_of_le _ _ h.1]
  change 48 ≤ c.toNat at h1
  change c.toNat ≤ 57 at h2
  change c.toNat - 48 ≤ 9
  omega

/-- **A port is the number that its digits write.** -/
theorem portLoop_eq_some {p : List Byte} {n : ℕ} (hport : port ≤ 65535)
    (h : portLoop p port = some n) :
    (∀ c ∈ p, IsDigit c) ∧ n = p.foldl (fun n c => n * 10 + (c - 0x30).toNat) port ∧ n ≤ 65535 := by
  induction p generalizing port with
  | nil =>
    rw [portLoop, Option.some.injEq] at h
    exact ⟨by simp, h.symm, h ▸ hport⟩
  | cons c p ih =>
    rw [portLoop] at h
    split_ifs at h with hdigit hlarge
    have hd := digit_toNat hdigit
    rw [Nat.mod_eq_of_lt (by omega)] at h hlarge
    obtain ⟨hdigits, hvalue, hle⟩ := ih (by omega) h
    exact ⟨List.forall_mem_cons.2 ⟨hdigit, hdigits⟩, hvalue, hle⟩

theorem parsePort_eq_some (hcolon : ∀ c ∈ text.head?, c = 0x3a)
    (h : parsePort text = some port) : PortText text port ∧ 1 ≤ port ∧ port ≤ 65535 := by
  cases text with
  | nil =>
    rw [parsePort, Option.some.injEq] at h
    exact ⟨.inl ⟨rfl, h.symm⟩, by omega, by omega⟩
  | cons c p =>
    have hc : c = 0x3a := hcolon c rfl
    rw [parsePort] at h
    split_ifs at h with hnil
    cases hloop : portLoop p 0 with
    | none =>
      rw [hloop] at h
      cases h
    | some n =>
      rw [hloop] at h
      dsimp only at h
      split_ifs at h with hzero
      obtain rfl := Option.some.inj h
      obtain ⟨hdigits, hvalue, hle⟩ := portLoop_eq_some (Nat.zero_le _) hloop
      exact ⟨.inr ⟨p, by rw [hc], hnil, hdigits, hvalue.symm⟩, by omega, hle⟩

theorem mem_of_mem_beforeSlash (h : c ∈ beforeSlash url) : c ∈ url.chars :=
  List.mem_of_mem_drop ((List.takeWhile_prefix _).mem h)

theorem mem_of_mem_fromSlash (h : c ∈ fromSlash url) : c ∈ url.chars :=
  List.mem_of_mem_drop ((List.dropWhile_suffix _).mem h)

theorem mem_hostText (h : c ∈ hostText url) :
    c ∈ beforeSlash url ∧ c ≠ 0x3a :=
  ⟨(List.takeWhile_prefix _).mem h, by simpa using List.mem_takeWhile_imp h⟩

theorem head?_colonText (url : CString) : ∀ c ∈ (colonText url).head?, c = 0x3a := by
  intro c hc
  have hhead := List.head?_dropWhile_not (fun c : Byte => decide (c ≠ 0x3a)) (beforeSlash url)
  rw [← colonText] at hhead
  cases htext : colonText url with
  | nil => simp [htext] at hc
  | cons b text =>
    rw [htext, List.head?_cons] at hhead hc
    obtain rfl := Option.some.inj hc
    simpa using hhead

theorem head?_fromSlash (url : CString) : ∀ c ∈ (fromSlash url).head?, c = 0x2f := by
  intro c hc
  have hhead := List.head?_dropWhile_not (fun c : Byte => decide (c ≠ 0x2f)) (url.chars.drop 8)
  rw [← fromSlash] at hhead
  cases htext : fromSlash url with
  | nil => simp [htext] at hc
  | cons b text =>
    rw [htext, List.head?_cons] at hhead hc
    obtain rfl := Option.some.inj hc
    simpa using hhead

theorem chars_eq (h : url.chars.take 8 = httpsScheme) :
    url.chars = httpsScheme ++ hostText url ++ colonText url ++ fromSlash url := by
  rw [List.append_assoc httpsScheme, hostText, colonText, List.takeWhile_append_dropWhile,
    List.append_assoc, beforeSlash, fromSlash, List.takeWhile_append_dropWhile, ← h, List.take_append_drop]

theorem of_accepted (h : tlsParseHttpsUrl url = .ok u) :
    url.chars.take 8 = httpsScheme ∧ hostText url ≠ [] ∧ u.host.chars = hostText url ∧
      parsePort (colonText url) = some u.port.toNat ∧ u.path.chars = (pathText url).take 255 := by
  rw [tlsParseHttpsUrl] at h
  by_cases hscheme : url.chars.take 8 = httpsScheme
  · rw [if_neg (not_not.2 hscheme)] at h
    by_cases hhost : (hostText url).length = 0 ∨ 128 ≤ (hostText url).length
    · rw [if_pos hhost] at h
      cases h
    rw [if_neg hhost] at h
    rw [not_or, not_le] at hhost
    cases hport : parsePort (colonText url) with
    | none =>
      rw [hport] at h
      cases h
    | some port =>
      rw [hport] at h
      obtain rfl := Except.ok.inj h
      have hrange := parsePort_eq_some (head?_colonText url) hport
      have hnat : (UInt16.ofNat port).toNat = port := by
        rw [UInt16.toNat_ofNat']
        exact Nat.mod_eq_of_lt (by omega)
      have hhost0 : 0 ∉ hostText url := fun hc =>
        url.nul_free (mem_of_mem_beforeSlash (mem_hostText hc).1)
      have hpath0 : 0 ∉ pathText url := by
        rw [pathText]
        split
        · exact fun hc => url.nul_free (mem_of_mem_fromSlash hc)
        · decide
      refine ⟨hscheme, fun hnil => hhost.1 (by rw [hnil]; rfl), ?_, by rw [hnat], ?_⟩
      · exact CharBuf.strncpy_chars_of_le hhost0 (by omega)
      · rw [CharBuf.strncpy_chars, cstr_of_notMem hpath0]
  · rw [if_pos hscheme] at h
    cases h

/-! ### What is kept -/

/-- **A URL whose parts fit is held faithfully.** -/
theorem faithful_of_fits (h : tlsParseHttpsUrl url = .ok u) (hf : Fits url) :
    u.Faithful url := by
  obtain ⟨hscheme, hne, hhost, hport, hpath⟩ := of_accepted h
  obtain ⟨htext, hone, -⟩ := parsePort_eq_some (head?_colonText url) hport
  refine ⟨hostText url, colonText url, fromSlash url, chars_eq hscheme, ⟨hne, fun c hc => ?_⟩,
    fun c hc => .inl (head?_fromSlash url c hc), hhost, htext, hone, ?_⟩
  · obtain ⟨hmem, hcolon⟩ := mem_hostText hc
    obtain ⟨hquery, hfragment, huser⟩ := hf.plain c hmem
    have hslash : c ≠ 0x2f := by simpa using List.mem_takeWhile_imp hmem
    refine ⟨?_, hcolon, huser⟩
    rintro (rfl | rfl | rfl)
    · exact hslash rfl
    · exact hquery rfl
    · exact hfragment rfl
  · rw [hpath, pathText]
    cases htarget : fromSlash url with
    | nil => rfl
    | cons c target =>
      have hc : c = 0x2f := head?_fromSlash url c (by rw [htarget]; rfl)
      have hshort := hf.short
      rw [htarget] at hshort
      rw [if_pos (by simp), List.take_of_length_le hshort, hc]
      rfl

theorem beforeSlash_append {front target : List Byte}
    (h : url.chars = httpsScheme ++ front ++ target) (hfront : ∀ c ∈ front, c ≠ 0x2f) :
    beforeSlash url = front ++ target.takeWhile (· ≠ 0x2f) ∧ fromSlash url = target.dropWhile (· ≠ 0x2f) := by
  have hdrop : url.chars.drop 8 = front ++ target := by
    rw [h, List.append_assoc]
    exact List.drop_left' rfl
  have hpos : ∀ c ∈ front, decide (c ≠ 0x2f) = true := fun c hc => by simpa using hfront c hc
  rw [beforeSlash, fromSlash, hdrop]
  exact ⟨List.takeWhile_append_of_pos hpos, List.dropWhile_append_of_pos hpos⟩

theorem plain_of_portText (h : PortText text port) :
    ∀ c ∈ text, c ≠ 0x2f ∧ c ≠ 0x3f ∧ c ≠ 0x23 ∧ c ≠ 0x40 := by
  have hdigit : ∀ c : Byte, IsDigit c → c ≠ 0x2f ∧ c ≠ 0x3f ∧ c ≠ 0x23 ∧ c ≠ 0x40 := by
    intro c hc
    refine ⟨?_, ?_, ?_, ?_⟩ <;> rintro rfl <;> exact absurd hc (by decide)
  rcases h with ⟨rfl, -⟩ | ⟨digits, rfl, -, hdigits, -⟩
  · simp
  · exact List.forall_mem_cons.2 ⟨by decide, fun c hc => hdigit c (hdigits c hc)⟩

theorem not_faithful_front {host rest : List Byte} {port' : ℕ}
    (hc : c = 0x3f ∨ c = 0x23) (hhost : ∀ c ∈ host, c ≠ 0x3a) (htext : PortText text port)
    (hfront : beforeSlash url = host ++ text ++ c :: rest) (hname : hostText url = host)
    (hport : parsePort (colonText url) = some port') : False := by
  have hpos : ∀ b ∈ host, decide (b ≠ 0x3a) = true := fun b hb => by simpa using hhost b hb
  have hcolon : c ≠ 0x3a := by rcases hc with rfl | rfl <;> decide
  rcases htext with ⟨rfl, -⟩ | ⟨digits, rfl, -, -, -⟩
  · rw [hostText, hfront, List.append_nil, List.takeWhile_append_of_pos hpos,
      List.takeWhile_cons_of_pos (by simpa using hcolon)] at hname
    have hlen := congrArg List.length hname
    rw [List.length_append, List.length_cons] at hlen
    omega
  · have hrest : colonText url = 0x3a :: (digits ++ c :: rest) := by
      rw [colonText, hfront, List.append_assoc, List.dropWhile_append_of_pos hpos, List.cons_append,
        List.dropWhile_cons_of_neg (by simp)]
    rw [hrest] at hport
    obtain ⟨hptext, -, -⟩ := parsePort_eq_some (by simp) hport
    rcases hptext with ⟨hnil, -⟩ | ⟨digits', hcons, -, hdigits, -⟩
    · cases hnil
    · obtain ⟨-, rfl⟩ := List.cons.inj hcons
      have hdigit := hdigits c (by simp)
      rcases hc with rfl | rfl
      · exact absurd hdigit (by decide)
      · exact absurd hdigit (by decide)

/-- **A URL that is held faithfully has parts that fit.** -/
theorem fits_of_faithful (h : tlsParseHttpsUrl url = .ok u)
    (hu : u.Faithful url) : Fits url := by
  obtain ⟨-, -, hhost, hport, hpath⟩ := of_accepted h
  obtain ⟨host, text, target, heq, ⟨-, hchars⟩, htarget, hhost', htext, -, hpath'⟩ := hu
  have hplain : ∀ c ∈ host ++ text, c ≠ 0x2f ∧ c ≠ 0x3f ∧ c ≠ 0x23 ∧ c ≠ 0x40 := by
    intro c hc
    rcases List.mem_append.1 hc with hc | hc
    · obtain ⟨hdelim, -, huser⟩ := hchars c hc
      exact ⟨fun e => hdelim (.inl e), fun e => hdelim (.inr (.inl e)), fun e => hdelim (.inr (.inr e)),
        huser⟩
    · exact plain_of_portText htext c hc
  rw [List.append_assoc httpsScheme] at heq
  obtain ⟨hbefore, hfrom⟩ := beforeSlash_append heq fun c hc => (hplain c hc).1
  cases target with
  | nil =>
    rw [List.takeWhile_nil, List.append_nil] at hbefore
    rw [List.dropWhile_nil] at hfrom
    exact ⟨fun c hc => (hplain c (hbefore ▸ hc)).2, by rw [hfrom]; norm_num⟩
  | cons c target =>
    rcases htarget c rfl with rfl | hc
    · -- the path begins with the slash
      rw [List.takeWhile_cons_of_neg (by simp), List.append_nil] at hbefore
      rw [List.dropWhile_cons_of_neg (by simp)] at hfrom
      refine ⟨fun c hc => (hplain c (hbefore ▸ hc)).2, ?_⟩
      rw [List.head?_cons, if_pos rfl] at hpath'
      rw [pathText, hfrom, if_pos (by simp), hpath'] at hpath
      have hlen := congrArg List.length hpath
      rw [List.length_take] at hlen
      rw [hfrom, hlen]
      exact min_le_left _ _
    · have hslash : c ≠ 0x2f := by rcases hc with rfl | rfl <;> decide
      rw [List.takeWhile_cons_of_pos (by simpa using hslash)] at hbefore
      exact (not_faithful_front hc (fun b hb => (hchars b hb).2.1) htext hbefore
        (hhost.symm.trans hhost') hport).elim

/-- **A URL that is accepted is held faithfully exactly when its parts fit.** -/
theorem faithful_iff {url : CString} {u : TlsUrl} (h : tlsParseHttpsUrl url = .ok u) :
    u.Faithful url ↔ Fits url :=
  ⟨fits_of_faithful h, faithful_of_fits h⟩

/-! ### Two URLs -/

def longUrl (n : ℕ) : CString where
  chars := httpsScheme ++ [0x68] ++ 0x2f :: List.replicate n 0x61
  nul_free := by
    intro h
    simp only [List.mem_append, List.mem_cons, List.not_mem_nil, or_false, List.mem_replicate] at h
    rcases h with (h | h) | h | ⟨-, h⟩
    · exact absurd h (by decide)
    · exact absurd h (by decide)
    · exact absurd h (by decide)
    · exact absurd h (by decide)

theorem longUrl_parts (n : ℕ) : beforeSlash (longUrl n) = [0x68] ∧
    fromSlash (longUrl n) = 0x2f :: List.replicate n 0x61 := by
  have hchars : (longUrl n).chars = httpsScheme ++ [0x68] ++ 0x2f :: List.replicate n 0x61 := rfl
  have h := beforeSlash_append hchars (by decide +kernel)
  rw [List.takeWhile_cons_of_neg (by simp), List.dropWhile_cons_of_neg (by simp)] at h
  exact h

def longRecord (n : ℕ) : TlsUrl :=
  ⟨CharBuf.strncpy 127 [0x68], CharBuf.strncpy 255 (0x2f :: List.replicate n 0x61), 443⟩

theorem longUrl_accepted (n : ℕ) : tlsParseHttpsUrl (longUrl n) = .ok (longRecord n) := by
  obtain ⟨hbefore, hfrom⟩ := longUrl_parts n
  have hhost : hostText (longUrl n) = [0x68] := by rw [hostText, hbefore]; decide
  have hcolon : colonText (longUrl n) = [] := by rw [colonText, hbefore]; decide
  have hpath : pathText (longUrl n) = 0x2f :: List.replicate n 0x61 := by
    rw [pathText, hfrom, if_pos (by simp)]
  have hscheme : (longUrl n).chars.take 8 = httpsScheme := rfl
  rw [tlsParseHttpsUrl, if_neg (not_not.2 hscheme), hhost, if_neg (by decide), hcolon, hpath]
  rfl

/-- A path of 255 characters. -/
theorem faithful_iff_fits : (longRecord 254).Faithful (longUrl 254) :=
  (faithful_iff (longUrl_accepted 254)).2
    ⟨by rw [(longUrl_parts 254).1]; decide +kernel, by
      rw [(longUrl_parts 254).2, List.length_cons, List.length_replicate]⟩

/-- One more is cut off. -/
theorem not_faithful : ¬∀ (url : CString) (u : TlsUrl), tlsParseHttpsUrl url = .ok u → u.Faithful url := by
  intro hall
  have hshort := (fits_of_faithful (longUrl_accepted 255) (hall _ _ (longUrl_accepted 255))).short
  rw [(longUrl_parts 255).2, List.length_cons, List.length_replicate] at hshort
  omega

end Tnu.Tls
