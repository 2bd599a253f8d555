/-
**Addresses as text.**

`net_parse_ipv4` of `kernel/drivers/net/net.c` and `inet_pton` of the C library read an address with the same
loop: four runs of digits, each of which stays below 256 after every digit, with a dot behind the first three.
A run may be empty as long as it is not at the end of the string, so that `1..2.3` is read as an address; and the
kernel's function answers a failure with zero, which is an address as well.

Main definitions:

* `netParseIpv4`, `inetPton` — the two functions, and `netFormatIpv4`.

Main results:

* `parseOctets_eq_some_iff` — **what the loop accepts**;
* `parse_laws` — **the two functions do what they should exactly for the strings without such a gap that are
  not the address zero**.
-/

import Tnu.CString
import Tnu.Printf

set_option autoImplicit false

namespace Tnu.Net

/-! ### The source -/

/-- `.`. -/
def dotChar : Byte := 46

/-- `*s >= '0' && *s <= '9'`. -/
def isDigit (c : Byte) : Bool := 48 ≤ c && c ≤ 57

/-- `*s - '0'`. -/
def digitOf (c : Byte) : ℕ := c.toNat - 48

/-- The loop over the digits of one number.  The number is below 256 before each of them, so that it cannot
overflow. -/
def octetLoop : ℕ → List Byte → Option (ℕ × List Byte)
  | value, [] => some (value, [])
  | value, c :: s =>
    if isDigit c then
      if 255 < value * 10 + digitOf c then none else octetLoop (value * 10 + digitOf c) s
    else some (value, c :: s)

/-- The loop over the numbers, with so many to go behind this one. -/
def parseOctets : ℕ → List Byte → Option (List ℕ × List Byte)
  | 0, s => if s = [] then none else (octetLoop 0 s).map fun r => ([r.1], r.2)
  | more + 1, s =>
    if s = [] then none
    else
      (octetLoop 0 s).bind fun r =>
        match r.2 with
        | [] => none
        | c :: s => if c ≠ dotChar then none else (parseOctets more s).map fun q => (r.1 :: q.1, q.2)

def ipv4Make (a b c d : UInt8) : UInt32 :=
  a.toUInt32 <<< 24 ||| b.toUInt32 <<< 16 ||| c.toUInt32 <<< 8 ||| d.toUInt32

def ofOctets (octets : List ℕ) : UInt32 :=
  ipv4Make (UInt8.ofNat (octets.getD 0 0)) (UInt8.ofNat (octets.getD 1 0)) (UInt8.ofNat (octets.getD 2 0))
    (UInt8.ofNat (octets.getD 3 0))

def wholeOctets (s : List Byte) : Option (List ℕ) :=
  (parseOctets 3 s).bind fun r => if r.2 = [] then some r.1 else none

def netParseIpv4 (s : CString) : UInt32 :=
  match wholeOctets s.chars with
  | some octets => ofOctets octets
  | none => 0

def htonl (hostlong : UInt32) : UInt32 :=
  ((hostlong &&& 0x000000ff) <<< 24) ||| ((hostlong &&& 0x0000ff00) <<< 8) |||
    ((hostlong &&& 0x00ff0000) >>> 8) ||| ((hostlong &&& 0xff000000) >>> 24)

/-- `inet_pton`, of pointers that may be null: what it returns, and what it stores. -/
def inetPton (af : ℤ) (src : Option CString) (dst : Bool) : ℤ × Option UInt32 :=
  match src with
  | none => (-1, none)
  | some src =>
    if af ≠ 2 ∨ dst = false then (-1, none)
    else
      match wholeOctets src.chars with
      | some octets => (1, some (htonl (ofOctets octets)))
      | none => (0, none)

/-- The text of `net_format_ipv4`. -/
def ipv4Text (ip : UInt32) : List Byte :=
  unsignedToString 10 ((ip >>> 24) &&& 0xff).toNat ++ dotChar :: (unsignedToString 10 ((ip >>> 16) &&& 0xff).toNat ++
    dotChar :: (unsignedToString 10 ((ip >>> 8) &&& 0xff).toNat ++
      dotChar :: unsignedToString 10 (ip &&& 0xff).toNat))

/-- `net_format_ipv4`, into a buffer of `outSize` bytes. -/
def netFormatIpv4 (ip : UInt32) (outSize : ℕ) : List Byte := ksnprintf outSize (ipv4Text ip)

/-! ### What they should do -/

def spelled (p : List Byte) : ℕ := p.foldl (fun value c => value * 10 + digitOf c) 0

def Run (p : List Byte) (n : ℕ) : Prop := (∀ c ∈ p, isDigit c = true) ∧ spelled p = n ∧ n ≤ 255

/-- Four runs of digits with dots between them. -/
structure Runs (s : List Byte) (p₀ p₁ p₂ p₃ : List Byte) (a b c d : ℕ) : Prop where
  text : s = p₀ ++ dotChar :: (p₁ ++ dotChar :: (p₂ ++ dotChar :: p₃))
  first : Run p₀ a
  second : Run p₁ b
  third : Run p₂ c
  fourth : Run p₃ d

/-- **A dotted quad**: four decimal numbers up to 255 with single dots between them. -/
def Quad (s : List Byte) (a b c d : ℕ) : Prop :=
  ∃ p₀ p₁ p₂ p₃, Runs s p₀ p₁ p₂ p₃ a b c d ∧ p₀ ≠ [] ∧ p₁ ≠ [] ∧ p₂ ≠ [] ∧ p₃ ≠ []

def Gapped (s : List Byte) : Prop :=
  ∃ p₀ p₁ p₂ p₃ a b c d, Runs s p₀ p₁ p₂ p₃ a b c d ∧ (p₀ = [] ∨ p₁ = [] ∨ p₂ = []) ∧ p₃ ≠ []

def quadValue (a b c d : ℕ) : UInt32 := UInt32.ofNat (((a * 256 + b) * 256 + c) * 256 + d)

/-- **What a string should be read as**: `net_parse_ipv4` succeeds exactly with the dotted quads and returns their
value, and `inet_pton` accepts the same strings with the same values. -/
structure ParseLaw (s : CString) : Prop where
  succeeds : netParseIpv4 s ≠ 0 ↔ ∃ a b c d, Quad s.chars a b c d
  value : ∀ a b c d, Quad s.chars a b c d → netParseIpv4 s = quadValue a b c d
  accepts : (inetPton 2 (some s) true).1 = 1 ↔ ∃ a b c d, Quad s.chars a b c d
  stored : ∀ a b c d, Quad s.chars a b c d → (inetPton 2 (some s) true).2 = some (htonl (quadValue a b c d))

/-! ### What the loop accepts -/

variable {s rest p : List Byte} {value n : ℕ}

theorem le_foldl_digits (p : List Byte) (value : ℕ) : value ≤ p.foldl (fun value c => value * 10 + digitOf c) value := by
  induction p generalizing value with
  | nil => exact le_rfl
  | cons c p ih => exact le_trans (by omega) (ih (value * 10 + digitOf c))

theorem octetLoop_eq_some_iff (h : value ≤ 255) :
    octetLoop value s = some (n, rest) ↔ ∃ p, s = p ++ rest ∧ (∀ c ∈ p, isDigit c = true) ∧
      (∀ c ∈ rest.head?, isDigit c = false) ∧ p.foldl (fun value c => value * 10 + digitOf c) value = n ∧ n ≤ 255 := by
  induction s generalizing value with
  | nil =>
    rw [octetLoop, Option.some.injEq, Prod.mk.injEq]
    constructor
    · rintro ⟨rfl, rfl⟩
      exact ⟨[], rfl, by simp, by simp, rfl, h⟩
    · rintro ⟨p, hs, -, -, hn, -⟩
      obtain ⟨rfl, rfl⟩ := List.append_eq_nil_iff.1 hs.symm
      exact ⟨hn, rfl⟩
  | cons c s ih =>
    rw [octetLoop]
    by_cases hc : isDigit c = true
    · rw [if_pos hc]
      -- The run cannot stop in front of a digit.
      have hstep : ∀ p, c :: s = p ++ rest → (∀ c ∈ rest.head?, isDigit c = false) → ∃ p', p = c :: p' := by
        intro p hs hstop
        cases p with
        | nil =>
          have := hstop c (by rw [← hs.trans (List.nil_append rest)]; rfl)
          rw [hc] at this
          simp at this
        | cons d p' => exact ⟨p', by rw [(List.cons.inj hs).1]⟩
      by_cases hbig : 255 < value * 10 + digitOf c
      · rw [if_pos hbig]
        simp only [reduceCtorEq, false_iff]
        rintro ⟨p, hs, -, hstop, hn, hle⟩
        obtain ⟨p', rfl⟩ := hstep p hs hstop
        have hge := le_foldl_digits p' (value * 10 + digitOf c)
        rw [List.foldl_cons] at hn
        omega
      · rw [if_neg hbig, ih (not_lt.1 hbig)]
        constructor
        · rintro ⟨p, rfl, hdigits, hstop, hn, hle⟩
          exact ⟨c :: p, rfl, List.forall_mem_cons.2 ⟨hc, hdigits⟩, hstop, hn, hle⟩
        · rintro ⟨p, hs, hdigits, hstop, hn, hle⟩
          obtain ⟨p', rfl⟩ := hstep p hs hstop
          exact ⟨p', (List.cons.inj hs).2, (List.forall_mem_cons.1 hdigits).2, hstop, hn, hle⟩
    · rw [if_neg hc, Option.some.injEq, Prod.mk.injEq]
      rw [Bool.not_eq_true] at hc
      constructor
      · rintro ⟨rfl, rfl⟩
        exact ⟨[], rfl, by simp, by simpa using hc, rfl, h⟩
      · rintro ⟨p, hs, hdigits, -, hn, -⟩
        cases p with
        | nil => exact ⟨hn, hs⟩
        | cons d p' =>
          have := hdigits d List.mem_cons_self
          rw [← (List.cons.inj hs).1, hc] at this
          simp at this

variable (ip : UInt32) {p₀ p₁ p₂ p₃ : List Byte} {ns : List ℕ}

theorem parseOctets_zero_iff :
    parseOctets 0 s = some (ns, []) ↔ s ≠ [] ∧ ∃ n, Run s n ∧ ns = [n] := by
  rw [parseOctets]
  by_cases hs : s = []
  · simp [hs]
  rw [if_neg hs, Option.map_eq_some_iff]
  constructor
  · rintro ⟨⟨n, rest⟩, hloop, hr⟩
    obtain ⟨rfl, rfl⟩ : [n] = ns ∧ rest = [] := by simpa using hr
    obtain ⟨p, hp, hdigits, -, hn, hle⟩ := (octetLoop_eq_some_iff (by omega)).1 hloop
    rw [List.append_nil] at hp
    subst hp
    exact ⟨hs, n, ⟨hdigits, hn, hle⟩, rfl⟩
  · rintro ⟨-, n, ⟨hdigits, hn, hle⟩, rfl⟩
    refine ⟨(n, []), (octetLoop_eq_some_iff (by omega)).2 ⟨s, by simp, hdigits, by simp, hn, hle⟩, rfl⟩

theorem parseOctets_succ_iff {more : ℕ} :
    parseOctets (more + 1) s = some (ns, []) ↔
      ∃ p n s' ns', s = p ++ dotChar :: s' ∧ Run p n ∧ parseOctets more s' = some (ns', []) ∧ ns = n :: ns' := by
  rw [parseOctets]
  constructor
  · intro h
    split_ifs at h with hs
    obtain ⟨⟨n, rest⟩, hloop, hr⟩ := Option.bind_eq_some_iff.1 h
    obtain ⟨p, rfl, hdigits, -, hn, hle⟩ := (octetLoop_eq_some_iff (by omega)).1 hloop
    cases rest with
    | nil => simp at hr
    | cons c s' =>
      dsimp only at hr
      split_ifs at hr with hc
      rw [not_not] at hc
      obtain ⟨⟨ns', rest⟩, hrest, he⟩ := Option.map_eq_some_iff.1 hr
      obtain ⟨rfl, rfl⟩ := Prod.mk.inj he
      exact ⟨p, n, s', ns', by rw [hc], ⟨hdigits, hn, hle⟩, hrest, rfl⟩
  · rintro ⟨p, n, s', ns', rfl, ⟨hdigits, hn, hle⟩, hrest, rfl⟩
    have hloop : octetLoop 0 (p ++ dotChar :: s') = some (n, dotChar :: s') :=
      (octetLoop_eq_some_iff (by omega)).2 ⟨p, rfl, hdigits, by simp [isDigit, dotChar], hn, hle⟩
    rw [if_neg (by simp), hloop, Option.bind_some]
    simp [hrest]

/-- **What the loop accepts**: four runs of digits, of which the last one is not empty. -/
theorem wholeOctets_eq_some_iff :
    wholeOctets s = some ns ↔
      ∃ p₀ p₁ p₂ p₃ a b c d, Runs s p₀ p₁ p₂ p₃ a b c d ∧ p₃ ≠ [] ∧ ns = [a, b, c, d] := by
  have hwhole : wholeOctets s = some ns ↔ parseOctets 3 s = some (ns, []) := by
    rw [wholeOctets, Option.bind_eq_some_iff]
    constructor
    · rintro ⟨⟨ns', rest⟩, hr, he⟩
      dsimp only at he
      split_ifs at he with hnil
      rw [hr, hnil, Option.some.inj he]
    · intro h
      exact ⟨_, h, by simp⟩
  rw [hwhole]
  constructor
  · intro h
    obtain ⟨p₀, a, s₁, ns₁, rfl, h₀, hfirst, rfl⟩ := parseOctets_succ_iff.1 h
    obtain ⟨p₁, b, s₂, ns₂, rfl, h₁, hsecond, rfl⟩ := parseOctets_succ_iff.1 hfirst
    obtain ⟨p₂, c, s₃, ns₃, rfl, h₂, hthird, rfl⟩ := parseOctets_succ_iff.1 hsecond
    obtain ⟨hne, d, h₃, rfl⟩ := parseOctets_zero_iff.1 hthird
    exact ⟨p₀, p₁, p₂, s₃, a, b, c, d, ⟨rfl, h₀, h₁, h₂, h₃⟩, hne, rfl⟩
  · rintro ⟨p₀, p₁, p₂, p₃, a, b, c, d, ⟨rfl, h₀, h₁, h₂, h₃⟩, hne, rfl⟩
    refine parseOctets_succ_iff.2 ⟨p₀, a, _, _, rfl, h₀, ?_, rfl⟩
    refine parseOctets_succ_iff.2 ⟨p₁, b, _, _, rfl, h₁, ?_, rfl⟩
    refine parseOctets_succ_iff.2 ⟨p₂, c, _, _, rfl, h₂, ?_, rfl⟩
    exact parseOctets_zero_iff.2 ⟨hne, d, h₃, rfl⟩

theorem dotChar_notMem (h : Run p n) : dotChar ∉ p := by
  intro hmem
  have := h.1 dotChar hmem
  simp [isDigit, dotChar] at this

theorem append_dot_inj {q r r' : List Byte} {m : ℕ} (hp : Run p n) (hq : Run q m)
    (h : p ++ dotChar :: r = q ++ dotChar :: r') : p = q ∧ n = m ∧ r = r' := by
  have hfront : ∀ {p r : List Byte}, dotChar ∉ p → (p ++ dotChar :: r).takeWhile (· ≠ dotChar) = p := by
    intro p r hnot
    rw [List.takeWhile_append_of_pos fun c hc => by simpa using fun he : c = dotChar => hnot (he ▸ hc)]
    simp
  have hpq : p = q := by rw [← hfront (r := r) (dotChar_notMem hp), h, hfront (dotChar_notMem hq)]
  subst hpq
  exact ⟨rfl, hp.2.1.symm.trans hq.2.1, (List.cons.inj (List.append_cancel_left h)).2⟩

theorem Runs.unique {q₀ q₁ q₂ q₃ : List Byte} {a b c d a' b' c' d' : ℕ}
    (h : Runs s p₀ p₁ p₂ p₃ a b c d) (h' : Runs s q₀ q₁ q₂ q₃ a' b' c' d') :
    (p₀ = q₀ ∧ p₁ = q₁ ∧ p₂ = q₂ ∧ p₃ = q₃) ∧ a = a' ∧ b = b' ∧ c = c' ∧ d = d' := by
  obtain ⟨rfl, h₀, h₁, h₂, h₃⟩ := h
  obtain ⟨htext, h₀', h₁', h₂', h₃'⟩ := h'
  obtain ⟨rfl, rfl, htext⟩ := append_dot_inj h₀ h₀' htext
  obtain ⟨rfl, rfl, htext⟩ := append_dot_inj h₁ h₁' htext
  obtain ⟨rfl, rfl, rfl⟩ := append_dot_inj h₂ h₂' htext
  exact ⟨⟨rfl, rfl, rfl, rfl⟩, rfl, rfl, rfl, h₃.2.1.symm.trans h₃'.2.1⟩

/-! ### Values -/

theorem toNat_ipv4Make (a b c d : UInt8) :
    (ipv4Make a b c d).toNat = ((a.toNat * 256 + b.toNat) * 256 + c.toNat) * 256 + d.toNat := by
  have ha := a.toNat_lt
  have hb := b.toNat_lt
  have hc := c.toNat_lt
  have hd := d.toNat_lt
  have hsum : (ipv4Make a b c d).toNat =
      (a.toNat <<< 24 ||| b.toNat <<< 16 ||| c.toNat <<< 8 ||| d.toNat) := by
    have hshift : ∀ (x : UInt8) (k : ℕ), k ≤ 24 → (x.toUInt32 <<< UInt32.ofNat k).toNat = x.toNat <<< k := by
      intro x k hk
      have hx := x.toNat_lt
      have hpow : 2 ^ k ≤ 2 ^ 24 := Nat.pow_le_pow_right (by decide) hk
      have hmul : x.toNat * 2 ^ k ≤ 255 * 2 ^ 24 := Nat.mul_le_mul (by omega) hpow
      rw [UInt32.toNat_shiftLeft, UInt8.toNat_toUInt32, UInt32.toNat_ofNat', Nat.mod_eq_of_lt (a := k) (by omega),
        Nat.mod_eq_of_lt (a := k) (by omega), Nat.shiftLeft_eq, Nat.mod_eq_of_lt (by omega)]
    have hor := congrArg₂ (· ||| ·) (congrArg₂ (· ||| ·) (congrArg₂ (· ||| ·) (hshift a 24 le_rfl)
      (hshift b 16 (by decide))) (hshift c 8 (by decide))) (UInt8.toNat_toUInt32 d)
    rw [ipv4Make, UInt32.toNat_or, UInt32.toNat_or, UInt32.toNat_or]
    exact hor
  have h₁ : c.toNat <<< 8 ||| d.toNat = c.toNat * 2 ^ 8 + d.toNat := by
    rw [← Nat.shiftLeft_add_eq_or_of_lt (by omega), Nat.shiftLeft_eq]
  have h₂ : b.toNat <<< 16 ||| (c.toNat * 2 ^ 8 + d.toNat) = b.toNat * 2 ^ 16 + (c.toNat * 2 ^ 8 + d.toNat) := by
    rw [← Nat.shiftLeft_add_eq_or_of_lt (by omega), Nat.shiftLeft_eq]
  have h₃ : a.toNat <<< 24 ||| (b.toNat * 2 ^ 16 + (c.toNat * 2 ^ 8 + d.toNat)) =
      a.toNat * 2 ^ 24 + (b.toNat * 2 ^ 16 + (c.toNat * 2 ^ 8 + d.toNat)) := by
    rw [← Nat.shiftLeft_add_eq_or_of_lt (by omega), Nat.shiftLeft_eq]
  rw [hsum, Nat.or_assoc, Nat.or_assoc, h₁, h₂, h₃]
  omega

variable {a b c d : ℕ}

theorem ofOctets_eq (ha : a ≤ 255) (hb : b ≤ 255) (hc : c ≤ 255) (hd : d ≤ 255) :
    ofOctets [a, b, c, d] = quadValue a b c d := by
  have hbyte : ∀ n : ℕ, n ≤ 255 → (UInt8.ofNat n).toNat = n := fun n hn => by
    rw [UInt8.toNat_ofNat']
    omega
  refine UInt32.toNat_inj.1 ?_
  have hget : ofOctets [a, b, c, d] = ipv4Make (UInt8.ofNat a) (UInt8.ofNat b) (UInt8.ofNat c) (UInt8.ofNat d) := rfl
  rw [hget, toNat_ipv4Make, hbyte a ha, hbyte b hb, hbyte c hc, hbyte d hd, quadValue, UInt32.toNat_ofNat']
  omega

theorem quadValue_eq_zero_iff (ha : a ≤ 255) (hb : b ≤ 255) (hc : c ≤ 255) (hd : d ≤ 255) :
    quadValue a b c d = 0 ↔ a = 0 ∧ b = 0 ∧ c = 0 ∧ d = 0 := by
  rw [quadValue, ← UInt32.toNat_inj, UInt32.toNat_ofNat']
  norm_num
  omega

theorem Runs.value_eq (h : Runs s p₀ p₁ p₂ p₃ a b c d) :
    ofOctets [a, b, c, d] = quadValue a b c d ∧
      (quadValue a b c d = 0 ↔ a = 0 ∧ b = 0 ∧ c = 0 ∧ d = 0) :=
  ⟨ofOctets_eq h.first.2.2 h.second.2.2 h.third.2.2 h.fourth.2.2,
    quadValue_eq_zero_iff h.first.2.2 h.second.2.2 h.third.2.2 h.fourth.2.2⟩

/-! ### Printed addresses -/

theorem run_unsignedToString : ∀ n < 256, Run (unsignedToString 10 n) n ∧ unsignedToString 10 n ≠ [] ∧
    (unsignedToString 10 n).length ≤ 3 := by
  have hall : ∀ n < 256, ((unsignedToString 10 n).all isDigit && spelled (unsignedToString 10 n) == n &&
      !(unsignedToString 10 n).isEmpty && (unsignedToString 10 n).length ≤ 3) = true := by decide +kernel
  intro n hn
  have h := hall n hn
  simp only [Bool.and_eq_true, List.all_eq_true, beq_iff_eq, Bool.not_eq_true', List.isEmpty_eq_false_iff,
    decide_eq_true_eq] at h
  exact ⟨⟨h.1.1.1, h.1.1.2, by omega⟩, h.1.2, h.2⟩

theorem toNat_octet (k : ℕ) (hk : k < 32) :
    ((ip >>> UInt32.ofNat k) &&& 0xff).toNat = ip.toNat / 2 ^ k % 256 := by
  have hff : (0xff : UInt32).toNat = 2 ^ 8 - 1 := rfl
  rw [UInt32.toNat_and, UInt32.toNat_shiftRight, UInt32.toNat_ofNat', hff, Nat.and_two_pow_sub_one_eq_mod,
    Nat.shiftRight_eq_div_pow, Nat.mod_eq_of_lt (a := k) (by omega), Nat.mod_eq_of_lt hk]

theorem quad_ipv4Text :
    Quad (ipv4Text ip) (ip.toNat / 2 ^ 24 % 256) (ip.toNat / 2 ^ 16 % 256) (ip.toNat / 2 ^ 8 % 256) (ip.toNat % 256) := by
  have h₀ := toNat_octet ip 24 (by decide)
  have h₁ := toNat_octet ip 16 (by decide)
  have h₂ := toNat_octet ip 8 (by decide)
  have h₃ : (ip &&& 0xff).toNat = ip.toNat % 256 := by
    have := toNat_octet ip 0 (by decide)
    simpa using this
  have hrun := fun m : ℕ => run_unsignedToString (m % 256) (Nat.mod_lt _ (by decide))
  refine ⟨_, _, _, _, ⟨?_, (hrun _).1, (hrun _).1, (hrun _).1, (hrun _).1⟩, (hrun _).2.1, (hrun _).2.1,
    (hrun _).2.1, (hrun _).2.1⟩
  rw [ipv4Text]
  exact congrArg₂ _ (congrArg _ h₀) (congrArg _ (congrArg₂ _ (congrArg _ h₁) (congrArg _ (congrArg₂ _
    (congrArg _ h₂) (congrArg _ (congrArg _ h₃))))))

/-! ### The two functions -/

theorem reads_of_whole {s : CString} {octets : List ℕ} (h : wholeOctets s.chars = some octets) :
    netParseIpv4 s = ofOctets octets ∧ inetPton 2 (some s) true = (1, some (htonl (ofOctets octets))) := by
  simp [netParseIpv4, inetPton, h]

theorem reads_of_none {s : CString} (h : wholeOctets s.chars = none) :
    netParseIpv4 s = 0 ∧ inetPton 2 (some s) true = (0, none) := by
  simp [netParseIpv4, inetPton, h]

theorem reads_of_runs {s : CString} (h : Runs s.chars p₀ p₁ p₂ p₃ a b c d) (hne : p₃ ≠ []) :
    netParseIpv4 s = quadValue a b c d ∧ inetPton 2 (some s) true = (1, some (htonl (quadValue a b c d))) := by
  have hreads := reads_of_whole (wholeOctets_eq_some_iff.2 ⟨_, _, _, _, _, _, _, _, h, hne, rfl⟩)
  rwa [h.value_eq.1] at hreads

theorem quad_of_accepts {s : CString} (h : wholeOctets s.chars ≠ none) (hgap : ¬ Gapped s.chars) :
    ∃ a b c d, Quad s.chars a b c d := by
  obtain ⟨octets, hoctets⟩ := Option.ne_none_iff_exists'.1 h
  obtain ⟨p₀, p₁, p₂, p₃, a, b, c, d, hruns, hne, -⟩ := wholeOctets_eq_some_iff.1 hoctets
  by_contra hquad
  refine hgap ⟨p₀, p₁, p₂, p₃, a, b, c, d, hruns, ?_, hne⟩
  by_contra hnone
  rw [not_or, not_or] at hnone
  exact hquad ⟨a, b, c, d, p₀, p₁, p₂, p₃, hruns, hnone.1, hnone.2.1, hnone.2.2, hne⟩

/-- **A string is read as it should be exactly when it has no gap and does not spell the address zero.** -/
theorem parseLaw_iff (s : CString) : ParseLaw s ↔ ¬ Gapped s.chars ∧ ¬ Quad s.chars 0 0 0 0 := by
  constructor
  · intro h
    constructor
    · rintro ⟨p₀, p₁, p₂, p₃, a, b, c, d, hruns, hgap, hne⟩
      obtain ⟨-, hpton⟩ := reads_of_runs hruns hne
      obtain ⟨a', b', c', d', q₀, q₁, q₂, q₃, hruns', h₀, h₁, h₂, -⟩ := h.accepts.1 (by rw [hpton])
      obtain ⟨⟨rfl, rfl, rfl, rfl⟩, -⟩ := hruns.unique hruns'
      exact hgap.elim h₀ fun hgap => hgap.elim h₁ h₂
    · rintro hzero
      have hne := h.succeeds.2 ⟨0, 0, 0, 0, hzero⟩
      exact hne (h.value 0 0 0 0 hzero)
  · rintro ⟨hgap, hzero⟩
    have hquad : ∀ a b c d, Quad s.chars a b c d →
        netParseIpv4 s = quadValue a b c d ∧ inetPton 2 (some s) true = (1, some (htonl (quadValue a b c d))) := by
      rintro a b c d ⟨p₀, p₁, p₂, p₃, hruns, -, -, -, hne⟩
      exact reads_of_runs hruns hne
    have hnone : (¬ ∃ a b c d, Quad s.chars a b c d) → netParseIpv4 s = 0 ∧ inetPton 2 (some s) true = (0, none) := by
      intro hnot
      refine reads_of_none ?_
      by_contra hsome
      exact hnot (quad_of_accepts hsome hgap)
    refine ⟨⟨?_, ?_⟩, fun a b c d h => (hquad a b c d h).1, ⟨?_, ?_⟩, fun a b c d h => by rw [(hquad a b c d h).2]⟩
    · intro hne
      by_contra hnot
      exact hne (hnone hnot).1
    · rintro ⟨a, b, c, d, h⟩ hvalue
      rw [(hquad a b c d h).1] at hvalue
      obtain ⟨p₀, p₁, p₂, p₃, hruns, hne⟩ := h
      obtain ⟨rfl, rfl, rfl, rfl⟩ := hruns.value_eq.2.1 hvalue
      exact hzero ⟨p₀, p₁, p₂, p₃, hruns, hne⟩
    · intro hone
      by_contra hnot
      rw [(hnone hnot).2] at hone
      simp at hone
    · rintro ⟨a, b, c, d, h⟩
      rw [(hquad a b c d h).2]

theorem zero_notMem_ipv4Text : 0 ∉ ipv4Text ip := by
  obtain ⟨p₀, p₁, p₂, p₃, hruns, -⟩ := quad_ipv4Text ip
  have hdigits : ∀ {p : List Byte} {n : ℕ}, Run p n → 0 ∉ p := by
    intro p n hrun hmem
    have := hrun.1 0 hmem
    simp [isDigit] at this
  rw [hruns.text]
  simp [dotChar, hdigits hruns.first, hdigits hruns.second, hdigits hruns.third, hdigits hruns.fourth]

/-- **A printed address is read back.** -/
theorem netParseIpv4_ipv4Text : netParseIpv4 ⟨ipv4Text ip, zero_notMem_ipv4Text ip⟩ = ip := by
  obtain ⟨p₀, p₁, p₂, p₃, hruns, -, -, -, hne⟩ := quad_ipv4Text ip
  have hip := ip.toNat_lt
  rw [(reads_of_runs (s := ⟨ipv4Text ip, zero_notMem_ipv4Text ip⟩) hruns hne).1, quadValue, ← UInt32.toNat_inj,
    UInt32.toNat_ofNat']
  omega

/-- **What the two functions do**: for which strings they do what they should, and that printing can be undone. -/
theorem parse_laws (s : CString) (ip : UInt32) :
    (ParseLaw s ↔ ¬ Gapped s.chars ∧ ¬ Quad s.chars 0 0 0 0) ∧
      netParseIpv4 ⟨ipv4Text ip, zero_notMem_ipv4Text ip⟩ = ip :=
  ⟨parseLaw_iff s, netParseIpv4_ipv4Text ip⟩

/-- `1..2.3` is read as `1.0.2.3`. -/
theorem not_parseLaw : ¬ ∀ s : CString, ParseLaw s := by
  intro h
  have hread : inetPton 2 (some ⟨lit "1..2.3", by decide⟩) true = (1, some (htonl (ofOctets [1, 0, 2, 3]))) := by
    decide +kernel
  obtain ⟨a, b, c, d, p₀, p₁, p₂, p₃, hruns, -, hne, -⟩ :=
    (h ⟨lit "1..2.3", by decide⟩).accepts.1 (by rw [hread])
  have hgap : Runs (lit "1..2.3") [49] [] [50] [51] 1 0 2 3 := by
    refine ⟨by decide, ?_, ?_, ?_, ?_⟩ <;> exact ⟨by decide +kernel, by decide +kernel, by decide +kernel⟩
  exact hne (hruns.unique hgap).1.2.1

end Tnu.Net
