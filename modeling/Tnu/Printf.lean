/-
**Numbers in text.**

`ksnprintf` of `kernel/lib/printf.c` writes numbers, and `strtol` of `kernel/lib/string.c` and
`parse_hex64` of `kernel/security/user.c` read them.  This module embeds what the user database
uses of them, and shows that a number that was written is read back.

Main definitions:

* `unsignedToString`, `outPadded`, `ksnprintf` — writing;
* `strtol`, `parseHex64` — reading.

Main results:

* `strtol_unsignedToString` — **a decimal number is read back**;
* `parseHex64_outPadded` — **a padded hexadecimal number is read back**.
-/

import Mathlib.Data.Nat.Digits.Lemmas
import Tnu.CString

set_option autoImplicit false

namespace Tnu

/-! ### Writing -/

/-- The loop of `unsigned_to_string`: the digits of a value, lowest first, as many as `tmp`
holds. -/
def tmpDigits (base : ℕ) : ℕ → ℕ → List ℕ
  | 0, _ => []
  | size + 1, value => if value = 0 then [] else value % base :: tmpDigits base size (value / base)

/-- `digits[d]`, for lower case. -/
def digitChar (d : ℕ) : Byte := UInt8.ofNat (if d < 10 then 48 + d else 87 + d)

/-- The digits `unsigned_to_string` writes, highest first. -/
def outDigits (base value : ℕ) : List ℕ :=
  if value = 0 then [0] else (tmpDigits base 32 value).reverse

def unsignedToString (base value : ℕ) : List Byte := (outDigits base value).map digitChar

/-- `out_padded` with zeros on the left. -/
def outPadded (width : ℕ) (s : List Byte) : List Byte :=
  List.replicate (width - s.length) (digitChar 0) ++ s

/-- `ksnprintf` into a buffer of `size` bytes: as much of the text as fits before the
terminator. -/
def ksnprintf (size : ℕ) (text : List Byte) : List Byte := text.take (size - 1)

/-! ### Reading -/

def digitValue (c : Byte) : Option ℕ :=
  if 48 ≤ c ∧ c ≤ 57 then some (c.toNat - 48)
  else if 97 ≤ c ∧ c ≤ 102 then some (c.toNat - 87)
  else if 65 ≤ c ∧ c ≤ 70 then some (c.toNat - 55)
  else none

/-- The digit loop of `strtol`. -/
def strtolLoop (base : ℕ) : ℕ → List Byte → ℕ
  | value, [] => value
  | value, c :: s =>
    match (digitValue c).filter (· < base) with
    | none => value
    | some d => strtolLoop base (value * base + d) s

/-- `strtol` in base 10. -/
def strtol (s : List Byte) : ℤ :=
  match s.dropWhile fun c => c = 32 ∨ c = 9 ∨ c = 10 with
  | [] => 0
  | c :: s =>
    if c = 45 then -(strtolLoop 10 0 s)
    else if c = 43 then strtolLoop 10 0 s
    else strtolLoop 10 0 (c :: s)

/-- `(uint32_t)atoi(s)`: both conversions keep the low 32 bits. -/
def atoi (s : List Byte) : UInt32 := UInt32.ofInt (strtol s)

/-- The loop of `parse_hex64`. -/
def parseHex64Loop : UInt64 → List Byte → UInt64
  | value, [] => value
  | value, c :: s =>
    match digitValue c with
    | none => value
    | some d => parseHex64Loop ((value <<< 4) ||| UInt64.ofNat d) s

def parseHex64 (s : List Byte) : UInt64 := parseHex64Loop 0 s

/-! ### Digits -/

variable {base value : ℕ}

theorem tmpDigits_eq (hbase : 1 < base) : ∀ (size : ℕ) {value : ℕ},
    value < base ^ size → tmpDigits base size value = Nat.digits base value := by
  intro size
  induction size with
  | zero =>
    intro value h
    obtain rfl : value = 0 := by simpa using h
    simp [tmpDigits]
  | succ size ih =>
    intro value h
    rw [tmpDigits]
    split_ifs with h0
    · simp [h0]
    · have hdiv : value / base < base ^ size := by
        rw [Nat.div_lt_iff_lt_mul (by omega), ← pow_succ]
        exact h
      rw [Nat.digits_def' hbase (Nat.pos_of_ne_zero h0), ih hdiv]

/-- The value of digits, highest first, behind a value read before. -/
def readDigits (base value : ℕ) (ds : List ℕ) : ℕ := ds.foldl (fun v d => v * base + d) value

theorem readDigits_replicate (base n : ℕ) (ds : List ℕ) :
    readDigits base 0 (List.replicate n 0 ++ ds) = readDigits base 0 ds := by
  induction n with
  | zero => simp
  | succ n ih =>
    rw [List.replicate_succ, List.cons_append, readDigits, List.foldl_cons, Nat.zero_mul]
    exact ih

/-- **The digits of a value are read back.** -/
theorem readDigits_outDigits (hbase : 1 < base) (hvalue : value < base ^ 32) :
    readDigits base 0 (outDigits base value) = value := by
  rw [outDigits]
  split_ifs with h0
  · simp [readDigits, h0]
  · have hfold := Nat.ofDigits_digits base value
    rw [Nat.ofDigits_eq_foldr] at hfold
    rw [tmpDigits_eq hbase 32 hvalue, readDigits, List.foldl_reverse]
    simpa [Nat.add_comm, Nat.mul_comm] using hfold

theorem outDigits_lt (hbase : 1 < base) (hvalue : value < base ^ 32) :
    ∀ d ∈ outDigits base value, d < base := by
  intro d hd
  rw [outDigits] at hd
  split_ifs at hd with h0
  · rw [List.mem_singleton] at hd
    omega
  · rw [List.mem_reverse, tmpDigits_eq hbase 32 hvalue] at hd
    exact Nat.digits_lt_base hbase hd

theorem outDigits_ne_nil (hbase : 1 < base) (hvalue : value < base ^ 32) :
    outDigits base value ≠ [] := by
  rw [outDigits]
  split_ifs with h0
  · simp
  · rw [tmpDigits_eq hbase 32 hvalue, ne_eq, List.reverse_eq_nil_iff]
    exact Nat.digits_ne_nil_iff_ne_zero.2 h0

theorem length_outDigits_le {k : ℕ} (hbase : 1 < base) (hk : 0 < k) (hk' : k ≤ 32)
    (hvalue : value < base ^ k) : (outDigits base value).length ≤ k := by
  have hvalue' : value < base ^ 32 := hvalue.trans_le (Nat.pow_le_pow_right (by omega) hk')
  rw [outDigits]
  split_ifs with h0
  · exact hk
  · rw [List.length_reverse, tmpDigits_eq hbase 32 hvalue']
    exact (Nat.digits_length_le_iff hbase value).2 hvalue

theorem digitValue_digitChar : ∀ d < 16, digitValue (digitChar d) = some d := by decide

theorem digitChar_ne : ∀ d < 16, digitChar d ≠ 58 ∧ digitChar d ≠ 10 ∧ digitChar d ≠ 36 ∧
    digitChar d ≠ 0 ∧ digitChar d ≠ 32 ∧ digitChar d ≠ 9 ∧ digitChar d ≠ 45 ∧ digitChar d ≠ 43 := by
  decide

theorem strtolLoop_map (hbase : base ≤ 16) : ∀ (ds : List ℕ) (value : ℕ),
    (∀ d ∈ ds, d < base) → strtolLoop base value (ds.map digitChar) = readDigits base value ds := by
  intro ds
  induction ds with
  | nil => intro value _; rfl
  | cons d ds ih =>
    intro value h
    have hd : d < base := h d (by simp)
    have hchar : (digitValue (digitChar d)).filter (· < base) = some d := by
      rw [digitValue_digitChar d (by omega), Option.filter_some, if_pos (by simpa using hd)]
    rw [List.map_cons, strtolLoop, hchar]
    exact ih _ fun e he => h e (by simp [he])

/-- **A decimal number is read back.** -/
theorem strtol_unsignedToString (h : value < 2 ^ 64) :
    strtol (unsignedToString 10 value) = value := by
  have hvalue : value < 10 ^ 32 := h.trans (by norm_num)
  have hlt := outDigits_lt (by decide) hvalue
  have hread : strtolLoop 10 0 (unsignedToString 10 value) = value := by
    rw [unsignedToString, strtolLoop_map (by decide) _ _ hlt,
      readDigits_outDigits (by decide) hvalue]
  cases hds : outDigits 10 value with
  | nil => exact absurd hds (outDigits_ne_nil (by decide) hvalue)
  | cons d ds =>
    obtain ⟨-, hnl, -, -, hsp, htab, hminus, hplus⟩ :=
      digitChar_ne d (by have := hlt d (by simp [hds]); omega)
    have hstr : unsignedToString 10 value = digitChar d :: ds.map digitChar := by
      rw [unsignedToString, hds, List.map_cons]
    rw [hstr] at hread ⊢
    rw [strtol, List.dropWhile_cons_of_neg (by simp [hnl, hsp, htab])]
    simp only
    rw [if_neg hminus, if_neg hplus, hread]

theorem atoi_unsignedToString (u : UInt32) : atoi (unsignedToString 10 u.toNat) = u := by
  have hu : u.toNat < 2 ^ 32 := u.toNat_lt
  have hmod : ((u.toNat : ℤ) % 2 ^ 32).toNat = u.toNat := by omega
  rw [atoi, strtol_unsignedToString (by omega), UInt32.ofInt, hmod, UInt32.ofNat_toNat]

theorem toNat_shift_or (value : UInt64) {d : ℕ} (hd : d < 16) :
    ((value <<< 4) ||| UInt64.ofNat d).toNat = (value.toNat * 16 + d) % 2 ^ 64 := by
  have hshift : (value <<< 4).toNat = (value.toNat % 2 ^ 60) <<< 4 := by
    have hcount : (4 : UInt64).toNat % 64 = 4 := rfl
    rw [UInt64.toNat_shiftLeft, hcount, Nat.shiftLeft_eq, Nat.shiftLeft_eq]
    omega
  have hdigit : (UInt64.ofNat d).toNat = d := by
    rw [UInt64.toNat_ofNat']
    omega
  rw [UInt64.toNat_or, hshift, hdigit, ← Nat.shiftLeft_add_eq_or_of_lt (by omega), Nat.shiftLeft_eq]
  omega

theorem parseHex64Loop_map : ∀ (ds : List ℕ) (value : UInt64) (rest : List Byte),
    (∀ d ∈ ds, d < 16) → (∀ c ∈ rest.head?, digitValue c = none) →
      readDigits 16 value.toNat ds < 2 ^ 64 →
      (parseHex64Loop value (ds.map digitChar ++ rest)).toNat = readDigits 16 value.toNat ds := by
  intro ds
  induction ds with
  | nil =>
    intro value rest _ hrest _
    cases rest with
    | nil => rfl
    | cons c rest =>
      rw [List.map_nil, List.nil_append, parseHex64Loop, hrest c (by simp)]
      rfl
  | cons d ds ih =>
    intro value rest hlt hrest hfit
    have hd : d < 16 := hlt d (by simp)
    have hmono : ∀ (l : List ℕ) (v : ℕ), v ≤ readDigits 16 v l := by
      intro l
      induction l with
      | nil => intro v; exact le_rfl
      | cons e l ihl =>
        intro v
        refine le_trans ?_ (ihl (v * 16 + e))
        omega
    have hstep := toNat_shift_or value hd
    have hsmall : value.toNat * 16 + d < 2 ^ 64 := (hmono ds _).trans_lt hfit
    rw [Nat.mod_eq_of_lt hsmall] at hstep
    rw [List.map_cons, List.cons_append, parseHex64Loop, digitValue_digitChar d hd]
    have hih := ih ((value <<< 4) ||| UInt64.ofNat d) rest (fun e he => hlt e (by simp [he])) hrest
    rw [hstep] at hih
    exact hih hfit

/-- **A padded hexadecimal number is read back**, up to the first letter that is no digit. -/
theorem parseHex64_outPadded (width : ℕ) (h : value < 2 ^ 64) (rest : List Byte)
    (hrest : ∀ c ∈ rest.head?, digitValue c = none) :
    (parseHex64 (outPadded width (unsignedToString 16 value) ++ rest)).toNat = value := by
  have hvalue : value < 16 ^ 32 := h.trans (by norm_num)
  have hread : readDigits 16 0 (List.replicate (width - (unsignedToString 16 value).length) 0 ++
      outDigits 16 value) = value := by
    rw [readDigits_replicate, readDigits_outDigits (by decide) hvalue]
  have hlt : ∀ d ∈ List.replicate (width - (unsignedToString 16 value).length) 0 ++
      outDigits 16 value, d < 16 := by
    intro d hd
    rcases List.mem_append.1 hd with hd | hd
    · rw [List.eq_of_mem_replicate hd]
      decide
    · exact outDigits_lt (by decide) hvalue d hd
  have hloop := parseHex64Loop_map _ 0 rest hlt hrest (by
    rw [UInt64.toNat_zero, hread]
    exact h)
  rw [List.map_append, List.map_replicate, UInt64.toNat_zero, hread] at hloop
  exact hloop

end Tnu
