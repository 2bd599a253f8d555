/-
**C strings and the character arrays that hold them.**

Everything the kernel names — path components, users, devices — is a `char` array filled by the
bounded copies of `kernel/lib/string.c`.  A C string is modelled by the list of its bytes in front
of the terminator; an array `char buf[n + 1]` that is always terminated is a `CharBuf n`, whose
fields say that the terminator is there and that the string fits, so no later proof has to.

Main definitions:

* `Byte`, `lit` — bytes, and the bytes of a string literal.

Main results:

* `CharBuf.strncpy_chars_of_le` — a string that fits is copied whole.
-/

import Mathlib.Data.List.TakeWhile
import Mathlib.Tactic

set_option autoImplicit false

namespace Tnu

/-- `uint8_t`, also used for `char`: the code only ever compares characters. -/
abbrev Byte := UInt8

-- A statement about the bytes of a string is decided along the string, and not for all 256 bytes.
instance (priority := 2000) decidableForallMem {α : Type*} (p : α → Prop) [DecidablePred p] (l : List α) :
    Decidable (∀ c ∈ l, p c) := List.decidableBAll p l

instance (priority := 2000) decidableExistsMem {α : Type*} (p : α → Prop) [DecidablePred p] (l : List α) :
    Decidable (∃ c ∈ l, p c) := List.decidableBEx p l

def lit (s : String) : List Byte := s.toList.map fun c => UInt8.ofNat c.toNat

/-- The C string at the front of a byte array: what stands before the first NUL. -/
def cstr (l : List Byte) : List Byte := l.takeWhile (· ≠ 0)

theorem zero_notMem_cstr (l : List Byte) : 0 ∉ cstr l := by
  intro h
  simpa using List.mem_takeWhile_imp h

theorem cstr_of_notMem {l : List Byte} (h : 0 ∉ l) : cstr l = l := by
  refine List.takeWhile_eq_self_iff.2 fun c hc => ?_
  simpa using fun e : c = 0 => h (e ▸ hc)

theorem cstr_append_zero {l : List Byte} (h : 0 ∉ l) (t : List Byte) :
    cstr (l ++ 0 :: t) = l := by
  have hpos : ∀ c ∈ l, decide (c ≠ 0) = true := fun c hc => by
    simpa using fun e : c = 0 => h (e ▸ hc)
  rw [cstr, List.takeWhile_append_of_pos hpos]
  simp

/-- A `const char *` argument: its bytes up to the terminator. -/
structure CString where
  chars : List Byte
  /-- The terminator is not one of them. -/
  nul_free : 0 ∉ chars
  deriving DecidableEq

/-- A `char buf[n + 1]` that is always terminated. -/
structure CharBuf (n : ℕ) where
  chars : List Byte
  /-- The string ends at the first NUL. -/
  nul_free : 0 ∉ chars
  /-- The string and its terminator fit the array. -/
  length_le : chars.length ≤ n
  deriving DecidableEq

namespace CharBuf

variable {n : ℕ}

@[ext] theorem ext {a b : CharBuf n} (h : a.chars = b.chars) : a = b := by
  cases a; cases b; simp_all

/-- `strncpy(buf, src, n)` into an array whose byte `n` is zero. -/
def strncpy (n : ℕ) (src : List Byte) : CharBuf n where
  chars := (cstr src).take n
  nul_free h := zero_notMem_cstr src (List.mem_of_mem_take h)
  length_le := by simp [List.length_take]

/-- The empty string: an array cleared by `memset`. -/
def empty (n : ℕ) : CharBuf n := strncpy n []

@[simp] theorem empty_chars (n : ℕ) : (empty n).chars = [] := by
  simp [empty, strncpy, cstr]

theorem strncpy_chars (src : List Byte) : (strncpy n src).chars = (cstr src).take n := rfl

/-- **A string that fits is copied whole.** -/
theorem strncpy_chars_of_le {src : List Byte} (h0 : 0 ∉ src) (hlen : src.length ≤ n) :
    (strncpy n src).chars = src := by
  rw [strncpy_chars, cstr_of_notMem h0, List.take_of_length_le hlen]

@[simp] theorem strncpy_self (b : CharBuf n) : strncpy n b.chars = b :=
  CharBuf.ext (strncpy_chars_of_le b.nul_free b.length_le)

end CharBuf

end Tnu
