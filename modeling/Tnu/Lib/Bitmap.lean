/-
**Bitmaps.**

A bitmap keeps a truth value in each bit of a row of bytes, the lowest bit of a byte first.

Main definitions:

* `Bitmap.bit`, `Bitmap.set` — a bit of the bitmap at an address, and the store with a bit set;
* `Bitmap.setAll` — the store with several bits set.

Main results:

* `Bitmap.bit_setAll` — **the bits that are set** are the old ones and the new ones;
* `Bitmap.setAll_of_not_mem` — no byte beside theirs is written;
* `Bitmap.countP_range` — the number of bits between two others.
-/

import Mathlib.Data.Nat.Bitwise
import Mathlib.Tactic

set_option autoImplicit false

namespace Bitmap

def bit (f : ℕ → UInt8) (a i : ℕ) : Bool := (f (a + i / 8)).toNat.testBit (i % 8)

def set (f : ℕ → UInt8) (a i : ℕ) : ℕ → UInt8 :=
  Function.update f (a + i / 8) (f (a + i / 8) ||| UInt8.ofNat (1 <<< (i % 8)))

def setAll (f : ℕ → UInt8) (a : ℕ) (is : List ℕ) : ℕ → UInt8 := is.foldl (fun f i => set f a i) f

variable {f : ℕ → UInt8} {a i j : ℕ}

theorem set_of_ne {k : ℕ} (h : k ≠ a + i / 8) : set f a i k = f k := Function.update_of_ne h _ _

theorem bit_set (f : ℕ → UInt8) (a i j : ℕ) : bit (set f a i) a j = (bit f a j || decide (i = j)) := by
  rw [bit, bit]
  by_cases hbyte : j / 8 = i / 8
  · have hpow : (UInt8.ofNat (1 <<< (i % 8))).toNat = 2 ^ (i % 8) := by
      rw [Nat.one_shiftLeft, UInt8.toNat_ofNat']
      refine Nat.mod_eq_of_lt (Nat.pow_lt_pow_right (by norm_num) (Nat.mod_lt i (by norm_num)))
    have hsame : decide (i % 8 = j % 8) = decide (i = j) := decide_eq_decide.2 (by omega)
    rw [hbyte, set, Function.update_self, UInt8.toNat_or, Nat.testBit_or, hpow, Nat.testBit_two_pow, hsame]
  · rw [set_of_ne (by omega), decide_eq_false (by rintro rfl; exact hbyte rfl), Bool.or_false]

/-- **The bits that are set** are the old ones and the new ones. -/
theorem bit_setAll (f : ℕ → UInt8) (a : ℕ) (is : List ℕ) (j : ℕ) :
    bit (setAll f a is) a j = (bit f a j || decide (j ∈ is)) := by
  induction is generalizing f with
  | nil => rw [setAll, List.foldl_nil, decide_eq_false (List.not_mem_nil), Bool.or_false]
  | cons i is ih =>
    have hmem : decide (j ∈ i :: is) = (decide (i = j) || decide (j ∈ is)) := by
      rw [← Bool.decide_or]
      exact decide_eq_decide.2 (by rw [List.mem_cons, eq_comm])
    rw [setAll, List.foldl_cons, ← setAll, ih, bit_set, hmem, Bool.or_assoc]

theorem setAll_of_not_mem {is : List ℕ} {k : ℕ} (h : ∀ i ∈ is, k ≠ a + i / 8) : setAll f a is k = f k := by
  induction is generalizing f with
  | nil => rfl
  | cons i is ih =>
    rw [setAll, List.foldl_cons, ← setAll, ih fun i' hi' => h i' (List.mem_cons_of_mem _ hi'),
      set_of_ne (h i List.mem_cons_self)]

theorem bit_congr {g : ℕ → UInt8} (h : f (a + i / 8) = g (a + i / 8)) : bit f a i = bit g a i := by
  rw [bit, bit, h]

theorem countP_range (n lo hi : ℕ) :
    (List.range n).countP (fun i => decide (lo ≤ i ∧ i < hi)) = min n hi - lo := by
  induction n with
  | zero => simp
  | succ n ih =>
    rw [List.range_succ, List.countP_append, ih, List.countP_singleton]
    simp only [decide_eq_true_eq]
    split_ifs <;> omega

end Bitmap
