/-
**Sums with an end-around carry.**

Numbers of one digit are added in ones' complement: what is carried out of the digit is added to it again, until
nothing is carried.  A sum comes to the representative of its residue modulo the largest digit, where a sum that
is not zero never comes to zero.  That is why a number that is completed to the largest digit leaves the largest
digit.

Main result:

* `OnesComplement.residue_add_complement` — **a sum and the complement of what it comes to** leave the largest
  digit.
-/

import Mathlib.Data.Nat.ModEq
import Mathlib.Tactic

set_option autoImplicit false

namespace OnesComplement

variable {m x : ℕ}

/-- What a sum comes to, when `m` is the largest digit. -/
def residue (m x : ℕ) : ℕ := if x = 0 then 0 else (x - 1) % m + 1

theorem residue_le (hm : 0 < m) (x : ℕ) : residue m x ≤ m := by
  have := Nat.mod_lt (x - 1) hm
  rw [residue]
  split_ifs <;> omega

theorem residue_of_le (h : x ≤ m) : residue m x = x := by
  rw [residue]
  split_ifs with hx
  · exact hx.symm
  · rw [Nat.mod_eq_of_lt (by omega)]
    omega

theorem residue_add_mul (hx : x ≠ 0) (k : ℕ) : residue m (x + k * m) = residue m x := by
  have hne : x + k * m ≠ 0 := by omega
  have hsub : x + k * m - 1 = x - 1 + k * m := by omega
  rw [residue, residue, if_neg hne, if_neg hx, hsub, Nat.add_mul_mod_self_right]

/-- **Carrying does not change what a sum comes to.** -/
theorem residue_carry (m x : ℕ) : residue m (x % (m + 1) + x / (m + 1)) = residue m x := by
  by_cases hx : x = 0
  · simp [hx]
  have hne : x % (m + 1) + x / (m + 1) ≠ 0 := by
    intro h
    have := Nat.div_add_mod x (m + 1)
    rw [Nat.eq_zero_of_add_eq_zero_right h, Nat.eq_zero_of_add_eq_zero_left h] at this
    simp at this
    exact hx this.symm
  have hsplit : x = x % (m + 1) + x / (m + 1) + x / (m + 1) * m := by
    have := Nat.div_add_mod x (m + 1)
    calc x = (m + 1) * (x / (m + 1)) + x % (m + 1) := this.symm
      _ = x % (m + 1) + x / (m + 1) + x / (m + 1) * m := by ring
  conv_rhs => rw [hsplit]
  rw [residue_add_mul hne]

/-- **A sum and the complement of what it comes to** leave the largest digit. -/
theorem residue_add_complement (hm : 0 < m) (x : ℕ) : residue m (x + (m - residue m x)) = m := by
  by_cases hx : x = 0
  · subst hx
    rw [residue_of_le (Nat.zero_le m), Nat.sub_zero, Nat.zero_add, residue_of_le le_rfl]
  have hmod := Nat.mod_lt (x - 1) hm
  have hdiv := Nat.div_add_mod (x - 1) m
  have hsum : x + (m - residue m x) = m + (x - 1) / m * m := by
    rw [residue, if_neg hx, Nat.mul_comm ((x - 1) / m)]
    omega
  rw [hsum, residue_add_mul hm.ne', residue_of_le le_rfl]

end OnesComplement
