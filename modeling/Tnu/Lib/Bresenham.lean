/-
**A line on a grid, by an error term.**

A line goes `db` up on a way of `da`, with `0 ≤ db ≤ da`.  Going along it column by column, an error
term says whether the next column is one higher.  Nothing is divided: the term is twice the way times
the distance of the line from the middle between two rows.

Main results:

* `Bresenham.near` — **the row is within half a unit of the line**;
* `Bresenham.error_succ`, `Bresenham.le_error`, `Bresenham.error_lt` — the term is updated by
  additions, and stays small.
-/

import Mathlib.Tactic

set_option autoImplicit false

namespace Bresenham

variable {da db : ℤ}

/-- The row in column `k`. -/
def height (da db : ℤ) : ℕ → ℤ
  | 0 => 0
  | k + 1 => height da db k + if 0 < 2 * (k + 1) * db - da - 2 * da * height da db k then 1 else 0

/-- The term in column `k`. -/
def error (da db : ℤ) (k : ℕ) : ℤ := 2 * (k + 1) * db - da - 2 * da * height da db k

theorem height_succ (da db : ℤ) (k : ℕ) :
    height da db (k + 1) = height da db k + if 0 < error da db k then 1 else 0 := rfl

theorem error_succ (da db : ℤ) (k : ℕ) : error da db (k + 1) =
    (if 0 < error da db k then error da db k - 2 * da else error da db k) + 2 * db := by
  rw [error, height_succ]
  split_ifs
  · rw [error]
    push_cast
    ring
  · rw [error]
    push_cast
    ring

theorem error_eq (da db : ℤ) (k : ℕ) : error da db k = 2 * (k * db - height da db k * da) + 2 * db - da := by
  rw [error]
  ring

/-- **The row is within half a unit of the line.** -/
theorem near (h0 : 0 ≤ db) (hle : db ≤ da) (k : ℕ) : |2 * (k * db - height da db k * da)| ≤ da := by
  induction k with
  | zero =>
    rw [height, Nat.cast_zero]
    simpa using h0.trans hle
  | succ k ih =>
    rw [abs_le] at ih ⊢
    have hterm := error_eq da db k
    have hnext : 2 * (((k + 1 : ℕ) : ℤ) * db - height da db (k + 1) * da) =
        2 * (k * db - height da db k * da) + 2 * db - if 0 < error da db k then 2 * da else 0 := by
      rw [height_succ]
      push_cast
      split_ifs <;> ring
    rw [hnext]
    split_ifs with hpos
    · omega
    · omega

theorem le_error (h0 : 0 ≤ db) (hle : db ≤ da) (k : ℕ) : -(2 * da) ≤ error da db k := by
  have hnear := abs_le.1 (near h0 hle k)
  have hterm := error_eq da db k
  omega

theorem error_lt (h0 : 0 ≤ db) (hle : db ≤ da) (hpos : 0 < da) (k : ℕ) : error da db k < 2 * da := by
  have hnear := abs_le.1 (near h0 hle k)
  have hterm := error_eq da db k
  rcases hle.lt_or_eq with hlt | rfl
  · omega
  · -- on the diagonal the distance is a whole number of units
    by_contra hge
    have hmul : db * (2 * (k - height db db k) - 1) = 0 := by
      have hfactor : 2 * (k * db - height db db k * db) = db := by omega
      linear_combination hfactor
    rcases mul_eq_zero.1 hmul with h | h
    · omega
    · omega

theorem height_nonneg (h0 : 0 ≤ db) (hle : db ≤ da) (hpos : 0 < da) (k : ℕ) : 0 ≤ height da db k := by
  have hnear := abs_le.1 (near h0 hle k)
  have hk : 0 ≤ (k : ℤ) * db := mul_nonneg (Nat.cast_nonneg k) h0
  by_contra hneg
  nlinarith

theorem height_le (h0 : 0 ≤ db) (hle : db ≤ da) (hpos : 0 < da) {k : ℕ} (hk : (k : ℤ) ≤ da) : height da db k ≤ db := by
  have hnear := abs_le.1 (near h0 hle k)
  have hway : (k : ℤ) * db ≤ da * db := mul_le_mul_of_nonneg_right hk h0
  by_contra hhigh
  nlinarith

/-- The last column is at its row. -/
theorem height_end (h0 : 0 ≤ db) (hle : db ≤ da) (hpos : 0 < da) {k : ℕ} (hk : (k : ℤ) = da) : height da db k = db := by
  refine le_antisymm (height_le h0 hle hpos hk.le) ?_
  have hnear := abs_le.1 (near h0 hle k)
  rw [hk] at hnear
  by_contra hlow
  nlinarith

end Bresenham
