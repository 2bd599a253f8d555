/-
**The Gregorian calendar.**

A date is a year, a month and a day.  The days of the calendar, with the leap years carried back and
forward for ever, are numbered one after another, and a date is known by its number.

Main definitions:

* `Calendar.IsLeap`, `Calendar.monthLength` — the lengths of years and months;
* `Calendar.Date.number` — the number of a day;
* `Calendar.Date.next`, `Calendar.Date.prev` — the day behind and the day before.

Main results:

* `Calendar.Date.number_next`, `Calendar.Date.number_prev` — the days are numbered in order;
* `Calendar.Date.eq_of_number_eq`, `Calendar.Date.exists_number` — **every number belongs to one date**.
-/

import Mathlib.Algebra.Order.Ring.Int
import Mathlib.Tactic

set_option autoImplicit false

namespace Calendar

/-! ### Years and months -/

def IsLeap (year : ℤ) : Prop := (4 ∣ year ∧ ¬ 100 ∣ year) ∨ 400 ∣ year

instance (year : ℤ) : Decidable (IsLeap year) :=
  inferInstanceAs (Decidable ((4 ∣ year ∧ ¬ 100 ∣ year) ∨ 400 ∣ year))

def monthLength (year month : ℤ) : ℤ :=
  if month = 2 then if IsLeap year then 29 else 28
  else if month = 4 ∨ month = 6 ∨ month = 9 ∨ month = 11 then 30
  else 31

def yearLength (year : ℤ) : ℤ := if IsLeap year then 366 else 365

def beforeYear (year : ℤ) : ℤ := 365 * year + (year - 1) / 4 - (year - 1) / 100 + (year - 1) / 400

def beforeMonth (year month : ℤ) : ℤ :=
  ((List.range (month - 1).toNat).map fun i : ℕ => monthLength year ((i : ℤ) + 1)).sum

variable {year year' month month' : ℤ}

theorem monthLength_pos (year month : ℤ) : 0 < monthLength year month := by
  rw [monthLength]
  split_ifs <;> norm_num

theorem beforeYear_succ (year : ℤ) : beforeYear (year + 1) = beforeYear year + yearLength year := by
  unfold beforeYear yearLength IsLeap
  split_ifs <;> omega

theorem beforeMonth_succ (h : 1 ≤ month) :
    beforeMonth year (month + 1) = beforeMonth year month + monthLength year month := by
  obtain ⟨n, rfl⟩ : ∃ n : ℕ, month = n + 1 := ⟨(month - 1).toNat, by omega⟩
  have hn : ((n : ℤ) + 1 + 1 - 1).toNat = n + 1 := by omega
  have hn' : ((n : ℤ) + 1 - 1).toNat = n := by omega
  rw [beforeMonth, beforeMonth, hn, hn', List.range_succ, List.map_append, List.sum_append, List.map_singleton,
    List.sum_singleton]

theorem beforeMonth_thirteen (year : ℤ) : beforeMonth year 13 = yearLength year := by
  rw [beforeMonth, yearLength]
  by_cases h : IsLeap year <;> simp [List.range_succ, monthLength, h]

theorem beforeYear_le (h : year ≤ year') : beforeYear year ≤ beforeYear year' := by
  induction year', h using Int.leInduction with
  | base => exact le_rfl
  | succ y _ ih =>
    have hlen : 0 ≤ yearLength y := by
      rw [yearLength]
      split_ifs <;> norm_num
    rw [beforeYear_succ]
    omega

theorem beforeMonth_le (h1 : 1 ≤ month) (h : month ≤ month') : beforeMonth year month ≤ beforeMonth year month' := by
  induction month', h using Int.leInduction with
  | base => exact le_rfl
  | succ m hm ih =>
    have hlen := monthLength_pos year m
    rw [beforeMonth_succ (h1.trans hm)]
    omega

/-! ### Dates -/

/-- A year, a month and a day. -/
structure Date where
  year : ℤ
  month : ℤ
  day : ℤ
  deriving DecidableEq, Repr

namespace Date

/-- The date is one of the calendar. -/
structure Valid (d : Date) : Prop where
  month_pos : 1 ≤ d.month
  month_le : d.month ≤ 12
  day_pos : 1 ≤ d.day
  day_le : d.day ≤ monthLength d.year d.month

def number (d : Date) : ℤ := beforeYear d.year + beforeMonth d.year d.month + d.day

def next (d : Date) : Date :=
  if d.day < monthLength d.year d.month then { d with day := d.day + 1 }
  else if d.month < 12 then ⟨d.year, d.month + 1, 1⟩
  else ⟨d.year + 1, 1, 1⟩

def prev (d : Date) : Date :=
  if 1 < d.day then { d with day := d.day - 1 }
  else if 1 < d.month then ⟨d.year, d.month - 1, monthLength d.year (d.month - 1)⟩
  else ⟨d.year - 1, 12, 31⟩

variable {a b d : Date}

theorem Valid.next (h : d.Valid) : d.next.Valid := by
  obtain ⟨h1, h2, h3, h4⟩ := h
  rw [Date.next]
  split_ifs with hday hmonth
  · exact ⟨h1, h2, by dsimp only; omega, by dsimp only; omega⟩
  · exact ⟨by dsimp only; omega, by dsimp only; omega, le_rfl, monthLength_pos _ _⟩
  · exact ⟨le_rfl, by norm_num, le_rfl, monthLength_pos _ _⟩

theorem Valid.prev (h : d.Valid) : d.prev.Valid := by
  obtain ⟨h1, h2, h3, h4⟩ := h
  rw [Date.prev]
  split_ifs with hday hmonth
  · exact ⟨h1, h2, by dsimp only; omega, by dsimp only; omega⟩
  · exact ⟨by dsimp only; omega, by dsimp only; omega, monthLength_pos _ _, le_rfl⟩
  · exact ⟨by norm_num, le_rfl, by norm_num, le_rfl⟩

/-- **The days are numbered in order.** -/
theorem number_next (h : d.Valid) : d.next.number = d.number + 1 := by
  obtain ⟨h1, h2, h3, h4⟩ := h
  rw [Date.next]
  split_ifs with hday hmonth
  · simp only [number]
    omega
  · simp only [number, beforeMonth_succ h1]
    omega
  · have h12 : d.month = 12 := by omega
    have hyear : beforeMonth d.year 12 + monthLength d.year 12 = yearLength d.year := by
      rw [← beforeMonth_thirteen, ← beforeMonth_succ (by decide)]
      rfl
    have hfirst : beforeMonth (d.year + 1) 1 = 0 := rfl
    rw [h12] at h4 hday
    simp only [number, beforeYear_succ, h12, hfirst]
    omega

theorem number_prev (h : d.Valid) : d.prev.number = d.number - 1 := by
  obtain ⟨h1, h2, h3, h4⟩ := h
  rw [Date.prev]
  split_ifs with hday hmonth
  · simp only [number]
    omega
  · have hlast : beforeMonth d.year (d.month - 1 + 1) = _ := beforeMonth_succ (by omega)
    rw [sub_add_cancel] at hlast
    simp only [number, hlast]
    omega
  · have h1' : d.month = 1 := by omega
    have hyear : beforeMonth (d.year - 1) 12 + 31 = yearLength (d.year - 1) := by
      rw [← beforeMonth_thirteen]
      exact (beforeMonth_succ (by norm_num)).symm
    have hstep := beforeYear_succ (d.year - 1)
    have hfirst : beforeMonth d.year 1 = 0 := rfl
    rw [sub_add_cancel] at hstep
    simp only [number, h1', hfirst]
    omega

theorem number_bounds (h : d.Valid) : beforeYear d.year < d.number ∧ d.number ≤ beforeYear (d.year + 1) := by
  have hfirst : beforeMonth d.year 1 = 0 := rfl
  obtain ⟨h1, h2, hday, hlast⟩ := h
  have hlow : beforeMonth d.year 1 ≤ beforeMonth d.year d.month := beforeMonth_le le_rfl h1
  have hhigh : beforeMonth d.year (d.month + 1) ≤ beforeMonth d.year 13 :=
    beforeMonth_le (by omega) (by omega)
  rw [beforeMonth_succ h1, beforeMonth_thirteen] at hhigh
  rw [beforeYear_succ, number]
  omega

theorem number_lt_of_year (ha : a.Valid) (hb : b.Valid) (h : a.year < b.year) : a.number < b.number := by
  have hle := beforeYear_le (show a.year + 1 ≤ b.year from h)
  have hlow := (number_bounds hb).1
  have hhigh := (number_bounds ha).2
  omega

theorem number_lt_of_month (ha : a.Valid) (hb : b.Valid) (hyear : a.year = b.year) (h : a.month < b.month) :
    a.number < b.number := by
  obtain ⟨h1, -, -, hlast⟩ := ha
  have hle : beforeMonth b.year (a.month + 1) ≤ beforeMonth b.year b.month :=
    beforeMonth_le (by omega) (by omega)
  have hday := hb.day_pos
  rw [beforeMonth_succ h1] at hle
  rw [number, number, hyear]
  rw [hyear] at hlast
  omega

/-- **A number belongs to one date.** -/
theorem eq_of_number_eq (ha : a.Valid) (hb : b.Valid) (h : a.number = b.number) : a = b := by
  have hyear : a.year = b.year := by
    rcases lt_trichotomy a.year b.year with hlt | heq | hlt
    · exact absurd h (number_lt_of_year ha hb hlt).ne
    · exact heq
    · exact absurd h (number_lt_of_year hb ha hlt).ne'
  have hmonth : a.month = b.month := by
    rcases lt_trichotomy a.month b.month with hlt | heq | hlt
    · exact absurd h (number_lt_of_month ha hb hyear hlt).ne
    · exact heq
    · exact absurd h (number_lt_of_month hb ha hyear.symm hlt).ne'
  obtain ⟨y, m, n⟩ := a
  obtain ⟨y', m', n'⟩ := b
  obtain rfl : y = y' := hyear
  obtain rfl : m = m' := hmonth
  simp only [number, add_right_inj] at h
  rw [h]

/-- **Every number is that of a day.** -/
theorem exists_number (n : ℤ) : ∃ d : Date, d.Valid ∧ d.number = n := by
  -- the first of January of the year 0 has the number 0
  induction n using Int.induction_on with
  | zero =>
    exact ⟨⟨0, 1, 1⟩, ⟨le_rfl, by norm_num, le_rfl, monthLength_pos _ _⟩, rfl⟩
  | succ i ih =>
    obtain ⟨d, hd, hn⟩ := ih
    exact ⟨d.next, hd.next, by rw [number_next hd, hn]⟩
  | pred i ih =>
    obtain ⟨d, hd, hn⟩ := ih
    exact ⟨d.prev, hd.prev, by rw [number_prev hd, hn]⟩

end Date

end Calendar
