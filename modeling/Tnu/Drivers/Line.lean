/-
**Drawing a line.**

`gfx_draw_line` goes along the longer of the two axes, from the lower end to the higher, and takes an
error term along.  The two branches of the source are one loop here, with the axes exchanged for the
second.  The loop counts up to the higher end in a signed 32-bit variable: when that is the last
number there is, the count wraps and the loop never ends.

Main result:

* `lineLaw_iff` — **exactly when a line is drawn**.
-/

import Tnu.Lib.Bresenham

set_option autoImplicit false

namespace Tnu.Gfx

/-! ### The function -/

/-- `iabs32`. -/
def iabs32 (x : Int32) : Int32 := if x < 0 then -x else x

/-- `for (a = a1; a <= a2; a++) { … }`, in at most so many turns; `a` is the longer axis. -/
def axisLoop (a2 bi da db : Int32) : ℕ → Int32 → Int32 → Int32 → Option (List (Int32 × Int32))
  | 0, _, _, _ => none
  | fuel + 1, a, b, d =>
    if a ≤ a2 then
      (axisLoop a2 bi da db fuel (a + 1) (if 0 < d then b + bi else b)
        ((if 0 < d then d - 2 * da else d) + 2 * db)).map ((a, b) :: ·)
    else some []

/-- A branch of `gfx_draw_line`, with the coordinates of the longer axis first. -/
def axisLine (fuel : ℕ) (p q : Int32 × Int32) : Option (List (Int32 × Int32)) :=
  let e := if q.1 < p.1 then (q, p) else (p, q)
  let da := e.2.1 - e.1.1
  let db := e.2.2 - e.1.2
  axisLoop e.2.1 (if 0 < db then 1 else -1) da (iabs32 db) fuel e.1.1 e.1.2 (2 * iabs32 db - da)

/-- `gfx_draw_line`, by the points that are drawn. -/
def drawLine (fuel : ℕ) (p q : Int32 × Int32) : Option (List (Int32 × Int32)) :=
  let dx := q.1 - p.1
  let dy := q.2 - p.2
  if dx = 0 ∧ dy = 0 then some [p]
  else if iabs32 dy ≤ iabs32 dx then axisLine fuel p q
  else (axisLine fuel p.swap q.swap).map (List.map Prod.swap)

/-! ### What should be drawn -/

/-- How far it is along an axis. -/
def way (a a' : Int32) : ℤ := a'.toInt - a.toInt

/-- **Points along the first axis**: one for each step of it, from one end to the other, and each within half
a unit of the line. -/
structure Along (p q : Int32 × Int32) (points : List (Int32 × Int32)) : Prop where
  length : (points.length : ℤ) = |way p.1 q.1| + 1
  ends : (points.head? = some p ∧ points.getLast? = some q) ∨ (points.head? = some q ∧ points.getLast? = some p)
  steps : points.IsChain fun u v => way u.1 v.1 = 1 ∧ |way u.2 v.2| ≤ 1
  near : ∀ u ∈ points, |2 * (way p.1 u.1 * way p.2 q.2 - way p.2 u.2 * way p.1 q.1)| ≤ |way p.1 q.1|

def Visits (p q : Int32 × Int32) (points : List (Int32 × Int32)) : Prop :=
  if |way p.2 q.2| ≤ |way p.1 q.1| then Along p q points else Along p.swap q.swap (points.map Prod.swap)

/-- **A line is drawn**, from either end. -/
def LineLaw (p q : Int32 × Int32) : Prop :=
  (∃ fuel points, drawLine fuel p q = some points ∧ Visits p q points) ∧
    ∃ fuel points, drawLine fuel q p = some points ∧ Visits q p points

/-- Twice the difference is a number of 32 bits. -/
def Doubles (a a' : Int32) : Prop := -2 ^ 31 ≤ 2 * way a a' ∧ 2 * way a a' < 2 ^ 31

/-- The higher end on the longer axis is not the last number, or there is one point only. -/
def LineEnds (p q : Int32 × Int32) : Prop :=
  p = q ∨ if |way p.2 q.2| ≤ |way p.1 q.1| then p.1.toInt ≠ 2 ^ 31 - 1 ∧ q.1.toInt ≠ 2 ^ 31 - 1
    else p.2.toInt ≠ 2 ^ 31 - 1 ∧ q.2.toInt ≠ 2 ^ 31 - 1

/-! ### The loop -/

variable {a2 bi : Int32} {A B da db : ℤ} {p q : Int32 × Int32} {points : List (Int32 × Int32)}

theorem toInt_bounds (a : Int32) : -2 ^ 31 ≤ a.toInt ∧ a.toInt < 2 ^ 31 := ⟨a.le_toInt, a.toInt_lt⟩

/-- The point in column `k` of a line that starts at `(A, B)` and goes up or down by `s`. -/
def column (A B s da db : ℤ) (k : ℕ) : Int32 × Int32 :=
  (Int32.ofInt (A + k), Int32.ofInt (B + s * Bresenham.height da db k))

section Loop

variable {s : ℤ} (h0 : 0 ≤ db) (hle : db ≤ da) (hpos : 0 < da) (hda : da ≤ 2 ^ 30) (hA : -2 ^ 31 ≤ A)
  (hlast : A + da < 2 ^ 31 - 1)

include h0 hle hpos hda hA hlast

theorem axisLoop_succ (fuel k : ℕ) (hk : (k : ℤ) ≤ da) :
    axisLoop (Int32.ofInt (A + da)) (Int32.ofInt s) (Int32.ofInt da) (Int32.ofInt db) (fuel + 1)
        (column A B s da db k).1 (column A B s da db k).2 (Int32.ofInt (Bresenham.error da db k)) =
      (axisLoop (Int32.ofInt (A + da)) (Int32.ofInt s) (Int32.ofInt da) (Int32.ofInt db) fuel
        (column A B s da db (k + 1)).1 (column A B s da db (k + 1)).2
        (Int32.ofInt (Bresenham.error da db (k + 1)))).map (column A B s da db k :: ·) := by
  have hlow := Bresenham.le_error h0 hle k
  have hhigh := Bresenham.error_lt h0 hle hpos k
  have hpass : (column A B s da db k).1 ≤ Int32.ofInt (A + da) := by
    rw [Int32.le_iff_toInt_le, column, Int32.toInt_ofInt_of_le (by omega) (by omega),
      Int32.toInt_ofInt_of_le (by omega) (by omega)]
    omega
  have hsign : 0 < Int32.ofInt (Bresenham.error da db k) ↔ 0 < Bresenham.error da db k := by
    rw [Int32.lt_iff_toInt_lt, Int32.toInt_ofInt_of_le (by omega) (by omega)]
    rfl
  have hfirst : (column A B s da db k).1 + 1 = (column A B s da db (k + 1)).1 := by
    rw [column, column, Nat.cast_succ, ← add_assoc, Int32.ofInt_add (A + k)]
    rfl
  have hsecond : (if 0 < Int32.ofInt (Bresenham.error da db k) then (column A B s da db k).2 + Int32.ofInt s
      else (column A B s da db k).2) = (column A B s da db (k + 1)).2 := by
    rw [column, column, Bresenham.height_succ, if_congr hsign rfl rfl]
    split_ifs
    · rw [mul_add, mul_one, ← add_assoc, Int32.ofInt_add (B + _)]
    · rw [add_zero]
  have hterm : (if 0 < Int32.ofInt (Bresenham.error da db k)
        then Int32.ofInt (Bresenham.error da db k) - 2 * Int32.ofInt da
        else Int32.ofInt (Bresenham.error da db k)) + 2 * Int32.ofInt db =
      Int32.ofInt (Bresenham.error da db (k + 1)) := by
    rw [Bresenham.error_succ, if_congr hsign rfl rfl, Int32.ofInt_add, Int32.ofInt_mul 2 db]
    split_ifs
    · rw [Int32.ofInt_sub, Int32.ofInt_mul 2 da]
      rfl
    · rfl
  rw [axisLoop, if_pos hpass, hfirst, hsecond, hterm]

/-- **The loop draws the columns**, one after the other. -/
theorem axisLoop_eq (left k : ℕ) (hk : (k + left : ℤ) = da) :
    axisLoop (Int32.ofInt (A + da)) (Int32.ofInt s) (Int32.ofInt da) (Int32.ofInt db) (left + 2)
        (column A B s da db k).1 (column A B s da db k).2 (Int32.ofInt (Bresenham.error da db k)) =
      some ((List.range' k (left + 1)).map (column A B s da db)) := by
  induction left generalizing k with
  | zero =>
    rw [axisLoop_succ h0 hle hpos hda hA hlast _ _ (by omega)]
    have hdone : ¬ (column A B s da db (k + 1)).1 ≤ Int32.ofInt (A + da) := by
      rw [Int32.le_iff_toInt_le, column, Int32.toInt_ofInt_of_le (by omega) (by omega),
        Int32.toInt_ofInt_of_le (by omega) (by omega)]
      omega
    rw [axisLoop, if_neg hdone]
    rfl
  | succ left ih =>
    rw [axisLoop_succ h0 hle hpos hda hA hlast _ _ (by omega), ih (k + 1) (by push_cast at hk ⊢; omega),
      List.range'_succ (s := k)]
    rfl

end Loop

/-- A count up to the last number does not end. -/
theorem axisLoop_none (hlast : a2.toInt = 2 ^ 31 - 1) (bi da db : Int32) (fuel : ℕ) (a b d : Int32) :
    axisLoop a2 bi da db fuel a b d = none := by
  induction fuel generalizing a b d with
  | zero => rfl
  | succ fuel ih =>
    have hle : a ≤ a2 := by
      have := (toInt_bounds a).2
      rw [Int32.le_iff_toInt_le]
      omega
    rw [axisLoop, if_pos hle, ih]
    rfl

/-! ### A branch -/

theorem way_sub (a b c : Int32) : way b c = way a c - way a b := (sub_sub_sub_cancel_right _ _ _).symm

theorem way_neg (a a' : Int32) : way a' a = -way a a' := (neg_sub _ _).symm

/-- Either end may come first. -/
theorem Along.symm (h : Along p q points) : Along q p points where
  length := by rw [h.length, way_neg q.1, abs_neg]
  ends := h.ends.symm
  steps := h.steps
  near := fun u hu => by
    have hcross : way q.1 u.1 * way q.2 p.2 - way q.2 u.2 * way q.1 p.1 =
        -(way p.1 u.1 * way p.2 q.2 - way p.2 u.2 * way p.1 q.1) := by
      simp only [way]
      ring
    rw [hcross, mul_neg, abs_neg, way_neg p.1, abs_neg]
    exact h.near u hu

theorem sub_eq_ofInt (a a' : Int32) : a' - a = Int32.ofInt (way a a') := by
  rw [way, Int32.ofInt_sub, Int32.ofInt_toInt, Int32.ofInt_toInt]

theorem iabs32_sub {a a' : Int32} (h : |way a a'| ≤ 2 ^ 30) : iabs32 (a' - a) = Int32.ofInt |way a a'| := by
  rw [abs_le] at h
  have hneg : a' - a < 0 ↔ way a a' < 0 := by
    rw [sub_eq_ofInt, Int32.lt_iff_toInt_lt, Int32.toInt_ofInt_of_le (by omega) (by omega)]
    rfl
  rw [iabs32, if_congr hneg rfl rfl, sub_eq_ofInt]
  split_ifs with hlt
  · rw [abs_of_neg hlt, Int32.ofInt_neg]
  · rw [abs_of_nonneg (not_lt.1 hlt)]

/-- Up or down. -/
def slope (n : ℤ) : ℤ := if 0 < n then 1 else -1

theorem slope_mul_abs (n : ℤ) : slope n * |n| = n := by
  rw [slope]
  split_ifs with h
  · rw [abs_of_pos h, one_mul]
  · rw [abs_of_nonpos (not_lt.1 h), neg_mul_neg, one_mul]

/-- The columns of a line from `p` on. -/
def lineColumn (p q : Int32 × Int32) : ℕ → Int32 × Int32 :=
  column p.1.toInt p.2.toInt (slope (way p.2 q.2)) (way p.1 q.1) |way p.2 q.2|

section Branch

variable (hlt : p.1.toInt < q.1.toInt) (hle : |way p.2 q.2| ≤ way p.1 q.1)

include hlt hle

theorem axisLine_eq (hda : way p.1 q.1 ≤ 2 ^ 30) (fuel : ℕ) : axisLine fuel p q =
    axisLoop (Int32.ofInt (p.1.toInt + way p.1 q.1)) (Int32.ofInt (slope (way p.2 q.2)))
      (Int32.ofInt (way p.1 q.1)) (Int32.ofInt |way p.2 q.2|) fuel (lineColumn p q 0).1 (lineColumn p q 0).2
      (Int32.ofInt (Bresenham.error (way p.1 q.1) |way p.2 q.2| 0)) := by
  have hswap : ¬ q.1 < p.1 := by
    rw [Int32.lt_iff_toInt_lt]
    omega
  have hlast : q.1 = Int32.ofInt (p.1.toInt + way p.1 q.1) := by
    rw [way, add_sub_cancel, Int32.ofInt_toInt]
  have hslope : (if 0 < q.2 - p.2 then 1 else -1) = Int32.ofInt (slope (way p.2 q.2)) := by
    have hwide := abs_le.1 (hle.trans hda)
    have hpos : 0 < q.2 - p.2 ↔ 0 < way p.2 q.2 := by
      rw [sub_eq_ofInt, Int32.lt_iff_toInt_lt, Int32.toInt_ofInt_of_le (by omega) (by omega)]
      rfl
    rw [if_congr hpos rfl rfl, slope]
    split_ifs <;> rfl
  have herror : 2 * Int32.ofInt |way p.2 q.2| - Int32.ofInt (way p.1 q.1) =
      Int32.ofInt (Bresenham.error (way p.1 q.1) |way p.2 q.2| 0) := by
    rw [Bresenham.error, Bresenham.height, mul_zero, sub_zero, Nat.cast_zero, zero_add, mul_one, Int32.ofInt_sub,
      Int32.ofInt_mul]
    rfl
  simp only [axisLine, if_neg hswap, hslope, iabs32_sub (hle.trans hda)]
  rw [sub_eq_ofInt p.1, herror, ← hlast, lineColumn, column, Bresenham.height, Nat.cast_zero, add_zero, mul_zero,
    add_zero, Int32.ofInt_toInt, Int32.ofInt_toInt]

theorem way_lineColumn {k : ℕ} (hk : (k : ℤ) ≤ way p.1 q.1) : way p.1 (lineColumn p q k).1 = k ∧
    way p.2 (lineColumn p q k).2 = slope (way p.2 q.2) * Bresenham.height (way p.1 q.1) |way p.2 q.2| k := by
  have hlow := Bresenham.height_nonneg (abs_nonneg _) hle (sub_pos.2 hlt) k
  have hhigh := Bresenham.height_le (abs_nonneg _) hle (sub_pos.2 hlt) hk
  have hp₁ := toInt_bounds p.1
  have hq₁ := toInt_bounds q.1
  have hp₂ := toInt_bounds p.2
  have hq₂ := toInt_bounds q.2
  have hway : way p.1 q.1 = q.1.toInt - p.1.toInt := rfl
  have hway₂ : way p.2 q.2 = q.2.toInt - p.2.toInt := rfl
  have hrange : -2 ^ 31 ≤ p.2.toInt + slope (way p.2 q.2) * Bresenham.height (way p.1 q.1) |way p.2 q.2| k ∧
      p.2.toInt + slope (way p.2 q.2) * Bresenham.height (way p.1 q.1) |way p.2 q.2| k < 2 ^ 31 := by
    rw [slope]
    split_ifs with hup
    · have habs := abs_of_pos hup
      omega
    · have habs := abs_of_nonpos (not_lt.1 hup)
      omega
  have hfirst : (lineColumn p q k).1.toInt = p.1.toInt + k := Int32.toInt_ofInt_of_le (by omega) (by omega)
  have hsecond := Int32.toInt_ofInt_of_le hrange.1 hrange.2
  exact ⟨sub_eq_of_eq_add' hfirst, sub_eq_of_eq_add' hsecond⟩

/-- **The columns are a line.** -/
theorem along_columns {n : ℕ} (hn : (n : ℤ) = way p.1 q.1) :
    Along p q ((List.range' 0 (n + 1)).map (lineColumn p q)) where
  length := by
    rw [List.length_map, List.length_range', ← hn, abs_of_nonneg (Nat.cast_nonneg n)]
    rfl
  ends := by
    refine Or.inl ⟨?_, ?_⟩
    · rw [List.range'_succ, List.map_cons, List.head?_cons, lineColumn, column, Bresenham.height, Nat.cast_zero,
        add_zero, mul_zero, add_zero, Int32.ofInt_toInt, Int32.ofInt_toInt]
    · rw [List.range'_1_concat, List.map_append, List.map_singleton, List.getLast?_concat, lineColumn, column,
        zero_add, Bresenham.height_end (abs_nonneg _) hle (sub_pos.2 hlt) hn, slope_mul_abs, hn, way, way,
        add_sub_cancel, add_sub_cancel, Int32.ofInt_toInt, Int32.ofInt_toInt]
  steps := by
    rw [List.isChain_map, List.isChain_iff_getElem]
    intro i hi
    rw [List.length_range'] at hi
    simp only [List.getElem_range', zero_add, one_mul]
    obtain ⟨h₁, h₂⟩ := way_lineColumn hlt hle (k := i) (by omega)
    obtain ⟨h₁', h₂'⟩ := way_lineColumn hlt hle (k := i + 1) (by push_cast; omega)
    rw [way_sub p.1 (lineColumn p q i).1, way_sub p.2 (lineColumn p q i).2, h₁, h₂, h₁', h₂', Bresenham.height_succ, slope]
    push_cast
    refine ⟨by ring, ?_⟩
    split_ifs <;> ring_nf <;> norm_num
  near := by
    intro u hu
    obtain ⟨k, hk, rfl⟩ := List.mem_map.1 hu
    have hkn := List.mem_range'_1.1 hk
    obtain ⟨h₁, h₂⟩ := way_lineColumn hlt hle (k := k) (by omega)
    have hnear := Bresenham.near (abs_nonneg _) hle k
    have hcross : 2 * (k * way p.2 q.2 - slope (way p.2 q.2) * Bresenham.height (way p.1 q.1) |way p.2 q.2| k *
        way p.1 q.1) = slope (way p.2 q.2) * (2 * (k * |way p.2 q.2| -
          Bresenham.height (way p.1 q.1) |way p.2 q.2| k * way p.1 q.1)) := by
      linear_combination (-2 * (k : ℤ)) * slope_mul_abs (way p.2 q.2)
    have hone : |slope (way p.2 q.2)| = 1 := by
      rw [slope]
      split_ifs <;> rfl
    rw [h₁, h₂, hcross, abs_mul, hone, one_mul, abs_of_pos (a := way p.1 q.1) (sub_pos.2 hlt)]
    exact hnear

end Branch

/-- The higher end does not come. -/
theorem axisLine_none (h : p.1.toInt = 2 ^ 31 - 1 ∨ q.1.toInt = 2 ^ 31 - 1) (fuel : ℕ) : axisLine fuel p q = none := by
  have hp := toInt_bounds p.1
  have hq := toInt_bounds q.1
  rw [axisLine]
  refine axisLoop_none ?_ _ _ _ _ _ _ _
  by_cases hswap : q.1 < p.1
  · rw [if_pos hswap]
    rw [Int32.lt_iff_toInt_lt] at hswap
    dsimp only
    omega
  · rw [if_neg hswap]
    rw [Int32.lt_iff_toInt_lt] at hswap
    dsimp only
    omega

theorem axisLine_along_of_lt (hlt : p.1.toInt < q.1.toInt) (hle : |way p.2 q.2| ≤ way p.1 q.1)
    (hda : way p.1 q.1 ≤ 2 ^ 30) (hlast : q.1.toInt ≠ 2 ^ 31 - 1) :
    ∃ fuel points, axisLine fuel p q = some points ∧ Along p q points := by
  obtain ⟨n, hn⟩ := Int.eq_ofNat_of_zero_le (sub_nonneg.2 hlt.le)
  have hq := toInt_bounds q.1
  have hway : way p.1 q.1 = q.1.toInt - p.1.toInt := rfl
  refine ⟨n + 2, _, ?_, along_columns hlt hle hn.symm⟩
  rw [axisLine_eq hlt hle hda]
  exact axisLoop_eq (abs_nonneg _) hle (sub_pos.2 hlt) hda (toInt_bounds p.1).1 (by omega) n 0 (by
    rw [Nat.cast_zero, zero_add]
    exact hn.symm)

/-- **A branch draws a line**, whichever end it is given first. -/
theorem axisLine_along (hne : way p.1 q.1 ≠ 0) (hle : |way p.2 q.2| ≤ |way p.1 q.1|) (hda : |way p.1 q.1| ≤ 2 ^ 30)
    (hlast : p.1.toInt ≠ 2 ^ 31 - 1 ∧ q.1.toInt ≠ 2 ^ 31 - 1) :
    ∃ fuel points, axisLine fuel p q = some points ∧ Along p q points := by
  rcases lt_or_gt_of_ne (sub_ne_zero.1 hne) with hlt | hgt
  · have hpos : 0 < way q.1 p.1 := sub_pos.2 hlt
    rw [way_neg q.1, abs_neg, abs_of_pos hpos] at hle hda
    rw [way_neg q.2, abs_neg] at hle
    obtain ⟨fuel, points, hrun, halong⟩ := axisLine_along_of_lt hlt hle hda hlast.1
    refine ⟨fuel, points, ?_, halong.symm⟩
    have hback : ¬ p.1 < q.1 := fun h => absurd (Int32.lt_iff_toInt_lt.1 h) hlt.asymm
    rw [← hrun, axisLine, axisLine, if_pos (Int32.lt_iff_toInt_lt.2 hlt), if_neg hback]
  · have hpos : 0 < way p.1 q.1 := sub_pos.2 hgt
    rw [abs_of_pos hpos] at hle hda
    exact axisLine_along_of_lt hgt hle hda hlast.2

/-! ### The line -/

theorem iabs32_le_iff (hx : |way p.1 q.1| ≤ 2 ^ 30) (hy : |way p.2 q.2| ≤ 2 ^ 30) :
    iabs32 (q.2 - p.2) ≤ iabs32 (q.1 - p.1) ↔ |way p.2 q.2| ≤ |way p.1 q.1| := by
  have hx0 := abs_nonneg (way p.1 q.1)
  have hy0 := abs_nonneg (way p.2 q.2)
  rw [iabs32_sub hx, iabs32_sub hy, Int32.le_iff_toInt_le, Int32.toInt_ofInt_of_le (by omega) (by omega),
    Int32.toInt_ofInt_of_le (by omega) (by omega)]

theorem drawLine_same (fuel : ℕ) (p : Int32 × Int32) : drawLine fuel p p = some [p] ∧ Visits p p [p] := by
  constructor
  · rw [drawLine, Int32.sub_self, Int32.sub_self]
    exact if_pos ⟨rfl, rfl⟩
  · have hzero (a : Int32) : way a a = 0 := sub_self _
    rw [Visits, hzero, hzero, if_pos le_rfl]
    refine ⟨by rw [hzero]; rfl, Or.inl ⟨rfl, rfl⟩, List.isChain_singleton _, fun u hu => ?_⟩
    rw [List.mem_singleton.1 hu, hzero, hzero]
    rfl

theorem drawLine_of_ne (hne : p ≠ q) (hx : |way p.1 q.1| ≤ 2 ^ 30) (hy : |way p.2 q.2| ≤ 2 ^ 30) (fuel : ℕ) :
    drawLine fuel p q = if |way p.2 q.2| ≤ |way p.1 q.1| then axisLine fuel p q
      else (axisLine fuel p.swap q.swap).map (List.map Prod.swap) := by
  have hzero {a a' : Int32} (h : a' - a = 0) : a = a' := by
    rw [← Int32.sub_add_cancel a' a, h, Int32.zero_add]
  have hpair : ¬ (q.1 - p.1 = 0 ∧ q.2 - p.2 = 0) := fun h => hne (Prod.ext (hzero h.1) (hzero h.2))
  rw [drawLine, if_neg hpair, if_congr (iabs32_le_iff hx hy) rfl rfl]

/-- **A line is drawn from the first end**, when its higher end is not the last number. -/
theorem visits_iff (hx : |way p.1 q.1| ≤ 2 ^ 30) (hy : |way p.2 q.2| ≤ 2 ^ 30) :
    (∃ fuel points, drawLine fuel p q = some points ∧ Visits p q points) ↔ LineEnds p q := by
  rcases eq_or_ne p q with rfl | hne
  · exact iff_of_true ⟨0, _, drawLine_same 0 p⟩ (Or.inl rfl)
  · rw [LineEnds, or_iff_right hne]
    simp only [drawLine_of_ne hne hx hy, Visits]
    have hpair : way p.1 q.1 ≠ 0 ∨ way p.2 q.2 ≠ 0 := by
      by_contra h
      push Not at h
      exact hne (Prod.ext (Int32.toInt_inj.1 (sub_eq_zero.1 h.1).symm) (Int32.toInt_inj.1 (sub_eq_zero.1 h.2).symm))
    split_ifs with hle
    · constructor
      · rintro ⟨fuel, points, hrun, -⟩
        by_contra hlast
        rw [axisLine_none (by tauto)] at hrun
        cases hrun
      · refine axisLine_along (fun h0 => ?_) hle hx
        rw [h0, abs_zero, abs_nonpos_iff] at hle
        exact hpair.elim (fun h => h h0) fun h => h hle
    · constructor
      · rintro ⟨fuel, points, hrun, -⟩
        by_contra hlast
        have hnone : axisLine fuel p.swap q.swap = none := axisLine_none (p := p.swap) (q := q.swap) (by
          simp only [Prod.fst_swap]
          tauto) fuel
        rw [hnone] at hrun
        cases hrun
      · intro hlast
        obtain ⟨fuel, points, hrun, halong⟩ := axisLine_along (p := p.swap) (q := q.swap) (fun h0 => by
          have hzero : |way p.2 q.2| = 0 := abs_eq_zero.2 h0
          exact hle (hzero.le.trans (abs_nonneg _))) (not_le.1 hle).le hy hlast
        refine ⟨fuel, points.map Prod.swap, by rw [hrun]; rfl, ?_⟩
        rwa [List.map_map, Prod.swap_swap_eq, List.map_id]

/-- **Exactly when a line is drawn.** -/
theorem lineLaw_iff (hx : Doubles p.1 q.1) (hy : Doubles p.2 q.2) : LineLaw p q ↔ LineEnds p q := by
  have hx' : |way p.1 q.1| ≤ 2 ^ 30 := abs_le.2 ⟨by have := hx.1; omega, by have := hx.2; omega⟩
  have hy' : |way p.2 q.2| ≤ 2 ^ 30 := abs_le.2 ⟨by have := hy.1; omega, by have := hy.2; omega⟩
  have hturn : LineEnds q p ↔ LineEnds p q := by
    rw [LineEnds, LineEnds, way_neg p.1, way_neg p.2, abs_neg, abs_neg, eq_comm, and_comm (a := q.1.toInt ≠ _),
      and_comm (a := q.2.toInt ≠ _)]
  rw [LineLaw, visits_iff hx' hy', visits_iff (by rwa [way_neg p.1, abs_neg]) (by rwa [way_neg p.2, abs_neg]), hturn,
    and_self]

theorem lineLaw_iff_short : LineLaw (3, 4) (8, 6) ↔ LineEnds (3, 4) (8, 6) :=
  lineLaw_iff (by constructor <;> decide) (by constructor <;> decide)

/-- A line to the right edge of the coordinates is drawn for ever. -/
theorem not_lineLaw : ¬ ∀ p q : Int32 × Int32, Doubles p.1 q.1 → Doubles p.2 q.2 → LineLaw p q := by
  intro h
  have hlaw := h (2147483646, 0) (2147483647, 0) (by constructor <;> decide) (by constructor <;> decide)
  have hends := (visits_iff (by decide) (by decide)).1 hlaw.1
  revert hends
  rw [LineEnds]
  decide

end Tnu.Gfx
