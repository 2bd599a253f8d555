/-
**A polynomial authenticator.**

The blocks of a message are the coefficients of a polynomial, which is evaluated modulo `2 ^ 130 - 5` at a
secret point; the tag is its value plus a second secret, modulo `2 ^ 128`.  Programs hold numbers of 130
bits in five limbs of 26 bits, let the carries run once after a product, and reduce at the end.

Main definitions:

* `Poly1305.acc`, `Poly1305.mac` — the value of the polynomial, and the tag.

Main result:

* `Poly1305.val_freezeLimbs` — **the value that is left at the end is reduced**.
-/

import Mathlib.Tactic.Ring
import Mathlib.Tactic.Linarith
import Tnu.Lib.Bytes

set_option autoImplicit false

namespace Poly1305

/-! ### The authenticator -/

def p : ℕ := 2 ^ 130 - 5

theorem p_add : p + 5 = 2 ^ 130 := by decide

def clamp (r : ℕ) : ℕ := r &&& 0x0ffffffc0ffffffc0ffffffc0fffffff

def keyR (key : List UInt8) : ℕ := clamp (Bytes.ofLe (key.take 16))

def keyS (key : List UInt8) : ℕ := Bytes.ofLe ((key.drop 16).take 16)

/-- The value of the polynomial, from the value `a` of what has been read on: each block has a one behind
its last byte. -/
def accumulate (r a : ℕ) (msg : List UInt8) : ℕ :=
  if _h : msg = [] then a
  else accumulate r ((a + Bytes.ofLe (msg.take 16 ++ [1])) * r % p) (msg.drop 16)
termination_by msg.length
decreasing_by
  have hmsg : 0 < msg.length := List.length_pos_iff.2 _h
  rw [List.length_drop]
  omega

def acc (key msg : List UInt8) : ℕ := accumulate (keyR key) 0 msg

/-- **The tag.** -/
def mac (key msg : List UInt8) : List UInt8 := Bytes.le 16 (acc key msg + keyS key)

/-! ### Limbs -/

/-- Five limbs. -/
@[ext] structure Limbs where
  h0 : ℕ
  h1 : ℕ
  h2 : ℕ
  h3 : ℕ
  h4 : ℕ

def Limbs.val (h : Limbs) : ℕ :=
  h.h0 + 2 ^ 26 * h.h1 + 2 ^ 52 * h.h2 + 2 ^ 78 * h.h3 + 2 ^ 104 * h.h4

/-- The columns of a product; what is above the last limb comes back five times. -/
def mulLimbs (r h : Limbs) : Limbs where
  h0 := h.h0 * r.h0 + h.h1 * (r.h4 * 5) + h.h2 * (r.h3 * 5) + h.h3 * (r.h2 * 5) + h.h4 * (r.h1 * 5)
  h1 := h.h0 * r.h1 + h.h1 * r.h0 + h.h2 * (r.h4 * 5) + h.h3 * (r.h3 * 5) + h.h4 * (r.h2 * 5)
  h2 := h.h0 * r.h2 + h.h1 * r.h1 + h.h2 * r.h0 + h.h3 * (r.h4 * 5) + h.h4 * (r.h3 * 5)
  h3 := h.h0 * r.h3 + h.h1 * r.h2 + h.h2 * r.h1 + h.h3 * r.h0 + h.h4 * (r.h4 * 5)
  h4 := h.h0 * r.h4 + h.h1 * r.h3 + h.h2 * r.h2 + h.h3 * r.h1 + h.h4 * r.h0

/-- **The columns stand for the product.** -/
theorem val_mulLimbs (r h : Limbs) : (mulLimbs r h).val % p = h.val * r.val % p := by
  -- the products of limbs whose places are above the last
  set w := h.h1 * r.h4 + h.h2 * r.h3 + h.h3 * r.h2 + h.h4 * r.h1 +
    2 ^ 26 * (h.h2 * r.h4 + h.h3 * r.h3 + h.h4 * r.h2) + 2 ^ 52 * (h.h3 * r.h4 + h.h4 * r.h3) +
    2 ^ 78 * (h.h4 * r.h4) with hw
  have hsum : (mulLimbs r h).val + 2 ^ 130 * w = h.val * r.val + 5 * w := by
    rw [hw]
    simp only [mulLimbs, Limbs.val]
    ring
  have hprod : (mulLimbs r h).val + p * w = h.val * r.val := by
    have hp : 2 ^ 130 * w = p * w + 5 * w := by rw [← p_add]; ring
    omega
  rw [← hprod, Nat.add_mul_mod_self_left]

/-- One pass of carries over columns; the carry out of the last one comes back to the first, and from there
to the second. -/
def carryLimbs (d : Limbs) : Limbs :=
  let d1 := d.h1 + d.h0 / 2 ^ 26
  let d2 := d.h2 + d1 / 2 ^ 26
  let d3 := d.h3 + d2 / 2 ^ 26
  let d4 := d.h4 + d3 / 2 ^ 26
  let d0 := d.h0 % 2 ^ 26 + d4 / 2 ^ 26 * 5
  ⟨d0 % 2 ^ 26, d1 % 2 ^ 26 + d0 / 2 ^ 26, d2 % 2 ^ 26, d3 % 2 ^ 26, d4 % 2 ^ 26⟩

/-- **A pass of carries keeps the value**, modulo the prime. -/
theorem val_carryLimbs (d : Limbs) : (carryLimbs d).val % p = d.val % p := by
  obtain ⟨d0, d1, d2, d3, d4⟩ := d
  have hsum : ∃ c, (carryLimbs ⟨d0, d1, d2, d3, d4⟩).val + p * c = Limbs.val ⟨d0, d1, d2, d3, d4⟩ := by
    refine ⟨(d4 + (d3 + (d2 + (d1 + d0 / 2 ^ 26) / 2 ^ 26) / 2 ^ 26) / 2 ^ 26) / 2 ^ 26, ?_⟩
    simp only [carryLimbs, Limbs.val, p]
    omega
  obtain ⟨c, hc⟩ := hsum
  rw [← hc, Nat.add_mul_mod_self_left]

/-- Limbs behind a pass of carries: only the second one may be too large. -/
structure Carried (h : Limbs) : Prop where
  h0 : h.h0 < 2 ^ 26
  h1 : h.h1 < 2 ^ 26 + 64
  h2 : h.h2 < 2 ^ 26
  h3 : h.h3 < 2 ^ 26
  h4 : h.h4 < 2 ^ 26

/-- Limbs in range. -/
structure Proper (h : Limbs) : Prop where
  h0 : h.h0 < 2 ^ 26
  h1 : h.h1 < 2 ^ 26
  h2 : h.h2 < 2 ^ 26
  h3 : h.h3 < 2 ^ 26
  h4 : h.h4 < 2 ^ 26

theorem carried_carryLimbs {d : Limbs} (h0 : d.h0 < 2 ^ 58) (h1 : d.h1 < 2 ^ 58) (h2 : d.h2 < 2 ^ 58)
    (h3 : d.h3 < 2 ^ 58) (h4 : d.h4 < 2 ^ 55 + 2 ^ 54) : Carried (carryLimbs d) := by
  obtain ⟨d0, d1, d2, d3, d4⟩ := d
  dsimp only at h0 h1 h2 h3 h4
  constructor <;> simp only [carryLimbs] <;> omega

/-- Limbs that a product does not overflow. -/
structure Roomy (h : Limbs) : Prop where
  h0 : h.h0 < 2 ^ 27 + 2 ^ 26
  h1 : h.h1 < 2 ^ 27 + 2 ^ 26
  h2 : h.h2 < 2 ^ 27 + 2 ^ 26
  h3 : h.h3 < 2 ^ 27 + 2 ^ 26
  h4 : h.h4 < 2 ^ 27 + 2 ^ 26

/-- Limbs of a point. -/
structure Clamped (r : Limbs) : Prop where
  h0 : r.h0 ≤ 0x3ffffff
  h1 : r.h1 ≤ 0x3ffff03
  h2 : r.h2 ≤ 0x3ffc0ff
  h3 : r.h3 ≤ 0x3f03fff
  h4 : r.h4 ≤ 0x00fffff

variable {h : Limbs}

theorem mulLimbs_lt {r : Limbs} (hr : Clamped r) (hh : Roomy h) :
    (mulLimbs r h).h0 < 2 ^ 58 - 2 ^ 32 ∧ (mulLimbs r h).h1 < 2 ^ 58 - 2 ^ 32 ∧
      (mulLimbs r h).h2 < 2 ^ 58 - 2 ^ 32 ∧ (mulLimbs r h).h3 < 2 ^ 58 - 2 ^ 32 ∧
      (mulLimbs r h).h4 < 2 ^ 55 + 2 ^ 54 := by
  have hmul {a b m n : ℕ} (ha : a < m + 1) (hb : b ≤ n) : a * b ≤ m * n :=
    Nat.mul_le_mul (Nat.le_of_lt_succ ha) hb
  have hfive {b n : ℕ} (hb : b ≤ n) : b * 5 ≤ n * 5 := Nat.mul_le_mul_right 5 hb
  simp only [mulLimbs]
  refine ⟨?_, ?_, ?_, ?_, ?_⟩
  · have h0 := hmul hh.h0 hr.h0
    have h1 := hmul hh.h1 (hfive hr.h4)
    have h2 := hmul hh.h2 (hfive hr.h3)
    have h3 := hmul hh.h3 (hfive hr.h2)
    have h4 := hmul hh.h4 (hfive hr.h1)
    omega
  · have h0 := hmul hh.h0 hr.h1
    have h1 := hmul hh.h1 hr.h0
    have h2 := hmul hh.h2 (hfive hr.h4)
    have h3 := hmul hh.h3 (hfive hr.h3)
    have h4 := hmul hh.h4 (hfive hr.h2)
    omega
  · have h0 := hmul hh.h0 hr.h2
    have h1 := hmul hh.h1 hr.h1
    have h2 := hmul hh.h2 hr.h0
    have h3 := hmul hh.h3 (hfive hr.h4)
    have h4 := hmul hh.h4 (hfive hr.h3)
    omega
  · have h0 := hmul hh.h0 hr.h3
    have h1 := hmul hh.h1 hr.h2
    have h2 := hmul hh.h2 hr.h1
    have h3 := hmul hh.h3 hr.h0
    have h4 := hmul hh.h4 (hfive hr.h4)
    omega
  · have h0 := hmul hh.h0 hr.h4
    have h1 := hmul hh.h1 hr.h3
    have h2 := hmul hh.h2 hr.h2
    have h3 := hmul hh.h3 hr.h1
    have h4 := hmul hh.h4 hr.h0
    omega

def carryAgain (h : Limbs) : Limbs :=
  let h2 := h.h2 + h.h1 / 2 ^ 26
  let h3 := h.h3 + h2 / 2 ^ 26
  let h4 := h.h4 + h3 / 2 ^ 26
  let h0 := h.h0 + h4 / 2 ^ 26 * 5
  ⟨h0 % 2 ^ 26, h.h1 % 2 ^ 26 + h0 / 2 ^ 26, h2 % 2 ^ 26, h3 % 2 ^ 26, h4 % 2 ^ 26⟩

theorem val_carryAgain (h : Limbs) : (carryAgain h).val % p = h.val % p := by
  obtain ⟨h0, h1, h2, h3, h4⟩ := h
  have hsum : (carryAgain ⟨h0, h1, h2, h3, h4⟩).val +
      p * ((h4 + (h3 + (h2 + h1 / 2 ^ 26) / 2 ^ 26) / 2 ^ 26) / 2 ^ 26) =
        Limbs.val ⟨h0, h1, h2, h3, h4⟩ := by
    simp only [carryAgain, Limbs.val, p]
    omega
  rw [← hsum, Nat.add_mul_mod_self_left]

theorem proper_carryAgain (hh : Carried h) : Proper (carryAgain h) := by
  obtain ⟨h0, h1, h2, h3, h4⟩ := h
  obtain ⟨b0, b1, b2, b3, b4⟩ := hh
  dsimp only at b0 b1 b2 b3 b4
  constructor <;> simp only [carryAgain] <;> omega

/-- The limbs of the number plus five, without what is above them; and the carry. -/
def plusFive (h : Limbs) : Limbs :=
  let g0 := h.h0 + 5
  let g1 := h.h1 + g0 / 2 ^ 26
  let g2 := h.h2 + g1 / 2 ^ 26
  let g3 := h.h3 + g2 / 2 ^ 26
  let g4 := h.h4 + g3 / 2 ^ 26
  ⟨g0 % 2 ^ 26, g1 % 2 ^ 26, g2 % 2 ^ 26, g3 % 2 ^ 26, g4⟩

/-- The choice at the end: the number, or the number less the prime. -/
def freezeLimbs (h : Limbs) : Limbs :=
  if (plusFive h).h4 < 2 ^ 26 then h else { plusFive h with h4 := (plusFive h).h4 - 2 ^ 26 }

theorem val_plusFive (h : Limbs) : (plusFive h).val = h.val + 5 := by
  obtain ⟨h0, h1, h2, h3, h4⟩ := h
  simp only [plusFive, Limbs.val]
  omega

theorem plusFive_lt (hh : Proper h) :
    (plusFive h).h0 < 2 ^ 26 ∧ (plusFive h).h1 < 2 ^ 26 ∧ (plusFive h).h2 < 2 ^ 26 ∧
      (plusFive h).h3 < 2 ^ 26 ∧ (plusFive h).h4 ≤ 2 ^ 26 := by
  obtain ⟨h0, h1, h2, h3, h4⟩ := h
  obtain ⟨b0, b1, b2, b3, b4⟩ := hh
  dsimp only at b0 b1 b2 b3 b4
  simp only [plusFive]
  omega

theorem Proper.val_lt (hh : Proper h) : h.val < 2 ^ 130 := by
  obtain ⟨h0, h1, h2, h3, h4⟩ := h
  obtain ⟨b0, b1, b2, b3, b4⟩ := hh
  dsimp only at b0 b1 b2 b3 b4
  simp only [Limbs.val]
  omega

/-- **The value that is left at the end is reduced.** -/
theorem val_freezeLimbs (hh : Proper h) :
    (freezeLimbs h).val = h.val % p ∧ Proper (freezeLimbs h) := by
  obtain ⟨b0, b1, b2, b3, b4⟩ := plusFive_lt hh
  have hval := val_plusFive h
  have hlt := hh.val_lt
  have hp := p_add
  rw [freezeLimbs]
  split_ifs with hsmall
  · have hproper : Proper (plusFive h) := ⟨b0, b1, b2, b3, hsmall⟩
    have hfive := hproper.val_lt
    exact ⟨(Nat.mod_eq_of_lt (by omega)).symm, hh⟩
  · have hless : (Limbs.val { plusFive h with h4 := (plusFive h).h4 - 2 ^ 26 }) + 2 ^ 130 =
        (plusFive h).val := by
      simp only [Limbs.val]
      omega
    have hmod : h.val % p = h.val - p := by
      rw [Nat.mod_eq_sub_mod (by omega), Nat.mod_eq_of_lt (by omega)]
    exact ⟨by omega, b0, b1, b2, b3, by dsimp only; omega⟩

end Poly1305
