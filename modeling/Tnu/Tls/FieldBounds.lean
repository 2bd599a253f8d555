/-
**The bounds of the field arithmetic.**

The limbs that the operations of `tnu_x25519` leave are `Tight`, and on such limbs the operations are
exact: no sum or product is cut off at 64 or 128 bits, and the result stands for what it should.
Only `fe_mul_small` multiplies in 64 bits, which limbs of 51 bits times `121666` do not fit.

Main definitions:

* `AddFits`, `SubFits`, `MulFits`, `MulSmallFits`, `PowFits` —
  every intermediate result is of the width that the source computes it in.

Main results:

* `mulFits` — **a product fits into 128 bits**;
* `view_fePowLoop` — the loop of the inverse is a power;
* `fieldLaw_iff` — **the operations are exact when the multiple fits**.
-/

import Tnu.Tls.X25519

set_option autoImplicit false

namespace Tnu.Tls

/-! ### What has to fit -/

def Below (w : ℕ) (f : Fe25519) : Prop := f.v0 < w ∧ f.v1 < w ∧ f.v2 < w ∧ f.v3 < w ∧ f.v4 < w

def AddFits (a b : Fe25519) : Prop :=
  let s : Fe25519 := ⟨a.v0 + b.v0, a.v1 + b.v1, a.v2 + b.v2, a.v3 + b.v3, a.v4 + b.v4⟩
  Below (2 ^ 64) s ∧ NormalizeFits s

/-- The sums with `twice_p` fit, and nothing is taken from less than it. -/
def SubFits (a b : Fe25519) : Prop :=
  let s : Fe25519 := ⟨a.v0 + (2 ^ 52 - 38), a.v1 + (2 ^ 52 - 2), a.v2 + (2 ^ 52 - 2), a.v3 + (2 ^ 52 - 2),
    a.v4 + (2 ^ 52 - 2)⟩
  Below (2 ^ 64) s ∧ (b.v0 ≤ s.v0 ∧ b.v1 ≤ s.v1 ∧ b.v2 ≤ s.v2 ∧ b.v3 ≤ s.v3 ∧ b.v4 ≤ s.v4) ∧
    NormalizeFits ⟨s.v0 - b.v0, s.v1 - b.v1, s.v2 - b.v2, s.v3 - b.v3, s.v4 - b.v4⟩

/-- The columns of `fe_mul` as they should be. -/
def exactColumns (a b : Fe25519) : Fe25519 where
  v0 := a.v0 * b.v0 + 19 * (a.v1 * b.v4 + a.v2 * b.v3 + a.v3 * b.v2 + a.v4 * b.v1)
  v1 := a.v0 * b.v1 + a.v1 * b.v0 + 19 * (a.v2 * b.v4 + a.v3 * b.v3 + a.v4 * b.v2)
  v2 := a.v0 * b.v2 + a.v1 * b.v1 + a.v2 * b.v0 + 19 * (a.v3 * b.v4 + a.v4 * b.v3)
  v3 := a.v0 * b.v3 + a.v1 * b.v2 + a.v2 * b.v1 + a.v3 * b.v0 + 19 * a.v4 * b.v4
  v4 := a.v0 * b.v4 + a.v1 * b.v3 + a.v2 * b.v2 + a.v3 * b.v1 + a.v4 * b.v0

/-- The columns and the sums with the carries fit into 128 bits, what is left into 64. -/
def CarryFits (t : Fe25519) : Prop :=
  let t1 := t.v1 + t.v0 >>> 51
  let t2 := t.v2 + t1 >>> 51
  let t3 := t.v3 + t2 >>> 51
  let t4 := t.v4 + t3 >>> 51
  let r0 := (t.v0 &&& feMask) + (t4 >>> 51) * 19
  Below (2 ^ 128) ⟨t.v0, t1, t2, t3, t4⟩ ∧ t4 >>> 51 < 2 ^ 64 ∧ r0 < 2 ^ 64 ∧
    NormalizeFits ⟨r0, t1 &&& feMask, t2 &&& feMask, t3 &&& feMask, t4 &&& feMask⟩

def MulFits (a b : Fe25519) : Prop := CarryFits (exactColumns a b)

def MulSmallFits (a : Fe25519) (n : ℕ) : Prop :=
  let s : Fe25519 := ⟨a.v0 * n, a.v1 * n, a.v2 * n, a.v3 * n, a.v4 * n⟩
  Below (2 ^ 64) s ∧ NormalizeFits s

/-- Every product of `fe_pow_pminus2` fits. -/
def PowFits (base : Fe25519) : ℕ → Fe25519 → Prop
  | 0, _ => True
  | bit + 1, result =>
    MulFits result result ∧ MulFits (feSquare result) base ∧
      PowFits base bit (if bitAt pminus2 bit then feMul (feSquare result) base else feSquare result)

/-- **An operation does what it should**: everything fits, the limbs are in range, and stand for the result. -/
structure ExactOp (fits : Prop) (result : Fe25519) (exact : ZMod Ladder.p) : Prop where
  fits : fits
  tight : Tight result
  view : result.view = exact

/-- **The operations of the field are exact.** -/
structure FieldLaw (a b : Fe25519) (n : ℕ) : Prop where
  add : ExactOp (AddFits a b) (feAdd a b) (a.view + b.view)
  sub : ExactOp (SubFits a b) (feSub a b) (a.view - b.view)
  mul : ExactOp (MulFits a b) (feMul a b) (a.view * b.view)
  square : ExactOp (MulFits a a) (feSquare a) (a.view ^ 2)
  mulSmall : ExactOp (MulSmallFits a n) (feMulSmall a n) (a.view * n)
  invert : ExactOp (PowFits a 255 ⟨1, 0, 0, 0, 0⟩) (fePowPminus2 a) (a.view ^ (Ladder.p - 2))

/-- The low limbs, up to each of them, times the factor leave 64 bits for the highest. -/
def LowLimbsFit (a : Fe25519) (n : ℕ) : Prop :=
  a.v0 * n < 2 ^ 64 ∧ (a.v0 + 2 ^ 51 * a.v1) * n < 2 ^ 115 ∧
    (a.v0 + 2 ^ 51 * a.v1 + 2 ^ 102 * a.v2) * n < 2 ^ 166 ∧
    (a.v0 + 2 ^ 51 * a.v1 + 2 ^ 102 * a.v2 + 2 ^ 153 * a.v3) * n < 2 ^ 217 ∧ a.val * n < 2 ^ 268

/-! ### Sums and differences -/

variable {a b : Fe25519} {n : ℕ}

theorem exact_feAdd (ha : Tight a) (hb : Tight b) : ExactOp (AddFits a b) (feAdd a b) (a.view + b.view) := by
  refine ⟨?_, tight_feNormalize _, view_feAdd ha hb⟩
  obtain ⟨a0, a1, a2, a3, a4⟩ := ha
  obtain ⟨b0, b1, b2, b3, b4⟩ := hb
  refine ⟨⟨?_, ?_, ?_, ?_, ?_⟩, normalizeFits_of_loose (by constructor <;> dsimp only <;> omega)⟩
  all_goals dsimp only; omega

theorem exact_feSub (ha : Tight a) (hb : Tight b) : ExactOp (SubFits a b) (feSub a b) (a.view - b.view) := by
  refine ⟨?_, tight_feNormalize _, view_feSub ha hb⟩
  obtain ⟨a0, a1, a2, a3, a4⟩ := ha
  obtain ⟨b0, b1, b2, b3, b4⟩ := hb
  refine ⟨⟨?_, ?_, ?_, ?_, ?_⟩, ⟨?_, ?_, ?_, ?_, ?_⟩,
    normalizeFits_of_loose (by constructor <;> dsimp only <;> omega)⟩
  all_goals dsimp only; omega

/-! ### Products -/

/-- **A product fits into 128 bits.** -/
theorem mulFits (ha : Tight a) (hb : Tight b) : MulFits a b := by
  obtain ⟨hcol, h0, h1, h2, h3, h4⟩ := feColumns_eq ha hb
  have hexact : feColumns a b = exactColumns a b := hcol
  rw [hexact] at h0 h1 h2 h3 h4
  rw [MulFits]
  generalize exactColumns a b = t at h0 h1 h2 h3 h4
  obtain ⟨v0, v1, v2, v3, v4⟩ := t
  dsimp only at h0 h1 h2 h3 h4
  simp only [CarryFits, Below, and_feMask, Nat.shiftRight_eq_div_pow]
  generalize hw1 : v1 + v0 / 2 ^ 51 = w1
  generalize hw2 : v2 + w1 / 2 ^ 51 = w2
  generalize hw3 : v3 + w2 / 2 ^ 51 = w3
  generalize hw4 : v4 + w3 / 2 ^ 51 = w4
  have hw1' : w1 < 2 ^ 110 := by omega
  have hw2' : w2 < 2 ^ 110 := by omega
  have hw3' : w3 < 2 ^ 110 := by omega
  have hw4' : w4 / 2 ^ 51 < 2 ^ 55 := by omega
  refine ⟨⟨?_, ?_, ?_, ?_, ?_⟩, ?_, ?_, normalizeFits_of_loose (by constructor <;> dsimp only <;> omega)⟩
  all_goals omega

theorem exact_feMul (ha : Tight a) (hb : Tight b) : ExactOp (MulFits a b) (feMul a b) (a.view * b.view) :=
  ⟨mulFits ha hb, tight_feNormalize _, view_feMul ha hb⟩

theorem exact_feSquare (ha : Tight a) : ExactOp (MulFits a a) (feSquare a) (a.view ^ 2) := by
  rw [sq]
  exact exact_feMul ha ha

/-- The number that the bits below one stand for. -/
def exponentBelow : ℕ → ℕ
  | 0 => 0
  | bit + 1 => exponentBelow bit + if bitAt pminus2 bit then 2 ^ bit else 0

/-- **The loop is a power**, of what it started with and of the base. -/
theorem exact_fePowLoop (ha : Tight a) (bits : ℕ) {r : Fe25519} (hr : Tight r) :
    ExactOp (PowFits a bits r) (fePowLoop a bits r) (r.view ^ 2 ^ bits * a.view ^ exponentBelow bits) := by
  induction bits generalizing r with
  | zero => exact ⟨trivial, hr, by simp [fePowLoop, exponentBelow]⟩
  | succ bits ih =>
    have hsquare : Tight (feSquare r) := tight_feNormalize _
    have hnext : Tight (if bitAt pminus2 bits then feMul (feSquare r) a else feSquare r) := by
      split <;> exact tight_feNormalize _
    obtain ⟨hfits, htight, hview⟩ := ih hnext
    refine ⟨⟨mulFits hr hr, mulFits hsquare ha, hfits⟩, htight, hview.trans ?_⟩
    have hpow : r.view ^ 2 ^ (bits + 1) = (r.view ^ 2) ^ 2 ^ bits := by
      rw [← pow_mul, pow_succ 2 bits, Nat.mul_comm]
    rw [exponentBelow, hpow, ← (exact_feSquare hr).view]
    split_ifs
    · rw [view_feMul hsquare ha, mul_pow, pow_add]
      ring
    · rw [add_zero]

theorem exact_fePowPminus2 (ha : Tight a) :
    ExactOp (PowFits a 255 ⟨1, 0, 0, 0, 0⟩) (fePowPminus2 a) (a.view ^ (Ladder.p - 2)) := by
  have hone : (⟨1, 0, 0, 0, 0⟩ : Fe25519).view = 1 := Nat.cast_one
  have hexp : exponentBelow 255 = Ladder.p - 2 := by decide +kernel
  have h := exact_fePowLoop ha 255 (r := ⟨1, 0, 0, 0, 0⟩) (by constructor <;> norm_num)
  rwa [hone, one_pow, one_mul, hexp] at h

/-! ### The multiple -/

theorem mulSmallFits_iff : MulSmallFits a n ↔ LowLimbsFit a n := by
  simp only [MulSmallFits, LowLimbsFit, Below, NormalizeFits, Fe25519.val, and_feMask, Nat.shiftRight_eq_div_pow,
    Nat.add_mul, Nat.mul_assoc]
  generalize a.v0 * n = x0
  generalize a.v1 * n = x1
  generalize a.v2 * n = x2
  generalize a.v3 * n = x3
  generalize a.v4 * n = x4
  omega

theorem exact_feMulSmall (h : LowLimbsFit a n) : ExactOp (MulSmallFits a n) (feMulSmall a n) (a.view * n) := by
  have hfits := mulSmallFits_iff.2 h
  refine ⟨hfits, tight_feNormalize _, ?_⟩
  obtain ⟨⟨h0, h1, h2, h3, h4⟩, hnorm⟩ := hfits
  rw [feMulSmall, u64_of_lt h0, u64_of_lt h1, u64_of_lt h2, u64_of_lt h3, u64_of_lt h4,
    view_feNormalize_of_fits hnorm]
  simp only [Fe25519.view, Fe25519.val]
  push_cast
  ring

/-- **The operations are exact when the multiple fits**, on limbs as the operations leave them. -/
theorem fieldLaw_iff (ha : Tight a) (hb : Tight b) : FieldLaw a b n ↔ LowLimbsFit a n := by
  refine ⟨fun h => mulSmallFits_iff.1 h.mulSmall.fits, fun h => ?_⟩
  exact ⟨exact_feAdd ha hb, exact_feSub ha hb, exact_feMul ha hb, exact_feSquare ha, exact_feMulSmall h,
    exact_fePowPminus2 ha⟩

theorem fieldLaw_iff_nine :
    FieldLaw ⟨9, 0, 0, 0, 0⟩ ⟨2 ^ 51 - 1, 2 ^ 51, 0, 0, 0⟩ 121666 ↔ LowLimbsFit ⟨9, 0, 0, 0, 0⟩ 121666 :=
  fieldLaw_iff (by constructor <;> norm_num) (by constructor <;> norm_num)

/-- Limbs of 51 bits times the factor of the ladder do not fit into 64 bits, and what is left is wrong. -/
theorem not_fieldLaw : ¬ ∀ a b : Fe25519, Tight a → Tight b → FieldLaw a b 121666 := by
  intro h
  have hlaw := h ⟨2 ^ 51 - 1, 0, 0, 0, 0⟩ ⟨0, 0, 0, 0, 0⟩ (by constructor <;> norm_num) (by constructor <;> norm_num)
  have hview := hlaw.mulSmall.view
  rw [Fe25519.view, Fe25519.view, ← Nat.cast_mul, ZMod.natCast_eq_natCast_iff'] at hview
  revert hview
  decide +kernel

end Tnu.Tls
