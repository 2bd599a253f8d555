/-
**The key agreement of the TLS library.**

`tnu_x25519` of `userspace/libc/src/tls.c` runs a Montgomery ladder over limbs of 51 bits.  The factor of a
doubling is wrong twice: the constant `121666` belongs to the other square, and `fe_mul_small` multiplies
limbs of 51 bits by it in 64 bits.  Everything else is computed as it should be, so the result is right where
the factor does not matter: at the points of order one, two and four.

Main definitions:

* `tnuX25519` — the function;
* `Fe25519.val`, `Tight` — the number that limbs stand for, and limbs in range.

Main results:

* `val_feMul` — a product does not overflow;
* `view_x25519Step` — **a step is one of a ladder, with anything in the place of the factor**;
* `tnuX25519_eq` — the result is right at the points of order one, two and four.
-/

import Tnu.CString
import Tnu.Lib.Ladder
import Tnu.Lib.Words

set_option autoImplicit false

namespace Tnu.Tls

open Ladder (Regs)

/-! ### The field -/

def u64 (n : ℕ) : ℕ := n % 2 ^ 64

def u128 (n : ℕ) : ℕ := n % 2 ^ 128

def feMask : ℕ := 2 ^ 51 - 1

/-- `struct fe25519`; the limbs are of 64 bits. -/
@[ext] structure Fe25519 where
  v0 : ℕ
  v1 : ℕ
  v2 : ℕ
  v3 : ℕ
  v4 : ℕ
  deriving DecidableEq, Repr

/-- `load_le64_tls`. -/
def loadLe64 (p : List Byte) : ℕ :=
  (List.range 8).reverse.foldl (fun v i => u64 (v <<< 8) ||| (p.getD i 0).toNat) 0

def feNormalize (f : Fe25519) : Fe25519 :=
  let v1 := u64 (f.v1 + f.v0 >>> 51)
  let v0 := f.v0 &&& feMask
  let v2 := u64 (f.v2 + v1 >>> 51)
  let v1 := v1 &&& feMask
  let v3 := u64 (f.v3 + v2 >>> 51)
  let v2 := v2 &&& feMask
  let v4 := u64 (f.v4 + v3 >>> 51)
  let v3 := v3 &&& feMask
  let v0 := u64 (v0 + (v4 >>> 51) * 19)
  let v4 := v4 &&& feMask
  ⟨v0 &&& feMask, u64 (v1 + v0 >>> 51), v2, v3, v4⟩

def feFromBytes (input : List Byte) : Fe25519 where
  v0 := loadLe64 input &&& feMask
  v1 := loadLe64 (input.drop 6) >>> 3 &&& feMask
  v2 := loadLe64 (input.drop 12) >>> 6 &&& feMask
  v3 := loadLe64 (input.drop 19) >>> 1 &&& feMask
  v4 := loadLe64 (input.drop 24) >>> 12 &&& feMask

/-- One turn of the loop in `fe_to_bytes`: the difference of two limbs and the next borrow. -/
def feBorrow (t p borrow : ℕ) : ℕ × ℕ :=
  let sub := u64 (p + borrow)
  (u64 (t + (2 ^ 64 - sub)), if t < sub then 1 else 0)

/-- The loop in `fe_to_bytes`: the limbs less the prime, and the last borrow. -/
def feMinusP (f : Fe25519) : Fe25519 × ℕ :=
  let t0 := feBorrow f.v0 (2 ^ 51 - 19) 0
  let t1 := feBorrow f.v1 (2 ^ 51 - 1) t0.2
  let t2 := feBorrow f.v2 (2 ^ 51 - 1) t1.2
  let t3 := feBorrow f.v3 (2 ^ 51 - 1) t2.2
  let t4 := feBorrow f.v4 (2 ^ 51 - 1) t3.2
  (⟨t0.1, t1.1, t2.1, t3.1, t4.1⟩, t4.2)

def feToBytes (f : Fe25519) : List Byte :=
  let f := feNormalize f
  let t := feMinusP f
  let f := if t.2 = 0 then t.1 else f
  Bytes.le 8 (f.v0 ||| u64 (f.v1 <<< 51)) ++ Bytes.le 8 (f.v1 >>> 13 ||| u64 (f.v2 <<< 38)) ++
    Bytes.le 8 (f.v2 >>> 26 ||| u64 (f.v3 <<< 25)) ++ Bytes.le 8 (f.v3 >>> 39 ||| u64 (f.v4 <<< 12))

def feAdd (a b : Fe25519) : Fe25519 :=
  feNormalize ⟨u64 (a.v0 + b.v0), u64 (a.v1 + b.v1), u64 (a.v2 + b.v2), u64 (a.v3 + b.v3), u64 (a.v4 + b.v4)⟩

/-- A limb of `fe_sub`. -/
def feSubLimb (a twiceP b : ℕ) : ℕ := u64 (a + twiceP + (2 ^ 64 - b))

def feSub (a b : Fe25519) : Fe25519 :=
  feNormalize ⟨feSubLimb a.v0 (2 ^ 52 - 38) b.v0, feSubLimb a.v1 (2 ^ 52 - 2) b.v1,
    feSubLimb a.v2 (2 ^ 52 - 2) b.v2, feSubLimb a.v3 (2 ^ 52 - 2) b.v3, feSubLimb a.v4 (2 ^ 52 - 2) b.v4⟩

/-- The columns `t` of `fe_mul`. -/
def feColumns (a b : Fe25519) : Fe25519 where
  v0 := u128 (a.v0 * b.v0 + 19 * (a.v1 * b.v4 + a.v2 * b.v3 + a.v3 * b.v2 + a.v4 * b.v1))
  v1 := u128 (a.v0 * b.v1 + a.v1 * b.v0 + 19 * (a.v2 * b.v4 + a.v3 * b.v3 + a.v4 * b.v2))
  v2 := u128 (a.v0 * b.v2 + a.v1 * b.v1 + a.v2 * b.v0 + 19 * (a.v3 * b.v4 + a.v4 * b.v3))
  v3 := u128 (a.v0 * b.v3 + a.v1 * b.v2 + a.v2 * b.v1 + a.v3 * b.v0 + 19 * a.v4 * b.v4)
  v4 := u128 (a.v0 * b.v4 + a.v1 * b.v3 + a.v2 * b.v2 + a.v3 * b.v1 + a.v4 * b.v0)

/-- The carries of `fe_mul`. -/
def feCarry (t : Fe25519) : Fe25519 :=
  let t1 := u128 (t.v1 + t.v0 >>> 51)
  let t2 := u128 (t.v2 + t1 >>> 51)
  let t3 := u128 (t.v3 + t2 >>> 51)
  let t4 := u128 (t.v4 + t3 >>> 51)
  let c := u64 (t4 >>> 51)
  ⟨u64 ((t.v0 &&& feMask) + c * 19), t1 &&& feMask, t2 &&& feMask, t3 &&& feMask, t4 &&& feMask⟩

def feMul (a b : Fe25519) : Fe25519 := feNormalize (feCarry (feColumns a b))

def feSquare (a : Fe25519) : Fe25519 := feMul a a

def feMulSmall (a : Fe25519) (n : ℕ) : Fe25519 :=
  feNormalize ⟨u64 (a.v0 * n), u64 (a.v1 * n), u64 (a.v2 * n), u64 (a.v3 * n), u64 (a.v4 * n)⟩

/-- A limb of `fe_cswap`: what is left of the first and of the second. -/
def cswapLimb (mask a b : ℕ) : ℕ × ℕ := (a ^^^ (mask &&& (a ^^^ b)), b ^^^ (mask &&& (a ^^^ b)))

def feCswap (a b : Fe25519) (swap : Bool) : Fe25519 × Fe25519 :=
  let mask := u64 (2 ^ 64 - swap.toNat)
  (⟨(cswapLimb mask a.v0 b.v0).1, (cswapLimb mask a.v1 b.v1).1, (cswapLimb mask a.v2 b.v2).1,
    (cswapLimb mask a.v3 b.v3).1, (cswapLimb mask a.v4 b.v4).1⟩,
    ⟨(cswapLimb mask a.v0 b.v0).2, (cswapLimb mask a.v1 b.v1).2, (cswapLimb mask a.v2 b.v2).2,
    (cswapLimb mask a.v3 b.v3).2, (cswapLimb mask a.v4 b.v4).2⟩)

def bitAt (e : List Byte) (t : ℕ) : Bool := (e.getD (t / 8) 0).toNat >>> (t % 8) &&& 1 = 1

/-- The exponent of `fe_pow_pminus2`. -/
def pminus2 : List Byte := 0xeb :: (List.replicate 30 0xff ++ [0x7f])

/-- The loop of `fe_pow_pminus2`. -/
def fePowLoop (base : Fe25519) : ℕ → Fe25519 → Fe25519
  | 0, result => result
  | bit + 1, result =>
    let result := feSquare result
    fePowLoop base bit (if bitAt pminus2 bit then feMul result base else result)

def fePowPminus2 (z : Fe25519) : Fe25519 := fePowLoop z 255 ⟨1, 0, 0, 0, 0⟩

/-! ### The ladder -/

/-- One turn of the loop of `tnu_x25519`. -/
def x25519Step (x1 : Fe25519) (swap : Bool) (s : Regs Fe25519) : Regs Fe25519 :=
  let xs := feCswap s.x2 s.x3 swap
  let zs := feCswap s.z2 s.z3 swap
  let a := feAdd xs.1 zs.1
  let aa := feSquare a
  let b := feSub xs.1 zs.1
  let bb := feSquare b
  let e0 := feSub aa bb
  let c := feAdd xs.2 zs.2
  let d := feSub xs.2 zs.2
  let da := feMul d a
  let cb := feMul c b
  let t0 := feAdd da cb
  let x3 := feSquare t0
  let t1 := feSquare (feSub da cb)
  let z3 := feMul t1 x1
  let x2 := feMul aa bb
  let t0 := feAdd aa (feMulSmall e0 121666)
  ⟨x2, feMul e0 t0, x3, z3⟩

/-- The scalar of `tnu_x25519`. -/
def x25519Scalar (scalar : List Byte) : List Byte :=
  (((scalar.take 32).modify 0 (· &&& 248)).modify 31 (· &&& 127)).modify 31 (· ||| 64)

def tnuX25519 (scalar point : List Byte) : List Byte :=
  let x1 := feFromBytes point
  let r := Ladder.loop (bitAt (x25519Scalar scalar)) (x25519Step x1) 255 false
    ⟨⟨1, 0, 0, 0, 0⟩, ⟨0, 0, 0, 0, 0⟩, x1, ⟨1, 0, 0, 0, 0⟩⟩
  let x2 := (feCswap r.2.x2 r.2.x3 r.1).1
  let z2 := (feCswap r.2.z2 r.2.z3 r.1).1
  feToBytes (feMul x2 (fePowPminus2 z2))

/-! ### The arithmetic of limbs -/

theorem u64_of_lt {n : ℕ} (h : n < 2 ^ 64) : u64 n = n := Nat.mod_eq_of_lt h

theorem u128_of_lt {n : ℕ} (h : n < 2 ^ 128) : u128 n = n := Nat.mod_eq_of_lt h

theorem and_feMask (n : ℕ) : n &&& feMask = n % 2 ^ 51 := Nat.and_two_pow_sub_one_eq_mod n 51

def Fe25519.val (f : Fe25519) : ℕ :=
  f.v0 + 2 ^ 51 * f.v1 + 2 ^ 102 * f.v2 + 2 ^ 153 * f.v3 + 2 ^ 204 * f.v4

def Fe25519.view (f : Fe25519) : ZMod Ladder.p := f.val

/-- What `fe_normalize` leaves: the second limb may be one more than the others. -/
structure Tight (f : Fe25519) : Prop where
  v0 : f.v0 < 2 ^ 51
  v1 : f.v1 ≤ 2 ^ 51
  v2 : f.v2 < 2 ^ 51
  v3 : f.v3 < 2 ^ 51
  v4 : f.v4 < 2 ^ 51

/-- Limbs that `fe_normalize` can add its carries to. -/
structure Loose (f : Fe25519) : Prop where
  v0 : f.v0 < 2 ^ 63
  v1 : f.v1 < 2 ^ 63
  v2 : f.v2 < 2 ^ 63
  v3 : f.v3 < 2 ^ 63
  v4 : f.v4 < 2 ^ 63

theorem two_pow_255 : (2 : ZMod Ladder.p) ^ 255 = 19 := by
  have h : (2 : ℕ) ^ 255 = Ladder.p + 19 := by norm_num [Ladder.p]
  have hcast : (((2 : ℕ) ^ 255 : ℕ) : ZMod Ladder.p) = (Ladder.p + 19 : ℕ) := congrArg _ h
  rw [Nat.cast_add, ZMod.natCast_self, zero_add, Nat.cast_pow] at hcast
  exact hcast

theorem tight_feNormalize (f : Fe25519) : Tight (feNormalize f) := by
  have hlt (n : ℕ) : n &&& feMask < 2 ^ 51 := by
    rw [and_feMask]
    exact Nat.mod_lt _ (by norm_num)
  refine ⟨hlt _, ?_, hlt _, hlt _, hlt _⟩
  simp only [feNormalize]
  have h1 := hlt (u64 (f.v1 + f.v0 >>> 51))
  have h0 := hlt f.v0
  generalize u64 (f.v1 + f.v0 >>> 51) &&& feMask = v1 at h1 ⊢
  generalize f.v0 &&& feMask = v0 at h0 ⊢
  generalize hv4 : u64 (f.v4 + _) = v4
  have h4 : v4 < 2 ^ 64 := hv4 ▸ Nat.mod_lt _ (by norm_num)
  have hc : v4 >>> 51 < 2 ^ 13 := by
    rw [Nat.shiftRight_eq_div_pow]
    omega
  rw [u64_of_lt (n := v0 + v4 >>> 51 * 19) (by omega)]
  have hlow : (v0 + v4 >>> 51 * 19) >>> 51 ≤ 1 := by
    rw [Nat.shiftRight_eq_div_pow]
    omega
  rw [u64_of_lt (by omega)]
  omega

/-- The sums of `fe_normalize` are of 64 bits. -/
def NormalizeFits (f : Fe25519) : Prop :=
  let w1 := f.v1 + f.v0 >>> 51
  let w2 := f.v2 + w1 >>> 51
  let w3 := f.v3 + w2 >>> 51
  let w4 := f.v4 + w3 >>> 51
  let w0 := (f.v0 &&& feMask) + (w4 >>> 51) * 19
  w1 < 2 ^ 64 ∧ w2 < 2 ^ 64 ∧ w3 < 2 ^ 64 ∧ w4 < 2 ^ 64 ∧ w0 < 2 ^ 64 ∧ (w1 &&& feMask) + w0 >>> 51 < 2 ^ 64

variable {a b f : Fe25519}

theorem normalizeFits_of_loose (h : Loose f) : NormalizeFits f := by
  obtain ⟨h0, h1, h2, h3, h4⟩ := h
  simp only [NormalizeFits, and_feMask, Nat.shiftRight_eq_div_pow]
  omega

theorem view_feNormalize_of_fits (h : NormalizeFits f) : (feNormalize f).view = f.view := by
  obtain ⟨v0, v1, v2, v3, v4⟩ := f
  simp only [NormalizeFits, and_feMask, Nat.shiftRight_eq_div_pow] at h
  obtain ⟨h1, h2, h3, h4, h0, h1'⟩ := h
  have key : ∃ c, (⟨v0, v1, v2, v3, v4⟩ : Fe25519).val =
      (feNormalize ⟨v0, v1, v2, v3, v4⟩).val + (2 ^ 255 - 19) * c := by
    simp only [feNormalize, and_feMask, Nat.shiftRight_eq_div_pow, Fe25519.val]
    have e1 : u64 (v1 + v0 / 2 ^ 51) = v1 + v0 / 2 ^ 51 := u64_of_lt (by omega)
    rw [e1]
    generalize hw1 : v1 + v0 / 2 ^ 51 = w1
    have e2 : u64 (v2 + w1 / 2 ^ 51) = v2 + w1 / 2 ^ 51 := u64_of_lt (by omega)
    rw [e2]
    generalize hw2 : v2 + w1 / 2 ^ 51 = w2
    have e3 : u64 (v3 + w2 / 2 ^ 51) = v3 + w2 / 2 ^ 51 := u64_of_lt (by omega)
    rw [e3]
    generalize hw3 : v3 + w2 / 2 ^ 51 = w3
    have e4 : u64 (v4 + w3 / 2 ^ 51) = v4 + w3 / 2 ^ 51 := u64_of_lt (by omega)
    rw [e4]
    generalize hw4 : v4 + w3 / 2 ^ 51 = w4
    have e5 : u64 (v0 % 2 ^ 51 + w4 / 2 ^ 51 * 19) = v0 % 2 ^ 51 + w4 / 2 ^ 51 * 19 := u64_of_lt (by omega)
    rw [e5]
    generalize hw0 : v0 % 2 ^ 51 + w4 / 2 ^ 51 * 19 = w0
    have e6 : u64 (w1 % 2 ^ 51 + w0 / 2 ^ 51) = w1 % 2 ^ 51 + w0 / 2 ^ 51 := u64_of_lt (by omega)
    rw [e6]
    exact ⟨w4 / 2 ^ 51, by omega⟩
  obtain ⟨c, hc⟩ := key
  have hp : ((2 ^ 255 - 19 : ℕ) : ZMod Ladder.p) = 0 := ZMod.natCast_self Ladder.p
  rw [Fe25519.view, Fe25519.view, hc, Nat.cast_add, Nat.cast_mul, hp, zero_mul, add_zero]

theorem view_feNormalize (h : Loose f) : (feNormalize f).view = f.view :=
  view_feNormalize_of_fits (normalizeFits_of_loose h)

theorem loose_of_tight (h : Tight f) : Loose f := by
  obtain ⟨h0, h1, h2, h3, h4⟩ := h
  constructor <;> omega

theorem view_feAdd (ha : Tight a) (hb : Tight b) : (feAdd a b).view = a.view + b.view := by
  obtain ⟨a0, a1, a2, a3, a4⟩ := ha
  obtain ⟨b0, b1, b2, b3, b4⟩ := hb
  rw [feAdd, u64_of_lt (by omega), u64_of_lt (by omega), u64_of_lt (by omega), u64_of_lt (by omega),
    u64_of_lt (by omega), view_feNormalize (by constructor <;> dsimp only <;> omega)]
  simp only [Fe25519.view, Fe25519.val]
  push_cast
  ring

theorem feSubLimb_of_le {a q b : ℕ} (ha : a ≤ 2 ^ 51) (hq : q < 2 ^ 52) (hb : b ≤ q) :
    feSubLimb a q b = a + q - b := by
  rw [feSubLimb, u64]
  omega

theorem view_feSub (ha : Tight a) (hb : Tight b) : (feSub a b).view = a.view - b.view := by
  obtain ⟨a0, a1, a2, a3, a4⟩ := ha
  obtain ⟨b0, b1, b2, b3, b4⟩ := hb
  rw [feSub, feSubLimb_of_le (by omega) (by omega) (by omega), feSubLimb_of_le (by omega) (by omega) (by omega),
    feSubLimb_of_le (by omega) (by omega) (by omega), feSubLimb_of_le (by omega) (by omega) (by omega),
    feSubLimb_of_le (by omega) (by omega) (by omega),
    view_feNormalize (by constructor <;> dsimp only <;> omega)]
  simp only [Fe25519.view, Fe25519.val]
  rw [eq_sub_iff_add_eq, ← Nat.cast_add]
  have hp : ((2 ^ 255 - 19 : ℕ) : ZMod Ladder.p) = 0 := ZMod.natCast_self Ladder.p
  have hsum (x y : ℕ) (h : x = y + (2 ^ 255 - 19) * 2) : (x : ZMod Ladder.p) = y := by
    rw [h, Nat.cast_add, Nat.cast_mul, hp, zero_mul, add_zero]
  exact hsum _ _ (by omega)

theorem feColumns_eq (ha : Tight a) (hb : Tight b) :
    feColumns a b = ⟨a.v0 * b.v0 + 19 * (a.v1 * b.v4 + a.v2 * b.v3 + a.v3 * b.v2 + a.v4 * b.v1),
      a.v0 * b.v1 + a.v1 * b.v0 + 19 * (a.v2 * b.v4 + a.v3 * b.v3 + a.v4 * b.v2),
      a.v0 * b.v2 + a.v1 * b.v1 + a.v2 * b.v0 + 19 * (a.v3 * b.v4 + a.v4 * b.v3),
      a.v0 * b.v3 + a.v1 * b.v2 + a.v2 * b.v1 + a.v3 * b.v0 + 19 * a.v4 * b.v4,
      a.v0 * b.v4 + a.v1 * b.v3 + a.v2 * b.v2 + a.v3 * b.v1 + a.v4 * b.v0⟩ ∧
    (feColumns a b).v0 < 2 ^ 109 ∧ (feColumns a b).v1 < 2 ^ 109 ∧ (feColumns a b).v2 < 2 ^ 109 ∧
    (feColumns a b).v3 < 2 ^ 109 ∧ (feColumns a b).v4 < 2 ^ 105 := by
  obtain ⟨a0, a1, a2, a3, a4⟩ := ha
  obtain ⟨b0, b1, b2, b3, b4⟩ := hb
  have prod {x y : ℕ} (hx : x ≤ 2 ^ 51) (hy : y ≤ 2 ^ 51) : x * y ≤ 2 ^ 102 := by
    calc x * y ≤ 2 ^ 51 * 2 ^ 51 := Nat.mul_le_mul hx hy
      _ = 2 ^ 102 := by norm_num
  have p00 := prod a0.le b0.le
  have p01 := prod a0.le b1
  have p02 := prod a0.le b2.le
  have p03 := prod a0.le b3.le
  have p04 := prod a0.le b4.le
  have p10 := prod a1 b0.le
  have p11 := prod a1 b1
  have p12 := prod a1 b2.le
  have p13 := prod a1 b3.le
  have p14 := prod a1 b4.le
  have p20 := prod a2.le b0.le
  have p21 := prod a2.le b1
  have p22 := prod a2.le b2.le
  have p23 := prod a2.le b3.le
  have p24 := prod a2.le b4.le
  have p30 := prod a3.le b0.le
  have p31 := prod a3.le b1
  have p32 := prod a3.le b2.le
  have p33 := prod a3.le b3.le
  have p34 := prod a3.le b4.le
  have p40 := prod a4.le b0.le
  have p41 := prod a4.le b1
  have p42 := prod a4.le b2.le
  have p43 := prod a4.le b3.le
  have p44 := prod a4.le b4.le
  have hcol : feColumns a b = ⟨a.v0 * b.v0 + 19 * (a.v1 * b.v4 + a.v2 * b.v3 + a.v3 * b.v2 + a.v4 * b.v1),
      a.v0 * b.v1 + a.v1 * b.v0 + 19 * (a.v2 * b.v4 + a.v3 * b.v3 + a.v4 * b.v2),
      a.v0 * b.v2 + a.v1 * b.v1 + a.v2 * b.v0 + 19 * (a.v3 * b.v4 + a.v4 * b.v3),
      a.v0 * b.v3 + a.v1 * b.v2 + a.v2 * b.v1 + a.v3 * b.v0 + 19 * a.v4 * b.v4,
      a.v0 * b.v4 + a.v1 * b.v3 + a.v2 * b.v2 + a.v3 * b.v1 + a.v4 * b.v0⟩ := by
    rw [feColumns, u128_of_lt (by omega), u128_of_lt (by omega), u128_of_lt (by omega),
      u128_of_lt (by rw [mul_assoc]; omega), u128_of_lt (by omega)]
  rw [hcol]
  dsimp only
  rw [mul_assoc 19]
  refine ⟨rfl, ?_, ?_, ?_, ?_, ?_⟩ <;> omega

theorem view_feColumns (ha : Tight a) (hb : Tight b) :
    (feColumns a b).view = a.view * b.view := by
  rw [(feColumns_eq ha hb).1]
  simp only [Fe25519.view, Fe25519.val]
  push_cast
  linear_combination (-1 : ZMod Ladder.p) * ((a.v1 * b.v4 + a.v2 * b.v3 + a.v3 * b.v2 + a.v4 * b.v1) +
    2 ^ 51 * (a.v2 * b.v4 + a.v3 * b.v3 + a.v4 * b.v2) + 2 ^ 102 * (a.v3 * b.v4 + a.v4 * b.v3) +
    2 ^ 153 * (a.v4 * b.v4)) * two_pow_255

theorem feCarry_spec {t : Fe25519} (h0 : t.v0 < 2 ^ 109) (h1 : t.v1 < 2 ^ 109) (h2 : t.v2 < 2 ^ 109)
    (h3 : t.v3 < 2 ^ 109) (h4 : t.v4 < 2 ^ 105) : Loose (feCarry t) ∧ (feCarry t).view = t.view := by
  obtain ⟨v0, v1, v2, v3, v4⟩ := t
  dsimp only at h0 h1 h2 h3 h4
  have key : Loose (feCarry ⟨v0, v1, v2, v3, v4⟩) ∧ ∃ c, (⟨v0, v1, v2, v3, v4⟩ : Fe25519).val =
      (feCarry ⟨v0, v1, v2, v3, v4⟩).val + (2 ^ 255 - 19) * c := by
    simp only [feCarry, and_feMask, Nat.shiftRight_eq_div_pow, Fe25519.val]
    have e1 : u128 (v1 + v0 / 2 ^ 51) = v1 + v0 / 2 ^ 51 := u128_of_lt (by omega)
    rw [e1]
    generalize hw1 : v1 + v0 / 2 ^ 51 = w1
    have e2 : u128 (v2 + w1 / 2 ^ 51) = v2 + w1 / 2 ^ 51 := u128_of_lt (by omega)
    rw [e2]
    generalize hw2 : v2 + w1 / 2 ^ 51 = w2
    have e3 : u128 (v3 + w2 / 2 ^ 51) = v3 + w2 / 2 ^ 51 := u128_of_lt (by omega)
    rw [e3]
    generalize hw3 : v3 + w2 / 2 ^ 51 = w3
    have e4 : u128 (v4 + w3 / 2 ^ 51) = v4 + w3 / 2 ^ 51 := u128_of_lt (by omega)
    rw [e4]
    generalize hw4 : v4 + w3 / 2 ^ 51 = w4
    have hw1' : w1 < 2 ^ 110 := by omega
    have hw2' : w2 < 2 ^ 110 := by omega
    have hw3' : w3 < 2 ^ 110 := by omega
    have hw4' : w4 / 2 ^ 51 < 2 ^ 55 := by omega
    have e5 : u64 (w4 / 2 ^ 51) = w4 / 2 ^ 51 := u64_of_lt (by omega)
    rw [e5]
    have e6 : u64 (v0 % 2 ^ 51 + w4 / 2 ^ 51 * 19) = v0 % 2 ^ 51 + w4 / 2 ^ 51 * 19 := u64_of_lt (by omega)
    rw [e6]
    exact ⟨by constructor <;> dsimp only <;> omega, w4 / 2 ^ 51, by omega⟩
  obtain ⟨hloose, c, hc⟩ := key
  refine ⟨hloose, ?_⟩
  have hp : ((2 ^ 255 - 19 : ℕ) : ZMod Ladder.p) = 0 := ZMod.natCast_self Ladder.p
  rw [Fe25519.view, Fe25519.view, hc, Nat.cast_add, Nat.cast_mul, hp, zero_mul, add_zero]

/-- **A product.** -/
theorem view_feMul (ha : Tight a) (hb : Tight b) : (feMul a b).view = a.view * b.view := by
  obtain ⟨-, h0, h1, h2, h3, h4⟩ := feColumns_eq ha hb
  obtain ⟨hloose, hview⟩ := feCarry_spec h0 h1 h2 h3 h4
  rw [feMul, view_feNormalize hloose, hview, view_feColumns ha hb]

/-! ### A step of the ladder -/

theorem cswapLimb_eq {a b : ℕ} (ha : a < 2 ^ 64) (hb : b < 2 ^ 64) (swap : Bool) :
    cswapLimb (u64 (2 ^ 64 - swap.toNat)) a b = if swap then (b, a) else (a, b) := by
  cases swap
  · have hmask : u64 (2 ^ 64 - false.toNat) = 0 := rfl
    rw [hmask, cswapLimb, Nat.zero_and, Nat.xor_zero, Nat.xor_zero]
    rfl
  · have hmask : u64 (2 ^ 64 - true.toNat) = 2 ^ 64 - 1 := rfl
    have hall : (2 ^ 64 - 1) &&& (a ^^^ b) = a ^^^ b := by
      rw [Nat.and_comm, Nat.and_two_pow_sub_one_eq_mod, Nat.mod_eq_of_lt (Nat.xor_lt_two_pow ha hb)]
    have hcancel (x y : ℕ) : x ^^^ (x ^^^ y) = y := by
      rw [← Nat.xor_assoc, Nat.xor_self, Nat.zero_xor]
    rw [hmask, cswapLimb, hall, hcancel, Nat.xor_comm a b, hcancel]
    rfl

theorem feCswap_eq (ha : Tight a) (hb : Tight b) (swap : Bool) :
    feCswap a b swap = if swap then (b, a) else (a, b) := by
  obtain ⟨a0, a1, a2, a3, a4⟩ := ha
  obtain ⟨b0, b1, b2, b3, b4⟩ := hb
  rw [feCswap, cswapLimb_eq (by omega) (by omega), cswapLimb_eq (by omega) (by omega),
    cswapLimb_eq (by omega) (by omega), cswapLimb_eq (by omega) (by omega), cswapLimb_eq (by omega) (by omega)]
  cases swap <;> rfl

/-- The registers of the ladder, all in range. -/
structure TightRegs (s : Regs Fe25519) : Prop where
  x2 : Tight s.x2
  z2 : Tight s.z2
  x3 : Tight s.x3
  z3 : Tight s.z3

def viewRegs (s : Regs Fe25519) : Regs (ZMod Ladder.p) := ⟨s.x2.view, s.z2.view, s.x3.view, s.z3.view⟩

/-- **A step is one of a ladder, with anything in the place of the factor.** -/
theorem view_x25519Step {x1 : Fe25519} (h1 : Tight x1) (swap : Bool) {s : Regs Fe25519} (h : TightRegs s) :
    TightRegs (x25519Step x1 swap s) ∧
      ∃ w, viewRegs (x25519Step x1 swap s) = ((viewRegs s).swapIf swap).step x1.view w := by
  obtain ⟨x2, z2, x3, z3⟩ := s
  obtain ⟨hx2, hz2, hx3, hz3⟩ := h
  dsimp only at hx2 hz2 hx3 hz3
  refine ⟨⟨tight_feNormalize _, tight_feNormalize _, tight_feNormalize _, tight_feNormalize _⟩, ?_⟩
  have tadd (a b : Fe25519) : Tight (feAdd a b) := tight_feNormalize _
  have tsub (a b : Fe25519) : Tight (feSub a b) := tight_feNormalize _
  have tmul (a b : Fe25519) : Tight (feMul a b) := tight_feNormalize _
  have tsmall (a : Fe25519) (n : ℕ) : Tight (feMulSmall a n) := tight_feNormalize _
  -- after the exchange the step does not ask which of the points is which
  have hstep {x2 z2 x3 z3 : Fe25519} (hx2 : Tight x2) (hz2 : Tight z2) (hx3 : Tight x3) (hz3 : Tight z3) :
      ∃ w, viewRegs (x25519Step x1 false ⟨x2, z2, x3, z3⟩) =
        (viewRegs ⟨x2, z2, x3, z3⟩).step x1.view w := by
    have ex : feCswap x2 x3 false = (x2, x3) := feCswap_eq hx2 hx3 false
    have ez : feCswap z2 z3 false = (z2, z3) := feCswap_eq hz2 hz3 false
    simp only [x25519Step, ex, ez, feSquare, viewRegs]
    refine ⟨(feAdd (feMul (feAdd x2 z2) (feAdd x2 z2)) (feMulSmall (feSub (feMul (feAdd x2 z2) (feAdd x2 z2))
      (feMul (feSub x2 z2) (feSub x2 z2))) 121666)).view, ?_⟩
    refine Regs.ext ?_ ?_ ?_ ?_ <;>
      simp only [Regs.step, view_feMul, view_feAdd, view_feSub, hx2, hz2, hx3, hz3, h1, tadd, tsub, tmul,
        tsmall] <;> ring
  cases swap
  · exact hstep hx2 hz2 hx3 hz3
  · have hswap : x25519Step x1 true ⟨x2, z2, x3, z3⟩ = x25519Step x1 false ⟨x3, z3, x2, z2⟩ := by
      have ex : feCswap x2 x3 true = feCswap x3 x2 false := by
        rw [feCswap_eq hx2 hx3, feCswap_eq hx3 hx2]
        rfl
      have ez : feCswap z2 z3 true = feCswap z3 z2 false := by
        rw [feCswap_eq hz2 hz3, feCswap_eq hz3 hz2]
        rfl
      simp only [x25519Step, ex, ez]
    rw [hswap]
    exact hstep hx3 hz3 hx2 hz2

/-! ### Bytes and limbs -/

theorem loadLe64_step {v n : ℕ} (hv : v < 256 ^ n) (hn : n < 8) (b : Byte) :
    u64 (v <<< 8) ||| b.toNat = 2 ^ 8 * v + b.toNat ∧ 2 ^ 8 * v + b.toNat < 256 ^ (n + 1) := by
  have hb : b.toNat < 2 ^ 8 := b.toNat_lt
  have hlt : 2 ^ 8 * v + b.toNat < 256 ^ (n + 1) := by
    rw [pow_succ]
    omega
  have hword : 256 ^ (n + 1) ≤ 256 ^ 8 := Nat.pow_le_pow_right (by norm_num) hn
  refine ⟨?_, hlt⟩
  rw [Nat.shiftLeft_eq, Nat.mul_comm v, u64_of_lt (by omega), Bytes.or_low 8 hb]

theorem loadLe64_eq (l : List Byte) : loadLe64 l = Bytes.ofLe l % 2 ^ 64 := by
  have hloop (n : ℕ) {v : ℕ} (hn : n ≤ 8) (hv : v < 256 ^ (8 - n)) :
      (List.range n).reverse.foldl (fun v i => u64 (v <<< 8) ||| (l.getD i 0).toNat) v =
        256 ^ n * v + Bytes.ofLe (l.take n) := by
    induction n generalizing v with
    | zero => simp [Bytes.ofLe]
    | succ n ih =>
      obtain ⟨hstep, hlt⟩ := loadLe64_step hv (by omega) (l.getD n 0)
      have hlast : Bytes.ofLe ((l.drop n).take 1) = (l.getD n 0).toNat := by
        rw [List.getD_eq_getElem?_getD, ← List.head?_drop]
        cases l.drop n <;> rfl
      rw [show 8 - (n + 1) + 1 = 8 - n by omega] at hlt
      rw [List.range_succ, List.reverse_append, List.reverse_singleton, List.singleton_append,
        List.foldl_cons, hstep, ih (by omega) hlt, Bytes.ofLe_take_add, hlast, pow_succ]
      ring
  rw [loadLe64, hloop 8 le_rfl (by norm_num), mul_zero, zero_add, Bytes.ofLe_take]
  norm_num

/-- **The limbs of a coordinate**, whose highest bit is left out. -/
theorem feFromBytes_spec (point : List Byte) :
    Tight (feFromBytes point) ∧ (feFromBytes point).val = Bytes.ofLe (point.take 32) % 2 ^ 255 := by
  have hlt (n : ℕ) : n % 2 ^ 51 < 2 ^ 51 := Nat.mod_lt _ (by norm_num)
  simp only [feFromBytes, loadLe64_eq, Bytes.ofLe_drop, and_feMask, Nat.shiftRight_eq_div_pow]
  refine ⟨⟨hlt _, (hlt _).le, hlt _, hlt _, hlt _⟩, ?_⟩
  rw [Bytes.ofLe_take]
  generalize Bytes.ofLe point = n
  simp only [Fe25519.val]
  have d0 : n % 2 ^ 64 % 2 ^ 51 = n % 2 ^ 51 := by omega
  have d1 : n / 256 ^ 6 % 2 ^ 64 / 2 ^ 3 % 2 ^ 51 = n / 2 ^ 51 % 2 ^ 51 := by omega
  have d2 : n / 256 ^ 12 % 2 ^ 64 / 2 ^ 6 % 2 ^ 51 = n / 2 ^ 102 % 2 ^ 51 := by omega
  have d3 : n / 256 ^ 19 % 2 ^ 64 / 2 ^ 1 % 2 ^ 51 = n / 2 ^ 153 % 2 ^ 51 := by omega
  have d4 : n / 256 ^ 24 % 2 ^ 64 / 2 ^ 12 % 2 ^ 51 = n / 2 ^ 204 % 2 ^ 51 := by omega
  rw [d0, d1, d2, d3, d4]
  omega

theorem bitAt_low (scalar : List Byte) {t : ℕ} (ht : t < 3) : bitAt (x25519Scalar scalar) t = false := by
  have hbyte : (x25519Scalar scalar).getD 0 0 = 0 ∨ ∃ b : Byte, (x25519Scalar scalar).getD 0 0 = b &&& 248 := by
    rw [x25519Scalar]
    cases scalar.take 32 with
    | nil => exact .inl rfl
    | cons b l => exact .inr ⟨b, rfl⟩
  have hmod : ((x25519Scalar scalar).getD 0 0).toNat % 8 = 0 := by
    rcases hbyte with h | ⟨b, h⟩ <;> rw [h]
    · rfl
    · exact Ladder.and_248 b
  rw [bitAt, decide_eq_false_iff_not, Nat.div_eq_of_lt (by omega), Nat.mod_eq_of_lt (by omega),
    Nat.shiftRight_eq_div_pow, Nat.and_one_is_mod]
  interval_cases t <;> omega

/-! ### The end of the ladder -/

theorem view_fePowPminus2 {z : Fe25519} (hz : Tight z) (h0 : z.view = 0) :
    Tight (fePowPminus2 z) ∧ (fePowPminus2 z).view = 0 := by
  have hloop (n : ℕ) {r : Fe25519} (hr : Tight r) :
      Tight (fePowLoop z (n + 1) r) ∧ (fePowLoop z (n + 1) r).view = 0 := by
    induction n generalizing r with
    | zero =>
      have hbit : bitAt pminus2 0 = true := rfl
      simp only [fePowLoop, hbit, if_true]
      refine ⟨tight_feNormalize _, ?_⟩
      have hsquare : Tight (feSquare r) := tight_feNormalize _
      rw [view_feMul hsquare hz, h0, mul_zero]
    | succ n ih =>
      rw [fePowLoop]
      apply ih
      split <;> exact tight_feNormalize _
  exact hloop 254 ⟨by norm_num, by norm_num, by norm_num, by norm_num, by norm_num⟩

/-- **Nought has one encoding**: limbs that stand for it are nought or those of the prime. -/
theorem feToBytes_zero (hf : Loose f) (h0 : f.view = 0) : feToBytes f = List.replicate 32 0 := by
  have htight := tight_feNormalize f
  have hview := view_feNormalize hf
  rw [h0] at hview
  have hdvd := (ZMod.natCast_eq_zero_iff _ _).1 hview
  simp only [feToBytes]
  generalize feNormalize f = g at htight hdvd
  obtain ⟨v0, v1, v2, v3, v4⟩ := g
  obtain ⟨h0, h1, h2, h3, h4⟩ := htight
  dsimp only at h0 h1 h2 h3 h4
  obtain ⟨k, hk⟩ := hdvd
  simp only [Fe25519.val, Ladder.p] at hk
  have hk2 : k < 2 := by omega
  interval_cases k
  · obtain rfl : v0 = 0 := by omega
    obtain rfl : v1 = 0 := by omega
    obtain rfl : v2 = 0 := by omega
    obtain rfl : v3 = 0 := by omega
    obtain rfl : v4 = 0 := by omega
    rfl
  · obtain rfl : v0 = 2 ^ 51 - 19 := by omega
    obtain rfl : v1 = 2 ^ 51 - 1 := by omega
    obtain rfl : v2 = 2 ^ 51 - 1 := by omega
    obtain rfl : v3 = 2 ^ 51 - 1 := by omega
    obtain rfl : v4 = 2 ^ 51 - 1 := by omega
    rfl

theorem flat_of_mem {u : ℕ} (h : u ∈ [0, 1, Ladder.p - 1]) : Ladder.Flat (u : ZMod Ladder.p) 1 := by
  simp only [List.mem_cons, List.not_mem_nil, or_false] at h
  rcases h with rfl | rfl | rfl
  · exact .inl Nat.cast_zero
  · exact .inr (.inr (.inl Nat.cast_one))
  · refine .inr (.inr (.inr ?_))
    have hle : 1 ≤ Ladder.p := by decide
    rw [Nat.cast_sub hle, ZMod.natCast_self, Nat.cast_one, zero_sub]

/-- **The function at the points of order one, two and four**: there the factor does not matter. -/
theorem tnuX25519_eq (scalar : List Byte) {point : List Byte}
    (h : Ladder.decodeCoordinate point ∈ [0, 1, Ladder.p - 1]) :
    tnuX25519 scalar point = Ladder.x25519 scalar point := by
  obtain ⟨htight, hval⟩ := feFromBytes_spec point
  have hview : (feFromBytes point).view = (Ladder.decodeCoordinate point : ℕ) := by
    rw [Fe25519.view, hval, Ladder.decodeCoordinate, ZMod.natCast_mod]
  have hflat := flat_of_mem h
  have hone : (⟨1, 0, 0, 0, 0⟩ : Fe25519).view = 1 := Nat.cast_one
  have hnought : (⟨0, 0, 0, 0, 0⟩ : Fe25519).view = 0 := Nat.cast_zero
  have tone : Tight ⟨1, 0, 0, 0, 0⟩ := by constructor <;> norm_num
  have tnought : Tight ⟨0, 0, 0, 0, 0⟩ := by constructor <;> norm_num
  have hbits {t : ℕ} (ht : t < 3) : bitAt (x25519Scalar scalar) t = false := bitAt_low scalar ht
  obtain ⟨hswap, hgood, hz⟩ := Ladder.loop_z2
    (fun swap s hs => view_x25519Step htight swap hs) (hbits (by norm_num))
    (hbits (by norm_num)) (hbits (by norm_num)) (hview ▸ hflat)
    (a := ⟨⟨1, 0, 0, 0, 0⟩, ⟨0, 0, 0, 0, 0⟩, feFromBytes point, ⟨1, 0, 0, 0, 0⟩⟩) ⟨tone, tnought, htight, tone⟩
    (.inr (.inl hnought)) (by simpa only [viewRegs, hview, hone] using hflat) 252 false
  rw [Ladder.x25519_flat scalar hflat, tnuX25519]
  have hcx := feCswap_eq hgood.x2 hgood.x3 false
  have hcz := feCswap_eq hgood.z2 hgood.z3 false
  obtain ⟨hinv, hinv0⟩ := view_fePowPminus2 hgood.z2 hz
  simp only [hswap, hcx, hcz]
  refine feToBytes_zero (loose_of_tight (tight_feNormalize _)) ?_
  exact (view_feMul hgood.x2 hinv).trans (by rw [hinv0, mul_zero])

/-- Another encoding of nought. -/
theorem tnuX25519_eq_p :
    tnuX25519 (List.replicate 32 1) (0xed :: (List.replicate 30 0xff ++ [0x7f])) =
      Ladder.x25519 (List.replicate 32 1) (0xed :: (List.replicate 30 0xff ++ [0x7f])) :=
  tnuX25519_eq _ (by decide +kernel)

/-! ### The self test -/

/-- `x25519_scalar`. -/
def x25519SelfScalar : List Byte :=
  [0x77, 0x07, 0x6d, 0x0a, 0x73, 0x18, 0xa5, 0x7d, 0x3c, 0x16, 0xc1, 0x72, 0x51, 0xb2, 0x66, 0x45,
    0xdf, 0x4c, 0x2f, 0x87, 0xeb, 0xc0, 0x99, 0x2a, 0xb1, 0x77, 0xfb, 0xa5, 0x1d, 0xb9, 0x2c, 0x2a]

/-- `x25519_point`. -/
def x25519SelfPoint : List Byte := 9 :: List.replicate 31 0

def x25519Expected : List Byte :=
  [0x85, 0x20, 0xf0, 0x09, 0x89, 0x30, 0xa7, 0x54, 0x74, 0x8b, 0x7d, 0xdc, 0xb4, 0x3e, 0xf7, 0x5a,
    0x0d, 0xbf, 0x3a, 0x0d, 0x26, 0x38, 0x1a, 0xf4, 0xeb, 0xa4, 0xa9, 0x8e, 0xaa, 0x9b, 0x4e, 0x6a]

theorem x25519_self : Ladder.x25519 x25519SelfScalar x25519SelfPoint = x25519Expected := by
  rw [Ladder.x25519]
  simp only [Ladder.quotient_eq]
  decide +kernel

/-- **The function is not that of the standard**: the library fails its own self test. -/
theorem not_tnuX25519_standard :
    ¬ ∀ scalar point : List Byte, scalar.length = 32 → point.length = 32 →
      tnuX25519 scalar point = Ladder.x25519 scalar point := by
  intro h
  have heq := h x25519SelfScalar x25519SelfPoint rfl (by simp [x25519SelfPoint])
  rw [x25519_self] at heq
  have hne : tnuX25519 x25519SelfScalar x25519SelfPoint ≠ x25519Expected := by decide +kernel
  exact hne heq

end Tnu.Tls
