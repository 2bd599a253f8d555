/-
**The ladder of X25519.**

A Montgomery ladder keeps two points by their first coordinates, each as a fraction, and takes one step for
each bit of a scalar.  The coefficient of the curve enters a step in one place only.  So what holds of a
ladder whatever stands in that place holds of every ladder, also of one that is computed with a wrong
coefficient: the points of order one, two and four stay such points, and three doublings at the end leave
nothing of them.

Main definitions:

* `Ladder.Flat` — the fractions of the points of order one, two and four.

Main results:

* `Ladder.Run.z2_eq_zero` — **a run that ends with doublings takes them to infinity**;
* `Ladder.x25519_flat` — the function at such points.
-/

import Mathlib.Data.ZMod.Basic
import Mathlib.Tactic.LinearCombination
import Mathlib.Tactic.Ring
import Tnu.Lib.Bytes

set_option autoImplicit false

namespace Ladder

/-! ### Steps over a ring -/

/-- The coordinates of two points. -/
@[ext] structure Regs (R : Type*) where
  x2 : R
  z2 : R
  x3 : R
  z3 : R

section Ring

variable {R : Type*}

def Regs.swapIf (swap : Bool) (s : Regs R) : Regs R := if swap then ⟨s.x3, s.z3, s.x2, s.z2⟩ else s

variable [CommRing R]

/-- A step: the first point is doubled, the second one becomes their sum.  The factor `w` stands where the
coefficient of the curve enters. -/
def Regs.step (x1 w : R) (s : Regs R) : Regs R :=
  let a := s.x2 + s.z2
  let b := s.x2 - s.z2
  let e := a ^ 2 - b ^ 2
  let da := (s.x3 - s.z3) * a
  let cb := (s.x3 + s.z3) * b
  ⟨a ^ 2 * b ^ 2, e * w, (da + cb) ^ 2, (da - cb) ^ 2 * x1⟩

/-- What a run can leave that exchanges the points by these flags before its steps. -/
inductive Run (x1 : R) (s : Regs R) : List Bool → Regs R → Prop
  | nil : Run x1 s [] s
  | snoc {flags : List Bool} {t : Regs R} (h : Run x1 s flags t) (swap : Bool) (w : R) :
      Run x1 s (flags ++ [swap]) ((t.swapIf swap).step x1 w)

def Flat (x z : R) : Prop := x = 0 ∨ z = 0 ∨ x = z ∨ x = -z

variable {x1 w : R} {s t : Regs R}

theorem step_double (h : Flat s.x2 s.z2) : (s.step x1 w).x2 = 0 ∨ (s.step x1 w).z2 = 0 := by
  obtain ⟨x2, z2, x3, z3⟩ := s
  simp only [Regs.step]
  rcases h with h | h | h | h <;> simp only at h <;> subst h
  · right; ring
  · right; ring
  · left; ring
  · left; ring

theorem step_z2 (h : s.x2 = 0 ∨ s.z2 = 0) : (s.step x1 w).z2 = 0 := by
  obtain ⟨x2, z2, x3, z3⟩ := s
  simp only [Regs.step]
  rcases h with h | h <;> simp only at h <;> subst h <;> ring

theorem flat_products {x z x' z' : R} (h : Flat x z) (h' : Flat x' z') :
    Flat (x * x' - z * z') (x' * z - x * z') := by
  rcases h with h | h | h | h <;> rcases h' with h' | h' | h' | h' <;> subst h <;> subst h'
  all_goals first
    | exact .inl (by ring1)
    | exact .inr (.inl (by ring1))
    | exact .inr (.inr (.inl (by ring1)))
    | exact .inr (.inr (.inr (by ring1)))

/-- **A step keeps points of order one, two and four**, if their difference is one. -/
theorem flat_step (h1 : Flat x1 1) (h2 : Flat s.x2 s.z2) (h3 : Flat s.x3 s.z3) :
    Flat (s.step x1 w).x2 (s.step x1 w).z2 ∧ Flat (s.step x1 w).x3 (s.step x1 w).z3 := by
  refine ⟨(step_double h2).imp_right .inl, ?_⟩
  have hx : (s.step x1 w).x3 = 4 * (s.x2 * s.x3 - s.z2 * s.z3) ^ 2 := by
    simp only [Regs.step]
    ring
  have hz : (s.step x1 w).z3 = 4 * (s.x3 * s.z2 - s.x2 * s.z3) ^ 2 * x1 := by
    simp only [Regs.step]
    ring
  rw [hx, hz]
  rcases flat_products h2 h3 with h | h | h | h
  · exact .inl (by rw [h]; ring)
  · exact .inr (.inl (by rw [h]; ring))
  all_goals
    rw [h]
    rcases h1 with h1 | h1 | h1 | h1
    · exact .inr (.inl (by rw [h1]; ring))
    · exact .inr (.inl (by linear_combination 4 * (s.x3 * s.z2 - s.x2 * s.z3) ^ 2 * x1 * h1))
    · exact .inr (.inr (.inl (by rw [h1]; ring)))
    · exact .inr (.inr (.inr (by rw [h1]; ring)))

theorem flat_swapIf {swap : Bool} (h2 : Flat s.x2 s.z2) (h3 : Flat s.x3 s.z3) :
    Flat (s.swapIf swap).x2 (s.swapIf swap).z2 ∧ Flat (s.swapIf swap).x3 (s.swapIf swap).z3 := by
  cases swap
  · exact ⟨h2, h3⟩
  · exact ⟨h3, h2⟩

theorem Run.flat {flags : List Bool} (h : Run x1 s flags t) (h1 : Flat x1 1) (h2 : Flat s.x2 s.z2)
    (h3 : Flat s.x3 s.z3) : Flat t.x2 t.z2 ∧ Flat t.x3 t.z3 := by
  induction h with
  | nil => exact ⟨h2, h3⟩
  | snoc _ swap w ih => exact flat_step h1 (flat_swapIf ih.1 ih.2).1 (flat_swapIf ih.1 ih.2).2

/-- **A run that ends with two doublings without exchanges behind a step takes them to infinity.** -/
theorem Run.z2_eq_zero {flags : List Bool} {swap : Bool}
    (h : Run x1 s (flags ++ [swap] ++ [false] ++ [false]) t) (h1 : Flat x1 1) (h2 : Flat s.x2 s.z2)
    (h3 : Flat s.x3 s.z3) : t.z2 = 0 := by
  have hlast {fs : List Bool} {b : Bool} {t : Regs R} (h : Run x1 s (fs ++ [b]) t) :
      ∃ u w, Run x1 s fs u ∧ t = (u.swapIf b).step x1 w := by
    generalize hfs : fs ++ [b] = gs at h
    cases h with
    | nil => exact absurd hfs (by simp)
    | snoc h' b' w =>
      obtain ⟨rfl, hb⟩ := List.append_inj' hfs rfl
      obtain rfl := List.singleton_inj.1 hb
      exact ⟨_, w, h', rfl⟩
  obtain ⟨u, w, hu, rfl⟩ := hlast h
  obtain ⟨v, w', hv, rfl⟩ := hlast hu
  obtain ⟨y, w'', hy, rfl⟩ := hlast hv
  have hflat := hy.flat h1 h2 h3
  exact step_z2 (.inr (step_z2 (step_double (flat_swapIf hflat.1 hflat.2).1)))

/-! ### The loop over the bits of a scalar -/

/-- The loop over the bits, the highest first: the points are exchanged when the bit is not the one before
it.  The bit that was last is returned as well. -/
def loop {α : Type*} (bit : ℕ → Bool) (step : Bool → α → α) : ℕ → Bool → α → Bool × α
  | 0, swap, s => (swap, s)
  | t + 1, swap, s => loop bit step t (bit t) (step (swap ^^ bit t) s)

/-- **A loop whose step is one of a ladder ends at infinity**, when the last three bits are zero and the
points are of order one, two or four. -/
theorem loop_z2 {α : Type*} {bit : ℕ → Bool} {step : Bool → α → α} {view : α → Regs R} {Good : α → Prop}
    (hstep : ∀ swap a, Good a → Good (step swap a) ∧
      ∃ w, view (step swap a) = ((view a).swapIf swap).step x1 w)
    (h0 : bit 0 = false) (h1 : bit 1 = false) (h2 : bit 2 = false) (hx1 : Flat x1 1) {a : α}
    (ha : Good a) (hx2 : Flat (view a).x2 (view a).z2) (hx3 : Flat (view a).x3 (view a).z3) (n : ℕ)
    (swap : Bool) :
    (loop bit step (n + 3) swap a).1 = false ∧ Good (loop bit step (n + 3) swap a).2 ∧
      (view (loop bit step (n + 3) swap a).2).z2 = 0 := by
  have hrun (n : ℕ) {flags : List Bool} {swap : Bool} {b : α} (hb : Good b)
      (hr : Run x1 (view a) flags (view b)) :
      (loop bit step (n + 3) swap b).1 = false ∧ Good (loop bit step (n + 3) swap b).2 ∧
        ∃ fs f, Run x1 (view a) (fs ++ [f] ++ [false] ++ [false]) (view (loop bit step (n + 3) swap b).2) := by
    induction n generalizing flags swap b with
    | zero =>
      obtain ⟨g, w, hw⟩ := hstep (swap ^^ false) b hb
      obtain ⟨g', w', hw'⟩ := hstep false _ g
      obtain ⟨g'', w'', hw''⟩ := hstep false _ g'
      simp only [loop, h0, h1, h2, Bool.xor_false]
      refine ⟨trivial, by simpa using g'', flags, swap, ?_⟩
      have hend := ((hr.snoc (swap ^^ false) w).snoc false w').snoc false w''
      rw [← hw, ← hw', ← hw''] at hend
      simpa using hend
    | succ n ih =>
      obtain ⟨g, w, hw⟩ := hstep (swap ^^ bit (n + 3)) b hb
      have hnext := hr.snoc (swap ^^ bit (n + 3)) w
      rw [← hw] at hnext
      exact ih g hnext
  obtain ⟨hswap, hgood, fs, f, hend⟩ := @hrun n [] swap a ha .nil
  exact ⟨hswap, hgood, hend.z2_eq_zero hx1 hx2 hx3⟩

end Ring

/-! ### The function of RFC 7748 -/

def p : ℕ := 2 ^ 255 - 19

def fadd (a b : ℕ) : ℕ := (a + b) % p

def fsub (a b : ℕ) : ℕ := (a + (p - b % p)) % p

def fmul (a b : ℕ) : ℕ := a * b % p

/-- The constant of the curve, `(486662 - 2) / 4`. -/
def a24 : ℕ := 121665

def stepMod (x1 : ℕ) (s : Regs ℕ) : Regs ℕ :=
  let a := fadd s.x2 s.z2
  let aa := fmul a a
  let b := fsub s.x2 s.z2
  let bb := fmul b b
  let e := fsub aa bb
  let c := fadd s.x3 s.z3
  let d := fsub s.x3 s.z3
  let da := fmul d a
  let cb := fmul c b
  let sum := fadd da cb
  let diff := fsub da cb
  ⟨fmul aa bb, fmul e (fadd aa (fmul a24 e)), fmul sum sum, fmul x1 (fmul diff diff)⟩

/-- The scalar: its lowest three bits are cleared, and of its highest two one is cleared and one set. -/
def decodeScalar (k : List UInt8) : ℕ :=
  Bytes.ofLe (((k.take 32).modify 0 (· &&& 248)).modify 31 fun b => b &&& 127 ||| 64)

def decodeCoordinate (u : List UInt8) : ℕ := Bytes.ofLe (u.take 32) % 2 ^ 255 % p

def quotient (x z : ℕ) : ℕ := fmul x (z ^ (p - 2) % p)

/-- **The function of RFC 7748.** -/
def x25519 (scalar point : List UInt8) : List UInt8 :=
  let u := decodeCoordinate point
  let r := loop (decodeScalar scalar).testBit (fun swap s => stepMod u (s.swapIf swap)) 255 false
    ⟨1, 0, u, 1⟩
  let s := r.2.swapIf r.1
  Bytes.le 32 (quotient s.x2 s.z2)

def Regs.cast (s : Regs ℕ) : Regs (ZMod p) := ⟨s.x2, s.z2, s.x3, s.z3⟩

theorem cast_fadd (a b : ℕ) : (fadd a b : ZMod p) = a + b := by
  rw [fadd, ZMod.natCast_mod, Nat.cast_add]

theorem cast_fmul (a b : ℕ) : (fmul a b : ZMod p) = a * b := by
  rw [fmul, ZMod.natCast_mod, Nat.cast_mul]

theorem cast_fsub (a b : ℕ) : (fsub a b : ZMod p) = a - b := by
  have hle : b % p ≤ p := (Nat.mod_lt b (by decide)).le
  rw [fsub, ZMod.natCast_mod, Nat.cast_add, Nat.cast_sub hle, ZMod.natCast_mod, ZMod.natCast_self, zero_sub,
    sub_eq_add_neg]

theorem cast_stepMod (x1 : ℕ) (swap : Bool) (s : Regs ℕ) :
    ∃ w, (stepMod x1 (s.swapIf swap)).cast = (s.cast.swapIf swap).step (x1 : ZMod p) w := by
  have hswap : (s.swapIf swap).cast = s.cast.swapIf swap := by cases swap <;> rfl
  rw [← hswap]
  generalize s.swapIf swap = s
  refine ⟨(s.cast.x2 + s.cast.z2) ^ 2 + a24 * ((s.cast.x2 + s.cast.z2) ^ 2 - (s.cast.x2 - s.cast.z2) ^ 2), ?_⟩
  refine Regs.ext ?_ ?_ ?_ ?_ <;> simp only [stepMod, Regs.cast, Regs.step, cast_fadd, cast_fmul, cast_fsub] <;>
    ring

theorem testBit_low {n t : ℕ} (h : n % 8 = 0) (ht : t < 3) : n.testBit t = false := by
  rw [Nat.testBit_eq_decide_div_mod_eq, decide_eq_false_iff_not]
  interval_cases t <;> omega

theorem and_248 (b : UInt8) : (b &&& 248).toNat % 8 = 0 := by
  have hall : ∀ n < 256, (n &&& 248) % 8 = 0 := by decide +kernel
  rw [UInt8.toNat_and]
  exact hall _ b.toNat_lt

theorem decodeScalar_mod (k : List UInt8) : decodeScalar k % 8 = 0 := by
  rw [decodeScalar]
  cases k.take 32 with
  | nil => rfl
  | cons b l =>
    have hb := and_248 b
    simp only [List.modify_zero_cons, List.modify_succ_cons, Bytes.ofLe]
    omega

/-- Powers by squares, with as many bits of the exponent as there are turns. -/
def powMod (m z : ℕ) : ℕ → ℕ → ℕ
  | 0, _ => 1 % m
  | k + 1, e =>
    let r := powMod m z k (e / 2)
    r * r % m * (if e % 2 = 1 then z else 1) % m

theorem powMod_eq (m z : ℕ) {k e : ℕ} (h : e < 2 ^ k) : powMod m z k e = z ^ e % m := by
  induction k generalizing e with
  | zero =>
    obtain rfl : e = 0 := by omega
    rfl
  | succ k ih =>
    have hhalf : e / 2 < 2 ^ k := by
      rw [pow_succ] at h
      omega
    have hpow : z ^ e = z ^ (e / 2) * z ^ (e / 2) * (if e % 2 = 1 then z else 1) := by
      rw [← pow_add, ← two_mul]
      rcases Nat.mod_two_eq_zero_or_one e with he | he
      · rw [if_neg (by omega), mul_one, show 2 * (e / 2) = e by omega]
      · rw [if_pos he, ← pow_succ, show 2 * (e / 2) + 1 = e by omega]
    rw [powMod, ih hhalf, hpow]
    simp only [Nat.mul_mod, Nat.mod_mod]

theorem quotient_eq (x z : ℕ) : quotient x z = fmul x (powMod p z 255 (p - 2)) := by
  rw [quotient, powMod_eq]
  have hp : p < 2 ^ 255 := by norm_num [p]
  omega

theorem pow_mod_eq_zero {z m n : ℕ} (h : z % m = 0) (hn : n ≠ 0) : z ^ n % m = 0 := by
  rw [Nat.pow_mod, h, zero_pow hn, Nat.zero_mod]

theorem quotient_eq_zero {x z : ℕ} (h : (z : ZMod p) = 0) : quotient x z = 0 := by
  have hz : z % p = 0 := Nat.mod_eq_zero_of_dvd ((ZMod.natCast_eq_zero_iff z p).1 h)
  have hne : p - 2 ≠ 0 := Nat.sub_ne_zero_of_lt (by decide)
  rw [quotient, fmul, pow_mod_eq_zero hz hne, Nat.mul_zero, Nat.zero_mod]

/-- **The function at a point of order one, two or four.** -/
theorem x25519_flat (scalar : List UInt8) {point : List UInt8}
    (h : Flat (decodeCoordinate point : ZMod p) 1) : x25519 scalar point = List.replicate 32 0 := by
  have hbits {t : ℕ} (ht : t < 3) : (decodeScalar scalar).testBit t = false :=
    testBit_low (decodeScalar_mod scalar) ht
  have hstep (swap : Bool) (s : Regs ℕ) (_ : True) : True ∧
      ∃ w, (stepMod (decodeCoordinate point) (s.swapIf swap)).cast =
        (s.cast.swapIf swap).step (decodeCoordinate point : ZMod p) w :=
    ⟨trivial, cast_stepMod (decodeCoordinate point) swap s⟩
  obtain ⟨hswap, -, hz⟩ := loop_z2 hstep (hbits (by norm_num))
    (hbits (by norm_num)) (hbits (by norm_num)) h (a := ⟨1, 0, decodeCoordinate point, 1⟩) trivial
    (.inr (.inl Nat.cast_zero)) (by simpa [Regs.cast] using h) 252 false
  rw [x25519, hswap]
  exact congrArg (Bytes.le 32) (quotient_eq_zero hz)

end Ladder
