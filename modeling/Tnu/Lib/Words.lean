/-
**Words of four and eight bytes.**

Programs put words together from bytes with shifts, and take them apart in the same way, with the highest
byte first or the lowest.

Main definitions:

* `Bytes.be`, `Bytes.beWord` — numbers with the highest byte first.

Main results:

* `Bytes.toNat_loadBe`, `Bytes.toNat_loadLe` — **a word that is loaded is the number that its bytes
  write**;
* `Bytes.store32_eq`, `Bytes.store64_eq` — a word that is stored.
-/

import Mathlib.Tactic.NormNum
import Mathlib.Tactic.Ring
import Tnu.Lib.Bytes

set_option autoImplicit false

namespace Bytes

/-! ### Numbers with the highest byte first -/

/-- The `w` low bytes of a number, highest first. -/
def be (w n : ℕ) : List UInt8 := (le w n).reverse

@[simp] theorem length_be (w n : ℕ) : (be w n).length = w := by simp [be]

theorem be_mod (w n : ℕ) : be w (n % 256 ^ w) = be w n := by
  have hle (w n : ℕ) : le w (n % 256 ^ w) = le w n := by
    induction w generalizing n with
    | zero => rfl
    | succ w ih =>
      have hlow : n % 256 ^ (w + 1) % 256 = n % 256 :=
        Nat.mod_mod_of_dvd n (Dvd.intro_left (256 ^ w) rfl)
      have hhigh : n % 256 ^ (w + 1) / 256 = n / 256 % 256 ^ w := by
        rw [pow_succ, mul_comm, Nat.mod_mul_right_div_self]
      rw [le, le, hlow, hhigh, ih]
  rw [be, hle, be]

theorem ofLe_take_add (l : List UInt8) (m n : ℕ) :
    ofLe (l.take (m + n)) = ofLe (l.take m) + 256 ^ m * ofLe ((l.drop m).take n) := by
  induction m generalizing l with
  | zero => simp [ofLe]
  | succ m ih =>
    cases l with
    | nil => simp [ofLe]
    | cons b l =>
      rw [Nat.add_right_comm, List.take_succ_cons, List.take_succ_cons, List.drop_succ_cons, ofLe, ofLe,
        ih, pow_succ]
      ring

theorem ofLe_drop (l : List UInt8) (k : ℕ) : ofLe (l.drop k) = ofLe l / 256 ^ k := by
  induction k generalizing l with
  | zero => simp
  | succ k ih =>
    cases l with
    | nil => simp [ofLe]
    | cons b l =>
      have hb := b.toNat_lt
      have htail : ofLe (b :: l) / 256 = ofLe l := by
        rw [ofLe]
        omega
      rw [List.drop_succ_cons, ih, pow_succ', ← Nat.div_div_eq_div_mul, htail]

theorem ofLe_take (l : List UInt8) (k : ℕ) : ofLe (l.take k) = ofLe l % 256 ^ k := by
  have hlt : ofLe (l.take k) < 256 ^ k :=
    (ofLe_lt _).trans_le (Nat.pow_le_pow_right (by norm_num) (List.length_take_le k l))
  have hsum := ofLe_take_add l k (l.length - k)
  have hrest : (l.drop k).take (l.length - k) = l.drop k := List.take_of_length_le (by simp)
  rcases Nat.le_total k l.length with hk | hk
  · rw [Nat.add_sub_cancel' hk, List.take_length, hrest] at hsum
    rw [hsum, Nat.add_mul_mod_self_left, Nat.mod_eq_of_lt hlt]
  · rw [List.take_of_length_le hk] at hlt ⊢
    exact (Nat.mod_eq_of_lt hlt).symm

theorem le_add (m n x : ℕ) : le (m + n) x = le m x ++ le n (x / 256 ^ m) := by
  induction m generalizing x with
  | zero => simp [le]
  | succ m ih =>
    rw [Nat.add_right_comm, le, le, ih, List.cons_append, Nat.div_div_eq_div_mul, pow_succ']

theorem le_inj {w x y : ℕ} : le w x = le w y ↔ x % 256 ^ w = y % 256 ^ w := by
  constructor
  · intro h
    rw [← ofLe_le, h, ofLe_le]
  · intro h
    rw [← List.reverse_inj]
    exact (be_mod w x).symm.trans ((congrArg (be w) h).trans (be_mod w y))

/-! ### Words of programs -/

def beWord (p : List UInt8) : ℕ :=
  (((p.getD 0 0).toNat * 256 + (p.getD 1 0).toNat) * 256 + (p.getD 2 0).toNat) * 256 + (p.getD 3 0).toNat

theorem or_low (i : ℕ) {x y : ℕ} (hy : y < 2 ^ i) : 2 ^ i * x ||| y = 2 ^ i * x + y :=
  (Nat.two_pow_add_eq_or_of_lt hy x).symm

theorem toNat_join (t u : UInt32) {i j : UInt32} (hi : i.toNat < 32) (hj : j.toNat < 32)
    (hij : i.toNat + j.toNat = 32) :
    (t >>> i ||| u <<< j).toNat = t.toNat / 2 ^ i.toNat + u.toNat * 2 ^ j.toNat % 2 ^ 32 := by
  have hword : 2 ^ j.toNat * 2 ^ i.toNat = 2 ^ 32 := by rw [← pow_add, Nat.add_comm, hij]
  have hlow : t.toNat / 2 ^ i.toNat < 2 ^ j.toNat := by
    rw [Nat.div_lt_iff_lt_mul (Nat.two_pow_pos _), hword]
    exact t.toNat_lt
  have hhigh : u.toNat * 2 ^ j.toNat % 2 ^ 32 = 2 ^ j.toNat * (u.toNat % 2 ^ i.toNat) := by
    rw [← hword, mul_comm, Nat.mul_mod_mul_left]
  rw [UInt32.toNat_or, UInt32.toNat_shiftRight, UInt32.toNat_shiftLeft, Nat.mod_eq_of_lt hi,
    Nat.mod_eq_of_lt hj, Nat.shiftRight_eq_div_pow, Nat.shiftLeft_eq, hhigh, Nat.or_comm, or_low _ hlow,
    Nat.add_comm]

theorem toNat_shiftLeft_byte (a : UInt8) {n : UInt32} (hn : n.toNat ≤ 24) :
    (a.toUInt32 <<< n).toNat = a.toNat * 2 ^ n.toNat := by
  have ha := a.toNat_lt
  have hpow : 2 ^ n.toNat ≤ 2 ^ 24 := Nat.pow_le_pow_right (by norm_num) hn
  have hlt : a.toNat * 2 ^ n.toNat < 2 ^ 32 := by
    calc a.toNat * 2 ^ n.toNat ≤ 255 * 2 ^ 24 := Nat.mul_le_mul (by omega) hpow
      _ < 2 ^ 32 := by norm_num
  rw [UInt32.toNat_shiftLeft, UInt8.toNat_toUInt32, Nat.mod_eq_of_lt (by omega : n.toNat < 32),
    Nat.shiftLeft_eq, Nat.mod_eq_of_lt hlt]

theorem toNat_loadBe (p : List UInt8) :
    ((p.getD 0 0).toUInt32 <<< 24 ||| (p.getD 1 0).toUInt32 <<< 16 ||| (p.getD 2 0).toUInt32 <<< 8 |||
      (p.getD 3 0).toUInt32).toNat = beWord p := by
  rw [beWord]
  generalize p.getD 0 0 = a, p.getD 1 0 = b, p.getD 2 0 = c, p.getD 3 0 = d
  have hb := b.toNat_lt
  have hc := c.toNat_lt
  have hd := d.toNat_lt
  have h1 : a.toNat * 2 ^ 24 ||| b.toNat * 2 ^ 16 = (a.toNat * 256 + b.toNat) * 2 ^ 16 := by
    rw [mul_comm a.toNat, or_low 24 (by omega)]
    omega
  have h2 : (a.toNat * 256 + b.toNat) * 2 ^ 16 ||| c.toNat * 2 ^ 8 =
      ((a.toNat * 256 + b.toNat) * 256 + c.toNat) * 2 ^ 8 := by
    rw [mul_comm _ (2 ^ 16), or_low 16 (by omega)]
    omega
  have h3 : ((a.toNat * 256 + b.toNat) * 256 + c.toNat) * 2 ^ 8 ||| d.toNat =
      ((a.toNat * 256 + b.toNat) * 256 + c.toNat) * 256 + d.toNat := by
    rw [mul_comm _ (2 ^ 8), or_low 8 hd]
    omega
  rw [UInt32.toNat_or, UInt32.toNat_or, UInt32.toNat_or, toNat_shiftLeft_byte a (by decide),
    toNat_shiftLeft_byte b (by decide), toNat_shiftLeft_byte c (by decide), UInt8.toNat_toUInt32]
  exact (congrArg (· ||| d.toNat) ((congrArg (· ||| c.toNat * 2 ^ 8) h1).trans h2)).trans h3

theorem toNat_loadLe (p : List UInt8) :
    ((p.getD 0 0).toUInt32 ||| (p.getD 1 0).toUInt32 <<< 8 ||| (p.getD 2 0).toUInt32 <<< 16 |||
      (p.getD 3 0).toUInt32 <<< 24).toNat = ofLe (p.take 4) := by
  have hval : ofLe (p.take 4) = (p.getD 0 0).toNat + 256 * ((p.getD 1 0).toNat +
      256 * ((p.getD 2 0).toNat + 256 * (p.getD 3 0).toNat)) := by
    match p with
    | [] => rfl
    | [a] => rfl
    | [a, b] => rfl
    | [a, b, c] => rfl
    | a :: b :: c :: d :: p => rfl
  rw [hval]
  generalize p.getD 0 0 = a, p.getD 1 0 = b, p.getD 2 0 = c, p.getD 3 0 = d
  have ha := a.toNat_lt
  have hb := b.toNat_lt
  have hc := c.toNat_lt
  have h1 : a.toNat ||| b.toNat * 2 ^ 8 = a.toNat + b.toNat * 2 ^ 8 := by
    rw [Nat.or_comm, mul_comm, or_low 8 ha]
    omega
  have h2 : a.toNat + b.toNat * 2 ^ 8 ||| c.toNat * 2 ^ 16 =
      a.toNat + b.toNat * 2 ^ 8 + c.toNat * 2 ^ 16 := by
    rw [Nat.or_comm, mul_comm c.toNat, or_low 16 (by omega)]
    omega
  have h3 : a.toNat + b.toNat * 2 ^ 8 + c.toNat * 2 ^ 16 ||| d.toNat * 2 ^ 24 =
      a.toNat + 256 * (b.toNat + 256 * (c.toNat + 256 * d.toNat)) := by
    rw [Nat.or_comm, mul_comm d.toNat, or_low 24 (by omega)]
    omega
  rw [UInt32.toNat_or, UInt32.toNat_or, UInt32.toNat_or, toNat_shiftLeft_byte b (by decide),
    toNat_shiftLeft_byte c (by decide), toNat_shiftLeft_byte d (by decide), UInt8.toNat_toUInt32]
  exact (congrArg (· ||| d.toNat * 2 ^ 24) ((congrArg (· ||| c.toNat * 2 ^ 16) h1).trans h2)).trans h3

theorem store16_eq (v : UInt16) : [(v >>> 8).toUInt8, v.toUInt8] = be 2 v.toNat := by
  have hhigh : (v >>> 8).toUInt8 = UInt8.ofNat (v.toNat / 256 % 256) := by
    rw [← UInt8.toNat_inj, UInt16.toNat_toUInt8, UInt16.toNat_shiftRight, UInt8.toNat_ofNat', Nat.mod_mod]
    exact congrArg (· % 2 ^ 8) (Nat.shiftRight_eq_div_pow v.toNat 8)
  have hlow : v.toUInt8 = UInt8.ofNat (v.toNat % 256) := by
    rw [← UInt8.toNat_inj, UInt16.toNat_toUInt8, UInt8.toNat_ofNat', Nat.mod_mod]
  rw [hhigh, hlow]
  simp [be, le]

theorem store24_eq (v : UInt32) : [(v >>> 16).toUInt8, (v >>> 8).toUInt8, v.toUInt8] = be 3 v.toNat := by
  have hshift (n : UInt32) (hn : n.toNat < 32) :
      (v >>> n).toUInt8 = UInt8.ofNat (v.toNat / 2 ^ n.toNat % 256) := by
    rw [← UInt8.toNat_inj, UInt32.toNat_toUInt8, UInt32.toNat_shiftRight, Nat.mod_eq_of_lt hn,
      Nat.shiftRight_eq_div_pow, UInt8.toNat_ofNat', Nat.mod_mod]
  have hlow : v.toUInt8 = UInt8.ofNat (v.toNat % 256) := by
    rw [← UInt8.toNat_inj, UInt32.toNat_toUInt8, UInt8.toNat_ofNat', Nat.mod_mod]
  rw [hshift 16 (by decide), hshift 8 (by decide), hlow]
  simp [be, le, Nat.div_div_eq_div_mul]

theorem store32_eq (v : UInt32) :
    [(v >>> 24).toUInt8, (v >>> 16).toUInt8, (v >>> 8).toUInt8, v.toUInt8] = be 4 v.toNat := by
  have hshift (n : UInt32) (hn : n.toNat < 32) :
      (v >>> n).toUInt8 = UInt8.ofNat (v.toNat / 2 ^ n.toNat % 256) := by
    rw [← UInt8.toNat_inj, UInt32.toNat_toUInt8, UInt32.toNat_shiftRight, Nat.mod_eq_of_lt hn,
      Nat.shiftRight_eq_div_pow, UInt8.toNat_ofNat']
    omega
  have hlow : v.toUInt8 = UInt8.ofNat (v.toNat % 256) := by
    rw [← UInt8.toNat_inj, UInt32.toNat_toUInt8, UInt8.toNat_ofNat']
    omega
  rw [hshift 24 (by decide), hshift 16 (by decide), hshift 8 (by decide), hlow]
  simp [be, le, Nat.div_div_eq_div_mul]

theorem store64_eq (v : UInt64) :
    ((List.range 8).map fun i => (v >>> UInt64.ofNat (56 - 8 * i)).toUInt8) = be 8 v.toNat := by
  have hshift (n : ℕ) (hn : n < 64) :
      (v >>> UInt64.ofNat n).toUInt8 = UInt8.ofNat (v.toNat / 2 ^ n % 256) := by
    rw [← UInt8.toNat_inj, UInt64.toNat_toUInt8, UInt64.toNat_shiftRight, UInt64.toNat_ofNat',
      Nat.mod_eq_of_lt (by omega : n < 2 ^ 64), Nat.mod_eq_of_lt hn, Nat.shiftRight_eq_div_pow,
      UInt8.toNat_ofNat']
    omega
  have hmap : ((List.range 8).map fun i => (v >>> UInt64.ofNat (56 - 8 * i)).toUInt8) =
      (List.range 8).map fun i => UInt8.ofNat (v.toNat / 2 ^ (56 - 8 * i) % 256) :=
    List.map_congr_left fun i _ => hshift _ (by omega)
  rw [hmap]
  simp [be, le, List.range_succ, Nat.div_div_eq_div_mul]

end Bytes
