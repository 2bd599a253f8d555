/-
**The authenticator of the TLS library.**

`tnu_poly1305_mac` of `userspace/libc/src/tls.c` computes the value of the polynomial as it should be.
When it puts the limbs together to four words, it leaves in each word the bits above the 32nd: they are
added to the next word once with its own limb and once as if they were a carry.  So the tag is right
exactly when the value has no bits there.

Main definitions:

* `Limbs.nat` — the limbs as numbers.

Main results:

* `val_polyReduce` — the value of the polynomial is right;
* `tnuPoly1305Mac_eq_iff` — **the tag is right exactly when the value has no such bits**.
-/

import Tnu.Lib.Poly1305
import Tnu.Lib.Words
import Tnu.Tls.Aead

set_option autoImplicit false

namespace Tnu.Tls

/-! ### Words and limbs -/

def Limbs.nat (h : Limbs) : Poly1305.Limbs :=
  ⟨h.h0.toNat, h.h1.toNat, h.h2.toNat, h.h3.toNat, h.h4.toNat⟩

def pieces (t : ℕ) : Poly1305.Limbs :=
  ⟨t % 2 ^ 26, t / 2 ^ 26 % 2 ^ 26, t / 2 ^ 52 % 2 ^ 26, t / 2 ^ 78 % 2 ^ 26, t / 2 ^ 104⟩

theorem val_pieces (t : ℕ) : (pieces t).val = t := by
  simp only [pieces, Poly1305.Limbs.val]
  omega

theorem toNat_loadLe32 (l : List Byte) : (loadLe32 l).toNat = Bytes.ofLe (l.take 4) := Bytes.toNat_loadLe l

theorem ofLe_words (l : List Byte) :
    Bytes.ofLe (l.take 16) = (loadLe32 l).toNat + 2 ^ 32 * (loadLe32 (l.drop 4)).toNat +
      2 ^ 64 * (loadLe32 (l.drop 8)).toNat + 2 ^ 96 * (loadLe32 (l.drop 12)).toNat := by
  have h8 : (l.drop 4).drop 4 = l.drop 8 := List.drop_drop
  have h12 : (l.drop 8).drop 4 = l.drop 12 := List.drop_drop
  have h1 := Bytes.ofLe_take_add l 4 12
  have h2 := Bytes.ofLe_take_add (l.drop 4) 4 8
  have h3 := Bytes.ofLe_take_add (l.drop 8) 4 4
  rw [h8] at h2
  rw [h12] at h3
  rw [toNat_loadLe32, toNat_loadLe32, toNat_loadLe32, toNat_loadLe32, h1, h2, h3]
  omega

theorem toNat_low26 (x : UInt32) : (x &&& 0x3ffffff).toNat = x.toNat % 2 ^ 26 := by
  rw [UInt32.toNat_and]
  exact Nat.and_two_pow_sub_one_eq_mod x.toNat 26

theorem nat_pieces (l : List Byte) :
    (loadLe32 l &&& 0x3ffffff).toNat = (pieces (Bytes.ofLe (l.take 16))).h0 ∧
      ((loadLe32 l >>> 26 ||| loadLe32 (l.drop 4) <<< 6) &&& 0x3ffffff).toNat =
        (pieces (Bytes.ofLe (l.take 16))).h1 ∧
      ((loadLe32 (l.drop 4) >>> 20 ||| loadLe32 (l.drop 8) <<< 12) &&& 0x3ffffff).toNat =
        (pieces (Bytes.ofLe (l.take 16))).h2 ∧
      ((loadLe32 (l.drop 8) >>> 14 ||| loadLe32 (l.drop 12) <<< 18) &&& 0x3ffffff).toNat =
        (pieces (Bytes.ofLe (l.take 16))).h3 ∧
      (loadLe32 (l.drop 12) >>> 8).toNat = (pieces (Bytes.ofLe (l.take 16))).h4 := by
  have hj1 := Bytes.toNat_join (loadLe32 l) (loadLe32 (l.drop 4)) (i := 26) (j := 6) (by decide) (by decide)
    (by decide)
  have hj2 := Bytes.toNat_join (loadLe32 (l.drop 4)) (loadLe32 (l.drop 8)) (i := 20) (j := 12) (by decide)
    (by decide) (by decide)
  have hj3 := Bytes.toNat_join (loadLe32 (l.drop 8)) (loadLe32 (l.drop 12)) (i := 14) (j := 18) (by decide)
    (by decide) (by decide)
  have h8 : (loadLe32 (l.drop 12) >>> 8).toNat = (loadLe32 (l.drop 12)).toNat / 2 ^ 8 := by
    rw [UInt32.toNat_shiftRight, Nat.shiftRight_eq_div_pow]
    rfl
  have hwords := ofLe_words l
  have b0 := (loadLe32 l).toNat_lt
  have b1 := (loadLe32 (l.drop 4)).toNat_lt
  have b2 := (loadLe32 (l.drop 8)).toNat_lt
  have b3 := (loadLe32 (l.drop 12)).toNat_lt
  simp only [UInt32.reduceToNat] at hj1 hj2 hj3
  rw [toNat_low26, toNat_low26, toNat_low26, toNat_low26, hj1, hj2, hj3, h8, hwords]
  simp only [pieces]
  omega

variable {h r : Limbs} {m n : ℕ}

theorem nat_addBlock (hh : Poly1305.Carried h.nat) (block : List Byte) :
    (addBlock h block).nat.val = h.nat.val + Bytes.ofLe (block.take 16) ∧
      (addBlock h block).nat.h0 < 2 ^ 27 + 64 ∧ (addBlock h block).nat.h1 < 2 ^ 27 + 64 ∧
      (addBlock h block).nat.h2 < 2 ^ 27 + 64 ∧ (addBlock h block).nat.h3 < 2 ^ 27 + 64 ∧
      (addBlock h block).nat.h4 < 2 ^ 27 + 64 := by
  obtain ⟨b0, b1, b2, b3, b4⟩ := hh
  obtain ⟨p0, p1, p2, p3, p4⟩ := nat_pieces block
  have hval := val_pieces (Bytes.ofLe (block.take 16))
  have htop : (loadLe32 (block.drop 12) >>> 8 &&& 0x00ffffff).toNat =
      (pieces (Bytes.ofLe (block.take 16))).h4 := by
    have hlt : (loadLe32 (block.drop 12) >>> 8).toNat < 2 ^ 24 := by
      have h := (loadLe32 (block.drop 12)).toNat_lt
      rw [UInt32.toNat_shiftRight, Nat.shiftRight_eq_div_pow]
      exact Nat.div_lt_of_lt_mul h
    rw [← p4, UInt32.toNat_and]
    exact (Nat.and_two_pow_sub_one_eq_mod _ 24).trans (Nat.mod_eq_of_lt hlt)
  have hlt4 : (pieces (Bytes.ofLe (block.take 16))).h4 < 2 ^ 24 := by
    rw [← htop, UInt32.toNat_and]
    exact Nat.lt_succ_of_le Nat.and_le_right
  have hlt0 : (pieces (Bytes.ofLe (block.take 16))).h0 < 2 ^ 26 := Nat.mod_lt _ (Nat.two_pow_pos _)
  have hlt1 : (pieces (Bytes.ofLe (block.take 16))).h1 < 2 ^ 26 := Nat.mod_lt _ (Nat.two_pow_pos _)
  have hlt2 : (pieces (Bytes.ofLe (block.take 16))).h2 < 2 ^ 26 := Nat.mod_lt _ (Nat.two_pow_pos _)
  have hlt3 : (pieces (Bytes.ofLe (block.take 16))).h3 < 2 ^ 26 := Nat.mod_lt _ (Nat.two_pow_pos _)
  simp only [Limbs.nat] at b0 b1 b2 b3 b4
  simp only [Poly1305.Limbs.val] at hval
  simp only [addBlock, Limbs.nat, Poly1305.Limbs.val, UInt32.toNat_add, p0, p1, p2, p3, htop]
  omega

theorem toNat_add_bit {x : UInt32} {k : ℕ} (hx : x.toNat < 2 ^ 31) (hk : k ≤ 25) :
    (x + (1 : UInt32) <<< UInt32.ofNat k).toNat = x.toNat + 2 ^ k ∧ 2 ^ k ≤ 2 ^ 25 := by
  have hpow : 2 ^ k ≤ 2 ^ 25 := Nat.pow_le_pow_right (by norm_num) hk
  have hone : ((1 : UInt32) <<< UInt32.ofNat k).toNat = 2 ^ k := by
    have hk32 : (UInt32.ofNat k).toNat % 32 = k := by
      rw [UInt32.toNat_ofNat']
      omega
    have h1 : (1 : UInt32).toNat = 1 := rfl
    rw [UInt32.toNat_shiftLeft, hk32, h1, Nat.shiftLeft_eq, Nat.one_mul, Nat.mod_eq_of_lt (by omega)]
  rw [UInt32.toNat_add, hone]
  omega

theorem nat_addHighBit (hn : n ≤ 16) (b0 : h.nat.h0 < 2 ^ 27 + 64)
    (b1 : h.nat.h1 < 2 ^ 27 + 64) (b2 : h.nat.h2 < 2 ^ 27 + 64) (b3 : h.nat.h3 < 2 ^ 27 + 64)
    (b4 : h.nat.h4 < 2 ^ 27 + 64) :
    (addHighBit h n).nat.val = h.nat.val + 256 ^ n ∧ Poly1305.Roomy (addHighBit h n).nat := by
  simp only [Limbs.nat] at b0 b1 b2 b3 b4
  have h256 : 256 ^ n = 2 ^ (n * 8) := by
    rw [mul_comm, pow_mul]
    rfl
  have hplace (i : ℕ) (hi : i ≤ n * 8) : 2 ^ i * 2 ^ (n * 8 - i) = 2 ^ (n * 8) := by
    rw [← pow_add, Nat.add_sub_cancel' hi]
  rw [addHighBit, h256]
  split_ifs with h16 h26 h52 h78 h104
  · obtain ⟨hadd, hle⟩ := toNat_add_bit (x := h.h4) (k := 24) (by omega) (by norm_num)
    have hadd' : (h.h4 + (1 : UInt32) <<< 24).toNat = h.h4.toNat + 2 ^ 24 := hadd
    refine ⟨?_, by constructor <;> simp only [Limbs.nat, hadd'] <;> omega⟩
    simp only [Limbs.nat, Poly1305.Limbs.val, hadd', h16]
    omega
  · obtain ⟨hadd, hle⟩ := toNat_add_bit (x := h.h0) (k := n * 8) (by omega) (by omega)
    refine ⟨?_, by constructor <;> simp only [Limbs.nat, hadd] <;> omega⟩
    simp only [Limbs.nat, Poly1305.Limbs.val, hadd]
    omega
  · obtain ⟨hadd, hle⟩ := toNat_add_bit (x := h.h1) (k := n * 8 - 26) (by omega) (by omega)
    have hp := hplace 26 (by omega)
    refine ⟨?_, by constructor <;> simp only [Limbs.nat, hadd] <;> omega⟩
    simp only [Limbs.nat, Poly1305.Limbs.val, hadd]
    omega
  · obtain ⟨hadd, hle⟩ := toNat_add_bit (x := h.h2) (k := n * 8 - 52) (by omega) (by omega)
    have hp := hplace 52 (by omega)
    refine ⟨?_, by constructor <;> simp only [Limbs.nat, hadd] <;> omega⟩
    simp only [Limbs.nat, Poly1305.Limbs.val, hadd]
    omega
  · obtain ⟨hadd, hle⟩ := toNat_add_bit (x := h.h3) (k := n * 8 - 78) (by omega) (by omega)
    have hp := hplace 78 (by omega)
    refine ⟨?_, by constructor <;> simp only [Limbs.nat, hadd] <;> omega⟩
    simp only [Limbs.nat, Poly1305.Limbs.val, hadd]
    omega
  · obtain ⟨hadd, hle⟩ := toNat_add_bit (x := h.h4) (k := n * 8 - 104) (by omega) (by omega)
    have hp := hplace 104 (by omega)
    refine ⟨?_, by constructor <;> simp only [Limbs.nat, hadd] <;> omega⟩
    simp only [Limbs.nat, Poly1305.Limbs.val, hadd]
    omega

/-! ### The product -/

theorem and_limb (t m k : ℕ) :
    (t &&& m) / 2 ^ k % 2 ^ 26 = (t / 2 ^ k % 2 ^ 26) &&& (m / 2 ^ k % 2 ^ 26) := by
  rw [Nat.and_div_two_pow, Nat.and_mod_two_pow]

theorem nat_polyKey (key : List Byte) :
    (polyKey key).nat = pieces (Poly1305.keyR key) ∧ Poly1305.Clamped (polyKey key).nat := by
  obtain ⟨p0, p1, p2, p3, p4⟩ := nat_pieces key
  have hmask (x : UInt32) {m : UInt32} (hm : 0x3ffffff &&& m = m) :
      (x &&& m).toNat = (x &&& 0x3ffffff).toNat &&& m.toNat := by
    rw [← UInt32.toNat_and, UInt32.and_assoc, hm]
  have hkey : (polyKey key).nat =
      ⟨(pieces (Bytes.ofLe (key.take 16))).h0, (pieces (Bytes.ofLe (key.take 16))).h1 &&& 0x3ffff03,
        (pieces (Bytes.ofLe (key.take 16))).h2 &&& 0x3ffc0ff,
        (pieces (Bytes.ofLe (key.take 16))).h3 &&& 0x3f03fff,
        (pieces (Bytes.ofLe (key.take 16))).h4 &&& 0x00fffff⟩ := by
    rw [← p0, ← p1, ← p2, ← p3, ← p4]
    refine Poly1305.Limbs.ext rfl (hmask _ rfl) (hmask _ rfl) (hmask _ rfl) ?_
    exact UInt32.toNat_and _ _
  constructor
  · have htop (t : ℕ) : Poly1305.clamp t / 2 ^ 104 = t / 2 ^ 104 &&& 0x00fffff := by
      rw [Poly1305.clamp, Nat.and_div_two_pow]
    have hlow (t : ℕ) : Poly1305.clamp t % 2 ^ 26 = t % 2 ^ 26 &&& 0x3ffffff := by
      rw [Poly1305.clamp, Nat.and_mod_two_pow]
    have hid (t : ℕ) : t % 2 ^ 26 &&& 0x3ffffff = t % 2 ^ 26 := by
      exact (Nat.and_two_pow_sub_one_eq_mod _ 26).trans (Nat.mod_mod t _)
    have hmid (t k : ℕ) : Poly1305.clamp t / 2 ^ k % 2 ^ 26 =
        (t / 2 ^ k % 2 ^ 26) &&& (0x0ffffffc0ffffffc0ffffffc0fffffff / 2 ^ k % 2 ^ 26) := and_limb _ _ k
    rw [hkey, Poly1305.keyR]
    simp only [pieces, htop, hlow, hid, hmid]
    norm_num
  · rw [hkey]
    exact ⟨Nat.le_of_lt_succ (Nat.mod_lt _ (by norm_num)), Nat.and_le_right, Nat.and_le_right,
      Nat.and_le_right, Nat.and_le_right⟩

theorem toNat_column {a0 a1 a2 a3 a4 b0 b1 b2 b3 b4 : UInt32}
    (h : a0.toNat * b0.toNat + a1.toNat * b1.toNat + a2.toNat * b2.toNat + a3.toNat * b3.toNat +
      a4.toNat * b4.toNat < 2 ^ 58) :
    (a0.toUInt64 * b0.toUInt64 + a1.toUInt64 * b1.toUInt64 + a2.toUInt64 * b2.toUInt64 +
      a3.toUInt64 * b3.toUInt64 + a4.toUInt64 * b4.toUInt64).toNat =
      a0.toNat * b0.toNat + a1.toNat * b1.toNat + a2.toNat * b2.toNat + a3.toNat * b3.toNat +
        a4.toNat * b4.toNat := by
  simp only [UInt64.toNat_add, UInt64.toNat_mul, UInt32.toNat_toUInt64]
  omega

theorem toNat_carry {d : UInt64} (h : d.toNat < 2 ^ 58) : (d >>> 26).toUInt32.toNat = d.toNat / 2 ^ 26 := by
  have hshift : (d >>> 26).toNat = d.toNat / 2 ^ 26 := by
    rw [UInt64.toNat_shiftRight, Nat.shiftRight_eq_div_pow]
    rfl
  rw [UInt64.toNat_toUInt32, hshift]
  omega

theorem toNat_low (d : UInt64) : (d.toUInt32 &&& 0x3ffffff).toNat = d.toNat % 2 ^ 26 := by
  rw [toNat_low26, UInt64.toNat_toUInt32]
  omega

theorem toNat_add_carry {d e : UInt64} (hd : d.toNat < 2 ^ 58) (he : e.toNat < 2 ^ 58) :
    (e + (d >>> 26).toUInt32.toUInt64).toNat = e.toNat + d.toNat / 2 ^ 26 := by
  rw [UInt64.toNat_add, UInt32.toNat_toUInt64, toNat_carry hd]
  omega

/-- The carries behind a product, in `mulKey`. -/
def carries (d0 d1 d2 d3 d4 : UInt64) : Limbs :=
  let carry (d : UInt64) : UInt32 := (d >>> 26).toUInt32
  let low (d : UInt64) : UInt32 := d.toUInt32 &&& 0x3ffffff
  let d1 := d1 + (carry d0).toUInt64
  let d2 := d2 + (carry d1).toUInt64
  let d3 := d3 + (carry d2).toUInt64
  let d4 := d4 + (carry d3).toUInt64
  let h0 := low d0 + carry d4 * 5
  { h0 := h0 &&& 0x3ffffff
    h1 := low d1 + h0 >>> 26
    h2 := low d2
    h3 := low d3
    h4 := low d4 }

theorem nat_carries {d0 d1 d2 d3 d4 : UInt64} (h0 : d0.toNat < 2 ^ 58 - 2 ^ 32)
    (h1 : d1.toNat < 2 ^ 58 - 2 ^ 32) (h2 : d2.toNat < 2 ^ 58 - 2 ^ 32) (h3 : d3.toNat < 2 ^ 58 - 2 ^ 32)
    (h4 : d4.toNat < 2 ^ 55 + 2 ^ 54) :
    (carries d0 d1 d2 d3 d4).nat =
      Poly1305.carryLimbs ⟨d0.toNat, d1.toNat, d2.toNat, d3.toNat, d4.toNat⟩ := by
  rw [carries]
  dsimp only
  have e1 := toNat_add_carry (d := d0) (e := d1) (by omega) (by omega)
  generalize d1 + (d0 >>> 26).toUInt32.toUInt64 = d1' at e1 ⊢
  have e2 := toNat_add_carry (d := d1') (e := d2) (by omega) (by omega)
  generalize d2 + (d1' >>> 26).toUInt32.toUInt64 = d2' at e2 ⊢
  have e3 := toNat_add_carry (d := d2') (e := d3) (by omega) (by omega)
  generalize d3 + (d2' >>> 26).toUInt32.toUInt64 = d3' at e3 ⊢
  have e4 := toNat_add_carry (d := d3') (e := d4) (by omega) (by omega)
  generalize d4 + (d3' >>> 26).toUInt32.toUInt64 = d4' at e4 ⊢
  have ec := toNat_carry (d := d4') (by omega)
  have el := toNat_low d0
  have efirst : ((d0.toUInt32 &&& (0x3ffffff : UInt32)) + (d4' >>> 26).toUInt32 * 5).toNat =
      d0.toNat % 2 ^ 26 + d4'.toNat / 2 ^ 26 * 5 := by
    have h5 : (5 : UInt32).toNat = 5 := rfl
    rw [UInt32.toNat_add, UInt32.toNat_mul, el, ec, h5]
    omega
  generalize (d0.toUInt32 &&& (0x3ffffff : UInt32)) + (d4' >>> 26).toUInt32 * 5 = h at efirst ⊢
  have eshift : (h >>> 26).toNat = h.toNat / 2 ^ 26 := by
    rw [UInt32.toNat_shiftRight, Nat.shiftRight_eq_div_pow]
    rfl
  have esecond : ((d1'.toUInt32 &&& (0x3ffffff : UInt32)) + h >>> 26).toNat =
      d1'.toNat % 2 ^ 26 + h.toNat / 2 ^ 26 := by
    rw [UInt32.toNat_add, toNat_low, eshift]
    omega
  simp only [Limbs.nat, Poly1305.carryLimbs, toNat_low26 h, toNat_low, esecond, efirst, e4, e3, e2, e1]

/-- **The product does not overflow.** -/
theorem nat_mulKey (hr : Poly1305.Clamped r.nat) (hh : Poly1305.Roomy h.nat) :
    (mulKey r h).nat = Poly1305.carryLimbs (Poly1305.mulLimbs r.nat h.nat) := by
  obtain ⟨b0, b1, b2, b3, b4⟩ := Poly1305.mulLimbs_lt hr hh
  obtain ⟨r0, r1, r2, r3, r4⟩ := hr
  have hfive {x : UInt32} (hx : x.toNat < 2 ^ 26) : (x * 5).toNat = x.toNat * 5 := by
    have h5 : (5 : UInt32).toNat = 5 := rfl
    rw [UInt32.toNat_mul, h5]
    omega
  simp only [Limbs.nat] at r0 r1 r2 r3 r4
  have s1 := hfive (x := r.h1) (by omega)
  have s2 := hfive (x := r.h2) (by omega)
  have s3 := hfive (x := r.h3) (by omega)
  have s4 := hfive (x := r.h4) (by omega)
  simp only [Poly1305.mulLimbs, Limbs.nat, ← s1, ← s2, ← s3, ← s4] at b0 b1 b2 b3 b4
  have c0 := toNat_column (b0.trans (by norm_num))
  have c1 := toNat_column (b1.trans (by norm_num))
  have c2 := toNat_column (b2.trans (by norm_num))
  have c3 := toNat_column (b3.trans (by norm_num))
  have c4 := toNat_column (b4.trans (by norm_num))
  rw [← c0] at b0
  rw [← c1] at b1
  rw [← c2] at b2
  rw [← c3] at b3
  rw [← c4] at b4
  have hcarry := nat_carries b0 b1 b2 b3 b4
  rw [c0, c1, c2, c3, c4] at hcarry
  simp only [Poly1305.mulLimbs, Limbs.nat, ← s1, ← s2, ← s3, ← s4]
  exact hcarry

/-! ### The loop and the reduction -/

theorem block_step (hr : Poly1305.Clamped r.nat) (hh : Poly1305.Carried h.nat)
    {block : List Byte} (hlen : block.length ≤ 16) :
    (mulKey r (addHighBit (addBlock h block) block.length)).nat.val % Poly1305.p =
        (h.nat.val + Bytes.ofLe (block ++ [1])) * r.nat.val % Poly1305.p ∧
      Poly1305.Carried (mulKey r (addHighBit (addBlock h block) block.length)).nat := by
  obtain ⟨hval, b0, b1, b2, b3, b4⟩ := nat_addBlock hh block
  obtain ⟨hbit, hroomy⟩ := nat_addHighBit hlen b0 b1 b2 b3 b4
  obtain ⟨m0, m1, m2, m3, m4⟩ := Poly1305.mulLimbs_lt hr hroomy
  have hone : Bytes.ofLe (block ++ [1]) = Bytes.ofLe (block.take 16) + 256 ^ block.length := by
    have hsplit := Bytes.ofLe_take_add (block ++ [1]) block.length 1
    rw [List.take_left, List.drop_left, List.take_of_length_le (by simp)] at hsplit
    rw [hsplit, List.take_of_length_le hlen]
    exact congrArg _ (mul_one _)
  rw [nat_mulKey hr hroomy]
  refine ⟨?_, Poly1305.carried_carryLimbs (by omega) (by omega) (by omega) (by omega) (by omega)⟩
  rw [Poly1305.val_carryLimbs, Poly1305.val_mulLimbs, hbit, hval, hone, Nat.add_assoc]

/-- **The loop computes the value of the polynomial.** -/
theorem val_polyLoop {r : Limbs} (hr : Poly1305.Clamped r.nat) {h : Limbs} (hh : Poly1305.Carried h.nat)
    (msg : List Byte) :
    (polyLoop r h msg).nat.val % Poly1305.p =
        Poly1305.accumulate r.nat.val (h.nat.val % Poly1305.p) msg ∧
      Poly1305.Carried (polyLoop r h msg).nat := by
  rw [polyLoop, Poly1305.accumulate]
  by_cases hmsg : msg = []
  · rw [dif_pos hmsg, dif_pos hmsg]
    exact ⟨rfl, hh⟩
  · have hpos : 0 < msg.length := List.length_pos_iff.2 hmsg
    have hlen : (msg.take 16).length ≤ 16 := List.length_take_le 16 msg
    obtain ⟨hval, hcarried⟩ := block_step hr hh hlen
    obtain ⟨hrest, hdone⟩ := val_polyLoop hr hcarried (msg.drop 16)
    rw [dif_neg hmsg, dif_neg hmsg]
    refine ⟨?_, hdone⟩
    rw [hrest, hval, Nat.mul_mod, Nat.mul_mod (_ % _ + _), Nat.mod_add_mod]
termination_by msg.length
decreasing_by
  rw [List.length_drop]
  omega

theorem toNat_add_shift {x : UInt32} (y : UInt32) (hx : x.toNat < 2 ^ 31) :
    (x + y >>> 26).toNat = x.toNat + y.toNat / 2 ^ 26 := by
  have hy := y.toNat_lt
  have hshift : (y >>> 26).toNat = y.toNat / 2 ^ 26 := by
    rw [UInt32.toNat_shiftRight, Nat.shiftRight_eq_div_pow]
    rfl
  rw [UInt32.toNat_add, hshift]
  omega

/-- The pass of carries in `polyReduce`. -/
def carryEnd (h : Limbs) : Limbs :=
  let low (v : UInt32) : UInt32 := v &&& 0x3ffffff
  let h2 := h.h2 + h.h1 >>> 26
  let h3 := h.h3 + h2 >>> 26
  let h4 := h.h4 + h3 >>> 26
  let h0 := h.h0 + (h4 >>> 26) * 5
  let h1 := low h.h1 + h0 >>> 26
  ⟨low h0, h1, low h2, low h3, low h4⟩

theorem nat_carryEnd (hh : Poly1305.Carried h.nat) :
    (carryEnd h).nat = Poly1305.carryAgain h.nat := by
  obtain ⟨b0, b1, b2, b3, b4⟩ := hh
  simp only [Limbs.nat] at b0 b1 b2 b3 b4
  rw [carryEnd]
  dsimp only
  have e2 := toNat_add_shift h.h1 (x := h.h2) (by omega)
  generalize h.h2 + h.h1 >>> 26 = h2 at e2 ⊢
  have e3 := toNat_add_shift h2 (x := h.h3) (by omega)
  generalize h.h3 + h2 >>> 26 = h3 at e3 ⊢
  have e4 := toNat_add_shift h3 (x := h.h4) (by omega)
  generalize h.h4 + h3 >>> 26 = h4 at e4 ⊢
  have e0 : (h.h0 + (h4 >>> 26) * 5).toNat = h.h0.toNat + h4.toNat / 2 ^ 26 * 5 := by
    have h5 : (5 : UInt32).toNat = 5 := rfl
    have hshift : (h4 >>> 26).toNat = h4.toNat / 2 ^ 26 := by
      rw [UInt32.toNat_shiftRight, Nat.shiftRight_eq_div_pow]
      rfl
    rw [UInt32.toNat_add, UInt32.toNat_mul, hshift, h5]
    omega
  generalize h.h0 + (h4 >>> 26) * 5 = h0 at e0 ⊢
  have e1 := toNat_add_shift h0 (x := h.h1 &&& 0x3ffffff) (by rw [toNat_low26]; omega)
  simp only [Limbs.nat, Poly1305.carryAgain, toNat_low26, e1, e0, e4, e3, e2]

theorem pick_zero (a b : UInt32) : a &&& ~~~0 ||| b &&& 0 = a := by
  simp

theorem pick_all (a b : UInt32) : a &&& ~~~(-1) ||| b &&& (-1) = b := by
  simp

/-- The choice at the end of `polyReduce`. -/
def chooseEnd (h : Limbs) : Limbs :=
  let low (v : UInt32) : UInt32 := v &&& 0x3ffffff
  let g0 := h.h0 + 5
  let g1 := h.h1 + g0 >>> 26
  let g2 := h.h2 + g1 >>> 26
  let g3 := h.h3 + g2 >>> 26
  let g4 := h.h4 + g3 >>> 26 - (1 : UInt32) <<< 26
  let mask := g4 >>> 31 - 1
  let pick (a b : UInt32) : UInt32 := a &&& ~~~mask ||| b &&& mask
  ⟨pick h.h0 (low g0), pick h.h1 (low g1), pick h.h2 (low g2), pick h.h3 (low g3), pick h.h4 g4⟩

theorem mask_eq {g : UInt32} (hg : g.toNat ≤ 2 ^ 26) :
    (g - (1 : UInt32) <<< 26) >>> 31 - 1 = if g.toNat < 2 ^ 26 then 0 else -1 := by
  have hone : ((1 : UInt32) <<< 26).toNat = 2 ^ 26 := rfl
  have hsub : (g - (1 : UInt32) <<< 26).toNat = (2 ^ 32 - 2 ^ 26 + g.toNat) % 2 ^ 32 := by
    rw [UInt32.toNat_sub, hone]
  have hshift : ((g - (1 : UInt32) <<< 26) >>> 31).toNat = if g.toNat < 2 ^ 26 then 1 else 0 := by
    rw [UInt32.toNat_shiftRight, Nat.shiftRight_eq_div_pow, hsub]
    have h31 : (31 : UInt32).toNat % 32 = 31 := rfl
    rw [h31]
    split_ifs <;> omega
  split_ifs at hshift ⊢ with hlt
  · rw [UInt32.toNat_inj.1 (hshift.trans rfl : _ = (1 : UInt32).toNat)]
    rfl
  · rw [UInt32.toNat_inj.1 (hshift.trans rfl : _ = (0 : UInt32).toNat)]
    rfl

theorem nat_chooseEnd (hh : Poly1305.Proper h.nat) :
    (chooseEnd h).nat = Poly1305.freezeLimbs h.nat := by
  obtain ⟨-, -, -, -, hfive⟩ := Poly1305.plusFive_lt hh
  obtain ⟨b0, b1, b2, b3, b4⟩ := hh
  simp only [Limbs.nat] at b0 b1 b2 b3 b4
  rw [chooseEnd]
  dsimp only
  have e0 : (h.h0 + 5).toNat = h.h0.toNat + 5 := by
    have h5 : (5 : UInt32).toNat = 5 := rfl
    rw [UInt32.toNat_add, h5]
    omega
  generalize h.h0 + 5 = g0 at e0 ⊢
  have e1 := toNat_add_shift g0 (x := h.h1) (by omega)
  generalize h.h1 + g0 >>> 26 = g1 at e1 ⊢
  have e2 := toNat_add_shift g1 (x := h.h2) (by omega)
  generalize h.h2 + g1 >>> 26 = g2 at e2 ⊢
  have e3 := toNat_add_shift g2 (x := h.h3) (by omega)
  generalize h.h3 + g2 >>> 26 = g3 at e3 ⊢
  have e4 := toNat_add_shift g3 (x := h.h4) (by omega)
  generalize h.h4 + g3 >>> 26 = g4 at e4 ⊢
  have hplus : Poly1305.plusFive h.nat =
      ⟨g0.toNat % 2 ^ 26, g1.toNat % 2 ^ 26, g2.toNat % 2 ^ 26, g3.toNat % 2 ^ 26, g4.toNat⟩ := by
    simp only [Poly1305.plusFive, Limbs.nat, e0, e1, e2, e3, e4]
  rw [hplus] at hfive
  rw [mask_eq hfive, Poly1305.freezeLimbs, hplus]
  dsimp only
  split_ifs with hlt
  · simp only [pick_zero]
  · have hlast : (g4 - (1 : UInt32) <<< 26).toNat = g4.toNat - 2 ^ 26 := by
      have hone : ((1 : UInt32) <<< 26).toNat = 2 ^ 26 := rfl
      rw [UInt32.toNat_sub, hone]
      omega
    simp only [pick_all, Limbs.nat, toNat_low26, hlast]

/-- **The reduction is that of the numbers.** -/
theorem nat_polyReduce (hh : Poly1305.Carried h.nat) :
    (polyReduce h).nat = Poly1305.freezeLimbs (Poly1305.carryAgain h.nat) := by
  have hfirst := nat_carryEnd hh
  have hproper : Poly1305.Proper (carryEnd h).nat := by
    rw [hfirst]
    exact Poly1305.proper_carryAgain hh
  rw [← hfirst, ← nat_chooseEnd hproper]
  rfl

theorem val_polyReduce (key msg : List Byte) :
    (polyReduce (polyLoop (polyKey key) ⟨0, 0, 0, 0, 0⟩ msg)).nat.val = Poly1305.acc key msg ∧
      Poly1305.Proper (polyReduce (polyLoop (polyKey key) ⟨0, 0, 0, 0, 0⟩ msg)).nat := by
  obtain ⟨hkey, hclamped⟩ := nat_polyKey key
  have hzero : Poly1305.Carried (Limbs.nat ⟨0, 0, 0, 0, 0⟩) := by
    constructor <;> decide
  obtain ⟨hval, hcarried⟩ := val_polyLoop hclamped hzero msg
  obtain ⟨hfrozen, hproper⟩ := Poly1305.val_freezeLimbs (Poly1305.proper_carryAgain hcarried)
  have hstart : (Limbs.nat ⟨0, 0, 0, 0, 0⟩).val % Poly1305.p = 0 := rfl
  rw [nat_polyReduce hcarried]
  refine ⟨?_, hproper⟩
  rw [hfrozen, Poly1305.val_carryAgain, hval, hkey, val_pieces, hstart, Poly1305.acc]

/-! ### The tag -/

/-- A word whose limb reaches beyond it: what lies above, with the carry. -/
theorem div_word {lo h k x s t : ℕ} (hst : s + t = 32) :
    (lo + h * 2 ^ s + k + 2 ^ 32 * x) / 2 ^ 32 = h / 2 ^ t + (lo + h % 2 ^ t * 2 ^ s + k) / 2 ^ 32 + x := by
  have hpow : 2 ^ t * 2 ^ s = 2 ^ 32 := by rw [← pow_add, add_comm, hst]
  have hsplit : lo + h * 2 ^ s + k + 2 ^ 32 * x =
      lo + h % 2 ^ t * 2 ^ s + k + 2 ^ 32 * (h / 2 ^ t + x) := by
    calc lo + h * 2 ^ s + k + 2 ^ 32 * x
        = lo + (h % 2 ^ t + 2 ^ t * (h / 2 ^ t)) * 2 ^ s + k + 2 ^ 32 * x := by rw [Nat.mod_add_div]
      _ = lo + h % 2 ^ t * 2 ^ s + k + 2 ^ t * 2 ^ s * (h / 2 ^ t) + 2 ^ 32 * x := by ring
      _ = lo + h % 2 ^ t * 2 ^ s + k + 2 ^ 32 * (h / 2 ^ t + x) := by
        rw [hpow]
        ring
  rw [hsplit, Nat.add_mul_div_left _ _ (by positivity)]
  ring

theorem twice_mod_iff {q c a x : ℕ} (hq : q < 2 ^ 32) :
    (q + a + (q + c)) % 2 ^ 32 = (q + c + (a + 2 ^ 32 * x)) % 2 ^ 32 ↔ q = 0 := by
  omega

/-- A word counts again what the limb below has carried into it: it is right when that is nothing. -/
theorem word_iff {lo h k x a f s t : ℕ} (hst : s + t = 32) (hh : h < 2 ^ 26)
    (hf : f = h / 2 ^ t + a + (lo + h * 2 ^ s + k) / 2 ^ 32) :
    (f % 2 ^ 32 = (lo + h * 2 ^ s + k + 2 ^ 32 * (a + 2 ^ 32 * x)) / 2 ^ 32 % 2 ^ 32 ↔ h < 2 ^ t) ∧
      (h < 2 ^ t → ∃ c, f = c + a ∧
        (lo + h * 2 ^ s + k + 2 ^ 32 * (a + 2 ^ 32 * x)) / 2 ^ 32 = c + a + 2 ^ 32 * x) := by
  have hcarry : (lo + h * 2 ^ s + k) / 2 ^ 32 = h / 2 ^ t + (lo + h % 2 ^ t * 2 ^ s + k) / 2 ^ 32 :=
    div_word (x := 0) hst
  have hq : h / 2 ^ t < 2 ^ 32 := (Nat.div_le_self _ _).trans_lt (hh.trans (by norm_num))
  rw [div_word hst, hf, hcarry]
  refine ⟨(twice_mod_iff hq).trans (Nat.div_eq_zero_iff_lt (by positivity)), fun hlt => ?_⟩
  rw [Nat.div_eq_of_lt hlt]
  exact ⟨(lo + h % 2 ^ t * 2 ^ s + k) / 2 ^ 32, by ring, by ring⟩

theorem words_iff {h0 h1 h2 h3 h4 k0 k1 k2 k3 f0 f1 f2 f3 : ℕ} (b1 : h1 < 2 ^ 26) (b2 : h2 < 2 ^ 26)
    (b3 : h3 < 2 ^ 26)
    (e0 : f0 = h0 + h1 * 2 ^ 26 + k0) (e1 : f1 = h1 / 2 ^ 6 + h2 * 2 ^ 20 + k1 + f0 / 2 ^ 32)
    (e2 : f2 = h2 / 2 ^ 12 + h3 * 2 ^ 14 + k2 + f1 / 2 ^ 32)
    (e3 : f3 = h3 / 2 ^ 18 + h4 * 2 ^ 8 + k3 + f2 / 2 ^ 32)
    (en : n = h0 + 2 ^ 26 * h1 + 2 ^ 52 * h2 + 2 ^ 78 * h3 + 2 ^ 104 * h4 +
      (k0 + 2 ^ 32 * k1 + 2 ^ 64 * k2 + 2 ^ 96 * k3)) :
    (f0 % 2 ^ 32 = n % 2 ^ 32 ∧ f1 % 2 ^ 32 = n / 2 ^ 32 % 2 ^ 32 ∧
      f2 % 2 ^ 32 = n / 2 ^ 64 % 2 ^ 32 ∧ f3 % 2 ^ 32 = n / 2 ^ 96 % 2 ^ 32) ↔
        h1 < 2 ^ 6 ∧ h2 < 2 ^ 12 ∧ h3 < 2 ^ 18 := by
  have hn : n = h0 + h1 * 2 ^ 26 + k0 + 2 ^ 32 * (h2 * 2 ^ 20 + k1 + 2 ^ 32 * (h3 * 2 ^ 14 + k2 +
      2 ^ 32 * (h4 * 2 ^ 8 + k3))) := by
    rw [en]
    ring
  have hw0 : f0 % 2 ^ 32 = n % 2 ^ 32 := by rw [hn, e0, Nat.add_mul_mod_self_left]
  have hdiv : n / 2 ^ 64 = n / 2 ^ 32 / 2 ^ 32 := (Nat.div_div_eq_div_mul n (2 ^ 32) (2 ^ 32)).symm
  have hdiv' : n / 2 ^ 96 = n / 2 ^ 64 / 2 ^ 32 := (Nat.div_div_eq_div_mul n (2 ^ 64) (2 ^ 32)).symm
  rw [hdiv', hdiv]
  rw [e0, add_assoc (h1 / 2 ^ 6)] at e1
  obtain ⟨hw1, hn1⟩ := word_iff (x := h3 * 2 ^ 14 + k2 + 2 ^ 32 * (h4 * 2 ^ 8 + k3)) (s := 26) rfl b1 e1
  rw [← hn] at hw1 hn1
  by_cases l1 : h1 < 2 ^ 6
  · obtain ⟨c, hf1, hc⟩ := hn1 l1
    rw [← add_assoc] at hf1 hc
    rw [hf1, add_assoc (h2 / 2 ^ 12)] at e2
    obtain ⟨hw2, hn2⟩ := word_iff (x := h4 * 2 ^ 8 + k3) (s := 20) rfl b2 e2
    rw [← hc] at hw2 hn2
    by_cases l2 : h2 < 2 ^ 12
    · obtain ⟨d, hf2, hd⟩ := hn2 l2
      rw [← add_assoc] at hf2 hd
      rw [hf2, add_assoc (h3 / 2 ^ 18)] at e3
      obtain ⟨hw3, -⟩ := word_iff (x := 0) (s := 14) rfl b3 e3
      rw [mul_zero, add_zero, ← hd] at hw3
      rw [hw1, hw2, hw3]
      exact and_iff_right hw0
    · exact iff_of_false (fun h => l2 (hw2.1 h.2.2.1)) fun h => l2 h.2.1
  · exact iff_of_false (fun h => l1 (hw1.1 h.2.1)) fun h => l1 h.1

/-- The values that have nothing above the 32nd bit of the first three words of their limbs. -/
def NoHighBits (a : ℕ) : Prop :=
  a / 2 ^ 32 % 2 ^ 20 = 0 ∧ a / 2 ^ 64 % 2 ^ 14 = 0 ∧ a / 2 ^ 96 % 2 ^ 8 = 0

instance (a : ℕ) : Decidable (NoHighBits a) := inferInstanceAs (Decidable (_ ∧ _))

theorem noHighBits_iff {h : Poly1305.Limbs} (hh : Poly1305.Proper h) :
    NoHighBits h.val ↔ h.h1 < 2 ^ 6 ∧ h.h2 < 2 ^ 12 ∧ h.h3 < 2 ^ 18 := by
  obtain ⟨h0, h1, h2, h3, h4⟩ := h
  obtain ⟨b0, b1, b2, b3, -⟩ := hh
  dsimp only at b0 b1 b2 b3
  have e1 : Poly1305.Limbs.val ⟨h0, h1, h2, h3, h4⟩ / 2 ^ 32 =
      h1 / 2 ^ 6 + 2 ^ 20 * (h2 + 2 ^ 26 * h3 + 2 ^ 52 * h4) := by
    simp only [Poly1305.Limbs.val]
    omega
  have e2 : Poly1305.Limbs.val ⟨h0, h1, h2, h3, h4⟩ / 2 ^ 64 =
      h2 / 2 ^ 12 + 2 ^ 14 * (h3 + 2 ^ 26 * h4) := by
    simp only [Poly1305.Limbs.val]
    omega
  have e3 : Poly1305.Limbs.val ⟨h0, h1, h2, h3, h4⟩ / 2 ^ 96 = h3 / 2 ^ 18 + 2 ^ 8 * h4 := by
    simp only [Poly1305.Limbs.val]
    omega
  have l1 : h1 / 2 ^ 6 < 2 ^ 20 := by omega
  have l2 : h2 / 2 ^ 12 < 2 ^ 14 := by omega
  have l3 : h3 / 2 ^ 18 < 2 ^ 8 := by omega
  rw [NoHighBits, e1, e2, e3, Nat.add_mul_mod_self_left, Nat.add_mul_mod_self_left,
    Nat.add_mul_mod_self_left, Nat.mod_eq_of_lt l1, Nat.mod_eq_of_lt l2, Nat.mod_eq_of_lt l3]
  dsimp only
  omega

theorem toNat_word {x y : UInt32} (k : UInt32) {j : UInt64} (hj : j.toNat = m) (hm : m ≤ 26)
    (hx : x.toNat < 2 ^ m) (hy : y.toNat < 2 ^ 26) :
    ((x.toUInt64 ||| y.toUInt64 <<< j) + k.toUInt64).toNat = x.toNat + y.toNat * 2 ^ m + k.toNat := by
  have hk := k.toNat_lt
  have hpow : 2 ^ m ≤ 2 ^ 26 := Nat.pow_le_pow_right (by norm_num) hm
  have hmul : y.toNat * 2 ^ m ≤ 2 ^ 26 * 2 ^ 26 := Nat.mul_le_mul hy.le hpow
  have hshift : (y.toUInt64 <<< j).toNat = y.toNat * 2 ^ m := by
    rw [UInt64.toNat_shiftLeft, UInt32.toNat_toUInt64, hj, Nat.mod_eq_of_lt (by omega : m < 64),
      Nat.shiftLeft_eq, Nat.mod_eq_of_lt (by omega)]
  have hor : (x.toUInt64 ||| y.toUInt64 <<< j).toNat = x.toNat + y.toNat * 2 ^ m := by
    rw [UInt64.toNat_or, UInt32.toNat_toUInt64, hshift, Nat.or_comm, mul_comm, Bytes.or_low m hx,
      Nat.add_comm]
  rw [UInt64.toNat_add, hor, UInt32.toNat_toUInt64]
  omega

theorem toNat_add_high {x : UInt64} (y : UInt64) (hx : x.toNat < 2 ^ 63) :
    (x + y >>> 32).toNat = x.toNat + y.toNat / 2 ^ 32 := by
  have hy := y.toNat_lt
  have hshift : (y >>> 32).toNat = y.toNat / 2 ^ 32 := by
    rw [UInt64.toNat_shiftRight, Nat.shiftRight_eq_div_pow]
    rfl
  rw [UInt64.toNat_add, hshift]
  omega

theorem storeLe32_eq (f : UInt64) : storeLe32 f.toUInt32 = Bytes.le 4 f.toNat := by
  have hstore : storeLe32 f.toUInt32 = Bytes.le 4 f.toUInt32.toNat :=
    List.reverse_inj.1 (Bytes.store32_eq f.toUInt32)
  rw [hstore, UInt64.toNat_toUInt32]
  exact Bytes.le_inj.2 (Nat.mod_mod _ _)

theorem toNat_shiftRight32 (x : UInt32) {j : UInt32} (hj : j.toNat = m) (hm : m < 32) :
    (x >>> j).toNat = x.toNat / 2 ^ m := by
  rw [UInt32.toNat_shiftRight, hj, Nat.mod_eq_of_lt hm, Nat.shiftRight_eq_div_pow]

theorem words_eq_iff {a b c d : ℕ} :
    Bytes.le 4 a ++ (Bytes.le 4 b ++ (Bytes.le 4 c ++ Bytes.le 4 d)) = Bytes.le 16 n ↔
      a % 2 ^ 32 = n % 2 ^ 32 ∧ b % 2 ^ 32 = n / 2 ^ 32 % 2 ^ 32 ∧ c % 2 ^ 32 = n / 2 ^ 64 % 2 ^ 32 ∧
        d % 2 ^ 32 = n / 2 ^ 96 % 2 ^ 32 := by
  have hsplit : Bytes.le 16 n = Bytes.le 4 n ++ (Bytes.le 4 (n / 2 ^ 32) ++
      (Bytes.le 4 (n / 2 ^ 64) ++ Bytes.le 4 (n / 2 ^ 96))) := by
    have h1 := Bytes.le_add 4 12 n
    have h2 := Bytes.le_add 4 8 (n / 256 ^ 4)
    have h3 := Bytes.le_add 4 4 (n / 256 ^ 4 / 256 ^ 4)
    rw [h3] at h2
    rw [h2] at h1
    norm_num [Nat.div_div_eq_div_mul] at h1 ⊢
    exact h1
  have hlen (x y : ℕ) : (Bytes.le 4 x).length = (Bytes.le 4 y).length := by
    rw [Bytes.length_le, Bytes.length_le]
  have hcons {x y : ℕ} {l l' : List Byte} :
      Bytes.le 4 x ++ l = Bytes.le 4 y ++ l' ↔ x % 2 ^ 32 = y % 2 ^ 32 ∧ l = l' := by
    rw [List.append_eq_append_iff_of_size_eq_left (hlen x y), Bytes.le_inj]
    rfl
  rw [hsplit, hcons, hcons, hcons, Bytes.le_inj]
  rfl

/-- **The tag of limbs in range.** -/
theorem polyTag_eq_iff (hh : Poly1305.Proper h.nat) (key : List Byte) :
    polyTag h key = Bytes.le 16 (h.nat.val + Poly1305.keyS key) ↔ NoHighBits h.nat.val := by
  have ⟨b0, b1, b2, b3, b4⟩ := hh
  simp only [Limbs.nat] at b0 b1 b2 b3 b4
  have s1 := toNat_shiftRight32 h.h1 (j := 6) (m := 6) rfl (by norm_num)
  have s2 := toNat_shiftRight32 h.h2 (j := 12) (m := 12) rfl (by norm_num)
  have s3 := toNat_shiftRight32 h.h3 (j := 18) (m := 18) rfl (by norm_num)
  have e0 := toNat_word (loadLe32 (key.drop 16)) (j := 26) (m := 26) rfl le_rfl b0 b1
  have e1 := toNat_word (loadLe32 (key.drop 20)) (x := h.h1 >>> 6) (j := 20) (m := 20) rfl
    (by norm_num) (by rw [s1]; omega) b2
  have e2 := toNat_word (loadLe32 (key.drop 24)) (x := h.h2 >>> 12) (j := 14) (m := 14) rfl
    (by norm_num) (by rw [s2]; omega) b3
  have e3 := toNat_word (loadLe32 (key.drop 28)) (x := h.h3 >>> 18) (j := 8) (m := 8) rfl
    (by norm_num) (by rw [s3]; omega) b4
  have k0 := (loadLe32 (key.drop 16)).toNat_lt
  have k1 := (loadLe32 (key.drop 20)).toNat_lt
  have k2 := (loadLe32 (key.drop 24)).toNat_lt
  have k3 := (loadLe32 (key.drop 28)).toNat_lt
  rw [s1] at e1
  rw [s2] at e2
  rw [s3] at e3
  rw [polyTag]
  dsimp only
  generalize (h.h0.toUInt64 ||| h.h1.toUInt64 <<< 26) + (loadLe32 (key.drop 16)).toUInt64 = f0 at e0 ⊢
  generalize ((h.h1 >>> 6).toUInt64 ||| h.h2.toUInt64 <<< 20) + (loadLe32 (key.drop 20)).toUInt64 = w1
    at e1 ⊢
  generalize ((h.h2 >>> 12).toUInt64 ||| h.h3.toUInt64 <<< 14) + (loadLe32 (key.drop 24)).toUInt64 = w2
    at e2 ⊢
  generalize ((h.h3 >>> 18).toUInt64 ||| h.h4.toUInt64 <<< 8) + (loadLe32 (key.drop 28)).toUInt64 = w3
    at e3 ⊢
  have c1 := toNat_add_high (x := w1) f0 (by omega)
  generalize w1 + f0 >>> 32 = f1 at c1 ⊢
  have c2 := toNat_add_high (x := w2) f1 (by omega)
  generalize w2 + f1 >>> 32 = f2 at c2 ⊢
  have c3 := toNat_add_high (x := w3) f2 (by omega)
  generalize w3 + f2 >>> 32 = f3 at c3 ⊢
  rw [e1] at c1
  rw [e2] at c2
  rw [e3] at c3
  have hkey := ofLe_words (key.drop 16)
  simp only [List.drop_drop, Nat.reduceAdd] at hkey
  have hwords := words_iff b1 b2 b3 e0 c1 c2 c3 rfl
  have hsum : h.nat.val + Poly1305.keyS key = h.h0.toNat + 2 ^ 26 * h.h1.toNat + 2 ^ 52 * h.h2.toNat +
      2 ^ 78 * h.h3.toNat + 2 ^ 104 * h.h4.toNat + ((loadLe32 (key.drop 16)).toNat +
        2 ^ 32 * (loadLe32 (key.drop 20)).toNat + 2 ^ 64 * (loadLe32 (key.drop 24)).toNat +
        2 ^ 96 * (loadLe32 (key.drop 28)).toNat) := by
    rw [Poly1305.keyS, hkey]
    rfl
  have hlist : [f0, f1, f2, f3].flatMap (fun f => storeLe32 f.toUInt32) =
      Bytes.le 4 f0.toNat ++ (Bytes.le 4 f1.toNat ++ (Bytes.le 4 f2.toNat ++ Bytes.le 4 f3.toNat)) := by
    simp only [List.flatMap_cons, List.flatMap_nil, List.append_nil, storeLe32_eq]
  rw [hlist, hsum, words_eq_iff, hwords]
  exact (noHighBits_iff hh).symm

/-- **The tag is right exactly when the value of the polynomial has no such bits.** -/
theorem tnuPoly1305Mac_eq_iff (key msg : List Byte) :
    tnuPoly1305Mac key msg = Poly1305.mac key msg ↔ NoHighBits (Poly1305.acc key msg) := by
  obtain ⟨hval, hproper⟩ := val_polyReduce key msg
  have htag := polyTag_eq_iff hproper key
  rw [hval] at htag
  exact htag

/-- The key of the vector in `tnu_tls_selftest`. -/
def selfTestKey : List Byte :=
  [0x85, 0xd6, 0xbe, 0x78, 0x57, 0x55, 0x6d, 0x33, 0x7f, 0x44, 0x52, 0xfe, 0x42, 0xd5, 0x06, 0xa8,
    0x01, 0x03, 0x80, 0x8a, 0xfb, 0x0d, 0xb2, 0xfd, 0x4a, 0xbf, 0xf6, 0xaf, 0x41, 0x49, 0xf5, 0x1b]

/-- The tag that the self test expects is the right one, and it is not the one that is computed. -/
theorem not_poly1305 :
    Poly1305.mac selfTestKey (lit "Cryptographic Forum Research Group") =
        [0xa8, 0x06, 0x1d, 0xc1, 0x30, 0x51, 0x36, 0xc6, 0xc2, 0x2b, 0x8b, 0xaf, 0x0c, 0x01, 0x27, 0xa9] ∧
      tnuPoly1305Mac selfTestKey (lit "Cryptographic Forum Research Group") ≠
        Poly1305.mac selfTestKey (lit "Cryptographic Forum Research Group") := by
  decide +kernel

end Tnu.Tls
