/-
**SHA-256.**

The hash function of the Secure Hash Standard: its logical functions, the schedule of a block as a
recurrence, the rounds, and the digest of a message of any length.

Main definitions:

* `Sha2.schedule`, `Sha2.round`, `Sha2.compress` — the function on blocks.

Main results:

* `Sha2.foldl_schedule` — a program that extends a list of words computes the schedule.
-/

import Tnu.Lib.Digest

set_option autoImplicit false

namespace Sha2

/-! ### The function on blocks -/

def rotr (x n : UInt32) : UInt32 := x >>> n ||| x <<< (32 - n)

def ch (x y z : UInt32) : UInt32 := (x &&& y) ^^^ (~~~x &&& z)

def maj (x y z : UInt32) : UInt32 := (x &&& y) ^^^ (x &&& z) ^^^ (y &&& z)

def bigSigma0 (x : UInt32) : UInt32 := rotr x 2 ^^^ rotr x 13 ^^^ rotr x 22

def bigSigma1 (x : UInt32) : UInt32 := rotr x 6 ^^^ rotr x 11 ^^^ rotr x 25

def smallSigma0 (x : UInt32) : UInt32 := rotr x 7 ^^^ rotr x 18 ^^^ x >>> 3

def smallSigma1 (x : UInt32) : UInt32 := rotr x 17 ^^^ rotr x 19 ^^^ x >>> 10

/-- The constants: the first 32 bits of the fractional parts of the cube roots of the first 64 primes. -/
def k : List UInt32 :=
  [0x428a2f98, 0x71374491, 0xb5c0fbcf, 0xe9b5dba5, 0x3956c25b, 0x59f111f1,
   0x923f82a4, 0xab1c5ed5, 0xd807aa98, 0x12835b01, 0x243185be, 0x550c7dc3,
   0x72be5d74, 0x80deb1fe, 0x9bdc06a7, 0xc19bf174, 0xe49b69c1, 0xefbe4786,
   0x0fc19dc6, 0x240ca1cc, 0x2de92c6f, 0x4a7484aa, 0x5cb0a9dc, 0x76f988da,
   0x983e5152, 0xa831c66d, 0xb00327c8, 0xbf597fc7, 0xc6e00bf3, 0xd5a79147,
   0x06ca6351, 0x14292967, 0x27b70a85, 0x2e1b2138, 0x4d2c6dfc, 0x53380d13,
   0x650a7354, 0x766a0abb, 0x81c2c92e, 0x92722c85, 0xa2bfe8a1, 0xa81a664b,
   0xc24b8b70, 0xc76c51a3, 0xd192e819, 0xd6990624, 0xf40e3585, 0x106aa070,
   0x19a4c116, 0x1e376c08, 0x2748774c, 0x34b0bcb5, 0x391c0cb3, 0x4ed8aa4a,
   0x5b9cca4f, 0x682e6ff3, 0x748f82ee, 0x78a5636f, 0x84c87814, 0x8cc70208,
   0x90befffa, 0xa4506ceb, 0xbef9a3f7, 0xc67178f2]

def primes : List ℕ := (List.range 312).filter fun n => 2 ≤ n ∧ ∀ d < n, 2 ≤ d → n % d ≠ 0

theorem primes_eq : primes = (List.range 312).filter fun n => 2 ≤ n ∧ ∀ d < 18, 2 ≤ d → d < n → n % d ≠ 0 := by
  refine List.filter_congr fun n hn => decide_eq_decide.mpr (and_congr_right fun h2 => ⟨fun h d _ hd hlt => h d hlt hd, ?_⟩)
  intro h d hlt hd hmod
  have hlarge : n < 312 := List.mem_range.mp hn
  obtain ⟨k, rfl⟩ := Nat.dvd_of_mod_eq_zero hmod
  have hk : 2 ≤ k := by
    rcases k with _ | _ | k
    · omega
    · omega
    · omega
  -- one of two divisors is small
  rcases Nat.lt_or_ge d 18 with hsmall | hbig
  · exact h d hsmall hd hlt hmod
  · have hk18 : k < 18 := by
      by_contra hge
      have hprod := Nat.mul_le_mul hbig (Nat.not_lt.mp hge)
      omega
    exact h k hk18 hk (by nlinarith) (Nat.mul_mod_left d k)

example : primes.length = 64 ∧ ∀ x ∈ k.zip primes, ∃ c < 7,
    (c * 2 ^ 32 + x.1.toNat) ^ 3 ≤ x.2 * 2 ^ 96 ∧ x.2 * 2 ^ 96 < (c * 2 ^ 32 + x.1.toNat + 1) ^ 3 := by
  rw [primes_eq]
  decide +kernel

/-- The eight words of the state. -/
@[ext] structure State where
  a : UInt32
  b : UInt32
  c : UInt32
  d : UInt32
  e : UInt32
  f : UInt32
  g : UInt32
  h : UInt32

/-- The initial state: the first 32 bits of the fractional parts of the square roots of eight primes. -/
def init : State :=
  ⟨0x6a09e667, 0xbb67ae85, 0x3c6ef372, 0xa54ff53a, 0x510e527f, 0x9b05688c, 0x1f83d9ab, 0x5be0cd19⟩

example : ∀ x ∈ [init.a, init.b, init.c, init.d, init.e, init.f, init.g, init.h].zip primes, ∃ c < 5,
    (c * 2 ^ 32 + x.1.toNat) ^ 2 ≤ x.2 * 2 ^ 64 ∧ x.2 * 2 ^ 64 < (c * 2 ^ 32 + x.1.toNat + 1) ^ 2 := by
  rw [primes_eq]
  decide +kernel

def schedule (block : List UInt8) (t : ℕ) : UInt32 :=
  if t < 16 then UInt32.ofNat (Bytes.beWord (block.drop (t * 4)))
  else
    smallSigma1 (schedule block (t - 2)) + schedule block (t - 7) + smallSigma0 (schedule block (t - 15)) +
      schedule block (t - 16)
termination_by t

def round (block : List UInt8) (s : State) (t : ℕ) : State :=
  let t1 := s.h + bigSigma1 s.e + ch s.e s.f s.g + k.getD t 0 + schedule block t
  let t2 := bigSigma0 s.a + maj s.a s.b s.c
  ⟨t1 + t2, s.a, s.b, s.c, s.d + t1, s.e, s.f, s.g⟩

def compress (s : State) (block : List UInt8) : State :=
  let v := (List.range 64).foldl (round block) s
  ⟨v.a + s.a, v.b + s.b, v.c + s.c, v.d + s.d, v.e + s.e, v.f + s.f, v.g + s.g, v.h + s.h⟩

/-- **The digest of a message**; the number of its bits is written in 64 bits. -/
def sha256 (m : List UInt8) : List UInt8 :=
  let s := Digest.hash compress init m
  [s.a, s.b, s.c, s.d, s.e, s.f, s.g, s.h].flatMap fun x => Bytes.be 4 x.toNat

/-! ### Programs -/

theorem foldl_schedule {block : List UInt8} {next : List UInt32 → ℕ → UInt32} {w : List UInt32}
    (hw : w = (List.range 16).map (schedule block))
    (hnext : ∀ t, 16 ≤ t → next ((List.range t).map (schedule block)) t = schedule block t) (n : ℕ) :
    (List.range' 16 n).foldl (fun w t => w ++ [next w t]) w =
      (List.range (16 + n)).map (schedule block) := by
  induction n with
  | zero => exact hw
  | succ n ih =>
    rw [List.range'_concat, List.foldl_append, ih, List.foldl_cons, List.foldl_nil, Nat.one_mul,
      hnext _ (Nat.le_add_right 16 n), ← Nat.add_assoc, List.range_succ, List.map_append,
      List.map_singleton]

theorem getD_schedule {block : List UInt8} {n t : ℕ} (h : t < n) :
    ((List.range n).map (schedule block)).getD t 0 = schedule block t := by
  rw [List.getD_eq_getElem?_getD, List.getElem?_map, List.getElem?_range h]
  rfl

end Sha2
