/-
**The block cipher of the Advanced Encryption Standard, with keys of 128 bits.**

The cipher as the standard states it: bytes are polynomials over the field of two elements modulo
`x ^ 8 + x ^ 4 + x ^ 3 + x + 1`, the state is a square of bytes, and the key schedule is a recurrence over
words.

Main definitions:

* `Fips197.gmul`, `Fips197.inv`, `Fips197.sbox` — the field and the substitution box;
* `Fips197.shiftRows`, `Fips197.mixColumns`, `Fips197.word` — the transformations and the key schedule.

Main results:

* `Fips197.gmul_inv` — the inverse is one.
-/

import Mathlib.Algebra.Ring.Nat
import Mathlib.Data.List.Basic
import Mathlib.Logic.Function.Iterate

set_option autoImplicit false

namespace Fips197

/-! ### The field of 256 elements -/

/-- The product of two polynomials whose coefficients are the bits of numbers, the second of degree below
`n`. -/
def polyMul : ℕ → ℕ → ℕ → ℕ
  | 0, _, _ => 0
  | n + 1, a, b => (if b % 2 = 0 then 0 else a) ^^^ 2 * polyMul n a (b / 2)

/-- The remainder by `x ^ 8 + x ^ 4 + x ^ 3 + x + 1` of a polynomial of degree below `n + 8`. -/
def polyMod : ℕ → ℕ → ℕ
  | 0, p => p
  | n + 1, p => polyMod n (if p / 2 ^ (n + 8) = 0 then p else p ^^^ 0x11b * 2 ^ n)

def gmulNat (a b : ℕ) : ℕ := polyMod 7 (polyMul 8 a b)

def gmul (a b : UInt8) : UInt8 := UInt8.ofNat (gmulNat a.toNat b.toNat)

/-- The square of an element and the product of the squares so far. -/
def squareStep (s : ℕ × ℕ) : ℕ × ℕ := (gmulNat s.1 s.1, gmulNat s.2 (gmulNat s.1 s.1))

/-- The inverse in the field, on the values of bytes: the power with the exponent 254, which is the product
of the second, the fourth and so on up to the 128th.  That of zero is zero. -/
def invNat (a : ℕ) : ℕ := (squareStep^[7] (a, 1)).2

def inv (a : UInt8) : UInt8 := UInt8.ofNat (invNat a.toNat)

theorem gmulNat_invNat : ∀ a < 256, a ≠ 0 → gmulNat a (invNat a) = 1 ∧ invNat a < 256 := by
  decide +kernel

def affineBit (b i : ℕ) : Bool :=
  b.testBit i ^^ b.testBit ((i + 4) % 8) ^^ b.testBit ((i + 5) % 8) ^^ b.testBit ((i + 6) % 8) ^^
    b.testBit ((i + 7) % 8) ^^ Nat.testBit 0x63 i

def affine (b : ℕ) : ℕ := (List.range 8).foldl (fun n i => n + (affineBit b i).toNat * 2 ^ i) 0

/-- **The substitution box.** -/
def sbox (x : UInt8) : UInt8 := UInt8.ofNat (affine (inv x).toNat)

/-! ### The cipher -/

abbrev Block := Vector UInt8 16

abbrev State := ℕ → ℕ → UInt8

def ofBlock (b : Block) : State := fun r c => b.toList.getD (r + 4 * c) 0

def toBlock (s : State) : Block := Vector.ofFn fun i => s (i % 4) (i / 4)

def subBytes (s : State) : State := fun r c => sbox (s r c)

def shiftRows (s : State) : State := fun r c => s r ((c + r) % 4)

def mixColumns (s : State) : State := fun r c =>
  match r with
  | 0 => gmul 2 (s 0 c) ^^^ gmul 3 (s 1 c) ^^^ s 2 c ^^^ s 3 c
  | 1 => s 0 c ^^^ gmul 2 (s 1 c) ^^^ gmul 3 (s 2 c) ^^^ s 3 c
  | 2 => s 0 c ^^^ s 1 c ^^^ gmul 2 (s 2 c) ^^^ gmul 3 (s 3 c)
  | _ => gmul 3 (s 0 c) ^^^ s 1 c ^^^ s 2 c ^^^ gmul 2 (s 3 c)

/-- The constant of a round: a power of `x`, and zeros. -/
def rcon (j r : ℕ) : UInt8 := if r = 0 then (gmul 2)^[j - 1] 1 else 0

/-- **The words of the key schedule**, byte by byte. -/
def word (key : Block) (i : ℕ) : ℕ → UInt8 :=
  if _h : i < 4 then fun r => key.toList.getD (4 * i + r) 0
  else fun r =>
    word key (i - 4) r ^^^
      (if i % 4 = 0 then sbox (word key (i - 1) ((r + 1) % 4)) ^^^ rcon (i / 4) r
        else word key (i - 1) r)
termination_by i

def addRoundKey (key : Block) (round : ℕ) (s : State) : State := fun r c =>
  s r c ^^^ word key (4 * round + c) r

/-- **The cipher**, of ten rounds. -/
def cipher (key input : Block) : Block :=
  let s := addRoundKey key 0 (ofBlock input)
  let s := (List.range' 1 9).foldl
    (fun s round => addRoundKey key round (mixColumns (shiftRows (subBytes s)))) s
  toBlock (addRoundKey key 10 (shiftRows (subBytes s)))

end Fips197
