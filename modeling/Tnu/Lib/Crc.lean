/-
**Cyclic redundancy checks.**

A check register takes the bits of a message one by one, lowest bit of a byte first: it moves down one
place, and the polynomial goes in when the bit that falls out differs from the bit that comes in.
Programs take a byte at once: they put it into the register and let the bits fall out.  This module
says that both come to the same, for registers of any width.

Main definitions:

* `Crc.feed`, `Crc.serial` — one bit, and all bits, into the register;
* `Crc.shift` — the step of a program that has put its bits in before.

Main results:

* `Crc.iterate_shift_xor` — **bits put in at once are bits put in one by one**;
* `Crc.foldl_shift` — a message byte by byte.
-/

import Mathlib.Data.List.Basic
import Mathlib.Tactic

set_option autoImplicit false

namespace Crc

variable {w : ℕ}

def feed (poly reg : BitVec w) (bit : Bool) : BitVec w :=
  if (reg.getLsbD 0 ^^ bit) = true then reg >>> 1 ^^^ poly else reg >>> 1

def serial (poly reg : BitVec w) (bits : List Bool) : BitVec w := bits.foldl (feed poly) reg

def shift (poly reg : BitVec w) : BitVec w := feed poly reg false

def bitsOf (b : UInt8) : List Bool := (List.range 8).map b.toBitVec.getLsbD

/-- The check of a message: the register starts with ones, and is inverted at the end. -/
def check (poly : BitVec w) (message : List UInt8) : BitVec w :=
  ~~~serial poly (BitVec.allOnes w) (message.flatMap bitsOf)

variable (poly reg : BitVec w)

@[simp] theorem serial_nil : serial poly reg [] = reg := rfl

theorem serial_append (bits bits' : List Bool) :
    serial poly reg (bits ++ bits') = serial poly (serial poly reg bits) bits' :=
  List.foldl_append

/-- **A step on a register with bits put in**: the lowest of them comes in, the others stay put in. -/
theorem shift_xor (b : BitVec w) :
    shift poly (reg ^^^ b) = feed poly reg (b.getLsbD 0) ^^^ b >>> 1 := by
  rw [shift, feed, feed, BitVec.getLsbD_xor, BitVec.ushiftRight_xor_distrib, Bool.xor_false]
  split
  · rw [BitVec.xor_assoc, BitVec.xor_assoc, BitVec.xor_comm poly]
  · rfl

/-- **Bits put in at once are bits put in one by one.** -/
theorem iterate_shift_xor (b : BitVec w) (n : ℕ) :
    (shift poly)^[n] (reg ^^^ b) =
      serial poly reg ((List.range n).map b.getLsbD) ^^^ b >>> n := by
  induction n with
  | zero => rfl
  | succ n ih =>
    rw [Function.iterate_succ_apply', ih, shift_xor, BitVec.getLsbD_ushiftRight, Nat.add_zero,
      ← BitVec.shiftRight_add, List.range_succ, List.map_append, serial_append]
    rfl

theorem iterate_shift_byte (hw : 8 ≤ w) (b : UInt8) :
    (shift poly)^[8] (reg ^^^ b.toBitVec.setWidth w) = serial poly reg (bitsOf b) := by
  have hgone : b.toBitVec.setWidth w >>> 8 = 0#w := by
    refine BitVec.eq_of_getLsbD_eq fun i _ => ?_
    rw [BitVec.getLsbD_ushiftRight, BitVec.getLsbD_setWidth, BitVec.getLsbD_zero,
      BitVec.getLsbD_of_ge _ _ (Nat.le_add_right 8 i), Bool.and_false]
  have hbits : (List.range 8).map (b.toBitVec.setWidth w).getLsbD = bitsOf b := by
    refine List.map_congr_left fun i hi => ?_
    rw [BitVec.getLsbD_setWidth, decide_eq_true ((List.mem_range.1 hi).trans_le hw), Bool.true_and]
  rw [iterate_shift_xor, hgone, hbits, BitVec.xor_zero]

/-- **A message byte by byte.** -/
theorem foldl_shift (hw : 8 ≤ w) (message : List UInt8) :
    message.foldl (fun reg b => (shift poly)^[8] (reg ^^^ b.toBitVec.setWidth w)) reg =
      serial poly reg (message.flatMap bitsOf) := by
  induction message generalizing reg with
  | nil => rfl
  | cons b message ih =>
    rw [List.foldl_cons, iterate_shift_byte poly reg hw, ih, List.flatMap_cons, serial_append]

end Crc
