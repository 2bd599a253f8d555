/-
**The fast block functions of the kernel.**

`memset`, `memcpy` and `memmove` of `kernel/lib/string.c` go byte by byte up to an address that is
divisible by eight, then word by word with one string instruction, then byte by byte again; a
`memmove` to a higher address does the same from the end.  A word is loaded as a whole before it is
stored.  Addresses are integers here: those of one object never wrap.

Main definitions:

* `memset`, `memcpy`, `memmove` — the functions.

Main result:

* `block_functions_bytewise` — **the functions do what copying byte by byte would**.
-/

import Tnu.CString
import Tnu.Lib.Moves

set_option autoImplicit false

namespace Tnu.Fast

open Moves

/-! ### The functions -/

/-- The memory, the pointers `d` and `s`, and the count `n`. -/
structure Regs where
  mem : ℤ → Byte
  d : ℤ
  s : ℤ
  n : ℕ

/-- The memory after one byte, or one word, is stored at `d`, read at `s`. -/
abbrev Stores := (ℤ → Byte) → ℤ → ℤ → ℤ → Byte

section Loops

variable (one eight : Stores)

/-- `while (n > 0 && (d & 7)) { *d++ = …; n--; }`. -/
def headUp (r : Regs) : Regs :=
  if 0 < r.n ∧ r.d % 8 ≠ 0 then headUp ⟨one r.mem r.d r.s, r.d + 1, r.s + 1, r.n - 1⟩ else r
  termination_by r.n

/-- The string instruction, `count` words: the pointers move by `step` each time. -/
def rep (step : ℤ) : ℕ → Regs → Regs
  | 0, r => r
  | count + 1, r => rep step count ⟨eight r.mem r.d r.s, r.d + step, r.s + step, r.n⟩

/-- `if (n >= 8) { … n &= 7; }`. -/
def bulkUp (r : Regs) : Regs :=
  if 8 ≤ r.n then { rep eight 8 (r.n / 8) r with n := r.n % 8 } else r

/-- `while (n--) *d++ = …;`. -/
def tailUp (r : Regs) : Regs :=
  if r.n = 0 then r else tailUp ⟨one r.mem r.d r.s, r.d + 1, r.s + 1, r.n - 1⟩
  termination_by r.n

def forward (r : Regs) : Regs := tailUp one (bulkUp eight (headUp one r))

/-- `while (n > 0 && (d & 7)) { *--d = *--s; n--; }`. -/
def headDown (r : Regs) : Regs :=
  if 0 < r.n ∧ r.d % 8 ≠ 0 then
    headDown ⟨one r.mem (r.d - 1) (r.s - 1), r.d - 1, r.s - 1, r.n - 1⟩
  else r
  termination_by r.n

/-- The words from the end: the pointers go to the last word before, and back behind it after. -/
def bulkDown (r : Regs) : Regs :=
  if 8 ≤ r.n then
    let r' := rep eight (-8) (r.n / 8) { r with d := r.d - 8, s := r.s - 8 }
    { r' with d := r'.d + 8, s := r'.s + 8, n := r.n % 8 }
  else r

def tailDown (r : Regs) : Regs :=
  if r.n = 0 then r
  else tailDown ⟨one r.mem (r.d - 1) (r.s - 1), r.d - 1, r.s - 1, r.n - 1⟩
  termination_by r.n

def backward (r : Regs) : Regs := tailDown one (bulkDown eight (headDown one r))

end Loops

/-- `(uint64_t)v * 0x0101010101010101`. -/
def wordOf (v : Byte) : UInt64 := v.toUInt64 * 0x0101010101010101

def storeWord (m : ℤ → Byte) (w : UInt64) (d : ℤ) : ℤ → Byte := fun b =>
  if d ≤ b ∧ b < d + 8 then (w >>> (8 * (b - d).toNat.toUInt64)).toUInt8 else m b

def memset (m : ℤ → Byte) (dest : ℤ) (v : Byte) (n : ℕ) : ℤ → Byte :=
  (forward (fun m d _ => Function.update m d v) (fun m d _ => storeWord m (wordOf v) d)
    ⟨m, dest, dest, n⟩).mem

/-- `*d = *s`. -/
def copyByte (m : ℤ → Byte) (d s : ℤ) : ℤ → Byte := Function.update m d (m s)

/-- A word loaded at `s` is stored at `d`. -/
def copyWord (m : ℤ → Byte) (d s : ℤ) : ℤ → Byte := move m 8 d s

def memcpy (m : ℤ → Byte) (dest src : ℤ) (n : ℕ) : ℤ → Byte :=
  (forward copyByte copyWord ⟨m, dest, src, n⟩).mem

def memmove (m : ℤ → Byte) (dest src : ℤ) (n : ℕ) : ℤ → Byte :=
  if dest = src ∨ n = 0 then m
  else if dest < src then (forward copyByte copyWord ⟨m, dest, src, n⟩).mem
  else (backward copyByte copyWord ⟨m, dest + n, src + n, n⟩).mem

/-! ### What is done -/

/-- The bytes from `lo` to `hi` are what they should become, the others what they were. -/
def Done (want m₀ : ℤ → Byte) (lo hi : ℤ) (m : ℤ → Byte) : Prop :=
  ∀ b, m b = if lo ≤ b ∧ b < hi then want b else m₀ b

variable {want m₀ m : ℤ → Byte} {lo hi way : ℤ} {one eight : Stores} {r : Regs} {k : ℕ}

theorem done_nothing (want m : ℤ → Byte) (a : ℤ) : Done want m a a m := fun b =>
  (if_neg (by omega)).symm

/-- Storing `k` bytes behind what is done does `k` more, as far as `hi`. -/
def StoresUp (want m₀ : ℤ → Byte) (lo hi way : ℤ) (k : ℕ) (store : Stores) : Prop :=
  ∀ m d, lo ≤ d → d + k ≤ hi → Done want m₀ lo d m →
    Done want m₀ lo (d + k) (store m d (d + way))

/-- Storing `k` bytes in front of what is done does `k` more, as far as `lo`. -/
def StoresDown (want m₀ : ℤ → Byte) (lo hi way : ℤ) (k : ℕ) (store : Stores) : Prop :=
  ∀ m d, lo ≤ d → d + k ≤ hi → Done want m₀ (d + k) hi m →
    Done want m₀ d hi (store m d (d + way))

/-- Going up: what is in front of `d` is done, and `n` bytes are left. -/
structure GoesUp (want m₀ : ℤ → Byte) (lo hi way : ℤ) (r : Regs) : Prop where
  done : Done want m₀ lo r.d r.mem
  low : lo ≤ r.d
  source : r.s = r.d + way
  left : r.d + r.n = hi

/-- Going down: what is behind `d` is done, and `n` bytes are left. -/
structure GoesDown (want m₀ : ℤ → Byte) (lo hi way : ℤ) (r : Regs) : Prop where
  done : Done want m₀ r.d hi r.mem
  high : r.d ≤ hi
  source : r.s = r.d + way
  left : lo + r.n = r.d

theorem GoesUp.store (h : GoesUp want m₀ lo hi way r) (hone : StoresUp want m₀ lo hi way 1 one)
    (hn : 0 < r.n) : GoesUp want m₀ lo hi way ⟨one r.mem r.d r.s, r.d + 1, r.s + 1, r.n - 1⟩ := by
  obtain ⟨hdone, hlow, hsource, hleft⟩ := h
  refine ⟨?_, by change lo ≤ r.d + 1; omega, by change r.s + 1 = r.d + 1 + way; omega, ?_⟩
  · rw [hsource]
    exact hone r.mem r.d hlow (by omega) hdone
  · change r.d + 1 + ((r.n - 1 : ℕ) : ℤ) = hi
    omega

theorem GoesDown.store (h : GoesDown want m₀ lo hi way r) (hone : StoresDown want m₀ lo hi way 1 one)
    (hn : 0 < r.n) :
    GoesDown want m₀ lo hi way ⟨one r.mem (r.d - 1) (r.s - 1), r.d - 1, r.s - 1, r.n - 1⟩ := by
  obtain ⟨hdone, hhigh, hsource, hleft⟩ := h
  have hat : r.s - 1 = r.d - 1 + way := by omega
  refine ⟨?_, by change r.d - 1 ≤ hi; omega, hat, ?_⟩
  · rw [hat]
    refine hone r.mem (r.d - 1) (by omega) (by push_cast; omega) ?_
    rwa [Nat.cast_one, sub_add_cancel]
  · change lo + ((r.n - 1 : ℕ) : ℤ) = r.d - 1
    omega

theorem GoesUp.headUp (h : GoesUp want m₀ lo hi way r) (hone : StoresUp want m₀ lo hi way 1 one) :
    GoesUp want m₀ lo hi way (headUp one r) := by
  fun_induction Fast.headUp one r with
  | case1 r hmore ih => exact ih (h.store hone hmore.1)
  | case2 r _ => exact h

theorem GoesUp.tailUp (h : GoesUp want m₀ lo hi way r) (hone : StoresUp want m₀ lo hi way 1 one) :
    Done want m₀ lo hi (tailUp one r).mem := by
  fun_induction Fast.tailUp one r with
  | case1 r hn =>
    have hend : r.d = hi := by
      have hleft := h.left
      omega
    exact hend ▸ h.done
  | case2 r hn ih => exact ih (h.store hone (Nat.pos_of_ne_zero hn))

theorem GoesDown.headDown (h : GoesDown want m₀ lo hi way r)
    (hone : StoresDown want m₀ lo hi way 1 one) : GoesDown want m₀ lo hi way (headDown one r) := by
  fun_induction Fast.headDown one r with
  | case1 r hmore ih => exact ih (h.store hone hmore.1)
  | case2 r _ => exact h

theorem GoesDown.tailDown (h : GoesDown want m₀ lo hi way r)
    (hone : StoresDown want m₀ lo hi way 1 one) : Done want m₀ lo hi (tailDown one r).mem := by
  fun_induction Fast.tailDown one r with
  | case1 r hn =>
    have hend : r.d = lo := by
      have hleft := h.left
      omega
    exact hend ▸ h.done
  | case2 r hn ih => exact ih (h.store hone (Nat.pos_of_ne_zero hn))

theorem rep_up (height : StoresUp want m₀ lo hi way 8 eight) (count : ℕ) {r : Regs}
    (hdone : Done want m₀ lo r.d r.mem) (hlow : lo ≤ r.d) (hsource : r.s = r.d + way)
    (hfit : r.d + 8 * count ≤ hi) :
    Done want m₀ lo (rep eight 8 count r).d (rep eight 8 count r).mem ∧
      (rep eight 8 count r).d = r.d + 8 * count ∧
      (rep eight 8 count r).s = (rep eight 8 count r).d + way := by
  induction count generalizing r with
  | zero => exact ⟨hdone, by simp [rep], hsource⟩
  | succ count ih =>
    push_cast at hfit
    have hstep := height r.mem r.d hlow (by push_cast; omega) hdone
    rw [← hsource] at hstep
    obtain ⟨hdone', hd, hs⟩ := ih (r := ⟨eight r.mem r.d r.s, r.d + 8, r.s + 8, r.n⟩) hstep
      (by change lo ≤ r.d + 8; omega) (by change r.s + 8 = r.d + 8 + way; omega)
      (by change r.d + 8 + 8 * (count : ℤ) ≤ hi; omega)
    refine ⟨hdone', hd.trans ?_, hs⟩
    change r.d + 8 + 8 * (count : ℤ) = _
    push_cast
    ring

theorem rep_down (height : StoresDown want m₀ lo hi way 8 eight) (count : ℕ) {r : Regs}
    (hdone : Done want m₀ (r.d + 8) hi r.mem) (hhigh : r.d + 8 ≤ hi) (hsource : r.s = r.d + way)
    (hfit : lo + 8 * count ≤ r.d + 8) :
    Done want m₀ ((rep eight (-8) count r).d + 8) hi (rep eight (-8) count r).mem ∧
      (rep eight (-8) count r).d = r.d - 8 * count ∧
      (rep eight (-8) count r).s = (rep eight (-8) count r).d + way := by
  induction count generalizing r with
  | zero => exact ⟨hdone, by simp [rep], hsource⟩
  | succ count ih =>
    push_cast at hfit
    have hstep := height r.mem r.d (by omega) hhigh hdone
    rw [← hsource] at hstep
    obtain ⟨hdone', hd, hs⟩ := ih (r := ⟨eight r.mem r.d r.s, r.d + -8, r.s + -8, r.n⟩)
      (by rwa [show (⟨eight r.mem r.d r.s, r.d + -8, r.s + -8, r.n⟩ : Regs).d + 8 = r.d by
        change r.d + -8 + 8 = r.d; omega])
      (by change r.d + -8 + 8 ≤ hi; omega) (by change r.s + -8 = r.d + -8 + way; omega)
      (by change lo + 8 * (count : ℤ) ≤ r.d + -8 + 8; omega)
    refine ⟨hdone', hd.trans ?_, hs⟩
    change r.d + -8 - 8 * (count : ℤ) = _
    push_cast
    ring

theorem GoesUp.bulkUp (h : GoesUp want m₀ lo hi way r) (height : StoresUp want m₀ lo hi way 8 eight) :
    GoesUp want m₀ lo hi way (bulkUp eight r) := by
  have hleft := h.left
  rw [Fast.bulkUp]
  split_ifs with hn
  · obtain ⟨hdone, hd, hs⟩ := rep_up height (r.n / 8) h.done h.low h.source (by omega)
    have hlow := h.low
    refine ⟨hdone, ?_, hs, ?_⟩
    · change lo ≤ (rep eight 8 (r.n / 8) r).d
      omega
    · change (rep eight 8 (r.n / 8) r).d + ((r.n % 8 : ℕ) : ℤ) = hi
      omega
  · exact h

theorem GoesDown.bulkDown (h : GoesDown want m₀ lo hi way r)
    (height : StoresDown want m₀ lo hi way 8 eight) :
    GoesDown want m₀ lo hi way (bulkDown eight r) := by
  have hleft := h.left
  rw [Fast.bulkDown]
  split_ifs with hn
  · obtain ⟨hdone, hd, hs⟩ := rep_down height (r.n / 8) (r := { r with d := r.d - 8, s := r.s - 8 })
      (by change Done want m₀ (r.d - 8 + 8) hi r.mem; rw [sub_add_cancel]; exact h.done)
      (by change r.d - 8 + 8 ≤ hi; have := h.high; omega)
      (by change r.s - 8 = r.d - 8 + way; have := h.source; omega)
      (by change lo + 8 * ((r.n / 8 : ℕ) : ℤ) ≤ r.d - 8 + 8; omega)
    have hhigh := h.high
    change _ = r.d - 8 - 8 * ((r.n / 8 : ℕ) : ℤ) at hd
    refine ⟨hdone, ?_, ?_, ?_⟩
    · change (rep eight (-8) (r.n / 8) { r with d := r.d - 8, s := r.s - 8 }).d + 8 ≤ hi
      omega
    · change _ + 8 = _ + 8 + way
      omega
    · change lo + ((r.n % 8 : ℕ) : ℤ) = _ + 8
      omega
  · exact h

/-- **Head, words and tail** going up are the whole range. -/
theorem done_forward (hone : StoresUp want m₀ lo (lo + k) way 1 one)
    (height : StoresUp want m₀ lo (lo + k) way 8 eight) :
    Done want m₀ lo (lo + k) (forward one eight ⟨m₀, lo, lo + way, k⟩).mem := by
  have hstart : GoesUp want m₀ lo (lo + k) way ⟨m₀, lo, lo + way, k⟩ :=
    ⟨done_nothing want m₀ lo, le_rfl, rfl, rfl⟩
  exact ((hstart.headUp hone).bulkUp height).tailUp hone

/-- **Head, words and tail** going down are the whole range. -/
theorem done_backward (hone : StoresDown want m₀ lo (lo + k) way 1 one)
    (height : StoresDown want m₀ lo (lo + k) way 8 eight) :
    Done want m₀ lo (lo + k) (backward one eight ⟨m₀, lo + k, lo + k + way, k⟩).mem := by
  have hstart : GoesDown want m₀ lo (lo + k) way ⟨m₀, lo + k, lo + k + way, k⟩ :=
    ⟨done_nothing want m₀ (lo + k), le_rfl, rfl, rfl⟩
  exact ((hstart.headDown hone).bulkDown height).tailDown hone

/-! ### Bytes and words -/

theorem copyByte_eq : copyByte = fun m d s => move m 1 d s := by
  funext m d s b
  rw [copyByte, move]
  split_ifs with h
  · obtain rfl : b = d := by omega
    rw [Function.update_self, sub_self, zero_add]
  · exact Function.update_of_ne (by omega) _ _

theorem byte_wordOf (v : Byte) {i : ℕ} (hi : i < 8) :
    (wordOf v >>> (8 * i.toUInt64)).toUInt8 = v := by
  have hall : ∀ n < 256, ∀ i < 8,
      (wordOf (UInt8.ofNat n) >>> (8 * Nat.toUInt64 i)).toUInt8 = UInt8.ofNat n := by
    decide +kernel
  simpa using hall v.toNat v.toNat_lt i hi

theorem storesUp_move (k : ℕ) (h : 0 ≤ way ∨ hi + way ≤ lo) :
    StoresUp (fun b => m₀ (b + way)) m₀ lo hi way k fun m d s => move m k d s := by
  intro m d hlow hfit hdone b
  change (if d ≤ b ∧ b < d + k then m (b - d + (d + way)) else m b) = _
  split_ifs with hin hin' hin'
  · rw [hdone, if_neg (by omega)]
    congr 1
    omega
  · omega
  · rw [hdone, if_pos (by omega)]
  · rw [hdone, if_neg (by omega)]

theorem storesDown_move (k : ℕ) (h : way ≤ 0) :
    StoresDown (fun b => m₀ (b + way)) m₀ lo hi way k fun m d s => move m k d s := by
  intro m d hlow hfit hdone b
  change (if d ≤ b ∧ b < d + k then m (b - d + (d + way)) else m b) = _
  split_ifs with hin hin' hin'
  · rw [hdone, if_neg (by omega)]
    congr 1
    omega
  · omega
  · rw [hdone, if_pos (by omega)]
  · rw [hdone, if_neg (by omega)]

theorem eq_move_of_done {dest : ℤ} {n : ℕ}
    (h : Done (fun b => m₀ (b + way)) m₀ dest (dest + n) m) : m = move m₀ n dest (dest + way) := by
  funext b
  have hat : b - dest + (dest + way) = b + way := by ring
  rw [h b, move, hat]

/-- **A copy between ranges that do not overlap** leaves the bytes of the source. -/
theorem memcpy_eq {dest src : ℤ} {n : ℕ} (h : dest + n ≤ src ∨ src + n ≤ dest) :
    memcpy m dest src n = move m n dest src := by
  obtain ⟨way, rfl⟩ : ∃ way, src = dest + way := ⟨src - dest, by ring⟩
  refine eq_move_of_done ?_
  rw [memcpy, copyByte_eq]
  exact done_forward (storesUp_move 1 (by omega)) (storesUp_move 8 (by omega))

/-- **Ranges may overlap** when they are moved. -/
theorem memmove_eq (m : ℤ → Byte) (dest src : ℤ) (n : ℕ) :
    memmove m dest src n = move m n dest src := by
  obtain ⟨way, rfl⟩ : ∃ way, src = dest + way := ⟨src - dest, by ring⟩
  rw [memmove]
  split_ifs with hnone hlt
  · rcases hnone with hsame | rfl
    · rw [← hsame, move_self]
    · funext b
      exact (if_neg (by omega)).symm
  · refine eq_move_of_done ?_
    rw [copyByte_eq]
    exact done_forward (storesUp_move 1 (by omega)) (storesUp_move 8 (by omega))
  · refine eq_move_of_done ?_
    rw [copyByte_eq, add_right_comm]
    exact done_backward (storesDown_move 1 (by omega)) (storesDown_move 8 (by omega))

theorem memset_eq (m : ℤ → Byte) (dest : ℤ) (v : Byte) (n : ℕ) :
    memset m dest v n = fun b => if dest ≤ b ∧ b < dest + n then v else m b := by
  have hone : StoresUp (fun _ => v) m dest (dest + n) 0 1 fun m d _ => Function.update m d v := by
    intro m' d hlow _ hdone b
    change Function.update m' d v b = _
    by_cases hb : b = d
    · rw [hb, Function.update_self, if_pos (by push_cast; omega)]
    · rw [Function.update_of_ne hb, hdone]
      exact if_congr (by push_cast; omega) rfl rfl
  have height : StoresUp (fun _ => v) m dest (dest + n) 0 8 fun m d _ => storeWord m (wordOf v) d := by
    intro m' d hlow _ hdone b
    change (if d ≤ b ∧ b < d + 8 then _ else m' b) = _
    split_ifs with hin hin' hin'
    · exact byte_wordOf v (by omega)
    · omega
    · rw [hdone, if_pos (by omega)]
    · rw [hdone, if_neg (by omega)]
  have hdone := done_forward (k := n) hone height
  rw [add_zero] at hdone
  funext b
  exact hdone b

/-- **The fast functions do what copying byte by byte would**, and change no other byte. -/
theorem block_functions_bytewise (m : ℤ → Byte) (dest src : ℤ) (v : Byte) (n : ℕ) :
    (dest + n ≤ src ∨ src + n ≤ dest → memcpy m dest src n = move m n dest src) ∧
      memmove m dest src n = move m n dest src ∧
      memset m dest v n = fun b => if dest ≤ b ∧ b < dest + n then v else m b :=
  ⟨memcpy_eq, memmove_eq m dest src n, memset_eq m dest v n⟩

theorem block_functions_bytewise_apart :
    memcpy (fun b => UInt8.ofNat b.toNat) 16 0 9 20 = 4 ∧ memcpy (fun b => UInt8.ofNat b.toNat) 16 0 9 25 = 25 := by
  rw [(block_functions_bytewise (fun b => UInt8.ofNat b.toNat) 16 0 0 9).1 (Or.inr (by decide))]
  exact ⟨rfl, rfl⟩

end Tnu.Fast
