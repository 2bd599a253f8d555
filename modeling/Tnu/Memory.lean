/-
**Byte-addressed memory.**

The memory the kernel's allocators and loaders work on, with the loads and stores of little-endian
words and the two block functions of `kernel/lib/string.c`.  `memcpy` and `memset` move eight bytes
at a time where they can; the bytes end up as if moved one by one, lowest address first, which is
how they are embedded here.

Main definitions:

* `word`, `sub64` — the arithmetic of addresses;
* `Mem`, `load`, `store` — memory and its words;
* `memset`, `memcpy` — the block functions.

Main results:

* `load_store`, `load_store_of_disjoint` — reads after writes;
* `memset_apply`, `memcpy_of_disjoint` — what the block functions leave behind.
-/

import Tnu.CString
import Tnu.Lib.Bytes

set_option autoImplicit false

namespace Tnu

/-- The number of addresses: pointers and `size_t` have 64 bits. -/
abbrev word : ℕ := 2 ^ 64

theorem word_eq : word = 18446744073709551616 := rfl

def sub64 (a b : ℕ) : ℕ := (a + word - b) % word

abbrev Mem := ℕ → Byte

/-- The little-endian word of `w` bytes at an address. -/
def load (m : Mem) (a w : ℕ) : ℕ := Bytes.field m a w

/-- Memory with a word of `w` bytes stored at an address. -/
def store (m : Mem) (a w v : ℕ) : Mem := Bytes.overlay m a (Bytes.le w v)

variable {m m' : Mem} {a b w w' v : ℕ}

/-- **A word is read back**, modulo its width. -/
theorem load_store (m : Mem) (a w v : ℕ) : load (store m a w v) a w = v % 256 ^ w :=
  Bytes.field_of_holds (Bytes.holds_overlay m a (Bytes.le w v))

variable {i n src dest : ℕ}

theorem store_of_not_mem (h : i < a ∨ a + w ≤ i) : store m a w v i = m i := by
  rcases h with h | h
  · exact Bytes.overlay_of_lt _ h
  · exact Bytes.overlay_of_ge (by simpa using h)

theorem load_congr (h : ∀ i, a ≤ i → i < a + w → m' i = m i) : load m' a w = load m a w := by
  rw [load, load, Bytes.field, Bytes.field, Bytes.window_congr h]

theorem load_store_of_disjoint (h : b + w' ≤ a ∨ a + w ≤ b) :
    load (store m a w v) b w' = load m b w' :=
  load_congr fun _ _ _ => store_of_not_mem (by omega)

theorem load_lt (m : Mem) (a w : ℕ) : load m a w < 256 ^ w := Bytes.field_lt m a w

/-! ### Block functions -/

def memset (m : Mem) (dest : ℕ) (value : Byte) (n : ℕ) : Mem := fun i =>
  if dest ≤ i ∧ i < dest + n then value else m i

def memcpy : Mem → ℕ → ℕ → ℕ → Mem
  | m, _, _, 0 => m
  | m, dest, src, n + 1 => memcpy (Function.update m dest (m src)) (dest + 1) (src + 1) n

theorem memset_apply (m : Mem) (dest : ℕ) (value : Byte) (n i : ℕ) :
    memset m dest value n i = if dest ≤ i ∧ i < dest + n then value else m i := rfl

theorem memset_of_not_mem {value : Byte} (h : i < dest ∨ dest + n ≤ i) :
    memset m dest value n i = m i := by
  rw [memset_apply, if_neg (by omega)]

theorem memcpy_of_not_mem (h : i < dest ∨ dest + n ≤ i) :
    memcpy m dest src n i = m i := by
  induction n generalizing m dest src with
  | zero => rfl
  | succ n ih =>
    rw [memcpy, ih (by omega), Function.update_of_ne (by omega)]

/-- **A copy between disjoint ranges** leaves the source's bytes in the destination. -/
theorem memcpy_of_disjoint (h : dest + n ≤ src ∨ src + n ≤ dest) (hi : i < n) :
    memcpy m dest src n (dest + i) = m (src + i) := by
  induction n generalizing m dest src i with
  | zero => omega
  | succ n ih =>
    rw [memcpy]
    cases i with
    | zero => rw [memcpy_of_not_mem (by omega), Nat.add_zero, Nat.add_zero, Function.update_self]
    | succ i =>
      rw [← Nat.add_assoc, Nat.add_right_comm, ih (by omega) (by omega),
        Function.update_of_ne (by omega)]
      congr 1
      omega

end Tnu
