/-
**Rings.**

A ring keeps a queue in `N` places: items are read at one place and written at another, both go
round, and the ring is empty when they are the same.  So it holds one item less than it has places.

Main definitions:

* `RingBuffer.contents` — the queue in the ring, the oldest item first;
* `RingBuffer.store`, `RingBuffer.skip`, `RingBuffer.pop` — an item goes in at the end, the oldest
  one is left behind, or taken out.

Main results:

* `RingBuffer.contents_store`, `RingBuffer.contents_skip`, `RingBuffer.pop_eq` — **a ring is a queue**;
* `RingBuffer.empty_iff`, `RingBuffer.full_iff` — when it is empty, and when it is full.
-/

import Mathlib.Tactic

set_option autoImplicit false

/-- A ring of `N` places. -/
structure RingBuffer (α : Type*) (N : ℕ) where
  slots : ℕ → α
  readPos : ℕ
  writePos : ℕ
  read_lt : readPos < N
  write_lt : writePos < N

namespace RingBuffer

variable {α : Type*} {N : ℕ}

theorem pos (r : RingBuffer α N) : 0 < N := lt_of_le_of_lt (Nat.zero_le _) r.read_lt

variable (r : RingBuffer α N)

def next (N p : ℕ) : ℕ := (p + 1) % N

def count : ℕ := if r.readPos ≤ r.writePos then r.writePos - r.readPos else N - r.readPos + r.writePos

def place (i : ℕ) : ℕ := (r.readPos + i) % N

def contents : List α := (List.range r.count).map fun i => r.slots (r.place i)

def head : α := r.slots r.readPos

def store (x : α) : RingBuffer α N where
  slots := Function.update r.slots r.writePos x
  readPos := r.readPos
  writePos := next N r.writePos
  read_lt := r.read_lt
  write_lt := Nat.mod_lt _ r.pos

def skip : RingBuffer α N where
  slots := r.slots
  readPos := next N r.readPos
  writePos := r.writePos
  read_lt := Nat.mod_lt _ r.pos
  write_lt := r.write_lt

def pop : RingBuffer α N × Option α :=
  if r.readPos = r.writePos then (r, none) else (r.skip, some r.head)

def Full : Prop := next N r.writePos = r.readPos

instance : Decidable r.Full := inferInstanceAs (Decidable (_ = _))

@[simp] theorem length_contents : r.contents.length = r.count := by
  rw [contents, List.length_map, List.length_range]

theorem count_lt : r.count < N := by
  have hread := r.read_lt
  have hwrite := r.write_lt
  rw [count]
  split_ifs <;> omega

theorem empty_iff : r.readPos = r.writePos ↔ r.contents = [] := by
  have hread := r.read_lt
  rw [← List.length_eq_zero_iff, length_contents, count]
  split_ifs <;> omega

theorem next_eq {p : ℕ} (hp : p < N) : next N p = if p + 1 = N then 0 else p + 1 := by
  rw [next]
  split_ifs with h
  · rw [h, Nat.mod_self]
  · exact Nat.mod_eq_of_lt (by omega)

theorem full_iff : r.Full ↔ r.contents.length = N - 1 := by
  have hread := r.read_lt
  have hwrite := r.write_lt
  rw [Full, next_eq hwrite, length_contents, count]
  split_ifs <;> omega

theorem count_store (h : ¬ r.Full) (x : α) : (r.store x).count = r.count + 1 := by
  have hread := r.read_lt
  have hwrite := r.write_lt
  rw [Full, next_eq hwrite] at h
  rw [count, count]
  change (if r.readPos ≤ next N r.writePos then next N r.writePos - r.readPos
    else N - r.readPos + next N r.writePos) = _
  rw [next_eq hwrite]
  split_ifs at h ⊢ <;> omega

theorem count_skip (h : r.contents ≠ []) : r.skip.count + 1 = r.count := by
  have hread := r.read_lt
  have hwrite := r.write_lt
  rw [Ne, ← empty_iff] at h
  rw [count, count]
  change (if next N r.readPos ≤ r.writePos then r.writePos - next N r.readPos
    else N - next N r.readPos + r.writePos) + 1 = _
  rw [next_eq hread]
  split_ifs <;> omega

theorem place_eq {i : ℕ} (hi : i < N) :
    r.place i = if r.readPos + i < N then r.readPos + i else r.readPos + i - N := by
  have hread := r.read_lt
  rw [place]
  split_ifs with h
  · exact Nat.mod_eq_of_lt h
  · rw [Nat.mod_eq_sub_mod (not_lt.1 h)]
    exact Nat.mod_eq_of_lt (by omega)

theorem place_count : r.place r.count = r.writePos := by
  have hread := r.read_lt
  have hwrite := r.write_lt
  rw [place_eq r r.count_lt, count]
  split_ifs <;> omega

/-- **An item that is stored** goes behind the others. -/
theorem contents_store (h : ¬ r.Full) (x : α) : (r.store x).contents = r.contents ++ [x] := by
  rw [contents, count_store r h, List.range_succ, List.map_append, List.map_singleton, contents]
  congr 1
  · refine List.map_congr_left fun i hi => ?_
    have hlt := List.mem_range.1 hi
    have hcount := r.count_lt
    have hne : r.place i ≠ r.writePos := by
      rw [← place_count, place_eq r (by omega), place_eq r hcount]
      have hread := r.read_lt
      split_ifs <;> omega
    exact Function.update_of_ne hne x r.slots
  · change [Function.update r.slots r.writePos x (r.place r.count)] = [x]
    rw [place_count, Function.update_self]

theorem place_skip (i : ℕ) : r.skip.place i = r.place (i + 1) := by
  change (next N r.readPos + i) % N = (r.readPos + (i + 1)) % N
  rw [next, Nat.mod_add_mod]
  congr 1
  omega

theorem contents_eq_cons (h : r.contents ≠ []) : r.contents = r.head :: r.skip.contents := by
  rw [contents, ← count_skip r h, List.range_succ_eq_map, List.map_cons, List.map_map, contents]
  congr 1
  · rw [head, place, Nat.add_zero, Nat.mod_eq_of_lt r.read_lt]
  · exact List.map_congr_left fun i _ => congrArg r.slots (place_skip r i).symm

/-- **The oldest item that is left behind** is the first of the queue. -/
theorem contents_skip (h : r.contents ≠ []) : r.skip.contents = r.contents.tail := by
  rw [contents_eq_cons r h, List.tail_cons]

/-- **Taking out** is taking the first of the queue. -/
theorem pop_eq : r.pop.2 = r.contents.head? ∧ r.pop.1.contents = r.contents.tail := by
  have hempty := r.empty_iff
  rw [pop]
  split_ifs with h
  · have hnil := hempty.1 h
    exact ⟨by rw [hnil]; rfl, by rw [hnil]; rfl⟩
  · have hne := mt hempty.2 h
    exact ⟨by rw [contents_eq_cons r hne]; rfl, contents_skip r hne⟩

theorem isSome_pop : r.pop.2.isSome ↔ r.readPos ≠ r.writePos := by
  rw [pop]
  split_ifs with h <;> simp [h]

end RingBuffer
