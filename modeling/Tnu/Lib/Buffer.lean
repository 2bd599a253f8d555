/-
**Buffers of a fixed size.**

A program writes into a buffer at a position that it keeps itself; a write past the end of the buffer has no
result.  Here a buffer is split at the position: what has been written stands in front of it, and what is left
of the buffer behind it.

Main definitions:

* `Buffer.put`, `Buffer.copy`, `Buffer.move` — an entry, a list, or a part of the buffer, written at a position.

Main results:

* `Buffer.put_append`, `Buffer.copy_append` — writing behind what has been written;
* `Buffer.Shows.grow` — a text that is shown, cut, and goes on.
-/

import Mathlib.Data.List.Basic
import Mathlib.Tactic

set_option autoImplicit false

namespace Buffer

variable {α : Type*} {buf front rest text l : List α} {i : ℕ} {x y : α}

def put (buf : List α) (i : ℕ) (x : α) : Option (List α) := if i < buf.length then some (buf.set i x) else none

def copy (buf : List α) (i : ℕ) (l : List α) : Option (List α) :=
  if i + l.length ≤ buf.length then some (buf.take i ++ l ++ buf.drop (i + l.length)) else none

theorem put_append (front rest : List α) (x y : α) :
    put (front ++ y :: rest) front.length x = some (front ++ x :: rest) := by
  rw [put, if_pos (by simp), List.set_append_right _ _ le_rfl, Nat.sub_self, List.set_cons_zero]

theorem copy_append (front rest l : List α) {m : List α} (hm : m.length = l.length) :
    copy (front ++ (m ++ rest)) front.length l = some (front ++ (l ++ rest)) := by
  have hlen : front.length + l.length ≤ (front ++ (m ++ rest)).length := by
    simp only [List.length_append]
    omega
  have hdrop : (front ++ (m ++ rest)).drop (front.length + l.length) = rest := by
    rw [← List.append_assoc, ← hm, ← List.length_append, List.drop_left]
  rw [copy, if_pos hlen, List.take_left, hdrop, List.append_assoc]

theorem length_put (h : put buf i x = some l) : l.length = buf.length := by
  rw [put] at h
  split at h
  · rw [← Option.some.inj h, List.length_set]
  · simp at h

theorem length_copy (h : copy buf i l = some rest) : rest.length = buf.length := by
  rw [copy] at h
  split at h
  · rw [← Option.some.inj h]
    simp only [List.length_append, List.length_take, List.length_drop]
    omega
  · simp at h

/-! ### Moving what is there -/

/-- The buffer with `n` entries copied from one place of it to another, which may overlap. -/
def move (buf : List α) (dst src n : ℕ) : Option (List α) :=
  if src + n ≤ buf.length then copy buf dst ((buf.drop src).take n) else none

variable {n pos size : ℕ}

/-- **A list is moved away** from what stands in front of it. -/
theorem move_right (front l rest : List α) (hn : n ≤ rest.length) :
    ∃ gap rest', gap.length = n ∧ rest'.length + n = rest.length ∧
      move (front ++ (l ++ rest)) (front.length + n) front.length l.length = some (front ++ (gap ++ (l ++ rest'))) := by
  have hgap : ((l ++ rest).take n).length = n := List.length_take_of_le (by rw [List.length_append]; omega)
  have hold : (((l ++ rest).drop n).take l.length).length = l.length :=
    List.length_take_of_le (by rw [List.length_drop, List.length_append]; omega)
  have hcopy := copy_append (front ++ (l ++ rest).take n) (((l ++ rest).drop n).drop l.length) l hold
  rw [List.take_append_drop, List.append_assoc, List.take_append_drop, List.length_append, hgap] at hcopy
  refine ⟨(l ++ rest).take n, ((l ++ rest).drop n).drop l.length, hgap, ?_, ?_⟩
  · simp only [List.length_drop, List.length_append]
    omega
  · have hlen : front.length + l.length ≤ (front ++ (l ++ rest)).length := by
      simp only [List.length_append]
      omega
    rw [move, if_pos hlen, List.drop_left, List.take_left, hcopy, List.append_assoc]

/-- **A list is moved back** over what stands in front of it. -/
theorem move_left (front gap l rest : List α) :
    ∃ rest', rest'.length = rest.length + gap.length ∧
      move (front ++ (gap ++ (l ++ rest))) front.length (front.length + gap.length) l.length =
        some (front ++ (l ++ rest')) := by
  have hold : ((gap ++ (l ++ rest)).take l.length).length = l.length :=
    List.length_take_of_le (by simp only [List.length_append]; omega)
  have hcopy := copy_append front ((gap ++ (l ++ rest)).drop l.length) l hold
  rw [List.take_append_drop] at hcopy
  refine ⟨(gap ++ (l ++ rest)).drop l.length, ?_, ?_⟩
  · simp only [List.length_drop, List.length_append]
    omega
  · have hlen : front.length + gap.length + l.length ≤ (front ++ (gap ++ (l ++ rest))).length := by
      simp only [List.length_append]
      omega
    have hdrop : (front ++ (gap ++ (l ++ rest))).drop (front.length + gap.length) = l ++ rest := by
      rw [← List.append_assoc, ← List.length_append, List.drop_left]
    rw [move, if_pos hlen, hdrop, List.take_left, hcopy]

theorem length_move {dst src : ℕ} (h : move buf dst src n = some l) : l.length = buf.length := by
  rw [move] at h
  split at h
  · exact length_copy h
  · simp at h

/-! ### Texts with room behind them -/

/-- The text stands at the front of a buffer of this size, and the position is behind it. -/
structure Holds (size : ℕ) (text buf : List α) (pos : ℕ) : Prop where
  length_eq : buf.length = size
  front : ∃ rest, buf = text ++ rest
  pos_eq : pos = text.length

theorem Holds.nil (buf : List α) : Holds buf.length [] buf 0 := ⟨rfl, ⟨buf, rfl⟩, rfl⟩

/-- **A list is copied behind the text**, when there is room. -/
theorem Holds.copy (h : Holds size text buf pos) (l : List α) (hroom : text.length + l.length ≤ size) :
    ∃ buf', Buffer.copy buf pos l = some buf' ∧ Holds size (text ++ l) buf' (pos + l.length) := by
  obtain ⟨hlen, ⟨rest, hbuf⟩, hpos⟩ := h
  have hsize : l.length ≤ rest.length := by
    rw [hbuf, List.length_append] at hlen
    omega
  have hcopy := copy_append text (rest.drop l.length) l (m := rest.take l.length)
    (List.length_take_of_le hsize)
  rw [List.take_append_drop, ← hbuf, ← hpos] at hcopy
  refine ⟨_, hcopy, (length_copy hcopy).trans hlen, ⟨rest.drop l.length, (List.append_assoc _ _ _).symm⟩, ?_⟩
  rw [List.length_append, hpos]

theorem Holds.skip (h : Holds size text buf pos) (n : ℕ) (hroom : text.length + n ≤ size) :
    ∃ old, old.length = n ∧ Holds size (text ++ old) buf (pos + n) := by
  obtain ⟨hlen, ⟨rest, hbuf⟩, hpos⟩ := h
  have hsize : n ≤ rest.length := by
    rw [hbuf, List.length_append] at hlen
    omega
  have hold : (rest.take n).length = n := List.length_take_of_le hsize
  refine ⟨rest.take n, hold, hlen, ⟨rest.drop n, ?_⟩, ?_⟩
  · rw [List.append_assoc, List.take_append_drop, hbuf]
  · rw [List.length_append, hold, hpos]

/-- **A part of the text is replaced** by one of the same length. -/
theorem Holds.patch {old : List α} (h : Holds size (text ++ (old ++ rest)) buf pos) (l : List α)
    (hl : old.length = l.length) :
    ∃ buf', Buffer.copy buf text.length l = some buf' ∧ Holds size (text ++ (l ++ rest)) buf' pos := by
  obtain ⟨hlen, ⟨tail, hbuf⟩, hpos⟩ := h
  have hcopy := copy_append text (rest ++ tail) l hl
  rw [← List.append_assoc old, ← List.append_assoc text, ← hbuf] at hcopy
  refine ⟨_, hcopy, (length_copy hcopy).trans hlen, ⟨tail, by simp only [List.append_assoc]⟩, ?_⟩
  simp only [hpos, List.length_append, hl]

theorem Holds.take_eq (h : Holds size text buf pos) : buf.take pos = text := by
  obtain ⟨-, ⟨rest, hbuf⟩, hpos⟩ := h
  rw [hbuf, hpos, List.take_left]

/-! ### Texts that are cut -/

/-- The buffer starts with the text, cut so that a terminator fits behind it, and the position is behind what is
there. -/
def Shows (text buf : List α) (pos : ℕ) : Prop :=
  ∃ rest, rest ≠ [] ∧ buf = text.take (buf.length - 1) ++ rest ∧ pos = (text.take (buf.length - 1)).length

theorem Shows.length_eq (h : Shows text buf pos) (hroom : pos + 1 < buf.length) : text.length = pos := by
  obtain ⟨rest, -, -, hpos⟩ := h
  rw [List.length_take] at hpos
  omega

theorem Shows.lt (h : Shows text buf pos) : pos < buf.length := by
  obtain ⟨rest, hrest, hbuf, hpos⟩ := h
  have hlen := congrArg List.length hbuf
  have hne := List.length_pos_of_ne_nil hrest
  rw [List.length_append] at hlen
  omega

theorem Shows.full (h : Shows text buf pos) (hroom : ¬ pos + 1 < buf.length) (l : List α) :
    Shows (text ++ l) buf pos := by
  have hlt := h.lt
  obtain ⟨rest, hrest, hbuf, hpos⟩ := h
  have htake : (text ++ l).take (buf.length - 1) = text.take (buf.length - 1) := by
    rw [List.length_take] at hpos
    exact List.take_append_of_le_length (by omega)
  exact ⟨rest, hrest, by rw [htake, ← hbuf], by rw [htake, hpos]⟩

/-- **A text that is shown goes on** with an entry. -/
theorem Shows.grow (h : Shows text buf pos) (hroom : pos + 1 < buf.length) (x : α) :
    ∃ buf', put buf pos x = some buf' ∧ buf'.length = buf.length ∧ Shows (text ++ [x]) buf' (pos + 1) := by
  have hlen := h.length_eq hroom
  obtain ⟨rest, hrest, hbuf, hpos⟩ := h
  have htake : text.take (buf.length - 1) = text := List.take_of_length_le (by omega)
  rw [htake] at hbuf hpos
  obtain ⟨y, rest, rfl⟩ := List.exists_cons_of_ne_nil hrest
  have hsize : buf.length = text.length + (rest.length + 1) := by
    rw [hbuf, List.length_append, List.length_cons]
  have hput : put buf pos x = some (text ++ x :: rest) := by
    rw [hpos, hbuf, put_append]
  refine ⟨text ++ x :: rest, hput, length_put hput, rest, ?_, ?_, ?_⟩
  · rintro rfl
    simp at hsize
    omega
  · rw [length_put hput, List.take_of_length_le (by rw [List.length_append]; simp; omega)]
    simp
  · rw [length_put hput, List.take_of_length_le (by rw [List.length_append]; simp; omega)]
    simp [hpos]

theorem Shows.stop (h : Shows text buf pos) (x : α) :
    ∃ rest, put buf pos x = some (text.take (buf.length - 1) ++ x :: rest) ∧
      Shows text (text.take (buf.length - 1) ++ x :: rest) pos := by
  obtain ⟨rest, hrest, hbuf, hpos⟩ := h
  obtain ⟨y, rest, rfl⟩ := List.exists_cons_of_ne_nil hrest
  have hput := put_append (text.take (buf.length - 1)) rest x y
  rw [← hpos, ← hbuf] at hput
  refine ⟨rest, hput, x :: rest, by simp, ?_, ?_⟩
  · rw [length_put hput]
  · rw [length_put hput, hpos]

end Buffer
