/-
**A cursor that is a position.**

A list is read one element at a time by a cursor that is only a position, while elements are put in
front of the list and taken out of it.  A new element pushes what has been read to where it will be
read again, and taking out an element that has been read pulls an unread one out of reach.  This
module keeps count of how often each element of a watched set was read, and says which changes do no
harm: new elements while nothing has been read, and taking out what has not been read, or anything
once the cursor is behind the list.

Main results:

* `Cursor.Counted.read`, `Cursor.Counted.grow`, `Cursor.Counted.remove` — the steps keep the count;
* `Cursor.Counted.done` — **at the end every watched element was read exactly once**.
-/

import Mathlib.Data.List.Basic
import Mathlib.Data.List.Nodup
import Mathlib.Data.Set.Basic
import Mathlib.Tactic

set_option autoImplicit false

namespace Cursor

variable {α : Type*} [BEq α] [LawfulBEq α]

/-- Every watched element is in the list, and was read once if it stands before the cursor, and not
at all otherwise. -/
def Counted (watched : Set α) (l : List α) (c : ℕ) (out : List α) : Prop :=
  ∀ x ∈ watched, x ∈ l ∧ out.count x = if l.idxOf x < c then 1 else 0

variable {watched : Set α} {l A B out : List α} {c : ℕ} {x y : α}

omit [LawfulBEq α] in
theorem counted_start (h : ∀ x ∈ watched, x ∈ l) : Counted watched l 0 [] :=
  fun x hx => ⟨h x hx, by simp⟩

theorem Counted.read (h : Counted watched l c out) (hl : l.Nodup) (hc : l[c]? = some y) :
    Counted watched l (c + 1) (out ++ [y]) := by
  intro x hx
  obtain ⟨hmem, hcount⟩ := h x hx
  obtain ⟨hlt, hy⟩ := List.getElem?_eq_some_iff.1 hc
  refine ⟨hmem, ?_⟩
  rw [List.count_append, hcount, List.count_singleton]
  have hidx : l.idxOf y = c := by rw [← hy, hl.idxOf_getElem]
  by_cases hxy : y = x
  · subst hxy
    simp [hidx]
  · have hne : l.idxOf x ≠ c := fun e => hxy <| by
      rw [← hy, ← List.getElem_idxOf (List.idxOf_lt_length_of_mem hmem)]
      simp only [e]
    have hiff : l.idxOf x < c + 1 ↔ l.idxOf x < c := by omega
    simp only [hiff, beq_iff_eq, hxy, if_false, add_zero]

omit [LawfulBEq α] in
theorem Counted.grow (h : Counted watched l 0 out) : Counted watched (y :: l) 0 out := by
  intro x hx
  obtain ⟨hmem, hcount⟩ := h x hx
  exact ⟨List.mem_cons_of_mem y hmem, by simpa using hcount⟩

theorem Counted.remove (h : Counted watched (A ++ y :: B) c out) (hl : (A ++ y :: B).Nodup)
    (hc : c ≤ A.length ∨ (A ++ y :: B).length ≤ c) :
    Counted {x | x ∈ watched ∧ x ∈ A ++ B} (A ++ B) c out := by
  rintro x ⟨hx, hstay⟩
  obtain ⟨-, hcount⟩ := h x hx
  refine ⟨hstay, ?_⟩
  have hyx : y ∉ A ++ B := (List.nodup_cons.1 (List.nodup_middle.1 hl)).1
  rw [hcount]
  simp only [List.length_append, List.length_cons] at hc
  by_cases hA : x ∈ A
  · simp only [List.idxOf_append_of_mem hA]
  · have hB : x ∈ B := (List.mem_append.1 hstay).resolve_left hA
    have hne : y ≠ x := fun e => hyx (by simp [e, hB])
    have hlt := List.idxOf_lt_length_of_mem hB
    simp only [List.idxOf_append_of_notMem hA, List.idxOf_cons_ne _ hne]
    congr 1
    simp only [eq_iff_iff]
    omega

omit [LawfulBEq α] in
theorem Counted.mono {watched' : Set α} (h : Counted watched l c out) (hw : watched' ⊆ watched) :
    Counted watched' l c out := fun x hx => h x (hw hx)

/-- **With the cursor behind the list every watched element was read exactly once.** -/
theorem Counted.done (h : Counted watched l c out) (hc : l.length ≤ c) (hx : x ∈ watched) :
    out.count x = 1 := by
  obtain ⟨hmem, hcount⟩ := h x hx
  rw [hcount, if_pos ((List.idxOf_lt_length_of_mem hmem).trans_le hc)]

end Cursor
