/-
**Editing a text.**

A text with a cursor and, while something is selected, an anchor: the selection is what lies between the two.

Main definitions:

* `TextEdit.insert`, `TextEdit.cut`, `TextEdit.erase`, `TextEdit.moveTo`, `TextEdit.extendTo`, `TextEdit.load` — the
  edits.

Main results:

* `TextEdit.Valid` is kept by every edit.
-/

import Mathlib.Data.List.Basic
import Mathlib.Tactic

set_option autoImplicit false

/-- A text, the place of the cursor in it, and the other end of the selection. -/
structure TextEdit (α : Type*) where
  text : List α
  cursor : ℕ
  anchor : Option ℕ

namespace TextEdit

variable {α : Type*} {e : TextEdit α} {i : ℕ}

/-- The ends of the selection; both are the cursor when there is none. -/
def bounds (e : TextEdit α) : ℕ × ℕ :=
  match e.anchor with
  | none => (e.cursor, e.cursor)
  | some a => (min a e.cursor, max a e.cursor)

def Selected (e : TextEdit α) : Prop := e.bounds.1 ≠ e.bounds.2

instance (e : TextEdit α) : Decidable e.Selected := inferInstanceAs (Decidable (_ ≠ _))

def selection (e : TextEdit α) : List α := (e.text.drop e.bounds.1).take (e.bounds.2 - e.bounds.1)

def insert (t : List α) (e : TextEdit α) : TextEdit α :=
  { e with text := e.text.take e.cursor ++ t ++ e.text.drop e.cursor, cursor := e.cursor + t.length }

def cut (e : TextEdit α) : TextEdit α := ⟨e.text.take e.bounds.1 ++ e.text.drop e.bounds.2, e.bounds.1, none⟩

def erase (i : ℕ) (e : TextEdit α) : TextEdit α := { e with text := e.text.eraseIdx i, cursor := min e.cursor i }

def moveTo (i : ℕ) (e : TextEdit α) : TextEdit α := { e with cursor := i, anchor := none }

def extendTo (i : ℕ) (e : TextEdit α) : TextEdit α := { e with cursor := i, anchor := some (e.anchor.getD e.cursor) }

def load (t : List α) : TextEdit α := ⟨t, t.length, none⟩

/-- The cursor and the anchor are places of the text. -/
structure Valid (e : TextEdit α) : Prop where
  cursor_le : e.cursor ≤ e.text.length
  anchor_le : ∀ a ∈ e.anchor, a ≤ e.text.length

theorem Valid.bounds_le (h : e.Valid) : e.bounds.1 ≤ e.bounds.2 ∧ e.bounds.2 ≤ e.text.length := by
  have hcursor := h.cursor_le
  have hanchor := h.anchor_le
  rw [bounds]
  cases ha : e.anchor with
  | none => exact ⟨le_rfl, hcursor⟩
  | some a =>
    have hle := hanchor a ha
    exact ⟨min_le_max, max_le hle hcursor⟩

theorem valid_load (t : List α) : (load t).Valid := ⟨le_rfl, fun a ha => by cases ha⟩

theorem Valid.moveTo (h : i ≤ e.text.length) : (e.moveTo i).Valid := ⟨h, fun a ha => by cases ha⟩

theorem Valid.extendTo (h : e.Valid) (hi : i ≤ e.text.length) : (e.extendTo i).Valid := by
  refine ⟨hi, fun a ha => ?_⟩
  obtain rfl := Option.some.inj ha
  cases hanchor : e.anchor with
  | none => exact h.cursor_le
  | some a => exact h.anchor_le a hanchor

theorem length_insert (h : e.Valid) (t : List α) : (e.insert t).text.length = e.text.length + t.length := by
  have hcursor := h.cursor_le
  simp only [insert, List.length_append, List.length_take, List.length_drop]
  omega

theorem Valid.insert (h : e.Valid) (t : List α) : (e.insert t).Valid := by
  have hlen := length_insert h t
  refine ⟨?_, fun a ha => ?_⟩
  · rw [hlen]
    exact Nat.add_le_add_right h.cursor_le _
  · rw [hlen]
    exact (h.anchor_le a ha).trans (Nat.le_add_right _ _)

theorem cut_of_anchor_none (h : e.anchor = none) : e.cut = e := by
  obtain ⟨text, cursor, anchor⟩ := e
  obtain rfl : anchor = none := h
  simp only [cut, bounds, List.take_append_drop]

theorem cut_of_not_selected (h : ¬ e.Selected) : e.cut = e.moveTo e.cursor := by
  have heq : e.bounds.1 = e.bounds.2 := not_not.mp h
  have hcursor : e.bounds.1 = e.cursor := by
    rw [bounds] at heq ⊢
    cases ha : e.anchor with
    | none => rfl
    | some a =>
      simp only [ha] at heq ⊢
      omega
  rw [cut, ← heq, List.take_append_drop, hcursor, moveTo]

theorem length_cut (h : e.Valid) : e.cut.text.length = e.text.length - (e.bounds.2 - e.bounds.1) := by
  obtain ⟨hle, hend⟩ := h.bounds_le
  simp only [cut, List.length_append, List.length_take, List.length_drop]
  omega

theorem Valid.cut (h : e.Valid) : e.cut.Valid := by
  obtain ⟨hle, hend⟩ := h.bounds_le
  have hlen := length_cut h
  refine ⟨?_, fun a ha => by cases ha⟩
  rw [hlen]
  change e.bounds.1 ≤ _
  omega

theorem valid_erase (hnone : e.anchor = none) (hi : i < e.text.length) : (e.erase i).Valid := by
  refine ⟨?_, fun a ha => ?_⟩
  · have hlen : (e.erase i).text.length = e.text.length - 1 := List.length_eraseIdx_of_lt hi
    rw [hlen]
    exact (min_le_right _ _).trans (by omega)
  · rw [show (e.erase i).anchor = e.anchor from rfl, hnone] at ha
    cases ha

end TextEdit
