/-
**Patterns with stars.**

A star of a pattern stands for any word, and any other letter for itself.

Main results:

* `Glob.matches_cons_iff` — a letter in front of a pattern;
* `Glob.matches_star_iff` — **a star in front of a pattern: the rest stands for some end of the word**;
* `Glob.matches_run_iff` — a run of stars is one star.
-/

import Mathlib.Data.List.Basic
import Mathlib.Data.List.Infix
import Mathlib.Tactic

set_option autoImplicit false

namespace Glob

variable {α : Type*} {star c : α} {p text : List α}

/-- **A word can be split along a pattern.** -/
inductive Matches (star : α) : List α → List α → Prop
  /-- Both are over. -/
  | nil : Matches star [] []
  /-- A letter stands for itself. -/
  | letter {c : α} {p text : List α} (hc : c ≠ star) (h : Matches star p text) : Matches star (c :: p) (c :: text)
  /-- A star stands for any word. -/
  | wild {p text : List α} (s : List α) (h : Matches star p text) : Matches star (star :: p) (s ++ text)

theorem matches_nil_iff : Matches star [] text ↔ text = [] := by
  constructor
  · intro h
    cases h
    rfl
  · rintro rfl
    exact .nil

theorem matches_cons_iff (hc : c ≠ star) : Matches star (c :: p) text ↔ ∃ rest, text = c :: rest ∧ Matches star p rest := by
  constructor
  · intro h
    cases h with
    | letter _ h => exact ⟨_, rfl, h⟩
    | wild s h => exact absurd rfl hc
  · rintro ⟨rest, rfl, h⟩
    exact .letter hc h

theorem matches_star_iff : Matches star (star :: p) text ↔ ∃ rest, rest <:+ text ∧ Matches star p rest := by
  constructor
  · intro h
    cases h with
    | letter hc h => exact absurd rfl hc
    | wild s h => exact ⟨_, List.suffix_append _ _, h⟩
  · rintro ⟨rest, ⟨s, rfl⟩, h⟩
    exact .wild s h

theorem matches_star_nil (text : List α) : Matches star [star] text := by
  rw [matches_star_iff]
  exact ⟨[], List.nil_suffix, .nil⟩

theorem matches_star_star_iff : Matches star (star :: star :: p) text ↔ Matches star (star :: p) text := by
  constructor
  · intro h
    obtain ⟨mid, hmid, h⟩ := matches_star_iff.1 h
    obtain ⟨rest, hrest, h⟩ := matches_star_iff.1 h
    exact matches_star_iff.2 ⟨rest, hrest.trans hmid, h⟩
  · intro h
    exact matches_star_iff.2 ⟨text, List.suffix_rfl, h⟩

/-- **A run of stars is one star.** -/
theorem matches_run_iff [DecidableEq α] :
    Matches star (star :: p.dropWhile (· = star)) text ↔ Matches star (star :: p) text := by
  induction p with
  | nil => rfl
  | cons c p ih =>
    by_cases hc : c = star
    · subst hc
      rw [List.dropWhile_cons_of_pos (by simp), ih, matches_star_star_iff]
    · rw [List.dropWhile_cons_of_neg (by simpa using hc)]

end Glob
