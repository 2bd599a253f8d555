/-
**The first place of a pattern.**

Main definitions:

* `Search.find` — a list from the first occurrence of a pattern on.

Main results:

* `Search.find_of_prefix`, `Search.find_append` — the pattern at the front, and a front without its first letter;
* `Search.find_singleton` — a single letter.
-/

import Mathlib.Data.List.Basic
import Mathlib.Data.List.Infix
import Mathlib.Tactic

set_option autoImplicit false

namespace Search

variable {α : Type*} [DecidableEq α] {c d : α} {pat front l m : List α}

def find (pat : List α) : List α → Option (List α)
  | [] => if pat = [] then some [] else none
  | c :: l => if pat <+: c :: l then some (c :: l) else find pat l

theorem find_of_prefix (h : pat <+: l) : find pat l = some l := by
  cases l with
  | nil => rw [find, if_pos (List.prefix_nil.1 h)]
  | cons c l => rw [find, if_pos h]

theorem find_of_not_prefix (h : ¬ pat <+: c :: l) : find pat (c :: l) = find pat l := by rw [find, if_neg h]

theorem find_append (h : c ∉ front) : find (c :: pat) (front ++ l) = find (c :: pat) l := by
  induction front with
  | nil => rfl
  | cons d front ih =>
    obtain ⟨hd, hfront⟩ := not_or.1 (mt List.mem_cons.2 h)
    have hno : ¬ c :: pat <+: d :: (front ++ l) := fun hp => hd (List.cons_prefix_cons.1 hp).1
    rw [List.cons_append, find_of_not_prefix hno, ih hfront]

/-- **The first place of a letter.** -/
theorem find_singleton (h : c ∉ front) (l : List α) : find [c] (front ++ c :: l) = some (c :: l) := by
  rw [find_append h]
  exact find_of_prefix (List.cons_prefix_cons.2 ⟨rfl, List.nil_prefix⟩)

theorem find_singleton_eq_none (h : c ∉ l) : find [c] l = none := by
  have hfind : find [c] (l ++ []) = find [c] [] := find_append h
  rw [List.append_nil] at hfind
  rw [hfind, find, if_neg (List.cons_ne_nil _ _)]

omit [DecidableEq α] in
theorem eq_of_prefix {a b : List α} {x y : α} (ha : c ∉ a) (hb : c ∉ b) (h : a ++ c :: x :: l <+: b ++ c :: y :: m) :
    x = y := by
  induction a generalizing b with
  | nil =>
    cases b with
    | nil => exact (List.cons_prefix_cons.1 (List.cons_prefix_cons.1 h).2).1
    | cons d b => exact absurd (List.cons_prefix_cons.1 h).1 fun e => hb (e ▸ List.mem_cons_self)
  | cons e a ih =>
    obtain ⟨he, ha⟩ := not_or.1 (mt List.mem_cons.2 ha)
    cases b with
    | nil => exact absurd (List.cons_prefix_cons.1 h).1 (Ne.symm he)
    | cons d b =>
      obtain ⟨-, hb⟩ := not_or.1 (mt List.mem_cons.2 hb)
      exact ih ha hb (List.cons_prefix_cons.1 h).2

end Search
