/-
**Moving pieces of a memory.**

A memory has a value at every integer.  A *move* copies a piece of `n` values to another place, as
`memmove` does: the piece may overlap the place it goes to.  Several pieces that all move by the same
way arrive as they were before the first move, when no piece is read after something was moved onto
it; and whenever pieces move by the same way, and the way is not zero, no place they go to keeps its
value.

Main results:

* `Moves.moveAll_of_apart` — **pieces read before they are written over** arrive as they were;
* `Moves.moveAll_moved` — a place that pieces are moved to loses its value.
-/

import Mathlib.Tactic

set_option autoImplicit false

namespace Moves

variable {α : Type*}

/-- The memory with `n` values copied from one place to another. -/
def move (m : ℤ → α) (n : ℕ) (dst src : ℤ) : ℤ → α := fun b =>
  if dst ≤ b ∧ b < dst + n then m (b - dst + src) else m b

/-- Moves in order, each given by where it goes and where it comes from. -/
def moveAll (m : ℤ → α) (n : ℕ) (pieces : List (ℤ × ℤ)) : ℤ → α :=
  pieces.foldl (fun m p => move m n p.1 p.2) m

def Reaches (n : ℕ) (pieces : List (ℤ × ℤ)) (b : ℤ) : Prop := ∃ p ∈ pieces, p.1 ≤ b ∧ b < p.1 + n

variable {m : ℤ → α} {n : ℕ} {pieces : List (ℤ × ℤ)} {b way : ℤ}

theorem move_self (m : ℤ → α) (n : ℕ) (a : ℤ) : move m n a a = m := by
  funext b
  rw [move, sub_add_cancel, ite_self]

theorem moveAll_of_still (h : ∀ p ∈ pieces, p.1 = p.2) : moveAll m n pieces = m := by
  induction pieces with
  | nil => rfl
  | cons p pieces ih =>
    rw [moveAll, List.foldl_cons, h p List.mem_cons_self, move_self]
    exact ih fun q hq => h q (List.mem_cons_of_mem _ hq)

/-- **Pieces that are read before they are written over** arrive as they were. -/
theorem moveAll_of_apart (hway : ∀ p ∈ pieces, p.1 = p.2 + way)
    (h : pieces.Pairwise fun p q => p.1 + (n : ℤ) ≤ q.2 ∨ q.2 + (n : ℤ) ≤ p.1) :
    (Reaches n pieces b → moveAll m n pieces b = m (b - way)) ∧
      (¬ Reaches n pieces b → moveAll m n pieces b = m b) := by
  induction pieces generalizing m with
  | nil => exact ⟨fun ⟨p, hp, _⟩ => absurd hp List.not_mem_nil, fun _ => rfl⟩
  | cons p pieces ih =>
    obtain ⟨hfirst, hrest⟩ := List.pairwise_cons.1 h
    obtain ⟨hmoved, hkept⟩ :=
      ih (m := move m n p.1 p.2) (fun q hq => hway q (List.mem_cons_of_mem _ hq)) hrest
    have hp := hway p List.mem_cons_self
    by_cases hlater : Reaches n pieces b
    · have hval : moveAll m n (p :: pieces) b = m (b - way) := by
        obtain ⟨q, hq, hlo, hhi⟩ := hlater
        have hqway := hway q (List.mem_cons_of_mem _ hq)
        have hapart := hfirst q hq
        rw [moveAll, List.foldl_cons]
        refine (hmoved ⟨q, hq, hlo, hhi⟩).trans (if_neg ?_)
        omega
      refine ⟨fun _ => hval, fun hnot => absurd ?_ hnot⟩
      obtain ⟨q, hq, hcov⟩ := hlater
      exact ⟨q, List.mem_cons_of_mem _ hq, hcov⟩
    · have hval : moveAll m n (p :: pieces) b = move m n p.1 p.2 b := hkept hlater
      constructor
      · rintro ⟨q, hq, hcov⟩
        rcases List.mem_cons.1 hq with rfl | hq
        · rw [hval, move, if_pos hcov]
          congr 1
          omega
        · exact absurd ⟨q, hq, hcov⟩ hlater
      · intro hnot
        rw [hval]
        exact if_neg fun hcov => hnot ⟨p, List.mem_cons_self, hcov⟩

/-- **A place that pieces are moved to loses its value**, when they all move by the same way: a
value that stands nowhere else is afterwards some whole number of ways further on. -/
theorem moveAll_moved {v : α} (hway : ∀ p ∈ pieces, p.1 = p.2 + way) (hne : way ≠ 0)
    (hspread : ∀ a, m a ≠ v → ∃ k : ℕ, a = b + k * way)
    (h : Reaches n pieces b ∨ m b = v) : moveAll m n pieces b = v := by
  induction pieces generalizing m with
  | nil =>
    rcases h with ⟨p, hp, _⟩ | h
    · exact absurd hp List.not_mem_nil
    · exact h
  | cons p pieces ih =>
    have hp := hway p List.mem_cons_self
    rw [moveAll, List.foldl_cons]
    refine ih (fun q hq => hway q (List.mem_cons_of_mem _ hq)) (fun a ha => ?_) ?_
    · rw [move] at ha
      split_ifs at ha with hcov
      · obtain ⟨k, hk⟩ := hspread _ ha
        refine ⟨k + 1, ?_⟩
        push_cast
        linarith
      · exact hspread a ha
    · have hgone : p.1 ≤ b ∧ b < p.1 + n → move m n p.1 p.2 b = v := by
        intro hcov
        rw [move, if_pos hcov]
        by_contra hcon
        obtain ⟨k, hk⟩ := hspread _ hcon
        have hzero : ((k : ℤ) + 1) * way = 0 := by linarith
        rcases mul_eq_zero.1 hzero with hk1 | hway0
        · omega
        · exact hne hway0
      rcases h with ⟨q, hq, hcov⟩ | hb
      · rcases List.mem_cons.1 hq with rfl | hq
        · exact Or.inr (hgone hcov)
        · exact Or.inl ⟨q, hq, hcov⟩
      · right
        by_cases hcov : p.1 ≤ b ∧ b < p.1 + n
        · exact hgone hcov
        · rw [move, if_neg hcov, hb]

end Moves
