/-
**Information elements.**

A row of elements, each with a number, a length and so many bytes.  A reader takes them one after the other, up to
the first that is not whole.

Main results:

* `Elements.elements_of_fits`, `Elements.elements_of_broken` — the first element, or none;
* `Elements.quads_succ`, `Elements.quads_of_short` — the first group, or none.
-/

import Mathlib.Tactic

set_option autoImplicit false

namespace Elements

/-- The elements of a row of bytes, up to the first that is not whole. -/
def elements : List UInt8 → List (UInt8 × List UInt8)
  | id :: len :: rest =>
    if len.toNat ≤ rest.length then (id, rest.take len.toNat) :: elements (rest.drop len.toNat) else []
  | _ => []
termination_by l => l.length
decreasing_by
  simp only [List.length_drop, List.length_cons]
  omega

/-- At most so many groups of four bytes, up to the first that is not whole. -/
def quads : ℕ → List UInt8 → List (List UInt8)
  | n + 1, a :: b :: c :: d :: rest => [a, b, c, d] :: quads n rest
  | _, _ => []

variable {l : List UInt8}

theorem elements_of_short (h : l.length < 2) : elements l = [] := by
  match l, h with
  | [], _ => rw [elements]; exact fun _ _ _ h => by cases h
  | [_], _ => rw [elements]; exact fun _ _ _ h => by cases h

theorem elements_cons (id len : UInt8) (rest : List UInt8) :
    elements (id :: len :: rest) =
      if len.toNat ≤ rest.length then (id, rest.take len.toNat) :: elements (rest.drop len.toNat) else [] := by
  rw [elements]

theorem elements_of_fits (h2 : 2 ≤ l.length) (h : 2 + (l.getD 1 0).toNat ≤ l.length) :
    elements l =
      (l.getD 0 0, (l.drop 2).take (l.getD 1 0).toNat) :: elements (l.drop (2 + (l.getD 1 0).toNat)) := by
  match l, h2, h with
  | id :: len :: rest, _, h =>
    have hfits : len.toNat ≤ rest.length := by
      simp only [List.length_cons, List.getD_cons_succ, List.getD_cons_zero] at h
      omega
    rw [elements_cons, if_pos hfits, List.getD_cons_zero, List.getD_cons_succ, List.getD_cons_zero, Nat.add_comm 2]
    rfl

theorem elements_of_broken (h2 : 2 ≤ l.length) (h : l.length < 2 + (l.getD 1 0).toNat) : elements l = [] := by
  match l, h2, h with
  | id :: len :: rest, _, h =>
    have hbroken : ¬ len.toNat ≤ rest.length := by
      simp only [List.length_cons, List.getD_cons_succ, List.getD_cons_zero] at h
      omega
    rw [elements_cons, if_neg hbroken]

theorem quads_zero (l : List UInt8) : quads 0 l = [] := by
  match l with
  | [] | [_] | [_, _] | [_, _, _] | _ :: _ :: _ :: _ :: _ => rfl

theorem quads_of_short (n : ℕ) (h : l.length < 4) : quads n l = [] := by
  match n, l, h with
  | 0, l, _ => exact quads_zero l
  | n + 1, [], _ | n + 1, [_], _ | n + 1, [_, _], _ | n + 1, [_, _, _], _ => rfl

theorem quads_succ (n : ℕ) (h : 4 ≤ l.length) : quads (n + 1) l = l.take 4 :: quads n (l.drop 4) := by
  match l, h with
  | a :: b :: c :: d :: rest, _ => rfl

end Elements
