/-
**One pass that merges free neighbours.**

An allocator that does not know the left neighbour of a block may free by marking it and then
walking once over all blocks, merging each free block with a free right neighbour and going on
behind the two.  The pass keeps the payloads in use where they are.  It does not look at a merged
block again, so of three free blocks in a row the third is left over.

Main definitions:

* `Tiling.Crowded` — three free blocks stand in a row.

Main results:

* `Tiling.used_sweep` — **the pass touches no block in use**;
* `Tiling.settled_sweep_iff` — **no two free neighbours are left exactly when no three stood in a
  row**.
-/

import Tnu.Lib.Tiling

set_option autoImplicit false

namespace Tiling

/-- The pass: two free neighbours become one, and the walk goes on behind them. -/
def sweep (hdr : ℕ) : List Cell → List Cell
  | [] => []
  | [c] => [c]
  | c :: d :: l =>
    if c.free = true ∧ d.free = true then join hdr c d :: sweep hdr l
    else c :: sweep hdr (d :: l)

def Crowded : List Cell → Prop
  | c :: d :: e :: l =>
    c.free = true ∧ d.free = true ∧ e.free = true ∨ Crowded (d :: e :: l)
  | _ => False

variable {hdr : ℕ}

variable (hdr) in
theorem span_sweep (l : List Cell) : span hdr (sweep hdr l) = span hdr l := by
  induction l using sweep.induct with
  | case1 => rfl
  | case2 c => rfl
  | case3 c d l h ih =>
    rw [sweep, if_pos h, span_cons, ih, span_cons, span_cons, join]
    dsimp only
    omega
  | case4 c d l h ih =>
    rw [sweep, if_neg h, span_cons, ih]
    rfl

/-- **The pass touches no block in use.** -/
theorem used_sweep (a : ℕ) (l : List Cell) : used hdr a (sweep hdr l) = used hdr a l := by
  induction l using sweep.induct generalizing a with
  | case1 => rfl
  | case2 c => rfl
  | case3 c d l h ih =>
    have haddr : a + hdr + (join hdr c d).size = a + hdr + c.size + hdr + d.size := by
      rw [join]
      dsimp only
      omega
    rw [sweep, if_pos h, used_cons_free hdr (c := join hdr c d) h.1, ih, haddr,
      used_cons_free hdr h.1, used_cons_free hdr h.2]
  | case4 c d l h ih =>
    rw [sweep, if_neg h, used, ih]
    rfl

variable (hdr) in
theorem head?_sweep (l : List Cell) :
    (sweep hdr l).head?.map Cell.free = l.head?.map Cell.free := by
  induction l using sweep.induct with
  | case1 => rfl
  | case2 c => rfl
  | case3 c d l h => rw [sweep, if_pos h]; rfl
  | case4 c d l h => rw [sweep, if_neg h]; rfl

variable {c d : Cell} {l : List Cell}

theorem settled_cons_sweep :
    Settled (c :: sweep hdr l) ↔
      (∀ d ∈ l.head?, ¬(c.free = true ∧ d.free = true)) ∧ Settled (sweep hdr l) := by
  have hhead := head?_sweep hdr l
  rw [settled_cons]
  refine and_congr_left fun _ => ?_
  cases l with
  | nil => simp [sweep]
  | cons d l =>
    cases hs : (sweep hdr (d :: l)).head? with
    | none => simp [hs] at hhead
    | some e =>
      rw [hs, Option.map_some, List.head?_cons, Option.map_some, Option.some_inj] at hhead
      simp [hhead]

theorem crowded_cons_cons (hc : c.free = true) (hd : d.free = true) :
    Crowded (c :: d :: l) ↔ (∃ e ∈ l.head?, e.free = true) ∨ Crowded l := by
  cases l with
  | nil => simp [Crowded]
  | cons e l =>
    have hsecond : Crowded (d :: e :: l) → e.free = true ∨ Crowded (e :: l) := by
      cases l with
      | nil => exact fun h => h.elim
      | cons f l => exact Or.imp (fun h => h.2.1) id
    have hthird : Crowded (e :: l) → Crowded (d :: e :: l) := by
      cases l with
      | nil => exact fun h => h.elim
      | cons f l => exact Or.inr
    simp only [Crowded, hc, hd, true_and, List.head?_cons, Option.mem_some_iff, exists_eq_left']
    constructor
    · rintro (h | h)
      · exact .inl h
      · exact hsecond h
    · exact Or.imp_right hthird

theorem crowded_cons_of_not (h : ¬(c.free = true ∧ d.free = true)) :
    Crowded (c :: d :: l) ↔ Crowded (d :: l) := by
  cases l with
  | nil => simp [Crowded]
  | cons e l =>
    rw [Crowded]
    exact or_iff_right fun hfree => h ⟨hfree.1, hfree.2.1⟩

variable (hdr) in
/-- **No two free neighbours are left exactly when no three free blocks stood in a row.** -/
theorem settled_sweep_iff (l : List Cell) : Settled (sweep hdr l) ↔ ¬Crowded l := by
  induction l using sweep.induct with
  | case1 => simp [sweep, Crowded, Settled]
  | case2 c => simp [sweep, Crowded, Settled]
  | case3 c d l h ih =>
    rw [sweep, if_pos h, settled_cons_sweep, ih, crowded_cons_cons h.1 h.2, not_or]
    refine and_congr_left fun _ => ?_
    simp only [not_exists, not_and, show (join hdr c d).free = true from h.1, true_implies]
  | case4 c d l h ih =>
    rw [sweep, if_neg h, settled_cons_sweep, ih, crowded_cons_of_not h]
    exact and_iff_right (by simpa using h)

end Tiling
