/-
**First fit on a list of blocks.**

An allocator that searches its blocks from the left takes the first free one that is large enough,
and puts a new block behind the last when there is none.  As functions of the list of cells: what
the list is afterwards, and where the payload is.

Main results:

* `Tiling.place_of_fits`, `Tiling.place_of_none` — the two ways an allocation goes;
* `Tiling.swaps_place` — **an allocation adds one payload, which is large enough**;
* `Tiling.swaps_cut`, `Tiling.drops_unmark` — a payload is resized, or given up.
-/

import Tnu.Lib.Ledger
import Tnu.Lib.Tiling

set_option autoImplicit false

namespace Tiling

/-- The list after the first fit for `n` bytes has been taken, or put behind the last cell. -/
def place (hdr slack n : ℕ) : List Cell → List Cell
  | [] => [⟨n, false⟩]
  | c :: l =>
    if c.free = true ∧ n ≤ c.size then
      ⟨(keep hdr slack n c).size, false⟩ :: (rest hdr slack n c ++ l)
    else c :: place hdr slack n l

/-- Where the payload is then, in a list that starts at an address. -/
def spot (hdr n : ℕ) : ℕ → List Cell → ℕ
  | a, [] => a + hdr
  | a, c :: l => if c.free = true ∧ n ≤ c.size then a + hdr else spot hdr n (a + hdr + c.size) l

/-- The cell with its payload at `p` is marked free. -/
def unmark (hdr p : ℕ) : ℕ → List Cell → List Cell
  | _, [] => []
  | a, c :: l => if a + hdr = p then ⟨c.size, true⟩ :: l else c :: unmark hdr p (a + hdr + c.size) l

variable {hdr slack n a p : ℕ} {c : Cell} {l A B : List Cell}

/-! ### Taking a cell -/

variable (hdr slack a) in
theorem place_of_fits (hA : ∀ d ∈ A, d.free = true → d.size < n) (hc : c.free = true)
    (hn : n ≤ c.size) :
    place hdr slack n (A ++ c :: B) =
        A ++ ⟨(keep hdr slack n c).size, false⟩ :: (rest hdr slack n c ++ B) ∧
      spot hdr n a (A ++ c :: B) = a + span hdr A + hdr := by
  induction A generalizing a with
  | nil =>
    rw [List.nil_append, place, spot, if_pos ⟨hc, hn⟩, if_pos ⟨hc, hn⟩]
    exact ⟨rfl, rfl⟩
  | cons d A ih =>
    rw [List.forall_mem_cons] at hA
    have hd : ¬(d.free = true ∧ n ≤ d.size) := fun h => by
      have := hA.1 h.1
      omega
    have htail := ih (a := a + hdr + d.size) hA.2
    rw [List.cons_append, place, spot, if_neg hd, if_neg hd, htail.1, htail.2, span_cons]
    exact ⟨rfl, by omega⟩

variable (hdr slack a) in
theorem place_of_none (hl : ∀ d ∈ l, d.free = true → d.size < n) :
    place hdr slack n l = l ++ [⟨n, false⟩] ∧ spot hdr n a l = a + span hdr l + hdr := by
  induction l generalizing a with
  | nil => exact ⟨rfl, rfl⟩
  | cons d l ih =>
    rw [List.forall_mem_cons] at hl
    have hd : ¬(d.free = true ∧ n ≤ d.size) := fun h => by
      have := hl.1 h.1
      omega
    have htail := ih (a := a + hdr + d.size) hl.2
    rw [place, spot, if_neg hd, if_neg hd, htail.1, htail.2, span_cons]
    exact ⟨rfl, by omega⟩

theorem fits_or_none (n : ℕ) (l : List Cell) :
    (∃ A c B, l = A ++ c :: B ∧ c.free = true ∧ n ≤ c.size ∧
      ∀ d ∈ A, d.free = true → d.size < n) ∨ ∀ d ∈ l, d.free = true → d.size < n := by
  induction l with
  | nil => exact .inr (by simp)
  | cons c l ih =>
    by_cases hc : c.free = true ∧ n ≤ c.size
    · exact .inl ⟨[], c, l, rfl, hc.1, hc.2, by simp⟩
    · have hthis : c.free = true → c.size < n := fun hcf => by
        by_contra hlt
        exact hc ⟨hcf, by omega⟩
      rcases ih with ⟨A, d, B, rfl, hd, hn, hA⟩ | hnone
      · exact .inl ⟨c :: A, d, B, rfl, hd, hn, List.forall_mem_cons.2 ⟨hthis, hA⟩⟩
      · exact .inr (List.forall_mem_cons.2 ⟨hthis, hnone⟩)

theorem ne_zero_of_mem_used (hhdr : 0 < hdr) {x : ℕ × ℕ} (hx : x ∈ used hdr a l) : x.1 ≠ 0 := by
  have := (bounds_of_mem_used hx).1
  omega

/-- **An allocation adds one payload**, which is large enough and lies where none was. -/
theorem swaps_place (slack n a : ℕ) (hhdr : 0 < hdr) (l : List Cell) :
    (∃ k, n ≤ k ∧ Ledger.Swaps (used hdr a l) (used hdr a (place hdr slack n l)) 0
      (spot hdr n a l) k) ∧ ∀ x ∈ used hdr a l, x.1 ≠ spot hdr n a l := by
  rcases fits_or_none n l with ⟨A, c, B, rfl, hc, hn, hA⟩ | hnone
  · obtain ⟨hplace, hspot⟩ := place_of_fits hdr slack a (B := B) hA hc hn
    have hin : ∀ x ∈ used hdr a (A ++ c :: B), x ∈ used hdr a A ∨
        x ∈ used hdr (a + span hdr A + hdr + c.size) B := by
      intro x hx
      rwa [used_middle, hc, if_pos rfl, List.nil_append, List.mem_append] at hx
    rw [hplace, hspot]
    refine ⟨⟨(keep hdr slack n c).size, le_size_keep hn, fun x => ?_⟩, fun x hx =>
      ne_of_mem_middle hhdr (hin x hx)⟩
    rw [used_cut, and_iff_left_of_imp (ne_zero_of_mem_used hhdr), used_middle, hc]
    simp only [Bool.false_eq_true, if_false, if_true, List.nil_append, List.mem_append,
      List.mem_singleton]
    exact or_left_comm
  · obtain ⟨hplace, hspot⟩ := place_of_none hdr slack a hnone
    rw [hplace, hspot]
    refine ⟨⟨n, le_rfl, fun x => ?_⟩, fun x hx =>
      ne_of_mem_middle (c := ⟨n, false⟩) (B := []) hhdr (.inl hx)⟩
    rw [used_middle, and_iff_left_of_imp (ne_zero_of_mem_used hhdr)]
    simp only [Bool.false_eq_true, if_false, used_nil, List.append_nil, List.mem_append,
      List.mem_singleton]
    exact or_comm

/-! ### Resizing and giving up a cell -/

/-- **A cell in use that is cut down** keeps its place. -/
theorem swaps_cut (slack n a : ℕ) (hhdr : 0 < hdr) (hc : c.free = false) :
    Ledger.Swaps (used hdr a (A ++ c :: B))
      (used hdr a (A ++ keep hdr slack n c :: (rest hdr slack n c ++ B)))
      (a + span hdr A + hdr) (a + span hdr A + hdr) (keep hdr slack n c).size := by
  intro x
  have hkeep : keep hdr slack n c = ⟨(keep hdr slack n c).size, false⟩ := by
    rw [← hc, ← @free_keep hdr slack n c]
  rw [hkeep, used_cut, used_middle, hc]
  simp only [Bool.false_eq_true, if_false, List.mem_append, List.mem_singleton]
  constructor
  · rintro (hx | rfl | hx)
    · exact .inr ⟨.inl hx, ne_of_mem_middle (c := c) (B := B) hhdr (.inl hx)⟩
    · exact .inl rfl
    · exact .inr ⟨.inr (.inr hx), ne_of_mem_middle hhdr (.inr hx)⟩
  · rintro (rfl | ⟨hx | rfl | hx, hne⟩)
    · exact .inr (.inl rfl)
    · exact .inl hx
    · exact absurd rfl hne
    · exact .inr (.inr hx)

/-- **A cell in use that takes in its free right neighbour** keeps its place. -/
theorem swaps_join (a : ℕ) (hhdr : 0 < hdr) {d : Cell} (hc : c.free = false) (hd : d.free = true) :
    Ledger.Swaps (used hdr a (A ++ c :: d :: B)) (used hdr a (A ++ join hdr c d :: B))
      (a + span hdr A + hdr) (a + span hdr A + hdr) (join hdr c d).size := by
  intro x
  have haddr : a + span hdr A + hdr + (join hdr c d).size =
      a + span hdr A + hdr + c.size + hdr + d.size := by
    rw [join]
    dsimp only
    omega
  rw [used_middle, used_middle, used_cons_free hdr hd, haddr, hc,
    show (join hdr c d).free = false from hc]
  simp only [Bool.false_eq_true, if_false, List.mem_append, List.mem_singleton]
  have hB : x ∈ used hdr (a + span hdr A + hdr + c.size + hdr + d.size) B →
      x.1 ≠ a + span hdr A + hdr := fun hx => by
    have := (bounds_of_mem_used hx).1
    omega
  constructor
  · rintro (hx | rfl | hx)
    · exact .inr ⟨.inl hx, ne_of_mem_middle (c := c) (B := B) hhdr (.inl hx)⟩
    · exact .inl rfl
    · exact .inr ⟨.inr (.inr hx), hB hx⟩
  · rintro (rfl | ⟨hx | rfl | hx, hne⟩)
    · exact .inr (.inl rfl)
    · exact .inl hx
    · exact absurd rfl hne
    · exact .inr (.inr hx)

theorem unmark_middle (hhdr : 0 < hdr) :
    unmark hdr (a + span hdr A + hdr) a (A ++ c :: B) = A ++ ⟨c.size, true⟩ :: B := by
  induction A generalizing a with
  | nil => rw [List.nil_append, unmark, span_nil, Nat.add_zero, if_pos rfl, List.nil_append]
  | cons d A ih =>
    have haddr : a + span hdr (d :: A) + hdr = a + hdr + d.size + span hdr A + hdr := by
      rw [span_cons]
      omega
    rw [List.cons_append, unmark, if_neg (by rw [span_cons]; omega), haddr, ih, List.cons_append]

/-- **Marking a cell free gives its payload up.** -/
theorem drops_unmark (a : ℕ) (hhdr : 0 < hdr) (hc : c.free = false) :
    Ledger.Drops (used hdr a (A ++ c :: B)) (used hdr a (A ++ ⟨c.size, true⟩ :: B))
      (a + span hdr A + hdr) := by
  intro x
  rw [used_middle, used_middle, hc]
  simp only [if_true, List.nil_append, Bool.false_eq_true, if_false, List.mem_append,
    List.mem_singleton]
  constructor
  · exact fun hx => ⟨hx.imp_right .inr, ne_of_mem_middle hhdr hx⟩
  · rintro ⟨hx | rfl | hx, hne⟩
    · exact .inl hx
    · exact absurd rfl hne
    · exact .inr hx

end Tiling
