/-
**Boundary-tagged blocks that tile an array.**

A first-fit allocator keeps an array cut into blocks, each a header followed by its payload, and
remembers of every block its payload size and whether it is free.  Here the array is a list of
cells from left to right.  Allocation cuts a cell in two, freeing joins a cell with its free
neighbours, and neither changes how many bytes the list spans nor touches the cells in use
elsewhere.  A list in which no two neighbours are free is *settled*; freeing settles.

Main definitions:

* `Tiling.Cell`, `Tiling.span` — the blocks, and the bytes they take with their headers;
* `Tiling.keep`, `Tiling.rest` — a cell cut down to a smaller payload, and what is left over;
* `Tiling.Settled` — no two neighbours are free.

Main results:

* `Tiling.span_cut`, `Tiling.span_release` — the array stays tiled;
* `Tiling.used_release` — **freeing touches no other cell in use**;
* `Tiling.settled_release` — **freeing keeps a list settled**;
* `Tiling.eq_singleton_of_settled` — a settled list with nothing in use is one free cell.
-/

import Mathlib.Data.List.Basic
import Mathlib.Data.List.Chain
import Mathlib.Tactic

set_option autoImplicit false

namespace Tiling

/-- One block: how many bytes its payload has, and whether it is free. -/
structure Cell where
  size : ℕ
  free : Bool
deriving DecidableEq, Repr

variable (hdr slack : ℕ)

/-! ### What a list of cells spans -/

def span : List Cell → ℕ
  | [] => 0
  | c :: l => hdr + c.size + span l

@[simp] theorem span_nil : span hdr [] = 0 := rfl

@[simp] theorem span_cons (c : Cell) (l : List Cell) :
    span hdr (c :: l) = hdr + c.size + span hdr l := rfl

@[simp] theorem span_append (l l' : List Cell) :
    span hdr (l ++ l') = span hdr l + span hdr l' := by
  induction l with
  | nil => simp
  | cons c l ih => rw [List.cons_append, span_cons, span_cons, ih]; omega

theorem length_mul_le_span (hdr : ℕ) (l : List Cell) : hdr * l.length ≤ span hdr l := by
  induction l with
  | nil => simp
  | cons c l ih =>
    rw [List.length_cons, span_cons, Nat.mul_add]
    omega

/-- The payloads in use of a list that starts at an address, each with its size. -/
def used : ℕ → List Cell → List (ℕ × ℕ)
  | _, [] => []
  | a, c :: l => (if c.free then [] else [(a + hdr, c.size)]) ++ used (a + hdr + c.size) l

@[simp] theorem used_nil (a : ℕ) : used hdr a [] = [] := rfl

variable {c : Cell} {A B l l' : List Cell} {a i n : ℕ} {x : ℕ × ℕ} {P : ℕ → Prop}

theorem used_cons_free (h : c.free = true) (l : List Cell) :
    used hdr a (c :: l) = used hdr (a + hdr + c.size) l := by
  simp [used, h]

theorem used_cons_used (h : c.free = false) (l : List Cell) :
    used hdr a (c :: l) = (a + hdr, c.size) :: used hdr (a + hdr + c.size) l := by
  simp [used, h]

theorem used_append (a : ℕ) (l l' : List Cell) :
    used hdr a (l ++ l') = used hdr a l ++ used hdr (a + span hdr l) l' := by
  induction l generalizing a with
  | nil => simp
  | cons c l ih =>
    rw [List.cons_append, used, used, ih, List.append_assoc, span_cons, Nat.add_assoc a,
      Nat.add_assoc a]

variable {hdr slack}

theorem bounds_of_mem_used (hx : x ∈ used hdr a l) :
    a + hdr ≤ x.1 ∧ x.1 + x.2 ≤ a + span hdr l := by
  induction l generalizing a with
  | nil => simp at hx
  | cons c l ih =>
    rw [span_cons]
    rw [used, List.mem_append] at hx
    rcases hx with hx | hx
    · split_ifs at hx with hc
      · simp at hx
      · obtain rfl := List.mem_singleton.1 hx
        dsimp only
        omega
    · have := ih hx
      omega

/-- **The payloads in use are disjoint**, with a header between any two. -/
theorem pairwise_used (a : ℕ) (l : List Cell) :
    (used hdr a l).Pairwise fun x y => x.1 + x.2 + hdr ≤ y.1 := by
  induction l generalizing a with
  | nil => simp
  | cons c l ih =>
    rw [used]
    split_ifs with hc
    · exact ih _
    · rw [List.singleton_append, List.pairwise_cons]
      refine ⟨fun y hy => ?_, ih _⟩
      have := (bounds_of_mem_used hy).1
      dsimp only
      omega

theorem disjoint_of_mem_used {y : ℕ × ℕ} (hx : x ∈ used hdr a l)
    (hy : y ∈ used hdr a l) (hne : x.1 ≠ y.1) : x.1 + x.2 ≤ y.1 ∨ y.1 + y.2 ≤ x.1 := by
  have : Std.Symm fun u v : ℕ × ℕ => u.1 + u.2 ≤ v.1 ∨ v.1 + v.2 ≤ u.1 := ⟨fun _ _ => Or.symm⟩
  have hpair : (used hdr a l).Pairwise fun u v => u.1 + u.2 ≤ v.1 ∨ v.1 + v.2 ≤ u.1 :=
    (pairwise_used a l).imp fun h => .inl (by omega)
  exact hpair.forall hx hy fun h => hne (congrArg Prod.fst h)

theorem exists_of_mem_used (hx : x ∈ used hdr a l) :
    ∃ A c B, l = A ++ c :: B ∧ c.free = false ∧ x = (a + span hdr A + hdr, c.size) := by
  induction l generalizing a with
  | nil => simp at hx
  | cons c l ih =>
    rw [used, List.mem_append] at hx
    rcases hx with hx | hx
    · split_ifs at hx with hc
      · simp at hx
      · exact ⟨[], c, l, rfl, by simpa using hc, List.mem_singleton.1 hx⟩
    · obtain ⟨A, d, B, rfl, hd, rfl⟩ := ih hx
      refine ⟨c :: A, d, B, rfl, hd, ?_⟩
      rw [span_cons]
      congr 1
      omega

theorem used_middle : used hdr a (A ++ c :: B) =
    used hdr a A ++ ((if c.free then [] else [(a + span hdr A + hdr, c.size)]) ++
      used hdr (a + span hdr A + hdr + c.size) B) := by
  rw [used_append]
  rfl

theorem ne_of_mem_middle (hhdr : 0 < hdr)
    (hx : x ∈ used hdr a A ∨ x ∈ used hdr (a + span hdr A + hdr + c.size) B) :
    x.1 ≠ a + span hdr A + hdr := by
  rcases hx with hx | hx
  · obtain ⟨A', d, B', rfl, -, rfl⟩ := exists_of_mem_used hx
    rw [span_append, span_cons]
    dsimp only
    omega
  · have := bounds_of_mem_used hx
    omega

/-- The byte at `i` belongs to a header of a list that starts at an address. -/
def InHeader (hdr : ℕ) : ℕ → List Cell → ℕ → Prop
  | _, [], _ => False
  | a, c :: l, i => a ≤ i ∧ i < a + hdr ∨ InHeader hdr (a + hdr + c.size) l i

theorem inHeader_append :
    InHeader hdr a (l ++ l') i ↔ InHeader hdr a l i ∨ InHeader hdr (a + span hdr l) l' i := by
  induction l generalizing a with
  | nil => simp [InHeader]
  | cons c l ih =>
    rw [List.cons_append, InHeader, InHeader, ih, span_cons, ← Nat.add_assoc, ← Nat.add_assoc,
      or_assoc]

theorem bounds_of_inHeader (h : InHeader hdr a l i) :
    a ≤ i ∧ i < a + span hdr l := by
  induction l generalizing a with
  | nil => exact h.elim
  | cons c l ih =>
    rw [span_cons]
    rcases h with h | h
    · omega
    · have := ih h
      omega

/-- **No byte of a payload in use belongs to a header.** -/
theorem not_inHeader_of_mem_used (hx : x ∈ used hdr a l)
    (hlo : x.1 ≤ i) (hhi : i < x.1 + x.2) : ¬InHeader hdr a l i := by
  induction l generalizing a with
  | nil => simp at hx
  | cons c l ih =>
    rw [used, List.mem_append] at hx
    rintro (hi | hi)
    · -- the first header ends before any payload starts
      rcases hx with hx | hx
      · split_ifs at hx with hc
        · simp at hx
        · obtain rfl := List.mem_singleton.1 hx
          dsimp only at hlo
          omega
      · have := (bounds_of_mem_used hx).1
        omega
    · rcases hx with hx | hx
      · split_ifs at hx with hc
        · simp at hx
        · obtain rfl := List.mem_singleton.1 hx
          have := (bounds_of_inHeader hi).1
          dsimp only at hhi
          omega
      · exact ih hx hi

/-! ### Cutting a cell -/

/-- A cell cut down to a payload of `n` bytes, when the header and more than `slack` bytes are
left over. -/
def keep (hdr slack n : ℕ) (c : Cell) : Cell :=
  if c.size < n + hdr + slack then c else ⟨n, c.free⟩

def rest (hdr slack n : ℕ) (c : Cell) : List Cell :=
  if c.size < n + hdr + slack then [] else [⟨c.size - n - hdr, true⟩]

@[simp] theorem free_keep (n : ℕ) (c : Cell) : (keep hdr slack n c).free = c.free := by
  rw [keep]
  split_ifs <;> rfl

theorem le_size_keep {n : ℕ} {c : Cell} (h : n ≤ c.size) : n ≤ (keep hdr slack n c).size := by
  rw [keep]
  split_ifs
  · exact h
  · exact le_rfl

/-- **Cutting a cell changes no span.** -/
theorem span_cut (hdr slack n : ℕ) (c : Cell) :
    hdr + (keep hdr slack n c).size + span hdr (rest hdr slack n c) = hdr + c.size := by
  rw [keep, rest]
  split_ifs
  · simp
  · simp only [span_cons, span_nil]
    omega

theorem used_rest (a n : ℕ) (c : Cell) : used hdr a (rest hdr slack n c) = [] := by
  rw [rest]
  split_ifs
  · rfl
  · rw [used_cons_free hdr rfl, used_nil]

theorem used_cut {a n : ℕ} {A B : List Cell} {c : Cell} (f : Bool) :
    used hdr a (A ++ ⟨(keep hdr slack n c).size, f⟩ :: (rest hdr slack n c ++ B)) =
      used hdr a A ++ ((if f then [] else [(a + span hdr A + hdr, (keep hdr slack n c).size)]) ++
        used hdr (a + span hdr A + hdr + c.size) B) := by
  have hcut := span_cut hdr slack n c
  have haddr : a + span hdr A + hdr + (keep hdr slack n c).size + span hdr (rest hdr slack n c) =
      a + span hdr A + hdr + c.size := by omega
  rw [used_middle, used_append, used_rest, List.nil_append]
  dsimp only
  rw [haddr]

theorem dvd_cut (slack : ℕ) {g : ℕ} (hh : g ∣ hdr) (hn : g ∣ n) (hc : g ∣ c.size) :
    g ∣ (keep hdr slack n c).size ∧ ∀ d ∈ rest hdr slack n c, g ∣ d.size := by
  rw [keep, rest]
  split_ifs
  · exact ⟨hc, by simp⟩
  · refine ⟨hn, fun d hd => ?_⟩
    rw [List.mem_singleton.1 hd]
    exact Nat.dvd_sub (Nat.dvd_sub hc hn) hh

theorem pos_cut (hdr : ℕ) (hs : 0 < slack) (hn : 0 < n) (hc : 0 < c.size) :
    0 < (keep hdr slack n c).size ∧ ∀ d ∈ rest hdr slack n c, 0 < d.size := by
  rw [keep, rest]
  split_ifs
  · exact ⟨hc, by simp⟩
  · refine ⟨hn, fun d hd => ?_⟩
    rw [List.mem_singleton.1 hd]
    dsimp only
    omega

/-! ### Freeing a cell -/

/-- Two neighbours and the header between them as one cell, marked as the left one was. -/
def join (hdr : ℕ) (c d : Cell) : Cell := ⟨c.size + (hdr + d.size), c.free⟩

/-- A cell in front of others takes in the first of them when that one is free. -/
def absorb (hdr : ℕ) (c : Cell) : List Cell → List Cell
  | [] => [c]
  | d :: B => if d.free then join hdr c d :: B else c :: d :: B

/-- A cell takes in a free right neighbour, and is taken in by a free left one, which then takes
in its own neighbours.  The cells on the left stand in reverse order. -/
def release (hdr : ℕ) : List Cell → Cell → List Cell → List Cell
  | [], c, B => absorb hdr c B
  | e :: A, c, B =>
    if e.free then release hdr A e (absorb hdr c B) else (e :: A).reverse ++ absorb hdr c B

theorem exists_absorb_eq_cons (hdr : ℕ) (c : Cell) (B : List Cell) :
    ∃ d B', absorb hdr c B = d :: B' := by
  cases B with
  | nil => exact ⟨c, [], rfl⟩
  | cons e B =>
    rw [absorb]
    split_ifs
    · exact ⟨_, _, rfl⟩
    · exact ⟨_, _, rfl⟩

theorem inHeader_of_absorb
    (h : InHeader hdr a (absorb hdr c B) i) : InHeader hdr a (c :: B) i := by
  cases B with
  | nil => exact h
  | cons d B =>
    rw [absorb] at h
    split_ifs at h with hd
    · rcases h with h | h
      · exact .inl h
      · refine .inr (.inr ?_)
        rwa [join, ← Nat.add_assoc, ← Nat.add_assoc] at h
    · exact h

theorem used_absorb (hc : c.free = true) (a : ℕ) (B : List Cell) :
    used hdr a (absorb hdr c B) = used hdr a (c :: B) := by
  cases B with
  | nil => rfl
  | cons d B =>
    rw [absorb]
    split_ifs with hd
    · rw [used_cons_free hdr (c := join hdr c d) hc, used_cons_free hdr hc,
        used_cons_free hdr hd]
      congr 1
      simp only [join]
      omega
    · rfl

/-- **Freeing touches no other cell in use.** -/
theorem used_release (hc : c.free = true) (a : ℕ) (A B : List Cell) :
    used hdr a (release hdr A c B) = used hdr a (A.reverse ++ c :: B) := by
  induction A generalizing c B with
  | nil => exact used_absorb hc a B
  | cons e A ih =>
    rw [release]
    split_ifs with he
    · rw [ih he, List.reverse_cons, List.append_assoc, used_append, used_append,
        List.singleton_append, used_cons_free hdr he, used_cons_free hdr he, used_absorb hc]
    · rw [used_append, used_append, used_absorb hc]

theorem forall_absorb (hP : ∀ m n, P m → P n → P (m + (hdr + n)))
    (hc : P c.size) (hB : ∀ d ∈ B, P d.size) :
    ∀ d ∈ absorb hdr c B, P d.size := by
  cases B with
  | nil => simpa [absorb] using hc
  | cons e B =>
    rw [List.forall_mem_cons] at hB
    rw [absorb]
    split_ifs
    · exact List.forall_mem_cons.2 ⟨hP _ _ hc hB.1, hB.2⟩
    · exact List.forall_mem_cons.2 ⟨hc, List.forall_mem_cons.2 hB⟩

theorem forall_release (hP : ∀ m n, P m → P n → P (m + (hdr + n)))
    (hA : ∀ d ∈ A, P d.size) (hc : P c.size)
    (hB : ∀ d ∈ B, P d.size) : ∀ d ∈ release hdr A c B, P d.size := by
  induction A generalizing c B with
  | nil => exact forall_absorb hP hc hB
  | cons e A ih =>
    have hA' := List.forall_mem_cons.1 hA
    rw [release]
    split_ifs
    · exact ih hA'.2 hA'.1 (forall_absorb hP hc hB)
    · intro d hd
      rcases List.mem_append.1 hd with hd | hd
      · exact hA d (List.mem_reverse.1 hd)
      · exact forall_absorb hP hc hB d hd

/-! ### Settled lists -/

def Settled (l : List Cell) : Prop := l.IsChain fun c d => ¬(c.free = true ∧ d.free = true)

theorem settled_cons :
    Settled (c :: l) ↔ (∀ d ∈ l.head?, ¬(c.free = true ∧ d.free = true)) ∧ Settled l :=
  List.isChain_cons

theorem settled_append :
    Settled (l ++ l') ↔ Settled l ∧ Settled l' ∧
      ∀ c ∈ l.getLast?, ∀ d ∈ l'.head?, ¬(c.free = true ∧ d.free = true) :=
  List.isChain_append

theorem settled_absorb (c : Cell) (hB : Settled B) :
    Settled (absorb hdr c B) := by
  cases B with
  | nil => exact List.isChain_singleton c
  | cons d B =>
    rw [absorb]
    split_ifs with hd
    · rw [settled_cons] at hB ⊢
      refine ⟨fun e he hfree => hB.1 e he ⟨hd, hfree.2⟩, hB.2⟩
    · rw [settled_cons]
      exact ⟨by simp [hd], hB⟩

/-- **Freeing keeps a list settled**: the free neighbours on both sides are taken in. -/
theorem settled_release (c : Cell) (hA : Settled A.reverse) (hB : Settled B) :
    Settled (release hdr A c B) := by
  induction A generalizing c B with
  | nil => exact settled_absorb c hB
  | cons e A ih =>
    rw [release]
    split_ifs with he
    · rw [List.reverse_cons, settled_append] at hA
      exact ih e hA.1 (settled_absorb c hB)
    · rw [settled_append]
      refine ⟨hA, settled_absorb c hB, ?_⟩
      simp [he]

theorem settled_rest (hB : Settled B)
    (h : rest hdr slack n c = [] ∨ ∀ d ∈ B.head?, d.free = false) :
    Settled (rest hdr slack n c ++ B) := by
  rw [settled_append]
  refine ⟨?_, hB, fun d _ e he => ?_⟩
  · rw [rest]
    split_ifs
    · exact List.isChain_nil
    · exact List.isChain_singleton _
  · rcases h with h | h
    · simp_all
    · simp [h e he]

/-- **A settled list with nothing in use is one free cell.** -/
theorem eq_singleton_of_settled (hl : Settled l) (hne : l ≠ [])
    (hused : used hdr a l = []) : ∃ c : Cell, l = [c] ∧ c.free = true := by
  cases l with
  | nil => exact absurd rfl hne
  | cons c l =>
    have hc : c.free = true := by
      by_contra hc
      rw [used_cons_used hdr (by simpa using hc)] at hused
      simp at hused
    rw [used_cons_free hdr hc] at hused
    cases l with
    | nil => exact ⟨c, rfl, hc⟩
    | cons d l =>
      have hd : d.free = true := by
        by_contra hd
        rw [used_cons_used hdr (by simpa using hd)] at hused
        simp at hused
      exact absurd ⟨hc, hd⟩ ((settled_cons.1 hl).1 d rfl)

end Tiling
