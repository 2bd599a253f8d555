/-
**The blocks of the C library's heap in memory.**

Between its floor and the break a heap is tiled by blocks, each linked to the next.  This module
relates the bytes of memory to the list of cells they stand for, and says what every function of
`Tnu/Libc/Malloc.lean` does to that list.

Main results:

* `blocks_splitBlock`, `blocks_setFree`, `blocks_join`,
  `blocks_append` — cutting, marking, joining and appending;
* `findFreeBlock_spec` — the search is first fit, and ends;
* `coalesce_spec` — **`coalesce` is one pass over the cells**, and ends.
-/

import Tnu.Lib.Sweep
import Tnu.Libc.Malloc

set_option autoImplicit false

namespace Tnu.Libc

open Tiling

theorem headerSize_eq : headerSize = 24 := rfl

theorem minSplit_eq : minSplit = 32 := rfl

/-! ### Headers -/

section Header

variable {m m' : Mem} {a b v : ℕ}

theorem headerAt_congr (h : ∀ i, b ≤ i → i < b + 24 → m' i = m i) :
    headerAt m' b = headerAt m b := by
  rw [headerAt, headerAt, load_congr fun i h₁ h₂ => h i (by omega) (by omega),
    load_congr fun i h₁ h₂ => h i (by omega) (by omega),
    load_congr fun i h₁ h₂ => h i (by omega) (by omega)]

theorem headerAt_setSize (m : Mem) (b v : ℕ) :
    headerAt (setSize m b v) b = { headerAt m b with size := v % word } := by
  simp (disch := omega) only [headerAt, setSize, load_store, load_store_of_disjoint]
  norm_num

theorem headerAt_setFree (m : Mem) (b : ℕ) (f : Bool) :
    headerAt (setFree m b f) b = { headerAt m b with free := f } := by
  simp (disch := omega) only [headerAt, setFree, load_store, load_store_of_disjoint]
  cases f <;> rfl

theorem headerAt_setNext (m : Mem) (b v : ℕ) :
    headerAt (setNext m b v) b = { headerAt m b with next := v % word } := by
  simp (disch := omega) only [headerAt, setNext, load_store, load_store_of_disjoint]
  norm_num

theorem headerAt_next_lt (m : Mem) (b : ℕ) : (headerAt m b).next < word := load_lt m (b + 16) 8

variable {i : ℕ}

theorem setSize_apply (h : i < a ∨ a + 24 ≤ i) : setSize m a v i = m i :=
  store_of_not_mem (by omega)

theorem setFree_apply {f : Bool} (h : i < a ∨ a + 24 ≤ i) : setFree m a f i = m i :=
  store_of_not_mem (by omega)

theorem setNext_apply (h : i < a ∨ a + 24 ≤ i) : setNext m a v i = m i :=
  store_of_not_mem (by omega)

theorem headerAt_fresh (m : Mem) (x s nx : ℕ) (f : Bool) :
    headerAt (setNext (setFree (setSize m x s) x f) x nx) x = ⟨s % word, f, nx % word⟩ := by
  simp only [headerAt_setNext, headerAt_setFree, headerAt_setSize]

theorem fresh_apply (m : Mem) (x s nx : ℕ) (f : Bool) (hi : i < x ∨ x + 24 ≤ i) :
    setNext (setFree (setSize m x s) x f) x nx i = m i := by
  rw [setNext_apply hi, setFree_apply hi, setSize_apply hi]

end Header

/-! ### Segments -/

/-- Where the link behind a block leads: to the cells that follow, or past them. -/
def link : List Cell → ℕ → ℕ → ℕ
  | [], _, n => n
  | _ :: _, a, _ => a

/-- The blocks from address `a` on stand for the cells; the last one's `next` is `n`. -/
def Seg (m : Mem) : ℕ → List Cell → ℕ → Prop
  | _, [], _ => True
  | a, c :: l, n =>
    headerAt m a = ⟨c.size, c.free, link l (a + 24 + c.size) n⟩ ∧ Seg m (a + 24 + c.size) l n

/-- The address of the last block of a segment, or `p` when there is none. -/
def lastBlock : ℕ → ℕ → List Cell → ℕ
  | p, _, [] => p
  | _, a, c :: l => lastBlock a (a + 24 + c.size) l

variable {m m' : Mem} {p a n f hd tl : ℕ} {c d : Cell} {l l' A B : List Cell}

@[simp] theorem link_middle (A : List Cell) (c : Cell) (B : List Cell) (a n : ℕ) :
    link (A ++ c :: B) a n = a := by
  cases A <;> rfl

/-- **A segment of a concatenation** is its two parts, linked to each other. -/
theorem seg_append : Seg m a (l ++ l') n ↔
    Seg m a l (link l' (a + span 24 l) n) ∧ Seg m (a + span 24 l) l' n := by
  induction l generalizing a with
  | nil => simp [Seg]
  | cons c l ih =>
    have hlink : link (l ++ l') (a + 24 + c.size) n =
        link l (a + 24 + c.size) (link l' (a + 24 + c.size + span 24 l) n) := by
      cases l <;> simp [link]
    rw [List.cons_append, Seg, Seg, ih, hlink, span_cons, ← Nat.add_assoc, ← Nat.add_assoc,
      and_assoc]

theorem Seg.congr (h : ∀ i, a ≤ i → i < a + span 24 l → m' i = m i) (hs : Seg m a l n) :
    Seg m' a l n := by
  induction l generalizing a with
  | nil => trivial
  | cons c l ih =>
    rw [span_cons] at h
    refine ⟨?_, ih (fun i h₁ h₂ => h i (by omega) (by omega)) hs.2⟩
    rw [headerAt_congr fun i h₁ h₂ => h i (by omega) (by omega)]
    exact hs.1

theorem lastBlock_append (p a : ℕ) (l l' : List Cell) :
    lastBlock p a (l ++ l') = lastBlock (lastBlock p a l) (a + span 24 l) l' := by
  induction l generalizing p a with
  | nil => simp [lastBlock]
  | cons c l ih =>
    rw [List.cons_append, lastBlock, lastBlock, ih, span_cons, ← Nat.add_assoc, ← Nat.add_assoc]

theorem lastBlock_middle (p a : ℕ) (A : List Cell) (c : Cell) (B : List Cell) :
    lastBlock p a (A ++ c :: B) = lastBlock (a + span 24 A) (a + span 24 A + 24 + c.size) B := by
  rw [lastBlock_append]
  rfl

theorem le_lastBlock (p a : ℕ) (hl : l ≠ []) : a ≤ lastBlock p a l := by
  induction l generalizing p a with
  | nil => exact absurd rfl hl
  | cons c l ih =>
    rw [lastBlock]
    cases l with
    | nil => exact le_rfl
    | cons d l =>
      have := ih a (a + 24 + c.size) (List.cons_ne_nil d l)
      omega

/-! ### The whole list -/

/-- Memory holds the blocks that stand for the cells, from `f` on, with this head and tail. -/
structure Blocks (m : Mem) (f hd tl : ℕ) (cells : List Cell) : Prop where
  seg : Seg m f cells 0
  head : hd = link cells f 0
  tail : tl = lastBlock 0 f cells
  pos : 0 < f
  fits : f + span 24 cells < word

variable {s : Heap} {x fuel size : ℕ}

theorem seg_middle (hx : x = f + span 24 A) :
    Seg m f (A ++ c :: B) 0 ↔ Seg m f A x ∧
      headerAt m x = ⟨c.size, c.free, link B (x + 24 + c.size) 0⟩ ∧
      Seg m (x + 24 + c.size) B 0 := by
  subst hx
  rw [seg_append]
  rfl

theorem Blocks.length_lt (hb : Blocks m f hd tl l) : l.length < blockFuel := by
  have := length_mul_le_span 24 l
  have := hb.fits
  rw [blockFuel]
  omega

theorem Blocks.update {c' : Cell} (hb : Blocks m f hd tl (A ++ c :: B))
    (hx : x = f + span 24 A) (hsize : c'.size = c.size)
    (hm : ∀ i, i < x ∨ x + 24 ≤ i → m' i = m i)
    (hc : headerAt m' x = ⟨c'.size, c'.free, link B (x + 24 + c.size) 0⟩) :
    Blocks m' f hd tl (A ++ c' :: B) := by
  obtain ⟨hA, -, hB⟩ := (seg_middle hx).1 hb.seg
  refine ⟨(seg_middle hx).2 ⟨?_, ?_, ?_⟩, ?_, ?_, hb.pos, ?_⟩
  · exact hA.congr fun i _ h₂ => hm i (.inl (by omega))
  · rw [hc, hsize]
  · rw [hsize]
    exact hB.congr fun i h₁ _ => hm i (.inr (by omega))
  · rw [hb.head, link_middle, link_middle]
  · rw [hb.tail, lastBlock_middle, lastBlock_middle, hsize]
  · have := hb.fits
    rw [span_append, span_cons] at this ⊢
    omega

theorem blocks_setFree (hx : x = f + span 24 A) (free : Bool)
    (hb : Blocks m f hd tl (A ++ c :: B)) :
    Blocks (setFree m x free) f hd tl (A ++ ⟨c.size, free⟩ :: B) := by
  refine hb.update hx rfl (fun i hi => setFree_apply hi) ?_
  rw [headerAt_setFree, ((seg_middle hx).1 hb.seg).2.1]

/-- **`split_block` cuts a cell.** -/
theorem blocks_splitBlock (hx : x = f + span 24 A)
    (hb : Blocks s.mem f s.head s.tail (A ++ c :: B)) (hs : size + 56 < word) :
    Blocks (splitBlock s x size).mem f (splitBlock s x size).head (splitBlock s x size).tail
        (A ++ keep 24 32 size c :: (rest 24 32 size c ++ B)) ∧
      (splitBlock s x size).brk = s.brk := by
  have hpos := hb.pos
  have hfits := hb.fits
  rw [span_append, span_cons] at hfits
  have hW := word_eq
  have hS := headerSize_eq
  have hM := minSplit_eq
  obtain ⟨hA, hc, hB⟩ := (seg_middle hx).1 hb.seg
  have hmod : (size + headerSize + minSplit) % word = size + 24 + 32 := Nat.mod_eq_of_lt (by omega)
  rw [splitBlock, hc, hmod, keep, rest]
  by_cases hlt : c.size < size + 24 + 32
  · rw [if_pos hlt, if_pos hlt, if_pos hlt]
    exact ⟨hb, rfl⟩
  rw [if_neg hlt, if_neg hlt, if_neg hlt]
  have hy : (x + headerSize + size) % word = x + 24 + size := Nat.mod_eq_of_lt (by omega)
  have hrest : sub64 (sub64 c.size size) headerSize = c.size - size - 24 := by
    rw [sub64, sub64, word_eq]
    omega
  extract_lets next m₁ m₂ m₃ m₄ m₅
  refine ⟨?_, rfl⟩
  dsimp only
  have hnext : next = x + 24 + size := hy
  -- the new header is written, then the size and the link of the old one
  have hoff : ∀ i, i < next ∨ next + 24 ≤ i → m₃ i = m₂ i ∧ m₂ i = s.mem i := fun i hi =>
    ⟨setNext_apply hi, (setFree_apply hi).trans (setSize_apply hi)⟩
  have hoff' : ∀ i, i < x ∨ x + 24 ≤ i → m₅ i = m₃ i := fun i hi =>
    (setNext_apply hi).trans (setSize_apply hi)
  have hx₂ : headerAt m₂ x = headerAt s.mem x :=
    headerAt_congr fun i h₁ h₂ => (hoff i (by omega)).2
  have hx₃ : headerAt m₃ x = headerAt s.mem x :=
    headerAt_congr fun i h₁ h₂ => ((hoff i (by omega)).1.trans (hoff i (by omega)).2)
  have hlink := headerAt_next_lt s.mem x
  rw [hc] at hlink
  have hfresh : headerAt m₃ next = ⟨c.size - size - 24, true, link B (x + 24 + c.size) 0⟩ := by
    rw [headerAt_fresh, hx₂, hc, hrest, Nat.mod_eq_of_lt (by omega), Nat.mod_eq_of_lt hlink]
  have hz : x + 24 + size + 24 + (c.size - size - 24) = x + 24 + c.size := by omega
  rw [List.singleton_append]
  refine ⟨(seg_middle hx).2 ⟨?_, ?_, ?_, ?_⟩, ?_, ?_, hpos, ?_⟩
  · refine hA.congr fun i _ h₂ => ?_
    rw [hoff' i (by omega), (hoff i (by omega)).1, (hoff i (by omega)).2]
  · rw [headerAt_setNext, headerAt_setSize, hx₃, hc, Nat.mod_eq_of_lt (by omega),
      Nat.mod_eq_of_lt (by omega), hnext]
    rfl
  · rw [← hnext, headerAt_congr fun i h₁ h₂ => hoff' i (by omega), hfresh]
    dsimp only
    rw [hnext, hz]
  · dsimp only
    rw [hz]
    refine hB.congr fun i h₁ _ => ?_
    rw [hoff' i (by omega), (hoff i (by omega)).1, (hoff i (by omega)).2]
  · rw [hb.head, link_middle, link_middle]
  · rw [hb.tail, lastBlock_middle, lastBlock_middle, lastBlock, ← hx, hnext]
    dsimp only
    rw [hz]
    cases B with
    | nil => rw [lastBlock, lastBlock, if_pos rfl]
    | cons d B =>
      have := le_lastBlock x (x + 24 + c.size) (List.cons_ne_nil d B)
      rw [if_neg (by omega)]
      rfl
  · simp only [span_append, span_cons]
    omega

theorem blocks_join (hx : x = f + span 24 A) (hb : Blocks m f hd tl (A ++ c :: d :: B)) :
    Blocks (setNext (setSize m x (c.size + (24 + d.size))) x (link B (x + 24 + c.size + 24 + d.size) 0))
      f hd (if B = [] then x else tl) (A ++ join 24 c d :: B) := by
  have hfits := hb.fits
  rw [span_append, span_cons, span_cons] at hfits
  obtain ⟨hA, hc, hd', hB⟩ := (seg_middle hx).1 hb.seg
  have hz : x + 24 + (c.size + (24 + d.size)) = x + 24 + c.size + 24 + d.size := by omega
  have hlink := headerAt_next_lt m (x + 24 + c.size)
  rw [hd'] at hlink
  have hoff : ∀ v w, ∀ i, i < x ∨ x + 24 ≤ i → setNext (setSize m x v) x w i = m i :=
    fun v w i hi => (setNext_apply hi).trans (setSize_apply hi)
  refine ⟨(seg_middle hx).2 ⟨?_, ?_, ?_⟩, ?_, ?_, hb.pos, ?_⟩
  · exact hA.congr fun i _ h₂ => hoff _ _ i (.inl (by omega))
  · rw [headerAt_setNext, headerAt_setSize, hc, Nat.mod_eq_of_lt (by omega),
      Nat.mod_eq_of_lt hlink, join]
    dsimp only
    rw [hz]
  · rw [join]
    dsimp only
    rw [hz]
    exact hB.congr fun i h₁ _ => hoff _ _ i (.inr (by omega))
  · rw [hb.head, link_middle, link_middle]
  · rw [hb.tail, lastBlock_middle, lastBlock_middle, lastBlock, join, ← hx]
    dsimp only
    rw [hz]
    cases B with
    | nil => rw [if_pos rfl, lastBlock]
    | cons e B =>
      rw [if_neg (List.cons_ne_nil e B), lastBlock, lastBlock]
  · rw [span_append, span_cons, join]
    dsimp only
    omega

/-- **`request_block` puts a used block behind the last one.** -/
theorem blocks_append {y : ℕ} (hy : y = f + span 24 l) (hb : Blocks m f hd tl l)
    (hfit : y + 24 + size < word) :
    Blocks (if tl ≠ 0 then setNext (setNext (setFree (setSize m y size) y false) y 0) tl y
        else setNext (setFree (setSize m y size) y false) y 0)
      f (if hd = 0 then y else hd) y (l ++ [⟨size, false⟩]) := by
  have hpos := hb.pos
  have hoff : ∀ i, i < y ∨ y + 24 ≤ i →
      setNext (setFree (setSize m y size) y false) y 0 i = m i := fun i hi =>
    fresh_apply _ _ _ _ _ hi
  have hfresh : headerAt (setNext (setFree (setSize m y size) y false) y 0) y = ⟨size, false, 0⟩ := by
    rw [headerAt_fresh, Nat.mod_eq_of_lt (by omega)]
    rfl
  have hspan : f + span 24 (l ++ [⟨size, false⟩]) < word := by
    simp only [span_append, span_cons, span_nil]
    omega
  have hlast : y = lastBlock 0 f (l ++ [⟨size, false⟩]) := by
    rw [lastBlock_middle, lastBlock, hy]
  generalize setNext (setFree (setSize m y size) y false) y 0 = m₁ at *
  rcases List.eq_nil_or_concat l with rfl | ⟨init, c, rfl⟩
  · -- the first block of all
    have htl : tl = 0 := hb.tail
    have hhd : hd = 0 := hb.head
    rw [span_nil, Nat.add_zero] at hy
    subst hy
    rw [if_neg (by omega), if_pos hhd]
    exact ⟨⟨hfresh, trivial⟩, rfl, hlast, hpos, hspan⟩
  · rw [List.concat_eq_append] at *
    have hx : tl = f + span 24 init := by
      rw [hb.tail, lastBlock_middle, lastBlock]
    have hhd := hb.head
    rw [link_middle] at hhd
    rw [if_pos (by omega), if_neg (by omega)]
    obtain ⟨hA, hc, -⟩ := (seg_middle hx).1 hb.seg
    rw [span_append, span_cons, span_nil] at hy
    have hxy : tl + 24 + c.size = y := by omega
    have hoff₂ : ∀ i, i < tl ∨ tl + 24 ≤ i → setNext m₁ tl y i = m₁ i := fun i hi =>
      setNext_apply hi
    have hx₁ : headerAt m₁ tl = headerAt m tl := headerAt_congr fun i h₁ h₂ => hoff i (by omega)
    rw [List.append_assoc] at hspan hlast ⊢
    refine ⟨(seg_middle hx).2 ⟨?_, ?_, ?_, trivial⟩, ?_, hlast, hpos, hspan⟩
    · refine hA.congr fun i _ h₂ => ?_
      rw [hoff₂ i (by omega), hoff i (by omega)]
    · rw [headerAt_setNext, hx₁, hc, Nat.mod_eq_of_lt (by omega), ← hxy]
      rfl
    · rw [hxy, headerAt_congr fun i h₁ h₂ => hoff₂ i (by omega), hfresh]
      rfl
    · rw [hhd, List.singleton_append, link_middle]

/-! ### The loops -/

/-- **The search finds the first free block that is large enough**, or none, and ends. -/
theorem findFreeLoop_spec (size : ℕ) (hb : Blocks m f hd tl (A ++ B)) (hf : B.length < fuel) :
    ∃ r, findFreeLoop m size fuel (link B (f + span 24 A) 0) = some r ∧
      (r = 0 ∧ (∀ c ∈ B, c.free = true → c.size < size) ∨
        ∃ A' c B', B = A' ++ c :: B' ∧ c.free = true ∧ size ≤ c.size ∧
          (∀ d ∈ A', d.free = true → d.size < size) ∧ r = f + span 24 (A ++ A')) := by
  have hpos := hb.pos
  induction B generalizing A fuel with
  | nil =>
    obtain ⟨fuel, rfl⟩ : ∃ k, fuel = k + 1 := ⟨fuel - 1, by simp at hf; omega⟩
    exact ⟨0, rfl, .inl ⟨rfl, by simp⟩⟩
  | cons c B ih =>
    obtain ⟨fuel, rfl⟩ : ∃ k, fuel = k + 1 := ⟨fuel - 1, by simp at hf; omega⟩
    set x := f + span 24 A with hx
    obtain ⟨-, hc, -⟩ := (seg_middle hx).1 hb.seg
    rw [link, findFreeLoop, if_neg (by omega), hc]
    by_cases hfit : c.free = true ∧ size ≤ c.size
    · rw [if_pos hfit]
      exact ⟨x, rfl, .inr ⟨[], c, B, rfl, hfit.1, hfit.2, by simp, by rw [List.append_nil]⟩⟩
    · rw [if_neg hfit]
      have hnext : link B (x + 24 + c.size) 0 = link B (f + span 24 (A ++ [c])) 0 := by
        rw [span_append, span_cons, span_nil]
        congr 1
        omega
      dsimp only
      rw [hnext]
      obtain ⟨r, heq, hcase⟩ := ih
        (show Blocks m f hd tl (A ++ [c] ++ B) by rwa [List.append_assoc])
        (show B.length < fuel by simpa using hf)
      refine ⟨r, heq, ?_⟩
      have hthis : c.free = true → c.size < size := fun hcf => by
        by_contra hlt
        exact hfit ⟨hcf, by omega⟩
      rcases hcase with ⟨h0, hnone⟩ | ⟨A', d, B', rfl, hdf, hle, hfirst, hr⟩
      · exact .inl ⟨h0, List.forall_mem_cons.2 ⟨hthis, hnone⟩⟩
      · refine .inr ⟨c :: A', d, B', rfl, hdf, hle, List.forall_mem_cons.2 ⟨hthis, hfirst⟩, ?_⟩
        rwa [List.append_assoc] at hr

theorem findFreeBlock_spec (size : ℕ) (hb : Blocks s.mem f s.head s.tail l) :
    ∃ r, findFreeBlock s size = some r ∧
      (r = 0 ∧ (∀ c ∈ l, c.free = true → c.size < size) ∨
        ∃ A c B, l = A ++ c :: B ∧ c.free = true ∧ size ≤ c.size ∧
          (∀ d ∈ A, d.free = true → d.size < size) ∧ r = f + span 24 A) := by
  have hloop := findFreeLoop_spec (A := []) size hb hb.length_lt
  rw [span_nil, Nat.add_zero, ← hb.head] at hloop
  exact hloop

theorem Blocks.tail_eq_iff (hb : Blocks m f hd tl (A ++ c :: d :: B)) :
    tl = f + span 24 A + 24 + c.size ↔ B = [] := by
  rw [hb.tail, lastBlock_middle, lastBlock]
  cases B with
  | nil => simp [lastBlock]
  | cons e B =>
    have := le_lastBlock (f + span 24 A + 24 + c.size) (f + span 24 A + 24 + c.size + 24 + d.size)
      (List.cons_ne_nil e B)
    refine iff_of_false (by omega) (List.cons_ne_nil e B)

theorem coalesceLoop_merge (hx : x = f + span 24 A)
    (hb : Blocks m f hd tl (A ++ c :: d :: B)) (hc : c.free = true) (hd' : d.free = true) :
    coalesceLoop (fuel + 1) m tl x = coalesceLoop fuel
      (setNext (setSize m x (c.size + (24 + d.size))) x (link B (x + 24 + c.size + 24 + d.size) 0))
      (if B = [] then x else tl) (link B (x + 24 + c.size + 24 + d.size) 0) := by
  have hpos := hb.pos
  have hfits := hb.fits
  rw [span_append, span_cons, span_cons] at hfits
  obtain ⟨-, hcx, hB⟩ := (seg_middle hx).1 hb.seg
  have hdx := hB.1
  have htail := hb.tail_eq_iff
  rw [← hx] at htail
  have hnext : link (d :: B) (x + 24 + c.size) 0 = x + 24 + c.size := rfl
  have hlast : (x + headerSize + c.size) % word = x + 24 + c.size := by
    rw [headerSize_eq]
    exact Nat.mod_eq_of_lt (by omega)
  have hsame : headerAt (setSize m x (c.size + (headerSize + d.size))) (x + 24 + c.size) =
      headerAt m (x + 24 + c.size) := headerAt_congr fun i h₁ h₂ => setSize_apply (by omega)
  have hlt := headerAt_next_lt m (x + 24 + c.size)
  rw [hdx] at hlt
  have hcond : x ≠ 0 ∧ x + 24 + c.size ≠ 0 := by omega
  simp only [coalesceLoop, hcx, hnext, hcond.1, hcond.2, hc, hdx, hd', hlast, hsame,
    headerAt_setNext, Nat.mod_eq_of_lt hlt, htail, or_self, and_self, if_true, if_false]

theorem coalesceLoop_skip (hx : x = f + span 24 A)
    (hb : Blocks m f hd tl (A ++ c :: d :: B)) (hfree : ¬(c.free = true ∧ d.free = true)) :
    coalesceLoop (fuel + 1) m tl x = coalesceLoop fuel m tl (x + 24 + c.size) := by
  have hpos := hb.pos
  obtain ⟨-, hcx, hB⟩ := (seg_middle hx).1 hb.seg
  have hdx := hB.1
  have hnext : link (d :: B) (x + 24 + c.size) 0 = x + 24 + c.size := rfl
  rw [coalesceLoop, hcx]
  dsimp only
  rw [hnext, hdx, if_neg (by omega), if_neg fun h => hfree ⟨h.1, h.2.1⟩]

/-- **The loop of `coalesce` sweeps the cells it still has in front of it**, and ends. -/
theorem coalesceLoop_spec (hb : Blocks m f hd tl (A ++ B)) (hf : B.length < fuel) :
    ∃ m' tl', coalesceLoop fuel m tl (link B (f + span 24 A) 0) = some (m', tl') ∧
      Blocks m' f hd tl' (A ++ sweep 24 B) := by
  induction fuel generalizing m tl A B with
  | zero => omega
  | succ fuel ih =>
    cases B with
    | nil => exact ⟨m, tl, rfl, hb⟩
    | cons c B =>
      have hx : link (c :: B) (f + span 24 A) 0 = f + span 24 A := rfl
      rw [hx]
      cases B with
      | nil =>
        have hc := ((seg_middle rfl).1 hb.seg).2.1
        refine ⟨m, tl, ?_, hb⟩
        rw [coalesceLoop, if_pos (.inr (by rw [hc]; rfl))]
      | cons d B =>
        rw [List.length_cons, List.length_cons] at hf
        have hspan : f + span 24 A + 24 + c.size = f + span 24 (A ++ [c]) := by
          rw [span_append, span_cons, span_nil]
          omega
        by_cases hfree : c.free = true ∧ d.free = true
        · have hjoin := blocks_join rfl hb
          have hgoon : f + span 24 A + 24 + c.size + 24 + d.size =
              f + span 24 (A ++ [join 24 c d]) := by
            simp only [span_append, span_cons, span_nil, join]
            omega
          rw [coalesceLoop_merge rfl hb hfree.1 hfree.2, sweep, if_pos hfree]
          rw [hgoon] at hjoin ⊢
          rw [List.append_cons A (join 24 c d) B] at hjoin
          rw [List.append_cons A (join 24 c d) (sweep 24 B)]
          exact ih hjoin (by omega)
        · have hskip := hb
          rw [coalesceLoop_skip rfl hb hfree, sweep, if_neg hfree, hspan]
          rw [List.append_cons A c (d :: B)] at hskip
          rw [List.append_cons A c (sweep 24 (d :: B))]
          exact ih hskip (by rw [List.length_cons]; omega)

/-- **`coalesce` is one pass over the cells.** -/
theorem coalesce_spec (hb : Blocks s.mem f s.head s.tail l) :
    ∃ s', coalesce s = some s' ∧ Blocks s'.mem f s'.head s'.tail (sweep 24 l) ∧ s'.brk = s.brk := by
  obtain ⟨m', tl', heq, hrep⟩ := coalesceLoop_spec (A := []) hb hb.length_lt
  rw [span_nil, Nat.add_zero, ← hb.head] at heq
  refine ⟨{ s with mem := m', tail := tl' }, ?_, hrep, rfl⟩
  rw [coalesce, heq, Option.map_some]

end Tnu.Libc
