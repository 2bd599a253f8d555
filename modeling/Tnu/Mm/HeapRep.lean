/-
**What the blocks of the heap stand for.**

The headers found in memory by following links from the start of the array are the cells of a
tiling: each block starts where the one before it ends, its links lead to its two neighbours, and
its magic is intact.  Every function of `Tnu/Mm/Heap.lean` is then an operation of
`Tnu/Lib/Tiling.lean` on those cells.

Main results:

* `heapRep_splitBlock` — **`split_block` cuts a cell**;
* `heapRep_coalesce` — **`coalesce` frees one**, and returns;
* `kmallocLoop_spec` — the loop finds the first free cell that is large enough.
-/

import Tnu.Lib.Tiling
import Tnu.Mm.Heap

set_option autoImplicit false

namespace Tnu.Mm

open Tiling

theorem blockSize_eq : blockSize = 32 := rfl

theorem kernelHeapSize_eq : kernelHeapSize = 16777216 := rfl

/-! ### Reading headers back -/

section Header

variable {m m' : Mem} {a b v : ℕ}

theorem blockAt_congr (h : ∀ i, b ≤ i → i < b + 32 → m' i = m i) : blockAt m' b = blockAt m b := by
  rw [blockAt, blockAt, load_congr fun i h₁ h₂ => h i (by omega) (by omega),
    load_congr fun i h₁ h₂ => h i (by omega) (by omega),
    load_congr fun i h₁ h₂ => h i (by omega) (by omega),
    load_congr fun i h₁ h₂ => h i (by omega) (by omega),
    load_congr fun i h₁ h₂ => h i (by omega) (by omega)]

theorem blockAt_setSize (m : Mem) (b v : ℕ) :
    blockAt (setSize m b v) b = { blockAt m b with size := v % word } := by
  simp (disch := omega) only [blockAt, setSize, load_store, load_store_of_disjoint]
  norm_num

theorem blockAt_setFree (m : Mem) (b : ℕ) (f : Bool) :
    blockAt (setFree m b f) b = { blockAt m b with free := f } := by
  simp (disch := omega) only [blockAt, setFree, load_store, load_store_of_disjoint]
  cases f <;> rfl

theorem blockAt_setMagic (m : Mem) (b : ℕ) :
    blockAt (setMagic m b heapMagic) b = { blockAt m b with magic := heapMagic } := by
  simp (disch := omega) only [blockAt, setMagic, load_store, load_store_of_disjoint]
  norm_num

theorem blockAt_setNext (m : Mem) (b v : ℕ) :
    blockAt (setNext m b v) b = { blockAt m b with next := v % word } := by
  simp (disch := omega) only [blockAt, setNext, load_store, load_store_of_disjoint]
  norm_num

theorem blockAt_setPrev (m : Mem) (b v : ℕ) :
    blockAt (setPrev m b v) b = { blockAt m b with prev := v % word } := by
  simp (disch := omega) only [blockAt, setPrev, load_store, load_store_of_disjoint]
  norm_num

theorem blockAt_next_lt (m : Mem) (b : ℕ) : (blockAt m b).next < word := load_lt m (b + 16) 8

variable {i : ℕ}

theorem setSize_apply (h : i < a ∨ a + 32 ≤ i) : setSize m a v i = m i :=
  store_of_not_mem (by omega)

theorem setFree_apply {f : Bool} (h : i < a ∨ a + 32 ≤ i) : setFree m a f i = m i :=
  store_of_not_mem (by omega)

theorem setMagic_apply (h : i < a ∨ a + 32 ≤ i) : setMagic m a v i = m i :=
  store_of_not_mem (by omega)

theorem setNext_apply (h : i < a ∨ a + 32 ≤ i) : setNext m a v i = m i :=
  store_of_not_mem (by omega)

theorem setPrev_apply (h : i < a ∨ a + 32 ≤ i) : setPrev m a v i = m i :=
  store_of_not_mem (by omega)

theorem blockAt_setSize_of_ne (h : a + 32 ≤ b ∨ b + 32 ≤ a) :
    blockAt (setSize m a v) b = blockAt m b :=
  blockAt_congr fun _ _ _ => setSize_apply (by omega)

end Header

/-! ### Segments -/

/-- Where the link behind a block leads: to the cells that follow, or past them. -/
def link : List Cell → ℕ → ℕ → ℕ
  | [], _, n => n
  | _ :: _, a, _ => a

/-- The blocks from address `a` on stand for the cells; the first one's `prev` is `p`, the last
one's `next` is `n`. -/
def Seg (m : Mem) : ℕ → ℕ → List Cell → ℕ → Prop
  | _, _, [], _ => True
  | p, a, c :: l, n =>
    blockAt m a = ⟨c.size, c.free, heapMagic, link l (a + 32 + c.size) n, p⟩ ∧
      Seg m a (a + 32 + c.size) l n

/-- The address of the last block of a segment, or `p` when there is none. -/
def lastBlock : ℕ → ℕ → List Cell → ℕ
  | p, _, [] => p
  | _, a, c :: l => lastBlock a (a + 32 + c.size) l

variable {m m' : Mem} {p q a n : ℕ} {c : Cell} {l l' A B : List Cell}

@[simp] theorem seg_nil (m : Mem) (p a n : ℕ) : Seg m p a [] n := trivial

theorem seg_cons : Seg m p a (c :: l) n ↔
    blockAt m a = ⟨c.size, c.free, heapMagic, link l (a + 32 + c.size) n, p⟩ ∧
      Seg m a (a + 32 + c.size) l n := Iff.rfl

/-- **A segment of a concatenation** is its two parts, linked to each other. -/
theorem seg_append : Seg m p a (l ++ l') n ↔
    Seg m p a l (link l' (a + span 32 l) n) ∧
      Seg m (lastBlock p a l) (a + span 32 l) l' n := by
  induction l generalizing p a with
  | nil => simp [lastBlock]
  | cons c l ih =>
    have hlink : link (l ++ l') (a + 32 + c.size) n =
        link l (a + 32 + c.size) (link l' (a + 32 + c.size + span 32 l) n) := by
      cases l <;> simp [link]
    rw [List.cons_append, seg_cons, seg_cons, ih, hlink, span_cons, ← Nat.add_assoc,
      ← Nat.add_assoc, and_assoc, lastBlock]

theorem Seg.congr (h : ∀ i, a ≤ i → i < a + span 32 l → m' i = m i) (hs : Seg m p a l n) :
    Seg m' p a l n := by
  induction l generalizing p a with
  | nil => trivial
  | cons c l ih =>
    rw [span_cons] at h
    refine ⟨?_, ih (fun i h₁ h₂ => h i (by omega) (by omega)) hs.2⟩
    rw [blockAt_congr fun i h₁ h₂ => h i (by omega) (by omega)]
    exact hs.1

theorem Seg.setPrev (hq : q < word) (hs : Seg m p a l n) :
    Seg (if l = [] then m else setPrev m a q) q a l n := by
  cases l with
  | nil => trivial
  | cons c l =>
    rw [if_neg (List.cons_ne_nil c l)]
    refine ⟨?_, hs.2.congr fun i h₁ _ => setPrev_apply (by omega)⟩
    rw [blockAt_setPrev, hs.1, Nat.mod_eq_of_lt hq]

theorem lastBlock_append (p a : ℕ) (l l' : List Cell) :
    lastBlock p a (l ++ l') = lastBlock (lastBlock p a l) (a + span 32 l) l' := by
  induction l generalizing p a with
  | nil => simp [lastBlock]
  | cons c l ih =>
    rw [List.cons_append, lastBlock, lastBlock, ih, span_cons, ← Nat.add_assoc, ← Nat.add_assoc]

theorem lastBlock_concat (p a : ℕ) (l : List Cell) (c : Cell) :
    lastBlock p a (l ++ [c]) = a + span 32 l := by
  rw [lastBlock_append]
  rfl

variable {s : Heap} {x z fuel size : ℕ}

theorem setPrev_link (m : Mem) (hz : z ≠ 0) (B : List Cell) (y : ℕ) :
    (if link B z 0 ≠ 0 then Mm.setPrev m (link B z 0) y else m) =
      if B = [] then m else Mm.setPrev m z y := by
  cases B <;> simp [link, hz]

/-! ### The whole array -/

/-- Memory holds the blocks that stand for the cells, and they tile the array. -/
structure HeapRep (h : HeapArray) (m : Mem) (cells : List Cell) : Prop where
  seg : Seg m 0 h.base cells 0
  tiles : span 32 cells = kernelHeapSize

variable {h : HeapArray}

theorem heapRep_middle (hx : x = h.base + span 32 A) :
    HeapRep h m (A ++ c :: B) ↔
      Seg m 0 h.base A x ∧
      blockAt m x = ⟨c.size, c.free, heapMagic, link B (x + 32 + c.size) 0, lastBlock 0 h.base A⟩ ∧
      Seg m x (x + 32 + c.size) B 0 ∧
      x + 32 + c.size + span 32 B = h.base + kernelHeapSize := by
  subst hx
  constructor
  · rintro ⟨hseg, htiles⟩
    rw [seg_append, seg_cons] at hseg
    rw [span_append, span_cons] at htiles
    exact ⟨hseg.1, hseg.2.1, hseg.2.2, by omega⟩
  · rintro ⟨hA, hc, hB, htiles⟩
    refine ⟨seg_append.2 ⟨hA, hc, hB⟩, ?_⟩
    rw [span_append, span_cons]
    omega

theorem HeapRep.length_lt (hr : HeapRep h m l) : l.length < heapFuel := by
  have := length_mul_le_span 32 l
  rw [hr.tiles, kernelHeapSize_eq] at this
  rw [heapFuel, kernelHeapSize_eq, blockSize_eq]
  omega

theorem blockAt_fresh (m : Mem) (x s nx pv : ℕ) :
    blockAt (setPrev (setNext (setMagic (setFree (setSize m x s) x true) x heapMagic) x nx) x pv) x =
      ⟨s % word, true, heapMagic, nx % word, pv % word⟩ := by
  simp only [blockAt_setPrev, blockAt_setNext, blockAt_setMagic, blockAt_setFree, blockAt_setSize]

theorem fresh_apply (m : Mem) (x s nx pv : ℕ) {i : ℕ} (hi : i < x ∨ x + 32 ≤ i) :
    setPrev (setNext (setMagic (setFree (setSize m x s) x true) x heapMagic) x nx) x pv i = m i := by
  rw [setPrev_apply hi, setNext_apply hi, setMagic_apply hi, setFree_apply hi, setSize_apply hi]

/-- **`heap_init` makes one free block.** -/
theorem heapRep_heapInit (h : HeapArray) (m : Mem) :
    HeapRep h (heapInit h m).mem [⟨kernelHeapSize - 32, true⟩] :=
  ⟨⟨blockAt_fresh m h.base _ 0 0, trivial⟩, by norm_num⟩

theorem isFreeBlock_iff (hx : x ≠ 0) (hm : (blockAt m x).magic = heapMagic) :
    isFreeBlock m x ↔ (blockAt m x).free = true := by
  simp [isFreeBlock, hx, hm]

/-- **`split_block` cuts a cell.** -/
theorem heapRep_splitBlock (hx : x = h.base + span 32 A)
    (hr : HeapRep h m (A ++ c :: B)) (hs : size + 64 < word) :
    HeapRep h (splitBlock m x size)
      (A ++ keep 32 32 size c :: (rest 32 32 size c ++ B)) := by
  have hpos := h.pos
  have hfits := h.fits
  have hW := word_eq
  have hK := kernelHeapSize_eq
  obtain ⟨hA, hc, hB, htiles⟩ := (heapRep_middle hx).1 hr
  have hS := blockSize_eq
  have hmod : (size + blockSize + 32) % word = size + 32 + 32 := Nat.mod_eq_of_lt (by omega)
  rw [splitBlock, hc, hmod, keep, rest]
  by_cases hlt : c.size < size + 32 + 32
  · rw [if_pos (.inr hlt), if_pos hlt, if_pos hlt]
    exact hr
  rw [if_neg (not_or.2 ⟨by omega, hlt⟩), if_neg hlt, if_neg hlt]
  have hy : (x + blockSize + size) % word = x + 32 + size := Nat.mod_eq_of_lt (by omega)
  have hrest : sub64 (sub64 c.size size) blockSize = c.size - size - 32 := by
    rw [sub64, sub64, word_eq]
    omega
  extract_lets next m₁ m₂ m₃ m₄ m₅ m₆ m₇
  have hnext : next = x + 32 + size := hy
  have hz : x + 32 + c.size = next + 32 + (c.size - size - 32) := by omega
  -- the new header, and nothing else, is written by the first five stores
  have hoff : ∀ i, i < next ∨ next + 32 ≤ i → m₅ i = m i := fun i hi => fresh_apply _ _ _ _ _ hi
  have hfresh : blockAt m₅ next = ⟨c.size - size - 32, true, heapMagic,
      link B (x + 32 + c.size) 0, x⟩ := by
    have hm₃ : blockAt m₃ x = blockAt m x :=
      blockAt_congr fun i h₁ h₂ => (setMagic_apply (by omega)).trans
        ((setFree_apply (by omega)).trans (setSize_apply (by omega)))
    have hlink := blockAt_next_lt m x
    rw [hc] at hlink
    rw [blockAt_fresh, hm₃, hc, hrest, Nat.mod_eq_of_lt (by omega), Nat.mod_eq_of_lt hlink,
      Nat.mod_eq_of_lt (by omega)]
  have hm₆ : m₆ = if B = [] then m₅ else Mm.setPrev m₅ (x + 32 + c.size) next := by
    rw [← setPrev_link m₅ (by omega) B next]
    simp only [m₆, hfresh]
  have hoff₆ : ∀ i < x + 32 + c.size, m₆ i = m₅ i := by
    intro i hi
    rw [hm₆]
    split_ifs
    · rfl
    · exact setPrev_apply (.inl hi)
  have hB₆ : Seg m₆ next (x + 32 + c.size) B 0 := by
    rw [hm₆]
    exact (hB.congr fun i h₁ _ => hoff i (by omega)).setPrev (by omega)
  have hx₆ : blockAt m₆ x = blockAt m x := blockAt_congr fun i h₁ h₂ => by
    rw [hoff₆ i (by omega), hoff i (by omega)]
  have hoff₈ : ∀ i, i < x ∨ x + 32 ≤ i → setSize m₇ x size i = m₆ i := fun i hi =>
    (setSize_apply hi).trans (setNext_apply hi)
  rw [List.singleton_append, heapRep_middle hx]
  refine ⟨hA.congr fun i _ h₂ => ?_, ?_, seg_cons.2 ⟨?_, ?_⟩, ?_⟩
  · rw [hoff₈ i (by omega), hoff₆ i (by omega), hoff i (by omega)]
  · rw [blockAt_setSize, blockAt_setNext, hx₆, hc, Nat.mod_eq_of_lt (by omega),
      Nat.mod_eq_of_lt (by omega), hnext]
    rfl
  · rw [← hnext, blockAt_congr fun i h₁ h₂ => (hoff₈ i (by omega)).trans (hoff₆ i (by omega)),
      hfresh, hz]
  · rw [← hnext, ← hz]
    exact hB₆.congr fun i h₁ _ => hoff₈ i (by omega)
  · rw [span_cons]
    dsimp only
    omega

theorem heapRep_setFree (hx : x = h.base + span 32 A) (f : Bool)
    (hr : HeapRep h m (A ++ c :: B)) :
    HeapRep h (setFree m x f) (A ++ ⟨c.size, f⟩ :: B) := by
  obtain ⟨hA, hc, hB, htiles⟩ := (heapRep_middle hx).1 hr
  refine (heapRep_middle hx).2 ⟨hA.congr fun i _ h₂ => setFree_apply (.inl (by omega)), ?_,
    hB.congr fun i h₁ _ => setFree_apply (.inr (by omega)), htiles⟩
  rw [blockAt_setFree, hc]

theorem heapRep_join {d : Cell} (hx : x = h.base + span 32 A)
    (hz : z = x + 32 + (c.size + (32 + d.size))) (hr : HeapRep h m (A ++ c :: d :: B)) :
    HeapRep h
      (if B = [] then setNext (setSize m x (c.size + (32 + d.size))) x (link B z 0)
        else Mm.setPrev (setNext (setSize m x (c.size + (32 + d.size))) x (link B z 0)) z x)
      (A ++ join 32 c d :: B) := by
  have hfits := h.fits
  obtain ⟨hA, hc, hB, htiles⟩ := (heapRep_middle hx).1 hr
  have hd := hB.1
  have hzd : x + 32 + c.size + 32 + d.size = z := by omega
  have hlt := blockAt_next_lt m (x + 32 + c.size)
  rw [hd, hzd] at hlt
  rw [span_cons] at htiles
  -- the size and the link are written, then the block behind gets its new predecessor
  have hoff : ∀ i, i < x ∨ x + 32 ≤ i →
      setNext (setSize m x (c.size + (32 + d.size))) x (link B z 0) i = m i := fun i hi =>
    (setNext_apply hi).trans (setSize_apply hi)
  have hx₂ : blockAt (setNext (setSize m x (c.size + (32 + d.size))) x (link B z 0)) x =
      ⟨c.size + (32 + d.size), c.free, heapMagic, link B z 0, lastBlock 0 h.base A⟩ := by
    rw [blockAt_setNext, blockAt_setSize, hc, Nat.mod_eq_of_lt (by omega), Nat.mod_eq_of_lt hlt]
  have hB₂ : Seg (setNext (setSize m x (c.size + (32 + d.size))) x (link B z 0)) (x + 32 + c.size)
      z B 0 := by
    have hseg := hB.2
    rw [hzd] at hseg
    exact hseg.congr fun i h₁ _ => hoff i (.inr (by omega))
  generalize setNext (setSize m x (c.size + (32 + d.size))) x (link B z 0) = m₂ at *
  have hoff₃ : ∀ i < z, (if B = [] then m₂ else Mm.setPrev m₂ z x) i = m₂ i := by
    intro i hi
    split_ifs
    · rfl
    · exact setPrev_apply (.inl hi)
  refine (heapRep_middle hx).2 ⟨hA.congr fun i _ h₂ => ?_, ?_, ?_, ?_⟩
  · rw [hoff₃ i (by omega), hoff i (.inl (by omega))]
  · rw [blockAt_congr fun i _ h₂ => hoff₃ i (by omega), hx₂, hz]
    rfl
  · rw [join, ← hz]
    exact hB₂.setPrev (by omega)
  · rw [join, ← hz]
    omega

theorem heapRep_mergeNext (hx : x = h.base + span 32 A)
    (hr : HeapRep h m (A ++ c :: B)) : HeapRep h (mergeNext m x) (A ++ absorb 32 c B) := by
  have hpos := h.pos
  obtain ⟨-, hc, hB, -⟩ := (heapRep_middle hx).1 hr
  cases B with
  | nil =>
    have hfree : ¬isFreeBlock m (blockAt m x).next := by
      rw [hc]
      exact fun h => h.1 rfl
    rw [mergeNext, if_neg hfree]
    exact hr
  | cons d B =>
    have hnext : (blockAt m x).next = x + 32 + c.size := by rw [hc]; rfl
    have hd := hB.1
    have hfree : isFreeBlock m (x + 32 + c.size) ↔ d.free = true := by
      rw [isFreeBlock_iff (by omega) (by rw [hd]), hd]
    rw [mergeNext, absorb, hnext]
    by_cases hdf : d.free = true
    · rw [if_pos (hfree.2 hdf), if_pos hdf]
      have hz : x + 32 + c.size + 32 + d.size = x + 32 + (c.size + (32 + d.size)) := by omega
      have hjoin := heapRep_join hx rfl hr
      rw [← setPrev_link _ (by omega) B x] at hjoin
      have hm₁ : blockAt (setSize m x (c.size + (32 + d.size))) (x + 32 + c.size) =
          blockAt m (x + 32 + c.size) := blockAt_setSize_of_ne (.inl (by omega))
      have hlt := blockAt_next_lt m (x + 32 + c.size)
      simp only [hd, hz] at hlt
      simp only [hc, hd, hm₁, blockAt_setNext, hz, Nat.mod_eq_of_lt hlt]
      exact hjoin
    · rw [if_neg fun h => hdf (hfree.1 h), if_neg hdf]
      exact hr

/-- **`coalesce` frees one cell** of which the mark is already set, and returns. -/
theorem heapRep_coalesce (hx : x = h.base + span 32 A.reverse)
    (hr : HeapRep h m (A.reverse ++ c :: B)) (hf : A.length < fuel) :
    ∃ m', coalesce fuel m x = some m' ∧ HeapRep h m' (release 32 A c B) := by
  have hpos := h.pos
  induction A generalizing m x c B fuel with
  | nil =>
    obtain ⟨fuel, rfl⟩ : ∃ k, fuel = k + 1 := ⟨fuel - 1, by simp at hf; omega⟩
    have hc := ((heapRep_middle hx).1 hr).2.1
    have hm := heapRep_mergeNext hx hr
    obtain ⟨d, B', hd⟩ := exists_absorb_eq_cons 32 c B
    rw [hd] at hm
    have hprev : (blockAt (mergeNext m x) x).prev = 0 := by
      rw [((heapRep_middle hx).1 hm).2.1]
      rfl
    refine ⟨mergeNext m x, ?_, ?_⟩
    · rw [coalesce, if_neg (by rw [hc]; simp; omega)]
      dsimp only
      rw [hprev, if_neg fun h => h.1 rfl]
    · rw [release, hd]
      exact hm
  | cons e A ih =>
    obtain ⟨fuel, rfl⟩ : ∃ k, fuel = k + 1 := ⟨fuel - 1, by simp at hf; omega⟩
    have hc := ((heapRep_middle hx).1 hr).2.1
    have hm := heapRep_mergeNext hx hr
    obtain ⟨d, B', hd⟩ := exists_absorb_eq_cons 32 c B
    -- the block in front is the last one of the prefix
    set y := h.base + span 32 A.reverse with hy
    have hprev : (blockAt (mergeNext m x) x).prev = y := by
      rw [hd] at hm
      rw [((heapRep_middle hx).1 hm).2.1, List.reverse_cons]
      exact lastBlock_concat 0 h.base A.reverse e
    have hm' : HeapRep h (mergeNext m x) (A.reverse ++ e :: absorb 32 c B) := by
      rw [List.reverse_cons, List.append_assoc] at hm
      exact hm
    have he := ((heapRep_middle hy).1 hm').2.1
    have hfree : isFreeBlock (mergeNext m x) y ↔ e.free = true := by
      rw [isFreeBlock_iff (by omega) (by rw [he]), he]
    rw [coalesce, if_neg (by rw [hc]; simp; omega)]
    dsimp only
    rw [hprev, release]
    by_cases hef : e.free = true
    · rw [if_pos (hfree.2 hef), if_pos hef]
      exact ih hy hm' (by simpa using hf)
    · rw [if_neg fun h => hef (hfree.1 h), if_neg hef]
      exact ⟨_, rfl, hm⟩

/-- **The loop of `kmalloc` finds the first free cell that is large enough**, cuts it and marks it
used, or finds none, and returns. -/
theorem kmallocLoop_spec (hs : 0 < size)
    (hr : HeapRep h s.mem (A ++ B)) (hf : B.length < fuel) :
    ∃ s' r, kmallocLoop h fuel s (link B (h.base + span 32 A) 0) size = some (s', r) ∧
      (r = 0 ∧ s' = s ∧ (∀ c ∈ B, c.free = true → c.size < size) ∨
        ∃ A' c B', B = A' ++ c :: B' ∧ c.free = true ∧ size ≤ c.size ∧
          (∀ d ∈ A', d.free = true → d.size < size) ∧
          r = h.base + span 32 (A ++ A') + 32 ∧
          HeapRep h s'.mem ((A ++ A') ++
            ⟨(keep 32 32 size c).size, false⟩ :: (rest 32 32 size c ++ B'))) := by
  have hpos := h.pos
  have hfits := h.fits
  have hW := word_eq
  have hK := kernelHeapSize_eq
  have hS := blockSize_eq
  induction B generalizing A fuel with
  | nil =>
    obtain ⟨fuel, rfl⟩ : ∃ k, fuel = k + 1 := ⟨fuel - 1, by simp at hf; omega⟩
    exact ⟨s, 0, rfl, .inl ⟨rfl, rfl, by simp⟩⟩
  | cons c B ih =>
    obtain ⟨fuel, rfl⟩ : ∃ k, fuel = k + 1 := ⟨fuel - 1, by simp at hf; omega⟩
    set x := h.base + span 32 A with hx
    obtain ⟨-, hc, -, htiles⟩ := (heapRep_middle hx).1 hr
    rw [link, kmallocLoop, if_neg (by omega), if_neg (by rw [hc]; simp)]
    by_cases hfit : c.free = true ∧ size ≤ c.size
    · rw [if_pos (by rw [hc]; exact hfit)]
      refine ⟨_, _, rfl, .inr ⟨[], c, B, rfl, hfit.1, hfit.2, by simp, ?_, ?_⟩⟩
      · rw [List.append_nil, Nat.mod_eq_of_lt (by omega)]
      · rw [List.append_nil]
        have hsplit := heapRep_splitBlock hx hr (show size + 64 < word by omega)
        exact heapRep_setFree hx false hsplit
    · rw [if_neg (by rw [hc]; exact hfit)]
      have hnext : (blockAt s.mem x).next = link B (h.base + span 32 (A ++ [c])) 0 := by
        rw [hc, span_append, span_cons, span_nil]
        dsimp only
        congr 1
        omega
      rw [hnext]
      obtain ⟨s', r, heq, hcase⟩ := ih
        (show HeapRep h s.mem (A ++ [c] ++ B) by rwa [List.append_assoc])
        (show B.length < fuel by simpa using hf)
      refine ⟨s', r, heq, ?_⟩
      rcases hcase with ⟨h0, hs', hnone⟩ | ⟨A', d, B', rfl, hd, hle, hfirst, hrr, hrep⟩
      · refine .inl ⟨h0, hs', List.forall_mem_cons.2 ⟨fun hcf => ?_, hnone⟩⟩
        by_contra hlt
        exact hfit ⟨hcf, by omega⟩
      · have hA : A ++ [c] ++ A' = A ++ c :: A' := by simp
        rw [hA] at hrr hrep
        refine .inr ⟨c :: A', d, B', rfl, hd, hle, ?_, hrr, hrep⟩
        refine List.forall_mem_cons.2 ⟨fun hcf => ?_, hfirst⟩
        by_contra hlt
        exact hfit ⟨hcf, by omega⟩

/-! ### Calls -/

theorem sub64_payload (h : HeapArray) (n : ℕ) (hn : n + 32 ≤ kernelHeapSize) :
    sub64 (h.base + n + 32) blockSize = h.base + n := by
  have hfits := h.fits
  rw [word_eq] at hfits
  rw [sub64, word_eq, blockSize_eq]
  omega

theorem HeapRep.span_le (hr : HeapRep h m (A ++ c :: B)) :
    span 32 A + 32 + c.size ≤ kernelHeapSize := by
  have := hr.tiles
  rw [span_append, span_cons] at this
  omega

/-- **`kmalloc`** of a size that does not round to zero. -/
theorem kmalloc_rep (h0 : align16 size ≠ 0) (hr : HeapRep h s.mem l) :
    ∃ s' r, kmalloc h s size = some (s', r) ∧
      (r = 0 ∧ s' = s ∧ (∀ c ∈ l, c.free = true → c.size < align16 size) ∨
        ∃ A c B, l = A ++ c :: B ∧ c.free = true ∧ align16 size ≤ c.size ∧
          (∀ d ∈ A, d.free = true → d.size < align16 size) ∧ r = h.base + span 32 A + 32 ∧
          HeapRep h s'.mem (A ++ ⟨(keep 32 32 (align16 size) c).size, false⟩ ::
            (rest 32 32 (align16 size) c ++ B))) := by
  have hhead : link l (h.base + span 32 []) 0 = h.base := by
    cases l with
    | nil => exact absurd hr.tiles (by norm_num)
    | cons c l => rfl
  have hloop := kmallocLoop_spec (A := []) (Nat.pos_of_ne_zero h0) hr hr.length_lt
  rw [hhead] at hloop
  rw [kmalloc, if_neg h0]
  exact hloop

/-- **`kfree`** of the payload of a cell frees the cell. -/
theorem kfree_rep (hr : HeapRep h s.mem (A ++ c :: B)) (hc : 0 < c.size) :
    ∃ m', kfree h s (h.base + span 32 A + 32) = some { s with mem := m' } ∧
      HeapRep h m' (release 32 A.reverse ⟨c.size, true⟩ B) := by
  have hle := hr.span_le
  have hlen : A.reverse.length < heapFuel := by
    have := hr.length_lt
    rw [List.length_append] at this
    rw [List.length_reverse]
    omega
  have hfree : HeapRep h (setFree s.mem (h.base + span 32 A) true)
      (A.reverse.reverse ++ ⟨c.size, true⟩ :: B) := by
    rw [List.reverse_reverse]
    exact heapRep_setFree rfl true hr
  obtain ⟨m', heq, hrep⟩ := heapRep_coalesce (by rw [List.reverse_reverse]) hfree hlen
  refine ⟨m', ?_, hrep⟩
  rw [kfree, if_neg (by omega), if_neg (by omega), sub64_payload h _ (by omega)]
  dsimp only
  rw [((heapRep_middle rfl).1 hr).2.1, if_neg (by simp), heq, Option.map_some]

/-- **`krealloc`** of the payload of a cell to a size that fits cuts the cell in place. -/
theorem krealloc_inPlace (oldSize : ℕ) {newSize : ℕ} (hr : HeapRep h s.mem (A ++ c :: B))
    (h0 : newSize ≠ 0) (hle : newSize ≤ c.size) :
    krealloc h s (h.base + span 32 A + 32) oldSize newSize =
      some ({ s with mem := splitBlock s.mem (h.base + span 32 A) (align16 newSize) },
        h.base + span 32 A + 32) := by
  have := hr.span_le
  rw [krealloc, if_neg (by omega), if_neg h0, sub64_payload h _ (by omega)]
  dsimp only
  rw [((heapRep_middle rfl).1 hr).2.1, if_pos ⟨rfl, hle⟩]

theorem Seg.unique (hs : Seg m p a l n) (hs' : Seg m p a l' n) (hspan : span 32 l = span 32 l') :
    l = l' := by
  induction l generalizing p a l' with
  | nil =>
    cases l' with
    | nil => rfl
    | cons d l' =>
      rw [span_nil, span_cons] at hspan
      omega
  | cons c l ih =>
    cases l' with
    | nil =>
      rw [span_nil, span_cons] at hspan
      omega
    | cons d l' =>
      have heq := hs.1.symm.trans hs'.1
      rw [HeapBlock.mk.injEq] at heq
      obtain ⟨hsize, hfree, -⟩ := heq
      rw [span_cons, span_cons, hsize] at hspan
      have hl := hs.2
      rw [hsize] at hl
      rw [ih hl hs'.2 (by omega), show c = d by cases c; cases d; simp_all]

theorem HeapRep.unique (hr : HeapRep h m l) (hr' : HeapRep h m l') : l = l' :=
  hr.seg.unique hr'.seg (hr.tiles.trans hr'.tiles.symm)

end Tnu.Mm
