/-
**The C library's allocator over whole runs.**

What one call of `malloc`, `calloc`, `realloc` and `free` does to the blocks, and from it what holds
of every run of a process.  The header has 24 bytes and blocks start on a page boundary, so the
first payload of a process is never aligned to 16; rounding and adding the header may wrap around.
What is left is sound as long as no request wraps.

Main result:

* `allocSafe_iff` — **a process is safe exactly when it can never allocate**, and apart
  from the alignment modest requests are sound.
-/

import Tnu.Lib.FirstFit
import Tnu.Libc.MallocRep

set_option autoImplicit false

namespace Tnu.Libc

open Tiling

/-! ### The break -/

/-- The break stands where a heap can be. -/
structure Brk.Sane (k : Brk) : Prop where
  floor_pos : 0 < k.ready.floor
  floor_le : k.ready.floor ≤ k.ready.current
  current_lt : k.ready.current < word
  limit_lt : k.ready.limit < word

@[simp] theorem Brk.ready_ready (k : Brk) : k.ready.ready = k.ready := by
  by_cases h : k.floor = 0
  · simp [Brk.ready, h]
  · simp [Brk.ready, h]

theorem Brk.ready_of_floor {k : Brk} (h : k.floor ≠ 0) : k.ready = k := if_neg h

variable {k : Brk} {mapped : Bool} {total : ℕ}

theorem sysBrk_zero (k : Brk) (mapped : Bool) : sysBrk k mapped 0 = (k.ready, k.ready.current) := by
  rw [sysBrk]
  rfl

theorem sysBrk_of_ne_zero {next : ℕ} (h0 : next ≠ 0) (hk : k.floor ≠ 0) :
    sysBrk k mapped next =
      if k.floor ≤ next ∧ next ≤ k.limit ∧ (next ≤ k.current ∨ mapped = true) then
        ({ k with current := next }, next)
      else (k, k.current) := by
  simp only [sysBrk, Brk.ready_of_floor hk]
  rw [if_neg h0]
  by_cases hfloor : next < k.floor
  · rw [if_pos hfloor, if_neg (by omega)]
  rw [if_neg hfloor]
  by_cases hlimit : k.limit < next
  · rw [if_pos hlimit, if_neg (by omega)]
  rw [if_neg hlimit]
  cases mapped with
  | true => rw [if_neg (by simp), if_pos ⟨by omega, by omega, .inr rfl⟩]
  | false =>
    by_cases hcur : k.current < next
    · rw [if_pos ⟨hcur, rfl⟩, if_neg]
      rintro ⟨-, -, h | h⟩
      · omega
      · cases h
    · rw [if_neg fun h => hcur h.1, if_pos ⟨by omega, by omega, .inl (by omega)⟩]

/-- **`sbrk` moves the break up by what was asked for**, or fails and changes nothing, as long as
the sum with what the heap already has does not wrap around. -/
theorem sbrk_eq (hk : k.Sane) (h0 : 0 < total)
    (hfit : total + (k.ready.current - k.ready.floor) < word) :
    sbrk k mapped total =
      if total < 2 ^ 63 ∧ k.ready.current + total ≤ k.ready.limit ∧ mapped = true then
        ({ k.ready with current := k.ready.current + total }, k.ready.current)
      else (k.ready, failedPtr) := by
  obtain ⟨hpos, hle, hcur, hlim⟩ := hk
  have hW := word_eq
  rw [sbrk, sysBrk_zero]
  dsimp only
  have hfloor : k.ready.floor ≠ 0 := by omega
  generalize k.ready = j at *
  by_cases hwrap : j.current + total < word
  · rw [Nat.mod_eq_of_lt hwrap]
    by_cases hneg : 2 ^ 63 ≤ total
    · rw [if_pos ⟨hneg, by omega⟩, if_neg (by omega)]
    rw [if_neg (by omega)]
    by_cases hlimit : j.current + total ≤ j.limit ∧ mapped = true
    · have hret : sysBrk j mapped (j.current + total) =
          ({ j with current := j.current + total }, j.current + total) := by
        rw [sysBrk_of_ne_zero (by omega) hfloor,
          if_pos ⟨by omega, hlimit.1, .inr hlimit.2⟩]
      rw [hret]
      dsimp only
      rw [if_neg (not_not.2 rfl), if_pos ⟨by omega, hlimit.1, hlimit.2⟩]
    · have hret : sysBrk j mapped (j.current + total) = (j, j.current) := by
        rw [sysBrk_of_ne_zero (by omega) hfloor,
          if_neg fun h => hlimit ⟨h.2.1, h.2.2.resolve_left (by omega)⟩]
      rw [hret]
      dsimp only
      rw [if_pos (by omega), if_neg fun h => hlimit h.2]
  · -- the sum wraps around to an address below the floor, which is refused
    have hmod : (j.current + total) % word = j.current + total - word := by
      rw [Nat.mod_eq_sub_mod (by omega), Nat.mod_eq_of_lt (by omega)]
    rw [hmod, if_neg (by omega)]
    have hret : sysBrk j mapped (j.current + total - word) = (j, j.current) := by
      by_cases hz : j.current + total - word = 0
      · rw [hz, sysBrk_zero, Brk.ready_of_floor hfloor]
      · rw [sysBrk_of_ne_zero hz hfloor, if_neg (by omega)]
    rw [hret]
    dsimp only
    rw [if_pos (by omega), if_neg (by omega)]

/-! ### One call -/

/-- The blocks that stand for the cells tile what lies between the floor and the break. -/
structure Rep (s : Heap) (cells : List Cell) : Prop where
  blocks : Blocks s.mem s.brk.ready.floor s.head s.tail cells
  tiles : s.brk.ready.floor + span 24 cells = s.brk.ready.current
  inside : cells ≠ [] → s.brk.ready.current ≤ s.brk.ready.limit
  limit_le : s.brk.ready.limit ≤ userStackBottomLarge

/-- A failed call changes nothing, but for setting the heap up. -/
structure SameHeap (s s' : Heap) : Prop where
  mem : s'.mem = s.mem
  brk : s'.brk.ready = s.brk.ready
  head : s'.head = s.head
  tail : s'.tail = s.tail

theorem SameHeap.refl (s : Heap) : SameHeap s s := ⟨rfl, rfl, rfl, rfl⟩

theorem SameHeap.trans {s s' s'' : Heap} (h : SameHeap s s') (h' : SameHeap s' s'') :
    SameHeap s s'' :=
  ⟨h'.mem.trans h.mem, h'.brk.trans h.brk, h'.head.trans h.head, h'.tail.trans h.tail⟩

variable {s s' : Heap} {cells A B : List Cell} {c : Cell} {n p j : ℕ}

theorem Rep.same (hr : Rep s cells) (hs : SameHeap s s') : Rep s' cells := by
  obtain ⟨hb, ht, hin, hl⟩ := hr
  refine ⟨?_, ?_, ?_, ?_⟩
  · rw [hs.mem, hs.brk, hs.head, hs.tail]
    exact hb
  · rw [hs.brk]
    exact ht
  · rw [hs.brk]
    exact hin
  · rw [hs.brk]
    exact hl

theorem userStackBottomLarge_eq : userStackBottomLarge = 1610612736 := rfl

theorem Rep.limit_lt (hr : Rep s cells) : s.brk.ready.limit < word := by
  have := hr.limit_le
  rw [userStackBottomLarge_eq] at this
  rw [word_eq]
  omega

theorem Rep.sane (hr : Rep s cells) : s.brk.Sane := by
  have hpos := hr.blocks.pos
  have hfits := hr.blocks.fits
  have ht := hr.tiles
  exact ⟨hpos, by omega, by omega, hr.limit_lt⟩

variable {cells' : List Cell} {N : ℕ}

theorem Rep.of_blocks (hr : Rep s cells) (hbrk : s'.brk.ready = s.brk.ready)
    (hb : Blocks s'.mem s.brk.ready.floor s'.head s'.tail cells')
    (hspan : span 24 cells' = span 24 cells) : Rep s' cells' := by
  refine ⟨by rw [hbrk]; exact hb, ?_, fun hne => ?_, ?_⟩
  · rw [hbrk, hspan]
    exact hr.tiles
  · rw [hbrk]
    refine hr.inside ?_
    rintro rfl
    obtain ⟨c, l, rfl⟩ := List.exists_cons_of_ne_nil hne
    rw [span_cons, span_nil] at hspan
    omega
  · rw [hbrk]
    exact hr.limit_le

/-- A request that does not wrap around: rounded up, with a header, on top of what the heap has. -/
def Modest (s : Heap) (n : ℕ) : Prop :=
  n + 15 < word ∧ alignUp n alignment + headerSize + (s.brk.ready.current - s.brk.ready.floor) < word

instance (s : Heap) (n : ℕ) : Decidable (Modest s n) := inferInstanceAs (Decidable (_ ∧ _))

theorem alignment_eq : alignment = 16 := rfl

theorem alignUp_of_lt (h : n + 15 < word) :
    n ≤ alignUp n alignment ∧ 16 ∣ alignUp n alignment ∧ alignUp n alignment < n + 16 := by
  rw [alignUp, alignment_eq, Nat.mod_eq_of_lt (by omega)]
  omega

theorem alignUp_of_dvd (hd : 16 ∣ n) (h : n < word) : alignUp n alignment = n := by
  have hW := word_eq
  rw [alignUp, alignment_eq, Nat.mod_eq_of_lt (by omega)]
  omega

variable (mapped) in
/-- **`request_block`** fails and changes nothing, or adds a block in use at the break. -/
theorem requestBlock_spec {size : ℕ} (hr : Rep s cells)
    (hfit : size + headerSize + (s.brk.ready.current - s.brk.ready.floor) < word) :
    ∃ s' b, requestBlock s mapped size = (s', b) ∧
      (b = 0 ∧ SameHeap s s' ∨ mapped = true ∧ b = s.brk.ready.current ∧
        Rep s' (cells ++ [⟨size, false⟩]) ∧ s'.brk.ready.floor = s.brk.ready.floor) := by
  have hW := word_eq
  have hS := headerSize_eq
  have hF : failedPtr = word - 1 := rfl
  obtain ⟨hpos, hle, hcur, hlim⟩ := hr.sane
  have htotal : (headerSize + size) % word = size + 24 := by
    rw [Nat.mod_eq_of_lt (by omega)]
    omega
  rw [requestBlock, htotal, sbrk_eq hr.sane (by omega) (by omega)]
  by_cases hok : size + 24 < 2 ^ 63 ∧ s.brk.ready.current + (size + 24) ≤ s.brk.ready.limit ∧
      mapped = true
  · have hfloor : (⟨s.brk.ready.floor, s.brk.ready.current + (size + 24), s.brk.ready.limit⟩ :
        Brk).ready = ⟨s.brk.ready.floor, s.brk.ready.current + (size + 24), s.brk.ready.limit⟩ :=
      Brk.ready_of_floor (Nat.pos_iff_ne_zero.1 hpos)
    rw [if_pos hok]
    dsimp only
    rw [if_neg (by omega)]
    refine ⟨_, _, rfl, .inr ⟨hok.2.2, rfl, ?_, by dsimp only; rw [hfloor]⟩⟩
    · have happend := blocks_append hr.tiles.symm hr.blocks
        (show s.brk.ready.current + 24 + size < word by omega)
      refine ⟨?_, ?_, fun _ => ?_, ?_⟩
      · dsimp only
        rw [hfloor]
        exact happend
      · have ht := hr.tiles
        dsimp only
        rw [hfloor, span_append, span_cons, span_nil]
        dsimp only
        omega
      · dsimp only
        rw [hfloor]
        exact hok.2.1
      · dsimp only
        rw [hfloor]
        exact hr.limit_le
  · rw [if_neg hok]
    dsimp only
    rw [if_pos rfl]
    exact ⟨_, 0, rfl, .inl ⟨rfl, rfl, Brk.ready_ready s.brk, rfl, rfl⟩⟩

variable (mapped) in
/-- **`malloc` takes the first free block that is large enough**, and leaves the break alone. -/
theorem malloc_fits (hr : Rep s cells) (h0 : n ≠ 0)
    (hfit : ∃ d ∈ cells, d.free = true ∧ alignUp n alignment ≤ d.size) :
    ∃ s' r, malloc s mapped n = some (s', r) ∧ r ≠ 0 ∧
      r = spot 24 (alignUp n alignment) s.brk.ready.floor cells ∧
      Rep s' (place 24 32 (alignUp n alignment) cells) ∧ s'.brk = s.brk := by
  have hW := word_eq
  have hU := userStackBottomLarge_eq
  have hlim := hr.limit_le
  have hfits := hr.blocks.fits
  have hpos := hr.blocks.pos
  have hcurrent := hr.tiles
  rw [malloc, if_neg h0]
  dsimp only
  generalize alignUp n alignment = N at *
  obtain ⟨r, heq, hcase⟩ := findFreeBlock_spec N hr.blocks
  rw [heq, Option.map_some]
  rcases hcase with ⟨rfl, hnone⟩ | ⟨A, c, B, rfl, hc, hN, hA, hrA⟩
  · obtain ⟨d, hd, hdf, hle⟩ := hfit
    have := hnone d hd hdf
    omega
  obtain ⟨hplace, hspot⟩ :=
    place_of_fits 24 32 s.brk.ready.floor (B := B) hA hc hN
  have hinside := hr.inside (by simp)
  rw [span_append, span_cons] at hfits hcurrent
  have hmark := blocks_setFree hrA false hr.blocks
  have hkeep : keep 24 32 N ⟨c.size, false⟩ = ⟨(keep 24 32 N c).size, false⟩ := by
    rw [keep, keep]
    split_ifs <;> rfl
  obtain ⟨hsplit, hbrk⟩ := blocks_splitBlock (s := { s with mem := setFree s.mem r false }) hrA
    hmark (show N + 56 < word by omega)
  rw [hkeep] at hsplit
  rw [if_neg (by omega), headerSize_eq, Nat.mod_eq_of_lt (by omega), hplace, hspot, ← hrA]
  refine ⟨_, r + 24, rfl, by omega, rfl, hr.of_blocks (by rw [hbrk]) hsplit ?_, hbrk⟩
  have hcut := span_cut 24 32 N c
  simp only [span_append, span_cons] at hcut ⊢
  have hrest : rest 24 32 N ⟨c.size, false⟩ = rest 24 32 N c := rfl
  omega

variable (mapped) in
/-- **`malloc` asks for a new block** when none fits: NULL and no change, or a block at the break. -/
theorem malloc_grows (hr : Rep s cells) (h0 : n ≠ 0) (hn : Modest s n)
    (hnone : ∀ d ∈ cells, d.free = true → d.size < alignUp n alignment) :
    ∃ s' r, malloc s mapped n = some (s', r) ∧
      (r = 0 ∧ SameHeap s s' ∨ r ≠ 0 ∧ mapped = true ∧
        r = spot 24 (alignUp n alignment) s.brk.ready.floor cells ∧
        Rep s' (place 24 32 (alignUp n alignment) cells) ∧
        s'.brk.ready.floor = s.brk.ready.floor) := by
  have hW := word_eq
  have ht := hr.tiles
  obtain ⟨-, hroom⟩ := hn
  rw [malloc, if_neg h0]
  dsimp only
  generalize alignUp n alignment = N at *
  obtain ⟨r, heq, hcase⟩ := findFreeBlock_spec N hr.blocks
  have hr0 : r = 0 := by
    rcases hcase with ⟨h, -⟩ | ⟨A, c, B, rfl, hc, hN, -⟩
    · exact h
    · have := hnone c (by simp) hc
      omega
  obtain ⟨hplace, hspot⟩ := place_of_none 24 32 s.brk.ready.floor hnone
  obtain ⟨s', b, hreq, hcase⟩ := requestBlock_spec mapped hr hroom
  rw [heq, hr0, Option.map_some, if_pos rfl, hreq]
  dsimp only
  rcases hcase with ⟨rfl, hsame⟩ | ⟨hm, rfl, hrep, hfloor⟩
  · rw [if_pos rfl]
    exact ⟨s', 0, rfl, .inl ⟨rfl, hsame⟩⟩
  · have hbnd := hrep.blocks.fits
    have hpos := hr.blocks.pos
    rw [hfloor, span_append, span_cons, span_nil] at hbnd
    dsimp only at hbnd
    rw [if_neg (by omega), headerSize_eq, Nat.mod_eq_of_lt (by omega), hplace, hspot, ht]
    exact ⟨s', _, rfl, .inr ⟨by omega, hm, rfl, hrep, hfloor⟩⟩

variable (mapped) in
/-- **`malloc`** returns NULL and changes nothing, or places the rounded size. -/
theorem malloc_spec (hr : Rep s cells) (h0 : n ≠ 0) (hn : Modest s n) :
    ∃ s' r, malloc s mapped n = some (s', r) ∧
      (r = 0 ∧ SameHeap s s' ∨ r ≠ 0 ∧ r = spot 24 (alignUp n alignment) s.brk.ready.floor cells ∧
        Rep s' (place 24 32 (alignUp n alignment) cells) ∧
        s'.brk.ready.floor = s.brk.ready.floor) := by
  by_cases hfit : ∃ d ∈ cells, d.free = true ∧ alignUp n alignment ≤ d.size
  · obtain ⟨s', r, heq, hr0, hspot, hrep, hbrk⟩ := malloc_fits mapped hr h0 hfit
    exact ⟨s', r, heq, .inr ⟨hr0, hspot, hrep, by rw [hbrk]⟩⟩
  · obtain ⟨s', r, heq, hcase⟩ := malloc_grows mapped hr h0 hn fun d hd hdf => by
      by_contra hlt
      exact hfit ⟨d, hd, hdf, by omega⟩
    exact ⟨s', r, heq, hcase.imp_right fun h => ⟨h.1, h.2.2.1, h.2.2.2.1, h.2.2.2.2⟩⟩

/-- **`free`** of a payload in use marks it and sweeps, and leaves the break alone. -/
theorem free_spec (hr : Rep s cells) (hx : (p, j) ∈ used 24 s.brk.ready.floor cells) :
    ∃ s', free s p = some s' ∧ Rep s' (sweep 24 (unmark 24 p s.brk.ready.floor cells)) ∧
      s'.brk = s.brk ∧
      Ledger.Drops (used 24 s.brk.ready.floor cells)
        (used 24 s.brk.ready.floor (sweep 24 (unmark 24 p s.brk.ready.floor cells))) p := by
  have hfits := hr.blocks.fits
  have hpos := hr.blocks.pos
  obtain ⟨A, c, B, rfl, hc, hpj⟩ := exists_of_mem_used hx
  rw [Prod.mk.injEq] at hpj
  obtain ⟨rfl, rfl⟩ := hpj
  rw [span_append, span_cons] at hfits
  have hsub : sub64 (s.brk.ready.floor + span 24 A + 24) headerSize = s.brk.ready.floor + span 24 A := by
    rw [sub64, headerSize_eq, word_eq] at *
    omega
  have hmark := blocks_setFree rfl true hr.blocks
  obtain ⟨s', heq, hblocks, hbrk⟩ :=
    coalesce_spec (s := { s with mem := setFree s.mem (s.brk.ready.floor + span 24 A) true }) hmark
  rw [unmark_middle (by norm_num), free, if_neg (by omega), hsub]
  refine ⟨s', heq, hr.of_blocks (by rw [hbrk]) hblocks ?_, hbrk, ?_⟩
  · rw [span_sweep]
    simp only [span_append, span_cons]
  · rw [used_sweep]
    exact drops_unmark _ (by norm_num) hc

/-- **Writing into a payload in use** changes no header. -/
theorem Rep.write {m : Mem} (hr : Rep s cells) (hx : (p, j) ∈ used 24 s.brk.ready.floor cells)
    (hm : ∀ i, i < p ∨ p + j ≤ i → m i = s.mem i) : Rep { s with mem := m } cells := by
  obtain ⟨A, c, B, rfl, hc, hpj⟩ := exists_of_mem_used hx
  rw [Prod.mk.injEq] at hpj
  obtain ⟨rfl, rfl⟩ := hpj
  obtain ⟨hA, hcx, hB⟩ := (seg_middle rfl).1 hr.blocks.seg
  refine hr.of_blocks rfl ⟨(seg_middle rfl).2 ⟨?_, ?_, ?_⟩, hr.blocks.head, hr.blocks.tail,
    hr.blocks.pos, hr.blocks.fits⟩ rfl
  · exact hA.congr fun i _ h₂ => hm i (by omega)
  · dsimp only
    rw [headerAt_congr fun i h₁ h₂ => hm i (by omega), hcx]
  · exact hB.congr fun i h₁ _ => hm i (by omega)

theorem Rep.header (hr : Rep s cells) (hx : (p, j) ∈ used 24 s.brk.ready.floor cells) :
    ∃ A c B, cells = A ++ c :: B ∧ c.free = false ∧ j = c.size ∧
      p = s.brk.ready.floor + span 24 A + 24 ∧
      sub64 p headerSize = s.brk.ready.floor + span 24 A ∧
      headerAt s.mem (sub64 p headerSize) =
        ⟨c.size, false, link B (s.brk.ready.floor + span 24 A + 24 + c.size) 0⟩ := by
  have hfits := hr.blocks.fits
  obtain ⟨A, c, B, rfl, hc, hpj⟩ := exists_of_mem_used hx
  rw [Prod.mk.injEq] at hpj
  obtain ⟨rfl, rfl⟩ := hpj
  rw [span_append, span_cons] at hfits
  have hsub : sub64 (s.brk.ready.floor + span 24 A + 24) headerSize = s.brk.ready.floor + span 24 A := by
    rw [sub64, headerSize_eq, word_eq] at *
    omega
  refine ⟨A, c, B, rfl, hc, rfl, rfl, hsub, ?_⟩
  rw [hsub, ((seg_middle rfl).1 hr.blocks.seg).2.1, hc]

/-- What a call that resizes the payload at `p` leaves: one of at least `n` bytes at `r`. -/
structure Resized (s s' : Heap) (cells cells' : List Cell) (p r n : ℕ) : Prop where
  rep : Rep s' cells'
  floor : s'.brk.ready.floor = s.brk.ready.floor
  swaps : ∃ k, n ≤ k ∧ Ledger.Swaps (used 24 s.brk.ready.floor cells)
    (used 24 s.brk.ready.floor cells') p r k
  fresh : ∀ x ∈ used 24 s.brk.ready.floor cells, x.1 ≠ p → x.1 ≠ r

theorem resized_splitBlock (hr : Rep s (A ++ c :: B)) (hc : c.free = false)
    (hN : N ≤ c.size) (hw : N + 56 < word) :
    Resized s (splitBlock s (s.brk.ready.floor + span 24 A) N) (A ++ c :: B)
      (A ++ keep 24 32 N c :: (rest 24 32 N c ++ B)) (s.brk.ready.floor + span 24 A + 24)
      (s.brk.ready.floor + span 24 A + 24) N := by
  obtain ⟨hsplit, hbrk⟩ := blocks_splitBlock rfl hr.blocks hw
  refine ⟨hr.of_blocks (by rw [hbrk]) hsplit ?_, by rw [hbrk],
    ⟨_, le_size_keep hN, swaps_cut 32 N _ (by norm_num) hc⟩, fun x _ hne => hne⟩
  have hcut := span_cut 24 32 N c
  simp only [span_append, span_cons] at hcut ⊢
  omega

theorem rep_extend {d : Cell} {x : ℕ} (hx : x = s.brk.ready.floor + span 24 A)
    (hr : Rep s (A ++ c :: d :: B)) :
    ∃ m tail, (let m := setSize s.mem x (c.size + (headerSize + d.size))
        let m := setNext m x (headerAt m (x + 24 + c.size)).next
        (m, if (headerAt m x).next = 0 then x else s.tail)) = (m, tail) ∧
      Rep { s with mem := m, tail := tail } (A ++ join 24 c d :: B) := by
  have hpos := hr.blocks.pos
  have hfits := hr.blocks.fits
  have hjoin := blocks_join hx hr.blocks
  obtain ⟨-, -, hB⟩ := (seg_middle hx).1 hr.blocks.seg
  have hdx := hB.1
  rw [span_append, span_cons, span_cons] at hfits
  have hsame : headerAt (setSize s.mem x (c.size + (headerSize + d.size))) (x + 24 + c.size) =
      headerAt s.mem (x + 24 + c.size) := headerAt_congr fun i h₁ h₂ => setSize_apply (by omega)
  have hlt := headerAt_next_lt s.mem (x + 24 + c.size)
  rw [hdx] at hlt
  have hnil : link B (x + 24 + c.size + 24 + d.size) 0 = 0 ↔ B = [] := by
    cases B with
    | nil => simp [link]
    | cons e B => exact iff_of_false (by rw [link]; omega) (List.cons_ne_nil e B)
  refine ⟨_, _, rfl, hr.of_blocks rfl ?_ ?_⟩
  · simp only [hsame, hdx, headerAt_setNext, Nat.mod_eq_of_lt hlt, hnil]
    exact hjoin
  · simp only [span_append, span_cons, join]
    omega

theorem resized_move {s₁ : Heap} {q : ℕ}
    (hx : (p, j) ∈ used 24 s.brk.ready.floor cells) (hj : j < N)
    (hq : q = spot 24 N s.brk.ready.floor cells) (hr₁ : Rep s₁ (place 24 32 N cells))
    (hfloor : s₁.brk.ready.floor = s.brk.ready.floor) :
    ∃ s', free { s₁ with mem := memcpy s₁.mem q p (headerAt s₁.mem (sub64 p headerSize)).size } p =
        some s' ∧
      Resized s s' cells (sweep 24 (unmark 24 p s.brk.ready.floor (place 24 32 N cells))) p q N := by
  obtain ⟨⟨k, hk, hswaps⟩, hfresh⟩ :=
    swaps_place 32 N s.brk.ready.floor (show 0 < 24 by norm_num) cells
  rw [← hq] at hswaps hfresh
  have hzero : ∀ x ∈ used 24 s.brk.ready.floor cells, x.1 ≠ 0 := fun x hx =>
    ne_zero_of_mem_used (by norm_num) hx
  have hnew : (q, k) ∈ used 24 s₁.brk.ready.floor (place 24 32 N cells) := by
    rw [hfloor]
    exact (hswaps _).2 (.inl rfl)
  have hold : (p, j) ∈ used 24 s₁.brk.ready.floor (place 24 32 N cells) := by
    rw [hfloor]
    exact (hswaps _).2 (.inr ⟨hx, hzero _ hx⟩)
  obtain ⟨A, c, B, -, -, hjc, -, -, hheader⟩ := hr₁.header hold
  rw [hheader]
  have hcopy := hr₁.write hnew (m := memcpy s₁.mem q p c.size) fun i hi =>
    memcpy_of_not_mem (by omega)
  obtain ⟨s', heq, hrep, hbrk, hdrops⟩ := free_spec hcopy hold
  have hbrk' : s'.brk = s₁.brk := hbrk
  have hcells : ({ s₁ with mem := memcpy s₁.mem q p c.size } : Heap).brk.ready.floor =
      s.brk.ready.floor := hfloor
  rw [hcells] at hrep hdrops
  exact ⟨s', heq, hrep, by rw [hbrk', hfloor],
    ⟨k, hk, hswaps.drop hzero (hfresh _ hx).symm hdrops⟩, fun x hx _ => hfresh x hx⟩

variable (mapped) in
/-- **`realloc`** of a payload in use to a size that is not zero: NULL and no change, or a payload
that is large enough in place of the old one, which is swept away when the new one lies elsewhere. -/
theorem realloc_spec (hr : Rep s cells) (hx : (p, j) ∈ used 24 s.brk.ready.floor cells)
    (h0 : n ≠ 0) (hn : Modest s n) :
    ∃ s' r, realloc s mapped p n = some (s', r) ∧
      (r = 0 ∧ SameHeap s s' ∨ r ≠ 0 ∧ ∃ cells', Resized s s' cells cells' p r n ∧
        (r ≠ p → cells' = sweep 24 (unmark 24 p s.brk.ready.floor
          (place 24 32 (alignUp n alignment) cells)))) := by
  have hW := word_eq
  have hpos := hr.blocks.pos
  have ht := hr.tiles
  obtain ⟨hle, hdvd, hlt⟩ := alignUp_of_lt hn.1
  have hroom := hn.2
  rw [headerSize_eq] at hroom
  have hagain : alignUp (alignUp n alignment) alignment = alignUp n alignment :=
    alignUp_of_dvd hdvd (by omega)
  have hmodest : Modest s (alignUp n alignment) :=
    ⟨by have := hn.1; omega, by rw [hagain, headerSize_eq]; exact hroom⟩
  have hgrow : ∀ {s' : Heap} {cells' : List Cell} {r : ℕ},
      Resized s s' cells cells' p r (alignUp n alignment) → Resized s s' cells cells' p r n :=
    fun hres => ⟨hres.rep, hres.floor, hres.swaps.imp fun k hk => ⟨hle.trans hk.1, hk.2⟩, hres.fresh⟩
  obtain ⟨A, c, B, rfl, hc, rfl, rfl, hsub, hheader⟩ := hr.header hx
  have hspan := ht
  rw [span_append, span_cons] at hspan
  rw [realloc, if_neg (by omega), if_neg h0]
  dsimp only
  rw [hheader]
  dsimp only
  by_cases hfit : alignUp n alignment ≤ c.size
  · rw [if_pos hfit, hsub]
    exact ⟨_, _, rfl, .inr ⟨by omega, _, hgrow (resized_splitBlock hr hc hfit (by omega)),
      fun h => absurd rfl h⟩⟩
  rw [if_neg hfit]
  by_cases hext : ∃ d B', B = d :: B' ∧ d.free = true ∧
      alignUp n alignment ≤ c.size + (24 + d.size)
  · -- the free right neighbour is taken in, and what is too much is cut off again
    obtain ⟨d, B, rfl, hd, hfit'⟩ := hext
    have hdx := ((seg_middle rfl).1 hr.blocks.seg).2.2.1
    rw [span_cons] at hspan
    have hlink : link (d :: B) (s.brk.ready.floor + span 24 A + 24 + c.size) 0 =
        s.brk.ready.floor + span 24 A + 24 + c.size := rfl
    have hmod : (c.size + headerSize + d.size) % word = c.size + (24 + d.size) := by
      rw [headerSize_eq, Nat.mod_eq_of_lt (by omega), Nat.add_assoc]
    obtain ⟨m, tail, hmem, hrep⟩ := rep_extend rfl hr
    rw [Prod.mk.injEq] at hmem
    obtain ⟨rfl, rfl⟩ := hmem
    have hcut := resized_splitBlock hrep (c := join 24 c d) hc (N := alignUp n alignment)
      (by rw [join]; exact hfit') (by omega)
    rw [hlink, hdx]
    dsimp only
    rw [hmod, if_pos ⟨by omega, hd, hfit'⟩, hsub]
    obtain ⟨k, hk, hswaps⟩ := hcut.swaps
    exact ⟨_, _, rfl, .inr ⟨by omega, _, hgrow ⟨hcut.rep, hcut.floor,
      ⟨k, hk, (swaps_join _ (by norm_num) hc hd).trans hswaps⟩, fun x _ hne => hne⟩,
      fun h => absurd rfl h⟩⟩
  · have hno : ¬(link B (s.brk.ready.floor + span 24 A + 24 + c.size) 0 ≠ 0 ∧
        (headerAt s.mem (link B (s.brk.ready.floor + span 24 A + 24 + c.size) 0)).free = true ∧
        alignUp n alignment ≤ (c.size + headerSize + (headerAt s.mem
          (link B (s.brk.ready.floor + span 24 A + 24 + c.size) 0)).size) % word) := by
      rintro ⟨hne, hfree, hfit'⟩
      cases B with
      | nil => exact hne rfl
      | cons d B =>
        have hdx := ((seg_middle rfl).1 hr.blocks.seg).2.2.1
        rw [span_cons] at hspan
        rw [link, hdx] at hfree hfit'
        dsimp only at hfree hfit'
        rw [headerSize_eq, Nat.mod_eq_of_lt (by omega)] at hfit'
        exact hext ⟨d, B, rfl, hfree, by omega⟩
    rw [if_neg hno]
    obtain ⟨s₁, q, heq, hcase⟩ := malloc_spec mapped hr (by omega) hmodest
    rw [hagain] at hcase
    rw [heq, Option.bind_some]
    dsimp only
    rcases hcase with ⟨rfl, hsame⟩ | ⟨hq, hspot, hrep, hfloor⟩
    · rw [if_pos rfl]
      exact ⟨s₁, 0, rfl, .inl ⟨rfl, hsame⟩⟩
    · rw [if_neg hq]
      obtain ⟨s', hfree, hres⟩ := resized_move hx (by omega) hspot hrep hfloor
      rw [hfree, Option.map_some]
      exact ⟨s', q, rfl, .inr ⟨hq, _, hgrow hres, fun _ => rfl⟩⟩

variable (mapped) in
/-- **`calloc`** is `malloc` of the product, unless that wraps around. -/
theorem calloc_spec {a b : ℕ} (hr : Rep s cells) (hn : a * b < word → Modest s (a * b)) :
    ∃ s' r, calloc s mapped a b = some (s', r) ∧
      (r = 0 ∧ SameHeap s s' ∨ r ≠ 0 ∧ r = spot 24 (alignUp (a * b) alignment)
          s.brk.ready.floor cells ∧ Rep s' (place 24 32 (alignUp (a * b) alignment) cells) ∧
        s'.brk.ready.floor = s.brk.ready.floor ∧ a * b < word) := by
  rw [calloc]
  by_cases hover : b ≠ 0 ∧ (word - 1) / b < a
  · rw [if_pos hover]
    exact ⟨s, 0, rfl, .inl ⟨rfl, .refl s⟩⟩
  have hW := word_eq
  have htotal : a * b < word := by
    rcases Nat.eq_zero_or_pos b with rfl | hb
    · rw [Nat.mul_zero]
      omega
    · have hle : a ≤ (word - 1) / b := by
        by_contra hlt
        exact hover ⟨by omega, by omega⟩
      have := (Nat.le_div_iff_mul_le hb).1 hle
      omega
  rw [if_neg hover, Nat.mod_eq_of_lt htotal]
  dsimp only
  by_cases h0 : a * b = 0
  · have hzero : malloc s mapped (a * b) = some (s, 0) := if_pos h0
    rw [hzero]
    exact ⟨s, 0, rfl, .inl ⟨rfl, .refl s⟩⟩
  obtain ⟨s₁, r, heq, hcase⟩ := malloc_spec mapped hr h0 (hn htotal)
  rw [heq, Option.map_some]
  dsimp only
  rcases hcase with ⟨rfl, hsame⟩ | ⟨hr0, hspot, hrep, hfloor⟩
  · exact ⟨s₁, 0, rfl, .inl ⟨rfl, hsame⟩⟩
  · rw [if_neg hr0]
    obtain ⟨⟨k, hk, hswaps⟩, -⟩ := swaps_place 32 (alignUp (a * b) alignment) s.brk.ready.floor
      (show 0 < 24 by norm_num) cells
    have hnew : (r, k) ∈ used 24 s₁.brk.ready.floor
        (place 24 32 (alignUp (a * b) alignment) cells) := by
      rw [hfloor, hspot]
      exact (hswaps _).2 (.inl rfl)
    have hle := (alignUp_of_lt (hn htotal).1).1
    exact ⟨_, r, rfl, .inr ⟨hr0, hspot, hrep.write hnew fun i hi => memset_of_not_mem (by omega),
      hfloor, htotal⟩⟩

/-! ### Runs -/

/-- What holds of the heap and its live pointers in every state of a run. -/
structure RunInv (r : AllocRun) (cells : List Cell) : Prop where
  rep : Rep r.heap cells
  live : Ledger.Backed (used 24 r.heap.brk.ready.floor cells) r.live

def AllocRun.Modest (r : AllocRun) : AllocOp → Prop
  | .malloc n _ => Libc.Modest r.heap n.toNat
  | .calloc a b _ => a.toNat * b.toNat < word → Libc.Modest r.heap (a.toNat * b.toNat)
  | .realloc _ n _ => Libc.Modest r.heap n.toNat
  | .free _ | .write _ _ => True

/-- A pointer with its `n` bytes: live, inside what was obtained from `sbrk`, apart from all other
live allocations. -/
structure Granted (r : AllocRun) (q n : ℕ) : Prop where
  live : r.live q = some n
  inside : r.heap.brk.ready.floor ≤ q ∧ q + n ≤ r.heap.brk.ready.current
  apart : ∀ p k, p ≠ q → r.live p = some k → p + k ≤ q ∨ q + n ≤ p

/-- What the caller of a call that returned `q` relies on, alignment apart: after NULL nothing has
changed, and what is not NULL is granted. -/
def CallSound (r r' : AllocRun) (q : ℕ) : AllocOp → Prop
  | .malloc n _ => (q = 0 → SameHeap r.heap r'.heap ∧ r'.live = r.live) ∧
      (q ≠ 0 → Granted r' q n.toNat)
  | .calloc a b _ => (q = 0 → SameHeap r.heap r'.heap ∧ r'.live = r.live) ∧
      (q ≠ 0 → Granted r' q (a.toNat * b.toNat))
  | .realloc _ n _ => (q = 0 → n ≠ 0 → SameHeap r.heap r'.heap ∧ r'.live = r.live) ∧
      (q ≠ 0 → Granted r' q n.toNat)
  | .free _ | .write _ _ => True

variable {r : AllocRun} {q : ℕ}

theorem RunInv.none_zero (hi : RunInv r cells) : r.live 0 = none := by
  cases h0 : r.live 0 with
  | none => rfl
  | some n =>
    obtain ⟨k, hk, -⟩ := hi.live.sound 0 n h0
    exact absurd rfl (ne_zero_of_mem_used (by norm_num) hk)

theorem Resized.granted (hi : RunInv r cells)
    (hres : Resized r.heap s' cells cells' p q n) :
    RunInv ⟨s', Function.update (Function.update r.live p none) q (some n)⟩ cells' ∧
      Granted ⟨s', Function.update (Function.update r.live p none) q (some n)⟩ q n := by
  obtain ⟨k, hk, hswaps⟩ := hres.swaps
  have hlive := hi.live.swap hswaps hk
  rw [← hres.floor] at hlive hswaps
  have hmem : (q, k) ∈ used 24 s'.brk.ready.floor cells' := (hswaps _).2 (.inl rfl)
  have hbounds := bounds_of_mem_used hmem
  rw [hres.rep.tiles] at hbounds
  refine ⟨⟨hres.rep, hlive⟩, Function.update_self .., ⟨?_, ?_⟩, fun x i hxq hxi => ?_⟩
  · dsimp only at hbounds ⊢
    omega
  · dsimp only at hbounds ⊢
    omega
  · obtain ⟨l, hl, hil⟩ := hlive.sound x i hxi
    have := disjoint_of_mem_used hl hmem hxq
    dsimp only at this
    omega

theorem resized_place (hspot : q = spot 24 N s.brk.ready.floor cells)
    (hrep : Rep s' (place 24 32 N cells)) (hfloor : s'.brk.ready.floor = s.brk.ready.floor)
    (hn : n ≤ N) : Resized s s' cells (place 24 32 N cells) 0 q n := by
  obtain ⟨⟨k, hk, hswaps⟩, hfresh⟩ :=
    swaps_place 32 N s.brk.ready.floor (show 0 < 24 by norm_num) cells
  rw [← hspot] at hswaps hfresh
  exact ⟨hrep, hfloor, ⟨k, hn.trans hk, hswaps⟩, fun x hx _ => hfresh x hx⟩

theorem RunInv.granted (hi : RunInv r cells) (hn : n ≤ N)
    (hcase : q = 0 ∧ SameHeap r.heap s' ∨ q ≠ 0 ∧ q = spot 24 N r.heap.brk.ready.floor cells ∧
      Rep s' (place 24 32 N cells) ∧ s'.brk.ready.floor = r.heap.brk.ready.floor) :
    (∃ cells', RunInv ⟨s', grant r.live q n⟩ cells') ∧
      (q = 0 → SameHeap r.heap s' ∧ grant r.live q n = r.live) ∧
      (q ≠ 0 → Granted ⟨s', grant r.live q n⟩ q n) := by
  rcases hcase with ⟨rfl, hsame⟩ | ⟨hq, hspot, hrep, hfloor⟩
  · have hlive : grant r.live 0 n = r.live := if_pos rfl
    refine ⟨⟨cells, hi.rep.same hsame, ?_⟩, fun _ => ⟨hsame, hlive⟩, fun h => absurd rfl h⟩
    rw [hlive, hsame.brk]
    exact hi.live
  · have hzero : Function.update r.live 0 none = r.live :=
      Function.update_eq_self_iff.2 hi.none_zero.symm
    have hgranted := (resized_place hspot hrep hfloor hn).granted hi
    have hlive : grant r.live q n =
        Function.update (Function.update r.live 0 none) q (some n) := by
      rw [hzero]
      exact if_neg hq
    rw [hlive]
    exact ⟨⟨_, hgranted.1⟩, fun h => absurd h hq, fun _ => hgranted.2⟩

/-- **One call keeps the invariant, returns, and is sound**, when its request is modest. -/
theorem RunInv.step {op : AllocOp} (hi : RunInv r cells) (hv : r.Valid op) (hm : r.Modest op) :
    ∃ r' q, r.step op = some (r', q) ∧ (∃ cells', RunInv r' cells') ∧ CallSound r r' q op := by
  have hzero : Function.update r.live 0 none = r.live :=
    Function.update_eq_self_iff.2 hi.none_zero.symm
  have hmalloc : ∀ (n : UInt64) (mapped : Bool), Libc.Modest r.heap n.toNat →
      ∃ s' q, malloc r.heap mapped n.toNat = some (s', q) ∧
        (∃ cells', RunInv ⟨s', grant r.live q n.toNat⟩ cells') ∧
        (q = 0 → SameHeap r.heap s' ∧ grant r.live q n.toNat = r.live) ∧
        (q ≠ 0 → Granted ⟨s', grant r.live q n.toNat⟩ q n.toNat) := by
    intro n mapped hn
    have hle := (alignUp_of_lt hn.1).1
    by_cases h0 : n.toNat = 0
    · exact ⟨r.heap, 0, if_pos h0, hi.granted hle (.inl ⟨rfl, .refl _⟩)⟩
    · obtain ⟨s', q, heq, hcase⟩ := malloc_spec mapped hi.rep h0 hn
      exact ⟨s', q, heq, hi.granted hle hcase⟩
  cases op with
  | malloc n mapped =>
    obtain ⟨s', q, heq, hinv, hnull, hsome⟩ := hmalloc n mapped hm
    exact ⟨_, _, by rw [AllocRun.step, heq]; rfl, hinv, hnull, hsome⟩
  | calloc a b mapped =>
    obtain ⟨s', q, heq, hcase⟩ := calloc_spec mapped hi.rep hm
    refine ⟨_, _, by rw [AllocRun.step, heq]; rfl, ?_⟩
    rcases hcase with ⟨rfl, hsame⟩ | ⟨hq, hspot, hrep, hfloor, hlt⟩
    · exact hi.granted le_rfl (.inl ⟨rfl, hsame⟩)
    · exact hi.granted (alignUp_of_lt (hm hlt).1).1 (.inr ⟨hq, hspot, hrep, hfloor⟩)
  | free p =>
    by_cases hp : p = 0
    · subst hp
      refine ⟨r, 0, ?_, ⟨cells, hi⟩, trivial⟩
      rw [AllocRun.step, free, if_pos rfl, Option.map_some, hzero]
    · obtain ⟨n, hn⟩ := Option.isSome_iff_exists.1 (hv hp)
      obtain ⟨k, hk, -⟩ := hi.live.sound p n hn
      obtain ⟨s', heq, hrep, hbrk, hdrops⟩ := free_spec hi.rep hk
      refine ⟨_, _, by rw [AllocRun.step, heq]; rfl, ⟨_, hrep, ?_⟩, trivial⟩
      dsimp only
      rw [hbrk]
      exact hi.live.drop hdrops
  | realloc p n mapped =>
    by_cases hp : p = 0
    · -- without an old payload it is `malloc`
      subst hp
      obtain ⟨s', q, heq, hinv, hnull, hsome⟩ := hmalloc n mapped hm
      have hstep : r.step (.realloc 0 n mapped) = some (⟨s', grant r.live q n.toNat⟩, q) := by
        rw [AllocRun.step, realloc, if_pos rfl, heq, Option.map_some]
        dsimp only
        rw [hzero]
        split_ifs with hq
        · rw [grant, if_pos hq.1, hq.1]
        · rfl
      exact ⟨_, _, hstep, hinv, fun h _ => hnull h, hsome⟩
    obtain ⟨i, hi'⟩ := Option.isSome_iff_exists.1 (hv hp)
    obtain ⟨k, hk, -⟩ := hi.live.sound p i hi'
    by_cases h0 : n = 0
    · -- for a size of zero it is `free`
      subst h0
      obtain ⟨s', heq, hrep, hbrk, hdrops⟩ := free_spec hi.rep hk
      refine ⟨⟨s', Function.update r.live p none⟩, 0, ?_, ⟨_, hrep, ?_⟩,
        fun _ h => absurd rfl h, fun h => absurd rfl h⟩
      · rw [AllocRun.step, realloc, if_neg hp, if_pos UInt64.toNat_zero, heq, Option.map_some,
          Option.map_some]
        dsimp only
        rw [if_neg fun h => h.2 rfl, grant, if_pos rfl]
      · dsimp only
        rw [hbrk]
        exact hi.live.drop hdrops
    have hnat : n.toNat ≠ 0 := fun h => h0 (UInt64.toNat_inj.1 h)
    obtain ⟨s', q, heq, hcase⟩ := realloc_spec mapped hi.rep hk hnat hm
    rcases hcase with ⟨rfl, hsame⟩ | ⟨hq, cells', hres, -⟩
    · refine ⟨⟨s', r.live⟩, 0, ?_, ⟨cells, hi.rep.same hsame, ?_⟩, fun _ _ => ⟨hsame, rfl⟩,
        fun h => absurd rfl h⟩
      · rw [AllocRun.step, heq, Option.map_some]
        dsimp only
        rw [if_pos ⟨rfl, h0⟩]
      · dsimp only
        rw [hsame.brk]
        exact hi.live
    · obtain ⟨hinv, hgranted⟩ := hres.granted hi
      have hstep : r.step (.realloc p n mapped) = some (⟨s', Function.update
          (Function.update r.live p none) q (some n.toNat)⟩, q) := by
        rw [AllocRun.step, heq, Option.map_some]
        dsimp only
        rw [if_neg fun h => hq h.1, grant, if_neg hq]
      exact ⟨_, _, hstep, ⟨_, hinv⟩, fun h => absurd h hq, fun _ => hgranted⟩
  | write a v =>
    obtain ⟨p, n, hn, hpa, han⟩ := hv
    obtain ⟨k, hk, hle⟩ := hi.live.sound p n hn
    refine ⟨_, _, rfl, ⟨cells, hi.rep.write hk fun i hi => ?_, hi.live⟩, trivial⟩
    exact Function.update_of_ne (by omega) _ _

/-- The states of a process that calls its allocator with live pointers only. -/
inductive AllocRun.Reached (s : Heap) : AllocRun → Prop
  | init : Reached s ⟨s, fun _ => none⟩
  | step {r r' : AllocRun} {q : ℕ} (op : AllocOp) (hr : Reached s r) (hv : r.Valid op)
      (hs : r.step op = some (r', q)) : Reached s r'

/-- The states of the runs in which no request wraps around. -/
inductive AllocRun.ModestReached (s : Heap) : AllocRun → Prop
  | init : ModestReached s ⟨s, fun _ => none⟩
  | step {r r' : AllocRun} {q : ℕ} (op : AllocOp) (hr : ModestReached s r) (hv : r.Valid op)
      (hm : r.Modest op) (hs : r.step op = some (r', q)) : ModestReached s r'

/-- In every run every call is sound, and what it returns is aligned. -/
def Safe (s : Heap) : Prop :=
  ∀ (r r' : AllocRun) (op : AllocOp) (q : ℕ), AllocRun.Reached s r → r.Valid op →
    r.step op = some (r', q) → CallSound r r' q op ∧ (q ≠ 0 → alignment ∣ q)

theorem Fresh.ready (hs : Fresh s) :
    s.brk.ready.current = s.brk.ready.floor ∧ 4096 ∣ s.brk.ready.floor ∧
      0 < s.brk.ready.floor ∧ s.brk.ready.floor < word ∧
      s.brk.ready.limit ≤ userStackBottomLarge := by
  have hW := word_eq
  have hU := userStackBottomLarge_eq
  rw [Brk.ready]
  split_ifs with h0
  · refine ⟨rfl, ?_, ?_, ?_, ?_⟩
    · norm_num
    · norm_num
    · dsimp only
      omega
    · dsimp only
      omega
  · exact ⟨hs.current, hs.page, Nat.pos_of_ne_zero h0, hs.floor_lt, hs.limit_le⟩

theorem Fresh.runInv (hs : Fresh s) : RunInv ⟨s, fun _ => none⟩ [] := by
  obtain ⟨hcur, -, hpos, hlt, hlim⟩ := hs.ready
  exact ⟨⟨⟨trivial, hs.head, hs.tail, hpos, hlt⟩, hcur.symm, fun h => absurd rfl h, hlim⟩,
    by simp, by simp⟩

theorem runInv_of_modestReached (hs : Fresh s) (hr : AllocRun.ModestReached s r) :
    ∃ cells, RunInv r cells := by
  induction hr with
  | init => exact ⟨[], hs.runInv⟩
  | step op _ hv hm hstep ih =>
    obtain ⟨cells, hi⟩ := ih
    obtain ⟨r'', q', heq, hinv, -⟩ := hi.step hv hm
    rw [hstep, Option.some_inj, Prod.mk.injEq] at heq
    rw [heq.1]
    exact hinv

/-! ### A process that can never allocate -/

variable (mapped) in
theorem requestBlock_nil (hr : Rep s []) (hN : 16 ∣ N) :
    requestBlock s mapped N =
      let total := (headerSize + N) % word
      if total < 2 ^ 63 ∧ s.brk.ready.current + total ≤ s.brk.ready.limit ∧ mapped = true then
        (⟨setNext (setFree (setSize s.mem s.brk.ready.current N) s.brk.ready.current false)
          s.brk.ready.current 0, { s.brk.ready with current := s.brk.ready.current + total },
          s.brk.ready.current, s.brk.ready.current⟩, s.brk.ready.current)
      else ({ s with brk := s.brk.ready }, 0) := by
  have hW := word_eq
  have hS := headerSize_eq
  have ht := hr.tiles
  have hhead : s.head = 0 := hr.blocks.head
  have htail : s.tail = 0 := hr.blocks.tail
  have hpos := hr.blocks.pos
  have hcur := hr.sane.current_lt
  have hlim := hr.limit_lt
  rw [span_nil, Nat.add_zero] at ht
  have hF : failedPtr = word - 1 := rfl
  have htotal : 8 ≤ (headerSize + N) % word ∧ (headerSize + N) % word < word := by
    rw [hS, hW]
    omega
  rw [requestBlock]
  dsimp only
  generalize (headerSize + N) % word = total at *
  rw [sbrk_eq hr.sane (by omega) (by omega)]
  by_cases hok : total < 2 ^ 63 ∧ s.brk.ready.current + total ≤ s.brk.ready.limit ∧ mapped = true
  · rw [if_pos hok, if_pos hok]
    dsimp only
    rw [if_neg (by omega), if_pos hhead, if_neg (not_not.2 htail)]
  · rw [if_neg hok, if_neg hok]
    dsimp only
    rw [if_pos rfl]

theorem malloc_nil (hr : Rep s []) (h0 : n ≠ 0) :
    malloc s mapped n = some (match requestBlock s mapped (alignUp n alignment) with
      | (s, b) => if b = 0 then (s, 0) else (s, (b + headerSize) % word)) := by
  obtain ⟨r, heq, hcase⟩ := findFreeBlock_spec (alignUp n alignment) hr.blocks
  have hr0 : r = 0 := by
    rcases hcase with ⟨h, -⟩ | ⟨A, c, B, h, -⟩
    · exact h
    · simp at h
  rw [malloc, if_neg h0]
  dsimp only
  rw [heq, hr0, Option.map_some, if_pos rfl]

/-- **The first payload of a process** lies behind the first header. -/
theorem malloc_first (hs : Fresh s) (h0 : n ≠ 0)
    (hneg : (headerSize + alignUp n alignment) % word < 2 ^ 63)
    (hroom : s.brk.ready.floor + (headerSize + alignUp n alignment) % word ≤ s.brk.ready.limit) :
    ∃ s', malloc s true n = some (s', s.brk.ready.floor + 24) := by
  obtain ⟨hcur, hpage, hpos, hlt, hlimit⟩ := hs.ready
  have hW := word_eq
  have hN : 16 ∣ alignUp n alignment := by
    rw [alignUp, alignment_eq]
    omega
  have hreq := requestBlock_nil true hs.runInv.rep hN
  dsimp only at hreq
  rw [hcur, if_pos ⟨hneg, hroom, rfl⟩] at hreq
  refine ⟨(requestBlock s true (alignUp n alignment)).1, ?_⟩
  rw [malloc_nil hs.runInv.rep h0, hreq]
  dsimp only
  rw [if_neg (by omega), headerSize_eq,
    Nat.mod_eq_of_lt (show s.brk.ready.floor + 24 < word by omega)]

variable (mapped) in
theorem malloc_idle (hr : Rep s []) (hlim : s.brk.ready.limit < s.brk.ready.floor + 8) (n : ℕ) :
    ∃ s', malloc s mapped n = some (s', 0) ∧ SameHeap s s' := by
  by_cases h0 : n = 0
  · exact ⟨s, if_pos h0, .refl s⟩
  have ht := hr.tiles
  rw [span_nil, Nat.add_zero] at ht
  have hN : 16 ∣ alignUp n alignment := by
    rw [alignUp, alignment_eq]
    omega
  have htotal : 8 ≤ (headerSize + alignUp n alignment) % word := by
    rw [headerSize_eq, word_eq] at *
    omega
  have hreq : requestBlock s mapped (alignUp n alignment) =
      ({ s with brk := s.brk.ready }, 0) := by
    rw [requestBlock_nil _ hr hN]
    dsimp only
    rw [if_neg (by omega)]
  refine ⟨{ s with brk := s.brk.ready }, ?_, rfl, Brk.ready_ready _, rfl, rfl⟩
  rw [malloc_nil hr h0, hreq]
  rfl

/-- What every state of such a process is. -/
structure Idle (s : Heap) (r : AllocRun) : Prop where
  same : SameHeap s r.heap
  live : ∀ p, r.live p = none

theorem Idle.step {op : AllocOp} {r' : AllocRun} (hs : Fresh s)
    (hlim : s.brk.ready.limit < s.brk.ready.floor + 8) (hr : Idle s r) (hv : r.Valid op)
    (hstep : r.step op = some (r', q)) :
    q = 0 ∧ Idle s r' ∧ SameHeap r.heap r'.heap ∧ r'.live = r.live := by
  have hrep : Rep r.heap [] := hs.runInv.rep.same hr.same
  have hlim' : r.heap.brk.ready.limit < r.heap.brk.ready.floor + 8 := by
    rw [hr.same.brk]
    exact hlim
  -- every call fails, so it leaves the same heap and nothing live
  have key : ∀ {s' : Heap} {live : ℕ → Option ℕ}, SameHeap r.heap s' → live = r.live →
      some ((⟨s', live⟩ : AllocRun), 0) = some (r', q) →
      q = 0 ∧ Idle s r' ∧ SameHeap r.heap r'.heap ∧ r'.live = r.live := by
    intro s' live hsame hlive heq
    rw [Option.some_inj, Prod.mk.injEq] at heq
    obtain ⟨rfl, rfl⟩ := heq
    refine ⟨rfl, ⟨hr.same.trans hsame, fun p => ?_⟩, hsame, hlive⟩
    dsimp only
    rw [hlive]
    exact hr.live p
  have hnull : ∀ p, (p ≠ 0 → (r.live p).isSome = true) → p = 0 := by
    intro p hp
    by_contra h0
    simpa [hr.live p] using hp h0
  have hzero : Function.update r.live 0 none = r.live :=
    Function.update_eq_self_iff.2 (hr.live 0).symm
  cases op with
  | malloc n mapped =>
    obtain ⟨s', heq, hsame⟩ := malloc_idle mapped hrep hlim' n.toNat
    rw [AllocRun.step, heq] at hstep
    exact key hsame rfl hstep
  | calloc a b mapped =>
    rw [AllocRun.step, calloc] at hstep
    split_ifs at hstep with hover
    · exact key (.refl _) rfl hstep
    · obtain ⟨s', heq, hsame⟩ := malloc_idle mapped hrep hlim'
        (a.toNat * b.toNat % word)
      dsimp only at hstep
      rw [heq] at hstep
      exact key hsame rfl hstep
  | free p =>
    obtain rfl := hnull p hv
    exact key (.refl _) hzero hstep
  | realloc p n mapped =>
    obtain rfl := hnull p hv
    obtain ⟨s', heq, hsame⟩ := malloc_idle mapped hrep hlim' n.toNat
    rw [AllocRun.step, realloc, if_pos rfl, heq, Option.map_some] at hstep
    dsimp only at hstep
    rw [hzero] at hstep
    split_ifs at hstep with hn
    · exact key hsame rfl hstep
    · exact key hsame rfl hstep
  | write a v =>
    obtain ⟨p, n, hn, -⟩ := hv
    rw [hr.live p] at hn
    cases hn

/-- A process that has not called its allocator yet, and for which `exec` has set up no heap. -/
def firstHeap : Heap := ⟨fun _ => 0, ⟨0, 0, 0⟩, 0, 0⟩

theorem fresh_firstHeap : Fresh firstHeap := ⟨rfl, rfl, rfl, by norm_num [firstHeap],
  by norm_num [firstHeap], by norm_num [firstHeap]⟩

/-- **A process is safe exactly when it can never allocate**: the header has 24 bytes, so the
first payload of every other process lies eight bytes off the alignment.  Alignment apart, every
call of a run of modest requests returns and is sound. -/
theorem allocSafe_iff (hs : Fresh s) :
    (Safe s ↔ s.brk.ready.limit < s.brk.ready.floor + 8) ∧
      ∀ (r : AllocRun) (op : AllocOp), AllocRun.ModestReached s r → r.Valid op → r.Modest op →
        ∃ r' q, r.step op = some (r', q) ∧ CallSound r r' q op := by
  obtain ⟨hcur, hpage, hpos, hlt, hlimit⟩ := hs.ready
  have hW := word_eq
  refine ⟨⟨fun hsafe => ?_, fun hlim => ?_⟩, fun r op hr hv hm => ?_⟩
  · -- the one request that wraps around to eight bytes is refused nowhere else
    by_contra hroom
    have htotal : (headerSize + alignUp 18446744073709551600 alignment) % word = 8 := rfl
    obtain ⟨s', hmalloc⟩ := malloc_first hs (n := 18446744073709551600) (by norm_num)
      (by rw [htotal]; norm_num) (by rw [htotal]; omega)
    have hstep : AllocRun.step ⟨s, fun _ => none⟩ (.malloc 18446744073709551600 true) = _ :=
      congrArg (Option.map fun x : Heap × ℕ =>
        ((⟨x.1, grant (fun _ => none) x.2 18446744073709551600⟩ : AllocRun), x.2)) hmalloc
    have haligned := (hsafe ⟨s, fun _ => none⟩ _ (.malloc 18446744073709551600 true) _ .init trivial
      hstep).2 (by omega)
    rw [alignment_eq] at haligned
    omega
  · have hidle : ∀ r, AllocRun.Reached s r → Idle s r := by
      intro r hr
      induction hr with
      | init => exact ⟨.refl s, fun _ => rfl⟩
      | step op _ hv hstep ih => exact (ih.step hs hlim hv hstep).2.1
    intro r r' op q hr hv hstep
    obtain ⟨rfl, -, hsame, hlive⟩ := (hidle r hr).step hs hlim hv hstep
    refine ⟨?_, fun h => absurd rfl h⟩
    cases op with
    | malloc n mapped => exact ⟨fun _ => ⟨hsame, hlive⟩, fun h => absurd rfl h⟩
    | calloc a b mapped => exact ⟨fun _ => ⟨hsame, hlive⟩, fun h => absurd rfl h⟩
    | realloc p n mapped => exact ⟨fun _ _ => ⟨hsame, hlive⟩, fun h => absurd rfl h⟩
    | free p => trivial
    | write a v => trivial
  · obtain ⟨cells, hi⟩ := runInv_of_modestReached hs hr
    obtain ⟨r', q, hstep, -, hsound⟩ := hi.step hv hm
    exact ⟨r', q, hstep, hsound⟩

/-- A process of which the heap is not set up. -/
theorem allocSafe_iff_firstHeap : (Safe firstHeap ↔ (0x7000000 : ℕ) < 0x5000000 + 8) ∧
    ∃ r' q, AllocRun.step ⟨firstHeap, fun _ => none⟩ (.malloc 100 true) = some (r', q) ∧
      CallSound ⟨firstHeap, fun _ => none⟩ r' q (.malloc 100 true) := by
  obtain ⟨hsafe, hmodest⟩ := allocSafe_iff fresh_firstHeap
  exact ⟨hsafe, hmodest _ _ .init trivial ⟨by decide, by decide⟩⟩

/-- **The first `malloc(1)` of a process returns `0x5000018`**, which is not aligned to 16. -/
theorem not_safe_firstHeap : ¬∀ s : Heap, Fresh s → Safe s := by
  intro h
  have htotal : (headerSize + alignUp 1 alignment) % word = 40 := rfl
  obtain ⟨s', hmalloc⟩ := malloc_first fresh_firstHeap (n := 1) (by norm_num)
    (by rw [htotal]; norm_num) (by rw [htotal]; decide)
  have hstep : AllocRun.step ⟨firstHeap, fun _ => none⟩ (.malloc 1 true) = _ :=
    congrArg (Option.map fun x : Heap × ℕ =>
      ((⟨x.1, grant (fun _ => none) x.2 1⟩ : AllocRun), x.2)) hmalloc
  have haligned := (h _ fresh_firstHeap ⟨firstHeap, fun _ => none⟩ _ (.malloc 1 true) _ .init trivial
    hstep).2 (Nat.succ_ne_zero _)
  have hplace : firstHeap.brk.ready.floor + 24 = 0x5000018 := rfl
  rw [alignment_eq, hplace] at haligned
  omega

end Tnu.Libc
