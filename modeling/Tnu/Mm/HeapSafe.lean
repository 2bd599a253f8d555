/-
**The heap over whole runs.**

What the functions of `Tnu/Mm/Heap.lean` do to the payloads in use, and from it what holds after
every sequence of calls in which only live pointers are freed or reallocated.

Main results:

* `sound_of_reached` — **every run keeps the heap sound, and every call returns**;
* `coalesced_of_tidyReached` — **without such a shrinking no two free blocks are
  neighbours**.
-/

import Tnu.Lib.Ledger
import Tnu.Mm.HeapRep
import Tnu.Vfs.Ops

set_option autoImplicit false

namespace Tnu.Mm

open Tiling

/-! ### The invariant -/

/-- The array is tiled by blocks whose sizes are positive multiples of 16. -/
structure HeapInv (h : HeapArray) (m : Mem) (cells : List Cell) : Prop where
  rep : HeapRep h m cells
  grid : ∀ c ∈ cells, 16 ∣ c.size
  pos : ∀ c ∈ cells, 0 < c.size

variable {h : HeapArray} {m m' : Mem} {cells A B : List Cell} {c : Cell} {p k : ℕ} {s : Heap}

theorem dvd_span {g : ℕ} (hg : g ∣ 32) (hc : ∀ c ∈ cells, g ∣ c.size) : g ∣ span 32 cells := by
  induction cells with
  | nil => simp
  | cons c l ih =>
    rw [List.forall_mem_cons] at hc
    exact dvd_add (dvd_add hg hc.1) (ih hc.2)

theorem HeapInv.of_mem_used (hi : HeapInv h m cells) (hx : (p, k) ∈ used 32 h.base cells) :
    16 ∣ p ∧ 0 < k ∧ h.base + 32 ≤ p ∧ p + k ≤ h.base + kernelHeapSize := by
  have hb := bounds_of_mem_used hx
  rw [hi.rep.tiles] at hb
  obtain ⟨A, c, B, rfl, -, hpk⟩ := exists_of_mem_used hx
  rw [Prod.mk.injEq] at hpk
  refine ⟨?_, ?_, hb.1, hb.2⟩
  · rw [hpk.1]
    have hA : ∀ d ∈ A, 16 ∣ d.size := fun d hd => hi.grid d (by simp [hd])
    exact dvd_add (dvd_add h.aligned (dvd_span (by norm_num) hA)) (by norm_num)
  · rw [hpk.2]
    exact hi.pos c (by simp)

/-- **Writing into a payload in use** changes no header. -/
theorem HeapInv.write (hi : HeapInv h m cells) (hx : (p, k) ∈ used 32 h.base cells)
    (hm : ∀ i, i < p ∨ p + k ≤ i → m' i = m i) : HeapInv h m' cells := by
  obtain ⟨A, c, B, rfl, -, hpk⟩ := exists_of_mem_used hx
  rw [Prod.mk.injEq] at hpk
  obtain ⟨rfl, rfl⟩ := hpk
  obtain ⟨hA, hc, hB, htiles⟩ := (heapRep_middle rfl).1 hi.rep
  refine ⟨(heapRep_middle rfl).2 ⟨?_, ?_, ?_, htiles⟩, hi.grid, hi.pos⟩
  · exact hA.congr fun i _ h₂ => hm i (by omega)
  · rw [blockAt_congr fun i h₁ h₂ => hm i (by omega), hc]
  · exact hB.congr fun i h₁ _ => hm i (by omega)

theorem HeapInv.header (hi : HeapInv h m cells) (hx : (p, k) ∈ used 32 h.base cells) :
    (blockAt m (sub64 p 32)).magic = heapMagic ∧ (blockAt m (sub64 p 32)).free = false ∧
      (blockAt m (sub64 p 32)).size = k := by
  have hb := hi.of_mem_used hx
  have hfits := h.fits
  obtain ⟨A, c, B, rfl, hcf, hpk⟩ := exists_of_mem_used hx
  rw [Prod.mk.injEq] at hpk
  obtain ⟨rfl, rfl⟩ := hpk
  have hsub : sub64 (h.base + span 32 A + 32) 32 = h.base + span 32 A :=
    sub64_payload h _ (by omega)
  rw [hsub, ((heapRep_middle rfl).1 hi.rep).2.1]
  exact ⟨rfl, hcf, rfl⟩

theorem heapInv_heapInit (h : HeapArray) (m : Mem) :
    HeapInv h (heapInit h m).mem [⟨kernelHeapSize - 32, true⟩] := by
  refine ⟨heapRep_heapInit h m, ?_, ?_⟩
  · simp only [List.mem_singleton, forall_eq]
    norm_num
  · simp only [List.mem_singleton, forall_eq]
    norm_num

/-! ### Taking a block -/

/-- A cell is taken: it was free, it is cut down and now in use with `k` bytes at `p`. -/
structure Taken (h : HeapArray) (cells cells' : List Cell) (p k : ℕ) : Prop where
  mem_used : ∀ x, x ∈ used 32 h.base cells' ↔ x = (p, k) ∨ x ∈ used 32 h.base cells
  fresh : ∀ x ∈ used 32 h.base cells, x.1 ≠ p
  settled : Settled cells → Settled cells'

variable {r : HeapRun} {size : ℕ}

theorem align16_of_ne_zero (hs : size < word) (h0 : align16 size ≠ 0) :
    size ≤ align16 size ∧ 16 ∣ align16 size ∧ align16 size < word := by
  rw [align16, word_eq] at *
  omega

theorem settled_taken {n : ℕ} (hc : c.free = true) (hs : Settled (A ++ c :: B)) :
    Settled (A ++ ⟨(keep 32 32 n c).size, false⟩ :: (rest 32 32 n c ++ B)) := by
  rw [settled_append, settled_cons] at hs
  obtain ⟨hA, ⟨hcB, hB⟩, -⟩ := hs
  rw [settled_append, settled_cons]
  refine ⟨hA, ⟨by simp, settled_rest hB (.inr fun d hd => ?_)⟩, by simp⟩
  simpa [hc] using hcB d hd

theorem heapInv_cut {n : ℕ} {f : Bool} (hn : 16 ∣ n) (hpos : 0 < n)
    (hi : HeapInv h m (A ++ c :: B))
    (hr : HeapRep h m' (A ++ ⟨(keep 32 32 n c).size, f⟩ :: (rest 32 32 n c ++ B))) :
    HeapInv h m' (A ++ ⟨(keep 32 32 n c).size, f⟩ :: (rest 32 32 n c ++ B)) := by
  have hd := dvd_cut 32 (show 16 ∣ 32 by norm_num) hn (hi.grid c (by simp))
  have hp := pos_cut 32 (show 0 < 32 by norm_num) hpos (hi.pos c (by simp))
  have hmem : ∀ {P : ℕ → Prop}, (∀ d ∈ A ++ c :: B, P d.size) → P (keep 32 32 n c).size →
      (∀ d ∈ rest 32 32 n c, P d.size) →
      ∀ d ∈ A ++ ⟨(keep 32 32 n c).size, f⟩ :: (rest 32 32 n c ++ B), P d.size := by
    intro P hall hkeep hrest d hd
    simp only [List.mem_append, List.mem_cons] at hd
    rcases hd with hd | rfl | hd | hd
    · exact hall d (by simp [hd])
    · exact hkeep
    · exact hrest d hd
    · exact hall d (by simp [hd])
  exact ⟨hr, hmem hi.grid hd.1 hd.2, hmem hi.pos hp.1 hp.2⟩

/-- **`kmalloc`** returns NULL and changes nothing, or takes a block that is large enough. -/
theorem kmalloc_spec (hi : HeapInv h s.mem cells) (hs : size < word) :
    ∃ s' r, kmalloc h s size = some (s', r) ∧ (r = 0 ∧ s' = s ∨
      r ≠ 0 ∧ ∃ cells' k, HeapInv h s'.mem cells' ∧ Taken h cells cells' r k ∧ size ≤ k) := by
  by_cases h0 : align16 size = 0
  · exact ⟨s, 0, if_pos h0, .inl ⟨rfl, rfl⟩⟩
  obtain ⟨hle, hdvd, hlt⟩ := align16_of_ne_zero hs h0
  obtain ⟨s', r, heq, hcase⟩ := kmalloc_rep h0 hi.rep
  refine ⟨s', r, heq, ?_⟩
  rcases hcase with ⟨h0, hs', -⟩ | ⟨A, c, B, rfl, hcf, hcs, -, rfl, hrep⟩
  · exact .inl ⟨h0, hs'⟩
  refine .inr ⟨by omega, _, (keep 32 32 (align16 size) c).size,
    heapInv_cut hdvd (Nat.pos_of_ne_zero h0) hi hrep, ⟨?_, ?_, ?_⟩, ?_⟩
  · intro x
    rw [used_cut, used_middle, hcf]
    simp only [Bool.false_eq_true, if_false, if_true, List.nil_append, List.mem_append,
      List.mem_singleton]
    exact or_left_comm
  · intro x hx
    rw [used_middle, hcf, if_pos rfl, List.nil_append, List.mem_append] at hx
    exact ne_of_mem_middle (by norm_num) hx
  · exact settled_taken hcf
  · exact hle.trans (le_size_keep hcs)

/-! ### Giving a block back -/

/-- A cell is given back: the payload at `p` is no longer in use, the others are. -/
structure Dropped (h : HeapArray) (cells cells' : List Cell) (p : ℕ) : Prop where
  mem_used : ∀ x, x ∈ used 32 h.base cells' ↔ x ∈ used 32 h.base cells ∧ x.1 ≠ p
  settled : Settled cells → Settled cells'

/-- **`kfree`** of a payload in use gives it back, and returns. -/
theorem kfree_spec (hi : HeapInv h s.mem cells) (hx : (p, k) ∈ used 32 h.base cells) :
    ∃ s', kfree h s p = some s' ∧
      ∃ cells', HeapInv h s'.mem cells' ∧ Dropped h cells cells' p := by
  obtain ⟨A, c, B, rfl, hcf, hpk⟩ := exists_of_mem_used hx
  rw [Prod.mk.injEq] at hpk
  obtain ⟨rfl, rfl⟩ := hpk
  obtain ⟨m', heq, hrep⟩ := kfree_rep hi.rep (hi.pos c (by simp))
  rw [heq]
  refine ⟨_, rfl, _, ⟨hrep, ?_, ?_⟩, ?_, ?_⟩
  · refine forall_release (fun a b ha hb => dvd_add ha (dvd_add (by norm_num) hb)) ?_
      (hi.grid c (by simp)) ?_
    · exact fun d hd => hi.grid d (by simp [List.mem_reverse.1 hd])
    · exact fun d hd => hi.grid d (by simp [hd])
  · refine forall_release (fun a b ha _ => by omega) ?_ (hi.pos c (by simp)) ?_
    · exact fun d hd => hi.pos d (by simp [List.mem_reverse.1 hd])
    · exact fun d hd => hi.pos d (by simp [hd])
  · intro x
    rw [used_release rfl, List.reverse_reverse, used_middle, used_middle, hcf]
    simp only [if_true, List.nil_append, Bool.false_eq_true, if_false, List.mem_append,
      List.mem_singleton]
    constructor
    · exact fun hx => ⟨hx.imp_right .inr, ne_of_mem_middle (by norm_num) hx⟩
    · rintro ⟨hx | rfl | hx, hne⟩
      · exact .inl hx
      · exact absurd rfl hne
      · exact .inr hx
  · intro hset
    rw [settled_append, settled_cons] at hset
    exact settled_release _ (by rw [List.reverse_reverse]; exact hset.1) hset.2.1.2

/-! ### Reallocating -/

/-- The payload at `p` is gone and one of `k` bytes at `r` is in use; the others are as before. -/
def Replaced (h : HeapArray) (cells cells' : List Cell) (p r k : ℕ) : Prop :=
  ∀ x, x ∈ used 32 h.base cells' ↔ x = (r, k) ∨ x ∈ used 32 h.base cells ∧ x.1 ≠ p

/-- What `split_block` leaves over in front of a free block is a second free block. -/
def leavesGap (m : Mem) (ptr newSize : ℕ) : Prop :=
  align16 newSize + blockSize + 32 ≤ (blockAt m (sub64 ptr blockSize)).size ∧
    isFreeBlock m (blockAt m (sub64 ptr blockSize)).next

/-- **Shrinking in place.** -/
theorem splitBlock_spec {n : ℕ} (hi : HeapInv h m cells) (hx : (p, k) ∈ used 32 h.base cells)
    (hn : n ≤ k) (h0 : n ≠ 0) :
    ∃ cells' k', HeapInv h (splitBlock m (sub64 p blockSize) (align16 n)) cells' ∧ n ≤ k' ∧
      Replaced h cells cells' p p k' ∧ (¬leavesGap m p n → Settled cells → Settled cells') := by
  have hb := hi.of_mem_used hx
  have hpos := h.pos
  have hfits := h.fits
  obtain ⟨A, c, B, rfl, hcf, hpk⟩ := exists_of_mem_used hx
  rw [Prod.mk.injEq] at hpk
  obtain ⟨rfl, rfl⟩ := hpk
  have hsub := sub64_payload h (span 32 A) (by omega)
  have hK := kernelHeapSize_eq
  have hW := word_eq
  have halign : n ≤ align16 n ∧ 16 ∣ align16 n ∧ align16 n ≤ c.size := by
    have hdvd := hi.grid c (by simp)
    rw [align16, word_eq]
    omega
  have hsplit := heapRep_splitBlock rfl hi.rep (show align16 n + 64 < word by omega)
  have hkeep : keep 32 32 (align16 n) c = ⟨(keep 32 32 (align16 n) c).size, false⟩ := by
    rw [← hcf, ← free_keep (align16 n) c]
  rw [hkeep] at hsplit
  rw [hsub]
  refine ⟨_, (keep 32 32 (align16 n) c).size, heapInv_cut halign.2.1 (by omega) hi hsplit,
    halign.1.trans (le_size_keep halign.2.2), fun x => ?_, fun hgap hset => ?_⟩
  · rw [used_cut, used_middle, hcf]
    simp only [Bool.false_eq_true, if_false, List.mem_append, List.mem_singleton]
    constructor
    · rintro (hx | rfl | hx)
      · exact .inr ⟨.inl hx, ne_of_mem_middle (c := c) (B := B) (by norm_num) (.inl hx)⟩
      · exact .inl rfl
      · exact .inr ⟨.inr (.inr hx), ne_of_mem_middle (c := c) (B := B) (by norm_num) (.inr hx)⟩
    · rintro (rfl | ⟨hx | rfl | hx, hne⟩)
      · exact .inr (.inl rfl)
      · exact .inl hx
      · exact absurd rfl hne
      · exact .inr (.inr hx)
  · rw [settled_append, settled_cons] at hset
    obtain ⟨hA, ⟨-, hB⟩, -⟩ := hset
    rw [settled_append, settled_cons]
    refine ⟨hA, ⟨by simp, settled_rest hB ?_⟩, by simp⟩
    -- either nothing is left over, or the next block is in use
    rw [rest]
    by_cases hlt : c.size < align16 n + 32 + 32
    · exact .inl (if_pos hlt)
    · refine .inr fun d hd => ?_
      obtain ⟨-, hc, hseg, -⟩ := (heapRep_middle rfl).1 hi.rep
      cases B with
      | nil => simp at hd
      | cons e B =>
        obtain rfl : e = d := by simpa using hd
        by_contra hef
        refine hgap ⟨?_, ?_⟩
        · rw [hsub, hc]
          dsimp only
          rw [blockSize_eq]
          omega
        · rw [hsub, hc]
          refine ⟨by simp only [link]; omega, ?_⟩
          simp only [link]
          rw [hseg.1]
          simpa using hef

/-- **`krealloc`** of a payload in use to a size that is not zero: NULL and no change, or a payload
that is large enough in place of the old one. -/
theorem krealloc_spec (oldSize : ℕ) {newSize : ℕ} (hi : HeapInv h s.mem cells)
    (hx : (p, k) ∈ used 32 h.base cells) (hn : newSize < word) (h0 : newSize ≠ 0) :
    ∃ s' r, krealloc h s p oldSize newSize = some (s', r) ∧ (r = 0 ∧ s' = s ∨
      r ≠ 0 ∧ ∃ cells' k', HeapInv h s'.mem cells' ∧ newSize ≤ k' ∧ Replaced h cells cells' p r k' ∧
        (¬leavesGap s.mem p newSize → Settled cells → Settled cells')) := by
  have hb := hi.of_mem_used hx
  have hpos := h.pos
  have hheader : (blockAt s.mem (sub64 p blockSize)).magic = heapMagic ∧
      (blockAt s.mem (sub64 p blockSize)).free = false ∧
      (blockAt s.mem (sub64 p blockSize)).size = k := hi.header hx
  rw [krealloc, if_neg (by omega), if_neg h0]
  dsimp only
  rw [hheader.2.2]
  by_cases hfit : newSize ≤ k
  · rw [if_pos ⟨hheader.1, hfit⟩]
    obtain ⟨cells', k', hi', hle, hrep, hset⟩ := splitBlock_spec hi hx hfit h0
    refine ⟨_, p, rfl, .inr ⟨by omega, cells', k', ?_, hle, hrep, hset⟩⟩
    dsimp only
    exact hi'
  rw [if_neg fun h => hfit h.2]
  obtain ⟨s₁, r, heq, hcase⟩ := kmalloc_spec hi hn
  rw [heq, Option.bind_some]
  dsimp only
  rcases hcase with ⟨rfl, rfl⟩ | ⟨hr, cells₁, k₁, hi₁, htaken, hle⟩
  · rw [if_pos rfl]
    exact ⟨_, 0, rfl, .inl ⟨rfl, rfl⟩⟩
  rw [if_neg hr]
  -- whichever copy is made, it stays inside the new payload
  have hnew : (r, k₁) ∈ used 32 h.base cells₁ := (htaken.mem_used _).2 (.inl rfl)
  generalize hm : (if oldSize ≠ 0 then _ else _ : Mem) = m
  have hm₁ : HeapInv h m cells₁ := by
    rw [← hm]
    refine hi₁.write hnew fun i hi => ?_
    split_ifs
    · exact memcpy_of_not_mem (by omega)
    · exact memcpy_of_not_mem (by omega)
    · rfl
  have hp : (p, k) ∈ used 32 h.base cells₁ := (htaken.mem_used _).2 (.inr hx)
  obtain ⟨s₂, heq₂, cells₂, hi₂, hdrop⟩ := kfree_spec (s := ⟨m, s₁.usedHighwater⟩) hm₁ hp
  rw [heq₂]
  refine ⟨s₂, r, rfl, .inr ⟨hr, cells₂, k₁, hi₂, hle, fun x => ?_, fun _ hset =>
    hdrop.settled (htaken.settled hset)⟩⟩
  rw [hdrop.mem_used, htaken.mem_used]
  constructor
  · rintro ⟨rfl | hmem, hne⟩
    · exact .inl rfl
    · exact .inr ⟨hmem, hne⟩
  · rintro (rfl | ⟨hmem, hne⟩)
    · exact ⟨.inl rfl, fun h => htaken.fresh _ hx h.symm⟩
    · exact ⟨.inr hmem, hne⟩

/-- **`kcalloc`** returns NULL and changes nothing, or takes a block that is large enough. -/
theorem kcalloc_spec (count size : ℕ) (hi : HeapInv h s.mem cells) :
    ∃ s' r, kcalloc h s count size = some (s', r) ∧ (r = 0 ∧ s' = s ∨
      r ≠ 0 ∧ ∃ cells' k, HeapInv h s'.mem cells' ∧ Taken h cells cells' r k ∧
        count * size ≤ k) := by
  rw [kcalloc]
  by_cases hover : count ≠ 0 ∧ (word - 1) / count < size
  · rw [if_pos hover]
    exact ⟨s, 0, rfl, .inl ⟨rfl, rfl⟩⟩
  rw [if_neg hover]
  have htotal : count * size < word := by
    rcases Nat.eq_zero_or_pos count with rfl | hc
    · rw [Nat.zero_mul, word_eq]
      norm_num
    · have hle : size ≤ (word - 1) / count := by
        by_contra hlt
        exact hover ⟨by omega, by omega⟩
      have := (Nat.le_div_iff_mul_le hc).1 hle
      rw [word_eq] at *
      rw [Nat.mul_comm]
      omega
  obtain ⟨s₁, r, heq, hcase⟩ := kmalloc_spec hi htotal
  dsimp only
  rw [Nat.mod_eq_of_lt htotal, heq, Option.map_some]
  dsimp only
  rcases hcase with ⟨rfl, rfl⟩ | ⟨hr, cells', k', hi', htaken, hle⟩
  · exact ⟨_, 0, rfl, .inl ⟨rfl, rfl⟩⟩
  · rw [if_neg hr]
    have hnew : (r, k') ∈ used 32 h.base cells' := (htaken.mem_used _).2 (.inl rfl)
    refine ⟨_, r, rfl, .inr ⟨hr, cells', k', hi'.write hnew fun i hi => ?_, htaken, hle⟩⟩
    exact memset_of_not_mem (by omega)

/-! ### Live allocations -/

/-- The live pointers are the payloads in use, and these are as large as was asked for. -/
structure LiveInv (h : HeapArray) (cells : List Cell) (live : ℕ → Option ℕ) : Prop where
  sound : ∀ p n, live p = some n → ∃ k, (p, k) ∈ used 32 h.base cells ∧ n ≤ k
  complete : ∀ p k, (p, k) ∈ used 32 h.base cells → (live p).isSome = true

variable {cells' : List Cell} {live : ℕ → Option ℕ} {q n : ℕ}

theorem LiveInv.none_zero (hl : LiveInv h cells live) : live 0 = none := by
  cases h0 : live 0 with
  | none => rfl
  | some n =>
    obtain ⟨k, hk, -⟩ := hl.sound 0 n h0
    have := (bounds_of_mem_used hk).1
    omega

theorem liveInv_iff : LiveInv h cells live ↔ Ledger.Backed (used 32 h.base cells) live :=
  ⟨fun hl => ⟨hl.sound, hl.complete⟩, fun hb => ⟨hb.sound, hb.complete⟩⟩

theorem LiveInv.drop (hl : LiveInv h cells live) (hd : Dropped h cells cells' p) :
    LiveInv h cells' (Function.update live p none) :=
  liveInv_iff.2 ((liveInv_iff.1 hl).drop hd.mem_used)

theorem LiveInv.replace (hl : LiveInv h cells live) (hr : Replaced h cells cells' p q k)
    (hn : n ≤ k) :
    LiveInv h cells' (Function.update (Function.update live p none) q (some n)) :=
  liveInv_iff.2 ((liveInv_iff.1 hl).swap hr hn)

theorem Taken.replaced (ht : Taken h cells cells' q k) : Replaced h cells cells' 0 q k := by
  intro x
  rw [ht.mem_used]
  refine or_congr_right ⟨fun hx => ⟨hx, ?_⟩, And.left⟩
  have := (bounds_of_mem_used hx).1
  omega

theorem LiveInv.take (hl : LiveInv h cells live) (ht : Taken h cells cells' q k) (hn : n ≤ k) :
    LiveInv h cells' (Function.update live q (some n)) := by
  have hzero : Function.update live 0 none = live :=
    Function.update_eq_self_iff.2 hl.none_zero.symm
  have := hl.replace ht.replaced hn
  rwa [hzero] at this

/-! ### Runs -/

/-- A shrinking in place that leaves a free block in front of a free block. -/
def HeapRun.LeavesGap (r : HeapRun) : HeapOp → Prop
  | .krealloc ptr _ newSize => ptr ≠ 0 ∧ newSize ≠ 0 ∧ leavesGap r.heap.mem ptr newSize.toNat
  | _ => False

/-- What holds of the heap and its live pointers in every state of a run. -/
structure RunInv (h : HeapArray) (cells : List Cell) (r : HeapRun) : Prop where
  heap : HeapInv h r.heap.mem cells
  live : LiveInv h cells r.live

theorem RunInv.grant (hr : RunInv h cells r) {s' : Heap}
    (hcase : q = 0 ∧ s' = r.heap ∨ q ≠ 0 ∧ ∃ cells' k, HeapInv h s'.mem cells' ∧
      Taken h cells cells' q k ∧ n ≤ k) :
    ∃ cells', RunInv h cells' ⟨s', Mm.grant r.live q n⟩ ∧ (Settled cells → Settled cells') := by
  rcases hcase with ⟨rfl, rfl⟩ | ⟨hq, cells', k, hi, ht, hle⟩
  · exact ⟨cells, ⟨hr.heap, by rw [Mm.grant, if_pos rfl]; exact hr.live⟩, id⟩
  · refine ⟨cells', ⟨hi, ?_⟩, ht.settled⟩
    rw [Mm.grant, if_neg hq]
    exact hr.live.take ht hle

/-- **One call keeps the invariant, and returns.** -/
theorem RunInv.step {r : HeapRun} {op : HeapOp} (hr : RunInv h cells r) (hv : r.Valid op) :
    ∃ r', r.step h op = some r' ∧ ∃ cells', RunInv h cells' r' ∧
      (¬r.LeavesGap op → Settled cells → Settled cells') := by
  have hzero : Function.update r.live 0 none = r.live :=
    Function.update_eq_self_iff.2 hr.live.none_zero.symm
  cases op with
  | kmalloc size =>
    obtain ⟨s', q, heq, hcase⟩ := kmalloc_spec hr.heap size.toNat_lt
    obtain ⟨cells', hinv, hset⟩ := hr.grant hcase
    exact ⟨_, by rw [HeapRun.step, heq]; rfl, cells', hinv, fun _ => hset⟩
  | kcalloc count size =>
    obtain ⟨s', q, heq, hcase⟩ := kcalloc_spec count.toNat size.toNat hr.heap
    obtain ⟨cells', hinv, hset⟩ := hr.grant hcase
    exact ⟨_, by rw [HeapRun.step, heq]; rfl, cells', hinv, fun _ => hset⟩
  | kfree p =>
    by_cases hp : p = 0
    · subst hp
      exact ⟨r, by rw [HeapRun.step, kfree, if_pos rfl, Option.map_some, hzero], cells, hr,
        fun _ => id⟩
    · obtain ⟨n, hn⟩ := Option.isSome_iff_exists.1 (hv hp)
      obtain ⟨k, hk, -⟩ := hr.live.sound p n hn
      obtain ⟨s', heq, cells', hi, hd⟩ := kfree_spec hr.heap hk
      exact ⟨_, by rw [HeapRun.step, heq]; rfl, cells', ⟨hi, hr.live.drop hd⟩, fun _ => hd.settled⟩
  | krealloc p oldSize newSize =>
    by_cases hp : p = 0
    · -- without an old block it is `kmalloc`
      subst hp
      obtain ⟨s', q, heq, hcase⟩ := kmalloc_spec hr.heap newSize.toNat_lt
      obtain ⟨cells', hinv, hset⟩ := hr.grant hcase
      refine ⟨_, by rw [HeapRun.step, krealloc, if_pos rfl, heq]; rfl, cells', ?_, fun _ => hset⟩
      dsimp only
      rw [hzero]
      split_ifs with hq
      · rwa [Mm.grant, if_pos hq.1] at hinv
      · exact hinv
    obtain ⟨n, hn⟩ := Option.isSome_iff_exists.1 (hv hp)
    obtain ⟨k, hk, -⟩ := hr.live.sound p n hn
    by_cases h0 : newSize = 0
    · -- for a size of zero it is `kfree`
      subst h0
      obtain ⟨s', heq, cells', hi, hd⟩ := kfree_spec hr.heap hk
      refine ⟨_, by rw [HeapRun.step, krealloc, if_neg hp, if_pos UInt64.toNat_zero, heq]; rfl,
        cells', ?_, fun _ => hd.settled⟩
      dsimp only
      rw [if_neg fun h => h.2 rfl, Mm.grant, if_pos rfl]
      exact ⟨hi, hr.live.drop hd⟩
    have hnat : newSize.toNat ≠ 0 := fun h => h0 (UInt64.toNat_inj.1 h)
    obtain ⟨s', q, heq, hcase⟩ := krealloc_spec oldSize.toNat hr.heap hk
      newSize.toNat_lt hnat
    rcases hcase with ⟨rfl, rfl⟩ | ⟨hq, cells', k', hi, hle, hrep, hset⟩
    · refine ⟨r, ?_, cells, hr, fun _ => id⟩
      rw [HeapRun.step, heq, Option.map_some]
      dsimp only
      rw [if_pos ⟨rfl, h0⟩]
    · refine ⟨_, by rw [HeapRun.step, heq]; rfl, cells', ?_, fun hgap =>
        hset fun h => hgap ⟨hp, h0, h⟩⟩
      dsimp only
      rw [if_neg fun h => hq h.1, Mm.grant, if_neg hq]
      exact ⟨hi, hr.live.replace hrep hle⟩
  | write a v =>
    obtain ⟨p, n, hn, hpa, han⟩ := hv
    obtain ⟨k, hk, hle⟩ := hr.live.sound p n hn
    refine ⟨_, rfl, cells, ⟨hr.heap.write hk fun i hi => ?_, hr.live⟩, fun _ => id⟩
    exact Function.update_of_ne (by omega) _ _

theorem runInv_init (h : HeapArray) (m : Mem) :
    RunInv h [⟨kernelHeapSize - 32, true⟩] ⟨heapInit h m, fun _ => none⟩ :=
  ⟨heapInv_heapInit h m, ⟨by simp, by simp [used]⟩⟩

theorem kmalloc_heapInit (h : HeapArray) (m : Mem) (h0 : align16 size ≠ 0)
    (hle : align16 size + 96 ≤ kernelHeapSize) :
    ∃ s', kmalloc h (heapInit h m) size = some (s', h.base + 32) ∧
      HeapRep h s'.mem
        [⟨align16 size, false⟩, ⟨kernelHeapSize - 32 - align16 size - 32, true⟩] := by
  obtain ⟨s', r, heq, hcase⟩ := kmalloc_rep h0 (heapRep_heapInit h m)
  rcases hcase with ⟨-, -, hnone⟩ | ⟨A, c, B, hcells, -, -, -, rfl, hrep⟩
  · have := hnone _ List.mem_cons_self rfl
    dsimp only at this
    omega
  · obtain ⟨rfl, hc, rfl⟩ : A = [] ∧ c = ⟨kernelHeapSize - 32, true⟩ ∧ B = [] := by
      cases A with
      | nil => simpa using hcells.symm
      | cons d A => simp at hcells
    subst hc
    refine ⟨s', heq, ?_⟩
    have hlt : ¬kernelHeapSize - 32 < align16 size + 32 + 32 := by omega
    rw [keep, rest, if_neg hlt, if_neg hlt] at hrep
    exact hrep

def heapAt2MiB : HeapArray := ⟨0x200000, by norm_num, by norm_num, by norm_num⟩

theorem heapAt2MiB_kmalloc :
    ∃ s, HeapRun.step heapAt2MiB ⟨heapInit heapAt2MiB fun _ => 0, fun _ => none⟩ (.kmalloc 128) =
        some ⟨s, grant (fun _ => none) 0x200020 128⟩ ∧
      HeapRep heapAt2MiB s.mem ([] ++ ⟨128, false⟩ :: [⟨16777024, true⟩]) := by
  obtain ⟨s, heq, hrep⟩ := kmalloc_heapInit heapAt2MiB (fun _ => 0)
    (show align16 128 ≠ 0 by norm_num [align16]) (by norm_num [align16])
  refine ⟨s, ?_, hrep⟩
  rw [HeapRun.step, show (128 : UInt64).toNat = 128 from rfl, heq]
  rfl

/-- The blocks tile the array, and the live allocations are blocks in use, aligned, large enough
and disjoint. -/
def HeapRun.Sound (h : HeapArray) (r : HeapRun) : Prop :=
  ∃ cells, HeapRep h r.heap.mem cells ∧
    (∀ p n, r.live p = some n → ∃ k, (p, k) ∈ used 32 h.base cells ∧ 16 ∣ p ∧ n ≤ k) ∧
    ∀ p n q n', r.live p = some n → r.live q = some n' → p ≠ q →
      ∃ k k', (p, k) ∈ used 32 h.base cells ∧ (q, k') ∈ used 32 h.base cells ∧
        (p + k ≤ q ∨ q + k' ≤ p)

theorem RunInv.sound (hr : RunInv h cells r) : r.Sound h := by
  refine ⟨cells, hr.heap.rep, fun p n hn => ?_, fun p n q n' hp hq hne => ?_⟩
  · obtain ⟨k, hk, hle⟩ := hr.live.sound p n hn
    exact ⟨k, hk, (hr.heap.of_mem_used hk).1, hle⟩
  · obtain ⟨k, hk, -⟩ := hr.live.sound p n hp
    obtain ⟨k', hk', -⟩ := hr.live.sound q n' hq
    exact ⟨k, k', hk, hk', disjoint_of_mem_used hk hk' hne⟩

theorem runInv_of_reached (hr : HeapRun.Reached h r) : ∃ cells, RunInv h cells r := by
  induction hr with
  | init m => exact ⟨_, runInv_init h m⟩
  | step op _ hv hs ih =>
    obtain ⟨cells, hinv⟩ := ih
    obtain ⟨r'', heq, cells', hinv', -⟩ := hinv.step hv
    obtain rfl := Option.some_inj.1 (heq.symm.trans hs)
    exact ⟨cells', hinv'⟩

/-- **Every run of valid calls keeps the heap sound, and the next call returns.** -/
theorem sound_of_reached {r : HeapRun} (hr : HeapRun.Reached h r) :
    r.Sound h ∧ ∀ op, r.Valid op → (r.step h op).isSome = true := by
  obtain ⟨cells, hinv⟩ := runInv_of_reached hr
  refine ⟨hinv.sound, fun op hv => ?_⟩
  obtain ⟨r', heq, -⟩ := hinv.step hv
  rw [heq]
  rfl

/-- A live allocation in a sound heap. -/
theorem sound_of_reached_kmalloc :
    ∃ r : HeapRun, r.live 0x200020 = some 128 ∧ r.Sound heapAt2MiB ∧
      (r.step heapAt2MiB (.kfree 0x200020)).isSome = true := by
  obtain ⟨s, hstep, -⟩ := heapAt2MiB_kmalloc
  have hsound := sound_of_reached ((HeapRun.Reached.init fun _ => 0).step (.kmalloc 128) trivial hstep)
  exact ⟨_, by simp [grant], hsound.1, hsound.2 (.kfree 0x200020) fun _ => by simp [grant]⟩

/-- What the file system may assume of the heap it allocates from. -/
def HeapInv.vfsKmalloc (hi : HeapInv h s.mem cells) : Vfs.Kmalloc where
  grants size := size < word && ((kmalloc h s size).any fun r => r.2 != 0)
  bounded size hg := by
    rw [Bool.and_eq_true, decide_eq_true_eq] at hg
    obtain ⟨s', r, heq, hcase⟩ := kmalloc_spec hi hg.1
    rw [heq] at hg
    rcases hcase with ⟨rfl, -⟩ | ⟨-, cells', k, hi', ht, hle⟩
    · simp at hg
    · have := (hi'.of_mem_used ((ht.mem_used _).2 (.inl rfl))).2.2
      have hsame : Vfs.kernelHeapSize = kernelHeapSize := rfl
      omega

/-- The states of the runs in which nothing is shrunk in place in front of a free block. -/
inductive HeapRun.TidyReached (h : HeapArray) : HeapRun → Prop
  | init (m : Mem) : TidyReached h ⟨heapInit h m, fun _ => none⟩
  | step {r r' : HeapRun} (op : HeapOp) (hr : TidyReached h r) (hv : r.Valid op)
      (hgap : ¬r.LeavesGap op) (hs : r.step h op = some r') : TidyReached h r'

theorem settled_of_tidyReached (hr : HeapRun.TidyReached h r) :
    ∃ cells, RunInv h cells r ∧ Settled cells := by
  induction hr with
  | init m => exact ⟨_, runInv_init h m, List.isChain_singleton _⟩
  | step op _ hv hgap hs ih =>
    obtain ⟨cells, hinv, hset⟩ := ih
    obtain ⟨r'', heq, cells', hinv', hset'⟩ := hinv.step hv
    obtain rfl := Option.some_inj.1 (heq.symm.trans hs)
    exact ⟨cells', hinv', hset' hgap hset⟩

/-- **No two neighbours are free** in a run without such a shrinking, and with nothing live the
heap is the one free block `heap_init` made. -/
theorem coalesced_of_tidyReached {r : HeapRun} (hr : HeapRun.TidyReached h r) :
    ∃ cells, HeapRep h r.heap.mem cells ∧ Settled cells ∧
      ((∀ p, r.live p = none) → cells = [⟨kernelHeapSize - blockSize, true⟩]) := by
  obtain ⟨cells, hinv, hset⟩ := settled_of_tidyReached hr
  refine ⟨cells, hinv.heap.rep, hset, fun hnone => ?_⟩
  have hused : used 32 h.base cells = [] := by
    refine List.eq_nil_iff_forall_not_mem.2 fun x hx => ?_
    have := hinv.live.complete x.1 x.2 hx
    simp [hnone] at this
  have htiles := hinv.heap.rep.tiles
  have hne : cells ≠ [] := by
    rintro rfl
    exact absurd htiles (by norm_num)
  obtain ⟨⟨size, free⟩, rfl, hfree⟩ := eq_singleton_of_settled hset hne hused
  rw [span_cons, span_nil] at htiles
  dsimp only at hfree htiles
  rw [hfree, show size = kernelHeapSize - blockSize by rw [blockSize_eq]; omega]

/-- A run that shrinks nothing. -/
theorem coalesced_of_tidyReached_kmalloc :
    ∃ r : HeapRun, r.live 0x200020 = some 128 ∧
      ∃ cells, HeapRep heapAt2MiB r.heap.mem cells ∧ Settled cells := by
  obtain ⟨s, hstep, -⟩ := heapAt2MiB_kmalloc
  obtain ⟨cells, hrep, hset, -⟩ := coalesced_of_tidyReached
    ((HeapRun.TidyReached.init fun _ => 0).step (.kmalloc 128) trivial (fun h => h) hstep)
  exact ⟨_, by simp [grant], cells, hrep, hset⟩

/-- **A shrinking in place leaves two free neighbours**: 128 bytes are allocated, cut down to 16,
and freed.  After the second call the block left over and the one behind it are both free, and
after the third, with nothing live, the heap is still in two blocks. -/
theorem krealloc_leaves_gap :
    ∃ r₁ r₂ r₃ : HeapRun,
      HeapRun.step heapAt2MiB ⟨heapInit heapAt2MiB fun _ => 0, fun _ => none⟩ (.kmalloc 128) =
        some r₁ ∧
      r₁.step heapAt2MiB (.krealloc 0x200020 128 16) = some r₂ ∧
      r₂.step heapAt2MiB (.kfree 0x200020) = some r₃ ∧
      HeapRun.Reached heapAt2MiB r₃ ∧
      (¬∃ cells, HeapRep heapAt2MiB r₂.heap.mem cells ∧ Settled cells) ∧
      (∀ p, r₃.live p = none) ∧
      ¬HeapRep heapAt2MiB r₃.heap.mem [⟨kernelHeapSize - blockSize, true⟩] := by
  obtain ⟨s₁, hstep₁, hcells₁⟩ := heapAt2MiB_kmalloc
  have hrep₂ : HeapRep heapAt2MiB (splitBlock s₁.mem 0x200000 16)
      ([] ++ ⟨16, false⟩ :: [⟨80, true⟩, ⟨16777024, true⟩]) := by
    have hsplit := heapRep_splitBlock (x := 0x200000) rfl hcells₁ (show 16 + 64 < word by norm_num)
    rw [show keep 32 32 16 ⟨128, false⟩ = ⟨16, false⟩ from rfl,
      show rest 32 32 16 ⟨128, false⟩ = [⟨80, true⟩] from rfl] at hsplit
    exact hsplit
  have heq₂ : krealloc heapAt2MiB s₁ 0x200020 128 16 =
      some (⟨splitBlock s₁.mem 0x200000 16, s₁.usedHighwater⟩, 0x200020) := by
    have hcut := krealloc_inPlace 128 hcells₁ (show 16 ≠ 0 by norm_num) (show 16 ≤ 128 by norm_num)
    rw [show align16 16 = 16 from rfl, show heapAt2MiB.base + span 32 [] = 0x200000 from rfl]
      at hcut
    exact hcut
  generalize splitBlock s₁.mem 0x200000 16 = m₂ at hrep₂ heq₂
  obtain ⟨m₃, heq₃, hrep₃⟩ :=
    kfree_rep (s := ⟨m₂, s₁.usedHighwater⟩) hrep₂ (show 0 < 16 by norm_num)
  rw [show heapAt2MiB.base + span 32 [] + 32 = 0x200020 from rfl] at heq₃
  set live₁ := grant (fun _ => none) 0x200020 128 with hlive₁
  set live₂ := grant (Function.update live₁ 0x200020 none) 0x200020 16 with hlive₂
  have hstep₂ : HeapRun.step heapAt2MiB ⟨s₁, live₁⟩ (.krealloc 0x200020 128 16) =
      some ⟨⟨m₂, s₁.usedHighwater⟩, live₂⟩ := by
    rw [HeapRun.step, show (128 : UInt64).toNat = 128 from rfl,
      show (16 : UInt64).toNat = 16 from rfl, heq₂]
    rfl
  have hstep₃ : HeapRun.step heapAt2MiB ⟨⟨m₂, s₁.usedHighwater⟩, live₂⟩ (.kfree 0x200020) =
      some ⟨⟨m₃, s₁.usedHighwater⟩, Function.update live₂ 0x200020 none⟩ := by
    rw [HeapRun.step, heq₃]
    rfl
  have hreached₁ := (HeapRun.Reached.init fun _ => 0).step (.kmalloc 128) trivial hstep₁
  have hreached₂ := hreached₁.step (.krealloc 0x200020 128 16)
    (fun _ => show (live₁ 0x200020).isSome = true by simp [hlive₁, grant]) hstep₂
  have hreached₃ := hreached₂.step (.kfree 0x200020)
    (fun _ => show (live₂ 0x200020).isSome = true by simp [hlive₂, grant]) hstep₃
  refine ⟨_, _, _, hstep₁, hstep₂, hstep₃, hreached₃, ?_, fun p => ?_, fun hone => ?_⟩
  · rintro ⟨cells, hrep, hset⟩
    rw [← hrep₂.unique hrep] at hset
    simp [Settled] at hset
  · by_cases hp : p = 0x200020
    · simp [hp]
    · simp [hlive₂, hlive₁, grant, Function.update_of_ne hp]
  · exact absurd (hrep₃.unique hone) (by simp [release, absorb, join])

end Tnu.Mm
