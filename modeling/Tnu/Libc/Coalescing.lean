/-
**How far `free` coalesces.**

`coalesce` goes once over the blocks and on behind every pair it has merged.  So a block that is
freed between two free neighbours leaves two free neighbours behind, and a request that was put
into the first of three blocks does not come back as one.  Freed altogether, the heap serves again
what it obtained only as far as that is a multiple of the alignment.

Main results:

* `fullyCoalesced_free`, `fullyCoalesced_realloc` — **when one call coalesces**;
* `fullyCoalesced_iff` — **both, in every state of a run of modest requests**.
-/

import Tnu.Libc.MallocRuns

set_option autoImplicit false

namespace Tnu.Libc

open Tiling

variable {m : Mem} {s s' : Heap} {r r' : AllocRun} {cells l l' A B : List Cell} {c : Cell}
  {n p q j a x : ℕ} {mapped : Bool}

/-- The bytes a heap has obtained from `sbrk`. -/
def heapBytes (s : Heap) : ℕ := s.brk.ready.current - s.brk.ready.floor

/-- No two neighbours are free, and with nothing live a request up to all the bytes less one header
is served without moving the break. -/
structure FullyCoalesced (r : AllocRun) : Prop where
  settled : ∀ cells, Rep r.heap cells → Settled cells
  reusable : (∀ p, r.live p = none) → ∀ (n : ℕ) (mapped : Bool), 0 < n →
    n + headerSize ≤ heapBytes r.heap →
      ∃ s' q, malloc r.heap mapped n = some (s', q) ∧ q ≠ 0 ∧ s'.brk = r.heap.brk

/-! ### The blocks found in memory -/

theorem Seg.unique (hs : Seg m a l n) (hs' : Seg m a l' n) (hspan : span 24 l = span 24 l') :
    l = l' := by
  induction l generalizing a l' with
  | nil =>
    cases l' with
    | nil => rfl
    | cons d l' =>
      rw [span_nil, span_cons] at hspan
      omega
  | cons c l ih =>
    cases l' with
    | nil =>
      rw [span_nil, span_cons] at hspan
      omega
    | cons d l' =>
      have heq := hs.1.symm.trans hs'.1
      rw [BlockHeader.mk.injEq] at heq
      obtain ⟨hsize, hfree, -⟩ := heq
      rw [span_cons, span_cons, hsize] at hspan
      have hl := hs.2
      rw [hsize] at hl
      rw [ih hl hs'.2 (by omega), show c = d by cases c; cases d; simp_all]

theorem Rep.unique (hr : Rep s l) (hr' : Rep s l') : l = l' := by
  have ht := hr.tiles
  have ht' := hr'.tiles
  exact hr.blocks.seg.unique hr'.blocks.seg (by omega)

theorem Rep.heapBytes_eq (hr : Rep s cells) : heapBytes s = span 24 cells := by
  have ht := hr.tiles
  rw [heapBytes]
  omega

theorem Rep.heapBytes_le (hr : Rep s cells) : heapBytes s ≤ userStackBottomLarge := by
  have hlim := hr.limit_le
  by_cases hnil : cells = []
  · rw [hr.heapBytes_eq, hnil, span_nil]
    exact Nat.zero_le _
  · have hin := hr.inside hnil
    rw [heapBytes]
    omega

/-! ### One call -/

theorem singleton_of_settled (hi : RunInv r (sweep 24 l)) (hne : l ≠ [])
    (hset : Settled (sweep 24 l)) (hnone : ∀ p, r.live p = none) :
    ∃ c : Cell, sweep 24 l = [c] ∧ c.free = true ∧ c.size + 24 = heapBytes r.heap := by
  have hused : used 24 r.heap.brk.ready.floor (sweep 24 l) = [] := by
    refine List.eq_nil_iff_forall_not_mem.2 fun x hx => ?_
    have := hi.live.complete x.1 x.2 hx
    simp [hnone] at this
  have hbytes := hi.rep.heapBytes_eq
  have hne' : sweep 24 l ≠ [] := by
    intro h
    have hspan := span_sweep 24 l
    obtain ⟨c, l, rfl⟩ := List.exists_cons_of_ne_nil hne
    rw [h, span_nil, span_cons] at hspan
    omega
  obtain ⟨c, hc, hfree⟩ := eq_singleton_of_settled hset hne' hused
  rw [hc, span_cons, span_nil] at hbytes
  exact ⟨c, hc, hfree, by omega⟩

/-- **When a sweep coalesces fully**: no three free blocks stood in a row, and if nothing is live
then the one block that is left has a size on the grid. -/
theorem fullyCoalesced_sweep (hi : RunInv r (sweep 24 l)) (hne : l ≠ []) :
    FullyCoalesced r ↔
      ¬Crowded l ∧ ((∀ p, r.live p = none) → alignment ∣ heapBytes r.heap - headerSize) := by
  have hW := word_eq
  have hU := userStackBottomLarge_eq
  have hS := headerSize_eq
  have hle := hi.rep.heapBytes_le
  constructor
  · intro hfull
    have hset := hfull.settled _ hi.rep
    refine ⟨(settled_sweep_iff 24 l).1 hset, fun hnone => ?_⟩
    obtain ⟨c, hc, -, hsize⟩ := singleton_of_settled hi hne hset hnone
    by_contra hgrid
    rw [alignment_eq] at hgrid
    have h0 : heapBytes r.heap - headerSize ≠ 0 := by
      intro h
      rw [h] at hgrid
      exact hgrid (dvd_zero 16)
    -- a request for the whole block is rounded up, and does not fit any more
    obtain ⟨s', q, heq, hq, -⟩ := hfull.reusable hnone (heapBytes r.heap - headerSize) false
      (by omega) (by omega)
    obtain ⟨hup, hdvd, hlt⟩ := alignUp_of_lt (n := heapBytes r.heap - headerSize) (by omega)
    have hrep := hi.rep
    rw [hc] at hrep
    have hmodest : Modest r.heap (heapBytes r.heap - headerSize) := by
      refine ⟨by omega, ?_⟩
      rw [← heapBytes]
      omega
    obtain ⟨s'', q', heq', hcase⟩ := malloc_grows false hrep h0 hmodest fun d hd _ => by
      rw [List.mem_singleton.1 hd]
      by_contra hge
      have hsame : alignUp (heapBytes r.heap - headerSize) alignment =
          heapBytes r.heap - headerSize := by omega
      rw [hsame] at hdvd
      exact hgrid hdvd
    rw [heq, Option.some_inj, Prod.mk.injEq] at heq'
    rcases hcase with ⟨rfl, -⟩ | ⟨-, hm, -⟩
    · exact hq heq'.2
    · cases hm
  · rintro ⟨hcrowd, hgrid⟩
    have hset := (settled_sweep_iff 24 l).2 hcrowd
    refine ⟨fun cells hrep => hrep.unique hi.rep ▸ hset, fun hnone n mapped hn hfit => ?_⟩
    obtain ⟨c, hc, hfree, hsize⟩ := singleton_of_settled hi hne hset hnone
    have hdvd := hgrid hnone
    rw [alignment_eq] at hdvd
    obtain ⟨hup, hdvd', hlt⟩ := alignUp_of_lt (n := n) (by omega)
    have hrep := hi.rep
    rw [hc] at hrep
    obtain ⟨s', q, heq, hq, -, -, hbrk⟩ := malloc_fits mapped (n := n) hrep
      (by omega) ⟨c, by simp, hfree, by omega⟩
    exact ⟨s', q, heq, hq, hbrk⟩

theorem unmark_ne_nil (hne : l ≠ []) : unmark 24 p a l ≠ [] := by
  obtain ⟨c, l, rfl⟩ := List.exists_cons_of_ne_nil hne
  rw [unmark]
  split_ifs <;> exact List.cons_ne_nil _ _

theorem place_ne_nil (n : ℕ) (l : List Cell) : place 24 32 n l ≠ [] := by
  cases l with
  | nil => exact List.cons_ne_nil _ _
  | cons c l =>
    rw [place]
    split_ifs <;> exact List.cons_ne_nil _ _

/-- **`free`** of a live pointer. -/
theorem fullyCoalesced_free (hi : RunInv r cells) (hp : r.live p = some j)
    (hstep : r.step (.free p) = some (r', q)) :
    FullyCoalesced r' ↔ ¬Crowded (unmark 24 p r.heap.brk.ready.floor cells) ∧
      ((∀ x, x ≠ p → r.live x = none) → alignment ∣ heapBytes r.heap - headerSize) := by
  obtain ⟨k, hk, -⟩ := hi.live.sound p j hp
  obtain ⟨s', heq, hrep, hbrk, hdrops⟩ := free_spec hi.rep hk
  rw [AllocRun.step, heq, Option.map_some, Option.some_inj, Prod.mk.injEq] at hstep
  obtain ⟨rfl, -⟩ := hstep
  have hne : cells ≠ [] := by
    rintro rfl
    simp at hk
  have hinv : RunInv ⟨s', Function.update r.live p none⟩
      (sweep 24 (unmark 24 p r.heap.brk.ready.floor cells)) := by
    refine ⟨hrep, ?_⟩
    dsimp only
    rw [hbrk]
    exact hi.live.drop hdrops
  rw [fullyCoalesced_sweep hinv (unmark_ne_nil hne), heapBytes, heapBytes]
  dsimp only
  rw [hbrk]
  refine and_congr_right fun _ => imp_congr_left ⟨fun h x hx => ?_, fun h x => ?_⟩
  · have := h x
    rwa [Function.update_of_ne hx] at this
  · by_cases hx : x = p
    · rw [hx, Function.update_self]
    · rw [Function.update_of_ne hx, h x hx]

/-- **`realloc`** that moves a live pointer: something stays live, so only the blocks count. -/
theorem fullyCoalesced_realloc {n : UInt64} (hi : RunInv r cells) (hp : r.live p = some j)
    (h0 : n ≠ 0) (hm : Modest r.heap n.toNat) (hstep : r.step (.realloc p n mapped) = some (r', q))
    (hq : q ≠ 0) (hmove : q ≠ p) :
    FullyCoalesced r' ↔ ¬Crowded (unmark 24 p r.heap.brk.ready.floor
      (place 24 32 (alignUp n.toNat alignment) cells)) := by
  obtain ⟨k, hk, -⟩ := hi.live.sound p j hp
  have hnat : n.toNat ≠ 0 := fun h => h0 (UInt64.toNat_inj.1 h)
  obtain ⟨s', q', heq, hcase⟩ := realloc_spec mapped hi.rep hk hnat hm
  rw [AllocRun.step, heq, Option.map_some] at hstep
  dsimp only at hstep
  rcases hcase with ⟨rfl, -⟩ | ⟨hq', cells', hres, hcells⟩
  · rw [if_pos ⟨rfl, h0⟩, Option.some_inj, Prod.mk.injEq] at hstep
    exact absurd hstep.2.symm hq
  rw [if_neg fun h => hq' h.1, Option.some_inj, Prod.mk.injEq] at hstep
  obtain ⟨rfl, rfl⟩ := hstep
  have hinv := (hres.granted hi).1
  rw [hcells hmove] at hinv
  have hgrant : grant (Function.update r.live p none) q' n.toNat =
      Function.update (Function.update r.live p none) q' (some n.toNat) := if_neg hq'
  rw [hgrant, fullyCoalesced_sweep hinv (unmark_ne_nil (place_ne_nil _ _))]
  refine and_iff_left fun hnone => ?_
  have hlive := hnone q'
  dsimp only at hlive
  rw [Function.update_self] at hlive
  cases hlive

/-! ### Runs -/

/-- **When `free` and a moving `realloc` coalesce fully**, in every state of a run of modest
requests: freeing a live pointer does so exactly when no three blocks in a row are free with it
and, if it was the last one, the bytes obtained less a header are a multiple of 16; a `realloc` that
moves does so exactly when no three are free once the new block is placed and the old one freed. -/
theorem fullyCoalesced_iff (hs : Fresh s) (hr : AllocRun.ModestReached s r) :
    ∃ cells, Rep r.heap cells ∧
      (∀ p j r' q, r.live p = some j → r.step (.free p) = some (r', q) →
        (FullyCoalesced r' ↔ ¬Crowded (unmark 24 p r.heap.brk.ready.floor cells) ∧
          ((∀ x, x ≠ p → r.live x = none) → alignment ∣ heapBytes r.heap - headerSize))) ∧
      ∀ p j (n : UInt64) mapped r' q, r.live p = some j → n ≠ 0 → Modest r.heap n.toNat →
        r.step (.realloc p n mapped) = some (r', q) → q ≠ 0 → q ≠ p →
          (FullyCoalesced r' ↔ ¬Crowded (unmark 24 p r.heap.brk.ready.floor
            (place 24 32 (alignUp n.toNat alignment) cells))) := by
  obtain ⟨cells, hi⟩ := runInv_of_modestReached hs hr
  exact ⟨cells, hi.rep, fun p j r' q hp hstep => fullyCoalesced_free hi hp hstep,
    fun p j n mapped r' q hp h0 hm hstep hq hmove =>
      fullyCoalesced_realloc hi hp h0 hm hstep hq hmove⟩

/-! ### A run that leaves two free neighbours -/

theorem step_malloc {n : UInt64} (hi : RunInv r cells) (hq : q ≠ 0)
    (hmalloc : malloc r.heap mapped n.toNat = some (s', q))
    (hspot : q = spot 24 (alignUp n.toNat alignment) r.heap.brk.ready.floor cells)
    (hrep : Rep s' (place 24 32 (alignUp n.toNat alignment) cells))
    (hfloor : s'.brk.ready.floor = r.heap.brk.ready.floor)
    (hle : n.toNat ≤ alignUp n.toNat alignment) :
    ∃ r', r.step (.malloc n mapped) = some (r', q) ∧
      RunInv r' (place 24 32 (alignUp n.toNat alignment) cells) ∧
      r'.heap.brk.ready.floor = r.heap.brk.ready.floor ∧
      r'.live = Function.update r.live q (some n.toNat) := by
  have hzero : Function.update r.live 0 none = r.live :=
    Function.update_eq_self_iff.2 hi.none_zero.symm
  have hinv := ((resized_place hspot hrep hfloor hle).granted hi).1
  rw [hzero] at hinv
  refine ⟨_, ?_, hinv, hfloor, rfl⟩
  rw [AllocRun.step, hmalloc, Option.map_some]
  dsimp only
  rw [grant, if_neg hq]

theorem step_free (hi : RunInv r cells) (hp : r.live p = some j) :
    ∃ r', r.step (.free p) = some (r', 0) ∧
      RunInv r' (sweep 24 (unmark 24 p r.heap.brk.ready.floor cells)) ∧
      r'.heap.brk.ready.floor = r.heap.brk.ready.floor ∧
      r'.live = Function.update r.live p none := by
  obtain ⟨k, hk, -⟩ := hi.live.sound p j hp
  obtain ⟨s', heq, hrep, hbrk, hdrops⟩ := free_spec hi.rep hk
  refine ⟨⟨s', Function.update r.live p none⟩, ?_, ⟨hrep, ?_⟩, ?_, rfl⟩
  · rw [AllocRun.step, heq, Option.map_some]
  · dsimp only
    rw [hbrk]
    exact hi.live.drop hdrops
  · dsimp only
    rw [hbrk]

theorem step_first : ∃ r, AllocRun.step ⟨firstHeap, fun _ => none⟩ (.malloc 144 true) =
      some (r, 0x5000018) ∧ RunInv r [⟨144, false⟩] ∧ r.heap.brk.ready.floor = 0x5000000 ∧
      r.live = Function.update (fun _ => none) 0x5000018 (some 144) := by
  have hi := fresh_firstHeap.runInv
  have hmodest : Modest firstHeap 144 := by decide
  have htotal : (headerSize + alignUp 144 alignment) % word = 168 := rfl
  obtain ⟨s', hmalloc⟩ := malloc_first fresh_firstHeap (n := 144) (by norm_num)
    (by rw [htotal]; norm_num) (by rw [htotal]; decide)
  obtain ⟨s'', q, heq, hcase⟩ := malloc_grows true hi.rep (by norm_num) hmodest (by simp)
  dsimp only at heq
  rw [hmalloc, Option.some_inj, Prod.mk.injEq] at heq
  obtain ⟨rfl, rfl⟩ := heq
  rcases hcase with ⟨h0, -⟩ | ⟨-, -, hspot, hrep, hfloor⟩
  · exact absurd h0 (Nat.succ_ne_zero _)
  · exact step_malloc (n := 144) hi (Nat.succ_ne_zero _) hmalloc hspot hrep hfloor (by decide)

/-- One allocation, which coalesces when it is freed. -/
theorem fullyCoalesced_iff_first : ∃ r : AllocRun, r.live 0x5000018 = some 144 ∧
    ∃ cells, Rep r.heap cells ∧ ∀ r' q, r.step (.free 0x5000018) = some (r', q) →
      (FullyCoalesced r' ↔ ¬Crowded (unmark 24 0x5000018 r.heap.brk.ready.floor cells) ∧
        ((∀ x, x ≠ 0x5000018 → r.live x = none) →
          alignment ∣ heapBytes r.heap - headerSize)) := by
  obtain ⟨r, hstep, -, -, hlive⟩ := step_first
  have hp : r.live 0x5000018 = some 144 := by rw [hlive, Function.update_self]
  obtain ⟨cells, hrep, hfree, -⟩ := fullyCoalesced_iff fresh_firstHeap
    (.step (.malloc 144 true) .init trivial (by decide : Modest firstHeap 144) hstep)
  exact ⟨r, hp, cells, hrep, fun r' q hstep' => hfree _ _ r' q hp hstep'⟩

/-- **Freeing a block between two free ones leaves two free neighbours**: 144 bytes are allocated
and freed, two blocks of 16 are cut from them, and freed from the left. -/
theorem not_fullyCoalesced : ¬∀ (s : Heap) (r r' : AllocRun) (p j q : ℕ), Fresh s →
    AllocRun.Reached s r → r.live p = some j → r.step (.free p) = some (r', q) →
      FullyCoalesced r' := by
  intro h
  obtain ⟨r₁, h₁, hi₁, hf₁, hl₁⟩ := step_first
  obtain ⟨r₂, h₂, hi₂, hf₂, hl₂⟩ := step_free (p := 0x5000018) (j := 144) hi₁
    (by rw [hl₁, Function.update_self])
  have hc₂ : sweep 24 (unmark 24 0x5000018 r₁.heap.brk.ready.floor [⟨144, false⟩]) =
      [⟨144, true⟩] := by rw [hf₁]; rfl
  rw [hc₂] at hi₂
  obtain ⟨s₃, q₃, hm₃, hq₃, hs₃, hr₃, hb₃⟩ := malloc_fits true (n := 16) hi₂.rep
    (by norm_num) ⟨⟨144, true⟩, by simp, rfl, by decide⟩
  obtain ⟨r₃, h₃, hi₃, hf₃, hl₃⟩ := step_malloc (n := 16) hi₂ hq₃ hm₃ hs₃ hr₃ (by rw [hb₃])
    (by decide)
  have hc₃ : place 24 32 (alignUp (16 : UInt64).toNat alignment) [⟨144, true⟩] =
      [⟨16, false⟩, ⟨104, true⟩] := rfl
  rw [hc₃] at hi₃
  obtain ⟨s₄, q₄, hm₄, hq₄, hs₄, hr₄, hb₄⟩ := malloc_fits true (n := 16) hi₃.rep
    (by norm_num) ⟨⟨104, true⟩, by simp, rfl, by decide⟩
  obtain ⟨r₄, h₄, hi₄, hf₄, hl₄⟩ := step_malloc (n := 16) hi₃ hq₄ hm₄ hs₄ hr₄ (by rw [hb₄])
    (by decide)
  have hc₄ : place 24 32 (alignUp (16 : UInt64).toNat alignment) [⟨16, false⟩, ⟨104, true⟩] =
      [⟨16, false⟩, ⟨16, false⟩, ⟨64, true⟩] := rfl
  rw [hc₄] at hi₄
  have hp₃ : q₃ = 0x5000018 := by rw [hs₃, hf₂, hf₁]; rfl
  have hp₄ : q₄ = 0x5000040 := by rw [hs₄, hf₃, hf₂, hf₁]; rfl
  obtain ⟨r₅, h₅, hi₅, hf₅, hl₅⟩ := step_free (p := 0x5000018) (j := 16) hi₄ (by
    rw [hl₄, hl₃, hp₃, hp₄, Function.update_of_ne (by norm_num), Function.update_self]
    rfl)
  have hfloor : r₄.heap.brk.ready.floor = 0x5000000 := by rw [hf₄, hf₃, hf₂, hf₁]
  have hc₅ : sweep 24 (unmark 24 0x5000018 r₄.heap.brk.ready.floor
      [⟨16, false⟩, ⟨16, false⟩, ⟨64, true⟩]) = [⟨16, true⟩, ⟨16, false⟩, ⟨64, true⟩] := by
    rw [hfloor]; rfl
  rw [hc₅] at hi₅
  have hp₅ : r₅.live 0x5000040 = some 16 := by
    rw [hl₅, hl₄, hp₄, Function.update_of_ne (by norm_num), Function.update_self]
    rfl
  obtain ⟨r₆, h₆, -, -, -⟩ := step_free hi₅ hp₅
  have hreached : AllocRun.Reached firstHeap r₅ :=
    ((((AllocRun.Reached.init.step (.malloc 144 true) trivial h₁).step (.free 0x5000018)
      (fun _ => by rw [hl₁, Function.update_self]; rfl) h₂).step (.malloc 16 true) trivial h₃).step
        (.malloc 16 true) trivial h₄).step (.free 0x5000018) (fun _ => by
          rw [hl₄, hl₃, hp₃, hp₄, Function.update_of_ne (by norm_num), Function.update_self]
          rfl) h₅
  have hfull := h _ _ _ _ _ _ fresh_firstHeap hreached hp₅ h₆
  have hcrowd := ((fullyCoalesced_free hi₅ hp₅ h₆).1 hfull).1
  rw [hf₅, hfloor] at hcrowd
  exact hcrowd (.inl ⟨rfl, rfl, rfl⟩)

end Tnu.Libc
