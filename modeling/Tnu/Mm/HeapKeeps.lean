/-
**What the heap leaves alone.**

The functions of `Tnu/Mm/Heap.lean` write into headers and nowhere else, so the contents of every
payload that stays in use are kept.  From it, what `krealloc` promises of the contents: they are
found again at the new place, and those of all other allocations where they were.

Main definitions:

* `KeepsPayloads` — two memories agree on some payloads in use.

Main result:

* `reallocates_of_reached` — **`krealloc` keeps the contents in every run**.
-/

import Tnu.Mm.HeapSafe

set_option autoImplicit false

namespace Tnu.Mm

open Tiling

variable {h : HeapArray} {m m' : Mem} {cells A B : List Cell} {c : Cell} {p k i : ℕ} {s : Heap}

/-! ### Only headers are written -/

variable {s' : Heap} {a n r x fuel size newSize oldSize : ℕ}

theorem not_inHeader_middle :
    ¬InHeader 32 a (A ++ c :: B) i ↔ ¬InHeader 32 a A i ∧
      (i < a + span 32 A ∨ a + span 32 A + 32 ≤ i) ∧
      ¬InHeader 32 (a + span 32 A + 32 + c.size) B i := by
  rw [inHeader_append, InHeader, not_or, not_or, not_and_or, not_le, not_lt]

theorem setPrev_link_apply {z y : ℕ} (hz : z ≠ 0) (hi : ¬InHeader 32 z B i) :
    (if link B z 0 ≠ 0 then Mm.setPrev m (link B z 0) y else m) i = m i := by
  rw [setPrev_link m hz]
  cases B with
  | nil => rfl
  | cons d B =>
    rw [InHeader, not_or] at hi
    rw [if_neg (List.cons_ne_nil d B)]
    exact setPrev_apply (by omega)

/-- **`split_block` writes only into the headers of what it leaves.** -/
theorem splitBlock_apply (hx : x = h.base + span 32 A)
    (hr : HeapRep h m (A ++ c :: B)) (hs : size + 64 < word)
    (hi : ¬InHeader 32 h.base (A ++ keep 32 32 size c :: (rest 32 32 size c ++ B)) i) :
    splitBlock m x size i = m i := by
  have hpos := h.pos
  have hfits := h.fits
  have hW := word_eq
  have hK := kernelHeapSize_eq
  have hS := blockSize_eq
  obtain ⟨-, hc, -, htiles⟩ := (heapRep_middle hx).1 hr
  have hmod : (size + blockSize + 32) % word = size + 32 + 32 := Nat.mod_eq_of_lt (by omega)
  rw [keep, rest] at hi
  generalize hm' : splitBlock m x size = m'
  rw [splitBlock, hc, hmod] at hm'
  by_cases hlt : c.size < size + 32 + 32
  · rw [if_pos (.inr hlt)] at hm'
    rw [hm']
  rw [if_neg hlt, if_neg hlt, not_inHeader_middle, List.singleton_append, InHeader, not_or,
    ← hx] at hi
  obtain ⟨-, hxi, hnewi, hBi⟩ := hi
  dsimp only at hnewi hBi
  rw [if_neg (not_or.2 ⟨by omega, hlt⟩)] at hm'
  have hy : (x + blockSize + size) % word = x + 32 + size := Nat.mod_eq_of_lt (by omega)
  have hrest : sub64 (sub64 c.size size) blockSize = c.size - size - 32 := by
    rw [sub64, sub64, word_eq]
    omega
  extract_lets next m₁ m₂ m₃ m₄ m₅ m₆ m₇ at hm'
  have hnext : next = x + 32 + size := hy
  have hoff : ∀ j, j < next ∨ next + 32 ≤ j → m₅ j = m j := fun j hj => fresh_apply _ _ _ _ _ hj
  have hlink : (blockAt m₅ next).next = link B (x + 32 + c.size) 0 := by
    have hm₃ : blockAt m₃ x = blockAt m x :=
      blockAt_congr fun i h₁ h₂ => (setMagic_apply (by omega)).trans
        ((setFree_apply (by omega)).trans (setSize_apply (by omega)))
    have hlt := blockAt_next_lt m x
    rw [hc] at hlt
    rw [blockAt_fresh, hm₃, hc, Nat.mod_eq_of_lt hlt]
  have hz : x + 32 + size + 32 + (c.size - size - 32) = x + 32 + c.size := by omega
  rw [hz] at hBi
  calc m' i
      = setSize m₇ x size i := by rw [hm']
    _ = m₇ i := setSize_apply hxi
    _ = m₆ i := setNext_apply hxi
    _ = m₅ i := by
        simp only [m₆, hlink]
        exact setPrev_link_apply (by omega) hBi
    _ = m i := hoff i (by omega)

theorem mergeNext_apply (hx : x = h.base + span 32 A) (hr : HeapRep h m (A ++ c :: B))
    (hi : ¬InHeader 32 h.base (A ++ c :: B) i) : mergeNext m x i = m i := by
  have hpos := h.pos
  obtain ⟨-, hc, hB, -⟩ := (heapRep_middle hx).1 hr
  obtain ⟨-, hxi, hBi⟩ := not_inHeader_middle.1 hi
  rw [← hx] at hxi hBi
  rw [mergeNext]
  cases B with
  | nil =>
    rw [hc, if_neg fun h => h.1 rfl]
  | cons d B =>
    have hnext : (blockAt m x).next = x + 32 + c.size := by rw [hc]; rfl
    have hd := hB.1
    rw [InHeader, not_or] at hBi
    rw [hnext]
    split_ifs with hfree
    · have hz : x + 32 + c.size + 32 + d.size = x + 32 + (c.size + (32 + d.size)) := by omega
      have hm₁ : blockAt (setSize m x (c.size + (32 + d.size))) (x + 32 + c.size) =
          blockAt m (x + 32 + c.size) := blockAt_setSize_of_ne (.inl (by omega))
      have hlt := blockAt_next_lt m (x + 32 + c.size)
      simp only [hd, hz] at hlt
      simp only [hc, hd, hm₁, blockAt_setNext, hz, Nat.mod_eq_of_lt hlt]
      rw [setPrev_link_apply (by omega) (hz ▸ hBi.2)]
      exact (setNext_apply hxi).trans (setSize_apply hxi)
    · rfl

/-- **`coalesce` writes only into headers.** -/
theorem coalesce_apply (hx : x = h.base + span 32 A.reverse)
    (hr : HeapRep h m (A.reverse ++ c :: B)) (hm : coalesce fuel m x = some m')
    (hi : ¬InHeader 32 h.base (A.reverse ++ c :: B) i) : m' i = m i := by
  have hpos := h.pos
  induction A generalizing m x c B fuel with
  | nil =>
    cases fuel with
    | zero => simp [coalesce] at hm
    | succ fuel =>
      have hc := ((heapRep_middle hx).1 hr).2.1
      have hmerge := heapRep_mergeNext hx hr
      obtain ⟨d, B', hd⟩ := exists_absorb_eq_cons 32 c B
      rw [hd] at hmerge
      have hprev : (blockAt (mergeNext m x) x).prev = 0 := by
        rw [((heapRep_middle hx).1 hmerge).2.1]
        rfl
      rw [coalesce, if_neg (by rw [hc]; simp; omega)] at hm
      dsimp only at hm
      rw [hprev, if_neg fun h => h.1 rfl, Option.some_inj] at hm
      rw [← hm]
      exact mergeNext_apply hx hr hi
  | cons e A ih =>
    cases fuel with
    | zero => simp [coalesce] at hm
    | succ fuel =>
      have hc := ((heapRep_middle hx).1 hr).2.1
      have hmerge := heapRep_mergeNext hx hr
      have hsame := mergeNext_apply hx hr hi
      obtain ⟨d, B', hd⟩ := exists_absorb_eq_cons 32 c B
      set y := h.base + span 32 A.reverse with hy
      have hprev : (blockAt (mergeNext m x) x).prev = y := by
        rw [hd] at hmerge
        rw [((heapRep_middle hx).1 hmerge).2.1, List.reverse_cons]
        exact lastBlock_concat 0 h.base A.reverse e
      have hmerge' : HeapRep h (mergeNext m x) (A.reverse ++ e :: absorb 32 c B) := by
        rw [List.reverse_cons, List.append_assoc] at hmerge
        exact hmerge
      rw [coalesce, if_neg (by rw [hc]; simp; omega)] at hm
      dsimp only at hm
      rw [hprev] at hm
      split_ifs at hm with hfree
      · refine (ih hy hmerge' hm fun hin => hi ?_).trans hsame
        rw [List.reverse_cons, List.append_assoc, List.singleton_append]
        rw [inHeader_append, InHeader] at hin ⊢
        exact hin.imp_right (Or.imp_right inHeader_of_absorb)
      · rw [Option.some_inj] at hm
        rw [← hm]
        exact hsame

/-! ### Contents -/

def KeepsPayloads (m m' : Mem) (payloads : List (ℕ × ℕ)) : Prop :=
  ∀ q k, (q, k) ∈ payloads → ∀ i < k, m' (q + i) = m (q + i)

theorem keepsPayloads_of_headers (hm : ∀ i, ¬InHeader 32 a cells i → m' i = m i) :
    KeepsPayloads m m' (used 32 a cells) := fun q k hx i hi =>
  hm (q + i) (not_inHeader_of_mem_used hx (Nat.le_add_right q i) (by dsimp only; omega))

def othersOf (p : ℕ) (payloads : List (ℕ × ℕ)) : List (ℕ × ℕ) := payloads.filter fun x => x.1 ≠ p

theorem mem_othersOf {x : ℕ × ℕ} {payloads : List (ℕ × ℕ)} :
    x ∈ othersOf p payloads ↔ x ∈ payloads ∧ x.1 ≠ p := by
  rw [othersOf, List.mem_filter, decide_eq_true_eq]

theorem kmallocLoop_mem {b : ℕ} (hb : b < word)
    (hk : kmallocLoop h fuel s b size = some (s', r)) :
    s' = s ∨ ∃ x < word, r = (x + blockSize) % word ∧
      s'.mem = setFree (splitBlock s.mem x size) x false := by
  induction fuel generalizing b with
  | zero => simp [kmallocLoop] at hk
  | succ fuel ih =>
    rw [kmallocLoop] at hk
    split_ifs at hk with h0 hmagic hfit
    · rw [Option.some_inj, Prod.mk.injEq] at hk
      exact .inl hk.1.symm
    · rw [Option.some_inj, Prod.mk.injEq] at hk
      exact .inl hk.1.symm
    · rw [Option.some_inj, Prod.mk.injEq] at hk
      exact .inr ⟨b, hb, hk.2.symm, by rw [← hk.1]⟩
    · exact ih (blockAt_next_lt s.mem b) hk

/-- **`kmalloc` keeps the contents of every payload in use.** -/
theorem kmalloc_keeps (hi : HeapInv h s.mem cells)
    (hk : kmalloc h s size = some (s', r)) : KeepsPayloads s.mem s'.mem (used 32 h.base cells) := by
  have hpos := h.pos
  have hfits := h.fits
  have hW := word_eq
  have hK := kernelHeapSize_eq
  by_cases h0 : align16 size = 0
  · rw [kmalloc, if_pos h0, Option.some_inj, Prod.mk.injEq] at hk
    rw [← hk.1]
    exact fun _ _ _ _ _ => rfl
  obtain ⟨s₁, r₁, heq, hcase⟩ := kmalloc_rep h0 hi.rep
  rw [hk, Option.some_inj, Prod.mk.injEq] at heq
  obtain ⟨rfl, rfl⟩ := heq
  rcases hcase with ⟨-, rfl, -⟩ | ⟨A, c, B, rfl, hcf, hcs, -, hr, -⟩
  · exact fun _ _ _ _ _ => rfl
  rw [kmalloc, if_neg h0] at hk
  rcases kmallocLoop_mem (by omega) hk with rfl | ⟨x, hx, hrx, hmem⟩
  · exact fun _ _ _ _ _ => rfl
  -- the block that was taken is the one at `r`, and every payload in use is still one in use
  have htiles := hi.rep.span_le
  have hxA : x = h.base + span 32 A := by
    rw [hrx, blockSize_eq, word_eq] at hr
    omega
  have hfree : InHeader 32 h.base (A ++ keep 32 32 (align16 size) c ::
      (rest 32 32 (align16 size) c ++ B)) = InHeader 32 h.base
        (A ++ ⟨(keep 32 32 (align16 size) c).size, false⟩ ::
          (rest 32 32 (align16 size) c ++ B)) := by
    funext i
    simp only [inHeader_append, InHeader]
  intro q k hq i hik
  have hstill : (q, k) ∈ used 32 h.base
      (A ++ ⟨(keep 32 32 (align16 size) c).size, false⟩ :: (rest 32 32 (align16 size) c ++ B)) := by
    rw [used_middle, hcf, if_pos rfl, List.nil_append, List.mem_append] at hq
    rw [used_cut]
    simp only [Bool.false_eq_true, if_false, List.mem_append]
    exact hq.imp_right .inr
  have hnot := not_inHeader_of_mem_used hstill (Nat.le_add_right q i) (by dsimp only; omega)
  have hout := (not_inHeader_middle.1 hnot).2.1
  rw [← hxA] at hout
  rw [hmem, setFree_apply hout]
  exact splitBlock_apply hxA hi.rep (by omega) (hfree ▸ hnot)

/-- **`kfree` keeps the contents of every payload in use**, that of the one freed with them. -/
theorem kfree_keeps (hi : HeapInv h s.mem cells) (hx : (p, k) ∈ used 32 h.base cells)
    (hk : kfree h s p = some s') : KeepsPayloads s.mem s'.mem (used 32 h.base cells) := by
  obtain ⟨A, c, B, rfl, hcf, hpk⟩ := exists_of_mem_used hx
  rw [Prod.mk.injEq] at hpk
  obtain ⟨rfl, rfl⟩ := hpk
  have hle := hi.rep.span_le
  have hcpos := hi.pos c (by simp)
  refine keepsPayloads_of_headers fun i hin => ?_
  have hmark := heapRep_setFree rfl true hi.rep
  rw [kfree, if_neg (by omega), if_neg (by omega), sub64_payload h _ (by omega)] at hk
  dsimp only at hk
  rw [((heapRep_middle rfl).1 hi.rep).2.1, if_neg (by simp), Option.map_eq_some_iff] at hk
  obtain ⟨m', hm', rfl⟩ := hk
  dsimp only
  rw [← A.reverse_reverse] at hm' hmark
  rw [coalesce_apply rfl hmark hm' ?_]
  · rw [List.reverse_reverse]
    exact setFree_apply (not_inHeader_middle.1 hin).2.1
  · rw [List.reverse_reverse]
    rw [not_inHeader_middle] at hin ⊢
    exact hin

/-- **Shrinking in place keeps the contents** of what is in use afterwards. -/
theorem splitBlock_keeps (hi : HeapInv h m cells) (hx : (p, k) ∈ used 32 h.base cells)
    (hn : n ≤ k) :
    (∀ i < n, splitBlock m (sub64 p blockSize) (align16 n) (p + i) = m (p + i)) ∧
      KeepsPayloads m (splitBlock m (sub64 p blockSize) (align16 n))
        (othersOf p (used 32 h.base cells)) := by
  have hb := hi.of_mem_used hx
  have hpos := h.pos
  have hfits := h.fits
  obtain ⟨A, c, B, rfl, hcf, hpk⟩ := exists_of_mem_used hx
  rw [Prod.mk.injEq] at hpk
  obtain ⟨rfl, rfl⟩ := hpk
  have hsub := sub64_payload h (span 32 A) (by omega)
  have hK := kernelHeapSize_eq
  have hW := word_eq
  have halign : n ≤ align16 n ∧ align16 n ≤ c.size := by
    have hdvd := hi.grid c (by simp)
    rw [align16, word_eq]
    omega
  have hkeep : (keep 32 32 (align16 n) c).free = false := by rw [free_keep, hcf]
  have hkeeps : KeepsPayloads m (splitBlock m (h.base + span 32 A) (align16 n))
      (used 32 h.base (A ++ keep 32 32 (align16 n) c :: (rest 32 32 (align16 n) c ++ B))) :=
    keepsPayloads_of_headers fun i hin => splitBlock_apply rfl hi.rep (by omega) hin
  have hused : used 32 h.base (A ++ keep 32 32 (align16 n) c :: (rest 32 32 (align16 n) c ++ B)) =
      used 32 h.base A ++ ([(h.base + span 32 A + 32, (keep 32 32 (align16 n) c).size)] ++
        used 32 (h.base + span 32 A + 32 + c.size) B) := by
    have hcut := @used_cut 32 32 h.base (align16 n) A B c false
    rw [← hkeep] at hcut
    rw [hcut, hkeep]
    rfl
  rw [hsub]
  rw [hused] at hkeeps
  refine ⟨fun i hin => hkeeps _ (keep 32 32 (align16 n) c).size (by simp) i ?_, fun q j hq i hij => hkeeps q j ?_ i hij⟩
  · have := halign.1.trans (@le_size_keep 32 32 _ _ halign.2)
    omega
  · rw [mem_othersOf, used_middle, hcf] at hq
    obtain ⟨hmem, hne⟩ := hq
    simp only [Bool.false_eq_true, if_false, List.mem_append, List.mem_singleton] at hmem ⊢
    rcases hmem with hmem | hmem | hmem
    · exact .inl hmem
    · rw [Prod.mk.injEq] at hmem
      exact absurd hmem.1 hne
    · exact .inr (.inr hmem)

theorem copied_of_move {k₁ : ℕ} (hold : oldSize = n ∨ oldSize = 0)
    (hn : n ≤ k) (hk : k < newSize) (hnew : newSize ≤ k₁)
    (hdis : r + k₁ ≤ p ∨ p + k ≤ r)
    (hm : m' = if oldSize ≠ 0 then memcpy m r p (min oldSize newSize)
      else memcpy m r p (min k newSize)) :
    (∀ i < min n newSize, m' (r + i) = m (p + i)) ∧
      ∀ i, i < r ∨ r + k₁ ≤ i → m' i = m i := by
  subst hm
  split_ifs with h0
  · obtain rfl : oldSize = n := hold.resolve_right h0
    exact ⟨fun i hi => memcpy_of_disjoint (by omega) hi, fun i hi => memcpy_of_not_mem (by omega)⟩
  · exact ⟨fun i hi => memcpy_of_disjoint (by omega) (by omega),
      fun i hi => memcpy_of_not_mem (by omega)⟩

/-- **`krealloc` keeps the contents**: of the payload it was given, as far as both sizes go, and of
all others. -/
theorem krealloc_keeps {q : ℕ} (hi : HeapInv h s.mem cells)
    (hx : (p, k) ∈ used 32 h.base cells) (hn : n ≤ k) (hold : oldSize = n ∨ oldSize = 0)
    (hnew : newSize < word) (h0 : newSize ≠ 0)
    (hk : krealloc h s p oldSize newSize = some (s', q)) :
    q = 0 ∧ s' = s ∨ q ≠ 0 ∧ (∀ i < min n newSize, s'.mem (q + i) = s.mem (p + i)) ∧
      KeepsPayloads s.mem s'.mem (othersOf p (used 32 h.base cells)) ∧
      ∀ x ∈ othersOf p (used 32 h.base cells), x.1 ≠ q := by
  have hb := hi.of_mem_used hx
  have hpos := h.pos
  have hheader : (blockAt s.mem (sub64 p blockSize)).magic = heapMagic ∧
      (blockAt s.mem (sub64 p blockSize)).free = false ∧
      (blockAt s.mem (sub64 p blockSize)).size = k := hi.header hx
  rw [krealloc, if_neg (by omega), if_neg h0] at hk
  dsimp only at hk
  rw [hheader.2.2] at hk
  by_cases hfit : newSize ≤ k
  · -- the block is cut where it stands
    rw [if_pos ⟨hheader.1, hfit⟩, Option.some_inj, Prod.mk.injEq] at hk
    obtain ⟨rfl, rfl⟩ := hk
    obtain ⟨hown, hothers⟩ := splitBlock_keeps hi hx hfit
    dsimp only
    exact .inr ⟨by omega, fun i hin => hown i (by omega), hothers,
      fun x hx => (mem_othersOf.1 hx).2⟩
  rw [if_neg fun h => hfit h.2, Option.bind_eq_some_iff] at hk
  obtain ⟨⟨s₁, r⟩, hmalloc, hk⟩ := hk
  dsimp only at hk
  obtain ⟨s₂, r₂, heq, hcase⟩ := kmalloc_spec hi hnew
  rw [hmalloc, Option.some_inj, Prod.mk.injEq] at heq
  obtain ⟨rfl, rfl⟩ := heq
  have hkept := kmalloc_keeps hi hmalloc
  rcases hcase with ⟨rfl, rfl⟩ | ⟨hr, cells₁, k₁, hi₁, htaken, hle⟩
  · rw [if_pos rfl, Option.some_inj, Prod.mk.injEq] at hk
    exact .inl ⟨hk.2.symm, hk.1.symm⟩
  rw [if_neg hr, Option.map_eq_some_iff] at hk
  obtain ⟨s₃, hfree, hk⟩ := hk
  rw [Prod.mk.injEq] at hk
  obtain ⟨rfl, rfl⟩ := hk
  have hold₁ : (p, k) ∈ used 32 h.base cells₁ := (htaken.mem_used _).2 (.inr hx)
  have hnew₁ : (r, k₁) ∈ used 32 h.base cells₁ := (htaken.mem_used _).2 (.inl rfl)
  have hne : r ≠ p := (htaken.fresh _ hx).symm
  have hdis : r + k₁ ≤ p ∨ p + k ≤ r := disjoint_of_mem_used hnew₁ hold₁ hne
  have hheader₁ : (blockAt s₁.mem (sub64 p blockSize)).magic = heapMagic ∧
      (blockAt s₁.mem (sub64 p blockSize)).free = false ∧
      (blockAt s₁.mem (sub64 p blockSize)).size = k := hi₁.header hold₁
  rw [if_pos hheader₁.1, hheader₁.2.2] at hfree
  generalize hm : (if oldSize ≠ 0 then _ else _ : Mem) = m at hfree
  obtain ⟨hcopy, hoff⟩ := copied_of_move hold hn (by omega) hle hdis hm.symm
  have hm₁ : HeapInv h m cells₁ := hi₁.write hnew₁ hoff
  have hfreed := kfree_keeps (s := ⟨m, s₁.usedHighwater⟩) hm₁ hold₁ hfree
  refine .inr ⟨hr, fun i hin => ?_, fun x j hxj i hij => ?_, fun x hx' =>
    htaken.fresh x (mem_othersOf.1 hx').1⟩
  · rw [hfreed r k₁ hnew₁ i (by omega)]
    dsimp only
    rw [hcopy i hin]
    exact hkept p k hx i (by omega)
  · obtain ⟨hxj, hxp⟩ := mem_othersOf.1 hxj
    have hxj₁ : (x, j) ∈ used 32 h.base cells₁ := (htaken.mem_used _).2 (.inr hxj)
    have hxr : r ≠ x := (htaken.fresh _ hxj).symm
    have hdisx := disjoint_of_mem_used hnew₁ hxj₁ hxr
    dsimp only at hdisx
    rw [hfreed x j hxj₁ i hij]
    dsimp only
    rw [hoff (x + i) (by omega)]
    exact hkept x j hxj i hij

/-! ### Runs -/

def SameContents (r r' : HeapRun) (x n : ℕ) : Prop :=
  ∀ i < n, r'.heap.mem (x + i) = r.heap.mem (x + i)

/-- What the caller of `krealloc` relies on, when it held `n` bytes at `p`, asked for `newSize`
and got `q`. -/
structure Reallocates (h : HeapArray) (r r' : HeapRun) (p n q newSize : ℕ) : Prop where
  /-- After NULL everything is live as before, the old allocation too. -/
  failed : q = 0 → r'.live = r.live ∧ ∀ x k, r.live x = some k → SameContents r r' x k
  aligned : q ≠ 0 → 16 ∣ q
  room : q ≠ 0 → r'.live q = some newSize ∧ h.base ≤ q ∧ q + newSize ≤ h.base + kernelHeapSize
  contents : q ≠ 0 → ∀ i < min n newSize, r'.heap.mem (q + i) = r.heap.mem (p + i)
  others : q ≠ 0 → ∀ x k, x ≠ p → r.live x = some k →
    r'.live x = some k ∧ (q + newSize ≤ x ∨ x + k ≤ q) ∧ SameContents r r' x k

/-- **`krealloc` keeps the contents in every run.** -/
theorem reallocates_of_reached {r : HeapRun} (hr : HeapRun.Reached h r) {p n : ℕ}
    (hp : r.live p = some n) (oldSize newSize : UInt64)
    (hold : oldSize.toNat = n ∨ oldSize = 0) (hnew : 0 < newSize) :
    ∃ s q r', krealloc h r.heap p oldSize.toNat newSize.toNat = some (s, q) ∧
      r.step h (.krealloc p oldSize newSize) = some r' ∧ r'.heap = s ∧ r'.Sound h ∧
      Reallocates h r r' p n q newSize.toNat := by
  obtain ⟨cells, hinv⟩ := runInv_of_reached hr
  obtain ⟨k, hk, hnk⟩ := hinv.live.sound p n hp
  have h0 : newSize ≠ 0 := by
    rintro rfl
    exact absurd hnew (by decide)
  have hnat : newSize.toNat ≠ 0 := fun h => h0 (UInt64.toNat_inj.1 h)
  have hold' : oldSize.toNat = n ∨ oldSize.toNat = 0 := hold.imp_right fun h => by rw [h]; rfl
  obtain ⟨s, q, heq, hcase⟩ := krealloc_spec oldSize.toNat hinv.heap hk newSize.toNat_lt hnat
  have hkeeps := krealloc_keeps hinv.heap hk hnk hold' newSize.toNat_lt hnat heq
  have hstep := congrArg (Option.map fun x : Heap × ℕ =>
    if x.2 = 0 ∧ newSize ≠ 0 then (⟨x.1, r.live⟩ : HeapRun)
    else ⟨x.1, grant (Function.update r.live p none) x.2 newSize.toNat⟩) heq
  rcases hcase with ⟨rfl, rfl⟩ | ⟨hq, cells', k', hi', hle, hrep, -⟩
  · refine ⟨_, 0, ⟨r.heap, r.live⟩, heq, hstep.trans ?_, rfl, hinv.sound, ?_⟩
    · rw [Option.map_some, if_pos ⟨rfl, h0⟩]
    · exact ⟨fun _ => ⟨rfl, fun _ _ _ _ _ => rfl⟩, fun h => absurd rfl h, fun h => absurd rfl h,
        fun h => absurd rfl h, fun h => absurd rfl h⟩
  obtain ⟨-, hcopy, hothers, hfresh⟩ := hkeeps.resolve_left fun h => hq h.1
  have hlive := hinv.live.replace hrep hle
  refine ⟨s, q, ⟨s, Function.update (Function.update r.live p none) q (some newSize.toNat)⟩, heq,
    hstep.trans ?_, rfl, RunInv.sound ⟨hi', hlive⟩, ?_⟩
  · rw [Option.map_some, if_neg fun h => hq h.1, grant, if_neg hq]
  have hmem : (q, k') ∈ used 32 h.base cells' := (hrep _).2 (.inl rfl)
  have hbq := hi'.of_mem_used hmem
  refine ⟨fun h => absurd h hq, fun _ => hbq.1, fun _ => ⟨?_, by omega, by omega⟩, fun _ => hcopy,
    fun _ x j hxp hxj => ?_⟩
  · exact Function.update_self ..
  obtain ⟨l, hl, hjl⟩ := hinv.live.sound x j hxj
  have hl' : (x, l) ∈ used 32 h.base cells' := (hrep _).2 (.inr ⟨hl, hxp⟩)
  have hqx : q ≠ x := (hfresh (x, l) (mem_othersOf.2 ⟨hl, hxp⟩)).symm
  refine ⟨?_, ?_, fun i hi => hothers x l (mem_othersOf.2 ⟨hl, hxp⟩) i (by omega)⟩
  · dsimp only
    rw [Function.update_of_ne hqx.symm, Function.update_of_ne hxp, hxj]
  · have := disjoint_of_mem_used hmem hl' hqx
    dsimp only at this
    omega

/-- A live allocation that grows. -/
theorem reallocates_of_reached_grow :
    ∃ r : HeapRun, r.live 0x200020 = some 128 ∧
      ∃ s q r', krealloc heapAt2MiB r.heap 0x200020 128 300 = some (s, q) ∧
        r.step heapAt2MiB (.krealloc 0x200020 128 300) = some r' ∧ r'.heap = s ∧
        r'.Sound heapAt2MiB ∧ Reallocates heapAt2MiB r r' 0x200020 128 q 300 := by
  obtain ⟨s, hstep, -⟩ := heapAt2MiB_kmalloc
  have hlive : grant (fun _ => none) 0x200020 128 0x200020 = some 128 := by simp [grant]
  exact ⟨⟨s, grant (fun _ => none) 0x200020 128⟩, hlive, reallocates_of_reached
    ((HeapRun.Reached.init fun _ => 0).step (.kmalloc 128) trivial hstep) hlive 128 300
    (.inl rfl) (by decide)⟩

end Tnu.Mm
