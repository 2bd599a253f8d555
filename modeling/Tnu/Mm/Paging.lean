/-
**What the page tables map.**

The tables of `kernel/mm/vmm.c` over whole runs.  Every table in use hangs from one slot, and the
entries of the third level map the page that their slots spell, so whatever is mapped is mapped to
itself; an entry that is there stays there.

`map_huge_identity` merges its flags into the entry unchecked, and `vmm_map_range_identity` rounds
the end of a range up with a sum that can wrap: flags with bits of the address field send the page
elsewhere, and a range whose sum wraps to an end that is not below its start is reported as mapped
without a page of it being touched.

Main results:

* `mapsRange_of_tidyReached` — **a tidy call maps its range and unmaps nothing**;
* `not_mapsRange_of_wrap` — a range of which nothing is mapped.
-/

import Tnu.Mm.Vmm

set_option autoImplicit false

namespace Tnu.Mm

variable {L : Layout} {s s' s'' : Vmm} {e flags : BitVec 64} {t i j k n m v a : ℕ}

/-! ### Updates -/

theorem Vmm.entry_set (s : Vmm) (t i : ℕ) (e : BitVec 64) (t' i' : ℕ) :
    (s.set t i e).entry t' i' = if t' = t ∧ i' = i then e else s.entry t' i' := rfl

@[simp] theorem Vmm.entry_set_self (s : Vmm) (t i : ℕ) (e : BitVec 64) :
    (s.set t i e).entry t i = e := by simp [Vmm.entry_set]

theorem Vmm.entry_set_of_ne (s : Vmm) (i : ℕ) (e : BitVec 64) {t' : ℕ} (h : t' ≠ t) (i' : ℕ) :
    (s.set t i e).entry t' i' = s.entry t' i' := by simp [Vmm.entry_set, h]

@[simp] theorem Vmm.nextPdptTable_set : (s.set t i e).nextPdptTable = s.nextPdptTable := rfl

@[simp] theorem Vmm.nextPdTable_set : (s.set t i e).nextPdTable = s.nextPdTable := rfl

theorem Vmm.entry_clear_of_ne (s : Vmm) {t' : ℕ} (h : t' ≠ t) (i : ℕ) :
    (s.clear t).entry t' i = s.entry t' i := by simp [Vmm.clear, h]

@[simp] theorem Vmm.entry_clear_self (s : Vmm) (t i : ℕ) : (s.clear t).entry t i = 0 := by
  simp [Vmm.clear]

@[simp] theorem Vmm.nextPdptTable_clear : (s.clear t).nextPdptTable = s.nextPdptTable := rfl

@[simp] theorem Vmm.nextPdTable_clear : (s.clear t).nextPdTable = s.nextPdTable := rfl

/-! ### The invariant -/

/-- Which slot each table in use hangs from: an index into the top-level table, and for a table of
the third level that index and the one into the second level. -/
structure Slots where
  pdpt : ℕ → ℕ
  pd : ℕ → ℕ × ℕ

/-- The page that the slots of the entry `k` of the third-level table `m` spell. -/
def Slots.page (o : Slots) (m k : ℕ) : ℕ := (o.pd m).1 * 2 ^ 39 + (o.pd m).2 * 2 ^ 30 + k * 2 ^ 21

/-- The entry leads to the table `t`, and the processor takes it for a table. -/
def PointsTo (e : BitVec 64) (t : ℕ) : Prop :=
  tableFromEntry e = t ∧ e &&& (pteHuge ||| noExecute) = 0

/-- Every entry that is present leads to a table in use that hangs from it, and those of the third
level hold the page of their slots. -/
structure VmmInv (L : Layout) (s : Vmm) (o : Slots) : Prop where
  pdptUsed : s.nextPdptTable ≤ 8
  pdUsed : s.nextPdTable ≤ 64
  pml4Entry : ∀ i, s.entry L.pml4Table i &&& ptePresent ≠ 0 →
    ∃ n ≤ s.nextPdptTable, PointsTo (s.entry L.pml4Table i) (L.pdpt n) ∧ o.pdpt n = i
  pdptEntry : ∀ n ≤ s.nextPdptTable, ∀ j, s.entry (L.pdpt n) j &&& ptePresent ≠ 0 →
    ∃ m ≤ s.nextPdTable, PointsTo (s.entry (L.pdpt n) j) (L.pd m) ∧ o.pd m = (o.pdpt n, j)
  pdEntry : ∀ m ≤ s.nextPdTable, ∀ k, s.entry (L.pd m) k &&& ptePresent ≠ 0 →
    s.entry (L.pd m) k &&& (hugeFrameMask ||| pteHuge) = BitVec.ofNat 64 (o.page m k) ||| pteHuge

/-- What becomes of an entry that is present: it stays, it keeps what `mask` selects, and it keeps
the user flag. -/
def Keeps (mask e e' : BitVec 64) : Prop :=
  e &&& ptePresent ≠ 0 →
    e' &&& ptePresent ≠ 0 ∧ e' &&& mask = e &&& mask ∧ (userEntry e = true → userEntry e' = true)

theorem Keeps.refl (mask e : BitVec 64) : Keeps mask e e := fun h => ⟨h, rfl, id⟩

theorem Keeps.trans {mask e' e'' : BitVec 64} (h : Keeps mask e e') (h' : Keeps mask e' e'') :
    Keeps mask e e'' := by
  intro hp
  obtain ⟨hp', hm, hu⟩ := h hp
  obtain ⟨hp'', hm', hu'⟩ := h' hp'
  exact ⟨hp'', hm'.trans hm, hu' ∘ hu⟩

theorem Keeps.merge {mask f : BitVec 64} (h : f &&& mask = 0) : Keeps mask e (e ||| f) := by
  intro hp
  refine ⟨?_, or_and_of_eq_zero h, ?_⟩
  · rw [and_ptePresent] at hp ⊢
    simp [hp]
  · simp only [userEntry, decide_eq_true_eq, and_pteUser]
    intro hu
    simp [hu]

/-- The later state keeps every entry of the tables in use. -/
structure Extends (L : Layout) (s s' : Vmm) : Prop where
  pdptUsed : s.nextPdptTable ≤ s'.nextPdptTable
  pdUsed : s.nextPdTable ≤ s'.nextPdTable
  pml4 : ∀ i, Keeps tableAddrMask (s.entry L.pml4Table i) (s'.entry L.pml4Table i)
  pdpt : ∀ n ≤ s.nextPdptTable, ∀ j,
    Keeps tableAddrMask (s.entry (L.pdpt n) j) (s'.entry (L.pdpt n) j)
  pd : ∀ m ≤ s.nextPdTable, ∀ k, Keeps 0 (s.entry (L.pd m) k) (s'.entry (L.pd m) k)

theorem Extends.refl (L : Layout) (s : Vmm) : Extends L s s where
  pdptUsed := le_rfl
  pdUsed := le_rfl
  pml4 := fun _ => Keeps.refl _ _
  pdpt := fun _ _ _ => Keeps.refl _ _
  pd := fun _ _ _ => Keeps.refl _ _

theorem Extends.trans (h : Extends L s s') (h' : Extends L s' s'') : Extends L s s'' where
  pdptUsed := h.pdptUsed.trans h'.pdptUsed
  pdUsed := h.pdUsed.trans h'.pdUsed
  pml4 := fun i => (h.pml4 i).trans (h'.pml4 i)
  pdpt := fun n hn j => (h.pdpt n hn j).trans (h'.pdpt n (hn.trans h.pdptUsed) j)
  pd := fun m hm k => (h.pd m hm k).trans (h'.pd m (hm.trans h.pdUsed) k)

/-! ### The processor on such tables -/

/-- The way of the walk for the address `v`, through the tables `n` and `m`. -/
structure Path (L : Layout) (s : Vmm) (v n m : ℕ) : Prop where
  pdptUsed : n ≤ s.nextPdptTable
  pdUsed : m ≤ s.nextPdTable
  pml4 : s.entry L.pml4Table (pml4Index v) &&& ptePresent ≠ 0
  toPdpt : tableFromEntry (s.entry L.pml4Table (pml4Index v)) = L.pdpt n
  pdpt : s.entry (L.pdpt n) (pdptIndex v) &&& ptePresent ≠ 0
  toPd : tableFromEntry (s.entry (L.pdpt n) (pdptIndex v)) = L.pd m
  pd : s.entry (L.pd m) (pdIndex v) &&& ptePresent ≠ 0

def Path.user (L : Layout) (s : Vmm) (v n m : ℕ) : Bool :=
  userEntry (s.entry L.pml4Table (pml4Index v)) && userEntry (s.entry (L.pdpt n) (pdptIndex v)) &&
    userEntry (s.entry (L.pd m) (pdIndex v))

theorem tableFromEntry_eq_iff {e' : BitVec 64} :
    tableFromEntry e = tableFromEntry e' ↔ e &&& tableAddrMask = e' &&& tableAddrMask := by
  rw [tableFromEntry, tableFromEntry, BitVec.toNat_inj]

theorem Path.extends (hp : Path L s v n m) (h : Extends L s s') :
    Path L s' v n m ∧ (Path.user L s v n m = true → Path.user L s' v n m = true) := by
  obtain ⟨h4, h4t, h4u⟩ := h.pml4 _ hp.pml4
  obtain ⟨h3, h3t, h3u⟩ := h.pdpt n hp.pdptUsed _ hp.pdpt
  obtain ⟨h2, -, h2u⟩ := h.pd m hp.pdUsed _ hp.pd
  refine ⟨⟨hp.pdptUsed.trans h.pdptUsed, hp.pdUsed.trans h.pdUsed, h4, ?_, h3, ?_, h2⟩, ?_⟩
  · rw [tableFromEntry_eq_iff.mpr h4t, hp.toPdpt]
  · rw [tableFromEntry_eq_iff.mpr h3t, hp.toPd]
  · simp only [Path.user, Bool.and_eq_true]
    rintro ⟨⟨hu4, hu3⟩, hu2⟩
    exact ⟨⟨h4u hu4, h3u hu3⟩, h2u hu2⟩

theorem page_eq_of_slots {o : Slots} (h4 : o.pdpt n = pml4Index v)
    (h3 : o.pd m = (o.pdpt n, pdptIndex v)) :
    o.page m (pdIndex v) + v % 2 ^ 21 = v % 2 ^ 48 := by
  rw [Slots.page, h3, h4]
  simp only [pml4Index, pdptIndex, pdIndex]
  omega

theorem Vmm.fetch_eq_some {reserved : BitVec 64} :
    s.fetch t i reserved = some e ↔
      s.entry t i &&& ptePresent ≠ 0 ∧ s.entry t i &&& reserved = 0 ∧ s.entry t i = e := by
  rw [Vmm.fetch]
  split
  · next h => simp only [Option.some.injEq, h.1, h.2, ne_eq, not_false_eq_true, true_and]
  · next h => simp only [reduceCtorEq, false_iff]; exact fun h' => h ⟨h'.1, h'.2.1⟩

theorem and_or_eq_zero {w : ℕ} {e f g : BitVec w} : e &&& (f ||| g) = 0 ↔ e &&& f = 0 ∧ e &&& g = 0 := by
  rw [BitVec.and_or_distrib_left]
  exact BitVec.or_eq_zero_iff

theorem hugeEntry_fields (h : e &&& (hugeFrameMask ||| pteHuge) = BitVec.ofNat 64 a ||| pteHuge)
    (hd : 2 ^ 21 ∣ a) (ha : a < 2 ^ 52) :
    e &&& noExecute = 0 ∧ e &&& pteHuge ≠ 0 ∧ e &&& 0x00000000001fe000 = 0 ∧
      (e &&& 0x000fffffffe00000).toNat = a := by
  have hm : BitVec.ofNat 64 a &&& 0x000fffffffe00000 = BitVec.ofNat 64 a :=
    ofNat_and_mask 21 52 (by decide) (by norm_num) hd ha
  have hx : ∀ x : BitVec 64, (hugeFrameMask ||| pteHuge) &&& x = x →
      e &&& x = (BitVec.ofNat 64 a &&& 0x000fffffffe00000 ||| pteHuge) &&& x := by
    intro x hx
    rw [hm, ← h, BitVec.and_assoc, hx]
  refine ⟨?_, ?_, ?_, ?_⟩
  · rw [hx _ (by decide), BitVec.and_or_distrib_right, BitVec.and_assoc]
    simp
  · rw [hx _ (by decide), BitVec.and_or_distrib_right, BitVec.and_assoc]
    simp
  · rw [hx _ (by decide), BitVec.and_or_distrib_right, BitVec.and_assoc]
    simp
  · have h0 : pteHuge &&& (0x000fffffffe00000 : BitVec 64) = 0 := by decide
    rw [hx _ (by decide), hm, or_and_of_eq_zero h0, hm, BitVec.toNat_ofNat]
    exact Nat.mod_eq_of_lt (ha.trans (by norm_num))

/-- **The walk of an address whose way is there** ends at the address itself. -/
theorem VmmInv.translate_eq {o : Slots} (h : VmmInv L s o) (hc : Canonical v)
    (hp : Path L s v n m) : s.translate L v = some ⟨v % 2 ^ 48, Path.user L s v n m⟩ := by
  obtain ⟨n', hn', ⟨ht4, hr4⟩, ho4⟩ := h.pml4Entry _ hp.pml4
  obtain rfl : n' = n :=
    L.pdpt_inj (hn'.trans h.pdptUsed) (hp.pdptUsed.trans h.pdptUsed) (ht4.symm.trans hp.toPdpt)
  obtain ⟨m', hm', ⟨ht3, hr3⟩, ho3⟩ := h.pdptEntry _ hn' _ hp.pdpt
  obtain rfl : m' = m :=
    L.pd_inj (hm'.trans h.pdUsed) (hp.pdUsed.trans h.pdUsed) (ht3.symm.trans hp.toPd)
  have hpage := page_eq_of_slots ho4 ho3
  have hd : 2 ^ 21 ∣ o.page m' (pdIndex v) := by rw [Slots.page]; omega
  have hlt : o.page m' (pdIndex v) < 2 ^ 52 := by omega
  obtain ⟨hx, hh, hz, hf⟩ := hugeEntry_fields (h.pdEntry _ hm' _ hp.pd) hd hlt
  have hf4 := Vmm.fetch_eq_some.mpr ⟨hp.pml4, hr4, rfl⟩
  have hf3 := Vmm.fetch_eq_some.mpr ⟨hp.pdpt, (and_or_eq_zero.mp hr3).2, rfl⟩
  have hf2 := Vmm.fetch_eq_some.mpr ⟨hp.pd, hx, rfl⟩
  rw [Vmm.translate, if_pos hc, hf4]
  simp only [Option.bind_eq_bind, Option.bind_some]
  rw [ht4, hf3]
  simp only [Option.bind_some, (and_or_eq_zero.mp hr3).1, ne_eq, not_true_eq_false, if_false]
  rw [ht3, hf2]
  simp only [Option.bind_some, hh, hz, hf, not_false_eq_true, if_true, hpage, Path.user]

theorem VmmInv.exists_path {o : Slots} {r : Translation} (h : VmmInv L s o)
    (ht : s.translate L v = some r) : Canonical v ∧ ∃ n m, Path L s v n m := by
  by_cases hc : Canonical v
  swap
  · rw [Vmm.translate, if_neg hc] at ht
    cases ht
  refine ⟨hc, ?_⟩
  rw [Vmm.translate, if_pos hc] at ht
  obtain ⟨e4, hf4, ht⟩ := Option.bind_eq_some_iff.mp ht
  obtain ⟨hp4, -, rfl⟩ := Vmm.fetch_eq_some.mp hf4
  obtain ⟨n, hn, ⟨ht4, -⟩, -⟩ := h.pml4Entry _ hp4
  rw [ht4] at ht
  obtain ⟨e3, hf3, ht⟩ := Option.bind_eq_some_iff.mp ht
  obtain ⟨hp3, -, rfl⟩ := Vmm.fetch_eq_some.mp hf3
  obtain ⟨m, hm, ⟨ht3, hr3⟩, -⟩ := h.pdptEntry _ hn _ hp3
  rw [if_neg (by simpa using (and_or_eq_zero.mp hr3).1), ht3] at ht
  obtain ⟨e2, hf2, -⟩ := Option.bind_eq_some_iff.mp ht
  exact ⟨n, m, hn, hm, hp4, ht4, hp3, ht3, (Vmm.fetch_eq_some.mp hf2).1⟩

theorem VmmInv.translate_extends {o o' : Slots} {r : Translation} (h : VmmInv L s o)
    (h' : VmmInv L s' o') (hx : Extends L s s') (ht : s.translate L v = some r) :
    ∃ r', s'.translate L v = some r' ∧ r'.phys = r.phys := by
  obtain ⟨hc, n, m, hp⟩ := h.exists_path ht
  rw [h.translate_eq hc hp, Option.some.injEq] at ht
  exact ⟨_, h'.translate_eq hc (hp.extends hx).1, by rw [← ht]⟩

/-! ### One entry -/

section Entries

variable {o : Slots}

theorem VmmInv.set_pml4 (h : VmmInv L s o)
    (he : ∃ n ≤ s.nextPdptTable, PointsTo e (L.pdpt n) ∧ o.pdpt n = i) :
    VmmInv L (s.set L.pml4Table i e) o where
  pdptUsed := h.pdptUsed
  pdUsed := h.pdUsed
  pml4Entry := by
    intro i' hp
    rw [Vmm.entry_set] at hp ⊢
    split at hp
    · next hi => rw [if_pos hi, hi.2]; exact he
    · next hi => rw [if_neg hi]; exact h.pml4Entry i' hp
  pdptEntry := by
    intro n hn j hp
    rw [Vmm.entry_set_of_ne _ _ _ (L.pml4_ne_pdpt (hn.trans h.pdptUsed)).symm] at hp ⊢
    exact h.pdptEntry n hn j hp
  pdEntry := by
    intro m hm k hp
    rw [Vmm.entry_set_of_ne _ _ _ (L.pml4_ne_pd (hm.trans h.pdUsed)).symm] at hp ⊢
    exact h.pdEntry m hm k hp

theorem VmmInv.set_pdpt (h : VmmInv L s o) (hn : n ≤ s.nextPdptTable)
    (he : ∃ m ≤ s.nextPdTable, PointsTo e (L.pd m) ∧ o.pd m = (o.pdpt n, j)) :
    VmmInv L (s.set (L.pdpt n) j e) o where
  pdptUsed := h.pdptUsed
  pdUsed := h.pdUsed
  pml4Entry := by
    intro i hp
    rw [Vmm.entry_set_of_ne _ _ _ (L.pml4_ne_pdpt (hn.trans h.pdptUsed))] at hp ⊢
    exact h.pml4Entry i hp
  pdptEntry := by
    intro n' hn' j' hp
    rw [Vmm.entry_set] at hp ⊢
    split at hp
    · next hi =>
        obtain rfl := L.pdpt_inj (hn'.trans h.pdptUsed) (hn.trans h.pdptUsed) hi.1
        rw [if_pos hi, hi.2]
        exact he
    · next hi => rw [if_neg hi]; exact h.pdptEntry n' hn' j' hp
  pdEntry := by
    intro m hm k hp
    rw [Vmm.entry_set_of_ne _ _ _ (L.pd_ne_pdpt (hm.trans h.pdUsed) (hn.trans h.pdptUsed))] at hp ⊢
    exact h.pdEntry m hm k hp

theorem VmmInv.set_pd (h : VmmInv L s o) (hm : m ≤ s.nextPdTable)
    (he : e &&& (hugeFrameMask ||| pteHuge) = BitVec.ofNat 64 (o.page m k) ||| pteHuge) :
    VmmInv L (s.set (L.pd m) k e) o where
  pdptUsed := h.pdptUsed
  pdUsed := h.pdUsed
  pml4Entry := by
    intro i hp
    rw [Vmm.entry_set_of_ne _ _ _ (L.pml4_ne_pd (hm.trans h.pdUsed))] at hp ⊢
    exact h.pml4Entry i hp
  pdptEntry := by
    intro n hn j hp
    rw [Vmm.entry_set_of_ne _ _ _
      (L.pd_ne_pdpt (hm.trans h.pdUsed) (hn.trans h.pdptUsed)).symm] at hp ⊢
    exact h.pdptEntry n hn j hp
  pdEntry := by
    intro m' hm' k' hp
    rw [Vmm.entry_set] at hp ⊢
    split at hp
    · next hi =>
        obtain rfl := L.pd_inj (hm'.trans h.pdUsed) (hm.trans h.pdUsed) hi.1
        rw [if_pos hi, hi.2]
        exact he
    · next hi => rw [if_neg hi]; exact h.pdEntry m' hm' k' hp

variable {p e' mask : BitVec 64}

theorem Vmm.keeps_set (h : Keeps mask (s.entry t i) e) (t' i' : ℕ) :
    Keeps mask (s.entry t' i') ((s.set t i e).entry t' i') := by
  rw [Vmm.entry_set]
  split
  · next hi => rw [hi.1, hi.2]; exact h
  · exact Keeps.refl _ _

theorem Keeps.weaken (h : Keeps mask e e') : Keeps 0 e e' := by
  intro hp
  obtain ⟨hp', -, hu⟩ := h hp
  exact ⟨hp', by rw [show e' &&& 0 = 0 from BitVec.and_zero, show e &&& 0 = 0 from BitVec.and_zero],
    hu⟩

theorem Keeps.of_missing (h : e &&& ptePresent = 0) : Keeps mask e e' :=
  fun hp => absurd h hp

theorem Extends.set (h : Keeps tableAddrMask (s.entry t i) e) : Extends L s (s.set t i e) where
  pdptUsed := le_rfl
  pdUsed := le_rfl
  pml4 := fun _ => Vmm.keeps_set h _ _
  pdpt := fun _ _ _ => Vmm.keeps_set h _ _
  pd := fun _ _ _ => (Vmm.keeps_set h _ _).weaken

theorem Extends.set_pd (h : VmmInv L s o) (hm : m ≤ s.nextPdTable)
    (hk : Keeps 0 (s.entry (L.pd m) k) e) : Extends L s (s.set (L.pd m) k e) where
  pdptUsed := le_rfl
  pdUsed := le_rfl
  pml4 := by
    intro i
    rw [Vmm.entry_set_of_ne _ _ _ (L.pml4_ne_pd (hm.trans h.pdUsed))]
    exact Keeps.refl _ _
  pdpt := by
    intro n hn j
    rw [Vmm.entry_set_of_ne _ _ _ (L.pd_ne_pdpt (hm.trans h.pdUsed) (hn.trans h.pdptUsed)).symm]
    exact Keeps.refl _ _
  pd := fun _ _ _ => Vmm.keeps_set hk _ _

/-! ### One more table -/

theorem VmmInv.allocPdptTable (h : VmmInv L s o) (ha : allocPdptTable L s = some (s', t)) (i : ℕ) :
    t = L.pdpt s'.nextPdptTable ∧ Extends L s s' ∧
      (∀ i', s'.entry L.pml4Table i' = s.entry L.pml4Table i') ∧
      VmmInv L s' { o with pdpt := Function.update o.pdpt s'.nextPdptTable i } := by
  rw [Tnu.Mm.allocPdptTable] at ha
  split at ha
  · cases ha
  next hn =>
  simp only [Option.some.injEq, Prod.mk.injEq] at ha
  obtain ⟨rfl, rfl⟩ := ha
  have hnew : L.extraPdptTables + s.nextPdptTable * 4096 = L.pdpt (s.nextPdptTable + 1) := rfl
  simp only [hnew]
  have hu : s.nextPdptTable + 1 ≤ 8 := by omega
  have h4 : ∀ i, (Vmm.clear { s with nextPdptTable := s.nextPdptTable + 1 }
      (L.pdpt (s.nextPdptTable + 1))).entry L.pml4Table i = s.entry L.pml4Table i :=
    fun i => Vmm.entry_clear_of_ne _ (L.pml4_ne_pdpt hu) i
  have h3 : ∀ n ≤ s.nextPdptTable, ∀ j, (Vmm.clear { s with nextPdptTable := s.nextPdptTable + 1 }
      (L.pdpt (s.nextPdptTable + 1))).entry (L.pdpt n) j = s.entry (L.pdpt n) j := by
    intro n hn j
    refine Vmm.entry_clear_of_ne _ (fun he => ?_) j
    have := L.pdpt_inj (hn.trans h.pdptUsed) hu he
    omega
  have h2 : ∀ m ≤ s.nextPdTable, ∀ k, (Vmm.clear { s with nextPdptTable := s.nextPdptTable + 1 }
      (L.pdpt (s.nextPdptTable + 1))).entry (L.pd m) k = s.entry (L.pd m) k :=
    fun m hm k => Vmm.entry_clear_of_ne _ (L.pd_ne_pdpt (hm.trans h.pdUsed) hu) k
  refine ⟨rfl, ⟨Nat.le_succ _, le_rfl, ?_, ?_, ?_⟩, h4, ⟨hu, h.pdUsed, ?_, ?_, ?_⟩⟩
  · exact fun i => by rw [h4]; exact Keeps.refl _ _
  · exact fun n hn j => by rw [h3 n hn]; exact Keeps.refl _ _
  · exact fun m hm k => by rw [h2 m hm]; exact Keeps.refl _ _
  · intro i' hp
    rw [h4] at hp ⊢
    obtain ⟨n, hn, hpt, ho⟩ := h.pml4Entry i' hp
    have hn' : n ≤ s.nextPdptTable + 1 := by omega
    refine ⟨n, hn', hpt, ?_⟩
    rw [← ho]
    exact Function.update_of_ne (by change n ≠ s.nextPdptTable + 1; omega) _ _
  · intro n hn j hp
    rcases Nat.lt_or_ge s.nextPdptTable n with hlt | hle
    · obtain rfl : n = s.nextPdptTable + 1 := le_antisymm hn hlt
      simp at hp
    · rw [h3 n hle] at hp ⊢
      obtain ⟨m, hm, hpt, ho⟩ := h.pdptEntry n hle j hp
      refine ⟨m, hm, hpt, ?_⟩
      rw [ho]
      have hne : n ≠ s.nextPdptTable + 1 := by omega
      exact Prod.ext (Function.update_of_ne hne _ _).symm rfl
  · intro m hm k hp
    rw [h2 m hm] at hp ⊢
    exact h.pdEntry m hm k hp

theorem VmmInv.allocPdTable (h : VmmInv L s o) (ha : allocPdTable L s = some (s', t))
    (p : ℕ × ℕ) :
    t = L.pd s'.nextPdTable ∧ Extends L s s' ∧ s'.nextPdptTable = s.nextPdptTable ∧
      (∀ n ≤ s.nextPdptTable, ∀ j, s'.entry (L.pdpt n) j = s.entry (L.pdpt n) j) ∧
      VmmInv L s' { o with pd := Function.update o.pd s'.nextPdTable p } := by
  rw [Tnu.Mm.allocPdTable] at ha
  split at ha
  · cases ha
  next hn =>
  simp only [Option.some.injEq, Prod.mk.injEq] at ha
  obtain ⟨rfl, rfl⟩ := ha
  have hnew : L.extraPdTables + s.nextPdTable * 4096 = L.pd (s.nextPdTable + 1) := rfl
  simp only [hnew]
  have hu : s.nextPdTable + 1 ≤ 64 := by omega
  have h4 : ∀ i, (Vmm.clear { s with nextPdTable := s.nextPdTable + 1 }
      (L.pd (s.nextPdTable + 1))).entry L.pml4Table i = s.entry L.pml4Table i :=
    fun i => Vmm.entry_clear_of_ne _ (L.pml4_ne_pd hu) i
  have h3 : ∀ n ≤ s.nextPdptTable, ∀ j, (Vmm.clear { s with nextPdTable := s.nextPdTable + 1 }
      (L.pd (s.nextPdTable + 1))).entry (L.pdpt n) j = s.entry (L.pdpt n) j :=
    fun n hn j => Vmm.entry_clear_of_ne _ (L.pd_ne_pdpt hu (hn.trans h.pdptUsed)).symm j
  have h2 : ∀ m ≤ s.nextPdTable, ∀ k, (Vmm.clear { s with nextPdTable := s.nextPdTable + 1 }
      (L.pd (s.nextPdTable + 1))).entry (L.pd m) k = s.entry (L.pd m) k := by
    intro m hm k
    refine Vmm.entry_clear_of_ne _ (fun he => ?_) k
    have := L.pd_inj (hm.trans h.pdUsed) hu he
    omega
  refine ⟨rfl, ⟨le_rfl, Nat.le_succ _, ?_, ?_, ?_⟩, rfl, h3, ⟨h.pdptUsed, hu, ?_, ?_, ?_⟩⟩
  · exact fun i => by rw [h4]; exact Keeps.refl _ _
  · exact fun n hn j => by rw [h3 n hn]; exact Keeps.refl _ _
  · exact fun m hm k => by rw [h2 m hm]; exact Keeps.refl _ _
  · intro i hp
    rw [h4] at hp ⊢
    exact h.pml4Entry i hp
  · intro n hn j hp
    rw [h3 n hn] at hp ⊢
    obtain ⟨m, hm, hpt, ho⟩ := h.pdptEntry n hn j hp
    have hm' : m ≤ s.nextPdTable + 1 := by omega
    refine ⟨m, hm', hpt, ?_⟩
    rw [← ho]
    exact Function.update_of_ne (by change m ≠ s.nextPdTable + 1; omega) _ _
  · intro m hm k hp
    rcases Nat.lt_or_ge s.nextPdTable m with hlt | hle
    · obtain rfl : m = s.nextPdTable + 1 := le_antisymm hm hlt
      simp at hp
    · rw [h2 m hle] at hp ⊢
      rw [h.pdEntry m hle k hp]
      have hs : Function.update o.pd (s.nextPdTable + 1) p m = o.pd m :=
        Function.update_of_ne (by omega) _ _
      simp only [Slots.page, Vmm.nextPdTable_clear, hs]

/-! ### One page -/

theorem descend_cases {alloc : Vmm → Option (Vmm × ℕ)} (h : descend alloc s t i flags = some s') :
    (s.entry t i &&& ptePresent ≠ 0 ∧ s' = s.set t i (s.entry t i ||| flags &&& pteUser)) ∨
      (s.entry t i &&& ptePresent = 0 ∧ ∃ s₁ table, alloc s = some (s₁, table) ∧
        s' = s₁.set t i
          (BitVec.ofNat 64 table ||| ptePresent ||| pteWritable ||| flags &&& pteUser)) := by
  rw [descend] at h
  split at h
  · next hp =>
      refine .inr ⟨hp, ?_⟩
      split at h
      · cases h
      · next s₁ table ha => exact ⟨s₁, table, ha, (Option.some.inj h).symm⟩
  · next hp => exact .inl ⟨hp, (Option.some.inj h).symm⟩

theorem user_and_eq_zero (flags : BitVec 64) (h : pteUser &&& mask = 0) :
    flags &&& pteUser &&& mask = 0 := and_and_eq_zero flags h

theorem pointsTo_newEntry (hd : 4096 ∣ t) (ht : t < 2 ^ 52) (flags : BitVec 64) :
    PointsTo (BitVec.ofNat 64 t ||| ptePresent ||| pteWritable ||| flags &&& pteUser) t := by
  have hm := ofNat_and_tableAddrMask hd ht
  constructor
  · rw [tableFromEntry, or_and_of_eq_zero (user_and_eq_zero flags (by decide)),
      or_and_of_eq_zero (by decide), or_and_of_eq_zero (by decide), hm, BitVec.toNat_ofNat]
    exact Nat.mod_eq_of_lt (ht.trans (by norm_num))
  · rw [or_and_of_eq_zero (user_and_eq_zero flags (by decide)), or_and_of_eq_zero (by decide),
      or_and_of_eq_zero (by decide), ← hm]
    exact and_and_eq_zero _ (by decide)

theorem PointsTo.user (h : PointsTo e t) (flags : BitVec 64) :
    PointsTo (e ||| flags &&& pteUser) t := by
  constructor
  · rw [← h.1, tableFromEntry_eq_iff]
    exact or_and_of_eq_zero (user_and_eq_zero flags (by decide))
  · rw [or_and_of_eq_zero (user_and_eq_zero flags (by decide))]
    exact h.2

/-- The entry is present, and user mode may use it when `flags` says so. -/
def Granted (flags e : BitVec 64) : Prop :=
  e &&& ptePresent ≠ 0 ∧ (flags &&& pteUser ≠ 0 → userEntry e = true)

theorem Granted.keeps (h : Granted flags e) (hk : Keeps mask e e') :
    Granted flags e' := by
  obtain ⟨hp, -, hu⟩ := hk h.1
  exact ⟨hp, fun hf => hu (h.2 hf)⟩

theorem granted_newEntry (t : ℕ) (flags : BitVec 64) :
    Granted flags (BitVec.ofNat 64 t ||| ptePresent ||| pteWritable ||| flags &&& pteUser) := by
  simp only [Granted, userEntry, decide_eq_true_eq, and_ptePresent, and_pteUser]
  refine ⟨by simp, fun hu => ?_⟩
  simp [hu]

theorem granted_user (hp : e &&& ptePresent ≠ 0) (flags : BitVec 64) :
    Granted flags (e ||| flags &&& pteUser) := by
  simp only [Granted, userEntry, decide_eq_true_eq, and_ptePresent, and_pteUser] at hp ⊢
  refine ⟨by simp [hp], fun hu => ?_⟩
  simp [hu]

theorem VmmInv.descend_pml4 (h : VmmInv L s o)
    (hd : descend (Tnu.Mm.allocPdptTable L) s L.pml4Table i flags = some s') :
    ∃ o' n, VmmInv L s' o' ∧ Extends L s s' ∧ n ≤ s'.nextPdptTable ∧ o'.pdpt n = i ∧
      tableFromEntry (s'.entry L.pml4Table i) = L.pdpt n ∧
      Granted flags (s'.entry L.pml4Table i) := by
  obtain ⟨hp, rfl⟩ | ⟨hp, s₁, table, ha, rfl⟩ := descend_cases hd
  · obtain ⟨n, hn, hpt, ho⟩ := h.pml4Entry i hp
    refine ⟨o, n, h.set_pml4 ⟨n, hn, hpt.user flags, ho⟩,
      Extends.set (Keeps.merge (user_and_eq_zero flags (by decide))), hn, ho, ?_, ?_⟩
    · rw [Vmm.entry_set_self]
      exact (hpt.user flags).1
    · rw [Vmm.entry_set_self]
      exact granted_user hp flags
  · obtain ⟨rfl, hx, h4, hi⟩ := h.allocPdptTable ha i
    obtain ⟨hal, hlt⟩ := L.pdpt_frame hi.pdptUsed
    have hpt := pointsTo_newEntry hal hlt flags
    have hs := hi.set_pml4 ⟨_, le_rfl, hpt, Function.update_self _ _ _⟩
    refine ⟨_, _, hs, hx.trans (Extends.set (Keeps.of_missing (by rw [h4]; exact hp))), le_rfl,
      Function.update_self _ _ _, ?_, ?_⟩
    · rw [Vmm.entry_set_self]
      exact hpt.1
    · rw [Vmm.entry_set_self]
      exact granted_newEntry _ flags

theorem VmmInv.descend_pdpt (h : VmmInv L s o) (hn : n ≤ s.nextPdptTable)
    (hd : descend (Tnu.Mm.allocPdTable L) s (L.pdpt n) j flags = some s') :
    ∃ o' m, VmmInv L s' o' ∧ Extends L s s' ∧ m ≤ s'.nextPdTable ∧ o'.pd m = (o.pdpt n, j) ∧
      tableFromEntry (s'.entry (L.pdpt n) j) = L.pd m ∧
      Granted flags (s'.entry (L.pdpt n) j) := by
  obtain ⟨hp, rfl⟩ | ⟨hp, s₁, table, ha, rfl⟩ := descend_cases hd
  · obtain ⟨m, hm, hpt, ho⟩ := h.pdptEntry n hn j hp
    refine ⟨o, m, h.set_pdpt hn ⟨m, hm, hpt.user flags, ho⟩,
      Extends.set (Keeps.merge (user_and_eq_zero flags (by decide))), hm, ho, ?_, ?_⟩
    · rw [Vmm.entry_set_self]
      exact (hpt.user flags).1
    · rw [Vmm.entry_set_self]
      exact granted_user hp flags
  · obtain ⟨rfl, hx, hnn, h3, hi⟩ := h.allocPdTable ha (o.pdpt n, j)
    obtain ⟨hal, hlt⟩ := L.pd_frame hi.pdUsed
    have hpt := pointsTo_newEntry hal hlt flags
    have hs := hi.set_pdpt (hnn ▸ hn) ⟨_, le_rfl, hpt, Function.update_self _ _ _⟩
    refine ⟨_, _, hs, hx.trans (Extends.set (Keeps.of_missing (by rw [h3 n hn]; exact hp))),
      le_rfl, Function.update_self _ _ _, ?_, ?_⟩
    · rw [Vmm.entry_set_self]
      exact hpt.1
    · rw [Vmm.entry_set_self]
      exact granted_newEntry _ flags

/-- The flags leave the address and the reserved bits of the entry for the page `a` alone. -/
def FlagsFit (a : ℕ) (flags : BitVec 64) : Prop :=
  (BitVec.ofNat 64 a ||| flags) &&& hugeFrameMask = BitVec.ofNat 64 a

theorem or_and_of_and_eq (h : e &&& p = p) (f : BitVec 64) :
    (e ||| f) &&& p = p := by
  refine BitVec.eq_of_getLsbD_eq fun i _ => ?_
  have hi := congrArg (·.getLsbD i) h
  simp only [BitVec.getLsbD_and, BitVec.getLsbD_or] at hi ⊢
  cases hp : p.getLsbD i <;> simp_all

theorem or_and_right (e p : BitVec 64) : (e ||| p) &&& p = p := by
  rw [BitVec.or_comm]
  exact or_and_of_and_eq BitVec.and_self e

theorem and_or_split {x q : BitVec 64} (h : e &&& (p ||| q) = x ||| q) (hpq : q &&& p = 0)
    (hx : x &&& p = x) : e &&& p = x ∧ e &&& q = q := by
  constructor
  · calc e &&& p = e &&& ((p ||| q) &&& p) := by rw [or_and_of_and_eq BitVec.and_self q]
      _ = (x ||| q) &&& p := by rw [← BitVec.and_assoc, h]
      _ = x := by rw [or_and_of_eq_zero hpq, hx]
  · calc e &&& q = e &&& ((p ||| q) &&& q) := by rw [or_and_right]
      _ = (x ||| q) &&& q := by rw [← BitVec.and_assoc, h]
      _ = q := or_and_right x q

theorem VmmInv.mapEntry (h : VmmInv L s o) (hm : m ≤ s.nextPdTable) (hpage : o.page m k = a)
    (hd : 2 ^ 21 ∣ a) (ha : a < 2 ^ 47) (hf : FlagsFit a flags) :
    VmmInv L (mapEntry s (L.pd m) k a flags) o ∧ Extends L s (mapEntry s (L.pd m) k a flags) ∧
      Granted flags ((mapEntry s (L.pd m) k a flags).entry (L.pd m) k) := by
  have hmask := ofNat_and_hugeFrameMask hd ha
  -- the address bits that the flags set are those of the page
  have hflags : BitVec.ofNat 64 a ||| flags &&& hugeFrameMask = BitVec.ofNat 64 a := by
    have := hf
    rwa [FlagsFit, BitVec.and_or_distrib_right, hmask] at this
  rw [Tnu.Mm.mapEntry]
  split
  · next hp =>
      rw [pteFlags_eq]
      have he : (BitVec.ofNat 64 a ||| ptePresent ||| pteWritable ||| pteHuge ||| flags) &&&
          (hugeFrameMask ||| pteHuge) = BitVec.ofNat 64 a ||| pteHuge := by
        rw [BitVec.and_or_distrib_left, or_and_of_and_eq (or_and_right _ pteHuge) flags]
        rw [BitVec.and_or_distrib_right, or_and_of_eq_zero (by decide),
          or_and_of_eq_zero (by decide), or_and_of_eq_zero (by decide), hmask, hflags]
      refine ⟨h.set_pd hm (by rw [hpage]; exact he), Extends.set_pd h hm (Keeps.of_missing hp), ?_⟩
      rw [Vmm.entry_set_self]
      simp only [Granted, userEntry, decide_eq_true_eq, and_ptePresent, and_pteUser]
      exact ⟨by simp, fun hu => by simp [hu]⟩
  · next hp =>
      have he : (s.entry (L.pd m) k ||| flags) &&& (hugeFrameMask ||| pteHuge) =
          BitVec.ofNat 64 a ||| pteHuge := by
        have hold := h.pdEntry m hm k hp
        rw [hpage] at hold
        obtain ⟨hm', hh'⟩ := and_or_split hold (by decide) hmask
        rw [BitVec.and_or_distrib_left, or_and_of_and_eq hh' flags, BitVec.and_or_distrib_right, hm',
          hflags]
      refine ⟨h.set_pd hm (by rw [hpage]; exact he), Extends.set_pd h hm (Keeps.merge ?_), ?_⟩
      · exact BitVec.and_zero
      · rw [Vmm.entry_set_self]
        simp only [Granted, userEntry, decide_eq_true_eq, and_ptePresent, and_pteUser] at hp ⊢
        exact ⟨by simp [hp], fun hu => by simp [hu]⟩

/-- An address maps to itself, for user mode too when the flags say so. -/
def MappedTo (L : Layout) (s : Vmm) (v : ℕ) (flags : BitVec 64) : Prop :=
  ∃ r, s.translate L v = some r ∧ r.phys = v ∧ (flags &&& pteUser ≠ 0 → r.user = true)

/-- There is a way for the address, and the flags are granted along it. -/
def Reaches (L : Layout) (s : Vmm) (v : ℕ) (flags : BitVec 64) : Prop :=
  v < 2 ^ 47 ∧ ∃ n m, Path L s v n m ∧ (flags &&& pteUser ≠ 0 → Path.user L s v n m = true)

theorem Reaches.extends (h : Reaches L s v flags) (hx : Extends L s s') : Reaches L s' v flags := by
  obtain ⟨hv, n, m, hp, hu⟩ := h
  obtain ⟨hp', hu'⟩ := hp.extends hx
  exact ⟨hv, n, m, hp', fun hf => hu' (hu hf)⟩

theorem Reaches.mappedTo (h : Reaches L s v flags) (hi : VmmInv L s o) : MappedTo L s v flags := by
  obtain ⟨hv, n, m, hp, hu⟩ := h
  exact ⟨_, hi.translate_eq (.inl hv) hp, Nat.mod_eq_of_lt (by omega), hu⟩

theorem hugePageBase_facts (v : ℕ) :
    2 ^ 21 ∣ hugePageBase v ∧ hugePageBase v ≤ v ∧ v < hugePageBase v + 2 ^ 21 := by
  rw [hugePageBase, hugePageSize_eq]
  omega

theorem index_hugePageBase (v : ℕ) : pml4Index (hugePageBase v) = pml4Index v ∧
    pdptIndex (hugePageBase v) = pdptIndex v ∧ pdIndex (hugePageBase v) = pdIndex v := by
  rw [hugePageBase, hugePageSize_eq]
  simp only [pml4Index, pdptIndex, pdIndex]
  omega

/-- **What `map_huge_identity` does**: the invariant stays, nothing is lost, and on success the
page is mapped. -/
theorem VmmInv.mapHugeIdentity {c : ℕ} (h : VmmInv L s o)
    (hf : hugePageBase c < lowerHalfLimit → FlagsFit (hugePageBase c) flags) :
    (∃ o', VmmInv L (mapHugeIdentity L s c flags).1 o') ∧
      Extends L s (mapHugeIdentity L s c flags).1 ∧
      ((mapHugeIdentity L s c flags).2 = 0 → ∀ v, hugePageBase v = hugePageBase c →
        Reaches L (mapHugeIdentity L s c flags).1 v flags) := by
  rw [Tnu.Mm.mapHugeIdentity]
  dsimp only
  split
  · exact ⟨⟨o, h⟩, Extends.refl L s, fun hr => absurd hr (by simp)⟩
  next hlim =>
  have hlow : hugePageBase c < 2 ^ 47 := by simpa [lowerHalfLimit] using hlim
  split
  · exact ⟨⟨o, h⟩, Extends.refl L s, fun hr => absurd hr (by simp)⟩
  next s₁ hd₁ =>
  obtain ⟨o₁, n, h₁, hx₁, hn₁, ho₁, ht₁, hg₁⟩ := h.descend_pml4 hd₁
  rw [ht₁]
  split
  · exact ⟨⟨o₁, h₁⟩, hx₁, fun hr => absurd hr (by simp)⟩
  next s₂ hd₂ =>
  obtain ⟨o₂, m, h₂, hx₂, hm₂, ho₂, ht₂, hg₂⟩ := h₁.descend_pdpt hn₁ hd₂
  rw [ht₂]
  have hdvd := (hugePageBase_facts c).1
  have hpage : o₂.page m (pdIndex (hugePageBase c)) = hugePageBase c := by
    rw [Slots.page, ho₂, ho₁]
    simp only [pml4Index, pdptIndex, pdIndex]
    omega
  obtain ⟨h₃, hx₃, hg₃⟩ := h₂.mapEntry hm₂ hpage hdvd hlow (hf (not_le.mp hlim))
  generalize Tnu.Mm.mapEntry s₂ (L.pd m) (pdIndex (hugePageBase c)) (hugePageBase c) flags = s₃
    at h₃ hx₃ hg₃ ⊢
  refine ⟨⟨o₂, h₃⟩, (hx₁.trans hx₂).trans hx₃, fun _ v hv => ?_⟩
  obtain ⟨hi4, hi3, hi2⟩ := index_hugePageBase v
  rw [hv] at hi4 hi3 hi2
  have hv' := hugePageBase_facts v
  have hx := hx₂.trans hx₃
  obtain ⟨-, ht4, -⟩ := hx.pml4 _ hg₁.1
  obtain ⟨-, ht3, -⟩ := hx₃.pdpt n (hn₁.trans hx₂.pdptUsed) _ hg₂.1
  have hg4 := hg₁.keeps (hx.pml4 _)
  have hg3 := hg₂.keeps (hx₃.pdpt n (hn₁.trans hx₂.pdptUsed) _)
  rw [hi4] at ht4 hg4 ht₁
  rw [hi3] at ht3 hg3 ht₂
  rw [hi2] at hg₃
  refine ⟨by omega, n, m,
    ⟨hn₁.trans hx.pdptUsed, hm₂.trans hx₃.pdUsed, hg4.1, ?_, hg3.1, ?_, hg₃.1⟩, ?_⟩
  · rw [tableFromEntry_eq_iff.mpr ht4, ht₁]
  · rw [tableFromEntry_eq_iff.mpr ht3, ht₂]
  · intro hu
    simp only [Path.user, hg4.2 hu, hg3.2 hu, hg₃.2 hu, Bool.and_self]

theorem mapHugeIdentity_result (L : Layout) (s : Vmm) (a : ℕ) (flags : BitVec 64) :
    (mapHugeIdentity L s a flags).2 = 0 ∨ (mapHugeIdentity L s a flags).2 = -1 := by
  rw [Tnu.Mm.mapHugeIdentity]
  dsimp only
  split
  · exact .inr rfl
  split
  · exact .inr rfl
  split
  · exact .inr rfl
  · exact .inl rfl

theorem mapLoop_result (L : Layout) (s : Vmm) (a stop : ℕ) (flags : BitVec 64) :
    (mapLoop L s a stop flags).2 = 0 ∨ (mapLoop L s a stop flags).2 = -1 := by
  induction hn : stop - a using Nat.strong_induction_on generalizing s a with
  | h d ih =>
    rw [Tnu.Mm.mapLoop]
    dsimp only
    split
    · split
      · exact .inr rfl
      · rw [hugePageSize_eq]
        exact ih (stop - (a + 2097152)) (by omega) _ _ rfl
    · exact .inl rfl

theorem vmmMapRangeIdentity_result (L : Layout) (s : Vmm) (phys length : ℕ) (flags : BitVec 64) :
    (vmmMapRangeIdentity L s phys length flags).2 = 0 ∨
      (vmmMapRangeIdentity L s phys length flags).2 = -1 := by
  rw [vmmMapRangeIdentity]
  split
  · exact .inl rfl
  split
  · exact .inr rfl
  · exact mapLoop_result L s _ _ flags

/-- **The loop** maps every page from `addr` on, when it comes to its end. -/
theorem VmmInv.mapLoop {stop : ℕ} (h : VmmInv L s o) (hd : 2 ^ 21 ∣ a)
    (hf : ∀ b, 2 ^ 21 ∣ b → a ≤ b → b < stop → FlagsFit b flags) :
    (∃ o', VmmInv L (mapLoop L s a stop flags).1 o') ∧ Extends L s (mapLoop L s a stop flags).1 ∧
      ((mapLoop L s a stop flags).2 = 0 → ∀ v, a ≤ v → hugePageBase v < stop →
        Reaches L (mapLoop L s a stop flags).1 v flags) := by
  have hbase : hugePageBase a = a := by
    rw [hugePageBase, hugePageSize_eq]
    omega
  induction hn : stop - a using Nat.strong_induction_on generalizing s a o with
  | h d ih =>
    rw [Tnu.Mm.mapLoop]
    split
    · next hlt =>
        have hpage : FlagsFit (hugePageBase a) flags := by
          rw [hbase]
          exact hf a hd le_rfl hlt
        obtain ⟨⟨o₁, h₁⟩, hx₁, hr₁⟩ := h.mapHugeIdentity (c := a) fun _ => hpage
        dsimp only
        split
        · exact ⟨⟨o₁, h₁⟩, hx₁, fun hr => absurd hr (by simp)⟩
        · next hok =>
            rw [hugePageSize_eq]
            have hzero : (Tnu.Mm.mapHugeIdentity L s a flags).2 = 0 :=
              (mapHugeIdentity_result L s a flags).resolve_right fun hr => hok (by rw [hr]; decide)
            have hnext : hugePageBase (a + 2097152) = a + 2097152 := by
              rw [hugePageBase, hugePageSize_eq]
              omega
            obtain ⟨hi, hx, hr⟩ := ih (stop - (a + 2097152)) (by omega) h₁ (by omega)
              (fun b hb hab hbs => hf b hb (by omega) hbs) hnext rfl
            refine ⟨hi, hx₁.trans hx, fun hres v hav hvs => ?_⟩
            rcases Nat.lt_or_ge v (a + 2097152) with hv | hv
            · refine (hr₁ hzero v ?_).extends hx
              rw [hbase, hugePageBase, hugePageSize_eq]
              omega
            · exact hr hres v hv hvs
    · next hge =>
        refine ⟨⟨o, h⟩, Extends.refl L s, fun _ v hav hvs => ?_⟩
        exfalso
        rw [hugePageBase, hugePageSize_eq] at hvs
        omega

end Entries

/-! ### Runs -/

/-- The calls of the memory manager. -/
inductive VmmOp
  | mapPage (virt phys : ℕ) (flags : BitVec 64)
  | mapRange (phys length : ℕ) (flags : BitVec 64)

def Vmm.step (L : Layout) (s : Vmm) : VmmOp → Vmm
  | .mapPage virt phys flags => (vmmMapPage L s virt phys flags).1
  | .mapRange phys length flags => (vmmMapRangeIdentity L s phys length flags).1

/-- A range that the defects do not touch: it is turned away, or its end does not wrap and the flags
fit every page of it. -/
def RangeTidy (phys length : ℕ) (flags : BitVec 64) : Prop :=
  length = 0 ∨ rangeEnd phys length < rangeStart phys ∨ lowerHalfLimit < rangeEnd phys length ∨
    (phys + length + hugePageSize - 1 < word ∧
      ∀ b, 2 ^ 21 ∣ b → rangeStart phys ≤ b → b < rangeEnd phys length → FlagsFit b flags)

def VmmOp.Tidy : VmmOp → Prop
  | .mapPage virt phys flags =>
    virt = phys → hugePageBase phys < lowerHalfLimit → FlagsFit (hugePageBase phys) flags
  | .mapRange phys length flags => RangeTidy phys length flags

/-- The states that tidy calls lead to from boot on. -/
inductive Vmm.TidyReached (L : Layout) : Vmm → Prop
  | boot : Vmm.TidyReached L (bootTables L)
  | step {s : Vmm} (op : VmmOp) : Vmm.TidyReached L s → op.Tidy → Vmm.TidyReached L (s.step L op)

theorem VmmInv.mapPage {o : Slots} {virt phys : ℕ} (h : VmmInv L s o)
    (ht : (VmmOp.mapPage virt phys flags).Tidy) :
    (∃ o', VmmInv L (vmmMapPage L s virt phys flags).1 o') ∧
      Extends L s (vmmMapPage L s virt phys flags).1 := by
  rw [vmmMapPage]
  split
  · exact ⟨⟨o, h⟩, Extends.refl L s⟩
  · next heq =>
      obtain ⟨hi, hx, -⟩ := h.mapHugeIdentity (ht (not_not.mp heq))
      exact ⟨hi, hx⟩

theorem VmmInv.mapRange {o : Slots} {phys length : ℕ} (h : VmmInv L s o)
    (ht : RangeTidy phys length flags) :
    (∃ o', VmmInv L (vmmMapRangeIdentity L s phys length flags).1 o') ∧
      Extends L s (vmmMapRangeIdentity L s phys length flags).1 ∧
      ((vmmMapRangeIdentity L s phys length flags).2 = 0 → ∀ v, phys ≤ v → v < phys + length →
        Reaches L (vmmMapRangeIdentity L s phys length flags).1 v flags) := by
  rw [vmmMapRangeIdentity]
  split
  · exact ⟨⟨o, h⟩, Extends.refl L s, fun _ v hv hv' => by omega⟩
  next hl =>
  split
  · exact ⟨⟨o, h⟩, Extends.refl L s, fun hr => absurd hr (by simp)⟩
  next hg =>
  push Not at hg
  obtain ⟨hsum, hfit⟩ : phys + length + hugePageSize - 1 < word ∧
      ∀ b, 2 ^ 21 ∣ b → rangeStart phys ≤ b → b < rangeEnd phys length → FlagsFit b flags := by
    rcases ht with h0 | h1 | h2 | h3
    · exact absurd h0 hl
    · omega
    · omega
    · exact h3
  have hstart := hugePageBase_facts phys
  obtain ⟨hi, hx, hr⟩ := h.mapLoop (a := rangeStart phys) hstart.1 hfit
  refine ⟨hi, hx, fun hres v hv hv' => hr hres v ?_ ?_⟩
  · exact hstart.2.1.trans hv
  · rw [rangeEnd, Nat.mod_eq_of_lt hsum, hugePageBase, hugePageBase, hugePageSize_eq]
    omega

/-- What a caller relies on: the whole range is mapped to itself, and what was mapped before still
is. -/
structure MapsRange (L : Layout) (s : Vmm) (phys length : ℕ) (flags : BitVec 64) : Prop where
  mapped : ∀ v, phys ≤ v → v < phys + length →
    MappedTo L (vmmMapRangeIdentity L s phys length flags).1 v flags
  kept : ∀ v r, s.translate L v = some r →
    ∃ r', (vmmMapRangeIdentity L s phys length flags).1.translate L v = some r' ∧ r'.phys = r.phys

/-- The slots of the tables that `start.S` fills. -/
def bootSlots : Slots := ⟨fun _ => 0, fun _ => (0, 0)⟩

theorem pointsTo_bootEntry (hd : 4096 ∣ t) (ht : t < 2 ^ 52) :
    PointsTo (BitVec.ofNat 64 t ||| 3) t := by
  have h := pointsTo_newEntry hd ht 0
  rwa [BitVec.or_assoc, BitVec.or_assoc, show ptePresent ||| (pteWritable ||| 0 &&& pteUser) = 3 by
    decide] at h

theorem vmmInv_boot (L : Layout) : VmmInv L (bootTables L) bootSlots where
  pdptUsed := Nat.zero_le 8
  pdUsed := Nat.zero_le 64
  pml4Entry := by
    intro i hp
    obtain ⟨hd, hlt⟩ := L.pdpt_frame (n := 0) (by omega)
    have h3 : L.pml4Table ≠ L.pdptTable := L.pml4_ne_pdpt (n := 0) (by omega)
    have h2 : L.pml4Table ≠ L.pdTable := L.pml4_ne_pd (n := 0) (by omega)
    by_cases hi : i = 0
    · refine ⟨0, le_rfl, ?_, hi.symm⟩
      simp only [bootTables, hi, and_self, if_true]
      exact pointsTo_bootEntry hd hlt
    · simp [bootTables, h3, h2, hi] at hp
  pdptEntry := by
    intro n hn j hp
    obtain rfl := Nat.le_zero.mp hn
    obtain ⟨hd, hlt⟩ := L.pd_frame (m := 0) (by omega)
    have h4 : L.pdptTable ≠ L.pml4Table := (L.pml4_ne_pdpt (n := 0) (by omega)).symm
    have h2 : L.pdptTable ≠ L.pdTable :=
      (L.pd_ne_pdpt (m := 0) (n := 0) (by omega) (by omega)).symm
    by_cases hj : j = 0
    · refine ⟨0, le_rfl, ?_, by rw [hj]; rfl⟩
      simp only [bootTables, Layout.pdpt, h4, hj, false_and, and_self, if_true, if_false]
      exact pointsTo_bootEntry hd hlt
    · simp [bootTables, Layout.pdpt, h4, h2, hj] at hp
  pdEntry := by
    intro m hm k hp
    obtain rfl := Nat.le_zero.mp hm
    have h4 : L.pdTable ≠ L.pml4Table := (L.pml4_ne_pd (n := 0) (by omega)).symm
    have h3 : L.pdTable ≠ L.pdptTable := L.pd_ne_pdpt (m := 0) (n := 0) (by omega) (by omega)
    by_cases hk : k < 512
    · have hmask := ofNat_and_hugeFrameMask (a := k * 2 ^ 21) (by omega) (by omega)
      have hpage : bootSlots.page 0 k = k * 2 ^ 21 := by simp [bootSlots, Slots.page]
      simp only [bootTables, Layout.pd, h4, h3, hk, false_and, and_self, if_true, if_false, hpage]
      rw [show (0x83 : BitVec 64) = 3 ||| pteHuge by decide, ← BitVec.or_assoc,
        BitVec.and_or_distrib_left, or_and_right, or_and_of_eq_zero (by decide),
        or_and_of_eq_zero (by decide), hmask]
    · simp [bootTables, Layout.pd, h4, h3, hk] at hp

/-- **The invariant of every state** that tidy calls lead to. -/
theorem Vmm.TidyReached.inv (h : Vmm.TidyReached L s) : ∃ o, VmmInv L s o := by
  induction h with
  | boot => exact ⟨bootSlots, vmmInv_boot L⟩
  | @step s op _ ht ih =>
    obtain ⟨o, hi⟩ := ih
    cases op with
    | mapPage virt phys flags => exact (hi.mapPage ht).1
    | mapRange phys length flags => exact (hi.mapRange ht).1

/-- **A tidy call after tidy calls**: when it reports success, its whole range is mapped to itself,
and everything that was mapped still is. -/
theorem mapsRange_of_tidyReached {phys length : ℕ} (h : Vmm.TidyReached L s)
    (ht : RangeTidy phys length flags)
    (hr : (vmmMapRangeIdentity L s phys length flags).2 = 0) :
    MapsRange L s phys length flags := by
  obtain ⟨o, hi⟩ := h.inv
  obtain ⟨⟨o', hi'⟩, hx, hm⟩ := hi.mapRange ht
  exact ⟨fun v hv hv' => (hm hr v hv hv').mappedTo hi', fun v r hv => hi.translate_extends hi' hx hv⟩

def layoutAt1MiB : Layout where
  pml4Table := 0x101000
  pdptTable := 0x102000
  pdTable := 0x103000
  extraPdptTables := 0x104000
  extraPdTables := 0x10c000
  aligned := by decide
  fits := by decide
  apart := by decide

/-- A page of user memory at 1.25 GiB. -/
theorem mapsRange_of_tidyReached_page :
    MapsRange layoutAt1MiB (bootTables layoutAt1MiB) 0x50000000 0x1000 pteUser := by
  have hs : rangeStart 0x50000000 = 0x50000000 := by norm_num [rangeStart, hugePageBase]
  have he : rangeEnd 0x50000000 0x1000 = 0x50200000 := by norm_num [rangeEnd, hugePageBase]
  refine mapsRange_of_tidyReached .boot (.inr (.inr (.inr ⟨by norm_num, ?_⟩))) ?_
  · intro b hb hlo hhi
    rw [hs] at hlo
    rw [he] at hhi
    obtain rfl : b = 0x50000000 := by omega
    rw [FlagsFit]
    decide
  · have hmap : (mapHugeIdentity layoutAt1MiB (bootTables layoutAt1MiB) 0x50000000 pteUser).2 = 0 := by
      decide +kernel
    rw [vmmMapRangeIdentity, hs, he, if_neg (by norm_num), if_neg (by norm_num), mapLoop,
      if_pos (by norm_num), if_neg (by rw [hmap]; norm_num), mapLoop, if_neg (by norm_num)]

/-- **A range that wraps around**: the call reports success and maps nothing of it. -/
theorem not_mapsRange_of_wrap :
    (vmmMapRangeIdentity layoutAt1MiB (bootTables layoutAt1MiB)
        0x50000000 0xffffffffffffffff 0).2 = 0 ∧
      ¬ MapsRange layoutAt1MiB (bootTables layoutAt1MiB) 0x50000000 0xffffffffffffffff 0 := by
  have hs : rangeStart 0x50000000 = 0x50000000 := by norm_num [rangeStart, hugePageBase]
  have he : rangeEnd 0x50000000 0xffffffffffffffff = 0x50000000 := by
    norm_num [rangeEnd, hugePageBase]
  have hcall : vmmMapRangeIdentity layoutAt1MiB (bootTables layoutAt1MiB)
      0x50000000 0xffffffffffffffff 0 = (bootTables layoutAt1MiB, 0) := by
    rw [vmmMapRangeIdentity, hs, he, if_neg (by norm_num), if_neg (by norm_num), mapLoop,
      if_neg (lt_irrefl _)]
  have hnone : (bootTables layoutAt1MiB).translate layoutAt1MiB 0x50000000 = none := by
    decide +kernel
  refine ⟨by rw [hcall], fun h => ?_⟩
  obtain ⟨r, hr, -⟩ := h.mapped 0x50000000 le_rfl (by norm_num)
  rw [hcall, hnone] at hr
  cases hr

end Tnu.Mm
