/-
**Mapping where user mode is already at home.**

`vmm_map_range_identity` on a range whose upper two levels are there and open to user mode: it takes
no table from the pools, so it cannot fail, and the only entries it touches are those of the pages of
the range.  The loader of a program leaves the tables in such a state for the whole window that the
program may use.

Main result:

* `mapsWithin_range` — **a range**: success, and the translation of every address outside its
  pages is what it was.
-/

import Tnu.Mm.Paging

set_option autoImplicit false

namespace Tnu.Mm

variable {L : Layout} {s s' : Vmm} {o : Slots} {e flags : BitVec 64} {i k n m v w a : ℕ}

/-! ### One page -/

/-- The upper two levels of the walk of `v`, through the tables `n` and `m`, open to user mode. -/
structure UserWay (L : Layout) (s : Vmm) (v n m : ℕ) : Prop where
  pdptUsed : n ≤ s.nextPdptTable
  pdUsed : m ≤ s.nextPdTable
  pml4 : s.entry L.pml4Table (pml4Index v) &&& ptePresent ≠ 0
  pml4User : userEntry (s.entry L.pml4Table (pml4Index v)) = true
  toPdpt : tableFromEntry (s.entry L.pml4Table (pml4Index v)) = L.pdpt n
  pdpt : s.entry (L.pdpt n) (pdptIndex v) &&& ptePresent ≠ 0
  pdptUser : userEntry (s.entry (L.pdpt n) (pdptIndex v)) = true
  toPd : tableFromEntry (s.entry (L.pdpt n) (pdptIndex v)) = L.pd m

theorem Reaches.userWay (h : Reaches L s v flags) (hu : flags &&& pteUser ≠ 0) :
    ∃ n m, UserWay L s v n m := by
  obtain ⟨-, n, m, hp, huser⟩ := h
  have hflags := huser hu
  rw [Path.user, Bool.and_eq_true, Bool.and_eq_true] at hflags
  exact ⟨n, m, hp.pdptUsed, hp.pdUsed, hp.pml4, hflags.1.1, hp.toPdpt, hp.pdpt, hflags.1.2, hp.toPd⟩

theorem UserWay.congr (h : UserWay L s v n m) (hvw : v / 2 ^ 30 = w / 2 ^ 30) : UserWay L s w n m := by
  have h4 : pml4Index w = pml4Index v := by simp only [pml4Index]; omega
  have h3 : pdptIndex w = pdptIndex v := by simp only [pdptIndex]; omega
  obtain ⟨hn, hm, hp4, hu4, ht4, hp3, hu3, ht3⟩ := h
  exact ⟨hn, hm, by rwa [h4], by rwa [h4], by rwa [h4], by rwa [h3], by rwa [h3], by rwa [h3]⟩

theorem UserWay.extends (h : UserWay L s v n m) (hx : Extends L s s') : UserWay L s' v n m := by
  obtain ⟨h4, h4t, h4u⟩ := hx.pml4 _ h.pml4
  obtain ⟨h3, h3t, h3u⟩ := hx.pdpt n h.pdptUsed _ h.pdpt
  exact ⟨h.pdptUsed.trans hx.pdptUsed, h.pdUsed.trans hx.pdUsed, h4, h4u h.pml4User,
    (tableFromEntry_eq_iff.mpr h4t).trans h.toPdpt, h3, h3u h.pdptUser,
    (tableFromEntry_eq_iff.mpr h3t).trans h.toPd⟩

theorem Vmm.set_entry (s : Vmm) (t i : ℕ) : s.set t i (s.entry t i) = s := by
  cases s with
  | mk entry np nd =>
    simp only [Vmm.set, Vmm.mk.injEq, and_self, and_true]
    funext t' i'
    split
    · next h => rw [h.1, h.2]
    · rfl

theorem or_user_of_userEntry (h : userEntry e = true) (flags : BitVec 64) :
    e ||| (flags &&& pteUser) = e := by
  have hp : pteUser = BitVec.twoPow 64 2 := by decide
  rw [userEntry, decide_eq_true_eq, and_pteUser] at h
  refine BitVec.eq_of_getLsbD_eq fun i hi => ?_
  rw [BitVec.getLsbD_or, BitVec.getLsbD_and, hp, BitVec.getLsbD_twoPow]
  by_cases h2 : 2 = i
  · rw [← h2, h, Bool.true_or]
  · simp [h2]

theorem descend_of_user {alloc : Vmm → Option (Vmm × ℕ)} {t : ℕ}
    (hp : s.entry t i &&& ptePresent ≠ 0) (hu : userEntry (s.entry t i) = true) :
    descend alloc s t i flags = some s := by
  rw [descend, if_neg hp, or_user_of_userEntry hu, Vmm.set_entry]

/-- **One page on a user way**: the call succeeds and sets the entry of the page. -/
theorem UserWay.mapHugeIdentity (h : UserWay L s a n m) (hd : 2 ^ 21 ∣ a) (ha : a < 2 ^ 47) :
    mapHugeIdentity L s a flags = (mapEntry s (L.pd m) (pdIndex a) a flags, 0) := by
  have hbase : hugePageBase a = a := by
    rw [hugePageBase, hugePageSize_eq]
    omega
  have hlim : ¬ lowerHalfLimit ≤ a := by rw [show lowerHalfLimit = 2 ^ 47 by norm_num]; omega
  rw [Tnu.Mm.mapHugeIdentity, hbase]
  dsimp only
  rw [if_neg hlim, descend_of_user h.pml4 h.pml4User]
  dsimp only
  rw [h.toPdpt, descend_of_user h.pdpt h.pdptUser]
  dsimp only
  rw [h.toPd]

/-! ### The frame -/

/-- Two states that differ in one entry of the third level at most. -/
structure SameBut (L : Layout) (s s' : Vmm) (m i : ℕ) : Prop where
  pdptUsed : s'.nextPdptTable = s.nextPdptTable
  pdUsed : s'.nextPdTable = s.nextPdTable
  entry : ∀ t j, ¬ (t = L.pd m ∧ j = i) → s'.entry t j = s.entry t j

theorem SameBut.symm (h : SameBut L s s' m i) : SameBut L s' s m i :=
  ⟨h.pdptUsed.symm, h.pdUsed.symm, fun t j hne => (h.entry t j hne).symm⟩

theorem sameBut_mapEntry (L : Layout) (s : Vmm) (m i a : ℕ) (flags : BitVec 64) :
    SameBut L s (mapEntry s (L.pd m) i a flags) m i := by
  rw [mapEntry]
  split
  · exact ⟨rfl, rfl, fun t j hne => by rw [Vmm.entry_set, if_neg hne]⟩
  · exact ⟨rfl, rfl, fun t j hne => by rw [Vmm.entry_set, if_neg hne]⟩

theorem SameBut.path {n' m' : ℕ} (h : SameBut L s s' m i) (hi : VmmInv L s o) (hm : m ≤ s.nextPdTable)
    (hpage : o.page m i = a) (hc : Canonical v) (ha : a < 2 ^ 46) (hout : v < a ∨ a + 2 ^ 21 ≤ v)
    (hp : Path L s v n' m') : Path L s' v n' m' ∧ Path.user L s' v n' m' = Path.user L s v n' m' := by
  have hn' := hp.pdptUsed.trans hi.pdptUsed
  have hm' := hp.pdUsed.trans hi.pdUsed
  have h4 := h.entry L.pml4Table (pml4Index v) fun hh => L.pml4_ne_pd (hm.trans hi.pdUsed) hh.1
  have h3 := h.entry (L.pdpt n') (pdptIndex v) fun hh =>
    L.pd_ne_pdpt (hm.trans hi.pdUsed) hn' hh.1.symm
  have h2 := h.entry (L.pd m') (pdIndex v) fun hh => by
    -- the same entry would mean the same page
    obtain ⟨ht, hidx⟩ := hh
    obtain rfl := L.pd_inj hm' (hm.trans hi.pdUsed) ht
    obtain ⟨n'', hn'', ⟨ht4, -⟩, ho4⟩ := hi.pml4Entry _ hp.pml4
    obtain rfl := L.pdpt_inj (hn''.trans hi.pdptUsed) hn' (ht4.symm.trans hp.toPdpt)
    obtain ⟨m'', hm'', ⟨ht3, -⟩, ho3⟩ := hi.pdptEntry _ hn'' _ hp.pdpt
    obtain rfl := L.pd_inj (hm''.trans hi.pdUsed) hm' (ht3.symm.trans hp.toPd)
    have hv := page_eq_of_slots ho4 ho3
    rw [hidx, hpage] at hv
    rcases hc with hlow | hhigh <;> omega
  refine ⟨⟨by rw [h.pdptUsed]; exact hp.pdptUsed, by rw [h.pdUsed]; exact hp.pdUsed, ?_, ?_, ?_, ?_, ?_⟩,
    ?_⟩
  · rw [h4]; exact hp.pml4
  · rw [h4]; exact hp.toPdpt
  · rw [h3]; exact hp.pdpt
  · rw [h3]; exact hp.toPd
  · rw [h2]; exact hp.pd
  · rw [Path.user, Path.user, h4, h3, h2]

/-- **The frame of one entry**: outside its page nothing moves. -/
theorem SameBut.translate (h : SameBut L s s' m i) (hi : VmmInv L s o) (hi' : VmmInv L s' o)
    (hm : m ≤ s.nextPdTable) (hpage : o.page m i = a) (ha : a < 2 ^ 46)
    (hout : v < a ∨ a + 2 ^ 21 ≤ v) : s'.translate L v = s.translate L v := by
  cases hs : s.translate L v with
  | some r =>
    obtain ⟨hc, n', m', hp⟩ := hi.exists_path hs
    obtain ⟨hp', hu⟩ := h.path hi hm hpage hc ha hout hp
    rw [← hs, hi.translate_eq hc hp, hi'.translate_eq hc hp', hu]
  | none =>
    cases hs' : s'.translate L v with
    | none => rfl
    | some r =>
      obtain ⟨hc, n', m', hp⟩ := hi'.exists_path hs'
      obtain ⟨hp', -⟩ := h.symm.path hi' (by rwa [h.pdUsed]) hpage hc ha hout hp
      rw [hi.translate_eq hc hp'] at hs
      cases hs

/-! ### A range -/

/-- The flags of a mapping for user mode: `VMM_FLAG_WRITABLE | VMM_FLAG_USER`. -/
abbrev vmmUserFlags : BitVec 64 := pteWritable ||| pteUser

theorem flagsFit_user (hd : 2 ^ 21 ∣ a) (ha : a < 2 ^ 47) : FlagsFit a vmmUserFlags := by
  rw [FlagsFit, or_and_of_eq_zero (by decide)]
  exact ofNat_and_hugeFrameMask hd ha

/-- The tables are in order, and every address below `top` has its user way. -/
def OpenBelow (L : Layout) (s : Vmm) (top : ℕ) : Prop :=
  (∃ o, VmmInv L s o) ∧ ∀ v < top, ∃ n m, UserWay L s v n m

/-- What a mapping on user ways comes to: it succeeds, the tables stay in order, and outside the
pages from `a` to below `stop` nothing moves. -/
structure MapsWithin (L : Layout) (s : Vmm) (r : Vmm × ℤ) (top a stop : ℕ) : Prop where
  result : r.2 = 0
  opened : OpenBelow L r.1 top
  frame : ∀ v, v < a ∨ stop ≤ v → r.1.translate L v = s.translate L v

variable {top stop : ℕ}

/-- **One page below the top.** -/
theorem mapsWithin_page (h : OpenBelow L s top) (htop : top ≤ 2 ^ 46) (hd : 2 ^ 21 ∣ a) (ha : a < top) :
    MapsWithin L s (mapHugeIdentity L s a vmmUserFlags) top a (a + 2 ^ 21) := by
  obtain ⟨⟨o, hi⟩, hway⟩ := h
  obtain ⟨n, m, hw⟩ := hway a ha
  have ha47 : a < 2 ^ 47 := by omega
  obtain ⟨n', hn', ⟨ht4, -⟩, ho4⟩ := hi.pml4Entry _ hw.pml4
  obtain rfl := L.pdpt_inj (hn'.trans hi.pdptUsed) (hw.pdptUsed.trans hi.pdptUsed)
    (ht4.symm.trans hw.toPdpt)
  obtain ⟨m', hm', ⟨ht3, -⟩, ho3⟩ := hi.pdptEntry _ hn' _ hw.pdpt
  obtain rfl := L.pd_inj (hm'.trans hi.pdUsed) (hw.pdUsed.trans hi.pdUsed) (ht3.symm.trans hw.toPd)
  have hpage : o.page m' (pdIndex a) = a := by
    have := page_eq_of_slots ho4 ho3
    omega
  obtain ⟨hi', hx, -⟩ := hi.mapEntry hm' hpage hd ha47 (flagsFit_user hd ha47)
  rw [hw.mapHugeIdentity hd ha47]
  refine ⟨rfl, ⟨⟨o, hi'⟩, fun v hv => ?_⟩, fun v hv => ?_⟩
  · obtain ⟨n'', m'', hw'⟩ := hway v hv
    exact ⟨n'', m'', hw'.extends hx⟩
  · exact (sameBut_mapEntry L s m' _ a _).translate hi hi' hm' hpage (by omega) hv

/-- **The loop below the top**, by induction on what is left of the range. -/
theorem mapsWithin_loop (h : OpenBelow L s top) (htop : top ≤ 2 ^ 46) (hd : 2 ^ 21 ∣ a)
    (hds : 2 ^ 21 ∣ stop) (hstop : stop ≤ top) :
    MapsWithin L s (mapLoop L s a stop vmmUserFlags) top a stop := by
  induction hn : stop - a using Nat.strong_induction_on generalizing s a with
  | h d ih =>
    rw [mapLoop]
    split
    · next hlt =>
        have hpage := mapsWithin_page h htop hd (by omega : a < top)
        dsimp only
        rw [if_neg (by rw [hpage.result]; norm_num), hugePageSize_eq]
        have hrest := ih (stop - (a + 2097152)) (by omega) hpage.opened
          (by omega : 2 ^ 21 ∣ a + 2097152) rfl
        refine ⟨hrest.result, hrest.opened, fun v hv => ?_⟩
        rw [hrest.frame v (by omega), hpage.frame v (by omega)]
    · exact ⟨rfl, h, fun _ _ => rfl⟩

theorem rangeEnd_eq {phys length : ℕ} (h : phys + length ≤ 2 ^ 46) :
    rangeEnd phys length = 2 ^ 21 * ((phys + length + 2 ^ 21 - 1) / 2 ^ 21) := by
  have hsum : (phys + length + hugePageSize - 1) % word = phys + length + hugePageSize - 1 :=
    Nat.mod_eq_of_lt (by rw [hugePageSize_eq, word_eq]; omega)
  rw [rangeEnd, hsum]
  rfl

/-- **A range below the top.** -/
theorem mapsWithin_range {phys length : ℕ} (h : OpenBelow L s top) (htop : top ≤ 2 ^ 46)
    (hdt : 2 ^ 21 ∣ top) (hlen : 0 < length) (hfit : phys + length ≤ top) :
    MapsWithin L s (vmmMapRangeIdentity L s phys length vmmUserFlags) top
      (rangeStart phys) (rangeEnd phys length) := by
  have hend := rangeEnd_eq (hfit.trans htop)
  have hstart : rangeStart phys = 2 ^ 21 * (phys / 2 ^ 21) := rfl
  have hlimit : lowerHalfLimit = 2 ^ 47 := by norm_num
  rw [vmmMapRangeIdentity, if_neg hlen.ne', if_neg (by omega)]
  exact mapsWithin_loop h htop (by omega) (by omega) (by omega)

end Tnu.Mm
