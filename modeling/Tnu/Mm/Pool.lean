/-
**The pool of frames, from the memory map.**

`pmm_init` rounds the largest region of the map to pages and skips the reserved area, all with
64-bit arithmetic that can wrap.  This module says what the bounds of the pool are in every case,
and when they are those of a pool that can be handed out.

Main definitions:

* `pageCeil`, `reservedTop` — rounding, and the reserved area.

Main results:

* `fresh_of_pmmInit` — **`pmm_init` sets up the pool of the largest region**;
* `exists_pmmInit_iff` — it returns exactly when the walk over the map ends;
* `poolOf_eq`, `poolUsable_iff` — the pool, case by case.
-/

import Tnu.Mm.Pmm

set_option autoImplicit false

namespace Tnu.Mm

/-! ### Rounding -/

def pageCeil (n : ℕ) : ℕ := (n + 4095) / 4096 * 4096

abbrev lastPage : ℕ := 0xfffffffffffff000

variable (addr : ℕ) {m n len : ℕ}

theorem alignUp_of_le (h : n ≤ lastPage) : alignUp n pageSize = pageCeil n := by
  have hl : lastPage = 0xfffffffffffff000 := rfl
  rw [alignUp, pageCeil, word_eq, show pageSize = 4096 from rfl]
  omega

theorem alignUp_of_gt (h : lastPage < n) (hn : n < word) : alignUp n pageSize = 0 := by
  have hl : lastPage = 0xfffffffffffff000 := rfl
  rw [word_eq] at hn
  rw [alignUp, word_eq, show pageSize = 4096 from rfl]
  omega

theorem le_pageCeil (n : ℕ) : n ≤ pageCeil n := by
  rw [pageCeil]
  omega

theorem pageCeil_lt (n : ℕ) : pageCeil n < n + 4096 := by
  rw [pageCeil]
  omega

theorem dvd_pageCeil (n : ℕ) : 4096 ∣ pageCeil n := Dvd.intro_left _ rfl

theorem pageCeil_mono (h : m ≤ n) : pageCeil m ≤ pageCeil n :=
  Nat.mul_le_mul_right _ (Nat.div_le_div_right (by omega))

theorem pageCeil_le (hn : 4096 ∣ n) (h : m ≤ n) : pageCeil m ≤ n := by
  rw [pageCeil]
  omega

theorem pageCeil_of_dvd (h : 4096 ∣ n) : pageCeil n = n :=
  le_antisymm (pageCeil_le h le_rfl) (le_pageCeil n)

/-! ### The bounds of the pool -/

def reservedTop (k : KernelImage) (boot : BootInfo) : ℕ :=
  max k.kernelEnd (max boot.rootfs.modEnd.toNat boot.installImage.modEnd.toNat)

variable {k : KernelImage} {boot : BootInfo} {s e top c l : ℕ}

theorem reservedTop_le (k : KernelImage) (boot : BootInfo) :
    0x100000 ≤ reservedTop k boot ∧ reservedTop k boot ≤ lastPage := by
  have hl : lastPage = 0xfffffffffffff000 := rfl
  have h₁ := k.linked
  have h₂ := k.fits
  have h₃ := boot.rootfs.modEnd.toNat_lt
  have h₄ := boot.installImage.modEnd.toNat_lt
  rw [word_eq, show pageSize = 4096 from rfl] at h₂
  rw [reservedTop]
  omega

theorem pageCeil_max (a b : ℕ) :
    (if b ≠ 0 ∧ pageCeil a < b then pageCeil b else pageCeil a) = pageCeil (max a b) := by
  split_ifs with h
  · rw [max_eq_right ((le_pageCeil a).trans h.2.le)]
  · refine le_antisymm (pageCeil_mono (le_max_left a b)) (pageCeil_le (dvd_pageCeil a) ?_)
    refine max_le (le_pageCeil a) ?_
    by_contra hlt
    exact h ⟨by omega, by omega⟩

/-- **The reserved area** ends on the page boundary behind the kernel and both modules. -/
theorem reservedEnd_eq (k : KernelImage) (boot : BootInfo) :
    reservedEnd k boot = pageCeil (reservedTop k boot) := by
  have htop := (reservedTop_le k boot).2
  rw [reservedTop, max_le_iff, max_le_iff] at htop
  rw [reservedEnd, alignUp_of_le htop.1, alignUp_of_le htop.2.1, alignUp_of_le htop.2.2]
  rw [pageCeil_max, pageCeil_max, max_assoc, reservedTop]

theorem region_lt (boot : BootInfo) : (region boot).2 < word := by
  rw [region]
  cases boot.mmap with
  | none =>
    have := boot.memUpperKib.toNat_lt
    dsimp only
    rw [word_eq]
    omega
  | some t =>
    dsimp only
    cases t.largest with
    | none => simp
    | some m => exact m.limit_lt

theorem region_start (boot : BootInfo) :
    region boot = (0, 0) ∨ 0x100000 ≤ (region boot).1 ∧ 0x100000 < (region boot).2 := by
  rw [region]
  cases boot.mmap with
  | none => exact .inr ⟨by norm_num, by norm_num⟩
  | some t =>
    dsimp only
    cases hm : t.largest with
    | none => exact .inl (by simp)
    | some m =>
      have husable := List.of_mem_filter (List.argmax_mem hm)
      rw [MmapEntry.usable, decide_eq_true_eq] at husable
      exact .inr ⟨le_max_right _ _, husable.2.1⟩

theorem region_start_lt (boot : BootInfo) : (region boot).1 < word := by
  rw [region]
  cases boot.mmap with
  | none => norm_num
  | some t =>
    dsimp only
    cases hm : t.largest with
    | none => simp
    | some m =>
      obtain ⟨i, -, hi⟩ := List.mem_map.1 (List.mem_of_mem_filter (List.argmax_mem hm))
      have haddr : m.addr < word := hi ▸ entryAt_addr_lt t _
      exact max_lt haddr (by norm_num)

/-- The bounds `pmm_init` computes from a region that starts at `s` and ends at `e`, when the
kernel and the modules end below `top`. -/
def poolOf (s e top : ℕ) : ℕ × ℕ :=
  let cursor := alignUp s pageSize
  let cursor := if cursor < pageCeil top ∧ pageCeil top < e then pageCeil top else cursor
  (cursor, if alignUp e pageSize < cursor then cursor else alignUp e pageSize)

/-- What is set up for the first call. -/
structure Fresh (s : Pmm) (c l : ℕ) : Prop where
  cursor : s.frameCursor = c
  limit : s.frameLimit = l
  stack : s.freeStack = []
  allocated : s.stats.allocatedFrames = 0
  estimate : s.stats.freeFramesEstimate = (l - c) / 4096

/-- **`pmm_init` sets up the pool of the region.** -/
theorem fresh_of_pmmInit {fuel : ℕ} {p : Pmm} (h : pmmInit fuel k boot = some p) :
    Fresh p (poolOf (region boot).1 (region boot).2 (reservedTop k boot)).1
      (poolOf (region boot).1 (region boot).2 (reservedTop k boot)).2 := by
  rw [pmmInit] at h
  obtain ⟨⟨start, len, stats⟩, hfind, rfl⟩ := Option.map_eq_some_iff.1 h
  obtain ⟨hs, he⟩ := findRegion_region hfind
  have hbounds : frameBounds start len (reservedEnd k boot) =
      poolOf (region boot).1 (region boot).2 (reservedTop k boot) := by
    rw [frameBounds, poolOf, he, hs, reservedEnd_eq]
  have hstats := allocated_findRegion hfind
  dsimp only at hstats ⊢
  rw [← hbounds]
  exact ⟨rfl, rfl, rfl, hstats, rfl⟩

/-- The pool consists of whole pages of the address space. -/
structure PoolShape (c l : ℕ) : Prop where
  dvd_cursor : 4096 ∣ c
  dvd_limit : 4096 ∣ l
  le : c ≤ l
  le_lastPage : l ≤ lastPage

theorem dvd_alignUp (n : ℕ) : 4096 ∣ alignUp n pageSize := Dvd.intro_left _ rfl

theorem alignUp_le (n : ℕ) : alignUp n pageSize ≤ lastPage := by
  have hl : lastPage = 0xfffffffffffff000 := rfl
  rw [alignUp, word_eq, show pageSize = 4096 from rfl]
  omega

theorem poolShape_poolOf (s e : ℕ) (htop : top ≤ lastPage) :
    PoolShape (poolOf s e top).1 (poolOf s e top).2 := by
  have hpage : pageCeil top ≤ lastPage := pageCeil_le ⟨0xfffffffffffff, rfl⟩ htop
  have hcursor : 4096 ∣ (poolOf s e top).1 ∧ (poolOf s e top).1 ≤ lastPage := by
    rw [poolOf]
    dsimp only
    split_ifs
    · exact ⟨dvd_pageCeil top, hpage⟩
    · exact ⟨dvd_alignUp s, alignUp_le s⟩
  have hlimit : (poolOf s e top).2 =
      if alignUp e pageSize < (poolOf s e top).1 then (poolOf s e top).1 else alignUp e pageSize :=
    rfl
  refine ⟨hcursor.1, ?_, ?_, ?_⟩
  all_goals
    rw [hlimit]
    split_ifs with hlt
  · exact hcursor.1
  · exact dvd_alignUp e
  · exact le_rfl
  · exact not_lt.1 hlt
  · exact hcursor.2
  · exact alignUp_le e

/-! ### From the region to the pool -/

/-- The pool can be handed out: its frames are not zero, and its end is not the last page, behind
which the cursor wraps. -/
structure PoolUsable (c l : ℕ) : Prop extends PoolShape c l where
  pos : c = 0 → l = 0
  ne_lastPage : l ≠ lastPage

/-- The pool of a region that starts at `s` and ends at `e`, above an area reserved up to `top`,
does not start at zero and does not end at the last page. -/
def PoolFits (s e top : ℕ) : Prop :=
  if lastPage < e then pageCeil top ≠ lastPage ∧ pageCeil s ≠ lastPage
  else if s ≤ e then pageCeil e ≠ lastPage
  else if s ≤ lastPage then pageCeil s ≠ lastPage
  else pageCeil top < e ∧ pageCeil e ≠ lastPage

instance (s e top : ℕ) : Decidable (PoolFits s e top) := by
  unfold PoolFits
  infer_instance

theorem poolOf_eq (htop : top ≤ lastPage) (hs : s < word) (he : e < word) :
    poolOf s e top =
      if lastPage < e then
        if s ≤ lastPage ∧ pageCeil top ≤ pageCeil s then (pageCeil s, pageCeil s)
        else (pageCeil top, pageCeil top)
      else if s ≤ e then
        (if pageCeil s < pageCeil top ∧ pageCeil top < e then pageCeil top else pageCeil s, pageCeil e)
      else if s ≤ lastPage then (pageCeil s, pageCeil s)
      else (if 0 < pageCeil top ∧ pageCeil top < e then pageCeil top else 0, pageCeil e) := by
  have hlast : lastPage = 0xfffffffffffff000 := rfl
  have hR : pageCeil top ≤ lastPage := pageCeil_le ⟨0xfffffffffffff, rfl⟩ htop
  have hs' := le_pageCeil s
  have he' := le_pageCeil e
  have hmono : s ≤ e → pageCeil s ≤ pageCeil e := fun h => pageCeil_mono h
  have hmono' : e ≤ s → pageCeil e ≤ pageCeil s := fun h => pageCeil_mono h
  have ha : s ≤ lastPage → alignUp s pageSize = pageCeil s := alignUp_of_le
  have ha' : lastPage < s → alignUp s pageSize = 0 := fun h => alignUp_of_gt h hs
  have hb : e ≤ lastPage → alignUp e pageSize = pageCeil e := alignUp_of_le
  have hb' : lastPage < e → alignUp e pageSize = 0 := fun h => alignUp_of_gt h he
  rw [poolOf]
  generalize alignUp s pageSize = a at ha ha'
  generalize alignUp e pageSize = b at hb hb'
  by_cases h₁ : lastPage < e
  · -- the limit wraps to zero, and the cursor is the limit
    obtain rfl := hb' h₁
    rw [if_pos h₁]
    by_cases h₂ : s ≤ lastPage ∧ pageCeil top ≤ pageCeil s
    · rw [if_pos h₂]
      obtain rfl := ha h₂.1
      refine Prod.ext ?_ ?_ <;> dsimp only <;> split_ifs <;> omega
    · rw [if_neg h₂]
      refine Prod.ext ?_ ?_ <;> dsimp only <;> split_ifs <;> omega
  obtain rfl := hb (by omega)
  rw [if_neg h₁]
  by_cases h₂ : s ≤ e
  · obtain rfl := ha (by omega)
    rw [if_pos h₂]
    refine Prod.ext ?_ ?_ <;> dsimp only
    split_ifs <;> omega
  rw [if_neg h₂]
  by_cases h₃ : s ≤ lastPage
  · obtain rfl := ha h₃
    rw [if_pos h₃]
    refine Prod.ext ?_ ?_ <;> dsimp only <;> split_ifs <;> omega
  · obtain rfl := ha' (by omega)
    rw [if_neg h₃]
    refine Prod.ext ?_ ?_ <;> dsimp only
    split_ifs <;> omega

/-- **The pool can be handed out exactly when its region fits.** -/
theorem poolUsable_iff (htop : 0x100000 ≤ top ∧ top ≤ lastPage) (hs : s < word) (he : e < word)
    (hreg : s = 0 ∧ e = 0 ∨ 0x100000 ≤ s ∧ 0x100000 < e) :
    PoolUsable (poolOf s e top).1 (poolOf s e top).2 ↔ PoolFits s e top := by
  have hlast : lastPage = 0xfffffffffffff000 := rfl
  have hR : pageCeil top ≤ lastPage := pageCeil_le ⟨0xfffffffffffff, rfl⟩ htop.2
  have htop' := le_pageCeil top
  have hs' := le_pageCeil s
  have he' := le_pageCeil e
  have hs_le : s ≤ lastPage → pageCeil s ≤ lastPage := pageCeil_le ⟨0xfffffffffffff, rfl⟩
  have he_zero : e = 0 → pageCeil e = 0 := by
    rintro rfl
    exact pageCeil_of_dvd (dvd_zero _)
  have hshape := poolShape_poolOf s e htop.2
  have husable : PoolUsable (poolOf s e top).1 (poolOf s e top).2 ↔
      ((poolOf s e top).1 = 0 → (poolOf s e top).2 = 0) ∧ (poolOf s e top).2 ≠ lastPage :=
    ⟨fun h => ⟨h.pos, h.ne_lastPage⟩, fun h => ⟨hshape, h.1, h.2⟩⟩
  rw [husable, poolOf_eq htop.2 hs he, PoolFits]
  split_ifs with h₁ h₂ h₃ h₄ h₅ h₆
  all_goals
    dsimp only
    omega

variable {t : MmapTag}

theorem exists_pmmInit_iff (k : KernelImage) (hmap : boot.mmap = some t) :
    (∃ fuel p, pmmInit fuel k boot = some p) ↔ t.Walkable := by
  constructor
  · rintro ⟨fuel, p, h⟩
    by_contra ht
    rw [pmmInit, findRegion, hmap] at h
    dsimp only at h
    rw [mmapLoop_eq_none ht] at h
    cases h
  · intro ht
    refine ⟨t.count + 1, ?_⟩
    rw [pmmInit, findRegion, hmap]
    dsimp only
    rw [mmapLoop_entries ht (Nat.lt_succ_self _)]
    exact ⟨_, rfl⟩

/-! ### Maps of one entry -/

def oneEntryMap (addr len : ℕ) : MmapTag where
  bytes := Bytes.overlay (fun _ => 0) 0 <|
    Bytes.le 4 6 ++ (Bytes.le 4 40 ++ (Bytes.le 4 24 ++ (Bytes.le 4 0 ++
      (Bytes.le 8 addr ++ (Bytes.le 8 len ++ Bytes.le 4 1)))))

/-- A kernel that ends at 2 MiB, started with one region and without modules. -/
def oneEntryBoot (addr len : ℕ) : BootInfo := ⟨some (oneEntryMap addr len), ⟨0, 0⟩, ⟨0, 0⟩, 0, 0⟩

def kernelTo2MiB : KernelImage := ⟨0x200000, by norm_num, by norm_num⟩

theorem oneEntryMap_fields (len : ℕ) :
    (oneEntryMap addr len).size = 40 ∧ (oneEntryMap addr len).entrySize = 24 ∧
      (oneEntryMap addr len).entryAt 16 = ⟨addr % word, len % word, 1⟩ := by
  have hall := Bytes.holds_overlay (fun _ => 0) 0
    (Bytes.le 4 6 ++ (Bytes.le 4 40 ++ (Bytes.le 4 24 ++ (Bytes.le 4 0 ++
      (Bytes.le 8 addr ++ (Bytes.le 8 len ++ Bytes.le 4 1))))))
  simp only [Bytes.holds_append, Bytes.length_le, Nat.zero_add] at hall
  obtain ⟨-, hsize, hentry, -, haddr, hlen, htype⟩ := hall
  refine ⟨Bytes.field_of_holds hsize, Bytes.field_of_holds hentry, ?_⟩
  rw [MmapTag.entryAt, MmapEntry.mk.injEq]
  exact ⟨Bytes.field_of_holds haddr, Bytes.field_of_holds hlen, Bytes.field_of_holds htype⟩

theorem oneEntryMap_entries (len : ℕ) :
    (oneEntryMap addr len).entries = [⟨addr % word, len % word, 1⟩] := by
  obtain ⟨hsize, hentry, hat⟩ := oneEntryMap_fields addr len
  rw [MmapTag.entries, MmapTag.count, hsize, hentry]
  simp [hat]

theorem oneEntryMap_walkable (len : ℕ) : (oneEntryMap addr len).Walkable :=
  .inl (by rw [(oneEntryMap_fields addr len).2.1]; norm_num)

theorem region_oneEntryBoot {addr : ℕ} {m : MmapEntry} (hm : m = ⟨addr % word, len % word, 1⟩)
    (husable : m.usable = true) :
    region (oneEntryBoot addr len) = (m.start, m.limit) := by
  rw [region, oneEntryBoot]
  dsimp only
  rw [MmapTag.largest, oneEntryMap_entries, ← hm, List.filter_cons_of_pos husable, List.filter_nil,
    List.argmax_singleton]
  rfl

theorem region_oneEntryBoot_of_fits {addr : ℕ} (ha : 0x100000 ≤ addr) (hl : len ≠ 0)
    (hfits : addr + len < word) : region (oneEntryBoot addr len) = (addr, addr + len) := by
  have hm : (⟨addr % word, len % word, 1⟩ : MmapEntry) = ⟨addr, len, 1⟩ := by
    rw [Nat.mod_eq_of_lt (by omega), Nat.mod_eq_of_lt (by omega)]
  have hlimit : (⟨addr, len, 1⟩ : MmapEntry).limit = addr + len := Nat.mod_eq_of_lt hfits
  have hstart : (⟨addr, len, 1⟩ : MmapEntry).start = addr := max_eq_left ha
  have husable : (⟨addr, len, 1⟩ : MmapEntry).usable = true := by
    rw [MmapEntry.usable, decide_eq_true_eq, MmapEntry.usableSize, hlimit, hstart, sub64,
      show addr + len + word - addr = len + word by omega, Nat.add_mod_right,
      Nat.mod_eq_of_lt (by omega)]
    exact ⟨rfl, by omega, hl⟩
  rw [region_oneEntryBoot hm.symm husable, hlimit, hstart]

theorem reservedTop_oneEntryBoot (len : ℕ) :
    reservedTop kernelTo2MiB (oneEntryBoot addr len) = 0x200000 := rfl

theorem exists_pmmInit_oneEntry (len : ℕ) :
    ∃ fuel p, pmmInit fuel kernelTo2MiB (oneEntryBoot addr len) = some p :=
  (exists_pmmInit_iff kernelTo2MiB (show (oneEntryBoot addr len).mmap = _ from rfl)).2
    (oneEntryMap_walkable addr len)

end Tnu.Mm
