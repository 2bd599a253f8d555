/-
**The page tables.**

The virtual memory manager of `kernel/mm/vmm.c`.  It only ever adds identity mappings, in pages of
2 MiB, to the tables that `start.S` loads; tables of the two upper levels that are missing come from
two static pools of eight and of sixty-four tables.

The tables are embedded as entries: `s.entry t i` is the entry `i` of the table at the address `t`.
What a mapping means is what the processor reads off the entries, `Vmm.translate`: it walks
the tables as the architecture describes for four-level paging with `EFER.NXE` clear, with the bits
that it demands to be zero.

Main definitions:

* `mapHugeIdentity`, `vmmMapPage`, `vmmMapRangeIdentity` — the source.

Main results:

* `ofNat_and_mask` — an aligned address survives the mask of its entry;
* `pteFlags_eq` — taking the write-combining flag out and putting it back changes nothing;
* `Layout.pd_ne_pdpt` and its kin — the tables are different tables.
-/

import Tnu.Mm.Pmm

set_option autoImplicit false

namespace Tnu.Mm

/-! ### Constants -/

abbrev ptePresent : BitVec 64 := 0x001

abbrev pteWritable : BitVec 64 := 0x002

abbrev pteUser : BitVec 64 := 0x004

abbrev ptePwt : BitVec 64 := 0x008

abbrev pteHuge : BitVec 64 := 0x080

abbrev vmmWcFlag : BitVec 64 := 0x008

abbrev hugePageSize : ℕ := 2 * 1024 * 1024

abbrev tableAddrMask : BitVec 64 := 0x000ffffffffff000

abbrev lowerHalfLimit : ℕ := 0x0000800000000000

theorem hugePageSize_eq : hugePageSize = 2097152 := rfl

/-! ### The tables -/

/-- The symbols of the table arrays. -/
structure Symbols where
  pml4Table : ℕ
  pdptTable : ℕ
  pdTable : ℕ
  extraPdptTables : ℕ
  extraPdTables : ℕ

def Symbols.arrays (y : Symbols) : List (ℕ × ℕ) :=
  [(y.pml4Table, 1), (y.pdptTable, 1), (y.pdTable, 1), (y.extraPdptTables, 8), (y.extraPdTables, 64)]

/-- A layout of the arrays: page-aligned, where an entry can point, and apart from each other. -/
structure Layout extends Symbols where
  aligned : ∀ a ∈ toSymbols.arrays, 4096 ∣ a.1
  fits : ∀ a ∈ toSymbols.arrays, a.1 + 4096 * a.2 ≤ 2 ^ 52
  apart : toSymbols.arrays.Pairwise fun a b =>
    a.1 + 4096 * a.2 ≤ b.1 ∨ b.1 + 4096 * b.2 ≤ a.1

/-- The state of the tables and of the two pools. -/
structure Vmm where
  entry : ℕ → ℕ → BitVec 64
  nextPdptTable : ℕ
  nextPdTable : ℕ

/-- The entry `i` of the table `t` set to `e`. -/
def Vmm.set (s : Vmm) (t i : ℕ) (e : BitVec 64) : Vmm :=
  { s with entry := fun t' i' => if t' = t ∧ i' = i then e else s.entry t' i' }

/-- The table `t` cleared. -/
def Vmm.clear (s : Vmm) (t : ℕ) : Vmm :=
  { s with entry := fun t' i' => if t' = t then 0 else s.entry t' i' }

/-- The tables as `setup_page_tables` of `start.S` leaves them: the first gigabyte. -/
def bootTables (L : Layout) : Vmm where
  entry := fun t i =>
    if t = L.pml4Table ∧ i = 0 then BitVec.ofNat 64 L.pdptTable ||| 3
    else if t = L.pdptTable ∧ i = 0 then BitVec.ofNat 64 L.pdTable ||| 3
    else if t = L.pdTable ∧ i < 512 then BitVec.ofNat 64 (i * 2 ^ 21) ||| 0x83
    else 0
  nextPdptTable := 0
  nextPdTable := 0

/-! ### The functions of the source -/

def allocPdptTable (L : Layout) (s : Vmm) : Option (Vmm × ℕ) :=
  if 8 ≤ s.nextPdptTable then none
  else
    let table := L.extraPdptTables + s.nextPdptTable * 4096
    some ({ s with nextPdptTable := s.nextPdptTable + 1 }.clear table, table)

def allocPdTable (L : Layout) (s : Vmm) : Option (Vmm × ℕ) :=
  if 64 ≤ s.nextPdTable then none
  else
    let table := L.extraPdTables + s.nextPdTable * 4096
    some ({ s with nextPdTable := s.nextPdTable + 1 }.clear table, table)

def tableFromEntry (e : BitVec 64) : ℕ := (e &&& tableAddrMask).toNat

/-- `addr & HUGE_PAGE_MASK`. -/
def hugePageBase (addr : ℕ) : ℕ := hugePageSize * (addr / hugePageSize)

def pml4Index (addr : ℕ) : ℕ := addr / 2 ^ 39 % 512

def pdptIndex (addr : ℕ) : ℕ := addr / 2 ^ 30 % 512

def pdIndex (addr : ℕ) : ℕ := addr / 2 ^ 21 % 512

/-- The two steps of `map_huge_identity` to the table below the entry `i` of the table `t`: an
entry that is missing gets a table from `alloc`, the user flag is merged into one that is there.
Nothing changes when the pool is exhausted. -/
def descend (alloc : Vmm → Option (Vmm × ℕ)) (s : Vmm) (t i : ℕ) (flags : BitVec 64) : Option Vmm :=
  if s.entry t i &&& ptePresent = 0 then
    match alloc s with
    | none => none
    | some (s, table) =>
      some (s.set t i (BitVec.ofNat 64 table ||| ptePresent ||| pteWritable ||| (flags &&& pteUser)))
  else some (s.set t i (s.entry t i ||| (flags &&& pteUser)))

/-- `pte_flags` of `map_huge_identity`. -/
def pteFlags (flags : BitVec 64) : BitVec 64 :=
  if flags &&& vmmWcFlag = 0 then flags &&& ~~~vmmWcFlag else flags &&& ~~~vmmWcFlag ||| ptePwt

/-- The last step of `map_huge_identity`: the entry of the page itself. -/
def mapEntry (s : Vmm) (pd i aligned : ℕ) (flags : BitVec 64) : Vmm :=
  if s.entry pd i &&& ptePresent = 0 then
    s.set pd i (BitVec.ofNat 64 aligned ||| ptePresent ||| pteWritable ||| pteHuge ||| pteFlags flags)
  else s.set pd i (s.entry pd i ||| flags)

def mapHugeIdentity (L : Layout) (s : Vmm) (addr : ℕ) (flags : BitVec 64) : Vmm × ℤ :=
  let aligned := hugePageBase addr
  if lowerHalfLimit ≤ aligned then (s, -1)
  else
    match descend (allocPdptTable L) s L.pml4Table (pml4Index aligned) flags with
    | none => (s, -1)
    | some s =>
      let pdpt := tableFromEntry (s.entry L.pml4Table (pml4Index aligned))
      match descend (allocPdTable L) s pdpt (pdptIndex aligned) flags with
      | none => (s, -1)
      | some s =>
        let pd := tableFromEntry (s.entry pdpt (pdptIndex aligned))
        (mapEntry s pd (pdIndex aligned) aligned flags, 0)

def vmmMapPage (L : Layout) (s : Vmm) (virt phys : ℕ) (flags : BitVec 64) : Vmm × ℤ :=
  if virt ≠ phys then (s, -1) else mapHugeIdentity L s phys flags

/-- The loop of `vmm_map_range_identity`. -/
def mapLoop (L : Layout) (s : Vmm) (addr stop : ℕ) (flags : BitVec 64) : Vmm × ℤ :=
  if addr < stop then
    let r := mapHugeIdentity L s addr flags
    if r.2 < 0 then (r.1, -1) else mapLoop L r.1 (addr + hugePageSize) stop flags
  else (s, 0)
termination_by stop - addr
decreasing_by rw [hugePageSize_eq]; omega

/-- `start` of `vmm_map_range_identity`. -/
def rangeStart (phys : ℕ) : ℕ := hugePageBase phys

/-- `end` of `vmm_map_range_identity`. -/
def rangeEnd (phys length : ℕ) : ℕ := hugePageBase ((phys + length + hugePageSize - 1) % word)

def vmmMapRangeIdentity (L : Layout) (s : Vmm) (phys length : ℕ) (flags : BitVec 64) : Vmm × ℤ :=
  if length = 0 then (s, 0)
  else if rangeEnd phys length < rangeStart phys ∨ lowerHalfLimit < rangeEnd phys length then (s, -1)
  else mapLoop L s (rangeStart phys) (rangeEnd phys length) flags

/-! ### The processor -/

/-- What the processor makes of an address. -/
structure Translation where
  phys : ℕ
  /-- User mode may use it: the user flag is set at every level. -/
  user : Bool

/-- The bit that disables execution; reserved while `EFER.NXE` is clear. -/
abbrev noExecute : BitVec 64 := 0x8000000000000000

/-- An entry, where it is present and none of its reserved bits is set. -/
def Vmm.fetch (s : Vmm) (t i : ℕ) (reserved : BitVec 64) : Option (BitVec 64) :=
  if s.entry t i &&& ptePresent ≠ 0 ∧ s.entry t i &&& reserved = 0 then some (s.entry t i) else none

def userEntry (e : BitVec 64) : Bool := e &&& pteUser ≠ 0

def Canonical (v : ℕ) : Prop := v < 2 ^ 47 ∨ 2 ^ 64 - 2 ^ 47 ≤ v ∧ v < 2 ^ 64

instance (v : ℕ) : Decidable (Canonical v) := by unfold Canonical; infer_instance

/-- The processor's walk of the tables, with pages of 1 GiB, of 2 MiB and of 4 KiB. -/
def Vmm.translate (L : Layout) (s : Vmm) (v : ℕ) : Option Translation :=
  if Canonical v then do
    let e₄ ← s.fetch L.pml4Table (pml4Index v) (pteHuge ||| noExecute)
    let e₃ ← s.fetch (tableFromEntry e₄) (pdptIndex v) noExecute
    if e₃ &&& pteHuge ≠ 0 then
      if e₃ &&& 0x000000003fffe000 = 0 then
        some ⟨(e₃ &&& 0x000fffffc0000000).toNat + v % 2 ^ 30, userEntry e₄ && userEntry e₃⟩
      else none
    else do
      let e₂ ← s.fetch (tableFromEntry e₃) (pdIndex v) noExecute
      if e₂ &&& pteHuge ≠ 0 then
        if e₂ &&& 0x00000000001fe000 = 0 then
          some ⟨(e₂ &&& 0x000fffffffe00000).toNat + v % 2 ^ 21,
            userEntry e₄ && userEntry e₃ && userEntry e₂⟩
        else none
      else do
        let e₁ ← s.fetch (tableFromEntry e₂) (v / 2 ^ 12 % 512) noExecute
        some ⟨(e₁ &&& tableAddrMask).toNat + v % 2 ^ 12,
          userEntry e₄ && userEntry e₃ && userEntry e₂ && userEntry e₁⟩
  else none

/-! ### Bits of an entry -/

variable {e f flags mask : BitVec 64} {a lo hi t i : ℕ}

theorem and_ptePresent : e &&& ptePresent ≠ 0 ↔ e.getLsbD 0 = true := by
  have h : ptePresent = BitVec.twoPow 64 0 := by decide
  have h0 : BitVec.twoPow 64 0 ≠ 0 := by decide
  rw [h, BitVec.and_twoPow]
  split <;> simp_all

theorem and_pteUser : e &&& pteUser ≠ 0 ↔ e.getLsbD 2 = true := by
  have h : pteUser = BitVec.twoPow 64 2 := by decide
  have h0 : BitVec.twoPow 64 2 ≠ 0 := by decide
  rw [h, BitVec.and_twoPow]
  split <;> simp_all

/-- The bits from `lo` to below `hi`. -/
def bitRange (lo hi : ℕ) : BitVec 64 := (BitVec.allOnes 64 >>> (64 - (hi - lo))) <<< lo

theorem getLsbD_bitRange (hhi : hi ≤ 64) (hlo : lo ≤ i) (hi' : i < hi) :
    (bitRange lo hi).getLsbD i = true := by
  have h64 : i < 64 := by omega
  have h : 64 - (hi - lo) + (i - lo) < 64 := by omega
  rw [bitRange, BitVec.getLsbD_shiftLeft, BitVec.getLsbD_ushiftRight, BitVec.getLsbD_allOnes]
  simp [h64, h, Nat.not_lt.mpr hlo]

theorem ofNat_and_mask (lo hi : ℕ) (hm : bitRange lo hi &&& mask = bitRange lo hi) (hhi : hi ≤ 64)
    (hd : 2 ^ lo ∣ a) (ha : a < 2 ^ hi) : BitVec.ofNat 64 a &&& mask = BitVec.ofNat 64 a := by
  refine BitVec.eq_of_getLsbD_eq fun i _ => ?_
  rw [BitVec.getLsbD_and, BitVec.getLsbD_ofNat]
  rcases Nat.lt_or_ge i lo with h | h
  · obtain ⟨q, rfl⟩ := hd
    simp [Nat.testBit_two_pow_mul, Nat.not_le.mpr h]
  · rcases Nat.lt_or_ge i hi with h' | h'
    · have hb := congrArg (·.getLsbD i) hm
      simp only [BitVec.getLsbD_and, getLsbD_bitRange hhi h h', Bool.true_and] at hb
      rw [hb, Bool.and_true]
    · simp [Nat.testBit_lt_two_pow (ha.trans_le (Nat.pow_le_pow_right (by norm_num) h'))]

theorem ofNat_and_tableAddrMask (hd : 4096 ∣ t) (ht : t < 2 ^ 52) :
    BitVec.ofNat 64 t &&& tableAddrMask = BitVec.ofNat 64 t :=
  ofNat_and_mask 12 52 (by decide) (by norm_num) hd ht

/-- The bits of an entry for a page of 2 MiB that its address and the reserved bits take. -/
abbrev hugeFrameMask : BitVec 64 := 0x800fffffffffe000

theorem ofNat_and_hugeFrameMask (hd : 2 ^ 21 ∣ a) (ha : a < 2 ^ 47) :
    BitVec.ofNat 64 a &&& hugeFrameMask = BitVec.ofNat 64 a :=
  ofNat_and_mask 21 47 (by decide) (by norm_num) hd ha

theorem and_and_eq_zero (e : BitVec 64) (h : f &&& mask = 0) : e &&& f &&& mask = 0 := by
  rw [BitVec.and_assoc, h]
  exact BitVec.and_zero

theorem or_and_of_eq_zero (h : f &&& mask = 0) : (e ||| f) &&& mask = e &&& mask := by
  rw [BitVec.and_or_distrib_right, h]
  exact BitVec.or_zero

theorem pteFlags_eq (flags : BitVec 64) : pteFlags flags = flags := by
  have h : vmmWcFlag = BitVec.twoPow 64 3 := by decide
  have hp : ptePwt = BitVec.twoPow 64 3 := by decide
  have h0 : BitVec.twoPow 64 3 ≠ 0 := by decide
  have hs : flags &&& ~~~BitVec.twoPow 64 3 ||| flags &&& BitVec.twoPow 64 3 = flags := by
    rw [← BitVec.and_or_distrib_left, BitVec.not_or_self, BitVec.and_allOnes]
  rw [BitVec.and_twoPow] at hs
  rw [pteFlags, h, hp, BitVec.and_twoPow]
  by_cases hb : flags.getLsbD 3 = true <;> simp_all

/-! ### Different tables -/

/-- The tables of the second level: the one of `start.S`, then the pool. -/
def Layout.pdpt (L : Layout) : ℕ → ℕ
  | 0 => L.pdptTable
  | n + 1 => L.extraPdptTables + n * 4096

def Layout.pd (L : Layout) : ℕ → ℕ
  | 0 => L.pdTable
  | n + 1 => L.extraPdTables + n * 4096

variable {L : Layout} {n m n' m' : ℕ}

theorem Layout.facts (L : Layout) :
    (4096 ∣ L.pml4Table ∧ 4096 ∣ L.pdptTable ∧ 4096 ∣ L.pdTable ∧ 4096 ∣ L.extraPdptTables ∧
      4096 ∣ L.extraPdTables) ∧
    (L.pml4Table + 4096 ≤ 2 ^ 52 ∧ L.pdptTable + 4096 ≤ 2 ^ 52 ∧ L.pdTable + 4096 ≤ 2 ^ 52 ∧
      L.extraPdptTables + 4096 * 8 ≤ 2 ^ 52 ∧ L.extraPdTables + 4096 * 64 ≤ 2 ^ 52) := by
  have ha := L.aligned
  have hf := L.fits
  simp only [Symbols.arrays, List.forall_mem_cons, List.not_mem_nil, false_implies,
    implies_true, and_true, mul_one] at ha hf
  exact ⟨ha, hf⟩

theorem Layout.pml4_ne_pdpt (h : n ≤ 8) : L.pml4Table ≠ L.pdpt n := by
  have hp := L.apart
  simp only [Symbols.arrays, List.pairwise_cons, List.forall_mem_cons] at hp
  cases n <;> simp only [Layout.pdpt] <;> omega

theorem Layout.pml4_ne_pd (h : n ≤ 64) : L.pml4Table ≠ L.pd n := by
  have hp := L.apart
  simp only [Symbols.arrays, List.pairwise_cons, List.forall_mem_cons] at hp
  cases n <;> simp only [Layout.pd] <;> omega

theorem Layout.pd_ne_pdpt (hm : m ≤ 64) (hn : n ≤ 8) : L.pd m ≠ L.pdpt n := by
  have hp := L.apart
  simp only [Symbols.arrays, List.pairwise_cons, List.forall_mem_cons] at hp
  cases n <;> cases m <;> simp only [Layout.pdpt, Layout.pd] <;> omega

theorem Layout.pdpt_inj (hn : n ≤ 8) (hn' : n' ≤ 8) (h : L.pdpt n = L.pdpt n') : n = n' := by
  have hp := L.apart
  simp only [Symbols.arrays, List.pairwise_cons, List.forall_mem_cons] at hp
  cases n <;> cases n' <;> simp only [Layout.pdpt] at h <;> omega

theorem Layout.pd_inj (hm : m ≤ 64) (hm' : m' ≤ 64) (h : L.pd m = L.pd m') : m = m' := by
  have hp := L.apart
  simp only [Symbols.arrays, List.pairwise_cons, List.forall_mem_cons] at hp
  cases m <;> cases m' <;> simp only [Layout.pd] at h <;> omega

theorem Layout.pdpt_frame (h : n ≤ 8) : 4096 ∣ L.pdpt n ∧ L.pdpt n < 2 ^ 52 := by
  have hf := L.facts
  cases n <;> simp only [Layout.pdpt] <;> omega

theorem Layout.pd_frame (h : m ≤ 64) : 4096 ∣ L.pd m ∧ L.pd m < 2 ^ 52 := by
  have hf := L.facts
  cases m <;> simp only [Layout.pd] <;> omega

end Tnu.Mm
