/-
**The physical memory manager.**

The frame allocator of `kernel/mm/pmm.c`: at boot it walks the memory map that the boot loader left
behind, takes the largest usable region above 1 MiB as its pool, skips what the kernel and the boot
modules occupy, and from then on hands out pages from a cursor and from a bounded stack of freed
ones.

The walk goes from entry to entry by the entry size the map itself states; it gives up with `none`
when it runs out of steps.

Main definitions:

* `Pmm`, `pmmInit` — the static state, and how it is set up;
* `pmmAllocFrame`, `pmmFreeFrame` — the two calls;
* `MmapTag.entries`, `MmapTag.largest`, `region` — the entries of a map, and the
  region the pool is taken from.

Main result:

* `findRegion_region` — **the first half of `pmm_init` finds the region**.
-/

import Mathlib.Data.List.MinMax
import Tnu.Memory

set_option autoImplicit false

namespace Tnu.Mm

/-! ### Boot information -/

abbrev pageSize : ℕ := 4096

abbrev pmmFreeStackMax : ℕ := 65536

/-- `struct multiboot_mmap_entry`. -/
structure MmapEntry where
  addr : ℕ
  len : ℕ
  type : ℕ
deriving DecidableEq

/-- `struct multiboot_tag_mmap`: the bytes of memory from the tag on. -/
structure MmapTag where
  bytes : Mem

/-- The field `size` of the tag. -/
def MmapTag.size (t : MmapTag) : ℕ := load t.bytes 4 4

/-- The field `entry_size` of the tag. -/
def MmapTag.entrySize (t : MmapTag) : ℕ := load t.bytes 8 4

def MmapTag.entryAt (t : MmapTag) (off : ℕ) : MmapEntry where
  addr := load t.bytes off 8
  len := load t.bytes (off + 8) 8
  type := load t.bytes (off + 16) 4

/-- `struct boot_module`; the boot loader states both addresses with 32 bits. -/
structure BootModule where
  modStart : UInt32
  modEnd : UInt32

/-- The fields of `struct boot_info` that the memory manager reads. -/
structure BootInfo where
  mmap : Option MmapTag
  rootfs : BootModule
  installImage : BootModule
  memLowerKib : UInt32
  memUpperKib : UInt32

/-- Where the image of the kernel ends.  `linker.ld` puts its start at 1 MiB. -/
structure KernelImage where
  kernelEnd : ℕ
  linked : 0x100000 ≤ kernelEnd
  /-- The page behind the image has an address. -/
  fits : kernelEnd + pageSize ≤ word

/-! ### The functions of the source -/

/-- `struct memory_stats`, without what the heap records there. -/
structure MemoryStats where
  totalBytes : ℕ
  usableBytes : ℕ
  allocatedFrames : ℕ
  freeFramesEstimate : ℕ

/-- The static state of `pmm.c`.  `free_stack` and `free_stack_count` are one list, the top of the
stack first. -/
structure Pmm where
  stats : MemoryStats
  frameCursor : ℕ
  frameLimit : ℕ
  freeStack : List ℕ

/-- `align_up`, for the powers of two it is called with. -/
def alignUp (value alignment : ℕ) : ℕ :=
  (value + alignment - 1) % word / alignment * alignment

/-- The variables that the walk over the memory map keeps. -/
structure Scan where
  bestStart : ℕ
  bestLen : ℕ
  highestUsableLimit : ℕ
  usableBytes : ℕ

/-- The body of the loop of `pmm_init`. -/
def scanEntry (v : Scan) (m : MmapEntry) : Scan :=
  if m.type = 1 then
    let start := m.addr
    let limit := (m.addr + m.len) % word
    let v := if v.highestUsableLimit < limit then { v with highestUsableLimit := limit } else v
    if 0x100000 < limit then
      let start := if start < 0x100000 then 0x100000 else start
      let v := { v with usableBytes := (v.usableBytes + sub64 limit start) % word }
      if v.bestLen < sub64 limit start then
        { v with bestStart := start, bestLen := sub64 limit start }
      else v
    else v
  else v

/-- The loop of `pmm_init` from the offset `off` on, for at most `fuel` entries. -/
def mmapLoop : ℕ → MmapTag → ℕ → Scan → Option Scan
  | 0, _, _, _ => none
  | fuel + 1, t, off, v =>
    if off < t.size then mmapLoop fuel t (off + t.entrySize) (scanEntry v (t.entryAt off))
    else some v

/-- The first half of `pmm_init`: the best region and the statistics. -/
def findRegion (fuel : ℕ) (boot : BootInfo) : Option (ℕ × ℕ × MemoryStats) :=
  match boot.mmap with
  | some t =>
    (mmapLoop fuel t 16 ⟨0, 0, 0, 0⟩).map fun v =>
      (v.bestStart, v.bestLen, ⟨v.highestUsableLimit, v.usableBytes, 0, 0⟩)
  | none =>
    let usable := boot.memUpperKib.toNat * 1024 % word
    some (0x200000, if 0x200000 < usable then usable - 0x200000 else 0,
      ⟨(boot.memLowerKib.toNat + boot.memUpperKib.toNat) % word * 1024 % word, usable, 0, 0⟩)

/-- `reserved_end`: behind the kernel and both modules. -/
def reservedEnd (k : KernelImage) (boot : BootInfo) : ℕ :=
  let reserved := alignUp k.kernelEnd pageSize
  let reserved :=
    if boot.rootfs.modEnd.toNat ≠ 0 ∧ reserved < boot.rootfs.modEnd.toNat then
      alignUp boot.rootfs.modEnd.toNat pageSize
    else reserved
  if boot.installImage.modEnd.toNat ≠ 0 ∧ reserved < boot.installImage.modEnd.toNat then
    alignUp boot.installImage.modEnd.toNat pageSize
  else reserved

/-- `frame_cursor` and `frame_limit`, from the best region and the end of the reserved area. -/
def frameBounds (bestStart bestLen reserved : ℕ) : ℕ × ℕ :=
  let cursor := alignUp bestStart pageSize
  let cursor :=
    if cursor < reserved ∧ reserved < (bestStart + bestLen) % word then reserved else cursor
  let limit := alignUp ((bestStart + bestLen) % word) pageSize
  (cursor, if limit < cursor then cursor else limit)

def pmmInit (fuel : ℕ) (k : KernelImage) (boot : BootInfo) : Option Pmm :=
  (findRegion fuel boot).map fun (bestStart, bestLen, stats) =>
    let (cursor, limit) := frameBounds bestStart bestLen (reservedEnd k boot)
    { stats := { stats with freeFramesEstimate := (limit - cursor) / pageSize }
      frameCursor := cursor
      frameLimit := limit
      freeStack := [] }

def MemoryStats.taken (s : MemoryStats) : MemoryStats :=
  { s with
    allocatedFrames := s.allocatedFrames + 1
    freeFramesEstimate :=
      if s.freeFramesEstimate ≠ 0 then s.freeFramesEstimate - 1 else s.freeFramesEstimate }

def pmmAllocFrame (s : Pmm) : ℕ × Pmm :=
  match s.freeStack with
  | frame :: rest => (frame, { s with stats := s.stats.taken, freeStack := rest })
  | [] =>
    if s.frameLimit < (s.frameCursor + pageSize) % word then (0, s)
    else
      (s.frameCursor,
        { s with stats := s.stats.taken, frameCursor := (s.frameCursor + pageSize) % word })

def pmmFreeFrame (s : Pmm) (frame : ℕ) : Pmm :=
  if frame = 0 ∨ frame % pageSize ≠ 0 then s
  else if pmmFreeStackMax ≤ s.freeStack.length then s
  else
    { s with
      freeStack := frame :: s.freeStack
      stats := { s.stats with
        allocatedFrames :=
          if s.stats.allocatedFrames ≠ 0 then s.stats.allocatedFrames - 1
          else s.stats.allocatedFrames
        freeFramesEstimate := s.stats.freeFramesEstimate + 1 } }

/-! ### The memory map -/

def MmapTag.count (t : MmapTag) : ℕ := (t.size - 16 + t.entrySize - 1) / t.entrySize

def MmapTag.entries (t : MmapTag) : List MmapEntry :=
  (List.range t.count).map fun i => t.entryAt (16 + i * t.entrySize)

def MmapTag.Walkable (t : MmapTag) : Prop := t.entrySize ≠ 0 ∨ t.size ≤ 16

instance (t : MmapTag) : Decidable t.Walkable := inferInstanceAs (Decidable (_ ∨ _))

variable {t : MmapTag} {v : Scan}

theorem offset_lt_iff (ht : t.Walkable) (i : ℕ) : 16 + i * t.entrySize < t.size ↔ i < t.count := by
  rw [MmapTag.count]
  rcases Nat.eq_zero_or_pos t.entrySize with h0 | hpos
  · rcases ht with h | h
    · exact absurd h0 h
    · rw [h0, Nat.div_zero, Nat.mul_zero]
      omega
  · have hdiv := Nat.le_div_iff_mul_le hpos (x := i + 1) (y := t.size - 16 + t.entrySize - 1)
    rw [Nat.add_mul, Nat.one_mul] at hdiv
    omega

/-- **The walk meets every entry once**, and ends. -/
theorem mmapLoop_eq (ht : t.Walkable) (n i fuel : ℕ) (hn : i + n = t.count) (hf : n < fuel) :
    mmapLoop fuel t (16 + i * t.entrySize) v =
      some (((List.range' i n).map fun i => t.entryAt (16 + i * t.entrySize)).foldl scanEntry v) := by
  induction n generalizing i fuel v with
  | zero =>
    obtain ⟨fuel, rfl⟩ : ∃ f, fuel = f + 1 := ⟨fuel - 1, by omega⟩
    rw [mmapLoop, if_neg (by rw [offset_lt_iff ht]; omega)]
    rfl
  | succ n ih =>
    obtain ⟨fuel, rfl⟩ : ∃ f, fuel = f + 1 := ⟨fuel - 1, by omega⟩
    have hstep : 16 + i * t.entrySize + t.entrySize = 16 + (i + 1) * t.entrySize := by ring
    rw [mmapLoop, if_pos ((offset_lt_iff ht i).2 (by omega)), hstep,
      ih (i + 1) fuel (by omega) (by omega), List.range'_succ, List.map_cons, List.foldl_cons]

/-- **The walk never ends** over a map that states an entry size of zero and has an entry. -/
theorem mmapLoop_eq_none (ht : ¬t.Walkable) (fuel : ℕ) : mmapLoop fuel t 16 v = none := by
  obtain ⟨h0, hsize⟩ : t.entrySize = 0 ∧ 16 < t.size := by
    simpa [MmapTag.Walkable, not_or] using ht
  induction fuel generalizing v with
  | zero => rfl
  | succ fuel ih => rw [mmapLoop, if_pos hsize, h0, ih]

/-! ### The largest region -/

def MmapEntry.start (m : MmapEntry) : ℕ := max m.addr 0x100000

def MmapEntry.limit (m : MmapEntry) : ℕ := (m.addr + m.len) % word

def MmapEntry.usableSize (m : MmapEntry) : ℕ := sub64 m.limit m.start

def MmapEntry.usable (m : MmapEntry) : Bool :=
  m.type = 1 ∧ 0x100000 < m.limit ∧ m.usableSize ≠ 0

def MmapTag.largest (t : MmapTag) : Option MmapEntry :=
  (t.entries.filter MmapEntry.usable).argmax MmapEntry.usableSize

/-- The start and the end of the region that the pool is taken from. -/
def region (boot : BootInfo) : ℕ × ℕ :=
  match boot.mmap with
  | some t => t.largest.elim (0, 0) fun m => (m.start, m.limit)
  | none => (0x200000, max 0x200000 (boot.memUpperKib.toNat * 1024))

theorem load_lt_word (m : Mem) (a : ℕ) : load m a 8 < word := load_lt m a 8

theorem MmapEntry.limit_lt (m : MmapEntry) : m.limit < word := Nat.mod_lt _ (by norm_num)

theorem add_sub64 {a b : ℕ} (ha : a ≤ word) (hb : b < word) : (a + sub64 b a) % word = b := by
  rw [sub64, Nat.add_mod_mod, show a + (b + word - a) = b + word by omega, Nat.add_mod_right,
    Nat.mod_eq_of_lt hb]

theorem entryAt_addr_lt (t : MmapTag) (off : ℕ) : (t.entryAt off).addr < word :=
  load_lt_word t.bytes off

/-- The start and the size of the first of the largest usable entries. -/
def bestOf (l : List MmapEntry) : ℕ × ℕ :=
  ((l.filter MmapEntry.usable).argmax MmapEntry.usableSize).elim (0, 0)
    fun m => (m.start, m.usableSize)

theorem bestOf_concat (l : List MmapEntry) (m : MmapEntry) :
    bestOf (l ++ [m]) =
      if m.usable = true ∧ (bestOf l).2 < m.usableSize then (m.start, m.usableSize)
      else bestOf l := by
  by_cases husable : m.usable = true
  · have hpos : m.usable = true → 0 < m.usableSize := fun h => by
      rw [MmapEntry.usable, decide_eq_true_eq] at h
      exact Nat.pos_of_ne_zero h.2.2
    have hpos := hpos husable
    rw [bestOf, List.filter_append, List.filter_cons_of_pos husable, List.filter_nil,
      List.argmax_concat, bestOf]
    cases (l.filter MmapEntry.usable).argmax MmapEntry.usableSize with
    | none => simp only [Option.elim_none, Option.elim_some, husable, true_and, if_pos hpos]
    | some c =>
      simp only [Option.elim_some, husable, true_and]
      split_ifs <;> rfl
  · rw [bestOf, List.filter_append, List.filter_cons_of_neg husable, List.filter_nil,
      List.append_nil, if_neg fun h => husable h.1, bestOf]

theorem scanEntry_best (v : Scan) (m : MmapEntry) :
    ((scanEntry v m).bestStart, (scanEntry v m).bestLen) =
      if m.usable = true ∧ v.bestLen < m.usableSize then (m.start, m.usableSize)
      else (v.bestStart, v.bestLen) := by
  have hstart : (if m.addr < 0x100000 then 0x100000 else m.addr) = m.start := by
    rw [MmapEntry.start]
    split_ifs <;> omega
  have husable : m.usable = true ∧ v.bestLen < m.usableSize ↔
      m.type = 1 ∧ 0x100000 < m.limit ∧ v.bestLen < m.usableSize := by
    rw [MmapEntry.usable, decide_eq_true_eq]
    constructor
    · rintro ⟨⟨h₁, h₂, -⟩, h₃⟩
      exact ⟨h₁, h₂, h₃⟩
    · rintro ⟨h₁, h₂, h₃⟩
      exact ⟨⟨h₁, h₂, Nat.ne_zero_of_lt h₃⟩, h₃⟩
  rw [if_congr husable rfl rfl, scanEntry]
  dsimp only
  rw [hstart, ← MmapEntry.limit, ← MmapEntry.usableSize]
  by_cases htype : m.type = 1
  · -- the new highest limit touches neither of the two
    have hhigh : ∀ w : Scan, w = (if v.highestUsableLimit < m.limit then
        { v with highestUsableLimit := m.limit } else v) →
        w.bestStart = v.bestStart ∧ w.bestLen = v.bestLen := by
      rintro w rfl
      split_ifs <;> exact ⟨rfl, rfl⟩
    rw [if_pos htype]
    generalize (if v.highestUsableLimit < m.limit then
      { v with highestUsableLimit := m.limit } else v) = w at hhigh ⊢
    obtain ⟨hs, hl⟩ := hhigh w rfl
    rw [hl]
    by_cases hlimit : 0x100000 < m.limit
    · by_cases hlen : v.bestLen < m.usableSize
      · rw [if_pos hlimit, if_pos hlen, if_pos ⟨htype, hlimit, hlen⟩]
      · rw [if_pos hlimit, if_neg hlen, if_neg fun h => hlen h.2.2, hs]
    · rw [if_neg hlimit, if_neg fun h => hlimit h.2.1, hs, hl]
  · rw [if_neg htype, if_neg fun h => htype h.1]

/-- **The walk keeps the first of the largest regions.** -/
theorem scan_best (l : List MmapEntry) :
    ((l.foldl scanEntry ⟨0, 0, 0, 0⟩).bestStart, (l.foldl scanEntry ⟨0, 0, 0, 0⟩).bestLen) =
      bestOf l := by
  induction l using List.reverseRecOn with
  | nil => rfl
  | append_singleton l m ih =>
    rw [List.foldl_append, List.foldl_cons, List.foldl_nil, scanEntry_best, bestOf_concat, ← ih]

theorem MmapTag.entries_eq (t : MmapTag) :
    t.entries = (List.range' 0 t.count).map fun i => t.entryAt (16 + i * t.entrySize) := by
  rw [MmapTag.entries, List.range_eq_range']

variable {fuel : ℕ}

/-- **The walk over a whole map.** -/
theorem mmapLoop_entries (ht : t.Walkable) (hf : t.count < fuel) :
    mmapLoop fuel t 16 v = some (t.entries.foldl scanEntry v) := by
  have hloop := mmapLoop_eq (v := v) ht t.count 0 fuel (Nat.zero_add _) hf
  rw [Nat.zero_mul, Nat.add_zero] at hloop
  rw [hloop, t.entries_eq]

theorem mmapLoop_mono {n k off : ℕ} {r : Scan} (h : mmapLoop n t off v = some r) :
    mmapLoop (n + k) t off v = some r := by
  induction n generalizing off v with
  | zero => cases h
  | succ n ih =>
    rw [Nat.add_right_comm]
    rw [mmapLoop] at h ⊢
    split_ifs at h ⊢
    · exact ih h
    · exact h

theorem eq_of_mmapLoop (ht : t.Walkable) {r : Scan}
    (h : mmapLoop fuel t 16 v = some r) : r = t.entries.foldl scanEntry v := by
  have hmono := mmapLoop_mono (k := t.count + 1) h
  rw [mmapLoop_entries ht (by omega)] at hmono
  exact (Option.some_inj.1 hmono).symm

/-- **The first half of `pmm_init` finds the region.** -/
theorem findRegion_region {boot : BootInfo} {s len : ℕ} {stats : MemoryStats}
    (h : findRegion fuel boot = some (s, len, stats)) :
    s = (region boot).1 ∧ (s + len) % word = (region boot).2 := by
  rw [findRegion] at h
  rw [region]
  cases hm : boot.mmap with
  | none =>
    rw [hm] at h
    have hk := boot.memUpperKib.toNat_lt
    have hlt : boot.memUpperKib.toNat * 1024 < word := by
      rw [word_eq]
      omega
    dsimp only at h ⊢
    rw [Nat.mod_eq_of_lt hlt, Option.some_inj, Prod.mk.injEq, Prod.mk.injEq] at h
    obtain ⟨rfl, rfl, -⟩ := h
    rw [word_eq]
    generalize boot.memUpperKib.toNat = kib at hk
    refine ⟨Eq.refl 0x200000, ?_⟩
    split_ifs <;> omega
  | some t =>
    rw [hm] at h
    dsimp only at h ⊢
    have ht : t.Walkable := by
      by_contra ht
      rw [mmapLoop_eq_none ht] at h
      cases h
    obtain ⟨v, hv, hr⟩ := Option.map_eq_some_iff.1 h
    have hbest := scan_best t.entries
    rw [← eq_of_mmapLoop ht hv, bestOf, ← MmapTag.largest, Prod.mk.injEq] at hbest
    rw [Prod.mk.injEq, Prod.mk.injEq] at hr
    obtain ⟨rfl, rfl, -⟩ := hr
    rw [hbest.1, hbest.2]
    cases hl : t.largest with
    | none => simp only [Option.elim_none, Nat.add_zero, Nat.zero_mod, and_self]
    | some m =>
      simp only [Option.elim_some, true_and]
      obtain ⟨i, -, hi⟩ := List.mem_map.1 (List.mem_of_mem_filter (List.argmax_mem hl))
      have haddr : m.addr < word := hi ▸ entryAt_addr_lt t _
      have hstart : m.start ≤ word := by
        rw [MmapEntry.start]
        exact max_le haddr.le (by norm_num)
      exact add_sub64 hstart m.limit_lt

theorem allocated_findRegion {boot : BootInfo} {r : ℕ × ℕ × MemoryStats}
    (h : findRegion fuel boot = some r) : r.2.2.allocatedFrames = 0 := by
  rw [findRegion] at h
  cases hm : boot.mmap with
  | none =>
    rw [hm] at h
    rw [← Option.some_inj.1 h]
  | some t =>
    rw [hm] at h
    obtain ⟨v, -, rfl⟩ := Option.map_eq_some_iff.1 h
    rfl

end Tnu.Mm
