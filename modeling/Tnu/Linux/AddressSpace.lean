/-
**The address space of a Linux program.**

`linux_brk`, `linux_mmap` and the stub of `munmap` of `compat/linux/syscall/linux_syscall.c`, from the
state in which `linux_run_binary` of `compat/linux/userspace/linux_exec.c` enters a program.

The ranges of successful calls without `MAP_FIXED` are handed out by a pointer that only grows.
`linux_mmap` moves it before it looks at the request, with a sum that wraps, and reports some errors
only after it has mapped and cleared the range; a base that the caller fixes is compared with the
upper limit alone.  Disjointness holds in every run whose calls stay away from these.

Main definitions:

* `linuxBrk`, `linuxMmap` — the source;
* `Orderly` — the calls that the defects do not touch.

Main results:

* `SpaceInv.step` — one call;
* `spaceSafe_of_orderlyRun` — **every run of orderly calls**.
-/

import Tnu.Linux.Errno
import Tnu.Mm.UserWay
import Tnu.Sys.FileIo

set_option autoImplicit false

namespace Tnu.Linux

open Tnu.Vfs Tnu.Sys Tnu.Mm

/-! ### Constants -/

abbrev linuxMapShared : BitVec 32 := 0x01

abbrev linuxMapPrivate : BitVec 32 := 0x02

abbrev linuxMapFixed : BitVec 32 := 0x10

abbrev linuxMapAnon : BitVec 32 := 0x20

abbrev linuxUserBase : ℕ := 0x400000

abbrev linuxHeapBase : ℕ := 0x10000000

abbrev linuxMmapBase : ℕ := 0x18000000

abbrev linuxMmapLimit : ℕ := 0x4f000000

abbrev linuxStackTop : ℕ := 0x50400000

/-! ### The functions of the source -/

/-- The fields of `struct process` that place the heap and the mappings. -/
structure LinuxMm where
  brkFloor : ℕ
  brkCurrent : ℕ
  brkLimit : ℕ
  mmapNext : ℕ
  mmapLimit : ℕ

/-- These fields, the page tables and the memory. -/
structure AddressSpace where
  mm : LinuxMm
  tables : Vmm
  mem : Mem

def linuxPageUp (value : ℕ) : ℕ := 4096 * ((value + 4096 - 1) % word / 4096)

def linuxMmReset (brkFloor mmapBase mmapLimit : ℕ) : LinuxMm where
  brkFloor := linuxPageUp brkFloor
  brkCurrent := linuxPageUp brkFloor
  brkLimit := mmapBase
  mmapNext := linuxPageUp mmapBase
  mmapLimit := mmapLimit

/-- The window of a process that no Linux program was loaded into. -/
def lateMm : LinuxMm := linuxMmReset 0x10000000 0x20000000 0x40000000

/-- The layout part of `linux_run_binary`; `none` when it gives up. -/
def linuxLaunch (L : Layout) (tables : Vmm) (mem : Mem) : Option AddressSpace :=
  let r := vmmMapRangeIdentity L tables linuxHeapBase (linuxStackTop - linuxHeapBase) vmmUserFlags
  if r.2 < 0 then none
  else some ⟨linuxMmReset linuxHeapBase linuxMmapBase linuxMmapLimit, r.1, mem⟩

def linuxBrk (L : Layout) (s : AddressSpace) (addr : ℕ) : AddressSpace × ℤ :=
  let mm := if s.mm.brkFloor = 0 then lateMm else s.mm
  let next := linuxPageUp addr
  if addr = 0 then ({ s with mm := mm }, toI64 mm.brkCurrent)
  else if next < mm.brkFloor ∨ mm.brkLimit ≤ next then ({ s with mm := mm }, toI64 mm.brkCurrent)
  else
    let r :=
      if mm.brkCurrent < next then
        vmmMapRangeIdentity L s.tables mm.brkCurrent (next - mm.brkCurrent) vmmUserFlags
      else (s.tables, 0)
    if r.2 < 0 then ({ s with mm := mm, tables := r.1 }, toI64 mm.brkCurrent)
    else ({ s with mm := { mm with brkCurrent := next }, tables := r.1 }, toI64 next)

/-- The end of `linux_mmap` for a file; `none` when the copy would leave the buffer of the node. -/
def linuxMapFile (k : Kernel) (s : AddressSpace) (base size length : ℕ) (fd offset : ℤ) :
    Option (AddressSpace × ℤ) :=
  match (processGetFd k.proc fd).bind (·.node) with
  | none => some (s, -linuxEbadf)
  | some node =>
    if offset < 0 then some (s, -linuxEbadf)
    else
      let mem := memset s.mem base 0 size
      (vfsReadNode (k.vfs.nodes node) offset.toNat base length).map fun (n, bytes) =>
        if n < 0 then ({ s with mem := mem }, -linuxEio)
        else ({ s with mem := Bytes.overlay mem base bytes }, toI64 base)

def Kindless (flags : BitVec 32) (fd : ℤ) : Prop :=
  flags &&& (linuxMapAnon ||| linuxMapPrivate ||| linuxMapShared) = 0 ∧ fd < 0

instance (flags : BitVec 32) (fd : ℤ) : Decidable (Kindless flags fd) :=
  inferInstanceAs (Decidable (_ ∧ _))

/-- `linux_mmap` once it has placed the range: what is left are the checks and the mapping. -/
def linuxMapAt (L : Layout) (k : Kernel) (s : AddressSpace) (base size length : ℕ)
    (flags : BitVec 32) (fd offset : ℤ) : Option (AddressSpace × ℤ) :=
  if (base + size) % word ≤ base ∨ s.mm.mmapLimit < (base + size) % word then some (s, -linuxEnomem)
  else if Kindless flags fd then some (s, -linuxEinval)
  else
    let r := vmmMapRangeIdentity L s.tables base size vmmUserFlags
    let s := { s with tables := r.1 }
    if r.2 < 0 then some (s, -linuxEnomem)
    else if flags &&& linuxMapAnon ≠ 0 then
      some ({ s with mem := memset s.mem base 0 size }, toI64 base)
    else if 0 ≤ fd then linuxMapFile k s base size length fd offset
    else some (s, toI64 base)

def Fixed (addr : ℕ) (flags : BitVec 32) : Prop := flags &&& linuxMapFixed ≠ 0 ∧ addr ≠ 0

instance (addr : ℕ) (flags : BitVec 32) : Decidable (Fixed addr flags) :=
  inferInstanceAs (Decidable (_ ∧ _))

/-- `linux_mmap`, which ignores the protection. -/
def linuxMmap (L : Layout) (k : Kernel) (s : AddressSpace) (addr length : ℕ) (flags : BitVec 32)
    (fd offset : ℤ) : Option (AddressSpace × ℤ) :=
  if length = 0 then some (s, -linuxEinval)
  else
    let mm := if s.mm.mmapNext = 0 then lateMm else s.mm
    let size := linuxPageUp length
    if Fixed addr flags then linuxMapAt L k { s with mm := mm } addr size length flags fd offset
    else
      let next := (mm.mmapNext + size) % word
      linuxMapAt L k { s with mm := { mm with mmapNext := next } } mm.mmapNext size length flags fd
        offset

/-- The calls of a program that concern its address space, with the registers they take. -/
inductive MemoryCall
  | mmap (addr length prot flags fd offset : BitVec 64)
  | munmap (addr length : BitVec 64)
  | brk (addr : BitVec 64)

/-- `linux_syscall_dispatch` on these calls: 9, 11 and 12. -/
def linuxMemoryCall (L : Layout) (k : Kernel) (s : AddressSpace) :
    MemoryCall → Option (AddressSpace × ℤ)
  | .mmap addr length _ flags fd offset =>
    linuxMmap L k s addr.toNat length.toNat (flags.setWidth 32) (fd.setWidth 32).toInt offset.toInt
  | .munmap _ _ => some (s, 0)
  | .brk addr => some (linuxBrk L s addr.toNat)

/-! ### What the address space must respect -/

/-- The ranges of a call that succeeded, in whole pages, unless the caller chose the base. -/
def MemoryCall.grants (c : MemoryCall) (rc : ℤ) : List (ℕ × ℕ) :=
  match c with
  | .mmap addr length _ flags _ _ =>
    if Fixed addr.toNat (flags.setWidth 32) ∨ rc < 0 then [] else [(rc.toNat, linuxPageUp length.toNat)]
  | _ => []

/-- Two ranges, each a base and a size, have no address in common. -/
def Apart (r r' : ℕ × ℕ) : Prop := r.1 + r.2 ≤ r'.1 ∨ r'.1 + r'.2 ≤ r.1

/-- **A state, with the ranges handed out so far**: they are apart from each other and from the heap,
and inside the window of the mappings, which begins where the heap must end. -/
structure SpaceSafe (s : AddressSpace) (granted : List (ℕ × ℕ)) : Prop where
  apart : granted.Pairwise Apart
  heap : ∀ r ∈ granted, Apart r (s.mm.brkFloor, s.mm.brkCurrent - s.mm.brkFloor)
  inside : ∀ r ∈ granted, s.mm.brkLimit ≤ r.1 ∧ r.1 + r.2 ≤ s.mm.mmapLimit
  brk : s.mm.brkFloor ≤ s.mm.brkCurrent ∧ s.mm.brkCurrent ≤ s.mm.brkLimit

def InWindow (v : ℕ) : Prop := linuxUserBase ≤ v ∧ v < linuxStackTop

/-- **A call and its result**: a request that fails leaves the pointer and the memory as they were,
and one with a fixed base changes no byte and no translation outside the window. -/
structure StepSafe (L : Layout) (s : AddressSpace) (c : MemoryCall) (r : AddressSpace × ℤ) : Prop where
  failed : ∀ addr length prot flags fd offset, c = .mmap addr length prot flags fd offset → r.2 < 0 →
    r.1.mm.mmapNext = s.mm.mmapNext ∧ r.1.mem = s.mem ∧ r.1.tables = s.tables
  fixed : ∀ addr length prot flags fd offset, c = .mmap addr length prot flags fd offset →
    Fixed addr.toNat (flags.setWidth 32) → ∀ v,
      r.1.mem v ≠ s.mem v ∨ r.1.tables.translate L v ≠ s.tables.translate L v → InWindow v

/-! ### Calls that the defects do not touch -/

/-- The descriptor leads to a file or a device, and the offset is not negative. -/
def Mappable (k : Kernel) (fd offset : ℤ) : Prop :=
  ∃ file node, processGetFd k.proc fd = some file ∧ file.node = some node ∧
    (k.vfs.nodes node).type ≠ .dir ∧ 0 ≤ offset

/-- Nothing goes wrong once the range is mapped, and `linux_mmap` knows what to put there. -/
def Fillable (k : Kernel) (flags : BitVec 32) (fd offset : ℤ) : Prop :=
  flags &&& linuxMapAnon ≠ 0 ∨
    (if 0 ≤ fd then Mappable k fd offset else flags &&& (linuxMapPrivate ||| linuxMapShared) ≠ 0)

/-- A request that the defects do not touch: an empty one; one whose size wraps to zero; one at the
pointer that fits below the limit and can be filled; or one at a base of the caller's that is turned
away before anything is mapped, or that begins in the window and can be filled. -/
def OrderlyMmap (k : Kernel) (s : AddressSpace) (addr length : ℕ) (flags : BitVec 32)
    (fd offset : ℤ) : Prop :=
  length = 0 ∨ linuxPageUp length = 0 ∨
    if Fixed addr flags then
      s.mm.mmapLimit < addr + linuxPageUp length ∨ Kindless flags fd ∨
        linuxUserBase ≤ addr ∧ Fillable k flags fd offset
    else s.mm.mmapNext + linuxPageUp length ≤ s.mm.mmapLimit ∧ Fillable k flags fd offset

def Orderly (k : Kernel) (s : AddressSpace) : MemoryCall → Prop
  | .mmap addr length _ flags fd offset =>
    OrderlyMmap k s addr.toNat length.toNat (flags.setWidth 32) (fd.setWidth 32).toInt offset.toInt
  | .munmap _ _ => True
  | .brk _ => True

/-- The states that calls with the property `P` lead to, each with the ranges handed out on the way. -/
inductive SpaceRun (L : Layout) (P : Kernel → AddressSpace → MemoryCall → Prop) (s₀ : AddressSpace) :
    AddressSpace → List (ℕ × ℕ) → Prop
  | start : SpaceRun L P s₀ s₀ []
  | step {s : AddressSpace} {granted : List (ℕ × ℕ)} {r : AddressSpace × ℤ} (k : Kernel)
      (c : MemoryCall) : SpaceRun L P s₀ s granted → P k s c →
      linuxMemoryCall L k s c = some r → SpaceRun L P s₀ r.1 (c.grants r.2 ++ granted)

/-! ### The pieces of a request -/

variable {L : Layout} {k : Kernel} {s : AddressSpace} {r : AddressSpace × ℤ} {flags : BitVec 32}
  {fd offset : ℤ} {addr length base size : ℕ} {granted : List (ℕ × ℕ)}

theorem linuxMmapLimit_eq : linuxMmapLimit = 1325400064 := rfl

theorem linuxPageUp_lt (value : ℕ) : linuxPageUp value < word := by
  rw [linuxPageUp, word_eq]
  omega

theorem le_linuxPageUp (hlen : length < word) : linuxPageUp length = 0 ∨ length ≤ linuxPageUp length := by
  rw [word_eq] at hlen
  rw [linuxPageUp, word_eq]
  omega

theorem toI64_of_lt (h : base < 2 ^ 63) : toI64 base = base := if_pos h

theorem vfsReadNode_spec {node : VfsNode} {off buf count : ℕ} {n : ℤ} {bytes : List Byte}
    (htype : node.type ≠ .dir) (hbuf : buf ≠ 0)
    (h : vfsReadNode node off buf count = some (n, bytes)) : 0 ≤ n ∧ bytes.length ≤ count := by
  rw [vfsReadNode, if_neg (not_or.2 ⟨hbuf, htype⟩)] at h
  split at h
  · cases h
    exact ⟨le_rfl, Nat.zero_le _⟩
  · obtain ⟨d, -, hd⟩ := Option.bind_eq_some_iff.1 h
    split at hd
    · cases hd
    · cases hd
      refine ⟨Int.natCast_nonneg _, ?_⟩
      rw [List.length_take]
      exact (min_le_left _ _).trans (min_le_left _ _)

def AgreeOutside (base size : ℕ) (m m' : Mem) : Prop := ∀ v, v < base ∨ base + size ≤ v → m' v = m v

theorem agreeOutside_memset (m : Mem) (base size : ℕ) (value : Byte) :
    AgreeOutside base size m (memset m base value size) := fun _ h => memset_of_not_mem h

theorem AgreeOutside.overlay {m m' : Mem} {bytes : List Byte} (h : AgreeOutside base size m m')
    (hlen : bytes.length ≤ size) : AgreeOutside base size m (Bytes.overlay m' base bytes) := by
  intro v hv
  rw [← h v hv]
  rcases hv with hv | hv
  · exact Bytes.overlay_of_lt bytes hv
  · exact Bytes.overlay_of_ge (by omega)

/-- **The end for a file**: the range is filled, and nothing else moves. -/
theorem linuxMapFile_done (hfd : Mappable k fd offset) (hbase : base ≠ 0) (hlt : base < 2 ^ 63)
    (hlen : length ≤ size) (h : linuxMapFile k s base size length fd offset = some r) :
    r.2 = base ∧ r.1.mm = s.mm ∧ r.1.tables = s.tables ∧ AgreeOutside base size s.mem r.1.mem := by
  obtain ⟨file, node, hget, hnode, htype, hoff⟩ := hfd
  rw [linuxMapFile, hget, Option.bind_some, hnode] at h
  simp only [if_neg (not_lt.2 hoff)] at h
  obtain ⟨⟨n, bytes⟩, hread, rfl⟩ := Option.map_eq_some_iff.1 h
  obtain ⟨hn, hbytes⟩ := vfsReadNode_spec htype hbase hread
  simp only [if_neg (not_lt.2 hn), toI64_of_lt hlt, true_and]
  exact (agreeOutside_memset _ _ _ _).overlay (hbytes.trans hlen)

/-- A range that begins in the window of user mode and ends below its top. -/
structure Placed (base size length : ℕ) : Prop where
  nonzero : base ≠ 0
  pos : 0 < size
  fits : base + size ≤ linuxMmapLimit
  covers : length ≤ size

/-- What a request comes to that is carried out. -/
structure Carried (L : Layout) (s : AddressSpace) (r : AddressSpace × ℤ) (base size : ℕ) : Prop where
  result : r.2 = base
  mm : r.1.mm = s.mm
  mem : AgreeOutside base size s.mem r.1.mem
  tables : MapsWithin L s.tables (r.1.tables, 0) linuxMmapLimit (rangeStart base) (rangeEnd base size)

/-- **A placed range that can be filled** is mapped and filled. -/
theorem linuxMapAt_carried (hopen : OpenBelow L s.tables linuxMmapLimit)
    (hlimit : s.mm.mmapLimit = linuxMmapLimit) (hp : Placed base size length)
    (hfill : Fillable k flags fd offset)
    (h : linuxMapAt L k s base size length flags fd offset = some r) : Carried L s r base size := by
  obtain ⟨hbase, hsize, hfits, hlen⟩ := hp
  have htop := linuxMmapLimit_eq
  have hsum : (base + size) % word = base + size := Nat.mod_eq_of_lt (by rw [word_eq]; omega)
  have hlt : base < 2 ^ 63 := by omega
  have hmap := mapsWithin_range hopen (by norm_num) (by norm_num) hsize hfits
  have hkind : ¬ Kindless flags fd := by
    rintro ⟨hnone, hneg⟩
    rw [BitVec.or_assoc, and_or_eq_zero] at hnone
    rcases hfill with hanon | hrest
    · exact hanon hnone.1
    · rw [if_neg (not_le.2 hneg)] at hrest
      exact hrest hnone.2
  rw [linuxMapAt, hsum, hlimit, if_neg (by omega), if_neg hkind] at h
  simp only [if_neg (show ¬ (vmmMapRangeIdentity L s.tables base size vmmUserFlags).2 < 0 by
    rw [hmap.result]; norm_num), toI64_of_lt hlt] at h
  have htables : MapsWithin L s.tables ((vmmMapRangeIdentity L s.tables base size vmmUserFlags).1, 0)
      linuxMmapLimit (rangeStart base) (rangeEnd base size) := ⟨rfl, hmap.opened, hmap.frame⟩
  by_cases hanon : flags &&& linuxMapAnon = 0
  · rw [if_neg (not_not.2 hanon)] at h
    by_cases hneg : 0 ≤ fd
    · rw [if_pos hneg] at h
      have hfile := hfill.resolve_left (not_not.2 hanon)
      rw [if_pos hneg] at hfile
      obtain ⟨hrc, hmm, htab, hmem⟩ := linuxMapFile_done hfile hbase hlt hlen h
      exact ⟨hrc, hmm, hmem, by rw [htab]; exact htables⟩
    · rw [if_neg hneg] at h
      cases h
      exact ⟨rfl, rfl, fun _ _ => rfl, htables⟩
  · rw [if_pos hanon] at h
    cases h
    exact ⟨rfl, rfl, agreeOutside_memset _ _ _ _, htables⟩

theorem linuxMapAt_of_anon (L : Layout) (k : Kernel) (s : AddressSpace) (base size length : ℕ)
    (fd offset : ℤ) (hanon : flags &&& linuxMapAnon ≠ 0) :
    ∃ r, linuxMapAt L k s base size length flags fd offset = some r := by
  rw [linuxMapAt]
  split
  · exact ⟨_, rfl⟩
  split
  · exact ⟨_, rfl⟩
  dsimp only
  split
  · exact ⟨_, rfl⟩
  · exact ⟨_, rfl⟩

/-! ### The invariant -/

/-- What every state of an orderly run satisfies: the fields of `linux_mm_reset`, the heap between its
bounds, and the ranges handed out below the pointer. -/
structure SpaceInv (L : Layout) (s : AddressSpace) (granted : List (ℕ × ℕ)) : Prop where
  opened : OpenBelow L s.tables linuxMmapLimit
  floor : s.mm.brkFloor = linuxHeapBase
  limit : s.mm.brkLimit = linuxMmapBase
  top : s.mm.mmapLimit = linuxMmapLimit
  heap : s.mm.brkFloor ≤ s.mm.brkCurrent ∧ s.mm.brkCurrent ≤ s.mm.brkLimit
  next : s.mm.brkLimit ≤ s.mm.mmapNext ∧ s.mm.mmapNext ≤ s.mm.mmapLimit
  below : ∀ r ∈ granted, s.mm.brkLimit ≤ r.1 ∧ r.1 + r.2 ≤ s.mm.mmapNext
  apart : granted.Pairwise Apart

theorem SpaceInv.safe (h : SpaceInv L s granted) : SpaceSafe s granted where
  apart := h.apart
  heap := fun r hr => by
    have := h.below r hr
    have := h.heap
    exact .inr (by simp only; omega)
  inside := fun r hr => ⟨(h.below r hr).1, (h.below r hr).2.trans h.next.2⟩
  brk := h.heap

/-- **What an orderly request does**: it fails and leaves everything alone, or its range is carried out
at the pointer, which moves behind it, or its range is carried out in the window. -/
theorem linuxMmap_cases (hi : SpaceInv L s granted) (haddr : addr < word) (hlen : length < word)
    (ho : OrderlyMmap k s addr length flags fd offset)
    (h : linuxMmap L k s addr length flags fd offset = some r) :
    (r.1 = s ∧ r.2 < 0) ∨
    (¬ Fixed addr flags ∧ 0 < linuxPageUp length ∧
      s.mm.mmapNext + linuxPageUp length ≤ s.mm.mmapLimit ∧
      Carried L { s with mm := { s.mm with mmapNext := s.mm.mmapNext + linuxPageUp length } } r
        s.mm.mmapNext (linuxPageUp length)) ∨
    (Fixed addr flags ∧ linuxUserBase ≤ addr ∧ addr + linuxPageUp length ≤ linuxMmapLimit ∧
      0 < linuxPageUp length ∧ Carried L s r addr (linuxPageUp length)) := by
  have hnext := hi.next
  rw [hi.limit, hi.top, linuxMmapLimit_eq] at hnext
  have hset : s.mm.mmapNext ≠ 0 := fun h0 => absurd hnext.1 (by rw [h0]; norm_num)
  rw [linuxMmap] at h
  by_cases hzero : length = 0
  · rw [if_pos hzero] at h
    cases h
    exact .inl ⟨rfl, by norm_num⟩
  rw [if_neg hzero, if_neg hset] at h
  have ho := ho.resolve_left hzero
  have hsame : { s with mm := s.mm } = s := rfl
  rw [hsame] at h
  simp only at h
  -- a size that wraps to zero is turned away with the pointer where it was
  by_cases hwrap : linuxPageUp length = 0
  · rw [hwrap] at h
    have hn : (s.mm.mmapNext + 0) % word = s.mm.mmapNext := by
      rw [Nat.add_zero]
      exact Nat.mod_eq_of_lt (by rw [word_eq]; omega)
    have hmod : ∀ b : ℕ, (b + 0) % word ≤ b := fun b => Nat.mod_le _ _
    rw [hn] at h
    split at h
    · rw [linuxMapAt, if_pos (.inl (hmod _))] at h
      cases h
      exact .inl ⟨rfl, by norm_num⟩
    · rw [linuxMapAt, if_pos (.inl (hmod _))] at h
      cases h
      exact .inl ⟨rfl, by norm_num⟩
  have ho := ho.resolve_left hwrap
  have hpos := Nat.pos_of_ne_zero hwrap
  have hle := (le_linuxPageUp hlen).resolve_left hwrap
  by_cases hfix : Fixed addr flags
  · rw [if_pos hfix] at h ho
    by_cases hfar : s.mm.mmapLimit < addr + linuxPageUp length
    · -- above the limit, or wrapped around to below the base
      have hlarge : (addr + linuxPageUp length) % word ≤ addr ∨
          s.mm.mmapLimit < (addr + linuxPageUp length) % word := by
        have := linuxPageUp_lt length
        rw [word_eq] at *
        omega
      rw [linuxMapAt, if_pos hlarge] at h
      cases h
      exact .inl ⟨rfl, by norm_num⟩
    · rcases ho with hf | hkind | ⟨hbase, hfill⟩
      · exact absurd hf hfar
      · rw [linuxMapAt, if_pos hkind] at h
        split at h
        · cases h
          exact .inl ⟨rfl, by norm_num⟩
        · cases h
          exact .inl ⟨rfl, by norm_num⟩
      · rw [hi.top, not_lt] at hfar
        refine .inr (.inr ⟨hfix, hbase, hfar, hpos, ?_⟩)
        exact linuxMapAt_carried hi.opened hi.top ⟨hfix.2, hpos, hfar, hle⟩ hfill h
  · rw [if_neg hfix] at h ho
    obtain ⟨hfit, hfill⟩ := ho
    have hfit' := hfit
    rw [hi.top] at hfit'
    have hlt : s.mm.mmapNext + linuxPageUp length < word := hfit'.trans_lt (by norm_num)
    rw [Nat.mod_eq_of_lt hlt] at h
    exact .inr (.inl ⟨hfix, hpos, hfit,
      linuxMapAt_carried hi.opened hi.top ⟨hset, hpos, hfit', hle⟩ hfill h⟩)

theorem SpaceInv.brk (hi : SpaceInv L s granted) (addr : ℕ) :
    SpaceInv L (linuxBrk L s addr).1 granted := by
  obtain ⟨hopen, hfloor, hlimit, htop, hheap, hnext, hbelow, hapart⟩ := id hi
  have hset : s.mm.brkFloor ≠ 0 := by rw [hfloor]; norm_num
  have hsame : ({ s with mm := s.mm } : AddressSpace) = s := rfl
  rw [linuxBrk, if_neg hset, hsame]
  dsimp only
  split
  · exact hi
  split
  · exact hi
  next hrange =>
  push Not at hrange
  have htop' := linuxMmapLimit_eq
  have hopen' : OpenBelow L (if s.mm.brkCurrent < linuxPageUp addr then
      vmmMapRangeIdentity L s.tables s.mm.brkCurrent (linuxPageUp addr - s.mm.brkCurrent) vmmUserFlags
      else (s.tables, 0)).1 linuxMmapLimit := by
    split
    · exact (mapsWithin_range hopen (by norm_num) (by norm_num) (by omega) (by omega)).opened
    · exact hopen
  generalize (if s.mm.brkCurrent < linuxPageUp addr then
      vmmMapRangeIdentity L s.tables s.mm.brkCurrent (linuxPageUp addr - s.mm.brkCurrent) vmmUserFlags
      else (s.tables, 0)) = r at hopen' ⊢
  split
  · exact ⟨hopen', hfloor, hlimit, htop, hheap, hnext, hbelow, hapart⟩
  · exact ⟨hopen', hfloor, hlimit, htop, ⟨hrange.1, hrange.2.le⟩, hnext, hbelow, hapart⟩

theorem Carried.inWindow {v : ℕ} (h : Carried L s r base size) (hbase : linuxUserBase ≤ base)
    (hsize : 0 < size) (hfits : base + size ≤ linuxMmapLimit)
    (hv : r.1.mem v ≠ s.mem v ∨ r.1.tables.translate L v ≠ s.tables.translate L v) : InWindow v := by
  have htop := linuxMmapLimit_eq
  have hend : rangeEnd base size = _ := rangeEnd_eq (by omega)
  have hstart : rangeStart base = 2 ^ 21 * (base / 2 ^ 21) := rfl
  have hin : rangeStart base ≤ v ∧ v < rangeEnd base size := by
    rcases hv with hv | hv
    · by_contra hout
      exact hv (h.mem v (by omega))
    · by_contra hout
      exact hv (h.tables.frame v (by omega))
  -- both ends of the window's mappings are multiples of the page size
  have hlow : linuxUserBase = 2 ^ 21 * 2 := rfl
  have hhigh : linuxStackTop = 1346371584 := rfl
  rw [InWindow]
  omega

/-- **One call** of an orderly run keeps the invariant. -/
theorem SpaceInv.step {c : MemoryCall} (hi : SpaceInv L s granted) (ho : Orderly k s c)
    (h : linuxMemoryCall L k s c = some r) : SpaceInv L r.1 (c.grants r.2 ++ granted) := by
  cases c with
  | brk addr =>
    obtain rfl := Option.some.inj h
    exact hi.brk addr.toNat
  | munmap addr length =>
    obtain rfl := Option.some.inj h
    exact hi
  | mmap addr length prot flags fd offset =>
    rcases linuxMmap_cases hi addr.isLt length.isLt ho h with
      ⟨hsame, hneg⟩ | ⟨hfix, hpos, hfit, hdone⟩ | ⟨hfix, -, -, -, hdone⟩
    · rw [MemoryCall.grants, if_pos (.inr hneg), hsame]
      exact hi
    · have hrc : ¬ r.2 < 0 := by rw [hdone.result]; exact not_lt.2 (Int.natCast_nonneg _)
      rw [MemoryCall.grants, if_neg (not_or.2 ⟨hfix, hrc⟩), hdone.result, Int.toNat_natCast]
      have hmm := hdone.mm
      refine ⟨hdone.tables.opened, by rw [hmm]; exact hi.floor, by rw [hmm]; exact hi.limit,
        by rw [hmm]; exact hi.top, by rw [hmm]; exact hi.heap, ?_, ?_, ?_⟩
      · rw [hmm]
        exact ⟨hi.next.1.trans (Nat.le_add_right _ _), hfit⟩
      · rw [hmm]
        intro g hg
        rcases List.mem_cons.1 hg with rfl | hg
        · exact ⟨hi.next.1, le_rfl⟩
        · exact ⟨(hi.below g hg).1, (hi.below g hg).2.trans (Nat.le_add_right _ _)⟩
      · exact List.pairwise_cons.2 ⟨fun g hg => .inr (hi.below g hg).2, hi.apart⟩
    · rw [MemoryCall.grants, if_pos (.inl hfix)]
      have hmm := hdone.mm
      exact ⟨hdone.tables.opened, by rw [hmm]; exact hi.floor, by rw [hmm]; exact hi.limit,
        by rw [hmm]; exact hi.top, by rw [hmm]; exact hi.heap, by rw [hmm]; exact hi.next,
        by rw [hmm]; exact hi.below, hi.apart⟩

/-- **An orderly call does what is asked of it.** -/
theorem SpaceInv.stepSafe {c : MemoryCall} (hi : SpaceInv L s granted) (ho : Orderly k s c)
    (h : linuxMemoryCall L k s c = some r) : StepSafe L s c r := by
  constructor
  · rintro addr length prot flags fd offset rfl hneg
    rcases linuxMmap_cases hi addr.isLt length.isLt ho h with
      ⟨hsame, -⟩ | ⟨-, -, -, hdone⟩ | ⟨-, -, -, -, hdone⟩
    · rw [hsame]
      exact ⟨rfl, rfl, rfl⟩
    · rw [hdone.result] at hneg
      exact absurd hneg (not_lt.2 (Int.natCast_nonneg _))
    · rw [hdone.result] at hneg
      exact absurd hneg (not_lt.2 (Int.natCast_nonneg _))
  · rintro addr length prot flags fd offset rfl hfix v hv
    rcases linuxMmap_cases hi addr.isLt length.isLt ho h with
      ⟨hsame, -⟩ | ⟨hnot, -⟩ | ⟨-, hbase, hfits, hpos, hdone⟩
    · rw [hsame] at hv
      exact absurd hv (by simp)
    · exact absurd hfix hnot
    · exact hdone.inWindow hbase hpos hfits hv

/-! ### Runs -/

variable {s₀ : AddressSpace} {tables : Vmm} {mem : Mem}

theorem linuxPageUp_of_dvd {value : ℕ} (hd : 4096 ∣ value) (hlt : value < 2 ^ 63) :
    linuxPageUp value = value := by
  rw [linuxPageUp, word_eq]
  omega

theorem linuxLaunch_mm (h : linuxLaunch L tables mem = some s₀) :
    s₀.mm = linuxMmReset linuxHeapBase linuxMmapBase linuxMmapLimit := by
  rw [linuxLaunch] at h
  split at h
  · cases h
  · obtain rfl := Option.some.inj h
    rfl

/-- **Where a program starts**, the window is mapped for user mode. -/
theorem spaceInv_of_launch (ht : Vmm.TidyReached L tables)
    (h : linuxLaunch L tables mem = some s₀) : SpaceInv L s₀ [] := by
  obtain ⟨o, hi⟩ := ht.inv
  have hstart : rangeStart linuxHeapBase = linuxHeapBase := by norm_num [rangeStart, hugePageBase]
  have hend : rangeEnd linuxHeapBase (linuxStackTop - linuxHeapBase) = linuxStackTop := by
    norm_num [rangeEnd, hugePageBase]
  have htidy : RangeTidy linuxHeapBase (linuxStackTop - linuxHeapBase) vmmUserFlags :=
    .inr (.inr (.inr ⟨by norm_num, fun b hb _ hlt =>
      flagsFit_user hb (hlt.trans (by rw [hend]; norm_num))⟩))
  obtain ⟨hi', -, hreach⟩ := hi.mapRange htidy
  rw [linuxLaunch] at h
  split at h
  · cases h
  next hok =>
  obtain rfl := Option.some.inj h
  have hzero : (vmmMapRangeIdentity L tables linuxHeapBase (linuxStackTop - linuxHeapBase)
      vmmUserFlags).2 = 0 :=
    (vmmMapRangeIdentity_result _ _ _ _ _).resolve_right fun hr => hok (by rw [hr]; norm_num)
  have hopen : OpenBelow L (vmmMapRangeIdentity L tables linuxHeapBase
      (linuxStackTop - linuxHeapBase) vmmUserFlags).1 linuxMmapLimit := by
    refine ⟨hi', fun v hv => ?_⟩
    have hgiga : v / 2 ^ 30 = 0 ∨ v / 2 ^ 30 = 1 := by
      have := linuxMmapLimit_eq
      omega
    rcases hgiga with hg | hg
    · obtain ⟨n, m, hw⟩ := (hreach hzero linuxHeapBase le_rfl (by norm_num)).userWay (by decide)
      exact ⟨n, m, hw.congr (by rw [hg]; norm_num)⟩
    · obtain ⟨n, m, hw⟩ := (hreach hzero 0x40000000 (by norm_num) (by norm_num)).userWay (by decide)
      exact ⟨n, m, hw.congr (by rw [hg]; norm_num)⟩
  exact ⟨hopen, linuxPageUp_of_dvd (by norm_num) (by norm_num), rfl, rfl,
    by norm_num [linuxMmReset, linuxPageUp], by norm_num [linuxMmReset, linuxPageUp], by simp,
    List.Pairwise.nil⟩

theorem SpaceRun.inv (h₀ : SpaceInv L s₀ []) (h : SpaceRun L Orderly s₀ s granted) :
    SpaceInv L s granted := by
  induction h with
  | start => exact h₀
  | step k c _ ho hcall ih => exact ih.step ho hcall

/-- **The address space of a Linux program**: in every state that orderly calls lead to, the ranges
handed out are apart from each other and from the heap and lie inside the window of the mappings, the
heap is between its bounds, and the next orderly call, when it fails, leaves the pointer and the memory
alone, and when its base is fixed, stays in the window. -/
theorem spaceSafe_of_orderlyRun (ht : Vmm.TidyReached L tables)
    (h₀ : linuxLaunch L tables mem = some s₀) (h : SpaceRun L Orderly s₀ s granted) :
    SpaceSafe s granted ∧
      ∀ (k : Kernel) (c : MemoryCall) (r : AddressSpace × ℤ), Orderly k s c →
        linuxMemoryCall L k s c = some r → StepSafe L s c r := by
  have hi := h.inv (spaceInv_of_launch ht h₀)
  exact ⟨hi.safe, fun k c r ho hcall => hi.stepSafe ho hcall⟩

def onePage : Vmm :=
  (mapHugeIdentity layoutAt1MiB (bootTables layoutAt1MiB) linuxHeapBase vmmUserFlags).1

def twoPages : Vmm := (mapHugeIdentity layoutAt1MiB onePage 0x40000000 vmmUserFlags).1

theorem flagsFit_page {a : ℕ} (h : hugePageBase a < lowerHalfLimit) :
    FlagsFit (hugePageBase a) vmmUserFlags :=
  flagsFit_user (hugePageBase_facts a).1 (h.trans_le (by norm_num))

theorem twoPages_reached : Vmm.TidyReached layoutAt1MiB twoPages := by
  have hstep : ∀ s a, mapHugeIdentity layoutAt1MiB s a vmmUserFlags =
      vmmMapPage layoutAt1MiB s a a vmmUserFlags := fun s a => by rw [vmmMapPage, if_neg (by simp)]
  rw [twoPages, onePage, hstep, hstep]
  exact .step (.mapPage _ _ _) (.step (.mapPage _ _ _) .boot fun _ => flagsFit_page) fun _ =>
    flagsFit_page

theorem twoPages_launch (mem : Mem) : ∃ s₀, linuxLaunch layoutAt1MiB twoPages mem = some s₀ := by
  have hone : (mapHugeIdentity layoutAt1MiB (bootTables layoutAt1MiB) linuxHeapBase
      vmmUserFlags).2 = 0 := by decide +kernel
  have htwo : (mapHugeIdentity layoutAt1MiB onePage 0x40000000 vmmUserFlags).2 = 0 := by
    decide +kernel
  obtain ⟨⟨o₁, h₁⟩, -, hr₁⟩ :=
    (vmmInv_boot layoutAt1MiB).mapHugeIdentity (c := linuxHeapBase) flagsFit_page
  obtain ⟨h₂, hx, hr₂⟩ := h₁.mapHugeIdentity (c := 0x40000000) flagsFit_page
  have hopen : OpenBelow layoutAt1MiB twoPages linuxStackTop := by
    refine ⟨h₂, fun v hv => ?_⟩
    have htop : linuxStackTop = 1346371584 := rfl
    have hgiga : v / 2 ^ 30 = 0 ∨ v / 2 ^ 30 = 1 := by omega
    rcases hgiga with hg | hg
    · obtain ⟨n, m, hw⟩ := ((hr₁ hone linuxHeapBase rfl).extends hx).userWay (by decide)
      exact ⟨n, m, hw.congr (by rw [hg]; norm_num)⟩
    · obtain ⟨n, m, hw⟩ := (hr₂ htwo 0x40000000 rfl).userWay (by decide)
      exact ⟨n, m, hw.congr (by rw [hg]; norm_num)⟩
  have hmap : MapsWithin layoutAt1MiB twoPages (vmmMapRangeIdentity layoutAt1MiB twoPages linuxHeapBase
      (linuxStackTop - linuxHeapBase) vmmUserFlags) linuxStackTop _ _ :=
    mapsWithin_range hopen (by norm_num) (by norm_num) (by norm_num) (by norm_num)
  rw [linuxLaunch, if_neg (by rw [hmap.result]; norm_num)]
  exact ⟨_, rfl⟩

/-- A private mapping of three pages right after the start, and what is asked of the state after it. -/
theorem spaceSafe_of_orderlyRun_anon :
    ∃ s, SpaceSafe s [(linuxMmapBase, 0x3000)] ∧
      ∀ (k : Kernel) (c : MemoryCall) (r : AddressSpace × ℤ), Orderly k s c →
        linuxMemoryCall layoutAt1MiB k s c = some r → StepSafe layoutAt1MiB s c r := by
  obtain ⟨s₀, h₀⟩ := twoPages_launch fun _ => 0
  have hi := spaceInv_of_launch twoPages_reached h₀
  have hmm := linuxLaunch_mm h₀
  have hnext : s₀.mm.mmapNext = linuxMmapBase := by
    rw [hmm]
    exact linuxPageUp_of_dvd (by norm_num) (by norm_num)
  have hsize : linuxPageUp 0x3000 = 0x3000 := linuxPageUp_of_dvd (by norm_num) (by norm_num)
  have hanon : (0x22 : BitVec 32) &&& linuxMapAnon ≠ 0 := by decide
  have hfit : linuxMmapBase + linuxPageUp 0x3000 ≤ linuxMmapLimit := by rw [hsize]; norm_num
  have ho : Orderly userKernel s₀ (.mmap 0 0x3000 3 0x22 (-1) 0) := by
    refine .inr (.inr ?_)
    rw [if_neg (by decide), hnext, hi.top]
    exact ⟨hfit, .inl hanon⟩
  obtain ⟨r, hr⟩ := linuxMapAt_of_anon layoutAt1MiB userKernel
    { s₀ with mm := { s₀.mm with mmapNext := (s₀.mm.mmapNext + linuxPageUp 0x3000) % word } }
    s₀.mm.mmapNext (linuxPageUp 0x3000) 0x3000 (-1) 0 hanon
  have hcall : linuxMemoryCall layoutAt1MiB userKernel s₀ (.mmap 0 0x3000 3 0x22 (-1) 0) = some r := by
    have hset : s₀.mm.mmapNext ≠ 0 := by rw [hnext]; norm_num
    refine Eq.trans ?_ hr
    simp only [linuxMemoryCall, linuxMmap]
    rw [if_neg (by decide), if_neg (by decide), if_neg hset]
    rfl
  have hdone := linuxMapAt_carried
    (s := { s₀ with mm := { s₀.mm with mmapNext := (s₀.mm.mmapNext + linuxPageUp 0x3000) % word } })
    hi.opened hi.top ⟨by rw [hnext]; norm_num, by rw [hsize]; norm_num, by rw [hnext]; exact hfit, hsize.ge⟩
    (.inl hanon) hr
  have hrun := SpaceRun.step userKernel _ .start ho hcall
  have hgrant : (MemoryCall.mmap 0 0x3000 3 0x22 (-1) 0).grants r.2 = [(linuxMmapBase, 0x3000)] := by
    rw [MemoryCall.grants, hdone.result, hnext, if_neg (by decide),
      show (0x3000 : BitVec 64).toNat = 0x3000 from rfl, hsize]
    rfl
  rw [hgrant] at hrun
  exact ⟨r.1, spaceSafe_of_orderlyRun twoPages_reached h₀ hrun⟩

/-- **A request beyond the limit fails, and moves the pointer nevertheless.** -/
theorem not_spaceSafe_of_run :
    ¬ ∀ (L : Layout) (tables : Vmm) (mem : Mem) (s₀ s : AddressSpace) (granted : List (ℕ × ℕ)),
      Vmm.TidyReached L tables → linuxLaunch L tables mem = some s₀ →
      SpaceRun L (fun _ _ _ => True) s₀ s granted →
      SpaceSafe s granted ∧ ∀ (k : Kernel) (c : MemoryCall) (r : AddressSpace × ℤ),
        linuxMemoryCall L k s c = some r → StepSafe L s c r := by
  intro h
  obtain ⟨s₀, h₀⟩ := twoPages_launch fun _ => 0
  have hmm := linuxLaunch_mm h₀
  have hnext : s₀.mm.mmapNext = linuxMmapBase := by
    rw [hmm]
    exact linuxPageUp_of_dvd (by norm_num) (by norm_num)
  have hsize : linuxPageUp 0x40000000 = 0x40000000 := linuxPageUp_of_dvd (by norm_num) (by norm_num)
  have htop : s₀.mm.mmapLimit = linuxMmapLimit := by rw [hmm]; rfl
  have hcall : linuxMemoryCall layoutAt1MiB userKernel s₀ (.mmap 0 0x40000000 3 0x22 (-1) 0) =
      some ({ s₀ with mm := { s₀.mm with mmapNext := 0x58000000 } }, -linuxEnomem) := by
    have hset : s₀.mm.mmapNext ≠ 0 := by rw [hnext]; norm_num
    simp only [linuxMemoryCall, linuxMmap]
    rw [if_neg (by decide), if_neg (by decide), if_neg hset, linuxMapAt,
      show (0x40000000 : BitVec 64).toNat = 0x40000000 from rfl, hsize, hnext, htop,
      if_pos (.inr (by norm_num))]
    norm_num
  have hsafe := (h _ _ _ s₀ s₀ [] twoPages_reached h₀ .start).2 userKernel _ _ hcall
  have hkept := (hsafe.failed 0 0x40000000 3 0x22 (-1) 0 rfl (by norm_num)).1
  rw [hnext] at hkept
  exact absurd hkept (by norm_num)

end Tnu.Linux
