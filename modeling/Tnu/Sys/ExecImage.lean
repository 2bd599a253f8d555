/-
**Loading a program beside the boot modules.**

`sys_exec_image` loads a native program at the addresses its file asks for, in memory that is mapped
one to one.  The files of the root file system can be borrowed from a boot module, which stands in the
same memory.  The heap is placed behind the modules; the segments and the stack are not kept away from
them.

Main definitions:

* `BootModule`, `moduleOverlapsRange`, `bootModulesEndInRange` — the modules.

Main results:

* `Brk.Inside.run` — the heap stays in its range;
* `loadedHeaders_eq` — headers that are not overwritten are those of the file;
* `modulesSafe_iff` — **no module is touched exactly when the segments and the stack are clear
  of them**.
-/

import Tnu.Elf
import Tnu.Mm.Pmm
import Tnu.Sys.ExecStack

set_option autoImplicit false

namespace Tnu.Sys

open Bytes Mm

/-! ### Boot modules -/

def pageAlignUp (value : ℕ) : ℕ := (value + pageSize - 1) % word / pageSize * pageSize

/-- `struct boot_module`: the end is behind the last byte. -/
structure BootModule where
  start : ℕ
  stop : ℕ
  deriving DecidableEq, Repr

/-- `rootfs` and `install_image` of `struct boot_info`. -/
structure BootInfo where
  rootfs : BootModule
  installImage : BootModule
  deriving DecidableEq, Repr

/-- `module_overlaps_range`: the common part. -/
def moduleOverlapsRange (b : BootModule) (start stop : ℕ) : Option (ℕ × ℕ) :=
  if b.start = 0 ∨ b.stop ≤ b.start ∨ b.stop ≤ start ∨ stop ≤ b.start then none
  else
    let s := if start < b.start then b.start else start
    let e := if b.stop < stop then b.stop else stop
    if e ≤ s then none else some (s, e)

def bootModuleRangeOverlap (boot : BootInfo) (start stop : ℕ) : Bool :=
  (moduleOverlapsRange boot.rootfs start stop).isSome ||
    (moduleOverlapsRange boot.installImage start stop).isSome

def bootModulesEndInRange (boot : BootInfo) (start stop : ℕ) : ℕ :=
  let maxEnd := ((moduleOverlapsRange boot.rootfs start stop).elim 0 Prod.snd)
  match moduleOverlapsRange boot.installImage start stop with
  | some (_, e) => if maxEnd < e then e else maxEnd
  | none => maxEnd

/-- The address is in a module; a module at the address zero is absent. -/
def BootModule.Holds (b : BootModule) (i : ℕ) : Prop := b.start ≠ 0 ∧ b.start ≤ i ∧ i < b.stop

def BootInfo.Holds (boot : BootInfo) (i : ℕ) : Prop := boot.rootfs.Holds i ∨ boot.installImage.Holds i

/-! ### The heap of a program -/

/-- `brk_floor`, `brk_current` and `heap_limit` of a process. -/
structure Brk where
  floor : ℕ
  current : ℕ
  limit : ℕ
  deriving DecidableEq, Repr

/-- `sys_brk` of a process, with the success of the mapping: the heap it leaves and the result. -/
def sysBrk (mapped : Bool) (next : ℕ) (b : Brk) : Brk × ℕ :=
  let b := if b.floor = 0 then ⟨0x5000000, 0x5000000, 0x7000000⟩ else b
  if next = 0 then (b, b.current)
  else if next < b.floor then (b, b.current)
  else if b.limit < next then (b, b.current)
  else if b.current < next ∧ mapped = false then (b, b.current)
  else ({ b with current := next }, next)

/-- Calls of `sys_brk`. -/
def Brk.run (b : Brk) (calls : List (Bool × ℕ)) : Brk :=
  calls.foldl (fun b call => (sysBrk call.1 call.2 b).1) b

/-- The heap is in a range. -/
structure Brk.Inside (b : Brk) (base limit : ℕ) : Prop where
  pos : 0 < base
  floor : base ≤ b.floor
  current : b.current ≤ limit
  limit : b.limit = limit

/-! ### `sys_exec_image` -/

abbrev userHeapBase : ℕ := 0x8000000

/-- The place of the heap: behind the modules in front of the stack. -/
def heapBase (boot : BootInfo) (usableBytes : ℕ) : ℕ :=
  let protectedEnd := bootModulesEndInRange boot userBase (userStack usableBytes).1
  if userHeapBase < protectedEnd then pageAlignUp protectedEnd else userHeapBase

/-- `elf_end`: the heap starts behind the last segment, and not before its base. -/
def elfEnd (base highest : ℕ) : ℕ := if pageAlignUp highest < base then base else pageAlignUp highest

/-- A program that `sys_exec_image` has loaded: memory, the stack pointer, the entry, the heap of the
process if there is one, and what was read and written. -/
structure ExecImage where
  mem : Mem
  sp : ℕ
  entry : ℕ
  brk : Option Brk
  accesses : List Access

/-- `sys_exec_image` with the data of the file that was found, up to the entry of the program; `mapped`
is the success of the two mappings, `proc` the heap of the current process. -/
def sysExecImage (boot : BootInfo) (usableBytes : ℕ) (mapped : Bool) (proc : Option Brk) (m : Mem)
    (image size : ℕ) (path : CString) (argc : ℤ) (argv : Option (ℕ → Option CString)) : Option ExecImage :=
  match elf64Validate m image size with
  | none => none
  | some info =>
    let stack := userStack usableBytes
    let base := heapBase boot usableBytes
    if stack.1 ≤ base ∨ stack.1 - base < pageSize then none
    else if inUserRange info base = false then none
    else if mapped = false then none
    else
      let cleared := memset m stack.1 0 (stack.2 - stack.1)
      match elf64Load cleared image size with
      | (none, _) => none
      | (some loaded, accesses) =>
        let s := nativeStack loaded stack.2 (execArgs path argc argv)
        some
          { mem := s.store
            sp := s.sp
            entry := info.entry
            brk := proc.map fun _ => ⟨elfEnd base info.highestVaddr, elfEnd base info.highestVaddr, stack.1⟩
            accesses := .write stack.1 (stack.2 - stack.1) :: (accesses ++ [.write s.sp (stack.2 - s.sp)]) }

/-! ### What is asked of it -/

/-- The headers from `i` on that the loader copies, each as it is found after the copies before it. -/
def loadedHeaders (image : ℕ) : ℕ → ℕ → Mem → List Phdr
  | 0, _, _ => []
  | left + 1, i, m =>
    if i < ePhnum m image then
      let ph := phdr m image i
      if ph.type ≠ ptLoad then loadedHeaders image left (i + 1) m
      else ph :: loadedHeaders image left (i + 1) ((ph.segment image 0).load m)
    else []

def Phdr.extent (ph : Phdr) : ℕ := max ph.filesz ph.memsz

/-- **No module is touched**: nothing is written to one, no heap that is granted later reaches one, and
what a file borrows from the root module is unchanged. -/
structure ModulesSafe (boot : BootInfo) (m : Mem) (r : ExecImage) : Prop where
  writes : ∀ a len, .write a len ∈ r.accesses → ∀ i, a ≤ i → i < a + len → ¬ boot.Holds i
  heap : ∀ b ∈ r.brk, ∀ calls, ∀ i, (b.run calls).floor ≤ i → i < (b.run calls).current → ¬ boot.Holds i
  files : ∀ data len, boot.rootfs.start ≠ 0 → boot.rootfs.start ≤ data →
    data + len ≤ boot.rootfs.stop → window r.mem data len = window m data len

/-- The stack and the segments of the program are clear of the modules. -/
structure ModulesClear (boot : BootInfo) (usableBytes : ℕ) (m : Mem) (image : ℕ) : Prop where
  stack : bootModuleRangeOverlap boot (userStack usableBytes).1 (userStack usableBytes).2 = false
  segments : ∀ ph ∈ loadedHeaders image maxPhnum 0
      (memset m (userStack usableBytes).1 0 ((userStack usableBytes).2 - (userStack usableBytes).1)),
    bootModuleRangeOverlap boot ph.vaddr (ph.vaddr + Phdr.extent ph) = false

variable {boot : BootInfo} {b : BootModule} {brk : Brk} {m m' : Mem} {image size i left : ℕ}
  {start stop base limit usableBytes : ℕ}

/-! ### Overlaps -/

theorem moduleOverlapsRange_eq :
    moduleOverlapsRange b start stop =
      if b.start ≠ 0 ∧ max start b.start < min stop b.stop then
        some (max start b.start, min stop b.stop)
      else none := by
  unfold moduleOverlapsRange
  have hs : (if start < b.start then b.start else start) = max start b.start := by
    split_ifs <;> omega
  have he : (if b.stop < stop then b.stop else stop) = min stop b.stop := by
    split_ifs <;> omega
  rw [hs, he]
  by_cases hsome : b.start ≠ 0 ∧ max start b.start < min stop b.stop
  · rw [if_neg (by omega), if_neg (by omega), if_pos hsome]
  · rw [if_neg hsome]
    dsimp only
    split_ifs
    · rfl
    · rfl
    · omega

theorem moduleOverlapsRange_eq_none_iff :
    moduleOverlapsRange b start stop = none ↔ ∀ i, start ≤ i → i < stop → ¬ b.Holds i := by
  rw [moduleOverlapsRange_eq]
  unfold BootModule.Holds
  split_ifs with hsome
  · refine iff_of_false (by simp) fun h => ?_
    exact h (max start b.start) (by omega) (by omega) ⟨hsome.1, by omega, by omega⟩
  · refine iff_of_true rfl fun i hlo hhi hi => ?_
    omega

theorem bootModuleRangeOverlap_eq_false_iff :
    bootModuleRangeOverlap boot start stop = false ↔ ∀ i, start ≤ i → i < stop → ¬ boot.Holds i := by
  unfold bootModuleRangeOverlap BootInfo.Holds
  rw [Bool.or_eq_false_iff, Option.isSome_eq_false_iff, Option.isSome_eq_false_iff, Option.isNone_iff_eq_none,
    Option.isNone_iff_eq_none, moduleOverlapsRange_eq_none_iff, moduleOverlapsRange_eq_none_iff]
  constructor
  · rintro ⟨hroot, hinstall⟩ i hlo hhi (h | h)
    · exact hroot i hlo hhi h
    · exact hinstall i hlo hhi h
  · intro h
    exact ⟨fun i hlo hhi hi => h i hlo hhi (.inl hi), fun i hlo hhi hi => h i hlo hhi (.inr hi)⟩

theorem lt_of_moduleOverlapsRange {s e : ℕ} (h : moduleOverlapsRange b start stop = some (s, e))
    (hi : b.Holds i) (hstop : i < stop) : i < e := by
  rw [moduleOverlapsRange_eq] at h
  obtain ⟨-, -, hlt⟩ := hi
  split_ifs at h
  obtain ⟨-, rfl⟩ := Prod.mk.inj (Option.some.inj h)
  omega

theorem lt_bootModulesEndInRange (hi : boot.Holds i) (hstart : start ≤ i) (hstop : i < stop) :
    i < bootModulesEndInRange boot start stop := by
  have hsome : ∀ b : BootModule, b.Holds i → ∃ s e, moduleOverlapsRange b start stop = some (s, e) ∧ i < e := by
    intro b hb
    cases hover : moduleOverlapsRange b start stop with
    | none => exact absurd hb (moduleOverlapsRange_eq_none_iff.1 hover i hstart hstop)
    | some p => exact ⟨p.1, p.2, rfl, lt_of_moduleOverlapsRange hover hb hstop⟩
  unfold bootModulesEndInRange
  rcases hi with hi | hi
  · obtain ⟨s, e, hover, hlt⟩ := hsome _ hi
    rw [hover]
    dsimp only [Option.elim]
    split
    · split_ifs <;> omega
    · exact hlt
  · obtain ⟨s, e, hover, hlt⟩ := hsome _ hi
    rw [hover]
    dsimp only
    split_ifs <;> omega

theorem bootModulesEndInRange_le : bootModulesEndInRange boot start stop ≤ stop := by
  have hle : ∀ (b : BootModule) (s e : ℕ), moduleOverlapsRange b start stop = some (s, e) → e ≤ stop := by
    intro b s e h
    rw [moduleOverlapsRange_eq] at h
    split_ifs at h
    obtain ⟨-, rfl⟩ := Prod.mk.inj (Option.some.inj h)
    omega
  unfold bootModulesEndInRange
  have hroot : (moduleOverlapsRange boot.rootfs start stop).elim 0 Prod.snd ≤ stop := by
    cases hover : moduleOverlapsRange boot.rootfs start stop with
    | none => exact Nat.zero_le _
    | some p => exact hle _ _ _ hover
  dsimp only
  split
  · rename_i s e hover
    have := hle _ _ _ hover
    split_ifs <;> omega
  · exact hroot

/-! ### The heap -/

theorem Brk.Inside.sysBrk (h : brk.Inside base limit) (mapped : Bool) (next : ℕ) :
    (sysBrk mapped next brk).1.Inside base limit := by
  have hpos := h.pos
  have hfloor := h.floor
  have hlimit := h.limit
  have hne : brk.floor ≠ 0 := by omega
  unfold Sys.sysBrk
  simp only [if_neg hne]
  split_ifs with hzero hlow hhigh hmap
  · exact h
  · exact h
  · exact h
  · exact h
  · exact ⟨hpos, hfloor, by dsimp only; omega, hlimit⟩

theorem Brk.Inside.run (h : brk.Inside base limit) (calls : List (Bool × ℕ)) :
    (brk.run calls).Inside base limit := by
  induction calls generalizing brk with
  | nil => exact h
  | cons call calls ih => exact ih (h.sysBrk call.1 call.2)

theorem userStack_lt (usableBytes : ℕ) :
    0x50000000 ≤ (userStack usableBytes).1 ∧ (userStack usableBytes).1 + 0x400000 = (userStack usableBytes).2 ∧
      (userStack usableBytes).2 ≤ 0x60400000 := by
  rw [userStack]
  split_ifs <;> norm_num

theorem pageAlignUp_bounds {value : ℕ} (h : value < 2 ^ 63) :
    value ≤ pageAlignUp value ∧ pageAlignUp value < value + pageSize := by
  have hpage : pageSize = 4096 := rfl
  have hword : word = 2 ^ 64 := rfl
  unfold pageAlignUp
  rw [Nat.mod_eq_of_lt (by omega), hpage]
  omega

theorem elfEnd_bounds {highest : ℕ} (h : highest ≤ base) (hbase : base < 2 ^ 63) :
    base ≤ elfEnd base highest ∧ elfEnd base highest < base + pageSize := by
  have hpage : pageSize = 4096 := rfl
  have hup := pageAlignUp_bounds (by omega : highest < 2 ^ 63)
  unfold elfEnd
  split_ifs <;> omega

theorem heapBase_bounds (boot : BootInfo) (usableBytes : ℕ) : userHeapBase ≤ heapBase boot usableBytes ∧
    bootModulesEndInRange boot userBase (userStack usableBytes).1 ≤ heapBase boot usableBytes := by
  have hstack := userStack_lt usableBytes
  have hle : bootModulesEndInRange boot userBase (userStack usableBytes).1 ≤ (userStack usableBytes).1 :=
    bootModulesEndInRange_le
  have hup := pageAlignUp_bounds
    (by omega : bootModulesEndInRange boot userBase (userStack usableBytes).1 < 2 ^ 63)
  unfold heapBase
  dsimp only
  split_ifs <;> omega

theorem not_holds_of_heapBase (hlo : heapBase boot usableBytes ≤ i)
    (hhi : i < (userStack usableBytes).1) : ¬ boot.Holds i := by
  intro hi
  have hheap : userHeapBase = 0x8000000 := rfl
  have hbase := heapBase_bounds boot usableBytes
  have huser : userBase = 0x4000000 := rfl
  have hend := lt_bootModulesEndInRange hi (by omega : userBase ≤ i) hhi
  omega

/-! ### The loader -/

theorem load_of_not_mem_extent {g : Segment} (h : i < g.dest ∨ g.dest + max g.filesz g.memsz ≤ i) :
    g.load m i = m i := by
  rw [Segment.load, memset_of_not_mem (by omega), memcpy_of_not_mem (by omega)]

theorem dest_of_mem_loadedHeaders {ph : Phdr} (h : ph ∈ loadedHeaders image left i m) :
    (ph.segment image 0).dest = ph.vaddr := by
  induction left generalizing i m with
  | zero => exact absurd h List.not_mem_nil
  | succ left ih =>
    unfold loadedHeaders at h
    dsimp only at h
    split_ifs at h
    · exact ih h
    · rcases List.mem_cons.1 h with rfl | h
      · rw [Phdr.segment_dest, Nat.zero_add, Nat.mod_eq_of_lt (phdr_vaddr_lt m image i)]
      · exact ih h
    · exact absurd h List.not_mem_nil

variable {a x len : ℕ}

theorem mem_loadLoop_write :
    .write a len ∈ (loadLoop image 0 (fun _ => true) left i m).2 ↔
      ∃ ph ∈ loadedHeaders image left i m, .write a len ∈ (ph.segment image 0).accesses := by
  induction left generalizing i m with
  | zero => simp [loadLoop, loadedHeaders]
  | succ left ih =>
    unfold loadLoop loadedHeaders
    by_cases hi : i < ePhnum m image
    · by_cases htype : (phdr m image i).type = ptLoad
      · simp [hi, htype, ih]
      · simp [hi, htype, ih]
    · simp [hi]

theorem loadLoop_of_not_mem (h : ∀ ph ∈ loadedHeaders image left i m,
      x < (ph.segment image 0).dest ∨ (ph.segment image 0).dest + Phdr.extent ph ≤ x) :
    ∃ m', (loadLoop image 0 (fun _ => true) left i m).1 = some m' ∧ m' x = m x := by
  induction left generalizing i m with
  | zero => exact ⟨m, rfl, rfl⟩
  | succ left ih =>
    unfold loadLoop
    unfold loadedHeaders at h
    by_cases hi : i < ePhnum m image
    · by_cases htype : (phdr m image i).type = ptLoad
      · simp only [if_pos hi, htype, ne_eq, not_true_eq_false, if_false, List.mem_cons,
          forall_eq_or_imp] at h
        obtain ⟨m', hm', hx⟩ := ih h.2
        refine ⟨m', by simpa [hi, htype] using hm', ?_⟩
        rw [hx, load_of_not_mem_extent h.1]
      · simp only [if_pos hi, ne_eq, htype, not_false_eq_true, if_true] at h
        obtain ⟨m', hm', hx⟩ := ih h
        exact ⟨m', by simpa [hi, htype] using hm', hx⟩
    · exact ⟨m, by rw [if_neg hi], rfl⟩

theorem not_write_mem_headerReads : .write a len ∉ headerReads m image := by
  simp [headerReads]

theorem elf64Load_some {accesses : List Access} (h : elf64Load m image size = (some m', accesses)) :
    (loadLoop image 0 (fun _ => true) maxPhnum 0 m).1 = some m' ∧
      ∀ a len, .write a len ∈ accesses ↔
        ∃ ph ∈ loadedHeaders image maxPhnum 0 m, .write a len ∈ (ph.segment image 0).accesses := by
  unfold elf64Load at h
  cases hvalid : elf64Validate m image size with
  | none => simp [hvalid] at h
  | some info =>
    rw [hvalid] at h
    dsimp only at h
    split_ifs at h with hwindow
    · simp at h
    · obtain ⟨hmem, rfl⟩ := Prod.mk.inj h
      refine ⟨hmem, fun a len => ?_⟩
      rw [List.mem_append, ← mem_loadLoop_write]
      simp [not_write_mem_headerReads]

theorem mem_extent_iff {ph : Phdr} :
    (∃ a len, .write a len ∈ (ph.segment image 0).accesses ∧ a ≤ x ∧ x < a + len) ↔
      (ph.segment image 0).dest ≤ x ∧ x < (ph.segment image 0).dest + Phdr.extent ph := by
  have hextent : Phdr.extent ph = max (ph.segment image 0).filesz (ph.segment image 0).memsz := rfl
  rw [hextent]
  constructor
  · rintro ⟨a, len, hmem, hlo, hhi⟩
    rcases Segment.mem_accesses.1 hmem with heq | heq | heq
    · exact absurd heq (by simp)
    · obtain ⟨rfl, rfl⟩ := Access.write.inj heq
      omega
    · obtain ⟨rfl, rfl⟩ := Access.write.inj heq
      omega
  · rintro ⟨hlo, hhi⟩
    rcases Nat.lt_or_ge x ((ph.segment image 0).dest + (ph.segment image 0).filesz) with hlt | hge
    · exact ⟨_, _, Segment.mem_accesses.2 (.inr (.inl rfl)), hlo, hlt⟩
    · exact ⟨_, _, Segment.mem_accesses.2 (.inr (.inr rfl)), hge, by omega⟩

/-- **Headers that no segment overwrites** are copied as they stand in the file. -/
theorem loadedHeaders_eq (ht : TableOk m image size) (hm : SameImage image size m m')
    (hclear : ∀ ph ∈ loadHeaders m image i, RangesApart ph.vaddr (Phdr.extent ph) image size)
    (hleft : ePhnum m image - i ≤ left) :
    loadedHeaders image left i m' = loadHeaders m image i := by
  induction left generalizing i m' with
  | zero => rw [loadHeaders_of_le (by omega), loadedHeaders]
  | succ left ih =>
    rw [loadedHeaders, (hm.header ht).1]
    by_cases hi : i < ePhnum m image
    · have hcons := loadHeaders_of_lt hi
      rw [if_pos hi, (hm.phdr_eq ht hi).2]
      dsimp only
      by_cases htype : (phdr m image i).type = ptLoad
      · rw [if_pos htype] at hcons
        rw [if_neg (not_not_intro htype), hcons]
        rw [hcons] at hclear
        have hfirst := hclear _ List.mem_cons_self
        refine congrArg _ (ih (fun x hlo hhi => ?_)
          (fun ph hph => hclear ph (List.mem_cons_of_mem _ hph)) (by omega))
        rw [load_of_not_mem_extent]
        · exact hm x hlo hhi
        · rw [Phdr.segment_dest, Nat.zero_add, Nat.mod_eq_of_lt (phdr_vaddr_lt m image i)]
          change x < _ ∨ (phdr m image i).vaddr + Phdr.extent (phdr m image i) ≤ x
          rcases hfirst with hbelow | habove <;> omega
      · rw [if_neg htype] at hcons
        rw [if_pos htype, hcons]
        rw [hcons] at hclear
        exact ih hm hclear (by omega)
    · rw [if_neg hi, loadHeaders_of_le (not_lt.1 hi)]

/-! ### The program as a whole -/

variable {mapped : Bool} {proc : Option Brk} {path : CString} {argc : ℤ}
  {argv : Option (ℕ → Option CString)} {r : ExecImage}

/-- What is known of a program that was loaded. -/
structure Loaded (boot : BootInfo) (usableBytes : ℕ) (m : Mem) (image : ℕ) (r : ExecImage) : Prop where
  writes : ∀ a len, .write a len ∈ r.accesses ↔
    .write a len = Access.write (userStack usableBytes).1
        ((userStack usableBytes).2 - (userStack usableBytes).1) ∨
      .write a len = Access.write r.sp ((userStack usableBytes).2 - r.sp) ∨
      ∃ ph ∈ loadedHeaders image maxPhnum 0 (memset m (userStack usableBytes).1 0
          ((userStack usableBytes).2 - (userStack usableBytes).1)),
        .write a len ∈ (ph.segment image 0).accesses
  sp : (userStack usableBytes).1 ≤ r.sp ∧ r.sp ≤ (userStack usableBytes).2
  brk : ∀ b ∈ r.brk, b.Inside (heapBase boot usableBytes) (userStack usableBytes).1
  mem : ∀ x, (x < (userStack usableBytes).1 ∨ (userStack usableBytes).2 ≤ x) →
    (∀ ph ∈ loadedHeaders image maxPhnum 0 (memset m (userStack usableBytes).1 0
          ((userStack usableBytes).2 - (userStack usableBytes).1)),
        x < (ph.segment image 0).dest ∨ (ph.segment image 0).dest + Phdr.extent ph ≤ x) →
      r.mem x = m x

theorem loaded_of_sysExecImage
    (h : sysExecImage boot usableBytes mapped proc m image size path argc argv = some r) :
    Loaded boot usableBytes m image r := by
  have hstack := userStack_lt usableBytes
  unfold sysExecImage at h
  cases hvalid : elf64Validate m image size with
  | none => simp [hvalid] at h
  | some info =>
    rw [hvalid] at h
    dsimp only at h
    split_ifs at h with hroom haddr hmap
    cases hload : elf64Load (memset m (userStack usableBytes).1 0
        ((userStack usableBytes).2 - (userStack usableBytes).1)) image size with
    | mk mem accesses =>
    rw [hload] at h
    cases mem with
    | none => exact absurd h (by simp)
    | some loaded =>
    obtain rfl := Option.some.inj h
    obtain ⟨hmem, hwrites⟩ := elf64Load_some hload
    have hargs : (execArgs path argc argv).length ≤ maxArgs := (length_execArgs path argc argv).2
    have hargs' : (execArgs path argc argv).length ≤ 16 := hargs
    have hsp := sp_nativeStack loaded (userStack usableBytes).2 (execArgs path argc argv)
    have hstrs := length_flatten_args_le hargs
    refine ⟨fun a len => ?_, ?_, fun b hb => ?_, fun x hx hclear => ?_⟩
    · rw [List.mem_cons, List.mem_append, List.mem_singleton, hwrites]
      exact or_congr_right or_comm
    · dsimp only
      omega
    · obtain ⟨-, -, rfl⟩ := Option.map_eq_some_iff.1 hb
      rw [Bool.not_eq_false, inUserRange, Bool.and_eq_true, decide_eq_true_eq, decide_eq_true_eq] at haddr
      have hbase := heapBase_bounds boot usableBytes
      have hheap : userHeapBase = 0x8000000 := rfl
      have hpage : pageSize = 4096 := rfl
      have hend := elfEnd_bounds (by omega : info.highestVaddr ≤ heapBase boot usableBytes) (by omega)
      exact ⟨by omega, hend.1, by dsimp only; omega, rfl⟩
    · dsimp only
      rw [nativeStack_store_of_not_mem hargs (by omega) (by omega)]
      obtain ⟨m', hm', hx'⟩ := loadLoop_of_not_mem hclear
      obtain rfl := Option.some.inj (hmem.symm.trans hm')
      rw [hx', memset_of_not_mem (by omega)]

theorem userStack_ne (usableBytes : ℕ) (x : ℕ)
    (h : ∀ i, (userStack usableBytes).1 ≤ i → i < (userStack usableBytes).2 → ¬ boot.Holds i)
    (hx : boot.Holds x) : x < (userStack usableBytes).1 ∨ (userStack usableBytes).2 ≤ x := by
  by_contra hin
  exact h x (by omega) (by omega) hx

theorem ModulesClear.safe (h : ModulesClear boot usableBytes m image)
    (hr : Loaded boot usableBytes m image r) : ModulesSafe boot m r := by
  have hstack := bootModuleRangeOverlap_eq_false_iff.1 h.stack
  have hsegments : ∀ ph ∈ loadedHeaders image maxPhnum 0 (memset m (userStack usableBytes).1 0
        ((userStack usableBytes).2 - (userStack usableBytes).1)),
      ∀ x, (ph.segment image 0).dest ≤ x → x < (ph.segment image 0).dest + Phdr.extent ph →
        ¬ boot.Holds x := fun ph hph => by
    rw [dest_of_mem_loadedHeaders hph]
    exact bootModuleRangeOverlap_eq_false_iff.1 (h.segments ph hph)
  have hbounds := userStack_lt usableBytes
  refine ⟨fun a len hmem i hlo hhi => ?_, fun b hb calls i hlo hhi => ?_, fun data len hzero hlo hhi => ?_⟩
  · have hsp := hr.sp
    rcases (hr.writes a len).1 hmem with heq | heq | ⟨ph, hph, hacc⟩
    · obtain ⟨rfl, rfl⟩ := Access.write.inj heq
      exact hstack i hlo (by omega)
    · obtain ⟨rfl, rfl⟩ := Access.write.inj heq
      exact hstack i (by omega) (by omega)
    · have hin := mem_extent_iff.1 ⟨a, len, hacc, hlo, hhi⟩
      exact hsegments ph hph i hin.1 hin.2
  · have hinside := (hr.brk b hb).run calls
    exact not_holds_of_heapBase (hinside.floor.trans hlo) (hhi.trans_le hinside.current)
  · refine window_congr fun x hx hx' => ?_
    have hroot : boot.Holds x := .inl ⟨hzero, hlo.trans hx, by omega⟩
    refine hr.mem x (userStack_ne usableBytes x hstack hroot) fun ph hph => ?_
    by_contra hin
    exact hsegments ph hph x (by omega) (by omega) hroot

theorem ModulesSafe.clear (h : ModulesSafe boot m r) (hr : Loaded boot usableBytes m image r) :
    ModulesClear boot usableBytes m image := by
  refine ⟨bootModuleRangeOverlap_eq_false_iff.2 fun i hlo hhi => ?_,
    fun ph hph => bootModuleRangeOverlap_eq_false_iff.2 fun i hlo hhi => ?_⟩
  · exact h.writes _ _ ((hr.writes _ _).2 (.inl rfl)) i hlo (by omega)
  · rw [← dest_of_mem_loadedHeaders hph] at hlo hhi
    obtain ⟨a, len, hacc, halo, hahi⟩ := mem_extent_iff.2 ⟨hlo, hhi⟩
    exact h.writes a len ((hr.writes a len).2 (.inr (.inr ⟨ph, hph, hacc⟩))) i halo hahi

/-- **A program that is loaded touches no boot module, then or by its heap later, exactly when the stack
and the segments that are copied are clear of the modules.** -/
theorem modulesSafe_iff
    (h : sysExecImage boot usableBytes mapped proc m image size path argc argv = some r) :
    ModulesSafe boot m r ↔ ModulesClear boot usableBytes m image :=
  ⟨fun hsafe => hsafe.clear (loaded_of_sysExecImage h), fun hclear => hclear.safe (loaded_of_sysExecImage h)⟩

def lowModule : BootInfo := ⟨⟨0x3f00000, 0x4800000⟩, ⟨0, 0⟩⟩

theorem exists_sysExecImage (boot : BootInfo) (h : (sysExecImage boot 0x80000000 true none
      (tinyMem tinyPhdr) 0x100000 124 ⟨[], by simp⟩ 0 none).isSome) :
    ∃ r, sysExecImage boot 0x80000000 true none (tinyMem tinyPhdr) 0x100000 124 ⟨[], by simp⟩ 0 none =
      some r :=
  Option.isSome_iff_exists.1 h

theorem modulesSafe_iff_lowModule :
    ∃ r, sysExecImage lowModule 0x80000000 true none (tinyMem tinyPhdr) 0x100000 124 ⟨[], by simp⟩ 0
        none = some r ∧
      (ModulesSafe lowModule (tinyMem tinyPhdr) r ↔
        ModulesClear lowModule 0x80000000 (tinyMem tinyPhdr) 0x100000) := by
  obtain ⟨r, hr⟩ := exists_sysExecImage lowModule (by decide +kernel)
  exact ⟨r, hr, modulesSafe_iff hr⟩

/-- A program at the bottom of the window is copied into the root module. -/
theorem not_modulesSafe :
    ¬ ∀ (boot : BootInfo) (usableBytes : ℕ) (mapped : Bool) (proc : Option Brk) (m : Mem)
      (image size : ℕ) (path : CString) (argc : ℤ) (argv : Option (ℕ → Option CString)) (r : ExecImage),
      sysExecImage boot usableBytes mapped proc m image size path argc argv = some r →
        ModulesSafe boot m r := by
  intro hall
  obtain ⟨r, hr⟩ := exists_sysExecImage lowModule (by decide +kernel)
  have hclear := (hall _ _ _ _ _ _ _ _ _ _ r hr).clear (loaded_of_sysExecImage hr)
  have hsegment := hclear.segments tinyPhdr (by decide +kernel)
  exact absurd hsegment (by decide +kernel)

end Tnu.Sys
