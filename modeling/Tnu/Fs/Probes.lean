/-
**Recognising a file system.**

`fat32_probe`, `ext2_probe` and `ext4_probe` each look at the first bytes of an image.  The two ext drivers share a
superblock: `ext4_probe` asks for a feature that ext2 does not have, and `ext2_probe` does not ask that there be
none.  `ext4_probe` multiplies a number of blocks of 64 bits with their size, and compares what is left of it.

Main results:

* `ext2Probe_isSome_iff`, `ext4Probe_isSome_iff`, `fat32Probe_isSome_iff` — the images that are accepted;
* `probeLaw_iff` — **the images of which the three do not say too much**.
-/

import Tnu.Fs.Ext2

set_option autoImplicit false

namespace Tnu.Fs

/-! ### The source -/

/-- `sb->blocks_count_hi << 32 | sb->blocks_count_lo`. -/
def ext4Blocks (m : Mem) : ℕ := load m (1024 + 336) 4 * 2 ^ 32 + load m (1024 + 4) 4

/-- `is_ext4`. -/
def isExt4 (m : Mem) : Bool :=
  load m (1024 + 96) 4 &&& 0x40 ≠ 0 || load m (1024 + 100) 4 &&& 0x08 ≠ 0 || load m (1024 + 96) 4 &&& 0x80 ≠ 0 ||
    load m (1024 + 92) 4 &&& 0x04 ≠ 0 || load m (1024 + 336) 4 ≠ 0 || 32 < load m (1024 + 254) 2

/-- `ext4_probe`, of the image at address 0 and of pointers that may be null. -/
def ext4Probe (m : Mem) (image : Bool) (size : ℕ) (out : Bool) : Option FsProbeResult :=
  let logBlockSize := load m (1024 + 24) 4
  let blockSize := 1024 * 2 ^ logBlockSize
  let totalBytes := blockSize * ext4Blocks m % 2 ^ 64
  if image = false ∨ out = false ∨ size < 1024 + 348 then none
  else if load m (1024 + 56) 2 ≠ 0xef53 then none
  else if 6 < logBlockSize ∨ load m (1024 + 4) 4 = 0 then none
  else if isExt4 m = false then none
  else if size < totalBytes then none
  else some
    { name := lit "ext4", valid := true, blockSize, totalBlocks := ext4Blocks m, totalBytes
      rootInode := 2, label := copyVolumeName (Bytes.window m (1024 + 120) 16) }

/-- The fields that a probe may read, by their places and their lengths; an image without room for the header is not
read at all. -/
def probeReads (header size : ℕ) (fields : List (ℕ × ℕ)) : List (ℕ × ℕ) := if size < header then [] else fields

def fat32Fields : List (ℕ × ℕ) :=
  [(510, 1), (511, 1), (11, 2), (13, 1), (16, 1), (36, 4), (44, 4), (17, 2), (22, 2), (19, 2), (32, 4), (71, 11)]

def ext2Fields : List (ℕ × ℕ) :=
  [(1024 + 56, 2), (1024 + 24, 4), (1024 + 4, 4), (1024, 4), (1024 + 120, 16)]

def ext4Fields : List (ℕ × ℕ) :=
  [(1024 + 56, 2), (1024 + 24, 4), (1024 + 4, 4), (1024 + 96, 4), (1024 + 100, 4), (1024 + 92, 4), (1024 + 336, 4),
    (1024 + 254, 2), (1024 + 120, 16)]

/-! ### What the probes should say -/

/-- What is reported is the size of the file system, and the image holds it. -/
def Sound (size : ℕ) (r : Option FsProbeResult) : Prop :=
  ∀ out ∈ r, out.totalBytes = out.blockSize * out.totalBlocks ∧ out.totalBytes ≤ size

/-- The three probes of an image. -/
structure ProbeLaw (m : Mem) (size : ℕ) : Prop where
  fat32 : Sound size (fat32Probe m true size true)
  ext2 : Sound size (ext2Probe m true size true)
  ext4 : Sound size (ext4Probe m true size true)
  inside : ∀ r ∈ probeReads 512 size fat32Fields ++ probeReads (1024 + 136) size ext2Fields ++
    probeReads (1024 + 348) size ext4Fields, r.1 + r.2 ≤ size
  fat32_ext2 : ¬ ((fat32Probe m true size true).isSome ∧ (ext2Probe m true size true).isSome)
  fat32_ext4 : ¬ ((fat32Probe m true size true).isSome ∧ (ext4Probe m true size true).isSome)
  ext2_ext4 : ¬ ((ext2Probe m true size true).isSome ∧ (ext4Probe m true size true).isSome)

/-- A superblock of ext2 or ext4: its number of blocks is not zero. -/
structure ExtSuper (m : Mem) (size : ℕ) : Prop where
  room : 1024 + 136 ≤ size
  magic : load m (1024 + 56) 2 = 0xef53
  block : load m (1024 + 24) 4 ≤ 6
  blocks : load m (1024 + 4) 4 ≠ 0

/-- A superblock with inodes, whose lower half of the number of blocks is within the image. -/
structure Ext2Super (m : Mem) (size : ℕ) : Prop extends ExtSuper m size where
  inodes : load m 1024 4 ≠ 0
  fits : 1024 * 2 ^ load m (1024 + 24) 4 * load m (1024 + 4) 4 ≤ size

/-- A superblock with a feature of ext4, whose number of bytes is within the image when 64 bits are kept of it. -/
structure Ext4Super (m : Mem) (size : ℕ) : Prop extends ExtSuper m size where
  room4 : 1024 + 348 ≤ size
  feature : isExt4 m = true
  fits : 1024 * 2 ^ load m (1024 + 24) 4 * ext4Blocks m % 2 ^ 64 ≤ size

/-- The sectors of a FAT volume. -/
def fatSectors (m : Mem) : ℕ := if load m 19 2 ≠ 0 then load m 19 2 else load m 32 4

/-- A boot sector of FAT32, whose sectors are within the image. -/
structure FatBoot (m : Mem) (size : ℕ) : Prop where
  room : 512 ≤ size
  signature : m 510 = 0x55 ∧ m 511 = 0xaa
  sector : load m 11 2 ∈ [512, 1024, 2048, 4096]
  numbers : load m 13 1 ≠ 0 ∧ load m 16 1 ≠ 0 ∧ load m 36 4 ≠ 0 ∧ 2 ≤ load m 44 4
  old : load m 17 2 = 0 ∧ load m 22 2 = 0
  sectors : fatSectors m ≠ 0
  fits : fatSectors m * load m 11 2 ≤ size

variable {m : Mem} {size : ℕ}

/-! ### The images that are accepted -/

theorem isSome_ite_none {α : Type} {p : Prop} [Decidable p] {o : Option α} :
    (if p then none else o).isSome ↔ ¬p ∧ o.isSome := by
  split_ifs with h <;> simp [h]

theorem ext2Probe_isSome_iff : (ext2Probe m true size true).isSome ↔ Ext2Super m size := by
  simp only [ext2Probe, isSome_ite_none, Bool.true_eq_false, false_or, not_or, not_lt, not_not]
  constructor
  · rintro ⟨hroom, hmagic, ⟨hblock, hblocks, hinodes⟩, hfits, -⟩
    exact ⟨⟨hroom, hmagic, hblock, hblocks⟩, hinodes, hfits⟩
  · rintro ⟨⟨hroom, hmagic, hblock, hblocks⟩, hinodes, hfits⟩
    exact ⟨hroom, hmagic, ⟨hblock, hblocks, hinodes⟩, hfits, rfl⟩

theorem ext4Probe_isSome_iff : (ext4Probe m true size true).isSome ↔ Ext4Super m size := by
  simp only [ext4Probe, isSome_ite_none, Bool.true_eq_false, false_or, not_or, not_lt, not_not, Bool.not_eq_false]
  constructor
  · rintro ⟨hroom, hmagic, ⟨hblock, hblocks⟩, hfeature, hfits, -⟩
    exact ⟨⟨by omega, hmagic, hblock, hblocks⟩, hroom, hfeature, hfits⟩
  · rintro ⟨⟨-, hmagic, hblock, hblocks⟩, hroom, hfeature, hfits⟩
    exact ⟨hroom, hmagic, ⟨hblock, hblocks⟩, hfeature, hfits, rfl⟩

theorem fat32Probe_isSome_iff : (fat32Probe m true size true).isSome ↔ FatBoot m size := by
  simp only [fat32Probe, isSome_ite_none, Bool.true_eq_false, false_or, not_or, not_lt, not_not, not_and_or]
  constructor
  · rintro ⟨-, ⟨hroom, hsignature⟩, hsector, hnumbers, hold, ⟨hsectors, hfits⟩, -⟩
    refine ⟨hroom, hsignature, ?_, hnumbers, hold, hsectors, hfits⟩
    rcases hsector with h | h | h | h <;> simp [h]
  · rintro ⟨hroom, hsignature, hsector, hnumbers, hold, hsectors, hfits⟩
    exact ⟨by omega, ⟨hroom, hsignature⟩, by simpa using hsector, hnumbers, hold, ⟨hsectors, hfits⟩, rfl⟩

theorem sound_ext2Probe : Sound size (ext2Probe m true size true) := by
  intro out h
  simp only [ext2Probe, Option.mem_ite_none_left, Option.mem_some, not_lt] at h
  obtain ⟨-, -, -, hfits, rfl⟩ := h
  exact ⟨rfl, hfits⟩

theorem sound_fat32Probe : Sound size (fat32Probe m true size true) := by
  intro out h
  simp only [fat32Probe, Option.mem_ite_none_left, Option.mem_some, not_or, not_lt] at h
  obtain ⟨-, -, -, -, -, ⟨-, hfits⟩, rfl⟩ := h
  exact ⟨Nat.mul_comm _ _, hfits⟩

/-- **What `ext4_probe` reports is right** exactly when the number of bytes is one of 64 bits. -/
theorem sound_ext4Probe_iff : Sound size (ext4Probe m true size true) ↔
    (Ext4Super m size → 1024 * 2 ^ load m (1024 + 24) 4 * ext4Blocks m < 2 ^ 64) := by
  constructor
  · intro h hsuper
    obtain ⟨out, hout⟩ := Option.isSome_iff_exists.1 (ext4Probe_isSome_iff.2 hsuper)
    have hsound := (h out hout).1
    simp only [ext4Probe, ← Option.mem_def, Option.mem_ite_none_left, Option.mem_some] at hout
    obtain ⟨-, -, -, -, -, rfl⟩ := hout
    exact hsound ▸ Nat.mod_lt _ (by norm_num)
  · intro h out hout
    have hlt := h (ext4Probe_isSome_iff.1 (Option.isSome_iff_exists.2 ⟨out, hout⟩))
    simp only [ext4Probe, Option.mem_ite_none_left, Option.mem_some, not_lt] at hout
    obtain ⟨-, -, -, -, hfits, rfl⟩ := hout
    exact ⟨Nat.mod_eq_of_lt hlt, hfits⟩

theorem inside_of_fields {header : ℕ} {fields : List (ℕ × ℕ)} (h : ∀ r ∈ fields, r.1 + r.2 ≤ header) :
    ∀ r ∈ probeReads header size fields, r.1 + r.2 ≤ size := by
  intro r hr
  rw [probeReads] at hr
  split_ifs at hr with hroom
  · exact absurd hr List.not_mem_nil
  · exact (h r hr).trans (not_lt.1 hroom)

/-- **The three probes say what they should exactly when** an ext4 superblock is of a file system of fewer than 2^64
bytes without inodes, and no superblock of the two stands behind a FAT32 boot sector. -/
theorem probeLaw_iff (m : Mem) (size : ℕ) : ProbeLaw m size ↔
    (Ext4Super m size → 1024 * 2 ^ load m (1024 + 24) 4 * ext4Blocks m < 2 ^ 64 ∧ load m 1024 4 = 0) ∧
      (FatBoot m size → ¬ Ext2Super m size ∧ ¬ Ext4Super m size) := by
  constructor
  · rintro ⟨-, -, hext4, -, h1, h2, h3⟩
    rw [fat32Probe_isSome_iff, ext2Probe_isSome_iff] at h1
    rw [fat32Probe_isSome_iff, ext4Probe_isSome_iff] at h2
    rw [ext2Probe_isSome_iff, ext4Probe_isSome_iff] at h3
    refine ⟨fun hsuper => ?_, fun hboot => ⟨fun h => h1 ⟨hboot, h⟩, fun h => h2 ⟨hboot, h⟩⟩⟩
    have hlt := sound_ext4Probe_iff.1 hext4 hsuper
    refine ⟨hlt, not_not.1 fun hinodes => h3 ⟨⟨hsuper.toExtSuper, hinodes, ?_⟩, hsuper⟩⟩
    -- the lower half of the number of blocks is no more than the number
    have hfits := hsuper.fits
    rw [Nat.mod_eq_of_lt hlt] at hfits
    exact (Nat.mul_le_mul_left _ (Nat.le_add_left _ _)).trans hfits
  · rintro ⟨hext4, hboot⟩
    refine ⟨sound_fat32Probe, sound_ext2Probe, sound_ext4Probe_iff.2 fun h => (hext4 h).1, ?_, ?_, ?_, ?_⟩
    · simp only [List.mem_append]
      rintro r ((hr | hr) | hr)
      · exact inside_of_fields (by decide) r hr
      · exact inside_of_fields (by decide) r hr
      · exact inside_of_fields (by decide) r hr
    · rw [fat32Probe_isSome_iff, ext2Probe_isSome_iff]
      exact fun h => (hboot h.1).1 h.2
    · rw [fat32Probe_isSome_iff, ext4Probe_isSome_iff]
      exact fun h => (hboot h.1).2 h.2
    · rw [ext2Probe_isSome_iff, ext4Probe_isSome_iff]
      exact fun h => h.1.inodes (hext4 h.2).2

/-- An image of 2048 bytes with a superblock of one inode, one block and extents. -/
def extentImage : Mem := fun i =>
  if i = 1024 then 1 else if i = 1024 + 4 then 1 else if i = 1024 + 56 then 0x53 else if i = 1024 + 57 then 0xef
  else if i = 1024 + 96 then 0x40 else 0

/-- It is accepted as ext4 and as ext2. -/
theorem not_probeLaw : ¬ ProbeLaw extentImage 2048 := fun h =>
  h.ext2_ext4 ⟨ext2Probe_isSome_iff.2 ⟨⟨by decide, by decide, by decide, by decide⟩, by decide, by decide⟩,
    ext4Probe_isSome_iff.2 ⟨⟨by decide, by decide, by decide, by decide⟩, by decide, by decide, by decide⟩⟩

end Tnu.Fs
