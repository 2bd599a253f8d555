/-
**Formatting an ext2 file system.**

`ext2_mkfs` of `kernel/fs/ext2.c` lays one block group over a device of any size.  The bitmap of the blocks is one
block, with a bit for each of 8192 blocks, and the free blocks are counted for all blocks of the device.

Main results:

* `blockBit_layGroup`, `inodeBit_layGroup` — **the bits that are set**;
* `ext2Law_iff` — the law holds exactly for the devices that one bitmap covers, with a bitmap that starts
  with block 0.
-/

import Tnu.Fs.Fat32
import Tnu.Lib.Bitmap

set_option autoImplicit false

namespace Tnu.Fs

/-! ### The source -/

/-- `copy_label` of the ext2 driver. -/
def copyVolumeName (label : List Byte) : List Byte := (label.take 31).takeWhile (· ≠ 0)

/-- `write_label`, which pads with zeros. -/
def writeLabel (label : Option CString) : List Byte :=
  let label := (label.elim (lit "TIRAMISU") CString.chars).take 16
  label ++ List.replicate (16 - label.length) 0

/-- `ext2_probe`, of the image at address 0 and of pointers that may be null. -/
def ext2Probe (m : Mem) (image : Bool) (size : ℕ) (out : Bool) : Option FsProbeResult :=
  let logBlockSize := load m (1024 + 24) 4
  let blocksCount := load m (1024 + 4) 4
  let blockSize := 1024 * 2 ^ logBlockSize
  if image = false ∨ out = false ∨ size < 1024 + 136 then none
  else if load m (1024 + 56) 2 ≠ 0xef53 then none
  else if 6 < logBlockSize ∨ blocksCount = 0 ∨ load m 1024 4 = 0 then none
  else if size < blockSize * blocksCount then none
  else some
    { name := lit "ext2", valid := true, blockSize, totalBlocks := blocksCount, totalBytes := blockSize * blocksCount
      rootInode := 2, label := copyVolumeName (Bytes.window m (1024 + 120) 16) }

abbrev firstFreeBlock : ℕ := 134

def groupWrites (blocks : ℕ) (label : Option CString) : List (ℕ × List Byte) :=
  [(1024, Bytes.le 4 1024), (1028, Bytes.le 4 blocks), (1032, Bytes.le 4 (blocks / 20)),
    (1036, Bytes.le 4 (blocks - firstFreeBlock)), (1040, Bytes.le 4 (1024 - 11)), (1044, Bytes.le 4 1),
    (1048, Bytes.le 4 0), (1052, Bytes.le 4 0), (1056, Bytes.le 4 blocks), (1060, Bytes.le 4 blocks),
    (1064, Bytes.le 4 1024), (1076, Bytes.le 2 0), (1078, Bytes.le 2 32), (1080, Bytes.le 2 0xef53),
    (1082, Bytes.le 2 1), (1084, Bytes.le 2 1), (1100, Bytes.le 4 1), (1108, Bytes.le 4 11), (1112, Bytes.le 2 128),
    (1144, writeLabel label), (2048, Bytes.le 4 3), (2052, Bytes.le 4 4), (2056, Bytes.le 4 5),
    (2060, Bytes.le 2 (blocks - firstFreeBlock)), (2062, Bytes.le 2 (1024 - 11)), (2064, Bytes.le 2 1)]

/-- The fields of the root inode, and the entries of its directory. -/
def rootWrites : List (ℕ × List Byte) :=
  [(5248, Bytes.le 2 0o40755), (5252, Bytes.le 4 1024), (5274, Bytes.le 2 2), (5276, Bytes.le 4 2),
    (5288, Bytes.le 4 133), (136192, Bytes.le 4 2), (136196, Bytes.le 2 12), (136198, [1, 2]), (136200, [0x2e]),
    (136204, Bytes.le 4 2), (136208, Bytes.le 2 1012), (136210, [2, 2]), (136212, [0x2e, 0x2e])]

/-- What the formatter writes into an image that has been cleared. -/
def layGroup (m : Mem) (blocks : ℕ) (label : Option CString) : Mem :=
  let m := Bytes.copyAll m (groupWrites blocks label)
  let m := Bitmap.setAll m (3 * 1024) (List.range firstFreeBlock)
  let m := Bitmap.setAll m (3 * 1024) (List.range' blocks (8192 - blocks))
  let m := Bitmap.setAll m (4 * 1024) (List.range 11)
  let m := Bitmap.setAll m (4 * 1024) (List.range' 1024 (8192 - 1024))
  Bytes.copyAll m rootWrites

/-- `ext2_mkfs`, of the image at address 0 and of pointers that may be null. -/
def ext2Mkfs (m : Mem) (image : Bool) (size : UInt64) (label : Option CString) : ℤ × Mem :=
  if image = false ∨ size.toNat < 4 * 1024 * 1024 then (-1, m)
  else
    let m := memset m 0 0 size.toNat
    let blocks := size.toNat / 1024 % word32
    if blocks ≤ firstFreeBlock then (-1, m) else (0, layGroup m blocks label)

/-! ### What they should do -/

/-- The number of clear bits of the blocks from `first` on that the file system has. -/
def clearBlocks (m : Mem) (first : ℕ) : ℕ :=
  (List.range 8192).countP fun i =>
    decide (i + first < load m 1028 4) && !Bitmap.bit m (1024 * load m 2048 4) i

/-- The number of clear bits of the inodes, which are numbered from 1 on. -/
def clearInodes (m : Mem) : ℕ :=
  (List.range 8192).countP fun i => decide (i < load m 1024 4) && !Bitmap.bit m (1024 * load m 2052 4) i

/-- The blocks of the superblock, the group descriptor, the bitmaps and the table of inodes, and that of the root
directory. -/
def metadata (m : Mem) : List ℕ :=
  [1, 2, load m 2048 4, load m 2052 4] ++ List.range' (load m 2056 4) (load m 1024 4 * load m 1112 2 / 1024) ++
    [load m (1024 * load m 2056 4 + 128 + 40) 4]

/-- **A file system that agrees with itself**, when the first bit of the bitmap is that of the block `first`. -/
structure Ext2Volume (first size : ℕ) (m : Mem) : Prop where
  free_blocks : load m 1036 4 = clearBlocks m first
  free_blocks_group : load m 2060 2 = clearBlocks m first
  free_inodes : load m 1040 4 = clearInodes m
  free_inodes_group : load m 2062 2 = clearInodes m
  nodup : (metadata m).Nodup
  inside : ∀ b ∈ metadata m, first ≤ b ∧ b < load m 1028 4
  used : ∀ b ∈ metadata m, Bitmap.bit m (1024 * load m 2048 4) (b - first) = true
  root_used : Bitmap.bit m (1024 * load m 2052 4) (2 - 1) = true
  probed : (ext2Probe m true size true).isSome = true

/-- **What formatting should leave**: nothing is written beside the image, and a file system that is made agrees
with itself. -/
def Ext2Law (first : ℕ) (m : Mem) (image : Bool) (size : UInt64) (label : Option CString) : Prop :=
  (∀ i, size.toNat ≤ i → (ext2Mkfs m image size label).2 i = m i) ∧
    ((ext2Mkfs m image size label).1 = 0 → Ext2Volume first size.toNat (ext2Mkfs m image size label).2)

/-! ### What is written -/

variable {m : Mem} {blocks : ℕ} {label : Option CString}

theorem length_writeLabel (label : Option CString) : (writeLabel label).length = 16 := by
  rw [writeLabel, List.length_append, List.length_replicate, List.length_take]
  omega

theorem groupWrites_sizes (blocks : ℕ) (label : Option CString) :
    (groupWrites blocks label).map (fun w => (w.1, w.2.length)) =
      [(1024, 4), (1028, 4), (1032, 4), (1036, 4), (1040, 4), (1044, 4), (1048, 4), (1052, 4), (1056, 4), (1060, 4),
        (1064, 4), (1076, 2), (1078, 2), (1080, 2), (1082, 2), (1084, 2), (1100, 4), (1108, 4), (1112, 2), (1144, 16),
        (2048, 4), (2052, 4), (2056, 4), (2060, 2), (2062, 2), (2064, 2)] := by
  simp only [groupWrites, List.map_cons, List.map_nil, Bytes.length_le, length_writeLabel]

theorem groupWrites_pairwise (blocks : ℕ) (label : Option CString) :
    (groupWrites blocks label).Pairwise fun w w' => w.1 + w.2.length ≤ w'.1 := by
  have hpairs : ((groupWrites blocks label).map fun w => (w.1, w.2.length)).Pairwise
      fun w w' : ℕ × ℕ => w.1 + w.2 ≤ w'.1 := by
    rw [groupWrites_sizes]
    decide
  exact List.pairwise_map.1 hpairs

variable {a i n size : ℕ} {w : ℕ × List Byte}

theorem groupWrites_bounds (h : w ∈ groupWrites blocks label) :
    1024 ≤ w.1 ∧ w.1 + w.2.length ≤ 3072 := by
  have hsizes : ∀ p ∈ (groupWrites blocks label).map (fun w => (w.1, w.2.length)), 1024 ≤ p.1 ∧ p.1 + p.2 ≤ 3072 := by
    rw [groupWrites_sizes]
    decide
  exact hsizes _ (List.mem_map_of_mem h)

theorem rootWrites_bounds (h : w ∈ rootWrites) : 5120 ≤ w.1 ∧ w.1 + w.2.length ≤ 137216 := by
  have hall : ∀ w ∈ rootWrites, 5120 ≤ w.1 ∧ w.1 + w.2.length ≤ 137216 := by decide
  exact hall w h

theorem setAll_of_outside {k : ℕ} {is : List ℕ} (his : ∀ i ∈ is, i < 8192) (hk : k < a ∨ a + 1024 ≤ k) :
    Bitmap.setAll m a is k = m k :=
  Bitmap.setAll_of_not_mem fun i hi => by
    have := his i hi
    omega

theorem lt_of_mem_range (hn : n ≤ 8192) (h : i ∈ List.range n) : i < 8192 :=
  (List.mem_range.1 h).trans_le hn

theorem lt_of_mem_range' (h : i ∈ List.range' n (8192 - n)) : i < 8192 := by
  have := List.mem_range'_1.1 h
  omega

theorem layGroup_low (h : i < 3072) :
    layGroup m blocks label i = Bytes.copyAll m (groupWrites blocks label) i := by
  rw [layGroup, Bytes.copyAll_of_not_mem fun w hw => Or.inl (h.trans_le ((by decide : 3072 ≤ 5120).trans
      (rootWrites_bounds hw).1)),
    setAll_of_outside (fun _ => lt_of_mem_range') (by omega),
    setAll_of_outside (fun _ => lt_of_mem_range (by decide)) (by omega),
    setAll_of_outside (fun _ => lt_of_mem_range') (by omega),
    setAll_of_outside (fun _ => lt_of_mem_range (by decide)) (by omega)]

theorem load_layGroup {w : ℕ} (hmem : (a, Bytes.le w n) ∈ groupWrites blocks label) (hn : n < 256 ^ w) :
    load (layGroup m blocks label) a w = n := by
  have hle := (groupWrites_bounds hmem).2
  rw [Bytes.length_le] at hle
  have hbyte : ∀ i, a ≤ i → i < a + w → layGroup m blocks label i = Bytes.copyAll m (groupWrites blocks label) i :=
    fun i _ hi => layGroup_low (by omega)
  rw [load_congr hbyte, load,
    Bytes.field_of_holds (Bytes.holds_copyAll_of_mem (groupWrites_pairwise blocks label) hmem), Nat.mod_eq_of_lt hn]

theorem bit_setAll_setAll {f : Mem} (hzero : ∀ i < 1024, f (a + i) = 0) {is js : List ℕ} (hi : i < 8192) :
    Bitmap.bit (Bitmap.setAll (Bitmap.setAll f a is) a js) a i = decide (i ∈ is ∨ i ∈ js) := by
  have hclear : Bitmap.bit f a i = false := by
    rw [Bitmap.bit, hzero _ (by omega)]
    exact Nat.zero_testBit _
  rw [Bitmap.bit_setAll, Bitmap.bit_setAll, hclear, Bool.false_or, Bool.decide_or]

/-- **The bits that are set for the blocks**: those in front of the first free one, and those of no block. -/
theorem blockBit_layGroup (hzero : ∀ i, i < 5120 → m i = 0) (hi : i < 8192) :
    Bitmap.bit (layGroup m blocks label) 3072 i = decide (i < firstFreeBlock ∨ blocks ≤ i) := by
  have hblank : ∀ i < 1024, Bytes.copyAll m (groupWrites blocks label) (3072 + i) = 0 := fun i hi => by
    rw [Bytes.copyAll_of_not_mem fun w hw => Or.inr ((groupWrites_bounds hw).2.trans (by omega)), hzero _ (by omega)]
  have hbyte : layGroup m blocks label (3072 + i / 8) =
      Bitmap.setAll (Bitmap.setAll (Bytes.copyAll m (groupWrites blocks label)) 3072 (List.range firstFreeBlock)) 3072
        (List.range' blocks (8192 - blocks)) (3072 + i / 8) := by
    rw [layGroup, Bytes.copyAll_of_not_mem fun w hw => Or.inl ?_,
      setAll_of_outside (fun _ => lt_of_mem_range') (by omega),
      setAll_of_outside (fun _ => lt_of_mem_range (by decide)) (by omega)]
    have := (rootWrites_bounds hw).1
    omega
  rw [Bitmap.bit_congr hbyte, bit_setAll_setAll hblank hi]
  refine decide_eq_decide.2 ?_
  rw [List.mem_range, List.mem_range'_1]
  omega

/-- **The bits that are set for the inodes**: the reserved ones, and those of no inode. -/
theorem inodeBit_layGroup (hzero : ∀ i, i < 5120 → m i = 0) (hi : i < 8192) :
    Bitmap.bit (layGroup m blocks label) 4096 i = decide (i < 11 ∨ 1024 ≤ i) := by
  have hblank : ∀ i < 1024, Bitmap.setAll (Bitmap.setAll (Bytes.copyAll m (groupWrites blocks label)) 3072
      (List.range firstFreeBlock)) 3072 (List.range' blocks (8192 - blocks)) (4096 + i) = 0 := fun i hi => by
    rw [setAll_of_outside (fun _ => lt_of_mem_range') (by omega),
      setAll_of_outside (fun _ => lt_of_mem_range (by decide)) (by omega),
      Bytes.copyAll_of_not_mem fun w hw => Or.inr ((groupWrites_bounds hw).2.trans (by omega)), hzero _ (by omega)]
  have hbyte : layGroup m blocks label (4096 + i / 8) =
      Bitmap.setAll (Bitmap.setAll (Bitmap.setAll (Bitmap.setAll (Bytes.copyAll m (groupWrites blocks label)) 3072
        (List.range firstFreeBlock)) 3072 (List.range' blocks (8192 - blocks))) 4096 (List.range 11)) 4096
        (List.range' 1024 (8192 - 1024)) (4096 + i / 8) := by
    rw [layGroup, Bytes.copyAll_of_not_mem fun w hw => Or.inl ?_]
    have := (rootWrites_bounds hw).1
    omega
  rw [Bitmap.bit_congr hbyte, bit_setAll_setAll hblank hi]
  refine decide_eq_decide.2 ?_
  rw [List.mem_range, List.mem_range'_1]
  omega

theorem layGroup_of_ge (h : 137216 ≤ i) : layGroup m blocks label i = m i := by
  rw [layGroup, Bytes.copyAll_of_not_mem fun w hw => Or.inr ((rootWrites_bounds hw).2.trans h),
    setAll_of_outside (fun _ => lt_of_mem_range') (by omega),
    setAll_of_outside (fun _ => lt_of_mem_range (by decide)) (by omega),
    setAll_of_outside (fun _ => lt_of_mem_range') (by omega),
    setAll_of_outside (fun _ => lt_of_mem_range (by decide)) (by omega),
    Bytes.copyAll_of_not_mem fun w hw => Or.inr ((groupWrites_bounds hw).2.trans (by omega))]

theorem load_rootBlock (m : Mem) (blocks : ℕ) (label : Option CString) :
    load (layGroup m blocks label) 5288 4 = 133 := by
  have hpairwise : rootWrites.Pairwise fun w w' => w.1 + w.2.length ≤ w'.1 := by decide
  have hmem : (5288, Bytes.le 4 133) ∈ rootWrites := by simp [rootWrites]
  exact Bytes.field_of_holds (Bytes.holds_copyAll_of_mem hpairwise hmem)

/-! ### The law -/

/-- The fields that the law looks at. -/
structure GroupFields (w : Mem) (blocks : ℕ) : Prop where
  inodes : load w 1024 4 = 1024
  blocksCount : load w 1028 4 = blocks
  freeBlocks : load w 1036 4 = blocks - firstFreeBlock
  freeInodes : load w 1040 4 = 1013
  logBlockSize : load w 1048 4 = 0
  magic : load w 1080 2 = 0xef53
  inodeSize : load w 1112 2 = 128
  blockBitmap : load w 2048 4 = 3
  inodeBitmap : load w 2052 4 = 4
  inodeTable : load w 2056 4 = 5
  groupFreeInodes : load w 2062 2 = 1013
  rootBlock : load w 5288 4 = 133

theorem groupFields (m : Mem) (label : Option CString) (hblocks : blocks < word32) :
    GroupFields (layGroup m blocks label) blocks := by
  have hword : word32 = 256 ^ 4 := rfl
  refine ⟨?_, ?_, ?_, ?_, ?_, ?_, ?_, ?_, ?_, ?_, ?_, load_rootBlock m blocks label⟩
  · exact load_layGroup (by simp [groupWrites]) (by norm_num)
  · exact load_layGroup (by simp [groupWrites]) hblocks
  · exact load_layGroup (by simp [groupWrites]) (by omega)
  · exact load_layGroup (by simp [groupWrites]) (by norm_num)
  · exact load_layGroup (by simp [groupWrites]) (by norm_num)
  · exact load_layGroup (by simp [groupWrites]) (by norm_num)
  · exact load_layGroup (by simp [groupWrites]) (by norm_num)
  · exact load_layGroup (by simp [groupWrites]) (by norm_num)
  · exact load_layGroup (by simp [groupWrites]) (by norm_num)
  · exact load_layGroup (by simp [groupWrites]) (by norm_num)
  · exact load_layGroup (by simp [groupWrites]) (by norm_num)

theorem clearBlocks_layGroup (m : Mem) (label : Option CString) (first : ℕ) (hblocks : blocks < word32)
    (hzero : ∀ i, i < 5120 → m i = 0) :
    clearBlocks (layGroup m blocks label) first = min 8192 (blocks - first) - firstFreeBlock := by
  have hfields := groupFields m label hblocks
  rw [clearBlocks, hfields.blocksCount, hfields.blockBitmap, ← Bitmap.countP_range]
  refine List.countP_congr fun i hi => ?_
  rw [blockBit_layGroup hzero (List.mem_range.1 hi)]
  simp only [Bool.and_eq_true, Bool.not_eq_true', decide_eq_true_eq, decide_eq_false_iff_not]
  omega

theorem clearInodes_layGroup (m : Mem) (label : Option CString) (hblocks : blocks < word32)
    (hzero : ∀ i, i < 5120 → m i = 0) : clearInodes (layGroup m blocks label) = 1013 := by
  have hfields := groupFields m label hblocks
  have hcount : min 8192 1024 - 11 = 1013 := rfl
  rw [clearInodes, hfields.inodes, hfields.inodeBitmap, ← hcount, ← Bitmap.countP_range]
  refine List.countP_congr fun i hi => ?_
  rw [inodeBit_layGroup hzero (List.mem_range.1 hi)]
  simp only [Bool.and_eq_true, Bool.not_eq_true', decide_eq_true_eq, decide_eq_false_iff_not]
  omega

theorem metadata_layGroup (m : Mem) (label : Option CString) (hblocks : blocks < word32) :
    metadata (layGroup m blocks label) = List.range' 1 133 := by
  have hfields := groupFields m label hblocks
  have hroot : load (layGroup m blocks label) (1024 * 5 + 128 + 40) 4 = 133 := hfields.rootBlock
  rw [metadata, hfields.inodes, hfields.blockBitmap, hfields.inodeBitmap, hfields.inodeTable, hfields.inodeSize, hroot]
  rfl

theorem ext2Probe_layGroup (m : Mem) (label : Option CString) (hblocks : blocks < word32)
    (hpos : 0 < blocks) (hfit : blocks * 1024 ≤ size) (hsize : 1160 ≤ size) :
    (ext2Probe (layGroup m blocks label) true size true).isSome = true := by
  have hfields := groupFields m label hblocks
  simp only [ext2Probe, hfields.inodes, hfields.blocksCount, hfields.logBlockSize, hfields.magic]
  rw [if_neg (by simp; omega), if_neg (by simp), if_neg (by simp; omega), if_neg (by simp; omega), Option.isSome_some]

/-- **The file system of one group agrees with itself exactly when its bitmap has a bit for each block**, with the
first bit for the block 0. -/
theorem ext2Volume_iff (m : Mem) (label : Option CString) (first : ℕ) (hblocks : blocks < word32)
    (hlarge : firstFreeBlock < blocks) (hfit : blocks * 1024 ≤ size) (hzero : ∀ i < size, m i = 0) :
    Ext2Volume first size (layGroup m blocks label) ↔ first = 0 ∧ blocks ≤ 8192 := by
  have hfields := groupFields m label hblocks
  have hfirst : firstFreeBlock = 134 := rfl
  have hlow : ∀ i, i < 5120 → m i = 0 := fun i hi => hzero i (by omega)
  have hfree := fun first => clearBlocks_layGroup m label first hblocks hlow
  constructor
  · intro hvolume
    have hcount := hvolume.free_blocks
    rw [hfields.freeBlocks, hfree] at hcount
    omega
  · rintro ⟨rfl, hle⟩
    have hinodes := clearInodes_layGroup m label hblocks hlow
    have hmeta := metadata_layGroup m label hblocks
    refine ⟨?_, ?_, ?_, ?_, ?_, ?_, ?_, ?_, ?_⟩
    · rw [hfields.freeBlocks, hfree]
      omega
    · rw [load_layGroup (n := blocks - firstFreeBlock) (by simp [groupWrites]) (by omega), hfree]
      omega
    · rw [hfields.freeInodes, hinodes]
    · rw [hfields.groupFreeInodes, hinodes]
    · rw [hmeta]
      exact List.nodup_range'
    · intro b hb
      rw [hmeta, List.mem_range'_1] at hb
      rw [hfields.blocksCount]
      omega
    · intro b hb
      rw [hmeta, List.mem_range'_1] at hb
      rw [hfields.blockBitmap, blockBit_layGroup hlow (by omega), decide_eq_true_eq]
      omega
    · rw [hfields.inodeBitmap, inodeBit_layGroup hlow (by norm_num), decide_eq_true_eq]
      norm_num
    · exact ext2Probe_layGroup m label hblocks (by omega) hfit (by omega)

theorem ext2Mkfs_of_large (m : Mem) {image : Bool} {size : UInt64} (label : Option CString)
    (h : ¬ (image = false ∨ size.toNat < 4 * 1024 * 1024)) :
    ext2Mkfs m image size label =
      if size.toNat / 1024 % word32 ≤ firstFreeBlock then (-1, memset m 0 0 size.toNat)
      else (0, layGroup (memset m 0 0 size.toNat) (size.toNat / 1024 % word32) label) := by
  rw [ext2Mkfs, if_neg h]

theorem ext2Law_of_large (first : ℕ) (m : Mem) {image : Bool} {size : UInt64} (label : Option CString)
    (h : ¬ (image = false ∨ size.toNat < 4 * 1024 * 1024)) (hblocks : size.toNat / 1024 % word32 = blocks)
    (hlarge : ¬ blocks ≤ firstFreeBlock) : Ext2Law first m image size label ↔ first = 0 ∧ blocks ≤ 8192 := by
  have hfirst : firstFreeBlock = 134 := rfl
  have hlt : blocks < word32 := hblocks ▸ Nat.mod_lt _ (by decide)
  have hfit : blocks * 1024 ≤ size.toNat := by
    rw [← hblocks]
    exact (Nat.mul_le_mul_right 1024 (Nat.mod_le _ _)).trans (Nat.div_mul_le_self _ _)
  have hzero : ∀ i < size.toNat, memset m 0 0 size.toNat i = 0 := fun i hi => by
    rw [memset_apply, if_pos (by omega)]
  rw [Ext2Law, ext2Mkfs_of_large m label h, hblocks, if_neg hlarge,
    ← ext2Volume_iff (memset m 0 0 size.toNat) label first hlt (not_le.1 hlarge) hfit hzero]
  constructor
  · rintro ⟨-, hvolume⟩
    exact hvolume rfl
  · intro hvolume
    refine ⟨fun i hi => ?_, fun _ => hvolume⟩
    exact (layGroup_of_ge (by omega)).trans (memset_of_not_mem (Or.inr (by omega)))

/-- **Formatting leaves what it should exactly when the bitmap covers the device**, or when it fails.  A bitmap
that starts with another block than the block 0 is always wrong. -/
theorem ext2Law_iff (first : ℕ) (m : Mem) (image : Bool) (size : UInt64) (label : Option CString) :
    Ext2Law first m image size label ↔
      image = false ∨ size.toNat < 4 * 1024 * 1024 ∨ size.toNat / 1024 % word32 ≤ firstFreeBlock ∨
        first = 0 ∧ size.toNat / 1024 % word32 ≤ 8192 := by
  by_cases hnone : image = false ∨ size.toNat < 4 * 1024 * 1024
  · rw [Ext2Law, ext2Mkfs, if_pos hnone]
    exact iff_of_true ⟨fun _ _ => rfl, fun h => absurd h (by norm_num)⟩ (hnone.imp_right Or.inl)
  · obtain ⟨hsome, hsize⟩ := not_or.1 hnone
    by_cases hsmall : size.toNat / 1024 % word32 ≤ firstFreeBlock
    · rw [Ext2Law, ext2Mkfs_of_large m label hnone, if_pos hsmall]
      refine iff_of_true ⟨fun i hi => ?_, fun h => absurd h (by norm_num)⟩ (Or.inr (Or.inr (Or.inl hsmall)))
      exact memset_of_not_mem (Or.inr (by omega))
    · rw [ext2Law_of_large first m label hnone rfl hsmall]
      constructor
      · intro h
        exact Or.inr (Or.inr (Or.inr h))
      · rintro (h | h | h | h)
        · exact absurd h hsome
        · exact absurd h hsize
        · exact absurd h hsmall
        · exact h

/-- On a device of sixteen mebibytes half of the free blocks that are counted have no bit. -/
theorem not_ext2Law : ¬ ∀ (m : Mem) (size : UInt64) (label : Option CString), Ext2Law 0 m true size label := by
  intro h
  have hiff := ext2Law_of_large 0 (fun _ => 0) none (by decide : ¬ (true = false ∨ (16777216 : UInt64).toNat < _))
    (by decide : _ = 16384) (by decide)
  exact absurd (hiff.1 (h _ 16777216 none)).2 (by norm_num)

end Tnu.Fs
