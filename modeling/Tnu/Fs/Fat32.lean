/-
**Formatting a FAT32 volume.**

`fat32_mkfs` of `kernel/fs/fat32.c` lays an empty volume over a device.  It counts the clusters of the device
without tables, sizes a table for them, counts the clusters that are left beside two such tables, and then sizes
the table again for these.  The second table is smaller, and the sectors it gives back can make one more cluster
than the free count was computed for.

Main definitions:

* `Fat32Law` — a volume that agrees with itself, if one is made.

Main result:

* `fat32Law_iff` — the law holds exactly for the settled sizes.
-/

import Tnu.CString
import Tnu.Lib.Fat32
import Tnu.Memory

set_option autoImplicit false

namespace Tnu.Fs

/-! ### The source -/

/-- `fs_probe_result`. -/
structure FsProbeResult where
  name : List Byte
  valid : Bool
  blockSize : ℕ
  totalBlocks : ℕ
  totalBytes : ℕ
  rootInode : ℕ
  label : List Byte

def copyLabel (label : List Byte) : List Byte := (label.take 31).takeWhile fun c => c ≠ 0 ∧ c ≠ 32

/-- `write_fat_label`, which pads with spaces. -/
def writeFatLabel (label : Option CString) : List Byte :=
  let label := (label.elim (lit "TIRAMISU") CString.chars).take 11
  label ++ List.replicate (11 - label.length) 32

/-- `fat32_probe`, of the image at address 0 and of pointers that may be null. -/
def fat32Probe (m : Mem) (image : Bool) (size : ℕ) (out : Bool) : Option FsProbeResult :=
  let bytesPerSector := load m 11 2
  let sectors := if load m 19 2 ≠ 0 then load m 19 2 else load m 32 4
  if image = false ∨ out = false ∨ size < 90 then none
  else if size < 512 ∨ m 510 ≠ 0x55 ∨ m 511 ≠ 0xaa then none
  else if bytesPerSector ≠ 512 ∧ bytesPerSector ≠ 1024 ∧ bytesPerSector ≠ 2048 ∧ bytesPerSector ≠ 4096 then none
  else if load m 13 1 = 0 ∨ load m 16 1 = 0 ∨ load m 36 4 = 0 ∨ load m 44 4 < 2 then none
  else if load m 17 2 ≠ 0 ∨ load m 22 2 ≠ 0 then none
  else if sectors = 0 ∨ size < sectors * bytesPerSector then none
  else some
    { name := lit "fat32", valid := true, blockSize := bytesPerSector, totalBlocks := sectors
      totalBytes := sectors * bytesPerSector, rootInode := load m 44 4, label := copyLabel (Bytes.window m 71 11) }

/-- The values of a `uint32_t`. -/
abbrev word32 : ℕ := 2 ^ 32

/-- Subtraction of `uint32_t` values. -/
def sub32 (a b : ℕ) : ℕ := (a + word32 - b) % word32

/-- `((clusters + 2) * 4 + bytes_per_sector - 1) / bytes_per_sector`. -/
def fatSectorsFor (clusters : ℕ) : ℕ := ((clusters + 2) * 4 + 512 - 1) % word32 / 512

/-- The numbers that the formatter settles on. -/
structure Geometry where
  sectorsPerCluster : ℕ
  clusters : ℕ
  fatSectors : ℕ

def geometry (totalSectors : ℕ) : Geometry :=
  let sectorsPerCluster := if 262144 < totalSectors then 8 else if 65536 < totalSectors then 4 else 1
  let clusters := totalSectors / sectorsPerCluster
  let fatSectors := fatSectorsFor clusters
  let clusters := sub32 (sub32 totalSectors 32) (2 * fatSectors % word32) / sectorsPerCluster
  ⟨sectorsPerCluster, clusters, fatSectorsFor clusters⟩

def sectorWrites (totalSectors : ℕ) (g : Geometry) (label : Option CString) : List (ℕ × List Byte) :=
  [(0, [0xeb, 0x58, 0x90]), (3, lit "TIRAMISU"), (11, Bytes.le 2 512), (13, Bytes.le 1 g.sectorsPerCluster),
    (14, Bytes.le 2 32), (16, Bytes.le 1 2), (17, Bytes.le 2 0), (21, [0xf8]), (22, Bytes.le 2 0),
    (24, Bytes.le 2 63), (26, Bytes.le 2 255), (32, Bytes.le 4 totalSectors), (36, Bytes.le 4 g.fatSectors),
    (44, Bytes.le 4 2), (48, Bytes.le 2 1), (50, Bytes.le 2 6), (64, [0x80]), (66, [0x29]),
    (67, Bytes.le 4 0x544e5531), (71, writeFatLabel label), (82, lit "FAT32   "), (510, [0x55, 0xaa]),
    (512, Bytes.le 4 0x41615252), (996, Bytes.le 4 0x61417272), (1000, Bytes.le 4 (sub32 g.clusters 1)),
    (1004, Bytes.le 4 3), (1020, Bytes.le 4 0xaa550000)]

def fatHead : List Byte := Bytes.le 4 0x0ffffff8 ++ Bytes.le 4 0x0fffffff ++ Bytes.le 4 0x0ffffff8

def writeFat (fatSectors : ℕ) (m : Mem) (f : ℕ) : Mem :=
  Bytes.overlay m ((32 + f * fatSectors) * 512 % word32) fatHead

/-- What the formatter writes into an image that has been cleared. -/
def layVolume (m : Mem) (totalSectors : ℕ) (g : Geometry) (label : Option CString) : Mem :=
  let m := Bytes.copyAll m (sectorWrites totalSectors g label)
  let m := memcpy m (6 * 512) 0 512
  let m := memcpy m (7 * 512) 512 512
  [0, 1].foldl (writeFat g.fatSectors) m

/-- `fat32_mkfs`, of the image at address 0 and of pointers that may be null. -/
def fat32Mkfs (m : Mem) (image : Bool) (size : UInt64) (label : Option CString) : ℤ × Mem :=
  if image = false ∨ size.toNat < 32 * 1024 * 1024 then (-1, m)
  else
    let m := memset m 0 0 size.toNat
    let totalSectors := size.toNat / 512 % word32
    let g := geometry totalSectors
    if g.clusters < 65525 then (-1, m) else (0, layVolume m totalSectors g label)

/-! ### What they should do -/

/-- **A volume that agrees with itself, if one is made.** -/
structure VolumeLaw (size : ℕ) (m : Mem) : Prop where
  consistent : Fat32.Consistent m (size / 512)
  room : (Fat32.readParams m).dataStart ≤ (Fat32.readParams m).totalSectors
  probed : (fat32Probe m true size true).isSome = true

def Fat32Law (m : Mem) (image : Bool) (size : UInt64) (label : Option CString) : Prop :=
  (fat32Mkfs m image size label).1 = 0 → VolumeLaw size.toNat (fat32Mkfs m image size label).2

def tableSectors (clusters : ℕ) : ℕ := (clusters + 2 + 127) / 128

/-- The sectors beside two tables that have an entry for every eight sectors of the device. -/
def besides (sectors : ℕ) : ℕ := sectors - 32 - 2 * tableSectors (sectors / 8)

/-- **The size settles**: it is too small for the format, or the sectors that the second size of a table gives back
make no other cluster of eight.  The sectors are counted with 32 bits. -/
def Settled (size : ℕ) : Prop :=
  size < 32 * 1024 * 1024 ∨
    34 ≤ size / 512 % word32 ∧ (size / 512 % word32 < 525258 ∨
      besides (size / 512 % word32) % 8 +
        2 * (tableSectors (size / 512 % word32 / 8) - tableSectors (besides (size / 512 % word32) / 8)) < 8)

/-! ### The geometry -/

variable {ts : ℕ}

theorem fatSectorsFor_eq {clusters : ℕ} (h : clusters < 2 ^ 30 - 130) :
    fatSectorsFor clusters = tableSectors clusters := by
  rw [fatSectorsFor, tableSectors, Nat.mod_eq_of_lt (by change _ < 2 ^ 32; omega)]
  omega

variable {a i k size : ℕ}

theorem sub32_of_le {b : ℕ} (h : b ≤ a) (ha : a < word32) : sub32 a b = a - b := by
  rw [sub32, Nat.add_comm, Nat.add_sub_assoc h, Nat.add_mod_left, Nat.mod_eq_of_lt (by omega)]

theorem sub32_tables {spc : ℕ} (hspc : ts / spc < 2 ^ 30 - 130) (hroom : 32 + 2 * tableSectors (ts / spc) ≤ ts)
    (hts : ts < word32) :
    sub32 (sub32 ts 32) (2 * fatSectorsFor (ts / spc) % word32) = ts - 32 - 2 * tableSectors (ts / spc) := by
  have hts' : ts < 2 ^ 32 := hts
  have hword : word32 = 2 ^ 32 := rfl
  rw [fatSectorsFor_eq hspc, Nat.mod_eq_of_lt (by omega), sub32_of_le (by omega) hts,
    sub32_of_le (by omega) (by omega)]

theorem geometry_of_large (h : 525258 ≤ ts) (hts : ts < word32) :
    geometry ts = ⟨8, besides ts / 8, tableSectors (besides ts / 8)⟩ ∧ 65525 ≤ besides ts / 8 ∧
      32 + 2 * tableSectors (besides ts / 8) ≤ ts ∧ tableSectors (besides ts / 8) ≤ tableSectors (ts / 8) ∧
      tableSectors (ts / 8) < 4194306 := by
  have hts' : ts < 2 ^ 32 := hts
  have hroom : 32 + 2 * tableSectors (ts / 8) ≤ ts := by rw [tableSectors]; omega
  have hless : besides ts ≤ ts := by rw [besides]; omega
  have hle : tableSectors (besides ts / 8) ≤ tableSectors (ts / 8) := by rw [tableSectors, tableSectors]; omega
  have hbound : tableSectors (ts / 8) < 4194306 := by rw [tableSectors]; omega
  have hsecond : fatSectorsFor (besides ts / 8) = tableSectors (besides ts / 8) := fatSectorsFor_eq (by omega)
  have hsub : sub32 (sub32 ts 32) (2 * fatSectorsFor (ts / 8) % word32) = besides ts :=
    sub32_tables (by omega) hroom hts
  refine ⟨?_, ?_, by omega, hle, hbound⟩
  · simp only [geometry, if_pos (show 262144 < ts by omega), hsub, hsecond]
  · rw [besides, tableSectors]
    omega

theorem geometry_of_small (h : 34 ≤ ts) (hts : ts < 525258) : (geometry ts).clusters < 65525 := by
  have hword : ts < word32 := hts.trans (by decide)
  have hless : ∀ spc, 0 < spc → ts / spc < 2 ^ 30 - 130 := fun spc _ =>
    (Nat.div_le_self ts spc).trans_lt (hts.trans (by decide))
  rw [geometry]
  dsimp only
  split_ifs
  · rw [sub32_tables (hless 8 (by decide)) (by rw [tableSectors]; omega) hword, tableSectors]
    omega
  · rw [sub32_tables (hless 4 (by decide)) (by rw [tableSectors]; omega) hword, tableSectors]
    omega
  · rw [sub32_tables (hless 1 (by decide)) (by rw [tableSectors]; omega) hword, tableSectors]
    omega

theorem geometry_of_tiny (h : ts < 34) : 65525 ≤ (geometry ts).clusters ∧ (geometry ts).fatSectors ≤ 1 := by
  interval_cases ts <;> decide

/-! ### What is written -/

variable {m : Mem} {g : Geometry} {label : Option CString}

theorem length_writeFatLabel (label : Option CString) : (writeFatLabel label).length = 11 := by
  rw [writeFatLabel, List.length_append, List.length_replicate, List.length_take]
  omega

theorem sectorWrites_sizes (ts : ℕ) (g : Geometry) (label : Option CString) :
    (sectorWrites ts g label).map (fun w => (w.1, w.2.length)) =
      [(0, 3), (3, 8), (11, 2), (13, 1), (14, 2), (16, 1), (17, 2), (21, 1), (22, 2), (24, 2), (26, 2), (32, 4), (36, 4),
        (44, 4), (48, 2), (50, 2), (64, 1), (66, 1), (67, 4), (71, 11), (82, 8), (510, 2), (512, 4), (996, 4), (1000, 4),
        (1004, 4), (1020, 4)] := by
  simp only [sectorWrites, List.map_cons, List.map_nil, Bytes.length_le, length_writeFatLabel]
  rfl

theorem sectorWrites_pairwise (ts : ℕ) (g : Geometry) (label : Option CString) :
    (sectorWrites ts g label).Pairwise fun w w' => w.1 + w.2.length ≤ w'.1 := by
  have hpairs : ((sectorWrites ts g label).map fun w => (w.1, w.2.length)).Pairwise
      fun w w' : ℕ × ℕ => w.1 + w.2 ≤ w'.1 := by
    rw [sectorWrites_sizes]
    decide
  exact List.pairwise_map.1 hpairs

theorem sectorWrites_le {w : ℕ × List Byte} (h : w ∈ sectorWrites ts g label) : w.1 + w.2.length ≤ 1024 := by
  have hsizes : ∀ p ∈ (sectorWrites ts g label).map (fun w => (w.1, w.2.length)), p.1 + p.2 ≤ 1024 := by
    rw [sectorWrites_sizes]
    decide
  exact hsizes _ (List.mem_map_of_mem h)

theorem length_fatHead : fatHead.length = 12 := rfl

theorem layVolume_eq (m : Mem) (ts : ℕ) (label : Option CString) (hfat : g.fatSectors < 4194306) :
    layVolume m ts g label =
      Bytes.overlay (Bytes.overlay (memcpy (memcpy (Bytes.copyAll m (sectorWrites ts g label)) 3072 0 512) 3584 512 512)
        16384 fatHead) (16384 + g.fatSectors * 512) fatHead := by
  have hzero : (32 + 0 * g.fatSectors) * 512 % word32 = 16384 := by rw [Nat.zero_mul]; rfl
  have hone : (32 + 1 * g.fatSectors) * 512 % word32 = 16384 + g.fatSectors * 512 := by
    rw [Nat.mod_eq_of_lt (by change _ < 2 ^ 32; omega)]
    omega
  rw [layVolume, List.foldl_cons, List.foldl_cons, List.foldl_nil, writeFat, writeFat, hzero, hone]

theorem layVolume_low (hfat : g.fatSectors < 4194306) (hi : i < 1024) :
    layVolume m ts g label i = Bytes.copyAll m (sectorWrites ts g label) i := by
  rw [layVolume_eq m ts label hfat, Bytes.overlay_of_lt _ (by omega), Bytes.overlay_of_lt _ (by omega),
    memcpy_of_not_mem (by omega), memcpy_of_not_mem (by omega)]

theorem holds_layVolume {l : List Byte} (hfat : g.fatSectors < 4194306)
    (hmem : (a, l) ∈ sectorWrites ts g label) : Bytes.Holds (layVolume m ts g label) a l := by
  have hle : a + l.length ≤ 1024 := sectorWrites_le hmem
  refine Bytes.holds_congr (fun i _ hi => layVolume_low hfat (by omega)) ?_
  exact Bytes.holds_copyAll_of_mem (sectorWrites_pairwise ts g label) hmem

theorem field_layVolume {w n : ℕ} (hfat : g.fatSectors < 4194306)
    (hmem : (a, Bytes.le w n) ∈ sectorWrites ts g label) : Bytes.field (layVolume m ts g label) a w = n % 256 ^ w :=
  Bytes.field_of_holds (holds_layVolume hfat hmem)

theorem layVolume_backup (hfat : g.fatSectors < 4194306) (hi : i < 512) :
    layVolume m ts g label (3584 + i) = layVolume m ts g label (512 + i) := by
  have hlow : layVolume m ts g label (512 + i) = _ := layVolume_low hfat (by omega)
  rw [hlow, layVolume_eq m ts label hfat, Bytes.overlay_of_lt _ (by omega),
    Bytes.overlay_of_lt _ (by omega), memcpy_of_disjoint (by omega) hi, memcpy_of_not_mem (by omega)]

/-- **A table** starts with its reserved entries and is empty behind them. -/
theorem layVolume_fat (m : Mem) (ts : ℕ) (label : Option CString) (hfat : g.fatSectors < 4194306) (hpos : 0 < g.fatSectors) (hk : k < 2)
    (hi : i < g.fatSectors * 512) (hzero : ∀ j < 16384 + 2 * (g.fatSectors * 512), m j = 0) :
    layVolume m ts g label (16384 + k * (g.fatSectors * 512) + i) = fatHead.getD i 0 := by
  have hlen := length_fatHead
  have hblank : ∀ j, 16384 ≤ j → j < 16384 + 2 * (g.fatSectors * 512) →
      memcpy (memcpy (Bytes.copyAll m (sectorWrites ts g label)) 3072 0 512) 3584 512 512 j = 0 := fun j h1 h2 => by
    rw [memcpy_of_not_mem (by omega), memcpy_of_not_mem (by omega),
      Bytes.copyAll_of_not_mem fun w hw => Or.inr ((sectorWrites_le hw).trans (by omega)), hzero j h2]
  have hhead : ∀ (f : Mem) (a : ℕ), (12 ≤ i → f (a + i) = 0) → Bytes.overlay f a fatHead (a + i) = fatHead.getD i 0 := by
    intro f a hf
    rcases Nat.lt_or_ge i 12 with hlt | hge
    · rw [List.getD_eq_getElem?_getD, ← Bytes.overlay_add (by omega), Option.getD_some]
    · rw [Bytes.overlay_of_ge (by omega), hf hge, List.getD_eq_getElem?_getD, List.getElem?_eq_none (by omega),
        Option.getD_none]
  rw [layVolume_eq m ts label hfat]
  rcases Nat.lt_or_ge k 1 with h0 | h1
  · obtain rfl : k = 0 := by omega
    rw [Nat.zero_mul, Nat.add_zero, Bytes.overlay_of_lt _ (by omega)]
    exact hhead _ _ fun _ => hblank _ (by omega) (by omega)
  · obtain rfl : k = 1 := by omega
    rw [Nat.one_mul]
    refine hhead _ _ fun _ => ?_
    rw [Bytes.overlay_of_ge (by omega)]
    exact hblank _ (by omega) (by omega)

/-- **The geometry that is written.** -/
theorem mkfs_params (m : Mem) (label : Option CString) (hfat : g.fatSectors < 4194306) (hts : ts < word32)
    (hspc : g.sectorsPerCluster < 256) :
    Fat32.readParams (layVolume m ts g label) = ⟨512, g.sectorsPerCluster, 32, 2, ts, g.fatSectors, 2, 1, 6⟩ := by
  have hread : ∀ {a w n : ℕ}, (a, Bytes.le w n) ∈ sectorWrites ts g label → n < 256 ^ w →
      Bytes.field (layVolume m ts g label) a w = n := fun hmem hn => by
    rw [field_layVolume hfat hmem, Nat.mod_eq_of_lt hn]
  rw [Fat32.readParams, hread (n := 512) (by simp [sectorWrites]) (by norm_num),
    hread (n := g.sectorsPerCluster) (by simp [sectorWrites]) (by omega),
    hread (n := 32) (by simp [sectorWrites]) (by norm_num), hread (n := 2) (by simp [sectorWrites]) (by norm_num),
    hread (n := ts) (by simp [sectorWrites]) (by change _ < 2 ^ 32; omega),
    hread (n := g.fatSectors) (by simp [sectorWrites]) (by omega),
    hread (n := 2) (by simp [sectorWrites]) (by norm_num), hread (n := 1) (by simp [sectorWrites]) (by norm_num),
    hread (n := 6) (by simp [sectorWrites]) (by norm_num)]

theorem layVolume_sectors16 (hfat : g.fatSectors < 4194306) (hi : 19 ≤ i ∧ i < 21) :
    layVolume m ts g label i = m i := by
  have hbeside : ∀ p ∈ (sectorWrites ts g label).map (fun w => (w.1, w.2.length)), p.1 + p.2 ≤ 19 ∨ 21 ≤ p.1 := by
    rw [sectorWrites_sizes]
    decide
  rw [layVolume_low hfat (by omega)]
  refine Bytes.copyAll_of_not_mem fun w hw => ?_
  rcases hbeside _ (List.mem_map_of_mem hw) with h | h
  · exact Or.inr (le_trans h hi.1)
  · exact Or.inl (lt_of_lt_of_le hi.2 h)

theorem layVolume_signature (m : Mem) (ts : ℕ) (label : Option CString) (hfat : g.fatSectors < 4194306) :
    layVolume m ts g label 510 = 0x55 ∧ layVolume m ts g label 511 = 0xaa := by
  have hmem : (510, [0x55, 0xaa]) ∈ sectorWrites ts g label := by simp [sectorWrites]
  have hholds : [layVolume m ts g label 510, layVolume m ts g label 511] = [0x55, 0xaa] := holds_layVolume hfat hmem
  obtain ⟨h1, h2⟩ := List.cons.inj hholds
  exact ⟨h1, (List.cons.inj h2).1⟩

theorem fat32Probe_layVolume (m : Mem) (label : Option CString) (hfat : g.fatSectors < 4194306)
    (hpos : 0 < g.fatSectors) (hts : ts < word32) (htspos : 0 < ts)
    (hspc : 0 < g.sectorsPerCluster ∧ g.sectorsPerCluster < 256) (hfit : ts * 512 ≤ size)
    (hzero : m 19 = 0 ∧ m 20 = 0) : (fat32Probe (layVolume m ts g label) true size true).isSome = true := by
  have hread : ∀ {a w n : ℕ}, (a, Bytes.le w n) ∈ sectorWrites ts g label → n < 256 ^ w →
      load (layVolume m ts g label) a w = n := fun hmem hn => by
    rw [load, field_layVolume hfat hmem, Nat.mod_eq_of_lt hn]
  have h11 : load (layVolume m ts g label) 11 2 = 512 := hread (by simp [sectorWrites]) (by norm_num)
  have h13 : load (layVolume m ts g label) 13 1 = g.sectorsPerCluster := hread (by simp [sectorWrites]) (by omega)
  have h16 : load (layVolume m ts g label) 16 1 = 2 := hread (by simp [sectorWrites]) (by norm_num)
  have h17 : load (layVolume m ts g label) 17 2 = 0 := hread (by simp [sectorWrites]) (by norm_num)
  have h19 : load (layVolume m ts g label) 19 2 = 0 := by
    change Bytes.ofLe [layVolume m ts g label 19, layVolume m ts g label 20] = 0
    rw [layVolume_sectors16 hfat (by omega), layVolume_sectors16 hfat (by omega), hzero.1, hzero.2]
    rfl
  have h22 : load (layVolume m ts g label) 22 2 = 0 := hread (by simp [sectorWrites]) (by norm_num)
  have h32 : load (layVolume m ts g label) 32 4 = ts := hread (by simp [sectorWrites]) (by change _ < 2 ^ 32; omega)
  have h36 : load (layVolume m ts g label) 36 4 = g.fatSectors := hread (by simp [sectorWrites]) (by omega)
  have h44 : load (layVolume m ts g label) 44 4 = 2 := hread (by simp [sectorWrites]) (by norm_num)
  obtain ⟨h510, h511⟩ := layVolume_signature m ts label hfat
  simp only [fat32Probe, h11, h13, h16, h17, h19, h22, h32, h36, h44, h510, h511]
  rw [if_neg (by simp; omega), if_neg (by simp; omega), if_neg (by simp), if_neg (by simp; omega), if_neg (by simp),
    if_neg (by simp; omega), Option.isSome_some]

/-! ### The law -/

variable {p : Fat32.Params}

/-- **The empty volume has one cluster in use.** -/
theorem freeCount_layVolume (m : Mem) (ts : ℕ) (label : Option CString) (hfat : g.fatSectors < 4194306)
    (hzero : ∀ j < 16384 + 2 * (g.fatSectors * 512), m j = 0) (hp : p.fatAt 0 = 16384)
    (hlarge : (p.clusterCount + 2) * 4 ≤ g.fatSectors * 512) (hsome : 0 < p.clusterCount) :
    Fat32.freeCount (layVolume m ts g label) p = p.clusterCount - 1 := by
  have hbyte : ∀ i < g.fatSectors * 512, layVolume m ts g label (16384 + i) = fatHead.getD i 0 := fun i hi => by
    have h := layVolume_fat m ts label (k := 0) hfat (by omega) (by omega) hi hzero
    rwa [Nat.zero_mul, Nat.add_zero] at h
  have hentry : ∀ c < p.clusterCount + 2, Fat32.fatEntry (layVolume m ts g label) p 0 c =
      Bytes.field (fun i => fatHead.getD i 0) (4 * c) 4 % 2 ^ 28 := fun c hc => by
    rw [Fat32.fatEntry, hp, Bytes.field_congr_at fun i hi => ?_]
    rw [Nat.add_assoc, hbyte _ (by omega)]
  have hfirst : Fat32.fatEntry (layVolume m ts g label) p 0 2 ≠ 0 := by
    rw [hentry 2 (by omega)]
    decide
  have hrest : ∀ c ∈ List.range' 3 (p.clusterCount - 1), Fat32.fatEntry (layVolume m ts g label) p 0 c = 0 := by
    intro c hc
    have hc' := List.mem_range'_1.1 hc
    have hblank : ∀ i, 12 ≤ i → fatHead.getD i 0 = 0 := fun i hi => by
      rw [List.getD_eq_getElem?_getD, List.getElem?_eq_none (by rw [length_fatHead]; omega), Option.getD_none]
    rw [hentry c (by omega)]
    simp only [Bytes.field, Bytes.window, hblank _ (show 12 ≤ 4 * c by omega), hblank _ (show 12 ≤ 4 * c + 1 by omega),
      hblank _ (show 12 ≤ 4 * c + 1 + 1 by omega), hblank _ (show 12 ≤ 4 * c + 1 + 1 + 1 by omega)]
    rfl
  obtain ⟨n, hn⟩ : ∃ n, p.clusterCount = n + 1 := ⟨p.clusterCount - 1, by omega⟩
  rw [hn] at hrest
  rw [Fat32.freeCount, hn, List.range'_succ, List.countP_cons_of_neg (by simpa using hfirst)]
  rw [List.countP_eq_length.2 fun c hc => by simpa using hrest c hc, List.length_range']
  rfl

theorem summary_layVolume (m : Mem) (label : Option CString) (hfat : g.fatSectors < 4194306)
    (hp : p.bytesPerSector = 512) (hfree : sub32 g.clusters 1 = Fat32.freeCount (layVolume m ts g label) p)
    (hk : k = 1 ∨ k = 7) : Fat32.Summary (layVolume m ts g label) p k := by
  have hlt : sub32 g.clusters 1 < 256 ^ 4 := Nat.mod_lt _ (by norm_num)
  have hread : ∀ {a w n : ℕ}, (512 + a, Bytes.le w n) ∈ sectorWrites ts g label → n < 256 ^ w → a + w ≤ 512 →
      Bytes.field (layVolume m ts g label) (k * p.bytesPerSector + a) w = n := fun {a w n} hmem hn ha => by
    have hone : Bytes.field (layVolume m ts g label) (512 + a) w = n := by
      rw [field_layVolume hfat hmem, Nat.mod_eq_of_lt hn]
    rw [hp]
    rcases hk with rfl | rfl
    · exact hone
    · rw [← hone]
      refine Bytes.field_congr_at fun i hi => ?_
      rw [show 7 * 512 + a + i = 3584 + (a + i) by omega, layVolume_backup hfat (by omega), Nat.add_assoc]
  refine ⟨?_, ?_, ?_, ?_⟩
  · exact hread (a := 0) (by simp [sectorWrites]) (by norm_num) (by norm_num)
  · exact hread (a := 484) (by simp [sectorWrites]) (by norm_num) (by norm_num)
  · exact hread (a := 508) (by simp [sectorWrites]) (by norm_num) (by norm_num)
  · rw [← hfree]
    exact hread (a := 488) (by simp [sectorWrites]) hlt (by norm_num)

theorem volumeLaw_iff (m : Mem) (label : Option CString) (hlarge : 525258 ≤ ts) (hts : ts < word32)
    (hfit : ts * 512 ≤ size) (hzero : ∀ i < size, m i = 0) :
    VolumeLaw size (layVolume m ts (geometry ts) label) ↔
      besides ts % 8 + 2 * (tableSectors (ts / 8) - tableSectors (besides ts / 8)) < 8 := by
  obtain ⟨hgeom, hclusters, hroom, hle, hbound⟩ := geometry_of_large hlarge hts
  have hts' : ts < 2 ^ 32 := hts
  rw [hgeom]
  generalize hfirst : tableSectors (ts / 8) = first at hle hbound ⊢
  generalize hfat : tableSectors (besides ts / 8) = fat at hroom hle ⊢
  have hbesides : besides ts = ts - 32 - 2 * first := by rw [besides, hfirst]
  have hfat' : (besides ts / 8 + 2 + 127) / 128 = fat := hfat
  have hlt : (⟨8, besides ts / 8, fat⟩ : Geometry).fatSectors < 4194306 := by dsimp only; omega
  have hparams := mkfs_params m label hlt hts (by norm_num)
  dsimp only at hparams
  have hcount : (Fat32.Params.mk 512 8 32 2 ts fat 2 1 6).clusterCount = (ts - (32 + 2 * fat)) / 8 := rfl
  have hfatAt : (Fat32.Params.mk 512 8 32 2 ts fat 2 1 6).fatAt 0 = 16384 := by
    change (32 + 0 * fat) * 512 = 16384
    omega
  have hblank : ∀ j < 16384 + 2 * (fat * 512), m j = 0 := fun j hj => hzero j (by omega)
  have hsub : sub32 (besides ts / 8) 1 = besides ts / 8 - 1 := sub32_of_le (by omega) (by change _ < 2 ^ 32; omega)
  constructor
  · intro hlaw
    have hlarge := hlaw.consistent.large_enough
    have hfree := hlaw.consistent.summary.free
    rw [hparams] at hlarge hfree
    rw [hcount] at hlarge
    rw [freeCount_layVolume m ts label hlt hblank hfatAt hlarge (by rw [hcount]; omega), hcount] at hfree
    dsimp only at hfree
    have hwritten : Bytes.field (layVolume m ts ⟨8, besides ts / 8, fat⟩ label) 1000 4 = besides ts / 8 - 1 := by
      rw [field_layVolume (n := sub32 (besides ts / 8) 1) hlt (by simp [sectorWrites]), hsub,
        Nat.mod_eq_of_lt (by omega)]
    rw [Nat.one_mul, hwritten] at hfree
    omega
  · intro hsettled
    have hclusters' : (ts - (32 + 2 * fat)) / 8 = besides ts / 8 := by omega
    have hlarge : (((ts - (32 + 2 * fat)) / 8) + 2) * 4 ≤ fat * 512 := by omega
    have hfree := freeCount_layVolume m ts label hlt hblank hfatAt hlarge (by rw [hcount]; omega)
    have hsummary : ∀ k, k = 1 ∨ k = 7 → Fat32.Summary (layVolume m ts ⟨8, besides ts / 8, fat⟩ label)
        ⟨512, 8, 32, 2, ts, fat, 2, 1, 6⟩ k := fun k hk => by
      refine summary_layVolume m label hlt rfl ?_ hk
      rw [hfree, hcount, hclusters', hsub]
    refine ⟨⟨layVolume_signature m ts label hlt, ?_, ?_, ?_, ?_, ?_⟩, ?_, ?_⟩
    · rw [hparams]
      dsimp only
      omega
    · rw [hparams]
      intro k hk i hi
      have hat : ∀ k, (Fat32.Params.mk 512 8 32 2 ts fat 2 1 6).fatAt k = 16384 + k * (fat * 512) := fun k => by
        change (32 + k * fat) * 512 = _
        ring
      rw [hat, hat, layVolume_fat m ts label hlt (by dsimp only; omega) hk hi hblank,
        layVolume_fat m ts label hlt (by dsimp only; omega) (by omega) hi hblank]
    · rw [hparams]
      exact hlarge
    · rw [hparams]
      exact hsummary 1 (Or.inl rfl)
    · rw [hparams]
      exact hsummary 7 (Or.inr rfl)
    · rw [hparams]
      exact hroom
    · exact fat32Probe_layVolume m label hlt (by dsimp only; omega) hts (by omega) (by norm_num) hfit
        ⟨hzero 19 (by omega), hzero 20 (by omega)⟩

theorem not_volumeLaw_of_tiny (m : Mem) (label : Option CString) (h : ts < 34) :
    ¬ VolumeLaw size (layVolume m ts (geometry ts) label) := by
  intro hlaw
  obtain ⟨-, hfat⟩ := geometry_of_tiny h
  have hspc : (geometry ts).sectorsPerCluster < 256 := by
    rw [geometry]
    dsimp only
    split_ifs <;> norm_num
  have hparams := mkfs_params m label (show (geometry ts).fatSectors < 4194306 by omega)
    (show ts < word32 by change _ < 2 ^ 32; omega) hspc
  have hlarge := hlaw.consistent.large_enough
  have hroom := hlaw.room
  rw [hparams] at hlarge hroom
  have hroom' : 32 + 2 * (geometry ts).fatSectors ≤ ts := hroom
  dsimp only at hlarge
  omega

theorem fat32Mkfs_of_large (m : Mem) {image : Bool} {size : UInt64} (label : Option CString)
    (h : ¬ (image = false ∨ size.toNat < 32 * 1024 * 1024)) :
    fat32Mkfs m image size label =
      if (geometry (size.toNat / 512 % word32)).clusters < 65525 then (-1, memset m 0 0 size.toNat)
      else (0, layVolume (memset m 0 0 size.toNat) (size.toNat / 512 % word32)
        (geometry (size.toNat / 512 % word32)) label) := by
  rw [fat32Mkfs, if_neg h]

theorem fat32Law_of_large (m : Mem) {image : Bool} {size : UInt64} (label : Option CString)
    (h : ¬ (image = false ∨ size.toNat < 32 * 1024 * 1024)) (hts : size.toNat / 512 % word32 = ts)
    (hlarge : 525258 ≤ ts) :
    Fat32Law m image size label ↔ besides ts % 8 + 2 * (tableSectors (ts / 8) - tableSectors (besides ts / 8)) < 8 := by
  have hlt : ts < word32 := hts ▸ Nat.mod_lt _ (by decide)
  have hfit : ts * 512 ≤ size.toNat := by
    rw [← hts]
    exact (Nat.mul_le_mul_right 512 (Nat.mod_le _ _)).trans (Nat.div_mul_le_self _ _)
  have hzero : ∀ i < size.toNat, memset m 0 0 size.toNat i = 0 := fun i hi => by
    rw [memset_apply, if_pos (by omega)]
  have hgeom := geometry_of_large hlarge hlt
  have henough : ¬ (geometry ts).clusters < 65525 := by
    rw [hgeom.1]
    exact not_lt.2 hgeom.2.1
  rw [Fat32Law, fat32Mkfs_of_large m label h, hts, if_neg henough,
    ← volumeLaw_iff (memset m 0 0 size.toNat) label hlarge hlt hfit hzero]
  exact ⟨fun hlaw => hlaw rfl, fun hlaw _ => hlaw⟩

/-- **The formatter makes a volume that agrees with itself exactly for the sizes that settle.** -/
theorem fat32Law_iff (m : Mem) (image : Bool) (size : UInt64) (label : Option CString) :
    Fat32Law m image size label ↔ image = false ∨ Settled size.toNat := by
  rw [Settled]
  by_cases hnone : image = false ∨ size.toNat < 32 * 1024 * 1024
  · rw [Fat32Law, fat32Mkfs, if_pos hnone]
    exact iff_of_true (fun h => absurd h (by norm_num)) (hnone.imp_right Or.inl)
  · obtain ⟨hsome, hsize⟩ := not_or.1 hnone
    have hformat := fat32Mkfs_of_large m label hnone
    have hiff := fun hlarge => fat32Law_of_large m label hnone rfl hlarge
    generalize size.toNat / 512 % word32 = ts at hformat hiff
    rcases Nat.lt_or_ge ts 34 with htiny | h34
    · rw [Fat32Law, hformat, if_neg (not_lt.2 (geometry_of_tiny htiny).1)]
      refine iff_of_false (fun h => not_volumeLaw_of_tiny _ label htiny (h rfl)) ?_
      rintro (h | h | h)
      · exact hsome h
      · exact hsize h
      · exact absurd h.1 (not_le.2 htiny)
    · rcases Nat.lt_or_ge ts 525258 with hsmall | hlarge
      · rw [Fat32Law, hformat, if_pos (geometry_of_small h34 hsmall)]
        exact iff_of_true (fun h => absurd h (by norm_num)) (Or.inr (Or.inr ⟨h34, Or.inl hsmall⟩))
      · rw [hiff hlarge]
        constructor
        · intro h
          exact Or.inr (Or.inr ⟨h34, Or.inr h⟩)
        · rintro (h | h | ⟨-, h | h⟩)
          · exact absurd h hsome
          · exact absurd h hsize
          · exact absurd h (not_lt.2 hlarge)
          · exact h

/-- The volume that is made of half a gibibyte has clusters that the free count leaves out. -/
theorem not_fat32Law : ¬ ∀ (m : Mem) (size : UInt64) (label : Option CString), Fat32Law m true size label := by
  intro h
  have hiff := fat32Law_of_large (fun _ => 0) none (by decide : ¬ (true = false ∨ (536870912 : UInt64).toNat < _))
    (by decide : _ = 1048576) (by norm_num)
  exact absurd (hiff.1 (h _ 536870912 none)) (by decide)

end Tnu.Fs
