/-
**The partition table the installer writes.**

`sysinstall_finalize_disk_layout` of `kernel/shell/tsh.c` takes the two partitions of the install image,
stretches the second one to the end of the disk, and writes a protective MBR, the headers and the entry
arrays.  It checks that the partitions are in order and that the second one starts within the usable
range, but not where the first one starts.

Main definitions:

* `sysinstallCrc32` — the checksum.

Main result:

* `installs_iff` — **the disk holds a valid table, in which the root partition is found,
  exactly when the first partition lies behind the table and the disk is large enough for it**.
-/

import Tnu.Drivers.Devices
import Tnu.Tfs.Gpt

set_option autoImplicit false

namespace Tnu.Shell

open Drivers Tfs

/-! ### Checksums -/

def crcBit (crc : UInt32) : UInt32 := (crc >>> 1) ^^^ (0xedb88320 &&& (0 - (crc &&& 1)))

def sysinstallCrc32Update (crc : UInt32) (data : List Byte) : UInt32 :=
  ~~~data.foldl (fun crc b => crcBit^[8] (crc ^^^ b.toUInt32)) (~~~crc)

def sysinstallCrc32 (data : List Byte) : UInt32 := sysinstallCrc32Update 0 data

theorem neg_and_one (c : BitVec 32) :
    0#32 - (c &&& 1#32) = if c.getLsbD 0 = true then BitVec.allOnes 32 else 0#32 := by
  rw [BitVec.and_one_eq_setWidth_ofBool_getLsbD]
  cases c.getLsbD 0 with
  | false => rfl
  | true => rfl

theorem toBitVec_crcBit (crc : UInt32) : (crcBit crc).toBitVec = Crc.shift crc32Poly crc.toBitVec := by
  have hmask : (0 - (crc &&& 1)).toBitVec = 0#32 - (crc.toBitVec &&& 1#32) := rfl
  have hpoly : (0xedb88320 : UInt32).toBitVec = crc32Poly := rfl
  rw [crcBit, UInt32.toBitVec_xor, UInt32.toBitVec_and, hmask, neg_and_one, hpoly, Crc.shift, Crc.feed,
    Bool.xor_false]
  split
  · rw [BitVec.and_allOnes]
    rfl
  · rw [BitVec.and_zero, BitVec.xor_zero]
    rfl

theorem toBitVec_iterate_crcBit (n : ℕ) (crc : UInt32) :
    (crcBit^[n] crc).toBitVec = (Crc.shift crc32Poly)^[n] crc.toBitVec := by
  induction n generalizing crc with
  | zero => rfl
  | succ n ih => rw [Function.iterate_succ_apply, ih, toBitVec_crcBit, Function.iterate_succ_apply]

theorem toBitVec_foldl_crcBit (data : List Byte) (crc : UInt32) :
    (data.foldl (fun crc b => crcBit^[8] (crc ^^^ b.toUInt32)) crc).toBitVec =
      data.foldl (fun reg b => (Crc.shift crc32Poly)^[8] (reg ^^^ b.toBitVec.setWidth 32))
        crc.toBitVec := by
  induction data generalizing crc with
  | nil => rfl
  | cons b data ih =>
    rw [List.foldl_cons, List.foldl_cons, ih, toBitVec_iterate_crcBit, UInt32.toBitVec_xor]
    rfl

/-- **The checksum is CRC-32.** -/
theorem sysinstallCrc32_eq (data : List Byte) :
    (sysinstallCrc32 data).toNat = (Crc.check crc32Poly data).toNat := by
  rw [sysinstallCrc32, sysinstallCrc32Update, ← UInt32.toNat_toBitVec, UInt32.toBitVec_not,
    toBitVec_foldl_crcBit, Crc.foldl_shift _ _ (by norm_num)]
  rfl

/-! ### Identifiers -/

/-- `sysinstall_next_random`: the value, and the state it leaves. -/
def sysinstallNextRandom (state : UInt64) : UInt64 × UInt64 :=
  let state := state + 0x9e3779b97f4a7c15
  let z := (state ^^^ (state >>> 30)) * 0xbf58476d1ce4e5b9
  let z := (z ^^^ (z >>> 27)) * 0x94d049bb133111eb
  (z ^^^ (z >>> 31), state)

/-- `sysinstall_generate_guid`; `ticks` is what `pit_ticks` returns. -/
def sysinstallGenerateGuid (ticks : UInt64) (target : BlockDeviceInfo) (imageSize : ℕ)
    (salt : UInt64) : Blob 16 :=
  let state := ticks ^^^ UInt64.ofNat imageSize ^^^ salt ^^^ UInt64.ofNat target.sectorCount ^^^
    (UInt64.ofNat target.sectorSize <<< 32)
  let state := target.name.foldl
    (fun state p => (sysinstallNextRandom state).1 ^^^ p.toUInt64) state
  let a := sysinstallNextRandom state
  let b := sysinstallNextRandom a.2
  let guid := Bytes.le 8 a.1.toNat ++ Bytes.le 8 b.1.toNat
  ⟨(guid.modify 6 fun x => (x &&& 0x0f) ||| 0x40).modify 8 fun x => (x &&& 0x3f) ||| 0x80,
    by simp [guid]⟩

/-! ### The layout -/

abbrev sysinstallGptEntryCount : ℕ := 128

abbrev sysinstallGptEntrySectors : ℕ := sysinstallGptEntryCount * gptEntrySize / sectorSize

def sub64 (a b : ℕ) : ℕ := (a + (2 ^ 64 - b)) % 2 ^ 64

/-- `sysinstall_load_template_layout`: the first two entries of the image. -/
def sysinstallLoadTemplateLayout (image : ℕ → Byte) (imageSize : ℕ) : Option (GptEntry × GptEntry) :=
  if imageSize < sectorSize * 3 ∨ imageSize % sectorSize ≠ 0 then none
  else
    let header := readGptHeader image sectorSize
    if header.signature.toList ≠ gptSignature ∨ header.partitionEntrySize ≠ gptEntrySize ∨
        header.numPartitionEntries < 2 ∨ imageSize / sectorSize ≤ header.partitionEntryLba then none
    else
      let entriesOffset := header.partitionEntryLba * sectorSize
      let entriesSize := header.numPartitionEntries * header.partitionEntrySize
      if imageSize < (entriesOffset + entriesSize) % 2 ^ 64 then none
      else
        let esp := readGptEntry image entriesOffset
        let root := readGptEntry image (entriesOffset + header.partitionEntrySize)
        if esp.firstLba = 0 ∨ root.firstLba = 0 ∨ root.lastLba < root.firstLba then none
        else some (esp, root)

def sysinstallWriteProtectiveMbr (diskSectors : ℕ) : List Byte :=
  List.replicate (446 + 4) 0 ++ [0xee, 0, 0, 0] ++ Bytes.le 4 1 ++
    Bytes.le 4 (if 0xffffffff < diskSectors then 0xffffffff else diskSectors - 1) ++
    List.replicate 48 0 ++ [0x55, 0xaa]

def sysinstallFillGptHeader (diskGuid : Blob 16) (currentLba alternateLba firstUsableLba lastUsableLba
    partitionEntryLba : ℕ) (partitionArrayCrc32 : UInt32) : GptHeader :=
  let header : GptHeader :=
    { signature := ⟨gptSignature, by decide⟩, revision := 0x00010000, headerSize := gptHeaderSize
      headerCrc32 := 0, reserved := 0, myLba := currentLba, alternateLba, firstUsableLba
      lastUsableLba, diskGuid, partitionEntryLba, numPartitionEntries := sysinstallGptEntryCount
      partitionEntrySize := gptEntrySize, partitionArrayCrc32 := partitionArrayCrc32.toNat }
  { header with headerCrc32 := (sysinstallCrc32 (encodeGptHeader header)).toNat }

def headerSector (header : GptHeader) : List Byte :=
  encodeGptHeader header ++ List.replicate (sectorSize - gptHeaderSize) 0

def entryArray (esp root : GptEntry) : List Byte :=
  encodeGptEntry esp ++ encodeGptEntry root ++
    List.replicate (sysinstallGptEntryCount * gptEntrySize - 2 * gptEntrySize) 0

/-- `sysinstall_write_lba28_checked`, with the fault that strikes it. -/
def sysinstallWriteLba28Checked (d : Disk) (lba : ℕ) (data : List Byte) (fault : Option ℕ) : Disk × ℤ :=
  if data = [] ∨ 0x100000000 ≤ lba then (d, -1) else d.write (UInt32.ofNat lba) data fault

def writeAll : List (ℕ × List Byte) → List (Option ℕ) → Disk → Disk × ℤ
  | [], _, d => (d, 0)
  | w :: writes, faults, d =>
    let r := sysinstallWriteLba28Checked d w.1 w.2 (faults.headD none)
    if r.2 < 0 then (r.1, -1) else writeAll writes faults.tail r.1

/-- What stands around the installer: the clock at its three readings, whether there is memory for the
entries, the faults of the disk, and what it answers to the flush. -/
structure InstallEnv where
  ticks : Fin 3 → UInt64
  kcalloc : Bool
  faults : List (Option ℕ)
  sync : ℤ

def backupEntriesLba (sectorCount : ℕ) : ℕ := sub64 (sub64 sectorCount sysinstallGptEntrySectors) 1

def lastUsableLba (sectorCount : ℕ) : ℕ := sub64 (backupEntriesLba sectorCount) 1

def espEntry (env : InstallEnv) (target : BlockDeviceInfo) (imageSize : ℕ) (esp : GptEntry) : GptEntry :=
  { esp with partitionGuid := sysinstallGenerateGuid (env.ticks 1) target imageSize 0x544e5502 }

/-- The second entry that is written: it goes on to the end of the disk. -/
def rootEntry (env : InstallEnv) (target : BlockDeviceInfo) (imageSize : ℕ) (root : GptEntry) :
    GptEntry :=
  { root with
    lastLba := lastUsableLba target.sectorCount
    partitionGuid := sysinstallGenerateGuid (env.ticks 2) target imageSize 0x544e5503 }

def installEntries (env : InstallEnv) (target : BlockDeviceInfo) (imageSize : ℕ)
    (esp root : GptEntry) : List Byte :=
  entryArray (espEntry env target imageSize esp) (rootEntry env target imageSize root)

/-- A header that is written, for its sector, the sector of the other one, and that of its array. -/
def installHeader (env : InstallEnv) (target : BlockDeviceInfo) (imageSize : ℕ) (esp root : GptEntry)
    (currentLba alternateLba partitionEntryLba : ℕ) : GptHeader :=
  sysinstallFillGptHeader (sysinstallGenerateGuid (env.ticks 0) target imageSize 0x544e5501) currentLba
    alternateLba (2 + sysinstallGptEntrySectors) (lastUsableLba target.sectorCount) partitionEntryLba
    (sysinstallCrc32 (installEntries env target imageSize esp root))

def installWrites (env : InstallEnv) (target : BlockDeviceInfo) (imageSize : ℕ) (esp root : GptEntry) :
    List (ℕ × List Byte) :=
  let header := installHeader env target imageSize esp root
  let entries := installEntries env target imageSize esp root
  [(0, sysinstallWriteProtectiveMbr target.sectorCount),
    (1, headerSector (header 1 (target.sectorCount - 1) 2)),
    (2, entries),
    (backupEntriesLba target.sectorCount, entries),
    (target.sectorCount - 1,
      headerSector (header (target.sectorCount - 1) 1 (backupEntriesLba target.sectorCount)))]

/-- `sysinstall_finalize_disk_layout`, on the disk that the name of the target leads to. -/
def sysinstallFinalizeDiskLayout (env : InstallEnv) (target : BlockDeviceInfo) (image : ℕ → Byte)
    (imageSize : ℕ) (d : Disk) : Disk × ℤ :=
  if imageSize = 0 then (d, -1)
  else if target.sectorSize ≠ sectorSize ∨ target.sectorCount = 0 ∨
      0x100000000 ≤ target.sectorCount ∨ imageSize % sectorSize ≠ 0 then (d, -1)
  else
    match sysinstallLoadTemplateLayout image imageSize with
    | none => (d, -1)
    | some (esp, root) =>
      if target.sectorCount < imageSize / sectorSize then (d, -1)
      else if lastUsableLba target.sectorCount < root.firstLba ∨ root.firstLba ≤ esp.lastLba then
        (d, -1)
      else if env.kcalloc = false then (d, -1)
      else
        let r := writeAll (installWrites env target imageSize esp root) env.faults d
        if r.2 < 0 ∨ env.sync < 0 then (r.1, -1) else (r.1, 0)

/-- **What the installer needs**: more sectors than the tables, and a first partition behind the first
table that does not end before it starts. -/
def OrderlyTemplate (sectorCount : ℕ) (esp : GptEntry) : Prop :=
  33 < sectorCount ∧ 2 + sysinstallGptEntrySectors ≤ esp.firstLba ∧ esp.firstLba ≤ esp.lastLba

/-- The disk holds a valid table, and the root partition is found in it. -/
def Installs (d : Disk) (sectorCount : ℕ) (root : GptEntry) : Prop :=
  (∃ primary backup, ValidGpt d.data sectorCount primary backup) ∧
    gptFindRootLba d = some root.firstLba

/-! ### The writes -/

variable {env : InstallEnv} {target : BlockDeviceInfo} {image : ℕ → Byte} {imageSize : ℕ} {d : Disk}
  {esp root : GptEntry} {f : ℕ → Byte} {n a : ℕ}

def writeAt (w : ℕ × List Byte) : ℕ × List Byte := (sectorAt w.1, w.2)

def WholeSectors (l : List Byte) : Prop := ∃ k, 0 < k ∧ l.length = k * sectorSize

variable {writes : List (ℕ × List Byte)} {alt cur lba last first : ℕ}

/-- **Writes that succeed** leave the disk with all of them copied in, and readable there. -/
theorem writeAll_of_success (hwhole : ∀ w ∈ writes, WholeSectors w.2)
    {faults : List (Option ℕ)} (h : ¬(writeAll writes faults d).2 < 0) :
    (∀ w ∈ writes, w.1 < 0x100000000) ∧
      (writeAll writes faults d).1.data = Bytes.copyAll d.data (writes.map writeAt) ∧
      (∀ i, d.readable i = true → (writeAll writes faults d).1.readable i = true) ∧
      ∀ w ∈ writes, (writeAll writes faults d).1.readable w.1 = true := by
  induction writes generalizing d faults with
  | nil => exact ⟨by simp, rfl, fun i hi => hi, by simp⟩
  | cons w writes ih =>
    obtain ⟨k, hk, hlen⟩ := hwhole w List.mem_cons_self
    have hne : w.2 ≠ [] := by
      intro hnil
      rw [hnil, List.length_nil] at hlen
      have : k * 512 = 0 := hlen.symm
      omega
    rw [writeAll] at h ⊢
    by_cases hlba : 0x100000000 ≤ w.1
    · have hfail : sysinstallWriteLba28Checked d w.1 w.2 (faults.headD none) = (d, -1) :=
        if_pos (Or.inr hlba)
      simp only [hfail] at h
      exact absurd (by norm_num) h
    have hguard : ¬(w.2 = [] ∨ 0x100000000 ≤ w.1) := not_or.2 ⟨hne, hlba⟩
    have hnat : (UInt32.ofNat w.1).toNat = w.1 := by
      rw [UInt32.toNat_ofNat']
      exact Nat.mod_eq_of_lt (not_le.1 hlba)
    simp only [sysinstallWriteLba28Checked, if_neg hguard] at h ⊢
    cases hfault : faults.headD none with
    | some cut =>
      rw [hfault] at h
      exact absurd (by simp [Disk.write]) h
    | none =>
      simp only [hfault, Disk.write, hnat, Disk.padded_of_length hlen, Int.lt_irrefl, if_false] at h ⊢
      obtain ⟨hlow, hdata, hkept, hread⟩ :=
        ih (fun w' hw' => hwhole w' (List.mem_cons_of_mem _ hw')) h
      refine ⟨List.forall_mem_cons.2 ⟨not_le.1 hlba, hlow⟩, hdata, fun i hi => ?_,
        List.forall_mem_cons.2 ⟨?_, hread⟩⟩
      · exact hkept i (Bool.or_eq_true_iff.2 (.inl hi))
      · exact hkept _ (Disk.readable_store hlen le_rfl (by omega))

/-! ### What the writes leave -/

def layoutWrites (mbr primary entries backup : List Byte) (n m : ℕ) : List (ℕ × List Byte) :=
  [(sectorAt 0, mbr), (sectorAt 1, primary), (sectorAt 2, entries), (sectorAt n, entries),
    (sectorAt m, backup)]

variable {mbr primary entries backup : List Byte} {m : ℕ}

/-- The pieces of the layout have the lengths they have. -/
structure LayoutLengths (mbr primary entries backup : List Byte) : Prop where
  mbr : mbr.length = 512
  primary : primary.length = 512
  entries : entries.length = 16384
  backup : backup.length = 512

/-- **When the backup table lies behind the first one**, everything stays on the disk. -/
theorem holds_layout (hlen : LayoutLengths mbr primary entries backup) (hn : 34 ≤ n) (hm : n + 32 ≤ m) :
    Bytes.Holds (Bytes.copyAll f (layoutWrites mbr primary entries backup n m)) (sectorAt 0) mbr ∧
    Bytes.Holds (Bytes.copyAll f (layoutWrites mbr primary entries backup n m)) (sectorAt 1) primary ∧
    Bytes.Holds (Bytes.copyAll f (layoutWrites mbr primary entries backup n m)) (sectorAt 2) entries ∧
    Bytes.Holds (Bytes.copyAll f (layoutWrites mbr primary entries backup n m)) (sectorAt n) entries ∧
    Bytes.Holds (Bytes.copyAll f (layoutWrites mbr primary entries backup n m)) (sectorAt m) backup := by
  have hmbr := hlen.mbr
  have hprimary := hlen.primary
  have hentries := hlen.entries
  have hat : ∀ k, sectorAt k = k * 512 := fun k => rfl
  refine ⟨Bytes.holds_copyAll [] ?_, Bytes.holds_copyAll [_] ?_,
    Bytes.holds_copyAll [_, _] ?_, Bytes.holds_copyAll [_, _, _] ?_,
    Bytes.holds_copyAll [_, _, _, _] ?_⟩
  · simp only [List.forall_mem_cons, Bytes.Misses, hat]
    refine ⟨?_, ?_, ?_, ?_, by simp⟩ <;> omega
  · simp only [List.forall_mem_cons, Bytes.Misses, hat]
    refine ⟨?_, ?_, ?_, by simp⟩ <;> omega
  · simp only [List.forall_mem_cons, Bytes.Misses, hat]
    refine ⟨?_, ?_, by simp⟩ <;> omega
  · simp only [List.forall_mem_cons, Bytes.Misses, hat]
    refine ⟨?_, by simp⟩
    omega
  · simp

/-- **When the backup table does not touch the first sectors**, the first header and the two entries stay
on the disk. -/
theorem holds_layout_front (hlen : LayoutLengths mbr primary entries backup) {front rest : List Byte}
    (hfront : entries = front ++ rest) (hshort : front.length ≤ 512) (hn : 2 ≤ n) (hm : 34 ≤ m) :
    Bytes.Holds (Bytes.copyAll f (layoutWrites mbr primary entries backup n m)) (sectorAt 1) primary ∧
    Bytes.Holds (Bytes.copyAll f (layoutWrites mbr primary entries backup n m)) (sectorAt 2) front := by
  have hprimary := hlen.primary
  have hentries := hlen.entries
  have hat : ∀ k, sectorAt k = k * 512 := fun k => rfl
  constructor
  · refine Bytes.holds_copyAll [_] ?_
    simp only [List.forall_mem_cons, Bytes.Misses, hat]
    refine ⟨?_, ?_, ?_, by simp⟩ <;> omega
  · rcases Nat.lt_or_ge 2 n with hlt | hge
    · have hthird : Bytes.Holds (Bytes.copyAll f
          [(sectorAt 0, mbr), (sectorAt 1, primary), (sectorAt 2, entries)]) (sectorAt 2) front := by
        have hall : Bytes.Holds (Bytes.copyAll f
            [(sectorAt 0, mbr), (sectorAt 1, primary), (sectorAt 2, entries)]) (sectorAt 2) entries :=
          Bytes.holds_copyAll [_, _] (by simp)
        rw [hfront] at hall ⊢
        exact (Bytes.holds_append.1 hall).1
      have hsplit : Bytes.copyAll f (layoutWrites mbr primary entries backup n m) = Bytes.copyAll
          (Bytes.copyAll f [(sectorAt 0, mbr), (sectorAt 1, primary), (sectorAt 2, entries)])
            [(sectorAt n, entries), (sectorAt m, backup)] := by
        simp only [layoutWrites, Bytes.copyAll_cons, Bytes.copyAll_nil]
      rw [hsplit]
      refine Bytes.holds_copyAll_of_misses ?_ hthird
      simp only [List.forall_mem_cons, Bytes.Misses, hat]
      refine ⟨?_, ?_, by simp⟩ <;> omega
    · obtain rfl : n = 2 := by omega
      have hall : Bytes.Holds (Bytes.copyAll f (layoutWrites mbr primary entries backup 2 m))
          (sectorAt 2) entries := by
        refine Bytes.holds_copyAll [_, _, _] ?_
        simp only [List.forall_mem_cons, Bytes.Misses, hat]
        refine ⟨?_, by simp⟩
        omega
      rw [hfront] at hall ⊢
      exact (Bytes.holds_append.1 hall).1

theorem holds_layout_zero (hlen : LayoutLengths mbr primary entries backup) (hm : 32 ≤ m) :
    Bytes.Holds (Bytes.copyAll f (layoutWrites mbr primary entries backup 0 m)) (sectorAt 0) entries := by
  have hentries := hlen.entries
  have hat : ∀ k, sectorAt k = k * 512 := fun k => rfl
  refine Bytes.holds_copyAll [_, _, _] ?_
  simp only [List.forall_mem_cons, Bytes.Misses, hat]
  refine ⟨?_, by simp⟩
  omega

theorem field_of_zeros {b w : ℕ} (h : Bytes.Holds f a (List.replicate n 0)) (hb : b + w ≤ n) :
    Bytes.field f (a + b) w = 0 := by
  have hsplit : List.replicate n (0 : Byte) =
      List.replicate b 0 ++ (List.replicate w 0 ++ List.replicate (n - b - w) 0) := by
    rw [List.replicate_append_replicate, List.replicate_append_replicate]
    congr 1
    omega
  have hzero : ∀ w : ℕ, Bytes.le w 0 = List.replicate w 0 := fun w => by
    induction w with
    | zero => rfl
    | succ w ih => rw [Bytes.le, Nat.zero_div, ih, List.replicate_succ]; rfl
  rw [hsplit, Bytes.holds_append, Bytes.holds_append, List.length_replicate, ← hzero w] at h
  rw [Bytes.field_of_holds h.2.1, Nat.zero_mod]

/-! ### The pieces -/

@[simp] theorem length_headerSector (header : GptHeader) : (headerSector header).length = 512 := by
  rw [headerSector, List.length_append, length_encodeGptHeader, List.length_replicate]
  rfl

@[simp] theorem length_entryArray (esp root : GptEntry) : (entryArray esp root).length = 16384 := by
  rw [entryArray, List.length_append, List.length_append, length_encodeGptEntry, length_encodeGptEntry,
    List.length_replicate]
  rfl

@[simp] theorem length_mbr (n : ℕ) : (sysinstallWriteProtectiveMbr n).length = 512 := by
  simp only [sysinstallWriteProtectiveMbr, List.length_append, List.length_replicate, Bytes.length_le,
    List.length_cons, List.length_nil]

theorem layoutLengths (n : ℕ) (header header' : GptHeader) (esp root : GptEntry) :
    LayoutLengths (sysinstallWriteProtectiveMbr n) (headerSector header) (entryArray esp root)
      (headerSector header') :=
  ⟨length_mbr n, length_headerSector header, length_entryArray esp root, length_headerSector header'⟩

theorem wholeSectors_installWrites (env : InstallEnv) (target : BlockDeviceInfo) (imageSize : ℕ)
    (esp root : GptEntry) : ∀ w ∈ installWrites env target imageSize esp root, WholeSectors w.2 := by
  simp only [installWrites, List.forall_mem_cons, installEntries]
  exact ⟨⟨1, by norm_num, length_mbr _⟩, ⟨1, by norm_num, length_headerSector _⟩,
    ⟨32, by norm_num, length_entryArray _ _⟩, ⟨32, by norm_num, length_entryArray _ _⟩,
    ⟨1, by norm_num, length_headerSector _⟩, by simp⟩

theorem backupEntriesLba_eq (h : 33 ≤ n) (hlt : n < 0x100000000) :
    backupEntriesLba n = n - 33 := by
  have hsectors : sysinstallGptEntrySectors = 32 := rfl
  rw [backupEntriesLba, sub64, sub64, hsectors]
  omega

theorem lastUsableLba_eq (h : 34 ≤ n) (hlt : n < 0x100000000) : lastUsableLba n = n - 34 := by
  rw [lastUsableLba, backupEntriesLba_eq (by omega) hlt, sub64]
  omega

theorem le_backupEntriesLba (h : n < 33) : 0x100000000 ≤ backupEntriesLba n := by
  have hsectors : sysinstallGptEntrySectors = 32 := rfl
  rw [backupEntriesLba, sub64, sub64, hsectors]
  omega

theorem installHeader_same (env : InstallEnv) (target : BlockDeviceInfo) (imageSize : ℕ)
    (esp root : GptEntry) (cur alt lba : ℕ) :
    (installHeader env target imageSize esp root cur alt lba).firstUsableLba = 34 ∧
    (installHeader env target imageSize esp root cur alt lba).lastUsableLba =
      lastUsableLba target.sectorCount ∧
    (installHeader env target imageSize esp root cur alt lba).numPartitionEntries = 128 ∧
    (installHeader env target imageSize esp root cur alt lba).partitionEntrySize = 128 ∧
    (installHeader env target imageSize esp root cur alt lba).partitionArrayCrc32 =
      (sysinstallCrc32 (installEntries env target imageSize esp root)).toNat :=
  ⟨rfl, rfl, rfl, rfl, rfl⟩

theorem headerCrc32_fill (diskGuid : Blob 16) (cur alt first last lba : ℕ) (crc : UInt32) :
    (sysinstallFillGptHeader diskGuid cur alt first last lba crc).headerCrc32 =
      (Crc.check crc32Poly (encodeGptHeader
        { sysinstallFillGptHeader diskGuid cur alt first last lba crc with headerCrc32 := 0 })).toNat :=
  sysinstallCrc32_eq _

theorem arraySectors_fill (diskGuid : Blob 16) (cur alt first last lba : ℕ) (crc : UInt32) :
    (sysinstallFillGptHeader diskGuid cur alt first last lba crc).arraySectors = 32 := by
  rw [GptHeader.arraySectors]
  change sectorsFor (128 * 128) = 32
  norm_num [sectorsFor, sectorSize]

theorem fits_fill (diskGuid : Blob 16) (crc : UInt32) (hcur : cur < 2 ^ 64)
    (halt : alt < 2 ^ 64) (hfirst : first < 2 ^ 64) (hlast : last < 2 ^ 64) (hlba : lba < 2 ^ 64) :
    (sysinstallFillGptHeader diskGuid cur alt first last lba crc).Fits where
  revision := by change 0x00010000 < 2 ^ 32; norm_num
  headerSize := by change 92 < 2 ^ 32; norm_num
  headerCrc32 := (sysinstallCrc32 _).toNat_lt
  reserved := by change 0 < 2 ^ 32; norm_num
  myLba := hcur
  alternateLba := halt
  firstUsableLba := hfirst
  lastUsableLba := hlast
  partitionEntryLba := hlba
  numPartitionEntries := by change 128 < 2 ^ 32; norm_num
  partitionEntrySize := by change 128 < 2 ^ 32; norm_num
  partitionArrayCrc32 := crc.toNat_lt

/-- **The headers of the layout are valid**, with an array that its sectors hold. -/
theorem validHeader_fill {diskGuid : Blob 16}
    (hcur : cur < 2 ^ 64) (halt : alt < 2 ^ 64) (hfirst : first < 2 ^ 64) (hlast : last < 2 ^ 64)
    (hlba : lba < 2 ^ 64) (hlen : entries.length = 16384)
    (hheader : Bytes.Holds f (sectorAt cur) (encodeGptHeader
      (sysinstallFillGptHeader diskGuid cur alt first last lba (sysinstallCrc32 entries))))
    (hentries : Bytes.Holds f (sectorAt lba) entries) :
    ValidHeader f cur alt
      (sysinstallFillGptHeader diskGuid cur alt first last lba (sysinstallCrc32 entries)) where
  at_lba := readGptHeader_of_holds (fits_fill diskGuid _ hcur halt hfirst hlast hlba) hheader
  signature := rfl
  headerSize := rfl
  headerCrc32 := headerCrc32_fill _ _ _ _ _ _ _
  myLba := rfl
  alternateLba := rfl
  entrySize := le_rfl
  arrayCrc32 := by
    have hwindow : Bytes.window f (sectorAt lba) (sysinstallGptEntryCount * gptEntrySize) = entries :=
      hentries.window_eq hlen
    change (sysinstallCrc32 entries).toNat = _
    rw [sysinstallCrc32_eq, ← hwindow]
    rfl

/-- **The first sector is a protective MBR.** -/
theorem protectiveMbr_of_holds (h : Bytes.Holds f (sectorAt 0) (sysinstallWriteProtectiveMbr n)) :
    ProtectiveMbr f n := by
  have hsize : (if 0xffffffff < n then 0xffffffff else n - 1) = min (n - 1) (2 ^ 32 - 1) := by
    split_ifs with hlarge
    · exact (min_eq_right (by omega)).symm
    · exact (min_eq_left (by omega)).symm
  rw [sysinstallWriteProtectiveMbr, hsize] at h
  simp only [Bytes.holds_append, List.length_append, List.length_replicate, Bytes.length_le,
    List.length_cons, List.length_nil, sectorAt, Nat.zero_mul, Nat.zero_add] at h
  obtain ⟨⟨⟨⟨⟨-, htype⟩, hstart⟩, hcount⟩, -⟩, hsig⟩ := h
  refine ⟨?_, ?_, ?_, ?_⟩
  · simp only [Bytes.Holds, List.length_cons, Bytes.window, List.cons.injEq] at htype
    exact htype.1
  · exact Tfs.field_of_holds_lt hstart (by norm_num)
  · exact Tfs.field_of_holds_lt hcount ((min_le_right _ _).trans_lt (by norm_num))
  · simp only [Bytes.Holds, List.length_cons, List.length_nil, Bytes.window, List.cons.injEq] at hsig
    exact ⟨hsig.1, hsig.2.1⟩

theorem readGptEntry_of_array (hesp : esp.Fits) (hroot : root.Fits)
    (h : Bytes.Holds f a (encodeGptEntry esp ++ encodeGptEntry root)) :
    readGptEntry f (a + 0 * gptEntrySize) = esp ∧ readGptEntry f (a + 1 * gptEntrySize) = root := by
  rw [Bytes.holds_append, length_encodeGptEntry] at h
  rw [Nat.zero_mul, Nat.one_mul, Nat.add_zero]
  exact ⟨readGptEntry_of_holds hesp h.1, readGptEntry_of_holds hroot h.2⟩

theorem firstLba_of_array (h : Bytes.Holds f a (entryArray esp root)) {i : ℕ} (hi : 2 ≤ i)
    (hlt : i < 128) : (readGptEntry f (a + i * gptEntrySize)).firstLba = 0 := by
  rw [entryArray, Bytes.holds_append, List.length_append, length_encodeGptEntry,
    length_encodeGptEntry] at h
  obtain ⟨k, rfl⟩ := Nat.exists_eq_add_of_le hi
  have haddr : a + (2 + k) * gptEntrySize + 32 = a + (gptEntrySize + gptEntrySize) + (k * 128 + 32) := by
    change a + (2 + k) * 128 + 32 = a + (128 + 128) + (k * 128 + 32)
    omega
  rw [readGptEntry, haddr]
  exact field_of_zeros h.2 (by change k * 128 + 32 + 8 ≤ 128 * 128 - 2 * 128; omega)

/-! ### Tables with two partitions -/

/-- The header of a table with two partitions, for its sector, the sector of the other one, and that of
its array. -/
def tableHeader (n : ℕ) (guid : Blob 16) (esp root : GptEntry) (cur alt lba : ℕ) : GptHeader :=
  sysinstallFillGptHeader guid cur alt 34 (n - 34) lba (sysinstallCrc32 (entryArray esp root))

/-- The sectors of such a table, each header with an identifier of its own. -/
structure HoldsTable (f : ℕ → Byte) (n : ℕ) (guid guid' : Blob 16) (esp root : GptEntry) : Prop where
  mbr : Bytes.Holds f (sectorAt 0) (sysinstallWriteProtectiveMbr n)
  primary : Bytes.Holds f (sectorAt 1) (encodeGptHeader (tableHeader n guid esp root 1 (n - 1) 2))
  entries : Bytes.Holds f (sectorAt 2) (entryArray esp root)
  backupEntries : Bytes.Holds f (sectorAt (n - 33)) (entryArray esp root)
  backup : Bytes.Holds f (sectorAt (n - 1))
    (encodeGptHeader (tableHeader n guid' esp root (n - 1) 1 (n - 33)))

/-- Two partitions, one behind the other, between the tables. -/
structure InUsableRange (n : ℕ) (esp root : GptEntry) : Prop where
  first : 34 ≤ esp.firstLba
  esp_last : esp.firstLba ≤ esp.lastLba
  order : esp.lastLba < root.firstLba
  root_last : root.firstLba ≤ root.lastLba
  last : root.lastLba ≤ n - 34

section Table

variable {guid guid' : Blob 16} (ht : HoldsTable f n guid guid' esp root)
include ht

theorem HoldsTable.entry_eq (hesp : esp.Fits) (hroot : root.Fits) :
    (tableHeader n guid esp root 1 (n - 1) 2).entry f 0 = esp ∧
      (tableHeader n guid esp root 1 (n - 1) 2).entry f 1 = root :=
  readGptEntry_of_array hesp hroot (Bytes.holds_append.1 ht.entries).1

theorem HoldsTable.eq_of_uses {i : ℕ} (hi : (tableHeader n guid esp root 1 (n - 1) 2).Uses f i) :
    i = 0 ∨ i = 1 := by
  obtain ⟨hlt, hne⟩ := hi
  by_contra hno
  exact hne (firstLba_of_array ht.entries (by omega) hlt)

theorem HoldsTable.primary_valid (hn : 34 ≤ n) (hlt : n < 2 ^ 64) :
    ValidHeader f 1 (n - 1) (tableHeader n guid esp root 1 (n - 1) 2) :=
  validHeader_fill (by norm_num) (by omega) (by norm_num) (by omega) (by norm_num)
    (length_entryArray _ _) ht.primary ht.entries

theorem HoldsTable.backup_valid (hn : 34 ≤ n) (hlt : n < 2 ^ 64) :
    ValidHeader f (n - 1) 1 (tableHeader n guid' esp root (n - 1) 1 (n - 33)) :=
  validHeader_fill (by omega) (by norm_num) (by norm_num) (by omega) (by omega)
    (length_entryArray _ _) ht.backup ht.backupEntries

/-- **The sectors of a table make it valid**, when the partitions lie between them. -/
theorem HoldsTable.validGpt (hn : 34 ≤ n) (hlt : n < 2 ^ 64) (hesp : esp.Fits) (hroot : root.Fits)
    (hr : InUsableRange n esp root) :
    ValidGpt f n (tableHeader n guid esp root 1 (n - 1) 2)
      (tableHeader n guid' esp root (n - 1) 1 (n - 33)) := by
  obtain ⟨hfirst, hespLast, horder, hrootLast, hlast⟩ := hr
  obtain ⟨hentry0, hentry1⟩ := ht.entry_eq hesp hroot
  have hfirstUsable : (tableHeader n guid esp root 1 (n - 1) 2).firstUsableLba = 34 := rfl
  have hlastUsable : (tableHeader n guid esp root 1 (n - 1) 2).lastUsableLba = n - 34 := rfl
  have harray : (tableHeader n guid esp root 1 (n - 1) 2).arraySectors = 32 :=
    arraySectors_fill _ _ _ _ _ _ _
  have harray' : (tableHeader n guid' esp root (n - 1) 1 (n - 33)).arraySectors = 32 :=
    arraySectors_fill _ _ _ _ _ _ _
  have hlba : (tableHeader n guid esp root 1 (n - 1) 2).partitionEntryLba = 2 := rfl
  have hlba' : (tableHeader n guid' esp root (n - 1) 1 (n - 33)).partitionEntryLba = n - 33 := rfl
  refine ⟨protectiveMbr_of_holds ht.mbr, ht.primary_valid hn hlt, ht.backup_valid hn hlt, ⟨rfl, rfl⟩,
    ⟨rfl, rfl, rfl⟩, ?_, ?_, fun i hi => ?_, fun i j hi hj hij => ?_⟩
  · rw [hlba, harray, hfirstUsable]
    norm_num
  · rw [hlba', harray', hlastUsable]
    omega
  · rw [hfirstUsable, hlastUsable]
    rcases ht.eq_of_uses hi with rfl | rfl
    · rw [hentry0]
      omega
    · rw [hentry1]
      omega
  · rcases ht.eq_of_uses hi with rfl | rfl <;> rcases ht.eq_of_uses hj with rfl | rfl
    · exact absurd rfl hij
    · rw [hentry0, hentry1]
      exact .inl horder
    · rw [hentry0, hentry1]
      exact .inr horder
    · exact absurd rfl hij

omit ht in
/-- **The kernel finds the second partition** of a table that it can read. -/
theorem HoldsTable.finds (ht : HoldsTable d.data n guid guid' esp root) (hn : 34 ≤ n)
    (hlt : n < 2 ^ 64) (hesp : esp.Fits) (hroot : root.Fits) (hroot0 : root.firstLba ≠ 0)
    (hread : d.readable 1 = true) (hread' : d.readable 2 = true) :
    gptFindRootLba d = some root.firstLba := by
  have hentry := (ht.entry_eq hesp hroot).2
  have hnum : 2 ≤ (tableHeader n guid esp root 1 (n - 1) 2).numPartitionEntries := by
    change 2 ≤ 128
    norm_num
  have hlba : (tableHeader n guid esp root 1 (n - 1) 2).partitionEntryLba < 2 ^ 64 := by
    change 2 < 2 ^ 64
    norm_num
  rw [gptFindRootLba_eq (ht.primary_valid hn hlt).at_lba rfl rfl hnum hlba hread hread'
    (by rw [hentry]; exact hroot0), hentry]

end Table

theorem signatureField_of_array (h : Bytes.Holds f (sectorAt 0) (entryArray esp root)) :
    Bytes.field f (sectorAt 1) 8 = 0 := by
  rw [entryArray, Bytes.holds_append, List.length_append, length_encodeGptEntry,
    length_encodeGptEntry] at h
  have haddr : sectorAt 0 + (gptEntrySize + gptEntrySize) + 256 = sectorAt 1 := rfl
  rw [← haddr]
  exact field_of_zeros h.2 (by change 256 + 8 ≤ 128 * 128 - 2 * 128; norm_num)

theorem signatureField_of_valid {header : GptHeader} (h : ValidHeader f 1 n header) :
    Bytes.field f (sectorAt 1) 8 ≠ 0 := by
  have hsig := h.signature
  rw [← h.at_lba] at hsig
  have hwindow : Bytes.window f (sectorAt 1) 8 = gptSignature := hsig
  rw [Bytes.field, hwindow]
  decide

/-! ### The installer -/

theorem load_eq_some (ht : sysinstallLoadTemplateLayout image imageSize = some (esp, root)) :
    esp.Fits ∧ root.Fits ∧ esp.firstLba ≠ 0 ∧ root.firstLba ≠ 0 := by
  rw [sysinstallLoadTemplateLayout] at ht
  split_ifs at ht with h₁
  dsimp only at ht
  split_ifs at ht with h₂ h₃ h₄
  obtain ⟨rfl, rfl⟩ := Prod.mk.inj (Option.some.inj ht)
  rw [not_or, not_or] at h₄
  exact ⟨fits_readGptEntry _ _, fits_readGptEntry _ _, h₄.1, h₄.2.1⟩

/-- **An installation that succeeded** passed the checks, and all its writes. -/
theorem finalize_of_success (ht : sysinstallLoadTemplateLayout image imageSize = some (esp, root))
    (h : (sysinstallFinalizeDiskLayout env target image imageSize d).2 = 0) :
    target.sectorCount < 0x100000000 ∧ root.firstLba ≤ lastUsableLba target.sectorCount ∧
      esp.lastLba < root.firstLba ∧
      ¬(writeAll (installWrites env target imageSize esp root) env.faults d).2 < 0 ∧
      (sysinstallFinalizeDiskLayout env target image imageSize d).1 =
        (writeAll (installWrites env target imageSize esp root) env.faults d).1 := by
  simp only [sysinstallFinalizeDiskLayout, ht] at h ⊢
  split_ifs at h ⊢ with h₁ h₂ h₃ h₄ h₅ h₆
  · cases h
  · cases h
  · cases h
  · cases h
  · cases h
  · cases h
  · rw [not_or] at h₄ h₆
    refine ⟨?_, not_lt.1 h₄.1, not_le.1 h₄.2, h₆.1, rfl⟩
    rw [not_or, not_or, not_or] at h₂
    exact not_le.1 h₂.2.2.1

theorem fits_espEntry (hesp : esp.Fits) : (espEntry env target imageSize esp).Fits :=
  ⟨hesp.firstLba, hesp.lastLba, hesp.attrs⟩

theorem fits_rootEntry (hroot : root.Fits) : (rootEntry env target imageSize root).Fits :=
  ⟨hroot.firstLba, Nat.mod_lt _ (by norm_num), hroot.attrs⟩

variable (ht : sysinstallLoadTemplateLayout image imageSize = some (esp, root))
  (h : (sysinstallFinalizeDiskLayout env target image imageSize d).2 = 0)
include ht h

theorem finalize_data : (sysinstallFinalizeDiskLayout env target image imageSize d).1.data =
    Bytes.copyAll d.data (layoutWrites (sysinstallWriteProtectiveMbr target.sectorCount)
      (headerSector (installHeader env target imageSize esp root 1 (target.sectorCount - 1) 2))
      (installEntries env target imageSize esp root)
      (headerSector (installHeader env target imageSize esp root (target.sectorCount - 1) 1
        (backupEntriesLba target.sectorCount)))
      (backupEntriesLba target.sectorCount) (target.sectorCount - 1)) := by
  obtain ⟨-, -, -, hwrites, heq⟩ := finalize_of_success ht h
  have hdata := (writeAll_of_success (wholeSectors_installWrites _ _ _ _ _) hwrites).2.1
  rw [heq, hdata]
  rfl

theorem sectorCount_of_success : target.sectorCount < 0x100000000 ∧
    (target.sectorCount = 33 ∨ 35 ≤ target.sectorCount) := by
  obtain ⟨hlt, hroot, -, hwrites, -⟩ := finalize_of_success ht h
  have hlow := (writeAll_of_success (wholeSectors_installWrites _ _ _ _ _) hwrites).1
    (backupEntriesLba target.sectorCount, installEntries env target imageSize esp root)
    (by simp [installWrites])
  refine ⟨hlt, ?_⟩
  rcases Nat.lt_or_ge target.sectorCount 33 with hsmall | hge
  · exact absurd hlow (not_lt.2 (le_backupEntriesLba hsmall))
  · by_contra hne
    have h34 : target.sectorCount = 34 := by omega
    rw [lastUsableLba_eq (by omega) hlt, h34] at hroot
    exact (load_eq_some ht).2.2.2 (by omega)

/-- **On an orderly disk the table is valid**, and the root partition is found. -/
theorem installs_of_orderly (ho : OrderlyTemplate target.sectorCount esp) :
    Installs (sysinstallFinalizeDiskLayout env target image imageSize d).1 target.sectorCount root := by
  obtain ⟨hcount, hfirst, hlast⟩ := ho
  obtain ⟨hlt, hlu, horder, hwrites, heq⟩ := finalize_of_success ht h
  obtain ⟨hesp, hroot, -, hroot0⟩ := load_eq_some ht
  have hsize := (sectorCount_of_success ht h).2
  have hdata := finalize_data ht h
  have hread := (writeAll_of_success (wholeSectors_installWrites _ _ _ _ _) hwrites).2.2.2
  rw [← heq] at hread
  have hbackup := backupEntriesLba_eq (show 33 ≤ target.sectorCount by omega) hlt
  have husable := lastUsableLba_eq (show 34 ≤ target.sectorCount by omega) hlt
  have hsectors : 2 + sysinstallGptEntrySectors = 34 := rfl
  obtain ⟨h0, h1, h2, hn, hm⟩ := holds_layout (f := d.data) (layoutLengths target.sectorCount
    (installHeader env target imageSize esp root 1 (target.sectorCount - 1) 2)
    (installHeader env target imageSize esp root (target.sectorCount - 1) 1
      (backupEntriesLba target.sectorCount))
    (espEntry env target imageSize esp) (rootEntry env target imageSize root))
    (show 34 ≤ backupEntriesLba target.sectorCount by omega)
    (show backupEntriesLba target.sectorCount + 32 ≤ target.sectorCount - 1 by omega)
  rw [← installEntries, ← hdata] at h0 h1 h2 hn hm
  rw [installHeader, husable] at h1 hm
  rw [hbackup] at hn hm
  have htable : HoldsTable (sysinstallFinalizeDiskLayout env target image imageSize d).1.data
      target.sectorCount (sysinstallGenerateGuid (env.ticks 0) target imageSize 0x544e5501)
      (sysinstallGenerateGuid (env.ticks 0) target imageSize 0x544e5501)
      (espEntry env target imageSize esp) (rootEntry env target imageSize root) :=
    ⟨h0, (Bytes.holds_append.1 h1).1, h2, hn, (Bytes.holds_append.1 hm).1⟩
  have hinside : InUsableRange target.sectorCount (espEntry env target imageSize esp)
      (rootEntry env target imageSize root) :=
    ⟨hfirst, hlast, horder, hlu, husable.le⟩
  refine ⟨⟨_, _, htable.validGpt (by omega) (by omega) (fits_espEntry hesp) (fits_rootEntry hroot)
    hinside⟩, ?_⟩
  have hmem : (1, headerSector (installHeader env target imageSize esp root 1
      (target.sectorCount - 1) 2)) ∈ installWrites env target imageSize esp root :=
    List.mem_cons_of_mem _ List.mem_cons_self
  have hmem' : (2, installEntries env target imageSize esp root) ∈
      installWrites env target imageSize esp root :=
    List.mem_cons_of_mem _ (List.mem_cons_of_mem _ List.mem_cons_self)
  exact htable.finds (by omega) (by omega) (fits_espEntry hesp) (fits_rootEntry hroot) hroot0
    (hread _ hmem) (hread _ hmem')

theorem orderly_of_installs
    (hi : Installs (sysinstallFinalizeDiskLayout env target image imageSize d).1 target.sectorCount root) :
    OrderlyTemplate target.sectorCount esp := by
  obtain ⟨⟨primary, backup, hvalid⟩, -⟩ := hi
  obtain ⟨hlt, hsize⟩ := sectorCount_of_success ht h
  obtain ⟨hesp, hroot, hesp0, -⟩ := load_eq_some ht
  have hdata := finalize_data ht h
  have hlen := layoutLengths target.sectorCount
    (installHeader env target imageSize esp root 1 (target.sectorCount - 1) 2)
    (installHeader env target imageSize esp root (target.sectorCount - 1) 1
      (backupEntriesLba target.sectorCount))
    (espEntry env target imageSize esp) (rootEntry env target imageSize root)
  have hat := hvalid.primary_valid.at_lba
  rcases hsize with h33 | hge
  · -- the backup array went to the front of the disk: the header there is gone
    have hzero : backupEntriesLba target.sectorCount = 0 := by rw [h33]; rfl
    have hfront := holds_layout_zero (f := d.data) hlen (show 32 ≤ target.sectorCount - 1 by omega)
    rw [hzero] at hdata
    rw [← installEntries, hzero, ← hdata] at hfront
    exact absurd (signatureField_of_array hfront)
      (signatureField_of_valid hvalid.primary_valid)
  · have hbackup := backupEntriesLba_eq (show 33 ≤ target.sectorCount by omega) hlt
    obtain ⟨h1, h2⟩ := holds_layout_front (f := d.data) hlen rfl
      (by rw [List.length_append, length_encodeGptEntry, length_encodeGptEntry]; norm_num)
      (show 2 ≤ backupEntriesLba target.sectorCount by omega)
      (show 34 ≤ target.sectorCount - 1 by omega)
    rw [← installEntries, ← hdata] at h1 h2
    have husable : lastUsableLba target.sectorCount < 2 ^ 64 := Nat.mod_lt _ (by norm_num)
    have hheader := readGptHeader_of_holds
      (fits_fill _ _ (by norm_num) (by omega) (by norm_num) husable (by norm_num))
      (Bytes.holds_append.1 h1).1
    rw [hat] at hheader
    have hentry0 := (readGptEntry_of_array (fits_espEntry hesp) (fits_rootEntry hroot) h2).1
    have hentry : primary.entry (sysinstallFinalizeDiskLayout env target image imageSize d).1.data 0 =
        espEntry env target imageSize esp := by
      rw [hheader]
      exact hentry0
    have huse : primary.Uses (sysinstallFinalizeDiskLayout env target image imageSize d).1.data 0 := by
      refine ⟨by rw [hheader]; change 0 < 128; norm_num, ?_⟩
      rw [hentry]
      exact hesp0
    obtain ⟨hfirst, hlast, -⟩ := hvalid.inside 0 huse
    rw [hentry] at hfirst hlast
    have hfirstUsable : primary.firstUsableLba = 34 := by
      rw [hheader]
      exact (installHeader_same env target imageSize esp root 1 (target.sectorCount - 1) 2).1
    rw [hfirstUsable] at hfirst
    exact ⟨by omega, hfirst, hlast⟩

/-- **An installation leaves a valid table** in which the root partition is found, exactly when the
template is orderly. -/
theorem installs_iff :
    Installs (sysinstallFinalizeDiskLayout env target image imageSize d).1 target.sectorCount root ↔
      OrderlyTemplate target.sectorCount esp :=
  ⟨orderly_of_installs ht h, installs_of_orderly ht h⟩

omit ht h

/-! ### Two templates -/

def bareEntry (first last : ℕ) : GptEntry :=
  ⟨⟨List.replicate 16 0, rfl⟩, ⟨List.replicate 16 0, rfl⟩, first, last, 0, ⟨List.replicate 72 0, rfl⟩⟩

/-- The header of an image of three sectors, with two entries in the last one. -/
def bareHeader : GptHeader :=
  ⟨⟨gptSignature, by decide⟩, 0x00010000, 92, 0, 0, 1, 0, 0, 0, ⟨List.replicate 16 0, rfl⟩, 2, 2, 128, 0⟩

/-- Such an image, with a first partition up to sector 40 and the root partition behind it. -/
def bareImage (first : ℕ) : ℕ → Byte :=
  Bytes.copyAll (fun _ => 0) [(512, encodeGptHeader bareHeader),
    (1024, encodeGptEntry (bareEntry first 40) ++ encodeGptEntry (bareEntry 41 41))]

def bareTarget : BlockDeviceInfo := ⟨lit "sda", [], true, 100, 512, false, lit "ahci"⟩

def bareEnv : InstallEnv := ⟨fun _ => 0, true, [], 0⟩

theorem load_bareImage (hne : first ≠ 0) (hlt : first < 2 ^ 64) :
    sysinstallLoadTemplateLayout (bareImage first) 1536 =
      some (bareEntry first 40, bareEntry 41 41) := by
  have hheader : readGptHeader (bareImage first) 512 = bareHeader := by
    refine readGptHeader_of_holds ⟨?_, ?_, ?_, ?_, ?_, ?_, ?_, ?_, ?_, ?_, ?_, ?_⟩
      (Bytes.holds_copyAll [] ?_) <;> norm_num [bareHeader, Bytes.Misses]
  have hentries : Bytes.Holds (bareImage first) 1024
      (encodeGptEntry (bareEntry first 40) ++ encodeGptEntry (bareEntry 41 41)) :=
    Bytes.holds_copyAll [_] (by simp)
  obtain ⟨hesp, hroot⟩ := readGptEntry_of_array (a := 1024)
    ⟨hlt, by norm_num [bareEntry], by norm_num [bareEntry]⟩
    ⟨by norm_num [bareEntry], by norm_num [bareEntry], by norm_num [bareEntry]⟩ hentries
  have hfields : bareHeader.signature.toList = gptSignature ∧ bareHeader.partitionEntrySize = 128 ∧
      bareHeader.numPartitionEntries = 2 ∧ bareHeader.partitionEntryLba = 2 := ⟨rfl, rfl, rfl, rfl⟩
  have hesp' : readGptEntry (bareImage first) 1024 = bareEntry first 40 := hesp
  have hroot' : readGptEntry (bareImage first) (1024 + 128) = bareEntry 41 41 := hroot
  rw [sysinstallLoadTemplateLayout, if_neg (by norm_num [sectorSize])]
  simp only [sectorSize, hheader, hfields, Nat.reduceMul, hesp', hroot']
  norm_num [bareEntry, hne]

theorem writeAll_success (hwhole : ∀ w ∈ writes, WholeSectors w.2)
    (hlow : ∀ w ∈ writes, w.1 < 0x100000000) (d : Disk) : (writeAll writes [] d).2 = 0 := by
  induction writes generalizing d with
  | nil => rfl
  | cons w writes ih =>
    obtain ⟨k, hk, hlen⟩ := hwhole w List.mem_cons_self
    have hguard : ¬(w.2 = [] ∨ 0x100000000 ≤ w.1) := by
      rintro (hnil | hle)
      · rw [hnil, List.length_nil] at hlen
        have : k * 512 = 0 := hlen.symm
        omega
      · exact absurd (hlow w List.mem_cons_self) (not_lt.2 hle)
    rw [writeAll]
    simp only [sysinstallWriteLba28Checked, if_neg hguard, List.headD_nil, Disk.write, Int.lt_irrefl,
      if_false, List.tail_nil]
    exact ih (fun w' hw' => hwhole w' (List.mem_cons_of_mem _ hw'))
      (fun w' hw' => hlow w' (List.mem_cons_of_mem _ hw')) _

theorem finalize_bareImage (hne : first ≠ 0) (hlt : first < 2 ^ 64) (d : Disk) :
    (sysinstallFinalizeDiskLayout bareEnv bareTarget (bareImage first) 1536 d).2 = 0 := by
  have hwrites : (writeAll (installWrites bareEnv bareTarget 1536 (bareEntry first 40) (bareEntry 41 41))
      [] d).2 = 0 := by
    refine writeAll_success (wholeSectors_installWrites _ _ _ _ _) ?_ d
    simp only [installWrites, List.forall_mem_cons]
    refine ⟨by norm_num, by norm_num, by norm_num, ?_, by norm_num [bareTarget], by simp⟩
    rw [backupEntriesLba_eq (by norm_num [bareTarget]) (by norm_num [bareTarget])]
    norm_num [bareTarget]
  have husable : lastUsableLba bareTarget.sectorCount = 66 := by
    rw [lastUsableLba_eq (by norm_num [bareTarget]) (by norm_num [bareTarget])]
    rfl
  have hfirst : (bareEntry 41 41).firstLba = 41 := rfl
  have hlast : (bareEntry first 40).lastLba = 40 := rfl
  have hfaults : bareEnv.faults = [] := rfl
  have hdisk : bareTarget.sectorSize = 512 ∧ bareTarget.sectorCount = 100 := ⟨rfl, rfl⟩
  have henv : bareEnv.kcalloc = true ∧ bareEnv.sync = 0 := ⟨rfl, rfl⟩
  simp only [sysinstallFinalizeDiskLayout, load_bareImage hne hlt, hfirst, hlast, husable, hfaults,
    hwrites, henv]
  norm_num [hdisk, sectorSize]

/-- A first partition behind the table. -/
theorem installs_iff_behind :
    Installs (sysinstallFinalizeDiskLayout bareEnv bareTarget (bareImage 34) 1536
      ⟨fun _ => 0, fun _ => true⟩).1 100 (bareEntry 41 41) :=
  (installs_iff (load_bareImage (by norm_num) (by norm_num))
    (finalize_bareImage (by norm_num) (by norm_num) ⟨fun _ => 0, fun _ => true⟩)).2
      ⟨by norm_num [bareTarget], by norm_num [bareEntry, sectorSize], by norm_num [bareEntry]⟩

/-- A first partition in the sector of the header: the installation succeeds, and the table is not
valid. -/
theorem not_installs : ¬∀ (env : InstallEnv) (target : BlockDeviceInfo) (image : ℕ → Byte)
    (imageSize : ℕ) (d : Disk) (esp root : GptEntry),
    sysinstallLoadTemplateLayout image imageSize = some (esp, root) →
      (sysinstallFinalizeDiskLayout env target image imageSize d).2 = 0 →
        Installs (sysinstallFinalizeDiskLayout env target image imageSize d).1 target.sectorCount
          root := by
  intro hall
  have ht := load_bareImage (show 1 ≠ 0 by norm_num) (by norm_num)
  have h := finalize_bareImage (show 1 ≠ 0 by norm_num) (by norm_num) ⟨fun _ => 0, fun _ => true⟩
  exact absurd (orderly_of_installs ht h (hall _ _ _ _ _ _ _ ht h)).2.1 (by norm_num [bareEntry, sectorSize])

end Tnu.Shell
