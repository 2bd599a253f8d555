/-
**Partition tables.**

The two records of a GUID partition table, as `kernel/shell/tsh.c` and `kernel/fs/tfs.c` lay them out,
what a table on a disk has to satisfy, and the small parser that the kernel finds its root partition
with.

Main definitions:

* `gptFindRootLba` — the parser.

Main results:

* `readGptHeader_of_holds`, `readGptEntry_of_holds` — **records are read back**;
* `gptFindRootLba_eq` — the parser finds the second entry.
-/

import Tnu.Lib.Crc
import Tnu.Tfs.Mount

set_option autoImplicit false

namespace Tnu.Tfs

/-! ### Records -/

abbrev Blob (n : ℕ) := List.Vector Byte n

def readBlob (f : ℕ → Byte) (a n : ℕ) : Blob n := ⟨Bytes.window f a n, Bytes.length_window f a n⟩

/-- The GUID partition table header, `struct gpt_header_min` and `struct sysinstall_gpt_header`. -/
structure GptHeader where
  signature : Blob 8
  revision : ℕ
  headerSize : ℕ
  headerCrc32 : ℕ
  reserved : ℕ
  myLba : ℕ
  alternateLba : ℕ
  firstUsableLba : ℕ
  lastUsableLba : ℕ
  diskGuid : Blob 16
  partitionEntryLba : ℕ
  numPartitionEntries : ℕ
  partitionEntrySize : ℕ
  partitionArrayCrc32 : ℕ

/-- A partition entry, `struct gpt_entry_min` and `struct sysinstall_gpt_entry`. -/
structure GptEntry where
  typeGuid : Blob 16
  partitionGuid : Blob 16
  firstLba : ℕ
  lastLba : ℕ
  attrs : ℕ
  name : Blob 72

/-- `sizeof(struct gpt_header_min)`. -/
abbrev gptHeaderSize : ℕ := 92

/-- `sizeof(struct gpt_entry_min)`. -/
abbrev gptEntrySize : ℕ := 128

def encodeGptHeader (h : GptHeader) : List Byte :=
  h.signature.toList ++ Bytes.le 4 h.revision ++ Bytes.le 4 h.headerSize ++ Bytes.le 4 h.headerCrc32
    ++ Bytes.le 4 h.reserved ++ Bytes.le 8 h.myLba ++ Bytes.le 8 h.alternateLba
    ++ Bytes.le 8 h.firstUsableLba ++ Bytes.le 8 h.lastUsableLba ++ h.diskGuid.toList
    ++ Bytes.le 8 h.partitionEntryLba ++ Bytes.le 4 h.numPartitionEntries
    ++ Bytes.le 4 h.partitionEntrySize ++ Bytes.le 4 h.partitionArrayCrc32

def encodeGptEntry (e : GptEntry) : List Byte :=
  e.typeGuid.toList ++ e.partitionGuid.toList ++ Bytes.le 8 e.firstLba ++ Bytes.le 8 e.lastLba
    ++ Bytes.le 8 e.attrs ++ e.name.toList

def readGptHeader (f : ℕ → Byte) (a : ℕ) : GptHeader where
  signature := readBlob f a 8
  revision := Bytes.field f (a + 8) 4
  headerSize := Bytes.field f (a + 12) 4
  headerCrc32 := Bytes.field f (a + 16) 4
  reserved := Bytes.field f (a + 20) 4
  myLba := Bytes.field f (a + 24) 8
  alternateLba := Bytes.field f (a + 32) 8
  firstUsableLba := Bytes.field f (a + 40) 8
  lastUsableLba := Bytes.field f (a + 48) 8
  diskGuid := readBlob f (a + 56) 16
  partitionEntryLba := Bytes.field f (a + 72) 8
  numPartitionEntries := Bytes.field f (a + 80) 4
  partitionEntrySize := Bytes.field f (a + 84) 4
  partitionArrayCrc32 := Bytes.field f (a + 88) 4

def readGptEntry (f : ℕ → Byte) (a : ℕ) : GptEntry where
  typeGuid := readBlob f a 16
  partitionGuid := readBlob f (a + 16) 16
  firstLba := Bytes.field f (a + 32) 8
  lastLba := Bytes.field f (a + 40) 8
  attrs := Bytes.field f (a + 48) 8
  name := readBlob f (a + 56) 72

/-- The numbers of a header fit their fields. -/
structure GptHeader.Fits (h : GptHeader) : Prop where
  revision : h.revision < 2 ^ 32
  headerSize : h.headerSize < 2 ^ 32
  headerCrc32 : h.headerCrc32 < 2 ^ 32
  reserved : h.reserved < 2 ^ 32
  myLba : h.myLba < 2 ^ 64
  alternateLba : h.alternateLba < 2 ^ 64
  firstUsableLba : h.firstUsableLba < 2 ^ 64
  lastUsableLba : h.lastUsableLba < 2 ^ 64
  partitionEntryLba : h.partitionEntryLba < 2 ^ 64
  numPartitionEntries : h.numPartitionEntries < 2 ^ 32
  partitionEntrySize : h.partitionEntrySize < 2 ^ 32
  partitionArrayCrc32 : h.partitionArrayCrc32 < 2 ^ 32

/-- The numbers of an entry fit their fields. -/
structure GptEntry.Fits (e : GptEntry) : Prop where
  firstLba : e.firstLba < 2 ^ 64
  lastLba : e.lastLba < 2 ^ 64
  attrs : e.attrs < 2 ^ 64

variable {b n w : ℕ}

@[simp] theorem length_blob (b : Blob n) : b.toList.length = n := b.toList_length

@[simp] theorem length_encodeGptHeader (h : GptHeader) :
    (encodeGptHeader h).length = gptHeaderSize := by
  simp [encodeGptHeader]

@[simp] theorem length_encodeGptEntry (e : GptEntry) :
    (encodeGptEntry e).length = gptEntrySize := by
  simp [encodeGptEntry]

variable {f : ℕ → Byte} {a : ℕ}

theorem readBlob_of_holds {b : Blob n} (h : Bytes.Holds f a b.toList) : readBlob f a n = b :=
  Subtype.ext (h.window_eq b.toList_length)

theorem field_of_holds_lt (h : Bytes.Holds f a (Bytes.le w n)) (hn : n < 256 ^ w) :
    Bytes.field f a w = n := by
  rw [Bytes.field_of_holds h, Nat.mod_eq_of_lt hn]

/-- **A header is read back.** -/
theorem readGptHeader_of_holds {h : GptHeader} (hf : h.Fits)
    (hh : Bytes.Holds f a (encodeGptHeader h)) : readGptHeader f a = h := by
  rw [encodeGptHeader] at hh
  simp only [Bytes.holds_append, List.length_append, Bytes.length_le, length_blob] at hh
  obtain ⟨⟨⟨⟨⟨⟨⟨⟨⟨⟨⟨⟨⟨h0, h8⟩, h12⟩, h16⟩, h20⟩, h24⟩, h32⟩, h40⟩, h48⟩, h56⟩, h72⟩, h80⟩, h84⟩, h88⟩ := hh
  rw [readGptHeader, readBlob_of_holds h0, field_of_holds_lt h8 hf.revision,
    field_of_holds_lt h12 hf.headerSize, field_of_holds_lt h16 hf.headerCrc32,
    field_of_holds_lt h20 hf.reserved, field_of_holds_lt h24 hf.myLba,
    field_of_holds_lt h32 hf.alternateLba, field_of_holds_lt h40 hf.firstUsableLba,
    field_of_holds_lt h48 hf.lastUsableLba, readBlob_of_holds h56,
    field_of_holds_lt h72 hf.partitionEntryLba, field_of_holds_lt h80 hf.numPartitionEntries,
    field_of_holds_lt h84 hf.partitionEntrySize, field_of_holds_lt h88 hf.partitionArrayCrc32]

/-- **An entry is read back.** -/
theorem readGptEntry_of_holds {e : GptEntry} (hf : e.Fits)
    (he : Bytes.Holds f a (encodeGptEntry e)) : readGptEntry f a = e := by
  rw [encodeGptEntry] at he
  simp only [Bytes.holds_append, List.length_append, Bytes.length_le, length_blob] at he
  obtain ⟨⟨⟨⟨⟨h0, h16⟩, h32⟩, h40⟩, h48⟩, h56⟩ := he
  rw [readGptEntry, readBlob_of_holds h0, readBlob_of_holds h16, field_of_holds_lt h32 hf.firstLba,
    field_of_holds_lt h40 hf.lastLba, field_of_holds_lt h48 hf.attrs, readBlob_of_holds h56]

theorem fits_readGptEntry (f : ℕ → Byte) (a : ℕ) : (readGptEntry f a).Fits where
  firstLba := Bytes.field_lt f (a + 32) 8
  lastLba := Bytes.field_lt f (a + 40) 8
  attrs := Bytes.field_lt f (a + 48) 8

/-! ### Tables on a disk -/

abbrev crc32Poly : BitVec 32 := 0xedb88320

def gptSignature : List Byte := lit "EFI PART"

/-- Where sector `lba` starts. -/
abbrev sectorAt (lba : ℕ) : ℕ := lba * sectorSize

def GptHeader.entry (h : GptHeader) (f : ℕ → Byte) (i : ℕ) : GptEntry :=
  readGptEntry f (sectorAt h.partitionEntryLba + i * h.partitionEntrySize)

def GptHeader.arraySectors (h : GptHeader) : ℕ :=
  sectorsFor (h.numPartitionEntries * h.partitionEntrySize)

def GptHeader.Uses (h : GptHeader) (f : ℕ → Byte) (i : ℕ) : Prop :=
  i < h.numPartitionEntries ∧ (h.entry f i).firstLba ≠ 0

/-- The header in sector `lba`, which names the sector of the other one: its checks, and the check of
its entry array, are right. -/
structure ValidHeader (f : ℕ → Byte) (lba alternate : ℕ) (h : GptHeader) : Prop where
  at_lba : readGptHeader f (sectorAt lba) = h
  signature : h.signature.toList = gptSignature
  headerSize : h.headerSize = gptHeaderSize
  headerCrc32 : h.headerCrc32 =
    (Crc.check crc32Poly (encodeGptHeader { h with headerCrc32 := 0 })).toNat
  myLba : h.myLba = lba
  alternateLba : h.alternateLba = alternate
  entrySize : gptEntrySize ≤ h.partitionEntrySize
  arrayCrc32 : h.partitionArrayCrc32 =
    (Crc.check crc32Poly (Bytes.window f (sectorAt h.partitionEntryLba)
      (h.numPartitionEntries * h.partitionEntrySize))).toNat

/-- The record of the first sector that keeps other systems off the disk. -/
structure ProtectiveMbr (f : ℕ → Byte) (sectorCount : ℕ) : Prop where
  type : f (446 + 4) = 0xee
  start : Bytes.field f (446 + 8) 4 = 1
  size : Bytes.field f (446 + 12) 4 = min (sectorCount - 1) (2 ^ 32 - 1)
  signature : f 510 = 0x55 ∧ f 511 = 0xaa

/-- **A disk with a valid partition table**: the headers mirror each other, the usable range lies
between the tables, and the partitions lie in it beside each other. -/
structure ValidGpt (f : ℕ → Byte) (sectorCount : ℕ) (primary backup : GptHeader) : Prop where
  mbr : ProtectiveMbr f sectorCount
  primary_valid : ValidHeader f 1 (sectorCount - 1) primary
  backup_valid : ValidHeader f (sectorCount - 1) 1 backup
  same_range : backup.firstUsableLba = primary.firstUsableLba ∧
    backup.lastUsableLba = primary.lastUsableLba
  same_array : backup.numPartitionEntries = primary.numPartitionEntries ∧
    backup.partitionEntrySize = primary.partitionEntrySize ∧
    backup.partitionArrayCrc32 = primary.partitionArrayCrc32
  primary_before : 1 < primary.partitionEntryLba ∧
    primary.partitionEntryLba + primary.arraySectors ≤ primary.firstUsableLba
  backup_behind : primary.lastUsableLba < backup.partitionEntryLba ∧
    backup.partitionEntryLba + backup.arraySectors ≤ sectorCount - 1
  inside : ∀ i, primary.Uses f i → primary.firstUsableLba ≤ (primary.entry f i).firstLba ∧
    (primary.entry f i).firstLba ≤ (primary.entry f i).lastLba ∧
    (primary.entry f i).lastLba ≤ primary.lastUsableLba
  disjoint : ∀ i j, primary.Uses f i → primary.Uses f j → i ≠ j →
    (primary.entry f i).lastLba < (primary.entry f j).firstLba ∨
      (primary.entry f j).lastLba < (primary.entry f i).firstLba

/-! ### The parser -/

def gptFindRootLba (d : Disk) : Option ℕ :=
  (d.read 1 sectorSize).bind fun sector =>
    let gpt := readGptHeader (bufStore sector) 0
    if gpt.signature.toList ≠ gptSignature then none
    else if gpt.partitionEntrySize < gptEntrySize ∨ gpt.numPartitionEntries < 2 then none
    else
      let entrySize := gpt.partitionEntrySize
      if entrySize = 0 ∨ sectorSize < entrySize then none
      else
        let entryOffsetBytes := entrySize * 1
        let entrySectorLba := (gpt.partitionEntryLba + entryOffsetBytes / sectorSize) % 2 ^ 64
        let entryOffsetInSector := entryOffsetBytes % sectorSize
        (d.read entrySectorLba sectorSize).bind fun entriesSector =>
          if sectorSize < entryOffsetInSector + entrySize then none
          else
            let entry := readGptEntry (bufStore entriesSector) entryOffsetInSector
            if entry.firstLba = 0 then none else some entry.firstLba

theorem field_bufStore (h : b + w ≤ n) :
    Bytes.field (bufStore (Bytes.window f a n)) b w = Bytes.field f (a + b) w := by
  rw [Bytes.field, window_bufStore h, Bytes.field]

theorem readBlob_bufStore {k : ℕ} (h : b + k ≤ n) :
    readBlob (bufStore (Bytes.window f a n)) b k = readBlob f (a + b) k :=
  Subtype.ext (window_bufStore h)

theorem readGptHeader_bufStore :
    readGptHeader (bufStore (Bytes.window f a sectorSize)) 0 = readGptHeader f a := by
  simp only [readGptHeader, Nat.zero_add]
  rw [readBlob_bufStore (by norm_num [sectorSize]), readBlob_bufStore (by norm_num [sectorSize])]
  simp (disch := norm_num [sectorSize]) only [field_bufStore, Nat.add_zero]

theorem readGptEntry_bufStore (h : b + gptEntrySize ≤ sectorSize) :
    readGptEntry (bufStore (Bytes.window f a sectorSize)) b = readGptEntry f (a + b) := by
  have h' : b + 128 ≤ 512 := h
  have hle : ∀ c k : ℕ, c + k ≤ 128 → b + c + k ≤ sectorSize := fun c k hc => by
    change b + c + k ≤ 512
    omega
  rw [readGptEntry, readBlob_bufStore (by change b + 16 ≤ 512; omega),
    readBlob_bufStore (hle 16 16 (by norm_num)), readBlob_bufStore (hle 56 72 (by norm_num)),
    field_bufStore (hle 32 8 (by norm_num)), field_bufStore (hle 40 8 (by norm_num)),
    field_bufStore (hle 48 8 (by norm_num))]
  simp only [readGptEntry, Nat.add_assoc]

/-- **The parser finds the second entry** of a table with entries of the usual size. -/
theorem gptFindRootLba_eq {d : Disk} {h : GptHeader} (hh : readGptHeader d.data (sectorAt 1) = h)
    (hsig : h.signature.toList = gptSignature) (hsize : h.partitionEntrySize = gptEntrySize)
    (hnum : 2 ≤ h.numPartitionEntries) (hlba : h.partitionEntryLba < 2 ^ 64)
    (hread : d.readable 1 = true) (hread' : d.readable h.partitionEntryLba = true)
    (hne : (h.entry d.data 1).firstLba ≠ 0) :
    gptFindRootLba d = some (h.entry d.data 1).firstLba := by
  have hone : sectorsFor sectorSize = 1 := by norm_num [sectorsFor, sectorSize]
  have hsector : d.read 1 sectorSize = some (Bytes.window d.data (sectorAt 1) sectorSize) :=
    Disk.read_eq_some.2 ⟨fun i hi => by
      rw [hone, Nat.lt_one_iff] at hi
      rw [hi]
      exact hread, rfl⟩
  have hentries : d.read h.partitionEntryLba sectorSize =
      some (Bytes.window d.data (sectorAt h.partitionEntryLba) sectorSize) :=
    Disk.read_eq_some.2 ⟨fun i hi => by
      rw [hone, Nat.lt_one_iff] at hi
      rw [hi]
      exact hread', rfl⟩
  rw [GptHeader.entry, hsize] at hne ⊢
  rw [gptFindRootLba, hsector, Option.bind_some]
  have hdiv : gptEntrySize * 1 / sectorSize = 0 := rfl
  have hmod : gptEntrySize * 1 % sectorSize = gptEntrySize := rfl
  have hsmall : ¬(gptEntrySize = 0 ∨ sectorSize < gptEntrySize) := by norm_num [sectorSize]
  have hfits : ¬sectorSize < gptEntrySize + gptEntrySize := by norm_num [sectorSize]
  have hlba' : (h.partitionEntryLba + 0) % 2 ^ 64 = h.partitionEntryLba := Nat.mod_eq_of_lt hlba
  simp only [readGptHeader_bufStore, hh, hsig, hsize, not_true_eq_false, ne_eq, if_false,
    Nat.lt_irrefl, false_or, not_lt.2 hnum, hdiv, hmod, hsmall, hfits, hlba', hentries,
    Option.bind_some]
  rw [Nat.one_mul] at hne ⊢
  rw [readGptEntry_bufStore (by norm_num [sectorSize]), if_neg hne]

end Tnu.Tfs
