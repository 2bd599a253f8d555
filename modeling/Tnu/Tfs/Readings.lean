/-
**Two readings of a disk.**

`tfs_mount_disk` of `kernel/fs/tfs.c` reads the table of a disk twice.  A pass over the sectors the table
starts in finds the end of the last file, and so the size of the image to load; the parser then goes through
the table of that image, byte for byte from `entries_offset` on.  `tfs_mount_image`, on the same bytes, only
does the second.

Main definitions:

* `stored`, `diskRecords` — the bytes of the image on the disk, and its table;
* `Loads`, `Orderly`, `FitsLimit` — the condition.

Main result:

* `readingsAgree_iff` — **when the two readings agree**.
-/

import Tnu.Tfs.Bounds
import Tnu.Tfs.Torn
import Tnu.Tfs.Traceless

set_option autoImplicit false

namespace Tnu.Tfs

open Vfs

/-! ### Reads of the same bytes -/

section

variable {f g : ℕ → Byte} {a b : ℕ}

theorem readHeader_congr (h : ∀ i < headerSize, f (a + i) = g (b + i)) :
    readHeader f a = readHeader g b := by
  have hsize : headerSize = 32 := rfl
  have hpart : ∀ k n, k + n ≤ 32 → ∀ i < n, f (a + k + i) = g (b + k + i) := fun k n hk i hi => by
    rw [Nat.add_assoc, Nat.add_assoc]
    exact h (k + i) (by omega)
  rw [readHeader, readHeader, RawHeader.mk.injEq]
  exact ⟨Bytes.window_congr_at (hpart 0 8 (by norm_num)), Bytes.field_congr_at (hpart 8 4 (by norm_num)),
    Bytes.field_congr_at (hpart 12 4 (by norm_num)), Bytes.field_congr_at (hpart 16 8 (by norm_num)),
    Bytes.field_congr_at (hpart 24 8 (by norm_num))⟩

theorem record_congr (h : ∀ i < entrySize, f (a + i) = g (b + i)) :
    (⟨readEntry f a, readPath f a⟩ : Record) = ⟨readEntry g b, readPath g b⟩ := by
  have hsize : entrySize = 296 := rfl
  have hpart : ∀ k n, k + n ≤ 296 → ∀ i < n, f (a + k + i) = g (b + k + i) := fun k n hk i hi => by
    rw [Nat.add_assoc, Nat.add_assoc]
    exact h (k + i) (by omega)
  have hpath : readPath f a = readPath g b :=
    congrArg cstr (Bytes.window_congr_at (hpart 40 255 (by norm_num)))
  have hentry : readEntry f a = readEntry g b := by
    rw [readEntry, readEntry, RawEntry.mk.injEq]
    refine ⟨Bytes.field_congr_at (hpart 0 4 (by norm_num)), ?_, ?_, ?_,
      Bytes.field_congr_at (hpart 16 8 (by norm_num)), Bytes.field_congr_at (hpart 24 8 (by norm_num)),
      Bytes.field_congr_at (hpart 32 8 (by norm_num))⟩
    · rw [Bytes.field_congr_at (hpart 4 4 (by norm_num))]
    · rw [Bytes.field_congr_at (hpart 8 4 (by norm_num))]
    · rw [Bytes.field_congr_at (hpart 12 4 (by norm_num))]
  rw [hpath, hentry]

/-- **The same bytes make the same table.** -/
theorem recordsFrom_congr {n : ℕ} (h : ∀ i < n * entrySize, f (a + i) = g (b + i)) :
    recordsFrom f n a = recordsFrom g n b := by
  induction n generalizing a b with
  | zero => rfl
  | succ n ih =>
    have hsucc : (n + 1) * entrySize = n * entrySize + entrySize := Nat.succ_mul _ _
    have hfirst : (⟨readEntry f a, readPath f a⟩ : Record) = ⟨readEntry g b, readPath g b⟩ :=
      record_congr fun i hi => h i (by omega)
    have hrest := ih (a := a + entrySize) (b := b + entrySize) fun i hi => by
      rw [Nat.add_assoc, Nat.add_assoc]
      exact h (entrySize + i) (by omega)
    rw [recordsFrom, recordsFrom, hfirst, hrest]

end

/-! ### The scan for the end -/

def Record.lastByte (r : Record) : ℕ := (r.entry.offset + r.entry.size) % addressSpace

variable {f : ℕ → Byte} {n a m : ℕ} {r : Record} {rs : List Record}

theorem le_scanEnd (f : ℕ → Byte) (n a m : ℕ) :
    m ≤ scanEnd f n a m ∧
      ∀ r ∈ recordsFrom f n a, r.entry.type = tfsEntryFile → r.lastByte ≤ scanEnd f n a m := by
  induction n generalizing a m with
  | zero => exact ⟨le_rfl, fun r hr => by cases hr⟩
  | succ n ih =>
    rw [scanEnd, recordsFrom]
    set m' := if (readEntry f a).type = tfsEntryFile ∧
      m < ((readEntry f a).offset + (readEntry f a).size) % addressSpace
      then ((readEntry f a).offset + (readEntry f a).size) % addressSpace else m with hm'
    obtain ⟨hm, hrest⟩ := ih (a + entrySize) m'
    have hle : m ≤ m' := by
      rw [hm']
      split_ifs with hc
      · exact hc.2.le
      · exact le_rfl
    refine ⟨hle.trans hm, List.forall_mem_cons.2 ⟨fun htype => ?_, hrest⟩⟩
    refine le_trans ?_ hm
    rw [hm', Record.lastByte]
    split_ifs with hc
    · exact le_rfl
    · exact not_lt.1 fun hlt => hc ⟨htype, hlt⟩

theorem scanEnd_cases (f : ℕ → Byte) (n a m : ℕ) :
    scanEnd f n a m = m ∨
      ∃ r ∈ recordsFrom f n a, r.entry.type = tfsEntryFile ∧ r.lastByte = scanEnd f n a m := by
  induction n generalizing a m with
  | zero => exact .inl rfl
  | succ n ih =>
    rw [scanEnd, recordsFrom]
    by_cases hc : (readEntry f a).type = tfsEntryFile ∧
      m < ((readEntry f a).offset + (readEntry f a).size) % addressSpace
    · rw [if_pos hc]
      rcases ih (a + entrySize) _ with hsame | ⟨r, hr, htype, hlast⟩
      · exact .inr ⟨_, List.mem_cons_self, hc.1, hsame.symm⟩
      · exact .inr ⟨r, List.mem_cons_of_mem _ hr, htype, hlast⟩
    · rw [if_neg hc]
      rcases ih (a + entrySize) m with hsame | ⟨r, hr, htype, hlast⟩
      · exact .inl hsame
      · exact .inr ⟨r, List.mem_cons_of_mem _ hr, htype, hlast⟩

/-! ### The bytes of a disk -/

def stored (d : Disk) (startLba : UInt64) : ℕ → Byte := fun i => d.data (startLba.toNat * sectorSize + i)

theorem window_stored (d : Disk) (startLba : UInt64) (a n : ℕ) :
    Bytes.window (stored d startLba) a n = Bytes.window d.data (startLba.toNat * sectorSize + a) n :=
  Bytes.window_shift _ _ _ _

def Readable (d : Disk) (lba bytes : ℕ) : Prop :=
  ∀ i < sectorsFor bytes, d.readable (lba + i) = true

def tableSector (startLba : UInt64) (h : RawHeader) : ℕ :=
  (startLba.toNat + h.entriesOffset / sectorSize) % addressSpace

/-- The bytes from the start of that sector on: the table of the sizing pass. -/
def sizingTable (d : Disk) (startLba : UInt64) (h : RawHeader) : List Byte :=
  Bytes.window d.data (tableSector startLba h * sectorSize) h.entriesBytes

/-- The bytes at `entries_offset`: the table of the image. -/
def imageTable (d : Disk) (startLba : UInt64) (h : RawHeader) : List Byte :=
  Bytes.window (stored d startLba) h.entriesOffset h.entriesBytes

def diskRecords (d : Disk) (startLba : UInt64) (h : RawHeader) : List Record :=
  recordsFrom (stored d startLba) h.entryCount h.entriesOffset

/-- `image_size`, from the table of the sizing pass. -/
def imageSize (d : Disk) (startLba : UInt64) (h : RawHeader) : ℕ :=
  diskImageSize h (sizingTable d startLba h)

/-- **The sizing pass gets through**: its memory is granted, its sectors can be read, and the image is no
larger than the limit. -/
structure Loads (kmalloc : ℕ → Bool) (d : Disk) (startLba : UInt64) (h : RawHeader) : Prop where
  table_granted : kmalloc (if h.entriesBytes = 0 then 1 else h.entriesBytes) = true
  table_readable : h.entriesBytes ≠ 0 → Readable d (tableSector startLba h) h.entriesBytes
  small : imageSize d startLba h ≤ tfsSyncBufferMax
  image_granted : kmalloc (imageSize d startLba h) = true
  image_readable : Readable d startLba.toNat (imageSize d startLba h)

variable {d : Disk} {startLba : UInt64} {h : RawHeader} {kmalloc : ℕ → Bool}

theorem diskEntries_eq_some {entries : List Byte} : diskEntries d startLba h = some entries ↔
    (h.entriesBytes ≠ 0 → Readable d (tableSector startLba h) h.entriesBytes) ∧
      entries = sizingTable d startLba h := by
  rw [diskEntries, sizingTable]
  split_ifs with hzero
  · rw [hzero, Bytes.window, Option.some_inj, eq_comm]
    simp
  · rw [Disk.read_eq_some]
    simp only [ne_eq, hzero, not_false_iff, forall_const, Readable, tableSector]

/-- **The image that is loaded.** -/
theorem diskImage_eq_some_iff (hh : diskHeader d startLba = some h) {bytes : List Byte} :
    diskImage kmalloc d startLba = some bytes ↔
      Loads kmalloc d startLba h ∧ bytes = Bytes.window (stored d startLba) 0 (imageSize d startLba h) := by
  rw [diskImage_eq_some, window_stored, Nat.add_zero]
  constructor
  · rintro ⟨h', entries, hh', hk, hentries, hsmall, hk', hread⟩
    obtain rfl := Option.some.inj (hh.symm.trans hh')
    obtain ⟨htable, rfl⟩ := diskEntries_eq_some.1 hentries
    obtain ⟨himage, rfl⟩ := Disk.read_eq_some.1 hread
    exact ⟨⟨hk, htable, hsmall, hk', himage⟩, rfl⟩
  · rintro ⟨hl, rfl⟩
    exact ⟨h, _, hh, hl.table_granted, diskEntries_eq_some.2 ⟨hl.table_readable, rfl⟩, hl.small,
      hl.image_granted, Disk.read_eq_some.2 ⟨hl.image_readable, rfl⟩⟩

theorem of_diskHeader (hh : diskHeader d startLba = some h) :
    readHeader (stored d startLba) 0 = h ∧ h.magic = tfsMagic ∧ h.version = tfsVersion ∧
      h.entryCount ≤ tfsMaxEntries ∧ h.entriesOffset ≤ tfsSyncBufferMax ∧
      h.dataOffset ≤ tfsSyncBufferMax := by
  rw [diskHeader, Option.bind_eq_some_iff] at hh
  obtain ⟨sector, hread, hh⟩ := hh
  obtain ⟨-, rfl⟩ := Disk.read_eq_some.1 hread
  simp only at hh
  split_ifs at hh with hmagic hlarge
  obtain rfl := Option.some.inj hh
  rw [not_or, not_not, not_not] at hmagic
  rw [not_or, not_or, not_lt, not_lt, not_lt] at hlarge
  refine ⟨readHeader_congr fun i hi => ?_, hmagic.1, hmagic.2, hlarge.1, hlarge.2.1, hlarge.2.2⟩
  have hsize : headerSize = 32 ∧ sectorSize = 512 := ⟨rfl, rfl⟩
  rw [bufStore, List.getD_eq_getElem?_getD, Bytes.getElem?_window _ (by omega), Option.getD_some, stored]

theorem bufStore_window {i : ℕ} (hi : i < n) :
    bufStore (Bytes.window f a n) i = f (a + i) := by
  rw [bufStore, List.getD_eq_getElem?_getD, Bytes.getElem?_window _ hi, Option.getD_some]

theorem recordsFrom_bufStore {size : ℕ}
    (hsize : h.entriesOffset + h.entriesBytes ≤ size) :
    recordsFrom (bufStore (Bytes.window f 0 size)) h.entryCount h.entriesOffset =
      recordsFrom f h.entryCount h.entriesOffset := by
  refine recordsFrom_congr fun i hi => ?_
  have hbytes : h.entriesBytes = h.entryCount * entrySize := rfl
  rw [bufStore_window (by omega), Nat.zero_add]

/-! ### The size of the image -/

/-- **So many bytes have everything**: the header, the table, and each file. -/
structure Enclosed (h : RawHeader) (rs : List Record) (size : ℕ) : Prop where
  header : headerSize ≤ size
  table : h.entriesOffset + h.entriesBytes ≤ size
  files : ∀ r ∈ rs, r.IsFile → r.entry.offset + r.entry.size ≤ size

/-- The ends can be found with sums of 64 bits: there is something in front of them, no end of a file
wraps, and none is so large that it cannot be rounded up to a sector. -/
structure Summable (h : RawHeader) (rs : List Record) : Prop where
  start : 0 < h.entriesOffset + h.entriesBytes
  ends : ∀ r ∈ rs, r.IsFile → r.entry.offset + r.entry.size < addressSpace
  rounds : ∀ r ∈ rs, r.entry.type = tfsEntryFile → r.lastByte + (sectorSize - 1) < addressSpace

/-- **The size that is found is enough** exactly when everything lies in front of `data_offset`, or the
ends can be found. -/
theorem enclosed_imageSize_iff (hh : diskHeader d startLba = some h)
    (hsame : sizingTable d startLba h = imageTable d startLba h) :
    Enclosed h (diskRecords d startLba h) (imageSize d startLba h) ↔
      Enclosed h (diskRecords d startLba h) h.dataOffset ∨ Summable h (diskRecords d startLba h) := by
  obtain ⟨-, -, -, hcount, hoffset, -⟩ := of_diskHeader hh
  have hbytes : h.entriesBytes = h.entryCount * 296 := rfl
  have hmax : tfsMaxEntries = 1024 ∧ tfsSyncBufferMax = 536870912 := ⟨rfl, rfl⟩
  have hfixed : sectorSize = 512 ∧ addressSpace = 2 ^ 64 ∧ headerSize = 32 := ⟨rfl, rfl, rfl⟩
  set rs := diskRecords d startLba h with hrs
  have hrecords : recordsFrom (bufStore (sizingTable d startLba h)) h.entryCount 0 = rs := by
    refine recordsFrom_congr fun i hi => ?_
    rw [hsame, imageTable, Nat.zero_add]
    exact bufStore_window (n := h.entriesBytes) hi
  set last := scanEnd (bufStore (sizingTable d startLba h)) h.entryCount 0
    (h.entriesOffset + h.entriesBytes) with hlast
  obtain ⟨hstart, hends⟩ := le_scanEnd (bufStore (sizingTable d startLba h)) h.entryCount 0
    (h.entriesOffset + h.entriesBytes)
  have hcases := scanEnd_cases (bufStore (sizingTable d startLba h)) h.entryCount 0
    (h.entriesOffset + h.entriesBytes)
  rw [hrecords, ← hlast] at hends hcases
  rw [← hlast] at hstart
  have hsize : imageSize d startLba h =
      max ((last + sectorSize - 1) % addressSpace / sectorSize * sectorSize) h.dataOffset := rfl
  constructor
  · rintro ⟨hheader, htable, hfiles⟩
    rcases le_or_gt ((last + sectorSize - 1) % addressSpace / sectorSize * sectorSize) h.dataOffset with
      hle | hgt
    · rw [hsize, max_eq_right hle] at hheader htable hfiles
      exact .inl ⟨hheader, htable, hfiles⟩
    · rw [hsize, max_eq_left hgt.le] at hheader htable hfiles
      -- had the sum wrapped, it would round down to nothing
      have hlt : last + 511 < 2 ^ 64 := by
        have hsmall : last < 2 ^ 64 := by
          rcases hcases with hsame | ⟨r, -, -, hr⟩
          · omega
          · rw [← hr, Record.lastByte]
            exact Nat.mod_lt _ (by norm_num)
        by_contra hwrap
        rw [hfixed.1, hfixed.2.1] at hgt
        omega
      refine .inr ⟨?_, fun r hr hf => ?_, fun r hr htype => ?_⟩
      · by_contra hzero
        have hnone : h.entryCount = 0 := by omega
        have hnil : rs = [] := by rw [hrs, diskRecords, hnone, recordsFrom]
        rcases hcases with hsame | ⟨r, hr, -, -⟩
        · rw [hfixed.1, hfixed.2.1] at hgt
          omega
        · rw [hnil] at hr
          cases hr
      · have hend := hfiles r hr hf
        rw [hfixed.1, hfixed.2.1] at hend
        rw [hfixed.2.1]
        omega
      · have hend := hends r hr htype
        rw [hfixed.1, hfixed.2.1]
        omega
  · rintro (⟨hheader, htable, hfiles⟩ | ⟨hpos, hsum, hround⟩)
    · have hle : h.dataOffset ≤ imageSize d startLba h := by
        rw [hsize]
        exact le_max_right _ _
      exact ⟨hheader.trans hle, htable.trans hle, fun r hr hf => (hfiles r hr hf).trans hle⟩
    · have hlt : last + 511 < 2 ^ 64 := by
        rcases hcases with hsame | ⟨r, hr, htype, hend⟩
        · omega
        · have hbound := hround r hr htype
          rw [hfixed.1, hfixed.2.1] at hbound
          omega
      have hle : last ≤ (last + sectorSize - 1) % addressSpace / sectorSize * sectorSize := by
        rw [hfixed.1, hfixed.2.1]
        omega
      have himage : last ≤ imageSize d startLba h := by
        rw [hsize]
        exact hle.trans (le_max_left _ _)
      refine ⟨?_, hstart.trans himage, fun r hr hf => ?_⟩
      · rw [hsize]
        refine le_trans ?_ (le_max_left _ _)
        rw [hfixed.1, hfixed.2.1, hfixed.2.2]
        omega
      · have hend := hends r hr hf.2
        rw [Record.lastByte, Nat.mod_eq_of_lt (hsum r hr hf)] at hend
        exact hend.trans himage

/-! ### The two mounts -/

def MountEnv.Placed (env : MountEnv) : Prop :=
  0 < env.image ∧ env.image + tfsSyncBufferMax ≤ addressSpace

/-- **The two readings of a disk agree**: the sizing pass reads the table that the parser goes through, the
image has the header, the table and every file, and the disk mounts to the tree its bytes mount to, whenever
these do and fit the limit. -/
structure ReadingsAgree (env : MountEnv) (devices : Devices) (device : List Byte) (d : Disk)
    (startLba : UInt64) (h : RawHeader) : Prop where
  table : ∀ entries bytes, diskEntries d startLba h = some entries →
    diskImage env.kmalloc d startLba = some bytes →
      entries = Bytes.window (bufStore bytes) h.entriesOffset h.entriesBytes
  encloses : ∀ bytes, diskImage env.kmalloc d startLba = some bytes →
    Enclosed h (recordsFrom (bufStore bytes) h.entryCount h.entriesOffset) bytes.length
  mounts : ∀ (s : Pool) (T : TfsState) (mem : ℕ → Byte) (b : Block) (bytes : List Byte), Reachable s →
    d.read startLba.toNat b.len = some bytes → b.len ≤ tfsSyncBufferMax →
    (tfsMountImage (Bytes.overlay mem b.addr bytes) b.addr b.len s T).2.ok = true →
      (mountDiskIn env devices s T device startLba).rc = 0 ∧
        SameTree (tfsMountImage (Bytes.overlay mem b.addr bytes) b.addr b.len s T).2.pool
          (mountDiskIn env devices s T device startLba).pool

/-- The first bytes of a disk, within the limit, are an image that mounts. -/
structure Mountable (d : Disk) (startLba : UInt64) (h : RawHeader) (size : ℕ) : Prop where
  small : size ≤ tfsSyncBufferMax
  readable : Readable d startLba.toNat size
  header : headerSize ≤ size
  table : h.entriesOffset + h.entriesBytes ≤ size
  files : ∀ r ∈ diskRecords d startLba h, r.IsFile → ¬exceedsImage size r.entry

def CopiesGranted (kmalloc : ℕ → Bool) (rs : List Record) : Prop :=
  ∀ r ∈ rs, r.IsFile → r.entry.size ≠ 0 → (resolve r.path [slash]).isSome →
    kmalloc (r.entry.size + 1) = true

section

variable {mem : ℕ → Byte} {image size : ℕ} {borrowed : Bool} {s : Pool}

theorem fetch_stored (mem : ℕ → Byte) {i : ℕ} (hi : i < size) (himage : image + size ≤ addressSpace) :
    fetch (Bytes.overlay mem image (Bytes.window (stored d startLba) 0 size)) (image + i) =
      stored d startLba i := by
  rw [fetch_of_lt (by omega)]
  refine Option.some.inj ?_
  rw [Bytes.overlay_add (by rwa [Bytes.length_window]), Bytes.getElem?_window _ hi, Nat.zero_add]

/-- **What the parser finds** in memory is what the disk has. -/
theorem refused_stored_iff (hh : diskHeader d startLba = some h) (mem : ℕ → Byte) (h0 : 0 < image)
    (himage : image + size ≤ addressSpace) :
    Refused (Bytes.overlay mem image (Bytes.window (stored d startLba) 0 size)) image size ↔
      ¬(headerSize ≤ size ∧ h.entriesOffset + h.entriesBytes ≤ size) := by
  obtain ⟨hread, hmagic, hversion, hcount, hoffset, -⟩ := of_diskHeader hh
  have hbytes : h.entriesBytes = h.entryCount * 296 := rfl
  have hmax : tfsMaxEntries = 1024 ∧ tfsSyncBufferMax = 536870912 := ⟨rfl, rfl⟩
  rw [Refused, not_and_or, not_le]
  rcases lt_or_ge size headerSize with hsmall | hlarge
  · simp only [hsmall, true_or, or_true]
  · have hheader : readHeader (fetch (Bytes.overlay mem image
        (Bytes.window (stored d startLba) 0 size))) image = h := by
      rw [← hread]
      refine readHeader_congr fun i hi => ?_
      rw [fetch_stored mem (hi.trans_le hlarge) himage, Nat.zero_add]
    have hend : (h.entriesOffset + h.entryCount * entrySize) % addressSpace =
        h.entriesOffset + h.entriesBytes := by
      refine Nat.mod_eq_of_lt ?_
      have hfixed : entrySize = 296 ∧ addressSpace = 2 ^ 64 := ⟨rfl, rfl⟩
      rw [hfixed.1, hfixed.2]
      omega
    rw [hheader, headerAccepted, hend]
    simp only [h0.ne', not_lt.2 hlarge, false_or, hmagic, hversion, true_and]

theorem imageRecords_stored (hh : diskHeader d startLba = some h) (mem : ℕ → Byte)
    (himage : image + size ≤ addressSpace) (hheader : headerSize ≤ size)
    (htable : h.entriesOffset + h.entriesBytes ≤ size) :
    imageRecords (Bytes.overlay mem image (Bytes.window (stored d startLba) 0 size)) image =
      diskRecords d startLba h := by
  obtain ⟨hread, -⟩ := of_diskHeader hh
  have hheader' : readHeader (fetch (Bytes.overlay mem image
      (Bytes.window (stored d startLba) 0 size))) image = h := by
    rw [← hread]
    refine readHeader_congr fun i hi => ?_
    rw [fetch_stored mem (hi.trans_le hheader) himage, Nat.zero_add]
  rw [imageRecords, hheader', diskRecords]
  refine recordsFrom_congr fun i hi => ?_
  have hbytes : h.entriesBytes = h.entryCount * entrySize := rfl
  rw [Nat.add_assoc, fetch_stored mem (by omega) himage]

theorem contents_stored (mem : ℕ → Byte) (kmalloc : ℕ → Bool) (borrowed : Bool)
    (himage : image + size ≤ addressSpace) {e : RawEntry} (he : e.offset + e.size ≤ size) :
    (memorySource (Bytes.overlay mem image (Bytes.window (stored d startLba) 0 size)) kmalloc image size
      borrowed).contents e = Bytes.window (stored d startLba) e.offset e.size := by
  refine Bytes.window_congr_at fun i hi => ?_
  rw [Nat.add_assoc, fetch_stored mem (by omega) himage]

def imageSource (d : Disk) (startLba : UInt64) (mem : ℕ → Byte) (b : Block) : Source :=
  memorySource (Bytes.overlay mem b.addr (Bytes.window (stored d startLba) 0 b.len)) (fun _ => true) b.addr
    b.len true

def loadedSource (env : MountEnv) (d : Disk) (startLba : UInt64) (h : RawHeader) : Source :=
  memorySource (Bytes.overlay env.mem env.image (Bytes.window (stored d startLba) 0 (imageSize d startLba h)))
    env.kmalloc env.image (imageSize d startLba h) false

theorem not_starves_imageSource (e : RawEntry) {b : Block} :
    ¬(imageSource d startLba mem b).Starves e := fun hs => by cases hs.2.1

/-- **A mount of bytes of the disk succeeds** exactly when these have the table, and no file exceeds
them. -/
theorem ok_tfsMountImage_iff (hh : diskHeader d startLba = some h) (mem : ℕ → Byte) (b : Block) (s : Pool)
    (T : TfsState) :
    (tfsMountImage (Bytes.overlay mem b.addr (Bytes.window (stored d startLba) 0 b.len)) b.addr b.len s
      T).2.ok = true ↔
        (headerSize ≤ b.len ∧ h.entriesOffset + h.entriesBytes ≤ b.len) ∧
          ∀ r ∈ diskRecords d startLba h, r.IsFile → ¬exceedsImage b.len r.entry := by
  rw [tfsMountImage]
  simp only
  have href := refused_stored_iff hh mem b.pos b.fits
  by_cases hin : headerSize ≤ b.len ∧ h.entriesOffset + h.entriesBytes ≤ b.len
  · have hnot := fun hr => (href.1 hr) hin
    have hrun := congrArg Prod.snd (mountEntries_of_accepted (fun _ => true) true s hnot)
    rw [imageRecords_stored hh mem b.fits hin.1 hin.2] at hrun
    simp only at hrun
    rw [hrun]
    refine ⟨fun hok => ⟨hin, fun r hr hf hex => ?_⟩, fun hall => ?_⟩
    · rw [runRecords_of_exceeds s ⟨r, hr, hf, hex⟩] at hok
      cases hok
    · refine (alike_runRecords_of_share (.refl s) (imageSource d startLba mem b)
        (nul_free_recordsFrom _ _ _) fun r hr hf => ?_).1
      exact ⟨hall.2 r hr hf, hall.2 r hr hf, fun _ => not_starves_imageSource r.entry,
        fun _ => not_starves_imageSource r.entry, fun _ => rfl⟩
  · rw [(mountEntries_of_refused (href.2 hin)).2]
    exact ⟨fun hok => absurd hok (by simp), fun hall => absurd hall.1 hin⟩

end

variable {env : MountEnv} {devices : Devices} {device : List Byte}

theorem imageRead_eq (env : MountEnv) (hname : device ≠ []) (hd : blockDeviceFind devices device = some d) :
    imageRead env devices device startLba = diskImage env.kmalloc d startLba := by
  rw [imageRead, if_neg hname, hd, Option.bind_some]

theorem loads_of_mounts (hname : device ≠ []) (hd : blockDeviceFind devices device = some d)
    (hh : diskHeader d startLba = some h) {s : Pool} {T : TfsState}
    (hok : (mountDiskIn env devices s T device startLba).rc = 0) : Loads env.kmalloc d startLba h := by
  cases hread : diskImage env.kmalloc d startLba with
  | none =>
    rw [mountDiskIn_of_unread ((imageRead_eq env hname hd).trans hread)] at hok
    cases hok
  | some bytes => exact ((diskImage_eq_some_iff hh).1 hread).1

theorem mountDiskIn_of_loads (hname : device ≠ []) (hd : blockDeviceFind devices device = some d)
    (hh : diskHeader d startLba = some h) (hplaced : env.Placed) (hl : Loads env.kmalloc d startLba h)
    (henclosed : Enclosed h (diskRecords d startLba h) (imageSize d startLba h)) (s : Pool) (T : TfsState) :
    ((mountDiskIn env devices s T device startLba).rc = 0 ↔
      (runRecords (loadedSource env d startLba h) (diskRecords d startLba h) s).2 = true) ∧
    (mountDiskIn env devices s T device startLba).pool =
      (runRecords (loadedSource env d startLba h) (diskRecords d startLba h) s).1 := by
  have hread := (imageRead_eq env hname hd).trans ((diskImage_eq_some_iff hh).2 ⟨hl, rfl⟩)
  have hfits : env.image + imageSize d startLba h ≤ addressSpace :=
    (Nat.add_le_add_left hl.small _).trans hplaced.2
  have hnot : ¬Refused (Bytes.overlay env.mem env.image
      (Bytes.window (stored d startLba) 0 (imageSize d startLba h))) env.image (imageSize d startLba h) :=
    fun hr => (refused_stored_iff hh env.mem hplaced.1 hfits).1 hr ⟨henclosed.header, henclosed.table⟩
  have hrun := mountEntries_of_accepted env.kmalloc false s hnot
  rw [imageRecords_stored hh env.mem hfits henclosed.header henclosed.table] at hrun
  obtain ⟨hpool, hok⟩ := Prod.mk.inj hrun
  rw [mountDiskIn_of_read hread]
  simp only [Bytes.length_window]
  rw [loadedSource, ← hok, ← hpool]
  by_cases hfine : (mountEntriesFromMemory (Bytes.overlay env.mem env.image
      (Bytes.window (stored d startLba) 0 (imageSize d startLba h))) env.kmalloc env.image
      (imageSize d startLba h) false s).ok = true
  · rw [if_pos hfine]
    exact ⟨⟨fun _ => hfine, fun _ => rfl⟩, rfl⟩
  · rw [if_neg hfine]
    exact ⟨⟨fun h0 => absurd h0 (by norm_num), fun hgo => absurd hgo hfine⟩, rfl⟩

theorem runRecords_of_starves {src : Source} {s : Pool} (hs : Wf s)
    (hrs : ∀ r ∈ rs, 0 ∉ r.path)
    (h : ∃ r ∈ rs, r.IsFile ∧ src.Starves r.entry ∧
      ∃ cs n, resolve r.path [slash] = some cs ∧ walk s rootNode cs = some n) :
    (runRecords src rs s).2 = false := by
  induction rs generalizing s with
  | nil =>
    obtain ⟨r, hr, -⟩ := h
    cases hr
  | cons r rs ih =>
    obtain ⟨hr, hrest⟩ := List.forall_mem_cons.1 hrs
    rw [runRecords]
    split_ifs with hok
    · refine ih (wf_mountRecord hs src hr) hrest ?_
      obtain ⟨r', hr', hf, hstarve, cs, n, hres, hw⟩ := h
      rcases List.mem_cons.1 hr' with rfl | hr'
      · exfalso
        have hnd : ¬r'.IsDir := fun hd => by
          have := hd.2.symm.trans hf.2
          exact absurd this (by norm_num)
        rw [mountRecord, if_neg hnd, if_pos hf] at hok
        split_ifs at hok
        have hmade : walk (makeFile s r').1 rootNode cs = some n :=
          walk_vfsMake hs .file _ _ _ hr (by decide) hw
        rw [fillFile_eq, vfsLookup_eq _ hr (by decide), hres, Option.bind_some, hmade] at hok
        simp only [decide_eq_true hstarve] at hok
        cases hok
      · exact ⟨r', hr', hf, hstarve, cs, n, hres, walk_mountRecord hs src hr hw⟩
    · simpa using hok

/-- **The disk mounts like its bytes**, when it is loaded, and the image has everything. -/
theorem mounts_of_loads (hname : device ≠ []) (hd : blockDeviceFind devices device = some d)
    (hh : diskHeader d startLba = some h) (hplaced : env.Placed) (hl : Loads env.kmalloc d startLba h)
    (henclosed : Enclosed h (diskRecords d startLba h) (imageSize d startLba h))
    (hcopies : CopiesGranted env.kmalloc (diskRecords d startLba h)) (s : Pool) (T : TfsState)
    (mem : ℕ → Byte) (b : Block)
    (hok : (tfsMountImage (Bytes.overlay mem b.addr (Bytes.window (stored d startLba) 0 b.len)) b.addr b.len
      s T).2.ok = true) :
    (mountDiskIn env devices s T device startLba).rc = 0 ∧
      SameTree (tfsMountImage (Bytes.overlay mem b.addr (Bytes.window (stored d startLba) 0 b.len)) b.addr
        b.len s T).2.pool (mountDiskIn env devices s T device startLba).pool := by
  obtain ⟨hrc, hpool⟩ := mountDiskIn_of_loads hname hd hh hplaced hl henclosed s T
  obtain ⟨⟨hheader, htable⟩, hfiles⟩ := (ok_tfsMountImage_iff hh mem b s T).1 hok
  have hfits : env.image + imageSize d startLba h ≤ addressSpace :=
    (Nat.add_le_add_left hl.small _).trans hplaced.2
  have hnot := fun hr => (refused_stored_iff hh mem b.pos b.fits).1 hr ⟨hheader, htable⟩
  have hrun := congrArg Prod.fst (mountEntries_of_accepted (fun _ => true) true s hnot)
  rw [imageRecords_stored hh mem b.fits hheader htable] at hrun
  simp only at hrun
  have hshare : ∀ r ∈ diskRecords d startLba h, r.IsFile →
      (imageSource d startLba mem b).Share (loadedSource env d startLba h) r := by
    intro r hr hf
    -- the file does not wrap, so both images have it
    have hend := henclosed.files r hr hf
    have hspace := hl.small
    have hmax : tfsSyncBufferMax = 536870912 ∧ addressSpace = 2 ^ 64 := ⟨rfl, rfl⟩
    have hsum : (r.entry.offset + r.entry.size) % addressSpace = r.entry.offset + r.entry.size :=
      Nat.mod_eq_of_lt (by omega)
    have hin : r.entry.offset + r.entry.size ≤ b.len := by
      have := hfiles r hr hf
      rwa [exceedsImage, hsum, not_lt] at this
    refine ⟨hfiles r hr hf, ?_, fun _ => not_starves_imageSource r.entry, fun hres hs => ?_, fun _ => ?_⟩
    · rw [exceedsImage, hsum, not_lt]
      exact hend
    · exact absurd (hcopies r hr hf hs.1 hres) (by rw [show env.kmalloc _ = false from hs.2.2]; simp)
    · rw [loadedSource, imageSource, contents_stored env.mem env.kmalloc false hfits hend,
        contents_stored mem (fun _ => true) true b.fits hin]
  obtain ⟨-, hgo, halike⟩ := alike_runRecords_of_share (.refl s) (loadedSource env d startLba h)
    (nul_free_recordsFrom (stored d startLba) h.entryCount h.entriesOffset) hshare
  refine ⟨hrc.2 hgo, ?_⟩
  rw [tfsMountImage, hrun, hpool]
  exact halike.sameTree

theorem copiesGranted_of_mounts (hname : device ≠ []) (hd : blockDeviceFind devices device = some d)
    (hh : diskHeader d startLba = some h) (hplaced : env.Placed) (hl : Loads env.kmalloc d startLba h)
    (henclosed : Enclosed h (diskRecords d startLba h) (imageSize d startLba h)) (T : TfsState)
    (hall : ∀ s, Reachable s → (mountDiskIn env devices s T device startLba).rc = 0) :
    CopiesGranted env.kmalloc (diskRecords d startLba h) := by
  intro r hr hf hsize hres
  by_contra hk
  have hnul := nul_free_recordsFrom (stored d startLba) h.entryCount h.entriesOffset
  obtain ⟨cs, hcs⟩ := Option.isSome_iff_exists.1 hres
  obtain ⟨s, hs, -, -, n, hn⟩ := exists_reachable_walk (proper_of_resolve (hnul r hr) (by decide) hcs)
  have hgo := ((mountDiskIn_of_loads hname hd hh hplaced hl henclosed s T).1).1 (hall s hs)
  have hno : env.kmalloc (r.entry.size + 1) = false := by simpa using hk
  have hstarves : (loadedSource env d startLba h).Starves r.entry := ⟨hsize, rfl, hno⟩
  have hstarve := runRecords_of_starves (wf_of_reachable hs) hnul ⟨r, hr, hf, hstarves, cs, n, hcs, hn⟩
  rw [diskRecords, hstarve] at hgo
  cases hgo

/-- **The two readings of a disk agree** exactly when, whenever the sizing pass gets through, the sectors it
reads have the table of the image and the size it finds is enough; and it gets through, with memory for the
files, whenever the first bytes of the disk within the limit mount. -/
theorem readingsAgree_iff (hplaced : env.Placed) (hname : device ≠ [])
    (hd : blockDeviceFind devices device = some d) (hh : diskHeader d startLba = some h) :
    ReadingsAgree env devices device d startLba h ↔
      (Loads env.kmalloc d startLba h →
        sizingTable d startLba h = imageTable d startLba h ∧
          (Enclosed h (diskRecords d startLba h) h.dataOffset ∨ Summable h (diskRecords d startLba h))) ∧
      ∀ size, Mountable d startLba h size →
        Loads env.kmalloc d startLba h ∧ CopiesGranted env.kmalloc (diskRecords d startLba h) := by
  constructor
  · intro hagree
    have hload : Loads env.kmalloc d startLba h →
        sizingTable d startLba h = imageTable d startLba h ∧
          Enclosed h (diskRecords d startLba h) (imageSize d startLba h) := fun hl => by
      have hread := (diskImage_eq_some_iff hh).2 ⟨hl, rfl⟩
      have hin := hagree.encloses _ hread
      have htable := hagree.table _ _ (diskEntries_eq_some.2 ⟨hl.table_readable, rfl⟩) hread
      rw [Bytes.length_window] at hin
      have hrecords := recordsFrom_bufStore (f := stored d startLba) hin.table
      rw [hrecords] at hin
      rw [window_bufStore hin.table, Nat.zero_add] at htable
      exact ⟨htable, hin⟩
    refine ⟨fun hl => ⟨(hload hl).1, (enclosed_imageSize_iff hh (hload hl).1).1 (hload hl).2⟩,
      fun size hm => ?_⟩
    have hfits : 1 + size ≤ addressSpace := by
      have hsmall := hm.small
      have hmax : tfsSyncBufferMax = 536870912 ∧ addressSpace = 2 ^ 64 := ⟨rfl, rfl⟩
      omega
    have hall : ∀ s, Reachable s →
        (mountDiskIn env devices s TfsState.boot device startLba).rc = 0 := fun s hs =>
      (hagree.mounts s TfsState.boot (fun _ => 0) ⟨1, size, Nat.one_pos, hfits⟩ _ hs
        (Disk.read_eq_some.2 ⟨hm.readable, by rw [window_stored, Nat.add_zero]⟩) hm.small
        ((ok_tfsMountImage_iff hh (fun _ => 0) ⟨1, size, Nat.one_pos, hfits⟩ s TfsState.boot).2
          ⟨⟨hm.header, hm.table⟩, hm.files⟩)).1
    have hl := loads_of_mounts hname hd hh (hall vfsInit .init)
    exact ⟨hl, copiesGranted_of_mounts hname hd hh hplaced hl (hload hl).2 TfsState.boot hall⟩
  · rintro ⟨hload, hmount⟩
    have hin : Loads env.kmalloc d startLba h →
        sizingTable d startLba h = imageTable d startLba h ∧
          Enclosed h (diskRecords d startLba h) (imageSize d startLba h) := fun hl =>
      ⟨(hload hl).1, (enclosed_imageSize_iff hh (hload hl).1).2 (hload hl).2⟩
    refine ⟨fun entries bytes he hb => ?_, fun bytes hb => ?_, fun s T mem b bytes hs hread hsmall hok => ?_⟩
    · obtain ⟨hl, rfl⟩ := (diskImage_eq_some_iff hh).1 hb
      obtain ⟨-, rfl⟩ := diskEntries_eq_some.1 he
      rw [window_bufStore (hin hl).2.table, Nat.zero_add]
      exact (hin hl).1
    · obtain ⟨hl, rfl⟩ := (diskImage_eq_some_iff hh).1 hb
      rw [Bytes.length_window, recordsFrom_bufStore (hin hl).2.table]
      exact (hin hl).2
    · obtain ⟨hreadable, rfl⟩ := Disk.read_eq_some.1 hread
      have hbytes : Bytes.window d.data (startLba.toNat * sectorSize) b.len =
          Bytes.window (stored d startLba) 0 b.len := by
        rw [window_stored, Nat.add_zero]
      rw [hbytes] at hok ⊢
      obtain ⟨⟨hheader, htable⟩, hfiles⟩ := (ok_tfsMountImage_iff hh mem b s T).1 hok
      obtain ⟨hl, hcopies⟩ := hmount b.len ⟨hsmall, hreadable, hheader, htable, hfiles⟩
      exact mounts_of_loads hname hd hh hplaced hl (hin hl).2 hcopies s T mem b hok

/-! ### Two disks -/

def headerBytes (count entries data : ℕ) : List Byte :=
  tfsMagic ++ Bytes.le 4 tfsVersion ++ Bytes.le 4 count ++ Bytes.le 8 entries ++ Bytes.le 8 data

/-- A disk of zeros with a header, and a directory record at an address. -/
def headedDisk (count entries : ℕ) : Disk where
  data := Bytes.overlay (Bytes.overlay (fun _ => 0) 520 (encodeEntry dirRecord)) 0
    (headerBytes count entries 0)
  readable _ := true

theorem diskHeader_headedDisk (count entries : ℕ) (hcount : count ≤ tfsMaxEntries)
    (hentries : entries ≤ tfsSyncBufferMax) :
    diskHeader (headedDisk count entries) 0 = some ⟨tfsMagic, tfsVersion, count, entries, 0⟩ := by
  have hmax : tfsMaxEntries = 1024 ∧ tfsSyncBufferMax = 536870912 := ⟨rfl, rfl⟩
  have hholds := Bytes.holds_overlay (Bytes.overlay (fun _ => 0) 520 (encodeEntry dirRecord)) 0
    (headerBytes count entries 0)
  have hread : readHeader (headedDisk count entries).data 0 =
      ⟨tfsMagic, tfsVersion, count, entries, 0⟩ := readHeader_of_holds hholds (by norm_num) (by omega) (by omega) (by norm_num)
  have hsector : readHeader (bufStore (Bytes.window (headedDisk count entries).data 0 sectorSize)) 0 =
      ⟨tfsMagic, tfsVersion, count, entries, 0⟩ := by
    rw [← hread]
    refine readHeader_congr fun i hi => ?_
    rw [Nat.zero_add, bufStore_window (hi.trans (by norm_num)), Nat.zero_add]
  have hdisk : (headedDisk count entries).read (0 : UInt64).toNat sectorSize =
      some (Bytes.window (headedDisk count entries).data 0 sectorSize) :=
    Disk.read_eq_some.2 ⟨fun _ _ => rfl, rfl⟩
  rw [diskHeader, hdisk, Option.bind_some]
  simp only [hsector]
  rw [if_neg (by simp), if_neg (by simp only [not_or, not_lt]; exact ⟨hcount, hentries, Nat.zero_le _⟩)]

/-- An empty table behind a sector: the readings agree. -/
theorem readingsAgree_empty :
    ReadingsAgree ⟨fun _ => true, fun _ => 0, 4096⟩ (fun _ => some (headedDisk 0 512)) (lit "sda")
      (headedDisk 0 512) 0 ⟨tfsMagic, tfsVersion, 0, 512, 0⟩ := by
  have hh := diskHeader_headedDisk 0 512 (by norm_num) (by norm_num)
  refine (readingsAgree_iff ⟨by norm_num, by norm_num⟩ (by decide) rfl hh).2 ⟨fun _ => ⟨rfl, .inr ?_⟩,
    fun size hm => ⟨⟨rfl, fun hne => absurd rfl hne, ?_, rfl, fun _ _ => rfl⟩, fun r hr => by cases hr⟩⟩
  · have hnone : ∀ r, r ∉ diskRecords (headedDisk 0 512) 0 ⟨tfsMagic, tfsVersion, 0, 512, 0⟩ := fun r hr =>
      List.not_mem_nil hr
    exact ⟨by norm_num, fun r hr => absurd hr (hnone r), fun r hr => absurd hr (hnone r)⟩
  · decide

/-- A table that does not start at a sector: the sizing pass reads other bytes. -/
theorem not_readingsAgree :
    diskHeader (headedDisk 1 520) 0 = some ⟨tfsMagic, tfsVersion, 1, 520, 0⟩ ∧
      ¬ReadingsAgree ⟨fun _ => true, fun _ => 0, 4096⟩ (fun _ => some (headedDisk 1 520)) (lit "sda")
        (headedDisk 1 520) 0 ⟨tfsMagic, tfsVersion, 1, 520, 0⟩ := by
  have hh := diskHeader_headedDisk 1 520 (by norm_num) (by norm_num)
  refine ⟨hh, fun hagree => ?_⟩
  have hsize : imageSize (headedDisk 1 520) 0 ⟨tfsMagic, tfsVersion, 1, 520, 0⟩ = 1024 := by decide +kernel
  have hl : Loads (fun _ => true) (headedDisk 1 520) 0 ⟨tfsMagic, tfsVersion, 1, 520, 0⟩ :=
    ⟨rfl, fun _ _ _ => rfl, by rw [hsize]; norm_num, rfl, fun _ _ => rfl⟩
  have htable := hagree.table _ _ (diskEntries_eq_some.2 ⟨hl.table_readable, rfl⟩)
    ((diskImage_eq_some_iff hh).2 ⟨hl, rfl⟩)
  rw [hsize, window_bufStore (by norm_num [RawHeader.entriesBytes])] at htable
  -- the first byte is a zero in front of the table, and not the type of the record
  have hfirst := congrArg List.head? htable
  exact absurd hfirst (by decide +kernel)

end Tnu.Tfs
