/-
**Mounting a table, whole or torn.**

`tfs_sync` overwrites header and table in place, one sector after the other.  When that write
breaks off, a device holds the first sectors of the new table over whatever was there before.  A
table some of whose bytes are lowered — a new table torn off over a blank device is one — still
mounts: its files are empty, and no field of it can point further than it should.

Main results:

* `Machine.mount_of_torn` — **a torn table mounts**;
* `Machine.mount_of_holds` — **a whole one mounts to its entries**.
-/

import Tnu.Tfs.Remount

set_option autoImplicit false

namespace Tnu.Tfs

open Vfs

variable {f : ℕ → Byte}

/-! ### Small entries -/

/-- The entries `tfs_sync` stores fit their fields, and carry no data. -/
structure Small (e : TfsEntry) : Prop where
  type_lt : e.type < 2 ^ 32
  type_mem : e.type = tfsEntryDir ∨ e.type = tfsEntryFile
  size : e.size = 0
  offset_le : e.offset ≤ dataOffset
  mtime_lt : e.mtime < 2 ^ 64

variable (kmalloc : ℕ → Bool) {e : TfsEntry} {a : ℕ} {mem : ℕ → Byte}

theorem readEntry_of_below (he : Small e)
    (h : Bytes.Below f a (encodeEntry e)) :
    (readEntry f a).size = 0 ∧ (readEntry f a).offset ≤ dataOffset := by
  rw [encodeEntry, encodeFields] at h
  simp only [Bytes.below_append, List.length_append, Bytes.length_le] at h
  obtain ⟨⟨⟨⟨-, h16⟩, h24⟩, -⟩, -⟩ := h
  have hsize := Bytes.field_le_of_below h16
  have hoffset := Bytes.field_le_of_below h24
  rw [he.size, Nat.zero_mod] at hsize
  exact ⟨Nat.le_zero.1 hsize, (hoffset.trans (Nat.mod_le _ _)).trans he.offset_le⟩

theorem not_exceedsImage {e : RawEntry} (hsize : e.size = 0) (hoffset : e.offset ≤ dataOffset) :
    ¬ exceedsImage dataOffset e := by
  have hdata := dataOffset_eq
  have hspace : addressSpace = 2 ^ 64 := rfl
  rw [exceedsImage, hsize, Nat.add_zero, Nat.mod_eq_of_lt (by omega)]
  omega

theorem ok_mountEntry (image : ℕ) (s : Pool)
    (he : Small e) (h : Bytes.Below (fetch mem) a (encodeEntry e)) :
    (mountEntry mem kmalloc image dataOffset false s a).ok = true := by
  obtain ⟨hsize, hoffset⟩ := readEntry_of_below he h
  have hfits := not_exceedsImage hsize hoffset
  unfold mountEntry
  simp only
  split_ifs
  · rfl
  · rfl
  · rw [mountFile]
    cases vfsLookup _ _ _ with
    | none => rfl
    | some n =>
      simp only [hsize]
      rfl
  · rfl

theorem pool_mountEntry (image : ℕ) (s : Pool)
    (he : Small e) (h : Bytes.Holds (fetch mem) a (encodeEntry e)) :
    (mountEntry mem kmalloc image dataOffset false s a).pool = mountStored s e := by
  have hdata := dataOffset_eq
  have hraw : readEntry (fetch mem) a = e.raw :=
    readEntry_of_holds h he.type_lt (by rw [he.size]; decide)
      (he.offset_le.trans_lt (by rw [hdata]; decide)) he.mtime_lt
  have hfits : ¬ exceedsImage dataOffset e.raw := not_exceedsImage he.size he.offset_le
  have htype : e.raw.type = e.type := rfl
  have hmode : e.raw.mode = e.mode := rfl
  have huid : e.raw.uid = e.uid := rfl
  have hgid : e.raw.gid = e.gid := rfl
  unfold mountEntry mountStored
  simp only [hraw, readPath_of_holds h, htype]
  split_ifs with hpath hdir hfile
  · rfl
  · rfl
  · unfold mountFile
    simp only [show e.raw.size = 0 from he.size, hmode, huid, hgid]
    cases vfsLookup (vfsCreateFile s e.path.chars [slash]
        (vfsSIfreg ||| (e.mode &&& permMask)) e.uid e.gid).1 e.path.chars [slash] with
    | none => rfl
    | some n => rfl
  · exact absurd (he.type_mem.resolve_left hdir) hfile

/-! ### Tables -/

theorem ok_mountLoop (image : ℕ) :
    ∀ (entries : List TfsEntry) (a : ℕ) (s : Pool), (∀ e ∈ entries, Small e) →
      Bytes.Below (fetch mem) a (entries.flatMap encodeEntry) →
      (mountLoop mem kmalloc image dataOffset false entries.length a s).ok = true := by
  intro entries
  induction entries with
  | nil => intro a s _ _; rfl
  | cons e entries ih =>
    intro a s hsmall h
    rw [List.flatMap_cons, Bytes.below_append, length_encodeEntry] at h
    rw [List.length_cons, mountLoop]
    simp only
    rw [if_pos (ok_mountEntry kmalloc image s (hsmall e (by simp)) h.1)]
    exact ih _ _ (fun d hd => hsmall d (by simp [hd])) h.2

theorem pool_mountLoop (image : ℕ) :
    ∀ (entries : List TfsEntry) (a : ℕ) (s : Pool), (∀ e ∈ entries, Small e) →
      Bytes.Holds (fetch mem) a (entries.flatMap encodeEntry) →
      (mountLoop mem kmalloc image dataOffset false entries.length a s).pool =
        entries.foldl mountStored s := by
  intro entries
  induction entries with
  | nil => intro a s _ _; rfl
  | cons e entries ih =>
    intro a s hsmall h
    rw [List.flatMap_cons, Bytes.holds_append, length_encodeEntry] at h
    have he := hsmall e (by simp)
    rw [List.length_cons, mountLoop, List.foldl_cons]
    simp only
    rw [if_pos (ok_mountEntry kmalloc image s he h.1.below), pool_mountEntry kmalloc image s he h.1]
    exact ih _ _ (fun d hd => hsmall d (by simp [hd])) h.2

theorem scanEnd_le : ∀ (entries : List TfsEntry) (a maxEnd : ℕ), (∀ e ∈ entries, Small e) →
    Bytes.Below f a (entries.flatMap encodeEntry) → maxEnd ≤ dataOffset →
    scanEnd f entries.length a maxEnd ≤ dataOffset := by
  intro entries
  induction entries with
  | nil => intro a maxEnd _ _ h; exact h
  | cons e entries ih =>
    intro a maxEnd hsmall h hmax
    rw [List.flatMap_cons, Bytes.below_append, length_encodeEntry] at h
    obtain ⟨hsize, hoffset⟩ := readEntry_of_below (hsmall e (by simp)) h.1
    rw [List.length_cons, scanEnd]
    refine ih _ _ (fun d hd => hsmall d (by simp [hd])) h.2 ?_
    split_ifs
    · rw [hsize, Nat.add_zero]
      exact (Nat.mod_le _ _).trans hoffset
    · exact hmax

/-! ### A table on a device -/

abbrev tableSectors : ℕ := 600

theorem dataOffset_eq_mul : dataOffset = tableSectors * sectorSize :=
  dataOffset_eq.trans (by decide)

theorem table_le {entries : List TfsEntry} (h : entries.length ≤ tfsMaxEntries) :
    tfsTableAlign + entries.length * entrySize ≤ dataOffset := by
  have hfixed : tfsTableAlign = 4096 ∧ entrySize = 296 ∧ tfsMaxEntries = 1024 := ⟨rfl, rfl, rfl⟩
  rw [dataOffset_eq, hfixed.1, hfixed.2.1]
  omega

/-- The device holds a header, and behind it a table some bytes of which are lowered. -/
structure Torn (d : Disk) (start : ℕ) (entries : List TfsEntry) : Prop where
  readable : ∀ i < tableSectors, d.readable (start + i) = true
  header : Bytes.Holds d.data (start * sectorSize) (encodeHeader entries.length)
  table : Bytes.Below d.data (start * sectorSize + tfsTableAlign) (entries.flatMap encodeEntry)
  small : ∀ e ∈ entries, Small e
  length_le : entries.length ≤ tfsMaxEntries

theorem window_fetch_overlay (mem : ℕ → Byte) {image b k n : ℕ} (h : b + k ≤ n)
    (himage : image + n ≤ addressSpace) :
    Bytes.window (fetch (Bytes.overlay mem image (Bytes.window f a n))) (image + b) k =
      Bytes.window f (a + b) k := by
  rw [← Bytes.window_shift f a b k, ← Bytes.window_shift _ image b k]
  refine Bytes.window_congr fun i _ hi => ?_
  rw [fetch_of_lt (by omega)]
  exact Option.some.inj ((Bytes.overlay_add (by simpa using by omega)).trans
    (Bytes.getElem?_window f (by omega)))

def headerOf (entries : List TfsEntry) : RawHeader :=
  ⟨tfsMagic, tfsVersion, entries.length, tfsTableAlign, dataOffset⟩

theorem readHeader_encodeHeader {entries : List TfsEntry}
    (hlen : entries.length ≤ tfsMaxEntries) (h : Bytes.Holds f a (encodeHeader entries.length)) :
    readHeader f a = headerOf entries :=
  readHeader_of_holds h (by decide) (hlen.trans_lt (by decide)) (by decide)
    (by rw [dataOffset_eq]; decide)

namespace Torn

variable {d : Disk} {start : UInt64} {entries : List TfsEntry}

theorem diskHeader_eq (h : Torn d start.toNat entries) :
    diskHeader d start = some (headerOf entries) := by
  have hread : d.read start.toNat sectorSize =
      some (Bytes.window d.data (start.toNat * sectorSize) sectorSize) := by
    refine Disk.read_eq_some.2 ⟨fun i hi => h.readable i (hi.trans_le ?_), rfl⟩
    exact Disk.sectorsFor_le (Nat.le_mul_of_pos_left sectorSize (by decide))
  have hholds : Bytes.Holds (bufStore (Bytes.window d.data (start.toNat * sectorSize) sectorSize)) 0
      (encodeHeader entries.length) := by
    have hwindow := window_bufStore (f := d.data) (a := start.toNat * sectorSize) (b := 0)
      (by decide : 0 + headerSize ≤ sectorSize)
    rw [Bytes.Holds, length_encodeHeader, hwindow, Nat.add_zero]
    exact h.header.window_eq (length_encodeHeader _)
  rw [diskHeader, hread, Option.bind_some]
  simp only [readHeader_encodeHeader h.length_le hholds, headerOf]
  have hfields : ¬ (tfsMaxEntries < entries.length ∨ tfsSyncBufferMax < tfsTableAlign ∨
      tfsSyncBufferMax < dataOffset) := by
    rw [dataOffset_eq, not_or, not_or]
    exact ⟨not_lt.2 h.length_le, by decide, by decide⟩
  rw [if_neg (by simp), if_neg hfields]

theorem diskEntries_eq (h : Torn d start.toNat entries) (hstart : start.toNat < 2 ^ 32) :
    diskEntries d start (headerOf entries) =
      some (Bytes.window d.data (start.toNat * sectorSize + tfsTableAlign)
        (entries.length * entrySize)) := by
  have hlen : entries.length ≤ 1024 := h.length_le
  unfold diskEntries
  split_ifs with h0
  · rw [show entries.length * entrySize = 0 from h0]
    rfl
  · have hskip : (headerOf entries).entriesOffset / sectorSize = 8 := by
      change tfsTableAlign / sectorSize = 8
      decide
    have hscale : 8 * sectorSize = tfsTableAlign := by decide
    have hlba : (start.toNat + 8) % addressSpace = start.toNat + 8 := by
      have hspace : addressSpace = 2 ^ 64 := rfl
      exact Nat.mod_eq_of_lt (by omega)
    have hbytes : entries.length * entrySize ≤ 592 * sectorSize := by
      change entries.length * 296 ≤ 592 * 512
      omega
    rw [hskip, hlba]
    refine Disk.read_eq_some.2 ⟨fun i hi => ?_, ?_⟩
    · have hlt : i < 592 := hi.trans_le (Disk.sectorsFor_le hbytes)
      rw [Nat.add_assoc]
      exact h.readable _ (by change 8 + i < 600; omega)
    · change _ = Bytes.window d.data ((start.toNat + 8) * sectorSize) (entries.length * entrySize)
      rw [Nat.add_mul, hscale]

theorem diskImageSize_eq (h : Torn d start.toNat entries) :
    diskImageSize (headerOf entries) (Bytes.window d.data (start.toNat * sectorSize + tfsTableAlign)
      (entries.length * entrySize)) = dataOffset := by
  have hlen : entries.length ≤ 1024 := h.length_le
  have hdata := dataOffset_eq
  have hbelow : Bytes.Below (bufStore (Bytes.window d.data
      (start.toNat * sectorSize + tfsTableAlign) (entries.length * entrySize))) 0
      (entries.flatMap encodeEntry) := by
    have htable := h.table
    have hwindow := window_bufStore (f := d.data) (a := start.toNat * sectorSize + tfsTableAlign)
      (b := 0) (Nat.zero_add (entries.length * entrySize)).le
    rw [Bytes.Below, length_flatMap_encodeEntry] at htable ⊢
    rwa [hwindow, Nat.add_zero]
  have hend := scanEnd_le entries 0 (tfsTableAlign + entries.length * entrySize) h.small hbelow
    (table_le h.length_le)
  have hround : ∀ m ≤ dataOffset,
      (m + sectorSize - 1) % addressSpace / sectorSize * sectorSize ≤ dataOffset := fun m hm => by
    have hfixed : sectorSize = 512 ∧ addressSpace = 2 ^ 64 := ⟨rfl, rfl⟩
    rw [hfixed.1, hfixed.2]
    omega
  unfold diskImageSize
  simp only [headerOf, RawHeader.entriesBytes]
  exact Nat.max_eq_right (hround _ hend)

/-- **The image a torn table is read into.** -/
theorem diskImage_eq (h : Torn d start.toNat entries) (hstart : start.toNat < 2 ^ 32)
    {kmalloc : ℕ → Bool} (hk : ∀ n ≤ dataOffset, kmalloc n = true) :
    diskImage kmalloc d start =
      some (Bytes.window d.data (start.toNat * sectorSize) dataOffset) := by
  have hlen : entries.length ≤ 1024 := h.length_le
  have hdata := dataOffset_eq
  rw [diskImage_eq_some]
  refine ⟨_, _, h.diskHeader_eq, hk _ ?_, h.diskEntries_eq hstart, ?_, ?_, ?_⟩
  · have : (headerOf entries).entriesBytes = entries.length * 296 := rfl
    split_ifs
    · omega
    · omega
  · rw [h.diskImageSize_eq, hdata]
    decide
  · rw [h.diskImageSize_eq]
    exact hk _ le_rfl
  · rw [h.diskImageSize_eq]
    refine Disk.read_eq_some.2 ⟨fun i hi => h.readable i (hi.trans_le ?_), rfl⟩
    exact Disk.sectorsFor_le dataOffset_eq_mul.le

end Torn

/-! ### Machines -/

/-- What `tfs_sync` asks `kmalloc` for. -/
abbrev tableRequest : ℕ := tfsTableAlign + tfsMaxEntries * entrySize + sectorSize

/-- A machine a device is mounted on: `kmalloc` grants what a table needs, and places the image
buffer in the address space. -/
structure Machine where
  kmalloc : ℕ → Bool
  mem : ℕ → Byte
  image : ℕ
  image_pos : 0 < image
  image_le : image + tfsSyncBufferMax ≤ addressSpace
  grants : ∀ n ≤ tableRequest, kmalloc n = true

namespace Machine

/-- `tfs_mount_disk` after `vfs_init`. -/
def mount (M : Machine) (devices : Devices) (device : List Byte) (start : UInt64) : Mounted :=
  tfsMountDisk M.kmalloc M.mem M.image devices vfsInit TfsState.boot device start

def decode (M : Machine) (devices : Devices) (device : List Byte) (start : UInt64) :
    Option (NamePath → Option Shown) :=
  if (M.mount devices device start).rc = 0 then
    some (visible (M.mount devices device start).pool)
  else none

variable {devices : Devices} {device : List Byte} {d : Disk} {start : UInt64}
  {entries : List TfsEntry}

variable (M : Machine)

theorem mountEntriesFromMemory_of_torn (h : Torn d start.toNat entries) (s : Pool) :
    let mem := Bytes.overlay M.mem M.image
      (Bytes.window d.data (start.toNat * sectorSize) dataOffset)
    let r := mountEntriesFromMemory mem M.kmalloc M.image dataOffset false s
    r.ok = true ∧ (Bytes.Holds d.data (start.toNat * sectorSize + tfsTableAlign)
      (entries.flatMap encodeEntry) → r.pool = entries.foldl mountStored s) := by
  intro mem r
  have hlen : entries.length ≤ 1024 := h.length_le
  have hdata := dataOffset_eq
  have hfit : M.image + dataOffset ≤ addressSpace := by
    have : M.image + 536870912 ≤ addressSpace := M.image_le
    omega
  have hheader : Bytes.Holds (fetch mem) (M.image + 0) (encodeHeader entries.length) := by
    have hheaderSize : 0 + headerSize ≤ dataOffset := by
      rw [hdata]
      decide
    have hwindow := window_fetch_overlay (f := d.data) (a := start.toNat * sectorSize) M.mem
      hheaderSize hfit
    rw [Bytes.Holds, length_encodeHeader, hwindow, Nat.add_zero]
    exact h.header.window_eq (length_encodeHeader _)
  have hwindow : Bytes.window (fetch mem) (M.image + tfsTableAlign) (entries.length * entrySize) =
      Bytes.window d.data (start.toNat * sectorSize + tfsTableAlign)
        (entries.length * entrySize) :=
    window_fetch_overlay M.mem (table_le h.length_le) hfit
  have hbelow : Bytes.Below (fetch mem) (M.image + tfsTableAlign)
      (entries.flatMap encodeEntry) := by
    have := h.table
    rw [Bytes.Below, length_flatMap_encodeEntry] at this ⊢
    rwa [hwindow]
  have haccept : headerAccepted dataOffset (headerOf entries) := by
    refine ⟨rfl, rfl, ?_⟩
    exact (Nat.mod_le _ _).trans (table_le h.length_le)
  have hr : r = ⟨.bytes M.image headerSize :: (mountLoop mem M.kmalloc M.image dataOffset false
      entries.length (M.image + tfsTableAlign) s).reads,
      (mountLoop mem M.kmalloc M.image dataOffset false entries.length
        (M.image + tfsTableAlign) s).pool,
      (mountLoop mem M.kmalloc M.image dataOffset false entries.length
        (M.image + tfsTableAlign) s).ok⟩ := by
    have hpos := M.image_pos
    change mountEntriesFromMemory mem M.kmalloc M.image dataOffset false s = _
    have hlong : ¬ (M.image = 0 ∨ dataOffset < headerSize) := by
      have hfixed : headerSize = 32 := rfl
      omega
    rw [mountEntriesFromMemory, if_neg hlong]
    rw [Nat.add_zero] at hheader
    simp only [readHeader_encodeHeader h.length_le hheader]
    rw [if_pos haccept]
    rfl
  rw [hr]
  refine ⟨ok_mountLoop M.kmalloc M.image entries _ s h.small hbelow, fun hholds => ?_⟩
  refine pool_mountLoop M.kmalloc M.image entries _ s h.small ?_
  rw [Bytes.Holds, length_flatMap_encodeEntry] at hholds ⊢
  rwa [hwindow]

theorem mount_eq (hname : device ≠ []) (hd : blockDeviceFind devices device = some d)
    (h : Torn d start.toNat entries) (hstart : start.toNat < 2 ^ 32) :
    (M.mount devices device start).rc = 0 ∧ (M.mount devices device start).pool =
      (mountEntriesFromMemory (Bytes.overlay M.mem M.image
        (Bytes.window d.data (start.toNat * sectorSize) dataOffset)) M.kmalloc M.image dataOffset
        false vfsInit).pool := by
  have hk : ∀ n ≤ dataOffset, M.kmalloc n = true := fun n hn =>
    M.grants n (hn.trans (by rw [dataOffset_eq]; decide))
  have himage := h.diskImage_eq hstart hk
  have hok := (M.mountEntriesFromMemory_of_torn h vfsInit).1
  unfold mount tfsMountDisk
  rw [if_neg hname, hd, Option.bind_some, himage]
  simp only [Bytes.length_window]
  rw [if_pos hok]
  exact ⟨rfl, rfl⟩

/-- **A torn table mounts.** -/
theorem mount_of_torn (hname : device ≠ [])
    (hd : blockDeviceFind devices device = some d) (h : Torn d start.toNat entries)
    (hstart : start.toNat < 2 ^ 32) : (M.mount devices device start).rc = 0 :=
  (M.mount_eq hname hd h hstart).1

/-- **A whole one mounts to its entries.** -/
theorem mount_of_holds (hname : device ≠ [])
    (hd : blockDeviceFind devices device = some d) (h : Torn d start.toNat entries)
    (hstart : start.toNat < 2 ^ 32)
    (hholds : Bytes.Holds d.data (start.toNat * sectorSize + tfsTableAlign)
      (entries.flatMap encodeEntry)) :
    (M.mount devices device start).pool = entries.foldl mountStored vfsInit :=
  (M.mount_eq hname hd h hstart).2.trans
    ((M.mountEntriesFromMemory_of_torn h vfsInit).2 hholds)

theorem mount_of_no_header
    (h : (blockDeviceFind devices device).bind (fun d => diskHeader d start) = none) :
    (M.mount devices device start).rc ≠ 0 := by
  have himage : (blockDeviceFind devices device).bind
      (fun d => diskImage M.kmalloc d start) = none := by
    cases hd : blockDeviceFind devices device with
    | none => rfl
    | some d =>
      rw [hd, Option.bind_some] at h
      rw [Option.bind_some, diskImage, h, Option.bind_none]
  unfold mount tfsMountDisk
  rw [himage]
  split_ifs <;> simp

end Machine

end Tnu.Tfs
