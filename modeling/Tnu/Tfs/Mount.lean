/-
**Reading the tree back.**

`tfs_mount_image` and `tfs_mount_disk` of `kernel/fs/tfs.c` fill the VFS from an image in memory.
The parser `mount_entries_from_memory` takes offsets, counts and sizes from the image itself, so
the model keeps its addresses honest: memory is a byte at every 64-bit address, pointer arithmetic
wraps, and each read of the image is recorded with the place it happened at.

Main definitions:

* `mountEntry`, `mountLoop`, `mountEntriesFromMemory` — the parser;
* `tfsMountImage`, `tfsMountDisk` — the two ways into it.

Main result:

* `wf_mountEntry`, `walk_mountEntry` — an entry keeps the shape of the pool and
  the paths it has.
-/

import Tnu.Tfs.Sync

set_option autoImplicit false

namespace Tnu.Tfs

open Vfs

/-! ### Memory -/

abbrev addressSpace : ℕ := 2 ^ 64

def fetch (mem : ℕ → Byte) : ℕ → Byte := fun i => mem (i % addressSpace)

theorem fetch_of_lt {mem : ℕ → Byte} {i : ℕ} (h : i < addressSpace) : fetch mem i = mem i := by
  rw [fetch, Nat.mod_eq_of_lt h]

variable {a n : ℕ} {f : ℕ → Byte}

theorem holds_fetch {mem : ℕ → Byte} {l : List Byte} (h : Bytes.Holds mem a l)
    (ha : a + l.length ≤ addressSpace) : Bytes.Holds (fetch mem) a l :=
  Bytes.holds_congr (fun _ _ hi => fetch_of_lt (hi.trans_le ha)) h

/-- A read: so many bytes at an address, or a string up to its terminator. -/
inductive Read
  | bytes (addr len : ℕ)
  | cstring (addr : ℕ)
  deriving DecidableEq

def Read.Touches (mem : ℕ → Byte) : Read → ℕ → Prop
  | .bytes a n, x => ∃ i, i < n ∧ x = (a + i) % addressSpace
  | .cstring a, x => ∃ i, (∀ j, j < i → fetch mem (a + j) ≠ 0) ∧ x = (a + i) % addressSpace

/-- Every address touched lies in `[image, image + size)`. -/
def Read.Inside (mem : ℕ → Byte) (image size : ℕ) (r : Read) : Prop :=
  ∀ x, r.Touches mem x → image ≤ x ∧ x < image + size

/-! ### The parser -/

/-- What a turn of the loop, or the whole parser, does: the reads, the pool it leaves, and whether
it goes on or returns 0. -/
structure Parse where
  reads : List Read
  pool : Pool
  ok : Bool

/-- The reads of one of the path functions of the VFS: an absolute path is copied with `strncpy`,
any other with `"%s/%s"`, which runs to the terminator. -/
def pathReads (path : List Byte) (pathAddr : ℕ) : List Read :=
  if path.head? = some slash then [.bytes pathAddr (min (vfsPathMax - 1) (path.length + 1))]
  else [.cstring pathAddr]

def setFileNode (s : Pool) (n : ℕ) (e : RawEntry) : Pool :=
  s.modifyNode n fun node =>
    { node with uid := e.uid, gid := e.gid, mode := vfsSIfreg ||| (e.mode &&& permMask)
                size := e.size, modified := e.mtime }

def setFileData (s : Pool) (n : ℕ) (data : List Byte) (borrowed : Bool) : Pool :=
  s.modifyNode n fun node => { node with data := some data, dataBorrowed := borrowed }

/-- The test a file entry is rejected by; the sum is computed in 64 bits. -/
def exceedsImage (size : ℕ) (e : RawEntry) : Prop := size < (e.offset + e.size) % addressSpace

instance (size : ℕ) (e : RawEntry) : Decidable (exceedsImage size e) :=
  inferInstanceAs (Decidable (size < (e.offset + e.size) % addressSpace))

/-- What a file entry that passes the test does; `reads` are the reads of its record and path. -/
def mountFile (mem : ℕ → Byte) (kmalloc : ℕ → Bool) (image : ℕ) (borrowed : Bool) (s : Pool)
    (e : RawEntry) (path : List Byte) (reads : List Read) : Parse :=
  let s₁ := (vfsCreateFile s path [slash] (vfsSIfreg ||| (e.mode &&& permMask)) e.uid e.gid).1
  match vfsLookup s₁ path [slash] with
  | none => ⟨reads, s₁, true⟩
  | some n =>
    let s₂ := setFileNode s₁ n e
    if e.size = 0 then ⟨reads, s₂, true⟩
    else if borrowed = false ∧ kmalloc (e.size + 1) = false then ⟨reads, s₂, false⟩
    else
      ⟨reads ++ [.bytes (image + e.offset) e.size],
        setFileData s₂ n (Bytes.window (fetch mem) (image + e.offset) e.size) borrowed, true⟩

/-- One turn of the loop of `mount_entries_from_memory`, for the record at address `a`. -/
def mountEntry (mem : ℕ → Byte) (kmalloc : ℕ → Bool) (image size : ℕ) (borrowed : Bool)
    (s : Pool) (a : ℕ) : Parse :=
  let e := readEntry (fetch mem) a
  let path := readPath (fetch mem) a
  let record := Read.bytes a entrySize
  let paths := pathReads path (a + pathOffset)
  if path = [] ∨ path = [slash] then ⟨[record], s, true⟩
  else if e.type = tfsEntryDir then
    ⟨record :: paths,
      (vfsMkdir s path [slash] (vfsSIfdir ||| (e.mode &&& permMask)) e.uid e.gid).1, true⟩
  else if e.type = tfsEntryFile then
    if exceedsImage size e then ⟨[record, .cstring (a + pathOffset)], s, false⟩
    else mountFile mem kmalloc image borrowed s e path (record :: paths)
  else ⟨[record], s, true⟩

/-- The loop, over the next `n` records from address `a` on. -/
def mountLoop (mem : ℕ → Byte) (kmalloc : ℕ → Bool) (image size : ℕ) (borrowed : Bool) :
    ℕ → ℕ → Pool → Parse
  | 0, _, s => ⟨[], s, true⟩
  | n + 1, a, s =>
    let r := mountEntry mem kmalloc image size borrowed s a
    if r.ok = true then
      let t := mountLoop mem kmalloc image size borrowed n (a + entrySize) r.pool
      ⟨r.reads ++ t.reads, t.pool, t.ok⟩
    else r

/-- The header of an image. -/
structure RawHeader where
  magic : List Byte
  version : ℕ
  entryCount : ℕ
  entriesOffset : ℕ
  dataOffset : ℕ

def readHeader (f : ℕ → Byte) (a : ℕ) : RawHeader where
  magic := Bytes.window f a 8
  version := Bytes.field f (a + 8) 4
  entryCount := Bytes.field f (a + 12) 4
  entriesOffset := Bytes.field f (a + 16) 8
  dataOffset := Bytes.field f (a + 24) 8

/-- The checks of the parser on the header; the end of the table is computed in 64 bits. -/
def headerAccepted (size : ℕ) (h : RawHeader) : Prop :=
  h.magic = tfsMagic ∧ h.version = tfsVersion ∧
    (h.entriesOffset + h.entryCount * entrySize) % addressSpace ≤ size

instance (size : ℕ) (h : RawHeader) : Decidable (headerAccepted size h) :=
  inferInstanceAs (Decidable (h.magic = tfsMagic ∧ h.version = tfsVersion ∧
    (h.entriesOffset + h.entryCount * entrySize) % addressSpace ≤ size))

def mountEntriesFromMemory (mem : ℕ → Byte) (kmalloc : ℕ → Bool) (image size : ℕ)
    (borrowed : Bool) (s : Pool) : Parse :=
  if image = 0 ∨ size < headerSize then ⟨[], s, false⟩
  else
    let h := readHeader (fetch mem) image
    if headerAccepted size h then
      let r := mountLoop mem kmalloc image size borrowed h.entryCount (image + h.entriesOffset) s
      ⟨.bytes image headerSize :: r.reads, r.pool, r.ok⟩
    else ⟨[.bytes image headerSize], s, false⟩

def tfsMountImage (mem : ℕ → Byte) (image size : ℕ) (s : Pool) (t : TfsState) : TfsState × Parse :=
  ({ t with persistentEnabled := false, autoSyncEnabled := false },
    mountEntriesFromMemory mem (fun _ => true) image size true s)

/-! ### Mounting a disk -/

/-- The scan of the table for the end of the last file; each end is computed in 64 bits. -/
def scanEnd (f : ℕ → Byte) : ℕ → ℕ → ℕ → ℕ
  | 0, _, maxEnd => maxEnd
  | n + 1, a, maxEnd =>
    let e := readEntry f a
    let last := (e.offset + e.size) % addressSpace
    scanEnd f n (a + entrySize) (if e.type = tfsEntryFile ∧ maxEnd < last then last else maxEnd)

def bufStore (l : List Byte) : ℕ → Byte := fun i => l.getD i 0

theorem window_bufStore {b k : ℕ} (h : b + k ≤ n) :
    Bytes.window (bufStore (Bytes.window f a n)) b k = Bytes.window f (a + b) k := by
  rw [← Bytes.window_shift f a b k]
  refine Bytes.window_congr fun i _ hi => ?_
  rw [bufStore, List.getD_eq_getElem?_getD, Bytes.getElem?_window f (by omega), Option.getD_some]

/-- The first sector, and the checks of `tfs_mount_disk` on the header in it. -/
def diskHeader (d : Disk) (startLba : UInt64) : Option RawHeader :=
  (d.read startLba.toNat sectorSize).bind fun sector =>
    let h := readHeader (bufStore sector) 0
    if h.magic ≠ tfsMagic ∨ h.version ≠ tfsVersion then none
    else if tfsMaxEntries < h.entryCount ∨ tfsSyncBufferMax < h.entriesOffset ∨
        tfsSyncBufferMax < h.dataOffset then none
    else some h

def RawHeader.entriesBytes (h : RawHeader) : ℕ := h.entryCount * entrySize

/-- The entry table `tfs_mount_disk` reads on its own. -/
def diskEntries (d : Disk) (startLba : UInt64) (h : RawHeader) : Option (List Byte) :=
  if h.entriesBytes = 0 then some []
  else d.read ((startLba.toNat + h.entriesOffset / sectorSize) % addressSpace) h.entriesBytes

/-- `image_size`. -/
def diskImageSize (h : RawHeader) (entries : List Byte) : ℕ :=
  let maxEnd := scanEnd (bufStore entries) h.entryCount 0 (h.entriesOffset + h.entriesBytes)
  max ((maxEnd + sectorSize - 1) % addressSpace / sectorSize * sectorSize) h.dataOffset

/-- The image `tfs_mount_disk` reads into memory before it parses it; `none` when it returns an
error first. -/
def diskImage (kmalloc : ℕ → Bool) (d : Disk) (startLba : UInt64) : Option (List Byte) :=
  (diskHeader d startLba).bind fun h =>
    if kmalloc (if h.entriesBytes = 0 then 1 else h.entriesBytes) = false then none
    else
      (diskEntries d startLba h).bind fun entries =>
        if tfsSyncBufferMax < diskImageSize h entries then none
        else if kmalloc (diskImageSize h entries) = false then none
        else d.read startLba.toNat (diskImageSize h entries)

theorem diskImage_eq_some {kmalloc : ℕ → Bool} {d : Disk} {startLba : UInt64}
    {bytes : List Byte} :
    diskImage kmalloc d startLba = some bytes ↔
      ∃ h entries, diskHeader d startLba = some h ∧
        kmalloc (if h.entriesBytes = 0 then 1 else h.entriesBytes) = true ∧
        diskEntries d startLba h = some entries ∧
        diskImageSize h entries ≤ tfsSyncBufferMax ∧
        kmalloc (diskImageSize h entries) = true ∧
        d.read startLba.toNat (diskImageSize h entries) = some bytes := by
  rw [diskImage, Option.bind_eq_some_iff]
  constructor
  · rintro ⟨h, hh, he⟩
    by_cases h₁ : kmalloc (if h.entriesBytes = 0 then 1 else h.entriesBytes) = false
    · rw [if_pos h₁] at he
      cases he
    · rw [if_neg h₁, Option.bind_eq_some_iff] at he
      obtain ⟨entries, hentries, he⟩ := he
      split_ifs at he with h₂ h₃
      exact ⟨h, entries, hh, by simpa using h₁, hentries, not_lt.1 h₂, by simpa using h₃, he⟩
  · rintro ⟨h, entries, hh, h₁, hentries, h₂, h₃, hread⟩
    refine ⟨h, hh, ?_⟩
    rw [if_neg (by rw [h₁]; simp), hentries, Option.bind_some, if_neg (not_lt.2 h₂),
      if_neg (by rw [h₃]; simp), hread]

/-- The outcome of `tfs_mount_disk`. -/
structure Mounted where
  state : TfsState
  pool : Pool
  reads : List Read
  rc : ℤ

/-- `tfs_mount_disk`.  `image` is the address `kmalloc` places the image buffer at, in a memory
that holds `mem` elsewhere. -/
def tfsMountDisk (kmalloc : ℕ → Bool) (mem : ℕ → Byte) (image : ℕ) (devices : Devices)
    (s : Pool) (t : TfsState) (device : List Byte) (startLba : UInt64) : Mounted :=
  if device = [] then ⟨t, s, [], -1⟩
  else
    match (blockDeviceFind devices device).bind fun d => diskImage kmalloc d startLba with
    | none => ⟨t, s, [], -1⟩
    | some bytes =>
      let off := { t with persistentEnabled := false, autoSyncEnabled := false }
      let r := mountEntriesFromMemory (Bytes.overlay mem image bytes) kmalloc image bytes.length
        false s
      if r.ok = true then
        ⟨{ off with persistentDevice := CharBuf.strncpy 15 device, persistentStartLba := startLba
                    lastImageSize := bytes.length, persistentEnabled := true
                    autoSyncEnabled := true }, r.pool, r.reads, 0⟩
      else ⟨off, r.pool, r.reads, -1⟩

/-- **A header is read back.** -/
theorem readHeader_of_holds {version count entries data : ℕ}
    (h : Bytes.Holds f a (tfsMagic ++ Bytes.le 4 version ++ Bytes.le 4 count
      ++ Bytes.le 8 entries ++ Bytes.le 8 data))
    (hversion : version < 2 ^ 32) (hcount : count < 2 ^ 32) (hentries : entries < 2 ^ 64)
    (hdata : data < 2 ^ 64) : readHeader f a = ⟨tfsMagic, version, count, entries, data⟩ := by
  simp only [Bytes.holds_append, List.length_append, Bytes.length_le, length_tfsMagic] at h
  obtain ⟨⟨⟨⟨h0, h8⟩, h12⟩, h16⟩, h24⟩ := h
  simp only [readHeader, RawHeader.mk.injEq]
  refine ⟨h0.window_eq length_tfsMagic, ?_, ?_, ?_, ?_⟩
  · rw [Bytes.field_of_holds h8, Nat.mod_eq_of_lt (by norm_num; omega)]
  · rw [Bytes.field_of_holds h12, Nat.mod_eq_of_lt (by norm_num; omega)]
  · rw [Bytes.field_of_holds h16, Nat.mod_eq_of_lt (by norm_num; omega)]
  · rw [Bytes.field_of_holds h24, Nat.mod_eq_of_lt (by norm_num; omega)]

/-! ### Where reads go -/

namespace Read

variable {mem : ℕ → Byte} {image size : ℕ}

theorem not_inside_end (h0 : 0 < image) (himage : image + size ≤ addressSpace) :
    ¬ (image ≤ (image + size) % addressSpace ∧ (image + size) % addressSpace < image + size) := by
  rintro ⟨h₁, h₂⟩
  rcases Nat.lt_or_ge (image + size) addressSpace with hlt | hge
  · rw [Nat.mod_eq_of_lt hlt] at h₂
    omega
  · have : image + size = addressSpace := by omega
    rw [this, Nat.mod_self] at h₁
    omega

/-- **A read at an offset stays in the image** exactly when it does so without wrapping. -/
theorem inside_bytes_iff (mem : ℕ → Byte) (h0 : 0 < image) (himage : image + size ≤ addressSpace) {a n : ℕ}
    (ha : a < addressSpace) (hn : 0 < n) :
    (Read.bytes (image + a) n).Inside mem image size ↔ a + n ≤ size := by
  constructor
  · intro h
    by_contra hlong
    -- the first byte behind the image is touched, or the first one lies behind it
    by_cases hstart : a ≤ size
    · have hend := h _ ⟨size - a, by omega, rfl⟩
      rw [show image + a + (size - a) = image + size by omega] at hend
      exact not_inside_end h0 himage hend
    · obtain ⟨h₁, h₂⟩ := h _ ⟨0, hn, rfl⟩
      rw [Nat.add_zero] at h₁ h₂
      rcases Nat.lt_or_ge (image + a) addressSpace with hlt | hge
      · rw [Nat.mod_eq_of_lt hlt] at h₂
        omega
      · rw [Nat.mod_eq_sub_mod hge, Nat.mod_eq_of_lt (by omega)] at h₁
        omega
  · rintro h x ⟨i, hi, rfl⟩
    rw [Nat.mod_eq_of_lt (by omega)]
    omega

/-- **A string at an offset stays in the image** exactly when it ends there. -/
theorem inside_cstring_iff (h0 : 0 < image) (himage : image + size ≤ addressSpace) {a : ℕ}
    (ha : a ≤ size) :
    (Read.cstring (image + a)).Inside mem image size ↔
      ∃ j, a + j < size ∧ fetch mem (image + a + j) = 0 := by
  constructor
  · intro h
    by_contra hno
    have hall : ∀ j, j < size - a → fetch mem (image + a + j) ≠ 0 := fun j hj h0 =>
      hno ⟨j, by omega, h0⟩
    have hend := h _ ⟨size - a, hall, rfl⟩
    rw [show image + a + (size - a) = image + size by omega] at hend
    exact not_inside_end h0 himage hend
  · rintro ⟨j, hj, hz⟩ x ⟨i, hi, rfl⟩
    have hij : i ≤ j := by
      by_contra hlt
      exact hi j (by omega) hz
    rw [Nat.mod_eq_of_lt (by omega)]
    omega

theorem Inside.mono_bytes {a n a' n' : ℕ} (h : (Read.bytes a n).Inside mem image size)
    (ha : a ≤ a') (hn : a' + n' ≤ a + n) : (Read.bytes a' n').Inside mem image size := by
  rintro x ⟨i, hi, rfl⟩
  exact h _ ⟨a' - a + i, by omega, by congr 1; omega⟩

end Read

/-! ### What an entry does to the pool -/

theorem nul_free_readPath (f : ℕ → Byte) (a : ℕ) : 0 ∉ readPath f a := zero_notMem_cstr _

variable {s : Pool}

theorem sameLinks_setFileNode (s : Pool) (n : ℕ) (e : RawEntry) :
    SameLinks s (setFileNode s n e) :=
  SameLinks.modifyNode s n _ rfl rfl rfl rfl rfl

theorem sameLinks_setFileData (s : Pool) (n : ℕ) (data : List Byte) (borrowed : Bool) :
    SameLinks s (setFileData s n data borrowed) :=
  SameLinks.modifyNode s n _ rfl rfl rfl rfl rfl

theorem walk_vfsMake (hs : Wf s) (type : NodeType) {path cwd : List Byte} (mode uid gid : UInt32)
    (hp : 0 ∉ path) (hc : 0 ∉ cwd) {cs : NamePath} (hw : walk s rootNode cs = some n) :
    walk (vfsMake type s path cwd mode uid gid).1 rootNode cs = some n := by
  rcases vfsMake_cases s type mode uid gid hp hc with
    ⟨rc, -, he⟩ | ⟨pc, x, parent, hres, hpc, -, hnew, -, he⟩
  · rw [he]
    exact hw
  · have hx : ValidName x := (proper_of_resolve hp hc hres).valid x (by simp)
    have hname := leafNode_name s hx type mode uid gid
    rw [he, walk_addLeaf hs hpc rfl (by rw [hname]; exact hnew), if_neg, hw]
    rintro rfl
    rw [hname, walk_snoc, hpc, Option.bind_some, hnew] at hw
    cases hw

theorem sameLinks_mountFile (mem : ℕ → Byte) (kmalloc : ℕ → Bool) (image : ℕ) (borrowed : Bool)
    (s : Pool) (e : RawEntry) (path : List Byte) (reads : List Read) :
    SameLinks
      (vfsCreateFile s path [slash] (vfsSIfreg ||| (e.mode &&& permMask)) e.uid e.gid).1
      (mountFile mem kmalloc image borrowed s e path reads).pool := by
  unfold mountFile
  simp only
  set s₁ := (vfsCreateFile s path [slash] (vfsSIfreg ||| (e.mode &&& permMask)) e.uid e.gid).1
  cases vfsLookup s₁ path [slash] with
  | none => exact SameLinks.refl s₁
  | some n =>
    have hnode := sameLinks_setFileNode s₁ n e
    simp only
    split_ifs
    · exact hnode
    · exact hnode
    · exact hnode.trans (sameLinks_setFileData _ _ _ _)

theorem mountEntry_pool_cases (mem : ℕ → Byte) (kmalloc : ℕ → Bool) (image size : ℕ)
    (borrowed : Bool) (s : Pool) (a : ℕ) :
    ∃ s₁, (s₁ = s ∨ ∃ type mode uid gid,
        s₁ = (vfsMake type s (readPath (fetch mem) a) [slash] mode uid gid).1) ∧
      SameLinks s₁ (mountEntry mem kmalloc image size borrowed s a).pool := by
  unfold mountEntry
  simp only
  split_ifs
  · exact ⟨s, .inl rfl, SameLinks.refl s⟩
  · exact ⟨_, .inr ⟨.dir, _, _, _, rfl⟩, SameLinks.refl _⟩
  · exact ⟨s, .inl rfl, SameLinks.refl s⟩
  · exact ⟨_, .inr ⟨.file, _, _, _, rfl⟩, sameLinks_mountFile _ _ _ _ _ _ _ _⟩
  · exact ⟨s, .inl rfl, SameLinks.refl s⟩

/-- **An entry keeps the shape of the pool.** -/
theorem wf_mountEntry (hs : Wf s) (mem : ℕ → Byte) (kmalloc : ℕ → Bool) (image size : ℕ)
    (borrowed : Bool) (a : ℕ) : Wf (mountEntry mem kmalloc image size borrowed s a).pool := by
  obtain ⟨s₁, hs₁, hl⟩ := mountEntry_pool_cases mem kmalloc image size borrowed s a
  rcases hs₁ with rfl | ⟨type, mode, uid, gid, rfl⟩
  · exact hl.wf hs
  · exact hl.wf (vfsMake_of_wf hs type mode uid gid (nul_free_readPath _ _) (by decide))

/-- **An entry keeps the paths the pool has.** -/
theorem walk_mountEntry (hs : Wf s) (mem : ℕ → Byte) (kmalloc : ℕ → Bool) (image size : ℕ)
    (borrowed : Bool) (a : ℕ) {cs : NamePath} (hw : walk s rootNode cs = some n) :
    walk (mountEntry mem kmalloc image size borrowed s a).pool rootNode cs = some n := by
  obtain ⟨s₁, hs₁, hl⟩ := mountEntry_pool_cases mem kmalloc image size borrowed s a
  rw [hl.walk_eq]
  rcases hs₁ with rfl | ⟨type, mode, uid, gid, rfl⟩
  · exact hw
  · exact walk_vfsMake hs type mode uid gid (nul_free_readPath _ _) (by decide) hw

end Tnu.Tfs
