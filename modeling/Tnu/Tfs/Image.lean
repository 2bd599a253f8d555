/-
**The TFS image.**

A TFS image is a header, a table of fixed-size entries, and file data (`kernel/include/tnu/tfs.h`).
This module embeds the two records and their byte layout, and shows that the fields of a written
table are read back.

Main definitions:

* `TfsEntry`, `encodeEntry` — an entry, and its bytes;
* `RawEntry`, `readEntry` — the fields of a record in a store.

Main result:

* `readEntry_of_holds` — **an entry is read back**.
-/

import Tnu.CString
import Tnu.Lib.Bytes

set_option autoImplicit false

namespace Tnu.Tfs

/-! ### Constants -/

/-- `TFS_MAGIC`, with its terminator: `TFS_MAGIC_LEN` bytes. -/
def tfsMagic : List Byte := lit "TFS1TNU" ++ [0]

abbrev tfsVersion : ℕ := 1

abbrev tfsPathMax : ℕ := 256

abbrev tfsTableAlign : ℕ := 4096

abbrev tfsMaxEntries : ℕ := 1024

abbrev tfsSyncBufferMax : ℕ := 512 * 1024 * 1024

/-- `sizeof(struct tfs_header)`. -/
abbrev headerSize : ℕ := 32

/-- `sizeof(struct tfs_entry)`. -/
abbrev entrySize : ℕ := 296

abbrev pathOffset : ℕ := 40

abbrev tfsEntryDir : ℕ := 1

abbrev tfsEntryFile : ℕ := 2

/-- `align_up64`, for the powers of two it is called with. -/
def alignUp64 (value align : ℕ) : ℕ := (value + align - 1) % 2 ^ 64 / align * align

/-- The `data_offset` of every image `tfs_sync` writes. -/
def dataOffset : ℕ := alignUp64 (tfsTableAlign + tfsMaxEntries * entrySize) tfsTableAlign

theorem dataOffset_eq : dataOffset = 307200 := by decide

/-! ### Records -/

/-- `struct tfs_entry`, as `tfs_sync` fills it in. -/
structure TfsEntry where
  type : ℕ
  mode : UInt32
  uid : UInt32
  gid : UInt32
  size : ℕ
  offset : ℕ
  mtime : ℕ
  path : CharBuf (tfsPathMax - 1)

def encodeFields (e : TfsEntry) : List Byte :=
  Bytes.le 4 e.type ++ Bytes.le 4 e.mode.toNat ++ Bytes.le 4 e.uid.toNat ++ Bytes.le 4 e.gid.toNat
    ++ Bytes.le 8 e.size ++ Bytes.le 8 e.offset ++ Bytes.le 8 e.mtime

/-- A `char[256]` cleared before the string is copied in. -/
def encodePath (path : CharBuf (tfsPathMax - 1)) : List Byte :=
  path.chars ++ List.replicate (tfsPathMax - path.chars.length) 0

def encodeEntry (e : TfsEntry) : List Byte := encodeFields e ++ encodePath e.path

/-- The bytes of the header `tfs_sync` fills in. -/
def encodeHeader (entryCount : ℕ) : List Byte :=
  tfsMagic ++ Bytes.le 4 tfsVersion ++ Bytes.le 4 entryCount ++ Bytes.le 8 tfsTableAlign
    ++ Bytes.le 8 dataOffset

/-- The header buffer of `tfs_sync` up to `data_offset`: header, entries, zeros elsewhere. -/
def headerBuf (entries : List TfsEntry) : List Byte :=
  encodeHeader entries.length ++ List.replicate (tfsTableAlign - headerSize) 0
    ++ entries.flatMap encodeEntry
    ++ List.replicate (dataOffset - tfsTableAlign - entries.length * entrySize) 0

@[simp] theorem length_encodeFields (e : TfsEntry) : (encodeFields e).length = pathOffset := by
  simp [encodeFields]

@[simp] theorem length_encodePath (path : CharBuf (tfsPathMax - 1)) :
    (encodePath path).length = tfsPathMax := by
  have : path.chars.length ≤ 255 := path.length_le
  have hmax : tfsPathMax = 256 := rfl
  simp only [encodePath, List.length_append, List.length_replicate]
  omega

@[simp] theorem length_encodeEntry (e : TfsEntry) : (encodeEntry e).length = entrySize := by
  rw [encodeEntry, List.length_append, length_encodeFields, length_encodePath]
  rfl

@[simp] theorem length_tfsMagic : tfsMagic.length = 8 := by decide

@[simp] theorem length_encodeHeader (n : ℕ) : (encodeHeader n).length = headerSize := by
  simp [encodeHeader]

theorem length_flatMap_encodeEntry (entries : List TfsEntry) :
    (entries.flatMap encodeEntry).length = entries.length * entrySize := by
  induction entries with
  | nil => simp
  | cons e entries ih =>
    rw [List.flatMap_cons, List.length_append, ih, length_encodeEntry, List.length_cons]
    ring

/-- **The buffer is as long as the header says.** -/
theorem length_headerBuf {entries : List TfsEntry} (h : entries.length ≤ tfsMaxEntries) :
    (headerBuf entries).length = dataOffset := by
  have h' : entries.length ≤ 1024 := h
  have hfixed : headerSize = 32 ∧ tfsTableAlign = 4096 ∧ entrySize = 296 := ⟨rfl, rfl, rfl⟩
  simp only [headerBuf, List.length_append, length_encodeHeader, List.length_replicate,
    length_flatMap_encodeEntry, dataOffset_eq, hfixed]
  omega

/-! ### Reading records -/

/-- The fixed fields of `struct tfs_entry`, as they are found. -/
structure RawEntry where
  type : ℕ
  mode : UInt32
  uid : UInt32
  gid : UInt32
  size : ℕ
  offset : ℕ
  mtime : ℕ

def readEntry (f : ℕ → Byte) (a : ℕ) : RawEntry where
  type := Bytes.field f a 4
  mode := UInt32.ofNat (Bytes.field f (a + 4) 4)
  uid := UInt32.ofNat (Bytes.field f (a + 8) 4)
  gid := UInt32.ofNat (Bytes.field f (a + 12) 4)
  size := Bytes.field f (a + 16) 8
  offset := Bytes.field f (a + 24) 8
  mtime := Bytes.field f (a + 32) 8

/-- The path of the record at an address, as far as the path functions of the VFS use it: they
keep at most 255 bytes of a path. -/
def readPath (f : ℕ → Byte) (a : ℕ) : List Byte :=
  cstr (Bytes.window f (a + pathOffset) (tfsPathMax - 1))

variable {f : ℕ → Byte}

/-- **An entry is read back.** -/
theorem readEntry_of_holds {a : ℕ} {e : TfsEntry} (h : Bytes.Holds f a (encodeEntry e))
    (htype : e.type < 2 ^ 32) (hsize : e.size < 2 ^ 64) (hoffset : e.offset < 2 ^ 64)
    (hmtime : e.mtime < 2 ^ 64) :
    readEntry f a = ⟨e.type, e.mode, e.uid, e.gid, e.size, e.offset, e.mtime⟩ := by
  rw [encodeEntry, encodeFields] at h
  simp only [Bytes.holds_append, List.length_append, Bytes.length_le] at h
  obtain ⟨⟨⟨⟨⟨⟨⟨h0, h4⟩, h8⟩, h12⟩, h16⟩, h24⟩, h32⟩, -⟩ := h
  have hword : ∀ u : UInt32, UInt32.ofNat (u.toNat % 256 ^ 4) = u := fun u => by
    rw [Nat.mod_eq_of_lt (by simpa using u.toNat_lt), UInt32.ofNat_toNat]
  simp only [readEntry, RawEntry.mk.injEq]
  refine ⟨?_, ?_, ?_, ?_, ?_, ?_, ?_⟩
  · rw [Bytes.field_of_holds h0, Nat.mod_eq_of_lt (by norm_num; omega)]
  · rw [Bytes.field_of_holds h4, hword]
  · rw [Bytes.field_of_holds h8, hword]
  · rw [Bytes.field_of_holds h12, hword]
  · rw [Bytes.field_of_holds h16, Nat.mod_eq_of_lt (by norm_num; omega)]
  · rw [Bytes.field_of_holds h24, Nat.mod_eq_of_lt (by norm_num; omega)]
  · rw [Bytes.field_of_holds h32, Nat.mod_eq_of_lt (by norm_num; omega)]

/-- **Its path is read back.** -/
theorem readPath_of_holds {a : ℕ} {e : TfsEntry} (h : Bytes.Holds f a (encodeEntry e)) :
    readPath f a = e.path.chars := by
  rw [encodeEntry, Bytes.holds_append, length_encodeFields, encodePath] at h
  have hlen : e.path.chars.length ≤ 255 := e.path.length_le
  obtain ⟨n, hn⟩ : ∃ n, tfsPathMax - e.path.chars.length = n + 1 :=
    ⟨255 - e.path.chars.length, by have : tfsPathMax = 256 := rfl; omega⟩
  have hall := h.2.window_eq (n := tfsPathMax - 1 + 1) (by
    have : tfsPathMax = 256 := rfl
    simp only [List.length_append, List.length_replicate]
    omega)
  rw [Bytes.window_add] at hall
  -- the window is the path and zeros; its last byte, a zero, does not matter to the string
  have hcut : Bytes.window f (a + pathOffset) (tfsPathMax - 1) =
      e.path.chars ++ List.replicate n 0 := by
    have := congrArg (List.take (tfsPathMax - 1)) hall
    rw [List.take_left' (Bytes.length_window _ _ _), hn, List.replicate_succ', ← List.append_assoc,
      List.take_left'] at this
    · exact this
    · have : tfsPathMax = 256 := rfl
      simp only [List.length_append, List.length_replicate]
      omega
  rw [readPath, hcut]
  cases n with
  | zero =>
    rw [List.replicate_zero, List.append_nil]
    exact cstr_of_notMem e.path.nul_free
  | succ n => exact cstr_append_zero e.path.nul_free _

end Tnu.Tfs
