/-
**The partition table the user's installer writes.**

`create_gpt_partitions` of `userspace/sbin/sysinstall.c` writes a protective MBR, the entry array at
both ends of the disk, and a header at both ends.  The headers are built by two calls of one function,
and each call draws an identifier for the disk from the generator; the generator goes on in between.

Main definitions:

* `generateGuid` — the generator, and the identifiers it draws;
* `DiskFd`, `writeAllAt` — the open disk, and the loop that writes to it;
* `createGptPartitions`, `installTfsRootRaw` — the installer.

Main result:

* `partitioned_not_sameDisk` — **the table is valid, and its two headers name two disks**.
-/

import Tnu.Shell.Sysinstall

set_option autoImplicit false

namespace Tnu.Sbin

open Tfs Shell

/-! ### Identifiers -/

/-- `pseudo_rand`: the value, and the state it leaves in `rng_state`. -/
def pseudoRand (rngState : UInt32) : UInt32 × UInt32 :=
  let rngState := rngState * 1103515245 + 12345
  ((rngState >>> 8) ^^^ rngState, rngState)

/-- The loop of `generate_guid`, over the next `k` bytes. -/
def guidBytes : ℕ → UInt32 → List Byte × UInt32
  | 0, rngState => ([], rngState)
  | k + 1, rngState =>
    let r := pseudoRand rngState
    let t := guidBytes k r.2
    ((r.1 &&& 0xff).toUInt8 :: t.1, t.2)

@[simp] theorem length_guidBytes (k : ℕ) (rngState : UInt32) : (guidBytes k rngState).1.length = k := by
  induction k generalizing rngState with
  | zero => rfl
  | succ k ih => exact congrArg Nat.succ (ih _)

def generateGuid (rngState : UInt32) : Blob 16 × UInt32 :=
  let r := guidBytes 16 rngState
  (⟨(r.1.modify 6 fun x => (x &&& 0x0f) ||| 0x40).modify 8 fun x => (x &&& 0x3f) ||| 0x80,
    by simp [r]⟩, r.2)

/-! The low ten bits of the state decide the low two bits of every byte that is drawn. -/

def lowNext (x : ℕ) : ℕ := (x * 1103515245 + 12345) % 1024

def lowByte (x : ℕ) : ℕ := (x / 256 ^^^ x) % 4

def lowBytes : ℕ → ℕ → List ℕ
  | 0, _ => []
  | k + 1, x => lowByte (lowNext x) :: lowBytes k (lowNext x)

variable (rngState : UInt32) {entries : List Byte} {i lba : ℕ}

theorem low_pseudoRand :
    (pseudoRand rngState).2.toNat % 1024 = lowNext (rngState.toNat % 1024) := by
  change (rngState * 1103515245 + 12345).toNat % 1024 = _
  rw [UInt32.toNat_add, UInt32.toNat_mul, lowNext]
  change (rngState.toNat * 1103515245 % 2 ^ 32 + 12345) % 2 ^ 32 % 1024 = _
  omega

theorem low_byte :
    ((pseudoRand rngState).1 &&& 0xff).toUInt8.toNat % 4 = lowByte (lowNext (rngState.toNat % 1024)) := by
  rw [← low_pseudoRand]
  generalize hs : (pseudoRand rngState).2 = s
  have hvalue : (pseudoRand rngState).1 = (s >>> 8) ^^^ s := by rw [← hs]; rfl
  have hshift : (s >>> 8).toNat = s.toNat / 256 := by
    rw [UInt32.toNat_shiftRight]
    exact Nat.shiftRight_eq_div_pow _ 8
  have hmask : (((s >>> 8) ^^^ s) &&& 0xff).toUInt8.toNat = (s.toNat / 256 ^^^ s.toNat) % 256 := by
    rw [UInt32.toNat_toUInt8, UInt32.toNat_and, UInt32.toNat_xor, hshift]
    change ((s.toNat / 256 ^^^ s.toNat) &&& (2 ^ 8 - 1)) % 2 ^ 8 = _
    rw [Nat.and_two_pow_sub_one_eq_mod, Nat.mod_mod]
  rw [hvalue, hmask, lowByte, Nat.mod_mod_of_dvd _ (by norm_num)]
  -- both sides are the low two bits of a difference of bits
  have hxor : ∀ a b : ℕ, (a ^^^ b) % 4 = (a % 4 ^^^ b % 4) := fun a b => Nat.xor_mod_two_pow (n := 2)
  rw [hxor, hxor (s.toNat % 1024 / 256)]
  congr 1
  · omega
  · omega

theorem low_guidBytes (k : ℕ) (rngState : UInt32) :
    (guidBytes k rngState).1.map (fun b => b.toNat % 4) = lowBytes k (rngState.toNat % 1024) ∧
      (guidBytes k rngState).2.toNat % 1024 = lowNext^[k] (rngState.toNat % 1024) := by
  induction k generalizing rngState with
  | zero => exact ⟨rfl, rfl⟩
  | succ k ih =>
    obtain ⟨hbytes, hstate⟩ := ih (pseudoRand rngState).2
    rw [low_pseudoRand] at hbytes hstate
    constructor
    · rw [guidBytes, List.map_cons, hbytes, low_byte, lowBytes]
    · rw [guidBytes, hstate, Function.iterate_succ_apply]

theorem lowBytes_ne : ∀ x < 1024, lowBytes 4 x ≠ lowBytes 4 (lowNext^[16] x) := by
  decide +kernel

theorem take_generateGuid :
    (generateGuid rngState).1.toList.take 4 = (guidBytes 4 rngState).1 := rfl

/-- **Two identifiers drawn one after the other differ.** -/
theorem generateGuid_ne :
    (generateGuid (generateGuid rngState).2).1 ≠ (generateGuid rngState).1 := by
  intro heq
  have htake := congrArg (fun g : Blob 16 => (g.toList.take 4).map fun b => b.toNat % 4) heq
  simp only [take_generateGuid, low_guidBytes] at htake
  have hstate : (generateGuid rngState).2.toNat % 1024 = lowNext^[16] (rngState.toNat % 1024) :=
    (low_guidBytes 16 rngState).2
  rw [hstate] at htake
  exact lowBytes_ne _ (Nat.mod_lt _ (by norm_num)) htake.symm

/-! ### The open disk -/

/-- The open disk: its bytes, the position of the descriptor, and what the next calls answer.  Where the
answers run out, a call does what it is asked for. -/
structure DiskFd where
  data : ℕ → Byte
  pos : ℕ
  answers : List ℤ

/-- `lseek` from the start: the offset is signed, and one below zero is refused. -/
def DiskFd.lseek (d : DiskFd) (offset : ℕ) : DiskFd × ℤ :=
  if 2 ^ 63 ≤ offset % 2 ^ 64 ∨ d.answers.headD 0 < 0 then ({ d with answers := d.answers.tail }, -1)
  else ({ d with pos := offset % 2 ^ 64, answers := d.answers.tail }, (offset % 2 ^ 64 : ℕ))

/-- `write`: some of the bytes, or an error. -/
def DiskFd.write (d : DiskFd) (buf : List Byte) : DiskFd × ℤ :=
  let n := min (d.answers.headD buf.length) buf.length
  if n ≤ 0 then ({ d with answers := d.answers.tail }, n)
  else (⟨Bytes.overlay d.data d.pos (buf.take n.toNat), d.pos + n.toNat, d.answers.tail⟩, n)

/-- The loop of `write_all_at`, which `copy_file_to_fd_at` has too. -/
def writeLoop (d : DiskFd) (p : List Byte) : DiskFd × ℤ :=
  if p = [] then (d, 0)
  else if (d.write p).2 ≤ 0 then ((d.write p).1, -1)
  else writeLoop (d.write p).1 (p.drop (d.write p).2.toNat)
termination_by p.length
decreasing_by
  have hne : p.length ≠ 0 := mt List.eq_nil_of_length_eq_zero (by assumption)
  rw [List.length_drop]
  omega

def writeAllAt (d : DiskFd) (offset : ℕ) (buf : List Byte) : DiskFd × ℤ :=
  let r := d.lseek offset
  if r.2 < 0 then (r.1, -1) else writeLoop r.1 buf

/-- What `read` answers on the image of the root, one call after the other: an error, or bytes, and none
of them at the end. -/
abbrev FileReads := List (Option (List Byte))

def fileBytes : FileReads → List Byte
  | some (b :: buf) :: reads => (b :: buf) ++ fileBytes reads
  | _ => []

/-- The loop of `copy_file_to_fd_at`. -/
def copyLoop (maxBytes : ℕ) : FileReads → ℕ → DiskFd → DiskFd × ℤ
  | [], _, d => (d, 0)
  | none :: _, _, d => (d, -1)
  | some buf :: reads, written, d =>
    if buf = [] then (d, 0)
    else if maxBytes < written + buf.length then (d, -1)
    else
      let r := writeLoop d buf
      if r.2 < 0 then (r.1, -1) else copyLoop maxBytes reads (written + buf.length) r.1

/-- `copy_file_to_fd_at`; a file that cannot be opened has no reads. -/
def copyFileToFdAt (src : Option FileReads) (d : DiskFd) (offset maxBytes : ℕ) : DiskFd × ℤ :=
  match src with
  | none => (d, -1)
  | some reads =>
    let r := d.lseek offset
    if r.2 < 0 then (r.1, -1) else copyLoop maxBytes reads 0 r.1

/-! ### The layout -/

/-- `root_fs_t`. -/
inductive RootFs
  | tfs
  | ext2
  | ext4
  | fat32
  deriving DecidableEq

abbrev espStartLba : ℕ := 2048

abbrev espSizeSectors : ℕ := 524288

abbrev rootStartLba : ℕ := espStartLba + espSizeSectors

abbrev minDiskSectors : ℕ := rootStartLba + 262144

def guidEfiSystem : Blob 16 :=
  ⟨[0x28, 0x73, 0x2a, 0xc1, 0x1f, 0xf8, 0xd2, 0x11, 0xba, 0x4b, 0x00, 0xa0, 0xc9, 0x3e, 0xc9, 0x3b], rfl⟩

def guidLinuxFs : Blob 16 :=
  ⟨[0xaf, 0x3d, 0xc6, 0x0f, 0x83, 0x84, 0x72, 0x47, 0x8e, 0x79, 0x3d, 0x69, 0xd8, 0x47, 0x7d, 0xe4], rfl⟩

def guidTiramisuFs : Blob 16 :=
  ⟨[0x54, 0x4e, 0x55, 0x00, 0x13, 0x37, 0x42, 0x42, 0x80, 0x86, 0x54, 0x49, 0x52, 0x41, 0x4d, 0x49], rfl⟩

def rootFsGuid (fs : RootFs) : Blob 16 := if fs = .tfs then guidTiramisuFs else guidLinuxFs

/-- `gpt_set_name`: up to 36 characters of two bytes. -/
def gptSetName (name : List Byte) : Blob 72 :=
  let chars := ((name.takeWhile (· ≠ 0)).take 36).flatMap fun c => [c, 0]
  ⟨(chars ++ List.replicate 72 0).take 72, by simp⟩

/-- `build_gpt_entries`: the two entries, and the state of the generator behind them. -/
def buildGptEntries (rngState : UInt32) (diskSizeSectors : ℕ) (fs : RootFs) :
    (GptEntry × GptEntry) × UInt32 :=
  let espGuid := generateGuid rngState
  let rootGuid := generateGuid espGuid.2
  ((⟨guidEfiSystem, espGuid.1, espStartLba, espStartLba + espSizeSectors - 1, 0,
      gptSetName (lit "EFI System Partition")⟩,
    ⟨rootFsGuid fs, rootGuid.1, rootStartLba, diskSizeSectors - 2048, 0,
      gptSetName (if fs = .tfs then lit "Tiramisu TFS Root" else lit "Tiramisu Root")⟩), rootGuid.2)

/-- What the installer works on: `rng_state`, and the open disk. -/
structure Installer where
  rngState : UInt32
  fd : DiskFd

/-- The header of `write_gpt_header`. -/
def gptHeader (diskGuid : Blob 16) (diskSizeSectors : ℕ) (primary : Bool) (entries : List Byte) :
    GptHeader :=
  sysinstallFillGptHeader diskGuid (if primary then 1 else diskSizeSectors - 1)
    (if primary then diskSizeSectors - 1 else 1) 34 (diskSizeSectors - 34)
    (if primary then 2 else diskSizeSectors - 33) (sysinstallCrc32 entries)

/-- `write_gpt_header`: each call draws an identifier. -/
def writeGptHeader (s : Installer) (diskSizeSectors : ℕ) (primary : Bool) (entries : List Byte) :
    Installer × ℤ :=
  let guid := generateGuid s.rngState
  let header := gptHeader guid.1 diskSizeSectors primary entries
  let r := writeAllAt s.fd (header.myLba * sectorSize) (encodeGptHeader header)
  (⟨guid.2, r.1⟩, r.2)

def createGptPartitions (s : Installer) (diskSizeSectors : ℕ) (fs : RootFs) : Installer × ℤ :=
  if diskSizeSectors < minDiskSectors then (s, -1)
  else
    let e := buildGptEntries s.rngState diskSizeSectors fs
    let entries := entryArray e.1.1 e.1.2
    let mbr := writeAllAt s.fd 0 (sysinstallWriteProtectiveMbr diskSizeSectors)
    if mbr.2 < 0 then (⟨e.2, mbr.1⟩, -1)
    else
      let array := writeAllAt mbr.1 (2 * sectorSize) entries
      if array.2 < 0 then (⟨e.2, array.1⟩, -1)
      else
        let backupArray := writeAllAt array.1 ((diskSizeSectors - 33) * sectorSize) entries
        if backupArray.2 < 0 then (⟨e.2, backupArray.1⟩, -1)
        else
          let header := writeGptHeader ⟨e.2, backupArray.1⟩ diskSizeSectors true entries
          if header.2 < 0 then (header.1, -1)
          else
            let backupHeader := writeGptHeader header.1 diskSizeSectors false entries
            if backupHeader.2 < 0 then (backupHeader.1, -1) else (backupHeader.1, 0)

/-- `get_device_size_sectors`; `seekEnd` is what `lseek` returns for the end of the device, and `nvme` says
whether its path names one. -/
def getDeviceSizeSectors (opened : Bool) (seekEnd : Int64) (nvme : Bool) : ℕ :=
  if opened = false then 0
  else if 0 < seekEnd.toInt then seekEnd.toInt.toNat / sectorSize
  else if nvme = true then 500118192
  else 1953525168

/-- `install_tfs_root_raw`, where the disk could be opened again or not. -/
def installTfsRootRaw (opened : Bool) (src : Option FileReads) (d : DiskFd) (diskSizeSectors : ℕ) :
    DiskFd × ℤ :=
  if opened = false then (d, -1)
  else
    copyFileToFdAt src { d with pos := 0 } (rootStartLba * sectorSize)
      ((Shell.sub64 (Shell.sub64 diskSizeSectors 2048) rootStartLba + 1) % 2 ^ 64 * sectorSize % 2 ^ 64)

/-! ### What the installer is to leave -/

/-- **The disk has a valid table of two partitions**, with the same entries at both ends; the kernel
finds the second one, and the image of the root goes into it, from its first sector on. -/
structure Partitioned (f : ℕ → Byte) (n : ℕ) (primary backup : GptHeader) : Prop where
  valid : ValidGpt f n primary backup
  same_entries : Bytes.window f (sectorAt backup.partitionEntryLba)
      (backup.numPartitionEntries * backup.partitionEntrySize) =
    Bytes.window f (sectorAt primary.partitionEntryLba)
      (primary.numPartitionEntries * primary.partitionEntrySize)
  two : primary.Uses f 0 ∧ primary.Uses f 1
  finds : gptFindRootLba ⟨f, fun _ => true⟩ = some (primary.entry f 1).firstLba
  inside : ∀ opened src answers i,
    (installTfsRootRaw opened src ⟨f, 0, answers⟩ n).1.data i ≠ f i →
      sectorAt (primary.entry f 1).firstLba ≤ i ∧ i < sectorAt ((primary.entry f 1).lastLba + 1)
  held : ∀ reads answers, (installTfsRootRaw true (some reads) ⟨f, 0, answers⟩ n).2 = 0 →
    Bytes.Holds (installTfsRootRaw true (some reads) ⟨f, 0, answers⟩ n).1.data
      (sectorAt (primary.entry f 1).firstLba) (fileBytes reads)

/-- **Both headers name one disk.** -/
def SameDisk (f : ℕ → Byte) (n : ℕ) : Prop :=
  ∃ primary backup, Partitioned f n primary backup ∧ backup.diskGuid = primary.diskGuid

/-! ### Writing -/

variable {d : DiskFd} {s : Installer} {n offset maxBytes written : ℕ} {fs : RootFs} {buf : List Byte}

theorem lseek_of_success (h : ¬(d.lseek offset).2 < 0) :
    (d.lseek offset).1 = { d with pos := offset % 2 ^ 64, answers := d.answers.tail } := by
  rw [DiskFd.lseek] at h ⊢
  split_ifs at h ⊢ with hbad
  · exact absurd (by norm_num) h
  · rfl

@[simp] theorem lseek_data (d : DiskFd) (offset : ℕ) : (d.lseek offset).1.data = d.data := by
  rw [DiskFd.lseek]
  split
  · rfl
  · rfl

theorem write_of_pos (h : ¬(d.write buf).2 ≤ 0) :
    (d.write buf).1 = ⟨Bytes.overlay d.data d.pos (buf.take (d.write buf).2.toNat),
      d.pos + (d.write buf).2.toNat, d.answers.tail⟩ ∧ (d.write buf).2.toNat ≤ buf.length := by
  rw [DiskFd.write] at h ⊢
  split_ifs at h ⊢ with hn
  · exact absurd hn h
  · exact ⟨rfl, by dsimp only; omega⟩

theorem write_of_nonpos (h : (d.write buf).2 ≤ 0) : (d.write buf).1.data = d.data := by
  rw [DiskFd.write] at h ⊢
  split_ifs at h ⊢ with hn
  · rfl
  · exact absurd h hn

/-- **The loop that succeeds has written everything.** -/
theorem writeLoop_of_success (h : ¬(writeLoop d buf).2 < 0) :
    (writeLoop d buf).1.data = Bytes.overlay d.data d.pos buf ∧
      (writeLoop d buf).1.pos = d.pos + buf.length := by
  induction d, buf using writeLoop.induct with
  | case1 d =>
    rw [writeLoop, if_pos rfl, Bytes.overlay_nil]
    exact ⟨rfl, rfl⟩
  | case2 d buf hne hfail =>
    rw [writeLoop, if_neg hne, if_pos hfail] at h
    exact absurd (by norm_num) h
  | case3 d buf hne hpos ih =>
    rw [writeLoop, if_neg hne, if_neg hpos] at h ⊢
    obtain ⟨hdata, hend⟩ := ih h
    obtain ⟨hwrite, hle⟩ := write_of_pos hpos
    rw [hdata, hend, hwrite]
    have hlen : (buf.take (d.write buf).2.toNat).length = (d.write buf).2.toNat := by
      rw [List.length_take, min_eq_left hle]
    have hjoin := Bytes.overlay_append d.data d.pos (buf.take (d.write buf).2.toNat)
      (buf.drop (d.write buf).2.toNat)
    rw [hlen, List.take_append_drop] at hjoin
    refine ⟨hjoin, ?_⟩
    rw [List.length_drop]
    dsimp only
    omega

/-- **The loop writes where its bytes go**, also when it fails. -/
theorem writeLoop_inside (h : (writeLoop d buf).1.data i ≠ d.data i) :
    d.pos ≤ i ∧ i < d.pos + buf.length := by
  induction d, buf using writeLoop.induct with
  | case1 d =>
    rw [writeLoop, if_pos rfl] at h
    exact absurd rfl h
  | case2 d buf hne hfail =>
    rw [writeLoop, if_neg hne, if_pos hfail, write_of_nonpos hfail] at h
    exact absurd rfl h
  | case3 d buf hne hpos ih =>
    rw [writeLoop, if_neg hne, if_neg hpos] at h
    obtain ⟨hwrite, hle⟩ := write_of_pos hpos
    by_cases hsame : (d.write buf).1.data i = d.data i
    · obtain ⟨hfrom, hto⟩ := ih (by rw [hsame]; exact h)
      rw [hwrite] at hfrom hto
      dsimp only at hfrom hto
      rw [List.length_drop] at hto
      omega
    · rw [hwrite] at hsame
      by_contra hout
      have hlen : (buf.take (d.write buf).2.toNat).length ≤ buf.length := by
        rw [List.length_take]
        exact min_le_right _ _
      rcases Nat.lt_or_ge i d.pos with hlt | hge
      · exact hsame (Bytes.overlay_of_lt _ hlt)
      · exact hsame (Bytes.overlay_of_ge (by omega))

/-- **A write that succeeds has copied everything in.** -/
theorem writeAllAt_of_success (h : ¬(writeAllAt d offset buf).2 < 0) (hlt : offset < 2 ^ 64) :
    (writeAllAt d offset buf).1.data = Bytes.overlay d.data offset buf := by
  rw [writeAllAt] at h ⊢
  split_ifs at h ⊢ with hseek
  · exact absurd (by norm_num) h
  · rw [(writeLoop_of_success h).1, lseek_of_success hseek, Nat.mod_eq_of_lt hlt]

/-! ### The image of the root -/

variable {reads : FileReads}

/-- **The copy stays within the bytes it may write**, also when it fails. -/
theorem copyLoop_inside (hle : written ≤ maxBytes)
    (h : (copyLoop maxBytes reads written d).1.data i ≠ d.data i) :
    d.pos ≤ i ∧ i < d.pos + (maxBytes - written) := by
  induction reads generalizing written d with
  | nil => exact absurd rfl h
  | cons r reads ih =>
    cases r with
    | none => exact absurd rfl h
    | some buf =>
      rw [copyLoop] at h
      dsimp only at h
      split_ifs at h with hnil hover hfail
      · exact absurd rfl h
      · exact absurd rfl h
      · have hin := writeLoop_inside h
        omega
      · by_cases hsame : (writeLoop d buf).1.data i = d.data i
        · have hin := ih (show written + buf.length ≤ maxBytes by omega) (by rw [hsame]; exact h)
          rw [(writeLoop_of_success hfail).2] at hin
          omega
        · have hin := writeLoop_inside hsame
          omega

/-- **A copy that succeeds has copied the file.** -/
theorem copyLoop_of_success (h : ¬(copyLoop maxBytes reads written d).2 < 0) :
    (copyLoop maxBytes reads written d).1.data = Bytes.overlay d.data d.pos (fileBytes reads) := by
  induction reads generalizing written d with
  | nil => exact (Bytes.overlay_nil _ _).symm
  | cons r reads ih =>
    cases r with
    | none => exact absurd (show (-1 : ℤ) < 0 by norm_num) h
    | some buf =>
      rw [copyLoop] at h ⊢
      dsimp only at h ⊢
      split_ifs at h ⊢ with hnil hover hfail
      · rw [hnil, fileBytes, Bytes.overlay_nil]
        exact fun b buf reads hcons => by cases hcons
      · exact absurd (by norm_num) h
      · exact absurd (by norm_num) h
      · obtain ⟨b, rest, rfl⟩ := List.exists_cons_of_ne_nil hnil
        obtain ⟨hdata, hpos⟩ := writeLoop_of_success hfail
        rw [ih h, hdata, hpos, Bytes.overlay_append, fileBytes]

theorem rootBytes_eq (hmin : minDiskSectors ≤ n) (hsize : n * sectorSize < 2 ^ 63) :
    (Shell.sub64 (Shell.sub64 n 2048) rootStartLba + 1) % 2 ^ 64 * sectorSize % 2 ^ 64 =
      (n - 2048 - rootStartLba + 1) * sectorSize := by
  have hmin' : 788480 ≤ n := hmin
  have hsize' : n * 512 < 2 ^ 63 := hsize
  have hlast : Shell.sub64 n 2048 = n - 2048 := by
    rw [Shell.sub64]
    omega
  have hcount : (Shell.sub64 (n - 2048) rootStartLba + 1) % 2 ^ 64 = n - 2048 - rootStartLba + 1 := by
    rw [Shell.sub64]
    change ((n - 2048 + (2 ^ 64 - 526336)) % 2 ^ 64 + 1) % 2 ^ 64 = n - 2048 - 526336 + 1
    omega
  rw [hlast, hcount]
  change (n - 2048 - 526336 + 1) * 512 % 2 ^ 64 = (n - 2048 - 526336 + 1) * 512
  omega

/-- **The image of the root goes into its partition**, and nowhere else. -/
theorem installTfsRootRaw_inside (hmin : minDiskSectors ≤ n) (hsize : n * sectorSize < 2 ^ 63)
    {opened : Bool} {src : Option FileReads}
    (h : (installTfsRootRaw opened src d n).1.data i ≠ d.data i) :
    sectorAt rootStartLba ≤ i ∧ i < sectorAt (n - 2048 + 1) := by
  rw [installTfsRootRaw] at h
  split_ifs at h with hopened
  · exact absurd rfl h
  rw [rootBytes_eq hmin hsize] at h
  cases src with
  | none => exact absurd rfl h
  | some reads =>
    rw [copyFileToFdAt] at h
    split_ifs at h with hseek
    · exact absurd (congrFun (lseek_data _ _) i) h
    · have hin := copyLoop_inside (Nat.zero_le _) (by rw [lseek_data]; exact h)
      rw [lseek_of_success hseek] at hin
      change 526336 * 512 % 2 ^ 64 ≤ i ∧
        i < 526336 * 512 % 2 ^ 64 + ((n - 2048 - 526336 + 1) * 512 - 0) at hin
      change 526336 * 512 ≤ i ∧ i < (n - 2048 + 1) * 512
      have hmin' : 788480 ≤ n := hmin
      omega

/-- **An installation that succeeds has put the file there.** -/
theorem installTfsRootRaw_holds (h : (installTfsRootRaw true (some reads) d n).2 = 0) :
    Bytes.Holds (installTfsRootRaw true (some reads) d n).1.data (sectorAt rootStartLba)
      (fileBytes reads) := by
  rw [installTfsRootRaw, if_neg (by simp), copyFileToFdAt] at h ⊢
  split_ifs at h ⊢ with hseek
  · cases h
  · rw [copyLoop_of_success (by rw [h]; norm_num), lseek_of_success hseek]
    have hat : rootStartLba * sectorSize % 2 ^ 64 = sectorAt rootStartLba := rfl
    dsimp only
    rw [hat]
    exact Bytes.holds_overlay _ _ _

/-! ### The table -/

def espOf (s : Installer) (n : ℕ) (fs : RootFs) : GptEntry := (buildGptEntries s.rngState n fs).1.1

def rootOf (s : Installer) (n : ℕ) (fs : RootFs) : GptEntry := (buildGptEntries s.rngState n fs).1.2

def primaryGuid (s : Installer) (n : ℕ) (fs : RootFs) : Blob 16 :=
  (generateGuid (buildGptEntries s.rngState n fs).2).1

def backupGuid (s : Installer) (n : ℕ) (fs : RootFs) : Blob 16 :=
  (generateGuid (generateGuid (buildGptEntries s.rngState n fs).2).2).1

theorem fits_espOf (s : Installer) (n : ℕ) (fs : RootFs) : (espOf s n fs).Fits where
  firstLba := by change 2048 < 2 ^ 64; norm_num
  lastLba := by change 526335 < 2 ^ 64; norm_num
  attrs := by change 0 < 2 ^ 64; norm_num

theorem fits_rootOf (hsize : n * sectorSize < 2 ^ 63) : (rootOf s n fs).Fits where
  firstLba := by change 526336 < 2 ^ 64; norm_num
  lastLba := by
    have hsize' : n * 512 < 2 ^ 63 := hsize
    change n - 2048 < 2 ^ 64
    omega
  attrs := by change 0 < 2 ^ 64; norm_num

theorem inUsableRange (hmin : minDiskSectors ≤ n) :
    InUsableRange n (espOf s n fs) (rootOf s n fs) := by
  have hmin' : 788480 ≤ n := hmin
  refine ⟨?_, ?_, ?_, ?_, ?_⟩
  · change 34 ≤ 2048
    norm_num
  · change 2048 ≤ 526335
    norm_num
  · change 526335 < 526336
    norm_num
  · change 526336 ≤ n - 2048
    omega
  · change n - 2048 ≤ n - 34
    omega

/-- **Every size the installer is given** can be reached with an offset. -/
theorem getDeviceSizeSectors_lt (opened : Bool) (seekEnd : Int64) (nvme : Bool) :
    getDeviceSizeSectors opened seekEnd nvme * sectorSize < 2 ^ 63 := by
  have hend := seekEnd.toInt_lt
  rw [getDeviceSizeSectors]
  split_ifs
  · norm_num
  · change seekEnd.toInt.toNat / 512 * 512 < 2 ^ 63
    omega
  · norm_num [sectorSize]
  · norm_num [sectorSize]

theorem min_of_success (h : (createGptPartitions s n fs).2 = 0) : minDiskSectors ≤ n := by
  by_contra hlt
  rw [createGptPartitions, if_pos (not_le.1 hlt)] at h
  cases h

theorem myLba_true (guid : Blob 16) (n : ℕ) (entries : List Byte) :
    (gptHeader guid n true entries).myLba = 1 := rfl

theorem myLba_false (guid : Blob 16) (n : ℕ) (entries : List Byte) :
    (gptHeader guid n false entries).myLba = n - 1 := rfl

theorem gptHeader_true (s : Installer) (n : ℕ) (fs : RootFs) :
    gptHeader (primaryGuid s n fs) n true (entryArray (espOf s n fs) (rootOf s n fs)) =
      tableHeader n (primaryGuid s n fs) (espOf s n fs) (rootOf s n fs) 1 (n - 1) 2 := rfl

theorem gptHeader_false (s : Installer) (n : ℕ) (fs : RootFs) :
    gptHeader (backupGuid s n fs) n false (entryArray (espOf s n fs) (rootOf s n fs)) =
      tableHeader n (backupGuid s n fs) (espOf s n fs) (rootOf s n fs) (n - 1) 1 (n - 33) := rfl

theorem writeGptHeader_rngState (s : Installer) (n : ℕ) (primary : Bool) (entries : List Byte) :
    (writeGptHeader s n primary entries).1.rngState = (generateGuid s.rngState).2 := rfl

theorem writeGptHeader_of_success {primary : Bool}
    (hlba : (gptHeader (generateGuid s.rngState).1 n primary entries).myLba = lba)
    (hlt : lba * sectorSize < 2 ^ 64) (h : ¬(writeGptHeader s n primary entries).2 < 0) :
    (writeGptHeader s n primary entries).1.fd.data = Bytes.overlay s.fd.data (sectorAt lba)
      (encodeGptHeader (gptHeader (generateGuid s.rngState).1 n primary entries)) := by
  rw [writeGptHeader, hlba] at h ⊢
  exact writeAllAt_of_success h hlt

/-- **What a table that was made leaves on the disk.** -/
theorem createGptPartitions_data (hsize : n * sectorSize < 2 ^ 63)
    (h : (createGptPartitions s n fs).2 = 0) :
    (createGptPartitions s n fs).1.fd.data = Bytes.copyAll s.fd.data
      [(sectorAt 0, sysinstallWriteProtectiveMbr n), (sectorAt 2, entryArray (espOf s n fs) (rootOf s n fs)),
        (sectorAt (n - 33), entryArray (espOf s n fs) (rootOf s n fs)),
        (sectorAt 1, encodeGptHeader
          (tableHeader n (primaryGuid s n fs) (espOf s n fs) (rootOf s n fs) 1 (n - 1) 2)),
        (sectorAt (n - 1), encodeGptHeader
          (tableHeader n (backupGuid s n fs) (espOf s n fs) (rootOf s n fs) (n - 1) 1 (n - 33)))] := by
  have hmin := min_of_success h
  have hmin' : 788480 ≤ n := hmin
  have hlt : ∀ k ≤ n, k * sectorSize < 2 ^ 64 := fun k hk =>
    ((Nat.mul_le_mul_right _ hk).trans_lt hsize).trans (by norm_num)
  rw [createGptPartitions, if_neg (not_lt.2 hmin)] at h ⊢
  dsimp only at h ⊢
  split_ifs at h ⊢ with hmbr harray hbackupArray hheader hbackupHeader
  · cases h
  · cases h
  · cases h
  · cases h
  · cases h
  have h1 := writeAllAt_of_success hmbr (by norm_num)
  have h2 := writeAllAt_of_success harray (hlt 2 (by omega))
  have h3 := writeAllAt_of_success hbackupArray (hlt (n - 33) (by omega))
  have h4 := writeGptHeader_of_success (myLba_true _ n _) (hlt 1 (by omega)) hheader
  have h5 := writeGptHeader_of_success (myLba_false _ n _) (hlt (n - 1) (by omega)) hbackupHeader
  rw [writeGptHeader_rngState, h4, h3, h2, h1] at h5
  dsimp only at h5
  rw [← espOf, ← rootOf, ← primaryGuid, ← backupGuid, gptHeader_true, gptHeader_false] at h5
  dsimp only
  rw [← espOf, ← rootOf, h5]
  rfl

/-- **The sectors of the table**: no write touches what another one left. -/
theorem holdsTable_of_success (hsize : n * sectorSize < 2 ^ 63) (h : (createGptPartitions s n fs).2 = 0) :
    HoldsTable (createGptPartitions s n fs).1.fd.data n (primaryGuid s n fs) (backupGuid s n fs)
      (espOf s n fs) (rootOf s n fs) := by
  have hmin : 788480 ≤ n := min_of_success h
  have hat : ∀ k, sectorAt k = k * 512 := fun k => rfl
  have hheader : gptHeaderSize = 92 := rfl
  rw [createGptPartitions_data hsize h]
  refine ⟨Bytes.holds_copyAll [] ?_, Bytes.holds_copyAll [_, _, _] ?_, Bytes.holds_copyAll [_] ?_,
    Bytes.holds_copyAll [_, _] ?_, Bytes.holds_copyAll [_, _, _, _] ?_⟩
  · simp only [List.forall_mem_cons, Bytes.Misses, hat, length_mbr]
    refine ⟨?_, ?_, ?_, ?_, by simp⟩ <;> omega
  · simp only [List.forall_mem_cons, Bytes.Misses, hat, length_encodeGptHeader]
    refine ⟨?_, by simp⟩
    omega
  · simp only [List.forall_mem_cons, Bytes.Misses, hat, length_encodeGptHeader, length_entryArray]
    refine ⟨?_, ?_, ?_, by simp⟩ <;> omega
  · simp only [List.forall_mem_cons, Bytes.Misses, hat, length_encodeGptHeader, length_entryArray]
    refine ⟨?_, ?_, by simp⟩ <;> omega
  · simp

theorem same_entries_of_holds {f : ℕ → Byte} {guid guid' : Blob 16} {esp root : GptEntry}
    (ht : HoldsTable f n guid guid' esp root) :
    Bytes.window f (sectorAt (tableHeader n guid' esp root (n - 1) 1 (n - 33)).partitionEntryLba)
        ((tableHeader n guid' esp root (n - 1) 1 (n - 33)).numPartitionEntries *
          (tableHeader n guid' esp root (n - 1) 1 (n - 33)).partitionEntrySize) =
      Bytes.window f (sectorAt (tableHeader n guid esp root 1 (n - 1) 2).partitionEntryLba)
        ((tableHeader n guid esp root 1 (n - 1) 2).numPartitionEntries *
          (tableHeader n guid esp root 1 (n - 1) 2).partitionEntrySize) := by
  have hfields : ∀ guid cur alt lba, (tableHeader n guid esp root cur alt lba).partitionEntryLba = lba ∧
      (tableHeader n guid esp root cur alt lba).numPartitionEntries = 128 ∧
      (tableHeader n guid esp root cur alt lba).partitionEntrySize = 128 :=
    fun guid cur alt lba => ⟨rfl, rfl, rfl⟩
  simp only [hfields]
  rw [ht.backupEntries.window_eq (length_entryArray _ _), ht.entries.window_eq (length_entryArray _ _)]

/-- **The table is valid**, and the root goes where the kernel finds it. -/
theorem partitioned_of_success (hsize : n * sectorSize < 2 ^ 63)
    (h : (createGptPartitions s n fs).2 = 0) :
    Partitioned (createGptPartitions s n fs).1.fd.data n
      (tableHeader n (primaryGuid s n fs) (espOf s n fs) (rootOf s n fs) 1 (n - 1) 2)
      (tableHeader n (backupGuid s n fs) (espOf s n fs) (rootOf s n fs) (n - 1) 1 (n - 33)) := by
  have hmin := min_of_success h
  have hmin' : 788480 ≤ n := hmin
  have hsize' : n * 512 < 2 ^ 63 := hsize
  have htable := holdsTable_of_success hsize h
  have hesp := fits_espOf s n fs
  have hroot : (rootOf s n fs).Fits := fits_rootOf hsize
  obtain ⟨hentry0, hentry1⟩ := htable.entry_eq hesp hroot
  have hfirst : (rootOf s n fs).firstLba = rootStartLba := rfl
  have hlast : (rootOf s n fs).lastLba = n - 2048 := rfl
  refine ⟨htable.validGpt (by omega) (by omega) hesp hroot (inUsableRange hmin), ?_, ⟨⟨?_, ?_⟩, ⟨?_, ?_⟩⟩,
    ?_, fun opened src answers i hi => ?_, fun reads answers hdone => ?_⟩
  · exact same_entries_of_holds htable
  · change 0 < 128
    norm_num
  · rw [hentry0]
    change 2048 ≠ 0
    norm_num
  · change 1 < 128
    norm_num
  · rw [hentry1, hfirst]
    norm_num
  · rw [hentry1]
    exact HoldsTable.finds (d := ⟨_, fun _ => true⟩) htable (by omega) (by omega) hesp hroot
      (by rw [hfirst]; norm_num) rfl rfl
  · rw [hentry1, hfirst, hlast]
    exact installTfsRootRaw_inside hmin hsize hi
  · rw [hentry1, hfirst]
    exact installTfsRootRaw_holds hdone

theorem guid_eq_of_sameDisk (hsize : n * sectorSize < 2 ^ 63) (h : (createGptPartitions s n fs).2 = 0)
    (hsame : SameDisk (createGptPartitions s n fs).1.fd.data n) :
    backupGuid s n fs = primaryGuid s n fs := by
  obtain ⟨primary, backup, hp, hguid⟩ := hsame
  have hvalid := (partitioned_of_success hsize h).valid
  have hprimary := hvalid.primary_valid.at_lba.symm.trans hp.valid.primary_valid.at_lba
  have hbackup := hvalid.backup_valid.at_lba.symm.trans hp.valid.backup_valid.at_lba
  rw [← hprimary, ← hbackup] at hguid
  exact hguid

/-- **The table is valid, and its headers name two disks**: on every disk that can be partitioned, with
every root file system, from every state of the generator, and whatever the disk answers. -/
theorem partitioned_not_sameDisk (s : Installer) (n : ℕ) (fs : RootFs) (hsize : n * sectorSize < 2 ^ 63)
    (h : (createGptPartitions s n fs).2 = 0) :
    (∃ primary backup, Partitioned (createGptPartitions s n fs).1.fd.data n primary backup) ∧
      ¬SameDisk (createGptPartitions s n fs).1.fd.data n :=
  ⟨⟨_, _, partitioned_of_success hsize h⟩, fun hsame =>
    generateGuid_ne (buildGptEntries s.rngState n fs).2 (guid_eq_of_sameDisk hsize h hsame)⟩

/-! ### A disk of the smallest size -/

theorem writeLoop_plain (hd : d.answers = []) (p : List Byte) :
    (writeLoop d p).2 = 0 ∧ (writeLoop d p).1.answers = [] := by
  by_cases hp : p = []
  · rw [writeLoop, if_pos hp]
    exact ⟨rfl, hd⟩
  · have hlen : 0 < p.length := List.length_pos_of_ne_nil hp
    have hwrite : d.write p = (⟨Bytes.overlay d.data d.pos p, d.pos + p.length, []⟩, (p.length : ℤ)) := by
      rw [DiskFd.write, hd, List.headD_nil, min_self, if_neg (by omega), Int.toNat_natCast,
        List.take_length, List.tail_nil]
    rw [writeLoop, if_neg hp, hwrite, if_neg (by dsimp only; omega)]
    dsimp only
    rw [Int.toNat_natCast, List.drop_length, writeLoop, if_pos rfl]
    exact ⟨rfl, rfl⟩

theorem writeAllAt_plain (hd : d.answers = []) (hlt : offset < 2 ^ 63) (p : List Byte) :
    (writeAllAt d offset p).2 = 0 ∧ (writeAllAt d offset p).1.answers = [] := by
  have hmod : offset % 2 ^ 64 = offset := Nat.mod_eq_of_lt (hlt.trans (by norm_num))
  have hseek : d.lseek offset = ({ d with pos := offset, answers := [] }, (offset : ℤ)) := by
    rw [DiskFd.lseek, hd, hmod, if_neg (by simpa using hlt)]
    rfl
  rw [writeAllAt, hseek, if_neg (by dsimp only; omega)]
  exact writeLoop_plain rfl p

theorem writeGptHeader_plain (hd : s.fd.answers = []) {primary : Bool}
    (hlba : (gptHeader (generateGuid s.rngState).1 n primary entries).myLba = lba)
    (hlt : lba * sectorSize < 2 ^ 63) :
    (writeGptHeader s n primary entries).2 = 0 ∧
      (writeGptHeader s n primary entries).1.fd.answers = [] := by
  rw [writeGptHeader, hlba]
  exact writeAllAt_plain hd hlt _

/-- **A disk that answers as it is asked is partitioned.** -/
theorem createGptPartitions_plain (hmin : minDiskSectors ≤ n) (hsize : n * sectorSize < 2 ^ 63)
    (hd : s.fd.answers = []) : (createGptPartitions s n fs).2 = 0 := by
  have hlt : ∀ k ≤ n, k * sectorSize < 2 ^ 63 := fun k hk =>
    (Nat.mul_le_mul_right _ hk).trans_lt hsize
  have hmin' : 788480 ≤ n := hmin
  have hnot : ∀ {z : ℤ}, z = 0 → ¬z < 0 := fun hz => not_lt.2 hz.ge
  rw [createGptPartitions, if_neg (not_lt.2 hmin)]
  dsimp only
  rw [← espOf, ← rootOf]
  obtain ⟨hmbr, hd₁⟩ := writeAllAt_plain hd (show 0 < 2 ^ 63 by norm_num) (sysinstallWriteProtectiveMbr n)
  rw [if_neg (hnot hmbr)]
  obtain ⟨harray, hd₂⟩ := writeAllAt_plain hd₁ (hlt 2 (by omega))
    (entryArray (espOf s n fs) (rootOf s n fs))
  rw [if_neg (hnot harray)]
  obtain ⟨hbackupArray, hd₃⟩ := writeAllAt_plain hd₂ (hlt (n - 33) (by omega))
    (entryArray (espOf s n fs) (rootOf s n fs))
  rw [if_neg (hnot hbackupArray)]
  generalize hs : Installer.mk (buildGptEntries s.rngState n fs).2 _ = t
  have hd₄ : t.fd.answers = [] := by rw [← hs]; exact hd₃
  obtain ⟨hheader, hd₅⟩ := writeGptHeader_plain hd₄ (myLba_true _ n _) (hlt 1 (by omega))
  rw [if_neg (hnot hheader)]
  obtain ⟨hbackupHeader, -⟩ := writeGptHeader_plain hd₅ (myLba_false _ n _) (hlt (n - 1) (by omega))
  rw [if_neg (hnot hbackupHeader)]

def fresh : Installer := ⟨0x544e5501, fun _ => 0, 0, []⟩

theorem fresh_success : (createGptPartitions fresh minDiskSectors .tfs).2 = 0 :=
  createGptPartitions_plain le_rfl (by norm_num [sectorSize]) rfl

/-- The smallest disk. -/
theorem partitioned_not_sameDisk_fresh :
    (∃ primary backup, Partitioned (createGptPartitions fresh minDiskSectors .tfs).1.fd.data
      minDiskSectors primary backup) ∧
        ¬SameDisk (createGptPartitions fresh minDiskSectors .tfs).1.fd.data minDiskSectors :=
  partitioned_not_sameDisk fresh minDiskSectors .tfs (by norm_num [sectorSize]) fresh_success

/-- It is partitioned, and its headers name two disks. -/
theorem not_sameDisk : ¬∀ (s : Installer) (n : ℕ) (fs : RootFs), n * sectorSize < 2 ^ 63 →
    (createGptPartitions s n fs).2 = 0 → SameDisk (createGptPartitions s n fs).1.fd.data n := by
  intro hall
  have hsize : minDiskSectors * sectorSize < 2 ^ 63 := by norm_num [sectorSize]
  exact generateGuid_ne (buildGptEntries fresh.rngState minDiskSectors .tfs).2
    (guid_eq_of_sameDisk hsize fresh_success (hall _ _ _ hsize fresh_success))

end Tnu.Sbin
