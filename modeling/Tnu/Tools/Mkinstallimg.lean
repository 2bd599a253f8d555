/-
**The image the installer copies.**

`tools/mkinstallimg.py` builds a disk with two partitions: a FAT32 volume with the boot files, and the root file
system.  The volume is laid out in a `bytearray`, the disk in a file.  A slice of a `bytearray` is a copy of its
bytes, and the summary sector of the volume is filled in through such a slice, so that none of it is in the
image: the signatures and the number of free clusters are missing from the sector and from its copy, whatever
the files are.

Main definitions:

* `buildEspImage`, `writeInstallImage` — the volume with its files, and the disk.

Main results:

* `buildEspImage_front` — **the front of the volume** is what formatting left there;
* `not_validImage` — **no disk that is built is valid**;
* `not_imageLaw` — and one is built.
-/

import Tnu.Lib.Fat32
import Tnu.Tfs.Gpt

set_option autoImplicit false

namespace Tnu.Tools

open Tfs

/-! ### Slices -/

/-- `l[a:b]`. -/
def slice (l : List Byte) (a b : ℕ) : List Byte := (l.take b).drop a

/-- `l[a:b] = data`, where `a` is not behind `b`.  A slice that does not lie in the list is cut to it. -/
def setSlice (l : List Byte) (a b : ℕ) (data : List Byte) : List Byte := l.take a ++ data ++ l.drop b

/-- `struct.pack_into`, of what has been packed; it raises an error when there is no room. -/
def packInto (l : List Byte) (offset : ℕ) (data : List Byte) : Option (List Byte) :=
  if offset + data.length ≤ l.length then some (setSlice l offset (offset + data.length) data) else none

/-- The field `w` bytes wide of `struct.pack`, which raises an error for a number that does not fit. -/
def pack (w n : ℕ) : Option (List Byte) := if n < 256 ^ w then some (Bytes.le w n) else none

/-! ### Numbers and names -/

abbrev espStartLba : ℕ := 2048

abbrev espMinBytes : ℕ := 64 * 1024 * 1024

abbrev espSlackBytes : ℕ := 32 * 1024 * 1024

abbrev espAlignBytes : ℕ := 32 * 1024 * 1024

abbrev rootAlignSectors : ℕ := 2048

abbrev fat32Eoc : ℕ := 0x0ffffff8

def alignUp (value alignment : ℕ) : ℕ := (value + alignment - 1) / alignment * alignment

/-- `math.ceil` of a quotient.  The quotient is a floating-point number, which is exact here: the divisor is a
power of two, and no `bytes` is 2⁵³ long. -/
def ceilDiv (a b : ℕ) : ℕ := (a + b - 1) / b

/-- `str.ljust`. -/
def ljust (text : List Byte) (width : ℕ) (fill : Byte) : List Byte :=
  text ++ List.replicate (width - text.length) fill

/-- `str.upper`, of a letter of ASCII. -/
def upper (c : Byte) : Byte := if 97 ≤ c ∧ c ≤ 122 then c - 32 else c

def shortName (name : List Byte) : Option (List Byte) :=
  let upper := name.map upper
  if upper = lit "." ∨ upper = lit ".." then some (ljust upper 11 32)
  else
    match upper.splitOn 46 with
    | [stem] => some (ljust (stem.take 8) 8 32 ++ ljust [] 3 32)
    | [stem, ext] => some (ljust (stem.take 8) 8 32 ++ ljust (ext.take 3) 3 32)
    | _ => none

/-! ### The volume -/

/-- `Fat32Image`. -/
structure Fat32Image where
  image : List Byte
  totalSectors : ℕ
  sectorsPerCluster : ℕ
  fatSectors : ℕ
  fat : List ℕ
  nextFreeCluster : ℕ

namespace Fat32Image

/-- `self.reserved`. -/
abbrev reserved : ℕ := 32

/-- `self.fat_count`. -/
abbrev fatCount : ℕ := 2

/-- `self.root_cluster`. -/
abbrev rootCluster : ℕ := 2

def trialFatSectors (clusters : ℕ) : ℕ := ((clusters + 2) * 4 + sectorSize - 1) / sectorSize

/-- The number of clusters that are this many sectors large, when there is room for the tables. -/
def trialClusters (totalSectors candidate : ℕ) : ℕ :=
  (totalSectors - reserved - fatCount * trialFatSectors (totalSectors / candidate)) / candidate

def chooseCluster (totalSectors : ℕ) : Option ℕ :=
  [1, 2, 4, 8, 16, 32, 64, 128].find? fun candidate =>
    65525 ≤ trialClusters totalSectors candidate ∧ trialClusters totalSectors candidate ≤ 0x0ffffff5

/-- The fields of the parameter block, as `_format_bpb` packs them. -/
def bpb (f : Fat32Image) (label totalSectors fatSectors : List Byte) : List (List Byte) :=
  [[0xeb, 0x58, 0x90], lit "TIRAMISU", Bytes.le 2 sectorSize, Bytes.le 1 f.sectorsPerCluster, Bytes.le 2 reserved,
    Bytes.le 1 fatCount, Bytes.le 2 0, Bytes.le 2 0, [0xf8], Bytes.le 2 0, Bytes.le 2 63, Bytes.le 2 255, Bytes.le 4 0,
    totalSectors, fatSectors, Bytes.le 2 0, Bytes.le 2 0, Bytes.le 4 rootCluster, Bytes.le 2 1, Bytes.le 2 6,
    List.replicate 12 0, [0x80, 0, 0x29], Bytes.le 4 0x544e5531, ljust ((label.map upper).take 11) 11 32,
    lit "FAT32   "]

/-- What `_format_bpb` packs into `fsinfo`. -/
def packFsinfo (f : Fat32Image) (fsinfo : List Byte) : Option (List Byte) := do
  let fsinfo ← packInto fsinfo 0 (Bytes.le 4 0x41615252)
  let fsinfo ← packInto fsinfo 484 (Bytes.le 4 0x61417272)
  let fsinfo ← packInto fsinfo 488 (← pack 4 (f.fat.length - 3))
  let fsinfo ← packInto fsinfo 492 (← pack 4 f.nextFreeCluster)
  packInto fsinfo 508 (Bytes.le 4 0xaa550000)

def copyFsinfo (image : List Byte) : List Byte :=
  setSlice image (7 * sectorSize) (8 * sectorSize) (slice image sectorSize (2 * sectorSize))

def formatBpb (f : Fat32Image) (label : List Byte) : Option Fat32Image := do
  let image ← packInto f.image 0 (f.bpb label (← pack 4 f.totalSectors) (← pack 4 f.fatSectors)).flatten
  let image := setSlice image 510 512 [0x55, 0xaa]
  -- The slice is a copy: what is packed into it goes nowhere.
  let _fsinfo ← f.packFsinfo (slice image sectorSize (sectorSize * 2))
  let image := setSlice image (6 * sectorSize) (7 * sectorSize) (slice image 0 sectorSize)
  pure { f with image := copyFsinfo image }

/-- `Fat32Image.__init__`. -/
def init (sizeBytes : ℕ) (label : List Byte) : Option Fat32Image :=
  if sizeBytes < 32 * 1024 * 1024 then none
  else
    let totalSectors := sizeBytes / sectorSize
    (chooseCluster totalSectors).bind fun candidate =>
      let clusters := trialClusters totalSectors candidate
      formatBpb
        { image := List.replicate sizeBytes 0, totalSectors, sectorsPerCluster := candidate
          fatSectors := trialFatSectors clusters
          fat := (((List.replicate (clusters + 2) 0).set 0 0x0ffffff8).set 1 0x0fffffff).set rootCluster fat32Eoc
          nextFreeCluster := rootCluster + 1 } label

/-- `self.cluster_bytes`. -/
def clusterBytes (f : Fat32Image) : ℕ := f.sectorsPerCluster * sectorSize

/-- `self.data_start_sector`. -/
def dataStartSector (f : Fat32Image) : ℕ := reserved + fatCount * f.fatSectors

/-- `cluster_offset`; the clusters are numbered from 2 on. -/
def clusterOffset (f : Fat32Image) (cluster : ℕ) : ℕ :=
  (f.dataStartSector + (cluster - 2) * f.sectorsPerCluster) * sectorSize

/-- The clusters that `allocate_chain` takes. -/
def clustersNeeded (f : Fat32Image) (byteCount : ℕ) : ℕ := max 1 (ceilDiv byteCount f.clusterBytes)

def allocateChain (f : Fat32Image) (byteCount : ℕ) : Option (ℕ × Fat32Image) :=
  let first := f.nextFreeCluster
  let last := first + f.clustersNeeded byteCount
  if f.fat.length < last then none
  else
    let link := fun (fat : List ℕ) (cluster : ℕ) => fat.set cluster (if cluster + 1 < last then cluster + 1 else fat32Eoc)
    some (first, { f with
      fat := (List.range' first (f.clustersNeeded byteCount)).foldl link f.fat, nextFreeCluster := last })

/-- The cluster with the first bytes of the data, and zeros behind them. -/
def writeCluster (f : Fat32Image) (image : List Byte) (cluster : ℕ) (data : List Byte) : List Byte :=
  let chunk := data.take f.clusterBytes
  let offset := f.clusterOffset cluster
  let image := setSlice image offset (offset + chunk.length) chunk
  if chunk.length < f.clusterBytes then
    setSlice image (offset + chunk.length) (offset + f.clusterBytes)
      (List.replicate (f.clusterBytes - chunk.length) 0)
  else image

/-- The loop of `write_chain`: the image, and what is left of the data. -/
def writeChainLoop (f : Fat32Image) : ℕ → List Byte → ℕ → List Byte → Option (List Byte × List Byte)
  | 0, _, _, _ => none
  | fuel + 1, image, cluster, remaining =>
    let image := f.writeCluster image cluster remaining
    let remaining := remaining.drop f.clusterBytes
    f.fat[cluster]?.bind fun nextCluster =>
      if fat32Eoc ≤ nextCluster then some (image, remaining)
      else writeChainLoop f fuel image nextCluster remaining

/-- `write_chain`.  A link leads to a later cluster, so that no chain is longer than the table. -/
def writeChain (f : Fat32Image) (firstCluster : ℕ) (data : List Byte) : Option Fat32Image :=
  (f.writeChainLoop f.fat.length f.image firstCluster data).bind fun r =>
    if r.2 = [] then some { f with image := r.1 } else none

def makeEntry (name : List Byte) (attr : Byte) (cluster size : ℕ) : Option (List Byte) := do
  let name ← shortName name
  let size ← pack 4 size
  pure (name ++ [attr] ++ List.replicate 8 0 ++ Bytes.le 2 (cluster / 2 ^ 16) ++ List.replicate 4 0 ++
    Bytes.le 2 cluster ++ size)

/-- The two entries at the start of a directory that is in another one. -/
def dotEntries (cluster : ℕ) : Option ℕ → Option (List Byte)
  | none => some []
  | some parent => do pure ((← makeEntry (lit ".") 0x10 cluster 0) ++ (← makeEntry (lit "..") 0x10 parent 0))

def writeDirectory (f : Fat32Image) (cluster : ℕ) (entries : List (List Byte)) (parentCluster : Option ℕ) :
    Option Fat32Image := do
  let payload := (← dotEntries cluster parentCluster) ++ entries.flatten ++ List.replicate 32 0
  if f.clustersNeeded payload.length ≠ 1 then none else f.writeChain cluster payload

def writeFats (f : Fat32Image) : List Byte :=
  (List.range fatCount).foldl (fun image fatIndex =>
    let fatBytes := f.fat.flatMap fun v => Bytes.le 4 (v % 2 ^ 28)
    let offset := (reserved + fatIndex * f.fatSectors) * sectorSize
    setSlice image offset (offset + fatBytes.length) fatBytes) f.image

def finalize (f : Fat32Image) : Option (List Byte) := do
  let image ← packInto f.writeFats (sectorSize + 492) (← pack 4 f.nextFreeCluster)
  pure (copyFsinfo image)

def addFile (f : Fat32Image) (data : List Byte) : Option (ℕ × Fat32Image) := do
  let (cluster, f) ← f.allocateChain data.length
  pure (cluster, ← f.writeChain cluster data)

end Fat32Image

/-- What the image is made of. -/
structure Payloads where
  efiBoot : List Byte
  kernel : List Byte
  rootfs : List Byte
  grubCfg : List Byte
  grubFont : List Byte

def espSize (p : Payloads) : ℕ :=
  let payloadBytes := p.efiBoot.length + p.kernel.length + p.grubCfg.length + p.grubFont.length
  max espMinBytes (alignUp (payloadBytes + espSlackBytes) espAlignBytes)

open Fat32Image in
def buildEspImage (p : Payloads) : Option (List Byte) := do
  let fat ← init (espSize p) (lit "TIRAMISU")
  let (bootx64, fat) ← fat.addFile p.efiBoot
  let (kernel, fat) ← fat.addFile p.kernel
  let (grubCfg, fat) ← fat.addFile p.grubCfg
  let (unicode, fat) ← fat.addFile p.grubFont
  let (fontsDir, fat) ← fat.allocateChain fat.clusterBytes
  let (grubDir, fat) ← fat.allocateChain fat.clusterBytes
  let (bootDir, fat) ← fat.allocateChain fat.clusterBytes
  let (efiBootDir, fat) ← fat.allocateChain fat.clusterBytes
  let (efiDir, fat) ← fat.allocateChain fat.clusterBytes
  let fat ← fat.writeDirectory fontsDir [← makeEntry (lit "UNICODE.PF2") 0x20 unicode p.grubFont.length]
    (some grubDir)
  let fat ← fat.writeDirectory grubDir [← makeEntry (lit "GRUB.CFG") 0x20 grubCfg p.grubCfg.length,
    ← makeEntry (lit "FONTS") 0x10 fontsDir 0] (some bootDir)
  let fat ← fat.writeDirectory bootDir [← makeEntry (lit "KERNEL.ELF") 0x20 kernel p.kernel.length,
    ← makeEntry (lit "GRUB") 0x10 grubDir 0] (some rootCluster)
  let fat ← fat.writeDirectory efiBootDir [← makeEntry (lit "BOOTX64.EFI") 0x20 bootx64 p.efiBoot.length]
    (some efiDir)
  let fat ← fat.writeDirectory efiDir [← makeEntry (lit "BOOT") 0x10 efiBootDir 0] (some rootCluster)
  let fat ← fat.writeDirectory rootCluster [← makeEntry (lit "EFI") 0x10 efiDir 0,
    ← makeEntry (lit "BOOT") 0x10 bootDir 0] none
  fat.finalize

/-! ### The disk -/

abbrev gptEntryCount : ℕ := 128

abbrev gptEntryArraySectors : ℕ := gptEntryCount * gptEntrySize / sectorSize

def guidEfiSystem : List Byte :=
  [0x28, 0x73, 0x2a, 0xc1, 0x1f, 0xf8, 0xd2, 0x11, 0xba, 0x4b, 0x00, 0xa0, 0xc9, 0x3e, 0xc9, 0x3b]

def guidTiramisuFs : List Byte :=
  [0x54, 0x4e, 0x55, 0x00, 0x13, 0x37, 0x42, 0x42, 0x80, 0x86, 0x54, 0x49, 0x52, 0x41, 0x4d, 0x49]

/-- `utf16_name`, of a name in ASCII. -/
def utf16Name (name : List Byte) : List Byte := ljust ((name.flatMap fun c => [c, 0]).take 72) 72 0

def crc32 (data : List Byte) : ℕ := (Crc.check crc32Poly data).toNat

def protectiveMbr (totalSectors : ℕ) : Option (List Byte) := do
  let mbr := (List.replicate sectorSize 0).set (446 + 4) 0xee
  let mbr ← packInto mbr (446 + 8) (Bytes.le 4 1)
  let mbr ← packInto mbr (446 + 12) (Bytes.le 4 (min (totalSectors - 1) 0xffffffff))
  pure (setSlice mbr 510 512 [0x55, 0xaa])

def setEntry (entries : List Byte) (index : ℕ) (typeGuid partitionGuid : List Byte) (firstLba lastLba : ℕ)
    (name : List Byte) : Option (List Byte) := do
  let offset := index * gptEntrySize
  let entries := setSlice entries offset (offset + 16) typeGuid
  let entries := setSlice entries (offset + 16) (offset + 32) partitionGuid
  let entries ← packInto entries (offset + 32) ((← pack 8 firstLba) ++ (← pack 8 lastLba) ++ Bytes.le 8 0)
  pure (setSlice entries (offset + 56) (offset + 128) (utf16Name name))

/-- The three results of `uuid.uuid4`. -/
structure Uuids where
  esp : Blob 16
  root : Blob 16
  disk : Blob 16

def buildPartitionEntries (u : Uuids) (espFirst espLast rootFirst rootLast : ℕ) : Option (List Byte) := do
  let entries := List.replicate (gptEntryCount * gptEntrySize) 0
  let entries ← setEntry entries 0 guidEfiSystem u.esp.toList espFirst espLast (lit "EFI System")
  setEntry entries 1 guidTiramisuFs u.root.toList rootFirst rootLast (lit "Tiramisu Root")

def buildGptHeader (currentLba backupLba firstUsable lastUsable partitionEntryLba : ℕ) (entries diskGuid : List Byte) :
    Option (List Byte) := do
  let header ← packInto (List.replicate sectorSize 0) 0
    (gptSignature ++ Bytes.le 4 0x10000 ++ Bytes.le 4 92 ++ Bytes.le 4 0 ++ Bytes.le 4 0 ++ (← pack 8 currentLba) ++
      (← pack 8 backupLba) ++ (← pack 8 firstUsable) ++ (← pack 8 lastUsable) ++ diskGuid ++
      (← pack 8 partitionEntryLba) ++ Bytes.le 4 gptEntryCount ++ Bytes.le 4 gptEntrySize ++ Bytes.le 4 (crc32 entries))
  let header ← packInto header 16 (Bytes.le 4 0)
  packInto header 16 (Bytes.le 4 (crc32 (header.take 92)))

/-- Where things lie on the disk, when the volume and the root file system have these sizes. -/
structure Layout where
  espLast : ℕ
  rootFirst : ℕ
  rootLast : ℕ
  totalSectors : ℕ
  backupEntriesLba : ℕ
  firstUsable : ℕ
  lastUsable : ℕ

/-- The arithmetic of `write_install_image`. -/
def layout (espBytes rootfsBytes : ℕ) : Layout :=
  let espLast := espStartLba + espBytes / sectorSize - 1
  let rootFirst := alignUp (espLast + 1) rootAlignSectors
  let rootLast := rootFirst + ceilDiv rootfsBytes sectorSize - 1
  let totalSectors := rootLast + gptEntryArraySectors + 2
  let backupEntriesLba := totalSectors - gptEntryArraySectors - 1
  { espLast, rootFirst, rootLast, totalSectors, backupEntriesLba
    firstUsable := 2 + gptEntryArraySectors
    lastUsable := backupEntriesLba - 1 }

/-- `write_install_image`: the bytes of the file, and the number of its sectors.  What is not written is zero. -/
def writeInstallImage (u : Uuids) (p : Payloads) : Option ((ℕ → Byte) × ℕ) := do
  let espImage ← buildEspImage p
  let l := layout espImage.length p.rootfs.length
  let entries ← buildPartitionEntries u espStartLba l.espLast l.rootFirst l.rootLast
  let primaryHeader ← buildGptHeader 1 (l.totalSectors - 1) l.firstUsable l.lastUsable 2 entries u.disk.toList
  let backupHeader ← buildGptHeader (l.totalSectors - 1) 1 l.firstUsable l.lastUsable l.backupEntriesLba entries
    u.disk.toList
  let mbr ← protectiveMbr l.totalSectors
  pure (Bytes.copyAll (fun _ => 0) [(0, mbr), (sectorSize, primaryHeader), (2 * sectorSize, entries),
    (espStartLba * sectorSize, espImage), (l.rootFirst * sectorSize, p.rootfs), (l.backupEntriesLba * sectorSize, entries),
    ((l.totalSectors - 1) * sectorSize, backupHeader)], l.totalSectors)

/-! ### What the disk should be -/

def partitionStore (data : ℕ → Byte) (e : GptEntry) : ℕ → Byte := fun i => data (sectorAt e.firstLba + i)

def recordNames (path : List (List Byte)) : List (List Byte) := path.filterMap shortName

/-- **The disk should be** valid, its first partition a consistent volume with the files, and the root file system should
begin where the kernel finds it. -/
structure ValidImage (p : Payloads) (data : ℕ → Byte) (totalSectors : ℕ) (primary backup : GptHeader) : Prop where
  gpt : ValidGpt data totalSectors primary backup
  volume : Fat32.Consistent (partitionStore data (primary.entry data 0))
    ((primary.entry data 0).lastLba + 1 - (primary.entry data 0).firstLba)
  efi_boot : Fat32.ReadsAs (partitionStore data (primary.entry data 0))
    (recordNames [lit "EFI", lit "BOOT", lit "BOOTX64.EFI"]) p.efiBoot
  kernel : Fat32.ReadsAs (partitionStore data (primary.entry data 0))
    (recordNames [lit "BOOT", lit "KERNEL.ELF"]) p.kernel
  grub_cfg : Fat32.ReadsAs (partitionStore data (primary.entry data 0))
    (recordNames [lit "BOOT", lit "GRUB", lit "GRUB.CFG"]) p.grubCfg
  grub_font : Fat32.ReadsAs (partitionStore data (primary.entry data 0))
    (recordNames [lit "BOOT", lit "GRUB", lit "FONTS", lit "UNICODE.PF2"]) p.grubFont
  root : ∃ lba, gptFindRootLba ⟨data, fun i => decide (i < totalSectors)⟩ = some lba ∧
    Bytes.Holds data (sectorAt lba) p.rootfs

/-! ### The front of the volume -/

variable {image image' data : List Byte} {a b n : ℕ} {f f' : Fat32Image} {c : ℕ}

/-- **The front of a volume whose summary sector is empty**: the fields that lead to it, and its first four bytes. -/
structure BlankSummary (image : List Byte) : Prop where
  length : 2 * sectorSize ≤ image.length
  bytesPerSector : slice image 11 13 = Bytes.le 2 sectorSize
  infoSector : slice image 48 50 = Bytes.le 2 1
  lead : slice image 512 516 = Bytes.le 4 0

theorem take_setSlice (hn : n ≤ a) (hlen : n ≤ image.length) : (setSlice image a b data).take n = image.take n := by
  have hfront : n ≤ (image.take a).length := by
    rw [List.length_take]
    exact le_min hn hlen
  rw [setSlice, List.append_assoc, List.take_append_of_le_length hfront, List.take_take, min_eq_left hn]

theorem slice_of_take (h : image'.take n = image.take n) (hb : b ≤ n) : slice image' a b = slice image a b := by
  have htake : ∀ l : List Byte, l.take b = (l.take n).take b := fun l => by rw [List.take_take, min_eq_left hb]
  rw [slice, slice, htake image', htake image, h]

theorem BlankSummary.congr (h : BlankSummary image) (htake : image'.take 516 = image.take 516)
    (hlen : 2 * sectorSize ≤ image'.length) : BlankSummary image' := by
  refine ⟨hlen, ?_, ?_, ?_⟩
  · rw [slice_of_take htake (by decide), h.bytesPerSector]
  · rw [slice_of_take htake (by decide), h.infoSector]
  · rw [slice_of_take htake le_rfl, h.lead]

theorem BlankSummary.setSlice (h : BlankSummary image) (ha : 2 * sectorSize ≤ a) :
    BlankSummary (setSlice image a b data) := by
  have hlen : 2 * sectorSize ≤ (Tools.setSlice image a b data).length := by
    have hfront : 2 * sectorSize ≤ (image.take a).length := by
      rw [List.length_take]
      exact le_min ha h.length
    rw [Tools.setSlice, List.append_assoc, List.length_append]
    exact hfront.trans (Nat.le_add_right _ _)
  have hfront : 516 ≤ 2 * sectorSize := by decide
  exact h.congr (take_setSlice (hfront.trans ha) (hfront.trans h.length)) hlen

theorem length_setSlice (hb : a + data.length = b) (h : b ≤ image.length) :
    (setSlice image a b data).length = image.length := by
  simp only [setSlice, List.length_append, List.length_take, List.length_drop]
  omega

theorem packInto_eq (h : packInto image a data = some image') :
    a + data.length ≤ image.length ∧ image' = setSlice image a (a + data.length) data := by
  rw [packInto] at h
  split at h
  · exact ⟨‹_›, (Option.some.inj h).symm⟩
  · cases h

theorem BlankSummary.packInto (h : BlankSummary image) (ha : 516 ≤ a) (hpack : packInto image a data = some image') :
    BlankSummary image' := by
  obtain ⟨hroom, rfl⟩ := packInto_eq hpack
  have hfront : 516 ≤ 2 * sectorSize := by decide
  refine h.congr (take_setSlice ha (hfront.trans h.length)) ?_
  rw [length_setSlice rfl hroom]
  exact h.length

theorem BlankSummary.copyFsinfo (h : BlankSummary image) : BlankSummary (Fat32Image.copyFsinfo image) :=
  h.setSlice (by decide)

theorem le_clusterOffset (f : Fat32Image) (c : ℕ) : 2 * sectorSize ≤ f.clusterOffset c := by
  have hreserved : 2 ≤ f.dataStartSector := (by decide : 2 ≤ Fat32Image.reserved).trans (Nat.le_add_right _ _)
  exact Nat.mul_le_mul_right _ (hreserved.trans (Nat.le_add_right _ _))

theorem BlankSummary.writeCluster (h : BlankSummary image) (f : Fat32Image) (c : ℕ) (data : List Byte) :
    BlankSummary (f.writeCluster image c data) := by
  have hoffset := le_clusterOffset f c
  have hchunk : BlankSummary (Tools.setSlice image (f.clusterOffset c)
      (f.clusterOffset c + (data.take f.clusterBytes).length) (data.take f.clusterBytes)) := h.setSlice hoffset
  simp only [Fat32Image.writeCluster]
  split
  · exact hchunk.setSlice (hoffset.trans (Nat.le_add_right _ _))
  · exact hchunk

theorem BlankSummary.writeChainLoop {fuel : ℕ} {r : List Byte × List Byte} (h : BlankSummary image)
    (hloop : f.writeChainLoop fuel image c data = some r) : BlankSummary r.1 := by
  induction fuel generalizing image c data with
  | zero => cases hloop
  | succ fuel ih =>
    rw [Fat32Image.writeChainLoop, Option.bind_eq_some_iff] at hloop
    obtain ⟨nextCluster, -, hnext⟩ := hloop
    split at hnext
    · rw [← Option.some.inj hnext]
      exact h.writeCluster f c data
    · exact ih (h.writeCluster f c data) hnext

theorem BlankSummary.writeChain (h : BlankSummary f.image) (hwrite : f.writeChain c data = some f') :
    BlankSummary f'.image := by
  rw [Fat32Image.writeChain, Option.bind_eq_some_iff] at hwrite
  obtain ⟨r, hloop, hr⟩ := hwrite
  split at hr
  · rw [← Option.some.inj hr]
    exact h.writeChainLoop hloop
  · cases hr

theorem image_of_allocateChain (h : f.allocateChain n = some (c, f')) : f'.image = f.image := by
  rw [Fat32Image.allocateChain] at h
  dsimp only at h
  split at h
  · cases h
  · obtain ⟨-, rfl⟩ := Prod.mk.inj (Option.some.inj h)
    rfl

theorem BlankSummary.addFile (h : BlankSummary f.image) (hadd : f.addFile data = some (c, f')) :
    BlankSummary f'.image := by
  simp only [Fat32Image.addFile, Option.bind_eq_bind, Option.bind_eq_some_iff, Prod.exists, Option.pure_def,
    Option.some.injEq, Prod.mk.injEq] at hadd
  obtain ⟨cluster, f₁, hallocate, f₂, hwrite, -, rfl⟩ := hadd
  rw [← image_of_allocateChain hallocate] at h
  exact h.writeChain hwrite

theorem BlankSummary.writeDirectory {entries : List (List Byte)} {parent : Option ℕ} (h : BlankSummary f.image)
    (hwrite : f.writeDirectory c entries parent = some f') : BlankSummary f'.image := by
  simp only [Fat32Image.writeDirectory, Option.bind_eq_bind, Option.bind_eq_some_iff] at hwrite
  obtain ⟨dots, -, hwrite⟩ := hwrite
  split at hwrite
  · cases hwrite
  · exact h.writeChain hwrite

theorem BlankSummary.writeFats (h : BlankSummary f.image) : BlankSummary f.writeFats := by
  have hoffset : ∀ k, 2 * sectorSize ≤ (Fat32Image.reserved + k * f.fatSectors) * sectorSize := fun k =>
    Nat.mul_le_mul_right _ ((by decide : 2 ≤ Fat32Image.reserved).trans (Nat.le_add_right _ _))
  have htwo : List.range Fat32Image.fatCount = [0, 1] := rfl
  rw [Fat32Image.writeFats, htwo, List.foldl_cons, List.foldl_cons, List.foldl_nil]
  exact (h.setSlice (hoffset 0)).setSlice (hoffset 1)

theorem BlankSummary.finalize (h : BlankSummary f.image) (hfinal : f.finalize = some image) : BlankSummary image := by
  simp only [Fat32Image.finalize, Option.bind_eq_bind, Option.bind_eq_some_iff, Option.pure_def, Option.some.injEq]
    at hfinal
  obtain ⟨next, -, packed, hpack, rfl⟩ := hfinal
  exact (h.writeFats.packInto (by decide) hpack).copyFsinfo

theorem slice_append (front l rest : List Byte) :
    slice (front ++ (l ++ rest)) front.length (front.length + l.length) = l := by
  rw [slice, ← List.append_assoc, ← List.length_append, List.take_left, List.drop_left]

variable {l label entries diskGuid typeGuid partitionGuid : List Byte} {p : Payloads}
  {i j k w espLast lastLba espFirst firstLba rootLast backupLba rootFirst currentLba lastUsable firstUsable partitionEntryLba : ℕ}
  {store : ℕ → Byte}

theorem pack_eq (h : pack w k = some l) : l = Bytes.le w k := by
  rw [pack] at h
  split at h
  · exact (Option.some.inj h).symm
  · cases h

theorem length_pack (h : pack w k = some l) : l.length = w := by
  rw [pack_eq h, Bytes.length_le]

namespace Fat32Image

theorem bpb_bytesPerSector (f : Fat32Image) (label total fats : List Byte) :
    ∃ front rest, (f.bpb label total fats).flatten = front ++ (Bytes.le 2 sectorSize ++ rest) ∧ front.length = 11 := by
  refine ⟨[[0xeb, 0x58, 0x90], lit "TIRAMISU"].flatten, ((f.bpb label total fats).drop 3).flatten, ?_, by decide⟩
  rw [← List.flatten_cons, ← List.flatten_append]
  rfl

variable {fats total : List Byte}

theorem bpb_infoSector (f : Fat32Image) (label : List Byte) (htotal : total.length = 4)
    (hfats : fats.length = 4) :
    ∃ front rest, (f.bpb label total fats).flatten = front ++ (Bytes.le 2 1 ++ rest) ∧ front.length = 48 := by
  refine ⟨[[0xeb, 0x58, 0x90], lit "TIRAMISU", Bytes.le 2 sectorSize, Bytes.le 1 f.sectorsPerCluster,
    Bytes.le 2 reserved, Bytes.le 1 fatCount, Bytes.le 2 0, Bytes.le 2 0, [0xf8], Bytes.le 2 0, Bytes.le 2 63,
    Bytes.le 2 255, Bytes.le 4 0, total, fats, Bytes.le 2 0, Bytes.le 2 0, Bytes.le 4 rootCluster].flatten,
    ((f.bpb label total fats).drop 19).flatten, ?_, ?_⟩
  · rw [← List.flatten_cons, ← List.flatten_append]
    rfl
  · have hname : (lit "TIRAMISU").length = 8 := by decide
    simp only [List.flatten_cons, List.flatten_nil, List.length_append, Bytes.length_le, htotal, hfats, hname,
      List.length_cons, List.length_nil]

theorem length_bpb (f : Fat32Image) (label : List Byte) (htotal : total.length = 4)
    (hfats : fats.length = 4) : (f.bpb label total fats).flatten.length = 90 := by
  have hname : (lit "TIRAMISU").length = 8 := by decide
  have hsystem : (lit "FAT32   ").length = 8 := by decide
  have hlabel : (ljust ((label.map upper).take 11) 11 32).length = 11 := by
    rw [ljust, List.length_append, List.length_replicate, List.length_take]
    exact Nat.add_sub_cancel' (min_le_left _ _)
  simp only [bpb, List.flatten_cons, List.flatten_nil, List.length_append, Bytes.length_le, htotal, hfats, hname, hsystem,
    hlabel, List.length_cons, List.length_nil, List.length_replicate]

end Fat32Image

/-- **A volume that has been formatted** has nothing in its summary sector. -/
theorem blankSummary_formatBpb {m : ℕ} (hzero : f.image = List.replicate m 0)
    (hm : 2 * sectorSize ≤ m) (hformat : f.formatBpb label = some f') : BlankSummary f'.image := by
  simp only [Fat32Image.formatBpb, Option.bind_eq_bind, Option.bind_eq_some_iff, Option.pure_def,
    Option.some.injEq] at hformat
  obtain ⟨total, htotal, fats, hfats, packed, hpack, fsinfo, -, rfl⟩ := hformat
  obtain ⟨hroom, rfl⟩ := packInto_eq hpack
  obtain ⟨front, rest, hsector, hfront⟩ := f.bpb_bytesPerSector label total fats
  obtain ⟨front', rest', hinfo, hfront'⟩ := f.bpb_infoSector label (length_pack htotal) (length_pack hfats)
  have hbpb := f.length_bpb label (length_pack htotal) (length_pack hfats)
  generalize (f.bpb label total fats).flatten = block at *
  have hblock : setSlice f.image 0 (0 + block.length) block = block ++ List.replicate (m - 90) 0 := by
    rw [setSlice, hbpb, hzero, List.take_zero, List.nil_append, List.drop_replicate]
  rw [hblock]
  have hlong : 1024 ≤ m := hm
  have htake : ∀ l : List Byte, (setSlice (block ++ List.replicate (m - 90) 0) 510 512 l).take 510 =
      (block ++ List.replicate (m - 90) 0).take 510 := fun l =>
    take_setSlice le_rfl (by rw [List.length_append, List.length_replicate, hbpb]; omega)
  have hdrop : (block ++ List.replicate (m - 90) (0 : Byte)).drop 512 =
      Bytes.le 4 0 ++ List.replicate (m - 516) 0 := by
    have hzeros : Bytes.le 4 0 = List.replicate 4 0 := by decide
    have hcount : m - 90 - (512 - 90) = 4 + (m - 516) := by omega
    rw [List.drop_append, List.drop_eq_nil_of_le (by omega), hbpb, List.nil_append, List.drop_replicate, hzeros,
      List.replicate_append_replicate, hcount]
  refine BlankSummary.copyFsinfo (BlankSummary.setSlice ⟨?_, ?_, ?_, ?_⟩ (by decide))
  · simp only [setSlice, List.length_append, List.length_take, List.length_drop, List.length_replicate, hbpb,
      List.length_cons, List.length_nil]
    omega
  · rw [slice_of_take (htake _) (by decide), hsector, List.append_assoc, List.append_assoc]
    have hslice := slice_append front (Bytes.le 2 sectorSize) (rest ++ List.replicate (m - 90) 0)
    rwa [hfront, Bytes.length_le] at hslice
  · rw [slice_of_take (htake _) (by decide), hinfo, List.append_assoc, List.append_assoc]
    have hslice := slice_append front' (Bytes.le 2 1) (rest' ++ List.replicate (m - 90) 0)
    rwa [hfront', Bytes.length_le] at hslice
  · rw [setSlice, hdrop]
    have hslice := slice_append ((block ++ List.replicate (m - 90) 0).take 510 ++ [0x55, 0xaa])
      (Bytes.le 4 0) (List.replicate (m - 516) 0)
    have hlength : ((block ++ List.replicate (m - 90) (0 : Byte)).take 510 ++ [0x55, 0xaa]).length =
        512 := by
      simp only [List.length_append, List.length_take, List.length_replicate, hbpb, List.length_cons, List.length_nil]
      omega
    rwa [hlength, Bytes.length_le] at hslice

theorem blankSummary_init {size : ℕ} (h : Fat32Image.init size label = some f) :
    BlankSummary f.image := by
  rw [Fat32Image.init] at h
  split at h
  · cases h
  · have hsize : 32 * 1024 * 1024 ≤ size := Nat.not_lt.mp ‹_›
    obtain ⟨candidate, -, hformat⟩ := Option.bind_eq_some_iff.mp h
    exact blankSummary_formatBpb rfl ((by decide : 2 * sectorSize ≤ 32 * 1024 * 1024).trans hsize) hformat

/-- **The front of the volume** is what formatting left there. -/
theorem buildEspImage_front (h : buildEspImage p = some image) : BlankSummary image := by
  rw [buildEspImage] at h
  obtain ⟨f₀, h₀, h⟩ := Option.bind_eq_some_iff.mp h
  obtain ⟨⟨c₁, f₁⟩, h₁, h⟩ := Option.bind_eq_some_iff.mp h
  obtain ⟨⟨c₂, f₂⟩, h₂, h⟩ := Option.bind_eq_some_iff.mp h
  obtain ⟨⟨c₃, f₃⟩, h₃, h⟩ := Option.bind_eq_some_iff.mp h
  obtain ⟨⟨c₄, f₄⟩, h₄, h⟩ := Option.bind_eq_some_iff.mp h
  obtain ⟨⟨c₅, f₅⟩, h₅, h⟩ := Option.bind_eq_some_iff.mp h
  obtain ⟨⟨c₆, f₆⟩, h₆, h⟩ := Option.bind_eq_some_iff.mp h
  obtain ⟨⟨c₇, f₇⟩, h₇, h⟩ := Option.bind_eq_some_iff.mp h
  obtain ⟨⟨c₈, f₈⟩, h₈, h⟩ := Option.bind_eq_some_iff.mp h
  obtain ⟨⟨c₉, f₉⟩, h₉, h⟩ := Option.bind_eq_some_iff.mp h
  obtain ⟨e₁, -, h⟩ := Option.bind_eq_some_iff.mp h
  obtain ⟨g₁, k₁, h⟩ := Option.bind_eq_some_iff.mp h
  obtain ⟨e₂, -, h⟩ := Option.bind_eq_some_iff.mp h
  obtain ⟨e₃, -, h⟩ := Option.bind_eq_some_iff.mp h
  obtain ⟨g₂, k₂, h⟩ := Option.bind_eq_some_iff.mp h
  obtain ⟨e₄, -, h⟩ := Option.bind_eq_some_iff.mp h
  obtain ⟨e₅, -, h⟩ := Option.bind_eq_some_iff.mp h
  obtain ⟨g₃, k₃, h⟩ := Option.bind_eq_some_iff.mp h
  obtain ⟨e₆, -, h⟩ := Option.bind_eq_some_iff.mp h
  obtain ⟨g₄, k₄, h⟩ := Option.bind_eq_some_iff.mp h
  obtain ⟨e₇, -, h⟩ := Option.bind_eq_some_iff.mp h
  obtain ⟨g₅, k₅, h⟩ := Option.bind_eq_some_iff.mp h
  obtain ⟨e₈, -, h⟩ := Option.bind_eq_some_iff.mp h
  obtain ⟨e₉, -, h⟩ := Option.bind_eq_some_iff.mp h
  obtain ⟨g₆, k₆, hfinal⟩ := Option.bind_eq_some_iff.mp h
  have hfiles := ((((blankSummary_init h₀).addFile h₁).addFile h₂).addFile h₃).addFile h₄
  have hdirs : BlankSummary f₉.image := by
    rw [image_of_allocateChain h₉, image_of_allocateChain h₈, image_of_allocateChain h₇, image_of_allocateChain h₆,
      image_of_allocateChain h₅]
    exact hfiles
  have hwritten := (((((hdirs.writeDirectory k₁).writeDirectory k₂).writeDirectory k₃).writeDirectory k₄).writeDirectory
    k₅).writeDirectory k₆
  exact hwritten.finalize hfinal

/-! ### The tables on the disk -/

theorem drop_setSlice (h : a + data.length ≤ image.length) (hn : a + data.length ≤ n) :
    (setSlice image a (a + data.length) data).drop n = image.drop n := by
  have hfront : (image.take a ++ data).length = a + data.length := by
    rw [List.length_append, List.length_take_of_le (by omega)]
  rw [setSlice, List.drop_append, hfront, List.drop_eq_nil_of_le (by omega), List.nil_append, List.drop_drop,
    Nat.add_sub_cancel' hn]

theorem slice_setSlice_of_le (h : a + data.length ≤ image.length) (hi : a + data.length ≤ i) :
    slice (setSlice image a (a + data.length) data) i j = slice image i j := by
  rw [slice, slice, List.drop_take, List.drop_take, drop_setSlice h hi]

theorem holds_slice (h : Bytes.Holds store a image) (hij : i ≤ j) (hj : j ≤ image.length) :
    Bytes.Holds store (a + i) (slice image i j) := by
  have hfront : (image.take j).take i ++ slice image i j ++ image.drop j = image := by
    rw [slice, List.take_append_drop, List.take_append_drop]
  have hlen : ((image.take j).take i).length = i := by
    rw [List.length_take, List.length_take]
    omega
  rw [← hfront, Bytes.holds_append, Bytes.holds_append, hlen] at h
  exact h.1.2

theorem length_packInto (h : packInto image a data = some image') : image'.length = image.length := by
  obtain ⟨hroom, rfl⟩ := packInto_eq h
  exact length_setSlice rfl hroom

theorem length_utf16Name (name : List Byte) : (utf16Name name).length = 72 := by
  rw [utf16Name, ljust, List.length_append, List.length_replicate, List.length_take]
  exact Nat.add_sub_cancel' (min_le_left _ _)

/-- **An entry is set** in its place: the array keeps its length and what stands in front, and the entry names its
sectors. -/
theorem setEntry_spec {entries' name : List Byte} {index : ℕ}
    (h : setEntry entries index typeGuid partitionGuid firstLba lastLba name = some entries')
    (htype : typeGuid.length = 16) (hguid : partitionGuid.length = 16)
    (hroom : index * gptEntrySize + gptEntrySize ≤ entries.length) :
    entries'.length = entries.length ∧ entries'.take (index * gptEntrySize) = entries.take (index * gptEntrySize) ∧
      slice entries' (index * gptEntrySize + 32) (index * gptEntrySize + 40) = Bytes.le 8 firstLba := by
  have hroom' : index * gptEntrySize + 128 ≤ entries.length := hroom
  rw [setEntry] at h
  obtain ⟨first, hfirst, h⟩ := Option.bind_eq_some_iff.mp h
  obtain ⟨last, hlast, h⟩ := Option.bind_eq_some_iff.mp h
  obtain ⟨packed, hpack, h⟩ := Option.bind_eq_some_iff.mp h
  rw [← Option.some.inj h]
  generalize index * gptEntrySize = o at *
  have hname := length_utf16Name name
  -- the four writes, one behind the other
  have hlen₁ : (setSlice entries o (o + 16) typeGuid).length = entries.length :=
    length_setSlice (by rw [htype]) (by omega)
  have hlen₂ : (setSlice (setSlice entries o (o + 16) typeGuid) (o + 16) (o + 32) partitionGuid).length = entries.length := by
    rw [length_setSlice (by rw [hguid]) (by omega), hlen₁]
  have hlen₃ : packed.length = entries.length := by rw [length_packInto hpack, hlen₂]
  have htake : ∀ n ≤ o + 56, (setSlice packed (o + 56) (o + 128) (utf16Name name)).take n = packed.take n := fun n hn =>
    take_setSlice hn (by omega)
  refine ⟨?_, ?_, ?_⟩
  · rw [length_setSlice (by rw [hname]) (by omega), hlen₃]
  · obtain ⟨-, rfl⟩ := packInto_eq hpack
    rw [htake o (by omega), take_setSlice (by omega) (by omega), take_setSlice (by omega) (by omega),
      take_setSlice le_rfl (by omega)]
  · obtain ⟨-, rfl⟩ := packInto_eq hpack
    rw [slice_of_take (htake (o + 40) (by omega)) le_rfl]
    have hfront : ((setSlice (setSlice entries o (o + 16) typeGuid) (o + 16) (o + 32) partitionGuid).take
        (o + 32)).length = o + 32 := List.length_take_of_le (by omega)
    have hslice := slice_append ((setSlice (setSlice entries o (o + 16) typeGuid) (o + 16) (o + 32) partitionGuid).take
      (o + 32)) first (last ++ (Bytes.le 8 0 ++
        (setSlice (setSlice entries o (o + 16) typeGuid) (o + 16) (o + 32) partitionGuid).drop
          (o + 32 + (first ++ last ++ Bytes.le 8 0).length)))
    rw [hfront, length_pack hfirst] at hslice
    rw [setSlice, ← pack_eq hfirst]
    simpa only [List.append_assoc] using hslice

theorem length_buildPartitionEntries {u : Uuids}
    (h : buildPartitionEntries u espFirst espLast rootFirst rootLast = some entries) :
    entries.length = gptEntryCount * gptEntrySize ∧ slice entries 32 40 = Bytes.le 8 espFirst := by
  rw [buildPartitionEntries] at h
  obtain ⟨entries₁, h₁, h₂⟩ := Option.bind_eq_some_iff.mp h
  have hzeros : (List.replicate (gptEntryCount * gptEntrySize) (0 : Byte)).length = gptEntryCount * gptEntrySize :=
    List.length_replicate
  obtain ⟨hlen₁, -, hslice₁⟩ := setEntry_spec h₁ (by decide) u.esp.toList_length (by rw [hzeros]; decide)
  obtain ⟨hlen₂, htake₂, -⟩ := setEntry_spec h₂ (by decide) u.root.toList_length (by rw [hlen₁, hzeros]; decide)
  refine ⟨by rw [hlen₂, hlen₁, hzeros], ?_⟩
  rw [slice_of_take htake₂ (by decide)]
  simpa only [Nat.zero_mul, Nat.zero_add] using hslice₁

theorem buildGptHeader_spec
    {header : List Byte}
    (h : buildGptHeader currentLba backupLba firstUsable lastUsable partitionEntryLba entries diskGuid = some header)
    (hguid : diskGuid.length = 16) :
    header.length = sectorSize ∧ slice header 72 80 = Bytes.le 8 partitionEntryLba := by
  rw [buildGptHeader] at h
  obtain ⟨current, hcurrent, h⟩ := Option.bind_eq_some_iff.mp h
  obtain ⟨backup, hbackup, h⟩ := Option.bind_eq_some_iff.mp h
  obtain ⟨first, hfirst, h⟩ := Option.bind_eq_some_iff.mp h
  obtain ⟨last, hlast, h⟩ := Option.bind_eq_some_iff.mp h
  obtain ⟨entryLba, hentryLba, h⟩ := Option.bind_eq_some_iff.mp h
  obtain ⟨header₁, h₁, h⟩ := Option.bind_eq_some_iff.mp h
  obtain ⟨header₂, h₂, h₃⟩ := Option.bind_eq_some_iff.mp h
  have hzeros : (List.replicate sectorSize (0 : Byte)).length = sectorSize := List.length_replicate
  refine ⟨by rw [length_packInto h₃, length_packInto h₂, length_packInto h₁, hzeros], ?_⟩
  obtain ⟨hroom₃, rfl⟩ := packInto_eq h₃
  obtain ⟨hroom₂, rfl⟩ := packInto_eq h₂
  obtain ⟨hroom₁, rfl⟩ := packInto_eq h₁
  rw [slice_setSlice_of_le hroom₃ (by rw [Bytes.length_le]; decide), slice_setSlice_of_le hroom₂ (by rw [Bytes.length_le]; decide)]
  have hfront : (gptSignature ++ Bytes.le 4 0x10000 ++ Bytes.le 4 92 ++ Bytes.le 4 0 ++ Bytes.le 4 0 ++ current ++
      backup ++ first ++ last ++ diskGuid).length = 72 := by
    have hsignature : gptSignature.length = 8 := by decide
    simp only [List.length_append, Bytes.length_le, hsignature, length_pack hcurrent, length_pack hbackup,
      length_pack hfirst, length_pack hlast, hguid]
  have hslice := slice_append (gptSignature ++ Bytes.le 4 0x10000 ++ Bytes.le 4 92 ++ Bytes.le 4 0 ++ Bytes.le 4 0 ++
    current ++ backup ++ first ++ last ++ diskGuid) entryLba (Bytes.le 4 gptEntryCount ++ (Bytes.le 4 gptEntrySize ++
      (Bytes.le 4 (crc32 entries) ++ (List.replicate sectorSize 0).drop (0 + (gptSignature ++ Bytes.le 4 0x10000 ++
        Bytes.le 4 92 ++ Bytes.le 4 0 ++ Bytes.le 4 0 ++ current ++ backup ++ first ++ last ++ diskGuid ++ entryLba ++
        Bytes.le 4 gptEntryCount ++ Bytes.le 4 gptEntrySize ++ Bytes.le 4 (crc32 entries)).length))))
  rw [hfront, length_pack hentryLba] at hslice
  rw [setSlice, List.take_zero, List.nil_append, ← pack_eq hentryLba]
  simpa only [List.append_assoc] using hslice

theorem le_alignUp {value alignment : ℕ} (h : 0 < alignment) : value ≤ alignUp value alignment := by
  have hdiv := Nat.div_add_mod (value + alignment - 1) alignment
  have hmod := Nat.mod_lt (value + alignment - 1) h
  rw [alignUp, Nat.mul_comm]
  omega

theorem layout_le (espBytes rootfsBytes : ℕ) :
    espStartLba + espBytes / sectorSize ≤ (layout espBytes rootfsBytes).rootFirst ∧
      (layout espBytes rootfsBytes).rootFirst ≤ (layout espBytes rootfsBytes).backupEntriesLba ∧
      (layout espBytes rootfsBytes).rootFirst ≤ (layout espBytes rootfsBytes).totalSectors - 1 := by
  have hfirst : espStartLba + espBytes / sectorSize ≤ (layout espBytes rootfsBytes).rootFirst := by
    refine le_trans ?_ (le_alignUp (by decide))
    change 2048 + espBytes / 512 ≤ 2048 + espBytes / 512 - 1 + 1
    omega
  have hlast : (layout espBytes rootfsBytes).rootFirst ≤ (layout espBytes rootfsBytes).rootLast + 1 := by
    change _ ≤ (layout espBytes rootfsBytes).rootFirst + ceilDiv rootfsBytes sectorSize - 1 + 1
    omega
  have htotal : (layout espBytes rootfsBytes).totalSectors = (layout espBytes rootfsBytes).rootLast + 34 := rfl
  have hbackup : (layout espBytes rootfsBytes).backupEntriesLba = (layout espBytes rootfsBytes).totalSectors - 32 - 1 := rfl
  omega

theorem copyAll_split (g : ℕ → Byte) (a : ℕ) (image : List Byte) (writes : List (ℕ × List Byte)) (hn : n ≤ image.length) :
    Bytes.copyAll g ((a, image) :: writes) = Bytes.copyAll g ((a, image.take n) :: (a + n, image.drop n) :: writes) := by
  have happend := Bytes.overlay_append (f := g) a (image.take n) (image.drop n)
  rw [List.length_take_of_le hn, List.take_append_drop] at happend
  rw [Bytes.copyAll_cons, Bytes.copyAll_cons, Bytes.copyAll_cons, happend]

/-- **What can be read from a disk that is built**: where the primary table and the first partition begin, and the front
of that partition. -/
theorem writeInstallImage_front {u : Uuids} {disk : (ℕ → Byte) × ℕ}
    (h : writeInstallImage u p = some disk) :
    Bytes.field disk.1 (sectorSize + 72) 8 = 2 ∧ Bytes.field disk.1 (2 * sectorSize + 32) 8 = espStartLba ∧
      ∃ image, BlankSummary image ∧ Bytes.Holds disk.1 (espStartLba * sectorSize) (image.take (2 * sectorSize)) := by
  rw [writeInstallImage] at h
  obtain ⟨espImage, hesp, h⟩ := Option.bind_eq_some_iff.mp h
  obtain ⟨entries, hentries, h⟩ := Option.bind_eq_some_iff.mp h
  obtain ⟨primary, hprimary, h⟩ := Option.bind_eq_some_iff.mp h
  obtain ⟨backup, hbackup, h⟩ := Option.bind_eq_some_iff.mp h
  obtain ⟨mbr, hmbr, h⟩ := Option.bind_eq_some_iff.mp h
  rw [← Option.some.inj h]
  have hfront := buildEspImage_front hesp
  obtain ⟨hlen, hfirst⟩ := length_buildPartitionEntries hentries
  obtain ⟨hheader, hlba⟩ := buildGptHeader_spec hprimary u.disk.toList_length
  obtain ⟨hroot, hsecond, htotal⟩ := layout_le espImage.length p.rootfs.length
  -- what is written behind the volume lies behind its first sectors
  have hvolume : espStartLba + 2 ≤ (layout espImage.length p.rootfs.length).rootFirst :=
    (Nat.add_le_add_left (Nat.le_div_iff_mul_le (by decide) |>.mpr hfront.length) _).trans hroot
  generalize layout espImage.length p.rootfs.length = l at *
  have hbehind : ∀ w ∈ [(l.rootFirst * sectorSize, p.rootfs), (l.backupEntriesLba * sectorSize, entries),
      ((l.totalSectors - 1) * sectorSize, backup)], (espStartLba + 2) * sectorSize ≤ w.1 := by
    simp only [List.forall_mem_cons, List.not_mem_nil, false_implies, implies_true, and_true]
    exact ⟨Nat.mul_le_mul_right _ hvolume, Nat.mul_le_mul_right _ (hvolume.trans hsecond),
      Nat.mul_le_mul_right _ (hvolume.trans htotal)⟩
  refine ⟨?_, ?_, espImage, hfront, ?_⟩
  · have hholds : Bytes.Holds (Bytes.copyAll (fun _ => 0) ([(0, mbr)] ++ (sectorSize, primary) ::
        [(2 * sectorSize, entries), (espStartLba * sectorSize, espImage), (l.rootFirst * sectorSize, p.rootfs),
          (l.backupEntriesLba * sectorSize, entries), ((l.totalSectors - 1) * sectorSize, backup)])) sectorSize primary := by
      refine Bytes.holds_copyAll _ fun w hw => .inl ?_
      rw [hheader]
      rcases List.mem_cons.mp hw with rfl | hw
      · exact (by decide : sectorSize + sectorSize ≤ 2 * sectorSize)
      rcases List.mem_cons.mp hw with rfl | hw
      · exact (by decide : sectorSize + sectorSize ≤ espStartLba * sectorSize)
      · exact le_trans (by decide) (hbehind w hw)
    have hfield := holds_slice hholds (show 72 ≤ 80 by decide) (by rw [hheader]; decide)
    rw [hlba] at hfield
    exact Bytes.field_of_holds hfield
  · have hholds : Bytes.Holds (Bytes.copyAll (fun _ => 0) ([(0, mbr), (sectorSize, primary)] ++ (2 * sectorSize, entries) ::
        [(espStartLba * sectorSize, espImage), (l.rootFirst * sectorSize, p.rootfs),
          (l.backupEntriesLba * sectorSize, entries), ((l.totalSectors - 1) * sectorSize, backup)])) (2 * sectorSize)
            entries := by
      refine Bytes.holds_copyAll _ fun w hw => .inl ?_
      rw [hlen]
      rcases List.mem_cons.mp hw with rfl | hw
      · exact (by decide : 2 * sectorSize + gptEntryCount * gptEntrySize ≤ espStartLba * sectorSize)
      · exact le_trans (by decide) (hbehind w hw)
    have hfield := holds_slice hholds (show 32 ≤ 40 by decide) (by rw [hlen]; decide)
    rw [hfirst] at hfield
    exact Bytes.field_of_holds hfield
  · have hholds : Bytes.Holds (Bytes.copyAll (fun _ => 0) ([(0, mbr), (sectorSize, primary), (2 * sectorSize, entries)] ++
        (espStartLba * sectorSize, espImage.take (2 * sectorSize)) ::
          (espStartLba * sectorSize + 2 * sectorSize, espImage.drop (2 * sectorSize)) ::
          [(l.rootFirst * sectorSize, p.rootfs), (l.backupEntriesLba * sectorSize, entries),
            ((l.totalSectors - 1) * sectorSize, backup)])) (espStartLba * sectorSize) (espImage.take (2 * sectorSize)) := by
      refine Bytes.holds_copyAll _ fun w hw => .inl ?_
      rw [List.length_take_of_le hfront.length]
      rcases List.mem_cons.mp hw with rfl | hw
      · exact le_rfl
      · exact le_trans (by decide) (hbehind w hw)
    simp only [List.cons_append, List.nil_append, Bytes.copyAll_cons] at hholds ⊢
    have hsplit := copyAll_split (Bytes.overlay (Bytes.overlay (Bytes.overlay (fun _ => 0) 0 mbr) sectorSize primary)
      (2 * sectorSize) entries) (espStartLba * sectorSize) espImage [(l.rootFirst * sectorSize, p.rootfs),
        (l.backupEntriesLba * sectorSize, entries), ((l.totalSectors - 1) * sectorSize, backup)] hfront.length
    simp only [Bytes.copyAll_cons] at hsplit
    rw [hsplit]
    exact hholds

theorem field_partitionStore {e : GptEntry} (hn : n ≤ image.length)
    (hholds : Bytes.Holds store (sectorAt e.firstLba) (image.take n)) (hslice : slice image a (a + w) = Bytes.le w k)
    (ha : a + w ≤ n) : Bytes.field (partitionStore store e) a w = k % 256 ^ w := by
  have hfield := holds_slice hholds (Nat.le_add_right a w) (by rwa [List.length_take_of_le hn])
  have hfront : slice (image.take n) a (a + w) = slice image a (a + w) :=
    slice_of_take (n := n) (by rw [List.take_take, min_self]) ha
  rw [hfront, hslice] at hfield
  rw [← Bytes.field_of_holds hfield]
  exact Bytes.field_congr_at fun i _ => by rw [partitionStore, Nat.add_assoc]

theorem not_validImage_of_blank {total : ℕ} {primary backup : GptHeader}
    (hlba : Bytes.field store (sectorSize + 72) 8 = 2) (hfirst : Bytes.field store (2 * sectorSize + 32) 8 = espStartLba)
    (hblank : BlankSummary image) (hholds : Bytes.Holds store (espStartLba * sectorSize) (image.take (2 * sectorSize))) :
    ¬ ValidImage p store total primary backup := by
  intro hvalid
  have hprimary : primary.partitionEntryLba = 2 := by
    rw [← hvalid.gpt.primary_valid.at_lba, ← hlba]
    rfl
  have hentry : (primary.entry store 0).firstLba = espStartLba := by
    rw [← hfirst, GptHeader.entry, hprimary, Nat.zero_mul]
    rfl
  rw [← hentry] at hholds
  have hsector : Bytes.field (partitionStore store (primary.entry store 0)) 11 2 = sectorSize :=
    field_partitionStore hblank.length hholds hblank.bytesPerSector (show 11 + 2 ≤ 2 * sectorSize by decide)
  have hinfo : Bytes.field (partitionStore store (primary.entry store 0)) 48 2 = 1 :=
    field_partitionStore hblank.length hholds hblank.infoSector (show 48 + 2 ≤ 2 * sectorSize by decide)
  have hlead : Bytes.field (partitionStore store (primary.entry store 0)) (1 * sectorSize) 4 = 0 :=
    field_partitionStore hblank.length hholds hblank.lead (show 512 + 4 ≤ 2 * sectorSize by decide)
  refine Fat32.not_consistent_of_lead hsector hinfo ?_ hvalid.volume
  rw [hlead]
  decide

/-- **No disk that is built is valid**: the summary sector of its first partition has no signature. -/
theorem not_validImage {u : Uuids} {p : Payloads} {disk : (ℕ → Byte) × ℕ} (h : writeInstallImage u p = some disk) :
    ¬ ∃ primary backup, ValidImage p disk.1 disk.2 primary backup := by
  obtain ⟨hlba, hfirst, image, hblank, hholds⟩ := writeInstallImage_front h
  rintro ⟨primary, backup, hvalid⟩
  exact not_validImage_of_blank hlba hfirst hblank hholds hvalid

/-! ### A disk that is built -/

/-- **A volume of the smallest size** under construction: its clusters are sectors, and those that have been given away
end their chains. -/
structure SmallVolume (f : Fat32Image) (n : ℕ) : Prop where
  length : f.image.length = espMinBytes
  sectorsPerCluster : f.sectorsPerCluster = 1
  fatSectors : f.fatSectors = 1008
  totalSectors : f.totalSectors = 131072
  fat_length : f.fat.length = 128992
  next : f.nextFreeCluster = n
  ends : ∀ c, 2 ≤ c → c < n → f.fat[c]? = some fat32Eoc

theorem packInto_of_le (image : List Byte) (a : ℕ) (data : List Byte) (h : a + data.length ≤ image.length) :
    ∃ image', packInto image a data = some image' ∧ image'.length = image.length :=
  ⟨_, if_pos h, length_setSlice rfl h⟩

theorem pack_of_lt (h : k < 256 ^ w) : pack w k = some (Bytes.le w k) := if_pos h

theorem length_slice (hj : j ≤ image.length) : (slice image i j).length = j - i := by
  rw [slice, List.length_drop, List.length_take_of_le hj]

theorem length_copyFsinfo (h : 8 * sectorSize ≤ image.length) :
    (Fat32Image.copyFsinfo image).length = image.length := by
  have hslice : (slice image sectorSize (2 * sectorSize)).length = sectorSize := length_slice (le_trans (by decide) h)
  have hend : 7 * sectorSize + sectorSize = 8 * sectorSize := by decide
  exact length_setSlice (by rw [hslice, hend]) h

theorem packFsinfo_of_small {fsinfo : List Byte} (hfat : f.fat.length - 3 < 256 ^ 4) (hnext : f.nextFreeCluster < 256 ^ 4)
    (hlen : fsinfo.length = sectorSize) : ∃ packed, f.packFsinfo fsinfo = some packed := by
  obtain ⟨l₁, h₁, hlen₁⟩ := packInto_of_le fsinfo 0 (Bytes.le 4 0x41615252)
    (by rw [Bytes.length_le, hlen]; decide)
  obtain ⟨l₂, h₂, hlen₂⟩ := packInto_of_le l₁ 484 (Bytes.le 4 0x61417272)
    (by rw [Bytes.length_le, hlen₁, hlen]; decide)
  obtain ⟨l₃, h₃, hlen₃⟩ := packInto_of_le l₂ 488 (Bytes.le 4 (f.fat.length - 3))
    (by rw [Bytes.length_le, hlen₂, hlen₁, hlen]; decide)
  obtain ⟨l₄, h₄, hlen₄⟩ := packInto_of_le l₃ 492 (Bytes.le 4 f.nextFreeCluster)
    (by rw [Bytes.length_le, hlen₃, hlen₂, hlen₁, hlen]; decide)
  obtain ⟨l₅, h₅, -⟩ := packInto_of_le l₄ 508 (Bytes.le 4 0xaa550000)
    (by rw [Bytes.length_le, hlen₄, hlen₃, hlen₂, hlen₁, hlen])
  refine ⟨l₅, ?_⟩
  rw [Fat32Image.packFsinfo, h₁, pack_of_lt hfat, pack_of_lt hnext]
  simp only [Option.bind_eq_bind, Option.bind_some, h₂, h₃, h₄, h₅]

theorem formatBpb_of_small (label : List Byte) (f : Fat32Image) (htotal : f.totalSectors < 256 ^ 4) (hfats : f.fatSectors < 256 ^ 4)
    (hfat : f.fat.length - 3 < 256 ^ 4) (hnext : f.nextFreeCluster < 256 ^ 4) (hlen : 8 * sectorSize ≤ f.image.length) :
    ∃ image, f.formatBpb label = some { f with image := image } ∧ image.length = f.image.length := by
  have hlong : 4096 ≤ f.image.length := hlen
  have hbpb := f.length_bpb label (Bytes.length_le 4 f.totalSectors) (Bytes.length_le 4 f.fatSectors)
  obtain ⟨image₁, hpack, hlen₁⟩ := packInto_of_le f.image 0 ((f.bpb label (Bytes.le 4 f.totalSectors) (Bytes.le 4 f.fatSectors)).flatten)
    (by rw [hbpb]; omega)
  have hlen₂ : (setSlice image₁ 510 512 [0x55, 0xaa]).length = f.image.length := by
    rw [length_setSlice (by decide) (by omega), hlen₁]
  have hsector : (slice (setSlice image₁ 510 512 [0x55, 0xaa]) sectorSize (sectorSize * 2)).length = sectorSize :=
    length_slice (by rw [hlen₂]; exact le_trans (by decide) hlen)
  have hboot : (slice (setSlice image₁ 510 512 [0x55, 0xaa]) 0 sectorSize).length = sectorSize :=
    length_slice (by rw [hlen₂]; exact le_trans (by decide) hlen)
  have hlen₃ : (setSlice (setSlice image₁ 510 512 [0x55, 0xaa]) (6 * sectorSize) (7 * sectorSize)
      (slice (setSlice image₁ 510 512 [0x55, 0xaa]) 0 sectorSize)).length = f.image.length := by
    have hend : 6 * sectorSize + sectorSize = 7 * sectorSize := by decide
    rw [length_setSlice (by rw [hboot, hend]) (by rw [hlen₂]; exact le_trans (by decide) hlen), hlen₂]
  obtain ⟨packed, hfsinfo⟩ := packFsinfo_of_small hfat hnext hsector
  refine ⟨_, ?_, (length_copyFsinfo (by rw [hlen₃]; exact hlen)).trans hlen₃⟩
  rw [Fat32Image.formatBpb, pack_of_lt htotal, pack_of_lt hfats]
  simp only [Option.bind_eq_bind, Option.bind_some, hpack, hfsinfo, Option.pure_def]

theorem smallVolume_init (label : List Byte) :
    ∃ f, Fat32Image.init espMinBytes label = some f ∧ SmallVolume f 3 := by
  have hcluster : Fat32Image.chooseCluster (espMinBytes / sectorSize) = some 1 := by decide +kernel
  have hclusters : Fat32Image.trialClusters (espMinBytes / sectorSize) 1 = 128990 := by decide +kernel
  have hfats : Fat32Image.trialFatSectors 128990 = 1008 := by decide +kernel
  have htotal : espMinBytes / sectorSize = 131072 := by decide +kernel
  rw [Fat32Image.init, if_neg (by decide)]
  dsimp only
  rw [hcluster, Option.bind_some, hclusters, hfats, htotal]
  obtain ⟨image, hformat, hlen⟩ := formatBpb_of_small label
    (⟨List.replicate espMinBytes 0, 131072, 1, 1008,
      (((List.replicate (128990 + 2) 0).set 0 0x0ffffff8).set 1 0x0fffffff).set Fat32Image.rootCluster fat32Eoc,
      Fat32Image.rootCluster + 1⟩ : Fat32Image)
    (by decide) (by decide) (by simp only [List.length_set, List.length_replicate]; decide) (by decide)
    (by simp only [List.length_replicate]; decide)
  refine ⟨_, hformat, ?_, rfl, rfl, rfl, ?_, rfl, fun c hc hlt => ?_⟩
  · rw [hlen, List.length_replicate]
  · simp only [List.length_set, List.length_replicate]
  · obtain rfl : c = 2 := by omega
    rw [List.getElem?_set_self]
    simp only [List.length_set, List.length_replicate]
    decide

namespace SmallVolume

theorem clusterBytes_eq (h : SmallVolume f n) : f.clusterBytes = sectorSize := by
  rw [Fat32Image.clusterBytes, h.sectorsPerCluster, Nat.one_mul]

theorem clustersNeeded_eq (h : SmallVolume f n) {k : ℕ} (hk : k ≤ sectorSize) : f.clustersNeeded k = 1 := by
  rw [Fat32Image.clustersNeeded, h.clusterBytes_eq]
  refine max_eq_left ?_
  have hle : k ≤ 512 := hk
  change (k + 512 - 1) / 512 ≤ 1
  omega

theorem allocateChain (h : SmallVolume f n) (hn : n < 128992) {k : ℕ} (hk : k ≤ sectorSize) :
    ∃ f', f.allocateChain k = some (n, f') ∧ SmallVolume f' (n + 1) := by
  have hroom : ¬ f.fat.length < n + 1 := by
    rw [h.fat_length]
    omega
  have hlink : (List.range' n 1).foldl
      (fun fat cluster => fat.set cluster (if cluster + 1 < n + 1 then cluster + 1 else fat32Eoc)) f.fat =
      f.fat.set n fat32Eoc := by
    rw [List.range'_one, List.foldl_cons, List.foldl_nil, if_neg (lt_irrefl _)]
  refine ⟨{ f with fat := f.fat.set n fat32Eoc, nextFreeCluster := n + 1 }, ?_, ?_⟩
  · rw [Fat32Image.allocateChain, h.clustersNeeded_eq hk, h.next, if_neg hroom]
    dsimp only
    rw [hlink]
  · refine ⟨h.length, h.sectorsPerCluster, h.fatSectors, h.totalSectors, ?_, rfl, fun c hc hlt => ?_⟩
    · rw [List.length_set, h.fat_length]
    · rcases Nat.lt_or_ge c n with hbefore | hlast
      · rw [List.getElem?_set_ne (by omega)]
        exact h.ends c hc hbefore
      · obtain rfl : c = n := by omega
        exact List.getElem?_set_self (by rw [h.fat_length]; exact hn)

theorem clusterOffset_add_le (h : SmallVolume f n) (hc : c < 128992) :
    f.clusterOffset c + sectorSize ≤ espMinBytes := by
  rw [Fat32Image.clusterOffset, Fat32Image.dataStartSector, h.fatSectors, h.sectorsPerCluster]
  change (32 + 2 * 1008 + (c - 2) * 1) * 512 + 512 ≤ 64 * 1024 * 1024
  omega

theorem length_writeCluster (h : SmallVolume f n) (hlen : image.length = espMinBytes) (hc : c < 128992)
    (hdata : data.length ≤ sectorSize) : (f.writeCluster image c data).length = espMinBytes := by
  have hoffset := h.clusterOffset_add_le hc
  have hchunk : data.take f.clusterBytes = data := List.take_of_length_le (by rw [h.clusterBytes_eq]; exact hdata)
  have hfirst : (setSlice image (f.clusterOffset c) (f.clusterOffset c + data.length) data).length = espMinBytes := by
    rw [length_setSlice rfl (by omega), hlen]
  rw [Fat32Image.writeCluster]
  rw [hchunk, h.clusterBytes_eq]
  by_cases hshort : data.length < sectorSize
  · rw [if_pos hshort, length_setSlice _ (by rw [hfirst]; exact hoffset), hfirst]
    rw [List.length_replicate]
    omega
  · rw [if_neg hshort, hfirst]

theorem writeChain (h : SmallVolume f n) (hn : n ≤ 128992) (hc : 2 ≤ c) (hlt : c < n) (hdata : data.length ≤ sectorSize) :
    ∃ f', f.writeChain c data = some f' ∧ SmallVolume f' n := by
  have hrest : data.drop f.clusterBytes = [] := List.drop_eq_nil_of_le (by rw [h.clusterBytes_eq]; exact hdata)
  have hlen := h.length_writeCluster h.length (hlt.trans_le hn) hdata
  refine ⟨{ f with image := f.writeCluster f.image c data }, ?_, hlen, h.sectorsPerCluster, h.fatSectors, h.totalSectors,
    h.fat_length, h.next, h.ends⟩
  rw [Fat32Image.writeChain, h.fat_length, Fat32Image.writeChainLoop]
  rw [h.ends c hc hlt, Option.bind_some, if_pos le_rfl, Option.bind_some, hrest, if_pos rfl]

theorem addFile (h : SmallVolume f n) (hn : n < 128992) (htwo : 2 ≤ n) (hdata : data.length ≤ sectorSize) :
    ∃ f', f.addFile data = some (n, f') ∧ SmallVolume f' (n + 1) := by
  obtain ⟨f₁, hallocate, h₁⟩ := h.allocateChain hn hdata
  obtain ⟨f₂, hwrite, h₂⟩ := h₁.writeChain hn htwo (Nat.lt_succ_self n) hdata
  refine ⟨f₂, ?_, h₂⟩
  rw [Fat32Image.addFile, hallocate, Option.bind_eq_bind, Option.bind_some]
  dsimp only
  rw [hwrite, Option.bind_eq_bind, Option.bind_some, Option.pure_def]

end SmallVolume

theorem length_shortName {name r : List Byte} (h : shortName name = some r) : r.length = 11 := by
  rw [shortName] at h
  split at h
  · rw [← Option.some.inj h, ljust, List.length_append, List.length_replicate]
    have hlen : (name.map upper).length ≤ 11 := by
      rcases ‹_ ∨ _› with hdot | hdots
      · rw [hdot]
        decide
      · rw [hdots]
        decide
    omega
  · have hjust : ∀ (l : List Byte) (k : ℕ), (ljust (l.take k) k 32).length = k := fun l k => by
      rw [ljust, List.length_append, List.length_replicate, List.length_take]
      exact Nat.add_sub_cancel' (min_le_left _ _)
    split at h
    · rw [← Option.some.inj h, List.length_append, hjust]
      rfl
    · rw [← Option.some.inj h, List.length_append, hjust, hjust]
    · cases h

theorem makeEntry_of_small (name : List Byte) (attr : Byte) (cluster size : ℕ) (hname : (shortName name).isSome)
    (hsize : size < 256 ^ 4) : ∃ e, Fat32Image.makeEntry name attr cluster size = some e ∧ e.length = 32 := by
  obtain ⟨r, hr⟩ := Option.isSome_iff_exists.mp hname
  refine ⟨r ++ [attr] ++ List.replicate 8 0 ++ Bytes.le 2 (cluster / 2 ^ 16) ++ List.replicate 4 0 ++
    Bytes.le 2 cluster ++ Bytes.le 4 size, ?_, ?_⟩
  · rw [Fat32Image.makeEntry, hr, pack_of_lt hsize]
    rfl
  · simp only [List.length_append, length_shortName hr, Bytes.length_le, List.length_replicate, List.length_cons,
      List.length_nil]

theorem length_flatten_of_forall {entries : List (List Byte)} (h : ∀ e ∈ entries, e.length = k) :
    entries.flatten.length = entries.length * k := by
  induction entries with
  | nil => rw [List.flatten_nil, List.length_nil, List.length_nil, Nat.zero_mul]
  | cons e entries ih =>
    rw [List.flatten_cons, List.length_append, List.length_cons, h e List.mem_cons_self,
      ih fun e' he' => h e' (List.mem_cons_of_mem _ he'), Nat.add_mul, Nat.one_mul, Nat.add_comm]

theorem dotEntries_of_small (cluster : ℕ) (parent : Option ℕ) :
    ∃ dots, Fat32Image.dotEntries cluster parent = some dots ∧ dots.length ≤ 64 := by
  cases parent with
  | none => exact ⟨[], rfl, by decide⟩
  | some parent =>
    obtain ⟨dot, hdot, hlen⟩ := makeEntry_of_small (lit ".") 0x10 cluster 0 (by decide) (by decide)
    obtain ⟨dots, hdots, hlen'⟩ := makeEntry_of_small (lit "..") 0x10 parent 0 (by decide) (by decide)
    refine ⟨dot ++ dots, ?_, ?_⟩
    · rw [Fat32Image.dotEntries, hdot, hdots]
      rfl
    · rw [List.length_append, hlen, hlen']

namespace SmallVolume

theorem writeDirectory (h : SmallVolume f n) (hn : n ≤ 128992) (hc : 2 ≤ c) (hlt : c < n) {entries : List (List Byte)}
    (parent : Option ℕ) (hentries : ∀ e ∈ entries, e.length = 32) (hcount : entries.length ≤ 2) :
    ∃ f', f.writeDirectory c entries parent = some f' ∧ SmallVolume f' n := by
  obtain ⟨dots, hdots, hlen⟩ := dotEntries_of_small c parent
  have hpayload : (dots ++ entries.flatten ++ List.replicate 32 0).length ≤ sectorSize := by
    rw [List.length_append, List.length_append, List.length_replicate, length_flatten_of_forall hentries]
    change _ ≤ 512
    omega
  obtain ⟨f', hwrite, h'⟩ := h.writeChain hn hc hlt hpayload
  refine ⟨f', ?_, h'⟩
  rw [Fat32Image.writeDirectory, hdots, Option.bind_eq_bind, Option.bind_some]
  dsimp only
  rw [h.clustersNeeded_eq hpayload, if_neg (not_not.mpr rfl), hwrite]

theorem length_writeFats (h : SmallVolume f n) : f.writeFats.length = espMinBytes := by
  have htwo : List.range Fat32Image.fatCount = [0, 1] := rfl
  have hfat : (f.fat.flatMap fun v => Bytes.le 4 (v % 2 ^ 28)).length = 128992 * 4 := by
    rw [List.length_flatMap, ← h.fat_length]
    simp only [Bytes.length_le, List.map_const', List.sum_replicate, smul_eq_mul]
  rw [Fat32Image.writeFats, htwo, List.foldl_cons, List.foldl_cons, List.foldl_nil]
  dsimp only
  rw [hfat, h.fatSectors]
  have hfirst : (setSlice f.image ((Fat32Image.reserved + 0 * 1008) * sectorSize)
      ((Fat32Image.reserved + 0 * 1008) * sectorSize + 128992 * 4)
      (f.fat.flatMap fun v => Bytes.le 4 (v % 2 ^ 28))).length = espMinBytes := by
    rw [length_setSlice (by rw [hfat]) (by rw [h.length]; decide), h.length]
  rw [length_setSlice (by rw [hfat]) (by rw [hfirst]; decide), hfirst]

theorem finalize (h : SmallVolume f n) (hn : n ≤ 128992) :
    ∃ image, f.finalize = some image ∧ image.length = espMinBytes := by
  have hfats := h.length_writeFats
  obtain ⟨packed, hpack, hlen⟩ := packInto_of_le f.writeFats (sectorSize + 492) (Bytes.le 4 f.nextFreeCluster)
    (by rw [Bytes.length_le, hfats]; decide)
  have hnext : f.nextFreeCluster < 256 ^ 4 := by
    rw [h.next]
    omega
  refine ⟨_, ?_, (length_copyFsinfo (by rw [hlen, hfats]; decide)).trans (hlen.trans hfats)⟩
  rw [Fat32Image.finalize, pack_of_lt hnext]
  simp only [Option.bind_eq_bind, Option.bind_some, hpack, Option.pure_def]

end SmallVolume

def smallPayloads : Payloads := ⟨[1], [2], [3], [4], [5]⟩

theorem buildEspImage_small : ∃ image, buildEspImage smallPayloads = some image ∧ image.length = espMinBytes := by
  have hsize : espSize smallPayloads = espMinBytes := by decide +kernel
  have hone : ∀ b : Byte, [b].length ≤ sectorSize := fun b => (by decide : 1 ≤ sectorSize)
  obtain ⟨f₀, h₀, v₀⟩ := smallVolume_init (lit "TIRAMISU")
  obtain ⟨f₁, h₁, v₁⟩ := v₀.addFile (by decide) (by decide) (hone 1)
  obtain ⟨f₂, h₂, v₂⟩ := v₁.addFile (by decide) (by decide) (hone 2)
  obtain ⟨f₃, h₃, v₃⟩ := v₂.addFile (by decide) (by decide) (hone 4)
  obtain ⟨f₄, h₄, v₄⟩ := v₃.addFile (by decide) (by decide) (hone 5)
  obtain ⟨f₅, h₅, v₅⟩ := v₄.allocateChain (by decide) v₄.clusterBytes_eq.le
  obtain ⟨f₆, h₆, v₆⟩ := v₅.allocateChain (by decide) v₅.clusterBytes_eq.le
  obtain ⟨f₇, h₇, v₇⟩ := v₆.allocateChain (by decide) v₆.clusterBytes_eq.le
  obtain ⟨f₈, h₈, v₈⟩ := v₇.allocateChain (by decide) v₇.clusterBytes_eq.le
  obtain ⟨f₉, h₉, v₉⟩ := v₈.allocateChain (by decide) v₈.clusterBytes_eq.le
  -- the records, and the directories they stand in
  obtain ⟨e₁, he₁, l₁⟩ := makeEntry_of_small (lit "UNICODE.PF2") 0x20 6 1 (by decide) (by decide)
  obtain ⟨e₂, he₂, l₂⟩ := makeEntry_of_small (lit "GRUB.CFG") 0x20 5 1 (by decide) (by decide)
  obtain ⟨e₃, he₃, l₃⟩ := makeEntry_of_small (lit "FONTS") 0x10 7 0 (by decide) (by decide)
  obtain ⟨e₄, he₄, l₄⟩ := makeEntry_of_small (lit "KERNEL.ELF") 0x20 4 1 (by decide) (by decide)
  obtain ⟨e₅, he₅, l₅⟩ := makeEntry_of_small (lit "GRUB") 0x10 8 0 (by decide) (by decide)
  obtain ⟨e₆, he₆, l₆⟩ := makeEntry_of_small (lit "BOOTX64.EFI") 0x20 3 1 (by decide) (by decide)
  obtain ⟨e₇, he₇, l₇⟩ := makeEntry_of_small (lit "BOOT") 0x10 10 0 (by decide) (by decide)
  obtain ⟨e₈, he₈, l₈⟩ := makeEntry_of_small (lit "EFI") 0x10 11 0 (by decide) (by decide)
  obtain ⟨e₉, he₉, l₉⟩ := makeEntry_of_small (lit "BOOT") 0x10 9 0 (by decide) (by decide)
  have hpair : ∀ {e e' : List Byte}, e.length = 32 → e'.length = 32 → ∀ d ∈ [e, e'], d.length = 32 := by
    intro e e' he he' d hd
    rcases List.mem_pair.mp hd with rfl | rfl
    · exact he
    · exact he'
  have hsingle : ∀ {e : List Byte}, e.length = 32 → ∀ d ∈ [e], d.length = 32 := by
    intro e he d hd
    rwa [List.mem_singleton.mp hd]
  obtain ⟨g₁, k₁, w₁⟩ := v₉.writeDirectory (c := 7) (by decide) (by decide) (by decide) (some 8) (hsingle l₁) one_le_two
  obtain ⟨g₂, k₂, w₂⟩ := w₁.writeDirectory (c := 8) (by decide) (by decide) (by decide) (some 9) (hpair l₂ l₃) le_rfl
  obtain ⟨g₃, k₃, w₃⟩ := w₂.writeDirectory (c := 9) (by decide) (by decide) (by decide) (some 2) (hpair l₄ l₅) le_rfl
  obtain ⟨g₄, k₄, w₄⟩ := w₃.writeDirectory (c := 10) (by decide) (by decide) (by decide) (some 11) (hsingle l₆) one_le_two
  obtain ⟨g₅, k₅, w₅⟩ := w₄.writeDirectory (c := 11) (by decide) (by decide) (by decide) (some 2) (hsingle l₇) one_le_two
  obtain ⟨g₆, k₆, w₆⟩ := w₅.writeDirectory (c := 2) (by decide) (by decide) (by decide) none (hpair l₈ l₉) le_rfl
  obtain ⟨image, hfinal, hlen⟩ := w₆.finalize (by decide)
  refine ⟨image, ?_, hlen⟩
  rw [buildEspImage, hsize]
  refine Option.bind_eq_some_iff.mpr ⟨_, h₀, ?_⟩
  refine Option.bind_eq_some_iff.mpr ⟨_, h₁, ?_⟩
  refine Option.bind_eq_some_iff.mpr ⟨_, h₂, ?_⟩
  refine Option.bind_eq_some_iff.mpr ⟨_, h₃, ?_⟩
  refine Option.bind_eq_some_iff.mpr ⟨_, h₄, ?_⟩
  refine Option.bind_eq_some_iff.mpr ⟨_, h₅, ?_⟩
  refine Option.bind_eq_some_iff.mpr ⟨_, h₆, ?_⟩
  refine Option.bind_eq_some_iff.mpr ⟨_, h₇, ?_⟩
  refine Option.bind_eq_some_iff.mpr ⟨_, h₈, ?_⟩
  refine Option.bind_eq_some_iff.mpr ⟨_, h₉, ?_⟩
  refine Option.bind_eq_some_iff.mpr ⟨_, he₁, ?_⟩
  refine Option.bind_eq_some_iff.mpr ⟨_, k₁, ?_⟩
  refine Option.bind_eq_some_iff.mpr ⟨_, he₂, ?_⟩
  refine Option.bind_eq_some_iff.mpr ⟨_, he₃, ?_⟩
  refine Option.bind_eq_some_iff.mpr ⟨_, k₂, ?_⟩
  refine Option.bind_eq_some_iff.mpr ⟨_, he₄, ?_⟩
  refine Option.bind_eq_some_iff.mpr ⟨_, he₅, ?_⟩
  refine Option.bind_eq_some_iff.mpr ⟨_, k₃, ?_⟩
  refine Option.bind_eq_some_iff.mpr ⟨_, he₆, ?_⟩
  refine Option.bind_eq_some_iff.mpr ⟨_, k₄, ?_⟩
  refine Option.bind_eq_some_iff.mpr ⟨_, he₇, ?_⟩
  refine Option.bind_eq_some_iff.mpr ⟨_, k₅, ?_⟩
  refine Option.bind_eq_some_iff.mpr ⟨_, he₈, ?_⟩
  refine Option.bind_eq_some_iff.mpr ⟨_, he₉, ?_⟩
  refine Option.bind_eq_some_iff.mpr ⟨_, k₆, ?_⟩
  exact hfinal

theorem setEntry_of_small (entries : List Byte) (index : ℕ) (name : List Byte)
    (hfirst : firstLba < 256 ^ 8) (hlast : lastLba < 256 ^ 8) (htype : typeGuid.length = 16)
    (hguid : partitionGuid.length = 16) (hroom : index * gptEntrySize + gptEntrySize ≤ entries.length) :
    ∃ entries', setEntry entries index typeGuid partitionGuid firstLba lastLba name = some entries' := by
  have hroom' : index * gptEntrySize + 128 ≤ entries.length := hroom
  have hlen : (setSlice (setSlice entries (index * gptEntrySize) (index * gptEntrySize + 16) typeGuid)
      (index * gptEntrySize + 16) (index * gptEntrySize + 32) partitionGuid).length = entries.length := by
    have hlen₁ := length_setSlice (a := index * gptEntrySize) (b := index * gptEntrySize + 16) (by rw [htype])
      ((Nat.add_le_add_left (by decide) _).trans hroom')
    rw [length_setSlice (by rw [hguid]) (by rw [hlen₁]; omega), hlen₁]
  obtain ⟨packed, hpack, -⟩ := packInto_of_le _ (index * gptEntrySize + 32)
    (Bytes.le 8 firstLba ++ Bytes.le 8 lastLba ++ Bytes.le 8 0)
    (by rw [hlen, List.length_append, List.length_append, Bytes.length_le, Bytes.length_le, Bytes.length_le]; omega)
  refine ⟨setSlice packed (index * gptEntrySize + 56) (index * gptEntrySize + 128) (utf16Name name),
    Option.bind_eq_some_iff.mpr ⟨_, pack_of_lt hfirst, ?_⟩⟩
  refine Option.bind_eq_some_iff.mpr ⟨_, pack_of_lt hlast, ?_⟩
  exact Option.bind_eq_some_iff.mpr ⟨packed, hpack, rfl⟩

theorem buildPartitionEntries_of_small (u : Uuids) (h₁ : espFirst < 256 ^ 8)
    (h₂ : espLast < 256 ^ 8) (h₃ : rootFirst < 256 ^ 8) (h₄ : rootLast < 256 ^ 8) :
    ∃ entries, buildPartitionEntries u espFirst espLast rootFirst rootLast = some entries := by
  have hzeros : (List.replicate (gptEntryCount * gptEntrySize) (0 : Byte)).length = gptEntryCount * gptEntrySize :=
    List.length_replicate
  obtain ⟨entries₁, hset₁⟩ := setEntry_of_small (List.replicate (gptEntryCount * gptEntrySize) 0) 0
    (lit "EFI System") h₁ h₂ (by decide : guidEfiSystem.length = 16) u.esp.toList_length (by rw [hzeros]; decide)
  obtain ⟨hlen₁, -, -⟩ := setEntry_spec hset₁ (by decide) u.esp.toList_length (by rw [hzeros]; decide)
  obtain ⟨entries₂, hset₂⟩ := setEntry_of_small entries₁ 1 (lit "Tiramisu Root") h₃ h₄
    (by decide : guidTiramisuFs.length = 16) u.root.toList_length (by rw [hlen₁, hzeros]; decide)
  exact ⟨entries₂, Option.bind_eq_some_iff.mpr ⟨entries₁, hset₁, hset₂⟩⟩

theorem buildGptHeader_of_small
    (entries : List Byte) (h₁ : currentLba < 256 ^ 8) (h₂ : backupLba < 256 ^ 8)
    (h₃ : firstUsable < 256 ^ 8) (h₄ : lastUsable < 256 ^ 8) (h₅ : partitionEntryLba < 256 ^ 8)
    (hguid : diskGuid.length = 16) :
    ∃ header, buildGptHeader currentLba backupLba firstUsable lastUsable partitionEntryLba entries diskGuid =
      some header := by
  have hsignature : gptSignature.length = 8 := by decide
  have hzeros : (List.replicate sectorSize (0 : Byte)).length = sectorSize := List.length_replicate
  obtain ⟨header₁, hpack₁, hlen₁⟩ := packInto_of_le (List.replicate sectorSize 0) 0
    (gptSignature ++ Bytes.le 4 0x10000 ++ Bytes.le 4 92 ++ Bytes.le 4 0 ++ Bytes.le 4 0 ++ Bytes.le 8 currentLba ++
      Bytes.le 8 backupLba ++ Bytes.le 8 firstUsable ++ Bytes.le 8 lastUsable ++ diskGuid ++
      Bytes.le 8 partitionEntryLba ++ Bytes.le 4 gptEntryCount ++ Bytes.le 4 gptEntrySize ++ Bytes.le 4 (crc32 entries))
    (by
      simp only [List.length_append, Bytes.length_le, hsignature, hguid, List.length_replicate]
      decide)
  obtain ⟨header₂, hpack₂, hlen₂⟩ := packInto_of_le header₁ 16 (Bytes.le 4 0)
    (by rw [hlen₁, hzeros, Bytes.length_le]; decide)
  obtain ⟨header₃, hpack₃, -⟩ := packInto_of_le header₂ 16 (Bytes.le 4 (crc32 (header₂.take 92)))
    (by rw [hlen₂, hlen₁, hzeros, Bytes.length_le]; decide)
  refine ⟨header₃, Option.bind_eq_some_iff.mpr ⟨_, pack_of_lt h₁, ?_⟩⟩
  refine Option.bind_eq_some_iff.mpr ⟨_, pack_of_lt h₂, ?_⟩
  refine Option.bind_eq_some_iff.mpr ⟨_, pack_of_lt h₃, ?_⟩
  refine Option.bind_eq_some_iff.mpr ⟨_, pack_of_lt h₄, ?_⟩
  refine Option.bind_eq_some_iff.mpr ⟨_, pack_of_lt h₅, ?_⟩
  refine Option.bind_eq_some_iff.mpr ⟨_, hpack₁, ?_⟩
  exact Option.bind_eq_some_iff.mpr ⟨_, hpack₂, hpack₃⟩

theorem protectiveMbr_isSome (totalSectors : ℕ) : ∃ mbr, protectiveMbr totalSectors = some mbr := by
  have hlen : ((List.replicate sectorSize (0 : Byte)).set (446 + 4) 0xee).length = sectorSize := by
    rw [List.length_set, List.length_replicate]
  obtain ⟨mbr₁, hpack₁, hlen₁⟩ := packInto_of_le ((List.replicate sectorSize 0).set (446 + 4) 0xee) (446 + 8)
    (Bytes.le 4 1) (by rw [hlen, Bytes.length_le]; decide)
  obtain ⟨mbr₂, hpack₂, -⟩ := packInto_of_le mbr₁ (446 + 12) (Bytes.le 4 (min (totalSectors - 1) 0xffffffff))
    (by rw [hlen₁, hlen, Bytes.length_le]; decide)
  rw [protectiveMbr]
  rw [hpack₁, Option.bind_eq_bind, Option.bind_some, hpack₂, Option.bind_some]
  exact ⟨_, rfl⟩

/-- **A disk is built** from files of one byte. -/
theorem writeInstallImage_small (u : Uuids) : ∃ disk, writeInstallImage u smallPayloads = some disk := by
  obtain ⟨image, hesp, hlen⟩ := buildEspImage_small
  have hlayout : layout image.length smallPayloads.rootfs.length = layout espMinBytes 1 := congrArg₂ layout hlen rfl
  obtain ⟨entries, hentries⟩ := buildPartitionEntries_of_small u (by decide : espStartLba < 256 ^ 8)
    (by decide +kernel : (layout espMinBytes 1).espLast < 256 ^ 8)
    (by decide +kernel : (layout espMinBytes 1).rootFirst < 256 ^ 8)
    (by decide +kernel : (layout espMinBytes 1).rootLast < 256 ^ 8)
  have htotal : (layout espMinBytes 1).totalSectors - 1 < 256 ^ 8 := by decide +kernel
  have hfirst : (layout espMinBytes 1).firstUsable < 256 ^ 8 := by decide +kernel
  have hlast : (layout espMinBytes 1).lastUsable < 256 ^ 8 := by decide +kernel
  have hbackup : (layout espMinBytes 1).backupEntriesLba < 256 ^ 8 := by decide +kernel
  obtain ⟨primary, hprimary⟩ := buildGptHeader_of_small entries (by decide : 1 < 256 ^ 8) htotal hfirst hlast
    (by decide : 2 < 256 ^ 8) u.disk.toList_length
  obtain ⟨backup, hheader⟩ := buildGptHeader_of_small entries htotal (by decide : 1 < 256 ^ 8) hfirst hlast hbackup
    u.disk.toList_length
  obtain ⟨mbr, hmbr⟩ := protectiveMbr_isSome (layout espMinBytes 1).totalSectors
  rw [← hlayout] at hentries hprimary hheader hmbr
  rw [writeInstallImage, hesp, Option.bind_eq_bind, Option.bind_some]
  dsimp only
  rw [hentries, Option.bind_some, hprimary, Option.bind_some, hheader, Option.bind_some, hmbr, Option.bind_some]
  exact ⟨_, rfl⟩

def sampleUuids : Uuids := ⟨.replicate 16 1, .replicate 16 2, .replicate 16 3⟩

/-- The disk of these files is not valid. -/
theorem not_validImage_small : ∃ disk, writeInstallImage sampleUuids smallPayloads = some disk ∧
    ¬ ∃ primary backup, ValidImage smallPayloads disk.1 disk.2 primary backup := by
  obtain ⟨disk, hdisk⟩ := writeInstallImage_small sampleUuids
  exact ⟨disk, hdisk, not_validImage hdisk⟩

/-- **Not every disk that is built is valid.** -/
theorem not_imageLaw : ¬ ∀ u p disk, writeInstallImage u p = some disk →
    ∃ primary backup, ValidImage p disk.1 disk.2 primary backup := by
  intro h
  obtain ⟨disk, hdisk⟩ := writeInstallImage_small sampleUuids
  obtain ⟨primary, backup, hvalid⟩ := h sampleUuids smallPayloads disk hdisk
  obtain ⟨hlba, hfirst, image, hblank, hholds⟩ := writeInstallImage_front hdisk
  exact not_validImage_of_blank hlba hfirst hblank hholds hvalid

end Tnu.Tools
