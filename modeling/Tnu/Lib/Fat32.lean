/-
**FAT32 volumes.**

What the bytes of a volume mean: the parameter block of the first sector fixes the geometry, the file allocation
tables link clusters into chains, and the records of a directory lead from names to chains.  A volume is
consistent when its tables agree and reach every cluster, and when the summary sector and its copy carry their
signatures and the right number of free clusters.

Main result:

* `Fat32.not_consistent_of_lead` — without its leading signature the summary sector spoils the volume.
-/

import Tnu.Lib.Bytes

set_option autoImplicit false

namespace Fat32

/-! ### Geometry -/

/-- The fields of the parameter block that the geometry depends on. -/
structure Params where
  bytesPerSector : ℕ
  sectorsPerCluster : ℕ
  reservedSectors : ℕ
  fatCount : ℕ
  totalSectors : ℕ
  fatSectors : ℕ
  rootCluster : ℕ
  infoSector : ℕ
  backupSector : ℕ

def readParams (f : ℕ → UInt8) : Params where
  bytesPerSector := Bytes.field f 11 2
  sectorsPerCluster := Bytes.field f 13 1
  reservedSectors := Bytes.field f 14 2
  fatCount := Bytes.field f 16 1
  totalSectors := Bytes.field f 32 4
  fatSectors := Bytes.field f 36 4
  rootCluster := Bytes.field f 44 4
  infoSector := Bytes.field f 48 2
  backupSector := Bytes.field f 50 2

namespace Params

variable (p : Params)

def dataStart : ℕ := p.reservedSectors + p.fatCount * p.fatSectors

def clusterCount : ℕ := (p.totalSectors - p.dataStart) / p.sectorsPerCluster

def clusterBytes : ℕ := p.sectorsPerCluster * p.bytesPerSector

/-- Where a cluster starts.  The first two numbers stand for no cluster. -/
def clusterAt (c : ℕ) : ℕ := (p.dataStart + (c - 2) * p.sectorsPerCluster) * p.bytesPerSector

def IsCluster (c : ℕ) : Prop := 2 ≤ c ∧ c < p.clusterCount + 2

/-- Where the `k`-th table starts. -/
def fatAt (k : ℕ) : ℕ := (p.reservedSectors + k * p.fatSectors) * p.bytesPerSector

end Params

/-! ### Chains -/

/-- The entry of a cluster in the `k`-th table; the four upper bits do not count. -/
def fatEntry (f : ℕ → UInt8) (p : Params) (k c : ℕ) : ℕ := Bytes.field f (p.fatAt k + 4 * c) 4 % 2 ^ 28

abbrev endOfChain : ℕ := 0x0ffffff8

/-- A chain of clusters, from its first one on. -/
inductive Chain (f : ℕ → UInt8) (p : Params) : ℕ → List ℕ → Prop
  | last {c : ℕ} (hc : p.IsCluster c) (hend : endOfChain ≤ fatEntry f p 0 c) : Chain f p c [c]
  | next {c : ℕ} {cs : List ℕ} (hc : p.IsCluster c) (hmore : fatEntry f p 0 c < endOfChain)
      (hcs : Chain f p (fatEntry f p 0 c) cs) : Chain f p c (c :: cs)

def chainBytes (f : ℕ → UInt8) (p : Params) (cs : List ℕ) : List UInt8 :=
  cs.flatMap fun c => Bytes.window f (p.clusterAt c) p.clusterBytes

def freeCount (f : ℕ → UInt8) (p : Params) : ℕ :=
  (List.range' 2 p.clusterCount).countP fun c => fatEntry f p 0 c = 0

/-! ### Directories -/

/-- A record of a directory. -/
structure Record where
  name : List UInt8
  attr : UInt8
  cluster : ℕ
  size : ℕ

abbrev recordBytes : ℕ := 32

def readRecord (f : ℕ → UInt8) (a : ℕ) : Record where
  name := Bytes.window f a 11
  attr := f (a + 11)
  cluster := Bytes.field f (a + 20) 2 * 2 ^ 16 + Bytes.field f (a + 26) 2
  size := Bytes.field f (a + 28) 4

def records (f : ℕ → UInt8) (p : Params) (cs : List ℕ) : List Record :=
  let g := fun i => (chainBytes f p cs).getD i 0
  ((List.range ((chainBytes f p cs).length / recordBytes)).map fun i => readRecord g (recordBytes * i)).takeWhile
    fun r => r.name.head? ≠ some 0

def Record.IsDir (r : Record) : Prop := r.attr &&& 0x10 ≠ 0

def lookup (f : ℕ → UInt8) (p : Params) (cs : List ℕ) (name : List UInt8) : Option Record :=
  (records f p cs).find? fun r => r.name = name

/-- A path leads from the directory in a cluster to a record. -/
inductive Finds (f : ℕ → UInt8) (p : Params) : ℕ → List (List UInt8) → Record → Prop
  | here {c : ℕ} {cs : List ℕ} {name : List UInt8} {r : Record} (hcs : Chain f p c cs)
      (hr : lookup f p cs name = some r) : Finds f p c [name] r
  | inside {c : ℕ} {cs : List ℕ} {name : List UInt8} {path : List (List UInt8)} {r r' : Record}
      (hcs : Chain f p c cs) (hr : lookup f p cs name = some r) (hdir : r.IsDir)
      (hpath : Finds f p r.cluster path r') : Finds f p c (name :: path) r'

/-- **A path that reads back as these bytes**: it leads to the record of a file of their number, whose chain
stores them, and has no more clusters than they need. -/
def ReadsAs (f : ℕ → UInt8) (path : List (List UInt8)) (data : List UInt8) : Prop :=
  let p := readParams f
  ∃ r cs, Finds f p p.rootCluster path r ∧ ¬ r.IsDir ∧ r.size = data.length ∧ Chain f p r.cluster cs ∧
    (chainBytes f p cs).take r.size = data ∧ (cs.length - 1) * p.clusterBytes ≤ r.size

/-! ### Consistent volumes -/

/-- A summary sector with its signatures and the number of free clusters. -/
structure Summary (f : ℕ → UInt8) (p : Params) (sector : ℕ) : Prop where
  lead : Bytes.field f (sector * p.bytesPerSector) 4 = 0x41615252
  middle : Bytes.field f (sector * p.bytesPerSector + 484) 4 = 0x61417272
  trail : Bytes.field f (sector * p.bytesPerSector + 508) 4 = 0xaa550000
  free : Bytes.field f (sector * p.bytesPerSector + 488) 4 = freeCount f p

/-- **A consistent volume** of so many sectors. -/
structure Consistent (f : ℕ → UInt8) (sectors : ℕ) : Prop where
  signature : f 510 = 0x55 ∧ f 511 = 0xaa
  fits : (readParams f).totalSectors ≤ sectors
  same_fats : ∀ k < (readParams f).fatCount, ∀ i < (readParams f).fatSectors * (readParams f).bytesPerSector,
    f ((readParams f).fatAt k + i) = f ((readParams f).fatAt 0 + i)
  large_enough : ((readParams f).clusterCount + 2) * 4 ≤ (readParams f).fatSectors * (readParams f).bytesPerSector
  summary : Summary f (readParams f) (readParams f).infoSector
  backup : Summary f (readParams f) ((readParams f).backupSector + (readParams f).infoSector)

variable {f : ℕ → UInt8} {sectors : ℕ}

theorem not_consistent_of_lead {size info : ℕ} (hsize : Bytes.field f 11 2 = size) (hinfo : Bytes.field f 48 2 = info)
    (hlead : Bytes.field f (info * size) 4 ≠ 0x41615252) : ¬ Consistent f sectors := by
  intro h
  subst hsize hinfo
  exact hlead h.summary.lead

end Fat32
