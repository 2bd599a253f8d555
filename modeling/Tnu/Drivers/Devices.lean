/-
**Which disk is which.**

The block layer of the kernel knows its disks by index and by name.  `block_device_get` goes by index
through the disks of the ATA driver and then those of the AHCI driver; everything else goes by name,
and asks the drivers in the same order.  Each driver numbers its own disks.

Main definitions:

* `Attached`, `ataInit`, `ahciInit`, `nvmeDevices` —
  what is attached, and what the drivers make of it;
* `blockDeviceGet`, `blockRead`, `blockWriteLba28`,
  `blockSync` — the block layer;
* `sysBlockRead`, `sysBlockWrite`, `sysBlockSync` — the calls.

Main result:

* `identified_iff` — **indices mean what they say unless both drivers have disks**.
-/

import Tnu.Drivers.Drive
import Tnu.Printf
import Tnu.Sys.FileIo

set_option autoImplicit false

namespace Tnu.Drivers

open Tnu.Sys

/-! ### Disks -/

/-- A disk, by the place it is attached at. -/
inductive Hardware
  | ata (slot : Fin 4)
  | ahci (index : ℕ)
  | nvme (index : ℕ)
  deriving DecidableEq, Repr

/-- A SATA port that answered the identification, with the two sector counts of the answer. -/
structure AhciPort where
  portNo : ℕ
  lba48 : ℕ
  lba28 : ℕ
  deriving DecidableEq, Repr

/-- An NVMe controller that could be enabled. -/
structure NvmeController where
  vendorId : ℕ
  deviceId : ℕ
  deriving DecidableEq, Repr

/-- What is attached: the ATA drives with their sector counts, and the ports and controllers in the
order they are probed in. -/
structure Attached where
  ata : Fin 4 → Option ℕ
  ahci : List AhciPort
  nvme : List NvmeController

/-- `struct block_device_info`. -/
structure BlockDeviceInfo where
  name : List Byte
  description : List Byte
  writable : Bool
  sectorCount : ℕ
  sectorSize : ℕ
  removable : Bool
  transport : List Byte
  deriving DecidableEq, Repr

/-- A disk that a driver knows. -/
structure BlockDevice where
  info : BlockDeviceInfo
  hardware : Hardware
  deriving DecidableEq, Repr

/-! ### The drivers -/

def deviceNames : List (List Byte) := [lit "sda", lit "sdb", lit "sdc", lit "sdd"]

/-- The descriptions of `probe_slots`. -/
def probeDescription : Fin 4 → List Byte
  | 0 => lit "legacy ATA primary master"
  | 1 => lit "legacy ATA primary slave"
  | 2 => lit "legacy ATA secondary master"
  | 3 => lit "legacy ATA secondary slave"

/-- The disk of a slot that `ata_init` numbers `k`. -/
def ataDevice (k : ℕ) (slot : Fin 4) (lba28 : ℕ) : BlockDevice where
  info := ⟨deviceNames.getD k [], probeDescription slot, true, lba28, sectorSize, false, lit "ata"⟩
  hardware := .ata slot

/-- `ata_init`: the slots are probed in order, and the disks found are numbered. -/
def ataInit (a : Attached) : List BlockDevice :=
  ((List.finRange 4).filterMap fun slot => (a.ata slot).map fun n => (slot, n)).mapIdx
    fun k r => ataDevice k r.1 r.2

abbrev ahciMaxDevices : ℕ := 8

/-- The name `ahci_register_port` makes from a number. -/
def ahciName (index : ℕ) : List Byte := lit "sd" ++ [UInt8.ofNat (97 + index)]

/-- The disk of a port that `ahci_register_port` numbers `index`. -/
def ahciDevice (index : ℕ) (port : AhciPort) : BlockDevice where
  info :=
    { name := ahciName index
      description := ksnprintf 96 (lit "AHCI SATA disk on port " ++ unsignedToString 10 port.portNo)
      writable := true
      sectorCount :=
        let sectors := if port.lba48 ≠ 0 then port.lba48 else port.lba28
        if sectors = 0 then 1953525168 else sectors
      sectorSize := sectorSize
      removable := false
      transport := lit "ahci" }
  hardware := .ahci index

def ahciInit (a : Attached) : List BlockDevice := (a.ahci.take ahciMaxDevices).mapIdx ahciDevice

abbrev nvmeMaxDevices : ℕ := 4

/-- `nvme_init`: all disks share the buffers of the name and the description, so the last one names them
all. -/
def nvmeDevices (a : Attached) : List BlockDevice :=
  let found := a.nvme.take nvmeMaxDevices
  let last := found.getLastD ⟨0, 0⟩
  found.mapIdx fun k _ =>
    { info :=
        { name := ksnprintf 16 (lit "nvme" ++ unsignedToString 10 (found.length - 1))
          description := ksnprintf 128 (lit "NVMe " ++ outPadded 4 (unsignedToString 16 last.vendorId) ++
            lit ":" ++ outPadded 4 (unsignedToString 16 last.deviceId))
          writable := true
          sectorCount := 500118192
          sectorSize := sectorSize
          removable := false
          transport := lit "nvme" }
      hardware := .nvme k }

/-- `g_nvme_device_count`, which nothing changes. -/
abbrev gNvmeDeviceCount : ℕ := 0

/-! ### The block layer -/

def blockDeviceGet (a : Attached) (index : ℕ) : Option BlockDevice :=
  if index < (ataInit a).length then (ataInit a)[index]?
  else
    let index := index - (ataInit a).length
    if index < (ahciInit a).length then (ahciInit a)[index]?
    else
      let index := index - (ahciInit a).length
      if index < gNvmeDeviceCount then (nvmeDevices a)[index]? else none

/-- `ata_by_name` and `ahci_by_name`: a leading `/dev/` is dropped. -/
def byName (devices : List BlockDevice) (name : List Byte) : Option BlockDevice :=
  devices.find? fun dev => dev.info.name = deviceName name

def nvmeFindByName (a : Attached) (name : List Byte) : Option BlockDevice :=
  (nvmeDevices a).find? fun dev => dev.info.name = name

abbrev Drives := Hardware → Drive

def ataRead (drives : Drives) (dev : BlockDevice) (lba bytes : ℕ) : List Byte × ℤ :=
  if 0x10000000 ≤ lba then ([], -1)
  else readLoop ataDriver (drives dev.hardware) (turns ataDriver bytes) lba bytes

/-- `ahci_rw`, reading. -/
def ahciRead (drives : Drives) (dev : BlockDevice) (lba bytes : ℕ) : List Byte × ℤ :=
  readLoop ahciDriver (drives dev.hardware) (turns ahciDriver bytes) lba bytes

def deviceRead (drives : Drives) (dev : BlockDevice) (lba bytes : ℕ) : List Byte × ℤ :=
  match dev.hardware with
  | .ata _ => ataRead drives dev lba bytes
  | _ => ahciRead drives dev lba bytes

def driverWrite (v : Driver) (drives : Drives) (dev : BlockDevice) (lba : ℕ) (bytes : List Byte) :
    Drives × ℤ :=
  let r := writeLoop v (turns v bytes.length) lba bytes (drives dev.hardware)
  (Function.update drives dev.hardware r.1, r.2)

def nvmeAccepts (bytes : ℕ) : Bool := bytes / sectorSize ≠ 0 && bytes % sectorSize = 0

def blockRead (a : Attached) (drives : Drives) (name : List Byte) (lba bytes : ℕ) : List Byte × ℤ :=
  match byName (ataInit a) name with
  | some dev => ataRead drives dev lba bytes
  | none =>
    match byName (ahciInit a) name with
    | some dev => ahciRead drives dev lba bytes
    | none =>
      match nvmeFindByName a name with
      | some _ => if nvmeAccepts bytes = true then (List.replicate bytes 0, bytes) else ([], -1)
      | none => ([], -1)

def blockWriteLba28 (a : Attached) (drives : Drives) (name : List Byte) (lba : ℕ) (bytes : List Byte) :
    Drives × ℤ :=
  match byName (ataInit a) name with
  | some dev => driverWrite ataDriver drives dev lba bytes
  | none =>
    match byName (ahciInit a) name with
    | some dev => driverWrite ahciDriver drives dev lba bytes
    | none =>
      match nvmeFindByName a name with
      | some _ => (drives, if nvmeAccepts bytes.length = true then bytes.length else -1)
      | none => (drives, -1)

/-- `block_sync`: the disk that gets the command to flush, and the result. -/
def blockSync (a : Attached) (name : List Byte) : Option Hardware × ℤ :=
  match byName (ataInit a) name with
  | some dev => (some dev.hardware, 0)
  | none =>
    match byName (ahciInit a) name with
    | some dev => (some dev.hardware, 0)
    | none => (none, 0)

/-! ### The calls -/

/-- `sys_block_read`: what is put into the buffer, and the result. -/
def sysBlockRead (a : Attached) (drives : Drives) (index lba buf bytes : ℕ) : List Byte × ℤ :=
  if buf = 0 ∨ uptrOk buf bytes = false then ([], -1)
  else
    match blockDeviceGet a index with
    | none => ([], -1)
    | some dev => blockRead a drives dev.info.name lba bytes

/-- `sys_block_write`: the address is cut to 32 bits. -/
def sysBlockWrite (a : Attached) (drives : Drives) (index lba : ℕ) (buf : UserBuf) : Drives × ℤ :=
  if buf.ptr = 0 ∨ uptrOk buf.ptr buf.bytes.length = false then (drives, -1)
  else
    match blockDeviceGet a index with
    | none => (drives, -1)
    | some dev =>
      if dev.info.writable = false then (drives, -1)
      else blockWriteLba28 a drives dev.info.name (lba % 2 ^ 32) buf.bytes

def sysBlockSync (a : Attached) (index : ℕ) : Option Hardware × ℤ :=
  match blockDeviceGet a index with
  | none => (none, -1)
  | some dev => blockSync a dev.info.name

/-! ### What is asked of names and indices -/

def Hardware.driver : Hardware → Driver
  | .ata _ => ataDriver
  | .ahci _ => ahciDriver
  | .nvme _ => ahciDriver

/-- **Indices mean what they say**: no two of them have a name in common, and the calls act on the disk
that `block_device_get` reports. -/
structure Identified (a : Attached) : Prop where
  distinct : ∀ i j dev dev', blockDeviceGet a i = some dev → blockDeviceGet a j = some dev' →
    dev.info.name = dev'.info.name → i = j
  read : ∀ i dev, blockDeviceGet a i = some dev → ∀ drives lba buf bytes,
    sysBlockRead a drives i lba buf bytes =
      if buf = 0 ∨ uptrOk buf bytes = false then ([], -1) else deviceRead drives dev lba bytes
  write : ∀ i dev, blockDeviceGet a i = some dev → ∀ drives lba buf,
    sysBlockWrite a drives i lba buf =
      if buf.ptr = 0 ∨ uptrOk buf.ptr buf.bytes.length = false then (drives, -1)
      else driverWrite dev.hardware.driver drives dev (lba % 2 ^ 32) buf.bytes
  sync : ∀ i dev, blockDeviceGet a i = some dev → sysBlockSync a i = (some dev.hardware, 0)

/-! ### Names -/

variable {a : Attached} {devices : List BlockDevice} {dev : BlockDevice} {i : ℕ}

/-- The disks of a driver, numbered from zero on, with the names that go with the numbers. -/
structure Numbered (devices : List BlockDevice) : Prop where
  few : devices.length ≤ ahciMaxDevices
  name_eq : ∀ i dev, devices[i]? = some dev → dev.info.name = ahciName i

theorem ahciName_inj : ∀ i < 8, ∀ j < 8, ahciName i = ahciName j → i = j := by decide

theorem deviceName_ahciName : ∀ i < 8, deviceName (ahciName i) = ahciName i := by decide

theorem deviceNames_getD : ∀ i < 4, deviceNames.getD i [] = ahciName i := by decide

theorem length_ataInit_le (a : Attached) : (ataInit a).length ≤ 4 := by
  rw [ataInit, List.length_mapIdx]
  exact (List.length_filterMap_le _ _).trans (by rw [List.length_finRange])

theorem getElem?_ataInit (h : (ataInit a)[i]? = some dev) :
    i < 4 ∧ ∃ slot n, a.ata slot = some n ∧ dev = ataDevice i slot n := by
  have hlt : i < (ataInit a).length := (List.getElem?_eq_some_iff.1 h).1
  refine ⟨hlt.trans_le (length_ataInit_le a), ?_⟩
  rw [ataInit, List.getElem?_mapIdx, Option.map_eq_some_iff] at h
  obtain ⟨⟨slot, n⟩, hmem, rfl⟩ := h
  obtain ⟨slot', -, hslot⟩ := List.mem_filterMap.1 (List.mem_of_getElem? hmem)
  rw [Option.map_eq_some_iff] at hslot
  obtain ⟨n', hn, heq⟩ := hslot
  cases heq
  exact ⟨slot, n, hn, rfl⟩

theorem getElem?_ahciInit (h : (ahciInit a)[i]? = some dev) : ∃ port, dev = ahciDevice i port := by
  rw [ahciInit, List.getElem?_mapIdx, Option.map_eq_some_iff] at h
  obtain ⟨port, -, rfl⟩ := h
  exact ⟨port, rfl⟩

theorem numbered_ataInit (a : Attached) : Numbered (ataInit a) where
  few := (length_ataInit_le a).trans (by norm_num)
  name_eq i dev h := by
    obtain ⟨hi, slot, n, -, rfl⟩ := getElem?_ataInit h
    exact deviceNames_getD i hi

theorem numbered_ahciInit (a : Attached) : Numbered (ahciInit a) where
  few := by
    rw [ahciInit, List.length_mapIdx]
    exact List.length_take_le _ _
  name_eq i dev h := by
    obtain ⟨port, rfl⟩ := getElem?_ahciInit h
    rfl

/-- **A name finds the disk that was numbered by it.** -/
theorem byName_of_numbered (hnum : Numbered devices) (h : devices[i]? = some dev) :
    byName devices dev.info.name = some dev := by
  obtain ⟨hlt, hget⟩ := List.getElem?_eq_some_iff.1 h
  have hi : i < 8 := hlt.trans_le hnum.few
  have hname := hnum.name_eq i dev h
  rw [byName, List.find?_eq_some_iff_getElem]
  refine ⟨?_, i, hlt, hget, fun j hj => ?_⟩
  · rw [hname, deviceName_ahciName i hi]
    simp
  · have hj' : j < devices.length := hj.trans hlt
    rw [hname, deviceName_ahciName i hi, hnum.name_eq j _ (List.getElem?_eq_getElem hj')]
    rw [Bool.not_eq_true', decide_eq_false_iff_not]
    exact fun heq => absurd (ahciName_inj j (hj.trans hi) i hi heq) hj.ne

theorem ataInit_eq_nil_iff : ataInit a = [] ↔ ∀ slot, a.ata slot = none := by
  rw [ataInit, List.mapIdx_eq_nil_iff, List.filterMap_eq_nil_iff]
  simp only [List.mem_finRange, Option.map_eq_none_iff, forall_const]

theorem ahciInit_eq_nil_iff : ahciInit a = [] ↔ a.ahci = [] := by
  rw [ahciInit, List.mapIdx_eq_nil_iff, List.take_eq_nil_iff]
  simp

theorem blockDeviceGet_of_lt (h : i < (ataInit a).length) :
    blockDeviceGet a i = (ataInit a)[i]? := if_pos h

theorem blockDeviceGet_add (a : Attached) (i : ℕ) :
    blockDeviceGet a ((ataInit a).length + i) = (ahciInit a)[i]? := by
  rw [blockDeviceGet, if_neg (by omega)]
  simp only [Nat.add_sub_cancel_left, Nat.not_lt_zero, if_false]
  split
  · rfl
  · next h => exact (List.getElem?_eq_none (not_lt.1 h)).symm

theorem blockDeviceGet_cases (h : blockDeviceGet a i = some dev) :
    (ataInit a)[i]? = some dev ∨
      ∃ j, i = (ataInit a).length + j ∧ (ahciInit a)[j]? = some dev := by
  rcases Nat.lt_or_ge i (ataInit a).length with hlt | hge
  · rw [blockDeviceGet_of_lt hlt] at h
    exact .inl h
  · obtain ⟨j, rfl⟩ := Nat.exists_eq_add_of_le hge
    rw [blockDeviceGet_add] at h
    exact .inr ⟨j, rfl, h⟩

/-! ### Indices -/

theorem identified_of_ata (hahci : a.ahci = []) : Identified a := by
  have hnil := ahciInit_eq_nil_iff.2 hahci
  have hget : ∀ {i dev}, blockDeviceGet a i = some dev → (ataInit a)[i]? = some dev := by
    intro i dev h
    rcases blockDeviceGet_cases h with h | ⟨j, -, h⟩
    · exact h
    · rw [hnil] at h
      cases h
  have hfind : ∀ {i dev}, blockDeviceGet a i = some dev →
      byName (ataInit a) dev.info.name = some dev := fun h =>
    byName_of_numbered (numbered_ataInit a) (hget h)
  refine ⟨fun i j dev dev' h h' hname => ?_, fun i dev h drives lba buf bytes => ?_,
    fun i dev h drives lba buf => ?_, fun i dev h => ?_⟩
  · have hi := (getElem?_ataInit (hget h)).1
    have hj := (getElem?_ataInit (hget h')).1
    rw [(numbered_ataInit a).name_eq i dev (hget h), (numbered_ataInit a).name_eq j dev' (hget h')] at hname
    exact ahciName_inj i (by omega) j (by omega) hname
  · obtain ⟨-, slot, n, -, rfl⟩ := getElem?_ataInit (hget h)
    simp only [sysBlockRead, h, blockRead, hfind h]
    rfl
  · obtain ⟨-, slot, n, -, rfl⟩ := getElem?_ataInit (hget h)
    simp only [sysBlockWrite, h, blockWriteLba28, hfind h]
    rfl
  · simp only [sysBlockSync, h, blockSync, hfind h]

theorem identified_of_ahci (hata : ∀ slot, a.ata slot = none) : Identified a := by
  have hnil := ataInit_eq_nil_iff.2 hata
  have hget : ∀ {i dev}, blockDeviceGet a i = some dev → (ahciInit a)[i]? = some dev := by
    intro i dev h
    rcases blockDeviceGet_cases h with hata | ⟨j, rfl, hahci⟩
    · rw [hnil] at hata
      cases hata
    · rw [hnil, List.length_nil, Nat.zero_add]
      exact hahci
  have hnone : ∀ name, byName (ataInit a) name = none := fun name => by
    rw [hnil]
    rfl
  have hfind : ∀ {i dev}, blockDeviceGet a i = some dev →
      byName (ahciInit a) dev.info.name = some dev := fun h =>
    byName_of_numbered (numbered_ahciInit a) (hget h)
  refine ⟨fun i j dev dev' h h' hname => ?_, fun i dev h drives lba buf bytes => ?_,
    fun i dev h drives lba buf => ?_, fun i dev h => ?_⟩
  · have hfew := (numbered_ahciInit a).few
    have hi := (List.getElem?_eq_some_iff.1 (hget h)).1
    have hj := (List.getElem?_eq_some_iff.1 (hget h')).1
    rw [(numbered_ahciInit a).name_eq i dev (hget h), (numbered_ahciInit a).name_eq j dev' (hget h')] at hname
    exact ahciName_inj i (hi.trans_le hfew) j (hj.trans_le hfew) hname
  · obtain ⟨port, rfl⟩ := getElem?_ahciInit (hget h)
    simp only [sysBlockRead, h, blockRead, hnone, hfind h]
    rfl
  · obtain ⟨port, rfl⟩ := getElem?_ahciInit (hget h)
    simp only [sysBlockWrite, h, blockWriteLba28, hnone, hfind h]
    rfl
  · simp only [sysBlockSync, h, blockSync, hnone, hfind h]

/-- **Indices mean what they say exactly when not both drivers have disks.** -/
theorem identified_iff (a : Attached) :
    Identified a ↔ (∀ slot, a.ata slot = none) ∨ a.ahci = [] := by
  constructor
  · intro h
    by_contra hboth
    rw [not_or, ← ataInit_eq_nil_iff, ← ahciInit_eq_nil_iff] at hboth
    obtain ⟨hata, hahci⟩ := hboth
    have hlen := List.length_pos_of_ne_nil hata
    have hlen' := List.length_pos_of_ne_nil hahci
    have h₀ := List.getElem?_eq_getElem hlen
    have h₁ := List.getElem?_eq_getElem hlen'
    -- the first disk of each driver is called `sda`
    have hname := (numbered_ataInit a).name_eq 0 _ h₀
    have hname' := (numbered_ahciInit a).name_eq 0 _ h₁
    have hget : blockDeviceGet a 0 = some (ataInit a)[0] := (blockDeviceGet_of_lt hlen).trans h₀
    have hget' : blockDeviceGet a ((ataInit a).length + 0) = some (ahciInit a)[0] :=
      (blockDeviceGet_add a 0).trans h₁
    have := h.distinct _ _ _ _ hget hget' (hname.trans hname'.symm)
    omega
  · rintro (hata | hahci)
    · exact identified_of_ahci hata
    · exact identified_of_ata hahci

def bothAttached : Attached where
  ata slot := if slot = 0 then some 2048 else none
  ahci := [⟨0, 4096, 4096⟩]
  nvme := []

/-- With one disk of each kind, two indices have one name. -/
theorem not_identified : ¬∀ a, Identified a := by
  intro h
  have hfirst : blockDeviceGet bothAttached 0 = some (ataDevice 0 0 2048) := by decide
  have hsecond : blockDeviceGet bothAttached 1 = some (ahciDevice 0 ⟨0, 4096, 4096⟩) := by decide
  exact absurd ((h bothAttached).distinct 0 1 _ _ hfirst hsecond rfl) (by norm_num)

end Tnu.Drivers
