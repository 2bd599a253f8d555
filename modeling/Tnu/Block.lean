/-
**Block devices.**

The persistence code sees a disk through three functions of `kernel/drivers/block/ata.c`:
`block_device_find`, `block_read` and `block_write_lba28`.  This module embeds a device as what the
statements about it need — the bytes it stores, and which sectors can be read — and lets a write fail
after any number of sectors, as the sector loops of the drivers do.

Main definitions:

* `Disk`, `Devices` — a device, and the devices by name.
-/

import Tnu.CString
import Tnu.Lib.Bytes

set_option autoImplicit false

namespace Tnu

/-- `TFS_SECTOR_SIZE`, the sector size of every driver. -/
abbrev sectorSize : ℕ := 512

/-- A block device: its bytes, and the sectors a read does not fail on. -/
structure Disk where
  data : ℕ → Byte
  readable : ℕ → Bool

/-- The sectors `bytes` bytes take. -/
def sectorsFor (bytes : ℕ) : ℕ := (bytes + sectorSize - 1) / sectorSize

namespace Disk

/-- `block_read`: the bytes from a sector on, when all their sectors can be read. -/
def read (d : Disk) (lba bytes : ℕ) : Option (List Byte) :=
  if ∀ i < sectorsFor bytes, d.readable (lba + i) = true
  then some (Bytes.window d.data (lba * sectorSize) bytes) else none

/-- Whole sectors written: their bytes are stored, and can be read from then on. -/
def store (d : Disk) (lba : ℕ) (bytes : List Byte) : Disk where
  data := Bytes.overlay d.data (lba * sectorSize) bytes
  readable i := d.readable i || (lba ≤ i && i < lba + sectorsFor bytes.length)

/-- The bytes the driver puts on the wire: the last sector is filled up with zeros. -/
def padded (bytes : List Byte) : List Byte :=
  bytes ++ List.replicate (sectorsFor bytes.length * sectorSize - bytes.length) 0

/-- `block_write_lba28`, with the fault that strikes it: `some k` when the driver gives up with
`k` sectors on the disk. -/
def write (d : Disk) (lba : UInt32) (bytes : List Byte) : Option ℕ → Disk × ℤ
  | none => (d.store lba.toNat (padded bytes), 0)
  | some k => (d.store lba.toNat ((padded bytes).take (k * sectorSize)), -1)

variable {d : Disk} {bytes : List Byte}

theorem read_eq_some {lba bytes : ℕ} {l : List Byte} :
    d.read lba bytes = some l ↔
      (∀ i < sectorsFor bytes, d.readable (lba + i) = true) ∧
        l = Bytes.window d.data (lba * sectorSize) bytes := by
  rw [read]
  split_ifs with h
  · constructor
    · intro hl
      exact ⟨h, (Option.some.inj hl).symm⟩
    · rintro ⟨-, rfl⟩
      rfl
  · constructor
    · intro hl
      cases hl
    · rintro ⟨hr, -⟩
      exact absurd hr h

theorem sectorsFor_mul (k : ℕ) : sectorsFor (k * sectorSize) = k := by
  change (k * 512 + 512 - 1) / 512 = k
  omega

theorem padded_of_length {k : ℕ} (h : bytes.length = k * sectorSize) :
    padded bytes = bytes := by
  simp [padded, h, sectorsFor_mul]

theorem sectorsFor_le {bytes k : ℕ} (h : bytes ≤ k * sectorSize) : sectorsFor bytes ≤ k := by
  have h' : bytes ≤ k * 512 := h
  change (bytes + 512 - 1) / 512 ≤ k
  omega

theorem le_sectorsFor_mul (bytes : ℕ) : bytes ≤ sectorsFor bytes * sectorSize := by
  change bytes ≤ (bytes + 512 - 1) / 512 * 512
  omega

@[simp] theorem store_nil (d : Disk) (lba : ℕ) : d.store lba [] = d := by
  have hdata : Bytes.overlay d.data (lba * sectorSize) [] = d.data :=
    funext fun i => by simp [Bytes.overlay]
  have hreadable : (fun i => d.readable i ||
      (decide (lba ≤ i) && decide (i < lba + sectorsFor ([] : List Byte).length))) =
      d.readable := by
    funext i
    have hnone : sectorsFor ([] : List Byte).length = 0 := by decide
    rw [hnone, Nat.add_zero, Bool.or_eq_left_iff_imp, Bool.and_eq_true, decide_eq_true_eq,
      decide_eq_true_eq]
    rintro ⟨h₁, h₂⟩
    exact absurd h₁ (not_le.2 h₂)
  rw [store, hdata, hreadable]

/-- **What was stored is read**, from any sector of it on. -/
theorem readable_store {lba i k : ℕ}
    (hlen : bytes.length = k * sectorSize) (h₁ : lba ≤ i) (h₂ : i < lba + k) :
    (d.store lba bytes).readable i = true := by
  simp only [store, hlen, sectorsFor_mul, Bool.or_eq_true, Bool.and_eq_true, decide_eq_true_eq]
  exact .inr ⟨h₁, h₂⟩

theorem read_store_of_disjoint {lba lba' bytes' : ℕ}
    (h : lba' + sectorsFor bytes' ≤ lba ∨ lba + sectorsFor bytes.length ≤ lba') :
    (d.store lba bytes).read lba' bytes' = d.read lba' bytes' := by
  have hlen := le_sectorsFor_mul bytes.length
  have hlen' := le_sectorsFor_mul bytes'
  have hscale : ∀ a n b c : ℕ, a + n ≤ b → a * c + n * c ≤ b * c := fun a n b c h => by
    rw [← Nat.add_mul]
    exact Nat.mul_le_mul_right c h
  have hreadable : ∀ i, i < sectorsFor bytes' →
      (d.store lba bytes).readable (lba' + i) = d.readable (lba' + i) := by
    intro i hi
    have : ¬ (lba ≤ lba' + i ∧ lba' + i < lba + sectorsFor bytes.length) := by omega
    simp only [store, Bool.or_eq_left_iff_imp, Bool.and_eq_true, decide_eq_true_eq]
    exact fun hc => absurd hc this
  have hdata : Bytes.window (d.store lba bytes).data (lba' * sectorSize) bytes' =
      Bytes.window d.data (lba' * sectorSize) bytes' := by
    refine Bytes.window_congr fun i h₁ h₂ => ?_
    rcases h with h | h
    · have hbelow := hscale _ _ _ sectorSize h
      exact Bytes.overlay_of_lt bytes
        (h₂.trans_le ((Nat.add_le_add_left hlen' _).trans hbelow))
    · have habove := hscale _ _ _ sectorSize h
      exact Bytes.overlay_of_ge (((Nat.add_le_add_left hlen _).trans habove).trans h₁)
  rw [read, read, hdata]
  congr 1
  refine propext (forall_congr' fun i => ?_)
  exact ⟨fun hi hlt => (hreadable i hlt).symm.trans (hi hlt),
    fun hi hlt => (hreadable i hlt).trans (hi hlt)⟩

end Disk

abbrev Devices := List Byte → Option Disk

/-- `ata_by_name` and its siblings drop a leading `/dev/`. -/
def deviceName (name : List Byte) : List Byte :=
  if name.take 5 = lit "/dev/" then name.drop 5 else name

def blockDeviceFind (devices : Devices) (name : List Byte) : Option Disk :=
  devices (deviceName name)

def Devices.set (devices : Devices) (name : List Byte) (d : Disk) : Devices := fun n =>
  if n = deviceName name then some d else devices n

theorem Devices.set_self {devices : Devices} {name : List Byte} {d : Disk}
    (h : blockDeviceFind devices name = some d) : devices.set name d = devices := by
  funext n
  rw [Devices.set]
  split_ifs with hn
  · rw [hn]
    exact h.symm
  · rfl

@[simp] theorem blockDeviceFind_set (devices : Devices) (name : List Byte) (d : Disk) :
    blockDeviceFind (devices.set name d) name = some d := by
  simp [blockDeviceFind, Devices.set]

end Tnu
