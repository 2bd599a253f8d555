/-
**What was written is read.**

The law that a program expects of `sys_block_write` and `sys_block_read`, on a disk that stores its
sectors faithfully: the bytes come back, no other byte of the disk changes, and a request that does not
fit changes nothing.  The write call cuts the address to 32 bits, fills up the last sector with zeros,
and fails only when it gets to a sector that is not there.

Main result:

* `blockLaw_iff` — **the law holds exactly for orderly requests**.
-/

import Tnu.Drivers.Devices

set_option autoImplicit false

namespace Tnu.Drivers

open Tnu.Sys

/-- The disk that the calls act on: the one that the name of the index leads to. -/
def acting (a : Attached) (index : ℕ) : Option BlockDevice :=
  (blockDeviceGet a index).bind fun reported =>
    (byName (ataInit a) reported.info.name).or (byName (ahciInit a) reported.info.name)

/-- All sectors of a request are on the disk, at addresses the driver can use. -/
def FitsDisk (v : Driver) (sectors lba count : ℕ) : Prop :=
  count = 0 ∨ lba + sectorsFor count ≤ min v.bound sectors

/-- **The law**, for requests of `count` bytes at `lba` to the disk `dev`, called by index: what was
written is read, nothing else is changed, and what does not fit fails without a change. -/
structure BlockLaw (a : Attached) (index : ℕ) (dev : BlockDevice) (sectors lba count : ℕ) : Prop where
  read_back : ∀ (drives : Drives) (buf : UserBuf) (out : ℕ), (drives dev.hardware).sectors = sectors →
    buf.bytes.length = count → uptrOk out count = true →
      (sysBlockWrite a drives index lba buf).2 = 0 →
        sysBlockRead a (sysBlockWrite a drives index lba buf).1 index lba out count = (buf.bytes, 0)
  frame : ∀ (drives : Drives) (buf : UserBuf), (drives dev.hardware).sectors = sectors →
    buf.bytes.length = count → (sysBlockWrite a drives index lba buf).2 = 0 →
      ∀ x, x < lba * sectorSize ∨ lba * sectorSize + count ≤ x →
        ((sysBlockWrite a drives index lba buf).1 dev.hardware).data x = (drives dev.hardware).data x
  refused : ¬FitsDisk dev.hardware.driver sectors lba count → ∀ (drives : Drives) (buf : UserBuf),
    (drives dev.hardware).sectors = sectors → buf.bytes.length = count →
      sysBlockWrite a drives index lba buf = (drives, -1)

/-- **The requests that obey the law**: of those that fit, the ones for whole sectors at an address of 32
bits; of the others, the ones that fail at their first command. -/
def OrderlyRequest (dev : BlockDevice) (sectors lba count : ℕ) : Prop :=
  if count = 0 then ∀ slot, dev.hardware = .ata slot → lba < 0x10000000
  else if lba + sectorsFor count ≤ min dev.hardware.driver.bound sectors then
    count % sectorSize = 0 ∧ lba < 2 ^ 32
  else min dev.hardware.driver.bound sectors <
    lba % 2 ^ 32 + sectorsFor (min count dev.hardware.driver.chunk)

/-! ### The calls, on the disk they act on -/

variable {a : Attached} {index lba count sectors : ℕ} {dev : BlockDevice} {drives : Drives}

theorem blockDeviceGet_writable (h : blockDeviceGet a index = some dev) : dev.info.writable = true := by
  rcases blockDeviceGet_cases h with h | ⟨j, -, h⟩
  · obtain ⟨-, slot, n, -, rfl⟩ := getElem?_ataInit h
    rfl
  · obtain ⟨port, rfl⟩ := getElem?_ahciInit h
    rfl

variable {name bytes : List Byte}

theorem hardware_of_byName_ata (h : byName (ataInit a) name = some dev) :
    ∃ slot, dev.hardware = .ata slot := by
  obtain ⟨i, hi⟩ := List.getElem?_of_mem (List.mem_of_find?_eq_some h)
  obtain ⟨-, slot, n, -, rfl⟩ := getElem?_ataInit hi
  exact ⟨slot, rfl⟩

theorem hardware_of_byName_ahci (h : byName (ahciInit a) name = some dev) :
    ∃ j, dev.hardware = .ahci j := by
  obtain ⟨i, hi⟩ := List.getElem?_of_mem (List.mem_of_find?_eq_some h)
  obtain ⟨port, rfl⟩ := getElem?_ahciInit hi
  exact ⟨i, rfl⟩

/-- **The write call, on the disk it acts on.** -/
theorem sysBlockWrite_eq (h : acting a index = some dev) (drives : Drives) (lba : ℕ) (buf : UserBuf) :
    sysBlockWrite a drives index lba buf =
      if buf.ptr = 0 ∨ uptrOk buf.ptr buf.bytes.length = false then (drives, -1)
      else driverWrite dev.hardware.driver drives dev (lba % 2 ^ 32) buf.bytes := by
  obtain ⟨reported, hget, hacts⟩ := Option.bind_eq_some_iff.1 h
  simp only [sysBlockWrite, hget, blockDeviceGet_writable hget, Bool.true_eq_false, if_false,
    blockWriteLba28]
  rcases Option.or_eq_some_iff.1 hacts with hata | ⟨hnone, hahci⟩
  · obtain ⟨slot, hslot⟩ := hardware_of_byName_ata hata
    simp only [hata, hslot, Hardware.driver]
  · obtain ⟨j, hj⟩ := hardware_of_byName_ahci hahci
    simp only [hnone, hahci, hj, Hardware.driver]

/-- **The read call, on the disk it acts on.** -/
theorem sysBlockRead_eq (h : acting a index = some dev) (drives : Drives) (lba buf bytes : ℕ) :
    sysBlockRead a drives index lba buf bytes =
      if buf = 0 ∨ uptrOk buf bytes = false then ([], -1) else deviceRead drives dev lba bytes := by
  obtain ⟨reported, hget, hacts⟩ := Option.bind_eq_some_iff.1 h
  simp only [sysBlockRead, hget, blockRead]
  rcases Option.or_eq_some_iff.1 hacts with hata | ⟨hnone, hahci⟩
  · obtain ⟨slot, hslot⟩ := hardware_of_byName_ata hata
    simp only [hata, deviceRead, hslot]
  · obtain ⟨j, hj⟩ := hardware_of_byName_ahci hahci
    simp only [hnone, hahci, deviceRead, hj]

theorem driver_sound (w : Hardware) : ∃ q, w.driver.Sound q := by
  cases w with
  | ata slot => exact ⟨1, ataDriver_sound⟩
  | ahci j => exact ⟨128, ahciDriver_sound⟩
  | nvme j => exact ⟨128, ahciDriver_sound⟩

theorem deviceRead_eq (hlba : ∀ slot, dev.hardware = .ata slot → lba < 0x10000000) :
    deviceRead drives dev lba count =
      readLoop dev.hardware.driver (drives dev.hardware) (turns dev.hardware.driver count) lba count := by
  rw [deviceRead]
  cases hw : dev.hardware with
  | ata slot => simp only [ataRead, hw, if_neg (not_le.2 (hlba slot hw)), Hardware.driver]
  | ahci j => simp only [ahciRead, hw, Hardware.driver]
  | nvme j => simp only [ahciRead, hw, Hardware.driver]

theorem uptrOk_page (h : count < 2 ^ 32) : uptrOk 0x1000 count = true := by
  have hmod : (0x1000 + count) % 2 ^ 64 = 0x1000 + count := Nat.mod_eq_of_lt (by omega)
  rw [uptrOk, hmod]
  simp

theorem ne_zero_of_uptrOk {p n : ℕ} (h : uptrOk p n = true) : p ≠ 0 := by
  rintro rfl
  simp [uptrOk] at h

/-! ### Requests that break the law -/

theorem byte_zero_ne_one : (0 : Byte) ≠ 1 := by decide

def filled (sectors : ℕ) (b : Byte) : Drives := fun _ => ⟨sectors, fun _ => b⟩

def filledBuf (count : ℕ) (b : Byte) : UserBuf := ⟨0x1000, List.replicate count b⟩

theorem sysBlockWrite_filledBuf (h : acting a index = some dev) (hcount : count < 2 ^ 32)
    (drives : Drives) (b : Byte) :
    sysBlockWrite a drives index lba (filledBuf count b) =
      driverWrite dev.hardware.driver drives dev (lba % 2 ^ 32) (List.replicate count b) := by
  rw [sysBlockWrite_eq h, filledBuf, if_neg]
  simp [List.length_replicate, uptrOk_page hcount]

theorem sectorsFor_lt (hcount : count < 2 ^ 32) : sectorsFor count ≤ 2 ^ 23 :=
  Disk.sectorsFor_le (by norm_num [sectorSize]; omega)

theorem reaches_mod (v : Driver) (lba : ℕ) : v.Reaches (lba % 2 ^ 32) := by
  have hlt := Nat.mod_lt lba (show 0 < 2 ^ 32 by norm_num)
  exact ⟨by omega, fun _ => hlt⟩

theorem changed_of_first (h : acting a index = some dev) (hcount : count < 2 ^ 32) (hpos : 0 < count)
    (hfirst : lba % 2 ^ 32 + sectorsFor (min count dev.hardware.driver.chunk) ≤
      min dev.hardware.driver.bound sectors) :
    ((sysBlockWrite a (filled sectors 0) index lba (filledBuf count 1)).1 dev.hardware).data
      (lba % 2 ^ 32 * sectorSize) = 1 := by
  obtain ⟨q, hv⟩ := driver_sound dev.hardware
  have hfew := sectorsFor_lt hcount
  have hlt := Nat.mod_lt lba (show 0 < 2 ^ 32 by norm_num)
  rw [sysBlockWrite_filledBuf h hcount (filled sectors 0) 1, driverWrite]
  simp only [Function.update_self, List.length_replicate]
  have hbyte : some ((writeLoop dev.hardware.driver (turns dev.hardware.driver count) (lba % 2 ^ 32)
      (List.replicate count 1) (filled sectors 0 dev.hardware)).1.data (lba % 2 ^ 32 * sectorSize)) =
        (List.replicate count (1 : Byte))[0]? := writeLoop_first_byte hv
    (by rw [List.length_replicate]; exact turnsFor_turns hv count) (reaches_mod _ lba)
    (by rw [List.length_replicate]; omega) (by rwa [List.length_replicate])
    (by rw [List.length_replicate]; exact hfirst)
  rw [List.getElem?_replicate_of_lt hpos, Option.some.injEq] at hbyte
  exact hbyte

/-! ### The write call, where its address leads -/

theorem driverWrite_of_fits (hcount : bytes.length < 2 ^ 32)
    (hfits : lba % 2 ^ 32 + sectorsFor bytes.length ≤
      min dev.hardware.driver.bound (drives dev.hardware).sectors) :
    driverWrite dev.hardware.driver drives dev (lba % 2 ^ 32) bytes =
      (Function.update drives dev.hardware
        ((drives dev.hardware).store (lba % 2 ^ 32) (Disk.padded bytes)), 0) := by
  obtain ⟨q, hv⟩ := driver_sound dev.hardware
  have hfew := sectorsFor_lt hcount
  have hlt := Nat.mod_lt lba (show 0 < 2 ^ 32 by norm_num)
  rw [driverWrite, writeLoop_of_fits hv (turnsFor_turns hv _) (reaches_mod _ lba) hfits (by omega)]

theorem driverWrite_of_first (hpos : 0 < bytes.length)
    (hfirst : min dev.hardware.driver.bound (drives dev.hardware).sectors <
      lba % 2 ^ 32 + sectorsFor (min bytes.length dev.hardware.driver.chunk)) :
    driverWrite dev.hardware.driver drives dev (lba % 2 ^ 32) bytes = (drives, -1) := by
  obtain ⟨q, hv⟩ := driver_sound dev.hardware
  have hturns : turns dev.hardware.driver bytes.length ≠ 0 := fun hzero => by
    have h := turnsFor_turns hv bytes.length
    rw [hzero] at h
    exact hpos.ne' h.zero
  rw [driverWrite, writeLoop_of_first hv (reaches_mod _ lba) hpos hfirst hturns,
    Function.update_eq_self]

theorem driverWrite_nil (drives : Drives) (lba : ℕ) :
    driverWrite dev.hardware.driver drives dev lba [] = (drives, 0) := by
  obtain ⟨q, hv⟩ := driver_sound dev.hardware
  have hturns : turns dev.hardware.driver 0 = 0 :=
    Nat.div_eq_of_lt (by have := hv.chunk_pos; omega)
  rw [driverWrite, List.length_nil, hturns, writeLoop, Function.update_eq_self]

/-! ### The law -/

variable (h : acting a index = some dev) (hcount : count < 2 ^ 32)
include h hcount

theorem blockLaw_zero_iff (hzero : count = 0) : BlockLaw a index dev sectors lba count ↔
    ∀ slot, dev.hardware = .ata slot → lba < 0x10000000 := by
  subst hzero
  have hwrite : ∀ (drives : Drives) (buf : UserBuf), buf.bytes.length = 0 →
      (sysBlockWrite a drives index lba buf).1 = drives := by
    intro drives buf hlen
    rw [sysBlockWrite_eq h, List.length_eq_zero_iff.1 hlen, driverWrite_nil]
    split
    · rfl
    · rfl
  constructor
  · intro law slot hslot
    by_contra hlarge
    have hres : (sysBlockWrite a (filled sectors 0) index lba (filledBuf 0 0)).2 = 0 := by
      rw [sysBlockWrite_filledBuf h hcount, List.replicate_zero, driverWrite_nil]
    have hread := law.read_back (filled sectors 0) (filledBuf 0 0) 0x1000 rfl rfl
      (uptrOk_page hcount) hres
    rw [hwrite _ _ rfl, sysBlockRead_eq h, if_neg (by rw [uptrOk_page hcount]; simp), deviceRead,
      hslot] at hread
    simp only [ataRead, if_pos (not_lt.1 hlarge)] at hread
    exact absurd (congrArg Prod.snd hread) (by norm_num)
  · intro hlba
    refine ⟨fun drives buf out hsec hlen hout hres => ?_, fun drives buf hsec hlen hres x hx => ?_,
      fun hfits => absurd (.inl rfl) hfits⟩
    · obtain ⟨q, hv⟩ := driver_sound dev.hardware
      have hturns : turns dev.hardware.driver 0 = 0 :=
        Nat.div_eq_of_lt (by have := hv.chunk_pos; omega)
      have hptr : ¬(out = 0 ∨ uptrOk out 0 = false) := by
        rw [hout, not_or]
        exact ⟨ne_zero_of_uptrOk hout, by simp⟩
      rw [hwrite drives buf hlen, sysBlockRead_eq h, if_neg hptr, deviceRead_eq hlba, hturns,
        List.length_eq_zero_iff.1 hlen, readLoop]
    · rw [hwrite drives buf hlen]

theorem blockLaw_fits_iff (hpos : 0 < count)
    (hfits : lba + sectorsFor count ≤ min dev.hardware.driver.bound sectors) :
    BlockLaw a index dev sectors lba count ↔ count % sectorSize = 0 ∧ lba < 2 ^ 32 := by
  have hmod : lba % 2 ^ 32 ≤ lba := Nat.mod_le _ _
  constructor
  · intro law
    have hwrite : ∀ b b' : Byte, sysBlockWrite a (filled sectors b) index lba (filledBuf count b') =
        (Function.update (filled sectors b) dev.hardware ((filled sectors b dev.hardware).store
          (lba % 2 ^ 32) (Disk.padded (List.replicate count b'))), 0) := by
      intro b b'
      rw [sysBlockWrite_filledBuf h hcount]
      exact driverWrite_of_fits (by rwa [List.length_replicate])
        (by rw [List.length_replicate]; exact (Nat.add_le_add_right hmod _).trans hfits)
    have hframe : ∀ (b b' : Byte) (x : ℕ), x < lba * sectorSize ∨ lba * sectorSize + count ≤ x →
        ((sysBlockWrite a (filled sectors b) index lba (filledBuf count b')).1 dev.hardware).data x =
          b := fun b b' x hx =>
      law.frame (filled sectors b) (filledBuf count b') rfl List.length_replicate
        (by rw [hwrite]) x hx
    have hlow : lba < 2 ^ 32 := by
      -- the sectors of the cut address are changed
      by_contra hlarge
      have hcut : lba % 2 ^ 32 < lba := by
        have := Nat.mod_lt lba (show 0 < 2 ^ 32 by norm_num)
        omega
      have hsec : sectorsFor (min count dev.hardware.driver.chunk) ≤ sectorsFor count :=
        Nat.div_le_div_right (by omega)
      have hfirst : lba % 2 ^ 32 + sectorsFor (min count dev.hardware.driver.chunk) ≤
          min dev.hardware.driver.bound sectors := by omega
      have hone := changed_of_first h hcount hpos hfirst
      rw [hframe 0 1 _ (.inl (Nat.mul_lt_mul_of_pos_right hcut (by norm_num)))] at hone
      exact byte_zero_ne_one hone
    refine ⟨?_, hlow⟩
    -- the zeros behind the last byte are written too
    by_contra htail
    have hmodeq : lba % 2 ^ 32 = lba := Nat.mod_eq_of_lt hlow
    have hkeep := hframe 1 0 (lba * sectorSize + count) (.inr le_rfl)
    rw [hwrite, hmodeq] at hkeep
    simp only [Function.update_self] at hkeep
    have hin : count < (Disk.padded (List.replicate count (0 : Byte))).length := by
      have hle := Disk.le_sectorsFor_mul count
      rw [length_padded, List.length_replicate]
      refine lt_of_le_of_ne hle fun heq => htail ?_
      rw [heq, Nat.mul_mod_left]
    have hbyte := Bytes.overlay_add (f := (filled sectors 1 dev.hardware).data)
      (a := lba * sectorSize) hin
    have hkeep' : Bytes.overlay (filled sectors 1 dev.hardware).data (lba * sectorSize)
        (Disk.padded (List.replicate count 0)) (lba * sectorSize + count) = 1 := hkeep
    rw [hkeep', Disk.padded, List.getElem?_append_right (by simp), List.length_replicate, Nat.sub_self,
      List.getElem?_replicate] at hbyte
    split at hbyte
    · exact absurd (Option.some.inj hbyte) (by decide)
    · cases hbyte
  · rintro ⟨hwhole, hlow⟩
    have hmodeq : lba % 2 ^ 32 = lba := Nat.mod_eq_of_lt hlow
    have hwhole' : count = sectorsFor count * sectorSize := by
      obtain ⟨k, hk⟩ := Nat.dvd_of_mod_eq_zero hwhole
      rw [hk, Nat.mul_comm, Disk.sectorsFor_mul]
    have hwrite : ∀ (drives : Drives) (buf : UserBuf), (drives dev.hardware).sectors = sectors →
        buf.bytes.length = count → (sysBlockWrite a drives index lba buf).2 = 0 →
          (sysBlockWrite a drives index lba buf).1 = Function.update drives dev.hardware
            ((drives dev.hardware).store lba buf.bytes) := by
      intro drives buf hsec hlen hres
      have hpad : Disk.padded buf.bytes = buf.bytes :=
        Disk.padded_of_length (hlen.trans hwhole')
      have hstored : driverWrite dev.hardware.driver drives dev (lba % 2 ^ 32) buf.bytes = _ :=
        driverWrite_of_fits (by rwa [hlen]) (by rw [hmodeq, hlen, hsec]; exact hfits)
      rw [hmodeq, hpad] at hstored
      rw [sysBlockWrite_eq h, hmodeq, hstored] at hres ⊢
      split at hres
      · cases hres
      · next hptr => rw [if_neg hptr]
    refine ⟨fun drives buf out hsec hlen hout hres => ?_, fun drives buf hsec hlen hres x hx => ?_,
      fun hnot => absurd (.inr hfits) hnot⟩
    · have hptr : ¬(out = 0 ∨ uptrOk out count = false) := by
        rw [hout, not_or]
        exact ⟨ne_zero_of_uptrOk hout, by simp⟩
      have hata : ∀ slot, dev.hardware = .ata slot → lba < 0x10000000 := by
        intro slot hslot
        have hsome := sectorsFor_pos hpos
        have hbound := hfits.trans (min_le_left _ _)
        rw [hslot, Hardware.driver, ataDriver_bound] at hbound
        omega
      obtain ⟨q, hv⟩ := driver_sound dev.hardware
      have hfew := sectorsFor_lt hcount
      rw [hwrite drives buf hsec hlen hres, sysBlockRead_eq h, if_neg hptr, deviceRead_eq hata,
        Function.update_self, readLoop_of_fits hv (turnsFor_turns hv count)
          ⟨by omega, fun _ => hlow⟩ (by rw [limit_store, limit, hsec]; exact hfits) (by omega),
        Drive.store, (Bytes.holds_overlay _ _ _).window_eq hlen]
    · rw [hwrite drives buf hsec hlen hres, Function.update_self, Drive.store]
      rcases hx with hx | hx
      · exact Bytes.overlay_of_lt _ hx
      · exact Bytes.overlay_of_ge (hlen ▸ hx)

theorem blockLaw_not_fits_iff (hpos : 0 < count)
    (hfits : ¬lba + sectorsFor count ≤ min dev.hardware.driver.bound sectors) :
    BlockLaw a index dev sectors lba count ↔ min dev.hardware.driver.bound sectors <
      lba % 2 ^ 32 + sectorsFor (min count dev.hardware.driver.chunk) := by
  constructor
  · intro law
    by_contra hfirst
    have hkeep := law.refused (not_or.2 ⟨hpos.ne', hfits⟩) (filled sectors 0) (filledBuf count 1) rfl
      List.length_replicate
    have hone := changed_of_first h hcount hpos (not_lt.1 hfirst)
    rw [hkeep] at hone
    exact byte_zero_ne_one hone
  · intro hfirst
    have hfail : ∀ (drives : Drives) (buf : UserBuf), (drives dev.hardware).sectors = sectors →
        buf.bytes.length = count → sysBlockWrite a drives index lba buf = (drives, -1) := by
      intro drives buf hsec hlen
      rw [sysBlockWrite_eq h, driverWrite_of_first (by rwa [hlen]) (by rw [hsec, hlen]; exact hfirst)]
      split
      · rfl
      · rfl
    have hno : ∀ (drives : Drives) (buf : UserBuf), (drives dev.hardware).sectors = sectors →
        buf.bytes.length = count → (sysBlockWrite a drives index lba buf).2 ≠ 0 := by
      intro drives buf hsec hlen
      rw [hfail drives buf hsec hlen]
      norm_num
    exact ⟨fun drives buf out hsec hlen hout hres => absurd hres (hno drives buf hsec hlen),
      fun drives buf hsec hlen hres => absurd hres (hno drives buf hsec hlen),
      fun _ drives buf hsec hlen => hfail drives buf hsec hlen⟩

/-- **The law holds exactly for orderly requests.** -/
theorem blockLaw_iff (lba : ℕ) :
    BlockLaw a index dev sectors lba count ↔ OrderlyRequest dev sectors lba count := by
  rw [OrderlyRequest]
  split
  · next hzero => exact blockLaw_zero_iff h hcount hzero
  · next hne =>
    split
    · next hfits => exact blockLaw_fits_iff h hcount (Nat.pos_of_ne_zero hne) hfits
    · next hfits => exact blockLaw_not_fits_iff h hcount (Nat.pos_of_ne_zero hne) hfits

omit h hcount

def oneAttached : Attached where
  ata slot := if slot.val = 0 then some 2048 else none
  ahci := []
  nvme := []

theorem acting_oneAttached : acting oneAttached 0 = some (ataDevice 0 0 2048) := by
  decide

/-- The last sector of a disk can be written and read. -/
theorem blockLaw_iff_last : BlockLaw oneAttached 0 (ataDevice 0 0 2048) 2048 2047 512 :=
  (blockLaw_iff acting_oneAttached (by norm_num) 2047).2 (by unfold OrderlyRequest; decide)

/-- Two sectors at the last one: the first of them is written before the request fails. -/
theorem not_blockLaw : ¬∀ (a : Attached) (index : ℕ) (dev : BlockDevice) (sectors lba count : ℕ),
    acting a index = some dev → count < 2 ^ 32 → BlockLaw a index dev sectors lba count := by
  intro hall
  have law := hall oneAttached 0 (ataDevice 0 0 2048) 2048 2047 1024 acting_oneAttached (by norm_num)
  have hkeep := law.refused (by unfold FitsDisk; decide) (filled 2048 0) (filledBuf 1024 1) rfl
    List.length_replicate
  have hfirst : 2047 % 2 ^ 32 + sectorsFor (min 1024 (ataDevice 0 0 2048).hardware.driver.chunk) ≤
      min (ataDevice 0 0 2048).hardware.driver.bound 2048 := by decide
  have hone := changed_of_first acting_oneAttached (by norm_num) (by norm_num) hfirst
  rw [hkeep] at hone
  exact byte_zero_ne_one hone

end Tnu.Drivers
