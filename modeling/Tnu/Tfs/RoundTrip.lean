/-
**From the tree to the disk and back.**

What `tfs_sync` leaves on a device, and what `tfs_mount_disk` makes of it.  The table it writes is
read back byte for byte; a device on which only the first sectors of it arrived still mounts,
because zeros only make the fields smaller.

Main definitions:

* `Machine` — a machine a disk is mounted on, with memory enough for the table;
* `Machine.decode` — the tree a device mounts to.

Main results:

* `mountDisk_of_dominated` — **a table with any of its bytes zeroed mounts**;
* `mountDisk_of_holds` — **the whole table mounts to the stored entries**;
* `roundTrips_iff`, `syncs_iff`, `tfsSync_outcome`.
-/

import Tnu.Tfs.Torn

set_option autoImplicit false

namespace Tnu.Tfs

open Vfs

variable {s : Pool}

/-! ### The table -/

def storedTable (s : Pool) : List TfsEntry := (storedNodes s).map (storedEntry s)

theorem length_storedTable (hs : Wf s) : (storedTable s).length ≤ tfsMaxEntries := by
  rw [storedTable, List.length_map]
  exact (List.length_filter_le _ _).trans (length_tail_tree hs).le

theorem length_headerBuf_storedTable (hs : Wf s) :
    (headerBuf (storedTable s)).length = tableSectors * sectorSize := by
  exact (length_headerBuf (length_storedTable hs)).trans dataOffset_eq

theorem small_storedEntry (s : Pool) (e : NamePath × ℕ) : Small (storedEntry s e) where
  type_lt := by
    simp only [storedEntry, entryFor]
    split_ifs <;> decide
  type_mem := by
    simp only [storedEntry, entryFor]
    split_ifs
    · exact .inl rfl
    · exact .inr rfl
  size := rfl
  offset_le := by
    simp only [storedEntry]
    split_ifs
    · exact le_rfl
    · exact Nat.zero_le _
  mtime_lt := Nat.mod_lt _ (by decide)

theorem small_of_mem_storedTable {e : TfsEntry} (h : e ∈ storedTable s) : Small e := by
  obtain ⟨p, -, rfl⟩ := List.mem_map.1 h
  exact small_storedEntry s p

/-! ### Writing it -/

/-- Persistence is on: a device is named, and no sync is under way. -/
structure TfsState.Active (t : TfsState) : Prop where
  enabled : t.persistentEnabled = true
  named : t.persistentDevice.chars ≠ []
  idle : t.syncInProgress = false

theorem secondPass_of_small (s : Pool) (faults : ℕ → Option ℕ) (t : TfsState) (w : WriteState) :
    ∀ entries : List TfsEntry, (∀ e ∈ entries, Small e) → secondPass s faults t entries w = w := by
  intro entries
  induction entries with
  | nil => intro _; rfl
  | cons e entries ih =>
    intro h
    rw [secondPass, List.foldl_cons, writeEntryData, if_pos (.inr (h e (by simp)).size)]
    exact ih fun d hd => h d (by simp [hd])

variable {devices : Devices} {device : List Byte} {entries : List TfsEntry} {t : TfsState}
  {start : UInt64} {kmalloc : ℕ → Bool} {f : ℕ → Byte}

theorem tfsSync_of_no_device (kmalloc : ℕ → Bool) (faults : ℕ → Option ℕ)
    (ht : t.Active)
    (hd : blockDeviceFind devices t.persistentDevice.chars = none) :
    tfsSync kmalloc faults s t devices = (t, devices, -1) := by
  rw [tfsSync, if_neg (by simp [ht.enabled]), if_neg ht.named, if_neg (by simp [ht.idle]),
    if_pos (by rw [hd]; rfl)]

theorem tfsSync_of_no_memory (faults : ℕ → Option ℕ)
    (ht : t.Active) (devices : Devices) (hk : kmalloc tableRequest = false) :
    tfsSync kmalloc faults s t devices = (t, devices, -1) := by
  rw [tfsSync, if_neg (by simp [ht.enabled]), if_neg ht.named, if_neg (by simp [ht.idle])]
  split_ifs
  · rfl
  · rfl

/-- **A tree that is not syncable is refused**, before anything is written. -/
theorem tfsSync_of_not_syncable (hs : Wf s) (hok : ∀ n, NodeOk (s.nodes n)) (kmalloc : ℕ → Bool)
    (faults : ℕ → Option ℕ) (ht : t.Active) (devices : Devices)
    (h : ¬ Syncable s) : tfsSync kmalloc faults s t devices = (t, devices, -1) := by
  rw [tfsSync, if_neg (by simp [ht.enabled]), if_neg ht.named, if_neg (by simp [ht.idle])]
  simp only
  split_ifs with hd hk hf
  · rfl
  · rfl
  · rfl
  · exact absurd (firstPass_of_not_syncable hs hok h) hf
  · exact absurd (firstPass_of_not_syncable hs hok h) hf

/-- **A syncable tree is written**, header and table at once; a fault of that write is the only
failure. -/
theorem tfsSync_of_syncable (hs : Wf s) (hok : ∀ n, NodeOk (s.nodes n))
    (faults : ℕ → Option ℕ) (ht : t.Active) {d : Disk}
    (hd : blockDeviceFind devices t.persistentDevice.chars = some d)
    (hk : kmalloc tableRequest = true) (h : Syncable s) :
    (tfsSync kmalloc faults s t devices).2 =
      (devices.set t.persistentDevice.chars
        (d.write t.persistentStartLba.toUInt32 (headerBuf (storedTable s)) (faults 0)).1,
        (d.write t.persistentStartLba.toUInt32 (headerBuf (storedTable s)) (faults 0)).2) := by
  have hpad : Disk.padded (headerBuf (storedTable s)) = headerBuf (storedTable s) :=
    Disk.padded_of_length (length_headerBuf_storedTable hs)
  have hwrite : writeImageToDisk faults t ⟨devices, 0⟩ (headerBuf (storedTable s)) =
      if (d.write t.persistentStartLba.toUInt32 (headerBuf (storedTable s)) (faults 0)).2 < 0 then
        (t, ⟨devices.set t.persistentDevice.chars
          (d.write t.persistentStartLba.toUInt32 (headerBuf (storedTable s)) (faults 0)).1, 1⟩, -1)
      else ({ t with lastImageSize := (headerBuf (storedTable s)).length },
        ⟨devices.set t.persistentDevice.chars
          (d.write t.persistentStartLba.toUInt32 (headerBuf (storedTable s)) (faults 0)).1, 1⟩,
        0) := by
    rw [writeImageToDisk, hpad]
    simp only [blockWrite, hd]
  have hctx : (firstPass s).entries = storedTable s ∧ (firstPass s).failed = false := by
    rw [firstPass_of_syncable hs hok h]
    exact ⟨rfl, rfl⟩
  rw [tfsSync, if_neg (by simp [ht.enabled]), if_neg ht.named, if_neg (by simp [ht.idle]),
    if_neg (by rw [hd]; simp), if_neg (by rw [hk]; simp)]
  simp only [hctx.1, hctx.2, hwrite]
  cases hf : faults 0 with
  | none =>
    simp [Disk.write, secondPass_of_small s faults _ _ _ fun e he => small_of_mem_storedTable he]
  | some k => simp [Disk.write]

/-! ### What was written -/

theorem toNat_toUInt32 (lba : UInt64) : lba.toUInt32.toNat = lba.toNat % 2 ^ 32 :=
  UInt64.toNat_toUInt32 lba

theorem headerBuf_eq (entries : List TfsEntry) : headerBuf entries =
    encodeHeader entries.length ++ (List.replicate (tfsTableAlign - headerSize) 0
      ++ (entries.flatMap encodeEntry
        ++ List.replicate (dataOffset - tfsTableAlign - entries.length * entrySize) 0)) := by
  rw [headerBuf, List.append_assoc, List.append_assoc]

theorem holds_headerBuf {a : ℕ}
    (h : Bytes.Holds f a (headerBuf entries)) :
    Bytes.Holds f a (encodeHeader entries.length) ∧
      Bytes.Holds f (a + tfsTableAlign) (entries.flatMap encodeEntry) := by
  rw [headerBuf_eq, Bytes.holds_append, Bytes.holds_append, Bytes.holds_append,
    length_encodeHeader, List.length_replicate] at h
  have hskip : a + headerSize + (tfsTableAlign - headerSize) = a + tfsTableAlign := by
    rw [Nat.add_assoc]
    rfl
  rw [hskip] at h
  exact ⟨h.1, h.2.2.1⟩

theorem below_headerBuf {a : ℕ}
    (h : Bytes.Below f a (headerBuf entries)) :
    Bytes.Below f (a + tfsTableAlign) (entries.flatMap encodeEntry) := by
  rw [headerBuf_eq, Bytes.below_append, Bytes.below_append, Bytes.below_append,
    length_encodeHeader, List.length_replicate] at h
  have hskip : a + headerSize + (tfsTableAlign - headerSize) = a + tfsTableAlign := by
    rw [Nat.add_assoc]
    rfl
  rw [hskip] at h
  exact h.2.2.1

theorem torn_store (hs : Wf s) (d : Disk) (start : ℕ) :
    Torn (d.store start (headerBuf (storedTable s))) start (storedTable s) ∧
      Bytes.Holds (d.store start (headerBuf (storedTable s))).data
        (start * sectorSize + tfsTableAlign) ((storedTable s).flatMap encodeEntry) := by
  have hholds : Bytes.Holds (d.store start (headerBuf (storedTable s))).data (start * sectorSize)
      (headerBuf (storedTable s)) := Bytes.holds_overlay _ _ _
  obtain ⟨hheader, htable⟩ := holds_headerBuf hholds
  refine ⟨⟨fun i hi => ?_, hheader, htable.below, fun e he => small_of_mem_storedTable he,
    length_storedTable hs⟩, htable⟩
  exact Disk.readable_store (length_headerBuf_storedTable hs) (Nat.le_add_right _ _)
    (Nat.add_lt_add_left hi _)

/-- **A synced device mounts to the stored tree.** -/
theorem mount_of_synced (hs : Wf s) (M : Machine) (devices : Devices) (d : Disk)
    (hname : device ≠ []) (hstart : start.toNat < 2 ^ 32) :
    let devices' := devices.set device
      (d.store start.toUInt32.toNat (headerBuf (storedTable s)))
    (M.mount devices' device start).rc = 0 ∧ (M.mount devices' device start).pool = remount s := by
  intro devices'
  have hlba : start.toUInt32.toNat = start.toNat := by
    rw [toNat_toUInt32, Nat.mod_eq_of_lt hstart]
  obtain ⟨htorn, htable⟩ := torn_store hs d start.toNat
  have hd : blockDeviceFind devices' device =
      some (d.store start.toNat (headerBuf (storedTable s))) := by
    rw [← hlba]
    exact blockDeviceFind_set devices device _
  refine ⟨M.mount_of_torn hname hd htorn hstart, ?_⟩
  rw [M.mount_of_holds hname hd htorn hstart htable, storedTable, List.foldl_map]
  rfl

def blank : Disk where
  data _ := 0
  readable _ := true

theorem diskHeader_of_blank {d : Disk}
    (h : d.read start.toNat sectorSize = blank.read start.toNat sectorSize) :
    diskHeader d start = none := by
  have hblank : blank.read start.toNat sectorSize =
      some (Bytes.window blank.data (start.toNat * sectorSize) sectorSize) := if_pos fun _ _ => rfl
  have hmagic : (readHeader (bufStore
      (Bytes.window blank.data (start.toNat * sectorSize) sectorSize)) 0).magic ≠ tfsMagic := by
    have hwindow := window_bufStore (f := blank.data) (a := start.toNat * sectorSize) (b := 0)
      (by decide : 0 + 8 ≤ sectorSize)
    rw [readHeader, hwindow]
    intro hc
    have hfirst : (0 : Byte) = 84 := (List.cons.inj hc).1
    exact absurd hfirst (by decide)
  rw [diskHeader, h, hblank, Option.bind_some]
  exact if_pos (.inl hmagic)

/-- **A sync whose start is behind the first 2^32 sectors** leaves no header where the mount looks
for it: the first write takes the low 32 bits of the start only. -/
theorem mount_of_truncated (hs : Wf s) (M : Machine) (devices : Devices)
    (hstart : 2 ^ 32 ≤ start.toNat) :
    (M.mount (devices.set device
      (blank.store start.toUInt32.toNat (headerBuf (storedTable s)))) device start).rc ≠ 0 := by
  refine M.mount_of_no_header ?_
  rw [blockDeviceFind_set, Option.bind_some]
  refine diskHeader_of_blank (Disk.read_store_of_disjoint (.inr ?_))
  have hsectors := Disk.sectorsFor_mul tableSectors
  rw [← length_headerBuf_storedTable hs] at hsectors
  have hlow := Nat.mod_lt start.toNat (by decide : 0 < 2 ^ 32)
  have hmod := Nat.div_add_mod start.toNat (2 ^ 32)
  have hpos : 1 ≤ start.toNat / 2 ^ 32 := (Nat.one_le_div_iff (by decide)).2 hstart
  have hcount : tableSectors = 600 := rfl
  rw [hsectors, toNat_toUInt32]
  omega

/-- **A table torn off over a blank device** mounts. -/
theorem torn_blank (hs : Wf s) (start : ℕ) {k : ℕ} (hk : 0 < k) :
    Torn (blank.store start ((headerBuf (storedTable s)).take (k * sectorSize))) start
      (storedTable s) := by
  set l := headerBuf (storedTable s) with hl
  have hheld : Bytes.Holds (blank.store start (l.take (k * sectorSize))).data
      (start * sectorSize) (l.take (k * sectorSize)) := Bytes.holds_overlay _ _ _
  have hbelow : Bytes.Below (blank.store start (l.take (k * sectorSize))).data
      (start * sectorSize) l := by
    rw [← List.take_append_drop (k * sectorSize) l, Bytes.below_append,
      List.take_append_drop (k * sectorSize) l]
    exact ⟨hheld.below, Bytes.below_of_zero fun i hi _ => Bytes.overlay_of_ge hi⟩
  have hprefix : encodeHeader (storedTable s).length <+: l.take (k * sectorSize) := by
    refine List.prefix_take_iff.2 ⟨?_, ?_⟩
    · rw [hl, headerBuf_eq]
      exact List.prefix_append _ _
    · rw [length_encodeHeader]
      exact (by decide : headerSize ≤ sectorSize).trans (Nat.le_mul_of_pos_left _ hk)
  obtain ⟨rest, hrest⟩ := hprefix
  rw [← hrest, Bytes.holds_append] at hheld
  rw [hrest] at hheld
  exact ⟨fun _ _ => rfl, hheld.1, below_headerBuf hbelow,
    fun e he => small_of_mem_storedTable he, length_storedTable hs⟩

/-! ### Trees to try -/

theorem syncable_vfsInit : Syncable vfsInit := by
  intro cs n hw
  have hempty : (vfsInit.nodes n).type = .file → (vfsInit.nodes n).size = 0 := fun hfile => by
    rw [all_dir_vfsInit n] at hfile
    cases hfile
  by_cases hn : n = rootNode
  · subst hn
    obtain rfl : cs = [] := wf_vfsInit.walk_injective hw (walk_nil _ _)
    exact ⟨by simp, by simp, fun _ => hempty⟩
  · have hlt : n < vfsInit.nodeCount := wf_vfsInit.walk_lt cs wf_vfsInit.count_pos hw
    obtain rfl := wf_vfsInit.walk_injective hw (vfsInit_first n hlt hn).2
    have hname : (vfsInit.nodes n).name.chars.length ≤ 63 := (vfsInit.nodes n).name.length_le
    refine ⟨by simp, ?_, fun _ => hempty⟩
    rw [pathString_of_ne_nil (by simp)]
    simp
    omega

theorem syncable_vfsChmod (h : Syncable s) (path cwd : List Byte) (mode : UInt32) :
    Syncable (vfsChmod s path cwd mode).1 := by
  have hl := sameLinks_vfsChmod s path cwd mode
  intro cs n hw
  rw [hl.walk_eq] at hw
  have hfit := h cs n hw
  refine ⟨hfit.depth, hfit.length, fun hp hfile => ?_⟩
  have hsize : ((vfsChmod s path cwd mode).1.nodes n).size = (s.nodes n).size := by
    unfold vfsChmod
    cases vfsLookup s path cwd with
    | none => rfl
    | some m =>
      by_cases hnm : n = m
      · subst hnm
        simp [Pool.touch, Pool.modifyNode]
      · simp [Pool.touch, Pool.modifyNode, hnm]
  rw [hsize]
  exact hfit.empty hp ((hl.type n).symm.trans hfile)

def someMachine : Machine where
  kmalloc _ := true
  mem _ := 0
  image := 4096
  image_pos := by decide
  image_le := by decide
  grants _ _ := rfl

def someState (start : UInt64) : TfsState :=
  ⟨true, true, false, ⟨lit "sda", by decide, by decide⟩, start, 0⟩

def someDevices : Devices := fun name => if name = lit "sda" then some blank else none

theorem active_someState (start : UInt64) : (someState start).Active where
  enabled := rfl
  named := by simp [someState, lit]
  idle := rfl

theorem blockDeviceFind_someDevices (start : UInt64) :
    blockDeviceFind someDevices (someState start).persistentDevice.chars = some blank := by
  have hname : deviceName (someState start).persistentDevice.chars = lit "sda" := by
    change deviceName (lit "sda") = lit "sda"
    decide
  rw [blockDeviceFind, hname]
  exact if_pos rfl

/-! ### The round trip -/

/-- Whenever a sync without faults returns 0, a mount from the same device and start returns 0
and gives the tree back. -/
def RoundTrips (s : Pool) (start : UInt64) : Prop :=
  ∀ (M : Machine) (kmalloc : ℕ → Bool) (t : TfsState) (devices : Devices), t.Active →
    t.persistentStartLba = start →
    (tfsSync kmalloc (fun _ => none) s t devices).2.2 = 0 →
    let m := M.mount (tfsSync kmalloc (fun _ => none) s t devices).2.1 t.persistentDevice.chars start
    m.rc = 0 ∧ ∀ cs, visible m.pool cs = visible s cs

theorem of_tfsSync_eq_zero (hs : Wf s) (hok : ∀ n, NodeOk (s.nodes n))
    {faults : ℕ → Option ℕ} (ht : t.Active)
    (hrc : (tfsSync kmalloc faults s t devices).2.2 = 0) :
    Syncable s ∧ faults 0 = none ∧ ∃ d,
      blockDeviceFind devices t.persistentDevice.chars = some d ∧
        (tfsSync kmalloc faults s t devices).2.1 = devices.set t.persistentDevice.chars
          (d.store t.persistentStartLba.toUInt32.toNat (headerBuf (storedTable s))) := by
  have hfail : (-1 : ℤ) ≠ 0 := by decide
  by_cases h : Syncable s
  · cases hd : blockDeviceFind devices t.persistentDevice.chars with
    | none =>
      rw [tfsSync_of_no_device kmalloc faults ht hd] at hrc
      exact absurd hrc hfail
    | some d =>
      cases hk : kmalloc tableRequest with
      | false =>
        rw [tfsSync_of_no_memory faults ht devices hk] at hrc
        exact absurd hrc hfail
      | true =>
        have hsync := tfsSync_of_syncable hs hok faults ht hd hk h
        rw [hsync] at hrc
        cases hf : faults 0 with
        | some k =>
          rw [hf] at hrc
          exact absurd hrc hfail
        | none =>
          refine ⟨h, rfl, d, rfl, ?_⟩
          rw [hsync, hf, Disk.write,
            Disk.padded_of_length (length_headerBuf_storedTable hs)]
  · rw [tfsSync_of_not_syncable hs hok kmalloc faults ht devices h] at hrc
    exact absurd hrc hfail

theorem tfsSync_some (hs : Wf s) (hok : ∀ n, NodeOk (s.nodes n)) (h : Syncable s)
    (start : UInt64) :
    (tfsSync (fun _ => true) (fun _ => none) s (someState start) someDevices).2 =
      (someDevices.set (someState start).persistentDevice.chars
        (blank.store start.toUInt32.toNat (headerBuf (storedTable s))), 0) := by
  rw [tfsSync_of_syncable hs hok _ (active_someState start) (blockDeviceFind_someDevices start)
    rfl h, Disk.write, Disk.padded_of_length (length_headerBuf_storedTable hs)]
  rfl

theorem of_roundTrips (hr : Reachable s) (hrt : RoundTrips s start)
    (h : Syncable s) : start.toNat < 2 ^ 32 ∧ DefaultsIntact s := by
  have hs := wf_of_reachable hr
  have hok := nodeOk_of_reachable hr
  have hsync := tfsSync_some hs hok h start
  obtain ⟨hrc, hvis⟩ := hrt someMachine (fun _ => true) (someState start) someDevices
    (active_someState start) rfl (by rw [hsync])
  rw [hsync] at hrc hvis
  have hstart : start.toNat < 2 ^ 32 := by
    by_contra hlong
    exact mount_of_truncated hs someMachine someDevices (not_lt.1 hlong) hrc
  refine ⟨hstart, ?_⟩
  by_contra hdef
  obtain ⟨cs, hne⟩ := visible_remount_ne hs hok h hdef
  refine hne ?_
  rw [← hvis cs, (mount_of_synced hs someMachine someDevices blank (active_someState start).named
    hstart).2]

/-- **A reachable tree round trips** exactly when it is refused, or the start is in reach of the
32-bit first write and the directories of `vfs_init` are as `vfs_init` made them. -/
theorem roundTrips_iff (hr : Reachable s) (start : UInt64) :
    RoundTrips s start ↔ (Syncable s → start.toNat < 2 ^ 32 ∧ DefaultsIntact s) := by
  constructor
  · intro hrt h
    exact of_roundTrips hr hrt h
  · intro h M kmalloc t devices ht hlba hrc
    have hs := wf_of_reachable hr
    have hok := nodeOk_of_reachable hr
    obtain ⟨hsyncable, -, d, -, hdevices⟩ := of_tfsSync_eq_zero hs hok ht hrc
    obtain ⟨hstart, hdef⟩ := h hsyncable
    obtain ⟨hmount, hpool⟩ := mount_of_synced hs M devices d ht.named hstart
    intro m
    have hm : m = M.mount (devices.set t.persistentDevice.chars
        (d.store start.toUInt32.toNat (headerBuf (storedTable s)))) t.persistentDevice.chars
        start := by
      rw [← hlba, ← hdevices, hlba]
    rw [hm, hpool]
    exact ⟨hmount, visible_remount hs hok (booted_of_reachable hr) hsyncable hdef⟩

theorem roundTrips_iff_vfsInit :
    RoundTrips vfsInit 2048 ↔ (Syncable vfsInit → (2048 : UInt64).toNat < 2 ^ 32 ∧
      DefaultsIntact vfsInit) :=
  roundTrips_iff .init 2048

/-- A private `/tmp` comes back public. -/
theorem not_roundTrips_chmod_tmp :
    Reachable (vfsChmod vfsInit (lit "/tmp") [slash] 0o700).1 ∧
      ¬ RoundTrips (vfsChmod vfsInit (lit "/tmp") [slash] 0o700).1 2048 := by
  have hr : Reachable (vfsChmod vfsInit (lit "/tmp") [slash] 0o700).1 :=
    .step (.chmod ⟨lit "/tmp", by decide⟩ ⟨[slash], by decide⟩ 0o700) .init rfl
  refine ⟨hr, fun hrt => ?_⟩
  have hdef := (of_roundTrips hr hrt (syncable_vfsChmod syncable_vfsInit _ _ _)).2
  have hinit : visible vfsInit [lit "tmp"] = some ⟨.dir, 0o1777, 0, 0, []⟩ := by decide
  have htmp := hdef [lit "tmp"] _ hinit
  exact absurd htmp (by decide)

/-! ### What can be synced -/

/-- A sync of the tree succeeds wherever there is a device, memory, and no fault; and the path of
every attached node is rebuilt, and leads back to it. -/
def Syncs (s : Pool) : Prop :=
  (∀ (kmalloc : ℕ → Bool) (t : TfsState) (devices : Devices), t.Active →
    kmalloc tableRequest = true →
    (blockDeviceFind devices t.persistentDevice.chars).isSome →
    (tfsSync kmalloc (fun _ => none) s t devices).2.2 = 0) ∧
  ∀ cs n, walk s rootNode cs = some n →
    ∃ path, copyPathForNode s n = some path ∧ vfsLookup s path [slash] = some n

theorem syncable_of_syncs (hr : Reachable s) (h : Syncs s) : Syncable s := by
  by_contra hbad
  have hrc := h.1 (fun _ => true) (someState 0) someDevices (active_someState 0) rfl
    (by rw [blockDeviceFind_someDevices]; rfl)
  rw [tfsSync_of_not_syncable (wf_of_reachable hr) (nodeOk_of_reachable hr) _ _
    (active_someState 0) _ hbad] at hrc
  exact absurd hrc (by decide)

/-- **A reachable tree syncs** exactly when every attached node has at most 31 components and a
path of at most 254 bytes, and every file outside `/dev` and `/proc` is empty. -/
theorem syncs_iff (hr : Reachable s) : Syncs s ↔ Syncable s := by
  have hs := wf_of_reachable hr
  constructor
  · exact syncable_of_syncs hr
  · intro h
    refine ⟨fun kmalloc t devices ht hk hdev => ?_, fun cs n hw => ?_⟩
    · obtain ⟨d, hd⟩ := Option.isSome_iff_exists.1 hdev
      rw [tfsSync_of_syncable hs (nodeOk_of_reachable hr) _ ht hd hk h]
      rfl
    · have hfit := h cs n hw
      refine ⟨pathString cs, ?_, ?_⟩
      · rw [copyPathForNode_eq hs hw, if_pos ⟨hfit.depth, hfit.length⟩]
      · rw [vfsLookup_pathString s (hfit.proper (hs.valid_of_walk hw)) (by decide), hw]

theorem syncs_iff_vfsInit : Syncs vfsInit ↔ Syncable vfsInit := syncs_iff .init

/-- A tree with a one-byte file does not sync. -/
theorem not_syncs_one_byte :
    Reachable (vfsWriteFile (fun n => decide (n ≤ 2)) vfsInit (lit "/a") [slash] [65]).1 ∧
      ¬ Syncs (vfsWriteFile (fun n => decide (n ≤ 2)) vfsInit (lit "/a") [slash] [65]).1 := by
  have hr : Reachable (vfsWriteFile (fun n => decide (n ≤ 2)) vfsInit (lit "/a") [slash] [65]).1 :=
    .step (.writeFile ⟨lit "/a", by decide⟩ ⟨[slash], by decide⟩ [65] ⟨fun n => decide (n ≤ 2), by
      intro n hn
      have hmax : kernelHeapSize = 16 * 1024 * 1024 := rfl
      have := of_decide_eq_true hn
      omega⟩) .init rfl
  refine ⟨hr, fun hsyncs => ?_⟩
  have hfit := syncable_of_syncs hr hsyncs [lit "a"] vfsInit.nodeCount (by decide)
  exact absurd (hfit.empty (by decide) (by decide)) (by decide)

/-! ### What a sync leaves -/

/-- **What `tfs_sync` leaves**, with persistence on.  When it returns 0 the device decodes to the
tree.  When it does not, either no device was touched, or the write of header and table broke off
behind `k` sectors, and these lie over the old ones in place. -/
theorem tfsSync_outcome (hr : Reachable s) (hdef : DefaultsIntact s) (M : Machine)
    (kmalloc : ℕ → Bool) (faults : ℕ → Option ℕ) {t : TfsState} (ht : t.Active)
    (hstart : t.persistentStartLba.toNat < 2 ^ 32) (devices : Devices) :
    ((tfsSync kmalloc faults s t devices).2.2 = 0 →
      M.decode (tfsSync kmalloc faults s t devices).2.1 t.persistentDevice.chars
        t.persistentStartLba = some (visible s)) ∧
    ((tfsSync kmalloc faults s t devices).2.2 ≠ 0 →
      (tfsSync kmalloc faults s t devices).2.1 = devices ∨
      ∃ d k, blockDeviceFind devices t.persistentDevice.chars = some d ∧ faults 0 = some k ∧
        0 < k ∧ (tfsSync kmalloc faults s t devices).2.1 = devices.set t.persistentDevice.chars
          (d.store t.persistentStartLba.toNat
            ((headerBuf (storedTable s)).take (k * sectorSize)))) := by
  have hs := wf_of_reachable hr
  have hok := nodeOk_of_reachable hr
  constructor
  · intro hrc
    obtain ⟨hsyncable, -, d, -, hdevices⟩ := of_tfsSync_eq_zero hs hok ht hrc
    obtain ⟨hmount, hpool⟩ := mount_of_synced hs M devices d ht.named hstart
    rw [Machine.decode, hdevices, if_pos hmount, hpool]
    exact congrArg some (funext fun cs =>
      visible_remount hs hok (booted_of_reachable hr) hsyncable hdef cs)
  · intro hrc
    by_cases h : Syncable s
    · cases hd : blockDeviceFind devices t.persistentDevice.chars with
      | none => exact .inl (by rw [tfsSync_of_no_device kmalloc faults ht hd])
      | some d =>
        cases hk : kmalloc tableRequest with
        | false => exact .inl (by rw [tfsSync_of_no_memory faults ht devices hk])
        | true =>
          have hlba : t.persistentStartLba.toUInt32.toNat = t.persistentStartLba.toNat := by
            rw [toNat_toUInt32, Nat.mod_eq_of_lt hstart]
          have hsync := tfsSync_of_syncable hs hok faults ht hd hk h
          rw [hsync] at hrc ⊢
          cases hf : faults 0 with
          | none =>
            rw [hf] at hrc
            exact absurd rfl hrc
          | some k =>
            rw [Disk.write, Disk.padded_of_length (length_headerBuf_storedTable hs), hlba]
            -- a write that fails at once leaves everything as it is
            rcases Nat.eq_zero_or_pos k with rfl | hpos
            · left
              rw [Nat.zero_mul, List.take_zero, Disk.store_nil]
              exact Devices.set_self hd
            · exact .inr ⟨d, k, rfl, rfl, hpos, rfl⟩
    · exact .inl (by rw [tfsSync_of_not_syncable hs hok kmalloc faults ht devices h])

theorem defaultsIntact_vfsInit : DefaultsIntact vfsInit := fun _ _ h => h

theorem tfsSync_outcome_vfsInit :
    ((tfsSync (fun _ => true) (fun _ => none) vfsInit (someState 2048) someDevices).2.2 = 0 →
      someMachine.decode (tfsSync (fun _ => true) (fun _ => none) vfsInit (someState 2048)
        someDevices).2.1 (lit "sda") 2048 = some (visible vfsInit)) ∧
    ((tfsSync (fun _ => true) (fun _ => none) vfsInit (someState 2048) someDevices).2.2 ≠ 0 →
      (tfsSync (fun _ => true) (fun _ => none) vfsInit (someState 2048) someDevices).2.1 =
        someDevices ∨
      ∃ d k, blockDeviceFind someDevices (lit "sda") = some d ∧
        (none : Option ℕ) = some k ∧ 0 < k ∧
        (tfsSync (fun _ => true) (fun _ => none) vfsInit (someState 2048) someDevices).2.1 =
          someDevices.set (lit "sda") (d.store (2048 : UInt64).toNat
            ((headerBuf (storedTable vfsInit)).take (k * sectorSize)))) :=
  tfsSync_outcome .init defaultsIntact_vfsInit someMachine (fun _ => true) (fun _ => none)
    (active_someState 2048) (by decide) someDevices

/-- A sync returns 0 only when the device decodes to the tree, and another value only when it
decodes to what it did before. -/
def AllOrNothing (M : Machine) (kmalloc : ℕ → Bool) (faults : ℕ → Option ℕ) (s : Pool)
    (t : TfsState) (devices : Devices) : Prop :=
  let r := tfsSync kmalloc faults s t devices
  let decode := fun devices => M.decode devices t.persistentDevice.chars t.persistentStartLba
  (r.2.2 = 0 → decode r.2.1 = some (visible s)) ∧ (r.2.2 ≠ 0 → decode r.2.1 = decode devices)

/-- A first sync of a blank device, broken off behind the first sector, leaves something that
mounts. -/
theorem not_allOrNothing_torn :
    ¬ AllOrNothing someMachine (fun _ => true) (fun _ => some 1) vfsInit (someState 2048)
      someDevices := by
  intro h
  have hd := blockDeviceFind_someDevices 2048
  have ht := active_someState 2048
  have hsync : (tfsSync (fun _ => true) (fun _ => some 1) vfsInit (someState 2048) someDevices).2 =
      _ := tfsSync_of_syncable wf_vfsInit (nodeOk_of_reachable .init) _ ht hd rfl syncable_vfsInit
  rw [Disk.write, Disk.padded_of_length (length_headerBuf_storedTable wf_vfsInit)] at hsync
  have hbefore : someMachine.decode someDevices (someState 2048).persistentDevice.chars
      (someState 2048).persistentStartLba = none := by
    refine if_neg (someMachine.mount_of_no_header ?_)
    rw [hd, Option.bind_some]
    exact diskHeader_of_blank rfl
  have hfail := h.2 (by
    rw [hsync]
    decide)
  simp only [hsync] at hfail
  set start := (someState 2048).persistentStartLba with hstart
  have hshort : start.toNat < 2 ^ 32 := by
    rw [hstart]
    decide
  have hlba : start.toUInt32.toNat = start.toNat := by
    rw [toNat_toUInt32, Nat.mod_eq_of_lt hshort]
  have hmount := someMachine.mount_of_torn ht.named (blockDeviceFind_set someDevices _ _)
    (torn_blank wf_vfsInit start.toNat Nat.one_pos) hshort
  rw [hbefore, hlba, Machine.decode, if_pos hmount] at hfail
  cases hfail

end Tnu.Tfs
