/-
**The ring of receive buffers.**

`iwl_poll_rx_notifications` of `kernel/drivers/net/iwlwifi.c` walks along 64 buffers of 4096 bytes, from the one it
stopped at to the one the device has reached, looks at the type of each and hands it on.  Every read and the
clearing behind it go through functions here that fail outside the buffer.

A buffer with a length that cannot be ends the walk, and is met again at the next call.

Main results:

* `dispatch_isSome` — **no read leaves a buffer**;
* `pollLaw_iff` — the walk does what it should exactly when all lengths are good.
-/

import Tnu.Wifi.Management

set_option autoImplicit false

namespace Tnu.Wifi.Rx

open Ccm (Block)
open Mgmt (bytesIn bytesIn_of_le)

/-! ### The driver -/

/-- `IWL_RX_BUF_SIZE`. -/
abbrev rxBufferSize : ℕ := 4096

/-- `sizeof(struct iwl_rx_desc)`. -/
abbrev rxDescSize : ℕ := 8

/-- One of the buffers. -/
structure RxBuffer where
  bytes : List Byte
  length_eq : bytes.length = rxBufferSize

/-- A table of calibration groups with their sizes, and the number of the groups: `phy_db_papd`, `phy_db_txp`. -/
structure PhyGroups where
  data : List (List Byte)
  sizes : List ℕ
  count : ℕ
  deriving DecidableEq

/-- The calibration data of `struct iwlwifi_state`. -/
structure PhyDb where
  cfg : List Byte
  cfgSize : ℕ
  calibNch : List Byte
  calibNchSize : ℕ
  papd : PhyGroups
  txp : PhyGroups
  deriving DecidableEq

/-- The fields of `struct iwlwifi_state` that a notification uses. -/
structure Driver where
  wpa : IwlwifiState
  mgmt : Mgmt.State
  associatedSsid : List Byte
  modernTransport : Bool
  commandDone : Bool
  commandDoneCode : Byte
  mvmInitAliveSeen : Bool
  mvmRtAliveSeen : Bool
  mvmAlive : Bool
  firmwareAlive : Bool
  firmwareRunning : Bool
  scanning : Bool
  mvmScanRunning : Bool
  mvmScanDone : Bool
  mvmTeActive : Bool
  phyDb : PhyDb
  deriving DecidableEq

/-- The ring: the buffers, and `rx_index`. -/
structure RxRing where
  buffers : Fin 64 → RxBuffer
  rxIndex : Fin 64

def le32At (l : List Byte) (i : ℕ) : UInt32 :=
  (l.getD i 0).toUInt32 ||| (l.getD (i + 1) 0).toUInt32 <<< 8 ||| (l.getD (i + 2) 0).toUInt32 <<< 16 |||
    (l.getD (i + 3) 0).toUInt32 <<< 24

/-! ### The calibration data -/

def overwrite (old data : List Byte) : List Byte := data ++ old.drop data.length

def PhyGroups.store (g : PhyGroups) (idx : ℕ) (data : List Byte) : PhyGroups where
  data := g.data.set idx (overwrite (g.data.getD idx []) data)
  sizes := g.sizes.set idx data.length
  count := if g.count < idx + 1 then idx + 1 else g.count

/-- The branches of `iwl_mvm_phy_db_store` for a group: its number, and what is behind it. -/
def storeGroup (groups : PhyGroups) (buf : List Byte) (data size : ℕ) : Option PhyGroups :=
  if size < 2 then some groups
  else
    (bytesIn buf data 2).bind fun head =>
      let idx := (le16At head 0).toNat
      if 16 ≤ idx then some groups
      else if size - 2 ≤ 512 then (bytesIn buf (data + 2) (size - 2)).map fun data => groups.store idx data
      else some groups

/-- `iwl_mvm_phy_db_store`, of what stands in the buffer from `payload` on. -/
def iwlMvmPhyDbStore (db : PhyDb) (buf : List Byte) (payload plen : ℕ) : Option PhyDb :=
  if plen < 4 then some db
  else
    (bytesIn buf payload 4).bind fun head =>
      let type := le16At head 0
      let size := (le16At head 2).toNat
      if plen < 4 + size ∨ 512 < size then some db
      else if type = 1 then
        (bytesIn buf (payload + 4) size).map fun data => { db with cfg := overwrite db.cfg data, cfgSize := size }
      else if type = 2 then
        (bytesIn buf (payload + 4) size).map fun data =>
          { db with calibNch := overwrite db.calibNch data, calibNchSize := size }
      else if type = 3 then (storeGroup db.papd buf (payload + 4) size).map fun papd => { db with papd := papd }
      else if type = 4 then (storeGroup db.txp buf (payload + 4) size).map fun txp => { db with txp := txp }
      else some db

/-! ### One buffer -/

section Poll

-- the block cipher, and what `rx_callback` does to the driver with an Ethernet frame (it may answer)
variable (aes : Block → Block → Block) (rxCallback : Driver → List Byte → Driver)

/-- `iwl_find_ap(st, st->associated_ssid)` finds one. -/
def apKnown (d : Driver) : Bool := d.mgmt.aps.any fun ap => ap.valid ∧ cstr ap.ssid = d.associatedSsid

def dataFrame (env : RxEnv) (d : Driver) (frame : List Byte) : Driver :=
  let (wpa, eth) := iwlParseDataFrame aes { env with apKnown := apKnown d } d.wpa frame
  let d := { d with wpa := wpa }
  match eth with
  | none => d
  | some eth => rxCallback d eth

/-- `iwl_handle_mpdu`, of what stands in the buffer from `payload` on. -/
def iwlHandleMpdu (env : RxEnv) (d : Driver) (buf : List Byte) (payload payloadLen : ℕ) : Option Driver :=
  if payloadLen < 4 + 4 then some d
  else
    (bytesIn buf payload 4).bind fun mpdu =>
      let frameLen := (le16At mpdu 0).toNat
      if frameLen = 0 ∨ payloadLen < 4 + frameLen + 4 then some d
      else
        (bytesIn buf (payload + 4 + frameLen) 4).bind fun status =>
          if le32At status 0 &&& 3 ≠ 3 then some d
          else
            (bytesIn buf (payload + 4) frameLen).bind fun frame =>
              if frame.getD 0 0 &&& 0x0c = 0x08 then some (dataFrame aes rxCallback env d frame)
              else (Mgmt.iwlParseMgmtFrame d.mgmt frame).map fun mgmt => { d with mgmt := mgmt }

/-- `IWL_RX_TYPE_UC_READY` on a device of the newer kind: the first is that of the start-up firmware.  The version
numbers are read to be logged. -/
def mvmAlive (d : Driver) (buf : List Byte) (len : ℕ) : Option Driver :=
  (bytesIn buf rxDescSize (if 8 ≤ len - rxDescSize then 8 else 0)).map fun _ =>
    if d.mvmInitAliveSeen then
      { d with mvmRtAliveSeen := true, mvmAlive := true, firmwareAlive := true, firmwareRunning := true }
    else { d with mvmInitAliveSeen := true }

/-- `IWL_RX_TYPE_UC_READY` on an older device. -/
def ucodeAlive (d : Driver) (buf : List Byte) (len : ℕ) : Option Driver :=
  if rxDescSize + 32 ≤ len then
    (bytesIn buf rxDescSize 32).map fun uc =>
      if le32At uc 28 = 1 then { d with firmwareAlive := true, firmwareRunning := true } else d
  else some d

/-- `MVM_RX_TE_NOTIF`. -/
def timeEvent (d : Driver) (buf : List Byte) (len : ℕ) : Option Driver :=
  if 24 ≤ len - rxDescSize then
    (bytesIn buf rxDescSize 24).map fun n => if le32At n 16 &&& 2 ≠ 0 then { d with mvmTeActive := false } else d
  else some d

/-- The `switch` over the type of a buffer. -/
def dispatch (env : RxEnv) (d : Driver) (buf : List Byte) (len : ℕ) (code : Byte) : Option Driver :=
  if code = 1 then if d.modernTransport then mvmAlive d buf len else ucodeAlive d buf len
  else if code = 0x6b then
    if d.modernTransport then
      (iwlMvmPhyDbStore d.phyDb buf rxDescSize (len - rxDescSize)).map fun db => { d with phyDb := db }
    else some d
  else if code = 130 then some { d with scanning := true }
  else if code = 132 then some { d with scanning := false }
  else if code = 131 ∨ code = 161 then some d
  else if code = 0x6d then some { d with mvmScanRunning := false, mvmScanDone := true }
  else if code = 0x2a then if d.modernTransport then timeEvent d buf len else some d
  else if code = 193 then iwlHandleMpdu aes rxCallback env d buf rxDescSize (len - rxDescSize)
  else some d

def descLen (desc : List Byte) : ℕ := (le32At desc 0 &&& 0x3fff).toNat

def answered (d : Driver) (desc : List Byte) : Driver :=
  if desc.getD 7 0 &&& 0x80 ≠ 0 then d else { d with commandDone := true, commandDoneCode := desc.getD 4 0 }

/-- `memset(buf, 0, len)`.  There is no way to write outside the buffer. -/
def RxBuffer.clear (b : RxBuffer) (len : ℕ) : Option RxBuffer :=
  if h : len ≤ rxBufferSize then
    some ⟨List.replicate len 0 ++ b.bytes.drop len, by
      rw [List.length_append, List.length_replicate, List.length_drop, b.length_eq]
      omega⟩
  else none

/-! ### The walk -/

/-- `while (st->rx_index != hw)`. -/
def pollLoop (env : Fin 64 → RxEnv) (hw : Fin 64) (r : RxRing) (d : Driver) : Option (RxRing × Driver) :=
  if hdone : r.rxIndex = hw then some (r, d)
  else
    let b := r.buffers r.rxIndex
    (bytesIn b.bytes 0 rxDescSize).bind fun desc =>
      let len := descLen desc
      if len < rxDescSize ∨ rxBufferSize < len then some (r, d)
      else
        (dispatch aes rxCallback (env r.rxIndex) (answered d desc) b.bytes len (desc.getD 4 0)).bind fun d =>
          (b.clear len).bind fun b => pollLoop env hw ⟨Function.update r.buffers r.rxIndex b, r.rxIndex + 1⟩ d
termination_by (hw - r.rxIndex).val
decreasing_by
  have hne : r.rxIndex.val ≠ hw.val := fun h => hdone (Fin.ext h)
  simp only [Fin.sub_def, Fin.val_add, Fin.val_one]
  have h1 := r.rxIndex.isLt
  have h2 := hw.isLt
  omega

/-- The index that the device has reached: `closed_count & (IWL_RX_RING_COUNT - 1)`. -/
def hwIndex (closedCount : UInt16) : Fin 64 := ⟨closedCount.toNat % 64, Nat.mod_lt _ (by norm_num)⟩

/-- `iwl_poll_rx_notifications`: the ring, the driver, and what is written to `FH_RX_WPTR`. -/
def iwlPollRxNotifications (env : Fin 64 → RxEnv) (closedCount : UInt16) (r : RxRing) (d : Driver) :
    Option (RxRing × Driver × ℕ) :=
  (pollLoop aes rxCallback env (hwIndex closedCount) r d).map fun (r, d) =>
    (r, d, (if r.rxIndex = 0 then 63 else r.rxIndex.val - 1) / 8 * 8)

/-! ### What the walk should do -/

def descOf (b : RxBuffer) : List Byte := b.bytes.take rxDescSize

def GoodLen (b : RxBuffer) : Prop := rxDescSize ≤ descLen (descOf b) ∧ descLen (descOf b) ≤ rxBufferSize

instance (b : RxBuffer) : Decidable (GoodLen b) := inferInstanceAs (Decidable (_ ∧ _))

/-- What is done with one buffer; one with a bad length is skipped. -/
def consume (env : RxEnv) (d : Driver) (b : RxBuffer) : Option Driver :=
  if GoodLen b then
    dispatch aes rxCallback env (answered d (descOf b)) b.bytes (descLen (descOf b)) ((descOf b).getD 4 0)
  else some d

/-- The indices from `i` to the one that the device has reached, in ring order. -/
def closed (i hw : Fin 64) : List (Fin 64) := (List.range (hw - i).val).map fun k => i + Fin.ofNat 64 k

def batch (env : Fin 64 → RxEnv) (buffers : Fin 64 → RxBuffer) (indices : List (Fin 64)) : List (RxEnv × RxBuffer) :=
  indices.map fun i => (env i, buffers i)

/-- **What the walk should do**: reach the index of the device, consume the closed buffers in ring order, clear them
and leave the others alone.  No read and no write leaves a buffer. -/
def PollLaw (env : Fin 64 → RxEnv) (closedCount : UInt16) (r : RxRing) (d : Driver) : Prop :=
  ∃ r' d' wptr, iwlPollRxNotifications aes rxCallback env closedCount r d = some (r', d', wptr) ∧
    r'.rxIndex = hwIndex closedCount ∧
    (batch env r.buffers (closed r.rxIndex (hwIndex closedCount))).foldlM (fun d e => consume aes rxCallback e.1 d e.2) d =
      some d' ∧
    (∀ i ∈ closed r.rxIndex (hwIndex closedCount), GoodLen (r.buffers i) →
      (r'.buffers i).bytes = List.replicate (descLen (descOf (r.buffers i))) 0 ++
        (r.buffers i).bytes.drop (descLen (descOf (r.buffers i)))) ∧
    ∀ i, i ∉ closed r.rxIndex (hwIndex closedCount) → r'.buffers i = r.buffers i

end Poll

/-! ### No read leaves a buffer -/

variable (aes : Block → Block → Block) (rxCallback : Driver → List Byte → Driver) {buf : List Byte}

theorem storeGroup_isSome (groups : PhyGroups) {data size : ℕ} (h : data + size ≤ buf.length) :
    (storeGroup groups buf data size).isSome = true := by
  rw [storeGroup]
  by_cases hshort : size < 2
  · rw [if_pos hshort]
    rfl
  · rw [if_neg hshort, bytesIn_of_le (by omega), Option.bind_some]
    dsimp only
    split_ifs
    · rfl
    · rw [bytesIn_of_le (by omega)]
      rfl
    · rfl

theorem iwlMvmPhyDbStore_isSome (db : PhyDb) {payload plen : ℕ} (h : payload + plen ≤ buf.length) :
    (iwlMvmPhyDbStore db buf payload plen).isSome = true := by
  rw [iwlMvmPhyDbStore]
  split_ifs with hshort
  · rfl
  · rw [bytesIn_of_le (by omega), Option.bind_some]
    dsimp only
    split_ifs with hsize
    · rfl
    · rw [bytesIn_of_le (by omega)]
      rfl
    · rw [bytesIn_of_le (by omega)]
      rfl
    · rw [Option.isSome_map]
      exact storeGroup_isSome _ (by omega)
    · rw [Option.isSome_map]
      exact storeGroup_isSome _ (by omega)
    · rfl

theorem iwlHandleMpdu_isSome (env : RxEnv) (d : Driver) {payload payloadLen : ℕ}
    (h : payload + payloadLen ≤ buf.length) :
    (iwlHandleMpdu aes rxCallback env d buf payload payloadLen).isSome = true := by
  rw [iwlHandleMpdu]
  split_ifs with hshort
  · rfl
  · rw [bytesIn_of_le (by omega), Option.bind_some]
    dsimp only
    split_ifs with hlen
    · rfl
    · rw [bytesIn_of_le (by omega), Option.bind_some]
      split_ifs with herror
      · rfl
      · rw [bytesIn_of_le (by omega), Option.bind_some]
        split_ifs with hdata
        · rfl
        · rw [Option.isSome_map]
          exact Mgmt.iwlParseMgmtFrame_isSome _ _

/-- **No read leaves a buffer**, whatever its type and its contents. -/
theorem dispatch_isSome (env : RxEnv) (d : Driver) {len : ℕ} (code : Byte) (hdesc : rxDescSize ≤ len)
    (hlen : len ≤ buf.length) : (dispatch aes rxCallback env d buf len code).isSome = true := by
  rw [dispatch]
  split_ifs
  · rw [mvmAlive, Option.isSome_map, bytesIn_of_le (by split_ifs <;> omega)]
    rfl
  · rw [ucodeAlive]
    split_ifs
    · rw [Option.isSome_map, bytesIn_of_le (by omega)]
      rfl
    · rfl
  · rw [Option.isSome_map]
    exact iwlMvmPhyDbStore_isSome _ (by omega)
  · rfl
  · rfl
  · rfl
  · rfl
  · rfl
  · rw [timeEvent]
    split_ifs
    · rw [Option.isSome_map, bytesIn_of_le (by omega)]
      rfl
    · rfl
  · rfl
  · exact iwlHandleMpdu_isSome aes rxCallback _ _ (by omega)
  · rfl

/-! ### The walk along the closed buffers -/

theorem closed_self (i : Fin 64) : closed i i = [] := by
  rw [closed, sub_self]
  rfl

theorem closed_cons {i hw : Fin 64} (h : i ≠ hw) : closed i hw = i :: closed (i + 1) hw := by
  have hsub : (hw - i).val = (hw - (i + 1)).val + 1 := by
    have hne : i.val ≠ hw.val := fun heq => h (Fin.ext heq)
    have h1 := i.isLt
    have h2 := hw.isLt
    simp only [Fin.sub_def, Fin.val_add, Fin.val_one]
    omega
  have hfirst : i + Fin.ofNat 64 0 = i := Fin.ext (by simp only [Fin.val_add, Fin.ofNat]; omega)
  have hnext : ∀ k, i + Fin.ofNat 64 (k + 1) = i + 1 + Fin.ofNat 64 k := fun k => Fin.ext (by
    simp only [Fin.val_add, Fin.ofNat, Fin.val_one]
    omega)
  rw [closed, hsub, List.range_succ_eq_map, List.map_cons, List.map_map, hfirst]
  exact congrArg (i :: ·) (List.map_congr_left fun k _ => hnext k)

theorem not_mem_closed {i hw : Fin 64} (h : i ≠ hw) : i ∉ closed (i + 1) hw := by
  intro hmem
  obtain ⟨k, hk, heq⟩ := List.mem_map.1 hmem
  rw [List.mem_range] at hk
  have hne : i.val ≠ hw.val := fun heq => h (Fin.ext heq)
  have h1 := i.isLt
  have h2 := hw.isLt
  have hval := congrArg Fin.val heq
  simp only [Fin.sub_def, Fin.val_add, Fin.val_one, Fin.ofNat] at hk hval
  omega

theorem batch_update (env : Fin 64 → RxEnv) (buffers : Fin 64 → RxBuffer) {i : Fin 64} (b : RxBuffer)
    {indices : List (Fin 64)} (h : i ∉ indices) : batch env (Function.update buffers i b) indices = batch env buffers indices :=
  List.map_congr_left fun j hj => by
    have hne : j ≠ i := fun heq => h (heq ▸ hj)
    rw [Function.update_of_ne hne]

variable (env : Fin 64 → RxEnv) (d : Driver) {hw : Fin 64} {r : RxRing}

theorem rxDescSize_le (b : RxBuffer) : 0 + rxDescSize ≤ b.bytes.length := by
  rw [b.length_eq]
  norm_num

theorem pollLoop_of_bad (hne : r.rxIndex ≠ hw) (hbad : ¬ GoodLen (r.buffers r.rxIndex)) :
    pollLoop aes rxCallback env hw r d = some (r, d) := by
  have hbad : descLen (descOf (r.buffers r.rxIndex)) < rxDescSize ∨
      rxBufferSize < descLen (descOf (r.buffers r.rxIndex)) := by
    rw [GoodLen, not_and_or, not_le, not_le] at hbad
    exact hbad
  rw [pollLoop, dif_neg hne]
  dsimp only
  rw [bytesIn_of_le (rxDescSize_le _), Option.bind_some, List.drop_zero]
  exact if_pos hbad

/-- **One buffer with a good length**: it is consumed and cleared, and the index goes on. -/
theorem pollLoop_of_good (hne : r.rxIndex ≠ hw) (hgood : GoodLen (r.buffers r.rxIndex)) :
    ∃ d₁ b, consume aes rxCallback (env r.rxIndex) d (r.buffers r.rxIndex) = some d₁ ∧
      b.bytes = List.replicate (descLen (descOf (r.buffers r.rxIndex))) 0 ++
        (r.buffers r.rxIndex).bytes.drop (descLen (descOf (r.buffers r.rxIndex))) ∧
      pollLoop aes rxCallback env hw r d =
        pollLoop aes rxCallback env hw ⟨Function.update r.buffers r.rxIndex b, r.rxIndex + 1⟩ d₁ := by
  have hlen := (r.buffers r.rxIndex).length_eq
  obtain ⟨d₁, hd₁⟩ := Option.isSome_iff_exists.1 (dispatch_isSome aes rxCallback
    (env r.rxIndex) (answered d (descOf (r.buffers r.rxIndex))) ((descOf (r.buffers r.rxIndex)).getD 4 0) hgood.1
    (hgood.2.trans hlen.ge))
  have hnot : ¬ (descLen (descOf (r.buffers r.rxIndex)) < rxDescSize ∨
      rxBufferSize < descLen (descOf (r.buffers r.rxIndex))) := by
    rw [not_or, not_lt, not_lt]
    exact hgood
  refine ⟨d₁, ⟨_, ?_⟩, ?_, rfl, ?_⟩
  · rw [List.length_append, List.length_replicate, List.length_drop, hlen]
    have := hgood.2
    omega
  · rw [consume, if_pos hgood, hd₁]
  · rw [pollLoop, dif_neg hne]
    dsimp only
    rw [bytesIn_of_le (rxDescSize_le _), Option.bind_some, List.drop_zero, ← descOf, if_neg hnot, hd₁,
      Option.bind_some, RxBuffer.clear, dif_pos hgood.2, Option.bind_some]

/-- What the walk leaves when all of the lengths are good. -/
structure Walked (hw : Fin 64) (r r' : RxRing) (d' : Driver) : Prop where
  index : r'.rxIndex = hw
  consumed : (batch env r.buffers (closed r.rxIndex hw)).foldlM (fun d e => consume aes rxCallback e.1 d e.2) d = some d'
  cleared : ∀ i ∈ closed r.rxIndex hw, GoodLen (r.buffers i) → (r'.buffers i).bytes =
    List.replicate (descLen (descOf (r.buffers i))) 0 ++ (r.buffers i).bytes.drop (descLen (descOf (r.buffers i)))
  others : ∀ i, i ∉ closed r.rxIndex hw → r'.buffers i = r.buffers i

/-- **The walk** consumes the closed buffers one by one if their lengths are good, and else does not arrive. -/
theorem pollLoop_spec (hw : Fin 64) (r : RxRing) :
    ∃ r' d', pollLoop aes rxCallback env hw r d = some (r', d') ∧
      ((∀ i ∈ closed r.rxIndex hw, GoodLen (r.buffers i)) → Walked aes rxCallback env d hw r r' d') ∧
      (r'.rxIndex = hw → ∀ i ∈ closed r.rxIndex hw, GoodLen (r.buffers i)) := by
  -- along the number of the closed buffers
  induction hn : (closed r.rxIndex hw).length generalizing r d with
  | zero =>
    have hnil := List.length_eq_zero_iff.1 hn
    have hdone : r.rxIndex = hw := by
      by_contra hne
      rw [closed_cons hne] at hnil
      cases hnil
    rw [hnil]
    refine ⟨r, d, by rw [pollLoop, dif_pos hdone], fun _ => ⟨hdone, ?_, ?_, fun i _ => rfl⟩, fun _ i hi => by cases hi⟩
    · rw [hnil]
      rfl
    · rw [hnil]
      exact fun i hi => by cases hi
  | succ n ih =>
    have hne : r.rxIndex ≠ hw := fun h => by
      rw [h, closed_self] at hn
      cases hn
    have hcons := closed_cons hne
    have hnot := not_mem_closed hne
    by_cases hgood : GoodLen (r.buffers r.rxIndex)
    · obtain ⟨d₁, b, hconsume, hclear, hloop⟩ := pollLoop_of_good aes rxCallback env d hne hgood
      rw [hcons, List.length_cons] at hn
      obtain ⟨r', d', hrest, hall, hback⟩ := ih d₁ ⟨Function.update r.buffers r.rxIndex b, r.rxIndex + 1⟩
        (Nat.succ.inj hn)
      have hold : ∀ i ∈ closed (r.rxIndex + 1) hw, Function.update r.buffers r.rxIndex b i = r.buffers i :=
        fun i hi => Function.update_of_ne (ne_of_mem_of_not_mem hi hnot) _ _
      refine ⟨r', d', hloop.trans hrest, fun hgoods => ?_, fun hdone i hi => ?_⟩
      · have hwalked := hall fun i hi => by
          dsimp only
          rw [hold i hi]
          exact hgoods i (hcons ▸ List.mem_cons_of_mem _ hi)
        refine ⟨hwalked.index, ?_, fun i hi hlen => ?_, fun i hi => ?_⟩
        · rw [hcons, batch, List.map_cons, List.foldlM_cons, hconsume]
          have hrest := hwalked.consumed
          rw [batch_update env r.buffers b hnot] at hrest
          exact hrest
        · rw [hcons] at hi
          rcases List.mem_cons.1 hi with rfl | hi
          · rw [hwalked.others _ hnot]
            dsimp only
            rw [Function.update_self, hclear]
          · have hrest := hwalked.cleared i hi
            dsimp only at hrest
            rw [hold i hi] at hrest
            exact hrest hlen
        · rw [hcons, List.mem_cons, not_or] at hi
          rw [hwalked.others i hi.2]
          exact Function.update_of_ne hi.1 _ _
      · rw [hcons] at hi
        rcases List.mem_cons.1 hi with rfl | hi
        · exact hgood
        · have hrest := hback hdone i hi
          dsimp only at hrest
          rw [hold i hi] at hrest
          exact hrest
    · refine ⟨r, d, pollLoop_of_bad aes rxCallback env d hne hgood, fun hgoods => ?_, fun hdone => absurd hdone hne⟩
      exact absurd (hgoods _ (hcons ▸ List.mem_cons_self)) hgood

/-- **The walk does what it should exactly when the lengths of all closed buffers are good.** -/
theorem pollLaw_iff (closedCount : UInt16) (r : RxRing) :
    PollLaw aes rxCallback env closedCount r d ↔
      ∀ i ∈ closed r.rxIndex (hwIndex closedCount), GoodLen (r.buffers i) := by
  obtain ⟨r', d', hloop, hall, hback⟩ := pollLoop_spec aes rxCallback env d (hwIndex closedCount) r
  constructor
  · rintro ⟨r₁, d₁, wptr, hpoll, hindex, -⟩
    rw [iwlPollRxNotifications, hloop, Option.map_some, Option.some_inj, Prod.mk.injEq] at hpoll
    exact hback (hpoll.1 ▸ hindex)
  · intro hgoods
    have hwalked := hall hgoods
    refine ⟨r', d', (if r'.rxIndex = 0 then 63 else r'.rxIndex.val - 1) / 8 * 8, ?_, hwalked.index, hwalked.consumed, hwalked.cleared, hwalked.others⟩
    rw [iwlPollRxNotifications, hloop]
    rfl

def blankBuffer : RxBuffer := ⟨List.replicate rxBufferSize 0, List.length_replicate⟩

def startDriver : Driver where
  wpa := bootIwlwifi
  mgmt := Mgmt.freshState
  associatedSsid := []
  modernTransport := false
  commandDone := false
  commandDoneCode := 0
  mvmInitAliveSeen := false
  mvmRtAliveSeen := false
  mvmAlive := false
  firmwareAlive := false
  firmwareRunning := false
  scanning := false
  mvmScanRunning := false
  mvmScanDone := false
  mvmTeActive := false
  phyDb := ⟨[], 0, [], 0, ⟨[], [], 0⟩, ⟨[], [], 0⟩⟩

/-- One closed buffer with the length zero is never passed. -/
theorem not_pollLaw :
    ¬ PollLaw (fun _ b => b) (fun d _ => d) (fun _ => ⟨[], false, false, false, 0⟩) 1 ⟨fun _ => blankBuffer, 0⟩
      startDriver := by
  rw [pollLaw_iff]
  intro h
  have hgood := h 0 (by decide)
  rw [GoodLen, descOf, blankBuffer, List.take_replicate] at hgood
  exact absurd hgood.1 (by decide)

end Tnu.Wifi.Rx
