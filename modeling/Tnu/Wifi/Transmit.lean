/-
**Ethernet frames on the way out.**

`iwlwifi_transmit` of `kernel/drivers/net/iwlwifi.c` takes an Ethernet frame of 14 to 1500 bytes, gives it the header
of the wireless network, protects it if there is a key, and hands it to `iwl_send_mgmt_frame`, which puts it into a
slot of the transmit ring.  The slot has 1024 bytes, and 60 of them are taken.

Main result:

* `transmitLaw_iff` — **frames are carried exactly when they fit and name the station as their source**.
-/

import Tnu.Wifi.Associate

set_option autoImplicit false

namespace Tnu.Wifi.Tx

open Ccm (Block)

/-! ### The ring -/

/-- `IWL_CMD_DATA_SIZE`. -/
abbrev cmdDataSize : ℕ := 1024

/-- `sizeof(struct iwl_cmd_data)`. -/
abbrev cmdHeadSize : ℕ := 56

/-- `struct iwl_tx_desc`, with its first segment. -/
structure TxDesc where
  nsegs : Byte
  addr : UInt32
  len : UInt16

/-- `struct iwl_tx_cmd`. -/
structure TxCmd where
  code : Byte
  flags : Byte
  idx : Byte
  qid : Byte
  data : List Byte

/-- The transmit ring, its index, and what was written last to `CSR_HBUS_TARG_WRPTR`. -/
structure TxRing where
  ready : Bool
  index : Fin 256
  queueId : Byte
  phys : ℕ
  desc : Fin 256 → TxDesc
  cmd : Fin 256 → TxCmd
  wrptr : ℕ

/-- The header in front of a frame: `struct iwl_cmd_data`. -/
def cmdHead (frameLen : ℕ) (needAck : Bool) : List Byte :=
  Bytes.le 2 frameLen ++ Bytes.le 2 0 ++ Bytes.le 4 (2 ^ 13 + if needAck then 2 ^ 3 else 0) ++ Bytes.le 4 0 ++
    Bytes.le 4 (10 + 2 ^ 9 + 2 ^ 14) ++ [15, 0, 0, 0] ++ List.replicate 16 0 ++ Bytes.le 2 0 ++ Bytes.le 2 0 ++
    Bytes.le 4 0xffffffff ++ Bytes.le 4 0 ++ [0, 7, 7, 0] ++ Bytes.le 2 3 ++ Bytes.le 2 0

/-- `iwl_send_mgmt_frame`.  The header has 24 bytes, and nothing is padded. -/
def iwlSendMgmtFrame (tx : TxRing) (frame : List Byte) (needAck : Bool) : TxRing × ℤ :=
  if tx.ready = false ∨ frame.length = 0 ∨ cmdDataSize - cmdHeadSize - 4 < frame.length then (tx, -1)
  else
    let cmdPhys := tx.phys + tx.index.val * (4 + cmdDataSize)
    let total := 4 + (cmdHeadSize + frame.length)
    ({ tx with
        desc := Function.update tx.desc tx.index
          { nsegs := 1
            addr := UInt32.ofNat cmdPhys
            len := UInt16.ofNat (total * 16 + cmdPhys / 2 ^ 32 % 16) }
        cmd := Function.update tx.cmd tx.index
          { code := 28
            flags := 0
            idx := UInt8.ofNat tx.index.val
            qid := tx.queueId
            data := cmdHead frame.length needAck ++ frame ++
              List.replicate (cmdDataSize - cmdHeadSize - frame.length) 0 }
        index := tx.index + 1
        wrptr := tx.queueId.toNat * 256 + (tx.index + 1).val }, 0)

def frameIn (cmd : TxCmd) : List Byte := (cmd.data.drop cmdHeadSize).take (Bytes.ofLe (cmd.data.take 2))

/-! ### The way out -/

section Transmit

variable (aes : Block → Block → Block) (mac : List Byte)

def sentFrame (d : Device) (eth : List Byte) : IwlwifiState × List Byte :=
  let st := { d.toIwlwifiState with txSequence := d.txSequence + 1 }
  if d.wpaPtkReady then iwlCcmpEncryptFrame aes st (wifiFrame mac d eth) protectedSize
  else (st, wifiFrame mac d eth)

/-- `iwlwifi_transmit`, with the ring behind it. -/
def transmit (tx : TxRing) (d : Device) (eth : List Byte) : TxRing × Device × ℤ :=
  if ¬ (d.associated = true ∧ d.linkReady = true) then (tx, d, -2)
  else if eth.length < 14 ∨ 1500 < eth.length then (tx, d, -1)
  else
    let (st, frame) := sentFrame aes mac d eth
    let d' := { d with toIwlwifiState := st }
    if d.wpaPtkReady = true ∧ frame = [] then (tx, d', -3)
    else
      let (tx, rc) := iwlSendMgmtFrame tx frame true
      (tx, d', rc)

/-! ### What one would like to hold -/

/-- The way back to an Ethernet frame, in the direction of the access point: `iwl_parse_data_frame` takes the first
and the third address, here they are the third and the second. -/
def backToEthernet (frame llc : List Byte) : List Byte :=
  (frame.drop 16).take 6 ++ (frame.drop 10).take 6 ++ (llc.drop 6).take 2 ++ llc.drop 8

/-- A ready link, and arrays of their sizes. -/
structure Ready (tx : TxRing) (d : Device) : Prop where
  associated : d.associated = true
  linkReady : d.linkReady = true
  ring : tx.ready = true
  mac : mac.length = 6
  bssid : d.bssid.length = 6

/-- A frame of a length that `iwlwifi_transmit` accepts. -/
def Accepted (eth : List Byte) : Prop := 14 ≤ eth.length ∧ eth.length ≤ 1500

/-- The frame is taken, and what is in the slot leads back to it. -/
def Carried (tx : TxRing) (d : Device) (eth : List Byte) : Prop :=
  (transmit aes mac tx d eth).2.2 = 0 ∧
    ∃ llc, rxPayload aes d.toIwlwifiState (frameIn ((transmit aes mac tx d eth).1.cmd tx.index)) = some llc ∧
      LlcSnap llc ∧ backToEthernet (frameIn ((transmit aes mac tx d eth).1.cmd tx.index)) llc = eth

/-- **What one would like to hold**: on a ready link every frame of an accepted length is carried. -/
def TransmitLaw (tx : TxRing) (d : Device) (eth : List Byte) : Prop :=
  Ready mac tx d → Accepted eth → Carried aes mac tx d eth

/-- A frame fits into a slot: eighteen bytes come to it, and sixteen more with a key. -/
def Fits (d : Device) (eth : List Byte) : Prop := if d.wpaPtkReady then eth.length ≤ 930 else eth.length ≤ 946

def OwnSource (eth : List Byte) : Prop := (eth.drop 6).take 6 = mac

end Transmit

/-! ### The slot -/

variable {aes : Block → Block → Block} {mac : List Byte} {tx : TxRing} {d : Device} {eth frame : List Byte}

theorem length_cmdHead (n : ℕ) (needAck : Bool) : (cmdHead n needAck).length = cmdHeadSize := by
  simp only [cmdHead, List.length_append, Bytes.length_le, List.length_cons, List.length_nil, List.length_replicate]

theorem take_cmdHead (n : ℕ) (needAck : Bool) (rest : List Byte) :
    (cmdHead n needAck ++ rest).take 2 = Bytes.le 2 n := by
  simp only [cmdHead, List.append_assoc]
  exact List.take_left' (Bytes.length_le 2 n)

/-- **What the slot holds.** -/
theorem frameIn_iwlSendMgmtFrame (hready : tx.ready = true) (hpos : 0 < frame.length) (hlen : frame.length ≤ 964) :
    (iwlSendMgmtFrame tx frame true).2 = 0 ∧ frameIn ((iwlSendMgmtFrame tx frame true).1.cmd tx.index) = frame := by
  have hgood : ¬ (tx.ready = false ∨ frame.length = 0 ∨ cmdDataSize - cmdHeadSize - 4 < frame.length) := by
    rintro (h | h | h)
    · rw [hready] at h
      cases h
    · omega
    · exact absurd hlen (not_le.2 h)
  rw [iwlSendMgmtFrame, if_neg hgood]
  refine ⟨rfl, ?_⟩
  have hsize : Bytes.ofLe (Bytes.le 2 frame.length) = frame.length := by
    rw [Bytes.ofLe_le]
    omega
  simp only [Function.update_self, frameIn, List.append_assoc]
  rw [take_cmdHead, hsize, List.drop_left' (length_cmdHead _ _), List.take_left]

theorem iwlSendMgmtFrame_of_long (hlen : 964 < frame.length) : iwlSendMgmtFrame tx frame true = (tx, -1) :=
  if_pos (Or.inr (Or.inr hlen))

/-! ### The header and what is behind it -/

def wifiHeader (mac : List Byte) (d : Device) (eth : List Byte) (flags : Byte) : List Byte :=
  ([0x08, flags, 0, 0] : List Byte) ++ d.bssid.take 6 ++ mac.take 6 ++ eth.take 6 ++
    Bytes.le 2 (d.txSequence <<< 4).toNat

def wifiPayload (eth : List Byte) : List Byte :=
  ([0xaa, 0xaa, 0x03, 0, 0, 0] : List Byte) ++ ((eth.drop 12).take 2 ++ eth.drop 14)

theorem wifiFrame_eq (mac : List Byte) (d : Device) (eth : List Byte) :
    wifiFrame mac d eth = wifiHeader mac d eth 0x01 ++ wifiPayload eth := by
  simp only [wifiFrame, wifiHeader, wifiPayload, List.append_assoc]

theorem protectHeader_wifiHeader (mac : List Byte) (d : Device) (eth : List Byte) :
    protectHeader (wifiHeader mac d eth 0x01) = wifiHeader mac d eth 0x41 := rfl

theorem length_wifiHeader (h : Ready mac tx d) (heth : Accepted eth) (flags : Byte) :
    (wifiHeader mac d eth flags).length = hdrLen3 := by
  have h24 : hdrLen3 = 24 := rfl
  have := heth.1
  simp only [wifiHeader, List.length_append, List.length_cons, List.length_nil, List.length_take, Bytes.length_le,
    h.mac, h.bssid]
  omega

theorem length_wifiPayload (heth : Accepted eth) : (wifiPayload eth).length = eth.length - 6 := by
  have := heth.1
  simp only [wifiPayload, List.length_append, List.length_cons, List.length_nil, List.length_take, List.length_drop]
  omega

theorem llcSnap_wifiPayload (heth : Accepted eth) : LlcSnap (wifiPayload eth) := by
  have hlen := length_wifiPayload heth
  have := heth.1
  exact ⟨by omega, rfl, rfl, rfl, (by decide : (0 : Byte) ||| 0 ||| 0 = 0)⟩

/-- **The way back**: the source is the station. -/
theorem backToEthernet_wifiHeader (h : Ready mac tx d) (heth : Accepted eth) (flags : Byte) (rest : List Byte) :
    backToEthernet (wifiHeader mac d eth flags ++ rest) (wifiPayload eth) =
      eth.take 6 ++ mac ++ (eth.drop 12).take 2 ++ eth.drop 14 := by
  have hlen := heth.1
  have hbssid : (([0x08, flags, 0, 0] : List Byte) ++ d.bssid.take 6).length = 10 := by
    simp [h.bssid]
  have hmac : (([0x08, flags, 0, 0] : List Byte) ++ d.bssid.take 6 ++ mac.take 6).length = 16 := by
    simp [h.bssid, h.mac]
  have hdst : (eth.take 6).length = 6 := by
    rw [List.length_take]
    omega
  have htype : ((eth.drop 12).take 2).length = 2 := by
    rw [List.length_take, List.length_drop]
    omega
  have hall : mac.take 6 = mac := List.take_of_length_le h.mac.le
  have hthird : ((wifiHeader mac d eth flags ++ rest).drop 16).take 6 = eth.take 6 := by
    rw [wifiHeader, List.append_assoc _ (eth.take 6), List.append_assoc, List.drop_left' hmac, List.append_assoc,
      List.take_left' hdst]
  have hsecond : ((wifiHeader mac d eth flags ++ rest).drop 10).take 6 = mac := by
    rw [wifiHeader, List.append_assoc _ (mac.take 6), List.append_assoc _ (mac.take 6 ++ eth.take 6),
      List.append_assoc, List.drop_left' hbssid, List.append_assoc, List.append_assoc, hall, List.take_left' h.mac]
  have hsnap : ([0xaa, 0xaa, 0x03, 0, 0, 0] : List Byte).length = 6 := rfl
  have hethertype : ((wifiPayload eth).drop 6).take 2 = (eth.drop 12).take 2 := by
    rw [wifiPayload, List.drop_left' hsnap, List.take_left' htype]
  have hdata : (wifiPayload eth).drop 8 = eth.drop 14 := by
    rw [wifiPayload, ← List.append_assoc, List.drop_left' (by rw [List.length_append, hsnap, htype])]
  rw [backToEthernet, hthird, hsecond, hethertype, hdata]

theorem back_eq_iff (heth : Accepted eth) :
    eth.take 6 ++ mac ++ (eth.drop 12).take 2 ++ eth.drop 14 = eth ↔ OwnSource mac eth := by
  have hlen := heth.1
  have hsplit : eth = eth.take 6 ++ (eth.drop 6).take 6 ++ (eth.drop 12).take 2 ++ eth.drop 14 := by
    have h12 : (eth.drop 6).drop 6 = eth.drop 12 := List.drop_drop
    have h14 : (eth.drop 12).drop 2 = eth.drop 14 := List.drop_drop
    rw [List.append_assoc, List.append_assoc, ← h14, List.take_append_drop, ← h12, List.take_append_drop,
      List.take_append_drop]
  constructor
  · intro heq
    have hcancel := List.append_cancel_right (List.append_cancel_right (heq.trans hsplit))
    exact (List.append_cancel_left hcancel).symm
  · intro hown
    rw [OwnSource] at hown
    rw [← hown]
    exact hsplit.symm

/-! ### The frame that is handed on -/

theorem rxHdrLen_wifiHeader (mac : List Byte) (d : Device) (eth : List Byte) (flags : Byte) (rest : List Byte) :
    rxHdrLen (wifiHeader mac d eth flags ++ rest) = hdrLen3 :=
  if_pos (by decide : (0x08 : Byte) &&& 0x80 = 0)

theorem protectedBit_wifiHeader (mac : List Byte) (d : Device) (eth : List Byte) (flags : Byte) (rest : List Byte) :
    protectedBit (wifiHeader mac d eth flags ++ rest) = decide (flags &&& 0x40 ≠ 0) := rfl

/-- What is handed on, from what is behind the header. -/
structure Sent (aes : Block → Block → Block) (mac : List Byte) (d : Device) (eth frame : List Byte) : Prop where
  head : ∃ flags rest, frame = wifiHeader mac d eth flags ++ rest
  length : frame.length = eth.length + if d.wpaPtkReady then 34 else 18
  opens : rxPayload aes d.toIwlwifiState frame = some (wifiPayload eth)

theorem sent_open (h : Ready mac tx d) (heth : Accepted eth) (hopen : d.wpaPtkReady = false) :
    Sent aes mac d eth (sentFrame aes mac d eth).2 := by
  have hlen := heth.1
  have hhead := length_wifiHeader h heth 0x01
  have h24 : hdrLen3 = 24 := rfl
  have hframe : (sentFrame aes mac d eth).2 = wifiHeader mac d eth 0x01 ++ wifiPayload eth := by
    rw [sentFrame, hopen, ← wifiFrame_eq]
    rfl
  rw [hframe]
  refine ⟨⟨_, _, rfl⟩, ?_, ?_⟩
  · rw [List.length_append, hhead, length_wifiPayload heth, hopen, if_neg Bool.false_ne_true]
    omega
  · rw [rxPayload, protectedBit_wifiHeader, rxHdrLen_wifiHeader, if_neg (by decide), List.drop_left' hhead]

/-- The state that a frame is protected in: the frames are counted. -/
def counted (d : Device) : IwlwifiState := { d.toIwlwifiState with txSequence := d.txSequence + 1 }

theorem counted_tk (d : Device) : (counted d).tk = d.tk := rfl

theorem sent_protected (h : Ready mac tx d) (heth : Accepted eth) (hkey : d.wpaPtkReady = true) :
    Sent aes mac d eth (sentFrame aes mac d eth).2 := by
  have hlen := heth.1
  have hmax := heth.2
  have hhead := length_wifiHeader h heth 0x01
  have hpayload := length_wifiPayload heth
  have h24 : hdrLen3 = 24 := rfl
  have hne : wifiPayload eth ≠ [] := List.ne_nil_of_length_pos (by omega)
  have hroom : (wifiHeader mac d eth 0x01 ++ wifiPayload eth).length + 16 ≤ protectedSize := by
    have hsize : protectedSize = 1720 := rfl
    rw [List.length_append]
    omega
  have hkey' : (counted d).wpaPtkReady = true := hkey
  have hframe : (sentFrame aes mac d eth).2 =
      (iwlCcmpEncryptFrame aes (counted d) (wifiHeader mac d eth 0x01 ++ wifiPayload eth) protectedSize).2 := by
    rw [sentFrame, if_pos hkey, ← wifiFrame_eq, counted]
  have hplain : (wifiPayload eth).length ≤ rxBufSize := by
    have hsize : rxBufSize = 1600 := rfl
    omega
  have hopens : iwlCcmpDecryptPayload aes d.toIwlwifiState (iwlCcmpEncryptFrame aes (counted d)
      (wifiHeader mac d eth 0x01 ++ wifiPayload eth) protectedSize).2 hdrLen3 rxBufSize = some (wifiPayload eth) :=
    iwlCcmpDecryptPayload_encrypt hhead hkey' hne hroom hplain hkey (counted_tk d).symm
  rw [← hframe] at hopens
  rw [iwlCcmpEncryptFrame_eq hhead hkey' hne hroom, protectHeader_wifiHeader, List.append_assoc] at hframe
  refine ⟨⟨_, _, hframe⟩, ?_, ?_⟩
  · rw [hframe, List.length_append, List.length_append, length_wifiHeader h heth, hkey, if_pos rfl]
    simp [Ccm.encrypt, ccmpHeader]
    omega
  · rw [rxPayload]
    have hbit : protectedBit (sentFrame aes mac d eth).2 = true := by
      rw [hframe, protectedBit_wifiHeader]
      decide
    have hlen3 : rxHdrLen (sentFrame aes mac d eth).2 = hdrLen3 := by
      rw [hframe, rxHdrLen_wifiHeader]
    rw [if_pos hbit, hlen3]
    exact hopens

theorem sent_sentFrame (aes : Block → Block → Block) (h : Ready mac tx d) (heth : Accepted eth) :
    Sent aes mac d eth (sentFrame aes mac d eth).2 := by
  cases hkey : d.wpaPtkReady with
  | false => exact sent_open h heth hkey
  | true => exact sent_protected h heth hkey

/-! ### The law -/

theorem transmit_of_ready (aes : Block → Block → Block) (h : Ready mac tx d) (heth : Accepted eth) :
    (transmit aes mac tx d eth).1 = (iwlSendMgmtFrame tx (sentFrame aes mac d eth).2 true).1 ∧
      (transmit aes mac tx d eth).2.2 = (iwlSendMgmtFrame tx (sentFrame aes mac d eth).2 true).2 := by
  have hlength := (sent_sentFrame aes h heth).length
  have hne : (sentFrame aes mac d eth).2 ≠ [] := List.ne_nil_of_length_pos (by rw [hlength]; have := heth.1; omega)
  have hrange : ¬ (eth.length < 14 ∨ 1500 < eth.length) := by
    have hmin := heth.1
    have hmax := heth.2
    omega
  rw [transmit, if_neg (not_not.2 ⟨h.associated, h.linkReady⟩), if_neg hrange]
  dsimp only
  rw [if_neg fun hnil => hne hnil.2]
  exact ⟨rfl, rfl⟩

/-- **The way out is the one without the ring**, with the answer of the ring. -/
theorem transmit_eq (aes : Block → Block → Block) (mac : List Byte) (tx : TxRing) (d : Device) (eth : List Byte) :
    (transmit aes mac tx d eth).2 =
      iwlwifiTransmit aes mac (iwlSendMgmtFrame tx (sentFrame aes mac d eth).2 true).2 d eth := by
  rw [transmit, iwlwifiTransmit]
  by_cases hlink : ¬ (d.associated = true ∧ d.linkReady = true)
  · rw [if_pos hlink, if_pos hlink]
  · rw [if_neg hlink, if_neg hlink]
    by_cases hlen : eth.length < 14 ∨ 1500 < eth.length
    · rw [if_pos hlen, if_pos hlen]
    · rw [if_neg hlen, if_neg hlen]
      by_cases hkey : d.wpaPtkReady = true
      · have hsent : sentFrame aes mac d eth = iwlCcmpEncryptFrame aes
            { d.toIwlwifiState with txSequence := d.txSequence + 1 } (wifiFrame mac d eth) protectedSize := by
          rw [sentFrame, if_pos hkey]
        dsimp only
        rw [if_pos hkey, hsent]
        rcases iwlCcmpEncryptFrame aes { d.toIwlwifiState with txSequence := d.txSequence + 1 }
          (wifiFrame mac d eth) protectedSize with ⟨st, _ | ⟨b, out⟩⟩
        · rw [if_pos ⟨hkey, rfl⟩]
        · rw [if_neg fun h => List.cons_ne_nil _ _ h.2]
      · have hsent : sentFrame aes mac d eth =
            ({ d.toIwlwifiState with txSequence := d.txSequence + 1 }, wifiFrame mac d eth) := by
          rw [sentFrame, if_neg hkey]
        dsimp only
        rw [if_neg hkey, hsent, if_neg fun h => hkey h.1]

/-- **Frames are carried exactly when they fit into a slot and name the station as their source.** -/
theorem transmitLaw_iff (aes : Block → Block → Block) (mac : List Byte) (tx : TxRing) (d : Device) (eth : List Byte) :
    TransmitLaw aes mac tx d eth ↔ (Ready mac tx d → Accepted eth → Fits d eth ∧ OwnSource mac eth) := by
  refine forall_congr' fun h => forall_congr' fun heth => ?_
  have hsent := sent_sentFrame aes h heth
  obtain ⟨hring, hrc⟩ := transmit_of_ready aes h heth
  have hmin := heth.1
  have hfits : Fits d eth ↔ (sentFrame aes mac d eth).2.length ≤ 964 := by
    rw [hsent.length, Fits]
    split_ifs
    all_goals omega
  rw [Carried, hring, hrc, hfits]
  rcases Nat.lt_or_ge 964 (sentFrame aes mac d eth).2.length with hlong | hshort
  · rw [iwlSendMgmtFrame_of_long hlong]
    exact iff_of_false (fun h => absurd h.1 (by norm_num)) fun h => absurd hlong (not_lt.2 h.1)
  · obtain ⟨hzero, hslot⟩ := frameIn_iwlSendMgmtFrame h.ring (by rw [hsent.length]; omega) hshort
    obtain ⟨flags, rest, hhead⟩ := hsent.head
    rw [hslot, ← back_eq_iff heth, ← backToEthernet_wifiHeader h heth flags rest, ← hhead]
    constructor
    · rintro ⟨-, llc, hllc, -, hback⟩
      obtain rfl := Option.some.inj (hsent.opens.symm.trans hllc)
      exact ⟨hshort, hback⟩
    · rintro ⟨-, hback⟩
      exact ⟨hzero, _, hsent.opens, llcSnap_wifiPayload heth, hback⟩

def freshRing : TxRing where
  ready := true
  index := 0
  queueId := 0
  phys := 0
  desc := fun _ => ⟨0, 0, 0⟩
  cmd := fun _ => ⟨0, 0, 0, 0, List.replicate cmdDataSize 0⟩
  wrptr := 0

def openDevice : Device :=
  { bootDevice false with associated := true, linkReady := true, bssid := List.replicate 6 0x02 }

/-- A frame of 1500 bytes is accepted and not carried. -/
theorem not_transmitLaw :
    ¬ TransmitLaw (fun _ b => b) (List.replicate 6 0) freshRing openDevice (List.replicate 1500 0) := by
  rw [transmitLaw_iff]
  intro h
  have hlen : (List.replicate 1500 (0 : Byte)).length = 1500 := List.length_replicate
  have hfits := (h ⟨rfl, rfl, rfl, rfl, rfl⟩ ⟨by rw [hlen]; norm_num, by rw [hlen]⟩).1
  rw [Fits, hlen] at hfits
  exact absurd hfits (by decide)

end Tnu.Wifi.Tx
