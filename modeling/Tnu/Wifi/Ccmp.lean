/-
**CCMP in software.**

`kernel/drivers/net/iwlwifi.c` protects data frames itself: CCM over the payload, with a nonce and
additional data made from the header.  The additional data leave out the bits of the header that may
change on the way, and the standard sets the protected bit in them; the driver clears that one too.

Main result:

* `ccmpLaw_iff` — **the promise is kept exactly when the two agree in the eight bytes that are
  sent**.
-/

import Tnu.Lib.Bytes
import Tnu.Wifi.Aes

set_option autoImplicit false

namespace Tnu.Wifi

open Ccm (Block)

/-! ### The driver -/

/-- The fields of `struct iwlwifi_state` that the key exchange and the data path use. -/
structure IwlwifiState where
  bssid : List Byte
  wpaPmk : List Byte
  wpaPtk : List Byte
  wpaPtkReady : Bool
  wpaAnonce : List Byte
  wpaSnonce : List Byte
  wpaReplayCounter : UInt64
  wpaKeyMsg1 : Bool
  wpaKeyMsg3 : Bool
  ccmpTxPn : UInt64
  txSequence : UInt16
  linkReady : Bool
  deriving DecidableEq, Repr

/-- `sizeof(struct ieee80211_hdr3)`. -/
abbrev hdrLen3 : ℕ := 24

/-- The temporal key: `wpa_ptk + 32`. -/
def IwlwifiState.tk (st : IwlwifiState) : Block := Ccm.pack (st.wpaPtk.drop 32)

def ccmpCtrBlock (nonce : List Byte) (counter : UInt16) : Block :=
  Ccm.pack (0x01 :: nonce ++ [UInt8.ofNat (counter.toNat / 256), UInt8.ofNat counter.toNat])

/-- Byte `i` of a packet number. -/
def pnByte (pn : UInt64) (i : ℕ) : Byte := UInt8.ofNat (pn.toNat / 256 ^ i)

def ccmpNonceFromPn (hdr : List Byte) (pn : UInt64) : List Byte :=
  0 :: (hdr.drop 10).take 6 ++
    [pnByte pn 5, pnByte pn 4, pnByte pn 3, pnByte pn 2, pnByte pn 1, pnByte pn 0]

def ccmpPnFromHeader (ccmp : List Byte) : UInt64 :=
  UInt64.ofNat (Bytes.ofLe [ccmp.getD 0 0, ccmp.getD 1 0, ccmp.getD 4 0, ccmp.getD 5 0, ccmp.getD 6 0,
    ccmp.getD 7 0])

def ccmpBuildAad (frame : List Byte) (hdrLen : ℕ) : List Byte :=
  if hdrLen < hdrLen3 then []
  else
    frame.getD 0 0 :: (frame.getD 1 0 &&& ~~~(0x08 ||| 0x10 ||| 0x20 ||| 0x40)) ::
      (frame.drop 4).take 18 ++ [frame.getD 22 0 &&& 0x0f, 0]

/-- The loops of `ccmp_cbc_mac`: a string is absorbed in blocks, the last one filled up with zeros. -/
def ccmpAbsorb (E : Block → Block) (x : Block) (data : List Byte) : Block :=
  if _h : data = [] then x
  else ccmpAbsorb E (E (Ccm.add x (Ccm.pack (data.take 16)))) (data.drop 16)
termination_by data.length
decreasing_by
  have hl : 0 < data.length := List.length_pos_iff.2 _h
  rw [List.length_drop]
  omega

/-- `ccmp_cbc_mac`: the eight bytes of `mic`. -/
def ccmpCbcMac (E : Block → Block) (nonce aad plain : List Byte) : List Byte :=
  let block : Block :=
    Ccm.pack (0x59 :: nonce ++ [UInt8.ofNat (plain.length / 256), UInt8.ofNat plain.length])
  let x := E (Ccm.add (Vector.replicate 16 0) block)
  let x :=
    if aad = [] then x
    else
      let block := Ccm.pack
        ([UInt8.ofNat (aad.length / 256), UInt8.ofNat aad.length] ++ aad.take 14)
      ccmpAbsorb E (E (Ccm.add x block)) (aad.drop 14)
  (ccmpAbsorb E x plain).toList.take 8

/-- The authenticator under the first key block, as both directions compute it. -/
def ccmpMic (E : Block → Block) (nonce aad plain : List Byte) : List Byte :=
  Stream.add (ccmpCbcMac E nonce aad plain) (E (ccmpCtrBlock nonce 0)).toList

def ccmpCryptPayload (E : Block → Block) (nonce input : List Byte) (firstCounter : UInt16) : List Byte :=
  Stream.crypt (fun counter => (E (ccmpCtrBlock nonce counter)).toList) (· + 1) 16 firstCounter input

def protectHeader (hdr : List Byte) : List Byte := hdr.modify 1 (· ||| 0x40)

def ccmpHeader (pn : UInt64) : List Byte :=
  [pnByte pn 0, pnByte pn 1, 0, 0x20, pnByte pn 2, pnByte pn 3, pnByte pn 4, pnByte pn 5]

section Driver

variable (aes : Block → Block → Block)

/-- `iwl_ccmp_encrypt_frame`; the frame is empty where the function returns zero. -/
def iwlCcmpEncryptFrame (st : IwlwifiState) (plain : List Byte) (outSize : ℕ) :
    IwlwifiState × List Byte :=
  if plain.length ≤ hdrLen3 ∨ outSize < plain.length + 16 ∨ st.wpaPtkReady = false then (st, [])
  else
    let pn := st.ccmpTxPn + 1
    let hdr := protectHeader (plain.take hdrLen3)
    let payload := plain.drop hdrLen3
    let nonce := ccmpNonceFromPn hdr pn
    let aad := ccmpBuildAad hdr hdrLen3
    let mic := ccmpMic (aes st.tk) nonce aad payload
    ({ st with ccmpTxPn := pn },
      hdr ++ ccmpHeader pn ++ ccmpCryptPayload (aes st.tk) nonce payload 1 ++ mic)

/-- `iwl_ccmp_decrypt_payload`: the payload, where the function returns true. -/
def iwlCcmpDecryptPayload (st : IwlwifiState) (frame : List Byte) (hdrLen plainSize : ℕ) :
    Option (List Byte) :=
  if st.wpaPtkReady = false ∨ frame.length < hdrLen + 16 then none
  else
    let ccmp := frame.drop hdrLen
    let payloadLen := frame.length - hdrLen - 8 - 8
    if plainSize < payloadLen then none
    else
      let nonce := ccmpNonceFromPn frame (ccmpPnFromHeader ccmp)
      let plain := ccmpCryptPayload (aes st.tk) nonce ((ccmp.drop 8).take payloadLen) 1
      let mic := ccmpMic (aes st.tk) nonce (ccmpBuildAad frame hdrLen) plain
      if mic = (ccmp.drop (8 + payloadLen)).take 8 then some plain else none

end Driver

/-! ### The standard -/

/-- The additional data of the standard, for a header of 24 bytes of a data frame: the subtype bits, the
retry, power management and more data bits are cleared, the protected bit is set, and of the sequence
control only the fragment number is kept. -/
def ccmpAad (hdr : List Byte) : List Byte :=
  (hdr.getD 0 0 &&& 0x8f) :: (hdr.getD 1 0 &&& 0xc7 ||| 0x40) ::
    (hdr.drop 4).take 18 ++ [hdr.getD 22 0 &&& 0x0f, 0]

/-- The nonce of the standard: the priority, which is zero, the sender's address and the packet
number. -/
def ccmpNonce (hdr : List Byte) (pn : UInt64) : List Byte :=
  0 :: (hdr.drop 10).take 6 ++ ((List.range 6).map (pnByte pn)).reverse

/-- **The frame of the standard**: the header with the protected bit, the packet number, and the payload
under CCM. -/
def ccmpFrame (E : Block → Block) (hdr : List Byte) (pn : UInt64) (payload : List Byte) : List Byte :=
  protectHeader hdr ++ ccmpHeader pn ++
    Ccm.encrypt E (ccmpNonce hdr pn) (ccmpAad hdr) payload

/-! ### The promise -/

section Law

variable (aes : Block → Block → Block)

/-- **What the two directions promise** for a key, a packet number, a header and a payload: the frame is
the one of the standard; with the same key it opens to the payload; and what opens carries the tag. -/
structure CcmpLaw (st : IwlwifiState) (hdr payload : List Byte) : Prop where
  frame : ∀ outSize, (hdr ++ payload).length + 16 ≤ outSize →
    (iwlCcmpEncryptFrame aes st (hdr ++ payload) outSize).2 =
      ccmpFrame (aes st.tk) hdr (st.ccmpTxPn + 1) payload
  opens : ∀ outSize plainSize (st' : IwlwifiState), (hdr ++ payload).length + 16 ≤ outSize →
    payload.length ≤ plainSize → st'.wpaPtkReady = true → st'.tk = st.tk →
    iwlCcmpDecryptPayload aes st' (iwlCcmpEncryptFrame aes st (hdr ++ payload) outSize).2 hdrLen3
      plainSize = some payload
  genuine : ∀ frame hdrLen plainSize plain,
    iwlCcmpDecryptPayload aes st frame hdrLen plainSize = some plain →
    frame.drop (frame.length - 8) =
      ccmpMic (aes st.tk) (ccmpNonceFromPn frame (ccmpPnFromHeader (frame.drop hdrLen)))
        (ccmpBuildAad frame hdrLen) plain

/-- The two authenticators agree in the eight bytes that are sent: the one over the additional data of
the standard, and the one over those the driver builds. -/
def MicsAgree (st : IwlwifiState) (hdr payload : List Byte) : Prop :=
  let nonce := ccmpNonce hdr (st.ccmpTxPn + 1)
  (Ccm.mac (aes st.tk) nonce (ccmpBuildAad (protectHeader hdr) hdrLen3) payload).toList.take 8 =
    (Ccm.mac (aes st.tk) nonce (ccmpAad hdr) payload).toList.take 8

end Law

/-! ### The driver computes CCM -/

variable {E : Block → Block} {aes : Block → Block → Block} {st st' : IwlwifiState}
  {hdr nonce aad payload : List Byte} {pn : UInt64}

theorem pack_take (l : List Byte) : Ccm.pack (l.take 16) = Ccm.pack l := by
  refine Vector.ext fun i hi => ?_
  simp [Ccm.pack]

theorem ccmpAbsorb_eq (E : Block → Block) (x : Block) (data : List Byte) :
    ccmpAbsorb E x data = (Ccm.blocks data).foldl (Ccm.absorb E) x := by
  by_cases h : data = []
  · rw [ccmpAbsorb, dif_pos h, Ccm.blocks, dif_pos h]
    rfl
  · have hdec : (data.drop 16).length < data.length := by
      have hl : 0 < data.length := List.length_pos_iff.2 h
      rw [List.length_drop]
      omega
    rw [ccmpAbsorb, dif_neg h, Ccm.blocks, dif_neg h, ccmpAbsorb_eq, pack_take]
    rfl
termination_by data.length

theorem blocks_aadField (h : aad ≠ []) :
    Ccm.blocks (Ccm.aadField aad) =
      Ccm.pack (Ccm.be16 aad.length ++ aad.take 14) :: Ccm.blocks (aad.drop 14) := by
  have hpack : Ccm.pack (Ccm.be16 aad.length ++ aad) =
      Ccm.pack (Ccm.be16 aad.length ++ aad.take 14) := by
    rw [← pack_take (Ccm.be16 aad.length ++ aad)]
    rfl
  rw [Ccm.aadField, if_neg h, Ccm.blocks, dif_neg (by simp [Ccm.be16]), hpack]
  rfl

/-- **The authenticator is the one of CCM.** -/
theorem ccmpCbcMac_eq (h : aad ≠ []) (E : Block → Block) (nonce plain : List Byte) :
    ccmpCbcMac E nonce aad plain = (Ccm.mac E nonce aad plain).toList.take 8 := by
  have hflags : Ccm.flags aad = 0x59 := by
    rw [Ccm.flags, if_neg h]
    rfl
  rw [ccmpCbcMac, Ccm.mac, Ccm.cbcMac, Ccm.message, hflags, blocks_aadField h]
  simp only [if_neg h, ccmpAbsorb_eq, List.foldl_cons, List.foldl_append]
  rfl

theorem ccmpMic_eq (h : aad ≠ []) (E : Block → Block) (nonce plain : List Byte) :
    ccmpMic E nonce aad plain = Ccm.tag E nonce aad plain := by
  rw [ccmpMic, ccmpCbcMac_eq h]
  rfl

theorem ccmpCryptPayload_eq (E : Block → Block) (nonce input : List Byte) :
    ccmpCryptPayload E nonce input 1 = Ccm.crypt E nonce input := rfl

theorem ccmpBuildAad_ne_nil (frame : List Byte) : ccmpBuildAad frame hdrLen3 ≠ [] := by
  simp [ccmpBuildAad]

@[simp] theorem length_protectHeader (hdr : List Byte) : (protectHeader hdr).length = hdr.length :=
  List.length_modify _ _ _

theorem ccmpNonceFromPn_protectHeader (hdr : List Byte) (pn : UInt64) :
    ccmpNonceFromPn (protectHeader hdr) pn = ccmpNonce hdr pn := by
  match hdr with
  | [] => rfl
  | [a] => rfl
  | a :: b :: hdr => rfl

variable {outSize plainSize : ℕ}

/-- **The frame the driver builds.** -/
theorem iwlCcmpEncryptFrame_eq (hhdr : hdr.length = hdrLen3) (hready : st.wpaPtkReady = true)
    (hpayload : payload ≠ []) (hout : (hdr ++ payload).length + 16 ≤ outSize) :
    iwlCcmpEncryptFrame aes st (hdr ++ payload) outSize =
      ({ st with ccmpTxPn := st.ccmpTxPn + 1 },
        protectHeader hdr ++ ccmpHeader (st.ccmpTxPn + 1) ++
          Ccm.encrypt (aes st.tk) (ccmpNonce hdr (st.ccmpTxPn + 1))
            (ccmpBuildAad (protectHeader hdr) hdrLen3) payload) := by
  have hpos : 0 < payload.length := List.length_pos_iff.2 hpayload
  have hgood : ¬ ((hdr ++ payload).length ≤ hdrLen3 ∨ outSize < (hdr ++ payload).length + 16 ∨
      st.wpaPtkReady = false) := by
    rw [List.length_append] at *
    rintro (h | h | h)
    · omega
    · omega
    · rw [hready] at h
      cases h
  rw [iwlCcmpEncryptFrame, if_neg hgood]
  dsimp only
  rw [← hhdr, List.take_left, List.drop_left, hhdr, ccmpNonceFromPn_protectHeader,
    ccmpMic_eq (ccmpBuildAad_ne_nil _), ccmpCryptPayload_eq, List.append_assoc, Ccm.encrypt]

/-! ### Opening -/

theorem pnByte_ofLe (b : List Byte) (hb : b.length = 6) (i : ℕ) (hi : i < 6) :
    pnByte (UInt64.ofNat (Bytes.ofLe b)) i = b.getD i 0 := by
  match b, hb with
  | [b0, b1, b2, b3, b4, b5], _ =>
    have h0 := UInt8.toNat_lt b0
    have h1 := UInt8.toNat_lt b1
    have h2 := UInt8.toNat_lt b2
    have h3 := UInt8.toNat_lt b3
    have h4 := UInt8.toNat_lt b4
    have h5 := UInt8.toNat_lt b5
    rw [← UInt8.toNat_inj, pnByte, UInt8.toNat_ofNat', UInt64.toNat_ofNat']
    simp only [Bytes.ofLe]
    interval_cases i <;> simp only [List.getD_cons_zero, List.getD_cons_succ] <;> omega

theorem ccmpNonceFromPn_header (frame rest : List Byte) (pn : UInt64) :
    ccmpNonceFromPn frame (ccmpPnFromHeader (ccmpHeader pn ++ rest)) = ccmpNonceFromPn frame pn := by
  have hbytes : ccmpPnFromHeader (ccmpHeader pn ++ rest) =
      UInt64.ofNat (Bytes.ofLe ((List.range 6).map (pnByte pn))) := rfl
  have hbyte (i : ℕ) (hi : i < 6) :
      pnByte (UInt64.ofNat (Bytes.ofLe ((List.range 6).map (pnByte pn)))) i = pnByte pn i := by
    rw [pnByte_ofLe _ (by simp) i hi]
    interval_cases i <;> rfl
  rw [hbytes, ccmpNonceFromPn, ccmpNonceFromPn, hbyte 0 (by norm_num), hbyte 1 (by norm_num),
    hbyte 2 (by norm_num), hbyte 3 (by norm_num), hbyte 4 (by norm_num), hbyte 5 (by norm_num)]

theorem ccmpNonceFromPn_append (h : hdr.length = hdrLen3) (rest : List Byte) (pn : UInt64) :
    ccmpNonceFromPn (hdr ++ rest) pn = ccmpNonceFromPn hdr pn := by
  have h24 : hdr.length = 24 := h
  rw [ccmpNonceFromPn, ccmpNonceFromPn, List.drop_append_of_le_length (by omega),
    List.take_append_of_le_length (by rw [List.length_drop]; omega)]

theorem ccmpBuildAad_append (h : hdr.length = hdrLen3) (rest : List Byte) :
    ccmpBuildAad (hdr ++ rest) hdrLen3 = ccmpBuildAad hdr hdrLen3 := by
  have h24 : hdr.length = 24 := h
  have hget (i : ℕ) (hi : i < hdrLen3) : (hdr ++ rest).getD i 0 = hdr.getD i 0 := by
    rw [List.getD_eq_getElem?_getD, List.getD_eq_getElem?_getD, List.getElem?_append_left (by omega)]
  rw [ccmpBuildAad, ccmpBuildAad, if_neg (lt_irrefl _), if_neg (lt_irrefl _), hget 0 (by norm_num),
    hget 1 (by norm_num), hget 22 (by norm_num), List.drop_append_of_le_length (by omega),
    List.take_append_of_le_length (by rw [List.length_drop]; omega)]

/-- **What the driver opens**: CCM, on what is behind the eight bytes. -/
theorem iwlCcmpDecryptPayload_eq (hready : st.wpaPtkReady = true) {frame : List Byte}
    (hlen : hdrLen3 + 16 ≤ frame.length) (hroom : frame.length - hdrLen3 - 8 - 8 ≤ plainSize) :
    iwlCcmpDecryptPayload aes st frame hdrLen3 plainSize =
      Ccm.decrypt (aes st.tk) (ccmpNonceFromPn frame (ccmpPnFromHeader (frame.drop hdrLen3)))
        (ccmpBuildAad frame hdrLen3) (frame.drop (hdrLen3 + 8)) := by
  have h24 : hdrLen3 = 24 := rfl
  have hgood : ¬ (st.wpaPtkReady = false ∨ frame.length < hdrLen3 + 16) := by
    rintro (h | h)
    · rw [hready] at h
      cases h
    · omega
  have hsealed : (frame.drop hdrLen3).drop 8 = frame.drop (hdrLen3 + 8) := List.drop_drop
  have hplain : frame.length - hdrLen3 - 8 - 8 = (frame.drop (hdrLen3 + 8)).length - 8 := by
    rw [List.length_drop]
    omega
  have htag : ((frame.drop hdrLen3).drop (8 + (frame.length - hdrLen3 - 8 - 8))).take 8 =
      (frame.drop (hdrLen3 + 8)).drop ((frame.drop (hdrLen3 + 8)).length - 8) := by
    rw [← List.drop_drop, hsealed, hplain]
    refine List.take_of_length_le ?_
    rw [List.length_drop]
    omega
  rw [iwlCcmpDecryptPayload, if_neg hgood]
  dsimp only
  rw [if_neg (by omega), Ccm.decrypt, htag, hsealed, hplain, ccmpMic_eq (ccmpBuildAad_ne_nil _),
    ccmpCryptPayload_eq]
  simp only [eq_comm]

theorem tag_of_iwlCcmpDecryptPayload {frame plain : List Byte} {hdrLen : ℕ}
    (h : iwlCcmpDecryptPayload aes st frame hdrLen plainSize = some plain) :
    frame.drop (frame.length - 8) =
      ccmpMic (aes st.tk) (ccmpNonceFromPn frame (ccmpPnFromHeader (frame.drop hdrLen)))
        (ccmpBuildAad frame hdrLen) plain := by
  rw [iwlCcmpDecryptPayload] at h
  split_ifs at h with hbad
  dsimp only at h
  split_ifs at h with hroom htag
  rw [Option.some.injEq] at h
  rw [h] at htag
  have hlen : hdrLen + 16 ≤ frame.length := by
    by_contra hlt
    exact hbad (.inr (by omega))
  rw [htag, List.drop_drop, List.take_of_length_le]
  · congr 1
    omega
  · rw [List.length_drop]
    omega

/-- **What the driver protected opens.** -/
theorem iwlCcmpDecryptPayload_encrypt (hhdr : hdr.length = hdrLen3) (hready : st.wpaPtkReady = true)
    (hpayload : payload ≠ [])
    (hout : (hdr ++ payload).length + 16 ≤ outSize) (hplain : payload.length ≤ plainSize)
    (hready' : st'.wpaPtkReady = true) (htk : st'.tk = st.tk) :
    iwlCcmpDecryptPayload aes st' (iwlCcmpEncryptFrame aes st (hdr ++ payload) outSize).2 hdrLen3
      plainSize = some payload := by
  have h24 : (protectHeader hdr).length = 24 := by rw [length_protectHeader, hhdr]
  have hccmp : (ccmpHeader (st.ccmpTxPn + 1)).length = 8 := rfl
  rw [iwlCcmpEncryptFrame_eq hhdr hready hpayload hout]
  dsimp only
  rw [iwlCcmpDecryptPayload_eq hready']
  · rw [htk, List.append_assoc, ccmpBuildAad_append h24, ccmpNonceFromPn_append h24]
    have hdrop : (protectHeader hdr ++ (ccmpHeader (st.ccmpTxPn + 1) ++
        Ccm.encrypt (aes st.tk) (ccmpNonce hdr (st.ccmpTxPn + 1))
          (ccmpBuildAad (protectHeader hdr) hdrLen3) payload)).drop hdrLen3 = ccmpHeader (st.ccmpTxPn + 1) ++
        Ccm.encrypt (aes st.tk) (ccmpNonce hdr (st.ccmpTxPn + 1))
          (ccmpBuildAad (protectHeader hdr) hdrLen3) payload := List.drop_left' h24
    rw [← List.drop_drop, hdrop, ccmpNonceFromPn_header, ccmpNonceFromPn_protectHeader,
      List.drop_left' hccmp, Ccm.decrypt_encrypt]
  · simp [h24, hccmp, Ccm.encrypt]
    omega
  · simp [h24, hccmp, Ccm.encrypt]
    omega

/-! ### The driver and the standard -/

theorem or_and_self (c : Byte) : (c ||| 0x40) &&& 0x40 = 0x40 := by
  rw [← UInt8.toBitVec_inj, UInt8.toBitVec_and, UInt8.toBitVec_or]
  generalize c.toBitVec = x
  revert x
  decide

theorem protectedBit_ne (b c : Byte) :
    b &&& ~~~(0x08 ||| 0x10 ||| 0x20 ||| 0x40) ≠ c &&& 0xc7 ||| 0x40 := by
  intro h
  have hclear : b &&& ~~~(0x08 ||| 0x10 ||| 0x20 ||| 0x40) &&& 0x40 = 0 := by
    rw [UInt8.and_assoc]
    exact UInt8.and_zero
  rw [h, or_and_self] at hclear
  cases hclear

theorem ccmpAad_eq (hdr : List Byte) :
    ccmpAad hdr = (hdr.getD 0 0 &&& 0x8f) :: (hdr.getD 1 0 &&& 0xc7 ||| 0x40) ::
      ((hdr.drop 4).take 18 ++ [hdr.getD 22 0 &&& 0x0f, 0]) := rfl

theorem ccmpBuildAad_protectHeader (h : hdr.length = hdrLen3) :
    ccmpBuildAad (protectHeader hdr) hdrLen3 =
      hdr.getD 0 0 :: ((hdr.getD 1 0 ||| 0x40) &&& ~~~(0x08 ||| 0x10 ||| 0x20 ||| 0x40)) ::
        ((hdr.drop 4).take 18 ++ [hdr.getD 22 0 &&& 0x0f, 0]) := by
  match hdr, h with
  | a :: b :: hdr, _ => rfl

theorem message_cons (nonce rest payload : List Byte) (b0 b1 : Byte) :
    Ccm.message nonce (b0 :: b1 :: rest) payload =
      [Ccm.pack (0x59 :: nonce ++ Ccm.be16 payload.length)] ++
        Ccm.pack (Ccm.be16 (rest.length + 2) ++ b0 :: b1 :: rest.take 12) ::
          (Ccm.blocks (rest.drop 12) ++ Ccm.blocks payload) := by
  rw [Ccm.message, blocks_aadField (by simp)]
  rfl

/-- **The authenticator of the driver is never the one of the standard**: the additional data differ in
their first block, and in no other. -/
theorem mac_ne_mac (hE : Function.Injective E) (h : hdr.length = hdrLen3) (nonce payload : List Byte) :
    Ccm.mac E nonce (ccmpBuildAad (protectHeader hdr) hdrLen3) payload ≠
      Ccm.mac E nonce (ccmpAad hdr) payload := by
  rw [Ccm.mac, Ccm.mac, ccmpBuildAad_protectHeader h, ccmpAad_eq, message_cons, message_cons]
  refine Ccm.cbcMac_ne hE _ _ fun hblock => ?_
  have hbyte := congrArg (fun b : Block => b[3]) hblock
  exact protectedBit_ne _ _ (by simpa [Ccm.pack, Ccm.be16] using hbyte)

theorem CcmpLaw.micsAgree (h : CcmpLaw aes st hdr payload) (hhdr : hdr.length = hdrLen3)
    (hready : st.wpaPtkReady = true) : payload ≠ [] ∧ MicsAgree aes st hdr payload := by
  have hpayload : payload ≠ [] := by
    rintro rfl
    have hframe := congrArg List.length (h.frame 1000 (by rw [List.append_nil, hhdr]; norm_num))
    rw [iwlCcmpEncryptFrame, if_pos (.inl (by rw [List.append_nil, hhdr]))] at hframe
    simp [ccmpFrame, ccmpHeader] at hframe
  refine ⟨hpayload, ?_⟩
  have hframe := h.frame _ le_rfl
  rw [iwlCcmpEncryptFrame_eq hhdr hready hpayload le_rfl, ccmpFrame] at hframe
  exact Ccm.encrypt_eq_encrypt_iff.1 (List.append_cancel_left hframe)

/-- **The promise is kept exactly when the two authenticators agree in the eight bytes that are sent**,
and there is a payload. -/
theorem ccmpLaw_iff (aes : Block → Block → Block) (st : IwlwifiState) (hdr payload : List Byte)
    (hhdr : hdr.length = hdrLen3) (hready : st.wpaPtkReady = true) :
    CcmpLaw aes st hdr payload ↔ payload ≠ [] ∧ MicsAgree aes st hdr payload := by
  refine ⟨fun h => h.micsAgree hhdr hready, ?_⟩
  rintro ⟨hpayload, hagree⟩
  exact
    { frame := fun outSize hout => by
        rw [iwlCcmpEncryptFrame_eq hhdr hready hpayload hout, ccmpFrame]
        exact congrArg _ (Ccm.encrypt_eq_encrypt_iff.2 hagree)
      opens := fun outSize plainSize st' hout hplain hready' htk =>
        iwlCcmpDecryptPayload_encrypt hhdr hready hpayload hout hplain hready' htk
      genuine := fun frame hdrLen plainSize plain hplain => tag_of_iwlCcmpDecryptPayload hplain }

/-- A driver with the key 0, and a data frame to an access point. -/
def sampleState : IwlwifiState where
  bssid := List.replicate 6 0x02
  wpaPmk := List.replicate 32 0
  wpaPtk := List.replicate 64 0
  wpaPtkReady := true
  wpaAnonce := List.replicate 32 0
  wpaSnonce := List.replicate 32 1
  wpaReplayCounter := 0
  wpaKeyMsg1 := true
  wpaKeyMsg3 := true
  ccmpTxPn := 0
  txSequence := 0
  linkReady := true

def sampleHeader : List Byte := [0x08, 0x01] ++ List.replicate 22 0

theorem ccmpLaw_iff_sample :
    CcmpLaw tnuAes128EncryptBlock sampleState sampleHeader [0xaa] ↔
      [(0xaa : Byte)] ≠ [] ∧ MicsAgree tnuAes128EncryptBlock sampleState sampleHeader [0xaa] :=
  ccmpLaw_iff tnuAes128EncryptBlock sampleState sampleHeader [0xaa] rfl rfl

theorem blocks_of_le {l : List Byte} (h : l ≠ []) (hlen : l.length ≤ 16) :
    Ccm.blocks l = [Ccm.pack l] := by
  rw [Ccm.blocks, dif_neg h, List.drop_of_length_le hlen, Ccm.blocks, dif_pos rfl]

/-- The authenticator of the sample, over the additional data with a given second byte. -/
def sampleMac (b1 : Byte) : List Byte :=
  (Ccm.cbcMac (aesEncryptBlock aesSboxLookup sampleState.tk)
    [Ccm.pack (0x59 :: ccmpNonce sampleHeader 1 ++ Ccm.be16 1),
      Ccm.pack (Ccm.be16 22 ++ 0x08 :: b1 :: List.replicate 12 0), Ccm.pack (List.replicate 8 0),
      Ccm.pack [0xaa]]).toList.take 8

theorem sampleMac_ne : sampleMac 0x01 ≠ sampleMac 0x41 := by
  simp only [sampleMac, aesSboxLookup_eq]
  decide +kernel

/-- **A frame that no other station accepts.** -/
theorem not_ccmpLaw :
    ¬ ∀ st hdr payload, hdr.length = hdrLen3 → st.wpaPtkReady = true → payload ≠ [] →
      CcmpLaw tnuAes128EncryptBlock st hdr payload := by
  intro h
  have hagree := ((h sampleState sampleHeader [0xaa] rfl rfl (by simp)).micsAgree rfl rfl).2
  rw [MicsAgree] at hagree
  rw [ccmpBuildAad_protectHeader rfl, ccmpAad_eq, Ccm.mac, Ccm.mac, message_cons, message_cons,
    tnuAes128EncryptBlock_eq, blocks_of_le (l := [0xaa]) (by simp) (by simp),
    blocks_of_le (by simp [sampleHeader]) (by simp [sampleHeader])] at hagree
  exact sampleMac_ne hagree

end Tnu.Wifi
