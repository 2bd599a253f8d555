/-
**Joining a network.**

`iwlwifi_associate` of `kernel/drivers/net/iwlwifi.c` stores the network it is asked for, sends two frames
and waits for their answers, and for a protected network it waits for the two messages of the key exchange.
While it waits, frames come in and are handled.  It gives up at about ten places.  It clears nothing when
it begins, and nothing when it gives up.

The driver is a machine here: it stands at one of the four waits or at none, and a step is the piece of the
procedure up to the next wait, a received frame, or a frame the network stack sends.  The two generations of
devices share all but the commands that set the device up.

Main definitions:

* `Step`, `deviceStep`, `runDevice` — what can happen, in any order.

Main results:

* `iwlHandleEapolKey_of_msg1`, `iwlHandleEapolKey_of_not_msg1` — the fields a frame of
  the key exchange changes;
* `iwlParseDataFrame_fst`, `iwlParseMgmtFrame_eq` — what a received frame changes;
* `iwlwifiTransmit_eq` — what sending changes.
-/

import Tnu.Wifi.Receive

set_option autoImplicit false

namespace Tnu.Wifi

open Ccm (Block)

/-! ### The driver -/

/-- An entry of the list of access points: `struct iwlwifi_ap`. -/
structure IwlwifiAp where
  ssid : List Byte
  bssid : List Byte
  channel : Byte
  deriving DecidableEq, Repr

/-- What `iwlwifi_associate` is asked for.  No passphrase and an empty one are the same to it. -/
structure Request where
  ssid : List Byte
  passphrase : List Byte
  deriving DecidableEq, Repr

/-- Where `iwlwifi_associate` waits: for the answers to the two frames it sends, and for the two messages
of the key exchange. -/
inductive Phase
  | idle
  | auth (r : Request)
  | assoc (r : Request)
  | msg1
  | msg3
  deriving DecidableEq, Repr

/-- The fields of `struct iwlwifi_state`, and of the interface, that joining a network uses. -/
structure Device extends IwlwifiState where
  modernTransport : Bool
  associated : Bool
  associatedSsid : List Byte
  channel : Byte
  authDone : Bool
  authStatus : UInt16
  assocDone : Bool
  assocStatus : UInt16
  assocId : UInt16
  ifaceLink : Bool
  ifaceUp : Bool
  phase : Phase
  deriving DecidableEq, Repr

def bootDevice (modernTransport : Bool) : Device where
  toIwlwifiState := bootIwlwifi
  modernTransport := modernTransport
  associated := false
  associatedSsid := []
  channel := 0
  authDone := false
  authStatus := 0
  assocDone := false
  assocStatus := 0
  assocId := 0
  ifaceLink := false
  ifaceUp := false
  phase := .idle

/-! ### Received frames -/

def le16At (l : List Byte) (i : ℕ) : UInt16 := (l.getD i 0).toUInt16 ||| (l.getD (i + 1) 0).toUInt16 <<< 8

/-- `iwl_parse_mgmt_frame`, but for the beacons, which change only the list of access points. -/
def iwlParseMgmtFrame (d : Device) (frame : List Byte) : Device :=
  if frame.length < hdrLen3 + 12 ∨ frame.getD 0 0 &&& 0x0c ≠ 0x00 then d
  else if frame.getD 0 0 &&& 0xf0 = 0xb0 then
    if le16At frame hdrLen3 = 0 ∧ le16At frame (hdrLen3 + 2) = 2 then
      { d with authDone := true, authStatus := le16At frame (hdrLen3 + 4) }
    else d
  else if frame.getD 0 0 &&& 0xf0 = 0x10 then
    { d with
      assocDone := true
      assocStatus := le16At frame (hdrLen3 + 2)
      assocId := le16At frame (hdrLen3 + 4) &&& 0x3fff }
  else d

/-- A data frame: the test of `iwl_handle_mpdu`. -/
def IsData (frame : List Byte) : Prop := frame.getD 0 0 &&& 0x0c = 0x08

instance (frame : List Byte) : Decidable (IsData frame) := inferInstanceAs (Decidable (_ = _))

section Driver

variable (aes : Block → Block → Block) (mac : List Byte)

/-- `iwl_handle_mpdu`, for a frame that came in without an error. -/
def iwlHandleMpdu (env : RxEnv) (d : Device) (frame : List Byte) : Device :=
  if IsData frame then
    { d with toIwlwifiState := (iwlParseDataFrame aes env d.toIwlwifiState frame).1 }
  else iwlParseMgmtFrame d frame

/-! ### The data path -/

/-- The frame `iwlwifi_transmit` builds from an Ethernet frame. -/
def wifiFrame (d : Device) (eth : List Byte) : List Byte :=
  ([0x08, 0x01, 0, 0] : List Byte) ++ d.bssid.take 6 ++ mac.take 6 ++ eth.take 6 ++
    Bytes.le 2 (d.txSequence <<< 4).toNat ++ [0xaa, 0xaa, 0x03, 0, 0, 0] ++ (eth.drop 12).take 2 ++
    eth.drop 14

abbrev protectedSize : ℕ := 1720

/-- `iwlwifi_transmit`; `rc` is what the device answers. -/
def iwlwifiTransmit (rc : ℤ) (d : Device) (eth : List Byte) : Device × ℤ :=
  if ¬ (d.associated = true ∧ d.linkReady = true) then (d, -2)
  else if eth.length < 14 ∨ 1500 < eth.length then (d, -1)
  else
    let wifi := wifiFrame mac d eth
    let d := { d with txSequence := d.txSequence + 1 }
    if d.wpaPtkReady then
      match iwlCcmpEncryptFrame aes d.toIwlwifiState wifi protectedSize with
      | (st, []) => ({ d with toIwlwifiState := st }, -3)
      | (st, _ :: _) => ({ d with toIwlwifiState := st }, rc)
    else (d, rc)

/-! ### The procedure -/

/-- `iwl_find_ap`, over the entries that are valid. -/
def iwlFindAp (aps : List IwlwifiAp) (ssid : List Byte) : Option IwlwifiAp :=
  aps.find? (·.ssid = ssid)

/-- The end of `iwl_send_bss_rxon`, which `iwl_mvm_associate` has as its eighth step: the network is
stored. -/
def storeAp (d : Device) (ap : IwlwifiAp) : Device :=
  { d with bssid := ap.bssid.take 6, channel := ap.channel, associatedSsid := ap.ssid.take 32 }

def tnuPbkdf2HmacSha1 (passphrase ssid : List Byte) (iterations outLen : ℕ) : List Byte :=
  ((List.range ((outLen + 19) / 20)).flatMap fun block =>
    let u := tnuHmacSha1 passphrase (ssid ++ storeBe32 (UInt32.ofNat (block + 1)))
    ((fun (u, t) => (tnuHmacSha1 passphrase u,
      List.zipWith (· ^^^ ·) t (tnuHmacSha1 passphrase u)))^[iterations - 1] (u, u)).2).take outLen

def tnuWpaPmkFromPassphrase (passphrase ssid : List Byte) : List Byte :=
  tnuPbkdf2HmacSha1 passphrase ssid 4096 32

def fail (d : Device) (rc : ℤ) : Device × Option ℤ := ({ d with phase := .idle }, some rc)

def succeed (d : Device) : Device × Option ℤ :=
  ({ d with associated := true, linkReady := true, ifaceLink := true, ifaceUp := true, phase := .idle },
    some 0)

/-- From the call to the wait for the answer to the first frame.  `start` is what `iwlwifi_start` answers,
and for the newer devices the scan; `aps` is the list of access points after the scan, if there was one;
`configured` says whether the device takes the commands, and `sent` whether it takes the frame. -/
def beginAssociate (d : Device) (r : Request) (start : ℤ) (aps : List IwlwifiAp)
    (configured sent : Bool) : Device × Option ℤ :=
  if r.ssid = [] then (d, some (-1))
  else if start < 0 then (d, some start)
  else
    match iwlFindAp aps r.ssid with
    | none => (d, some (-10))
    | some ap =>
      if configured = false ∨ (d.modernTransport = false ∧ ap.channel = 0) then (d, some (-7))
      else
        let d := { storeAp d ap with
          authDone := false
          authStatus := 0xffff
          txSequence := d.txSequence + 1 }
        if sent then ({ d with phase := .auth r }, none) else (d, some (-11))

def authWaited (d : Device) (r : Request) (sent : Bool) : Device × Option ℤ :=
  if d.authDone = true ∧ d.authStatus = 0 then
    let d := { d with
      assocDone := false
      assocStatus := 0xffff
      assocId := 0
      txSequence := d.txSequence + 1 }
    if sent then ({ d with phase := .assoc r }, none) else fail d (-12)
  else fail d (-11)

/-- From there to the end, or to the wait for the first message.  `privacy` is what the entry of the
access point says now. -/
def assocWaited (d : Device) (r : Request) (privacy : Bool) (ticks : UInt64) : Device × Option ℤ :=
  if d.assocDone = true ∧ d.assocStatus = 0 then
    if privacy = true ∨ r.passphrase ≠ [] then
      if r.passphrase = [] then fail d (-8)
      else
        let st := iwlMakeSnonce mac ticks
          { d.toIwlwifiState with wpaPmk := tnuWpaPmkFromPassphrase r.passphrase r.ssid }
        ({ d with
            toIwlwifiState := { st with wpaKeyMsg1 := false, wpaKeyMsg3 := false }
            phase := .msg1 }, none)
    else succeed d
  else fail d (-12)

def msg1Waited (d : Device) : Device × Option ℤ :=
  if d.wpaKeyMsg1 = true then ({ d with phase := .msg3 }, none) else fail d (-14)

/-- `iwl_install_pairwise_ccmp_key`: the older devices are told the key, and may refuse it. -/
def iwlInstallPairwiseCcmpKey (d : Device) (installed : Bool) : Bool :=
  d.wpaPtkReady && (d.modernTransport || installed)

def msg3Waited (d : Device) (installed : Bool) : Device × Option ℤ :=
  if d.wpaKeyMsg3 = true then
    if iwlInstallPairwiseCcmpKey d installed = true then succeed { d with ccmpTxPn := 0 }
    else fail d (-16)
  else fail d (-15)

def storedAp (d : Device) (r : Request) (start : ℤ) (aps : List IwlwifiAp) (configured : Bool) :
    Option IwlwifiAp :=
  if r.ssid = [] ∨ start < 0 ∨ configured = false then none
  else (iwlFindAp aps r.ssid).filter fun ap => d.modernTransport || ap.channel ≠ 0

/-- What can happen: a frame comes in, the network stack sends one, or `iwlwifi_associate` is called or
goes on. -/
inductive Step
  | receive (apKnown callback ok : Bool) (ticks : UInt64) (frame : List Byte)
  | transmit (eth : List Byte) (rc : ℤ)
  | associate (r : Request) (start : ℤ) (aps : List IwlwifiAp) (configured sent : Bool)
  | authWaited (sent : Bool)
  | assocWaited (privacy : Bool) (ticks : UInt64)
  | msg1Waited
  | msg3Waited (installed : Bool)
  deriving DecidableEq, Repr

/-- A step: the driver after it, and what the call of `iwlwifi_associate` returns, if it returns. -/
def deviceStep (d : Device) : Step → Device × Option ℤ
  | .receive apKnown callback ok ticks frame =>
    (iwlHandleMpdu aes ⟨mac, apKnown, callback, ok, ticks⟩ d frame, none)
  | .transmit eth rc => ((iwlwifiTransmit aes mac rc d eth).1, none)
  | .associate r start aps configured sent =>
    match d.phase with
    | .idle => beginAssociate d r start aps configured sent
    | _ => (d, none)
  | .authWaited sent =>
    match d.phase with
    | .auth r => authWaited d r sent
    | _ => (d, none)
  | .assocWaited privacy ticks =>
    match d.phase with
    | .assoc r => assocWaited mac d r privacy ticks
    | _ => (d, none)
  | .msg1Waited =>
    match d.phase with
    | .msg1 => msg1Waited d
    | _ => (d, none)
  | .msg3Waited installed =>
    match d.phase with
    | .msg3 => msg3Waited d installed
    | _ => (d, none)

def runDevice (d : Device) (steps : List Step) : Device :=
  steps.foldl (fun d s => (deviceStep aes mac d s).1) d

end Driver

/-! ### What a frame does -/

section Frames

variable {mac eapol : List Byte} {ok : Bool} {ticks : UInt64} {st : IwlwifiState}

theorem iwlSendEapolFrame_fst (ok : Bool) (st : IwlwifiState) (eapol : List Byte) :
    ∃ seq, (iwlSendEapolFrame ok st eapol).1 = { st with txSequence := seq } := by
  rw [iwlSendEapolFrame]
  split_ifs
  · exact ⟨st.txSequence, rfl⟩
  · exact ⟨_, rfl⟩

theorem takeMsg1_fields (mac : List Byte) (ticks : UInt64) (st : IwlwifiState) (eapol : List Byte) :
    ∃ snonce ptk,
      takeMsg1 mac ticks st eapol =
        { st with
          wpaAnonce := nonceOf eapol
          wpaReplayCounter := replayOf eapol
          wpaSnonce := snonce
          wpaPtk := ptk
          wpaPtkReady := true } ∧
      (st.wpaSnonce.getD 0 0 ≠ 0 → snonce = st.wpaSnonce) := by
  rw [takeMsg1]
  dsimp only
  split_ifs with h
  · exact ⟨_, _, rfl, fun hne => absurd h hne⟩
  · exact ⟨_, _, rfl, fun _ => rfl⟩

theorem iwlHandleEapolKey_of_msg1 (mac : List Byte) (ok : Bool) (ticks : UInt64) (st : IwlwifiState)
    (h : IsMsg1 eapol) :
    ∃ seq mark, (iwlHandleEapolKey mac ok ticks st eapol).1 =
        { takeMsg1 mac ticks st eapol with txSequence := seq, wpaKeyMsg1 := mark } ∧
      (st.wpaKeyMsg1 = true → mark = true) := by
  obtain ⟨hkey, hack, hmic⟩ := h
  obtain ⟨snonce, ptk, htake, -⟩ := takeMsg1_fields mac ticks st eapol
  rw [iwlHandleEapolKey, if_neg (not_not.2 hkey), if_pos (by rw [hack, hmic]; rfl)]
  dsimp only
  rw [htake]
  generalize hst : ({ st with
      wpaAnonce := nonceOf eapol
      wpaReplayCounter := replayOf eapol
      wpaSnonce := snonce
      wpaPtk := ptk
      wpaPtkReady := true } : IwlwifiState) = taken
  have hmark : taken.wpaKeyMsg1 = st.wpaKeyMsg1 := by rw [← hst]
  obtain ⟨seq, hseq⟩ := iwlSendEapolFrame_fst ok taken (iwlBuildEapolKeyMsg2 taken)
  split_ifs
  · exact ⟨taken.txSequence, taken.wpaKeyMsg1, rfl, hmark.trans⟩
  · revert hseq
    rcases iwlSendEapolFrame ok taken (iwlBuildEapolKeyMsg2 taken) with ⟨st', _ | _⟩
    · rintro rfl
      exact ⟨seq, taken.wpaKeyMsg1, rfl, hmark.trans⟩
    · rintro rfl
      exact ⟨seq, true, rfl, fun _ => rfl⟩

theorem iwlHandleEapolKey_of_not_msg1 (mac : List Byte) (ok : Bool) (ticks : UInt64)
    (st : IwlwifiState) (h : ¬ IsMsg1 eapol) :
    ∃ seq mark replay, (iwlHandleEapolKey mac ok ticks st eapol).1 =
      { st with txSequence := seq, wpaKeyMsg3 := mark, wpaReplayCounter := replay } := by
  rw [iwlHandleEapolKey]
  by_cases hkey : KeyFrame eapol
  · rw [if_neg (not_not.2 hkey)]
    have hmsg1 : ¬ (ackBit eapol && !micBit eapol) = true := fun hbits => by
      rw [Bool.and_eq_true, Bool.not_eq_true'] at hbits
      exact h ⟨hkey, hbits⟩
    rw [if_neg hmsg1]
    dsimp only
    obtain ⟨seq, hseq⟩ := iwlSendEapolFrame_fst ok
      { st with wpaKeyMsg3 := true, wpaReplayCounter := replayOf eapol }
      (iwlBuildEapolKeyMsg4 { st with wpaKeyMsg3 := true, wpaReplayCounter := replayOf eapol })
    split_ifs
    · exact ⟨_, _, _, rfl⟩
    · exact ⟨_, _, _, rfl⟩
    · revert hseq
      rcases iwlSendEapolFrame ok { st with wpaKeyMsg3 := true, wpaReplayCounter := replayOf eapol }
        (iwlBuildEapolKeyMsg4 { st with wpaKeyMsg3 := true, wpaReplayCounter := replayOf eapol })
        with ⟨st', _ | _⟩
      · rintro rfl
        exact ⟨seq, _, _, rfl⟩
      · rintro rfl
        exact ⟨seq, _, _, rfl⟩
    · exact ⟨_, _, _, rfl⟩
  · rw [if_pos hkey]
    exact ⟨_, _, _, rfl⟩

end Frames

section Steps

variable (aes : Block → Block → Block) (mac : List Byte)

def eapolOf (apKnown : Bool) (st : IwlwifiState) (frame : List Byte) : Option (List Byte) :=
  if frame.length < hdrLen3 + 8 ∨ ¬ IsData frame then none
  else
    match rxPayload aes st frame with
    | none => none
    | some llc =>
      if LlcSnap llc ∧ be16At llc 6 = ethTypeEapol ∧ apKnown = true then some (llc.drop 8) else none

variable {mac} in
theorem iwlParseDataFrame_fst (env : RxEnv) (st : IwlwifiState) (frame : List Byte) :
    (iwlParseDataFrame aes env st frame).1 =
      match eapolOf aes env.apKnown st frame with
      | none => st
      | some eapol => (iwlHandleEapolKey env.mac env.ok env.ticks st eapol).1 := by
  rw [iwlParseDataFrame, eapolOf]
  by_cases hlen : frame.length < hdrLen3 + 8
  · rw [if_pos hlen, if_pos (.inl hlen)]
  rw [if_neg hlen]
  by_cases hdata : IsData frame
  · have htype : ¬ frame.getD 0 0 &&& 0x0c ≠ 0x08 := not_not.2 hdata
    rw [if_neg htype, if_neg (not_or.2 ⟨hlen, not_not.2 hdata⟩)]
    rcases rxPayload aes st frame with _ | llc
    · rfl
    · dsimp only
      by_cases hllc : LlcSnap llc
      · by_cases htype : be16At llc 6 = ethTypeEapol
        · rcases hknown : env.apKnown with _ | _
          · simp [hllc, htype]
          · simp [hllc, htype]
        · simp only [hllc, htype, not_true_eq_false, if_false, false_and, and_false]
          split_ifs
          · rfl
          · rfl
          · rfl
      · simp [hllc]
  · have htype : frame.getD 0 0 &&& 0x0c ≠ 0x08 := hdata
    rw [if_pos htype, if_pos (.inr hdata)]

theorem iwlParseMgmtFrame_eq (d : Device) (frame : List Byte) :
    ∃ authDone authStatus assocDone assocStatus assocId,
      iwlParseMgmtFrame d frame =
        { d with
          authDone := authDone
          authStatus := authStatus
          assocDone := assocDone
          assocStatus := assocStatus
          assocId := assocId } := by
  rw [iwlParseMgmtFrame]
  split_ifs
  · exact ⟨_, _, _, _, _, rfl⟩
  · exact ⟨_, _, _, _, _, rfl⟩
  · exact ⟨_, _, _, _, _, rfl⟩
  · exact ⟨_, _, _, _, _, rfl⟩
  · exact ⟨_, _, _, _, _, rfl⟩

theorem iwlCcmpEncryptFrame_fst (st : IwlwifiState) (plain : List Byte) (outSize : ℕ) :
    (iwlCcmpEncryptFrame aes st plain outSize).2 = [] ∧
        (iwlCcmpEncryptFrame aes st plain outSize).1 = st ∨
      (iwlCcmpEncryptFrame aes st plain outSize).2 ≠ [] ∧ st.wpaPtkReady = true ∧
        (iwlCcmpEncryptFrame aes st plain outSize).1 = { st with ccmpTxPn := st.ccmpTxPn + 1 } := by
  rw [iwlCcmpEncryptFrame]
  split_ifs with h
  · exact .inl ⟨rfl, rfl⟩
  · rw [not_or, not_or] at h
    exact .inr ⟨by simp [ccmpHeader], Bool.eq_true_of_not_eq_false h.2.2, rfl⟩

/-- What `iwl_ccmp_encrypt_frame` makes of the frame. -/
def protectedFrame (d : Device) (eth : List Byte) : List Byte :=
  (iwlCcmpEncryptFrame aes { d.toIwlwifiState with txSequence := d.txSequence + 1 } (wifiFrame mac d eth)
    protectedSize).2

def Protects (d : Device) (eth : List Byte) : Prop :=
  (d.associated = true ∧ d.linkReady = true) ∧ ¬ (eth.length < 14 ∨ 1500 < eth.length) ∧
    protectedFrame aes mac d eth ≠ []

instance (d : Device) (eth : List Byte) : Decidable (Protects aes mac d eth) :=
  inferInstanceAs (Decidable (_ ∧ _ ∧ _))

theorem Protects.ready {d : Device} {eth : List Byte} (h : Protects aes mac d eth) :
    d.wpaPtkReady = true := by
  obtain ⟨hnone, -⟩ | ⟨-, hready, -⟩ := iwlCcmpEncryptFrame_fst aes
    { d.toIwlwifiState with txSequence := d.txSequence + 1 } (wifiFrame mac d eth) protectedSize
  · exact absurd hnone h.2.2
  · exact hready

theorem iwlwifiTransmit_eq (rc : ℤ) (d : Device) (eth : List Byte) :
    ∃ seq, (iwlwifiTransmit aes mac rc d eth).1 =
      { d with
        txSequence := seq
        ccmpTxPn := if Protects aes mac d eth then d.ccmpTxPn + 1 else d.ccmpTxPn } := by
  by_cases hlink : d.associated = true ∧ d.linkReady = true
  · by_cases hlen : eth.length < 14 ∨ 1500 < eth.length
    · have hnot : ¬ Protects aes mac d eth := fun h => h.2.1 hlen
      rw [iwlwifiTransmit, if_neg (not_not.2 hlink), if_pos hlen, if_neg hnot]
      exact ⟨_, rfl⟩
    · rw [iwlwifiTransmit, if_neg (not_not.2 hlink), if_neg hlen]
      dsimp only
      by_cases hready : d.wpaPtkReady = true
      · rw [if_pos hready]
        have hfst := iwlCcmpEncryptFrame_fst aes
          { d.toIwlwifiState with txSequence := d.txSequence + 1 } (wifiFrame mac d eth) protectedSize
        have hframe : Protects aes mac d eth ↔ (iwlCcmpEncryptFrame aes
            { d.toIwlwifiState with txSequence := d.txSequence + 1 } (wifiFrame mac d eth)
            protectedSize).2 ≠ [] := ⟨fun h => h.2.2, fun h => ⟨hlink, hlen, h⟩⟩
        simp only [hframe]
        revert hfst
        rcases iwlCcmpEncryptFrame aes { d.toIwlwifiState with txSequence := d.txSequence + 1 }
          (wifiFrame mac d eth) protectedSize with ⟨st', _ | ⟨b, out⟩⟩
        · rintro (⟨-, rfl⟩ | ⟨h, -⟩)
          · exact ⟨_, rfl⟩
          · exact absurd rfl h
        · rintro (⟨h, -⟩ | ⟨-, -, rfl⟩)
          · cases h
          · exact ⟨_, rfl⟩
      · have hnot : ¬ Protects aes mac d eth := fun h => hready (h.ready aes mac)
        rw [if_neg hready, if_neg hnot]
        exact ⟨_, rfl⟩
  · have hnot : ¬ Protects aes mac d eth := fun h => hlink h.1
    rw [iwlwifiTransmit, if_pos hlink, if_neg hnot]
    exact ⟨_, rfl⟩

/-! ### What the waits lead to -/

theorem beginAssociate_spec (d : Device) (r : Request) (start : ℤ) (aps : List IwlwifiAp)
    (configured sent : Bool) :
    (storedAp d r start aps configured = none ∧
        ∃ rc, beginAssociate d r start aps configured sent = (d, some rc)) ∨
      ∃ ap status seq, storedAp d r start aps configured = some ap ∧
        beginAssociate d r start aps configured sent =
          ({ storeAp d ap with
              authDone := false
              authStatus := status
              txSequence := seq
              phase := if sent then .auth r else d.phase }, if sent then none else some (-11)) := by
  rw [beginAssociate, storedAp]
  by_cases hssid : r.ssid = []
  · rw [if_pos hssid, if_pos (.inl hssid)]
    exact .inl ⟨rfl, _, rfl⟩
  by_cases hstart : start < 0
  · rw [if_neg hssid, if_pos hstart, if_pos (.inr (.inl hstart))]
    exact .inl ⟨rfl, _, rfl⟩
  rw [if_neg hssid, if_neg hstart]
  rcases configured with _ | _
  · rw [if_pos (.inr (.inr rfl))]
    rcases iwlFindAp aps r.ssid with _ | ap
    · exact .inl ⟨rfl, _, rfl⟩
    · exact .inl ⟨rfl, _, rfl⟩
  rw [if_neg (by simp [hssid, hstart])]
  rcases iwlFindAp aps r.ssid with _ | ap
  · exact .inl ⟨rfl, _, rfl⟩
  dsimp only
  by_cases hchannel : d.modernTransport = false ∧ ap.channel = 0
  · rw [if_pos (.inr hchannel)]
    exact .inl ⟨by simp [hchannel], _, rfl⟩
  · rw [if_neg (by simp [hchannel])]
    refine .inr ⟨ap, 0xffff, d.txSequence + 1, ?_, ?_⟩
    · rw [Option.filter_some]
      refine if_pos ?_
      rcases hmodern : d.modernTransport with _ | _
      · simpa [hmodern] using hchannel
      · rfl
    · rcases sent with _ | _
      · rfl
      · rfl

theorem authWaited_cases (d : Device) (r : Request) (sent : Bool) :
    ∃ done status aid seq,
      (∃ rc, rc < 0 ∧ authWaited d r sent =
        fail { d with assocDone := done, assocStatus := status, assocId := aid, txSequence := seq } rc) ∨
      authWaited d r sent =
        ({ d with
            assocDone := done
            assocStatus := status
            assocId := aid
            txSequence := seq
            phase := .assoc r }, none) := by
  rw [authWaited]
  split_ifs
  · exact ⟨_, _, _, _, .inr rfl⟩
  · exact ⟨_, _, _, _, .inl ⟨_, by norm_num, rfl⟩⟩
  · exact ⟨d.assocDone, d.assocStatus, d.assocId, d.txSequence, .inl ⟨_, by norm_num, rfl⟩⟩

theorem iwlMakeSnonce_fields (mac : List Byte) (ticks : UInt64) (st : IwlwifiState) :
    ∃ snonce, iwlMakeSnonce mac ticks st = { st with wpaSnonce := snonce } := ⟨_, rfl⟩

variable {mac} in
theorem assocWaited_cases (d : Device) (r : Request) (privacy : Bool) (ticks : UInt64) :
    (∃ rc, rc < 0 ∧
        ¬ ((d.assocDone = true ∧ d.assocStatus = 0) ∧ ¬ (privacy = true ∧ r.passphrase = [])) ∧
        assocWaited mac d r privacy ticks = fail d rc) ∨
      (¬ (privacy = true ∨ r.passphrase ≠ []) ∧ assocWaited mac d r privacy ticks = succeed d) ∨
      ∃ pmk snonce, r.passphrase ≠ [] ∧ assocWaited mac d r privacy ticks =
        ({ d with
            wpaPmk := pmk
            wpaSnonce := snonce
            wpaKeyMsg1 := false
            wpaKeyMsg3 := false
            phase := .msg1 }, none) := by
  rw [assocWaited]
  generalize tnuWpaPmkFromPassphrase r.passphrase r.ssid = pmk
  obtain ⟨snonce, hsnonce⟩ := iwlMakeSnonce_fields mac ticks { d.toIwlwifiState with wpaPmk := pmk }
  rw [hsnonce]
  split_ifs with hdone hprotected hpass
  · have hprivacy : privacy = true := hprotected.resolve_right (not_not.2 hpass)
    exact .inl ⟨_, by norm_num, fun h => h.2 ⟨hprivacy, hpass⟩, rfl⟩
  · exact .inr (.inr ⟨pmk, snonce, hpass, rfl⟩)
  · exact .inr (.inl ⟨hprotected, rfl⟩)
  · exact .inl ⟨_, by norm_num, fun h => hdone h.1, rfl⟩

theorem msg3Waited_cases (d : Device) (installed : Bool) :
    (∃ rc, rc < 0 ∧ ¬ (d.wpaKeyMsg3 = true ∧ iwlInstallPairwiseCcmpKey d installed = true) ∧
        msg3Waited d installed = fail d rc) ∨
      (d.wpaPtkReady = true ∧ msg3Waited d installed = succeed { d with ccmpTxPn := 0 }) := by
  rw [msg3Waited]
  split_ifs with hmark hinstall
  · rw [iwlInstallPairwiseCcmpKey, Bool.and_eq_true] at hinstall
    exact .inr ⟨hinstall.1, rfl⟩
  · exact .inl ⟨_, by norm_num, fun h => hinstall h.2, rfl⟩
  · exact .inl ⟨_, by norm_num, fun h => hmark h.1, rfl⟩

end Steps

end Tnu.Wifi
