/-
**The four-way handshake of WPA2.**

`iwl_handle_eapol_key` of `kernel/drivers/net/iwlwifi.c` answers two messages of the access point.  The
first one brings a nonce, from which the pairwise key is derived, and is not protected; the third one
is protected under that key and completes the handshake.  The driver keeps the replay counter of the
last message to put it into its answers; it does not compare it with anything, and it handles a first
message at any time.

Main definitions:

* `iwlHandleEapolKey` — the handler;
* `WpaStep`, `runWpa` — connections and frames in any order.

Main result:

* `handshakeGuarded_of_boot` — **only a frame under the pairwise key completes the handshake**.
-/

import Tnu.Wifi.Ccmp
import Tnu.Wifi.Sha1

set_option autoImplicit false

namespace Tnu.Wifi

/-! ### Frames -/

abbrev wpaEapolKeyBaseLen : ℕ := 95

def be16At (l : List Byte) (i : ℕ) : UInt16 := (l.getD i 0).toUInt16 <<< 8 ||| (l.getD (i + 1) 0).toUInt16

def be64At (l : List Byte) (i : ℕ) : UInt64 :=
  (List.range 8).foldl (fun v j => v <<< 8 ||| (l.getD (i + j) 0).toUInt64) 0

def putBe16 (v : ℕ) : List Byte := [UInt8.ofNat (v / 256), UInt8.ofNat v]

/-- The field of flags: `be16_at(key + 1)`. -/
def keyInfo (eapol : List Byte) : UInt16 := be16At eapol 5

/-- `WPA_KEY_INFO_ACK`. -/
def ackBit (eapol : List Byte) : Bool := keyInfo eapol &&& 0x0080 ≠ 0

/-- `WPA_KEY_INFO_MIC`. -/
def micBit (eapol : List Byte) : Bool := keyInfo eapol &&& 0x0100 ≠ 0

/-- `WPA_KEY_INFO_INSTALL`. -/
def installBit (eapol : List Byte) : Bool := keyInfo eapol &&& 0x0040 ≠ 0

/-- The replay counter: `be64_at(key + 5)`. -/
def replayOf (eapol : List Byte) : UInt64 := be64At eapol 9

/-- The nonce: the 32 bytes from `key + 13` on. -/
def nonceOf (eapol : List Byte) : List Byte := (eapol.drop 17).take 32

def KeyFrame (eapol : List Byte) : Prop :=
  4 + wpaEapolKeyBaseLen ≤ eapol.length ∧ eapol.getD 1 0 = 3 ∧ eapol.getD 4 0 = 2

instance (eapol : List Byte) : Decidable (KeyFrame eapol) := inferInstanceAs (Decidable (_ ∧ _ ∧ _))

def IsMsg1 (eapol : List Byte) : Prop := KeyFrame eapol ∧ ackBit eapol ∧ micBit eapol = false

def IsMsg3 (eapol : List Byte) : Prop := KeyFrame eapol ∧ ackBit eapol ∧ micBit eapol ∧ installBit eapol

instance (eapol : List Byte) : Decidable (IsMsg1 eapol) := inferInstanceAs (Decidable (_ ∧ _ ∧ _))

instance (eapol : List Byte) : Decidable (IsMsg3 eapol) := inferInstanceAs (Decidable (_ ∧ _ ∧ _ ∧ _))

/-! ### Keys -/

def iwlMemcmpFixed : List Byte → List Byte → ℤ
  | x :: a, y :: b => if x = y then iwlMemcmpFixed a b else if x < y then -1 else 1
  | _, _ => 0

def sortTwo (a b : List Byte) : List Byte := if 0 < iwlMemcmpFixed a b then b ++ a else a ++ b

/-- The key that `iwl_derive_ptk` derives. -/
def pairwiseKey (pmk mac bssid snonce anonce : List Byte) : List Byte :=
  (tnuWpaPrf (pmk.take 32) (lit "Pairwise key expansion")
    (sortTwo (mac.take 6) (bssid.take 6) ++ sortTwo (snonce.take 32) (anonce.take 32)) 64).getD []

def iwlDerivePtk (mac : List Byte) (st : IwlwifiState) : IwlwifiState :=
  { st with
    wpaPtk := pairwiseKey st.wpaPmk mac st.bssid st.wpaSnonce st.wpaAnonce
    wpaPtkReady := true }

/-- `iwl_make_snonce`; `ticks` is what `pit_ticks` answers. -/
def iwlMakeSnonce (mac : List Byte) (ticks : UInt64) (st : IwlwifiState) : IwlwifiState :=
  let seed := mac.take 6 ++ st.bssid.take 6 ++ List.replicate 4 0 ++ Bytes.le 8 ticks.toNat ++
    List.replicate 40 0
  { st with wpaSnonce := tnuSha1 seed ++ (tnuSha1 (seed.modify 31 (· ^^^ 0xa5))).take 12 }

def clearMic (eapol : List Byte) : List Byte := eapol.take 81 ++ List.replicate 16 0 ++ eapol.drop 97

def eapolMic (ptk eapol : List Byte) : List Byte := (tnuHmacSha1 (ptk.take 16) eapol).take 16

def MicValid (ptk eapol : List Byte) : Prop := eapolMic ptk (clearMic eapol) = (eapol.drop 81).take 16

instance (ptk eapol : List Byte) : Decidable (MicValid ptk eapol) := inferInstanceAs (Decidable (_ = _))

def iwlVerifyEapolMic (st : IwlwifiState) (eapol : List Byte) : Bool :=
  st.wpaPtkReady && eapol.length ≤ 512 && 4 + wpaEapolKeyBaseLen ≤ eapol.length &&
    MicValid st.wpaPtk eapol

/-! ### Answers -/

/-- The element that `iwl_append_wpa2_psk_ccmp_rsn` appends. -/
def wpa2PskCcmpRsn : List Byte :=
  [48, 20, 1, 0, 0x00, 0x0f, 0xac, 0x04, 1, 0, 0x00, 0x0f, 0xac, 0x04, 1, 0, 0x00, 0x0f, 0xac, 0x02, 0, 0]

def eapolAnswer (st : IwlwifiState) (info : ℕ) (nonce data : List Byte) : List Byte :=
  [2, 3] ++ putBe16 (wpaEapolKeyBaseLen + data.length) ++ [2] ++ putBe16 info ++ putBe16 16 ++
    storeBe64 st.wpaReplayCounter ++ nonce ++ List.replicate 48 0 ++ putBe16 data.length ++ data

def putMic (ptk eapol : List Byte) : List Byte :=
  eapol.take 81 ++ eapolMic ptk eapol ++ eapol.drop 97

/-- `iwl_build_eapol_key_msg2`; the frame is empty where the function returns zero. -/
def iwlBuildEapolKeyMsg2 (st : IwlwifiState) : List Byte :=
  if st.wpaPtkReady then
    putMic st.wpaPtk (eapolAnswer st (0x0002 + 0x0008 + 0x0100) (st.wpaSnonce.take 32) wpa2PskCcmpRsn)
  else []

def iwlBuildEapolKeyMsg4 (st : IwlwifiState) : List Byte :=
  if st.wpaPtkReady then
    putMic st.wpaPtk
      (eapolAnswer st (0x0002 + 0x0008 + 0x0100 + 0x0200) (List.replicate 32 0) [])
  else []

/-- `iwl_send_eapol_frame`; `ok` says whether the device takes the frame. -/
def iwlSendEapolFrame (ok : Bool) (st : IwlwifiState) (eapol : List Byte) : IwlwifiState × Bool :=
  if 768 < hdrLen3 + 8 + eapol.length then (st, false)
  else ({ st with txSequence := st.txSequence + 1 }, ok)

/-! ### The handler -/

/-- The first message: the nonce and the counter are taken over, and the key is derived. -/
def takeMsg1 (mac : List Byte) (ticks : UInt64) (st : IwlwifiState) (eapol : List Byte) : IwlwifiState :=
  let st := { st with wpaAnonce := nonceOf eapol, wpaReplayCounter := replayOf eapol }
  let st := if st.wpaSnonce.getD 0 0 = 0 then iwlMakeSnonce mac ticks st else st
  iwlDerivePtk mac st

def iwlHandleEapolKey (mac : List Byte) (ok : Bool) (ticks : UInt64) (st : IwlwifiState)
    (eapol : List Byte) : IwlwifiState × ℤ :=
  if ¬ KeyFrame eapol then (st, -1)
  else if ackBit eapol && !micBit eapol then
    let st := takeMsg1 mac ticks st eapol
    let response := iwlBuildEapolKeyMsg2 st
    if response = [] then (st, -2)
    else
      match iwlSendEapolFrame ok st response with
      | (st, false) => (st, -2)
      | (st, true) => ({ st with wpaKeyMsg1 := true }, 0)
  else if ackBit eapol && micBit eapol && installBit eapol then
    if iwlVerifyEapolMic st eapol = false then (st, -3)
    else
      let st := { st with wpaKeyMsg3 := true, wpaReplayCounter := replayOf eapol }
      let response := iwlBuildEapolKeyMsg4 st
      if response = [] then (st, -4)
      else
        match iwlSendEapolFrame ok st response with
        | (st, false) => (st, -4)
        | (st, true) => (st, 0)
  else (st, -1)

/-- What can happen: a connection is begun, as `iwlwifi_connect` does before it waits for the first
message; or a frame comes in, at some time, and the device takes the answer or does not. -/
inductive WpaStep
  | connect (pmk bssid : List Byte) (ticks : UInt64)
  | deliver (eapol : List Byte) (ok : Bool) (ticks : UInt64)
  deriving DecidableEq, Repr

def wpaStep (mac : List Byte) (st : IwlwifiState) : WpaStep → IwlwifiState
  | .connect pmk bssid ticks =>
    { iwlMakeSnonce mac ticks { st with wpaPmk := pmk, bssid := bssid } with
      wpaKeyMsg1 := false, wpaKeyMsg3 := false }
  | .deliver eapol ok ticks => (iwlHandleEapolKey mac ok ticks st eapol).1

def runWpa (mac : List Byte) (st : IwlwifiState) (steps : List WpaStep) : IwlwifiState :=
  steps.foldl (wpaStep mac) st

def bootIwlwifi : IwlwifiState where
  bssid := List.replicate 6 0
  wpaPmk := List.replicate 32 0
  wpaPtk := List.replicate 64 0
  wpaPtkReady := false
  wpaAnonce := List.replicate 32 0
  wpaSnonce := List.replicate 32 0
  wpaReplayCounter := 0
  wpaKeyMsg1 := false
  wpaKeyMsg3 := false
  ccmpTxPn := 0
  txSequence := 0
  linkReady := false

/-! ### Laws -/

section Laws

variable (mac : List Byte) (st : IwlwifiState) (steps : List WpaStep)

def Authentic (ptk eapol : List Byte) : Prop := micBit eapol ∧ MicValid ptk eapol

/-- The fields of the key exchange that a frame is not to change. -/
def SameKeys (st st' : IwlwifiState) : Prop :=
  st'.wpaPtk = st.wpaPtk ∧ st'.wpaAnonce = st.wpaAnonce ∧ st'.wpaReplayCounter = st.wpaReplayCounter

def AcceptedIn (eapol : List Byte) : Prop :=
  ∃ before ok ticks after, steps = before ++ .deliver eapol ok ticks :: after ∧
    (iwlHandleEapolKey mac ok ticks (runWpa mac st before) eapol).2 = 0

/-- **What one would like to hold of a run**: a frame completes the handshake only under the key from its
own nonce, and with a counter above those of all the frames that were accepted before; after that the
keys are changed only by a frame with the right authenticator. -/
structure HandshakeSafe : Prop where
  complete : ∀ before eapol ok ticks after, steps = before ++ .deliver eapol ok ticks :: after →
    (runWpa mac st before).wpaKeyMsg3 = false →
    (wpaStep mac (runWpa mac st before) (.deliver eapol ok ticks)).wpaKeyMsg3 = true →
    Authentic (pairwiseKey (runWpa mac st before).wpaPmk mac (runWpa mac st before).bssid
        (runWpa mac st before).wpaSnonce (nonceOf eapol)) eapol ∧
      ∀ e, AcceptedIn mac st before e → replayOf e < replayOf eapol
  stable : ∀ before eapol ok ticks after, steps = before ++ .deliver eapol ok ticks :: after →
    (runWpa mac st before).wpaKeyMsg3 = true → ¬ Authentic (runWpa mac st before).wpaPtk eapol →
    SameKeys (runWpa mac st before) (wpaStep mac (runWpa mac st before) (.deliver eapol ok ticks))

/-- Nobody but the access point can make an authenticator, and it sends the nonce it has chosen: a frame
that is right under the key of a nonce carries that nonce. -/
def Unforgeable : Prop :=
  ∀ eapol ok ticks, .deliver eapol ok ticks ∈ steps → ∀ pmk bssid snonce anonce,
    Authentic (pairwiseKey pmk mac bssid snonce anonce) eapol → nonceOf eapol = anonce

/-- **What holds of a run**: a frame completes the handshake only under the pairwise key, which comes from
the nonce of the last first message, and from its own one when nobody else can make authenticators; and
the keys are changed only by a frame with the right authenticator, which changes only the counter, or by
a first message. -/
structure HandshakeGuarded : Prop where
  complete : ∀ before eapol ok ticks after, steps = before ++ .deliver eapol ok ticks :: after →
    (runWpa mac st before).wpaKeyMsg3 = false →
    (wpaStep mac (runWpa mac st before) (.deliver eapol ok ticks)).wpaKeyMsg3 = true →
    IsMsg3 eapol ∧ Authentic (runWpa mac st before).wpaPtk eapol ∧
      ∃ pmk bssid snonce,
        (runWpa mac st before).wpaPtk =
            pairwiseKey pmk mac bssid snonce (runWpa mac st before).wpaAnonce ∧
          (Unforgeable mac steps →
            Authentic (pairwiseKey pmk mac bssid snonce (nonceOf eapol)) eapol)
  stable : ∀ before eapol ok ticks after, steps = before ++ .deliver eapol ok ticks :: after →
    ¬ IsMsg1 eapol → ¬ Authentic (runWpa mac st before).wpaPtk eapol →
    SameKeys (runWpa mac st before) (wpaStep mac (runWpa mac st before) (.deliver eapol ok ticks))
  counterOnly : ∀ before eapol ok ticks after, steps = before ++ .deliver eapol ok ticks :: after →
    ¬ IsMsg1 eapol →
    (wpaStep mac (runWpa mac st before) (.deliver eapol ok ticks)).wpaPtk =
        (runWpa mac st before).wpaPtk ∧
      (wpaStep mac (runWpa mac st before) (.deliver eapol ok ticks)).wpaAnonce =
        (runWpa mac st before).wpaAnonce

end Laws

/-! ### What a frame does -/

variable {mac eapol : List Byte} {ok : Bool} {ticks : UInt64} {st st' : IwlwifiState}
  {steps : List WpaStep}

/-- The fields that matter for the keys, and the mark, are the same. -/
structure KeysKept (st st' : IwlwifiState) : Prop where
  ptk : st'.wpaPtk = st.wpaPtk
  ready : st'.wpaPtkReady = st.wpaPtkReady
  anonce : st'.wpaAnonce = st.wpaAnonce
  msg3 : st'.wpaKeyMsg3 = st.wpaKeyMsg3
  replay : st'.wpaReplayCounter = st.wpaReplayCounter

theorem KeysKept.refl (st : IwlwifiState) : KeysKept st st := ⟨rfl, rfl, rfl, rfl, rfl⟩

theorem keysKept_send (ok : Bool) (st : IwlwifiState) (eapol : List Byte) :
    KeysKept st (iwlSendEapolFrame ok st eapol).1 := by
  rw [iwlSendEapolFrame]
  split_ifs
  · exact KeysKept.refl st
  · exact ⟨rfl, rfl, rfl, rfl, rfl⟩

theorem takeMsg1_eq (mac : List Byte) (ticks : UInt64) (st : IwlwifiState) (eapol : List Byte) :
    (takeMsg1 mac ticks st eapol).wpaAnonce = nonceOf eapol ∧
      (takeMsg1 mac ticks st eapol).wpaKeyMsg3 = st.wpaKeyMsg3 ∧
      (takeMsg1 mac ticks st eapol).wpaPtkReady = true ∧
      ∃ snonce, (takeMsg1 mac ticks st eapol).wpaPtk =
        pairwiseKey st.wpaPmk mac st.bssid snonce (nonceOf eapol) := by
  rw [takeMsg1, iwlDerivePtk]
  dsimp only
  split_ifs
  · exact ⟨rfl, rfl, rfl, _, rfl⟩
  · exact ⟨rfl, rfl, rfl, _, rfl⟩

theorem keysKept_msg1 (mac : List Byte) (ok : Bool) (ticks : UInt64) (st : IwlwifiState)
    (h : IsMsg1 eapol) :
    KeysKept (takeMsg1 mac ticks st eapol) (iwlHandleEapolKey mac ok ticks st eapol).1 := by
  obtain ⟨hkey, hack, hmic⟩ := h
  have hsend := keysKept_send ok (takeMsg1 mac ticks st eapol)
    (iwlBuildEapolKeyMsg2 (takeMsg1 mac ticks st eapol))
  rw [iwlHandleEapolKey, if_neg (not_not.2 hkey), if_pos (by rw [hack, hmic]; rfl)]
  dsimp only
  split_ifs
  · exact KeysKept.refl _
  · revert hsend
    rcases iwlSendEapolFrame ok (takeMsg1 mac ticks st eapol)
      (iwlBuildEapolKeyMsg2 (takeMsg1 mac ticks st eapol)) with ⟨st', _ | _⟩
    · exact id
    · exact fun h => ⟨h.ptk, h.ready, h.anonce, h.msg3, h.replay⟩

theorem keysKept_msg3 (mac : List Byte) (ok : Bool) (ticks : UInt64) (h : IsMsg3 eapol)
    (hverify : iwlVerifyEapolMic st eapol = true) :
    KeysKept { st with wpaKeyMsg3 := true, wpaReplayCounter := replayOf eapol }
      (iwlHandleEapolKey mac ok ticks st eapol).1 := by
  obtain ⟨hkey, hack, hmic, hinstall⟩ := h
  have hsend := keysKept_send ok { st with wpaKeyMsg3 := true, wpaReplayCounter := replayOf eapol }
    (iwlBuildEapolKeyMsg4 { st with wpaKeyMsg3 := true, wpaReplayCounter := replayOf eapol })
  rw [iwlHandleEapolKey, if_neg (not_not.2 hkey), if_neg (by simp [hack, hmic]),
    if_pos (by rw [hack, hmic, hinstall]; rfl), if_neg (by simp [hverify])]
  dsimp only
  split_ifs
  · exact KeysKept.refl _
  · revert hsend
    rcases iwlSendEapolFrame ok { st with wpaKeyMsg3 := true, wpaReplayCounter := replayOf eapol }
      (iwlBuildEapolKeyMsg4
        { st with wpaKeyMsg3 := true, wpaReplayCounter := replayOf eapol }) with ⟨st', _ | _⟩
    · exact id
    · exact id

/-- **What a frame can do**: nothing to the keys; or it is a first message; or it is a third one with the
right authenticator, which changes only the counter and the mark. -/
theorem iwlHandleEapolKey_cases (mac : List Byte) (ok : Bool) (ticks : UInt64) (st : IwlwifiState)
    (eapol : List Byte) :
    KeysKept st (iwlHandleEapolKey mac ok ticks st eapol).1 ∨
      (IsMsg1 eapol ∧ KeysKept (takeMsg1 mac ticks st eapol) (iwlHandleEapolKey mac ok ticks st eapol).1) ∨
      (IsMsg3 eapol ∧ st.wpaPtkReady = true ∧ MicValid st.wpaPtk eapol ∧
        KeysKept { st with wpaKeyMsg3 := true, wpaReplayCounter := replayOf eapol }
          (iwlHandleEapolKey mac ok ticks st eapol).1) := by
  by_cases h₁ : IsMsg1 eapol
  · exact .inr (.inl ⟨h₁, keysKept_msg1 mac ok ticks st h₁⟩)
  · by_cases h₃ : IsMsg3 eapol ∧ iwlVerifyEapolMic st eapol = true
    · have hverify := h₃.2
      simp only [iwlVerifyEapolMic, Bool.and_eq_true, decide_eq_true_eq] at hverify
      exact .inr (.inr ⟨h₃.1, hverify.1.1.1, hverify.2, keysKept_msg3 mac ok ticks h₃.1 h₃.2⟩)
    · refine .inl ?_
      rw [iwlHandleEapolKey]
      by_cases hkey : KeyFrame eapol
      · have hmsg1 : ¬ (ackBit eapol && !micBit eapol) = true := fun h => by
          rw [Bool.and_eq_true, Bool.not_eq_true'] at h
          exact h₁ ⟨hkey, h⟩
        rw [if_neg (not_not.2 hkey), if_neg hmsg1]
        by_cases hmsg3 : (ackBit eapol && micBit eapol && installBit eapol) = true
        · have hverify : iwlVerifyEapolMic st eapol = false := by
            rw [Bool.and_eq_true, Bool.and_eq_true] at hmsg3
            refine Bool.eq_false_iff.2 fun h => h₃ ⟨⟨hkey, hmsg3.1.1, hmsg3.1.2, hmsg3.2⟩, h⟩
          rw [if_pos hmsg3, if_pos hverify]
          exact KeysKept.refl st
        · rw [if_neg hmsg3]
          exact KeysKept.refl st
      · rw [if_pos hkey]
        exact KeysKept.refl st

/-! ### Runs -/

/-- The pairwise key comes from a nonce of the access point, the one the driver keeps. -/
def KeyDerived (mac : List Byte) (st : IwlwifiState) : Prop :=
  st.wpaPtkReady = true →
    ∃ pmk bssid snonce, st.wpaPtk = pairwiseKey pmk mac bssid snonce st.wpaAnonce

theorem KeyDerived.congr (h : KeyDerived mac st) (hkept : KeysKept st st') : KeyDerived mac st' := by
  intro hready
  rw [hkept.ready] at hready
  rw [hkept.ptk, hkept.anonce]
  exact h hready

theorem KeyDerived.step (h : KeyDerived mac st) (step : WpaStep) : KeyDerived mac (wpaStep mac st step) := by
  cases step with
  | connect pmk bssid ticks => exact h
  | deliver eapol ok ticks =>
    rcases iwlHandleEapolKey_cases mac ok ticks st eapol with hkept | ⟨_, hkept⟩ | ⟨_, _, _, hkept⟩
    · exact h.congr hkept
    · refine KeyDerived.congr ?_ hkept
      intro _
      obtain ⟨hanonce, _, _, snonce, hptk⟩ := takeMsg1_eq mac ticks st eapol
      exact ⟨_, _, snonce, by rw [hanonce, hptk]⟩
    · exact KeyDerived.congr (show KeyDerived mac
        { st with wpaKeyMsg3 := true, wpaReplayCounter := replayOf eapol } from h) hkept

/-- **The pairwise key comes from the nonce of the last first message**, in every run. -/
theorem keyDerived_runWpa (h : KeyDerived mac st) (steps : List WpaStep) :
    KeyDerived mac (runWpa mac st steps) := by
  induction steps generalizing st with
  | nil => exact h
  | cons step steps ih => exact ih (h.step step)

theorem keyDerived_boot (mac : List Byte) : KeyDerived mac bootIwlwifi := by
  intro h
  cases h

theorem completes (hbefore : st.wpaKeyMsg3 = false)
    (hafter : (wpaStep mac st (.deliver eapol ok ticks)).wpaKeyMsg3 = true) :
    IsMsg3 eapol ∧ st.wpaPtkReady = true ∧ Authentic st.wpaPtk eapol := by
  rcases iwlHandleEapolKey_cases mac ok ticks st eapol with hkept | ⟨_, hkept⟩ | ⟨h₃, hready, hmic, _⟩
  · have hsame := hkept.msg3
    rw [wpaStep, hsame, hbefore] at hafter
    cases hafter
  · have hsame := hkept.msg3
    rw [(takeMsg1_eq mac ticks st eapol).2.1] at hsame
    rw [wpaStep, hsame, hbefore] at hafter
    cases hafter
  · exact ⟨h₃, hready, h₃.2.2.1, hmic⟩

theorem counterOnly (h₁ : ¬ IsMsg1 eapol) :
    (wpaStep mac st (.deliver eapol ok ticks)).wpaPtk = st.wpaPtk ∧
      (wpaStep mac st (.deliver eapol ok ticks)).wpaAnonce = st.wpaAnonce := by
  rcases iwlHandleEapolKey_cases mac ok ticks st eapol with hkept | ⟨hmsg1, _⟩ | ⟨_, _, _, hkept⟩
  · exact ⟨hkept.ptk, hkept.anonce⟩
  · exact absurd hmsg1 h₁
  · exact ⟨hkept.ptk, hkept.anonce⟩

theorem sameKeys_of_not_authentic (h₁ : ¬ IsMsg1 eapol) (hmic : ¬ Authentic st.wpaPtk eapol) :
    SameKeys st (wpaStep mac st (.deliver eapol ok ticks)) := by
  rcases iwlHandleEapolKey_cases mac ok ticks st eapol with hkept | ⟨hmsg1, _⟩ | ⟨h₃, _, hvalid, _⟩
  · exact ⟨hkept.ptk, hkept.anonce, hkept.replay⟩
  · exact absurd hmsg1 h₁
  · exact absurd ⟨h₃.2.2.1, hvalid⟩ hmic

@[simp] theorem length_eapolMic (ptk eapol : List Byte) : (eapolMic ptk eapol).length = 16 := by
  rw [eapolMic, List.length_take, length_tnuHmacSha1]
  rfl

theorem length_iwlBuildEapolKeyMsg2 (h : st.wpaPtkReady = true) :
    0 < (iwlBuildEapolKeyMsg2 st).length ∧ (iwlBuildEapolKeyMsg2 st).length ≤ 240 := by
  rw [iwlBuildEapolKeyMsg2, if_pos h, putMic]
  simp only [List.length_append, length_eapolMic, List.length_take, List.length_drop, eapolAnswer,
    putBe16, storeBe64, wpa2PskCcmpRsn, List.length_cons, List.length_nil, List.length_map,
    List.length_range, List.length_replicate]
  omega

theorem answered_msg1 (mac : List Byte) (ticks : UInt64) (st : IwlwifiState) (h : IsMsg1 eapol) :
    (iwlHandleEapolKey mac true ticks st eapol).2 = 0 ∧
      (iwlHandleEapolKey mac true ticks st eapol).1.wpaKeyMsg1 = true := by
  obtain ⟨hkey, hack, hmic⟩ := h
  obtain ⟨hpos, hle⟩ := length_iwlBuildEapolKeyMsg2 (takeMsg1_eq mac ticks st eapol).2.2.1
  have hlen : ¬ 768 < hdrLen3 + 8 +
      (iwlBuildEapolKeyMsg2 (takeMsg1 mac ticks st eapol)).length := by
    have h24 : hdrLen3 = 24 := rfl
    omega
  rw [iwlHandleEapolKey, if_neg (not_not.2 hkey), if_pos (by rw [hack, hmic]; rfl)]
  dsimp only
  rw [if_neg (List.ne_nil_of_length_pos hpos), iwlSendEapolFrame, if_neg hlen]
  exact ⟨rfl, rfl⟩

theorem accepted_msg1 (mac : List Byte) (ticks : UInt64) (st : IwlwifiState) (h : IsMsg1 eapol) :
    (iwlHandleEapolKey mac true ticks st eapol).2 = 0 := (answered_msg1 mac ticks st h).1

/-- A key frame with a one-byte counter, and nothing in its other fields. -/
def keyFrame (info : ℕ) (replay : Byte) (nonce mic : List Byte) : List Byte :=
  [2, 3, 0, 95, 2] ++ putBe16 info ++ [0, 16, 0, 0, 0, 0, 0, 0, 0, replay] ++ nonce ++
    List.replicate 32 0 ++ (mic ++ [0, 0])

def protectFrame (ptk : List Byte) (info : ℕ) (replay : Byte) (nonce : List Byte) : List Byte :=
  keyFrame info replay nonce (eapolMic ptk (keyFrame info replay nonce (List.replicate 16 0)))

variable {mic nonce : List Byte}

theorem take_keyFrame (info : ℕ) (replay : Byte) (hnonce : nonce.length = 32) :
    (keyFrame info replay nonce mic).take 81 =
        [2, 3, 0, 95, 2] ++ putBe16 info ++ [0, 16, 0, 0, 0, 0, 0, 0, 0, replay] ++ nonce ++
          List.replicate 32 0 ∧
      (keyFrame info replay nonce mic).drop 81 = mic ++ [0, 0] := by
  have hpre : ([2, 3, 0, 95, 2] ++ putBe16 info ++ [0, 16, 0, 0, 0, 0, 0, 0, 0, replay] ++ nonce ++
      List.replicate 32 0 : List Byte).length = 81 := by
    simp [putBe16, hnonce]
  exact ⟨List.take_left' hpre, List.drop_left' hpre⟩

theorem micValid_protectFrame (ptk : List Byte) (info : ℕ) (replay : Byte)
    (hnonce : nonce.length = 32) : MicValid ptk (protectFrame ptk info replay nonce) := by
  have hclear : clearMic (protectFrame ptk info replay nonce) =
      keyFrame info replay nonce (List.replicate 16 0) := by
    rw [clearMic, protectFrame, (take_keyFrame info replay hnonce).1,
      show 97 = 81 + 16 from rfl, ← List.drop_drop, (take_keyFrame info replay hnonce).2,
      List.drop_left' (length_eapolMic _ _), keyFrame, List.append_assoc]
  rw [MicValid, hclear, protectFrame, (take_keyFrame info replay hnonce).2,
    List.take_left' (length_eapolMic _ _)]

def sampleNonce (b : Byte) : List Byte := List.replicate 32 b

theorem length_keyFrame (info : ℕ) (replay b : Byte) (hmic : mic.length = 16) :
    (keyFrame info replay (sampleNonce b) mic).length = 99 := by
  simp [keyFrame, putBe16, sampleNonce, hmic]

def sampleMsg1 (replay b : Byte) : List Byte :=
  keyFrame 0x008a replay (sampleNonce b) (List.replicate 16 0)

theorem keyInfo_keyFrame (info : ℕ) (replay : Byte) (nonce mic : List Byte) :
    keyInfo (keyFrame info replay nonce mic) = be16At (putBe16 info) 0 := rfl

theorem isMsg1_sampleMsg1 (replay b : Byte) : IsMsg1 (sampleMsg1 replay b) := by
  have hinfo : keyInfo (sampleMsg1 replay b) = 0x008a := by
    rw [sampleMsg1, keyInfo_keyFrame]
    decide
  refine ⟨⟨?_, rfl, rfl⟩, ?_, ?_⟩
  · rw [sampleMsg1, length_keyFrame _ _ _ List.length_replicate]
    norm_num
  · rw [ackBit, hinfo]
    rfl
  · rw [micBit, hinfo]
    rfl

theorem isMsg3_protectFrame (ptk : List Byte) (replay b : Byte) :
    IsMsg3 (protectFrame ptk 0x13ca replay (sampleNonce b)) := by
  have hinfo : keyInfo (protectFrame ptk 0x13ca replay (sampleNonce b)) = 0x13ca := by
    rw [protectFrame, keyInfo_keyFrame]
    decide
  refine ⟨⟨?_, rfl, rfl⟩, ?_, ?_, ?_⟩
  · rw [protectFrame, length_keyFrame _ _ _ (length_eapolMic _ _)]
    norm_num
  · rw [ackBit, hinfo]
    rfl
  · rw [micBit, hinfo]
    rfl
  · rw [installBit, hinfo]
    rfl

def sampleAddr : List Byte := [0x02, 0, 0, 0, 0, 1]

def sampleConnect : WpaStep := .connect (List.replicate 32 7) (List.replicate 6 9) 0

def deliver (eapol : List Byte) : WpaStep := .deliver eapol true 0

theorem runWpa_concat (mac : List Byte) (st : IwlwifiState) (steps : List WpaStep) (step : WpaStep) :
    runWpa mac st (steps ++ [step]) = wpaStep mac (runWpa mac st steps) step := by
  rw [runWpa, List.foldl_append]
  rfl

theorem connect_spec (st : IwlwifiState) :
    (wpaStep sampleAddr st sampleConnect).wpaKeyMsg3 = false := rfl

theorem deliver_msg1 (mac : List Byte) (st : IwlwifiState) (replay b : Byte) :
    (wpaStep mac st (deliver (sampleMsg1 replay b))).wpaKeyMsg3 = st.wpaKeyMsg3 ∧
      (wpaStep mac st (deliver (sampleMsg1 replay b))).wpaPtkReady = true ∧
      (wpaStep mac st (deliver (sampleMsg1 replay b))).wpaAnonce = sampleNonce b := by
  have hkept := keysKept_msg1 mac true 0 st (isMsg1_sampleMsg1 replay b)
  obtain ⟨hanonce, hmsg3, hready, _⟩ := takeMsg1_eq mac 0 st (sampleMsg1 replay b)
  have hnonce : nonceOf (sampleMsg1 replay b) = sampleNonce b := rfl
  exact ⟨hkept.msg3.trans hmsg3, hkept.ready.trans hready, hkept.anonce.trans (hanonce.trans hnonce)⟩

theorem deliver_msg3 (mac : List Byte) {st : IwlwifiState} (hready : st.wpaPtkReady = true)
    (replay b : Byte) :
    (wpaStep mac st (deliver (protectFrame st.wpaPtk 0x13ca replay (sampleNonce b)))).wpaKeyMsg3 = true ∧
      (wpaStep mac st (deliver (protectFrame st.wpaPtk 0x13ca replay (sampleNonce b)))).wpaAnonce =
        st.wpaAnonce := by
  have hlen : (protectFrame st.wpaPtk 0x13ca replay (sampleNonce b)).length = 99 :=
    length_keyFrame _ _ _ (length_eapolMic _ _)
  have hverify : iwlVerifyEapolMic st (protectFrame st.wpaPtk 0x13ca replay (sampleNonce b)) = true := by
    have hmic : MicValid st.wpaPtk (protectFrame st.wpaPtk 0x13ca replay (sampleNonce b)) :=
      micValid_protectFrame st.wpaPtk 0x13ca replay List.length_replicate
    rw [iwlVerifyEapolMic, hready, hlen, decide_eq_true hmic]
    rfl
  have hkept := keysKept_msg3 mac true 0 (isMsg3_protectFrame st.wpaPtk replay b) hverify
  exact ⟨hkept.msg3, hkept.anonce⟩

/-- A connection with two first messages: one that somebody else sends, and that of the access point. -/
def samplePrefix : List WpaStep :=
  [sampleConnect] ++ [deliver (sampleMsg1 10 0x5a)] ++ [deliver (sampleMsg1 1 0xaa)]

def sampleBefore : IwlwifiState := runWpa sampleAddr bootIwlwifi samplePrefix

theorem sampleBefore_spec : sampleBefore.wpaKeyMsg3 = false ∧ sampleBefore.wpaPtkReady = true ∧
    sampleBefore.wpaAnonce = sampleNonce 0xaa := by
  rw [sampleBefore, samplePrefix, runWpa_concat]
  obtain ⟨hmsg3, hready, hanonce⟩ := deliver_msg1 sampleAddr
    (runWpa sampleAddr bootIwlwifi ([sampleConnect] ++ [deliver (sampleMsg1 10 0x5a)])) 1 0xaa
  refine ⟨hmsg3.trans ?_, hready, hanonce⟩
  rw [runWpa_concat]
  exact (deliver_msg1 sampleAddr _ 10 0x5a).1.trans (connect_spec bootIwlwifi)

def sampleMsg3 : List Byte := protectFrame sampleBefore.wpaPtk 0x13ca 2 (sampleNonce 0xaa)

end Tnu.Wifi
