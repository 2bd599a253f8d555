/-
**Management frames and the list of access points.**

`iwl_parse_mgmt_frame` of `kernel/drivers/net/iwlwifi.c` takes the answers to the two frames of an association, and
beacons and probe responses, whose elements it puts into the list of access points.  Every read of the parser goes
through `bytesIn` here, which fails outside its bytes.

One test of the length stands in front of all of them, and wants a body of twelve bytes where an answer has six.
And the flags of an RSN element begin with the one for WPA2, so that no element can take it away.

Main definitions:

* `iwlParseMgmtFrame`, `iwlCacheAp` — the parser, and the list it fills.

Main results:

* `iwlParseMgmtFrame_isSome` — **no read leaves the frame**;
* `mgmtLaw_iff` — the law holds exactly for the frames that `MgmtWhen` describes.
-/

import Tnu.Lib.Elements
import Tnu.Wifi.Associate

set_option autoImplicit false

namespace Tnu.Wifi.Mgmt

open Elements

/-! ### The state -/

/-- `struct iwlwifi_ap`; the text is the whole array. -/
structure ApEntry where
  valid : Bool
  ssid : List Byte
  ssidLen : ℕ
  bssid : List Byte
  channel : Byte
  rssi : ℤ
  privacy : Bool
  securityFlags : UInt16
  deriving DecidableEq, Repr

/-- The fields of `struct iwlwifi_state` that a management frame can change. -/
structure State where
  authDone : Bool
  authStatus : UInt16
  assocDone : Bool
  assocStatus : UInt16
  assocId : UInt16
  aps : List ApEntry
  apCount : ℕ
  deriving DecidableEq, Repr

/-- `IWLWIFI_AP_CACHE_MAX`. -/
abbrev apCacheMax : ℕ := 16

/-- `WIFI_AP_PRIVACY`. -/
abbrev apPrivacy : UInt16 := 1

/-- `WIFI_AP_HIDDEN`. -/
abbrev apHidden : UInt16 := 2

/-- `WIFI_AP_WEP`. -/
abbrev apWep : UInt16 := 4

/-- `WIFI_AP_WPA`. -/
abbrev apWpa : UInt16 := 8

/-- `WIFI_AP_WPA2`. -/
abbrev apWpa2 : UInt16 := 16

/-- `WIFI_AP_WPA3`. -/
abbrev apWpa3 : UInt16 := 32

/-! ### The list of access points -/

/-- The loop that looks for a slot: the entry of the station, or else the first free one. -/
def slotLoop (bssid : List Byte) : List ApEntry → ℕ → Option ℕ → Option ℕ
  | [], _, slot => slot
  | ap :: aps, i, slot =>
    if ap.valid ∧ ap.bssid = bssid then some i
    else slotLoop bssid aps (i + 1) (if ap.valid = false ∧ slot = none then some i else slot)

def ssidArray (text : List Byte) : List Byte := text ++ List.replicate (33 - text.length) 0

def apEntry (ssid bssid : List Byte) (channel : Byte) (privacy : Bool) (securityFlags : UInt16) (rssi : ℤ) : ApEntry where
  valid := true
  ssid := ssidArray (if ssid.length = 0 then lit "<hidden>" else ssid)
  ssidLen := ssid.length
  bssid := bssid
  channel := channel
  rssi := rssi
  privacy := privacy
  securityFlags := securityFlags

/-- `iwl_cache_ap`, of a name with its length. -/
def iwlCacheAp (st : State) (ssid bssid : List Byte) (channel : Byte) (privacy : Bool) (securityFlags : UInt16)
    (rssi : ℤ) : State :=
  if 32 < ssid.length then st
  else
    match slotLoop bssid st.aps 0 none with
    | none => st
    | some slot =>
      { st with
        aps := st.aps.set slot (apEntry ssid bssid channel privacy securityFlags rssi)
        apCount :=
          if (st.aps.map ApEntry.valid).getD slot true = false ∧ st.apCount < apCacheMax then st.apCount + 1
          else st.apCount }

/-! ### The elements -/

/-- The bytes from `i` on.  There are none outside of `l`. -/
def bytesIn (l : List Byte) (i n : ℕ) : Option (List Byte) :=
  if i + n ≤ l.length then some ((l.drop i).take n) else none

def rsnOui : List Byte := [0x00, 0x0f, 0xac]

/-- The loop over the suites of key management, with so many to go. -/
def akmLoop (ie : List Byte) : ℕ → ℕ → Bool → Bool → Option (Bool × Bool)
  | 0, _, sawPsk, sawSae => some (sawPsk, sawSae)
  | n + 1, off, sawPsk, sawSae =>
    if ie.length < off + 4 then some (sawPsk, sawSae)
    else
      (bytesIn ie off 3).bind fun oui =>
        if oui ≠ rsnOui then akmLoop ie n (off + 4) sawPsk sawSae
        else
          (bytesIn ie (off + 3) 1).bind fun suite =>
            if suite = [2] then akmLoop ie n (off + 4) true sawSae
            else if suite = [8] then akmLoop ie n (off + 4) sawPsk true
            else akmLoop ie n (off + 4) sawPsk sawSae

def iwlSecurityFromRsn (ie : List Byte) : Option UInt16 :=
  let flags := apPrivacy ||| apWpa2
  if ie.length < 8 then some flags
  else
    (bytesIn ie 6 2).bind fun pairwise =>
      let off := 8 + (le16At pairwise 0).toNat * 4
      if ie.length < off + 2 then some flags
      else
        (bytesIn ie off 2).bind fun akm =>
          (akmLoop ie (le16At akm 0).toNat (off + 2) false false).map fun (sawPsk, sawSae) =>
            let flags := if sawSae then flags ||| apWpa3 else flags
            if sawPsk ∨ ¬ sawSae then flags ||| apWpa2 else flags

def wpaOuiType : List Byte := [0x00, 0x50, 0xf2, 0x01]

def iwlIeIsWpaVendor (ie : List Byte) : Option Bool :=
  if ie.length < 4 then some false else (bytesIn ie 0 4).map fun head => head = wpaOuiType

/-- `ssid` and `ssid_len`, `channel` and `security_flags`, while the elements are read. -/
structure IeScan where
  ssid : Option (List Byte)
  channel : Byte
  securityFlags : UInt16

def ieElement (id : Byte) (ie : List Byte) (s : IeScan) : Option IeScan :=
  if id = 0 ∧ ie.length ≤ 32 then some { s with ssid := some ie }
  else if id = 3 ∧ 1 ≤ ie.length then (bytesIn ie 0 1).map fun b => { s with channel := b.getD 0 0 }
  else if id = 48 then
    (iwlSecurityFromRsn ie).map fun flags => { s with securityFlags := s.securityFlags ||| flags }
  else if id = 221 then
    (iwlIeIsWpaVendor ie).map fun wpa =>
      if wpa then { s with securityFlags := s.securityFlags ||| (apPrivacy ||| apWpa) } else s
  else some s

/-- `while (ies + 2 <= end)`. -/
def ieLoop (frame : List Byte) (ies : ℕ) (s : IeScan) : Option IeScan :=
  if ies + 2 ≤ frame.length then
    (bytesIn frame ies 2).bind fun head =>
      let elen := (head.getD 1 0).toNat
      if frame.length < ies + 2 + elen then some s
      else
        (bytesIn frame (ies + 2) elen).bind fun ie =>
          (ieElement (head.getD 0 0) ie s).bind fun s => ieLoop frame (ies + 2 + elen) s
  else some s
termination_by frame.length - ies
decreasing_by omega

/-! ### The parser -/

def finishFlags (flags : UInt16) (ssid : Option (List Byte)) : UInt16 :=
  let flags := if flags = apPrivacy then flags ||| apWep else flags
  if ssid = some [] then flags ||| apHidden else flags

def parseBeacon (st : State) (frame : List Byte) : Option State :=
  (bytesIn frame hdrLen3 12).bind fun fixed =>
    let privacy : Bool := le16At fixed 10 &&& 0x10 ≠ 0
    (ieLoop frame (hdrLen3 + 12) ⟨none, 0, if privacy then apPrivacy else 0⟩).bind fun s =>
      (bytesIn frame 16 6).map fun addr3 =>
        match s.ssid with
        | none => st
        | some ssid =>
          iwlCacheAp st ssid addr3 s.channel privacy (finishFlags s.securityFlags s.ssid) 0

def iwlParseMgmtFrame (st : State) (frame : List Byte) : Option State :=
  if frame.length < hdrLen3 + 12 then some st
  else
    (bytesIn frame 0 1).bind fun fc =>
      let fc := fc.getD 0 0
      if fc &&& 0x0c ≠ 0x00 then some st
      else if fc &&& 0xf0 = 0xb0 ∧ hdrLen3 + 6 ≤ frame.length then
        (bytesIn frame hdrLen3 6).map fun body =>
          if le16At body 0 = 0 ∧ le16At body 2 = 2 then
            { st with authDone := true, authStatus := le16At body 4 }
          else st
      else if fc &&& 0xf0 = 0x10 ∧ hdrLen3 + 6 ≤ frame.length then
        (bytesIn frame hdrLen3 6).map fun body =>
          { st with assocDone := true, assocStatus := le16At body 2, assocId := le16At body 4 &&& 0x3fff }
      else if fc &&& 0xf0 ≠ 0x80 ∧ fc &&& 0xf0 ≠ 0x50 then some st
      else parseBeacon st frame

/-! ### What a frame should do -/

def IsSubtype (frame : List Byte) (subtype : Byte) : Prop :=
  frame.getD 0 0 &&& 0x0c = 0x00 ∧ frame.getD 0 0 &&& 0xf0 = subtype

def IsAuthResponse (frame : List Byte) : Prop :=
  IsSubtype frame 0xb0 ∧ hdrLen3 + 6 ≤ frame.length ∧ le16At frame (hdrLen3 + 2) = 2

def IsAssocResponse (frame : List Byte) : Prop := IsSubtype frame 0x10 ∧ hdrLen3 + 6 ≤ frame.length

def IsBeacon (frame : List Byte) : Prop :=
  (IsSubtype frame 0x80 ∨ IsSubtype frame 0x50) ∧ hdrLen3 + 12 ≤ frame.length

def frameElements (frame : List Byte) : List (Byte × List Byte) := elements (frame.drop (hdrLen3 + 12))

def lastSsid (es : List (Byte × List Byte)) : Option (List Byte) :=
  (es.reverse.find? fun e => e.1 = 0 ∧ e.2.length ≤ 32).map Prod.snd

def lastChannel (es : List (Byte × List Byte)) : Byte :=
  (es.reverse.find? fun e => e.1 = 3 ∧ 1 ≤ e.2.length).elim 0 fun e => e.2.getD 0 0

def akmSuites (ie : List Byte) : List (List Byte) :=
  let off := 8 + (le16At ie 6).toNat * 4
  quads (le16At ie off).toNat (ie.drop (off + 2))

def Lists (ie : List Byte) (suite : Byte) : Prop := rsnOui ++ [suite] ∈ akmSuites ie

def hasPrivacy (frame : List Byte) : Prop := le16At frame (hdrLen3 + 10) &&& 0x10 ≠ 0

def HasRsn (frame : List Byte) : Prop := ∃ e ∈ frameElements frame, e.1 = 48

def HasWpa (frame : List Byte) : Prop := ∃ e ∈ frameElements frame, e.1 = 221 ∧ wpaOuiType <+: e.2

/-- **The entry is the one that the elements of the frame define.** -/
structure Describes (frame name : List Byte) (ap : ApEntry) : Prop where
  ssid : ap.ssid = ssidArray (if name = [] then lit "<hidden>" else name)
  ssidLen : ap.ssidLen = name.length
  channel : ap.channel = lastChannel (frameElements frame)
  privacy : ap.privacy = true ↔ hasPrivacy frame
  privacyFlag : ap.securityFlags &&& apPrivacy ≠ 0 ↔ hasPrivacy frame ∨ HasRsn frame ∨ HasWpa frame
  hidden : ap.securityFlags &&& apHidden ≠ 0 ↔ name = []
  wep : ap.securityFlags &&& apWep ≠ 0 ↔ hasPrivacy frame ∧ ¬ HasRsn frame ∧ ¬ HasWpa frame
  wpa : ap.securityFlags &&& apWpa ≠ 0 ↔ HasWpa frame
  wpa2 : ap.securityFlags &&& apWpa2 ≠ 0 ↔ ∃ e ∈ frameElements frame, e.1 = 48 ∧ (Lists e.2 2 ∨ ¬ Lists e.2 8)
  wpa3 : ap.securityFlags &&& apWpa3 ≠ 0 ↔ ∃ e ∈ frameElements frame, e.1 = 48 ∧ Lists e.2 8

def entryOf (st : State) (bssid : List Byte) : Option ApEntry := st.aps.find? fun ap => ap.valid ∧ ap.bssid = bssid

def bssidOf (frame : List Byte) : List Byte := (frame.drop 16).take 6

def AuthTold (st : State) (frame : List Byte) : Prop :=
  st.authDone = true ∧ st.authStatus = le16At frame (hdrLen3 + 4)

def AssocTold (st : State) (frame : List Byte) : Prop :=
  st.assocDone = true ∧ st.assocStatus = le16At frame (hdrLen3 + 2) ∧
    st.assocId = le16At frame (hdrLen3 + 4) &&& 0x3fff

/-- **What a frame should do**: no read leaves it, an answer is taken, and a beacon with a name gives the station
its entry. -/
def MgmtLaw (st : State) (frame : List Byte) : Prop :=
  ∃ st', iwlParseMgmtFrame st frame = some st' ∧
    (IsAuthResponse frame → AuthTold st' frame) ∧ (IsAssocResponse frame → AssocTold st' frame) ∧
    (IsBeacon frame → ∀ name, lastSsid (frameElements frame) = some name →
      ∃ ap, entryOf st' (bssidOf frame) = some ap ∧ Describes frame name ap)

def Room (st : State) (bssid : List Byte) : Prop := ∃ ap ∈ st.aps, ap.valid = false ∨ ap.bssid = bssid

/-- There are RSN elements, and all of them list the suite of WPA3 but not that of WPA2. -/
def SaeOnly (frame : List Byte) : Prop :=
  HasRsn frame ∧ ∀ e ∈ frameElements frame, e.1 = 48 → Lists e.2 8 ∧ ¬ Lists e.2 2

/-- **When a frame does what it should.**  An answer has twelve bytes behind the header, and that of an
authentication is of the open kind, or it is what is known already; a beacon finds room, and does not insist on
WPA3. -/
structure MgmtWhen (st : State) (frame : List Byte) : Prop where
  auth : IsAuthResponse frame →
    hdrLen3 + 12 ≤ frame.length ∧ le16At frame hdrLen3 = 0 ∨ AuthTold st frame
  assoc : IsAssocResponse frame → hdrLen3 + 12 ≤ frame.length ∨ AssocTold st frame
  beacon : IsBeacon frame → lastSsid (frameElements frame) ≠ none → Room st (bssidOf frame) ∧ ¬ SaeOnly frame

/-! ### The elements that are read -/

variable {i j k n : ℕ}

theorem bytesIn_of_le {l : List Byte} (h : i + n ≤ l.length) : bytesIn l i n = some ((l.drop i).take n) :=
  if_pos h

theorem suite_iff {l : List Byte} (h : 4 ≤ l.length) (suite : Byte) :
    rsnOui ++ [suite] = l.take 4 ↔ l.take 3 = rsnOui ∧ (l.drop 3).take 1 = [suite] := by
  have hsplit : l.take 4 = l.take 3 ++ (l.drop 3).take 1 := by
    rw [← List.take_add]
  have hlen : (rsnOui : List Byte).length = (l.take 3).length := by
    rw [List.length_take, Nat.min_eq_left (by omega)]
    rfl
  rw [hsplit]
  constructor
  · intro heq
    obtain ⟨h1, h2⟩ := List.append_inj heq hlen
    exact ⟨h1.symm, h2.symm⟩
  · rintro ⟨h1, h2⟩
    rw [h1, h2]

/-- **The loop over the suites** looks for the two it knows. -/
theorem akmLoop_eq (ie : List Byte) (n off : ℕ) (sawPsk sawSae : Bool) :
    akmLoop ie n off sawPsk sawSae =
      some (sawPsk || decide (rsnOui ++ [2] ∈ quads n (ie.drop off)),
        sawSae || decide (rsnOui ++ [8] ∈ quads n (ie.drop off))) := by
  induction n generalizing off sawPsk sawSae with
  | zero => simp [akmLoop, quads_zero]
  | succ n ih =>
    rw [akmLoop]
    by_cases hshort : ie.length < off + 4
    · rw [if_pos hshort, quads_of_short _ (by rw [List.length_drop]; omega)]
      simp
    · have hlen : 4 ≤ (ie.drop off).length := by
        rw [List.length_drop]
        omega
      have hquads := quads_succ n hlen
      rw [List.drop_drop] at hquads
      have hpsk := suite_iff hlen 2
      have hsae := suite_iff hlen 8
      rw [List.drop_drop] at hpsk hsae
      rw [if_neg hshort, bytesIn_of_le (by omega), Option.bind_some, hquads]
      simp only [List.mem_cons, hpsk, hsae, Bool.decide_or]
      by_cases houi : (ie.drop off).take 3 ≠ rsnOui
      · rw [if_pos houi, ih]
        simp [houi]
      · rw [if_neg houi, bytesIn_of_le (by omega), Option.bind_some, ih, ih, ih]
        push Not at houi
        split_ifs with h2 h8
        · simp [houi, h2]
        · simp [houi, h8]
        · simp [houi, h2, h8]

theorem getD_take_drop (l : List Byte) (h : j < n) : ((l.drop i).take n).getD j 0 = l.getD (i + j) 0 := by
  rw [List.getD_eq_getElem?_getD, List.getD_eq_getElem?_getD, List.getElem?_take, if_pos h, List.getElem?_drop]

theorem le16At_take (l : List Byte) (h : j + 2 ≤ n) : le16At ((l.drop i).take n) j = le16At l (i + j) := by
  rw [le16At, le16At, getD_take_drop l (by omega), getD_take_drop l (by omega), Nat.add_assoc]

instance (ie : List Byte) (suite : Byte) : Decidable (Lists ie suite) :=
  inferInstanceAs (Decidable (_ ∈ akmSuites ie))

/-- **What an RSN element says**: WPA2 in any case, and WPA3 if it lists the suite. -/
theorem iwlSecurityFromRsn_eq (ie : List Byte) :
    iwlSecurityFromRsn ie = some ((apPrivacy ||| apWpa2) ||| if Lists ie 8 then apWpa3 else 0) := by
  have hnone : ie.length < 8 + (le16At ie 6).toNat * 4 + 2 → ¬ Lists ie 8 := fun h hlist => by
    rw [Lists, akmSuites, quads_of_short _ (by rw [List.length_drop]; omega)] at hlist
    cases hlist
  rw [iwlSecurityFromRsn]
  by_cases h8 : ie.length < 8
  · rw [if_pos h8, if_neg (hnone (by omega))]
    rfl
  · rw [if_neg h8, bytesIn_of_le (by omega), Option.bind_some, le16At_take ie le_rfl, Nat.add_zero]
    dsimp only
    by_cases hoff : ie.length < 8 + (le16At ie 6).toNat * 4 + 2
    · rw [if_pos hoff, if_neg (hnone hoff)]
      rfl
    · rw [if_neg hoff, bytesIn_of_le (by omega), Option.bind_some, le16At_take ie le_rfl, akmLoop_eq, Option.map_some,
        Bool.false_or, Bool.false_or]
      have hpsk : decide (rsnOui ++ [2] ∈ quads (le16At ie (8 + (le16At ie 6).toNat * 4)).toNat
          (ie.drop (8 + (le16At ie 6).toNat * 4 + 2))) = decide (Lists ie 2) := rfl
      have hsae : decide (rsnOui ++ [8] ∈ quads (le16At ie (8 + (le16At ie 6).toNat * 4)).toNat
          (ie.drop (8 + (le16At ie 6).toNat * 4 + 2))) = decide (Lists ie 8) := rfl
      rw [Nat.add_zero, hpsk, hsae]
      by_cases h1 : Lists ie 8 <;> by_cases h2 : Lists ie 2 <;> simp [h1, h2] <;> rfl

def absorb (s : IeScan) (e : Byte × List Byte) : IeScan where
  ssid := if e.1 = 0 ∧ e.2.length ≤ 32 then some e.2 else s.ssid
  channel := if e.1 = 3 ∧ 1 ≤ e.2.length then e.2.getD 0 0 else s.channel
  securityFlags :=
    if e.1 = 48 then s.securityFlags ||| ((apPrivacy ||| apWpa2) ||| if Lists e.2 8 then apWpa3 else 0)
    else if e.1 = 221 ∧ wpaOuiType <+: e.2 then s.securityFlags ||| (apPrivacy ||| apWpa)
    else s.securityFlags

theorem iwlIeIsWpaVendor_eq (ie : List Byte) : iwlIeIsWpaVendor ie = some (decide (wpaOuiType <+: ie)) := by
  have hlen : wpaOuiType.length = 4 := rfl
  rw [iwlIeIsWpaVendor]
  split_ifs with hshort
  · have hnot : ¬ wpaOuiType <+: ie := fun h => by
      have := h.length_le
      omega
    rw [decide_eq_false hnot]
  · rw [bytesIn_of_le (by omega), Option.map_some, List.drop_zero]
    refine congrArg some (decide_eq_decide.2 ?_)
    rw [List.prefix_iff_eq_take, hlen, eq_comm]

theorem ieElement_eq (id : Byte) (ie : List Byte) (s : IeScan) : ieElement id ie s = some (absorb s (id, ie)) := by
  rw [ieElement, absorb]
  dsimp only
  by_cases h0 : id = 0 ∧ ie.length ≤ 32
  · obtain ⟨rfl, hlen⟩ := h0
    simp [hlen]
  · by_cases h3 : id = 3 ∧ 1 ≤ ie.length
    · obtain ⟨rfl, hlen⟩ := h3
      have hhead := getD_take_drop ie (show 0 < 1 by omega) (i := 0)
      rw [if_neg h0, if_pos ⟨rfl, hlen⟩, bytesIn_of_le (by omega), Option.map_some, hhead]
      simp [hlen]
    · rw [if_neg h0, if_neg h3, if_neg h0, if_neg h3]
      by_cases h48 : id = 48
      · rw [if_pos h48, if_pos h48, iwlSecurityFromRsn_eq, Option.map_some]
      · rw [if_neg h48, if_neg h48]
        by_cases h221 : id = 221
        · rw [if_pos h221, iwlIeIsWpaVendor_eq, Option.map_some]
          by_cases hwpa : wpaOuiType <+: ie <;> simp [h221, hwpa]
        · simp [h221]

theorem getD_drop (l : List Byte) (i j : ℕ) : (l.drop i).getD j 0 = l.getD (i + j) 0 := by
  rw [List.getD_eq_getElem?_getD, List.getD_eq_getElem?_getD, List.getElem?_drop]

/-- **The loop over the elements** takes them in. -/
theorem ieLoop_eq (frame : List Byte) (ies : ℕ) (s : IeScan) :
    ieLoop frame ies s = some ((elements (frame.drop ies)).foldl absorb s) := by
  -- along what is left of the frame
  induction hn : frame.length - ies using Nat.strong_induction_on generalizing ies s with
  | _ n ih =>
    have hlen : (frame.drop ies).length = frame.length - ies := List.length_drop
    have hsize : (frame.drop ies).getD 1 0 = frame.getD (ies + 1) 0 := getD_drop frame ies 1
    have hid : (frame.drop ies).getD 0 0 = frame.getD ies 0 := getD_drop frame ies 0
    rw [ieLoop]
    by_cases h2 : ies + 2 ≤ frame.length
    · rw [if_pos h2, bytesIn_of_le h2, Option.bind_some, getD_take_drop frame (by norm_num),
        getD_take_drop frame (by norm_num), Nat.add_zero]
      dsimp only
      by_cases hbroken : frame.length < ies + 2 + (frame.getD (ies + 1) 0).toNat
      · rw [if_pos hbroken, elements_of_broken (by omega) (by rw [hsize]; omega)]
        rfl
      · have hfirst := elements_of_fits (l := frame.drop ies) (by omega) (by rw [hsize]; omega)
        rw [hsize, hid, List.drop_drop, List.drop_drop, ← Nat.add_assoc] at hfirst
        rw [if_neg hbroken, bytesIn_of_le (by omega), Option.bind_some, ieElement_eq, Option.bind_some,
          ih _ (by omega) _ _ rfl, hfirst, List.foldl_cons, Nat.add_zero]
    · rw [if_neg h2, elements_of_short (by omega)]
      rfl

/-! ### What the elements say -/

theorem lastSsid_snoc (es : List (Byte × List Byte)) (e : Byte × List Byte) :
    lastSsid (es ++ [e]) = if e.1 = 0 ∧ e.2.length ≤ 32 then some e.2 else lastSsid es := by
  rw [lastSsid, List.reverse_append, List.reverse_singleton, List.singleton_append, List.find?_cons, lastSsid]
  by_cases h : e.1 = 0 ∧ e.2.length ≤ 32 <;> simp [h]

theorem lastChannel_snoc (es : List (Byte × List Byte)) (e : Byte × List Byte) :
    lastChannel (es ++ [e]) = if e.1 = 3 ∧ 1 ≤ e.2.length then e.2.getD 0 0 else lastChannel es := by
  rw [lastChannel, List.reverse_append, List.reverse_singleton, List.singleton_append, List.find?_cons, lastChannel]
  by_cases h : e.1 = 3 ∧ 1 ≤ e.2.length <;> simp [h]

/-- The flags of a beacon, from the capability and from what the elements say. -/
def flagsOf (cap rsn sae wpa : Bool) : UInt16 :=
  (if cap then apPrivacy else 0) ||| (if rsn then apPrivacy ||| apWpa2 else 0) ||| (if sae then apWpa3 else 0) |||
    if wpa then apPrivacy ||| apWpa else 0

/-- Some RSN element, some that lists the suite of WPA3, and some element of the older protocol. -/
def anyRsn (es : List (Byte × List Byte)) : Bool := es.any fun e => e.1 = 48

def anySae (es : List (Byte × List Byte)) : Bool := es.any fun e => e.1 = 48 ∧ Lists e.2 8

def anyWpa (es : List (Byte × List Byte)) : Bool := es.any fun e => e.1 = 221 ∧ wpaOuiType <+: e.2

theorem flagsOf_rsn : ∀ cap rsn sae wpa s : Bool,
    flagsOf cap rsn sae wpa ||| ((apPrivacy ||| apWpa2) ||| if s then apWpa3 else 0) = flagsOf cap true (sae || s) wpa := by
  decide

theorem flagsOf_wpa : ∀ cap rsn sae wpa : Bool,
    flagsOf cap rsn sae wpa ||| (apPrivacy ||| apWpa) = flagsOf cap rsn sae true := by
  decide

/-- **What the elements leave** in the variables of the loop. -/
theorem foldl_absorb (cap : Bool) (es : List (Byte × List Byte)) :
    es.foldl absorb ⟨none, 0, if cap then apPrivacy else 0⟩ =
      ⟨lastSsid es, lastChannel es, flagsOf cap (anyRsn es) (anySae es) (anyWpa es)⟩ := by
  -- element by element, the last one at the end
  induction es using List.reverseRecOn with
  | nil => cases cap <;> rfl
  | append_singleton es e ih =>
    have hany : ∀ p : Byte × List Byte → Bool, (es ++ [e]).any p = (es.any p || p e) := fun p => by
      rw [List.any_append, List.any_cons, List.any_nil, Bool.or_false]
    have hrsn : anyRsn (es ++ [e]) = (anyRsn es || decide (e.1 = 48)) := hany _
    have hsae : anySae (es ++ [e]) = (anySae es || decide (e.1 = 48 ∧ Lists e.2 8)) := hany _
    have hwpa : anyWpa (es ++ [e]) = (anyWpa es || decide (e.1 = 221 ∧ wpaOuiType <+: e.2)) := hany _
    rw [List.foldl_append, ih, List.foldl_cons, List.foldl_nil, absorb, lastSsid_snoc, lastChannel_snoc, hrsn, hsae, hwpa]
    congr 1
    dsimp only
    by_cases h48 : e.1 = 48
    · have h221 : ¬ (e.1 = 221 ∧ wpaOuiType <+: e.2) := fun h => by
        rw [h48] at h
        exact absurd h.1 (by decide)
      have hstep := flagsOf_rsn cap (anyRsn es) (anySae es) (anyWpa es) (decide (Lists e.2 8))
      rw [if_pos h48, decide_eq_true h48, decide_eq_false h221, Bool.or_true, Bool.or_false]
      simp only [h48, true_and]
      simpa only [decide_eq_true_eq] using hstep
    · rw [if_neg h48, decide_eq_false h48, decide_eq_false fun h => h48 h.1, Bool.or_false, Bool.or_false]
      by_cases hwpa : e.1 = 221 ∧ wpaOuiType <+: e.2
      · rw [if_pos hwpa, decide_eq_true hwpa, Bool.or_true, flagsOf_wpa]
      · rw [if_neg hwpa, decide_eq_false hwpa, Bool.or_false]

theorem hasRsn_iff (frame : List Byte) : HasRsn frame ↔ anyRsn (frameElements frame) = true := by
  simp [HasRsn, anyRsn, List.any_eq_true]

theorem hasSae_iff (frame : List Byte) :
    (∃ e ∈ frameElements frame, e.1 = 48 ∧ Lists e.2 8) ↔ anySae (frameElements frame) = true := by
  simp [anySae, List.any_eq_true]

theorem hasWpa_iff (frame : List Byte) : HasWpa frame ↔ anyWpa (frameElements frame) = true := by
  simp [HasWpa, anyWpa, List.any_eq_true]

theorem anyRsn_of_anySae (es : List (Byte × List Byte)) (h : anySae es = true) : anyRsn es = true := by
  obtain ⟨e, he, h48⟩ := List.any_eq_true.1 h
  exact List.any_eq_true.2 ⟨e, he, decide_eq_true (of_decide_eq_true h48).1⟩

theorem finishFlags_bits : ∀ cap rsn sae wpa : Bool, (sae = true → rsn = true) → ∀ name : Option (List Byte),
    (finishFlags (flagsOf cap rsn sae wpa) name &&& apPrivacy ≠ 0 ↔ cap = true ∨ rsn = true ∨ wpa = true) ∧
    (finishFlags (flagsOf cap rsn sae wpa) name &&& apHidden ≠ 0 ↔ name = some []) ∧
    (finishFlags (flagsOf cap rsn sae wpa) name &&& apWep ≠ 0 ↔ cap = true ∧ rsn = false ∧ wpa = false) ∧
    (finishFlags (flagsOf cap rsn sae wpa) name &&& apWpa ≠ 0 ↔ wpa = true) ∧
    (finishFlags (flagsOf cap rsn sae wpa) name &&& apWpa2 ≠ 0 ↔ rsn = true) ∧
    (finishFlags (flagsOf cap rsn sae wpa) name &&& apWpa3 ≠ 0 ↔ sae = true) := by
  intro cap rsn sae wpa hsae name
  rw [finishFlags]
  by_cases hname : name = some []
  · simp only [hname, if_true]
    revert cap rsn sae wpa
    decide
  · simp only [hname, if_false]
    revert cap rsn sae wpa
    decide

def capOf (frame : List Byte) : Bool := le16At frame (hdrLen3 + 10) &&& 0x10 ≠ 0

def frameFlags (frame name : List Byte) : UInt16 :=
  finishFlags (flagsOf (capOf frame) (anyRsn (frameElements frame)) (anySae (frameElements frame))
    (anyWpa (frameElements frame))) (some name)

/-- **The entry that is written is the one that the elements define**, unless they insist on WPA3. -/
theorem describes_iff (frame name bssid : List Byte) :
    Describes frame name (apEntry name bssid (lastChannel (frameElements frame)) (capOf frame) (frameFlags frame name) 0) ↔
      ¬ SaeOnly frame := by
  have hcap : capOf frame = true ↔ hasPrivacy frame := by rw [capOf, decide_eq_true_eq, hasPrivacy]
  obtain ⟨hprivacy, hhidden, hwep, hwpa, hwpa2, hwpa3⟩ := finishFlags_bits (capOf frame) (anyRsn (frameElements frame))
    (anySae (frameElements frame)) (anyWpa (frameElements frame)) (anyRsn_of_anySae _) (some name)
  rw [← frameFlags] at hprivacy hhidden hwep hwpa hwpa2 hwpa3
  have hflag : (∃ e ∈ frameElements frame, e.1 = 48 ∧ (Lists e.2 2 ∨ ¬ Lists e.2 8)) ↔
      HasRsn frame ∧ ¬ SaeOnly frame := by
    rw [SaeOnly, HasRsn]
    constructor
    · rintro ⟨e, he, h48, hlists⟩
      refine ⟨⟨e, he, h48⟩, fun h => ?_⟩
      obtain ⟨h8, h2⟩ := h.2 e he h48
      exact hlists.elim h2 fun h => h h8
    · rintro ⟨hrsn, hnot⟩
      by_contra hnone
      push Not at hnone
      refine hnot ⟨hrsn, fun e he h48 => ?_⟩
      obtain ⟨h2, h8⟩ := hnone e he h48
      exact ⟨h8, h2⟩
  constructor
  · intro h
    by_cases hrsn : HasRsn frame
    · have := (hflag.1 (h.wpa2.1 (hwpa2.2 ((hasRsn_iff frame).1 hrsn)))).2
      exact this
    · exact fun h => hrsn h.1
  · intro hnot
    refine ⟨?_, rfl, rfl, hcap, ?_, ?_, ?_, ?_, ?_, ?_⟩
    · simp only [apEntry, List.length_eq_zero_iff]
    · rw [← hcap, hasRsn_iff, hasWpa_iff]
      exact hprivacy
    · rw [← Option.some_inj]
      exact hhidden
    · rw [← hcap, hasRsn_iff, hasWpa_iff, Bool.not_eq_true, Bool.not_eq_true]
      exact hwep
    · rw [hasWpa_iff]
      exact hwpa
    · rw [hflag, and_iff_left hnot, hasRsn_iff]
      exact hwpa2
    · rw [hasSae_iff]
      exact hwpa3

/-! ### The slot of an entry -/

abbrev IsEntryOf (bssid : List Byte) (ap : ApEntry) : Bool := ap.valid ∧ ap.bssid = bssid

/-- **The loop finds the entry of the station**, or else the first free one. -/
theorem slotLoop_eq (bssid : List Byte) (aps : List ApEntry) (i : ℕ) (slot : Option ℕ) :
    slotLoop bssid aps i slot =
      ((aps.findIdx? (IsEntryOf bssid)).map (i + ·)).or
        (slot.or ((aps.findIdx? fun ap => ap.valid = false).map (i + ·))) := by
  induction aps generalizing i slot with
  | nil => cases slot <;> rfl
  | cons ap aps ih =>
    rw [slotLoop, List.findIdx?_cons, List.findIdx?_cons]
    have hshift : ∀ o : Option ℕ, (o.map fun k => k + 1).map (i + ·) = o.map (i + 1 + ·) := fun o => by
      cases o with
      | none => rfl
      | some k => simp only [Option.map_some, Option.some.injEq]; omega
    by_cases hmatch : ap.valid ∧ ap.bssid = bssid
    · rw [if_pos hmatch, if_pos (decide_eq_true hmatch)]
      rfl
    · have hno : ¬ IsEntryOf bssid ap = true := by simpa [IsEntryOf] using hmatch
      rw [if_neg hmatch, ih, if_neg hno, hshift]
      cases hvalid : ap.valid with
      | true => simp [hshift]
      | false => cases slot <;> simp

theorem find?_set {α : Type*} {p : α → Bool} {l : List α} {a : α} (hk : k < l.length)
    (hbefore : ∀ b ∈ l.take k, p b = false) (ha : p a = true) : (l.set k a).find? p = some a := by
  rw [List.find?_eq_some_iff_append]
  refine ⟨ha, l.take k, l.drop (k + 1), List.set_eq_take_append_cons_drop.trans (if_pos hk), fun b hb => ?_⟩
  rw [hbefore b hb, Bool.not_false]

theorem of_findIdx? {α : Type*} {p : α → Bool} {l : List α} (h : l.findIdx? p = some k) :
    (∃ a, l[k]? = some a ∧ p a = true) ∧ ∀ b ∈ l.take k, p b = false := by
  obtain ⟨hk, hthere, hbefore⟩ := List.findIdx?_eq_some_iff_getElem.1 h
  refine ⟨⟨l[k], List.getElem?_eq_getElem hk, hthere⟩, fun b hb => ?_⟩
  obtain ⟨j, hj, rfl⟩ := List.mem_take_iff_getElem.1 hb
  exact Bool.eq_false_iff.2 (hbefore j (by omega))

variable {st : State} {name bssid : List Byte}

/-- **The slot of a station**: its entry, or the first free one when it has none. -/
theorem slotLoop_cases (aps : List ApEntry) (bssid : List Byte) :
    (∃ k ap, slotLoop bssid aps 0 none = some k ∧ aps[k]? = some ap ∧ (∀ ap ∈ aps.take k, IsEntryOf bssid ap = false) ∧
      (IsEntryOf bssid ap = true ∨ ap.valid = false ∧ (∀ ap ∈ aps, IsEntryOf bssid ap = false) ∧
        ∀ ap ∈ aps.take k, ap.valid = true)) ∨
      slotLoop bssid aps 0 none = none ∧ ∀ ap ∈ aps, ap.valid = true ∧ ap.bssid ≠ bssid := by
  rw [slotLoop_eq, Option.none_or]
  have hzero : ∀ o : Option ℕ, o.map (0 + ·) = o := fun o => by cases o <;> simp
  rw [hzero, hzero]
  cases hmatch : aps.findIdx? (IsEntryOf bssid) with
  | some k =>
    obtain ⟨⟨ap, hap, hthere⟩, hbefore⟩ := of_findIdx? hmatch
    exact Or.inl ⟨k, ap, rfl, hap, hbefore, Or.inl hthere⟩
  | none =>
    have hnone := List.findIdx?_eq_none_iff.1 hmatch
    cases hfree : aps.findIdx? fun ap => ap.valid = false with
    | some k =>
      obtain ⟨⟨ap, hap, hthere⟩, hbefore⟩ := of_findIdx? hfree
      refine Or.inl ⟨k, ap, rfl, hap, fun ap hap => hnone ap (List.mem_of_mem_take hap),
        Or.inr ⟨of_decide_eq_true hthere, hnone, fun ap hap => ?_⟩⟩
      simpa using hbefore ap hap
    | none =>
      have hall := List.findIdx?_eq_none_iff.1 hfree
      refine Or.inr ⟨rfl, fun ap hap => ?_⟩
      have hvalid : ap.valid = true := by simpa using hall ap hap
      have hother := hnone ap hap
      simp only [IsEntryOf, hvalid, true_and, decide_eq_false_iff_not] at hother
      exact ⟨hvalid, hother⟩

/-- **A name gives the station its entry**, if there is one already or a free one. -/
theorem entryOf_iwlCacheAp (channel : Byte) (privacy : Bool) (flags : UInt16) (rssi : ℤ) (hname : name.length ≤ 32)
    (hroom : Room st bssid) :
    entryOf (iwlCacheAp st name bssid channel privacy flags rssi) bssid =
      some (apEntry name bssid channel privacy flags rssi) := by
  rw [iwlCacheAp, if_neg (by omega)]
  rcases slotLoop_cases st.aps bssid with ⟨k, old, hslot, hold, hbefore, -⟩ | ⟨-, hall⟩
  · rw [hslot]
    exact find?_set (List.getElem?_eq_some_iff.1 hold).1 hbefore (decide_eq_true ⟨rfl, rfl⟩)
  · obtain ⟨ap, hap, hfree | hsame⟩ := hroom
    · rw [(hall ap hap).1] at hfree
      cases hfree
    · exact absurd hsame (hall ap hap).2

theorem iwlCacheAp_of_full (channel : Byte) (privacy : Bool) (flags : UInt16) (rssi : ℤ) (hroom : ¬ Room st bssid) :
    iwlCacheAp st name bssid channel privacy flags rssi = st ∧ entryOf st bssid = none := by
  have hall : ∀ ap ∈ st.aps, ap.valid = true ∧ ap.bssid ≠ bssid := fun ap hap => by
    by_contra h
    refine hroom ⟨ap, hap, ?_⟩
    cases hvalid : ap.valid with
    | false => exact Or.inl rfl
    | true =>
      refine Or.inr ?_
      by_contra hne
      exact h ⟨hvalid, hne⟩
  constructor
  · rw [iwlCacheAp]
    split_ifs
    · rfl
    · rcases slotLoop_cases st.aps bssid with ⟨k, old, -, hold, -, hthere | ⟨hfree, -⟩⟩ | ⟨hslot, -⟩
      · exact absurd (of_decide_eq_true hthere).2 (hall old (List.mem_of_getElem? hold)).2
      · rw [(hall old (List.mem_of_getElem? hold)).1] at hfree
        cases hfree
      · rw [hslot]
  · rw [entryOf, List.find?_eq_none]
    intro ap hap
    simp [(hall ap hap).2]

/-! ### The law -/

variable {frame : List Byte}

/-- **A beacon** puts what its elements say into the list. -/
theorem parseBeacon_eq (st : State) (h : hdrLen3 + 12 ≤ frame.length) :
    parseBeacon st frame = some
      (match lastSsid (frameElements frame) with
        | none => st
        | some name => iwlCacheAp st name (bssidOf frame) (lastChannel (frameElements frame)) (capOf frame)
            (frameFlags frame name) 0) := by
  have h36 : 36 ≤ frame.length := h
  rw [parseBeacon, bytesIn_of_le h, Option.bind_some, le16At_take frame (by norm_num)]
  dsimp only
  have hcap : decide (le16At frame (hdrLen3 + 10) &&& 0x10 ≠ 0) = capOf frame := rfl
  rw [hcap, ieLoop_eq, Option.bind_some, foldl_absorb, ← frameElements, bytesIn_of_le (by omega), Option.map_some]
  cases lastSsid (frameElements frame) <;> rfl

theorem length_le_of_lastSsid {es : List (Byte × List Byte)} (h : lastSsid es = some name) :
    name.length ≤ 32 := by
  obtain ⟨e, he, rfl⟩ := Option.map_eq_some_iff.1 h
  have hfound := List.find?_some he
  rw [decide_eq_true_eq] at hfound
  exact hfound.2

/-- **No read leaves the frame.** -/
theorem iwlParseMgmtFrame_isSome (st : State) (frame : List Byte) : (iwlParseMgmtFrame st frame).isSome = true := by
  rw [iwlParseMgmtFrame]
  split_ifs with hshort
  · rfl
  · have h36 : 36 ≤ frame.length := not_lt.1 hshort
    rw [bytesIn_of_le (by omega), Option.bind_some]
    dsimp only
    split_ifs with h1 h2 h3 h4
    · rfl
    · rw [bytesIn_of_le h2.2]
      rfl
    · rw [bytesIn_of_le h3.2]
      rfl
    · rfl
    · rw [parseBeacon_eq st h36]
      rfl

theorem IsSubtype.eq {x y : Byte} (hx : IsSubtype frame x) (hy : IsSubtype frame y) : x = y := hx.2.symm.trans hy.2

theorem mgmtLaw_of_parse {st' : State} (hparse : iwlParseMgmtFrame st frame = some st') :
    MgmtLaw st frame ↔ (IsAuthResponse frame → AuthTold st' frame) ∧ (IsAssocResponse frame → AssocTold st' frame) ∧
      (IsBeacon frame → ∀ name, lastSsid (frameElements frame) = some name →
        ∃ ap, entryOf st' (bssidOf frame) = some ap ∧ Describes frame name ap) := by
  constructor
  · rintro ⟨other, hother, h⟩
    obtain rfl : other = st' := Option.some.inj (hother.symm.trans hparse)
    exact h
  · exact fun h => ⟨st', hparse, h⟩

theorem iwlParseMgmtFrame_of_large (st : State) (h : 36 ≤ frame.length) :
    iwlParseMgmtFrame st frame =
      if frame.getD 0 0 &&& 0x0c ≠ 0x00 then some st
      else if frame.getD 0 0 &&& 0xf0 = 0xb0 then
        some (if le16At frame 24 = 0 ∧ le16At frame 26 = 2 then
          { st with authDone := true, authStatus := le16At frame 28 } else st)
      else if frame.getD 0 0 &&& 0xf0 = 0x10 then
        some { st with
          assocDone := true, assocStatus := le16At frame 26, assocId := le16At frame 28 &&& 0x3fff }
      else if frame.getD 0 0 &&& 0xf0 ≠ 0x80 ∧ frame.getD 0 0 &&& 0xf0 ≠ 0x50 then some st
      else parseBeacon st frame := by
  have h30 : hdrLen3 + 6 ≤ frame.length := (by decide : hdrLen3 + 6 ≤ 36).trans h
  rw [iwlParseMgmtFrame, if_neg (not_lt.2 h), bytesIn_of_le (by omega), Option.bind_some, getD_take_drop frame (by norm_num)]
  simp only [h30, and_true, bytesIn_of_le h30, Option.map_some, le16At_take frame (show 0 + 2 ≤ 6 by norm_num),
    le16At_take frame (show 2 + 2 ≤ 6 by norm_num), le16At_take frame (show 4 + 2 ≤ 6 by norm_num)]

theorem iwlParseMgmtFrame_of_beacon (st : State) (h : IsBeacon frame) :
    iwlParseMgmtFrame st frame = some
      (match lastSsid (frameElements frame) with
        | none => st
        | some name => iwlCacheAp st name (bssidOf frame) (lastChannel (frameElements frame)) (capOf frame)
            (frameFlags frame name) 0) := by
  obtain ⟨hsub, hlong⟩ := h
  rw [← parseBeacon_eq st hlong, iwlParseMgmtFrame_of_large st hlong]
  rcases hsub with hsub | hsub
  all_goals
    rw [if_neg (not_not.2 hsub.1), hsub.2, if_neg (by decide), if_neg (by decide), if_neg (by decide)]

theorem iwlParseMgmtFrame_of_not_beacon (st : State) (h : ¬ IsBeacon frame) :
    ∃ st', iwlParseMgmtFrame st frame = some st' ∧ st'.aps = st.aps ∧ st'.apCount = st.apCount := by
  rcases Nat.lt_or_ge frame.length 36 with hshort | hlong
  · exact ⟨st, if_pos hshort, rfl, rfl⟩
  · rw [iwlParseMgmtFrame_of_large st hlong]
    split_ifs with hkind hauth hopen hassoc hother
    · exact ⟨st, rfl, rfl, rfl⟩
    · exact ⟨_, rfl, rfl, rfl⟩
    · exact ⟨st, rfl, rfl, rfl⟩
    · exact ⟨_, rfl, rfl, rfl⟩
    · exact ⟨st, rfl, rfl, rfl⟩
    · refine absurd ⟨?_, hlong⟩ h
      rw [not_not] at hkind
      rw [not_and_or, not_not, not_not] at hother
      exact hother.imp (fun h => ⟨hkind, h⟩) fun h => ⟨hkind, h⟩

theorem mgmtLaw_of_short (hshort : frame.length < 36) : MgmtLaw st frame ↔ MgmtWhen st frame := by
  have hbeacon : ¬ IsBeacon frame := fun h => absurd h.2 (not_le.2 hshort)
  have hbody : ¬ hdrLen3 + 12 ≤ frame.length := not_le.2 hshort
  rw [mgmtLaw_of_parse (if_pos hshort)]
  constructor
  · rintro ⟨hauth, hassoc, -⟩
    exact ⟨fun h => Or.inr (hauth h), fun h => Or.inr (hassoc h), fun h => absurd h hbeacon⟩
  · intro h
    refine ⟨fun hauth => (h.auth hauth).resolve_left fun h => hbody h.1,
      fun hassoc => (h.assoc hassoc).resolve_left hbody, fun h => absurd h hbeacon⟩

theorem mgmtLaw_of_auth (hlong : 36 ≤ frame.length) (hsub : IsSubtype frame 0xb0) :
    MgmtLaw st frame ↔ MgmtWhen st frame := by
  have hassoc : ¬ IsAssocResponse frame := fun h => absurd (h.1.eq hsub) (by decide)
  have hbeacon : ¬ IsBeacon frame := fun h => h.1.elim (fun h => absurd (h.eq hsub) (by decide))
    fun h => absurd (h.eq hsub) (by decide)
  have hparse := iwlParseMgmtFrame_of_large st hlong
  rw [if_neg (not_not.2 hsub.1), if_pos hsub.2] at hparse
  rw [mgmtLaw_of_parse hparse]
  constructor
  · rintro ⟨hauth, -, -⟩
    refine ⟨fun h => ?_, fun h => absurd h hassoc, fun h => absurd h hbeacon⟩
    have htold := hauth h
    by_cases hopen : le16At frame 24 = 0
    · exact Or.inl ⟨hlong, hopen⟩
    · rw [if_neg fun h => hopen h.1] at htold
      exact Or.inr htold
  · intro h
    refine ⟨fun hauth => ?_, fun h => absurd h hassoc, fun h => absurd h hbeacon⟩
    split_ifs with hopen
    · exact ⟨rfl, rfl⟩
    · exact (h.auth hauth).resolve_left fun h => hopen ⟨h.2, hauth.2.2⟩

theorem mgmtLaw_of_assoc (hlong : 36 ≤ frame.length) (hsub : IsSubtype frame 0x10) :
    MgmtLaw st frame ↔ MgmtWhen st frame := by
  have hauth : ¬ IsAuthResponse frame := fun h => absurd (h.1.eq hsub) (by decide)
  have hbeacon : ¬ IsBeacon frame := fun h => h.1.elim (fun h => absurd (h.eq hsub) (by decide))
    fun h => absurd (h.eq hsub) (by decide)
  have hparse := iwlParseMgmtFrame_of_large st hlong
  rw [if_neg (not_not.2 hsub.1), hsub.2, if_neg (by decide), if_pos rfl] at hparse
  rw [mgmtLaw_of_parse hparse]
  exact iff_of_true ⟨fun h => absurd h hauth, fun _ => ⟨rfl, rfl, rfl⟩, fun h => absurd h hbeacon⟩
    ⟨fun h => absurd h hauth, fun _ => Or.inl hlong, fun h => absurd h hbeacon⟩

theorem mgmtLaw_of_beacon (hlong : 36 ≤ frame.length) (hsub : IsSubtype frame 0x80 ∨ IsSubtype frame 0x50) :
    MgmtLaw st frame ↔ MgmtWhen st frame := by
  have hauth : ¬ IsAuthResponse frame := fun h => hsub.elim (fun hsub => absurd (h.1.eq hsub) (by decide))
    fun hsub => absurd (h.1.eq hsub) (by decide)
  have hassoc : ¬ IsAssocResponse frame := fun h => hsub.elim (fun hsub => absurd (h.1.eq hsub) (by decide))
    fun hsub => absurd (h.1.eq hsub) (by decide)
  have hbeacon : IsBeacon frame := ⟨hsub, hlong⟩
  have hparse := iwlParseMgmtFrame_of_beacon st hbeacon
  rw [mgmtLaw_of_parse hparse]
  cases hname : lastSsid (frameElements frame) with
  | none =>
    refine iff_of_true ⟨fun h => absurd h hauth, fun h => absurd h hassoc, fun _ name h => ?_⟩
      ⟨fun h => absurd h hauth, fun h => absurd h hassoc, fun _ h => absurd hname h⟩
    cases h
  | some name =>
    dsimp only
    by_cases hroom : Room st (bssidOf frame)
    · have hentry := entryOf_iwlCacheAp (lastChannel (frameElements frame)) (capOf frame) (frameFlags frame name) 0
        (length_le_of_lastSsid hname) hroom
      have hdescribes := describes_iff frame name (bssidOf frame)
      constructor
      · rintro ⟨-, -, h⟩
        obtain ⟨ap, hap, hdescribe⟩ := h hbeacon name rfl
        obtain rfl := Option.some.inj (hentry.symm.trans hap)
        exact ⟨fun h => absurd h hauth, fun h => absurd h hassoc, fun _ _ => ⟨hroom, hdescribes.1 hdescribe⟩⟩
      · intro h
        refine ⟨fun h => absurd h hauth, fun h => absurd h hassoc, fun _ name' hname' => ?_⟩
        obtain rfl := Option.some.inj hname'
        exact ⟨_, hentry, hdescribes.2 (h.beacon hbeacon (by rw [hname]; exact Option.some_ne_none _)).2⟩
    · obtain ⟨hsame, hnone⟩ := iwlCacheAp_of_full (lastChannel (frameElements frame)) (capOf frame) (frameFlags frame name) 0
        hroom
      rw [hsame]
      refine iff_of_false ?_ fun h => hroom (h.beacon hbeacon (by rw [hname]; exact Option.some_ne_none _)).1
      rintro ⟨-, -, h⟩
      obtain ⟨ap, hap, -⟩ := h hbeacon name rfl
      rw [hnone] at hap
      cases hap

/-- **A frame does what it should exactly when `MgmtWhen` says so.** -/
theorem mgmtLaw_iff (st : State) (frame : List Byte) : MgmtLaw st frame ↔ MgmtWhen st frame := by
  rcases Nat.lt_or_ge frame.length 36 with hshort | hlong
  · exact mgmtLaw_of_short hshort
  · by_cases hauth : IsSubtype frame 0xb0
    · exact mgmtLaw_of_auth hlong hauth
    · by_cases hassoc : IsSubtype frame 0x10
      · exact mgmtLaw_of_assoc hlong hassoc
      · by_cases hbeacon : IsSubtype frame 0x80 ∨ IsSubtype frame 0x50
        · exact mgmtLaw_of_beacon hlong hbeacon
        · obtain ⟨st', hparse⟩ := Option.isSome_iff_exists.1 (iwlParseMgmtFrame_isSome st frame)
          rw [mgmtLaw_of_parse hparse]
          exact iff_of_true
            ⟨fun h => absurd h.1 hauth, fun h => absurd h.1 hassoc, fun h => absurd h.1 hbeacon⟩
            ⟨fun h => absurd h.1 hauth, fun h => absurd h.1 hassoc, fun h => absurd h.1 hbeacon⟩

def freshState : State where
  authDone := false
  authStatus := 0
  assocDone := false
  assocStatus := 0
  assocId := 0
  aps := []
  apCount := 0

def shortResponse : List Byte := [0x10] ++ List.replicate 29 0

/-- The short answer is not taken. -/
theorem not_mgmtLaw : ¬ MgmtLaw freshState shortResponse := by
  intro h
  have hwhen := (mgmtLaw_of_short (by decide)).1 h
  rcases hwhen.assoc ⟨⟨by decide, by decide⟩, by decide⟩ with hlong | htold
  · exact absurd hlong (by decide)
  · exact absurd htold.1 (by decide)

end Tnu.Wifi.Mgmt
