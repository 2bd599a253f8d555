/-
**Packet numbers of protected frames.**

`iwl_ccmp_encrypt_frame` counts the frames it protects.  The count starts again at the end of a key
exchange, in `iwlwifi_associate`; the key changes with every first message, at any time.  Two frames with
one key and one number would reveal what both say.

The numbers of the frames between two resets are different as long as there are fewer than `2 ^ 48` of
them, whichever keys are used.  Frames from before and after a reset have different keys when the driver
makes a new nonce for each exchange, and when no frame is sent between the first message of an exchange
and the reset.  The driver sends none there: it does nothing else while `iwlwifi_associate` waits.

Main definitions:

* `deviceEvents`, `record` — the nonces, keys and frames of a run.

Main results:

* `nodup_sentFrames` — **no two frames have one key and one number**;
* `not_nodup_sentFrames` — it is not enough that few frames are sent under each key.
-/

import Tnu.Lib.KeyEras
import Tnu.Wifi.Associate
import Tnu.Wifi.Derivations

set_option autoImplicit false

namespace Tnu.Wifi

open Ccm (Block)
open KeyEras (Begun Distinct Event Few Fresh Keyed Quiet Valid frames)

/-! ### The record of a run -/

section Record

variable (aes : Block → Block → Block) (mac : List Byte)

/-- What a frame of the key exchange does, the newest event first. -/
def eapolEvents (ticks : UInt64) (st : IwlwifiState) (eapol : List Byte) :
    List (Event (List Byte) Block) :=
  if IsMsg1 eapol then
    let st' := takeMsg1 mac ticks st eapol
    .derived st'.wpaSnonce st'.wpaAnonce st'.tk ::
      if st.wpaSnonce.getD 0 0 = 0 then [.remade st'.wpaSnonce] else []
  else []

def deviceEvents (d : Device) : Step → List (Event (List Byte) Block)
  | .receive apKnown _ _ ticks frame =>
    match eapolOf aes apKnown d.toIwlwifiState frame with
    | none => []
    | some eapol => eapolEvents mac ticks d.toIwlwifiState eapol
  | .transmit eth _ =>
    if Protects aes mac d eth then [.sent d.tk (d.ccmpTxPn + 1).toNat] else []
  | .assocWaited privacy ticks =>
    match d.phase with
    | .assoc r =>
      let d' := (assocWaited mac d r privacy ticks).1
      if d'.phase = .msg1 then [.begun d'.wpaSnonce] else []
    | _ => []
  | .msg3Waited installed =>
    match d.phase with
    | .msg3 => if (msg3Waited d installed).2 = some 0 then [.reset] else []
    | _ => []
  | .associate _ _ _ _ _ => []
  | .authWaited _ => []
  | .msg1Waited => []

def record (d : Device) : List Step → List (Event (List Byte) Block)
  | [] => []
  | s :: steps => record (deviceStep aes mac d s).1 steps ++ deviceEvents aes mac d s

end Record

def SentUnder (key : Block) : Event (List Byte) Block → Bool
  | .sent k _ => k = key
  | _ => false

/-- Fewer than `2 ^ 48` frames are sent under one key. -/
def FewPerKey (tr : List (Event (List Byte) Block)) : Prop := ∀ key, tr.countP (SentUnder key) < 2 ^ 48

/-! ### The driver and the record -/

/-- What the driver knows is what the record says.  While `iwlwifi_associate` waits for the messages of an
exchange, that exchange was begun, and the mark of the first message is there only when a key was derived
in it. -/
structure Linked (d : Device) (tr : List (Event (List Byte) Block)) : Prop where
  valid : Valid tr
  ready : d.wpaPtkReady = true → KeyEras.key tr = some d.tk
  own : d.wpaSnonce.getD 0 0 ≠ 0 → KeyEras.own tr = some d.wpaSnonce
  counter : d.ccmpTxPn.toNat = KeyEras.count tr
  begun : d.phase = .msg1 ∨ d.phase = .msg3 → Begun tr
  keyed : d.phase = .msg1 ∨ d.phase = .msg3 → d.wpaKeyMsg1 = true → Keyed tr
  taken : d.phase = .msg3 → d.wpaKeyMsg1 = true

variable {aes : Block → Block → Block} {mac : List Byte} {d d' : Device} {st' : IwlwifiState}
  {tr : List (Event (List Byte) Block)}

theorem linked_boot (modern : Bool) : Linked (bootDevice modern) [] where
  valid := .nil
  ready h := by cases h
  own h := absurd rfl h
  counter := rfl
  begun h := by rcases h with h | h <;> cases h
  keyed h := by rcases h with h | h <;> cases h
  taken h := by cases h

/-- The fields that the record is about are the same. -/
structure SameCrypto (st st' : IwlwifiState) : Prop where
  ready : st'.wpaPtkReady = st.wpaPtkReady
  ptk : st'.wpaPtk = st.wpaPtk
  snonce : st'.wpaSnonce = st.wpaSnonce
  counter : st'.ccmpTxPn = st.ccmpTxPn
  mark : st'.wpaKeyMsg1 = st.wpaKeyMsg1

theorem Linked.congr (h : Linked d tr) (hsame : SameCrypto d.toIwlwifiState d'.toIwlwifiState)
    (hphase : d'.phase = .msg1 ∨ d'.phase = .msg3 → d.phase = .msg1 ∨ d.phase = .msg3)
    (htaken : d'.phase = .msg3 → d'.wpaKeyMsg1 = true) : Linked d' tr where
  valid := h.valid
  ready hready := by
    rw [hsame.ready] at hready
    rw [h.ready hready, IwlwifiState.tk, IwlwifiState.tk, hsame.ptk]
  own hown := by
    rw [hsame.snonce] at hown ⊢
    exact h.own hown
  counter := by rw [hsame.counter, h.counter]
  begun hph := h.begun (hphase hph)
  keyed hph hmark := h.keyed (hphase hph) (by rwa [hsame.mark] at hmark)
  taken := htaken

theorem Linked.remade (h : Linked d tr) (s : List Byte) :
    Linked { d with wpaSnonce := s } (.remade s :: tr) where
  valid := .remade s h.valid
  ready := h.ready
  own _ := rfl
  counter := h.counter
  begun hph := (h.begun hph).imp fun _ hmem => List.mem_cons_of_mem _ hmem
  keyed := h.keyed
  taken := h.taken

theorem Linked.derived (h : Linked d tr) (hown : KeyEras.own tr = some d.wpaSnonce)
    (hsnonce : d'.wpaSnonce = d.wpaSnonce)
    (hcounter : d'.ccmpTxPn = d.ccmpTxPn) (hphase : d'.phase = d.phase)
    (hmark : d.wpaKeyMsg1 = true → d'.wpaKeyMsg1 = true) :
    Linked d' (.derived d.wpaSnonce d'.wpaAnonce d'.tk :: tr) where
  valid := .derived _ _ h.valid hown
  ready _ := rfl
  own _ := by rw [hsnonce]; exact hown
  counter := by rw [hcounter]; exact h.counter
  begun hph := (h.begun (by rwa [hphase] at hph)).imp fun _ hmem => List.mem_cons_of_mem _ hmem
  keyed _ _ := trivial
  taken hph := hmark (h.taken (by rwa [hphase] at hph))

/-! ### Steps -/

theorem Linked.eapol (h : Linked d tr) (ok : Bool) (ticks : UInt64) (eapol : List Byte) :
    Linked { d with toIwlwifiState := (iwlHandleEapolKey mac ok ticks d.toIwlwifiState eapol).1 }
      (eapolEvents mac ticks d.toIwlwifiState eapol ++ tr) := by
  by_cases hmsg1 : IsMsg1 eapol
  · -- the nonce may be made again, and then the key is derived
    obtain ⟨seq, mark, hst, hkeep⟩ := iwlHandleEapolKey_of_msg1 mac ok ticks d.toIwlwifiState hmsg1
    obtain ⟨snonce, ptk, htake, hsame⟩ := takeMsg1_fields mac ticks d.toIwlwifiState eapol
    rw [hst, eapolEvents, if_pos hmsg1, htake]
    dsimp only
    by_cases hzero : d.wpaSnonce.getD 0 0 = 0
    · rw [if_pos hzero]
      exact (h.remade snonce).derived rfl rfl rfl rfl hkeep
    · rw [if_neg hzero]
      obtain rfl := hsame hzero
      exact h.derived (h.own hzero) rfl rfl rfl hkeep
  · obtain ⟨seq, mark, replay, hst⟩ := iwlHandleEapolKey_of_not_msg1 mac ok ticks d.toIwlwifiState hmsg1
    rw [hst, eapolEvents, if_neg hmsg1]
    exact h.congr ⟨rfl, rfl, rfl, rfl, rfl⟩ id h.taken

theorem Linked.receive (h : Linked d tr) (apKnown callback ok : Bool) (ticks : UInt64)
    (frame : List Byte) :
    Linked (deviceStep aes mac d (.receive apKnown callback ok ticks frame)).1
      (deviceEvents aes mac d (.receive apKnown callback ok ticks frame) ++ tr) := by
  rw [deviceStep, deviceEvents, iwlHandleMpdu]
  dsimp only
  by_cases hdata : IsData frame
  · rw [if_pos hdata, iwlParseDataFrame_fst]
    dsimp only
    rcases eapolOf aes apKnown d.toIwlwifiState frame with _ | eapol
    · exact h
    · exact h.eapol ok ticks eapol
  · have hnone : eapolOf aes apKnown d.toIwlwifiState frame = none := by
      rw [eapolOf, if_pos (.inr hdata)]
    obtain ⟨_, _, _, _, _, hd⟩ := iwlParseMgmtFrame_eq d frame
    rw [if_neg hdata, hnone, hd]
    exact h.congr ⟨rfl, rfl, rfl, rfl, rfl⟩ id h.taken

theorem Linked.transmit (h : Linked d tr) (eth : List Byte) (rc : ℤ)
    (hn : Few (2 ^ 48) (deviceEvents aes mac d (.transmit eth rc) ++ tr)) :
    Linked (deviceStep aes mac d (.transmit eth rc)).1
      (deviceEvents aes mac d (.transmit eth rc) ++ tr) := by
  obtain ⟨seq, hd⟩ := iwlwifiTransmit_eq aes mac rc d eth
  rw [deviceStep]
  rw [deviceEvents] at hn ⊢
  dsimp only
  rw [hd]
  by_cases hsends : Protects aes mac d eth
  · rw [if_pos hsends] at hn ⊢
    rw [if_pos hsends]
    have hcount : (d.ccmpTxPn + 1).toNat = KeyEras.count tr + 1 := by
      have hlt : KeyEras.count tr + 1 < 2 ^ 48 := hn.1
      have hpn := h.counter
      have hsum : (d.ccmpTxPn + 1).toNat = (d.ccmpTxPn.toNat + 1) % 2 ^ 64 := UInt64.toNat_add _ _
      omega
    have hkey := h.ready (hsends.ready aes mac)
    rw [hcount]
    exact {
      valid := .sent h.valid hkey
      ready := fun _ => hkey
      own := h.own
      counter := hcount
      begun := fun hph => (h.begun hph).imp fun _ hmem => List.mem_cons_of_mem _ hmem
      keyed := h.keyed
      taken := h.taken }
  · rw [if_neg hsends, if_neg hsends]
    exact h.congr ⟨rfl, rfl, rfl, rfl, rfl⟩ id h.taken

theorem Linked.leave (h : Linked d tr) (hsame : SameCrypto d.toIwlwifiState d'.toIwlwifiState)
    (h1 : d'.phase ≠ .msg1) (h3 : d'.phase ≠ .msg3) : Linked d' tr :=
  h.congr hsame (fun hph => (hph.elim h1 h3).elim) fun hph => (h3 hph).elim

theorem Linked.assocWaited (h : Linked d tr) (privacy : Bool) (ticks : UInt64) :
    Linked (deviceStep aes mac d (.assocWaited privacy ticks)).1
      (deviceEvents aes mac d (.assocWaited privacy ticks) ++ tr) := by
  rw [deviceStep, deviceEvents]
  rcases hphase : d.phase with _ | r | r | _ | _
  · exact h
  · exact h
  · dsimp only
    obtain ⟨rc, -, -, hd⟩ | ⟨-, hd⟩ | ⟨pmk, snonce, -, hd⟩ := assocWaited_cases d r privacy ticks
    · rw [hd, if_neg (by simp [fail])]
      exact h.leave ⟨rfl, rfl, rfl, rfl, rfl⟩ (by simp [fail]) (by simp [fail])
    · rw [hd, if_neg (by simp [succeed])]
      exact h.leave ⟨rfl, rfl, rfl, rfl, rfl⟩ (by simp [succeed]) (by simp [succeed])
    · rw [hd, if_pos rfl]
      exact {
        valid := .begun _ h.valid
        ready := h.ready
        own := fun _ => rfl
        counter := h.counter
        begun := fun _ => ⟨_, List.mem_cons_self⟩
        keyed := fun _ hmark => by cases hmark
        taken := fun hph => by cases hph }
  · exact h
  · exact h

theorem Linked.msg1Waited (h : Linked d tr) :
    Linked (deviceStep aes mac d .msg1Waited).1 (deviceEvents aes mac d .msg1Waited ++ tr) := by
  rw [deviceStep, deviceEvents]
  rcases hphase : d.phase with _ | r | r | _ | _
  · exact h
  · exact h
  · exact h
  · dsimp only
    rw [Wifi.msg1Waited]
    split_ifs with hmark
    · exact h.congr ⟨rfl, rfl, rfl, rfl, rfl⟩ (fun _ => .inl hphase) fun _ => hmark
    · exact h.leave ⟨rfl, rfl, rfl, rfl, rfl⟩ (by simp [fail]) (by simp [fail])
  · exact h

theorem Linked.msg3Waited (h : Linked d tr) (installed : Bool) :
    Linked (deviceStep aes mac d (.msg3Waited installed)).1
      (deviceEvents aes mac d (.msg3Waited installed) ++ tr) := by
  rw [deviceStep, deviceEvents]
  rcases hphase : d.phase with _ | r | r | _ | _
  · exact h
  · exact h
  · exact h
  · exact h
  · dsimp only
    obtain ⟨rc, hrc, -, hd⟩ | ⟨-, hd⟩ := msg3Waited_cases d installed
    · rw [hd, if_neg (by simp [fail, hrc.ne])]
      exact h.leave ⟨rfl, rfl, rfl, rfl, rfl⟩ (by simp [fail]) (by simp [fail])
    · rw [hd, if_pos (by simp [succeed])]
      have hkeyed : Keyed tr := h.keyed (.inr hphase) (h.taken hphase)
      exact {
        valid := .reset h.valid (h.begun (.inr hphase)) hkeyed
        ready := h.ready
        own := h.own
        counter := rfl
        begun := fun hph => by simp [succeed] at hph
        keyed := fun hph => by simp [succeed] at hph
        taken := fun hph => by simp [succeed] at hph }

theorem Linked.associate (h : Linked d tr) (r : Request) (start : ℤ) (aps : List IwlwifiAp)
    (configured sent : Bool) :
    Linked (deviceStep aes mac d (.associate r start aps configured sent)).1
      (deviceEvents aes mac d (.associate r start aps configured sent) ++ tr) := by
  rw [deviceStep, deviceEvents]
  rcases hphase : d.phase with _ | _ | _ | _ | _
  · dsimp only
    obtain ⟨-, rc, hd⟩ | ⟨ap, status, seq, -, hd⟩ :=
      beginAssociate_spec d r start aps configured sent
    · rw [hd]
      exact h
    · rw [hd]
      refine h.leave ⟨rfl, rfl, rfl, rfl, rfl⟩ ?_ ?_
      · dsimp only
        split_ifs
        · simp
        · simp [hphase]
      · dsimp only
        split_ifs
        · simp
        · simp [hphase]
  · exact h
  · exact h
  · exact h
  · exact h

theorem Linked.authWaited (h : Linked d tr) (sent : Bool) :
    Linked (deviceStep aes mac d (.authWaited sent)).1
      (deviceEvents aes mac d (.authWaited sent) ++ tr) := by
  rw [deviceStep, deviceEvents]
  rcases hphase : d.phase with _ | r | _ | _ | _
  · exact h
  · dsimp only
    obtain ⟨done, status, aid, seq, ⟨rc, -, hd⟩ | hd⟩ := authWaited_cases d r sent
    · rw [hd]
      exact h.leave ⟨rfl, rfl, rfl, rfl, rfl⟩ (by simp [fail]) (by simp [fail])
    · rw [hd]
      exact h.leave ⟨rfl, rfl, rfl, rfl, rfl⟩ (by simp) (by simp)
  · exact h
  · exact h
  · exact h

/-- **A step**: the driver and the record agree after it. -/
theorem Linked.step (h : Linked d tr) (s : Step)
    (hn : Few (2 ^ 48) (deviceEvents aes mac d s ++ tr)) :
    Linked (deviceStep aes mac d s).1 (deviceEvents aes mac d s ++ tr) := by
  cases s with
  | receive apKnown callback ok ticks frame => exact h.receive apKnown callback ok ticks frame
  | transmit eth rc => exact h.transmit eth rc hn
  | associate r start aps configured sent => exact h.associate r start aps configured sent
  | authWaited sent => exact h.authWaited sent
  | assocWaited privacy ticks => exact h.assocWaited privacy ticks
  | msg1Waited => exact h.msg1Waited
  | msg3Waited installed => exact h.msg3Waited installed

/-! ### Runs -/

/-- **The driver and the record agree in every run.** -/
theorem Linked.run (h : Linked d tr) (steps : List Step)
    (hn : Few (2 ^ 48) (record aes mac d steps ++ tr)) :
    Linked (runDevice aes mac d steps) (record aes mac d steps ++ tr) := by
  induction steps generalizing d tr with
  | nil => exact h
  | cons s steps ih =>
    rw [record, List.append_assoc] at hn ⊢
    exact ih (h.step s (KeyEras.few_of_append hn)) hn

variable (aes mac) in
/-- **No two frames have one key and one number**, whatever is received, sent and tried in whatever order:
when the nonce of each exchange is new, keys tell pairs of nonces apart, nothing is sent between the first
message of an exchange and its end, and fewer than `2 ^ 48` frames are sent between two resets. -/
theorem nodup_sentFrames (modern : Bool) (steps : List Step)
    (hfresh : Fresh (record aes mac (bootDevice modern) steps))
    (hdistinct : Distinct (record aes mac (bootDevice modern) steps))
    (hquiet : Quiet (record aes mac (bootDevice modern) steps))
    (hfew : Few (2 ^ 48) (record aes mac (bootDevice modern) steps)) :
    (frames (2 ^ 48) (record aes mac (bootDevice modern) steps)).Nodup := by
  have hlinked : Linked (runDevice aes mac (bootDevice modern) steps)
      (record aes mac (bootDevice modern) steps ++ []) :=
    (linked_boot modern).run steps (by rw [List.append_nil]; exact hfew)
  rw [List.append_nil] at hlinked
  exact KeyEras.nodup_frames hlinked.valid hfresh hdistinct hquiet hfew

/-! ### Without these conditions -/

theorem record_append (aes : Block → Block → Block) (mac : List Byte) (d : Device) (s s' : List Step) :
    record aes mac d (s ++ s') =
      record aes mac (runDevice aes mac d s) s' ++ record aes mac d s := by
  induction s generalizing d with
  | nil => exact (List.append_nil _).symm
  | cons step s ih =>
    rw [List.cons_append, record, record, ih, List.append_assoc]
    rfl

@[simp] theorem runDevice_singleton (aes : Block → Block → Block) (mac : List Byte) (d : Device)
    (s : Step) : runDevice aes mac d [s] = (deviceStep aes mac d s).1 := rfl

@[simp] theorem record_singleton (aes : Block → Block → Block) (mac : List Byte) (d : Device)
    (s : Step) : record aes mac d [s] = deviceEvents aes mac d s := rfl

def sampleBssid : List Byte := List.replicate 6 9

def sampleSnonce : List Byte :=
  (iwlMakeSnonce sampleAddr 0 { bootIwlwifi with bssid := sampleBssid }).wpaSnonce

theorem sampleSnonce_ne : sampleSnonce.getD 0 0 ≠ 0 := by
  simp only [sampleSnonce, iwlMakeSnonce, tnuSha1_eq, sha1, sha1Transform_eq]
  decide +kernel

def samplePtk (pmk : List Byte) (b : Byte) : List Byte :=
  pairwiseKey pmk sampleAddr sampleBssid sampleSnonce (sampleNonce b)

def sampleKey (pmk : List Byte) (b : Byte) : Block := Ccm.pack ((samplePtk pmk b).drop 32)

def noPmk : List Byte := List.replicate 32 0

theorem sampleKey_ne : sampleKey noPmk 0xaa ≠ sampleKey noPmk 0xbb := by
  have hsha1 : sha1 = fun m =>
      let s := Digest.hash sha1Along sha1Init.h m
      [s.a, s.b, s.c, s.d, s.e].flatMap fun x => Bytes.be 4 x.toNat := by
    funext m
    rw [sha1, sha1Transform_eq]
  simp only [sampleKey, samplePtk, pairwiseKey, sampleSnonce, iwlMakeSnonce, tnuWpaPrf, tnuSha1_eq, tnuHmacSha1_eq, hsha1]
  decide +kernel

def dataFrame (eapol : List Byte) : List Byte :=
  [0x08, 0x02] ++ List.replicate 22 0 ++ [0xaa, 0xaa, 0x03, 0, 0, 0, 0x88, 0x8e] ++ eapol

def authFrame : List Byte := [0xb0] ++ List.replicate 25 0 ++ [2] ++ List.replicate 9 0

def assocFrame : List Byte := [0x10] ++ List.replicate 35 0

/-- A frame comes in, while nothing of it is wanted by the network stack. -/
def receive (frame : List Byte) : Step := .receive true false true 0 frame

def joinOpen : List Step :=
  [.associate ⟨[65], []⟩ 0 [⟨[65], sampleBssid, 6⟩] true true, receive authFrame, .authWaited true,
    receive assocFrame, .assocWaited false 0]

def sampleTransmit : Step := .transmit (List.replicate 14 0) 0

def sampleReceive (b : Byte) : Step := receive (dataFrame (sampleMsg1 1 b))

variable {b c : Byte} {pmk : List Byte}

theorem deviceStep_dataFrame (aes : Block → Block → Block) (mac : List Byte) (d : Device)
    (eapol : List Byte) :
    deviceStep aes mac d (receive (dataFrame eapol)) =
        ({ d with toIwlwifiState := (iwlHandleEapolKey mac true 0 d.toIwlwifiState eapol).1 }, none) ∧
      deviceEvents aes mac d (receive (dataFrame eapol)) =
        eapolEvents mac 0 d.toIwlwifiState eapol := by
  have h0 : (dataFrame eapol).getD 0 0 = 0x08 := rfl
  have h1 : (dataFrame eapol).getD 1 0 = 0x02 := rfl
  have hdata : IsData (dataFrame eapol) := by
    rw [IsData, h0]
    decide
  have hlen : ¬ (dataFrame eapol).length < hdrLen3 + 8 := by
    have h24 : hdrLen3 = 24 := rfl
    simp only [dataFrame, List.length_append, List.length_cons, List.length_nil, List.length_replicate]
    omega
  have hpayload : rxPayload aes d.toIwlwifiState (dataFrame eapol) =
      some ([0xaa, 0xaa, 0x03, 0, 0, 0, 0x88, 0x8e] ++ eapol) := by
    have hplain : protectedBit (dataFrame eapol) = false := by
      rw [protectedBit, h1]
      decide
    have hhdr : rxHdrLen (dataFrame eapol) = 24 := by
      rw [rxHdrLen, h0]
      decide
    rw [rxPayload, hplain, hhdr]
    rfl
  have hllc : LlcSnap ([0xaa, 0xaa, 0x03, 0, 0, 0, 0x88, 0x8e] ++ eapol) :=
    ⟨by simp, rfl, rfl, rfl, by simp⟩
  have heapol : eapolOf aes true d.toIwlwifiState (dataFrame eapol) = some eapol := by
    rw [eapolOf, if_neg (not_or.2 ⟨hlen, not_not.2 hdata⟩), hpayload]
    have htype : be16At ([0xaa, 0xaa, 0x03, 0, 0, 0, 0x88, 0x8e] ++ eapol) 6 = ethTypeEapol := by
      show (0x88 : Byte).toUInt16 <<< 8 ||| (0x8e : Byte).toUInt16 = 0x888e
      decide
    exact if_pos ⟨hllc, htype, rfl⟩
  constructor
  · rw [receive, deviceStep, iwlHandleMpdu, if_pos hdata, iwlParseDataFrame_fst]
    dsimp only
    rw [heapol]
  · rw [receive, deviceEvents, heapol]

/-- A link to the access point, with the key from a nonce of it. -/
structure OnAir (pmk : List Byte) (d : Device) (b : Byte) : Prop where
  link : d.associated = true ∧ d.linkReady = true
  bssid : d.bssid = sampleBssid
  master : d.wpaPmk = pmk
  ready : d.wpaPtkReady = true
  snonce : d.wpaSnonce = sampleSnonce
  ptk : d.wpaPtk = samplePtk pmk b

theorem OnAir.tk (h : OnAir pmk d b) : d.tk = sampleKey pmk b := by
  rw [IwlwifiState.tk, h.ptk, sampleKey]

theorem OnAir.protects (h : OnAir pmk d b) (aes : Block → Block → Block) :
    Protects aes sampleAddr d (List.replicate 14 0) := by
  refine ⟨h.link, by simp, ?_⟩
  have hlen : (wifiFrame sampleAddr d (List.replicate 14 0)).length = 32 := by
    simp [wifiFrame, h.bssid, sampleBssid, sampleAddr]
  rw [protectedFrame, iwlCcmpEncryptFrame, hlen, if_neg (by simp [hdrLen3, protectedSize, h.ready])]
  simp [ccmpHeader]

theorem OnAir.transmit (h : OnAir pmk d b) (aes : Block → Block → Block) :
    OnAir pmk (deviceStep aes sampleAddr d sampleTransmit).1 b ∧
      (deviceStep aes sampleAddr d sampleTransmit).1.ccmpTxPn = d.ccmpTxPn + 1 ∧
      (deviceStep aes sampleAddr d sampleTransmit).1.phase = d.phase ∧
      (deviceStep aes sampleAddr d sampleTransmit).1.wpaKeyMsg1 = d.wpaKeyMsg1 ∧
      deviceEvents aes sampleAddr d sampleTransmit = [.sent (sampleKey pmk b) (d.ccmpTxPn + 1).toNat] := by
  obtain ⟨seq, hd⟩ := iwlwifiTransmit_eq aes sampleAddr 0 d (List.replicate 14 0)
  rw [if_pos (h.protects aes)] at hd
  rw [sampleTransmit, deviceStep, deviceEvents, if_pos (h.protects aes), h.tk]
  dsimp only
  rw [hd]
  exact ⟨⟨h.link, h.bssid, h.master, h.ready, h.snonce, h.ptk⟩, rfl, rfl, rfl, rfl⟩

def AllSent (k : Block) (l : List (Event (List Byte) Block)) : Prop := ∀ e ∈ l, ∃ pn, e = .sent k pn

theorem AllSent.fresh {k : Block} {l : List (Event (List Byte) Block)} (h : AllSent k l)
    (hf : Fresh tr) : Fresh (l ++ tr) := by
  induction l with
  | nil => exact hf
  | cons e l ih =>
    obtain ⟨pn, rfl⟩ := h e List.mem_cons_self
    exact ih fun e he => h e (List.mem_cons_of_mem _ he)

theorem AllSent.quiet {k : Block} {l : List (Event (List Byte) Block)} (h : AllSent k l)
    (hq : Quiet tr) : Quiet (l ++ tr) := by
  induction l with
  | nil => exact hq
  | cons e l ih =>
    obtain ⟨pn, rfl⟩ := h e List.mem_cons_self
    exact ih fun e he => h e (List.mem_cons_of_mem _ he)

theorem AllSent.countP {k key : Block} {l : List (Event (List Byte) Block)} (h : AllSent k l)
    (hne : k ≠ key) : l.countP (SentUnder key) = 0 := by
  refine List.countP_eq_zero.2 fun e he => ?_
  obtain ⟨pn, rfl⟩ := h e he
  rw [SentUnder]
  exact decide_eq_true_iff.not.2 hne

theorem OnAir.burst (h : OnAir pmk d b) (aes : Block → Block → Block) (n : ℕ) :
    OnAir pmk (runDevice aes sampleAddr d (List.replicate n sampleTransmit)) b ∧
      (runDevice aes sampleAddr d (List.replicate n sampleTransmit)).ccmpTxPn =
        d.ccmpTxPn + UInt64.ofNat n ∧
      (record aes sampleAddr d (List.replicate n sampleTransmit)).length = n ∧
      AllSent (sampleKey pmk b) (record aes sampleAddr d (List.replicate n sampleTransmit)) ∧
      (0 < n → .sent (sampleKey pmk b) (d.ccmpTxPn + 1).toNat ∈
        record aes sampleAddr d (List.replicate n sampleTransmit)) := by
  induction n generalizing d with
  | zero => exact ⟨h, (UInt64.add_zero _).symm, rfl, fun e he => (by cases he), fun h0 => by cases h0⟩
  | succ n ih =>
    obtain ⟨hair, hpn, -, -, hevents⟩ := h.transmit aes
    obtain ⟨hair', hpn', hlen, hsent, -⟩ := ih hair
    rw [List.replicate_succ, record, hevents]
    refine ⟨hair', ?_, ?_, ?_, fun _ => List.mem_append_right _ List.mem_cons_self⟩
    · rw [runDevice, List.foldl_cons]
      rw [runDevice] at hpn'
      rw [hpn', hpn, UInt64.add_assoc, UInt64.ofNat_add, UInt64.add_comm 1]
      rfl
    · rw [List.length_append, hlen]
      rfl
    · intro e he
      obtain he | he := List.mem_append.1 he
      · exact hsent e he
      · exact ⟨_, List.mem_singleton.1 he⟩

theorem takeMsg1_sample {st : IwlwifiState} (hpmk : st.wpaPmk = pmk) (hbssid : st.bssid = sampleBssid)
    (hsnonce : st.wpaSnonce.getD 0 0 = 0 ∨ st.wpaSnonce = sampleSnonce) (c : Byte) :
    takeMsg1 sampleAddr 0 st (sampleMsg1 1 c) =
      { st with
        wpaAnonce := sampleNonce c
        wpaReplayCounter := replayOf (sampleMsg1 1 c)
        wpaSnonce := sampleSnonce
        wpaPtk := samplePtk pmk c
        wpaPtkReady := true } := by
  have hmade : (iwlMakeSnonce sampleAddr 0 { st with
      wpaAnonce := nonceOf (sampleMsg1 1 c), wpaReplayCounter := replayOf (sampleMsg1 1 c) }) =
      { st with
        wpaAnonce := nonceOf (sampleMsg1 1 c)
        wpaReplayCounter := replayOf (sampleMsg1 1 c)
        wpaSnonce := sampleSnonce } := by
    rw [iwlMakeSnonce, sampleSnonce, iwlMakeSnonce]
    dsimp only
    rw [hbssid]
  rw [takeMsg1, hmade]
  dsimp only
  obtain hzero | hsnonce := hsnonce
  · rw [if_pos hzero, iwlDerivePtk]
    dsimp only
    rw [hpmk, hbssid]
    rfl
  · rw [if_neg (by rw [hsnonce]; exact sampleSnonce_ne), iwlDerivePtk]
    dsimp only
    rw [hpmk, hbssid, hsnonce]
    rfl

theorem onAir_msg1 (aes : Block → Block → Block) (hlink : d.associated = true ∧ d.linkReady = true)
    (hpmk : d.wpaPmk = pmk) (hbssid : d.bssid = sampleBssid)
    (hsnonce : d.wpaSnonce.getD 0 0 = 0 ∨ d.wpaSnonce = sampleSnonce) (c : Byte) :
    OnAir pmk (deviceStep aes sampleAddr d (sampleReceive c)).1 c ∧
      (deviceStep aes sampleAddr d (sampleReceive c)).1.ccmpTxPn = d.ccmpTxPn ∧
      (deviceStep aes sampleAddr d (sampleReceive c)).1.phase = d.phase ∧
      (deviceStep aes sampleAddr d (sampleReceive c)).1.wpaKeyMsg1 = true ∧
      deviceEvents aes sampleAddr d (sampleReceive c) =
        .derived sampleSnonce (sampleNonce c) (sampleKey pmk c) ::
          if d.wpaSnonce.getD 0 0 = 0 then [.remade sampleSnonce] else [] := by
  obtain ⟨hd, hevents⟩ := deviceStep_dataFrame aes sampleAddr d (sampleMsg1 1 c)
  obtain ⟨seq, mark, hst, -⟩ :=
    iwlHandleEapolKey_of_msg1 sampleAddr true 0 d.toIwlwifiState (isMsg1_sampleMsg1 1 c)
  have hmark := (answered_msg1 sampleAddr 0 d.toIwlwifiState (isMsg1_sampleMsg1 1 c)).2
  rw [hst] at hmark
  rw [sampleReceive, hd, hevents, hst, eapolEvents, if_pos (isMsg1_sampleMsg1 1 c),
    takeMsg1_sample hpmk hbssid hsnonce]
  dsimp only
  exact ⟨⟨hlink, hbssid, hpmk, rfl, by dsimp only, by dsimp only⟩, rfl, rfl, hmark,
    by rw [IwlwifiState.tk, sampleKey]⟩

theorem OnAir.msg1 (h : OnAir pmk d b) (aes : Block → Block → Block) (c : Byte) :
    OnAir pmk (deviceStep aes sampleAddr d (sampleReceive c)).1 c ∧
      (deviceStep aes sampleAddr d (sampleReceive c)).1.ccmpTxPn = d.ccmpTxPn ∧
      deviceEvents aes sampleAddr d (sampleReceive c) =
        [.derived sampleSnonce (sampleNonce c) (sampleKey pmk c)] := by
  obtain ⟨hair, hpn, -, -, hevents⟩ := onAir_msg1 aes h.link h.master h.bssid (.inr h.snonce) c
  rw [if_neg (by rw [h.snonce]; exact sampleSnonce_ne)] at hevents
  exact ⟨hair, hpn, hevents⟩

def busySteps (n : ℕ) : List Step :=
  joinOpen ++ ([sampleReceive 0xaa] ++ (List.replicate n sampleTransmit ++ ([sampleReceive 0xbb] ++
    (List.replicate n sampleTransmit ++ ([sampleReceive 0xaa] ++ [sampleTransmit])))))

theorem record_busySteps (aes : Block → Block → Block) {n : ℕ} (hn : 0 < n) :
    ∃ l l', AllSent (sampleKey noPmk 0xaa) l ∧ l.length = n ∧ .sent (sampleKey noPmk 0xaa) 1 ∈ l ∧
      AllSent (sampleKey noPmk 0xbb) l' ∧ l'.length = n ∧
      record aes sampleAddr (bootDevice true) (busySteps n) =
        .sent (sampleKey noPmk 0xaa) (UInt64.ofNat n + UInt64.ofNat n + 1).toNat ::
          .derived sampleSnonce (sampleNonce 0xaa) (sampleKey noPmk 0xaa) ::
            (l' ++ .derived sampleSnonce (sampleNonce 0xbb) (sampleKey noPmk 0xbb) ::
              (l ++ [.derived sampleSnonce (sampleNonce 0xaa) (sampleKey noPmk 0xaa),
                .remade sampleSnonce])) := by
  have hjoin : record aes sampleAddr (bootDevice true) joinOpen = [] := rfl
  rw [busySteps, record_append, hjoin, List.append_nil]
  generalize hjoined : runDevice aes sampleAddr (bootDevice true) joinOpen = d
  have hlink : d.associated = true ∧ d.linkReady = true := by
    rw [← hjoined]
    exact ⟨rfl, rfl⟩
  have hbssid : d.bssid = sampleBssid := by
    rw [← hjoined]
    rfl
  have hboot : d.wpaPmk = noPmk ∧ d.wpaSnonce.getD 0 0 = 0 ∧ d.ccmpTxPn = 0 := by
    rw [← hjoined]
    exact ⟨rfl, rfl, rfl⟩
  obtain ⟨hair, hpn, -, -, hevents⟩ := onAir_msg1 aes hlink hboot.1 hbssid (.inl hboot.2.1) 0xaa
  rw [if_pos hboot.2.1] at hevents
  rw [hboot.2.2] at hpn
  -- a first message, many frames, another first message, as many frames, the first message again
  obtain ⟨hair₁, hpn₁, hlen₁, hsent₁, hfirst⟩ := hair.burst aes n
  obtain ⟨hair₂, hpn₂, hevents₂⟩ := hair₁.msg1 aes 0xbb
  obtain ⟨hair₃, hpn₃, hlen₃, hsent₃, -⟩ := hair₂.burst aes n
  obtain ⟨hair₄, hpn₄, hevents₄⟩ := hair₃.msg1 aes 0xaa
  obtain ⟨-, -, -, -, hevents₅⟩ := hair₄.transmit aes
  rw [hpn₄, hpn₃, hpn₂, hpn₁, hpn, UInt64.zero_add] at hevents₅
  rw [hpn] at hfirst
  refine ⟨_, _, hsent₁, hlen₁, hfirst hn, hsent₃, hlen₃, ?_⟩
  simp only [record_append, record_singleton, runDevice_singleton, hevents, hevents₂, hevents₄,
    hevents₅, List.append_assoc]
  rfl

theorem OnAir.msg3 (h : OnAir pmk d b) (aes : Block → Block → Block) :
    let s := receive (dataFrame (protectFrame (samplePtk pmk b) 0x13ca 2 (sampleNonce b)))
    OnAir pmk (deviceStep aes sampleAddr d s).1 b ∧
      (deviceStep aes sampleAddr d s).1.wpaKeyMsg3 = true ∧
      (deviceStep aes sampleAddr d s).1.phase = d.phase ∧ deviceEvents aes sampleAddr d s = [] := by
  obtain ⟨hd, hevents⟩ := deviceStep_dataFrame aes sampleAddr d
    (protectFrame (samplePtk pmk b) 0x13ca 2 (sampleNonce b))
  have h3 := isMsg3_protectFrame (samplePtk pmk b) 2 b
  have hnot : ¬ IsMsg1 (protectFrame (samplePtk pmk b) 0x13ca 2 (sampleNonce b)) := fun h1 => by
    have hmic := h1.2.2
    rw [h3.2.2.1] at hmic
    cases hmic
  obtain ⟨seq, mark, replay, hst⟩ :=
    iwlHandleEapolKey_of_not_msg1 sampleAddr true 0 d.toIwlwifiState hnot
  have hmark : (iwlHandleEapolKey sampleAddr true 0 d.toIwlwifiState
      (protectFrame (samplePtk pmk b) 0x13ca 2 (sampleNonce b))).1.wpaKeyMsg3 = true := by
    have hdeliver := (deliver_msg3 sampleAddr h.ready 2 b).1
    rw [h.ptk] at hdeliver
    exact hdeliver
  rw [hst] at hmark
  dsimp only
  rw [hd, hevents, hst, eapolEvents, if_neg hnot]
  exact ⟨⟨h.link, h.bssid, h.master, h.ready, h.snonce, h.ptk⟩, hmark, rfl, rfl⟩

def sampleRequest : Request := ⟨[65], [49]⟩

def samplePmk : List Byte := tnuWpaPmkFromPassphrase [49] [65]

def joinProtected : List Step :=
  [.associate sampleRequest 0 [⟨[65], sampleBssid, 6⟩] true true, receive authFrame, .authWaited true,
    receive assocFrame]

/-- A frame is sent between the first message and the end of an exchange, and another one after it. -/
def eagerExchange : List Step :=
  [sampleReceive 0xaa, sampleTransmit, .msg1Waited,
    receive (dataFrame (protectFrame (samplePtk samplePmk 0xaa) 0x13ca 2 (sampleNonce 0xaa))),
    .msg3Waited true, sampleTransmit]

def eagerSteps : List Step := (joinOpen ++ joinProtected) ++ .assocWaited true 0 :: eagerExchange

theorem assocWaited_sample (hdone : d.assocDone = true ∧ d.assocStatus = 0)
    (hbssid : d.bssid = sampleBssid) :
    assocWaited sampleAddr d sampleRequest true 0 =
      ({ d with
          wpaPmk := samplePmk
          wpaSnonce := sampleSnonce
          wpaKeyMsg1 := false
          wpaKeyMsg3 := false
          phase := .msg1 }, none) := by
  rw [assocWaited, if_pos hdone, if_pos (.inl rfl), if_neg (by simp [sampleRequest]), sampleSnonce,
    iwlMakeSnonce, iwlMakeSnonce]
  dsimp only
  rw [hbssid]
  rfl

theorem exchange_begun (aes : Block → Block → Block) (hdone : d.assocDone = true ∧ d.assocStatus = 0)
    (hphase : d.phase = .assoc sampleRequest) (hbssid : d.bssid = sampleBssid) :
    (deviceStep aes sampleAddr d (.assocWaited true 0)).1 =
        { d with
          wpaPmk := samplePmk
          wpaSnonce := sampleSnonce
          wpaKeyMsg1 := false
          wpaKeyMsg3 := false
          phase := .msg1 } ∧
      deviceEvents aes sampleAddr d (.assocWaited true 0) = [.begun sampleSnonce] := by
  have hwait := assocWaited_sample hdone hbssid
  constructor
  · rw [deviceStep, hphase]
    exact congrArg Prod.fst hwait
  · rw [deviceEvents, hphase]
    dsimp only
    rw [hwait, if_pos rfl]

theorem OnAir.msg1Waited (h : OnAir pmk d b) (aes : Block → Block → Block) (hphase : d.phase = .msg1)
    (hmark : d.wpaKeyMsg1 = true) :
    OnAir pmk (deviceStep aes sampleAddr d .msg1Waited).1 b ∧
      (deviceStep aes sampleAddr d .msg1Waited).1.phase = .msg3 ∧
      deviceEvents aes sampleAddr d .msg1Waited = [] := by
  have hstep : deviceStep aes sampleAddr d .msg1Waited = ({ d with phase := .msg3 }, none) := by
    rw [deviceStep, hphase]
    exact if_pos hmark
  rw [hstep]
  exact ⟨⟨h.link, h.bssid, h.master, h.ready, h.snonce, h.ptk⟩, rfl, rfl⟩

theorem OnAir.msg3Waited (h : OnAir pmk d b) (aes : Block → Block → Block) (hphase : d.phase = .msg3)
    (hmark : d.wpaKeyMsg3 = true) :
    OnAir pmk (deviceStep aes sampleAddr d (.msg3Waited true)).1 b ∧
      (deviceStep aes sampleAddr d (.msg3Waited true)).1.ccmpTxPn = 0 ∧
      deviceEvents aes sampleAddr d (.msg3Waited true) = [.reset] := by
  have hwait : Wifi.msg3Waited d true = succeed { d with ccmpTxPn := 0 } := by
    rw [Wifi.msg3Waited, if_pos hmark, if_pos (by simp [iwlInstallPairwiseCcmpKey, h.ready])]
  rw [deviceStep, deviceEvents, hphase]
  dsimp only
  rw [hwait]
  exact ⟨⟨⟨rfl, rfl⟩, h.bssid, h.master, h.ready, h.snonce, h.ptk⟩, rfl, if_pos rfl⟩

theorem record_eagerExchange (aes : Block → Block → Block)
    (hlink : d.associated = true ∧ d.linkReady = true) (hpmk : d.wpaPmk = samplePmk)
    (hbssid : d.bssid = sampleBssid) (hsnonce : d.wpaSnonce = sampleSnonce) (hphase : d.phase = .msg1)
    (hpn : d.ccmpTxPn = 0) :
    record aes sampleAddr d eagerExchange =
      [.sent (sampleKey samplePmk 0xaa) 1, .reset, .sent (sampleKey samplePmk 0xaa) 1,
        .derived sampleSnonce (sampleNonce 0xaa) (sampleKey samplePmk 0xaa)] := by
  obtain ⟨hair₁, hpn₁, hphase₁, hmark₁, hevents₁⟩ :=
    onAir_msg1 aes hlink hpmk hbssid (.inr hsnonce) 0xaa
  have hnonzero : ¬ d.wpaSnonce.getD 0 0 = 0 := by
    rw [hsnonce]
    exact sampleSnonce_ne
  rw [if_neg hnonzero] at hevents₁
  obtain ⟨hair₂, -, hphase₂, hmark₂, hevents₂⟩ := hair₁.transmit aes
  rw [hpn₁, hpn] at hevents₂
  -- the call goes on, up to the end of the exchange, and another frame is sent
  obtain ⟨hair₃, hphase₃, hevents₃⟩ :=
    hair₂.msg1Waited aes (hphase₂.trans (hphase₁.trans hphase)) (hmark₂.trans hmark₁)
  obtain ⟨hair₄, hmark₄, hphase₄, hevents₄⟩ := hair₃.msg3 aes
  obtain ⟨hair₅, hpn₅, hevents₅⟩ := hair₄.msg3Waited aes (hphase₄.trans hphase₃) hmark₄
  obtain ⟨-, -, -, -, hevents₆⟩ := hair₅.transmit aes
  rw [hpn₅] at hevents₆
  rw [eagerExchange, record, hevents₁, record, hevents₂, record, hevents₃, record, hevents₄, record,
    hevents₅, record, hevents₆, record]
  simp only [List.nil_append, List.append_nil, List.cons_append]
  rfl

theorem record_eagerSteps (aes : Block → Block → Block) :
    record aes sampleAddr (bootDevice true) eagerSteps =
      [.sent (sampleKey samplePmk 0xaa) 1, .reset, .sent (sampleKey samplePmk 0xaa) 1,
        .derived sampleSnonce (sampleNonce 0xaa) (sampleKey samplePmk 0xaa), .begun sampleSnonce] := by
  have hjoin : record aes sampleAddr (bootDevice true) (joinOpen ++ joinProtected) = [] := rfl
  rw [eagerSteps, record_append, hjoin, List.append_nil]
  generalize hjoined : runDevice aes sampleAddr (bootDevice true) (joinOpen ++ joinProtected) = d
  have hlink : d.associated = true ∧ d.linkReady = true := by
    rw [← hjoined]
    exact ⟨rfl, rfl⟩
  have hbssid : d.bssid = sampleBssid := by
    rw [← hjoined]
    rfl
  have hassoc : (d.assocDone = true ∧ d.assocStatus = 0) ∧ d.phase = .assoc sampleRequest ∧
      d.ccmpTxPn = 0 := by
    rw [← hjoined]
    exact ⟨⟨rfl, rfl⟩, rfl, rfl⟩
  clear hjoined
  obtain ⟨hdone, hphase, hzero⟩ := hassoc
  obtain ⟨hd, hevents⟩ := exchange_begun aes hdone hphase hbssid
  rw [record, hevents, hd, record_eagerExchange aes]
  · simp only [List.cons_append, List.nil_append]
  · exact hlink
  · dsimp only
  · exact hbssid
  · dsimp only
  · dsimp only
  · exact hzero

def sampleRecord (steps : List Step) : List (Event (List Byte) Block) :=
  record tnuAes128EncryptBlock sampleAddr (bootDevice true) steps

theorem mem_frames_of_sent {N pn : ℕ} {k : Block} (h : .sent k pn ∈ tr) :
    (k, pn % N) ∈ frames N tr := by
  induction tr with
  | nil => cases h
  | cons e tr ih =>
    obtain rfl | hmem := List.mem_cons.1 h
    · exact List.mem_cons_self
    · cases e with
      | sent k' pn' => exact List.mem_cons_of_mem _ (ih hmem)
      | begun s => exact ih hmem
      | remade s => exact ih hmem
      | derived s a k' => exact ih hmem
      | reset => exact ih hmem

section Busy

variable {l l' : List (Event (List Byte) Block)}

/-- What is left of the run with two keys, when its last frame has the number `pn`. -/
def busyRecord (pn : ℕ) (l l' : List (Event (List Byte) Block)) : List (Event (List Byte) Block) :=
  .sent (sampleKey noPmk 0xaa) pn :: .derived sampleSnonce (sampleNonce 0xaa) (sampleKey noPmk 0xaa) ::
    (l' ++ .derived sampleSnonce (sampleNonce 0xbb) (sampleKey noPmk 0xbb) ::
      (l ++ [.derived sampleSnonce (sampleNonce 0xaa) (sampleKey noPmk 0xaa), .remade sampleSnonce]))

theorem AllSent.notMem {k key : Block} {s a : List Byte} (h : AllSent k l) :
    .derived s a key ∉ l := fun hmem => by
  obtain ⟨pn, heq⟩ := h _ hmem
  cases heq

theorem distinct_busy {pn : ℕ} (hl : AllSent (sampleKey noPmk 0xaa) l)
    (hl' : AllSent (sampleKey noPmk 0xbb) l') : Distinct (busyRecord pn l l') := by
  have hcases : ∀ {s a k}, Event.derived s a k ∈ busyRecord pn l l' →
      s = sampleSnonce ∧ (a = sampleNonce 0xaa ∧ k = sampleKey noPmk 0xaa ∨
        a = sampleNonce 0xbb ∧ k = sampleKey noPmk 0xbb) := by
    intro s a k hmem
    simp only [busyRecord, List.mem_cons, List.mem_append, hl.notMem, hl'.notMem, false_or,
      Event.derived.injEq, reduceCtorEq, List.not_mem_nil, or_false] at hmem
    obtain ⟨rfl, rfl, rfl⟩ | ⟨rfl, rfl, rfl⟩ | ⟨rfl, rfl, rfl⟩ := hmem
    · exact ⟨rfl, .inl ⟨rfl, rfl⟩⟩
    · exact ⟨rfl, .inr ⟨rfl, rfl⟩⟩
    · exact ⟨rfl, .inl ⟨rfl, rfl⟩⟩
  intro s a s' a' k hmem hmem'
  obtain ⟨rfl, ⟨rfl, hk⟩ | ⟨rfl, hk⟩⟩ := hcases hmem
  · obtain ⟨rfl, ⟨rfl, -⟩ | ⟨-, hk'⟩⟩ := hcases hmem'
    · rfl
    · exact absurd (hk.symm.trans hk') sampleKey_ne
  · obtain ⟨rfl, ⟨-, hk'⟩ | ⟨rfl, -⟩⟩ := hcases hmem'
    · exact absurd (hk'.symm.trans hk) sampleKey_ne
    · rfl

theorem fewPerKey_busy {pn : ℕ} (hl : AllSent (sampleKey noPmk 0xaa) l)
    (hl' : AllSent (sampleKey noPmk 0xbb) l') (hlen : l.length = 2 ^ 47) (hlen' : l'.length = 2 ^ 47) :
    FewPerKey (busyRecord pn l l') := by
  intro key
  have hle : l.countP (SentUnder key) ≤ 2 ^ 47 := hlen ▸ List.countP_le_length
  have hle' : l'.countP (SentUnder key) ≤ 2 ^ 47 := hlen' ▸ List.countP_le_length
  rw [busyRecord]
  by_cases hkey : sampleKey noPmk 0xaa = key
  · have hzero : l'.countP (SentUnder key) = 0 := hl'.countP fun h => sampleKey_ne (hkey.trans h.symm)
    simp only [List.countP_cons, List.countP_append, List.countP_nil, SentUnder, hzero, hkey,
      decide_true, if_true, Bool.false_eq_true, if_false]
    omega
  · have hzero : l.countP (SentUnder key) = 0 := hl.countP hkey
    simp only [List.countP_cons, List.countP_append, List.countP_nil, SentUnder, hzero, hkey,
      decide_false, Bool.false_eq_true, if_false]
    omega

end Busy

theorem nodup_sentFrames_busy : (frames (2 ^ 48) (sampleRecord (busySteps 1))).Nodup := by
  obtain ⟨l, l', hl, hlen, -, hl', hlen', hrecord⟩ :=
    record_busySteps tnuAes128EncryptBlock (n := 1) Nat.one_pos
  obtain ⟨e, rfl⟩ := List.length_eq_one_iff.1 hlen
  obtain ⟨e', rfl⟩ := List.length_eq_one_iff.1 hlen'
  obtain ⟨pn, rfl⟩ := hl e List.mem_cons_self
  obtain ⟨pn', rfl⟩ := hl' e' List.mem_cons_self
  refine nodup_sentFrames tnuAes128EncryptBlock sampleAddr true (busySteps 1) ?_ ?_ ?_ ?_
  · rw [hrecord]
    exact ⟨by simp [KeyEras.seen, KeyEras.before], trivial⟩
  · rw [hrecord]
    exact distinct_busy hl hl'
  · rw [hrecord]
    trivial
  · rw [hrecord]
    exact ⟨by simp [KeyEras.count], by simp [KeyEras.count], by simp [KeyEras.count], trivial⟩

/-- **Few frames under each key are not enough**: the count runs over when two keys are used in turn, and a
frame that is sent too early in an exchange has the number of a later one. -/
theorem not_nodup_sentFrames :
    (¬ ∀ steps, Fresh (sampleRecord steps) → Distinct (sampleRecord steps) →
      FewPerKey (sampleRecord steps) → Quiet (sampleRecord steps) →
      (frames (2 ^ 48) (sampleRecord steps)).Nodup) ∧
    ¬ ∀ steps, Fresh (sampleRecord steps) → Distinct (sampleRecord steps) →
      FewPerKey (sampleRecord steps) → Few (2 ^ 48) (sampleRecord steps) →
      (frames (2 ^ 48) (sampleRecord steps)).Nodup := by
  constructor
  · intro h
    obtain ⟨l, l', hl, hlen, hfirst, hl', hlen', hrecord⟩ :=
      record_busySteps tnuAes128EncryptBlock (n := 2 ^ 47) (by norm_num)
    specialize h (busySteps (2 ^ 47))
    rw [sampleRecord, hrecord] at h
    -- the last frame has the number of the first one
    have hnumber : (UInt64.ofNat (2 ^ 47) + UInt64.ofNat (2 ^ 47) + 1).toNat % 2 ^ 48 = 1 % 2 ^ 48 := by
      decide
    refine (List.nodup_cons.1 (h ?_ ?_ ?_ ?_)).1 ?_
    · exact hl'.fresh (hl.fresh ⟨by simp [KeyEras.seen, KeyEras.before], trivial⟩)
    · exact distinct_busy hl hl'
    · exact fewPerKey_busy hl hl' hlen hlen'
    · exact hl'.quiet (hl.quiet trivial)
    · rw [hnumber]
      refine mem_frames_of_sent (List.mem_cons_of_mem _ (List.mem_append_right _ ?_))
      exact List.mem_cons_of_mem _ (List.mem_append_left _ hfirst)
  · intro h
    specialize h eagerSteps
    rw [sampleRecord, record_eagerSteps] at h
    have hdistinct : Distinct [Event.sent (sampleKey samplePmk 0xaa) 1, .reset,
        .sent (sampleKey samplePmk 0xaa) 1,
        .derived sampleSnonce (sampleNonce 0xaa) (sampleKey samplePmk 0xaa), .begun sampleSnonce] := by
      intro s a s' a' k hmem hmem'
      obtain ⟨rfl, rfl, -⟩ : s = sampleSnonce ∧ a = sampleNonce 0xaa ∧ _ := by simpa using hmem
      obtain ⟨rfl, rfl, -⟩ : s' = sampleSnonce ∧ a' = sampleNonce 0xaa ∧ _ := by simpa using hmem'
      rfl
    have hnodup := h ⟨by simp [KeyEras.seen], trivial⟩ hdistinct
      (fun key => lt_of_le_of_lt List.countP_le_length (by simp))
      ⟨by simp [KeyEras.count], by simp [KeyEras.count], trivial⟩
    simp [frames] at hnodup

end Tnu.Wifi
