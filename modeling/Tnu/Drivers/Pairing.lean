/-
**The events of the keyboard device.**

A program that reads the event device takes a key to be down from the event of its press to the event
of its release.  The driver looks the code of a release up in the state of its moment, so the release of
a key can carry another code than its press did; and the two scancode sets do not have the same keys.

Main result:

* `pairingLaw_of_safeSteps` — **the law holds in every safe session**.
-/

import Tnu.Drivers.Actions
import Tnu.Lib.Closing

set_option autoImplicit false

namespace Tnu.Drivers

open Closing

/-! ### Sessions -/

/-- The driver, the keys that were handed to the terminal, and the events that were read. -/
structure KeySession where
  kb : Keyboard
  chars : List ℤ
  read : List UInt16

def startSession (raw : Bool) : KeySession := ⟨keyboardInit raw, [], []⟩

/-- What happens to the driver: the bytes of a stroke come in, each at a time of its own, or one of the
functions is called by the rest of the kernel. -/
inductive KeyStep
  | stroke (s : Stroke) (times : ℕ → UInt64)
  | getchar
  | getEvent
  | consumeInterrupt
  | ackInterrupt
  | setLayout (layout : Layout)
  | reset

/-- One step, in the encoding `bytes`. -/
def KeyStep.apply (bytes : Stroke → List Byte) (s : KeySession) : KeyStep → KeySession
  | .stroke k times => { s with kb := feed s.kb (timed times (bytes k)) }
  | .getchar =>
    { s with kb := (keyboardTryGetchar s.kb).1, chars := s.chars ++ (keyboardTryGetchar s.kb).2.toList }
  | .getEvent =>
    { s with kb := (keyboardTryGetEvent s.kb).1, read := s.read ++ (keyboardTryGetEvent s.kb).2.toList }
  | .consumeInterrupt => { s with kb := (keyboardConsumeInterrupt s.kb).1 }
  | .ackInterrupt => { s with kb := keyboardAckInterrupt s.kb }
  | .setLayout layout => { s with kb := keyboardSetLayout s.kb layout }
  | .reset => { s with kb := keyboardResetConsoleState s.kb }

def runKeys (bytes : Stroke → List Byte) (s : KeySession) (steps : List KeyStep) : KeySession :=
  steps.foldl (KeyStep.apply bytes) s

def strokesOf (steps : List KeyStep) : List Stroke :=
  steps.filterMap fun
    | .stroke s _ => some s
    | _ => none

/-! ### The law -/

def closeEvent (ev : UInt16) : UInt16 := ev ||| 0x8000

def IsPress (ev : UInt16) : Prop := ev < 0x8000

def KeySession.events (s : KeySession) : List UInt16 := s.read ++ s.kb.events

/-- Both sessions have put out the same. -/
structure SameOutput (s s' : KeySession) : Prop where
  read : s'.read = s.read
  events : s'.kb.events = s.kb.events
  chars : s'.chars = s.chars
  buffer : s'.kb.buffer = s.kb.buffer

/-- **The law**: when all keys are released, every press event is followed by the release event of its
code, in both sets; and the same strokes give the same in both. -/
def PairingLaw (steps : List KeyStep) : Prop :=
  let s₁ := runKeys Stroke.bytes (startSession false) steps
  let s₂ := runKeys Stroke.bytes2 (startSession true) steps
  ((∀ ext code, heldAfter (strokesOf steps) ext code = false) →
    Closed closeEvent IsPress s₁.events ∧ Closed closeEvent IsPress s₂.events) ∧ SameOutput s₁ s₂

/-! ### Safe sessions -/

/-- The characters that the key of a code was pressed for since its last release. -/
abbrev Typed := ℕ → List Byte

def Shortcut (ks : KeyState) (code : ℕ) : Prop :=
  ks.ctrlDown = true ∧ (ks.altDown = true ∧ 0x3b ≤ code ∧ code ≤ 0x40 ∨ code = 0x2e ∨
    ks.shiftDown = true ∧ code = 0x2f ∨ (ctrlLetter ks code).isSome = true)

/-- The press has the code that the release will have, if the character of the key stays: no command,
no character above 127, and behind the prefix neither the Enter key nor an arrow under Shift. -/
def PlainPress (ks : KeyState) (a : KeyAction) : Prop :=
  if a.ext then a.code ≠ 0x1c ∧ (ks.shiftDown = true → a.code ≠ 0x4b ∧ a.code ≠ 0x4d)
  else ¬ Shortcut ks a.code ∧ layoutChar ks a.code < 128

/-- The characters pressed, after a call.  A press that finds the key buffer full has no event. -/
def KeyAction.typedAfter (now : UInt64) (kb : Keyboard) (typed : Typed) (a : KeyAction) : Typed :=
  if a.ext then typed
  else if a.up then Function.update typed a.code []
  else if a.Accepted now kb.keys ∧ HasRoom kb then
    Function.update typed a.code (layoutChar kb.keys a.code :: typed a.code)
  else typed

def LosesNone (read events : List UInt16) : Prop :=
  ∀ e ∈ events.take (events.length - (kbdEventBuffer - 1)), ∀ c, IsPress c → closeEvent c = e →
    ¬ OpenIn closeEvent read c

/-- The calls that keep the pairs. -/
structure SafeAction (now : UInt64) (read : List UInt16) (kb : Keyboard) (typed : Typed)
    (a : KeyAction) : Prop where
  press : a.up = false → a.Accepted now kb.keys → HasRoom kb → PlainPress kb.keys a
  release : a.up = true → a.ext = false →
    ∀ c ∈ typed a.code, c = 0 ∨ c = layoutChar kb.keys a.code
  losesNone : LosesNone read (kb.events ++ added kb (a.outs now kb.keys))

def SafeActions (now : UInt64) (read : List UInt16) : Keyboard → Typed → List KeyAction → Prop
  | _, _, [] => True
  | kb, typed, a :: actions =>
    SafeAction now read kb typed a ∧
      SafeActions now read (a.run now kb) (a.typedAfter now kb typed) actions

def typedAll (now : UInt64) : Keyboard → Typed → List KeyAction → Typed
  | _, typed, [] => typed
  | kb, typed, a :: actions => typedAll now (a.run now kb) (a.typedAfter now kb typed) actions

def SafeKeyStep (s : KeySession) (typed : Typed) : KeyStep → Prop
  | .stroke k times => Decodable k ∧ SafeActions (times 0) s.read s.kb typed k.actions
  | .reset => ∀ e ∈ s.kb.events, ∀ c, IsPress c → closeEvent c = e → ¬ OpenIn closeEvent s.read c
  | _ => True

def KeyStep.typedAfter (s : KeySession) (typed : Typed) : KeyStep → Typed
  | .stroke k times => typedAll (times 0) s.kb typed k.actions
  | _ => typed

/-- **The safe sessions**, by the state of a driver of set 1. -/
def SafeSteps : KeySession → Typed → List KeyStep → Prop
  | _, _, [] => True
  | s, typed, t :: steps =>
    SafeKeyStep s typed t ∧ SafeSteps (t.apply Stroke.bytes s) (t.typedAfter s typed) steps

variable {kb kb' : Keyboard} {ks ks' : KeyState} {now : UInt64} {code : ℕ} {a : KeyAction}
  {typed typed' : Typed} {held held' : Held} {read : List UInt16} {ext : Bool} {c : UInt16}

/-! ### The events of a call -/

def Owes (typed : Typed) (ext : Bool) (code : ℕ) (c : UInt16) : Prop :=
  (∃ key, (if ext then extReleaseCode code else set1ReleaseCode code) = some key ∧
    c = UInt16.ofNat key.toNat) ∨
  ext = false ∧ ∃ b ∈ typed code, b ≠ 0 ∧ c = UInt16.ofNat b.toNat

def Owed (held : Held) (typed : Typed) (c : UInt16) : Prop :=
  ∃ ext code, held ext code = true ∧ Owes typed ext code c

theorem mapAt_space : mapAt normalMap 0x39 = 32 ∧ mapAt shiftMap 0x39 = 32 ∧ mapAt itNormalMap 0x39 = 32 ∧
    mapAt itShiftMap 0x39 = 32 ∧ mapAt itAltgrMap 0x39 = 0 ∧ mapAt itAltgrShiftMap 0x39 = 0 ∧
    mapAt itAccentMap 0x39 = 0 ∧ mapAt itAccentShiftMap 0x39 = 0 ∧ mapAt deNormalMap 0x39 = 32 ∧
    mapAt deShiftMap 0x39 = 32 ∧ mapAt deAltgrMap 0x39 = 0 := by
  decide

theorem layoutChar_space (ks : KeyState) : layoutChar ks 0x39 = 32 := by
  obtain ⟨hn, hs, hin, his, hia, hias, hic, hics, hdn, hds, hda⟩ := mapAt_space
  have halpha : isAlpha 32 = false := by decide
  have hremap : ∀ layout, remapLayout layout 32 = 32 := by
    intro layout
    cases layout <;> decide
  cases hl : ks.layout <;> cases hd : ks.shiftDown <;>
    simp [layoutChar, hl, hd, shiftedWithCaps, hn, hs, hin, his, hia, hias, hic, hics, hdn, hds, hda,
      halpha, hremap]

variable {steps : List KeyStep} {x : UInt16}

theorem mem_added_key {k : ℤ} (hx : x ∈ added kb [.key k]) :
    HasRoom kb ∧ x = eventOf k := by
  rw [added, added, List.append_nil] at hx
  by_cases hroom : HasRoom kb
  · rw [if_pos hroom, List.mem_singleton] at hx
    exact ⟨hroom, hx⟩
  · rw [if_neg hroom] at hx
    exact absurd hx List.not_mem_nil

theorem eventOf_of_lt {k : ℤ} (h₀ : 0 ≤ k) (h₁ : k < 0x8000) : eventOf k = UInt16.ofNat k.toNat := by
  rw [eventOf, Int.emod_eq_of_lt h₀ h₁]

theorem extReleaseCode_bounds {key : ℤ} (h : extReleaseCode code = some key) : 0 ≤ key ∧ key < 0x8000 := by
  unfold extReleaseCode at h
  split at h <;> first | (obtain rfl := Option.some.inj h; norm_num) | exact absurd h (by simp)

theorem not_isPress_release (n : ℕ) : ¬ IsPress (releaseEvent n) := by
  rw [IsPress, releaseEvent, UInt16.lt_iff_toNat_lt, UInt16.toNat_or, not_lt]
  exact Nat.right_le_or

theorem extPressKey_of_plain {up : Bool} (h : PlainPress ks ⟨true, code, up⟩) :
    extPressKey ks code = extReleaseCode code := by
  obtain ⟨hne, hshift⟩ : code ≠ 0x1c ∧ (ks.shiftDown = true → code ≠ 0x4b ∧ code ≠ 0x4d) := h
  unfold extPressKey extReleaseCode
  split <;> simp_all

theorem added_of_full {outs : List Out} (hfull : ¬ HasRoom kb) (hno : ∀ ev, Out.event ev ∉ outs) :
    added kb outs = [] := by
  induction outs with
  | nil => rfl
  | cons o outs ih =>
    have ih := ih fun ev hmem => hno ev (List.mem_cons_of_mem _ hmem)
    cases o with
    | key k =>
      have hemit : emit kb (.key k) = kb := pushKey_of_full hfull k
      rw [added, if_neg hfull, hemit, ih, List.append_nil]
    | event ev => exact absurd List.mem_cons_self (hno ev)
    | interrupt => rw [added, ih]

theorem event_not_mem_typeOuts (hne : code ≠ 0x39) (ks : KeyState) (ev : UInt16) :
    Out.event ev ∉ typeOuts ks code := by
  rw [typeOuts, if_neg hne]
  generalize (if ks.ctrlDown = true then ctrlLetter ks code else none) = letter
  cases letter with
  | none =>
    dsimp only
    split_ifs <;> simp
  | some key =>
    dsimp only
    split_ifs <;> simp

theorem typeOuts_of_plain (hne : code ≠ 0x39) (h : ¬ Shortcut ks code) :
    typeOuts ks code =
      if layoutChar ks code ≠ 0 then [.key (signedChar (layoutChar ks code))] else [] := by
  rw [typeOuts, if_neg hne]
  by_cases hctrl : ks.ctrlDown = true
  · simp only [Shortcut, hctrl, true_and, not_or, not_and, Bool.not_eq_true, Option.isSome_eq_false_iff,
      Option.isNone_iff_eq_none] at h
    obtain ⟨htty, hcopy, hpaste, hletter⟩ := h
    have htty' : (ks.altDown && decide (0x3b ≤ code) && decide (code ≤ 0x40)) = false := by
      grind
    have hpaste' : (ks.shiftDown && decide (code = 0x2f)) = false := by
      grind
    simp only [hctrl, Bool.true_and, htty', hcopy, hpaste', hletter, decide_false, Bool.and_false,
      Bool.false_eq_true, if_false, if_true]
  · rw [Bool.not_eq_true] at hctrl
    simp only [hctrl, Bool.false_and, Bool.false_eq_true, if_false]

/-- **A plain press adds events that the key owes afterwards.** -/
theorem owes_of_mem_pressed (hplain : HasRoom kb → PlainPress ks a)
    (hx : x ∈ added kb (a.pressed ks)) (htyped : a.ext = false → HasRoom kb → layoutChar ks a.code ∈ typed a.code) :
    Owes typed a.ext a.code x := by
  obtain ⟨ext, code, up⟩ := a
  cases ext with
  | true =>
    have hx : x ∈ added kb ((extPressKey ks code).toList.map Out.key) := hx
    cases hkey : extPressKey ks code with
    | none =>
      rw [hkey] at hx
      exact absurd hx List.not_mem_nil
    | some key =>
      rw [hkey] at hx
      obtain ⟨hroom, rfl⟩ := mem_added_key hx
      have hcode : extReleaseCode code = some key := by
        rw [← extPressKey_of_plain (hplain hroom), hkey]
      obtain ⟨h₀, h₁⟩ := extReleaseCode_bounds hcode
      exact .inl ⟨key, hcode, eventOf_of_lt h₀ h₁⟩
  | false =>
    have hx : x ∈ added kb (pressOuts ks code) := hx
    have htyped : HasRoom kb → layoutChar ks code ∈ typed code := htyped rfl
    rw [pressOuts] at hx
    by_cases hshift : code = 0x2a ∨ code = 0x36
    · rw [if_pos hshift] at hx
      exact absurd hx List.not_mem_nil
    rw [if_neg hshift] at hx
    by_cases hctrl : code = 0x1d
    · rw [if_pos hctrl] at hx
      obtain ⟨-, rfl⟩ := mem_added_key hx
      exact .inl ⟨keyCtrl, by rw [hctrl]; rfl, eventOf_of_lt (by norm_num) (by norm_num)⟩
    rw [if_neg hctrl] at hx
    by_cases halt : code = 0x38
    · rw [if_pos halt] at hx
      obtain ⟨-, rfl⟩ := mem_added_key hx
      exact .inl ⟨keyAlt, by rw [halt]; rfl, eventOf_of_lt (by norm_num) (by norm_num)⟩
    rw [if_neg halt] at hx
    by_cases hspace : code = 0x39
    · subst hspace
      rw [typeOuts, if_pos rfl, added_cons, List.mem_append] at hx
      rcases hx with hx | hx
      · obtain ⟨hroom, rfl⟩ := mem_added_key hx
        have hmem := htyped hroom
        rw [layoutChar_space] at hmem
        exact .inr ⟨rfl, 32, hmem, by decide, rfl⟩
      · exact .inl ⟨keySpace, rfl, by simpa [added] using hx⟩
    have hroom : HasRoom kb := by
      by_contra hfull
      rw [added_of_full hfull (event_not_mem_typeOuts hspace ks)] at hx
      exact List.not_mem_nil hx
    obtain ⟨hcommand, hascii⟩ : ¬ Shortcut ks code ∧ layoutChar ks code < 128 := hplain hroom
    rw [typeOuts_of_plain hspace hcommand] at hx
    by_cases hchar : layoutChar ks code = 0
    · rw [if_neg (not_not.2 hchar)] at hx
      exact absurd hx List.not_mem_nil
    · rw [if_pos hchar] at hx
      obtain ⟨-, rfl⟩ := mem_added_key hx
      have hlt : (layoutChar ks code).toNat < 128 := hascii
      refine .inr ⟨rfl, _, htyped hroom, hchar, ?_⟩
      rw [signedChar, if_pos hascii, eventOf_of_lt (by omega) (by omega), Int.toNat_natCast]

theorem closeEvent_mem_released (h : Owes typed a.ext a.code c)
    (hchars : a.ext = false → ∀ b ∈ typed a.code, b = 0 ∨ b = layoutChar ks a.code) :
    closeEvent c ∈ a.released ks := by
  obtain ⟨ext, code, up⟩ := a
  rcases h with ⟨key, hkey, rfl⟩ | ⟨hext, b, hb, hne, rfl⟩
  · cases ext with
    | true =>
      have hkey : extReleaseCode code = some key := hkey
      simp only [KeyAction.released, extReleaseEvents, hkey, if_true]
      exact List.mem_singleton_self _
    | false =>
      have hkey : set1ReleaseCode code = some key := hkey
      simp only [KeyAction.released, releaseEvents, hkey, Bool.false_eq_true, if_false]
      exact List.mem_append_left _ (List.mem_singleton_self _)
  · have hext : ext = false := hext
    subst hext
    obtain rfl : b = layoutChar ks code := (hchars rfl b hb).resolve_left hne
    simp only [KeyAction.released, releaseEvents, Bool.false_eq_true, if_false, if_pos hne]
    exact List.mem_append_right _ (List.mem_singleton_self _)

theorem not_isPress_of_mem_released (hx : x ∈ a.released ks) : ¬ IsPress x := by
  rw [KeyAction.released, extReleaseEvents, releaseEvents] at hx
  split_ifs at hx <;> simp only [List.mem_append, List.mem_map, List.mem_singleton, List.not_mem_nil,
    or_false] at hx
  · obtain ⟨key, -, rfl⟩ := hx
    exact not_isPress_release _
  · rcases hx with ⟨key, -, rfl⟩ | rfl
    · exact not_isPress_release _
    · exact not_isPress_release _
  · obtain ⟨key, -, rfl⟩ := hx
    exact not_isPress_release _

theorem Owed.press (h : Owed held typed c) (hup : a.up = false) :
    Owed (held.set a.ext a.code !a.up) (a.typedAfter now kb typed) c := by
  obtain ⟨ext, code, hheld, howes⟩ := h
  refine ⟨ext, code, ?_, howes.imp_right fun ⟨hext, b, hb, hrest⟩ => ⟨hext, b, ?_, hrest⟩⟩
  · rw [Held.set_apply, hup]
    split_ifs
    · rfl
    · exact hheld
  · rw [KeyAction.typedAfter, hup, if_neg Bool.false_ne_true]
    split_ifs
    · exact hb
    · rw [Function.update_apply]
      split_ifs with heq
      · rw [← heq]
        exact List.mem_cons_of_mem _ hb
      · exact hb
    · exact hb

theorem Owed.release (h : Owed held typed c) (hup : a.up = true) :
    Owed (held.set a.ext a.code !a.up) (a.typedAfter now kb typed) c ∨ Owes typed a.ext a.code c := by
  obtain ⟨ext, code, hheld, howes⟩ := h
  by_cases hkey : ext = a.ext ∧ code = a.code
  · obtain ⟨rfl, rfl⟩ := hkey
    exact .inr howes
  · refine .inl ⟨ext, code, ?_, howes.imp_right fun ⟨hext, b, hb, hrest⟩ => ⟨hext, b, ?_, hrest⟩⟩
    · rw [Held.set_apply, if_neg hkey, hheld]
    · rw [KeyAction.typedAfter, hup, if_pos rfl]
      split_ifs with ha
      · exact hb
      · have hne : code ≠ a.code := by
          intro heq
          exact hkey ⟨by rw [hext, Bool.eq_false_iff.2 ha], heq⟩
        rw [Function.update_of_ne hne]
        exact hb

/-- The presses of the events are paired, but for those that are owed. -/
def Pairs (held : Held) (typed : Typed) (read events : List UInt16) : Prop :=
  ClosedBut closeEvent IsPress (Owed held typed) (read ++ events)

theorem Pairs.push {events : List UInt16} (h : Pairs held typed read events)
    (hsafe : SafeAction now read kb typed a) :
    Pairs (held.set a.ext a.code !a.up) (a.typedAfter now kb typed) read
      (events ++ added kb (a.outs now kb.keys)) := by
  rw [Pairs, ← List.append_assoc]
  cases hup : a.up with
  | true =>
    have houts : added kb (a.outs now kb.keys) = a.released kb.keys := by
      rw [KeyAction.outs, if_pos hup, added_events]
    rw [houts, ← hup]
    refine ClosedBut.append h (fun x hx hpress => absurd hpress (not_isPress_of_mem_released hx))
      fun c hc => (hc.release hup).imp_right fun howes => ?_
    exact closeEvent_mem_released howes (hsafe.release hup)
  | false =>
    rw [← hup]
    refine ClosedBut.append h (fun x hx _ => ?_) fun c hc => .inl (hc.press hup)
    rw [KeyAction.outs, if_neg (by rw [hup]; exact Bool.false_ne_true)] at hx
    by_cases hacc : a.Accepted now kb.keys
    · rw [if_pos hacc] at hx
      refine ⟨a.ext, a.code, by simp [Held.set_apply, hup], ?_⟩
      refine owes_of_mem_pressed (hsafe.press hup hacc) hx fun hext hroom => ?_
      rw [KeyAction.typedAfter, hext, hup, if_neg Bool.false_ne_true, if_neg Bool.false_ne_true,
        if_pos ⟨hacc, hroom⟩, Function.update_self]
      exact List.mem_cons_self
    · rw [if_neg hacc] at hx
      exact absurd hx List.not_mem_nil

/-- **What a call leaves unpaired** is owed by a key that is held. -/
theorem Pairs.action (h : Pairs held typed read kb.events) (hlen : kb.events.length ≤ kbdEventBuffer - 1)
    (hcode : a.code < 128) (hsafe : SafeAction now read kb typed a) :
    Pairs (held.set a.ext a.code !a.up) (a.typedAfter now kb typed) read (a.run now kb).events := by
  have hadded := h.push hsafe
  have hevents : (a.run now kb).events = ringOf (kb.events ++ added kb (a.outs now kb.keys)) := by
    rw [run_eq now kb hcode, emits_withKeys]
    exact events_emits hlen _
  rw [hevents, ringOf]
  rw [Pairs, ← List.take_append_drop (_ - (kbdEventBuffer - 1)) (kb.events ++ _)] at hadded
  exact ClosedBut.remove hadded hsafe.losesNone

def heldAll (held : Held) (actions : List KeyAction) : Held :=
  actions.foldl (fun held a => held.set a.ext a.code !a.up) held

theorem length_events_run (hlen : kb.events.length ≤ kbdEventBuffer - 1) (hcode : a.code < 128) :
    (a.run now kb).events.length ≤ kbdEventBuffer - 1 := by
  rw [run_eq now kb hcode, emits_withKeys]
  exact length_events_emits hlen _

theorem Pairs.actions {actions : List KeyAction} : ∀ {kb : Keyboard} {held : Held} {typed : Typed},
    Pairs held typed read kb.events → kb.events.length ≤ kbdEventBuffer - 1 →
    (∀ a ∈ actions, a.code < 128) → SafeActions now read kb typed actions →
    Pairs (heldAll held actions) (typedAll now kb typed actions) read (runAll now kb actions).events ∧
      (runAll now kb actions).events.length ≤ kbdEventBuffer - 1 := by
  induction actions with
  | nil => exact fun h hlen _ _ => ⟨h, hlen⟩
  | cons a actions ih =>
    intro kb held typed h hlen hcode hsafe
    have ha : a.code < 128 := hcode a List.mem_cons_self
    exact ih (h.action hlen ha hsafe.1) (length_events_run hlen ha)
      (fun b hb => hcode b (List.mem_cons_of_mem _ hb)) hsafe.2

theorem held_of_heldAll (s : Stroke)
    (h : heldAll held s.actions ext code = true) : s.apply held ext code = true := by
  cases s with
  | key ext' code' up => exact h
  | pause =>
    simp only [heldAll, Stroke.actions, List.foldl_cons, List.foldl_nil, Held.set_apply] at h
    rw [Stroke.apply]
    split_ifs at h <;> first | exact h | exact absurd h (by simp)

/-- What a driver of set 1 keeps in a safe session. -/
structure Kept (held : Held) (typed : Typed) (s : KeySession) : Prop where
  ready : Ready1 s.kb.keys
  length : s.kb.events.length ≤ kbdEventBuffer - 1
  pairs : Pairs held typed s.read s.kb.events

theorem runAll_keeps {P : KeyState → Prop} {actions : List KeyAction}
    (hrun : ∀ {kb : Keyboard} {a : KeyAction}, P kb.keys → a.code < 128 → P (a.run now kb).keys)
    (hcode : ∀ a ∈ actions, a.code < 128) : ∀ {kb : Keyboard}, P kb.keys → P (Drivers.runAll now kb actions).keys := by
  induction actions with
  | nil => exact fun h => h
  | cons a actions ih =>
    intro kb h
    exact ih (fun b hb => hcode b (List.mem_cons_of_mem _ hb)) (hrun h (hcode a List.mem_cons_self))

def KeyStep.heldAfter (held : Held) : KeyStep → Held
  | .stroke s _ => s.apply held
  | _ => held

/-- **A safe step keeps the pairs.** -/
theorem Kept.step {s : KeySession} (h : Kept held typed s) {t : KeyStep}
    (hv : ∀ k times, t = .stroke k times → k.Valid) (hsafe : SafeKeyStep s typed t) :
    Kept (t.heldAfter held) (t.typedAfter s typed) (t.apply Stroke.bytes s) := by
  obtain ⟨hready, hlen, hpairs⟩ := h
  cases t with
  | stroke k times =>
    obtain ⟨hd, hsafe⟩ := hsafe
    have hv : k.Valid := hv k times rfl
    have hcode : ∀ a ∈ k.actions, a.code < 128 := fun a ha => (hv.code_lt ha).trans (by norm_num)
    have hfeed := feed_bytes hready hv hd times
    obtain ⟨hpairs', hlen'⟩ := hpairs.actions hlen hcode hsafe
    refine ⟨?_, ?_, ?_⟩
    · rw [KeyStep.apply, hfeed]
      exact runAll_keeps (fun h ha => h.run _ ha) hcode hready
    · rw [KeyStep.apply, hfeed]
      exact hlen'
    · rw [KeyStep.apply, hfeed]
      refine ClosedBut.mono hpairs' ?_
      rintro c ⟨ext, code, hheld, howes⟩
      exact ⟨ext, code, held_of_heldAll k hheld, howes⟩
  | getchar =>
    refine ⟨?_, ?_, ?_⟩ <;> rw [KeyStep.apply, keyboardTryGetchar] <;> cases s.kb.buffer
    · exact hready
    · exact hready
    · exact hlen
    · exact hlen
    · exact hpairs
    · exact hpairs
  | getEvent =>
    cases hev : s.kb.events with
    | nil =>
      rw [KeyStep.apply, keyboardTryGetEvent, hev]
      exact ⟨hready, hlen, by rw [Option.toList_none, List.append_nil]; exact hpairs⟩
    | cons ev rest =>
      rw [KeyStep.apply, keyboardTryGetEvent, hev]
      rw [hev] at hlen hpairs
      refine ⟨hready, (Nat.le_succ _).trans hlen, ?_⟩
      rw [Pairs, List.append_cons] at hpairs
      exact hpairs
  | consumeInterrupt =>
    rw [KeyStep.apply, keyboardConsumeInterrupt]
    split_ifs <;> exact ⟨hready, hlen, hpairs⟩
  | ackInterrupt => exact ⟨hready, hlen, hpairs⟩
  | setLayout layout => exact ⟨⟨⟨hready.raw, hready.set, hready.breakPrefix⟩, hready.noPrefix⟩, hlen, hpairs⟩
  | reset =>
    refine ⟨⟨⟨hready.raw, hready.set, rfl⟩, rfl⟩, Nat.zero_le _, ?_⟩
    have hall : Pairs held typed s.read (s.kb.events ++ []) := by rwa [List.append_nil]
    exact ClosedBut.remove hall hsafe

theorem heldAfter_eq (steps : List KeyStep) (held : Held) :
    steps.foldl KeyStep.heldAfter held = (strokesOf steps).foldl Stroke.apply held := by
  induction steps generalizing held with
  | nil => rfl
  | cons t steps ih =>
    cases t with
    | stroke s times => exact ih _
    | _ => exact ih _

def ValidStep (t : KeyStep) : Prop := ∀ k times, t = .stroke k times → k.Valid

/-- **A safe session keeps the pairs.** -/
theorem Kept.run (hv : ∀ t ∈ steps, ValidStep t) :
    ∀ {held : Held} {typed : Typed} {s : KeySession}, Kept held typed s → SafeSteps s typed steps →
    ∃ typed', Kept (steps.foldl KeyStep.heldAfter held) typed' (runKeys Stroke.bytes s steps) := by
  induction steps with
  | nil => exact fun h _ => ⟨_, h⟩
  | cons t steps ih =>
    intro held typed s h hsafe
    exact ih (fun t ht => hv t (List.mem_cons_of_mem _ ht)) (h.step (hv t List.mem_cons_self) hsafe.1)
      hsafe.2

/-! ### Both sets -/

/-- The states of the keys agree, but for the keys that set 2 does not have. -/
structure SameKeys (ks ks' : KeyState) : Prop where
  down : ∀ code, KeyAction.mapped ⟨false, code, false⟩ = true → ks'.keyDown code = ks.keyDown code
  extDown : ∀ code, KeyAction.mapped ⟨true, code, false⟩ = true → ks'.extKeyDown code = ks.extKeyDown code
  shift : ks'.shiftDown = ks.shiftDown
  leftShift : ks'.leftShiftDown = ks.leftShiftDown
  rightShift : ks'.rightShiftDown = ks.rightShiftDown
  ctrl : ks'.ctrlDown = ks.ctrlDown
  alt : ks'.altDown = ks.altDown
  altgr : ks'.altgrDown = ks.altgrDown
  caps : ks'.capsLock = ks.capsLock
  backspace : ks'.backspaceLastMakeTick = ks.backspaceLastMakeTick
  layout : ks'.layout = ks.layout

theorem SameKeys.layoutChar (h : SameKeys ks ks') (code : ℕ) :
    Drivers.layoutChar ks' code = Drivers.layoutChar ks code :=
  layoutChar_congr h.layout h.altgr h.shift h.caps code

theorem SameKeys.ctrlLetter (h : SameKeys ks ks') (code : ℕ) :
    Drivers.ctrlLetter ks' code = Drivers.ctrlLetter ks code := by
  simp only [Drivers.ctrlLetter, h.layoutChar]

theorem SameKeys.accepted (h : SameKeys ks ks') (ha : a.mapped = true) :
    a.Accepted now ks' ↔ a.Accepted now ks := by
  obtain ⟨ext, code, up⟩ := a
  cases ext with
  | false =>
    simp only [KeyAction.Accepted, Repeats, h.down code ha, h.backspace, Bool.false_eq_true, if_false]
  | true => simp only [KeyAction.Accepted, h.extDown code ha, if_true]

theorem SameKeys.outs (h : SameKeys ks ks') (ha : a.mapped = true) :
    a.outs now ks' = a.outs now ks := by
  have hacc : (a.Accepted now ks') = (a.Accepted now ks) := propext (h.accepted ha)
  simp only [KeyAction.outs, KeyAction.released, KeyAction.pressed, releaseEvents, pressOuts, typeOuts,
    extPressKey, hacc, h.layoutChar, h.ctrlLetter, h.ctrl, h.alt, h.shift]

theorem SameKeys.release (h : SameKeys ks ks') (code : ℕ) :
    SameKeys (set1Release ks code) (set1Release ks' code) := by
  rw [set1Release_eq, set1Release_eq]
  refine ⟨fun c hc => ?_, h.extDown, ?_, ?_, ?_, ?_, ?_, ?_, h.caps, h.backspace, h.layout⟩
  · simp only [Function.update_apply, h.down c hc]
  all_goals simp only [h.shift, h.leftShift, h.rightShift, h.ctrl, h.alt, h.altgr]

theorem SameKeys.press (h : SameKeys ks ks') (now : UInt64) (code : ℕ) :
    SameKeys (pressKeys (markDown now ks code) code) (pressKeys (markDown now ks' code) code) := by
  rw [pressKeys_eq, pressKeys_eq, markDown, markDown]
  refine ⟨fun c hc => ?_, h.extDown, ?_, ?_, ?_, ?_, ?_, h.altgr, ?_, ?_, h.layout⟩
  · simp only [Function.update_apply, h.down c hc]
  all_goals simp only [h.shift, h.leftShift, h.rightShift, h.ctrl, h.alt, h.caps, h.backspace]

theorem SameKeys.extKey (h : SameKeys ks ks') (code : ℕ) (down : Bool) :
    SameKeys (Drivers.extKey ks code down) (Drivers.extKey ks' code down) := by
  refine ⟨h.down, fun c hc => ?_, h.shift, h.leftShift, h.rightShift, ?_, ?_, ?_, h.caps, h.backspace,
    h.layout⟩
  · simp only [Drivers.extKey, Function.update_apply, h.extDown c hc]
  all_goals simp only [Drivers.extKey, h.ctrl, h.alt, h.altgr]

theorem SameKeys.keysAfter (h : SameKeys ks ks') (ha : a.mapped = true) :
    SameKeys (a.keysAfter now ks) (a.keysAfter now ks') := by
  have hacc : (a.Accepted now ks') = (a.Accepted now ks) := propext (h.accepted ha)
  simp only [KeyAction.keysAfter, hacc]
  split_ifs
  · rw [extRelease_eq, extRelease_eq]
    exact h.extKey _ _
  · exact h.release _
  · rw [extPress_eq, extPress_eq]
    exact h.extKey _ _
  · exact h.press now _
  · exact h

theorem noChar_of_unmapped : ∀ code < 0x6e, KeyAction.mapped ⟨false, code, false⟩ = false →
    NoChar code ∧ set1ReleaseCode code = none ∧ code ≠ 0x0e ∧ code ≠ 0x1d ∧ code ≠ 0x2a ∧ code ≠ 0x2e ∧
      code ≠ 0x36 ∧ code ≠ 0x38 ∧ code ≠ 0x39 ∧ code ≠ 0x3a := by
  decide +kernel

theorem extReleaseCode_of_unmapped : ∀ code < 0x6e, KeyAction.mapped ⟨true, code, false⟩ = false →
    extReleaseCode code = none ∧ code ≠ 0x1c ∧ code ≠ 0x1d ∧ code ≠ 0x38 := by
  decide +kernel

theorem extPressKey_of_none (h : extReleaseCode code = none) (hne : code ≠ 0x1c) :
    extPressKey ks code = none := by
  unfold extReleaseCode at h
  unfold extPressKey
  split <;> simp_all

theorem emits_of_full {outs : List Out} (hfull : ¬ HasRoom kb) (hkeys : ∀ o ∈ outs, ∃ k, o = .key k) :
    emits kb outs = kb := by
  induction outs with
  | nil => rfl
  | cons o outs ih =>
    obtain ⟨k, rfl⟩ := hkeys o List.mem_cons_self
    have hemit : emit kb (.key k) = kb := pushKey_of_full hfull k
    rw [emits_cons, hemit]
    exact ih fun o ho => hkeys o (List.mem_cons_of_mem _ ho)

theorem key_of_mem_typeOuts {o : Out} (hspace : code ≠ 0x39) (hc : code ≠ 0x2e)
    (ho : o ∈ typeOuts ks code) : ∃ k, o = .key k := by
  rw [typeOuts, if_neg hspace] at ho
  generalize (if ks.ctrlDown = true then ctrlLetter ks code else none) = letter at ho
  cases letter with
  | none =>
    simp only [hc, decide_false, Bool.and_false, Bool.false_eq_true, if_false] at ho
    split_ifs at ho <;> simp_all
  | some key =>
    simp only [hc, decide_false, Bool.and_false, Bool.false_eq_true, if_false] at ho
    split_ifs at ho <;> simp_all

theorem emits_of_unmapped (ha : a.mapped = false) (hcode : a.code < 0x6e)
    (hsafe : SafeAction now read kb typed a) : emits kb (a.outs now kb.keys) = kb := by
  obtain ⟨ext, code, up⟩ := a
  cases ext with
  | true =>
    obtain ⟨hrelease, henter, -, -⟩ := extReleaseCode_of_unmapped code hcode ha
    have hpress : extPressKey kb.keys code = none := extPressKey_of_none hrelease henter
    simp only [KeyAction.outs, KeyAction.released, KeyAction.pressed, extReleaseEvents, hrelease, hpress,
      if_true, Option.toList_none, List.map_nil, ite_self, emits_nil]
  | false =>
    obtain ⟨hno, hrelease, -, hctrl, hleft, hc, hright, halt, hspace, -⟩ :=
      noChar_of_unmapped code hcode ha
    have hchar := layoutChar_of_noChar hno kb.keys
    cases up with
    | true =>
      simp [KeyAction.outs, KeyAction.released, releaseEvents, hrelease, hchar]
    | false =>
      rw [KeyAction.outs, if_neg Bool.false_ne_true]
      by_cases hacc : KeyAction.Accepted now kb.keys ⟨false, code, false⟩
      · have houts : KeyAction.pressed kb.keys ⟨false, code, false⟩ = typeOuts kb.keys code := by
          simp only [KeyAction.pressed, pressOuts, hleft, hright, hctrl, halt, or_self,
            Bool.false_eq_true, if_false]
        rw [if_pos hacc, houts]
        by_cases hroom : HasRoom kb
        · have hplain : ¬ Shortcut kb.keys code := (hsafe.press rfl hacc hroom).1
          rw [typeOuts_of_plain hspace hplain, hchar, if_neg (by simp), emits_nil]
        · exact emits_of_full hroom fun o ho => key_of_mem_typeOuts hspace hc ho
      · rw [if_neg hacc, emits_nil]

theorem SameKeys.unmapped (h : SameKeys ks ks') (ha : a.mapped = false) (hcode : a.code < 0x6e) :
    SameKeys (a.keysAfter now ks) ks' := by
  obtain ⟨ext, code, up⟩ := a
  cases ext with
  | true =>
    obtain ⟨-, -, hctrl, halt⟩ := extReleaseCode_of_unmapped code hcode ha
    have hdown : ∀ down c, KeyAction.mapped ⟨true, c, false⟩ = true →
        ks'.extKeyDown c = Function.update ks.extKeyDown code down c := by
      intro down c hc
      have hne : c ≠ code := by
        rintro rfl
        exact absurd (ha.symm.trans hc) Bool.false_ne_true
      rw [Function.update_of_ne hne, h.extDown c hc]
    simp only [KeyAction.keysAfter, Drivers.extRelease, Drivers.extPress, hctrl, halt, if_true, if_false]
    split_ifs
    · exact { h with extDown := hdown false }
    · exact { h with extDown := hdown true }
    · exact h
  | false =>
    obtain ⟨-, -, hback, hctrl, hleft, -, hright, halt, -, hcaps⟩ := noChar_of_unmapped code hcode ha
    have hdown : ∀ down c, KeyAction.mapped ⟨false, c, false⟩ = true →
        ks'.keyDown c = Function.update ks.keyDown code down c := by
      intro down c hc
      have hne : c ≠ code := by
        rintro rfl
        exact absurd (ha.symm.trans hc) Bool.false_ne_true
      rw [Function.update_of_ne hne, h.down c hc]
    simp only [KeyAction.keysAfter, set1Release, pressKeys, markDown, hback, hctrl, hleft, hright, halt,
      hcaps, if_false, Bool.false_eq_true]
    split_ifs
    · exact { h with down := hdown false }
    · exact { h with down := hdown true }
    · exact h

/-- The drivers agree. -/
structure SameBoard (kb kb' : Keyboard) : Prop where
  buffers : kb' = { kb with keys := kb'.keys }
  keys : SameKeys kb.keys kb'.keys

/-- **One call in both sets.** -/
theorem SameBoard.run (h : SameBoard kb kb') (now : UInt64) (ha : a.mapped = true) (hcode : a.code < 128) :
    SameBoard (a.run now kb) (a.run now kb') := by
  have houts : a.outs now kb'.keys = a.outs now kb.keys := h.keys.outs ha
  have hpushed : emits kb' (a.outs now kb.keys) =
      { emits kb (a.outs now kb.keys) with keys := kb'.keys } :=
    (congrArg (emits · _) h.buffers).trans (emits_withKeys kb kb'.keys _)
  rw [run_eq now kb hcode, run_eq now kb' hcode, houts, emits_withKeys kb, emits_withKeys kb', hpushed]
  exact ⟨rfl, h.keys.keysAfter ha⟩

theorem SameBoard.skip (h : SameBoard kb kb') (ha : a.mapped = false) (hcode : a.code < 0x6e)
    (hsafe : SafeAction now read kb typed a) : SameBoard (a.run now kb) kb' := by
  rw [run_eq now kb (by omega), emits_withKeys, emits_of_unmapped ha hcode hsafe]
  exact ⟨h.buffers, h.keys.unmapped ha hcode⟩

theorem SameBoard.runAll {actions : List KeyAction} (hcode : ∀ a ∈ actions, a.code < 0x6e) :
    ∀ {kb kb' : Keyboard} {typed : Typed}, SameBoard kb kb' → SafeActions now read kb typed actions →
    SameBoard (Drivers.runAll now kb actions) (Drivers.runAll now kb' (actions.filter KeyAction.mapped)) := by
  induction actions with
  | nil => exact fun h _ => h
  | cons a actions ih =>
    intro kb kb' typed h hsafe
    have ha : a.code < 0x6e := hcode a List.mem_cons_self
    have hrest : ∀ b ∈ actions, b.code < 0x6e := fun b hb => hcode b (List.mem_cons_of_mem _ hb)
    cases hmapped : a.mapped with
    | true =>
      rw [List.filter_cons_of_pos hmapped]
      exact ih hrest (h.run now hmapped (by omega)) hsafe.2
    | false =>
      rw [List.filter_cons_of_neg (by rw [hmapped]; exact Bool.false_ne_true)]
      exact ih hrest (h.skip hmapped ha hsafe.1) hsafe.2

/-- The sessions agree. -/
structure SameSession (s s' : KeySession) : Prop where
  board : SameBoard s.kb s'.kb
  chars : s'.chars = s.chars
  read : s'.read = s.read
  ready : Ready2 s'.kb.keys

theorem SameSession.output {s s' : KeySession} (h : SameSession s s') : SameOutput s s' where
  read := h.read
  events := by rw [h.board.buffers]
  chars := h.chars
  buffer := by rw [h.board.buffers]

/-- **A safe step in both sets.** -/
theorem SameSession.step {s s' : KeySession} (h : SameSession s s') (hready : Ready1 s.kb.keys)
    {t : KeyStep} (hv : ValidStep t) (hsafe : SafeKeyStep s typed t) :
    SameSession (t.apply Stroke.bytes s) (t.apply Stroke.bytes2 s') := by
  obtain ⟨⟨hbuffers, hkeys⟩, hchars, hread, hready'⟩ := h
  obtain ⟨⟨buffer, events, generation, consumed, ks⟩, chars, read⟩ := s
  obtain ⟨⟨buffer', events', generation', consumed', ks'⟩, chars', read'⟩ := s'
  obtain ⟨rfl, rfl, rfl, rfl, -⟩ := Keyboard.mk.inj hbuffers
  obtain rfl : chars' = chars := hchars
  obtain rfl : read' = read := hread
  cases t with
  | stroke k times =>
    have hk : k.Valid := hv k times rfl
    have hcode : ∀ a ∈ k.actions, a.code < 0x6e := fun a ha => hk.code_lt ha
    have hfeed := feed_bytes hready hk hsafe.1 times
    have hfeed' := feed_bytes2 hready' hk times
    refine ⟨?_, rfl, rfl, ?_⟩
    · rw [KeyStep.apply, KeyStep.apply, hfeed, hfeed']
      exact SameBoard.runAll hcode ⟨rfl, hkeys⟩ hsafe.2
    · rw [KeyStep.apply, hfeed']
      exact runAll_keeps (fun h ha => h.run _ ha)
        (fun a ha => (hcode a (List.mem_of_mem_filter ha)).trans (by norm_num)) hready'
  | getchar =>
    cases buffer' with
    | nil => exact ⟨⟨rfl, hkeys⟩, rfl, rfl, hready'⟩
    | cons c rest => exact ⟨⟨rfl, hkeys⟩, rfl, rfl, hready'⟩
  | getEvent =>
    cases events' with
    | nil => exact ⟨⟨rfl, hkeys⟩, rfl, rfl, hready'⟩
    | cons ev rest => exact ⟨⟨rfl, hkeys⟩, rfl, rfl, hready'⟩
  | consumeInterrupt =>
    rw [KeyStep.apply, KeyStep.apply, keyboardConsumeInterrupt, keyboardConsumeInterrupt]
    dsimp only
    split_ifs <;> exact ⟨⟨rfl, hkeys⟩, rfl, rfl, hready'⟩
  | ackInterrupt => exact ⟨⟨rfl, hkeys⟩, rfl, rfl, hready'⟩
  | setLayout layout =>
    exact ⟨⟨rfl, { hkeys with layout := rfl }⟩, rfl, rfl,
      ⟨hready'.raw, hready'.set, hready'.breakPrefix, hready'.noPrefix⟩⟩
  | reset =>
    exact ⟨⟨rfl, ⟨fun _ _ => rfl, fun _ _ => rfl, rfl, rfl, rfl, rfl, rfl, rfl, hkeys.caps, rfl,
      hkeys.layout⟩⟩, rfl, rfl, ⟨hready'.raw, hready'.set, rfl, rfl⟩⟩

/-- **A safe session in both sets.** -/
theorem SameSession.run (hv : ∀ t ∈ steps, ValidStep t) :
    ∀ {held : Held} {typed : Typed} {s s' : KeySession}, SameSession s s' → Kept held typed s →
    SafeSteps s typed steps →
    SameSession (runKeys Stroke.bytes s steps) (runKeys Stroke.bytes2 s' steps) := by
  induction steps with
  | nil => exact fun h _ _ => h
  | cons t steps ih =>
    intro held typed s s' h hkept hsafe
    have ht : ValidStep t := hv t List.mem_cons_self
    exact ih (fun t ht => hv t (List.mem_cons_of_mem _ ht)) (h.step hkept.ready ht hsafe.1)
      (hkept.step ht hsafe.1) hsafe.2

theorem sameSession_start : SameSession (startSession false) (startSession true) where
  board := ⟨rfl, ⟨fun _ _ => rfl, fun _ _ => rfl, rfl, rfl, rfl, rfl, rfl, rfl, rfl, rfl, rfl⟩⟩
  chars := rfl
  read := rfl
  ready := ⟨rfl, rfl, rfl, rfl⟩

theorem kept_start : Kept (fun _ _ => false) (fun _ => []) (startSession false) :=
  ⟨⟨⟨rfl, rfl, rfl⟩, rfl⟩, Nat.zero_le _, closedBut_nil⟩

theorem losesNone_of_le {events : List UInt16} (h : events.length ≤ kbdEventBuffer - 1) :
    LosesNone read events := by
  intro e he
  rw [Nat.sub_eq_zero_of_le h, List.take_zero] at he
  exact absurd he List.not_mem_nil

theorem validStep_key {up : Bool} {times : ℕ → UInt64} (h : (Stroke.key ext code up).Valid) :
    ValidStep (.stroke (.key ext code up) times) := by
  intro k times' heq
  cases heq
  exact h

end Tnu.Drivers
