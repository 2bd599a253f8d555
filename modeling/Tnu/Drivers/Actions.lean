/-
**What the keyboard decoder puts out.**

Behind the prefixes both scancode sets come to the same two functions, which are called for a key that
is pressed or released.  What such a call pushes depends on the state of the keys in front of it.

Main definitions:

* `Out`, `emits` — what is pushed for the terminal and for the event device;
* `KeyAction.outs`, `KeyAction.keysAfter` — what a call pushes, and the state it
  leaves;
* `set2Code`, `Stroke.bytes2` — what a keyboard sends in set 2.

Main results:

* `run_eq` — **a call is its pushes behind its change of state**;
* `feed_bytes`, `feed_bytes2` — **the two sets come to the same calls**, but for
  the keys that the tables of set 2 do not have.
-/

import Tnu.Drivers.Modifiers

set_option autoImplicit false

namespace Tnu.Drivers

/-! ### Pushes -/

/-- What the decoder pushes: a key, an event, or the count of interrupts. -/
inductive Out
  | key (k : ℤ)
  | event (ev : UInt16)
  | interrupt

def emit (kb : Keyboard) : Out → Keyboard
  | .key k => pushKey kb k
  | .event ev => pushEvent kb ev
  | .interrupt => { kb with interruptGeneration := kb.interruptGeneration + 1 }

def emits (kb : Keyboard) (outs : List Out) : Keyboard := outs.foldl emit kb

def eventOf (k : ℤ) : UInt16 := UInt16.ofNat (k % 0x8000).toNat

def HasRoom (kb : Keyboard) : Prop := kb.buffer.length < kbdBuffer - 1

instance (kb : Keyboard) : Decidable (HasRoom kb) :=
  inferInstanceAs (Decidable (kb.buffer.length < kbdBuffer - 1))

/-- The events that some pushes put into the ring: a key that finds the buffer full has none. -/
def added (kb : Keyboard) : List Out → List UInt16
  | [] => []
  | .key k :: outs => (if HasRoom kb then [eventOf k] else []) ++ added (emit kb (.key k)) outs
  | .event ev :: outs => ev :: added kb outs
  | .interrupt :: outs => added kb outs

def ringOf (events : List UInt16) : List UInt16 := events.drop (events.length - (kbdEventBuffer - 1))

variable {kb kb' : Keyboard} {ks ks' : KeyState} {now now' : UInt64} {code : ℕ}

@[simp] theorem emits_nil (kb : Keyboard) : emits kb [] = kb := rfl

theorem emits_cons (kb : Keyboard) (o : Out) (outs : List Out) :
    emits kb (o :: outs) = emits (emit kb o) outs := rfl

@[simp] theorem keys_emit (kb : Keyboard) (o : Out) : (emit kb o).keys = kb.keys := by
  cases o with
  | key k => exact keys_pushKey kb k
  | event ev => rfl
  | interrupt => rfl

@[simp] theorem keys_emits (kb : Keyboard) (outs : List Out) : (emits kb outs).keys = kb.keys := by
  induction outs generalizing kb with
  | nil => rfl
  | cons o outs ih => rw [emits_cons, ih, keys_emit]

theorem pushKey_of_room (h : HasRoom kb) (k : ℤ) :
    pushKey kb k = pushEvent { kb with buffer := kb.buffer ++ [k] } (eventOf k) := if_pos h

theorem pushKey_of_full (h : ¬ HasRoom kb) (k : ℤ) : pushKey kb k = kb := if_neg h

theorem emit_withKeys (kb : Keyboard) (ks : KeyState) (o : Out) :
    emit { kb with keys := ks } o = { emit kb o with keys := ks } := by
  cases o with
  | key k =>
    simp only [emit, pushKey]
    split_ifs
    · rfl
    · rfl
  | event ev => rfl
  | interrupt => rfl

theorem emits_withKeys (kb : Keyboard) (ks : KeyState) (outs : List Out) :
    emits { kb with keys := ks } outs = { emits kb outs with keys := ks } := by
  induction outs generalizing kb with
  | nil => rfl
  | cons o outs ih => rw [emits_cons, emit_withKeys, ih, emits_cons]

theorem ringOf_of_le {l : List UInt16} (h : l.length ≤ kbdEventBuffer - 1) : ringOf l = l := by
  rw [ringOf, Nat.sub_eq_zero_of_le h, List.drop_zero]

theorem length_ringOf_le (l : List UInt16) : (ringOf l).length ≤ kbdEventBuffer - 1 := by
  rw [ringOf, List.length_drop]
  omega

theorem ringOf_ringOf_append (l m : List UInt16) : ringOf (ringOf l ++ m) = ringOf (l ++ m) := by
  have hl : l.drop (l.length - (kbdEventBuffer - 1)) ++ m =
      (l ++ m).drop (l.length - (kbdEventBuffer - 1)) := by
    rw [List.drop_append_of_le_length (Nat.sub_le _ _)]
  have hlen : l.length - (kbdEventBuffer - 1) +
      (l.length + m.length - (l.length - (kbdEventBuffer - 1)) - (kbdEventBuffer - 1)) =
      l.length + m.length - (kbdEventBuffer - 1) := by
    omega
  rw [ringOf, ringOf, ringOf, hl, List.drop_drop, List.length_drop, List.length_append, hlen]

theorem events_pushEvent (kb : Keyboard) (ev : UInt16)
    (h : kb.events.length ≤ kbdEventBuffer - 1) :
    (pushEvent kb ev).events = ringOf (kb.events ++ [ev]) := by
  rw [pushEvent, ringOf, List.length_append, List.length_singleton]
  by_cases hlt : kb.events.length < kbdEventBuffer - 1
  · rw [if_pos hlt, Nat.sub_eq_zero_of_le (by omega), List.drop_zero]
  · have hone : kb.events.length + 1 - (kbdEventBuffer - 1) = 1 := by omega
    have hne : kb.events ≠ [] := by
      intro hnil
      rw [hnil] at hlt
      exact hlt (by norm_num)
    rw [if_neg hlt, hone, List.drop_one, List.tail_append_of_ne_nil hne]

theorem events_emit (kb : Keyboard) (o : Out) (h : kb.events.length ≤ kbdEventBuffer - 1) :
    (emit kb o).events = ringOf (kb.events ++ added kb [o]) := by
  cases o with
  | key k =>
    rw [emit, added, added, List.append_nil]
    by_cases hroom : HasRoom kb
    · rw [if_pos hroom, pushKey_of_room hroom]
      exact events_pushEvent { kb with buffer := kb.buffer ++ [k] } _ h
    · rw [if_neg hroom, pushKey_of_full hroom, List.append_nil, ringOf_of_le h]
  | event ev => exact events_pushEvent kb ev h
  | interrupt => rw [added, added, List.append_nil, ringOf_of_le h]; rfl

theorem added_congr : ∀ (outs : List Out) {kb kb' : Keyboard}, kb.buffer = kb'.buffer →
    added kb outs = added kb' outs := by
  intro outs
  induction outs with
  | nil => exact fun _ => rfl
  | cons o outs ih =>
    intro kb kb' hb
    cases o with
    | key k =>
      have hstep : (emit kb (.key k)).buffer = (emit kb' (.key k)).buffer := by
        simp only [emit, pushKey, hb]
        split_ifs
        · rfl
        · exact hb
      have hroom : HasRoom kb = HasRoom kb' := by simp only [HasRoom, hb]
      rw [added, added, ih hstep]
      simp only [hroom]
    | event ev => rw [added, added, ih hb]
    | interrupt => rw [added, added, ih hb]

theorem added_cons (kb : Keyboard) (o : Out) (outs : List Out) :
    added kb (o :: outs) = added kb [o] ++ added (emit kb o) outs := by
  cases o with
  | key k => rw [added, added, added, List.append_nil]
  | event ev => exact congrArg (ev :: ·) (added_congr outs rfl)
  | interrupt => exact added_congr outs rfl

@[simp] theorem added_events (kb : Keyboard) (events : List UInt16) :
    added kb (events.map Out.event) = events := by
  induction events with
  | nil => rfl
  | cons ev events ih => exact congrArg (ev :: ·) ih

theorem length_events_emits (h : kb.events.length ≤ kbdEventBuffer - 1) (outs : List Out) :
    (emits kb outs).events.length ≤ kbdEventBuffer - 1 := by
  induction outs generalizing kb with
  | nil => exact h
  | cons o outs ih =>
    refine ih ?_
    rw [events_emit kb o h]
    exact length_ringOf_le _

/-- **The event ring behind some pushes.** -/
theorem events_emits (h : kb.events.length ≤ kbdEventBuffer - 1) (outs : List Out) :
    (emits kb outs).events = ringOf (kb.events ++ added kb outs) := by
  induction outs generalizing kb with
  | nil => rw [emits_nil, added, List.append_nil, ringOf_of_le h]
  | cons o outs ih =>
    have hle : (emit kb o).events.length ≤ kbdEventBuffer - 1 := by
      rw [events_emit kb o h]
      exact length_ringOf_le _
    rw [emits_cons, ih hle, events_emit kb o h, ringOf_ringOf_append, added_cons kb o outs, List.append_assoc]

/-! ### Calls -/

/-- A key that is pressed or released, behind the prefix `0xe0` or not. -/
structure KeyAction where
  ext : Bool
  code : ℕ
  up : Bool
  deriving DecidableEq, Repr

def KeyAction.run (now : UInt64) (kb : Keyboard) (a : KeyAction) : Keyboard :=
  if a.ext then processExtendedScancode kb (strokeByte a.code a.up)
  else processSet1Scancode now kb (strokeByte a.code a.up)

def runAll (now : UInt64) (kb : Keyboard) (actions : List KeyAction) : Keyboard :=
  actions.foldl (KeyAction.run now) kb

def KeyAction.Accepted (now : UInt64) (ks : KeyState) (a : KeyAction) : Prop :=
  if a.ext then ks.extKeyDown a.code = false else ¬ Repeats now ks a.code

instance (now : UInt64) (ks : KeyState) (a : KeyAction) : Decidable (a.Accepted now ks) :=
  inferInstanceAs (Decidable (if a.ext then ks.extKeyDown a.code = false else ¬ Repeats now ks a.code))

def KeyAction.keysAfter (now : UInt64) (ks : KeyState) (a : KeyAction) : KeyState :=
  if a.up then if a.ext then extRelease ks a.code else set1Release ks a.code
  else if a.Accepted now ks then
    if a.ext then extPress ks a.code else pressKeys (markDown now ks a.code) a.code
  else ks

/-- What `typeKey` pushes. -/
def typeOuts (ks : KeyState) (code : ℕ) : List Out :=
  if code = 0x39 then [.key 32, .event (UInt16.ofNat keySpace.toNat)]
  else if ks.ctrlDown && ks.altDown && 0x3b ≤ code && code ≤ 0x40 then [.key (keyTty1 + (code - 0x3b))]
  else if ks.ctrlDown && ks.shiftDown && code = 0x2e then [.key keyCopy]
  else if ks.ctrlDown && ks.shiftDown && code = 0x2f then [.key keyPaste]
  else if ks.ctrlDown && code = 0x2e then [.interrupt, .key keyCtrlC]
  else
    match if ks.ctrlDown then ctrlLetter ks code else none with
    | some key => [.key key]
    | none => if layoutChar ks code ≠ 0 then [.key (signedChar (layoutChar ks code))] else []

/-- What `pressKey` pushes. -/
def pressOuts (ks : KeyState) (code : ℕ) : List Out :=
  if code = 0x2a ∨ code = 0x36 then []
  else if code = 0x1d then [.key keyCtrl]
  else if code = 0x38 then [.key keyAlt]
  else typeOuts ks code

/-- The events of a release: the one of a key with a code of its own, and the one of its character. -/
def releaseEvents (ks : KeyState) (code : ℕ) : List UInt16 :=
  (set1ReleaseCode code).toList.map (fun key => releaseEvent key.toNat) ++
    if layoutChar ks code ≠ 0 then [releaseEvent (layoutChar ks code).toNat] else []

def extReleaseEvents (code : ℕ) : List UInt16 :=
  (extReleaseCode code).toList.map fun key => releaseEvent key.toNat

def KeyAction.pressed (ks : KeyState) (a : KeyAction) : List Out :=
  if a.ext then (extPressKey ks a.code).toList.map Out.key else pressOuts ks a.code

def KeyAction.released (ks : KeyState) (a : KeyAction) : List UInt16 :=
  if a.ext then extReleaseEvents a.code else releaseEvents ks a.code

def KeyAction.outs (now : UInt64) (ks : KeyState) (a : KeyAction) : List Out :=
  if a.up then (a.released ks).map Out.event
  else if a.Accepted now ks then a.pressed ks else []

/-! ### Keys without a character -/

/-- The tables of all layouts have nothing at the place of the key. -/
def NoChar (code : ℕ) : Prop :=
  ∀ table ∈ [normalMap, itNormalMap, itAltgrMap, itAltgrShiftMap, itAccentMap, itAccentShiftMap,
    deNormalMap, deAltgrMap], mapAt table code = 0

instance (code : ℕ) : Decidable (NoChar code) :=
  inferInstanceAs (Decidable (∀ table ∈ [normalMap, itNormalMap, itAltgrMap, itAltgrShiftMap,
    itAccentMap, itAccentShiftMap, deNormalMap, deAltgrMap], mapAt table code = 0))

theorem layoutChar_of_noChar (h : NoChar code) (ks : KeyState) : layoutChar ks code = 0 := by
  simp only [NoChar, List.mem_cons, List.not_mem_nil, or_false, forall_eq_or_imp, forall_eq] at h
  obtain ⟨hn, hi, hia, hias, hac, hacs, hd, hda⟩ := h
  cases hl : ks.layout <;> cases hs : ks.shiftDown <;>
    simp [layoutChar, hl, hs, shiftedWithCaps, hn, hi, hia, hias, hac, hacs, hd, hda]

theorem noChar_of_modifier (h : code = 0x2a ∨ code = 0x36 ∨ code = 0x1d ∨ code = 0x38 ∨ code = 0x3a) :
    NoChar code := by
  rcases h with rfl | rfl | rfl | rfl | rfl <;> decide

theorem layoutChar_congr (hl : ks.layout = ks'.layout) (ha : ks.altgrDown = ks'.altgrDown)
    (hs : ks.shiftDown = ks'.shiftDown) (hc : ks.capsLock = ks'.capsLock) (code : ℕ) :
    layoutChar ks code = layoutChar ks' code := by
  obtain ⟨⟩ := ks
  obtain ⟨⟩ := ks'
  dsimp only at hl ha hs hc
  subst hl ha hs hc
  rfl

theorem layoutChar_set1Release (ks : KeyState) (code : ℕ) :
    layoutChar (set1Release ks code) code = layoutChar ks code := by
  by_cases hmod : code = 0x2a ∨ code = 0x36 ∨ code = 0x1d ∨ code = 0x38 ∨ code = 0x3a
  · rw [layoutChar_of_noChar (noChar_of_modifier hmod), layoutChar_of_noChar (noChar_of_modifier hmod)]
  · simp only [not_or] at hmod
    obtain ⟨h₁, h₂, h₃, h₄, -⟩ := hmod
    rw [set1Release]
    simp only [h₁, h₂, h₃, h₄, if_false]
    exact layoutChar_congr rfl rfl rfl rfl code

/-! ### A call is its pushes -/

theorem releaseKey_eq (kb : Keyboard) (code : ℕ) :
    releaseKey kb code =
      emits { kb with keys := set1Release kb.keys code } ((releaseEvents kb.keys code).map Out.event) := by
  rw [releaseKey, releaseEvents]
  cases set1ReleaseCode code with
  | none =>
    simp only [layoutChar_set1Release]
    split_ifs
    · rfl
    · rfl
  | some key =>
    simp only [keys_pushEvent, layoutChar_set1Release]
    split_ifs
    · rfl
    · rfl

theorem typeKey_eq (kb : Keyboard) (code : ℕ) :
    typeKey kb code =
      emits { kb with keys := if code = 0x3a then { kb.keys with capsLock := !kb.keys.capsLock }
        else kb.keys } (typeOuts kb.keys code) := by
  by_cases hcaps : code = 0x3a
  · have hchar : layoutChar kb.keys code = 0 := layoutChar_of_noChar (noChar_of_modifier (by simp [hcaps])) _
    have hnone : ctrlLetter kb.keys code = none := by
      rw [ctrlLetter, hchar]
      rfl
    have hne : ¬ code = 0x39 ∧ ¬ code = 0x2e ∧ ¬ code = 0x2f ∧ ¬ 0x3b ≤ code := by omega
    simp only [typeKey, typeOuts, hne, hnone, hchar, if_pos hcaps, decide_false, Bool.and_false,
      Bool.false_and, Bool.false_eq_true, if_false, ite_self, ne_eq, not_true_eq_false, emits_nil]
  · rw [if_neg hcaps, typeKey, typeOuts]
    simp only [if_neg hcaps]
    generalize (if kb.keys.ctrlDown = true then ctrlLetter kb.keys code else none) = letter
    cases letter with
    | none =>
      dsimp only
      split_ifs <;> rfl
    | some key =>
      dsimp only
      split_ifs <;> rfl

theorem pressKey_eq (kb : Keyboard) (code : ℕ) :
    pressKey kb code =
      emits { kb with keys := pressKeys kb.keys code } (pressOuts kb.keys code) := by
  rw [pressKey, pressKeys, pressOuts]
  by_cases h₁ : code = 0x2a
  · rw [if_pos h₁, if_pos h₁, if_pos (.inl h₁), emits_nil]
  · by_cases h₂ : code = 0x36
    · rw [if_neg h₁, if_neg h₁, if_pos h₂, if_pos h₂, if_pos (.inr h₂), emits_nil]
    · rw [if_neg h₁, if_neg h₁, if_neg h₂, if_neg h₂, if_neg (not_or.2 ⟨h₁, h₂⟩)]
      by_cases h₃ : code = 0x1d
      · rw [if_pos h₃, if_pos h₃, if_pos h₃]
        rfl
      · by_cases h₄ : code = 0x38
        · rw [if_neg h₃, if_neg h₃, if_neg h₃, if_pos h₄, if_pos h₄, if_pos h₄]
          rfl
        · rw [if_neg h₃, if_neg h₃, if_neg h₃, if_neg h₄, if_neg h₄, if_neg h₄, typeKey_eq]

variable {a : KeyAction} {s : Stroke}

/-- **A call is its pushes behind its change of state.** -/
theorem run_eq (now : UInt64) (kb : Keyboard) (hcode : a.code < 128) :
    a.run now kb = emits { kb with keys := a.keysAfter now kb.keys } (a.outs now kb.keys) := by
  obtain ⟨ext, code, up⟩ := a
  have hcode : code < 128 := hcode
  have hmod : (code + 128) % 128 = code := by omega
  cases ext with
  | false =>
    rw [KeyAction.run, if_neg Bool.false_ne_true, processSet1Scancode, toNat_strokeByte hcode]
    cases up with
    | true =>
      simp only [if_true, hmod, Nat.le_add_left]
      exact releaseKey_eq kb code
    | false =>
      simp only [Bool.false_eq_true, if_false, Nat.mod_eq_of_lt hcode, not_le.2 hcode]
      by_cases hrep : Repeats now kb.keys code
      · simp [hrep, KeyAction.keysAfter, KeyAction.outs, KeyAction.Accepted]
      · rw [if_neg hrep, pressKey_eq]
        simp only [KeyAction.keysAfter, KeyAction.outs, KeyAction.Accepted, KeyAction.pressed, hrep,
          Bool.false_eq_true, if_false, not_false_eq_true, if_true]
        rfl
  | true =>
    rw [KeyAction.run, if_pos rfl, processExtendedScancode, toNat_strokeByte hcode]
    cases up with
    | true =>
      simp only [if_true, hmod, Nat.le_add_left]
      simp only [KeyAction.keysAfter, KeyAction.outs, KeyAction.released, extReleaseEvents, if_true]
      cases extReleaseCode code with
      | none => rfl
      | some key => rfl
    | false =>
      simp only [Bool.false_eq_true, if_false, Nat.mod_eq_of_lt hcode, not_le.2 hcode]
      by_cases hdown : kb.keys.extKeyDown code = true
      · simp [hdown, KeyAction.keysAfter, KeyAction.outs, KeyAction.Accepted]
      · have hshift : extPressKey (extPress kb.keys code) code = extPressKey kb.keys code := by
          rw [extPress]
          split_ifs <;> rfl
        rw [if_neg hdown, hshift]
        simp only [KeyAction.keysAfter, KeyAction.outs, KeyAction.Accepted, KeyAction.pressed, hdown,
          Bool.false_eq_true, if_false, if_true]
        cases extPressKey kb.keys code with
        | none => rfl
        | some key => rfl

/-! ### The two encodings -/

/-- The codes of set 2 by the codes of set 1, as the controller translates them. -/
def set2Codes : List ℕ :=
  [0, 118, 22, 30, 38, 37, 46, 54, 61, 62, 70, 69, 78, 85, 102, 13,
   21, 29, 36, 45, 44, 53, 60, 67, 68, 77, 84, 91, 90, 20, 28, 27,
   35, 43, 52, 51, 59, 66, 75, 76, 82, 14, 18, 93, 26, 34, 33, 42,
   50, 49, 58, 65, 73, 74, 89, 124, 17, 41, 88, 5, 6, 4, 12, 3,
   11, 0x83, 10, 1, 9, 119, 126, 108, 117, 125, 123, 107, 115, 116, 121, 105,
   114, 122, 112, 113, 0x84, 96, 97, 120, 7, 15, 23, 31, 39, 47, 55, 63,
   71, 79, 86, 94, 8, 16, 24, 32, 40, 48, 56, 64, 72, 80, 87, 111]

def set2Code (code : ℕ) : Byte := UInt8.ofNat (set2Codes.getD code 0)

def Stroke.bytes2 : Stroke → List Byte
  | .key false code false => [set2Code code]
  | .key false code true => [0xf0, set2Code code]
  | .key true code false => [0xe0, set2Code code]
  | .key true code true => [0xe0, 0xf0, set2Code code]
  | .pause => [0xe1, 0x14, 0x77, 0xe1, 0xf0, 0x14, 0xf0, 0x77]

/-- Bytes that come in one after the other, each at a time of its own. -/
def timed (times : ℕ → UInt64) (bytes : List Byte) : List (UInt64 × Byte) :=
  bytes.zipIdx.map fun b => (times b.2, b.1)

/-- The calls a stroke comes to.  The Pause key looks like Ctrl and Num Lock. -/
def Stroke.actions : Stroke → List KeyAction
  | .key ext code up => [⟨ext, code, up⟩]
  | .pause => [⟨false, 0x61, true⟩, ⟨false, 0x1d, false⟩, ⟨false, 0x45, false⟩, ⟨false, 0x61, true⟩,
      ⟨false, 0x1d, true⟩, ⟨false, 0x45, true⟩]

def set2Table (ext : Bool) : List (Byte × Byte) := if ext then set2ExtToSet1 else set2ToSet1

def KeyAction.mapped (a : KeyAction) : Bool := ((set2Table a.ext).lookup (set2Code a.code)).isSome

theorem Stroke.Valid.code_lt (h : s.Valid) (ha : a ∈ s.actions) :
    a.code < 0x6e := by
  cases s with
  | key ext code up =>
    obtain rfl := List.mem_singleton.1 ha
    cases ext with
    | false => exact lt_of_le_of_lt h.2 (by norm_num)
    | true => exact h.2.1
  | pause =>
    simp only [Stroke.actions, List.mem_cons, List.not_mem_nil, or_false] at ha
    rcases ha with rfl | rfl | rfl | rfl | rfl | rfl <;> norm_num

theorem run_now (h : a.ext = true ∨ a.up = true ∨ a.code ≠ 0x0e) (hcode : a.code < 128) :
    a.run now kb = a.run now' kb := by
  obtain ⟨ext, code, up⟩ := a
  cases ext with
  | true => rfl
  | false =>
    cases up with
    | true =>
      have hle : 128 ≤ (strokeByte code true).toNat := by
        rw [toNat_strokeByte hcode, if_pos rfl]
        omega
      simp only [KeyAction.run, Bool.false_eq_true, if_false, processSet1Scancode, if_pos hle]
    | false =>
      have hne : code ≠ 0x0e := by simpa using h
      have hcode : code < 128 := hcode
      simp only [KeyAction.run, Bool.false_eq_true, if_false, processSet1Scancode, Repeats, markDown,
        toNat_strokeByte hcode, Nat.mod_eq_of_lt hcode, hne, ne_eq, not_false_eq_true, true_or]

/-- The driver decodes set 1, and no prefix is pending. -/
structure Ready1 (ks : KeyState) : Prop extends Plain ks where
  noPrefix : ks.extendedPrefix = false

/-- The driver decodes set 2, and no prefix is pending. -/
structure Ready2 (ks : KeyState) : Prop where
  raw : ks.rawSet2Mode = true
  set : ks.scancodeSet = 2
  breakPrefix : ks.set2BreakPrefix = false
  noPrefix : ks.extendedPrefix = false

theorem keysAfter_modes (now : UInt64) (ks : KeyState) (a : KeyAction) :
    (a.keysAfter now ks).rawSet2Mode = ks.rawSet2Mode ∧
      (a.keysAfter now ks).scancodeSet = ks.scancodeSet ∧
      (a.keysAfter now ks).set2BreakPrefix = ks.set2BreakPrefix ∧
      (a.keysAfter now ks).extendedPrefix = ks.extendedPrefix := by
  rw [KeyAction.keysAfter]
  split_ifs
  · rw [extRelease]
    split_ifs <;> exact ⟨rfl, rfl, rfl, rfl⟩
  · rw [set1Release_eq]
    exact ⟨rfl, rfl, rfl, rfl⟩
  · rw [extPress]
    split_ifs <;> exact ⟨rfl, rfl, rfl, rfl⟩
  · rw [pressKeys_eq]
    exact ⟨rfl, rfl, rfl, rfl⟩
  · exact ⟨rfl, rfl, rfl, rfl⟩

theorem Ready1.run (h : Ready1 kb.keys) (now : UInt64) (hcode : a.code < 128) :
    Ready1 (a.run now kb).keys := by
  obtain ⟨hraw, hset, hbreak, hext⟩ := keysAfter_modes now kb.keys a
  rw [run_eq now kb hcode, keys_emits]
  exact ⟨⟨hraw.trans h.raw, hset.trans h.set, hbreak.trans h.breakPrefix⟩, hext.trans h.noPrefix⟩

theorem Ready2.run (h : Ready2 kb.keys) (now : UInt64) (hcode : a.code < 128) :
    Ready2 (a.run now kb).keys := by
  obtain ⟨hraw, hset, hbreak, hext⟩ := keysAfter_modes now kb.keys a
  rw [run_eq now kb hcode, keys_emits]
  exact ⟨hraw.trans h.raw, hset.trans h.set, hbreak.trans h.breakPrefix, hext.trans h.noPrefix⟩

theorem withKeys_noPrefix (h : kb.keys.extendedPrefix = false) :
    { kb with keys := { kb.keys with extendedPrefix := false } } = kb := by
  rw [← h]

theorem processScancode_ready1 (h : Ready1 kb.keys) (now : UInt64) {up : Bool}
    (hfree : ¬ Taken (strokeByte code up)) :
    processScancode now kb (strokeByte code up) = KeyAction.run now kb ⟨false, code, up⟩ := by
  rw [processScancode_of_plain h.toPlain hfree, h.noPrefix]
  rfl

/-- **In set 1 a stroke comes to its calls.** -/
theorem feed_bytes (h : Ready1 kb.keys) (hv : s.Valid) (hd : Decodable s)
    (times : ℕ → UInt64) : feed kb (timed times s.bytes) = runAll (times 0) kb s.actions := by
  cases s with
  | key ext code up =>
    have hfree := not_taken_of_decodable hv hd
    cases ext with
    | false => exact processScancode_ready1 h _ hfree
    | true =>
      have hp : Plain { kb.keys with extendedPrefix := true } := ⟨h.raw, h.set, h.breakPrefix⟩
      have hstep : processScancode (times 1) { kb with keys := { kb.keys with extendedPrefix := true } }
          (strokeByte code up) = processExtendedScancode kb (strokeByte code up) := by
        rw [processScancode_of_plain hp hfree]
        exact congrArg (fun kb => processExtendedScancode kb (strokeByte code up))
          (withKeys_noPrefix h.noPrefix)
      exact hstep
  | pause =>
    -- none of the six bytes is looked at in front of the decoder, and none is the backspace key
    have hstep : ∀ (kb : Keyboard), Ready1 kb.keys → ∀ (n : UInt64) (code : ℕ) (up : Bool),
        code = 0x61 ∧ up = true ∨ code = 0x1d ∨ code = 0x45 →
        processScancode n kb (strokeByte code up) = KeyAction.run (times 0) kb ⟨false, code, up⟩ ∧
          Ready1 (KeyAction.run (times 0) kb ⟨false, code, up⟩).keys := by
      intro kb hr n code up hcode
      have hlt : code < 128 := by omega
      have hne : code ≠ 0x0e := by omega
      refine ⟨?_, hr.run (times 0) hlt⟩
      rw [processScancode_ready1 hr, run_now (.inr (.inr hne)) hlt]
      refine not_taken_strokeByte hlt fun m hm heq => ?_
      fin_cases hm <;> split_ifs at heq <;> simp_all
    obtain ⟨h₁, hr₁⟩ := hstep kb h (times 0) 0x61 true (.inl ⟨rfl, rfl⟩)
    obtain ⟨h₂, hr₂⟩ := hstep _ hr₁ (times 1) 0x1d false (.inr (.inl rfl))
    obtain ⟨h₃, hr₃⟩ := hstep _ hr₂ (times 2) 0x45 false (.inr (.inr rfl))
    obtain ⟨h₄, hr₄⟩ := hstep _ hr₃ (times 3) 0x61 true (.inl ⟨rfl, rfl⟩)
    obtain ⟨h₅, hr₅⟩ := hstep _ hr₄ (times 4) 0x1d true (.inr (.inl rfl))
    obtain ⟨h₆, -⟩ := hstep _ hr₅ (times 5) 0x45 true (.inr (.inr rfl))
    simp only [runAll, Stroke.actions, List.foldl_cons, List.foldl_nil]
    rw [← h₆, ← h₅, ← h₄, ← h₃, ← h₂, ← h₁]
    rfl

theorem lookup_set2Code : ∀ ext : Bool, ∀ code < 0x6e,
    (set2Table ext).lookup (set2Code code) = none ∨
      (set2Table ext).lookup (set2Code code) = some (UInt8.ofNat code) ∧
        UInt8.ofNat code ||| 0x80 = UInt8.ofNat (code + 128) := by
  decide +kernel

theorem set2Code_ne : ∀ code < 0x6e, set2Code code ≠ 0xfa ∧ set2Code code ≠ 0xfe ∧
    set2Code code ≠ 0xaa ∧ set2Code code ≠ 0xf0 ∧ set2Code code ≠ 0xe0 := by
  decide +kernel

theorem processScancode_raw (h : kb.keys.rawSet2Mode = true) (now : UInt64) {b : Byte}
    (hb : b ≠ 0xfa ∧ b ≠ 0xfe ∧ b ≠ 0xaa ∧ b ≠ 0xf0 ∧ b ≠ 0xe0) :
    processScancode now kb b = processSet2 now kb b := by
  obtain ⟨h₁, h₂, h₃, h₄, h₅⟩ := hb
  rw [processScancode]
  simp only [h₁, h₂, h₃, h₄, h₅, h, or_self, if_false, Bool.true_eq_false, false_and, true_or, if_true]

def withPrefixes (kb : Keyboard) (ext up : Bool) : Keyboard :=
  { kb with keys := { kb.keys with set2BreakPrefix := up, extendedPrefix := ext } }

theorem withPrefixes_none (h : Ready2 kb.keys) : withPrefixes kb false false = kb := by
  obtain ⟨buffer, events, generation, consumed, ks⟩ := kb
  obtain ⟨⟩ := ks
  obtain ⟨-, -, hbreak, hext⟩ := h
  dsimp only at hbreak hext
  subst hbreak hext
  rfl

theorem processScancode_e0 (h : Ready2 kb.keys) (now : UInt64) :
    processScancode now kb 0xe0 = withPrefixes kb true false := by
  rw [processScancode_extended, withPrefixes, ← h.breakPrefix]

theorem processScancode_f0 (h : Ready2 kb.keys) (now : UInt64) (ext : Bool) :
    processScancode now (withPrefixes kb ext false) 0xf0 = withPrefixes kb ext true := by
  obtain ⟨buffer, events, generation, consumed, ks⟩ := kb
  obtain ⟨⟩ := ks
  obtain ⟨hraw, hset, -, -⟩ := h
  dsimp only at hraw hset
  subst hraw hset
  rfl

theorem processSet2_eq (h : Ready2 kb.keys) (now : UInt64) (ext up : Bool) (b : Byte) :
    processSet2 now (withPrefixes kb ext up) b =
      match (set2Table ext).lookup b with
      | none => kb
      | some mapped =>
        if ext then processExtendedScancode kb (if up then mapped ||| 0x80 else mapped)
        else processSet1Scancode now kb (if up then mapped ||| 0x80 else mapped) := by
  exact congrArg (fun kb => match (set2Table ext).lookup b with
    | none => kb
    | some mapped =>
      if ext then processExtendedScancode kb (if up then mapped ||| 0x80 else mapped)
      else processSet1Scancode now kb (if up then mapped ||| 0x80 else mapped)) (withPrefixes_none h)

theorem processScancode_ready2 (h : Ready2 kb.keys) (now : UInt64)
    (hcode : a.code < 0x6e) :
    processScancode now (withPrefixes kb a.ext a.up) (set2Code a.code) =
      if a.mapped then a.run now kb else kb := by
  obtain ⟨ext, code, up⟩ := a
  have hraw : (withPrefixes kb ext up).keys.rawSet2Mode = true := h.raw
  rw [processScancode_raw hraw now (set2Code_ne code hcode), processSet2_eq h, KeyAction.mapped]
  rcases lookup_set2Code ext code hcode with hnone | ⟨hsome, hup⟩
  · rw [hnone]
    rfl
  · have hbyte : (if up = true then UInt8.ofNat code ||| 0x80 else UInt8.ofNat code) = strokeByte code up := by
      rw [strokeByte, hup]
      split_ifs <;> rfl
    rw [hsome]
    dsimp only
    rw [hbyte]
    rfl

theorem processScancode_e1 (h : Ready2 kb.keys) (now : UInt64) : processScancode now kb 0xe1 = kb := by
  have hnone : (set2Table false).lookup 0xe1 = none := by decide
  have heq := processSet2_eq h now false false 0xe1
  rw [withPrefixes_none h, hnone] at heq
  rw [processScancode_raw h.raw now (by decide), heq]

theorem processScancode_key2 (h : Ready2 kb.keys) (n now : UInt64) (a : KeyAction) (hcode : a.code < 0x6e)
    (hn : a.ext = true ∨ a.up = true ∨ a.code ≠ 0x0e ∨ n = now) :
    processScancode n (withPrefixes kb a.ext a.up) (set2Code a.code) =
      runAll now kb ([a].filter KeyAction.mapped) := by
  have hnow : a.run n kb = a.run now kb := by
    by_cases hne : a.ext = true ∨ a.up = true ∨ a.code ≠ 0x0e
    · exact run_now hne (by omega)
    · rw [show n = now by tauto]
  rw [processScancode_ready2 h n hcode, hnow, List.filter_singleton]
  cases a.mapped with
  | true => rfl
  | false => rfl

theorem feed_pause2 (h : Ready2 kb.keys) (times : ℕ → UInt64) :
    feed kb (timed times Stroke.pause.bytes2) =
      runAll (times 0) kb [⟨false, 0x1d, false⟩, ⟨false, 0x1d, true⟩] := by
  have hctrl : KeyAction.mapped ⟨false, 0x1d, false⟩ = true ∧ KeyAction.mapped ⟨false, 0x1d, true⟩ = true ∧
      KeyAction.mapped ⟨false, 0x45, false⟩ = false ∧ KeyAction.mapped ⟨false, 0x45, true⟩ = false := by
    decide
  obtain ⟨hdown, hup, hnum, hnumUp⟩ := hctrl
  have hr₁ := h.run (times 0) (a := ⟨false, 0x1d, false⟩) (by norm_num)
  have hr₂ := hr₁.run (times 0) (a := ⟨false, 0x1d, true⟩) (by norm_num)
  have h₁ := processScancode_key2 h (times 1) (times 0) ⟨false, 0x1d, false⟩ (by norm_num) (by norm_num)
  have h₂ := processScancode_key2 hr₁ (times 2) (times 0) ⟨false, 0x45, false⟩ (by norm_num) (by norm_num)
  have h₃ := processScancode_key2 hr₁ (times 5) (times 0) ⟨false, 0x1d, true⟩ (by norm_num) (by norm_num)
  have h₄ := processScancode_key2 hr₂ (times 7) (times 0) ⟨false, 0x45, true⟩ (by norm_num) (by norm_num)
  rw [withPrefixes_none h, List.filter_singleton, hdown] at h₁
  rw [withPrefixes_none hr₁, List.filter_singleton, hnum] at h₂
  rw [← processScancode_f0 hr₁ (times 4), withPrefixes_none hr₁, List.filter_singleton, hup] at h₃
  rw [← processScancode_f0 hr₂ (times 6), withPrefixes_none hr₂, List.filter_singleton, hnumUp] at h₄
  have hfeed : feed kb (timed times Stroke.pause.bytes2) =
      processScancode (times 7) (processScancode (times 6) (processScancode (times 5)
        (processScancode (times 4) (processScancode (times 3) (processScancode (times 2)
          (processScancode (times 1) (processScancode (times 0) kb 0xe1) (set2Code 0x1d))
            (set2Code 0x45)) 0xe1) 0xf0) (set2Code 0x1d)) 0xf0) (set2Code 0x45) := rfl
  have h₁' : processScancode (times 1) kb (set2Code 0x1d) =
      KeyAction.run (times 0) kb ⟨false, 0x1d, false⟩ := h₁
  have h₂' : processScancode (times 2) (KeyAction.run (times 0) kb ⟨false, 0x1d, false⟩) (set2Code 0x45) =
      KeyAction.run (times 0) kb ⟨false, 0x1d, false⟩ := h₂
  rw [hfeed, processScancode_e1 h, h₁', h₂', processScancode_e1 hr₁]
  exact (congrArg (fun kb => processScancode (times 7) (processScancode (times 6) kb 0xf0) (set2Code 0x45))
    h₃).trans h₄

/-- **In set 2 a stroke comes to those of its calls that the tables have.** -/
theorem feed_bytes2 (h : Ready2 kb.keys) (hv : s.Valid) (times : ℕ → UInt64) :
    feed kb (timed times s.bytes2) = runAll (times 0) kb (s.actions.filter KeyAction.mapped) := by
  cases s with
  | key ext code up =>
    have hcode : code < 0x6e := hv.code_lt (List.mem_singleton_self (⟨ext, code, up⟩ : KeyAction))
    have hlast := fun n hn => processScancode_key2 h n (times 0) ⟨ext, code, up⟩ hcode hn
    cases ext with
    | false =>
      cases up with
      | false =>
        have hlast := hlast (times 0) (by simp)
        rw [withPrefixes_none h] at hlast
        exact hlast
      | true =>
        have hlast := hlast (times 1) (by simp)
        rw [← processScancode_f0 h (times 0), withPrefixes_none h] at hlast
        exact hlast
    | true =>
      cases up with
      | false =>
        have hlast := hlast (times 1) (by simp)
        rw [← processScancode_e0 h (times 0)] at hlast
        exact hlast
      | true =>
        have hlast := hlast (times 2) (by simp)
        rw [← processScancode_f0 h (times 1), ← processScancode_e0 h (times 0)] at hlast
        exact hlast
  | pause =>
    have hfilter : Stroke.pause.actions.filter KeyAction.mapped =
        [⟨false, 0x1d, false⟩, ⟨false, 0x1d, true⟩] := by
      decide
    rw [hfilter]
    exact feed_pause2 h times

end Tnu.Drivers
