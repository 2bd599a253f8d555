/-
**The keyboard driver.**

`kernel/arch/x86_64/keyboard.c` decodes the bytes of the i8042 controller, in scancode set 1 or in
set 2, into keys for the terminal and events for the event device.  Set 2 is decoded by two tables
that lead back to set 1.

Main definitions:

* `layoutChar` — the character of a key;
* `processSet1Scancode`, `processExtendedScancode`,
  `processScancode` — the decoders;
* `keyboardTryGetchar`, `keyboardTryGetEvent`,
  `keyboardConsumeInterrupt`, `keyboardAckInterrupt` — what the rest of the
  kernel takes out.

Main results:

* `keys_pushKey`, `keys_pushEvent` — the buffers are apart from the rest;
* `layoutChar_capsLock` — the caps lock key has no character;
* `keys_processSet1Scancode`, `keys_processExtendedScancode` — what the
  decoders do to the state of the keys.
-/

import Tnu.CString

set_option autoImplicit false

namespace Tnu.Drivers

/-! ### Keys -/

abbrev keyUp : ℤ := 0x101

abbrev keyDown : ℤ := 0x102

abbrev keyLeft : ℤ := 0x103

abbrev keyRight : ℤ := 0x104

abbrev keyHome : ℤ := 0x105

abbrev keyEnd : ℤ := 0x106

abbrev keyDelete : ℤ := 0x107

abbrev keyCtrlC : ℤ := 0x108

abbrev keyCopy : ℤ := 0x109

abbrev keyPaste : ℤ := 0x10a

/-- `KEY_SHIFT_LEFT`: the left arrow under Shift. -/
abbrev keyShiftLeft : ℤ := 0x10b

/-- `KEY_SHIFT_RIGHT`: the right arrow under Shift. -/
abbrev keyShiftRight : ℤ := 0x10c

/-- `KEY_TTY1`; `KEY_TTY2` to `KEY_TTY6` follow it. -/
abbrev keyTty1 : ℤ := 0x10d

abbrev keySpace : ℤ := 0x113

abbrev keyCtrl : ℤ := 0x114

abbrev keyAlt : ℤ := 0x115

abbrev kbdBuffer : ℕ := 256

abbrev kbdEventBuffer : ℕ := 1024

/-- The layouts of `keyboard_set_layout`. -/
inductive Layout
  | us
  | uk
  | de
  | fr
  | it
  | es
  | nl
  | lt
  | pl
  | dvorak
  deriving DecidableEq, Repr

/-- The static state apart from the buffers. -/
structure KeyState where
  keyDown : ℕ → Bool
  extKeyDown : ℕ → Bool
  shiftDown : Bool
  leftShiftDown : Bool
  rightShiftDown : Bool
  ctrlDown : Bool
  altDown : Bool
  altgrDown : Bool
  capsLock : Bool
  extendedPrefix : Bool
  set2BreakPrefix : Bool
  rawSet2Mode : Bool
  scancodeSet : ℕ
  backspaceLastMakeTick : UInt64
  layout : Layout

/-- The static state of `keyboard.c`.  The buffers are rings; they hold one entry less than they
have places. -/
structure Keyboard where
  buffer : List ℤ
  events : List UInt16
  interruptGeneration : ℕ
  interruptConsumed : ℕ
  keys : KeyState

/-- `push_event`: a full buffer loses its oldest event. -/
def pushEvent (kb : Keyboard) (ev : UInt16) : Keyboard :=
  { kb with events :=
      (if kb.events.length < kbdEventBuffer - 1 then kb.events else kb.events.tail) ++ [ev] }

/-- `push_key`: a full buffer takes no key. -/
def pushKey (kb : Keyboard) (key : ℤ) : Keyboard :=
  if kb.buffer.length < kbdBuffer - 1 then
    pushEvent { kb with buffer := kb.buffer ++ [key] } (UInt16.ofNat (key % 0x8000).toNat)
  else kb

@[simp] theorem keys_pushEvent (kb : Keyboard) (ev : UInt16) : (pushEvent kb ev).keys = kb.keys := rfl

@[simp] theorem keys_pushKey (kb : Keyboard) (key : ℤ) : (pushKey kb key).keys = kb.keys := by
  rw [pushKey]
  split_ifs
  · rfl
  · rfl

/-! ### Characters -/

/-- A table of characters by runs of codes: the entries that are not listed are zero. -/
def mapAt (rows : List (ℕ × List Byte)) (code : ℕ) : Byte :=
  match rows.find? fun r => r.1 ≤ code ∧ code < r.1 + r.2.length with
  | some r => r.2.getD (code - r.1) 0
  | none => 0

def normalMap : List (ℕ × List Byte) :=
  [(0x01, [27]), (0x02, lit "1234567890-="), (0x0e, [8, 9]), (0x10, lit "qwertyuiop[]\n"),
   (0x1e, lit "asdfghjkl;'`"), (0x2b, lit "\\zxcvbnm,./"), (0x39, lit " "), (0x56, lit "<")]

def shiftMap : List (ℕ × List Byte) :=
  [(0x01, [27]), (0x02, lit "!@#$%^&*()_+"), (0x0e, [8, 9]),
   (0x10, lit "QWERTYUIOP\x7b\x7d\n"), (0x1e, lit "ASDFGHJKL:\"~"), (0x2b, lit "|ZXCVBNM<>?"),
   (0x39, lit " "), (0x56, lit ">")]

def itNormalMap : List (ℕ × List Byte) :=
  [(0x01, [27]), (0x02, lit "1234567890'^"), (0x0e, [8, 9]), (0x10, lit "qwertyuiope+\n"),
   (0x1e, lit "asdfghjkloa\\"), (0x2b, lit "uzxcvbnm,.-"), (0x39, lit " "), (0x56, lit "<")]

def itShiftMap : List (ℕ × List Byte) :=
  [(0x01, [27]), (0x02, lit "!\"#$%&/()=?^"), (0x0e, [8, 9]), (0x10, lit "QWERTYUIOPE*\n"),
   (0x1e, lit "ASDFGHJKLOA|"), (0x2b, lit "UZXCVBNM;:_"), (0x39, lit " "), (0x56, lit ">")]

def itAltgrMap : List (ℕ × List Byte) := [(0x1a, lit "[]"), (0x27, lit "@#")]

def itAltgrShiftMap : List (ℕ × List Byte) := [(0x1a, lit "\x7b\x7d"), (0x27, lit "@#")]

/-- `it_accent_map`: accented letters of code page 437. -/
def itAccentMap : List (ℕ × List Byte) :=
  [(0x0d, [0x8d]), (0x1a, [0x8a]), (0x27, [0x95, 0x85]), (0x2b, [0x97])]

def itAccentShiftMap : List (ℕ × List Byte) := [(0x1a, [0x82])]

/-- `de_normal_map`: the umlauts and the sharp s are those of code page 437. -/
def deNormalMap : List (ℕ × List Byte) :=
  [(0x01, [27]), (0x02, lit "1234567890" ++ [0xe1] ++ lit "'"), (0x0e, [8, 9]),
   (0x10, lit "qwertzuiop" ++ [0x81] ++ lit "+\n"), (0x1e, lit "asdfghjkl" ++ [0x94, 0x84] ++ lit "^"),
   (0x2b, lit "#yxcvbnm,.-"), (0x39, lit " "), (0x56, lit "<")]

def deShiftMap : List (ℕ × List Byte) :=
  [(0x01, [27]), (0x02, lit "!\"#$%&/()=?`"), (0x0e, [8, 9]),
   (0x10, lit "QWERTZUIOP" ++ [0x9a] ++ lit "*\n"), (0x1e, lit "ASDFGHJKL" ++ [0x99, 0x8e] ++ lit "`"),
   (0x2b, lit "'YXCVBNM;:_"), (0x39, lit " "), (0x56, lit ">")]

/-- `de_altgr_map`, and the same table again as `de_altgr_shift_map`. -/
def deAltgrMap : List (ℕ × List Byte) :=
  [(0x08, lit "\x7b[]\x7d\\"), (0x10, lit "@"), (0x1b, lit "~"), (0x56, lit "|")]

def isAlpha (c : Byte) : Bool := 97 ≤ c && c ≤ 122 || 65 ≤ c && c ≤ 90

def shiftedWithCaps (ks : KeyState) (normal shifted : Byte) : Byte :=
  if normal = 0 then 0
  else if ks.capsLock && isAlpha normal && isAlpha shifted then
    if ks.shiftDown then normal else shifted
  else if ks.shiftDown then shifted
  else normal

/-- The characters of two strings of the same length, put in correspondence. -/
def transliterate (c : Byte) (source target : List Byte) : Option Byte :=
  (source.zip target).lookup c

/-- The string `qwerty` of `remap_layout`. -/
def qwertyKeys : List Byte := lit "qwertyuiop[]asdfghjkl;'zxcvbnm,./"

/-- The string `dvorak`. -/
def dvorakKeys : List Byte := lit "',.pyfgcrl/=aoeuidhtns-;qjkxbmwvz"

/-- The string `qwerty_shift`. -/
def qwertyShiftKeys : List Byte := lit "QWERTYUIOP\x7b\x7dASDFGHJKL:\"ZXCVBNM<>?"

/-- The string `dvorak_shift`. -/
def dvorakShiftKeys : List Byte := lit "\"<>PYFGCRL?+AOEUIDHTNS_:QJKXBMWVZ"

def remapLayout (layout : Layout) (c : Byte) : Byte :=
  match layout with
  | .fr => (transliterate c (lit "qQaAwWzZ") (lit "aAqQzZwW")).getD c
  | .dvorak =>
    ((transliterate c qwertyKeys dvorakKeys).or
      (transliterate c qwertyShiftKeys dvorakShiftKeys)).getD c
  | .uk => if c = 35 then 126 else c
  | .it | .es => if c = 96 then 39 else if c = 126 then 34 else c
  | _ => c

def layoutChar (ks : KeyState) (code : ℕ) : Byte :=
  match ks.layout with
  | .de =>
    if ks.altgrDown && mapAt deAltgrMap code ≠ 0 then mapAt deAltgrMap code
    else shiftedWithCaps ks (mapAt deNormalMap code) (mapAt deShiftMap code)
  | .it =>
    let altgr := mapAt (if ks.shiftDown then itAltgrShiftMap else itAltgrMap) code
    let accent := mapAt (if ks.shiftDown then itAccentShiftMap else itAccentMap) code
    if ks.altgrDown && altgr ≠ 0 then altgr
    else if accent ≠ 0 then accent
    else shiftedWithCaps ks (mapAt itNormalMap code) (mapAt itShiftMap code)
  | layout =>
    let c := shiftedWithCaps ks (mapAt normalMap code) (mapAt shiftMap code)
    if c ≠ 0 then remapLayout layout c else 0

/-- A `char`, which is signed, as an `int`. -/
def signedChar (c : Byte) : ℤ := if c < 128 then (c.toNat : ℤ) else (c.toNat : ℤ) - 256

/-! ### The decoders -/

def releaseEvent (code : ℕ) : UInt16 := UInt16.ofNat code ||| 0x8000

/-- The release events of the keys behind the prefix `0xe0`. -/
def extReleaseCode : ℕ → Option ℤ
  | 0x47 => some keyHome
  | 0x48 => some keyUp
  | 0x4b => some keyLeft
  | 0x4d => some keyRight
  | 0x4f => some keyEnd
  | 0x50 => some Drivers.keyDown
  | 0x53 => some keyDelete
  | _ => none

/-- The keys behind the prefix `0xe0`. -/
def extPressKey (ks : KeyState) : ℕ → Option ℤ
  | 0x1c => some 10
  | 0x47 => some keyHome
  | 0x48 => some keyUp
  | 0x4b => some (if ks.shiftDown then keyShiftLeft else keyLeft)
  | 0x4d => some (if ks.shiftDown then keyShiftRight else keyRight)
  | 0x4f => some keyEnd
  | 0x50 => some Drivers.keyDown
  | 0x53 => some keyDelete
  | _ => none

/-- What `process_extended_scancode` does to the state of the keys on a release. -/
def extRelease (ks : KeyState) (code : ℕ) : KeyState :=
  let ks := { ks with extKeyDown := Function.update ks.extKeyDown code false }
  if code = 0x1d then { ks with ctrlDown := false }
  else if code = 0x38 then { ks with altDown := false, altgrDown := false }
  else ks

def extPress (ks : KeyState) (code : ℕ) : KeyState :=
  let ks := { ks with extKeyDown := Function.update ks.extKeyDown code true }
  if code = 0x1d then { ks with ctrlDown := true }
  else if code = 0x38 then { ks with altDown := true, altgrDown := true }
  else ks

def processExtendedScancode (kb : Keyboard) (scancode : Byte) : Keyboard :=
  let code := scancode.toNat % 128
  if 128 ≤ scancode.toNat then
    let kb := { kb with keys := extRelease kb.keys code }
    match extReleaseCode code with
    | some key => pushEvent kb (releaseEvent key.toNat)
    | none => kb
  else if kb.keys.extKeyDown code then kb
  else
    let kb := { kb with keys := extPress kb.keys code }
    match extPressKey kb.keys code with
    | some key => pushKey kb key
    | none => kb

/-- What `process_set1_scancode` does to the state of the keys on a release. -/
def set1Release (ks : KeyState) (code : ℕ) : KeyState :=
  let ks := { ks with keyDown := Function.update ks.keyDown code false }
  if code = 0x2a then { ks with leftShiftDown := false, shiftDown := ks.rightShiftDown }
  else if code = 0x36 then { ks with rightShiftDown := false, shiftDown := ks.leftShiftDown }
  else if code = 0x1d then { ks with ctrlDown := false }
  else if code = 0x38 then { ks with altDown := false, altgrDown := false }
  else ks

/-- The event that is pushed in front of the one of the character. -/
def set1ReleaseCode : ℕ → Option ℤ
  | 0x1d => some keyCtrl
  | 0x38 => some keyAlt
  | 0x39 => some keySpace
  | _ => none

/-- The release half of `process_set1_scancode`. -/
def releaseKey (kb : Keyboard) (code : ℕ) : Keyboard :=
  let kb := { kb with keys := set1Release kb.keys code }
  let kb := match set1ReleaseCode code with
    | some key => pushEvent kb (releaseEvent key.toNat)
    | none => kb
  if layoutChar kb.keys code ≠ 0 then pushEvent kb (releaseEvent (layoutChar kb.keys code).toNat)
  else kb

/-- The letter a key stands for under Ctrl, as a control character. -/
def ctrlLetter (ks : KeyState) (code : ℕ) : Option ℤ :=
  let c := layoutChar ks code
  let c := if 65 ≤ c ∧ c ≤ 90 then c + 32 else c
  if 97 ≤ c ∧ c ≤ 122 then some (c.toNat - 96) else none

/-- The keys that `process_set1_scancode` handles behind the modifiers. -/
def typeKey (kb : Keyboard) (code : ℕ) : Keyboard :=
  let ks := kb.keys
  if code = 0x39 then pushEvent (pushKey kb 32) (UInt16.ofNat keySpace.toNat)
  else if ks.ctrlDown && ks.altDown && 0x3b ≤ code && code ≤ 0x40 then
    pushKey kb (keyTty1 + (code - 0x3b))
  else if ks.ctrlDown && ks.shiftDown && code = 0x2e then pushKey kb keyCopy
  else if ks.ctrlDown && ks.shiftDown && code = 0x2f then pushKey kb keyPaste
  else if ks.ctrlDown && code = 0x2e then
    pushKey { kb with interruptGeneration := kb.interruptGeneration + 1 } keyCtrlC
  else
    match if ks.ctrlDown then ctrlLetter ks code else none with
    | some key => pushKey kb key
    | none =>
      if code = 0x3a then { kb with keys := { ks with capsLock := !ks.capsLock } }
      else if layoutChar ks code ≠ 0 then pushKey kb (signedChar (layoutChar ks code))
      else kb

/-- The press half of `process_set1_scancode`, behind the filter for keys that are down. -/
def pressKey (kb : Keyboard) (code : ℕ) : Keyboard :=
  let ks := kb.keys
  if code = 0x2a then { kb with keys := { ks with leftShiftDown := true, shiftDown := true } }
  else if code = 0x36 then { kb with keys := { ks with rightShiftDown := true, shiftDown := true } }
  else if code = 0x1d then pushKey { kb with keys := { ks with ctrlDown := true } } keyCtrl
  else if code = 0x38 then pushKey { kb with keys := { ks with altDown := true } } keyAlt
  else typeKey kb code

def Repeats (now : UInt64) (ks : KeyState) (code : ℕ) : Prop :=
  ks.keyDown code ∧ (code ≠ 0x0e ∨ now - ks.backspaceLastMakeTick < 5)

instance (now : UInt64) (ks : KeyState) (code : ℕ) : Decidable (Repeats now ks code) :=
  inferInstanceAs (Decidable (ks.keyDown code ∧ (code ≠ 0x0e ∨ now - ks.backspaceLastMakeTick < 5)))

def markDown (now : UInt64) (ks : KeyState) (code : ℕ) : KeyState :=
  { ks with
    keyDown := Function.update ks.keyDown code true
    backspaceLastMakeTick := if code = 0x0e then now else ks.backspaceLastMakeTick }

/-- `process_set1_scancode`; `now` is what `pit_ticks` answers.  Only the backspace key repeats. -/
def processSet1Scancode (now : UInt64) (kb : Keyboard) (scancode : Byte) : Keyboard :=
  let code := scancode.toNat % 128
  if 128 ≤ scancode.toNat then releaseKey kb code
  else if Repeats now kb.keys code then kb
  else pressKey { kb with keys := markDown now kb.keys code } code

def set2ToSet1 : List (Byte × Byte) :=
  [(0x76, 0x01), (0x16, 0x02), (0x1e, 0x03), (0x26, 0x04), (0x25, 0x05), (0x2e, 0x06), (0x36, 0x07),
   (0x3d, 0x08), (0x3e, 0x09), (0x46, 0x0a), (0x45, 0x0b), (0x4e, 0x0c), (0x55, 0x0d), (0x66, 0x0e),
   (0x0d, 0x0f), (0x15, 0x10), (0x1d, 0x11), (0x24, 0x12), (0x2d, 0x13), (0x2c, 0x14), (0x35, 0x15),
   (0x3c, 0x16), (0x43, 0x17), (0x44, 0x18), (0x4d, 0x19), (0x54, 0x1a), (0x5b, 0x1b), (0x5a, 0x1c),
   (0x14, 0x1d), (0x1c, 0x1e), (0x1b, 0x1f), (0x23, 0x20), (0x2b, 0x21), (0x34, 0x22), (0x33, 0x23),
   (0x3b, 0x24), (0x42, 0x25), (0x4b, 0x26), (0x4c, 0x27), (0x52, 0x28), (0x0e, 0x29), (0x12, 0x2a),
   (0x5d, 0x2b), (0x1a, 0x2c), (0x22, 0x2d), (0x21, 0x2e), (0x2a, 0x2f), (0x32, 0x30), (0x31, 0x31),
   (0x3a, 0x32), (0x41, 0x33), (0x49, 0x34), (0x4a, 0x35), (0x59, 0x36), (0x11, 0x38), (0x29, 0x39),
   (0x58, 0x3a), (0x61, 0x56)]

def set2ExtToSet1 : List (Byte × Byte) :=
  [(0x14, 0x1d), (0x11, 0x38), (0x5a, 0x1c), (0x6c, 0x47), (0x75, 0x48), (0x6b, 0x4b), (0x74, 0x4d),
   (0x69, 0x4f), (0x72, 0x50), (0x71, 0x53)]

/-- The set-2 branch of `process_scancode`. -/
def processSet2 (now : UInt64) (kb : Keyboard) (scancode : Byte) : Keyboard :=
  let release := kb.keys.set2BreakPrefix
  let extended := kb.keys.extendedPrefix
  let kb := { kb with keys := { kb.keys with set2BreakPrefix := false, extendedPrefix := false } }
  match (if extended then set2ExtToSet1 else set2ToSet1).lookup scancode with
  | none => kb
  | some mapped =>
    let mapped := if release then mapped ||| 0x80 else mapped
    if extended then processExtendedScancode kb mapped else processSet1Scancode now kb mapped

/-- `process_scancode`: bytes that may be answers of the keyboard are dropped first. -/
def processScancode (now : UInt64) (kb : Keyboard) (scancode : Byte) : Keyboard :=
  let ks := kb.keys
  if scancode = 0xfa ∨ scancode = 0xfe ∨ scancode = 0xaa then kb
  else if scancode = 0xf0 then
    { kb with keys := { ks with rawSet2Mode := true, scancodeSet := 2, set2BreakPrefix := true } }
  else if scancode = 0xe0 then { kb with keys := { ks with extendedPrefix := true } }
  else if ks.rawSet2Mode = false ∧ scancode = 0x66 then processSet1Scancode now kb 0x0e
  else if ks.rawSet2Mode = true ∨ ks.scancodeSet = 2 ∨ ks.set2BreakPrefix = true then
    processSet2 now kb scancode
  else if ks.extendedPrefix then
    processExtendedScancode { kb with keys := { ks with extendedPrefix := false } } scancode
  else processSet1Scancode now kb scancode

/-- The state `keyboard_init` leaves, for the mode the controller was found in. -/
def keyboardInit (raw : Bool) : Keyboard where
  buffer := []
  events := []
  interruptGeneration := 0
  interruptConsumed := 0
  keys :=
    { keyDown := fun _ => false, extKeyDown := fun _ => false, shiftDown := false
      leftShiftDown := false, rightShiftDown := false, ctrlDown := false, altDown := false
      altgrDown := false, capsLock := false, extendedPrefix := false, set2BreakPrefix := false
      rawSet2Mode := raw, scancodeSet := if raw then 2 else 1, backspaceLastMakeTick := 0, layout := .us }

/-! ### Taking out -/

def keyboardTryGetchar (kb : Keyboard) : Keyboard × Option ℤ :=
  match kb.buffer with
  | [] => (kb, none)
  | c :: rest => ({ kb with buffer := rest }, some c)

/-- `keyboard_try_get_event`, behind its poll. -/
def keyboardTryGetEvent (kb : Keyboard) : Keyboard × Option UInt16 :=
  match kb.events with
  | [] => (kb, none)
  | ev :: rest => ({ kb with events := rest }, some ev)

/-- `keyboard_set_layout`, for one of its names. -/
def keyboardSetLayout (kb : Keyboard) (layout : Layout) : Keyboard :=
  { kb with keys := { kb.keys with layout := layout } }

/-- `keyboard_consume_interrupt`, behind its poll. -/
def keyboardConsumeInterrupt (kb : Keyboard) : Keyboard × Bool :=
  if kb.interruptConsumed = kb.interruptGeneration then (kb, false)
  else
    ({ kb with
        interruptConsumed := kb.interruptGeneration
        buffer := if kb.buffer.head? = some keyCtrlC then kb.buffer.tail else kb.buffer }, true)

def keyboardAckInterrupt (kb : Keyboard) : Keyboard :=
  { kb with interruptConsumed := kb.interruptGeneration }

def keyboardResetConsoleState (kb : Keyboard) : Keyboard :=
  { kb with
    buffer := []
    events := []
    keys := { kb.keys with
      keyDown := fun _ => false, extKeyDown := fun _ => false, shiftDown := false
      leftShiftDown := false, rightShiftDown := false, ctrlDown := false, altDown := false
      altgrDown := false, extendedPrefix := false, set2BreakPrefix := false
      backspaceLastMakeTick := 0 } }

/-! ### Frames -/

variable {kb : Keyboard} {code : ℕ}

/-- A press changes only the modifiers and the caps lock of the state of the keys. -/
def pressKeys (ks : KeyState) (code : ℕ) : KeyState :=
  if code = 0x2a then { ks with leftShiftDown := true, shiftDown := true }
  else if code = 0x36 then { ks with rightShiftDown := true, shiftDown := true }
  else if code = 0x1d then { ks with ctrlDown := true }
  else if code = 0x38 then { ks with altDown := true }
  else if code = 0x3a then { ks with capsLock := !ks.capsLock }
  else ks

theorem keys_releaseKey (kb : Keyboard) (code : ℕ) :
    (releaseKey kb code).keys = set1Release kb.keys code := by
  rw [releaseKey]
  cases set1ReleaseCode code with
  | none =>
    dsimp only
    split_ifs
    · rfl
    · rfl
  | some key =>
    dsimp only
    split_ifs
    · rfl
    · rfl

theorem layoutChar_capsLock (ks : KeyState) : layoutChar ks 0x3a = 0 := by
  have hn : mapAt normalMap 0x3a = 0 := by decide
  have hd : mapAt deNormalMap 0x3a = 0 ∧ mapAt deAltgrMap 0x3a = 0 := by decide
  have hi : mapAt itNormalMap 0x3a = 0 ∧ mapAt itAltgrMap 0x3a = 0 ∧ mapAt itAltgrShiftMap 0x3a = 0 ∧
      mapAt itAccentMap 0x3a = 0 ∧ mapAt itAccentShiftMap 0x3a = 0 := by decide
  cases hl : ks.layout <;> cases hs : ks.shiftDown <;>
    simp [layoutChar, hl, hs, shiftedWithCaps, hn, hd, hi]

theorem keys_typeKey (kb : Keyboard) (code : ℕ) :
    (typeKey kb code).keys =
      if code = 0x3a then { kb.keys with capsLock := !kb.keys.capsLock } else kb.keys := by
  by_cases hcaps : code = 0x3a
  · have hnone : ctrlLetter kb.keys code = none := by
      rw [ctrlLetter, hcaps, layoutChar_capsLock]
      rfl
    have hne : ¬ code = 0x39 ∧ ¬ code = 0x2e ∧ ¬ code = 0x2f ∧ ¬ 0x3b ≤ code := by omega
    simp only [typeKey, hne, hnone, if_pos hcaps, decide_false, Bool.and_false, Bool.false_and,
      Bool.false_eq_true, if_false, ite_self]
  · rw [if_neg hcaps, typeKey]
    simp only [if_neg hcaps]
    by_cases h₁ : code = 0x39
    · rw [if_pos h₁, keys_pushEvent, keys_pushKey]
    · rw [if_neg h₁]
      split
      · exact keys_pushKey _ _
      · split
        · exact keys_pushKey _ _
        · split
          · exact keys_pushKey _ _
          · split
            · exact keys_pushKey _ _
            · split
              · exact keys_pushKey _ _
              · split
                · exact keys_pushKey _ _
                · rfl

theorem keys_pressKey (kb : Keyboard) (code : ℕ) :
    (pressKey kb code).keys = pressKeys kb.keys code := by
  rw [pressKey, pressKeys]
  by_cases h₁ : code = 0x2a
  · rw [if_pos h₁, if_pos h₁]
  · by_cases h₂ : code = 0x36
    · rw [if_neg h₁, if_neg h₁, if_pos h₂, if_pos h₂]
    · by_cases h₃ : code = 0x1d
      · rw [if_neg h₁, if_neg h₁, if_neg h₂, if_neg h₂, if_pos h₃, if_pos h₃, keys_pushKey]
      · by_cases h₄ : code = 0x38
        · rw [if_neg h₁, if_neg h₁, if_neg h₂, if_neg h₂, if_neg h₃, if_neg h₃, if_pos h₄, if_pos h₄,
            keys_pushKey]
        · rw [if_neg h₁, if_neg h₁, if_neg h₂, if_neg h₂, if_neg h₃, if_neg h₃, if_neg h₄, if_neg h₄,
            keys_typeKey]

theorem keys_processExtendedScancode (kb : Keyboard) (scancode : Byte) :
    (processExtendedScancode kb scancode).keys =
      if 128 ≤ scancode.toNat then extRelease kb.keys (scancode.toNat % 128)
      else if kb.keys.extKeyDown (scancode.toNat % 128) then kb.keys
      else extPress kb.keys (scancode.toNat % 128) := by
  rw [processExtendedScancode]
  split_ifs
  · cases extReleaseCode (scancode.toNat % 128) with
    | none => rfl
    | some key => rfl
  · rfl
  · dsimp only
    cases extPressKey (extPress kb.keys (scancode.toNat % 128)) (scancode.toNat % 128) with
    | none => rfl
    | some key => exact keys_pushKey _ _

theorem keys_processSet1Scancode (now : UInt64) (kb : Keyboard) (scancode : Byte) :
    (processSet1Scancode now kb scancode).keys =
      if 128 ≤ scancode.toNat then set1Release kb.keys (scancode.toNat % 128)
      else if Repeats now kb.keys (scancode.toNat % 128) then kb.keys
      else pressKeys (markDown now kb.keys (scancode.toNat % 128)) (scancode.toNat % 128) := by
  rw [processSet1Scancode]
  split_ifs
  · exact keys_releaseKey _ _
  · rfl
  · exact keys_pressKey _ _

end Tnu.Drivers
