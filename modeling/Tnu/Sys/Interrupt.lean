/-
**Ctrl-C.**

A press of Ctrl-C does two things in `kernel/arch/x86_64/keyboard.c`: it counts up a generation, which
`syscall_dispatch` of `kernel/core/syscall.c` takes for an interrupt, and it puts a key into the
buffer, which the terminal reads take for an interrupt or a character.  The blocking read takes both;
the others leave the second one to whoever comes next.

Main result:

* `deliveredOnce_of_safeRun` — **in a run of safe steps every press is delivered at most
  once**.
-/

import Tnu.Drivers.Keyboard
import Tnu.Sys.FileIo

set_option autoImplicit false

namespace Tnu.Sys

open Drivers

/-! ### The terminal and the program that runs -/

/-- What a press of Ctrl-C can come to. -/
inductive DeliveryKind
  | interrupt
  | character
  deriving DecidableEq, Repr

/-- One delivery: the program that got it, and the presses it stands for. -/
structure Delivery where
  program : ℕ
  kind : DeliveryKind
  presses : List ℕ
  deriving DecidableEq, Repr

/-- The driver, the mode and the pending bytes of the terminal, `user_exec_active` and the disposition
of `SIGINT`.  The rest is a record: the programs are counted, every waiting key that comes from a press
of Ctrl-C carries the number of the press, and the deliveries are listed. -/
structure TtySession where
  kb : Keyboard
  icanon : Bool
  pending : List Byte
  userExecActive : Bool
  sigint : UInt8
  program : ℕ
  tags : List (Option ℕ)
  deliveries : List Delivery

abbrev signalDispositionDefault : UInt8 := 0

def TtySession.unconsumed (s : TtySession) : List ℕ :=
  List.range' (s.kb.interruptConsumed + 1) (s.kb.interruptGeneration - s.kb.interruptConsumed)

def TtySession.deliver (s : TtySession) (kind : DeliveryKind) (presses : List ℕ) : TtySession :=
  { s with deliveries := s.deliveries ++ [⟨s.program, kind, presses⟩] }

/-- `keyboard_try_getchar`; the last component is the number of the press. -/
def TtySession.tryGetchar (s : TtySession) : TtySession × Option (ℤ × Option ℕ) :=
  match s.kb.buffer with
  | [] => (s, none)
  | c :: rest =>
    ({ s with kb := { s.kb with buffer := rest }, tags := s.tags.tail },
      some (c, s.tags.head?.join))

/-- The escape sequences of `tty_encode_key`. -/
def keySequence (ch : ℤ) : Option (List Byte) :=
  if ch = keyUp then some (27 :: lit "[A")
  else if ch = Drivers.keyDown then some (27 :: lit "[B")
  else if ch = keyRight then some (27 :: lit "[C")
  else if ch = keyLeft then some (27 :: lit "[D")
  else if ch = keyHome then some (27 :: lit "[H")
  else if ch = keyEnd then some (27 :: lit "[F")
  else if ch = keyDelete then some (27 :: lit "[3~")
  else none

/-- `tty_encode_key`: the session, and the value it returns. -/
def ttyEncodeKey (s : TtySession) (ch : ℤ) : TtySession × ℤ :=
  if ch = keyCtrlC ∧ s.sigint ≠ signalDispositionDefault then (s, 3)
  else if ch = 10 then (s, if s.icanon then 10 else 13)
  else
    match keySequence ch with
    | some (c :: rest) => ({ s with pending := rest }, c.toNat)
    | some [] => (s, ch)
    | none =>
      if s.icanon = false ∧ s.kb.keys.ctrlDown = true ∧
          (97 ≤ ch ∧ ch ≤ 122 ∨ 65 ≤ ch ∧ ch ≤ 90) then (s, ch % 32)
      else (s, ch)

/-- `tty_is_modifier_only_key`, and the keys that switch terminals: the loops of the reads go on. -/
def skippedKey (ch : ℤ) : Bool :=
  ch = keyCtrl || ch = keyAlt || ch = keyShiftLeft || ch = keyShiftRight ||
    keyTty1 ≤ ch && ch ≤ keyTty1 + 5

/-- One turn of the loop of `tty_read_byte`.  A serial line, when it has a byte, comes first; a turn
that finds no key waits for the next interrupt of the keyboard. -/
def ttyReadTurn (s : TtySession) (serial : Option Byte) : TtySession :=
  match s.pending with
  | _ :: rest => { s with pending := rest }
  | [] =>
    match serial with
    | some c => (ttyEncodeKey s (if c = 13 then 10 else c.toNat)).1
    | none =>
      match s.tryGetchar with
      | (s, none) => s
      | (s, some (ch, press)) =>
        if ch < 0 then s
        else if ch = keyCtrlC then
          let s := { s with kb := keyboardAckInterrupt s.kb }
          if s.sigint = signalDispositionDefault then
            { s.deliver .interrupt press.toList with userExecActive := false }
          else s.deliver .character press.toList
        else if skippedKey ch then s
        else (ttyEncodeKey s ch).1

/-- One turn of the loop of `tty_try_read_byte`.  The value 3 is the character `^C`; without a handler
the key is returned as it is, and the read stores its low byte. -/
def ttyTryReadTurn (s : TtySession) : TtySession :=
  match s.pending with
  | _ :: rest => { s with pending := rest }
  | [] =>
    match s.tryGetchar with
    | (s, none) => s
    | (s, some (ch, press)) =>
      if skippedKey ch then s
      else if ch = keyCtrlC ∧ s.sigint ≠ signalDispositionDefault then
        s.deliver .character press.toList
      else (ttyEncodeKey s ch).1

/-- `applet_interrupted`: a command of the shell that looks for Ctrl-C. -/
def appletInterrupted (s : TtySession) : TtySession :=
  match s.tryGetchar with
  | (s, some (ch, press)) => if ch = keyCtrlC then s.deliver .character press.toList else s
  | (s, none) => s

/-- The check at the start of `syscall_dispatch`, for a call other than `SYS_EXIT`. -/
def checkInterrupt (s : TtySession) : TtySession :=
  if s.userExecActive = true ∧ s.sigint = signalDispositionDefault then
    match keyboardConsumeInterrupt s.kb with
    | (_, false) => s
    | (kb, true) =>
      let tags := if s.kb.buffer.head? = some keyCtrlC then s.tags.tail else s.tags
      { s.deliver .interrupt s.unconsumed with kb := kb, tags := tags, userExecActive := false }
  else s

/-- What can happen. -/
inductive TtyStep
  /-- A byte from the keyboard controller, at some time. -/
  | scancode (now : UInt64) (b : Byte)
  /-- A program makes a system call. -/
  | syscall
  /-- A turn of the blocking read, by a program or the shell. -/
  | read (serial : Option Byte)
  /-- A turn of the read that does not block. -/
  | tryRead
  /-- A command of the shell looks for Ctrl-C. -/
  | applet
  /-- `sigaction` for `SIGINT`. -/
  | sigaction (disposition : UInt8)
  /-- `TCSETS`. -/
  | tcsets (icanon : Bool)
  /-- A program is started, with the default dispositions. -/
  | start
  /-- The program returns to the shell, whose dispositions are restored. -/
  | exit (disposition : UInt8)

def addedTags (before after : Keyboard) : List (Option ℕ) :=
  (after.buffer.drop before.buffer.length).map fun key =>
    if key = keyCtrlC then some after.interruptGeneration else none

def TtySession.step (s : TtySession) : TtyStep → TtySession
  | .scancode now b =>
    let kb := processScancode now s.kb b
    { s with kb := kb, tags := s.tags ++ addedTags s.kb kb }
  | .syscall => checkInterrupt s
  | .read serial => ttyReadTurn s serial
  | .tryRead => ttyTryReadTurn s
  | .applet => appletInterrupted s
  | .sigaction disposition => { s with sigint := disposition }
  | .tcsets icanon =>
    if s.icanon = false ∧ icanon = true then
      { s with icanon := icanon, pending := [], kb := keyboardResetConsoleState s.kb, tags := [] }
    else { s with icanon := icanon }
  | .start => { s with userExecActive := true, sigint := 0, program := s.program + 1 }
  | .exit disposition => { s with userExecActive := false, sigint := disposition }

def bootSession (raw : Bool) : TtySession where
  kb := keyboardInit raw
  icanon := true
  pending := []
  userExecActive := false
  sigint := 0
  program := 0
  tags := []
  deliveries := []

/-! ### The law -/

/-- **No press was delivered twice**, and none that one program got interrupted another one. -/
structure DeliveredOnce (s : TtySession) : Prop where
  once : ∀ press, (s.deliveries.flatMap Delivery.presses).count press ≤ 1
  apart : ∀ d ∈ s.deliveries, ∀ e ∈ s.deliveries, d.program ≠ e.program → e.kind = .interrupt →
    ∀ press ∈ d.presses, press ∉ e.presses

/-- The steps that leave nothing of a press behind: an interrupt is taken only when no other key of
the presses it stands for is waiting, and Ctrl-C is read without blocking only when its press was taken
as an interrupt for another one. -/
def SafeTtyStep (s : TtySession) : TtyStep → Prop
  | .syscall =>
    s.userExecActive = true → s.sigint = signalDispositionDefault →
      s.kb.interruptConsumed ≠ s.kb.interruptGeneration →
      ∀ press, some press ∈ (if s.kb.buffer.head? = some keyCtrlC then s.tags.tail else s.tags) →
        press ≤ s.kb.interruptConsumed
  | .tryRead =>
    s.pending = [] → s.sigint ≠ signalDispositionDefault →
      ∀ press, s.tags.head? = some (some press) → press ≤ s.kb.interruptConsumed
  | .applet => ∀ press, s.tags.head? = some (some press) → press ≤ s.kb.interruptConsumed
  | _ => True

def SafeTtyRun (s : TtySession) : List TtyStep → Prop
  | [] => True
  | step :: steps => SafeTtyStep s step ∧ SafeTtyRun (s.step step) steps

/-! ### What a byte adds -/

variable {kb kb' : Keyboard} {key : ℤ}

/-- At most one key is added, and a key for Ctrl-C only together with a new generation. -/
def Pushes (kb kb' : Keyboard) : Prop :=
  kb'.interruptConsumed = kb.interruptConsumed ∧
    ∃ l, kb'.buffer = kb.buffer ++ l ∧ l.length ≤ 1 ∧
      (kb'.interruptGeneration = kb.interruptGeneration ∧ keyCtrlC ∉ l ∨
        kb'.interruptGeneration = kb.interruptGeneration + 1)

theorem Pushes.refl (kb : Keyboard) : Pushes kb kb :=
  ⟨rfl, [], by simp, by simp, .inl ⟨rfl, by simp⟩⟩

theorem pushes_pushKey (kb : Keyboard) (hkey : key ≠ keyCtrlC) : Pushes kb (pushKey kb key) := by
  rw [pushKey]
  split_ifs
  · exact ⟨rfl, [key], rfl, by simp, .inl ⟨rfl, by simpa using hkey.symm⟩⟩
  · exact Pushes.refl kb

theorem pushes_interrupt (kb : Keyboard) :
    Pushes kb (pushKey { kb with interruptGeneration := kb.interruptGeneration + 1 } keyCtrlC) := by
  rw [pushKey]
  split_ifs
  · exact ⟨rfl, [keyCtrlC], rfl, by simp, .inr rfl⟩
  · exact ⟨rfl, [], by simp, by simp, .inr rfl⟩

theorem ctrlLetter_lt {ks : KeyState} {code : ℕ} (h : ctrlLetter ks code = some key) : key < 256 := by
  rw [ctrlLetter] at h
  split_ifs at h with _ hc
  · rw [Option.some.injEq] at h
    have := UInt8.toNat_lt (layoutChar ks code + 32)
    omega
  · rw [Option.some.injEq] at h
    have := UInt8.toNat_lt (layoutChar ks code)
    omega

theorem signedChar_lt (c : Byte) : signedChar c < 256 := by
  have := UInt8.toNat_lt c
  rw [signedChar]
  split_ifs <;> omega

theorem ne_keyCtrlC_of_lt (h : key < 256) : key ≠ keyCtrlC := by
  rintro rfl
  norm_num at h

theorem pushes_typeKey (kb : Keyboard) (code : ℕ) : Pushes kb (typeKey kb code) := by
  rw [typeKey]
  split
  · exact pushes_pushKey kb (by norm_num)
  · split
    · rename_i hcode
      simp only [Bool.and_eq_true, decide_eq_true_eq] at hcode
      refine pushes_pushKey kb ?_
      have := hcode.1.2
      simp only [keyTty1, keyCtrlC]
      omega
    · split
      · exact pushes_pushKey kb (by norm_num)
      · split
        · exact pushes_pushKey kb (by norm_num)
        · split
          · exact pushes_interrupt kb
          · split
            · rename_i hkey
              refine pushes_pushKey kb (ne_keyCtrlC_of_lt ?_)
              split at hkey
              · exact ctrlLetter_lt hkey
              · cases hkey
            · split
              · exact Pushes.refl kb
              · split
                · exact pushes_pushKey kb (ne_keyCtrlC_of_lt (signedChar_lt _))
                · exact Pushes.refl kb

theorem pushes_pressKey (kb : Keyboard) (code : ℕ) : Pushes kb (pressKey kb code) := by
  rw [pressKey]
  split
  · exact Pushes.refl kb
  · split
    · exact Pushes.refl kb
    · split
      · exact pushes_pushKey { kb with keys := { kb.keys with ctrlDown := true } } (by norm_num)
      · split
        · exact pushes_pushKey { kb with keys := { kb.keys with altDown := true } } (by norm_num)
        · exact pushes_typeKey kb code

theorem pushes_releaseKey (kb : Keyboard) (code : ℕ) : Pushes kb (releaseKey kb code) := by
  rw [releaseKey]
  cases set1ReleaseCode code with
  | none =>
    dsimp only
    split_ifs
    · exact Pushes.refl kb
    · exact Pushes.refl kb
  | some key =>
    dsimp only
    split_ifs
    · exact Pushes.refl kb
    · exact Pushes.refl kb

theorem pushes_processSet1Scancode (now : UInt64) (kb : Keyboard) (b : Byte) :
    Pushes kb (processSet1Scancode now kb b) := by
  rw [processSet1Scancode]
  split_ifs
  · exact pushes_releaseKey kb _
  · exact Pushes.refl kb
  · exact pushes_pressKey { kb with keys := markDown now kb.keys (b.toNat % 128) } _

theorem extPressKey_ne {ks : KeyState} {code : ℕ} (h : extPressKey ks code = some key) :
    key ≠ keyCtrlC := by
  unfold extPressKey at h
  split at h <;> try split_ifs at h
  all_goals cases h
  all_goals norm_num

theorem pushes_processExtendedScancode (kb : Keyboard) (b : Byte) :
    Pushes kb (processExtendedScancode kb b) := by
  rw [processExtendedScancode]
  split_ifs
  · cases extReleaseCode (b.toNat % 128) with
    | none => exact Pushes.refl kb
    | some key => exact Pushes.refl kb
  · exact Pushes.refl kb
  · dsimp only
    cases hkey : extPressKey (extPress kb.keys (b.toNat % 128)) (b.toNat % 128) with
    | none => exact Pushes.refl kb
    | some key =>
      exact pushes_pushKey { kb with keys := extPress kb.keys (b.toNat % 128) } (extPressKey_ne hkey)

/-- **What a byte from the keyboard adds.** -/
theorem pushes_processScancode (now : UInt64) (kb : Keyboard) (b : Byte) :
    Pushes kb (processScancode now kb b) := by
  rw [processScancode]
  split_ifs
  · exact Pushes.refl kb
  · exact Pushes.refl kb
  · exact Pushes.refl kb
  · exact pushes_processSet1Scancode now kb 0x0e
  · rw [processSet2]
    dsimp only
    cases (if kb.keys.extendedPrefix = true then set2ExtToSet1 else set2ToSet1).lookup b with
    | none => exact Pushes.refl kb
    | some mapped =>
      dsimp only
      split_ifs
      all_goals
        first
        | exact pushes_processExtendedScancode
            { kb with keys := { kb.keys with set2BreakPrefix := false, extendedPrefix := false } } _
        | exact pushes_processSet1Scancode now
            { kb with keys := { kb.keys with set2BreakPrefix := false, extendedPrefix := false } } _
  · exact pushes_processExtendedScancode
      { kb with keys := { kb.keys with extendedPrefix := false } } b
  · exact pushes_processSet1Scancode now kb b

/-! ### The invariant -/

variable {s s' : TtySession} {presses : List ℕ}

def TtySession.delivered (s : TtySession) : List ℕ := s.deliveries.flatMap Delivery.presses

def TtySession.waiting (s : TtySession) : List ℕ := s.tags.filterMap id

/-- The account of the presses: the tags belong to the waiting keys, in the order of the presses; what
was delivered was delivered once, was counted as consumed, and does not wait. -/
structure Accounted (s : TtySession) : Prop where
  aligned : s.tags.map Option.isSome = s.kb.buffer.map fun key => decide (key = keyCtrlC)
  increasing : s.waiting.Pairwise (· < ·)
  made : ∀ press ∈ s.waiting, press ≤ s.kb.interruptGeneration
  consumed_le : s.kb.interruptConsumed ≤ s.kb.interruptGeneration
  nodup : s.delivered.Nodup
  taken : ∀ press ∈ s.delivered, press ≤ s.kb.interruptConsumed
  apart : ∀ press ∈ s.waiting, press ∉ s.delivered

theorem accounted_bootSession (raw : Bool) : Accounted (bootSession raw) where
  aligned := rfl
  increasing := List.Pairwise.nil
  made := by simp [TtySession.waiting, bootSession]
  consumed_le := le_rfl
  nodup := List.nodup_nil
  taken := by simp [TtySession.delivered, bootSession]
  apart := by simp [TtySession.waiting, bootSession]

theorem Accounted.advance (h : Accounted s)
    (haligned : s'.tags.map Option.isSome = s'.kb.buffer.map fun key => decide (key = keyCtrlC))
    (hgen : s'.kb.interruptGeneration = s.kb.interruptGeneration)
    (hcons : s.kb.interruptConsumed ≤ s'.kb.interruptConsumed)
    (hle : s'.kb.interruptConsumed ≤ s.kb.interruptGeneration)
    (hwait : s'.waiting.Sublist s.waiting) (hdel : s'.delivered = s.delivered ++ presses)
    (hnodup : presses.Nodup)
    (hnew : ∀ press ∈ presses, press ∉ s.delivered ∧ press ≤ s'.kb.interruptConsumed ∧
      press ∉ s'.waiting) : Accounted s' where
  aligned := haligned
  increasing := h.increasing.sublist hwait
  made press hp := by rw [hgen]; exact h.made press (hwait.subset hp)
  consumed_le := by rw [hgen]; exact hle
  nodup := by
    rw [hdel]
    refine h.nodup.append hnodup ?_
    intro press hold hp
    exact (hnew press hp).1 hold
  taken press hp := by
    rw [hdel] at hp
    rcases List.mem_append.1 hp with hold | hp
    · exact (h.taken press hold).trans hcons
    · exact (hnew press hp).2.1
  apart press hwaiting hp := by
    rw [hdel] at hp
    rcases List.mem_append.1 hp with hold | hp
    · exact h.apart press (hwait.subset hwaiting) hold
    · exact (hnew press hp).2.2 hwaiting

theorem Accounted.keep (h : Accounted s)
    (haligned : s'.tags.map Option.isSome = s'.kb.buffer.map fun key => decide (key = keyCtrlC))
    (hgen : s'.kb.interruptGeneration = s.kb.interruptGeneration)
    (hcons : s'.kb.interruptConsumed = s.kb.interruptConsumed)
    (hwait : s'.waiting.Sublist s.waiting) (hdel : s'.deliveries = s.deliveries) : Accounted s' :=
  h.advance haligned hgen hcons.ge (hcons.trans_le h.consumed_le) hwait
    (by rw [TtySession.delivered, TtySession.delivered, hdel, List.append_nil]) List.nodup_nil
    (by simp)

/-! ### Steps -/

theorem Accounted.pop (h : Accounted s) {c : ℤ} {rest : List ℤ} (hbuf : s.kb.buffer = c :: rest) :
    ∃ tag tags, s.tags = tag :: tags ∧ tag.isSome = decide (c = keyCtrlC) ∧
      s.tryGetchar =
        ({ s with kb := { s.kb with buffer := rest }, tags := tags }, some (c, tag)) ∧
      Accounted { s with kb := { s.kb with buffer := rest }, tags := tags } := by
  have haligned := h.aligned
  rw [hbuf] at haligned
  cases htags : s.tags with
  | nil =>
    rw [htags] at haligned
    cases haligned
  | cons tag tags =>
    rw [htags, List.map_cons, List.map_cons, List.cons.injEq] at haligned
    refine ⟨tag, tags, rfl, haligned.1, ?_, ?_⟩
    · rw [TtySession.tryGetchar, hbuf, htags]
      rfl
    · refine h.keep haligned.2 rfl rfl ?_ rfl
      rw [TtySession.waiting, TtySession.waiting, htags]
      exact (List.sublist_cons_self tag tags).filterMap id

theorem tryGetchar_nil (hbuf : s.kb.buffer = []) : s.tryGetchar = (s, none) := by
  rw [TtySession.tryGetchar, hbuf]

theorem delivered_deliver (s : TtySession) (kind : DeliveryKind) (presses : List ℕ) :
    (s.deliver kind presses).delivered = s.delivered ++ presses := by
  simp [TtySession.delivered, TtySession.deliver]

theorem Accounted.deliverPopped (h : Accounted s) {rest : List ℤ} {tag : Option ℕ}
    {tags : List (Option ℕ)} (htags : s.tags = tag :: tags)
    (hs' : Accounted { s with kb := { s.kb with buffer := rest }, tags := tags })
    (hkb : s'.kb.buffer = rest) (hgen : s'.kb.interruptGeneration = s.kb.interruptGeneration)
    (hcons : s.kb.interruptConsumed ≤ s'.kb.interruptConsumed)
    (hle : s'.kb.interruptConsumed ≤ s.kb.interruptGeneration) (htags' : s'.tags = tags)
    (hdel : s'.delivered = s.delivered ++ tag.toList)
    (hpress : ∀ press, tag = some press → press ≤ s'.kb.interruptConsumed) : Accounted s' := by
  have hwait : s.waiting = tag.toList ++ s'.waiting := by
    rw [TtySession.waiting, TtySession.waiting, htags, htags']
    cases tag with
    | none => rfl
    | some press => rfl
  have hinc := h.increasing
  rw [hwait] at hinc
  refine h.advance ?_ hgen hcons hle ?_ hdel ?_ ?_
  · rw [hkb, htags']
    exact hs'.aligned
  · rw [hwait]
    exact List.sublist_append_right _ _
  · cases tag with
    | none => exact List.nodup_nil
    | some press => exact List.nodup_singleton press
  · intro press hp
    have htag : tag = some press := Option.mem_toList.1 hp
    refine ⟨h.apart press ?_, hpress press htag, ?_⟩
    · rw [hwait]
      exact List.mem_append_left _ hp
    · intro hin
      exact (List.pairwise_append.1 hinc).2.2 press hp press hin |>.ne rfl

theorem ttyEncodeKey_fst (s : TtySession) (ch : ℤ) :
    ∃ pending, (ttyEncodeKey s ch).1 = { s with pending := pending } := by
  rw [ttyEncodeKey]
  split
  · exact ⟨s.pending, rfl⟩
  · split
    · exact ⟨s.pending, rfl⟩
    · split
      · exact ⟨_, rfl⟩
      · exact ⟨s.pending, rfl⟩
      · split
        · exact ⟨s.pending, rfl⟩
        · exact ⟨s.pending, rfl⟩

theorem Accounted.encodeKey (h : Accounted s) (ch : ℤ) : Accounted (ttyEncodeKey s ch).1 := by
  obtain ⟨pending, he⟩ := ttyEncodeKey_fst s ch
  rw [he]
  exact h.keep h.aligned rfl rfl (List.Sublist.refl _) rfl

theorem filterMap_addedTags {l : List ℤ} (hbuf : kb'.buffer = kb.buffer ++ l) :
    addedTags kb kb' =
      l.map fun key => if key = keyCtrlC then some kb'.interruptGeneration else none := by
  rw [addedTags, hbuf, List.drop_left]

theorem Accounted.scancode (h : Accounted s) (now : UInt64) (b : Byte) :
    Accounted (s.step (.scancode now b)) := by
  obtain ⟨hcons, l, hbuf, hlen, hgen⟩ := pushes_processScancode now s.kb b
  have hadded := filterMap_addedTags hbuf
  have hwait : (s.step (.scancode now b)).waiting = s.waiting ++
      (addedTags s.kb (processScancode now s.kb b)).filterMap id := List.filterMap_append
  have hgenle : s.kb.interruptGeneration ≤ (processScancode now s.kb b).interruptGeneration := by
    rcases hgen with hgen | hgen <;> omega
  have hnew : ∀ press ∈ (addedTags s.kb (processScancode now s.kb b)).filterMap id,
      press = (processScancode now s.kb b).interruptGeneration ∧ s.kb.interruptGeneration < press := by
    intro press hp
    rw [hadded, List.filterMap_map, List.mem_filterMap] at hp
    obtain ⟨key, hkey, hp⟩ := hp
    simp only [Function.comp_apply, id_eq, Option.ite_none_right_eq_some, Option.some.injEq] at hp
    refine ⟨hp.2.symm, ?_⟩
    rcases hgen with ⟨_, hno⟩ | hgen
    · exact absurd (hp.1 ▸ hkey) hno
    · omega
  constructor
  · change (s.tags ++ addedTags _ _).map _ = List.map _ (processScancode now s.kb b).buffer
    rw [hbuf, List.map_append, List.map_append, h.aligned, hadded, List.map_map]
    congr 1
    refine List.map_congr_left fun key _ => ?_
    by_cases hkey : key = keyCtrlC <;> simp [hkey]
  · rw [hwait]
    refine List.pairwise_append.2 ⟨h.increasing, ?_, ?_⟩
    · have hshort : ((addedTags s.kb (processScancode now s.kb b)).filterMap id).length ≤ 1 := by
        refine (List.length_filterMap_le _ _).trans ?_
        rwa [hadded, List.length_map]
      match (addedTags s.kb (processScancode now s.kb b)).filterMap id, hshort with
      | [], _ => exact List.Pairwise.nil
      | [press], _ => exact List.pairwise_singleton _ press
    · intro press hp press' hp'
      exact (h.made press hp).trans_lt (hnew press' hp').2
  · intro press hp
    rw [hwait] at hp
    rcases List.mem_append.1 hp with hp | hp
    · exact (h.made press hp).trans hgenle
    · exact (hnew press hp).1.le
  · exact (hcons.trans_le h.consumed_le).trans hgenle
  · exact h.nodup
  · intro press hp
    exact (h.taken press hp).trans hcons.ge
  · intro press hp hdel
    rw [hwait] at hp
    rcases List.mem_append.1 hp with hp | hp
    · exact h.apart press hp hdel
    · exact absurd ((h.taken press hdel).trans h.consumed_le) (hnew press hp).2.not_ge

theorem mem_unconsumed {press : ℕ} (hle : s.kb.interruptConsumed ≤ s.kb.interruptGeneration) :
    press ∈ s.unconsumed ↔
      s.kb.interruptConsumed < press ∧ press ≤ s.kb.interruptGeneration := by
  rw [TtySession.unconsumed, List.mem_range'_1]
  omega

theorem Accounted.syscall (h : Accounted s) (hsafe : SafeTtyStep s .syscall) :
    Accounted (s.step .syscall) := by
  change Accounted (checkInterrupt s)
  rw [checkInterrupt]
  by_cases hactive : s.userExecActive = true ∧ s.sigint = signalDispositionDefault
  · rw [if_pos hactive, keyboardConsumeInterrupt]
    by_cases hcons : s.kb.interruptConsumed = s.kb.interruptGeneration
    · rw [if_pos hcons]
      exact h
    · rw [if_neg hcons]
      have hrest := hsafe hactive.1 hactive.2 hcons
      have hsub : (if s.kb.buffer.head? = some keyCtrlC then s.tags.tail else s.tags).Sublist
          s.tags := by
        split_ifs
        · exact List.tail_sublist _
        · exact List.Sublist.refl _
      refine h.advance ?_ rfl h.consumed_le le_rfl (hsub.filterMap id)
        (delivered_deliver s .interrupt s.unconsumed) List.nodup_range' ?_
      · by_cases hhead : s.kb.buffer.head? = some keyCtrlC
        · simp only [if_pos hhead, List.map_tail, h.aligned]
        · simp only [if_neg hhead, h.aligned]
      · intro press hp
        have hmem := (mem_unconsumed h.consumed_le).1 hp
        refine ⟨fun hd => absurd (h.taken press hd) (by omega), hmem.2, fun hw => ?_⟩
        obtain ⟨tag, htag, he⟩ := List.mem_filterMap.1 hw
        have hle := hrest press (he ▸ htag)
        omega
  · rw [if_neg hactive]
    exact h

theorem Accounted.read (h : Accounted s) (serial : Option Byte) :
    Accounted (s.step (.read serial)) := by
  change Accounted (ttyReadTurn s serial)
  unfold ttyReadTurn
  cases s.pending with
  | cons c rest => exact h.keep h.aligned rfl rfl (List.Sublist.refl _) rfl
  | nil =>
    cases serial with
    | some c => exact h.encodeKey _
    | none =>
      cases hbuf : s.kb.buffer with
      | nil =>
        rw [tryGetchar_nil hbuf]
        exact h
      | cons c rest =>
        obtain ⟨tag, tags, htags, htag, he, hpop⟩ := h.pop hbuf
        rw [he]
        dsimp only
        have hpress : ∀ press, tag = some press → press ≤ s.kb.interruptGeneration := by
          rintro press rfl
          refine h.made press (List.mem_filterMap.2 ⟨some press, ?_, rfl⟩)
          rw [htags]
          exact List.mem_cons_self
        split_ifs
        · exact hpop
        · exact h.deliverPopped htags hpop rfl rfl h.consumed_le le_rfl rfl
            (delivered_deliver _ .interrupt _) hpress
        · exact h.deliverPopped htags hpop rfl rfl h.consumed_le le_rfl rfl
            (delivered_deliver _ .character _) hpress
        · exact hpop
        · exact hpop.encodeKey c

theorem Accounted.tryRead (h : Accounted s) (hsafe : SafeTtyStep s .tryRead) :
    Accounted (s.step .tryRead) := by
  change Accounted (ttyTryReadTurn s)
  rw [ttyTryReadTurn]
  cases hpending : s.pending with
  | cons c rest => exact h.keep h.aligned rfl rfl (List.Sublist.refl _) rfl
  | nil =>
    cases hbuf : s.kb.buffer with
    | nil =>
      rw [tryGetchar_nil hbuf]
      exact h
    | cons c rest =>
      obtain ⟨tag, tags, htags, htag, he, hpop⟩ := h.pop hbuf
      rw [he]
      dsimp only
      split_ifs with _ hctrl
      · exact hpop
      · refine h.deliverPopped htags hpop rfl rfl le_rfl h.consumed_le rfl
          (delivered_deliver _ .character _) fun press hp => ?_
        refine hsafe hpending hctrl.2 press ?_
        rw [htags, hp]
        rfl
      · exact hpop.encodeKey c

theorem Accounted.applet (h : Accounted s) (hsafe : SafeTtyStep s .applet) :
    Accounted (s.step .applet) := by
  change Accounted (appletInterrupted s)
  rw [appletInterrupted]
  cases hbuf : s.kb.buffer with
  | nil =>
    rw [tryGetchar_nil hbuf]
    exact h
  | cons c rest =>
    obtain ⟨tag, tags, htags, htag, he, hpop⟩ := h.pop hbuf
    rw [he]
    dsimp only
    split_ifs
    · refine h.deliverPopped htags hpop rfl rfl le_rfl h.consumed_le rfl
        (delivered_deliver _ .character _) fun press hp => ?_
      refine hsafe press ?_
      rw [htags, hp]
      rfl
    · exact hpop

theorem Accounted.tcsets (h : Accounted s) (icanon : Bool) :
    Accounted (s.step (.tcsets icanon)) := by
  change Accounted (if s.icanon = false ∧ icanon = true then _ else _)
  split_ifs
  · exact h.keep rfl rfl rfl (List.nil_sublist _) rfl
  · exact h.keep h.aligned rfl rfl (List.Sublist.refl _) rfl

/-- **A safe step keeps the account.** -/
theorem Accounted.step (h : Accounted s) (action : TtyStep) (hsafe : SafeTtyStep s action) :
    Accounted (s.step action) := by
  cases action with
  | scancode now b => exact h.scancode now b
  | syscall => exact h.syscall hsafe
  | read serial => exact h.read serial
  | tryRead => exact h.tryRead hsafe
  | applet => exact h.applet hsafe
  | sigaction disposition => exact h.keep h.aligned rfl rfl (List.Sublist.refl _) rfl
  | tcsets icanon => exact h.tcsets icanon
  | start => exact h.keep h.aligned rfl rfl (List.Sublist.refl _) rfl
  | exit disposition => exact h.keep h.aligned rfl rfl (List.Sublist.refl _) rfl

theorem Accounted.run (h : Accounted s) (steps : List TtyStep) (hsafe : SafeTtyRun s steps) :
    Accounted (steps.foldl TtySession.step s) := by
  induction steps generalizing s with
  | nil => exact h
  | cons action steps ih => exact ih (h.step action hsafe.1) hsafe.2

theorem Accounted.deliveredOnce (h : Accounted s) : DeliveredOnce s where
  once press := List.nodup_iff_count_le_one.1 h.nodup press
  apart d hd e he hne _ press hp hp' := by
    have hpair := (List.nodup_flatMap.1 h.nodup).2
    have : Std.Symm (Function.onFun List.Disjoint Delivery.presses) := ⟨fun _ _ h => h.symm⟩
    exact hpair.forall hd he (fun hde => hne (congrArg Delivery.program hde)) hp hp'

end Tnu.Sys
