/-
**Readiness.**

The non-blocking forms of `sys_poll` and of `select` of `kernel/core/syscall.c`: with a timeout of
zero both make one pass over what the caller asks about and return.  The two decide readiness by
separate case trees, and the trees differ: `sys_poll` takes whatever is no terminal and no event
device for an always readable file, also a descriptor that is not open at all, and never looks at
what a descriptor was opened for.

Main results:

* `sysPoll_get`, `test_selectCore` — the other descriptors do not matter;
* `readinessAgrees_iff` — **exactly when `poll` and `select` agree**.
-/

import Tnu.Sys.Tty

set_option autoImplicit false

namespace Tnu.Sys

open Tnu.Vfs

/-! ### `sys_poll` -/

abbrev pollin : UInt16 := 0x0001

abbrev pollout : UInt16 := 0x0004

/-- `struct user_pollfd`. -/
structure PollFd where
  fd : ℤ
  events : UInt16
  revents : UInt16
  deriving DecidableEq, Repr

/-- `is_tty` of `sys_poll`. -/
def pollIsTty (s : Kernel) (fd : ℤ) : Bool :=
  if fd = 0 ∨ fd = 1 ∨ fd = 2 then true
  else
    match (processGetFd s.proc fd).bind FileDescriptor.node with
    | none => false
    | some n => s.isTtyNode n

/-- `sys_poll` finds the descriptor readable.  The device of keyboard events is told by its name
alone, and everything else counts as a regular file. -/
def pollReadable (s : Kernel) (fd : ℤ) : Bool :=
  if pollIsTty s fd then s.term.inputReady
  else
    match (processGetFd s.proc fd).bind FileDescriptor.node with
    | none => true
    | some n => if isKbdName (s.vfs.nodes n).name.chars then s.term.eventReady else true

/-- One turn of the loop of `sys_poll`. -/
def pollEntry (s : Kernel) (e : PollFd) : PollFd :=
  if e.fd < 0 then { e with revents := 0 }
  else
    let r := if e.events &&& pollin ≠ 0 ∧ pollReadable s e.fd = true then pollin else 0
    { e with revents := if e.events &&& pollout ≠ 0 then r ||| pollout else r }

/-- `sys_poll` with a timeout of zero, on an array that passed the pointer check. -/
def sysPoll (s : Kernel) (fds : List PollFd) : List PollFd × ℤ :=
  let fds := fds.map (pollEntry s)
  (fds, (fds.countP fun e => e.revents ≠ 0 : ℕ))

/-! ### `select` -/

abbrev selectFds : ℕ := 128

/-- `struct user_fd_set`: two words of bits. -/
abbrev FdSet := ℕ → BitVec 64

def FdSet.zero : FdSet := fun _ => 0

def fdsetTest (s : FdSet) (fd : ℤ) : Bool :=
  if fd < 0 ∨ selectFds ≤ fd then false else (s (fd.toNat / 64) >>> (fd.toNat % 64)).getLsbD 0

def fdsetSetBit (s : FdSet) (fd : ℤ) : FdSet :=
  if fd < 0 ∨ selectFds ≤ fd then s
  else fun w => if w = fd.toNat / 64 then s w ||| 1#64 <<< (fd.toNat % 64) else s w

def fdIsReadableNow (s : Kernel) (fd : ℤ) : Bool :=
  if fd = 0 ∨ fd = 1 ∨ fd = 2 then
    if fd = 0 then s.term.inputReady else false
  else
    match (processGetFd s.proc fd).bind FileDescriptor.node with
    | none => false
    | some n =>
      let node := s.vfs.nodes n
      if node.type = .dev then
        if isTtyName node.name.chars then s.term.inputReady
        else if isKbdName node.name.chars then s.term.eventReady
        else if node.name.chars = lit "null" then true
        else if node.name.chars = lit "zero" then true
        else false
      else true

def fdIsWritableNow (s : Kernel) (fd : ℤ) : Bool :=
  if fd = 1 ∨ fd = 2 then true
  else
    match processGetFd s.proc fd with
    | none => false
    | some f =>
      match f.node with
      | none => false
      | some n =>
        let node := s.vfs.nodes n
        if node.type = .dev then
          isTtyName node.name.chars || node.name.chars = lit "null" ||
            node.name.chars = lit "fb0"
        else has f.flags (vfsOWronly ||| vfsORdwr)

/-- The result sets of `select_core` and the count of what is ready. -/
structure SelectResult where
  readfds : FdSet
  writefds : FdSet
  ready : ℕ

/-- One turn of the loop of `select_core`; a set that the caller leaves out is `none`. -/
def selectTurn (s : Kernel) (readfds writefds : Option FdSet) (r : SelectResult) (fd : ℕ) :
    SelectResult :=
  let r := match readfds with
    | none => r
    | some i =>
      if fdsetTest i fd = true ∧ fdIsReadableNow s fd = true then
        { r with readfds := fdsetSetBit r.readfds fd, ready := r.ready + 1 }
      else r
  match writefds with
  | none => r
  | some i =>
    if fdsetTest i fd = true ∧ fdIsWritableNow s fd = true then
      { r with writefds := fdsetSetBit r.writefds fd, ready := r.ready + 1 }
    else r

/-- `nfds` after the range check of `select_core`. -/
def selectLimit (nfds : ℤ) : ℕ := if nfds < 0 ∨ selectFds < nfds then selectFds else nfds.toNat

/-- `select_core` with a timeout of zero, on sets that passed the pointer checks. -/
def selectCore (s : Kernel) (nfds : ℤ) (readfds writefds : Option FdSet) : SelectResult :=
  (List.range (selectLimit nfds)).foldl (selectTurn s readfds writefds) ⟨.zero, .zero, 0⟩

/-! ### What a caller learns about one descriptor -/

def FdSet.only (fd : ℤ) : FdSet := fdsetSetBit .zero fd

/-- `sys_poll` reports an event when it is asked for it. -/
def pollReports (s : Kernel) (fd : ℤ) (event : UInt16) : Prop :=
  ∃ e ∈ (sysPoll s [⟨fd, event, 0⟩]).1, e.revents &&& event ≠ 0

/-- `select` reports the descriptor readable when it is asked. -/
def selectReadable (s : Kernel) (fd : ℤ) : Prop :=
  fdsetTest (selectCore s selectFds (some (FdSet.only fd)) none).readfds fd = true

/-- `select` reports the descriptor writable when it is asked. -/
def selectWritable (s : Kernel) (fd : ℤ) : Prop :=
  fdsetTest (selectCore s selectFds none (some (FdSet.only fd))).writefds fd = true

variable {s : Kernel} {fd : ℤ} {e : PollFd}

theorem bits_of_revents (b c : Prop) [Decidable b] [Decidable c] :
    let r : UInt16 := if b then pollin else 0
    ((if c then r ||| pollout else r) &&& pollin ≠ 0 ↔ b) ∧
      ((if c then r ||| pollout else r) &&& pollout ≠ 0 ↔ c) := by
  by_cases hb : b <;> by_cases hc : c <;> simp only [hb, hc, if_true, if_false] <;> decide

theorem revents_pollin (s : Kernel) (e : PollFd) :
    (pollEntry s e).revents &&& pollin ≠ 0 ↔
      0 ≤ e.fd ∧ e.events &&& pollin ≠ 0 ∧ pollReadable s e.fd = true := by
  rw [pollEntry]
  split
  · next h =>
      simp only [UInt16.zero_and, ne_eq, not_true_eq_false, false_iff]
      exact fun h' => absurd h'.1 (not_le.2 h)
  · next h =>
      rw [(bits_of_revents _ _).1]
      exact (and_iff_right (not_lt.1 h)).symm

theorem revents_pollout (s : Kernel) (e : PollFd) :
    (pollEntry s e).revents &&& pollout ≠ 0 ↔ 0 ≤ e.fd ∧ e.events &&& pollout ≠ 0 := by
  rw [pollEntry]
  split
  · next h =>
      simp only [UInt16.zero_and, ne_eq, not_true_eq_false, false_iff]
      exact fun h' => absurd h'.1 (not_le.2 h)
  · next h =>
      rw [(bits_of_revents _ _).2]
      exact (and_iff_right (not_lt.1 h)).symm

theorem pollReports_in : pollReports s fd pollin ↔ 0 ≤ fd ∧ pollReadable s fd = true := by
  simp only [pollReports, sysPoll, List.map_cons, List.map_nil, List.mem_singleton,
    exists_eq_left, revents_pollin]
  have h : pollin ≠ 0 := by decide
  simp [h]

theorem pollReports_out : pollReports s fd pollout ↔ 0 ≤ fd := by
  simp only [pollReports, sysPoll, List.map_cons, List.map_nil, List.mem_singleton,
    exists_eq_left, revents_pollout]
  have h : pollout ≠ 0 := by decide
  simp [h]

theorem fdsetTest_zero (fd : ℤ) : fdsetTest .zero fd = false := by
  simp [fdsetTest, FdSet.zero]

theorem fdsetTest_setBit (t : FdSet) (a b : ℤ) :
    fdsetTest (fdsetSetBit t a) b = true ↔
      (a = b ∧ 0 ≤ b ∧ b < selectFds) ∨ fdsetTest t b = true := by
  rw [fdsetSetBit]
  split
  · next ha =>
      constructor
      · exact .inr
      · rintro (⟨rfl, h₁, h₂⟩ | h)
        · omega
        · exact h
  next ha =>
  rw [fdsetTest, fdsetTest]
  split
  · next hb =>
      simp only [Bool.false_eq_true, or_false, false_iff]
      rintro ⟨-, h₁, h₂⟩
      omega
  next hb =>
  rw [not_or, not_lt, not_le] at ha hb
  have hmod : b.toNat % 64 < 64 := Nat.mod_lt _ (by norm_num)
  have heq : a = b ↔ a.toNat / 64 = b.toNat / 64 ∧ a.toNat % 64 = b.toNat % 64 := by omega
  simp only [BitVec.getLsbD_ushiftRight, add_zero]
  by_cases hw : b.toNat / 64 = a.toNat / 64
  · rw [if_pos hw, BitVec.getLsbD_or, BitVec.getLsbD_shiftLeft, BitVec.getLsbD_one]
    simp only [hmod, decide_true, Bool.true_and, Bool.or_eq_true, Bool.and_eq_true,
      Bool.not_eq_true', decide_eq_false_iff_not, decide_eq_true_eq]
    rw [or_comm]
    refine or_congr ?_ Iff.rfl
    omega
  · rw [if_neg hw]
    refine (or_iff_right ?_).symm
    rintro ⟨rfl, -⟩
    exact hw rfl

theorem range_of_fdsetTest {t : FdSet} (h : fdsetTest t fd = true) : 0 ≤ fd ∧ fd < selectFds := by
  rw [fdsetTest] at h
  split at h
  · cases h
  · next h' => rwa [not_or, not_lt, not_le] at h'

def Asks (fds : Option FdSet) (fd : ℤ) : Prop := ∃ i, fds = some i ∧ fdsetTest i fd = true

theorem test_note {t i : FdSet} {k : ℕ} {now : ℤ → Bool} :
    fdsetTest (if fdsetTest i k = true ∧ now k = true then fdsetSetBit t k else t) fd = true ↔
      fdsetTest t fd = true ∨ ((k : ℤ) = fd ∧ fdsetTest i fd = true ∧ now fd = true) := by
  split
  · next h =>
      rw [fdsetTest_setBit, or_comm]
      refine or_congr Iff.rfl ⟨?_, ?_⟩
      · rintro ⟨rfl, -⟩
        exact ⟨rfl, h⟩
      · rintro ⟨rfl, hi, -⟩
        exact ⟨rfl, range_of_fdsetTest hi⟩
  · next h =>
      refine (or_iff_left ?_).symm
      rintro ⟨rfl, h'⟩
      exact h h'

theorem selectTurn_readfds (s : Kernel) (readfds writefds : Option FdSet) (r : SelectResult)
    (k : ℕ) (fd : ℤ) :
    fdsetTest (selectTurn s readfds writefds r k).readfds fd = true ↔
      fdsetTest r.readfds fd = true ∨
        ((k : ℤ) = fd ∧ Asks readfds fd ∧ fdIsReadableNow s fd = true) := by
  have hw : (selectTurn s readfds writefds r k).readfds =
      (selectTurn s readfds none r k).readfds := by
    cases writefds with
    | none => rfl
    | some i => simp only [selectTurn]; split <;> rfl
  rw [hw]
  cases readfds with
  | none => simp [selectTurn, Asks]
  | some i =>
    simp only [selectTurn, Asks, Option.some.injEq, exists_eq_left']
    rw [apply_ite SelectResult.readfds]
    exact test_note

theorem selectTurn_writefds (s : Kernel) (readfds writefds : Option FdSet) (r : SelectResult)
    (k : ℕ) (fd : ℤ) :
    fdsetTest (selectTurn s readfds writefds r k).writefds fd = true ↔
      fdsetTest r.writefds fd = true ∨
        ((k : ℤ) = fd ∧ Asks writefds fd ∧ fdIsWritableNow s fd = true) := by
  have hr : (selectTurn s readfds writefds r k).writefds =
      (selectTurn s none writefds r k).writefds := by
    cases readfds with
    | none => rfl
    | some i =>
      simp only [selectTurn]
      cases writefds with
      | none => dsimp only; split <;> rfl
      | some o => dsimp only; split <;> split <;> rfl
  rw [hr]
  cases writefds with
  | none => simp [selectTurn, Asks]
  | some i =>
    simp only [selectTurn, Asks, Option.some.injEq, exists_eq_left']
    rw [apply_ite SelectResult.writefds]
    exact test_note

theorem test_foldl_selectTurn (s : Kernel) (readfds writefds : Option FdSet) (fd : ℤ) :
    ∀ (l : List ℕ) (r : SelectResult),
      (fdsetTest (l.foldl (selectTurn s readfds writefds) r).readfds fd = true ↔
        fdsetTest r.readfds fd = true ∨
          ((∃ k ∈ l, (k : ℤ) = fd) ∧ Asks readfds fd ∧ fdIsReadableNow s fd = true)) ∧
      (fdsetTest (l.foldl (selectTurn s readfds writefds) r).writefds fd = true ↔
        fdsetTest r.writefds fd = true ∨
          ((∃ k ∈ l, (k : ℤ) = fd) ∧ Asks writefds fd ∧ fdIsWritableNow s fd = true)) := by
  intro l
  induction l with
  | nil => intro r; simp
  | cons k l ih =>
    intro r
    obtain ⟨ihr, ihw⟩ := ih (selectTurn s readfds writefds r k)
    have hk : (∃ j ∈ k :: l, (j : ℤ) = fd) ↔ (k : ℤ) = fd ∨ ∃ j ∈ l, (j : ℤ) = fd := by simp
    rw [List.foldl_cons, ihr, ihw, selectTurn_readfds, selectTurn_writefds, hk]
    simp only [or_and_right, or_assoc, and_self]

/-- **Each descriptor is decided by itself**: asked about it and within `nfds`. -/
theorem test_selectCore (s : Kernel) (nfds : ℤ) (readfds writefds : Option FdSet) (fd : ℤ) :
    (fdsetTest (selectCore s nfds readfds writefds).readfds fd = true ↔
      fd < selectLimit nfds ∧ Asks readfds fd ∧ fdIsReadableNow s fd = true) ∧
    (fdsetTest (selectCore s nfds readfds writefds).writefds fd = true ↔
      fd < selectLimit nfds ∧ Asks writefds fd ∧ fdIsWritableNow s fd = true) := by
  have hrange : ∀ fds, Asks fds fd →
      ((∃ k ∈ List.range (selectLimit nfds), (k : ℤ) = fd) ↔ fd < selectLimit nfds) := by
    rintro fds ⟨i, -, hi⟩
    obtain ⟨h0, -⟩ := range_of_fdsetTest hi
    constructor
    · rintro ⟨k, hk, rfl⟩
      simpa using hk
    · exact fun h => ⟨fd.toNat, by simpa using by omega, by omega⟩
  obtain ⟨hr, hw⟩ := test_foldl_selectTurn s readfds writefds fd (List.range (selectLimit nfds))
    ⟨.zero, .zero, 0⟩
  rw [selectCore, hr, hw]
  simp only [fdsetTest_zero, Bool.false_eq_true, false_or]
  constructor
  · exact ⟨fun h => ⟨(hrange _ h.2.1).1 h.1, h.2⟩, fun h => ⟨(hrange _ h.2.1).2 h.1, h.2⟩⟩
  · exact ⟨fun h => ⟨(hrange _ h.2.1).1 h.1, h.2⟩, fun h => ⟨(hrange _ h.2.1).2 h.1, h.2⟩⟩

theorem selectReadable_iff :
    selectReadable s fd ↔ 0 ≤ fd ∧ fd < selectFds ∧ fdIsReadableNow s fd = true := by
  rw [selectReadable, (test_selectCore s selectFds _ none fd).1]
  simp only [Asks, Option.some.injEq, exists_eq_left', FdSet.only, fdsetTest_setBit, fdsetTest_zero,
    Bool.false_eq_true, or_false, true_and]
  have hl : (selectLimit selectFds : ℤ) = selectFds := by norm_num [selectLimit]
  rw [hl]
  tauto

theorem selectWritable_iff :
    selectWritable s fd ↔ 0 ≤ fd ∧ fd < selectFds ∧ fdIsWritableNow s fd = true := by
  rw [selectWritable, (test_selectCore s selectFds none _ fd).2]
  simp only [Asks, Option.some.injEq, exists_eq_left', FdSet.only, fdsetTest_setBit, fdsetTest_zero,
    Bool.false_eq_true, or_false, true_and]
  have hl : (selectLimit selectFds : ℤ) = selectFds := by norm_num [selectLimit]
  rw [hl]
  tauto

/-! ### Agreement -/

/-- `poll` and `select` say the same about a descriptor, and neither reports one that is not
open. -/
structure ReadinessAgrees (s : Kernel) (fd : ℤ) : Prop where
  read : pollReports s fd pollin ↔ selectReadable s fd
  write : pollReports s fd pollout ↔ selectWritable s fd
  closed : processGetFd s.proc fd = none →
    ¬ pollReports s fd pollin ∧ ¬ pollReports s fd pollout ∧ ¬ selectReadable s fd ∧
      ¬ selectWritable s fd

/-- A node that both look at the same way, behind a descriptor with these flags: the terminal,
`/dev/null`, or what is no device and open for writing.  A file that happens to have the name of the
event device passes while there are events. -/
def SameReadiness (s : Kernel) (flags : UInt32) (n : ℕ) : Prop :=
  let node := s.vfs.nodes n
  if node.type = .dev then isTtyName node.name.chars = true ∨ node.name.chars = lit "null"
  else has flags (vfsOWronly ||| vfsORdwr) = true ∧
    (isKbdName node.name.chars = true → s.term.eventReady = true)

/-- A node that can be written behind a descriptor with these flags: the terminal, `/dev/null`, the
framebuffer, or what is no device and open for writing. -/
def TakesOutput (s : Kernel) (flags : UInt32) (n : ℕ) : Prop :=
  let node := s.vfs.nodes n
  if node.type = .dev then
    isTtyName node.name.chars = true ∨ node.name.chars = lit "null" ∨ node.name.chars = lit "fb0"
  else has flags (vfsOWronly ||| vfsORdwr) = true

/-- When the two agree on a descriptor: it is negative; or it is open and the standard input on a node
that can be written, or another standard descriptor while there is no input, or one of the other
descriptors with a node that both look at the same way. -/
def AgreesWhen (s : Kernel) (fd : ℤ) : Prop :=
  fd < 0 ∨ ∃ f, processGetFd s.proc fd = some f ∧
    if fd = 0 then ∃ n, f.node = some n ∧ TakesOutput s f.flags n
    else if fd = 1 ∨ fd = 2 then s.term.inputReady = false
    else ∃ n, f.node = some n ∧ SameReadiness s f.flags n

variable {f : FileDescriptor}

theorem readinessAgrees_of_open (hf : processGetFd s.proc fd = some f) :
    ReadinessAgrees s fd ↔
      pollReadable s fd = fdIsReadableNow s fd ∧ fdIsWritableNow s fd = true := by
  obtain ⟨h0, hlt, -, -⟩ := processGetFd_eq_some.1 hf
  have hsel : fd < selectFds := hlt.trans (by norm_num)
  constructor
  · rintro ⟨hr, hw, -⟩
    rw [pollReports_in, selectReadable_iff] at hr
    rw [pollReports_out, selectWritable_iff] at hw
    refine ⟨?_, (hw.1 h0).2.2⟩
    rw [Bool.eq_iff_iff]
    exact ⟨fun h => (hr.1 ⟨h0, h⟩).2.2, fun h => (hr.2 ⟨h0, hsel, h⟩).2⟩
  · rintro ⟨hr, hw⟩
    refine ⟨?_, ?_, fun hnone => ?_⟩
    · rw [pollReports_in, selectReadable_iff, hr]
      exact ⟨fun h => ⟨h.1, hsel, h.2⟩, fun h => ⟨h.1, h.2.2⟩⟩
    · rw [pollReports_out, selectWritable_iff]
      exact ⟨fun h => ⟨h, hsel, hw⟩, fun h => h.1⟩
    · rw [hf] at hnone
      cases hnone

theorem takesOutput_iff (hf : processGetFd s.proc 0 = some f) :
    (pollReadable s 0 = fdIsReadableNow s 0 ∧ fdIsWritableNow s 0 = true) ↔
      ∃ n, f.node = some n ∧ TakesOutput s f.flags n := by
  have hread : pollReadable s 0 = fdIsReadableNow s 0 := by
    simp [pollReadable, pollIsTty, fdIsReadableNow]
  rw [fdIsWritableNow, if_neg (by norm_num), hf]
  simp only [hread, true_and]
  cases hn : f.node with
  | none => simp
  | some n =>
    simp only [Option.some.injEq, exists_eq_left', TakesOutput]
    by_cases hdev : (s.vfs.nodes n).type = .dev
    · simp [hdev, or_assoc]
    · simp [hdev]

theorem sameReadiness_iff (hf : processGetFd s.proc fd = some f)
    (h0 : fd ≠ 0) (h1 : fd ≠ 1) (h2 : fd ≠ 2) :
    (pollReadable s fd = fdIsReadableNow s fd ∧ fdIsWritableNow s fd = true) ↔
      ∃ n, f.node = some n ∧ SameReadiness s f.flags n := by
  have hstd : ¬ (fd = 0 ∨ fd = 1 ∨ fd = 2) := by omega
  have hout : ¬ (fd = 1 ∨ fd = 2) := by omega
  rw [pollReadable, pollIsTty, fdIsReadableNow, fdIsWritableNow, if_neg hstd, if_neg hstd,
    if_neg hout, hf]
  simp only [Option.bind_some]
  cases hn : f.node with
  | none => simp
  | some n =>
    simp only [Option.some.injEq, exists_eq_left', SameReadiness, Kernel.isTtyNode]
    by_cases hdev : (s.vfs.nodes n).type = .dev
    · by_cases htty : isTtyName (s.vfs.nodes n).name.chars = true
      · simp [hdev, htty]
      · simp only [hdev, htty, decide_true, Bool.and_false, if_true, Bool.false_eq_true, if_false,
          Bool.false_or, false_or, Bool.or_eq_true, decide_eq_true_eq]
        by_cases hnull : (s.vfs.nodes n).name.chars = lit "null"
        · have hkbd : isKbdName (lit "null") = false := by decide
          simp [hnull, hkbd]
        · -- of the other devices only the framebuffer is writable for `select`
          simp only [hnull, false_or, if_false, iff_false, not_and]
          intro heq hfb
          have hkbd : isKbdName (lit "fb0") = false := by decide
          have hzero : lit "fb0" ≠ lit "zero" := by decide
          simp [hfb, hkbd, hzero] at heq
    · by_cases hkbd : isKbdName (s.vfs.nodes n).name.chars = true <;> simp [hdev, hkbd, and_comm]

/-- **Exactly when `poll` and `select` agree.** -/
theorem readinessAgrees_iff (s : Kernel) (fd : ℤ) : ReadinessAgrees s fd ↔ AgreesWhen s fd := by
  rcases lt_or_ge fd 0 with hneg | h0
  · refine ⟨fun _ => .inl hneg, fun _ => ?_⟩
    have hle : ¬ 0 ≤ fd := not_le.2 hneg
    refine ⟨?_, ?_, fun _ => ?_⟩ <;>
      simp only [pollReports_in, pollReports_out, selectReadable_iff, selectWritable_iff, hle,
        false_and, not_false_eq_true, and_self]
  cases hf : processGetFd s.proc fd with
  | none =>
    constructor
    · exact fun h => absurd (pollReports_out.2 h0) (h.closed hf).2.1
    · rintro (h | ⟨f, hf', -⟩)
      · omega
      · rw [hf] at hf'
        cases hf'
  | some f =>
    rw [readinessAgrees_of_open hf, AgreesWhen, hf]
    simp only [not_lt.2 h0, false_or, Option.some.injEq, exists_eq_left']
    split
    · next hz =>
        subst hz
        exact takesOutput_iff hf
    · next hz =>
        split
        · next ho =>
            simp [pollReadable, pollIsTty, fdIsReadableNow, fdIsWritableNow, hz, ho]
        · next ho => exact sameReadiness_iff hf hz (fun h => ho (.inl h)) fun h => ho (.inr h)

/-- **A descriptor that is not open**: `poll` reports it ready. -/
theorem not_readinessAgrees_closed : ¬ ReadinessAgrees userKernel 5 := by
  intro h
  have hclosed : processGetFd userKernel.proc 5 = none := by decide
  exact (h.closed hclosed).2.1 (pollReports_out.2 (by norm_num))

end Tnu.Sys
