/-
**Processes and their descriptors.**

The process record of `kernel/core/process.c` and its table of open files.  There is one process at
a time that makes system calls, `process_current()`; a descriptor number is a C `int`, and a pointer
to a node is its index in the pool.

Main definitions:

* `processGetFd`, `processOpenFd`, `processCloseFd`, `processDupFd`,
  `processDup2Fd` — the functions of the source.

Main results:

* `freeFd_eq_some`, `freeFd_eq_none` — what the search for a free slot finds;
* `processDupFd_cases`, `processDup2Fd_cases` — what duplication does.
-/

import Tnu.Vfs.Node

set_option autoImplicit false

namespace Tnu.Sys

open Tnu.Vfs

/-! ### Records -/

abbrev vfsMaxFds : ℕ := 32

abbrev vfsOWronly : UInt32 := 0x1

abbrev vfsORdwr : UInt32 := 0x2

abbrev vfsOCreat : UInt32 := 0x40

abbrev vfsOTrunc : UInt32 := 0x200

abbrev vfsOAppend : UInt32 := 0x400

abbrev vfsOExcl : UInt32 := 0x800

/-- `flags & mask`, as a condition. -/
def has (flags mask : UInt32) : Bool := flags &&& mask ≠ 0

/-- `struct file_descriptor`. -/
structure FileDescriptor where
  used : Bool
  dirty : Bool
  flags : UInt32
  offset : ℕ
  node : Option ℕ
  deriving DecidableEq, Repr

/-- A slot after `memset` to zero. -/
def FileDescriptor.cleared : FileDescriptor where
  used := false
  dirty := false
  flags := 0
  offset := 0
  node := none

/-- `enum process_state`. -/
inductive ProcessState
  | unused
  | ready
  | running
  | sleeping
  | zombie
  deriving DecidableEq, Repr

abbrev processNameMax : ℕ := 31

abbrev processSignalMax : ℕ := 32

/-- `struct process`, with the fields that the calls of the native table read or write. -/
structure Process where
  uid : UInt32
  gid : UInt32
  state : ProcessState
  name : CharBuf processNameMax
  cwd : CharBuf (vfsPathMax - 1)
  exitCode : ℤ
  signalDisposition : ℕ → UInt8
  signalHandler : ℕ → ℕ
  fds : ℕ → FileDescriptor
  brkFloor : ℕ
  brkCurrent : ℕ
  heapLimit : ℕ

def Process.setFd (p : Process) (fd : ℕ) (f : FileDescriptor) : Process :=
  { p with fds := Function.update p.fds fd f }

/-! ### The functions of the source -/

def processGetFd (p : Process) (fd : ℤ) : Option FileDescriptor :=
  if fd < 0 ∨ vfsMaxFds ≤ fd ∨ (p.fds fd.toNat).used = false then none else some (p.fds fd.toNat)

/-- The search for a free slot; the standard descriptors are never handed out. -/
def freeFd (p : Process) : Option ℕ :=
  (List.range' 3 (vfsMaxFds - 3)).find? fun i => !(p.fds i).used

/-- `process_open_fd`; `size` is the size of the node. -/
def processOpenFd (p : Process) (node size : ℕ) (flags : UInt32) : Process × ℤ :=
  match freeFd p with
  | none => (p, -1)
  | some i =>
    (p.setFd i { p.fds i with
      used := true, flags := flags, offset := if has flags vfsOAppend then size else 0
      node := some node }, i)

/-- `process_close_fd`: the standard descriptors stay open. -/
def processCloseFd (p : Process) (fd : ℤ) : Process :=
  if fd < 3 ∨ vfsMaxFds ≤ fd then p else p.setFd fd.toNat .cleared

def processDupFd (p : Process) (oldfd : ℤ) : Process × ℤ :=
  match processGetFd p oldfd with
  | none => (p, -1)
  | some old =>
    match freeFd p with
    | none => (p, -1)
    | some i => (p.setFd i old, i)

def processDup2Fd (p : Process) (oldfd newfd : ℤ) : Process × ℤ :=
  match processGetFd p oldfd with
  | none => (p, -1)
  | some old =>
    if newfd < 0 ∨ vfsMaxFds ≤ newfd then (p, -1)
    else if oldfd = newfd then (p, newfd)
    else (p.setFd newfd.toNat old, newfd)

/-- `setup_stdio`; `tty` is what the lookup of `/dev/tty` finds. -/
def setupStdio (tty : Option ℕ) (p : Process) : Process :=
  { p with fds := fun i =>
      if i < 3 then
        { p.fds i with used := true, flags := if i = 0 then 0 else vfsOWronly, node := tty, offset := 0 }
      else p.fds i }

/-- `process_create`, for a slot that was cleared; `home` is the home directory of the user. -/
def processCreate (name : List Byte) (uid gid : UInt32) (home : List Byte) (tty : Option ℕ) :
    Process :=
  setupStdio tty
    { uid := uid, gid := gid, state := .ready, name := CharBuf.strncpy processNameMax name
      cwd := CharBuf.strncpy (vfsPathMax - 1) (if home = [] then [slash] else home)
      exitCode := 0, signalDisposition := fun _ => 0, signalHandler := fun _ => 0
      fds := fun _ => .cleared, brkFloor := 0, brkCurrent := 0, heapLimit := 0 }

/-! ### Slots -/

variable {p : Process} {fd oldfd newfd : ℤ} {i j node size : ℕ} {f : FileDescriptor}
  {flags : UInt32}

@[simp] theorem Process.setFd_self (p : Process) (i : ℕ) (f : FileDescriptor) :
    (p.setFd i f).fds i = f := Function.update_self ..

theorem Process.setFd_of_ne (p : Process) (f : FileDescriptor) (h : j ≠ i) :
    (p.setFd i f).fds j = p.fds j := Function.update_of_ne h ..

theorem processGetFd_eq_some :
    processGetFd p fd = some f ↔
      0 ≤ fd ∧ fd < vfsMaxFds ∧ (p.fds fd.toNat).used = true ∧ p.fds fd.toNat = f := by
  rw [processGetFd]
  split
  · next h =>
      simp only [reduceCtorEq, false_iff]
      rintro ⟨h₁, h₂, h₃, -⟩
      rcases h with h | h | h
      · omega
      · omega
      · rw [h] at h₃
        cases h₃
  · next h =>
      simp only [not_or, not_lt, not_le, Bool.not_eq_false] at h
      simp only [Option.some.injEq, h.1, h.2.1, h.2.2, true_and]

theorem freeFd_eq_some (h : freeFd p = some i) : 3 ≤ i ∧ i < vfsMaxFds ∧ (p.fds i).used = false := by
  have hmem := List.mem_of_find?_eq_some h
  have hfree := List.find?_some h
  simp only [List.mem_range'_1] at hmem
  exact ⟨hmem.1, by omega, by simpa using hfree⟩

/-- **What `dup` does**: nothing, or a copy in a slot that was free. -/
theorem processDupFd_cases (p : Process) (oldfd : ℤ) :
    processDupFd p oldfd = (p, -1) ∨
      ∃ old i, processGetFd p oldfd = some old ∧ freeFd p = some i ∧
        processDupFd p oldfd = (p.setFd i old, (i : ℤ)) := by
  rw [processDupFd]
  cases hold : processGetFd p oldfd with
  | none => exact .inl rfl
  | some old =>
    cases hfree : freeFd p with
    | none => exact .inl rfl
    | some i => exact .inr ⟨old, i, rfl, rfl, rfl⟩

/-- **What `dup2` does**: nothing, or a copy in the slot it was told. -/
theorem processDup2Fd_cases (p : Process) (oldfd newfd : ℤ) :
    (∃ rc : ℤ, processDup2Fd p oldfd newfd = (p, rc)) ∨
      ∃ old, processGetFd p oldfd = some old ∧ 0 ≤ newfd ∧ newfd < vfsMaxFds ∧ oldfd ≠ newfd ∧
        processDup2Fd p oldfd newfd = (p.setFd newfd.toNat old, newfd) := by
  rw [processDup2Fd]
  cases hold : processGetFd p oldfd with
  | none => exact .inl ⟨-1, rfl⟩
  | some old =>
    by_cases hrange : newfd < 0 ∨ vfsMaxFds ≤ newfd
    · exact .inl ⟨-1, if_pos hrange⟩
    · by_cases heq : oldfd = newfd
      · exact .inl ⟨newfd, by simp only [if_neg hrange, if_pos heq]⟩
      · rw [not_or, not_lt, not_le] at hrange
        refine .inr ⟨old, rfl, hrange.1, hrange.2, heq, ?_⟩
        simp only [if_neg heq, not_lt.2 hrange.1, not_le.2 hrange.2, or_self, if_false]

end Tnu.Sys
