/-
**Reading, writing and seeking.**

`sys_read`, `sys_write` and `sys_lseek` of `kernel/core/syscall.c`.  Descriptor 0 reads the terminal
and descriptors 1 and 2 write the console, whatever the table says; for every other descriptor the
table decides.  Each slot of the table has an offset and a dirty bit of its own.

A dereference of a NULL node and a copy that would leave its buffer have no defined result: the calls
return `none` there.  What the terminal, the screen and `kmalloc` do is an argument.

Main definitions:

* `sysRead`, `sysWrite`, `sysLseek` — the source.

Main results:

* `sysWrite_cases`, `sysRead_moves`, `sysLseek_moves` — **what the calls do to
  the table**: nothing but to the slot they are made through.
-/

import Tnu.Sys.Access

set_option autoImplicit false

namespace Tnu.Sys

open Tnu.Vfs

/-! ### Surroundings -/

/-- What a read from the terminal came to: the terminal after it, whether `Ctrl-C` ended the program,
the return value and the bytes it stored. -/
structure TtyRead where
  term : Terminal
  interrupted : Bool
  rc : ℤ
  bytes : List Byte

/-- What a call finds around it: the terminal loops of `sys_read` (the blocking one, which follows
`VMIN` and `VTIME`, and the one of the event device for a single byte), which get to see what the
process does with `SIGINT`; the width and height of a graphical framebuffer; and what `kmalloc`
answers. -/
structure Devices where
  readTty : UInt8 → Terminal → ℕ → TtyRead
  tryReadTty : UInt8 → Terminal → ℕ → TtyRead
  framebuffer : Option (ℕ × ℕ)
  kmalloc : ℕ → Bool

def quietDevices : Devices where
  readTty _ term _ := ⟨term, false, 0, []⟩
  tryReadTty _ term _ := ⟨term, false, 0, []⟩
  framebuffer := none
  kmalloc _ := true

/-- What a write puts out besides the tree: bytes on the console, or pixels on the screen. -/
inductive Output
  | nothing
  | console (bytes : List Byte)
  | screen (bytes : List Byte)
  deriving DecidableEq, Repr

/-- A `const void *` argument with its length: the address, and the bytes that are read there. -/
structure UserBuf where
  ptr : ℕ
  bytes : List Byte

abbrev sigintNumber : ℕ := 2

/-- What the current process does with `SIGINT`. -/
def Kernel.sigint (s : Kernel) : UInt8 := s.proc.signalDisposition sigintNumber

def Kernel.setFd (s : Kernel) (fd : ℕ) (f : FileDescriptor) : Kernel :=
  { s with proc := s.proc.setFd fd f }

def Kernel.afterTty (s : Kernel) (r : TtyRead) : Kernel × ℤ × List Byte :=
  let proc := if r.interrupted then { s.proc with exitCode := 130, state := .zombie } else s.proc
  ({ s with term := r.term, proc := proc }, r.rc, r.bytes)

/-! ### `sys_read` -/

/-- `vfs_read_node`; `none` when the copy would leave the buffer of the node. -/
def vfsReadNode (node : VfsNode) (offset buf count : ℕ) : Option (ℤ × List Byte) :=
  if buf = 0 ∨ node.type = .dir then some (-1, [])
  else if node.size ≤ offset then some (0, [])
  else
    let count := min count (node.size - offset)
    node.data.bind fun d =>
      if d.length < offset + count then none else some (count, (d.drop offset).take count)

def eventBytes (ev : UInt16) : List Byte := [ev.toUInt8, (ev >>> 8).toUInt8]

/-- The devices of `sys_read`, by name. -/
def readDevice (dev : Devices) (s : Kernel) (name : List Byte) (count : ℕ) :
    Kernel × ℤ × List Byte :=
  if name = lit "null" then (s, 0, [])
  else if name = lit "zero" then (s, count, List.replicate count 0)
  else if isTtyName name then s.afterTty (dev.readTty s.sigint s.term count)
  else if name = lit "kbd" then
    if 2 ≤ count then
      let evs := s.term.events.take (count / 2)
      ({ s with term := { s.term with events := s.term.events.drop (count / 2) } },
        (evs.length * 2 : ℕ), evs.flatMap eventBytes)
    else s.afterTty (dev.tryReadTty s.sigint s.term count)
  else (s, -1, [])

/-- `sys_read`; the last component is what it stored at `buf`. -/
def sysRead (dev : Devices) (s : Kernel) (fd : ℤ) (buf count : ℕ) :
    Option (Kernel × ℤ × List Byte) :=
  if 0 < count ∧ uptrOk buf count = false then some (s, -1, [])
  else if fd = 0 then some (s.afterTty (dev.readTty s.sigint s.term count))
  else
    match processGetFd s.proc fd with
    | none => some (s, -1, [])
    | some file =>
      if has file.flags vfsOWronly then some (s, -1, [])
      else
        file.node.bind fun n =>
          if (s.vfs.nodes n).type = .dev then
            some (readDevice dev s (s.vfs.nodes n).name.chars count)
          else
            (vfsReadNode (s.vfs.nodes n) file.offset buf count).map fun (ret, bytes) =>
              if 0 < ret then
                (s.setFd fd.toNat { file with offset := (file.offset + ret.toNat) % 2 ^ 64 }, ret, bytes)
              else (s, ret, bytes)

/-! ### `sys_write` -/

/-- The devices of `sys_write`, by name. -/
def writeDevice (dev : Devices) (name : List Byte) (buf : UserBuf) : ℤ × Output :=
  if name = lit "null" then (buf.bytes.length, .nothing)
  else if isTtyName name then (buf.bytes.length, .console buf.bytes)
  else if name = lit "fb0" then
    match dev.framebuffer with
    | none => (-1, .nothing)
    | some (width, height) =>
      if buf.ptr = 0 then (-1, .nothing)
      else
        let pixels := min (buf.bytes.length / 4) (width * height)
        ((pixels * 4 : ℕ), .screen (buf.bytes.take (pixels * 4)))
  else (-1, .nothing)

/-- The end of `sys_write`: the bytes go to a node that is no device. -/
def writeNode (dev : Devices) (s : Kernel) (fd : ℕ) (file : FileDescriptor) (n : ℕ) (buf : UserBuf) :
    Option (Kernel × ℤ × Output) :=
  let offset := if has file.flags vfsOAppend then (s.vfs.nodes n).size else file.offset
  let s := s.setFd fd { file with offset := offset }
  if buf.ptr = 0 then some (s, -1, .nothing)
  else
    (vfsWriteNode dev.kmalloc s.vfs n offset buf.bytes).map fun (vfs, ret) =>
      let s := { s with vfs := vfs }
      if 0 < ret then
        (s.setFd fd { file with offset := (offset + ret.toNat) % 2 ^ 64, dirty := true }, ret, .nothing)
      else (s, ret, .nothing)

def sysWrite (dev : Devices) (s : Kernel) (fd : ℤ) (buf : UserBuf) : Option (Kernel × ℤ × Output) :=
  if 0 < buf.bytes.length ∧ uptrOk buf.ptr buf.bytes.length = false then some (s, -1, .nothing)
  else if fd = 1 ∨ fd = 2 then some (s, buf.bytes.length, .console buf.bytes)
  else
    match processGetFd s.proc fd with
    | none => some (s, -1, .nothing)
    | some file =>
      if has file.flags vfsOWronly = false ∧ has file.flags vfsORdwr = false then
        some (s, -1, .nothing)
      else
        file.node.bind fun n =>
          if (s.vfs.nodes n).type = .dev then
            some (s, writeDevice dev (s.vfs.nodes n).name.chars buf)
          else writeNode dev s fd.toNat file n buf

/-! ### `sys_lseek` -/

/-- A `uint64_t` as an `int64_t`. -/
def toI64 (x : ℕ) : ℤ := if x < 2 ^ 63 then x else (x : ℤ) - 2 ^ 64

/-- `sys_lseek`; `none` when the sum overflows. -/
def sysLseek (s : Kernel) (fd : ℤ) (offset whence : ℤ) : Option (Kernel × ℤ) :=
  match processGetFd s.proc fd with
  | none => some (s, -1)
  | some file =>
    let base : Option (Option ℤ) :=
      if whence = 0 then some (some 0)
      else if whence = 1 then some (some (toI64 file.offset))
      else if whence = 2 then file.node.map fun n => some (toI64 (s.vfs.nodes n).size)
      else some none
    base.bind fun base =>
      match base with
      | none => some (s, -1)
      | some base =>
        let next := base + offset
        if next < -2 ^ 63 ∨ 2 ^ 63 ≤ next then none
        else if next < 0 then some (s, -1)
        else some (s.setFd fd.toNat { file with offset := next.toNat }, next)

/-! ### What a write does to the table -/

variable {dev : Devices} {s s' : Kernel} {fd rc : ℤ} {buf : UserBuf} {out : Output}

@[simp] theorem Kernel.setFd_fds_self (s : Kernel) (i : ℕ) (f : FileDescriptor) :
    (s.setFd i f).proc.fds i = f := Process.setFd_self ..

theorem Kernel.setFd_fds_of_ne (s : Kernel) {i j : ℕ} (f : FileDescriptor) (h : j ≠ i) :
    (s.setFd i f).proc.fds j = s.proc.fds j := Process.setFd_of_ne _ _ h

/-- A descriptor stands for a file of the tree, as far as a write is concerned. -/
def isFileFd (s : Kernel) (fd : ℤ) : Bool :=
  fd ≠ 1 && fd ≠ 2 &&
    match (processGetFd s.proc fd).bind FileDescriptor.node with
    | none => false
    | some n => (s.vfs.nodes n).type ≠ .dev

/-- Bytes of a file were written through a descriptor, when the call returned `rc`. -/
def wroteFile (s : Kernel) (fd rc : ℤ) : Bool := 0 < rc && isFileFd s fd

variable {f : FileDescriptor}

/-- The tree as it was, or as a write of bytes to a node left it. -/
def VfsWritten (dev : Devices) (s : Kernel) (v : Pool) : Prop :=
  v = s.vfs ∨ ∃ n offset bytes ret, vfsWriteNode dev.kmalloc s.vfs n offset bytes = some (v, ret)

theorem writeNode_cases {i n : ℕ}
    (h : writeNode dev s i f n buf = some (s', rc, out)) :
    ∃ offset vfs, VfsWritten dev s vfs ∧ s' = { s.setFd i { f with
      offset := offset, dirty := decide (0 < rc) || f.dirty } with vfs := vfs } := by
  rw [writeNode] at h
  generalize (if has f.flags vfsOAppend then (s.vfs.nodes n).size else f.offset) = off at h
  by_cases hnull : buf.ptr = 0
  · simp only [if_pos hnull, Option.some.injEq, Prod.mk.injEq] at h
    obtain ⟨rfl, rfl, -⟩ := h
    exact ⟨off, s.vfs, .inl rfl, rfl⟩
  · simp only [if_neg hnull] at h
    obtain ⟨⟨vfs, ret⟩, hv, he⟩ := Option.map_eq_some_iff.1 h
    have hwritten : VfsWritten dev s vfs := .inr ⟨_, _, _, _, hv⟩
    by_cases hret : 0 < ret
    · simp only [if_pos hret, Prod.mk.injEq] at he
      obtain ⟨rfl, rfl, -⟩ := he
      refine ⟨(off + ret.toNat) % 2 ^ 64, vfs, hwritten, ?_⟩
      simp only [hret, decide_true, Bool.true_or, Kernel.setFd, Process.setFd, Function.update_idem]
    · simp only [if_neg hret, Prod.mk.injEq] at he
      obtain ⟨rfl, rfl, -⟩ := he
      refine ⟨off, vfs, hwritten, ?_⟩
      simp only [hret, decide_false, Bool.false_or]

/-- **What a write does to the table**: nothing, or it moves the slot it was made through, and marks
it dirty when it wrote bytes of a file. -/
theorem sysWrite_cases (h : sysWrite dev s fd buf = some (s', rc, out)) :
    (s' = s ∧ wroteFile s fd rc = false) ∨
      ∃ f offset vfs, processGetFd s.proc fd = some f ∧ VfsWritten dev s vfs ∧ s' = { s.setFd fd.toNat { f with
        offset := offset, dirty := decide (0 < rc) || f.dirty } with vfs := vfs } := by
  unfold sysWrite at h
  by_cases hptr : 0 < buf.bytes.length ∧ uptrOk buf.ptr buf.bytes.length = false
  · rw [if_pos hptr] at h
    cases h
    exact .inl ⟨rfl, rfl⟩
  · rw [if_neg hptr] at h
    by_cases hstd : fd = 1 ∨ fd = 2
    · rw [if_pos hstd] at h
      cases h
      refine .inl ⟨rfl, ?_⟩
      have hfile : isFileFd s fd = false := by
        cases hstd with
        | inl h1 => simp [isFileFd, h1]
        | inr h2 => simp [isFileFd, h2]
      rw [wroteFile, hfile, Bool.and_false]
    · rw [if_neg hstd] at h
      cases hf : processGetFd s.proc fd with
      | none =>
        simp only [hf, Option.some.injEq, Prod.mk.injEq] at h
        obtain ⟨rfl, rfl, -⟩ := h
        exact .inl ⟨rfl, rfl⟩
      | some f =>
        simp only [hf] at h
        by_cases hmode : has f.flags vfsOWronly = false ∧ has f.flags vfsORdwr = false
        · rw [if_pos hmode] at h
          cases h
          exact .inl ⟨rfl, rfl⟩
        · rw [if_neg hmode] at h
          obtain ⟨n, hn, h⟩ := Option.bind_eq_some_iff.1 h
          by_cases hdev : (s.vfs.nodes n).type = .dev
          · rw [if_pos hdev] at h
            simp only [Option.some.injEq, Prod.mk.injEq] at h
            obtain ⟨rfl, -⟩ := h
            exact .inl ⟨rfl, by simp [wroteFile, isFileFd, hf, hn, hdev]⟩
          · rw [if_neg hdev] at h
            obtain ⟨offset, vfs, hv, he⟩ := writeNode_cases h
            exact .inr ⟨f, offset, vfs, rfl, hv, he⟩

/-! ### What a read and a seek do to the table -/

/-- A slot is the same but for its offset. -/
structure SameButOffset (f g : FileDescriptor) : Prop where
  used : g.used = f.used
  dirty : g.dirty = f.dirty
  flags : g.flags = f.flags
  node : g.node = f.node

theorem SameButOffset.refl (f : FileDescriptor) : SameButOffset f f := ⟨rfl, rfl, rfl, rfl⟩

/-- A call that at most moves the offset of one slot. -/
structure MovesOffset (s s' : Kernel) (fd : ℤ) : Prop where
  others : ∀ j : ℕ, (j : ℤ) ≠ fd → s'.proc.fds j = s.proc.fds j
  slot : ∀ j, SameButOffset (s.proc.fds j) (s'.proc.fds j)
  syncs : s'.syncs = s.syncs

theorem movesOffset_of_fds (hfds : s'.proc.fds = s.proc.fds) (hsyncs : s'.syncs = s.syncs) :
    MovesOffset s s' fd where
  others j _ := by rw [hfds]
  slot j := by rw [hfds]; exact .refl _
  syncs := hsyncs

theorem movesOffset_setFd (hf : processGetFd s.proc fd = some f)
    (offset : ℕ) : MovesOffset s (s.setFd fd.toNat { f with offset := offset }) fd := by
  obtain ⟨h0, -, -, rfl⟩ := processGetFd_eq_some.1 hf
  refine ⟨fun j hj => Kernel.setFd_fds_of_ne _ _ (by omega), fun j => ?_, rfl⟩
  by_cases hj : j = fd.toNat
  · subst hj
    rw [Kernel.setFd_fds_self]
    exact ⟨rfl, rfl, rfl, rfl⟩
  · rw [Kernel.setFd_fds_of_ne _ _ hj]
    exact .refl _

theorem fds_readDevice (dev : Devices) (s : Kernel) (name : List Byte) (count : ℕ) :
    (readDevice dev s name count).1.proc.fds = s.proc.fds ∧
      (readDevice dev s name count).1.syncs = s.syncs ∧ (readDevice dev s name count).1.vfs = s.vfs := by
  have htty : ∀ r, (s.afterTty r).1.proc.fds = s.proc.fds := fun r => by
    simp only [Kernel.afterTty]
    split_ifs <;> rfl
  rw [readDevice]
  split_ifs
  · exact ⟨rfl, rfl, rfl⟩
  · exact ⟨rfl, rfl, rfl⟩
  · exact ⟨htty _, rfl, rfl⟩
  · exact ⟨rfl, rfl, rfl⟩
  · exact ⟨htty _, rfl, rfl⟩
  · exact ⟨rfl, rfl, rfl⟩

/-- **What a read does to the table**: it moves the offset of its own slot, and the tree stays. -/
theorem sysRead_moves {addr count : ℕ} {r : ℤ × List Byte}
    (h : sysRead dev s fd addr count = some (s', r)) :
    MovesOffset s s' fd ∧ s'.vfs = s.vfs := by
  unfold sysRead at h
  by_cases hptr : 0 < count ∧ uptrOk addr count = false
  · rw [if_pos hptr] at h
    cases h
    exact ⟨movesOffset_of_fds rfl rfl, rfl⟩
  · rw [if_neg hptr] at h
    by_cases hzero : fd = 0
    · rw [if_pos hzero] at h
      obtain ⟨rfl, -⟩ := Prod.mk.inj (Option.some.inj h)
      refine ⟨movesOffset_of_fds ?_ rfl, rfl⟩
      simp only
      split_ifs <;> rfl
    · rw [if_neg hzero] at h
      cases hf : processGetFd s.proc fd with
      | none =>
        simp only [hf, Option.some.injEq, Prod.mk.injEq] at h
        obtain ⟨rfl, -⟩ := h
        exact ⟨movesOffset_of_fds rfl rfl, rfl⟩
      | some f =>
        simp only [hf] at h
        by_cases hmode : has f.flags vfsOWronly = true
        · rw [if_pos hmode] at h
          cases h
          exact ⟨movesOffset_of_fds rfl rfl, rfl⟩
        · rw [if_neg hmode] at h
          obtain ⟨n, -, h⟩ := Option.bind_eq_some_iff.1 h
          by_cases hdev : (s.vfs.nodes n).type = .dev
          · rw [if_pos hdev] at h
            obtain ⟨rfl, -⟩ := Prod.mk.inj (Option.some.inj h)
            obtain ⟨hfds, hsyncs, hvfs⟩ := fds_readDevice dev s (s.vfs.nodes n).name.chars count
            exact ⟨movesOffset_of_fds hfds hsyncs, hvfs⟩
          · rw [if_neg hdev] at h
            obtain ⟨⟨ret, bytes⟩, -, he⟩ := Option.map_eq_some_iff.1 h
            by_cases hret : 0 < ret
            · simp only [if_pos hret, Prod.mk.injEq] at he
              obtain ⟨rfl, -⟩ := he
              exact ⟨movesOffset_setFd hf _, rfl⟩
            · simp only [if_neg hret, Prod.mk.injEq] at he
              obtain ⟨rfl, -⟩ := he
              exact ⟨movesOffset_of_fds rfl rfl, rfl⟩

/-- **What a seek does to the table**: it moves the offset of its own slot, and the tree stays. -/
theorem sysLseek_moves {offset whence : ℤ} (h : sysLseek s fd offset whence = some (s', rc)) :
    MovesOffset s s' fd ∧ s'.vfs = s.vfs := by
  unfold sysLseek at h
  cases hf : processGetFd s.proc fd with
  | none =>
    simp only [hf, Option.some.injEq, Prod.mk.injEq] at h
    obtain ⟨rfl, -⟩ := h
    exact ⟨movesOffset_of_fds rfl rfl, rfl⟩
  | some f =>
    simp only [hf] at h
    obtain ⟨base, -, h⟩ := Option.bind_eq_some_iff.1 h
    cases base with
    | none =>
      cases h
      exact ⟨movesOffset_of_fds rfl rfl, rfl⟩
    | some base =>
      simp only at h
      split_ifs at h
      · cases h
        exact ⟨movesOffset_of_fds rfl rfl, rfl⟩
      · obtain ⟨rfl, -⟩ := Prod.mk.inj (Option.some.inj h)
        exact ⟨movesOffset_setFd hf _, rfl⟩

end Tnu.Sys
