/-
**Duplicated descriptors.**

`process_dup_fd` and `process_dup2_fd` copy the record of a slot by value: the copy is on the same
node with the same flags, and it has an offset of its own, which starts where the other's stands.
What a read, a write or a seek on a descriptor does depends on the record in its slot alone, once the
standard descriptors are set aside, which `sys_read` and `sys_write` do not look up in the table.

Main definitions:

* `runCalls`, `FdCall.Replaces`, `FdCall.Uses` — runs of calls.

Main result:

* `dupLaw_of_run` — **the law of duplicated descriptors**, along every run.
-/

import Tnu.Sys.Durable

set_option autoImplicit false

namespace Tnu.Sys

open Tnu.Vfs

variable {dev : Devices} {s s' : Kernel} {o n : ℕ}

/-! ### Moving a call to another slot -/

/-- The state that a call on descriptor `o` came to, as it is when the call is made on `n` instead:
`n` has the record the call left, and `o` the one it had. -/
def Kernel.carried (s : Kernel) (o n : ℕ) (s' : Kernel) : Kernel :=
  (s'.setFd o (s.proc.fds o)).setFd n (s'.proc.fds o)

theorem Kernel.carried_setFd (s : Kernel) (o n : ℕ) (g : FileDescriptor) :
    s.carried o n (s.setFd o g) = s.setFd n g := by
  simp only [Kernel.carried, Kernel.setFd, Process.setFd, Function.update_idem, Function.update_self,
    Function.update_eq_self]

theorem Kernel.setFd_eq_self (s : Kernel) (n : ℕ) : s.setFd n (s.proc.fds n) = s := by
  simp only [Kernel.setFd, Process.setFd, Function.update_eq_self]

theorem Kernel.carried_of_fds (h : s'.proc.fds = Function.update s.proc.fds o (s.proc.fds n)) :
    s.carried o n s' = { s' with proc := { s'.proc with fds := s.proc.fds } } := by
  simp only [Kernel.carried, Kernel.setFd, Process.setFd, h, Function.update_idem,
    Function.update_self, Function.update_eq_self]

/-- The state in which `o` has the record of `n`. -/
def Kernel.lend (s : Kernel) (o n : ℕ) : Kernel := s.setFd o (s.proc.fds n)

@[simp] theorem Kernel.vfs_lend (s : Kernel) (o n : ℕ) : (s.lend o n).vfs = s.vfs := rfl

@[simp] theorem Kernel.carried_lend (s : Kernel) (o n : ℕ) : s.carried o n (s.lend o n) = s := by
  rw [Kernel.lend, Kernel.carried_setFd, Kernel.setFd_eq_self]

theorem getFd_of_used (hn : n < vfsMaxFds) (hused : (s.proc.fds n).used = true) :
    processGetFd s.proc n = some (s.proc.fds n) :=
  processGetFd_eq_some.2 ⟨Int.natCast_nonneg n, by exact_mod_cast hn, hused, rfl⟩

theorem getFd_lend (ho : o < vfsMaxFds) (hused : (s.proc.fds n).used = true) :
    processGetFd (s.lend o n).proc o = some (s.proc.fds n) :=
  processGetFd_eq_some.2 ⟨Int.natCast_nonneg o, by exact_mod_cast ho,
    by rw [Int.toNat_natCast, Kernel.lend, Kernel.setFd_fds_self, hused],
    by rw [Int.toNat_natCast, Kernel.lend, Kernel.setFd_fds_self]⟩

theorem readDevice_carried (dev : Devices) (s : Kernel) (o n : ℕ) (name : List Byte) (count : ℕ) :
    readDevice dev s name count =
      let r := readDevice dev (s.lend o n) name count
      (s.carried o n r.1, r.2) := by
  have htty : ∀ r, s.afterTty r =
      (s.carried o n ((s.lend o n).afterTty r).1, ((s.lend o n).afterTty r).2) := by
    intro r
    have hfds : ((s.lend o n).afterTty r).1.proc.fds = Function.update s.proc.fds o (s.proc.fds n) := by
      simp only [Kernel.afterTty]
      split_ifs <;> rfl
    rw [Kernel.carried_of_fds hfds]
    simp only [Kernel.afterTty]
    split_ifs <;> rfl
  have hsame : ∀ r : ℤ × List Byte, (s, r) = (s.carried o n (s.lend o n), r) := fun r => by
    rw [Kernel.carried_lend]
  simp only [readDevice]
  split_ifs
  · exact hsame _
  · exact hsame _
  · exact htty _
  · rw [Kernel.carried_of_fds rfl]
    rfl
  · exact htty _
  · exact hsame _

/-- **A read depends on the record in its slot alone.** -/
theorem sysRead_carried (dev : Devices) (s : Kernel) (ho : o ≠ 0) (hn : n ≠ 0) (hol : o < vfsMaxFds)
    (hnl : n < vfsMaxFds) (hused : (s.proc.fds n).used = true) (buf count : ℕ) :
    sysRead dev s n buf count =
      (sysRead dev (s.lend o n) o buf count).map fun r => (s.carried o n r.1, r.2) := by
  rw [sysRead, sysRead, getFd_of_used hnl hused, getFd_lend hol hused,
    if_neg (by exact_mod_cast hn : ¬ (n : ℤ) = 0), if_neg (by exact_mod_cast ho : ¬ (o : ℤ) = 0)]
  by_cases hptr : 0 < count ∧ uptrOk buf count = false
  · rw [if_pos hptr, if_pos hptr, Option.map_some, Kernel.carried_lend]
  · rw [if_neg hptr, if_neg hptr]
    simp only
    by_cases hmode : has (s.proc.fds n).flags vfsOWronly = true
    · rw [if_pos hmode, if_pos hmode, Option.map_some, Kernel.carried_lend]
    · rw [if_neg hmode, if_neg hmode]
      cases (s.proc.fds n).node with
      | none => rfl
      | some node =>
        rw [Option.bind_some, Option.bind_some, Kernel.vfs_lend]
        by_cases hdev : (s.vfs.nodes node).type = .dev
        · rw [if_pos hdev, if_pos hdev, Option.map_some]
          exact congrArg some (readDevice_carried dev s o n _ count)
        · rw [if_neg hdev, if_neg hdev, Option.map_map]
          congr 1
          funext r
          cases r
          simp only [Function.comp, Int.toNat_natCast]
          split_ifs
          · simp [Kernel.lend, Kernel.carried, Kernel.setFd, Process.setFd]
          · rw [Kernel.carried_lend]

theorem writeNode_carried (dev : Devices) (s : Kernel) (o n node : ℕ) (f : FileDescriptor)
    (buf : UserBuf) :
    writeNode dev s n f node buf =
      (writeNode dev (s.lend o n) o f node buf).map fun r => (s.carried o n r.1, r.2) := by
  have hidem : ∀ g, (s.lend o n).setFd o g = s.setFd o g := fun g => by
    simp only [Kernel.lend, Kernel.setFd, Process.setFd, Function.update_idem]
  rw [writeNode, writeNode, Kernel.vfs_lend]
  generalize (if has f.flags vfsOAppend then (s.vfs.nodes node).size else f.offset) = off
  simp only [hidem]
  by_cases hnull : buf.ptr = 0
  · rw [if_pos hnull, if_pos hnull, Option.map_some, Kernel.carried_setFd]
  · rw [if_neg hnull, if_neg hnull, Option.map_map]
    congr 1
    funext r
    cases r
    simp only [Function.comp]
    split_ifs
    · simp [Kernel.carried, Kernel.setFd, Process.setFd]
    · simp [Kernel.carried, Kernel.setFd, Process.setFd]

/-- **A write depends on the record in its slot alone.** -/
theorem sysWrite_carried (dev : Devices) (s : Kernel) (ho : o ≠ 1 ∧ o ≠ 2) (hn : n ≠ 1 ∧ n ≠ 2)
    (hol : o < vfsMaxFds) (hnl : n < vfsMaxFds) (hused : (s.proc.fds n).used = true) (buf : UserBuf) :
    sysWrite dev s n buf =
      (sysWrite dev (s.lend o n) o buf).map fun r => (s.carried o n r.1, r.2) := by
  have hstd : ∀ i : ℕ, i ≠ 1 ∧ i ≠ 2 → ¬ ((i : ℤ) = 1 ∨ (i : ℤ) = 2) := by omega
  rw [sysWrite, sysWrite, getFd_of_used hnl hused, getFd_lend hol hused, if_neg (hstd n hn),
    if_neg (hstd o ho)]
  by_cases hptr : 0 < buf.bytes.length ∧ uptrOk buf.ptr buf.bytes.length = false
  · rw [if_pos hptr, if_pos hptr, Option.map_some, Kernel.carried_lend]
  · rw [if_neg hptr, if_neg hptr]
    simp only
    by_cases hmode : has (s.proc.fds n).flags vfsOWronly = false ∧ has (s.proc.fds n).flags vfsORdwr = false
    · rw [if_pos hmode, if_pos hmode, Option.map_some, Kernel.carried_lend]
    · rw [if_neg hmode, if_neg hmode]
      cases (s.proc.fds n).node with
      | none => rfl
      | some node =>
        rw [Option.bind_some, Option.bind_some, Kernel.vfs_lend]
        by_cases hdev : (s.vfs.nodes node).type = .dev
        · rw [if_pos hdev, if_pos hdev, Option.map_some, Kernel.carried_lend]
        · rw [if_neg hdev, if_neg hdev]
          exact writeNode_carried dev s o n node _ buf

/-- **A seek depends on the record in its slot alone.** -/
theorem sysLseek_carried (s : Kernel) (hol : o < vfsMaxFds) (hnl : n < vfsMaxFds)
    (hused : (s.proc.fds n).used = true) (offset whence : ℤ) :
    sysLseek s n offset whence =
      (sysLseek (s.lend o n) o offset whence).map fun r => (s.carried o n r.1, r.2) := by
  rw [sysLseek, sysLseek, getFd_of_used hnl hused, getFd_lend hol hused, Kernel.vfs_lend]
  simp only
  generalize (if whence = 0 then some (some 0)
    else if whence = 1 then some (some (toI64 (s.proc.fds n).offset))
    else if whence = 2 then (s.proc.fds n).node.map fun m => some (toI64 (s.vfs.nodes m).size)
    else some none : Option (Option ℤ)) = base
  cases base with
  | none => rfl
  | some base =>
    cases base with
    | none => simp
    | some base =>
      simp only [Option.bind_some]
      split_ifs
      · rfl
      · simp
      · simp [Kernel.lend, Kernel.carried, Kernel.setFd, Process.setFd]

/-! ### Slots along a run -/

/-- The call puts another record into slot `i`, or clears it. -/
def FdCall.Replaces (c : FdCall) (i : ℕ) : Prop :=
  match c with
  | .close fd => fd = i ∧ 3 ≤ fd
  | .dup2 oldfd newfd => newfd = i ∧ oldfd ≠ newfd
  | _ => False

/-- The call replaces slot `i`, or reads, writes or seeks through it. -/
def FdCall.Uses (c : FdCall) (i : ℕ) : Prop :=
  match c with
  | .read _ fd _ _ | .lseek fd _ _ | .write _ fd _ => fd = i
  | c => c.Replaces i

def runCalls : Kernel → List FdCall → Option Kernel
  | s, [] => some s
  | s, c :: cs => (runCall s c).bind fun r => runCalls r.1 cs

/-- A slot is still open on the same node with the same flags. -/
structure SameFile (f g : FileDescriptor) : Prop where
  used : g.used = f.used
  flags : g.flags = f.flags
  node : g.node = f.node

theorem SameFile.refl (f : FileDescriptor) : SameFile f f := ⟨rfl, rfl, rfl⟩

theorem SameFile.trans {f g k : FileDescriptor} (h : SameFile f g) (h' : SameFile g k) :
    SameFile f k := ⟨h'.used.trans h.used, h'.flags.trans h.flags, h'.node.trans h.node⟩

/-- What a call does to a slot: it stays open on its file, and is not touched unless it is used. -/
structure Keeps (s s' : Kernel) (c : FdCall) (i : ℕ) : Prop where
  file : SameFile (s.proc.fds i) (s'.proc.fds i)
  untouched : ¬ c.Uses i → s'.proc.fds i = s.proc.fds i

variable {c : FdCall} {i : ℕ}

theorem Keeps.of_eq (h : s'.proc.fds i = s.proc.fds i) : Keeps s s' c i :=
  ⟨by rw [h]; exact .refl _, fun _ => h⟩

theorem keeps_of_moves {fd : ℤ} (h : MovesOffset s s' fd)
    (huses : c.Uses i ↔ fd = i) : Keeps s s' c i :=
  ⟨⟨(h.slot i).used, (h.slot i).flags, (h.slot i).node⟩,
    fun hnot => h.others i fun e => hnot (huses.2 e.symm)⟩

theorem ne_of_free {j : ℕ} (hused : (s.proc.fds i).used = true) (hfree : freeFd s.proc = some j) :
    i ≠ j := by
  rintro rfl
  rw [(freeFd_eq_some hfree).2.2] at hused
  cases hused

/-- **What one call does to an open slot** that it does not replace. -/
theorem slot_runCall {rc : ℤ} (hcall : runCall s c = some (s', rc))
    (hused : (s.proc.fds i).used = true) (hkeep : ¬ c.Replaces i) : Keeps s s' c i := by
  cases c with
  | «open» path flags mode =>
    have he : sysOpen s path flags mode = (s', rc) := Option.some.inj hcall
    cases (sysOpen_cases s path flags mode).2 with
    | inl hfail =>
      rw [he] at hfail
      exact .of_eq (by rw [hfail.2])
    | inr hopens =>
      obtain ⟨j, hj⟩ := hopens
      obtain ⟨f, hproc, -⟩ := hj.proc_eq
      rw [he] at hproc
      exact .of_eq (by rw [hproc, Process.setFd_of_ne _ _ (ne_of_free hused hj.free)])
  | read dev fd buf count =>
    obtain ⟨⟨s'', r⟩, hread, he⟩ := Option.map_eq_some_iff.1 hcall
    obtain ⟨rfl, rfl⟩ := Prod.mk.inj he
    exact keeps_of_moves (sysRead_moves hread).1 Iff.rfl
  | lseek fd offset whence => exact keeps_of_moves (sysLseek_moves hcall).1 Iff.rfl
  | write dev fd buf =>
    obtain ⟨⟨s'', rc', out⟩, hwrite, he⟩ := Option.map_eq_some_iff.1 hcall
    obtain ⟨rfl, rfl⟩ := Prod.mk.inj he
    cases sysWrite_cases hwrite with
    | inl hnothing => exact .of_eq (by rw [hnothing.1])
    | inr hmoves =>
      obtain ⟨f, offset, vfs, hf, -, rfl⟩ := hmoves
      obtain ⟨h0, -, -, rfl⟩ := processGetFd_eq_some.1 hf
      by_cases hi : i = fd.toNat
      · subst hi
        refine ⟨?_, fun hnot => absurd (Int.toNat_of_nonneg h0).symm hnot⟩
        simp only [Kernel.setFd_fds_self]
        exact ⟨rfl, rfl, rfl⟩
      · exact .of_eq (Kernel.setFd_fds_of_ne _ _ hi)
  | dup fd =>
    obtain ⟨rfl, rfl⟩ := Prod.mk.inj (Option.some.inj hcall)
    cases processDupFd_cases s.proc fd with
    | inl hfail => exact .of_eq (by rw [hfail])
    | inr hdone =>
      obtain ⟨old, j, -, hfree, he⟩ := hdone
      exact .of_eq (by rw [he, Process.setFd_of_ne _ _ (ne_of_free hused hfree)])
  | dup2 oldfd newfd =>
    obtain ⟨rfl, rfl⟩ := Prod.mk.inj (Option.some.inj hcall)
    cases processDup2Fd_cases s.proc oldfd newfd with
    | inl hsame =>
      obtain ⟨rc, he⟩ := hsame
      exact .of_eq (by rw [he])
    | inr hdone =>
      obtain ⟨old, -, h0, -, hne, he⟩ := hdone
      have hi : i ≠ newfd.toNat := by
        rintro rfl
        exact hkeep ⟨(Int.toNat_of_nonneg h0).symm, hne⟩
      exact .of_eq (by rw [he, Process.setFd_of_ne _ _ hi])
  | close fd =>
    obtain rfl : (sysClose s fd).1 = s' := congrArg Prod.fst (Option.some.inj hcall)
    refine .of_eq ?_
    rw [sysClose_proc, processCloseFd]
    split_ifs with hrange
    · rfl
    · have hi : i ≠ fd.toNat := by
        rintro rfl
        exact hkeep ⟨(Int.toNat_of_nonneg (by omega)).symm, by omega⟩
      rw [Process.setFd_of_ne _ _ hi]
  | exit code =>
    obtain ⟨rfl, rfl⟩ := Prod.mk.inj (Option.some.inj hcall)
    exact .of_eq rfl

/-- **What a run does to an open slot** that it does not replace. -/
theorem slot_runCalls : ∀ {cs : List FdCall} {s s' : Kernel} {i : ℕ}, runCalls s cs = some s' →
    (s.proc.fds i).used = true → (∀ c ∈ cs, ¬ c.Replaces i) →
      SameFile (s.proc.fds i) (s'.proc.fds i) ∧
        ((∀ c ∈ cs, ¬ c.Uses i) → s'.proc.fds i = s.proc.fds i) := by
  intro cs
  induction cs with
  | nil =>
    rintro s s' i hrun - -
    obtain rfl := Option.some.inj hrun
    exact ⟨.refl _, fun _ => rfl⟩
  | cons c cs ih =>
    intro s s' i hrun hused hkeep
    obtain ⟨⟨s₁, rc⟩, hcall, hrest⟩ := Option.bind_eq_some_iff.1 hrun
    have hone := slot_runCall hcall hused (hkeep c (by simp))
    obtain ⟨hfile, huntouched⟩ := ih hrest (hone.file.used.trans hused)
      fun d hd => hkeep d (by simp [hd])
    refine ⟨hone.file.trans hfile, fun hnot => ?_⟩
    rw [huntouched fun d hd => hnot d (by simp [hd]), hone.untouched (hnot c (by simp))]

/-! ### The law -/

/-- Descriptor `n` is on the file of descriptor `o`, and does on its own offset what `o` would do
there: a call on `n` has the results and effects of the same call on `o` with the record of `n`, and
moves `n`.  Reads are compared beside the standard input, writes beside the standard outputs. -/
structure DupLaw (s : Kernel) (o n : ℕ) : Prop where
  node : (s.proc.fds n).node = (s.proc.fds o).node
  flags : (s.proc.fds n).flags = (s.proc.fds o).flags
  read : o ≠ 0 → n ≠ 0 → ∀ dev buf count, sysRead dev s n buf count =
    (sysRead dev (s.lend o n) o buf count).map fun r => (s.carried o n r.1, r.2)
  write : o ≠ 1 ∧ o ≠ 2 → n ≠ 1 ∧ n ≠ 2 → ∀ dev buf, sysWrite dev s n buf =
    (sysWrite dev (s.lend o n) o buf).map fun r => (s.carried o n r.1, r.2)
  seek : ∀ offset whence, sysLseek s n offset whence =
    (sysLseek (s.lend o n) o offset whence).map fun r => (s.carried o n r.1, r.2)

/-- The call that duplicated: `dup2` onto a slot it was told, or `dup` onto a free one. -/
def FdCall.Duplicates (c : FdCall) (o n : ℕ) : Prop := c = .dup2 o n ∨ c = .dup o

theorem fds_of_duplicates (hc : c.Duplicates o n)
    (hcall : runCall s c = some (s', (n : ℤ))) :
    o < vfsMaxFds ∧ n < vfsMaxFds ∧ (s'.proc.fds o).used = true ∧ s'.proc.fds n = s'.proc.fds o := by
  cases hold : processGetFd s.proc o with
  | none =>
    -- neither call finds the descriptor, and both return `-1`
    cases hc with
    | inl h2 =>
      subst h2
      simp only [runCall, processDup2Fd, hold, Option.some.injEq, Prod.mk.injEq] at hcall
      omega
    | inr h1 =>
      subst h1
      simp only [runCall, processDupFd, hold, Option.some.injEq, Prod.mk.injEq] at hcall
      omega
  | some old =>
    obtain ⟨-, hol, hused, rfl⟩ := processGetFd_eq_some.1 hold
    rw [Int.toNat_natCast] at hused hold
    have hol : o < vfsMaxFds := by exact_mod_cast hol
    cases hc with
    | inl h2 =>
      subst h2
      simp only [runCall, processDup2Fd, hold, Option.some.injEq] at hcall
      split_ifs at hcall with hrange heq
      · have := (Prod.mk.inj hcall).2
        omega
      · obtain ⟨rfl, -⟩ := Prod.mk.inj hcall
        obtain rfl : o = n := by exact_mod_cast heq
        exact ⟨hol, hol, hused, rfl⟩
      · obtain ⟨rfl, -⟩ := Prod.mk.inj hcall
        have hne : o ≠ n := fun e => heq (by exact_mod_cast e)
        refine ⟨hol, by omega, ?_, ?_⟩
        · simp only [Int.toNat_natCast, Process.setFd_of_ne _ _ hne, hused]
        · simp only [Int.toNat_natCast, Process.setFd_self, Process.setFd_of_ne _ _ hne]
    | inr h1 =>
      subst h1
      cases hfree : freeFd s.proc with
      | none =>
        simp only [runCall, processDupFd, hold, hfree, Option.some.injEq, Prod.mk.injEq] at hcall
        omega
      | some i =>
        simp only [runCall, processDupFd, hold, hfree, Option.some.injEq, Prod.mk.injEq] at hcall
        obtain ⟨rfl, hi⟩ := hcall
        obtain rfl : i = n := by exact_mod_cast hi
        have hne : o ≠ i := ne_of_free hused hfree
        refine ⟨hol, (freeFd_eq_some hfree).2.1, ?_, ?_⟩
        · simp only [Process.setFd_of_ne _ _ hne, hused]
        · simp only [Process.setFd_self, Process.setFd_of_ne _ _ hne]

/-- **The law of duplicated descriptors**: once `dup2(o, n)` or `dup(o)` has returned `n`, whatever
calls are made that replace neither slot, `n` is on the file of `o` and does on its own offset what
`o` would do there; and as long as neither is used their records are the same. -/
theorem dupLaw_of_run {s₁ s₂ : Kernel} {c : FdCall} {cs : List FdCall} (hc : c.Duplicates o n)
    (hcall : runCall s c = some (s₁, (n : ℤ))) (hkeep : ∀ d ∈ cs, ¬ d.Replaces o ∧ ¬ d.Replaces n)
    (hrun : runCalls s₁ cs = some s₂) :
    DupLaw s₂ o n ∧ ((∀ d ∈ cs, ¬ d.Uses o ∧ ¬ d.Uses n) → s₂.lend o n = s₂) := by
  obtain ⟨hol, hnl, hused, heq⟩ := fds_of_duplicates hc hcall
  have hused' : (s₁.proc.fds n).used = true := by rw [heq, hused]
  obtain ⟨hfo, huo⟩ := slot_runCalls hrun hused fun d hd => (hkeep d hd).1
  obtain ⟨hfn, hun⟩ := slot_runCalls hrun hused' fun d hd => (hkeep d hd).2
  have hopen : (s₂.proc.fds n).used = true := hfn.used.trans hused'
  refine ⟨⟨?_, ?_, ?_, ?_, ?_⟩, fun hidle => ?_⟩
  · rw [hfn.node, hfo.node, heq]
  · rw [hfn.flags, hfo.flags, heq]
  · exact fun ho hn dev buf count => sysRead_carried dev s₂ ho hn hol hnl hopen buf count
  · exact fun ho hn dev buf => sysWrite_carried dev s₂ ho hn hol hnl hopen buf
  · exact fun offset whence => sysLseek_carried s₂ hol hnl hopen offset whence
  · have hsame : s₂.proc.fds n = s₂.proc.fds o := by
      rw [hun fun d hd => (hidle d hd).2, huo fun d hd => (hidle d hd).1, heq]
    rw [Kernel.lend, hsame, Kernel.setFd_eq_self]

def openedKernel : Kernel :=
  (sysOpen userKernel tmpPath (vfsORdwr ||| vfsOCreat) 0o600).1

/-- `dup` of descriptor 3 gives 4, and a byte written through 3 does not move 4. -/
theorem dupLaw_of_run_opened :
    ∃ s₁ s₂, runCall openedKernel (.dup 3) = some (s₁, 4) ∧
      runCalls s₁ [.write quietDevices 3 ⟨0x6000, lit "x"⟩] = some s₂ ∧ DupLaw s₂ 3 4 := by
  have hdup : ((runCall openedKernel (.dup 3)).any fun r => r.2 = 4 &&
      (runCalls r.1 [.write quietDevices 3 ⟨0x6000, lit "x"⟩]).isSome) = true := by decide
  obtain ⟨⟨s₁, rc⟩, hcall, hrest⟩ := (Option.any_eq_true _ _).1 hdup
  simp only [Bool.and_eq_true, decide_eq_true_eq] at hrest
  obtain ⟨rfl, hsome⟩ := hrest
  obtain ⟨s₂, hrun⟩ := Option.isSome_iff_exists.1 hsome
  refine ⟨s₁, s₂, hcall, hrun, (dupLaw_of_run (o := 3) (n := 4) (.inr rfl) hcall ?_ hrun).1⟩
  intro d hd
  rw [List.mem_singleton.1 hd]
  exact ⟨id, id⟩

/-- The offset is not shared: after a write through the original the copy still stands at the start. -/
theorem not_shared_offset :
    ¬ ∀ (s s₁ s₂ : Kernel) (o n : ℕ) (cs : List FdCall), runCall s (.dup2 o n) = some (s₁, (n : ℤ)) →
      (∀ d ∈ cs, ¬ d.Replaces o ∧ ¬ d.Replaces n) → runCalls s₁ cs = some s₂ →
        ∀ offset whence, (sysLseek s₂ n offset whence).map Prod.snd =
          (sysLseek s₂ o offset whence).map Prod.snd := by
  intro h
  have hrun : ((runCall openedKernel (.dup2 3 4)).any fun r => r.2 = 4 &&
      (runCalls r.1 [.write quietDevices 3 ⟨0x6000, lit "x"⟩]).any fun s₂ =>
        (sysLseek s₂ 4 0 1).map Prod.snd = some 0 && (sysLseek s₂ 3 0 1).map Prod.snd = some 1) = true := by
    decide
  obtain ⟨⟨s₁, rc⟩, hcall, hrest⟩ := (Option.any_eq_true _ _).1 hrun
  simp only [Bool.and_eq_true, decide_eq_true_eq] at hrest
  obtain ⟨rfl, hany⟩ := hrest
  obtain ⟨s₂, hrun, hseek⟩ := (Option.any_eq_true _ _).1 hany
  simp only [Bool.and_eq_true, decide_eq_true_eq] at hseek
  have hsame := h openedKernel s₁ s₂ 3 4 _ hcall
    (fun d hd => by rw [List.mem_singleton.1 hd]; exact ⟨id, id⟩) hrun 0 1
  have := hseek.1.symm.trans (hsame.trans hseek.2)
  simp at this

end Tnu.Sys
