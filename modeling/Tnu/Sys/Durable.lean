/-
**Written data and the disk.**

A write goes to the tree only; what brings it to the disk is `tfs_sync_if_mounted`, which the calls
of `kernel/core/syscall.c` make when a slot that is marked dirty is closed and when a program exits.
This module runs the calls on descriptors and keeps, beside the state of the kernel, when each slot
was last written through: the number of syncs there had been.  A slot is dropped safely when there
has been another sync since.

`dup2` overwrites a slot without looking at it, so it can drop data that never reached the disk.  It
is the only call that can.

Main definitions:

* `AvoidsOverwrite` — the runs in which `dup2` never overwrites unsynced data.

Main result:

* `dropsSafe_iff` — **exactly when no written data is lost**.
-/

import Tnu.Sys.FileIo
import Tnu.Sys.Open

set_option autoImplicit false

namespace Tnu.Sys

open Tnu.Vfs

/-! ### The calls -/

/-- The calls that open, use, copy and drop slots of the table. -/
inductive FdCall
  | open (path : UserString) (flags mode : UInt32)
  | read (dev : Devices) (fd : ℤ) (buf count : ℕ)
  | lseek (fd offset whence : ℤ)
  | write (dev : Devices) (fd : ℤ) (buf : UserBuf)
  | dup (fd : ℤ)
  | dup2 (oldfd newfd : ℤ)
  | close (fd : ℤ)
  | exit (code : ℤ)

/-- `SYS_CLOSE`: a slot that is marked dirty is synced first. -/
def sysClose (s : Kernel) (fd : ℤ) : Kernel × ℤ :=
  let s := if (processGetFd s.proc fd).any FileDescriptor.dirty then s.sync else s
  ({ s with proc := processCloseFd s.proc fd }, 0)

def sysExit (s : Kernel) (code : ℤ) : Kernel × ℤ :=
  let s := s.sync
  ({ s with proc := { s.proc with exitCode := code, state := .zombie } }, code)

/-- The branches of `syscall_dispatch` for these calls. -/
def runCall (s : Kernel) : FdCall → Option (Kernel × ℤ)
  | .open path flags mode => some (sysOpen s path flags mode)
  | .read dev fd buf count => (sysRead dev s fd buf count).map fun r => (r.1, r.2.1)
  | .lseek fd offset whence => sysLseek s fd offset whence
  | .write dev fd buf => (sysWrite dev s fd buf).map fun r => (r.1, r.2.1)
  | .dup fd => let r := processDupFd s.proc fd; some ({ s with proc := r.1 }, r.2)
  | .dup2 oldfd newfd => let r := processDup2Fd s.proc oldfd newfd; some ({ s with proc := r.1 }, r.2)
  | .close fd => some (sysClose s fd)
  | .exit code => some (sysExit s code)

/-! ### The last write through a slot -/

/-- The kernel, and for each slot how many syncs there had been when it was last written through, or
a file was truncated to open it. -/
structure Traced where
  kernel : Kernel
  lastWrite : ℕ → Option ℕ

def Traced.start (s : Kernel) : Traced := ⟨s, fun _ => none⟩

def truncatedFd (s : Kernel) (flags : UInt32) (i : ℕ) : Bool :=
  has flags vfsOTrunc && (s.proc.fds i).node.any fun n => (s.vfs.nodes n).type = .file

/-- The bookkeeping for one call, which led to the state `s'` and returned `rc`. -/
def noteWrites (t : Traced) (s' : Kernel) (rc : ℤ) : FdCall → ℕ → Option ℕ
  | .open _ flags _ =>
    if 0 ≤ rc then
      Function.update t.lastWrite rc.toNat
        (if truncatedFd s' flags rc.toNat then some s'.syncs else none)
    else t.lastWrite
  | .write _ fd _ =>
    if wroteFile t.kernel fd rc then Function.update t.lastWrite fd.toNat (some s'.syncs)
    else t.lastWrite
  | .dup _ => if 0 ≤ rc then Function.update t.lastWrite rc.toNat none else t.lastWrite
  | .dup2 oldfd newfd =>
    if 0 ≤ rc ∧ oldfd ≠ newfd then Function.update t.lastWrite newfd.toNat none else t.lastWrite
  | .close fd =>
    if 3 ≤ fd ∧ fd < vfsMaxFds then Function.update t.lastWrite fd.toNat none else t.lastWrite
  | .read .. | .lseek .. | .exit _ => t.lastWrite

/-- One call with its bookkeeping; `none` when the C code has no defined result. -/
def tracedStep (t : Traced) (c : FdCall) : Option Traced :=
  (runCall t.kernel c).map fun r => ⟨r.1, noteWrites t r.1 r.2 c⟩

/-! ### Dropping a slot -/

def Drops (s : Kernel) (i : ℕ) : FdCall → Prop
  | .close fd => fd = i ∧ 3 ≤ i ∧ (processGetFd s.proc fd).isSome = true
  | .dup2 oldfd newfd =>
    newfd = i ∧ oldfd ≠ newfd ∧ (processGetFd s.proc oldfd).isSome = true ∧
      (processGetFd s.proc newfd).isSome = true
  | .exit _ => (processGetFd s.proc i).isSome = true
  | _ => False

def SafeStep (t : Traced) (c : FdCall) (t' : Traced) : Prop :=
  ∀ i k, Drops t.kernel i c → t.lastWrite i = some k → k < t'.kernel.syncs

/-- Every slot that the calls of a run drop was synced after its last write. -/
def DropsSafe : Traced → List FdCall → Prop
  | _, [] => True
  | t, c :: cs => ∀ t', tracedStep t c = some t' → SafeStep t c t' ∧ DropsSafe t' cs

/-- The call is a `dup2` onto another open slot, through which something was written, or for which a
file was truncated, since the last sync. -/
def OverwritesUnsynced (t : Traced) : FdCall → Prop
  | .dup2 oldfd newfd =>
    oldfd ≠ newfd ∧ (processGetFd t.kernel.proc oldfd).isSome = true ∧
      (processGetFd t.kernel.proc newfd).isSome = true ∧
      t.lastWrite newfd.toNat = some t.kernel.syncs
  | _ => False

def AvoidsOverwrite : Traced → List FdCall → Prop
  | _, [] => True
  | t, c :: cs => ¬ OverwritesUnsynced t c ∧ ∀ t', tracedStep t c = some t' → AvoidsOverwrite t' cs

/-! ### What is not synced is marked dirty -/

/-- The invariant of the bookkeeping: no write is later than now, and a slot that was written through
since the last sync is open and marked dirty. -/
structure Tracked (t : Traced) : Prop where
  le_syncs : ∀ {i k}, t.lastWrite i = some k → k ≤ t.kernel.syncs
  dirty : ∀ {i}, t.lastWrite i = some t.kernel.syncs →
    (t.kernel.proc.fds i).used = true ∧ (t.kernel.proc.fds i).dirty = true

variable {t t' : Traced} {c : FdCall}

theorem tracked_start (s : Kernel) : Tracked (.start s) where
  le_syncs h := by cases h
  dirty h := by cases h

variable {s' : Kernel}

theorem Tracked.same (h : Tracked t) (hsyncs : t.kernel.syncs ≤ s'.syncs)
    (hfds : ∀ j, (t.kernel.proc.fds j).used = true → (t.kernel.proc.fds j).dirty = true →
      (s'.proc.fds j).used = true ∧ (s'.proc.fds j).dirty = true) : Tracked ⟨s', t.lastWrite⟩ where
  le_syncs hj := (h.le_syncs hj).trans hsyncs
  dirty {j} hj := by
    have heq : t.kernel.syncs = s'.syncs := le_antisymm hsyncs (h.le_syncs hj)
    obtain ⟨hu, hd⟩ := h.dirty (i := j) (by rw [heq]; exact hj)
    exact hfds j hu hd

theorem Tracked.update (h : Tracked t) {i : ℕ} {v : Option ℕ}
    (hsyncs : t.kernel.syncs ≤ s'.syncs)
    (hfds : ∀ j, j ≠ i → s'.proc.fds j = t.kernel.proc.fds j)
    (hv : ∀ k, v = some k → k = s'.syncs ∧ (s'.proc.fds i).used = true ∧ (s'.proc.fds i).dirty = true) :
    Tracked ⟨s', Function.update t.lastWrite i v⟩ where
  le_syncs {j k} hj := by
    dsimp only at hj ⊢
    by_cases hji : j = i
    · subst hji
      rw [Function.update_self] at hj
      exact (hv k hj).1.le
    · rw [Function.update_of_ne hji] at hj
      exact (h.le_syncs hj).trans hsyncs
  dirty {j} hj := by
    dsimp only at hj ⊢
    by_cases hji : j = i
    · subst hji
      rw [Function.update_self] at hj
      exact (hv _ hj).2
    · rw [Function.update_of_ne hji] at hj
      have heq : t.kernel.syncs = s'.syncs := le_antisymm hsyncs (h.le_syncs hj)
      obtain ⟨hu, hd⟩ := h.dirty (i := j) (by rw [heq]; exact hj)
      exact ⟨by rw [hfds j hji]; exact hu, by rw [hfds j hji]; exact hd⟩

theorem tracked_open (h : Tracked t) (path : UserString) (flags mode : UInt32) {rc : ℤ}
    (hcall : sysOpen t.kernel path flags mode = (s', rc)) :
    Tracked ⟨s', noteWrites t s' rc (.open path flags mode)⟩ := by
  obtain ⟨hsyncs, hcases⟩ := sysOpen_cases t.kernel path flags mode
  rw [hcall] at hsyncs hcases
  cases hcases with
  | inl hfail =>
    obtain ⟨hrc, hproc⟩ := hfail
    simp only at hrc hproc
    rw [noteWrites, if_neg (by omega)]
    exact h.same hsyncs fun j hu hd => by simp only [hproc, hu, hd, and_self]
  | inr hopens =>
    obtain ⟨i, hi⟩ := hopens
    obtain ⟨f, hproc, hused, node, hnode, hdirty⟩ := hi.proc_eq
    have hrc : rc = i := hi.rc_eq
    simp only at hproc hdirty
    subst hrc
    rw [noteWrites, if_pos (Int.natCast_nonneg i), Int.toNat_natCast]
    refine h.update hsyncs (fun j hj => by rw [hproc, Process.setFd_of_ne _ _ hj]) fun k hk => ?_
    split_ifs at hk with htrunc
    obtain rfl := Option.some.inj hk
    rw [truncatedFd, hproc, Process.setFd_self, hnode, Option.any_some] at htrunc
    rw [hproc, Process.setFd_self]
    exact ⟨rfl, hused, hdirty htrunc⟩

theorem tracked_write (h : Tracked t) (dev : Devices) (fd : ℤ) (buf : UserBuf) {rc : ℤ}
    {out : Output} (hcall : sysWrite dev t.kernel fd buf = some (s', rc, out)) :
    Tracked ⟨s', noteWrites t s' rc (.write dev fd buf)⟩ := by
  cases sysWrite_cases hcall with
  | inl hnothing =>
    obtain ⟨rfl, hw⟩ := hnothing
    rw [noteWrites, hw]
    exact h
  | inr hmoves =>
    obtain ⟨f, offset, vfs, hf, -, rfl⟩ := hmoves
    obtain ⟨-, -, hused, rfl⟩ := processGetFd_eq_some.1 hf
    rw [noteWrites]
    cases hw : wroteFile t.kernel fd rc with
    | true =>
      rw [wroteFile, Bool.and_eq_true] at hw
      rw [if_pos rfl]
      refine h.update le_rfl (fun j hj => Process.setFd_of_ne _ _ hj) fun k hk => ?_
      refine ⟨(Option.some.inj hk).symm, ?_, ?_⟩
      · simp only [Kernel.setFd_fds_self, hused]
      · simp only [Kernel.setFd_fds_self, hw.1, Bool.true_or]
    | false =>
      rw [if_neg Bool.false_ne_true]
      refine h.same le_rfl fun j hu hd => ?_
      by_cases hj : j = fd.toNat
      · subst hj
        simp only [Kernel.setFd_fds_self, hused, hd, Bool.or_true, and_self]
      · simp only [Kernel.setFd_fds_of_ne _ _ hj, hu, hd, and_self]

theorem tracked_moves (h : Tracked t) {fd : ℤ} (hmoves : MovesOffset t.kernel s' fd) :
    Tracked ⟨s', t.lastWrite⟩ :=
  h.same hmoves.syncs.ge fun j hu hd => by
    rw [(hmoves.slot j).used, (hmoves.slot j).dirty]
    exact ⟨hu, hd⟩

theorem tracked_dup (h : Tracked t) (fd : ℤ) :
    Tracked ⟨{ t.kernel with proc := (processDupFd t.kernel.proc fd).1 },
      noteWrites t { t.kernel with proc := (processDupFd t.kernel.proc fd).1 }
        (processDupFd t.kernel.proc fd).2 (.dup fd)⟩ := by
  cases processDupFd_cases t.kernel.proc fd with
  | inl hfail =>
    rw [hfail, noteWrites, if_neg (by norm_num)]
    exact h
  | inr hdone =>
    obtain ⟨old, i, -, -, he⟩ := hdone
    rw [he, noteWrites, if_pos (Int.natCast_nonneg i), Int.toNat_natCast]
    exact h.update le_rfl (fun j hj => Process.setFd_of_ne _ _ hj) fun k hk => by cases hk

theorem tracked_dup2 (h : Tracked t) (oldfd newfd : ℤ) :
    Tracked ⟨{ t.kernel with proc := (processDup2Fd t.kernel.proc oldfd newfd).1 },
      noteWrites t { t.kernel with proc := (processDup2Fd t.kernel.proc oldfd newfd).1 }
        (processDup2Fd t.kernel.proc oldfd newfd).2 (.dup2 oldfd newfd)⟩ := by
  have hothers : ∀ j, j ≠ newfd.toNat →
      (processDup2Fd t.kernel.proc oldfd newfd).1.fds j = t.kernel.proc.fds j := by
    intro j hj
    cases processDup2Fd_cases t.kernel.proc oldfd newfd with
    | inl hsame =>
      obtain ⟨rc, he⟩ := hsame
      rw [he]
    | inr hdone =>
      obtain ⟨old, -, -, -, -, he⟩ := hdone
      rw [he, Process.setFd_of_ne _ _ hj]
  rw [noteWrites]
  split_ifs with hrc
  · exact h.update le_rfl hothers fun k hk => by cases hk
  · cases processDup2Fd_cases t.kernel.proc oldfd newfd with
    | inl hsame =>
      obtain ⟨rc, he⟩ := hsame
      rw [he]
      exact h
    | inr hdone =>
      obtain ⟨old, -, hnew, -, hne, he⟩ := hdone
      rw [he] at hrc
      exact absurd ⟨hnew, hne⟩ hrc

theorem sysClose_syncs (s : Kernel) (fd : ℤ) :
    (sysClose s fd).1.syncs =
      s.syncs + if (processGetFd s.proc fd).any FileDescriptor.dirty then 1 else 0 := by
  simp only [sysClose]
  split_ifs <;> rfl

theorem sysClose_proc (s : Kernel) (fd : ℤ) :
    (sysClose s fd).1.proc = processCloseFd s.proc fd := by
  simp only [sysClose]
  split_ifs <;> rfl

theorem tracked_close (h : Tracked t) (fd : ℤ) :
    Tracked ⟨(sysClose t.kernel fd).1, noteWrites t (sysClose t.kernel fd).1 0 (.close fd)⟩ := by
  have hsyncs : t.kernel.syncs ≤ (sysClose t.kernel fd).1.syncs := by
    rw [sysClose_syncs]
    exact Nat.le_add_right _ _
  rw [noteWrites]
  split_ifs with hrange
  · refine h.update hsyncs (fun j hj => ?_) fun k hk => by cases hk
    rw [sysClose_proc, processCloseFd, if_neg (by omega), Process.setFd_of_ne _ _ hj]
  · refine h.same hsyncs fun j hu hd => ?_
    rw [sysClose_proc, processCloseFd, if_pos (by omega)]
    exact ⟨hu, hd⟩

/-- **What was not synced is marked dirty**, after every call. -/
theorem tracked_step (h : Tracked t) (hstep : tracedStep t c = some t') : Tracked t' := by
  rw [tracedStep, Option.map_eq_some_iff] at hstep
  obtain ⟨⟨s', rc⟩, hcall, rfl⟩ := hstep
  cases c with
  | «open» path flags mode =>
    exact tracked_open h path flags mode (Option.some.inj hcall)
  | read dev fd buf count =>
    obtain ⟨⟨s'', r⟩, hread, he⟩ := Option.map_eq_some_iff.1 hcall
    obtain ⟨rfl, rfl⟩ := Prod.mk.inj he
    exact tracked_moves h (sysRead_moves hread).1
  | lseek fd offset whence => exact tracked_moves h (sysLseek_moves hcall).1
  | write dev fd buf =>
    obtain ⟨⟨s'', rc', out⟩, hwrite, he⟩ := Option.map_eq_some_iff.1 hcall
    obtain ⟨rfl, rfl⟩ := Prod.mk.inj he
    exact tracked_write h dev fd buf hwrite
  | dup fd =>
    obtain ⟨rfl, rfl⟩ := Prod.mk.inj (Option.some.inj hcall)
    exact tracked_dup h fd
  | dup2 oldfd newfd =>
    obtain ⟨rfl, rfl⟩ := Prod.mk.inj (Option.some.inj hcall)
    exact tracked_dup2 h oldfd newfd
  | close fd =>
    obtain ⟨rfl, rfl⟩ := Prod.mk.inj (Option.some.inj hcall)
    exact tracked_close h fd
  | exit code =>
    obtain ⟨rfl, rfl⟩ := Prod.mk.inj (Option.some.inj hcall)
    exact h.same (Nat.le_succ _) fun j hu hd => ⟨hu, hd⟩

/-! ### Which drops are safe -/

/-- **One call**: only a `dup2` over unsynced data drops a slot too early. -/
theorem safeStep_iff (h : Tracked t) (hstep : tracedStep t c = some t') :
    SafeStep t c t' ↔ ¬ OverwritesUnsynced t c := by
  rw [tracedStep, Option.map_eq_some_iff] at hstep
  obtain ⟨⟨s', rc⟩, hcall, rfl⟩ := hstep
  cases c with
  | «open» path flags mode => exact ⟨fun _ => id, fun _ i k hd => absurd hd id⟩
  | read dev fd buf count => exact ⟨fun _ => id, fun _ i k hd => absurd hd id⟩
  | lseek fd offset whence => exact ⟨fun _ => id, fun _ i k hd => absurd hd id⟩
  | write dev fd buf => exact ⟨fun _ => id, fun _ i k hd => absurd hd id⟩
  | dup fd => exact ⟨fun _ => id, fun _ i k hd => absurd hd id⟩
  | dup2 oldfd newfd =>
    obtain ⟨rfl, rfl⟩ := Prod.mk.inj (Option.some.inj hcall)
    constructor
    · rintro hsafe ⟨hne, hold, hnew, hlast⟩
      obtain ⟨f, hf⟩ := Option.isSome_iff_exists.1 hnew
      obtain ⟨h0, -, -, -⟩ := processGetFd_eq_some.1 hf
      exact lt_irrefl _
        (hsafe newfd.toNat _ ⟨(Int.toNat_of_nonneg h0).symm, hne, hold, hnew⟩ hlast)
    · rintro havoid i k ⟨rfl, hne, hold, hnew⟩ hlast
      refine lt_of_le_of_ne (h.le_syncs hlast) fun heq => havoid ⟨hne, hold, hnew, ?_⟩
      rw [Int.toNat_natCast, hlast, heq]
  | close fd =>
    obtain rfl : (sysClose t.kernel fd).1 = s' := congrArg Prod.fst (Option.some.inj hcall)
    refine ⟨fun _ => id, ?_⟩
    rintro - i k ⟨rfl, -, hopen⟩ hlast
    dsimp only
    rw [sysClose_syncs]
    have hle := h.le_syncs hlast
    by_cases heq : k = t.kernel.syncs
    · -- written since the last sync, so the slot is dirty and the call syncs
      obtain ⟨-, hdirty⟩ := h.dirty (by rw [hlast, heq])
      obtain ⟨f, hf⟩ := Option.isSome_iff_exists.1 hopen
      obtain ⟨-, -, -, rfl⟩ := processGetFd_eq_some.1 hf
      rw [hf, Option.any_some, Int.toNat_natCast, hdirty, if_pos rfl]
      omega
    · omega
  | exit code =>
    obtain ⟨rfl, rfl⟩ := Prod.mk.inj (Option.some.inj hcall)
    refine ⟨fun _ => id, ?_⟩
    rintro - i k - hlast
    exact Nat.lt_succ_of_le (h.le_syncs hlast)

theorem tracedStep_of_overwrites (h : OverwritesUnsynced t c) : ∃ t', tracedStep t c = some t' := by
  cases c with
  | dup2 oldfd newfd => exact ⟨_, rfl⟩
  | _ => exact h.elim

/-- **Exactly when no written data is lost**: every slot that a run closes, overwrites or drops was
synced after the last write through it, unless a `dup2` of the run overwrites unsynced data. -/
theorem dropsSafe_iff (s : Kernel) (cs : List FdCall) :
    DropsSafe (.start s) cs ↔ AvoidsOverwrite (.start s) cs := by
  have hrun : ∀ (cs : List FdCall) (t : Traced), Tracked t → (DropsSafe t cs ↔ AvoidsOverwrite t cs) := by
    intro cs
    induction cs with
    | nil => exact fun t _ => Iff.rfl
    | cons c cs ih =>
      intro t h
      rw [DropsSafe, AvoidsOverwrite]
      constructor
      · intro hsafe
        refine ⟨fun hover => ?_, fun t' hstep => ?_⟩
        · obtain ⟨t', hstep⟩ := tracedStep_of_overwrites hover
          exact (safeStep_iff h hstep).1 (hsafe t' hstep).1 hover
        · exact (ih t' (tracked_step h hstep)).1 (hsafe t' hstep).2
      · rintro ⟨havoid, hrest⟩ t' hstep
        exact ⟨(safeStep_iff h hstep).2 havoid, (ih t' (tracked_step h hstep)).2 (hrest t' hstep)⟩
  exact hrun cs _ (tracked_start s)

/-- A file is written, and `dup2` takes its slot. -/
def overwritingRun : List FdCall :=
  [.open tmpPath (vfsOWronly ||| vfsOCreat) 0o600,
   .write quietDevices 3 ⟨0x6000, lit "x"⟩, .dup2 0 3]

/-- The byte that was written is in the slot that `dup2` overwrites, and there was no sync. -/
theorem not_dropsSafe_overwritingRun : ¬ DropsSafe (.start userKernel) overwritingRun := by
  intro h
  have hpre : ((tracedStep (.start userKernel) overwritingRun[0]).bind fun t =>
      tracedStep t overwritingRun[1]).any fun t =>
        t.lastWrite 3 = some 1 && t.kernel.syncs = 1 && (processGetFd t.kernel.proc 0).isSome &&
          (processGetFd t.kernel.proc 3).isSome := by decide
  obtain ⟨t₂, hrun, hstate⟩ := (Option.any_eq_true _ _).1 hpre
  obtain ⟨t₁, h₁, h₂⟩ := Option.bind_eq_some_iff.1 hrun
  simp only [Bool.and_eq_true, decide_eq_true_eq] at hstate
  obtain ⟨⟨⟨hlast, hsyncs⟩, h0⟩, h3⟩ := hstate
  have hsafe := (((h t₁ h₁).2 t₂ h₂).2 _ rfl).1 3 1 ⟨rfl, by norm_num, h0, h3⟩ hlast
  exact absurd hsafe (by simp [hsyncs])

end Tnu.Sys
