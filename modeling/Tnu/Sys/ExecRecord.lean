/-
**What a program leaves of the process that ran it.**

`sys_exec_image` of `kernel/core/syscall.c` runs a program inside the process that calls it.  When the
program has ended, the name, the state and the signals are put back.  The table of descriptors and the
mode of the terminal are not kept: they stay as the program leaves them.

Main results:

* `fds_of_programRun` — calls that spare a slot leave it as it was, over a whole run;
* `exec_record_iff` — **the record is intact exactly when the program left table and mode alone**, as it does
  when it spares the open slots, closes its own and puts the mode back.
-/

import Tnu.Sys.Dup

set_option autoImplicit false

namespace Tnu.Sys

/-! ### The source -/

/-- `sys_sigaction`, with the handler of `act`, if it is not null. -/
def sysSigaction (s : Kernel) (sig : ℤ) (act : Option ℕ) : Kernel × ℤ :=
  if sig ≤ 0 ∨ processSignalMax ≤ sig then (s, -1)
  else match act with
    | none => (s, 0)
    | some handler =>
      ({ s with proc := { s.proc with
          signalHandler := Function.update s.proc.signalHandler sig.toNat handler
          signalDisposition := Function.update s.proc.signalDisposition sig.toNat
            (if handler = 0 then 0 else if handler = 1 then 1 else 2) } }, 0)

/-- `process_exit`, as an interrupt calls it, or a signal to the process itself. -/
def processExit (p : Process) (code : ℤ) : Process := { p with exitCode := code, state := .zombie }

/-- The heap is set before the segments are loaded. -/
def Kernel.setHeap (s : Kernel) (elfEnd limit : ℕ) : Kernel :=
  { s with proc := { s.proc with brkFloor := elfEnd, brkCurrent := elfEnd, heapLimit := limit } }

/-- `sys_exec_image`, from the loaded program up to `arch_enter_user`. -/
def enterProgram (s : Kernel) (resolved : List Byte) : Kernel :=
  { s with proc := { s.proc with
      name := CharBuf.strncpy processNameMax resolved, state := .running
      signalDisposition := fun _ => 0, signalHandler := fun _ => 0 } }

/-- `sys_exec_image` behind `arch_enter_user`: `s` is what was saved, `u` what the program left. -/
def leaveProgram (s u : Kernel) (rc : ℤ) : Kernel :=
  { u with proc := { u.proc with
      name := CharBuf.strncpy processNameMax s.proc.name.chars
      state := if s.proc.state = .unused ∨ s.proc.state = .zombie then .running else s.proc.state
      exitCode := rc, signalDisposition := s.proc.signalDisposition, signalHandler := s.proc.signalHandler } }

/-- The fields that are asked for are the same. -/
structure Unmoved (t t' : Kernel) : Prop where
  fds : t'.proc.fds = t.proc.fds
  name : t'.proc.name = t.proc.name
  state : t'.proc.state = t.proc.state
  signalDisposition : t'.proc.signalDisposition = t.proc.signalDisposition
  signalHandler : t'.proc.signalHandler = t.proc.signalHandler
  mode : t'.term.mode = t.term.mode

/-- What a program does whose calls on descriptors are among `P`, until it exits, is stopped or is given up: it calls,
it is killed or interrupted, it runs a program itself, and every other call leaves these fields alone. -/
inductive ProgramRun (P : FdCall → Prop) : Kernel → Kernel → Prop
  | start (s : Kernel) : ProgramRun P s s
  | call {s t t' : Kernel} {c : FdCall} {rc : ℤ} (run : ProgramRun P s t) (allowed : P c)
      (result : runCall t c = some (t', rc)) : ProgramRun P s t'
  | sigaction {s t : Kernel} (run : ProgramRun P s t) (sig : ℤ) (act : Option ℕ) :
      ProgramRun P s (sysSigaction t sig act).1
  | tcsets {s t : Kernel} (run : ProgramRun P s t) (fd : ℤ) (mode : TtyMode) : ProgramRun P s (sysTcsets t fd mode).1
  | stop {s t : Kernel} (run : ProgramRun P s t) (code : ℤ) : ProgramRun P s { t with proc := processExit t.proc code }
  | exec {s t u : Kernel} (run : ProgramRun P s t) (elfEnd limit : ℕ) (resolved : List Byte) (rc : ℤ)
      (inner : ProgramRun P (enterProgram (t.setHeap elfEnd limit) resolved) u) :
      ProgramRun P s (leaveProgram (t.setHeap elfEnd limit) u rc)
  | other {s t t' : Kernel} (run : ProgramRun P s t) (unmoved : Unmoved t t') : ProgramRun P s t'

/-- `sys_exec_image` on any executable: it is refused, or not loaded, or it runs and leaves `u`. -/
inductive SysExecImage (P : FdCall → Prop) (s : Kernel) : (ran : Bool) → (u s' : Kernel) → ℤ → Prop
  | refused : SysExecImage P s false s s (-1)
  | unloaded (elfEnd limit : ℕ) : SysExecImage P s false s (s.setHeap elfEnd limit) (-1)
  | ran {u : Kernel} (elfEnd limit : ℕ) (resolved : List Byte) (rc : ℤ)
      (run : ProgramRun P (enterProgram (s.setHeap elfEnd limit) resolved) u) :
      SysExecImage P s true u (leaveProgram (s.setHeap elfEnd limit) u rc) rc

/-! ### What should be left -/

/-- The slot is open as it was, on its node, with its flags and its offset; or it is closed as it was. -/
structure SameSlot (f g : FileDescriptor) : Prop where
  used : g.used = f.used
  record : f.used = true → g.node = f.node ∧ g.flags = f.flags ∧ g.offset = f.offset

/-- The record of the process and the mode of the terminal. -/
structure Intact (s s' : Kernel) : Prop where
  fds : ∀ i < vfsMaxFds, SameSlot (s.proc.fds i) (s'.proc.fds i)
  name : s'.proc.name = s.proc.name
  state : s'.proc.state = s.proc.state
  signalDisposition : s'.proc.signalDisposition = s.proc.signalDisposition
  signalHandler : s'.proc.signalHandler = s.proc.signalHandler
  mode : s'.term.mode = s.term.mode

/-- What a program that ends in `u` does with what is not put back. -/
structure LeftAlone (s u : Kernel) : Prop where
  fds : ∀ i < vfsMaxFds, SameSlot (s.proc.fds i) (u.proc.fds i)
  mode : u.term.mode = s.term.mode

/-- The call neither replaces slot `i` nor moves its offset; the standard descriptors have none. -/
def FdCall.Spares (c : FdCall) (i : ℕ) : Prop :=
  match c with
  | .read _ fd _ _ => fd = i → fd = 0
  | .write _ fd _ => fd = i → fd = 1 ∨ fd = 2
  | c => ¬ c.Uses i

variable {P : FdCall → Prop} {s s' t t' u : Kernel} {c : FdCall} {i : ℕ} {rc : ℤ} {ran : Bool}

/-! ### A slot that is spared -/

theorem fds_of_spares (hcall : runCall t c = some (t', rc)) (hused : (t.proc.fds i).used = true) (h : c.Spares i) :
    t'.proc.fds i = t.proc.fds i := by
  have huntouched (hnot : ¬ c.Uses i) : t'.proc.fds i = t.proc.fds i := by
    refine (slot_runCall hcall hused fun hreplaces => hnot ?_).untouched hnot
    cases c with
    | close | dup2 => exact hreplaces
    | _ => exact hreplaces.elim
  cases c with
  | read dev fd buf count =>
    by_cases hfd : fd = i
    · obtain rfl := h hfd
      obtain ⟨⟨t'', r⟩, hread, he⟩ := Option.map_eq_some_iff.1 hcall
      obtain ⟨rfl, rfl⟩ := Prod.mk.inj he
      rw [sysRead, if_pos rfl] at hread
      split_ifs at hread
      all_goals obtain rfl := congrArg Prod.fst (Option.some.inj hread)
      · rfl
      · dsimp only [Kernel.afterTty]
        split_ifs <;> rfl
    · exact huntouched hfd
  | write dev fd buf =>
    by_cases hfd : fd = i
    · obtain ⟨⟨t'', r, out⟩, hwrite, he⟩ := Option.map_eq_some_iff.1 hcall
      obtain ⟨rfl, rfl⟩ := Prod.mk.inj he
      rw [sysWrite, if_pos (h hfd)] at hwrite
      split_ifs at hwrite
      all_goals
        obtain rfl := (Prod.mk.inj (Option.some.inj hwrite)).1
        rfl
    · exact huntouched hfd
  | _ => exact huntouched h

theorem fds_sysSigaction (t : Kernel) (sig : ℤ) (act : Option ℕ) : (sysSigaction t sig act).1.proc.fds = t.proc.fds := by
  unfold sysSigaction
  split_ifs
  · rfl
  · cases act <;> rfl

theorem fds_sysTcsets (t : Kernel) (fd : ℤ) (mode : TtyMode) : (sysTcsets t fd mode).1.proc.fds = t.proc.fds := by
  rw [sysTcsets]
  split
  · rfl
  · dsimp only
    split_ifs <;> rfl

/-- **A run that spares an open slot leaves it as it was.** -/
theorem fds_of_programRun (h : ProgramRun P s u) (hspare : ∀ c, P c → c.Spares i)
    (hused : (s.proc.fds i).used = true) : u.proc.fds i = s.proc.fds i := by
  induction h with
  | start s => rfl
  | call run allowed result ih =>
    rw [fds_of_spares result (by rw [ih hused, hused]) (hspare _ allowed), ih hused]
  | sigaction run sig act ih => rw [fds_sysSigaction, ih hused]
  | tcsets run fd mode ih => rw [fds_sysTcsets, ih hused]
  | stop run code ih => exact ih hused
  | exec run elfEnd limit resolved rc inner ih ih' =>
    have hkept := ih hused
    exact (ih' (hkept ▸ hused)).trans hkept
  | other run unmoved ih => rw [unmoved.fds, ih hused]

/-! ### What is left -/

theorem intact_leaveProgram_iff (elfEnd limit : ℕ) : Intact s (leaveProgram (s.setHeap elfEnd limit) u rc) ↔
    LeftAlone s u ∧ s.proc.state ≠ .unused ∧ s.proc.state ≠ .zombie := by
  have hstate : (leaveProgram (s.setHeap elfEnd limit) u rc).proc.state = s.proc.state ↔
      s.proc.state ≠ .unused ∧ s.proc.state ≠ .zombie := by
    change (if s.proc.state = .unused ∨ s.proc.state = .zombie then ProcessState.running else s.proc.state) = _ ↔ _
    cases s.proc.state <;> simp
  constructor
  · intro h
    exact ⟨⟨h.fds, h.mode⟩, hstate.1 h.state⟩
  · rintro ⟨⟨hfds, hmode⟩, h⟩
    exact ⟨hfds, CharBuf.strncpy_self _, hstate.2 h, rfl, rfl, hmode⟩

theorem SameSlot.refl (f : FileDescriptor) : SameSlot f f := ⟨rfl, fun _ => ⟨rfl, rfl, rfl⟩⟩

/-- **The record is intact exactly when the program left the table and the mode alone** and the process was neither
unused nor dead.  It leaves them alone when its calls spare every slot that was open, every other slot is closed
in the end, and the mode is the one before. -/
theorem exec_record_iff (h : SysExecImage P s ran u s' rc) :
    (Intact s s' ↔ LeftAlone s u ∧ (ran = true → s.proc.state ≠ .unused ∧ s.proc.state ≠ .zombie)) ∧
      ((∀ i < vfsMaxFds, (s.proc.fds i).used = true → ∀ c, P c → c.Spares i) →
        (∀ i < vfsMaxFds, (s.proc.fds i).used = false → (u.proc.fds i).used = false) →
        u.term.mode = s.term.mode → LeftAlone s u) := by
  have hself : LeftAlone s s := ⟨fun i _ => .refl _, rfl⟩
  cases h with
  | refused =>
    exact ⟨iff_of_true ⟨hself.fds, rfl, rfl, rfl, rfl, rfl⟩ ⟨hself, (absurd · Bool.false_ne_true)⟩, fun _ _ _ => hself⟩
  | unloaded elfEnd limit =>
    exact ⟨iff_of_true ⟨hself.fds, rfl, rfl, rfl, rfl, rfl⟩ ⟨hself, (absurd · Bool.false_ne_true)⟩, fun _ _ _ => hself⟩
  | ran elfEnd limit resolved rc run =>
    refine ⟨(intact_leaveProgram_iff elfEnd limit).trans (by simp), fun hspare hclosed hmode => ⟨fun i hi => ?_, hmode⟩⟩
    cases hused : (s.proc.fds i).used with
    | true =>
      rw [fds_of_programRun run (hspare i hi hused) hused]
      exact .refl _
    | false => exact ⟨(hclosed i hi hused).trans hused.symm, fun hopen => by rw [hused] at hopen; cases hopen⟩

theorem exec_record_iff_exit : Intact userKernel (leaveProgram (userKernel.setHeap 0 0)
    (sysExit (enterProgram (userKernel.setHeap 0 0) []) 0).1 0) :=
  have hrun : ProgramRun (· = .exit 0) (enterProgram (userKernel.setHeap 0 0) []) _ := .call (.start _) rfl rfl
  have hexec := exec_record_iff (.ran 0 0 [] 0 hrun)
  hexec.1.2 ⟨hexec.2 (fun _ _ _ c hc => hc ▸ id) (fun _ _ h => h) rfl, fun _ => by decide⟩

end Tnu.Sys
