/-
**The terminal and the state of the system calls.**

The static variables of `kernel/core/syscall.c` that hold the mode of the terminal and its pending
bytes, the buffers of the keyboard, and the two terminal requests of `sys_ioctl`.  The buffers are
those after the controller has been polled: no scancode is waiting in it.
-/

import Tnu.Sys.Process
import Tnu.Vfs.Ops

set_option autoImplicit false

namespace Tnu.Sys

open Tnu.Vfs

/-! ### State -/

/-- `TNU_TTYF_ISIG`. -/
abbrev ttyfIsig : UInt32 := 0x0001

/-- `TNU_TTYF_ICANON`. -/
abbrev ttyfIcanon : UInt32 := 0x0002

/-- `TNU_TTYF_ECHO`. -/
abbrev ttyfEcho : UInt32 := 0x0008

/-- The mode of the terminal: `tty_c_lflag`, `tty_vmin` and `tty_vtime`. -/
structure TtyMode where
  lflag : UInt32
  vmin : UInt8
  vtime : UInt8
  deriving DecidableEq, Repr

/-- The terminal: its mode, the bytes of `tty_pending` that are not read yet, and the character and
the event buffer of the keyboard. -/
structure Terminal where
  mode : TtyMode
  pending : List Byte
  keys : List ℕ
  events : List UInt16
  deriving DecidableEq, Repr

/-- The terminal at boot: canonical mode with echo and signals, `VMIN` one. -/
def Terminal.initial : Terminal where
  mode := ⟨ttyfIcanon ||| ttyfEcho ||| ttyfIsig, 1, 0⟩
  pending := []
  keys := []
  events := []

/-- What the system calls work on: the tree, the current process, the terminal, and how often
`tfs_sync_if_mounted` was called. -/
structure Kernel where
  vfs : Pool
  proc : Process
  term : Terminal
  syncs : ℕ

/-- A user's shell on the tree of `vfs_init`. -/
def userKernel : Kernel where
  vfs := vfsInit
  proc := processCreate (lit "tsh") 1000 1000 (lit "/home") none
  term := .initial
  syncs := 0

/-- `tfs_sync_if_mounted`; what it writes is the subject of `Tnu/Tfs/Sync.lean`. -/
def Kernel.sync (s : Kernel) : Kernel := { s with syncs := s.syncs + 1 }

def Terminal.inputReady (t : Terminal) : Bool := !t.pending.isEmpty || !t.keys.isEmpty

/-- `keyboard_event_available`. -/
def Terminal.eventReady (t : Terminal) : Bool := !t.events.isEmpty

/-! ### Devices -/

def isTtyName (name : List Byte) : Bool := name = lit "tty" || name = lit "console"

/-- The names that the readiness checks take for the event device. -/
def isKbdName (name : List Byte) : Bool := name = lit "kbd" || name = lit "input/kbd"

def Kernel.isTtyNode (s : Kernel) (node : ℕ) : Bool :=
  (s.vfs.nodes node).type = .dev && isTtyName (s.vfs.nodes node).name.chars

/-! ### The terminal requests of `sys_ioctl` -/

/-- `TCSETS`: only three of the flags are kept, and going back to canonical mode drops what there is
to read. -/
def sysTcsets (s : Kernel) (fd : ℤ) (mode : TtyMode) : Kernel × ℤ :=
  match (processGetFd s.proc fd).bind FileDescriptor.node with
  | none => (s, -1)
  | some n =>
    if s.isTtyNode n then
      let lflag := mode.lflag &&& (ttyfIcanon ||| ttyfEcho ||| ttyfIsig)
      let term := { s.term with mode := { mode with lflag := lflag } }
      if has s.term.mode.lflag ttyfIcanon = false ∧ has lflag ttyfIcanon = true then
        ({ s with term := { term with pending := [], keys := [], events := [] } }, 0)
      else ({ s with term := term }, 0)
    else (s, -1)

end Tnu.Sys
