/-
**What the shell works on.**

The shell runs in the kernel: it reads the tree and the user table directly, and it collects the
output of a command by a switch in `console_putc` of `kernel/drivers/console/vga.c`.  There is one
such switch and one buffer behind it.

Main definitions:

* `consolePutc`, `captureBegin`, `captureEnd` — the source.

Main results:

* `consoleWrite_of_active` — what is stored while a capture is on.
-/

import Tnu.Shell.Split
import Tnu.Sys.FileIo
import Tnu.User.Table

set_option autoImplicit false

namespace Tnu.Shell

open Vfs User

/-! ### The console -/

/-- `capture_active`, `capture_len` and `capture_size`; what is stored in the buffer, which is the one
static `stage_capture_buf` for every capture; and what has gone to the screen. -/
structure Console where
  active : Bool
  len : ℕ
  size : ℕ
  text : List Byte
  screen : List Byte
  deriving DecidableEq, Repr

def consolePutc (con : Console) (c : Byte) : Console :=
  if con.active then
    if con.len + 1 < con.size then { con with len := con.len + 1, text := con.text.take con.len ++ [c] }
    else con
  else { con with screen := con.screen ++ [c] }

/-- `console_write`, and what `kprintf` comes to. -/
def consoleWrite (con : Console) (s : List Byte) : Console := s.foldl consolePutc con

/-- `console_capture_begin` with a buffer of `size` bytes. -/
def captureBegin (con : Console) (size : ℕ) : Console :=
  { con with active := true, len := 0, size := size, text := [] }

/-- `console_capture_end`. -/
def captureEnd (con : Console) : Console × ℕ :=
  ({ con with active := false, len := 0, size := 0 }, con.len)

variable {con : Console}

theorem consoleWrite_of_inactive (h : con.active = false) (s : List Byte) :
    consoleWrite con s = { con with screen := con.screen ++ s } := by
  induction s generalizing con with
  | nil => simp [consoleWrite]
  | cons c s ih =>
    have hput : consolePutc con c = { con with screen := con.screen ++ [c] } := by
      simp only [consolePutc, h, Bool.false_eq_true, if_false]
    have hinactive : (consolePutc con c).active = false := by rw [hput]; exact h
    have hrec := ih hinactive
    rw [consoleWrite, List.foldl_cons, ← consoleWrite, hrec, hput]
    simp only [List.append_assoc, List.singleton_append]

/-- **What is stored while a capture is on**: as much as fits in front of the terminator. -/
theorem consoleWrite_of_active (h : con.active = true) (hlen : con.len = con.text.length)
    (hsize : con.len < con.size) (s : List Byte) :
    consoleWrite con s =
      { con with len := ((con.text ++ s).take (con.size - 1)).length
                 text := (con.text ++ s).take (con.size - 1) } := by
  induction s generalizing con with
  | nil =>
    have htake : con.text.take (con.size - 1) = con.text :=
      List.take_of_length_le (by omega)
    simp only [consoleWrite, List.foldl_nil, List.append_nil, htake, ← hlen]
  | cons c s ih =>
    rw [consoleWrite, List.foldl_cons, ← consoleWrite]
    by_cases hroom : con.len + 1 < con.size
    · have hput : consolePutc con c =
          { con with len := con.len + 1, text := con.text ++ [c] } := by
        rw [hlen] at hroom
        simp only [consolePutc, h, if_true, hlen, if_pos hroom, List.take_length]
      have hactive : (consolePutc con c).active = true := by rw [hput]; exact h
      have hrec := ih hactive (by rw [hput]; simp [hlen]) (by rw [hput]; exact hroom)
      rw [hrec, hput]
      simp only [List.append_assoc, List.singleton_append]
    · have hput : consolePutc con c = con := by
        simp only [consolePutc, h, if_true, if_neg hroom]
      have hfull : ∀ t : List Byte, (con.text ++ t).take (con.size - 1) = con.text := fun t => by
        rw [List.take_append_of_le_length (by omega), List.take_of_length_le (by omega)]
      rw [hput, ih h hlen hsize]
      simp only [hfull]

/-! ### The state -/

/-- The kernel the shell runs in, the user table, the console, the operators of the line that was
split last, and the strings in `pipe_buf_a` and `pipe_buf_b`. -/
structure Sh where
  kernel : Sys.Kernel
  db : UserDb
  console : Console
  ops : OpStorage
  pipes : Bool → List Byte

def Sh.kprintf (sh : Sh) (s : List Byte) : Sh := { sh with console := consoleWrite sh.console s }

/-- What `run_command` is called with: the arguments, and the input of an applet. -/
structure Call where
  argv : List (List Byte)
  stdin : Option (List Byte)
  deriving DecidableEq, Repr

/-- What a command does: the state it leaves and the status it returns, or nothing when it does not
return. -/
abbrev Command := Call → Sh → Option (Sh × ℤ)

end Tnu.Shell
