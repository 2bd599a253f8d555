/-
**Who may do what.**

The permission checks of `kernel/core/syscall.c`: the mode bits of a node, the prefixes that only
root may change, the devices that everybody may open, and the right to create a name in a
directory.  Every handler looks a path up with `vfs_lookup`, which asks nobody, and then checks the
node it found with some of these.

Main definitions:

* `UserString`, `ustrOk` — a string argument of a call;
* `hasPerm`, `pathRequiresRootForMutation`, `canCreateInParent` — the checks.

Main result:

* `hasPerm_created` — what the creator of a file may do with it.
-/

import Mathlib.Data.Nat.Bitwise
import Tnu.Sys.Tty
import Tnu.Vfs.Runs

set_option autoImplicit false

namespace Tnu.Sys

open Tnu.Vfs

/-! ### Arguments -/

/-- A `const char *` argument of a call: the address, and the string that is read there. -/
structure UserString where
  ptr : ℕ
  str : CString

def ustrOk (v : ℕ) : Bool := 0x1000 ≤ v && v < 0x800000000000

/-- `uptr_ok`: the address is looked at, and that the sum does not wrap. -/
def uptrOk (start len : ℕ) : Bool :=
  0x1000 ≤ start && start < 0x800000000000 && !(len ≠ 0 && (start + len) % 2 ^ 64 < start)

/-! ### The checks -/

def isRoot (proc : Process) : Bool := proc.uid = 0

def hasPerm (proc : Process) (node : VfsNode) (perm : UInt32) : Bool :=
  if proc.uid = 0 then true
  else
    let shift : UInt32 := if proc.uid = node.uid then 6 else if proc.gid = node.gid then 3 else 0
    (node.mode >>> shift) &&& perm = perm

def pathIsOrUnder (path pre : List Byte) : Bool :=
  path = pre ||
    (decide (1 < pre.length) && path.take pre.length = pre && path[pre.length]? = some slash)

def protectedPrefixes : List (List Byte) :=
  [lit "/", lit "/bin", lit "/boot", lit "/dev", lit "/etc", lit "/lib", lit "/proc", lit "/root",
   lit "/sbin", lit "/usr", lit "/var/cache", lit "/var/db", lit "/var/log", lit "/var/run"]

def pathRequiresRootForMutation (normal : List Byte) : Bool :=
  protectedPrefixes.any (pathIsOrUnder normal)

def pathIsPublicDevice (normal : List Byte) : Bool :=
  [lit "/dev/null", lit "/dev/zero", lit "/dev/tty", lit "/dev/console"].contains normal

def normalizeForProcess (proc : Process) (path : List Byte) : Option (List Byte) :=
  vfsNormalize path proc.cwd.chars vfsPathMax

def lookupParentFromNormal (s : Pool) (normal : List Byte) : Option ℕ :=
  if normal = [slash] then none
  else
    let dir := Sep.beforeLast slash normal
    vfsLookup s (if dir = [] then [slash] else dir) [slash]

def canCreateInParent (s : Pool) (proc : Process) (normal : List Byte) : Bool :=
  match lookupParentFromNormal s normal with
  | none => false
  | some parent =>
    (s.nodes parent).type = .dir && hasPerm proc (s.nodes parent) 2 &&
      hasPerm proc (s.nodes parent) 1

/-! ### What they come to -/

variable {s : Pool} {proc : Process} {comps : List (List Byte)} {x : List Byte}

theorem normalizeForProcess_eq_some {path : CString} {normal : List Byte} :
    normalizeForProcess proc path.chars = some normal ↔
      ∃ comps, resolve path.chars proc.cwd.chars = some comps ∧ normal = pathString comps := by
  rw [normalizeForProcess, vfsNormalize_eq path.nul_free proc.cwd.nul_free, Option.map_eq_some_iff]
  exact exists_congr fun _ => and_congr_right fun _ => eq_comm

theorem proper_of_normalize {path : CString}
    (h : resolve path.chars proc.cwd.chars = some comps) : Proper comps :=
  proper_of_resolve path.nul_free proc.cwd.nul_free h

/-- **The parent of a path** is what its components but the last lead to. -/
theorem lookupParentFromNormal_eq (s : Pool) (h : Proper (comps ++ [x])) :
    lookupParentFromNormal s (pathString (comps ++ [x])) = walk s rootNode comps := by
  have hx : ValidName x := h.valid x (by simp)
  have hne : pathString (comps ++ [x]) ≠ [slash] := by
    rw [Ne, pathString_eq_slash h.valid]
    simp
  rw [lookupParentFromNormal, if_neg hne, pathString_snoc, Sep.beforeLast_append hx.no_slash]
  have hdir : (if Sep.joinPre slash comps = [] then [slash] else Sep.joinPre slash comps) =
      pathString comps := by
    split_ifs with hnil
    · rw [(Sep.joinPre_eq_nil slash comps).1 hnil, pathString_nil]
    · have hcomps : comps ≠ [] := fun e => hnil (by simp [e])
      rw [pathString_of_ne_nil hcomps]
  simp only [hdir]
  exact vfsLookup_pathString s h.of_append (by simp)

theorem lookupParentFromNormal_root (s : Pool) : lookupParentFromNormal s (pathString []) = none :=
  rfl

theorem canCreateInParent_iff (h : Proper (comps ++ [x])) :
    canCreateInParent s proc (pathString (comps ++ [x])) = true ↔
      ∃ parent, walk s rootNode comps = some parent ∧ (s.nodes parent).type = .dir ∧
        hasPerm proc (s.nodes parent) 2 = true ∧ hasPerm proc (s.nodes parent) 1 = true := by
  rw [canCreateInParent, lookupParentFromNormal_eq s h]
  cases walk s rootNode comps with
  | none => simp
  | some parent => simp [and_assoc]

theorem hasPerm_congr {a b : VfsNode} (hmode : b.mode = a.mode) (huid : b.uid = a.uid)
    (hgid : b.gid = a.gid) (perm : UInt32) : hasPerm proc b perm = hasPerm proc a perm := by
  simp only [hasPerm, hmode, huid, hgid]

theorem hasPerm_of_root (h : isRoot proc = true) (node : VfsNode) (perm : UInt32) :
    hasPerm proc node perm = true := by
  rw [hasPerm, if_pos (by simpa [isRoot] using h)]

/-! ### Permission bits -/

variable {k : ℕ}

theorem and_bit_eq (x : UInt32) (h : k < 32) :
    x &&& UInt32.ofNat (2 ^ k) = UInt32.ofNat (2 ^ k) ↔ x.toNat.testBit k = true := by
  have hlt : 2 ^ k < 2 ^ 32 := Nat.pow_lt_pow_right (by norm_num) h
  rw [← UInt32.toNat_inj, UInt32.toNat_and, UInt32.toNat_ofNat_of_lt' hlt, Nat.and_two_pow]
  cases x.toNat.testBit k with
  | false => simpa using (Nat.two_pow_pos k).ne
  | true => simp

theorem and_bit_ne_zero (x : UInt32) (h : k < 32) :
    x &&& UInt32.ofNat (2 ^ k) ≠ 0 ↔ x.toNat.testBit k = true := by
  have hlt : 2 ^ k < 2 ^ 32 := Nat.pow_lt_pow_right (by norm_num) h
  rw [Ne, ← UInt32.toNat_inj, UInt32.toNat_and, UInt32.toNat_ofNat_of_lt' hlt, Nat.and_two_pow]
  cases x.toNat.testBit k with
  | false => simp
  | true => simp

theorem testBit_created (mode : UInt32) (h : k < 3) :
    ((vfsSIfreg ||| (mode &&& 0o777)) >>> 6).toNat.testBit k = mode.toNat.testBit (6 + k) := by
  rw [UInt32.toNat_shiftRight, UInt32.toNat_or, UInt32.toNat_and, Nat.testBit_shiftRight,
    Nat.testBit_or, Nat.testBit_and]
  have hreg : vfsSIfreg.toNat.testBit (6 + k) = false := by interval_cases k <;> rfl
  have hbits : (0o777 : UInt32).toNat.testBit (6 + k) = true := by interval_cases k <;> rfl
  rw [show (6 : UInt32).toNat % 32 = 6 from rfl, hreg, hbits, Bool.false_or, Bool.and_true]

/-- **What the creator of a file may do with it**: what the mode it was made with says. -/
theorem hasPerm_created {node : VfsNode} {mode : UInt32}
    (hmode : node.mode = vfsSIfreg ||| (mode &&& 0o777)) (huid : node.uid = proc.uid) :
    (hasPerm proc node 4 = true ↔ isRoot proc = true ∨ mode &&& 0o400 ≠ 0) ∧
      (hasPerm proc node 2 = true ↔ isRoot proc = true ∨ mode &&& 0o200 ≠ 0) := by
  by_cases hroot : proc.uid = 0
  · simp [hasPerm, isRoot, hroot]
  · have hread : (node.mode >>> 6) &&& 4 = 4 ↔ mode &&& 0o400 ≠ 0 := by
      rw [hmode]
      exact (and_bit_eq _ (k := 2) (by norm_num)).trans <| by
        rw [testBit_created mode (by norm_num)]
        exact (and_bit_ne_zero mode (k := 8) (by norm_num)).symm
    have hwrite : (node.mode >>> 6) &&& 2 = 2 ↔ mode &&& 0o200 ≠ 0 := by
      rw [hmode]
      exact (and_bit_eq _ (k := 1) (by norm_num)).trans <| by
        rw [testBit_created mode (by norm_num)]
        exact (and_bit_ne_zero mode (k := 7) (by norm_num)).symm
    simp only [hasPerm, isRoot, hroot, if_false, huid, if_true, decide_eq_true_eq, false_or, hread,
      hwrite, decide_false, Bool.false_eq_true, and_self]

end Tnu.Sys
