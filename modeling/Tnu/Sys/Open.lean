/-
**Opening a file.**

`sys_open` of `kernel/core/syscall.c`: look the path up, create the file when that was asked for,
check the caller's rights, drop the contents when that was asked for, and take a descriptor.  The
checks come after the creation and the descriptor after the truncation, so a call can fail when it
has already changed the tree.

Main definitions:

* `sysOpen` — the source.

Main results:

* `openFound_cases`, `openNode_cases` — what the two halves of the call do;
* `failsClean_sysOpen_iff` — **exactly when a failed open has no effect**.
-/

import Tnu.Sys.Access

set_option autoImplicit false

namespace Tnu.Sys

open Tnu.Vfs

/-! ### The call -/

def wantsWrite (flags : UInt32) : Bool :=
  has flags vfsOWronly || has flags vfsORdwr || has flags vfsOTrunc || has flags vfsOAppend

def wantsRead (flags : UInt32) : Bool := !wantsWrite flags || has flags vfsORdwr

/-- The lookup of `sys_open`, and the creation when there is no such file; no node stands for a
return of `-1`. -/
def openNode (s : Kernel) (normal : List Byte) (flags mode : UInt32) : Kernel × Option ℕ :=
  match vfsLookup s.vfs normal [slash] with
  | some node => (s, if has flags vfsOCreat && has flags vfsOExcl then none else some node)
  | none =>
    if has flags vfsOCreat = false then (s, none)
    else if !isRoot s.proc && pathRequiresRootForMutation normal then (s, none)
    else if !canCreateInParent s.vfs s.proc normal then (s, none)
    else
      let r := vfsCreateFile s.vfs normal [slash] (vfsSIfreg ||| (mode &&& 0o777)) s.proc.uid
        s.proc.gid
      if r.2 < 0 then ({ s with vfs := r.1 }, none)
      else ({ s with vfs := r.1 }.sync, vfsLookup r.1 normal [slash])

/-- The checks of `sys_open` on the node it has found. -/
def openRefused (proc : Process) (node : VfsNode) (normal : List Byte) (flags : UInt32) : Bool :=
  (node.type = .dev && !isRoot proc && !pathIsPublicDevice normal) ||
    (wantsWrite flags && !isRoot proc && pathRequiresRootForMutation normal) ||
    ((wantsRead flags && !hasPerm proc node 4) || (wantsWrite flags && !hasPerm proc node 2)) ||
    (wantsWrite flags && node.type = .dir)

/-- `O_TRUNC` drops the contents; the buffer is not freed. -/
def truncated (node : VfsNode) : VfsNode :=
  { node with data := none, size := 0, dataBorrowed := false, modified := node.modified + 1 }

/-- The rest of `sys_open`. -/
def openFound (s : Kernel) (normal : List Byte) (node : ℕ) (flags : UInt32) : Kernel × ℤ :=
  if openRefused s.proc (s.vfs.nodes node) normal flags then (s, -1)
  else if has flags vfsOTrunc && wantsWrite flags && (s.vfs.nodes node).type = .file then
    let s := { s with vfs := s.vfs.modifyNode node truncated }
    let (proc, fd) := processOpenFd s.proc node (s.vfs.nodes node).size flags
    if 0 ≤ fd then
      ({ s with proc := proc.setFd fd.toNat { proc.fds fd.toNat with dirty := true } }, fd)
    else ({ s with proc := proc }, fd)
  else
    let (proc, fd) := processOpenFd s.proc node (s.vfs.nodes node).size flags
    ({ s with proc := proc }, fd)

def sysOpen (s : Kernel) (path : UserString) (flags mode : UInt32) : Kernel × ℤ :=
  if ustrOk path.ptr = false then (s, -1)
  else
    match normalizeForProcess s.proc path.str.chars with
    | none => (s, -1)
    | some normal =>
      match openNode s normal flags mode with
      | (s, none) => (s, -1)
      | (s, some node) => openFound s normal node flags

/-! ### What the halves do -/

variable {s : Kernel} {path : UserString} {normal : List Byte} {flags mode : UInt32} {node : ℕ}

def truncates (node : VfsNode) (flags : UInt32) : Bool := has flags vfsOTrunc && node.type = .file

/-- The tree after the second half of a call that was not refused. -/
def openedVfs (s : Pool) (node : ℕ) (flags : UInt32) : Pool :=
  if truncates (s.nodes node) flags then s.modifyNode node truncated else s

def openedFd (s : Kernel) (node : ℕ) (flags : UInt32) (i : ℕ) : FileDescriptor where
  used := true
  dirty := truncates (s.vfs.nodes node) flags || (s.proc.fds i).dirty
  flags := flags
  offset := if has flags vfsOAppend then ((openedVfs s.vfs node flags).nodes node).size else 0
  node := some node

theorem wantsWrite_of_trunc (h : has flags vfsOTrunc = true) : wantsWrite flags = true := by
  simp only [wantsWrite, h, Bool.or_true, Bool.true_or]

theorem openFound_of_refused (h : openRefused s.proc (s.vfs.nodes node) normal flags = true) :
    openFound s normal node flags = (s, -1) := by
  rw [openFound, if_pos h]

theorem openFound_of_allowed (h : openRefused s.proc (s.vfs.nodes node) normal flags = false) :
    openFound s normal node flags =
      match freeFd s.proc with
      | none => ({ s with vfs := openedVfs s.vfs node flags }, -1)
      | some i =>
        ({ s with vfs := openedVfs s.vfs node flags, proc := s.proc.setFd i (openedFd s node flags i) },
          (i : ℤ)) := by
  have htrunc : (has flags vfsOTrunc && wantsWrite flags && (s.vfs.nodes node).type = .file) =
      truncates (s.vfs.nodes node) flags := by
    cases ht : has flags vfsOTrunc with
    | true => simp [truncates, ht, wantsWrite_of_trunc ht]
    | false => simp [truncates, ht]
  rw [openFound, if_neg (by rw [h]; exact Bool.false_ne_true), htrunc]
  cases ht : truncates (s.vfs.nodes node) flags with
  | false =>
    have hvfs : openedVfs s.vfs node flags = s.vfs := by rw [openedVfs, ht]; rfl
    cases hfree : freeFd s.proc with
    | none => simp [processOpenFd, hfree, hvfs]
    | some i => simp [processOpenFd, hfree, hvfs, openedFd, ht]
  | true =>
    have hvfs : openedVfs s.vfs node flags = s.vfs.modifyNode node truncated := by
      rw [openedVfs, ht]; rfl
    cases hfree : freeFd s.proc with
    | none => simp [processOpenFd, hfree, hvfs]
    | some i => simp [processOpenFd, hfree, hvfs, openedFd, ht, Process.setFd]

theorem type_openedVfs (s : Pool) (node n : ℕ) (flags : UInt32) :
    ((openedVfs s node flags).nodes n).type = (s.nodes n).type := by
  rw [openedVfs]
  split_ifs
  · rw [Pool.nodes_modifyNode]
    split_ifs with h
    · rw [h, truncated]
    · rfl
  · rfl

theorem openNode_frame (s : Kernel) (normal : List Byte) (flags mode : UInt32) :
    (openNode s normal flags mode).1.proc = s.proc ∧
      s.syncs ≤ (openNode s normal flags mode).1.syncs := by
  rw [openNode]
  cases vfsLookup s.vfs normal [slash] with
  | some node => exact ⟨rfl, le_rfl⟩
  | none =>
    simp only
    split_ifs
    · exact ⟨rfl, le_rfl⟩
    · exact ⟨rfl, le_rfl⟩
    · exact ⟨rfl, le_rfl⟩
    · exact ⟨rfl, le_rfl⟩
    · exact ⟨rfl, Nat.le_succ _⟩

/-- What a call did to the process: nothing, or it filled a free slot, dirty when it truncated. -/
structure OpensSlot (s s' : Kernel) (flags : UInt32) (rc : ℤ) (i : ℕ) : Prop where
  rc_eq : rc = i
  free : freeFd s.proc = some i
  proc_eq : ∃ f, s'.proc = s.proc.setFd i f ∧ f.used = true ∧ ∃ node, f.node = some node ∧
    (truncates (s'.vfs.nodes node) flags = true → f.dirty = true)

/-- **What `sys_open` does to the process and the disk.** -/
theorem sysOpen_cases (s : Kernel) (path : UserString) (flags mode : UInt32) :
    s.syncs ≤ (sysOpen s path flags mode).1.syncs ∧
      (((sysOpen s path flags mode).2 = -1 ∧ (sysOpen s path flags mode).1.proc = s.proc) ∨
        ∃ i, OpensSlot s (sysOpen s path flags mode).1 flags (sysOpen s path flags mode).2 i) := by
  rw [sysOpen]
  split_ifs
  · exact ⟨le_rfl, .inl ⟨rfl, rfl⟩⟩
  · cases normalizeForProcess s.proc path.str.chars with
    | none => exact ⟨le_rfl, .inl ⟨rfl, rfl⟩⟩
    | some normal =>
      obtain ⟨hproc, hsyncs⟩ := openNode_frame s normal flags mode
      cases hnode : openNode s normal flags mode with
      | mk s₁ node =>
        rw [hnode] at hproc hsyncs
        simp only at hproc hsyncs ⊢
        rw [hnode]
        cases node with
        | none => exact ⟨hsyncs, .inl ⟨rfl, hproc⟩⟩
        | some node =>
          simp only
          cases href : openRefused s₁.proc (s₁.vfs.nodes node) normal flags with
          | true =>
            rw [openFound_of_refused href]
            exact ⟨hsyncs, .inl ⟨rfl, hproc⟩⟩
          | false =>
            rw [openFound_of_allowed href]
            cases hfree : freeFd s₁.proc with
            | none => exact ⟨hsyncs, .inl ⟨rfl, hproc⟩⟩
            | some i =>
              rw [hproc] at hfree
              refine ⟨hsyncs, .inr ⟨i, rfl, hfree, openedFd s₁ node flags i, ?_, rfl, node, rfl, ?_⟩⟩
              · simp only [hproc]
              · intro h
                rw [truncates, type_openedVfs] at h
                rw [openedFd, truncates, h, Bool.true_or]

/-- The call makes a new file: there is none, it was asked for, and the caller may. -/
structure OpenCreates (s : Kernel) (normal : List Byte) (flags : UInt32) : Prop where
  missing : vfsLookup s.vfs normal [slash] = none
  asked : has flags vfsOCreat = true
  unprotected : isRoot s.proc = true ∨ pathRequiresRootForMutation normal = false
  parent : canCreateInParent s.vfs s.proc normal = true
  room : s.vfs.nodeCount < vfsMaxNodes

/-- The call drops the contents of a file that is there. -/
structure OpenTruncates (s : Kernel) (normal : List Byte) (node : ℕ) (flags : UInt32) : Prop where
  found : vfsLookup s.vfs normal [slash] = some node
  notExclusive : (has flags vfsOCreat && has flags vfsOExcl) = false
  allowed : openRefused s.proc (s.vfs.nodes node) normal flags = false
  drops : truncates (s.vfs.nodes node) flags = true

def CreatorMay (proc : Process) (flags mode : UInt32) : Prop :=
  isRoot proc = true ∨
    ((wantsRead flags = true → mode &&& 0o400 ≠ 0) ∧ (wantsWrite flags = true → mode &&& 0o200 ≠ 0))

/-- The record of the file that `sys_open` makes. -/
abbrev openedLeaf (s : Kernel) (x : List Byte) (mode : UInt32) : VfsNode :=
  leafNode s.vfs x .file (vfsSIfreg ||| (mode &&& 0o777)) s.proc.uid s.proc.gid

theorem openNode_of_found (h : vfsLookup s.vfs normal [slash] = some node) :
    openNode s normal flags mode =
      (s, if has flags vfsOCreat && has flags vfsOExcl then none else some node) := by
  rw [openNode, h]

variable {comps : List (List Byte)}

/-- **A new file**: one leaf more, and the tree is synced. -/
theorem openNode_of_creates (mode : UInt32) (hs : Wf s.vfs) (hp : Proper comps)
    (h : OpenCreates s (pathString comps) flags) :
    ∃ pc x parent, comps = pc ++ [x] ∧ walk s.vfs rootNode pc = some parent ∧
      parent < s.vfs.nodeCount ∧
      openNode s (pathString comps) flags mode =
        ({ s with vfs := addLeaf s.vfs parent (openedLeaf s x mode) }.sync, some s.vfs.nodeCount) := by
  cases hcomps : comps using List.reverseRecOn with
  | nil =>
    have hparent := h.parent
    rw [hcomps] at hparent
    cases hparent
  | append_singleton pc x =>
    subst hcomps
    obtain ⟨parent, hw, hdir, -, -⟩ := (canCreateInParent_iff hp).1 h.parent
    have hlt : parent < s.vfs.nodeCount := hs.walk_lt pc hs.count_pos hw
    have hx : ValidName x := hp.valid x (by simp)
    have hnul : (0 : Byte) ∉ pathString (pc ++ [x]) := zero_notMem_pathString hp.valid
    have hnew : findChild s.vfs parent x = none := by
      have hmiss := h.missing
      rwa [vfsLookup_pathString s.vfs hp (by simp), walk_snoc, hw, Option.bind_some] at hmiss
    have hmake := vfsMake_of_new .file (vfsSIfreg ||| (mode &&& 0o777)) s.proc.uid s.proc.gid hnul
      (by simp : (0 : Byte) ∉ [slash]) (resolve_pathString hp) hw hdir hnew h.room
    refine ⟨pc, x, parent, rfl, hw, hlt, ?_⟩
    have hprot : (!isRoot s.proc && pathRequiresRootForMutation (pathString (pc ++ [x]))) = false := by
      cases h.unprotected with
      | inl hroot => simp [hroot]
      | inr hfree => simp [hfree]
    rw [openNode, h.missing]
    simp only [h.asked, hprot, h.parent, Bool.true_eq_false, Bool.false_eq_true, if_false,
      Bool.not_true, vfsCreateFile, hmake, lt_irrefl]
    rw [vfsLookup_pathString _ hp (by simp), walk_addLeaf hs hw rfl
      (by rw [leafNode_name s.vfs hx]; exact hnew), leafNode_name s.vfs hx, if_pos rfl]

theorem openNode_of_missing (hp : Proper comps)
    (hmiss : vfsLookup s.vfs (pathString comps) [slash] = none)
    (h : ¬ OpenCreates s (pathString comps) flags) :
    openNode s (pathString comps) flags mode = (s, none) := by
  rw [openNode, hmiss]
  simp only
  split_ifs with hasked hprot hparent hrc
  · rfl
  · rfl
  · rfl
  · cases vfsMake_cases s.vfs .file (vfsSIfreg ||| (mode &&& 0o777)) s.proc.uid s.proc.gid
        (zero_notMem_pathString hp.valid) (by simp : (0 : Byte) ∉ [slash]) with
    | inl hfail =>
      obtain ⟨rc, -, he⟩ := hfail
      simp only [vfsCreateFile, he]
    | inr hmade =>
      obtain ⟨pc, x, parent, -, -, -, -, -, he⟩ := hmade
      rw [vfsCreateFile, he] at hrc
      exact absurd hrc (lt_irrefl 0)
  · refine absurd ⟨hmiss, by simpa using hasked, ?_, by simpa using hparent, ?_⟩ h
    · cases hroot : isRoot s.proc with
      | true => exact .inl rfl
      | false => exact .inr (by simpa [hroot] using hprot)
    · by_contra hfull
      refine hrc ?_
      cases vfsMake_cases s.vfs .file (vfsSIfreg ||| (mode &&& 0o777)) s.proc.uid s.proc.gid
          (zero_notMem_pathString hp.valid) (by simp : (0 : Byte) ∉ [slash]) with
      | inl hfail =>
        obtain ⟨rc, hneg, he⟩ := hfail
        rw [vfsCreateFile, he]
        exact hneg
      | inr hmade =>
        obtain ⟨pc, x, parent, -, -, -, -, hroom, -⟩ := hmade
        exact absurd hroom hfull

/-! ### Failed calls -/

/-- A call that returned `-1` left the tree and the table of descriptors alone. -/
def FailsClean (s : Kernel) (r : Kernel × ℤ) : Prop := r.2 = -1 → r.1.vfs = s.vfs ∧ r.1.proc = s.proc

/-- The call makes a file and then cannot open it, or drops the contents of one and then has no slot
for it. -/
def SpoilsOnFailure (s : Kernel) (normal : List Byte) (flags mode : UInt32) : Prop :=
  (OpenCreates s normal flags ∧ (¬ CreatorMay s.proc flags mode ∨ freeFd s.proc = none)) ∨
    (∃ node, OpenTruncates s normal node flags) ∧ freeFd s.proc = none

theorem openedVfs_of_false (h : truncates (s.vfs.nodes node) flags = false) :
    openedVfs s.vfs node flags = s.vfs := by
  rw [openedVfs, h]
  rfl

theorem modifyNode_truncated_ne (s : Pool) (node : ℕ) : s.modifyNode node truncated ≠ s := by
  intro h
  have hmod := congrArg (fun t : Pool => (t.nodes node).modified) h
  simp only [Pool.nodes_modifyNode_self, truncated] at hmod
  omega

theorem failsClean_openFound :
    FailsClean s (openFound s normal node flags) ↔
      ¬ (openRefused s.proc (s.vfs.nodes node) normal flags = false ∧
        truncates (s.vfs.nodes node) flags = true ∧ freeFd s.proc = none) := by
  cases href : openRefused s.proc (s.vfs.nodes node) normal flags with
  | true => simp [openFound_of_refused href, FailsClean]
  | false =>
    rw [openFound_of_allowed href]
    cases hfree : freeFd s.proc with
    | some i =>
      have hne : (i : ℤ) ≠ -1 := by omega
      simp [FailsClean, hne]
    | none =>
      cases htrunc : truncates (s.vfs.nodes node) flags with
      | false => simp [FailsClean, openedVfs_of_false htrunc]
      | true => simp [FailsClean, openedVfs, htrunc, modifyNode_truncated_ne]

theorem openRefused_created {node : VfsNode} (htype : node.type = .file)
    (hmode : node.mode = vfsSIfreg ||| (mode &&& 0o777)) (huid : node.uid = s.proc.uid)
    (hprot : isRoot s.proc = true ∨ pathRequiresRootForMutation normal = false) :
    openRefused s.proc node normal flags = true ↔ ¬ CreatorMay s.proc flags mode := by
  obtain ⟨hread, hwrite⟩ := hasPerm_created hmode huid
  cases hroot : isRoot s.proc with
  | true => simp [openRefused, CreatorMay, htype, hroot, hasPerm_of_root hroot]
  | false =>
    have hfree : pathRequiresRootForMutation normal = false := by simpa [hroot] using hprot
    rw [hroot] at hread hwrite
    simp only [Bool.false_eq_true, false_or] at hread hwrite
    have hnread : hasPerm s.proc node 4 = false ↔ mode &&& 0o400 = 0 := by
      rw [← Bool.not_eq_true, hread, Ne, not_not]
    have hnwrite : hasPerm s.proc node 2 = false ↔ mode &&& 0o200 = 0 := by
      rw [← Bool.not_eq_true, hwrite, Ne, not_not]
    simp [openRefused, CreatorMay, htype, hroot, hfree, hnread, hnwrite]
    tauto

theorem openFound_eq_neg_one :
    (openFound s normal node flags).2 = -1 ↔
      openRefused s.proc (s.vfs.nodes node) normal flags = true ∨ freeFd s.proc = none := by
  cases href : openRefused s.proc (s.vfs.nodes node) normal flags with
  | true => simp [openFound_of_refused href]
  | false =>
    rw [openFound_of_allowed href]
    cases hfree : freeFd s.proc with
    | none => simp
    | some i =>
      have hne : (i : ℤ) ≠ -1 := by omega
      simp [hne]

theorem nodeCount_openFound :
    (openFound s normal node flags).1.vfs.nodeCount = s.vfs.nodeCount := by
  cases href : openRefused s.proc (s.vfs.nodes node) normal flags with
  | true => rw [openFound_of_refused href]
  | false =>
    have hcount : (openedVfs s.vfs node flags).nodeCount = s.vfs.nodeCount := by
      rw [openedVfs]
      split_ifs <;> rfl
    rw [openFound_of_allowed href]
    cases freeFd s.proc with
    | none => exact hcount
    | some i => exact hcount

theorem failsClean_of_creates (mode : UInt32) (hs : Wf s.vfs) (hp : Proper comps)
    (h : OpenCreates s (pathString comps) flags) :
    (∃ s₁ node, openNode s (pathString comps) flags mode = (s₁, some node) ∧
      (FailsClean s (openFound s₁ (pathString comps) node flags) ↔
        ¬ (¬ CreatorMay s.proc flags mode ∨ freeFd s.proc = none))) := by
  obtain ⟨pc, x, parent, -, -, hlt, he⟩ := openNode_of_creates mode hs hp h
  refine ⟨_, _, he, ?_⟩
  set s₁ := Kernel.sync { s with vfs := addLeaf s.vfs parent (openedLeaf s x mode) } with hs₁
  have hnode : s₁.vfs.nodes s.vfs.nodeCount =
      { openedLeaf s x mode with
        parent := some parent, nextSibling := (s.vfs.nodes parent).firstChild } :=
    nodes_addLeaf_new _ hlt
  have href : openRefused s₁.proc (s₁.vfs.nodes s.vfs.nodeCount) (pathString comps) flags = true ↔
      ¬ CreatorMay s₁.proc flags mode := by
    rw [hnode]
    exact openRefused_created rfl rfl rfl h.unprotected
  have hgrown : (openFound s₁ (pathString comps) s.vfs.nodeCount flags).1.vfs ≠ s.vfs := by
    intro heq
    have hcount := congrArg Pool.nodeCount heq
    rw [nodeCount_openFound] at hcount
    exact absurd hcount (Nat.succ_ne_self _)
  have hproc : s₁.proc = s.proc := rfl
  rw [FailsClean, openFound_eq_neg_one, href, hproc]
  simp only [hgrown, false_and, imp_false]

/-- **Exactly when a failed open has no effect**: unless the call makes a file whose mode keeps its
creator out, or makes a file or drops the contents of one when no descriptor is free. -/
theorem failsClean_sysOpen_iff (hs : Wf s.vfs) (path : UserString) (flags mode : UInt32) :
    FailsClean s (sysOpen s path flags mode) ↔
      ¬ (ustrOk path.ptr = true ∧ ∃ normal, normalizeForProcess s.proc path.str.chars = some normal ∧
        SpoilsOnFailure s normal flags mode) := by
  cases hptr : ustrOk path.ptr with
  | false => simp [sysOpen, hptr, FailsClean]
  | true =>
    rw [sysOpen, if_neg (by simp [hptr])]
    cases hnorm : normalizeForProcess s.proc path.str.chars with
    | none => simp [FailsClean]
    | some normal =>
      obtain ⟨comps, hres, rfl⟩ := normalizeForProcess_eq_some.1 hnorm
      have hp : Proper comps := proper_of_normalize hres
      simp only [true_and, Option.some.injEq, exists_eq_left']
      cases hfound : vfsLookup s.vfs (pathString comps) [slash] with
      | some node =>
        have hnot : ¬ OpenCreates s (pathString comps) flags := fun h => by
          have hmiss := h.missing
          rw [hfound] at hmiss
          cases hmiss
        rw [openNode_of_found hfound]
        cases hexcl : has flags vfsOCreat && has flags vfsOExcl with
        | true =>
          have hkeep : ∀ n, ¬ OpenTruncates s (pathString comps) n flags := fun n h => by
            have := h.notExclusive
            rw [hexcl] at this
            cases this
          simp [FailsClean, SpoilsOnFailure, hnot, hkeep]
        | false =>
          have hdrops : (∃ n, OpenTruncates s (pathString comps) n flags) ↔
              openRefused s.proc (s.vfs.nodes node) (pathString comps) flags = false ∧
                truncates (s.vfs.nodes node) flags = true := by
            constructor
            · rintro ⟨n, h⟩
              obtain rfl := Option.some.inj (hfound.symm.trans h.found)
              exact ⟨h.allowed, h.drops⟩
            · exact fun h => ⟨node, hfound, hexcl, h.1, h.2⟩
          simp only [Bool.false_eq_true, if_false]
          rw [failsClean_openFound, SpoilsOnFailure, hdrops]
          simp only [hnot, false_and, false_or, and_assoc]
      | none =>
        have hkeep : ¬ ∃ n, OpenTruncates s (pathString comps) n flags := fun ⟨n, h⟩ => by
          have hfind := h.found
          rw [hfound] at hfind
          cases hfind
        rw [SpoilsOnFailure]
        by_cases hmake : OpenCreates s (pathString comps) flags
        · obtain ⟨s₁, node, he, hclean⟩ := failsClean_of_creates mode hs hp hmake
          rw [he]
          simp only [hclean, hmake, hkeep, true_and, false_and, or_false]
        · rw [openNode_of_missing hp hfound hmake]
          simp [FailsClean, hmake, hkeep]

/-- The string `/tmp/a` in user memory. -/
def tmpPath : UserString := ⟨0x5000, ⟨lit "/tmp/a", by decide⟩⟩

/-- A user may make a file of mode `0600` under `/tmp` and open it for writing. -/
theorem failsClean_sysOpen_tmp :
    FailsClean userKernel
      (sysOpen userKernel tmpPath (vfsOWronly ||| vfsOCreat) 0o600) := by
  refine (failsClean_sysOpen_iff wf_vfsInit _ _ _).2 ?_
  rintro ⟨-, normal, hnorm, hspoils⟩
  obtain rfl := Option.some.inj
    ((by decide : normalizeForProcess userKernel.proc (lit "/tmp/a") = some (lit "/tmp/a")).symm.trans
      hnorm)
  have hfree : freeFd userKernel.proc = some 3 := rfl
  cases hspoils with
  | inr h => exact absurd (hfree.symm.trans h.2) (by simp)
  | inl h =>
    cases h.2 with
    | inr hnone => exact absurd (hfree.symm.trans hnone) (by simp)
    | inl hmay => exact hmay (.inr ⟨fun _ => by decide, fun _ => by decide⟩)

/-- Made with mode zero, the file stays although the call fails. -/
theorem not_failsClean_sysOpen_tmp :
    ¬ FailsClean userKernel
      (sysOpen userKernel tmpPath (vfsOWronly ||| vfsOCreat) 0) := by
  intro h
  have hrc : (sysOpen userKernel tmpPath
    (vfsOWronly ||| vfsOCreat) 0).2 = -1 := by decide
  have hcount := congrArg Pool.nodeCount (h hrc).1
  revert hcount
  decide

end Tnu.Sys
