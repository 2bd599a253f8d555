/-
**Who looks at the directories on the way.**

The calls that name a file look it up with `vfs_lookup`, which walks from the root and knows no caller.
What the caller may do is asked afterwards, of the node that was found or of the directory that lists
it; the directories above are asked nothing.

Main definitions:

* `sysAccess`, `sysStat`, `sysMkdir`, `sysExec` — the calls, beside
  `sysOpen` and `sysUnlink`;
* `MaySearch` — the caller may search every directory above a path;
* `NodeGrants`, `ParentGrants` — what is asked instead.

Main results:

* `calls_check` — **what a successful call was allowed**;
* `not_searchLaw` — a file below a directory of mode `0700` is read by another user.
-/

import Tnu.Printf
import Tnu.Sys.Open
import Tnu.Sys.Unlink

set_option autoImplicit false

namespace Tnu.Sys

open Tnu.Vfs

/-! ### The calls -/

/-- `sys_access`; the missing path is a null pointer. -/
def sysAccess (s : Kernel) (path : Option CString) (mode : UInt32) : ℤ :=
  match path with
  | none => -1
  | some path =>
    if mode &&& ~~~(1 ||| 2 ||| 4) ≠ 0 then -1
    else
      match normalizeForProcess s.proc path.chars with
      | none => -1
      | some normal =>
        match vfsLookup s.vfs normal [slash] with
        | none => -1
        | some node =>
          if mode = 0 then 0
          else if mode &&& 2 ≠ 0 ∧ isRoot s.proc = false ∧
              pathRequiresRootForMutation normal = true then -1
          else if (s.vfs.nodes node).type = .dev ∧ isRoot s.proc = false ∧
              pathIsPublicDevice normal = false then -1
          else if hasPerm s.proc (s.vfs.nodes node) mode then 0
          else -1

/-- `struct vfs_stat`. -/
structure VfsStat where
  mode : UInt32
  uid : UInt32
  gid : UInt32
  size : ℕ
  modified : ℕ
  device : ℕ
  inode : ℕ
  type : NodeType
  deriving DecidableEq

/-- `sizeof(struct vfs_stat)`. -/
abbrev sizeofVfsStat : ℕ := 56

/-- `vfs_stat`: what is stored, or a return of `-1`. -/
def vfsStat (s : Pool) (path cwd : List Byte) : Option VfsStat :=
  (vfsLookup s path cwd).map fun node =>
    { mode := (s.nodes node).mode, uid := (s.nodes node).uid, gid := (s.nodes node).gid
      size := (s.nodes node).size, modified := (s.nodes node).modified, device := 1
      inode := (s.nodes node).created, type := (s.nodes node).type }

/-- `SYS_STAT`: what is stored at the address, or a return of `-1`. -/
def sysStat (s : Kernel) (path : CString) (st : ℕ) : Option VfsStat :=
  if uptrOk st sizeofVfsStat then vfsStat s.vfs path.chars s.proc.cwd.chars else none

def sysMkdir (s : Kernel) (path : List Byte) (mode : UInt32) : Kernel × ℤ :=
  match normalizeForProcess s.proc path with
  | none => (s, -1)
  | some normal =>
    if !isRoot s.proc && pathRequiresRootForMutation normal then (s, -1)
    else if !canCreateInParent s.vfs s.proc normal then (s, -1)
    else
      let r := vfsMkdir s.vfs normal [slash] (vfsSIfdir ||| (mode &&& 0o777)) s.proc.uid s.proc.gid
      if r.2 < 0 then ({ s with vfs := r.1 }, r.2) else ({ s with vfs := r.1 }.sync, r.2)

/-- `resolve_exec_node`: the node, and the path in `resolved`.  A name without a slash is looked for in
`/bin` and in `/sbin`. -/
def resolveExecNode (s : Kernel) (path : List Byte) : Option (ℕ × List Byte) :=
  if path = [] then none
  else if slash ∈ path then
    let resolved := path.take (vfsPathMax - 1)
    (vfsLookup s.vfs resolved s.proc.cwd.chars).map fun node => (node, resolved)
  else
    let inBin := ksnprintf vfsPathMax (lit "/bin/" ++ path)
    match vfsLookup s.vfs inBin [slash] with
    | some node => some (node, inBin)
    | none =>
      let inSbin := ksnprintf vfsPathMax (lit "/sbin/" ++ path)
      (vfsLookup s.vfs inSbin [slash]).map fun node => (node, inSbin)

/-- `SYS_EXEC`: the path is copied, the node found and asked, and the image loaded; the loading and the
run of the program are `load`, from the bytes of the file. -/
def sysExec (load : Kernel → List Byte → List Byte → Kernel × ℤ) (s : Kernel) (path : Option CString) :
    Kernel × ℤ :=
  match path with
  | none => (s, -1)
  | some path =>
    match resolveExecNode s (path.chars.take (vfsPathMax - 1)) with
    | none => (s, -1)
    | some (node, resolved) =>
      match (s.vfs.nodes node).type, (s.vfs.nodes node).data with
      | .file, some data =>
        if hasPerm s.proc (s.vfs.nodes node) 1 then load s resolved data else (s, -1)
      | _, _ => (s, -1)

/-! ### What is asked -/

def MaySearch (s : Pool) (proc : Process) (comps : List (List Byte)) : Prop :=
  ∀ above rest, comps = above ++ rest → rest ≠ [] →
    ∃ dir, walk s rootNode above = some dir ∧ hasPerm proc (s.nodes dir) 1 = true

def NodeGrants (s : Pool) (proc : Process) (comps : List (List Byte)) (perm : UInt32) : Prop :=
  ∃ node, walk s rootNode comps = some node ∧ hasPerm proc (s.nodes node) perm = true

/-- The directory that lists the path may be written and searched. -/
def ParentGrants (s : Pool) (proc : Process) (comps : List (List Byte)) : Prop :=
  ∃ dirs x parent, comps = dirs ++ [x] ∧ walk s rootNode dirs = some parent ∧
    (s.nodes parent).type = .dir ∧ hasPerm proc (s.nodes parent) 2 = true ∧
    hasPerm proc (s.nodes parent) 1 = true

variable {s : Kernel} {path : CString} {comps : List (List Byte)} {flags mode : UInt32} {node : ℕ}

theorem parentGrants_of_canCreate (hproper : Proper comps)
    (h : canCreateInParent s.vfs s.proc (pathString comps) = true) :
    ParentGrants s.vfs s.proc comps := by
  rcases List.eq_nil_or_concat' comps with rfl | ⟨dirs, x, rfl⟩
  · rw [canCreateInParent, lookupParentFromNormal_root] at h
    cases h
  · obtain ⟨parent, hw, hdir, hwrite, hsearch⟩ := (canCreateInParent_iff hproper).1 h
    exact ⟨dirs, x, parent, rfl, hw, hdir, hwrite, hsearch⟩

theorem neg_one_not_nonneg : ¬ (0 : ℤ) ≤ -1 := by decide

theorem granted_of_sysOpen {ptr : ℕ} (h : 0 ≤ (sysOpen s ⟨ptr, path⟩ flags mode).2) :
    ∃ comps, resolve path.chars s.proc.cwd.chars = some comps ∧
      (((wantsRead flags = true → NodeGrants s.vfs s.proc comps 4) ∧
          (wantsWrite flags = true → NodeGrants s.vfs s.proc comps 2)) ∨
        walk s.vfs rootNode comps = none ∧ ParentGrants s.vfs s.proc comps) := by
  rw [sysOpen] at h
  split_ifs at h with hptr
  · exact absurd h neg_one_not_nonneg
  cases hnorm : normalizeForProcess s.proc path.chars with
  | none =>
    rw [hnorm] at h
    exact absurd h neg_one_not_nonneg
  | some normal =>
    rw [hnorm] at h
    obtain ⟨comps, hres, rfl⟩ := normalizeForProcess_eq_some.1 hnorm
    have hproper : Proper comps := proper_of_normalize hres
    have hlook : vfsLookup s.vfs (pathString comps) [slash] = _ :=
      vfsLookup_pathString s.vfs hproper (by decide)
    refine ⟨comps, hres, ?_⟩
    cases hfound : walk s.vfs rootNode comps with
    | some n =>
      rw [hfound] at hlook
      simp only [openNode_of_found hlook] at h
      refine .inl ?_
      split_ifs at h with hexcl
      · exact absurd h neg_one_not_nonneg
      have hallowed : openRefused s.proc (s.vfs.nodes n) (pathString comps) flags = false := by
        by_contra href
        rw [Bool.not_eq_false] at href
        simp only [openFound_of_refused href] at h
        exact absurd h neg_one_not_nonneg
      simp only [openRefused, Bool.or_eq_false_iff, Bool.and_eq_false_iff] at hallowed
      obtain ⟨⟨-, hread, hwrite⟩, -⟩ := hallowed
      constructor
      · intro hwant
        exact ⟨n, hfound, by simpa [hwant] using hread⟩
      · intro hwant
        exact ⟨n, hfound, by simpa [hwant] using hwrite⟩
    | none =>
      rw [hfound] at hlook
      refine .inr ⟨rfl, ?_⟩
      by_cases hcan : canCreateInParent s.vfs s.proc (pathString comps) = true
      · exact parentGrants_of_canCreate hproper hcan
      · have hnone : openNode s (pathString comps) flags mode = (s, none) :=
          openNode_of_missing hproper hlook fun hmake => hcan hmake.parent
        simp only [hnone] at h
        exact absurd h neg_one_not_nonneg

theorem granted_of_sysAccess {path : Option CString} (h : sysAccess s path mode = 0) :
    ∃ p comps, path = some p ∧ resolve p.chars s.proc.cwd.chars = some comps ∧
      NodeGrants s.vfs s.proc comps mode := by
  cases path with
  | none => cases h
  | some p =>
    rw [sysAccess] at h
    by_cases hbits : mode &&& ~~~(1 ||| 2 ||| 4) ≠ 0
    · rw [if_pos hbits] at h
      cases h
    rw [if_neg hbits] at h
    cases hnorm : normalizeForProcess s.proc p.chars with
    | none =>
      rw [hnorm] at h
      cases h
    | some normal =>
      rw [hnorm] at h
      obtain ⟨comps, hres, rfl⟩ := normalizeForProcess_eq_some.1 hnorm
      have hlook : vfsLookup s.vfs (pathString comps) [slash] = _ :=
        vfsLookup_pathString s.vfs (proper_of_normalize hres) (by decide)
      refine ⟨p, comps, rfl, hres, ?_⟩
      dsimp only at h
      rw [hlook] at h
      cases hfound : walk s.vfs rootNode comps with
      | none =>
        rw [hfound] at h
        cases h
      | some n =>
        rw [hfound] at h
        dsimp only at h
        refine ⟨n, hfound, ?_⟩
        split_ifs at h with hzero hprot hdev hperm
        · subst hzero
          simp [hasPerm]
        · exact hperm

theorem granted_of_sysMkdir (h : (sysMkdir s path.chars mode).2 = 0) :
    ∃ comps, resolve path.chars s.proc.cwd.chars = some comps ∧ ParentGrants s.vfs s.proc comps := by
  rw [sysMkdir] at h
  cases hnorm : normalizeForProcess s.proc path.chars with
  | none =>
    rw [hnorm] at h
    cases h
  | some normal =>
    obtain ⟨comps, hres, rfl⟩ := normalizeForProcess_eq_some.1 hnorm
    have hproper := proper_of_normalize hres
    rw [hnorm] at h
    dsimp only at h
    refine ⟨comps, hres, ?_⟩
    split_ifs at h with hprot hcan
    · cases h
    · cases h
    all_goals exact parentGrants_of_canCreate hproper (by simpa using hcan)

theorem granted_of_sysUnlink (h : (sysUnlink s path.chars).2 = 0) :
    ∃ comps, resolve path.chars s.proc.cwd.chars = some comps ∧ ParentGrants s.vfs s.proc comps := by
  cases hres : resolve path.chars s.proc.cwd.chars with
  | none =>
    rw [sysUnlink, normalizeForProcess, vfsNormalize_eq path.nul_free s.proc.cwd.nul_free, hres] at h
    cases h
  | some comps =>
    refine ⟨comps, rfl, ?_⟩
    by_contra hnot
    have hrefused : ¬ (MayUnlink s.vfs s.proc comps ∧ (walk s.vfs rootNode comps).isSome) := by
      rintro ⟨⟨dirs, x, parent, rfl, hw, hdir, -, hwrite, hsearch⟩, -⟩
      exact hnot ⟨dirs, x, parent, rfl, hw, hdir, hwrite, hsearch⟩
    rw [sysUnlink_of_not_may path.nul_free hres hrefused] at h
    cases h

theorem sysExec_eq (load : Kernel → List Byte → List Byte → Kernel × ℤ) (path : Option CString) :
    sysExec load s path = (s, -1) ∨
      ∃ p node resolved data, path = some p ∧
        resolveExecNode s (p.chars.take (vfsPathMax - 1)) = some (node, resolved) ∧
        (s.vfs.nodes node).data = some data ∧ hasPerm s.proc (s.vfs.nodes node) 1 = true ∧
        sysExec load s path = load s resolved data := by
  cases path with
  | none => exact .inl rfl
  | some p =>
    rw [sysExec]
    cases hnode : resolveExecNode s (p.chars.take (vfsPathMax - 1)) with
    | none => exact .inl rfl
    | some found =>
      obtain ⟨node, resolved⟩ := found
      dsimp only
      split
      · rename_i data htype hdata
        split_ifs with hperm
        · exact .inr ⟨p, node, resolved, data, rfl, hnode, hdata, hperm, rfl⟩
        · exact .inl rfl
      · exact .inl rfl

theorem sysStat_isSome (s : Kernel) (path : CString) (st : ℕ) :
    (sysStat s path st).isSome =
      (uptrOk st sizeofVfsStat && (vfsLookup s.vfs path.chars s.proc.cwd.chars).isSome) := by
  rw [sysStat]
  cases uptrOk st sizeofVfsStat with
  | false => rfl
  | true => simp [vfsStat]

/-- **What a successful call was allowed**: the node grants what an open, an access or a run asks for, the
directory that lists a name may be written and searched when the name is made or removed, and the
modes and owners of the tree have no say in a lookup. -/
theorem calls_check (load : Kernel → List Byte → List Byte → Kernel × ℤ) (s : Kernel) (path : CString) :
    (∀ ptr flags mode, 0 ≤ (sysOpen s ⟨ptr, path⟩ flags mode).2 →
      ∃ comps, resolve path.chars s.proc.cwd.chars = some comps ∧
        (((wantsRead flags = true → NodeGrants s.vfs s.proc comps 4) ∧
            (wantsWrite flags = true → NodeGrants s.vfs s.proc comps 2)) ∨
          walk s.vfs rootNode comps = none ∧ ParentGrants s.vfs s.proc comps)) ∧
      (∀ mode, sysAccess s (some path) mode = 0 →
        ∃ comps, resolve path.chars s.proc.cwd.chars = some comps ∧ NodeGrants s.vfs s.proc comps mode) ∧
      (∀ mode, (sysMkdir s path.chars mode).2 = 0 →
        ∃ comps, resolve path.chars s.proc.cwd.chars = some comps ∧ ParentGrants s.vfs s.proc comps) ∧
      ((sysUnlink s path.chars).2 = 0 →
        ∃ comps, resolve path.chars s.proc.cwd.chars = some comps ∧ ParentGrants s.vfs s.proc comps) ∧
      (sysExec load s (some path) ≠ (s, -1) →
        ∃ node resolved, resolveExecNode s (path.chars.take (vfsPathMax - 1)) = some (node, resolved) ∧
          hasPerm s.proc (s.vfs.nodes node) 1 = true) ∧
      ∀ t st, SameLinks s.vfs t → (sysStat { s with vfs := t } path st).isSome = (sysStat s path st).isSome := by
  refine ⟨fun _ _ _ => granted_of_sysOpen, ?_, fun _ => granted_of_sysMkdir, granted_of_sysUnlink, ?_, ?_⟩
  · intro mode h
    obtain ⟨p, comps, hp, hres, hgrants⟩ := granted_of_sysAccess h
    obtain rfl := Option.some.inj hp
    exact ⟨comps, hres, hgrants⟩
  · intro h
    rcases sysExec_eq load (some path) (s := s) with he | ⟨p, node, resolved, -, hp, hnode, -, hperm, -⟩
    · exact absurd he h
    · obtain rfl := Option.some.inj hp
      exact ⟨node, resolved, hnode, hperm⟩
  · intro t st hlinks
    rw [sysStat_isSome, sysStat_isSome, hlinks.vfsLookup_eq]

/-! ### The directories above -/

/-- A call that succeeds was made by a caller who may search every directory above the path. -/
structure SearchLaw (load : Kernel → List Byte → List Byte → Kernel × ℤ) (s : Kernel) (path : CString) :
    Prop where
  opened : ∀ ptr flags mode comps, resolve path.chars s.proc.cwd.chars = some comps →
    0 ≤ (sysOpen s ⟨ptr, path⟩ flags mode).2 → MaySearch s.vfs s.proc comps
  stated : ∀ st comps, resolve path.chars s.proc.cwd.chars = some comps →
    (sysStat s path st).isSome → MaySearch s.vfs s.proc comps
  accessed : ∀ mode comps, resolve path.chars s.proc.cwd.chars = some comps →
    sysAccess s (some path) mode = 0 → MaySearch s.vfs s.proc comps
  unlinked : ∀ comps, resolve path.chars s.proc.cwd.chars = some comps →
    (sysUnlink s path.chars).2 = 0 → MaySearch s.vfs s.proc comps
  made : ∀ mode comps, resolve path.chars s.proc.cwd.chars = some comps →
    (sysMkdir s path.chars mode).2 = 0 → MaySearch s.vfs s.proc comps
  executed : ∀ node resolved comps,
    resolveExecNode s (path.chars.take (vfsPathMax - 1)) = some (node, resolved) →
    resolve resolved s.proc.cwd.chars = some comps → sysExec load s (some path) ≠ (s, -1) →
    MaySearch s.vfs s.proc comps

/-- A tree with a directory `/home/a` of mode `0700` that holds a file of mode `0644`, both of user 1001. -/
def hiddenTree : Pool :=
  (vfsCreateFile
    (vfsMkdir vfsInit (lit "/home/a") [slash] (vfsSIfdir ||| 0o700) 1001 1001).1
    (lit "/home/a/f") [slash] (vfsSIfreg ||| 0o644) 1001 1001).1

theorem reachable_hiddenTree : Reachable hiddenTree :=
  .step (.createFile ⟨lit "/home/a/f", by decide⟩ ⟨[slash], by decide⟩ (vfsSIfreg ||| 0o644) 1001 1001)
    (.step (.mkdir ⟨lit "/home/a", by decide⟩ ⟨[slash], by decide⟩ (vfsSIfdir ||| 0o700) 1001 1001)
      .init rfl) rfl

/-- User 1000 opens the file, and may not search the directory. -/
theorem not_searchLaw : ¬ ∀ load (s : Kernel) (path : CString), Reachable s.vfs → s.proc.uid ≠ 0 →
    SearchLaw load s path := by
  intro h
  have hlaw := h (fun s _ _ => (s, 0)) { userKernel with vfs := hiddenTree } ⟨lit "/home/a/f", by decide⟩
    reachable_hiddenTree (by decide)
  obtain ⟨dir, hw, hperm⟩ := hlaw.opened 0x5000 0 0 [lit "home", lit "a", lit "f"] (by decide +kernel)
    (by decide +kernel) [lit "home", lit "a"] [lit "f"] rfl (by simp)
  have hshut : (walk hiddenTree rootNode [lit "home", lit "a"]).map
      (fun n => hasPerm userKernel.proc (hiddenTree.nodes n) 1) = some false := by decide +kernel
  rw [hw] at hshut
  exact Bool.false_ne_true ((Option.some.inj hshut).symm.trans hperm)

end Tnu.Sys
