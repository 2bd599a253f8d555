/-
**Removing a file.**

`SYS_UNLINK` of `kernel/core/syscall.c`: the caller has to be root or stay away from the protected
directories, and may write and search the directory that lists the file; then `vfs_unlink` removes
what is no directory with anything in it.

Main definitions:

* `sysUnlink` — the source;
* `MayUnlink` — the caller has the rights to remove a path;
* `PathsFit` — every path of a tree fits the buffers that hold paths.

Main result:

* `sysUnlink_cases`, `sysUnlink_of_leaf` — **what the call does, and when it works**.
-/

import Tnu.Sys.Tty
import Tnu.Sys.Access
import Tnu.Vfs.Runs

set_option autoImplicit false

namespace Tnu.Vfs

/-! ### Paths of a tree -/

def PathsFit (s : Pool) : Prop := ∀ cs n, walk s rootNode cs = some n → Proper cs

variable {s s' : Pool}

theorem proper_nil : Proper [] where
  valid := by simp
  length_le := by simp
  fits := by decide

theorem PathsFit.of_walk (h : PathsFit s)
    (hw : ∀ cs n, walk s' rootNode cs = some n → walk s rootNode cs = some n) : PathsFit s' :=
  fun cs n hn => h cs n (hw cs n hn)

theorem PathsFit.of_sameLinks (h : PathsFit s) (hl : SameLinks s s') : PathsFit s' :=
  h.of_walk fun cs n hn => by rwa [hl.walk_eq] at hn

theorem pathsFit_vfsMake (h : PathsFit s) (hs : Wf s) (type : NodeType) {path cwd : List Byte}
    (mode uid gid : UInt32) (hp : 0 ∉ path) (hc : 0 ∉ cwd) :
    PathsFit (vfsMake type s path cwd mode uid gid).1 := by
  rcases vfsMake_cases s type mode uid gid hp hc with
    ⟨rc, -, he⟩ | ⟨pc, x, parent, hres, hw, -, hfree, -, he⟩
  · rw [he]
    exact h
  · have hproper := proper_of_resolve hp hc hres
    have hname := leafNode_name s (hproper.valid x (by simp)) type mode uid gid
    intro cs n hn
    rw [he, walk_addLeaf hs hw rfl (by rw [hname]; exact hfree), hname] at hn
    split_ifs at hn with hcs
    · exact hcs ▸ hproper
    · exact h cs n hn

theorem PathsFit.of_step (h : PathsFit s) (hs : Wf s) {op : VfsOp} (hstep : step s op = some s') :
    PathsFit s' := by
  refine step_keeps hs h (fun {path cwd _} mode uid gid _ _ =>
    pathsFit_vfsMake h hs _ mode uid gid path.nul_free cwd.nul_free) (fun _ _ hw hx hleaf hrem => h.of_walk fun cs n hn => ?_) (fun h hr => h.of_sameLinks hr.sameLinks) hstep
  rw [hrem.walk_eq hs hw hx hleaf] at hn
  split_ifs at hn
  exact hn

theorem pathsFit_initRoot : PathsFit initRoot := by
  intro cs n hn
  cases cs with
  | nil => exact proper_nil
  | cons x cs =>
    have hnone : findChild initRoot rootNode x = none := rfl
    rw [walk, List.foldlM_cons, hnone] at hn
    cases hn

/-- **The paths of a reachable tree fit the buffers.** -/
theorem pathsFit_of_reachable (h : Reachable s) : PathsFit s := by
  induction h with
  | init =>
    exact (vfsInit_induction pathsFit_initRoot fun s path mode h0 hs hP =>
      pathsFit_vfsMake hP hs .dir mode 0 0 h0 (by decide)).2
  | step op hreach hstep ih => exact ih.of_step (wf_of_reachable hreach) hstep

/-! ### Leaves -/

theorem walk_firstChild (hs : Wf s) {cs : List (List Byte)} {n c : ℕ} (hw : walk s rootNode cs = some n)
    (hc : (s.nodes n).firstChild = some c) :
    walk s rootNode (cs ++ [(s.nodes c).name.chars]) = some c := by
  have hlt := hs.walk_lt cs hs.count_pos hw
  have hmem : c ∈ children s n := by
    obtain ⟨k, hk⟩ := Nat.exists_eq_succ_of_ne_zero hs.count_pos.ne'
    rw [children, hc, hk, Nat.succ_eq_add_one, Chain.chain_succ_some]
    exact List.mem_cons_self
  rw [walk_snoc, hw, Option.bind_some, hs.findChild_eq_some_iff hlt]
  exact ⟨hmem, rfl⟩

theorem firstChild_of_not_dir (hs : Wf s) {cs : List (List Byte)} {n : ℕ} (hw : walk s rootNode cs = some n)
    (hdir : (s.nodes n).type ≠ .dir) : (s.nodes n).firstChild = none := by
  cases hc : (s.nodes n).firstChild with
  | none => rfl
  | some c =>
    have hlt := hs.walk_lt cs hs.count_pos hw
    have hchild := walk_firstChild hs hw hc
    rw [walk_snoc, hw, Option.bind_some, hs.findChild_eq_some_iff hlt] at hchild
    exact absurd (hs.dir_of_mem_children hlt hchild.1) hdir

end Tnu.Vfs

namespace Tnu.Sys

open Tnu.Vfs

/-! ### The call -/

def sysUnlink (s : Kernel) (path : List Byte) : Kernel × ℤ :=
  match normalizeForProcess s.proc path with
  | none => (s, -1)
  | some normal =>
    if normal = [slash] then (s, -1)
    else
      match vfsLookup s.vfs normal [slash], lookupParentFromNormal s.vfs normal with
      | some _, some parent =>
        if (s.vfs.nodes parent).type ≠ .dir then (s, -1)
        else if !isRoot s.proc && pathRequiresRootForMutation normal then (s, -1)
        else if !hasPerm s.proc (s.vfs.nodes parent) 2 || !hasPerm s.proc (s.vfs.nodes parent) 1 then
          (s, -1)
        else
          let r := vfsUnlink s.vfs normal [slash]
          if r.2 < 0 then ({ s with vfs := r.1 }, r.2) else ({ s with vfs := r.1 }.sync, r.2)
      | _, _ => (s, -1)

def MayUnlink (s : Pool) (proc : Process) (cs : List (List Byte)) : Prop :=
  ∃ pc x parent, cs = pc ++ [x] ∧ walk s rootNode pc = some parent ∧ (s.nodes parent).type = .dir ∧
    (isRoot proc = true ∨ pathRequiresRootForMutation (pathString cs) = false) ∧
    hasPerm proc (s.nodes parent) 2 = true ∧ hasPerm proc (s.nodes parent) 1 = true

variable {s : Kernel} {path : List Byte} {cs : List (List Byte)}

/-- The removal of a leaf by a call. -/
structure Unlinked (s : Kernel) (cs : List (List Byte)) (v : Pool) : Prop where
  leaf : ∃ pc x parent target, cs = pc ++ [x] ∧ walk s.vfs rootNode pc = some parent ∧
    findChild s.vfs parent x = some target ∧ (s.vfs.nodes target).firstChild = none ∧
    Removed s.vfs v parent target

theorem Unlinked.walk_eq {v : Pool} (h : Unlinked s cs v) (hs : Wf s.vfs) (q : List (List Byte)) :
    walk v rootNode q = if q = cs then none else walk s.vfs rootNode q := by
  obtain ⟨pc, x, parent, target, rfl, hw, hx, hleaf, hrem⟩ := h.leaf
  exact hrem.walk_eq hs hw hx hleaf q

theorem normalizeForProcess_eq (hp : 0 ∉ path) (hres : resolve path s.proc.cwd.chars = some cs) :
    normalizeForProcess s.proc path = some (pathString cs) := by
  rw [normalizeForProcess, vfsNormalize_eq hp s.proc.cwd.nul_free, hres]
  rfl

theorem sysUnlink_of_not_may (hp : 0 ∉ path) (hres : resolve path s.proc.cwd.chars = some cs)
    (h : ¬ (MayUnlink s.vfs s.proc cs ∧ (walk s.vfs rootNode cs).isSome)) : sysUnlink s path = (s, -1) := by
  have hproper := proper_of_resolve hp s.proc.cwd.nul_free hres
  rw [sysUnlink, normalizeForProcess_eq hp hres]
  dsimp only
  by_cases hroot : pathString cs = [slash]
  · rw [if_pos hroot]
  rw [if_neg hroot]
  rcases List.eq_nil_or_concat' cs with rfl | ⟨pc, x, rfl⟩
  · exact absurd rfl hroot
  rw [lookupParentFromNormal_eq s.vfs hproper, vfsLookup_pathString s.vfs hproper (by decide)]
  cases hnode : walk s.vfs rootNode (pc ++ [x]) with
  | none => rfl
  | some node =>
    cases hw : walk s.vfs rootNode pc with
    | none => rfl
    | some parent =>
      dsimp only
      by_cases hdir : (s.vfs.nodes parent).type ≠ .dir
      · rw [if_pos hdir]
      rw [if_neg hdir]
      by_cases hprot : (!isRoot s.proc && pathRequiresRootForMutation (pathString (pc ++ [x]))) = true
      · rw [if_pos hprot]
      rw [if_neg hprot]
      by_cases hperm : (!hasPerm s.proc (s.vfs.nodes parent) 2 ||
          !hasPerm s.proc (s.vfs.nodes parent) 1) = true
      · rw [if_pos hperm]
      refine absurd ⟨⟨pc, x, parent, rfl, hw, not_not.1 hdir, ?_, ?_⟩, by rw [hnode]; rfl⟩ h
      · simpa [Classical.or_iff_not_imp_left] using hprot
      · simpa only [Bool.or_eq_true, Bool.not_eq_true', not_or, Bool.not_eq_false] using hperm

theorem sysUnlink_of_may (hp : 0 ∉ path) (hres : resolve path s.proc.cwd.chars = some cs)
    (hmay : MayUnlink s.vfs s.proc cs) {n : ℕ} (hn : walk s.vfs rootNode cs = some n) :
    sysUnlink s path =
      if (vfsUnlink s.vfs (pathString cs) [slash]).2 < 0 then
        ({ s with vfs := (vfsUnlink s.vfs (pathString cs) [slash]).1 },
          (vfsUnlink s.vfs (pathString cs) [slash]).2)
      else
        ({ s with vfs := (vfsUnlink s.vfs (pathString cs) [slash]).1 }.sync,
          (vfsUnlink s.vfs (pathString cs) [slash]).2) := by
  have hproper := proper_of_resolve hp s.proc.cwd.nul_free hres
  obtain ⟨pc, x, parent, rfl, hw, hdir, hprot, hwrite, hsearch⟩ := hmay
  have hroot : pathString (pc ++ [x]) ≠ [slash] := by
    rw [Ne, pathString_eq_slash hproper.valid]
    simp
  have hallowed : ¬ (!isRoot s.proc && pathRequiresRootForMutation (pathString (pc ++ [x]))) = true := by
    rcases hprot with h | h <;> simp [h]
  have hperm : ¬ (!hasPerm s.proc (s.vfs.nodes parent) 2 || !hasPerm s.proc (s.vfs.nodes parent) 1) = true := by
    simp [hwrite, hsearch]
  rw [sysUnlink, normalizeForProcess_eq hp hres]
  dsimp only
  rw [if_neg hroot, lookupParentFromNormal_eq s.vfs hproper, vfsLookup_pathString s.vfs hproper (by decide),
    hn, hw]
  dsimp only
  rw [if_neg (not_not.2 hdir), if_neg hallowed, if_neg hperm]

/-- **The call** fails and changes nothing, or removes a leaf that the caller may remove. -/
theorem sysUnlink_cases (hs : Wf s.vfs) (hp : 0 ∉ path) (hres : resolve path s.proc.cwd.chars = some cs) :
    (∃ rc : ℤ, rc < 0 ∧ sysUnlink s path = (s, rc)) ∨
      ∃ v, MayUnlink s.vfs s.proc cs ∧ Unlinked s cs v ∧
        sysUnlink s path = ({ s with vfs := v }.sync, 0) := by
  by_cases h : MayUnlink s.vfs s.proc cs ∧ (walk s.vfs rootNode cs).isSome
  · obtain ⟨hmay, hsome⟩ := h
    obtain ⟨n, hn⟩ := Option.isSome_iff_exists.1 hsome
    have hproper := proper_of_resolve hp s.proc.cwd.nul_free hres
    rw [sysUnlink_of_may hp hres hmay hn]
    rcases vfsUnlink_cases hs (zero_notMem_pathString hproper.valid) (show (0 : Byte) ∉ [slash] by decide) with
      ⟨rc, hrc, he⟩ | ⟨pc, x, parent, target, v, hres', hw, hx, hleaf, hrem, he⟩
    · rw [he, if_pos hrc]
      exact .inl ⟨rc, hrc, rfl⟩
    · have hpos : ¬ (0 : ℤ) < 0 := lt_irrefl 0
      rw [he, if_neg hpos]
      rw [resolve_pathString hproper, Option.some.injEq] at hres'
      exact .inr ⟨v, hmay, ⟨⟨pc, x, parent, target, hres', hw, hx, hleaf, hrem⟩⟩, rfl⟩
  · exact .inl ⟨-1, by decide, sysUnlink_of_not_may hp hres h⟩

theorem vfsUnlink_of_leaf {v : Pool} (hs : Wf v) (hproper : Proper cs) (hne : cs ≠ []) {n : ℕ}
    (hn : walk v rootNode cs = some n) (hleaf : (v.nodes n).firstChild = none) :
    (vfsUnlink v (pathString cs) [slash]).2 = 0 := by
  obtain ⟨pc, x, rfl⟩ := (List.eq_nil_or_concat' cs).resolve_left hne
  obtain ⟨parent, hw, hx, -⟩ := hs.walk_snoc_eq_some hn
  have hlt := hs.walk_lt pc hs.count_pos hw
  obtain ⟨hmem, hname⟩ := (hs.findChild_eq_some_iff hlt).1 hx
  have hpn := (parentAndName_eq_some (zero_notMem_pathString hproper.valid)
    (show (0 : Byte) ∉ [slash] by decide)).2 ⟨pc, resolve_pathString hproper, hw, hs.dir_of_mem_children hlt hmem⟩
  simp only [vfsUnlink, hpn]
  cases hscan : unlinkScan v.nodes x v.nodeCount none (v.nodes parent).firstChild with
  | none => exact absurd hname (unlinkScan_eq_none hscan n hmem)
  | some found =>
    obtain ⟨link, target⟩ := found
    obtain ⟨A, B, hchain, htarget, -⟩ := unlinkScan_eq_some hscan
    have hchildren : children v parent = A ++ target :: B := hchain
    have hx' : findChild v parent x = some target :=
      (hs.findChild_eq_some_iff hlt).2 ⟨by rw [hchildren]; simp, htarget⟩
    obtain rfl := Option.some.inj (hx.symm.trans hx')
    simp [hleaf]

/-- **It works** on a leaf that the caller may remove. -/
theorem sysUnlink_of_leaf (hs : Wf s.vfs) (hp : 0 ∉ path) (hres : resolve path s.proc.cwd.chars = some cs)
    (hmay : MayUnlink s.vfs s.proc cs) {n : ℕ} (hn : walk s.vfs rootNode cs = some n)
    (hleaf : (s.vfs.nodes n).firstChild = none) :
    ∃ v, Unlinked s cs v ∧ sysUnlink s path = ({ s with vfs := v }.sync, 0) := by
  have hproper := proper_of_resolve hp s.proc.cwd.nul_free hres
  have hne : cs ≠ [] := by
    obtain ⟨pc, x, parent, rfl, -⟩ := hmay
    simp
  rcases sysUnlink_cases hs hp hres with ⟨rc, hrc, he⟩ | ⟨v, -, hv, he⟩
  · rw [sysUnlink_of_may hp hres hmay hn, vfsUnlink_of_leaf hs hproper hne hn hleaf,
      if_neg (lt_irrefl 0), Prod.mk.injEq] at he
    exact absurd he.2 hrc.ne'
  · exact ⟨v, hv, he⟩

end Tnu.Sys
