/-
**What holds of the kernel in every run.**

A process makes system calls, the programs of the kernel change the tree, and images are mounted whose
bytes may be any.  `vfs_unlink` takes a node out of the tree and leaves it in the pool: a node that is open
is never used for something else.

Main definitions:

* `KernelCall`, `kernelRun` — what reaches the tree, or the table of descriptors.

Main result:

* `live_of_kernelRun` — **the tree is a tree and no descriptor dangles**, in every run.
-/

import Tnu.Sys.Durable
import Tnu.Sys.Readdir
import Tnu.Sys.Search
import Tnu.Tfs.Traceless
import Tnu.Vfs.Shape

set_option autoImplicit false

namespace Tnu.Sys

open Tnu.Vfs Tnu.Tfs

inductive KernelCall
  | fd (c : FdCall)
  | readdir (fd : ℤ) (out : ℕ)
  | unlink (path : CString)
  | mkdir (path : CString) (mode : UInt32)
  | tree (op : VfsOp)
  | mountImage (mem : ℕ → Byte) (image size : ℕ) (t : TfsState)
  | mountDisk (env : MountEnv) (devices : Tnu.Devices) (t : TfsState) (device : List Byte) (startLba : UInt64)

/-- One call; `none` when the C code has no defined result. -/
def kernelCall (s : Kernel) : KernelCall → Option Kernel
  | .fd c => (runCall s c).map Prod.fst
  | .readdir fd out => some (sysReaddir s fd out).1
  | .unlink path => some (sysUnlink s path.chars).1
  | .mkdir path mode => some (sysMkdir s path.chars mode).1
  | .tree op => (step s.vfs op).map fun v => { s with vfs := v }
  | .mountImage mem image size t => some { s with vfs := (tfsMountImage mem image size s.vfs t).2.pool }
  | .mountDisk env devices t device startLba =>
    some { s with vfs := (mountDiskIn env devices s.vfs t device startLba).pool }

def kernelRun : Kernel → List KernelCall → Option Kernel
  | s, [] => some s
  | s, c :: cs => (kernelCall s c).bind fun t => kernelRun t cs

/-! ### Pools that grow -/

variable {v v' v'' : Pool}

/-- The pool has the shape, and the nodes it had are of the kind they were. -/
structure Grown (v v' : Pool) : Prop where
  wf : Wf v'
  count : v.nodeCount ≤ v'.nodeCount
  type : ∀ n < v.nodeCount, (v'.nodes n).type = (v.nodes n).type

theorem Grown.refl (hv : Wf v) : Grown v v := ⟨hv, le_rfl, fun _ _ => rfl⟩

theorem Grown.trans (h : Grown v v') (h' : Grown v' v'') : Grown v v'' where
  wf := h'.wf
  count := h.count.trans h'.count
  type n hn := (h'.type n (hn.trans_le h.count)).trans (h.type n hn)

theorem Grown.of_sameLinks (h : Grown v v') (hl : SameLinks v' v'') : Grown v v'' where
  wf := hl.wf h.wf
  count := hl.count ▸ h.count
  type n hn := (hl.type n).trans (h.type n hn)

theorem grown_addLeaf {parent : ℕ} {node : VfsNode} (hp : parent < v.nodeCount)
    (hwf : Wf (addLeaf v parent node)) : Grown v (addLeaf v parent node) where
  wf := hwf
  count := Nat.le_succ _
  type n hn := by
    obtain ⟨c, hc, -⟩ := nodes_addLeaf_old node hp hn
    rw [hc]

theorem grown_vfsMake (hv : Wf v) (type : NodeType) {path cwd : List Byte} (mode uid gid : UInt32) (hp : 0 ∉ path)
    (hc : 0 ∉ cwd) : Grown v (vfsMake type v path cwd mode uid gid).1 := by
  have hwf := vfsMake_of_wf hv type mode uid gid hp hc
  rcases vfsMake_cases v type mode uid gid hp hc with ⟨rc, -, he⟩ | ⟨pc, x, parent, -, hw, -, -, -, he⟩
  · rw [he]
    exact .refl hv
  · rw [he] at hwf ⊢
    exact grown_addLeaf (hv.walk_lt pc hv.count_pos hw) hwf

theorem grown_removed {parent target : ℕ} (h : Removed v v' parent target) : Grown v v' where
  wf := h.wf
  count := h.count.ge
  type n _ := by
    obtain ⟨t, c, x, hn⟩ := h.node n
    rw [hn]

theorem grown_step (hv : Wf v) {op : VfsOp} (h : step v op = some v') : Grown v v' :=
  step_keeps hv (.refl hv)
    (fun {path cwd type} mode uid gid _ _ => grown_vfsMake hv type mode uid gid path.nul_free cwd.nul_free)
    (fun _ _ _ _ _ hrem => grown_removed hrem) (fun h hr => h.of_sameLinks hr.sameLinks) h

theorem grown_runRecords (src : Source) {rs : List Record} (hrs : ∀ r ∈ rs, 0 ∉ r.path) (hv : Wf v) :
    Grown v (runRecords src rs v).1 := by
  induction rs generalizing v with
  | nil => exact .refl hv
  | cons r rs ih =>
    obtain ⟨hr, hrest⟩ := List.forall_mem_cons.1 hrs
    have hstep : Grown v (mountRecord src v r).1 := by
      obtain ⟨v₁, hv₁, hl⟩ := mountRecord_cases src v r
      rcases hv₁ with rfl | ⟨type, mode, uid, gid, rfl⟩
      · exact (Grown.refl hv).of_sameLinks hl
      · exact (grown_vfsMake hv type mode uid gid hr (by decide)).of_sameLinks hl
    rw [runRecords]
    split_ifs
    · exact hstep.trans (ih hrest hstep.wf)
    · exact hstep

/-- **Whatever an image holds, a mount keeps the shape**, also when it fails. -/
theorem grown_mountEntries (hv : Wf v) (mem : ℕ → Byte) (kmalloc : ℕ → Bool) (image size : ℕ) (borrowed : Bool) :
    Grown v (mountEntriesFromMemory mem kmalloc image size borrowed v).pool := by
  by_cases h : Refused mem image size
  · rw [(mountEntries_of_refused h).1]
    exact .refl hv
  · have hpool := congrArg Prod.fst (mountEntries_of_accepted kmalloc borrowed v h)
    dsimp only at hpool
    rw [hpool]
    exact grown_runRecords _ (nul_free_recordsFrom _ _ _) hv

theorem grown_mountDiskIn (hv : Wf v) (env : MountEnv) (devices : Tnu.Devices) (t : TfsState) (device : List Byte)
    (startLba : UInt64) : Grown v (mountDiskIn env devices v t device startLba).pool := by
  cases h : imageRead env devices device startLba with
  | none =>
    rw [mountDiskIn_of_unread h]
    exact .refl hv
  | some bytes =>
    rw [mountDiskIn_of_read h]
    dsimp only
    split_ifs <;> exact grown_mountEntries hv ..

/-! ### One call -/

variable {s t : Kernel} {c : KernelCall}

/-- The tree has the shape, and a descriptor leads to a node of the pool. -/
structure Live (s : Kernel) : Prop where
  wf : Wf s.vfs
  node_lt : ∀ i n, (s.proc.fds i).node = some n → n < s.vfs.nodeCount

/-- What a call does: the pool grows, and a slot leads where a slot led before, or to a node. -/
structure Follows (s t : Kernel) : Prop where
  grown : Grown s.vfs t.vfs
  node : ∀ i n, (t.proc.fds i).node = some n → (∃ j, (s.proc.fds j).node = some n) ∨ n < t.vfs.nodeCount

theorem Live.of_follows (hs : Live s) (h : Follows s t) : Live t where
  wf := h.grown.wf
  node_lt i n hn := (h.node i n hn).elim (fun ⟨j, hj⟩ => (hs.node_lt j n hj).trans_le h.grown.count) id

theorem Grown.follows (h : Grown s.vfs t.vfs) (hnode : ∀ i, (t.proc.fds i).node = (s.proc.fds i).node) : Follows s t :=
  ⟨h, fun i _ hn => .inl ⟨i, (hnode i).symm.trans hn⟩⟩

theorem Grown.follows_setFd (h : Grown s.vfs t.vfs) {i : ℕ} {f : FileDescriptor} (hproc : t.proc = s.proc.setFd i f)
    (hf : ∀ n, f.node = some n → (∃ j, (s.proc.fds j).node = some n) ∨ n < t.vfs.nodeCount) : Follows s t where
  grown := h
  node j n hn := by
    rw [hproc] at hn
    by_cases hj : j = i
    · rw [hj, Process.setFd_self] at hn
      exact hf n hn
    · rw [Process.setFd_of_ne _ _ hj] at hn
      exact .inl ⟨j, hn⟩

theorem grown_openNode (hs : Wf s.vfs) {normal : List Byte} (h0 : 0 ∉ normal) (flags mode : UInt32) :
    Grown s.vfs (openNode s normal flags mode).1.vfs ∧
      ∀ n, (openNode s normal flags mode).2 = some n → n < (openNode s normal flags mode).1.vfs.nodeCount := by
  have hslash : (0 : Byte) ∉ [slash] := by decide
  have hlt : ∀ {v n}, Wf v → vfsLookup v normal [slash] = some n → n < v.nodeCount := fun hv hn => by
    rw [vfsLookup_eq _ h0 hslash] at hn
    obtain ⟨cs, -, hcs⟩ := Option.bind_eq_some_iff.1 hn
    exact hv.walk_lt cs hv.count_pos hcs
  have hmade := grown_vfsMake hs .file (vfsSIfreg ||| (mode &&& 0o777)) s.proc.uid s.proc.gid h0 hslash
  rw [openNode]
  cases hfound : vfsLookup s.vfs normal [slash] with
  | some node =>
    refine ⟨.refl hs, fun n hn => ?_⟩
    dsimp only at hn
    split_ifs at hn
    exact Option.some.inj hn ▸ hlt hs hfound
  | none =>
    dsimp only
    split_ifs
    · exact ⟨.refl hs, fun _ => False.elim⟩
    · exact ⟨.refl hs, fun _ => False.elim⟩
    · exact ⟨.refl hs, fun _ => False.elim⟩
    · exact ⟨hmade, fun _ => False.elim⟩
    · exact ⟨hmade, fun n hn => hlt hmade.wf hn⟩

theorem follows_sysOpen (hs : Wf s.vfs) (path : UserString) (flags mode : UInt32) :
    Follows s (sysOpen s path flags mode).1 := by
  have hself : Follows s s := (Grown.refl hs).follows fun _ => rfl
  rw [sysOpen]
  split_ifs
  · exact hself
  · cases hnorm : normalizeForProcess s.proc path.str.chars with
    | none => exact hself
    | some normal =>
      obtain ⟨comps, hres, rfl⟩ := normalizeForProcess_eq_some.1 hnorm
      have hg := grown_openNode hs (zero_notMem_pathString (proper_of_normalize hres).valid) flags mode
      have hproc := (openNode_frame s (pathString comps) flags mode).1
      dsimp only
      cases hopen : openNode s (pathString comps) flags mode with
      | mk s₁ node =>
        rw [hopen] at hg hproc
        cases node with
        | none => exact hg.1.follows fun i => by rw [hproc]
        | some node =>
          change Follows s (openFound s₁ (pathString comps) node flags).1
          cases href : openRefused s₁.proc (s₁.vfs.nodes node) (pathString comps) flags with
          | true =>
            rw [openFound_of_refused href]
            exact hg.1.follows fun i => by rw [hproc]
          | false =>
            have hl : SameLinks s₁.vfs (openedVfs s₁.vfs node flags) := by
              rw [openedVfs]
              split_ifs
              · exact .modifyNode _ _ _ rfl rfl rfl rfl rfl
              · exact .refl _
            have hgrown := hg.1.of_sameLinks hl
            rw [openFound_of_allowed href]
            cases freeFd s₁.proc with
            | none => exact hgrown.follows fun i => by rw [← hproc]
            | some i =>
              refine hgrown.follows_setFd (i := i) (by rw [← hproc]) fun n hn => .inr ?_
              exact hl.count ▸ Option.some.inj hn ▸ hg.2 node rfl

/-- Calls that only move an offset. -/
theorem MovesOffset.follows {fd : ℤ} (hs : Wf s.vfs) (h : MovesOffset s t fd ∧ t.vfs = s.vfs) : Follows s t := by
  have hg : Grown s.vfs t.vfs := by
    rw [h.2]
    exact .refl hs
  exact hg.follows fun i => (h.1.slot i).node

theorem follows_runCall (hs : Wf s.vfs) {c : FdCall} {rc : ℤ} (h : runCall s c = some (t, rc)) : Follows s t := by
  have hcopy : ∀ {fd : ℤ} {f} (i : ℕ), processGetFd s.proc fd = some f →
      Follows s { s with proc := s.proc.setFd i f } := fun i hf => by
    obtain ⟨-, -, -, rfl⟩ := processGetFd_eq_some.1 hf
    exact Grown.follows_setFd (.refl hs) rfl fun n hn => .inl ⟨_, hn⟩
  have hself : Follows s s := (Grown.refl hs).follows fun _ => rfl
  cases c with
  | «open» path flags mode =>
    obtain rfl := congrArg Prod.fst (Option.some.inj h)
    exact follows_sysOpen hs path flags mode
  | read dev fd buf count =>
    obtain ⟨⟨t', r⟩, hread, he⟩ := Option.map_eq_some_iff.1 h
    obtain ⟨rfl, -⟩ := Prod.mk.inj he
    exact MovesOffset.follows hs (sysRead_moves hread)
  | lseek fd offset whence => exact MovesOffset.follows hs (sysLseek_moves h)
  | write dev fd buf =>
    obtain ⟨⟨t', r, out⟩, hwrite, he⟩ := Option.map_eq_some_iff.1 h
    obtain ⟨rfl, -⟩ := Prod.mk.inj he
    rcases sysWrite_cases hwrite with ⟨rfl, -⟩ | ⟨f, offset, v, hf, hv, rfl⟩
    · exact hself
    · obtain ⟨-, -, -, rfl⟩ := processGetFd_eq_some.1 hf
      have hl : SameLinks s.vfs v := by
        obtain rfl | ⟨n, off, bytes, ret, hw⟩ := hv
        · exact .refl _
        · exact sameLinks_vfsWriteNode hw
      exact ((Grown.refl hs).of_sameLinks hl).follows_setFd rfl fun n hn => .inl ⟨_, hn⟩
  | dup fd =>
    obtain rfl := congrArg Prod.fst (Option.some.inj h)
    rcases processDupFd_cases s.proc fd with he | ⟨old, i, hold, -, he⟩
    · simpa only [he] using hself
    · simpa only [he] using hcopy i hold
  | dup2 oldfd newfd =>
    obtain rfl := congrArg Prod.fst (Option.some.inj h)
    rcases processDup2Fd_cases s.proc oldfd newfd with ⟨rc, he⟩ | ⟨old, hold, -, -, -, he⟩
    · simpa only [he] using hself
    · simpa only [he] using hcopy newfd.toNat hold
  | close fd =>
    obtain rfl := congrArg Prod.fst (Option.some.inj h)
    rw [sysClose]
    dsimp only
    generalize hs₁ : (if (processGetFd s.proc fd).any FileDescriptor.dirty then s.sync else s) = s₁
    obtain ⟨hvfs, hproc⟩ : s₁.vfs = s.vfs ∧ s₁.proc = s.proc := by
      rw [← hs₁]
      split_ifs <;> exact ⟨rfl, rfl⟩
    have hg : Grown s.vfs s₁.vfs := by
      rw [hvfs]
      exact .refl hs
    rw [processCloseFd]
    split_ifs
    · exact Grown.follows hg fun i => by rw [hproc]
    · refine Grown.follows_setFd hg (by rw [hproc]) fun n hn => ?_
      cases hn
  | exit code =>
    obtain rfl := congrArg Prod.fst (Option.some.inj h)
    exact Grown.follows (.refl hs) fun _ => rfl

theorem nul_free_normalize {path : CString} {normal : List Byte}
    (h : normalizeForProcess s.proc path.chars = some normal) : 0 ∉ normal := by
  obtain ⟨comps, hres, rfl⟩ := normalizeForProcess_eq_some.1 h
  exact zero_notMem_pathString (proper_of_normalize hres).valid

theorem follows_sysUnlink (hs : Wf s.vfs) (path : CString) : Follows s (sysUnlink s path.chars).1 := by
  have hself : Follows s s := Grown.follows (.refl hs) fun _ => rfl
  rw [sysUnlink]
  cases hnorm : normalizeForProcess s.proc path.chars with
  | none => exact hself
  | some normal =>
    have hgrown : Grown s.vfs (vfsUnlink s.vfs normal [slash]).1 :=
      grown_step hs (rfl : step s.vfs (.unlink ⟨normal, nul_free_normalize hnorm⟩ ⟨[slash], by decide⟩) = some _)
    dsimp only
    by_cases hroot : normal = [slash]
    · rw [if_pos hroot]
      exact hself
    · rw [if_neg hroot]
      cases vfsLookup s.vfs normal [slash] with
      | none => exact hself
      | some _ =>
        cases lookupParentFromNormal s.vfs normal with
        | none => exact hself
        | some parent =>
          dsimp only
          split_ifs
          · exact hself
          · exact hself
          · exact hself
          · exact Grown.follows hgrown fun _ => rfl
          · exact Grown.follows hgrown fun _ => rfl

theorem follows_sysMkdir (hs : Wf s.vfs) (path : CString) (mode : UInt32) :
    Follows s (sysMkdir s path.chars mode).1 := by
  have hself : Follows s s := Grown.follows (.refl hs) fun _ => rfl
  rw [sysMkdir]
  cases hnorm : normalizeForProcess s.proc path.chars with
  | none => exact hself
  | some normal =>
    have hgrown := grown_vfsMake hs .dir (vfsSIfdir ||| (mode &&& 0o777)) s.proc.uid s.proc.gid
      (nul_free_normalize hnorm) (show (0 : Byte) ∉ [slash] by decide)
    dsimp only
    split_ifs
    · exact hself
    · exact hself
    · exact Grown.follows hgrown fun _ => rfl
    · exact Grown.follows hgrown fun _ => rfl

theorem follows_sysReaddir (hs : Wf s.vfs) (fd : ℤ) (out : ℕ) : Follows s (sysReaddir s fd out).1 := by
  have hself : Follows s s := Grown.follows (.refl hs) fun _ => rfl
  rw [sysReaddir]
  split_ifs
  · exact hself
  · cases hf : processGetFd s.proc fd with
    | none => exact hself
    | some f =>
      obtain ⟨-, -, -, rfl⟩ := processGetFd_eq_some.1 hf
      dsimp only
      cases hnode : (s.proc.fds fd.toNat).node with
      | none => exact hself
      | some d =>
        dsimp only
        split_ifs
        · exact hself
        · cases (children s.vfs d)[(s.proc.fds fd.toNat).offset]? with
          | none => exact hself
          | some n => exact Grown.follows_setFd (.refl hs) rfl fun n hn => .inl ⟨_, hnode.trans hn⟩

/-- **What one call does.** -/
theorem follows_kernelCall (hs : Wf s.vfs) (h : kernelCall s c = some t) : Follows s t := by
  cases c with
  | fd c =>
    obtain ⟨⟨t', rc⟩, hcall, rfl⟩ := Option.map_eq_some_iff.1 h
    exact follows_runCall hs hcall
  | tree op =>
    obtain ⟨v, hv, rfl⟩ := Option.map_eq_some_iff.1 h
    exact Grown.follows (grown_step hs hv) fun _ => rfl
  | readdir fd out => exact Option.some.inj h ▸ follows_sysReaddir hs fd out
  | unlink path => exact Option.some.inj h ▸ follows_sysUnlink hs path
  | mkdir path mode => exact Option.some.inj h ▸ follows_sysMkdir hs path mode
  | mountImage mem image size T =>
    exact Option.some.inj h ▸ Grown.follows (grown_mountEntries hs ..) fun _ => rfl
  | mountDisk env devices T device startLba =>
    exact Option.some.inj h ▸ Grown.follows (grown_mountDiskIn hs ..) fun _ => rfl

/-! ### Runs -/

theorem grown_of_kernelRun {cs : List KernelCall} (hs : Live s) (h : kernelRun s cs = some t) :
    Live t ∧ Grown s.vfs t.vfs := by
  induction cs generalizing s with
  | nil =>
    obtain rfl := Option.some.inj h
    exact ⟨hs, .refl hs.wf⟩
  | cons c cs ih =>
    obtain ⟨s₁, hcall, hrun⟩ := Option.bind_eq_some_iff.1 h
    have hstep := follows_kernelCall hs.wf hcall
    obtain ⟨ht, hgrown⟩ := ih (hs.of_follows hstep) hrun
    exact ⟨ht, hstep.grown.trans hgrown⟩

/-- **The tree is a tree, and no descriptor dangles**: after any calls, and mounts of any images, a descriptor leads
to a node of the pool, and a node that was there is of the kind it was. -/
theorem live_of_kernelRun {cs : List KernelCall} (hs : Live s) (h : kernelRun s cs = some t) :
    TreeShaped t.vfs ∧ (∀ i n, (t.proc.fds i).node = some n → n < t.vfs.nodeCount ∧ t.vfs.nodeCount ≤ vfsMaxNodes) ∧
      ∀ n < s.vfs.nodeCount, n < t.vfs.nodeCount ∧ (t.vfs.nodes n).type = (s.vfs.nodes n).type := by
  obtain ⟨ht, hgrown⟩ := grown_of_kernelRun hs h
  exact ⟨treeShaped_of_wf ht.wf, fun i n hn => ⟨ht.node_lt i n hn, ht.wf.count_le⟩,
    fun n hn => ⟨hn.trans_le hgrown.count, hgrown.type n hn⟩⟩

theorem live_userKernel : Live userKernel where
  wf := wf_vfsInit
  node_lt i n hn := by
    simp only [userKernel, processCreate, setupStdio] at hn
    split_ifs at hn
    cases hn

theorem live_of_kernelRun_remove : ∃ t, TreeShaped t.vfs ∧
    kernelRun userKernel [.mkdir ⟨lit "/tmp/a", by decide⟩ 0o755, .unlink ⟨lit "/tmp/a", by decide⟩] = some t :=
  have hrun : kernelRun userKernel [.mkdir ⟨lit "/tmp/a", by decide⟩ 0o755,
    .unlink ⟨lit "/tmp/a", by decide⟩] = some _ := rfl
  ⟨_, (live_of_kernelRun live_userKernel hrun).1, hrun⟩

end Tnu.Sys
