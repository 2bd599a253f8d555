/-
**Reading a directory that changes.**

`sys_readdir` of `kernel/core/syscall.c` returns the entry at the position that the offset of the
descriptor counts, and counts on.  The mutations of the tree put a new entry in front of the others
and take a removed one out, so the position means another entry after them.

Main result:

* `readdir_complete` — **every entry that stays is returned exactly once**.
-/

import Tnu.Lib.Cursor
import Tnu.Sys.FileIo
import Tnu.Sys.Open

set_option autoImplicit false

namespace Tnu.Sys

open Tnu.Vfs

/-! ### The call -/

/-- `struct syscall_dirent`. -/
structure SyscallDirent where
  ino : ℕ
  type : ℕ
  name : CharBuf 255
  deriving DecidableEq

/-- The `d_type` of a node. -/
def direntType : NodeType → ℕ
  | .dir => 4
  | .file => 8
  | _ => 0

/-- `sys_readdir`; the last component is what it stored at `out`.  The loop skips as many entries as
the offset says. -/
def sysReaddir (s : Kernel) (fd : ℤ) (out : ℕ) : Kernel × ℤ × Option SyscallDirent :=
  if uptrOk out 272 = false then (s, -1, none)
  else
    match processGetFd s.proc fd with
    | none => (s, -1, none)
    | some file =>
      match file.node with
      | none => (s, -1, none)
      | some d =>
        if (s.vfs.nodes d).type ≠ .dir then (s, -1, none)
        else
          match (children s.vfs d)[file.offset]? with
          | none => (s, 0, none)
          | some n =>
            (s.setFd fd.toNat { file with offset := file.offset + 1 }, 1,
              some { ino := file.offset + 1, type := direntType (s.vfs.nodes n).type
                     name := .strncpy 255 (s.vfs.nodes n).name.chars })

/-! ### Entries -/

/-- The names of the entries of a directory, in the order the loops meet them. -/
def entryNames (s : Pool) (d : ℕ) : List (List Byte) :=
  (children s d).map fun n => (s.nodes n).name.chars

/-- What a mutation does to the entries of a directory: nothing, or a new one comes first, or one is
taken out. -/
inductive EntryChange (before after : List (List Byte)) : Prop
  | same (h : after = before)
  | grew (x : List Byte) (h : after = x :: before)
  | shrank (A B : List (List Byte)) (x : List Byte) (h : before = A ++ x :: B) (h' : after = A ++ B)

variable {s s' : Pool} {d : ℕ}

theorem entryNames_of_sameLinks (h : SameLinks s s') (d : ℕ) : entryNames s' d = entryNames s d := by
  simp only [entryNames, h.children_eq, h.name]

theorem entryNames_addLeaf (hs : Wf s) {parent : ℕ} (node : VfsNode) (hp : parent < s.nodeCount)
    (hd : d < s.nodeCount) :
    entryNames (addLeaf s parent node) d =
      if d = parent then node.name.chars :: entryNames s d else entryNames s d := by
  have hold : ((children s d).map fun n => ((addLeaf s parent node).nodes n).name.chars) =
      entryNames s d := List.map_congr_left fun n hn => by
    obtain ⟨c, hc, -⟩ := nodes_addLeaf_old node hp (hs.mem_children hd hn).2.1
    rw [hc]
  split_ifs with hdp
  · subst hdp
    rw [entryNames, (hs.listing hp).children_addLeaf node hp, if_pos rfl, List.map_cons, hold,
      nodes_addLeaf_new node hp]
  · rw [entryNames, (hs.listing hd).children_addLeaf node hp, if_neg hdp, hold]

theorem entryChange_make (hs : Wf s) (hd : d < s.nodeCount) (type : NodeType) {path cwd : List Byte}
    (mode uid gid : UInt32) (hpath : 0 ∉ path) (hc : 0 ∉ cwd) :
    d < (vfsMake type s path cwd mode uid gid).1.nodeCount ∧
      EntryChange (entryNames s d) (entryNames (vfsMake type s path cwd mode uid gid).1 d) := by
  cases vfsMake_cases s type mode uid gid hpath hc with
  | inl hfail =>
    obtain ⟨rc, -, he⟩ := hfail
    rw [he]
    exact ⟨hd, .same rfl⟩
  | inr hmade =>
    obtain ⟨pc, x, parent, -, hw, -, -, -, he⟩ := hmade
    have hp : parent < s.nodeCount := hs.walk_lt pc hs.count_pos hw
    have hnames := entryNames_addLeaf hs (leafNode s x type mode uid gid) hp hd
    rw [he]
    refine ⟨hd.trans (Nat.lt_succ_self _), ?_⟩
    split_ifs at hnames
    · exact .grew _ hnames
    · exact .same hnames

theorem entryChange_removed (hd : d < s.nodeCount) {parent target : ℕ} (hrem : Removed s s' parent target) :
    EntryChange (entryNames s d) (entryNames s' d) := by
  have hname : ∀ n, (s'.nodes n).name = (s.nodes n).name := fun n => by
    obtain ⟨t, c, z, hn⟩ := hrem.node n
    rw [hn]
  by_cases hdp : d = parent
  · subst hdp
    obtain ⟨A, B, hold, hnew⟩ := hrem.children_parent
    refine .shrank (A.map fun n => (s.nodes n).name.chars) (B.map fun n => (s.nodes n).name.chars)
      (s.nodes target).name.chars ?_ ?_
    · rw [entryNames, hold, List.map_append, List.map_cons]
    · simp only [entryNames, hnew, List.map_append, hname]
  · exact .same (by simp only [entryNames, hrem.children_other d hd hdp, hname])

/-- **What a mutation does to the entries of a directory.** -/
theorem entryChange_step (hs : Wf s) (hd : d < s.nodeCount) {op : VfsOp} (h : step s op = some s') :
    d < s'.nodeCount ∧ EntryChange (entryNames s d) (entryNames s' d) := by
  refine step_keeps (P := fun s' => d < s'.nodeCount ∧ EntryChange (entryNames s d) (entryNames s' d)) hs
    ⟨hd, .same rfl⟩ (fun {path cwd _} mode uid gid _ _ =>
      entryChange_make hs hd _ mode uid gid path.nul_free cwd.nul_free) (fun _ _ _ _ _ hrem => ⟨hd.trans_le hrem.count.ge, entryChange_removed hd hrem⟩) (fun h hr => ?_) h
  rw [entryNames_of_sameLinks hr.sameLinks, hr.sameLinks.count]
  exact h

/-! ### Runs -/

/-- A change of the entries of a directory leaves the place of a cursor alone: an entry is added only
while nothing has been read, and one is taken out only if it has not been read yet, or when the
cursor is behind the last entry. -/
structure KeepsPlace (before after : List (List Byte)) (c : ℕ) : Prop where
  grew : ∀ x, after = x :: before → c = 0
  shrank : ∀ A x B, before = A ++ x :: B → after = A ++ B → c ≤ A.length ∨ before.length ≤ c

/-- The runs of reads through descriptor `fd` of the directory `d` and allowed mutations of the tree,
with the names that have been entries throughout and what the reads returned. -/
inductive DirRun (allowed : List (List Byte) → List (List Byte) → ℕ → Prop) (fd : ℤ) (d : ℕ)
    (s₀ : Kernel) : Set (List Byte) → List SyscallDirent → Kernel → Prop
  | start : DirRun allowed fd d s₀ {x | x ∈ entryNames s₀.vfs d} [] s₀
  | read {stay : Set (List Byte)} {ents : List SyscallDirent} {s s' : Kernel} {e : SyscallDirent}
      (out : ℕ) (h : DirRun allowed fd d s₀ stay ents s)
      (hread : sysReaddir s fd out = (s', 1, some e)) : DirRun allowed fd d s₀ stay (ents ++ [e]) s'
  | change {stay : Set (List Byte)} {ents : List SyscallDirent} {s : Kernel} {v : Pool} (op : VfsOp)
      (h : DirRun allowed fd d s₀ stay ents s) (hstep : step s.vfs op = some v)
      (hallowed : allowed (entryNames s.vfs d) (entryNames v d) (s.proc.fds fd.toNat).offset) :
      DirRun allowed fd d s₀ {x | x ∈ stay ∧ x ∈ entryNames v d} ents { s with vfs := v }

/-- The descriptor is open on the directory. -/
structure OnDir (s : Kernel) (fd : ℤ) (d : ℕ) : Prop where
  wf : Wf s.vfs
  lt : d < s.vfs.nodeCount
  slot : processGetFd s.proc fd = some (s.proc.fds fd.toNat)
  node : (s.proc.fds fd.toNat).node = some d

variable {k k' k₀ : Kernel} {fd : ℤ} {out : ℕ} {e : SyscallDirent} {stay : Set (List Byte)}
  {ents : List SyscallDirent}

/-- **What one read returns**: the name at the position the offset says. -/
theorem sysReaddir_one (h : OnDir k fd d) (hread : sysReaddir k fd out = (k', 1, some e)) :
    (entryNames k.vfs d)[(k.proc.fds fd.toNat).offset]? = some e.name.chars ∧
      k' = k.setFd fd.toNat { k.proc.fds fd.toNat with offset := (k.proc.fds fd.toNat).offset + 1 } := by
  rw [sysReaddir, h.slot] at hread
  simp only [h.node] at hread
  split_ifs at hread with hptr hdir
  · simp at hread
  · simp at hread
  · cases hn : (children k.vfs d)[(k.proc.fds fd.toNat).offset]? with
    | none =>
      rw [hn] at hread
      simp at hread
    | some n =>
      simp only [hn, Prod.mk.injEq, Option.some.injEq, true_and] at hread
      obtain ⟨rfl, rfl⟩ := hread
      refine ⟨?_, by simp only [h.node]⟩
      rw [entryNames, List.getElem?_map, hn, Option.map_some]
      exact congrArg some (CharBuf.strncpy_chars_of_le (k.vfs.nodes n).name.nul_free
        ((k.vfs.nodes n).name.length_le.trans (by norm_num))).symm

theorem sysReaddir_zero (h : OnDir k fd d) (hend : (sysReaddir k fd out).2.1 = 0) :
    (entryNames k.vfs d).length ≤ (k.proc.fds fd.toNat).offset := by
  rw [sysReaddir, h.slot] at hend
  simp only [h.node] at hend
  split_ifs at hend with hptr hdir
  · simp at hend
  · simp at hend
  · cases hn : (children k.vfs d)[(k.proc.fds fd.toNat).offset]? with
    | none => simpa [entryNames] using hn
    | some n =>
      rw [hn] at hend
      simp at hend

/-- **The invariant of the runs**: what stays was read once if it stands before the cursor, and not at
all otherwise. -/
theorem counted_of_dirRun (h₀ : OnDir k₀ fd d) (hoff : (k₀.proc.fds fd.toNat).offset = 0)
    (hrun : DirRun KeepsPlace fd d k₀ stay ents k) :
    OnDir k fd d ∧ Cursor.Counted stay (entryNames k.vfs d) (k.proc.fds fd.toNat).offset
      (ents.map fun e => e.name.chars) := by
  induction hrun with
  | start =>
    rw [hoff]
    exact ⟨h₀, Cursor.counted_start fun _ hx => hx⟩
  | read out hrun hread ih =>
    obtain ⟨hdir, hcount⟩ := ih
    obtain ⟨hget, rfl⟩ := sysReaddir_one hdir hread
    obtain ⟨h0, hlt, hused, -⟩ := processGetFd_eq_some.1 hdir.slot
    refine ⟨⟨hdir.wf, hdir.lt, ?_, ?_⟩, ?_⟩
    · refine processGetFd_eq_some.2 ⟨h0, hlt, ?_, rfl⟩
      rw [Kernel.setFd_fds_self]
      exact hused
    · rw [Kernel.setFd_fds_self]
      exact hdir.node
    · rw [Kernel.setFd_fds_self, List.map_append]
      exact hcount.read (hdir.wf.distinct d hdir.lt) hget
  | change op hrun hstep hplace ih =>
    obtain ⟨hdir, hcount⟩ := ih
    obtain ⟨hlt, hchange⟩ := entryChange_step hdir.wf hdir.lt hstep
    refine ⟨⟨wf_of_step hdir.wf hstep, hlt, hdir.slot, hdir.node⟩, ?_⟩
    cases hchange with
    | same heq =>
      rw [heq]
      exact hcount.mono fun x hx => hx.1
    | grew x heq =>
      have hzero := hplace.grew x heq
      rw [hzero] at hcount
      rw [heq]
      simp only [hzero]
      exact hcount.grow.mono fun x hx => hx.1
    | shrank A B x hold hnew =>
      have hpos := hplace.shrank A x B hold hnew
      have hnodup := hdir.wf.distinct d hdir.lt
      change (entryNames _ d).Nodup at hnodup
      rw [hold] at hcount hpos hnodup
      rw [hnew]
      exact hcount.remove hnodup hpos

/-- **Every entry that stays is returned exactly once** before the end is reported, when the changes
leave the place of the cursor alone. -/
theorem readdir_complete (out : ℕ) (h₀ : OnDir k₀ fd d) (hoff : (k₀.proc.fds fd.toNat).offset = 0)
    (hrun : DirRun KeepsPlace fd d k₀ stay ents k) (hend : (sysReaddir k fd out).2.1 = 0)
    {x : List Byte} (hx : x ∈ stay) : ents.countP (fun e => e.name.chars = x) = 1 := by
  obtain ⟨hdir, hcount⟩ := counted_of_dirRun h₀ hoff hrun
  have hone := hcount.done (sysReaddir_zero hdir hend) hx
  rw [← hone, List.count_eq_countP, List.countP_map]
  exact List.countP_congr fun e _ => by simp

/-! ### Two entries -/

/-- `/tmp` with the files `b` and `a`, open on descriptor 3 of a user. -/
def tmpKernel : Kernel :=
  let vfs := (vfsCreateFile vfsInit (lit "/tmp/a") [slash] vfsSIfreg 1000 1000).1
  let vfs := (vfsCreateFile vfs (lit "/tmp/b") [slash] vfsSIfreg 1000 1000).1
  (sysOpen { userKernel with vfs := vfs } ⟨0x5000, ⟨lit "/tmp", by decide⟩⟩ 0 0).1

theorem onDir_tmpKernel : OnDir tmpKernel 3 8 := by
  have hvfs : tmpKernel.vfs = (vfsCreateFile (vfsCreateFile vfsInit (lit "/tmp/a") [slash] vfsSIfreg
      1000 1000).1 (lit "/tmp/b") [slash] vfsSIfreg 1000 1000).1 := rfl
  refine ⟨?_, by decide +kernel, by decide +kernel, by decide +kernel⟩
  rw [hvfs]
  exact vfsMake_of_wf (vfsMake_of_wf wf_vfsInit .file _ _ _ (by decide) (by decide)) .file _ _ _
    (by decide) (by decide)

theorem entryNames_tmpKernel : entryNames tmpKernel.vfs 8 = [lit "b", lit "a"] := by decide +kernel

theorem DirRun.readOne {allowed : List (List Byte) → List (List Byte) → ℕ → Prop}
    (h : DirRun allowed fd d k₀ stay ents k) (out : ℕ) (e : SyscallDirent)
    (h1 : (sysReaddir k fd out).2.1 = 1)
    (h2 : (sysReaddir k fd out).2.2 = some e) :
    DirRun allowed fd d k₀ stay (ents ++ [e]) (sysReaddir k fd out).1 :=
  .read out h (by rw [← h1, ← h2])

theorem dirRun_tmpKernel (allowed : List (List Byte) → List (List Byte) → ℕ → Prop) :
    DirRun allowed 3 8 tmpKernel {x | x ∈ entryNames tmpKernel.vfs 8}
      [⟨1, 8, .strncpy 255 (lit "b")⟩] (sysReaddir tmpKernel 3 0x6000).1 :=
  DirRun.start.readOne 0x6000 ⟨1, 8, .strncpy 255 (lit "b")⟩ (by decide +kernel) (by decide +kernel)

/-- `/tmp/a` is removed before it is read: `b` is returned once. -/
theorem readdir_complete_tmp :
    ∃ (stay : Set (List Byte)) (ents : List SyscallDirent) (k : Kernel),
      DirRun KeepsPlace 3 8 tmpKernel stay ents k ∧ lit "b" ∈ stay ∧
        ents.countP (fun e => e.name.chars = lit "b") = 1 := by
  set k₁ := (sysReaddir tmpKernel 3 0x6000).1 with hk₁
  set v := (vfsUnlink k₁.vfs (lit "/tmp/a") [slash]).1 with hv
  have hnames : entryNames k₁.vfs 8 = [lit "b", lit "a"] := by decide +kernel
  have hafter : entryNames v 8 = [lit "b"] := by decide +kernel
  have hoff : (k₁.proc.fds (3 : ℤ).toNat).offset = 1 := by decide +kernel
  have hplace : KeepsPlace [lit "b", lit "a"] [lit "b"] 1 := by
    refine ⟨fun x hx => by simp at hx, fun A x B hold hnew => .inl ?_⟩
    cases A with
    | nil =>
      have hB := (List.cons.inj hold).2
      rw [List.nil_append, ← hB] at hnew
      exact absurd hnew (by decide)
    | cons y A => simp
  have hrun := DirRun.change (v := v) (.unlink ⟨lit "/tmp/a", by decide⟩ ⟨[slash], by decide⟩)
    (dirRun_tmpKernel KeepsPlace) rfl (by rw [hnames, hafter, hoff]; exact hplace)
  have hb : lit "b" ∈ {x | x ∈ {x | x ∈ entryNames tmpKernel.vfs 8} ∧ x ∈ entryNames v 8} := by
    simp only [entryNames_tmpKernel, hafter, Set.mem_ofPred_eq]
    simp
  exact ⟨_, _, _, hrun, hb, readdir_complete 0x6000 onDir_tmpKernel (by decide +kernel) hrun
    (by decide +kernel) hb⟩

/-- A file made after the first read pushes `b` to where it is read again. -/
theorem not_readdir_complete :
    ¬ ∀ (k₀ k : Kernel) (fd : ℤ) (d out : ℕ) (stay : Set (List Byte)) (ents : List SyscallDirent),
      OnDir k₀ fd d → (k₀.proc.fds fd.toNat).offset = 0 → DirRun (fun _ _ _ => True) fd d k₀ stay ents k →
        (sysReaddir k fd out).2.1 = 0 → ∀ x ∈ stay, ents.countP (fun e => e.name.chars = x) = 1 := by
  intro h
  set k₁ := (sysReaddir tmpKernel 3 0x6000).1 with hk₁
  set v := (vfsCreateFile k₁.vfs (lit "/tmp/c") [slash] vfsSIfreg 1000 1000).1 with hv
  set k₂ := (sysReaddir { k₁ with vfs := v } 3 0x6000).1 with hk₂
  have hnew := DirRun.change (v := v)
    (.createFile ⟨lit "/tmp/c", by decide⟩ ⟨[slash], by decide⟩ vfsSIfreg 1000 1000)
    (dirRun_tmpKernel fun _ _ _ => True) rfl trivial
  have hagain := hnew.readOne 0x6000 ⟨2, 8, .strncpy 255 (lit "b")⟩
    (by decide +kernel) (by decide +kernel)
  have hlast := hagain.readOne 0x6000 ⟨3, 8, .strncpy 255 (lit "a")⟩
    (by decide +kernel) (by decide +kernel)
  have hafter : entryNames v 8 = [lit "c", lit "b", lit "a"] := by decide +kernel
  have hb : lit "b" ∈ {x | x ∈ {x | x ∈ entryNames tmpKernel.vfs 8} ∧ x ∈ entryNames v 8} := by
    simp only [entryNames_tmpKernel, hafter, Set.mem_ofPred_eq]
    simp
  have hone := h _ _ 3 8 0x6000 _ _ onDir_tmpKernel (by decide +kernel) hlast (by decide +kernel) _ hb
  revert hone
  decide +kernel

end Tnu.Sys
