/-
**Mounting what was stored.**

The entries `tfs_sync` stores, mounted one after the other into a fresh VFS, give the tree back —
as far as `vfs_init` has not been there first: a directory it made is never changed by an entry,
so one that was removed, or given other attributes, comes back as `vfs_init` makes it.

Main definitions:

* `mountStored` — what a stored entry does to the pool.

Main results:

* `visible_remount` — **the tree comes back when the defaults are intact**;
* `visible_remount_ne` — **and not otherwise**.
-/

import Tnu.Tfs.Mount

set_option autoImplicit false

namespace Tnu.Tfs

open Vfs

variable {s r : Pool}

def TfsEntry.raw (e : TfsEntry) : RawEntry :=
  ⟨e.type, e.mode, e.uid, e.gid, e.size, e.offset, e.mtime⟩

def mountStored (r : Pool) (e : TfsEntry) : Pool :=
  let path := e.path.chars
  if path = [] ∨ path = [slash] then r
  else if e.type = tfsEntryDir then
    (vfsMkdir r path [slash] (vfsSIfdir ||| (e.mode &&& permMask)) e.uid e.gid).1
  else
    let r₁ := (vfsCreateFile r path [slash] (vfsSIfreg ||| (e.mode &&& permMask)) e.uid e.gid).1
    match vfsLookup r₁ path [slash] with
    | none => r₁
    | some n => setFileNode r₁ n e.raw

/-- The directories `vfs_init` makes outside `/dev` and `/proc`, the root among them, are visible
as it made them. -/
def DefaultsIntact (s : Pool) : Prop :=
  ∀ cs v, visible vfsInit cs = some v → visible s cs = some v

/-! ### Stored entries -/

/-- A node the first pass stores. -/
structure Stored (s : Pool) (e : NamePath × ℕ) : Prop where
  ne_nil : e.1 ≠ []
  walk : walk s rootNode e.1 = some e.2
  not_pseudo : ¬ Pseudo e.1
  fits : Fits s e

theorem stored_of_mem (hs : Wf s) (h : Syncable s) {e : NamePath × ℕ} (he : e ∈ storedNodes s) :
    Stored s e := by
  obtain ⟨htail, hp⟩ := List.mem_filter.1 he
  obtain ⟨hne, hw⟩ := (mem_tail_tree hs).1 htail
  exact ⟨hne, hw, by simpa using hp, h e.1 e.2 hw⟩

namespace Stored

variable {e : NamePath × ℕ}

theorem proper (h : Stored s e) (hs : Wf s) : Proper e.1 :=
  h.fits.proper (hs.valid_of_walk h.walk)

theorem path_eq (h : Stored s e) (hs : Wf s) :
    (storedEntry s e).path.chars = pathString e.1 :=
  CharBuf.strncpy_chars_of_le (zero_notMem_pathString (h.proper hs).valid)
    (Nat.le_of_lt h.fits.length)

theorem resolve_eq (h : Stored s e) (hs : Wf s) :
    resolve (storedEntry s e).path.chars [slash] = some e.1 := by
  rw [h.path_eq hs, resolve_pathString (h.proper hs)]

theorem nul_free (e : TfsEntry) : 0 ∉ e.path.chars := e.path.nul_free

theorem named (h : Stored s e) (hs : Wf s) :
    ¬ ((storedEntry s e).path.chars = [] ∨ (storedEntry s e).path.chars = [slash]) := by
  rw [h.path_eq hs, pathString_eq_slash (h.proper hs).valid]
  rintro (he | he)
  · have := head?_pathString e.1
    rw [he] at this
    cases this
  · exact h.ne_nil he

theorem lookup_eq (h : Stored s e) (hs : Wf s) (r : Pool) :
    vfsLookup r (storedEntry s e).path.chars [slash] = Vfs.walk r rootNode e.1 := by
  rw [vfsLookup_eq r (nul_free _) (by decide), h.resolve_eq hs, Option.bind_some]

end Stored

theorem mountStored_eq (hs : Wf s) {e : NamePath × ℕ} (h : Stored s e) (r : Pool) :
    mountStored r (storedEntry s e) =
      if (s.nodes e.2).type = .dir then
        (vfsMkdir r (storedEntry s e).path.chars [slash]
          (vfsSIfdir ||| ((s.nodes e.2).mode &&& permMask &&& permMask)) (s.nodes e.2).uid
          (s.nodes e.2).gid).1
      else
        match walk (vfsCreateFile r (storedEntry s e).path.chars [slash]
            (vfsSIfreg ||| ((s.nodes e.2).mode &&& permMask &&& permMask)) (s.nodes e.2).uid
            (s.nodes e.2).gid).1 rootNode e.1 with
        | none => (vfsCreateFile r (storedEntry s e).path.chars [slash]
            (vfsSIfreg ||| ((s.nodes e.2).mode &&& permMask &&& permMask)) (s.nodes e.2).uid
            (s.nodes e.2).gid).1
        | some n => setFileNode (vfsCreateFile r (storedEntry s e).path.chars [slash]
            (vfsSIfreg ||| ((s.nodes e.2).mode &&& permMask &&& permMask)) (s.nodes e.2).uid
            (s.nodes e.2).gid).1 n (storedEntry s e).raw := by
  unfold mountStored
  simp only
  rw [if_neg (h.named hs)]
  have htype : (storedEntry s e).type = tfsEntryDir ↔ (s.nodes e.2).type = .dir := by
    simp only [storedEntry, entryFor]
    split_ifs with hd
    · simp [hd]
    · simp [hd]
  simp only [htype]
  split_ifs
  · rfl
  · rw [h.lookup_eq hs]
    rfl

theorem permMask_and (m t : UInt32) (ht : t &&& permMask = 0) :
    (t ||| (m &&& permMask &&& permMask)) &&& permMask = m &&& permMask := by
  have hself : m &&& permMask &&& permMask = m &&& permMask := by
    rw [UInt32.and_assoc, UInt32.and_self]
  rw [hself]
  apply UInt32.toBitVec_inj.1
  have hbits := congrArg UInt32.toBitVec ht
  simp only [UInt32.toBitVec_and, UInt32.toBitVec_or] at hbits ⊢
  rw [BitVec.and_or_distrib_right, hbits, BitVec.and_assoc, BitVec.and_self]
  simp

/-! ### What an entry keeps -/

variable {x : List Byte} {cs : NamePath} {n : ℕ}

theorem vfsMake_node (hr : Wf r) (type : NodeType) {path cwd : List Byte}
    (mode uid gid : UInt32) (hp : 0 ∉ path) (hc : 0 ∉ cwd) (hn : n < r.nodeCount) :
    ((vfsMake type r path cwd mode uid gid).1.nodes n).shown = (r.nodes n).shown := by
  rcases vfsMake_cases r type mode uid gid hp hc with
    ⟨rc, -, he⟩ | ⟨pc, x, parent, -, hw, -, -, -, he⟩
  · rw [he]
  · obtain ⟨c, hc', -⟩ := nodes_addLeaf_old (leafNode r x type mode uid gid)
      (hr.walk_lt pc hr.count_pos hw) hn
    rw [he, hc']
    rfl

theorem mountStored_cases (hs : Wf s) {e : NamePath × ℕ} (h : Stored s e) (hr : Wf r) :
    ∃ type mode uid gid, let r₁ :=
        (vfsMake type r (storedEntry s e).path.chars [slash] mode uid gid).1
      Wf r₁ ∧ (mountStored r (storedEntry s e) = r₁ ∨
        (s.nodes e.2).type ≠ .dir ∧ ∃ n, walk r₁ rootNode e.1 = some n ∧
          mountStored r (storedEntry s e) = setFileNode r₁ n (storedEntry s e).raw) := by
  rw [mountStored_eq hs h]
  by_cases hdir : (s.nodes e.2).type = .dir
  · rw [if_pos hdir]
    exact ⟨.dir, _, _, _, vfsMake_of_wf hr _ _ _ _ (Stored.nul_free _) (by decide), .inl rfl⟩
  · rw [if_neg hdir]
    refine ⟨.file, vfsSIfreg ||| ((s.nodes e.2).mode &&& permMask &&& permMask),
      (s.nodes e.2).uid, (s.nodes e.2).gid,
      vfsMake_of_wf hr _ _ _ _ (Stored.nul_free _) (by decide), ?_⟩
    split
    · exact .inl rfl
    · rename_i n hn
      exact .inr ⟨hdir, n, hn, rfl⟩

theorem wf_mountStored (hs : Wf s) {e : NamePath × ℕ} (h : Stored s e) (hr : Wf r) :
    Wf (mountStored r (storedEntry s e)) := by
  obtain ⟨type, mode, uid, gid, hw, he | ⟨-, n, -, he⟩⟩ := mountStored_cases hs h hr
  · rw [he]
    exact hw
  · rw [he]
    exact (sameLinks_setFileNode _ _ _).wf hw

/-- **An entry keeps the nodes the pool has**: their paths and types, and all that is seen of
them, unless it is the entry of a file under their path. -/
theorem mountStored_keeps (hs : Wf s) {e : NamePath × ℕ} (h : Stored s e) (hr : Wf r)
    (hw : walk r rootNode cs = some n) :
    walk (mountStored r (storedEntry s e)) rootNode cs = some n ∧
      ((mountStored r (storedEntry s e)).nodes n).type = (r.nodes n).type ∧
      (e.1 ≠ cs ∨ (s.nodes e.2).type = .dir →
        ((mountStored r (storedEntry s e)).nodes n).shown = (r.nodes n).shown) := by
  have hn : n < r.nodeCount := hr.walk_lt cs hr.count_pos hw
  obtain ⟨type, mode, uid, gid, hwf, hcases⟩ := mountStored_cases hs h hr
  have hw₁ := walk_vfsMake hr type mode uid gid (Stored.nul_free (storedEntry s e))
    (by decide : 0 ∉ [slash]) hw
  have hshown := vfsMake_node hr type mode uid gid (Stored.nul_free (storedEntry s e))
    (by decide : 0 ∉ [slash]) hn
  have htype := congrArg Shown.kind hshown
  simp only [shown_kind] at htype
  rcases hcases with he | ⟨hfile, m, hm, he⟩
  · rw [he]
    exact ⟨hw₁, htype, fun _ => hshown⟩
  · have hl := sameLinks_setFileNode
      (vfsMake type r (storedEntry s e).path.chars [slash] mode uid gid).1 m
      (storedEntry s e).raw
    rw [he]
    refine ⟨(hl.walk_eq _ _).trans hw₁, (hl.type n).trans htype, fun hother => ?_⟩
    have hne : n ≠ m := by
      rintro rfl
      rcases hother with hother | hother
      · exact hother (hwf.walk_injective hm hw₁)
      · exact hfile hother
    rw [setFileNode, Pool.nodes_modifyNode_of_ne _ _ hne]
    exact hshown

/-! ### One entry more -/

/-- The pool after the entries of `l`, when the defaults are intact. -/
structure Remounting (s r : Pool) (l : List (NamePath × ℕ)) : Prop where
  wf : Wf r
  ok : ∀ n, NodeOk (r.nodes n)
  /-- Only entries under new paths take a node. -/
  count : r.nodeCount ≤
    vfsInit.nodeCount + (l.filter fun e => (visible vfsInit e.1).isNone).length
  /-- What was mounted is what is stored; the rest is as `vfs_init` made it. -/
  shown : ∀ cs, visible r cs = if cs ∈ l.map Prod.fst then visible s cs else visible vfsInit cs

theorem shown_leaf_dir (r : Pool) (x : List Byte)
    (hdir : (s.nodes n).type = .dir) :
    (leafNode r x .dir (vfsSIfdir ||| ((s.nodes n).mode &&& permMask &&& permMask))
      (s.nodes n).uid (s.nodes n).gid).shown = (s.nodes n).shown := by
  simp only [VfsNode.shown, freshNode, Shown.mk.injEq]
  refine ⟨hdir.symm, permMask_and _ _ (by decide), trivial, trivial, ?_⟩
  simp [VfsNode.bytes, hdir]

theorem shown_setFileNode {e : NamePath × ℕ} (hfile : (s.nodes e.2).type = .file)
    (hsize : (s.nodes e.2).size = 0) {r₁ : Pool} {k : ℕ} (hk : (r₁.nodes k).type = .file) :
    ((setFileNode r₁ k (storedEntry s e).raw).nodes k).shown = (s.nodes e.2).shown := by
  simp only [setFileNode, Pool.nodes_modifyNode_self, VfsNode.shown, TfsEntry.raw, storedEntry,
    entryFor, Shown.mk.injEq]
  refine ⟨hk.trans hfile.symm, permMask_and _ _ (by decide), trivial, trivial, ?_⟩
  simp [VfsNode.bytes, hk, hfile, hsize]

theorem addLeaf_facts (hr : Wf r) (hrok : ∀ n, NodeOk (r.nodes n))
    {parent : ℕ} {node : VfsNode} (hparent : walk r rootNode cs = some parent)
    (hnew : findChild r parent x = none) (hname : node.name.chars = x)
    (hleaf : node.firstChild = none) (hok : NodeOk node) :
    (∀ m, NodeOk ((addLeaf r parent node).nodes m)) ∧
      (∀ q, walk (addLeaf r parent node) rootNode q =
        if q = cs ++ [x] then some r.nodeCount else walk r rootNode q) ∧
      ((addLeaf r parent node).nodes r.nodeCount).shown = node.shown ∧
      ∀ m, m < r.nodeCount → ((addLeaf r parent node).nodes m).shown = (r.nodes m).shown := by
  have hlt : parent < r.nodeCount := hr.walk_lt cs hr.count_pos hparent
  refine ⟨fun m => ?_, fun q => ?_, ?_, fun m hm => ?_⟩
  · obtain ⟨base, p, c, y, hbase, hm⟩ := nodes_addLeaf r node hlt m
    rw [hm]
    rcases hbase with rfl | rfl
    · exact hok.of_eq rfl rfl
    · exact (hrok m).of_eq rfl rfl
  · rw [walk_addLeaf hr hparent hleaf (by rw [hname]; exact hnew), hname]
  · rw [nodes_addLeaf_new node hlt]
    rfl
  · obtain ⟨c, hc, -⟩ := nodes_addLeaf_old node hlt hm
    rw [hc]
    rfl

/-- **A stored entry under a new path** makes a node that looks like the one that was stored. -/
theorem mountStored_new (hs : Wf s) (hok : ∀ n, NodeOk (s.nodes n))
    {parent : ℕ} (h : Stored s (cs ++ [x], n)) (hr : Wf r)
    (hrok : ∀ n, NodeOk (r.nodes n)) (hparent : walk r rootNode cs = some parent)
    (hpdir : (r.nodes parent).type = .dir) (hnew : findChild r parent x = none)
    (hfull : r.nodeCount < vfsMaxNodes) :
    (mountStored r (storedEntry s (cs ++ [x], n))).nodeCount = r.nodeCount + 1 ∧
      (∀ m, NodeOk ((mountStored r (storedEntry s (cs ++ [x], n))).nodes m)) ∧
      (∀ q, walk (mountStored r (storedEntry s (cs ++ [x], n))) rootNode q =
        if q = cs ++ [x] then some r.nodeCount else walk r rootNode q) ∧
      ((mountStored r (storedEntry s (cs ++ [x], n))).nodes r.nodeCount).shown =
        (s.nodes n).shown ∧
      ∀ m, m < r.nodeCount →
        ((mountStored r (storedEntry s (cs ++ [x], n))).nodes m).shown = (r.nodes m).shown := by
  have hx : ValidName x := (h.proper hs).valid x (by simp)
  have hlt : parent < r.nodeCount := hr.walk_lt cs hr.count_pos hparent
  rw [mountStored_eq hs h]
  by_cases hdir : (s.nodes n).type = .dir
  · have hmake := vfsMake_of_new .dir
      (vfsSIfdir ||| ((s.nodes n).mode &&& permMask &&& permMask)) (s.nodes n).uid (s.nodes n).gid
      (Stored.nul_free _) (by decide) (h.resolve_eq hs) hparent hpdir hnew hfull
    rw [if_pos hdir, vfsMkdir, hmake]
    obtain ⟨h₁, h₂, h₃, h₄⟩ := addLeaf_facts hr hrok hparent hnew
      (leafNode_name r hx .dir (vfsSIfdir ||| ((s.nodes n).mode &&& permMask &&& permMask))
        (s.nodes n).uid (s.nodes n).gid) rfl (nodeOk_freshNode _ _ _ _ _ (.inl rfl))
    exact ⟨rfl, h₁, h₂, h₃.trans (shown_leaf_dir r x hdir), h₄⟩
  · have hfile : (s.nodes n).type = .file := (hok n).type.resolve_left hdir
    have hmake := vfsMake_of_new .file
      (vfsSIfreg ||| ((s.nodes n).mode &&& permMask &&& permMask)) (s.nodes n).uid (s.nodes n).gid
      (Stored.nul_free _) (by decide) (h.resolve_eq hs) hparent hpdir hnew hfull
    obtain ⟨h₁, h₂, -, h₄⟩ := addLeaf_facts hr hrok hparent hnew
      (leafNode_name r hx .file (vfsSIfreg ||| ((s.nodes n).mode &&& permMask &&& permMask))
        (s.nodes n).uid (s.nodes n).gid) rfl (nodeOk_freshNode _ _ _ _ _ (.inr rfl))
    set r₁ := addLeaf r parent (leafNode r x .file
      (vfsSIfreg ||| ((s.nodes n).mode &&& permMask &&& permMask)) (s.nodes n).uid
      (s.nodes n).gid) with hr₁
    have hmade : (vfsCreateFile r (storedEntry s (cs ++ [x], n)).path.chars [slash]
        (vfsSIfreg ||| ((s.nodes n).mode &&& permMask &&& permMask)) (s.nodes n).uid
        (s.nodes n).gid).1 = r₁ := by rw [vfsCreateFile, hmake]
    have hnode : (r₁.nodes r.nodeCount).type = .file := by
      rw [hr₁, nodes_addLeaf_new _ hlt]
      rfl
    have hsize : (s.nodes n).size = 0 := h.fits.empty h.not_pseudo hfile
    rw [if_neg hdir, hmade, h₂, if_pos rfl]
    simp only
    refine ⟨rfl, fun m => ?_, fun q => ?_, shown_setFileNode hfile hsize hnode, fun m hm => ?_⟩
    · refine modifyNode_keeps h₁ ⟨(h₁ r.nodeCount).type, Nat.zero_le _⟩ m
    · rw [(sameLinks_setFileNode _ _ _).walk_eq, h₂]
    · rw [setFileNode, Pool.nodes_modifyNode_of_ne _ _ (by omega), h₄ m hm]

/-- **A stored directory under a path that is there** changes nothing. -/
theorem mountStored_exists (hs : Wf s) {parent m : ℕ}
    (h : Stored s (cs ++ [x], n)) (hdir : (s.nodes n).type = .dir)
    (hparent : walk r rootNode cs = some parent) (hpdir : (r.nodes parent).type = .dir)
    (hx : findChild r parent x = some m) :
    mountStored r (storedEntry s (cs ++ [x], n)) = r := by
  rw [mountStored_eq hs h, if_pos hdir, vfsMkdir, vfsMake_of_exists .dir _ _ _ (Stored.nul_free _)
    (by decide) (h.resolve_eq hs) hparent hpdir hx]

theorem Remounting.parent {l : List (NamePath × ℕ)} (h : Remounting s r l) (hs : Wf s)
    (hok : ∀ n, NodeOk (s.nodes n))
    (he : Stored s (cs ++ [x], n)) (hcs : cs = [] ∨ cs ∈ l.map Prod.fst) :
    ∃ parent, walk r rootNode cs = some parent ∧ (r.nodes parent).type = .dir := by
  rcases hcs with rfl | hcs
  · exact ⟨rootNode, rfl, h.wf.root_dir⟩
  · have hp : ¬ Pseudo cs := fun hp => he.not_pseudo (pseudo_append hp)
    obtain ⟨p, hpw, hf, -⟩ := hs.walk_snoc_eq_some he.walk
    have hplt : p < s.nodeCount := hs.walk_lt cs hs.count_pos hpw
    have hpdir := hs.dir_of_mem_children hplt ((hs.findChild_eq_some_iff hplt).1 hf).1
    have hshown := h.shown cs
    rw [if_pos hcs, visible_eq_map hok hp, hpw, Option.map_some, visible_eq_map h.ok hp,
      Option.map_eq_some_iff] at hshown
    obtain ⟨p', hp', hsame⟩ := hshown
    exact ⟨p', hp', (congrArg Shown.kind hsame).trans hpdir⟩

/-- **One entry more.** -/
theorem Remounting.step {l : List (NamePath × ℕ)} (h : Remounting s r l) (hs : Wf s)
    (hok : ∀ n, NodeOk (s.nodes n)) (hdef : DefaultsIntact s) {e : NamePath × ℕ}
    (he : Stored s e) (hparent : e.1.dropLast = [] ∨ e.1.dropLast ∈ l.map Prod.fst)
    (hnew : e.1 ∉ l.map Prod.fst)
    (hfull : (visible vfsInit e.1).isNone → r.nodeCount < vfsMaxNodes) :
    Remounting s (mountStored r (storedEntry s e)) (l ++ [e]) := by
  obtain ⟨cs, n⟩ := e
  rcases List.eq_nil_or_concat' cs with rfl | ⟨cs, x, rfl⟩
  · exact absurd rfl he.ne_nil
  rw [List.dropLast_concat] at hparent
  obtain ⟨parent, hpw, hpdir⟩ := h.parent hs hok he hparent
  have hvis := h.shown (cs ++ [x])
  rw [if_neg hnew, visible_eq_map h.ok he.not_pseudo, walk_snoc, hpw, Option.bind_some] at hvis
  have hself : visible s (cs ++ [x]) = some (s.nodes n).shown := by
    rw [visible_eq_map hok he.not_pseudo, he.walk, Option.map_some]
  have hmem : ∀ q, q ∈ (l ++ [(cs ++ [x], n)]).map Prod.fst ↔
      q ∈ l.map Prod.fst ∨ q = cs ++ [x] := fun q => by simp
  cases hf : findChild r parent x with
  | some m =>
    -- `vfs_init` has made a directory there, and so the stored node is one
    rw [hf, Option.map_some] at hvis
    have hv := hdef _ _ hvis.symm
    have hdir : (s.nodes n).type = .dir := by
      rw [hself] at hv
      have hk := congrArg Shown.kind (Option.some.inj hv)
      rw [visible, if_neg he.not_pseudo] at hvis
      obtain ⟨k, -, hk'⟩ := Option.bind_eq_some_iff.1 hvis.symm
      rw [if_pos (.inl (all_dir_vfsInit k))] at hk'
      have := congrArg Shown.kind (Option.some.inj hk')
      rw [shown_kind, all_dir_vfsInit] at this
      exact hk.trans this.symm
    rw [mountStored_exists hs he hdir hpw hpdir hf]
    refine ⟨h.wf, h.ok, ?_, fun q => ?_⟩
    · rw [List.filter_append, List.length_append]
      exact h.count.trans (by omega)
    · rw [h.shown]
      simp only [hmem]
      by_cases hq : q = cs ++ [x]
      · subst hq
        rw [if_neg hnew, if_pos (.inr rfl), hv, ← hvis]
      · simp only [hq, or_false]
  | none =>
    rw [hf, Option.map_none] at hvis
    have hnone : (visible vfsInit (cs ++ [x])).isNone := by rw [← hvis]; rfl
    obtain ⟨hcount, hrok, hwalk, hleaf, hold⟩ :=
      mountStored_new hs hok he h.wf h.ok hpw hpdir hf (hfull hnone)
    refine ⟨wf_mountStored hs he h.wf, hrok, ?_, fun q => ?_⟩
    · rw [hcount, List.filter_append, List.length_append,
        List.filter_cons_of_pos (by simpa using hnone)]
      have := h.count
      simp only [List.filter_nil, List.length_singleton]
      omega
    · simp only [hmem]
      by_cases hq : q = cs ++ [x]
      · subst hq
        rw [if_pos (.inr rfl), hself, visible_eq_map hrok he.not_pseudo, hwalk, if_pos rfl,
          Option.map_some, hleaf]
      · simp only [hq, or_false]
        rw [← h.shown q]
        refine visible_congr (by rw [hwalk, if_neg hq]) fun m hm => hold m ?_
        exact h.wf.walk_lt q h.wf.count_pos hm

/-! ### All entries -/

theorem Remounting.run (hs : Wf s) (hok : ∀ n, NodeOk (s.nodes n)) (hdef : DefaultsIntact s) :
    ∀ (l' l : List (NamePath × ℕ)) (r : Pool), Remounting s r l → (∀ e ∈ l', Stored s e) →
      ParentsFirst {cs | cs = [] ∨ cs ∈ l.map Prod.fst} l' → ((l ++ l').map Prod.fst).Nodup →
      vfsInit.nodeCount + ((l ++ l').filter fun e => (visible vfsInit e.1).isNone).length
        ≤ vfsMaxNodes →
      Remounting s (l'.foldl (fun r e => mountStored r (storedEntry s e)) r) (l ++ l') := by
  intro l'
  induction l' with
  | nil =>
    intro l r h _ _ _ _
    rw [List.append_nil]
    exact h
  | cons e l' ih =>
    intro l r h hst hpar hnodup hcap
    have hassoc : l ++ e :: l' = l ++ [e] ++ l' := by simp
    rw [hassoc] at hnodup hcap ⊢
    rw [List.foldl_cons]
    have hnew : e.1 ∉ l.map Prod.fst := by
      rw [List.map_append, List.map_append, List.append_assoc] at hnodup
      intro hmem
      exact List.disjoint_of_nodup_append hnodup hmem (by simp)
    refine ih (l ++ [e]) _ (h.step hs hok hdef (hst e (by simp)) hpar.1 hnew fun hnone => ?_)
      (fun d hd => hst d (by simp [hd])) (hpar.2.mono ?_) hnodup hcap
    · rw [List.filter_append, List.length_append, List.filter_append, List.length_append,
        List.filter_cons_of_pos (by simpa using hnone)] at hcap
      have := h.count
      simp only [List.filter_nil, List.length_singleton] at hcap
      omega
    · rintro cs (rfl | hcs | hcs)
      · right
        simp
      · exact .inl hcs
      · right
        rw [List.map_append]
        exact List.mem_append_left _ hcs

theorem length_new_le (hs : Wf s) (hb : Booted s) :
    vfsInit.nodeCount +
      ((storedNodes s).filter fun e => (visible vfsInit e.1).isNone).length ≤ s.nodeCount := by
  set l := (storedNodes s).filter fun e => (visible vfsInit e.1).isNone with hl
  have hsub : l.Sublist (tree s (s.nodeCount + 1) [] rootNode) :=
    (List.filter_sublist.trans List.filter_sublist).trans (List.tail_sublist _)
  have hnodup : (l.map Prod.snd).Nodup := (nodup_tree_snd hs _).sublist (hsub.map _)
  have hrange : l.map Prod.snd ⊆ List.range' vfsInit.nodeCount (s.nodeCount - vfsInit.nodeCount) := by
    intro n hn
    obtain ⟨⟨cs, m⟩, he, rfl⟩ := List.mem_map.1 hn
    have hw := (mem_tree_iff hs (Nat.le_succ _)).1 (hsub.subset he)
    have hlt : m < s.nodeCount := hs.walk_lt cs hs.count_pos hw
    obtain ⟨hst, hnone⟩ := List.mem_filter.1 he
    have hp : ¬ Pseudo cs := by simpa using (List.mem_filter.1 hst).2
    have hge : vfsInit.nodeCount ≤ m := by
      by_contra hlt'
      have hwalk := hb.path_eq hs (not_le.1 hlt') hw
      rw [visible, if_neg hp, hwalk, Option.bind_some, if_pos (.inl (all_dir_vfsInit m))] at hnone
      simp at hnone
    have := hb.count
    rw [List.mem_range'_1]
    simp only
    omega
  have hle := (List.subperm_of_subset hnodup hrange).length_le
  have := hb.count
  rw [List.length_map, List.length_range'] at hle
  omega

theorem remounting_start (s : Pool) : Remounting s vfsInit [] where
  wf := wf_vfsInit
  ok := nodeOk_of_reachable .init
  count := le_rfl
  shown cs := by simp

theorem parentsFirst_storedNodes (s : Pool) :
    ParentsFirst {cs | cs = [] ∨ cs ∈ ([] : List (NamePath × ℕ)).map Prod.fst} (storedNodes s) := by
  have htree := parentsFirst_tree s (s.nodeCount + 1) [] rootNode {[]} rfl
  have htail : ParentsFirst {[]} (tree s (s.nodeCount + 1) [] rootNode).tail := by
    have he : tree s (s.nodeCount + 1) [] rootNode =
        ([], rootNode) :: (tree s (s.nodeCount + 1) [] rootNode).tail := by
      rw [tree, List.tail_cons]
    rw [he] at htree
    refine htree.2.mono ?_
    rintro cs (rfl | hcs)
    · rfl
    · exact hcs
  have hfilter := htail.filter (P := fun cs => decide (¬ Pseudo cs)) fun cs hcs => by
    simpa using not_pseudo_dropLast (by simpa using hcs)
  refine ParentsFirst.mono ?_ hfilter
  rintro cs ⟨rfl, -⟩
  exact .inl rfl

def remount (s : Pool) : Pool :=
  (storedNodes s).foldl (fun r e => mountStored r (storedEntry s e)) vfsInit

/-- **The tree comes back**, when it can be stored and the directories of `vfs_init` are as
`vfs_init` made them. -/
theorem visible_remount (hs : Wf s) (hok : ∀ n, NodeOk (s.nodes n)) (hb : Booted s)
    (h : Syncable s) (hdef : DefaultsIntact s) (cs : NamePath) :
    visible (remount s) cs = visible s cs := by
  have hnodup : ((storedNodes s).map Prod.fst).Nodup := by
    refine (nodup_tree_fst hs (s.nodeCount + 1) [] hs.count_pos).sublist (List.Sublist.map _ ?_)
    exact List.filter_sublist.trans (List.tail_sublist _)
  have hrun := Remounting.run hs hok hdef (storedNodes s) [] vfsInit (remounting_start s)
    (fun e he => stored_of_mem hs h he) (parentsFirst_storedNodes s) hnodup
    ((length_new_le hs hb).trans hs.count_le)
  have hshown := hrun.shown cs
  rw [List.nil_append] at hshown
  rw [remount, hshown]
  split_ifs with hmem
  · rfl
  · -- a path that was not stored: the root, a pseudo path, or one that is not there
    cases hinit : visible vfsInit cs with
    | some v => exact (hdef cs v hinit).symm
    | none =>
      by_cases hp : Pseudo cs
      · rw [visible_of_pseudo hp]
      · have hne : cs ≠ [] := by
          rintro rfl
          rw [visible, if_neg hp, walk_nil, Option.bind_some,
            if_pos (.inl (all_dir_vfsInit _))] at hinit
          cases hinit
        rw [visible_eq_map hok hp]
        cases hw : walk s rootNode cs with
        | none => rfl
        | some n =>
          refine absurd (List.mem_map.2 ⟨(cs, n), ?_, rfl⟩) hmem
          exact List.mem_filter.2 ⟨(mem_tail_tree hs).2 ⟨hne, hw⟩, by simpa using hp⟩

theorem foldl_mountStored_keeps (hs : Wf s) :
    ∀ (l : List (NamePath × ℕ)) (r : Pool), Wf r → walk r rootNode cs = some n →
      (∀ e ∈ l, Stored s e) →
      walk (l.foldl (fun r e => mountStored r (storedEntry s e)) r) rootNode cs = some n ∧
        ((l.foldl (fun r e => mountStored r (storedEntry s e)) r).nodes n).type =
          (r.nodes n).type ∧
        ((∀ e ∈ l, e.1 ≠ cs ∨ (s.nodes e.2).type = .dir) →
          ((l.foldl (fun r e => mountStored r (storedEntry s e)) r).nodes n).shown =
            (r.nodes n).shown) := by
  intro l
  induction l with
  | nil => intro r _ hw _; exact ⟨hw, rfl, fun _ => rfl⟩
  | cons e l ih =>
    intro r hr hw hst
    have he := hst e (by simp)
    obtain ⟨hw₁, htype, hshown⟩ := mountStored_keeps hs he hr hw
    obtain ⟨hw₂, htype₂, hshown₂⟩ := ih _ (wf_mountStored hs he hr) hw₁
      fun d hd => hst d (by simp [hd])
    rw [List.foldl_cons]
    refine ⟨hw₂, htype₂.trans htype, fun hall => ?_⟩
    exact (hshown₂ fun d hd => hall d (by simp [hd])).trans (hshown (hall e (by simp)))

/-- **Otherwise some path comes back differently.** -/
theorem visible_remount_ne (hs : Wf s) (hok : ∀ n, NodeOk (s.nodes n)) (h : Syncable s)
    (hdef : ¬ DefaultsIntact s) : ∃ cs, visible (remount s) cs ≠ visible s cs := by
  obtain ⟨cs, v, hinit, hne⟩ : ∃ cs v, visible vfsInit cs = some v ∧ visible s cs ≠ some v := by
    simpa [DefaultsIntact] using hdef
  refine ⟨cs, fun heq => hne ?_⟩
  have hp : ¬ Pseudo cs := fun hp => by
    rw [visible_of_pseudo hp] at hinit
    cases hinit
  rw [visible_eq_map (nodeOk_of_reachable .init) hp, Option.map_eq_some_iff] at hinit
  obtain ⟨n, hw, rfl⟩ := hinit
  obtain ⟨hw', htype, hshown⟩ := foldl_mountStored_keeps hs (storedNodes s) vfsInit wf_vfsInit hw
    fun e he => stored_of_mem hs h he
  have hvis : visible (remount s) cs = some ((remount s).nodes n).shown := by
    rw [visible, if_neg hp]
    have hdir : ((remount s).nodes n).type = .dir := htype.trans (all_dir_vfsInit n)
    rw [show walk (remount s) rootNode cs = some n from hw', Option.bind_some, if_pos (.inl hdir)]
  rw [hvis, visible_eq_map hok hp] at heq
  obtain ⟨m, hm, hmshown⟩ := Option.map_eq_some_iff.1 heq.symm
  -- what is under the path in the tree is a directory, so its entry changes nothing
  have hmdir : (s.nodes m).type = .dir :=
    (congrArg Shown.kind hmshown).trans (htype.trans (all_dir_vfsInit n))
  rw [visible_eq_map hok hp, hm, Option.map_some, hmshown]
  refine congrArg some (hshown fun e he => ?_)
  by_cases hec : e.1 = cs
  · right
    have hew := (stored_of_mem hs h he).walk
    rw [hec, hm] at hew
    rw [← Option.some.inj hew, hmdir]
  · exact .inl hec

end Tnu.Tfs
