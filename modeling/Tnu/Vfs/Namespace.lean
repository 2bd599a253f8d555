/-
**The laws of the namespace.**

What `vfs_mkdir`, `vfs_create_file` and `vfs_unlink` do to the answers of `vfs_lookup`: on any
tree, whatever the places of its nodes in the array, creating or removing a path changes the
answer for that path and for no other, and a call that fails changes no answer at all.

Main results:

* `namespace_laws` — **the three functions obey them**;
* `normal_path_acts` — **a path counts as `vfs_normalize` writes it**;
* `vfsUnlink_vfsMake` — **removing takes back what creating did**.
-/

import Tnu.Vfs.Shape

set_option autoImplicit false

namespace Tnu.Vfs

/-- A C string `vfs_normalize` leaves as it is. -/
def Normalized (q : List Byte) : Prop := 0 ∉ q ∧ vfsNormalize q [slash] vfsPathMax = some q

/-- `vfs_lookup` answers as before, for every normalized path but one. -/
def SameBut (p : List Byte) (s s' : Pool) : Prop :=
  ∀ q, Normalized q → q ≠ p → vfsLookup s' q [slash] = vfsLookup s q [slash]

/-- What a creating call must do: a new empty node of its kind at the path and nothing else, or
nothing. -/
structure CreateLaw (s : Pool) (type : NodeType) (p : List Byte) (r : Pool × ℤ) : Prop where
  created : r.2 = 0 → vfsLookup s p [slash] = none ∧
    ∃ n, vfsLookup r.1 p [slash] = some n ∧ s.nodeCount ≤ n ∧ (r.1.nodes n).type = type ∧
      (r.1.nodes n).size = 0 ∧ (r.1.nodes n).data = none ∧ (r.1.nodes n).firstChild = none
  frame : r.2 = 0 → SameBut p s r.1
  failed : r.2 ≠ 0 → ∀ q cwd, vfsLookup r.1 q cwd = vfsLookup s q cwd

/-- What `vfs_unlink` must do: the path goes and nothing else, or nothing. -/
structure UnlinkLaw (s : Pool) (p : List Byte) (r : Pool × ℤ) : Prop where
  removed : r.2 = 0 → vfsLookup s p [slash] ≠ none ∧ vfsLookup r.1 p [slash] = none
  frame : r.2 = 0 → SameBut p s r.1
  failed : r.2 ≠ 0 → ∀ q cwd, vfsLookup r.1 q cwd = vfsLookup s q cwd

variable {s s' : Pool}

/-! ### Normalized paths -/

theorem Normalized.comps {q : List Byte} (h : Normalized q) :
    ∃ cs, Proper cs ∧ q = pathString cs := by
  obtain ⟨h0, hq⟩ := h
  rw [vfsNormalize_eq h0 (by decide), Option.map_eq_some_iff] at hq
  obtain ⟨cs, hres, rfl⟩ := hq
  exact ⟨cs, proper_of_resolve h0 (by decide) hres, rfl⟩

/-- **How a path is written does not matter**: what `vfs_normalize` returns is normalized, and in every working
directory every operation does with it what it does with the path. -/
theorem normal_path_acts {path cwd : CString} {q : List Byte}
    (h : vfsNormalize path.chars cwd.chars vfsPathMax = some q) (cwd' : CString) (s : Pool) :
    vfsNormalize q cwd'.chars vfsPathMax = some q ∧ vfsLookup s q cwd'.chars = vfsLookup s path.chars cwd.chars ∧
      (∀ type mode uid gid, vfsMake type s q cwd'.chars mode uid gid = vfsMake type s path.chars cwd.chars mode uid gid) ∧
      (∀ kmalloc data, vfsWriteFile kmalloc s q cwd'.chars data = vfsWriteFile kmalloc s path.chars cwd.chars data) ∧
      vfsUnlink s q cwd'.chars = vfsUnlink s path.chars cwd.chars := by
  obtain ⟨cs, hres, rfl⟩ := Option.map_eq_some_iff.1 ((vfsNormalize_eq path.nul_free cwd.nul_free).symm.trans h)
  have hp : Proper cs := proper_of_resolve path.nul_free cwd.nul_free hres
  have hq : vfsNormalize (pathString cs) cwd'.chars vfsPathMax = some (pathString cs) := by
    rw [vfsNormalize_eq (zero_notMem_pathString hp.valid) cwd'.nul_free, resolve_pathString hp]
    rfl
  have heq := hq.trans h.symm
  have hlookup (s : Pool) : vfsLookup s (pathString cs) cwd'.chars = vfsLookup s path.chars cwd.chars := by
    rw [vfsLookup, vfsLookup, heq]
  have hparent : parentAndName s (pathString cs) cwd'.chars = parentAndName s path.chars cwd.chars := by
    rw [parentAndName, parentAndName, heq]
  have hmake type mode uid gid : vfsMake type s (pathString cs) cwd'.chars mode uid gid =
      vfsMake type s path.chars cwd.chars mode uid gid := by rw [vfsMake, vfsMake, hparent]
  refine ⟨hq, hlookup s, hmake, fun kmalloc data => ?_, by rw [vfsUnlink, vfsUnlink, hparent]⟩
  have hensure : ensureFile s (pathString cs) cwd'.chars = ensureFile s path.chars cwd.chars := by
    rw [ensureFile, ensureFile, hlookup, vfsCreateFile, hmake]
  rw [vfsWriteFile, vfsWriteFile, hensure, hlookup]

theorem normal_path_acts_home : vfsLookup vfsInit (lit "/home") (lit "/tmp") =
    vfsLookup vfsInit (lit "../home/.") (lit "/tmp") :=
  have h : vfsNormalize (⟨lit "../home/.", by decide⟩ : CString).chars (⟨lit "/tmp", by decide⟩ : CString).chars
      vfsPathMax = some (lit "/home") := by decide
  (normal_path_acts h ⟨lit "/tmp", by decide⟩ vfsInit).2.1

theorem sameBut_of_walk {cs : List (List Byte)} {r : Option ℕ}
    (h : ∀ q, walk s' rootNode q = if q = cs then r else walk s rootNode q) :
    SameBut (pathString cs) s s' := by
  intro q hq hne
  obtain ⟨ds, hds, rfl⟩ := hq.comps
  rw [vfsLookup_pathString s' hds (by decide), vfsLookup_pathString s hds (by decide), h ds,
    if_neg fun e => hne (by rw [e])]

/-! ### Creating -/

variable {pc : List (List Byte)} {p cwd : List Byte} {d t parent : ℕ}

theorem createLaw_vfsMake (hs : TreeShaped s) (type : NodeType)
    (mode uid gid : UInt32) (hp : Normalized p) (hc : 0 ∉ cwd) :
    CreateLaw s type p (vfsMake type s p cwd mode uid gid) := by
  obtain ⟨cs, hcs, rfl⟩ := hp.comps
  rcases vfsMake_cases s type mode uid gid hp.1 hc with
    ⟨rc, hrc, he⟩ | ⟨pc, x, parent, hres, hw, -, hfree, -, he⟩
  · rw [he]
    exact ⟨fun h => absurd h (by omega), fun h => absurd h (by omega), fun _ _ _ => rfl⟩
  · obtain rfl : cs = pc ++ [x] := Option.some.inj ((resolve_pathString hcs).symm.trans hres)
    have hname := leafNode_name s (hcs.valid x (by simp)) type mode uid gid
    have hplt := (hs.listings.listing hw).lt
    have hwalk := hs.listings.walk_addLeaf hw (rfl : (leafNode s x type mode uid gid).firstChild = none)
      (by rw [hname]; exact hfree)
    rw [hname] at hwalk
    rw [he]
    refine ⟨fun _ => ⟨?_, s.nodeCount, ?_, le_rfl, ?_⟩, fun _ => sameBut_of_walk hwalk,
      fun h => absurd rfl h⟩
    · rw [vfsLookup_pathString s hcs (by decide), walk_snoc, hw]
      exact hfree
    · rw [vfsLookup_pathString _ hcs (by decide), hwalk, if_pos rfl]
    · rw [nodes_addLeaf_new _ hplt]
      exact ⟨rfl, rfl, rfl, rfl⟩

/-! ### Removing -/

theorem unlinkLaw_vfsUnlink (hs : TreeShaped s) (hp : Normalized p)
    (hc : 0 ∉ cwd) : UnlinkLaw s p (vfsUnlink s p cwd) := by
  obtain ⟨cs, hcs, rfl⟩ := hp.comps
  have hsame : ∀ rc : ℤ, rc ≠ 0 → UnlinkLaw s (pathString cs) (s, rc) := fun rc hrc =>
    ⟨fun h => absurd h hrc, fun h => absurd h hrc, fun _ _ _ => rfl⟩
  unfold vfsUnlink
  cases hpn : parentAndName s (pathString cs) cwd with
  | none => exact hsame (-1) (by decide)
  | some pn =>
    obtain ⟨parent, x⟩ := pn
    obtain ⟨pc, hres, hw, -⟩ := (parentAndName_eq_some hp.1 hc).1 hpn
    obtain rfl : cs = pc ++ [x] := Option.some.inj ((resolve_pathString hcs).symm.trans hres)
    simp only
    cases hscan : unlinkScan s.nodes x s.nodeCount none (s.nodes parent).firstChild with
    | none => exact hsame (-1) (by decide)
    | some lt =>
      obtain ⟨link, target⟩ := lt
      obtain ⟨A, B, hchain, rfl, hlink⟩ := unlinkScan_eq_some hscan
      have hchildren : children s parent = A ++ target :: B := hchain
      rw [Option.or_none] at hlink
      subst hlink
      simp only
      split_ifs with hleaf
      · exact hsame (-2) (by decide)
      · have hname : ∀ c, ((spliceOut s parent A.getLast? target).nodes c).name = (s.nodes c).name := by
          intro c
          obtain ⟨f, x, hc⟩ := spliceOut_node s parent A.getLast? target c
          rw [hc]
        have hwalk := hs.listings.walk_cut hw hchildren (by simpa using hleaf) hname fun hd =>
          hd.children_spliceOut (hs.listings.listing hw) hchildren
        have hwalk' : ∀ q, walk ((spliceOut s parent A.getLast? target).touch parent) rootNode q
            = if q = pc ++ [(s.nodes target).name.chars] then none else walk s rootNode q :=
          fun q => by rw [(SameLinks.touch _ parent).walk_eq, hwalk q]
        have hmem : target ∈ children s parent := by rw [hchildren]; simp
        have hfound : findChild s parent (s.nodes target).name.chars = some target :=
          (hs.listings.listing hw).findChild_eq_some_iff.2 ⟨hmem, rfl⟩
        refine ⟨fun _ => ⟨?_, ?_⟩, fun _ => sameBut_of_walk hwalk', fun h => absurd rfl h⟩
        · rw [vfsLookup_pathString s hcs (by decide), walk_snoc, hw, Option.bind_some, hfound]
          exact Option.some_ne_none _
        · rw [vfsLookup_pathString _ hcs (by decide), hwalk', if_pos rfl]

/-! ### Making and removing -/

theorem vfsUnlink_of_walk (hs : Wf s) {path : List Byte} {x : List Byte} (hp : 0 ∉ path) (hc : 0 ∉ cwd)
    (hres : resolve path cwd = some (pc ++ [x])) (hw : walk s rootNode (pc ++ [x]) = some t)
    (hleaf : (s.nodes t).firstChild = none) : (vfsUnlink s path cwd).2 = 0 := by
  rw [walk_snoc, Option.bind_eq_some_iff] at hw
  obtain ⟨parent, hparent, hx⟩ := hw
  have hlt : parent < s.nodeCount := hs.walk_lt pc hs.count_pos hparent
  obtain ⟨hmem, hname⟩ := (hs.findChild_eq_some_iff hlt).1 hx
  rw [vfsUnlink, (parentAndName_eq_some hp hc).2 ⟨pc, hres, hparent, hs.dir_of_mem_children hlt hmem⟩]
  dsimp only
  cases hscan : unlinkScan s.nodes x s.nodeCount none (s.nodes parent).firstChild with
  | none => exact absurd hname (unlinkScan_eq_none hscan t hmem)
  | some lt =>
    obtain ⟨link, n⟩ := lt
    obtain ⟨A, B, hchain, hn, -⟩ := unlinkScan_eq_some hscan
    have hchildren : children s parent = A ++ n :: B := hchain
    have hsome : findChild s parent x = some n := (hs.findChild_eq_some_iff hlt).2 ⟨by rw [hchildren]; simp, hn⟩
    obtain rfl : n = t := Option.some.inj (hsome.symm.trans hx)
    dsimp only
    rw [hleaf]
    rfl

/-- **`vfs_unlink` takes back what `vfs_mkdir` or `vfs_create_file` made**, whatever was written to the nodes since:
it succeeds, and every path leads again where it led before. -/
theorem vfsUnlink_vfsMake (hs : Reachable s) (type : NodeType) (mode uid gid : UInt32) (path cwd : CString)
    (hmade : (vfsMake type s path.chars cwd.chars mode uid gid).2 = 0)
    (hrun : Relation.ReflTransGen Rewrites (vfsMake type s path.chars cwd.chars mode uid gid).1 s') :
    (vfsUnlink s' path.chars cwd.chars).2 = 0 ∧ ∀ q c : CString,
      vfsLookup (vfsUnlink s' path.chars cwd.chars).1 q.chars c.chars = vfsLookup s q.chars c.chars := by
  have hwf := wf_of_reachable hs
  have hlinks : SameLinks (vfsMake type s path.chars cwd.chars mode uid gid).1 s' := by
    induction hrun with
    | refl => exact .refl _
    | tail _ h ih => exact ih.trans h.sameLinks
  have hwf' : Wf s' := hlinks.wf (vfsMake_of_wf hwf type mode uid gid path.nul_free cwd.nul_free)
  rcases vfsMake_cases s type mode uid gid path.nul_free cwd.nul_free with
    ⟨rc, hrc, he⟩ | ⟨pc, x, parent, hres, hw, hdir, hfree, -, he⟩
  · rw [he] at hmade
    exact absurd hmade hrc.ne
  rw [he] at hlinks
  have hname := leafNode_name s ((proper_of_resolve path.nul_free cwd.nul_free hres).valid x (by simp)) type mode uid gid
  have hwalk q : walk s' rootNode q = if q = pc ++ [x] then some s.nodeCount else walk s rootNode q := by
    rw [hlinks.walk_eq, walk_addLeaf hwf hw rfl (by rw [hname]; exact hfree), hname]
  have hleaf : (s'.nodes s.nodeCount).firstChild = none := by
    rw [hlinks.first, nodes_addLeaf_new _ (hwf.walk_lt pc hwf.count_pos hw)]
    rfl
  have hzero := vfsUnlink_of_walk hwf' path.nul_free cwd.nul_free hres (by rw [hwalk, if_pos rfl]) hleaf
  refine ⟨hzero, fun q c => ?_⟩
  rcases vfsUnlink_cases hwf' path.nul_free cwd.nul_free with
    ⟨rc, hrc, he⟩ | ⟨pc', x', parent', target, s'', hres', hw', hx', hleaf', hremoved, he⟩
  · rw [he] at hzero
    exact absurd hzero hrc.ne
  rw [he, vfsLookup_eq _ q.nul_free c.nul_free, vfsLookup_eq _ q.nul_free c.nul_free]
  congr 1
  funext cs
  rw [hremoved.walk_eq hwf' hw' hx' hleaf', hwalk, ← Option.some.inj (hres.symm.trans hres')]
  split_ifs with hcs
  · rw [hcs, walk_snoc, hw]
    exact hfree.symm
  · rfl

theorem vfsUnlink_vfsMake_tmp_a :
    (vfsUnlink (vfsMake .file vfsInit (lit "/tmp/a") (lit "/") 0 0 0).1 (lit "/tmp/a") (lit "/")).2 = 0 :=
  (vfsUnlink_vfsMake .init .file 0 0 0 ⟨lit "/tmp/a", by decide⟩ ⟨lit "/", by decide⟩ (by decide) .refl).1

/-! ### The laws -/

/-- **`vfs_mkdir`, `vfs_create_file` and `vfs_unlink` change the answer of `vfs_lookup` for their
own path alone**, and only when they succeed. -/
theorem namespace_laws (hs : TreeShaped s) {p : List Byte} (hp : Normalized p) (cwd : CString)
    (mode uid gid : UInt32) :
    CreateLaw s .dir p (vfsMkdir s p cwd.chars mode uid gid) ∧
      CreateLaw s .file p (vfsCreateFile s p cwd.chars mode uid gid) ∧
      UnlinkLaw s p (vfsUnlink s p cwd.chars) :=
  ⟨createLaw_vfsMake hs .dir mode uid gid hp cwd.nul_free,
    createLaw_vfsMake hs .file mode uid gid hp cwd.nul_free,
    unlinkLaw_vfsUnlink hs hp cwd.nul_free⟩

theorem namespace_laws_tmp :
    CreateLaw vfsInit .dir (lit "/tmp") (vfsMkdir vfsInit (lit "/tmp") [slash] 0 0 0) ∧
      CreateLaw vfsInit .file (lit "/tmp") (vfsCreateFile vfsInit (lit "/tmp") [slash] 0 0 0) ∧
      UnlinkLaw vfsInit (lit "/tmp") (vfsUnlink vfsInit (lit "/tmp") [slash]) :=
  namespace_laws (treeShaped_of_wf wf_vfsInit) (p := lit "/tmp")
    ⟨by decide, by decide⟩ ⟨[slash], by decide⟩ 0 0 0

end Tnu.Vfs
