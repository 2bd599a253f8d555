/-
**Writing a file anew.**

What the programs do that copy a file: open it with `O_CREAT` and `O_TRUNC`, write to the descriptor, and
close it.  Of the tree only the contents of that file change, and the file may be new.

Main results:

* `sysOpen_trunc` — **opening for writing anew**;
* `sysWrite_end` — writing at the end of the file.
-/

import Tnu.Sys.Durable
import Tnu.Sys.Unlink
import Tnu.Sys.WriteLaw

set_option autoImplicit false

namespace Tnu.Sys

open Tnu.Vfs

/-! ### The view of a tree -/

def contents (n : VfsNode) : List Byte := n.data.getD []

/-- A tree whose buffers hold what its nodes say, and fit a word. -/
structure Sound (v : Pool) : Prop where
  wf : Wf v
  holds : ∀ n, (v.nodes n).Holds
  size : ∀ n, (v.nodes n).size < 2 ^ 64

variable {normal : List Byte} {v : Pool}

theorem Sound.vfsMake (h : Sound v) (type : NodeType) {path cwd : List Byte} (mode uid gid : UInt32)
    (hp : 0 ∉ path) (hc : 0 ∉ cwd) : Sound (vfsMake type v path cwd mode uid gid).1 where
  wf := vfsMake_of_wf h.wf type mode uid gid hp hc
  holds := nodeLaw_holds.vfsMake h.holds h.wf (fun _ _ => rfl) hp hc
  size := NodeLaw.vfsMake (Q := fun n => n.size < 2 ^ 64) (fun h _ hsize _ => hsize.trans_lt h) h.size h.wf
    (fun _ _ => Nat.two_pow_pos 64) hp hc

theorem Sound.vfsSetContents (h : Sound v) (node : ℕ) {data : List Byte} (hdata : data.length < 2 ^ 64) :
    Sound (vfsSetContents v node data) := by
  refine ⟨(sameLinks_vfsSetContents v node data).wf h.wf, fun n => ?_, fun n => ?_⟩
  · exact nodeLaw_holds.touch (modifyNode_keeps h.holds (holds_set _ data)) node n
  · rw [Vfs.vfsSetContents, nodes_touch_modifyNode]
    by_cases hn : n = node
    · rw [if_pos hn]
      exact hdata
    · rw [if_neg hn]
      exact h.size n

theorem sound_vfsInit : Sound vfsInit := by
  refine (vfsInit_induction (P := Sound) ⟨wf_initRoot, fun _ => rfl, fun _ => Nat.two_pow_pos 64⟩ ?_).2
  exact fun s path mode h0 _ h => h.vfsMake .dir mode 0 0 h0 (by decide)

/-- `/tmp/f` of a user, with one byte in it. -/
def oneByteTree : Pool :=
  vfsSetContents (vfsCreateFile vfsInit (lit "/tmp/f") [slash] (vfsSIfreg ||| 0o644) 1000 1000).1 11 (lit "x")

theorem sound_oneByteTree : Sound oneByteTree :=
  (sound_vfsInit.vfsMake .file _ 1000 1000 (by decide) (by decide)).vfsSetContents 11 (by decide)

/-- Nothing but the contents of node `d`, the table of descriptors and the syncs has changed; node `d` may be
new. -/
structure Rewrote (d : ℕ) (s s' : Kernel) : Prop where
  uid : s'.proc.uid = s.proc.uid
  gid : s'.proc.gid = s.proc.gid
  cwd : s'.proc.cwd = s.proc.cwd
  sound : Sound s'.vfs
  count : s.vfs.nodeCount ≤ s'.vfs.nodeCount
  walk : ∀ q m, walk s.vfs rootNode q = some m → walk s'.vfs rootNode q = some m
  back : ∀ q m, Vfs.walk s'.vfs rootNode q = some m → m ≠ d → Vfs.walk s.vfs rootNode q = some m
  attrs : ∀ m, m < s.vfs.nodeCount → (s'.vfs.nodes m).type = (s.vfs.nodes m).type ∧
    (s'.vfs.nodes m).mode = (s.vfs.nodes m).mode ∧ (s'.vfs.nodes m).uid = (s.vfs.nodes m).uid ∧
    (s'.vfs.nodes m).gid = (s.vfs.nodes m).gid ∧ (s'.vfs.nodes m).name = (s.vfs.nodes m).name
  data : ∀ m, m < s.vfs.nodeCount → m ≠ d → (s'.vfs.nodes m).data = (s.vfs.nodes m).data ∧
    (s'.vfs.nodes m).size = (s.vfs.nodes m).size

variable {s s' s'' : Kernel} {d n : ℕ} {cs q : List (List Byte)} {path : UserString} {flags mode : UInt32}

theorem Sound.lt (h : Sound s.vfs) (hw : Vfs.walk s.vfs rootNode cs = some n) : n < s.vfs.nodeCount :=
  h.wf.walk_lt cs h.wf.count_pos hw

namespace Rewrote

theorem refl (hs : Sound s.vfs) (d : ℕ) : Rewrote d s s where
  uid := rfl
  gid := rfl
  cwd := rfl
  sound := hs
  count := le_rfl
  walk _ _ h := h
  back _ _ h _ := h
  attrs _ _ := ⟨rfl, rfl, rfl, rfl, rfl⟩
  data _ _ _ := ⟨rfl, rfl⟩

theorem trans (h : Rewrote d s s') (h' : Rewrote d s' s'') : Rewrote d s s'' where
  uid := h'.uid.trans h.uid
  gid := h'.gid.trans h.gid
  cwd := h'.cwd.trans h.cwd
  sound := h'.sound
  count := h.count.trans h'.count
  walk q m hq := h'.walk q m (h.walk q m hq)
  back q m hq hm := h.back q m (h'.back q m hq hm) hm
  attrs m hm := by
    obtain ⟨a, b, c, e, f⟩ := h.attrs m hm
    obtain ⟨a', b', c', e', f'⟩ := h'.attrs m (hm.trans_le h.count)
    exact ⟨a'.trans a, b'.trans b, c'.trans c, e'.trans e, f'.trans f⟩
  data m hm hne := by
    obtain ⟨a, b⟩ := h.data m hm hne
    obtain ⟨a', b'⟩ := h'.data m (hm.trans_le h.count) hne
    exact ⟨a'.trans a, b'.trans b⟩

theorem of_vfs (hs : Sound s.vfs) (hvfs : s'.vfs = s.vfs) (huid : s'.proc.uid = s.proc.uid)
    (hgid : s'.proc.gid = s.proc.gid) (hcwd : s'.proc.cwd = s.proc.cwd) (d : ℕ) : Rewrote d s s' where
  uid := huid
  gid := hgid
  cwd := hcwd
  sound := hvfs ▸ hs
  count := hvfs ▸ le_rfl
  walk _ _ h := hvfs ▸ h
  back _ _ h _ := hvfs ▸ h
  attrs m _ := by
    rw [hvfs]
    exact ⟨rfl, rfl, rfl, rfl, rfl⟩
  data m _ _ := by
    rw [hvfs]
    exact ⟨rfl, rfl⟩

theorem sync (h : Rewrote d s s') : Rewrote d s s'.sync :=
  h.trans (of_vfs (by exact h.sound) (by rfl) (by rfl) (by rfl) (by rfl) d)

theorem setFd (h : Rewrote d s s') (i : ℕ) (f : FileDescriptor) : Rewrote d s (s'.setFd i f) :=
  h.trans (of_vfs (by exact h.sound) (by rfl) (by rfl) (by rfl) (by rfl) d)

theorem isRoot_eq (h : Rewrote d s s') : isRoot s'.proc = isRoot s.proc := by rw [isRoot, isRoot, h.uid]

theorem hasPerm_eq (h : Rewrote d s s') (hn : n < s.vfs.nodeCount) (perm : UInt32) :
    hasPerm s'.proc (s'.vfs.nodes n) perm = hasPerm s.proc (s.vfs.nodes n) perm := by
  obtain ⟨-, hmode, huid, hgid, -⟩ := h.attrs n hn
  simp only [hasPerm, hmode, huid, hgid, h.uid, h.gid]

theorem mayUnlink_iff (h : Rewrote d s s') (hs : Sound s.vfs) (hd : (s'.vfs.nodes d).type ≠ .dir) :
    MayUnlink s'.vfs s'.proc q ↔ MayUnlink s.vfs s.proc q := by
  constructor
  · rintro ⟨pc, x, parent, rfl, hw, hdir, hprot, hwrite, hsearch⟩
    have hne : parent ≠ d := fun e => hd (e ▸ hdir)
    have hw' := h.back pc parent hw hne
    have hlt := hs.lt hw'
    rw [h.hasPerm_eq hlt] at hwrite hsearch
    rw [h.isRoot_eq] at hprot
    exact ⟨pc, x, parent, rfl, hw', (h.attrs parent hlt).1.symm.trans hdir, hprot, hwrite, hsearch⟩
  · rintro ⟨pc, x, parent, rfl, hw, hdir, hprot, hwrite, hsearch⟩
    have hlt := hs.lt hw
    rw [← h.hasPerm_eq hlt] at hwrite hsearch
    rw [← h.isRoot_eq] at hprot
    exact ⟨pc, x, parent, rfl, h.walk pc parent hw, (h.attrs parent hlt).1.trans hdir, hprot, hwrite, hsearch⟩

end Rewrote

def Names (s : Kernel) (path : UserString) (cs : List (List Byte)) : Prop :=
  resolve path.str.chars s.proc.cwd.chars = some cs

theorem Names.proper (h : Names s path cs) : Proper cs := proper_of_normalize h

theorem Names.normalize (h : Names s path cs) :
    normalizeForProcess s.proc path.str.chars = some (pathString cs) :=
  normalizeForProcess_eq path.str.nul_free h

theorem Names.lookup (h : Names s path cs) (v : Pool) : vfsLookup v path.str.chars s.proc.cwd.chars =
    Vfs.walk v rootNode cs := by
  rw [vfsLookup_eq v path.str.nul_free s.proc.cwd.nul_free, h, Option.bind_some]

theorem Names.unique {cs' : List (List Byte)} (h : Names s path cs) (h' : Names s path cs') : cs' = cs :=
  Option.some.inj (h'.symm.trans h)

theorem Rewrote.names (h : Rewrote d s s') : Names s' path cs ↔ Names s path cs := by
  rw [Names, Names, h.cwd]

/-! ### The caller's view -/

def nodeAt (s : Kernel) (path : UserString) : Option ℕ := vfsLookup s.vfs path.str.chars s.proc.cwd.chars

def bytesAt (s : Kernel) (path : UserString) : Option (List Byte) :=
  (nodeAt s path).map fun n => contents (s.vfs.nodes n)

/-- Both paths lead to node `n`. -/
def SameNode (s : Kernel) (src dst : UserString) : Prop := (nodeAt s src).isSome ∧ nodeAt s dst = nodeAt s src

theorem nodeAt_of_names (h : Names s path cs) : nodeAt s path = Vfs.walk s.vfs rootNode cs := h.lookup s.vfs

theorem nodeAt_eq_some : nodeAt s path = some n ↔ ∃ cs, Names s path cs ∧ Vfs.walk s.vfs rootNode cs = some n := by
  constructor
  · intro h
    rw [nodeAt, vfsLookup_eq s.vfs path.str.nul_free s.proc.cwd.nul_free, Option.bind_eq_some_iff] at h
    exact h
  · rintro ⟨cs, hnames, hw⟩
    rw [nodeAt_of_names hnames, hw]

theorem bytesAt_of_names (h : Names s path cs) (hw : Vfs.walk s.vfs rootNode cs = some n) :
    bytesAt s path = some (contents (s.vfs.nodes n)) := by
  rw [bytesAt, nodeAt_of_names h, hw, Option.map_some]

theorem bytesAt_of_vfs (h : Rewrote d s s') (hvfs : s'.vfs = s.vfs) : bytesAt s' path = bytesAt s path := by
  rw [bytesAt, bytesAt, nodeAt, nodeAt, hvfs, h.cwd]

/-! ### Removing -/

/-- `SYS_UNLINK` on a path of the caller. -/
def unlinkUser (s : Kernel) (path : UserString) : Kernel × ℤ :=
  if ustrOk path.ptr = false then (s, -1) else sysUnlink s path.str.chars

theorem contents_of_unlinked (h : Unlinked s cs v) (m : ℕ) :
    contents (v.nodes m) = contents (s.vfs.nodes m) := by
  obtain ⟨pc, x, parent, target, -, -, -, -, hrem⟩ := h.leaf
  obtain ⟨t, c, y, hnode⟩ := hrem.node m
  rw [hnode]
  rfl

theorem type_of_unlinked (h : Unlinked s cs v) (m : ℕ) : (v.nodes m).type = (s.vfs.nodes m).type := by
  obtain ⟨pc, x, parent, target, -, -, -, -, hrem⟩ := h.leaf
  obtain ⟨t, c, y, hnode⟩ := hrem.node m
  rw [hnode]

theorem unlinkUser_of_leaf (hs : Wf s.vfs) (hnames : Names s path cs) (hptr : ustrOk path.ptr = true)
    (hw : Vfs.walk s.vfs rootNode cs = some n) (hdir : (s.vfs.nodes n).type ≠ .dir) :
    (MayUnlink s.vfs s.proc cs → ∃ s', Unlinked s cs s'.vfs ∧ s'.proc = s.proc ∧ unlinkUser s path = (s', 0)) ∧
      (¬ MayUnlink s.vfs s.proc cs → unlinkUser s path = (s, -1)) := by
  have hptr' : ¬ ustrOk path.ptr = false := by rw [hptr]; decide
  rw [unlinkUser, if_neg hptr']
  constructor
  · intro hmay
    obtain ⟨v, hv, he⟩ :=
      sysUnlink_of_leaf hs path.str.nul_free hnames hmay hw (firstChild_of_not_dir hs hw hdir)
    exact ⟨{ s with vfs := v }.sync, hv, rfl, he⟩
  · exact fun hmay => sysUnlink_of_not_may path.str.nul_free hnames fun e => hmay e.1

theorem nodeAt_unlinked (hs : Wf s.vfs) (h : Unlinked s cs s'.vfs) (hproc : s'.proc = s.proc) (hnames : Names s path cs) :
    nodeAt s' path = none := by
  have hnames' : Names s' path cs := by rw [Names, hproc]; exact hnames
  rw [nodeAt_of_names hnames', h.walk_eq hs, if_pos rfl]

theorem nodeAt_of_unlinked (hs : Wf s.vfs) (h : Unlinked s cs s'.vfs) (hproc : s'.proc = s.proc)
    (hnames : Names s path q) (hne : q ≠ cs) : nodeAt s' path = Vfs.walk s.vfs rootNode q := by
  have hnames' : Names s' path q := by rw [Names, hproc]; exact hnames
  rw [nodeAt_of_names hnames', h.walk_eq hs, if_neg hne]

/-! ### Opening -/

/-- The caller may open the node for reading, and has a descriptor for it. -/
structure Readable (s : Kernel) (path : UserString) (cs : List (List Byte)) (n i : ℕ) : Prop where
  ptr : ustrOk path.ptr = true
  found : Vfs.walk s.vfs rootNode cs = some n
  allowed : openRefused s.proc (s.vfs.nodes n) (pathString cs) 0 = false
  slot : freeFd s.proc = some i

theorem sysOpen_of_nameless (h : ¬ ∃ cs, Names s path cs) (flags mode : UInt32) :
    sysOpen s path flags mode = (s, -1) := by
  have hnone : normalizeForProcess s.proc path.str.chars = none := by
    cases hn : normalizeForProcess s.proc path.str.chars with
    | none => rfl
    | some normal =>
      obtain ⟨cs, hcs, -⟩ := normalizeForProcess_eq_some.1 hn
      exact absurd ⟨cs, hcs⟩ h
  rw [sysOpen, hnone]
  exact ite_self _

theorem has_zero (mask : UInt32) : has 0 mask = false := by
  rw [has, decide_eq_false_iff_not, not_not]
  exact UInt32.zero_and

/-- **Opening for reading** takes a descriptor or changes nothing. -/
theorem sysOpen_rdonly (hnames : Names s path cs) (mode : UInt32) :
    (∃ n i, Readable s path cs n i ∧ sysOpen s path 0 mode =
      ({ s with proc := s.proc.setFd i (openedFd s n 0 i) }, (i : ℤ))) ∨
      (¬ ∃ n i, Readable s path cs n i) ∧ sysOpen s path 0 mode = (s, -1) := by
  have hlookup : vfsLookup s.vfs (pathString cs) [slash] = Vfs.walk s.vfs rootNode cs :=
    vfsLookup_pathString s.vfs hnames.proper (by decide)
  rw [sysOpen]
  by_cases hptr : ustrOk path.ptr = false
  · rw [if_pos hptr]
    refine .inr ⟨?_, rfl⟩
    rintro ⟨n, i, h⟩
    rw [h.ptr] at hptr
    cases hptr
  rw [if_neg hptr, hnames.normalize]
  dsimp only
  cases hw : Vfs.walk s.vfs rootNode cs with
  | none =>
    have hnode : openNode s (pathString cs) 0 mode = (s, none) := by
      rw [openNode, hlookup, hw, has_zero]
      rfl
    rw [hnode]
    refine .inr ⟨?_, rfl⟩
    rintro ⟨n, i, h⟩
    have := h.found
    rw [hw] at this
    cases this
  | some n =>
    have hnode : openNode s (pathString cs) 0 mode = (s, some n) := by
      rw [openNode_of_found (hlookup.trans hw), has_zero]
      rfl
    rw [hnode]
    dsimp only
    have hunique {m i : ℕ} (h : Readable s path cs m i) : m = n := Option.some.inj (h.found.symm.trans hw)
    cases href : openRefused s.proc (s.vfs.nodes n) (pathString cs) 0 with
    | true =>
      rw [openFound_of_refused href]
      refine .inr ⟨?_, rfl⟩
      rintro ⟨m, i, h⟩
      obtain rfl := hunique h
      rw [h.allowed] at href
      cases href
    | false =>
      have hvfs : openedVfs s.vfs n 0 = s.vfs := openedVfs_of_false (by rw [truncates, has_zero]; rfl)
      rw [openFound_of_allowed href, hvfs]
      cases hfree : freeFd s.proc with
      | none =>
        refine .inr ⟨?_, rfl⟩
        rintro ⟨m, i, h⟩
        have := h.slot
        rw [hfree] at this
        cases this
      | some i => exact .inl ⟨n, i, ⟨by simpa using hptr, hw, href, hfree⟩, rfl⟩

theorem Rewrote.of_node (hs : Sound s.vfs) (hlinks : SameLinks s.vfs v)
    (hother : ∀ m, m ≠ d → v.nodes m = s.vfs.nodes m) (hmode : (v.nodes d).mode = (s.vfs.nodes d).mode)
    (huid : (v.nodes d).uid = (s.vfs.nodes d).uid) (hgid : (v.nodes d).gid = (s.vfs.nodes d).gid)
    (hholds : (v.nodes d).Holds) (hsize : (v.nodes d).size < 2 ^ 64) :
    Rewrote d s { s with vfs := v } where
  uid := rfl
  gid := rfl
  cwd := rfl
  sound := by
    refine ⟨hlinks.wf hs.wf, fun m => ?_, fun m => ?_⟩
    · by_cases hm : m = d
      · exact hm ▸ hholds
      · exact (hother m hm).symm ▸ hs.holds m
    · by_cases hm : m = d
      · exact hm ▸ hsize
      · exact (hother m hm).symm ▸ hs.size m
  count := hlinks.count.symm.le
  walk q m hq := (hlinks.walk_eq rootNode q).trans hq
  back q m hq _ := (hlinks.walk_eq rootNode q).symm.trans hq
  attrs m _ := by
    refine ⟨hlinks.type m, ?_, ?_, ?_, hlinks.name m⟩
    all_goals
      by_cases hm : m = d
      · subst hm
        assumption
      · dsimp only
        rw [hother m hm]
  data m _ hne := by
    dsimp only
    rw [hother m hne]
    exact ⟨rfl, rfl⟩

theorem rewrote_openedVfs (hs : Sound s.vfs) (d : ℕ) (flags : UInt32) :
    Rewrote d s { s with vfs := openedVfs s.vfs d flags } := by
  rw [openedVfs]
  split_ifs
  · refine .of_node hs (SameLinks.modifyNode s.vfs d truncated rfl rfl rfl rfl rfl)
      (fun m hm => Pool.nodes_modifyNode_of_ne _ _ hm) ?_ ?_ ?_ ?_ ?_ <;> rw [Pool.nodes_modifyNode_self]
    · rfl
    · rfl
    · rfl
    · rfl
    · exact Nat.two_pow_pos 64
  · exact .refl hs d

theorem rewrote_addLeaf (hs : Sound s.vfs) {parent : ℕ} {x : List Byte} {pc : List (List Byte)} {node : VfsNode}
    (hw : Vfs.walk s.vfs rootNode pc = some parent) (hdir : (s.vfs.nodes parent).type = .dir)
    (hroom : s.vfs.nodeCount < vfsMaxNodes) (hnode : node.firstChild = none) (hname : node.name.chars = x)
    (hx : ValidName x) (hnew : findChild s.vfs parent x = none) (hholds : node.Holds)
    (hsize : node.size < 2 ^ 64) :
    Rewrote s.vfs.nodeCount s { s with vfs := addLeaf s.vfs parent node } := by
  have hlt := hs.lt hw
  have hnew' : findChild s.vfs parent node.name.chars = none := by rw [hname]; exact hnew
  have hwalk (q : List (List Byte)) : Vfs.walk (addLeaf s.vfs parent node) rootNode q =
      if q = pc ++ [x] then some s.vfs.nodeCount else Vfs.walk s.vfs rootNode q := by
    rw [walk_addLeaf hs.wf hw hnode hnew', hname]
  refine ⟨rfl, rfl, rfl, ⟨wf_addLeaf hs.wf hlt hdir hroom hnode (by rw [hname]; exact hx) hnew', fun n => ?_,
    fun n => ?_⟩, Nat.le_succ _, fun q m hq => ?_, fun q m hq hne => ?_, fun m hm => ?_, fun m hm _ => ?_⟩
  · obtain ⟨base, p, c, y, hbase, hn⟩ := nodes_addLeaf s.vfs node hlt n
    rw [hn]
    rcases hbase with rfl | rfl
    · exact hholds.of_eq rfl rfl
    · exact (hs.holds n).of_eq rfl rfl
  · obtain ⟨base, p, c, y, hbase, hn⟩ := nodes_addLeaf s.vfs node hlt n
    rw [hn]
    rcases hbase with rfl | rfl
    · exact hsize
    · exact hs.size n
  · refine (hwalk q).trans ?_
    rw [if_neg, hq]
    rintro rfl
    rw [walk_snoc, hw, Option.bind_some, hnew] at hq
    cases hq
  · have hq' := (hwalk q).symm.trans hq
    split_ifs at hq' with hqx
    · exact absurd (Option.some.inj hq').symm hne
    · exact hq'
  · obtain ⟨c, hc, -⟩ := nodes_addLeaf_old node hlt hm
    dsimp only
    rw [hc]
    exact ⟨rfl, rfl, rfl, rfl, rfl⟩
  · obtain ⟨c, hc, -⟩ := nodes_addLeaf_old node hlt hm
    dsimp only
    rw [hc]
    exact ⟨rfl, rfl⟩

/-- The flags of a file that is written anew. -/
structure Anew (flags : UInt32) : Prop where
  creat : has flags vfsOCreat = true
  trunc : has flags vfsOTrunc = true
  excl : has flags vfsOExcl = false
  append : has flags vfsOAppend = false

theorem Anew.wantsWrite (h : Anew flags) : wantsWrite flags = true := wantsWrite_of_trunc h.trunc

/-- The caller may open node `d` for writing: it is there, or it is made. -/
structure Writable (s : Kernel) (path : UserString) (cs : List (List Byte)) (flags mode : UInt32) (d : ℕ) :
    Prop where
  ptr : ustrOk path.ptr = true
  may : (Vfs.walk s.vfs rootNode cs = some d ∧ openRefused s.proc (s.vfs.nodes d) (pathString cs) flags = false) ∨
    (OpenCreates s (pathString cs) flags ∧ CreatorMay s.proc flags mode ∧ d = s.vfs.nodeCount)

/-- Node `d` is there, and empty when it is a file. -/
structure Emptied (s s' : Kernel) (cs : List (List Byte)) (d : ℕ) : Prop where
  rewrote : Rewrote d s s'
  proc : s'.proc = s.proc
  found : Vfs.walk s'.vfs rootNode cs = some d
  not_dir : (s'.vfs.nodes d).type ≠ .dir
  empty : (s'.vfs.nodes d).type = .file → contents (s'.vfs.nodes d) = [] ∧ (s'.vfs.nodes d).size = 0
  kept : (s'.vfs.nodes d).type ≠ .file → Vfs.walk s.vfs rootNode cs = some d ∧
    contents (s'.vfs.nodes d) = contents (s.vfs.nodes d)

def anewFd (flags : UInt32) (d : ℕ) (dirty : Bool) : FileDescriptor := ⟨true, dirty, flags, 0, some d⟩

/-- What is left to do, when there is a descriptor and when there is none. -/
def handOut (s : Kernel) (flags : UInt32) (d : ℕ) (dirty : ℕ → Bool) : Kernel × ℤ :=
  match freeFd s.proc with
  | none => (s, -1)
  | some i => (s.setFd i (anewFd flags d (dirty i)), i)

theorem Emptied.trans (h : Emptied s s' cs d) (h' : Emptied s' s'' cs d) : Emptied s s'' cs d where
  rewrote := h.rewrote.trans h'.rewrote
  proc := h'.proc.trans h.proc
  found := h'.found
  not_dir := h'.not_dir
  empty := h'.empty
  kept hfile := by
    obtain ⟨-, heq⟩ := h'.kept hfile
    have htype := (h'.rewrote.attrs d (h.rewrote.sound.lt h.found)).1
    obtain ⟨hw, heq'⟩ := h.kept fun e => hfile (htype.trans e)
    exact ⟨hw, heq.trans heq'⟩

theorem not_dir_of_allowed {proc : Process} {node : VfsNode}
    (h : openRefused proc node normal flags = false) (hw : wantsWrite flags = true) : node.type ≠ .dir := by
  rw [openRefused, hw] at h
  simp only [Bool.true_and, Bool.or_eq_false_iff, decide_eq_false_iff_not] at h
  exact h.2

theorem openFound_anew (hf : Anew flags) (hs : Sound s.vfs) (hw : Vfs.walk s.vfs rootNode cs = some d)
    (h : openRefused s.proc (s.vfs.nodes d) normal flags = false) :
    ∃ s₁ dirty, Emptied s s₁ cs d ∧ openFound s normal d flags = handOut s₁ flags d dirty := by
  have hre := rewrote_openedVfs hs d flags
  have htype := type_openedVfs s.vfs d d flags
  have hdir := not_dir_of_allowed h hf.wantsWrite
  refine ⟨{ s with vfs := openedVfs s.vfs d flags }, fun i => (openedFd s d flags i).dirty,
    ⟨hre, rfl, hre.walk cs d hw, fun e => hdir (htype.symm.trans e), fun hfile => ?_, fun hfile => ⟨hw, ?_⟩⟩, ?_⟩
  · have htrunc : truncates (s.vfs.nodes d) flags = true := by
      rw [truncates, hf.trunc]
      exact decide_eq_true (htype.symm.trans hfile)
    dsimp only
    rw [openedVfs, if_pos htrunc, Pool.nodes_modifyNode_self]
    exact ⟨rfl, rfl⟩
  · have htrunc : truncates (s.vfs.nodes d) flags = false := by
      rw [truncates, hf.trunc]
      exact decide_eq_false fun e => hfile (htype.trans e)
    dsimp only
    rw [openedVfs_of_false htrunc]
  · rw [openFound_of_allowed h, handOut]
    cases freeFd s.proc with
    | none => rfl
    | some i =>
      have hfd : openedFd s d flags i = anewFd flags d (openedFd s d flags i).dirty := by
        rw [openedFd, hf.append]
        rfl
      dsimp only
      rw [hfd]
      rfl

theorem openNode_anew (hs : Sound s.vfs) (hcs : Proper cs) (h : OpenCreates s (pathString cs) flags) :
    ∃ s₁, openNode s (pathString cs) flags mode = (s₁, some s.vfs.nodeCount) ∧
      Emptied s s₁ cs s.vfs.nodeCount ∧ (s₁.vfs.nodes s.vfs.nodeCount).type = .file ∧
      (openRefused s₁.proc (s₁.vfs.nodes s.vfs.nodeCount) (pathString cs) flags = true ↔
        ¬ CreatorMay s.proc flags mode) := by
  obtain ⟨pc, x, parent, rfl, hw, hlt, hnode⟩ := openNode_of_creates mode hs.wf hcs h
  obtain ⟨parent', hw', hdir, -⟩ := (canCreateInParent_iff hcs).1 h.parent
  obtain rfl := Option.some.inj (hw'.symm.trans hw)
  have hx : ValidName x := hcs.valid x (by simp)
  have hname : (openedLeaf s x mode).name.chars = x := leafNode_name s.vfs hx ..
  have hnew : findChild s.vfs parent' x = none := by
    have hmiss := h.missing
    rwa [vfsLookup_pathString s.vfs hcs (by decide), walk_snoc, hw, Option.bind_some] at hmiss
  have hre : Rewrote s.vfs.nodeCount s { s with vfs := addLeaf s.vfs parent' (openedLeaf s x mode) } :=
    rewrote_addLeaf hs hw hdir h.room rfl hname hx hnew rfl (Nat.two_pow_pos 64)
  have hleaf : (addLeaf s.vfs parent' (openedLeaf s x mode)).nodes s.vfs.nodeCount = _ :=
    nodes_addLeaf_new _ hlt
  have hfile : ((addLeaf s.vfs parent' (openedLeaf s x mode)).nodes s.vfs.nodeCount).type = .file :=
    congrArg VfsNode.type hleaf
  have hempty : contents ((addLeaf s.vfs parent' (openedLeaf s x mode)).nodes s.vfs.nodeCount) = [] ∧
      ((addLeaf s.vfs parent' (openedLeaf s x mode)).nodes s.vfs.nodeCount).size = 0 := by
    rw [hleaf]
    exact ⟨rfl, rfl⟩
  have hrefused : openRefused s.proc ((addLeaf s.vfs parent' (openedLeaf s x mode)).nodes s.vfs.nodeCount)
      (pathString (pc ++ [x])) flags = true ↔ ¬ CreatorMay s.proc flags mode := by
    rw [hleaf]
    exact openRefused_created rfl rfl rfl h.unprotected
  have hfound := walk_addLeaf hs.wf hw (show (openedLeaf s x mode).firstChild = none from rfl) (by rw [hname]; exact hnew) (pc ++ [x])
  rw [hname, if_pos rfl] at hfound
  refine ⟨_, hnode, ⟨hre.sync, rfl, hfound, fun e => ?_, fun _ => hempty, fun hne => absurd hfile hne⟩, hfile,
    hrefused⟩
  cases hfile.symm.trans e

variable (mode) in
/-- **Opening a file anew.** -/
theorem sysOpen_trunc (hf : Anew flags) (hs : Sound s.vfs) (hnames : Names s path cs) :
    (∃ d s₁ dirty, Writable s path cs flags mode d ∧ Emptied s s₁ cs d ∧
      sysOpen s path flags mode = handOut s₁ flags d dirty) ∨
      (¬ ∃ d, Writable s path cs flags mode d) ∧ (sysOpen s path flags mode).2 = -1 ∧
        ((∃ d, Vfs.walk s.vfs rootNode cs = some d) ∨ CreatorMay s.proc flags mode →
          (sysOpen s path flags mode).1 = s) := by
  have hlookup : vfsLookup s.vfs (pathString cs) [slash] = Vfs.walk s.vfs rootNode cs :=
    vfsLookup_pathString s.vfs hnames.proper (by decide)
  rw [sysOpen]
  by_cases hptr : ustrOk path.ptr = false
  · rw [if_pos hptr]
    refine .inr ⟨?_, rfl, fun _ => rfl⟩
    rintro ⟨d, h⟩
    rw [h.ptr] at hptr
    cases hptr
  rw [if_neg hptr, hnames.normalize]
  dsimp only
  cases hw : Vfs.walk s.vfs rootNode cs with
  | some d =>
    have hnode : openNode s (pathString cs) flags mode = (s, some d) := by
      rw [openNode_of_found (hlookup.trans hw), hf.excl, Bool.and_false]
      rfl
    rw [hnode]
    dsimp only
    cases href : openRefused s.proc (s.vfs.nodes d) (pathString cs) flags with
    | false =>
      obtain ⟨s₁, dirty, hemptied, he⟩ := openFound_anew hf hs hw href
      exact .inl ⟨d, s₁, dirty, ⟨by simpa using hptr, .inl ⟨hw, href⟩⟩, hemptied, he⟩
    | true =>
      rw [openFound_of_refused href]
      refine .inr ⟨?_, rfl, fun _ => rfl⟩
      rintro ⟨e, -, ⟨he, hallowed⟩ | ⟨hcreates, -⟩⟩
      · obtain rfl := Option.some.inj (he.symm.trans hw)
        rw [hallowed] at href
        cases href
      · have := hcreates.missing
        rw [hlookup, hw] at this
        cases this
  | none =>
    by_cases hcreates : OpenCreates s (pathString cs) flags
    · obtain ⟨s₁, hnode, hmade, -, href⟩ := openNode_anew hs hnames.proper hcreates
      rw [hnode]
      dsimp only
      cases hallowed : openRefused s₁.proc (s₁.vfs.nodes s.vfs.nodeCount) (pathString cs) flags with
      | true =>
        have hmay := href.1 hallowed
        rw [openFound_of_refused hallowed]
        refine .inr ⟨?_, rfl, ?_⟩
        · rintro ⟨e, -, ⟨he, -⟩ | ⟨-, h, -⟩⟩
          · rw [hw] at he
            cases he
          · exact hmay h
        · rintro (⟨e, he⟩ | h)
          · cases he
          · exact absurd h hmay
      | false =>
        have hmay : CreatorMay s.proc flags mode := by
          by_contra hnot
          rw [href.2 hnot] at hallowed
          cases hallowed
        obtain ⟨s₂, dirty, hemptied, he⟩ := openFound_anew hf hmade.rewrote.sound hmade.found hallowed
        exact .inl ⟨s.vfs.nodeCount, s₂, dirty, ⟨by simpa using hptr, .inr ⟨hcreates, hmay, rfl⟩⟩,
          hmade.trans hemptied, he⟩
    · rw [openNode_of_missing hnames.proper (hlookup.trans hw) hcreates]
      refine .inr ⟨?_, rfl, fun _ => rfl⟩
      rintro ⟨e, -, ⟨he, -⟩ | ⟨h, -⟩⟩
      · rw [hw] at he
        cases he
      · exact hcreates h

/-! ### Writing -/

variable {dev : Devices} {i : ℕ} {f : FileDescriptor} {buf : UserBuf}

def grown (n : VfsNode) (bytes : List Byte) (clock : ℕ) : VfsNode :=
  { n with data := some (contents n ++ bytes), size := n.size + bytes.length, dataBorrowed := false, modified := clock }

theorem vfsWriteNode_end (kmalloc : ℕ → Bool) {bytes : List Byte} (htype : (v.nodes d).type = .file)
    (hholds : (v.nodes d).Holds) (hne : bytes ≠ []) (hfit : (v.nodes d).size + bytes.length < 2 ^ 64) :
    ∃ v', vfsWriteNode kmalloc v d (v.nodes d).size bytes =
        (if kmalloc ((v.nodes d).size + bytes.length + 1) then some (v', (bytes.length : ℤ)) else some (v, -1)) ∧
      SameLinks v v' ∧ (∀ m, m ≠ d → v'.nodes m = v.nodes m) ∧
      v'.nodes d = grown (v.nodes d) bytes (v.clock + 1) := by
  have hlast : ((v.nodes d).size + bytes.length) % 2 ^ 64 = (v.nodes d).size + bytes.length :=
    Nat.mod_eq_of_lt hfit
  have hpos : 0 < bytes.length := List.length_pos_iff.2 hne
  have hmax : max ((v.nodes d).size + bytes.length) (v.nodes d).size = (v.nodes d).size + bytes.length := by
    omega
  have hlen : (contents (v.nodes d)).length = (v.nodes d).size := hholds
  have hblit : blit (contents (v.nodes d) ++ List.replicate ((v.nodes d).size + bytes.length - (v.nodes d).size) 0)
      (v.nodes d).size bytes = some (contents (v.nodes d) ++ bytes) := by
    rw [blit, if_neg (by simp [hlen]), ← hlen, Nat.add_sub_cancel_left, List.take_left, List.drop_of_length_le (by simp),
      List.append_nil]
  refine ⟨(v.modifyNode d fun n => { n with
    data := some (contents (v.nodes d) ++ bytes), size := (v.nodes d).size + bytes.length,
    dataBorrowed := false }).touch d, ?_, ?_, fun m hm => ?_, ?_⟩
  · rw [vfsWriteNode]
    simp only [htype, ne_eq, not_true_eq_false, if_false, hlast, hmax]
    rw [if_pos (.inl (by omega)), hholds.oldBytes, Option.bind_some]
    cases kmalloc ((v.nodes d).size + bytes.length + 1) with
    | false => rfl
    | true =>
      rw [if_neg (by decide), if_pos rfl]
      exact congrArg (Option.map _) hblit
  · exact (SameLinks.modifyNode v d _ rfl rfl rfl rfl rfl).trans (SameLinks.touch _ d)
  · rw [nodes_touch_modifyNode, if_neg hm]
  · rw [nodes_touch_modifyNode, if_pos rfl]
    rfl

/-- Descriptor `i` is open for writing to node `d`. -/
structure WriteFd (s : Kernel) (i d : ℕ) (f : FileDescriptor) : Prop where
  slot : 3 ≤ i
  open_ : processGetFd s.proc i = some f
  mode : has f.flags vfsOWronly = true ∨ has f.flags vfsORdwr = true
  append : has f.flags vfsOAppend = false
  node : f.node = some d

/-- And it is at the end of a file. -/
structure AtEnd (s : Kernel) (i d : ℕ) (f : FileDescriptor) : Prop extends WriteFd s i d f where
  file : (s.vfs.nodes d).type = .file
  offset : f.offset = (s.vfs.nodes d).size

theorem WriteFd.not_std (h : WriteFd s i d f) : ¬ ((i : ℤ) = 1 ∨ (i : ℤ) = 2) := by
  have := h.slot
  omega

theorem WriteFd.not_closed (h : WriteFd s i d f) : ¬ (has f.flags vfsOWronly = false ∧ has f.flags vfsORdwr = false) := by
  rintro ⟨h₁, h₂⟩
  rcases h.mode with hm | hm
  · rw [h₁] at hm
    cases hm
  · rw [h₂] at hm
    cases hm

theorem setFd_of_get (h : processGetFd s.proc i = some f) : s.setFd i f = s := by
  obtain ⟨-, -, -, rfl⟩ := processGetFd_eq_some.1 h
  rw [Int.toNat_natCast, Kernel.setFd, Process.setFd, Function.update_eq_self]

theorem get_setFd (h : processGetFd s.proc i = some f) {f' : FileDescriptor} (hused : f'.used = true) :
    processGetFd (s.proc.setFd i f') i = some f' := by
  obtain ⟨h0, hlt, -⟩ := processGetFd_eq_some.1 h
  refine processGetFd_eq_some.2 ⟨h0, hlt, ?_, ?_⟩
  · rw [Int.toNat_natCast, Process.setFd_self]
    exact hused
  · rw [Int.toNat_natCast, Process.setFd_self]

variable (dev buf) in
/-- **Writing at the end of a file** appends all bytes or none. -/
theorem sysWrite_end (hs : Sound s.vfs) (h : AtEnd s i d f) (hne : buf.bytes ≠ [])
    (hfit : (s.vfs.nodes d).size + buf.bytes.length < 2 ^ 64) :
    ∃ s' f', sysWrite dev s i buf =
        (if uptrOk buf.ptr buf.bytes.length && dev.kmalloc ((s.vfs.nodes d).size + buf.bytes.length + 1) then
          some (s', (buf.bytes.length : ℤ), Output.nothing) else some (s, -1, Output.nothing)) ∧
      Rewrote d s s' ∧ contents (s'.vfs.nodes d) = contents (s.vfs.nodes d) ++ buf.bytes ∧
      s'.proc = s.proc.setFd i f' ∧ AtEnd s' i d f' := by
  obtain ⟨v, hwrite, hlinks, hother, hself⟩ :=
    vfsWriteNode_end dev.kmalloc h.file (hs.holds d) hne hfit
  have hpos : 0 < buf.bytes.length := List.length_pos_iff.2 hne
  have hre : Rewrote d s { s with vfs := v } := by
    refine .of_node hs hlinks hother ?_ ?_ ?_ ?_ ?_ <;> rw [hself]
    · rfl
    · rfl
    · rfl
    · have hlen : (contents (s.vfs.nodes d)).length = (s.vfs.nodes d).size := hs.holds d
      exact List.length_append.trans (by rw [hlen]; rfl)
    · exact hfit
  have hused : f.used = true := by
    obtain ⟨-, -, hused, rfl⟩ := processGetFd_eq_some.1 h.open_
    exact hused
  refine ⟨{ s with vfs := v }.setFd i { f with
    offset := (s.vfs.nodes d).size + buf.bytes.length, dirty := true }, _, ?_, hre.setFd i _, ?_, rfl, ?_⟩
  · have hdev : (s.vfs.nodes d).type ≠ .dev := by
      rw [h.file]
      decide
    rw [sysWrite]
    cases hptr : uptrOk buf.ptr buf.bytes.length with
    | false => rw [if_pos ⟨hpos, rfl⟩, Bool.false_and, if_neg Bool.false_ne_true]
    | true =>
      have hnull : buf.ptr ≠ 0 := fun h0 => by
        rw [h0] at hptr
        simp [uptrOk] at hptr
      rw [if_neg (by simp), if_neg h.not_std, h.open_]
      dsimp only
      rw [if_neg h.not_closed, h.node, Option.bind_some, if_neg hdev, writeNode, h.append]
      simp only [Bool.false_eq_true, if_false, if_neg hnull, Bool.true_and]
      have hsame : s.setFd (i : ℤ).toNat { f with offset := f.offset } = s := setFd_of_get h.open_
      rw [hsame, h.offset, hwrite]
      cases dev.kmalloc ((s.vfs.nodes d).size + buf.bytes.length + 1) with
      | false => rfl
      | true =>
        have hgrew : (0 : ℤ) < buf.bytes.length := by exact_mod_cast hpos
        rw [if_pos rfl, if_pos rfl, Option.map_some]
        dsimp only
        rw [if_pos hgrew, Int.toNat_natCast, Int.toNat_natCast, Nat.mod_eq_of_lt hfit, h.node]
  · show contents (v.nodes d) = _
    rw [hself]
    rfl
  · refine ⟨⟨h.slot, get_setFd h.open_ hused, h.mode, h.append, h.node⟩, ?_, ?_⟩
    · show (v.nodes d).type = .file
      rw [hself]
      exact h.file
    · show _ = (v.nodes d).size
      rw [hself]
      rfl

def specialRc (dev : Devices) (n : VfsNode) (buf : UserBuf) : ℤ :=
  if uptrOk buf.ptr buf.bytes.length ∧ n.type = .dev then (writeDevice dev n.name.chars buf).1 else -1

variable (dev buf) in
/-- **Writing to what is no file** leaves the tree alone. -/
theorem sysWrite_special (h : WriteFd s i d f) (hfile : (s.vfs.nodes d).type ≠ .file) (hne : buf.bytes ≠ []) :
    ∃ out, sysWrite dev s i buf = some (s, specialRc dev (s.vfs.nodes d) buf, out) := by
  have hpos : 0 < buf.bytes.length := List.length_pos_iff.2 hne
  rw [sysWrite, specialRc]
  cases hptr : uptrOk buf.ptr buf.bytes.length with
  | false =>
    rw [if_pos ⟨hpos, rfl⟩, if_neg (by simp)]
    exact ⟨_, rfl⟩
  | true =>
    rw [if_neg (by simp), if_neg h.not_std, h.open_]
    dsimp only
    rw [if_neg h.not_closed, h.node, Option.bind_some]
    by_cases hdev : (s.vfs.nodes d).type = .dev
    · rw [if_pos hdev, if_pos ⟨rfl, hdev⟩]
      exact ⟨_, rfl⟩
    · have hsame : s.setFd (i : ℤ).toNat { f with offset := f.offset } = s := setFd_of_get h.open_
      rw [if_neg hdev, if_neg fun e => hdev e.2, writeNode, h.append]
      simp only [Bool.false_eq_true, if_false]
      rw [hsame, vfsWriteNode]
      dsimp only
      rw [if_pos hfile]
      exact ⟨_, ite_self _⟩

/-! ### Reading -/

/-- Descriptor `i` is open for reading node `n`. -/
structure ReadFd (s : Kernel) (i n : ℕ) (f : FileDescriptor) : Prop where
  slot : 3 ≤ i
  open_ : processGetFd s.proc i = some f
  mode : has f.flags vfsOWronly = false
  node : f.node = some n

variable (dev) in
/-- **Reading a file** gives its bytes from the offset on. -/
theorem sysRead_file (hs : Sound s.vfs) (h : ReadFd s i n f) (hdir : (s.vfs.nodes n).type ≠ .dir)
    (hdev : (s.vfs.nodes n).type ≠ .dev) {addr count : ℕ} (hptr : uptrOk addr count = true) (hcount : 0 < count) :
    sysRead dev s i addr count = some (
      if (s.vfs.nodes n).size ≤ f.offset then (s, 0, [])
      else
        let chunk := ((contents (s.vfs.nodes n)).drop f.offset).take count
        (s.setFd i { f with offset := f.offset + chunk.length }, (chunk.length : ℤ), chunk)) := by
  have hlen : (contents (s.vfs.nodes n)).length = (s.vfs.nodes n).size := hs.holds n
  have hzero : ¬ (i : ℤ) = 0 := by
    have := h.slot
    omega
  have hnull : addr ≠ 0 := fun h0 => by
    rw [h0] at hptr
    simp [uptrOk] at hptr
  have hno : ¬ (addr = 0 ∨ (s.vfs.nodes n).type = .dir) := not_or.2 ⟨hnull, hdir⟩
  have hclosed : ¬ has f.flags vfsOWronly = true := by
    rw [h.mode]
    decide
  rw [sysRead, if_neg (by simp [hptr]), if_neg hzero, h.open_]
  dsimp only
  rw [if_neg hclosed, h.node, Option.bind_some, if_neg hdev, vfsReadNode, if_neg hno]
  by_cases hend : (s.vfs.nodes n).size ≤ f.offset
  · rw [if_pos hend, if_pos hend, Option.map_some]
    rfl
  · have hsize := hs.size n
    have hchunk : (((contents (s.vfs.nodes n)).drop f.offset).take count).length =
        min count ((s.vfs.nodes n).size - f.offset) := by
      rw [List.length_take, List.length_drop, hlen]
    have htake : ((contents (s.vfs.nodes n)).drop f.offset).take (min count ((s.vfs.nodes n).size - f.offset)) =
        ((contents (s.vfs.nodes n)).drop f.offset).take count := by
      rw [← hlen, ← List.length_drop, ← List.take_take, List.take_length]
    obtain ⟨bytes, hbytes⟩ : ∃ bytes, (s.vfs.nodes n).data = some bytes := by
      cases hdata : (s.vfs.nodes n).data with
      | none =>
        rw [contents, hdata, Option.getD_none, List.length_nil] at hlen
        omega
      | some bytes => exact ⟨bytes, rfl⟩
    have hcontents : contents (s.vfs.nodes n) = bytes := by rw [contents, hbytes, Option.getD_some]
    have hpos : (0 : ℤ) < ((min count ((s.vfs.nodes n).size - f.offset) : ℕ) : ℤ) := by omega
    rw [if_neg hend, if_neg hend, hbytes, Option.bind_some, ← hcontents, if_neg (by omega), Option.map_some, htake]
    dsimp only
    rw [if_pos hpos, Int.toNat_natCast, Int.toNat_natCast, Nat.mod_eq_of_lt (by omega), hchunk]

variable (dev) in
/-- **A directory** cannot be read. -/
theorem sysRead_dir (h : ReadFd s i n f) (hdir : (s.vfs.nodes n).type = .dir) (addr count : ℕ) :
    sysRead dev s i addr count = some (s, -1, []) := by
  have hzero : ¬ (i : ℤ) = 0 := by
    have := h.slot
    omega
  have hclosed : ¬ has f.flags vfsOWronly = true := by
    rw [h.mode]
    decide
  have hdev : (s.vfs.nodes n).type ≠ .dev := by
    rw [hdir]
    decide
  rw [sysRead]
  by_cases hptr : 0 < count ∧ uptrOk addr count = false
  · rw [if_pos hptr]
  · rw [if_neg hptr, if_neg hzero, h.open_]
    dsimp only
    rw [if_neg hclosed, h.node, Option.bind_some, if_neg hdev, vfsReadNode, if_pos (.inr hdir), Option.map_some]
    rfl

/-! ### Descriptors -/

theorem vfs_sysClose (s : Kernel) (fd : ℤ) : (sysClose s fd).1.vfs = s.vfs := by
  simp only [sysClose]
  split_ifs <;> rfl

theorem Rewrote.close (h : Rewrote d s s') (fd : ℤ) : Rewrote d s (sysClose s' fd).1 := by
  have hproc := sysClose_proc s' fd
  refine h.trans (.of_vfs h.sound (vfs_sysClose s' fd) ?_ ?_ ?_ d) <;> rw [hproc, processCloseFd] <;>
    split_ifs <;> rfl

theorem freeFd_congr {p q : Process} (h : ∀ j, (q.fds j).used = (p.fds j).used) : freeFd q = freeFd p := by
  rw [freeFd, freeFd]
  simp only [h]

theorem freeFd_close (h : freeFd s.proc = some i) (g : FileDescriptor) :
    freeFd (sysClose (s.setFd i g) i).1.proc = freeFd s.proc := by
  obtain ⟨hlo, hhi, hfree⟩ := freeFd_eq_some h
  refine freeFd_congr fun j => ?_
  rw [sysClose_proc, processCloseFd, if_neg (by omega), Int.toNat_natCast]
  by_cases hj : j = i
  · subst hj
    rw [Process.setFd_self, hfree]
    rfl
  · rw [Process.setFd_of_ne _ _ hj, Kernel.setFd_fds_of_ne _ _ hj]

theorem writeFd_handOut (hf : Anew flags) (hmode : has flags vfsOWronly = true ∨ has flags vfsORdwr = true)
    (hfree : freeFd s.proc = some i) (d : ℕ) (dirty : Bool) :
    WriteFd (s.setFd i (anewFd flags d dirty)) i d (anewFd flags d dirty) := by
  obtain ⟨hlo, hhi, -⟩ := freeFd_eq_some hfree
  refine ⟨hlo, processGetFd_eq_some.2 ⟨by omega, by omega, ?_, ?_⟩, hmode, hf.append, rfl⟩
  · rw [Int.toNat_natCast, Kernel.setFd_fds_self]
    rfl
  · rw [Int.toNat_natCast, Kernel.setFd_fds_self]

/-! ### The checks look at the owner only -/

theorem openRefused_of_uid {p q : Process} (huid : q.uid = p.uid) (hgid : q.gid = p.gid) (n : VfsNode)
    (normal : List Byte) (flags : UInt32) : openRefused q n normal flags = openRefused p n normal flags := by
  simp only [openRefused, isRoot, hasPerm, huid, hgid]

end Tnu.Sys
