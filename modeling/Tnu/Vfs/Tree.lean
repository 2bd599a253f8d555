/-
**The tree a pool holds.**

Listing the directories from the root down, as every recursive `vfs_list` of the kernel does,
meets each attached node once, a directory before what it contains.  This module gives that
listing and what it contains, the attributes the file system shows of a node, and two invariants
of reachable pools that the persistence code relies on without saying so.

Main results:

* `mem_tree_iff` — **the listing meets exactly the attached nodes**;
* `nodup_tree_fst`, `parentsFirst_tree` — each once, parents first;
* `nodeOk_of_reachable`, `booted_of_reachable` — the invariants.
-/

import Tnu.Vfs.Runs

set_option autoImplicit false

namespace Tnu.Vfs

variable {s s' : Pool}

/-! ### Listing the tree -/

abbrev NamePath := List (List Byte)

/-- The nodes at and below `n`, with their paths, in the order a recursive listing meets them. -/
def tree (s : Pool) : ℕ → NamePath → ℕ → List (NamePath × ℕ)
  | 0, _, _ => []
  | fuel + 1, pc, n =>
    (pc, n) :: (children s n).flatMap fun c => tree s fuel (pc ++ [(s.nodes c).name.chars]) c

theorem walk_of_mem_tree (hs : Wf s) : ∀ {fuel : ℕ} {pc cs : NamePath} {n m : ℕ},
    n < s.nodeCount → (cs, m) ∈ tree s fuel pc n →
      ∃ ds, cs = pc ++ ds ∧ walk s n ds = some m := by
  intro fuel
  induction fuel with
  | zero => intro pc cs n m _ h; simp [tree] at h
  | succ fuel ih =>
    intro pc cs n m hn h
    rw [tree] at h
    rcases List.mem_cons.1 h with h | h
    · obtain ⟨rfl, rfl⟩ := Prod.mk.inj h
      exact ⟨[], by simp, rfl⟩
    · obtain ⟨c, hc, h⟩ := List.mem_flatMap.1 h
      obtain ⟨ds, rfl, hw⟩ := ih (hs.mem_children hn hc).2.1 h
      refine ⟨(s.nodes c).name.chars :: ds, by simp, ?_⟩
      rw [← List.singleton_append, walk_append]
      have hf : findChild s n (s.nodes c).name.chars = some c :=
        (hs.findChild_eq_some_iff hn).2 ⟨hc, rfl⟩
      simpa [walk, hf] using hw

theorem mem_tree_of_walk (hs : Wf s) : ∀ {ds : NamePath} {fuel n m : ℕ} (pc : NamePath),
    n < s.nodeCount → s.nodeCount ≤ fuel + n → walk s n ds = some m →
      (pc ++ ds, m) ∈ tree s fuel pc n := by
  intro ds
  induction ds with
  | nil =>
    intro fuel n m pc hn hfuel hw
    obtain ⟨k, rfl⟩ : ∃ k, fuel = k + 1 := ⟨fuel - 1, by omega⟩
    obtain rfl : n = m := by simpa using hw
    simp [tree]
  | cons d ds ih =>
    intro fuel n m pc hn hfuel hw
    obtain ⟨k, rfl⟩ : ∃ k, fuel = k + 1 := ⟨fuel - 1, by omega⟩
    obtain ⟨c, hc, hw⟩ := walk_isSome_of_append [d] ds hw
    have hf : findChild s n d = some c := by simpa [walk] using hc
    obtain ⟨hnc, hlt, -, hname⟩ := hs.of_findChild hn hf
    have hmem : c ∈ children s n := ((hs.findChild_eq_some_iff hn).1 hf).1
    have hrec := ih (pc ++ [d]) hlt (by omega : s.nodeCount ≤ k + c) hw
    rw [tree]
    refine List.mem_cons_of_mem _ (List.mem_flatMap.2 ⟨c, hmem, ?_⟩)
    rw [hname]
    simpa using hrec

variable {cwd path : List Byte} {cs : NamePath}

/-- **The listing from the root meets exactly the attached nodes.** -/
theorem mem_tree_iff (hs : Wf s) {fuel : ℕ} (hfuel : s.nodeCount ≤ fuel) {m : ℕ} :
    (cs, m) ∈ tree s fuel [] rootNode ↔ walk s rootNode cs = some m := by
  constructor
  · intro h
    obtain ⟨ds, rfl, hw⟩ := walk_of_mem_tree hs hs.count_pos h
    exact hw
  · intro h
    simpa using mem_tree_of_walk hs [] hs.count_pos (Nat.le_add_right_of_le hfuel) h

theorem nodup_tree_fst (hs : Wf s) : ∀ (fuel : ℕ) (pc : NamePath) {n : ℕ}, n < s.nodeCount →
    ((tree s fuel pc n).map Prod.fst).Nodup := by
  intro fuel
  induction fuel with
  | zero => intro pc n _; simp [tree]
  | succ fuel ih =>
    intro pc n hn
    rw [tree, List.map_cons, List.map_flatMap]
    have hpre : ∀ c ∈ children s n, ∀ p ∈
        (tree s fuel (pc ++ [(s.nodes c).name.chars]) c).map Prod.fst,
        ∃ ds, p = pc ++ (s.nodes c).name.chars :: ds := by
      intro c hc p hp
      obtain ⟨⟨p, m⟩, hpm, rfl⟩ := List.mem_map.1 hp
      obtain ⟨ds, rfl, -⟩ := walk_of_mem_tree hs (hs.mem_children hn hc).2.1 hpm
      exact ⟨ds, by simp⟩
    refine List.nodup_cons.2 ⟨fun hmem => ?_, List.nodup_flatMap.2 ⟨fun c hc => ?_, ?_⟩⟩
    · obtain ⟨c, hc, hp⟩ := List.mem_flatMap.1 hmem
      obtain ⟨ds, he⟩ := hpre c hc pc hp
      have := congrArg List.length he
      simp at this
    · exact ih _ (hs.mem_children hn hc).2.1
    · have hdist := List.pairwise_map.1 (hs.distinct n hn)
      refine List.Pairwise.imp_of_mem (fun {a b} ha hb hab => ?_) hdist
      intro p hpa hpb
      obtain ⟨da, rfl⟩ := hpre a ha p hpa
      obtain ⟨db, he⟩ := hpre b hb _ hpb
      exact hab (List.cons.inj (List.append_cancel_left he)).1

theorem nodup_tree_snd (hs : Wf s) (fuel : ℕ) :
    ((tree s fuel [] rootNode).map Prod.snd).Nodup := by
  refine List.Nodup.map_on ?_ (List.Nodup.of_map _ (nodup_tree_fst hs fuel [] hs.count_pos))
  rintro ⟨cs, n⟩ hc ⟨ds, m⟩ hd he
  obtain ⟨cs, rfl, hcw⟩ := walk_of_mem_tree hs hs.count_pos hc
  obtain ⟨ds, rfl, hdw⟩ := walk_of_mem_tree hs hs.count_pos hd
  obtain rfl : n = m := he
  rw [hs.walk_injective hcw hdw]

theorem length_tree_le (hs : Wf s) (fuel : ℕ) :
    (tree s fuel [] rootNode).length ≤ s.nodeCount := by
  have hsub : (tree s fuel [] rootNode).map Prod.snd ⊆ List.range s.nodeCount := by
    intro n hn
    obtain ⟨⟨cs, m⟩, hc, rfl⟩ := List.mem_map.1 hn
    obtain ⟨ds, -, hw⟩ := walk_of_mem_tree hs hs.count_pos hc
    exact List.mem_range.2 (hs.walk_lt ds hs.count_pos hw)
  simpa using (List.subperm_of_subset (nodup_tree_snd hs fuel) hsub).length_le

/-- Every element of the list comes behind its parent, or has its parent in `K`. -/
def ParentsFirst (K : Set NamePath) : List (NamePath × ℕ) → Prop
  | [] => True
  | e :: l => e.1.dropLast ∈ K ∧ ParentsFirst (insert e.1 K) l

theorem ParentsFirst.mono : ∀ {l : List (NamePath × ℕ)} {K K' : Set NamePath}, K ⊆ K' →
    ParentsFirst K l → ParentsFirst K' l := by
  intro l
  induction l with
  | nil => intro K K' _ _; trivial
  | cons e l ih =>
    rintro K K' hK ⟨he, hl⟩
    exact ⟨hK he, ih (Set.insert_subset_insert hK) hl⟩

theorem parentsFirst_append : ∀ {l l' : List (NamePath × ℕ)} {K : Set NamePath},
    ParentsFirst K l → ParentsFirst K l' → ParentsFirst K (l ++ l') := by
  intro l
  induction l with
  | nil => intro l' K _ h'; exact h'
  | cons e l ih =>
    rintro l' K ⟨he, hl⟩ h'
    exact ⟨he, ih hl (h'.mono (Set.subset_insert _ _))⟩

/-- **A directory is listed before what it contains.** -/
theorem parentsFirst_tree (s : Pool) : ∀ (fuel : ℕ) (pc : NamePath) (n : ℕ) (K : Set NamePath),
    pc.dropLast ∈ K → ParentsFirst K (tree s fuel pc n) := by
  intro fuel
  induction fuel with
  | zero => intro pc n K _; trivial
  | succ fuel ih =>
    intro pc n K hpc
    refine ⟨hpc, ?_⟩
    have hflat : ∀ l : List ℕ, ParentsFirst (insert pc K)
        (l.flatMap fun c => tree s fuel (pc ++ [(s.nodes c).name.chars]) c) := by
      intro l
      induction l with
      | nil => trivial
      | cons c l ihl =>
        rw [List.flatMap_cons]
        refine parentsFirst_append (ih _ c _ ?_) ihl
        rw [List.dropLast_concat]
        exact Set.mem_insert _ _
    exact hflat _

theorem ParentsFirst.filter {P : NamePath → Bool}
    (hP : ∀ cs, P cs = true → P cs.dropLast = true) :
    ∀ {l : List (NamePath × ℕ)} {K : Set NamePath}, ParentsFirst K l →
      ParentsFirst {cs ∈ K | P cs = true} (l.filter fun e => P e.1) := by
  intro l
  induction l with
  | nil => intro K _; trivial
  | cons e l ih =>
    rintro K ⟨he, hl⟩
    by_cases hPe : P e.1 = true
    · rw [List.filter_cons_of_pos (by simpa using hPe)]
      refine ⟨⟨he, hP _ hPe⟩, (ih hl).mono ?_⟩
      rintro cs ⟨hcs, hPcs⟩
      rcases hcs with rfl | hcs
      · exact Set.mem_insert _ _
      · exact Set.mem_insert_of_mem _ ⟨hcs, hPcs⟩
    · rw [List.filter_cons_of_neg (by simpa using hPe)]
      refine (ih hl).mono ?_
      rintro cs ⟨hcs, hPcs⟩
      rcases hcs with rfl | hcs
      · exact absurd hPcs hPe
      · exact ⟨hcs, hPcs⟩

/-! ### What the file system shows -/

/-- Paths at and below `/dev` and `/proc`, which the persistence code leaves out. -/
def Pseudo (cs : NamePath) : Prop := cs.head? = some (lit "dev") ∨ cs.head? = some (lit "proc")

instance : DecidablePred Pseudo := fun cs =>
  inferInstanceAs (Decidable (cs.head? = some (lit "dev") ∨ cs.head? = some (lit "proc")))

theorem pseudo_append {ds : NamePath} (h : Pseudo cs) : Pseudo (cs ++ ds) := by
  cases cs with
  | nil => rcases h with h | h <;> cases h
  | cons c cs => exact h

@[simp] theorem not_pseudo_nil : ¬ Pseudo [] := by
  rintro (h | h) <;> cases h

theorem not_pseudo_dropLast (h : ¬ Pseudo cs) : ¬ Pseudo cs.dropLast := by
  intro hp
  rcases List.eq_nil_or_concat' cs with rfl | ⟨ds, x, rfl⟩
  · exact h hp
  · rw [List.dropLast_concat] at hp
    exact h (pseudo_append hp)

/-- The permission bits `vfs_chmod` can set. -/
abbrev permMask : UInt32 := 0o7777

/-- What can be seen of a node: its kind, permission bits, owner, group and, of a file, bytes. -/
structure Shown where
  kind : NodeType
  perm : UInt32
  uid : UInt32
  gid : UInt32
  bytes : List Byte
  deriving DecidableEq

def VfsNode.bytes (n : VfsNode) : List Byte :=
  if n.type = .file then (n.data.getD []).take n.size else []

def VfsNode.shown (n : VfsNode) : Shown := ⟨n.type, n.mode &&& permMask, n.uid, n.gid, n.bytes⟩

/-- The directory or file under a path outside `/dev` and `/proc`. -/
def visible (s : Pool) (cs : NamePath) : Option Shown :=
  if Pseudo cs then none
  else (walk s rootNode cs).bind fun n =>
    if (s.nodes n).type = .dir ∨ (s.nodes n).type = .file then some (s.nodes n).shown else none

/-! ### Two invariants of runs -/

/-- What the operations keep of every node: they make directories and files only, and no file
outgrows the heap. -/
structure NodeOk (n : VfsNode) : Prop where
  type : n.type = .dir ∨ n.type = .file
  size_le : n.size ≤ kernelHeapSize

theorem NodeOk.of_eq {a b : VfsNode} (h : NodeOk a) (htype : b.type = a.type)
    (hsize : b.size = a.size) : NodeOk b :=
  ⟨by rw [htype]; exact h.type, by rw [hsize]; exact h.size_le⟩

theorem nodeOk_freshNode (clock : ℕ) (name : List Byte) {type : NodeType} (mode uid gid : UInt32)
    (h : type = .dir ∨ type = .file) : NodeOk (freshNode clock name type mode uid gid) :=
  ⟨h, Nat.zero_le _⟩

theorem nodes_addLeaf (s : Pool) {parent : ℕ} (node : VfsNode) (hp : parent < s.nodeCount) (m : ℕ) :
    ∃ base p c x, (base = node ∨ base = s.nodes m) ∧ (addLeaf s parent node).nodes m =
      { base with parent := p, firstChild := c, nextSibling := x } := by
  by_cases hm : m = s.nodeCount
  · subst hm
    exact ⟨node, _, _, _, .inl rfl, nodes_addLeaf_new node hp⟩
  · refine ⟨s.nodes m, (s.nodes m).parent, ?_⟩
    by_cases hmp : m = parent
    · subst hmp
      exact ⟨_, _, .inr rfl, nodes_addLeaf_parent node hp⟩
    · exact ⟨(s.nodes m).firstChild, (s.nodes m).nextSibling, .inr rfl, by
        simp [addLeaf, attachChild, Pool.modifyNode, hm, hmp]⟩

/-- A law of single nodes that sees no more than their type, size and contents. -/
def NodeLaw (Q : VfsNode → Prop) : Prop :=
  ∀ {a b : VfsNode}, Q a → b.type = a.type → b.size = a.size → b.data = a.data → Q b

variable {Q : VfsNode → Prop}

theorem modifyNode_keeps (h : ∀ n, Q (s.nodes n)) {node : ℕ} {f : VfsNode → VfsNode}
    (hf : Q (f (s.nodes node))) (n : ℕ) : Q ((s.modifyNode node f).nodes n) := by
  rw [Pool.nodes_modifyNode]
  split_ifs with hn
  · exact hf
  · exact h n

theorem NodeLaw.touch (hQ : NodeLaw Q) (h : ∀ n, Q (s.nodes n)) (node n : ℕ) :
    Q ((s.touch node).nodes n) := by
  obtain ⟨t, ht⟩ := nodes_touch_node s node n
  rw [ht]
  exact hQ (h n) rfl rfl rfl

theorem NodeLaw.vfsMake (hQ : NodeLaw Q) (h : ∀ n, Q (s.nodes n)) (hs : Wf s) {type : NodeType}
    {mode uid gid : UInt32} (hfresh : ∀ clock name, Q (freshNode clock name type mode uid gid))
    (hp : 0 ∉ path) (hc : 0 ∉ cwd) (n : ℕ) :
    Q ((vfsMake type s path cwd mode uid gid).1.nodes n) := by
  rcases vfsMake_cases s type mode uid gid hp hc with
    ⟨rc, -, he⟩ | ⟨pc, x, parent, -, hw, -, -, -, he⟩
  · rw [he]
    exact h n
  · rw [he]
    obtain ⟨base, p, c, y, hbase, hn⟩ :=
      nodes_addLeaf s (leafNode s x type mode uid gid) (hs.walk_lt pc hs.count_pos hw) n
    rw [hn]
    rcases hbase with rfl | rfl
    · exact hQ (hfresh (s.clock + 1) x) rfl rfl rfl
    · exact hQ (h n) rfl rfl rfl

/-- **A law of single nodes is kept** by a step if new nodes and new contents meet it. -/
theorem NodeLaw.of_step (hQ : NodeLaw Q) (h : ∀ n, Q (s.nodes n)) (hs : Wf s)
    (hfresh : ∀ clock name type mode uid gid, type = .dir ∨ type = .file →
      Q (freshNode clock name type mode uid gid))
    (hcontents : ∀ {a : VfsNode} {data : List Byte} {k : Kmalloc}, Q a →
      data = [] ∨ k.grants (data.length + 1) = true →
      Q { a with data := if data = [] then none else some data, dataBorrowed := false
                 size := data.length })
    (hwrite : ∀ {s s' node offset buf rc} {k : Kmalloc}, (∀ n, Q (s.nodes n)) →
      vfsWriteNode k.grants s node offset buf = some (s', rc) → ∀ n, Q (s'.nodes n))
    {op : VfsOp} (hstep : step s op = some s') : ∀ n, Q (s'.nodes n) := by
  refine step_keeps (P := fun s => ∀ n, Q (s.nodes n)) hs h (fun {path cwd _} mode uid gid _ htype =>
    hQ.vfsMake h hs (fun clock name => hfresh clock name _ mode uid gid htype) path.nul_free cwd.nul_free)
    (fun _ _ _ _ _ hrem n => ?_) (fun h hr => ?_) hstep
  · obtain ⟨t, c, y, hn⟩ := hrem.node n
    rw [hn]
    exact hQ (h n) rfl rfl rfl
  · cases hr with
    | contents node data k hd => exact hQ.touch (modifyNode_keeps h (hcontents (h node) hd)) node
    | write k hw => exact hwrite h hw
    | mode path cwd mode =>
      rw [vfsChmod]
      cases vfsLookup _ path cwd with
      | none => exact h
      | some node => exact hQ.touch (modifyNode_keeps h (hQ (h node) rfl rfl rfl)) node
    | owner path cwd uid gid =>
      rw [vfsChown]
      cases vfsLookup _ path cwd with
      | none => exact h
      | some node => exact hQ.touch (modifyNode_keeps h (hQ (h node) rfl rfl rfl)) node

theorem nodeLaw_nodeOk : NodeLaw NodeOk := fun h htype hsize _ => h.of_eq htype hsize

theorem nodeOk_of_step (h : ∀ n, NodeOk (s.nodes n)) (hs : Wf s) {op : VfsOp}
    (hstep : step s op = some s') : ∀ n, NodeOk (s'.nodes n) := by
  refine nodeLaw_nodeOk.of_step h hs (fun _ _ _ _ _ _ => nodeOk_freshNode _ _ _ _ _)
    (fun {a data k} ha hd => ⟨ha.type, ?_⟩) (fun {s s' node offset buf rc k} h hw => ?_) hstep
  · rcases hd with rfl | hd
    · simp
    · have := k.bounded _ hd
      dsimp only
      omega
  · rcases vfsWriteNode_cases hw with rfl | ⟨-, d, size, b, hsize, rfl⟩
    · exact h
    · have hle : size ≤ kernelHeapSize := by
        rcases hsize with rfl | hsize
        · exact (h node).size_le
        · have := k.bounded _ hsize
          omega
      exact nodeLaw_nodeOk.touch (modifyNode_keeps h ⟨(h node).type, hle⟩) node

/-- **Reachable pools hold directories and files only, none larger than the heap.** -/
theorem nodeOk_of_reachable (h : Reachable s) : ∀ n, NodeOk (s.nodes n) := by
  induction h with
  | init =>
    exact (vfsInit_induction (P := fun s => ∀ n, NodeOk (s.nodes n))
      (fun n => nodeOk_freshNode _ _ _ _ _ (.inl rfl))
      fun s path mode h0 hs h => nodeLaw_nodeOk.vfsMake h hs
        (fun _ _ => nodeOk_freshNode _ _ _ _ _ (.inl rfl)) h0 (by decide)).2
  | step op hreach hstep ih => exact nodeOk_of_step ih (wf_of_reachable hreach) hstep

theorem all_dir_vfsMkdir (hs : Wf s) (h : ∀ n, (s.nodes n).type = .dir)
    (mode uid gid : UInt32) (hp : 0 ∉ path) (hc : 0 ∉ cwd) (n : ℕ) :
    ((vfsMkdir s path cwd mode uid gid).1.nodes n).type = .dir := by
  unfold vfsMkdir
  rcases vfsMake_cases s .dir mode uid gid hp hc with
    ⟨rc, -, he⟩ | ⟨pc, x, parent, -, hw, -, -, -, he⟩
  · rw [he]
    exact h n
  · obtain ⟨base, p, c, y, hbase, hn⟩ :=
      nodes_addLeaf s (leafNode s x .dir mode uid gid) (hs.walk_lt pc hs.count_pos hw) n
    rw [he, hn]
    rcases hbase with rfl | rfl
    · rfl
    · exact h n

theorem all_dir_vfsInit : ∀ n, (vfsInit.nodes n).type = .dir :=
  (vfsInit_induction (P := fun s => ∀ n, (s.nodes n).type = .dir) (fun _ => rfl)
    fun _ _ mode h0 hs h => all_dir_vfsMkdir hs h mode 0 0 h0 (by decide)).2

/-- The first nodes of the pool are the ones `vfs_init` made, attached or not. -/
structure Booted (s : Pool) : Prop where
  count : vfsInit.nodeCount ≤ s.nodeCount
  name : ∀ n, n < vfsInit.nodeCount → (s.nodes n).name = (vfsInit.nodes n).name
  parent : ∀ n, n < vfsInit.nodeCount → (s.nodes n).parent = (vfsInit.nodes n).parent

theorem Booted.of_same (h : Booted s) (hcount : s.nodeCount ≤ s'.nodeCount)
    (hname : ∀ n, n < s.nodeCount → (s'.nodes n).name = (s.nodes n).name)
    (hparent : ∀ n, n < s.nodeCount → (s'.nodes n).parent = (s.nodes n).parent) : Booted s' where
  count := h.count.trans hcount
  name n hn := (hname n (hn.trans_le h.count)).trans (h.name n hn)
  parent n hn := (hparent n (hn.trans_le h.count)).trans (h.parent n hn)

theorem Booted.of_sameLinks (h : Booted s) (hl : SameLinks s s') : Booted s' :=
  h.of_same hl.count.ge (fun n _ => hl.name n) fun n _ => hl.parent n

theorem Booted.vfsMake (h : Booted s) (hs : Wf s) (type : NodeType)
    (mode uid gid : UInt32) (hp : 0 ∉ path) (hc : 0 ∉ cwd) :
    Booted (vfsMake type s path cwd mode uid gid).1 := by
  rcases vfsMake_cases s type mode uid gid hp hc with
    ⟨rc, -, he⟩ | ⟨pc, x, parent, -, hw, -, -, -, he⟩
  · rw [he]
    exact h
  · have hlt : parent < s.nodeCount := hs.walk_lt pc hs.count_pos hw
    rw [he]
    refine h.of_same (Nat.le_succ _) (fun n hn => ?_) (fun n hn => ?_)
    all_goals
      obtain ⟨c, hn, -⟩ := nodes_addLeaf_old (leafNode s x type mode uid gid) hlt hn
      rw [hn]

theorem Booted.of_step (h : Booted s) (hs : Wf s) {op : VfsOp} (hstep : step s op = some s') :
    Booted s' := by
  refine step_keeps hs h (fun {path cwd _} mode uid gid _ _ =>
    h.vfsMake hs _ mode uid gid path.nul_free cwd.nul_free) (fun _ _ _ _ _ hrem => h.of_same hrem.count.ge (fun n _ => ?_) fun n _ => ?_)
    (fun h hr => h.of_sameLinks hr.sameLinks) hstep
  all_goals
    obtain ⟨t, c, y, hn⟩ := hrem.node n
    rw [hn]

/-- **The nodes of `vfs_init` are never reused.** -/
theorem booted_of_reachable (h : Reachable s) : Booted s := by
  induction h with
  | init => exact ⟨le_rfl, fun _ _ => rfl, fun _ _ => rfl⟩
  | step op hreach hstep ih => exact ih.of_step (wf_of_reachable hreach) hstep

theorem vfsInit_first : ∀ n, n < vfsInit.nodeCount → n ≠ rootNode →
    (vfsInit.nodes n).parent = some rootNode ∧
      walk vfsInit rootNode [(vfsInit.nodes n).name.chars] = some n := by decide

theorem Booted.path_eq (h : Booted s) (hs : Wf s) {n : ℕ} (hn : n < vfsInit.nodeCount)
    (hw : walk s rootNode cs = some n) : walk vfsInit rootNode cs = some n := by
  rcases List.eq_nil_or_concat' cs with rfl | ⟨ds, x, rfl⟩
  · exact hw
  · have hne : n ≠ rootNode := hs.walk_ne_root (by simp) hw
    obtain ⟨p, hp, -, -, -, hpar, hname⟩ := hs.walk_snoc_eq_some hw
    obtain ⟨hroot, hinit⟩ := vfsInit_first n hn hne
    rw [h.parent n hn, hroot] at hpar
    obtain rfl : rootNode = p := Option.some.inj hpar
    obtain rfl : ds = [] := hs.walk_injective hp (walk_nil s rootNode)
    rw [h.name n hn] at hname
    rw [← hname]
    exact hinit

/-! ### Visible nodes -/

theorem shown_kind (n : VfsNode) : n.shown.kind = n.type := rfl

theorem visible_eq_map (hok : ∀ n, NodeOk (s.nodes n)) (hp : ¬ Pseudo cs) :
    visible s cs = (walk s rootNode cs).map fun n => (s.nodes n).shown := by
  rw [visible, if_neg hp]
  cases walk s rootNode cs with
  | none => rfl
  | some n => rw [Option.bind_some, if_pos (hok n).type, Option.map_some]

theorem visible_of_pseudo (hp : Pseudo cs) : visible s cs = none := if_pos hp

theorem visible_congr (hw : walk s' rootNode cs = walk s rootNode cs)
    (hn : ∀ n, walk s rootNode cs = some n → (s'.nodes n).shown = (s.nodes n).shown) :
    visible s' cs = visible s cs := by
  rw [visible, visible, hw]
  split_ifs
  · rfl
  · cases hcs : walk s rootNode cs with
    | none => rfl
    | some n =>
      have hshown := hn n hcs
      have htype : (s'.nodes n).type = (s.nodes n).type := congrArg Shown.kind hshown
      rw [Option.bind_some, Option.bind_some, htype, hshown]

end Tnu.Vfs
