/-
**The operations keep the shape of the pool.**

Every operation of `kernel/fs/vfs.c` does one of three things to the tree: it adds one leaf, it
removes one leaf, or it leaves all links alone.  This module says so once, operation by operation,
and derives from it that every pool a run reaches has the shape of `Tnu/Vfs/Wf.lean`, and what
each operation does to the paths.

Main results:

* `vfsMake_cases`, `vfsUnlink_cases`, `vfsWriteFile_cases`,
  `vfsWriteNode_cases` — all an operation can do;
* `walk_addLeaf`, `Removed.walk_eq` — **the one path that changes**;
* `wf_of_reachable` — **every reachable pool has the shape**.
-/

import Tnu.Vfs.Wf

set_option autoImplicit false

namespace Tnu.Vfs

variable {s s' : Pool}

/-! ### Adding a leaf -/

/-- `alloc_node` and `attach_child`, for a given record. -/
def addLeaf (s : Pool) (parent : ℕ) (node : VfsNode) : Pool :=
  attachChild { nodes := fun m => if m = s.nodeCount then node else s.nodes m
                nodeCount := s.nodeCount + 1, clock := s.clock + 1 } parent s.nodeCount

@[simp] theorem nodeCount_addLeaf (s : Pool) (parent : ℕ) (node : VfsNode) :
    (addLeaf s parent node).nodeCount = s.nodeCount + 1 := rfl

variable (node : VfsNode) {pc : List (List Byte)} {x buf cwd name path : List Byte} {A B : List ℕ}
  {n p t offset : ℕ} {kmalloc : ℕ → Bool} {nodes : ℕ → VfsNode}

theorem nodes_addLeaf_new {parent : ℕ} (hp : parent < s.nodeCount) :
    (addLeaf s parent node).nodes s.nodeCount =
      { node with parent := some parent, nextSibling := (s.nodes parent).firstChild } := by
  have hne : s.nodeCount ≠ parent := by omega
  simp [addLeaf, attachChild, Pool.modifyNode, hne, hne.symm]

theorem nodes_addLeaf_parent {parent : ℕ} (hp : parent < s.nodeCount) :
    (addLeaf s parent node).nodes parent =
      { s.nodes parent with firstChild := some s.nodeCount } := by
  have hne : parent ≠ s.nodeCount := by omega
  simp [addLeaf, attachChild, Pool.modifyNode, hne]

theorem nodes_addLeaf_other {parent : ℕ} (hn : n < s.nodeCount)
    (hne : n ≠ parent) : (addLeaf s parent node).nodes n = s.nodes n := by
  have : n ≠ s.nodeCount := by omega
  simp [addLeaf, attachChild, Pool.modifyNode, hne, this]

theorem nodes_addLeaf_old {parent : ℕ} (hp : parent < s.nodeCount)
    (hn : n < s.nodeCount) :
    ∃ c, (addLeaf s parent node).nodes n = { s.nodes n with firstChild := c } ∧
      (n ≠ parent → c = (s.nodes n).firstChild) := by
  by_cases hne : n = parent
  · subst hne
    exact ⟨_, nodes_addLeaf_parent node hp, fun h => absurd rfl h⟩
  · exact ⟨_, nodes_addLeaf_other node hn hne, fun _ => rfl⟩

theorem nextOf_addLeaf {parent : ℕ} (hp : parent < s.nodeCount)
    (hn : n < s.nodeCount) : nextOf (addLeaf s parent node) n = nextOf s n := by
  obtain ⟨c, hc, -⟩ := nodes_addLeaf_old node hp hn
  simp [nextOf, hc]

theorem children_addLeaf_new {parent : ℕ} {node : VfsNode}
    (hp : parent < s.nodeCount) (hnode : node.firstChild = none) :
    children (addLeaf s parent node) s.nodeCount = [] := by
  simp [children, nodes_addLeaf_new node hp, hnode]

theorem Listing.children_addLeaf {d parent : ℕ} (hd : Listing s d) (node : VfsNode)
    (hp : parent < s.nodeCount) :
    children (addLeaf s parent node) d =
      if d = parent then s.nodeCount :: children s d else children s d := by
  have hold : Chain.Links (nextOf (addLeaf s parent node)) (s.nodes d).firstChild (children s d) :=
    hd.links.congr fun c hc => nextOf_addLeaf node hp (hd.entry_lt c hc)
  split_ifs with hdp
  · subst hdp
    refine Chain.chain_of_links ⟨?_, ?_⟩ (by simpa using hd.length_le)
    · rw [nodes_addLeaf_parent node hp]
    · rw [nextOf, nodes_addLeaf_new node hp]
      exact hold
  · rw [children, nodes_addLeaf_other node hd.lt hdp]
    exact Chain.chain_of_links hold (by simpa using hd.length_le.trans (Nat.le_succ _))

/-- **A new leaf keeps the shape**, when its name is valid and new in its directory. -/
theorem wf_addLeaf (hs : Wf s) {parent : ℕ} {node : VfsNode} (hp : parent < s.nodeCount)
    (hdir : (s.nodes parent).type = .dir) (hfull : s.nodeCount < vfsMaxNodes)
    (hnode : node.firstChild = none) (hname : ValidName node.name.chars)
    (hnew : findChild s parent node.name.chars = none) : Wf (addLeaf s parent node) := by
  set s' := addLeaf s parent node with hs'
  have hold : ∀ n, n < s.nodeCount → ∃ c, s'.nodes n = { s.nodes n with firstChild := c } ∧
      (n ≠ parent → c = (s.nodes n).firstChild) := fun n hn => nodes_addLeaf_old node hp hn
  have hleaf := nodes_addLeaf_new node hp
  rw [← hs'] at hleaf
  have hpar : ∀ n, n < s.nodeCount → (s'.nodes n).parent = (s.nodes n).parent := fun n hn => by
    obtain ⟨c, hc, -⟩ := hold n hn
    rw [hc]
  have htype : ∀ n, n < s.nodeCount → (s'.nodes n).type = (s.nodes n).type := fun n hn => by
    obtain ⟨c, hc, -⟩ := hold n hn
    rw [hc]
  have hnm : ∀ n, n < s.nodeCount → (s'.nodes n).name = (s.nodes n).name := fun n hn => by
    obtain ⟨c, hc, -⟩ := hold n hn
    rw [hc]
  have hcases : ∀ n, n < s'.nodeCount → n < s.nodeCount ∨ n = s.nodeCount := fun n hn => by
    have : n < s.nodeCount + 1 := hn
    omega
  have h0 := hs.count_pos
  refine
    { count_pos := by simp [hs'], count_le := hfull
      root_dir := (htype _ h0).trans hs.root_dir
      root_parent := (hpar _ h0).trans hs.root_parent
      parent_lt := ?_, next_lt := ?_, first_child := ?_, name_valid := ?_, distinct := ?_ }
  · intro n hn0 hn
    rcases hcases n hn with hn | rfl
    · obtain ⟨p, hpp, hlt, hd⟩ := hs.parent_lt n hn0 hn
      exact ⟨p, (hpar n hn).trans hpp, hlt, (htype p (by omega)).trans hd⟩
    · exact ⟨parent, by rw [hleaf], hp, (htype parent hp).trans hdir⟩
  · intro n m hn hm
    rcases hcases n hn with hn | rfl
    · rw [nextOf_addLeaf node hp hn] at hm
      obtain ⟨hm0, hmn, hmp⟩ := hs.next_lt n m hn hm
      exact ⟨hm0, hmn, by rw [hpar m (by omega), hpar n hn, hmp]⟩
    · simp only [nextOf, hleaf] at hm
      obtain ⟨hm0, hmlt, hmp⟩ := hs.first_child parent m hp hm
      exact ⟨hm0, hmlt, by rw [hpar m hmlt, hmp, hleaf]⟩
  · intro p c hlt hc
    rcases hcases p hlt with hlt | rfl
    · by_cases hpe : p = parent
      · subst hpe
        rw [nodes_addLeaf_parent node hp] at hc
        obtain rfl : s.nodeCount = c := Option.some.inj hc
        exact ⟨h0, Nat.lt_succ_self _, by rw [hleaf]⟩
      · rw [nodes_addLeaf_other node hlt hpe] at hc
        obtain ⟨hc0, hclt, hcp⟩ := hs.first_child p c hlt hc
        exact ⟨hc0, Nat.lt_succ_of_lt hclt, (hpar c hclt).trans hcp⟩
    · rw [hleaf] at hc
      simp [hnode] at hc
  · intro n hn0 hn
    rcases hcases n hn with hn | rfl
    · rw [hnm n hn]
      exact hs.name_valid n hn0 hn
    · rw [hleaf]
      exact hname
  · intro p hlt
    have hmap : ∀ q, q < s.nodeCount →
        (children s q).map (fun n => (s'.nodes n).name.chars) =
          (children s q).map fun n => (s.nodes n).name.chars := fun q hq =>
      List.map_congr_left fun n hn => by rw [hnm n (hs.mem_children hq hn).2.1]
    rcases hcases p hlt with hlt | rfl
    · by_cases hpe : p = parent
      · subst hpe
        rw [(hs.listing hp).children_addLeaf node hp, if_pos rfl, List.map_cons, hmap p hp, hleaf]
        refine List.nodup_cons.2 ⟨fun hmem => ?_, hs.distinct p hp⟩
        obtain ⟨n, hn, he⟩ := List.mem_map.1 hmem
        exact Wf.findChild_eq_none_iff.1 hnew n hn he
      · rw [(hs.listing hlt).children_addLeaf node hp, if_neg hpe, hmap p hlt]
        exact hs.distinct p hlt
    · rw [children_addLeaf_new hp hnode]
      simp

/-- **A new leaf is one new path.** -/
theorem Listings.walk_addLeaf (hs : Listings s) {parent : ℕ} {node : VfsNode}
    (hpc : walk s rootNode pc = some parent) (hnode : node.firstChild = none)
    (hnew : findChild s parent node.name.chars = none) (q : List (List Byte)) :
    walk (addLeaf s parent node) rootNode q =
      if q = pc ++ [node.name.chars] then some s.nodeCount else walk s rootNode q := by
  have hp : parent < s.nodeCount := (hs.listing hpc).lt
  have hfind : ∀ q p, walk s rootNode q = some p → ∀ y, findChild (addLeaf s parent node) p y =
      if p = parent ∧ y = node.name.chars then some s.nodeCount else findChild s p y := by
    intro q p hw y
    have hsame : (children s p).find? (fun n =>
        ((addLeaf s parent node).nodes n).name.chars = y) = findChild s p y := by
      refine List.find?_congr fun n hn => ?_
      obtain ⟨c, hc, -⟩ := nodes_addLeaf_old node hp ((hs.listing hw).entry_lt n hn)
      rw [hc]
    rw [findChild, (hs.listing hw).children_addLeaf node hp]
    by_cases hpe : p = parent
    · subst hpe
      rw [if_pos rfl, List.find?_cons, hsame, nodes_addLeaf_new node hp]
      by_cases hy : node.name.chars = y
      · simp [hy]
      · have hy' : y ≠ node.name.chars := fun e => hy e.symm
        simp [hy, hy']
    · rw [if_neg hpe, hsame, if_neg fun e => hpe e.1]
  refine walk_update hpc (fun q hq => hs.walk_injective hq hpc) hfind ?_ ?_ q
  · intro n y hn
    rw [hnew] at hn
    cases hn
  · rintro n y hn
    obtain rfl := Option.some.inj hn
    simp [findChild, children_addLeaf_new hp hnode]

theorem walk_addLeaf (hs : Wf s) {parent : ℕ} {node : VfsNode}
    (hpc : walk s rootNode pc = some parent) (hnode : node.firstChild = none)
    (hnew : findChild s parent node.name.chars = none) (q : List (List Byte)) :
    walk (addLeaf s parent node) rootNode q =
      if q = pc ++ [node.name.chars] then some s.nodeCount else walk s rootNode q :=
  hs.listings.walk_addLeaf hpc hnode hnew q

/-! ### Removing a leaf -/

theorem unlinkScan_eq_some :
    ∀ {fuel : ℕ} {link o link' : Option ℕ} {t : ℕ},
      unlinkScan nodes name fuel link o = some (link', t) →
      ∃ A B, Chain.chain (fun n => (nodes n).nextSibling) fuel o = A ++ t :: B ∧
        (nodes t).name.chars = name ∧ link' = A.getLast?.or link := by
  intro fuel
  induction fuel with
  | zero => intro link o link' t h; simp [unlinkScan] at h
  | succ fuel ih =>
    intro link o link' t h
    cases o with
    | none => simp [unlinkScan] at h
    | some n =>
      rw [unlinkScan] at h
      split_ifs at h with hn
      · obtain ⟨rfl, rfl⟩ := Prod.mk.inj (Option.some.inj h)
        exact ⟨[], _, Chain.chain_succ_some _ _ _, hn, by simp⟩
      · obtain ⟨A, B, hchain, hname, hlink⟩ := ih h
        refine ⟨n :: A, B, by rw [Chain.chain_succ_some, hchain]; rfl, hname, ?_⟩
        rw [hlink]
        cases A <;> simp [List.getLast?_cons]

theorem unlinkScan_eq_none :
    ∀ {fuel : ℕ} {link o : Option ℕ}, unlinkScan nodes name fuel link o = none →
      ∀ n ∈ Chain.chain (fun n => (nodes n).nextSibling) fuel o, (nodes n).name.chars ≠ name := by
  intro fuel
  induction fuel with
  | zero => intro link o _ n hn; simp at hn
  | succ fuel ih =>
    intro link o h n hn
    cases o with
    | none => simp at hn
    | some m =>
      rw [unlinkScan] at h
      split_ifs at h with hm
      rw [Chain.chain_succ_some] at hn
      rcases List.mem_cons.1 hn with rfl | hn
      · exact hm
      · exact ih h n hn

/-- The two pools differ in the links, and in time stamps. -/
structure Removed (s s' : Pool) (parent target : ℕ) : Prop where
  count : s'.nodeCount = s.nodeCount
  /-- No node changes more than its links and its time stamp. -/
  node : ∀ n, ∃ t c x, s'.nodes n =
    { s.nodes n with modified := t, firstChild := c, nextSibling := x }
  /-- The target is cut out of the children of its parent. -/
  children_parent : ∃ A B, children s parent = A ++ target :: B ∧ children s' parent = A ++ B
  children_other : ∀ p, p < s.nodeCount → p ≠ parent → children s' p = children s p
  wf : Wf s'

theorem nodes_touch_node (s : Pool) (n m : ℕ) :
    ∃ t, (s.touch n).nodes m = { s.nodes m with modified := t } := by
  rw [Pool.nodes_touch]
  split_ifs with h
  · exact ⟨_, by rw [h]⟩
  · exact ⟨_, rfl⟩

theorem spliceOut_node (s : Pool) (parent : ℕ) (link : Option ℕ) (target n : ℕ) :
    ∃ c x, (spliceOut s parent link target).nodes n =
      { s.nodes n with firstChild := c, nextSibling := x } := by
  cases link with
  | none =>
    rw [spliceOut, Pool.nodes_modifyNode]
    split_ifs with h
    · exact ⟨_, _, by rw [h]⟩
    · exact ⟨_, _, rfl⟩
  | some q =>
    rw [spliceOut, Pool.nodes_modifyNode]
    split_ifs with h
    · exact ⟨_, _, by rw [h]⟩
    · exact ⟨_, _, rfl⟩

theorem Listing.children_spliceOut {d parent : ℕ} (hd : Listing s d) (hp : Listing s parent)
    (h : children s parent = A ++ t :: B) :
    children (spliceOut s parent A.getLast? t) d = if d = parent then A ++ B else children s d := by
  have hlinks := hp.links
  have hnodup := hp.nodup
  have hshort : (A ++ B).length ≤ s.nodeCount := by
    have := hp.length_le
    rw [h] at this
    simp only [List.length_append, List.length_cons] at this ⊢
    omega
  rcases List.eq_nil_or_concat' A with rfl | ⟨A, q, rfl⟩
  · -- the directory itself points at the target
    have hnext : nextOf (s.modifyNode parent fun p =>
        { p with firstChild := (s.nodes t).nextSibling }) = nextOf s := funext fun n => by
      rw [nextOf, Pool.nodes_modifyNode]
      split_ifs with hn
      · rw [hn, nextOf]
      · rfl
    rw [List.getLast?_nil, spliceOut]
    split_ifs with hdp
    · rw [hdp, children, hnext, Pool.nodes_modifyNode_self]
      rw [h] at hlinks
      exact Chain.chain_of_links hlinks.2 hshort
    · rw [children, hnext, Pool.nodes_modifyNode_of_ne s _ hdp]
      rfl
  · -- the sibling before the target does
    rw [List.append_assoc, List.singleton_append] at h
    set s₁ := s.modifyNode q fun n => { n with nextSibling := (s.nodes t).nextSibling } with hs₁
    have hsplice : spliceOut s parent (A ++ [q]).getLast? t = s₁ := by simp [spliceOut, hs₁]
    have hq : nextOf s₁ q = nextOf s t := by simp [nextOf, hs₁]
    have hne : ∀ m, m ≠ q → nextOf s₁ m = nextOf s m := fun m hm => by
      simp [nextOf, hs₁, Pool.nodes_modifyNode_of_ne s _ hm]
    have hfirst : (s₁.nodes d).firstChild = (s.nodes d).firstChild := by
      rw [hs₁, Pool.nodes_modifyNode]
      split_ifs with hdq
      · rw [hdq]
      · rfl
    have hqmem : q ∈ children s parent := by rw [h]; simp
    rw [hsplice, children, hfirst]
    split_ifs with hdp
    · subst hdp
      rw [h] at hlinks hnodup
      obtain ⟨-, hqB, hdis⟩ := List.nodup_append'.1 hnodup
      have hqA : q ∉ A := fun hm => hdis hm List.mem_cons_self
      have hqB' : q ∉ B := fun hm => (List.nodup_cons.1 hqB).1 (List.mem_cons_of_mem _ hm)
      rw [List.append_assoc, List.singleton_append] at hshort ⊢
      exact Chain.chain_of_links (hlinks.cut hqA hqB' hq hne) hshort
    · -- the redirected sibling is in no other directory
      refine Chain.chain_of_links (hd.links.congr fun c hc => hne c ?_) hd.length_le
      rintro rfl
      have hpar := hd.parent c hc
      rw [hp.parent c hqmem] at hpar
      exact hdp (Option.some.inj hpar).symm

/-- **Cutting a leaf out of its directory removes one path.** -/
theorem Listings.walk_cut (hs : Listings s) {parent : ℕ} (hpc : walk s rootNode pc = some parent)
    (h : children s parent = A ++ t :: B) (hleaf : (s.nodes t).firstChild = none)
    (hname : ∀ c, (s'.nodes c).name = (s.nodes c).name)
    (hcut : ∀ {d}, Listing s d → children s' d = if d = parent then A ++ B else children s d)
    (q : List (List Byte)) :
    walk s' rootNode q = if q = pc ++ [(s.nodes t).name.chars] then none else walk s rootNode q := by
  have hfind : ∀ q p, walk s rootNode q = some p → ∀ y, findChild s' p y =
      if p = parent ∧ y = (s.nodes t).name.chars then none else findChild s p y := by
    intro q p hw y
    have hfind' : findChild s' p y =
        (if p = parent then A ++ B else children s p).find? fun n => (s.nodes n).name.chars = y := by
      rw [findChild, hcut (hs.listing hw)]
      exact List.find?_congr fun c _ => by rw [hname c]
    rw [hfind']
    by_cases hpp : p = parent
    · subst hpp
      have hnames := (hs.listing hw).distinct
      rw [h, List.map_append, List.map_cons] at hnames
      obtain ⟨-, htB, hdis⟩ := List.nodup_append'.1 hnames
      rw [if_pos rfl, findChild, h]
      by_cases hy : y = (s.nodes t).name.chars
      · rw [if_pos ⟨rfl, hy⟩, List.find?_eq_none]
        intro c hc
        rw [decide_eq_true_eq, hy]
        intro e
        rcases List.mem_append.1 hc with hc | hc
        · exact hdis (List.mem_map_of_mem hc) (by rw [e]; exact List.mem_cons_self)
        · exact (List.nodup_cons.1 htB).1 (by rw [← e]; exact List.mem_map_of_mem hc)
      · rw [if_neg fun e => hy e.2, List.find?_append, List.find?_append, List.find?_cons]
        have : ¬ (s.nodes t).name.chars = y := fun e => hy e.symm
        simp [this]
    · rw [if_neg hpp, if_neg fun e => hpp e.1]
      rfl
  refine walk_update hpc (fun q hq => hs.walk_injective hq hpc) hfind ?_ ?_ q
  · intro n y hn
    obtain rfl : t = n := Option.some.inj
      (((hs.listing hpc).findChild_eq_some_iff.2 ⟨by rw [h]; simp, rfl⟩).symm.trans hn)
    simp [findChild, children, hleaf]
  · intro n y hn
    cases hn

/-- **`vfs_unlink` removes its target from its parent, and nothing else.** -/
theorem removed_spliceOut (hs : Wf s) {parent : ℕ} (hp : parent < s.nodeCount)
    (h : children s parent = A ++ t :: B) :
    Removed s ((spliceOut s parent A.getLast? t).touch parent) parent t := by
  set s₁ := spliceOut s parent A.getLast? t with hs₁
  have hlinks : SameLinks s₁ (s₁.touch parent) := SameLinks.touch s₁ parent
  have hcut : ∀ {d}, d < s.nodeCount → children s₁ d = if d = parent then A ++ B else children s d :=
    fun hd => (hs.listing hd).children_spliceOut (hs.listing hp) h
  have hpar : children s₁ parent = A ++ B := (hcut hp).trans (if_pos rfl)
  have hother : ∀ p, p < s.nodeCount → p ≠ parent → children s₁ p = children s p :=
    fun p hlt hne => (hcut hlt).trans (if_neg hne)
  have hcount : s₁.nodeCount = s.nodeCount := by
    rw [hs₁]
    cases A.getLast? <;> rfl
  have hnode : ∀ n, ∃ c x, s₁.nodes n = { s.nodes n with firstChild := c, nextSibling := x } :=
    fun n => spliceOut_node s parent _ t n
  have hsame : ∀ n, (s₁.nodes n).parent = (s.nodes n).parent ∧
      (s₁.nodes n).type = (s.nodes n).type ∧ (s₁.nodes n).name = (s.nodes n).name := fun n => by
    obtain ⟨c, x, hn⟩ := hnode n
    rw [hn]
    exact ⟨rfl, rfl, rfl⟩
  have htmem : t ∈ children s parent := by rw [h]; simp
  obtain ⟨-, htlt, htpar⟩ := hs.mem_children hp htmem
  -- the redirected link leads where the link of the target led
  have hnext : ∀ n m, n < s.nodeCount → nextOf s₁ n = some m →
      0 < m ∧ m < n ∧ (s.nodes m).parent = (s.nodes n).parent := by
    intro n m hn hm
    rcases List.eq_nil_or_concat' A with rfl | ⟨A, q, rfl⟩
    · refine hs.next_lt n m hn ?_
      rw [← hm, hs₁, List.getLast?_nil, spliceOut, nextOf, nextOf, Pool.nodes_modifyNode]
      split_ifs with he
      · rw [he]
      · rfl
    · by_cases hnq : n = q
      · subst hnq
        have hqt : t < n := by
          have hpair := Chain.pairwise_chain hs.descending s.nodeCount _
            fun n hn => hs.first_lt hp hn
          rw [← children, h, List.append_assoc, List.singleton_append] at hpair
          exact (List.pairwise_cons.1 (List.pairwise_append.1 hpair).2.1).1 t (by simp)
        have hnmem : n ∈ children s parent := by rw [h]; simp
        have hnpar := (hs.mem_children hp hnmem).2.2
        have hm' : nextOf s t = some m := by
          rw [← hm, hs₁]
          simp [spliceOut, nextOf]
        obtain ⟨hm0, hmt, hmpar⟩ := hs.next_lt t m htlt hm'
        exact ⟨hm0, by omega, by rw [hmpar, htpar, hnpar]⟩
      · refine hs.next_lt n m hn ?_
        rw [← hm, hs₁]
        simp [spliceOut, nextOf, Pool.nodes_modifyNode_of_ne s _ hnq]
  have hfirst : ∀ p c, p < s.nodeCount → (s₁.nodes p).firstChild = some c →
      0 < c ∧ c < s.nodeCount ∧ (s.nodes c).parent = some p := by
    intro p c hlt hc
    rcases List.eq_nil_or_concat' A with rfl | ⟨A, q, rfl⟩
    · rw [hs₁, List.getLast?_nil, spliceOut, Pool.nodes_modifyNode] at hc
      split_ifs at hc with hpe
      · subst hpe
        obtain ⟨hc0, hct, hcpar⟩ := hs.next_lt t c htlt hc
        exact ⟨hc0, by omega, by rw [hcpar, htpar]⟩
      · exact hs.first_child p c hlt hc
    · refine hs.first_child p c hlt ?_
      rw [← hc, hs₁]
      simp only [List.getLast?_append, List.getLast?_singleton, Option.some_or, spliceOut,
        Pool.nodes_modifyNode]
      split_ifs with hpq
      · rw [hpq]
      · rfl
  have hwf : Wf s₁ :=
    { count_pos := hcount ▸ hs.count_pos
      count_le := hcount ▸ hs.count_le
      root_dir := (hsame _).2.1.trans hs.root_dir
      root_parent := (hsame _).1.trans hs.root_parent
      parent_lt := by
        intro n hn0 hn
        obtain ⟨p, hpp, hpn, hd⟩ := hs.parent_lt n hn0 (hcount ▸ hn)
        exact ⟨p, (hsame n).1.trans hpp, hpn, (hsame p).2.1.trans hd⟩
      next_lt := by
        intro n m hn hm
        obtain ⟨hm0, hmn, hmp⟩ := hnext n m (hcount ▸ hn) hm
        exact ⟨hm0, hmn, by rw [(hsame m).1, (hsame n).1, hmp]⟩
      first_child := by
        intro p c hlt hc
        obtain ⟨hc0, hclt, hcp⟩ := hfirst p c (hcount ▸ hlt) hc
        exact ⟨hc0, by omega, (hsame c).1.trans hcp⟩
      name_valid := by
        intro n hn0 hn
        rw [(hsame n).2.2]
        exact hs.name_valid n hn0 (hcount ▸ hn)
      distinct := by
        intro p hlt
        have hname : (fun n => (s₁.nodes n).name.chars) = fun n => (s.nodes n).name.chars :=
          funext fun n => by rw [(hsame n).2.2]
        rw [hname]
        by_cases hpe : p = parent
        · have hd := hs.distinct p (hcount ▸ hlt)
          rw [hpe, h] at hd
          rw [hpe, hpar]
          refine hd.sublist (List.Sublist.map _ ?_)
          exact List.Sublist.append_left (List.sublist_cons_self t B) A
        · rw [hother p (hcount ▸ hlt) hpe]
          exact hs.distinct p (hcount ▸ hlt) }
  exact
    { count := hcount
      node := by
        intro n
        obtain ⟨c, x, hn⟩ := hnode n
        obtain ⟨t', ht'⟩ := nodes_touch_node s₁ parent n
        exact ⟨t', c, x, by rw [ht', hn]⟩
      children_parent := ⟨A, B, h, (hlinks.children_eq parent).trans hpar⟩
      children_other := fun p hlt hne => (hlinks.children_eq p).trans (hother p hlt hne)
      wf := hlinks.wf hwf }

namespace Removed

variable {parent target : ℕ}

/-- **Unlinking a leaf removes one path.** -/
theorem walk_eq (h : Removed s s' parent target) (hs : Wf s) {pc : List (List Byte)}
    {x : List Byte} (hpc : walk s rootNode pc = some parent)
    (hx : findChild s parent x = some target) (hleaf : (s.nodes target).firstChild = none)
    (q : List (List Byte)) :
    walk s' rootNode q = if q = pc ++ [x] then none else walk s rootNode q := by
  have hp : parent < s.nodeCount := hs.walk_lt pc hs.count_pos hpc
  obtain ⟨A, B, hold, hnew⟩ := h.children_parent
  obtain rfl : (s.nodes target).name.chars = x := (hs.of_findChild hp hx).2.2.2
  refine hs.listings.walk_cut hpc hold hleaf (fun n => ?_) (fun {d} hd => ?_) q
  · obtain ⟨t, c, z, hn⟩ := h.node n
    rw [hn]
  · split_ifs with hdp
    · rw [hdp, hnew]
    · exact h.children_other d hd.lt hdp

end Removed

/-! ### What each operation can do -/

/-- The record a new leaf of `vfs_mkdir` and `vfs_create_file` starts from. -/
abbrev leafNode (s : Pool) (x : List Byte) (type : NodeType) (mode uid gid : UInt32) : VfsNode :=
  freshNode (s.clock + 1) x type mode uid gid

theorem leafNode_name (s : Pool) (hx : ValidName x) (type : NodeType)
    (mode uid gid : UInt32) : (leafNode s x type mode uid gid).name.chars = x :=
  CharBuf.strncpy_chars_of_le hx.no_nul hx.length_le

/-- **`vfs_mkdir` and `vfs_create_file`** fail and change nothing, or add one leaf. -/
theorem vfsMake_cases (s : Pool) (type : NodeType)
    (mode uid gid : UInt32) (hp : 0 ∉ path) (hc : 0 ∉ cwd) :
    (∃ rc : ℤ, rc < 0 ∧ vfsMake type s path cwd mode uid gid = (s, rc)) ∨
      ∃ pc x parent, resolve path cwd = some (pc ++ [x]) ∧ walk s rootNode pc = some parent ∧
        (s.nodes parent).type = .dir ∧ findChild s parent x = none ∧
        s.nodeCount < vfsMaxNodes ∧
        vfsMake type s path cwd mode uid gid =
          (addLeaf s parent (leafNode s x type mode uid gid), 0) := by
  unfold vfsMake
  cases hpn : parentAndName s path cwd with
  | none => exact .inl ⟨-1, by decide, rfl⟩
  | some pn =>
    obtain ⟨parent, x⟩ := pn
    obtain ⟨pc, hres, hw, hdir⟩ := (parentAndName_eq_some hp hc).1 hpn
    simp only
    split_ifs with hex
    · exact .inl ⟨-2, by decide, rfl⟩
    · have hnone : findChild s parent x = none := by simpa using hex
      by_cases hfull : vfsMaxNodes ≤ s.nodeCount
      · exact .inl ⟨-3, by decide, by rw [allocNode, if_pos hfull]⟩
      · refine .inr ⟨pc, x, parent, hres, hw, hdir, hnone, not_le.1 hfull, ?_⟩
        rw [allocNode, if_neg hfull]
        rfl

theorem vfsMake_of_new (type : NodeType) (mode uid gid : UInt32)
    (hp : 0 ∉ path) (hc : 0 ∉ cwd) {parent : ℕ}
    (hres : resolve path cwd = some (pc ++ [x])) (hw : walk s rootNode pc = some parent)
    (hdir : (s.nodes parent).type = .dir) (hnew : findChild s parent x = none)
    (hfull : s.nodeCount < vfsMaxNodes) :
    vfsMake type s path cwd mode uid gid =
      (addLeaf s parent (leafNode s x type mode uid gid), 0) := by
  have hpn := (parentAndName_eq_some hp hc).2 ⟨pc, hres, hw, hdir⟩
  simp only [vfsMake, hpn, hnew, Option.isSome_none, Bool.false_eq_true, if_false]
  rw [allocNode, if_neg (not_le.2 hfull)]
  rfl

theorem vfsMake_of_exists (type : NodeType) (mode uid gid : UInt32)
    (hp : 0 ∉ path) (hc : 0 ∉ cwd) {parent : ℕ}
    (hres : resolve path cwd = some (pc ++ [x])) (hw : walk s rootNode pc = some parent)
    (hdir : (s.nodes parent).type = .dir) (hx : findChild s parent x = some n) :
    vfsMake type s path cwd mode uid gid = (s, -2) := by
  have hpn := (parentAndName_eq_some hp hc).2 ⟨pc, hres, hw, hdir⟩
  simp only [vfsMake, hpn, hx, Option.isSome_some, if_true]

theorem vfsMake_of_wf (hs : Wf s) (type : NodeType)
    (mode uid gid : UInt32) (hp : 0 ∉ path) (hc : 0 ∉ cwd) :
    Wf (vfsMake type s path cwd mode uid gid).1 := by
  rcases vfsMake_cases s type mode uid gid hp hc with
    ⟨rc, -, he⟩ | ⟨pc, x, parent, hres, hw, hdir, hnew, hfull, he⟩
  · rw [he]
    exact hs
  · have hx : ValidName x := (proper_of_resolve hp hc hres).valid x (by simp)
    have hname := leafNode_name s hx type mode uid gid
    rw [he]
    exact wf_addLeaf hs (hs.walk_lt pc hs.count_pos hw) hdir hfull rfl
      (by rw [hname]; exact hx) (by rw [hname]; exact hnew)

/-- **`vfs_unlink`** fails and changes nothing, or removes one leaf. -/
theorem vfsUnlink_cases (hs : Wf s) (hp : 0 ∉ path) (hc : 0 ∉ cwd) :
    (∃ rc : ℤ, rc < 0 ∧ vfsUnlink s path cwd = (s, rc)) ∨
      ∃ pc x parent target s', resolve path cwd = some (pc ++ [x]) ∧
        walk s rootNode pc = some parent ∧ findChild s parent x = some target ∧
        (s.nodes target).firstChild = none ∧ Removed s s' parent target ∧
        vfsUnlink s path cwd = (s', 0) := by
  unfold vfsUnlink
  cases hpn : parentAndName s path cwd with
  | none => exact .inl ⟨-1, by decide, rfl⟩
  | some pn =>
    obtain ⟨parent, x⟩ := pn
    obtain ⟨pc, hres, hw, -⟩ := (parentAndName_eq_some hp hc).1 hpn
    have hparent : parent < s.nodeCount := hs.walk_lt pc hs.count_pos hw
    simp only
    cases hscan : unlinkScan s.nodes x s.nodeCount none (s.nodes parent).firstChild with
    | none => exact .inl ⟨-1, by decide, rfl⟩
    | some lt =>
      obtain ⟨link, target⟩ := lt
      obtain ⟨A, B, hchain, hname, hlink⟩ := unlinkScan_eq_some hscan
      have hchildren : children s parent = A ++ target :: B := hchain
      rw [Option.or_none] at hlink
      simp only
      split_ifs with hleaf
      · exact .inl ⟨-2, by decide, rfl⟩
      · refine .inr ⟨pc, x, parent, target, _, hres, hw, ?_, by simpa using hleaf, ?_, rfl⟩
        · exact (hs.findChild_eq_some_iff hparent).2 ⟨by rw [hchildren]; simp, hname⟩
        · rw [hlink]
          exact removed_spliceOut hs hparent hchildren

theorem sameLinks_vfsSetContents (s : Pool) (node : ℕ) (data : List Byte) :
    SameLinks s (vfsSetContents s node data) :=
  (SameLinks.modifyNode s node _ rfl rfl rfl rfl rfl).trans (SameLinks.touch _ node)

theorem sameLinks_vfsChmod (s : Pool) (path cwd : List Byte) (mode : UInt32) :
    SameLinks s (vfsChmod s path cwd mode).1 := by
  unfold vfsChmod
  cases vfsLookup s path cwd with
  | none => exact SameLinks.refl s
  | some node =>
    exact (SameLinks.modifyNode s node _ rfl rfl rfl rfl rfl).trans (SameLinks.touch _ node)

theorem sameLinks_vfsChown (s : Pool) (path cwd : List Byte) (uid gid : UInt32) :
    SameLinks s (vfsChown s path cwd uid gid).1 := by
  unfold vfsChown
  cases vfsLookup s path cwd with
  | none => exact SameLinks.refl s
  | some node =>
    exact (SameLinks.modifyNode s node _ rfl rfl rfl rfl rfl).trans (SameLinks.touch _ node)

/-- **`vfs_write_node`** changes contents, size and time stamp of one file, if anything. -/
theorem vfsWriteNode_cases {node : ℕ} {rc : ℤ}
    (h : vfsWriteNode kmalloc s node offset buf = some (s', rc)) :
    s' = s ∨ (s.nodes node).type = .file ∧ ∃ d size b,
      (size = (s.nodes node).size ∨ kmalloc (size + 1) = true) ∧
        s' = (s.modifyNode node fun n =>
          { n with data := d, size := size, dataBorrowed := b }).touch node := by
  unfold vfsWriteNode at h
  simp only at h
  split_ifs at h with htype hgrow hmem hbuf
  · exact .inl (Prod.mk.inj (Option.some.inj h)).1.symm
  · exact .inl (Prod.mk.inj (Option.some.inj h)).1.symm
  · obtain ⟨old, -, h⟩ := Option.bind_eq_some_iff.1 h
    obtain ⟨d, -, h⟩ := Option.map_eq_some_iff.1 h
    refine .inr ⟨by simpa using htype, some d, _, false, .inr (by simpa using hmem), ?_⟩
    exact (Prod.mk.inj h).1.symm
  · refine .inr ⟨by simpa using htype, (s.nodes node).data, (s.nodes node).size,
      (s.nodes node).dataBorrowed, .inl rfl, ?_⟩
    rw [← (Prod.mk.inj (Option.some.inj h)).1]
    rw [Pool.modifyNode_eq_self rfl]
  · obtain ⟨d, -, h⟩ := Option.bind_eq_some_iff.1 h
    obtain ⟨d', -, h⟩ := Option.map_eq_some_iff.1 h
    refine .inr ⟨by simpa using htype, some d', (s.nodes node).size,
      (s.nodes node).dataBorrowed, .inl rfl, (Prod.mk.inj h).1.symm⟩

theorem sameLinks_vfsWriteNode {node : ℕ} {rc : ℤ}
    (h : vfsWriteNode kmalloc s node offset buf = some (s', rc)) : SameLinks s s' := by
  rcases vfsWriteNode_cases h with rfl | ⟨-, d, size, b, -, rfl⟩
  · exact SameLinks.refl s'
  · exact (SameLinks.modifyNode s node _ rfl rfl rfl rfl rfl).trans (SameLinks.touch _ node)

theorem ensureFile_cases (s : Pool) (path cwd : List Byte) :
    (ensureFile s path cwd).1 = s ∨
      (ensureFile s path cwd).1 = (vfsCreateFile s path cwd (vfsSIfreg ||| 0o644) 0 0).1 := by
  unfold ensureFile
  cases vfsLookup s path cwd with
  | none => exact .inr rfl
  | some _ => exact .inl rfl

/-- **`vfs_write_file`** makes the file if there is none, and replaces its contents. -/
theorem vfsWriteFile_cases (kmalloc : ℕ → Bool) (s : Pool) (path cwd data : List Byte) :
    (vfsWriteFile kmalloc s path cwd data).1 = (ensureFile s path cwd).1 ∨
      ∃ node, (((ensureFile s path cwd).1.nodes node).type = .file ∨
          ((ensureFile s path cwd).1.nodes node).type = .proc) ∧
        (data = [] ∨ kmalloc (data.length + 1) = true) ∧
        (vfsWriteFile kmalloc s path cwd data).1 =
          vfsSetContents (ensureFile s path cwd).1 node data := by
  unfold vfsWriteFile
  set made := ensureFile s path cwd with hmade
  simp only
  by_cases hrc : made.2 < 0
  · exact .inl (by rw [if_pos hrc])
  · rw [if_neg hrc]
    cases vfsLookup made.1 path cwd with
    | none => exact .inl rfl
    | some node =>
      simp only
      split_ifs with htype hmem
      · exact .inl rfl
      · exact .inl rfl
      · refine .inr ⟨node, by tauto, ?_, rfl⟩
        by_cases hd : data = []
        · exact .inl hd
        · exact .inr (by simpa [hd] using hmem)

/-- A change of what one node holds. -/
inductive Rewrites (s : Pool) : Pool → Prop
  | contents (node : ℕ) (data : List Byte) (k : Kmalloc)
      (hd : data = [] ∨ k.grants (data.length + 1) = true) : Rewrites s (vfsSetContents s node data)
  | write {s' : Pool} {node offset : ℕ} {buf : List Byte} {rc : ℤ} (k : Kmalloc)
      (h : vfsWriteNode k.grants s node offset buf = some (s', rc)) : Rewrites s s'
  | mode (path cwd : List Byte) (mode : UInt32) : Rewrites s (vfsChmod s path cwd mode).1
  | owner (path cwd : List Byte) (uid gid : UInt32) : Rewrites s (vfsChown s path cwd uid gid).1

theorem Rewrites.sameLinks (h : Rewrites s s') : SameLinks s s' := by
  cases h with
  | contents node data k hd => exact sameLinks_vfsSetContents s node data
  | write k h => exact sameLinks_vfsWriteNode h
  | mode path cwd mode => exact sameLinks_vfsChmod s path cwd mode
  | owner path cwd uid gid => exact sameLinks_vfsChown s path cwd uid gid

/-! ### Runs -/

/-- The call may make a node at a path. -/
def VfsOp.Makes (path cwd : CString) : VfsOp → Prop
  | .mkdir p c _ _ _ | .createFile p c _ _ _ | .writeFile p c _ _ => p = path ∧ c = cwd
  | _ => False

/-- **All a step can do**: it makes a directory or a file, it takes a leaf out, it changes what a node
holds, or it makes a file and then fills it. -/
theorem step_keeps {P : Pool → Prop} {op : VfsOp} (hs : Wf s) (h : P s)
    (hmake : ∀ {path cwd : CString} {type : NodeType} (mode uid gid : UInt32), op.Makes path cwd →
      type = .dir ∨ type = .file → P (vfsMake type s path.chars cwd.chars mode uid gid).1)
    (hrem : ∀ {path cwd pc x parent target s'}, op = .unlink path cwd →
      resolve path.chars cwd.chars = some (pc ++ [x]) → walk s rootNode pc = some parent →
      findChild s parent x = some target → (s.nodes target).firstChild = none →
      Removed s s' parent target → P s')
    (hset : ∀ {s₁ s₂}, P s₁ → Rewrites s₁ s₂ → P s₂) (hstep : step s op = some s') : P s' := by
  cases op with
  | mkdir path cwd mode uid gid =>
    obtain rfl := Option.some.inj hstep
    exact hmake mode uid gid ⟨rfl, rfl⟩ (.inl rfl)
  | createFile path cwd mode uid gid =>
    obtain rfl := Option.some.inj hstep
    exact hmake mode uid gid ⟨rfl, rfl⟩ (.inr rfl)
  | writeFile path cwd data k =>
    obtain rfl := Option.some.inj hstep
    have hmade : P (ensureFile s path.chars cwd.chars).1 := by
      rcases ensureFile_cases s path.chars cwd.chars with he | he
      · rw [he]
        exact h
      · rw [he]
        exact hmake _ _ _ ⟨rfl, rfl⟩ (.inr rfl)
    rcases vfsWriteFile_cases k.grants s path.chars cwd.chars data with he | ⟨node, -, hd, he⟩
    · rw [he]
      exact hmade
    · rw [he]
      exact hset hmade (.contents node data k hd)
  | writeNode node offset buf k =>
    rw [step] at hstep
    split_ifs at hstep with hnode
    obtain ⟨⟨s₁, rc⟩, hw, rfl⟩ := Option.map_eq_some_iff.1 hstep
    exact hset h (.write k hw)
  | unlink path cwd =>
    obtain rfl := Option.some.inj hstep
    rcases vfsUnlink_cases hs path.nul_free cwd.nul_free with
      ⟨rc, -, he⟩ | ⟨pc, x, parent, target, s₁, hres, hw, hx, hleaf, hr, he⟩
    · rw [he]
      exact h
    · rw [he]
      exact hrem rfl hres hw hx hleaf hr
  | chmod path cwd mode =>
    obtain rfl := Option.some.inj hstep
    exact hset h (.mode path.chars cwd.chars mode)
  | chown path cwd uid gid =>
    obtain rfl := Option.some.inj hstep
    exact hset h (.owner path.chars cwd.chars uid gid)

theorem wf_of_step (hs : Wf s) {op : VfsOp} (h : step s op = some s') : Wf s' :=
  step_keeps hs hs (fun {path cwd _} mode uid gid _ _ =>
    vfsMake_of_wf hs _ mode uid gid path.nul_free cwd.nul_free)
    (fun _ _ _ _ _ hr => hr.wf) (fun h hr => hr.sameLinks.wf h) h

theorem wf_initRoot : Wf initRoot where
  count_pos := Nat.one_pos
  count_le := by decide
  root_dir := rfl
  root_parent := rfl
  parent_lt n h0 hn := by
    have : n < 1 := hn
    omega
  next_lt n m _ hm := by cases hm
  first_child p c _ hc := by cases hc
  name_valid n h0 hn := by
    have : n < 1 := hn
    omega
  distinct p _ := by simp [children, initRoot, freshNode]

theorem vfsInit_induction {P : Pool → Prop} (hroot : P initRoot)
    (hstep : ∀ s path mode, 0 ∉ path → Wf s → P s → P (vfsMkdir s path [slash] mode 0 0).1) :
    Wf vfsInit ∧ P vfsInit := by
  have hfold : ∀ (dirs : List (List Byte × UInt32)) (s : Pool), (∀ d ∈ dirs, 0 ∉ d.1) →
      Wf s ∧ P s →
        Wf (dirs.foldl (fun s d => (vfsMkdir s d.1 [slash] (vfsSIfdir ||| d.2) 0 0).1) s) ∧
        P (dirs.foldl (fun s d => (vfsMkdir s d.1 [slash] (vfsSIfdir ||| d.2) 0 0).1) s) := by
    intro dirs
    induction dirs with
    | nil => intro s _ hs; exact hs
    | cons d dirs ih =>
      rintro s hd ⟨hs, hP⟩
      have h0 : 0 ∉ d.1 := hd d (by simp)
      exact ih _ (fun e he => hd e (by simp [he]))
        ⟨vfsMake_of_wf hs .dir _ 0 0 h0 (by decide), hstep s d.1 _ h0 hs hP⟩
  exact hfold initDirs initRoot (by decide) ⟨wf_initRoot, hroot⟩

theorem wf_vfsInit : Wf vfsInit :=
  (vfsInit_induction (P := fun _ => True) trivial fun _ _ _ _ _ _ => trivial).1

/-- **Every reachable pool has the shape.** -/
theorem wf_of_reachable (h : Reachable s) : Wf s := by
  induction h with
  | init => exact wf_vfsInit
  | step op _ hstep ih => exact wf_of_step ih hstep

end Tnu.Vfs
