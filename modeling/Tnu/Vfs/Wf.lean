/-
**The shape of the node pool.**

The nodes of `kernel/fs/vfs.c` form a tree: every node but the root has an older directory as its
parent, a sibling chain leads to older nodes of the same parent, and the children of a directory
have distinct names.  Nodes that were unlinked stay in the pool and keep their own links, so the
shape is stated for all allocated nodes and not only for those the root reaches.

Main results:

* `Listings.walk_injective` — **a node has at most one path**;
* `Wf.vfsLookup_eq`, `Wf.parentAndName_eq_some` — what path resolution computes.
-/

import Tnu.Vfs.Ops

set_option autoImplicit false

namespace Tnu.Vfs

/-- The shape of the pool. -/
structure Wf (s : Pool) : Prop where
  count_pos : 0 < s.nodeCount
  count_le : s.nodeCount ≤ vfsMaxNodes
  root_dir : (s.nodes rootNode).type = .dir
  root_parent : (s.nodes rootNode).parent = none
  /-- Every other node has an older directory as its parent. -/
  parent_lt : ∀ n, 0 < n → n < s.nodeCount →
    ∃ p, (s.nodes n).parent = some p ∧ p < n ∧ (s.nodes p).type = .dir
  /-- A sibling link leads to an older node of the same parent. -/
  next_lt : ∀ n m, n < s.nodeCount → nextOf s n = some m →
    0 < m ∧ m < n ∧ (s.nodes m).parent = (s.nodes n).parent
  first_child : ∀ p c, p < s.nodeCount → (s.nodes p).firstChild = some c →
    0 < c ∧ c < s.nodeCount ∧ (s.nodes c).parent = some p
  name_valid : ∀ n, 0 < n → n < s.nodeCount → ValidName (s.nodes n).name.chars
  /-- Siblings have distinct names. -/
  distinct : ∀ p, p < s.nodeCount →
    ((children s p).map fun n => (s.nodes n).name.chars).Nodup

variable {x cwd path : List Byte}

/-! ### Listings -/

/-- The sibling chain of a directory ends, and its entries point back at it. -/
structure Listing (s : Pool) (d : ℕ) : Prop where
  lt : d < s.nodeCount
  links : Chain.Links (nextOf s) (s.nodes d).firstChild (children s d)
  distinct : ((children s d).map fun c => (s.nodes c).name.chars).Nodup
  entry_lt : ∀ c ∈ children s d, c < s.nodeCount
  parent : ∀ c ∈ children s d, (s.nodes c).parent = some d

/-- All that is asked of the directories a path can meet. -/
structure Listings (s : Pool) : Prop where
  listing : ∀ {cs : List (List Byte)} {n : ℕ}, walk s rootNode cs = some n → Listing s n
  root_unlisted : ∀ {cs : List (List Byte)} {n : ℕ}, walk s rootNode cs = some n → rootNode ∉ children s n

section

variable {s : Pool} {cs : List (List Byte)} {d n : ℕ}

theorem Listing.nodup (h : Listing s d) : (children s d).Nodup := h.distinct.of_map _

theorem Listing.length_le (h : Listing s d) : (children s d).length ≤ s.nodeCount := by
  have := (List.subperm_of_subset h.nodup fun c hc => List.mem_range.2 (h.entry_lt c hc)).length_le
  rwa [List.length_range] at this

/-- **`find_child` finds the one child of a name.** -/
theorem Listing.findChild_eq_some_iff (h : Listing s d) :
    findChild s d x = some n ↔ n ∈ children s d ∧ (s.nodes n).name.chars = x := by
  constructor
  · intro hf
    exact ⟨List.mem_of_find?_eq_some hf, by simpa using List.find?_some hf⟩
  · rintro ⟨hn, rfl⟩
    have hsome : (findChild s d (s.nodes n).name.chars).isSome :=
      List.find?_isSome.2 ⟨n, hn, by simp⟩
    obtain ⟨m, hm⟩ := Option.isSome_iff_exists.1 hsome
    have hmem : m ∈ children s d := List.mem_of_find?_eq_some hm
    have hname : (s.nodes m).name.chars = (s.nodes n).name.chars := by
      simpa using List.find?_some hm
    rw [hm, List.inj_on_of_nodup_map h.distinct hmem hn hname]

theorem Listings.walk_snoc_eq_some (h : Listings s) (hw : walk s rootNode (cs ++ [x]) = some n) :
    ∃ p, walk s rootNode cs = some p ∧ (s.nodes n).parent = some p ∧
      (s.nodes n).name.chars = x ∧ n ≠ rootNode := by
  rw [walk_snoc, Option.bind_eq_some_iff] at hw
  obtain ⟨p, hp, hf⟩ := hw
  obtain ⟨hmem, hname⟩ := (h.listing hp).findChild_eq_some_iff.1 hf
  exact ⟨p, hp, (h.listing hp).parent n hmem, hname, fun e => h.root_unlisted hp (e ▸ hmem)⟩

/-- **A node has at most one path.** -/
theorem Listings.walk_injective (h : Listings s) : ∀ {cs ds : List (List Byte)} {n : ℕ},
    walk s rootNode cs = some n → walk s rootNode ds = some n → cs = ds := by
  intro cs
  induction cs using List.reverseRecOn with
  | nil =>
    intro ds n hc hd
    simp only [walk_nil, Option.some.injEq] at hc
    rcases List.eq_nil_or_concat' ds with rfl | ⟨ds, y, rfl⟩
    · rfl
    · obtain ⟨-, -, -, -, hne⟩ := h.walk_snoc_eq_some hd
      exact absurd hc.symm hne
  | append_singleton cs x ih =>
    intro ds n hc hd
    obtain ⟨p, hp, hppar, hpname, hne⟩ := h.walk_snoc_eq_some hc
    rcases List.eq_nil_or_concat' ds with rfl | ⟨ds, y, rfl⟩
    · simp only [walk_nil, Option.some.injEq] at hd
      exact absurd hd.symm hne
    · obtain ⟨q, hq, hqpar, hqname, -⟩ := h.walk_snoc_eq_some hd
      obtain rfl : p = q := by rw [hppar] at hqpar; exact Option.some.inj hqpar
      rw [ih hp hq, ← hpname, ← hqname]

end

namespace Wf

variable {s : Pool}

/-! ### Children -/

theorem descending (h : Wf s) : Chain.Descending (nextOf s) s.nodeCount :=
  fun n m hn hnm => (h.next_lt n m hn hnm).2.1

variable {cs : List (List Byte)} {x : List Byte} {n p : ℕ}

theorem first_lt (h : Wf s) (hp : p < s.nodeCount)
    (hn : (s.nodes p).firstChild = some n) : n < s.nodeCount := (h.first_child p n hp hn).2.1

theorem mem_children (h : Wf s) (hp : p < s.nodeCount) (hn : n ∈ children s p) :
    p < n ∧ n < s.nodeCount ∧ (s.nodes n).parent = some p := by
  have key : 0 < n ∧ n < s.nodeCount ∧ (s.nodes n).parent = some p := by
    refine Chain.forall_mem_chain
      (P := fun k => 0 < k ∧ k < s.nodeCount ∧ (s.nodes k).parent = some p)
      (fun a b ha hab => ?_) s.nodeCount _ (fun k hk => h.first_child p k hp hk) n hn
    obtain ⟨-, hlt, hpar⟩ := ha
    obtain ⟨hb0, hb, hbpar⟩ := h.next_lt a b hlt hab
    exact ⟨hb0, by omega, hbpar.trans hpar⟩
  obtain ⟨h0, hlt, hpar⟩ := key
  obtain ⟨q, hq, hqn, -⟩ := h.parent_lt n h0 hlt
  obtain rfl : q = p := by simpa [hpar] using hq.symm
  exact ⟨hqn, hlt, hpar⟩

theorem dir_of_mem_children (h : Wf s) (hp : p < s.nodeCount)
    (hn : n ∈ children s p) : (s.nodes p).type = .dir := by
  obtain ⟨hpn, hlt, hpar⟩ := h.mem_children hp hn
  obtain ⟨q, hq, -, hdir⟩ := h.parent_lt n (by omega) hlt
  rw [hpar] at hq
  exact Option.some.inj hq ▸ hdir

theorem listing (h : Wf s) (hp : p < s.nodeCount) : Listing s p where
  lt := hp
  links := Chain.links_chain h.descending _ fun _ hn => h.first_lt hp hn
  distinct := h.distinct p hp
  entry_lt _ hc := (h.mem_children hp hc).2.1
  parent _ hc := (h.mem_children hp hc).2.2

theorem nodup_children (h : Wf s) (hp : p < s.nodeCount) : (children s p).Nodup := (h.listing hp).nodup

theorem findChild_eq_some_iff (h : Wf s) (hp : p < s.nodeCount) :
    findChild s p x = some n ↔ n ∈ children s p ∧ (s.nodes n).name.chars = x :=
  (h.listing hp).findChild_eq_some_iff

theorem findChild_eq_none_iff :
    findChild s p x = none ↔ ∀ n ∈ children s p, (s.nodes n).name.chars ≠ x := by
  simp [findChild]

theorem of_findChild (h : Wf s) (hp : p < s.nodeCount)
    (hf : findChild s p x = some n) :
    p < n ∧ n < s.nodeCount ∧ (s.nodes n).parent = some p ∧ (s.nodes n).name.chars = x := by
  obtain ⟨hmem, hname⟩ := (h.findChild_eq_some_iff hp).1 hf
  obtain ⟨hpn, hlt, hpar⟩ := h.mem_children hp hmem
  exact ⟨hpn, hlt, hpar, hname⟩

/-! ### Walks -/

theorem walk_lt (h : Wf s) : ∀ (cs : List (List Byte)) {n m : ℕ}, n < s.nodeCount →
    walk s n cs = some m → m < s.nodeCount := by
  intro cs
  induction cs with
  | nil =>
    intro n m hn hw
    simp only [walk_nil, Option.some.injEq] at hw
    omega
  | cons c cs ih =>
    intro n m hn hw
    obtain ⟨k, hk, hw⟩ := walk_isSome_of_append [c] cs hw
    exact ih (h.of_findChild hn (by simpa [walk] using hk)).2.1 hw

theorem walk_snoc_eq_some (h : Wf s)
    (hw : walk s rootNode (cs ++ [x]) = some n) :
    ∃ p, walk s rootNode cs = some p ∧ findChild s p x = some n ∧ p < n ∧ n < s.nodeCount ∧
      (s.nodes n).parent = some p ∧ (s.nodes n).name.chars = x := by
  rw [walk_snoc, Option.bind_eq_some_iff] at hw
  obtain ⟨p, hp, hf⟩ := hw
  exact ⟨p, hp, hf, h.of_findChild (h.walk_lt cs h.count_pos hp) hf⟩

theorem valid_of_walk (h : Wf s) : ∀ {cs : List (List Byte)} {n : ℕ},
    walk s rootNode cs = some n → ∀ c ∈ cs, ValidName c := by
  intro cs
  induction cs using List.reverseRecOn with
  | nil => intro n _ c hc; simp at hc
  | append_singleton cs x ih =>
    intro n hw c hc
    obtain ⟨p, hp, -, hpn, hlt, -, hname⟩ := h.walk_snoc_eq_some hw
    rcases List.mem_append.1 hc with hc | hc
    · exact ih hp c hc
    · rw [List.mem_singleton.1 hc, ← hname]
      exact h.name_valid n (by omega) hlt

theorem listings (h : Wf s) : Listings s where
  listing hw := h.listing (h.walk_lt _ h.count_pos hw)
  root_unlisted hw hc := absurd (h.mem_children (h.walk_lt _ h.count_pos hw) hc).1 (Nat.not_lt_zero _)

theorem walk_injective (h : Wf s) {cs ds : List (List Byte)} {n : ℕ}
    (hc : walk s rootNode cs = some n) (hd : walk s rootNode ds = some n) : cs = ds :=
  h.listings.walk_injective hc hd

theorem walk_ne_root (h : Wf s) (hcs : cs ≠ [])
    (hw : walk s rootNode cs = some n) : n ≠ rootNode := by
  rintro rfl
  exact hcs (h.walk_injective hw (walk_nil s rootNode))

end Wf

/-! ### Pools with the same links -/

/-- The second pool differs from the first in attributes and contents only. -/
structure SameLinks (s s' : Pool) : Prop where
  count : s'.nodeCount = s.nodeCount
  name : ∀ n, (s'.nodes n).name = (s.nodes n).name
  type : ∀ n, (s'.nodes n).type = (s.nodes n).type
  parent : ∀ n, (s'.nodes n).parent = (s.nodes n).parent
  first : ∀ n, (s'.nodes n).firstChild = (s.nodes n).firstChild
  next : ∀ n, (s'.nodes n).nextSibling = (s.nodes n).nextSibling

namespace SameLinks

variable {s s' s'' : Pool}

theorem refl (s : Pool) : SameLinks s s := by
  constructor <;> intros <;> rfl

theorem trans (h : SameLinks s s') (h' : SameLinks s' s'') : SameLinks s s'' where
  count := h'.count.trans h.count
  name n := (h'.name n).trans (h.name n)
  type n := (h'.type n).trans (h.type n)
  parent n := (h'.parent n).trans (h.parent n)
  first n := (h'.first n).trans (h.first n)
  next n := (h'.next n).trans (h.next n)

theorem children_eq (h : SameLinks s s') (p : ℕ) : children s' p = children s p := by
  have hnext : nextOf s' = nextOf s := funext fun n => h.next n
  rw [children, children, hnext, h.count, h.first]

theorem findChild_eq (h : SameLinks s s') (p : ℕ) (x : List Byte) :
    findChild s' p x = findChild s p x := by
  simp only [findChild, h.children_eq, h.name]

theorem walk_eq (h : SameLinks s s') (n : ℕ) (cs : List (List Byte)) :
    walk s' n cs = walk s n cs := by
  have hf : findChild s' = findChild s := funext fun p => funext fun x => h.findChild_eq p x
  rw [walk, walk, hf]

theorem vfsLookup_eq (h : SameLinks s s') (path cwd : List Byte) :
    vfsLookup s' path cwd = vfsLookup s path cwd := by
  simp only [vfsLookup, h.walk_eq]

theorem parentAndName_eq (h : SameLinks s s') (path cwd : List Byte) :
    parentAndName s' path cwd = parentAndName s path cwd := by
  simp only [parentAndName, h.vfsLookup_eq, h.type]

theorem wf (h : SameLinks s s') (hs : Wf s) : Wf s' where
  count_pos := by rw [h.count]; exact hs.count_pos
  count_le := by rw [h.count]; exact hs.count_le
  root_dir := by rw [h.type]; exact hs.root_dir
  root_parent := by rw [h.parent]; exact hs.root_parent
  parent_lt n := by simpa only [h.count, h.parent, h.type] using hs.parent_lt n
  next_lt n m := by simpa only [h.count, h.parent, nextOf, h.next] using hs.next_lt n m
  first_child p c := by simpa only [h.count, h.parent, h.first] using hs.first_child p c
  name_valid n := by simpa only [h.count, h.name] using hs.name_valid n
  distinct p := by simpa only [h.count, h.children_eq, h.name] using hs.distinct p

theorem modifyNode (s : Pool) (n : ℕ) (f : VfsNode → VfsNode)
    (hname : (f (s.nodes n)).name = (s.nodes n).name)
    (htype : (f (s.nodes n)).type = (s.nodes n).type)
    (hparent : (f (s.nodes n)).parent = (s.nodes n).parent)
    (hfirst : (f (s.nodes n)).firstChild = (s.nodes n).firstChild)
    (hnext : (f (s.nodes n)).nextSibling = (s.nodes n).nextSibling) :
    SameLinks s (s.modifyNode n f) := by
  constructor
  · rfl
  all_goals
    intro m
    rw [Pool.nodes_modifyNode]
    split_ifs with hm
    · subst hm; assumption
    · rfl

theorem touch (s : Pool) (n : ℕ) : SameLinks s (s.touch n) := by
  have hclock : SameLinks s { s with clock := s.clock + 1 } := by
    constructor <;> intros <;> rfl
  exact hclock.trans (modifyNode _ n _ rfl rfl rfl rfl rfl)

end SameLinks

/-! ### One leaf more, one leaf less -/

/-- **Changing what one directory finds under one name changes exactly one path**, when that
directory has no second path and nothing stands below the leaf that goes and the leaf that
comes. -/
theorem walk_update {s s' : Pool} {pc : List (List Byte)} {parent : ℕ}
    {r : Option ℕ} (hpc : walk s rootNode pc = some parent)
    (hinj : ∀ q, walk s rootNode q = some parent → q = pc)
    (hfind : ∀ q p, walk s rootNode q = some p → ∀ y,
      findChild s' p y = if p = parent ∧ y = x then r else findChild s p y)
    (hold : ∀ n y, findChild s parent x = some n → findChild s n y = none)
    (hnew : ∀ n y, r = some n → findChild s' n y = none) (q : List (List Byte)) :
    walk s' rootNode q = if q = pc ++ [x] then r else walk s rootNode q := by
  induction q using List.reverseRecOn with
  | nil => simp
  | append_singleton q y ih =>
    rw [walk_snoc, walk_snoc, ih]
    by_cases hq : q = pc ++ [x]
    · -- below the leaf itself there is nothing, before and after
      have hne : q ++ [y] ≠ pc ++ [x] := by
        intro e
        have := congrArg List.length e
        simp [hq] at this
      have hleft : r.bind (fun m => findChild s' m y) = none :=
        Option.bind_eq_none_iff.2 fun n hn => hnew n y hn
      have hright : (walk s rootNode q).bind (fun m => findChild s m y) = none := by
        refine Option.bind_eq_none_iff.2 fun n hn => hold n y ?_
        rw [hq, walk_snoc, hpc] at hn
        exact hn
      rw [if_pos hq, if_neg hne, hleft, hright]
    · rw [if_neg hq]
      cases hw : walk s rootNode q with
      | none =>
        have hne : q ++ [y] ≠ pc ++ [x] := by
          intro e
          obtain ⟨rfl, -⟩ := List.append_inj' e rfl
          rw [hpc] at hw
          cases hw
        rw [if_neg hne, Option.bind_none, Option.bind_none]
      | some p =>
        have hiff : (p = parent ∧ y = x) ↔ q ++ [y] = pc ++ [x] := by
          constructor
          · rintro ⟨rfl, rfl⟩
            rw [hinj q hw]
          · intro e
            obtain ⟨rfl, e'⟩ := List.append_inj' e rfl
            rw [hpc] at hw
            exact ⟨(Option.some.inj hw).symm, (List.cons.inj e').1⟩
        rw [Option.bind_some, Option.bind_some, hfind q p hw y]
        simp only [hiff]

/-! ### Path resolution -/

/-- **What `vfs_lookup` computes**: a walk along the components the path names. -/
theorem vfsLookup_eq (s : Pool) (hp : 0 ∉ path) (hc : 0 ∉ cwd) :
    vfsLookup s path cwd = (resolve path cwd).bind (walk s rootNode) := by
  rw [vfsLookup, vfsNormalize_eq hp hc]
  cases hres : resolve path cwd with
  | none => rfl
  | some comps =>
    have hval := (proper_of_resolve hp hc hres).valid
    rw [Option.map_some, Option.bind_some, Option.bind_some]
    split_ifs with hroot
    · rw [(pathString_eq_slash hval).1 hroot, walk_nil]
    · rw [pathTokens_tail_pathString hval]

theorem vfsLookup_pathString (s : Pool) {comps : List (List Byte)}
    (h : Proper comps) (hc : 0 ∉ cwd) :
    vfsLookup s (pathString comps) cwd = walk s rootNode comps := by
  rw [vfsLookup_eq s (zero_notMem_pathString h.valid) hc, resolve_pathString h, Option.bind_some]

/-- **What `parent_and_name` computes**: the node of all components but the last, which must be a
directory, and the last component. -/
theorem parentAndName_eq (s : Pool) (hp : 0 ∉ path) (hc : 0 ∉ cwd) :
    parentAndName s path cwd = (resolve path cwd).bind fun comps =>
      comps.getLast?.bind fun x => (walk s rootNode comps.dropLast).bind fun parent =>
        if (s.nodes parent).type = .dir then some (parent, x) else none := by
  rw [parentAndName, vfsNormalize_eq hp hc]
  cases hres : resolve path cwd with
  | none => rfl
  | some comps =>
    have hproper := proper_of_resolve hp hc hres
    rw [Option.map_some, Option.bind_some, Option.bind_some]
    rcases List.eq_nil_or_concat' comps with rfl | ⟨pc, x, rfl⟩
    · simp
    · have hx : ValidName x := hproper.valid x (by simp)
      have hpc : Proper pc := hproper.of_append
      have hne : pathString (pc ++ [x]) ≠ [slash] := by
        rw [Ne, pathString_eq_slash hproper.valid]
        simp
      have hparent : (if Sep.joinPre slash pc = [] then some rootNode
          else vfsLookup s (Sep.joinPre slash pc) [slash]) = walk s rootNode pc := by
        split_ifs with hnil
        · rw [(Sep.joinPre_eq_nil slash pc).1 hnil, walk_nil]
        · have hpc0 : pc ≠ [] := fun e => hnil (by simp [e])
          rw [← pathString_of_ne_nil hpc0, vfsLookup_pathString s hpc (by decide)]
      rw [if_neg hne, pathString_snoc, Sep.afterLast_append hx.no_slash,
        Sep.beforeLast_append hx.no_slash, List.take_of_length_le hx.length_le]
      simp only [hparent, List.getLast?_append, List.getLast?_singleton, Option.some_or,
        List.dropLast_concat, Option.bind_some, hx.ne_nil, or_false]
      congr 1
      funext parent
      split_ifs with hdir hdir' <;> simp_all

theorem parentAndName_eq_some {s : Pool} (hp : 0 ∉ path) (hc : 0 ∉ cwd)
    {parent : ℕ} :
    parentAndName s path cwd = some (parent, x) ↔
      ∃ pc, resolve path cwd = some (pc ++ [x]) ∧ walk s rootNode pc = some parent ∧
        (s.nodes parent).type = .dir := by
  rw [parentAndName_eq s hp hc, Option.bind_eq_some_iff]
  constructor
  · rintro ⟨comps, hres, h⟩
    rcases List.eq_nil_or_concat' comps with rfl | ⟨pc, y, rfl⟩
    · simp at h
    · simp only [List.getLast?_append, List.getLast?_singleton, Option.some_or,
        List.dropLast_concat, Option.bind_some, Option.bind_eq_some_iff] at h
      obtain ⟨p, hw, h⟩ := h
      split_ifs at h with hdir
      obtain ⟨rfl, rfl⟩ := Prod.mk.inj (Option.some.inj h)
      exact ⟨pc, hres, hw, hdir⟩
  · rintro ⟨pc, hres, hw, hdir⟩
    exact ⟨pc ++ [x], hres, by simp [hw, hdir]⟩

end Tnu.Vfs
