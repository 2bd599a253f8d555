/-
**The attached nodes form a tree.**

`Tnu/Vfs/Wf.lean` describes the whole pool, nodes that were unlinked included, by the order in
which nodes were allocated.  What the users of the file system rely on says less: the nodes that
can be met from the root form a tree, whatever their places in the array.  This module states
that, without the order, shows it for every reachable pool, and derives what path resolution needs
from it alone.

Main results:

* `treeShaped_of_reachable` — **every reachable pool is a tree**;
* `TreeShaped.listings` — a tree has all that paths ask of it.
-/

import Tnu.Vfs.Runs

set_option autoImplicit false

namespace Tnu.Vfs

/-- A node is met by following the sibling links from the first child of a directory. -/
def Lists (s : Pool) (d c : ℕ) : Prop :=
  ∃ fuel, c ∈ Chain.chain (nextOf s) fuel (s.nodes d).firstChild

/-- The nodes met from the root. -/
inductive Attached (s : Pool) : ℕ → Prop
  | root : Attached s rootNode
  | child {d c : ℕ} : Attached s d → Lists s d c → Attached s c

/-- **The attached nodes form a tree.**  The root is in no directory and has the empty name. -/
structure TreeShaped (s : Pool) : Prop where
  count_le : s.nodeCount ≤ vfsMaxNodes
  root_dir : (s.nodes rootNode).type = .dir
  lt : ∀ n, Attached s n → n < s.nodeCount
  /-- Every sibling chain ends, lists no node twice, and no name. -/
  ends : ∀ d, Attached s d → ∃ l, Chain.Links (nextOf s) (s.nodes d).firstChild l ∧ l.Nodup ∧
    (l.map fun c => (s.nodes c).name.chars).Nodup
  /-- A node that is listed points back at the directory that lists it. -/
  parent : ∀ d c, Attached s d → Lists s d c → (s.nodes c).parent = some d
  root_unlisted : ∀ d, Attached s d → ¬ Lists s d rootNode
  name_valid : ∀ d c, Attached s d → Lists s d c → ValidName (s.nodes c).name.chars
  /-- Only directories have children. -/
  dir : ∀ d, Attached s d → (s.nodes d).firstChild ≠ none → (s.nodes d).type = .dir

variable {s s' : Pool}

namespace TreeShaped

/-! ### Children -/

variable {c d n : ℕ}

theorem links_children (h : TreeShaped s) (hd : Attached s d) :
    Chain.Links (nextOf s) (s.nodes d).firstChild (children s d) ∧ (children s d).Nodup ∧
      ((children s d).map fun c => (s.nodes c).name.chars).Nodup := by
  obtain ⟨l, hl, hnodup, hnames⟩ := h.ends d hd
  have hlt : ∀ c ∈ l, c < s.nodeCount := by
    intro c hc
    have hmem : c ∈ Chain.chain (nextOf s) l.length (s.nodes d).firstChild := by
      rwa [Chain.chain_of_links hl le_rfl]
    exact h.lt c (.child hd ⟨_, hmem⟩)
  have hlen : l.length ≤ s.nodeCount := by
    have := (List.subperm_of_subset hnodup fun c hc => List.mem_range.2 (hlt c hc)).length_le
    rwa [List.length_range] at this
  rw [children, Chain.chain_of_links hl hlen]
  exact ⟨hl, hnodup, hnames⟩

theorem lists_iff (h : TreeShaped s) (hd : Attached s d) :
    Lists s d c ↔ c ∈ children s d := by
  constructor
  · rintro ⟨fuel, hc⟩
    exact Chain.mem_of_links (h.links_children hd).1 hc
  · intro hc
    exact ⟨_, hc⟩

theorem attached_of_mem (h : TreeShaped s) (hd : Attached s d)
    (hc : c ∈ children s d) : Attached s c := .child hd ((h.lists_iff hd).2 hc)

theorem lt_of_mem (h : TreeShaped s) (hd : Attached s d) (hc : c ∈ children s d) :
    c < s.nodeCount := h.lt c (h.attached_of_mem hd hc)

theorem listing (h : TreeShaped s) (hd : Attached s d) : Listing s d where
  lt := h.lt d hd
  links := (h.links_children hd).1
  distinct := (h.links_children hd).2.2
  entry_lt _ hc := h.lt_of_mem hd hc
  parent c hc := h.parent d c hd ((h.lists_iff hd).2 hc)

/-! ### Walks -/

theorem attached_of_walk (h : TreeShaped s) : ∀ {cs : List (List Byte)} {n : ℕ},
    walk s rootNode cs = some n → Attached s n := by
  intro cs
  induction cs using List.reverseRecOn with
  | nil =>
    intro n hw
    simp only [walk_nil, Option.some.injEq] at hw
    exact hw ▸ .root
  | append_singleton cs x ih =>
    intro n hw
    rw [walk_snoc, Option.bind_eq_some_iff] at hw
    obtain ⟨p, hp, hf⟩ := hw
    exact h.attached_of_mem (ih hp) ((h.listing (ih hp)).findChild_eq_some_iff.1 hf).1

theorem walk_of_attached (h : TreeShaped s) (hn : Attached s n) :
    ∃ cs, walk s rootNode cs = some n := by
  induction hn with
  | root => exact ⟨[], rfl⟩
  | @child d c hd hc ih =>
    obtain ⟨cs, hcs⟩ := ih
    refine ⟨cs ++ [(s.nodes c).name.chars], ?_⟩
    rw [walk_snoc, hcs, Option.bind_some]
    exact (h.listing hd).findChild_eq_some_iff.2 ⟨(h.lists_iff hd).1 hc, rfl⟩

theorem listings (h : TreeShaped s) : Listings s where
  listing hw := h.listing (h.attached_of_walk hw)
  root_unlisted hw hc :=
    h.root_unlisted _ (h.attached_of_walk hw) ((h.lists_iff (h.attached_of_walk hw)).2 hc)

/-- **A node has at most one path.** -/
theorem walk_injective (h : TreeShaped s) {cs ds : List (List Byte)} {n : ℕ}
    (hc : walk s rootNode cs = some n) (hd : walk s rootNode ds = some n) : cs = ds :=
  h.listings.walk_injective hc hd

end TreeShaped

/-! ### Reachable pools -/

theorem lists_iff_of_wf (hs : Wf s) {d c : ℕ} (hd : d < s.nodeCount) :
    Lists s d c ↔ c ∈ children s d := by
  constructor
  · rintro ⟨fuel, hc⟩
    exact Chain.mem_of_links (Chain.links_chain hs.descending _ fun _ hn => hs.first_lt hd hn) hc
  · intro hc
    exact ⟨_, hc⟩

theorem lt_of_attached (hs : Wf s) {n : ℕ} (hn : Attached s n) : n < s.nodeCount := by
  induction hn with
  | root => exact hs.count_pos
  | child hd hc ih => exact (hs.mem_children ih ((lists_iff_of_wf hs ih).1 hc)).2.1

theorem treeShaped_of_wf (hs : Wf s) : TreeShaped s where
  count_le := hs.count_le
  root_dir := hs.root_dir
  lt n hn := lt_of_attached hs hn
  ends d hd := by
    have hlt := lt_of_attached hs hd
    exact ⟨children s d, Chain.links_chain hs.descending _ fun _ hn => hs.first_lt hlt hn,
      hs.nodup_children hlt, hs.distinct d hlt⟩
  parent d c hd hc := by
    have hlt := lt_of_attached hs hd
    exact (hs.mem_children hlt ((lists_iff_of_wf hs hlt).1 hc)).2.2
  root_unlisted d hd hc := by
    have hlt := lt_of_attached hs hd
    have := (hs.mem_children hlt ((lists_iff_of_wf hs hlt).1 hc)).1
    exact absurd this (Nat.not_lt_zero d)
  name_valid d c hd hc := by
    have hlt := lt_of_attached hs hd
    obtain ⟨hdc, hc, -⟩ := hs.mem_children hlt ((lists_iff_of_wf hs hlt).1 hc)
    exact hs.name_valid c (by omega) hc
  dir d hd hne := by
    have hlt := lt_of_attached hs hd
    obtain ⟨c, hc⟩ := Option.ne_none_iff_exists'.1 hne
    have hmem : Lists s d c := ⟨1, by rw [hc]; exact List.mem_cons_self⟩
    exact hs.dir_of_mem_children hlt ((lists_iff_of_wf hs hlt).1 hmem)

/-- **Every reachable pool is a tree**: its attached nodes are tree shaped, and exactly one chain
of names leads from the root to each of them. -/
theorem treeShaped_of_reachable (h : Reachable s) :
    TreeShaped s ∧ ∀ n, Attached s n → ∃! cs, walk s rootNode cs = some n := by
  have ht := treeShaped_of_wf (wf_of_reachable h)
  refine ⟨ht, fun n hn => ?_⟩
  obtain ⟨cs, hcs⟩ := ht.walk_of_attached hn
  exact ⟨cs, hcs, fun ds hds => ht.walk_injective hds hcs⟩

theorem treeShaped_of_reachable_vfsInit :
    TreeShaped vfsInit ∧ ∀ n, Attached vfsInit n → ∃! cs, walk vfsInit rootNode cs = some n :=
  treeShaped_of_reachable .init

end Tnu.Vfs
