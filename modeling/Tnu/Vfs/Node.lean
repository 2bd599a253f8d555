/-
**The node pool of the virtual file system.**

`kernel/fs/vfs.c` keeps every file and directory in one static array of nodes that is only ever
filled, never reused, and links the nodes of a directory through `first_child` and
`next_sibling`.  This module embeds the node record, the pool and the three functions that touch
the links; a pointer to a node is its index in the array, and a NULL pointer is `none`.

Main definitions:

* `allocNode`, `attachChild`, `findChild` — the functions of the source.

The source walks a chain until it meets NULL.  `children` gives up after as many steps as
there are nodes; that no chain is longer than that is part of what `Tnu/Vfs/Wf.lean` proves.
-/

import Tnu.Lib.Chain
import Tnu.Vfs.Path

set_option autoImplicit false

namespace Tnu.Vfs

/-! ### Nodes -/

/-- `enum vfs_node_type`. -/
inductive NodeType
  | dir
  | file
  | dev
  | proc
  deriving DecidableEq, Repr

/-- `struct vfs_node`.  `data` is the contents of the buffer the node points to. -/
structure VfsNode where
  name : CharBuf vfsNameMax
  type : NodeType
  mode : UInt32
  uid : UInt32
  gid : UInt32
  size : ℕ
  created : ℕ
  modified : ℕ
  data : Option (List Byte)
  dataBorrowed : Bool
  parent : Option ℕ
  firstChild : Option ℕ
  nextSibling : Option ℕ

/-- The static state of `vfs.c`: `nodes`, `node_count` and `vfs_clock`. -/
structure Pool where
  nodes : ℕ → VfsNode
  nodeCount : ℕ
  clock : ℕ

abbrev vfsMaxNodes : ℕ := 1024

/-- `root_node`: the first node `vfs_init` allocates. -/
abbrev rootNode : ℕ := 0

abbrev vfsSIfdir : UInt32 := 0o040000

abbrev vfsSIfreg : UInt32 := 0o100000

def Pool.modifyNode (s : Pool) (n : ℕ) (f : VfsNode → VfsNode) : Pool :=
  { s with nodes := fun m => if m = n then f (s.nodes n) else s.nodes m }

variable (s : Pool) {m n : ℕ}

@[simp] theorem Pool.nodes_modifyNode_self (n : ℕ) (f : VfsNode → VfsNode) :
    (s.modifyNode n f).nodes n = f (s.nodes n) := by simp [modifyNode]

theorem Pool.nodes_modifyNode_of_ne (f : VfsNode → VfsNode) (h : m ≠ n) :
    (s.modifyNode n f).nodes m = s.nodes m := by simp [modifyNode, h]

theorem Pool.nodes_modifyNode (m n : ℕ) (f : VfsNode → VfsNode) :
    (s.modifyNode n f).nodes m = if m = n then f (s.nodes n) else s.nodes m := rfl

@[simp] theorem Pool.nodeCount_modifyNode (n : ℕ) (f : VfsNode → VfsNode) :
    (s.modifyNode n f).nodeCount = s.nodeCount := rfl

theorem Pool.modifyNode_eq_self {s : Pool} {f : VfsNode → VfsNode}
    (h : f (s.nodes n) = s.nodes n) : s.modifyNode n f = s := by
  have hnodes : (fun m => if m = n then f (s.nodes n) else s.nodes m) = s.nodes := funext fun m => by
    split_ifs with hm
    · rw [h, hm]
    · rfl
  rw [modifyNode, hnodes]

/-- `++vfs_clock`, stamped on a node. -/
def Pool.touch (s : Pool) (n : ℕ) : Pool :=
  { s with clock := s.clock + 1 }.modifyNode n fun node => { node with modified := s.clock + 1 }

@[simp] theorem Pool.nodeCount_touch (n : ℕ) : (s.touch n).nodeCount = s.nodeCount := rfl

theorem Pool.nodes_touch (m n : ℕ) :
    (s.touch n).nodes m =
      if m = n then { s.nodes n with modified := s.clock + 1 } else s.nodes m := rfl

/-! ### Sibling chains -/

def nextOf (s : Pool) (n : ℕ) : Option ℕ := (s.nodes n).nextSibling

/-- The children of a directory, in the order the loops of the source meet them. -/
def children (s : Pool) (parent : ℕ) : List ℕ :=
  Chain.chain (nextOf s) s.nodeCount (s.nodes parent).firstChild

/-- The record `alloc_node` fills in, at one turn of the clock. -/
def freshNode (clock : ℕ) (name : List Byte) (type : NodeType) (mode uid gid : UInt32) :
    VfsNode where
  name := CharBuf.strncpy vfsNameMax name
  type := type
  mode := mode
  uid := uid
  gid := gid
  size := 0
  created := clock
  modified := clock
  data := none
  dataBorrowed := false
  parent := none
  firstChild := none
  nextSibling := none

/-- `alloc_node`: `none` when the pool is full. -/
def allocNode (s : Pool) (name : List Byte) (type : NodeType) (mode uid gid : UInt32) :
    Option (Pool × ℕ) :=
  if vfsMaxNodes ≤ s.nodeCount then none
  else
    some ({ nodes := fun m =>
              if m = s.nodeCount then freshNode (s.clock + 1) name type mode uid gid
              else s.nodes m
            nodeCount := s.nodeCount + 1, clock := s.clock + 1 }, s.nodeCount)

def attachChild (s : Pool) (parent child : ℕ) : Pool :=
  (s.modifyNode child fun c =>
    { c with parent := some parent, nextSibling := (s.nodes parent).firstChild }).modifyNode parent
      fun p => { p with firstChild := some child }

/-- `find_child`: the first child of that name. -/
def findChild (s : Pool) (parent : ℕ) (name : List Byte) : Option ℕ :=
  (children s parent).find? fun n => (s.nodes n).name.chars = name

/-- Following a list of names down from a node, one `find_child` a name. -/
def walk (s : Pool) (n : ℕ) (names : List (List Byte)) : Option ℕ := names.foldlM (findChild s) n

@[simp] theorem walk_nil (n : ℕ) : walk s n [] = some n := rfl

theorem walk_snoc (n : ℕ) (names : List (List Byte)) (x : List Byte) :
    walk s n (names ++ [x]) = (walk s n names).bind fun m => findChild s m x := by
  simp [walk, List.foldlM_append, Option.bind_eq_bind]

theorem walk_append (n : ℕ) (xs ys : List (List Byte)) :
    walk s n (xs ++ ys) = (walk s n xs).bind fun m => walk s m ys := by
  simp [walk, List.foldlM_append, Option.bind_eq_bind]

theorem walk_isSome_of_append {s : Pool} (xs ys : List (List Byte))
    (h : walk s n (xs ++ ys) = some m) : ∃ k, walk s n xs = some k ∧ walk s k ys = some m := by
  rw [walk_append, Option.bind_eq_some_iff] at h
  exact h

end Tnu.Vfs
