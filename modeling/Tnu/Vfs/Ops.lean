/-
**The operations of the virtual file system.**

The functions of `kernel/fs/vfs.c`, on the pool of `Tnu/Vfs/Node.lean`.  Each returns the new pool
and the C return value.  The tail call `tfs_sync_if_mounted()` that ends a successful mutation
writes the block device and leaves the pool alone; what it writes is the subject of
`Tnu/Tfs/Sync.lean`.

Two things the functions depend on are arguments of the model: what `kmalloc` answers, and nothing
else.  A `memcpy` that would leave its buffer has no defined result: `vfsWriteNode` returns
`none` there.

Main definitions:

* `vfsMkdir`, `vfsCreateFile`, `vfsWriteFile`, `vfsWriteNode`,
  `vfsUnlink`, `vfsChmod`, `vfsChown` — the mutations;
* `vfsInit` — the tree a fresh system starts from.
-/

import Tnu.Vfs.Node

set_option autoImplicit false

namespace Tnu.Vfs

/-! ### Memory -/

/-- `KERNEL_HEAP_SIZE` of `kernel/mm/heap.c`. -/
abbrev kernelHeapSize : ℕ := 16 * 1024 * 1024

/-- What `kmalloc` answers to each request: it may refuse any of them, and never grants more than
the heap array holds. -/
structure Kmalloc where
  grants : ℕ → Bool
  /-- A block lies inside the heap array. -/
  bounded : ∀ size, grants size = true → size ≤ kernelHeapSize

/-! ### Path resolution -/

/-- `vfs_lookup`.  The components of a normalised path are at most `VFS_NAME_MAX` bytes long, so
the inner scanning loop takes each of them whole. -/
def vfsLookup (s : Pool) (path cwd : List Byte) : Option ℕ :=
  (vfsNormalize path cwd vfsPathMax).bind fun normal =>
    if normal = [slash] then some rootNode else walk s rootNode (pathTokens normal.tail)

/-- `parent_and_name`: the directory a path is to be created or removed in, and its last name. -/
def parentAndName (s : Pool) (path cwd : List Byte) : Option (ℕ × List Byte) :=
  (vfsNormalize path cwd vfsPathMax).bind fun normal =>
    if normal = [slash] then none
    else
      let name := (Sep.afterLast slash normal).take vfsNameMax
      let dir := Sep.beforeLast slash normal
      (if dir = [] then some rootNode else vfsLookup s dir [slash]).bind fun parent =>
        if (s.nodes parent).type ≠ .dir ∨ name = [] then none else some (parent, name)

/-! ### Creating -/

/-- The common body of `vfs_mkdir` and `vfs_create_file`. -/
def vfsMake (type : NodeType) (s : Pool) (path cwd : List Byte) (mode uid gid : UInt32) :
    Pool × ℤ :=
  match parentAndName s path cwd with
  | none => (s, -1)
  | some (parent, name) =>
    if (findChild s parent name).isSome then (s, -2)
    else
      match allocNode s name type mode uid gid with
      | none => (s, -3)
      | some (s', node) => (attachChild s' parent node, 0)

def vfsMkdir : Pool → List Byte → List Byte → UInt32 → UInt32 → UInt32 → Pool × ℤ := vfsMake .dir

def vfsCreateFile : Pool → List Byte → List Byte → UInt32 → UInt32 → UInt32 → Pool × ℤ :=
  vfsMake .file

/-! ### Writing -/

/-- The tail of `vfs_write_file`: replace the contents of a node. -/
def vfsSetContents (s : Pool) (node : ℕ) (data : List Byte) : Pool :=
  (s.modifyNode node fun n =>
    { n with data := if data = [] then none else some data, dataBorrowed := false
             size := data.length }).touch node

/-- The head of `vfs_write_file`: create the file if there is none. -/
def ensureFile (s : Pool) (path cwd : List Byte) : Pool × ℤ :=
  match vfsLookup s path cwd with
  | some _ => (s, 0)
  | none => vfsCreateFile s path cwd (vfsSIfreg ||| 0o644) 0 0

def vfsWriteFile (kmalloc : ℕ → Bool) (s : Pool) (path cwd data : List Byte) : Pool × ℤ :=
  let made := ensureFile s path cwd
  if made.2 < 0 then made
  else
    match vfsLookup made.1 path cwd with
    | none => (made.1, -1)
    | some node =>
      if (made.1.nodes node).type ≠ .file ∧ (made.1.nodes node).type ≠ .proc then (made.1, -1)
      else if data ≠ [] ∧ kmalloc (data.length + 1) = false then (made.1, -2)
      else (vfsSetContents made.1 node data, 0)

/-- The bytes `vfs_write_node` copies out of the old buffer; `none` when the buffer does not hold
as many as the node's size says. -/
def VfsNode.oldBytes (n : VfsNode) : Option (List Byte) :=
  if n.size = 0 then some []
  else n.data.bind fun d => if d.length < n.size then none else some (d.take n.size)

/-- `memcpy(data + offset, buf, count)`; `none` when it would leave the buffer. -/
def blit (data : List Byte) (offset : ℕ) (buf : List Byte) : Option (List Byte) :=
  if data.length < offset + buf.length then none
  else some (data.take offset ++ buf ++ data.drop (offset + buf.length))

/-- `vfs_write_node`; `none` when one of its copies would leave its buffer. -/
def vfsWriteNode (kmalloc : ℕ → Bool) (s : Pool) (node offset : ℕ) (buf : List Byte) :
    Option (Pool × ℤ) :=
  let n := s.nodes node
  if n.type ≠ .file then some (s, -1)
  else
    -- the end offset is computed in 64 bits
    let last := (offset + buf.length) % 2 ^ 64
    if n.size < last ∨ n.dataBorrowed = true then
      let newSize := max last n.size
      if kmalloc (newSize + 1) = false then some (s, -1)
      else
        n.oldBytes.bind fun old =>
          (blit (old ++ List.replicate (newSize - n.size) 0) offset buf).map fun d =>
            ((s.modifyNode node fun n =>
              { n with data := some d, size := newSize, dataBorrowed := false }).touch node,
              (buf.length : ℤ))
    else if buf = [] then some (s.touch node, 0)
    else
      n.data.bind fun d => (blit d offset buf).map fun d' =>
        ((s.modifyNode node fun n => { n with data := some d' }).touch node, (buf.length : ℤ))

/-! ### Removing -/

/-- The scanning loop of `vfs_unlink`: the node whose link points at the first child of that name
(`none` when the directory itself does), and the child. -/
def unlinkScan (nodes : ℕ → VfsNode) (name : List Byte) :
    ℕ → Option ℕ → Option ℕ → Option (Option ℕ × ℕ)
  | 0, _, _ => none
  | _ + 1, _, none => none
  | fuel + 1, link, some n =>
    if (nodes n).name.chars = name then some (link, n)
    else unlinkScan nodes name fuel (some n) (nodes n).nextSibling

/-- `*link = target->next_sibling`. -/
def spliceOut (s : Pool) (parent : ℕ) (link : Option ℕ) (target : ℕ) : Pool :=
  match link with
  | none => s.modifyNode parent fun p => { p with firstChild := (s.nodes target).nextSibling }
  | some q => s.modifyNode q fun n => { n with nextSibling := (s.nodes target).nextSibling }

def vfsUnlink (s : Pool) (path cwd : List Byte) : Pool × ℤ :=
  match parentAndName s path cwd with
  | none => (s, -1)
  | some (parent, name) =>
    match unlinkScan s.nodes name s.nodeCount none (s.nodes parent).firstChild with
    | none => (s, -1)
    | some (link, target) =>
      if (s.nodes target).firstChild.isSome then (s, -2)
      else ((spliceOut s parent link target).touch parent, 0)

/-! ### Attributes -/

/-- `vfs_chmod`: the type bits stay. -/
def vfsChmod (s : Pool) (path cwd : List Byte) (mode : UInt32) : Pool × ℤ :=
  match vfsLookup s path cwd with
  | none => (s, -1)
  | some node =>
    ((s.modifyNode node fun n =>
      { n with mode := (n.mode &&& 0o170000) ||| (mode &&& 0o7777) }).touch node, 0)

def vfsChown (s : Pool) (path cwd : List Byte) (uid gid : UInt32) : Pool × ℤ :=
  match vfsLookup s path cwd with
  | none => (s, -1)
  | some node =>
    ((s.modifyNode node fun n => { n with uid := uid, gid := gid }).touch node, 0)

/-! ### The initial tree -/

/-- The `dirs` table of `vfs_init`. -/
def initDirs : List (List Byte × UInt32) :=
  [(lit "/bin", 0o755), (lit "/sbin", 0o755), (lit "/etc", 0o755), (lit "/dev", 0o755),
   (lit "/proc", 0o755), (lit "/home", 0o755), (lit "/root", 0o700), (lit "/tmp", 0o1777),
   (lit "/usr", 0o755), (lit "/var", 0o755)]

/-- The pool with the root node `vfs_init` allocates.  The slots behind the fill count are
overwritten before they are used. -/
def initRoot : Pool where
  nodes := fun _ => freshNode 1 [] .dir (vfsSIfdir ||| 0o755) 0 0
  nodeCount := 1
  clock := 1

def vfsInit : Pool :=
  initDirs.foldl (fun s d => (vfsMkdir s d.1 [slash] (vfsSIfdir ||| d.2) 0 0).1) initRoot

/-! ### Runs -/

/-- The mutations, with their arguments and what `kmalloc` answers in them. -/
inductive VfsOp
  | mkdir (path cwd : CString) (mode uid gid : UInt32)
  | createFile (path cwd : CString) (mode uid gid : UInt32)
  | writeFile (path cwd : CString) (data : List Byte) (kmalloc : Kmalloc)
  | writeNode (node offset : ℕ) (buf : List Byte) (kmalloc : Kmalloc)
  | unlink (path cwd : CString)
  | chmod (path cwd : CString) (mode : UInt32)
  | chown (path cwd : CString) (uid gid : UInt32)

/-- One mutation; `none` when the C code has no defined result.  A node pointer points into the
filled part of the pool. -/
def step (s : Pool) : VfsOp → Option Pool
  | .mkdir path cwd mode uid gid => some (vfsMkdir s path.chars cwd.chars mode uid gid).1
  | .createFile path cwd mode uid gid => some (vfsCreateFile s path.chars cwd.chars mode uid gid).1
  | .writeFile path cwd data k => some (vfsWriteFile k.grants s path.chars cwd.chars data).1
  | .writeNode node offset buf k =>
    if node < s.nodeCount then (vfsWriteNode k.grants s node offset buf).map Prod.fst else none
  | .unlink path cwd => some (vfsUnlink s path.chars cwd.chars).1
  | .chmod path cwd mode => some (vfsChmod s path.chars cwd.chars mode).1
  | .chown path cwd uid gid => some (vfsChown s path.chars cwd.chars uid gid).1

/-- The pools reachable from `vfs_init` by mutations. -/
inductive Reachable : Pool → Prop
  | init : Reachable vfsInit
  | step {s s' : Pool} (op : VfsOp) : Reachable s → step s op = some s' → Reachable s'

example : vfsLookup vfsInit (lit "tmp/../home") (lit "/") = some 6 := by decide

end Tnu.Vfs
