/-
**Writing the tree to disk.**

`tfs_sync` of `kernel/fs/tfs.c` lists the tree from the root, fills a table with one entry for
every directory and file outside `/dev` and `/proc`, writes header and table to the persistent
device, and then streams the file data.  This module embeds it function by function and computes
what the first pass does.

Main definitions:

* `writeData`, `secondPass` — streaming the data.

Main result:

* `firstPass_of_syncable`, `firstPass_of_not_syncable` — **what the first pass
  does**: it fills the table with the tree exactly when the tree is `Syncable`.
-/

import Tnu.Block
import Tnu.Tfs.Image
import Tnu.Vfs.Tree

set_option autoImplicit false

namespace Tnu.Tfs

open Vfs

variable {s : Pool}

/-! ### The path of a node -/

/-- The first loop of `copy_path_for_node`: the names met from a node up to the root, at most
`fuel` of them. -/
def pathParts (s : Pool) : ℕ → Option ℕ → List (List Byte)
  | 0, _ => []
  | _ + 1, none => []
  | fuel + 1, some n =>
    if n = rootNode then [] else (s.nodes n).name.chars :: pathParts s fuel (s.nodes n).parent

def appendPart (out part : List Byte) : Option (List Byte) :=
  if tfsPathMax ≤ out.length + part.length + 2 then none else some (out ++ slash :: part)

/-- The size of the `parts` array of `copy_path_for_node`. -/
abbrev maxParts : ℕ := 32

/-- `copy_path_for_node`: `none` is the error return. -/
def copyPathForNode (s : Pool) (n : ℕ) : Option (List Byte) :=
  if n = rootNode then some [slash]
  else
    let parts := pathParts s maxParts (some n)
    if parts = [] ∨ maxParts ≤ parts.length then none else parts.reverse.foldlM appendPart []

/-! ### The first pass -/

/-- `struct collect_ctx`.  The table is the list of the entries filled in so far. -/
structure CollectCtx where
  entries : List TfsEntry
  capacity : ℕ
  dataCursor : ℕ
  imageSize : ℕ
  failed : Bool

/-- `ctx->entries[ctx->count++]`. -/
def CollectCtx.push (ctx : CollectCtx) (e : TfsEntry) : CollectCtx :=
  { ctx with entries := ctx.entries ++ [e] }

/-- `copy_file_data`, on an entry that is filled in up to its data.  The copy into `ctx->image`,
which `tfs_sync` leaves NULL, is not modelled: it is only reached when `data_cursor + size` wraps
around to at most `ctx->image_size`, and no file is that large. -/
def copyFileData (ctx : CollectCtx) (node : VfsNode) (e : TfsEntry) : CollectCtx :=
  if node.size = 0 then ctx.push { e with offset := ctx.dataCursor, size := 0 }
  else
    let last := (ctx.dataCursor + node.size) % 2 ^ 64
    if ctx.imageSize < last ∨ node.data = none then { ctx.push e with failed := true }
    else { ctx.push { e with offset := ctx.dataCursor, size := node.size } with
      dataCursor := alignUp64 last 16 }

/-- The test of `collect_node` for paths that are not stored. -/
def pseudoPath (path : List Byte) : Prop :=
  path = lit "/dev" ∨ path.take 5 = lit "/dev/" ∨ path = lit "/proc" ∨ path.take 6 = lit "/proc/"

instance : DecidablePred pseudoPath := fun path =>
  inferInstanceAs (Decidable (path = lit "/dev" ∨ path.take 5 = lit "/dev/" ∨
    path = lit "/proc" ∨ path.take 6 = lit "/proc/"))

/-- The entry `collect_node` fills in before the data is looked at. -/
def entryFor (node : VfsNode) (path : List Byte) : TfsEntry where
  type := if node.type = .dir then tfsEntryDir else tfsEntryFile
  mode := node.mode &&& permMask
  uid := node.uid
  gid := node.gid
  size := 0
  offset := 0
  mtime := node.modified % 2 ^ 64
  path := CharBuf.strncpy (tfsPathMax - 1) path

/-- `collect_node`, with the listing of a directory it ends with.  The fuel bounds the depth of
the recursion. -/
def collectNode (s : Pool) : ℕ → CollectCtx → ℕ → CollectCtx
  | 0, ctx, _ => ctx
  | fuel + 1, ctx, n =>
    let node := s.nodes n
    if ctx.failed = true then ctx
    else
      match copyPathForNode s n with
      | none => { ctx with failed := true }
      | some path =>
        if pseudoPath path then
          if node.type = .dir then (children s n).foldl (collectNode s fuel) ctx else ctx
        else if node.type ≠ .dir ∧ node.type ≠ .file then ctx
        else if ctx.capacity ≤ ctx.entries.length then { ctx with failed := true }
        else if node.type = .file then copyFileData ctx node (entryFor node path)
        else (children s n).foldl (collectNode s fuel) (ctx.push (entryFor node path))

/-- The context `tfs_sync` starts the first pass with. -/
def startCtx : CollectCtx where
  entries := []
  capacity := tfsMaxEntries
  dataCursor := dataOffset
  imageSize := 0
  failed := false

/-- The first pass: `vfs_list(vfs_root(), collect_node, &ctx)`. -/
def firstPass (s : Pool) : CollectCtx :=
  if (s.nodes rootNode).type = .dir then
    (children s rootNode).foldl (collectNode s s.nodeCount) startCtx
  else startCtx

/-! ### The persistent device -/

/-- The static state of `tfs.c`. -/
structure TfsState where
  persistentEnabled : Bool
  autoSyncEnabled : Bool
  syncInProgress : Bool
  persistentDevice : CharBuf 15
  persistentStartLba : UInt64
  lastImageSize : ℕ

def TfsState.boot : TfsState := ⟨false, false, false, CharBuf.empty _, 0, 0⟩

/-- What a run of writes leaves: the devices, and how many `block_write_lba28` calls were made. -/
structure WriteState where
  devices : Devices
  calls : ℕ

/-- One `block_write_lba28` call on a device; `faults` says which calls fail, and where. -/
def blockWrite (faults : ℕ → Option ℕ) (w : WriteState) (device : List Byte) (lba : UInt32)
    (bytes : List Byte) : WriteState × ℤ :=
  match blockDeviceFind w.devices device with
  | none => ({ w with calls := w.calls + 1 }, -1)
  | some d =>
    let r := d.write lba bytes (faults w.calls)
    ({ devices := w.devices.set device r.1, calls := w.calls + 1 }, r.2)

def writeImageToDisk (faults : ℕ → Option ℕ) (t : TfsState) (w : WriteState) (image : List Byte) :
    TfsState × WriteState × ℤ :=
  let rounded := Disk.padded image
  let r := blockWrite faults w t.persistentDevice.chars t.persistentStartLba.toUInt32 rounded
  if r.2 < 0 then (t, r.1, -1) else ({ t with lastImageSize := rounded.length }, r.1, 0)

/-- The inner loop of the second pass: the data of one file, a sector a turn; it stops at the
first write that fails. -/
def writeData (faults : ℕ → Option ℕ) (t : TfsState) :
    ℕ → WriteState → ℕ → List Byte → WriteState
  | 0, w, _, _ => w
  | fuel + 1, w, fileOffset, data =>
    if data = [] then w
    else
      let absLba := (t.persistentStartLba.toNat + fileOffset / sectorSize) % 2 ^ 64
      let chunk := data.take sectorSize
      let sector := chunk ++ List.replicate (sectorSize - chunk.length) 0
      let r := blockWrite faults w t.persistentDevice.chars (UInt32.ofNat absLba) sector
      if r.2 < 0 then r.1
      else writeData faults t fuel r.1 (fileOffset + chunk.length) (data.drop sectorSize)

/-- One turn of the second pass: the data of the node an entry's path is looked up to. -/
def writeEntryData (s : Pool) (faults : ℕ → Option ℕ) (t : TfsState) (w : WriteState)
    (e : TfsEntry) : WriteState :=
  if e.type ≠ tfsEntryFile ∨ e.size = 0 then w
  else
    match (vfsLookup s e.path.chars [slash]).bind fun n => (s.nodes n).data with
    | none => w
    | some data => writeData faults t e.size w e.offset (data.take e.size)

def secondPass (s : Pool) (faults : ℕ → Option ℕ) (t : TfsState) (entries : List TfsEntry)
    (w : WriteState) : WriteState :=
  entries.foldl (writeEntryData s faults t) w

/-- `tfs_sync`: the static state, the devices and the return value. -/
def tfsSync (kmalloc : ℕ → Bool) (faults : ℕ → Option ℕ) (s : Pool) (t : TfsState)
    (devices : Devices) : TfsState × Devices × ℤ :=
  if t.persistentEnabled = false then (t, devices, 0)
  else if t.persistentDevice.chars = [] then (t, devices, 0)
  else if t.syncInProgress = true then (t, devices, 0)
  else if (blockDeviceFind devices t.persistentDevice.chars).isNone then (t, devices, -1)
  else if kmalloc (tfsTableAlign + tfsMaxEntries * entrySize + sectorSize) = false then
    (t, devices, -1)
  else
    let ctx := firstPass s
    if ctx.failed = true then (t, devices, -1)
    else
      let finalSize := max (alignUp64 ctx.dataCursor sectorSize) dataOffset
      let r := writeImageToDisk faults t ⟨devices, 0⟩ (headerBuf ctx.entries)
      if r.2.2 ≠ 0 then (r.1, r.2.1.devices, r.2.2)
      else
        let w := secondPass s faults r.1 ctx.entries r.2.1
        ({ r.1 with lastImageSize := finalSize }, w.devices, 0)

/-! ### The rebuilt path -/

theorem pathParts_eq (hs : Wf s) : ∀ (k : ℕ) {cs : NamePath} {n : ℕ},
    walk s rootNode cs = some n → pathParts s k (some n) = cs.reverse.take k := by
  intro k
  induction k with
  | zero => intro cs n _; simp [pathParts]
  | succ k ih =>
    intro cs n hw
    rcases List.eq_nil_or_concat' cs with rfl | ⟨ds, x, rfl⟩
    · obtain rfl : rootNode = n := by simpa using hw
      simp [pathParts]
    · have hne : n ≠ rootNode := hs.walk_ne_root (by simp) hw
      obtain ⟨p, hp, -, -, -, hpar, hname⟩ := hs.walk_snoc_eq_some hw
      rw [pathParts, if_neg hne, hname, hpar, ih hp]
      simp

theorem foldlM_appendPart : ∀ (cs : NamePath) (out : List Byte), out.length < 255 →
    cs.foldlM appendPart out =
      if (out ++ Sep.joinPre slash cs).length < 255 then some (out ++ Sep.joinPre slash cs)
      else none := by
  intro cs
  induction cs with
  | nil => intro out h; simp [h]
  | cons c cs ih =>
    intro out h
    have hassoc : out ++ Sep.joinPre slash (c :: cs) =
        (out ++ slash :: c) ++ Sep.joinPre slash cs := by simp
    have hlen : (out ++ slash :: c).length = out.length + c.length + 1 := by
      simp [Nat.add_assoc]
    have hmax : tfsPathMax = 256 := rfl
    rw [List.foldlM_cons, appendPart, hassoc]
    by_cases hfit : tfsPathMax ≤ out.length + c.length + 2
    · have hlong : ¬ (out ++ slash :: c ++ Sep.joinPre slash cs).length < 255 := by
        rw [List.length_append, hlen]
        omega
      rw [if_pos hfit, if_neg hlong]
      rfl
    · rw [if_neg hfit, Option.bind_eq_bind, Option.bind_some, ih _ (by omega)]

variable {ctx : CollectCtx} {cs : NamePath} {e : NamePath × ℕ} {n : ℕ}

/-- **The path `copy_path_for_node` rebuilds**: the one the node is found under, when it has at
most 31 components and 254 bytes. -/
theorem copyPathForNode_eq (hs : Wf s) (hw : walk s rootNode cs = some n) :
    copyPathForNode s n =
      if cs.length < maxParts ∧ (pathString cs).length < 255 then some (pathString cs)
      else none := by
  have hmax : maxParts = 32 := rfl
  unfold copyPathForNode
  rcases List.eq_nil_or_concat' cs with rfl | ⟨ds, x, rfl⟩
  · obtain rfl : rootNode = n := by simpa using hw
    simp
  · have hne : n ≠ rootNode := hs.walk_ne_root (by simp) hw
    have hparts := pathParts_eq hs maxParts hw
    rw [if_neg hne]
    simp only [hparts]
    by_cases hlen : (ds ++ [x]).length < maxParts
    · have htake : (ds ++ [x]).reverse.take maxParts = (ds ++ [x]).reverse :=
        List.take_of_length_le (by simpa using hlen.le)
      have hbad : ¬ ((ds ++ [x]).reverse = [] ∨ maxParts ≤ (ds ++ [x]).reverse.length) := by
        simp only [List.length_reverse, not_or]
        exact ⟨by simp, by omega⟩
      rw [htake, if_neg hbad, List.reverse_reverse, foldlM_appendPart _ _ (by simp),
        pathString_of_ne_nil (by simp)]
      simp only [List.nil_append, hlen, true_and]
    · have hbad : (ds ++ [x]).reverse.take maxParts = [] ∨
          maxParts ≤ ((ds ++ [x]).reverse.take maxParts).length := by
        right
        rw [List.length_take, List.length_reverse]
        omega
      rw [if_pos hbad, if_neg fun h => hlen h.1]

theorem pseudoPath_pathString (h : ∀ c ∈ cs, ValidName c) :
    pseudoPath (pathString cs) ↔ Pseudo cs := by
  cases cs with
  | nil => decide
  | cons c cs =>
    have hfirst : Sep.beforeFirst slash (c ++ Sep.joinPre slash cs) = c := by
      have hc : slash ∉ c := (h c (by simp)).no_slash
      cases cs with
      | nil => simpa using Sep.beforeFirst_of_not_mem hc
      | cons d cs =>
        rw [Sep.joinPre_cons]
        exact Sep.beforeFirst_append hc _
    -- behind the leading slash, the tests ask for the first component
    have hdev := Sep.beforeFirst_eq_iff (by decide : slash ∉ lit "dev")
      (c ++ Sep.joinPre slash cs)
    have hproc := Sep.beforeFirst_eq_iff (by decide : slash ∉ lit "proc")
      (c ++ Sep.joinPre slash cs)
    rw [hfirst] at hdev hproc
    rw [pathString_cons, pseudoPath, Pseudo, List.head?_cons, Option.some.injEq,
      Option.some.injEq, hdev, hproc, or_assoc]
    have e₁ : lit "/dev" = slash :: lit "dev" := by decide
    have e₂ : lit "/dev/" = slash :: (lit "dev" ++ [slash]) := by decide
    have e₃ : lit "/proc" = slash :: lit "proc" := by decide
    have e₄ : lit "/proc/" = slash :: (lit "proc" ++ [slash]) := by decide
    rw [e₁, e₂, e₃, e₄, List.take_succ_cons, List.take_succ_cons]
    simp only [List.cons.injEq, true_and]
    rfl

/-! ### What the first pass does -/

/-- `collect_node` without the listing. -/
def collectOne (s : Pool) (ctx : CollectCtx) (n : ℕ) : CollectCtx :=
  let node := s.nodes n
  if ctx.failed = true then ctx
  else
    match copyPathForNode s n with
    | none => { ctx with failed := true }
    | some path =>
      if pseudoPath path then ctx
      else if node.type ≠ .dir ∧ node.type ≠ .file then ctx
      else if ctx.capacity ≤ ctx.entries.length then { ctx with failed := true }
      else if node.type = .file then copyFileData ctx node (entryFor node path)
      else ctx.push (entryFor node path)

theorem foldl_collectOne_of_failed (s : Pool) (h : ctx.failed = true) :
    ∀ l : List ℕ, l.foldl (collectOne s) ctx = ctx := by
  intro l
  induction l with
  | nil => rfl
  | cons n l ih => rw [List.foldl_cons, collectOne, if_pos h, ih]

theorem collectNode_eq (hs : Wf s) : ∀ (fuel : ℕ) (ctx : CollectCtx) (pc : NamePath) {n : ℕ},
    n < s.nodeCount → collectNode s fuel ctx n =
      ((tree s fuel pc n).map Prod.snd).foldl (collectOne s) ctx := by
  intro fuel
  induction fuel with
  | zero => intro ctx pc n _; rfl
  | succ fuel ih =>
    intro ctx pc n hn
    have hlist : ∀ (l : List ℕ) (ctx : CollectCtx), (∀ c ∈ l, c < s.nodeCount) →
        l.foldl (collectNode s fuel) ctx =
          ((l.flatMap fun c => tree s fuel (pc ++ [(s.nodes c).name.chars]) c).map
            Prod.snd).foldl (collectOne s) ctx := by
      intro l
      induction l with
      | nil => intro ctx _; rfl
      | cons c l ihl =>
        intro ctx hl
        rw [List.foldl_cons, List.flatMap_cons, List.map_append, List.foldl_append,
          ih ctx (pc ++ [(s.nodes c).name.chars]) (hl c (by simp)),
          ihl _ fun d hd => hl d (by simp [hd])]
    have hchildren := fun ctx => hlist (children s n) ctx
      fun c hc => (hs.mem_children hn hc).2.1
    have hleaf : (s.nodes n).type ≠ .dir → children s n = [] := fun hne =>
      List.eq_nil_iff_forall_not_mem.2 fun c hc => hne (hs.dir_of_mem_children hn hc)
    rw [tree, List.map_cons, List.foldl_cons, ← hchildren, collectNode, collectOne]
    simp only
    by_cases hfailed : ctx.failed = true
    · rw [if_pos hfailed, if_pos hfailed, hchildren, foldl_collectOne_of_failed s hfailed]
    · rw [if_neg hfailed, if_neg hfailed]
      cases copyPathForNode s n with
      | none =>
        simp only
        rw [hchildren, foldl_collectOne_of_failed s rfl]
      | some path =>
        simp only
        by_cases hdir : (s.nodes n).type = .dir
        · split_ifs with hp ht hcap hfile
          · rfl
          · exact absurd hdir ht.1
          · rw [hchildren, foldl_collectOne_of_failed s rfl]
          · rw [hdir] at hfile
            cases hfile
          · rfl
        · rw [hleaf hdir]
          split_ifs <;> rfl

theorem firstPass_eq (hs : Wf s) : firstPass s =
    ((tree s (s.nodeCount + 1) [] rootNode).tail.map Prod.snd).foldl (collectOne s) startCtx := by
  have hroot := collectNode_eq hs (s.nodeCount + 1)
  rw [firstPass, if_pos hs.root_dir, tree, List.tail_cons]
  have hlist : ∀ (l : List ℕ) (ctx : CollectCtx), (∀ c ∈ l, c < s.nodeCount) →
      l.foldl (collectNode s s.nodeCount) ctx =
        ((l.flatMap fun c => tree s s.nodeCount ([] ++ [(s.nodes c).name.chars]) c).map
          Prod.snd).foldl (collectOne s) ctx := by
    intro l
    induction l with
    | nil => intro ctx _; rfl
    | cons c l ihl =>
      intro ctx hl
      rw [List.foldl_cons, List.flatMap_cons, List.map_append, List.foldl_append,
        collectNode_eq hs s.nodeCount ctx ([] ++ [(s.nodes c).name.chars]) (hl c (by simp)),
        ihl _ fun d hd => hl d (by simp [hd])]
  exact hlist _ _ fun c hc => (hs.mem_children hs.count_pos hc).2.1

/-- What the first pass asks of a node and its path. -/
structure Fits (s : Pool) (e : NamePath × ℕ) : Prop where
  depth : e.1.length < maxParts
  length : (pathString e.1).length < 255
  /-- A file that is stored is empty. -/
  empty : ¬ Pseudo e.1 → (s.nodes e.2).type = .file → (s.nodes e.2).size = 0

theorem Fits.proper (h : Fits s e) (hvalid : ∀ c ∈ e.1, ValidName c) :
    Proper e.1 where
  valid := hvalid
  length_le := by
    have := h.depth
    have hmax : vfsMaxComponents = 32 := rfl
    have hparts : maxParts = 32 := rfl
    omega
  fits := by
    have := h.length
    have hmax : vfsPathMax = 256 := rfl
    omega

/-- **The trees the first pass accepts**: every attached node has at most 31 components and a path
of at most 254 bytes, and every file outside `/dev` and `/proc` is empty. -/
def Syncable (s : Pool) : Prop :=
  ∀ cs n, walk s rootNode cs = some n → Fits s (cs, n)

def storedEntry (s : Pool) (e : NamePath × ℕ) : TfsEntry :=
  { entryFor (s.nodes e.2) (pathString e.1) with
    offset := if (s.nodes e.2).type = .file then dataOffset else 0 }

/-- A context between two nodes of a first pass that goes well. -/
structure Running (ctx : CollectCtx) : Prop where
  cursor : ctx.dataCursor = dataOffset
  image : ctx.imageSize = 0
  ok : ctx.failed = false

theorem collectOne_of_fits (hs : Wf s) (hok : ∀ n, NodeOk (s.nodes n))
    (h : Running ctx) (hw : walk s rootNode cs = some n)
    (hfit : Fits s (cs, n)) (hcap : ctx.entries.length < ctx.capacity) :
    collectOne s ctx n = if Pseudo cs then ctx else ctx.push (storedEntry s (cs, n)) := by
  have hfailed : ¬ ctx.failed = true := by simp [h.ok]
  have hpath : copyPathForNode s n = some (pathString cs) := by
    rw [copyPathForNode_eq hs hw, if_pos ⟨hfit.depth, hfit.length⟩]
  have htype : ¬ ((s.nodes n).type ≠ .dir ∧ (s.nodes n).type ≠ .file) := by
    have := (hok n).type
    tauto
  unfold collectOne
  simp only [hpath, pseudoPath_pathString (hs.valid_of_walk hw)]
  rw [if_neg hfailed]
  split_ifs with hp hfull hfile
  · rfl
  · omega
  · have hsize : (s.nodes n).size = 0 := hfit.empty hp hfile
    rw [copyFileData, if_pos hsize, storedEntry, if_pos hfile, h.cursor]
    rfl
  · rw [storedEntry, if_neg hfile]
    rfl

theorem collectOne_of_not_fits (hs : Wf s) (hok : ∀ n, NodeOk (s.nodes n))
    (h : Running ctx) (hw : walk s rootNode cs = some n)
    (hfit : ¬ Fits s (cs, n)) : (collectOne s ctx n).failed = true := by
  have hfailed : ¬ ctx.failed = true := by simp [h.ok]
  unfold collectOne
  simp only [copyPathForNode_eq hs hw]
  rw [if_neg hfailed]
  by_cases hlen : cs.length < maxParts ∧ (pathString cs).length < 255
  · have hbig : ¬ Pseudo cs ∧ (s.nodes n).type = .file ∧ (s.nodes n).size ≠ 0 := by
      by_contra hc
      refine hfit ⟨hlen.1, hlen.2, fun hp hfile => ?_⟩
      by_contra hsize
      exact hc ⟨hp, hfile, hsize⟩
    obtain ⟨hp, hfile, hsize⟩ := hbig
    have hlast : ctx.imageSize < (ctx.dataCursor + (s.nodes n).size) % 2 ^ 64 := by
      have hle : (s.nodes n).size ≤ 16 * 1024 * 1024 := (hok n).size_le
      rw [h.image, h.cursor, dataOffset_eq, Nat.mod_eq_of_lt (by omega)]
      omega
    rw [if_pos hlen]
    simp only [pseudoPath_pathString (hs.valid_of_walk hw)]
    rw [if_neg hp, if_neg (by simp [hfile]), if_pos hfile, copyFileData, if_neg hsize]
    simp only
    rw [if_pos (Or.inl hlast)]
    split_ifs <;> rfl
  · rw [if_neg hlen]

theorem Running.push (h : Running ctx) (e : TfsEntry) : Running (ctx.push e) :=
  ⟨h.cursor, h.image, h.ok⟩

theorem foldl_collectOne_of_fits (hs : Wf s) (hok : ∀ n, NodeOk (s.nodes n)) :
    ∀ (l : List (NamePath × ℕ)) {ctx : CollectCtx}, Running ctx →
      (∀ e ∈ l, walk s rootNode e.1 = some e.2 ∧ Fits s e) →
      ctx.entries.length + l.length ≤ ctx.capacity →
      (l.map Prod.snd).foldl (collectOne s) ctx =
        { ctx with
          entries := ctx.entries ++ (l.filter fun e => ¬ Pseudo e.1).map (storedEntry s) } := by
  intro l
  induction l with
  | nil => intro ctx _ _ _; simp
  | cons e l ih =>
    intro ctx h hl hcap
    obtain ⟨hw, hfit⟩ := hl e (by simp)
    rw [List.length_cons] at hcap
    rw [List.map_cons, List.foldl_cons, collectOne_of_fits hs hok h hw hfit (by omega)]
    by_cases hp : Pseudo e.1
    · rw [if_pos hp, ih h (fun d hd => hl d (by simp [hd])) (by omega),
        List.filter_cons_of_neg (by simpa using hp)]
    · rw [if_neg hp, ih (h.push _) (fun d hd => hl d (by simp [hd])) (by
          simp only [CollectCtx.push, List.length_append, List.length_singleton]
          omega),
        List.filter_cons_of_pos (by simpa using hp), List.map_cons]
      simp [CollectCtx.push]

theorem foldl_collectOne_of_not_fits (hs : Wf s) (hok : ∀ n, NodeOk (s.nodes n)) :
    ∀ (l : List (NamePath × ℕ)) {ctx : CollectCtx}, Running ctx →
      (∀ e ∈ l, walk s rootNode e.1 = some e.2) → (∃ e ∈ l, ¬ Fits s e) →
      ctx.entries.length + l.length ≤ ctx.capacity →
      ((l.map Prod.snd).foldl (collectOne s) ctx).failed = true := by
  intro l
  induction l with
  | nil =>
    rintro ctx _ _ ⟨e, he, -⟩ _
    simp at he
  | cons e l ih =>
    rintro ctx h hl ⟨d, hd, hbad⟩ hcap
    rw [List.length_cons] at hcap
    rw [List.map_cons, List.foldl_cons]
    have hrest : ∀ x ∈ l, walk s rootNode x.1 = some x.2 := fun x hx => hl x (by simp [hx])
    by_cases hfit : Fits s e
    · have hdl : d ∈ l := by
        rcases List.mem_cons.1 hd with rfl | hd
        · exact absurd hfit hbad
        · exact hd
      rw [collectOne_of_fits hs hok h (hl e (by simp)) hfit (by omega)]
      split_ifs with hp
      · exact ih h hrest ⟨d, hdl, hbad⟩ (by omega)
      · refine ih (h.push _) hrest ⟨d, hdl, hbad⟩ ?_
        simp only [CollectCtx.push, List.length_append, List.length_singleton]
        omega
    · have hfailed := collectOne_of_not_fits hs hok h (hl e (by simp)) hfit
      rw [foldl_collectOne_of_failed s hfailed]
      exact hfailed

def storedNodes (s : Pool) : List (NamePath × ℕ) :=
  (tree s (s.nodeCount + 1) [] rootNode).tail.filter fun e => ¬ Pseudo e.1

theorem mem_tail_tree (hs : Wf s) :
    e ∈ (tree s (s.nodeCount + 1) [] rootNode).tail ↔
      e.1 ≠ [] ∧ walk s rootNode e.1 = some e.2 := by
  have htree : tree s (s.nodeCount + 1) [] rootNode =
      ([], rootNode) :: (tree s (s.nodeCount + 1) [] rootNode).tail := by
    rw [tree, List.tail_cons]
  have hnodup := nodup_tree_fst hs (s.nodeCount + 1) [] hs.count_pos
  rw [htree, List.map_cons, List.nodup_cons] at hnodup
  rw [← mem_tree_iff hs (Nat.le_succ _), Prod.mk.eta, htree, List.mem_cons, List.tail_cons]
  constructor
  · intro he
    exact ⟨fun h0 => hnodup.1 (List.mem_map.2 ⟨e, he, h0⟩), .inr he⟩
  · rintro ⟨h0, rfl | he⟩
    · exact absurd rfl h0
    · exact he

theorem length_tail_tree (hs : Wf s) :
    (tree s (s.nodeCount + 1) [] rootNode).tail.length < tfsMaxEntries := by
  have hle := length_tree_le hs (s.nodeCount + 1)
  have hmax := hs.count_le
  have h1 : vfsMaxNodes = tfsMaxEntries := rfl
  have h0 := hs.count_pos
  rw [List.length_tail]
  omega

theorem running_startCtx : Running startCtx := ⟨rfl, rfl, rfl⟩

/-- **A syncable tree fills the table.** -/
theorem firstPass_of_syncable (hs : Wf s) (hok : ∀ n, NodeOk (s.nodes n)) (h : Syncable s) :
    firstPass s = { startCtx with entries := (storedNodes s).map (storedEntry s) } := by
  rw [firstPass_eq hs, foldl_collectOne_of_fits hs hok _ running_startCtx]
  · rfl
  · intro e he
    obtain ⟨-, hw⟩ := (mem_tail_tree hs).1 he
    exact ⟨hw, h e.1 e.2 hw⟩
  · have := length_tail_tree hs
    simp only [startCtx, List.length_nil]
    omega

/-- **Any other tree makes the first pass fail.** -/
theorem firstPass_of_not_syncable (hs : Wf s) (hok : ∀ n, NodeOk (s.nodes n))
    (h : ¬ Syncable s) : (firstPass s).failed = true := by
  obtain ⟨cs, n, hw, hbad⟩ : ∃ cs n, walk s rootNode cs = some n ∧ ¬ Fits s (cs, n) := by
    by_contra hc
    refine h fun cs n hw => ?_
    by_contra hbad
    exact hc ⟨cs, n, hw, hbad⟩
  -- the root itself always fits
  have hne : cs ≠ [] := by
    rintro rfl
    obtain rfl : rootNode = n := by simpa using hw
    refine hbad ⟨by simp, by simp, fun _ hfile => ?_⟩
    have hdir := hs.root_dir
    simp only at hfile
    rw [hdir] at hfile
    cases hfile
  rw [firstPass_eq hs]
  refine foldl_collectOne_of_not_fits hs hok _ running_startCtx
    (fun e he => ((mem_tail_tree hs).1 he).2) ⟨(cs, n), (mem_tail_tree hs).2 ⟨hne, hw⟩, hbad⟩ ?_
  have := length_tail_tree hs
  simp only [startCtx, List.length_nil]
  omega

end Tnu.Tfs
