/-
**The table as a list.**

What the parser of `Tnu/Tfs/Mount.lean` does to the tree, with the addresses left out: the table is a list
of records, and the loop goes through it.  A record that makes nothing only writes to the node that its
path leads to, if it is a file and there is one; so what such a run does to a node is what the last record
that names it says.

Main definitions:

* `mountRecord`, `runRecords` — a turn of the loop, and the loop.

Main results:

* `mountLoop_eq` — **the loop of the parser goes through the list**;
* `runRecords_quiet`, `lookOf_foldl_put` — **a run that makes nothing writes what the
  last records say**.
-/

import Tnu.Tfs.Mount
import Tnu.Vfs.Tree

set_option autoImplicit false

namespace Tnu.Tfs

open Vfs

/-! ### Records -/

/-- A record of the table. -/
structure Record where
  entry : RawEntry
  path : List Byte

/-- The next `n` records from an address on. -/
def recordsFrom (f : ℕ → Byte) : ℕ → ℕ → List Record
  | 0, _ => []
  | n + 1, a => ⟨readEntry f a, readPath f a⟩ :: recordsFrom f n (a + entrySize)

/-- What the loop gets from around it: the size of the image, what `kmalloc` answers, whether the data
stays in the image, and the data. -/
structure Source where
  size : ℕ
  kmalloc : ℕ → Bool
  borrowed : Bool
  contents : RawEntry → List Byte

def memorySource (mem : ℕ → Byte) (kmalloc : ℕ → Bool) (image size : ℕ) (borrowed : Bool) : Source where
  size := size
  kmalloc := kmalloc
  borrowed := borrowed
  contents e := Bytes.window (fetch mem) (image + e.offset) e.size

def Record.Named (r : Record) : Prop := ¬(r.path = [] ∨ r.path = [slash])

instance (r : Record) : Decidable r.Named := inferInstanceAs (Decidable (¬_))

def Record.IsDir (r : Record) : Prop := r.Named ∧ r.entry.type = tfsEntryDir

instance (r : Record) : Decidable r.IsDir := inferInstanceAs (Decidable (_ ∧ _))

def Record.IsFile (r : Record) : Prop := r.Named ∧ r.entry.type = tfsEntryFile

instance (r : Record) : Decidable r.IsFile := inferInstanceAs (Decidable (_ ∧ _))

def makeDir (s : Pool) (r : Record) : Pool × ℤ :=
  vfsMkdir s r.path [slash] (vfsSIfdir ||| (r.entry.mode &&& permMask)) r.entry.uid r.entry.gid

def makeFile (s : Pool) (r : Record) : Pool × ℤ :=
  vfsCreateFile s r.path [slash] (vfsSIfreg ||| (r.entry.mode &&& permMask)) r.entry.uid r.entry.gid

def Source.Starves (src : Source) (e : RawEntry) : Prop :=
  e.size ≠ 0 ∧ src.borrowed = false ∧ src.kmalloc (e.size + 1) = false

instance (src : Source) (e : RawEntry) : Decidable (src.Starves e) :=
  inferInstanceAs (Decidable (_ ∧ _))

def fillFile (src : Source) (s : Pool) (r : Record) : Pool × Bool :=
  match vfsLookup s r.path [slash] with
  | none => (s, true)
  | some n =>
    let s' := setFileNode s n r.entry
    if r.entry.size = 0 then (s', true)
    else if src.Starves r.entry then (s', false)
    else (setFileData s' n (src.contents r.entry) src.borrowed, true)

def mountRecord (src : Source) (s : Pool) (r : Record) : Pool × Bool :=
  if r.IsDir then ((makeDir s r).1, true)
  else if r.IsFile then
    if exceedsImage src.size r.entry then (s, false) else fillFile src (makeFile s r).1 r
  else (s, true)

def runRecords (src : Source) : List Record → Pool → Pool × Bool
  | [], s => (s, true)
  | r :: rs, s =>
    let t := mountRecord src s r
    if t.2 = true then runRecords src rs t.1 else t

variable {src : Source} {s s' t t' : Pool} {r : Record} {rs rs' : List Record}

theorem mountFile_eq (mem : ℕ → Byte) (kmalloc : ℕ → Bool) (image size : ℕ) (borrowed : Bool)
    (s : Pool) (r : Record) (reads : List Read) :
    ((mountFile mem kmalloc image borrowed s r.entry r.path reads).pool,
      (mountFile mem kmalloc image borrowed s r.entry r.path reads).ok) =
      fillFile (memorySource mem kmalloc image size borrowed) (makeFile s r).1 r := by
  rw [mountFile, fillFile, ← makeFile]
  simp only
  cases vfsLookup (makeFile s r).1 r.path [slash] with
  | none => rfl
  | some n =>
    simp only
    by_cases hzero : r.entry.size = 0
    · rw [if_pos hzero, if_pos hzero]
    · by_cases hk : borrowed = false ∧ kmalloc (r.entry.size + 1) = false
      · have hs : (memorySource mem kmalloc image size borrowed).Starves r.entry := ⟨hzero, hk⟩
        rw [if_neg hzero, if_neg hzero, if_pos hk, if_pos hs]
      · have hs : ¬(memorySource mem kmalloc image size borrowed).Starves r.entry := fun h => hk h.2
        rw [if_neg hzero, if_neg hzero, if_neg hk, if_neg hs]
        rfl

theorem mountEntry_eq (mem : ℕ → Byte) (kmalloc : ℕ → Bool) (image size : ℕ) (borrowed : Bool)
    (s : Pool) (a : ℕ) :
    ((mountEntry mem kmalloc image size borrowed s a).pool,
      (mountEntry mem kmalloc image size borrowed s a).ok) =
      mountRecord (memorySource mem kmalloc image size borrowed) s
        ⟨readEntry (fetch mem) a, readPath (fetch mem) a⟩ := by
  set r : Record := ⟨readEntry (fetch mem) a, readPath (fetch mem) a⟩ with hr
  have hpath : readPath (fetch mem) a = r.path := rfl
  have hentry : readEntry (fetch mem) a = r.entry := rfl
  have hsize : (memorySource mem kmalloc image size borrowed).size = size := rfl
  rw [mountEntry, mountRecord, hsize]
  simp only [hpath, hentry]
  by_cases hnamed : r.path = [] ∨ r.path = [slash]
  · have hnd : ¬r.IsDir := fun h => h.1 hnamed
    have hnf : ¬r.IsFile := fun h => h.1 hnamed
    rw [if_pos hnamed, if_neg hnd, if_neg hnf]
  · rw [if_neg hnamed]
    by_cases hdir : r.entry.type = tfsEntryDir
    · have hd : r.IsDir := ⟨hnamed, hdir⟩
      rw [if_pos hdir, if_pos hd, makeDir]
    · have hnd : ¬r.IsDir := fun h => hdir h.2
      rw [if_neg hdir, if_neg hnd]
      by_cases hfile : r.entry.type = tfsEntryFile
      · have hf : r.IsFile := ⟨hnamed, hfile⟩
        rw [if_pos hfile, if_pos hf]
        by_cases hex : exceedsImage size r.entry
        · rw [if_pos hex, if_pos hex]
        · rw [if_neg hex, if_neg hex]
          exact mountFile_eq mem kmalloc image size borrowed s r _
      · have hnf : ¬r.IsFile := fun h => hfile h.2
        rw [if_neg hfile, if_neg hnf]

/-- **The loop of the parser goes through the list.** -/
theorem mountLoop_eq (mem : ℕ → Byte) (kmalloc : ℕ → Bool) (image size : ℕ) (borrowed : Bool)
    (n a : ℕ) (s : Pool) :
    ((mountLoop mem kmalloc image size borrowed n a s).pool,
      (mountLoop mem kmalloc image size borrowed n a s).ok) =
      runRecords (memorySource mem kmalloc image size borrowed) (recordsFrom (fetch mem) n a) s := by
  induction n generalizing a s with
  | zero => rfl
  | succ n ih =>
    have hturn := mountEntry_eq mem kmalloc image size borrowed s a
    rw [mountLoop, recordsFrom, runRecords, ← hturn]
    simp only
    split_ifs with hok
    · exact ih _ _
    · rfl

theorem runRecords_append (rs rs' : List Record) (s : Pool) :
    runRecords src (rs ++ rs') s =
      if (runRecords src rs s).2 = true then runRecords src rs' (runRecords src rs s).1
      else runRecords src rs s := by
  induction rs generalizing s with
  | nil => simp [runRecords]
  | cons r rs ih =>
    rw [List.cons_append, runRecords, runRecords]
    by_cases h : (mountRecord src s r).2 = true
    · simp only [h, if_true]
      exact ih _
    · simp only [h, if_false, Bool.false_eq_true]

/-! ### What is seen of a node -/

/-- Kind, mode, owner, group and contents. -/
structure Look where
  kind : NodeType
  mode : UInt32
  uid : UInt32
  gid : UInt32
  bytes : List Byte
  deriving DecidableEq

def lookOf (n : VfsNode) : Look := ⟨n.type, n.mode, n.uid, n.gid, n.bytes⟩

def lookAt (s : Pool) (cs : NamePath) : Option Look :=
  (walk s rootNode cs).map fun n => lookOf (s.nodes n)

/-- **The tree is the same**: its paths, and what is seen under them. -/
def SameTree (s s' : Pool) : Prop := ∀ cs, lookAt s' cs = lookAt s cs

/-- The pools differ in times, and in what no size lets anyone see. -/
structure Alike (s s' : Pool) : Prop where
  links : SameLinks s s'
  look : ∀ n, lookOf (s'.nodes n) = lookOf (s.nodes n)

theorem Alike.refl (s : Pool) : Alike s s := ⟨.refl s, fun _ => rfl⟩

theorem Alike.trans {s'' : Pool} (h : Alike s s') (h' : Alike s' s'') : Alike s s'' :=
  ⟨h.links.trans h'.links, fun n => (h'.look n).trans (h.look n)⟩

theorem Alike.sameTree (h : Alike s s') : SameTree s s' := fun cs => by
  rw [lookAt, lookAt, h.links.walk_eq]
  cases walk s rootNode cs with
  | none => rfl
  | some n => rw [Option.map_some, Option.map_some, h.look]

theorem SameTree.look {cs : NamePath} {n : ℕ} (h : SameTree s s') (hl : SameLinks s s')
    (hw : walk s rootNode cs = some n) : lookOf (s'.nodes n) = lookOf (s.nodes n) := by
  have hcs := h cs
  rw [lookAt, lookAt, hl.walk_eq, hw] at hcs
  exact Option.some.inj hcs

def Record.look (src : Source) (kind : NodeType) (r : Record) : Look where
  kind := kind
  mode := vfsSIfreg ||| (r.entry.mode &&& permMask)
  uid := r.entry.uid
  gid := r.entry.gid
  bytes := if kind = .file then (if r.entry.size = 0 then [] else
    (src.contents r.entry).take r.entry.size) else []

/-- What the node looks like when its data could not be copied: it has the size of the record, and the
data it had before. -/
def Record.lookStarved (kind : NodeType) (data : Option (List Byte)) (r : Record) : Look where
  kind := kind
  mode := vfsSIfreg ||| (r.entry.mode &&& permMask)
  uid := r.entry.uid
  gid := r.entry.gid
  bytes := if kind = .file then (data.getD []).take r.entry.size else []

/-! ### Runs that make nothing -/

def Record.target (s : Pool) (r : Record) : Option ℕ :=
  if r.IsFile then vfsLookup s r.path [slash] else none

def Record.Makes (s : Pool) (r : Record) : Prop :=
  (r.IsDir ∧ (makeDir s r).2 = 0) ∨ (r.IsFile ∧ (makeFile s r).2 = 0)

/-- The record ends the loop: its file does not fit the image, or there is no memory for it. -/
def Source.Stops (src : Source) (s : Pool) (r : Record) : Prop :=
  r.IsFile ∧ (exceedsImage src.size r.entry ∨ ((r.target s).isSome ∧ src.Starves r.entry))

instance (src : Source) (s : Pool) (r : Record) : Decidable (src.Stops s r) :=
  inferInstanceAs (Decidable (_ ∧ _))

theorem vfsMake_rc_nonpos (type : NodeType) (s : Pool) (path cwd : List Byte) (mode uid gid : UInt32) :
    (vfsMake type s path cwd mode uid gid).2 = 0 ∨ (vfsMake type s path cwd mode uid gid).1 = s := by
  rw [vfsMake]
  split
  · exact .inr rfl
  · split
    · exact .inr rfl
    · split
      · exact .inr rfl
      · exact .inl rfl

theorem vfsMake_rc_eq (h : SameLinks s t) (type : NodeType) (path cwd : List Byte)
    (mode uid gid : UInt32) :
    (vfsMake type t path cwd mode uid gid).2 = (vfsMake type s path cwd mode uid gid).2 := by
  rw [vfsMake, vfsMake, h.parentAndName_eq]
  cases parentAndName s path cwd with
  | none => rfl
  | some pn =>
    simp only [h.findChild_eq, allocNode, h.count]
    split_ifs <;> rfl

theorem makeFile_fst_of_not_makes (h : SameLinks s t) (hr : r.IsFile) (hn : ¬r.Makes s) :
    (makeFile t r).1 = t := by
  rcases vfsMake_rc_nonpos .file t r.path [slash] (vfsSIfreg ||| (r.entry.mode &&& permMask))
    r.entry.uid r.entry.gid with hzero | hsame
  · exact absurd (.inr ⟨hr, (vfsMake_rc_eq h .file _ _ _ _ _).symm.trans hzero⟩) hn
  · exact hsame

theorem makeDir_fst_of_not_makes (h : SameLinks s t) (hr : r.IsDir) (hn : ¬r.Makes s) :
    (makeDir t r).1 = t := by
  rcases vfsMake_rc_nonpos .dir t r.path [slash] (vfsSIfdir ||| (r.entry.mode &&& permMask))
    r.entry.uid r.entry.gid with hzero | hsame
  · exact absurd (.inl ⟨hr, (vfsMake_rc_eq h .dir _ _ _ _ _).symm.trans hzero⟩) hn
  · exact hsame

def Record.put (src : Source) (r : Record) (node : VfsNode) : VfsNode :=
  let node' := { node with
    uid := r.entry.uid, gid := r.entry.gid, mode := vfsSIfreg ||| (r.entry.mode &&& permMask)
    size := r.entry.size, modified := r.entry.mtime }
  if r.entry.size = 0 ∨ src.Starves r.entry then node'
  else { node' with data := some (src.contents r.entry), dataBorrowed := src.borrowed }

def Source.writes (src : Source) (s : Pool) (r : Record) : Option ℕ :=
  if exceedsImage src.size r.entry then none else r.target s

theorem sameLinks_put (src : Source) (s : Pool) (n : ℕ) (r : Record) :
    SameLinks s (s.modifyNode n (r.put src)) := by
  refine SameLinks.modifyNode s n _ ?_ ?_ ?_ ?_ ?_ <;>
    (simp only [Record.put]; split <;> rfl)

theorem modifyNode_modifyNode (s : Pool) (n : ℕ) (f g : VfsNode → VfsNode) :
    (s.modifyNode n f).modifyNode n g = s.modifyNode n fun node => g (f node) := by
  simp only [Pool.modifyNode, Pool.mk.injEq, and_true, if_true]
  funext m
  split_ifs <;> rfl

/-- **A file record writes to its node**, and goes on unless there is no memory. -/
theorem fillFile_eq (src : Source) (s : Pool) (r : Record) : fillFile src s r =
    match vfsLookup s r.path [slash] with
    | none => (s, true)
    | some n => (s.modifyNode n (r.put src), !decide (src.Starves r.entry)) := by
  rw [fillFile]
  cases vfsLookup s r.path [slash] with
  | none => rfl
  | some n =>
    have hput : (r.entry.size = 0 ∨ src.Starves r.entry) → r.put src = fun node : VfsNode =>
        { node with
          uid := r.entry.uid, gid := r.entry.gid, mode := vfsSIfreg ||| (r.entry.mode &&& permMask)
          size := r.entry.size, modified := r.entry.mtime } := fun hc => funext fun node => if_pos hc
    simp only
    by_cases hzero : r.entry.size = 0
    · have hns : ¬src.Starves r.entry := fun hs => hs.1 hzero
      rw [if_pos hzero, decide_eq_false hns, setFileNode, hput (.inl hzero)]
      rfl
    · rw [if_neg hzero]
      by_cases hs : src.Starves r.entry
      · rw [if_pos hs, decide_eq_true hs, setFileNode, hput (.inr hs)]
        rfl
      · have hput' : r.put src = fun node : VfsNode =>
            { node with
              uid := r.entry.uid, gid := r.entry.gid, mode := vfsSIfreg ||| (r.entry.mode &&& permMask)
              size := r.entry.size, modified := r.entry.mtime
              data := some (src.contents r.entry), dataBorrowed := src.borrowed } :=
          funext fun node => if_neg (not_or.2 ⟨hzero, hs⟩)
        rw [if_neg hs, decide_eq_false hs, setFileData, setFileNode, modifyNode_modifyNode, hput']
        rfl

/-- **A record that makes nothing** writes to its node, if there is one, and goes on unless it stops. -/
theorem mountRecord_quiet (h : SameLinks s t) (hn : ¬r.Makes s) :
    mountRecord src t r =
      ((match src.writes s r with | none => t | some n => t.modifyNode n (r.put src)),
        !decide (src.Stops s r)) := by
  rw [mountRecord]
  by_cases hd : r.IsDir
  · have hnf : ¬r.IsFile := fun hf => by
      have := hd.2.symm.trans hf.2
      exact absurd this (by norm_num)
    have hw : src.writes s r = none := by
      rw [Source.writes, Record.target, if_neg hnf, ite_self]
    have hs : ¬src.Stops s r := fun h => hnf h.1
    rw [if_pos hd, makeDir_fst_of_not_makes h hd hn, hw, decide_eq_false hs]
    rfl
  · rw [if_neg hd]
    by_cases hf : r.IsFile
    · rw [if_pos hf]
      by_cases hex : exceedsImage src.size r.entry
      · have hs : src.Stops s r := ⟨hf, .inl hex⟩
        rw [if_pos hex, Source.writes, if_pos hex, decide_eq_true hs]
        rfl
      · rw [if_neg hex, makeFile_fst_of_not_makes h hf hn, fillFile_eq, Source.writes, if_neg hex,
          h.vfsLookup_eq]
        have htarget : r.target s = vfsLookup s r.path [slash] := if_pos hf
        rw [htarget]
        cases hl : vfsLookup s r.path [slash] with
        | none =>
          have hs : ¬src.Stops s r := by
            rintro ⟨-, hex' | ⟨hsome, -⟩⟩
            · exact hex hex'
            · rw [htarget, hl] at hsome
              cases hsome
          rw [decide_eq_false hs]
          rfl
        | some n =>
          have hiff : src.Stops s r ↔ src.Starves r.entry := by
            rw [Source.Stops, htarget, hl]
            simp [hf, hex]
          simp only [hiff]
    · have hw : src.writes s r = none := by
        rw [Source.writes, Record.target, if_neg hf, ite_self]
      have hs : ¬src.Stops s r := fun h => hf h.1
      rw [if_neg hf, hw, decide_eq_false hs]
      rfl

def Source.writers (src : Source) (s : Pool) (rs : List Record) (n : ℕ) : List Record :=
  rs.filter fun r => src.writes s r = some n

/-- **A run of records that make nothing** and do not stop: every node is written by its writers. -/
theorem runRecords_quiet (h : SameLinks s t) (hrs : ∀ r ∈ rs, ¬src.Stops s r ∧ ¬r.Makes s) :
    (runRecords src rs t).2 = true ∧ SameLinks s (runRecords src rs t).1 ∧
      ∀ n, (runRecords src rs t).1.nodes n =
        (src.writers s rs n).foldl (fun node r => r.put src node) (t.nodes n) := by
  induction rs generalizing t with
  | nil => exact ⟨rfl, h, fun n => rfl⟩
  | cons r rs ih =>
    obtain ⟨⟨hstop, hmake⟩, hrest⟩ := List.forall_mem_cons.1 hrs
    rw [runRecords, mountRecord_quiet h hmake, decide_eq_false hstop]
    simp only [Bool.not_false, if_true]
    cases hw : src.writes s r with
    | none =>
      obtain ⟨hok, hl, hnodes⟩ := ih h hrest
      refine ⟨hok, hl, fun n => ?_⟩
      rw [hnodes n, Source.writers, Source.writers, List.filter_cons_of_neg (by simp [hw])]
    | some m =>
      obtain ⟨hok, hl, hnodes⟩ := ih (h.trans (sameLinks_put src t m r)) hrest
      refine ⟨hok, hl, fun n => ?_⟩
      simp only [hnodes n, Source.writers]
      by_cases hn : m = n
      · subst hn
        rw [List.filter_cons_of_pos (by simp [hw]), List.foldl_cons, Pool.nodes_modifyNode_self]
      · rw [List.filter_cons_of_neg (by simp [hw, hn]), Pool.nodes_modifyNode_of_ne _ _ (Ne.symm hn)]

theorem lookOf_put {node : VfsNode} (hs : ¬src.Starves r.entry) :
    lookOf (r.put src node) = r.look src node.type := by
  by_cases hzero : r.entry.size = 0
  · simp only [Record.put, hzero, true_or, if_true, lookOf, VfsNode.bytes, Record.look, List.take_zero,
      ite_self]
  · simp only [Record.put, hzero, hs, or_self, if_false, lookOf, VfsNode.bytes, Record.look,
      Option.getD_some]

theorem lookOf_put_of_starves {node : VfsNode} (hs : src.Starves r.entry) :
    lookOf (r.put src node) = r.lookStarved node.type node.data := by
  simp only [Record.put, hs, or_true, if_true, lookOf, VfsNode.bytes, Record.lookStarved]

theorem type_put (src : Source) (r : Record) (node : VfsNode) : (r.put src node).type = node.type := by
  simp only [Record.put]
  split <;> rfl

theorem type_foldl_put (src : Source) (rs : List Record) (node : VfsNode) :
    (rs.foldl (fun node r => r.put src node) node).type = node.type := by
  induction rs generalizing node with
  | nil => rfl
  | cons r rs ih => rw [List.foldl_cons, ih, type_put]

/-- **The last record says what the node looks like.** -/
theorem lookOf_foldl_put {node : VfsNode} (hrs : ∀ r ∈ rs, ¬src.Starves r.entry) :
    lookOf (rs.foldl (fun node r => r.put src node) node) =
      rs.getLast?.elim (lookOf node) fun r => r.look src node.type := by
  rcases List.eq_nil_or_concat' rs with rfl | ⟨rs, r, rfl⟩
  · rfl
  · rw [List.foldl_append, List.foldl_cons, List.foldl_nil, lookOf_put (hrs r (by simp)), type_foldl_put,
      List.getLast?_concat, Option.elim_some]

/-! ### Pools that are alike -/

theorem SameLinks.symm (h : SameLinks s s') : SameLinks s' s :=
  ⟨h.count.symm, fun n => (h.name n).symm, fun n => (h.type n).symm, fun n => (h.parent n).symm,
    fun n => (h.first n).symm, fun n => (h.next n).symm⟩

theorem Alike.modifyNode (h : Alike s s') {n : ℕ} {f f' : VfsNode → VfsNode}
    (hs : SameLinks s (s.modifyNode n f)) (hs' : SameLinks s' (s'.modifyNode n f'))
    (hlook : lookOf (f' (s'.nodes n)) = lookOf (f (s.nodes n))) :
    Alike (s.modifyNode n f) (s'.modifyNode n f') := by
  refine ⟨(SameLinks.symm hs).trans (h.links.trans hs'), fun m => ?_⟩
  rw [Pool.nodes_modifyNode, Pool.nodes_modifyNode]
  split_ifs
  · exact hlook
  · exact h.look m

theorem Alike.alloc (h : Alike s s') (name : List Byte) (type : NodeType) (mode uid gid : UInt32)
    (clock clock' : ℕ) :
    Alike
      ⟨fun m => if m = s.nodeCount then freshNode clock name type mode uid gid else s.nodes m,
        s.nodeCount + 1, clock⟩
      ⟨fun m => if m = s'.nodeCount then freshNode clock' name type mode uid gid else s'.nodes m,
        s'.nodeCount + 1, clock'⟩ := by
  have hcount := h.links.count
  refine ⟨⟨by simp only [hcount], fun n => ?_, fun n => ?_, fun n => ?_, fun n => ?_, fun n => ?_⟩,
    fun n => ?_⟩
  all_goals
    simp only [hcount]
    split_ifs
    · rfl
  · exact h.links.name n
  · exact h.links.type n
  · exact h.links.parent n
  · exact h.links.first n
  · exact h.links.next n
  · exact h.look n

theorem Alike.attachChild (h : Alike s s') (parent child : ℕ) :
    Alike (attachChild s parent child) (attachChild s' parent child) := by
  have hfirst := h.links.first parent
  simp only [Vfs.attachChild, hfirst]
  refine ⟨⟨h.links.count, fun n => ?_, fun n => ?_, fun n => ?_, fun n => ?_, fun n => ?_⟩, fun n => ?_⟩
  all_goals simp only [Pool.nodes_modifyNode]
  · split_ifs <;> exact h.links.name _
  · split_ifs <;> exact h.links.type _
  · split_ifs <;> first | rfl | exact h.links.parent _
  · split_ifs <;> first | rfl | exact h.links.first _
  · split_ifs <;> first | rfl | exact h.links.next _
  · split_ifs <;> exact h.look _

theorem alike_vfsMake (h : Alike s s') (type : NodeType) (path cwd : List Byte) (mode uid gid : UInt32) :
    Alike (vfsMake type s path cwd mode uid gid).1 (vfsMake type s' path cwd mode uid gid).1 := by
  rw [vfsMake, vfsMake, h.links.parentAndName_eq]
  cases parentAndName s path cwd with
  | none => exact h
  | some pn =>
    have hcount := h.links.count
    simp only [h.links.findChild_eq, allocNode, hcount]
    split_ifs
    · exact h
    · exact h
    · have halloc := (h.alloc pn.2 type mode uid gid (s.clock + 1) (s'.clock + 1)).attachChild pn.1
        s.nodeCount
      rw [hcount] at halloc
      exact halloc

/-- **A turn does the same to pools that are alike**, unless it ends the loop. -/
theorem alike_mountRecord (h : Alike s s') (src : Source) (r : Record) :
    (mountRecord src s' r).2 = (mountRecord src s r).2 ∧
      ((mountRecord src s r).2 = true → Alike (mountRecord src s r).1 (mountRecord src s' r).1) := by
  rw [mountRecord, mountRecord]
  split_ifs
  · exact ⟨rfl, fun _ => alike_vfsMake h _ _ _ _ _ _⟩
  · exact ⟨rfl, fun hok => by cases hok⟩
  · have hmade : Alike (makeFile s r).1 (makeFile s' r).1 := alike_vfsMake h _ _ _ _ _ _
    rw [fillFile_eq, fillFile_eq, hmade.links.vfsLookup_eq]
    cases vfsLookup (makeFile s r).1 r.path [slash] with
    | none => exact ⟨rfl, fun _ => hmade⟩
    | some n =>
      refine ⟨rfl, fun hok => ?_⟩
      have hs : ¬src.Starves r.entry := by simpa using hok
      refine hmade.modifyNode (sameLinks_put src _ n r) (sameLinks_put src _ n r) ?_
      rw [lookOf_put hs, lookOf_put hs, hmade.links.type]
  · exact ⟨rfl, fun _ => h⟩

/-- Two sources have the file of a record, and the same in it. -/
structure Source.Share (src src' : Source) (r : Record) : Prop where
  fits : ¬exceedsImage src.size r.entry
  fits' : ¬exceedsImage src'.size r.entry
  fed : (resolve r.path [slash]).isSome → ¬src.Starves r.entry
  fed' : (resolve r.path [slash]).isSome → ¬src'.Starves r.entry
  contents : r.entry.size ≠ 0 → src'.contents r.entry = src.contents r.entry

/-- **A turn goes on, and does the same**, from two sources that share the file. -/
theorem alike_mountRecord_of_share (h : Alike s s') {src' : Source} (hr : 0 ∉ r.path)
    (hshare : r.IsFile → src.Share src' r) :
    (mountRecord src s r).2 = true ∧ (mountRecord src' s' r).2 = true ∧
      Alike (mountRecord src s r).1 (mountRecord src' s' r).1 := by
  rw [mountRecord, mountRecord]
  by_cases hd : r.IsDir
  · rw [if_pos hd, if_pos hd]
    exact ⟨rfl, rfl, alike_vfsMake h _ _ _ _ _ _⟩
  · rw [if_neg hd, if_neg hd]
    by_cases hf : r.IsFile
    · obtain ⟨hfits, hfits', hfed, hfed', hcontents⟩ := hshare hf
      have hmade : Alike (makeFile s r).1 (makeFile s' r).1 := alike_vfsMake h _ _ _ _ _ _
      rw [if_pos hf, if_pos hf, if_neg hfits, if_neg hfits', fillFile_eq, fillFile_eq,
        hmade.links.vfsLookup_eq]
      cases hl : vfsLookup (makeFile s r).1 r.path [slash] with
      | none => exact ⟨rfl, rfl, hmade⟩
      | some n =>
        have hres : (resolve r.path [slash]).isSome := by
          rw [vfsLookup_eq _ hr (by decide), Option.bind_eq_some_iff] at hl
          obtain ⟨cs, hcs, -⟩ := hl
          rw [hcs]
          rfl
        refine ⟨by simpa using hfed hres, by simpa using hfed' hres,
          hmade.modifyNode (sameLinks_put src _ n r) (sameLinks_put src' _ n r) ?_⟩
        rw [lookOf_put (hfed hres), lookOf_put (hfed' hres), hmade.links.type, Record.look, Record.look]
        by_cases hzero : r.entry.size = 0
        · rw [if_pos hzero, if_pos hzero]
        · rw [hcontents hzero]
    · rw [if_neg hf, if_neg hf]
      exact ⟨rfl, rfl, h⟩

/-- **A run goes through, and does the same**, from two sources that share the files. -/
theorem alike_runRecords_of_share (h : Alike s s') (src' : Source) (hrs : ∀ r ∈ rs, 0 ∉ r.path)
    (hshare : ∀ r ∈ rs, r.IsFile → src.Share src' r) :
    (runRecords src rs s).2 = true ∧ (runRecords src' rs s').2 = true ∧
      Alike (runRecords src rs s).1 (runRecords src' rs s').1 := by
  induction rs generalizing s s' with
  | nil => exact ⟨rfl, rfl, h⟩
  | cons r rs ih =>
    obtain ⟨hr, hrest⟩ := List.forall_mem_cons.1 hrs
    obtain ⟨hsr, hsrest⟩ := List.forall_mem_cons.1 hshare
    obtain ⟨hgo, hgo', halike⟩ := alike_mountRecord_of_share h hr hsr
    rw [runRecords, runRecords, if_pos hgo, if_pos hgo']
    exact ih halike hrest hsrest

/-- **A run that goes through does the same to pools that are alike.** -/
theorem alike_runRecords (h : Alike s s') (src : Source) (rs : List Record) :
    (runRecords src rs s').2 = (runRecords src rs s).2 ∧
      ((runRecords src rs s).2 = true → Alike (runRecords src rs s).1 (runRecords src rs s').1) := by
  induction rs generalizing s s' with
  | nil => exact ⟨rfl, fun _ => h⟩
  | cons r rs ih =>
    obtain ⟨hok, hstep⟩ := alike_mountRecord h src r
    rw [runRecords, runRecords]
    simp only [hok]
    by_cases hgo : (mountRecord src s r).2 = true
    · rw [if_pos hgo, if_pos hgo]
      exact ih (hstep hgo)
    · rw [if_neg hgo, if_neg hgo]
      exact ⟨hok, fun htrue => absurd htrue hgo⟩

end Tnu.Tfs
