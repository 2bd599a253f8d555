/-
**The image builder.**

`tools/mktfs.py` packs a directory of the host into an image: it walks the directory, sorts what it finds by
depth, and writes a header, a table of records and the contents of the files, each padded to eight bytes.
The tool raises an error for a path of 256 bytes or more, for a name that is no UTF-8, and for a number that
its field cannot hold; it knows none of the other limits of the kernel.

Main definitions:

* `collect`, `packItem`, `mktfs` — the tool.

Main results:

* `look_eq_some_iff` — **the tool collects the tree**, each path once;
* `layout_of_mktfs` — where everything is in the image.
-/

import Tnu.Tfs.Records
import Mathlib.Data.Prod.Lex
import Mathlib.Data.List.Lex

set_option autoImplicit false

namespace Tnu.Tfs

open Vfs

/-! ### The source tree -/

/-- What `stat` says of a file or a directory of the host. -/
structure HostStat where
  mode : UInt32
  mtime : ℤ

/-- What a directory of the host contains, in the order it is listed. -/
inductive Listing
  | nil
  | file (name : List Byte) (st : HostStat) (data : List Byte) (rest : Listing)
  | dir (name : List Byte) (st : HostStat) (inside : Listing) (rest : Listing)

/-- A name the host can have. -/
structure HostName (name : List Byte) : Prop where
  ne_nil : name ≠ []
  no_slash : slash ∉ name
  no_nul : 0 ∉ name
  ne_dot : name ≠ dot
  ne_dotdot : name ≠ dotdot

namespace Listing

def names : Listing → List (List Byte)
  | nil => []
  | file name _ _ rest => name :: rest.names
  | dir name _ _ rest => name :: rest.names

/-- **A directory of the host**: its names are names of the host, and each stands there once. -/
def Wf : Listing → Prop
  | nil => True
  | file name _ _ rest => HostName name ∧ name ∉ rest.names ∧ rest.Wf
  | dir name _ inside rest => HostName name ∧ name ∉ rest.names ∧ inside.Wf ∧ rest.Wf

end Listing

/-- `.keep`, which is not packed. -/
def keepName : List Byte := lit ".keep"

def packedDir (st : HostStat) : Look :=
  ⟨.dir, vfsSIfdir ||| (st.mode &&& permMask), 0, 0, []⟩

def packedFile (st : HostStat) (data : List Byte) : Look :=
  ⟨.file, vfsSIfreg ||| (st.mode &&& permMask), 0, 0, data⟩

/-- **What is packed under a path.** -/
def Listing.look : Listing → NamePath → Option Look
  | .nil, _ => none
  | .file name st data rest, cs =>
    if cs = [name] then (if name = keepName then none else some (packedFile st data)) else rest.look cs
  | .dir name st inside rest, cs =>
    if cs.head? = some name then
      (if cs.tail = [] then some (packedDir st) else inside.look cs.tail)
    else rest.look cs

/-! ### Collecting -/

/-- An entry of the tool. -/
structure Item where
  type : ℕ
  path : NamePath
  mode : UInt32
  mtime : ℤ
  data : List Byte

def Item.text (i : Item) : List Byte := pathString i.path

/-- The entry of a directory; `stat.S_IMODE` keeps the permission bits. -/
def dirItem (path : NamePath) (st : HostStat) : Item :=
  ⟨tfsEntryDir, path, st.mode &&& permMask, st.mtime, []⟩

def fileItem (path : NamePath) (st : HostStat) (data : List Byte) : Item :=
  ⟨tfsEntryFile, path, st.mode &&& permMask, st.mtime, data⟩

/-- The walk, below a path.  The order within a directory does not matter: the sort that follows brings
every entry to its place. -/
def collectItems (above : NamePath) : Listing → List Item
  | .nil => []
  | .file name st data rest =>
    (if name = keepName then [] else [fileItem (above ++ [name]) st data]) ++ collectItems above rest
  | .dir name st inside rest =>
    dirItem (above ++ [name]) st :: collectItems (above ++ [name]) inside ++ collectItems above rest

/-- The key of the sort: the number of slashes, then the path.  A string of Python is compared by its
characters, which is the order of the bytes that write it. -/
def Item.key (i : Item) : ℕ ×ₗ List ℕ := toLex (i.text.count slash, i.text.map UInt8.toNat)

def collect (t : Listing) : List Item :=
  (collectItems [] t).mergeSort fun i j => decide (i.key ≤ j.key)

def Item.look (i : Item) : Look :=
  if i.type = tfsEntryFile then ⟨.file, vfsSIfreg ||| i.mode, 0, 0, i.data⟩
  else ⟨.dir, vfsSIfdir ||| i.mode, 0, 0, []⟩

variable {t : Listing} {above cs : NamePath} {i : Item} {v : Look}

theorem path_of_mem (hi : i ∈ collectItems above t) :
    ∃ name ∈ t.names, ∃ cs, i.path = above ++ name :: cs := by
  induction t generalizing above with
  | nil => cases hi
  | file name st data rest ih =>
    rcases List.mem_append.1 hi with hi | hi
    · split_ifs at hi with hkeep
      · cases hi
      · obtain rfl := List.mem_singleton.1 hi
        exact ⟨name, List.mem_cons_self, [], rfl⟩
    · obtain ⟨name', hname, cs, hcs⟩ := ih hi
      exact ⟨name', List.mem_cons_of_mem _ hname, cs, hcs⟩
  | dir name st inside rest ihin ihrest =>
    rw [collectItems, List.cons_append, List.mem_cons, List.mem_append] at hi
    rcases hi with rfl | hi | hi
    · exact ⟨name, List.mem_cons_self, [], rfl⟩
    · obtain ⟨name', -, cs, hcs⟩ := ihin hi
      exact ⟨name, List.mem_cons_self, name' :: cs, by rw [hcs, List.append_assoc]; rfl⟩
    · obtain ⟨name', hname, cs, hcs⟩ := ihrest hi
      exact ⟨name', List.mem_cons_of_mem _ hname, cs, hcs⟩

/-- **The tool collects the tree.** -/
theorem look_eq_some_iff (above : NamePath) (ht : t.Wf) :
    t.look cs = some v ↔ ∃ i ∈ collectItems above t, i.path = above ++ cs ∧ i.look = v := by
  induction t generalizing above cs with
  | nil =>
    constructor
    · intro h
      cases h
    · rintro ⟨i, hi, -⟩
      cases hi
  | file name st data rest ih =>
    obtain ⟨-, hfresh, hrest⟩ := ht
    rw [Listing.look]
    by_cases hcs : cs = [name]
    · subst hcs
      have hnone : ∀ i ∈ collectItems above rest, i.path ≠ above ++ [name] := fun i hi he => by
        obtain ⟨name', hname', cs, hpath⟩ := path_of_mem hi
        rw [hpath] at he
        obtain ⟨rfl, -⟩ := List.cons_eq_cons.1 (List.append_cancel_left he)
        exact hfresh hname'
      rw [if_pos rfl, collectItems]
      by_cases hkeep : name = keepName
      · rw [if_pos hkeep, if_pos hkeep, List.nil_append]
        constructor
        · intro h
          cases h
        · rintro ⟨i, hi, hpath, -⟩
          exact absurd hpath (hnone i hi)
      · rw [if_neg hkeep, if_neg hkeep, Option.some_inj]
        constructor
        · rintro rfl
          exact ⟨_, List.mem_append_left _ List.mem_cons_self, rfl, rfl⟩
        · rintro ⟨i, hi, hpath, rfl⟩
          rcases List.mem_append.1 hi with hi | hi
          · obtain rfl := List.mem_singleton.1 hi
            rfl
          · exact absurd hpath (hnone i hi)
    · rw [if_neg hcs, ih above hrest, collectItems]
      constructor
      · rintro ⟨i, hi, hpath, hlook⟩
        exact ⟨i, List.mem_append_right _ hi, hpath, hlook⟩
      · rintro ⟨i, hi, hpath, hlook⟩
        rcases List.mem_append.1 hi with hi | hi
        · split_ifs at hi
          · cases hi
          · obtain rfl := List.mem_singleton.1 hi
            exact absurd (List.append_cancel_left hpath).symm hcs
        · exact ⟨i, hi, hpath, hlook⟩
  | dir name st inside rest ihin ihrest =>
    obtain ⟨-, hfresh, hinside, hrest⟩ := ht
    rw [Listing.look, collectItems]
    simp only [List.cons_append, List.mem_cons, List.mem_append]
    by_cases hhead : cs.head? = some name
    · obtain ⟨cs, rfl⟩ := List.head?_eq_some_iff.1 hhead
      have hnone : ∀ i ∈ collectItems above rest, i.path ≠ above ++ name :: cs := fun i hi he => by
        obtain ⟨name', hname', cs', hpath⟩ := path_of_mem hi
        rw [hpath] at he
        obtain ⟨rfl, -⟩ := List.cons_eq_cons.1 (List.append_cancel_left he)
        exact hfresh hname'
      rw [if_pos hhead, List.tail_cons]
      by_cases hcs : cs = []
      · subst hcs
        have hdeep : ∀ i ∈ collectItems (above ++ [name]) inside, i.path ≠ above ++ [name] :=
          fun i hi he => by
            obtain ⟨name', -, cs', hpath⟩ := path_of_mem hi
            rw [hpath, List.append_assoc] at he
            exact List.cons_ne_nil _ _ (List.cons_eq_cons.1 (List.append_cancel_left he)).2
        rw [if_pos rfl, Option.some_inj]
        constructor
        · rintro rfl
          exact ⟨_, .inl rfl, rfl, rfl⟩
        · rintro ⟨i, rfl | hi | hi, hpath, rfl⟩
          · rfl
          · exact absurd hpath (hdeep i hi)
          · exact absurd hpath (hnone i hi)
      · rw [if_neg hcs, ihin (above ++ [name]) hinside]
        have happend : above ++ [name] ++ cs = above ++ name :: cs := by simp
        rw [happend]
        constructor
        · rintro ⟨i, hi, hpath, hlook⟩
          exact ⟨i, .inr (.inl hi), hpath, hlook⟩
        · rintro ⟨i, rfl | hi | hi, hpath, hlook⟩
          · exact absurd (List.cons_eq_cons.1 (List.append_cancel_left hpath)).2.symm hcs
          · exact ⟨i, hi, hpath, hlook⟩
          · exact absurd hpath (hnone i hi)
    · rw [if_neg hhead, ihrest above hrest]
      constructor
      · rintro ⟨i, hi, hpath, hlook⟩
        exact ⟨i, .inr (.inr hi), hpath, hlook⟩
      · rintro ⟨i, rfl | hi | hi, hpath, hlook⟩
        · refine absurd ?_ hhead
          rw [← List.append_cancel_left hpath]
          rfl
        · obtain ⟨name', -, cs', hin⟩ := path_of_mem hi
          refine absurd ?_ hhead
          rw [hin, List.append_assoc] at hpath
          rw [← List.append_cancel_left hpath]
          rfl
        · exact ⟨i, hi, hpath, hlook⟩

theorem hostName_of_mem (ht : t.Wf) (hi : i ∈ collectItems above t) :
    ∀ c ∈ i.path, c ∈ above ∨ HostName c := by
  induction t generalizing above with
  | nil => cases hi
  | file name st data rest ih =>
    obtain ⟨hname, -, hrest⟩ := ht
    rcases List.mem_append.1 hi with hi | hi
    · split_ifs at hi
      · cases hi
      · obtain rfl := List.mem_singleton.1 hi
        intro c hc
        rcases List.mem_append.1 hc with hc | hc
        · exact .inl hc
        · exact .inr (List.mem_singleton.1 hc ▸ hname)
    · exact ih hrest hi
  | dir name st inside rest ihin ihrest =>
    obtain ⟨hname, -, hinside, hrest⟩ := ht
    rw [collectItems, List.cons_append, List.mem_cons, List.mem_append] at hi
    have habove : ∀ c ∈ above ++ [name], c ∈ above ∨ HostName c := fun c hc => by
      rcases List.mem_append.1 hc with hc | hc
      · exact .inl hc
      · exact .inr (List.mem_singleton.1 hc ▸ hname)
    rcases hi with rfl | hi | hi
    · exact habove
    · exact fun c hc => (ihin hinside hi c hc).elim (habove c) .inr
    · exact ihrest hrest hi

/-- **Each path is collected once.** -/
theorem nodup_collectItems (ht : t.Wf) : ((collectItems above t).map Item.path).Nodup := by
  induction t generalizing above with
  | nil => exact List.nodup_nil
  | file name st data rest ih =>
    obtain ⟨-, hfresh, hrest⟩ := ht
    rw [collectItems, List.map_append]
    refine List.Nodup.append ?_ (ih hrest) ?_
    · split_ifs
      · exact List.nodup_nil
      · exact List.nodup_singleton _
    · intro p hp hp'
      obtain ⟨i, hi, rfl⟩ := List.mem_map.1 hp
      obtain ⟨j, hj, hpath⟩ := List.mem_map.1 hp'
      obtain ⟨name', hname', cs, hcs⟩ := path_of_mem hj
      split_ifs at hi
      · cases hi
      · obtain rfl := List.mem_singleton.1 hi
        rw [hcs] at hpath
        obtain ⟨rfl, -⟩ := List.cons_eq_cons.1 (List.append_cancel_left hpath)
        exact hfresh hname'
  | dir name st inside rest ihin ihrest =>
    obtain ⟨-, hfresh, hinside, hrest⟩ := ht
    rw [collectItems, List.map_append, List.map_cons]
    have hstart : ∀ p ∈ (dirItem (above ++ [name]) st).path ::
        (collectItems (above ++ [name]) inside).map Item.path, ∃ cs, p = above ++ name :: cs := by
      refine List.forall_mem_cons.2 ⟨⟨[], rfl⟩, fun p hp => ?_⟩
      obtain ⟨i, hi, rfl⟩ := List.mem_map.1 hp
      obtain ⟨name', -, cs, hcs⟩ := path_of_mem hi
      exact ⟨name' :: cs, by rw [hcs, List.append_assoc]; rfl⟩
    refine List.Nodup.append (List.nodup_cons.2 ⟨fun hp => ?_, ihin hinside⟩) (ihrest hrest) ?_
    · obtain ⟨i, hi, hpath⟩ := List.mem_map.1 hp
      obtain ⟨name', -, cs, hcs⟩ := path_of_mem hi
      have hlong := congrArg List.length (hcs.symm.trans hpath)
      simp [dirItem] at hlong
    · intro p hp hp'
      obtain ⟨cs, rfl⟩ := hstart p hp
      obtain ⟨j, hj, hpath⟩ := List.mem_map.1 hp'
      obtain ⟨name', hname', cs', hcs'⟩ := path_of_mem hj
      rw [hcs'] at hpath
      obtain ⟨rfl, -⟩ := List.cons_eq_cons.1 (List.append_cancel_left hpath)
      exact hfresh hname'

theorem parent_of_mem (hi : i ∈ collectItems above t) :
    i.path.dropLast = above ∨
      ∃ d ∈ collectItems above t, d.type = tfsEntryDir ∧ d.path = i.path.dropLast := by
  induction t generalizing above with
  | nil => cases hi
  | file name st data rest ih =>
    rcases List.mem_append.1 hi with hi | hi
    · split_ifs at hi
      · cases hi
      · obtain rfl := List.mem_singleton.1 hi
        exact .inl (by simp [fileItem])
    · rcases ih hi with hsame | ⟨d, hd, htype, hpath⟩
      · exact .inl hsame
      · exact .inr ⟨d, List.mem_append_right _ hd, htype, hpath⟩
  | dir name st inside rest ihin ihrest =>
    rw [collectItems, List.cons_append, List.mem_cons, List.mem_append] at hi
    simp only [collectItems, List.cons_append, List.mem_cons, List.mem_append]
    rcases hi with rfl | hi | hi
    · exact .inl (by simp [dirItem])
    · rcases ihin hi with hsame | ⟨d, hd, htype, hpath⟩
      · exact .inr ⟨_, .inl rfl, rfl, hsame.symm⟩
      · exact .inr ⟨d, .inr (.inl hd), htype, hpath⟩
    · rcases ihrest hi with hsame | ⟨d, hd, htype, hpath⟩
      · exact .inl hsame
      · exact .inr ⟨d, .inr (.inr hd), htype, hpath⟩

theorem type_of_mem (hi : i ∈ collectItems above t) :
    (i.type = tfsEntryDir ∧ i.data = []) ∨ i.type = tfsEntryFile := by
  induction t generalizing above with
  | nil => cases hi
  | file name st data rest ih =>
    rcases List.mem_append.1 hi with hi | hi
    · split_ifs at hi
      · cases hi
      · obtain rfl := List.mem_singleton.1 hi
        exact .inr rfl
    · exact ih hi
  | dir name st inside rest ihin ihrest =>
    rw [collectItems, List.cons_append, List.mem_cons, List.mem_append] at hi
    rcases hi with rfl | hi | hi
    · exact .inl ⟨rfl, rfl⟩
    · exact ihin hi
    · exact ihrest hi

theorem mode_of_mem (hi : i ∈ collectItems above t) : i.mode &&& permMask = i.mode := by
  have hself : ∀ st : HostStat, st.mode &&& permMask &&& permMask = st.mode &&& permMask := fun st => by
    rw [UInt32.and_assoc, UInt32.and_self]
  induction t generalizing above with
  | nil => cases hi
  | file name st data rest ih =>
    rcases List.mem_append.1 hi with hi | hi
    · split_ifs at hi
      · cases hi
      · obtain rfl := List.mem_singleton.1 hi
        exact hself st
    · exact ih hi
  | dir name st inside rest ihin ihrest =>
    rw [collectItems, List.cons_append, List.mem_cons, List.mem_append] at hi
    rcases hi with rfl | hi | hi
    · exact hself st
    · exact ihin hi
    · exact ihrest hi

/-! ### The order -/

theorem count_slash_pathString (hne : cs ≠ []) (h : ∀ c ∈ cs, HostName c) :
    (pathString cs).count slash = cs.length := by
  rw [pathString_of_ne_nil hne]
  clear hne
  induction cs with
  | nil => rfl
  | cons c cs ih =>
    obtain ⟨hc, hcs⟩ := List.forall_mem_cons.1 h
    rw [Sep.joinPre_cons, List.count_cons_self, List.count_append, ih hcs,
      List.count_eq_zero_of_not_mem hc.no_slash, List.length_cons, Nat.zero_add]

theorem nul_free_pathString (h : ∀ c ∈ cs, HostName c) : 0 ∉ pathString cs := by
  have hjoin : 0 ∉ Sep.joinPre slash cs := by
    induction cs with
    | nil => simp
    | cons c cs ih =>
      obtain ⟨hc, hcs⟩ := List.forall_mem_cons.1 h
      rw [Sep.joinPre_cons, List.mem_cons, List.mem_append]
      rintro (h0 | h0 | h0)
      · exact absurd h0 (by decide)
      · exact hc.no_nul h0
      · exact ih hcs h0
  rw [pathString]
  split_ifs
  · decide
  · exact hjoin

@[simp] theorem mem_collect : i ∈ collect t ↔ i ∈ collectItems [] t :=
  (List.mergeSort_perm _ _).mem_iff

theorem path_ne_nil (hi : i ∈ collect t) : i.path ≠ [] := by
  obtain ⟨name, -, cs, hcs⟩ := path_of_mem (mem_collect.1 hi)
  rw [hcs]
  simp

theorem hostName_of_collect (ht : t.Wf) (hi : i ∈ collect t) : ∀ c ∈ i.path, HostName c := fun c hc =>
  (hostName_of_mem ht (mem_collect.1 hi) c hc).resolve_left List.not_mem_nil

theorem nodup_collect (ht : t.Wf) : ((collect t).map Item.path).Nodup :=
  ((List.mergeSort_perm _ _).map _).nodup_iff.2 (nodup_collectItems ht)

theorem sorted_collect (t : Listing) : (collect t).Pairwise fun i j => i.key ≤ j.key := by
  have h : (collect t).Pairwise fun i j => decide (i.key ≤ j.key) = true :=
    List.pairwise_mergeSort
      (fun i j k hij hjk => by simpa using le_trans (of_decide_eq_true hij) (of_decide_eq_true hjk))
      (fun i j => by simpa using le_total i.key j.key) (collectItems [] t)
  exact h.imp fun hij => of_decide_eq_true hij

/-- **A directory comes before what is in it.** -/
theorem parent_collect (ht : t.Wf) {l l' : List Item} (hsplit : collect t = l ++ i :: l') :
    i.path.dropLast = [] ∨ ∃ d ∈ l, d.type = tfsEntryDir ∧ d.path = i.path.dropLast := by
  have hi : i ∈ collect t := by rw [hsplit]; simp
  refine (parent_of_mem (mem_collect.1 hi)).imp_right ?_
  rintro ⟨d, hd, htype, hpath⟩
  have hdmem := mem_collect.2 hd
  have hdmem' := hdmem
  rw [hsplit, List.mem_append] at hdmem
  refine ⟨d, hdmem.resolve_right fun hlate => ?_, htype, hpath⟩
  -- had it come later, it would have as many slashes
  have hle : i.key ≤ d.key := by
    rcases List.mem_cons.1 hlate with rfl | hlate
    · exact le_rfl
    · have hsorted := sorted_collect t
      rw [hsplit, List.pairwise_append] at hsorted
      exact (List.pairwise_cons.1 hsorted.2.1).1 d hlate
  have hcount : i.text.count slash ≤ d.text.count slash := by
    rcases Prod.Lex.toLex_le_toLex.1 hle with hlt | ⟨heq, -⟩
    · exact hlt.le
    · exact heq.le
  rw [Item.text, Item.text, count_slash_pathString (path_ne_nil hi) (hostName_of_collect ht hi),
    count_slash_pathString (path_ne_nil hdmem') (hostName_of_collect ht hdmem'), hpath,
    List.length_dropLast] at hcount
  have hpos := List.length_pos_iff.2 (path_ne_nil hi)
  omega

/-! ### Packing -/

def align (value amount : ℕ) : ℕ := (value + amount - 1) / amount * amount

def padPayload (payload : List Byte) : List Byte :=
  payload ++ List.replicate (align payload.length 8 - payload.length) 0

/-- The record of an entry.  The path has no NUL, and is shorter than the field. -/
def Item.entry (i : Item) (offset : ℕ) : TfsEntry where
  type := i.type
  mode := i.mode
  uid := 0
  gid := 0
  size := if i.type = tfsEntryFile then i.data.length else 0
  offset := offset
  mtime := i.mtime.toNat
  path := CharBuf.strncpy (tfsPathMax - 1) i.text

/-- The fields of a record hold its numbers; `ENTRY.pack` raises an error otherwise. -/
def Item.Packs (i : Item) (offset : ℕ) : Prop :=
  (i.entry offset).size < 2 ^ 64 ∧ offset < 2 ^ 64 ∧ 0 ≤ i.mtime ∧ i.mtime < 2 ^ 64

instance (i : Item) (offset : ℕ) : Decidable (i.Packs offset) := inferInstanceAs (Decidable (_ ∧ _))

/-- `str.encode` raises an error for a name that is no UTF-8. -/
def Item.Encodes (i : Item) : Prop := (ByteArray.mk i.text.toArray).IsValidUTF8

instance (i : Item) : Decidable i.Encodes := inferInstanceAs (Decidable (ByteArray.IsValidUTF8 _))

/-- `payload` and `packed_entries`. -/
structure Packing where
  payload : List Byte
  packed : List Byte

def Packing.offset (p : Packing) (dataOffset : ℕ) (i : Item) : ℕ :=
  if i.type = tfsEntryFile then dataOffset + p.payload.length else 0

def Packing.extend (p : Packing) (i : Item) : List Byte :=
  if i.type = tfsEntryFile then padPayload (p.payload ++ i.data) else p.payload

/-- One turn of the loop of `main`. -/
def packItem (dataOffset : ℕ) (p : Packing) (i : Item) : Option Packing :=
  if ¬i.Encodes then none
  else if tfsPathMax ≤ i.text.length then none
  else if i.Packs (p.offset dataOffset i) then
    some ⟨p.extend i, p.packed ++ encodeEntry (i.entry (p.offset dataOffset i))⟩
  else none

def packHeader (count dataOffset : ℕ) : List Byte :=
  tfsMagic ++ Bytes.le 4 tfsVersion ++ Bytes.le 4 count ++ Bytes.le 8 headerSize ++ Bytes.le 8 dataOffset

/-- `data_offset`, for so many entries. -/
def packDataOffset (count : ℕ) : ℕ := align (headerSize + count * entrySize) 8

/-- **`mktfs.py`**: the image of a directory, unless an error is raised. -/
def mktfs (t : Listing) : Option (List Byte) :=
  let entries := collect t
  let dataOffset := packDataOffset entries.length
  (entries.foldlM (packItem dataOffset) ⟨[], []⟩).bind fun p =>
    if entries.length < 2 ^ 32 ∧ dataOffset < 2 ^ 64 then
      let image := packHeader entries.length dataOffset ++ p.packed
      some (image ++ List.replicate (dataOffset - image.length) 0 ++ p.payload)
    else none

/-! ### The layout -/

/-- An entry, and where its file is. -/
structure Placed where
  item : Item
  offset : ℕ

def Placed.entry (e : Placed) : TfsEntry := e.item.entry e.offset

/-- **An entry is in place**: its path and its numbers fit their fields, and its file is in the payload. -/
structure InPlace (dataOffset : ℕ) (payload : List Byte) (e : Placed) : Prop where
  short : e.item.text.length < tfsPathMax
  packs : e.item.Packs e.offset
  file : e.item.type = tfsEntryFile → ∃ pre post, payload = pre ++ e.item.data ++ post ∧
    e.offset = dataOffset + pre.length

@[simp] theorem length_packHeader (count dataOffset : ℕ) : (packHeader count dataOffset).length = headerSize := by
  simp [packHeader]

theorem length_table (es : List Placed) :
    (es.flatMap fun e => encodeEntry e.entry).length = es.length * entrySize := by
  rw [← List.flatMap_map, length_flatMap_encodeEntry, List.length_map]

variable {dataOffset : ℕ} {p p' : Packing}

theorem InPlace.append {payload : List Byte} {e : Placed} (h : InPlace dataOffset payload e)
    (more : List Byte) : InPlace dataOffset (payload ++ more) e where
  short := h.short
  packs := h.packs
  file htype := by
    obtain ⟨pre, post, hpayload, hoffset⟩ := h.file htype
    exact ⟨pre, post ++ more, by rw [hpayload, List.append_assoc _ post], hoffset⟩

theorem extend_eq (p : Packing) (i : Item) : ∃ more, p.extend i = p.payload ++ more := by
  rw [Packing.extend]
  split_ifs
  · exact ⟨i.data ++ _, by rw [padPayload, List.append_assoc]⟩
  · exact ⟨[], (List.append_nil _).symm⟩

/-- **One turn** puts one record behind the others, and its file behind theirs. -/
theorem packItem_spec (h : packItem dataOffset p i = some p') :
    p'.packed = p.packed ++ encodeEntry (i.entry (p.offset dataOffset i)) ∧
      (∃ more, p'.payload = p.payload ++ more) ∧
      InPlace dataOffset p'.payload ⟨i, p.offset dataOffset i⟩ := by
  rw [packItem] at h
  split_ifs at h with henc hlong hpacks
  obtain rfl := Option.some.inj h
  refine ⟨rfl, extend_eq p i, not_le.1 hlong, hpacks, fun htype => ?_⟩
  refine ⟨p.payload, List.replicate (align (p.payload ++ i.data).length 8 - (p.payload ++ i.data).length) 0,
    ?_, ?_⟩
  · simp only [Packing.extend]
    rw [if_pos htype, padPayload]
  · simp only [Packing.offset]
    rw [if_pos htype]

/-- **The loop** puts all records one behind the other, and all files in the payload. -/
theorem packAll_spec {items : List Item} (h : items.foldlM (packItem dataOffset) p = some p') :
    ∃ es : List Placed, es.map Placed.item = items ∧
      p'.packed = p.packed ++ es.flatMap (fun e => encodeEntry e.entry) ∧
      (∃ more, p'.payload = p.payload ++ more) ∧ ∀ e ∈ es, InPlace dataOffset p'.payload e := by
  induction items generalizing p with
  | nil =>
    rw [List.foldlM_nil] at h
    obtain rfl := Option.some.inj h
    exact ⟨[], rfl, (List.append_nil _).symm, ⟨[], (List.append_nil _).symm⟩, by simp⟩
  | cons i items ih =>
    rw [List.foldlM_cons, Option.bind_eq_bind, Option.bind_eq_some_iff] at h
    obtain ⟨q, hq, hrest⟩ := h
    obtain ⟨hpacked, ⟨more, hmore⟩, hplace⟩ := packItem_spec hq
    obtain ⟨es, hes, hpacked', ⟨more', hmore'⟩, hall⟩ := ih hrest
    refine ⟨⟨i, p.offset dataOffset i⟩ :: es, by rw [List.map_cons, hes], ?_, ?_, ?_⟩
    · rw [hpacked', hpacked, List.flatMap_cons, List.append_assoc]
      rfl
    · exact ⟨more ++ more', by rw [hmore', hmore, List.append_assoc]⟩
    · refine List.forall_mem_cons.2 ⟨?_, hall⟩
      rw [hmore']
      exact hplace.append more'

/-- **The layout of an image**: header, records, zeros, and the files where the records say. -/
theorem layout_of_mktfs {image : List Byte} (h : mktfs t = some image) :
    ∃ (es : List Placed) (zeros payload : List Byte), es.map Placed.item = collect t ∧
      image = packHeader es.length (packDataOffset es.length) ++
        es.flatMap (fun e => encodeEntry e.entry) ++ zeros ++ payload ∧
      headerSize + es.length * entrySize + zeros.length = packDataOffset es.length ∧
      es.length < 2 ^ 32 ∧ packDataOffset es.length < 2 ^ 64 ∧
      ∀ e ∈ es, InPlace (packDataOffset es.length) payload e := by
  rw [mktfs, Option.bind_eq_some_iff] at h
  obtain ⟨p, hp, h⟩ := h
  obtain ⟨es, hes, hpacked, -, hall⟩ := packAll_spec hp
  have hlen : (collect t).length = es.length := by rw [← hes, List.length_map]
  simp only [hlen] at h hall
  split_ifs at h with hsmall
  obtain rfl := Option.some.inj h
  rw [List.nil_append] at hpacked
  refine ⟨es, _, p.payload, hes, by rw [hpacked], ?_, hsmall.1, hsmall.2, hall⟩
  have hfixed : headerSize = 32 ∧ entrySize = 296 := ⟨rfl, rfl⟩
  rw [List.length_replicate, List.length_append, length_packHeader, length_table, packDataOffset, align,
    hfixed.1, hfixed.2]
  omega

end Tnu.Tfs
