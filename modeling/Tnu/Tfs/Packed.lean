/-
**Mounting what was packed.**

The image that `tools/mktfs.py` makes of a directory is mounted by `tfs_mount_image`, after `vfs_init`.  The
parser finds the records and the files where the tool has put them; but the tool knows neither the length of
a name nor the depth of a path nor the number of nodes that the VFS takes, and a directory that `vfs_init` has
made is not made again.

Main results:

* `records_of_layout` — **the parser finds what was packed**;
* `yields_iff` — **the tree comes out exactly when it fits the VFS**.
-/

import Tnu.Tfs.Bounds
import Tnu.Tfs.Mktfs
import Tnu.Tfs.Remount
import Tnu.Tfs.Traceless

set_option autoImplicit false

namespace Tnu.Tfs

open Vfs

/-! ### What the parser finds -/

def Placed.record (e : Placed) : Record := ⟨e.entry.raw, e.item.text⟩

theorem recordsFrom_of_holds {f : ℕ → Byte} {a : ℕ} {es : List Placed}
    (hes : ∀ e ∈ es, e.item.Packs e.offset ∧ e.item.text.length < tfsPathMax ∧ 0 ∉ e.item.text ∧
      e.item.type < 2 ^ 32)
    (h : Bytes.Holds f a (es.flatMap fun e => encodeEntry e.entry)) :
    recordsFrom f es.length a = es.map Placed.record := by
  induction es generalizing a with
  | nil => rfl
  | cons e es ih =>
    obtain ⟨⟨hpacks, hshort, hnul, htype⟩, hrest⟩ := List.forall_mem_cons.1 hes
    rw [List.flatMap_cons, Bytes.holds_append, length_encodeEntry] at h
    have hmtime : e.item.mtime.toNat < 2 ^ 64 := by
      have := hpacks.2.2.2
      omega
    have hentry := readEntry_of_holds h.1 htype hpacks.1 hpacks.2.1 hmtime
    have hpath := readPath_of_holds h.1
    have htext : e.entry.path.chars = e.item.text :=
      CharBuf.strncpy_chars_of_le hnul (Nat.le_sub_one_of_lt hshort)
    rw [List.length_cons, recordsFrom, hentry, hpath, htext, ih hrest h.2, List.map_cons]
    rfl

/-- Where the image of a directory lies in memory, and what it was made from. -/
structure Laid (t : Listing) (mem : ℕ → Byte) (b : Block) (es : List Placed) : Prop where
  items : es.map Placed.item = collect t
  header : readHeader (fetch mem) b.addr =
    ⟨tfsMagic, tfsVersion, es.length, headerSize, packDataOffset es.length⟩
  table_le : headerSize + es.length * entrySize ≤ b.len
  records : imageRecords mem b.addr = es.map Placed.record
  files : ∀ e ∈ es, e.item.type = tfsEntryFile → e.offset + e.item.data.length ≤ b.len ∧
    Bytes.window (fetch mem) (b.addr + e.offset) e.item.data.length = e.item.data
  small : b.len < addressSpace
  short : ∀ e ∈ es, e.item.text.length < tfsPathMax

variable {t : Listing} {mem : ℕ → Byte} {b : Block} {es : List Placed} {image : List Byte}

/-- **The parser finds what was packed.** -/
theorem records_of_layout (ht : t.Wf) (h : mktfs t = some image) (mem : ℕ → Byte) (b : Block)
    (hlen : b.len = image.length) : ∃ es, Laid t (Bytes.overlay mem b.addr image) b es := by
  obtain ⟨es, zeros, payload, hitems, himage, hzeros, hcount, hdata, hplace⟩ := layout_of_mktfs h
  have hfits := b.fits
  have hpos := b.pos
  have hall : Bytes.Holds (fetch (Bytes.overlay mem b.addr image)) b.addr image :=
    holds_fetch (Bytes.holds_overlay _ _ _) (by rw [← hlen]; exact hfits)
  have hfixed : headerSize = 32 ∧ entrySize = 296 ∧ addressSpace = 2 ^ 64 := ⟨rfl, rfl, rfl⟩
  have hsize : b.len = packDataOffset es.length + payload.length := by
    rw [hlen, himage]
    simp only [List.length_append, length_packHeader, length_table]
    omega
  have hmem : ∀ e ∈ es, e.item ∈ collect t := fun e he => by
    rw [← hitems]
    exact List.mem_map_of_mem he
  rw [himage, Bytes.holds_append, Bytes.holds_append, Bytes.holds_append] at hall
  obtain ⟨⟨⟨hheader, htable⟩, -⟩, hpayload⟩ := hall
  simp only [List.length_append, length_packHeader, length_table] at htable hpayload
  have hread := readHeader_of_holds hheader (by norm_num) hcount (by norm_num) hdata
  rw [← himage] at hread htable hpayload
  refine ⟨es, hitems, hread, by omega, ?_, fun e he htype => ?_, by omega, fun e he => (hplace e he).short⟩
  · rw [imageRecords, hread]
    refine recordsFrom_of_holds (fun e he => ⟨(hplace e he).packs, (hplace e he).short, ?_, ?_⟩) htable
    · exact nul_free_pathString (hostName_of_collect ht (hmem e he))
    · rcases type_of_mem (mem_collect.1 (hmem e he)) with ⟨htype, -⟩ | htype <;>
        (rw [htype]; norm_num)
  · obtain ⟨pre, post, hsplit, hoffset⟩ := (hplace e he).file htype
    rw [hsplit, Bytes.holds_append, Bytes.holds_append] at hpayload
    have hin := congrArg List.length hsplit
    simp only [List.length_append] at hin
    refine ⟨by omega, ?_⟩
    have haddr : b.addr + e.offset = b.addr + (headerSize + es.length * entrySize + zeros.length) +
        pre.length := by omega
    rw [haddr]
    exact hpayload.1.2

/-! ### What a record keeps, and what it adds -/

section

variable {s : Pool} {src : Source} {r : Record} {rs : List Record} {cs : NamePath} {n : ℕ}

theorem lookOf_vfsMake (hs : Wf s) (type : NodeType) {path cwd : List Byte} (mode uid gid : UInt32)
    (hp : 0 ∉ path) (hc : 0 ∉ cwd) (hn : n < s.nodeCount) :
    lookOf ((vfsMake type s path cwd mode uid gid).1.nodes n) = lookOf (s.nodes n) := by
  rcases vfsMake_cases s type mode uid gid hp hc with
    ⟨rc, -, he⟩ | ⟨pc, x, parent, -, hw, -, -, -, he⟩
  · rw [he]
  · obtain ⟨c, hc', -⟩ := nodes_addLeaf_old (leafNode s x type mode uid gid)
      (hs.walk_lt pc hs.count_pos hw) hn
    rw [he, hc']
    rfl

/-- **A record keeps the nodes there are**: their kinds, and all that is seen of them, unless it is the
record of a file under their path. -/
theorem mountRecord_keeps (hs : Wf s) (src : Source) (hr : 0 ∉ r.path) (hw : walk s rootNode cs = some n) :
    ((mountRecord src s r).1.nodes n).type = (s.nodes n).type ∧
      (¬(r.IsFile ∧ resolve r.path [slash] = some cs) →
        lookOf ((mountRecord src s r).1.nodes n) = lookOf (s.nodes n)) := by
  have hn : n < s.nodeCount := hs.walk_lt cs hs.count_pos hw
  have hmake : ∀ (type : NodeType) (mode uid gid : UInt32),
      lookOf ((vfsMake type s r.path [slash] mode uid gid).1.nodes n) = lookOf (s.nodes n) :=
    fun type mode uid gid => lookOf_vfsMake hs type mode uid gid hr (by decide) hn
  rw [mountRecord]
  split_ifs with hd hf hex
  · have hlook := hmake .dir (vfsSIfdir ||| (r.entry.mode &&& permMask)) r.entry.uid r.entry.gid
    exact ⟨congrArg Look.kind hlook, fun _ => hlook⟩
  · exact ⟨rfl, fun _ => rfl⟩
  · have hlook := hmake .file (vfsSIfreg ||| (r.entry.mode &&& permMask)) r.entry.uid r.entry.gid
    have hwf : Wf (makeFile s r).1 := vfsMake_of_wf hs .file _ _ _ hr (by decide)
    have hwalk : walk (makeFile s r).1 rootNode cs = some n := walk_vfsMake hs .file _ _ _ hr (by decide) hw
    rw [fillFile_eq, vfsLookup_eq _ hr (by decide)]
    cases hres : resolve r.path [slash] with
    | none => exact ⟨congrArg Look.kind hlook, fun _ => hlook⟩
    | some ds =>
      rw [Option.bind_some]
      cases hm : walk (makeFile s r).1 rootNode ds with
      | none => exact ⟨congrArg Look.kind hlook, fun _ => hlook⟩
      | some m =>
        simp only
        by_cases hmn : n = m
        · subst hmn
          rw [Pool.nodes_modifyNode_self, type_put]
          refine ⟨congrArg Look.kind hlook, fun hother => ?_⟩
          exact absurd ⟨hf, by rw [hwf.walk_injective hm hwalk]⟩ hother
        · rw [Pool.nodes_modifyNode_of_ne _ _ hmn]
          exact ⟨congrArg Look.kind hlook, fun _ => hlook⟩
  · exact ⟨rfl, fun _ => rfl⟩

/-- **A record adds at most its own path.** -/
theorem walk_mountRecord_cases (hs : Wf s) (src : Source) (hr : 0 ∉ r.path)
    (hw : walk (mountRecord src s r).1 rootNode cs = some n) :
    walk s rootNode cs = some n ∨ resolve r.path [slash] = some cs := by
  obtain ⟨s₁, hs₁, hl⟩ := mountRecord_cases src s r
  rw [hl.walk_eq] at hw
  rcases hs₁ with rfl | ⟨type, mode, uid, gid, rfl⟩
  · exact .inl hw
  · rcases vfsMake_cases s type mode uid gid hr (show 0 ∉ [slash] by decide) with
      ⟨rc, -, he⟩ | ⟨pc, x, parent, hres, hpc, -, hnew, -, he⟩
    · rw [he] at hw
      exact .inl hw
    · have hx : ValidName x := (proper_of_resolve hr (by decide) hres).valid x (by simp)
      have hname := leafNode_name s hx type mode uid gid
      rw [he, walk_addLeaf hs hpc rfl (by rw [hname]; exact hnew), hname] at hw
      by_cases hcs : cs = pc ++ [x]
      · exact .inr (by rw [hres, hcs])
      · rw [if_neg hcs] at hw
        exact .inl hw

theorem wf_runRecords (hs : Wf s) (src : Source) (hrs : ∀ r ∈ rs, 0 ∉ r.path) :
    Wf (runRecords src rs s).1 := by
  induction rs generalizing s with
  | nil => exact hs
  | cons r rs ih =>
    obtain ⟨hr, hrest⟩ := List.forall_mem_cons.1 hrs
    rw [runRecords]
    split_ifs
    · exact ih (wf_mountRecord hs src hr) hrest
    · exact wf_mountRecord hs src hr

/-- **A run keeps the nodes there are**, like its records. -/
theorem runRecords_keeps (hs : Wf s) (src : Source) (hrs : ∀ r ∈ rs, 0 ∉ r.path) (hw : walk s rootNode cs = some n) :
    ((runRecords src rs s).1.nodes n).type = (s.nodes n).type ∧
      ((∀ r ∈ rs, ¬(r.IsFile ∧ resolve r.path [slash] = some cs)) →
        lookOf ((runRecords src rs s).1.nodes n) = lookOf (s.nodes n)) := by
  induction rs generalizing s with
  | nil => exact ⟨rfl, fun _ => rfl⟩
  | cons r rs ih =>
    obtain ⟨hr, hrest⟩ := List.forall_mem_cons.1 hrs
    obtain ⟨htype, hlook⟩ := mountRecord_keeps hs src hr hw
    rw [runRecords]
    split_ifs
    · obtain ⟨htype', hlook'⟩ := ih (wf_mountRecord hs src hr) hrest (walk_mountRecord hs src hr hw)
      exact ⟨htype'.trans htype, fun hother =>
        (hlook' fun r' hr' => hother r' (List.mem_cons_of_mem _ hr')).trans
          (hlook (hother r List.mem_cons_self))⟩
    · exact ⟨htype, fun hother => hlook (hother r List.mem_cons_self)⟩

/-- **A run adds at most the paths of its records.** -/
theorem walk_runRecords_cases (hs : Wf s) (hrs : ∀ r ∈ rs, 0 ∉ r.path)
    (hw : walk (runRecords src rs s).1 rootNode cs = some n) :
    walk s rootNode cs = some n ∨ ∃ r ∈ rs, resolve r.path [slash] = some cs := by
  induction rs generalizing s with
  | nil => exact .inl hw
  | cons r rs ih =>
    obtain ⟨hr, hrest⟩ := List.forall_mem_cons.1 hrs
    rw [runRecords] at hw
    have hone : walk (mountRecord src s r).1 rootNode cs = some n →
        walk s rootNode cs = some n ∨ ∃ r' ∈ r :: rs, resolve r'.path [slash] = some cs := fun hw =>
      (walk_mountRecord_cases hs src hr hw).imp_right fun hres => ⟨r, List.mem_cons_self, hres⟩
    split_ifs at hw
    · rcases ih (wf_mountRecord hs src hr) hrest hw with hw | ⟨r', hr', hres⟩
      · exact hone hw
      · exact .inr ⟨r', List.mem_cons_of_mem _ hr', hres⟩
    · exact hone hw

end

/-! ### Yielding the tree -/

def lookIn (items : List Item) (cs : NamePath) : Option Look :=
  (items.find? fun i => i.path = cs).map Item.look

/-- **The mount yields the tree**: it returns 0, and under every path there is what was packed, or else what
`vfs_init` has put there. -/
def Yields (t : Listing) (image : List Byte) (mem : ℕ → Byte) (b : Block) (T : TfsState) : Prop :=
  let m := (tfsMountImage (Bytes.overlay mem b.addr image) b.addr b.len vfsInit T).2
  m.ok = true ∧ ∀ cs, lookAt m.pool cs = (t.look cs).or (lookAt vfsInit cs)

/-- A path that `vfs_init` has not made. -/
def Item.New (i : Item) : Prop := lookAt vfsInit i.path = none

instance (i : Item) : Decidable i.New := inferInstanceAs (Decidable (_ = none))

/-- **The tree fits the VFS**: the names and the depths of its paths, the number of its nodes, and what it
has under the paths of `vfs_init`. -/
structure FitsKernel (t : Listing) : Prop where
  names : ∀ cs v, t.look cs = some v → (∀ c ∈ cs, c.length ≤ vfsNameMax) ∧ cs.length ≤ vfsMaxComponents
  nodes : vfsInit.nodeCount + ((collect t).filter fun i => i.New).length ≤ vfsMaxNodes
  defaults : ∀ cs v w, t.look cs = some v → lookAt vfsInit cs = some w → v = w

theorem lookIn_collect (ht : t.Wf) (cs : NamePath) : lookIn (collect t) cs = t.look cs := by
  rw [lookIn]
  cases hfind : (collect t).find? fun i => i.path = cs with
  | none =>
    rw [Option.map_none]
    cases hlook : t.look cs with
    | none => rfl
    | some v =>
      obtain ⟨i, hi, hpath, -⟩ := (look_eq_some_iff [] ht).1 hlook
      have := List.find?_eq_none.1 hfind i (mem_collect.2 hi)
      simp only [List.nil_append] at hpath
      exact absurd hpath (by simpa using this)
  | some i =>
    have hi := mem_collect.1 (List.mem_of_find?_eq_some hfind)
    have hpath : i.path = cs := by simpa using List.find?_some hfind
    exact ((look_eq_some_iff [] ht).2 ⟨i, hi, hpath, rfl⟩).symm

def packedSource (mem : ℕ → Byte) (b : Block) : Source :=
  memorySource mem (fun _ => true) b.addr b.len true

/-- **The mount goes through the records.** -/
theorem mount_of_laid (h : Laid t mem b es) (T : TfsState) :
    ((tfsMountImage mem b.addr b.len vfsInit T).2.pool, (tfsMountImage mem b.addr b.len vfsInit T).2.ok) =
      runRecords (packedSource mem b) (es.map Placed.record) vfsInit := by
  have hnot : ¬Refused mem b.addr b.len := by
    have hpos := b.pos
    have hsmall := h.small
    have htable := h.table_le
    rintro (hbad | hbad | hbad)
    · omega
    · omega
    · refine hbad ?_
      rw [h.header]
      have hend : (headerSize + es.length * entrySize) % addressSpace ≤ b.len :=
        (Nat.mod_le _ _).trans htable
      exact ⟨rfl, rfl, hend⟩
  rw [tfsMountImage, ← h.records]
  exact mountEntries_of_accepted _ _ _ hnot

theorem Laid.nul_free (h : Laid t mem b es) (ht : t.Wf) : ∀ r ∈ es.map Placed.record, 0 ∉ r.path := by
  intro r hr
  obtain ⟨e, he, rfl⟩ := List.mem_map.1 hr
  have hi : e.item ∈ collect t := by
    rw [← h.items]
    exact List.mem_map_of_mem he
  exact nul_free_pathString (hostName_of_collect ht hi)

/-! ### What the tree must be -/

theorem proper_of_walk_vfsInit {cs : NamePath} {n : ℕ} (hw : walk vfsInit rootNode cs = some n) :
    Proper cs := by
  have hvalid := wf_vfsInit.valid_of_walk hw
  by_cases hroot : n = rootNode
  · subst hroot
    obtain rfl : cs = [] := wf_vfsInit.walk_injective hw (walk_nil _ _)
    exact ⟨⟨by simp, by simp⟩, by simp⟩
  · have hlt : n < vfsInit.nodeCount := wf_vfsInit.walk_lt cs wf_vfsInit.count_pos hw
    obtain rfl := wf_vfsInit.walk_injective hw (vfsInit_first n hlt hroot).2
    have hname : (vfsInit.nodes n).name.chars.length ≤ 63 := (vfsInit.nodes n).name.length_le
    refine ⟨⟨hvalid, by simp⟩, ?_⟩
    rw [pathString_of_ne_nil (by simp)]
    have hmax : vfsPathMax = 256 := rfl
    simp
    omega

/-- **Every path of the tree after a mount is proper.** -/
theorem proper_of_walk_run {src : Source} {rs : List Record} (hrs : ∀ r ∈ rs, 0 ∉ r.path) {cs : NamePath}
    {n : ℕ} (hw : walk (runRecords src rs vfsInit).1 rootNode cs = some n) : Proper cs := by
  rcases walk_runRecords_cases wf_vfsInit hrs hw with hw | ⟨r, hr, hres⟩
  · exact proper_of_walk_vfsInit hw
  · exact proper_of_resolve (hrs r hr) (by decide) hres

theorem walk_of_lookAt {s : Pool} {cs : NamePath} {v : Look} (h : lookAt s cs = some v) :
    ∃ n, walk s rootNode cs = some n ∧ lookOf (s.nodes n) = v := by
  rw [lookAt, Option.map_eq_some_iff] at h
  exact h

theorem lookAt_of_walk {s : Pool} {cs : NamePath} {n : ℕ} (h : walk s rootNode cs = some n) :
    lookAt s cs = some (lookOf (s.nodes n)) := by
  rw [lookAt, h, Option.map_some]

theorem nodes_of_run (src : Source) {rs : List Record} (ht : t.Wf) (hrs : ∀ r ∈ rs, 0 ∉ r.path)
    (hall : ∀ i ∈ collect t, (walk (runRecords src rs vfsInit).1 rootNode i.path).isSome) :
    vfsInit.nodeCount + ((collect t).filter fun i => i.New).length ≤ vfsMaxNodes := by
  set s := (runRecords src rs vfsInit).1 with hs
  have hwf : Wf s := wf_runRecords wf_vfsInit src hrs
  set news := (collect t).filter fun i => i.New with hnews
  have hget : ∀ i ∈ news, ∃ n, walk s rootNode i.path = some n := fun i hi =>
    Option.isSome_iff_exists.1 (hall i (List.mem_filter.1 hi).1)
  have hnodup : (news.map fun i => (walk s rootNode i.path).getD 0).Nodup := by
    have hpaths : (news.map Item.path).Nodup :=
      (nodup_collect ht).sublist (List.filter_sublist.map _)
    have hmap : (news.map fun i => (walk s rootNode i.path).getD 0) =
        (news.map Item.path).map fun cs => (walk s rootNode cs).getD 0 := by rw [List.map_map]; rfl
    rw [hmap]
    refine hpaths.map_on fun cs hcs ds hds he => ?_
    obtain ⟨i, hi, rfl⟩ := List.mem_map.1 hcs
    obtain ⟨j, hj, rfl⟩ := List.mem_map.1 hds
    obtain ⟨n, hn⟩ := hget i hi
    obtain ⟨m, hm⟩ := hget j hj
    rw [hn, hm, Option.getD_some, Option.getD_some] at he
    subst he
    exact hwf.walk_injective hn hm
  have hrange : (news.map fun i => (walk s rootNode i.path).getD 0) ⊆
      List.range' vfsInit.nodeCount (s.nodeCount - vfsInit.nodeCount) := by
    intro n hn
    obtain ⟨i, hi, rfl⟩ := List.mem_map.1 hn
    obtain ⟨n, hn⟩ := hget i hi
    rw [hn, Option.getD_some]
    have hlt : n < s.nodeCount := hwf.walk_lt _ hwf.count_pos hn
    have hge : vfsInit.nodeCount ≤ n := by
      by_contra hold
      -- the node is one of `vfs_init`, and so is its path
      have hnew : i.New := by simpa using (List.mem_filter.1 hi).2
      have hpath : ∃ ds, walk vfsInit rootNode ds = some n := by
        by_cases hroot : n = rootNode
        · exact ⟨[], by rw [hroot, walk_nil]⟩
        · exact ⟨_, (vfsInit_first n (not_le.1 hold) hroot).2⟩
      obtain ⟨ds, hds⟩ := hpath
      have hkept : walk s rootNode ds = some n := walk_runRecords wf_vfsInit hrs hds
      rw [hwf.walk_injective hkept hn] at hds
      rw [Item.New, lookAt_of_walk hds] at hnew
      cases hnew
    rw [List.mem_range'_1]
    omega
  have hle := (List.subperm_of_subset hnodup hrange).length_le
  rw [List.length_map, List.length_range'] at hle
  have hmax := hwf.count_le
  have hinit : vfsInit.nodeCount ≤ vfsMaxNodes := wf_vfsInit.count_le
  by_cases hgrown : vfsInit.nodeCount ≤ s.nodeCount
  · omega
  · omega

/-- **A tree that comes out fits the VFS.** -/
theorem fitsKernel_of_yields (ht : t.Wf) (h : Laid t mem b es)
    (hall : ∀ cs, lookAt (runRecords (packedSource mem b) (es.map Placed.record) vfsInit).1 cs =
      (t.look cs).or (lookAt vfsInit cs)) : FitsKernel t := by
  set s := (runRecords (packedSource mem b) (es.map Placed.record) vfsInit).1 with hs
  have hrs := h.nul_free ht
  have hpacked : ∀ cs v, t.look cs = some v → ∃ n, walk s rootNode cs = some n ∧ lookOf (s.nodes n) = v :=
    fun cs v hv => walk_of_lookAt (by rw [hall cs, hv, Option.some_or])
  have hproper : ∀ cs v, t.look cs = some v → Proper cs := fun cs v hv => by
    obtain ⟨n, hn, -⟩ := hpacked cs v hv
    exact proper_of_walk_run hrs hn
  have hlook : ∀ i ∈ collect t, t.look i.path = some i.look := fun i hi =>
    (look_eq_some_iff [] ht).2 ⟨i, mem_collect.1 hi, rfl, rfl⟩
  refine ⟨fun cs v hv => ?_, ?_, fun cs v w hv hw => ?_⟩
  · exact ⟨fun c hc => ((hproper cs v hv).valid c hc).length_le, (hproper cs v hv).length_le⟩
  · refine nodes_of_run (packedSource mem b) ht hrs fun i hi => ?_
    obtain ⟨n, hn, -⟩ := hpacked _ _ (hlook i hi)
    rw [← hs, hn]
    rfl
  · obtain ⟨n, hn, rfl⟩ := walk_of_lookAt hw
    obtain ⟨m, hm, rfl⟩ := hpacked cs v hv
    have hkept : walk s rootNode cs = some n := walk_runRecords wf_vfsInit hrs hn
    obtain rfl := Option.some.inj (hm.symm.trans hkept)
    obtain ⟨htype, hkeep⟩ := runRecords_keeps wf_vfsInit (packedSource mem b) hrs hn
    refine hkeep fun r hr hfile => ?_
    -- the entry of a file would have made the directory a file
    obtain ⟨e, he, rfl⟩ := List.mem_map.1 hr
    have hi : e.item ∈ collect t := by
      rw [← h.items]
      exact List.mem_map_of_mem he
    have hpath : e.item.path = cs := by
      have hres := hfile.2
      rw [show e.record.path = pathString e.item.path from rfl,
        resolve_pathString (hproper _ _ (hlook _ hi))] at hres
      exact Option.some.inj hres
    have hsame := hlook _ hi
    have hisfile : e.item.type = tfsEntryFile := hfile.1.2
    rw [hpath, hv, Option.some_inj, Item.look, if_pos hisfile] at hsame
    have hkind := congrArg Look.kind hsame
    rw [show (lookOf (s.nodes m)).kind = (s.nodes m).type from rfl, hs, htype, all_dir_vfsInit] at hkind
    cases hkind

/-! ### One record after the other -/

/-- The pool after the first entries. -/
structure Mounting (done : List Item) (s : Pool) : Prop where
  wf : Wf s
  /-- Only new paths take a node. -/
  count : s.nodeCount ≤ vfsInit.nodeCount + (done.filter fun i => i.New).length
  /-- What was packed is there, and what `vfs_init` has made. -/
  shown : ∀ cs, lookAt s cs = (lookIn done cs).or (lookAt vfsInit cs)

theorem mounting_start : Mounting [] vfsInit where
  wf := wf_vfsInit
  count := le_rfl
  shown _ := rfl

/-- What the next entry needs. -/
structure Item.Next (i : Item) (done : List Item) : Prop where
  proper : Proper i.path
  ne_nil : i.path ≠ []
  type : (i.type = tfsEntryDir ∧ i.data = []) ∨ i.type = tfsEntryFile
  mode : i.mode &&& permMask = i.mode
  fresh : ∀ d ∈ done, d.path ≠ i.path
  parent : i.path.dropLast = [] ∨ ∃ d ∈ done, d.type = tfsEntryDir ∧ d.path = i.path.dropLast
  default : ∀ w, lookAt vfsInit i.path = some w → i.look = w
  room : i.New → vfsInit.nodeCount + (done.filter fun i => i.New).length < vfsMaxNodes

variable {done : List Item} {i : Item} {s : Pool} {e : Placed}

theorem lookIn_snoc (hfresh : ∀ d ∈ done, d.path ≠ i.path) (cs : NamePath) :
    lookIn (done ++ [i]) cs = if cs = i.path then some i.look else lookIn done cs := by
  rw [lookIn, lookIn, List.find?_append]
  split_ifs with hcs
  · subst hcs
    have hnone : (done.find? fun d => d.path = i.path) = none :=
      List.find?_eq_none.2 fun d hd => by simpa using hfresh d hd
    rw [hnone, Option.none_or, List.find?_cons_of_pos (by simp), Option.map_some]
  · have hlast : ([i].find? fun d => d.path = cs) = none := by
      rw [List.find?_cons_of_neg (by simpa using fun h : i.path = cs => hcs h.symm), List.find?_nil]
    rw [hlast, Option.or_none]

theorem Mounting.parent (h : Mounting done s) (hnext : i.Next done)
    (hnodup : (done.map Item.path).Nodup) :
    ∃ p, walk s rootNode i.path.dropLast = some p ∧ (s.nodes p).type = .dir := by
  rcases hnext.parent with hroot | ⟨d, hd, htype, hpath⟩
  · exact ⟨rootNode, by rw [hroot, walk_nil], h.wf.root_dir⟩
  · have hin : lookIn done i.path.dropLast = some d.look := by
      obtain ⟨l, l', rfl⟩ := List.append_of_mem hd
      rw [← hpath, lookIn, List.find?_append, List.find?_cons_of_pos (by simp)]
      have hnone : (l.find? fun j => j.path = d.path) = none := by
        refine List.find?_eq_none.2 fun j hj he => ?_
        rw [List.map_append, List.map_cons] at hnodup
        exact List.disjoint_of_nodup_append hnodup (List.mem_map_of_mem hj)
          (by rw [of_decide_eq_true he]; exact List.mem_cons_self)
      rw [hnone, Option.none_or, Option.map_some]
    have hshown := h.shown i.path.dropLast
    rw [hin, Option.some_or] at hshown
    obtain ⟨p, hp, hlook⟩ := walk_of_lookAt hshown
    refine ⟨p, hp, ?_⟩
    have hkind := congrArg Look.kind hlook
    rwa [Item.look, if_neg (by rw [htype]; norm_num)] at hkind

theorem lookOf_leafNode (s : Pool) (x : List Byte) (type : NodeType) (mode uid gid : UInt32) :
    lookOf (leafNode s x type mode uid gid) = ⟨type, mode, uid, gid, []⟩ := by
  simp only [lookOf, freshNode, VfsNode.bytes, Option.getD_none, List.take_nil, ite_self]

variable {x name : List Byte} {pc : NamePath}

theorem lookAt_addLeaf (hs : Wf s) {parent : ℕ} {node : VfsNode}
    (hpc : walk s rootNode pc = some parent) (hnew : findChild s parent x = none)
    (hname : node.name.chars = x) (hleaf : node.firstChild = none) (cs : NamePath) :
    lookAt (addLeaf s parent node) cs = if cs = pc ++ [x] then some (lookOf node) else lookAt s cs := by
  have hlt : parent < s.nodeCount := hs.walk_lt pc hs.count_pos hpc
  rw [lookAt, walk_addLeaf hs hpc hleaf (by rw [hname]; exact hnew), hname]
  split_ifs with hcs
  · rw [Option.map_some, nodes_addLeaf_new node hlt]
    rfl
  · rw [lookAt]
    cases hw : walk s rootNode cs with
    | none => rfl
    | some n =>
      obtain ⟨c, hc, -⟩ := nodes_addLeaf_old node hlt (hs.walk_lt cs hs.count_pos hw)
      rw [Option.map_some, Option.map_some, hc]
      rfl

theorem resolve_record (hproper : Proper e.item.path) :
    resolve e.record.path [slash] = some e.item.path := resolve_pathString hproper

theorem nul_free_record (hproper : Proper e.item.path) : 0 ∉ e.record.path :=
  zero_notMem_pathString hproper.valid

theorem named_record (hproper : Proper e.item.path) (hne : e.item.path ≠ []) : e.record.Named := by
  rintro (hnil | hroot)
  · have hhead := head?_pathString e.item.path
    rw [show pathString e.item.path = [] from hnil] at hhead
    cases hhead
  · exact hne ((pathString_eq_slash hproper.valid).1 hroot)

/-- The record makes one node more, and what was placed is seen there. -/
abbrev MakesNew (src : Source) (s : Pool) (e : Placed) (cs : NamePath) : Prop :=
  (mountRecord src s e.record).2 = true ∧ (mountRecord src s e.record).1.nodeCount = s.nodeCount + 1 ∧
    lookAt (mountRecord src s e.record).1 cs = if cs = e.item.path then some e.item.look else lookAt s cs

/-- **The record of a new directory.** -/
theorem mountRecord_newDir (src : Source) (hs : Wf s) (hnext : e.item.Next done)
    (htype : e.item.type = tfsEntryDir) {parent : ℕ}
    (hpath : e.item.path = pc ++ [x]) (hpc : walk s rootNode pc = some parent)
    (hdir : (s.nodes parent).type = .dir) (hnew : findChild s parent x = none)
    (hfull : s.nodeCount < vfsMaxNodes) (cs : NamePath) : MakesNew src s e cs := by
  have hproper := hnext.proper
  have hx : ValidName x := hproper.valid x (by rw [hpath]; simp)
  have hres : resolve e.record.path [slash] = some (pc ++ [x]) := by rw [resolve_record hproper, hpath]
  have hmake := vfsMake_of_new .dir (vfsSIfdir ||| (e.item.mode &&& permMask)) 0 0
    (nul_free_record hproper) (by decide) hres hpc hdir hnew hfull
  have hisdir : e.record.IsDir := ⟨named_record hproper hnext.ne_nil, htype⟩
  have hpool : (makeDir s e.record).1 =
      addLeaf s parent (leafNode s x .dir (vfsSIfdir ||| (e.item.mode &&& permMask)) 0 0) :=
    congrArg Prod.fst hmake
  have hlook : e.item.look = ⟨.dir, vfsSIfdir ||| e.item.mode, 0, 0, []⟩ := by
    rw [Item.look, if_neg (by rw [htype]; norm_num)]
  rw [MakesNew, mountRecord, if_pos hisdir, hpool]
  refine ⟨rfl, rfl, ?_⟩
  rw [lookAt_addLeaf hs hpc hnew (leafNode_name s hx _ _ _ _) rfl, lookOf_leafNode, hpath, hlook, hnext.mode]

/-- **The record of a new file.** -/
theorem mountRecord_newFile {src : Source} (hs : Wf s) (hnext : e.item.Next done)
    (htype : e.item.type = tfsEntryFile) (hborrowed : src.borrowed = true)
    (hfits : ¬exceedsImage src.size e.record.entry)
    (hcontents : src.contents e.record.entry = e.item.data) {parent : ℕ}
    (hpath : e.item.path = pc ++ [x]) (hpc : walk s rootNode pc = some parent)
    (hdir : (s.nodes parent).type = .dir) (hnew : findChild s parent x = none)
    (hfull : s.nodeCount < vfsMaxNodes) (cs : NamePath) : MakesNew src s e cs := by
  have hproper := hnext.proper
  have hx : ValidName x := hproper.valid x (by rw [hpath]; simp)
  have hres : resolve e.record.path [slash] = some (pc ++ [x]) := by rw [resolve_record hproper, hpath]
  have hmake := vfsMake_of_new .file (vfsSIfreg ||| (e.item.mode &&& permMask)) 0 0
    (nul_free_record hproper) (by decide) hres hpc hdir hnew hfull
  have hisfile : e.record.IsFile := ⟨named_record hproper hnext.ne_nil, htype⟩
  have hnotdir : ¬e.record.IsDir := fun hd => by
    have := hd.2.symm.trans hisfile.2
    exact absurd this (by norm_num)
  have hfed : ¬src.Starves e.record.entry := fun hstarve => by
    rw [hstarve.2.1] at hborrowed
    cases hborrowed
  set node := leafNode s x .file (vfsSIfreg ||| (e.item.mode &&& permMask)) 0 0 with hnode
  have hname : node.name.chars = x := leafNode_name s hx _ _ _ _
  have hpool : (makeFile s e.record).1 = addLeaf s parent node := congrArg Prod.fst hmake
  have hlt : parent < s.nodeCount := hs.walk_lt pc hs.count_pos hpc
  have hwalk : ∀ cs, walk (addLeaf s parent node) rootNode cs =
      if cs = pc ++ [x] then some s.nodeCount else walk s rootNode cs := fun cs => by
    rw [walk_addLeaf hs hpc rfl (by rw [hname]; exact hnew), hname]
  have hlookup : vfsLookup (addLeaf s parent node) e.record.path [slash] = some s.nodeCount := by
    rw [vfsLookup_eq _ (nul_free_record hproper) (by decide), hres, Option.bind_some, hwalk, if_pos rfl]
  have hturn : mountRecord src s e.record =
      ((addLeaf s parent node).modifyNode s.nodeCount (e.record.put src), true) := by
    rw [mountRecord, if_neg hnotdir, if_pos hisfile, if_neg hfits, fillFile_eq, hpool, hlookup]
    simp only [hfed, decide_false, Bool.not_false]
  rw [MakesNew, hturn]
  refine ⟨rfl, rfl, ?_⟩
  simp only
  have hlinks := sameLinks_put src (addLeaf s parent node) s.nodeCount e.record
  by_cases hcs : cs = e.item.path
  · rw [if_pos hcs, lookAt, hlinks.walk_eq, hwalk, if_pos (hcs.trans hpath), Option.map_some,
      Pool.nodes_modifyNode_self, lookOf_put hfed, nodes_addLeaf_new node hlt]
    have hsize : e.record.entry.size = e.item.data.length := if_pos htype
    have hmode : e.record.entry.mode = e.item.mode := rfl
    rw [Record.look, Item.look, if_pos htype, hmode, hnext.mode, hcontents, hsize, List.take_length]
    by_cases hempty : e.item.data.length = 0
    · rw [List.length_eq_zero_iff.1 hempty]
      rfl
    · rw [if_neg hempty]
      rfl
  · have hold := lookAt_addLeaf hs hpc hnew hname rfl cs
    rw [if_neg hcs, lookAt, hlinks.walk_eq]
    rw [if_neg (by rwa [hpath] at hcs)] at hold
    rw [← hold, lookAt]
    cases hw : walk (addLeaf s parent node) rootNode cs with
    | none => rfl
    | some n =>
      have hne : n ≠ s.nodeCount := by
        rintro rfl
        rw [hwalk, if_neg (by rwa [hpath] at hcs)] at hw
        exact absurd (hs.walk_lt cs hs.count_pos hw) (lt_irrefl _)
      rw [Option.map_some, Option.map_some, Pool.nodes_modifyNode_of_ne _ _ hne]

/-- What the source has of the file of an entry. -/
structure Source.Serves (src : Source) (e : Placed) : Prop where
  borrowed : src.borrowed = true
  fits : e.item.type = tfsEntryFile → ¬exceedsImage src.size e.record.entry
  contents : e.item.type = tfsEntryFile → src.contents e.record.entry = e.item.data

/-- **One record more.** -/
theorem Mounting.step {src : Source} (h : Mounting done s) (hserves : src.Serves e)
    (hnext : e.item.Next done) (hnodup : (done.map Item.path).Nodup) :
    (mountRecord src s e.record).2 = true ∧
      Mounting (done ++ [e.item]) (mountRecord src s e.record).1 := by
  obtain ⟨parent, hpc, hdir⟩ := h.parent hnext hnodup
  obtain ⟨pc, x, hpath⟩ := (List.eq_nil_or_concat' e.item.path).resolve_left hnext.ne_nil
  rw [hpath, List.dropLast_concat] at hpc
  have hnone : lookIn done e.item.path = none := by
    rw [lookIn, List.find?_eq_none.2 fun d hd => by simpa using hnext.fresh d hd, Option.map_none]
  have hshown := h.shown e.item.path
  rw [hnone, Option.none_or] at hshown
  have hchild : walk s rootNode e.item.path = findChild s parent x := by
    rw [hpath, walk_snoc, hpc, Option.bind_some]
  have hwf := wf_mountRecord h.wf src (nul_free_record hnext.proper)
  cases hf : findChild s parent x with
  | some m =>
    -- only `vfs_init` can have made it: it is a directory, and so is the entry
    rw [hf] at hchild
    rw [lookAt_of_walk hchild] at hshown
    have hlook := hnext.default _ hshown.symm
    obtain ⟨k, -, hk⟩ := walk_of_lookAt hshown.symm
    have hkind : e.item.look.kind = .dir := by
      rw [hlook, ← hk]
      exact all_dir_vfsInit k
    have htype : e.item.type = tfsEntryDir := by
      refine (hnext.type.resolve_right fun hfile => ?_).1
      rw [Item.look, if_pos hfile] at hkind
      cases hkind
    have hisdir : e.record.IsDir := ⟨named_record hnext.proper hnext.ne_nil, htype⟩
    have hres : resolve e.record.path [slash] = some (pc ++ [x]) := by
      rw [resolve_record hnext.proper, hpath]
    have hsame : (makeDir s e.record).1 = s := by
      rw [makeDir, vfsMkdir, vfsMake_of_exists .dir _ _ _ (nul_free_record hnext.proper) (by decide) hres
        hpc hdir hf]
    have hold : ¬e.item.New := by
      rw [Item.New, ← hshown]
      exact Option.some_ne_none _
    rw [mountRecord, if_pos hisdir, hsame]
    refine ⟨rfl, h.wf, ?_, fun cs => ?_⟩
    · rw [List.filter_append, List.filter_cons_of_neg (by simpa using hold), List.filter_nil,
        List.append_nil]
      exact h.count
    · rw [lookIn_snoc hnext.fresh, h.shown]
      split_ifs with hcs
      · rw [hcs, hnone, Option.none_or, Option.some_or, ← hshown, hlook]
      · rfl
  | none =>
    rw [hf] at hchild
    rw [lookAt, hchild, Option.map_none] at hshown
    have hnew : e.item.New := hshown.symm
    have hfull : s.nodeCount < vfsMaxNodes := h.count.trans_lt (hnext.room hnew)
    have hturn : ∀ cs, MakesNew src s e cs := fun cs => by
      rcases hnext.type with ⟨htype, -⟩ | htype
      · exact mountRecord_newDir src h.wf hnext htype hpath hpc hdir hf hfull cs
      · exact mountRecord_newFile h.wf hnext htype hserves.borrowed (hserves.fits htype)
          (hserves.contents htype) hpath hpc hdir hf hfull cs
    refine ⟨(hturn []).1, hwf, ?_, fun cs => ?_⟩
    · have hcount := h.count
      rw [(hturn []).2.1, List.filter_append, List.filter_cons_of_pos (by simpa using hnew),
        List.filter_nil, List.length_append, List.length_singleton]
      omega
    · rw [(hturn cs).2.2, lookIn_snoc hnext.fresh, h.shown]
      split_ifs with hcs
      · rw [Option.some_or]
      · rfl

/-- **All records.** -/
theorem Mounting.run {src : Source} (h : Mounting done s) (hserves : ∀ e ∈ es, src.Serves e)
    (hnext : ∀ l e l', es = l ++ e :: l' → e.item.Next (done ++ l.map Placed.item))
    (hnodup : ((done ++ es.map Placed.item).map Item.path).Nodup) :
    (runRecords src (es.map Placed.record) s).2 = true ∧
      Mounting (done ++ es.map Placed.item) (runRecords src (es.map Placed.record) s).1 := by
  induction es generalizing done s with
  | nil =>
    rw [List.map_nil, List.map_nil, List.append_nil]
    exact ⟨rfl, h⟩
  | cons e es ih =>
    obtain ⟨hserve, hrest⟩ := List.forall_mem_cons.1 hserves
    have hfirst : e.item.Next done := by simpa using hnext [] e es rfl
    have hsplit : done ++ (e :: es).map Placed.item = done ++ [e.item] ++ es.map Placed.item := by simp
    rw [hsplit] at hnodup ⊢
    have hdone : (done.map Item.path).Nodup := by
      rw [List.map_append, List.map_append, List.append_assoc] at hnodup
      exact hnodup.of_append_left
    obtain ⟨hgo, hmounting⟩ := h.step hserve hfirst hdone
    rw [List.map_cons, runRecords, if_pos hgo]
    refine ih hmounting hrest (fun l e' l' hes => ?_) hnodup
    have := hnext (e :: l) e' l' (by rw [hes, List.cons_append])
    simpa using this

theorem proper_of_hostNames {cs : NamePath} (hnames : ∀ c ∈ cs, HostName c)
    (hlen : ∀ c ∈ cs, c.length ≤ vfsNameMax) (hdepth : cs.length ≤ vfsMaxComponents)
    (hshort : (pathString cs).length < tfsPathMax) : Proper cs where
  valid c hc := ⟨(hnames c hc).ne_nil, hlen c hc, (hnames c hc).no_slash, (hnames c hc).no_nul,
    (hnames c hc).ne_dot, (hnames c hc).ne_dotdot⟩
  length_le := hdepth
  fits := hshort

theorem next_of_fits (ht : t.Wf) (hfit : FitsKernel t) {l l' : List Item} (hsplit : collect t = l ++ i :: l')
    (hshort : i.text.length < tfsPathMax) : i.Next l := by
  have hi : i ∈ collect t := by rw [hsplit]; simp
  have hmem := mem_collect.1 hi
  have hlook : t.look i.path = some i.look := (look_eq_some_iff [] ht).2 ⟨i, hmem, rfl, rfl⟩
  obtain ⟨hlen, hdepth⟩ := hfit.names _ _ hlook
  have hnodup := nodup_collect ht
  rw [hsplit, List.map_append, List.map_cons] at hnodup
  refine ⟨proper_of_hostNames (hostName_of_collect ht hi) hlen hdepth hshort, path_ne_nil hi,
    type_of_mem hmem, mode_of_mem hmem, fun d hd he => ?_, parent_collect ht hsplit,
    fun w hw => hfit.defaults _ _ _ hlook hw, fun hnew => ?_⟩
  · refine List.disjoint_of_nodup_append hnodup (List.mem_map_of_mem hd) ?_
    rw [he]
    exact List.mem_cons_self
  · have hcount := hfit.nodes
    rw [hsplit, List.filter_append, List.filter_cons_of_pos (by simpa using hnew), List.length_append,
      List.length_cons] at hcount
    omega

/-- **The image of a tree mounts to the tree** exactly when the tree fits the VFS: every name has at most 63
bytes and every path at most 32 names, there are nodes for the paths that `vfs_init` has not made, and what
is packed under the others is what `vfs_init` has made. -/
theorem yields_iff (ht : t.Wf) (hpack : mktfs t = some image) (mem : ℕ → Byte) (b : Block)
    (hlen : b.len = image.length) (T : TfsState) : Yields t image mem b T ↔ FitsKernel t := by
  obtain ⟨es, h⟩ := records_of_layout ht hpack mem b hlen
  obtain ⟨hpool, hok⟩ := Prod.mk.inj (mount_of_laid h T)
  rw [Yields, hpool, hok]
  constructor
  · exact fun hy => fitsKernel_of_yields ht h hy.2
  · intro hfit
    have hserves : ∀ e ∈ es, (packedSource (Bytes.overlay mem b.addr image) b).Serves e := fun e he => by
      refine ⟨rfl, fun htype hex => ?_, fun htype => ?_⟩
      · obtain ⟨hend, -⟩ := h.files e he htype
        have hsmall := h.small
        have hsize : e.record.entry.size = e.item.data.length := if_pos htype
        have hoffset : e.record.entry.offset = e.offset := rfl
        have hsum : b.len < (e.record.entry.offset + e.record.entry.size) % addressSpace := hex
        rw [hsize, hoffset, Nat.mod_eq_of_lt (by omega)] at hsum
        omega
      · have hsize : e.record.entry.size = e.item.data.length := if_pos htype
        change Bytes.window _ (b.addr + e.offset) e.record.entry.size = _
        rw [hsize]
        exact (h.files e he htype).2
    have hrun := mounting_start.run hserves (fun l e l' hes => ?_) ?_
    · rw [List.nil_append, h.items] at hrun
      refine ⟨hrun.1, fun cs => ?_⟩
      rw [hrun.2.shown, lookIn_collect ht]
    · have hsplit : collect t = l.map Placed.item ++ e.item :: l'.map Placed.item := by
        rw [← h.items, hes, List.map_append, List.map_cons]
      exact next_of_fits ht hfit hsplit (h.short e (by rw [hes]; simp))
    · rw [List.nil_append, h.items]
      exact nodup_collect ht

/-! ### One file -/

def oneFile (name : List Byte) : Listing := .file name ⟨0o644, 0⟩ [65] .nil

def oneItem (name : List Byte) : Item := fileItem [name] ⟨0o644, 0⟩ [65]

def oneImage (name : List Byte) : List Byte :=
  packHeader 1 (packDataOffset 1) ++ encodeEntry ((oneItem name).entry (packDataOffset 1)) ++ padPayload [65]

theorem length_oneImage (name : List Byte) : (oneImage name).length = 336 := by
  have hpad : (padPayload [65]).length = 8 := rfl
  rw [oneImage, List.length_append, List.length_append, length_packHeader, length_encodeEntry, hpad]
  rfl

theorem collect_oneFile (hkeep : name ≠ keepName) :
    collect (oneFile name) = [oneItem name] := by
  rw [collect, oneFile, collectItems, collectItems, if_neg hkeep, List.append_nil, List.nil_append,
    List.mergeSort_singleton]
  rfl

theorem mktfs_oneFile (hkeep : name ≠ keepName) (hutf : (oneItem name).Encodes)
    (hshort : (oneItem name).text.length < tfsPathMax) : mktfs (oneFile name) = some (oneImage name) := by
  have hoffset : Packing.offset ⟨[], []⟩ (packDataOffset 1) (oneItem name) = packDataOffset 1 := rfl
  have hpacks : (oneItem name).Packs (packDataOffset 1) :=
    ⟨show 1 < 2 ^ 64 by norm_num, show 328 < 2 ^ 64 by norm_num, le_rfl, show (0 : ℤ) < 2 ^ 64 by norm_num⟩
  have hturn : packItem (packDataOffset 1) ⟨[], []⟩ (oneItem name) =
      some ⟨padPayload [65], encodeEntry ((oneItem name).entry (packDataOffset 1))⟩ := by
    rw [packItem, if_neg (not_not.2 hutf), if_neg (not_le.2 hshort), hoffset, if_pos hpacks]
    rfl
  rw [mktfs]
  simp only [collect_oneFile hkeep, List.length_singleton, List.foldlM_cons, List.foldlM_nil, hturn]
  rw [Option.bind_eq_bind, Option.bind_some, Option.pure_def, Option.bind_some,
    if_pos ⟨by norm_num, show 328 < 2 ^ 64 by norm_num⟩]
  simp only [List.length_append, length_packHeader, length_encodeEntry]
  rw [show packDataOffset 1 - (headerSize + entrySize) = 0 from rfl, List.replicate_zero, List.append_nil]
  rfl

def oneBlock (name : List Byte) : Block where
  addr := 4096
  len := (oneImage name).length
  pos := Nat.succ_pos _
  fits := by rw [length_oneImage]; norm_num

/-- A file with a short name comes out. -/
theorem yields_oneFile :
    Yields (oneFile (lit "a")) (oneImage (lit "a")) (fun _ => 0) (oneBlock (lit "a")) TfsState.boot := by
  have hkeep : lit "a" ≠ keepName := by decide
  have hlook : ∀ cs v, (oneFile (lit "a")).look cs = some v → cs = [lit "a"] := fun cs v hv => by
    rw [oneFile, Listing.look] at hv
    split_ifs at hv with hcs
    · exact hcs
    · cases hv
  have hname : HostName (lit "a") := ⟨by decide, by decide, by decide, by decide, by decide⟩
  have hwf : (oneFile (lit "a")).Wf := ⟨hname, List.not_mem_nil, trivial⟩
  refine (yields_iff hwf
    (mktfs_oneFile hkeep ⟨['/', 'a'], rfl⟩ (by decide)) _ _ rfl _).2 ⟨fun cs v hv => ?_, ?_,
      fun cs v w hv hw => ?_⟩
  · rw [hlook cs v hv]
    decide
  · rw [collect_oneFile hkeep]
    decide
  · rw [hlook cs v hv] at hw
    have hnone : lookAt vfsInit [lit "a"] = none := by decide
    rw [hnone] at hw
    cases hw

def longName : List Byte := List.replicate 64 97

/-- **A file with a name of 64 bytes is packed**, and does not come out under it. -/
theorem not_yields : (oneFile longName).Wf ∧ mktfs (oneFile longName) = some (oneImage longName) ∧
    ¬Yields (oneFile longName) (oneImage longName) (fun _ => 0) (oneBlock longName) TfsState.boot := by
  have hkeep : longName ≠ keepName := by decide
  have hname : HostName longName := ⟨by decide, by decide, by decide, by decide, by decide⟩
  have hwf : (oneFile longName).Wf := ⟨hname, List.not_mem_nil, trivial⟩
  have hpack : mktfs (oneFile longName) = some (oneImage longName) :=
    mktfs_oneFile hkeep ⟨'/' :: List.replicate 64 'a', rfl⟩ (by decide)
  refine ⟨hwf, hpack, fun hy => ?_⟩
  obtain ⟨es, h⟩ := records_of_layout hwf hpack (fun _ => 0) (oneBlock longName) rfl
  have hall := hy.2
  rw [(Prod.mk.inj (mount_of_laid h TfsState.boot)).1] at hall
  have hlook : (oneFile longName).look [longName] = some (packedFile ⟨0o644, 0⟩ [65]) := by
    rw [oneFile, Listing.look, if_pos rfl, if_neg hkeep]
  have hlen := ((fitsKernel_of_yields hwf h hall).names _ _ hlook).1 longName List.mem_cons_self
  rw [longName, List.length_replicate] at hlen
  exact absurd hlen (by norm_num)

end Tnu.Tfs
