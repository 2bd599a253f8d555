/-
**Mounts that fail.**

`tfs_mount_image` and `tfs_mount_disk` of `kernel/fs/tfs.c` apply the records of an image to the tree one by
one, and return an error from the middle of the table: what came before the bad record stays.  Both turn
persistence off before they look at the table.

Main definitions:

* `Source.applied`, `Source.stopper` — the records in front of the one that ends the loop,
  and that record;
* `tfsMountInstalledRoot` — the disks are tried one after the other.

Main results:

* `sameTree_iff` — **a loop that fails leaves the tree as it was exactly when the table was idle**;
* `noTrace_iff` — when a mount that fails leaves no trace, and what follows for the search for a
  root disk.
-/

import Tnu.Tfs.Gpt
import Tnu.Tfs.Records

set_option autoImplicit false

namespace Tnu.Tfs

open Vfs

variable {src : Source} {s t : Pool} {r : Record} {rs : List Record}

/-! ### Where the loop ends -/

def Source.applied (src : Source) (s : Pool) (rs : List Record) : List Record :=
  rs.takeWhile fun r => ¬src.Stops s r

def Source.stopper (src : Source) (s : Pool) (rs : List Record) : Option Record :=
  (rs.dropWhile fun r => ¬src.Stops s r).head?

/-- The data of a node, when the loop comes to its end: the last that was copied, or what it had. -/
def Source.dataThen (src : Source) (s : Pool) (rs : List Record) (n : ℕ) : Option (List Byte) :=
  ((src.writers s (src.applied s rs) n).filter fun r => r.entry.size ≠ 0).getLast?.elim
    (s.nodes n).data fun r => some (src.contents r.entry)

/-- **The table is idle**: up to the record that stops, no path is made, and the last record for a node
says what the node says. -/
structure Idle (src : Source) (s : Pool) (rs : List Record) : Prop where
  makes : ∀ r ∈ src.applied s rs, ¬r.Makes s
  written : ∀ n r, (src.writers s (src.applied s rs) n).getLast? = some r →
    (src.stopper s rs).bind (src.writes s) ≠ some n →
      r.look src (s.nodes n).type = lookOf (s.nodes n)
  starved : ∀ n r, src.stopper s rs = some r → src.writes s r = some n →
    r.lookStarved (s.nodes n).type (src.dataThen s rs n) = lookOf (s.nodes n)

/-! ### Steps keep what they find -/

theorem sameLinks_fillFile (src : Source) (s : Pool) (r : Record) : SameLinks s (fillFile src s r).1 := by
  rw [fillFile]
  split
  · exact .refl _
  · next n _ =>
    have hnode := sameLinks_setFileNode s n r.entry
    simp only
    split_ifs
    · exact hnode
    · exact hnode
    · exact hnode.trans (sameLinks_setFileData _ _ _ _)

theorem mountRecord_cases (src : Source) (s : Pool) (r : Record) :
    ∃ s₁, (s₁ = s ∨ ∃ type mode uid gid, s₁ = (vfsMake type s r.path [slash] mode uid gid).1) ∧
      SameLinks s₁ (mountRecord src s r).1 := by
  rw [mountRecord]
  split_ifs
  · exact ⟨_, .inr ⟨.dir, _, _, _, rfl⟩, .refl _⟩
  · exact ⟨s, .inl rfl, .refl s⟩
  · exact ⟨(makeFile s r).1, .inr ⟨.file, _, _, _, rfl⟩, sameLinks_fillFile src _ r⟩
  · exact ⟨s, .inl rfl, .refl s⟩

theorem wf_mountRecord (hs : Wf s) (src : Source) (hr : 0 ∉ r.path) : Wf (mountRecord src s r).1 := by
  obtain ⟨s₁, hs₁, hl⟩ := mountRecord_cases src s r
  rcases hs₁ with rfl | ⟨type, mode, uid, gid, rfl⟩
  · exact hl.wf hs
  · exact hl.wf (vfsMake_of_wf hs type mode uid gid hr (by decide))

theorem walk_mountRecord (hs : Wf s) (src : Source) (hr : 0 ∉ r.path) {cs : NamePath} {n : ℕ}
    (hw : walk s rootNode cs = some n) : walk (mountRecord src s r).1 rootNode cs = some n := by
  obtain ⟨s₁, hs₁, hl⟩ := mountRecord_cases src s r
  rw [hl.walk_eq]
  rcases hs₁ with rfl | ⟨type, mode, uid, gid, rfl⟩
  · exact hw
  · exact walk_vfsMake hs type mode uid gid hr (by decide) hw

/-- **A run keeps the paths it finds.** -/
theorem walk_runRecords (hs : Wf s) (hrs : ∀ r ∈ rs, 0 ∉ r.path) {cs : NamePath} {n : ℕ}
    (hw : walk s rootNode cs = some n) : walk (runRecords src rs s).1 rootNode cs = some n := by
  induction rs generalizing s with
  | nil => exact hw
  | cons r rs ih =>
    obtain ⟨hr, hrest⟩ := List.forall_mem_cons.1 hrs
    have hstep := walk_mountRecord hs src hr hw
    rw [runRecords]
    split_ifs
    · exact ih (wf_mountRecord hs src hr) hrest hstep
    · exact hstep

theorem runRecords_of_exceeds (s : Pool) (h : ∃ r ∈ rs, r.IsFile ∧ exceedsImage src.size r.entry) :
    (runRecords src rs s).2 = false := by
  induction rs generalizing s with
  | nil =>
    obtain ⟨r, hr, -⟩ := h
    cases hr
  | cons r rs ih =>
    rw [runRecords]
    split_ifs with hok
    · refine ih _ ?_
      obtain ⟨r', hr', hf, hex⟩ := h
      rcases List.mem_cons.1 hr' with rfl | hr'
      · have hnd : ¬r'.IsDir := fun hd => by
          have := hd.2.symm.trans hf.2
          exact absurd this (by norm_num)
        rw [mountRecord, if_neg hnd, if_pos hf, if_pos hex] at hok
        cases hok
      · exact ⟨r', hr', hf, hex⟩
    · simpa using hok

/-! ### Records that make something -/

theorem path_of_makes (hs : Wf t) (hl : SameLinks s t) (hr : 0 ∉ r.path) (hm : r.Makes s)
    (hstop : ¬src.Stops s r) :
    ∃ cs, walk s rootNode cs = none ∧ (walk (mountRecord src t r).1 rootNode cs).isSome := by
  have hmade : ∀ (type : NodeType) (mode uid gid : UInt32),
      (vfsMake type s r.path [slash] mode uid gid).2 = 0 →
        ∃ cs, walk s rootNode cs = none ∧
          (walk (vfsMake type t r.path [slash] mode uid gid).1 rootNode cs).isSome := by
    intro type mode uid gid hrc
    rw [← vfsMake_rc_eq hl] at hrc
    rcases vfsMake_cases t type mode uid gid hr (show 0 ∉ [slash] by decide) with
      ⟨rc, hneg, he⟩ | ⟨pc, x, parent, hres, hpc, -, hnew, -, he⟩
    · rw [he] at hrc
      exact absurd hrc hneg.ne
    · have hx : ValidName x := (proper_of_resolve hr (by decide) hres).valid x (by simp)
      have hname := leafNode_name t hx type mode uid gid
      refine ⟨pc ++ [x], ?_, ?_⟩
      · rw [← hl.walk_eq, walk_snoc, hpc, Option.bind_some, hnew]
      · rw [he, walk_addLeaf hs hpc rfl (by rw [hname]; exact hnew), hname, if_pos rfl]
        rfl
  rw [mountRecord]
  rcases hm with ⟨hd, hrc⟩ | ⟨hf, hrc⟩
  · rw [if_pos hd]
    exact hmade _ _ _ _ hrc
  · have hnd : ¬r.IsDir := fun hd => by
      have := hd.2.symm.trans hf.2
      exact absurd this (by norm_num)
    have hex : ¬exceedsImage src.size r.entry := fun hex => hstop ⟨hf, .inl hex⟩
    rw [if_neg hnd, if_pos hf, if_neg hex]
    obtain ⟨cs, hnone, hsome⟩ := hmade _ _ _ _ hrc
    refine ⟨cs, hnone, ?_⟩
    rw [(sameLinks_fillFile src _ r).walk_eq]
    exact hsome

/-- **A run that makes something before it stops** leaves a path that was not there. -/
theorem path_of_run (hs : Wf s) (hl : SameLinks s t) (hrs : ∀ r ∈ rs, 0 ∉ r.path)
    (hm : ∃ r ∈ src.applied s rs, r.Makes s) :
    ∃ cs, walk s rootNode cs = none ∧ (walk (runRecords src rs t).1 rootNode cs).isSome := by
  induction rs generalizing t with
  | nil =>
    obtain ⟨r, hr, -⟩ := hm
    cases hr
  | cons r rs ih =>
    obtain ⟨hr, hrest⟩ := List.forall_mem_cons.1 hrs
    by_cases hstop : src.Stops s r
    · rw [Source.applied, List.takeWhile_cons_of_neg (by simpa using hstop)] at hm
      obtain ⟨r', hr', -⟩ := hm
      cases hr'
    · rw [Source.applied, List.takeWhile_cons_of_pos (by simpa using hstop)] at hm
      by_cases hmake : r.Makes s
      · obtain ⟨cs, hnone, hsome⟩ := path_of_makes (hl.wf hs) hl hr hmake hstop
        refine ⟨cs, hnone, ?_⟩
        obtain ⟨n, hn⟩ := Option.isSome_iff_exists.1 hsome
        rw [runRecords]
        split_ifs
        · rw [walk_runRecords (wf_mountRecord (hl.wf hs) src hr) hrest hn]
          rfl
        · exact hsome
      · have hlater : ∃ r ∈ src.applied s rs, r.Makes s := by
          obtain ⟨r', hr', hmk⟩ := hm
          rcases List.mem_cons.1 hr' with rfl | hr'
          · exact absurd hmk hmake
          · exact ⟨r', hr', hmk⟩
        rw [runRecords, mountRecord_quiet hl hmake, decide_eq_false hstop]
        simp only [Bool.not_false, if_true]
        cases src.writes s r with
        | none => exact ih hl hrest hlater
        | some n => exact ih (hl.trans (sameLinks_put src t n r)) hrest hlater

/-! ### The end of the loop -/

theorem mountRecord_of_stops (hl : SameLinks s t) (hr : 0 ∉ r.path) (hstop : src.Stops s r) :
    mountRecord src t r =
      ((match src.writes s r with | none => t | some n => t.modifyNode n (r.put src)), false) := by
  by_cases hex : exceedsImage src.size r.entry
  · have hnd : ¬r.IsDir := fun hd => by
      have := hd.2.symm.trans hstop.1.2
      exact absurd this (by norm_num)
    rw [mountRecord, if_neg hnd, if_pos hstop.1, if_pos hex, Source.writes, if_pos hex]
  · obtain ⟨hsome, -⟩ := hstop.2.resolve_left hex
    have hmake : ¬r.Makes s := by
      rintro (⟨hd, -⟩ | ⟨-, hrc⟩)
      · have := hd.2.symm.trans hstop.1.2
        exact absurd this (by norm_num)
      · rcases vfsMake_cases s .file (vfsSIfreg ||| (r.entry.mode &&& permMask)) r.entry.uid r.entry.gid
          hr (show 0 ∉ [slash] by decide) with ⟨rc, hneg, he⟩ | ⟨pc, x, parent, hres, hpc, -, hnew, -, -⟩
        · rw [makeFile, vfsCreateFile, he] at hrc
          exact absurd hrc hneg.ne
        · rw [Record.target, if_pos hstop.1, vfsLookup_eq s hr (by decide), hres, Option.bind_some,
            walk_snoc, hpc, Option.bind_some, hnew] at hsome
          cases hsome
    rw [mountRecord_quiet hl hmake, decide_eq_true hstop]
    rfl

/-- Where a run that makes nothing up to its end ends. -/
structure Ended (src : Source) (s : Pool) (rs : List Record) (t : Pool) : Prop where
  links : SameLinks s t
  written : ∀ n, (src.stopper s rs).bind (src.writes s) ≠ some n → lookOf (t.nodes n) =
    (src.writers s (src.applied s rs) n).getLast?.elim (lookOf (s.nodes n)) fun r =>
      r.look src (s.nodes n).type
  starved : ∀ n r, src.stopper s rs = some r → src.writes s r = some n →
    lookOf (t.nodes n) = r.lookStarved (s.nodes n).type (src.dataThen s rs n)

theorem mem_applied (h : r ∈ src.applied s rs) : r ∈ rs ∧ ¬src.Stops s r := by
  refine ⟨(List.takeWhile_sublist _).subset h, ?_⟩
  simpa using List.mem_takeWhile_imp h

theorem not_starves_of_writer {n : ℕ} (h : r ∈ src.writers s (src.applied s rs) n) :
    ¬src.Starves r.entry := by
  obtain ⟨hr, hw⟩ := List.mem_filter.1 h
  have hw' : src.writes s r = some n := by simpa using hw
  rw [Source.writes] at hw'
  split_ifs at hw' with hex
  intro hstarve
  have hf : r.IsFile := by
    by_contra hnf
    rw [Record.target, if_neg hnf] at hw'
    cases hw'
  exact (mem_applied hr).2 ⟨hf, .inr ⟨by rw [hw']; rfl, hstarve⟩⟩

theorem data_put (src : Source) (r : Record) (node : VfsNode) (hs : ¬src.Starves r.entry) :
    (r.put src node).data = if r.entry.size = 0 then node.data else some (src.contents r.entry) := by
  simp only [Record.put, hs, or_false]
  split <;> rfl

theorem data_foldl_put {node : VfsNode} (hrs : ∀ r ∈ rs, ¬src.Starves r.entry) :
    (rs.foldl (fun node r => r.put src node) node).data =
      (rs.filter fun r => r.entry.size ≠ 0).getLast?.elim node.data fun r =>
        some (src.contents r.entry) := by
  induction rs using List.reverseRecOn with
  | nil => rfl
  | append_singleton rs r ih =>
    rw [List.foldl_append, List.foldl_cons, List.foldl_nil, data_put src r _ (hrs r (by simp)),
      List.filter_append]
    by_cases hzero : r.entry.size = 0
    · rw [if_pos hzero, ih fun r' hr' => hrs r' (by simp [hr']), List.filter_cons_of_neg (by simp [hzero]),
        List.filter_nil, List.append_nil]
    · rw [if_neg hzero, List.filter_cons_of_pos (by simp [hzero]), List.filter_nil, List.getLast?_concat,
        Option.elim_some]

/-- **A run that fails without making anything** ends as its records say. -/
theorem ended_of_fails (hrs : ∀ r ∈ rs, 0 ∉ r.path) (hm : ∀ r ∈ src.applied s rs, ¬r.Makes s)
    (hfail : (runRecords src rs s).2 = false) : Ended src s rs (runRecords src rs s).1 := by
  have hquiet : ∀ r ∈ src.applied s rs, ¬src.Stops s r ∧ ¬r.Makes s := fun r hr =>
    ⟨(mem_applied hr).2, hm r hr⟩
  obtain ⟨hok, hl, hnodes⟩ := runRecords_quiet (SameLinks.refl s) hquiet
  have hsplit : rs = src.applied s rs ++ rs.dropWhile fun r => ¬src.Stops s r :=
    (List.takeWhile_append_dropWhile).symm
  have hrun : runRecords src rs s =
      runRecords src (rs.dropWhile fun r => ¬src.Stops s r) (runRecords src (src.applied s rs) s).1 := by
    conv_lhs => rw [hsplit]
    rw [runRecords_append, if_pos hok]
  have hlook : ∀ n, lookOf ((runRecords src (src.applied s rs) s).1.nodes n) =
      (src.writers s (src.applied s rs) n).getLast?.elim (lookOf (s.nodes n)) fun r =>
        r.look src (s.nodes n).type := fun n => by
    rw [hnodes n, lookOf_foldl_put fun r hr => not_starves_of_writer hr]
  cases hrest : rs.dropWhile fun r => ¬src.Stops s r with
  | nil =>
    rw [hrun, hrest, runRecords] at hfail
    cases hfail
  | cons r rest =>
    have hstopper : src.stopper s rs = some r := by rw [Source.stopper, hrest]; rfl
    have hstop : src.Stops s r := by
      have hhead := List.head_dropWhile_not (l := rs) (fun r => decide ¬src.Stops s r)
        (by rw [hrest]; simp)
      simp only [hrest, List.head_cons] at hhead
      simpa using hhead
    have hr : 0 ∉ r.path := hrs r (by rw [hsplit, hrest]; simp)
    have hend : (runRecords src rs s).1 = match src.writes s r with
        | none => (runRecords src (src.applied s rs) s).1
        | some n => (runRecords src (src.applied s rs) s).1.modifyNode n (r.put src) := by
      rw [hrun, hrest, runRecords, mountRecord_of_stops hl hr hstop]
      rfl
    rw [hend]
    cases hw : src.writes s r with
    | none =>
      refine ⟨hl, fun n _ => hlook n, fun n r' hr' hn => ?_⟩
      obtain rfl := Option.some.inj (hstopper.symm.trans hr')
      rw [hw] at hn
      cases hn
    | some m =>
      refine ⟨hl.trans (sameLinks_put src _ m r), fun n hn => ?_, fun n r' hr' hn => ?_⟩
      · have hne : n ≠ m := by
          rintro rfl
          exact hn (by rw [hstopper, Option.bind_some, hw])
        simp only [Pool.nodes_modifyNode_of_ne _ _ hne]
        exact hlook n
      · obtain rfl := Option.some.inj (hstopper.symm.trans hr')
        obtain rfl : m = n := by
          rw [hw] at hn
          exact Option.some.inj hn
        have hstarve : src.Starves r.entry := by
          rw [Source.writes] at hw
          split_ifs at hw with hex
          exact (hstop.2.resolve_left hex).2
        simp only [Pool.nodes_modifyNode_self]
        rw [lookOf_put_of_starves hstarve, hnodes m, type_foldl_put,
          data_foldl_put fun r hr => not_starves_of_writer hr]
        rfl

/-! ### The loop -/

theorem walk_of_writes (hr : 0 ∉ r.path) {n : ℕ} (hw : src.writes s r = some n) :
    ∃ cs, walk s rootNode cs = some n := by
  rw [Source.writes, Record.target] at hw
  split_ifs at hw
  rw [vfsLookup_eq s hr (by decide), Option.bind_eq_some_iff] at hw
  obtain ⟨cs, -, hcs⟩ := hw
  exact ⟨cs, hcs⟩

theorem alike_of_idle (hrs : ∀ r ∈ rs, 0 ∉ r.path) (hfail : (runRecords src rs s).2 = false)
    (hidle : Idle src s rs) : Alike s (runRecords src rs s).1 := by
  have hend := ended_of_fails hrs hidle.makes hfail
  refine ⟨hend.links, fun n => ?_⟩
  by_cases hn : (src.stopper s rs).bind (src.writes s) = some n
  · obtain ⟨r, hr, hw⟩ := Option.bind_eq_some_iff.1 hn
    exact (hend.starved n r hr hw).trans (hidle.starved n r hr hw)
  · rw [hend.written n hn]
    cases hlast : (src.writers s (src.applied s rs) n).getLast? with
    | none => rfl
    | some r => exact hidle.written n r hlast hn

/-- **A loop that fails leaves the tree as it was exactly when the table was idle.** -/
theorem sameTree_iff (hs : Wf s) (hrs : ∀ r ∈ rs, 0 ∉ r.path)
    (hfail : (runRecords src rs s).2 = false) :
    SameTree s (runRecords src rs s).1 ↔ Idle src s rs := by
  refine ⟨fun hsame => ?_, fun hidle => (alike_of_idle hrs hfail hidle).sameTree⟩
  have hmakes : ∀ r ∈ src.applied s rs, ¬r.Makes s := by
    intro r hr hm
    obtain ⟨cs, hnone, hsome⟩ := path_of_run hs (SameLinks.refl s) hrs ⟨r, hr, hm⟩
    obtain ⟨n, hn⟩ := Option.isSome_iff_exists.1 hsome
    have hcs := hsame cs
    rw [lookAt, lookAt, hnone, hn] at hcs
    cases hcs
  have hend := ended_of_fails hrs hmakes hfail
  refine ⟨hmakes, fun n r hlast hn => ?_, fun n r hr hw => ?_⟩
  · obtain ⟨hr, hw⟩ := List.mem_filter.1 (List.mem_of_getLast? hlast)
    obtain ⟨cs, hcs⟩ := walk_of_writes (hrs r (mem_applied hr).1) (by simpa using hw)
    have hlook := hend.written n hn
    rw [hlast, Option.elim_some, hsame.look hend.links hcs] at hlook
    exact hlook.symm
  · have hmem : r ∈ rs := by
      rw [Source.stopper] at hr
      exact (List.dropWhile_sublist _).subset (List.mem_of_mem_head? hr)
    obtain ⟨cs, hcs⟩ := walk_of_writes (hrs r hmem) hw
    rw [← hend.starved n r hr hw, hsame.look hend.links hcs]

/-! ### The parser -/

def Refused (mem : ℕ → Byte) (image size : ℕ) : Prop :=
  image = 0 ∨ size < headerSize ∨ ¬headerAccepted size (readHeader (fetch mem) image)

def imageRecords (mem : ℕ → Byte) (image : ℕ) : List Record :=
  let h := readHeader (fetch mem) image
  recordsFrom (fetch mem) h.entryCount (image + h.entriesOffset)

def IdleImage (mem : ℕ → Byte) (kmalloc : ℕ → Bool) (image size : ℕ) (borrowed : Bool) (s : Pool) :
    Prop :=
  Refused mem image size ∨
    Idle (memorySource mem kmalloc image size borrowed) s (imageRecords mem image)

theorem nul_free_recordsFrom (f : ℕ → Byte) (n a : ℕ) : ∀ r ∈ recordsFrom f n a, 0 ∉ r.path := by
  induction n generalizing a with
  | zero => simp [recordsFrom]
  | succ n ih => exact List.forall_mem_cons.2 ⟨nul_free_readPath f a, ih _⟩

variable {mem : ℕ → Byte} {kmalloc : ℕ → Bool} {image size : ℕ} {borrowed : Bool}

theorem mountEntries_of_refused (h : Refused mem image size) :
    (mountEntriesFromMemory mem kmalloc image size borrowed s).pool = s ∧
      (mountEntriesFromMemory mem kmalloc image size borrowed s).ok = false := by
  rw [mountEntriesFromMemory]
  by_cases hsmall : image = 0 ∨ size < headerSize
  · rw [if_pos hsmall]
    exact ⟨rfl, rfl⟩
  · have hheader : ¬headerAccepted size (readHeader (fetch mem) image) := by
      rcases h with h | h | h
      · exact absurd (.inl h) hsmall
      · exact absurd (.inr h) hsmall
      · exact h
    simp only [if_neg hsmall, if_neg hheader]
    exact ⟨trivial, trivial⟩

/-- **The parser goes through the table** of an image it does not refuse. -/
theorem mountEntries_of_accepted (kmalloc : ℕ → Bool) (borrowed : Bool) (s : Pool)
    (h : ¬Refused mem image size) :
    ((mountEntriesFromMemory mem kmalloc image size borrowed s).pool,
      (mountEntriesFromMemory mem kmalloc image size borrowed s).ok) =
      runRecords (memorySource mem kmalloc image size borrowed) (imageRecords mem image) s := by
  rw [Refused, not_or, not_or, not_not] at h
  rw [imageRecords, ← mountLoop_eq, mountEntriesFromMemory, if_neg (not_or.2 ⟨h.1, h.2.1⟩)]
  simp only [if_pos h.2.2]

theorem alike_of_idleImage
    (hfail : (mountEntriesFromMemory mem kmalloc image size borrowed s).ok = false)
    (h : IdleImage mem kmalloc image size borrowed s) :
    Alike s (mountEntriesFromMemory mem kmalloc image size borrowed s).pool := by
  by_cases href : Refused mem image size
  · rw [(mountEntries_of_refused href).1]
    exact .refl s
  · have hrun := mountEntries_of_accepted kmalloc borrowed s href
    obtain ⟨hpool, hok⟩ := Prod.mk.inj hrun
    rw [hok] at hfail
    rw [hpool]
    exact alike_of_idle (nul_free_recordsFrom _ _ _) hfail (h.resolve_left href)

theorem sameTree_mountEntries_iff (hs : Wf s)
    (hfail : (mountEntriesFromMemory mem kmalloc image size borrowed s).ok = false) :
    SameTree s (mountEntriesFromMemory mem kmalloc image size borrowed s).pool ↔
      IdleImage mem kmalloc image size borrowed s := by
  refine ⟨fun hsame => ?_, fun h => (alike_of_idleImage hfail h).sameTree⟩
  by_cases href : Refused mem image size
  · exact .inl href
  · have hrun := mountEntries_of_accepted kmalloc borrowed s href
    obtain ⟨hpool, hok⟩ := Prod.mk.inj hrun
    rw [hok] at hfail
    rw [hpool] at hsame
    exact .inr ((sameTree_iff hs (nul_free_recordsFrom _ _ _) hfail).1 hsame)

/-! ### Mounts -/

/-- **No trace**: the tree, and the settings of persistence, are as before. -/
def NoTrace (s : Pool) (t : TfsState) (s' : Pool) (t' : TfsState) : Prop := SameTree s s' ∧ t' = t

def TfsState.Off (t : TfsState) : Prop := t.persistentEnabled = false ∧ t.autoSyncEnabled = false

theorem off_iff (t : TfsState) :
    { t with persistentEnabled := false, autoSyncEnabled := false } = t ↔ t.Off := by
  obtain ⟨persistent, auto, busy, device, lba, size⟩ := t
  simp only [TfsState.Off, TfsState.mk.injEq, and_true]
  exact ⟨fun h => ⟨h.1.symm, h.2.symm⟩, fun h => ⟨h.1.symm, h.2.symm⟩⟩

/-- What a mount of a disk takes from its surroundings: the answers of `kmalloc`, memory, and where the
image is put. -/
structure MountEnv where
  kmalloc : ℕ → Bool
  mem : ℕ → Byte
  image : ℕ

def imageRead (env : MountEnv) (devices : Devices) (device : List Byte) (startLba : UInt64) :
    Option (List Byte) :=
  if device = [] then none
  else (blockDeviceFind devices device).bind fun d => diskImage env.kmalloc d startLba

/-- **The disk mounts that leave no trace when they fail**: no image is read, or persistence is off and
the image that is read is refused or idle. -/
def IdleDisk (env : MountEnv) (devices : Devices) (s : Pool) (t : TfsState) (device : List Byte)
    (startLba : UInt64) : Prop :=
  ∀ bytes, imageRead env devices device startLba = some bytes →
    t.Off ∧ IdleImage (Bytes.overlay env.mem env.image bytes) env.kmalloc env.image bytes.length false s

/-- `tfs_mount_disk`, in its surroundings. -/
def mountDiskIn (env : MountEnv) (devices : Devices) (s : Pool) (t : TfsState) (device : List Byte)
    (startLba : UInt64) : Mounted :=
  tfsMountDisk env.kmalloc env.mem env.image devices s t device startLba

variable {env : MountEnv} {devices : Devices} {device : List Byte} {startLba : UInt64} {T : TfsState}

theorem mountDiskIn_of_unread (h : imageRead env devices device startLba = none) :
    mountDiskIn env devices s T device startLba = ⟨T, s, [], -1⟩ := by
  rw [mountDiskIn, tfsMountDisk]
  rw [imageRead] at h
  split_ifs at h ⊢
  · rfl
  · rw [h]

theorem mountDiskIn_of_read {bytes : List Byte} (h : imageRead env devices device startLba = some bytes) :
    mountDiskIn env devices s T device startLba =
      let r := mountEntriesFromMemory (Bytes.overlay env.mem env.image bytes) env.kmalloc env.image
        bytes.length false s
      if r.ok = true then
        ⟨{ T with
            persistentDevice := CharBuf.strncpy 15 device, persistentStartLba := startLba
            lastImageSize := bytes.length, persistentEnabled := true, autoSyncEnabled := true },
          r.pool, r.reads, 0⟩
      else ⟨{ T with persistentEnabled := false, autoSyncEnabled := false }, r.pool, r.reads, -1⟩ := by
  rw [mountDiskIn, tfsMountDisk]
  rw [imageRead] at h
  split_ifs at h
  rw [if_neg ‹_›, h]

theorem noTrace_disk_iff (hs : Wf s) (hfail : (mountDiskIn env devices s T device startLba).rc ≠ 0) :
    NoTrace s T (mountDiskIn env devices s T device startLba).pool
      (mountDiskIn env devices s T device startLba).state ↔
        IdleDisk env devices s T device startLba := by
  cases hread : imageRead env devices device startLba with
  | none =>
    rw [mountDiskIn_of_unread hread]
    refine ⟨fun _ bytes hb => ?_, fun _ => ⟨fun _ => rfl, rfl⟩⟩
    rw [hread] at hb
    cases hb
  | some bytes =>
    rw [mountDiskIn_of_read hread] at hfail ⊢
    simp only at hfail ⊢
    split_ifs at hfail ⊢ with hok
    · exact absurd rfl hfail
    · have hno : ∀ {b : Bool}, ¬b = true → b = false := fun h => by simpa using h
      rw [NoTrace, off_iff, sameTree_mountEntries_iff hs (hno hok), IdleDisk, hread]
      refine ⟨fun h b hb => ?_, fun h => ?_⟩
      · obtain rfl := Option.some.inj hb
        exact ⟨h.2, h.1⟩
      · exact ⟨(h bytes rfl).2, (h bytes rfl).1⟩

theorem alike_of_idleDisk (hfail : (mountDiskIn env devices s T device startLba).rc ≠ 0)
    (h : IdleDisk env devices s T device startLba) :
    Alike s (mountDiskIn env devices s T device startLba).pool ∧
      (mountDiskIn env devices s T device startLba).state = T := by
  cases hread : imageRead env devices device startLba with
  | none =>
    rw [mountDiskIn_of_unread hread]
    exact ⟨.refl s, rfl⟩
  | some bytes =>
    obtain ⟨hoff, hidle⟩ := h bytes hread
    rw [mountDiskIn_of_read hread] at hfail ⊢
    simp only at hfail ⊢
    split_ifs at hfail ⊢ with hok
    · exact absurd rfl hfail
    · exact ⟨alike_of_idleImage (by simpa using hok) hidle, (off_iff T).2 hoff⟩

/-- **A disk that mounts** mounts to the same on pools that are alike. -/
theorem mountDiskIn_alike {s' : Pool} (h : Alike s s')
    (hok : (mountDiskIn env devices s' T device startLba).rc = 0) :
    (mountDiskIn env devices s T device startLba).rc = 0 ∧
      Alike (mountDiskIn env devices s T device startLba).pool
        (mountDiskIn env devices s' T device startLba).pool ∧
      (mountDiskIn env devices s' T device startLba).state =
        (mountDiskIn env devices s T device startLba).state := by
  cases hread : imageRead env devices device startLba with
  | none =>
    rw [mountDiskIn_of_unread hread] at hok
    cases hok
  | some bytes =>
    rw [mountDiskIn_of_read hread] at hok
    rw [mountDiskIn_of_read hread, mountDiskIn_of_read hread]
    simp only at hok ⊢
    split_ifs at hok with hok'
    · by_cases href : Refused (Bytes.overlay env.mem env.image bytes) env.image bytes.length
      · rw [(mountEntries_of_refused href).2] at hok'
        cases hok'
      · obtain ⟨hpool, hgo⟩ := Prod.mk.inj
          (mountEntries_of_accepted env.kmalloc false s href)
        obtain ⟨hpool', hgo'⟩ := Prod.mk.inj
          (mountEntries_of_accepted env.kmalloc false s' href)
        obtain ⟨hsame, halike⟩ := alike_runRecords h
          (memorySource (Bytes.overlay env.mem env.image bytes) env.kmalloc env.image bytes.length false)
          (imageRecords (Bytes.overlay env.mem env.image bytes) env.image)
        have hfine := (hgo.trans hsame.symm).trans (hgo'.symm.trans hok')
        rw [if_pos hfine, if_pos hok', hpool, hpool']
        exact ⟨rfl, halike (hgo.symm.trans hfine), rfl⟩
    · exact absurd hok (by norm_num)

/-! ### The search for a root disk -/

abbrev tfsDefaultRootLba : UInt64 := 526336

def rootLba (d : Disk) : UInt64 := ((gptFindRootLba d).map UInt64.ofNat).getD tfsDefaultRootLba

/-- The candidates of `tfs_mount_installed_root`. -/
def rootCandidates : List (List Byte) := [lit "sda", lit "sdb", lit "sdc", lit "sdd"]

/-- The loop of `tfs_mount_installed_root`; each attempt has its surroundings. -/
def mountCandidates (env : ℕ → MountEnv) (devices : Devices) :
    ℕ → List (List Byte) → Pool → TfsState → Pool × TfsState × ℤ
  | _, [], s, t => (s, t, -1)
  | k, dev :: rest, s, t =>
    match blockDeviceFind devices dev with
    | none => mountCandidates env devices (k + 1) rest s t
    | some d =>
      let m := mountDiskIn (env k) devices s t dev (rootLba d)
      if m.rc = 0 then (m.pool, m.state, 0)
      else mountCandidates env devices (k + 1) rest m.pool m.state

def tfsMountInstalledRoot (env : ℕ → MountEnv) (devices : Devices) (s : Pool) (t : TfsState) :
    Pool × TfsState × ℤ := mountCandidates env devices 0 rootCandidates s t

def AttemptsIdle (env : ℕ → MountEnv) (devices : Devices) :
    ℕ → List (List Byte) → Pool → TfsState → Prop
  | _, [], _, _ => True
  | k, dev :: rest, s, t =>
    match blockDeviceFind devices dev with
    | none => AttemptsIdle env devices (k + 1) rest s t
    | some d =>
      let m := mountDiskIn (env k) devices s t dev (rootLba d)
      m.rc = 0 ∨ IdleDisk (env k) devices s t dev (rootLba d) ∧
        AttemptsIdle env devices (k + 1) rest m.pool m.state

/-- **One disk and nothing else**: the tree is the one that a single disk mounts to, or the one from
before. -/
def OneDisk (env : ℕ → MountEnv) (devices : Devices) (s : Pool) (t : TfsState)
    (r : Pool × TfsState × ℤ) : Prop :=
  (r.2.2 ≠ 0 → NoTrace s t r.1 r.2.1) ∧
    (r.2.2 = 0 → ∃ k dev d, blockDeviceFind devices dev = some d ∧
      (mountDiskIn (env k) devices s t dev (rootLba d)).rc = 0 ∧
      SameTree (mountDiskIn (env k) devices s t dev (rootLba d)).pool r.1 ∧
      r.2.1 = (mountDiskIn (env k) devices s t dev (rootLba d)).state)

/-- **When the attempts that fail leave no trace**, one disk is mounted and nothing else. -/
theorem oneDisk_mountCandidates {envs : ℕ → MountEnv} {s' : Pool} (h : Alike s s') (k : ℕ)
    (names : List (List Byte)) (hidle : AttemptsIdle envs devices k names s' T) :
    OneDisk envs devices s T (mountCandidates envs devices k names s' T) := by
  induction names generalizing k s' with
  | nil => exact ⟨fun _ => ⟨h.sameTree, rfl⟩, fun hz => by cases hz⟩
  | cons dev rest ih =>
    rw [mountCandidates]
    rw [AttemptsIdle] at hidle
    cases hfind : blockDeviceFind devices dev with
    | none =>
      simp only [hfind] at hidle
      exact ih h _ hidle
    | some d =>
      simp only [hfind] at hidle ⊢
      by_cases hok : (mountDiskIn (envs k) devices s' T dev (rootLba d)).rc = 0
      · obtain ⟨hok', halike, hstate⟩ := mountDiskIn_alike h hok
        rw [if_pos hok]
        exact ⟨fun hne => absurd rfl hne, fun _ => ⟨k, dev, d, hfind, hok', halike.sameTree, hstate⟩⟩
      · obtain ⟨hdisk, hlater⟩ := hidle.resolve_left hok
        obtain ⟨halike, hstate⟩ := alike_of_idleDisk hok hdisk
        rw [if_neg hok]
        rw [hstate] at hlater ⊢
        exact ih (h.trans halike) _ hlater

/-- **Mounts that fail leave no trace** exactly when persistence was off and the image was refused or
idle, or no image was read from the disk; and when all attempts are like that, the search for a root disk
ends with the tree of one disk. -/
theorem noTrace_iff (hs : Reachable s) (T : TfsState) :
    (∀ mem image size, (tfsMountImage mem image size s T).2.ok = false →
      (NoTrace s T (tfsMountImage mem image size s T).2.pool (tfsMountImage mem image size s T).1 ↔
        T.Off ∧ IdleImage mem (fun _ => true) image size true s)) ∧
    (∀ env devices device startLba, (mountDiskIn env devices s T device startLba).rc ≠ 0 →
      (NoTrace s T (mountDiskIn env devices s T device startLba).pool
        (mountDiskIn env devices s T device startLba).state ↔
          IdleDisk env devices s T device startLba)) ∧
    ∀ envs devices, AttemptsIdle envs devices 0 rootCandidates s T →
      OneDisk envs devices s T (tfsMountInstalledRoot envs devices s T) := by
  have hwf := wf_of_reachable hs
  refine ⟨fun mem image size hfail => ?_, fun env devices device startLba hfail =>
    noTrace_disk_iff hwf hfail, fun envs devices hidle => oneDisk_mountCandidates (.refl s) 0 _ hidle⟩
  rw [NoTrace, tfsMountImage, sameTree_mountEntries_iff hwf hfail, off_iff]
  exact and_comm

/-- Zeros are no image, and where there are no disks none is mounted. -/
theorem noTrace_iff_vfsInit :
    NoTrace vfsInit TfsState.boot
      (tfsMountImage (fun _ => 0) 4096 64 vfsInit TfsState.boot).2.pool
      (tfsMountImage (fun _ => 0) 4096 64 vfsInit TfsState.boot).1 ∧
    NoTrace vfsInit TfsState.boot
      (mountDiskIn ⟨fun _ => true, fun _ => 0, 4096⟩ (fun _ => none) vfsInit TfsState.boot (lit "sda") 0).pool
      (mountDiskIn ⟨fun _ => true, fun _ => 0, 4096⟩ (fun _ => none) vfsInit TfsState.boot (lit "sda") 0).state ∧
    OneDisk (fun _ => ⟨fun _ => true, fun _ => 0, 4096⟩) (fun _ => none) vfsInit TfsState.boot
      (tfsMountInstalledRoot (fun _ => ⟨fun _ => true, fun _ => 0, 4096⟩) (fun _ => none) vfsInit
        TfsState.boot) := by
  have hmagic : ¬headerAccepted 64 (readHeader (fetch fun _ => 0) 4096) := by
    rintro ⟨hmagic, -⟩
    exact absurd hmagic (by decide)
  have href : Refused (fun _ => 0) 4096 64 := .inr (.inr hmagic)
  have hread : imageRead ⟨fun _ => true, fun _ => 0, 4096⟩ (fun _ => none) (lit "sda") 0 = none := by
    rw [imageRead, blockDeviceFind]
    split_ifs <;> rfl
  have h := noTrace_iff .init TfsState.boot
  refine ⟨(h.1 _ _ _ (mountEntries_of_refused href).2).2 ⟨⟨rfl, rfl⟩, .inl href⟩, ?_, ?_⟩
  · refine (h.2.1 _ _ _ _ ?_).2 fun bytes hb => ?_
    · rw [mountDiskIn_of_unread hread]
      norm_num
    · rw [hread] at hb
      cases hb
  · exact h.2.2 _ _ (by simp [AttemptsIdle, rootCandidates, blockDeviceFind])

/-- The record of a directory `/a`. -/
def dirRecord : TfsEntry := ⟨tfsEntryDir, 0o755, 0, 0, 0, 0, 0, CharBuf.strncpy 255 (lit "/a")⟩

/-- The record of a file `/b` whose byte lies behind every image. -/
def fileRecord : TfsEntry := ⟨tfsEntryFile, 0o644, 0, 0, 1, 2 ^ 63, 0, CharBuf.strncpy 255 (lit "/b")⟩

def brokenHeader : List Byte :=
  tfsMagic ++ Bytes.le 4 tfsVersion ++ Bytes.le 4 2 ++ Bytes.le 8 headerSize ++ Bytes.le 8 0

def brokenImage : List Byte := brokenHeader ++ (encodeEntry dirRecord ++ encodeEntry fileRecord)

theorem length_brokenHeader : brokenHeader.length = headerSize := by simp [brokenHeader]

theorem length_brokenImage : brokenImage.length = headerSize + (entrySize + entrySize) := by
  simp [brokenImage, length_brokenHeader]

def brokenMemory : ℕ → Byte := Bytes.overlay (fun _ => 0) 4096 brokenImage

def brokenRecords : List Record :=
  [⟨⟨tfsEntryDir, 0o755, 0, 0, 0, 0, 0⟩, lit "/a"⟩, ⟨⟨tfsEntryFile, 0o644, 0, 0, 1, 2 ^ 63, 0⟩, lit "/b"⟩]

theorem read_brokenMemory :
    readHeader (fetch brokenMemory) 4096 = ⟨tfsMagic, tfsVersion, 2, headerSize, 0⟩ ∧
      imageRecords brokenMemory 4096 = brokenRecords := by
  have hall : Bytes.Holds (fetch brokenMemory) 4096 brokenImage :=
    holds_fetch (Bytes.holds_overlay _ _ _) (by rw [length_brokenImage]; norm_num)
  rw [brokenImage, Bytes.holds_append, Bytes.holds_append] at hall
  simp only [length_brokenHeader, length_encodeEntry] at hall
  obtain ⟨hheader, hdir, hfile⟩ := hall
  have hread := readHeader_of_holds hheader (by norm_num) (by norm_num) (by norm_num) (by norm_num)
  refine ⟨hread, ?_⟩
  rw [imageRecords, hread]
  simp only [recordsFrom]
  rw [readEntry_of_holds hdir (by decide) (by decide) (by decide) (by decide), readPath_of_holds hdir,
    readEntry_of_holds hfile (by decide) (by decide) (by decide) (by decide), readPath_of_holds hfile]
  rfl

/-- **A mount that fails leaves the directories in front of the bad record.** -/
theorem not_noTrace :
    Reachable vfsInit ∧ TfsState.boot.Off ∧
      (tfsMountImage brokenMemory 4096 brokenImage.length vfsInit TfsState.boot).2.ok = false ∧
      ¬NoTrace vfsInit TfsState.boot
        (tfsMountImage brokenMemory 4096 brokenImage.length vfsInit TfsState.boot).2.pool
        (tfsMountImage brokenMemory 4096 brokenImage.length vfsInit TfsState.boot).1 := by
  obtain ⟨hheader, hrecords⟩ := read_brokenMemory
  set src := memorySource brokenMemory (fun _ => true) 4096 brokenImage.length true with hsrc
  have href : ¬Refused brokenMemory 4096 brokenImage.length := by
    have haccepted : headerAccepted (headerSize + (entrySize + entrySize)) ⟨tfsMagic, tfsVersion, 2, headerSize, 0⟩ :=
      ⟨rfl, rfl, by norm_num⟩
    rw [Refused, hheader, length_brokenImage]
    rintro (h | h | h)
    · exact absurd h (by norm_num)
    · exact absurd h (by norm_num)
    · exact h haccepted
  have hrun := mountEntries_of_accepted (fun _ => true) true vfsInit href
  have hnul := nul_free_recordsFrom (fetch brokenMemory) 2 (4096 + headerSize)
  rw [hrecords, ← hsrc] at hrun
  have hpool := congrArg Prod.fst hrun
  have hok := congrArg Prod.snd hrun
  simp only at hpool hok
  have hgoes : ¬src.Stops vfsInit ⟨⟨tfsEntryDir, 0o755, 0, 0, 0, 0, 0⟩, lit "/a"⟩ := fun h =>
    absurd h.1 (by decide)
  have hmade : Record.Makes vfsInit ⟨⟨tfsEntryDir, 0o755, 0, 0, 0, 0, 0⟩, lit "/a"⟩ :=
    .inl ⟨by decide, by decide +kernel⟩
  have hdir : ∃ r ∈ src.applied vfsInit brokenRecords, r.Makes vfsInit := by
    refine ⟨_, ?_, hmade⟩
    rw [Source.applied, brokenRecords, List.takeWhile_cons_of_pos (by simpa using hgoes)]
    exact List.mem_cons_self
  obtain ⟨cs, hnone, hsome⟩ := path_of_run wf_vfsInit (.refl _) hnul hdir
  have hstops : (runRecords src brokenRecords vfsInit).2 = false := by
    have hend : brokenImage.length < 2 ^ 63 + 1 := by
      rw [length_brokenImage]
      norm_num
    exact runRecords_of_exceeds vfsInit
      ⟨_, List.mem_cons_of_mem _ List.mem_cons_self, by decide, by rwa [exceedsImage, hsrc]⟩
  refine ⟨.init, ⟨rfl, rfl⟩, hok.trans hstops, fun h => ?_⟩
  have hlook : lookAt (runRecords src brokenRecords vfsInit).1 cs = lookAt vfsInit cs := hpool ▸ h.1 cs
  obtain ⟨n, hn⟩ := Option.isSome_iff_exists.1 hsome
  rw [lookAt, lookAt, hnone, ← hrecords, imageRecords, hheader, hn, Option.map_some] at hlook
  exact Option.some_ne_none _ hlook

end Tnu.Tfs
