/-
**Where the image parser reads.**

`mount_entries_from_memory` tests the end of the entry table and the end of each file, both
computed in 64 bits, and uses the path of an entry as a C string.  This module finds out exactly
for which images every read stays inside: the two sums must not wrap, and a path that is read to
its terminator must have one.

Main definitions:

* `entryAddr`, `Rejected`, `Reached` — the records the loop gets to.

Main results:

* `mountLoop_inside`, `mountLoop_reaches` — a run of the loop;
* `mount_reads_inside_iff` — **the reads of both mounts stay inside exactly for safe
  images**;
* `mount_reads_outside` — an image that is not.
-/

import Tnu.Tfs.Mount

set_option autoImplicit false

namespace Tnu.Tfs

open Vfs

/-! ### A state in which a path exists -/

theorem exists_reachable_walk : ∀ {comps : NamePath}, Proper comps →
    ∃ s, Reachable s ∧ (∀ n, (s.nodes n).type = .dir) ∧
      s.nodeCount ≤ vfsInit.nodeCount + comps.length ∧ ∃ n, walk s rootNode comps = some n := by
  intro comps
  induction comps using List.reverseRecOn with
  | nil =>
    intro _
    exact ⟨vfsInit, .init, all_dir_vfsInit, le_rfl, rootNode, rfl⟩
  | append_singleton cs x ih =>
    intro hproper
    obtain ⟨s, hreach, hdir, hcount, p, hp⟩ := ih hproper.of_append
    have hs := wf_of_reachable hreach
    have hx : ValidName x := hproper.valid x (by simp)
    rw [List.length_append, List.length_singleton]
    cases hf : findChild s p x with
    | some n =>
      exact ⟨s, hreach, hdir, by omega, n, by rw [walk_snoc, hp]; exact hf⟩
    | none =>
      have hfull : s.nodeCount < vfsMaxNodes := by
        have hlen : cs.length ≤ 32 := hproper.of_append.length_le
        have hinit : vfsInit.nodeCount = 11 := by decide
        have : vfsMaxNodes = 1024 := rfl
        omega
      have hnul : 0 ∉ pathString (cs ++ [x]) := zero_notMem_pathString hproper.valid
      have hmake := vfsMake_of_new .dir 0 0 0 hnul (by decide : 0 ∉ [slash])
        (resolve_pathString hproper) hp (hdir p) hf hfull
      have hname := leafNode_name s hx .dir 0 0 0
      have hstep : step s (.mkdir ⟨_, hnul⟩ ⟨[slash], by decide⟩ 0 0 0) =
          some (addLeaf s p (leafNode s x .dir 0 0 0)) := by
        simp only [step, vfsMkdir, hmake]
      refine ⟨_, .step _ hreach hstep, fun m => ?_, ?_, s.nodeCount, ?_⟩
      · have := all_dir_vfsMkdir hs hdir 0 0 0 hnul (by decide : 0 ∉ [slash]) m
        rwa [vfsMkdir, hmake] at this
      · rw [nodeCount_addLeaf]
        omega
      · rw [walk_addLeaf hs hp rfl (by rw [hname]; exact hf), hname, if_pos rfl]

/-! ### The records of an image -/

section

variable (mem : ℕ → Byte) (image size : ℕ)

abbrev imageHeader : RawHeader := readHeader (fetch mem) image

/-- Where record `i` starts, counted from the start of the image and without wrapping. -/
def entryAddr (i : ℕ) : ℕ := (imageHeader mem image).entriesOffset + i * entrySize

/-- The fields of record `i`. -/
abbrev entryAt (i : ℕ) : RawEntry := readEntry (fetch mem) (image + entryAddr mem image i)

/-- The path of record `i`. -/
abbrev pathAt (i : ℕ) : List Byte := readPath (fetch mem) (image + entryAddr mem image i)

/-- A record whose path is neither empty nor the root is not skipped. -/
def Named (i : ℕ) : Prop := pathAt mem image i ≠ [] ∧ pathAt mem image i ≠ [slash]

def Rejected (i : ℕ) : Prop :=
  Named mem image i ∧ (entryAt mem image i).type = tfsEntryFile ∧
    exceedsImage size (entryAt mem image i)

/-- No record before `i` stops the loop. -/
def Reached (i : ℕ) : Prop := ∀ j, j < i → ¬ Rejected mem image size j

/-- The path of record `i` is read up to its terminator: by the warning about a rejected file, or
because it is relative. -/
def ReadWhole (i : ℕ) : Prop :=
  Rejected mem image size i ∨
    Named mem image i ∧ (pathAt mem image i).head? ≠ some slash ∧
      ((entryAt mem image i).type = tfsEntryDir ∨ (entryAt mem image i).type = tfsEntryFile)

/-- Record `i` is a file with data that is accepted, under a path the VFS accepts. -/
def Carries (i : ℕ) : Prop :=
  Named mem image i ∧ (entryAt mem image i).type = tfsEntryFile ∧
    ¬ exceedsImage size (entryAt mem image i) ∧ (resolve (pathAt mem image i) [slash]).isSome ∧
      (entryAt mem image i).size ≠ 0

/-- What must hold of a record for its reads to stay inside. -/
structure RecordSafe (i : ℕ) : Prop where
  /-- The record lies in the image. -/
  record : entryAddr mem image i + entrySize ≤ size
  /-- A path that is read up to its terminator has one in the image. -/
  path : ReadWhole mem image size i →
    ∃ j, entryAddr mem image i + pathOffset + j < size ∧
      fetch mem (image + (entryAddr mem image i + pathOffset) + j) = 0
  /-- The data lie in the image, without wrapping. -/
  data : Carries mem image size i →
    (entryAt mem image i).offset + (entryAt mem image i).size ≤ size

/-- **The images the parser can be trusted with**: the header is refused, or every record the loop
reaches is safe. -/
def SafeImage : Prop :=
  headerSize ≤ size → headerAccepted size (imageHeader mem image) →
    ∀ i, i < (imageHeader mem image).entryCount → Reached mem image size i →
      RecordSafe mem image size i

end

variable {mem : ℕ → Byte} {image size : ℕ}

theorem entryAddr_succ (mem : ℕ → Byte) (image i : ℕ) :
    entryAddr mem image (i + 1) = entryAddr mem image i + entrySize := by
  simp only [entryAddr]
  ring

theorem entryAddr_zero_lt (mem : ℕ → Byte) (image : ℕ) :
    entryAddr mem image 0 < addressSpace := by
  have := Bytes.field_lt (fetch mem) (image + 16) 8
  simp only [entryAddr, Nat.zero_mul, Nat.add_zero]
  exact this

theorem entryAt_offset_lt (mem : ℕ → Byte) (image i : ℕ) :
    (entryAt mem image i).offset < addressSpace :=
  Bytes.field_lt (fetch mem) (image + entryAddr mem image i + 24) 8

/-! ### One record -/

variable {path : List Byte} {r : Read} {i : ℕ} {kmalloc : ℕ → Bool}

theorem mem_reads_mountFile {borrowed : Bool} {s : Pool} {e : RawEntry}
    {reads : List Read}
    (h : r ∈ (mountFile mem kmalloc image borrowed s e path reads).reads) :
    r ∈ reads ∨ r = .bytes (image + e.offset) e.size ∧ e.size ≠ 0 ∧
      ∃ s₁ n, vfsLookup s₁ path [slash] = some n := by
  unfold mountFile at h
  simp only at h
  split at h
  · exact .inl h
  · rename_i n hn
    split_ifs at h with h0 hk
    · exact .inl h
    · exact .inl h
    · rcases List.mem_append.1 h with h | h
      · exact .inl h
      · exact .inr ⟨List.mem_singleton.1 h, h0, _, n, hn⟩

theorem reads_subset_mountFile (mem : ℕ → Byte) (kmalloc : ℕ → Bool) (image : ℕ)
    (borrowed : Bool) (s : Pool) (e : RawEntry) (path : List Byte) (reads : List Read) :
    reads ⊆ (mountFile mem kmalloc image borrowed s e path reads).reads := by
  unfold mountFile
  simp only
  split
  · exact fun _ h => h
  · split_ifs
    · exact fun _ h => h
    · exact fun _ h => h
    · exact List.subset_append_left _ _

theorem pathReads_inside (h0 : 0 < image) (himage : image + size ≤ addressSpace) {a : ℕ}
    (ha : a + tfsPathMax ≤ size)
    (hterm : path.head? ≠ some slash → ∃ j, a + j < size ∧ fetch mem (image + a + j) = 0)
    (hr : r ∈ pathReads path (image + a)) : r.Inside mem image size := by
  have hmax : tfsPathMax = 256 := rfl
  unfold pathReads at hr
  split_ifs at hr with habs
  · rw [List.mem_singleton.1 hr]
    have hwhole := (Read.inside_bytes_iff mem h0 himage (a := a) (n := tfsPathMax)
      (by omega) (by omega)).2 ha
    refine hwhole.mono_bytes le_rfl ?_
    have : min (vfsPathMax - 1) (path.length + 1) ≤ vfsPathMax - 1 := min_le_left _ _
    have : vfsPathMax = 256 := rfl
    omega
  · rw [List.mem_singleton.1 hr]
    exact (Read.inside_cstring_iff h0 himage (by omega)).2 (hterm habs)

/-- **A safe record is read inside.** -/
theorem mountEntry_inside (h0 : 0 < image) (himage : image + size ≤ addressSpace)
    (kmalloc : ℕ → Bool) (borrowed : Bool) (s : Pool) (h : RecordSafe mem image size i)
    (hr : r ∈ (mountEntry mem kmalloc image size borrowed s
      (image + entryAddr mem image i)).reads) : r.Inside mem image size := by
  have hsize : entrySize = pathOffset + tfsPathMax := rfl
  have hrec := h.record
  have hpos : 0 < entrySize := by decide
  have hrecord : (Read.bytes (image + entryAddr mem image i) entrySize).Inside mem image size :=
    (Read.inside_bytes_iff mem h0 himage (by omega) hpos).2 hrec
  have hassoc : image + entryAddr mem image i + pathOffset =
      image + (entryAddr mem image i + pathOffset) := Nat.add_assoc _ _ _
  have hpaths : Named mem image i →
      ((entryAt mem image i).type = tfsEntryDir ∨ (entryAt mem image i).type = tfsEntryFile) →
      ∀ r ∈ pathReads (pathAt mem image i) (image + (entryAddr mem image i + pathOffset)),
        r.Inside mem image size := fun hn ht r hr =>
    pathReads_inside h0 himage (by omega) (fun habs => h.path (.inr ⟨hn, habs, ht⟩)) hr
  have hnil : (Read.bytes (image + entryAddr mem image i) entrySize) = r →
      r.Inside mem image size := fun e => e ▸ hrecord
  unfold mountEntry at hr
  simp only [hassoc] at hr
  split_ifs at hr with hskip hdir hfile hexc
  · exact hnil (List.mem_singleton.1 hr).symm
  · rcases List.mem_cons.1 hr with hr | hr
    · exact hnil hr.symm
    · exact hpaths (not_or.1 hskip) (.inl hdir) r hr
  · rcases List.mem_cons.1 hr with hr | hr
    · exact hnil hr.symm
    · rw [List.mem_singleton.1 hr]
      exact (Read.inside_cstring_iff h0 himage (by omega)).2
        (h.path (.inl ⟨not_or.1 hskip, hfile, hexc⟩))
  · rcases mem_reads_mountFile hr with hr | ⟨rfl, hne, s₁, n, hn⟩
    · rcases List.mem_cons.1 hr with hr | hr
      · exact hnil hr.symm
      · exact hpaths (not_or.1 hskip) (.inr hfile) r hr
    · have hres : (resolve (pathAt mem image i) [slash]).isSome := by
        rw [vfsLookup_eq _ (nul_free_readPath _ _) (by decide), Option.bind_eq_some_iff] at hn
        obtain ⟨comps, hcomps, -⟩ := hn
        rw [hcomps, Option.isSome_some]
      have hdata := h.data ⟨not_or.1 hskip, hfile, hexc, hres, hne⟩
      exact (Read.inside_bytes_iff mem h0 himage (entryAt_offset_lt mem image i) (by omega)).2 hdata
  · exact hnil (List.mem_singleton.1 hr).symm

theorem mountEntry_ok (borrowed : Bool) (s : Pool) (h : ¬ Rejected mem image size i) :
    (mountEntry mem (fun _ => true) image size borrowed s
      (image + entryAddr mem image i)).ok = true := by
  unfold mountEntry
  simp only
  split_ifs with hskip hdir hfile hexc
  · rfl
  · rfl
  · exact absurd ⟨not_or.1 hskip, hfile, hexc⟩ h
  · unfold mountFile
    simp only
    split
    · rfl
    · split_ifs with h1 h2
      · rfl
      · exact absurd h2.2 (by simp)
      · rfl
  · rfl

theorem mountEntry_rejected (kmalloc : ℕ → Bool) (borrowed : Bool) (s : Pool)
    (h : Rejected mem image size i) :
    (mountEntry mem kmalloc image size borrowed s (image + entryAddr mem image i)).ok = false := by
  obtain ⟨⟨hne, hns⟩, hfile, hexc⟩ := h
  unfold mountEntry
  simp only
  rw [if_neg (not_or.2 ⟨hne, hns⟩), if_neg (by rw [hfile]; decide), if_pos hfile, if_pos hexc]

theorem mem_reads_mountEntry (mem : ℕ → Byte) (image size : ℕ) (borrowed : Bool) {s : Pool}
    (hs : Wf s) (i : ℕ) :
    .bytes (image + entryAddr mem image i) entrySize ∈ (mountEntry mem (fun _ => true) image size
        borrowed s (image + entryAddr mem image i)).reads ∧
      (ReadWhole mem image size i → .cstring (image + (entryAddr mem image i + pathOffset)) ∈
        (mountEntry mem (fun _ => true) image size borrowed s
          (image + entryAddr mem image i)).reads) ∧
      (Carries mem image size i →
        (∃ comps n, resolve (pathAt mem image i) [slash] = some comps ∧
          walk s rootNode comps = some n) →
        .bytes (image + (entryAt mem image i).offset) (entryAt mem image i).size ∈
          (mountEntry mem (fun _ => true) image size borrowed s
            (image + entryAddr mem image i)).reads) := by
  have hassoc : image + entryAddr mem image i + pathOffset =
      image + (entryAddr mem image i + pathOffset) := Nat.add_assoc _ _ _
  refine ⟨?_, ?_, ?_⟩
  · unfold mountEntry
    simp only
    split_ifs
    · simp
    · simp
    · simp
    · exact reads_subset_mountFile _ _ _ _ _ _ _ _ (by simp)
    · simp
  · intro hwhole
    unfold mountEntry
    simp only [hassoc]
    rcases hwhole with ⟨⟨hne, hns⟩, hfile, hexc⟩ | ⟨⟨hne, hns⟩, habs, htype⟩
    · rw [if_neg (not_or.2 ⟨hne, hns⟩), if_neg (by rw [hfile]; decide), if_pos hfile, if_pos hexc]
      simp
    · have hpaths : pathReads (pathAt mem image i) (image + (entryAddr mem image i + pathOffset)) =
          [.cstring (image + (entryAddr mem image i + pathOffset))] := if_neg habs
      rw [if_neg (not_or.2 ⟨hne, hns⟩), hpaths]
      rcases htype with hdir | hfile
      · rw [if_pos hdir]
        simp
      · rw [if_neg (by rw [hfile]; decide), if_pos hfile]
        split_ifs
        · simp
        · exact reads_subset_mountFile _ _ _ _ _ _ _ _ (by simp)
  · rintro ⟨⟨hne, hns⟩, hfile, hexc, -, hsize⟩ ⟨comps, n, hres, hw⟩
    unfold mountEntry
    simp only
    rw [if_neg (not_or.2 ⟨hne, hns⟩), if_neg (by rw [hfile]; decide), if_pos hfile, if_neg hexc]
    unfold mountFile
    simp only
    have hw' := walk_vfsMake hs .file
      (vfsSIfreg ||| ((entryAt mem image i).mode &&& permMask)) (entryAt mem image i).uid
      (entryAt mem image i).gid (nul_free_readPath (fetch mem) (image + entryAddr mem image i))
      (by decide : 0 ∉ [slash]) hw
    have hlookup : vfsLookup (vfsCreateFile s (pathAt mem image i) [slash]
        (vfsSIfreg ||| ((entryAt mem image i).mode &&& permMask)) (entryAt mem image i).uid
        (entryAt mem image i).gid).1 (pathAt mem image i) [slash] = some n := by
      rw [vfsLookup_eq _ (nul_free_readPath _ _) (by decide), hres]
      exact hw'
    rw [hlookup]
    simp only
    rw [if_neg hsize, if_neg (by simp)]
    simp

/-! ### The loop -/

theorem mountLoop_inside (h0 : 0 < image) (himage : image + size ≤ addressSpace)
    (kmalloc : ℕ → Bool) (borrowed : Bool) : ∀ (n i : ℕ) (s : Pool),
    (∀ k, i ≤ k → k < i + n → (∀ j, i ≤ j → j < k → ¬ Rejected mem image size j) →
      RecordSafe mem image size k) →
    ∀ r ∈ (mountLoop mem kmalloc image size borrowed n (image + entryAddr mem image i) s).reads,
      r.Inside mem image size := by
  intro n
  induction n with
  | zero => intro i s _ r hr; simp [mountLoop] at hr
  | succ n ih =>
    intro i s hsafe r hr
    have hi : RecordSafe mem image size i :=
      hsafe i le_rfl (by omega) fun j h₁ h₂ => by omega
    have hone := fun r hr => mountEntry_inside h0 himage kmalloc borrowed s hi (r := r) hr
    rw [mountLoop] at hr
    simp only at hr
    split_ifs at hr with hok
    · rcases List.mem_append.1 hr with hr | hr
      · exact hone r hr
      · have hnot : ¬ Rejected mem image size i := fun hrej => by
          rw [mountEntry_rejected kmalloc borrowed s hrej] at hok
          cases hok
        rw [Nat.add_assoc, ← entryAddr_succ] at hr
        refine ih (i + 1) _ (fun k h₁ h₂ hk => ?_) r hr
        refine hsafe k (by omega) (by omega) fun j hj hjk => ?_
        rcases Nat.eq_or_lt_of_le hj with rfl | hj
        · exact hnot
        · exact hk j hj hjk
    · exact hone r hr

theorem mountLoop_reaches (mem : ℕ → Byte) (image size : ℕ) (borrowed : Bool) : ∀ (n i k : ℕ) (s : Pool), Wf s → i ≤ k →
    k < i + n → (∀ j, i ≤ j → j < k → ¬ Rejected mem image size j) →
    ∃ s', Wf s' ∧
      (∀ cs m, walk s rootNode cs = some m → walk s' rootNode cs = some m) ∧
      (mountEntry mem (fun _ => true) image size borrowed s'
          (image + entryAddr mem image k)).reads ⊆
        (mountLoop mem (fun _ => true) image size borrowed n
          (image + entryAddr mem image i) s).reads := by
  intro n
  induction n with
  | zero => intro i k s _ h₁ h₂; omega
  | succ n ih =>
    intro i k s hs hik hkn hrej
    rw [mountLoop]
    simp only
    rcases Nat.eq_or_lt_of_le hik with rfl | hik
    · refine ⟨s, hs, fun cs m hw => hw, ?_⟩
      split_ifs
      · exact List.subset_append_left _ _
      · exact fun r hr => hr
    · have hok := mountEntry_ok borrowed s (hrej i le_rfl hik)
      rw [if_pos hok]
      obtain ⟨s', hs', hwalk, hsub⟩ := ih (i + 1) k
        (mountEntry mem (fun _ => true) image size borrowed s
          (image + entryAddr mem image i)).pool
        (wf_mountEntry hs mem _ image size borrowed _) hik (by omega)
        fun j hj hjk => hrej j (by omega) hjk
      refine ⟨s', hs', fun cs m hw => hwalk cs m (walk_mountEntry hs mem _ image size borrowed _ hw),
        fun r hr => ?_⟩
      rw [entryAddr_succ, ← Nat.add_assoc] at hsub
      exact List.mem_append_right _ (hsub hr)

/-- **A record whose reads stay inside in every pool is safe**, when the records before it lie in
the image. -/
theorem recordSafe_of_inside (h0 : 0 < image) (himage : image + size ≤ addressSpace)
    (borrowed : Bool) (hstart : entryAddr mem image i < addressSpace)
    (h : ∀ s, Reachable s → ∃ s', Wf s' ∧
      (∀ cs m, walk s rootNode cs = some m → walk s' rootNode cs = some m) ∧
      ∀ r ∈ (mountEntry mem (fun _ => true) image size borrowed s'
        (image + entryAddr mem image i)).reads, r.Inside mem image size) :
    RecordSafe mem image size i := by
  obtain ⟨s', hs', -, hin⟩ := h vfsInit .init
  obtain ⟨hrec, hpath, -⟩ := mem_reads_mountEntry mem image size borrowed hs' i
  have hrecord := (Read.inside_bytes_iff mem h0 himage hstart (by decide)).1 (hin _ hrec)
  refine ⟨hrecord, fun hwhole => ?_, fun hcarries => ?_⟩
  · have hsize : entrySize = pathOffset + tfsPathMax := rfl
    exact (Read.inside_cstring_iff h0 himage (by omega)).1 (hin _ (hpath hwhole))
  · obtain ⟨comps, hcomps⟩ := Option.isSome_iff_exists.1 hcarries.2.2.2.1
    have hproper := proper_of_resolve (nul_free_readPath _ _) (by decide) hcomps
    -- a pool that has the path of the record
    obtain ⟨s, hreach, -, -, n, hw⟩ := exists_reachable_walk hproper
    obtain ⟨s', hs', hwalk, hin⟩ := h s hreach
    have hdata := (mem_reads_mountEntry mem image size borrowed hs' i).2.2 hcarries ⟨comps, n, hcomps, hwalk comps n hw⟩
    have hpos : (entryAt mem image i).size ≠ 0 := hcarries.2.2.2.2
    exact (Read.inside_bytes_iff mem h0 himage (entryAt_offset_lt mem image i) (by omega)).1
      (hin _ hdata)

/-! ### The parser -/

theorem safeImage_of_inside (h0 : 0 < image) (himage : image + size ≤ addressSpace)
    (borrowed : Bool)
    (h : ∀ s, Reachable s → ∀ r ∈
      (mountEntriesFromMemory mem (fun _ => true) image size borrowed s).reads,
        r.Inside mem image size) : SafeImage mem image size := by
  intro hsize hacc
  have hloop : ∀ s, Reachable s → ∀ r ∈ (mountLoop mem (fun _ => true) image size borrowed
      (imageHeader mem image).entryCount (image + entryAddr mem image 0) s).reads,
      r.Inside mem image size := by
    intro s hreach r hr
    refine h s hreach r ?_
    rw [mountEntriesFromMemory, if_neg (by omega)]
    simp only
    rw [if_pos hacc]
    refine List.mem_cons_of_mem _ ?_
    simpa [entryAddr] using hr
  intro i
  induction i using Nat.strong_induction_on with
  | _ i ih =>
    intro hi hreached
    have hstart : entryAddr mem image i < addressSpace := by
      cases i with
      | zero => exact entryAddr_zero_lt mem image
      | succ i =>
        have hprev := (ih i (Nat.lt_succ_self i) (by omega)
          fun j hj => hreached j (by omega)).record
        rw [← entryAddr_succ] at hprev
        omega
    refine recordSafe_of_inside h0 himage borrowed hstart fun s hreach => ?_
    obtain ⟨s', hs', hwalk, hsub⟩ := mountLoop_reaches mem image size borrowed
      (imageHeader mem image).entryCount 0 i s (wf_of_reachable hreach) (Nat.zero_le i)
      (by omega) fun j _ hj => hreached j hj
    exact ⟨s', hs', hwalk, fun r hr => hloop s hreach r (hsub hr)⟩

theorem inside_of_safeImage (h0 : 0 < image) (himage : image + size ≤ addressSpace)
    (hsafe : SafeImage mem image size) (kmalloc : ℕ → Bool) (borrowed : Bool) (s : Pool) :
    ∀ r ∈ (mountEntriesFromMemory mem kmalloc image size borrowed s).reads,
      r.Inside mem image size := by
  intro r hr
  rw [mountEntriesFromMemory] at hr
  split_ifs at hr with hbad
  · simp at hr
  have hsize : headerSize ≤ size := by omega
  have hheader : (Read.bytes image headerSize).Inside mem image size := by
    have := (Read.inside_bytes_iff mem h0 himage (a := 0) (n := headerSize)
      (by decide) (by decide)).2 (by omega)
    rwa [Nat.add_zero] at this
  simp only at hr
  split_ifs at hr with hacc
  · rcases List.mem_cons.1 hr with rfl | hr
    · exact hheader
    · refine mountLoop_inside h0 himage kmalloc borrowed (imageHeader mem image).entryCount 0 s
        (fun k _ hk hrej => ?_) r ?_
      · exact hsafe hsize hacc k (by omega) fun j hj => hrej j (Nat.zero_le j) hj
      · simpa [entryAddr] using hr
  · rw [List.mem_singleton.1 hr]
    exact hheader

theorem diskImage_mono {d : Disk} {startLba : UInt64} {bytes : List Byte}
    (h : diskImage kmalloc d startLba = some bytes) :
    diskImage (fun _ => true) d startLba = some bytes := by
  obtain ⟨hd, entries, hh, -, hentries, hsize, -, hread⟩ := diskImage_eq_some.1 h
  exact diskImage_eq_some.2 ⟨hd, entries, hh, rfl, hentries, hsize, rfl, hread⟩

/-- A block of memory: it does not start at NULL and does not leave the address space. -/
structure Block where
  addr : ℕ
  len : ℕ
  pos : 0 < addr
  fits : addr + len ≤ addressSpace

/-- **Every byte `tfs_mount_image` and `tfs_mount_disk` read lies in the image**, whatever the VFS
holds and `kmalloc` answers, exactly for safe images. -/
theorem mount_reads_inside_iff (mem : ℕ → Byte) (b : Block) :
    ((∀ (s : Pool) (t : TfsState), Reachable s →
        ∀ r ∈ (tfsMountImage mem b.addr b.len s t).2.reads, r.Inside mem b.addr b.len) ↔
      SafeImage mem b.addr b.len) ∧
    ∀ (image : ℕ) (devices : Devices) (device : List Byte) (startLba : UInt64)
      (d : Disk), 0 < image → image + tfsSyncBufferMax ≤ addressSpace → device ≠ [] →
      blockDeviceFind devices device = some d →
      ((∀ (s : Pool) (t : TfsState) (kmalloc : ℕ → Bool) (bytes : List Byte), Reachable s →
        diskImage kmalloc d startLba = some bytes →
        ∀ r ∈ (tfsMountDisk kmalloc mem image devices s t device startLba).reads,
          r.Inside (Bytes.overlay mem image bytes) image bytes.length) ↔
      ∀ bytes, diskImage (fun _ => true) d startLba = some bytes →
        SafeImage (Bytes.overlay mem image bytes) image bytes.length) := by
  constructor
  · constructor
    · intro h
      exact safeImage_of_inside b.pos b.fits true
        fun s hreach => h s TfsState.boot hreach
    · intro h s _ _
      exact inside_of_safeImage b.pos b.fits h _ true s
  · intro image devices device startLba d h0 himage hdev hfind
    have hlen : ∀ {kmalloc bytes}, diskImage kmalloc d startLba = some bytes →
        image + bytes.length ≤ addressSpace := by
      intro kmalloc bytes hb
      obtain ⟨h, entries, -, -, -, hsize, -, hread⟩ := diskImage_eq_some.1 hb
      rw [(Disk.read_eq_some.1 hread).2, Bytes.length_window]
      omega
    have hreads : ∀ (s : Pool) (t : TfsState) (kmalloc : ℕ → Bool) (bytes : List Byte),
        diskImage kmalloc d startLba = some bytes →
        (tfsMountDisk kmalloc mem image devices s t device startLba).reads =
          (mountEntriesFromMemory (Bytes.overlay mem image bytes) kmalloc image bytes.length
            false s).reads := by
      intro s t kmalloc bytes hb
      rw [tfsMountDisk, if_neg hdev, hfind, Option.bind_some, hb]
      simp only
      split_ifs <;> rfl
    constructor
    · intro h bytes hb
      refine safeImage_of_inside h0 (hlen hb) false fun s hreach => ?_
      have hs := h s TfsState.boot (fun _ => true) bytes hreach hb
      rwa [hreads _ _ _ _ hb] at hs
    · intro h s t kmalloc bytes _ hb
      rw [hreads s t kmalloc bytes hb]
      exact inside_of_safeImage h0 (hlen hb) (h bytes (diskImage_mono hb)) kmalloc false s

theorem mount_reads_inside_iff_blank :
    (∀ (s : Pool) (t : TfsState) (kmalloc : ℕ → Bool) (bytes : List Byte), Reachable s →
      diskImage kmalloc ⟨fun _ => 0, fun _ => true⟩ 0 = some bytes →
      ∀ r ∈ (tfsMountDisk kmalloc (fun _ => 0) 4096 (fun _ => some ⟨fun _ => 0, fun _ => true⟩)
        s t (lit "sda") 0).reads,
        r.Inside (Bytes.overlay (fun _ => 0) 4096 bytes) 4096 bytes.length) ↔
    ∀ bytes, diskImage (fun _ => true) ⟨fun _ => 0, fun _ => true⟩ 0 = some bytes →
      SafeImage (Bytes.overlay (fun _ => 0) 4096 bytes) 4096 bytes.length :=
  (mount_reads_inside_iff (fun _ => 0) ⟨4096, 0, by decide, by decide⟩).2 4096
    (fun _ => some ⟨fun _ => 0, fun _ => true⟩) (lit "sda") 0 ⟨fun _ => 0, fun _ => true⟩
    (by decide) (by decide) (by decide) rfl

/-- A memory that holds a bare header at 4096, whose one entry lies 296 bytes in front of it. -/
def wrappingHeader : ℕ → Byte :=
  Bytes.overlay (fun _ => 0) 4096
    (tfsMagic ++ Bytes.le 4 tfsVersion ++ Bytes.le 4 1 ++ Bytes.le 8 (2 ^ 64 - entrySize)
      ++ Bytes.le 8 0)

/-- **The end of the table can wrap around to 0**: the record in front of the image is read. -/
theorem mount_reads_outside : Reachable vfsInit ∧
    ∃ r ∈ (tfsMountImage wrappingHeader 4096 headerSize vfsInit TfsState.boot).2.reads,
      ¬ r.Inside wrappingHeader 4096 headerSize := by
  have hh : imageHeader wrappingHeader 4096 = ⟨tfsMagic, 1, 1, 2 ^ 64 - entrySize, 0⟩ :=
    readHeader_of_holds (holds_fetch (Bytes.holds_overlay _ _ _) (by decide)) (by decide)
      (by decide) (by decide) (by decide)
  have haddr : entryAddr wrappingHeader 4096 0 = 2 ^ 64 - entrySize := by
    rw [entryAddr, hh, Nat.zero_mul, Nat.add_zero]
  obtain ⟨s', hs', -, hsub⟩ := mountLoop_reaches wrappingHeader 4096 headerSize true 1 0 0 vfsInit
    wf_vfsInit le_rfl (by decide) fun j _ hj => by omega
  have hrec := hsub (mem_reads_mountEntry wrappingHeader 4096 headerSize true hs' 0).1
  rw [haddr] at hrec
  refine ⟨.init, .bytes (4096 + (2 ^ 64 - entrySize)) entrySize, ?_, fun hin => ?_⟩
  · rw [tfsMountImage, mountEntriesFromMemory, if_neg (by decide)]
    simp only [hh]
    rw [if_pos (by decide)]
    exact List.mem_cons_of_mem _ hrec
  · have := (Read.inside_bytes_iff wrappingHeader (by decide) (by decide) (by decide)
      (by decide)).1 hin
    exact absurd this (by decide)

end Tnu.Tfs
