/-
**The canonical path, and the limits of `vfs_normalize`.**

What a path means is the fold of its components: `.` and empty ones do nothing, `..` removes the
last one kept, any other is kept as it is.  `vfs_normalize` computes this fold inside buffers of a
fixed size.  A component that is too deep or an output that is too long is refused, but a source
that is too long and a component that is too long are cut silently, and the path of another file
may come out.

Main definitions:

* `wholeSource`, `canonicalPath` — the source as written, and its fold.

Main result:

* `normalizes_iff` — **the function is right exactly when nothing is cut, or it refuses**.
-/

import Tnu.Vfs.Path

set_option autoImplicit false

namespace Tnu.Vfs

/-! ### The canonical path -/

def wholeSource (path cwd : List Byte) : List Byte :=
  if path.head? = some slash then path else (if cwd = [] then [slash] else cwd) ++ slash :: path

def canonStep (comps : List (List Byte)) (comp : List Byte) : List (List Byte) :=
  if comp = dot then comps
  else if comp = dotdot then comps.dropLast
  else comps ++ [comp]

def canonicalPath (path cwd : List Byte) : List (List Byte) :=
  (Sep.pieces slash (wholeSource path cwd)).foldl canonStep []

/-- Everything on the way from a path to its canonical form fits. -/
structure WithinLimits (path cwd : List Byte) (outSize : ℕ) : Prop where
  source : (wholeSource path cwd).length < vfsPathMax
  names : ∀ c ∈ Sep.pieces slash (wholeSource path cwd), c.length ≤ vfsNameMax
  depth : ∀ cs ds, Sep.pieces slash (wholeSource path cwd) = cs ++ ds →
    (cs.foldl canonStep []).length ≤ vfsMaxComponents
  output : (pathString (canonicalPath path cwd)).length < outSize

/-- What the kernel relies on: a path that is returned is the canonical one and is a fixed point,
and what does not fit is refused. -/
structure Normalizes (path cwd : List Byte) (outSize : ℕ) : Prop where
  canonical : ∀ out, vfsNormalize path cwd outSize = some out →
    out = pathString (canonicalPath path cwd)
  refuses : ¬WithinLimits path cwd outSize → vfsNormalize path cwd outSize = none
  fixed : ∀ (out : List Byte) (cwd' : CString), vfsNormalize path cwd outSize = some out →
    vfsNormalize out cwd'.chars outSize = some out

/-- Nothing is cut: neither the source nor one of its components, nor the output when it is read
as a source. -/
structure Uncut (path cwd : List Byte) : Prop where
  source : (wholeSource path cwd).length < vfsPathMax
  names : ∀ c ∈ Sep.pieces slash (wholeSource path cwd), c.length ≤ vfsNameMax
  output : (pathString (canonicalPath path cwd)).length < vfsPathMax

/-- The buffer the output loop asks for: a lone component is given a byte too much. -/
def roomFor (comps : List (List Byte)) : ℕ :=
  (pathString comps).length + if comps.length = 1 then 2 else 1

/-- A limit that is checked is exceeded: more than 32 components are kept at one time, or the
output buffer is too small for what is left of them. -/
def Refused (path cwd : List Byte) (outSize : ℕ) : Prop :=
  ∀ comps, pathComps (pathSource path cwd) = some comps → outSize < roomFor comps

variable {path cwd : List Byte} {outSize : ℕ} {comps : List (List Byte)}

theorem pathSource_eq_take (path cwd : List Byte) :
    pathSource path cwd = (wholeSource path cwd).take (vfsPathMax - 1) := by
  rw [pathSource, wholeSource]
  split_ifs <;> rfl

/-! ### When the function refuses -/

theorem foldlM_appendComp_cons :
    ∀ (cs done : List (List Byte)), done ≠ [] → (∀ c ∈ done ++ cs, ValidName c) →
      (pathString done).length < outSize →
      cs.foldlM (appendComp outSize) (pathString done) =
        if (pathString (done ++ cs)).length < outSize then some (pathString (done ++ cs))
        else none := by
  intro cs
  induction cs with
  | nil =>
    intro done _ _ hlen
    simp [hlen]
  | cons c cs ih =>
    intro done hne hv hlen
    have hassoc : done ++ [c] ++ cs = done ++ c :: cs := by simp
    have hsnoc : (pathString (done ++ [c])).length = (pathString done).length + 1 + c.length := by
      rw [pathString_snoc, pathString_of_ne_nil hne]
      simp
      omega
    rw [List.foldlM_cons, appendComp_eq (fun d hd => hv d (by simp [hd]))]
    by_cases hfit : outSize ≤ (pathString (done ++ [c])).length
    · have hlong : ¬(pathString (done ++ c :: cs)).length < outSize := by
        have := length_pathString_le_append (done ++ [c]) cs (by simp)
        rw [hassoc, ← pathString_of_ne_nil (by simp)] at this
        omega
      rw [if_pos (by omega), if_neg hlong]
      rfl
    · rw [if_neg (by omega), Option.bind_eq_bind, Option.bind_some,
        ih (done ++ [c]) (by simp) (by simpa using hv) (by omega), hassoc]

/-- **The output loop** writes the path string of the components, exactly when there is room. -/
theorem foldlM_appendComp_nil (hv : ∀ c ∈ comps, ValidName c) (h2 : 2 ≤ outSize) :
    comps.foldlM (appendComp outSize) [slash] =
      if outSize < roomFor comps then none else some (pathString comps) := by
  cases comps with
  | nil =>
    have hone : 1 < outSize := h2
    simp [roomFor, hone]
  | cons c cs =>
    have hfirst := @appendComp_eq outSize [] c (by simp)
    rw [pathString_nil, List.nil_append] at hfirst
    have hlen : (pathString [c]).length = c.length + 1 := by simp
    rw [List.foldlM_cons, hfirst, List.length_singleton]
    have hroom : roomFor (c :: cs) = (pathString (c :: cs)).length +
        if cs = [] then 2 else 1 := by
      cases cs <;> simp [roomFor]
    by_cases hfit : outSize < 1 + c.length + 2
    · have hlong : outSize < roomFor (c :: cs) := by
        rw [hroom]
        cases cs with
        | nil =>
          rw [if_pos rfl]
          omega
        | cons d cs =>
          have := length_pathString_le_append [c] (d :: cs) (by simp)
          have hd : d ≠ [] := (hv d (by simp)).ne_nil
          have hdpos := List.length_pos_iff.2 hd
          rw [if_neg (by simp)]
          simp only [pathString_cons, List.length_cons, List.length_append, Sep.joinPre_cons]
          omega
      rw [if_pos hfit, if_pos hlong]
      rfl
    · rw [if_neg hfit, Option.bind_eq_bind, Option.bind_some,
        foldlM_appendComp_cons cs [c] (by simp) hv (by omega), List.singleton_append, hroom]
      cases cs with
      | nil => rw [if_pos (by omega), if_pos rfl, if_neg (by omega)]
      | cons d cs =>
        rw [if_neg (List.cons_ne_nil d cs)]
        split_ifs <;> first | rfl | omega

variable {out : List Byte}

/-- **What the function returns**, into a buffer of any size. -/
theorem vfsNormalize_eq_some_iff_room (hp : 0 ∉ path) (hc : 0 ∉ cwd) :
    vfsNormalize path cwd outSize = some out ↔
      ∃ comps, pathComps (pathSource path cwd) = some comps ∧ roomFor comps ≤ outSize ∧
        out = pathString comps := by
  have h0 : 0 ∉ pathSource path cwd := zero_notMem_pathSource hp hc
  have htwo : ∀ comps : List (List Byte), 2 ≤ roomFor comps := by
    intro comps
    cases comps with
    | nil => simp [roomFor]
    | cons c cs =>
      rw [roomFor, pathString_cons, List.length_cons]
      split_ifs <;> omega
  rw [vfsNormalize]
  by_cases hzero : outSize = 0
  · rw [if_pos hzero]
    refine ⟨by simp, ?_⟩
    rintro ⟨comps, -, hroom, -⟩
    have := htwo comps
    omega
  rw [if_neg hzero, Option.bind_eq_some_iff]
  refine exists_congr fun comps => and_congr_right fun hcomps => ?_
  have hcan := canonical_of_pathComps h0 hcomps
  by_cases h2 : outSize < 2
  · have := htwo comps
    rw [if_pos h2]
    refine ⟨by simp, fun h => absurd h.1 (by omega)⟩
  · rw [if_neg h2, foldlM_appendComp_nil hcan.valid (by omega)]
    split_ifs with hroom
    · exact ⟨by simp, fun h => absurd h.1 (by omega)⟩
    · exact ⟨fun h => ⟨by omega, (Option.some_inj.1 h).symm⟩, fun h => by rw [h.2]⟩

/-- **When the function refuses.** -/
theorem vfsNormalize_eq_none_iff (hp : 0 ∉ path) (hc : 0 ∉ cwd) :
    vfsNormalize path cwd outSize = none ↔ Refused path cwd outSize := by
  rw [Option.eq_none_iff_forall_ne_some]
  constructor
  · intro h comps hcomps
    by_contra hroom
    exact h _ ((vfsNormalize_eq_some_iff_room hp hc).2 ⟨comps, hcomps, by omega, rfl⟩)
  · intro h out hout
    obtain ⟨comps, hcomps, hroom, -⟩ := (vfsNormalize_eq_some_iff_room hp hc).1 hout
    have := h comps hcomps
    omega

/-! ### The fold -/

theorem foldlM_pushComp_eq {ts acc out : List (List Byte)} (h : ts.foldlM pushComp acc = some out) :
    out = ts.foldl canonStep acc := by
  induction ts generalizing acc with
  | nil =>
    rw [List.foldlM_nil, Option.pure_def, Option.some_inj] at h
    exact h.symm
  | cons t ts ih =>
    rw [List.foldlM_cons, Option.bind_eq_bind, Option.bind_eq_some_iff] at h
    obtain ⟨acc', hpush, h⟩ := h
    have hstep : acc' = canonStep acc t := by
      rw [pushComp] at hpush
      rw [canonStep]
      split_ifs at hpush ⊢ <;> exact (Option.some_inj.1 hpush).symm
    rw [List.foldl_cons, ← hstep]
    exact ih h

theorem depth_of_foldlM_pushComp {ts acc out : List (List Byte)}
    (h : ts.foldlM pushComp acc = some out) (hacc : acc.length ≤ vfsMaxComponents) :
    ∀ cs ds, ts = cs ++ ds → (cs.foldl canonStep acc).length ≤ vfsMaxComponents := by
  induction ts generalizing acc with
  | nil =>
    intro cs ds hcs
    rw [(List.append_eq_nil_iff.1 hcs.symm).1]
    exact hacc
  | cons t ts ih =>
    intro cs ds hcs
    rw [List.foldlM_cons, Option.bind_eq_bind, Option.bind_eq_some_iff] at h
    obtain ⟨acc', hpush, h⟩ := h
    cases cs with
    | nil => exact hacc
    | cons c cs =>
      rw [List.cons_append, List.cons.injEq] at hcs
      obtain ⟨rfl, hcs⟩ := hcs
      rw [pushComp] at hpush
      have hstep : acc' = canonStep acc t ∧ acc'.length ≤ vfsMaxComponents := by
        rw [canonStep]
        split_ifs at hpush ⊢
        · obtain rfl := Option.some_inj.1 hpush
          exact ⟨rfl, hacc⟩
        · obtain rfl := Option.some_inj.1 hpush
          refine ⟨rfl, ?_⟩
          rw [List.length_dropLast]
          omega
        · obtain rfl := Option.some_inj.1 hpush
          refine ⟨rfl, ?_⟩
          rw [List.length_append, List.length_singleton]
          omega
      rw [List.foldl_cons, ← hstep.1]
      exact ih h hstep.2 cs ds hcs

theorem length_joinPre_foldl_canonStep (ts acc : List (List Byte)) :
    (Sep.joinPre slash (ts.foldl canonStep acc)).length ≤ (Sep.joinPre slash (acc ++ ts)).length := by
  induction ts generalizing acc with
  | nil => simp
  | cons t ts ih =>
    rw [List.foldl_cons]
    refine (ih (canonStep acc t)).trans ?_
    have hdrop : (Sep.joinPre slash acc.dropLast).length ≤ (Sep.joinPre slash acc).length := by
      rcases List.eq_nil_or_concat acc with rfl | ⟨init, last, rfl⟩
      · simp
      · rw [List.concat_eq_append, List.dropLast_concat, Sep.joinPre_snoc, List.length_append]
        omega
    rw [canonStep]
    split_ifs
    all_goals
      simp only [Sep.joinPre_append, Sep.joinPre_cons, Sep.joinPre_nil, List.length_append,
        List.length_cons, List.length_nil]
      omega

theorem length_joinPre_map_take (n : ℕ) (ts : List (List Byte)) :
    (Sep.joinPre slash (ts.map (·.take n))).length ≤ (Sep.joinPre slash ts).length := by
  induction ts with
  | nil => simp
  | cons t ts ih =>
    rw [List.map_cons, Sep.joinPre_cons, Sep.joinPre_cons, List.length_cons, List.length_cons,
      List.length_append, List.length_append, List.length_take]
    omega

theorem length_pathString_le_source {source : List Byte} (hs : source.head? = some slash)
    (h : pathComps source = some comps) : (pathString comps).length ≤ source.length := by
  obtain ⟨rest, rfl⟩ : ∃ rest, source = slash :: rest := by
    cases source with
    | nil => simp at hs
    | cons c rest => exact ⟨rest, by rw [List.head?_cons, Option.some_inj] at hs; rw [hs]⟩
  rw [pathString]
  split_ifs with hnil
  · simp
  · rw [foldlM_pushComp_eq h]
    calc (Sep.joinPre slash ((pathTokens (slash :: rest)).foldl canonStep [])).length
        ≤ (Sep.joinPre slash (pathTokens (slash :: rest))).length :=
          length_joinPre_foldl_canonStep _ []
      _ ≤ (Sep.joinPre slash (Sep.pieces slash rest)).length := by
          rw [pathTokens, Sep.pieces_sep_cons]
          exact length_joinPre_map_take _ _
      _ ≤ (slash :: rest).length := Sep.length_joinPre_pieces slash rest

theorem pathComps_uncut (hs : (wholeSource path cwd).length < vfsPathMax)
    (hn : ∀ c ∈ Sep.pieces slash (wholeSource path cwd), c.length ≤ vfsNameMax) :
    pathComps (pathSource path cwd) =
      (Sep.pieces slash (wholeSource path cwd)).foldlM pushComp [] := by
  rw [pathSource_eq_take, List.take_of_length_le (Nat.le_sub_one_of_lt hs), pathComps, pathTokens]
  congr 1
  conv_rhs => rw [← List.map_id (Sep.pieces slash (wholeSource path cwd))]
  exact List.map_congr_left fun c hc => List.take_of_length_le (hn c hc)

/-! ### The equivalence -/

theorem vfsNormalize_pathString_room (h : Canonical comps) (cwd' : CString)
    (hlen : (pathString comps).length < vfsPathMax) (hroom : roomFor comps ≤ outSize) :
    vfsNormalize (pathString comps) cwd'.chars outSize = some (pathString comps) := by
  refine (vfsNormalize_eq_some_iff_room (zero_notMem_pathString h.valid) cwd'.nul_free).2
    ⟨comps, ?_, hroom, rfl⟩
  rw [pathSource, if_pos (head?_pathString comps),
    List.take_of_length_le (Nat.le_sub_one_of_lt hlen), pathComps_pathString h]

theorem length_lt_of_vfsNormalize (hp : 0 ∉ path) (hc : 0 ∉ cwd)
    (habs : path.head? = some slash) (h : vfsNormalize path cwd outSize = some out) :
    out.length < vfsPathMax := by
  obtain ⟨comps, hcomps, -, rfl⟩ := (vfsNormalize_eq_some_iff_room hp hc).1 h
  rw [pathSource, if_pos habs] at hcomps
  have hhead : (path.take (vfsPathMax - 1)).head? = some slash := by
    rw [List.head?_take, if_neg (by norm_num), habs]
  have hle := length_pathString_le_source hhead hcomps
  rw [List.length_take] at hle
  have hmax : vfsPathMax = 256 := rfl
  omega

theorem normalizes_of_uncut (hp : 0 ∉ path) (hc : 0 ∉ cwd) (hu : Uncut path cwd) :
    Normalizes path cwd outSize := by
  have hsome : ∀ out, vfsNormalize path cwd outSize = some out →
      (Sep.pieces slash (wholeSource path cwd)).foldlM pushComp [] =
          some (canonicalPath path cwd) ∧
        roomFor (canonicalPath path cwd) ≤ outSize ∧ out = pathString (canonicalPath path cwd) ∧
        Canonical (canonicalPath path cwd) := by
    intro out hout
    obtain ⟨comps, hcomps, hroom, rfl⟩ := (vfsNormalize_eq_some_iff_room hp hc).1 hout
    have hcan := canonical_of_pathComps (zero_notMem_pathSource hp hc) hcomps
    rw [pathComps_uncut hu.source hu.names] at hcomps
    obtain rfl : comps = canonicalPath path cwd := foldlM_pushComp_eq hcomps
    exact ⟨hcomps, hroom, rfl, hcan⟩
  refine ⟨fun out hout => (hsome out hout).2.2.1, fun hlimits => ?_, fun out cwd' hout => ?_⟩
  · refine Option.eq_none_iff_forall_ne_some.2 fun out hout => hlimits ?_
    obtain ⟨hfold, hroom, -, -⟩ := hsome out hout
    refine ⟨hu.source, hu.names, depth_of_foldlM_pushComp hfold (Nat.zero_le _), ?_⟩
    rw [roomFor] at hroom
    split_ifs at hroom <;> omega
  · obtain ⟨-, hroom, rfl, hcan⟩ := hsome out hout
    exact vfsNormalize_pathString_room hcan cwd' hu.output hroom

theorem uncut_of_normalizes (hp : 0 ∉ path) (hc : 0 ∉ cwd)
    (hn : Normalizes path cwd outSize) (hout : vfsNormalize path cwd outSize = some out) :
    Uncut path cwd := by
  have hlimits : WithinLimits path cwd outSize := by
    by_contra hnot
    simp [hn.refuses hnot] at hout
  refine ⟨hlimits.source, hlimits.names, ?_⟩
  obtain ⟨comps, hcomps, -, rfl⟩ := (vfsNormalize_eq_some_iff_room hp hc).1 hout
  have hvalid := (canonical_of_pathComps (zero_notMem_pathSource hp hc) hcomps).valid
  rw [← hn.canonical _ hout]
  -- read again, a longer output would lose its last byte
  exact length_lt_of_vfsNormalize (zero_notMem_pathString hvalid) hc (head?_pathString comps)
    (hn.fixed _ ⟨cwd, hc⟩ hout)

/-- **`vfs_normalize` is right exactly when nothing is cut, or a limit that is checked makes it
refuse**; of two inputs it is right for, those with different canonical paths never give the same
output. -/
theorem normalizes_iff (path cwd : CString) (outSize : ℕ) :
    (Normalizes path.chars cwd.chars outSize ↔
      Uncut path.chars cwd.chars ∨ Refused path.chars cwd.chars outSize) ∧
    ∀ (path' cwd' : CString) (outSize' : ℕ) (out : List Byte),
      Normalizes path.chars cwd.chars outSize → Normalizes path'.chars cwd'.chars outSize' →
      vfsNormalize path.chars cwd.chars outSize = some out →
      vfsNormalize path'.chars cwd'.chars outSize' = some out →
        canonicalPath path.chars cwd.chars = canonicalPath path'.chars cwd'.chars := by
  refine ⟨⟨fun hn => ?_, fun h => ?_⟩, ?_⟩
  · by_cases hnone : vfsNormalize path.chars cwd.chars outSize = none
    · exact .inr ((vfsNormalize_eq_none_iff path.nul_free cwd.nul_free).1 hnone)
    · obtain ⟨out, hout⟩ := Option.ne_none_iff_exists'.1 hnone
      exact .inl (uncut_of_normalizes path.nul_free cwd.nul_free hn hout)
  · rcases h with hu | hr
    · exact normalizes_of_uncut path.nul_free cwd.nul_free hu
    · have hnone := (vfsNormalize_eq_none_iff path.nul_free cwd.nul_free).2 hr
      exact ⟨by simp [hnone], fun _ => hnone, by simp [hnone]⟩
  · intro path' cwd' outSize' out hn hn' hout hout'
    have hvalid : ∀ {path cwd : CString} {outSize : ℕ}, Normalizes path.chars cwd.chars outSize →
        vfsNormalize path.chars cwd.chars outSize = some out →
        ∀ c ∈ canonicalPath path.chars cwd.chars, ValidName c := by
      intro path cwd outSize hn hout
      have hu := uncut_of_normalizes path.nul_free cwd.nul_free hn hout
      obtain ⟨comps, hcomps, -, -⟩ :=
        (vfsNormalize_eq_some_iff_room path.nul_free cwd.nul_free).1 hout
      have hcan := canonical_of_pathComps (zero_notMem_pathSource path.nul_free cwd.nul_free) hcomps
      rw [pathComps_uncut hu.source hu.names] at hcomps
      obtain rfl : comps = canonicalPath path.chars cwd.chars := foldlM_pushComp_eq hcomps
      exact hcan.valid
    exact pathString_injective (hvalid hn hout) (hvalid hn' hout')
      ((hn.canonical _ hout).symm.trans (hn'.canonical _ hout'))

/-- **A component of 64 letters names another file**: its last letter is dropped. -/
theorem not_normalizes : ¬∀ (path cwd : CString) (outSize : ℕ),
    Normalizes path.chars cwd.chars outSize := by
  intro h
  have hout : vfsNormalize (slash :: List.replicate 64 97) [slash] vfsPathMax =
      some (slash :: List.replicate 63 97) := by decide +kernel
  have hcanon := (h ⟨slash :: List.replicate 64 97, by decide +kernel⟩ ⟨[slash], by decide⟩
    vfsPathMax).canonical _ hout
  have hlen := congrArg List.length hcanon
  revert hlen
  decide +kernel

end Tnu.Vfs
