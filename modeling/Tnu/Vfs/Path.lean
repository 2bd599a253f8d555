/-
**Path normalisation.**

`vfs_normalize` of `kernel/fs/vfs.c` turns a path and a working directory into the absolute path
every other operation of the file system works on: it cuts the path at slashes, drops `.` and
empty components, lets `..` remove the component before it, and writes the rest out again, inside
three limits (255 bytes, 63 bytes a component, 32 components).  This module embeds the function
and shows that what it returns is a *canonical* path, on which it is the identity: looking a
canonical path up never depends on how it was written.

Main results:

* `canonical_of_pathComps` — **the components are canonical**;
* `vfsNormalize_pathString` — **a canonical path is a fixed point**.
-/

import Tnu.CString
import Tnu.Lib.Sep

set_option autoImplicit false

namespace Tnu.Vfs

/-! ### The function -/

abbrev vfsNameMax : ℕ := 63

abbrev vfsPathMax : ℕ := 256

abbrev vfsMaxComponents : ℕ := 32

/-- `'/'`. -/
def slash : Byte := 47

@[simp] theorem zero_ne_slash : (0 : Byte) ≠ slash := by decide

/-- `"."`. -/
abbrev dot : List Byte := [46]

/-- `".."`. -/
abbrev dotdot : List Byte := [46, 46]

/-- The `source` buffer of `vfs_normalize`: the path itself when it is absolute, else
`"%s/%s"` of the working directory and the path; both cut to the buffer. -/
def pathSource (path cwd : List Byte) : List Byte :=
  if path.head? = some slash then path.take (vfsPathMax - 1)
  else ((if cwd = [] then [slash] else cwd) ++ slash :: path).take (vfsPathMax - 1)

/-- The scanning loop: the runs between slashes, each cut to `VFS_NAME_MAX` bytes. -/
def pathTokens (source : List Byte) : List (List Byte) :=
  (Sep.pieces slash source).map (·.take vfsNameMax)

/-- One turn of the loop over components: `.` is dropped, `..` removes the last kept component,
anything else is kept while there is room. -/
def pushComp (comps : List (List Byte)) (comp : List Byte) : Option (List (List Byte)) :=
  if comp = dot then some comps
  else if comp = dotdot then some comps.dropLast
  else if vfsMaxComponents ≤ comps.length then none
  else some (comps ++ [comp])

/-- The components a source string stands for; `none` when there are more than 32. -/
def pathComps (source : List Byte) : Option (List (List Byte)) :=
  (pathTokens source).foldlM pushComp []

/-- One turn of the output loop: append a component to `out`, inside a buffer of `outSize`. -/
def appendComp (outSize : ℕ) (out comp : List Byte) : Option (List Byte) :=
  if outSize < out.length + comp.length + 2 then none
  else some ((if out = [slash] then out else out ++ [slash]) ++ comp)

/-- `vfs_normalize`: `none` is the error return `-1`. -/
def vfsNormalize (path cwd : List Byte) (outSize : ℕ) : Option (List Byte) :=
  if outSize = 0 then none
  else (pathComps (pathSource path cwd)).bind fun comps =>
    if outSize < 2 then none else comps.foldlM (appendComp outSize) [slash]

/-! ### Components -/

/-- A component `vfs_normalize` can keep. -/
structure ValidName (c : List Byte) : Prop where
  ne_nil : c ≠ []
  length_le : c.length ≤ vfsNameMax
  no_slash : slash ∉ c
  no_nul : 0 ∉ c
  ne_dot : c ≠ dot
  ne_dotdot : c ≠ dotdot

/-- A list of components `vfs_normalize` can return. -/
structure Canonical (comps : List (List Byte)) : Prop where
  valid : ∀ c ∈ comps, ValidName c
  length_le : comps.length ≤ vfsMaxComponents

/-- The absolute path of a list of components: `/` for the empty list, else `/a/b/c`. -/
def pathString (comps : List (List Byte)) : List Byte :=
  if comps = [] then [slash] else Sep.joinPre slash comps

@[simp] theorem pathString_nil : pathString [] = [slash] := rfl

variable {cs ds comps : List (List Byte)} {c cwd path source : List Byte}

theorem pathString_of_ne_nil (h : comps ≠ []) :
    pathString comps = Sep.joinPre slash comps := if_neg h

@[simp] theorem pathString_cons (c : List Byte) (comps : List (List Byte)) :
    pathString (c :: comps) = slash :: (c ++ Sep.joinPre slash comps) := by
  simp [pathString]

theorem head?_pathString (comps : List (List Byte)) :
    (pathString comps).head? = some slash := by
  cases comps <;> simp

theorem pathString_snoc (comps : List (List Byte)) (c : List Byte) :
    pathString (comps ++ [c]) = Sep.joinPre slash comps ++ slash :: c := by
  rw [pathString_of_ne_nil (by simp), Sep.joinPre_snoc]

theorem pieces_pathString (h : ∀ c ∈ comps, ValidName c) :
    Sep.pieces slash (pathString comps) = comps := by
  cases comps with
  | nil => simp [Sep.pieces_sep_cons]
  | cons c comps =>
    rw [pathString_of_ne_nil (by simp)]
    exact Sep.pieces_joinPre (fun p hp => (h p hp).ne_nil) (fun p hp => (h p hp).no_slash)

theorem pathTokens_pathString (h : ∀ c ∈ comps, ValidName c) :
    pathTokens (pathString comps) = comps := by
  rw [pathTokens, pieces_pathString h]
  conv_rhs => rw [← List.map_id comps]
  exact List.map_congr_left fun c hc => List.take_of_length_le (h c hc).length_le

theorem pathTokens_tail_pathString (h : ∀ c ∈ comps, ValidName c) :
    pathTokens (pathString comps).tail = comps := by
  have ht := pathTokens_pathString h
  cases comps with
  | nil => simp [pathTokens]
  | cons c comps =>
    rw [pathString_cons] at ht ⊢
    rwa [pathTokens, Sep.pieces_sep_cons] at ht

theorem pathString_injective (hc : ∀ c ∈ cs, ValidName c)
    (hd : ∀ d ∈ ds, ValidName d) (h : pathString cs = pathString ds) : cs = ds := by
  rw [← pathTokens_pathString hc, h, pathTokens_pathString hd]

theorem pushComp_valid (hc : ValidName c)
    (hlen : comps.length < vfsMaxComponents) : pushComp comps c = some (comps ++ [c]) := by
  rw [pushComp, if_neg hc.ne_dot, if_neg hc.ne_dotdot, if_neg (by omega)]

theorem foldlM_pushComp_valid :
    ∀ (cs acc : List (List Byte)), (∀ c ∈ cs, ValidName c) →
      acc.length + cs.length ≤ vfsMaxComponents → cs.foldlM pushComp acc = some (acc ++ cs) := by
  intro cs
  induction cs with
  | nil => intro acc _ _; simp
  | cons c cs ih =>
    intro acc hv hlen
    have hlt : acc.length < vfsMaxComponents := by simp at hlen; omega
    rw [List.foldlM_cons, pushComp_valid (hv c (by simp)) hlt, Option.bind_eq_bind,
      Option.bind_some, ih _ (fun d hd => hv d (by simp [hd])) (by simp at hlen ⊢; omega)]
    simp

theorem canonical_pushComp {comps' : List (List Byte)}
    (hcomps : Canonical comps) (hne : c ≠ []) (hlen : c.length ≤ vfsNameMax) (hs : slash ∉ c)
    (h0 : 0 ∉ c) (h : pushComp comps c = some comps') : Canonical comps' := by
  unfold pushComp at h
  split_ifs at h with hd hdd hmax
  · cases h
    exact hcomps
  · cases h
    refine ⟨fun d hd => hcomps.valid d (List.mem_of_mem_dropLast hd), ?_⟩
    have := hcomps.length_le
    simp only [List.length_dropLast]
    omega
  · cases h
    refine ⟨fun d hd' => ?_, by simp; omega⟩
    rcases List.mem_append.1 hd' with hd' | hd'
    · exact hcomps.valid d hd'
    · rw [List.mem_singleton.1 hd']
      exact ⟨hne, hlen, hs, h0, hd, hdd⟩

theorem pathTokens_shape {t : List Byte} (h : t ∈ pathTokens source) :
    t ≠ [] ∧ t.length ≤ vfsNameMax ∧ slash ∉ t ∧ (0 ∉ source → 0 ∉ t) := by
  obtain ⟨p, hp, rfl⟩ := List.mem_map.1 h
  have hne : p ≠ [] := Sep.ne_nil_of_mem_pieces hp
  refine ⟨by simp [List.take_eq_nil_iff, hne], by simp, ?_, ?_⟩
  · exact fun hc => Sep.not_mem_of_mem_pieces hp (List.mem_of_mem_take hc)
  · exact fun h0 hc => h0 (Sep.mem_of_mem_pieces hp (List.mem_of_mem_take hc))

/-- **The components of a C string are canonical.** -/
theorem canonical_of_pathComps (h0 : 0 ∉ source)
    (h : pathComps source = some comps) : Canonical comps := by
  have key : ∀ (ts acc out : List (List Byte)), (∀ t ∈ ts, t ∈ pathTokens source) →
      Canonical acc → ts.foldlM pushComp acc = some out → Canonical out := by
    intro ts
    induction ts with
    | nil =>
      intro acc out _ hacc hf
      simp only [List.foldlM_nil, Option.pure_def, Option.some.injEq] at hf
      exact hf ▸ hacc
    | cons t ts ih =>
      intro acc out hts hacc hf
      obtain ⟨hne, hlen, hs, hnul⟩ := pathTokens_shape (hts t (by simp))
      rw [List.foldlM_cons, Option.bind_eq_bind, Option.bind_eq_some_iff] at hf
      obtain ⟨acc', hpush, hf⟩ := hf
      exact ih acc' out (fun u hu => hts u (by simp [hu]))
        (canonical_pushComp hacc hne hlen hs (hnul h0) hpush) hf
  exact key _ [] comps (fun t ht => ht) ⟨by simp, by simp⟩ h

theorem pathComps_pathString (h : Canonical comps) :
    pathComps (pathString comps) = some comps := by
  rw [pathComps, pathTokens_pathString h.valid]
  simpa using foldlM_pushComp_valid comps [] h.valid (by simpa using h.length_le)

/-! ### The output loop -/

theorem appendComp_eq {outSize : ℕ} {done : List (List Byte)} {c : List Byte}
    (hdone : ∀ d ∈ done, ValidName d) :
    appendComp outSize (pathString done) c =
      if outSize < (pathString done).length + c.length + 2 then none
      else some (pathString (done ++ [c])) := by
  unfold appendComp
  have hout : (if pathString done = [slash] then pathString done else pathString done ++ [slash])
      ++ c = pathString (done ++ [c]) := by
    cases done with
    | nil => simp
    | cons d done =>
      have hd : d ≠ [] := (hdone d (by simp)).ne_nil
      have hne : pathString (d :: done) ≠ [slash] := by simp [hd]
      rw [if_neg hne, pathString_snoc, pathString_of_ne_nil (by simp)]
      simp
  rw [hout]

theorem length_pathString_le_append (done cs : List (List Byte)) (h : done ++ cs ≠ []) :
    (Sep.joinPre slash done).length ≤ (pathString (done ++ cs)).length := by
  rw [pathString_of_ne_nil h, Sep.joinPre_append]
  simp

theorem foldlM_appendComp :
    ∀ (cs done : List (List Byte)), (∀ c ∈ done ++ cs, ValidName c) →
      (pathString done).length < vfsPathMax →
      cs.foldlM (appendComp vfsPathMax) (pathString done) =
        if (pathString (done ++ cs)).length < vfsPathMax then some (pathString (done ++ cs))
        else none := by
  intro cs
  induction cs with
  | nil =>
    intro done _ hlen
    simp [hlen]
  | cons c cs ih =>
    intro done hv hlen
    have hc : ValidName c := hv c (by simp)
    have hassoc : done ++ [c] ++ cs = done ++ c :: cs := by simp
    have hsnoc : (pathString (done ++ [c])).length =
        (Sep.joinPre slash done).length + 1 + c.length := by
      rw [pathString_snoc]; simp; omega
    -- the test of the loop counts one byte too many only for the first component, which is
    -- too short for that to matter
    have htest : vfsPathMax < (pathString done).length + c.length + 2 ↔
        vfsPathMax ≤ (pathString (done ++ [c])).length := by
      rw [hsnoc]
      have hlen : c.length ≤ 63 := hc.length_le
      have hmax : vfsPathMax = 256 := rfl
      cases done with
      | nil => simp; omega
      | cons d done => rw [pathString_of_ne_nil (by simp)]; omega
    rw [List.foldlM_cons, appendComp_eq (fun d hd => hv d (by simp [hd]))]
    by_cases hfit : vfsPathMax ≤ (pathString (done ++ [c])).length
    · have hlong : ¬ (pathString (done ++ c :: cs)).length < vfsPathMax := by
        have := length_pathString_le_append (done ++ [c]) cs (by simp)
        rw [hassoc, ← pathString_of_ne_nil (by simp)] at this
        omega
      rw [if_pos (htest.2 hfit), if_neg hlong]
      rfl
    · rw [if_neg fun hlt => hfit (htest.1 hlt), Option.bind_eq_bind, Option.bind_some,
        ih (done ++ [c]) (by simpa using hv) (by omega), hassoc]

theorem zero_notMem_pathSource (hp : 0 ∉ path) (hc : 0 ∉ cwd) :
    0 ∉ pathSource path cwd := by
  unfold pathSource
  split_ifs with habs hcwd
  · exact fun h => hp (List.mem_of_mem_take h)
  · intro h
    have := List.mem_of_mem_take h
    simp [hp] at this
  · intro h
    have := List.mem_of_mem_take h
    simp [hp, hc] at this

/-- **What `vfs_normalize` returns** into a `char[VFS_PATH_MAX]`: the path string of the
components, when it fits. -/
theorem vfsNormalize_eq_some_iff {out : List Byte} (hp : 0 ∉ path) (hc : 0 ∉ cwd) :
    vfsNormalize path cwd vfsPathMax = some out ↔
      ∃ comps, pathComps (pathSource path cwd) = some comps ∧ out = pathString comps ∧
        (pathString comps).length < vfsPathMax := by
  have h0 : 0 ∉ pathSource path cwd := zero_notMem_pathSource hp hc
  rw [vfsNormalize, if_neg (by decide), Option.bind_eq_some_iff]
  constructor
  · rintro ⟨comps, hcomps, hout⟩
    rw [if_neg (by decide)] at hout
    have hcan := canonical_of_pathComps h0 hcomps
    have hf := foldlM_appendComp comps [] (by simpa using hcan.valid) (by simp)
    rw [pathString_nil] at hf
    rw [hf] at hout
    simp only [List.nil_append] at hout
    split_ifs at hout with hlen
    exact ⟨comps, hcomps, (Option.some.inj hout).symm, hlen⟩
  · rintro ⟨comps, hcomps, rfl, hlen⟩
    refine ⟨comps, hcomps, ?_⟩
    have hcan := canonical_of_pathComps h0 hcomps
    have hf := foldlM_appendComp comps [] (by simpa using hcan.valid) (by simp)
    rw [pathString_nil] at hf
    rw [if_neg (by decide), hf, List.nil_append, if_pos hlen]

theorem zero_notMem_pathString (h : ∀ c ∈ comps, ValidName c) :
    0 ∉ pathString comps := by
  cases comps with
  | nil => simp
  | cons c comps =>
    rw [pathString_of_ne_nil (by simp)]
    intro h0
    obtain ⟨d, hd, h0d⟩ := List.mem_flatMap.1 h0
    have := (h d hd).no_nul
    simp [this] at h0d

/-! ### The components a path names -/

/-- The components a path names, when `vfs_normalize` into a `char[VFS_PATH_MAX]` accepts it. -/
def resolve (path cwd : List Byte) : Option (List (List Byte)) :=
  (pathComps (pathSource path cwd)).filter fun comps => (pathString comps).length < vfsPathMax

/-- Components a path can name: canonical ones whose path string fits the buffer. -/
structure Proper (comps : List (List Byte)) : Prop extends Canonical comps where
  fits : (pathString comps).length < vfsPathMax

theorem resolve_eq_some_iff :
    resolve path cwd = some comps ↔
      pathComps (pathSource path cwd) = some comps ∧ (pathString comps).length < vfsPathMax := by
  simp [resolve, Option.filter_eq_some_iff]

/-- **`vfs_normalize` writes out the components a path names.** -/
theorem vfsNormalize_eq (hp : 0 ∉ path) (hc : 0 ∉ cwd) :
    vfsNormalize path cwd vfsPathMax = (resolve path cwd).map pathString := by
  ext out
  rw [vfsNormalize_eq_some_iff hp hc, Option.map_eq_some_iff]
  constructor
  · rintro ⟨comps, hcomps, rfl, hlen⟩
    exact ⟨comps, resolve_eq_some_iff.2 ⟨hcomps, hlen⟩, rfl⟩
  · rintro ⟨comps, hres, rfl⟩
    obtain ⟨hcomps, hlen⟩ := resolve_eq_some_iff.1 hres
    exact ⟨comps, hcomps, rfl, hlen⟩

theorem proper_of_resolve (hp : 0 ∉ path)
    (hc : 0 ∉ cwd) (h : resolve path cwd = some comps) : Proper comps := by
  obtain ⟨hcomps, hlen⟩ := resolve_eq_some_iff.1 h
  exact ⟨canonical_of_pathComps (zero_notMem_pathSource hp hc) hcomps, hlen⟩

theorem resolve_pathString (h : Proper comps) :
    resolve (pathString comps) cwd = some comps := by
  have hsrc : pathSource (pathString comps) cwd = pathString comps := by
    rw [pathSource, if_pos (head?_pathString comps),
      List.take_of_length_le (Nat.le_sub_one_of_lt h.fits)]
  exact resolve_eq_some_iff.2 ⟨by rw [hsrc, pathComps_pathString h.toCanonical], h.fits⟩

theorem Proper.of_append (h : Proper (cs ++ ds)) : Proper cs where
  valid c hc := h.valid c (by simp [hc])
  length_le := by
    have := h.length_le
    simp only [List.length_append] at this
    omega
  fits := by
    have hfit : (pathString (cs ++ ds)).length < 256 := h.fits
    cases cs with
    | nil => simp
    | cons c cs =>
      have := length_pathString_le_append (c :: cs) ds (by simp)
      rw [pathString_of_ne_nil (by simp)]
      exact lt_of_le_of_lt this hfit

@[simp] theorem pathString_eq_slash (h : ∀ c ∈ comps, ValidName c) :
    pathString comps = [slash] ↔ comps = [] := by
  constructor
  · intro he
    exact pathString_injective h (by simp) (by simpa using he)
  · rintro rfl
    rfl

example : vfsNormalize (lit "../a/./b//c/..") (lit "/home/u") vfsPathMax = some (lit "/home/a/b") := by
  decide

end Tnu.Vfs
