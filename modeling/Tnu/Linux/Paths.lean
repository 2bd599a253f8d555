/-
**The two path resolvers of the Linux layer.**

A Linux program sees the tree under `/usr/linux` laid over the native one.  `linux_resolve_path` of
`compat/linux/syscall/linux_syscall.c`, which `open`, `stat` and `access` use, and
`linux_lookup_path` of `compat/linux/userspace/linux_exec.c`, which `execve` uses, each find the place
of a path in this overlay.  Both look at the path as it is spelled, before it is normalised.

The first also answers for files that are about to be created: it takes the place in the overlay as
soon as the directory is there.  The second wants a file, and goes on to the native tree; it also knows
other places for the dynamic loader.

Main result:

* `resolvesPlain` — **plain paths**, for every tree.
-/

import Tnu.Vfs.Wf

set_option autoImplicit false

namespace Tnu.Linux

open Tnu.Vfs

/-! ### The functions of the source -/

/-- The test that both resolvers begin with: the spelling starts like a path of the pseudo file
systems. -/
def pseudoPrefix (path : List Byte) : Bool :=
  (lit "/proc").isPrefixOf path || (lit "/dev").isPrefixOf path || (lit "/sys").isPrefixOf path

/-- `ksnprintf(linux_path, sizeof(linux_path), "/usr/linux%s", path)`. -/
def overlayPath (path : List Byte) : List Byte := (lit "/usr/linux" ++ path).take (vfsPathMax - 1)

/-- `linux_resolve_path` into a `char[VFS_PATH_MAX]`; `none` is the return value `-1`. -/
def linuxResolvePath (s : Pool) (path cwd : List Byte) : Option (List Byte) :=
  if path.head? = some slash then
    if pseudoPrefix path then vfsNormalize path [slash] vfsPathMax
    else
      let linuxPath := overlayPath path
      let parent := Sep.beforeLast slash linuxPath
      if (vfsLookup s linuxPath [slash]).isSome then some linuxPath
      else if slash ∈ linuxPath ∧ parent ≠ [] ∧ (vfsLookup s parent [slash]).isSome then some linuxPath
      else vfsNormalize path cwd vfsPathMax
  else vfsNormalize path cwd vfsPathMax

/-- The places of the musl loader that `linux_lookup_path` tries. -/
def muslPlaces (path : List Byte) : List (List Byte) :=
  if path = lit "/lib/ld-musl-x86_64.so.1" then [lit "/usr/linux/lib/libc.musl-x86_64.so.1"] else []

def glibcLoader (path : List Byte) : Bool :=
  path = lit "/lib64/ld-linux-x86-64.so.2" || path = lit "/lib/x86_64-linux-gnu/ld-linux-x86-64.so.2"

def glibcPlaces (path : List Byte) : List (List Byte) :=
  if glibcLoader path then
    [lit "/usr/linux/lib64/ld-linux-x86-64.so.2",
      lit "/usr/linux/lib/x86_64-linux-gnu/ld-linux-x86-64.so.2"]
  else []

def firstFound (s : Pool) (paths : List (List Byte)) : Option ℕ :=
  paths.findSome? fun path => vfsLookup s path [slash]

/-- The part of `linux_lookup_path` for an absolute path, before it turns to the native tree. -/
def lookupOverlay (s : Pool) (path : List Byte) : Option ℕ :=
  ((if pseudoPrefix path then vfsLookup s path [slash] else none).or
    (vfsLookup s (overlayPath path) [slash])).or
    ((firstFound s (muslPlaces path)).or (firstFound s (glibcPlaces path)))

/-- `linux_lookup_path`: the node it returns. -/
def linuxLookupPath (s : Pool) (path cwd : List Byte) : Option ℕ :=
  if path = [] then none
  else
    ((if path.head? = some slash then lookupOverlay s path else none).or (vfsLookup s path cwd)).or
      (vfsLookup s ((lit "/usr/linux/" ++ path).take (vfsPathMax - 1)) [slash])

/-- The node that `open`, `stat` and `access` find: they look up what `linux_resolve_path` wrote. -/
def linuxNode (s : Pool) (path cwd : List Byte) : Option ℕ :=
  (linuxResolvePath s path cwd).bind fun out => vfsLookup s out cwd

/-! ### What the resolver is for -/

/-- `/usr/linux`. -/
def linuxRoot : List (List Byte) := [lit "usr", lit "linux"]

/-- An absolute path, as a string. -/
structure Absolute (path : List Byte) : Prop where
  head : path.head? = some slash
  nul_free : 0 ∉ path

/-- Spellings of one path name one node, a path stays in the native tree or in the overlay, and both
resolvers name the same node. -/
structure ResolvesWell (s : Pool) (cwd : List Byte) : Prop where
  spelling : ∀ p q comps, Absolute p → Absolute q → resolve p [slash] = some comps →
    resolve q [slash] = some comps → linuxNode s p cwd = linuxNode s q cwd
  root : ∀ p comps out, Absolute p → resolve p [slash] = some comps →
    linuxResolvePath s p cwd = some out →
    resolve out [slash] = some comps ∨ resolve out [slash] = some (linuxRoot ++ comps)
  exec : ∀ p, Absolute p → linuxLookupPath s p cwd = linuxNode s p cwd

/-- The components stay below the root they start from, `depth` of them being there already, and leave
room for `/usr/linux`. -/
def Rooted : ℕ → List (List Byte) → Prop
  | _, [] => True
  | depth, comp :: comps =>
    if comp = dot then Rooted depth comps
    else if comp = dotdot then 0 < depth ∧ Rooted (depth - 1) comps
    else depth + linuxRoot.length < vfsMaxComponents ∧ Rooted (depth + 1) comps

/-- **A plain spelling** of an absolute path: it does not climb above its root, ends in a name, and
fits the buffers behind `/usr/linux/`. -/
structure Plain (path : List Byte) : Prop extends Absolute path where
  fits : (lit "/usr/linux/" ++ path).length < vfsPathMax
  rooted : Rooted 0 (pathTokens path)
  named : Sep.afterLast slash path ∉ [[], dot, dotdot]

def OverlayParent (s : Pool) (path : List Byte) : Prop :=
  (vfsLookup s (Sep.beforeLast slash (overlayPath path)) [slash]).isSome = true

/-- **What holds instead.**  Plain spellings of one path that both look like a pseudo path, or both do
not, name one node; a plain path stays in the native tree or in the overlay; a node that
`linux_resolve_path` names is the one that `linux_lookup_path` names, but for the glibc loader; and
where the latter goes on to the native tree, so does the former, unless the overlay has the directory
for the file or the path looks like a pseudo path. -/
structure ResolvesPlain (s : Pool) (cwd : List Byte) : Prop where
  spelling : ∀ p q, Plain p → Plain q → resolve p [slash] = resolve q [slash] →
    pseudoPrefix p = pseudoPrefix q → linuxNode s p cwd = linuxNode s q cwd
  root : ∀ p, Plain p → ∃ comps out, resolve p [slash] = some comps ∧
    linuxResolvePath s p cwd = some out ∧
    (resolve out [slash] = some comps ∨ resolve out [slash] = some (linuxRoot ++ comps))
  exec : ∀ p n, Absolute p → glibcLoader p = false → linuxNode s p cwd = some n →
    linuxLookupPath s p cwd = some n
  elsewhere : ∀ p, Plain p → glibcLoader p = false → pseudoPrefix p = false → ¬ OverlayParent s p →
    linuxLookupPath s p cwd = linuxNode s p cwd

/-! ### The components of a plain path -/

variable {s : Pool} {path p q cwd out : List Byte} {comps acc ts us : List (List Byte)} {depth : ℕ}

theorem length_joinPre_map_take (k : ℕ) (ps : List (List Byte)) :
    (Sep.joinPre slash (ps.map (·.take k))).length ≤ (Sep.joinPre slash ps).length := by
  induction ps with
  | nil => simp
  | cons p ps ih =>
    rw [List.map_cons, Sep.joinPre_cons, Sep.joinPre_cons, List.length_cons, List.length_cons,
      List.length_append, List.length_append, List.length_take]
    omega

theorem length_foldlM_pushComp (h : ts.foldlM pushComp acc = some comps) :
    (Sep.joinPre slash comps).length ≤
      (Sep.joinPre slash acc).length + (Sep.joinPre slash ts).length := by
  induction ts generalizing acc with
  | nil =>
    obtain rfl := Option.some.inj h
    omega
  | cons t ts ih =>
    rw [List.foldlM_cons, Option.bind_eq_bind, Option.bind_eq_some_iff] at h
    obtain ⟨acc', hpush, h⟩ := h
    have hrest := ih h
    have hcons : (Sep.joinPre slash (t :: ts)).length =
        t.length + 1 + (Sep.joinPre slash ts).length := by
      rw [Sep.joinPre_cons, List.length_cons, List.length_append]
      omega
    have hacc : (Sep.joinPre slash acc').length ≤ (Sep.joinPre slash acc).length + (t.length + 1) := by
      unfold pushComp at hpush
      split_ifs at hpush
      · cases hpush
        omega
      · cases hpush
        rcases List.eq_nil_or_concat acc with rfl | ⟨front, x, rfl⟩
        · simp
        · rw [List.concat_eq_append, List.dropLast_concat, Sep.joinPre_snoc, List.length_append]
          omega
      · cases hpush
        rw [Sep.joinPre_snoc, List.length_append, List.length_cons]
    omega

theorem length_pathString_le (hhead : path.head? = some slash)
    (h : pathComps path = some comps) : (pathString comps).length ≤ path.length := by
  obtain ⟨rest, rfl⟩ : ∃ rest, path = slash :: rest := by
    cases path with
    | nil => cases hhead
    | cons c rest => exact ⟨rest, by rw [Option.some.inj hhead]⟩
  have hlen := length_foldlM_pushComp h
  have htok := length_joinPre_map_take vfsNameMax (Sep.pieces slash (slash :: rest))
  have hsep := Sep.length_joinPre_pieces slash rest
  rw [Sep.pieces_sep_cons] at htok
  rw [pathTokens, Sep.pieces_sep_cons, Sep.joinPre_nil, List.length_nil] at hlen
  rw [pathString]
  split
  · simp
  · rw [List.length_cons]
    omega

/-- **A rooted path keeps what stands in front of it**: the components are read behind `base` as they
are read from the root. -/
theorem foldlM_pushComp_of_rooted (base acc : List (List Byte))
    (hbase : base.length = linuxRoot.length) (h : Rooted acc.length ts) :
    ∃ comps, ts.foldlM pushComp acc = some comps ∧
      ts.foldlM pushComp (base ++ acc) = some (base ++ comps) := by
  induction ts generalizing acc with
  | nil => exact ⟨acc, rfl, rfl⟩
  | cons t ts ih =>
    rw [Rooted] at h
    by_cases hdot : t = dot
    · rw [if_pos hdot] at h
      obtain ⟨comps, hc, hb⟩ := ih _ h
      refine ⟨comps, ?_, ?_⟩
      · rw [List.foldlM_cons, pushComp, if_pos hdot]
        exact hc
      · rw [List.foldlM_cons, pushComp, if_pos hdot]
        exact hb
    rw [if_neg hdot] at h
    by_cases hdd : t = dotdot
    · rw [if_pos hdd] at h
      have hne : acc ≠ [] := List.ne_nil_of_length_pos h.1
      have hdrop : Rooted acc.dropLast.length ts := by
        rw [List.length_dropLast]
        exact h.2
      obtain ⟨comps, hc, hb⟩ := ih _ hdrop
      refine ⟨comps, ?_, ?_⟩
      · rw [List.foldlM_cons, pushComp, if_neg hdot, if_pos hdd]
        exact hc
      · rw [List.foldlM_cons, pushComp, if_neg hdot, if_pos hdd, List.dropLast_append_of_ne_nil hne]
        exact hb
    · rw [if_neg hdd] at h
      have hroom : ¬ vfsMaxComponents ≤ acc.length := by omega
      have hroom' : ¬ vfsMaxComponents ≤ (base ++ acc).length := by
        rw [List.length_append]
        omega
      have hsnoc : Rooted (acc ++ [t]).length ts := by
        rw [List.length_append, List.length_singleton]
        exact h.2
      obtain ⟨comps, hc, hb⟩ := ih _ hsnoc
      refine ⟨comps, ?_, ?_⟩
      · rw [List.foldlM_cons, pushComp, if_neg hdot, if_neg hdd, if_neg hroom]
        exact hc
      · rw [List.foldlM_cons, pushComp, if_neg hdot, if_neg hdd, if_neg hroom', List.append_assoc]
        exact hb

theorem Rooted.of_append (h : Rooted depth (ts ++ us)) : Rooted depth ts := by
  induction ts generalizing depth with
  | nil => trivial
  | cons t ts ih =>
    rw [List.cons_append, Rooted] at h
    rw [Rooted]
    by_cases hdot : t = dot
    · rw [if_pos hdot] at h ⊢
      exact ih h
    · rw [if_neg hdot] at h ⊢
      by_cases hdd : t = dotdot
      · rw [if_pos hdd] at h ⊢
        exact ⟨h.1, ih h.2⟩
      · rw [if_neg hdd] at h ⊢
        exact ⟨h.1, ih h.2⟩

theorem pathTokens_append (p q : List Byte) :
    pathTokens (p ++ slash :: q) = pathTokens p ++ pathTokens q := by
  rw [pathTokens, Sep.pieces_append, List.map_append]
  rfl

theorem pathTokens_overlay (h : p = [] ∨ p.head? = some slash) :
    pathTokens (lit "/usr/linux" ++ p) = linuxRoot ++ pathTokens p := by
  have hroot : pathTokens (lit "/usr/linux") = linuxRoot := by decide
  cases p with
  | nil => rw [List.append_nil, hroot, pathTokens, Sep.pieces_nil, List.map_nil, List.append_nil]
  | cons c rest =>
    obtain rfl : c = slash := by simpa using h
    have hcut : pathTokens (slash :: rest) = pathTokens rest := by
      rw [pathTokens, Sep.pieces_sep_cons]
      rfl
    rw [pathTokens_append, hroot, hcut]

theorem resolve_of_pathComps (hhead : path.head? = some slash) (hlen : path.length < vfsPathMax)
    (h : pathComps path = some comps) : resolve path cwd = some comps := by
  refine resolve_eq_some_iff.2 ⟨?_, (length_pathString_le hhead h).trans_lt hlen⟩
  rw [pathSource, if_pos hhead, List.take_of_length_le (Nat.le_sub_one_of_lt hlen)]
  exact h

theorem eq_of_take_eq {t d : List Byte} (h : t.take vfsNameMax = d) (hd : d.length < vfsNameMax) :
    t = d := by
  have hlen := congrArg List.length h
  rw [List.length_take] at hlen
  rwa [List.take_of_length_le (by omega)] at h

theorem take_ne_of_name {t : List Byte} (h : t ∉ [[], dot, dotdot]) :
    t ≠ [] ∧ t.take vfsNameMax ≠ dot ∧ t.take vfsNameMax ≠ dotdot := by
  simp only [List.mem_cons, List.not_mem_nil, or_false, not_or] at h
  exact ⟨h.1, fun hd => h.2.1 (eq_of_take_eq hd (by decide)),
    fun hd => h.2.2 (eq_of_take_eq hd (by decide))⟩

/-- Where a path goes: natively, in the overlay, and for its directory in the overlay. -/
structure Places (path : List Byte) (comps : List (List Byte)) : Prop where
  native : ∀ cwd, resolve path cwd = some comps
  overlay : resolve (overlayPath path) [slash] = some (linuxRoot ++ comps)
  parent : resolve (Sep.beforeLast slash (overlayPath path)) [slash] =
    some (linuxRoot ++ comps.dropLast)
  again : resolve ((lit "/usr/linux/" ++ path).take (vfsPathMax - 1)) [slash] =
    some (linuxRoot ++ comps)

/-- **A plain path goes to one place in either tree**, however it is spelled. -/
theorem Plain.places (h : Plain path) : ∃ comps, Places path comps := by
  have hfits : (lit "/usr/linux").length + path.length + 1 < vfsPathMax := by
    have := h.fits
    rwa [List.length_append, show (lit "/usr/linux/").length = (lit "/usr/linux").length + 1 from rfl,
      Nat.add_right_comm] at this
  have hslash : slash ∈ path := List.mem_of_head? h.head
  obtain ⟨front, t, rfl, ht⟩ := Sep.exists_eq_append_cons hslash
  have hfront : front = [] ∨ front.head? = some slash := by
    cases front with
    | nil => exact .inl rfl
    | cons c front => exact .inr h.head
  have hname := h.named
  rw [Sep.afterLast_append ht] at hname
  obtain ⟨hne, hdot, hdd⟩ := take_ne_of_name hname
  have htoken : pathTokens t = [t.take vfsNameMax] := by
    rw [pathTokens, Sep.pieces_of_not_mem ht hne]
    rfl
  have hroot := h.rooted
  rw [pathTokens_append, htoken] at hroot
  have hover : overlayPath (front ++ slash :: t) = lit "/usr/linux" ++ (front ++ slash :: t) := by
    rw [overlayPath, List.take_of_length_le]
    rw [List.length_append]
    omega
  -- the components of the directory, then of the path itself
  obtain ⟨dir, hd, hdb⟩ := foldlM_pushComp_of_rooted linuxRoot [] rfl hroot.of_append
  obtain ⟨comps, hc, hcb⟩ := foldlM_pushComp_of_rooted linuxRoot [] rfl hroot
  have hcomps : comps.dropLast = dir := by
    rw [List.foldlM_append, Option.bind_eq_bind, hd, Option.bind_some, List.foldlM_cons,
      Option.bind_eq_bind, Option.bind_eq_some_iff] at hc
    obtain ⟨comps', hpush, hlast⟩ := hc
    obtain rfl := Option.some.inj hlast
    rw [pushComp, if_neg hdot, if_neg hdd] at hpush
    split at hpush
    · cases hpush
    · cases hpush
      rw [List.dropLast_concat]
  have hlinux : linuxRoot.foldlM pushComp [] = some linuxRoot := by decide
  have hbehind : ∀ {q ts cs}, pathTokens q = linuxRoot ++ ts →
      ts.foldlM pushComp (linuxRoot ++ []) = some (linuxRoot ++ cs) →
      pathComps q = some (linuxRoot ++ cs) := by
    intro q ts cs hq hts
    rw [pathComps, hq, List.foldlM_append, Option.bind_eq_bind, hlinux, Option.bind_some]
    simpa using hts
  have hrootTokens : pathTokens (lit "/usr/linux") = linuxRoot := by decide
  refine ⟨comps, fun cwd => ?_, ?_, ?_, ?_⟩
  · refine resolve_of_pathComps h.head (by omega) ?_
    rw [pathComps, pathTokens_append, htoken]
    exact hc
  · rw [hover]
    refine resolve_of_pathComps rfl (by rw [List.length_append]; omega) (hbehind ?_ hcb)
    rw [pathTokens_overlay (.inr h.head), pathTokens_append, htoken]
  · rw [hover, ← List.append_assoc, Sep.beforeLast_append ht, hcomps]
    refine resolve_of_pathComps rfl ?_ (hbehind (pathTokens_overlay hfront) hdb)
    rw [List.length_append] at hfits ⊢
    omega
  · have hlong : (lit "/usr/linux/" ++ (front ++ slash :: t)).take (vfsPathMax - 1) =
        lit "/usr/linux" ++ slash :: (front ++ slash :: t) :=
      List.take_of_length_le (Nat.le_sub_one_of_lt h.fits)
    rw [hlong]
    refine resolve_of_pathComps rfl ?_ (hbehind ?_ hcb)
    · rw [List.length_append, List.length_cons]
      omega
    · rw [pathTokens_append, hrootTokens, pathTokens_append, htoken]

/-! ### The nodes -/

theorem bind_vfsNormalize (s : Pool) {cwd' : List Byte} (hp : 0 ∉ path) (hc : 0 ∉ cwd) (hc' : 0 ∉ cwd') :
    (vfsNormalize path cwd vfsPathMax).bind (fun out => vfsLookup s out cwd') = vfsLookup s path cwd := by
  rw [vfsNormalize_eq hp hc, vfsLookup_eq s hp hc]
  cases hres : resolve path cwd with
  | none => rfl
  | some comps =>
    rw [Option.map_some, Option.bind_some, Option.bind_some]
    exact vfsLookup_pathString s (proper_of_resolve hp hc hres) hc'

theorem vfsLookup_of_head (s : Pool) (h : path.head? = some slash) (cwd cwd' : List Byte) :
    vfsLookup s path cwd = vfsLookup s path cwd' := by
  rw [vfsLookup, vfsLookup, vfsNormalize, vfsNormalize, pathSource, pathSource, if_pos h, if_pos h]

theorem overlayPath_head (path : List Byte) : (overlayPath path).head? = some slash := rfl

theorem overlayPath_nul_free (h : 0 ∉ path) : 0 ∉ overlayPath path := by
  intro h0
  rcases List.mem_append.1 (List.mem_of_mem_take h0) with h' | h'
  · exact absurd h' (by decide)
  · exact h h'

theorem overlayPath_parent (path : List Byte) :
    slash ∈ overlayPath path ∧ Sep.beforeLast slash (overlayPath path) ≠ [] := by
  have hmem : slash ∈ overlayPath path := List.mem_of_head? (overlayPath_head path)
  refine ⟨hmem, ?_⟩
  obtain ⟨a, b, heq, hb⟩ := Sep.exists_eq_append_cons hmem
  rw [heq, Sep.beforeLast_append hb]
  rintro rfl
  have htail : slash ∈ (overlayPath path).tail := by
    have hcons : (overlayPath path).tail =
        lit "usr" ++ slash :: (lit "linux" ++ path).take (vfsPathMax - 6) := rfl
    rw [hcons]
    simp
  rw [heq] at htail
  exact hb htail

/-- **The four ways** of `linux_resolve_path` with an absolute path. -/
theorem linuxNode_cases (s : Pool) (hp : Absolute path) (hc : 0 ∉ cwd) :
    (pseudoPrefix path = true ∧ linuxNode s path cwd = vfsLookup s path [slash]) ∨
    (pseudoPrefix path = false ∧ (vfsLookup s (overlayPath path) [slash]).isSome = true ∧
      linuxNode s path cwd = vfsLookup s (overlayPath path) [slash]) ∨
    (pseudoPrefix path = false ∧ vfsLookup s (overlayPath path) [slash] = none ∧ OverlayParent s path ∧
      linuxNode s path cwd = none) ∨
    (pseudoPrefix path = false ∧ vfsLookup s (overlayPath path) [slash] = none ∧
      ¬ OverlayParent s path ∧ linuxNode s path cwd = vfsLookup s path [slash]) := by
  have hroot : (0 : Byte) ∉ [slash] := by simp
  rw [linuxNode, linuxResolvePath, if_pos hp.head]
  by_cases hpseudo : pseudoPrefix path = true
  · rw [if_pos hpseudo]
    exact .inl ⟨hpseudo, bind_vfsNormalize s hp.nul_free hroot hc⟩
  have hfalse : pseudoPrefix path = false := by simpa using hpseudo
  rw [if_neg hpseudo]
  dsimp only
  by_cases hsome : (vfsLookup s (overlayPath path) [slash]).isSome = true
  · rw [if_pos hsome, Option.bind_some]
    exact .inr (.inl ⟨hfalse, hsome, vfsLookup_of_head s (overlayPath_head path) _ _⟩)
  have hnone : vfsLookup s (overlayPath path) [slash] = none := by simpa using hsome
  rw [if_neg hsome]
  obtain ⟨hmem, hne⟩ := overlayPath_parent path
  by_cases hparent : OverlayParent s path
  · rw [if_pos ⟨hmem, hne, hparent⟩, Option.bind_some,
      vfsLookup_of_head s (overlayPath_head path) cwd [slash]]
    exact .inr (.inr (.inl ⟨hfalse, hnone, hparent, hnone⟩))
  · rw [if_neg fun h => hparent h.2.2, bind_vfsNormalize s hp.nul_free hc hc,
      vfsLookup_of_head s hp.head cwd [slash]]
    exact .inr (.inr (.inr ⟨hfalse, hnone, hparent, rfl⟩))

theorem walk_none_of_prefix {n : ℕ} (h : walk s n ts = none) (us : List (List Byte)) :
    walk s n (ts ++ us) = none := by
  rw [walk_append, h]
  rfl

theorem Places.vfsLookup_overlay (h : Places path comps) (hp : 0 ∉ path) :
    vfsLookup s (overlayPath path) [slash] = walk s rootNode (linuxRoot ++ comps) := by
  rw [vfsLookup_eq s (overlayPath_nul_free hp) (by simp), h.overlay, Option.bind_some]

theorem Places.overlayParent_iff (h : Places path comps) (hp : 0 ∉ path) :
    OverlayParent s path ↔ (walk s rootNode (linuxRoot ++ comps.dropLast)).isSome = true := by
  have h0 : 0 ∉ Sep.beforeLast slash (overlayPath path) := by
    obtain ⟨a, b, heq, hb⟩ := Sep.exists_eq_append_cons (overlayPath_parent path).1
    have hnul := overlayPath_nul_free hp
    rw [heq] at hnul ⊢
    rw [Sep.beforeLast_append hb]
    exact fun h0 => hnul (List.mem_append_left _ h0)
  rw [OverlayParent, vfsLookup_eq s h0 (by simp), h.parent, Option.bind_some]

theorem Places.vfsLookup_native (h : Places path comps) (hp : 0 ∉ path) :
    vfsLookup s path [slash] = walk s rootNode comps := by
  rw [vfsLookup_eq s hp (by simp), h.native, Option.bind_some]

/-- **The node of a plain path** depends on its components and on how it begins. -/
theorem Places.linuxNode_eq (h : Places path comps) (hp : Absolute path) (hc : 0 ∉ cwd) :
    linuxNode s path cwd =
      if pseudoPrefix path then walk s rootNode comps
      else if (walk s rootNode (linuxRoot ++ comps)).isSome then walk s rootNode (linuxRoot ++ comps)
      else if (walk s rootNode (linuxRoot ++ comps.dropLast)).isSome then none
      else walk s rootNode comps := by
  have hnative := h.vfsLookup_native (s := s) hp.nul_free
  have hover := h.vfsLookup_overlay (s := s) hp.nul_free
  have hparent := h.overlayParent_iff (s := s) hp.nul_free
  rcases linuxNode_cases s hp hc with ⟨hps, hn⟩ | ⟨hps, hsome, hn⟩ | ⟨hps, hnone, hpar, hn⟩ |
    ⟨hps, hnone, hpar, hn⟩
  · rw [hn, if_pos hps, hnative]
  · rw [hover] at hsome hn
    rw [hn, if_neg (by simp [hps]), if_pos hsome]
  · rw [hover] at hnone
    rw [hn, if_neg (by simp [hps]), if_neg (by simp [hnone]), if_pos (hparent.1 hpar)]
  · rw [hover] at hnone
    rw [hn, if_neg (by simp [hps]), if_neg (by simp [hnone]), if_neg fun h' => hpar (hparent.2 h'),
      hnative]

/-- **Where a plain path goes** is the native place or the one in the overlay. -/
theorem Plain.linuxResolvePath_places (h : Plain path) (hc : 0 ∉ cwd) :
    ∃ comps out, resolve path [slash] = some comps ∧ linuxResolvePath s path cwd = some out ∧
      (resolve out [slash] = some comps ∨ resolve out [slash] = some (linuxRoot ++ comps)) := by
  obtain ⟨comps, hplaces⟩ := h.places
  have hnormal : ∀ cwd', 0 ∉ cwd' → vfsNormalize path cwd' vfsPathMax = some (pathString comps) := by
    intro cwd' hc'
    rw [vfsNormalize_eq h.nul_free hc', hplaces.native, Option.map_some]
  have hproper : Proper comps := proper_of_resolve h.nul_free hc (hplaces.native cwd)
  have hback : resolve (pathString comps) [slash] = some comps := resolve_pathString hproper
  refine ⟨comps, ?_⟩
  rw [linuxResolvePath, if_pos h.head]
  dsimp only
  split
  · exact ⟨_, hplaces.native _, hnormal _ (by simp), .inl hback⟩
  split
  · exact ⟨_, hplaces.native _, rfl, .inr hplaces.overlay⟩
  split
  · exact ⟨_, hplaces.native _, rfl, .inr hplaces.overlay⟩
  · exact ⟨_, hplaces.native _, hnormal _ hc, .inl hback⟩

/-! ### The other resolver -/

theorem firstFound_muslPlaces (h : ¬ OverlayParent s path) : firstFound s (muslPlaces path) = none := by
  rw [muslPlaces]
  split
  · next hmusl =>
      have hdir : resolve (lit "/usr/linux/lib") [slash] = some (linuxRoot ++ [lit "lib"]) := by decide
      have hfile : resolve (lit "/usr/linux/lib/libc.musl-x86_64.so.1") [slash] =
          some (linuxRoot ++ [lit "lib"] ++ [lit "libc.musl-x86_64.so.1"]) := by decide +kernel
      have hparent : Sep.beforeLast slash (overlayPath (lit "/lib/ld-musl-x86_64.so.1")) =
          lit "/usr/linux/lib" := by decide +kernel
      rw [hmusl, OverlayParent, hparent, vfsLookup_eq s (by decide) (by simp), hdir, Option.bind_some,
        Option.not_isSome_iff_eq_none] at h
      rw [firstFound, List.findSome?_cons, vfsLookup_eq s (by decide) (by simp), hfile,
        Option.bind_some, walk_none_of_prefix h]
      rfl
  · rfl

theorem firstFound_glibcPlaces (h : glibcLoader path = false) :
    firstFound s (glibcPlaces path) = none := by
  rw [glibcPlaces, if_neg (by simp [h])]
  rfl

/-- **A node that the first resolver names** is the one that the second returns. -/
theorem linuxLookupPath_of_linuxNode {n : ℕ} (hp : Absolute path) (hc : 0 ∉ cwd)
    (hg : glibcLoader path = false) (h : linuxNode s path cwd = some n) :
    linuxLookupPath s path cwd = some n := by
  have hne : path ≠ [] := fun h0 => by
    have := hp.head
    rw [h0] at this
    cases this
  rw [linuxLookupPath, if_neg hne, if_pos hp.head, lookupOverlay]
  rcases linuxNode_cases s hp hc with ⟨hps, hn⟩ | ⟨hps, hsome, hn⟩ | ⟨-, -, -, hn⟩ |
    ⟨hps, hnone, hpar, hn⟩
  · rw [if_pos hps, ← hn, h]
    rfl
  · rw [if_neg (by simp [hps]), Option.none_or, ← hn, h]
    rfl
  · rw [hn] at h
    cases h
  · rw [if_neg (by simp [hps]), Option.none_or, hnone, firstFound_muslPlaces hpar,
      firstFound_glibcPlaces hg, Option.none_or, Option.none_or, Option.none_or,
      vfsLookup_of_head s hp.head cwd [slash], ← hn, h]
    rfl

/-- **Where the overlay has no directory for the file**, both resolvers go on to the native tree. -/
theorem Plain.linuxLookupPath_elsewhere (h : Plain path) (hc : 0 ∉ cwd) (hg : glibcLoader path = false)
    (hps : pseudoPrefix path = false) (hpar : ¬ OverlayParent s path) :
    linuxLookupPath s path cwd = linuxNode s path cwd := by
  obtain ⟨comps, hplaces⟩ := h.places
  cases hnode : linuxNode s path cwd with
  | some n => exact linuxLookupPath_of_linuxNode h.toAbsolute hc hg hnode
  | none =>
    have hne : path ≠ [] := fun h0 => by
      have := h.head
      rw [h0] at this
      cases this
    have hdir : walk s rootNode (linuxRoot ++ comps.dropLast) = none := by
      simpa using mt (hplaces.overlayParent_iff h.nul_free).2 hpar
    have hover : walk s rootNode (linuxRoot ++ comps) = none := by
      rcases List.eq_nil_or_concat comps with rfl | ⟨front, x, rfl⟩
      · exact hdir
      · rw [List.concat_eq_append, List.dropLast_concat] at hdir
        rw [List.concat_eq_append, ← List.append_assoc]
        exact walk_none_of_prefix hdir _
    have hnative : vfsLookup s path [slash] = none := by
      rw [hplaces.linuxNode_eq h.toAbsolute hc, if_neg (by simp [hps]), if_neg (by simp [hover]),
        if_neg (by simp [hdir])] at hnode
      rw [hplaces.vfsLookup_native h.nul_free, hnode]
    have hlong : 0 ∉ (lit "/usr/linux/" ++ path).take (vfsPathMax - 1) := by
      intro h0
      rcases List.mem_append.1 (List.mem_of_mem_take h0) with h' | h'
      · exact absurd h' (by decide)
      · exact h.nul_free h'
    rw [linuxLookupPath, if_neg hne, if_pos h.head, lookupOverlay, if_neg (by simp [hps]),
      hplaces.vfsLookup_overlay h.nul_free, hover, firstFound_muslPlaces hpar,
      firstFound_glibcPlaces hg, vfsLookup_of_head s h.head cwd [slash], hnative,
      vfsLookup_eq s hlong (by simp), hplaces.again, Option.bind_some, hover]
    rfl

/-- **The path resolvers of the Linux layer**, for every tree and working directory. -/
theorem resolvesPlain (s : Pool) (cwd : CString) : ResolvesPlain s cwd.chars where
  spelling p q hp hq hsame hps := by
    obtain ⟨comps, hpl⟩ := hp.places
    obtain ⟨comps', hql⟩ := hq.places
    rw [hpl.native, hql.native] at hsame
    obtain rfl := Option.some.inj hsame
    rw [hpl.linuxNode_eq hp.toAbsolute cwd.nul_free, hql.linuxNode_eq hq.toAbsolute cwd.nul_free, hps]
  root p hp := hp.linuxResolvePath_places cwd.nul_free
  exec p n hp hg hn := linuxLookupPath_of_linuxNode hp cwd.nul_free hg hn
  elsewhere p hp hg hps hpar := hp.linuxLookupPath_elsewhere cwd.nul_free hg hps hpar

/-- The tree of `vfs_init` with an empty `/usr/linux`. -/
def linuxTree : Pool := (vfsMkdir vfsInit (lit "/usr/linux") [slash] (vfsSIfdir ||| 0o755) 0 0).1

/-- **The overlay has the directory for `/bin` but no `/bin`**: `linux_resolve_path` stays in the
overlay and names nothing, `linux_lookup_path` goes on to the native `/bin`. -/
theorem not_resolvesWell : ¬ ∀ (s : Pool) (cwd : List Byte), ResolvesWell s cwd := by
  intro h
  have hexec := (h linuxTree [slash]).exec (lit "/bin") ⟨rfl, by decide⟩
  have hnone : linuxNode linuxTree (lit "/bin") [slash] = none := by decide +kernel
  have hsome : linuxLookupPath linuxTree (lit "/bin") [slash] ≠ none := by decide +kernel
  exact hsome (hexec.trans hnone)

end Tnu.Linux
