/-
**What a star stands for.**

`expand_glob_arg` of `kernel/shell/tsh.c` compares the names of a directory with the last component of an
argument.  It copies that component into a buffer with room for the longest name, so that a longer component is
cut: then its first 63 bytes are the pattern.

Main results:

* `wildcardMatch_iff` — **the comparison is sound and complete**;
* `globLaw_iff` — **an argument stands for what it should exactly when the cut does not matter**;
* `not_globLaw` — one that stands for a name it does not match.
-/

import Tnu.Lib.Glob
import Tnu.Shell.Quoting

set_option autoImplicit false

namespace Tnu.Shell

open Vfs

/-! ### Soundness and completeness of the comparison -/

theorem wildcardLoop_iff {n : ℕ} {pattern : List Byte} (hn : pattern.length ≤ n) (text : List Byte) :
    wildcardLoop n pattern text = true ↔ Glob.Matches star pattern text := by
  induction n generalizing pattern text with
  | zero =>
    obtain rfl := List.eq_nil_of_length_eq_zero (Nat.le_zero.1 hn)
    rw [wildcardLoop.eq_def, Glob.matches_nil_iff, List.isEmpty_iff]
  | succ n ih =>
    cases pattern with
    | nil => rw [wildcardLoop.eq_def, Glob.matches_nil_iff, List.isEmpty_iff]
    | cons c cs =>
      rw [List.length_cons] at hn
      by_cases hc : c = star
      · subst hc
        have hrest : (cs.dropWhile (· = star)).length ≤ n := by
          have hle := (List.dropWhile_suffix (· = star) (l := cs)).length_le
          omega
        have htails : (text.tails.any fun t => wildcardLoop n (cs.dropWhile (· = star)) t) = true ↔
            ∃ rest, rest <:+ text ∧ Glob.Matches star (cs.dropWhile (· = star)) rest := by
          simp only [List.any_eq_true, List.mem_tails, ih hrest]
        rw [wildcardLoop.eq_def]
        dsimp only
        rw [if_pos rfl, ← Glob.matches_run_iff, Bool.or_eq_true, List.isEmpty_iff, htails,
          ← Glob.matches_star_iff]
        -- when only stars are left, no place has to be found
        refine ⟨fun h => h.elim (fun hnil => ?_) id, .inr⟩
        rw [hnil]
        exact Glob.matches_star_nil text
      · rw [wildcardLoop.eq_def]
        dsimp only
        rw [if_neg hc, Glob.matches_cons_iff hc]
        cases text with
        | nil => simp
        | cons t ts =>
          simp only [Bool.and_eq_true, decide_eq_true_eq, ih (Nat.le_of_succ_le_succ hn), List.cons.injEq]
          constructor
          · rintro ⟨rfl, h⟩
            exact ⟨ts, ⟨rfl, rfl⟩, h⟩
          · rintro ⟨rest, ⟨rfl, rfl⟩, h⟩
            exact ⟨rfl, h⟩

/-- **The comparison is sound and complete**: a name matches when it can be split along the pattern. -/
theorem wildcardMatch_iff (pattern text : List Byte) :
    wildcardMatch pattern text = true ↔ Glob.Matches star pattern text := wildcardLoop_iff le_rfl text

instance (pattern text : List Byte) : Decidable (Glob.Matches star pattern text) :=
  decidable_of_iff _ (wildcardMatch_iff pattern text)

/-! ### What an argument should stand for -/

def lastPart (arg : List Byte) : List Byte := Sep.afterLast slash arg

/-- The directory part of an argument; the working directory when there is none. -/
def dirPart (arg : List Byte) : List Byte :=
  if slash ∉ arg then dot else if Sep.beforeLast slash arg = [] then [slash] else Sep.beforeLast slash arg

def globArg (arg name : List Byte) : List Byte :=
  if slash ∉ arg then name else if dirPart arg = [slash] then slash :: name else dirPart arg ++ slash :: name

def childNames (sh : Sh) (d : ℕ) : List (List Byte) :=
  (children sh.kernel.vfs d).map fun n => (sh.kernel.vfs.nodes n).name.chars

def matched (sh : Sh) (arg : List Byte) (d : ℕ) : List (List Byte) :=
  (childNames sh d).filter (Glob.Matches star (lastPart arg))

/-- **An argument with a star in its last component**, of a directory that is there, and room for what it stands
for. -/
structure GlobCall (sh : Sh) (out : List (List Byte)) (arg : List Byte) (d : ℕ) : Prop where
  short : arg.length < vfsPathMax
  hasStar : star ∈ lastPart arg
  plain : star ∉ dirPart arg
  dir : vfsLookup sh.kernel.vfs (dirPart arg) sh.kernel.proc.cwd.chars = some d
  isDir : (sh.kernel.vfs.nodes d).type = .dir
  room : out.length + max 1 (matched sh arg d).length ≤ argvMax - 1
  fits : ∀ name ∈ matched sh arg d, (globArg arg name).length < vfsPathMax

/-- **What should be appended**: an argument for each name that matches, or the argument itself when none does. -/
def GlobLaw (sh : Sh) (out : List (List Byte)) (arg : List Byte) (d : ℕ) : Prop :=
  expandGlobArg sh out arg = out ++ if matched sh arg d = [] then [arg] else (matched sh arg d).map (globArg arg)

/-- The first 63 bytes of the last component match the same names as the whole, as far as there is room for
arguments. -/
def CutAgrees (sh : Sh) (out : List (List Byte)) (arg : List Byte) (d : ℕ) : Prop :=
  ((childNames sh d).filter (Glob.Matches star ((lastPart arg).take vfsNameMax))).take (argvMax - 1 - out.length) =
    matched sh arg d

/-! ### The parts of an argument -/

variable {sh : Sh} {out : List (List Byte)} {arg name : List Byte} {d : ℕ}

theorem lastPart_of_notMem (h : slash ∉ arg) : lastPart arg = arg := by
  have hall : arg.reverse.takeWhile (· ≠ slash) = arg.reverse := by
    rw [List.takeWhile_eq_self_iff]
    intro x hx
    exact decide_eq_true fun e => h (e ▸ List.mem_reverse.1 hx)
  rw [lastPart, Sep.afterLast, hall, List.reverse_reverse]

theorem length_globArg (h : name.length < (lastPart arg).length) : (globArg arg name).length < arg.length := by
  rw [globArg]
  by_cases hslash : slash ∈ arg
  · obtain ⟨front, last, rfl, hlast⟩ := Sep.exists_eq_append_cons hslash
    rw [lastPart, Sep.afterLast_append hlast] at h
    rw [if_neg (not_not.2 hslash), dirPart, if_neg (not_not.2 hslash), Sep.beforeLast_append hlast,
      List.length_append, List.length_cons]
    split_ifs with hempty hroot hroot
    · rw [List.length_cons]
      omega
    · exact absurd rfl hroot
    · rw [List.length_cons]
      omega
    · rw [List.length_append, List.length_cons]
      omega
  · rw [if_pos hslash]
    rwa [lastPart_of_notMem hslash] at h

theorem globArg_injective (arg : List Byte) : Function.Injective (globArg arg) := by
  intro m n h
  rw [globArg, globArg] at h
  by_cases hslash : slash ∉ arg
  · rwa [if_pos hslash, if_pos hslash] at h
  · rw [if_neg hslash, if_neg hslash] at h
    by_cases hroot : dirPart arg = [slash]
    · rw [if_pos hroot, if_pos hroot] at h
      exact (List.cons.inj h).2
    · rw [if_neg hroot, if_neg hroot] at h
      exact (List.cons.inj (List.append_cancel_left h)).2

/-! ### What the code appends -/

theorem globParts_eq (h : GlobCall sh out arg d) :
    globParts arg = some (dirPart arg, if slash ∉ arg then [] else dirPart arg, (lastPart arg).take vfsNameMax) := by
  have hpattern : (lastPart arg).take vfsNameMax ≠ [] := by
    rw [Ne, List.take_eq_nil_iff, not_or]
    exact ⟨by decide, List.ne_nil_of_mem h.hasStar⟩
  have hdir : (dirPart arg).length < vfsPathMax := by
    have hshort := h.short
    rw [dirPart]
    by_cases hslash : slash ∈ arg
    · obtain ⟨front, last, rfl, hlast⟩ := Sep.exists_eq_append_cons hslash
      rw [if_neg (not_not.2 hslash), Sep.beforeLast_append hlast]
      rw [List.length_append, List.length_cons] at hshort
      split_ifs
      · norm_num
      · omega
    · rw [if_pos hslash]
      decide
  have hok : ¬(vfsPathMax ≤ (dirPart arg).length ∨ (lastPart arg).take vfsNameMax = [] ∨ star ∈ dirPart arg) :=
    not_or.2 ⟨hdir.not_ge, not_or.2 ⟨hpattern, h.plain⟩⟩
  rw [globParts]
  by_cases hslash : slash ∈ arg
  · have hdirPart : dirPart arg =
        if Sep.beforeLast slash arg = [] then [slash] else Sep.beforeLast slash arg := if_neg (not_not.2 hslash)
    simp only [if_neg (not_not.2 hslash)]
    by_cases hroot : Sep.beforeLast slash arg = []
    · rw [if_pos hroot] at hdirPart
      rw [hdirPart] at hok ⊢
      simp only [if_pos hroot]
      exact if_neg hok
    · rw [if_neg hroot] at hdirPart
      rw [hdirPart] at hok ⊢
      simp only [if_neg hroot]
      exact if_neg hok
  · have hdirPart : dirPart arg = dot := if_pos hslash
    rw [hdirPart, lastPart_of_notMem hslash] at hok ⊢
    simp only [if_pos hslash]
    exact if_neg hok

theorem mem_of_mem_lastPart {c : Byte} (h : c ∈ lastPart arg) : c ∈ arg := by
  rw [lastPart, Sep.afterLast, List.mem_reverse] at h
  exact List.mem_reverse.1 (List.takeWhile_subset _ h)

theorem globMatches_eq (h : GlobCall sh out arg d) :
    globMatches sh arg = ((childNames sh d).filter (Glob.Matches star ((lastPart arg).take vfsNameMax))).map
      fun name => ksnprintf vfsPathMax (globArg arg name) := by
  have hmatch : (fun name => wildcardMatch ((lastPart arg).take vfsNameMax) name) =
      fun name => decide (Glob.Matches star ((lastPart arg).take vfsNameMax) name) :=
    funext fun name => Bool.eq_iff_iff.2 (by rw [wildcardMatch_iff, decide_eq_true_eq])
  have hpath : globPath (slash ∉ arg) (if slash ∉ arg then [] else dirPart arg) =
      fun name => ksnprintf vfsPathMax (globArg arg name) := by
    funext name
    rw [globPath, globArg]
    by_cases hnone : slash ∉ arg
    · simp only [hnone, not_false_eq_true, decide_true, if_true]
    · simp only [hnone, decide_false, if_false, Bool.false_eq_true]
  simp only [globMatches, if_neg (not_not.2 (mem_of_mem_lastPart h.hasStar)), globParts_eq h, h.dir, h.isDir,
    ne_eq, not_true_eq_false, if_false, hmatch, hpath, childNames]

theorem expandGlobArg_of_call (h : GlobCall sh out arg d) :
    expandGlobArg sh out arg =
      out ++ if ((childNames sh d).filter (Glob.Matches star ((lastPart arg).take vfsNameMax))).take
          (argvMax - 1 - out.length) = [] then [arg]
        else (((childNames sh d).filter (Glob.Matches star ((lastPart arg).take vfsNameMax))).take
          (argvMax - 1 - out.length)).map fun name => ksnprintf vfsPathMax (globArg arg name) := by
  have hroom := h.room
  have hfree : ¬ argvMax - 1 ≤ out.length := by
    have hone := le_max_left 1 (matched sh arg d).length
    omega
  have harg : arg.take (vfsPathMax - 1) = arg := List.take_of_length_le (Nat.le_sub_one_of_lt h.short)
  have happend : appendExpandedArg out arg = out ++ [arg] := by rw [appendExpandedArg, if_neg hfree, harg]
  simp only [expandGlobArg, globMatches_eq h, ← List.map_take, List.map_eq_nil_iff, happend]
  split_ifs
  · rfl
  · rfl

theorem length_childName (h : name ∈ childNames sh d) : name.length ≤ vfsNameMax := by
  obtain ⟨n, -, rfl⟩ := List.mem_map.1 h
  exact (sh.kernel.vfs.nodes n).name.length_le

theorem cutAgrees_of_le (h : GlobCall sh out arg d) (hlast : (lastPart arg).length ≤ vfsNameMax) :
    CutAgrees sh out arg d := by
  have hroom := h.room
  have hmax := le_max_right 1 (matched sh arg d).length
  rw [CutAgrees, List.take_of_length_le hlast, ← matched, List.take_of_length_le (by omega)]

/-- **An argument stands for what it should exactly when the cut does not matter.** -/
theorem globLaw_iff (h : GlobCall sh out arg d) : GlobLaw sh out arg d ↔ CutAgrees sh out arg d := by
  have hrun := expandGlobArg_of_call h
  constructor
  · intro hlaw
    rcases Nat.lt_or_ge vfsNameMax (lastPart arg).length with hlong | hshort
    · -- every name is shorter than the last component, so that no path is cut and none is the argument
      have hshorter : ∀ name ∈ childNames sh d, (globArg arg name).length < arg.length := fun name hname =>
        length_globArg ((length_childName hname).trans_lt hlong)
      rw [GlobLaw, hrun, List.append_cancel_left_eq] at hlaw
      rw [CutAgrees]
      generalize hcut : ((childNames sh d).filter (Glob.Matches star ((lastPart arg).take vfsNameMax))).take
        (argvMax - 1 - out.length) = cut at hlaw ⊢
      have hcutNames : ∀ name ∈ cut, name ∈ childNames sh d := fun name hname =>
        List.mem_of_mem_filter (List.mem_of_mem_take (hcut ▸ hname))
      have hpath : cut.map (fun name => ksnprintf vfsPathMax (globArg arg name)) = cut.map (globArg arg) :=
        List.map_congr_left fun name hname => List.take_of_length_le
          (Nat.le_sub_one_of_lt ((hshorter name (hcutNames name hname)).trans h.short))
      have hother : ∀ names : List (List Byte), (∀ name ∈ names, name ∈ childNames sh d) →
          names.map (globArg arg) ≠ [arg] := by
        intro names hnames he
        obtain ⟨name, hname, hpath⟩ := List.mem_map.1 (he ▸ List.mem_singleton_self arg)
        exact absurd (congrArg List.length hpath) (hshorter name (hnames name hname)).ne
      have hmatched : ∀ name ∈ matched sh arg d, name ∈ childNames sh d := fun name hname =>
        List.mem_of_mem_filter hname
      rw [hpath] at hlaw
      split_ifs at hlaw with hnil hnone hnone
      · rw [hnil, hnone]
      · exact absurd hlaw.symm (hother _ hmatched)
      · exact absurd hlaw (hother _ hcutNames)
      · exact (globArg_injective arg).list_map hlaw
    · exact cutAgrees_of_le h hshort
  · intro hagrees
    have hpath : (matched sh arg d).map (fun name => ksnprintf vfsPathMax (globArg arg name)) =
        (matched sh arg d).map (globArg arg) :=
      List.map_congr_left fun name hname => List.take_of_length_le (Nat.le_sub_one_of_lt (h.fits name hname))
    rw [CutAgrees] at hagrees
    rw [GlobLaw, hrun, hagrees, hpath]

/-- The entries of the root whose names begin with a letter. -/
theorem globLaw_root : GlobLaw startSh [lit "ls"] (lit "/t*") rootNode := by
  refine (globLaw_iff ⟨by decide, by decide +kernel, by decide +kernel, by decide +kernel, by decide +kernel,
    by decide +kernel, by decide +kernel⟩).2 ?_
  exact cutAgrees_of_le ⟨by decide, by decide +kernel, by decide +kernel, by decide +kernel, by decide +kernel,
    by decide +kernel, by decide +kernel⟩ (by decide +kernel)

def longName : List Byte := List.replicate 63 97

/-- The shell where `/tmp` has a directory with that name. -/
def longNameSh : Sh :=
  { startSh with
    kernel := { startSh.kernel with
      vfs := (vfsMkdir Vfs.vfsInit (lit "/tmp/" ++ longName) [slash] (vfsSIfdir ||| 0o755) 0 0).1 } }

/-- **A pattern that goes on behind the name** stands for it all the same: the star is cut off, and so is the letter
in front of it. -/
theorem not_globLaw : ¬ ∀ (sh : Sh) (out : List (List Byte)) (arg : List Byte) (d : ℕ), GlobCall sh out arg d →
    GlobLaw sh out arg d := by
  intro h
  have hlaw := h longNameSh [lit "rm"] (lit "/tmp/" ++ longName ++ lit "b*") 8 ⟨by decide +kernel, by decide +kernel,
    by decide +kernel, by decide +kernel, by decide +kernel, by decide +kernel, by decide +kernel⟩
  have hcode : expandGlobArg longNameSh [lit "rm"] (lit "/tmp/" ++ longName ++ lit "b*") =
      [lit "rm", lit "/tmp/" ++ longName] := by decide +kernel
  have hmatched : matched longNameSh (lit "/tmp/" ++ longName ++ lit "b*") 8 = [] := by decide +kernel
  rw [GlobLaw, hcode, hmatched, if_pos rfl] at hlaw
  revert hlaw
  decide +kernel

end Tnu.Shell
