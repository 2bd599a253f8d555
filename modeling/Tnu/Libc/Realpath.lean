/-
**Canonical paths of the C library.**

`realpath` of `userspace/libc/src/posix_extra.c` does what `vfs_normalize` does, with limits of its own: a text of
511 bytes, 64 components, and components of 63 bytes.  Where the kernel drops the rest of a longer component,
the library goes on and takes it for the next one, so that the path gets longer by a slash.

Main definitions:

* `Whole`, `Resolves` — no component is long, and the kernel accepts the path.

Main results:

* `realpathLaw_iff` — **the two agree exactly when no component is long and the kernel accepts the path**;
* `not_realpathLaw` — a component of 70 bytes.
-/

import Tnu.Printf
import Tnu.Vfs.Path

set_option autoImplicit false

namespace Tnu.Libc

open Vfs

/-! ### The function -/

/-- What `realpath` finds: the working directory and whether it can be asked for, the size of the buffer that it was
given, if it was, and whether there is memory for one. -/
structure RealpathEnv where
  cwd : CharBuf (vfsPathMax - 1)
  /-- A working directory is an absolute path. -/
  absolute : cwd.chars.head? = some slash
  getcwd : Bool
  given : Option ℕ
  malloc : Bool

/-- The text that is cut into components; none when the working directory is needed and cannot be asked for. -/
def realpathTmp (env : RealpathEnv) (path : List Byte) : Option (List Byte) :=
  if path.head? = some slash then some (path.take 511)
  else if env.getcwd then some (ksnprintf 512 (env.cwd.chars ++ slash :: path)) else none

/-- The parts that the loop finds: behind the slashes, up to 63 bytes. -/
def realpathParts : ℕ → List Byte → List (List Byte)
  | 0, _ => []
  | fuel + 1, p =>
    if p = [] then []
    else
      let rest := p.dropWhile (· = slash)
      let part := (rest.takeWhile (· ≠ slash)).take 63
      part :: realpathParts fuel (rest.drop part.length)

def pushPart (stack : List (List Byte)) (part : List Byte) : List (List Byte) :=
  if part = [] ∨ part = dot then stack
  else if part = dotdot then stack.dropLast
  else if stack.length < 64 then stack ++ [part]
  else stack

/-- `strcat`, and `strcpy` behind an empty string, into a buffer of `size` bytes. -/
def strcat (size : ℕ) (out s : List Byte) : Option (List Byte) :=
  if out.length + s.length < size then some (out ++ s) else none

def appendPart (size : ℕ) (out part : List Byte) : Option (List Byte) :=
  (strcat size out [slash]).bind fun out => strcat size out part

def writeParts (size : ℕ) (stack : List (List Byte)) : Option (List Byte) :=
  if stack = [] then strcat size [] [slash]
  else (strcat size [] []).bind fun out => stack.foldlM (appendPart size) out

def bufferSize (env : RealpathEnv) (tmp : List Byte) : Option ℕ :=
  match env.given with
  | some size => some size
  | none => if env.malloc then some (tmp.length + 1) else none

/-- `realpath`: the path, or none for the null pointer; without a result it writes behind its buffer. -/
def realpath (env : RealpathEnv) (path : List Byte) : Option (Option (List Byte)) :=
  match realpathTmp env path with
  | none => some none
  | some tmp =>
    match bufferSize env tmp with
    | none => some none
    | some size => (writeParts size ((realpathParts tmp.length tmp).foldl pushPart [])).map some

/-! ### What it should do -/

/-- **The path is the one of the kernel**, and it is written inside the buffer. -/
def RealpathLaw (env : RealpathEnv) (path : List Byte) : Prop :=
  ∃ r, realpath env path = some r ∧ ∀ out, r = some out → vfsNormalize path env.cwd.chars vfsPathMax = some out

def fullText (env : RealpathEnv) (path : List Byte) : List Byte :=
  if path.head? = some slash then path else env.cwd.chars ++ slash :: path

def Whole (env : RealpathEnv) (path : List Byte) : Prop :=
  ∀ p ∈ Sep.pieces slash (fullText env path), p.length ≤ vfsNameMax

def partsOf (env : RealpathEnv) (path : List Byte) : List (List Byte) :=
  realpathParts (fullText env path).length (fullText env path)

def Plain (env : RealpathEnv) (path : List Byte) : Prop := ∀ part ∈ partsOf env path, part ≠ dot ∧ part ≠ dotdot

def Refused (env : RealpathEnv) (path : List Byte) : Prop :=
  path.head? ≠ some slash ∧ env.getcwd = false ∨ env.given = none ∧ env.malloc = false

/-- The kernel accepts the path, and a buffer that was given has room for it. -/
def Resolves (env : RealpathEnv) (path : List Byte) : Prop :=
  ∃ cs, resolve path env.cwd.chars = some cs ∧ ∀ size, env.given = some size → (pathString cs).length < size

/-! ### The components -/

variable {env : RealpathEnv} {path tmp out : List Byte} {size fuel : ℕ} {stack : List (List Byte)}

theorem pieces_dropWhile (l : List Byte) : Sep.pieces slash (l.dropWhile (· = slash)) = Sep.pieces slash l := by
  induction l with
  | nil => rfl
  | cons c l ih =>
    by_cases hc : c = slash
    · subst hc
      rw [List.dropWhile_cons_of_pos (by simp), ih, Sep.pieces_sep_cons]
    · rw [List.dropWhile_cons_of_neg (by simpa using hc)]

theorem pieces_front {a b : List Byte} (ha : slash ∉ a) (hne : a ≠ []) (hb : ∀ c ∈ b.head?, c = slash) :
    Sep.pieces slash (a ++ b) = a :: Sep.pieces slash b := by
  cases b with
  | nil => rw [List.append_nil, Sep.pieces_nil, Sep.pieces_of_not_mem ha hne]
  | cons c b =>
    obtain rfl := hb c rfl
    rw [Sep.pieces_append_sep ha, if_neg hne, Sep.pieces_sep_cons]

theorem exists_front {l : List Byte} (hne : l ≠ []) (hhead : l.head? ≠ some slash) :
    ∃ a b, l = a ++ b ∧ l.takeWhile (· ≠ slash) = a ∧ a ≠ [] ∧ slash ∉ a ∧ ∀ c ∈ b.head?, c = slash := by
  obtain ⟨c, l, rfl⟩ := List.exists_cons_of_ne_nil hne
  have hc : c ≠ slash := fun e => hhead (congrArg some e)
  refine ⟨(c :: l).takeWhile (· ≠ slash), (c :: l).dropWhile (· ≠ slash), List.takeWhile_append_dropWhile.symm, rfl,
    ?_, fun hmem => ?_, fun d hd => ?_⟩
  · rw [List.takeWhile_cons_of_pos (by simpa using hc)]
    exact List.cons_ne_nil _ _
  · simpa using List.mem_takeWhile_imp hmem
  · have hneg := List.head?_dropWhile_not (· ≠ slash) (c :: l)
    rw [Option.mem_def.1 hd] at hneg
    simpa using hneg

theorem head?_dropWhile_slash (l : List Byte) : (l.dropWhile (· = slash)).head? ≠ some slash := fun h => by
  have hneg := List.head?_dropWhile_not (· = slash) l
  rw [h] at hneg
  simp at hneg

theorem realpathParts_succ {a b : List Byte} (hnil : tmp ≠ []) (hrest : tmp.dropWhile (· = slash) = a ++ b)
    (htake : (a ++ b).takeWhile (· ≠ slash) = a) :
    realpathParts (fuel + 1) tmp = a.take 63 :: realpathParts fuel (a.drop 63 ++ b) := by
  have hdrop : (a ++ b).drop (a.take 63).length = a.drop 63 ++ b := by
    rw [List.length_take, List.drop_append]
    rcases Nat.le_total 63 a.length with hle | hle
    · rw [min_eq_left hle, Nat.sub_eq_zero_of_le hle, List.drop_zero]
    · rw [min_eq_right hle, Nat.sub_self, List.drop_zero, List.drop_length, List.drop_of_length_le hle]
  rw [realpathParts, if_neg hnil]
  dsimp only
  rw [hrest, htake, hdrop]

/-- **The parts of a text**: as many as there are components, and more when one of them is long; when none is, they are
the components. -/
theorem realpathParts_spec (tmp : List Byte) (hfuel : tmp.length ≤ fuel) :
    (Sep.pieces slash tmp).length ≤ ((realpathParts fuel tmp).filter (· ≠ [])).length ∧
    ((∃ p ∈ Sep.pieces slash tmp, vfsNameMax < p.length) →
      (Sep.pieces slash tmp).length < ((realpathParts fuel tmp).filter (· ≠ [])).length) ∧
    ((∀ p ∈ Sep.pieces slash tmp, p.length ≤ vfsNameMax) →
      (realpathParts fuel tmp).filter (· ≠ []) = Sep.pieces slash tmp) := by
  induction fuel generalizing tmp with
  | zero =>
    obtain rfl := List.eq_nil_of_length_eq_zero (Nat.le_zero.1 hfuel)
    refine ⟨by simp, ?_, fun _ => rfl⟩
    rintro ⟨p, hp, -⟩
    simp at hp
  | succ fuel ih =>
    by_cases hnil : tmp = []
    · subst hnil
      refine ⟨by simp, ?_, fun _ => by simp [realpathParts]⟩
      rintro ⟨p, hp, -⟩
      simp at hp
    have hle : (tmp.dropWhile (· = slash)).length ≤ tmp.length := (List.dropWhile_suffix _).length_le
    have hhead := head?_dropWhile_slash tmp
    rw [← pieces_dropWhile tmp]
    by_cases hempty : tmp.dropWhile (· = slash) = []
    · -- only slashes are left
      have hround : realpathParts (fuel + 1) tmp = [] :: realpathParts fuel [] :=
        realpathParts_succ hnil (show _ = [] ++ [] from hempty) rfl
      have hlast := ih [] (Nat.zero_le _)
      rw [hround, hempty]
      simpa using hlast
    · obtain ⟨a, b, hrest, htake, hne, ha, hb⟩ := exists_front hempty hhead
      rw [hrest] at htake hle
      rw [realpathParts_succ hnil hrest htake, hrest, pieces_front ha hne hb,
        List.filter_cons_of_pos (by simpa [List.take_eq_nil_iff] using hne), List.length_cons, List.length_cons,
        List.forall_mem_cons]
      have hpos := List.length_pos_of_ne_nil hne
      rw [List.length_append] at hle
      obtain ⟨hcount, hmore, hsame⟩ := ih (a.drop 63 ++ b) (by
        rw [List.length_append, List.length_drop]
        omega)
      rcases Nat.lt_or_ge 63 a.length with hlong | hshort
      · -- what is left of the component is another one
        have hdrop : a.drop 63 ≠ [] := by
          rw [Ne, List.drop_eq_nil_iff]
          omega
        rw [pieces_front (fun hmem => ha (List.mem_of_mem_drop hmem)) hdrop hb, List.length_cons] at hcount
        refine ⟨by omega, fun _ => by omega, fun hall => absurd hall.1 (Nat.not_le_of_lt hlong)⟩
      · rw [List.drop_of_length_le hshort, List.nil_append] at hcount hmore hsame ⊢
        refine ⟨by omega, ?_, fun hall => by rw [hsame hall.2, List.take_of_length_le hshort]⟩
        rintro ⟨p, hp, hp63⟩
        rcases List.mem_cons.1 hp with rfl | hp
        · exact absurd hshort (Nat.not_le_of_lt hp63)
        · have hlt := hmore ⟨p, hp, hp63⟩
          omega

theorem mem_realpathParts {part : List Byte} (h : part ∈ realpathParts fuel tmp) :
    part.length ≤ vfsNameMax ∧ slash ∉ part ∧ ∀ c ∈ part, c ∈ tmp := by
  induction fuel generalizing tmp with
  | zero => exact absurd h List.not_mem_nil
  | succ fuel ih =>
    rw [realpathParts] at h
    split_ifs at h with hnil
    · exact absurd h List.not_mem_nil
    dsimp only at h
    have hrest : ∀ c ∈ tmp.dropWhile (· = slash), c ∈ tmp := fun c hc => (List.dropWhile_suffix _).subset hc
    rcases List.mem_cons.1 h with rfl | h
    · refine ⟨by simp, fun hmem => ?_, fun c hc => hrest c (List.takeWhile_subset _ (List.mem_of_mem_take hc))⟩
      simpa using List.mem_takeWhile_imp (List.mem_of_mem_take hmem)
    · obtain ⟨hlen, hslash, hmem⟩ := ih h
      exact ⟨hlen, hslash, fun c hc => hrest c (List.mem_of_mem_drop (hmem c hc))⟩

theorem foldl_pushPart_filter (parts stack : List (List Byte)) :
    (parts.filter (· ≠ [])).foldl pushPart stack = parts.foldl pushPart stack := by
  induction parts generalizing stack with
  | nil => rfl
  | cons part parts ih =>
    by_cases hpart : part = []
    · subst hpart
      rw [List.filter_cons_of_neg (by simp), ih, List.foldl_cons, pushPart, if_pos (.inl rfl)]
    · rw [List.filter_cons_of_pos (by simpa using hpart), List.foldl_cons, List.foldl_cons, ih]

/-- **What the kernel makes of the parts**, when there are not too many, the library makes of them as well. -/
theorem foldl_pushPart_of_pushComp {parts cs : List (List Byte)} (hne : ∀ p ∈ parts, p ≠ [])
    (h : parts.foldlM pushComp stack = some cs) : parts.foldl pushPart stack = cs := by
  induction parts generalizing stack with
  | nil => exact Option.some.inj h
  | cons part parts ih =>
    obtain ⟨hpart, hne⟩ := List.forall_mem_cons.1 hne
    obtain ⟨stack₁, hpush, hrest⟩ := Option.bind_eq_some_iff.1 h
    have hstep : pushPart stack part = stack₁ := by
      rw [pushComp] at hpush
      rw [pushPart]
      split_ifs at hpush with hdot hdotdot hfull
      · rw [if_pos (.inr hdot)]
        exact Option.some.inj hpush
      · rw [if_neg (not_or.2 ⟨hpart, hdot⟩), if_pos hdotdot]
        exact Option.some.inj hpush
      · have hroom : stack.length < 64 := (Nat.lt_of_not_le hfull).trans_le (by decide)
        rw [if_neg (not_or.2 ⟨hpart, hdot⟩), if_neg hdotdot, if_pos hroom]
        exact Option.some.inj hpush
    rw [List.foldl_cons, hstep, ih hne hrest]

/-! ### The output -/

theorem appendPart_eq (size : ℕ) (out part : List Byte) :
    appendPart size out part =
      if out.length + 1 + part.length < size then some (out ++ slash :: part) else none := by
  rw [appendPart, strcat, List.length_singleton]
  by_cases hslash : out.length + 1 < size
  · rw [if_pos hslash, Option.bind_some, strcat, List.length_append, List.length_singleton, List.append_assoc,
      List.singleton_append]
  · rw [if_neg hslash, if_neg (by omega)]
    rfl

theorem foldlM_appendPart (parts : List (List Byte)) (hout : out.length < size) :
    parts.foldlM (appendPart size) out =
      if (out ++ Sep.joinPre slash parts).length < size then some (out ++ Sep.joinPre slash parts) else none := by
  induction parts generalizing out with
  | nil => rw [Sep.joinPre_nil, List.append_nil, if_pos hout, List.foldlM_nil, Option.pure_def]
  | cons part parts ih =>
    have hlen : (out ++ Sep.joinPre slash (part :: parts)).length =
        out.length + 1 + part.length + (Sep.joinPre slash parts).length := by
      rw [Sep.joinPre_cons]
      simp only [List.length_append, List.length_cons]
      omega
    rw [List.foldlM_cons, appendPart_eq]
    by_cases hroom : out.length + 1 + part.length < size
    · have hnext : (out ++ slash :: part).length < size := by
        rw [List.length_append, List.length_cons]
        omega
      have hlayout : out ++ slash :: part ++ Sep.joinPre slash parts = out ++ Sep.joinPre slash (part :: parts) := by
        rw [Sep.joinPre_cons, List.append_assoc, List.cons_append]
      rw [if_pos hroom, Option.bind_eq_bind, Option.bind_some, ih hnext, hlayout]
    · rw [if_neg hroom, if_neg (by omega)]
      rfl

/-- **What is written**, when the buffer has room for it. -/
theorem writeParts_eq (size : ℕ) (stack : List (List Byte)) :
    writeParts size stack = if (pathString stack).length < size then some (pathString stack) else none := by
  rw [writeParts]
  by_cases hnil : stack = []
  · rw [if_pos hnil, hnil, pathString_nil, strcat, List.length_nil, Nat.zero_add, List.nil_append]
  · rw [if_neg hnil, pathString_of_ne_nil hnil, strcat, List.length_nil, List.append_nil]
    by_cases hsize : 0 < size
    · rw [if_pos hsize, Option.bind_some, foldlM_appendPart stack hsize, List.nil_append]
    · rw [if_neg hsize, if_neg (by omega)]
      rfl

/-! ### Agreement -/

theorem realpathTmp_eq (h : (fullText env path).length < vfsPathMax) :
    realpathTmp env path = if path.head? ≠ some slash ∧ env.getcwd = false then none else some (fullText env path) := by
  have hcut : (fullText env path).take 511 = fullText env path :=
    List.take_of_length_le (h.le.trans (by decide))
  rw [realpathTmp]
  rw [fullText] at hcut ⊢
  by_cases hslash : path.head? = some slash
  · rw [if_pos hslash] at hcut ⊢
    rw [if_pos hslash, hcut, if_neg (fun h => h.1 hslash)]
  · rw [if_neg hslash] at hcut ⊢
    rw [if_neg hslash, ksnprintf, hcut]
    cases hcwd : env.getcwd with
    | false => simp [hslash]
    | true => simp

theorem pathSource_eq (h : (fullText env path).length < vfsPathMax) :
    pathSource path env.cwd.chars = fullText env path := by
  have hcut : (fullText env path).take (vfsPathMax - 1) = fullText env path :=
    List.take_of_length_le (Nat.le_sub_one_of_lt h)
  have hcwd : env.cwd.chars ≠ [] := fun e => by
    have habs := env.absolute
    rw [e] at habs
    cases habs
  rw [fullText] at hcut ⊢
  rw [pathSource, if_neg hcwd]
  by_cases hslash : path.head? = some slash
  · rw [if_pos hslash] at hcut ⊢
    rw [if_pos hslash, hcut]
  · rw [if_neg hslash] at hcut ⊢
    rw [if_neg hslash, hcut]

theorem exists_fullText (env : RealpathEnv) (path : List Byte) : ∃ rest, fullText env path = slash :: rest := by
  have hstart : ∀ l : List Byte, l.head? = some slash → ∃ rest, l = slash :: rest := fun l hl => by
    obtain ⟨rest, hrest⟩ := List.head?_eq_some_iff.1 hl
    exact ⟨rest, hrest⟩
  rw [fullText]
  split_ifs with hslash
  · exact hstart path hslash
  · obtain ⟨rest, hrest⟩ := hstart env.cwd.chars env.absolute
    exact ⟨rest ++ slash :: path, by rw [hrest, List.cons_append]⟩

theorem length_joinPre_pushPart (stack : List (List Byte)) (part : List Byte) :
    (Sep.joinPre slash (pushPart stack part)).length ≤ (Sep.joinPre slash stack).length + (part.length + 1) := by
  rw [pushPart]
  split_ifs
  · omega
  · have hsub : (Sep.joinPre slash stack.dropLast).length ≤ (Sep.joinPre slash stack).length :=
      ((List.dropLast_sublist stack).flatMap _).length_le
    omega
  · rw [Sep.joinPre_snoc, List.length_append, List.length_cons]
  · omega

theorem length_joinPre_foldl (parts stack : List (List Byte)) :
    (Sep.joinPre slash (parts.foldl pushPart stack)).length ≤
      (Sep.joinPre slash stack).length + (Sep.joinPre slash parts).length := by
  induction parts generalizing stack with
  | nil => rw [List.foldl_nil, Sep.joinPre_nil, List.length_nil, Nat.add_zero]
  | cons part parts ih =>
    have hstep := length_joinPre_pushPart stack part
    have hrest := ih (pushPart stack part)
    rw [List.foldl_cons, Sep.joinPre_cons, List.length_cons, List.length_append]
    omega

def stackOf (env : RealpathEnv) (path : List Byte) : List (List Byte) := (partsOf env path).foldl pushPart []

theorem stackOf_of_whole (h : Whole env path) :
    stackOf env path = (Sep.pieces slash (fullText env path)).foldl pushPart [] := by
  obtain ⟨-, -, hsame⟩ := realpathParts_spec (fullText env path) le_rfl
  rw [stackOf, ← foldl_pushPart_filter, partsOf, hsame h]

theorem length_pathString_stackOf (h : Whole env path) :
    (pathString (stackOf env path)).length ≤ (fullText env path).length := by
  obtain ⟨rest, hrest⟩ := exists_fullText env path
  rw [stackOf_of_whole h, pathString, hrest, List.length_cons]
  split_ifs
  · rw [List.length_singleton]
    omega
  · have hfold := length_joinPre_foldl (Sep.pieces slash (slash :: rest)) []
    have hpieces := Sep.length_joinPre_pieces slash rest
    rw [Sep.pieces_sep_cons, Sep.joinPre_nil, List.length_nil, Nat.zero_add] at hfold
    rw [Sep.pieces_sep_cons]
    exact hfold.trans hpieces

/-- **The components that the kernel comes to are those of the library**, when none is long. -/
theorem stackOf_of_resolve (htext : (fullText env path).length < vfsPathMax) (h : Whole env path)
    {cs : List (List Byte)} (hcs : resolve path env.cwd.chars = some cs) : stackOf env path = cs := by
  obtain ⟨hcomps, -⟩ := resolve_eq_some_iff.1 hcs
  have htokens : pathTokens (fullText env path) = Sep.pieces slash (fullText env path) := by
    rw [pathTokens]
    exact (List.map_congr_left fun p hp => List.take_of_length_le (h p hp)).trans (List.map_id' _)
  rw [pathSource_eq htext, pathComps, htokens] at hcomps
  rw [stackOf_of_whole h]
  exact foldl_pushPart_of_pushComp (fun p hp => Sep.ne_nil_of_mem_pieces hp) hcomps

theorem foldl_pushPart_plain {parts : List (List Byte)} (hstack : stack.length ≤ 64)
    (h : ∀ part ∈ parts, part ≠ [] ∧ part ≠ dot ∧ part ≠ dotdot) :
    parts.foldl pushPart stack = (stack ++ parts).take 64 := by
  induction parts generalizing stack with
  | nil => rw [List.foldl_nil, List.append_nil, List.take_of_length_le hstack]
  | cons part parts ih =>
    obtain ⟨⟨hne, hdot, hdotdot⟩, h⟩ := List.forall_mem_cons.1 h
    rw [List.foldl_cons, pushPart, if_neg (not_or.2 ⟨hne, hdot⟩), if_neg hdotdot]
    by_cases hroom : stack.length < 64
    · rw [if_pos hroom, ih (by simpa using hroom) h, List.append_assoc, List.singleton_append]
    · have hfull : stack.length = 64 := by omega
      rw [if_neg hroom, ih hstack h, List.take_left' hfull, List.take_left' hfull]

theorem length_of_foldlM_pushComp {parts cs : List (List Byte)} (h : parts.foldlM pushComp stack = some cs) :
    cs.length ≤ stack.length + parts.length := by
  induction parts generalizing stack with
  | nil => rw [← Option.some.inj h, List.length_nil, Nat.add_zero]
  | cons part parts ih =>
    obtain ⟨stack₁, hpush, hrest⟩ := Option.bind_eq_some_iff.1 h
    have hle := ih hrest
    have hstep : stack₁.length ≤ stack.length + 1 := by
      rw [pushComp] at hpush
      split_ifs at hpush
      · rw [← Option.some.inj hpush]
        omega
      · rw [← Option.some.inj hpush, List.length_dropLast]
        omega
      · rw [← Option.some.inj hpush, List.length_append, List.length_singleton]
    rw [List.length_cons]
    omega

/-- **A long component becomes several**: without dots the two come to other components. -/
theorem stackOf_ne_of_resolve {path : CString} (htext : (fullText env path.chars).length < vfsPathMax)
    (hplain : Plain env path.chars) (hlong : ¬Whole env path.chars) {cs : List (List Byte)}
    (hcs : resolve path.chars env.cwd.chars = some cs) : pathString (stackOf env path.chars) ≠ pathString cs := by
  obtain ⟨hcomps, -⟩ := resolve_eq_some_iff.1 hcs
  have hproper := proper_of_resolve path.nul_free env.cwd.nul_free hcs
  have hnul : 0 ∉ fullText env path.chars := by
    rw [fullText]
    split_ifs
    · exact path.nul_free
    · rw [List.mem_append, List.mem_cons, not_or, not_or]
      exact ⟨env.cwd.nul_free, by decide, path.nul_free⟩
  have hstack : stackOf env path.chars = ((partsOf env path.chars).filter (· ≠ [])).take 64 := by
    rw [stackOf, ← foldl_pushPart_filter, foldl_pushPart_plain (by simp) fun part hpart => ?_, List.nil_append]
    obtain ⟨hpart, hne⟩ := List.mem_filter.1 hpart
    exact ⟨of_decide_eq_true hne, hplain part hpart⟩
  have hvalid : ∀ c ∈ stackOf env path.chars, ValidName c := fun c hc => by
    rw [hstack] at hc
    obtain ⟨hpart, hne⟩ := List.mem_filter.1 (List.mem_of_mem_take hc)
    obtain ⟨hlen, hslash, hmem⟩ := mem_realpathParts hpart
    exact ⟨of_decide_eq_true hne, hlen, hslash, fun h0 => hnul (hmem 0 h0), (hplain c hpart).1, (hplain c hpart).2⟩
  intro heq
  have hsame := pathString_injective hvalid hproper.valid heq
  -- there are more parts than components, and places for more of them
  obtain ⟨-, hmore, -⟩ := realpathParts_spec (fullText env path.chars) le_rfl
  rw [Whole] at hlong
  have hcount := hmore (by simpa using hlong)
  rw [← partsOf] at hcount
  rw [pathSource_eq htext] at hcomps
  have hkept := length_of_foldlM_pushComp hcomps
  have hcap : cs.length ≤ 32 := hproper.length_le
  rw [pathTokens, List.length_map, List.length_nil, Nat.zero_add] at hkept
  have hlen := congrArg List.length hsame
  rw [hstack, List.length_take] at hlen
  omega

theorem realpath_of_refused (htext : (fullText env path).length < vfsPathMax) (h : Refused env path) :
    realpath env path = some none := by
  rw [realpath, realpathTmp_eq htext]
  by_cases hcwd : path.head? ≠ some slash ∧ env.getcwd = false
  · rw [if_pos hcwd]
  · obtain ⟨hgiven, hmalloc⟩ := h.resolve_left hcwd
    rw [if_neg hcwd]
    simp only [bufferSize, hgiven, hmalloc, Bool.false_eq_true, if_false]

theorem realpath_of_not_refused (htext : (fullText env path).length < vfsPathMax) (h : ¬Refused env path) :
    ∃ size, bufferSize env (fullText env path) = some size ∧
      realpath env path = (writeParts size (stackOf env path)).map some := by
  obtain ⟨hcwd, hmemory⟩ := not_or.1 h
  have hsome : ∃ size, bufferSize env (fullText env path) = some size := by
    rw [bufferSize]
    cases hgiven : env.given with
    | some size => exact ⟨size, rfl⟩
    | none =>
      have hmalloc : env.malloc = true := by
        rw [← Bool.not_eq_false]
        exact fun hfalse => hmemory ⟨hgiven, hfalse⟩
      exact ⟨_, if_pos hmalloc⟩
  obtain ⟨size, hsize⟩ := hsome
  refine ⟨size, hsize, ?_⟩
  rw [realpath, realpathTmp_eq htext, if_neg hcwd]
  dsimp only
  rw [hsize]
  rfl

theorem lt_bufferSize_iff (h : Whole env path) (hsize : bufferSize env (fullText env path) = some size) :
    (pathString (stackOf env path)).length < size ↔
      ∀ n, env.given = some n → (pathString (stackOf env path)).length < n := by
  have hle := length_pathString_stackOf h
  rw [bufferSize] at hsize
  cases hgiven : env.given with
  | some n =>
    rw [hgiven] at hsize
    obtain rfl := Option.some.inj hsize
    refine ⟨fun hlt m hm => ?_, fun hall => hall n rfl⟩
    rwa [← Option.some.inj hm]
  | none =>
    rw [hgiven] at hsize
    dsimp only at hsize
    split_ifs at hsize
    obtain rfl := Option.some.inj hsize
    refine ⟨fun _ n hn => ?_, fun _ => Nat.lt_succ_of_le hle⟩
    cases hn

/-- **On texts of at most 255 bytes the library and the kernel agree exactly when no component is long and the kernel
accepts the path**, and a buffer that was given has room for it; texts with both a long component and dots are left
out. -/
theorem realpathLaw_iff (env : RealpathEnv) (path : CString)
    (htext : (fullText env path.chars).length < vfsPathMax) (hdots : Whole env path.chars ∨ Plain env path.chars) :
    RealpathLaw env path.chars ↔ Refused env path.chars ∨ Whole env path.chars ∧ Resolves env path.chars := by
  have hkernel := vfsNormalize_eq path.nul_free env.cwd.nul_free
  by_cases hrefused : Refused env path.chars
  · refine iff_of_true ⟨none, realpath_of_refused htext hrefused, fun out hout => ?_⟩ (.inl hrefused)
    cases hout
  obtain ⟨size, hsize, hrun⟩ := realpath_of_not_refused htext hrefused
  rw [writeParts_eq] at hrun
  constructor
  · rintro ⟨r, hr, hlaw⟩
    rw [hrun] at hr
    split_ifs at hr with hfits
    · obtain rfl := Option.some.inj hr
      have hpath := hlaw _ rfl
      rw [hkernel, Option.map_eq_some_iff] at hpath
      obtain ⟨cs, hcs, hsame⟩ := hpath
      have hwhole : Whole env path.chars := by
        by_contra hlong
        exact stackOf_ne_of_resolve htext (hdots.resolve_left hlong) hlong hcs hsame.symm
      have hroom := (lt_bufferSize_iff hwhole hsize).1 hfits
      rw [stackOf_of_resolve htext hwhole hcs] at hroom
      exact .inr ⟨hwhole, cs, hcs, hroom⟩
    · cases hr
  · intro hwhen
    obtain ⟨hwhole, cs, hcs, hgiven⟩ := hwhen.resolve_left hrefused
    have hroom := lt_bufferSize_iff hwhole hsize
    rw [stackOf_of_resolve htext hwhole hcs] at hrun hroom
    rw [if_pos (hroom.2 hgiven)] at hrun
    refine ⟨some (pathString cs), hrun, fun out hout => ?_⟩
    rw [hkernel, hcs, ← Option.some.inj hout, Option.map_some]

/-- A caller in `/home`, who leaves the buffer to the library. -/
def homeEnv : RealpathEnv := ⟨⟨lit "/home", by decide, by decide⟩, rfl, true, none, true⟩

/-- A name of the directory, through the one above it. -/
theorem realpathLaw_sibling : RealpathLaw homeEnv (lit "../tmp//a/.") := by
  have hwhole : Whole homeEnv (lit "../tmp//a/.") := by
    rw [Whole]
    decide +kernel
  refine (realpathLaw_iff homeEnv ⟨lit "../tmp//a/.", by decide⟩ (by decide) (.inl hwhole)).2 (.inr ⟨hwhole, ?_⟩)
  exact ⟨[lit "tmp", lit "a"], by decide +kernel, fun size hsize => by cases hsize⟩

/-- **A component of 70 bytes**: the slash in the middle of it is written behind the memory that was asked for. -/
theorem not_realpathLaw : ¬ ∀ (env : RealpathEnv) (path : CString), RealpathLaw env path.chars := by
  intro h
  obtain ⟨r, hr, -⟩ := h homeEnv ⟨slash :: List.replicate 70 97, by decide⟩
  have hover : realpath homeEnv (slash :: List.replicate 70 97) = none := by decide +kernel
  rw [hover] at hr
  cases hr

end Tnu.Libc
