/-
**The list of repositories.**

`save_repos` of `userspace/pkg/pkg.c` formats the list into a buffer of 4096 bytes, one entry at a time, and
writes it to a file; `load_repos` looks for the keys in the text of that file.  The writer adds up what
`snprintf` would have liked to write, so that once the text does not fit the space that is left is a huge number;
it puts the names between quotes as they are; and the reader takes a list without entries for an error.

Main definitions:

* `reposText` — the text of a list.

Main results:

* `loadLoop_eq_iff` — **the entries are read back exactly when there is no quote in them**;
* `reposLaw_iff` — **a list is kept exactly when it has an entry, fits and holds no quote**.
-/

import Tnu.CString
import Tnu.Lib.Buffer
import Tnu.Lib.Search

set_option autoImplicit false

namespace Tnu.Pkg

/-! ### The program -/

/-- `struct repo_entry`. -/
structure RepoEntry where
  name : CharBuf 63
  url : CharBuf 255
  deriving DecidableEq

def maxRepos : ℕ := 16

def quote : Byte := 34

/-- `snprintf(out + pos, sizeof(out) - pos, ...)` for a text; the difference is one of 64 bits. -/
def snprintfAt (out : List Byte) (pos : ℕ) (text : List Byte) : Option (List Byte) :=
  let size := (out.length + 2 ^ 64 - pos) % 2 ^ 64
  if size = 0 then some out else Buffer.copy out pos (text.take (size - 1) ++ [0])

/-- The calls of `snprintf`, one behind the other; each adds the length of its whole text to the position. -/
def putTexts : List (List Byte) → List Byte → ℕ → Option (List Byte)
  | [], out, _ => some out
  | text :: texts, out, pos => (snprintfAt out pos text).bind fun out => putTexts texts out (pos + text.length)

def header : List Byte := lit "\x7b\n  \"repos\": [\n"

def footer : List Byte := lit "  ]\n\x7d\n"

def entryText (r : RepoEntry) (more : Bool) : List Byte :=
  lit "    \x7b\"name\":\"" ++ r.name.chars ++ lit "\",\"url\":\"" ++ r.url.chars ++ lit "\"\x7d" ++
    (if more then lit "," else []) ++ lit "\n"

def entryTexts : List RepoEntry → List (List Byte)
  | [] => []
  | r :: rs => entryText r (!rs.isEmpty) :: entryTexts rs

/-- What `save_repos` finds: what its buffer holds, the file, whether it opens, and how much each call of `write`
takes. -/
structure SaveEnv where
  out : Vector Byte 4096
  file : List Byte
  opens : Bool
  taken : ℕ → ℤ

/-- The loop of `write_all_text`; a call takes no more than it is given. -/
def writeLoop (taken : ℕ → ℤ) : ℕ → ℕ → List Byte → List Byte → List Byte × ℤ
  | 0, _, file, _ => (file, 0)
  | fuel + 1, i, file, data =>
    if data = [] then (file, 0)
    else
      let n := min (taken i) data.length
      if n ≤ 0 then (file, -1) else writeLoop taken fuel (i + 1) (file ++ data.take n.toNat) (data.drop n.toNat)

/-- `write_all_text`: the file, which was made empty when it was opened, and what is returned. -/
def writeAllText (env : SaveEnv) (data : List Byte) : List Byte × ℤ :=
  if env.opens then writeLoop env.taken data.length 0 [] data else (env.file, -1)

/-- `save_repos`; without a result it writes behind the end of its buffer. -/
def saveRepos (env : SaveEnv) (repos : List RepoEntry) : Option (List Byte × ℤ) :=
  (putTexts (header :: entryTexts repos ++ [footer]) env.out.toList 0).map fun out => writeAllText env (cstr out)

/-- `read_all_text` of a file: as much of it as there is room for. -/
def readAllText (file : List Byte) (outSize : ℕ) : List Byte := cstr (file.take (outSize - 1))

def nameKey : List Byte := lit "\"name\":\""

def urlKey : List Byte := lit "\"url\":\""

/-- One round of the loop of `load_repos`: an entry, and the text from the end of its address on. -/
def loadEntry (p : List Byte) : Option (RepoEntry × List Byte) := do
  let obj ← Search.find [123] p
  let atName ← Search.find nameKey obj.tail
  let atUrl ← Search.find urlKey obj.tail
  let name := atName.drop 8
  let _ ← Search.find [quote] name
  let url := atUrl.drop 7
  let e ← Search.find [quote] url
  pure (⟨.strncpy 63 (name.takeWhile (· ≠ quote)), .strncpy 255 (url.takeWhile (· ≠ quote))⟩, e)

/-- The loop of `load_repos`, on the number of entries there is room for. -/
def loadLoop : ℕ → List Byte → List RepoEntry
  | 0, _ => []
  | n + 1, p =>
    if p = [] ∨ p.head? = some 93 then []
    else
      match loadEntry p with
      | none => []
      | some (r, e) => r :: loadLoop n e

/-- `load_repos`: what is returned, and the entries. -/
def loadRepos (file : List Byte) : ℤ × List RepoEntry :=
  match (Search.find (lit "\"repos\"") (readAllText file 4096)).bind (Search.find [91]) with
  | none => (-1, [])
  | some p =>
    let repos := loadLoop maxRepos p.tail
    (if 0 < repos.length then 0 else -1, repos)

/-! ### What they should do -/

def reposText (repos : List RepoEntry) : List Byte := (header :: entryTexts repos ++ [footer]).flatten

/-- **A list that was saved is loaded**, nothing is written behind the buffer, and a list whose text does not fit in
it is an error. -/
def ReposLaw (repos : List RepoEntry) : Prop :=
  ∀ env, ∃ file rc, saveRepos env repos = some (file, rc) ∧ (rc = 0 → loadRepos file = (0, repos)) ∧
    (4096 ≤ (reposText repos).length → rc ≠ 0)

def RepoEntry.Plain (r : RepoEntry) : Prop := quote ∉ r.name.chars ∧ quote ∉ r.url.chars

instance (r : RepoEntry) : Decidable r.Plain := inferInstanceAs (Decidable (_ ∧ _))

/-! ### Saving -/

variable {env : SaveEnv} {repos rs : List RepoEntry} {r : RepoEntry} {out text front : List Byte} {pos n : ℕ}

theorem snprintfAt_spec (h : Buffer.Holds 4096 front out pos) (text : List Byte) (hroom : front.length + text.length < 4096) :
    ∃ out' rest, snprintfAt out pos text = some out' ∧ Buffer.Holds 4096 (front ++ text) out' (pos + text.length) ∧
      out' = front ++ text ++ 0 :: rest := by
  have hpos := h.pos_eq
  have hlen := h.length_eq
  have hsize : (out.length + 2 ^ 64 - pos) % 2 ^ 64 = 4096 - front.length := by omega
  have hwhole : text.take (4096 - front.length - 1) = text := List.take_of_length_le (by omega)
  obtain ⟨out', hcopy, hout'⟩ := h.copy (text ++ [0]) (by simp; omega)
  obtain ⟨rest, hrest⟩ := hout'.front
  have heq : out' = front ++ text ++ 0 :: rest := by
    rw [hrest]
    simp only [List.append_assoc, List.cons_append, List.nil_append]
  refine ⟨out', rest, ?_, ⟨hout'.length_eq, ⟨0 :: rest, heq⟩, by rw [List.length_append, hpos]⟩, heq⟩
  rw [snprintfAt, hsize, if_neg (by omega), hwhole, hcopy]

/-- **Texts that fit together** are written one behind the other, and terminated. -/
theorem putTexts_spec (texts : List (List Byte)) (hne : texts ≠ []) (h : Buffer.Holds 4096 front out pos)
    (hroom : front.length + texts.flatten.length < 4096) :
    ∃ out' rest, putTexts texts out pos = some out' ∧ out' = front ++ texts.flatten ++ 0 :: rest := by
  induction texts generalizing front out pos with
  | nil => exact absurd rfl hne
  | cons text texts ih =>
    rw [List.flatten_cons, List.length_append] at hroom
    obtain ⟨out₁, rest₁, hput, hholds, heq⟩ := snprintfAt_spec h text (by omega)
    rw [putTexts, hput, Option.bind_some]
    by_cases hlast : texts = []
    · subst hlast
      exact ⟨out₁, rest₁, rfl, by simpa using heq⟩
    · obtain ⟨out₂, rest₂, hputs, heq₂⟩ := ih hlast hholds (by rw [List.length_append]; omega)
      refine ⟨out₂, rest₂, hputs, ?_⟩
      rw [heq₂, List.flatten_cons, List.append_assoc front]

theorem writeLoop_ok {taken : ℕ → ℤ} {fuel i : ℕ} {file data : List Byte} (hfuel : data.length ≤ fuel)
    (h : (writeLoop taken fuel i file data).2 = 0) : (writeLoop taken fuel i file data).1 = file ++ data := by
  induction fuel generalizing i file data with
  | zero =>
    obtain rfl := List.eq_nil_of_length_eq_zero (Nat.le_zero.1 hfuel)
    rw [writeLoop, List.append_nil]
  | succ fuel ih =>
    rw [writeLoop] at h ⊢
    by_cases hdata : data = []
    · rw [if_pos hdata, hdata, List.append_nil]
    · rw [if_neg hdata] at h ⊢
      dsimp only at h ⊢
      by_cases hn : min (taken i) data.length ≤ 0
      · rw [if_pos hn] at h
        cases h
      · rw [if_neg hn] at h ⊢
        have hrest : (data.drop (min (taken i) data.length).toNat).length ≤ fuel := by
          rw [List.length_drop]
          omega
        rw [ih hrest h, List.append_assoc, List.take_append_drop]

theorem writeAllText_ok {data : List Byte} (h : (writeAllText env data).2 = 0) : (writeAllText env data).1 = data := by
  rw [writeAllText] at h ⊢
  by_cases hopens : env.opens = true
  · rw [if_pos hopens] at h ⊢
    exact writeLoop_ok le_rfl h
  · rw [if_neg hopens] at h
    cases h

theorem length_putTexts {texts : List (List Byte)} {out' : List Byte} (h : putTexts texts out pos = some out') :
    out'.length = out.length := by
  induction texts generalizing out pos with
  | nil => rw [← Option.some.inj h]
  | cons text texts ih =>
    obtain ⟨out₁, hput, hrest⟩ := Option.bind_eq_some_iff.1 h
    rw [ih hrest]
    rw [snprintfAt] at hput
    split_ifs at hput
    · rw [← Option.some.inj hput]
    · exact Buffer.length_copy hput

def goodEnv : SaveEnv := ⟨Vector.replicate 4096 0, [], true, fun _ => 4096⟩

theorem writeAllText_good (data : List Byte) (h : data.length ≤ 4096) : writeAllText goodEnv data = (data, 0) := by
  have hopens : goodEnv.opens = true := rfl
  rw [writeAllText, if_pos hopens]
  cases data with
  | nil => rfl
  | cons c data =>
    have hn : min (4096 : ℤ) ((c :: data).length : ℤ) = (c :: data).length := min_eq_right (by omega)
    have hpos : ¬ ((c :: data).length : ℤ) ≤ 0 := by
      rw [List.length_cons]
      omega
    rw [List.length_cons, writeLoop, if_neg (List.cons_ne_nil _ _)]
    dsimp only [goodEnv]
    rw [hn, if_neg hpos, Int.toNat_natCast, List.take_length, List.drop_length]
    cases data.length <;> rfl

/-! ### The text -/

theorem zero_notMem_entryTexts (rs : List RepoEntry) : 0 ∉ (entryTexts rs).flatten := by
  induction rs with
  | nil => exact List.not_mem_nil
  | cons r rs ih =>
    have hfront : 0 ∉ lit "    \x7b\"name\":\"" ∧ 0 ∉ lit "\",\"url\":\"" ∧ 0 ∉ lit "\"\x7d" ∧
        0 ∉ (if (!rs.isEmpty) = true then lit "," else []) ∧ 0 ∉ lit "\n" := by
      refine ⟨by decide, by decide, by decide, ?_, by decide⟩
      split_ifs
      · decide
      · exact List.not_mem_nil
    obtain ⟨h₁, h₂, h₃, h₄, h₅⟩ := hfront
    simp only [entryTexts, List.flatten_cons, entryText, List.mem_append, not_or]
    exact ⟨⟨⟨⟨⟨⟨⟨h₁, r.name.nul_free⟩, h₂⟩, r.url.nul_free⟩, h₃⟩, h₄⟩, h₅⟩, ih⟩

theorem reposText_eq (repos : List RepoEntry) : reposText repos = header ++ ((entryTexts repos).flatten ++ footer) := by
  rw [reposText, List.cons_append, List.flatten_cons, List.flatten_append, List.flatten_singleton]

theorem zero_notMem_reposText (repos : List RepoEntry) : 0 ∉ reposText repos := by
  rw [reposText_eq, List.mem_append, List.mem_append, not_or, not_or]
  exact ⟨by decide, zero_notMem_entryTexts repos, by decide⟩

/-- **A text that fits is what is written.** -/
theorem saveRepos_of_fits (env : SaveEnv) (h : (reposText repos).length < 4096) :
    saveRepos env repos = some (writeAllText env (reposText repos)) := by
  have hempty : Buffer.Holds 4096 [] env.out.toList 0 := by
    simpa using Buffer.Holds.nil env.out.toList
  obtain ⟨out, rest, hput, hout⟩ := putTexts_spec (header :: entryTexts repos ++ [footer]) (by simp) hempty
    (by rwa [List.length_nil, Nat.zero_add, ← reposText])
  rw [List.nil_append, ← reposText] at hout
  rw [saveRepos, hput, Option.map_some, hout, cstr_append_zero (zero_notMem_reposText repos)]

/-! ### Loading -/

/-- **A field between quotes is read back** exactly when there is no quote in it. -/
theorem strncpy_takeWhile_iff (b : CharBuf n) (rest : List Byte) :
    CharBuf.strncpy n ((b.chars ++ quote :: rest).takeWhile (· ≠ quote)) = b ↔ quote ∉ b.chars := by
  have hstop : ∀ a l : List Byte, quote ∉ a → (a ++ quote :: l).takeWhile (· ≠ quote) = a := fun a l ha => by
    have hpos : ∀ c ∈ a, decide (c ≠ quote) = true := fun c hc => decide_eq_true fun e => ha (e ▸ hc)
    rw [List.takeWhile_append_of_pos hpos, List.takeWhile_cons_of_neg (by simp), List.append_nil]
  constructor
  · intro h hmem
    obtain ⟨a, l, hsplit, ha⟩ := List.eq_append_cons_of_mem hmem
    rw [hsplit, List.append_assoc, List.cons_append, hstop a _ ha] at h
    have hle : (CharBuf.strncpy n a).chars.length ≤ a.length := by
      rw [CharBuf.strncpy_chars, List.length_take]
      exact (min_le_right _ _).trans (List.takeWhile_prefix _).length_le
    rw [h, hsplit, List.length_append, List.length_cons] at hle
    omega
  · intro h
    rw [hstop _ _ h, CharBuf.strncpy_self]

def entryEnd (more : Bool) (tail : List Byte) : List Byte := 125 :: ((if more then lit "," else []) ++ 10 :: tail)

theorem entryText_append (r : RepoEntry) (more : Bool) (tail : List Byte) :
    entryText r more ++ tail = [32, 32, 32, 32] ++ 123 :: (nameKey ++ (r.name.chars ++ quote :: 44 :: (urlKey ++
      (r.url.chars ++ quote :: entryEnd more tail)))) := by
  have hopen : lit "    \x7b\"name\":\"" = [32, 32, 32, 32] ++ 123 :: nameKey := rfl
  have hmid : lit "\",\"url\":\"" = quote :: 44 :: urlKey := rfl
  have hclose : lit "\"\x7d" = [quote, 125] := rfl
  have hline : lit "\n" = [10] := rfl
  rw [entryText, hopen, hmid, hclose, hline, entryEnd]
  simp only [List.append_assoc, List.cons_append, List.nil_append]

theorem find_urlKey {name : List Byte} (hname : quote ∉ name) (rest : List Byte) :
    Search.find urlKey (nameKey ++ (name ++ quote :: 44 :: (urlKey ++ rest))) = some (urlKey ++ rest) := by
  have hkey : urlKey = quote :: ([117, 114, 108] ++ quote :: 58 :: [quote]) := rfl
  have hother : ∀ l : List Byte, l.head? ≠ some 117 → ¬ urlKey <+: quote :: l := fun l hl hp => by
    rw [hkey, List.cons_prefix_cons] at hp
    obtain ⟨t, rfl⟩ := hp.2
    exact hl rfl
  have hskip : ∀ front l : List Byte, quote ∉ front → Search.find urlKey (front ++ l) = Search.find urlKey l :=
    fun front l hfront => Search.find_append hfront
  -- behind the name stands a comma, behind the letters of the key a colon
  have hmiddle : ¬ urlKey <+: quote :: (name ++ quote :: ([44] ++ (urlKey ++ rest))) := fun hp => by
    rw [hkey, List.cons_prefix_cons] at hp
    exact absurd (Search.eq_of_prefix (by decide) hname hp.2) (by decide)
  have hlayout : nameKey ++ (name ++ quote :: 44 :: (urlKey ++ rest)) =
      quote :: ([110, 97, 109, 101] ++ quote :: ([58] ++ quote :: (name ++ quote :: ([44] ++ (urlKey ++ rest))))) := rfl
  rw [hlayout, Search.find_of_not_prefix (hother _ (by simp)), hskip _ _ (by decide),
    Search.find_of_not_prefix (hother _ (by simp)), hskip _ _ (by decide), Search.find_of_not_prefix hmiddle,
    hskip _ _ hname, Search.find_of_not_prefix (hother _ (by simp)), hskip _ _ (by decide)]
  exact Search.find_of_prefix (List.prefix_append _ _)

theorem loadEntry_name {e : List Byte} {r' : RepoEntry} {more : Bool} {tail : List Byte} (hfront : 123 ∉ front)
    (h : loadEntry (front ++ (entryText r more ++ tail)) = some (r', e)) :
    r'.name = .strncpy 63 ((r.name.chars ++ quote :: 44 :: (urlKey ++ (r.url.chars ++ quote :: entryEnd more tail)))
      |>.takeWhile (· ≠ quote)) := by
  have hspaces : 123 ∉ front ++ [32, 32, 32, 32] := by
    rw [List.mem_append, not_or]
    exact ⟨hfront, by decide⟩
  have hobj := Search.find_singleton hspaces (nameKey ++ (r.name.chars ++ quote :: 44 :: (urlKey ++ (r.url.chars ++
    quote :: entryEnd more tail))))
  rw [List.append_assoc, ← entryText_append] at hobj
  simp only [loadEntry, hobj, Option.bind_eq_bind, Option.bind_some, List.tail_cons,
    Search.find_of_prefix (List.prefix_append nameKey _), Option.bind_eq_some_iff, Option.pure_def,
    Option.some.injEq, Prod.mk.injEq] at h
  obtain ⟨atUrl, -, q, -, e', -, rfl, -⟩ := h
  rfl

/-- **An entry that is read**, when there is no quote in its name. -/
theorem loadEntry_append (hfront : 123 ∉ front) (hname : quote ∉ r.name.chars) (more : Bool) (tail : List Byte) :
    ∃ e, Search.find [quote] (r.url.chars ++ quote :: entryEnd more tail) = some e ∧
      loadEntry (front ++ (entryText r more ++ tail)) = some (⟨r.name,
        .strncpy 255 ((r.url.chars ++ quote :: entryEnd more tail).takeWhile (· ≠ quote))⟩, e) := by
  have hspaces : 123 ∉ front ++ [32, 32, 32, 32] := by
    rw [List.mem_append, not_or]
    exact ⟨hfront, by decide⟩
  have hobj := Search.find_singleton hspaces (nameKey ++ (r.name.chars ++ quote :: 44 :: (urlKey ++ (r.url.chars ++
    quote :: entryEnd more tail))))
  rw [List.append_assoc, ← entryText_append] at hobj
  have hend : ∃ e, Search.find [quote] (r.url.chars ++ quote :: entryEnd more tail) = some e := by
    obtain ⟨a, l, hsplit, ha⟩ := List.eq_append_cons_of_mem
      (List.mem_append_right r.url.chars (List.mem_cons_self (a := quote) (l := entryEnd more tail)))
    exact ⟨_, by rw [hsplit, Search.find_singleton ha]⟩
  obtain ⟨e, he⟩ := hend
  refine ⟨e, he, ?_⟩
  have hkeep := (strncpy_takeWhile_iff r.name (44 :: (urlKey ++ (r.url.chars ++ quote :: entryEnd more tail)))).2 hname
  have hdropName : ∀ l, (nameKey ++ l).drop 8 = l := fun l => List.drop_left' rfl
  have hdropUrl : ∀ l, (urlKey ++ l).drop 7 = l := fun l => List.drop_left' rfl
  simp only [loadEntry, hobj, Option.bind_eq_bind, Option.bind_some, List.tail_cons,
    Search.find_of_prefix (List.prefix_append nameKey _), find_urlKey hname, hdropName, hdropUrl,
    Search.find_singleton hname, he, Option.pure_def, hkeep]

theorem bracket_notMem_footer : 123 ∉ footer := by decide

/-- **The entries are read back exactly when there is no quote in them.** -/
theorem loadLoop_eq_iff (hne : front ≠ []) (hhead : front.head? ≠ some 93) (hfront : 123 ∉ front)
    (hn : rs.length ≤ n) :
    loadLoop n (front ++ ((entryTexts rs).flatten ++ footer)) = rs ↔ ∀ r ∈ rs, r.Plain := by
  induction rs generalizing n front with
  | nil =>
    have hnone : 123 ∉ front ++ footer := by
      rw [List.mem_append, not_or]
      exact ⟨hfront, bracket_notMem_footer⟩
    have hload : loadEntry (front ++ footer) = none := by
      rw [loadEntry, Search.find_singleton_eq_none hnone]
      rfl
    simp only [entryTexts, List.flatten_nil, List.nil_append, List.not_mem_nil, false_implies, implies_true, iff_true]
    cases n with
    | zero => rfl
    | succ n => rw [loadLoop, hload, ite_self]
  | cons r rs ih =>
    obtain ⟨n, rfl⟩ : ∃ m, n = m + 1 := ⟨n - 1, by rw [List.length_cons] at hn; omega⟩
    have hgo : ∀ l : List Byte, ¬(front ++ l = [] ∨ (front ++ l).head? = some 93) := fun l => by
      obtain ⟨c, front, rfl⟩ := List.exists_cons_of_ne_nil hne
      rintro (h | h)
      · cases h
      · exact hhead h
    rw [entryTexts, List.flatten_cons, List.append_assoc, loadLoop, if_neg (hgo _), List.forall_mem_cons]
    generalize htail : (entryTexts rs).flatten ++ footer = tail
    by_cases hname : quote ∈ r.name.chars
    · -- the name is cut at the quote, or nothing is read at all
      refine iff_of_false (fun h => ?_) fun h => h.1.1 hname
      cases hload : loadEntry (front ++ (entryText r (!rs.isEmpty) ++ tail)) with
      | none =>
        rw [hload] at h
        cases h
      | some p =>
        obtain ⟨r', e⟩ := p
        rw [hload] at h
        obtain ⟨rfl, -⟩ := List.cons.inj h
        exact (strncpy_takeWhile_iff _ _).1 (loadEntry_name hfront hload).symm hname
    · obtain ⟨e, he, hload⟩ := loadEntry_append hfront hname (!rs.isEmpty) tail
      rw [hload]
      dsimp only
      rw [List.cons.injEq]
      by_cases hurl : quote ∈ r.url.chars
      · refine iff_of_false (fun h => ?_) fun h => h.1.2 hurl
        exact (strncpy_takeWhile_iff _ _).1 (congrArg RepoEntry.url h.1) hurl
      · rw [(strncpy_takeWhile_iff r.url _).2 hurl]
        obtain rfl := Option.some.inj (he.symm.trans (Search.find_singleton hurl _))
        have hend : quote :: entryEnd (!rs.isEmpty) tail =
            (quote :: 125 :: ((if !rs.isEmpty then lit "," else []) ++ [10])) ++ tail := by
          simp only [entryEnd, List.cons_append, List.append_assoc, List.nil_append]
        have hplain : 123 ∉ quote :: 125 :: ((if !rs.isEmpty then lit "," else []) ++ [10]) := by
          cases rs.isEmpty <;> decide
        have hquote : (quote :: 125 :: ((if !rs.isEmpty then lit "," else []) ++ [10])).head? ≠ some 93 := fun h =>
          absurd (Option.some.inj h) (by decide)
        rw [hend, ← htail, ih (List.cons_ne_nil _ _) hquote hplain (by rw [List.length_cons] at hn; omega)]
        exact and_congr_left fun _ => iff_of_true rfl ⟨hname, hurl⟩

theorem loadRepos_reposText_iff (hfits : (reposText repos).length < 4096) (hlen : repos.length ≤ maxRepos) :
    loadRepos (reposText repos) = (0, repos) ↔ repos ≠ [] ∧ ∀ r ∈ repos, r.Plain := by
  have hread : readAllText (reposText repos) 4096 = reposText repos := by
    rw [readAllText, List.take_of_length_le (Nat.le_sub_one_of_lt hfits), cstr_of_notMem (zero_notMem_reposText repos)]
  have hlayout : reposText repos = [123, 10, 32, 32] ++ (lit "\"repos\"" ++ ([58, 32] ++ 91 ::
      ([10] ++ ((entryTexts repos).flatten ++ footer)))) := reposText_eq repos
  have hkey : ∀ l : List Byte, Search.find (lit "\"repos\"") ([123, 10, 32, 32] ++ (lit "\"repos\"" ++ l)) =
      some (lit "\"repos\"" ++ l) := fun l => by
    have hskip : Search.find (quote :: lit "repos\"") ([123, 10, 32, 32] ++ (lit "\"repos\"" ++ l)) =
        Search.find (quote :: lit "repos\"") (lit "\"repos\"" ++ l) := Search.find_append (by decide)
    exact hskip.trans (Search.find_of_prefix (List.prefix_append _ _))
  have hbracket : ∀ l : List Byte, Search.find [91] (lit "\"repos\"" ++ ([58, 32] ++ 91 :: l)) = some (91 :: l) :=
    fun l => by
      rw [← List.append_assoc]
      exact Search.find_singleton (by decide) l
  have hloop : loadLoop maxRepos ([10] ++ ((entryTexts repos).flatten ++ footer)) = repos ↔ ∀ r ∈ repos, r.Plain :=
    loadLoop_eq_iff (by decide) (by decide) (by decide) hlen
  have hrun : loadRepos (reposText repos) =
      (if 0 < (loadLoop maxRepos ([10] ++ ((entryTexts repos).flatten ++ footer))).length then 0 else -1,
        loadLoop maxRepos ([10] ++ ((entryTexts repos).flatten ++ footer))) := by
    rw [loadRepos, hread, hlayout, hkey, Option.bind_some, hbracket]
    rfl
  rw [hrun, Prod.mk.injEq, ← hloop]
  generalize loadLoop maxRepos ([10] ++ ((entryTexts repos).flatten ++ footer)) = loaded
  constructor
  · rintro ⟨hrc, rfl⟩
    refine ⟨fun hnil => ?_, rfl⟩
    rw [hnil] at hrc
    exact absurd hrc (by decide)
  · rintro ⟨hne, rfl⟩
    exact ⟨if_pos (List.length_pos_of_ne_nil hne), rfl⟩

/-- **A list is kept exactly when it has an entry, its text fits and there is no quote in it.** -/
theorem reposLaw_iff (repos : List RepoEntry) (hlen : repos.length ≤ maxRepos) :
    ReposLaw repos ↔ repos ≠ [] ∧ (reposText repos).length < 4096 ∧ ∀ r ∈ repos, r.Plain := by
  constructor
  · intro hlaw
    obtain ⟨file, rc, hsave, hload, herror⟩ := hlaw goodEnv
    have hfits : (reposText repos).length < 4096 := by
      by_contra hlong
      -- the calls succeed, whatever was written
      refine herror (Nat.le_of_not_lt hlong) ?_
      rw [saveRepos, Option.map_eq_some_iff] at hsave
      obtain ⟨out, hput, hwrite⟩ := hsave
      have hout : (cstr out).length ≤ 4096 := by
        rw [← goodEnv.out.length_toList, ← length_putTexts hput]
        exact (List.takeWhile_prefix _).length_le
      rw [writeAllText_good _ hout] at hwrite
      exact (congrArg Prod.snd hwrite).symm
    rw [saveRepos_of_fits _ hfits, writeAllText_good _ hfits.le] at hsave
    obtain ⟨rfl, rfl⟩ := Prod.mk.inj (Option.some.inj hsave)
    obtain ⟨hne, hplain⟩ := (loadRepos_reposText_iff hfits hlen).1 (hload rfl)
    exact ⟨hne, hfits, hplain⟩
  · rintro ⟨hne, hfits, hplain⟩ env
    refine ⟨(writeAllText env (reposText repos)).1, (writeAllText env (reposText repos)).2, saveRepos_of_fits env hfits,
      fun hrc => ?_, fun hlong => absurd hfits hlong.not_gt⟩
    rw [writeAllText_ok hrc]
    exact (loadRepos_reposText_iff hfits hlen).2 ⟨hne, hplain⟩

/-- One of the lists that are there by default. -/
theorem reposLaw_default : ReposLaw [⟨⟨lit "universe-main", by decide, by decide⟩,
    ⟨lit "file:/universe-main", by decide, by decide⟩⟩] :=
  (reposLaw_iff _ (by decide)).2 ⟨by decide, by decide, by decide⟩

def quoted : RepoEntry := ⟨⟨lit "a\"b", by decide, by decide⟩, ⟨lit "file:/x", by decide, by decide⟩⟩

/-- It is not read back. -/
theorem not_reposLaw : ¬ ∀ repos : List RepoEntry, repos.length ≤ maxRepos → ReposLaw repos := by
  intro h
  obtain ⟨file, rc, hsave, hload, -⟩ := h [quoted] (by decide) goodEnv
  have hfits : (reposText [quoted]).length < 4096 := by decide
  rw [saveRepos_of_fits _ hfits, writeAllText_good _ hfits.le] at hsave
  obtain ⟨rfl, rfl⟩ := Prod.mk.inj (Option.some.inj hsave)
  obtain ⟨-, hplain⟩ := (loadRepos_reposText_iff hfits (by decide)).1 (hload rfl)
  exact absurd hplain (by decide)

end Tnu.Pkg
