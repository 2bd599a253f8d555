/-
**Words written with a separator.**

Paths, lines and colon-separated fields are all lists of words laid out in one word with a
separator letter between or in front of them.  This module relates the two readings: cutting a
word at a separator and dropping the empty pieces, and laying pieces out again.

Main definitions:

* `Sep.beforeFirst`, `Sep.afterFirst`, `Sep.fields` — the parts of a word around its first
  separators;
* `Sep.afterLast`, `Sep.beforeLast` — the parts of a word around its last separator.

Main results:

* `Sep.fields_append`, `Sep.fields_append_right` — the fields of a longer word;
* `Sep.length_pieces_le` — a cut has no more pieces than separators, and one more;
* `Sep.joinPre_injective` — the layout determines its pieces;
* `Sep.afterLast_append`, `Sep.beforeLast_append` — the last separator of a layout is the one in
  front of its last piece.
-/

import Mathlib.Data.List.Basic
import Mathlib.Data.List.TakeWhile
import Mathlib.Tactic

set_option autoImplicit false

namespace Sep

variable {α : Type*} [DecidableEq α]

/-! ### Cutting -/

/-- The non-empty pieces of `l` between occurrences of `sep`. -/
def pieces (sep : α) (l : List α) : List (List α) :=
  (l.splitOn sep).filter (· ≠ [])

@[simp] theorem pieces_nil (sep : α) : pieces sep [] = [] := by
  simp [pieces, List.splitOn_nil]

variable {ls : List (List α)} {l p : List α} {c sep : α} {n : ℕ}

theorem ne_nil_of_mem_pieces (h : p ∈ pieces sep l) : p ≠ [] := by
  simpa using (List.mem_filter.1 h).2

theorem not_mem_of_mem_splitOn (h : p ∈ l.splitOn sep) : sep ∉ p := by
  induction l generalizing p with
  | nil =>
    rw [List.splitOn_nil, List.mem_singleton] at h
    simp [h]
  | cons c l ih =>
    rw [List.splitOn_cons_eq_if_modifyHead] at h
    by_cases hc : (c == sep) = true
    · rw [if_pos hc] at h
      rcases List.mem_cons.1 h with rfl | h
      · simp
      · exact ih h
    · rw [if_neg hc] at h
      cases hs : l.splitOn sep with
      | nil => exact absurd hs (List.splitOn_ne_nil _ _)
      | cons q qs =>
        rw [hs, List.modifyHead_cons] at h
        rcases List.mem_cons.1 h with rfl | h
        · have hq : sep ∉ q := ih (by simp [hs])
          have hne : sep ≠ c := fun e => hc (by simp [e])
          simp [hq, hne]
        · exact ih (by simp [hs, h])

theorem not_mem_of_mem_pieces (h : p ∈ pieces sep l) : sep ∉ p :=
  not_mem_of_mem_splitOn (List.mem_filter.1 h).1

theorem mem_of_mem_splitOn (h : p ∈ l.splitOn sep) (hc : c ∈ p) :
    c ∈ l := by
  induction l generalizing p with
  | nil =>
    rw [List.splitOn_nil, List.mem_singleton] at h
    simp [h] at hc
  | cons d l ih =>
    rw [List.splitOn_cons_eq_if_modifyHead] at h
    by_cases hd : (d == sep) = true
    · rw [if_pos hd] at h
      rcases List.mem_cons.1 h with rfl | h
      · simp at hc
      · exact List.mem_cons_of_mem _ (ih h hc)
    · rw [if_neg hd] at h
      cases hs : l.splitOn sep with
      | nil => exact absurd hs (List.splitOn_ne_nil _ _)
      | cons q qs =>
        rw [hs, List.modifyHead_cons] at h
        rcases List.mem_cons.1 h with rfl | h
        · rcases List.mem_cons.1 hc with rfl | hc
          · simp
          · exact List.mem_cons_of_mem _ (ih (by simp [hs]) hc)
        · exact List.mem_cons_of_mem _ (ih (by simp [hs, h]) hc)

theorem mem_of_mem_pieces (h : p ∈ pieces sep l) (hc : c ∈ p) :
    c ∈ l :=
  mem_of_mem_splitOn (List.mem_filter.1 h).1 hc

theorem pieces_append_sep (hp : sep ∉ p) (l : List α) :
    pieces sep (p ++ sep :: l) = if p = [] then pieces sep l else p :: pieces sep l := by
  rw [pieces, List.splitOn_append_cons_self_of_not_mem hp]
  by_cases h : p = [] <;> simp [pieces, h]

theorem pieces_sep_cons (sep : α) (l : List α) : pieces sep (sep :: l) = pieces sep l := by
  have h := pieces_append_sep (by simp : sep ∉ ([] : List α)) l
  simpa using h

/-- **The pieces on both sides of a separator.** -/
theorem pieces_append (sep : α) (l m : List α) :
    pieces sep (l ++ sep :: m) = pieces sep l ++ pieces sep m := by
  rw [pieces, List.splitOn_append_cons_self, List.filter_append]
  rfl

theorem pieces_of_not_mem (hp : sep ∉ p) (hne : p ≠ []) :
    pieces sep p = [p] := by
  simp [pieces, List.splitOn_eq_singleton hp, hne]

theorem length_pieces_le (sep : α) (l : List α) :
    (pieces sep l).length ≤ l.count sep + if l.getLast? = some sep ∨ l = [] then 0 else 1 := by
  induction hn : l.length using Nat.strong_induction_on generalizing l with
  | _ n ih =>
    by_cases hmem : sep ∈ l
    · obtain ⟨p, r, rfl, hp⟩ := List.eq_append_cons_of_mem hmem
      have hr := ih r.length (by
        rw [← hn, List.length_append, List.length_cons]
        omega) r rfl
      have hlast : (p ++ sep :: r).getLast? = if r = [] then some sep else r.getLast? := by
        cases r with
        | nil => simp
        | cons x r => simp [List.getLast?_cons]
      have hcount : (p ++ sep :: r).count sep = r.count sep + 1 := by
        rw [List.count_append, List.count_cons_self, List.count_eq_zero_of_not_mem hp, Nat.zero_add]
      rw [pieces_append_sep hp, hlast, hcount]
      by_cases hnil : r = []
      · subst hnil
        by_cases hpn : p = [] <;> simp [hpn]
      · have hne : ¬ (p ++ sep :: r = []) := by simp
        simp only [hnil, if_false, or_false, hne] at hr ⊢
        by_cases hpn : p = []
        · rw [if_pos hpn]
          omega
        · rw [if_neg hpn, List.length_cons]
          omega
    · by_cases hl : l = []
      · simp [hl]
      · have hlast : ¬ (l.getLast? = some sep ∨ l = []) := by
          rintro (h | h)
          · exact hmem (List.mem_of_getLast? h)
          · exact hl h
        rw [pieces_of_not_mem hmem hl, if_neg hlast]
        simp

/-! ### Laying out -/

/-- The pieces laid out with the separator in front of each: `/a/b`. -/
def joinPre (sep : α) (ls : List (List α)) : List α := ls.flatMap (sep :: ·)

/-- The pieces laid out with the separator behind each: a text of terminated lines. -/
def joinPost (sep : α) (ls : List (List α)) : List α := ls.flatMap (· ++ [sep])

omit [DecidableEq α] in
@[simp] theorem joinPre_nil (sep : α) : joinPre sep [] = [] := rfl

omit [DecidableEq α] in
@[simp] theorem joinPre_cons (sep : α) (p : List α) (ls : List (List α)) :
    joinPre sep (p :: ls) = sep :: (p ++ joinPre sep ls) := by simp [joinPre]

omit [DecidableEq α] in
theorem joinPre_append (sep : α) (ls ms : List (List α)) :
    joinPre sep (ls ++ ms) = joinPre sep ls ++ joinPre sep ms := by simp [joinPre]

omit [DecidableEq α] in
theorem joinPre_snoc (sep : α) (ls : List (List α)) (p : List α) :
    joinPre sep (ls ++ [p]) = joinPre sep ls ++ sep :: p := by simp [joinPre_append]

omit [DecidableEq α] in
@[simp] theorem joinPre_eq_nil (sep : α) (ls : List (List α)) :
    joinPre sep ls = [] ↔ ls = [] := by
  cases ls <;> simp

omit [DecidableEq α] in
@[simp] theorem joinPost_nil (sep : α) : joinPost sep [] = [] := rfl

omit [DecidableEq α] in
@[simp] theorem joinPost_cons (sep : α) (p : List α) (ls : List (List α)) :
    joinPost sep (p :: ls) = p ++ sep :: joinPost sep ls := by simp [joinPost]

omit [DecidableEq α] in
theorem joinPost_append (sep : α) (ls ms : List (List α)) :
    joinPost sep (ls ++ ms) = joinPost sep ls ++ joinPost sep ms := by simp [joinPost]

/-- **Cutting undoes the layout** with separators in front, when the pieces are real pieces. -/
theorem pieces_joinPre (hne : ∀ p ∈ ls, p ≠ [])
    (hsep : ∀ p ∈ ls, sep ∉ p) : pieces sep (joinPre sep ls) = ls := by
  induction ls with
  | nil => simp
  | cons p ls ih =>
    have hih : pieces sep (joinPre sep ls) = ls :=
      ih (fun q hq => hne q (by simp [hq])) (fun q hq => hsep q (by simp [hq]))
    rw [joinPre_cons, pieces_sep_cons]
    cases ls with
    | nil => simpa using pieces_of_not_mem (hsep p (by simp)) (hne p (by simp))
    | cons q ls =>
      rw [joinPre_cons] at hih ⊢
      rw [pieces_append_sep (hsep p (by simp)), if_neg (hne p (by simp))]
      rw [pieces_sep_cons] at hih
      rw [hih]

/-- **Cutting undoes the layout** with separators behind. -/
theorem pieces_joinPost (hne : ∀ p ∈ ls, p ≠ [])
    (hsep : ∀ p ∈ ls, sep ∉ p) : pieces sep (joinPost sep ls) = ls := by
  induction ls with
  | nil => simp
  | cons p ls ih =>
    rw [joinPost_cons, pieces_append_sep (hsep p (by simp)), if_neg (hne p (by simp)),
      ih (fun q hq => hne q (by simp [hq])) (fun q hq => hsep q (by simp [hq]))]

theorem pieces_joinPost_append {q : List α} (hne : ∀ p ∈ ls, p ≠ [])
    (hsep : ∀ p ∈ ls, sep ∉ p) (hq : sep ∉ q) (hqne : q ≠ []) :
    pieces sep (joinPost sep ls ++ q) = ls ++ [q] := by
  induction ls with
  | nil => simpa using pieces_of_not_mem hq hqne
  | cons p ls ih =>
    rw [joinPost_cons, List.append_assoc, List.cons_append,
      pieces_append_sep (hsep p (by simp)), if_neg (hne p (by simp)),
      ih (fun r hr => hne r (by simp [hr])) (fun r hr => hsep r (by simp [hr])), List.cons_append]

theorem length_joinPre_pieces (sep : α) (l : List α) :
    (joinPre sep (pieces sep l)).length ≤ l.length + 1 := by
  induction hn : l.length using Nat.strong_induction_on generalizing l with
  | _ n ih =>
    by_cases hmem : sep ∈ l
    · obtain ⟨p, r, rfl, hp⟩ := List.eq_append_cons_of_mem hmem
      rw [List.length_append, List.length_cons] at hn
      have hr := ih r.length (by omega) r rfl
      rw [pieces_append_sep hp]
      split
      · omega
      · rw [joinPre_cons, List.length_cons, List.length_append]
        omega
    · by_cases hl : l = []
      · simp [hl]
      · rw [pieces_of_not_mem hmem hl, joinPre_cons, joinPre_nil, List.append_nil, List.length_cons]
        omega

/-! ### The first separator -/

def beforeFirst (sep : α) (l : List α) : List α := l.takeWhile (· ≠ sep)

theorem beforeFirst_of_not_mem (hp : sep ∉ p) : beforeFirst sep p = p := by
  refine List.takeWhile_eq_self_iff.2 fun x hx => ?_
  simpa using fun e : x = sep => hp (e ▸ hx)

theorem beforeFirst_append (hp : sep ∉ p) (l : List α) :
    beforeFirst sep (p ++ sep :: l) = p := by
  have hpos : ∀ x ∈ p, decide (x ≠ sep) = true := fun x hx => by
    simpa using fun e : x = sep => hp (e ▸ hx)
  rw [beforeFirst, List.takeWhile_append_of_pos hpos]
  simp

theorem beforeFirst_eq_iff {w : List α} (hw : sep ∉ w) (l : List α) :
    beforeFirst sep l = w ↔ l = w ∨ l.take (w.length + 1) = w ++ [sep] := by
  constructor
  · rintro rfl
    have hl := List.takeWhile_append_dropWhile (p := fun x => decide (x ≠ sep)) (l := l)
    have hhead := List.head?_dropWhile_not (fun x => decide (x ≠ sep)) l
    cases hd : l.dropWhile (fun x => decide (x ≠ sep)) with
    | nil =>
      left
      rw [hd, List.append_nil] at hl
      exact hl.symm
    | cons x r =>
      right
      rw [hd] at hl hhead
      obtain rfl : x = sep := by simpa using hhead
      have htake : (beforeFirst x l ++ [x] ++ r).take ((beforeFirst x l).length + 1) =
          beforeFirst x l ++ [x] := List.take_left' (by simp)
      rw [← htake]
      congr 1
      simpa [beforeFirst] using hl.symm
  · rintro (rfl | h)
    · exact beforeFirst_of_not_mem hw
    · have hl := List.take_append_drop (w.length + 1) l
      rw [h, List.append_assoc, List.singleton_append] at hl
      rw [← hl]
      exact beforeFirst_append hw _

def afterFirst (sep : α) (l : List α) : List α := (l.dropWhile (· ≠ sep)).tail

theorem afterFirst_append (hp : sep ∉ p) (l : List α) :
    afterFirst sep (p ++ sep :: l) = l := by
  have hpos : ∀ x ∈ p, decide (x ≠ sep) = true := fun x hx => by
    simpa using fun e : x = sep => hp (e ▸ hx)
  rw [afterFirst, List.dropWhile_append_of_pos hpos]
  simp

/-- The first `n + 1` fields of a word, the last of them with all that follows. -/
def fields (sep : α) : ℕ → List α → List (List α)
  | 0, l => [l]
  | n + 1, l => if sep ∈ l then beforeFirst sep l :: fields sep n (afterFirst sep l) else [l]

theorem fields_append (hp : sep ∉ p) (n : ℕ) (l : List α) :
    fields sep (n + 1) (p ++ sep :: l) = p :: fields sep n l := by
  rw [fields, if_pos (by simp), beforeFirst_append hp, afterFirst_append hp]

theorem mem_of_mem_fields (h : p ∈ fields sep n l) (hc : c ∈ p) :
    c ∈ l := by
  induction n generalizing l with
  | zero =>
    rw [fields, List.mem_singleton] at h
    exact h ▸ hc
  | succ n ih =>
    rw [fields] at h
    split_ifs at h
    · rcases List.mem_cons.1 h with rfl | h
      · exact (List.takeWhile_prefix _).subset hc
      · exact (List.dropWhile_suffix _).subset (List.mem_of_mem_tail (ih h))
    · rw [List.mem_singleton] at h
      exact h ▸ hc

theorem not_mem_of_mem_dropLast_fields
    (h : p ∈ (fields sep n l).dropLast) : sep ∉ p := by
  induction n generalizing l with
  | zero => simp [fields] at h
  | succ n ih =>
    rw [fields] at h
    split_ifs at h
    · have hne : fields sep n (afterFirst sep l) ≠ [] := by
        cases n with
        | zero => simp [fields]
        | succ n =>
          rw [fields]
          split_ifs <;> simp
      rw [List.dropLast_cons_of_ne_nil hne] at h
      rcases List.mem_cons.1 h with rfl | h
      · intro hmem
        simpa using List.mem_takeWhile_imp hmem
      · exact ih h
    · simp at h

theorem fields_append_right (h : (fields sep n l).length = n + 1)
    (r : List α) : ∃ init last, fields sep n l = init ++ [last] ∧
      fields sep n (l ++ r) = init ++ [last ++ r] := by
  induction n generalizing l with
  | zero => exact ⟨[], l, rfl, rfl⟩
  | succ n ih =>
    by_cases hmem : sep ∈ l
    · obtain ⟨p, q, rfl, hp⟩ := List.eq_append_cons_of_mem hmem
      rw [fields_append hp, List.length_cons] at h
      have hq : (fields sep n q).length = n + 1 := by omega
      obtain ⟨init, last, h₁, h₂⟩ := ih hq
      refine ⟨p :: init, last, ?_, ?_⟩
      · rw [fields_append hp, h₁, List.cons_append]
      · rw [List.append_assoc, List.cons_append, fields_append hp, h₂, List.cons_append]
    · rw [fields, if_neg hmem] at h
      simp at h

/-! ### The last separator -/

def afterLast (sep : α) (l : List α) : List α := (l.reverse.takeWhile (· ≠ sep)).reverse

def beforeLast (sep : α) (l : List α) : List α := (l.reverse.dropWhile (· ≠ sep)).tail.reverse

omit [DecidableEq α] in
theorem exists_eq_append_cons (h : sep ∈ l) :
    ∃ a b, l = a ++ sep :: b ∧ sep ∉ b := by
  obtain ⟨b, a, hrev, hb⟩ := List.eq_append_cons_of_mem (List.mem_reverse.2 h)
  refine ⟨a.reverse, b.reverse, ?_, by simpa using hb⟩
  rw [← List.reverse_reverse l, hrev, List.reverse_append, List.reverse_cons, List.append_assoc]
  rfl

theorem reverse_append_cons (hp : sep ∉ p) (l : List α) :
    (l ++ sep :: p).reverse = p.reverse ++ sep :: l.reverse ∧ ∀ x ∈ p.reverse, decide (x ≠ sep) = true := by
  refine ⟨by simp, fun x hx => ?_⟩
  have hxp : x ∈ p := List.mem_reverse.1 hx
  simpa using fun e : x = sep => hp (e ▸ hxp)

theorem afterLast_append (hp : sep ∉ p) (l : List α) :
    afterLast sep (l ++ sep :: p) = p := by
  obtain ⟨hsplit, hrev⟩ := reverse_append_cons hp l
  rw [afterLast, hsplit, List.takeWhile_append_of_pos hrev]
  simp

theorem beforeLast_append (hp : sep ∉ p) (l : List α) :
    beforeLast sep (l ++ sep :: p) = l := by
  obtain ⟨hsplit, hrev⟩ := reverse_append_cons hp l
  rw [beforeLast, hsplit, List.dropWhile_append_of_pos hrev]
  simp

end Sep
