/-
**Insertion from the end.**

A list that is kept sorted takes a new item behind all those with a smaller or an equal key: the items with greater
keys are moved up one after the other, from the last one on.  What comes out is sorted, and items with equal keys stand
in the order in which they came.

Main definitions:

* `Insertion.insertBack`, `Insertion.insert` — the loop from the end, and the list with the new item.

Main result:

* `Insertion.exists_key` — any total preorder is the order of some key.
-/

import Mathlib.Tactic

set_option autoImplicit false

namespace Insertion

variable {α κ : Type*} [LinearOrder κ] (key : α → κ)

/-- The loop from the end: the list is given with its last item first. -/
def insertBack (a : α) : List α → List α
  | [] => [a]
  | b :: l => if key a < key b then b :: insertBack a l else a :: b :: l

def insert (l : List α) (a : α) : List α := (insertBack key a l.reverse).reverse

/-- **A list is the sorted form of what came**, with items of equal keys in the order in which they came. -/
structure StablySorted (l src : List α) : Prop where
  perm : l.Perm src
  sorted : l.Pairwise fun a b => key a ≤ key b
  stable : ∀ k, (l.filter fun a => key a = k) = src.filter fun a => key a = k

variable {key} {a : α} {l src : List α}

theorem insertBack_perm (a : α) (l : List α) : (insertBack key a l).Perm (a :: l) := by
  induction l with
  | nil => exact List.Perm.refl _
  | cons b l ih =>
    rw [insertBack]
    split_ifs
    · exact (ih.cons b).trans (List.Perm.swap a b l)
    · exact List.Perm.refl _

theorem pairwise_insertBack (a : α) (h : l.Pairwise fun a b => key b ≤ key a) :
    (insertBack key a l).Pairwise fun a b => key b ≤ key a := by
  induction l with
  | nil => exact List.pairwise_singleton _ _
  | cons b l ih =>
    obtain ⟨hb, hl⟩ := List.pairwise_cons.1 h
    rw [insertBack]
    split_ifs with hlt
    · refine List.pairwise_cons.2 ⟨fun c hc => ?_, ih hl⟩
      rcases List.mem_cons.1 ((insertBack_perm a l).mem_iff.1 hc) with rfl | hc
      · exact hlt.le
      · exact hb c hc
    · refine List.pairwise_cons.2 ⟨fun c hc => ?_, h⟩
      rcases List.mem_cons.1 hc with rfl | hc
      · exact not_lt.1 hlt
      · exact (hb c hc).trans (not_lt.1 hlt)

theorem filter_insertBack (a : α) (l : List α) (k : κ) :
    (insertBack key a l).filter (fun b => key b = k) = (a :: l).filter fun b => key b = k := by
  induction l with
  | nil => rfl
  | cons b l ih =>
    rw [insertBack]
    split_ifs with hlt
    · rw [List.filter_cons, ih]
      by_cases ha : key a = k
      · have hb : key b ≠ k := fun hb => by
          rw [ha, hb] at hlt
          exact lt_irrefl k hlt
        simp [ha, hb]
      · by_cases hb : key b = k
        all_goals simp [ha, hb]
    · rfl

theorem insert_perm (key : α → κ) (l : List α) (a : α) : (insert key l a).Perm (a :: l) :=
  (List.reverse_perm _).trans ((insertBack_perm a l.reverse).trans (l.reverse_perm.cons a))

/-- **One more item.** -/
theorem StablySorted.insert (h : StablySorted key l src) (a : α) :
    StablySorted key (insert key l a) (src ++ [a]) where
  perm := (insert_perm key l a).trans ((h.perm.cons a).trans (List.perm_append_singleton a src).symm)
  sorted := by
    rw [Insertion.insert, List.pairwise_reverse]
    exact pairwise_insertBack a (List.pairwise_reverse.2 h.sorted)
  stable := fun k => by
    rw [Insertion.insert, List.filter_reverse, filter_insertBack, List.filter_cons, List.filter_reverse, h.stable,
      List.filter_append, List.filter_cons, List.filter_nil]
    split_ifs
    · rw [List.reverse_cons, List.reverse_reverse]
    · rw [List.reverse_reverse, List.append_nil]

theorem insert_concat (key : α → κ) (l : List α) (b a : α) :
    insert key (l ++ [b]) a = if key a < key b then insert key l a ++ [b] else l ++ [b] ++ [a] := by
  rw [Insertion.insert, List.reverse_append, List.reverse_singleton, List.singleton_append, insertBack]
  split_ifs
  · rw [List.reverse_cons, Insertion.insert]
  · rw [List.reverse_cons, List.reverse_cons, List.reverse_reverse]

theorem StablySorted.nil : StablySorted key ([] : List α) [] where
  perm := List.Perm.refl _
  sorted := List.Pairwise.nil
  stable := fun _ => rfl

theorem StablySorted.length_eq (h : StablySorted key l src) : l.length = src.length := h.perm.length_eq

/-- **Any total preorder is the order of some key**: the class of items that are equal in it. -/
theorem exists_key {β : Type} (le : β → β → Prop) (htotal : ∀ a b, le a b ∨ le b a)
    (htrans : ∀ a b c, le a b → le b c → le a c) :
    ∃ (κ : Type) (_ : LinearOrder κ) (key : β → κ), ∀ a b, key a ≤ key b ↔ le a b := by
  classical
  let : Preorder β :=
    { le := le
      le_refl := fun a => (htotal a a).elim id id
      le_trans := htrans }
  have : @Std.Total β (· ≤ ·) := ⟨htotal⟩
  exact ⟨Antisymmetrization β (· ≤ ·), inferInstance, toAntisymmetrization (· ≤ ·), fun _ _ => Iff.rfl⟩

end Insertion
