/-
**Filling a buffer.**

Items go into a buffer one after the other; one that does not fit any more is left out, and the
next ones are tried.  This module says which items are kept, and when all of them are.

A reader who fetches a long list buffer by buffer, and goes on after as many items as were kept, gets
all of them only if no buffer left one out and took a later one.

Main definitions:

* `Fill.kept` — the items kept of a list;
* `Fill.InOrder`, `Fill.fitting` — no item is left out for a later one, and how many come first.

Main results:

* `Fill.kept_eq_self_iff` — **all are kept exactly when all fit**;
* `Fill.perm_drain_iff` — **everything is fetched exactly when every buffer is filled in order**.
-/

import Mathlib.Data.List.Basic
import Mathlib.Tactic

set_option autoImplicit false

namespace Fill

variable {α β : Type*}

def kept (size : α → ℕ) (cap : ℕ) : ℕ → List α → List α
  | _, [] => []
  | used, x :: l =>
    if used + size x < cap then x :: kept size cap (used + size x) l else kept size cap used l

variable {size : α → ℕ} {cap : ℕ}

theorem kept_sublist (size : α → ℕ) (cap : ℕ) (l : List α) : ∀ used : ℕ,
    (kept size cap used l).Sublist l := by
  induction l with
  | nil => intro used; exact .slnil
  | cons x l ih =>
    intro used
    rw [kept]
    split_ifs
    · exact (ih _).cons_cons x
    · exact (ih _).cons x

/-- **The buffer is filled with the kept items.** -/
theorem foldl_eq_kept (item : α → List β) (cap : ℕ) : ∀ (l : List α) (buf : List β),
    l.foldl (fun buf x => if buf.length + (item x).length < cap then buf ++ item x else buf) buf =
      buf ++ (kept (fun x => (item x).length) cap buf.length l).flatMap item := by
  intro l
  induction l with
  | nil => intro buf; simp [kept]
  | cons x l ih =>
    intro buf
    rw [List.foldl_cons, kept, ih]
    split_ifs
    · rw [List.length_append, List.flatMap_cons, List.append_assoc]
    · rfl

/-- **The kept items fit.** -/
theorem sum_kept_lt : ∀ (l : List α) {used : ℕ}, used < cap →
    used + ((kept size cap used l).map size).sum < cap := by
  intro l
  induction l with
  | nil => intro used h; simpa [kept] using h
  | cons x l ih =>
    intro used h
    rw [kept]
    split_ifs with hx
    · have := ih hx
      rw [List.map_cons, List.sum_cons]
      omega
    · exact ih h

/-- **All items are kept exactly when all fit.** -/
theorem kept_eq_self_iff : ∀ (l : List α) {used : ℕ}, used < cap →
    (kept size cap used l = l ↔ used + (l.map size).sum < cap) := by
  intro l
  induction l with
  | nil => intro used h; simpa [kept] using h
  | cons x l ih =>
    intro used h
    rw [kept, List.map_cons, List.sum_cons]
    split_ifs with hx
    · rw [List.cons.injEq, ih hx]
      simp only [true_and]
      omega
    · constructor
      · intro heq
        have hlen := (kept_sublist size cap l used).length_le
        rw [heq, List.length_cons] at hlen
        omega
      · omega

/-! ### Buffer by buffer -/

def InOrder (size : α → ℕ) (cap : ℕ) : ℕ → List α → Prop
  | _, [] => True
  | used, x :: l =>
    if used + size x < cap then InOrder size cap (used + size x) l else ∀ y ∈ l, cap ≤ used + size y

instance InOrder.decidable (size : α → ℕ) (cap : ℕ) :
    ∀ (used : ℕ) (l : List α), Decidable (InOrder size cap used l)
  | _, [] => .isTrue trivial
  | used, x :: l =>
    let _ := InOrder.decidable size cap (used + size x) l
    if h : used + size x < cap then
      decidable_of_iff (InOrder size cap (used + size x) l) (by rw [InOrder, if_pos h])
    else decidable_of_iff (∀ y ∈ l, cap ≤ used + size y) (by rw [InOrder, if_neg h])

def fitting (size : α → ℕ) (cap : ℕ) : ℕ → List α → ℕ
  | _, [] => 0
  | used, x :: l => if used + size x < cap then fitting size cap (used + size x) l + 1 else 0

theorem kept_eq_nil_iff {used : ℕ} : ∀ {l : List α},
    kept size cap used l = [] ↔ ∀ y ∈ l, cap ≤ used + size y := by
  intro l
  induction l with
  | nil => simp [kept]
  | cons x l ih =>
    rw [kept, List.forall_mem_cons]
    split_ifs with hx
    · simp only [false_iff, not_and]
      omega
    · rw [ih]
      exact ⟨fun h => ⟨not_lt.1 hx, h⟩, fun h => h.2⟩

theorem kept_eq_take : ∀ {l : List α} {used : ℕ}, InOrder size cap used l →
    kept size cap used l = l.take (fitting size cap used l) := by
  intro l
  induction l with
  | nil => intro used _; rfl
  | cons x l ih =>
    intro used h
    rw [InOrder] at h
    rw [kept, fitting]
    split_ifs at h ⊢
    · rw [List.take_succ_cons, ih h]
    · rw [List.take_zero, kept_eq_nil_iff.2 h]

theorem fitting_le : ∀ (l : List α) (used : ℕ), fitting size cap used l ≤ l.length := by
  intro l
  induction l with
  | nil => intro used; exact le_rfl
  | cons x l ih =>
    intro used
    rw [fitting]
    split_ifs
    · exact Nat.succ_le_succ (ih _)
    · exact Nat.zero_le _

theorem length_kept {l : List α} {used : ℕ} (h : InOrder size cap used l) :
    (kept size cap used l).length = fitting size cap used l := by
  rw [kept_eq_take h, List.length_take, min_eq_left (fitting_le l used)]

theorem kept_append_drop {l : List α} (h : InOrder size cap 0 l) :
    kept size cap 0 l ++ l.drop (kept size cap 0 l).length = l := by
  rw [length_kept h, kept_eq_take h, List.take_append_drop]

theorem inOrder_of_subset : ∀ {l : List α} {used : ℕ}, l.Nodup →
    l.take (kept size cap used l).length ⊆ kept size cap used l → InOrder size cap used l := by
  intro l
  induction l with
  | nil => intro used _ _; trivial
  | cons x l ih =>
    intro used hl hsub
    obtain ⟨hx, hl⟩ := List.nodup_cons.1 hl
    rw [InOrder]
    rw [kept] at hsub
    split_ifs at hsub ⊢ with hfit
    · refine ih hl fun y hy => ?_
      have hmem := hsub (List.mem_cons_of_mem x hy)
      refine (List.mem_cons.1 hmem).resolve_left fun hyx => hx ?_
      rw [← hyx]
      exact List.mem_of_mem_take hy
    · intro y hy
      by_contra hlt
      -- something later was kept, so the first item must be among it
      cases hk : kept size cap used l with
      | nil => exact hlt (kept_eq_nil_iff.1 hk y hy)
      | cons z k =>
        rw [hk] at hsub
        have hxk : x ∈ kept size cap used l := by
          rw [hk]
          exact hsub (by simp)
        exact hx ((kept_sublist size cap l used).subset hxk)

/-- What so many fetches give, with buffers of these capacities; each goes on after as many items as
the last one kept. -/
def drain (size : α → ℕ) : ℕ → (ℕ → ℕ) → List α → List α
  | 0, _, _ => []
  | n + 1, caps, l =>
    kept size (caps 0) 0 l ++
      drain size n (fun i => caps (i + 1)) (l.drop (kept size (caps 0) 0 l).length)

/-- So many buffers are filled in order, each from where the last one stopped. -/
def InOrders (size : α → ℕ) : ℕ → (ℕ → ℕ) → List α → Prop
  | 0, _, _ => True
  | n + 1, caps, l =>
    InOrder size (caps 0) 0 l ∧
      InOrders size n (fun i => caps (i + 1)) (l.drop (fitting size (caps 0) 0 l))

instance InOrders.decidable (size : α → ℕ) :
    ∀ (n : ℕ) (caps : ℕ → ℕ) (l : List α), Decidable (InOrders size n caps l)
  | 0, _, _ => .isTrue trivial
  | n + 1, caps, l =>
    let _ := InOrders.decidable size n (fun i => caps (i + 1)) (l.drop (fitting size (caps 0) 0 l))
    inferInstanceAs (Decidable (_ ∧ _))

theorem drain_subset (size : α → ℕ) : ∀ (n : ℕ) (caps : ℕ → ℕ) (l : List α), drain size n caps l ⊆ l := by
  intro n
  induction n with
  | zero => intro caps l; exact List.nil_subset l
  | succ n ih =>
    intro caps l
    refine List.append_subset.2 ⟨(kept_sublist _ _ _ _).subset, fun x hx => ?_⟩
    exact List.mem_of_mem_drop (ih _ _ hx)

theorem inOrders_nil : ∀ (n : ℕ) (caps : ℕ → ℕ), InOrders size n caps ([] : List α) := by
  intro n
  induction n with
  | zero => intro caps; trivial
  | succ n ih => exact fun caps => ⟨trivial, ih _⟩

theorem length_kept_pos {l : List α} (hl : l ≠ []) (h : ∀ x ∈ l, size x < cap) :
    0 < (kept size cap 0 l).length := by
  refine List.length_pos_of_ne_nil fun hnil => ?_
  obtain ⟨x, hx⟩ := List.exists_mem_of_ne_nil l hl
  have hle := kept_eq_nil_iff.1 hnil x hx
  have hlt := h x hx
  omega

/-- **Everything is fetched exactly when every buffer is filled in order**, if each item fits into
each buffer alone. -/
theorem perm_drain_iff : ∀ {n : ℕ} {caps : ℕ → ℕ} {l : List α}, l.Nodup → l.length ≤ n →
    (∀ i, ∀ x ∈ l, size x < caps i) → ((drain size n caps l).Perm l ↔ InOrders size n caps l) := by
  intro n
  induction n with
  | zero =>
    intro caps l _ hlen _
    obtain rfl := List.eq_nil_of_length_eq_zero (Nat.le_zero.1 hlen)
    exact ⟨fun _ => trivial, fun _ => .refl _⟩
  | succ n ih =>
    intro caps l hl hlen hfits
    by_cases hnil : l = []
    · subst hnil
      refine ⟨fun _ => inOrders_nil _ caps, fun _ => ?_⟩
      rw [List.eq_nil_of_subset_nil (drain_subset size (n + 1) caps [])]
    · have hpos := length_kept_pos hnil (hfits 0)
      rw [drain, InOrders]
      set k := kept size (caps 0) 0 l with hk
      have hrest : ∀ i, ∀ x ∈ l.drop k.length, size x < caps (i + 1) :=
        fun i x hx => hfits (i + 1) x (List.mem_of_mem_drop hx)
      have hlen' : (l.drop k.length).length ≤ n := by
        rw [List.length_drop]
        omega
      have hih := ih (hl.sublist (List.drop_sublist _ l)) hlen' hrest
      constructor
      · intro hperm
        -- what the first buffer passed over is not fetched later
        have horder : InOrder size (caps 0) 0 l := by
          refine inOrder_of_subset hl fun x hx => ?_
          have hmem := hperm.symm.subset (List.mem_of_mem_take hx)
          refine (List.mem_append.1 hmem).resolve_right fun hlater => ?_
          exact List.disjoint_take_drop hl le_rfl hx (drain_subset size _ _ _ hlater)
        have hsplit := kept_append_drop horder
        refine ⟨horder, ?_⟩
        rw [← length_kept horder]
        exact hih.1 ((List.perm_append_left_iff k).1 (hperm.trans (.of_eq hsplit.symm)))
      · rintro ⟨horder, hlater⟩
        have hsplit := kept_append_drop horder
        rw [← length_kept horder] at hlater
        exact ((List.perm_append_left_iff k).2 (hih.2 hlater)).trans (.of_eq hsplit)

end Fill
