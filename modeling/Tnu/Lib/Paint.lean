/-
**Painting a store cell by cell.**

A program that draws stores the bytes of its cells one after the other, sometimes in bigger pieces
than the cells.  What matters of such a list of stores is what it leaves: cells that lie one behind
the other leave what one copy of all their bytes leaves, and rows that are painted the same leave
the same picture.  Two lists of stores that leave the same whatever was there before also touch the
same addresses.

Main definitions:

* `Bytes.Covers` — one of the stores touches an address.

Main results:

* `Bytes.paints_cells` — **cells one behind the other** are one list;
* `Bytes.copyAll_flatMap_congr` — rows that leave the same make pictures that are the same;
* `Bytes.holds_rows` — rows that are apart are all held in the end;
* `Bytes.Covers.of_copyAll_eq` — **stores that leave the same touch the same addresses**.
-/

import Tnu.Lib.Bytes

set_option autoImplicit false

namespace Bytes

variable {α : Type*} {f g : ℕ → UInt8} {ws ws' : List (ℕ × List UInt8)} {a i : ℕ} {l l' : List UInt8}

theorem copyAll_append (f : ℕ → UInt8) (ws ws' : List (ℕ × List UInt8)) :
    copyAll f (ws ++ ws') = copyAll (copyAll f ws) ws' := List.foldl_append

/-! ### Painting -/

/-- The stores leave what copying one list in at an address leaves. -/
def Paints (ws : List (ℕ × List UInt8)) (a : ℕ) (l : List UInt8) : Prop :=
  ∀ f, copyAll f ws = overlay f a l

theorem paints_nil (a : ℕ) : Paints [] a [] := fun f => (overlay_nil f a).symm

theorem paints_single (a : ℕ) (l : List UInt8) : Paints [(a, l)] a l := fun _ => rfl

theorem Paints.of_eq {b : ℕ} (h : Paints ws a l) (hab : a = b) (hl : l = l') : Paints ws b l' := by
  subst hab hl
  exact h

theorem Paints.append (h : Paints ws a l) (h' : Paints ws' (a + l.length) l') :
    Paints (ws ++ ws') a (l ++ l') := by
  intro f
  rw [copyAll_append, h f, h' (overlay f a l), overlay_append]

variable {rows : List α} {p : α → List (ℕ × List UInt8)} {k n : ℕ} {bytes : ℕ → List UInt8}

theorem length_flatMap_range
    (h : ∀ i < n, (bytes i).length = k) : ((List.range n).flatMap bytes).length = k * n := by
  induction n with
  | zero => simp
  | succ n ih =>
    rw [List.range_succ, List.flatMap_append, List.length_append,
      ih fun i hi => h i (by omega), List.flatMap_singleton, h n (by omega), Nat.mul_succ]

/-- **Cells one behind the other** are one list. -/
theorem paints_cells {cell : ℕ → List (ℕ × List UInt8)}
    (hlen : ∀ i < n, (bytes i).length = k) (h : ∀ i < n, Paints (cell i) (a + k * i) (bytes i)) :
    Paints ((List.range n).flatMap cell) a ((List.range n).flatMap bytes) := by
  induction n with
  | zero => exact paints_nil a
  | succ n ih =>
    have hbefore := ih (fun i hi => hlen i (by omega)) fun i hi => h i (by omega)
    rw [List.range_succ, List.flatMap_append, List.flatMap_append, List.flatMap_singleton,
      List.flatMap_singleton]
    refine hbefore.append ?_
    rw [length_flatMap_range fun i hi => hlen i (by omega)]
    exact h n (by omega)

theorem flatMap_range_const (n : ℕ) (l : List UInt8) :
    ((List.range n).flatMap fun _ => l) = (List.replicate n l).flatten := by
  rw [List.flatMap_def, List.map_const', List.length_range]

theorem flatten_replicate_double (n : ℕ) (l : List UInt8) :
    (List.replicate n (l ++ l)).flatten = (List.replicate (2 * n) l).flatten := by
  induction n with
  | zero => rfl
  | succ n ih =>
    rw [List.replicate_succ, List.flatten_cons, ih, Nat.mul_succ, List.replicate_succ,
      List.replicate_succ, List.flatten_cons, List.flatten_cons, List.append_assoc]

theorem flatten_replicate_mul (m n : ℕ) (l : List UInt8) :
    (List.replicate n (List.replicate m l).flatten).flatten = (List.replicate (m * n) l).flatten := by
  induction n with
  | zero => rfl
  | succ n ih =>
    rw [List.replicate_succ, List.flatten_cons, ih, Nat.mul_succ, Nat.add_comm,
      List.replicate_add, List.flatten_append]

theorem flatMap_range_of_nil {p : ℕ → List α} {m : ℕ} (hmn : m ≤ n)
    (h : ∀ i, m ≤ i → i < n → p i = []) : (List.range n).flatMap p = (List.range m).flatMap p := by
  induction n, hmn using Nat.le_induction with
  | base => rfl
  | succ n hmn ih =>
    rw [List.range_succ, List.flatMap_append, List.flatMap_singleton, h n hmn (by omega),
      List.append_nil, ih fun i hm hi => h i hm (by omega)]

theorem flatMap_range_inj {b b' : ℕ → List UInt8} (h : ∀ i < n, (b i).length = k)
    (h' : ∀ i < n, (b' i).length = k) :
    (List.range n).flatMap b = (List.range n).flatMap b' ↔ ∀ i < n, b i = b' i := by
  induction n with
  | zero => simp
  | succ n ih =>
    have hbefore := ih (fun i hi => h i (by omega)) fun i hi => h' i (by omega)
    rw [List.range_succ, List.flatMap_append, List.flatMap_append, List.flatMap_singleton,
      List.flatMap_singleton]
    constructor
    · intro heq i hi
      obtain ⟨hinit, hlast⟩ := List.append_inj' heq (by rw [h n (by omega), h' n (by omega)])
      rcases Nat.lt_succ_iff_lt_or_eq.1 hi with hlt | rfl
      · exact hbefore.1 hinit i hlt
      · exact hlast
    · intro heq
      rw [hbefore.2 fun i hi => heq i (by omega), heq n (by omega)]

theorem copyAll_flatMap_congr {q : α → List (ℕ × List UInt8)}
    (h : ∀ x ∈ rows, ∀ f, copyAll f (p x) = copyAll f (q x)) (f : ℕ → UInt8) :
    copyAll f (rows.flatMap p) = copyAll f (rows.flatMap q) := by
  induction rows generalizing f with
  | nil => rfl
  | cons x rows ih =>
    rw [List.flatMap_cons, List.flatMap_cons, copyAll_append, copyAll_append,
      h x List.mem_cons_self, ih fun y hy => h y (List.mem_cons_of_mem _ hy)]

theorem holds_rows {at' : α → ℕ}
    {bytes : α → List UInt8} (hp : ∀ x ∈ rows, Paints (p x) (at' x) (bytes x))
    (h : rows.Pairwise fun x y => at' x + (bytes x).length ≤ at' y) {x : α} (hx : x ∈ rows) :
    Holds (copyAll f (rows.flatMap p)) (at' x) (bytes x) := by
  have hrows : copyAll f (rows.flatMap p) = copyAll f (rows.map fun x => (at' x, bytes x)) := by
    rw [copyAll_flatMap_congr (fun x hx f => (hp x hx f).trans (paints_single (at' x) (bytes x) f).symm),
      List.map_eq_flatMap]
  rw [hrows]
  refine holds_copyAll_of_mem (List.pairwise_map.2 h) (List.mem_map.2 ⟨x, hx, rfl⟩)

/-! ### Addresses touched -/

def Covers (ws : List (ℕ × List UInt8)) (i : ℕ) : Prop := ∃ w ∈ ws, w.1 ≤ i ∧ i < w.1 + w.2.length

theorem covers_append : Covers (ws ++ ws') i ↔ Covers ws i ∨ Covers ws' i := by
  simp only [Covers, List.mem_append, or_and_right, exists_or]

theorem covers_flatMap :
    Covers (rows.flatMap p) i ↔ ∃ x ∈ rows, Covers (p x) i := by
  constructor
  · rintro ⟨w, hw, hi⟩
    obtain ⟨x, hx, hwx⟩ := List.mem_flatMap.1 hw
    exact ⟨x, hx, w, hwx, hi⟩
  · rintro ⟨x, hx, w, hw, hi⟩
    exact ⟨w, List.mem_flatMap.2 ⟨x, hx, hw⟩, hi⟩

theorem covers_single : Covers [(a, l)] i ↔ a ≤ i ∧ i < a + l.length := by simp [Covers]

theorem copyAll_of_not_covers (h : ¬ Covers ws i) : copyAll f ws i = f i := by
  refine copyAll_of_not_mem fun w hw => ?_
  by_contra hcon
  exact h ⟨w, hw, by omega, by omega⟩

theorem overlay_congr_at (h : f i = g i) : overlay f a l i = overlay g a l i := by
  simp only [overlay, h]

theorem copyAll_congr_at (h : f i = g i) : copyAll f ws i = copyAll g ws i := by
  induction ws generalizing f g with
  | nil => exact h
  | cons w ws ih => exact ih (overlay_congr_at h)

theorem copyAll_eq_of_covers (h : Covers ws i) (f g : ℕ → UInt8) :
    copyAll f ws i = copyAll g ws i := by
  induction ws generalizing f g with
  | nil => simp [Covers] at h
  | cons w ws ih =>
    obtain ⟨v, hv, hlo, hhi⟩ := h
    rcases List.mem_cons.1 hv with rfl | hv
    · obtain ⟨k, rfl⟩ := Nat.exists_eq_add_of_le hlo
      have hhead : overlay f v.1 v.2 (v.1 + k) = overlay g v.1 v.2 (v.1 + k) := by
        refine Option.some.inj ?_
        rw [overlay_add (by omega), overlay_add (by omega)]
      rw [copyAll_cons, copyAll_cons]
      exact copyAll_congr_at hhead
    · exact ih ⟨v, hv, hlo, hhi⟩ _ _

/-- **Stores that leave the same**, whatever was there, touch the same addresses. -/
theorem Covers.of_copyAll_eq (h : ∀ f, copyAll f ws = copyAll f ws') (hi : Covers ws i) :
    Covers ws' i := by
  by_contra hcon
  have hsame := copyAll_eq_of_covers hi (fun _ => 0) fun _ => 1
  rw [h, h, copyAll_of_not_covers hcon, copyAll_of_not_covers hcon] at hsame
  exact absurd hsame (by decide)

end Bytes
