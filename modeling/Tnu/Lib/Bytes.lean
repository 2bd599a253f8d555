/-
**Byte stores and little-endian fields.**

A *store* is anything that has a byte at every address: a memory, a disk, a buffer.  A record
written to a store is read back field by field; this module says when a store holds a list of
bytes at an address, how that splits along the list, what copying a list into a store does, and
that a little-endian field of enough bytes is read back as the number it was written for.

Main definitions:

* `Bytes.Holds` — a store holds a list at an address;
* `Bytes.overlay`, `Bytes.copyAll` — a store with a list, or several, copied into it;
* `Bytes.le`, `Bytes.ofLe` — little-endian fields.

Main results:

* `Bytes.ofLe_le` — **a field is read back**;
* `Bytes.field_le_of_below` — smaller bytes make a smaller number.
-/

import Mathlib.Data.List.Basic
import Mathlib.Tactic

set_option autoImplicit false

namespace Bytes

/-! ### Little-endian fields -/

/-- The `w` low bytes of a number, lowest first. -/
def le : ℕ → ℕ → List UInt8
  | 0, _ => []
  | w + 1, n => UInt8.ofNat (n % 256) :: le w (n / 256)

def ofLe : List UInt8 → ℕ
  | [] => 0
  | b :: bs => b.toNat + 256 * ofLe bs

@[simp] theorem length_le (w n : ℕ) : (le w n).length = w := by
  induction w generalizing n with
  | zero => rfl
  | succ w ih => simp [le, ih]

/-- **A field is read back**, modulo its width. -/
theorem ofLe_le (w n : ℕ) : ofLe (le w n) = n % 256 ^ w := by
  induction w generalizing n with
  | zero => simp [le, ofLe, Nat.mod_one]
  | succ w ih =>
    have hb : (UInt8.ofNat (n % 256)).toNat = n % 256 := by
      rw [UInt8.toNat_ofNat']
      omega
    rw [le, ofLe, ih, hb, pow_succ, mul_comm (256 ^ w), Nat.mod_mul]

theorem ofLe_lt (bs : List UInt8) : ofLe bs < 256 ^ bs.length := by
  induction bs with
  | nil => simp [ofLe]
  | cons b bs ih =>
    have hb : b.toNat < 256 := b.toNat_lt
    rw [ofLe, List.length_cons, pow_succ]
    omega

theorem ofLe_mono {bs cs : List UInt8} (h : List.Forall₂ (· ≤ ·) bs cs) : ofLe bs ≤ ofLe cs := by
  induction h with
  | nil => rfl
  | cons hbc _ ih =>
    have := UInt8.le_iff_toNat_le.1 hbc
    rw [ofLe, ofLe]
    omega

/-! ### Windows -/

/-- The `n` bytes of a store from address `a` on. -/
def window (f : ℕ → UInt8) : ℕ → ℕ → List UInt8
  | _, 0 => []
  | a, n + 1 => f a :: window f (a + 1) n

variable {f g : ℕ → UInt8}

@[simp] theorem length_window (f : ℕ → UInt8) (a n : ℕ) : (window f a n).length = n := by
  induction n generalizing a with
  | zero => rfl
  | succ n ih => simp [window, ih]

theorem window_add (f : ℕ → UInt8) (a m n : ℕ) :
    window f a (m + n) = window f a m ++ window f (a + m) n := by
  induction m generalizing a with
  | zero => simp [window]
  | succ m ih =>
    rw [Nat.add_right_comm, window, window, ih, List.cons_append]
    congr 3
    omega

variable {writes : List (ℕ × List UInt8)} {l l' : List UInt8} {a b i n w : ℕ}

theorem window_congr (h : ∀ i, a ≤ i → i < a + n → f i = g i) :
    window f a n = window g a n := by
  induction n generalizing a with
  | zero => rfl
  | succ n ih =>
    rw [window, window, h a le_rfl (by omega), ih fun i h₁ h₂ => h i (by omega) (by omega)]

theorem window_shift (f : ℕ → UInt8) (b a n : ℕ) :
    window (fun i => f (b + i)) a n = window f (b + a) n := by
  induction n generalizing a with
  | zero => rfl
  | succ n ih => rw [window, window, ih, Nat.add_assoc]

theorem window_congr_at (h : ∀ i < n, f (a + i) = g (b + i)) :
    window f a n = window g b n := by
  have hshift := window_congr (f := fun i => f (a + i)) (g := fun i => g (b + i)) (a := 0) (n := n)
    fun i _ hi => h i (by omega)
  rwa [window_shift, window_shift] at hshift

theorem getElem?_window (f : ℕ → UInt8) (hi : i < n) :
    (window f a n)[i]? = some (f (a + i)) := by
  induction n generalizing a i with
  | zero => omega
  | succ n ih =>
    cases i with
    | zero => simp [window]
    | succ i =>
      rw [window, List.getElem?_cons_succ, ih (by omega)]
      congr 2
      omega

/-! ### Holding a list -/

def Holds (f : ℕ → UInt8) (a : ℕ) (l : List UInt8) : Prop := window f a l.length = l

theorem Holds.window_eq (h : Holds f a l) (hn : l.length = n) :
    window f a n = l := hn ▸ h

/-- **Holding a record is holding its parts.** -/
theorem holds_append :
    Holds f a (l ++ l') ↔ Holds f a l ∧ Holds f (a + l.length) l' := by
  rw [Holds, List.length_append, window_add]
  constructor
  · intro h
    exact List.append_inj h (by simp)
  · rintro ⟨h, h'⟩
    rw [h, h']

theorem holds_congr (h : ∀ i, a ≤ i → i < a + l.length → g i = f i)
    (hf : Holds f a l) : Holds g a l := by
  rw [Holds, window_congr h]
  exact hf

theorem holds_flatMap {α : Type*} {enc : α → List UInt8} {k : ℕ} (hk : ∀ x, (enc x).length = k)
    {l : List α} (h : Holds f a (l.flatMap enc)) (hi : i < l.length) :
    Holds f (a + k * i) (enc l[i]) := by
  induction l generalizing a i with
  | nil => simp at hi
  | cons x l ih =>
    rw [List.flatMap_cons, holds_append, hk] at h
    cases i with
    | zero => simpa using h.1
    | succ i =>
      have := ih h.2 (i := i) (by simpa using hi)
      rw [Nat.mul_add, Nat.mul_one, Nat.add_comm (k * i), ← Nat.add_assoc]
      simpa using this

def field (f : ℕ → UInt8) (a w : ℕ) : ℕ := ofLe (window f a w)

theorem field_of_holds (h : Holds f a (le w n)) : field f a w = n % 256 ^ w := by
  rw [field, h.window_eq (length_le w n), ofLe_le]

theorem field_congr_at (h : ∀ i < w, f (a + i) = g (b + i)) : field f a w = field g b w :=
  congrArg ofLe (window_congr_at h)

theorem field_lt (f : ℕ → UInt8) (a w : ℕ) : field f a w < 256 ^ w := by
  simpa [field] using ofLe_lt (window f a w)

/-! ### Holding less -/

/-- The store holds the list at an address, some bytes of it lowered. -/
def Below (f : ℕ → UInt8) (a : ℕ) (l : List UInt8) : Prop :=
  List.Forall₂ (· ≤ ·) (window f a l.length) l

theorem Holds.below (h : Holds f a l) : Below f a l := by
  rw [Below, h]
  exact List.forall₂_same.2 fun b _ => UInt8.le_refl b

theorem below_of_zero (h : ∀ i, a ≤ i → i < a + l.length → f i = 0) :
    Below f a l := by
  induction l generalizing a with
  | nil => exact .nil
  | cons b l ih =>
    rw [List.length_cons] at h
    have hb : f a ≤ b := by
      rw [h a le_rfl (by omega)]
      exact UInt8.le_iff_toNat_le.2 (Nat.zero_le _)
    exact .cons hb (ih fun i h₁ h₂ => h i (by omega) (by omega))

theorem below_append :
    Below f a (l ++ l') ↔ Below f a l ∧ Below f (a + l.length) l' := by
  rw [Below, List.length_append, window_add]
  constructor
  · intro h
    have htake := List.forall₂_take l.length h
    have hdrop := List.forall₂_drop l.length h
    rw [List.take_left' (length_window _ _ _), List.take_left] at htake
    rw [List.drop_left' (length_window _ _ _), List.drop_left] at hdrop
    exact ⟨htake, hdrop⟩
  · rintro ⟨h, h'⟩
    exact List.rel_append h h'

/-- **A field of which less is held is smaller.** -/
theorem field_le_of_below (h : Below f a (le w n)) : field f a w ≤ n % 256 ^ w := by
  rw [← ofLe_le, field]
  refine ofLe_mono ?_
  rwa [Below, length_le] at h

/-! ### Copying into a store -/

def overlay (f : ℕ → UInt8) (a : ℕ) (l : List UInt8) : ℕ → UInt8 := fun i =>
  if a ≤ i then l.getD (i - a) (f i) else f i

theorem overlay_of_lt (l : List UInt8) (h : i < a) : overlay f a l i = f i := by
  rw [overlay, if_neg (by omega)]

theorem overlay_of_ge (h : a + l.length ≤ i) :
    overlay f a l i = f i := by
  rw [overlay]
  split_ifs
  · rw [List.getD_eq_getElem?_getD, List.getElem?_eq_none (by omega), Option.getD_none]
  · rfl

theorem overlay_add (h : i < l.length) :
    some (overlay f a l (a + i)) = l[i]? := by
  rw [overlay, if_pos (by omega), Nat.add_sub_cancel_left, List.getD_eq_getElem?_getD,
    List.getElem?_eq_getElem h, Option.getD_some]

@[simp] theorem overlay_nil (f : ℕ → UInt8) (a : ℕ) : overlay f a [] = f := by
  funext i
  rcases Nat.lt_or_ge i a with hlt | hge
  · exact overlay_of_lt [] hlt
  · exact overlay_of_ge hge

theorem overlay_append (f : ℕ → UInt8) (a : ℕ) (l l' : List UInt8) :
    overlay (overlay f a l) (a + l.length) l' = overlay f a (l ++ l') := by
  funext i
  rcases Nat.lt_or_ge i (a + l.length) with hlt | hge
  · rw [overlay_of_lt l' hlt]
    rcases Nat.lt_or_ge i a with hbelow | habove
    · rw [overlay_of_lt l hbelow, overlay_of_lt (l ++ l') hbelow]
    · obtain ⟨k, rfl⟩ := Nat.exists_eq_add_of_le habove
      have hk : k < l.length := by omega
      refine Option.some.inj ?_
      rw [overlay_add hk, overlay_add (by rw [List.length_append]; omega),
        List.getElem?_append_left hk]
  · obtain ⟨k, rfl⟩ := Nat.exists_eq_add_of_le hge
    rcases Nat.lt_or_ge k l'.length with hk | hk
    · refine Option.some.inj ?_
      rw [overlay_add hk, Nat.add_assoc, overlay_add (by rw [List.length_append]; omega),
        List.getElem?_append_right (Nat.le_add_right _ _), Nat.add_sub_cancel_left]
    · rw [overlay_of_ge (by omega), overlay_of_ge hge,
        overlay_of_ge (by rw [List.length_append]; omega)]

/-- **What was copied in is held.** -/
theorem holds_overlay (f : ℕ → UInt8) (a : ℕ) (l : List UInt8) : Holds (overlay f a l) a l := by
  refine List.ext_getElem? fun i => ?_
  by_cases hi : i < l.length
  · rw [getElem?_window _ hi, overlay_add hi]
  · rw [List.getElem?_eq_none (by simpa using hi), List.getElem?_eq_none (by omega)]

theorem holds_overlay_of_disjoint
    (h : b + l'.length ≤ a ∨ a + l.length ≤ b) (hf : Holds f b l') :
    Holds (overlay f a l) b l' := by
  refine holds_congr (fun i h₁ h₂ => ?_) hf
  rcases h with h | h
  · exact overlay_of_lt l (by omega)
  · exact overlay_of_ge (by omega)

/-! ### Copying lists in, one after the other -/

def copyAll (f : ℕ → UInt8) (writes : List (ℕ × List UInt8)) : ℕ → UInt8 :=
  writes.foldl (fun f w => overlay f w.1 w.2) f

@[simp] theorem copyAll_cons (f : ℕ → UInt8) (w : ℕ × List UInt8) (writes : List (ℕ × List UInt8)) :
    copyAll f (w :: writes) = copyAll (overlay f w.1 w.2) writes := rfl

@[simp] theorem copyAll_nil (f : ℕ → UInt8) : copyAll f [] = f := rfl

def Misses (a : ℕ) (l : List UInt8) (w : ℕ × List UInt8) : Prop :=
  a + l.length ≤ w.1 ∨ w.1 + w.2.length ≤ a

theorem holds_copyAll_of_misses
    (h : ∀ w ∈ writes, Misses a l w) (hf : Holds f a l) : Holds (copyAll f writes) a l := by
  induction writes generalizing f with
  | nil => exact hf
  | cons w writes ih =>
    exact ih (fun w' hw' => h w' (List.mem_cons_of_mem _ hw'))
      (holds_overlay_of_disjoint (h w List.mem_cons_self) hf)

/-- **What a write copied in is held**, unless a later one touches it. -/
theorem holds_copyAll (writes : List (ℕ × List UInt8))
    {later : List (ℕ × List UInt8)} (h : ∀ w ∈ later, Misses a l w) :
    Holds (copyAll f (writes ++ (a, l) :: later)) a l := by
  rw [copyAll, List.foldl_append, List.foldl_cons]
  exact holds_copyAll_of_misses h (holds_overlay _ a l)

theorem holds_copyAll_of_mem
    (h : writes.Pairwise fun w w' => w.1 + w.2.length ≤ w'.1) (hmem : (a, l) ∈ writes) :
    Holds (copyAll f writes) a l := by
  induction writes generalizing f with
  | nil => cases hmem
  | cons w writes ih =>
    obtain ⟨hfirst, hrest⟩ := List.pairwise_cons.1 h
    rcases List.mem_cons.1 hmem with rfl | hmem
    · rw [copyAll_cons]
      exact holds_copyAll_of_misses (fun w' hw' => Or.inl (hfirst w' hw')) (holds_overlay f a l)
    · exact ih hrest hmem

theorem copyAll_of_not_mem
    (h : ∀ w ∈ writes, i < w.1 ∨ w.1 + w.2.length ≤ i) : copyAll f writes i = f i := by
  induction writes generalizing f with
  | nil => rfl
  | cons w writes ih =>
    rw [copyAll_cons, ih fun w' hw' => h w' (List.mem_cons_of_mem _ hw')]
    rcases h w List.mem_cons_self with hlt | hge
    · exact overlay_of_lt _ hlt
    · exact overlay_of_ge hge

end Bytes
