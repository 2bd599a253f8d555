/-
**Texts printed into a buffer of a given size.**

A formatter is handed a buffer and its size.  It keeps as much of its text as fits in front of a
terminator, and reports the length of the whole text, so that the caller can tell that something
was cut.  The buffer is a memory: what stands behind it can be seen, too.

Main results:

* `BoundedText.prints_store` — a formatter that stores the text, cut, and a terminator;
* `BoundedText.prints_all_iff` — **it prints a given text, for every size, exactly when it is the
  text it stores and its length can be reported**;
* `BoundedText.length_flatMap_le`, `BoundedText.flatMap_eq_iff` — a text made of pieces is another one exactly when the pieces are.
-/

import Mathlib.Logic.Function.Basic
import Mathlib.Tactic

set_option autoImplicit false

namespace BoundedText

variable {α : Type}

/-! ### Writing into a memory -/

/-- The text written from `o` on. -/
def store (m : ℕ → α) (o : ℕ) : List α → ℕ → α
  | [] => m
  | c :: l => store (Function.update m o c) (o + 1) l

theorem store_of_lt {m : ℕ → α} {o i : ℕ} (l : List α) (h : i < o) : store m o l i = m i := by
  induction l generalizing m o with
  | nil => rfl
  | cons c l ih =>
    rw [store, ih (by omega)]
    exact Function.update_of_ne (by omega) _ _

theorem store_of_ge {m : ℕ → α} {o i : ℕ} {l : List α} (h : o + l.length ≤ i) :
    store m o l i = m i := by
  induction l generalizing m o with
  | nil => rfl
  | cons c l ih =>
    rw [List.length_cons] at h
    rw [store, ih (by omega)]
    exact Function.update_of_ne (by omega) _ _

theorem store_getElem {m : ℕ → α} {o : ℕ} {l : List α} {i : ℕ} (h : i < l.length) :
    store m o l (o + i) = l[i] := by
  induction l generalizing m o i with
  | nil => exact absurd h (by simp)
  | cons c l ih =>
    cases i with
    | zero =>
      rw [store, store_of_lt l (by omega), Nat.add_zero, Function.update_self]
      rfl
    | succ i =>
      have hi : i < l.length := by simpa using h
      have hshift := ih (m := Function.update m o c) (o := o + 1) hi
      rw [store, show o + (i + 1) = o + 1 + i by omega, hshift]
      rfl

theorem store_snoc (m : ℕ → α) (o : ℕ) (l : List α) (c : α) :
    store m o (l ++ [c]) = Function.update (store m o l) (o + l.length) c := by
  induction l generalizing m o with
  | nil => rfl
  | cons d l ih =>
    rw [List.cons_append, store, ih, store, List.length_cons]
    congr 1
    omega

/-! ### What a formatter owes its caller -/

/-- The memory and the number a formatter leaves, for a text and a buffer of `size` letters at the
start of the memory. -/
structure Prints (nul : α) (size : ℕ) (m m' : ℕ → α) (ret : ℤ) (text : List α) : Prop where
  /-- Nothing behind the buffer is written. -/
  bounded (i : ℕ) (hi : size ≤ i) : m' i = m i
  /-- What fits of the text is there. -/
  written (i : ℕ) (hi : i < text.length) (hs : i + 1 < size) : m' i = text[i]
  /-- The terminator follows it. -/
  ended (h : 0 < size) : m' (min text.length (size - 1)) = nul
  /-- The length of the whole text is reported. -/
  returned : ret = text.length

/-- The memory a formatter leaves that stores a text, cut, and a terminator. -/
def final (nul : α) (size : ℕ) (m : ℕ → α) (text : List α) : ℕ → α :=
  if size = 0 then m else store m 0 (text.take (size - 1) ++ [nul])

variable {nul : α} {m : ℕ → α} {size : ℕ} {text out : List α}

theorem prints_store (nul : α) (size : ℕ) (m : ℕ → α) (text : List α) :
    Prints nul size m (final nul size m text) text.length text := by
  by_cases h0 : size = 0
  · rw [final, if_pos h0]
    exact ⟨fun i _ => rfl, fun i _ hs => by omega, fun h => by omega, rfl⟩
  rw [final, if_neg h0]
  have hlen : (text.take (size - 1) ++ [nul]).length = min text.length (size - 1) + 1 := by
    simp [Nat.min_comm]
  refine ⟨fun i hi => store_of_ge (by omega), fun i hi hs => ?_, fun _ => ?_, rfl⟩
  · have hget := store_getElem (m := m) (o := 0) (l := text.take (size - 1) ++ [nul]) (i := i)
      (by omega)
    rw [Nat.zero_add] at hget
    rw [hget, List.getElem_append_left (by simp; omega), List.getElem_take]
  · have hget := store_getElem (m := m) (o := 0) (l := text.take (size - 1) ++ [nul])
      (i := min text.length (size - 1)) (by omega)
    rw [Nat.zero_add] at hget
    rw [hget, List.getElem_append_right (by simp [Nat.min_comm])]
    simp

/-- **A text is printed into every buffer exactly when it is the one that is stored**, and its
length is a 32-bit number. -/
theorem prints_all_iff {run : ℕ → (ℕ → α) → Option ((ℕ → α) × ℤ)}
    (hrun : ∀ size m, run size m =
      some (final nul size m out, (out.length : ℤ).bmod (2 ^ 32)))
    (hlen : text.length < 2 ^ 31 → out.length ≤ 2 * text.length) :
    (∀ size m, ∃ m' ret, run size m = some (m', ret) ∧ Prints nul size m m' ret text) ↔
      text.length < 2 ^ 31 ∧ out = text := by
  constructor
  · intro h
    -- a buffer with room for both texts shows all of them
    obtain ⟨m', ret, heq, hp⟩ := h (out.length + text.length + 2) fun _ => nul
    rw [hrun, Option.some.injEq, Prod.mk.injEq] at heq
    obtain ⟨rfl, rfl⟩ := heq
    have hret := hp.returned
    have hlt := Int.bmod_lt (x := out.length) (m := 2 ^ 32) (by norm_num)
    have hsmall : text.length < 2 ^ 31 := by
      rw [hret] at hlt
      norm_num at hlt
      omega
    have hout := hlen hsmall
    have heqlen : out.length = text.length := by
      have hmod : ((out.length : ℤ).bmod (2 ^ 32)) % (2 ^ 32 : ℕ) = (out.length : ℤ) % (2 ^ 32 : ℕ) :=
        Int.bmod_emod
      rw [hret] at hmod
      push_cast at hmod
      omega
    refine ⟨hsmall, List.ext_getElem heqlen fun i h₁ h₂ => ?_⟩
    have hkept := (prints_store nul (out.length + text.length + 2) (fun _ => nul) out).written i h₁
      (by omega)
    rw [← hkept]
    exact hp.written i h₂ (by omega)
  · rintro ⟨hsmall, rfl⟩ size m
    have hret : (out.length : ℤ).bmod (2 ^ 32) = out.length := by
      rw [Int.bmod_eq_of_le] <;> omega
    refine ⟨_, _, hrun size m, ?_⟩
    rw [hret]
    exact prints_store nul size m out

/-! ### Texts made of pieces -/

section Pieces

variable {β : Type} {f g : β → List α} {l : List β}

theorem length_flatMap_le {k : ℕ} (hle : ∀ x ∈ l, (f x).length ≤ k * (g x).length) :
    (l.flatMap f).length ≤ k * (l.flatMap g).length := by
  induction l with
  | nil => simp
  | cons x l ih =>
    rw [List.forall_mem_cons] at hle
    have hl := ih hle.2
    have hx := hle.1
    simp only [List.flatMap_cons, List.length_append, Nat.mul_add]
    omega

theorem length_le_flatMap {x : β} (hx : x ∈ l) : (f x).length ≤ (l.flatMap f).length := by
  induction l with
  | nil => simp at hx
  | cons y l ih =>
    rw [List.flatMap_cons, List.length_append]
    rcases List.mem_cons.1 hx with rfl | hx
    · omega
    · have := ih hx
      omega

theorem flatMap_eq_iff (hle : ∀ x ∈ l, (f x).length ≤ (g x).length) :
    l.flatMap f = l.flatMap g ↔ ∀ x ∈ l, f x = g x := by
  induction l with
  | nil => simp
  | cons x l ih =>
    rw [List.forall_mem_cons] at hle
    rw [List.forall_mem_cons, List.flatMap_cons, List.flatMap_cons]
    constructor
    · intro h
      have htail := length_flatMap_le (k := 1) (f := f) (g := g) (l := l) (by simpa using hle.2)
      have htotal := congrArg List.length h
      rw [List.length_append, List.length_append] at htotal
      have hhead : (f x).length = (g x).length := by
        have := hle.1
        omega
      obtain ⟨hx, hl⟩ := List.append_inj h hhead
      exact ⟨hx, (ih hle.2).1 hl⟩
    · rintro ⟨hx, hl⟩
      rw [hx, (ih hle.2).2 hl]

end Pieces

end BoundedText
