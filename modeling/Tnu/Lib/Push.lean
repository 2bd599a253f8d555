/-
**Stacks that grow downward.**

A stack in a store is the store together with the address of its lowest byte.  Records are pushed
below it, the last record of a list first, so that they end up in order; whatever was on the stack
before stays where it is.

Main definitions:

* `Bytes.Down`, `Bytes.Down.push`, `Bytes.Down.pushAll` — a stack, and what is pushed on it;
* `Bytes.Down.pushWords` — numbers of eight bytes, pushed one by one.

Main results:

* `Bytes.Down.pointers_pushAll` — **each record is at the address it was reported at**;
* `Bytes.Down.field_pushWords` — numbers are read back.
-/

import Tnu.Lib.Bytes

set_option autoImplicit false

namespace Bytes

/-- A store with a stack in it. -/
structure Down where
  store : ℕ → UInt8
  sp : ℕ

namespace Down

def push (s : Down) (l : List UInt8) : Down :=
  ⟨overlay s.store (s.sp - l.length) l, s.sp - l.length⟩

/-- Records pushed on the stack, the last one first, with the addresses they are at. -/
def pushAll (s : Down) : List (List UInt8) → Down × List ℕ
  | [] => (s, [])
  | l :: ls =>
    let r := s.pushAll ls
    let t := r.1.push l
    (t, t.sp :: r.2)

def pushWords (s : Down) (ws : List ℕ) : Down := (s.pushAll (ws.map (le 8))).1

def align (s : Down) (n : ℕ) : Down := ⟨s.store, s.sp / n * n⟩

/-- What was on the first stack is on the second one, which is no shorter. -/
structure Keeps (s t : Down) : Prop where
  le : t.sp ≤ s.sp
  same : ∀ i, s.sp ≤ i → t.store i = s.store i

variable {s t u : Down} {l : List UInt8} {ls : List (List UInt8)} {a n i : ℕ} {ws ws' : List ℕ}

theorem Keeps.refl (s : Down) : s.Keeps s := ⟨le_rfl, fun _ _ => rfl⟩

theorem Keeps.trans (h : s.Keeps t) (h' : t.Keeps u) : s.Keeps u :=
  ⟨h'.le.trans h.le, fun i hi => (h'.same i (h.le.trans hi)).trans (h.same i hi)⟩

theorem Keeps.holds (h : s.Keeps t) (ha : s.sp ≤ a) (hl : Holds s.store a l) : Holds t.store a l :=
  holds_congr (fun i hi _ => h.same i (ha.trans hi)) hl

theorem keeps_align (s : Down) (n : ℕ) : s.Keeps (s.align n) :=
  ⟨Nat.div_mul_le_self _ _, fun _ _ => rfl⟩

@[simp] theorem sp_push (s : Down) (l : List UInt8) : (s.push l).sp = s.sp - l.length := rfl

theorem keeps_push (hl : l.length ≤ s.sp) : s.Keeps (s.push l) :=
  ⟨Nat.sub_le _ _, fun _ hi => overlay_of_ge (by omega)⟩

theorem holds_push (s : Down) (l : List UInt8) : Holds (s.push l).store (s.push l).sp l :=
  holds_overlay _ _ _

/-! ### Many records -/

theorem sp_pushAll (s : Down) (ls : List (List UInt8)) :
    (s.pushAll ls).1.sp = s.sp - ls.flatten.length := by
  induction ls with
  | nil => rfl
  | cons l ls ih =>
    rw [pushAll, sp_push, ih, List.flatten_cons, List.length_append, Nat.sub_sub, Nat.add_comm]

theorem keeps_pushAll (hls : ls.flatten.length ≤ s.sp) : s.Keeps (s.pushAll ls).1 := by
  induction ls with
  | nil => exact .refl s
  | cons l ls ih =>
    rw [List.flatten_cons, List.length_append] at hls
    have hpush : l.length ≤ (s.pushAll ls).1.sp := by
      rw [sp_pushAll]
      omega
    exact (ih (by omega)).trans (keeps_push hpush)

theorem store_pushAll_of_lt (h : i < (s.pushAll ls).1.sp) : (s.pushAll ls).1.store i = s.store i := by
  induction ls with
  | nil => rfl
  | cons l ls ih =>
    have hlt : i < (s.pushAll ls).1.sp - l.length := h
    exact (overlay_of_lt l hlt).trans (ih (by omega))

/-- **Records that were pushed one by one** are held one after the other. -/
theorem holds_pushAll (hls : ls.flatten.length ≤ s.sp) :
    Holds (s.pushAll ls).1.store (s.pushAll ls).1.sp ls.flatten := by
  induction ls with
  | nil => rfl
  | cons l ls ih =>
    rw [List.flatten_cons, List.length_append] at hls
    have hpush : l.length ≤ (s.pushAll ls).1.sp := by
      rw [sp_pushAll]
      omega
    rw [List.flatten_cons, holds_append]
    refine ⟨holds_push _ _, ?_⟩
    have hsp : (s.pushAll (l :: ls)).1.sp + l.length = (s.pushAll ls).1.sp := by
      rw [pushAll, sp_push]
      omega
    rw [hsp]
    exact (keeps_push hpush).holds le_rfl (ih (by omega))

@[simp] theorem length_pointers (s : Down) (ls : List (List UInt8)) :
    (s.pushAll ls).2.length = ls.length := by
  induction ls with
  | nil => rfl
  | cons l ls ih => rw [pushAll, List.length_cons, List.length_cons, ih]

/-- **Each record is at the address it was reported at**, on the stack. -/
theorem pointers_pushAll (hls : ls.flatten.length ≤ s.sp) :
    List.Forall₂ (fun p l => Holds (s.pushAll ls).1.store p l ∧ (s.pushAll ls).1.sp ≤ p ∧
      p + l.length ≤ s.sp) (s.pushAll ls).2 ls := by
  induction ls with
  | nil => exact .nil
  | cons l ls ih =>
    rw [List.flatten_cons, List.length_append] at hls
    have hsp := sp_pushAll s ls
    have hpush : l.length ≤ (s.pushAll ls).1.sp := by omega
    refine .cons ⟨holds_push _ _, le_rfl, ?_⟩ ((ih (by omega)).imp fun p l' h => ?_)
    · rw [sp_push]
      omega
    · exact ⟨(keeps_push hpush).holds h.2.1 h.1, (keeps_push hpush).le.trans h.2.1, h.2.2⟩

theorem pushAll_append (s : Down) (ls ls' : List (List UInt8)) :
    (s.pushAll (ls ++ ls')).1 = ((s.pushAll ls').1.pushAll ls).1 := by
  induction ls with
  | nil => rfl
  | cons l ls ih => rw [List.cons_append, pushAll, pushAll, ih]

/-! ### Numbers -/

theorem flatten_words (ws : List ℕ) : (ws.map (le 8)).flatten.length = 8 * ws.length := by
  induction ws with
  | nil => rfl
  | cons w ws ih =>
    rw [List.map_cons, List.flatten_cons, List.length_append, length_le, ih, List.length_cons]
    omega

theorem pushWords_append (s : Down) (ws ws' : List ℕ) :
    s.pushWords (ws ++ ws') = (s.pushWords ws').pushWords ws := by
  rw [pushWords, List.map_append, pushAll_append]
  rfl

@[simp] theorem sp_pushWords (s : Down) (ws : List ℕ) :
    (s.pushWords ws).sp = s.sp - 8 * ws.length := by
  rw [pushWords, sp_pushAll, flatten_words]

theorem store_pushWords_of_lt (h : i < (s.pushWords ws).sp) : (s.pushWords ws).store i = s.store i :=
  store_pushAll_of_lt h

theorem keeps_pushWords (h : 8 * ws.length ≤ s.sp) : s.Keeps (s.pushWords ws) :=
  keeps_pushAll (by rwa [flatten_words])

/-- **Numbers are read back**, modulo their width. -/
theorem field_pushWords (h : 8 * ws.length ≤ s.sp) (hi : i < ws.length) :
    field (s.pushWords ws).store ((s.pushWords ws).sp + 8 * i) 8 = ws[i] % 256 ^ 8 := by
  have hheld : Holds (s.pushWords ws).store (s.pushWords ws).sp (ws.flatMap (le 8)) :=
    holds_pushAll (by rwa [flatten_words])
  exact field_of_holds (holds_flatMap (fun n => length_le 8 n) hheld hi)

end Down

end Bytes
