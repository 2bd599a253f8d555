/-
**Sequences in which what opens is closed later.**

Some elements of a sequence open something, and each has an element that closes it.  A sequence grows
at its end; elements can be lost from the middle.

Main definitions:

* `Closing.Closed`, `Closing.ClosedBut` — all that opens is closed later, with exceptions or without;
* `Closing.OpenIn` — something is open at the end of a sequence.

Main result:

* `Closing.ClosedBut.remove` — **elements are lost**: they must not close what stays open.
-/

import Mathlib.Data.List.Basic

set_option autoImplicit false

namespace Closing

variable {α : Type*} {close : α → α} {opens held held' : α → Prop} {l a b xs : List α} {e : α}

def ClosedBut (close : α → α) (opens held : α → Prop) (l : List α) : Prop :=
  ∀ pre c post, l = pre ++ c :: post → opens c → close c ∈ post ∨ held c

def Closed (close : α → α) (opens : α → Prop) (l : List α) : Prop :=
  ∀ pre c post, l = pre ++ c :: post → opens c → close c ∈ post

def OpenIn (close : α → α) (l : List α) (c : α) : Prop :=
  ∃ pre post, l = pre ++ c :: post ∧ close c ∉ post

theorem closedBut_nil : ClosedBut close opens held [] := by
  intro pre c post hl
  simp at hl

theorem ClosedBut.mono (h : ClosedBut close opens held l) (hheld : ∀ c, held c → held' c) :
    ClosedBut close opens held' l := by
  intro pre c post hl hc
  exact (h pre c post hl hc).imp_right (hheld c)

theorem ClosedBut.closed (h : ClosedBut close opens held l) (hheld : ∀ c, ¬ held c) :
    Closed close opens l := by
  intro pre c post hl hc
  exact (h pre c post hl hc).resolve_right (hheld c)

/-- **More elements**: what they open becomes an exception, and an exception they close need not stay
one. -/
theorem ClosedBut.append (h : ClosedBut close opens held l) (hnew : ∀ x ∈ xs, opens x → held' x)
    (hold : ∀ c, held c → held' c ∨ close c ∈ xs) : ClosedBut close opens held' (l ++ xs) := by
  intro pre c post hl hc
  rcases List.append_eq_append_iff.1 hl with ⟨as, rfl, rfl⟩ | ⟨bs, rfl, hbs⟩
  · exact .inr (hnew c (by simp) hc)
  · cases bs with
    | nil =>
      rw [List.nil_append] at hbs
      exact .inr (hnew c (by simp [← hbs]) hc)
    | cons c' bs =>
      obtain ⟨rfl, rfl⟩ := List.cons.inj hbs
      rcases h pre c bs rfl hc with hmem | hheld
      · exact .inl (List.mem_append_left _ hmem)
      · exact (hold c hheld).symm.imp_left fun hmem => List.mem_append_right _ hmem

theorem ClosedBut.remove_one (h : ClosedBut close opens held (a ++ e :: b))
    (he : ∀ c, opens c → close c = e → ¬ OpenIn close a c) :
    ClosedBut close opens held (a ++ b) := by
  intro pre c post hl hc
  rcases List.append_eq_append_iff.1 hl with ⟨as, rfl, rfl⟩ | ⟨bs, rfl, hbs⟩
  · refine h (a ++ e :: as) c post ?_ hc
    simp
  · cases bs with
    | nil =>
      rw [List.nil_append] at hbs
      subst hbs
      refine h (pre ++ [e]) c post ?_ hc
      simp
    | cons c' bs =>
      obtain ⟨rfl, rfl⟩ := List.cons.inj hbs
      refine (h pre c (bs ++ e :: b) (by simp) hc).imp_left fun hmem => ?_
      rcases List.mem_append.1 hmem with hmem | hmem
      · exact List.mem_append_left _ hmem
      · rcases List.mem_cons.1 hmem with heq | hmem
        · have hin : close c ∈ bs := by
            by_contra hin
            exact he c hc heq ⟨pre, bs, rfl, hin⟩
          exact List.mem_append_left _ hin
        · exact List.mem_append_right _ hmem

/-- **Elements are lost**, which close nothing that is open in front of them. -/
theorem ClosedBut.remove (h : ClosedBut close opens held (a ++ (xs ++ b)))
    (he : ∀ e ∈ xs, ∀ c, opens c → close c = e → ¬ OpenIn close a c) :
    ClosedBut close opens held (a ++ b) := by
  induction xs with
  | nil => exact h
  | cons e xs ih =>
    refine ih ?_ fun e' he' => he e' (List.mem_cons_of_mem _ he')
    exact h.remove_one (he e List.mem_cons_self)

end Closing
