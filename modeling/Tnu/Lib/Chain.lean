/-
**Singly linked chains in a pool that only grows.**

A pool of cells is addressed by natural numbers, and every link leads from a cell to an *older*
one, that is, to a smaller address.  Following links then always ends, the cells met are in
strictly decreasing order, and the usual pointer surgery — pushing a cell in front, cutting one
out — acts on the list of cells met as it should.

Main results:

* `Chain.pairwise_chain`, `Chain.links_chain` — in a pool that grows, a chain is strictly decreasing
  and ends;
* `Chain.chain_of_links` — the bound on the walk does not matter once it exceeds the length;
* `Chain.Links.congr` — a chain only depends on the links of its own cells;
* `Chain.Links.cut` — **redirecting a link past the next cell removes exactly that cell**.
-/

import Mathlib.Data.List.Basic
import Mathlib.Tactic

set_option autoImplicit false

namespace Chain

/-- The addresses met by following `next` from a pointer, for at most `fuel` steps. -/
def chain (next : ℕ → Option ℕ) : ℕ → Option ℕ → List ℕ
  | 0, _ => []
  | _ + 1, none => []
  | fuel + 1, some n => n :: chain next fuel (next n)

/-- Every link of a cell below `bound` leads to a smaller address. -/
def Descending (next : ℕ → Option ℕ) (bound : ℕ) : Prop :=
  ∀ n m, n < bound → next n = some m → m < n

variable {next next' : ℕ → Option ℕ} {bound : ℕ}

@[simp] theorem chain_none (next : ℕ → Option ℕ) (fuel : ℕ) : chain next fuel none = [] := by
  cases fuel <;> rfl

@[simp] theorem chain_zero (next : ℕ → Option ℕ) (o : Option ℕ) : chain next 0 o = [] := rfl

theorem chain_succ_some (next : ℕ → Option ℕ) (fuel n : ℕ) :
    chain next (fuel + 1) (some n) = n :: chain next fuel (next n) := rfl

theorem forall_mem_chain {P : ℕ → Prop} (hstep : ∀ n m, P n → next n = some m → P m) :
    ∀ (fuel : ℕ) (o : Option ℕ), (∀ n, o = some n → P n) → ∀ m ∈ chain next fuel o, P m := by
  intro fuel
  induction fuel with
  | zero => intro o _ m hm; simp at hm
  | succ fuel ih =>
    intro o ho m hm
    cases o with
    | none => simp at hm
    | some n =>
      have hn : P n := ho n rfl
      rw [chain_succ_some] at hm
      rcases List.mem_cons.1 hm with rfl | hm
      · exact hn
      · exact ih (next n) (fun k hk => hstep n k hn hk) m hm

theorem le_of_mem_chain (hd : Descending next bound) {fuel n m : ℕ} (hn : n < bound)
    (hm : m ∈ chain next fuel (some n)) : m ≤ n := by
  refine forall_mem_chain (P := fun k => k ≤ n) (fun a b ha hab => ?_) fuel (some n)
    (fun k hk => (Option.some.inj hk).symm.le) m hm
  have := hd a b (by omega) hab
  omega

/-- **A chain is strictly decreasing**, so no cell is met twice. -/
theorem pairwise_chain (hd : Descending next bound) :
    ∀ (fuel : ℕ) (o : Option ℕ), (∀ n, o = some n → n < bound) →
      (chain next fuel o).Pairwise (· > ·) := by
  intro fuel
  induction fuel with
  | zero => intro o _; simp
  | succ fuel ih =>
    intro o ho
    cases o with
    | none => simp
    | some n =>
      have hn : n < bound := ho n rfl
      have hlt : ∀ m, next n = some m → m < n := fun m hm => hd n m hn hm
      rw [chain_succ_some]
      refine List.Pairwise.cons (fun m hm => ?_) (ih (next n) fun m hm => by
        have := hlt m hm; omega)
      cases hnext : next n with
      | none => simp [hnext] at hm
      | some k =>
        rw [hnext] at hm
        have hk := hlt k hnext
        have := le_of_mem_chain hd (by omega) hm
        omega

/-! ### Chains that end -/

/-- Following `next` from a pointer meets the cells of a list, in order, and then ends. -/
def Links (next : ℕ → Option ℕ) : Option ℕ → List ℕ → Prop
  | o, [] => o = none
  | o, n :: l => o = some n ∧ Links next (next n) l

theorem chain_of_links : ∀ {l : List ℕ} {o : Option ℕ} {fuel : ℕ}, Links next o l →
    l.length ≤ fuel → chain next fuel o = l := by
  intro l
  induction l with
  | nil =>
    intro o fuel h _
    obtain rfl : o = none := h
    exact chain_none next fuel
  | cons n l ih =>
    intro o fuel h hlen
    obtain ⟨rfl, h⟩ := h
    obtain ⟨k, rfl⟩ : ∃ k, fuel = k + 1 := ⟨fuel - 1, by simp at hlen; omega⟩
    rw [chain_succ_some, ih h (by simpa using hlen)]

theorem mem_of_links : ∀ {l : List ℕ} {o : Option ℕ} {fuel m : ℕ}, Links next o l →
    m ∈ chain next fuel o → m ∈ l := by
  intro l
  induction l with
  | nil =>
    intro o fuel m h hm
    obtain rfl : o = none := h
    simp at hm
  | cons n l ih =>
    intro o fuel m h hm
    obtain ⟨rfl, h⟩ := h
    cases fuel with
    | zero => simp at hm
    | succ fuel =>
      rcases List.mem_cons.1 hm with rfl | hm
      · exact List.mem_cons_self
      · exact List.mem_cons_of_mem _ (ih h hm)

theorem links_chain (hd : Descending next bound) :
    ∀ (o : Option ℕ), (∀ n, o = some n → n < bound) → Links next o (chain next bound o) := by
  have key : ∀ n fuel, n < bound → n < fuel → Links next (some n) (chain next fuel (some n)) := by
    intro n
    induction n using Nat.strong_induction_on with
    | _ n ih =>
      intro fuel hn hfuel
      obtain ⟨k, rfl⟩ : ∃ k, fuel = k + 1 := ⟨fuel - 1, by omega⟩
      refine ⟨rfl, ?_⟩
      cases hnext : next n with
      | none =>
        rw [chain_none]
        rfl
      | some m =>
        have hm := hd n m hn hnext
        exact ih m hm k (by omega) (by omega)
  intro o ho
  cases o with
  | none =>
    rw [chain_none]
    rfl
  | some n => exact key n bound (ho n rfl) (ho n rfl)

namespace Links

theorem congr : ∀ {l : List ℕ} {o : Option ℕ}, Links next o l → (∀ n ∈ l, next' n = next n) →
    Links next' o l := by
  intro l
  induction l with
  | nil =>
    intro o h _
    exact h
  | cons n l ih =>
    intro o h hn
    refine ⟨h.1, ?_⟩
    rw [hn n List.mem_cons_self]
    exact ih h.2 fun m hm => hn m (List.mem_cons_of_mem _ hm)

/-- **Redirecting a link past the next cell removes exactly that cell.** -/
theorem cut {q t : ℕ} : ∀ {A B : List ℕ} {o : Option ℕ}, Links next o (A ++ q :: t :: B) →
    q ∉ A → q ∉ B → next' q = next t → (∀ m, m ≠ q → next' m = next m) →
    Links next' o (A ++ q :: B) := by
  intro A
  induction A with
  | nil =>
    intro B o h _ hB hq hne
    refine ⟨h.1, ?_⟩
    rw [hq]
    exact h.2.2.congr fun m hm => hne m fun e => hB (e ▸ hm)
  | cons a A ih =>
    intro B o h hA hB hq hne
    refine ⟨h.1, ?_⟩
    rw [hne a fun e => hA (e ▸ List.mem_cons_self)]
    exact ih h.2 (fun hm => hA (List.mem_cons_of_mem _ hm)) hB hq hne

end Links

end Chain
