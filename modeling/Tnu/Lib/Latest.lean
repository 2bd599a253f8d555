/-
**A small table of the latest items.**

Items come one after the other, each with a key.  A table of bounded size keeps one item for a key: a later item
takes the place of an earlier one, an item with a new key goes to the end while there is room, and is forgotten when
there is none.

Main definitions:

* `Latest.put` — the table with one more item.

Main result:

* `Latest.Holds.nil` — the empty table.
-/

import Mathlib.Data.List.Nodup
import Mathlib.Tactic

set_option autoImplicit false

namespace Latest

variable {α κ : Type*} (key : α → κ) (cap : ℕ)

def put [DecidableEq κ] (table : List α) (a : α) : List α :=
  match table.findIdx? fun b => key b = key a with
  | some k => table.set k a
  | none => if table.length < cap then table ++ [a] else table

/-- **What a table says about the items that came**: its keys are different, every item is the last one of its key,
and a key is missing only if the table was full of other keys before the first item of it. -/
structure Holds (history table : List α) : Prop where
  length_le : table.length ≤ cap
  nodup : (table.map key).Nodup
  latest : ∀ a ∈ table, ∃ before after, history = before ++ a :: after ∧ ∀ b ∈ after, key b ≠ key a
  missing : ∀ a ∈ history, key a ∉ table.map key →
    table.length = cap ∧ ∃ before after, history = before ++ after ∧ (∀ b ∈ before, key b ≠ key a) ∧
      ∀ c ∈ table.map key, ∃ b ∈ before, key b = c

variable {key cap} {history table : List α} {a : α}

theorem Holds.nil : Holds key cap [] [] where
  length_le := Nat.zero_le cap
  nodup := List.nodup_nil
  latest := fun _ h => by cases h
  missing := fun _ h => by cases h

theorem Holds.latest_snoc (h : Holds key cap history table) {b : α} (hb : b ∈ table) (hne : key a ≠ key b) :
    ∃ before after, history ++ [a] = before ++ b :: after ∧ ∀ c ∈ after, key c ≠ key b := by
  obtain ⟨before, after, rfl, hafter⟩ := h.latest b hb
  refine ⟨before, after ++ [a], by rw [List.append_assoc, List.cons_append], fun c hc => ?_⟩
  rcases List.mem_append.1 hc with hc | hc
  · exact hafter c hc
  · rw [List.mem_singleton.1 hc]
    exact hne

theorem Holds.missing_snoc (h : Holds key cap history table) {b : α} (hb : b ∈ history)
    (hnot : key b ∉ table.map key) :
    table.length = cap ∧ ∃ before after, history ++ [a] = before ++ after ∧ (∀ c ∈ before, key c ≠ key b) ∧
      ∀ c ∈ table.map key, ∃ b ∈ before, key b = c := by
  obtain ⟨hfull, before, after, rfl, hbefore, hall⟩ := h.missing b hb hnot
  exact ⟨hfull, before, after ++ [a], List.append_assoc _ _ _, hbefore, hall⟩

theorem Holds.exists_of_mem (h : Holds key cap history table) {c : κ} (hc : c ∈ table.map key) :
    ∃ b ∈ history, key b = c := by
  obtain ⟨b, hb, rfl⟩ := List.mem_map.1 hc
  obtain ⟨before, after, rfl, -⟩ := h.latest b hb
  exact ⟨b, List.mem_append_right _ List.mem_cons_self, rfl⟩

theorem map_set_of_key {k : ℕ} (hk : k < table.length) (hkey : key table[k] = key a) :
    (table.set k a).map key = table.map key := by
  have hget : (table.map key)[k]? = some (key a) := by
    rw [List.getElem?_map, List.getElem?_eq_getElem hk, Option.map_some, hkey]
  obtain ⟨hk', hget⟩ := List.getElem?_eq_some_iff.1 hget
  rw [List.map_set, ← hget, List.set_getElem_self]

theorem Holds.set (h : Holds key cap history table) {k : ℕ} (hk : k < table.length) (hkey : key table[k] = key a) :
    Holds key cap (history ++ [a]) (table.set k a) := by
  have hkeys := map_set_of_key hk hkey
  have hthere : key a ∈ table.map key := by
    rw [← hkey]
    exact List.mem_map_of_mem (List.getElem_mem hk)
  refine ⟨?_, ?_, fun b hb => ?_, fun b hb hnot => ?_⟩
  · rw [List.length_set]
    exact h.length_le
  · rw [hkeys]
    exact h.nodup
  · obtain ⟨j, hj, rfl⟩ := List.getElem_of_mem hb
    rw [List.length_set] at hj
    by_cases hkj : k = j
    · subst hkj
      rw [List.getElem_set_self]
      exact ⟨history, [], rfl, fun c hc => by cases hc⟩
    · rw [List.getElem_set_ne hkj]
      refine h.latest_snoc (List.getElem_mem hj) fun heq => hkj ?_
      -- two places of one key are one place
      have hk' : k < (table.map key).length := by simpa using hk
      have hj' : j < (table.map key).length := by simpa using hj
      have hpair : (table.map key)[k] = (table.map key)[j] := by
        rw [List.getElem_map, List.getElem_map, hkey, heq]
      exact (List.Nodup.getElem_inj_iff h.nodup).1 hpair
  · rw [hkeys] at hnot ⊢
    rw [List.length_set]
    rcases List.mem_append.1 hb with hb | hb
    · exact h.missing_snoc hb hnot
    · rw [List.mem_singleton.1 hb] at hnot
      exact absurd hthere hnot

theorem Holds.append (h : Holds key cap history table) (hnew : key a ∉ table.map key) (hroom : table.length < cap) :
    Holds key cap (history ++ [a]) (table ++ [a]) := by
  refine ⟨?_, ?_, fun b hb => ?_, fun b hb hnot => ?_⟩
  · rw [List.length_append, List.length_singleton]
    omega
  · rw [List.map_append, List.map_singleton]
    exact List.nodup_append.2 ⟨h.nodup, List.nodup_singleton _, fun c hc d hd hcd => hnew (by
      rw [← List.mem_singleton.1 hd, ← hcd]
      exact hc)⟩
  · rcases List.mem_append.1 hb with hb | hb
    · exact h.latest_snoc hb fun heq => hnew (heq ▸ List.mem_map_of_mem hb)
    · rw [List.mem_singleton.1 hb]
      exact ⟨history, [], rfl, fun c hc => by cases hc⟩
  · rw [List.map_append, List.map_singleton, List.mem_append, not_or] at hnot
    rcases List.mem_append.1 hb with hb | hb
    · exact absurd (h.missing b hb hnot.1).1 (by omega)
    · rw [List.mem_singleton.1 hb, List.mem_singleton] at hnot
      exact absurd rfl hnot.2

theorem Holds.forget (h : Holds key cap history table) (hnew : key a ∉ table.map key) (hfull : table.length = cap) :
    Holds key cap (history ++ [a]) table := by
  refine ⟨h.length_le, h.nodup, fun b hb => h.latest_snoc hb fun heq => hnew (heq ▸ List.mem_map_of_mem hb),
    fun b hb hnot => ?_⟩
  rcases List.mem_append.1 hb with hb | hb
  · exact h.missing_snoc hb hnot
  · rw [List.mem_singleton.1 hb]
    by_cases hearlier : ∃ c ∈ history, key c = key a
    · obtain ⟨c, hc, hkey⟩ := hearlier
      rw [← hkey]
      exact h.missing_snoc hc (hkey ▸ hnew)
    · push Not at hearlier
      exact ⟨hfull, history, [a], rfl, hearlier, fun c hc => h.exists_of_mem hc⟩

/-- **One more item.** -/
theorem Holds.put [DecidableEq κ] (h : Holds key cap history table) (a : α) :
    Holds key cap (history ++ [a]) (put key cap table a) := by
  rw [Latest.put]
  cases hfound : table.findIdx? fun b => key b = key a with
  | some k =>
    obtain ⟨hk, hkey, -⟩ := List.findIdx?_eq_some_iff_getElem.1 hfound
    exact h.set hk (of_decide_eq_true hkey)
  | none =>
    have hnew : key a ∉ table.map key := fun hmem => by
      obtain ⟨b, hb, heq⟩ := List.mem_map.1 hmem
      exact absurd (decide_eq_true heq) (Bool.eq_false_iff.1 (List.findIdx?_eq_none_iff.1 hfound b hb))
    dsimp only
    split_ifs with hroom
    · exact h.append hnew hroom
    · exact h.forget hnew (le_antisymm h.length_le (not_lt.1 hroom))

end Latest
