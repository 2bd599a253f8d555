/-
**Packet numbers under keys that change.**

Somebody derives keys from a nonce of their own and one of the other side, and numbers the frames they
send under the current key.  The numbers start again only when an exchange is completed; the key may
change more often than that.  A record of what happened, the newest event first, tells all there is to
know: the own nonce, the key, the number of the next frame.

Between two resets no number comes twice, whatever the keys are.  Across a reset the keys have to differ,
and they do when the nonce of the exchange is new and when nothing was sent under the keys of that
exchange before its reset.

Main definitions:

* `KeyEras.Fresh`, `KeyEras.Distinct` — the nonce of an exchange is new, and keys tell pairs of nonces
  apart.

Main results:

* `KeyEras.current` — the current key comes from a nonce that was not seen before the last exchange that
  was completed;
* `KeyEras.nodup_frames` — **no key and number come twice**.
-/

import Mathlib.Data.List.Nodup
import Mathlib.Data.Set.Basic
import Mathlib.Data.Sym.Sym2
import Mathlib.Tactic.Common

set_option autoImplicit false

namespace KeyEras

/-- What can happen: an exchange is begun with a nonce, the nonce is made again, a key is derived from the
own nonce and the one of the other side, the numbers start again, a frame is sent. -/
inductive Event (ν κ : Type*)
  | begun (s : ν)
  | remade (s : ν)
  | derived (s a : ν) (key : κ)
  | reset
  | sent (key : κ) (pn : ℕ)
  deriving DecidableEq, Repr

section Records

variable {ν κ : Type*}

def own : List (Event ν κ) → Option ν
  | [] => none
  | .begun s :: _ => some s
  | .remade s :: _ => some s
  | _ :: tr => own tr

def key : List (Event ν κ) → Option κ
  | [] => none
  | .derived _ _ k :: _ => some k
  | _ :: tr => key tr

def count : List (Event ν κ) → ℕ
  | [] => 0
  | .reset :: _ => 0
  | .sent _ _ :: tr => count tr + 1
  | _ :: tr => count tr

def before : List (Event ν κ) → List (Event ν κ)
  | [] => []
  | .begun _ :: tr => tr
  | _ :: tr => before tr

def past : List (Event ν κ) → List (Event ν κ)
  | [] => []
  | .reset :: tr => tr
  | _ :: tr => past tr

def old (tr : List (Event ν κ)) : List (Event ν κ) := before (past tr)

def Begun (tr : List (Event ν κ)) : Prop := ∃ s, .begun s ∈ tr

def Keyed : List (Event ν κ) → Prop
  | [] => False
  | .begun _ :: _ => False
  | .derived _ _ _ :: _ => True
  | _ :: tr => Keyed tr

def Loud : List (Event ν κ) → Prop
  | [] => False
  | .begun _ :: _ => False
  | .sent _ _ :: tr => Keyed tr ∨ Loud tr
  | _ :: tr => Loud tr

def seen (tr : List (Event ν κ)) : Set ν := {n | ∃ s a k, .derived s a k ∈ tr ∧ (n = s ∨ n = a)}

/-- The records that can come about: a key is derived from the own nonce, the numbers start again only
after an exchange, and a frame has the current key and the next number. -/
inductive Valid : List (Event ν κ) → Prop
  | nil : Valid []
  | begun {tr} (s : ν) (h : Valid tr) : Valid (.begun s :: tr)
  | remade {tr} (s : ν) (h : Valid tr) : Valid (.remade s :: tr)
  | derived {tr s} (a : ν) (k : κ) (h : Valid tr) (hown : own tr = some s) :
      Valid (.derived s a k :: tr)
  | reset {tr} (h : Valid tr) (hbegun : Begun tr) (hkeyed : Keyed tr) : Valid (.reset :: tr)
  | sent {tr k} (h : Valid tr) (hkey : key tr = some k) : Valid (.sent k (count tr + 1) :: tr)

/-- A nonce is not among those seen before the exchange it is made for. -/
def Fresh : List (Event ν κ) → Prop
  | [] => True
  | .begun s :: tr => s ∉ seen tr ∧ Fresh tr
  | .remade s :: tr => s ∉ seen (before tr) ∧ Fresh tr
  | _ :: tr => Fresh tr

def Distinct (tr : List (Event ν κ)) : Prop :=
  ∀ s a s' a' k, .derived s a k ∈ tr → .derived s' a' k ∈ tr → s(s, a) = s(s', a')

/-- Nothing is sent under the keys of an exchange before the reset that completes it. -/
def Quiet : List (Event ν κ) → Prop
  | [] => True
  | .reset :: tr => ¬ Loud tr ∧ Quiet tr
  | _ :: tr => Quiet tr

/-- Fewer than `N` frames are sent between two resets. -/
def Few (N : ℕ) : List (Event ν κ) → Prop
  | [] => True
  | .sent _ _ :: tr => count tr + 1 < N ∧ Few N tr
  | _ :: tr => Few N tr

/-- The frames, each with its key and with what a field for numbers below `N` holds. -/
def frames (N : ℕ) : List (Event ν κ) → List (κ × ℕ)
  | [] => []
  | .sent k pn :: tr => (k, pn % N) :: frames N tr
  | _ :: tr => frames N tr

end Records

variable {ν κ : Type*} {N : ℕ} {tr : List (Event ν κ)} {s a : ν} {k : κ} {pn : ℕ}

/-! ### What a record contains -/

theorem before_subset (tr : List (Event ν κ)) : before tr ⊆ tr := by
  induction tr with
  | nil => exact List.Subset.refl _
  | cons o tr ih =>
    cases o with
    | begun s => exact List.subset_cons_self _ _
    | remade s => exact List.subset_cons_of_subset _ ih
    | derived s a k => exact List.subset_cons_of_subset _ ih
    | reset => exact List.subset_cons_of_subset _ ih
    | sent k pn => exact List.subset_cons_of_subset _ ih

theorem past_subset (tr : List (Event ν κ)) : past tr ⊆ tr := by
  induction tr with
  | nil => exact List.Subset.refl _
  | cons o tr ih =>
    cases o with
    | begun s => exact List.subset_cons_of_subset _ ih
    | remade s => exact List.subset_cons_of_subset _ ih
    | derived s a k => exact List.subset_cons_of_subset _ ih
    | reset => exact List.subset_cons_self _ _
    | sent k pn => exact List.subset_cons_of_subset _ ih

theorem old_subset (tr : List (Event ν κ)) : old tr ⊆ before tr := by
  induction tr with
  | nil => exact List.Subset.refl _
  | cons o tr ih =>
    cases o with
    | begun s => exact List.Subset.trans (before_subset _) (past_subset tr)
    | remade s => exact ih
    | derived s a k => exact ih
    | reset => exact List.Subset.refl _
    | sent k pn => exact ih

theorem seen_mono {tr tr' : List (Event ν κ)} (h : tr ⊆ tr') : seen tr ⊆ seen tr' := by
  rintro n ⟨s, a, k, hmem, hn⟩
  exact ⟨s, a, k, h hmem, hn⟩

theorem mem_of_key (h : key tr = some k) : ∃ s a, .derived s a k ∈ tr := by
  induction tr with
  | nil => cases h
  | cons o tr ih =>
    cases o with
    | derived s a k' =>
      obtain rfl : k' = k := Option.some.inj h
      exact ⟨s, a, List.mem_cons_self⟩
    | begun s =>
      obtain ⟨s, a, hmem⟩ := ih h
      exact ⟨s, a, List.mem_cons_of_mem _ hmem⟩
    | remade s =>
      obtain ⟨s, a, hmem⟩ := ih h
      exact ⟨s, a, List.mem_cons_of_mem _ hmem⟩
    | reset =>
      obtain ⟨s, a, hmem⟩ := ih h
      exact ⟨s, a, List.mem_cons_of_mem _ hmem⟩
    | sent k' pn =>
      obtain ⟨s, a, hmem⟩ := ih h
      exact ⟨s, a, List.mem_cons_of_mem _ hmem⟩

theorem mem_of_sent (hv : Valid tr) (h : .sent k pn ∈ tr) : ∃ s a, .derived s a k ∈ tr := by
  induction hv with
  | nil => cases h
  | @begun tr s hv ih | @remade tr s hv ih | @derived tr s a k' hv _ ih | @reset tr hv _ _ ih =>
    obtain ⟨s, a, hmem⟩ := ih ((List.mem_cons.1 h).resolve_left (by simp))
    exact ⟨s, a, List.mem_cons_of_mem _ hmem⟩
  | @sent tr k' hv hkey ih =>
    obtain heq | hmem := List.mem_cons.1 h
    · obtain ⟨rfl, -⟩ : k = k' ∧ pn = _ := by simpa using heq
      obtain ⟨s, a, hmem⟩ := mem_of_key hkey
      exact ⟨s, a, List.mem_cons_of_mem _ hmem⟩
    · obtain ⟨s, a, hmem⟩ := ih hmem
      exact ⟨s, a, List.mem_cons_of_mem _ hmem⟩

/-! ### The nonce of an exchange -/

theorem own_notMem (hf : Fresh tr) (h : own tr = some s) : s ∉ seen (before tr) := by
  induction tr with
  | nil => cases h
  | cons o tr ih =>
    cases o with
    | begun s' =>
      obtain rfl : s' = s := Option.some.inj h
      exact hf.1
    | remade s' =>
      obtain rfl : s' = s := Option.some.inj h
      exact hf.1
    | derived s' a k => exact ih hf h
    | reset => exact ih hf h
    | sent k pn => exact ih hf h

theorem key_of_keyed (hv : Valid tr) (hf : Fresh tr) (hk : Keyed tr) (h : key tr = some k) :
    ∃ s a, .derived s a k ∈ tr ∧ s ∉ seen (before tr) := by
  induction hv with
  | nil => cases h
  | begun s hv ih => exact hk.elim
  | remade s hv ih =>
    obtain ⟨s, a, hmem, hs⟩ := ih hf.2 hk h
    exact ⟨s, a, List.mem_cons_of_mem _ hmem, hs⟩
  | @derived tr s a k' hv hown ih =>
    obtain rfl : k' = k := Option.some.inj h
    exact ⟨s, a, List.mem_cons_self, own_notMem hf hown⟩
  | reset hv _ _ ih =>
    obtain ⟨s, a, hmem, hs⟩ := ih hf hk h
    exact ⟨s, a, List.mem_cons_of_mem _ hmem, hs⟩
  | sent hv _ ih =>
    obtain ⟨s, a, hmem, hs⟩ := ih hf hk h
    exact ⟨s, a, List.mem_cons_of_mem _ hmem, hs⟩

theorem key_of_not_keyed (hb : Begun tr) (hk : ¬ Keyed tr) (h : key tr = some k) :
    ∃ s a, .derived s a k ∈ before tr := by
  induction tr with
  | nil => cases h
  | cons o tr ih =>
    cases o with
    | begun s => exact mem_of_key h
    | remade s => exact ih (by simpa [Begun] using hb) hk h
    | derived s a k => exact absurd trivial hk
    | reset => exact ih (by simpa [Begun] using hb) hk h
    | sent k pn => exact ih (by simpa [Begun] using hb) hk h

theorem sent_of_not_loud (hv : Valid tr) (hb : Begun tr) (hl : ¬ Loud tr) (h : .sent k pn ∈ tr) :
    ∃ s a, .derived s a k ∈ before tr := by
  induction hv with
  | nil => cases h
  | begun s hv ih => exact mem_of_sent hv ((List.mem_cons.1 h).resolve_left (by simp))
  | remade s hv ih =>
    exact ih (by simpa [Begun] using hb) hl ((List.mem_cons.1 h).resolve_left (by simp))
  | derived a k' hv hown ih =>
    exact ih (by simpa [Begun] using hb) hl ((List.mem_cons.1 h).resolve_left (by simp))
  | reset hv _ _ ih =>
    exact ih (by simpa [Begun] using hb) hl ((List.mem_cons.1 h).resolve_left (by simp))
  | @sent tr k' hv hkey ih =>
    have hbegun : Begun tr := by simpa [Begun] using hb
    obtain ⟨hk, hl⟩ := not_or.1 hl
    obtain heq | hmem := List.mem_cons.1 h
    · obtain ⟨rfl, -⟩ : k = k' ∧ pn = _ := by simpa using heq
      exact (key_of_not_keyed hbegun hk hkey : ∃ s a, .derived s a k ∈ before tr)
    · exact ih hbegun hl hmem

/-! ### Eras -/

/-- **The current key comes from a nonce that was not seen before the exchange completed last.** -/
theorem current (hv : Valid tr) (hf : Fresh tr) (h : key tr = some k) :
    ∃ s a, .derived s a k ∈ tr ∧ s ∉ seen (old tr) := by
  induction hv with
  | nil => cases h
  | begun s hv ih =>
    obtain ⟨s, a, hmem, hs⟩ := ih hf.2 h
    exact ⟨s, a, List.mem_cons_of_mem _ hmem, hs⟩
  | remade s hv ih =>
    obtain ⟨s, a, hmem, hs⟩ := ih hf.2 h
    exact ⟨s, a, List.mem_cons_of_mem _ hmem, hs⟩
  | @derived tr s a k' hv hown ih =>
    obtain rfl : k' = k := Option.some.inj h
    exact ⟨s, a, List.mem_cons_self, fun hs => own_notMem hf hown (seen_mono (old_subset tr) hs)⟩
  | reset hv _ hkeyed ih =>
    -- the key was derived in the exchange that is completed here
    obtain ⟨s, a, hmem, hs⟩ := key_of_keyed hv hf hkeyed h
    exact ⟨s, a, List.mem_cons_of_mem _ hmem, hs⟩
  | sent hv _ ih =>
    obtain ⟨s, a, hmem, hs⟩ := ih hf h
    exact ⟨s, a, List.mem_cons_of_mem _ hmem, hs⟩

theorem sent_past (hv : Valid tr) (hq : Quiet tr) (h : .sent k pn ∈ past tr) :
    ∃ s a, .derived s a k ∈ old tr := by
  induction hv with
  | nil => cases h
  | begun s hv ih => exact ih hq h
  | remade s hv ih => exact ih hq h
  | derived a k' hv hown ih => exact ih hq h
  | reset hv hbegun hkeyed ih => exact sent_of_not_loud hv hbegun hq.1 h
  | sent hv hkey ih => exact ih hq h

theorem sent_recent (hv : Valid tr) (h : .sent k pn ∈ tr) : .sent k pn ∈ past tr ∨ pn ≤ count tr := by
  induction hv with
  | nil => cases h
  | begun s hv ih => exact ih ((List.mem_cons.1 h).resolve_left (by simp))
  | remade s hv ih => exact ih ((List.mem_cons.1 h).resolve_left (by simp))
  | derived a k' hv hown ih => exact ih ((List.mem_cons.1 h).resolve_left (by simp))
  | reset hv _ _ ih => exact .inl ((List.mem_cons.1 h).resolve_left (by simp))
  | @sent tr k' hv hkey ih =>
    rw [count]
    obtain heq | hmem := List.mem_cons.1 h
    · obtain ⟨-, rfl⟩ : k = k' ∧ pn = count tr + 1 := by simpa using heq
      exact .inr le_rfl
    · exact (ih hmem).imp id fun hle => by omega

theorem few_of_append {l : List (Event ν κ)} (h : Few N (l ++ tr)) : Few N tr := by
  induction l with
  | nil => exact h
  | cons o l ih =>
    cases o with
    | sent k pn => exact ih h.2
    | begun s | remade s | derived s a k | reset => exact ih h

theorem mem_frames {c : κ × ℕ} (h : c ∈ frames N tr) : ∃ pn, .sent c.1 pn ∈ tr ∧ c.2 = pn % N := by
  induction tr with
  | nil => cases h
  | cons o tr ih =>
    cases o with
    | sent k pn =>
      obtain rfl | hmem := List.mem_cons.1 h
      · exact ⟨pn, List.mem_cons_self, rfl⟩
      · obtain ⟨pn, hmem, hc⟩ := ih hmem
        exact ⟨pn, List.mem_cons_of_mem _ hmem, hc⟩
    | begun s | remade s | derived s a k | reset =>
      obtain ⟨pn, hmem, hc⟩ := ih h
      exact ⟨pn, List.mem_cons_of_mem _ hmem, hc⟩

/-- **No key and number come twice.** -/
theorem nodup_frames (hv : Valid tr) (hf : Fresh tr) (hd : Distinct tr) (hq : Quiet tr)
    (hn : Few N tr) : (frames N tr).Nodup := by
  induction hv with
  | nil => exact List.nodup_nil
  | begun s hv ih =>
    exact ih hf.2 (fun s a s' a' k h h' => hd s a s' a' k (.tail _ h) (.tail _ h')) hq hn
  | remade s hv ih =>
    exact ih hf.2 (fun s a s' a' k h h' => hd s a s' a' k (.tail _ h) (.tail _ h')) hq hn
  | derived a k' hv hown ih =>
    exact ih hf (fun s a s' a' k h h' => hd s a s' a' k (.tail _ h) (.tail _ h')) hq hn
  | reset hv _ _ ih =>
    exact ih hf (fun s a s' a' k h h' => hd s a s' a' k (.tail _ h) (.tail _ h')) hq.2 hn
  | @sent tr k hv hkey ih =>
    refine List.nodup_cons.2 ⟨fun hmem => ?_,
      ih hf (fun s a s' a' k h h' => hd s a s' a' k (.tail _ h) (.tail _ h')) hq hn.2⟩
    obtain ⟨pn, hsent, hpn⟩ := mem_frames hmem
    obtain hpast | hle := sent_recent hv hsent
    · -- a frame of an earlier era: its key comes from old nonces, the new one does not
      obtain ⟨s, a, hderived, hs⟩ := current hv hf hkey
      obtain ⟨s', a', hold⟩ := sent_past hv hq hpast
      have hpair : s(s, a) = s(s', a') :=
        hd s a s' a' k (.tail _ hderived) (.tail _ (past_subset tr (before_subset _ hold)))
      have hin : s ∈ s(s', a') := hpair ▸ Sym2.mem_mk_left s a
      exact hs ⟨s', a', k, hold, Sym2.mem_iff.1 hin⟩
    · -- a frame of this era: the numbers go up, and none reaches the bound
      have hlt : count tr + 1 < N := hn.1
      rw [Nat.mod_eq_of_lt hlt, Nat.mod_eq_of_lt (by omega)] at hpn
      omega

end KeyEras
