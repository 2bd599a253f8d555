/-
**Stream ciphers.**

A key stream comes in blocks of one size, one for each state of a counter, and is added to a text.
Adding it twice gives the text back.  Nothing here depends on the cipher.

Main results:

* `Stream.length_crypt`, `Stream.crypt_crypt` — **the same stream twice is nothing**.
-/

import Mathlib.Data.List.Basic

set_option autoImplicit false

namespace Stream

variable {σ : Type*} {block : σ → List UInt8} {next : σ → σ} {n : ℕ}

def add (l k : List UInt8) : List UInt8 := List.zipWith (· ^^^ ·) l k

/-- A text under the key stream of the blocks of `n` bytes from the state `s` on. -/
def crypt (block : σ → List UInt8) (next : σ → σ) (n : ℕ) (s : σ) (l : List UInt8) : List UInt8 :=
  if _h : l = [] ∨ n = 0 then []
  else add (l.take n) (block s) ++ crypt block next n (next s) (l.drop n)
termination_by l.length
decreasing_by
  have hl : 0 < l.length := List.length_pos_iff.2 fun hl => _h (.inl hl)
  rw [List.length_drop]
  omega

@[simp] theorem crypt_nil (s : σ) : crypt block next n s [] = [] := by
  rw [crypt, dif_pos (.inl rfl)]

theorem crypt_of_ne_nil (s : σ) {l : List UInt8} (hl : l ≠ []) (hn : n ≠ 0) :
    crypt block next n s l = add (l.take n) (block s) ++ crypt block next n (next s) (l.drop n) := by
  rw [crypt, dif_neg (by tauto)]

theorem length_add (l k : List UInt8) : (add l k).length = min l.length k.length :=
  List.length_zipWith

theorem add_add {l k : List UInt8} (h : l.length ≤ k.length) : add (add l k) k = l := by
  induction l generalizing k with
  | nil => rfl
  | cons a l ih =>
    cases k with
    | nil => simp at h
    | cons b k =>
      have hab : a ^^^ b ^^^ b = a := by rw [UInt8.xor_assoc, UInt8.xor_self, UInt8.xor_zero]
      rw [add, add, List.zipWith_cons_cons, List.zipWith_cons_cons, hab]
      exact congrArg _ (ih (by simpa using h))

theorem length_crypt (hblock : ∀ s, (block s).length = n) (hn : n ≠ 0) (s : σ) (l : List UInt8) :
    (crypt block next n s l).length = l.length := by
  by_cases hl : l = []
  · rw [hl, crypt_nil]
  · have hpos : 0 < l.length := List.length_pos_iff.2 hl
    have hdec : (l.drop n).length < l.length := by rw [List.length_drop]; omega
    rw [crypt_of_ne_nil s hl hn, List.length_append, length_crypt hblock hn, length_add, hblock,
      List.length_take, List.length_drop]
    omega
termination_by l.length

/-- **The same stream twice is nothing.** -/
theorem crypt_crypt (hblock : ∀ s, (block s).length = n) (hn : n ≠ 0) (s : σ) (l : List UInt8) :
    crypt block next n s (crypt block next n s l) = l := by
  by_cases hl : l = []
  · rw [hl, crypt_nil, crypt_nil]
  · have hpos : 0 < l.length := List.length_pos_iff.2 hl
    have hdec : (l.drop n).length < l.length := by rw [List.length_drop]; omega
    have hne : crypt block next n s l ≠ [] := by
      rw [← List.length_pos_iff, length_crypt hblock hn]
      exact hpos
    have hhead : (add (l.take n) (block s)).length = min n l.length := by
      rw [length_add, hblock, List.length_take]
      omega
    have htake : (crypt block next n s l).take n = add (l.take n) (block s) := by
      rw [crypt_of_ne_nil s hl hn]
      rcases Nat.lt_or_ge l.length n with h | h
      · rw [List.drop_of_length_le (Nat.le_of_lt h), crypt_nil, List.append_nil,
          List.take_of_length_le (by omega)]
      · rw [List.take_append_of_le_length (by omega), List.take_of_length_le (by omega)]
    have hdrop : (crypt block next n s l).drop n = crypt block next n (next s) (l.drop n) := by
      rw [crypt_of_ne_nil s hl hn]
      rcases Nat.lt_or_ge l.length n with h | h
      · rw [List.drop_of_length_le (Nat.le_of_lt h), crypt_nil, List.append_nil,
          List.drop_of_length_le (by omega)]
      · rw [List.drop_append_of_le_length (by omega), List.drop_of_length_le (by omega),
          List.nil_append]
    rw [crypt_of_ne_nil s hne hn, htake, hdrop, crypt_crypt hblock hn,
      add_add (by rw [hblock, List.length_take]; omega), List.take_append_drop]
termination_by l.length

end Stream
