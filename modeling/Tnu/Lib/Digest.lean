/-
**Digests over blocks, and what is built from them.**

A digest of the common kind works through a padded message in blocks of 64 bytes.  Programs take the
message in pieces: they collect what comes in, work on a block when it is full, and feed themselves the
padding in the same way.  This module says that both come to the same, however the message is cut, and
defines the authenticators and key derivations that take any such digest.

Main definitions:

* `Digest.Run`, `Digest.absorb`, `Digest.copyLoop` — a digest that is under way, byte by byte and by as
  many bytes as fit.

Main results:

* `Digest.absorb_pad` — **the message with its padding, in any pieces, gives the digest**;
* `Digest.outLoop_eq` — the loop writes the front of the blocks.
-/

import Tnu.Lib.Words

set_option autoImplicit false

namespace Digest

open Bytes (be length_be be_mod)

/-! ### The digest -/

/-- The zeros behind the first byte of the padding: as few as leave eight bytes of the last block. -/
def padZeros (len : ℕ) : ℕ := (119 - len % 64) % 64

/-- The message with its padding: a one bit, zeros, and the number of its bits. -/
def pad (m : List UInt8) : List UInt8 :=
  m ++ 0x80 :: (List.replicate (padZeros m.length) 0 ++ be 8 (8 * m.length))

theorem padZeros_spec (len : ℕ) : (len + 1 + padZeros len) % 64 = 56 ∧ padZeros len < 64 := by
  rw [padZeros]
  omega

theorem length_pad (m : List UInt8) : (pad m).length = m.length + 1 + padZeros m.length + 8 := by
  simp only [pad, List.length_append, List.length_cons, List.length_replicate, length_be]
  omega

variable {σ : Type*} (compress : σ → List UInt8 → σ)

/-- The next `n` blocks. -/
def compressAll : ℕ → σ → List UInt8 → σ
  | 0, s, _ => s
  | n + 1, s, l => compressAll n (compress s (l.take 64)) (l.drop 64)

/-- **The digest of a message**, as the state that its blocks leave. -/
def hash (init : σ) (m : List UInt8) : σ := compressAll compress ((pad m).length / 64) init (pad m)

theorem map_hash {τ : Type*} {compress' : τ → List UInt8 → τ} {view : σ → τ}
    (h : ∀ s block, view (compress s block) = compress' (view s) block) (init : σ) (m : List UInt8) :
    view (hash compress init m) = hash compress' (view init) m := by
  have hall (n : ℕ) (s : σ) (l : List UInt8) :
      view (compressAll compress n s l) = compressAll compress' n (view s) l := by
    induction n generalizing s l with
    | zero => rfl
    | succ n ih => rw [compressAll, ih, h, compressAll]
  exact hall _ _ _

/-! ### A digest under way -/

/-- A digest that is under way: the state, and the bytes of a block that is not full. -/
@[ext] structure Run (σ : Type*) where
  state : σ
  rest : List UInt8

def settle (state : σ) (rest : List UInt8) : Run σ :=
  if rest.length = 64 then ⟨compress state rest, []⟩ else ⟨state, rest⟩

def push (r : Run σ) (b : UInt8) : Run σ := settle compress r.state (r.rest ++ [b])

def absorb (r : Run σ) (data : List UInt8) : Run σ := data.foldl (push compress) r

/-- Bytes come in, as many at a time as there is room for, in at most so many turns. -/
def copyLoop : ℕ → Run σ → List UInt8 → Run σ
  | 0, r, _ => r
  | k + 1, r, data =>
    if data = [] then r
    else
      let n := min (64 - r.rest.length) data.length
      copyLoop k (settle compress r.state (r.rest ++ data.take n)) (data.drop n)

variable {compress} {r : Run σ} {data : List UInt8}

theorem absorb_append (r : Run σ) (data data' : List UInt8) :
    absorb compress r (data ++ data') = absorb compress (absorb compress r data) data' :=
  List.foldl_append

theorem absorb_of_lt (h : r.rest.length + data.length < 64) :
    absorb compress r data = ⟨r.state, r.rest ++ data⟩ := by
  induction data generalizing r with
  | nil => rw [List.append_nil]; rfl
  | cons b data ih =>
    rw [List.length_cons] at h
    have hpush : push compress r b = ⟨r.state, r.rest ++ [b]⟩ := by
      rw [push, settle, if_neg (by rw [List.length_append, List.length_singleton]; omega)]
    have hstep : absorb compress r (b :: data) = absorb compress (push compress r b) data := rfl
    rw [hstep, hpush, ih (by dsimp only; rw [List.length_append, List.length_singleton]; omega)]
    dsimp only
    rw [List.append_assoc, List.singleton_append]

theorem absorb_of_full (hne : data ≠ []) (h : r.rest.length + data.length = 64) :
    absorb compress r data = ⟨compress r.state (r.rest ++ data), []⟩ := by
  obtain ⟨front, b, rfl⟩ := (List.eq_nil_or_concat' data).resolve_left hne
  rw [List.length_append, List.length_singleton] at h
  have hfront : absorb compress r front = ⟨r.state, r.rest ++ front⟩ := absorb_of_lt (by omega)
  have hstep : absorb compress ⟨r.state, r.rest ++ front⟩ [b] =
      push compress ⟨r.state, r.rest ++ front⟩ b := rfl
  have hlen : (r.rest ++ front ++ [b]).length = 64 := by
    rw [List.length_append, List.length_append, List.length_singleton]
    omega
  rw [absorb_append, hfront, hstep, push, settle, if_pos hlen, List.append_assoc]

theorem absorb_eq_settle (hne : data ≠ []) (h : r.rest.length + data.length ≤ 64) :
    absorb compress r data = settle compress r.state (r.rest ++ data) := by
  rw [settle]
  split_ifs with hlen
  · rw [List.length_append] at hlen
    exact absorb_of_full hne hlen
  · rw [List.length_append] at hlen
    exact absorb_of_lt (by omega)

theorem length_rest_settle (s : σ) {rest : List UInt8} (h : rest.length ≤ 64) :
    (settle compress s rest).rest.length < 64 := by
  rw [settle]
  split_ifs with hlen
  · norm_num
  · dsimp only
    omega

theorem length_rest_absorb (h : r.rest.length < 64) :
    (absorb compress r data).rest.length = (r.rest.length + data.length) % 64 := by
  induction data generalizing r with
  | nil => exact (Nat.mod_eq_of_lt h).symm
  | cons b data ih =>
    have hstep : absorb compress r (b :: data) = absorb compress (push compress r b) data := rfl
    have hlen : (push compress r b).rest.length = (r.rest.length + 1) % 64 := by
      rw [push, settle]
      split_ifs with hfull
      · rw [List.length_append, List.length_singleton] at hfull
        rw [hfull]
        rfl
      · rw [List.length_append, List.length_singleton] at hfull
        dsimp only
        rw [List.length_append, List.length_singleton]
        omega
    rw [hstep, ih (by omega), hlen, List.length_cons]
    omega

/-- **Bytes that are copied in at once are bytes taken one by one.** -/
theorem copyLoop_eq {k : ℕ} (hr : r.rest.length < 64) (hk : data.length ≤ k) :
    copyLoop compress k r data = absorb compress r data := by
  induction k generalizing r data with
  | zero =>
    rw [List.eq_nil_of_length_eq_zero (Nat.le_zero.1 hk)]
    rfl
  | succ k ih =>
    rw [copyLoop]
    by_cases hne : data = []
    · rw [if_pos hne, hne]
      rfl
    have hpos : 0 < data.length := List.length_pos_of_ne_nil hne
    rw [if_neg hne]
    dsimp only
    set n := min (64 - r.rest.length) data.length with hn
    have hroom : n ≤ 64 - r.rest.length := min_le_left _ _
    have hle : n ≤ data.length := min_le_right _ _
    have hn0 : 0 < n := lt_min (by omega) hpos
    have htake : (data.take n).length = n := by rw [List.length_take, min_eq_left hle]
    have htaken : data.take n ≠ [] := by
      intro hnil
      rw [hnil] at htake
      exact absurd htake.symm (by rw [List.length_nil]; omega)
    have hfirst : absorb compress r (data.take n) = settle compress r.state (r.rest ++ data.take n) :=
      absorb_eq_settle htaken (by omega)
    rw [ih (length_rest_settle _ (by rw [List.length_append]; omega))
      (by rw [List.length_drop]; omega), ← hfirst, ← absorb_append, List.take_append_drop]

theorem absorb_blocks {n : ℕ} {s : σ} {l : List UInt8} (h : l.length = 64 * n) :
    absorb compress ⟨s, []⟩ l = ⟨compressAll compress n s l, []⟩ := by
  induction n generalizing s l with
  | zero =>
    have hnil : l = [] := List.eq_nil_of_length_eq_zero (by omega)
    rw [hnil]
    rfl
  | succ n ih =>
    have htake : (l.take 64).length = 64 := by rw [List.length_take]; omega
    have hne : l.take 64 ≠ [] := by
      intro hnil
      rw [hnil, List.length_nil] at htake
      omega
    have hfirst : absorb compress ⟨s, []⟩ (l.take 64) = ⟨compress s (l.take 64), []⟩ :=
      absorb_of_full hne (by rw [htake]; rfl)
    have hsplit : absorb compress ⟨s, []⟩ l =
        absorb compress (absorb compress ⟨s, []⟩ (l.take 64)) (l.drop 64) := by
      rw [← absorb_append, List.take_append_drop]
    rw [hsplit, hfirst, compressAll, ih (by rw [List.length_drop]; omega)]

/-- **The message with its padding gives the digest.** -/
theorem absorb_pad (init : σ) (m : List UInt8) :
    absorb compress ⟨init, []⟩ (pad m) = ⟨hash compress init m, []⟩ := by
  have hlen := length_pad m
  have hzeros := (padZeros_spec m.length).1
  exact absorb_blocks (by omega)

/-! ### The padding, fed by the digest itself -/

/-- The loop that feeds zeros until eight bytes of the block are left, in at most so many turns. -/
def padLoop (compress : σ → List UInt8 → σ) : ℕ → Run σ → Run σ
  | 0, r => r
  | k + 1, r => if r.rest.length = 56 then r else padLoop compress k (absorb compress r [0])

/-- **The loop feeds as many zeros as are missing.** -/
theorem padLoop_eq {n k : ℕ} (hr : r.rest.length < 64) (hn : (r.rest.length + n) % 64 = 56)
    (hlt : n < 64) (hk : n ≤ k) :
    padLoop compress k r = absorb compress r (List.replicate n 0) := by
  induction n generalizing k r with
  | zero =>
    have hdone : r.rest.length = 56 := by omega
    cases k with
    | zero => rfl
    | succ k =>
      rw [padLoop, if_pos hdone]
      rfl
  | succ n ih =>
    obtain ⟨k, rfl⟩ := Nat.exists_eq_succ_of_ne_zero (show k ≠ 0 by omega)
    have hmore : r.rest.length ≠ 56 := by omega
    have hlen : (absorb compress r [0]).rest.length = (r.rest.length + 1) % 64 := length_rest_absorb hr
    rw [padLoop, if_neg hmore, ih (by omega) (by rw [hlen]; omega) (by omega) (by omega),
      ← absorb_append, List.singleton_append, ← List.replicate_succ]

/-- **A digest that pads itself**, whatever it has taken in. -/
theorem padLoop_absorb (init : σ) (m : List UInt8) {k : ℕ} (hk : 63 ≤ k) :
    absorb compress (padLoop compress k (absorb compress (absorb compress ⟨init, []⟩ m) [0x80]))
      (be 8 (8 * m.length)) = ⟨hash compress init m, []⟩ := by
  obtain ⟨hzeros, hlt⟩ := padZeros_spec m.length
  have hlen : (absorb compress ⟨init, []⟩ m).rest.length = m.length % 64 := by
    rw [length_rest_absorb (by norm_num)]
    simp
  have hlen' : (absorb compress (absorb compress ⟨init, []⟩ m) [0x80]).rest.length =
      (m.length % 64 + 1) % 64 := by
    rw [length_rest_absorb (by omega), hlen]
    rfl
  rw [padLoop_eq (by omega) (by rw [hlen']; omega) hlt (by omega), ← absorb_append, ← absorb_append,
    ← absorb_append, ← absorb_pad, pad, List.singleton_append]

/-! ### The context of a program -/

/-- What is under way, and how many bytes have come in. -/
@[ext] structure Ctx (σ : Type*) where
  run : Run σ
  bytes : UInt64

def Ctx.start (init : σ) : Ctx σ := ⟨⟨init, []⟩, 0⟩

def Ctx.update (compress : σ → List UInt8 → σ) (ctx : Ctx σ) (data : List UInt8) : Ctx σ :=
  ⟨absorb compress ctx.run data, ctx.bytes + UInt64.ofNat data.length⟩

def Ctx.finish (compress : σ → List UInt8 → σ) (ctx : Ctx σ) : σ :=
  (absorb compress (padLoop compress 64 (absorb compress ctx.run [0x80]))
    (be 8 (ctx.bytes * 8).toNat)).state

theorem Ctx.view_foldl {κ : Type*} {view : κ → Ctx σ} {byte : κ → UInt8 → κ}
    (hbyte : ∀ c b, view (byte c b) = ⟨push compress (view c).run b, (view c).bytes⟩) (c : κ) (data : List UInt8) :
    view (data.foldl byte c) = ⟨absorb compress (view c).run data, (view c).bytes⟩ := by
  induction data generalizing c with
  | nil => rfl
  | cons b data ih =>
    rw [List.foldl_cons, ih, hbyte]
    rfl

theorem Ctx.update_update (ctx : Ctx σ) (data data' : List UInt8) :
    Ctx.update compress (Ctx.update compress ctx data) data' =
      Ctx.update compress ctx (data ++ data') := by
  refine Ctx.ext (absorb_append ctx.run data data').symm ?_
  rw [Ctx.update, Ctx.update, Ctx.update, List.length_append, UInt64.ofNat_add]
  exact UInt64.add_assoc _ _ _

@[simp] theorem Ctx.update_nil (ctx : Ctx σ) : Ctx.update compress ctx [] = ctx :=
  Ctx.ext rfl (UInt64.add_zero _)

/-- **The context that a message has come in to gives its digest.** -/
theorem Ctx.finish_update (init : σ) (m : List UInt8) :
    Ctx.finish compress (Ctx.update compress (Ctx.start init) m) = hash compress init m := by
  have hbits : be 8 (((Ctx.update compress (Ctx.start init) m).bytes * 8).toNat) = be 8 (8 * m.length) := by
    have hbytes : (Ctx.update compress (Ctx.start init) m).bytes = UInt64.ofNat m.length :=
      UInt64.zero_add _
    have hnat : (UInt64.ofNat m.length * 8).toNat = 8 * m.length % 256 ^ 8 := by
      rw [UInt64.toNat_mul, UInt64.toNat_ofNat', UInt64.toNat_ofNat, Nat.mod_mul_mod]
      norm_num [mul_comm]
    rw [hbytes, hnat, be_mod]
  have hrun : (Ctx.update compress (Ctx.start init) m).run = absorb compress ⟨init, []⟩ m := rfl
  rw [Ctx.finish, hbits, hrun, padLoop_absorb init m (by norm_num)]

/-! ### Authenticators and key derivations -/

section Derived

abbrev Hash := List UInt8 → List UInt8

/-- The key of an authenticator, as long as a block: a longer one is hashed first. -/
def hmacKey (H : Hash) (key : List UInt8) : List UInt8 :=
  let k := if 64 < key.length then H key else key
  k ++ List.replicate (64 - k.length) 0

/-- The authenticator of a message under a key: a digest within a digest. -/
def hmac (H : Hash) (key m : List UInt8) : List UInt8 :=
  H ((hmacKey H key).map (· ^^^ 0x5c) ++ H ((hmacKey H key).map (· ^^^ 0x36) ++ m))

/-- Key extraction; a salt that is left out is as many zeros as a digest has bytes. -/
def hkdfExtract (mac : List UInt8 → Hash) (hashLen : ℕ) (salt : Option (List UInt8)) (ikm : List UInt8) :
    List UInt8 :=
  mac (salt.getD (List.replicate hashLen 0)) ikm

def hkdfBlock (mac : Hash) (info : List UInt8) : ℕ → List UInt8
  | 0 => []
  | i + 1 => mac (hkdfBlock mac info i ++ info ++ [UInt8.ofNat (i + 1)])

/-- Key expansion to `outLen` bytes. -/
def hkdfExpand (mac : Hash) (hashLen : ℕ) (info : List UInt8) (outLen : ℕ) : List UInt8 :=
  ((List.range ((outLen + hashLen - 1) / hashLen)).flatMap fun i => hkdfBlock mac info (i + 1)).take outLen

/-- Extraction and expansion; at most 255 digests can be asked for. -/
def hkdf (mac : List UInt8 → Hash) (hashLen : ℕ) (salt : Option (List UInt8)) (ikm info : List UInt8)
    (outLen : ℕ) : Option (List UInt8) :=
  if outLen ≤ 255 * hashLen then
    some (hkdfExpand (mac (hkdfExtract mac hashLen salt ikm)) hashLen info outLen)
  else none

/-- The chain of a block of a password-based key: the first link is over the salt and the number of the
block, each other one over the link before it. -/
def pbkdf2Link (mac : Hash) (salt : List UInt8) (block : ℕ) : ℕ → List UInt8
  | 0 => mac (salt ++ be 4 block)
  | j + 1 => mac (pbkdf2Link mac salt block j)

/-- The sum of the first `n + 1` links. -/
def pbkdf2Sum (mac : Hash) (salt : List UInt8) (block : ℕ) : ℕ → List UInt8
  | 0 => pbkdf2Link mac salt block 0
  | n + 1 => List.zipWith (· ^^^ ·) (pbkdf2Sum mac salt block n) (pbkdf2Link mac salt block (n + 1))

/-- A password-based key of `outLen` bytes: of at most as many blocks as four bytes can count, and of at
least one iteration. -/
def pbkdf2 (mac : Hash) (hashLen : ℕ) (salt : List UInt8) (iterations outLen : ℕ) :
    Option (List UInt8) :=
  if iterations = 0 ∨ (2 ^ 32 - 1) * hashLen < outLen then none
  else
    some (((List.range ((outLen + hashLen - 1) / hashLen)).flatMap fun i =>
      pbkdf2Sum mac salt (i + 1) (iterations - 1)).take outLen)

/-- A pseudorandom function of `outLen` bytes: a label, a zero, the data and a counter of one byte. -/
def prf (mac : Hash) (hashLen : ℕ) (label data : List UInt8) (outLen : ℕ) : List UInt8 :=
  ((List.range ((outLen + hashLen - 1) / hashLen)).flatMap fun i =>
    mac (label ++ 0 :: data ++ [UInt8.ofNat i])).take outLen

end Derived

/-! ### Writing as many bytes as are asked for -/

/-- The loop that writes blocks, the last of them in part, in at most so many turns: `step` makes the next
block and the state behind it. -/
def outLoop {τ : Type*} (step : τ → List UInt8 × τ) : ℕ → τ → ℕ → List UInt8
  | 0, _, _ => []
  | k + 1, t, outLen =>
    if outLen = 0 then []
    else
      let r := step t
      let take := min outLen r.1.length
      r.1.take take ++ outLoop step k r.2 (outLen - take)

/-- **The loop writes the front of the blocks.** -/
theorem outLoop_eq {τ : Type*} {step : τ → List UInt8 × τ} {block : ℕ → List UInt8} {state : ℕ → τ}
    {hashLen : ℕ} (hpos : 0 < hashLen) (hlen : ∀ i, (block i).length = hashLen)
    (hstep : ∀ i, step (state i) = (block i, state (i + 1))) {k i outLen : ℕ} (hk : outLen ≤ k) :
    outLoop step k (state i) outLen =
      ((List.range' i ((outLen + hashLen - 1) / hashLen)).flatMap block).take outLen := by
  induction k generalizing i outLen with
  | zero =>
    rw [Nat.le_zero.1 hk, List.take_zero]
    rfl
  | succ k ih =>
    rw [outLoop]
    by_cases hzero : outLen = 0
    · rw [if_pos hzero, hzero, List.take_zero]
    rw [if_neg hzero, hstep]
    dsimp only
    rw [hlen]
    rcases Nat.lt_or_ge hashLen outLen with hlt | hge
    · -- a whole block, and more behind it
      have hcount : (outLen + hashLen - 1) / hashLen = (outLen - hashLen + hashLen - 1) / hashLen + 1 := by
        have hsplit : outLen + hashLen - 1 = outLen - hashLen + hashLen - 1 + hashLen := by omega
        rw [hsplit, Nat.add_div_right _ hpos]
      have hwhole : (block i).take hashLen = block i := List.take_of_length_le (hlen i).le
      have hall : (block i).take outLen = block i := List.take_of_length_le (by rw [hlen]; omega)
      rw [min_eq_right hlt.le, ih (by omega), hcount, List.range'_succ, List.flatMap_cons,
        List.take_append, hlen, hwhole, hall]
    · have hcount : (outLen + hashLen - 1) / hashLen = 1 := by
        rw [Nat.div_eq_of_lt_le]
        · omega
        · omega
      have hdone : outLoop step k (state (i + 1)) 0 = [] := by
        cases k with
        | zero => rfl
        | succ k => rw [outLoop, if_pos rfl]
      rw [min_eq_left hge, Nat.sub_self, hdone, hcount, List.append_nil]
      simp

end Digest
