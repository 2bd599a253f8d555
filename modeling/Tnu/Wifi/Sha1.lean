/-
**SHA-1, HMAC and the key derivation of WPA.**

The hash of `kernel/lib/crypto.c` works on blocks of 64 bytes; `sha1_update` collects what comes in,
and `sha1_final` feeds it the padding in the same way.

Main definitions:

* `tnuSha1`, `tnuHmacSha1` — the hash, and the hash with a key.

Main results:

* `length_tnuHmacSha1` — the digest has twenty bytes.
-/

import Tnu.CString
import Tnu.Lib.Stream

set_option autoImplicit false

namespace Tnu.Wifi

def rol32 (v n : UInt32) : UInt32 := v <<< n ||| v >>> (32 - n)

def loadBe32 (p : List Byte) : UInt32 :=
  (p.getD 0 0).toUInt32 <<< 24 ||| (p.getD 1 0).toUInt32 <<< 16 ||| (p.getD 2 0).toUInt32 <<< 8 |||
    (p.getD 3 0).toUInt32

def storeBe32 (v : UInt32) : List Byte :=
  [(v >>> 24).toUInt8, (v >>> 16).toUInt8, (v >>> 8).toUInt8, v.toUInt8]

def storeBe64 (v : UInt64) : List Byte :=
  (List.range 8).map fun i => (v >>> UInt64.ofNat (56 - 8 * i)).toUInt8

/-- The five words of the state. -/
structure Sha1Words where
  a : UInt32
  b : UInt32
  c : UInt32
  d : UInt32
  e : UInt32
  deriving DecidableEq, Repr

/-- `struct sha1_ctx`; `block` holds the bytes that are used. -/
structure Sha1Ctx where
  h : Sha1Words
  bytes : UInt64
  block : List Byte
  deriving DecidableEq, Repr

/-- The schedule `w` of a block. -/
def sha1Schedule (block : List Byte) : List UInt32 :=
  (List.range' 16 64).foldl
    (fun w i => w ++ [rol32 (w.getD (i - 3) 0 ^^^ w.getD (i - 8) 0 ^^^ w.getD (i - 14) 0 ^^^
      w.getD (i - 16) 0) 1])
    ((List.range 16).map fun i => loadBe32 (block.drop (i * 4)))

def sha1Round (w : List UInt32) (s : Sha1Words) (i : ℕ) : Sha1Words :=
  let fk : UInt32 × UInt32 :=
    if i < 20 then (s.b &&& s.c ||| ~~~s.b &&& s.d, 0x5a827999)
    else if i < 40 then (s.b ^^^ s.c ^^^ s.d, 0x6ed9eba1)
    else if i < 60 then (s.b &&& s.c ||| s.b &&& s.d ||| s.c &&& s.d, 0x8f1bbcdc)
    else (s.b ^^^ s.c ^^^ s.d, 0xca62c1d6)
  let t := rol32 s.a 5 + fk.1 + s.e + fk.2 + w.getD i 0
  ⟨t, s.a, rol32 s.b 30, s.c, s.d⟩

def sha1Transform (h : Sha1Words) (block : List Byte) : Sha1Words :=
  let s := (List.range 80).foldl (sha1Round (sha1Schedule block)) h
  ⟨h.a + s.a, h.b + s.b, h.c + s.c, h.d + s.d, h.e + s.e⟩

def sha1Init : Sha1Ctx where
  h := ⟨0x67452301, 0xefcdab89, 0x98badcfe, 0x10325476, 0xc3d2e1f0⟩
  bytes := 0
  block := []

/-- One byte of `sha1_update`: the block is worked on when it is full. -/
def sha1Byte (ctx : Sha1Ctx) (b : Byte) : Sha1Ctx :=
  let block := ctx.block ++ [b]
  if block.length = 64 then { ctx with h := sha1Transform ctx.h block, block := [] }
  else { ctx with block := block }

/-- `sha1_update`, which copies as much as there is room for at a time. -/
def sha1Update (ctx : Sha1Ctx) (data : List Byte) : Sha1Ctx :=
  data.foldl sha1Byte { ctx with bytes := ctx.bytes + UInt64.ofNat data.length }

/-- The loop of `sha1_final`. -/
def sha1Pad : ℕ → Sha1Ctx → Sha1Ctx
  | 0, ctx => ctx
  | n + 1, ctx => if ctx.block.length = 56 then ctx else sha1Pad n (sha1Update ctx [0])

def sha1Final (ctx : Sha1Ctx) : List Byte :=
  let bits := ctx.bytes * 8
  let ctx := sha1Pad 64 (sha1Update ctx [0x80])
  let h := (sha1Update ctx (storeBe64 bits)).h
  [h.a, h.b, h.c, h.d, h.e].flatMap storeBe32

def tnuSha1 (data : List Byte) : List Byte := sha1Final (sha1Update sha1Init data)

/-- The key of `tnu_hmac_sha1`, filled up to a block. -/
def hmacKey (key : List Byte) : List Byte :=
  let k := if 64 < key.length then tnuSha1 key else key
  k ++ List.replicate (64 - k.length) 0

def tnuHmacSha1 (key data : List Byte) : List Byte :=
  let ipad := (hmacKey key).map (· ^^^ 0x36)
  let opad := (hmacKey key).map (· ^^^ 0x5c)
  let digest := sha1Final (sha1Update (sha1Update sha1Init ipad) data)
  sha1Final (sha1Update (sha1Update sha1Init opad) digest)

/-- `tnu_wpa_prf`: digests of the label, a zero, the data and a counter, as many bytes as are asked
for.  An input that does not fit the buffer of 128 bytes is left alone. -/
def tnuWpaPrf (key label data : List Byte) (outLen : ℕ) : Option (List Byte) :=
  let input := label ++ [0] ++ data
  if 128 < input.length + 1 then none
  else
    some (((List.range ((outLen + 19) / 20)).flatMap fun counter =>
      tnuHmacSha1 key (input ++ [UInt8.ofNat counter])).take outLen)

/-! ### Without looking a word up by its place -/

def sha1Backward (block : List Byte) : List UInt32 :=
  (List.range 64).foldl
    (fun w _ => rol32 (w.getD 2 0 ^^^ w.getD 7 0 ^^^ w.getD 13 0 ^^^ w.getD 15 0) 1 :: w)
    ((List.range 16).map fun i => loadBe32 (block.drop (i * 4))).reverse

def sha1Turn (s : Sha1Words) (x : UInt32 × ℕ) : Sha1Words :=
  let fk : UInt32 × UInt32 :=
    if x.2 < 20 then (s.b &&& s.c ||| ~~~s.b &&& s.d, 0x5a827999)
    else if x.2 < 40 then (s.b ^^^ s.c ^^^ s.d, 0x6ed9eba1)
    else if x.2 < 60 then (s.b &&& s.c ||| s.b &&& s.d ||| s.c &&& s.d, 0x8f1bbcdc)
    else (s.b ^^^ s.c ^^^ s.d, 0xca62c1d6)
  let t := rol32 s.a 5 + fk.1 + s.e + fk.2 + x.1
  ⟨t, s.a, rol32 s.b 30, s.c, s.d⟩

def sha1Along (h : Sha1Words) (block : List Byte) : Sha1Words :=
  let s := (sha1Backward block).reverse.zipIdx.foldl sha1Turn h
  ⟨h.a + s.a, h.b + s.b, h.c + s.c, h.d + s.d, h.e + s.e⟩

theorem getD_reverse_of_length {w : List UInt32} {n k : ℕ} (hw : w.length = n) (hk : k < n) :
    w.reverse.getD k 0 = w.getD (n - (k + 1)) 0 := by
  rw [List.getD_eq_getElem?_getD, List.getD_eq_getElem?_getD, List.getElem?_reverse (by omega), hw]
  congr 2
  omega

theorem sha1Backward_eq (block : List Byte) : sha1Backward block = (sha1Schedule block).reverse := by
  have hloop : ∀ n, ∀ w : List UInt32, w.length = 16 →
      (List.range n).foldl
        (fun w _ => rol32 (w.getD 2 0 ^^^ w.getD 7 0 ^^^ w.getD 13 0 ^^^ w.getD 15 0) 1 :: w) w.reverse =
      ((List.range' 16 n).foldl (fun w i => w ++ [rol32 (w.getD (i - 3) 0 ^^^ w.getD (i - 8) 0 ^^^
        w.getD (i - 14) 0 ^^^ w.getD (i - 16) 0) 1]) w).reverse ∧
      ((List.range' 16 n).foldl (fun w i => w ++ [rol32 (w.getD (i - 3) 0 ^^^ w.getD (i - 8) 0 ^^^
        w.getD (i - 14) 0 ^^^ w.getD (i - 16) 0) 1]) w).length = 16 + n := by
    intro n w hw
    induction n with
    | zero => exact ⟨rfl, hw⟩
    | succ n ih =>
      obtain ⟨hback, hlen⟩ := ih
      rw [List.range_succ, List.range'_concat, List.foldl_append, List.foldl_append, hback]
      simp only [List.foldl_cons, List.foldl_nil, Nat.one_mul]
      constructor
      · rw [List.reverse_append, List.reverse_singleton, List.singleton_append,
          getD_reverse_of_length hlen (by omega), getD_reverse_of_length hlen (by omega),
          getD_reverse_of_length hlen (by omega), getD_reverse_of_length hlen (by omega)]
      · rw [List.length_append, hlen, List.length_singleton, Nat.add_assoc]
  exact (hloop 64 _ (by rw [List.length_map, List.length_range])).1

/-- **The transformation, along the schedule.** -/
theorem sha1Transform_eq : sha1Transform = sha1Along := by
  funext h block
  have hlen : (sha1Schedule block).length = 80 := by
    rw [← List.length_reverse, ← sha1Backward_eq]
    rfl
  have hindexed : (sha1Schedule block).zipIdx = (List.range 80).map fun i => ((sha1Schedule block).getD i 0, i) := by
    refine List.ext_getElem (by rw [List.length_zipIdx, List.length_map, List.length_range, hlen]) fun i hi _ => ?_
    rw [List.getElem_zipIdx, List.getElem_map, List.getElem_range, Nat.zero_add, List.getD_eq_getElem?_getD,
      List.getElem?_eq_getElem, Option.getD_some]
  have hturn : sha1Round (sha1Schedule block) = fun s i => sha1Turn s ((sha1Schedule block).getD i 0, i) := by
    funext s i
    rw [sha1Round, sha1Turn]
  rw [sha1Transform, sha1Along, sha1Backward_eq, List.reverse_reverse, hindexed, List.foldl_map, hturn]

@[simp] theorem length_tnuHmacSha1 (key data : List Byte) : (tnuHmacSha1 key data).length = 20 := by
  rfl

end Tnu.Wifi
