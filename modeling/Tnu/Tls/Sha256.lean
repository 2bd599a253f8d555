/-
**SHA-256.**

The hash of `userspace/libc/src/tls.c` works on blocks of 64 bytes; `sha256_update` collects what comes
in, and `sha256_final` feeds it the padding in the same way.

Main definitions:

* `sha256Update`, `sha256Final`, `tnuSha256` — the hash.

Main results:

* `length_tnuSha256` — the digest has 32 bytes.
-/

import Tnu.CString

set_option autoImplicit false

namespace Tnu.Tls

def ror32 (x n : UInt32) : UInt32 := x >>> n ||| x <<< (32 - n)

/-- `load_be32_tls`. -/
def loadBe32 (p : List Byte) : UInt32 :=
  (p.getD 0 0).toUInt32 <<< 24 ||| (p.getD 1 0).toUInt32 <<< 16 ||| (p.getD 2 0).toUInt32 <<< 8 |||
    (p.getD 3 0).toUInt32

/-- `store_be32_tls`. -/
def storeBe32 (v : UInt32) : List Byte :=
  [(v >>> 24).toUInt8, (v >>> 16).toUInt8, (v >>> 8).toUInt8, v.toUInt8]

/-- `store_be64_tls`. -/
def storeBe64 (v : UInt64) : List Byte :=
  (List.range 8).map fun i => (v >>> UInt64.ofNat (56 - 8 * i)).toUInt8

/-- The eight words of the state. -/
structure Sha256Words where
  a : UInt32
  b : UInt32
  c : UInt32
  d : UInt32
  e : UInt32
  f : UInt32
  g : UInt32
  h : UInt32
  deriving DecidableEq, Repr

/-- `struct sha256_ctx`; `block` holds the bytes that are used. -/
structure Sha256Ctx where
  h : Sha256Words
  bytes : UInt64
  block : List Byte
  deriving DecidableEq, Repr

/-- The constants `k` of `sha256_transform`. -/
def sha256K : List UInt32 :=
  [0x428a2f98, 0x71374491, 0xb5c0fbcf, 0xe9b5dba5, 0x3956c25b, 0x59f111f1,
   0x923f82a4, 0xab1c5ed5, 0xd807aa98, 0x12835b01, 0x243185be, 0x550c7dc3,
   0x72be5d74, 0x80deb1fe, 0x9bdc06a7, 0xc19bf174, 0xe49b69c1, 0xefbe4786,
   0x0fc19dc6, 0x240ca1cc, 0x2de92c6f, 0x4a7484aa, 0x5cb0a9dc, 0x76f988da,
   0x983e5152, 0xa831c66d, 0xb00327c8, 0xbf597fc7, 0xc6e00bf3, 0xd5a79147,
   0x06ca6351, 0x14292967, 0x27b70a85, 0x2e1b2138, 0x4d2c6dfc, 0x53380d13,
   0x650a7354, 0x766a0abb, 0x81c2c92e, 0x92722c85, 0xa2bfe8a1, 0xa81a664b,
   0xc24b8b70, 0xc76c51a3, 0xd192e819, 0xd6990624, 0xf40e3585, 0x106aa070,
   0x19a4c116, 0x1e376c08, 0x2748774c, 0x34b0bcb5, 0x391c0cb3, 0x4ed8aa4a,
   0x5b9cca4f, 0x682e6ff3, 0x748f82ee, 0x78a5636f, 0x84c87814, 0x8cc70208,
   0x90befffa, 0xa4506ceb, 0xbef9a3f7, 0xc67178f2]

/-- The schedule `w` of a block. -/
def sha256Schedule (block : List Byte) : List UInt32 :=
  (List.range' 16 48).foldl
    (fun w i =>
      let x := w.getD (i - 15) 0
      let y := w.getD (i - 2) 0
      let s0 := ror32 x 7 ^^^ ror32 x 18 ^^^ x >>> 3
      let s1 := ror32 y 17 ^^^ ror32 y 19 ^^^ y >>> 10
      w ++ [w.getD (i - 16) 0 + s0 + w.getD (i - 7) 0 + s1])
    ((List.range 16).map fun i => loadBe32 (block.drop (i * 4)))

def sha256Round (w : List UInt32) (s : Sha256Words) (i : ℕ) : Sha256Words :=
  let s1 := ror32 s.e 6 ^^^ ror32 s.e 11 ^^^ ror32 s.e 25
  let ch := s.e &&& s.f ^^^ ~~~s.e &&& s.g
  let t1 := s.h + s1 + ch + sha256K.getD i 0 + w.getD i 0
  let s0 := ror32 s.a 2 ^^^ ror32 s.a 13 ^^^ ror32 s.a 22
  let maj := s.a &&& s.b ^^^ s.a &&& s.c ^^^ s.b &&& s.c
  ⟨t1 + (s0 + maj), s.a, s.b, s.c, s.d + t1, s.e, s.f, s.g⟩

def sha256Transform (h : Sha256Words) (block : List Byte) : Sha256Words :=
  let s := (List.range 64).foldl (sha256Round (sha256Schedule block)) h
  ⟨h.a + s.a, h.b + s.b, h.c + s.c, h.d + s.d, h.e + s.e, h.f + s.f, h.g + s.g, h.h + s.h⟩

def sha256Init : Sha256Ctx where
  h := ⟨0x6a09e667, 0xbb67ae85, 0x3c6ef372, 0xa54ff53a, 0x510e527f, 0x9b05688c, 0x1f83d9ab, 0x5be0cd19⟩
  bytes := 0
  block := []

/-- One byte of `sha256_update`: the block is worked on when it is full. -/
def sha256Byte (ctx : Sha256Ctx) (b : Byte) : Sha256Ctx :=
  let block := ctx.block ++ [b]
  if block.length = 64 then { ctx with h := sha256Transform ctx.h block, block := [] }
  else { ctx with block := block }

/-- `sha256_update`, which copies as much as there is room for at a time. -/
def sha256Update (ctx : Sha256Ctx) (data : List Byte) : Sha256Ctx :=
  data.foldl sha256Byte { ctx with bytes := ctx.bytes + UInt64.ofNat data.length }

/-- The loop of `sha256_final`. -/
def sha256Pad : ℕ → Sha256Ctx → Sha256Ctx
  | 0, ctx => ctx
  | n + 1, ctx => if ctx.block.length = 56 then ctx else sha256Pad n (sha256Update ctx [0])

def sha256Final (ctx : Sha256Ctx) : List Byte :=
  let bits := ctx.bytes * 8
  let ctx := sha256Pad 64 (sha256Update ctx [0x80])
  let h := (sha256Update ctx (storeBe64 bits)).h
  [h.a, h.b, h.c, h.d, h.e, h.f, h.g, h.h].flatMap storeBe32

def tnuSha256 (data : List Byte) : List Byte := sha256Final (sha256Update sha256Init data)

@[simp] theorem length_tnuSha256 (data : List Byte) : (tnuSha256 data).length = 32 := by
  rfl

end Tnu.Tls
