/-
**The record protection of the TLS library.**

`tnu_chacha20_poly1305_seal` and `tnu_chacha20_poly1305_open` of `userspace/libc/src/tls.c` collect
the padded additional data, the padded ciphertext and the two lengths in one static buffer before
they compute the tag.  Both check that this fits; the first one does so after it has written the
ciphertext.

Main definitions:

* `tnuChacha20Xor`, `tnuPoly1305Mac` — the cipher and the authenticator.

Main result:

* `protects_iff` — **they keep the promise exactly when the lengths are accepted, or there is
  nothing to encrypt**.
-/

import Tnu.Memory
import Tnu.Lib.Stream

set_option autoImplicit false

namespace Tnu.Tls

/-! ### ChaCha20 -/

/-- `load_le32_tls`. -/
def loadLe32 (p : List Byte) : UInt32 :=
  (p.getD 0 0).toUInt32 ||| (p.getD 1 0).toUInt32 <<< 8 ||| (p.getD 2 0).toUInt32 <<< 16 |||
    (p.getD 3 0).toUInt32 <<< 24

/-- `store_le32_tls`. -/
def storeLe32 (v : UInt32) : List Byte :=
  [v.toUInt8, (v >>> 8).toUInt8, (v >>> 16).toUInt8, (v >>> 24).toUInt8]

def rotl (v : UInt32) (n : UInt32) : UInt32 := v <<< n ||| v >>> (32 - n)

/-- `chacha_qr`, on the words at four places. -/
def chachaQr (z : Vector UInt32 16) (i j k l : Fin 16) : Vector UInt32 16 :=
  let a := z[i] + z[j]
  let d := rotl (z[l] ^^^ a) 16
  let c := z[k] + d
  let b := rotl (z[j] ^^^ c) 12
  let a := a + b
  let d := rotl (d ^^^ a) 8
  let c := c + d
  let b := rotl (b ^^^ c) 7
  (((z.set i a).set j b).set k c).set l d

/-- One turn of the loop of `chacha20_block`. -/
def chachaDoubleRound (z : Vector UInt32 16) : Vector UInt32 16 :=
  let z := chachaQr z 0 4 8 12
  let z := chachaQr z 1 5 9 13
  let z := chachaQr z 2 6 10 14
  let z := chachaQr z 3 7 11 15
  let z := chachaQr z 0 5 10 15
  let z := chachaQr z 1 6 11 12
  let z := chachaQr z 2 7 8 13
  chachaQr z 3 4 9 14

/-- The string `sigma`. -/
def sigma : List Byte := lit "expand 32-byte k"

/-- The words `chacha20_block` starts from. -/
def chachaState (key nonce : List Byte) (counter : UInt32) : Vector UInt32 16 :=
  Vector.ofFn fun i =>
    if i.val < 4 then loadLe32 (sigma.drop (i.val * 4))
    else if i.val < 12 then loadLe32 (key.drop ((i.val - 4) * 4))
    else if i.val = 12 then counter
    else loadLe32 (nonce.drop ((i.val - 13) * 4))

def chacha20Block (key nonce : List Byte) (counter : UInt32) : List Byte :=
  let x := chachaState key nonce counter
  let z := chachaDoubleRound^[10] x
  (List.finRange 16).flatMap fun i => storeLe32 (z[i] + x[i])

/-- `tnu_chacha20_xor`: the bytes that are written. -/
def tnuChacha20Xor (key nonce : List Byte) (counter : UInt32) (input : List Byte) : List Byte :=
  Stream.crypt (chacha20Block key nonce) (· + 1) 64 counter input

@[simp] theorem length_chacha20Block (key nonce : List Byte) (counter : UInt32) :
    (chacha20Block key nonce counter).length = 64 := by
  simp [chacha20Block, storeLe32, List.length_flatMap]

@[simp] theorem length_tnuChacha20Xor (key nonce : List Byte) (counter : UInt32) (input : List Byte) :
    (tnuChacha20Xor key nonce counter input).length = input.length :=
  Stream.length_crypt (length_chacha20Block key nonce) (by norm_num) counter input

example : (chacha20Block ((List.range 32).map UInt8.ofNat) [0, 0, 0, 0, 0, 0, 0, 0x4a, 0, 0, 0, 0] 1).take 4 =
    [0x22, 0x4f, 0x51, 0xf3] := by decide +kernel

theorem tnuChacha20Xor_twice (key nonce : List Byte) (counter : UInt32) (input : List Byte) :
    tnuChacha20Xor key nonce counter (tnuChacha20Xor key nonce counter input) = input :=
  Stream.crypt_crypt (length_chacha20Block key nonce) (by norm_num) counter input

/-! ### Poly1305 -/

/-- The five limbs `h0` to `h4`, of 26 bits. -/
structure Limbs where
  h0 : UInt32
  h1 : UInt32
  h2 : UInt32
  h3 : UInt32
  h4 : UInt32
  deriving DecidableEq, Repr

/-- The key of the authenticator as limbs `r0` to `r4`. -/
def polyKey (key : List Byte) : Limbs :=
  let t0 := loadLe32 key
  let t1 := loadLe32 (key.drop 4)
  let t2 := loadLe32 (key.drop 8)
  let t3 := loadLe32 (key.drop 12)
  { h0 := t0 &&& 0x3ffffff
    h1 := (t0 >>> 26 ||| t1 <<< 6) &&& 0x3ffff03
    h2 := (t1 >>> 20 ||| t2 <<< 12) &&& 0x3ffc0ff
    h3 := (t2 >>> 14 ||| t3 <<< 18) &&& 0x3f03fff
    h4 := t3 >>> 8 &&& 0x00fffff }

/-- The bit above a block is added: at the place a whole block has it, or behind a partial one. -/
def addHighBit (h : Limbs) (n : ℕ) : Limbs :=
  let bit := n * 8
  if n = 16 then { h with h4 := h.h4 + (1 : UInt32) <<< 24 }
  else if bit < 26 then { h with h0 := h.h0 + (1 : UInt32) <<< UInt32.ofNat bit }
  else if bit < 52 then { h with h1 := h.h1 + (1 : UInt32) <<< UInt32.ofNat (bit - 26) }
  else if bit < 78 then { h with h2 := h.h2 + (1 : UInt32) <<< UInt32.ofNat (bit - 52) }
  else if bit < 104 then { h with h3 := h.h3 + (1 : UInt32) <<< UInt32.ofNat (bit - 78) }
  else { h with h4 := h.h4 + (1 : UInt32) <<< UInt32.ofNat (bit - 104) }

def addBlock (h : Limbs) (block : List Byte) : Limbs :=
  let t0 := loadLe32 block
  let t1 := loadLe32 (block.drop 4)
  let t2 := loadLe32 (block.drop 8)
  let t3 := loadLe32 (block.drop 12)
  { h0 := h.h0 + (t0 &&& 0x3ffffff)
    h1 := h.h1 + ((t0 >>> 26 ||| t1 <<< 6) &&& 0x3ffffff)
    h2 := h.h2 + ((t1 >>> 20 ||| t2 <<< 12) &&& 0x3ffffff)
    h3 := h.h3 + ((t2 >>> 14 ||| t3 <<< 18) &&& 0x3ffffff)
    h4 := h.h4 + (t3 >>> 8 &&& 0x00ffffff) }

def mulKey (r h : Limbs) : Limbs :=
  let s1 := r.h1 * 5
  let s2 := r.h2 * 5
  let s3 := r.h3 * 5
  let s4 := r.h4 * 5
  let mul (a b : UInt32) : UInt64 := a.toUInt64 * b.toUInt64
  let d0 := mul h.h0 r.h0 + mul h.h1 s4 + mul h.h2 s3 + mul h.h3 s2 + mul h.h4 s1
  let d1 := mul h.h0 r.h1 + mul h.h1 r.h0 + mul h.h2 s4 + mul h.h3 s3 + mul h.h4 s2
  let d2 := mul h.h0 r.h2 + mul h.h1 r.h1 + mul h.h2 r.h0 + mul h.h3 s4 + mul h.h4 s3
  let d3 := mul h.h0 r.h3 + mul h.h1 r.h2 + mul h.h2 r.h1 + mul h.h3 r.h0 + mul h.h4 s4
  let d4 := mul h.h0 r.h4 + mul h.h1 r.h3 + mul h.h2 r.h2 + mul h.h3 r.h1 + mul h.h4 r.h0
  let carry (d : UInt64) : UInt32 := (d >>> 26).toUInt32
  let low (d : UInt64) : UInt32 := d.toUInt32 &&& 0x3ffffff
  let d1 := d1 + (carry d0).toUInt64
  let d2 := d2 + (carry d1).toUInt64
  let d3 := d3 + (carry d2).toUInt64
  let d4 := d4 + (carry d3).toUInt64
  let h0 := low d0 + carry d4 * 5
  { h0 := h0 &&& 0x3ffffff
    h1 := low d1 + h0 >>> 26
    h2 := low d2
    h3 := low d3
    h4 := low d4 }

def polyLoop (r : Limbs) (h : Limbs) (msg : List Byte) : Limbs :=
  if _h : msg = [] then h
  else
    let block := msg.take 16
    polyLoop r (mulKey r (addHighBit (addBlock h block) block.length)) (msg.drop 16)
termination_by msg.length
decreasing_by
  have hmsg : 0 < msg.length := List.length_pos_iff.2 _h
  rw [List.length_drop]
  omega

/-- The reduction at the end: one more pass of carries, and the choice between `h` and `h - p`. -/
def polyReduce (h : Limbs) : Limbs :=
  let low (v : UInt32) : UInt32 := v &&& 0x3ffffff
  let h2 := h.h2 + h.h1 >>> 26
  let h3 := h.h3 + h2 >>> 26
  let h4 := h.h4 + h3 >>> 26
  let h0 := h.h0 + (h4 >>> 26) * 5
  let h1 := low h.h1 + h0 >>> 26
  let h : Limbs := ⟨low h0, h1, low h2, low h3, low h4⟩
  let g0 := h.h0 + 5
  let g1 := h.h1 + g0 >>> 26
  let g2 := h.h2 + g1 >>> 26
  let g3 := h.h3 + g2 >>> 26
  let g4 := h.h4 + g3 >>> 26 - (1 : UInt32) <<< 26
  let mask := g4 >>> 31 - 1
  let pick (a b : UInt32) : UInt32 := a &&& ~~~mask ||| b &&& mask
  ⟨pick h.h0 (low g0), pick h.h1 (low g1), pick h.h2 (low g2), pick h.h3 (low g3), pick h.h4 g4⟩

/-- The limbs as four words, with the second half of the key added. -/
def polyTag (h : Limbs) (key : List Byte) : List Byte :=
  let word (lo hi : UInt64) (i : ℕ) : UInt64 := (lo ||| hi) + (loadLe32 (key.drop i)).toUInt64
  let f0 := word h.h0.toUInt64 (h.h1.toUInt64 <<< 26) 16
  let f1 := word (h.h1 >>> 6).toUInt64 (h.h2.toUInt64 <<< 20) 20 + f0 >>> 32
  let f2 := word (h.h2 >>> 12).toUInt64 (h.h3.toUInt64 <<< 14) 24 + f1 >>> 32
  let f3 := word (h.h3 >>> 18).toUInt64 (h.h4.toUInt64 <<< 8) 28 + f2 >>> 32
  [f0, f1, f2, f3].flatMap fun f => storeLe32 f.toUInt32

def tnuPoly1305Mac (key msg : List Byte) : List Byte :=
  polyTag (polyReduce (polyLoop (polyKey key) ⟨0, 0, 0, 0, 0⟩ msg)) key

def bytesEq (a b : List Byte) : Bool :=
  (List.zipWith (· ^^^ ·) a b).foldl (· ||| ·) 0 = 0

/-! ### The MAC buffer -/

abbrev tlsAeadMacbufMax : ℕ := 2048

/-- Bytes are written to a buffer from `pos` on; `none` is a write past its end. -/
def put (buf : List Byte) (pos : ℕ) (data : List Byte) : Option (List Byte) :=
  if pos + data.length ≤ buf.length then
    some (buf.take pos ++ data ++ buf.drop (pos + data.length))
  else none

/-- The zeros behind a field of `len` bytes. -/
def padding (len : ℕ) : List Byte := List.replicate ((16 - len % 16) % 16) 0

def append (p : List Byte × ℕ) (data : List Byte) : Option (List Byte × ℕ) :=
  (put p.1 p.2 data).map fun buf => (buf, p.2 + data.length)

def poly1305UpdatePadded (p : List Byte × ℕ) (data : List Byte) : Option (List Byte × ℕ) :=
  (append p data).bind fun p => append p (padding data.length)

def macFill (macbuf aad cipher : List Byte) : Option (List Byte × ℕ) :=
  (((poly1305UpdatePadded (macbuf, 0) aad).bind fun p => poly1305UpdatePadded p cipher).bind
    fun p => append p (Bytes.le 8 aad.length)).bind fun p => append p (Bytes.le 8 cipher.length)

/-- What the tag is computed over: both fields, padded, and their lengths. -/
def macInput (aad cipher : List Byte) : List Byte :=
  aad ++ padding aad.length ++ (cipher ++ padding cipher.length) ++ Bytes.le 8 aad.length ++
    Bytes.le 8 cipher.length

/-! ### Sealing and opening -/

abbrev tnuTlsOk : ℤ := 0

abbrev tnuTlsErrUnsupported : ℤ := -1

abbrev tnuTlsErrCryptoMissing : ℤ := -2

abbrev tnuTlsErrBadUrl : ℤ := -4

/-- A pointer argument with its length: the null pointer, or as many bytes. -/
inductive Arg
  | null (len : ℕ)
  | bytes (l : List Byte)
  deriving DecidableEq, Repr

def Arg.len : Arg → ℕ
  | .null len => len
  | .bytes l => l.length

def Arg.read : Arg → List Byte
  | .null _ => []
  | .bytes l => l

@[simp] theorem Arg.len_bytes (l : List Byte) : (Arg.bytes l).len = l.length := rfl

@[simp] theorem Arg.read_bytes (l : List Byte) : (Arg.bytes l).read = l := rfl

def Arg.Bad (a : Arg) : Prop := a.read.length ≠ a.len

instance (a : Arg) : Decidable a.Bad := inferInstanceAs (Decidable (_ ≠ _))

/-- The check of both functions, in `size_t`. -/
def TooLong (aadLen len : ℕ) : Prop := tlsAeadMacbufMax < (aadLen + len + 32) % word

instance (aadLen len : ℕ) : Decidable (TooLong aadLen len) := inferInstanceAs (Decidable (_ < _))

/-- What a call leaves: its result, the buffer it writes to, the tag and the MAC buffer. -/
structure AeadResult where
  rc : ℤ
  out : Option (List Byte)
  tag : List Byte
  macbuf : List Byte
  deriving DecidableEq, Repr

def overwrite (out : Option (List Byte)) (data : List Byte) : Option (List Byte) :=
  out.map fun l => data ++ l.drop data.length

def aeadTag (key nonce aad cipher : List Byte) : List Byte :=
  tnuPoly1305Mac (chacha20Block key nonce 0) (macInput aad cipher)

/-- `tnu_chacha20_poly1305_seal`: the ciphertext is written before the lengths are checked. -/
def chacha20Poly1305Seal (key nonce : List Byte) (aad plain : Arg) (cipher : Option (List Byte))
    (tag macbuf : List Byte) : Option AeadResult :=
  if plain.Bad ∨ cipher = none ∧ plain.len ≠ 0 ∨ aad.Bad then
    some ⟨tnuTlsErrBadUrl, cipher, tag, macbuf⟩
  else
    let otk := chacha20Block key nonce 0
    let c := tnuChacha20Xor key nonce 1 plain.read
    let cipher := overwrite cipher c
    if TooLong aad.len plain.len then some ⟨tnuTlsErrUnsupported, cipher, tag, macbuf⟩
    else do
      let (macbuf, pos) ← macFill macbuf aad.read c
      some ⟨tnuTlsOk, cipher, tnuPoly1305Mac otk (macbuf.take pos), macbuf⟩

/-- `tnu_chacha20_poly1305_open`. -/
def chacha20Poly1305Open (key nonce : List Byte) (aad cipher : Arg) (tag : List Byte)
    (plain : Option (List Byte)) (macbuf : List Byte) : Option AeadResult :=
  if cipher.Bad ∨ plain = none ∧ cipher.len ≠ 0 ∨ aad.Bad then
    some ⟨tnuTlsErrBadUrl, plain, tag, macbuf⟩
  else if TooLong aad.len cipher.len then some ⟨tnuTlsErrUnsupported, plain, tag, macbuf⟩
  else do
    let otk := chacha20Block key nonce 0
    let (macbuf, pos) ← macFill macbuf aad.read cipher.read
    let computed := tnuPoly1305Mac otk (macbuf.take pos)
    if bytesEq computed tag = false then some ⟨tnuTlsErrCryptoMissing, plain, tag, macbuf⟩
    else some ⟨tnuTlsOk, overwrite plain (tnuChacha20Xor key nonce 1 cipher.read), tag, macbuf⟩

/-! ### The promise -/

/-- **What sealing and opening promise** for a key, a nonce, additional data and a plaintext, whatever
the caller's buffers and the static one hold: nothing is written past the MAC buffer, a sealed record
opens to the plaintext, a record opens exactly when its tag is the computed one, and a call that fails
leaves the caller's buffers as they were. -/
structure Protects (key nonce : List Byte) (aad plain : Arg) : Prop where
  inBounds : ∀ cipher tag macbuf, macbuf.length = tlsAeadMacbufMax →
    chacha20Poly1305Seal key nonce aad plain cipher tag macbuf ≠ none
  roundTrip : ∀ cipher tag macbuf r, macbuf.length = tlsAeadMacbufMax →
    chacha20Poly1305Seal key nonce aad plain cipher tag macbuf = some r → r.rc = tnuTlsOk →
    ∀ out macbuf' : List Byte, plain.len ≤ out.length → macbuf'.length = tlsAeadMacbufMax →
      ∃ m, chacha20Poly1305Open key nonce aad (.bytes ((r.out.getD []).take plain.len)) r.tag
        (some out) macbuf' = some ⟨tnuTlsOk, some (plain.read ++ out.drop plain.len), r.tag, m⟩
  opens : ¬ plain.Bad → ¬ aad.Bad → ¬ TooLong aad.len plain.len →
    ∀ record tag out macbuf : List Byte, record.length = plain.len → tag.length = 16 →
      plain.len ≤ out.length → macbuf.length = tlsAeadMacbufMax →
      ∃ r, chacha20Poly1305Open key nonce aad (.bytes record) tag (some out) macbuf = some r ∧
        (r.rc = tnuTlsOk ↔ tag = aeadTag key nonce aad.read record)
  unchanged : ∀ cipher tag macbuf r, macbuf.length = tlsAeadMacbufMax →
    chacha20Poly1305Seal key nonce aad plain cipher tag macbuf = some r → r.rc ≠ tnuTlsOk →
    r.out = cipher ∧ r.tag = tag

/-- The inputs for which they keep it: a null pointer with a length is refused at once; the lengths fit;
or there is nothing to encrypt. -/
def Sealable (aad plain : Arg) : Prop :=
  (plain.Bad ∨ aad.Bad) ∨ aad.len + plain.len + 32 ≤ tlsAeadMacbufMax ∨
    plain.len = 0 ∧ TooLong aad.len plain.len

/-! ### The buffer holds what the tag is computed over -/

variable {key nonce aad cipher tag macbuf w rest data : List Byte}

theorem put_append (w rest data : List Byte) :
    put (w ++ rest) w.length data =
      if data.length ≤ rest.length then some (w ++ data ++ rest.drop data.length) else none := by
  rw [put, List.length_append, List.take_left, List.drop_append]
  have hdrop : w.drop (w.length + data.length) = [] := List.drop_of_length_le (by omega)
  rw [hdrop, List.nil_append, Nat.add_sub_cancel_left]
  by_cases h : data.length ≤ rest.length
  · rw [if_pos h, if_pos (by omega)]
  · rw [if_neg h, if_neg (by omega)]

theorem append_eq (w rest data : List Byte) :
    append (w ++ rest, w.length) data =
      if data.length ≤ rest.length then
        some (w ++ data ++ rest.drop data.length, (w ++ data).length)
      else none := by
  rw [append, put_append, List.length_append]
  split_ifs
  · rfl
  · rfl

theorem append_bind (w rest data data' : List Byte) :
    ((append (w ++ rest, w.length) data).bind fun p => append p data') =
      append (w ++ rest, w.length) (data ++ data') := by
  have hlen : (data ++ data').length = data.length + data'.length := List.length_append
  rw [append_eq, append_eq]
  by_cases h : data.length ≤ rest.length
  · rw [if_pos h, Option.bind_some, append_eq, List.length_drop]
    by_cases h' : (data ++ data').length ≤ rest.length
    · rw [if_pos h', if_pos (by omega), List.drop_drop, List.append_assoc w, hlen]
    · rw [if_neg h', if_neg (by omega)]
  · rw [if_neg h, if_neg (by omega), Option.bind_none]

/-- **What is in the buffer, and when it fits.** -/
theorem macFill_eq (macbuf aad cipher : List Byte) :
    macFill macbuf aad cipher =
      if (macInput aad cipher).length ≤ macbuf.length then
        some (macInput aad cipher ++ macbuf.drop (macInput aad cipher).length,
          (macInput aad cipher).length)
      else none := by
  have hfill : macFill macbuf aad cipher =
      append ([] ++ macbuf, ([] : List Byte).length) (macInput aad cipher) := by
    have hpieces : macInput aad cipher = aad ++ padding aad.length ++ cipher ++
        padding cipher.length ++ Bytes.le 8 aad.length ++ Bytes.le 8 cipher.length := by
      simp only [macInput, List.append_assoc]
    rw [macFill, hpieces]
    simp only [poly1305UpdatePadded, ← Option.bind_assoc, ← append_bind]
    rfl
  rw [hfill, append_eq]
  rfl

theorem length_macInput (aad cipher : List Byte) :
    (macInput aad cipher).length =
      aad.length + (16 - aad.length % 16) % 16 + (cipher.length + (16 - cipher.length % 16) % 16) +
        16 := by
  simp [macInput, padding]
  omega

theorem length_macInput_le (h : aad.length + cipher.length + 32 ≤ tlsAeadMacbufMax) :
    (macInput aad cipher).length ≤ tlsAeadMacbufMax := by
  have hmax : tlsAeadMacbufMax = 2048 := rfl
  rw [length_macInput]
  omega

theorem lt_length_macInput (h : ¬ TooLong aad.length cipher.length)
    (hlong : ¬ aad.length + cipher.length + 32 ≤ tlsAeadMacbufMax) :
    tlsAeadMacbufMax < (macInput aad cipher).length := by
  rw [TooLong] at h
  have hmax : tlsAeadMacbufMax = 2048 := rfl
  rw [length_macInput]
  have hwrap : word ≤ aad.length + cipher.length + 32 := by
    by_contra hlt
    rw [Nat.mod_eq_of_lt (by omega)] at h
    omega
  rw [word_eq] at hwrap
  omega

theorem bytesEq_iff {a b : List Byte} (h : a.length = b.length) : bytesEq a b = true ↔ a = b := by
  have hor (l : List Byte) : ∀ x : Byte, l.foldl (· ||| ·) x = 0 ↔ x = 0 ∧ ∀ y ∈ l, y = 0 := by
    induction l with
    | nil => simp
    | cons y l ih => simp [ih, and_assoc]
  rw [bytesEq, decide_eq_true_iff, hor]
  induction a generalizing b with
  | nil => simp [List.length_eq_zero_iff.1 h.symm]
  | cons x a ih =>
    cases b with
    | nil => simp at h
    | cons y b => simpa using fun _ => (by simpa using ih (by simpa using h))

/-! ### Sealing -/

section Calls

variable {aad plain : Arg} {cipher : Option (List Byte)} {r : AeadResult}

theorem Arg.len_eq {a : Arg} (h : ¬ a.Bad) : a.read.length = a.len := not_not.1 h

theorem seal_of_good (key nonce tag : List Byte) (hp : ¬ plain.Bad) (ha : ¬ aad.Bad) (hc : cipher ≠ none ∨ plain.len = 0)
    (hm : macbuf.length = tlsAeadMacbufMax) :
    chacha20Poly1305Seal key nonce aad plain cipher tag macbuf =
      if TooLong aad.len plain.len then
        some ⟨tnuTlsErrUnsupported, overwrite cipher (tnuChacha20Xor key nonce 1 plain.read), tag,
          macbuf⟩
      else if (macInput aad.read (tnuChacha20Xor key nonce 1 plain.read)).length ≤ tlsAeadMacbufMax then
        some ⟨tnuTlsOk, overwrite cipher (tnuChacha20Xor key nonce 1 plain.read),
          aeadTag key nonce aad.read (tnuChacha20Xor key nonce 1 plain.read),
          macInput aad.read (tnuChacha20Xor key nonce 1 plain.read) ++
            macbuf.drop (macInput aad.read (tnuChacha20Xor key nonce 1 plain.read)).length⟩
      else none := by
  rw [chacha20Poly1305Seal, if_neg (by tauto)]
  dsimp only
  by_cases hlong : TooLong aad.len plain.len
  · rw [if_pos hlong, if_pos hlong]
  · rw [if_neg hlong, if_neg hlong, macFill_eq, hm]
    split_ifs
    · rw [Option.bind_eq_bind, Option.bind_some, List.take_left]
      rfl
    · rfl

theorem open_of_good {record out : List Byte} (ha : ¬ aad.Bad)
    (hlen : ¬ TooLong aad.len record.length) (hm : macbuf.length = tlsAeadMacbufMax)
    (hfits : (macInput aad.read record).length ≤ tlsAeadMacbufMax) (htag : tag.length = 16) :
    chacha20Poly1305Open key nonce aad (.bytes record) tag (some out) macbuf =
      if aeadTag key nonce aad.read record = tag then
        some ⟨tnuTlsOk, overwrite (some out) (tnuChacha20Xor key nonce 1 record), tag,
          macInput aad.read record ++ macbuf.drop (macInput aad.read record).length⟩
      else
        some ⟨tnuTlsErrCryptoMissing, some out, tag,
          macInput aad.read record ++ macbuf.drop (macInput aad.read record).length⟩ := by
  have hbad : ¬ (Arg.bytes record).Bad := fun h => h rfl
  rw [chacha20Poly1305Open, if_neg (by simp [hbad, ha]), Arg.len_bytes, Arg.read_bytes, if_neg hlen,
    macFill_eq, hm, if_pos hfits, Option.bind_eq_bind, Option.bind_some]
  dsimp only
  rw [List.take_left]
  have heq : bytesEq (aeadTag key nonce aad.read record) tag = true ↔ _ := bytesEq_iff htag.symm
  change (if bytesEq (aeadTag key nonce aad.read record) tag = false then _ else _) = _
  by_cases h : aeadTag key nonce aad.read record = tag
  · rw [if_neg (by simp [heq.2 h]), if_pos h]
  · rw [if_pos (by simpa using mt heq.1 h), if_neg h]

@[simp] theorem overwrite_nil (out : Option (List Byte)) : overwrite out [] = out := by
  cases out with
  | none => rfl
  | some l => rfl

theorem not_tooLong (h : aad.len + plain.len + 32 ≤ tlsAeadMacbufMax) :
    ¬ TooLong aad.len plain.len := by
  have hmax : tlsAeadMacbufMax = 2048 := rfl
  rw [TooLong, Nat.mod_eq_of_lt (by rw [word_eq]; omega)]
  omega

theorem length_ciphertext (key nonce : List Byte) (hp : ¬ plain.Bad) :
    (tnuChacha20Xor key nonce 1 plain.read).length = plain.len := by
  rw [length_tnuChacha20Xor, Arg.len_eq hp]

/-- **What a call of seal comes to** on inputs that can be sealed. -/
theorem Sealable.seal (h : Sealable aad plain) (hm : macbuf.length = tlsAeadMacbufMax)
    (cipher : Option (List Byte)) (key nonce tag : List Byte) :
    (∃ rc, rc ≠ tnuTlsOk ∧ chacha20Poly1305Seal key nonce aad plain cipher tag macbuf =
        some ⟨rc, cipher, tag, macbuf⟩) ∨
      (¬ plain.Bad ∧ ¬ aad.Bad ∧ aad.len + plain.len + 32 ≤ tlsAeadMacbufMax ∧
        (cipher ≠ none ∨ plain.len = 0) ∧
        ∃ m, chacha20Poly1305Seal key nonce aad plain cipher tag macbuf =
          some ⟨tnuTlsOk, overwrite cipher (tnuChacha20Xor key nonce 1 plain.read),
            aeadTag key nonce aad.read (tnuChacha20Xor key nonce 1 plain.read), m⟩) := by
  by_cases hbad : plain.Bad ∨ cipher = none ∧ plain.len ≠ 0 ∨ aad.Bad
  · exact .inl ⟨tnuTlsErrBadUrl, by norm_num, by rw [chacha20Poly1305Seal, if_pos hbad]⟩
  · simp only [not_or, not_and_or, not_not] at hbad
    obtain ⟨hp, hc, ha⟩ := hbad
    rcases h with hbad | hfits | ⟨hzero, hlong⟩
    · exact absurd hbad (by tauto)
    · have hmac : (macInput aad.read (tnuChacha20Xor key nonce 1 plain.read)).length ≤
          tlsAeadMacbufMax :=
        length_macInput_le (by rw [Arg.len_eq ha, length_ciphertext key nonce hp]; exact hfits)
      refine .inr ⟨hp, ha, hfits, hc, ?_⟩
      rw [seal_of_good key nonce tag hp ha hc hm, if_neg (not_tooLong hfits), if_pos hmac]
      exact ⟨_, rfl⟩
    · refine .inl ⟨tnuTlsErrUnsupported, by norm_num, ?_⟩
      have hnil : tnuChacha20Xor key nonce 1 plain.read = [] := by
        rw [← List.length_eq_zero_iff, length_ciphertext key nonce hp, hzero]
      rw [seal_of_good key nonce tag hp ha hc hm, if_pos hlong, hnil, overwrite_nil]

theorem take_overwrite {c : List Byte} (hlen : c.length = plain.len)
    (hc : cipher ≠ none ∨ plain.len = 0) :
    ((overwrite cipher c).getD []).take plain.len = c := by
  cases cipher with
  | none =>
    have hzero : plain.len = 0 := by simpa using hc
    rw [hzero, List.length_eq_zero_iff] at hlen
    rw [hlen, hzero]
    rfl
  | some l =>
    rw [← hlen]
    exact List.take_left

theorem protects_of_sealable (h : Sealable aad plain) : Protects key nonce aad plain where
  inBounds cipher tag macbuf hm := by
    rcases h.seal hm cipher key nonce tag with ⟨rc, _, hs⟩ | ⟨_, _, _, _, m, hs⟩
    · simp [hs]
    · simp [hs]
  roundTrip cipher tag macbuf r hm hr hok out macbuf' hout hm' := by
    rcases h.seal hm cipher key nonce tag with ⟨rc, hrc, hs⟩ | ⟨hp, ha, hfits, hc, m, hs⟩
    · rw [hs, Option.some.injEq] at hr
      exact absurd hok (by rw [← hr]; exact hrc)
    · rw [hs, Option.some.injEq] at hr
      have hlen := length_ciphertext key nonce hp
      rw [← hr]
      dsimp only
      rw [take_overwrite hlen hc, open_of_good ha (by rw [hlen]; exact not_tooLong hfits) hm'
        (length_macInput_le (by rw [Arg.len_eq ha, hlen]; exact hfits)) rfl, if_pos rfl,
        tnuChacha20Xor_twice, overwrite, Option.map_some, Arg.len_eq hp]
      exact ⟨_, rfl⟩
  opens hp ha hlong record tag out macbuf hrecord htag hout hm := by
    have hfits : aad.len + plain.len + 32 ≤ tlsAeadMacbufMax := by
      rcases h with hbad | hfits | hzero
      · exact absurd hbad (by tauto)
      · exact hfits
      · exact absurd hzero.2 hlong
    rw [open_of_good ha (by rw [hrecord]; exact hlong) hm
      (length_macInput_le (by rw [Arg.len_eq ha, hrecord]; exact hfits)) htag]
    split_ifs with heq
    · exact ⟨_, rfl, iff_of_true rfl heq.symm⟩
    · exact ⟨_, rfl, iff_of_false (by norm_num) (Ne.symm heq)⟩
  unchanged cipher tag macbuf r hm hr hbad := by
    rcases h.seal hm cipher key nonce tag with ⟨rc, hrc, hs⟩ | ⟨_, _, _, _, m, hs⟩
    · rw [hs, Option.some.injEq] at hr
      rw [← hr]
      exact ⟨rfl, rfl⟩
    · rw [hs, Option.some.injEq] at hr
      exact absurd (by rw [← hr]) hbad

theorem map_add_one_ne {l : List Byte} (hl : l ≠ []) : l ≠ l.map (· + 1) := by
  cases l with
  | nil => exact absurd rfl hl
  | cons a l =>
    intro h
    rw [List.map_cons, List.cons.injEq] at h
    simpa using h.1

theorem sealable_of_protects (h : Protects key nonce aad plain) : Sealable aad plain := by
  by_contra hnot
  simp only [Sealable, not_or] at hnot
  obtain ⟨⟨hp, ha⟩, hfits, hzero⟩ := hnot
  have hm : (List.replicate tlsAeadMacbufMax (0 : Byte)).length = tlsAeadMacbufMax :=
    List.length_replicate
  have hlen := length_ciphertext key nonce hp
  by_cases hlong : TooLong aad.len plain.len
  · -- The ciphertext is written over whatever else the buffer held.
    have hne : tnuChacha20Xor key nonce 1 plain.read ≠ [] := by
      rw [← List.length_pos_iff, hlen]
      exact Nat.pos_of_ne_zero fun h0 => hzero ⟨h0, hlong⟩
    have hs := seal_of_good key nonce [] hp ha
      (.inl (Option.some_ne_none ((tnuChacha20Xor key nonce 1 plain.read).map (· + 1)))) hm
    rw [if_pos hlong] at hs
    have hout := (h.unchanged _ _ _ _ hm hs (by norm_num)).1
    rw [overwrite, Option.map_some, Option.some.injEq, List.drop_of_length_le (by simp),
      List.append_nil] at hout
    exact map_add_one_ne hne hout
  · -- The sum of the lengths has wrapped.
    refine h.inBounds (some []) [] _ hm ?_
    rw [seal_of_good key nonce [] hp ha (.inl (by simp)) hm, if_neg hlong, if_neg]
    rw [Nat.not_le]
    refine lt_length_macInput ?_ ?_
    · rw [Arg.len_eq ha, hlen]
      exact hlong
    · rw [Arg.len_eq ha, hlen]
      exact hfits

/-- **Sealing and opening keep the promise exactly when the lengths are accepted, or there is nothing
to encrypt.** -/
theorem protects_iff (key nonce : List Byte) (aad plain : Arg) :
    Protects key nonce aad plain ↔ Sealable aad plain :=
  ⟨sealable_of_protects, protects_of_sealable⟩

/-- **A refused record whose plaintext buffer is lost**: one byte more than fits. -/
theorem not_protects :
    ¬ ∀ (key nonce : List Byte) (aad plain : Arg), Protects key nonce aad plain := by
  intro h
  have hs := sealable_of_protects (h (List.replicate 32 0) (List.replicate 12 0) (.bytes [])
    (.bytes (List.replicate 2017 0)))
  rw [Sealable, Arg.Bad, Arg.Bad, Arg.len_bytes, Arg.len_bytes, List.length_replicate] at hs
  rcases hs with (hs | hs) | hs | hs
  · exact hs (List.length_replicate)
  · exact hs rfl
  · norm_num at hs
  · norm_num at hs

end Calls

end Tnu.Tls
