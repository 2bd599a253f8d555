/-
**AES-128.**

The block cipher of `kernel/lib/crypto.c`, with its substitution box computed as powers in the field
of 256 elements.

Main definitions:

* `aesSbox`, `aesSboxTable` — the substitution box, and its values;
* `tnuAes128EncryptBlock` — the cipher.

Main results:

* `tnuAes128EncryptBlock_eq` — the cipher with the table in place of the powers.
-/

import Mathlib.Data.Nat.Digits.Lemmas
import Tnu.CString
import Tnu.Lib.Ccm

set_option autoImplicit false

namespace Tnu.Wifi

open Ccm (Block)

/-! ### The substitution box -/

/-- `aes_xtime`, on the value of a byte. -/
def aesXtime (x : ℕ) : ℕ := x * 2 % 256 ^^^ if x / 128 = 0 then 0 else 0x1b

/-- The loop of `aes_mul`; a byte is shifted out in eight turns. -/
def aesMulLoop : ℕ → ℕ → ℕ → ℕ → ℕ
  | 0, r, _, _ => r
  | n + 1, r, a, b =>
    if b = 0 then r
    else aesMulLoop n (if b % 2 = 0 then r else r ^^^ a) (aesXtime a) (b / 2)

def aesMul (a b : ℕ) : ℕ := aesMulLoop 8 0 a b

/-- The loop of `aes_pow`. -/
def aesPowLoop : ℕ → ℕ → ℕ → ℕ → ℕ
  | 0, r, _, _ => r
  | i + 1, r, a, n =>
    if n = 0 then r
    else aesPowLoop i (if n % 2 = 0 then r else aesMul r a) (aesMul a a) (n / 2)

def aesPow (a n : ℕ) : ℕ := aesPowLoop 8 1 a n

def rotl8 (y n : ℕ) : ℕ := y * 2 ^ n % 256 ||| y / 2 ^ (8 - n)

/-- The value of `aes_sbox`. -/
def aesSboxValue (x : ℕ) : ℕ :=
  let y := if x = 0 then 0 else aesPow x 254
  0x63 ^^^ y ^^^ rotl8 y 1 ^^^ rotl8 y 2 ^^^ rotl8 y 3 ^^^ rotl8 y 4

def aesSbox (x : Byte) : Byte := UInt8.ofNat (aesSboxValue x.toNat)

def aesSboxTable : List ℕ :=
  [0x63, 0x7c, 0x77, 0x7b, 0xf2, 0x6b, 0x6f, 0xc5, 0x30, 0x01, 0x67, 0x2b, 0xfe, 0xd7, 0xab, 0x76,
    0xca, 0x82, 0xc9, 0x7d, 0xfa, 0x59, 0x47, 0xf0, 0xad, 0xd4, 0xa2, 0xaf, 0x9c, 0xa4, 0x72, 0xc0,
    0xb7, 0xfd, 0x93, 0x26, 0x36, 0x3f, 0xf7, 0xcc, 0x34, 0xa5, 0xe5, 0xf1, 0x71, 0xd8, 0x31, 0x15,
    0x04, 0xc7, 0x23, 0xc3, 0x18, 0x96, 0x05, 0x9a, 0x07, 0x12, 0x80, 0xe2, 0xeb, 0x27, 0xb2, 0x75,
    0x09, 0x83, 0x2c, 0x1a, 0x1b, 0x6e, 0x5a, 0xa0, 0x52, 0x3b, 0xd6, 0xb3, 0x29, 0xe3, 0x2f, 0x84,
    0x53, 0xd1, 0x00, 0xed, 0x20, 0xfc, 0xb1, 0x5b, 0x6a, 0xcb, 0xbe, 0x39, 0x4a, 0x4c, 0x58, 0xcf,
    0xd0, 0xef, 0xaa, 0xfb, 0x43, 0x4d, 0x33, 0x85, 0x45, 0xf9, 0x02, 0x7f, 0x50, 0x3c, 0x9f, 0xa8,
    0x51, 0xa3, 0x40, 0x8f, 0x92, 0x9d, 0x38, 0xf5, 0xbc, 0xb6, 0xda, 0x21, 0x10, 0xff, 0xf3, 0xd2,
    0xcd, 0x0c, 0x13, 0xec, 0x5f, 0x97, 0x44, 0x17, 0xc4, 0xa7, 0x7e, 0x3d, 0x64, 0x5d, 0x19, 0x73,
    0x60, 0x81, 0x4f, 0xdc, 0x22, 0x2a, 0x90, 0x88, 0x46, 0xee, 0xb8, 0x14, 0xde, 0x5e, 0x0b, 0xdb,
    0xe0, 0x32, 0x3a, 0x0a, 0x49, 0x06, 0x24, 0x5c, 0xc2, 0xd3, 0xac, 0x62, 0x91, 0x95, 0xe4, 0x79,
    0xe7, 0xc8, 0x37, 0x6d, 0x8d, 0xd5, 0x4e, 0xa9, 0x6c, 0x56, 0xf4, 0xea, 0x65, 0x7a, 0xae, 0x08,
    0xba, 0x78, 0x25, 0x2e, 0x1c, 0xa6, 0xb4, 0xc6, 0xe8, 0xdd, 0x74, 0x1f, 0x4b, 0xbd, 0x8b, 0x8a,
    0x70, 0x3e, 0xb5, 0x66, 0x48, 0x03, 0xf6, 0x0e, 0x61, 0x35, 0x57, 0xb9, 0x86, 0xc1, 0x1d, 0x9e,
    0xe1, 0xf8, 0x98, 0x11, 0x69, 0xd9, 0x8e, 0x94, 0x9b, 0x1e, 0x87, 0xe9, 0xce, 0x55, 0x28, 0xdf,
    0x8c, 0xa1, 0x89, 0x0d, 0xbf, 0xe6, 0x42, 0x68, 0x41, 0x99, 0x2d, 0x0f, 0xb0, 0x54, 0xbb, 0x16]

theorem aesSboxTable_eq : aesSboxTable = (List.range 256).map aesSboxValue := by
  decide +kernel

def aesSboxLookup (x : Byte) : Byte := UInt8.ofNat (aesSboxTable.getD x.toNat 0)

theorem aesSbox_eq : aesSbox = aesSboxLookup := by
  funext x
  rw [aesSbox, aesSboxLookup, aesSboxTable_eq, List.getD_eq_getElem?_getD, List.getElem?_map,
    List.getElem?_range (UInt8.toNat_lt x)]
  rfl

/-- The table as the digits of a number, where a value is found without going through the table. -/
def aesSboxDigit (x : Byte) : Byte := UInt8.ofNat (Nat.ofDigits 256 aesSboxTable / 256 ^ x.toNat % 256)

theorem aesSboxLookup_eq : aesSboxLookup = aesSboxDigit := by
  have hlast : ∀ h : aesSboxTable ≠ [], aesSboxTable.getLast h ≠ 0 := by decide +kernel
  have hdigits : Nat.digits 256 (Nat.ofDigits 256 aesSboxTable) = aesSboxTable :=
    Nat.digits_ofDigits 256 (by norm_num) aesSboxTable (by decide +kernel) hlast
  funext x
  rw [aesSboxLookup, aesSboxDigit, ← Nat.getD_digits _ _ (by norm_num), hdigits]

/-! ### The cipher -/

section Cipher

variable (sbox : Byte → Byte)

def aesSubBytes (s : List Byte) : List Byte := s.map sbox

/-- The places from which `aes_shift_rows` takes its bytes. -/
def shiftRowsFrom : List ℕ := [0, 5, 10, 15, 4, 9, 14, 3, 8, 13, 2, 7, 12, 1, 6, 11]

def aesShiftRows (s : List Byte) : List Byte := shiftRowsFrom.map fun i => s.getD i 0

/-- `aes_mul` by a constant, on bytes. -/
def mulByte (a : Byte) (b : ℕ) : Byte := UInt8.ofNat (aesMul a.toNat b)

/-- `aes_mix_columns`, column by column. -/
def aesMixColumns : List Byte → List Byte
  | a0 :: a1 :: a2 :: a3 :: s =>
    (mulByte a0 2 ^^^ mulByte a1 3 ^^^ a2 ^^^ a3) :: (a0 ^^^ mulByte a1 2 ^^^ mulByte a2 3 ^^^ a3) ::
      (a0 ^^^ a1 ^^^ mulByte a2 2 ^^^ mulByte a3 3) ::
      (mulByte a0 3 ^^^ a1 ^^^ a2 ^^^ mulByte a3 2) :: aesMixColumns s
  | s => s

/-- The array `rcon`. -/
def rcon : List Byte := [0x01, 0x02, 0x04, 0x08, 0x10, 0x20, 0x40, 0x80, 0x1b, 0x36]

/-- The four bytes that `aes_expand_key` adds next, from the last ones; `first` says that a round key
begins. -/
def aesTemp (temp : List Byte) (first : Bool) (rc : Byte) : List Byte :=
  if first then
    [sbox (temp.getD 1 0) ^^^ rc, sbox (temp.getD 2 0), sbox (temp.getD 3 0), sbox (temp.getD 0 0)]
  else temp

/-- The loop of `aes_expand_key`, which adds four bytes in each turn. -/
def aesExpandLoop : ℕ → List Byte → List Byte
  | 0, keys => keys
  | n + 1, keys =>
    let bytes := keys.length
    let temp := aesTemp sbox (keys.drop (bytes - 4)) (bytes % 16 = 0) (rcon.getD (bytes / 16 - 1) 0)
    aesExpandLoop n (keys ++ Stream.add ((keys.drop (bytes - 16)).take 4) temp)

/-- `aes_expand_key`: 176 bytes from the 16 of the key. -/
def aesExpandKey (key : Block) : List Byte := aesExpandLoop sbox 40 key.toList

def aesAddRoundKey (s rk : List Byte) : List Byte := Stream.add s rk

/-- The body of `tnu_aes128_encrypt_block`, over the substitution box. -/
def aesEncryptBlock (key input : Block) : Block :=
  let roundKeys := aesExpandKey sbox key
  let state := aesAddRoundKey input.toList roundKeys
  let state := (List.range' 1 9).foldl
    (fun s round => aesAddRoundKey (aesMixColumns (aesShiftRows (aesSubBytes sbox s)))
      (roundKeys.drop (round * 16))) state
  Ccm.pack (aesAddRoundKey (aesShiftRows (aesSubBytes sbox state)) (roundKeys.drop 160))

end Cipher

def tnuAes128EncryptBlock (key input : Block) : Block := aesEncryptBlock aesSbox key input

theorem tnuAes128EncryptBlock_eq : tnuAes128EncryptBlock = aesEncryptBlock aesSboxLookup := by
  funext key input
  rw [tnuAes128EncryptBlock, aesSbox_eq]

example : (tnuAes128EncryptBlock (Ccm.pack ((List.range 16).map UInt8.ofNat))
    (Ccm.pack ((List.range 16).map fun i => UInt8.ofNat (i * 17)))).toList.take 4 =
    [0x69, 0xc4, 0xe0, 0xd8] := by
  rw [tnuAes128EncryptBlock_eq, aesSboxLookup_eq]
  decide +kernel

end Tnu.Wifi
