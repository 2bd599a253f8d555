/-
**The block cipher is that of the standard.**

`tnu_aes128_encrypt_block` of `kernel/lib/crypto.c` keeps the state as sixteen bytes, column by column,
and the key schedule as 176 bytes; the standard has a square and words.  Each of its steps is the step of
the standard on the state that is laid out so.

Main definitions:

* `flat`, `words` — a state and a key schedule, laid out.

Main results:

* `aesSbox_standard` — the substitution box;
* `tnuAes128EncryptBlock_standard` — **the cipher**.
-/

import Tnu.Lib.Fips197
import Tnu.Wifi.Aes

set_option autoImplicit false

namespace Tnu.Wifi

open Ccm (Block)

/-! ### Bytes -/

theorem aesSboxTable_standard :
    aesSboxTable = (List.range 256).map fun x => Fips197.affine (Fips197.invNat x) := by
  decide +kernel

theorem invNat_lt : ∀ a < 256, Fips197.invNat a < 256 := by
  intro a ha
  by_cases hzero : a = 0
  · rw [hzero]
    decide +kernel
  · exact (Fips197.gmulNat_invNat a ha hzero).2

theorem aesSbox_standard : aesSbox = Fips197.sbox := by
  funext x
  have hinv : (Fips197.inv x).toNat = Fips197.invNat x.toNat := by
    rw [Fips197.inv, UInt8.toNat_ofNat', Nat.mod_eq_of_lt (invNat_lt _ x.toNat_lt)]
  rw [aesSbox_eq, aesSboxLookup, aesSboxTable_standard, List.getD_eq_getElem?_getD, List.getElem?_map,
    List.getElem?_range x.toNat_lt, Fips197.sbox, hinv]
  rfl

theorem aesMul_two_three : ∀ a < 256,
    aesMul a 2 = Fips197.gmulNat 2 a ∧ aesMul a 3 = Fips197.gmulNat 3 a := by
  decide +kernel

theorem mulByte_two (a : Byte) : mulByte a 2 = Fips197.gmul 2 a :=
  congrArg UInt8.ofNat (aesMul_two_three a.toNat a.toNat_lt).1

theorem mulByte_three (a : Byte) : mulByte a 3 = Fips197.gmul 3 a :=
  congrArg UInt8.ofNat (aesMul_two_three a.toNat a.toNat_lt).2

/-! ### States -/

def flat (s : Fips197.State) : List Byte := (List.range 16).map fun i => s (i % 4) (i / 4)

theorem flat_ofBlock (b : Block) : flat (Fips197.ofBlock b) = b.toList := by
  refine List.ext_getElem (by rw [flat, List.length_map, List.length_range, Vector.length_toList]) ?_
  intro i _ h
  have hi : i % 4 + 4 * (i / 4) = i := Nat.mod_add_div i 4
  simp only [flat, List.getElem_map, List.getElem_range, Fips197.ofBlock, hi]
  rw [List.getD_eq_getElem?_getD, List.getElem?_eq_getElem h, Option.getD_some]

theorem pack_flat (s : Fips197.State) : Ccm.pack (flat s) = Fips197.toBlock s := by
  refine congrArg Vector.ofFn (funext fun i => ?_)
  have hi : (flat s)[i.val]? = some (s (i % 4) (i / 4)) := by
    rw [flat, List.getElem?_map, List.getElem?_range i.isLt]
    rfl
  rw [List.getD_eq_getElem?_getD, hi]
  rfl

theorem aesSubBytes_flat (s : Fips197.State) :
    aesSubBytes Fips197.sbox (flat s) = flat (Fips197.subBytes s) := rfl

theorem aesShiftRows_flat (s : Fips197.State) :
    aesShiftRows (flat s) = flat (Fips197.shiftRows s) := rfl

theorem aesMixColumns_flat (s : Fips197.State) :
    aesMixColumns (flat s) = flat (Fips197.mixColumns s) := by
  have hflat : flat s = [s 0 0, s 1 0, s 2 0, s 3 0, s 0 1, s 1 1, s 2 1, s 3 1, s 0 2, s 1 2, s 2 2, s 3 2,
    s 0 3, s 1 3, s 2 3, s 3 3] := rfl
  rw [hflat]
  simp only [aesMixColumns, mulByte_two, mulByte_three]
  rfl

/-! ### The key schedule -/

def words (key : Block) (j n : ℕ) : List Byte :=
  (List.range' j n).flatMap fun i => (List.range 4).map (Fips197.word key i)

variable (key : Block) {m n : ℕ}

theorem words_add (j m n : ℕ) :
    words key j (m + n) = words key j m ++ words key (j + m) n := by
  rw [words, ← List.range'_append_1, List.flatMap_append]
  rfl

theorem words_one (j : ℕ) :
    words key j 1 =
      [Fips197.word key j 0, Fips197.word key j 1, Fips197.word key j 2, Fips197.word key j 3] := rfl

@[simp] theorem length_words (j n : ℕ) : (words key j n).length = 4 * n := by
  induction n with
  | zero => rfl
  | succ n ih =>
    rw [words_add, List.length_append, ih, words_one]
    rfl

theorem drop_words (h : m ≤ n) :
    (words key 0 n).drop (4 * m) = words key m (n - m) := by
  obtain ⟨k, rfl⟩ := Nat.exists_eq_add_of_le h
  rw [words_add, List.drop_left' (length_words key 0 m), Nat.zero_add, Nat.add_sub_cancel_left]

theorem take_words {j : ℕ} (h : m ≤ n) :
    (words key j n).take (4 * m) = words key j m := by
  obtain ⟨k, rfl⟩ := Nat.exists_eq_add_of_le h
  rw [words_add, List.take_left' (length_words key j m)]

theorem rcon_eq : ∀ j < 10, rcon.getD j 0 = Fips197.rcon (j + 1) 0 := by decide +kernel

theorem add_aesTemp (h4 : 4 ≤ m) (h44 : m < 44) :
    Stream.add (words key (m - 4) 1)
      (aesTemp Fips197.sbox (words key (m - 1) 1) (4 * m % 16 = 0) (rcon.getD (4 * m / 16 - 1) 0)) =
      words key m 1 := by
  have hword (r : ℕ) : Fips197.word key m r = Fips197.word key (m - 4) r ^^^
      (if m % 4 = 0 then Fips197.sbox (Fips197.word key (m - 1) ((r + 1) % 4)) ^^^ Fips197.rcon (m / 4) r
        else Fips197.word key (m - 1) r) := by
    rw [Fips197.word.eq_def key m, dif_neg (by omega)]
  rw [words_one, words_one, words_one, hword, hword, hword, hword]
  by_cases hfirst : m % 4 = 0
  · have hmod : 4 * m % 16 = 0 := by omega
    have hdiv : 4 * m / 16 - 1 + 1 = m / 4 := by omega
    have hrcon : rcon.getD (4 * m / 16 - 1) 0 = Fips197.rcon (m / 4) 0 := by
      rw [rcon_eq _ (by omega), hdiv]
    have hzero (r : ℕ) (b : Byte) : b ^^^ Fips197.rcon (m / 4) (r + 1) = b := by
      rw [Fips197.rcon, if_neg (Nat.succ_ne_zero r), UInt8.xor_zero]
    rw [hrcon, if_pos hfirst, if_pos hfirst, if_pos hfirst, if_pos hfirst, hzero, hzero, hzero]
    simp only [aesTemp, hmod]
    rfl
  · have hmod : ¬4 * m % 16 = 0 := by omega
    rw [if_neg hfirst, if_neg hfirst, if_neg hfirst, if_neg hfirst]
    simp only [aesTemp, hmod]
    rfl

theorem aesExpandLoop_words (h4 : 4 ≤ m) (h44 : m + n ≤ 44) :
    aesExpandLoop Fips197.sbox n (words key 0 m) = words key 0 (m + n) := by
  induction n generalizing m with
  | zero => rfl
  | succ n ih =>
    have hlast : (words key 0 m).drop (4 * m - 4) = words key (m - 1) 1 := by
      have hpos : 4 * m - 4 = 4 * (m - 1) := by omega
      have hone : m - (m - 1) = 1 := by omega
      rw [hpos, drop_words key (by omega), hone]
    have hback : ((words key 0 m).drop (4 * m - 16)).take 4 = words key (m - 4) 1 := by
      have hpos : 4 * m - 16 = 4 * (m - 4) := by omega
      have htake : 1 ≤ m - (m - 4) := by omega
      rw [hpos, drop_words key (Nat.sub_le m 4)]
      exact take_words key htake
    rw [aesExpandLoop, length_words, hlast, hback, add_aesTemp key h4 (by omega)]
    have hnext := words_add key 0 m 1
    rw [Nat.zero_add] at hnext
    rw [← hnext, ih (by omega) (by omega), Nat.add_right_comm, Nat.add_assoc]

/-- **The key schedule is that of the standard.** -/
theorem aesExpandKey_eq : aesExpandKey Fips197.sbox key = words key 0 44 := by
  have hword (i : ℕ) (hi : i < 4) : Fips197.word key i = fun r => key.toList.getD (4 * i + r) 0 := by
    rw [Fips197.word, dif_pos hi]
  have hkey : key.toList = words key 0 4 := by
    rw [← flat_ofBlock, words]
    simp only [List.range', List.flatMap_cons, hword 0 (by norm_num), hword 1 (by norm_num),
      hword (1 + 1) (by norm_num), hword (1 + 1 + 1) (by norm_num)]
    rfl
  rw [aesExpandKey, hkey, aesExpandLoop_words key le_rfl (by norm_num)]

/-! ### The cipher -/

theorem aesAddRoundKey_flat {round : ℕ} (h : round ≤ 10) (s : Fips197.State) :
    aesAddRoundKey (flat s) ((words key 0 44).drop (round * 16)) =
      flat (Fips197.addRoundKey key round s) := by
  have hpos : round * 16 = 4 * (4 * round) := by omega
  have hrest : 44 - 4 * round = 4 + (40 - 4 * round) := by omega
  have hcut : Stream.add (flat s) (words key (4 * round) 4 ++ words key (4 * round + 4) (40 - 4 * round)) =
      Stream.add (flat s) (words key (4 * round) 4) := rfl
  rw [hpos, drop_words key (by omega), hrest, words_add, aesAddRoundKey, hcut]
  rfl

/-- **The cipher is that of the standard.** -/
theorem tnuAes128EncryptBlock_standard (key input : Block) :
    tnuAes128EncryptBlock key input = Fips197.cipher key input := by
  have hround (s : Fips197.State) {l : List ℕ} (hl : ∀ r ∈ l, r ≤ 10) :
      l.foldl (fun s round => aesAddRoundKey (aesMixColumns (aesShiftRows (aesSubBytes Fips197.sbox s)))
        ((words key 0 44).drop (round * 16))) (flat s) =
        flat (l.foldl (fun s round => Fips197.addRoundKey key round (Fips197.mixColumns
          (Fips197.shiftRows (Fips197.subBytes s)))) s) := by
    induction l generalizing s with
    | nil => rfl
    | cons r l ih =>
      rw [List.foldl_cons, List.foldl_cons, aesSubBytes_flat, aesShiftRows_flat, aesMixColumns_flat,
        aesAddRoundKey_flat key (hl r List.mem_cons_self),
        ih _ fun r' hr' => hl r' (List.mem_cons_of_mem r hr')]
  have hfirst := aesAddRoundKey_flat key (Nat.zero_le 10) (Fips197.ofBlock input)
  rw [Nat.zero_mul, List.drop_zero, flat_ofBlock] at hfirst
  rw [tnuAes128EncryptBlock, aesSbox_standard, aesEncryptBlock, aesExpandKey_eq, hfirst,
    hround _ (by decide), aesSubBytes_flat, aesShiftRows_flat]
  have hlast := aesAddRoundKey_flat key (le_refl 10)
  rw [hlast, pack_flat]
  rfl

end Tnu.Wifi
