/-
**The stack of a new program.**

`sys_exec_image` copies the arguments into the kernel, and then onto the stack of the program: the
strings from the top of the stack downward, then, below an address rounded down to sixteen, the
vector of their addresses and their number.

Main result:

* `argStack_nativeStack_iff` — **the stack is as expected when the number of arguments is even**.
-/

import Tnu.Lib.Push
import Tnu.Memory
import Tnu.Vfs.Path

set_option autoImplicit false

namespace Tnu

def CharBuf.terminated {n : ℕ} (b : CharBuf n) : List Byte := b.chars ++ [0]

@[simp] theorem CharBuf.length_terminated {n : ℕ} (b : CharBuf n) :
    b.terminated.length = b.chars.length + 1 := by
  rw [terminated, List.length_append, List.length_singleton]

theorem CharBuf.length_flatten_terminated {n : ℕ} (bs : List (CharBuf n)) :
    (bs.map CharBuf.terminated).flatten.length ≤ (n + 1) * bs.length := by
  induction bs with
  | nil => exact Nat.zero_le _
  | cons b bs ih =>
    have hb := b.length_le
    rw [List.map_cons, List.flatten_cons, List.length_append, length_terminated, List.length_cons,
      Nat.mul_succ]
    omega

end Tnu

namespace Tnu.Sys

open Tnu.Vfs Bytes

/-! ### What a program expects -/

/-- A vector of pointers to strings at `a`, ended by a null pointer; the strings are between `lo` and
`hi`. -/
structure StringVector (m : Mem) (a lo hi : ℕ) (strs : List (List Byte)) : Prop where
  strings : ∀ i (h : i < strs.length), Holds m (load m (a + 8 * i) 8) strs[i] ∧
    lo ≤ load m (a + 8 * i) 8 ∧ load m (a + 8 * i) 8 + strs[i].length ≤ hi
  null : load m (a + 8 * strs.length) 8 = 0

/-- **The stack at the start of a program**: the stack pointer is aligned and points at the number of
arguments, with the vector of the arguments above it, and all of it is on the stack. -/
structure ArgStack (s : Down) (bottom top : ℕ) (args : List (List Byte)) : Prop where
  aligned : s.sp % 16 = 0
  inside : bottom ≤ s.sp
  argc : load s.store s.sp 8 = args.length
  argv : StringVector s.store (s.sp + 8) (s.sp + 8 * (args.length + 2)) top args

/-! ### `sys_exec_image` -/

abbrev maxArgs : ℕ := 16

abbrev maxArgLen : ℕ := 127

/-- The arguments that `sys_exec_image` copies: the path, when there are none. -/
def execArgs (path : CString) (argc : ℤ) (argv : Option (ℕ → Option CString)) :
    List (CharBuf maxArgLen) :=
  match argv with
  | none => [.strncpy maxArgLen (CharBuf.strncpy (vfsPathMax - 1) path.chars).chars]
  | some argv =>
    if argc ≤ 0 then [.strncpy maxArgLen (CharBuf.strncpy (vfsPathMax - 1) path.chars).chars]
    else (List.range (min argc maxArgs).toNat).map fun i =>
      .strncpy maxArgLen ((argv i).elim [] CString.chars)

/-- `USER_STACK_BOTTOM_SMALL` and `USER_STACK_TOP_SMALL`. -/
abbrev userStackSmall : ℕ × ℕ := (0x50000000, 0x50400000)

/-- `USER_STACK_BOTTOM_LARGE` and `USER_STACK_TOP_LARGE`. -/
abbrev userStackLarge : ℕ × ℕ := (0x60000000, 0x60400000)

/-- The bottom and the top of the stack, with so much usable memory. -/
def userStack (usableBytes : ℕ) : ℕ × ℕ :=
  let stack := if userStackLarge.2 + 0x1000000 ≤ usableBytes then userStackLarge else userStackSmall
  if usableBytes < stack.2 then userStackSmall else stack

/-- The stack that `sys_exec_image` builds below `top`. -/
def nativeStack (m : Mem) (top : ℕ) (args : List (CharBuf maxArgLen)) : Down :=
  let r := Down.pushAll ⟨m, top⟩ (args.map CharBuf.terminated)
  (((r.1.align 16).pushWords [0]).pushWords r.2).pushWords [args.length]

/-! ### Pushed vectors -/

variable {m : Mem} {s t : Down} {bottom top lo i : ℕ} {strs : List (List Byte)}
  {ps ws before after : List ℕ} {args : List (CharBuf maxArgLen)}

theorem load_pushWords (h : 8 * ws.length ≤ s.sp) (hi : i < ws.length) :
    load (s.pushWords ws).store ((s.pushWords ws).sp + 8 * i) 8 = ws[i] % word :=
  Down.field_pushWords h hi

theorem load_pushWords_append (hws : ws = before ++ after) (h : 8 * ws.length ≤ s.sp)
    (hi : i < after.length) :
    load (s.pushWords ws).store ((s.pushWords ws).sp + 8 * (before.length + i)) 8 = after[i] % word := by
  subst hws
  rw [load_pushWords h (by rw [List.length_append]; omega)]
  simp only [List.getElem_append_right (Nat.le_add_right _ _), Nat.add_sub_cancel_left]

/-- **Pointers that were pushed** are a vector of the strings that are on the stack above them. -/
theorem stringVector_of_pushed (hps : List.Forall₂ (fun p l => Holds s.store p l ∧ s.sp ≤ p ∧
      p + l.length ≤ top) ps strs) (htop : top < word) (hst : s.Keeps t) (hlo : lo ≤ s.sp)
    (hws : ws = before ++ (ps ++ 0 :: after)) (hroom : 8 * ws.length ≤ t.sp) :
    StringVector (t.pushWords ws).store ((t.pushWords ws).sp + 8 * before.length) lo top strs := by
  have hlen := hps.length_eq
  have hrest : (ps ++ 0 :: after).length = ps.length + (after.length + 1) := by
    rw [List.length_append, List.length_cons]
  have hkeeps := hst.trans (Down.keeps_pushWords hroom)
  refine ⟨fun i hi => ?_, ?_⟩
  · have hread : load (t.pushWords ws).store
        ((t.pushWords ws).sp + 8 * before.length + 8 * i) 8 = ps[i] := by
      have hps' := (List.forall₂_iff_get.1 hps).2 i (by omega) hi
      rw [Nat.add_assoc, ← Nat.mul_add, load_pushWords_append hws hroom (by omega),
        List.getElem_append_left (by omega)]
      refine Nat.mod_eq_of_lt ?_
      have hle : ps[i] + strs[i].length ≤ top := hps'.2.2
      omega
    obtain ⟨hheld, hsp, htop'⟩ := (List.forall₂_iff_get.1 hps).2 i (by omega) hi
    rw [hread]
    exact ⟨hkeeps.holds hsp hheld, hlo.trans hsp, htop'⟩
  · rw [Nat.add_assoc, ← Nat.mul_add, load_pushWords_append hws hroom (by omega),
      List.getElem_append_right (by omega)]
    simp [hlen]

/-! ### The native stack -/

theorem length_execArgs (path : CString) (argc : ℤ) (argv : Option (ℕ → Option CString)) :
    0 < (execArgs path argc argv).length ∧ (execArgs path argc argv).length ≤ maxArgs := by
  have hmax : (maxArgs : ℤ) = 16 := rfl
  cases argv with
  | none => exact ⟨Nat.one_pos, by norm_num [execArgs]⟩
  | some argv =>
    simp only [execArgs]
    split
    · exact ⟨Nat.one_pos, by norm_num⟩
    · rw [List.length_map, List.length_range]
      omega

theorem userStack_spec (usableBytes : ℕ) :
    (userStack usableBytes).1 + 0x400000 = (userStack usableBytes).2 ∧
      (userStack usableBytes).2 % 16 = 0 ∧ (userStack usableBytes).2 < word := by
  rw [userStack]
  split_ifs <;> norm_num

theorem length_flatten_args_le (hargs : args.length ≤ maxArgs) :
    (args.map CharBuf.terminated).flatten.length ≤ 2048 :=
  (CharBuf.length_flatten_terminated args).trans (Nat.mul_le_mul_left 128 hargs)

theorem nativeStack_eq (m : Mem) (top : ℕ) (args : List (CharBuf maxArgLen)) :
    nativeStack m top args =
      ((Down.pushAll ⟨m, top⟩ (args.map CharBuf.terminated)).1.align 16).pushWords
        ([args.length] ++ ((Down.pushAll ⟨m, top⟩ (args.map CharBuf.terminated)).2 ++ [0])) := by
  rw [Down.pushWords_append, Down.pushWords_append]
  rfl

theorem sp_nativeStack (m : Mem) (top : ℕ) (args : List (CharBuf maxArgLen)) :
    (nativeStack m top args).sp =
      (top - (args.map CharBuf.terminated).flatten.length) / 16 * 16 - 8 * (args.length + 2) := by
  have hsp : (Down.pushAll ⟨m, top⟩ (args.map CharBuf.terminated)).1.sp =
      top - (args.map CharBuf.terminated).flatten.length := Down.sp_pushAll _ _
  have halign : ((Down.pushAll ⟨m, top⟩ (args.map CharBuf.terminated)).1.align 16).sp =
      (Down.pushAll ⟨m, top⟩ (args.map CharBuf.terminated)).1.sp / 16 * 16 := rfl
  rw [nativeStack_eq, Down.sp_pushWords, halign, hsp]
  simp only [List.length_append, List.length_singleton, Down.length_pointers, List.length_map]
  omega

theorem nativeStack_store_of_not_mem (hargs : args.length ≤ maxArgs) (htop : 0x400000 ≤ top)
    (hi : i < (nativeStack m top args).sp ∨ top ≤ i) : (nativeStack m top args).store i = m i := by
  have hmax : args.length ≤ 16 := hargs
  have hstrs := length_flatten_args_le hargs
  have hsp : (Down.pushAll ⟨m, top⟩ (args.map CharBuf.terminated)).1.sp =
      top - (args.map CharBuf.terminated).flatten.length := Down.sp_pushAll _ _
  have halign : ((Down.pushAll ⟨m, top⟩ (args.map CharBuf.terminated)).1.align 16).sp =
      (Down.pushAll ⟨m, top⟩ (args.map CharBuf.terminated)).1.sp / 16 * 16 := rfl
  rcases hi with hlt | hge
  · have hroom := sp_nativeStack m top args
    rw [nativeStack_eq] at hlt ⊢
    rw [Down.store_pushWords_of_lt hlt]
    refine Down.store_pushAll_of_lt (s := ⟨m, top⟩) (lt_of_lt_of_le hlt ?_)
    rw [Down.sp_pushWords, halign]
    omega
  · have hkeeps : Down.Keeps ⟨m, top⟩ (nativeStack m top args) := by
      rw [nativeStack_eq]
      refine ((Down.keeps_pushAll ?_).trans (Down.keeps_align _ 16)).trans (Down.keeps_pushWords ?_)
      · change _ ≤ top
        omega
      · rw [halign, hsp]
        simp only [List.length_append, List.length_singleton, Down.length_pointers, List.length_map]
        omega
    exact hkeeps.same i hge

/-- **The native stack is as a program expects it**, but for the alignment: the pointer was rounded down
before an even number of words and the vector of the arguments were pushed. -/
theorem argStack_nativeStack_iff (hargs : args.length ≤ maxArgs) (hbottom : bottom + 0x400000 = top)
    (htop : top < word) :
    ArgStack (nativeStack m top args) bottom top (args.map CharBuf.terminated) ↔ Even args.length := by
  have hmax : args.length ≤ 16 := hargs
  have hstrs := length_flatten_args_le hargs
  have hroom : (args.map CharBuf.terminated).flatten.length ≤ top := by omega
  set r := Down.pushAll ⟨m, top⟩ (args.map CharBuf.terminated) with hr
  have hsp : r.1.sp = top - (args.map CharBuf.terminated).flatten.length := Down.sp_pushAll _ _
  have hps := Down.pointers_pushAll (s := ⟨m, top⟩) hroom
  rw [← hr] at hps
  have hlen : r.2.length = args.length := by rw [hr, Down.length_pointers, List.length_map]
  have hstack : nativeStack m top args =
      (r.1.align 16).pushWords ([args.length] ++ (r.2 ++ [0])) := nativeStack_eq m top args
  have halign : (r.1.align 16).sp = r.1.sp / 16 * 16 := rfl
  have hwords : ([args.length] ++ (r.2 ++ [0])).length = args.length + 2 := by
    rw [List.length_append, List.length_append, List.length_singleton, List.length_singleton, hlen]
    omega
  have hroom' : 8 * ([args.length] ++ (r.2 ++ [0])).length ≤ (r.1.align 16).sp := by omega
  have hend : (nativeStack m top args).sp = r.1.sp / 16 * 16 - 8 * (args.length + 2) := by
    rw [sp_nativeStack, hsp]
  have haligned : (nativeStack m top args).sp % 16 = 0 ↔ Even args.length := by
    rw [hend, Nat.even_iff]
    omega
  refine ⟨fun h => haligned.1 h.aligned, fun heven => ⟨haligned.2 heven, ?_, ?_, ?_⟩⟩
  · omega
  · have h := load_pushWords (i := 0) hroom' (by omega)
    rw [Nat.mul_zero, Nat.add_zero] at h
    rw [hstack, h, List.length_map]
    exact Nat.mod_eq_of_lt (by simp only [List.cons_append, List.getElem_cons_zero]; omega)
  · have hlo : (nativeStack m top args).sp + 8 * (args.length + 2) ≤ r.1.sp := by omega
    rw [List.length_map]
    rw [hstack] at hlo ⊢
    exact stringVector_of_pushed hps htop (Down.keeps_align r.1 16) hlo rfl hroom'

end Tnu.Sys
