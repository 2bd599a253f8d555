/-
**The stack of a new Linux program.**

`build_linux_stack` of `kernel/compat/linux/userspace/linux_exec.c`: the path of the program, sixteen
bytes that pass for random ones, the arguments and the environment go on the stack as strings; below
them come the auxiliary vector, the vectors of the environment and the arguments, and the number of
arguments.

Main definitions:

* `linuxAuxv`, `buildLinuxStack` — the source.

Main results:

* `linuxStack_iff` — **the stack is as expected when the number of arguments is even**;
* `stacks_iff` — the stacks of both kinds of program.
-/

import Tnu.Sys.ExecStack
import Tnu.Linux.AddressSpace

set_option autoImplicit false

namespace Tnu.Linux

open Tnu.Mm Tnu.Sys Tnu.Vfs Bytes

abbrev linuxStackBottom : ℕ := 0x50000000

abbrev linuxMaxArgs : ℕ := 32

abbrev linuxMaxArgLen : ℕ := 255

/-- The arguments that `linux_run_binary` copies: the path stands in for the first one. -/
def linuxArgs (resolved : CharBuf (vfsPathMax - 1)) (argc : ℤ) (argv : Option (ℕ → Option CString)) :
    List (CharBuf linuxMaxArgLen) :=
  let argc : ℤ := if argc ≤ 0 then 1 else argc
  let argc : ℤ := if linuxMaxArgs < argc then linuxMaxArgs else argc
  (List.range argc.toNat).map fun i =>
    .strncpy linuxMaxArgLen (match argv.bind fun argv => argv i with
      | some arg => arg.chars
      | none => if i = 0 then resolved.chars else [])

def envValues : List (List Byte) :=
  [lit "PATH=/bin:/sbin:/usr/bin:/usr/sbin:/usr/local/bin:/usr/local/sbin", lit "HOME=/root",
    lit "TERM=linux", lit "SHELL=/bin/sh", lit "USER=root", lit "PWD=/"]

/-- The bytes of the loop over `random_bytes`, from a seed on. -/
def randomBytes : ℕ → UInt64 → List Byte
  | 0, _ => []
  | n + 1, seed =>
    let seed := seed ^^^ seed <<< 13
    let seed := seed ^^^ seed >>> 7
    let seed := seed ^^^ seed <<< 17
    seed.toUInt8 :: randomBytes n seed

/-- What `build_linux_stack` reads of `struct linux_loaded_image`. -/
structure LinuxLoadedImage where
  loadBias : ℕ
  entry : ℕ
  phdr : ℕ
  phentsize : ℕ
  phnum : ℕ
  deriving DecidableEq, Repr

abbrev linuxAtNull : ℕ := 0

/-- The auxiliary vector, without its end: types and values, lowest address first. -/
def linuxAuxv (main : LinuxLoadedImage) (interp : Option LinuxLoadedImage) (proc : Option Process)
    (random execfn : ℕ) : List ℕ :=
  [3, main.phdr, 4, main.phentsize, 5, main.phnum, 6, pageSize,
    7, interp.elim 0 LinuxLoadedImage.loadBias, 9, main.entry,
    11, proc.elim 0 fun p => p.uid.toNat, 12, proc.elim 0 fun p => p.uid.toNat,
    13, proc.elim 0 fun p => p.gid.toNat, 14, proc.elim 0 fun p => p.gid.toNat,
    16, 0, 17, 100, 23, 0, 25, random, 31, execfn]

/-- The stack with the strings on it, and where they are: the path, the random bytes, the arguments
and the environment. -/
structure LinuxStrings where
  stack : Down
  execfn : ℕ
  random : ℕ
  argv : List ℕ
  envp : List ℕ

/-- What `build_linux_stack` pushes before it aligns the stack pointer. -/
def pushLinuxStrings (m : Mem) (seed : UInt64) (execPath : CharBuf (vfsPathMax - 1))
    (args : List (CharBuf linuxMaxArgLen)) : LinuxStrings :=
  let s := Down.push ⟨m, linuxStackTop⟩ execPath.terminated
  let t := s.push (randomBytes 16 seed)
  let r := t.pushAll (args.map CharBuf.terminated)
  let e := r.1.pushAll (envValues.map (· ++ [0]))
  ⟨e.1, s.sp, t.sp, r.2, e.2⟩

def buildLinuxStack (m : Mem) (seed : UInt64) (main : LinuxLoadedImage)
    (interp : Option LinuxLoadedImage) (proc : Option Process) (execPath : CharBuf (vfsPathMax - 1))
    (args : List (CharBuf linuxMaxArgLen)) : Down :=
  let s := pushLinuxStrings m seed execPath args
  let stack := (s.stack.align 16).pushWords (linuxAuxv main interp proc s.random s.execfn ++ [linuxAtNull])
  ((stack.pushWords (s.envp ++ [0])).pushWords (s.argv ++ [0])).pushWords [args.length]

/-! ### What a Linux program expects -/

def vectorsEnd (sp argc envc auxc : ℕ) : ℕ := sp + 8 * (argc + envc + auxc + 4)

/-- **The stack at the start of a Linux program**: as for a native one, with the environment and the
auxiliary vector above the arguments, and all strings above the vectors. -/
structure LinuxStack (s : Down) (bottom top : ℕ) (args env : List (List Byte)) (aux : List ℕ) :
    Prop where
  aligned : s.sp % 16 = 0
  inside : bottom ≤ s.sp
  argc : load s.store s.sp 8 = args.length
  argv : StringVector s.store (s.sp + 8) (vectorsEnd s.sp args.length env.length aux.length) top args
  envp : StringVector s.store (s.sp + 8 * (args.length + 2))
    (vectorsEnd s.sp args.length env.length aux.length) top env
  auxv : ∀ i (h : i < aux.length),
    load s.store (s.sp + 8 * (args.length + env.length + 3 + i)) 8 = aux[i] % word
  auxEnd : load s.store (s.sp + 8 * (args.length + env.length + 3 + aux.length)) 8 = linuxAtNull

/-- What the auxiliary vector points at: the path of the program and sixteen bytes. -/
structure AuxStrings (s : Down) (top lo execfn random : ℕ) (execPath : List Byte) : Prop where
  execfn_held : Holds s.store execfn execPath
  execfn_low : lo ≤ execfn
  execfn_high : execfn + execPath.length ≤ top
  random_low : lo ≤ random
  random_high : random + 16 ≤ top

def LinuxStackFor (main : LinuxLoadedImage) (interp : Option LinuxLoadedImage) (proc : Option Process)
    (execPath : CharBuf (vfsPathMax - 1)) (args : List (CharBuf linuxMaxArgLen)) (s : Down) : Prop :=
  ∃ random execfn,
    LinuxStack s linuxStackBottom linuxStackTop (args.map CharBuf.terminated)
      (envValues.map (· ++ [0])) (linuxAuxv main interp proc random execfn) ∧
    AuxStrings s linuxStackTop (vectorsEnd s.sp args.length 6 30) execfn random execPath.terminated

/-! ### Where things are -/

variable {m : Mem} {seed : UInt64} {main : LinuxLoadedImage} {interp : Option LinuxLoadedImage}
  {proc : Option Process} {execPath : CharBuf (vfsPathMax - 1)} {args : List (CharBuf linuxMaxArgLen)}
  {s : LinuxStrings} {a : Down} {aux : List ℕ} {i : ℕ}

@[simp] theorem length_randomBytes (n : ℕ) (seed : UInt64) : (randomBytes n seed).length = n := by
  induction n generalizing seed with
  | zero => rfl
  | succ n ih => rw [randomBytes, List.length_cons, ih]

theorem length_linuxArgs (resolved : CharBuf (vfsPathMax - 1)) (argc : ℤ)
    (argv : Option (ℕ → Option CString)) :
    0 < (linuxArgs resolved argc argv).length ∧
      (linuxArgs resolved argc argv).length ≤ linuxMaxArgs := by
  have hmax : (linuxMaxArgs : ℤ) = 32 := rfl
  rw [linuxArgs]
  simp only [List.length_map, List.length_range]
  split_ifs <;> omega

/-- What is known of the strings: the stack is deep enough for them, and each is where it was said to
be. -/
structure StringsOk (execPath : CharBuf (vfsPathMax - 1)) (args : List (CharBuf linuxMaxArgLen))
    (s : LinuxStrings) : Prop where
  deep : linuxStackTop ≤ s.stack.sp + 0x10000
  execfn_held : Holds s.stack.store s.execfn execPath.terminated
  execfn_high : s.execfn + execPath.terminated.length = linuxStackTop
  random_high : s.random + 16 = s.execfn
  random_low : s.stack.sp ≤ s.random
  argv : List.Forall₂ (fun p l => Holds s.stack.store p l ∧ s.stack.sp ≤ p ∧
    p + l.length ≤ linuxStackTop) s.argv (args.map CharBuf.terminated)
  envp : List.Forall₂ (fun p l => Holds s.stack.store p l ∧ s.stack.sp ≤ p ∧
    p + l.length ≤ linuxStackTop) s.envp (envValues.map (· ++ [0]))

theorem stringsOk_pushLinuxStrings (m : Mem) (seed : UInt64) (execPath : CharBuf (vfsPathMax - 1))
    (hargs : args.length ≤ linuxMaxArgs) :
    StringsOk execPath args (pushLinuxStrings m seed execPath args) := by
  have hpath : execPath.terminated.length ≤ 256 := by
    have := execPath.length_le
    rw [CharBuf.length_terminated]
    exact Nat.succ_le_succ this
  have hstrs : (args.map CharBuf.terminated).flatten.length ≤ 8192 :=
    (CharBuf.length_flatten_terminated args).trans (Nat.mul_le_mul_left 256 hargs)
  have henv : (envValues.map (· ++ [0])).flatten.length = 118 := by decide +kernel
  set s₁ := Down.push ⟨m, linuxStackTop⟩ execPath.terminated with hs₁
  set s₂ := s₁.push (randomBytes 16 seed) with hs₂
  set r := s₂.pushAll (args.map CharBuf.terminated) with hr
  set e := r.1.pushAll (envValues.map (· ++ [0])) with he
  have htop : linuxStackTop = 0x50400000 := rfl
  have hsp₁ : s₁.sp = linuxStackTop - execPath.terminated.length := rfl
  have hsp₂ : s₂.sp = s₁.sp - 16 := by rw [hs₂, Down.sp_push, length_randomBytes]
  have hspr : r.1.sp = s₂.sp - (args.map CharBuf.terminated).flatten.length := Down.sp_pushAll _ _
  have hspe : e.1.sp = r.1.sp - 118 := by rw [he, Down.sp_pushAll, henv]
  have hk₂ : s₁.Keeps s₂ := Down.keeps_push (by rw [length_randomBytes]; omega)
  have hkr : s₂.Keeps r.1 := Down.keeps_pushAll (by omega)
  have hke : r.1.Keeps e.1 := Down.keeps_pushAll (by omega)
  have hpsr := Down.pointers_pushAll
    (show (args.map CharBuf.terminated).flatten.length ≤ s₂.sp by omega)
  have hpse := Down.pointers_pushAll
    (show (envValues.map (· ++ [0])).flatten.length ≤ r.1.sp by omega)
  refine ⟨?_, ?_, ?_, ?_, ?_, ?_, ?_⟩
  · change linuxStackTop ≤ e.1.sp + 0x10000
    omega
  · exact ((hk₂.trans hkr).trans hke).holds le_rfl (Down.holds_push _ _)
  · change s₁.sp + execPath.terminated.length = linuxStackTop
    omega
  · change s₂.sp + 16 = s₁.sp
    omega
  · change e.1.sp ≤ s₂.sp
    omega
  · refine hpsr.imp fun p l h => ⟨hke.holds h.2.1 h.1, hke.le.trans h.2.1, ?_⟩
    have hhigh := h.2.2
    omega
  · refine hpse.imp fun p l h => ⟨h.1, h.2.1, ?_⟩
    have hhigh := h.2.2
    omega

/-! ### The vectors -/

def linuxWords (n : ℕ) (s : LinuxStrings) (aux : List ℕ) : List ℕ :=
  [n] ++ (s.argv ++ 0 :: (s.envp ++ 0 :: (aux ++ [linuxAtNull])))

theorem length_linuxWords (n : ℕ) (hs : StringsOk execPath args s) :
    (linuxWords n s aux).length = args.length + aux.length + 10 := by
  have hargv := hs.argv.length_eq
  have henvp := hs.envp.length_eq
  rw [List.length_map] at hargv henvp
  have henv : envValues.length = 6 := rfl
  simp only [linuxWords, List.length_append, List.length_cons, List.length_nil]
  omega

theorem pushWords_linuxWords (a : Down) (n : ℕ) (s : LinuxStrings) (aux : List ℕ) :
    a.pushWords (linuxWords n s aux) =
      (((a.pushWords (aux ++ [linuxAtNull])).pushWords (s.envp ++ [0])).pushWords
        (s.argv ++ [0])).pushWords [n] := by
  have hwords : linuxWords n s aux =
      [n] ++ ((s.argv ++ [0]) ++ ((s.envp ++ [0]) ++ (aux ++ [linuxAtNull]))) := by
    simp [linuxWords]
  rw [hwords, Down.pushWords_append a [n], Down.pushWords_append a (s.argv ++ [0]),
    Down.pushWords_append a (s.envp ++ [0])]

theorem aligned_linuxWords (hs : StringsOk execPath args s) (hargs : args.length ≤ linuxMaxArgs)
    (haux : aux.length = 30) :
    ((s.stack.align 16).pushWords (linuxWords args.length s aux)).sp =
        s.stack.sp / 16 * 16 - 8 * (args.length + 40) ∧
      (((s.stack.align 16).pushWords (linuxWords args.length s aux)).sp % 16 = 0 ↔
        Even args.length) := by
  have hmax : args.length ≤ 32 := hargs
  have htop : linuxStackTop = 0x50400000 := rfl
  have hdeep := hs.deep
  have hsp : ((s.stack.align 16).pushWords (linuxWords args.length s aux)).sp =
      s.stack.sp / 16 * 16 - 8 * (args.length + 40) := by
    rw [Down.sp_pushWords, length_linuxWords _ hs, haux]
    rfl
  refine ⟨hsp, ?_⟩
  rw [hsp, Nat.even_iff]
  omega

/-- **The vectors below the strings** are as a program expects them, if they are aligned. -/
theorem linuxStack_pushWords (hs : StringsOk execPath args s) (hargs : args.length ≤ linuxMaxArgs)
    (haux : aux.length = 30) (heven : Even args.length) :
    LinuxStack ((s.stack.align 16).pushWords (linuxWords args.length s aux)) linuxStackBottom
      linuxStackTop (args.map CharBuf.terminated) (envValues.map (· ++ [0])) aux := by
  have hmax : args.length ≤ 32 := hargs
  have htop : linuxStackTop = 0x50400000 := rfl
  have hbottom : linuxStackBottom = 0x50000000 := rfl
  have hdeep := hs.deep
  have hlen : (linuxWords args.length s aux).length = args.length + aux.length + 10 :=
    length_linuxWords _ hs
  have henvlen : (envValues.map (· ++ [0])).length = 6 := rfl
  have hargvlen : s.argv.length = args.length := by rw [hs.argv.length_eq, List.length_map]
  have henvplen : s.envp.length = 6 := hs.envp.length_eq
  have halign : (s.stack.align 16).sp = s.stack.sp / 16 * 16 := rfl
  have hroom : 8 * (linuxWords args.length s aux).length ≤ (s.stack.align 16).sp := by omega
  obtain ⟨hsp, haligned⟩ := aligned_linuxWords hs hargs haux
  have hwords' : linuxWords args.length s aux =
      ([args.length] ++ (s.argv ++ 0 :: (s.envp ++ [0]))) ++ (aux ++ [linuxAtNull]) := by
    simp [linuxWords]
  have hbefore' : ([args.length] ++ (s.argv ++ 0 :: (s.envp ++ [0]))).length =
      args.length + 6 + 3 := by
    simp only [List.length_append, List.length_cons, List.length_nil, hargvlen, henvplen]
    omega
  refine ⟨haligned.2 heven, ?_, ?_, ?_, ?_, ?_, ?_⟩
  · omega
  · have h := load_pushWords (i := 0) hroom (by omega)
    rw [Nat.mul_zero, Nat.add_zero] at h
    rw [h, List.length_map]
    refine Nat.mod_eq_of_lt ?_
    change args.length < word
    exact lt_of_le_of_lt hmax (by norm_num)
  · rw [List.length_map, henvlen, vectorsEnd]
    exact stringVector_of_pushed hs.argv (by norm_num) (Down.keeps_align _ 16) (by omega) rfl hroom
  · rw [List.length_map, henvlen, vectorsEnd]
    have hwords : linuxWords args.length s aux =
        ([args.length] ++ (s.argv ++ [0])) ++ (s.envp ++ 0 :: (aux ++ [linuxAtNull])) := by
      simp [linuxWords]
    have hbefore : ([args.length] ++ (s.argv ++ [0])).length = args.length + 2 := by
      simp only [List.length_append, List.length_cons, List.length_nil, hargvlen]
      omega
    have h := stringVector_of_pushed hs.envp (by norm_num) (Down.keeps_align _ 16)
      (le_refl s.stack.sp) hwords hroom
    rw [hbefore] at h
    exact ⟨fun i hi => ⟨(h.strings i hi).1, by have := (h.strings i hi).2.1; omega,
      (h.strings i hi).2.2⟩, h.null⟩
  · intro i hi
    have h := load_pushWords_append (i := i) hwords' hroom (by rw [List.length_append]; omega)
    rw [hbefore', List.getElem_append_left hi] at h
    rw [List.length_map, henvlen]
    exact h
  · have h := load_pushWords_append (i := aux.length) hwords' hroom (by simp)
    rw [hbefore', List.getElem_append_right le_rfl] at h
    rw [List.length_map, henvlen, h]
    simp

theorem vectorsEnd_le {x n : ℕ} (hx : 1024 ≤ x) (hn : n ≤ linuxMaxArgs) :
    vectorsEnd (x / 16 * 16 - 8 * (n + 40)) n 6 30 ≤ x := by
  have hmax : n ≤ 32 := hn
  have hdeep : 8 * (n + 40) ≤ x / 16 * 16 := by omega
  change x / 16 * 16 - 8 * (n + 40) + 8 * (n + 40) ≤ x
  rw [Nat.sub_add_cancel hdeep]
  exact Nat.div_mul_le_self x 16

theorem auxStrings_pushWords (hs : StringsOk execPath args s) (hargs : args.length ≤ linuxMaxArgs)
    (haux : aux.length = 30) :
    AuxStrings ((s.stack.align 16).pushWords (linuxWords args.length s aux)) linuxStackTop
      (vectorsEnd ((s.stack.align 16).pushWords (linuxWords args.length s aux)).sp args.length 6 30)
      s.execfn s.random execPath.terminated := by
  obtain ⟨hsp, -⟩ := aligned_linuxWords hs hargs haux
  have hroomy : 1024 ≤ s.stack.sp :=
    Nat.le_of_add_le_add_right (le_trans (by norm_num : 1024 + 0x10000 ≤ linuxStackTop) hs.deep)
  have hend := vectorsEnd_le hroomy hargs
  rw [← hsp] at hend
  have hmax : args.length ≤ 32 := hargs
  have halign : (s.stack.align 16).sp = s.stack.sp / 16 * 16 := rfl
  have hroom : 8 * (linuxWords args.length s aux).length ≤ (s.stack.align 16).sp := by
    rw [length_linuxWords _ hs, haux, halign]
    omega
  have hkeeps := (Down.keeps_align s.stack 16).trans (Down.keeps_pushWords hroom)
  have hrandom : s.random ≤ s.execfn := hs.random_high ▸ Nat.le_add_right _ _
  have hexecfn : s.stack.sp ≤ s.execfn := hs.random_low.trans hrandom
  refine ⟨hkeeps.holds hexecfn hs.execfn_held, hend.trans hexecfn, hs.execfn_high.le,
    hend.trans hs.random_low, ?_⟩
  rw [hs.random_high, ← hs.execfn_high]
  exact Nat.le_add_right _ _

/-- **The stack of a Linux program is as expected** when the number of its arguments is even. -/
theorem linuxStack_iff (hargs : args.length ≤ linuxMaxArgs) :
    LinuxStackFor main interp proc execPath args
      (buildLinuxStack m seed main interp proc execPath args) ↔ Even args.length := by
  have hs : StringsOk execPath args (pushLinuxStrings m seed execPath args) :=
    stringsOk_pushLinuxStrings m seed execPath hargs
  have hstack : buildLinuxStack m seed main interp proc execPath args =
      ((pushLinuxStrings m seed execPath args).stack.align 16).pushWords
        (linuxWords args.length (pushLinuxStrings m seed execPath args)
          (linuxAuxv main interp proc (pushLinuxStrings m seed execPath args).random
            (pushLinuxStrings m seed execPath args).execfn)) :=
    (pushWords_linuxWords _ _ _ _).symm
  rw [LinuxStackFor, hstack]
  generalize pushLinuxStrings m seed execPath args = s at hs ⊢
  have hauxlen : (linuxAuxv main interp proc s.random s.execfn).length = 30 := rfl
  constructor
  · rintro ⟨_, _, h, -⟩
    exact (aligned_linuxWords hs hargs hauxlen).2.1 h.aligned
  · intro heven
    exact ⟨s.random, s.execfn, linuxStack_pushWords hs hargs hauxlen heven,
      auxStrings_pushWords hs hargs hauxlen⟩

/-- **The stack of a new program**, native or Linux, is as the program expects it exactly when the
number of its arguments is even. -/
theorem stacks_iff (m : Mem) (usableBytes : ℕ) (path : CString) (resolved : CharBuf (vfsPathMax - 1))
    (argc : ℤ) (argv : Option (ℕ → Option CString)) (seed : UInt64) (main : LinuxLoadedImage)
    (interp : Option LinuxLoadedImage) (proc : Option Process) :
    (ArgStack (nativeStack m (userStack usableBytes).2 (execArgs path argc argv))
        (userStack usableBytes).1 (userStack usableBytes).2
        ((execArgs path argc argv).map CharBuf.terminated) ↔ Even (execArgs path argc argv).length) ∧
      (LinuxStackFor main interp proc resolved (linuxArgs resolved argc argv)
        (buildLinuxStack m seed main interp proc resolved (linuxArgs resolved argc argv)) ↔
          Even (linuxArgs resolved argc argv).length) :=
  ⟨argStack_nativeStack_iff (length_execArgs path argc argv).2 (userStack_spec usableBytes).1
    (userStack_spec usableBytes).2.2, linuxStack_iff (length_linuxArgs resolved argc argv).2⟩

/-- A program that gets its own name as the only argument starts with a stack pointer that is not
aligned. -/
theorem not_argStack : ¬∀ (m : Mem) (usableBytes : ℕ) (path : CString) (argc : ℤ)
    (argv : Option (ℕ → Option CString)),
    ArgStack (nativeStack m (userStack usableBytes).2 (execArgs path argc argv))
      (userStack usableBytes).1 (userStack usableBytes).2
      ((execArgs path argc argv).map CharBuf.terminated) := by
  intro h
  have hodd := (argStack_nativeStack_iff (length_execArgs ⟨[], List.not_mem_nil⟩ 0 none).2
    (userStack_spec 0).1 (userStack_spec 0).2.2).1 (h (fun _ => 0) 0 ⟨[], List.not_mem_nil⟩ 0 none)
  exact absurd hodd (by decide)

end Tnu.Linux
