/-
**Renaming by copying.**

There is no system call for it: `rename` of `userspace/libc/src/stdio.c` opens the old path, opens the new one
with `O_CREAT` and `O_TRUNC`, copies 512 bytes at a time, and unlinks the old path in the end.  When the copy
stops half-way it unlinks the new path, whatever was there before; and nobody asks whether the two are one.

Main definitions:

* `RenameLaw` — what it should do.

Main results:

* `copyLoop_file`, `copyLoop_special` — **the copying loop**, from one chunk to the next;
* `renameLaw_of_renameWhen`, `rename_iff` — when the law holds.
-/

import Tnu.Sys.Rewrite

set_option autoImplicit false

namespace Tnu.Libc

open Vfs Sys

/-! ### The function -/

/-- `char buffer[512]`, on the stack of a program. -/
structure Buffer where
  addr : ℕ
  low : 0x1000 ≤ addr
  high : addr + 512 ≤ 0x800000000000

/-- `O_CREAT | O_TRUNC | O_WRONLY`. -/
abbrev renameFlags : UInt32 := vfsOCreat ||| vfsOTrunc ||| vfsOWronly

/-- The inner loop: all bytes go to descriptor `out`, from address `addr` on, or a write fails. -/
def writeChunk (dev : Sys.Devices) (out : ℤ) : ℕ → ℕ → List Byte → Kernel → Option (Kernel × Bool)
  | 0, _, bytes, k => if bytes = [] then some (k, true) else none
  | fuel + 1, addr, bytes, k =>
    if bytes = [] then some (k, true)
    else
      (sysWrite dev k out ⟨addr, bytes⟩).bind fun r =>
        if r.2.1 ≤ 0 then some (r.1, false)
        else writeChunk dev out fuel (addr + r.2.1.toNat) (bytes.drop r.2.1.toNat) r.1

/-- The outer loop: chunk after chunk, until there is nothing to read or something fails. -/
def copyLoop (dev : Sys.Devices) (buf : Buffer) (input out : ℤ) : ℕ → Kernel → Option (Kernel × Bool)
  | 0, _ => none
  | fuel + 1, k =>
    (sysRead dev k input buf.addr 512).bind fun r =>
      if r.2.1 < 0 then some (r.1, false)
      else if r.2.1 = 0 then some (r.1, true)
      else
        (writeChunk dev out r.2.2.length buf.addr r.2.2 r.1).bind fun w =>
          if w.2 then copyLoop dev buf input out fuel w.1 else some (w.1, false)

/-- The end of `rename`: both descriptors are closed, and one of the paths goes. -/
def finish (old new : UserString) (input out : ℤ) (k : Kernel) (copied : Bool) : Kernel × ℤ :=
  let k := (sysClose (sysClose k input).1 out).1
  if copied then unlinkUser k old else ((unlinkUser k new).1, -1)

/-- `rename`; no result when the fuel runs out. -/
def rename (dev : Sys.Devices) (buf : Buffer) (old new : UserString) (fuel : ℕ) (k : Kernel) : Option (Kernel × ℤ) :=
  if old.ptr = 0 ∨ new.ptr = 0 then some (k, -1)
  else
    let opened := sysOpen k old 0 0
    let input := opened.2
    if input < 0 then some (opened.1, -1)
    else
      let opened := sysOpen opened.1 new renameFlags 0o644
      if opened.2 < 0 then some ((sysClose opened.1 input).1, -1)
      else (copyLoop dev buf input opened.2 fuel opened.1).map fun r =>
        finish old new input opened.2 r.1 r.2

/-! ### What it should do -/

def NamesFile (k : Kernel) (path : UserString) (bytes : List Byte) : Prop :=
  ∃ d, nodeAt k path = some d ∧ (k.vfs.nodes d).type = .file ∧ contents (k.vfs.nodes d) = bytes

/-- With `0`, the new path leads to a file with the bytes of the old one, which is gone; but when the two are one
it has stayed.  With `-1`, both have the contents they had. -/
structure RenamePost (old new : UserString) (k : Kernel) (r : Kernel × ℤ) : Prop where
  moved : r.2 = 0 → ∃ bytes, bytesAt k old = some bytes ∧ NamesFile r.1 new bytes ∧
    (¬ SameNode k old new → nodeAt r.1 old = none) ∧ (SameNode k old new → bytesAt r.1 old = some bytes)
  stayed : r.2 = -1 → bytesAt r.1 old = bytesAt k old ∧ bytesAt r.1 new = bytesAt k new

def RenameLaw (dev : Sys.Devices) (buf : Buffer) (old new : UserString) (k : Kernel) : Prop :=
  ∃ fuel r, rename dev buf old new fuel k = some r ∧ RenamePost old new k r

/-! ### When it does -/

def secondFd (p : Process) : Option ℕ := (freeFd p).bind fun i => freeFd (p.setFd i { p.fds i with used := true })

/-- `kmalloc` has room for a file with chunk `m`, and those before it, of `len` bytes. -/
def granted (dev : Sys.Devices) (len m : ℕ) : Bool := dev.kmalloc (min (512 * (m + 1)) len + 1)

def Accepts (dev : Sys.Devices) (n : VfsNode) (len : ℕ) : Prop :=
  len = 0 ∨ n.type = .dev ∧ (n.name.chars = lit "null" ∨ isTtyName n.name.chars = true ∨
    n.name.chars = lit "fb0" ∧ len % 4 = 0 ∧ ∃ w h, dev.framebuffer = some (w, h) ∧ 0 < w * h)

/-- Nothing stops the copy from node `n` to node `d`, which is new or was there. -/
def Copies (dev : Sys.Devices) (k : Kernel) (n d : ℕ) (isNew : Prop) : Prop :=
  (k.vfs.nodes n).type ≠ .dir ∧
    (isNew ∨ (k.vfs.nodes d).type = .file →
      ∀ m, 512 * m < (contents (k.vfs.nodes n)).length → granted dev (contents (k.vfs.nodes n)).length m = true) ∧
    (¬ (isNew ∨ (k.vfs.nodes d).type = .file) → Accepts dev (k.vfs.nodes d) (contents (k.vfs.nodes n)).length)

def Intact (k : Kernel) (ds : List (List Byte)) (d : ℕ) (bytes : List Byte) : Prop :=
  walk k.vfs rootNode ds = some d ∧ ((k.vfs.nodes d).type = .file → contents (k.vfs.nodes d) = bytes)

def Stopped (dev : Sys.Devices) (k : Kernel) (n : ℕ) (bytes : List Byte) : Prop :=
  (k.vfs.nodes n).type = .dir ∧ bytes = [] ∨
    (k.vfs.nodes n).type ≠ .dir ∧ ∃ m, 512 * m < (contents (k.vfs.nodes n)).length ∧
      (∀ j, j < m → granted dev (contents (k.vfs.nodes n)).length j = true) ∧
      granted dev (contents (k.vfs.nodes n)).length m = false ∧ bytes = (contents (k.vfs.nodes n)).take (512 * m)

/-- Both paths could be opened, to nodes `n` and `d`. -/
structure RenameOk (dev : Sys.Devices) (k : Kernel) (cs ds : List (List Byte)) (n d : ℕ) : Prop where
  /-- Without a second descriptor the new file has been truncated for nothing. -/
  alone : secondFd k.proc = none → Intact k ds d []
  not_dev : (secondFd k.proc).isSome → (k.vfs.nodes n).type ≠ .dev
  /-- One file, which is truncated and then removed. -/
  same : (secondFd k.proc).isSome → d = n → (k.vfs.nodes n).type = .file →
    contents (k.vfs.nodes n) = [] ∧ ¬ MayUnlink k.vfs k.proc cs
  /-- The copy is made, and the old path goes or stays. -/
  copied : (secondFd k.proc).isSome → ¬ (d = n ∧ (k.vfs.nodes n).type = .file) →
    Copies dev k n d (walk k.vfs rootNode ds = none) →
    (MayUnlink k.vfs k.proc cs ∧ (walk k.vfs rootNode ds = some d → (k.vfs.nodes d).type = .file)) ∨
      (¬ MayUnlink k.vfs k.proc cs ∧ Intact k ds d (contents (k.vfs.nodes n)))
  /-- The copy stops, and the new path goes or stays. -/
  stopped : (secondFd k.proc).isSome → ¬ (d = n ∧ (k.vfs.nodes n).type = .file) →
    ¬ Copies dev k n d (walk k.vfs rootNode ds = none) →
    walk k.vfs rootNode ds = none ∨ (¬ MayUnlink k.vfs k.proc ds ∧ walk k.vfs rootNode ds = some d ∧
      ((k.vfs.nodes d).type = .file → Stopped dev k n (contents (k.vfs.nodes d))))

/-- When the law holds: whenever both paths can be opened, nothing is in the way. -/
def RenameWhen (dev : Sys.Devices) (old new : UserString) (k : Kernel) : Prop :=
  ∀ cs ds i n d, Names k old cs → Names k new ds → Readable k old cs n i → Writable k new ds renameFlags 0o644 d →
    RenameOk dev k cs ds n d

/-! ### The inner loop -/

variable {dev : Sys.Devices} {buf : Buffer} {old new path : UserString} {k k' k₁ : Kernel} {cs ds : List (List Byte)}
  {i j n d m : ℕ} {f g : FileDescriptor} {rc : ℤ}

theorem Buffer.uptrOk (buf : Buffer) (off len : ℕ) (hoff : off < 512) (hlen : off + len ≤ 512) :
    Sys.uptrOk (buf.addr + off) len = true := by
  have hlow := buf.low
  have hhigh := buf.high
  have hmod : (buf.addr + off + len) % 2 ^ 64 = buf.addr + off + len := Nat.mod_eq_of_lt (by omega)
  rw [Sys.uptrOk, hmod]
  simp
  omega

theorem writeChunk_nil (fuel addr : ℕ) (out : ℤ) : writeChunk dev out fuel addr [] k = some (k, true) := by
  cases fuel <;> rfl

variable {ok : Bool} {k₂ s₁ : Kernel} {r : Kernel × Bool} {bytes copied : List Byte} {v : VfsNode}
  {len addr fuel fuel' : ℕ} {out input : ℤ}

theorem writeChunk_of_write {out : Output} (fuel : ℕ) (hne : bytes ≠ [])
    (h : sysWrite dev k j ⟨addr, bytes⟩ = some (k', rc, out)) (hrc : rc = bytes.length ∨ rc = -1) :
    writeChunk dev j (fuel + 1) addr bytes k = some (k', decide (rc = bytes.length)) := by
  have hpos : (0 : ℤ) < bytes.length := by exact_mod_cast List.length_pos_iff.2 hne
  rw [writeChunk, if_neg hne, h, Option.bind_some]
  dsimp only
  rcases hrc with rfl | rfl
  · rw [if_neg (by omega), Int.toNat_natCast, List.drop_length, writeChunk_nil, decide_eq_true rfl]
  · rw [if_pos (by omega), decide_eq_false (by omega)]

theorem accepts_framebuffer {width height : ℕ} (hdev : v.type = .dev) (hnull : v.name.chars ≠ lit "null")
    (htty : ¬ isTtyName v.name.chars = true) (hname : v.name.chars = lit "fb0")
    (hfb : dev.framebuffer = some (width, height)) (len : ℕ) :
    Accepts dev v len ↔ len = 0 ∨ len % 4 = 0 ∧ 0 < width * height := by
  constructor
  · rintro (h0 | ⟨-, h | h | ⟨-, hlen, w, x, hw, harea⟩⟩)
    · exact .inl h0
    · exact absurd h hnull
    · exact absurd h htty
    · obtain ⟨rfl, rfl⟩ := Prod.mk.inj (Option.some.inj (hw.symm.trans hfb))
      exact .inr ⟨hlen, harea⟩
  · rintro (h0 | ⟨hlen, harea⟩)
    · exact .inl h0
    · exact .inr ⟨hdev, .inr (.inr ⟨hname, hlen, width, height, hfb, harea⟩)⟩

variable (dev) in
theorem accepts_step (hne : bytes ≠ [])
    (hptr : uptrOk addr bytes.length = true) :
    (specialRc dev v ⟨addr, bytes⟩ ≤ 0 ∧ ¬ Accepts dev v bytes.length) ∨
      ∃ w : ℕ, specialRc dev v ⟨addr, bytes⟩ = w ∧ 0 < w ∧ w ≤ bytes.length ∧
        (Accepts dev v (bytes.length - w) ↔ Accepts dev v bytes.length) := by
  have hpos : 0 < bytes.length := List.length_pos_iff.2 hne
  have hnull : addr ≠ 0 := fun h0 => by
    rw [h0] at hptr
    simp [uptrOk] at hptr
  by_cases hdev : v.type = .dev
  · rw [specialRc, if_pos ⟨hptr, hdev⟩, writeDevice]
    by_cases h₁ : v.name.chars = lit "null"
    · rw [if_pos h₁]
      exact .inr ⟨bytes.length, rfl, hpos, le_rfl, iff_of_true (.inl (Nat.sub_self _)) (.inr ⟨hdev, .inl h₁⟩)⟩
    rw [if_neg h₁]
    by_cases h₂ : isTtyName v.name.chars = true
    · rw [if_pos h₂]
      exact .inr ⟨bytes.length, rfl, hpos, le_rfl,
        iff_of_true (.inl (Nat.sub_self _)) (.inr ⟨hdev, .inr (.inl h₂)⟩)⟩
    rw [if_neg h₂]
    by_cases h₃ : v.name.chars = lit "fb0"
    · rw [if_pos h₃]
      cases hfb : dev.framebuffer with
      | none =>
        have hneg : (-1 : ℤ) ≤ 0 := by decide
        refine .inl ⟨hneg, ?_⟩
        rintro (h0 | ⟨-, h | h | ⟨-, -, w, x, hw, -⟩⟩)
        · omega
        · exact h₁ h
        · exact h₂ h
        · rw [hfb] at hw
          cases hw
      | some size =>
        obtain ⟨width, height⟩ := size
        have hiff := accepts_framebuffer hdev h₁ h₂ h₃ hfb
        dsimp only
        rw [if_neg hnull, hiff]
        have hle := Nat.min_le_left (bytes.length / 4) (width * height)
        have hle' := Nat.min_le_right (bytes.length / 4) (width * height)
        by_cases hnone : min (bytes.length / 4) (width * height) = 0
        · refine .inl ⟨by rw [hnone]; exact le_rfl, ?_⟩
          rintro (h0 | ⟨h4, harea⟩)
          · omega
          · rcases Nat.min_eq_zero_iff.1 hnone with h | h <;> omega
        · refine .inr ⟨_, rfl, by omega, by omega, ?_⟩
          rw [hiff]
          generalize min (bytes.length / 4) (width * height) = p at hnone hle hle'
          omega
    · rw [if_neg h₃]
      refine .inl ⟨by decide, ?_⟩
      rintro (h0 | ⟨-, h | h | ⟨h, -⟩⟩)
      · omega
      · exact h₁ h
      · exact h₂ h
      · exact h₃ h
  · rw [specialRc, if_neg fun e => hdev e.2]
    refine .inl ⟨by decide, ?_⟩
    rintro (h0 | ⟨h, -⟩)
    · omega
    · exact hdev h

variable (dev buf) in
/-- **What is no file** takes a chunk, or does not. -/
theorem writeChunk_special (h : WriteFd k j d g) (hfile : (k.vfs.nodes d).type ≠ .file) (fuel off : ℕ)
    (bytes : List Byte) (hfuel : bytes.length ≤ fuel) (hoff : off + bytes.length ≤ 512) (ok : Bool)
    (hok : ok = true ↔ Accepts dev (k.vfs.nodes d) bytes.length) :
    writeChunk dev j fuel (buf.addr + off) bytes k = some (k, ok) := by
  induction fuel generalizing off bytes with
  | zero =>
    obtain rfl : bytes = [] := List.length_eq_zero_iff.1 (by omega)
    rw [writeChunk_nil, hok.2 (.inl rfl)]
  | succ fuel ih =>
    by_cases hne : bytes = []
    · subst hne
      rw [writeChunk_nil, hok.2 (.inl rfl)]
    · have hpos : 0 < bytes.length := List.length_pos_iff.2 hne
      obtain ⟨out, hwrite⟩ := sysWrite_special dev ⟨buf.addr + off, bytes⟩ h hfile hne
      rw [writeChunk, if_neg hne, hwrite, Option.bind_some]
      dsimp only
      rcases accepts_step dev (v := k.vfs.nodes d) hne (buf.uptrOk _ _ (by omega) hoff) with
        ⟨hle, hnot⟩ | ⟨w, hw, hwpos, hwle, hiff⟩
      · have hfalse : ok = false := by
          rw [← Bool.not_eq_true, hok]
          exact hnot
        rw [if_pos hle, hfalse]
      · have hgt : ¬ (w : ℤ) ≤ 0 := by omega
        rw [hw, if_neg hgt, Int.toNat_natCast, Nat.add_assoc]
        refine ih (off + w) (bytes.drop w) ?_ ?_ ?_
        · rw [List.length_drop]
          omega
        · rw [List.length_drop]
          omega
        · rw [List.length_drop, hok, hiff]

/-! ### Two descriptors -/

theorem get_of_ne (h : processGetFd k.proc i = some f) (hproc : k'.proc = k.proc.setFd j g) (hne : i ≠ j) :
    processGetFd k'.proc i = some f := by
  obtain ⟨h0, hlt, hused, hf⟩ := processGetFd_eq_some.1 h
  rw [Int.toNat_natCast] at hused hf
  refine processGetFd_eq_some.2 ⟨h0, hlt, ?_, ?_⟩
  · rw [hproc, Int.toNat_natCast, Process.setFd_of_ne _ _ hne, hused]
  · rw [hproc, Int.toNat_natCast, Process.setFd_of_ne _ _ hne, hf]

theorem readFd_of_ne (h : ReadFd k i n f) (hproc : k'.proc = k.proc.setFd j g) (hne : i ≠ j) : ReadFd k' i n f :=
  ⟨h.slot, get_of_ne h.open_ hproc hne, h.mode, h.node⟩

theorem writeFd_of_ne (h : WriteFd k j d g) (hproc : k'.proc = k.proc.setFd i f) (hne : i ≠ j) : WriteFd k' j d g :=
  ⟨h.slot, get_of_ne h.open_ hproc hne.symm, h.mode, h.append, h.node⟩

theorem readFd_moved (h : ReadFd k i n f) (off : ℕ) : ReadFd (k.setFd i { f with offset := off }) i n { f with offset := off } := by
  obtain ⟨-, -, hused, rfl⟩ := processGetFd_eq_some.1 h.open_
  exact ⟨h.slot, get_setFd h.open_ hused, h.mode, h.node⟩

/-! ### The loop -/

/-- `m` chunks of node `n` have been read, and nothing is left of the tree but node `d`. -/
structure Reading (k k' : Kernel) (i j n d m : ℕ) : Prop where
  rewrote : Rewrote d k k'
  fds : i ≠ j
  readable : (k'.vfs.nodes n).type ≠ .dir ∧ (k'.vfs.nodes n).type ≠ .dev
  source : contents (k'.vfs.nodes n) = contents (k.vfs.nodes n)
  read : ∃ f, ReadFd k' i n f ∧ f.offset = min (512 * m) (contents (k.vfs.nodes n)).length

/-- Chunk `m` of some bytes. -/
def chunk (bytes : List Byte) (m : ℕ) : List Byte := (bytes.drop (512 * m)).take 512

theorem length_chunk (bytes : List Byte) (m : ℕ) : (chunk bytes m).length = min 512 (bytes.length - 512 * m) := by
  rw [chunk, List.length_take, List.length_drop]

variable (dev buf) in
/-- **One read**, of a chunk or of nothing. -/
theorem Reading.read_chunk (h : Reading k k' i j n d m) :
    ∃ k₁ f, sysRead dev k' i buf.addr 512 = some (k₁, ((chunk (contents (k.vfs.nodes n)) m).length : ℤ),
        chunk (contents (k.vfs.nodes n)) m) ∧
      k₁.vfs = k'.vfs ∧ k₁.proc = k'.proc.setFd i f ∧ Reading k k₁ i j n d (m + 1) := by
  obtain ⟨f, hf, hoffset⟩ := h.read
  have hsound := h.rewrote.sound
  have hlen : (contents (k.vfs.nodes n)).length = (k'.vfs.nodes n).size := by
    rw [← h.source]
    exact hsound.holds n
  have hread := sysRead_file dev hsound hf h.readable.1 h.readable.2
    (show uptrOk buf.addr 512 = true from buf.uptrOk 0 512 (by decide) le_rfl) (by decide)
  rw [h.source] at hread
  by_cases hend : (k'.vfs.nodes n).size ≤ f.offset
  · have hnil : chunk (contents (k.vfs.nodes n)) m = [] := by
      rw [← List.length_eq_zero_iff, length_chunk]
      omega
    have hsame : k'.setFd i f = k' := setFd_of_get hf.open_
    rw [if_pos hend] at hread
    refine ⟨k', f, by rw [hread, hnil]; rfl, rfl, congrArg Kernel.proc hsame.symm, ?_⟩
    exact ⟨h.rewrote, h.fds, h.readable, h.source, f, hf, by omega⟩
  · have hoff : f.offset = 512 * m := by omega
    rw [if_neg hend, hoff] at hread
    refine ⟨_, _, hread, rfl, rfl, h.rewrote.setFd i _, h.fds, h.readable, h.source, _, readFd_moved hf _, ?_⟩
    have hl := length_chunk (contents (k.vfs.nodes n)) m
    rw [chunk] at hl
    dsimp only
    rw [hl]
    omega

theorem copyLoop_mono (h : copyLoop dev buf input out fuel k = some r) :
    copyLoop dev buf input out (fuel + 1) k = some r := by
  induction fuel generalizing k with
  | zero => cases h
  | succ fuel ih =>
    rw [copyLoop] at h ⊢
    obtain ⟨a, ha, h⟩ := Option.bind_eq_some_iff.1 h
    rw [ha, Option.bind_some]
    split_ifs at h ⊢ with h₁ h₂
    · exact h
    · exact h
    · obtain ⟨w, hw, h⟩ := Option.bind_eq_some_iff.1 h
      rw [hw, Option.bind_some]
      split_ifs at h ⊢ with h₃
      · exact ih h
      · exact h

theorem accepts_congr {u : VfsNode} (htype : v.type = u.type) (hname : v.name = u.name) :
    Accepts dev v len ↔ Accepts dev u len := by
  rw [Accepts, Accepts, htype, hname]

theorem accepts_split (hpos : 0 < len) :
    Accepts dev v len ↔ Accepts dev v (min 512 len) ∧ Accepts dev v (len - 512) := by
  constructor
  · rintro (h0 | ⟨hdev, h | h | ⟨hname, h4, hfb⟩⟩)
    · omega
    · exact ⟨.inr ⟨hdev, .inl h⟩, .inr ⟨hdev, .inl h⟩⟩
    · exact ⟨.inr ⟨hdev, .inr (.inl h)⟩, .inr ⟨hdev, .inr (.inl h)⟩⟩
    · exact ⟨.inr ⟨hdev, .inr (.inr ⟨hname, by omega, hfb⟩)⟩, .inr ⟨hdev, .inr (.inr ⟨hname, by omega, hfb⟩)⟩⟩
  · rintro ⟨h0 | ⟨hdev, h | h | ⟨hname, h4, hfb⟩⟩, hrest⟩
    · omega
    · exact .inr ⟨hdev, .inl h⟩
    · exact .inr ⟨hdev, .inr (.inl h)⟩
    · by_cases hle : len ≤ 512
      · rw [Nat.min_eq_right hle] at h4
        exact .inr ⟨hdev, .inr (.inr ⟨hname, h4, hfb⟩)⟩
      · rw [Nat.min_eq_left (by omega)] at h4
        rcases hrest with h0 | ⟨-, h | h | ⟨-, h4', -⟩⟩
        · omega
        · exact .inr ⟨hdev, .inl h⟩
        · exact .inr ⟨hdev, .inr (.inl h)⟩
        · exact .inr ⟨hdev, .inr (.inr ⟨hname, by omega, hfb⟩)⟩

theorem copyLoop_end (hread : sysRead dev k input buf.addr 512 = some (k₁, 0, []))
    (fuel : ℕ) : copyLoop dev buf input out (fuel + 1) k = some (k₁, true) := by
  rw [copyLoop, hread, Option.bind_some, if_neg (lt_irrefl 0), if_pos rfl]

theorem copyLoop_chunk (hne : bytes ≠ [])
    (hread : sysRead dev k input buf.addr 512 = some (k₁, (bytes.length : ℤ), bytes))
    (hwrite : writeChunk dev out bytes.length buf.addr bytes k₁ = some (k₂, ok)) (fuel : ℕ) :
    copyLoop dev buf input out (fuel + 1) k =
      if ok then copyLoop dev buf input out fuel k₂ else some (k₂, false) := by
  have hpos : 0 < bytes.length := List.length_pos_iff.2 hne
  rw [copyLoop, hread, Option.bind_some]
  dsimp only
  rw [if_neg (by omega), if_neg (by omega), hwrite, Option.bind_some]

variable (dev buf) in
/-- **The loop to what is no file** ends, and succeeds when all bytes are welcome. -/
theorem copyLoop_special (h : Reading k k' i j n d m) (hw : WriteFd k' j d g) (hfile : (k'.vfs.nodes d).type ≠ .file) :
    ∃ fuel k₃ ok, copyLoop dev buf i j fuel k' = some (k₃, ok) ∧ k₃.vfs = k'.vfs ∧ Rewrote d k k₃ ∧
      (ok = true ↔ Accepts dev (k'.vfs.nodes d) ((contents (k.vfs.nodes n)).length - 512 * m)) := by
  obtain ⟨left, hleft⟩ : ∃ left, left = (contents (k.vfs.nodes n)).length - 512 * m := ⟨_, rfl⟩
  induction left using Nat.strong_induction_on generalizing k' m with
  | _ left ih =>
    obtain ⟨k₁, f, hread, hvfs, hproc, hnext⟩ := h.read_chunk dev buf
    have hlen := length_chunk (contents (k.vfs.nodes n)) m
    by_cases hnil : chunk (contents (k.vfs.nodes n)) m = []
    · rw [hnil] at hread hlen
      have hzero : (contents (k.vfs.nodes n)).length - 512 * m = 0 := by
        rw [List.length_nil] at hlen
        omega
      refine ⟨1, k₁, true, copyLoop_end hread 0, hvfs, hnext.rewrote, ?_⟩
      rw [hzero]
      exact iff_of_true rfl (.inl rfl)
    · have hpos : 0 < (chunk (contents (k.vfs.nodes n)) m).length := List.length_pos_iff.2 hnil
      have hw₁ := writeFd_of_ne hw hproc h.fds
      have hfile₁ : (k₁.vfs.nodes d).type ≠ .file := by rw [hvfs]; exact hfile
      have hwrite (ok : Bool) (hok : ok = true ↔ Accepts dev (k'.vfs.nodes d)
          (chunk (contents (k.vfs.nodes n)) m).length) := writeChunk_special dev buf hw₁ hfile₁
        (chunk (contents (k.vfs.nodes n)) m).length 0 _ le_rfl (by omega) ok (by rw [hvfs]; exact hok)
      rw [accepts_split (by omega), ← hlen]
      by_cases haccepts : Accepts dev (k'.vfs.nodes d) (chunk (contents (k.vfs.nodes n)) m).length
      · obtain ⟨fuel, k₃, ok, hloop, hvfs₃, hre₃, hok⟩ := ih _ (by omega) hnext hw₁ hfile₁ rfl
        refine ⟨fuel + 1, k₃, ok, ?_, hvfs₃.trans hvfs, hre₃, ?_⟩
        · rw [copyLoop_chunk hnil hread (hwrite true (iff_of_true rfl haccepts)), if_pos rfl, hloop]
        · rw [hok, hvfs, and_iff_right haccepts, Nat.sub_sub, Nat.mul_succ]
      · refine ⟨1, k₁, false, ?_, hvfs, hnext.rewrote, ?_⟩
        · rw [copyLoop_chunk hnil hread (hwrite false (iff_of_false Bool.false_ne_true haccepts)),
            if_neg Bool.false_ne_true]
        · exact iff_of_false Bool.false_ne_true fun e => haccepts e.1

theorem Reading.written (h : Reading k k₁ i j n d m) (hn : n < k₁.vfs.nodeCount) (hne : n ≠ d)
    (hre : Rewrote d k₁ k₂) (hproc : k₂.proc = k₁.proc.setFd j g) : Reading k k₂ i j n d m := by
  obtain ⟨f, hf, hoffset⟩ := h.read
  have htype := (hre.attrs n hn).1
  refine ⟨h.rewrote.trans hre, h.fds, ?_, ?_, f, readFd_of_ne hf hproc h.fds, hoffset⟩
  · rw [htype]
    exact h.readable
  · rw [← h.source, contents, contents, (hre.data n hn hne).1]

/-- What the loop to a file comes to: everything was copied, or the chunks before the first for which there was
no memory. -/
def Filled (dev : Sys.Devices) (bytes : List Byte) (m : ℕ) (copied : List Byte) (ok : Bool) : Prop :=
  (ok = true ∧ copied = bytes ∧ ∀ l, m ≤ l → 512 * l < bytes.length → granted dev bytes.length l = true) ∨
    (ok = false ∧ ∃ l, m ≤ l ∧ 512 * l < bytes.length ∧ (∀ q, m ≤ q → q < l → granted dev bytes.length q = true) ∧
      granted dev bytes.length l = false ∧ copied = bytes.take (512 * l))

theorem Filled.all (h : Filled dev bytes m copied ok) (hok : ok = true) :
    copied = bytes := by
  rcases h with ⟨-, h, -⟩ | ⟨hfalse, -⟩
  · exact h
  · rw [hok] at hfalse
    cases hfalse

theorem Filled.ok_iff (h : Filled dev bytes 0 copied ok) :
    ok = true ↔ ∀ l, 512 * l < bytes.length → granted dev bytes.length l = true := by
  rcases h with ⟨hok, -, hall⟩ | ⟨hok, l, -, hlt, -, hrefused, -⟩
  · exact iff_of_true hok fun l => hall l (Nat.zero_le l)
  · refine iff_of_false (fun e => ?_) fun hall => ?_
    · rw [hok] at e
      cases e
    · rw [hall l hlt] at hrefused
      cases hrefused

theorem Filled.part (h : Filled dev bytes 0 copied ok) (hok : ok = false)
    (x : List Byte) :
    (∃ l, 512 * l < bytes.length ∧ (∀ q, q < l → granted dev bytes.length q = true) ∧
      granted dev bytes.length l = false ∧ x = bytes.take (512 * l)) ↔ copied = x := by
  rcases h with ⟨htrue, -⟩ | ⟨-, l, -, hlt, hbefore, hrefused, hcopied⟩
  · rw [hok] at htrue
    cases htrue
  · constructor
    · rintro ⟨l', hlt', hbefore', hrefused', rfl⟩
      obtain hl | rfl | hl := lt_trichotomy l l'
      · rw [hbefore' l hl] at hrefused
        cases hrefused
      · exact hcopied
      · rw [hbefore l' (Nat.zero_le l') hl] at hrefused'
        cases hrefused'
    · rintro rfl
      exact ⟨l, hlt, fun q hq => hbefore q (Nat.zero_le q) hq, hrefused, hcopied⟩

theorem Filled.before (h : Filled dev bytes (m + 1) copied ok)
    (hm : granted dev bytes.length m = true) : Filled dev bytes m copied ok := by
  have hcase {l : ℕ} (hl : m ≤ l) : l = m ∨ m + 1 ≤ l := by omega
  rcases h with ⟨hok, hcopied, hall⟩ | ⟨hok, l, hml, hlt, hbefore, hrefused, hcopied⟩
  · refine .inl ⟨hok, hcopied, fun l hl hlt => ?_⟩
    rcases hcase hl with rfl | hl
    · exact hm
    · exact hall l hl hlt
  · refine .inr ⟨hok, l, by omega, hlt, fun q hq hql => ?_, hrefused, hcopied⟩
    rcases hcase hq with rfl | hq
    · exact hm
    · exact hbefore q hq hql

variable (dev buf) in
/-- **The loop to another file.** -/
theorem copyLoop_file (h : Reading k k' i j n d m) (hw : AtEnd k' j d g) (hn : n < k'.vfs.nodeCount) (hne : n ≠ d)
    (hcopied : contents (k'.vfs.nodes d) = (contents (k.vfs.nodes n)).take (512 * m)) :
    ∃ fuel k₃ ok, copyLoop dev buf i j fuel k' = some (k₃, ok) ∧ Rewrote d k k₃ ∧ Rewrote d k' k₃ ∧
      Filled dev (contents (k.vfs.nodes n)) m (contents (k₃.vfs.nodes d)) ok := by
  obtain ⟨left, hleft⟩ : ∃ left, left = (contents (k.vfs.nodes n)).length - 512 * m := ⟨_, rfl⟩
  induction left using Nat.strong_induction_on generalizing k' m g with
  | _ left ih =>
    obtain ⟨k₁, f, hread, hvfs, hproc, hnext⟩ := h.read_chunk dev buf
    have hlen := length_chunk (contents (k.vfs.nodes n)) m
    have hsound := h.rewrote.sound
    have hre₁ : Rewrote d k' k₁ := by
      have hmid := hnext.rewrote
      refine .of_vfs hsound hvfs ?_ ?_ ?_ d
      · rw [hmid.uid, h.rewrote.uid]
      · rw [hmid.gid, h.rewrote.gid]
      · rw [hmid.cwd, h.rewrote.cwd]
    by_cases hnil : chunk (contents (k.vfs.nodes n)) m = []
    · rw [hnil] at hread hlen
      rw [List.length_nil] at hlen
      refine ⟨1, k₁, true, copyLoop_end hread 0, hnext.rewrote, hre₁, .inl ⟨rfl, ?_, fun l hl hlt => ?_⟩⟩
      · rw [hvfs, hcopied, List.take_of_length_le (by omega)]
      · have := Nat.mul_le_mul_left 512 hl
        omega
    · have hpos : 0 < (chunk (contents (k.vfs.nodes n)) m).length := List.length_pos_iff.2 hnil
      have hsize : (k₁.vfs.nodes d).size = 512 * m := by
        have hholds : (contents (k'.vfs.nodes d)).length = (k'.vfs.nodes d).size := hsound.holds d
        rw [hvfs, ← hholds, hcopied, List.length_take]
        omega
      have hbound : (contents (k.vfs.nodes n)).length < 2 ^ 64 := by
        rw [← h.source, show (contents (k'.vfs.nodes n)).length = (k'.vfs.nodes n).size from hsound.holds n]
        exact hsound.size n
      have hat : AtEnd k₁ j d g :=
        { writeFd_of_ne hw.toWriteFd hproc h.fds with
          file := by rw [hvfs]; exact hw.file
          offset := by rw [hvfs]; exact hw.offset }
      obtain ⟨k₂, g', hwrite, hre₂, hcont, hproc₂, hat₂⟩ := sysWrite_end dev
        ⟨buf.addr, chunk (contents (k.vfs.nodes n)) m⟩ hnext.rewrote.sound hat hnil (by
          dsimp only
          omega)
      have hptr : uptrOk buf.addr (chunk (contents (k.vfs.nodes n)) m).length = true :=
        buf.uptrOk 0 _ (by decide) (by omega)
      have hcond : (uptrOk buf.addr (chunk (contents (k.vfs.nodes n)) m).length && dev.kmalloc
          ((k₁.vfs.nodes d).size + (chunk (contents (k.vfs.nodes n)) m).length + 1)) =
          granted dev (contents (k.vfs.nodes n)).length m := by
        have hsum : 512 * m + min 512 ((contents (k.vfs.nodes n)).length - 512 * m) =
            min (512 * (m + 1)) (contents (k.vfs.nodes n)).length := by omega
        rw [hptr, Bool.true_and, hsize, hlen, hsum, granted]
      dsimp only at hwrite
      rw [hcond] at hwrite
      obtain ⟨l, hl⟩ := Nat.exists_eq_succ_of_ne_zero hpos.ne'
      cases hgranted : granted dev (contents (k.vfs.nodes n)).length m with
      | true =>
        rw [hgranted, if_pos rfl] at hwrite
        have hchunk := writeChunk_of_write l hnil hwrite (.inl rfl)
        rw [← Nat.succ_eq_add_one, ← hl, decide_eq_true rfl] at hchunk
        have hn₁ : n < k₁.vfs.nodeCount := hn.trans_le hre₁.count
        obtain ⟨fuel, k₃, ok, hloop, hre₃, hre₃', hfilled⟩ := ih _ (by omega)
          (hnext.written hn₁ hne hre₂ hproc₂) hat₂ (hn₁.trans_le hre₂.count) (by
            rw [hcont, hvfs, hcopied, Nat.mul_succ, List.take_add]
            rfl) rfl
        refine ⟨fuel + 1, k₃, ok, ?_, hre₃, (hre₁.trans hre₂).trans hre₃', hfilled.before hgranted⟩
        rw [copyLoop_chunk hnil hread hchunk, if_pos rfl, hloop]
      | false =>
        rw [hgranted, if_neg Bool.false_ne_true] at hwrite
        have hchunk := writeChunk_of_write l hnil hwrite (.inr rfl)
        rw [← Nat.succ_eq_add_one, ← hl, decide_eq_false (by omega)] at hchunk
        refine ⟨1, k₁, false, ?_, hnext.rewrote, hre₁,
          .inr ⟨rfl, m, le_rfl, by omega, fun q hq hqm => absurd hqm (by omega), hgranted, ?_⟩⟩
        · rw [copyLoop_chunk hnil hread hchunk, if_neg Bool.false_ne_true]
        · rw [hvfs, hcopied]

/-! ### The end of the function -/

def Unharmed (k k' : Kernel) (ds : List (List Byte)) (d : ℕ) : Prop :=
  walk k.vfs rootNode ds = some d ∧ contents (k'.vfs.nodes d) = contents (k.vfs.nodes d)

theorem kept_iff (hs : Sound k.vfs) (hold : Names k old cs) (hnew : Names k new ds)
    (hn : walk k.vfs rootNode cs = some n) (hre : Rewrote d k k') (hfound : walk k'.vfs rootNode ds = some d) :
    (bytesAt k' old = bytesAt k old ∧ bytesAt k' new = bytesAt k new) ↔ Unharmed k k' ds d := by
  have hold' := bytesAt_of_names (hre.names.2 hold) (hre.walk cs n hn)
  have hnew' := bytesAt_of_names (hre.names.2 hnew) hfound
  rw [hold', hnew', bytesAt_of_names hold hn]
  cases hw : walk k.vfs rootNode ds with
  | none =>
    have hnone : bytesAt k new = none := by rw [bytesAt, nodeAt_of_names hnew, hw]; rfl
    rw [hnone, Unharmed, hw]
    simp
  | some e =>
    obtain rfl := Option.some.inj ((hre.walk ds e hw).symm.trans hfound)
    rw [bytesAt_of_names hnew hw, Unharmed, hw, Option.some.injEq, Option.some.injEq]
    constructor
    · exact fun h => ⟨rfl, h.2⟩
    · rintro ⟨-, h⟩
      refine ⟨?_, h⟩
      by_cases hne : n = e
      · rw [hne, h]
      · rw [contents, contents, (hre.data n (hs.lt hn) hne).1]

theorem closed_spec (hre : Rewrote d k k') (i j : ℤ) :
    Rewrote d k (sysClose (sysClose k' i).1 j).1 ∧ (sysClose (sysClose k' i).1 j).1.vfs = k'.vfs :=
  ⟨(hre.close i).close j, by rw [vfs_sysClose, vfs_sysClose]⟩

theorem path_ne (hwf : Wf k.vfs) (hn : walk k.vfs rootNode cs = some n) (hd : walk k.vfs rootNode ds = some d) :
    d = n ↔ ds = cs := by
  constructor
  · rintro rfl
    exact hwf.walk_injective hd hn
  · rintro rfl
    exact Option.some.inj (hd.symm.trans hn)

/-- **After a copy that was made**, everything hangs on the removal of the old path. -/
theorem renamePost_finish_true (hs : Sound k.vfs) (hold : Names k old cs) (hr : Readable k old cs n i)
    (hdir : (k.vfs.nodes n).type ≠ .dir) (hnew : Names k new ds) (hre : Rewrote d k k')
    (hfound : walk k'.vfs rootNode ds = some d) (hnot : (k'.vfs.nodes d).type ≠ .dir) (a b : ℤ) :
    RenamePost old new k (finish old new a b k' true) ↔
      (MayUnlink k.vfs k.proc cs → d ≠ n ∧ (k'.vfs.nodes d).type = .file ∧
        contents (k'.vfs.nodes d) = contents (k.vfs.nodes n)) ∧
      (¬ MayUnlink k.vfs k.proc cs → Unharmed k k' ds d) := by
  obtain ⟨hre₁, hvfs⟩ := closed_spec hre a b
  rw [finish, if_pos rfl]
  generalize (sysClose (sysClose k' a).1 b).1 = k₁ at hre₁ hvfs ⊢
  rw [← hvfs] at hfound hnot ⊢
  have hwn := hre₁.walk cs n hr.found
  have hpaths := path_ne hre₁.sound.wf hwn hfound
  have hleaf : (k₁.vfs.nodes n).type ≠ .dir := by
    rw [(hre₁.attrs n (hs.lt hr.found)).1]
    exact hdir
  obtain ⟨hgone, hstays⟩ := unlinkUser_of_leaf hre₁.sound.wf (hre₁.names.2 hold) hr.ptr hwn hleaf
  rw [hre₁.mayUnlink_iff hs hnot] at hgone hstays
  have hneg : (0 : ℤ) ≠ -1 := by decide
  by_cases hmay : MayUnlink k.vfs k.proc cs
  · obtain ⟨k₂, hv, hproc, he⟩ := hgone hmay
    rw [he]
    have hnone : nodeAt k₂ old = none := nodeAt_unlinked hre₁.sound.wf hv hproc (hre₁.names.2 hold)
    have hother (hne : d ≠ n) : nodeAt k₂ new = some d :=
      (nodeAt_of_unlinked hre₁.sound.wf hv hproc (hre₁.names.2 hnew) fun e => hne (hpaths.2 e)).trans hfound
    constructor
    · intro h
      obtain ⟨bytes, hb, ⟨e, hnode, htype, hbytes⟩, -⟩ := h.moved rfl
      have hne : d ≠ n := by
        intro e'
        rw [nodeAt_unlinked hre₁.sound.wf hv hproc (hpaths.1 e' ▸ hre₁.names.2 hnew)] at hnode
        cases hnode
      obtain rfl := Option.some.inj ((hother hne).symm.trans hnode)
      rw [bytesAt_of_names hold hr.found, Option.some.injEq] at hb
      refine ⟨fun _ => ⟨hne, (type_of_unlinked hv d).symm.trans htype, ?_⟩, fun e => absurd hmay e⟩
      rw [hb, ← hbytes]
      exact (contents_of_unlinked hv d).symm
    · intro h
      obtain ⟨hne, htype, hbytes⟩ := h.1 hmay
      refine ⟨fun _ => ⟨_, bytesAt_of_names hold hr.found, ⟨d, hother hne, (type_of_unlinked hv d).trans htype,
        (contents_of_unlinked hv d).trans hbytes⟩, fun _ => hnone, fun hsame => ?_⟩, fun e => absurd e hneg⟩
      have hw := hsame.2
      rw [nodeAt_of_names hnew, nodeAt_of_names hold, hr.found] at hw
      exact absurd (Option.some.inj (hfound.symm.trans (hre₁.walk ds n hw))) hne
  · rw [hstays hmay]
    have hkept := kept_iff hs hold hnew hr.found hre₁ hfound
    constructor
    · exact fun h => ⟨fun e => absurd e hmay, fun _ => by
        have := hkept.1 (h.stayed rfl)
        rwa [Unharmed, hvfs] at this⟩
    · intro h
      refine ⟨fun e => absurd e.symm hneg, fun _ => hkept.2 ?_⟩
      have := h.2 hmay
      rwa [Unharmed, ← hvfs] at this

/-- **After a copy that has stopped** the new path goes, if the caller may remove it. -/
theorem renamePost_finish_false (hs : Sound k.vfs) (hold : Names k old cs) (hn : walk k.vfs rootNode cs = some n)
    (hnew : Names k new ds) (hptr : ustrOk new.ptr = true)
    (hmade : walk k.vfs rootNode ds = none → MayUnlink k.vfs k.proc ds) (hre : Rewrote d k k')
    (hfound : walk k'.vfs rootNode ds = some d) (hnot : (k'.vfs.nodes d).type ≠ .dir) (a b : ℤ) :
    RenamePost old new k (finish old new a b k' false) ↔
      walk k.vfs rootNode ds = none ∨ (¬ MayUnlink k.vfs k.proc ds ∧ Unharmed k k' ds d) := by
  obtain ⟨hre₁, hvfs⟩ := closed_spec hre a b
  rw [finish, if_neg Bool.false_ne_true]
  generalize (sysClose (sysClose k' a).1 b).1 = k₁ at hre₁ hvfs ⊢
  rw [← hvfs] at hfound hnot
  have hwn := hre₁.walk cs n hn
  have hpaths := path_ne hre₁.sound.wf hwn hfound
  obtain ⟨hgone, hstays⟩ := unlinkUser_of_leaf hre₁.sound.wf (hre₁.names.2 hnew) hptr hfound hnot
  rw [hre₁.mayUnlink_iff hs hnot] at hgone hstays
  have hneg : (-1 : ℤ) ≠ 0 := by decide
  by_cases hmay : MayUnlink k.vfs k.proc ds
  · obtain ⟨k₂, hv, hproc, he⟩ := hgone hmay
    rw [he]
    have hnone : bytesAt k₂ new = none := by
      rw [bytesAt, nodeAt_unlinked hre₁.sound.wf hv hproc (hre₁.names.2 hnew)]
      rfl
    constructor
    · intro h
      have hbytes := (h.stayed rfl).2
      rw [hnone, bytesAt, nodeAt_of_names hnew, eq_comm, Option.map_eq_none_iff] at hbytes
      exact .inl hbytes
    · rintro (h | ⟨hnot, -⟩)
      · have hne : ds ≠ cs := by
          rintro rfl
          rw [h] at hn
          cases hn
        refine ⟨fun e => absurd e hneg, fun _ => ⟨?_, ?_⟩⟩
        · have hnode := nodeAt_of_unlinked hre₁.sound.wf hv hproc (hre₁.names.2 hold) hne.symm
          rw [bytesAt, hnode, hwn, Option.map_some, bytesAt_of_names hold hn, contents_of_unlinked hv,
            contents, contents, (hre₁.data n (hs.lt hn) fun e => hne (hpaths.1 e.symm)).1]
        · rw [hnone, bytesAt, nodeAt_of_names hnew, h]
          rfl
      · exact absurd hmay hnot
  · rw [hstays hmay]
    have hkept := kept_iff hs hold hnew hn hre₁ hfound
    have hsome : walk k.vfs rootNode ds ≠ none := fun e => hmay (hmade e)
    rw [Unharmed, ← hvfs]
    constructor
    · exact fun h => .inr ⟨hmay, hkept.1 (h.stayed rfl)⟩
    · rintro (h | ⟨-, h⟩)
      · exact absurd h hsome
      · exact ⟨fun e => absurd e hneg, fun _ => hkept.2 h⟩

/-! ### The start of the function -/

theorem copyLoop_le (hle : fuel ≤ fuel')
    (h : copyLoop dev buf input out fuel k = some r) : copyLoop dev buf input out fuel' k = some r := by
  induction fuel', hle using Nat.le_induction with
  | base => exact h
  | succ fuel' _ ih => exact copyLoop_mono ih

theorem rename_le {r : Kernel × ℤ} (hle : fuel ≤ fuel') (h : rename dev buf old new fuel k = some r) :
    rename dev buf old new fuel' k = some r := by
  rw [rename] at h ⊢
  dsimp only at h ⊢
  split_ifs at h ⊢ with h₁ h₂ h₃
  · exact h
  · exact h
  · exact h
  · obtain ⟨w, hw, he⟩ := Option.map_eq_some_iff.1 h
    rw [copyLoop_le hle hw, Option.map_some, he]

theorem renameLaw_of_eq (fuel : ℕ) {r : Kernel × ℤ} (h : rename dev buf old new fuel k = some r) :
    RenameLaw dev buf old new k ↔ RenamePost old new k r := by
  constructor
  · rintro ⟨fuel', r', h', hpost⟩
    have hmax := (rename_le (Nat.le_max_left fuel fuel') h).symm.trans (rename_le (Nat.le_max_right fuel fuel') h')
    rw [Option.some.inj hmax]
    exact hpost
  · exact fun hpost => ⟨fuel, r, h, hpost⟩

theorem renamePost_unchanged (hre : Rewrote d k k') (hvfs : k'.vfs = k.vfs) : RenamePost old new k (k', -1) where
  moved e := absurd (show (-1 : ℤ) = 0 from e) (by decide)
  stayed _ := ⟨bytesAt_of_vfs hre hvfs, bytesAt_of_vfs hre hvfs⟩

theorem creatorMay_rename (p : Process) : CreatorMay p renameFlags 0o644 :=
  .inr ⟨fun e => absurd e (by decide), fun _ => by decide⟩

theorem anew_renameFlags : Anew renameFlags := ⟨by decide, by decide, by decide, by decide⟩

theorem writable_setFd {flags mode : UInt32} :
    Writable (k.setFd i f) path cs flags mode d ↔ Writable k path cs flags mode d := by
  constructor
  · rintro ⟨hptr, ⟨hw, hallowed⟩ | ⟨hcreates, hmay, hd⟩⟩
    · exact ⟨hptr, .inl ⟨hw, hallowed⟩⟩
    · exact ⟨hptr, .inr ⟨⟨hcreates.missing, hcreates.asked, hcreates.unprotected, hcreates.parent, hcreates.room⟩,
        hmay, hd⟩⟩
  · rintro ⟨hptr, ⟨hw, hallowed⟩ | ⟨hcreates, hmay, hd⟩⟩
    · exact ⟨hptr, .inl ⟨hw, hallowed⟩⟩
    · exact ⟨hptr, .inr ⟨⟨hcreates.missing, hcreates.asked, hcreates.unprotected, hcreates.parent, hcreates.room⟩,
        hmay, hd⟩⟩

/-- Both paths can be opened. -/
structure BothOpen (k : Kernel) (old new : UserString) (cs ds : List (List Byte)) (i n d : ℕ) : Prop where
  hold : Names k old cs
  hnew : Names k new ds
  read : Readable k old cs n i
  write : Writable k new ds renameFlags 0o644 d

variable (dev) in
/-- **The start of the function**: the law holds and a path stays closed, or both paths are open. -/
theorem rename_opened (hs : Sound k.vfs) (buf : Buffer) (old new : UserString) :
    (RenameLaw dev buf old new k ∧ ∀ cs ds i n d, ¬ BothOpen k old new cs ds i n d) ∨
    ∃ cs ds i n d s₁, ∃ dirty : ℕ → Bool, BothOpen k old new cs ds i n d ∧
      Emptied (k.setFd i (openedFd k n 0 i)) s₁ ds d ∧
      ∀ fuel, rename dev buf old new fuel k = match freeFd s₁.proc with
        | none => some ((sysClose s₁ i).1, -1)
        | some j => (copyLoop dev buf i j fuel (s₁.setFd j (anewFd renameFlags d (dirty j)))).map fun r =>
          finish old new i j r.1 r.2 := by
  have hneg : (-1 : ℤ) < 0 := by decide
  have hclosed (h : rename dev buf old new 0 k = some (k, -1)) : RenameLaw dev buf old new k :=
    (renameLaw_of_eq _ h).2 (renamePost_unchanged (.refl hs 0) rfl)
  by_cases hnull : old.ptr = 0 ∨ new.ptr = 0
  · refine .inl ⟨hclosed (by rw [rename, if_pos hnull]), fun cs ds i n d h => ?_⟩
    have hread := h.read.ptr
    have hwrite := h.write.ptr
    rcases hnull with h0 | h0
    · rw [h0] at hread
      cases hread
    · rw [h0] at hwrite
      cases hwrite
  by_cases hold : ∃ cs, Names k old cs
  · obtain ⟨cs, hold⟩ := hold
    rcases sysOpen_rdonly hold 0 with ⟨n, i, hr, hopen⟩ | ⟨hnot, hopen⟩
    · have hre : Rewrote 0 k (k.setFd i (openedFd k n 0 i)) := (Rewrote.refl hs 0).setFd i _
      have hpos : ¬ (i : ℤ) < 0 := by omega
      have hopen' : sysOpen k old 0 0 = (k.setFd i (openedFd k n 0 i), (i : ℤ)) := hopen
      have hfails (h : sysOpen (k.setFd i (openedFd k n 0 i)) new renameFlags 0o644 =
          (k.setFd i (openedFd k n 0 i), -1)) : RenameLaw dev buf old new k := by
        refine (renameLaw_of_eq 0 (r := ((sysClose (k.setFd i (openedFd k n 0 i)) i).1, -1)) ?_).2
          (renamePost_unchanged (hre.close i) (vfs_sysClose _ _))
        rw [rename, if_neg hnull, hopen']
        dsimp only
        rw [if_neg hpos, h, if_pos hneg]
      by_cases hnew : ∃ ds, Names k new ds
      · obtain ⟨ds, hnew⟩ := hnew
        rcases sysOpen_trunc 0o644 anew_renameFlags hre.sound (hre.names.2 hnew) with
          ⟨d, s₁, dirty, hwritable, hem, he⟩ | ⟨hnot, hrc, hsame⟩
        · refine .inr ⟨cs, ds, i, n, d, s₁, dirty, ⟨hold, hnew, hr, writable_setFd.1 hwritable⟩, hem, fun fuel => ?_⟩
          rw [rename, if_neg hnull, hopen']
          dsimp only
          rw [if_neg hpos, he, handOut]
          cases freeFd s₁.proc with
          | none => exact if_pos hneg
          | some j => exact if_neg (show ¬ (j : ℤ) < 0 by omega)
        · refine .inl ⟨hfails (Prod.ext (hsame (.inr (creatorMay_rename _))) hrc), fun cs' ds' i' n' d' h => ?_⟩
          obtain rfl := hnew.unique h.hnew
          exact hnot ⟨d', writable_setFd.2 h.write⟩
      · refine .inl ⟨hfails (sysOpen_of_nameless (fun h => hnew ?_) _ _), fun cs' ds' i' n' d' h => hnew ⟨ds', h.hnew⟩⟩
        obtain ⟨ds, hds⟩ := h
        exact ⟨ds, hre.names.1 hds⟩
    · refine .inl ⟨hclosed ?_, fun cs' ds' i' n' d' h => ?_⟩
      · rw [rename, if_neg hnull, hopen]
        exact if_pos hneg
      · obtain rfl := hold.unique h.hold
        exact hnot ⟨n', i', h.read⟩
  · refine .inl ⟨hclosed ?_, fun cs' ds' i' n' d' h => hold ⟨cs', h.hold⟩⟩
    rw [rename, if_neg hnull, sysOpen_of_nameless hold]
    exact if_pos hneg

/-! ### Both paths are open -/

theorem writable_cases (hnew : Names k new ds) (h : Writable k new ds renameFlags 0o644 d) :
    walk k.vfs rootNode ds = some d ∨
      walk k.vfs rootNode ds = none ∧ MayUnlink k.vfs k.proc ds ∧ d = k.vfs.nodeCount := by
  rcases h.may with ⟨hw, -⟩ | ⟨hcreates, -, hd⟩
  · exact .inl hw
  · have hmiss := hcreates.missing
    rw [vfsLookup_pathString _ hnew.proper (by decide)] at hmiss
    refine .inr ⟨hmiss, ?_, hd⟩
    rcases List.eq_nil_or_concat' ds with rfl | ⟨pc, x, rfl⟩
    · cases hmiss
    · obtain ⟨parent, hw, hdir, hwrite, hsearch⟩ := (canCreateInParent_iff hnew.proper).1 hcreates.parent
      exact ⟨pc, x, parent, rfl, hw, hdir, hcreates.unprotected, hwrite, hsearch⟩

theorem BothOpen.unique {cs' ds' : List (List Byte)} {i' n' d' : ℕ} (h : BothOpen k old new cs ds i n d)
    (h' : BothOpen k old new cs' ds' i' n' d') : cs' = cs ∧ ds' = ds ∧ i' = i ∧ n' = n ∧ d' = d := by
  obtain rfl := h.hold.unique h'.hold
  obtain rfl := h.hnew.unique h'.hnew
  refine ⟨rfl, rfl, Option.some.inj (h'.read.slot.symm.trans h.read.slot),
    Option.some.inj (h'.read.found.symm.trans h.read.found), ?_⟩
  rcases writable_cases h.hnew h.write with hw | ⟨hw, -, hd⟩ <;>
    rcases writable_cases h.hnew h'.write with hw' | ⟨hw', -, hd'⟩
  · exact Option.some.inj (hw'.symm.trans hw)
  · rw [hw] at hw'
    cases hw'
  · rw [hw] at hw'
    cases hw'
  · rw [hd, hd']

theorem renameWhen_iff (h : BothOpen k old new cs ds i n d) :
    RenameWhen dev old new k ↔ RenameOk dev k cs ds n d := by
  constructor
  · exact fun hwhen => hwhen cs ds i n d h.hold h.hnew h.read h.write
  · intro hok cs' ds' i' n' d' hold' hnew' hread' hwrite'
    obtain ⟨rfl, rfl, rfl, rfl, rfl⟩ := h.unique ⟨hold', hnew', hread', hwrite'⟩
    exact hok

/-- What the loop has made of node `d`, when it is not also the source: everything, or a part. -/
structure LoopEnd (dev : Sys.Devices) (k k' : Kernel) (ds : List (List Byte)) (n d : ℕ) (ok : Bool) : Prop where
  rewrote : Rewrote d k k'
  found : walk k'.vfs rootNode ds = some d
  not_dir : (k'.vfs.nodes d).type ≠ .dir
  made : ok = true ↔ Copies dev k n d (walk k.vfs rootNode ds = none)
  all : ok = true → (k'.vfs.nodes d).type = .file → contents (k'.vfs.nodes d) = contents (k.vfs.nodes n)
  part : ok = false → (k'.vfs.nodes d).type = .file → ∀ bytes, Stopped dev k n bytes ↔ contents (k'.vfs.nodes d) = bytes
  special : (k'.vfs.nodes d).type ≠ .file → walk k.vfs rootNode ds = some d ∧
    contents (k'.vfs.nodes d) = contents (k.vfs.nodes d)

theorem LoopEnd.unharmed_iff (hs : Sound k.vfs) (he : LoopEnd dev k k' ds n d ok) :
    Unharmed k k' ds d ↔ walk k.vfs rootNode ds = some d ∧
      ((k.vfs.nodes d).type = .file → contents (k'.vfs.nodes d) = contents (k.vfs.nodes d)) := by
  refine and_congr_right fun hw => ⟨fun h _ => h, fun h => ?_⟩
  have htype := (he.rewrote.attrs d (hs.lt hw)).1
  by_cases hfile : (k'.vfs.nodes d).type = .file
  · exact h (htype.symm.trans hfile)
  · exact (he.special hfile).2

theorem renameOk_iff (hroom : (secondFd k.proc).isSome) (hdev : (k.vfs.nodes n).type ≠ .dev)
    (hdiff : ¬ (d = n ∧ (k.vfs.nodes n).type = .file)) :
    RenameOk dev k cs ds n d ↔
      (Copies dev k n d (walk k.vfs rootNode ds = none) →
        (MayUnlink k.vfs k.proc cs ∧ (walk k.vfs rootNode ds = some d → (k.vfs.nodes d).type = .file)) ∨
          (¬ MayUnlink k.vfs k.proc cs ∧ Intact k ds d (contents (k.vfs.nodes n)))) ∧
      (¬ Copies dev k n d (walk k.vfs rootNode ds = none) →
        walk k.vfs rootNode ds = none ∨ (¬ MayUnlink k.vfs k.proc ds ∧ walk k.vfs rootNode ds = some d ∧
          ((k.vfs.nodes d).type = .file → Stopped dev k n (contents (k.vfs.nodes d))))) := by
  have hnone : secondFd k.proc ≠ none := fun e => by
    rw [e] at hroom
    cases hroom
  constructor
  · exact fun h => ⟨h.copied hroom hdiff, h.stopped hroom hdiff⟩
  · exact fun h => ⟨fun e => absurd e hnone, fun _ => hdev, fun _ e hfile => absurd ⟨e, hfile⟩ hdiff,
      fun _ _ => h.1, fun _ _ => h.2⟩

/-- **The law, once the loop has ended**, for two nodes. -/
theorem renamePost_iff (hs : Sound k.vfs) (h : BothOpen k old new cs ds i n d) (hroom : (secondFd k.proc).isSome)
    (hdev : (k.vfs.nodes n).type ≠ .dev) (hdiff : ¬ (d = n ∧ (k.vfs.nodes n).type = .file))
    (he : LoopEnd dev k k' ds n d ok) (a b : ℤ) :
    RenamePost old new k (finish old new a b k' ok) ↔ RenameOk dev k cs ds n d := by
  have htype (hw : walk k.vfs rootNode ds = some d) : (k'.vfs.nodes d).type = (k.vfs.nodes d).type :=
    (he.rewrote.attrs d (hs.lt hw)).1
  rw [renameOk_iff hroom hdev hdiff]
  cases ok with
  | true =>
    have hcopies := he.made.1 rfl
    rw [renamePost_finish_true hs h.hold h.read hcopies.1 h.hnew he.rewrote he.found he.not_dir]
    by_cases hmay : MayUnlink k.vfs k.proc cs
    · constructor
      · rintro ⟨hpost, -⟩
        obtain ⟨-, hfile, -⟩ := hpost hmay
        exact ⟨fun _ => .inl ⟨hmay, fun hw => (htype hw).symm.trans hfile⟩, fun hnot => absurd hcopies hnot⟩
      · rintro ⟨hok, -⟩
        obtain ⟨-, hexists⟩ := (hok hcopies).resolve_right fun e => e.1 hmay
        refine ⟨fun _ => ?_, fun e => absurd hmay e⟩
        have hfile : (k'.vfs.nodes d).type = .file := by
          by_contra hspecial
          obtain ⟨hw, -⟩ := he.special hspecial
          exact hspecial ((htype hw).trans (hexists hw))
        refine ⟨?_, hfile, he.all rfl hfile⟩
        rintro rfl
        exact hdiff ⟨rfl, (he.rewrote.attrs d (hs.lt h.read.found)).1.symm.trans hfile⟩
    · have hintact : Unharmed k k' ds d ↔ Intact k ds d (contents (k.vfs.nodes n)) := by
        rw [he.unharmed_iff hs, Intact]
        refine and_congr_right fun hw => forall_congr' fun hfile => ?_
        rw [he.all rfl ((htype hw).trans hfile), eq_comm]
      rw [hintact]
      constructor
      · exact fun hpost => ⟨fun _ => .inr ⟨hmay, hpost.2 hmay⟩, fun hnot => absurd hcopies hnot⟩
      · exact fun hok => ⟨fun e => absurd e hmay, fun _ => ((hok.1 hcopies).resolve_left fun e => hmay e.1).2⟩
  | false =>
    have hcopies : ¬ Copies dev k n d (walk k.vfs rootNode ds = none) := fun e => by cases he.made.2 e
    have hmade (hnone : walk k.vfs rootNode ds = none) : MayUnlink k.vfs k.proc ds := by
      rcases writable_cases h.hnew h.write with hw | ⟨-, hmay, -⟩
      · rw [hnone] at hw
        cases hw
      · exact hmay
    rw [renamePost_finish_false hs h.hold h.read.found h.hnew h.write.ptr hmade he.rewrote he.found he.not_dir,
      he.unharmed_iff hs]
    have hpart (hw : walk k.vfs rootNode ds = some d) :
        ((k.vfs.nodes d).type = .file → contents (k'.vfs.nodes d) = contents (k.vfs.nodes d)) ↔
          ((k.vfs.nodes d).type = .file → Stopped dev k n (contents (k.vfs.nodes d))) := by
      refine forall_congr' fun hfile => ?_
      rw [he.part rfl ((htype hw).trans hfile)]
    rw [and_congr_right hpart]
    exact ⟨fun hpost => ⟨fun e => absurd e hcopies, fun _ => hpost⟩, fun hok => hok.2 hcopies⟩

/-! ### What the loop starts from -/

/-- Both descriptors are there. -/
structure Opened (k k' : Kernel) (ds : List (List Byte)) (i j n d : ℕ) : Prop where
  rewrote : Rewrote d k k'
  fds : i ≠ j
  read : ∃ f, ReadFd k' i n f ∧ f.offset = 0
  write : ∃ g, WriteFd k' j d g ∧ g.offset = 0
  found : walk k'.vfs rootNode ds = some d
  not_dir : (k'.vfs.nodes d).type ≠ .dir
  empty : (k'.vfs.nodes d).type = .file → contents (k'.vfs.nodes d) = [] ∧ (k'.vfs.nodes d).size = 0
  special : (k'.vfs.nodes d).type ≠ .file → walk k.vfs rootNode ds = some d ∧
    contents (k'.vfs.nodes d) = contents (k.vfs.nodes d)

theorem opened_of_emptied (hs : Sound k.vfs) (hr : Readable k old cs n i)
    (hem : Emptied (k.setFd i (openedFd k n 0 i)) s₁ ds d) (hfree : freeFd s₁.proc = some j) (dirty : Bool) :
    Opened k (s₁.setFd j (anewFd renameFlags d dirty)) ds i j n d := by
  obtain ⟨hlo, hhi, -⟩ := freeFd_eq_some hr.slot
  obtain ⟨-, -, hunused⟩ := freeFd_eq_some hfree
  have hne : i ≠ j := by
    rintro rfl
    rw [hem.proc, Kernel.setFd_fds_self] at hunused
    cases hunused
  have hread : ReadFd (k.setFd i (openedFd k n 0 i)) i n (openedFd k n 0 i) := by
    refine ⟨hlo, processGetFd_eq_some.2 ⟨by omega, by omega, ?_, ?_⟩, has_zero _, rfl⟩
    · rw [Int.toNat_natCast, Kernel.setFd_fds_self]
      rfl
    · rw [Int.toNat_natCast, Kernel.setFd_fds_self]
  have hproc : (s₁.setFd j (anewFd renameFlags d dirty)).proc =
      (k.setFd i (openedFd k n 0 i)).proc.setFd j (anewFd renameFlags d dirty) := by
    rw [Kernel.setFd, hem.proc]
  have hoffset : (openedFd k n 0 i).offset = 0 := by
    rw [openedFd, has_zero]
    rfl
  refine ⟨?_, hne, ⟨_, readFd_of_ne hread hproc hne, hoffset⟩,
    ⟨_, writeFd_handOut anew_renameFlags (.inl (by decide)) hfree d dirty, rfl⟩, hem.found, hem.not_dir, hem.empty,
    hem.kept⟩
  exact ((Rewrote.refl hs d).setFd i _).trans (hem.rewrote.setFd j _)

theorem Opened.reading (h : Opened k k' ds i j n d) (hn : n < k.vfs.nodeCount)
    (hdir : (k.vfs.nodes n).type ≠ .dir) (hdev : (k.vfs.nodes n).type ≠ .dev)
    (hdiff : ¬ (d = n ∧ (k.vfs.nodes n).type = .file)) : Reading k k' i j n d 0 := by
  have htype := (h.rewrote.attrs n hn).1
  obtain ⟨f, hf, hoffset⟩ := h.read
  refine ⟨h.rewrote, h.fds, ⟨?_, ?_⟩, ?_, f, hf, by omega⟩
  · rw [htype]
    exact hdir
  · rw [htype]
    exact hdev
  · by_cases hne : n = d
    · subst hne
      exact (h.special fun e => hdiff ⟨rfl, htype.symm.trans e⟩).2
    · rw [contents, contents, (h.rewrote.data n hn hne).1]

variable (dev) in
/-- **The loop ends.** -/
theorem loop_ends (buf : Buffer) (hs : Sound k.vfs) (hn : n < k.vfs.nodeCount) (h : Opened k k' ds i j n d)
    (hmade : walk k.vfs rootNode ds = some d ∨ walk k.vfs rootNode ds = none)
    (hdev : (k.vfs.nodes n).type ≠ .dev) (hdiff : ¬ (d = n ∧ (k.vfs.nodes n).type = .file)) :
    ∃ fuel k₃ ok, copyLoop dev buf i j fuel k' = some (k₃, ok) ∧ LoopEnd dev k k₃ ds n d ok := by
  have htype (hw : walk k.vfs rootNode ds = some d) : (k'.vfs.nodes d).type = (k.vfs.nodes d).type :=
    (h.rewrote.attrs d (hs.lt hw)).1
  by_cases hdir : (k.vfs.nodes n).type = .dir
  · -- a directory cannot be read
    obtain ⟨f, hf, -⟩ := h.read
    have hread := sysRead_dir dev hf ((h.rewrote.attrs n hn).1.trans hdir) buf.addr 512
    have hneg : (-1 : ℤ) < 0 := by decide
    refine ⟨1, k', false, ?_, h.rewrote, h.found, h.not_dir, iff_of_false Bool.false_ne_true fun e => e.1 hdir,
      fun e => absurd e Bool.false_ne_true, fun _ hfile bytes => ?_, h.special⟩
    · rw [copyLoop, hread, Option.bind_some, if_pos hneg]
    · rw [(h.empty hfile).1]
      exact ⟨fun hb => (hb.resolve_right fun e => e.1 hdir).2.symm, fun hb => .inl ⟨hdir, hb.symm⟩⟩
  have hreading := h.reading hn hdir hdev hdiff
  obtain ⟨g, hg, hoffset⟩ := h.write
  by_cases hfile : (k'.vfs.nodes d).type = .file
  · have hne : n ≠ d := by
      rintro rfl
      exact hdiff ⟨rfl, (h.rewrote.attrs n hn).1.symm.trans hfile⟩
    obtain ⟨hempty, hzero⟩ := h.empty hfile
    obtain ⟨fuel, k₃, ok, hloop, hre, hre', hfilled⟩ := copyLoop_file dev buf (m := 0) hreading
      { hg with
        file := hfile
        offset := hoffset.trans hzero.symm } (hn.trans_le h.rewrote.count) hne (by rw [hempty, Nat.mul_zero, List.take_zero])
    have htype₃ : (k₃.vfs.nodes d).type = (k'.vfs.nodes d).type :=
      (hre'.attrs d (h.rewrote.sound.lt h.found)).1
    have hfresh : walk k.vfs rootNode ds = none ∨ (k.vfs.nodes d).type = .file :=
      hmade.symm.imp_right fun hw => (htype hw).symm.trans hfile
    refine ⟨fuel, k₃, ok, hloop, hre, hre'.walk ds d h.found, fun e => h.not_dir (htype₃.symm.trans e), ?_,
      fun hok _ => hfilled.all hok, fun hok _ bytes => ?_, fun hspecial => absurd (htype₃.trans hfile) hspecial⟩
    · rw [hfilled.ok_iff]
      exact ⟨fun hall => ⟨hdir, fun _ => hall, fun e => absurd hfresh e⟩, fun hcopies => hcopies.2.1 hfresh⟩
    · rw [Stopped, or_iff_right fun e => hdir e.1, and_iff_right hdir]
      exact hfilled.part hok bytes
  · obtain ⟨fuel, k₃, ok, hloop, hvfs, hre, hok⟩ := copyLoop_special dev buf hreading hg hfile
    obtain ⟨hw, hkept⟩ := h.special hfile
    have hold : (k.vfs.nodes d).type ≠ .file := fun e => hfile ((htype hw).trans e)
    have hname := (h.rewrote.attrs d (hs.lt hw)).2.2.2.2
    rw [Nat.mul_zero, Nat.sub_zero, accepts_congr (htype hw) hname] at hok
    refine ⟨fuel, k₃, ok, hloop, hre, ?_, ?_, ?_, ?_, ?_, ?_⟩
    · rw [hvfs]
      exact h.found
    · rw [hvfs]
      exact h.not_dir
    · rw [hok]
      have hnot : ¬ (walk k.vfs rootNode ds = none ∨ (k.vfs.nodes d).type = .file) := by
        rw [hw]
        exact not_or.2 ⟨Option.some_ne_none d, hold⟩
      exact ⟨fun hall => ⟨hdir, fun e => absurd e hnot, fun _ => hall⟩, fun hcopies => hcopies.2.2 hnot⟩
    · rw [hvfs]
      exact fun _ e => absurd e hfile
    · rw [hvfs]
      exact fun _ e => absurd e hfile
    · rw [hvfs]
      exact h.special

/-! ### When the law holds -/

theorem secondFd_eq (hr : Readable k old cs n i) (hem : Emptied (k.setFd i (openedFd k n 0 i)) s₁ ds d) :
    secondFd k.proc = freeFd s₁.proc := by
  rw [secondFd, hr.slot, Option.bind_some, hem.proc]
  refine freeFd_congr fun j => ?_
  by_cases hj : j = i
  · subst hj
    rw [Process.setFd_self, Kernel.setFd_fds_self]
    rfl
  · rw [Process.setFd_of_ne _ _ hj, Kernel.setFd_fds_of_ne _ _ hj]

theorem renamePost_alone (hs : Sound k.vfs) (h : BothOpen k old new cs ds i n d)
    (hem : Emptied (k.setFd i (openedFd k n 0 i)) s₁ ds d) (hnone : secondFd k.proc = none) :
    RenamePost old new k ((sysClose s₁ i).1, -1) ↔ RenameOk dev k cs ds n d := by
  have hre : Rewrote d k (sysClose s₁ i).1 := (((Rewrote.refl hs d).setFd i _).trans hem.rewrote).close i
  have hvfs := vfs_sysClose s₁ i
  have hfound : walk (sysClose s₁ i).1.vfs rootNode ds = some d := by rw [hvfs, hem.found]
  have hpost : RenamePost old new k ((sysClose s₁ i).1, -1) ↔ Unharmed k (sysClose s₁ i).1 ds d := by
    rw [← kept_iff hs h.hold h.hnew h.read.found hre hfound]
    exact ⟨fun e => e.stayed rfl, fun e => ⟨fun h0 => absurd (show (-1 : ℤ) = 0 from h0) (by decide), fun _ => e⟩⟩
  have hok : RenameOk dev k cs ds n d ↔ Intact k ds d [] := by
    refine ⟨fun e => e.alone hnone, fun e => ⟨fun _ => e, ?_, ?_, ?_, ?_⟩⟩ <;>
      exact fun hsome => absurd hsome (by rw [hnone]; decide)
  rw [hpost, hok, Unharmed, Intact, hvfs]
  refine and_congr_right fun hw => ?_
  have htype : (s₁.vfs.nodes d).type = (k.vfs.nodes d).type := by
    rw [← hvfs]
    exact (hre.attrs d (hs.lt hw)).1
  by_cases hfile : (s₁.vfs.nodes d).type = .file
  · rw [(hem.empty hfile).1]
    exact ⟨fun e _ => e.symm, fun e => (e (htype.symm.trans hfile)).symm⟩
  · exact iff_of_true (hem.kept hfile).2 fun e => absurd (htype.trans e) hfile

variable (dev buf) in
theorem renameLaw_same (hs : Sound k.vfs) (h : BothOpen k old new cs ds i n n) (hopened : Opened k k' ds i j n n)
    (hroom : (secondFd k.proc).isSome) (hfile : (k.vfs.nodes n).type = .file) :
    ∃ k₁, copyLoop dev buf i j 1 k' = some (k₁, true) ∧
      (RenamePost old new k (finish old new i j k₁ true) ↔ RenameOk dev k cs ds n n) := by
  have hlt := hs.lt h.read.found
  have hdir : (k.vfs.nodes n).type ≠ .dir := by
    rw [hfile]
    decide
  have hdev : (k.vfs.nodes n).type ≠ .dev := by
    rw [hfile]
    decide
  have htype := (hopened.rewrote.attrs n hlt).1
  have hempty := (hopened.empty (htype.trans hfile)).1
  obtain ⟨f, hf, hoffset⟩ := hopened.read
  have hreading : Reading k' k' i j n n 0 :=
    ⟨.refl hopened.rewrote.sound n, hopened.fds, ⟨hopened.not_dir, by rw [htype]; exact hdev⟩, rfl, f, hf, by omega⟩
  obtain ⟨k₁, f', hread, hvfs, -, hnext⟩ := hreading.read_chunk dev buf
  rw [hempty] at hread
  have hre : Rewrote n k k₁ := hopened.rewrote.trans hnext.rewrote
  have hfound : walk k₁.vfs rootNode ds = some n := by rw [hvfs, hopened.found]
  have hw : walk k.vfs rootNode ds = some n := by
    rcases writable_cases h.hnew h.write with hw | ⟨-, -, hd⟩
    · exact hw
    · omega
  refine ⟨k₁, copyLoop_end hread 0, ?_⟩
  have hok : RenameOk dev k cs ds n n ↔ contents (k.vfs.nodes n) = [] ∧ ¬ MayUnlink k.vfs k.proc cs := by
    have hnone : secondFd k.proc ≠ none := fun e => by
      rw [e] at hroom
      cases hroom
    exact ⟨fun e => e.same hroom rfl hfile, fun e => ⟨fun e' => absurd e' hnone, fun _ => hdev, fun _ _ _ => e,
      fun _ e' => absurd ⟨rfl, hfile⟩ e', fun _ e' => absurd ⟨rfl, hfile⟩ e'⟩⟩
  rw [renamePost_finish_true hs h.hold h.read hdir h.hnew hre hfound (by rw [hvfs]; exact hopened.not_dir), hok,
    Unharmed, hvfs, hempty]
  constructor
  · rintro ⟨hmay, hnot⟩
    have hno : ¬ MayUnlink k.vfs k.proc cs := fun e => (hmay e).1 rfl
    exact ⟨(hnot hno).2.symm, hno⟩
  · rintro ⟨hnil, hno⟩
    exact ⟨fun e => absurd e hno, fun _ => ⟨hw, hnil.symm⟩⟩

theorem renameLaw_iff (hs : Sound k.vfs) (buf : Buffer) (h : BothOpen k old new cs ds i n d)
    (hdev : (secondFd k.proc).isSome → (k.vfs.nodes n).type ≠ .dev) :
    RenameLaw dev buf old new k ↔ RenameOk dev k cs ds n d := by
  rcases rename_opened dev hs buf old new with
    ⟨-, hclosed⟩ | ⟨cs', ds', i', n', d', s₁, dirty, h', hem, heq⟩
  · exact absurd h (hclosed cs ds i n d)
  obtain ⟨rfl, rfl, rfl, rfl, rfl⟩ := h.unique h'
  have hsecond := secondFd_eq h.read hem
  cases hfree : freeFd s₁.proc with
  | none =>
    rw [hfree] at heq hsecond
    rw [renameLaw_of_eq 0 (heq 0), renamePost_alone hs h hem hsecond]
  | some j =>
    rw [hfree] at heq hsecond
    have hroom : (secondFd k.proc).isSome := by
      rw [hsecond]
      rfl
    have hopened := opened_of_emptied hs h.read hem hfree (dirty j)
    by_cases hsame : d' = n' ∧ (k.vfs.nodes n').type = .file
    · obtain ⟨rfl, hfile⟩ := hsame
      obtain ⟨k₁, hloop, hpost⟩ := renameLaw_same dev buf hs h hopened hroom hfile
      rw [renameLaw_of_eq 1 (by rw [heq]; dsimp only; rw [hloop, Option.map_some]), hpost]
    · have hmade := (writable_cases h.hnew h.write).imp_right fun e => e.1
      obtain ⟨fuel, k₃, ok, hloop, hend⟩ :=
        loop_ends dev buf hs (hs.lt h.read.found) hopened hmade (hdev hroom) hsame
      rw [renameLaw_of_eq fuel (by rw [heq]; dsimp only; rw [hloop, Option.map_some]),
        renamePost_iff hs h hroom (hdev hroom) hsame hend]

def oneByteKernel : Kernel := { userKernel with vfs := oneByteTree }

def stackBuffer : Buffer := ⟨0x7ffffff000, by decide, by decide⟩

end Tnu.Libc
