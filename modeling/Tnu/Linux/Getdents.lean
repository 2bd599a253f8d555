/-
**Listing a directory for Linux programs.**

`linux_getdents64` of `kernel/compat/linux/syscall/linux_syscall.c` writes the entries from the offset
of the descriptor on, as records of variable length, into the caller's buffer, and moves the offset
by as many entries as it has written.  An entry that does not fit any more is left out and the next
ones are tried, so the ones that were written need not be the next ones; the library `Tnu/Lib/Fill.lean`
says when they are.

Main definitions:

* `linuxGetdentsEmit`, `linuxGetdents64` — the source.

Main results:

* `parseDirents_flatMap` — the records can be read back;
* `enumerates_iff` — **exactly when a directory is listed completely**.
-/

import Tnu.Lib.Bytes
import Tnu.Lib.Fill
import Tnu.Linux.Errno
import Tnu.Sys.Readdir

set_option autoImplicit false

namespace Tnu.Linux

open Tnu.Vfs Tnu.Sys

/-! ### The call -/

def linuxDtypeFromNode : NodeType → Byte
  | .dir => 4
  | .dev => 2
  | .file => 8
  | .proc => 8

/-- The length of the record of a name: a header of 19 bytes, the name and its terminator, rounded up
to a multiple of eight. -/
def reclen (name : List Byte) : ℕ := (19 + name.length + 1 + 7) / 8 * 8

/-- The bytes `linux_getdents_emit` stores for a node; `addr` is where the node is in memory, and
`index` its position in the directory. -/
def direntBytes (addr : ℕ → ℕ) (s : Pool) (n index : ℕ) : List Byte :=
  let name := (s.nodes n).name.chars
  Bytes.le 8 (addr n) ++ Bytes.le 8 (index + 1) ++ Bytes.le 2 (reclen name) ++
    [linuxDtypeFromNode (s.nodes n).type] ++ name ++
    List.replicate (reclen name - (19 + name.length)) 0

/-- `struct linux_dirent_ctx`; `buf` has the bytes that were written. -/
structure LinuxDirentCtx where
  buf : List Byte
  size : ℕ
  start : ℕ
  index : ℕ
  emitted : ℕ

def linuxGetdentsEmit (addr : ℕ → ℕ) (s : Pool) (ctx : LinuxDirentCtx) (n : ℕ) : LinuxDirentCtx :=
  let index := ctx.index
  let ctx := { ctx with index := index + 1 }
  if index < ctx.start then ctx
  else if ctx.size < ctx.buf.length + reclen (s.nodes n).name.chars then ctx
  else { ctx with buf := ctx.buf ++ direntBytes addr s n index, emitted := ctx.emitted + 1 }

/-- `linux_getdents64`; the last component is what it stored at `buf`.  `none` when the descriptor has
no node. -/
def linuxGetdents64 (addr : ℕ → ℕ) (s : Kernel) (fd : ℤ) (buf count : ℕ) :
    Option (Kernel × ℤ × List Byte) :=
  match processGetFd s.proc fd with
  | none => some (s, -linuxEbadf, [])
  | some file =>
    if buf = 0 ∧ 0 < count then some (s, -linuxEfault, [])
    else
      file.node.map fun d =>
        if (s.vfs.nodes d).type ≠ .dir then (s, -linuxEnotdir, [])
        else
          let ctx := (children s.vfs d).foldl (linuxGetdentsEmit addr s.vfs)
            { buf := [], size := count, start := file.offset, index := 0, emitted := 0 }
          (s.setFd fd.toNat { file with offset := file.offset + ctx.emitted }, ctx.buf.length, ctx.buf)

/-! ### What a caller reads -/

/-- `struct linux_dirent64`. -/
structure LinuxDirent where
  ino : ℕ
  off : ℕ
  reclen : ℕ
  type : Byte
  name : List Byte
  deriving DecidableEq, Repr

/-- Walking through a buffer from record to record; `none` when a record is not well formed: longer
than what is left, of a length that is no multiple of eight, or with a name that has no end. -/
def parseDirents : ℕ → List Byte → Option (List LinuxDirent)
  | 0, _ => none
  | fuel + 1, b =>
    if b = [] then some []
    else
      let r := Bytes.ofLe ((b.drop 16).take 2)
      let text := (b.take r).drop 19
      if r = 0 ∨ b.length < r ∨ r % 8 ≠ 0 ∨ 0 ∉ text then none
      else
        (parseDirents fuel (b.drop r)).map fun rest =>
          { ino := Bytes.ofLe (b.take 8), off := Bytes.ofLe ((b.drop 8).take 8), reclen := r
            type := b.getD 18 0, name := text.takeWhile (· ≠ 0) } :: rest

/-- Calls with buffers of these sizes until one returns `0`, and what they stored; `none` when one
fails, or none returns `0` in as many calls. -/
def readAll (addr : ℕ → ℕ) (fd : ℤ) (buf : ℕ) : ℕ → (ℕ → ℕ) → Kernel → Option (List Byte)
  | 0, _, _ => none
  | fuel + 1, sizes, s =>
    match linuxGetdents64 addr s fd buf (sizes 0) with
    | none => none
    | some (s', rc, bytes) =>
      if rc < 0 then none
      else if rc = 0 then some []
      else (readAll addr fd buf fuel (fun i => sizes (i + 1)) s').map fun rest => bytes ++ rest

/-! ### The records -/

variable {addr : ℕ → ℕ} {s : Pool} {d n index : ℕ}

theorem reclen_spec (name : List Byte) : 19 + name.length < reclen name ∧ reclen name % 8 = 0 ∧
    reclen name ≤ name.length + 27 := by
  rw [reclen]
  omega

@[simp] theorem length_direntBytes (addr : ℕ → ℕ) (s : Pool) (n index : ℕ) :
    (direntBytes addr s n index).length = reclen (s.nodes n).name.chars := by
  have hlt := (reclen_spec (s.nodes n).name.chars).1
  simp only [direntBytes, List.length_append, Bytes.length_le, List.length_cons, List.length_nil,
    List.length_replicate]
  omega

def direntOf (addr : ℕ → ℕ) (s : Pool) (n index : ℕ) : LinuxDirent where
  ino := addr n % 2 ^ 64
  off := (index + 1) % 2 ^ 64
  reclen := reclen (s.nodes n).name.chars
  type := linuxDtypeFromNode (s.nodes n).type
  name := (s.nodes n).name.chars

theorem takeWhile_append_zero {name t : List Byte} (h : 0 ∉ name) (ht : t ≠ []) (hz : ∀ b ∈ t, b = 0) :
    (name ++ t).takeWhile (· ≠ 0) = name := by
  have hpos : ∀ b ∈ name, (decide (b ≠ 0)) = true := fun b hb => by
    simpa using fun e : b = 0 => h (e ▸ hb)
  rw [List.takeWhile_append_of_pos hpos]
  cases t with
  | nil => exact absurd rfl ht
  | cons b t =>
    have hb : b = 0 := hz b (by simp)
    simp [hb]

/-- The fields of a record at the start of a buffer. -/
structure RecordAt (b : List Byte) (e : LinuxDirent) (txt more : List Byte) : Prop where
  ino : Bytes.ofLe (b.take 8) = e.ino
  off : Bytes.ofLe ((b.drop 8).take 8) = e.off
  reclen : Bytes.ofLe ((b.drop 16).take 2) = e.reclen
  type : b.getD 18 0 = e.type
  text : (b.take e.reclen).drop 19 = txt
  rest : b.drop e.reclen = more
  length : b.length = e.reclen + more.length

def direntText (name : List Byte) : List Byte :=
  name ++ List.replicate (reclen name - (19 + name.length)) 0

theorem direntBytes_eq (addr : ℕ → ℕ) (s : Pool) (n index : ℕ) :
    direntBytes addr s n index =
      Bytes.le 8 (addr n) ++ (Bytes.le 8 (index + 1) ++ (Bytes.le 2 (reclen (s.nodes n).name.chars) ++
        (linuxDtypeFromNode (s.nodes n).type :: direntText (s.nodes n).name.chars))) := by
  simp only [direntBytes, direntText, List.append_assoc, List.cons_append, List.nil_append]

theorem recordAt_direntBytes (addr : ℕ → ℕ) (s : Pool) (n index : ℕ) (rest : List Byte) :
    RecordAt (direntBytes addr s n index ++ rest) (direntOf addr s n index)
      (direntText (s.nodes n).name.chars) rest := by
  have hlen63 : (s.nodes n).name.chars.length ≤ 63 := (s.nodes n).name.length_le
  obtain ⟨hlt, -, hle⟩ := reclen_spec (s.nodes n).name.chars
  have hlen := length_direntBytes addr s n index
  have hword : (256 : ℕ) ^ 8 = 2 ^ 64 := by norm_num
  have hdrop16 : (direntBytes addr s n index).drop 16 =
      Bytes.le 2 (reclen (s.nodes n).name.chars) ++
        (linuxDtypeFromNode (s.nodes n).type :: direntText (s.nodes n).name.chars) := by
    rw [direntBytes_eq, ← List.append_assoc, List.drop_left' (by simp)]
  have hdrop18 : (direntBytes addr s n index).drop 18 =
      linuxDtypeFromNode (s.nodes n).type :: direntText (s.nodes n).name.chars := by
    rw [← List.drop_drop (i := 2) (j := 16), hdrop16, List.drop_left' (Bytes.length_le 2 _)]
  constructor
  · rw [direntBytes_eq, List.append_assoc, List.take_left' (Bytes.length_le 8 _), Bytes.ofLe_le, hword,
      direntOf]
  · rw [direntBytes_eq, List.append_assoc, List.drop_left' (Bytes.length_le 8 _), List.append_assoc,
      List.take_left' (Bytes.length_le 8 _), Bytes.ofLe_le, hword, direntOf]
  · rw [List.drop_append_of_le_length (by omega), hdrop16, List.append_assoc,
      List.take_left' (Bytes.length_le 2 _), Bytes.ofLe_le, Nat.mod_eq_of_lt (by omega), direntOf]
  · rw [List.getD_eq_getElem?_getD, List.getElem?_append_left (by omega), ← List.head?_drop, hdrop18]
    rfl
  · rw [direntOf, List.take_left' hlen, ← List.drop_drop (i := 1) (j := 18), hdrop18, List.drop_one,
      List.tail_cons]
  · rw [direntOf, List.drop_left' hlen]
  · rw [List.length_append, hlen, direntOf]

/-- **A record can be read back**, whatever follows. -/
theorem parseDirents_cons (addr : ℕ → ℕ) (s : Pool) (n index fuel : ℕ) (rest : List Byte) :
    parseDirents (fuel + 1) (direntBytes addr s n index ++ rest) =
      (parseDirents fuel rest).map fun l => direntOf addr s n index :: l := by
  obtain ⟨hlt, hmod, -⟩ := reclen_spec (s.nodes n).name.chars
  have hrec := recordAt_direntBytes addr s n index rest
  have hlen : (direntOf addr s n index).reclen = reclen (s.nodes n).name.chars := rfl
  have hz : (0 : Byte) ∈ List.replicate (reclen (s.nodes n).name.chars -
      (19 + (s.nodes n).name.chars.length)) (0 : Byte) := List.mem_replicate.2 ⟨by omega, rfl⟩
  have hzero : (0 : Byte) ∈ direntText (s.nodes n).name.chars := List.mem_append_right _ hz
  have htake : (direntText (s.nodes n).name.chars).takeWhile (· ≠ 0) = (s.nodes n).name.chars :=
    takeWhile_append_zero (s.nodes n).name.nul_free (List.ne_nil_of_mem hz)
      fun b hb => List.eq_of_mem_replicate hb
  have hne : direntBytes addr s n index ++ rest ≠ [] := by
    rw [← List.length_pos_iff, hrec.length]
    omega
  have hok : ¬ ((direntOf addr s n index).reclen = 0 ∨
      (direntBytes addr s n index ++ rest).length < (direntOf addr s n index).reclen ∨
      (direntOf addr s n index).reclen % 8 ≠ 0 ∨ 0 ∉ direntText (s.nodes n).name.chars) := by
    rw [hrec.length]
    simp only [hzero, not_true_eq_false, or_false]
    omega
  rw [parseDirents, if_neg hne, hrec.reclen]
  dsimp only
  rw [hrec.text, if_neg hok, hrec.rest, hrec.ino, hrec.off, hrec.type, htake]
  rfl

/-! ### One call -/

def entries (s : Pool) (d : ℕ) : List (ℕ × ℕ) := (children s d).zipIdx

def entrySize (s : Pool) (e : ℕ × ℕ) : ℕ := reclen (s.nodes e.1).name.chars

def entryBytes (addr : ℕ → ℕ) (s : Pool) (e : ℕ × ℕ) : List Byte := direntBytes addr s e.1 e.2

abbrev taken (s : Pool) (size used : ℕ) (l : List (ℕ × ℕ)) : List (ℕ × ℕ) :=
  Fill.kept (entrySize s) (size + 1) used l

/-- **The buffer is filled with the records that fit**, from the start on. -/
theorem foldl_emit (addr : ℕ → ℕ) (s : Pool) : ∀ (l : List ℕ) (ctx : LinuxDirentCtx),
    l.foldl (linuxGetdentsEmit addr s) ctx =
      { ctx with
        index := ctx.index + l.length
        emitted := ctx.emitted + (taken s ctx.size ctx.buf.length
          ((l.zipIdx ctx.index).drop (ctx.start - ctx.index))).length
        buf := ctx.buf ++ (taken s ctx.size ctx.buf.length
          ((l.zipIdx ctx.index).drop (ctx.start - ctx.index))).flatMap (entryBytes addr s) } := by
  intro l
  induction l with
  | nil => intro ctx; simp [Fill.kept]
  | cons n l ih =>
    intro ctx
    rw [List.foldl_cons, ih, List.zipIdx_cons]
    by_cases hskip : ctx.index < ctx.start
    · -- before the start nothing is written
      have hstep : linuxGetdentsEmit addr s ctx n = { ctx with index := ctx.index + 1 } := by
        simp only [linuxGetdentsEmit, if_pos hskip]
      have hdrop : ctx.start - ctx.index = ctx.start - (ctx.index + 1) + 1 := by omega
      rw [hstep, hdrop, List.drop_succ_cons]
      simp only [List.length_cons]
      congr 1
      omega
    · have hzero : ctx.start - ctx.index = 0 := by omega
      have hzero' : ctx.start - (ctx.index + 1) = 0 := by omega
      rw [hzero, List.drop_zero]
      by_cases hfull : ctx.size < ctx.buf.length + reclen (s.nodes n).name.chars
      · have hstep : linuxGetdentsEmit addr s ctx n = { ctx with index := ctx.index + 1 } := by
          simp only [linuxGetdentsEmit, if_neg hskip, if_pos hfull]
        have hkept : taken s ctx.size ctx.buf.length ((n, ctx.index) :: l.zipIdx (ctx.index + 1)) =
            taken s ctx.size ctx.buf.length (l.zipIdx (ctx.index + 1)) := by
          rw [taken, Fill.kept, if_neg (by simp only [entrySize]; omega)]
        rw [hstep, hkept]
        simp only [hzero', List.drop_zero, List.length_cons]
        congr 1
        omega
      · have hstep : linuxGetdentsEmit addr s ctx n =
            { ctx with index := ctx.index + 1, buf := ctx.buf ++ direntBytes addr s n ctx.index
                       emitted := ctx.emitted + 1 } := by
          simp only [linuxGetdentsEmit, if_neg hskip, if_neg hfull]
        have hkept : taken s ctx.size ctx.buf.length ((n, ctx.index) :: l.zipIdx (ctx.index + 1)) =
            (n, ctx.index) :: taken s ctx.size (ctx.buf.length + reclen (s.nodes n).name.chars)
              (l.zipIdx (ctx.index + 1)) := by
          rw [taken, Fill.kept, if_pos (by simp only [entrySize]; omega)]
          rfl
        rw [hstep, hkept]
        simp only [hzero', List.drop_zero, List.length_cons, List.length_append, length_direntBytes,
          List.flatMap_cons, List.append_assoc, entryBytes]
        congr 1
        · omega
        · omega

/-- **One call** on a directory: the records that fit, from the offset on. -/
theorem linuxGetdents64_eq {k : Kernel} {fd : ℤ} {buf count : ℕ} (h : OnDir k fd d)
    (hdir : (k.vfs.nodes d).type = .dir) (hbuf : buf ≠ 0) :
    linuxGetdents64 addr k fd buf count =
      let f := k.proc.fds fd.toNat
      let out := taken k.vfs count 0 ((entries k.vfs d).drop f.offset)
      some (k.setFd fd.toNat { f with offset := f.offset + out.length },
        ((out.flatMap (entryBytes addr k.vfs)).length : ℤ), out.flatMap (entryBytes addr k.vfs)) := by
  rw [linuxGetdents64, h.slot]
  simp only
  rw [if_neg fun hn => hbuf hn.1, h.node, Option.map_some, if_neg fun hn => hn hdir, foldl_emit]
  simp only [List.length_nil, List.nil_append, Nat.zero_add, Nat.sub_zero, entries]

theorem parseDirents_flatMap (addr : ℕ → ℕ) (s : Pool) : ∀ (l : List (ℕ × ℕ)) {fuel : ℕ},
    l.length < fuel → parseDirents fuel (l.flatMap (entryBytes addr s)) =
      some (l.map fun e => direntOf addr s e.1 e.2) := by
  intro l
  induction l with
  | nil =>
    intro fuel hfuel
    obtain ⟨fuel, rfl⟩ := Nat.exists_eq_add_of_lt hfuel
    simp [parseDirents]
  | cons e l ih =>
    intro fuel hfuel
    obtain ⟨fuel, rfl⟩ : ∃ m, fuel = m + 1 := ⟨fuel - 1, by omega⟩
    simp only [List.length_cons] at hfuel
    rw [List.flatMap_cons, entryBytes, parseDirents_cons, ih (by omega), Option.map_some,
      List.map_cons]

/-! ### All the calls -/

variable {k : Kernel} {fd : ℤ} {buf : ℕ} {sizes : ℕ → ℕ}

def capsOf (sizes : ℕ → ℕ) : ℕ → ℕ := fun i => sizes i + 1

def TakesEach (s : Pool) (d : ℕ) (sizes : ℕ → ℕ) : Prop :=
  ∀ i, ∀ n ∈ children s d, reclen (s.nodes n).name.chars ≤ sizes i

theorem lt_capsOf (h : TakesEach s d sizes) (i : ℕ) {e : ℕ × ℕ} (he : e ∈ entries s d) :
    entrySize s e < capsOf sizes i :=
  Nat.lt_succ_of_le (h i e.1 (List.fst_mem_of_mem_zipIdx he))

theorem length_flatMap_ge (addr : ℕ → ℕ) (s : Pool) (l : List (ℕ × ℕ)) :
    l.length ≤ (l.flatMap (entryBytes addr s)).length := by
  induction l with
  | nil => exact Nat.zero_le _
  | cons e l ih =>
    have hpos := (reclen_spec (s.nodes e.1).name.chars).1
    rw [List.flatMap_cons, List.length_append, entryBytes, length_direntBytes, List.length_cons]
    omega

/-- **What the calls store**: what is fetched buffer by buffer. -/
theorem readAll_eq (addr : ℕ → ℕ) (hbuf : buf ≠ 0) : ∀ {fuel : ℕ} {sizes : ℕ → ℕ} {k : Kernel}, OnDir k fd d →
    (k.vfs.nodes d).type = .dir → TakesEach k.vfs d sizes →
    ((entries k.vfs d).drop (k.proc.fds fd.toNat).offset).length < fuel →
      readAll addr fd buf fuel sizes k =
        some ((Fill.drain (entrySize k.vfs) fuel (capsOf sizes)
          ((entries k.vfs d).drop (k.proc.fds fd.toNat).offset)).flatMap (entryBytes addr k.vfs)) := by
  intro fuel
  induction fuel with
  | zero => intro sizes k _ _ _ hlen; omega
  | succ fuel ih =>
    intro sizes k hk hdir htakes hlen
    set rest := (entries k.vfs d).drop (k.proc.fds fd.toNat).offset with hrest
    set out := taken k.vfs (sizes 0) 0 rest with hout
    set k' := k.setFd fd.toNat { k.proc.fds fd.toNat with
      offset := (k.proc.fds fd.toNat).offset + out.length } with hk'
    have hcall : linuxGetdents64 addr k fd buf (sizes 0) =
        some (k', ((out.flatMap (entryBytes addr k.vfs)).length : ℤ),
          out.flatMap (entryBytes addr k.vfs)) := linuxGetdents64_eq hk hdir hbuf
    have hge := length_flatMap_ge addr k.vfs out
    rw [readAll, hcall]
    dsimp only
    rw [if_neg (by omega)]
    by_cases hnil : rest = []
    · have hdrain := Fill.drain_subset (entrySize k.vfs) (fuel + 1) (capsOf sizes) rest
      have hempty : out = [] := by rw [hout, hnil]; rfl
      rw [hnil] at hdrain ⊢
      rw [hempty, if_pos (by rfl), List.eq_nil_of_subset_nil hdrain]
      rfl
    · have hpos : 0 < out.length := Fill.length_kept_pos hnil fun e he =>
        lt_capsOf htakes 0 (List.mem_of_mem_drop he)
      obtain ⟨h0, hlt, hused, -⟩ := processGetFd_eq_some.1 hk.slot
      have hfd : k'.proc.fds fd.toNat = { k.proc.fds fd.toNat with
        offset := (k.proc.fds fd.toNat).offset + out.length } := Kernel.setFd_fds_self ..
      have hon : OnDir k' fd d :=
        ⟨hk.wf, hk.lt, processGetFd_eq_some.2 ⟨h0, hlt, by rw [hfd]; exact hused, rfl⟩,
          by rw [hfd]; exact hk.node⟩
      have hdrop : (entries k'.vfs d).drop (k'.proc.fds fd.toNat).offset = rest.drop out.length := by
        rw [hfd, hrest, List.drop_drop]
        rfl
      have hrestpos : 0 < rest.length := List.length_pos_of_ne_nil hnil
      have hnext := @ih (fun i => sizes (i + 1)) k' hon hdir (fun i => htakes (i + 1)) (by
        rw [hdrop, List.length_drop]
        omega)
      have hcap : Fill.kept (entrySize k.vfs) (capsOf sizes 0) 0 rest = out := rfl
      rw [if_neg (by omega), hnext, hdrop, Option.map_some, Fill.drain, hcap, List.flatMap_append]
      rfl

theorem readAll_succ : ∀ {fuel : ℕ} {sizes : ℕ → ℕ} {k : Kernel} {bytes : List Byte},
    readAll addr fd buf fuel sizes k = some bytes →
      readAll addr fd buf (fuel + 1) sizes k = some bytes := by
  intro fuel
  induction fuel with
  | zero => intro sizes k bytes h; cases h
  | succ fuel ih =>
    intro sizes k bytes h
    rw [readAll] at h ⊢
    cases hcall : linuxGetdents64 addr k fd buf (sizes 0) with
    | none =>
      rw [hcall] at h
      cases h
    | some r =>
      rw [hcall] at h
      dsimp only at h ⊢
      split_ifs at h ⊢ with hneg hzero
      · exact h
      · obtain ⟨rest, hrest, rfl⟩ := Option.map_eq_some_iff.1 h
        rw [ih hrest, Option.map_some]

theorem readAll_mono {fuel fuel' : ℕ} {bytes : List Byte} (hle : fuel ≤ fuel')
    (h : readAll addr fd buf fuel sizes k = some bytes) :
    readAll addr fd buf fuel' sizes k = some bytes := by
  induction hle with
  | refl => exact h
  | step _ ih => exact readAll_succ ih

def LinuxDirent.ident (e : LinuxDirent) : ℕ × Byte × List Byte := (e.ino, e.type, e.name)

def nodeIdent (addr : ℕ → ℕ) (s : Pool) (n : ℕ) : ℕ × Byte × List Byte :=
  (addr n % 2 ^ 64, linuxDtypeFromNode (s.nodes n).type, (s.nodes n).name.chars)

/-- The calls come to one that returns `0`, and the records they have stored until then are well
formed and list every child exactly once and nothing else. -/
def Enumerates (addr : ℕ → ℕ) (k : Kernel) (fd : ℤ) (d buf : ℕ) (sizes : ℕ → ℕ) : Prop :=
  ∃ fuel bytes recs, readAll addr fd buf fuel sizes k = some bytes ∧
    parseDirents (bytes.length + 1) bytes = some recs ∧
      (recs.map LinuxDirent.ident).Perm ((children k.vfs d).map (nodeIdent addr k.vfs))

theorem entries_injOn (hs : Wf s) (hd : d < s.nodeCount) {e e' : ℕ × ℕ} (he : e ∈ entries s d)
    (he' : e' ∈ entries s d) (h : nodeIdent addr s e.1 = nodeIdent addr s e'.1) : e = e' := by
  have hname : (s.nodes e.1).name.chars = (s.nodes e'.1).name.chars :=
    (Prod.mk.inj (Prod.mk.inj h).2).2
  have hfst : e.1 = e'.1 := List.inj_on_of_nodup_map (hs.distinct d hd)
    (List.fst_mem_of_mem_zipIdx he) (List.fst_mem_of_mem_zipIdx he') hname
  refine List.inj_on_of_nodup_map ?_ he he' hfst
  rw [entries, List.zipIdx_map_fst]
  exact hs.nodup_children hd

theorem nodup_entries (hs : Wf s) (hd : d < s.nodeCount) : (entries s d).Nodup := by
  refine List.Nodup.of_map Prod.fst ?_
  rw [entries, List.zipIdx_map_fst]
  exact hs.nodup_children hd

theorem perm_entries_iff (addr : ℕ → ℕ) (hs : Wf s) (hd : d < s.nodeCount) {l : List (ℕ × ℕ)} (hl : l ⊆ entries s d) :
    (l.map fun e => nodeIdent addr s e.1).Perm ((children s d).map (nodeIdent addr s)) ↔
      l.Perm (entries s d) := by
  have hchildren : (children s d).map (nodeIdent addr s) =
      (entries s d).map fun e => nodeIdent addr s e.1 := by
    conv_lhs => rw [← List.zipIdx_map_fst 0 (children s d), List.map_map]
    rfl
  rw [hchildren]
  constructor
  · intro hperm
    have hsub : entries s d ⊆ l := by
      intro e he
      have hmem := hperm.symm.subset (List.mem_map_of_mem he)
      obtain ⟨e', he', heq⟩ := List.mem_map.1 hmem
      rw [← entries_injOn hs hd (hl he') he heq]
      exact he'
    have hlen : l.length = (entries s d).length := by simpa using hperm.length_eq
    exact (((nodup_entries hs hd).subperm hsub).perm_of_length_le hlen.le).symm
  · exact fun hperm => hperm.map _

theorem enumerates_iff_perm (addr : ℕ → ℕ) (h : OnDir k fd d) (hdir : (k.vfs.nodes d).type = .dir)
    (hoff : (k.proc.fds fd.toNat).offset = 0) (hbuf : buf ≠ 0) (htakes : TakesEach k.vfs d sizes) :
    Enumerates addr k fd d buf sizes ↔
      (Fill.drain (entrySize k.vfs) ((entries k.vfs d).length + 1) (capsOf sizes)
        (entries k.vfs d)).Perm (entries k.vfs d) := by
  set n := (entries k.vfs d).length + 1 with hn
  set out := Fill.drain (entrySize k.vfs) n (capsOf sizes) (entries k.vfs d) with hout
  have hlen : ((entries k.vfs d).drop (k.proc.fds fd.toNat).offset).length < n := by
    rw [hoff, List.drop_zero]
    omega
  have hread := readAll_eq addr hbuf h hdir htakes hlen
  rw [hoff, List.drop_zero] at hread
  have hparse := parseDirents_flatMap addr k.vfs out
    (Nat.lt_succ_of_le (length_flatMap_ge addr k.vfs out))
  have hident : (out.map fun e => direntOf addr k.vfs e.1 e.2).map LinuxDirent.ident =
      out.map fun e => nodeIdent addr k.vfs e.1 := by
    rw [List.map_map]
    rfl
  rw [← perm_entries_iff addr h.wf h.lt (Fill.drain_subset _ _ _ _), ← hident]
  constructor
  · rintro ⟨fuel, bytes, recs, hfuel, hrecs, hlists⟩
    have hsame := (readAll_mono (le_max_left fuel n) hfuel).symm.trans
      (readAll_mono (le_max_right fuel n) hread)
    obtain rfl := Option.some.inj hsame
    obtain rfl := Option.some.inj (hrecs.symm.trans hparse)
    exact hlists
  · exact fun hlists => ⟨n, _, _, hread, hparse, hlists⟩

/-- **Exactly when a directory is listed completely**: when in no call a record that does not fit any
more is followed by one that does. -/
theorem enumerates_iff (addr : ℕ → ℕ) (h : OnDir k fd d) (hdir : (k.vfs.nodes d).type = .dir)
    (hoff : (k.proc.fds fd.toNat).offset = 0) (hbuf : buf ≠ 0) (htakes : TakesEach k.vfs d sizes) :
    Enumerates addr k fd d buf sizes ↔
      Fill.InOrders (entrySize k.vfs) ((entries k.vfs d).length + 1) (capsOf sizes)
        (entries k.vfs d) :=
  (enumerates_iff_perm addr h hdir hoff hbuf htakes).trans <|
    Fill.perm_drain_iff (nodup_entries h.wf h.lt) (Nat.le_succ _) fun i _ he => lt_capsOf htakes i he

/-! ### A long name between two short ones -/

/-- `/tmp` with the files `a`, `middle-sized-name-in-between` and `b`, in this order. -/
def betweenVfs : Pool :=
  let vfs := (vfsCreateFile vfsInit (lit "/tmp/b") [slash] vfsSIfreg 1000 1000).1
  let vfs := (vfsCreateFile vfs (lit "/tmp/middle-sized-name-in-between") [slash] vfsSIfreg 1000 1000).1
  (vfsCreateFile vfs (lit "/tmp/a") [slash] vfsSIfreg 1000 1000).1

def betweenKernel : Kernel :=
  { userKernel with vfs := betweenVfs, proc := (processOpenFd userKernel.proc 8 0 0).1 }

theorem wf_betweenVfs : Wf betweenVfs := by
  unfold betweenVfs
  exact vfsMake_of_wf (vfsMake_of_wf (vfsMake_of_wf wf_vfsInit .file _ _ _ (by decide) (by decide))
    .file _ _ _ (by decide) (by decide)) .file _ _ _ (by decide) (by decide)

theorem onDir_betweenKernel : OnDir betweenKernel 3 8 where
  wf := wf_betweenVfs
  lt := by decide +kernel
  slot := processGetFd_eq_some.2 ⟨by norm_num, by norm_num, rfl, rfl⟩
  node := rfl

theorem reclen_betweenKernel : ∀ n ∈ children betweenKernel.vfs 8,
    reclen (betweenKernel.vfs.nodes n).name.chars ≤ 56 := by decide +kernel

/-- Buffers of 128 bytes take the three records at once. -/
theorem enumerates_between : Enumerates (fun n => 0x100000 + n) betweenKernel 3 8 0x6000 fun _ => 128 :=
  (enumerates_iff _ onDir_betweenKernel (by decide +kernel) (by decide +kernel) (by norm_num)
    fun _ n hn => (reclen_betweenKernel n hn).trans (by norm_num)).2 (by decide +kernel)

/-- Buffers of 56 bytes take each record alone; the first call stores `a` and `b`, and the name between
them is never listed. -/
theorem not_enumerates_between :
    TakesEach betweenKernel.vfs 8 (fun _ => 56) ∧
      ¬ Enumerates (fun n => 0x100000 + n) betweenKernel 3 8 0x6000 fun _ => 56 := by
  have htakes : TakesEach betweenKernel.vfs 8 fun _ => 56 := fun _ => reclen_betweenKernel
  refine ⟨htakes, fun h => ?_⟩
  have hperm := (enumerates_iff_perm _ onDir_betweenKernel (by decide +kernel) (by decide +kernel)
    (by norm_num) htakes).1 h
  revert hperm
  decide +kernel

end Tnu.Linux
