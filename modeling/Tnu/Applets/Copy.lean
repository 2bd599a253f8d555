/-
**The cp and mv commands.**

`copy_file` of `kernel/core/applets.c` looks up the source, opens it once to see whether the caller may, and
then opens the destination with `O_TRUNC`.  What it writes is what the source holds *after* that.  Nobody asks
whether the two paths lead to one file: then there is nothing left to write, and the copy succeeds.

Main definitions:

* `copyFile`, `cmdCp`, `cmdMv` — the source;
* `CpLaw`, `MvLaw` — what they should do;
* `CopyWhen`, `MvWhen` — when they do.

Main results:

* `copyFile_fails`, `copyFile_copies` — what a copy does;
* `copy_laws_iff` — **cp and mv keep the data exactly when** the two paths lead to different nodes,
  or to an empty one that stays, and the destination is no device that swallows bytes.
-/

import Tnu.Applets.Remove
import Tnu.Sys.Rewrite

set_option autoImplicit false

namespace Tnu.Applets

open Vfs Sys
open Shell (Sh)

/-! ### The commands -/

/-- What a write puts out besides the tree, on the console of the shell. -/
def putOutput (sh : Sh) : Output → Sh
  | .console bytes => sh.kprintf bytes
  | _ => sh

/-- `VFS_O_CREAT | VFS_O_RDWR | VFS_O_TRUNC`. -/
abbrev copyFlags : UInt32 := vfsOCreat ||| vfsORdwr ||| vfsOTrunc

/-- The tail of `copy_file`, when the destination is open; `dataPtr` is the address of `node->data`. -/
def copyInto (dev : Sys.Devices) (dataPtr n : ℕ) (dstFd : ℤ) (sh : Sh) : Option (Sh × ℤ) :=
  let k := sh.kernel
  if (k.vfs.nodes n).size = 0 then some ({ sh with kernel := (sysClose k dstFd).1 }, 0)
  else
    (k.vfs.nodes n).oldBytes.bind fun bytes =>
      (sysWrite dev k dstFd ⟨dataPtr, bytes⟩).map fun r =>
        let k := (sysClose r.1 dstFd).1
        ({ putOutput sh r.2.2 with kernel := k }, if r.2.1 = ((k.vfs.nodes n).size : ℤ) then 0 else -1)

/-- The half of `copy_file` behind the check of the source. -/
def copyOnto (dev : Sys.Devices) (dataPtr n : ℕ) (dst : UserString) (sh : Sh) : Option (Sh × ℤ) :=
  let opened := sysOpen sh.kernel dst copyFlags ((sh.kernel.vfs.nodes n).mode &&& 0o777)
  if opened.2 < 0 then some ({ sh with kernel := opened.1 }, -1)
  else copyInto dev dataPtr n opened.2 { sh with kernel := opened.1 }

def copyFile (dev : Sys.Devices) (dataPtr : ℕ) (src dst : UserString) (sh : Sh) : Option (Sh × ℤ) :=
  match vfsLookup sh.kernel.vfs src.str.chars sh.kernel.proc.cwd.chars with
  | none => some (sh, -1)
  | some n =>
    if (sh.kernel.vfs.nodes n).type ≠ .file then some (sh, -1)
    else
      let opened := sysOpen sh.kernel src 0 0
      if opened.2 < 0 then some ({ sh with kernel := opened.1 }, -1)
      else copyOnto dev dataPtr n dst { sh with kernel := (sysClose opened.1 opened.2).1 }

/-- `cmd_cp`, with two arguments. -/
def cmdCp (dev : Sys.Devices) (dataPtr : ℕ) (src dst : UserString) (sh : Sh) : Option (Sh × ℤ) :=
  (copyFile dev dataPtr src dst sh).map fun r =>
    if r.2 < 0 then
      let denied := reportPermissionDenied (lit "cp") dst.str.chars r.1
      (if denied.2 then denied.1 else r.1.kprintf (lit "usage: cp SRC DST" ++ [10]), 1)
    else (r.1, 0)

/-- The complaint of `cmd_mv`. -/
def mvFailed (src dst : UserString) (sh : Sh) : Sh × ℤ :=
  let denied := reportPermissionDenied (lit "mv") src.str.chars sh
  if denied.2 then (denied.1, 1)
  else
    let denied := reportPermissionDenied (lit "mv") dst.str.chars sh
    (if denied.2 then denied.1 else sh.kprintf (lit "usage: mv SRC DST" ++ [10]), 1)

/-- `cmd_mv`, with two arguments. -/
def cmdMv (dev : Sys.Devices) (dataPtr : ℕ) (src dst : UserString) (sh : Sh) : Option (Sh × ℤ) :=
  (copyFile dev dataPtr src dst sh).map fun r =>
    if r.2 < 0 then mvFailed src dst r.1
    else
      let removed := unlinkUser r.1.kernel src
      let sh := { r.1 with kernel := removed.1 }
      if removed.2 < 0 then mvFailed src dst sh else (sh, 0)

/-! ### What they should do -/

/-- A copy that succeeds leaves the bytes of the source under the destination; and no data is lost when the
two are one. -/
def CpLaw (dev : Sys.Devices) (dataPtr : ℕ) (src dst : UserString) (sh : Sh) : Prop :=
  ∃ sh' rc, copyFile dev dataPtr src dst sh = some (sh', rc) ∧
    (rc = 0 → (bytesAt sh.kernel src).isSome ∧ bytesAt sh'.kernel dst = bytesAt sh.kernel src) ∧
    (SameNode sh.kernel src dst → bytesAt sh'.kernel src = bytesAt sh.kernel src)

def MvLaw (dev : Sys.Devices) (dataPtr : ℕ) (src dst : UserString) (sh : Sh) : Prop :=
  ∃ sh' rc, cmdMv dev dataPtr src dst sh = some (sh', rc) ∧
    (rc = 0 → (bytesAt sh.kernel src).isSome ∧ bytesAt sh'.kernel dst = bytesAt sh.kernel src ∧
      nodeAt sh'.kernel src = none) ∧
    (SameNode sh.kernel src dst → bytesAt sh'.kernel src = bytesAt sh.kernel src)

/-! ### When they do -/

/-- The caller may open source `n` for reading and destination `d`, which is there, for writing. -/
structure Through (k : Kernel) (src dst : UserString) (n d : ℕ) : Prop where
  file : (k.vfs.nodes n).type = .file
  source : ∃ cs i, Names k src cs ∧ Readable k src cs n i
  target : ∃ ds, Names k dst ds ∧ Vfs.walk k.vfs rootNode ds = some d ∧ ustrOk dst.ptr = true ∧
    openRefused k.proc (k.vfs.nodes d) (pathString ds) copyFlags = false

/-- The copy writes everything to what is no file, and learns nothing of it. -/
def Swallows (dev : Sys.Devices) (dataPtr : ℕ) (k : Kernel) (n d : ℕ) : Prop :=
  contents (k.vfs.nodes n) ≠ contents (k.vfs.nodes d) ∧
    (contents (k.vfs.nodes n) = [] ∨ specialRc dev (k.vfs.nodes d) ⟨dataPtr, contents (k.vfs.nodes n)⟩ =
      (contents (k.vfs.nodes n)).length)

def MayRemove (k : Kernel) (src : UserString) : Prop := ∃ cs, Names k src cs ∧ MayUnlink k.vfs k.proc cs

/-- The two nodes are different, or there is nothing to lose; and the destination is a file, or does not
swallow the bytes. -/
def CopyWhen (dev : Sys.Devices) (dataPtr : ℕ) (src dst : UserString) (k : Kernel) : Prop :=
  ∀ n d, Through k src dst n d → (d = n → contents (k.vfs.nodes n) = []) ∧
    ((k.vfs.nodes d).type ≠ .file → ¬ Swallows dev dataPtr k n d)

def MvWhen (dev : Sys.Devices) (dataPtr : ℕ) (src dst : UserString) (k : Kernel) : Prop :=
  ∀ n d, Through k src dst n d → (d = n → contents (k.vfs.nodes n) = [] ∧ ¬ MayRemove k src) ∧
    ((k.vfs.nodes d).type ≠ .file → ¬ (Swallows dev dataPtr k n d ∧ MayRemove k src))

/-! ### What a copy does -/

variable {dev : Sys.Devices} {dataPtr : ℕ} {src dst path : UserString} {sh : Sh} {k k' s₁ : Kernel} {ds : Comps}
  {n d j : ℕ} {rc : ℤ}

/-- Node `n` has been copied to node `d`, which is under path `ds`. -/
structure Copied (dev : Sys.Devices) (dataPtr : ℕ) (k k' : Kernel) (n d : ℕ) (ds : Comps) (rc : ℤ) : Prop where
  rewrote : Rewrote d k k'
  found : walk k'.vfs rootNode ds = some d
  not_dir : (k'.vfs.nodes d).type ≠ .dir
  status : rc = 0 ∨ rc = -1
  same : d = n → rc = 0 ∧ contents (k'.vfs.nodes d) = []
  file : d ≠ n → (k'.vfs.nodes d).type = .file → rc = 0 → contents (k'.vfs.nodes d) = contents (k.vfs.nodes n)
  special : (k'.vfs.nodes d).type ≠ .file → walk k.vfs rootNode ds = some d ∧
    contents (k'.vfs.nodes d) = contents (k.vfs.nodes d) ∧
    (rc = 0 ↔ contents (k.vfs.nodes n) = [] ∨ specialRc dev (k.vfs.nodes d)
      ⟨dataPtr, contents (k.vfs.nodes n)⟩ = (contents (k.vfs.nodes n)).length)

theorem anew_copyFlags : Anew copyFlags := ⟨by decide, by decide, by decide, by decide⟩

theorem specialRc_congr {a b : VfsNode} (htype : b.type = a.type) (hname : b.name = a.name) (buf : UserBuf) :
    specialRc dev b buf = specialRc dev a buf := by
  rw [specialRc, specialRc, htype, hname]

theorem Copied.of_emptied (hs : Sound k.vfs) (hem : Emptied k s₁ ds d) (hre : Rewrote d s₁ k')
    (hstatus : rc = 0 ∨ rc = -1) (hsame : d = n → rc = 0 ∧ contents (k'.vfs.nodes d) = [])
    (hfile : d ≠ n → (s₁.vfs.nodes d).type = .file → rc = 0 →
      contents (k'.vfs.nodes d) = contents (k.vfs.nodes n))
    (hspecial : (s₁.vfs.nodes d).type ≠ .file → contents (k'.vfs.nodes d) = contents (s₁.vfs.nodes d) ∧
      (rc = 0 ↔ contents (k.vfs.nodes n) = [] ∨ specialRc dev (s₁.vfs.nodes d)
        ⟨dataPtr, contents (k.vfs.nodes n)⟩ = (contents (k.vfs.nodes n)).length)) :
    Copied dev dataPtr k k' n d ds rc := by
  have htype := (hre.attrs d (hem.rewrote.sound.lt hem.found)).1
  refine ⟨hem.rewrote.trans hre, hre.walk ds d hem.found, fun e => hem.not_dir (htype.symm.trans e), hstatus, hsame,
    fun hne h => hfile hne (htype.symm.trans h), fun h => ?_⟩
  have h₁ : (s₁.vfs.nodes d).type ≠ .file := fun e => h (htype.trans e)
  obtain ⟨hw, hkept⟩ := hem.kept h₁
  obtain ⟨hcontents, hrc⟩ := hspecial h₁
  obtain ⟨htype₁, -, -, -, hname₁⟩ := hem.rewrote.attrs d (hs.lt hw)
  rw [specialRc_congr htype₁ hname₁] at hrc
  exact ⟨hw, hcontents.trans hkept, hrc⟩

variable {cs : Comps} {sh' : Sh} {i : ℕ}

variable (dev dataPtr sh) in
theorem copyInto_copies (hs : Sound k.vfs) (hn : walk k.vfs rootNode cs = some n)
    (hfile : (k.vfs.nodes n).type = .file) (hem : Emptied k s₁ ds d) (hfree : freeFd s₁.proc = some j) {dirty : Bool}
    (hsh : sh.kernel = s₁.setFd j (anewFd copyFlags d dirty)) :
    ∃ sh' rc, copyInto dev dataPtr n j sh = some (sh', rc) ∧ Copied dev dataPtr k sh'.kernel n d ds rc := by
  have hsound := hem.rewrote.sound
  have hre : Rewrote d s₁ sh.kernel := hsh ▸ (Rewrote.refl hsound d).setFd j _
  have hlt := hs.lt hn
  have hvfs : sh.kernel.vfs = s₁.vfs := by rw [hsh]; rfl
  have htype : (s₁.vfs.nodes n).type = .file := (hem.rewrote.attrs n hlt).1.trans hfile
  have hkept (hne : d ≠ n) : contents (s₁.vfs.nodes n) = contents (k.vfs.nodes n) := by
    rw [contents, contents, (hem.rewrote.data n hlt hne.symm).1]
  have hlen : (contents (s₁.vfs.nodes n)).length = (s₁.vfs.nodes n).size := hsound.holds n
  rw [copyInto]
  dsimp only
  rw [hvfs]
  by_cases hsize : (s₁.vfs.nodes n).size = 0
  · have hnone : contents (s₁.vfs.nodes n) = [] := List.length_eq_zero_iff.1 (hlen.trans hsize)
    have hd : contents ((sysClose sh.kernel j).1.vfs.nodes d) = contents (s₁.vfs.nodes d) := by
      rw [vfs_sysClose, hvfs]
    rw [if_pos hsize]
    refine ⟨_, _, rfl, .of_emptied hs hem (hre.close j) (.inl rfl) ?_ ?_ ?_⟩ <;> dsimp only <;> rw [hd]
    · rintro rfl
      exact ⟨rfl, hnone⟩
    · intro hne hdfile _
      rw [← hkept hne, hnone]
      exact (hem.empty hdfile).1
    · intro hdfile
      have hne : d ≠ n := fun e => hdfile (e ▸ htype)
      exact ⟨rfl, fun _ => .inl ((hkept hne).symm.trans hnone), fun _ => rfl⟩
  · have hne : d ≠ n := by
      rintro rfl
      exact hsize (hem.empty htype).2
    have hbytes : contents (k.vfs.nodes n) ≠ [] := by
      rw [← hkept hne]
      intro e
      rw [e] at hlen
      exact hsize hlen.symm
    have hfd : WriteFd sh.kernel j d (anewFd copyFlags d dirty) :=
      hsh ▸ writeFd_handOut anew_copyFlags (.inr (by decide)) hfree d dirty
    rw [if_neg hsize, (hsound.holds n).oldBytes, Option.bind_some, show (s₁.vfs.nodes n).data.getD [] = _ from hkept hne]
    have hsz : ((contents (k.vfs.nodes n)).length : ℤ) = (s₁.vfs.nodes n).size := by
      rw [← hkept hne, hlen]
    by_cases hdfile : (s₁.vfs.nodes d).type = .file
    · obtain ⟨hempty, hzero⟩ := hem.empty hdfile
      have hat : AtEnd sh.kernel j d (anewFd copyFlags d dirty) :=
        { hfd with
          file := by rw [hvfs]; exact hdfile
          offset := by rw [hvfs, hzero]; rfl }
      obtain ⟨s₂, f', hwrite, hre₂, hcontents, -, -⟩ :=
        sysWrite_end dev ⟨dataPtr, contents (k.vfs.nodes n)⟩ hre.sound hat hbytes (by
          have := hsound.size n
          rw [hvfs, hzero]
          dsimp only
          omega)
      rw [hwrite]
      by_cases hgranted : (uptrOk dataPtr (contents (k.vfs.nodes n)).length && dev.kmalloc
          ((sh.kernel.vfs.nodes d).size + (contents (k.vfs.nodes n)).length + 1)) = true
      · have hcopied : contents (s₂.vfs.nodes d) = contents (k.vfs.nodes n) := by
          rw [hcontents, hvfs, hempty]
          rfl
        have hn₂ : ((s₂.vfs.nodes n).size : ℤ) = (s₁.vfs.nodes n).size := by
          rw [← hvfs, (hre₂.data n (by rw [hvfs]; exact hlt.trans_le hem.rewrote.count) hne.symm).2]
        rw [if_pos hgranted, Option.map_some]
        refine ⟨_, _, rfl, .of_emptied hs hem ((hre.trans hre₂).close j) ?_ (fun e => absurd e hne) (fun _ _ _ => ?_)
          fun h => absurd hdfile h⟩
        · dsimp only
          rw [vfs_sysClose, hn₂, if_pos hsz]
          exact .inl rfl
        · dsimp only
          rw [vfs_sysClose, hcopied]
      · have hneg : ¬ (-1 : ℤ) = (((sysClose sh.kernel j).1.vfs.nodes n).size : ℕ) := by omega
        rw [if_neg hgranted, Option.map_some]
        refine ⟨_, _, rfl, .of_emptied hs hem (hre.close j) ?_ (fun e => absurd e hne) (fun _ _ h => ?_)
          fun h => absurd hdfile h⟩
        · dsimp only
          rw [if_neg hneg]
          exact .inr rfl
        · dsimp only at h
          rw [if_neg hneg] at h
          cases h
    · obtain ⟨out, hwrite⟩ := sysWrite_special dev ⟨dataPtr, contents (k.vfs.nodes n)⟩ hfd
        (by rw [hvfs]; exact hdfile) hbytes
      rw [hwrite, Option.map_some]
      refine ⟨_, _, rfl, .of_emptied hs hem (hre.close j) ?_ (fun e => absurd e hne) (fun _ h => absurd h hdfile)
        fun _ => ?_⟩
      · dsimp only
        split_ifs
        · exact .inl rfl
        · exact .inr rfl
      · dsimp only
        rw [vfs_sysClose, hvfs, ← hsz]
        refine ⟨rfl, ?_⟩
        split_ifs with h
        · exact ⟨fun _ => .inr h, fun _ => rfl⟩
        · exact ⟨fun e => absurd e (by decide), fun e => absurd e (not_or.2 ⟨hbytes, h⟩)⟩

/-! ### The destination -/

/-- The destination may be opened for writing, as node `d`. -/
structure Target (k : Kernel) (dst : UserString) (ds : Comps) (d : ℕ) : Prop where
  names : Names k dst ds
  made : walk k.vfs rootNode ds = some d ∧ ustrOk dst.ptr = true ∧
    openRefused k.proc (k.vfs.nodes d) (pathString ds) copyFlags = false ∨
    walk k.vfs rootNode ds = none ∧ d = k.vfs.nodeCount

variable (dev dataPtr dst sh) in
/-- **The half behind the check of the source** copies, or fails. -/
theorem copyOnto_cases (hs : Sound sh.kernel.vfs) (hn : walk sh.kernel.vfs rootNode cs = some n)
    (hfile : (sh.kernel.vfs.nodes n).type = .file) (hfree : freeFd sh.kernel.proc = some j) :
    (∃ ds d sh' rc, Target sh.kernel dst ds d ∧ copyOnto dev dataPtr n dst sh = some (sh', rc) ∧
      Copied dev dataPtr sh.kernel sh'.kernel n d ds rc) ∨
    (∀ ds d, Target sh.kernel dst ds d → walk sh.kernel.vfs rootNode ds = none) ∧
      ∃ sh', copyOnto dev dataPtr n dst sh = some (sh', -1) ∧
        ((nodeAt sh.kernel dst).isSome → sh'.kernel = sh.kernel) := by
  by_cases hnamed : ∃ ds, Names sh.kernel dst ds
  · obtain ⟨ds, hnames⟩ := hnamed
    rw [copyOnto]
    rcases sysOpen_trunc ((sh.kernel.vfs.nodes n).mode &&& 0o777) anew_copyFlags hs hnames with
      ⟨d, s₁, dirty, hwritable, hem, he⟩ | ⟨hnot, hrc, hsame⟩
    · have hfree₁ : freeFd s₁.proc = some j := by rw [hem.proc, hfree]
      rw [he, handOut, hfree₁]
      dsimp only
      rw [if_neg (by omega)]
      obtain ⟨sh', rc, hcopy, hcopied⟩ := copyInto_copies dev dataPtr
        { sh with kernel := s₁.setFd j (anewFd copyFlags d (dirty j)) } hs hn hfile hem hfree₁ rfl
      refine .inl ⟨ds, d, sh', rc, ⟨hnames, ?_⟩, hcopy, hcopied⟩
      rcases hwritable.may with ⟨hw, hallowed⟩ | ⟨hcreates, -, hd⟩
      · exact .inl ⟨hw, hwritable.ptr, hallowed⟩
      · refine .inr ⟨?_, hd⟩
        rw [← hcreates.missing, vfsLookup_pathString _ hnames.proper (by decide)]
    · rw [hrc, if_pos (by decide)]
      refine .inr ⟨?_, _, rfl, fun h => ?_⟩
      · rintro ds' d ⟨hnames', ⟨hw, hptr, hallowed⟩ | ⟨hw, -⟩⟩
        · obtain rfl := hnames.unique hnames'
          exact absurd ⟨d, hptr, .inl ⟨hw, hallowed⟩⟩ hnot
        · exact hw
      · obtain ⟨d, hd⟩ := Option.isSome_iff_exists.1 h
        rw [nodeAt_of_names hnames] at hd
        exact hsame (.inl ⟨d, hd⟩)
  · have hneg : (-1 : ℤ) < 0 := by decide
    rw [copyOnto, sysOpen_of_nameless hnamed, if_pos hneg]
    exact .inr ⟨fun ds d h => absurd ⟨ds, h.names⟩ hnamed, _, rfl, fun _ => rfl⟩

/-! ### The function -/

/-- The source may be opened for reading. -/
structure Source (k : Kernel) (src : UserString) (cs : Comps) (n i : ℕ) : Prop where
  names : Names k src cs
  readable : Readable k src cs n i
  file : (k.vfs.nodes n).type = .file

theorem copyFile_fails (h : ¬ ∃ cs n i, Source sh.kernel src cs n i) :
    copyFile dev dataPtr src dst sh = some (sh, -1) := by
  rw [copyFile]
  cases hn : vfsLookup sh.kernel.vfs src.str.chars sh.kernel.proc.cwd.chars with
  | none => rfl
  | some n =>
    dsimp only
    by_cases hfile : (sh.kernel.vfs.nodes n).type ≠ .file
    · rw [if_pos hfile]
    · obtain ⟨cs, hnames, hw⟩ := nodeAt_eq_some.1 hn
      rw [if_neg hfile]
      rcases sysOpen_rdonly hnames 0 with ⟨m, i, hr, -⟩ | ⟨-, he⟩
      · obtain rfl := Option.some.inj (hr.found.symm.trans hw)
        exact absurd ⟨cs, m, i, hnames, hr, not_not.1 hfile⟩ h
      · have hneg : (-1 : ℤ) < 0 := by decide
        rw [he, if_pos hneg]

variable (dev dataPtr dst) in
theorem copyFile_copies (hs : Sound sh.kernel.vfs) (h : Source sh.kernel src cs n i) :
    ∃ k, (∀ d, Rewrote d sh.kernel k) ∧ k.vfs = sh.kernel.vfs ∧ freeFd k.proc = some i ∧
      copyFile dev dataPtr src dst sh = copyOnto dev dataPtr n dst { sh with kernel := k } := by
  have hlookup : vfsLookup sh.kernel.vfs src.str.chars sh.kernel.proc.cwd.chars = some n :=
    nodeAt_eq_some.2 ⟨cs, h.names, h.readable.found⟩
  rcases sysOpen_rdonly h.names 0 with ⟨m, j, hr, he⟩ | ⟨hnot, -⟩
  · obtain rfl := Option.some.inj (hr.found.symm.trans h.readable.found)
    obtain rfl := Option.some.inj (hr.slot.symm.trans h.readable.slot)
    refine ⟨(sysClose (sh.kernel.setFd j (openedFd sh.kernel m 0 j)) j).1, fun d => ?_, ?_, ?_, ?_⟩
    · exact ((Rewrote.refl hs d).setFd j _).close j
    · exact vfs_sysClose _ j
    · rw [freeFd_close h.readable.slot, h.readable.slot]
    · rw [copyFile, hlookup]
      dsimp only
      rw [if_neg (not_not.2 h.file), he, if_neg (by omega)]
      rfl
  · exact absurd ⟨n, i, h.readable⟩ hnot

theorem target_iff (h : ∀ d, Rewrote d k k') (hvfs : k'.vfs = k.vfs) : Target k' dst ds d ↔ Target k dst ds d := by
  have href := openRefused_of_uid (h d).uid (h d).gid (k.vfs.nodes d) (pathString ds) copyFlags
  constructor
  · rintro ⟨hnames, hmade⟩
    rw [hvfs, href] at hmade
    exact ⟨(h d).names.1 hnames, hmade⟩
  · rintro ⟨hnames, hmade⟩
    refine ⟨(h d).names.2 hnames, ?_⟩
    rw [hvfs, href]
    exact hmade

variable (dev dataPtr dst) in
/-- **What `copy_file` does**: it copies, or fails. -/
theorem copyFile_cases (hs : Sound sh.kernel.vfs) (h : Source sh.kernel src cs n i) :
    (∃ ds d sh' rc, Target sh.kernel dst ds d ∧ copyFile dev dataPtr src dst sh = some (sh', rc) ∧
      Copied dev dataPtr sh.kernel sh'.kernel n d ds rc) ∨
    (∀ ds d, Target sh.kernel dst ds d → walk sh.kernel.vfs rootNode ds = none) ∧
      ∃ sh', copyFile dev dataPtr src dst sh = some (sh', -1) ∧
        ((nodeAt sh.kernel dst).isSome → Rewrote 0 sh.kernel sh'.kernel ∧ sh'.kernel.vfs = sh.kernel.vfs) := by
  obtain ⟨k, hre, hvfs, hfree, he⟩ := copyFile_copies dev dataPtr dst hs h
  rw [he]
  have hn : walk k.vfs rootNode cs = some n := by rw [hvfs, h.readable.found]
  have hfile : (k.vfs.nodes n).type = .file := by rw [hvfs, h.file]
  rcases copyOnto_cases dev dataPtr dst { sh with kernel := k } (hre 0).sound
    hn hfile hfree with ⟨ds, d, sh', rc, htarget, hcopy, hcopied⟩ | ⟨hnone, sh', hcopy, hsame⟩
  · refine .inl ⟨ds, d, sh', rc, (target_iff hre hvfs).1 htarget, hcopy, ?_⟩
    obtain ⟨hrewrote, hfound, hdir, hstatus, hd, hdfile, hspecial⟩ := hcopied
    dsimp only at hrewrote hdfile hspecial
    rw [hvfs] at hdfile hspecial
    exact ⟨(hre d).trans hrewrote, hfound, hdir, hstatus, hd, hdfile, hspecial⟩
  · refine .inr ⟨fun ds d ht => ?_, sh', hcopy, fun hsome => ?_⟩
    · rw [← hvfs]
      exact hnone ds d ((target_iff hre hvfs).2 ht)
    · have hkernel : sh'.kernel = k := by
        refine hsame ?_
        rw [nodeAt] at hsome ⊢
        rw [hvfs, (hre 0).cwd]
        exact hsome
      rw [hkernel]
      exact ⟨hre 0, hvfs⟩

/-! ### The laws -/

theorem through_iff {n' d' : ℕ} (h : Source k src cs n i) (ht : Target k dst ds d) :
    Through k src dst n' d' ↔ n' = n ∧ d' = d ∧ walk k.vfs rootNode ds = some d := by
  constructor
  · intro hthrough
    obtain ⟨cs', i', hnames', hr'⟩ := hthrough.source
    obtain ⟨ds', hdst', hd', -⟩ := hthrough.target
    obtain rfl := h.names.unique hnames'
    obtain rfl := ht.names.unique hdst'
    refine ⟨Option.some.inj (hr'.found.symm.trans h.readable.found), ?_⟩
    rcases ht.made with ⟨hw, -⟩ | ⟨hw, -⟩
    · exact ⟨Option.some.inj (hd'.symm.trans hw), hw⟩
    · rw [hw] at hd'
      cases hd'
  · rintro ⟨rfl, rfl, hw⟩
    refine ⟨h.file, ⟨cs, i, h.names, h.readable⟩, ds, ht.names, hw, ?_⟩
    rcases ht.made with ⟨-, hallowed⟩ | ⟨hnone, -⟩
    · exact hallowed
    · rw [hnone] at hw
      cases hw

theorem sameNode_iff (hs : Sound k.vfs) (h : Source k src cs n i) (ht : Target k dst ds d) :
    SameNode k src dst ↔ d = n := by
  have hlt := hs.lt h.readable.found
  rw [SameNode, nodeAt_of_names h.names, nodeAt_of_names ht.names, h.readable.found]
  rcases ht.made with ⟨hw, -⟩ | ⟨hw, hd⟩
  · simp [hw]
  · have hne : d ≠ n := by omega
    simp [hw, hne]

theorem Copied.keeps_iff (hs : Sound k.vfs) (hc : Copied dev dataPtr k k' n d ds rc) (hne : d ≠ n) :
    (rc = 0 → contents (k'.vfs.nodes d) = contents (k.vfs.nodes n)) ↔
      (walk k.vfs rootNode ds = some d → (k.vfs.nodes d).type ≠ .file → ¬ Swallows dev dataPtr k n d) := by
  constructor
  · intro h hw hspecial ⟨hdiff, hall⟩
    have htype := (hc.rewrote.attrs d (hs.lt hw)).1
    obtain ⟨-, hkept, hrc⟩ := hc.special (htype ▸ hspecial)
    exact hdiff ((h (hrc.2 hall)).symm.trans hkept)
  · intro h hrc
    by_cases hfile : (k'.vfs.nodes d).type = .file
    · exact hc.file hne hfile hrc
    · obtain ⟨hw, hkept, hiff⟩ := hc.special hfile
      have htype := (hc.rewrote.attrs d (hs.lt hw)).1
      by_contra hdiff
      exact h hw (htype ▸ hfile) ⟨fun e => hdiff (hkept.trans e.symm), hiff.1 hrc⟩

theorem copyWhen_iff (h : Source k src cs n i) (ht : Target k dst ds d) :
    CopyWhen dev dataPtr src dst k ↔ (walk k.vfs rootNode ds = some d →
      (d = n → contents (k.vfs.nodes n) = []) ∧
        ((k.vfs.nodes d).type ≠ .file → ¬ Swallows dev dataPtr k n d)) := by
  constructor
  · intro hwhen hw
    exact hwhen n d ((through_iff h ht).2 ⟨rfl, rfl, hw⟩)
  · intro hwhen n' d' hthrough
    obtain ⟨rfl, rfl, hw⟩ := (through_iff h ht).1 hthrough
    exact hwhen hw

theorem mvWhen_iff (h : Source k src cs n i) (ht : Target k dst ds d) :
    MvWhen dev dataPtr src dst k ↔ (walk k.vfs rootNode ds = some d →
      (d = n → contents (k.vfs.nodes n) = [] ∧ ¬ MayRemove k src) ∧
        ((k.vfs.nodes d).type ≠ .file → ¬ (Swallows dev dataPtr k n d ∧ MayRemove k src))) := by
  constructor
  · intro hwhen hw
    exact hwhen n d ((through_iff h ht).2 ⟨rfl, rfl, hw⟩)
  · intro hwhen n' d' hthrough
    obtain ⟨rfl, rfl, hw⟩ := (through_iff h ht).1 hthrough
    exact hwhen hw

theorem not_through (h : ∀ ds d, Target k dst ds d → walk k.vfs rootNode ds = none) : ¬ Through k src dst n d := by
  intro hthrough
  obtain ⟨ds, hnames, hw, hallowed⟩ := hthrough.target
  have := h ds d ⟨hnames, .inl ⟨hw, hallowed⟩⟩
  rw [hw] at this
  cases this

theorem source_of_through (h : Through k src dst n d) : ∃ cs n i, Source k src cs n i := by
  obtain ⟨cs, i, hnames, hr⟩ := h.source
  exact ⟨cs, n, i, hnames, hr, h.file⟩

theorem cpLaw_of_eq (he : copyFile dev dataPtr src dst sh = some (sh', rc)) :
    CpLaw dev dataPtr src dst sh ↔
      (rc = 0 → (bytesAt sh.kernel src).isSome ∧ bytesAt sh'.kernel dst = bytesAt sh.kernel src) ∧
      (SameNode sh.kernel src dst → bytesAt sh'.kernel src = bytesAt sh.kernel src) := by
  constructor
  · rintro ⟨sh₁, rc₁, he₁, h⟩
    obtain ⟨rfl, rfl⟩ := Prod.mk.inj (Option.some.inj (he.symm.trans he₁))
    exact h
  · exact fun h => ⟨sh', rc, he, h⟩

/-- **When cp keeps the data.** -/
theorem cpLaw_iff (hs : Sound sh.kernel.vfs) :
    CpLaw dev dataPtr src dst sh ↔ CopyWhen dev dataPtr src dst sh.kernel := by
  have hneg : (-1 : ℤ) ≠ 0 := by decide
  by_cases hsrc : ∃ cs n i, Source sh.kernel src cs n i
  · obtain ⟨cs, n, i, h⟩ := hsrc
    have hbytes := bytesAt_of_names h.names h.readable.found
    rcases copyFile_cases dev dataPtr dst hs h with
      ⟨ds, d, sh', rc, ht, he, hc⟩ | ⟨hnone, sh', he, hsame⟩
    · have hdst := bytesAt_of_names (hc.rewrote.names.2 ht.names) hc.found
      have hsrc := bytesAt_of_names (hc.rewrote.names.2 h.names) (hc.rewrote.walk cs n h.readable.found)
      rw [cpLaw_of_eq he, copyWhen_iff h ht, sameNode_iff hs h ht, hbytes, hdst, hsrc, Option.some.injEq,
        Option.some.injEq]
      by_cases hne : d = n
      · -- the source has been truncated
        obtain ⟨hrc, hempty⟩ := hc.same hne
        subst hne
        have hw : walk sh.kernel.vfs rootNode ds = some d := by
          rcases ht.made with ⟨hw, -⟩ | ⟨-, hd⟩
          · exact hw
          · exact absurd hd (hs.lt h.readable.found).ne
        rw [hempty]
        constructor
        · exact fun hlaw _ => ⟨fun _ => (hlaw.2 rfl).symm, fun hspecial => absurd h.file hspecial⟩
        · intro hwhen
          have hnil := ((hwhen hw).1 rfl).symm
          exact ⟨fun _ => ⟨rfl, hnil⟩, fun _ => hnil⟩
      · have hkeeps := hc.keeps_iff hs hne
        constructor
        · exact fun hlaw hw => ⟨fun e => absurd e hne, hkeeps.1 (fun hrc => (hlaw.1 hrc).2) hw⟩
        · exact fun hwhen => ⟨fun hrc => ⟨rfl, hkeeps.2 (fun hw => (hwhen hw).2) hrc⟩, fun e => absurd e hne⟩
    · rw [cpLaw_of_eq he]
      refine iff_of_true ⟨fun e => absurd e hneg, fun hnode => ?_⟩ fun n d ht => absurd ht (not_through hnone)
      obtain ⟨hre, hvfs⟩ := hsame (hnode.2 ▸ hnode.1)
      exact bytesAt_of_vfs hre hvfs
  · rw [cpLaw_of_eq (copyFile_fails hsrc)]
    exact iff_of_true ⟨fun e => absurd e hneg, fun _ => rfl⟩ fun n d ht => absurd (source_of_through ht) hsrc

/-! ### Moving -/

theorem mvFailed_eq (src dst : UserString) (sh : Sh) :
    ∃ sh', mvFailed src dst sh = (sh', 1) ∧ sh'.kernel = sh.kernel := by
  unfold mvFailed
  dsimp only
  split_ifs
  · exact ⟨_, rfl, kernel_reportPermissionDenied _ _ sh⟩
  · exact ⟨_, rfl, kernel_reportPermissionDenied _ _ sh⟩
  · exact ⟨_, rfl, rfl⟩

theorem mayRemove_iff (h : Names k src cs) : MayRemove k src ↔ MayUnlink k.vfs k.proc cs := by
  constructor
  · rintro ⟨cs', hnames, hmay⟩
    exact h.unique hnames ▸ hmay
  · exact fun hmay => ⟨cs, h, hmay⟩

theorem unlinkUser_copied (hs : Sound k.vfs) (h : Source k src cs n i)
    (hc : Copied dev dataPtr k k' n d ds rc) :
    (MayRemove k src → ∃ f, Unlinked k' cs f.vfs ∧ f.proc = k'.proc ∧ unlinkUser k' src = (f, 0)) ∧
      (¬ MayRemove k src → unlinkUser k' src = (k', -1)) := by
  have htype : (k'.vfs.nodes n).type ≠ .dir := by
    rw [(hc.rewrote.attrs n (hs.lt h.readable.found)).1, h.file]
    decide
  rw [mayRemove_iff h.names, ← hc.rewrote.mayUnlink_iff hs hc.not_dir]
  exact unlinkUser_of_leaf hc.rewrote.sound.wf (hc.rewrote.names.2 h.names) h.readable.ptr
    (hc.rewrote.walk cs n h.readable.found) htype

theorem mvLaw_of_eq (he : cmdMv dev dataPtr src dst sh = some (sh', rc)) :
    MvLaw dev dataPtr src dst sh ↔
      (rc = 0 → (bytesAt sh.kernel src).isSome ∧ bytesAt sh'.kernel dst = bytesAt sh.kernel src ∧
        nodeAt sh'.kernel src = none) ∧
      (SameNode sh.kernel src dst → bytesAt sh'.kernel src = bytesAt sh.kernel src) := by
  constructor
  · rintro ⟨sh₁, rc₁, he₁, h⟩
    obtain ⟨rfl, rfl⟩ := Prod.mk.inj (Option.some.inj (he.symm.trans he₁))
    exact h
  · exact fun h => ⟨sh', rc, he, h⟩

theorem mvLaw_of_failed (he : cmdMv dev dataPtr src dst sh = some (mvFailed src dst sh')) :
    MvLaw dev dataPtr src dst sh ↔
      (SameNode sh.kernel src dst → bytesAt sh'.kernel src = bytesAt sh.kernel src) := by
  obtain ⟨sh₂, hfailed, hkernel⟩ := mvFailed_eq src dst sh'
  rw [mvLaw_of_eq (he.trans (congrArg some hfailed)), hkernel]
  exact and_iff_right fun e => absurd e (by decide)

theorem cmdMv_of_failed (he : copyFile dev dataPtr src dst sh = some (sh', -1)) :
    cmdMv dev dataPtr src dst sh = some (mvFailed src dst sh') := by
  have hneg : (-1 : ℤ) < 0 := by decide
  rw [cmdMv, he, Option.map_some, if_pos hneg]

theorem cmdMv_of_copied (he : copyFile dev dataPtr src dst sh = some (sh', 0)) :
    cmdMv dev dataPtr src dst sh = some (if (unlinkUser sh'.kernel src).2 < 0 then
      mvFailed src dst { sh' with kernel := (unlinkUser sh'.kernel src).1 }
    else ({ sh' with kernel := (unlinkUser sh'.kernel src).1 }, 0)) := by
  have hpos : ¬ (0 : ℤ) < 0 := lt_irrefl 0
  rw [cmdMv, he, Option.map_some, if_neg hpos]

theorem bytesAt_moved {f : Kernel} (h : Source k src cs n i)
    (ht : Target k dst ds d) (hc : Copied dev dataPtr k k' n d ds rc) (hv : Unlinked k' cs f.vfs)
    (hproc : f.proc = k'.proc) :
    nodeAt f src = none ∧ (d ≠ n → bytesAt f dst = some (contents (k'.vfs.nodes d))) := by
  have hwf := hc.rewrote.sound.wf
  refine ⟨nodeAt_unlinked hwf hv hproc (hc.rewrote.names.2 h.names), fun hne => ?_⟩
  have hds : ds ≠ cs := by
    rintro rfl
    exact hne (Option.some.inj (hc.found.symm.trans (hc.rewrote.walk ds n h.readable.found)))
  rw [bytesAt, nodeAt_of_unlinked hwf hv hproc (hc.rewrote.names.2 ht.names) hds, hc.found, Option.map_some, contents_of_unlinked hv]

theorem mvLaw_of_may (hs : Sound sh.kernel.vfs) (h : Source sh.kernel src cs n i)
    (ht : Target sh.kernel dst ds d) (he : copyFile dev dataPtr src dst sh = some (sh', 0))
    (hc : Copied dev dataPtr sh.kernel sh'.kernel n d ds 0) (hmay : MayRemove sh.kernel src) :
    MvLaw dev dataPtr src dst sh ↔ d ≠ n ∧ contents (sh'.kernel.vfs.nodes d) = contents (sh.kernel.vfs.nodes n) := by
  obtain ⟨f, hv, hproc, hunlink⟩ := (unlinkUser_copied hs h hc).1 hmay
  have hpos : ¬ (0 : ℤ) < 0 := lt_irrefl 0
  have hmoved := cmdMv_of_copied he
  rw [hunlink, if_neg hpos] at hmoved
  obtain ⟨hsrc, hdst⟩ := bytesAt_moved h ht hc hv hproc
  have hnone : bytesAt f src = none := by rw [bytesAt, hsrc]; rfl
  rw [mvLaw_of_eq hmoved, sameNode_iff hs h ht, bytesAt_of_names h.names h.readable.found, hsrc, hnone]
  constructor
  · rintro ⟨hlaw, hsame⟩
    have hne : d ≠ n := fun e => by cases hsame e
    obtain ⟨-, hbytes, -⟩ := hlaw rfl
    rw [hdst hne, Option.some.injEq] at hbytes
    exact ⟨hne, hbytes⟩
  · rintro ⟨hne, hbytes⟩
    rw [hdst hne, hbytes]
    exact ⟨fun _ => ⟨rfl, rfl, rfl⟩, fun e => absurd e hne⟩

theorem mvLaw_of_not_may (hs : Sound sh.kernel.vfs) (h : Source sh.kernel src cs n i)
    (ht : Target sh.kernel dst ds d) (he : copyFile dev dataPtr src dst sh = some (sh', 0))
    (hc : Copied dev dataPtr sh.kernel sh'.kernel n d ds 0) (hmay : ¬ MayRemove sh.kernel src) :
    MvLaw dev dataPtr src dst sh ↔ (d = n → contents (sh.kernel.vfs.nodes n) = []) := by
  have hneg : (-1 : ℤ) < 0 := by decide
  have hmoved := cmdMv_of_copied he
  rw [(unlinkUser_copied hs h hc).2 hmay, if_pos hneg] at hmoved
  rw [mvLaw_of_failed hmoved, sameNode_iff hs h ht, bytesAt_of_names h.names h.readable.found,
    bytesAt_of_names (hc.rewrote.names.2 h.names) (hc.rewrote.walk cs n h.readable.found), Option.some.injEq]
  refine forall_congr' fun hne => ?_
  obtain ⟨-, hempty⟩ := hc.same hne
  subst hne
  rw [hempty]
  exact eq_comm

/-- **When mv keeps the data.** -/
theorem mvLaw_iff (hs : Sound sh.kernel.vfs) :
    MvLaw dev dataPtr src dst sh ↔ MvWhen dev dataPtr src dst sh.kernel := by
  by_cases hsrc : ∃ cs n i, Source sh.kernel src cs n i
  · obtain ⟨cs, n, i, h⟩ := hsrc
    rcases copyFile_cases dev dataPtr dst hs h with
      ⟨ds, d, sh', rc, ht, he, hc⟩ | ⟨hnone, sh', he, hsame⟩
    · have hexists (hne : d = n) : walk sh.kernel.vfs rootNode ds = some d := by
        rcases ht.made with ⟨hw, -⟩ | ⟨-, hd⟩
        · exact hw
        · exact absurd (hne.symm.trans hd) (hs.lt h.readable.found).ne
      rw [mvWhen_iff h ht]
      rcases hc.status with rfl | rfl
      · by_cases hmay : MayRemove sh.kernel src
        · rw [mvLaw_of_may hs h ht he hc hmay]
          constructor
          · rintro ⟨hne, hbytes⟩ hw
            exact ⟨fun e => absurd e hne, fun hspecial hboth =>
              (hc.keeps_iff hs hne).1 (fun _ => hbytes) hw hspecial hboth.1⟩
          · intro hwhen
            have hne : d ≠ n := fun e => ((hwhen (hexists e)).1 e).2 hmay
            exact ⟨hne, (hc.keeps_iff hs hne).2
              (fun hw hspecial hsw => (hwhen hw).2 hspecial ⟨hsw, hmay⟩) rfl⟩
        · rw [mvLaw_of_not_may hs h ht he hc hmay]
          constructor
          · exact fun hlaw _ => ⟨fun hne => ⟨hlaw hne, hmay⟩, fun _ hboth => hmay hboth.2⟩
          · exact fun hwhen hne => ((hwhen (hexists hne)).1 hne).1
      · have hneg : (-1 : ℤ) ≠ 0 := by decide
        have hne : d ≠ n := fun e => hneg (hc.same e).1
        rw [mvLaw_of_failed (cmdMv_of_failed he), sameNode_iff hs h ht]
        refine iff_of_true (fun e => absurd e hne) fun hw => ⟨fun e => absurd e hne, fun hspecial hboth => ?_⟩
        have htype := (hc.rewrote.attrs d (hs.lt hw)).1
        obtain ⟨-, -, hrc⟩ := hc.special (htype ▸ hspecial)
        exact hneg (hrc.2 hboth.1.2)
    · rw [mvLaw_of_failed (cmdMv_of_failed he)]
      refine iff_of_true (fun hnode => ?_) fun n d ht => absurd ht (not_through hnone)
      obtain ⟨hre, hvfs⟩ := hsame (hnode.2 ▸ hnode.1)
      exact bytesAt_of_vfs hre hvfs
  · rw [mvLaw_of_failed (cmdMv_of_failed (copyFile_fails hsrc))]
    exact iff_of_true (fun _ => rfl) fun n d ht => absurd (source_of_through ht) hsrc

/-- **When cp and mv keep the data**, on every tree. -/
theorem copy_laws_iff {sh : Sh} (hs : Sound sh.kernel.vfs) (dev : Sys.Devices) (dataPtr : ℕ) (src dst : UserString) :
    (CpLaw dev dataPtr src dst sh ↔ CopyWhen dev dataPtr src dst sh.kernel) ∧
      (MvLaw dev dataPtr src dst sh ↔ MvWhen dev dataPtr src dst sh.kernel) :=
  ⟨cpLaw_iff hs, mvLaw_iff hs⟩

/-- `/tmp/f` and a new name beside it. -/
theorem copy_laws_new : CpLaw quietDevices 0x6000 ⟨0x5000, ⟨lit "/tmp/f", by decide⟩⟩
      ⟨0x5800, ⟨lit "/tmp/g", by decide⟩⟩ (shellOn oneByteTree) ∧
    MvLaw quietDevices 0x6000 ⟨0x5000, ⟨lit "/tmp/f", by decide⟩⟩ ⟨0x5800, ⟨lit "/tmp/g", by decide⟩⟩
      (shellOn oneByteTree) := by
  have hlaws := copy_laws_iff (show Sound (shellOn oneByteTree).kernel.vfs from sound_oneByteTree) quietDevices 0x6000
    ⟨0x5000, ⟨lit "/tmp/f", by decide⟩⟩ ⟨0x5800, ⟨lit "/tmp/g", by decide⟩⟩
  have hnew : nodeAt (shellOn oneByteTree).kernel ⟨0x5800, ⟨lit "/tmp/g", by decide⟩⟩ = none := by decide +kernel
  have hnot (n d : ℕ) : ¬ Through (shellOn oneByteTree).kernel ⟨0x5000, ⟨lit "/tmp/f", by decide⟩⟩
      ⟨0x5800, ⟨lit "/tmp/g", by decide⟩⟩ n d := by
    intro h
    obtain ⟨ds, hnames, hw, -⟩ := h.target
    rw [nodeAt_of_names hnames, hw] at hnew
    cases hnew
  exact ⟨hlaws.1.2 fun n d h => absurd h (hnot n d), hlaws.2.2 fun n d h => absurd h (hnot n d)⟩

/-- **A file copied or moved onto itself is lost.** -/
theorem not_copy_laws : ¬ ∀ (sh : Sh), Sound sh.kernel.vfs → ∀ (dev : Sys.Devices) (dataPtr : ℕ)
    (src dst : UserString), CpLaw dev dataPtr src dst sh ∧ MvLaw dev dataPtr src dst sh := by
  intro h
  have hlaw := (h (shellOn oneByteTree) sound_oneByteTree quietDevices 0x6000
    ⟨0x5000, ⟨lit "/tmp/f", by decide⟩⟩ ⟨0x5800, ⟨lit "/tmp/./f", by decide⟩⟩).1
  have hwhen := (cpLaw_iff sound_oneByteTree).1 hlaw 11 11
  have hsrc : Names (shellOn oneByteTree).kernel ⟨0x5000, ⟨lit "/tmp/f", by decide⟩⟩ [lit "tmp", lit "f"] := by
    rw [Names]
    decide +kernel
  have hdst : Names (shellOn oneByteTree).kernel ⟨0x5800, ⟨lit "/tmp/./f", by decide⟩⟩ [lit "tmp", lit "f"] := by
    rw [Names]
    decide +kernel
  have hw : walk oneByteTree rootNode [lit "tmp", lit "f"] = some 11 := by decide +kernel
  have hbytes : contents (oneByteTree.nodes 11) ≠ [] := by decide +kernel
  refine hbytes ((hwhen ⟨by decide +kernel, ⟨_, 3, hsrc, by decide, hw, by decide +kernel, by decide +kernel⟩,
    ⟨_, hdst, hw, by decide, by decide +kernel⟩⟩).1 rfl)

end Tnu.Applets
