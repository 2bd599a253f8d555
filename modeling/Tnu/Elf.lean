/-
**The ELF loader of native programs.**

`elf64_validate` and `elf64_load` of `kernel/lib/elf.c`, on an image that stands at an address in
memory.  The loader trusts the sums that the validation made, and the validation makes them modulo
2^64; it reads its headers from memory between the copies, and nothing keeps two segments, or a
segment and the image, apart.

What the loader touches is part of its result, as a list of accesses.

Main definitions:

* `Segment`, `loadAll` — segments copied into memory, one after the other;
* `Phdr`, `phdrAt`, `phdrAddr` — program headers in memory;
* `elf64Validate`, `elf64Load` — the source.

Main results:

* `loadAll_of_agree` — **segments that agree end up as they should**;
* `loadsSafely_iff` — **the loader is safe exactly on the loadable images**.
-/

import Tnu.Memory

set_option autoImplicit false

namespace Tnu

/-! ### Segments -/

/-- A part of a file on its way into memory: `filesz` bytes at `src` go to `dest`, and zeros fill up
what is left of `memsz`. -/
structure Segment where
  dest : ℕ
  src : ℕ
  filesz : ℕ
  memsz : ℕ
  deriving DecidableEq, Repr

/-- The `memcpy` and the `memset` of the loaders. -/
def Segment.load (m : Mem) (g : Segment) : Mem :=
  memset (memcpy m g.dest g.src g.filesz) (g.dest + g.filesz) 0 (g.memsz - g.filesz)

def loadAll (m : Mem) (gs : List Segment) : Mem := gs.foldl Segment.load m

/-- The byte that belongs at offset `k` of a segment. -/
def Segment.byte (m : Mem) (g : Segment) (k : ℕ) : Byte := if k < g.filesz then m (g.src + k) else 0

/-- Two ranges of addresses, each a base and a length, have no address in common. -/
def RangesApart (a m b n : ℕ) : Prop := a + m ≤ b ∨ b + n ≤ a

variable {m m' : Mem} {g : Segment} {gs : List Segment} {i k lo len : ℕ}

@[simp] theorem loadAll_cons (m : Mem) (g : Segment) (gs : List Segment) :
    loadAll m (g :: gs) = loadAll (g.load m) gs := rfl

theorem Segment.load_of_not_mem (h : i < g.dest ∨ g.dest + g.memsz ≤ i) (hle : g.filesz ≤ g.memsz) :
    g.load m i = m i := by
  rw [Segment.load, memset_of_not_mem (by omega), memcpy_of_not_mem (by omega)]

theorem Segment.load_apply (hsrc : RangesApart g.dest g.memsz g.src g.filesz)
    (hle : g.filesz ≤ g.memsz) (hk : k < g.memsz) : g.load m (g.dest + k) = g.byte m k := by
  rw [Segment.load, Segment.byte]
  by_cases hfile : k < g.filesz
  · have hmove : g.dest + g.filesz ≤ g.src ∨ g.src + g.filesz ≤ g.dest := by
      rcases hsrc with h | h
      · exact .inl (by omega)
      · exact .inr h
    rw [if_pos hfile, memset_of_not_mem (by omega), memcpy_of_disjoint hmove hfile]
  · rw [if_neg hfile, memset_apply, if_pos (by omega)]

theorem loadAll_of_not_mem (h : ∀ g ∈ gs, g.filesz ≤ g.memsz ∧ (i < g.dest ∨ g.dest + g.memsz ≤ i)) :
    loadAll m gs i = m i := by
  induction gs generalizing m with
  | nil => rfl
  | cons g gs ih =>
    obtain ⟨hle, hout⟩ := h g (by simp)
    exact (ih fun g' hg' => h g' (by simp [hg'])).trans (Segment.load_of_not_mem hout hle)

theorem Segment.byte_load {g' : Segment} (hle : g'.filesz ≤ g'.memsz)
    (hsrc : RangesApart g'.dest g'.memsz g.src g.filesz) : g.byte (g'.load m) k = g.byte m k := by
  rw [Segment.byte, Segment.byte]
  rw [RangesApart] at hsrc
  split
  · exact Segment.load_of_not_mem (by omega) hle
  · rfl

/-- **Segments that agree end up as they should**: at an address that some segment covers, there is
the byte that all segments want there, as it was at the start. -/
theorem loadAll_of_agree {v : Byte} (hle : ∀ g ∈ gs, g.filesz ≤ g.memsz)
    (hsrc : ∀ g ∈ gs, ∀ g' ∈ gs, RangesApart g.dest g.memsz g'.src g'.filesz)
    (hv : ∀ g ∈ gs, ∀ k < g.memsz, g.dest + k = i → g.byte m k = v)
    (hg : ∃ g ∈ gs, g.dest ≤ i ∧ i < g.dest + g.memsz) : loadAll m gs i = v := by
  induction gs generalizing m with
  | nil =>
    obtain ⟨g, hg, -⟩ := hg
    cases hg
  | cons g₀ gs ih =>
    rw [loadAll_cons]
    by_cases hlater : ∃ g ∈ gs, g.dest ≤ i ∧ i < g.dest + g.memsz
    · refine ih (fun g hg => hle g (by simp [hg]))
        (fun g hg g' hg' => hsrc g (by simp [hg]) g' (by simp [hg'])) (fun g hg k hk hi => ?_) hlater
      rw [Segment.byte_load (hle g₀ (by simp)) (hsrc g₀ (by simp) g (by simp [hg]))]
      exact hv g (by simp [hg]) k hk hi
    · -- the first segment is the only one here
      have hout : ∀ g ∈ gs, g.filesz ≤ g.memsz ∧ (i < g.dest ∨ g.dest + g.memsz ≤ i) := by
        intro g hg
        refine ⟨hle g (by simp [hg]), ?_⟩
        by_contra hin
        exact hlater ⟨g, hg, by omega, by omega⟩
      obtain ⟨g, hg, hlo, hhi⟩ := hg
      rcases List.mem_cons.1 hg with rfl | hg
      · obtain ⟨k, rfl⟩ := Nat.exists_eq_add_of_le hlo
        rw [loadAll_of_not_mem hout, Segment.load_apply (hsrc g (by simp) g (by simp))
          (hle g (by simp)) (by omega)]
        exact hv g (by simp) k (by omega) rfl
      · exact absurd ⟨g, hg, hlo, hhi⟩ hlater

/-! ### The headers -/

/-- `sizeof(struct elf64_ehdr)`. -/
abbrev ehdrSize : ℕ := 64

/-- `sizeof(struct elf64_phdr)`. -/
abbrev phdrSize : ℕ := 56

abbrev ptLoad : ℕ := 1

abbrev emX8664 : ℕ := 62

/-- `e_type` of the header at `image`. -/
def eType (m : Mem) (image : ℕ) : ℕ := load m (image + 16) 2

def eMachine (m : Mem) (image : ℕ) : ℕ := load m (image + 18) 2

def eEntry (m : Mem) (image : ℕ) : ℕ := load m (image + 24) 8

def ePhoff (m : Mem) (image : ℕ) : ℕ := load m (image + 32) 8

def ePhentsize (m : Mem) (image : ℕ) : ℕ := load m (image + 54) 2

def ePhnum (m : Mem) (image : ℕ) : ℕ := load m (image + 56) 2

/-- The fields of `struct elf64_phdr` that the loader looks at. -/
structure Phdr where
  type : ℕ
  offset : ℕ
  vaddr : ℕ
  filesz : ℕ
  memsz : ℕ
  deriving DecidableEq, Repr

def phdrAt (m : Mem) (a : ℕ) : Phdr where
  type := load m a 4
  offset := load m (a + 8) 8
  vaddr := load m (a + 16) 8
  filesz := load m (a + 32) 8
  memsz := load m (a + 40) 8

/-- The address of the program header `i`. -/
def phdrAddr (m : Mem) (image i : ℕ) : ℕ := (image + ePhoff m image + i * ePhentsize m image) % word

/-- The program header `i`. -/
def phdr (m : Mem) (image i : ℕ) : Phdr := phdrAt m (phdrAddr m image i)

/-- The segment of a program header of the image, loaded at the bias. -/
def Phdr.segment (image bias : ℕ) (ph : Phdr) : Segment where
  dest := (bias + ph.vaddr) % word
  src := (image + ph.offset) % word
  filesz := ph.filesz
  memsz := ph.memsz

@[simp] theorem Phdr.segment_src (image bias : ℕ) (ph : Phdr) :
    (ph.segment image bias).src = (image + ph.offset) % word := rfl

@[simp] theorem Phdr.segment_dest (image bias : ℕ) (ph : Phdr) :
    (ph.segment image bias).dest = (bias + ph.vaddr) % word := rfl

@[simp] theorem Phdr.segment_filesz (image bias : ℕ) (ph : Phdr) :
    (ph.segment image bias).filesz = ph.filesz := rfl

@[simp] theorem Phdr.segment_memsz (image bias : ℕ) (ph : Phdr) :
    (ph.segment image bias).memsz = ph.memsz := rfl

theorem phdr_vaddr_lt (m : Mem) (image i : ℕ) : (phdr m image i).vaddr < word := load_lt m _ 8

theorem phdr_offset_lt (m : Mem) (image i : ℕ) : (phdr m image i).offset < word := load_lt m _ 8

/-- The byte that a program header wants at offset `k` of its segment. -/
def Phdr.byte (m : Mem) (image : ℕ) (ph : Phdr) (k : ℕ) : Byte :=
  if k < ph.filesz then m (image + ph.offset + k) else 0

/-! ### `elf64_validate` -/

/-- `struct elf_image_info`. -/
structure ElfImageInfo where
  entry : ℕ
  phnum : ℕ
  type : ℕ
  lowestVaddr : ℕ
  highestVaddr : ℕ
  deriving DecidableEq, Repr

def identOk (m : Mem) (image : ℕ) : Bool :=
  m image = 0x7f && m (image + 1) = 69 && m (image + 2) = 76 && m (image + 3) = 70 &&
    m (image + 4) = 2 && m (image + 5) = 1

/-- One turn of the loop of `elf64_validate`. -/
def validatePhdr (size : ℕ) (info : ElfImageInfo) (ph : Phdr) : Option ElfImageInfo :=
  if ph.type ≠ ptLoad then some info
  else if size < (ph.offset + ph.filesz) % word ∨ ph.memsz < ph.filesz then none
  else some { info with
    lowestVaddr := if ph.vaddr < info.lowestVaddr then ph.vaddr else info.lowestVaddr
    highestVaddr :=
      if info.highestVaddr < (ph.vaddr + ph.memsz) % word then (ph.vaddr + ph.memsz) % word
      else info.highestVaddr }

def elf64Validate (m : Mem) (image size : ℕ) : Option ElfImageInfo :=
  if image = 0 ∨ size < ehdrSize then none
  else if identOk m image = false ∨ eMachine m image ≠ emX8664 then none
  else if size < (ePhoff m image + ePhnum m image * ePhentsize m image) % word ∨
      ePhentsize m image < phdrSize then none
  else
    let info := ⟨eEntry m image, ePhnum m image, eType m image, word - 1, 0⟩
    ((List.range (ePhnum m image)).foldlM (fun info i => validatePhdr size info (phdr m image i))
      info).map fun info =>
        if info.lowestVaddr = word - 1 then { info with lowestVaddr := 0 } else info

/-! ### `elf64_load` -/

abbrev userLoadMin : ℕ := 0x400000

abbrev userLoadMax : ℕ := 0x30000000

/-- What a loader does to memory: bytes that it reads and bytes that it writes. -/
inductive Access
  | read (addr len : ℕ)
  | write (addr len : ℕ)
  deriving DecidableEq, Repr

def Segment.accesses (g : Segment) : List Access :=
  [.read g.src g.filesz, .write g.dest g.filesz, .write (g.dest + g.filesz) (g.memsz - g.filesz)]

theorem Segment.mem_accesses {x : Access} :
    x ∈ g.accesses ↔ x = .read g.src g.filesz ∨ x = .write g.dest g.filesz ∨
      x = .write (g.dest + g.filesz) (g.memsz - g.filesz) := by
  rw [Segment.accesses, List.mem_cons, List.mem_cons, List.mem_singleton]

/-- What `elf64_validate` looks at when it accepts an image: all headers. -/
def headerReads (m : Mem) (image : ℕ) : List Access :=
  .read image ehdrSize ::
    (List.range (ePhnum m image)).map fun i => .read (phdrAddr m image i) phdrSize

/-- The loop of a loader from the header `i` on, with what it checks of a header before it copies its
segment.  The number of headers is read before each turn, so `left` bounds the turns by the largest
number of headers there can be. -/
def loadLoop (image bias : ℕ) (check : Phdr → Bool) : ℕ → ℕ → Mem → Option Mem × List Access
  | 0, _, m => (some m, [])
  | left + 1, i, m =>
    if i < ePhnum m image then
      let ph := phdr m image i
      let look := Access.read (phdrAddr m image i) phdrSize
      if ph.type ≠ ptLoad then
        let rest := loadLoop image bias check left (i + 1) m
        (rest.1, look :: rest.2)
      else if check ph = false then (none, [look])
      else
        let g := ph.segment image bias
        let rest := loadLoop image bias check left (i + 1) (g.load m)
        (rest.1, look :: (g.accesses ++ rest.2))
    else (some m, [])

/-- The largest number of program headers: `e_phnum` has 16 bits. -/
abbrev maxPhnum : ℕ := 65535

/-- `elf64_load`: the memory it leaves behind, when it does not fail, and its accesses (those of a
validation that fails are left out). -/
def elf64Load (m : Mem) (image size : ℕ) : Option Mem × List Access :=
  match elf64Validate m image size with
  | none => (none, [])
  | some info =>
    if info.lowestVaddr < userLoadMin ∨ userLoadMax < info.highestVaddr then
      (none, headerReads m image)
    else
      let r := loadLoop image 0 (fun _ => true) maxPhnum 0 m
      (r.1, headerReads m image ++ r.2)

/-! ### What is asked of a loader -/

def Within (lo hi a len : ℕ) : Prop := len = 0 ∨ lo ≤ a ∧ a + len ≤ hi

/-- Accesses that read inside the image and write inside the window. -/
structure StaysInside (image size lo hi : ℕ) (as : List Access) : Prop where
  reads : ∀ a len, .read a len ∈ as → Within image (image + size) a len
  writes : ∀ a len, .write a len ∈ as → Within lo hi a len

/-- **The loader on one image**: it reads inside the image and writes inside the window, and when it
succeeds, every byte of every segment is the byte of the file, or zero behind them. -/
structure LoadsSafely (m : Mem) (image size lo hi bias : ℕ) (r : Option Mem × List Access) : Prop
    extends StaysInside image size lo hi r.2 where
  bytes : ∀ m', r.1 = some m' → ∀ i < ePhnum m image, (phdr m image i).type = ptLoad →
    ∀ k < (phdr m image i).memsz, m' (bias + (phdr m image i).vaddr + k) = (phdr m image i).byte m image k

def Clear (m : Mem) (image size bias : ℕ) : Prop :=
  ∀ i < ePhnum m image, (phdr m image i).type = ptLoad →
    RangesApart (bias + (phdr m image i).vaddr) (phdr m image i).memsz image size

/-- No sum of the headers that have a segment wraps around. -/
structure SumsOk (m : Mem) (image bias : ℕ) : Prop where
  file : ∀ i < ePhnum m image, (phdr m image i).type = ptLoad →
    (phdr m image i).offset + (phdr m image i).filesz < word
  sum : ∀ i < ePhnum m image, (phdr m image i).type = ptLoad →
    bias + (phdr m image i).vaddr + (phdr m image i).memsz < word

/-- No sum wraps around, and where two segments overlap, they want the same bytes. -/
structure SegmentsOk (m : Mem) (image bias : ℕ) : Prop extends SumsOk m image bias where
  agree : ∀ i < ePhnum m image, ∀ j < ePhnum m image, (phdr m image i).type = ptLoad →
    (phdr m image j).type = ptLoad → ∀ k < (phdr m image i).memsz, ∀ l < (phdr m image j).memsz,
      (phdr m image i).vaddr + k = (phdr m image j).vaddr + l →
        (phdr m image i).byte m image k = (phdr m image j).byte m image l

/-- The window of `elf64_load`, on the sums as they are computed. -/
def InLoadWindow (m : Mem) (image : ℕ) : Prop :=
  ∀ i < ePhnum m image, (phdr m image i).type = ptLoad →
    ((phdr m image i).vaddr + (phdr m image i).memsz) % word ≤ userLoadMax

/-- **An image that is loaded safely**: the table of headers does not wrap around, and unless the
loader turns the image away, its segments are in order. -/
structure Loadable (m : Mem) (image : ℕ) : Prop where
  table : ePhoff m image + ePhnum m image * ePhentsize m image < word
  segments : InLoadWindow m image → SegmentsOk m image 0

/-! ### The loop -/

variable {image size bias left j hi n : ℕ} {check : Phdr → Bool} {a : ℕ}

def SameImage (image size : ℕ) (m m' : Mem) : Prop := ∀ i, image ≤ i → i < image + size → m' i = m i

theorem SameImage.load_eq (h : SameImage image size m m') {w : ℕ} (hlo : image ≤ a)
    (hhi : a + w ≤ image + size) : load m' a w = load m a w :=
  load_congr fun i hi hi' => h i (by omega) (by omega)

theorem SameImage.load (h : SameImage image size m m') (hle : g.filesz ≤ g.memsz)
    (hapart : RangesApart g.dest g.memsz image size) : SameImage image size m (g.load m') := by
  intro x hlo hhi
  rw [RangesApart] at hapart
  rw [Segment.load_of_not_mem (by omega) hle]
  exact h x hlo hhi

/-- What the validation checks of the table of headers. -/
structure TableOk (m : Mem) (image size : ℕ) : Prop where
  buffer : image + size ≤ word
  header : ehdrSize ≤ size
  table : ePhoff m image + ePhnum m image * ePhentsize m image ≤ size
  entry : phdrSize ≤ ePhentsize m image

theorem TableOk.phdrAddr_eq (h : TableOk m image size) (hi : i < ePhnum m image) :
    phdrAddr m image i = image + ePhoff m image + i * ePhentsize m image ∧
      image ≤ phdrAddr m image i ∧ phdrAddr m image i + phdrSize ≤ image + size := by
  have hstep : (i + 1) * ePhentsize m image ≤ ePhnum m image * ePhentsize m image :=
    Nat.mul_le_mul_right _ hi
  rw [Nat.add_mul, Nat.one_mul] at hstep
  have hbuffer := h.buffer
  have htable := h.table
  have hentry : 56 ≤ ePhentsize m image := h.entry
  have heq : phdrAddr m image i = image + ePhoff m image + i * ePhentsize m image :=
    Nat.mod_eq_of_lt (by omega)
  refine ⟨heq, by omega, ?_⟩
  rw [heq, show phdrSize = 56 from rfl]
  omega

theorem SameImage.header (h : SameImage image size m m') (ht : TableOk m image size) :
    ePhnum m' image = ePhnum m image ∧ ePhoff m' image = ePhoff m image ∧
      ePhentsize m' image = ePhentsize m image := by
  have hsize : 64 ≤ size := ht.header
  exact ⟨h.load_eq (by omega) (by omega), h.load_eq (by omega) (by omega),
    h.load_eq (by omega) (by omega)⟩

theorem SameImage.phdr_eq (h : SameImage image size m m') (ht : TableOk m image size)
    (hi : i < ePhnum m image) :
    phdrAddr m' image i = phdrAddr m image i ∧ phdr m' image i = phdr m image i := by
  obtain ⟨-, hoff, hent⟩ := h.header ht
  have haddr : phdrAddr m' image i = phdrAddr m image i := by rw [phdrAddr, phdrAddr, hoff, hent]
  obtain ⟨-, hlo, hhi⟩ := ht.phdrAddr_eq hi
  rw [show phdrSize = 56 from rfl] at hhi
  refine ⟨haddr, ?_⟩
  rw [phdr, phdr, haddr, phdrAt, phdrAt, h.load_eq hlo (by omega), h.load_eq (by omega) (by omega),
    h.load_eq (by omega) (by omega), h.load_eq (by omega) (by omega), h.load_eq (by omega) (by omega)]

/-- The headers from `i` on that have a segment. -/
def loadHeaders (m : Mem) (image i : ℕ) : List Phdr :=
  ((List.range' i (ePhnum m image - i)).map (phdr m image)).filter fun ph => ph.type = ptLoad

theorem mem_loadHeaders {ph : Phdr} :
    ph ∈ loadHeaders m image i ↔
      ∃ j, i ≤ j ∧ j < ePhnum m image ∧ phdr m image j = ph ∧ ph.type = ptLoad := by
  rw [loadHeaders, List.mem_filter, List.mem_map]
  constructor
  · rintro ⟨⟨j, hj, rfl⟩, htype⟩
    rw [List.mem_range'_1] at hj
    exact ⟨j, hj.1, by omega, rfl, by simpa using htype⟩
  · rintro ⟨j, hij, hj, rfl, htype⟩
    exact ⟨⟨j, List.mem_range'_1.2 ⟨hij, by omega⟩, rfl⟩, by simpa using htype⟩

theorem loadHeaders_of_lt (hi : i < ePhnum m image) :
    loadHeaders m image i =
      if (phdr m image i).type = ptLoad then phdr m image i :: loadHeaders m image (i + 1)
      else loadHeaders m image (i + 1) := by
  have hlen : ePhnum m image - i = ePhnum m image - (i + 1) + 1 := by omega
  rw [loadHeaders, hlen, List.range'_succ, List.map_cons, List.filter_cons]
  simp only [decide_eq_true_eq]
  rfl

theorem loadHeaders_of_le (h : ePhnum m image ≤ i) : loadHeaders m image i = [] := by
  rw [loadHeaders, Nat.sub_eq_zero_of_le h]
  rfl

/-- The look at a header from `i` on. -/
def LooksFrom (m : Mem) (image i : ℕ) (x : Access) : Prop :=
  ∃ j, i ≤ j ∧ j < ePhnum m image ∧ x = .read (phdrAddr m image j) phdrSize

theorem looksFrom_of_le (h : ePhnum m image ≤ i) (x : Access) : LooksFrom m image i x ↔ False := by
  refine iff_false_intro ?_
  rintro ⟨j, hij, hj, -⟩
  omega

theorem looksFrom_of_lt (hi : i < ePhnum m image) (x : Access) :
    LooksFrom m image i x ↔
      x = .read (phdrAddr m image i) phdrSize ∨ LooksFrom m image (i + 1) x := by
  constructor
  · rintro ⟨j, hij, hj, rfl⟩
    rcases Nat.eq_or_lt_of_le hij with rfl | hij
    · exact .inl rfl
    · exact .inr ⟨j, hij, hj, rfl⟩
  · rintro (rfl | ⟨j, hij, hj, rfl⟩)
    · exact ⟨i, le_rfl, hi, rfl⟩
    · exact ⟨j, by omega, hj, rfl⟩

/-- **The loop over headers that stay as they are** loads their segments in order, and looks at each
header once. -/
theorem loadLoop_eq (ht : TableOk m image size) (hm : SameImage image size m m')
    (hcheck : ∀ ph ∈ loadHeaders m image i, check ph = true)
    (hclear : ∀ ph ∈ loadHeaders m image i,
      (ph.segment image bias).filesz ≤ (ph.segment image bias).memsz ∧
        RangesApart (ph.segment image bias).dest (ph.segment image bias).memsz image size)
    (hleft : ePhnum m image - i ≤ left) :
    (loadLoop image bias check left i m').1 =
      some (loadAll m' ((loadHeaders m image i).map (Phdr.segment image bias))) ∧
    ∀ x, x ∈ (loadLoop image bias check left i m').2 ↔ LooksFrom m image i x ∨
      ∃ ph ∈ loadHeaders m image i, x ∈ (ph.segment image bias).accesses := by
  induction left generalizing i m' with
  | zero =>
    have hge : ePhnum m image ≤ i := by omega
    rw [loadHeaders_of_le hge]
    exact ⟨rfl, fun x => by simp [loadLoop, looksFrom_of_le hge]⟩
  | succ left ih =>
    rw [loadLoop, (hm.header ht).1]
    by_cases hi : i < ePhnum m image
    swap
    · rw [if_neg hi, loadHeaders_of_le (not_lt.1 hi)]
      exact ⟨rfl, fun x => by simp [looksFrom_of_le (not_lt.1 hi)]⟩
    obtain ⟨haddr, hph⟩ := hm.phdr_eq ht hi
    rw [if_pos hi, haddr, hph]
    have hcons := loadHeaders_of_lt hi
    by_cases htype : (phdr m image i).type = ptLoad
    · rw [if_pos htype] at hcons
      rw [hcons] at hcheck hclear ⊢
      rw [List.map_cons, loadAll_cons]
      obtain ⟨hle, hapart⟩ := hclear _ List.mem_cons_self
      obtain ⟨hmem, hacc⟩ := ih (i := i + 1) (hm.load hle hapart)
        (fun ph hp => hcheck ph (List.mem_cons_of_mem _ hp))
        (fun ph hp => hclear ph (List.mem_cons_of_mem _ hp)) (by omega)
      simp only [if_neg (not_not.2 htype), hcheck _ List.mem_cons_self, Bool.true_eq_false, if_false]
      refine ⟨hmem, fun x => ?_⟩
      rw [List.mem_cons, List.mem_append, hacc x, looksFrom_of_lt hi, List.exists_mem_cons_iff]
      exact or_assoc.symm.trans or_or_or_comm
    · rw [if_neg htype] at hcons
      rw [hcons] at hcheck hclear ⊢
      obtain ⟨hmem, hacc⟩ := ih (i := i + 1) hm hcheck hclear (by omega)
      simp only [if_pos htype]
      refine ⟨hmem, fun x => ?_⟩
      rw [List.mem_cons, hacc x, looksFrom_of_lt hi]
      exact or_assoc.symm

/-! ### Safe loading -/

/-- What both loaders know of a header that has a segment before they copy it. -/
structure HeaderOk (image size lo hi bias : ℕ) (ph : Phdr) : Prop where
  file : ph.offset + ph.filesz ≤ size
  grows : ph.filesz ≤ ph.memsz
  low : lo ≤ bias + ph.vaddr
  high : bias + ph.vaddr + ph.memsz ≤ hi
  sum : bias + ph.vaddr + ph.memsz < word
  clear : RangesApart (bias + ph.vaddr) ph.memsz image size

variable {ph ph' : Phdr} {hs : List Phdr}

theorem HeaderOk.dest_eq (h : HeaderOk image size lo hi bias ph) :
    (ph.segment image bias).dest = bias + ph.vaddr :=
  Nat.mod_eq_of_lt (by have := h.sum; omega)

theorem HeaderOk.src_eq (h : HeaderOk image size lo hi bias ph) (hbuf : image + size ≤ word) :
    (ph.segment image bias).src = image + ph.offset ∨
      ph.filesz = 0 ∧ (ph.segment image bias).src = 0 := by
  have hfile := h.file
  rcases Nat.lt_or_ge (image + ph.offset) word with hlt | hge
  · exact .inl (Nat.mod_eq_of_lt hlt)
  · have heq : image + ph.offset = word := by omega
    exact .inr ⟨by omega, by simp only [Phdr.segment, heq, Nat.mod_self]⟩

theorem HeaderOk.byte_eq (h : HeaderOk image size lo hi bias ph) (hbuf : image + size ≤ word) :
    (ph.segment image bias).byte m k = ph.byte m image k := by
  rw [Segment.byte, Phdr.byte]
  change (if k < ph.filesz then m ((ph.segment image bias).src + k) else 0) = _
  split
  · next hfile =>
      rcases h.src_eq hbuf with hsrc | ⟨hzero, -⟩
      · rw [hsrc]
      · omega
  · rfl

theorem HeaderOk.dest_apart_src (h : HeaderOk image size lo hi bias ph)
    (h' : HeaderOk image size lo hi bias ph') (hbuf : image + size ≤ word) :
    RangesApart (ph.segment image bias).dest (ph.segment image bias).memsz
      (ph'.segment image bias).src (ph'.segment image bias).filesz := by
  have hclear := h.clear
  have hfile := h'.file
  rw [h.dest_eq, RangesApart]
  rw [RangesApart] at hclear
  change bias + ph.vaddr + ph.memsz ≤ _ ∨ _ + ph'.filesz ≤ bias + ph.vaddr
  rcases h'.src_eq hbuf with hsrc | ⟨hzero, hsrc⟩
  · rw [hsrc]
    omega
  · rw [hsrc, hzero]
    exact .inr (Nat.zero_le _)

/-- **Headers that are fine and agree with each other** put their bytes where they belong. -/
theorem loadAll_segments (hbuf : image + size ≤ word)
    (hok : ∀ ph ∈ hs, HeaderOk image size lo hi bias ph)
    (hagree : ∀ ph ∈ hs, ∀ ph' ∈ hs, ∀ k < ph.memsz, ∀ l < ph'.memsz, ph.vaddr + k = ph'.vaddr + l →
      ph.byte m image k = ph'.byte m image l) (hp : ph ∈ hs) (hk : k < ph.memsz) :
    loadAll m (hs.map (Phdr.segment image bias)) (bias + ph.vaddr + k) = ph.byte m image k := by
  refine loadAll_of_agree (fun g hg => ?_) (fun g hg g' hg' => ?_) (fun g hg l hl heq => ?_)
    ⟨_, List.mem_map_of_mem hp, ?_⟩
  · obtain ⟨p, hp, rfl⟩ := List.mem_map.1 hg
    exact (hok p hp).grows
  · obtain ⟨p, hp, rfl⟩ := List.mem_map.1 hg
    obtain ⟨q, hq, rfl⟩ := List.mem_map.1 hg'
    exact (hok p hp).dest_apart_src (hok q hq) hbuf
  · obtain ⟨q, hq, rfl⟩ := List.mem_map.1 hg
    rw [(hok q hq).dest_eq] at heq
    rw [(hok q hq).byte_eq hbuf]
    exact hagree q hq ph hp l hl k hk (by omega)
  · rw [(hok ph hp).dest_eq]
    exact ⟨Nat.le_add_right _ _, Nat.add_lt_add_left hk _⟩

/-- **The loop is safe** on a table of headers that are fine one by one and agree with each other. -/
theorem loadLoop_stays (ht : TableOk m image size)
    (hok : ∀ ph ∈ loadHeaders m image 0, HeaderOk image size lo hi bias ph)
    (hcheck : ∀ ph ∈ loadHeaders m image 0, check ph = true) (hnum : ePhnum m image ≤ left) :
    StaysInside image size lo hi
      (headerReads m image ++ (loadLoop image bias check left 0 m).2) := by
  have hbuf := ht.buffer
  have hsize : 64 ≤ size := ht.header
  obtain ⟨-, hacc⟩ := loadLoop_eq (i := 0) ht (fun _ _ _ => rfl) hcheck
    (fun ph hp => ⟨(hok ph hp).grows, by rw [(hok ph hp).dest_eq]; exact (hok ph hp).clear⟩) hnum
  have hhead : ∀ j < ePhnum m image, Within image (image + size) (phdrAddr m image j) phdrSize :=
    fun j hj => .inr (ht.phdrAddr_eq hj).2
  refine ⟨fun a len hx => ?_, fun a len hx => ?_⟩
  · rcases List.mem_append.1 hx with hx | hx
    · rcases List.mem_cons.1 hx with heq | hx
      · cases heq
        exact .inr ⟨le_rfl, Nat.add_le_add_left hsize _⟩
      · obtain ⟨j, hj, heq⟩ := List.mem_map.1 hx
        cases heq
        exact hhead j (by simpa using hj)
    · rcases (hacc _).1 hx with ⟨j, -, hj, heq⟩ | ⟨ph, hp, hx⟩
      · cases heq
        exact hhead j hj
      · simp only [Segment.accesses, List.mem_cons, Access.read.injEq, reduceCtorEq, List.not_mem_nil,
          or_false] at hx
        obtain ⟨rfl, rfl⟩ := hx
        have hfile := (hok ph hp).file
        rcases (hok ph hp).src_eq hbuf with hsrc | ⟨hzero, -⟩
        · rw [hsrc]
          exact .inr ⟨by omega, by change image + ph.offset + ph.filesz ≤ image + size; omega⟩
        · exact .inl hzero
  · rcases List.mem_append.1 hx with hx | hx
    · rcases List.mem_cons.1 hx with heq | hx
      · cases heq
      · obtain ⟨j, -, heq⟩ := List.mem_map.1 hx
        cases heq
    · rcases (hacc _).1 hx with ⟨j, -, -, heq⟩ | ⟨ph, hp, hx⟩
      · cases heq
      · have h := hok ph hp
        have hlow := h.low
        have hhigh := h.high
        have hgrows := h.grows
        simp only [Segment.accesses, List.mem_cons, reduceCtorEq, Access.write.injEq, List.not_mem_nil,
          or_false, false_or, h.dest_eq] at hx
        rcases hx with ⟨rfl, rfl⟩ | ⟨rfl, rfl⟩
        · exact .inr ⟨hlow, by change bias + ph.vaddr + ph.filesz ≤ hi; omega⟩
        · refine .inr ⟨by omega, ?_⟩
          change bias + ph.vaddr + ph.filesz + (ph.memsz - ph.filesz) ≤ hi
          omega

/-! ### The native loader -/

variable {info info' : ElfImageInfo}

/-- What an accepted header satisfies, against the bounds that come out of the validation. -/
structure HeaderSeen (size : ℕ) (info : ElfImageInfo) (ph : Phdr) : Prop where
  file : (ph.offset + ph.filesz) % word ≤ size
  grows : ph.filesz ≤ ph.memsz
  low : info.lowestVaddr ≤ ph.vaddr
  high : (ph.vaddr + ph.memsz) % word ≤ info.highestVaddr

theorem validatePhdr_spec (h : validatePhdr size info ph = some info') :
    info'.lowestVaddr ≤ info.lowestVaddr ∧ info.highestVaddr ≤ info'.highestVaddr ∧
      (ph.type = ptLoad → HeaderSeen size info' ph) := by
  rw [validatePhdr] at h
  split at h
  · next htype =>
      cases h
      exact ⟨le_rfl, le_rfl, fun hload => absurd hload htype⟩
  split at h
  · cases h
  next hrange =>
    rw [not_or, not_lt, not_lt] at hrange
    cases h
    refine ⟨?_, ?_, fun _ => ⟨hrange.1, hrange.2, ?_, ?_⟩⟩
    all_goals
      simp only
      split_ifs <;> omega

variable {heapBase : ℕ} {f : ℕ → Phdr}

/-- **The loop of the validation** accepts what it has seen. -/
theorem foldlM_validatePhdr {is : List ℕ}
    (h : is.foldlM (fun info i => validatePhdr size info (f i)) info = some info') :
    info'.lowestVaddr ≤ info.lowestVaddr ∧ info.highestVaddr ≤ info'.highestVaddr ∧
      ∀ i ∈ is, (f i).type = ptLoad → HeaderSeen size info' (f i) := by
  induction is generalizing info with
  | nil =>
    cases h
    exact ⟨le_rfl, le_rfl, by simp⟩
  | cons i is ih =>
    rw [List.foldlM_cons, Option.bind_eq_bind, Option.bind_eq_some_iff] at h
    obtain ⟨info₁, h₁, h⟩ := h
    obtain ⟨hlow₁, hhigh₁, hseen₁⟩ := validatePhdr_spec h₁
    obtain ⟨hlow, hhigh, hseen⟩ := ih h
    refine ⟨hlow.trans hlow₁, hhigh₁.trans hhigh, fun j hj htype => ?_⟩
    rcases List.mem_cons.1 hj with rfl | hj
    · obtain ⟨hfile, hgrows, hlo, hhi⟩ := hseen₁ htype
      exact ⟨hfile, hgrows, hlow.trans hlo, hhi.trans hhigh⟩
    · exact hseen j hj htype

theorem foldlM_validatePhdr_le {is : List ℕ} {b : ℕ}
    (h : is.foldlM (fun info i => validatePhdr size info (f i)) info = some info')
    (hinfo : info.highestVaddr ≤ b)
    (hf : ∀ i ∈ is, (f i).type = ptLoad → ((f i).vaddr + (f i).memsz) % word ≤ b) :
    info'.highestVaddr ≤ b := by
  induction is generalizing info with
  | nil =>
    cases h
    exact hinfo
  | cons i is ih =>
    rw [List.foldlM_cons, Option.bind_eq_bind, Option.bind_eq_some_iff] at h
    obtain ⟨info₁, h₁, h⟩ := h
    refine ih h ?_ fun j hj => hf j (List.mem_cons_of_mem _ hj)
    rw [validatePhdr] at h₁
    split at h₁
    · cases h₁
      exact hinfo
    next htype =>
    split at h₁
    · cases h₁
    cases h₁
    have hi := hf i List.mem_cons_self (not_not.1 htype)
    simp only
    split
    · exact hi
    · exact hinfo

/-- **What `elf64_validate` has checked** of an image that it accepts. -/
theorem elf64Validate_spec (h : elf64Validate m image size = some info) :
    ehdrSize ≤ size ∧ phdrSize ≤ ePhentsize m image ∧
      (ePhoff m image + ePhnum m image * ePhentsize m image) % word ≤ size ∧
      (∀ i < ePhnum m image, (phdr m image i).type = ptLoad → HeaderSeen size info (phdr m image i)) ∧
      (InLoadWindow m image → info.highestVaddr ≤ userLoadMax) := by
  rw [elf64Validate] at h
  split at h
  · cases h
  next hsize =>
  split at h
  · cases h
  split at h
  · cases h
  next htable =>
  rw [not_or, not_lt] at hsize htable
  rw [not_lt] at htable
  obtain ⟨info₁, hloop, rfl⟩ := Option.map_eq_some_iff.1 h
  obtain ⟨-, -, hseen⟩ := foldlM_validatePhdr hloop
  refine ⟨hsize.2, htable.2, htable.1, fun i hi htype => ?_, fun hwin => ?_⟩
  · obtain ⟨hfile, hgrows, hlow, hhigh⟩ := hseen i (by simpa using hi) htype
    refine ⟨hfile, hgrows, ?_, ?_⟩
    · split
      · exact Nat.zero_le _
      · exact hlow
    · split
      · exact hhigh
      · exact hhigh
  · have hle := foldlM_validatePhdr_le hloop (Nat.zero_le userLoadMax)
      fun i hi => hwin i (by simpa using hi)
    split
    · exact hle
    · exact hle

abbrev userBase : ℕ := 0x4000000

/-- The range check of `sys_exec_image`. -/
def inUserRange (info : ElfImageInfo) (heapBase : ℕ) : Bool :=
  userBase ≤ info.lowestVaddr && info.highestVaddr ≤ heapBase

/-- The end of the lower half of the address space, where all memory is that the kernel uses. -/
abbrev lowerHalf : ℕ := 2 ^ 47

theorem add_le_of_within {off : ℕ} (hbuf : image + size ≤ lowerHalf) (hoff : off < word)
    (hin : Within image (image + size) ((image + off) % word) len) : len = 0 ∨ off + len ≤ size := by
  rcases hin with hzero | ⟨hlo, hhi⟩
  · exact .inl hzero
  refine .inr ?_
  have hhalf : lowerHalf ≤ word := by norm_num
  rcases Nat.lt_or_ge (image + off) word with hlt | hge
  · rw [Nat.mod_eq_of_lt hlt] at hhi
    omega
  · rw [Nat.mod_eq_sub_mod hge, Nat.mod_eq_of_lt (by omega)] at hlo
    omega

theorem table_lt_of_within (hbuf : image + size ≤ lowerHalf)
    (hin : ∀ i < ePhnum m image, Within image (image + size) (phdrAddr m image i) phdrSize) :
    ePhoff m image + ePhnum m image * ePhentsize m image < word := by
  have hent : ePhentsize m image < 65536 := load_lt m _ 2
  have hoff : ePhoff m image < word := load_lt m _ 8
  have hword : word = 2 ^ 64 := rfl
  have hhalf : lowerHalf = 2 ^ 47 := rfl
  -- the header `i` is where it should be
  have hstep : ∀ i < ePhnum m image, ePhoff m image + i * ePhentsize m image + 56 ≤ size := by
    intro i
    induction i with
    | zero =>
      intro hi
      have h := hin 0 hi
      rw [phdrAddr, Nat.add_assoc] at h
      rcases add_le_of_within hbuf (by omega) h with h | h
      · cases h
      · exact h
    | succ i ih =>
      intro hi
      have hprev := ih (by omega)
      have h := hin (i + 1) hi
      rw [phdrAddr, Nat.add_assoc] at h
      rw [Nat.succ_mul] at h ⊢
      rcases add_le_of_within hbuf (by omega) h with h | h
      · cases h
      · exact h
  rcases Nat.eq_zero_or_pos (ePhnum m image) with hzero | hpos
  · rw [hzero, Nat.zero_mul, Nat.add_zero]
    exact hoff
  · obtain ⟨n, hn⟩ := Nat.exists_eq_add_of_le' hpos
    have hlast := hstep n (by omega)
    rw [hn, Nat.add_mul, Nat.one_mul]
    omega

theorem headerOk_of_sums (hs : SumsOk m image 0) (hclear : Clear m image size 0)
    (hseen : ∀ i < ePhnum m image, (phdr m image i).type = ptLoad →
      HeaderSeen size info (phdr m image i))
    (hlo : userBase ≤ info.lowestVaddr) (hhi : info.highestVaddr ≤ heapBase) :
    ∀ ph ∈ loadHeaders m image 0, HeaderOk image size userBase heapBase 0 ph := by
  intro ph hp
  obtain ⟨i, -, hi, rfl, htype⟩ := mem_loadHeaders.1 hp
  obtain ⟨hfile, hgrows, hlow, hhigh⟩ := hseen i hi htype
  have hsum := hs.file i hi htype
  have hsum' := hs.sum i hi htype
  rw [Nat.zero_add] at hsum'
  rw [Nat.mod_eq_of_lt hsum] at hfile
  rw [Nat.mod_eq_of_lt hsum'] at hhigh
  refine ⟨hfile, hgrows, ?_, ?_, ?_, hclear i hi htype⟩
  all_goals omega

theorem nativeLoop_eq (ht : TableOk m image size) (hclear : Clear m image size 0)
    (hgrows : ∀ i < ePhnum m image, (phdr m image i).type = ptLoad →
      (phdr m image i).filesz ≤ (phdr m image i).memsz) :
    (loadLoop image 0 (fun _ => true) maxPhnum 0 m).1 =
      some (loadAll m ((loadHeaders m image 0).map (Phdr.segment image 0))) ∧
    ∀ x, x ∈ (loadLoop image 0 (fun _ => true) maxPhnum 0 m).2 ↔ LooksFrom m image 0 x ∨
      ∃ ph ∈ loadHeaders m image 0, x ∈ (ph.segment image 0).accesses := by
  refine loadLoop_eq ht (fun _ _ _ => rfl) (fun _ _ => rfl) (fun ph hp => ?_)
    (Nat.le_of_lt_succ (load_lt m _ 2))
  obtain ⟨i, -, hi, rfl, htype⟩ := mem_loadHeaders.1 hp
  have hc := hclear i hi htype
  rw [Nat.zero_add] at hc
  rw [Phdr.segment_dest, Nat.zero_add, Nat.mod_eq_of_lt (phdr_vaddr_lt m image i)]
  exact ⟨hgrows i hi htype, hc⟩

theorem sumsOk_of_accesses (hbuf : image + size ≤ lowerHalf) (hbase : heapBase < word)
    (hgrows : ∀ i < ePhnum m image, (phdr m image i).type = ptLoad →
      (phdr m image i).filesz ≤ (phdr m image i).memsz)
    (hreads : ∀ i < ePhnum m image, (phdr m image i).type = ptLoad → Within image (image + size)
      ((phdr m image i).segment image 0).src ((phdr m image i).segment image 0).filesz)
    (hwrites : ∀ i < ePhnum m image, (phdr m image i).type = ptLoad → ∀ a len,
      .write a len ∈ ((phdr m image i).segment image 0).accesses → Within userBase heapBase a len) :
    SumsOk m image 0 := by
  have hhalf : lowerHalf < word := by norm_num
  refine ⟨fun i hi htype => ?_, fun i hi htype => ?_⟩
  · have hread := hreads i hi htype
    have hoff := phdr_offset_lt m image i
    rw [Phdr.segment_src, Phdr.segment_filesz] at hread
    rcases add_le_of_within hbuf hoff hread with hzero | hle
    · rw [hzero, Nat.add_zero]
      exact hoff
    · exact lt_of_le_of_lt (hle.trans (le_trans (Nat.le_add_left _ _) hbuf)) hhalf
  · have hfile := hwrites i hi htype _ _ (Segment.mem_accesses.2 (.inr (.inl rfl)))
    have hzero := hwrites i hi htype _ _ (Segment.mem_accesses.2 (.inr (.inr rfl)))
    have hle := hgrows i hi htype
    have haddr := phdr_vaddr_lt m image i
    rw [Phdr.segment_dest, Phdr.segment_filesz, Nat.zero_add, Nat.mod_eq_of_lt haddr] at hfile hzero
    rw [Phdr.segment_memsz] at hzero
    rw [Within] at hfile hzero
    rw [Nat.zero_add]
    omega

/-- **Safe loading shows that the image is loadable.** -/
theorem loadable_of_safe (hbuf : image + size ≤ lowerHalf)
    (hv : elf64Validate m image size = some info) (hlow : userBase ≤ info.lowestVaddr)
    (hbase : heapBase < word) (hclear : Clear m image size 0)
    (hsafe : LoadsSafely m image size userBase heapBase 0 (elf64Load m image size)) :
    Loadable m image := by
  obtain ⟨hsize, hentry, htable, hseen, hwindow⟩ := elf64Validate_spec hv
  have hlow' : ¬info.lowestVaddr < userLoadMin := not_lt.2 (le_trans (by norm_num) hlow)
  simp only [elf64Load, hv, hlow', false_or] at hsafe
  have hsum : ePhoff m image + ePhnum m image * ePhentsize m image < word := by
    refine table_lt_of_within hbuf fun i hi => hsafe.reads _ _ ?_
    have hx : Access.read (phdrAddr m image i) phdrSize ∈ headerReads m image :=
      List.mem_cons_of_mem _ (List.mem_map.2 ⟨i, List.mem_range.2 hi, rfl⟩)
    split
    · exact hx
    · exact List.mem_append_left _ hx
  refine ⟨hsum, fun hwin => ?_⟩
  rw [Nat.mod_eq_of_lt hsum] at htable
  have ht : TableOk m image size := ⟨hbuf.trans (by norm_num), hsize, htable, hentry⟩
  have hgrows := fun i hi htype => (hseen i hi htype).grows
  obtain ⟨hmem, hacc⟩ := nativeLoop_eq ht hclear hgrows
  rw [if_neg (not_lt.2 (hwindow hwin))] at hsafe
  have hseg : ∀ i < ePhnum m image, (phdr m image i).type = ptLoad →
      ∀ x ∈ ((phdr m image i).segment image 0).accesses,
        x ∈ headerReads m image ++ (loadLoop image 0 (fun _ => true) maxPhnum 0 m).2 :=
    fun i hi htype x hx => List.mem_append_right _ ((hacc x).2 (.inr
      ⟨_, mem_loadHeaders.2 ⟨i, Nat.zero_le _, hi, rfl, htype⟩, hx⟩))
  refine ⟨sumsOk_of_accesses hbuf hbase hgrows
    (fun i hi htype => hsafe.reads _ _ (hseg i hi htype _ (Segment.mem_accesses.2 (.inl rfl))))
    (fun i hi htype a len hx => hsafe.writes _ _ (hseg i hi htype _ hx)),
    fun i hi j hj htype htype' k hk l hl heq => ?_⟩
  have hi' := hsafe.bytes _ hmem i hi htype k hk
  have hj' := hsafe.bytes _ hmem j hj htype' l hl
  rw [← hi', ← hj', Nat.zero_add, Nat.zero_add, heq]

/-- **Loadable images are loaded safely.** -/
theorem safe_of_loadable (hbuf : image + size ≤ lowerHalf)
    (hv : elf64Validate m image size = some info) (hlow : userBase ≤ info.lowestVaddr)
    (hhigh : info.highestVaddr ≤ heapBase) (hclear : Clear m image size 0) (hl : Loadable m image) :
    LoadsSafely m image size userBase heapBase 0 (elf64Load m image size) := by
  obtain ⟨hsize, hentry, htable, hseen, -⟩ := elf64Validate_spec hv
  have hlow' : ¬info.lowestVaddr < userLoadMin := not_lt.2 (le_trans (by norm_num) hlow)
  have hword : image + size ≤ word := hbuf.trans (by norm_num)
  rw [Nat.mod_eq_of_lt hl.table] at htable
  have ht : TableOk m image size := ⟨hword, hsize, htable, hentry⟩
  simp only [elf64Load, hv, hlow', false_or]
  split
  · -- the image is turned away before anything is copied
    refine ⟨⟨fun a len hx => ?_, fun a len hx => ?_⟩, fun m' hm' => by cases hm'⟩
    · rcases List.mem_cons.1 hx with heq | hx
      · cases heq
        exact .inr ⟨le_rfl, Nat.add_le_add_left hsize _⟩
      · obtain ⟨j, hj, heq⟩ := List.mem_map.1 hx
        cases heq
        exact .inr (ht.phdrAddr_eq (by simpa using hj)).2
    · rcases List.mem_cons.1 hx with heq | hx
      · cases heq
      · obtain ⟨j, -, heq⟩ := List.mem_map.1 hx
        cases heq
  · next hin =>
      have hwin : InLoadWindow m image := fun i hi htype =>
        (hseen i hi htype).high.trans (not_lt.1 hin)
      obtain ⟨hsums, hagree⟩ := hl.segments hwin
      have hok := headerOk_of_sums hsums hclear hseen hlow hhigh
      refine ⟨loadLoop_stays ht hok (fun _ _ => rfl) (Nat.le_of_lt_succ (load_lt m _ 2)),
        fun m' hm' i hi htype k hk => ?_⟩
      obtain ⟨hmem, -⟩ := nativeLoop_eq ht hclear fun i hi htype => (hseen i hi htype).grows
      rw [hmem, Option.some.injEq] at hm'
      rw [← hm']
      refine loadAll_segments hword hok (fun ph hp ph' hp' => ?_)
        (mem_loadHeaders.2 ⟨i, Nat.zero_le _, hi, rfl, htype⟩) hk
      obtain ⟨i, -, hi, rfl, htype⟩ := mem_loadHeaders.1 hp
      obtain ⟨j, -, hj, rfl, htype'⟩ := mem_loadHeaders.1 hp'
      exact hagree i hi j hj htype htype'

/-- A file with one program header, of a segment that is loaded, and four bytes of data behind it. -/
def tinyElf (ph : Phdr) : List Byte :=
  [0x7f, 69, 76, 70, 2, 1] ++ List.replicate 10 0 ++ Bytes.le 2 2 ++ Bytes.le 2 emX8664 ++
    Bytes.le 4 1 ++ Bytes.le 8 ph.vaddr ++ Bytes.le 8 ehdrSize ++ Bytes.le 8 0 ++ Bytes.le 4 0 ++
    Bytes.le 2 ehdrSize ++ Bytes.le 2 phdrSize ++ Bytes.le 2 1 ++ Bytes.le 6 0 ++
    Bytes.le 4 ph.type ++ Bytes.le 4 5 ++ Bytes.le 8 ph.offset ++ Bytes.le 8 ph.vaddr ++
    Bytes.le 8 ph.vaddr ++ Bytes.le 8 ph.filesz ++ Bytes.le 8 ph.memsz ++ Bytes.le 8 4096 ++
    [0x90, 0x90, 0x90, 0xc3]

def tinyMem (ph : Phdr) : Mem := Bytes.overlay (fun _ => 0) 0x100000 (tinyElf ph)

theorem tinyMem_headers (hnum : ePhnum (tinyMem ph) 0x100000 = 1)
    (hph : phdr (tinyMem ph) 0x100000 0 = ph) (hi : i < ePhnum (tinyMem ph) 0x100000) :
    i = 0 ∧ phdr (tinyMem ph) 0x100000 i = ph := by
  have hzero : i = 0 := by omega
  exact ⟨hzero, by rw [hzero, hph]⟩

/-- A small program: its data is loaded at the bottom of the window, with four zeros behind it. -/
def tinyPhdr : Phdr := ⟨ptLoad, 120, userBase, 4, 8⟩

/-- A program header whose data is said to end where the address space does: the sum of its offset and
its size is zero. -/
def wrappedPhdr : Phdr := ⟨ptLoad, word - 16, userBase, 16, 16⟩

end Tnu
