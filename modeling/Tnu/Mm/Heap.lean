/-
**The kernel heap.**

The allocator of `kernel/mm/heap.c`: one array, cut into blocks that are linked both ways in address
order, first-fit allocation, and freeing that merges with the free neighbours.  A block's header
stands in the array itself, in front of its payload, so the functions work on bytes of memory; a
pointer is an address, NULL is zero.

The loop of `kmalloc` and the recursion of `coalesce` follow pointers found in memory.  Here they
give up with `none` after more steps than the array can hold blocks; that this never happens is
proved in `Tnu/Mm/HeapSafe.lean`.

Main definitions:

* `HeapBlock`, `blockAt` — a block's header, and the one found at an address;
* `heapInit`, `splitBlock`, `coalesce`, `kmalloc`, `kfree`,
  `kcalloc`, `krealloc` — the functions of the source;
* `HeapOp`, `HeapRun.step` — what the kernel may do with its heap.
-/

import Tnu.Memory

set_option autoImplicit false

namespace Tnu.Mm

abbrev kernelHeapSize : ℕ := 16 * 1024 * 1024

abbrev heapMagic : ℕ := 0x544e5548

/-- `sizeof(struct heap_block)`. -/
abbrev blockSize : ℕ := 32

/-- The array `heap`: the linker places it somewhere, aligned to 16 bytes, not at NULL. -/
structure HeapArray where
  base : ℕ
  /-- `__attribute__((aligned(16)))`. -/
  aligned : 16 ∣ base
  pos : 0 < base
  fits : base + kernelHeapSize ≤ word

/-! ### Headers -/

/-- `struct heap_block`. -/
structure HeapBlock where
  size : ℕ
  free : Bool
  magic : ℕ
  next : ℕ
  prev : ℕ
deriving DecidableEq

def blockAt (m : Mem) (b : ℕ) : HeapBlock where
  size := load m b 8
  free := load m (b + 8) 1 != 0
  magic := load m (b + 12) 4
  next := load m (b + 16) 8
  prev := load m (b + 24) 8

/-- `block->size = v`. -/
def setSize (m : Mem) (b v : ℕ) : Mem := store m b 8 v

/-- `block->free = v`. -/
def setFree (m : Mem) (b : ℕ) (v : Bool) : Mem := store m (b + 8) 1 v.toNat

/-- `block->magic = v`. -/
def setMagic (m : Mem) (b v : ℕ) : Mem := store m (b + 12) 4 v

/-- `block->next = v`. -/
def setNext (m : Mem) (b v : ℕ) : Mem := store m (b + 16) 8 v

/-- `block->prev = v`. -/
def setPrev (m : Mem) (b v : ℕ) : Mem := store m (b + 24) 8 v

def align16 (value : ℕ) : ℕ := (value + 15) % word / 16 * 16

/-! ### The functions of the source -/

/-- The memory of the machine and `heap_used_highwater`.  `heap_head` never changes once
`heap_init` has set it. -/
structure Heap where
  mem : Mem
  usedHighwater : ℕ

def heapInit (h : HeapArray) (m : Mem) : Heap where
  mem :=
    let m := setSize m h.base (kernelHeapSize - blockSize)
    let m := setFree m h.base true
    let m := setMagic m h.base heapMagic
    let m := setNext m h.base 0
    setPrev m h.base 0
  usedHighwater := blockSize

def splitBlock (m : Mem) (block size : ℕ) : Mem :=
  if block = 0 ∨ (blockAt m block).size < (size + blockSize + 32) % word then m
  else
    let next := (block + blockSize + size) % word
    let m := setSize m next (sub64 (sub64 (blockAt m block).size size) blockSize)
    let m := setFree m next true
    let m := setMagic m next heapMagic
    let m := setNext m next (blockAt m block).next
    let m := setPrev m next block
    let m := if (blockAt m next).next ≠ 0 then setPrev m (blockAt m next).next next else m
    let m := setNext m block next
    setSize m block size

def isFreeBlock (m : Mem) (b : ℕ) : Prop :=
  b ≠ 0 ∧ (blockAt m b).magic = heapMagic ∧ (blockAt m b).free = true

instance (m : Mem) (b : ℕ) : Decidable (isFreeBlock m b) :=
  inferInstanceAs (Decidable (_ ∧ _ ∧ _))

/-- The first half of `coalesce`: a free next block is taken in. -/
def mergeNext (m : Mem) (block : ℕ) : Mem :=
  if isFreeBlock m (blockAt m block).next then
    let next := (blockAt m block).next
    let m := setSize m block ((blockAt m block).size + (blockSize + (blockAt m next).size))
    let m := setNext m block (blockAt m next).next
    if (blockAt m block).next ≠ 0 then setPrev m (blockAt m block).next block else m
  else m

/-- `coalesce`, for at most `fuel` blocks. -/
def coalesce : ℕ → Mem → ℕ → Option Mem
  | 0, _, _ => none
  | fuel + 1, m, block =>
    if block = 0 ∨ (blockAt m block).magic ≠ heapMagic then some m
    else
      let m := mergeNext m block
      if isFreeBlock m (blockAt m block).prev then coalesce fuel m (blockAt m block).prev
      else some m

def heapFuel : ℕ := kernelHeapSize / blockSize + 1

/-- The loop of `kmalloc` from the block `b` on, for at most `fuel` blocks. -/
def kmallocLoop (h : HeapArray) : ℕ → Heap → ℕ → ℕ → Option (Heap × ℕ)
  | 0, _, _, _ => none
  | fuel + 1, s, b, size =>
    if b = 0 then some (s, 0)
    else if (blockAt s.mem b).magic ≠ heapMagic then some (s, 0)
    else if (blockAt s.mem b).free = true ∧ size ≤ (blockAt s.mem b).size then
      let m := setFree (splitBlock s.mem b size) b false
      let last := sub64 ((b + blockSize + (blockAt m b).size) % word) h.base
      some (⟨m, if s.usedHighwater < last then last else s.usedHighwater⟩,
        (b + blockSize) % word)
    else kmallocLoop h fuel s (blockAt s.mem b).next size

def kmalloc (h : HeapArray) (s : Heap) (size : ℕ) : Option (Heap × ℕ) :=
  if align16 size = 0 then some (s, 0) else kmallocLoop h heapFuel s h.base (align16 size)

def kfree (h : HeapArray) (s : Heap) (ptr : ℕ) : Option Heap :=
  if ptr = 0 then some s
  else if ptr < h.base ∨ h.base + kernelHeapSize ≤ ptr then some s
  else
    let b := sub64 ptr blockSize
    if (blockAt s.mem b).magic ≠ heapMagic then some s
    else (coalesce heapFuel (setFree s.mem b true) b).map fun m => { s with mem := m }

def kcalloc (h : HeapArray) (s : Heap) (count size : ℕ) : Option (Heap × ℕ) :=
  if count ≠ 0 ∧ (word - 1) / count < size then some (s, 0)
  else
    let total := count * size % word
    (kmalloc h s total).map fun (s, ptr) =>
      if ptr = 0 then (s, ptr) else ({ s with mem := memset s.mem ptr 0 total }, ptr)

def krealloc (h : HeapArray) (s : Heap) (ptr oldSize newSize : ℕ) : Option (Heap × ℕ) :=
  if ptr = 0 then kmalloc h s newSize
  else if newSize = 0 then (kfree h s ptr).map fun s => (s, 0)
  else
    let b := sub64 ptr blockSize
    if (blockAt s.mem b).magic = heapMagic ∧ newSize ≤ (blockAt s.mem b).size then
      some ({ s with mem := splitBlock s.mem b (align16 newSize) }, ptr)
    else
      (kmalloc h s newSize).bind fun (s, newPtr) =>
        if newPtr = 0 then some (s, 0)
        else
          let m :=
            if oldSize ≠ 0 then memcpy s.mem newPtr ptr (min oldSize newSize)
            else if (blockAt s.mem b).magic = heapMagic then
              memcpy s.mem newPtr ptr (min (blockAt s.mem b).size newSize)
            else s.mem
          (kfree h { s with mem := m } ptr).map fun s => (s, newPtr)

/-! ### What the kernel may do with its heap -/

/-- A call of the allocator, or a store by the code that uses it. -/
inductive HeapOp
  | kmalloc (size : UInt64)
  | kcalloc (count size : UInt64)
  | krealloc (ptr : ℕ) (oldSize newSize : UInt64)
  | kfree (ptr : ℕ)
  | write (address : ℕ) (value : Byte)

/-- The heap, and the live pointers with the sizes they were requested with. -/
structure HeapRun where
  heap : Heap
  live : ℕ → Option ℕ

/-- What is live once a call has returned `ptr` for a request of `size` bytes. -/
def grant (live : ℕ → Option ℕ) (ptr size : ℕ) : ℕ → Option ℕ :=
  if ptr = 0 then live else Function.update live ptr (some size)

/-- Only live pointers are freed or reallocated, and stores go to live allocations. -/
def HeapRun.Valid (r : HeapRun) : HeapOp → Prop
  | .kmalloc _ | .kcalloc _ _ => True
  | .krealloc ptr _ _ | .kfree ptr => ptr ≠ 0 → (r.live ptr).isSome = true
  | .write a _ => ∃ ptr size, r.live ptr = some size ∧ ptr ≤ a ∧ a < ptr + size

def HeapRun.step (h : HeapArray) (r : HeapRun) : HeapOp → Option HeapRun
  | .kmalloc size =>
    (Mm.kmalloc h r.heap size.toNat).map fun (s, ptr) => ⟨s, grant r.live ptr size.toNat⟩
  | .kcalloc count size =>
    (Mm.kcalloc h r.heap count.toNat size.toNat).map fun (s, ptr) =>
      ⟨s, grant r.live ptr (count.toNat * size.toNat)⟩
  | .krealloc ptr oldSize newSize =>
    (Mm.krealloc h r.heap ptr oldSize.toNat newSize.toNat).map fun (s, newPtr) =>
      -- on failure the old allocation is still there, unless it was freed on purpose
      if newPtr = 0 ∧ newSize ≠ 0 then ⟨s, r.live⟩
      else ⟨s, grant (Function.update r.live ptr none) newPtr newSize.toNat⟩
  | .kfree ptr => (Mm.kfree h r.heap ptr).map fun s => ⟨s, Function.update r.live ptr none⟩
  | .write a v => some ⟨{ r.heap with mem := Function.update r.heap.mem a v }, r.live⟩

/-- The states of a run of valid calls after `heap_init`. -/
inductive HeapRun.Reached (h : HeapArray) : HeapRun → Prop
  | init (m : Mem) : Reached h ⟨heapInit h m, fun _ => none⟩
  | step {r r' : HeapRun} (op : HeapOp) (hr : Reached h r) (hv : r.Valid op)
      (hs : r.step h op = some r') : Reached h r'

end Tnu.Mm
