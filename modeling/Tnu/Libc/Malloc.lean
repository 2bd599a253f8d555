/-
**The allocator of the C library.**

`malloc`, `calloc`, `free` and `realloc` of `userspace/libc/src/malloc.c`: one singly linked list of
blocks in address order, first-fit allocation, and a pass over the whole list that merges free
neighbours.  Memory comes from `sbrk` of `userspace/libc/src/syscall.c`, and that from `sys_brk` of
`kernel/core/syscall.c`.  A block's header stands in memory in front of its payload; a pointer is
an address, NULL is zero.

The loops follow pointers found in memory.  Here they give up with `none` after more steps than
there are addresses; that this never happens is proved in `Tnu/Libc/MallocRuns.lean`.

Main definitions:

* `BlockHeader`, `headerAt` — a block's header, and the one found at an address;
* `malloc`, `calloc`, `free`, `realloc` — the functions of the
  source.
-/

import Tnu.Memory

set_option autoImplicit false

namespace Tnu.Libc

abbrev alignment : ℕ := 16

abbrev minSplit : ℕ := 32

/-- `sizeof(struct block_header)`: a size, an `int` with its padding, a pointer. -/
abbrev headerSize : ℕ := 24

/-! ### The break -/

/-- What the kernel remembers of the heap of a process. -/
structure Brk where
  /-- `brk_floor`; zero until the heap is set up. -/
  floor : ℕ
  /-- `brk_current`. -/
  current : ℕ
  /-- `heap_limit`. -/
  limit : ℕ
deriving DecidableEq

/-- `USER_STACK_BOTTOM_LARGE`, the highest limit `exec` sets. -/
abbrev userStackBottomLarge : ℕ := 0x60000000

/-- The heap a process gets on first use when `exec` has set none up. -/
def Brk.ready (k : Brk) : Brk := if k.floor = 0 then ⟨0x5000000, 0x5000000, 0x7000000⟩ else k

/-- `sys_brk`; `mapped` is what `vmm_map_range_identity` answers where it is asked. -/
def sysBrk (k : Brk) (mapped : Bool) (next : ℕ) : Brk × ℕ :=
  let k := k.ready
  if next = 0 then (k, k.current)
  else if next < k.floor then (k, k.current)
  else if k.limit < next then (k, k.current)
  else if k.current < next ∧ mapped = false then (k, k.current)
  else ({ k with current := next }, next)

/-- `(void *)-1`. -/
abbrev failedPtr : ℕ := word - 1

/-- `sbrk`; the increment is a 64-bit value, negative from `2 ^ 63` on. -/
def sbrk (k : Brk) (mapped : Bool) (increment : ℕ) : Brk × ℕ :=
  let (k, current) := sysBrk k mapped 0
  let next := (current + increment) % word
  if 2 ^ 63 ≤ increment ∧ current < next then (k, failedPtr)
  else
    let (k, ret) := sysBrk k mapped next
    if ret ≠ next then (k, failedPtr) else (k, current)

/-! ### Headers -/

/-- `struct block_header`. -/
structure BlockHeader where
  size : ℕ
  free : Bool
  next : ℕ
deriving DecidableEq

def headerAt (m : Mem) (b : ℕ) : BlockHeader where
  size := load m b 8
  free := load m (b + 8) 4 != 0
  next := load m (b + 16) 8

/-- `b->size = v`. -/
def setSize (m : Mem) (b v : ℕ) : Mem := store m b 8 v

/-- `b->free = v`. -/
def setFree (m : Mem) (b : ℕ) (v : Bool) : Mem := store m (b + 8) 4 v.toNat

/-- `b->next = v`. -/
def setNext (m : Mem) (b v : ℕ) : Mem := store m (b + 16) 8 v

/-! ### The functions of the source -/

/-- The memory of a process, its break, and `heap_head` and `heap_tail`. -/
structure Heap where
  mem : Mem
  brk : Brk
  head : ℕ
  tail : ℕ

/-- `align_up`, for a power of two. -/
def alignUp (value align : ℕ) : ℕ := (value + align - 1) % word / align * align

def blockFuel : ℕ := word

/-- The loop of `find_free_block` from the block `b` on. -/
def findFreeLoop (m : Mem) (size : ℕ) : ℕ → ℕ → Option ℕ
  | 0, _ => none
  | fuel + 1, b =>
    if b = 0 then some 0
    else if (headerAt m b).free = true ∧ size ≤ (headerAt m b).size then some b
    else findFreeLoop m size fuel (headerAt m b).next

def findFreeBlock (s : Heap) (size : ℕ) : Option ℕ := findFreeLoop s.mem size blockFuel s.head

def splitBlock (s : Heap) (b size : ℕ) : Heap :=
  if (headerAt s.mem b).size < (size + headerSize + minSplit) % word then s
  else
    let next := (b + headerSize + size) % word
    let m := setSize s.mem next (sub64 (sub64 (headerAt s.mem b).size size) headerSize)
    let m := setFree m next true
    let m := setNext m next (headerAt m b).next
    let m := setSize m b size
    let m := setNext m b next
    { s with mem := m, tail := if s.tail = b then next else s.tail }

def requestBlock (s : Heap) (mapped : Bool) (size : ℕ) : Heap × ℕ :=
  let total := (headerSize + size) % word
  let (k, b) := sbrk s.brk mapped total
  if b = failedPtr then ({ s with brk := k }, 0)
  else
    let m := setSize s.mem b size
    let m := setFree m b false
    let m := setNext m b 0
    let head := if s.head = 0 then b else s.head
    let m := if s.tail ≠ 0 then setNext m s.tail b else m
    (⟨m, k, head, b⟩, b)

def malloc (s : Heap) (mapped : Bool) (size : ℕ) : Option (Heap × ℕ) :=
  if size = 0 then some (s, 0)
  else
    let size := alignUp size alignment
    (findFreeBlock s size).map fun b =>
      if b = 0 then
        let (s, b) := requestBlock s mapped size
        if b = 0 then (s, 0) else (s, (b + headerSize) % word)
      else (splitBlock { s with mem := setFree s.mem b false } b size, (b + headerSize) % word)

def calloc (s : Heap) (mapped : Bool) (nmemb size : ℕ) : Option (Heap × ℕ) :=
  if size ≠ 0 ∧ (word - 1) / size < nmemb then some (s, 0)
  else
    let total := nmemb * size % word
    (malloc s mapped total).map fun (s, ptr) =>
      if ptr = 0 then (s, ptr) else ({ s with mem := memset s.mem ptr 0 total }, ptr)

/-- The loop of `coalesce` from the block `b` on, with `heap_tail` beside it. -/
def coalesceLoop : ℕ → Mem → ℕ → ℕ → Option (Mem × ℕ)
  | 0, _, _, _ => none
  | fuel + 1, m, tail, b =>
    if b = 0 ∨ (headerAt m b).next = 0 then some (m, tail)
    else
      let next := (headerAt m b).next
      let last := (b + headerSize + (headerAt m b).size) % word
      if (headerAt m b).free = true ∧ (headerAt m next).free = true ∧ last = next then
        let m := setSize m b ((headerAt m b).size + (headerSize + (headerAt m next).size))
        let m := setNext m b (headerAt m next).next
        -- the loop goes on behind the merged block
        coalesceLoop fuel m (if tail = next then b else tail) (headerAt m b).next
      else coalesceLoop fuel m tail next

def coalesce (s : Heap) : Option Heap :=
  (coalesceLoop blockFuel s.mem s.tail s.head).map fun (m, tail) => { s with mem := m, tail := tail }

def free (s : Heap) (ptr : ℕ) : Option Heap :=
  if ptr = 0 then some s
  else coalesce { s with mem := setFree s.mem (sub64 ptr headerSize) true }

def realloc (s : Heap) (mapped : Bool) (ptr size : ℕ) : Option (Heap × ℕ) :=
  if ptr = 0 then malloc s mapped size
  else if size = 0 then (free s ptr).map fun s => (s, 0)
  else
    let size := alignUp size alignment
    let old := sub64 ptr headerSize
    let next := (headerAt s.mem old).next
    if size ≤ (headerAt s.mem old).size then some (splitBlock s old size, ptr)
    else if next ≠ 0 ∧ (headerAt s.mem next).free = true ∧
        size ≤ ((headerAt s.mem old).size + headerSize + (headerAt s.mem next).size) % word then
      let m := setSize s.mem old ((headerAt s.mem old).size + (headerSize + (headerAt s.mem next).size))
      let m := setNext m old (headerAt m next).next
      let tail := if (headerAt m old).next = 0 then old else s.tail
      some (splitBlock { s with mem := m, tail := tail } old size, ptr)
    else
      (malloc s mapped size).bind fun (s, next) =>
        if next = 0 then some (s, 0)
        else
          let m := memcpy s.mem next ptr (headerAt s.mem old).size
          (free { s with mem := m } ptr).map fun s => (s, next)

/-! ### What a program may do with its allocator -/

/-- A call of the allocator, with what the kernel answers when the heap has to grow, or a store by
the code that uses it. -/
inductive AllocOp
  | malloc (size : UInt64) (mapped : Bool)
  | calloc (nmemb size : UInt64) (mapped : Bool)
  | realloc (ptr : ℕ) (size : UInt64) (mapped : Bool)
  | free (ptr : ℕ)
  | write (address : ℕ) (value : Byte)

/-- The heap of a process, and the live pointers with the sizes they were requested with. -/
structure AllocRun where
  heap : Heap
  live : ℕ → Option ℕ

/-- What is live once a call has returned `ptr` for a request of `size` bytes. -/
def grant (live : ℕ → Option ℕ) (ptr size : ℕ) : ℕ → Option ℕ :=
  if ptr = 0 then live else Function.update live ptr (some size)

/-- Only live pointers are freed or reallocated, and stores go to live allocations. -/
def AllocRun.Valid (r : AllocRun) : AllocOp → Prop
  | .malloc _ _ | .calloc _ _ _ => True
  | .realloc ptr _ _ | .free ptr => ptr ≠ 0 → (r.live ptr).isSome = true
  | .write a _ => ∃ ptr size, r.live ptr = some size ∧ ptr ≤ a ∧ a < ptr + size

/-- One call or store: the state behind it, and the pointer the call returns. -/
def AllocRun.step (r : AllocRun) : AllocOp → Option (AllocRun × ℕ)
  | .malloc size mapped =>
    (Libc.malloc r.heap mapped size.toNat).map fun (s, ptr) =>
      (⟨s, grant r.live ptr size.toNat⟩, ptr)
  | .calloc nmemb size mapped =>
    (Libc.calloc r.heap mapped nmemb.toNat size.toNat).map fun (s, ptr) =>
      (⟨s, grant r.live ptr (nmemb.toNat * size.toNat)⟩, ptr)
  | .realloc ptr size mapped =>
    (Libc.realloc r.heap mapped ptr size.toNat).map fun (s, newPtr) =>
      -- on failure the old allocation is still there, unless it was freed on purpose
      if newPtr = 0 ∧ size ≠ 0 then (⟨s, r.live⟩, 0)
      else (⟨s, grant (Function.update r.live ptr none) newPtr size.toNat⟩, newPtr)
  | .free ptr => (Libc.free r.heap ptr).map fun s => (⟨s, Function.update r.live ptr none⟩, 0)
  | .write a v => some (⟨{ r.heap with mem := Function.update r.heap.mem a v }, r.live⟩, 0)

/-- The heap of a process before its first call: nothing is allocated, and the break stands at its
floor, which `exec` has put on a page boundary, or is not set up yet. -/
structure Fresh (s : Heap) : Prop where
  head : s.head = 0
  tail : s.tail = 0
  current : s.brk.current = s.brk.floor
  page : 4096 ∣ s.brk.floor
  floor_lt : s.brk.floor < word
  limit_le : s.brk.limit ≤ userStackBottomLarge

end Tnu.Libc
