import PlantOS.Common.BlockHeap
import PlantOS.Common.Run
import PlantOS.Mm.Pmm

/-!
# The kernel heap

Model of `mm/heap.c`. Memory is the function that gives the `struct heap_block` stored at an address;
a pointer is a byte address and 0 is `NULL`. `size_t` and pointer arithmetic wraps at 64 bits, and the
header takes `sizeof(struct heap_block) = 32` bytes.

`kmalloc` walks the list of blocks, so it takes fuel; `none` stands for a walk that does not end, or for
spinning on a lock that is never released.

Reference: `mm/heap.c`.
-/

namespace PlantOS.Mm

open Word BlockHeap

/-- `HEAP_MAGIC`. -/
def heapMagic : ℕ := 0xDEADBEEF

/-- `HEAP_INITIAL_PAGES`. -/
def heapInitialPages : ℕ := 2048

/-- `struct heap_block`. -/
structure HeapBlock where
  magic : ℕ
  isFree : Bool
  size : ℕ
  next : ℕ
  prev : ℕ
deriving DecidableEq

/-- The state of `heap.c` and the memory of the heap region. -/
structure Heap where
  mem : ℕ → HeapBlock
  heapStart : ℕ
  heapTotalSize : ℕ
  heapUsed : ℕ
  heapAllocCount : ℕ
  heapLock : Bool

/-- Write to the block header at `a`. -/
def Heap.write (h : Heap) (a : ℕ) (f : HeapBlock → HeapBlock) : Heap :=
  { h with mem := Function.update h.mem a (f (h.mem a)) }

/-- `if (a) a->prev = p;` -/
def Heap.setPrev (h : Heap) (a p : ℕ) : Heap :=
  if a ≠ 0 then h.write a fun b => { b with prev := p } else h

/-- `spin_unlock(&heap_lock)`. -/
def Heap.unlock (h : Heap) : Heap := { h with heapLock := false }

/-- The address at which `heap_init` places the heap: after the kernel image and the PMM bitmap. -/
def heapPlacement (kernelEnd totalPages : ℕ) : ℕ :=
  let bitmapBytes := wrap 64 (totalPages + 7) / 8
  let kernelPages := wrap 64 (kernelEnd + 4096 - 1) / 4096
  let bitmapPages := wrap 64 (bitmapBytes + 4096 - 1) / 4096
  wrap 64 (kernelPages * 4096 + bitmapPages * 4096)

/-- `heap_init`, run on memory `mem`: the heap and the PMM with the heap's pages marked used. -/
def heapInit (kernelEnd : ℕ) (mem : ℕ → HeapBlock) (pmm : Pmm) : Heap × Pmm :=
  let start := heapPlacement kernelEnd pmm.totalPages
  let total := heapInitialPages * 4096
  ({ mem := Function.update mem start
        { magic := heapMagic, isFree := true, size := total - 32, next := 0, prev := 0 }
     heapStart := start
     heapTotalSize := total
     heapUsed := 0
     heapAllocCount := 0
     heapLock := false },
   (List.range heapInitialPages).foldl
     (fun p i => pmmMarkPageUsed p (wrap 64 (start + i * 4096))) pmm)

/-- The split in `kmalloc`: a new free block behind the first `size` bytes of `block`. -/
def kmallocSplit (h : Heap) (block size : ℕ) : Heap :=
  let newBlock := wrap 64 (block + 32 + size)
  let b := h.mem block
  let h := h.write newBlock fun _ =>
    { magic := heapMagic, isFree := true, size := wrap 64 (b.size - size - 32), next := b.next,
      prev := block }
  let h := h.setPrev (h.mem block).next newBlock
  h.write block fun b => { b with next := newBlock, size := size }

/-- The body of `kmalloc` for the block it has chosen. -/
def kmallocTake (h : Heap) (block size : ℕ) : Heap :=
  let h := if wrap 64 (size + 32 + 16) ≤ (h.mem block).size then kmallocSplit h block size else h
  let h := h.write block fun b => { b with isFree := false }
  { h with heapUsed := wrap 64 (h.heapUsed + (h.mem block).size)
           heapAllocCount := wrap 64 (h.heapAllocCount + 1) }

/-- The loop of `kmalloc` from `block` on. A corrupt block is reported with the lock still held. -/
def kmallocLoop (size : ℕ) : ℕ → ℕ → Heap → Option (ℕ × Heap)
  | 0, _, _ => none
  | fuel + 1, block, h =>
    if block = 0 then some (0, h.unlock)
    else if (h.mem block).magic ≠ heapMagic then some (0, h)
    else if (h.mem block).isFree ∧ size ≤ (h.mem block).size then
      some (wrap 64 (block + 32), (kmallocTake h block size).unlock)
    else kmallocLoop size fuel (h.mem block).next h

/-- `size = (size + 15) & ~15ULL`. -/
def kmallocAlign (size : ℕ) : ℕ := wrap 64 (size + 15) / 16 * 16

/-- `kmalloc`: the pointer, 0 for `NULL`. -/
def kmalloc (h : Heap) (size : ℕ) : Option (ℕ × Heap) :=
  if size = 0 then some (0, h)
  else if h.heapLock then none
  else kmallocLoop (kmallocAlign size) (h.heapTotalSize / 32 + 1) h.heapStart
    { h with heapLock := true }

/-- `kfree`: coalesce with the next block. -/
def kfreeJoinNext (h : Heap) (block : ℕ) : Heap :=
  let next := (h.mem block).next
  if next ≠ 0 ∧ (h.mem next).isFree then
    let h := h.write block fun b => { b with size := wrap 64 (b.size + (32 + (h.mem next).size)) }
    let h := h.write block fun b => { b with next := (h.mem next).next }
    h.setPrev (h.mem block).next block
  else h

/-- `kfree`: coalesce with the previous block. -/
def kfreeJoinPrev (h : Heap) (block : ℕ) : Heap :=
  let prev := (h.mem block).prev
  if prev ≠ 0 ∧ (h.mem prev).isFree then
    let h := h.write prev fun p => { p with size := wrap 64 (p.size + (32 + (h.mem block).size)) }
    let h := h.write prev fun p => { p with next := (h.mem block).next }
    h.setPrev (h.mem block).next (h.mem block).prev
  else h

/-- `kfree`. The two messages about an invalid pointer and a double free are not part of the state. -/
def kfree (h : Heap) (ptr : ℕ) : Option Heap :=
  if ptr = 0 then some h
  else if h.heapLock then none
  else
    let block := wrap 64 (ptr - 32)
    let b := h.mem block
    if b.magic ≠ heapMagic then some h
    else if b.isFree then some h
    else
      let h := h.write block fun b => { b with isFree := true }
      let h := { h with heapUsed := wrap 64 (h.heapUsed - b.size)
                        heapAllocCount := wrap 64 (h.heapAllocCount - 1) }
      some (kfreeJoinPrev (kfreeJoinNext h block) block)

end PlantOS.Mm
