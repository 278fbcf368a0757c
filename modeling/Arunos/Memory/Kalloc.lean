import Arunos.Lib.String
import Arunos.Support.Fault
import Arunos.Support.Linked

/-!
# Memory — Kalloc — the allocator of `kernel/memory/kalloc.c`

`Mem` is the memory the kernel reaches through its own addresses, with the heads of the two free
lists.  The lists are threaded through the free blocks: the first word of a free block is the
address of the next.

Three counters record the history the source keeps no variable for: the pages split so far, the
1K chunks in use, and the most there ever were in use.  Nothing reads them.
-/

namespace Arunos

/-- A null pointer. -/
def NULL : Nat := 0

/-- Memory and the static variables of `kalloc.c`, with the history counters. -/
structure Mem where
  ram : Bytes
  freeList4k : Nat
  freeList1k : Nat
  splits : Nat
  chunksOut : Nat
  peakChunks : Nat

/-- Programs over the memory; a fault is a null pointer used as a block. -/
abbrev MemM := StateT Mem Option

/-- `page_list_prepend`: the node is stored in the page itself. -/
def pageListPrepend (pageList pageAddress : Nat) : MemM Nat := do
  modify fun m => { m with ram := store32 m.ram pageAddress pageList }
  return pageAddress

/-- The rounds of `for (p = start; p != end; p += 4096)`. -/
def pageCount (start stop : Nat) : Nat := u32 (stop + 2 ^ 32 - start) / 4096

/-- `kalloc_init(start, end)`. -/
def kallocInit (start stop : Nat) : MemM Unit := do
  let startAddress := roundUp start 4096
  let endAddress := roundDown stop 4096
  loop (pageCount startAddress endAddress) (fun i _ => do
    let head ← pageListPrepend (← get).freeList4k (u32 (startAddress + i * 4096))
    modify fun m => { m with freeList4k := head }) ()

/-- `kalloc`. -/
def kalloc : MemM Nat := do
  let m ← get
  if m.freeList4k ≠ NULL then
    set { m with freeList4k := le32 m.ram m.freeList4k }
    return m.freeList4k
  else
    return NULL

/-- `kfree`. -/
def kfree (page : Nat) : MemM Unit := do
  let head ← pageListPrepend (← get).freeList4k page
  modify fun m => { m with freeList4k := head }

/-- `kfree1k`. -/
def kfree1k (page : Nat) : MemM Unit := do
  let head ← pageListPrepend (← get).freeList1k page
  modify fun m => { m with freeList1k := head, chunksOut := m.chunksOut - 1 }

/-- The first half of `kalloc1k`: with no free chunk, a page is cut into four. -/
def refill1k : MemM Unit := do
  if (← get).freeList1k = NULL then
    let page ← kalloc
    if page ≠ NULL then
      -- the page's chunks count as in use until the four calls give them back
      modify fun m => { m with splits := m.splits + 1, chunksOut := m.chunksOut + 4 }
      kfree1k page
      kfree1k (page + 1024)
      kfree1k (page + 2048)
      kfree1k (page + 3072)

/-- `kalloc1k`. -/
def kalloc1k : MemM Nat := do
  refill1k
  let m ← get
  if m.freeList1k ≠ NULL then
    set { m with
      freeList1k := le32 m.ram m.freeList1k, chunksOut := m.chunksOut + 1,
      peakChunks := max m.peakChunks (m.chunksOut + 1) }
    return m.freeList1k
  else
    return NULL

/-- `get_free_memory_size`, when the two lists end within `fuel` nodes. -/
def getFreeMemorySize (m : Mem) (fuel : Nat) : Option Nat := do
  let result ← sumList m.ram 1024 fuel m.freeList1k 0
  sumList m.ram 4096 fuel m.freeList4k result

/-- The result of `x`, used without a test for the null pointer. -/
def nonNull (x : MemM Nat) : MemM Nat := do
  let p ← x
  if p = NULL then failure else return p

/-- A call that works on the memory alone. -/
def onRam (f : Bytes → Bytes) : MemM Unit := modify fun m => { m with ram := f m.ram }

end Arunos
