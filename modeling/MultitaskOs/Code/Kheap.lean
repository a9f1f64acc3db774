import MultitaskOs.Code.Heap
import MultitaskOs.Lib.Arena

/-!
# `memory/heap/kheap.c`, with the kernel heap taken by its contract

The rest of the kernel sees `kmalloc` and `kfree` as an arena of 4096-byte blocks. `kheap_init` makes
the heap itself.
-/

open Lib Lib.Memory

namespace MultitaskOs

def heapSizeBytes : Nat := 104857600
def heapAddress : Addr := 0x01000000

/-- `entries` is what lies at the address of the table. -/
def kheapInit (entries : Entries) : Int × Option Heap :=
  let total_heap_entries := heapSizeBytes / blockSize
  let end_ := heapAddress + BitVec.ofNat 32 heapSizeBytes
  heapCreate heapAddress end_ ⟨entries, total_heap_entries⟩

/-- The memory the kernel runs in, and its heap. -/
structure Kmem where
  mem : Mem
  heap : Arena blockSize

def kmalloc (k : Kmem) (size : Nat) : Kmem × Addr :=
  let (heap, ptr) := k.heap.alloc size
  ({ k with heap }, ptr)

def kzalloc (k : Kmem) (size : Nat) : Kmem × Addr :=
  let (k, ptr) := kmalloc k size
  if ptr = 0 then (k, 0) else ({ k with mem := zero k.mem ptr size }, ptr)

def kfree (k : Kmem) (ptr : Addr) : Kmem := { k with heap := k.heap.free ptr }

end MultitaskOs
