import MultitaskOs.Code.Config

/-!
# `memory/heap/heap.c`

The table is indexed by `Int`, because the source indexes it with `int`s that
need not lie in it.
-/

open Lib.Memory

namespace MultitaskOs

abbrev HeapBlockTableEntry := BitVec 8

def heapBlockTableEntryTaken : HeapBlockTableEntry := 0x01
def heapBlockTableEntryFree : HeapBlockTableEntry := 0x00
def heapBlockHasNext : HeapBlockTableEntry := 0b10000000
def heapBlockIsFirst : HeapBlockTableEntry := 0b01000000

abbrev Entries := Int → HeapBlockTableEntry

structure HeapTable where
  entries : Entries
  total : Nat

structure Heap where
  table : HeapTable
  saddr : Addr

def heapValidateTable (ptr end_ : Addr) (table : HeapTable) : Int :=
  let table_size := (end_ - ptr).toNat
  let table_blocks := table_size / blockSize
  if table.total ≠ table_blocks then -EINVARG else 0

def heapValidateAlignment (ptr : Addr) : Bool := ptr.toNat % blockSize == 0

/-- `memset(table->entries, FREE, total)` -/
def freeEntries (entries : Entries) (total : Nat) : Entries :=
  fun i => if 0 ≤ i ∧ i < total then heapBlockTableEntryFree else entries i

/-- `none` where `heap` is left as it was. -/
def heapCreate (ptr end_ : Addr) (table : HeapTable) : Int × Option Heap :=
  if !heapValidateAlignment ptr || !heapValidateAlignment end_ then (-EINVARG, none)
  else
    let res := heapValidateTable ptr end_ table
    if res < 0 then (res, some ⟨table, ptr⟩)
    else (res, some ⟨{ table with entries := freeEntries table.entries table.total }, ptr⟩)

def heapAlignValueToUpper (val : BitVec 32) : BitVec 32 :=
  if val % 4096 = 0 then val else val - val % 4096 + 4096

def heapGetEntryType (entry : HeapBlockTableEntry) : BitVec 8 := entry &&& 0x0f

/-- The search of `heap_get_start_block`, with `n` entries left from `i` on. -/
def heapGetStartBlockLoop (entries : Entries) (total_blocks : Int) :
    Nat → Int → Int → Int → Int
  | 0, _, _, bs => if bs = -1 then -ENOMEM else bs
  | n + 1, i, bc, bs =>
    if heapGetEntryType (entries i) = heapBlockTableEntryFree then
      heapGetStartBlockLoop entries total_blocks n (i + 1) 0 (-1)
    else
      let bs := if bs = -1 then i else bs
      let bc := bc + 1
      if bc = total_blocks then bs
      else heapGetStartBlockLoop entries total_blocks n (i + 1) bc bs

def heapGetStartBlock (heap : Heap) (total_blocks : Int) : Int :=
  heapGetStartBlockLoop heap.table.entries total_blocks heap.table.total 0 0 (-1)

def heapBlockToAddress (heap : Heap) (block : Int) : Addr :=
  heap.saddr + BitVec.ofInt 32 (block * blockSize)

def heapMarkBlocksTakenLoop (end_block : Int) :
    Nat → Int → HeapBlockTableEntry → Entries → Entries
  | 0, _, _, entries => entries
  | n + 1, i, entry, entries =>
    let entry' := if i = end_block - 1 then heapBlockTableEntryTaken ||| heapBlockHasNext
      else heapBlockTableEntryTaken
    heapMarkBlocksTakenLoop end_block n (i + 1) entry' (Function.update entries i entry)

def heapMarkBlocksTaken (heap : Heap) (start_block total_blocks : Int) : Heap :=
  let end_block := start_block + total_blocks - 1
  let entry := heapBlockTableEntryTaken ||| heapBlockIsFirst
  let entry := if end_block > 1 then entry ||| heapBlockHasNext else entry
  { heap with table := { heap.table with
      entries := heapMarkBlocksTakenLoop end_block total_blocks.toNat start_block entry
        heap.table.entries } }

/-- The heap after the call, and the address or NULL. -/
def heapMallocBlocks (heap : Heap) (total_blocks : BitVec 32) : Heap × Addr :=
  let start_block := heapGetStartBlock heap total_blocks.toInt
  if start_block < 0 then (heap, 0)
  else (heapMarkBlocksTaken heap start_block total_blocks.toInt, heapBlockToAddress heap start_block)

def heapMarkBlocksFreeLoop : Nat → Int → Entries → Entries
  | 0, _, entries => entries
  | n + 1, i, entries =>
    let entry := entries i
    let entries := Function.update entries i heapBlockTableEntryFree
    if entry &&& heapBlockHasNext = 0 then entries else heapMarkBlocksFreeLoop n (i + 1) entries

def heapMarkBlocksFree (heap : Heap) (starting_block : Int) : Heap :=
  { heap with table := { heap.table with
      entries := heapMarkBlocksFreeLoop (heap.table.total - starting_block).toNat starting_block
        heap.table.entries } }

def heapAddressToBlock (heap : Heap) (address : Addr) : Int :=
  (address - heap.saddr).toInt.tdiv blockSize

def heapMalloc (heap : Heap) (size : BitVec 32) : Heap × Addr :=
  let aligned_size := heapAlignValueToUpper size
  let total_blocks := aligned_size / 4096
  heapMallocBlocks heap total_blocks

def heapFree (heap : Heap) (ptr : Addr) : Heap :=
  heapMarkBlocksFree heap (heapAddressToBlock heap ptr)

/-- The size that `isr80h_command4_malloc` makes of its stack item, by way of an `int`. -/
def isr80hCommand4Size (item : Addr) : BitVec 32 := BitVec.ofInt 32 item.toInt

end MultitaskOs
