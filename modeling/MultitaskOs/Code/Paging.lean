import MultitaskOs.Code.Kheap
import MultitaskOs.Lib.Run

/-!
# `memory/paging/paging.c`

Directories and tables are arrays of `uint32_t` in the byte memory.
-/

open Lib Lib.Memory Lib.Run

namespace MultitaskOs

def pagingAccessFromAll : BitVec 32 := 0b00000100
def pagingIsWriteable : BitVec 32 := 0b00000010
def pagingIsPresent : BitVec 32 := 0b00000001

def pagingTotalEntriesPerTable : Nat := 1024
def pagingPageSize : Nat := 4096

/-- `&array[i]` for an array of `uint32_t`. -/
def index32 (array : Addr) (i : Nat) : Addr := array + BitVec.ofNat 32 (4 * i)

def pagingFillTable (entry : Addr) (offset flags : BitVec 32) (m : Mem) : Mem :=
  forN pagingTotalEntriesPerTable (fun b m =>
    store32 m (index32 entry b) ((offset + BitVec.ofNat 32 (b * pagingPageSize)) ||| flags)) m

/-- One turn of the loop of `paging_new_4gb`; the loop state carries `offset`. -/
def pagingNewTable (directory : Addr) (flags : BitVec 32) (i : Nat) (s : Kmem × BitVec 32) :
    Kmem × BitVec 32 :=
  let (k, offset) := s
  let (k, entry) := kzalloc k (4 * pagingTotalEntriesPerTable)
  let m := pagingFillTable entry offset flags k.mem
  let offset := offset + BitVec.ofNat 32 (pagingPageSize * pagingTotalEntriesPerTable)
  let m := store32 m (index32 directory i) (entry ||| flags ||| pagingIsWriteable)
  ({ k with mem := m }, offset)

def pagingNew4gb (k : Kmem) (flags : BitVec 8) : Kmem × Addr :=
  let (k, directory) := kzalloc k (4 * pagingTotalEntriesPerTable)
  let s := forN pagingTotalEntriesPerTable (pagingNewTable directory (flags.setWidth 32)) (k, 0)
  let (k, chunk_4gb) := kzalloc s.1 4
  ({ k with mem := store32 k.mem chunk_4gb directory }, chunk_4gb)

/-- `entry & 0xfffff000` -/
def tableAddress (entry : BitVec 32) : Addr := entry &&& 0xfffff000

/-- One turn of the loop of `paging_free_4gb`. -/
def pagingFreeTable (chunk : Addr) (i : Nat) (k : Kmem) : Kmem :=
  let entry := load32 k.mem (index32 (load32 k.mem chunk) i)
  kfree k (tableAddress entry)

def pagingFree4gb (k : Kmem) (chunk : Addr) : Kmem :=
  let k := forN 1024 (pagingFreeTable chunk) k
  let k := kfree k (load32 k.mem chunk)
  kfree k chunk

def pagingIsAligned (addr : Addr) : Bool := addr.toNat % pagingPageSize == 0

/-- The directory index and the table index, or the error. -/
def pagingGetIndexes (virtual_address : Addr) : Except Int (Nat × Nat) :=
  if !pagingIsAligned virtual_address then .error (-EINVARG)
  else .ok (virtual_address.toNat / (pagingTotalEntriesPerTable * pagingPageSize),
    virtual_address.toNat % (pagingTotalEntriesPerTable * pagingPageSize) / pagingPageSize)

def pagingAlignAddress (ptr : Addr) : Addr :=
  if ptr % 4096 ≠ 0 then ptr + 4096 - ptr % 4096 else ptr

def pagingAlignToLowerPage (addr : Addr) : Addr := addr - addr % 4096

def pagingSet (m : Mem) (directory virt : Addr) (val : BitVec 32) : Mem × Int :=
  if !pagingIsAligned virt then (m, -EINVARG)
  else match pagingGetIndexes virt with
    | .error res => (m, res)
    | .ok (directory_index, table_index) =>
      let entry := load32 m (index32 directory directory_index)
      let table := tableAddress entry
      (store32 m (index32 table table_index) val, 0)

/-- An unaligned address leaves both indexes at 0. -/
def pagingGet (m : Mem) (directory virt : Addr) : BitVec 32 :=
  let (directory_index, table_index) := (pagingGetIndexes virt).toOption.getD (0, 0)
  let entry := load32 m (index32 directory directory_index)
  let table := tableAddress entry
  load32 m (index32 table table_index)

def pagingMap (m : Mem) (directory virt phys : Addr) (flags : BitVec 32) : Mem × Int :=
  if virt.toNat % pagingPageSize ≠ 0 ∨ phys.toNat % pagingPageSize ≠ 0 then (m, -EINVARG)
  else pagingSet m (load32 m directory) virt (phys ||| flags)

/-- `count` pages, with `res` as the last turn left it. -/
def pagingMapRange (directory : Addr) (flags : BitVec 32) : Nat → Int → Mem → Addr → Addr → Mem × Int
  | 0, res, m, _, _ => (m, res)
  | count + 1, _, m, virt, phys =>
    let (m, res) := pagingMap m directory virt phys flags
    if res < 0 then (m, res)
    else pagingMapRange directory flags count res m (virt + 4096) (phys + 4096)

def pagingMapTo (m : Mem) (directory virt phys phys_end : Addr) (flags : BitVec 32) : Mem × Int :=
  if virt.toNat % pagingPageSize ≠ 0 then (m, -EINVARG)
  else if phys.toNat % pagingPageSize ≠ 0 then (m, -EINVARG)
  else if phys_end.toNat % pagingPageSize ≠ 0 then (m, -EINVARG)
  else if phys_end < phys then (m, -EINVARG)
  else
    let total_bytes := phys_end - phys
    let total_pages := total_bytes.toNat / pagingPageSize
    pagingMapRange directory flags total_pages 0 m virt phys

def pagingGetPhysicalAddress (m : Mem) (directory virt : Addr) : Addr :=
  let virt_addr_new := pagingAlignToLowerPage virt
  let difference := virt - virt_addr_new
  tableAddress (pagingGet m directory virt_addr_new) + difference

end MultitaskOs
