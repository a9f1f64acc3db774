import MultitaskOs.Code.Task

/-!
# `task/process.c`: the allocations of a process
-/

open Lib Lib.Memory

namespace MultitaskOs

def sizeofProcess : Nat := 9364

def processSwitch (k : Kernel) (process : Addr) : Kernel := { k with current_process := process }

def pageDirectory (k : Kernel) (process : Addr) : Addr :=
  (k.tasks (k.procs process).task).page_directory

/-- `PAGING_IS_WRITEABLE | PAGING_IS_PRESENT | PAGING_ACCESS_FROM_ALL` -/
def pagingUserWriteable : BitVec 32 := pagingIsWriteable ||| pagingIsPresent ||| pagingAccessFromAll

/-- The first entry of the table that holds `ptr`. -/
def findAllocation (p : Process) (ptr : Addr) : Option Nat :=
  (List.range maxProgramAllocations).find? fun i => (p.allocations i).ptr = ptr

def processFindFreeAllocationIndex (p : Process) : Int :=
  match findAllocation p 0 with
  | some i => i
  | none => -ENOMEM

def processMalloc (k : Kernel) (process : Addr) (size : BitVec 32) : Kernel × Addr :=
  let (k, ptr) := k.onKmem (kzalloc · size.toNat)
  if ptr = 0 then (k, 0)
  else
    let index := processFindFreeAllocationIndex (k.procs process)
    if index < 0 then ((k.onKmem fun m => (kfree m ptr, ())).1, 0)
    else
      let (mem, res) := pagingMapTo k.mem (pageDirectory k process) ptr ptr
        (pagingAlignAddress (ptr + size)) pagingUserWriteable
      let k := { k with mem }
      if res < 0 then ((k.onKmem fun m => (kfree m ptr, ())).1, 0)
      else
        (k.setProc process fun p =>
          { p with allocations := Function.update p.allocations index.toNat ⟨ptr, size⟩ }, ptr)

def processIsProcessPointer (p : Process) (ptr : Addr) : Bool := (findAllocation p ptr).isSome

def processGetAllocationByAddr (p : Process) (addr : Addr) : Option Nat := findAllocation p addr

def processAllocationUnjoin (p : Process) (ptr : Addr) : Process :=
  { p with allocations := fun i =>
      if i < maxProgramAllocations ∧ (p.allocations i).ptr = ptr then ⟨0, 0⟩ else p.allocations i }

def processFree (k : Kernel) (process ptr : Addr) : Kernel :=
  if !processIsProcessPointer (k.procs process) ptr then k
  else
    let allocation := processGetAllocationByAddr (k.procs process) ptr
    let k := k.setProc process fun p => processAllocationUnjoin p ptr
    match allocation with
    | none => k
    | some i =>
      -- the source reads the entry after it has been cleared
      let a := (k.procs process).allocations i
      let (mem, res) := pagingMapTo k.mem (pageDirectory k process) a.ptr a.ptr
        (pagingAlignAddress (a.ptr + a.size)) 0
      let k := { k with mem }
      if res < 0 then k else (k.onKmem fun m => (kfree m ptr, ())).1

/-! ## `process_free` with what it writes -/

inductive FreeEffect where
  /-- An entry of the allocation table. -/
  | slot (i : Nat)
  /-- The page table entry of a page. -/
  | entry (virt : Addr)
  | kfree (ptr : Addr)

def processFreeLogged (k : Kernel) (process ptr : Addr) : Kernel × List FreeEffect :=
  if !processIsProcessPointer (k.procs process) ptr then (k, [])
  else
    let allocation := processGetAllocationByAddr (k.procs process) ptr
    let slots := (List.range maxProgramAllocations).filter fun i => ((k.procs process).allocations i).ptr = ptr
    let k := k.setProc process fun p => processAllocationUnjoin p ptr
    match allocation with
    | none => (k, slots.map .slot)
    | some i =>
      let a := (k.procs process).allocations i
      let phys_end := pagingAlignAddress (a.ptr + a.size)
      let (mem, res) := pagingMapTo k.mem (pageDirectory k process) a.ptr a.ptr phys_end 0
      let k := { k with mem }
      if res < 0 then (k, slots.map .slot)
      else
        let pages := List.range ((phys_end - a.ptr).toNat / pagingPageSize)
        let entries := pages.map fun i => .entry (a.ptr + BitVec.ofNat 32 (i * pagingPageSize))
        ((k.onKmem fun m => (kfree m ptr, ())).1, slots.map .slot ++ entries ++ [.kfree ptr])

end MultitaskOs
