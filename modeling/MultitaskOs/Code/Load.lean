import MultitaskOs.Code.Elf
import MultitaskOs.Code.File

/-!
# `elf_load`, and `task/process.c` from the loading of a process to its end

`none` is a call that does not return: a panic, or one of a callee's.
-/

open Lib Lib.Memory Lib.Run

namespace MultitaskOs

def modeR : CharPtr := [0x72, 0]

def Kernel.setElf (k : Kernel) (file : Addr) (f : ElfFile → ElfFile) : Kernel :=
  { k with elfFiles := Function.update k.elfFiles file (f (k.elfFiles file)) }

def zeroElfFile : ElfFile := ⟨0, 0, 0, 0, 0⟩

/-- A block that is read as an `elf_file`: `filename` and `in_memory_size` are its first 112 bytes. -/
def elfFileAt (m : Mem) (file : Addr) : ElfFile where
  elf_memory := load32 m (file + 112)
  virtual_base_address := load32 m (file + 116)
  virtual_end_address := load32 m (file + 120)
  physical_base_address := load32 m (file + 124)
  physical_end_address := load32 m (file + 128)

/-- The status, and `*file_out` if it is set. -/
def elfLoad (k : Kernel) (filename : CharPtr) : Option (Kernel × Int × Addr) := do
  let (k, elf_file) := k.onKmem (kzalloc · sizeofElfFile)
  let k := if elf_file = 0 then k else k.setElf elf_file fun _ => zeroElfFile
  let (k, fd) ← fopen k filename modeR
  if fd ≤ 0 then return ((fclose k 0).1, - EIO, 0)
  let (res, stat) := fstat k fd
  if res < 0 then return ((fclose k fd).1, res, 0)
  let (k, elf_memory) := k.onKmem (kzalloc · stat.filesize.toNat)
  let k := k.setElf elf_file fun f => { f with elf_memory }
  let (k, res) ← fread k elf_memory stat.filesize 1 fd
  if res < 0 then return ((fclose k fd).1, res, 0)
  let (loaded, res) := elfProcessLoaded k.mem (k.elfFiles elf_file)
  let k := k.setElf elf_file fun _ => loaded
  if res < 0 then return ((fclose k fd).1, res, 0)
  return ((fclose k fd).1, res, elf_file)

def elfClose (k : Kernel) (file : Addr) : Kernel :=
  if file = 0 then k
  else
    let (k, _) := k.onKmem fun m => (kfree m (k.elfFiles file).elf_memory, ())
    (k.onKmem fun m => (kfree m file, ())).1

/-! ## The data of a process -/

def processLoadBinary (k : Kernel) (filename : CharPtr) (process : Addr) : Option (Kernel × Int) := do
  let (k, fd) ← fopen k filename modeR
  if fd = 0 then return ((fclose k fd).1, - EIO)
  let (res, stat) := fstat k fd
  if res ≠ 0 then return ((fclose k fd).1, res)
  let (k, program_data_ptr) := k.onKmem (kzalloc · stat.filesize.toNat)
  if program_data_ptr = 0 then return ((fclose k fd).1, -ENOMEM)
  let (k, count) ← fread k program_data_ptr stat.filesize 1 fd
  if count ≠ 1 then return ((fclose k fd).1, - EIO)
  -- `elf_file` is the word of `ptr`: read through it, the image is a record of its own bytes
  let k := k.setElf program_data_ptr fun _ => elfFileAt k.mem program_data_ptr
  let k := k.setProc process fun p => { p with ptr := program_data_ptr, size := stat.filesize }
  return ((fclose k fd).1, 0)

def processLoadElf (k : Kernel) (filename : CharPtr) (process : Addr) : Option (Kernel × Int) := do
  let (k, res, elf_file) ← elfLoad k filename
  if res < 0 then return (k, res)
  return (k.setProc process fun p => { p with filetype := processFiletypeElf, ptr := elf_file }, res)

def processLoadData (k : Kernel) (filename : CharPtr) (process : Addr) : Option (Kernel × Int) := do
  let (k, res) ← processLoadElf k filename process
  if res = -EINFORMAT then processLoadBinary k filename process else return (k, res)

/-! ## Its memory -/

def programVirtualStackAddressEnd : Addr :=
  programVirtualStackAddressStart - BitVec.ofNat 32 userProgramStackSize

/-- The status of `paging_map_to` is dropped. -/
def processMapBinary (k : Kernel) (process : Addr) : Kernel × Int :=
  let p := k.procs process
  let (mem, _) := pagingMapTo k.mem (pageDirectory k process) programVirtualAddress p.ptr
    (pagingAlignAddress (p.ptr + p.size)) pagingUserWriteable
  ({ k with mem }, 0)

/-- Another file type panics. -/
def processMapMemory (k : Kernel) (process : Addr) : Option (Kernel × Int) := do
  let (k, res) ←
    if (k.procs process).filetype = processFiletypeElf then some (processMapElf k process)
    else if (k.procs process).filetype = processFiletypeBinary then some (processMapBinary k process)
    else none
  if res < 0 then return (k, res)
  let stack := (k.procs process).stack
  let (mem, _) := pagingMapTo k.mem (pageDirectory k process) programVirtualStackAddressEnd stack
    (pagingAlignAddress (stack + BitVec.ofNat 32 userProgramStackSize)) pagingUserWriteable
  return ({ k with mem }, res)

/-! ## Loading -/

def processGet (k : Kernel) (process_id : Int) : Addr :=
  if process_id < 0 ∨ process_id ≥ maxProcesses then 0 else k.processes process_id.toNat

/-- The first entry of the table that is NULL. -/
def freeProcess (k : Kernel) : Option Nat := (List.range maxProcesses).find? fun i => k.processes i = 0

def processGetFreeSlot (k : Kernel) : Int :=
  match freeProcess k with
  | some i => i
  | none => -EISTKN

/-- `out:` of `process_load_for_slot`, after a failure. -/
def loadFailed (k : Kernel) (_process : Addr) : Kernel :=
  if _process ≠ 0 ∧ (k.procs _process).task ≠ 0 then taskFree k (k.procs _process).task else k

/-- The status, and `*process` if it is set. With a process in the slot the cleanup would read a
pointer that is not initialised, so nothing is said then. -/
def processLoadForSlot (k : Kernel) (filename : CharPtr) (process_slot : Nat) : Option (Kernel × Int × Addr) := do
  if processGet k process_slot ≠ 0 then none
  let (k, _process) := k.onKmem (kzalloc · sizeofProcess)
  if _process = 0 then return (loadFailed k _process, -ENOMEM, 0)
  let k := k.setProc _process fun _ => zeroProcess
  let (k, res) ← processLoadData k filename _process
  if res < 0 then return (loadFailed k _process, res, 0)
  let (k, program_stack_ptr) := k.onKmem (kzalloc · userProgramStackSize)
  if program_stack_ptr = 0 then return (loadFailed k _process, -ENOMEM, 0)
  let name ← strncpy filename maxPath
  let k := k.setProc _process fun p => { p with filename := name, stack := program_stack_ptr, id := process_slot }
  let (k, task) := taskNew k _process
  if ERROR_I task = 0 then return (k, ERROR_I task, 0)
  let k := k.setProc _process fun p => { p with task }
  let (k, res) ← processMapMemory k _process
  if res < 0 then return (loadFailed k _process, res, 0)
  return ({ k with processes := Function.update k.processes process_slot _process }, res, _process)

def processLoad (k : Kernel) (filename : CharPtr) : Option (Kernel × Int × Addr) :=
  let process_slot := processGetFreeSlot k
  if process_slot < 0 then some (k, -EISTKN, 0) else processLoadForSlot k filename process_slot.toNat

def processLoadSwitch (k : Kernel) (filename : CharPtr) : Option (Kernel × Int × Addr) := do
  let (k, res, process) ← processLoad k filename
  return (if res = 0 then processSwitch k process else k, res, process)

/-! ## Termination -/

def processTerminateAllocations (k : Kernel) (process : Addr) : Kernel :=
  forN maxProgramAllocations (fun i k => processFree k process ((k.procs process).allocations i).ptr) k

def processFreeBinaryData (k : Kernel) (process : Addr) : Kernel :=
  (k.onKmem fun m => (kfree m (k.procs process).ptr, ())).1

def processFreeElfData (k : Kernel) (process : Addr) : Kernel := elfClose k (k.procs process).elf_file

def processFreeProgramData (k : Kernel) (process : Addr) : Kernel × Int :=
  if (k.procs process).filetype = processFiletypeBinary then (processFreeBinaryData k process, 0)
  else if (k.procs process).filetype = processFiletypeElf then (processFreeElfData k process, 0)
  else (k, -EINVARG)

/-- With no process left it panics. -/
def processSwitchToAny (k : Kernel) : Option Kernel := do
  let i ← (List.range maxProcesses).find? fun i => k.processes i ≠ 0
  return processSwitch k (k.processes i)

def processUnlink (k : Kernel) (process : Addr) : Option Kernel :=
  let k := { k with processes := Function.update k.processes (k.procs process).id 0 }
  if k.current_process = process then processSwitchToAny k else some k

def processTerminate (k : Kernel) (process : Addr) : Option (Kernel × Int) := do
  let k := processTerminateAllocations k process
  let (k, res) := processFreeProgramData k process
  if res < 0 then return (k, res)
  let (k, _) := k.onKmem fun m => (kfree m (k.procs process).stack, ())
  let k := taskFree k (k.procs process).task
  let k ← processUnlink k process
  return (k, res)

end MultitaskOs
