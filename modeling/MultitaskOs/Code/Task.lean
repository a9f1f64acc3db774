import MultitaskOs.Code.Kernel
import MultitaskOs.Code.Paging

/-!
# `task/task.c`
-/

open Lib Lib.Memory

namespace MultitaskOs

def sizeofTask : Nat := 64

def eEntry (m : Mem) (header : Addr) : BitVec 32 := load32 m (header + 24)

/-- `elf_header(file)->e_entry` -/
def elfEntry (k : Kernel) (file : Addr) : BitVec 32 := eEntry k.mem (k.elfFiles file).elf_memory

def taskInit (k : Kernel) (task process : Addr) : Kernel × Int :=
  let (k, page_directory) := k.onKmem (pagingNew4gb · 5)
  let t := { zeroTask with page_directory }
  if page_directory = 0 then (k.setTask task fun _ => t, - EIO)
  else
    let p := k.procs process
    let ip := if p.filetype = processFiletypeElf then elfEntry k p.elf_file else programVirtualAddress
    let registers :=
      { t.registers with
        ip
        ss := userDataSegment
        cs := userCodeSegment
        esp := programVirtualStackAddressStart }
    (k.setTask task fun _ => { t with registers, process }, 0)

def taskGetNext (k : Kernel) : Addr :=
  if (k.tasks k.current_task).next = 0 then k.task_head else (k.tasks k.current_task).next

def taskListRemove (k : Kernel) (task : Addr) : Kernel :=
  let k :=
    if (k.tasks task).prev ≠ 0 then
      k.setTask (k.tasks task).prev fun t => { t with next := (k.tasks task).next }
    else k
  let k := if task = k.task_head then { k with task_head := (k.tasks task).next } else k
  let k := if task = k.task_tail then { k with task_tail := (k.tasks task).prev } else k
  if task = k.current_task then { k with current_task := taskGetNext k } else k

def taskFree (k : Kernel) (task : Addr) : Kernel :=
  let (k, _) := k.onKmem fun m => (pagingFree4gb m (k.tasks task).page_directory, ())
  let k := taskListRemove k task
  (k.onKmem fun m => (kfree m task, ())).1

/-- `task_new` from `if (task_head == 0)` on. -/
def taskLink (k : Kernel) (task : Addr) : Kernel :=
  if k.task_head = 0 then { k with task_head := task, task_tail := task, current_task := task }
  else
    let k := k.setTask k.task_tail fun t => { t with next := task }
    let k := k.setTask task fun t => { t with prev := k.task_tail }
    { k with task_tail := task }

/-- The new task, or the error as a pointer. -/
def taskNew (k : Kernel) (process : Addr) : Kernel × Addr :=
  let (k, task) := k.onKmem (kzalloc · sizeofTask)
  if task = 0 then (taskFree k task, ERROR (-ENOMEM))
  else
    let (k, res) := taskInit k task process
    if res ≠ 0 then (taskFree k task, ERROR res) else (taskLink k task, task)

/-- `current_task` alone: the page directory register is not kept. -/
def taskSwitch (k : Kernel) (task : Addr) : Kernel := { k with current_task := task }

def taskSaveState (task : Task) (frame : InterruptFrame) : Task :=
  { task with
    registers :=
      { ip := frame.ip
        cs := frame.cs
        flags := frame.flags
        esp := frame.esp
        ss := frame.ss
        eax := frame.eax
        ebp := frame.ebp
        ebx := frame.ebx
        ecx := frame.ecx
        edi := frame.edi
        edx := frame.edx
        esi := frame.esi } }

end MultitaskOs
