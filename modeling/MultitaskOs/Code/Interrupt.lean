import MultitaskOs.Code.Classic
import MultitaskOs.Code.Copy
import MultitaskOs.Code.String
import MultitaskOs.Code.Terminal

/-!
# `idt/idt.c`, `isr80h/` and `task/task.c`: from user code to the kernel and back

The kernel's own code and data are read where they lie: every directory is taken
to lead to them.
-/

open Lib Lib.Memory Lib.CString

namespace MultitaskOs

/-- The functions that `isr80h_register_commands` registers. -/
inductive Isr80hCommand where
  | command0Sum
  | command1Print
  | command2Getkey
  | command3Putchar
  | command4Malloc
  | command5Free
  | command6ProcessLoadStart
  | command7InvokeSystemCommand
  | command8GetProgramArguments
  | command9Exit
deriving DecidableEq

/-- The functions that are registered for interrupts. -/
inductive InterruptCallback where
  | idtHandleException
  | idtClock
  | clasicKeyboardHandleInterrupt
deriving DecidableEq

/-- The kernel with its terminal, its keyboard and its tables of functions, and what the processor has
loaded: the page directory, and the selector of the data segments. -/
structure Os extends Kernel where
  terminal : Terminal
  capslock_state : CapsLock
  kernel_chunk : Addr
  isr80h_commands : Nat → Option Isr80hCommand
  interrupt_callbacks : Nat → Option InterruptCallback
  cr3 : Addr
  data : BitVec 32

namespace Os

/-! ## Page directories -/

def kernelDataSelector : BitVec 32 := 0x10

/-- `current_directory` is never read, and not kept. -/
def pagingSwitch (o : Os) (directory : Addr) : Os := { o with cr3 := load32 o.mem directory }

def kernelRegisters (o : Os) : Os := { o with data := kernelDataSelector }

def userRegisters (o : Os) : Os := { o with data := userDataSegment }

def kernelPage (o : Os) : Os := o.kernelRegisters.pagingSwitch o.kernel_chunk

def switch (o : Os) (task : Addr) : Os :=
  ({ o with toKernel := taskSwitch o.toKernel task } : Os).pagingSwitch (o.tasks task).page_directory

def taskPage (o : Os) : Os := o.userRegisters.switch o.current_task

def taskPageTask (o : Os) (task : Addr) : Os := o.userRegisters.pagingSwitch (o.tasks task).page_directory

/-- `task_switch`, and `task_return` as far as the data selectors. -/
def resume (o : Os) (task : Addr) : Os := { o.switch task with data := (o.tasks task).registers.ss }

/-- The memory through the directory that is loaded. -/
def view (o : Os) : Mem := fun a => o.mem (userPages o.cr3 o.mem a)

def taskGetStackItem (o : Os) (task : Addr) (index : Nat) : Os × BitVec 32 :=
  let sp_ptr := (o.tasks task).registers.esp
  let o := o.taskPageTask task
  let result := load32 o.view (index32 sp_ptr index)
  (o.kernelPage, result)

@[simp] theorem kernelPage_toKernel (o : Os) : o.kernelPage.toKernel = o.toKernel := rfl

@[simp] theorem taskPage_toKernel (o : Os) : o.taskPage.toKernel = o.toKernel := rfl

def taskCurrentSaveState (o : Os) (frame : InterruptFrame) : Option Os :=
  if o.current_task = 0 then none
  else some { o with toKernel := o.toKernel.setTask o.current_task (taskSaveState · frame) }

end Os

/-! ## `kernel.c` -/

def Terminal.print (t : Terminal) (str : CharPtr) : Option Terminal := do
  let len ← strlen str
  return (str.take len).foldl (fun t c => terminalWritechar t c 15) t

/-! ## The commands -/

namespace Os

def isr80hCommand0Sum (o : Os) : Os × BitVec 32 :=
  let (o, v2) := o.taskGetStackItem o.current_task 1
  let (o, v1) := o.taskGetStackItem o.current_task 0
  (o, v1 + v2)

def sizeofBuf : Nat := 1024

/-- `buf` is on the kernel's stack. The copy runs with the directory of the task loaded, and ends with
the kernel's. A copy that fails leaves `buf` as it was, and that is printed. -/
def isr80hCommand1Print (o : Os) (buf : Addr) : Option (Os × BitVec 32) := do
  let (o, user_space_msg_buffer) := o.taskGetStackItem o.current_task 0
  let (k, _) := copyStringFromTask o.toKernel o.current_task user_space_msg_buffer buf sizeofBuf
  let terminal ← o.terminal.print (readBytes k.mem buf sizeofBuf)
  return ({ o with toKernel := k, terminal }, 0)

def isr80hCommand2Getkey (o : Os) : Os × BitVec 32 :=
  let (k, c) := keyboardPop o.toKernel
  ({ o with toKernel := k }, c.signExtend 32)

def isr80hCommand3Putchar (o : Os) : Os × BitVec 32 :=
  let (o, item) := o.taskGetStackItem o.current_task 0
  ({ o with terminal := terminalWritechar o.terminal (item.setWidth 8) 15 }, 0)

def isr80hCommand4Malloc (o : Os) : Os × BitVec 32 :=
  let (o, size) := o.taskGetStackItem o.current_task 0
  let (k, ptr) := processMalloc o.toKernel (o.tasks o.current_task).process size
  ({ o with toKernel := k }, ptr)

def isr80hCommand5Free (o : Os) : Os × BitVec 32 :=
  let (o, ptr_to_free) := o.taskGetStackItem o.current_task 0
  ({ o with toKernel := processFree o.toKernel (o.tasks o.current_task).process ptr_to_free }, 0)

/-- `none` stands for a command that calls a function the source does not have, or that goes on in
another task. -/
def runCommand (o : Os) (buf : Addr) : Isr80hCommand → Option (Os × BitVec 32)
  | .command0Sum => some o.isr80hCommand0Sum
  | .command1Print => o.isr80hCommand1Print buf
  | .command2Getkey => some o.isr80hCommand2Getkey
  | .command3Putchar => some o.isr80hCommand3Putchar
  | .command4Malloc => some o.isr80hCommand4Malloc
  | .command5Free => some o.isr80hCommand5Free
  | _ => none

def maxIsr80hCommands : Int := 1024

def isr80hHandleCommand (o : Os) (command : Int) (buf : Addr) : Option (Os × BitVec 32) :=
  if command < 0 ∨ command ≥ maxIsr80hCommands then some (o, 0)
  else
    match o.isr80h_commands command.toNat with
    | none => some (o, 0)
    | some command_func => o.runCommand buf command_func

def isr80hHandler (o : Os) (command : Int) (frame : InterruptFrame) (buf : Addr) : Option (Os × BitVec 32) := do
  let o := o.kernelPage
  let o ← o.taskCurrentSaveState frame
  let (o, res) ← o.isr80hHandleCommand command buf
  return (o.taskPage, res)

/-! ## Interrupts -/

/-- `scancode` is the first byte that the port gives, and the second is thrown away. -/
def clasicKeyboardHandleInterrupt (o : Os) (scancode : Byte) : Option Os :=
  let o := o.kernelPage
  if scancode &&& classicKeyboardKeyReleased ≠ 0 then some o
  else do
    let o := if scancode = classicKeyboardCapslock then { o with capslock_state := o.capslock_state.toggle } else o
    let c ← classicKeyboardScancodeToChar o.capslock_state scancode
    let o := if c ≠ 0 then { o with toKernel := keyboardPush o.toKernel c } else o
    return o.taskPage

/-- `none` stands for a callback that calls `task_next`, which the source does not have. -/
def runCallback (o : Os) (scancode : Byte) : InterruptCallback → Option Os
  | .clasicKeyboardHandleInterrupt => o.clasicKeyboardHandleInterrupt scancode
  | _ => none

def interruptHandler (o : Os) (interrupt : Nat) (frame : InterruptFrame) (scancode : Byte) : Option Os := do
  let o := o.kernelPage
  match o.interrupt_callbacks interrupt with
  | none => return o.taskPage
  | some callback =>
    let o ← o.taskCurrentSaveState frame
    let o ← o.runCallback scancode callback
    return o.taskPage

end Os

end MultitaskOs
