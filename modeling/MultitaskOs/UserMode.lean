import MultitaskOs.Code.Interrupt
import MultitaskOs.System

/-!
# User code and the kernel

The kernel runs for user code in interrupts and commands, and each time gives the
processor back with the directory of the task that goes on. So the steps of the
whole are steps of the system, and user code is held to what its process owns.
-/

open Lib Lib.Memory Lib.Arena Lib.Mmu MultitaskOs.Paging MultitaskOs.Tasks MultitaskOs.ProcessMemory
  MultitaskOs.Isolation MultitaskOs.Termination MultitaskOs.LoadedImage MultitaskOs.FailedLoad
  MultitaskOs.AddressSpace MultitaskOs.Ownership MultitaskOs.System

namespace MultitaskOs.UserMode

structure InUser (o : Os) (p : Addr) : Prop where
  task : o.current_task = (o.procs p).task
  register : o.cr3 = directoryRegister o.toKernel p

def argument (o : Os) (frame : InterruptFrame) (i : Nat) : BitVec 32 := load32 o.view (index32 frame.esp i)

/-- One step, from user code to user code. Where the source calls `task_next`, which it does not have,
the processor may go to the task of any loaded process. -/
inductive Step : Os × List Addr → Os × List Addr → Prop where
  | store (o : Os) (ps : List Addr) (v : Addr) (value : Byte) :
      Step (o, ps) ({ o with mem := Mmu.store false o.mem ⟨o.cr3, v, value⟩ }, ps)
  /-- `int 0x80`, with a command that comes back. -/
  | command {o o' : Os} {ps : List Addr} {command : Int} {frame : InterruptFrame} {buf : Addr} {res : BitVec 32}
      (h : o.isr80hHandler command frame buf = some (o', res))
      (hprint : o.isr80h_commands command.toNat = some .command1Print → BufferApart o.toKernel buf Os.sizeofBuf)
      (hfree : o.isr80h_commands command.toNat = some .command5Free →
        Harmless o.toKernel (.free (o.tasks o.current_task).process (argument o frame 0))) : Step (o, ps) (o', ps)
  | interrupt {o o' : Os} {ps : List Addr} {interrupt : Nat} {frame : InterruptFrame} {scancode : Byte}
      (h : o.interruptHandler interrupt frame scancode = some o') : Step (o, ps) (o', ps)
  /-- `idt_clock` -/
  | clock {o o1 : Os} {ps : List Addr} {frame : InterruptFrame} {q : Addr} (hq : q ∈ ps)
      (h : o.kernelPage.taskCurrentSaveState frame = some o1) : Step (o, ps) (o1.resume (o1.procs q).task, ps)
  /-- `isr80h_command6_process_load_start`, from the path on. -/
  | loadStart {o o1 : Os} {ps : List Addr} {frame : InterruptFrame} {s : List Byte} {k : Kernel} {q : Addr}
      (hsave : o.kernelPage.taskCurrentSaveState frame = some o1) (h : LoadsImage o1.toKernel s k q) :
      Step (o, ps) (({ o1 with toKernel := processSwitch k q } : Os).resume (k.procs q).task, q :: ps)
  | loadFails {o o1 : Os} {ps : List Addr} {frame : InterruptFrame} {s : List Byte} {k : Kernel}
      (hsave : o.kernelPage.taskCurrentSaveState frame = some o1) (hhead : o.task_head ≠ 0)
      (h : LoadFails o1.toKernel s k) :
      Step (o, ps) (({ o1 with toKernel := k } : Os).taskPage, ps)
  /-- `isr80h_command9_exit`, and `idt_handle_exception`. -/
  | exit {o o1 : Os} {ps : List Addr} {frame : InterruptFrame} {p q : Addr} {k : Kernel}
      (hsave : o.kernelPage.taskCurrentSaveState frame = some o1) (hp : (o1.tasks o1.current_task).process = p)
      (h : processTerminate o1.toKernel p = some (k, 0)) (hq : q ∈ ps.filter (· ≠ p)) :
      Step (o, ps) (({ o1 with toKernel := k } : Os).resume (k.procs q).task, ps.filter (· ≠ p))

variable {o o' o1 : Os} {ps ps' : List Addr} {p q : Addr} {dir : Addr → PageDir} {frame : InterruptFrame}
    {k k' : Kernel}

/-! ## What the kernel does for user code -/

/-- A step of the system for `p`, for no process, for a new one, or a key for the current one. -/
def Does (p : Addr) (m m' : Machine) : Prop := ∃ q, System.Step m q m' ∧
  (q = p ∨ q = 0 ∨ q ∉ m.loaded ∨ ∃ c, m' = ⟨keyboardPush m.kernel c, m.loaded⟩)

theorem Does.own {m m' : Machine} (h : System.Step m p m') : Does p m m' := ⟨p, h, Or.inl rfl⟩

theorem Does.none {m m' : Machine} (h : System.Step m 0 m') : Does p m m' := ⟨0, h, Or.inr (Or.inl rfl)⟩

/-- The steps of the system from one kernel to another, with the tasks of the processes as they were. -/
structure Served (ps : List Addr) (p : Addr) (k k' : Kernel) : Prop where
  runs : Relation.ReflTransGen (Does p) ⟨k, ps⟩ ⟨k', ps⟩
  current : k'.current_task = k.current_task
  task : (k'.procs p).task = (k.procs p).task

theorem Served.refl (ps : List Addr) (p : Addr) (k : Kernel) : Served ps p k k := ⟨.refl, rfl, rfl⟩

theorem Served.trans {k'' : Kernel} (h : Served ps p k k') (h' : Served ps p k' k'') : Served ps p k k'' :=
  ⟨h.runs.trans h'.runs, h'.current.trans h.current, h'.task.trans h.task⟩

theorem Served.step (h : System.Step ⟨k, ps⟩ p ⟨k', ps⟩) (hcurrent : k'.current_task = k.current_task)
    (htask : (k'.procs p).task = (k.procs p).task) : Served ps p k k' := ⟨.single (.own h), hcurrent, htask⟩

/-- User code of `p` runs in the space of `p`, and writes to blocks that `p` owns. -/
structure Confined (o : Os) (p : Addr) : Prop where
  user : InUser o p
  process : (o.tasks o.current_task).process = p
  writes : ∀ x, Reaches false o.mem o.cr3 x →
    ∃ b ∈ o.heap.live, Own o.toKernel p b.base ∧ Within b.base (extent blockSize b.size) x

end MultitaskOs.UserMode
