import MultitaskOs.Code.Kernel
import MultitaskOs.Lib.X86Call

/-!
# `programs/stdlib/mutitaskos.asm`, and `idt/idt.asm`: `isr80h_wrapper`
-/

open Lib.Memory Lib.X86

namespace MultitaskOs

/-! ## `programs/stdlib/mutitaskos.asm` -/

def plainCommand (command : BitVec 32) : List Op :=
  [.instr (.push .ebp),
    .instr (.mov .ebp .esp),
    .movImm .eax command,
    .int,
    .instr (.pop .ebp),
    .instr .ret]

def argumentCommand (command : BitVec 32) : List Op :=
  [.instr (.push .ebp),
    .instr (.mov .ebp .esp),
    .movImm .eax command,
    .instr (.pushMem .ebp 8),
    .int,
    .instr (.add .esp 4),
    .instr (.pop .ebp),
    .instr .ret]

/-- A routine that user code calls: its instructions, the command and the number of its arguments. -/
structure Routine where
  code : List Op
  command : BitVec 32
  arguments : Nat

namespace Routine

/-- This one alone pushes before it sets `eax`. -/
def print : Routine where
  code :=
    [.instr (.push .ebp),
      .instr (.mov .ebp .esp),
      .instr (.pushMem .ebp 8),
      .movImm .eax 1,
      .int,
      .instr (.add .esp 4),
      .instr (.pop .ebp),
      .instr .ret]
  command := 1
  arguments := 1

def multitaskosGetkey : Routine := ⟨plainCommand 2, 2, 0⟩
def multitaskosPutchar : Routine := ⟨argumentCommand 3, 3, 1⟩
def multitaskosMalloc : Routine := ⟨argumentCommand 4, 4, 1⟩
def multitaskosFree : Routine := ⟨argumentCommand 5, 5, 1⟩
def multitaskosProcessLoadStart : Routine := ⟨argumentCommand 6, 6, 1⟩
def multitaskosSystem : Routine := ⟨argumentCommand 7, 7, 1⟩
def multitaskosProcessGetArguments : Routine := ⟨argumentCommand 8, 8, 1⟩
def multitaskosExit : Routine := ⟨plainCommand 9, 9, 0⟩

end Routine

def routines : List Routine :=
  [.print, .multitaskosGetkey, .multitaskosPutchar, .multitaskosMalloc, .multitaskosFree,
    .multitaskosProcessLoadStart, .multitaskosSystem, .multitaskosProcessGetArguments, .multitaskosExit]

/-! ## `isr80h_wrapper` -/

/-- The words of `struct interrupt_frame`, in the order of its fields. -/
def InterruptFrame.words (f : InterruptFrame) : List (BitVec 32) :=
  [f.edi, f.esi, f.ebp, f.reserved, f.ebx, f.edx, f.ecx, f.eax, f.ip, f.cs, f.flags, f.esp, f.ss]

def isr80hWrapper (isr80h_handler tmp_res : Addr) : List Op :=
  [.pushad,
    .instr (.push .esp),
    .instr (.push .eax),
    .instr (.call isr80h_handler),
    .storeAbs tmp_res .eax,
    .instr (.add .esp 8),
    .popad,
    .loadAbs .eax tmp_res,
    .instr .iretd]

end MultitaskOs
