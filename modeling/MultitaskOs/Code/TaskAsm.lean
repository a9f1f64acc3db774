import MultitaskOs.Code.Task
import MultitaskOs.Lib.X86

/-!
# `task/task.asm`
-/

open Lib.Memory Lib.X86

namespace MultitaskOs

/-- The words of `struct registers`, in the order of its fields. -/
def Registers.words (r : Registers) : List (BitVec 32) :=
  [r.edi, r.esi, r.ebp, r.ebx, r.edx, r.ecx, r.eax, r.ip, r.cs, r.flags, r.esp, r.ss]

def sizeofRegisters : Nat := 48

/-- `&task->registers` -/
def taskRegisters (task : Addr) : Addr := task + 4

def taskReturn (restore_general_purpose_registers : Addr) : List Instr :=
  [.mov .ebp .esp,
    .load .ebx .ebp 4,
    .pushMem .ebx 44,
    .pushMem .ebx 40,
    .pushf,
    .pop .eax,
    .or .eax 0x200,
    .push .eax,
    .pushMem .ebx 32,
    .pushMem .ebx 28,
    .loadLow .eax .ebx 44,
    .movSeg .ds .eax,
    .movSeg .es .eax,
    .movSeg .fs .eax,
    .movSeg .gs .eax,
    .pushMem .ebp 4,
    .call restore_general_purpose_registers,
    .add .esp 4,
    .iretd]

def restoreGeneralPurposeRegisters : List Instr :=
  [.push .ebp,
    .mov .ebp .esp,
    .load .ebx .ebp 8,
    .load .edi .ebx 0,
    .load .esi .ebx 4,
    .load .ebp .ebx 8,
    .load .edx .ebx 16,
    .load .ecx .ebx 20,
    .load .eax .ebx 24,
    .load .ebx .ebx 12,
    .pop .ebp,
    .ret]

end MultitaskOs
