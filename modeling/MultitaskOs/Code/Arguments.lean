import MultitaskOs.Code.Copy
import MultitaskOs.Code.Process

/-!
# `task/process.c`: the arguments of a process

A `struct command_argument` is 512 bytes of text and the address of the next
one. The loops over such a list are given a number of turns, since nothing says
that the list ends.
-/

open Lib Lib.Memory

namespace MultitaskOs

/-- `sizeof(current->argument)` -/
def sizeofArgument : Nat := 512

/-- `current->next` -/
def nextArgument (m : Mem) (current : Addr) : Addr := load32 m (current + BitVec.ofNat 32 sizeofArgument)

def processCountCommandArgumentsLoop (m : Mem) : Nat → Addr → Int → Option Int
  | 0, _, _ => none
  | turns + 1, current, i =>
    if current = 0 then some i
    else processCountCommandArgumentsLoop m turns (nextArgument m current) (toInt32 (i + 1))

def processCountCommandArguments (m : Mem) (turns : Nat) (root_argument : Addr) : Option Int :=
  processCountCommandArgumentsLoop m turns root_argument 0

/-- `&argv[i]` -/
def argvSlot (argv : Addr) (i : Int) : Addr := argv + BitVec.ofInt 32 (4 * i)

/-- The `while (current)` of `process_inject_arguments`, with the status at its end. -/
def processInjectArgumentsLoop (process argv : Addr) : Nat → Kernel → Addr → Int → Option (Kernel × Int)
  | 0, _, _, _ => none
  | turns + 1, k, current, i =>
    if current = 0 then some (k, 0)
    else
      let (k, argument_str) := processMalloc k process (BitVec.ofNat 32 sizeofArgument)
      if argument_str = 0 then some (k, -ENOMEM)
      else
        let mem := strncpyMem kernelPages k.mem argument_str current sizeofArgument
        let mem := store32 mem (argvSlot argv i) argument_str
        processInjectArgumentsLoop process argv turns { k with mem } (nextArgument mem current) (toInt32 (i + 1))

def processInjectArguments (turns : Nat) (k : Kernel) (process root_argument : Addr) : Option (Kernel × Int) := do
  let argc ← processCountCommandArguments k.mem turns root_argument
  if argc = 0 then return (k, - EIO)
  let (k, argv) := processMalloc k process (BitVec.ofInt 32 (4 * argc))
  if argv = 0 then return (k, -ENOMEM)
  let (k, res) ← processInjectArgumentsLoop process argv turns k root_argument 0
  if res < 0 then return (k, res)
  return (k.setProc process fun p => { p with arguments := ⟨argc, argv⟩ }, res)

end MultitaskOs
