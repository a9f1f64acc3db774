import MultitaskOs.Code.Arguments
import MultitaskOs.Code.String

/-!
# `strtok` and `peachos_parse_command`, of the programs' library

The memory is the program's own view of it. `none` is a loop that never ends.
-/

open Lib Lib.Memory Lib.CString

namespace MultitaskOs

/-- A program's memory and its allocator, and the cursor of `strtok`. -/
structure Program extends Kmem where
  sp : Addr

/-- A scan of the memory that has not ended after so many bytes goes round for ever. -/
def addressSpace : Nat := 2 ^ 32

/-- Where `for (i = 0; i < len; i++)` finds the character, or `len`. -/
def delimiterIndex (delimiters : CharPtr) (len : Nat) (c : Byte) : Nat := (delimiters.take len).findIdx (· == c)

/-- The loop that passes over delimiters. -/
def strtokSkip (delimiters : CharPtr) (len : Nat) (m : Mem) : Nat → Addr → Option Addr
  | 0, _ => none
  | turns + 1, p_start =>
    let i := delimiterIndex delimiters len (m p_start)
    let p_start := if i < len then p_start + 1 else p_start
    if i = len then some p_start else strtokSkip delimiters len m turns p_start

/-- The loop that looks for the end of the token: the memory and `sp` behind it. -/
def strtokEnd (delimiters : CharPtr) (len : Nat) : Nat → Mem → Addr → Option (Mem × Addr)
  | 0, _, _ => none
  | turns + 1, m, sp =>
    if m sp = 0 then some (m, sp)
    else
      let i := delimiterIndex delimiters len (m sp)
      let m := if i < len then store8 m sp 0 else m
      let sp := sp + 1
      if i < len then some (m, sp) else strtokEnd delimiters len turns m sp

/-- The delimiters are a string of their own, which no token lies in. -/
def strtok (p : Program) (str : Addr) (delimiters : CharPtr) : Option (Program × Addr) := do
  let len ← strlen delimiters
  if str = 0 ∧ p.sp = 0 then return (p, 0)
  let sp := if str ≠ 0 ∧ p.sp = 0 then str else p.sp
  let p_start ← strtokSkip delimiters len p.mem addressSpace sp
  if p.mem p_start = 0 then return ({ p with sp := 0 }, 0)
  let (mem, sp) ← strtokEnd delimiters len addressSpace p.mem p_start
  return ({ p with mem, sp }, p_start)

/-! ## `multitaskos.c` -/

/-- `strncpy` of `string.c`, whose text is the kernel's. -/
def programStrncpy (m : Mem) (dest src : Addr) (count : Int) : Mem := strncpyMem kernelPages m dest src count

/-- What `process_malloc` gives is memory that the kernel has zeroed. -/
def multitaskosMalloc (p : Program) (size : Nat) : Program × Addr :=
  let (m, ptr) := kzalloc p.toKmem size
  ({ p with toKmem := m }, ptr)

def sizeofCommandArgument : Nat := 516
def sizeofScommand : Int := 1025

def space : CharPtr := [32, 0]

def setNext (m : Mem) (current next : Addr) : Mem := store32 m (current + BitVec.ofNat 32 sizeofArgument) next

/-- `while(token != 0)` -/
def peachosParseCommandLoop : Nat → Program → Addr → Addr → Option Program
  | 0, _, _, _ => none
  | turns + 1, p, current, token =>
    if token = 0 then some p
    else do
      let (p, new_command) := multitaskosMalloc p sizeofCommandArgument
      if new_command = 0 then return p
      let mem := programStrncpy p.mem new_command token sizeofArgument
      let mem := setNext mem new_command 0
      let mem := setNext mem current new_command
      let (p, token) ← strtok { p with mem } 0 space
      peachosParseCommandLoop turns p new_command token

/-- `scommand` is the address of the local array. -/
def peachosParseCommand (p : Program) (scommand command : Addr) (max : Int) : Option (Program × Addr) := do
  if max ≥ sizeofScommand then return (p, 0)
  let p := { p with mem := programStrncpy p.mem scommand command sizeofScommand }
  let (p, token) ← strtok p scommand space
  if token = 0 then return (p, 0)
  let (p, root_command) := multitaskosMalloc p sizeofCommandArgument
  if root_command = 0 then return (p, 0)
  let mem := programStrncpy p.mem root_command token sizeofArgument
  let mem := setNext mem root_command 0
  let (p, token) ← strtok { p with mem } 0 space
  let p ← peachosParseCommandLoop addressSpace p root_command token
  return (p, root_command)

end MultitaskOs
