import MultitaskOs.Code.Copy
import MultitaskOs.Code.String

/-!
# `isr80h/process.c`: the path of a program

The arrays of the handlers lie on the kernel's stack, so what is written behind
one of them is written to something else.
-/

open Lib Lib.Memory

namespace MultitaskOs

/-- A `char` array, with the bytes behind it, and the places written in it so far. -/
structure CharArray where
  bytes : Nat → Byte
  written : List Nat

def CharArray.set (a : CharArray) (i : Nat) (c : Byte) : CharArray :=
  ⟨Function.update a.bytes i c, i :: a.written⟩

def strcpyAt (dest : CharArray) (i : Nat) : CharPtr → Option CharArray
  | [] => none
  | c :: src => if c = 0 then some (dest.set i 0) else strcpyAt (dest.set i c) (i + 1) src

def strncpyAtLoop (dest : CharArray) (i : Nat) : Nat → CharPtr → Option CharArray
  | 0, _ => some (dest.set i 0)
  | _ + 1, [] => none
  | turns + 1, c :: src =>
    if c = 0 then some (dest.set i 0) else strncpyAtLoop (dest.set i c) (i + 1) turns src

def strncpyAt (dest : CharArray) (i : Nat) (src : CharPtr) (count : Int) : Option CharArray :=
  strncpyAtLoop dest i (count - 1).toNat src

def driveZero : CharPtr := [48, 58, 47, 0]

/-- `isr80h_command6_process_load_start` as far as the path, with the array `filename` in memory. -/
def isr80hCommand6Path (k : Kernel) (task filename_user_ptr filename : Addr) (path : CharArray) :
    Option (Kernel × Int × CharArray) := do
  let (k, res) := copyStringFromTask k task filename_user_ptr filename maxPath
  if res < 0 then return (k, res, path)
  let path ← strcpyAt path 0 driveZero
  let path ← strcpyAt path 3 (readBytes k.mem filename maxPath)
  return (k, res, path)

/-- `isr80h_command7_invoke_system_command` as far as the path. `task_virtual_address_to_physical`
has no definition: what it returns is an argument, with NULL as `none`. -/
def isr80hCommand7Path (arguments : Option CharPtr) (path : CharArray) : Option (Int × CharArray) :=
  match arguments with
  | none => some (-EINVARG, path)
  | some program_name => do
    let length ← strlen program_name
    if length = 0 then return (-EINVARG, path)
    let path ← strcpyAt path 0 driveZero
    let path ← strncpyAt path 3 program_name maxPath
    return (0, path)

end MultitaskOs
