import MultitaskOs.UserMode

/-!
# The arguments of a command

A program pushes the arguments of a command on its own stack, the last one first,
and the kernel reads them there through the program's directory.
-/

open Lib Lib.Memory Lib.Run Lib.Arena Lib.Mmu MultitaskOs.Paging MultitaskOs.Tasks MultitaskOs.ProcessMemory
  MultitaskOs.Translation MultitaskOs.LoadedImage MultitaskOs.AddressSpace MultitaskOs.Ownership MultitaskOs.System
  MultitaskOs.UserMode

namespace MultitaskOs.StackArguments

variable {k : Kernel} {o o1 : Os} {ps : List Addr} {dir : Addr → PageDir} {p v w x y esp cr3 : Addr} {a : Access}
  {args : List (BitVec 32)} {arg : BitVec 32} {frame : InterruptFrame} {stores : List Store} {s : Store}

/-! ## What a program pushes -/

def byteOf (arg : BitVec 32) (j : Nat) : Byte := arg.extractLsb' (8 * j) 8

def pushStores (cr3 esp : Addr) : List (BitVec 32) → List Store
  | [] => []
  | arg :: args => pushStores cr3 esp args ++
      (List.range 4).map fun j =>
        ⟨cr3, esp - BitVec.ofNat 32 (4 * (args.length + 1)) + BitVec.ofNat 32 j, byteOf arg j⟩

/-- Where byte `j` of argument `i` lies, of `n` arguments. -/
def place (esp : Addr) (n i j : Nat) : Addr := esp - BitVec.ofNat 32 (4 * n) + BitVec.ofNat 32 (4 * i + j)

/-- The `push` instructions of user code, with the stack pointer at `esp` before them. -/
def pushed (o : Os) (esp : Addr) (args : List (BitVec 32)) : Os :=
  { o with mem := run (Mmu.store false) o.mem (pushStores o.cr3 esp args) }

/-- User code can write the `n` bytes at `v`, and no two of them are one. -/
structure Room (o : Os) (v : Addr) (n : Nat) : Prop where
  writes : ∀ w, Within v n w → ∃ x, Mmu.translate false o.mem o.cr3 userWrite w = some x
  apart : ∀ w, Within v n w → ∀ w', Within v n w' →
    Mmu.translate false o.mem o.cr3 userWrite w = Mmu.translate false o.mem o.cr3 userWrite w' → w = w'

/-! ## What the kernel reads -/

end MultitaskOs.StackArguments
