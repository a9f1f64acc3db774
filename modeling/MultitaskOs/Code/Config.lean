import MultitaskOs.Lib.Memory

/-!
# `config.h`, `status.h` and `kernel.h`

An `int` is an `Int`, brought back into 32 bits by `toInt32` where the source
can leave them. A `uint32_t` or a pointer is a `BitVec 32`.
-/

open Lib.Memory

namespace MultitaskOs

def blockSize : Nat := 4096
def sectorSize : Int := 512
def fileDescriptors : Nat := 512
def maxPath : Nat := 108
def programVirtualAddress : Addr := 0x400000
def userProgramStackSize : Nat := 1024 * 16
def programVirtualStackAddressStart : Addr := 0x3FF000
def maxProgramAllocations : Nat := 1024
def maxProcesses : Nat := 12
def userDataSegment : BitVec 32 := 0x23
def userCodeSegment : BitVec 32 := 0x1b
def keyboardBufferSize : Nat := 1024

def EIO : Int := 1
def EINVARG : Int := 2
def ENOMEM : Int := 3
def EBADPATH : Int := 4
def EFSNOTUS : Int := 5
def ERDONLY : Int := 6
def EUNIMP : Int := 7
def EISTKN : Int := 8
def EINFORMAT : Int := 9

/-- What an `int` keeps of a result. -/
def toInt32 (x : Int) : Int := (BitVec.ofInt 32 x).toInt

theorem toInt32_of_bounds {x : Int} (h1 : -2 ^ 31 ≤ x) (h2 : x < 2 ^ 31) : toInt32 x = x := by
  unfold toInt32
  rw [BitVec.toInt_ofInt, Int.bmod_eq_of_le (by norm_num; omega) (by norm_num; omega)]

theorem toInt32_bounds (x : Int) : -2 ^ 31 ≤ toInt32 x ∧ toInt32 x < 2 ^ 31 := by
  have h1 := BitVec.le_toInt (BitVec.ofInt 32 x)
  have h2 := BitVec.toInt_lt (x := BitVec.ofInt 32 x)
  exact ⟨h1, h2⟩

theorem toInt32_add (x y : Int) : toInt32 (toInt32 x + y) = toInt32 (x + y) := by
  unfold toInt32
  rw [BitVec.toInt_ofInt, BitVec.toInt_ofInt, BitVec.toInt_ofInt, Int.bmod_add_bmod]

/-- `ERROR(value)`: a status passed as a pointer. -/
def ERROR (value : Int) : Addr := BitVec.ofInt 32 value

/-- `ERROR_I(value)` -/
def ERROR_I (value : Addr) : Int := value.toInt

/-- `ISERR(value)` on a pointer. -/
def ISERR (value : Addr) : Bool := decide (value.toInt < 0)

end MultitaskOs
