import MultitaskOs.Code.Config

/-!
# `gdt/gdt.c`
-/

open Lib.Memory

namespace MultitaskOs

/-- The eight bytes of a `struct gdt`. -/
abbrev Gdt := Nat → Byte

structure GdtStructured where
  base : BitVec 32
  limit : BitVec 32
  type : BitVec 8

/-- `none` where the source panics. -/
def encodeGdtEntry (target : Gdt) (source : GdtStructured) : Option Gdt :=
  if source.limit > 65536 ∧ source.limit &&& 0xFFF ≠ 0xFFF then none
  else
    let target := Function.update target 6 0x40
    let (limit, target) :=
      if source.limit > 65536 then (source.limit >>> 12, Function.update target 6 0xC0) else (source.limit, target)
    let target := Function.update target 0 ((limit &&& 0xFF).setWidth 8)
    let target := Function.update target 1 ((limit >>> 8 &&& 0xFF).setWidth 8)
    let target := Function.update target 6 (target 6 ||| (limit >>> 16 &&& 0x0F).setWidth 8)
    let target := Function.update target 2 ((source.base &&& 0xFF).setWidth 8)
    let target := Function.update target 3 ((source.base >>> 8 &&& 0xFF).setWidth 8)
    let target := Function.update target 4 ((source.base >>> 16 &&& 0xFF).setWidth 8)
    let target := Function.update target 7 ((source.base >>> 24 &&& 0xFF).setWidth 8)
    some (Function.update target 5 source.type)

/-- The loop of `gdt_structured_to_gdt`, with `n` entries left from `i` on. -/
def gdtStructuredToGdtLoop (structured_gdt : Nat → GdtStructured) : Nat → Nat → (Nat → Gdt) → Option (Nat → Gdt)
  | 0, _, gdt => some gdt
  | n + 1, i, gdt =>
    (encodeGdtEntry (gdt i) (structured_gdt i)).bind fun entry =>
      gdtStructuredToGdtLoop structured_gdt n (i + 1) (Function.update gdt i entry)

def gdtStructuredToGdt (gdt : Nat → Gdt) (structured_gdt : Nat → GdtStructured) (total_entires : Int) :
    Option (Nat → Gdt) :=
  gdtStructuredToGdtLoop structured_gdt total_entires.toNat 0 gdt

end MultitaskOs
