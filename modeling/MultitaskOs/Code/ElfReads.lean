import MultitaskOs.Code.Elf
import MultitaskOs.Lib.Reading

/-!
# `elf_process_loaded`, with what it reads of the image

The functions of `elfloader.c` once more, read by read. The signature's constant
and the record `elf_file` are the kernel's own and not counted.
-/

open Lib Lib.Memory Lib.Memory.Reading

namespace MultitaskOs.ElfReads

def elfSignature : List Byte := [0x7f, 0x45, 0x4c, 0x46]

/-- Up to the first difference, which is read once more. -/
def memcmp (s1 : Addr) : List Byte → Reading Int
  | [] => return 0
  | c2 :: s2 => do
    if (← read8 s1) ≠ c2 then return if (← read8 s1).toInt < c2.toInt then -1 else 1
    else memcmp (s1 + 1) s2

def elfValidSignature (buffer : Addr) : Reading Bool := (· == 0) <$> memcmp buffer elfSignature

def elfValidClass (header : Addr) : Reading Bool :=
  ((· == 0) <$> read8 (header + 4)) <||> ((· == 1) <$> read8 (header + 4))

def elfValidEncoding (header : Addr) : Reading Bool :=
  ((· == 0) <$> read8 (header + 5)) <||> ((· == 1) <$> read8 (header + 5))

def ePhoff (header : Addr) : Reading (BitVec 32) := read32 (header + 28)

def ePhnum (header : Addr) : Reading (BitVec 16) := read16 (header + 44)

def elfHasProgramHeader (header : Addr) : Reading Bool := (· != 0) <$> ePhoff header

def elfValidateLoaded (header : Addr) : Reading Int := do
  if ← elfValidSignature header <&&> elfValidClass header <&&> elfValidEncoding header <&&>
    elfHasProgramHeader header then return 0
  else return -EINFORMAT

def elfPheader (header : Addr) : Reading Addr := do
  if (← ePhoff header) = 0 then return 0 else return header + (← ePhoff header)

def elfProgramHeader (header : Addr) (index : Nat) : Reading Addr := do
  return (← elfPheader header) + BitVec.ofNat 32 (sizeofElf32Phdr * index)

def pType (phdr : Addr) : Reading (BitVec 32) := read32 phdr

def pOffset (phdr : Addr) : Reading (BitVec 32) := read32 (phdr + 4)

def pVaddr (phdr : Addr) : Reading (BitVec 32) := read32 (phdr + 8)

def pFilesz (phdr : Addr) : Reading (BitVec 32) := read32 (phdr + 16)

/-- The first half of `elf_process_phdr_pt_load`. -/
def setBase (phdr : Addr) (elf_file : ElfFile) : Reading ElfFile := do
  if (← pVaddr phdr) ≤ elf_file.virtual_base_address ∨ elf_file.virtual_base_address = 0 then
    return { elf_file with
      virtual_base_address := ← pVaddr phdr
      physical_base_address := elf_file.elf_memory + (← pOffset phdr) }
  else return elf_file

def elfProcessPhdrPtLoad (phdr : Addr) (elf_file : ElfFile) : Reading ElfFile := do
  let elf_file ← setBase phdr elf_file
  let end_virtual_address := (← pVaddr phdr) + (← pFilesz phdr)
  if elf_file.virtual_end_address ≤ end_virtual_address ∨ elf_file.virtual_end_address = 0 then
    return { elf_file with
      virtual_end_address := end_virtual_address
      physical_end_address := elf_file.elf_memory + (← pOffset phdr) + (← pFilesz phdr) }
  else return elf_file

def elfProcessPheader (phdr : Addr) (elf_file : ElfFile) : Reading ElfFile := do
  if (← pType phdr) = ptLoad then elfProcessPhdrPtLoad phdr elf_file else return elf_file

/-- The loop from `i` on, with `n` turns left at most. A `uint16_t` bounds the turns. -/
def elfProcessPheadersLoop (header : Addr) : Nat → Nat → ElfFile → Reading ElfFile
  | 0, _, elf_file => return elf_file
  | n + 1, i, elf_file => do
    if i < (← ePhnum header).toNat then
      elfProcessPheadersLoop header n (i + 1) (← elfProcessPheader (← elfProgramHeader header i) elf_file)
    else return elf_file

def elfProcessPheaders (elf_file : ElfFile) : Reading ElfFile :=
  elfProcessPheadersLoop elf_file.elf_memory (2 ^ 16) 0 elf_file

def elfProcessLoaded (elf_file : ElfFile) : Reading (ElfFile × Int) := do
  let res ← elfValidateLoaded elf_file.elf_memory
  if res < 0 then return (elf_file, res) else return (← elfProcessPheaders elf_file, 0)

end MultitaskOs.ElfReads
