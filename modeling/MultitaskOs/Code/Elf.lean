import MultitaskOs.Code.Paging
import MultitaskOs.Code.Process

/-!
# `loader/format/elfloader.c`, and the mapping of an image

The image and its headers are bytes in memory; a header is named by its address.
-/

open Lib Lib.Memory Lib.Run

namespace MultitaskOs

def sizeofElfFile : Nat := 132
def sizeofElf32Phdr : Nat := 32

def ptLoad : BitVec 32 := 1
def pfW : BitVec 32 := 0x02

def ePhoff (m : Mem) (header : Addr) : BitVec 32 := load32 m (header + 28)

def ePhnum (m : Mem) (header : Addr) : BitVec 16 := load16 m (header + 44)

def pType (m : Mem) (phdr : Addr) : BitVec 32 := load32 m phdr

def pOffset (m : Mem) (phdr : Addr) : BitVec 32 := load32 m (phdr + 4)

def pVaddr (m : Mem) (phdr : Addr) : BitVec 32 := load32 m (phdr + 8)

def pFilesz (m : Mem) (phdr : Addr) : BitVec 32 := load32 m (phdr + 16)

def pMemsz (m : Mem) (phdr : Addr) : BitVec 32 := load32 m (phdr + 20)

def pFlags (m : Mem) (phdr : Addr) : BitVec 32 := load32 m (phdr + 24)

/-! ## Validation -/

def elfValidSignature (m : Mem) (buffer : Addr) : Bool :=
  m buffer == 0x7f && m (buffer + 1) == 0x45 && m (buffer + 2) == 0x4c && m (buffer + 3) == 0x46

def elfValidClass (m : Mem) (header : Addr) : Bool := m (header + 4) == 0 || m (header + 4) == 1

def elfValidEncoding (m : Mem) (header : Addr) : Bool := m (header + 5) == 0 || m (header + 5) == 1

def elfHasProgramHeader (m : Mem) (header : Addr) : Bool := ePhoff m header != 0

def elfValidateLoaded (m : Mem) (header : Addr) : Int :=
  if elfValidSignature m header && elfValidClass m header && elfValidEncoding m header &&
    elfHasProgramHeader m header then 0
  else -EINFORMAT

theorem elfValidateLoaded_eq_zero {m : Mem} {header : Addr} (h : ¬ elfValidateLoaded m header < 0) :
    elfValidateLoaded m header = 0 := by
  unfold elfValidateLoaded at h ⊢
  split
  · rfl
  · rename_i hbad
    rw [if_neg hbad] at h
    exact absurd (by decide) h

theorem ePhoff_ne_zero {m : Mem} {header : Addr} (h : ¬ elfValidateLoaded m header < 0) : ePhoff m header ≠ 0 := by
  intro h0
  unfold elfValidateLoaded elfHasProgramHeader at h
  rw [h0] at h
  simp [EINFORMAT] at h

def elfPheader (m : Mem) (header : Addr) : Addr :=
  if ePhoff m header = 0 then 0 else header + ePhoff m header

def elfProgramHeader (m : Mem) (header : Addr) (index : Nat) : Addr :=
  elfPheader m header + BitVec.ofNat 32 (sizeofElf32Phdr * index)

def elfPhdrPhysAddress (m : Mem) (file : ElfFile) (phdr : Addr) : Addr := file.elf_memory + pOffset m phdr

/-! ## The bounds of the image -/

def elfProcessPhdrPtLoad (m : Mem) (phdr : Addr) (elf_file : ElfFile) : ElfFile :=
  let elf_file :=
    if pVaddr m phdr ≤ elf_file.virtual_base_address ∨ elf_file.virtual_base_address = 0 then
      { elf_file with
        virtual_base_address := pVaddr m phdr
        physical_base_address := elf_file.elf_memory + pOffset m phdr }
    else elf_file
  let end_virtual_address := pVaddr m phdr + pFilesz m phdr
  if elf_file.virtual_end_address ≤ end_virtual_address ∨ elf_file.virtual_end_address = 0 then
    { elf_file with
      virtual_end_address := end_virtual_address
      physical_end_address := elf_file.elf_memory + pOffset m phdr + pFilesz m phdr }
  else elf_file

def elfProcessPheader (m : Mem) (phdr : Addr) (elf_file : ElfFile) : ElfFile :=
  if pType m phdr = ptLoad then elfProcessPhdrPtLoad m phdr elf_file else elf_file

/-- No header is refused, so the status is always 0. -/
def elfProcessPheaders (m : Mem) (elf_file : ElfFile) : ElfFile :=
  let header := elf_file.elf_memory
  forN (ePhnum m header).toNat (fun i f => elfProcessPheader m (elfProgramHeader m header i) f) elf_file

def elfProcessLoaded (m : Mem) (elf_file : ElfFile) : ElfFile × Int :=
  let res := elfValidateLoaded m elf_file.elf_memory
  if res < 0 then (elf_file, res) else (elfProcessPheaders m elf_file, 0)

/-! ## `process_map_elf` and its siblings in `task/process.c` -/

/-- `PAGING_IS_PRESENT | PAGING_ACCESS_FROM_ALL`, and `PAGING_IS_WRITEABLE` for a header with `PF_W`. -/
def phdrFlags (m : Mem) (phdr : Addr) : BitVec 32 :=
  let flags := pagingIsPresent ||| pagingAccessFromAll
  if pFlags m phdr &&& pfW ≠ 0 then flags ||| pagingIsWriteable else flags

/-- The loop from `i` on, with `n` turns left at most. A `uint16_t` bounds the turns. -/
def processMapElfLoop (directory : Addr) (elf_file : ElfFile) (phdrs : Addr) : Nat → Nat → Int → Mem → Mem × Int
  | 0, _, res, m => (m, res)
  | n + 1, i, res, m =>
    if i < (ePhnum m elf_file.elf_memory).toNat then
      let phdr := phdrs + BitVec.ofNat 32 (sizeofElf32Phdr * i)
      let phdr_phys_address := elfPhdrPhysAddress m elf_file phdr
      let (m, res) := pagingMapTo m directory (pagingAlignToLowerPage (pVaddr m phdr))
        (pagingAlignToLowerPage phdr_phys_address)
        (pagingAlignAddress (phdr_phys_address + pMemsz m phdr)) (phdrFlags m phdr)
      if res < 0 then (m, res) else processMapElfLoop directory elf_file phdrs n (i + 1) res m
    else (m, res)

def processMapElf (k : Kernel) (process : Addr) : Kernel × Int :=
  let elf_file := k.elfFiles (k.procs process).elf_file
  let phdrs := elfPheader k.mem elf_file.elf_memory
  let (mem, res) := processMapElfLoop (pageDirectory k process) elf_file phdrs (2 ^ 16) 0 0 k.mem
  ({ k with mem }, res)

end MultitaskOs
