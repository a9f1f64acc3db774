import MultitaskOs.Code.Kheap

/-!
# The kernel's data

Every struct the kernel keeps is a record, stored under its address beside the
byte memory; buffers, strings, page tables and ELF images are bytes.
-/

open Lib Lib.Memory

namespace MultitaskOs

/-! ## `task/task.h`, `idt/idt.h` -/

structure Registers where
  edi : BitVec 32
  esi : BitVec 32
  ebp : BitVec 32
  ebx : BitVec 32
  edx : BitVec 32
  ecx : BitVec 32
  eax : BitVec 32
  ip : BitVec 32
  cs : BitVec 32
  flags : BitVec 32
  esp : BitVec 32
  ss : BitVec 32

structure InterruptFrame where
  edi : BitVec 32
  esi : BitVec 32
  ebp : BitVec 32
  reserved : BitVec 32
  ebx : BitVec 32
  edx : BitVec 32
  ecx : BitVec 32
  eax : BitVec 32
  ip : BitVec 32
  cs : BitVec 32
  flags : BitVec 32
  esp : BitVec 32
  ss : BitVec 32

structure Task where
  page_directory : Addr
  registers : Registers
  process : Addr
  next : Addr
  prev : Addr

/-! ## `task/process.h` -/

structure ProcessAllocation where
  ptr : Addr
  size : BitVec 32

structure KeyboardBuffer where
  buffer : Nat → Byte
  tail : BitVec 32
  head : BitVec 32

structure ProcessArguments where
  argc : Int
  argv : Addr

def processFiletypeElf : Nat := 0
def processFiletypeBinary : Nat := 1

/-- `ptr` and `elf_file` share a word, here `ptr`. -/
structure Process where
  id : Nat
  filename : List Byte
  task : Addr
  allocations : Nat → ProcessAllocation
  filetype : Nat
  ptr : Addr
  stack : Addr
  size : BitVec 32
  keyboard : KeyboardBuffer
  arguments : ProcessArguments

def Process.elf_file (p : Process) : Addr := p.ptr

/-! ## `loader/format/elfloader.h` -/

structure ElfFile where
  elf_memory : Addr
  virtual_base_address : Addr
  virtual_end_address : Addr
  physical_base_address : Addr
  physical_end_address : Addr

/-! ## `fs/pparser.h`, `fs/file.h` -/

structure PathRoot where
  drive_no : Int
  first : Addr

structure PathPart where
  part : Addr
  next : Addr

/-- `private` and `disk` are pointers; there is one disk, so `disk` is not kept. -/
structure FileDescriptor where
  index : Int
  priv : Addr

/-! ## `fs/fat/fat16.c`, `disk/disk.h`, `disk/streamer.h` -/

def fatItemTypeDirectory : Nat := 0
def fatItemTypeFile : Nat := 1

/-- `item` and `directory` share a word, here `item`. -/
structure FatItem where
  item : Addr
  type : Nat

def FatItem.directory (i : FatItem) : Addr := i.item

structure FatDirectory where
  item : Addr
  total : Int
  sector_pos : Int
  ending_sector_pos : Int

structure FatFileDescriptor where
  item : Addr
  pos : BitVec 32

structure FatHeader where
  sectors_per_cluster : Nat
  reserved_sectors : Nat
  fat_copies : Nat
  root_dir_entries : Nat
  sectors_per_fat : Nat

/-- The streams' structs are kept in the record: only their positions matter. -/
structure FatPrivate where
  header : FatHeader
  root_directory : FatDirectory
  cluster_read_stream : Int
  fat_read_stream : Int
  directory_stream : Int

/-- What the drive holds, by the head register and the 24 bits of address it is given. -/
structure Disk where
  sector : BitVec 8 → BitVec 24 → Nat → Byte
  sector_size : Nat
  /-- The stack bytes around the sector buffer of `diskstreamer_read`. -/
  around : Int → Byte
  /-- Whether `disk->filesystem` is set. -/
  filesystem : Bool

/-! ## The whole kernel -/

structure Kernel extends Kmem where
  tasks : Addr → Task
  procs : Addr → Process
  elfFiles : Addr → ElfFile
  pathRoots : Addr → PathRoot
  pathParts : Addr → PathPart
  fileDescs : Addr → FileDescriptor
  fatItems : Addr → FatItem
  fatDirs : Addr → FatDirectory
  fatDescs : Addr → FatFileDescriptor
  current_task : Addr
  task_head : Addr
  task_tail : Addr
  current_process : Addr
  processes : Nat → Addr
  file_descriptors : Nat → Addr
  disk : Disk
  fs_private : FatPrivate

/-! ## Cleared records -/

def zeroRegisters : Registers := ⟨0, 0, 0, 0, 0, 0, 0, 0, 0, 0, 0, 0⟩

def zeroTask : Task := ⟨0, zeroRegisters, 0, 0, 0⟩

def zeroProcess : Process :=
  ⟨0, [], 0, fun _ => ⟨0, 0⟩, 0, 0, 0, 0, ⟨fun _ => 0, 0, 0⟩, ⟨0, 0⟩⟩

def zeroFatDirectory : FatDirectory := ⟨0, 0, 0, 0⟩

def Kernel.onKmem {α : Type} (k : Kernel) (f : Kmem → Kmem × α) : Kernel × α :=
  let (m, a) := f k.toKmem
  ({ k with toKmem := m }, a)

theorem Kernel.onKmem_eq {α : Type} {k : Kernel} {f : Kmem → Kmem × α} {m : Kmem} {a : α}
    (h : f k.toKmem = (m, a)) : k.onKmem f = ({ k with toKmem := m }, a) := by
  rw [Kernel.onKmem, h]

theorem update_field {α β : Type} {g : Addr → α} {a : Addr} {v : α} (field : α → β) (h : field v = field (g a))
    (b : Addr) : field (Function.update g a v b) = field (g b) := by
  rw [Function.update_apply]
  split
  · rename_i hb
    rw [hb, h]
  · rfl

def Kernel.setTask (k : Kernel) (task : Addr) (f : Task → Task) : Kernel :=
  { k with tasks := Function.update k.tasks task (f (k.tasks task)) }

theorem Kernel.setTask_field {β : Type} {k : Kernel} {t : Addr} {f : Task → Task} (field : Task → β)
    (h : field (f (k.tasks t)) = field (k.tasks t)) (a : Addr) :
    field ((k.setTask t f).tasks a) = field (k.tasks a) := update_field field h a

def Kernel.setProc (k : Kernel) (process : Addr) (f : Process → Process) : Kernel :=
  { k with procs := Function.update k.procs process (f (k.procs process)) }

@[simp] theorem Kernel.setProc_self (k : Kernel) (process : Addr) (f : Process → Process) :
    (k.setProc process f).procs process = f (k.procs process) := Function.update_self _ _ _

end MultitaskOs
