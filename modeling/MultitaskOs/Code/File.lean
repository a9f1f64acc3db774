import MultitaskOs.Code.Fat16
import MultitaskOs.Code.PathParser

/-!
# `fs/file.c`

FAT16 is the only filesystem, so a call through its table of functions is a call
of `fat16.c`.
-/

open Lib Lib.Memory

namespace MultitaskOs

def sizeofFileDescriptor : Nat := 16

def fileFreeDescriptor (k : Kernel) (desc : Addr) : Kernel :=
  let index := (k.fileDescs desc).index
  let k := { k with file_descriptors := Function.update k.file_descriptors (index - 1).toNat 0 }
  (k.onKmem fun m => (kfree m desc, ())).1

/-- The first entry of the table that is NULL. -/
def freeDescriptor (k : Kernel) : Option Nat :=
  (List.range fileDescriptors).find? fun i => k.file_descriptors i = 0

/-- The status and the descriptor. What `kzalloc` answers is not looked at. -/
def fileNewDescriptor (k : Kernel) : Kernel × Int × Addr :=
  match freeDescriptor k with
  | none => (k, -ENOMEM, 0)
  | some i =>
    let (k, desc) := k.onKmem (kzalloc · sizeofFileDescriptor)
    ({ k with
        fileDescs := Function.update k.fileDescs desc ⟨i + 1, 0⟩
        file_descriptors := Function.update k.file_descriptors i desc }, 0, desc)

def fileGetDescriptor (k : Kernel) (fd : Int) : Addr :=
  if fd ≤ 0 ∨ fd ≥ fileDescriptors then 0 else k.file_descriptors (fd - 1).toNat

def fileGetModeByString (str : CharPtr) : Option FileMode := do
  if (← strncmp str [0x72] 1) = 0 then return .read
  if (← strncmp str [0x77] 1) = 0 then return .write
  if (← strncmp str [0x61] 1) = 0 then return .append
  return .invalid

/-- The descriptor, or 0 for every failure. -/
def fopen (k : Kernel) (filename mode_str : CharPtr) : Option (Kernel × Int) := do
  let (k, root_path) ← pathparserParse k filename
  if root_path = 0 then return (k, 0)
  if (k.pathRoots root_path).first = 0 then return (k, 0)
  if !diskGet (k.pathRoots root_path).drive_no then return (k, 0)
  if !k.disk.filesystem then return (k, 0)
  let mode ← fileGetModeByString mode_str
  if mode = .invalid then return (k, 0)
  let (k, priv) ← fat16Open k (k.pathRoots root_path).first mode
  if ISERR priv then return (k, 0)
  let (k, res, desc) := fileNewDescriptor k
  if res < 0 then return (k, 0)
  let k := { k with fileDescs := Function.update k.fileDescs desc { k.fileDescs desc with priv } }
  let res := (k.fileDescs desc).index
  return (k, if res < 0 then 0 else res)

def fstat (k : Kernel) (fd : Int) : Int × FileStat :=
  let desc := fileGetDescriptor k fd
  if desc = 0 then (- EIO, ⟨0, 0⟩) else fat16Stat k (k.fileDescs desc).priv

def fclose (k : Kernel) (fd : Int) : Kernel × Int :=
  let desc := fileGetDescriptor k fd
  if desc = 0 then (k, - EIO)
  else
    let (k, res) := fat16Close k (k.fileDescs desc).priv
    if res = 0 then (fileFreeDescriptor k desc, res) else (k, res)

/-- `whence`: `SEEK_SET`, `SEEK_CUR`, `SEEK_END`, or another value. -/
inductive FileSeekMode where
  | set
  | cur
  | ending
  | other
deriving DecidableEq

def fat16Seek (k : Kernel) (priv : Addr) (offset : BitVec 32) (seek_mode : FileSeekMode) : Kernel × Int :=
  let desc := k.fatDescs priv
  let desc_item := k.fatItems desc.item
  if desc_item.type ≠ fatItemTypeFile then (k, -EINVARG)
  else if offset ≥ itemFilesize k.mem desc_item.item then (k, - EIO)
  else
    match seek_mode with
    | .set => ({ k with fatDescs := Function.update k.fatDescs priv { desc with pos := offset } }, 0)
    | .ending => (k, -EUNIMP)
    | .cur => ({ k with fatDescs := Function.update k.fatDescs priv { desc with pos := desc.pos + offset } }, 0)
    | .other => (k, -EINVARG)

def fseek (k : Kernel) (fd : Int) (offset : BitVec 32) (whence : FileSeekMode) : Kernel × Int :=
  let desc := fileGetDescriptor k fd
  if desc = 0 then (k, - EIO) else fat16Seek k (k.fileDescs desc).priv offset whence

def fread (k : Kernel) (ptr : Addr) (size nmemb : BitVec 32) (fd : Int) : Option (Kernel × Int) :=
  if size = 0 ∨ nmemb = 0 ∨ fd < 1 then some (k, -EINVARG)
  else
    let desc := fileGetDescriptor k fd
    if desc = 0 then some (k, -EINVARG)
    else fat16Read k (k.fileDescs desc).priv size nmemb ptr

end MultitaskOs
