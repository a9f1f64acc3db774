import MultitaskOs.Code.Fat16

/-!
# `fat16_resolve` in `fs/fat/fat16.c`, with the streams of `disk/streamer.c`

What `kzalloc` answers for the volume and for its three streams is not looked
at. One that was refused lies at 0, and is used there. If the volume and a stream
were refused, the header is read over the stream, whose `disk` is the word at 4.
-/

open Lib Lib.Memory

namespace MultitaskOs

def sizeofFatH : Nat := 62
def sizeofFatPrivate : Nat := 92
def sizeofDiskStream : Nat := 8

def fat16Signature : Byte := 0x29

/-- `fs_private_ptr` is `disk.fs_private`, and `fs_private` is the record that it leads to. `address` is
`&disk`. -/
structure DiskKernel extends Kernel where
  fs_private_ptr : Addr
  address : Addr

/-- What is read of `struct fat_h`, from its bytes. -/
def fatHeader (bytes : List Byte) : FatHeader where
  sectors_per_cluster := (bytes.getD 13 0).toNat
  reserved_sectors := (bytes.getD 15 0 ++ bytes.getD 14 0).toNat
  fat_copies := (bytes.getD 16 0).toNat
  root_dir_entries := (bytes.getD 18 0 ++ bytes.getD 17 0).toNat
  sectors_per_fat := (bytes.getD 23 0 ++ bytes.getD 22 0).toNat

def extendedSignature (bytes : List Byte) : Byte := bytes.getD 38 0

/-- The disk is the one with index 0. The position starts at 0. -/
def diskstreamerNew (k : Kernel) : Kernel × Addr := k.onKmem (kzalloc · sizeofDiskStream)

def diskstreamerClose (k : Kernel) (stream : Addr) : Kernel := (k.onKmem fun m => (kfree m stream, ())).1

/-- With `private->directory_stream`. -/
def fat16InitPrivate (k : Kernel) : Kernel × Addr :=
  let k := k.setFs fun _ => ⟨⟨0, 0, 0, 0, 0⟩, zeroFatDirectory, 0, 0, 0⟩
  let (k, _cluster_read_stream) := diskstreamerNew k
  let (k, _fat_read_stream) := diskstreamerNew k
  diskstreamerNew k

/-- `directory_stream->disk`, once the header is read. -/
def directoryStreamDisk (address fat_private directory_stream : Addr) (header : List Byte) : Addr :=
  if fat_private = 0 ∧ directory_stream = 0 then
    header.getD 7 0 ++ header.getD 6 0 ++ header.getD 5 0 ++ header.getD 4 0
  else address

/-- `fat16_get_root_directory` with a stream whose disk `disk_read_block` does not take. -/
def fat16GetRootDirectoryUnread (k : Kernel) : Kernel × Int :=
  let primary_header := k.fs_private.header
  let root_dir_sector_pos : Int :=
    primary_header.fat_copies * primary_header.sectors_per_fat + primary_header.reserved_sectors
  let k := k.setFs fun fs => { fs with directory_stream := fat16SectorToAbsolute k root_dir_sector_pos }
  let (k, dir) := k.onKmem (kzalloc · (primary_header.root_dir_entries * sizeofFatDirectoryItem))
  (k, if dir = 0 then -ENOMEM else - EIO)

/-- The label `out`. It leaves `disk->filesystem` and the streams of the volume as they are. -/
def resolveOut (d : DiskKernel) (fat_private stream : Addr) (res : Int) : DiskKernel × Int :=
  let d := if stream ≠ 0 then { d with toKernel := diskstreamerClose d.toKernel stream } else d
  if res < 0 then
    ({ d with toKernel := (d.toKernel.onKmem fun m => (kfree m fat_private, ())).1, fs_private_ptr := 0 }, res)
  else (d, res)

def fat16Resolve (d : DiskKernel) : Option (DiskKernel × Int) := do
  let (k, fat_private) := d.toKernel.onKmem (kzalloc · sizeofFatPrivate)
  let (k, directory_stream) := fat16InitPrivate k
  let k := { k with disk := { k.disk with filesystem := true } }
  let (k, stream) := diskstreamerNew k
  if stream = 0 then return resolveOut ⟨k, fat_private, d.address⟩ fat_private stream (-ENOMEM)
  let (header, _) := diskstreamerRead k.disk 0 sizeofFatH
  let k := k.setFs fun fs => { fs with header := fatHeader header }
  if extendedSignature header ≠ fat16Signature then
    return resolveOut ⟨k, fat_private, d.address⟩ fat_private stream (-EFSNOTUS)
  let (k, res) ← if directoryStreamDisk d.address fat_private directory_stream header = d.address then
      fat16GetRootDirectory k
    else some (fat16GetRootDirectoryUnread k)
  return resolveOut ⟨k, fat_private, d.address⟩ fat_private stream (if res ≠ 0 then - EIO else 0)

end MultitaskOs
