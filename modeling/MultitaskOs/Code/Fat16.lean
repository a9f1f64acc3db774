import MultitaskOs.Code.Disk
import MultitaskOs.Code.String

/-!
# `fs/fat/fat16.c`

Directory items are bytes in memory, named by their address. `none` is a call
that does not return, or a write past the end of an array.
-/

open Lib Lib.Memory

namespace MultitaskOs

def sizeofFatDirectoryItem : Nat := 32
def sizeofFatDirectory : Nat := 16
def sizeofFatItem : Nat := 8
def sizeofFatFileDescriptor : Nat := 8

def fatFileReadOnly : Byte := 0x01
def fatFileSubdirectory : Byte := 0x10

def fat16BadSector : Int := 0xFF7

inductive FileMode where
  | read
  | write
  | append
  | invalid
deriving DecidableEq

def itemExt (item : Addr) : Addr := item + 8

def itemAttribute (m : Mem) (item : Addr) : Byte := m (item + 11)

def itemHighFirstCluster (m : Mem) (item : Addr) : BitVec 16 := load16 m (item + 20)

def itemLowFirstCluster (m : Mem) (item : Addr) : BitVec 16 := load16 m (item + 26)

def itemFilesize (m : Mem) (item : Addr) : BitVec 32 := load32 m (item + 28)

/-- `&items[i]` -/
def itemAt (items : Addr) (i : Nat) : Addr := items + BitVec.ofNat 32 (sizeofFatDirectoryItem * i)

def Kernel.setFs (k : Kernel) (f : FatPrivate → FatPrivate) : Kernel := { k with fs_private := f k.fs_private }

def Kernel.setDir (k : Kernel) (directory : Addr) (f : FatDirectory → FatDirectory) : Kernel :=
  { k with fatDirs := Function.update k.fatDirs directory (f (k.fatDirs directory)) }

def Kernel.setItem (k : Kernel) (item : Addr) (f : FatItem → FatItem) : Kernel :=
  { k with fatItems := Function.update k.fatItems item (f (k.fatItems item)) }

/-! ## Clusters -/

def fat16GetFirstCluster (m : Mem) (item : Addr) : Int :=
  (itemHighFirstCluster m item ||| itemLowFirstCluster m item).toNat

def fat16ClusterToSector (fs : FatPrivate) (cluster : Int) : Int :=
  toInt32 (fs.root_directory.ending_sector_pos + (cluster - 2) * fs.header.sectors_per_cluster)

def sizeOfClusterBytes (k : Kernel) : Int := k.fs_private.header.sectors_per_cluster * k.disk.sector_size

/-- Both products are taken modulo 2^32. -/
def fat16GetFatEntry (k : Kernel) (cluster : Int) : Kernel × Int :=
  let fat_table_position := k.fs_private.header.reserved_sectors * k.disk.sector_size
  let pos := toInt32 (fat_table_position * (cluster * 2))
  let (result, pos) := diskstreamerRead k.disk pos 2
  (k.setFs fun fs => { fs with fat_read_stream := pos }, (result.getD 1 0 ++ result.getD 0 0).toNat)

/-- The loop over the clusters ahead. -/
def clusterLoop : Nat → Kernel → Int → Kernel × Int
  | 0, k, cluster_to_use => (k, cluster_to_use)
  | n + 1, k, cluster_to_use =>
    let (k, entry) := fat16GetFatEntry k cluster_to_use
    if entry = 0xFF8 ∨ entry = 0xFFF then (k, - EIO)
    else if entry = fat16BadSector then (k, - EIO)
    else if entry = 0xFF0 ∨ entry = 0xFF6 then (k, - EIO)
    else if entry = 0 then (k, - EIO)
    else clusterLoop n k entry

/-- A volume with clusters of no bytes stops the processor at the division. -/
def fat16GetClusterForOffset (k : Kernel) (starting_cluster offset : Int) : Option (Kernel × Int) :=
  let size_of_cluster_bytes := sizeOfClusterBytes k
  if size_of_cluster_bytes = 0 then none
  else
    let clusters_ahead := offset.tdiv size_of_cluster_bytes
    some (clusterLoop clusters_ahead.toNat k starting_cluster)

/-- At most `n` calls deep. -/
def fat16ReadInternalFromStream : Nat → Kernel → Int → Int → Int → Addr → Option (Kernel × Int)
  | 0, _, _, _, _, _ => none
  | n + 1, k, cluster, offset, total, out => do
    let size_of_cluster_bytes := sizeOfClusterBytes k
    let (k, cluster_to_use) ← fat16GetClusterForOffset k cluster offset
    if cluster_to_use < 0 then return (k, cluster_to_use)
    let offset_from_cluster := offset.tmod size_of_cluster_bytes
    let starting_sector := fat16ClusterToSector k.fs_private cluster_to_use
    let starting_pos := toInt32 (starting_sector * k.disk.sector_size + offset_from_cluster)
    let total_to_read := if total > size_of_cluster_bytes then size_of_cluster_bytes else total
    let (bytes, pos) := diskstreamerRead k.disk starting_pos total_to_read
    let k := { k with mem := storeBytes k.mem out bytes }
    let k := k.setFs fun fs => { fs with cluster_read_stream := pos }
    let total := total - total_to_read
    if total > 0 then
      fat16ReadInternalFromStream n k cluster (toInt32 (offset + total_to_read)) total
        (out + BitVec.ofInt 32 total_to_read)
    else return (k, 0)

/-- Every call but the last reads a cluster, so `total` bounds the depth. -/
def fat16ReadInternal (k : Kernel) (starting_cluster offset total : Int) (out : Addr) : Option (Kernel × Int) :=
  fat16ReadInternalFromStream (total.toNat + 1) k starting_cluster offset total out

/-! ## Directories -/

/-- Items start 32 bytes apart, so this many are all that an `int` can address. -/
def itemPositions : Nat := 2 ^ 27

def totalItemsLoop (disk : Disk) : Nat → Int → Int → Option (Int × Int)
  | 0, _, _ => none
  | n + 1, pos, i =>
    let (item, pos) := diskstreamerRead disk pos sizeofFatDirectoryItem
    if item.getD 0 0 = 0 then some (i, pos)
    else if item.getD 0 0 = 0xE5 then totalItemsLoop disk n pos i
    else totalItemsLoop disk n pos (i + 1)

def fat16GetTotalItemsForDirectory (k : Kernel) (directory_start_sector : Int) : Option (Kernel × Int) := do
  let directory_start_pos := toInt32 (directory_start_sector * k.disk.sector_size)
  let (i, pos) ← totalItemsLoop k.disk itemPositions directory_start_pos 0
  return (k.setFs fun fs => { fs with directory_stream := pos }, i)

def fat16SectorToAbsolute (k : Kernel) (sector : Int) : Int := toInt32 (sector * k.disk.sector_size)

/-- The directory is `private->root_directory`. Nothing reads `total_sectors`. -/
def fat16GetRootDirectory (k : Kernel) : Option (Kernel × Int) := do
  let primary_header := k.fs_private.header
  let root_dir_sector_pos : Int :=
    primary_header.fat_copies * primary_header.sectors_per_fat + primary_header.reserved_sectors
  let root_dir_size := primary_header.root_dir_entries * sizeofFatDirectoryItem
  let (k, total_items) ← fat16GetTotalItemsForDirectory k root_dir_sector_pos
  let (k, dir) := k.onKmem (kzalloc · root_dir_size)
  if dir = 0 then return (k, -ENOMEM)
  let (bytes, pos) := diskstreamerRead k.disk (fat16SectorToAbsolute k root_dir_sector_pos) root_dir_size
  let k := { k with mem := storeBytes k.mem dir bytes }
  let ending_sector_pos := root_dir_sector_pos + root_dir_size / k.disk.sector_size
  return (k.setFs fun fs => { fs with
    directory_stream := pos
    root_directory := ⟨dir, total_items, root_dir_sector_pos, ending_sector_pos⟩ }, 0)

/-- `**out` has `room` bytes left. The bytes past the string are 0 already. -/
def fat16ToProperString (m : Mem) : Nat → Addr → Option (List Byte)
  | 0, inp => if m inp = 0 then some [] else none
  | room + 1, inp =>
    if m inp ≠ 0 ∧ m inp ≠ 0x20 then (fat16ToProperString m room (inp + 1)).map (m inp :: ·)
    else some []

def fat16GetFullRelativeFilename (m : Mem) (item : Addr) (max_len : Nat) : Option CharPtr := do
  let name ← fat16ToProperString m max_len item
  let out ←
    if m (itemExt item) ≠ 0 ∧ m (itemExt item) ≠ 0x20 then do
      if name.length = max_len then none
      let ext ← fat16ToProperString m (max_len - name.length - 1) (itemExt item)
      pure (name ++ 0x2e :: ext)
    else pure name
  return out ++ List.replicate (max_len - out.length) 0

def fat16CloneDirectoryItem (k : Kernel) (item : Addr) (size : Nat) : Kernel × Addr :=
  if size < sizeofFatDirectoryItem then (k, 0)
  else
    let (k, item_copy) := k.onKmem (kzalloc · size)
    if item_copy = 0 then (k, 0)
    else ({ k with mem := storeBytes k.mem item_copy (readBytes k.mem item size) }, item_copy)

def fat16FreeDirectory (k : Kernel) (directory : Addr) : Kernel :=
  if directory = 0 then k
  else
    let k :=
      if (k.fatDirs directory).item ≠ 0 then (k.onKmem fun m => (kfree m (k.fatDirs directory).item, ())).1 else k
    (k.onKmem fun m => (kfree m directory, ())).1

def fat16FatItemFree (k : Kernel) (item : Addr) : Kernel :=
  let k :=
    if (k.fatItems item).type = fatItemTypeDirectory then fat16FreeDirectory k (k.fatItems item).directory
    else if (k.fatItems item).type = fatItemTypeFile then
      (k.onKmem fun m => (kfree m (k.fatItems item).item, ())).1
    else k
  (k.onKmem fun m => (kfree m item, ())).1

/-- After a failure it frees the directory, and returns it all the same. -/
def fat16LoadFatDirectory (k : Kernel) (item : Addr) : Option (Kernel × Addr) := do
  if itemAttribute k.mem item &&& fatFileSubdirectory = 0 then return (k, 0)
  let (k, directory) := k.onKmem (kzalloc · sizeofFatDirectory)
  if directory = 0 then return (k, 0)
  let cluster := fat16GetFirstCluster k.mem item
  let cluster_sector := fat16ClusterToSector k.fs_private cluster
  let (k, total_items) ← fat16GetTotalItemsForDirectory k cluster_sector
  let directory_size := toInt32 (total_items * sizeofFatDirectoryItem)
  let (k, items) := k.onKmem (kzalloc · (BitVec.ofInt 32 directory_size).toNat)
  let k := k.setDir directory fun _ => ⟨items, total_items, 0, 0⟩
  if items = 0 then return (fat16FreeDirectory k directory, directory)
  let (k, res) ← fat16ReadInternal k cluster 0 directory_size items
  if res ≠ 0 then return (fat16FreeDirectory k directory, directory)
  return (k, directory)

def fat16NewFatItemForDirectoryItem (k : Kernel) (item : Addr) : Option (Kernel × Addr) := do
  let (k, f_item) := k.onKmem (kzalloc · sizeofFatItem)
  if f_item = 0 then return (k, 0)
  let k ←
    if itemAttribute k.mem item &&& fatFileSubdirectory ≠ 0 then do
      let (k, directory) ← fat16LoadFatDirectory k item
      pure (k.setItem f_item fun _ => ⟨directory, fatItemTypeDirectory⟩)
    else pure k
  let k := k.setItem f_item fun f => { f with type := fatItemTypeFile }
  let (k, copy) := fat16CloneDirectoryItem k item sizeofFatDirectoryItem
  return (k.setItem f_item fun f => { f with item := copy }, f_item)

/-- The loop over the items from the `i`-th on, with `n` of them left. A later match replaces an
earlier one. -/
def findItemLoop (directory : FatDirectory) (name : Addr) : Nat → Nat → Kernel → Addr → Option (Kernel × Addr)
  | 0, _, k, f_item => some (k, f_item)
  | n + 1, i, k, f_item => do
    let item := itemAt directory.item i
    let tmp_filename ← fat16GetFullRelativeFilename k.mem item maxPath
    if (← istrncmp tmp_filename (readBytes k.mem name maxPath) maxPath) = 0 then do
      let (k, f_item) ← fat16NewFatItemForDirectoryItem k item
      findItemLoop directory name n (i + 1) k f_item
    else findItemLoop directory name n (i + 1) k f_item

def fat16FindItemInDirectory (k : Kernel) (directory : FatDirectory) (name : Addr) : Option (Kernel × Addr) :=
  findItemLoop directory name directory.total.toNat 0 k 0

/-- `while(next_part != 0)`, for at most `n` turns. -/
def directoryEntryLoop : Nat → Kernel → Addr → Addr → Option (Kernel × Addr)
  | 0, _, _, _ => none
  | n + 1, k, current_item, next_part =>
    if next_part = 0 then some (k, current_item)
    else if (k.fatItems current_item).type ≠ fatItemTypeDirectory then some (k, 0)
    else do
      let part := k.pathParts next_part
      let (k, tmp_item) ← fat16FindItemInDirectory k (k.fatDirs (k.fatItems current_item).directory) part.part
      directoryEntryLoop n (fat16FatItemFree k current_item) tmp_item part.next

/-- For a path of at most `n` parts. -/
def fat16GetDirectoryEntry (n : Nat) (k : Kernel) (path : Addr) : Option (Kernel × Addr) := do
  let (k, root_item) ← fat16FindItemInDirectory k k.fs_private.root_directory (k.pathParts path).part
  if root_item = 0 then return (k, 0)
  directoryEntryLoop n k root_item (k.pathParts path).next

/-! ## The operations of the filesystem -/

/-- A path of `MAX_PATH` bytes has fewer parts. -/
def fat16Open (k : Kernel) (path : Addr) (mode : FileMode) : Option (Kernel × Addr) := do
  if mode ≠ .read then return (k, ERROR (-ERDONLY))
  let (k, descriptor) := k.onKmem (kzalloc · sizeofFatFileDescriptor)
  if descriptor = 0 then return (k, ERROR (-ENOMEM))
  let (k, item) ← fat16GetDirectoryEntry maxPath k path
  let k := { k with fatDescs := Function.update k.fatDescs descriptor ⟨item, 0⟩ }
  if item = 0 then return (k, ERROR (- EIO))
  return (k, descriptor)

def fat16FreeFileDescriptor (k : Kernel) (desc : Addr) : Kernel :=
  let k := fat16FatItemFree k (k.fatDescs desc).item
  (k.onKmem fun m => (kfree m desc, ())).1

def fat16Close (k : Kernel) (priv : Addr) : Kernel × Int := (fat16FreeFileDescriptor k priv, 0)

structure FileStat where
  flags : BitVec 32
  filesize : BitVec 32

def fileStatReadOnly : BitVec 32 := 1

/-- The status, and what `stat` is given if that is 0. -/
def fat16Stat (k : Kernel) (priv : Addr) : Int × FileStat :=
  let desc_item := k.fatItems (k.fatDescs priv).item
  if desc_item.type ≠ fatItemTypeFile then (-EINVARG, ⟨0, 0⟩)
  else
    let flags := if itemAttribute k.mem desc_item.item &&& fatFileReadOnly ≠ 0 then fileStatReadOnly else 0
    (0, ⟨flags, itemFilesize k.mem desc_item.item⟩)

/-- The loop over `nmemb`, with `n` left. -/
def fat16ReadLoop (item : Addr) (size : BitVec 32) : Nat → Kernel → Int → Addr → Option (Kernel × Int)
  | 0, k, _, _ => some (k, 0)
  | n + 1, k, offset, out_ptr => do
    let (k, res) ← fat16ReadInternal k (fat16GetFirstCluster k.mem item) offset size.toInt out_ptr
    if res < 0 then return (k, res)
    fat16ReadLoop item size n k (toInt32 (offset + size.toNat)) (out_ptr + size)

def fat16Read (k : Kernel) (descriptor : Addr) (size nmemb : BitVec 32) (out_ptr : Addr) : Option (Kernel × Int) := do
  let fat_desc := k.fatDescs descriptor
  let item := (k.fatItems fat_desc.item).item
  let (k, res) ← fat16ReadLoop item size nmemb.toNat k fat_desc.pos.toInt out_ptr
  if res < 0 then return (k, res)
  return (k, nmemb.toInt)

end MultitaskOs
