import MultitaskOs.Resolve
import MultitaskOs.RootRegion

/-!
# What the driver divides by

`fat16_resolve` does not look at the size of a cluster, and every read divides by
it.
-/

open Lib Lib.Memory MultitaskOs.Files MultitaskOs.FatRead MultitaskOs.Resolve MultitaskOs.Streamer
  MultitaskOs.RootRegion MultitaskOs.Tasks

namespace MultitaskOs.Divisions

/-! ## The calls -/

/-- The functions of the driver that lead to a division, and their loops. -/
inductive Call where
  | read (descriptor : Addr) (size nmemb : BitVec 32) (out_ptr : Addr)
  | readLoop (item : Addr) (size : BitVec 32) (n : Nat) (offset : Int) (out_ptr : Addr)
  | fromStream (n : Nat) (cluster offset total : Int) (out : Addr)
  | clusterForOffset (cluster offset : Int)
  | load (item : Addr)
  | newItem (item : Addr)
  | find (directory : FatDirectory) (name : Addr)
  | findLoop (directory : FatDirectory) (name : Addr) (n i : Nat)
  | entry (n : Nat) (path : Addr)
  | entryLoop (n : Nat) (current_item next_part : Addr)

/-- `fat16_read`, the loading of a directory, and the lookup of a path. -/
inductive Call.Entered : Call → Prop where
  | read (descriptor : Addr) (size nmemb : BitVec 32) (out_ptr : Addr) : Entered (.read descriptor size nmemb out_ptr)
  | load (item : Addr) : Entered (.load item)
  | entry (n : Nat) (path : Addr) : Entered (.entry n path)

/-- The name of item `i` is the one looked for, or it is not. -/
def Compares (k : Kernel) (directory : FatDirectory) (name : Addr) (i : Nat) (r : Int) : Prop :=
  ∃ tmp_filename, fat16GetFullRelativeFilename k.mem (itemAt directory.item i) maxPath = some tmp_filename ∧
    istrncmp tmp_filename (readBytes k.mem name maxPath) maxPath = some r

def afterTurn (k : Kernel) (cluster_to_use offset_from_cluster total_to_read : Int) (out : Addr) : Kernel :=
  let starting_sector := fat16ClusterToSector k.fs_private cluster_to_use
  let starting_pos := toInt32 (starting_sector * k.disk.sector_size + offset_from_cluster)
  let (bytes, pos) := diskstreamerRead k.disk starting_pos total_to_read
  { k with mem := storeBytes k.mem out bytes }.setFs fun fs => { fs with cluster_read_stream := pos }

/-- One call makes another, or goes on in its loop, in the state that it has come to. -/
inductive Makes : Kernel × Call → Kernel × Call → Prop where
  | read {k : Kernel} {descriptor out_ptr : Addr} {size nmemb : BitVec 32} :
    Makes (k, .read descriptor size nmemb out_ptr)
      (k, .readLoop (k.fatItems (k.fatDescs descriptor).item).item size nmemb.toNat (k.fatDescs descriptor).pos.toInt
        out_ptr)
  | readLoop {k : Kernel} {item out_ptr : Addr} {size : BitVec 32} {n : Nat} {offset : Int} :
    Makes (k, .readLoop item size (n + 1) offset out_ptr)
      (k, .fromStream (size.toInt.toNat + 1) (fat16GetFirstCluster k.mem item) offset size.toInt out_ptr)
  | readLoopNext {k k' : Kernel} {item out_ptr : Addr} {size : BitVec 32} {n : Nat} {offset res : Int} :
    fat16ReadInternal k (fat16GetFirstCluster k.mem item) offset size.toInt out_ptr = some (k', res) → ¬ res < 0 →
    Makes (k, .readLoop item size (n + 1) offset out_ptr)
      (k', .readLoop item size n (toInt32 (offset + size.toNat)) (out_ptr + size))
  | fromStream {k : Kernel} {n : Nat} {cluster offset total : Int} {out : Addr} :
    Makes (k, .fromStream (n + 1) cluster offset total out) (k, .clusterForOffset cluster offset)
  | fromStreamNext {k k' : Kernel} {n : Nat} {cluster offset total cluster_to_use : Int} {out : Addr} :
    fat16GetClusterForOffset k cluster offset = some (k', cluster_to_use) → ¬ cluster_to_use < 0 →
    sizeOfClusterBytes k < total →
    Makes (k, .fromStream (n + 1) cluster offset total out)
      (afterTurn k' cluster_to_use (offset.tmod (sizeOfClusterBytes k)) (sizeOfClusterBytes k) out,
        .fromStream n cluster (toInt32 (offset + sizeOfClusterBytes k)) (total - sizeOfClusterBytes k)
          (out + BitVec.ofInt 32 (sizeOfClusterBytes k)))
  | load {k k' : Kernel} {item directory items : Addr} {m m' : Kmem} {total : Int} :
    itemAttribute k.mem item &&& fatFileSubdirectory ≠ 0 →
    kzalloc k.toKmem sizeofFatDirectory = (m, directory) → directory ≠ 0 →
    fat16GetTotalItemsForDirectory { k with toKmem := m }
      (fat16ClusterToSector k.fs_private (fat16GetFirstCluster m.mem item)) = some (k', total) →
    kzalloc k'.toKmem (BitVec.ofInt 32 (toInt32 (total * sizeofFatDirectoryItem))).toNat = (m', items) →
    items ≠ 0 →
    Makes (k, .load item) (withItems k' m' directory items total,
      .fromStream ((toInt32 (total * sizeofFatDirectoryItem)).toNat + 1) (fat16GetFirstCluster m.mem item) 0
        (toInt32 (total * sizeofFatDirectoryItem)) items)
  | newItem {k : Kernel} {item f_item : Addr} {m : Kmem} :
    kzalloc k.toKmem sizeofFatItem = (m, f_item) → f_item ≠ 0 →
    itemAttribute m.mem item &&& fatFileSubdirectory ≠ 0 →
    Makes (k, .newItem item) ({ k with toKmem := m }, .load item)
  | find {k : Kernel} {directory : FatDirectory} {name : Addr} :
    Makes (k, .find directory name) (k, .findLoop directory name directory.total.toNat 0)
  | findLoop {k : Kernel} {directory : FatDirectory} {name : Addr} {n i : Nat} :
    Compares k directory name i 0 →
    Makes (k, .findLoop directory name (n + 1) i) (k, .newItem (itemAt directory.item i))
  | findLoopFound {k k' : Kernel} {directory : FatDirectory} {name f_item : Addr} {n i : Nat} :
    Compares k directory name i 0 →
    fat16NewFatItemForDirectoryItem k (itemAt directory.item i) = some (k', f_item) →
    Makes (k, .findLoop directory name (n + 1) i) (k', .findLoop directory name n (i + 1))
  | findLoopNext {k : Kernel} {directory : FatDirectory} {name : Addr} {n i : Nat} {r : Int} :
    Compares k directory name i r → r ≠ 0 →
    Makes (k, .findLoop directory name (n + 1) i) (k, .findLoop directory name n (i + 1))
  | entry {k : Kernel} {n : Nat} {path : Addr} :
    Makes (k, .entry n path) (k, .find k.fs_private.root_directory (k.pathParts path).part)
  | entryNext {k k' : Kernel} {n : Nat} {path root_item : Addr} :
    fat16FindItemInDirectory k k.fs_private.root_directory (k.pathParts path).part = some (k', root_item) →
    root_item ≠ 0 → Makes (k, .entry n path) (k', .entryLoop n root_item (k'.pathParts path).next)
  | entryLoop {k : Kernel} {n : Nat} {current_item next_part : Addr} :
    next_part ≠ 0 → (k.fatItems current_item).type = fatItemTypeDirectory →
    Makes (k, .entryLoop (n + 1) current_item next_part)
      (k, .find (k.fatDirs (k.fatItems current_item).directory) (k.pathParts next_part).part)
  | entryLoopNext {k k' : Kernel} {n : Nat} {current_item next_part tmp_item : Addr} :
    next_part ≠ 0 → (k.fatItems current_item).type = fatItemTypeDirectory →
    fat16FindItemInDirectory k (k.fatDirs (k.fatItems current_item).directory) (k.pathParts next_part).part =
      some (k', tmp_item) →
    Makes (k, .entryLoop (n + 1) current_item next_part)
      (fat16FatItemFree k' current_item, .entryLoop n tmp_item (k.pathParts next_part).next)

/-- The two functions that divide, and by what. -/
inductive Divides : Kernel × Call → Int → Prop where
  | quotient {k : Kernel} {cluster offset : Int} : Divides (k, .clusterForOffset cluster offset) (sizeOfClusterBytes k)
  | remainder {k : Kernel} {n : Nat} {cluster offset total : Int} {out : Addr} :
    Divides (k, .fromStream (n + 1) cluster offset total out) (sizeOfClusterBytes k)

/-- What comes behind `k`: calls of the driver that return, and whatever else leaves the disk and its
volume alone. -/
inductive Later (k : Kernel) : Kernel → Prop where
  | refl : Later k k
  | other {k1 k2 : Kernel} : Later k k1 → SameDisk k1 k2 → Later k k2
  | read {k1 k2 : Kernel} {descriptor out_ptr : Addr} {size nmemb : BitVec 32} {res : Int} : Later k k1 →
    fat16Read k1 descriptor size nmemb out_ptr = some (k2, res) → Later k k2
  | load {k1 k2 : Kernel} {item directory : Addr} : Later k k1 →
    fat16LoadFatDirectory k1 item = some (k2, directory) → Later k k2
  | entry {k1 k2 : Kernel} {n : Nat} {path item : Addr} : Later k k1 →
    fat16GetDirectoryEntry n k1 path = some (k2, item) → Later k k2

/-- No call of the driver, however late, comes to a division by 0. -/
def NeverByZero (k : Kernel) : Prop :=
  ∀ k1 call, Later k k1 → call.Entered → ∀ place divisor,
    Relation.ReflTransGen Makes (k1, call) place → Divides place divisor → divisor ≠ 0

/-! ## The divisor stays -/

variable {k k' : Kernel} {d d' : DiskKernel}

theorem sameDisk_of_fat (h : OnlyFat k k') : SameDisk k k' := by
  obtain ⟨_, _, _, _, _, rfl, hv⟩ := h
  exact ⟨rfl, hv⟩

theorem sameDisk_fatItemFree (k : Kernel) (item : Addr) : SameDisk k (fat16FatItemFree k item) := by
  unfold fat16FatItemFree fat16FreeDirectory
  dsimp only
  split_ifs <;> exact ⟨rfl, rfl, rfl⟩

theorem makes_sameDisk {p q : Kernel × Call} (h : Makes p q) : SameDisk p.1 q.1 := by
  cases h with
  | read | readLoop | fromStream | find | findLoop | findLoopNext | entry | entryLoop | newItem =>
    exact ⟨rfl, rfl, rfl⟩
  | @readLoopNext _ _ _ _ size _ _ _ hread =>
    have hlt := BitVec.toInt_lt (x := size)
    exact sameDisk_of_buffer (readInternalFromStream_only (by omega) hread)
  | fromStreamNext hcluster =>
    obtain ⟨s, rfl⟩ := clusterForOffset_only hcluster
    exact ⟨rfl, rfl, rfl⟩
  | load _ _ _ hscan =>
    obtain ⟨s, rfl⟩ := fat16GetTotalItems_only hscan
    exact ⟨rfl, rfl, rfl⟩
  | findLoopFound _ hnew => exact sameDisk_of_fat (fat16NewFatItem_keeps hnew).1.only
  | entryNext hfind => exact sameDisk_of_fat (fat16FindItem_keeps hfind).1.only
  | entryLoopNext _ _ hfind =>
    exact (sameDisk_of_fat (fat16FindItem_keeps hfind).1.only).trans (sameDisk_fatItemFree _ _)

theorem calls_sameDisk {p q : Kernel × Call} (h : Relation.ReflTransGen Makes p q) : SameDisk p.1 q.1 := by
  induction h with
  | refl => exact ⟨rfl, rfl, rfl⟩
  | tail _ hlast ih => exact ih.trans (makes_sameDisk hlast)

theorem readLoop_sameDisk {item out_ptr : Addr} {size : BitVec 32} {n : Nat} {offset res : Int}
    (h : fat16ReadLoop item size n k offset out_ptr = some (k', res)) : SameDisk k k' := by
  induction n generalizing k offset out_ptr with
  | zero =>
    cases h
    exact ⟨rfl, rfl, rfl⟩
  | succ n ih =>
    unfold fat16ReadLoop at h
    obtain ⟨⟨k1, res1⟩, hread, h⟩ := Option.bind_eq_some_iff.mp h
    have hlt := BitVec.toInt_lt (x := size)
    have hfirst := sameDisk_of_buffer (readInternalFromStream_only (by omega) hread)
    dsimp only at h
    split at h
    · cases h
      exact hfirst
    · exact hfirst.trans (ih h)

theorem fat16Read_sameDisk {descriptor out_ptr : Addr} {size nmemb : BitVec 32} {res : Int}
    (h : fat16Read k descriptor size nmemb out_ptr = some (k', res)) : SameDisk k k' := by
  unfold fat16Read at h
  obtain ⟨⟨k1, res1⟩, hloop, h⟩ := Option.bind_eq_some_iff.mp h
  dsimp only at h
  split at h
  all_goals
    cases h
    exact readLoop_sameDisk hloop

theorem later_sameDisk (h : Later k k') : SameDisk k k' := by
  induction h with
  | refl => exact ⟨rfl, rfl, rfl⟩
  | other _ hsame ih => exact ih.trans hsame
  | read _ hread ih => exact ih.trans (fat16Read_sameDisk hread)
  | load _ hload ih => exact ih.trans (sameDisk_of_fat (fat16LoadFatDirectory_keeps hload).only)
  | entry _ hentry ih => exact ih.trans (sameDisk_of_fat (fat16GetDirectoryEntry_keeps hentry).1.only)

theorem sizeOfClusterBytes_congr (h : SameDisk k k') : sizeOfClusterBytes k' = sizeOfClusterBytes k := by
  unfold sizeOfClusterBytes
  rw [h.1, h.2.1]

theorem divides_eq {p : Kernel × Call} {divisor : Int} (h : Divides p divisor) : divisor = sizeOfClusterBytes p.1 := by
  cases h <;> rfl

theorem neverByZero_iff : NeverByZero k ↔ sizeOfClusterBytes k ≠ 0 := by
  constructor
  · intro h
    -- a read of one item divides at once
    have hread : Relation.ReflTransGen Makes (k, .read 0 1 1 0) (k, .fromStream 2
        (fat16GetFirstCluster k.mem (k.fatItems (k.fatDescs 0).item).item) (k.fatDescs 0).pos.toInt 1 0) :=
      .tail (.single .read) .readLoop
    exact h k _ .refl (.read 0 1 1 0) _ _ hread .remainder
  · rintro h k1 call hlater - place divisor hcalls hdivides
    rw [divides_eq hdivides, sizeOfClusterBytes_congr (calls_sameDisk hcalls),
      sizeOfClusterBytes_congr (later_sameDisk hlater)]
    exact h

/-! ## What the image says -/

theorem headerBytes_getD (d : DiskKernel) (m : Kmem) {x : Nat} (hx : x < sizeofFatH) :
    (headerBytes d m).getD x 0 = imageByte d.disk x := by
  have hs : sizeofFatH = 62 := rfl
  have hread := @read_image (opened d m).disk 0 sizeofFatH (by omega)
  rw [Nat.cast_zero] at hread
  unfold headerBytes
  rw [hread, List.getD_eq_getElem _ _ (by simpa using hx)]
  simp only [List.getElem_map, List.getElem_range, Nat.zero_add]
  rfl

theorem resolveOut_status {fat_private stream : Addr} {r : Int}
    (h : resolveOut ⟨k, fat_private, d.address⟩ fat_private stream r = (d', 0)) : ¬ r < 0 := by
  intro hneg
  have hres := (resolveOut_fails ⟨k, fat_private, d.address⟩ fat_private stream hneg).1
  rw [h] at hres
  dsimp only at hres
  omega

theorem fat16Resolve_accepts (h : fat16Resolve d = some (d', 0)) :
    d'.fs_private.header.sectors_per_cluster = (imageByte d.disk 13).toNat ∧
      d'.disk.sector_size = d.disk.sector_size := by
  obtain ⟨⟨m, stream⟩, hm⟩ : ∃ r, streamAnswer d = r := ⟨_, rfl⟩
  obtain ⟨fat_private, hp⟩ : ∃ a, (kzalloc d.toKmem sizeofFatPrivate).2 = a := ⟨_, rfl⟩
  rw [fat16Resolve_eq hp hm] at h
  split at h
  · rw [Option.some.injEq] at h
    exact absurd (show -ENOMEM < 0 by decide) (resolveOut_status h)
  split at h
  · rw [Option.some.injEq] at h
    exact absurd (show -EFSNOTUS < 0 by decide) (resolveOut_status h)
  obtain ⟨⟨k1, r⟩, hroot, h⟩ := Option.map_eq_some_iff.mp h
  dsimp only at h
  obtain rfl : r = 0 := by
    by_contra hr
    rw [if_pos hr] at h
    exact absurd (show - EIO < 0 by decide) (resolveOut_status h)
  have hread : RootRead (withHeader d m) k1 := by
    split at hroot
    · exact rootDirectory_spec hroot
    · obtain ⟨k2, hunread, -⟩ := rootUnread_eq (k := withHeader d m) rfl
      rw [hunread, Option.some.injEq, Prod.mk.injEq] at hroot
      exact absurd hroot.2 (by split_ifs <;> decide)
  have hd : d'.toKernel.fs_private = k1.fs_private ∧ d'.toKernel.disk = k1.disk := by
    unfold resolveOut at h
    rw [if_neg (not_not.mpr rfl), if_neg (lt_irrefl _), Prod.mk.injEq] at h
    rw [← h.1]
    split <;> exact ⟨rfl, rfl⟩
  rw [hd.1, hd.2, hread.header, hread.disk]
  refine ⟨?_, rfl⟩
  rw [← headerBytes_getD d m (by decide)]
  rfl

/-- For every image that is accepted: no later call divides by 0 exactly when the image has clusters
of at least a sector. -/
theorem fat16Resolve_neverByZero_iff (hsec : d.disk.sector_size = 512) (h : fat16Resolve d = some (d', 0)) :
    NeverByZero d'.toKernel ↔ imageByte d.disk 13 ≠ 0 := by
  obtain ⟨hheader, hsize⟩ := fat16Resolve_accepts h
  rw [neverByZero_iff]
  unfold sizeOfClusterBytes
  rw [hheader, hsize, hsec]
  constructor
  · intro hne h0
    rw [h0] at hne
    exact hne (by decide)
  · intro hne h0
    exact hne (BitVec.eq_of_toNat_eq (by simpa using h0))

/-- All bytes of the image are 0, but for the signature and the size of the clusters. -/
def signedDisk (sectors_per_cluster : Byte) : DiskKernel where
  toKernel := { emptyKernel with
    disk := { emptyKernel.disk with
      sector := fun _ lba i =>
        if lba = 0 ∧ i = 38 then fat16Signature else if lba = 0 ∧ i = 13 then sectors_per_cluster else 0 } }
  fs_private_ptr := 0
  address := 0x10b000

theorem accepted_of_status (h : (fat16Resolve d).map Prod.snd = some 0) : ∃ d', fat16Resolve d = some (d', 0) := by
  obtain ⟨⟨d', res⟩, h, rfl⟩ := Option.map_eq_some_iff.mp h
  exact ⟨d', h⟩

theorem fat16Resolve_neverByZero_signedDisk : ∃ d', fat16Resolve (signedDisk 1) = some (d', 0) ∧
    (NeverByZero d'.toKernel ↔ imageByte (signedDisk 1).disk 13 ≠ 0) := by
  obtain ⟨d', h⟩ := accepted_of_status (d := signedDisk 1) (by decide +kernel)
  exact ⟨d', h, fat16Resolve_neverByZero_iff rfl h⟩

/-- A volume without clusters is accepted. -/
theorem accepted_divides_by_zero :
    ∃ d', fat16Resolve (signedDisk 0) = some (d', 0) ∧ ¬ NeverByZero d'.toKernel := by
  obtain ⟨d', h⟩ := accepted_of_status (d := signedDisk 0) (by decide +kernel)
  refine ⟨d', h, fun hnever => neverByZero_iff.mp hnever ?_⟩
  obtain ⟨hheader, -⟩ := fat16Resolve_accepts h
  have h0 : imageByte (signedDisk 0).disk 13 = 0 := by decide
  unfold sizeOfClusterBytes
  rw [hheader, h0]
  simp

end MultitaskOs.Divisions
