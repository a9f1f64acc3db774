import MultitaskOs.Directory

/-!
# The root directory

`fat16_get_root_directory` makes room for the entries that the header has, and
counts up to an entry that starts with 0, wherever that is.
-/

open Lib Lib.Memory Lib.Arena MultitaskOs.Files MultitaskOs.PathParser MultitaskOs.Descriptors MultitaskOs.FatLookup
  MultitaskOs.Streamer MultitaskOs.Filename MultitaskOs.Directory MultitaskOs.Tasks

namespace MultitaskOs.RootRegion

/-! ## What is read of it -/

def rootPos (k : Kernel) : Nat :=
  (k.fs_private.header.fat_copies * k.fs_private.header.sectors_per_fat + k.fs_private.header.reserved_sectors) *
    k.disk.sector_size

theorem rootPos_cast (k : Kernel) : (k.fs_private.header.fat_copies * k.fs_private.header.sectors_per_fat +
    k.fs_private.header.reserved_sectors : Int) * k.disk.sector_size = rootPos k := by
  unfold rootPos
  push_cast
  rfl

def rootEntries (k : Kernel) : Nat := k.fs_private.header.root_dir_entries

def rootBytes (k : Kernel) : List Byte :=
  (diskstreamerRead k.disk (toInt32 (rootPos k)) (32 * rootEntries k : Nat)).1

/-- How `fat16_get_root_directory` ends, by what it counts and what the heap gives it. -/
inductive RootOutcome (k : Kernel) (m : Kmem) (dir : Addr) (total pos : Int) : Kernel → Int → Prop
  | refused : dir = 0 →
    RootOutcome k m dir total pos { k.setFs (fun fs => { fs with directory_stream := pos }) with toKmem := m } (-ENOMEM)
  | read (pos' : Int) : dir ≠ 0 → RootOutcome k m dir total pos
    ({ k with toKmem := { m with mem := storeBytes m.mem dir (rootBytes k) } }.setFs fun fs => { fs with
      directory_stream := pos'
      root_directory := ⟨dir, total, fs.header.fat_copies * fs.header.sectors_per_fat + fs.header.reserved_sectors,
        (fs.header.fat_copies * fs.header.sectors_per_fat + fs.header.reserved_sectors : Int) +
          (32 * rootEntries k : Nat) / k.disk.sector_size⟩ }) 0

variable {k k1 : Kernel} {n total : Nat}

theorem rootDirectory_cases {res : Int} (h : fat16GetRootDirectory k = some (k1, res)) :
    ∃ total pos, totalItemsLoop k.disk itemPositions (toInt32 (rootPos k)) 0 = some (total, pos) ∧
      ∃ m dir, kzalloc k.toKmem (32 * rootEntries k) = (m, dir) ∧ RootOutcome k m dir total pos k1 res := by
  have hs : sizeofFatDirectoryItem = 32 := rfl
  unfold fat16GetRootDirectory at h
  dsimp only at h
  obtain ⟨⟨k2, total⟩, hitems, h⟩ := Option.bind_eq_some_iff.mp h
  unfold fat16GetTotalItemsForDirectory at hitems
  obtain ⟨⟨i, pos⟩, hscan, hitems⟩ := Option.bind_eq_some_iff.mp hitems
  rw [rootPos_cast] at hscan
  cases hitems
  rw [hs, Nat.mul_comm] at h
  obtain ⟨⟨m, dir⟩, hm⟩ : ∃ r, kzalloc k.toKmem (32 * k.fs_private.header.root_dir_entries) = r := ⟨_, rfl⟩
  dsimp only at h
  rw [Kernel.onKmem_eq (k := k.setFs _) hm] at h
  dsimp only [fat16SectorToAbsolute, Kernel.setFs] at h
  rw [rootPos_cast] at h
  refine ⟨total, pos, hscan, m, dir, hm, ?_⟩
  split at h
  · rename_i h0
    cases h
    exact .refused h0
  · rename_i h0
    cases h
    exact .read _ h0

/-- What `fat16_get_root_directory` has done when it succeeds. -/
structure RootRead (k k1 : Kernel) : Prop where
  counted : ∃ pos,
    totalItemsLoop k.disk itemPositions (toInt32 (rootPos k)) 0 = some (k1.fs_private.root_directory.total, pos)
  block : (⟨k1.fs_private.root_directory.item, 32 * rootEntries k⟩ : Block) ∈ k1.heap.live
  bytes : ∀ x < 32 * rootEntries k,
    k1.mem (k1.fs_private.root_directory.item + BitVec.ofNat 32 x) = (rootBytes k).getD x 0
  header : k1.fs_private.header = k.fs_private.header
  disk : k1.disk = k.disk

theorem rootDirectory_spec (h : fat16GetRootDirectory k = some (k1, 0)) : RootRead k k1 := by
  obtain ⟨total, pos, hscan, m, dir, hm, hend⟩ := rootDirectory_cases h
  cases hend with
  | read pos' h0 =>
    have hf := fresh_of_eq hm h0
    have hplaced := (m.heap.placed _ hf.mem_live).2.2
    have hle := size_le_extent (g := blockSize) (32 * rootEntries k)
    have hlen : (rootBytes k).length = 32 * rootEntries k := by
      unfold rootBytes
      rw [length_diskstreamerRead, Int.toNat_natCast]
    refine ⟨⟨pos, hscan⟩, hf.mem_live, fun x hx => ?_, rfl, rfl⟩
    have hx' : x < (rootBytes k).length := by omega
    dsimp only at hplaced
    dsimp only [Kernel.setFs]
    rw [storeBytes_at hx' (by omega), List.getD_eq_getElem _ _ hx']

def rootItems (k : Kernel) : DirEntries := cut fun x => (rootBytes k).getD x 0

theorem RootRead.counted_eq (h : RootRead k k1) (hend : EndsAt (scanned k.disk (rootPos k)) n)
    (hn : n < itemPositions) :
    k1.fs_private.root_directory.total = usedCount (scanned k.disk (rootPos k)) n := by
  obtain ⟨pos, hscan⟩ := h.counted
  obtain ⟨pos', heq⟩ := totalItemsLoop_eq hend hn 0
  rw [heq, Option.some.injEq, Prod.mk.injEq, Int.zero_add] at hscan
  exact hscan.1.symm

theorem RootRead.loaded (h : RootRead k k1) (hcount : k1.fs_private.root_directory.total = total)
    (htotal : total ≤ rootEntries k) (hnames : NamesWithin (rootItems k) total (32 * rootEntries k)) :
    Loaded k1 k1.fs_private.root_directory (rootItems k) total (32 * rootEntries k) :=
  ⟨hcount, ⟨_, h.block, le_rfl⟩, fun x hx => by rw [h.bytes x hx, rootItems, entryByte_cut], by omega,
    length_cut _, hnames⟩

theorem RootRead.size_le (h : RootRead k k1) :
    k1.fs_private.root_directory.item.toNat + 32 * rootEntries k ≤ 2 ^ 32 := by
  have hplaced := (k1.heap.placed _ h.block).2.2
  have hle := size_le_extent (g := blockSize) (32 * rootEntries k)
  dsimp only at hplaced
  omega

theorem RootRead.names (h : RootRead k k1) {i : Nat}
    (hin : ∀ a ∈ filenameReads k1.mem (itemAt k1.fs_private.root_directory.item i) maxPath,
      Within k1.fs_private.root_directory.item (32 * rootEntries k) a) :
    ∀ a ∈ filenameReads (image (rootItems k)) (itemAt 0 i) maxPath, a.toNat < 32 * rootEntries k := by
  have hsize := h.size_le
  have hsame : ∀ a ∈ filenameReads k1.mem (itemAt k1.fs_private.root_directory.item i) maxPath,
      image (rootItems k) (a + -k1.fs_private.root_directory.item) = k1.mem a := by
    intro a ha
    have hx := hin a ha
    have haddr : a = k1.fs_private.root_directory.item +
        BitVec.ofNat 32 (a - k1.fs_private.root_directory.item).toNat := by
      unfold Within at hx
      bv_omega
    unfold image
    rw [← BitVec.sub_eq_add_neg, rootItems, entryByte_cut, ← h.bytes _ hx, ← haddr]
  obtain ⟨-, hreads⟩ := filename_congr hsame
  have hzero : itemAt k1.fs_private.root_directory.item i + -k1.fs_private.root_directory.item = itemAt 0 i := by
    unfold itemAt
    bv_omega
  rw [hzero] at hreads
  intro a ha
  rw [hreads] at ha
  obtain ⟨b, hb, rfl⟩ := List.mem_map.mp ha
  rw [← BitVec.sub_eq_add_neg]
  exact hin b hb

/-! ## Whether it is safe to look at -/

/-- The items are no more than there is room for. The count has stopped by the end of the region,
and whoever looks for a name reads nothing but the buffer. -/
structure RootSafe (k k1 : Kernel) : Prop where
  total : k1.fs_private.root_directory.total ≤ rootEntries k
  stops : ∃ r, totalItemsLoop k.disk (rootEntries k) (toInt32 (rootPos k)) 0 = some r
  reads : ∀ k', FatKeeps k1 k' → ∀ i < k1.fs_private.root_directory.total.toNat, ∀ a,
    a ∈ filenameReads k'.mem (itemAt k1.fs_private.root_directory.item i) maxPath ∨
      Within (itemAt k1.fs_private.root_directory.item i) 32 a →
    Within k1.fs_private.root_directory.item (32 * rootEntries k) a

/-- Of the entries that the header has room for one starts with 0, and the names that are counted up
to it end in the bytes read. -/
def RootEnds (k : Kernel) : Prop :=
  ∃ n < rootEntries k, EndsAt (scanned k.disk (rootPos k)) n ∧
    NamesWithin (rootItems k) (usedCount (scanned k.disk (rootPos k)) n) (32 * rootEntries k)

/-- For every disk and header: the directory that is loaded is safe to look at exactly when it ends
in the region that the header gives it. -/
theorem root_safe_iff (h : fat16GetRootDirectory k = some (k1, 0)) : RootSafe k k1 ↔ RootEnds k := by
  have hread := rootDirectory_spec h
  have hsize := hread.size_le
  have hmax : itemPositions = 2 ^ 27 := rfl
  constructor
  · rintro ⟨-, ⟨r, hstop⟩, hreads⟩
    obtain ⟨n, hn, hend⟩ := endsAt_of_stops hstop
    have hcount := hread.counted_eq hend (by omega)
    refine ⟨n, hn, hend, fun i hi => hread.names fun a ha => ?_⟩
    exact hreads k1 (FatKeeps.refl k1) i (by omega) a (Or.inl ha)
  · rintro ⟨n, hn, hend, hnames⟩
    have hle := usedCount_le (scanned k.disk (rootPos k)) n
    have hcount := hread.counted_eq hend (by omega)
    have hloaded := hread.loaded hcount (by omega) hnames
    obtain ⟨pos, hstop⟩ := totalItemsLoop_eq hend hn 0
    refine ⟨by omega, ⟨_, hstop⟩, fun k' hk' i hi a ha => ?_⟩
    exact (hloaded.keeps hk').reads (by omega) ha

theorem rootBytes_eq (hfit : rootPos k + 32 * rootEntries k < 2 ^ 31) {x : Nat} (hx : x < 32 * rootEntries k) :
    (rootBytes k).getD x 0 = imageByte k.disk (rootPos k + x) := by
  unfold rootBytes
  rw [toInt32_of_bounds (by omega) (by omega), read_image hfit, List.getD_eq_getElem _ _ (by simpa using hx)]
  simp

theorem rootItems_eq (hfit : rootPos k + 32 * rootEntries k < 2 ^ 31) {i : Nat} (hi : i < rootEntries k) :
    rootItems k i = diskEntry k.disk (rootPos k) i := by
  unfold rootItems diskEntry cut
  refine List.map_congr_left fun x hx => ?_
  have := List.mem_range.mp hx
  exact rootBytes_eq hfit (by omega)

theorem rootEnds_iff (hfit : rootPos k + 32 * rootEntries k < 2 ^ 31) :
    RootEnds k ↔ ∃ i < rootEntries k, imageByte k.disk (rootPos k + 32 * i) = 0 := by
  have hscan : ∀ i < rootEntries k, scanned k.disk (rootPos k) i = diskEntry k.disk (rootPos k) i := fun i hi =>
    scanned_eq (by omega)
  have hfirst : ∀ i, (diskEntry k.disk (rootPos k) i).getD 0 0 = imageByte k.disk (rootPos k + 32 * i) := fun i =>
    getD_cut _ _ (by decide)
  constructor
  · rintro ⟨n, hn, hend, -⟩
    refine ⟨n, hn, ?_⟩
    rw [← hfirst, ← hscan n hn]
    exact hend.last
  · rintro ⟨i, hi, h0⟩
    rw [← hfirst] at h0
    obtain ⟨n, hn, hend⟩ := exists_endsAt h0
    have hle := usedCount_le (scanned k.disk (rootPos k)) n
    refine ⟨n, by omega, hend.congr fun j hj => hscan j (by omega), fun j hj a ha => ?_⟩
    have hitems : EndsAt (rootItems k) n := hend.congr fun j hj => rootItems_eq hfit (by omega)
    have := names_within hitems (by omega) (by omega) ha
    omega

/-! ## A root on one sector -/

/-- Its region is sector 2, has room for `R` entries, and starts with `es`. The name `A` lies in the
first block. -/
def rootVolume (R : Nat) (es : List Entry) : Kernel :=
  let (k, buf) := emptyKernel.onKmem (kzalloc · maxPath)
  { k with
    mem := storeBytes k.mem buf [0x41]
    disk := { k.disk with sector := fun _ lba i => if lba = 2 then es.flatten.getD i 0 else 0 }
    fs_private := { k.fs_private with header := ⟨1, 1, 1, R, 1⟩ } }

def nameBuf : Addr := (kzalloc emptyKernel.toKmem maxPath).2

def rootLoaded (k : Kernel) : Kernel := ((fat16GetRootDirectory k).map Prod.fst).getD k

theorem rootLoaded_eq (h : (fat16GetRootDirectory k).map Prod.snd = some 0) :
    fat16GetRootDirectory k = some (rootLoaded k, 0) := by
  obtain ⟨⟨k1, res⟩, h1, rfl⟩ := Option.map_eq_some_iff.mp h
  unfold rootLoaded
  rw [h1]
  rfl

theorem root_safe_rootVolume :
    RootSafe (rootVolume 2 [entryA]) (rootLoaded (rootVolume 2 [entryA])) ↔ RootEnds (rootVolume 2 [entryA]) :=
  root_safe_iff (rootLoaded_eq (by decide +kernel))

/-- Of a region of one entry, two are counted. -/
theorem full_root_overrun :
    ¬ RootSafe (rootVolume 1 [entryA, entryA]) (rootLoaded (rootVolume 1 [entryA, entryA])) := by
  intro h
  have htotal : (rootLoaded (rootVolume 1 [entryA, entryA])).fs_private.root_directory.total = 2 := by decide +kernel
  have hle := h.total
  rw [htotal] at hle
  exact absurd hle (by decide +kernel)

end MultitaskOs.RootRegion
