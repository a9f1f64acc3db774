import MultitaskOs.Code.File
import MultitaskOs.PathParser

/-!
# What the file calls leave alone

A call of `file.c` or `fat16.c` writes only blocks and records that were not
live before it.
-/

open Lib Lib.Memory Lib.Arena

namespace MultitaskOs.Files

variable {k k' k'' : Kernel} {a out : Addr}

@[simp] theorem Kernel.setDir_self (k : Kernel) (a : Addr) (f : FatDirectory → FatDirectory) :
    (k.setDir a f).fatDirs a = f (k.fatDirs a) := Function.update_self _ _ _

@[simp] theorem Kernel.setItem_self (k : Kernel) (a : Addr) (f : FatItem → FatItem) :
    (k.setItem a f).fatItems a = f (k.fatItems a) := Function.update_self _ _ _

/-- The parts of a FAT16 volume that reading from it does not change. -/
def SameVolume (fs fs' : FatPrivate) : Prop :=
  fs'.header = fs.header ∧ fs'.root_directory = fs.root_directory

/-- Only memory, heap and the records of `fat16.c` differ. -/
def OnlyFat (k k' : Kernel) : Prop :=
  ∃ m i d f fs, k' = { k with toKmem := m, fatItems := i, fatDirs := d, fatDescs := f, fs_private := fs } ∧
    SameVolume k.fs_private fs

theorem OnlyFat.refl (k : Kernel) : OnlyFat k k := ⟨_, _, _, _, _, rfl, rfl, rfl⟩

theorem OnlyFat.trans (h : OnlyFat k k') (h' : OnlyFat k' k'') : OnlyFat k k'' := by
  obtain ⟨m, i, d, f, fs, rfl, hv⟩ := h
  obtain ⟨m', i', d', f', fs', rfl, hv'⟩ := h'
  exact ⟨m', i', d', f', fs', rfl, hv'.1.trans hv.1, hv'.2.trans hv.2⟩

/-- Live blocks and the records on them stay as they are. -/
structure FatKeeps (k k' : Kernel) : Prop where
  only : OnlyFat k k'
  keeps : k.toKmem.Keeps k'.toKmem
  items : ∀ a, k.heap.Live a → k'.fatItems a = k.fatItems a
  dirs : ∀ a, k.heap.Live a → k'.fatDirs a = k.fatDirs a
  descs : ∀ a, k.heap.Live a → k'.fatDescs a = k.fatDescs a

theorem FatKeeps.refl (k : Kernel) : FatKeeps k k :=
  ⟨OnlyFat.refl k, Kmem.Keeps.refl _, fun _ _ => rfl, fun _ _ => rfl, fun _ _ => rfl⟩

theorem FatKeeps.trans (h : FatKeeps k k') (h' : FatKeeps k' k'') : FatKeeps k k'' where
  only := h.only.trans h'.only
  keeps := h.keeps.trans h'.keeps
  items a ha := (h'.items a (h.keeps.isLive ha)).trans (h.items a ha)
  dirs a ha := (h'.dirs a (h.keeps.isLive ha)).trans (h.dirs a ha)
  descs a ha := (h'.descs a (h.keeps.isLive ha)).trans (h.descs a ha)

theorem FatKeeps.withKmem (h : FatKeeps k k') {m : Kmem} (hm : k.toKmem.Keeps m) :
    FatKeeps k { k' with toKmem := m } := by
  obtain ⟨_, i, d, f, fs, rfl, hv⟩ := h.only
  exact ⟨⟨m, i, d, f, fs, rfl, hv⟩, hm, h.items, h.dirs, h.descs⟩

theorem FatKeeps.alloc (h : FatKeeps k k') (size : Nat) : FatKeeps k (k'.onKmem (kzalloc · size)).1 :=
  h.withKmem (h.keeps.trans (kzalloc_keeps _ _))

theorem FatKeeps.kfree (h : FatKeeps k k') (ha : ¬ k.heap.Live a) :
    FatKeeps k (k'.onKmem fun m => (kfree m a, ())).1 :=
  h.withKmem (h.keeps.kfree ha)

theorem FatKeeps.setItem (h : FatKeeps k k') (ha : ¬ k.heap.Live a) (f : FatItem → FatItem) :
    FatKeeps k (k'.setItem a f) := by
  obtain ⟨m, i, d, e, fs, rfl, hv⟩ := h.only
  refine ⟨⟨m, _, d, e, fs, rfl, hv⟩, h.keeps, fun b hb => ?_, h.dirs, h.descs⟩
  have hne : b ≠ a := fun he => ha (he ▸ hb)
  exact (Function.update_of_ne hne _ _).trans (h.items b hb)

theorem FatKeeps.setDir (h : FatKeeps k k') (ha : ¬ k.heap.Live a) (f : FatDirectory → FatDirectory) :
    FatKeeps k (k'.setDir a f) := by
  obtain ⟨m, i, d, e, fs, rfl, hv⟩ := h.only
  refine ⟨⟨m, i, _, e, fs, rfl, hv⟩, h.keeps, h.items, fun b hb => ?_, h.descs⟩
  have hne : b ≠ a := fun he => ha (he ▸ hb)
  exact (Function.update_of_ne hne _ _).trans (h.dirs b hb)

theorem FatKeeps.setDesc (h : FatKeeps k k') (ha : ¬ k.heap.Live a) (f : FatFileDescriptor) :
    FatKeeps k { k' with fatDescs := Function.update k'.fatDescs a f } := by
  obtain ⟨m, i, d, e, fs, rfl, hv⟩ := h.only
  refine ⟨⟨m, i, d, _, fs, rfl, hv⟩, h.keeps, h.items, h.dirs, fun b hb => ?_⟩
  have hne : b ≠ a := fun he => ha (he ▸ hb)
  exact (Function.update_of_ne hne _ _).trans (h.descs b hb)

theorem FatKeeps.store (h : FatKeeps k k') {size n : Nat} (hb : (⟨a, size⟩ : Block) ∈ k'.heap.live)
    (hnew : ¬ k.heap.Live a) (hn : n ≤ size) {m : Mem} (hm : ∀ x, ¬ Within a n x → m x = k'.mem x) :
    FatKeeps k { k' with mem := m } := by
  refine h.withKmem (h.keeps.store hb hnew fun x hx => hm x fun hw => hx ?_)
  have hle := size_le_extent (g := blockSize) size
  unfold Within at *
  dsimp only
  omega

/-! ## Reading -/

theorem length_diskstreamerRead (disk : Disk) (pos total : Int) :
    (diskstreamerRead disk pos total).1.length = total.toNat := by
  induction pos, total using diskstreamerRead.induct disk with
  | case1 pos total offset hover total_to_read rest pos' heq ih =>
    have h := Int.tmod_lt_of_pos pos (show (0 : Int) < sectorSize by decide)
    have hs : sectorSize = 512 := rfl
    unfold diskstreamerRead
    dsimp only
    rw [if_pos hover, List.length_append, ih, List.length_map, List.length_range]
    omega
  | case2 pos total offset hover =>
    unfold diskstreamerRead
    dsimp only
    rw [if_neg hover, List.length_map, List.length_range]

theorem clusterLoop_only (n : Nat) (k : Kernel) (c : Int) :
    ∃ s, (clusterLoop n k c).1 = k.setFs fun fs => { fs with fat_read_stream := s } := by
  induction n generalizing k c with
  | zero => exact ⟨k.fs_private.fat_read_stream, rfl⟩
  | succ n ih =>
    unfold clusterLoop fat16GetFatEntry
    dsimp only
    split_ifs
    · exact ⟨_, rfl⟩
    · exact ⟨_, rfl⟩
    · exact ⟨_, rfl⟩
    · exact ⟨_, rfl⟩
    · obtain ⟨s, hs⟩ := ih (k.setFs fun fs => { fs with fat_read_stream := _ }) _
      exact ⟨s, hs⟩

theorem clusterForOffset_only {c offset c' : Int} (h : fat16GetClusterForOffset k c offset = some (k', c')) :
    ∃ s, k' = k.setFs fun fs => { fs with fat_read_stream := s } := by
  unfold fat16GetClusterForOffset at h
  dsimp only at h
  split at h
  · cases h
  · obtain ⟨s, hs⟩ := clusterLoop_only (offset.tdiv (sizeOfClusterBytes k)).toNat k c
    rw [Option.some.injEq, Prod.eq_iff_fst_eq_snd_eq] at h
    exact ⟨s, h.1.symm.trans hs⟩

/-- Reading differs in the buffer and in the positions of the streams. -/
def OnlyBuffer (k k' : Kernel) (out : Addr) (n : Nat) : Prop :=
  ∃ m fs, k' = { k with mem := m, fs_private := fs } ∧ SameVolume k.fs_private fs ∧
    ∀ x, ¬ Within out n x → m x = k.mem x

theorem OnlyBuffer.refl (k : Kernel) (out : Addr) (n : Nat) : OnlyBuffer k k out n :=
  ⟨_, _, rfl, ⟨rfl, rfl⟩, fun _ _ => rfl⟩

theorem OnlyBuffer.mono {n d : Nat} (h : OnlyBuffer k k' out n) (hle : n ≤ d) : OnlyBuffer k k' out d := by
  obtain ⟨m, fs, rfl, hv, hm⟩ := h
  refine ⟨m, fs, rfl, hv, fun x hx => hm x ?_⟩
  unfold Within at *
  omega

theorem OnlyBuffer.append {k1 : Kernel} {d n : Nat} (h : OnlyBuffer k k1 out d)
    (h' : OnlyBuffer k1 k' (out + BitVec.ofNat 32 d) n) (hlt : d + n < 2 ^ 32) : OnlyBuffer k k' out (d + n) := by
  obtain ⟨m1, fs1, rfl, hv1, hm1⟩ := h
  obtain ⟨m, fs, rfl, hv, hm⟩ := h'
  refine ⟨m, fs, rfl, ⟨hv.1.trans hv1.1, hv.2.trans hv1.2⟩, fun x hx => (hm x ?_).trans (hm1 x ?_)⟩
  all_goals
    unfold Within at *
    bv_omega

theorem readInternalFromStream_only {n : Nat} {c offset total res : Int} (htotal : total < 2 ^ 32)
    (h : fat16ReadInternalFromStream n k c offset total out = some (k', res)) :
    OnlyBuffer k k' out total.toNat := by
  induction n generalizing k offset total out with
  | zero => cases h
  | succ n ih =>
    unfold fat16ReadInternalFromStream at h
    obtain ⟨⟨k1, c1⟩, hc, h⟩ := Option.bind_eq_some_iff.mp h
    obtain ⟨s, rfl⟩ := clusterForOffset_only hc
    dsimp only at h
    split at h
    · cases h
      exact ⟨k.mem, _, rfl, ⟨rfl, rfl⟩, fun _ _ => rfl⟩
    generalize hr : (if total > sizeOfClusterBytes k then sizeOfClusterBytes k else total) = r at h
    have hcsz : 0 ≤ sizeOfClusterBytes k := by unfold sizeOfClusterBytes; positivity
    have hle : r ≤ total := by
      rw [← hr]
      split <;> omega
    have hfirst : ∀ pos x, ¬ Within out total.toNat x →
        storeBytes k.mem out (diskstreamerRead k.disk pos r).1 x = k.mem x := by
      intro pos x hx
      apply storeBytes_of_not_within
      rw [length_diskstreamerRead]
      unfold Within at *
      omega
    split at h
    · rename_i hmore
      have hr0 : 0 ≤ r := by
        rw [← hr]
        split <;> omega
      obtain ⟨m, fs, rfl, hv, hm⟩ := ih (by omega) h
      refine ⟨m, fs, rfl, hv, fun x hx => (hm x ?_).trans (hfirst _ x hx)⟩
      have hoff : (BitVec.ofInt 32 r).toNat = r.toNat := by
        rw [BitVec.toNat_ofInt, Int.emod_eq_of_lt hr0 (by omega)]
      unfold Within at *
      bv_omega
    · cases h
      exact ⟨_, _, rfl, ⟨rfl, rfl⟩, hfirst _⟩

theorem FatKeeps.withFs (h : FatKeeps k k') {fs : FatPrivate} (hfs : SameVolume k'.fs_private fs) :
    FatKeeps k { k' with fs_private := fs } := by
  obtain ⟨m, i, d, e, _, rfl, hv⟩ := h.only
  exact ⟨⟨m, i, d, e, fs, rfl, hfs.1.trans hv.1, hfs.2.trans hv.2⟩, h.keeps, h.items, h.dirs, h.descs⟩

theorem FatKeeps.read (h : FatKeeps k k') {size n : Nat} (hb : (⟨out, size⟩ : Block) ∈ k'.heap.live)
    (hnew : ¬ k.heap.Live out) (hn : n ≤ size) (hr : OnlyBuffer k' k'' out n) : FatKeeps k k'' := by
  obtain ⟨m, fs, rfl, hv, hm⟩ := hr
  have hstore : FatKeeps k { k' with mem := m } := h.store hb hnew hn hm
  exact hstore.withFs hv

/-! ## Directories -/

theorem fat16FreeDirectory_keeps (h : FatKeeps k k') (ha : ¬ k.heap.Live a)
    (hitem : ¬ k.heap.Live (k'.fatDirs a).item) : FatKeeps k (fat16FreeDirectory k' a) := by
  unfold fat16FreeDirectory
  dsimp only
  split
  · exact h
  · split
    · exact (h.kfree hitem).kfree ha
    · exact h.kfree ha

theorem fat16GetTotalItems_only {sector i : Int} (h : fat16GetTotalItemsForDirectory k sector = some (k', i)) :
    ∃ s, k' = k.setFs fun fs => { fs with directory_stream := s } := by
  unfold fat16GetTotalItemsForDirectory at h
  obtain ⟨⟨j, s⟩, -, h⟩ := Option.bind_eq_some_iff.mp h
  cases h
  exact ⟨s, rfl⟩

def withItems (k : Kernel) (m : Kmem) (directory items : Addr) (total_items : Int) : Kernel :=
  { k with toKmem := m }.setDir directory fun _ => ⟨items, total_items, 0, 0⟩

@[simp] theorem withItems_directory (k : Kernel) (m : Kmem) (directory items : Addr) (total_items : Int) :
    (withItems k m directory items total_items).fatDirs directory = ⟨items, total_items, 0, 0⟩ :=
  Kernel.setDir_self _ _ _

/-- What `fat16_load_fat_directory` does once the items are counted. -/
def loadItems (k : Kernel) (directory : Addr) (cluster total_items : Int) : Option (Kernel × Addr) := do
  let directory_size := toInt32 (total_items * sizeofFatDirectoryItem)
  let (m, items) := kzalloc k.toKmem (BitVec.ofInt 32 directory_size).toNat
  let k := withItems k m directory items total_items
  if items = 0 then return (fat16FreeDirectory k directory, directory)
  let (k, res) ← fat16ReadInternal k cluster 0 directory_size items
  return (if res ≠ 0 then fat16FreeDirectory k directory else k, directory)

theorem fat16LoadFatDirectory_eq {item directory : Addr} {m : Kmem}
    (h : kzalloc k.toKmem sizeofFatDirectory = (m, directory)) :
    fat16LoadFatDirectory k item =
      if itemAttribute k.mem item &&& fatFileSubdirectory = 0 then some (k, 0)
      else if directory = 0 then some ({ k with toKmem := m }, 0)
      else (fat16GetTotalItemsForDirectory { k with toKmem := m }
        (fat16ClusterToSector k.fs_private (fat16GetFirstCluster m.mem item))).bind fun r =>
          loadItems r.1 directory (fat16GetFirstCluster m.mem item) r.2 := by
  unfold fat16LoadFatDirectory
  rw [Kernel.onKmem_eq h]
  dsimp only
  split
  · rfl
  split
  · rfl
  refine congrArg _ (funext fun ⟨k2, total⟩ => ?_)
  unfold loadItems Kernel.onKmem
  dsimp only
  split
  · rfl
  refine congrArg _ (funext fun ⟨k5, res⟩ => ?_)
  dsimp only
  split
  · rfl
  · rfl

theorem loadItems_keeps {k0 : Kernel} {directory d : Addr} {cluster total : Int} (hk : FatKeeps k0 k)
    (hdir : ¬ k0.heap.Live directory) (h : loadItems k directory cluster total = some (k', d)) : FatKeeps k0 k' := by
  unfold loadItems at h
  dsimp only at h
  generalize hsize : (BitVec.ofInt 32 (toInt32 (total * sizeofFatDirectoryItem))).toNat = size at h
  obtain ⟨⟨m, items⟩, hm⟩ : ∃ r, kzalloc k.toKmem size = r := ⟨_, rfl⟩
  have halloc := hk.alloc size
  rw [Kernel.onKmem_eq hm] at halloc
  have hnew : ¬ k0.heap.Live items := by
    have := kzalloc_not_live k.toKmem size
    rw [hm] at this
    exact fun hl => this (hk.keeps.isLive hl)
  have hset : FatKeeps k0 (withItems k m directory items total) := halloc.setDir hdir fun _ => ⟨items, total, 0, 0⟩
  have hitems : ((withItems k m directory items total).fatDirs directory).item = items := by simp
  rw [hm] at h
  dsimp only at h
  split at h
  · cases h
    refine fat16FreeDirectory_keeps hset hdir ?_
    rw [hitems]
    exact hnew
  rename_i h0
  have hf := fresh_of_eq hm h0
  obtain ⟨⟨k5, res⟩, hread, h⟩ := Option.bind_eq_some_iff.mp h
  have hb := toInt32_bounds (total * sizeofFatDirectoryItem)
  have hn : (toInt32 (total * sizeofFatDirectoryItem)).toNat ≤ size := by
    rw [← hsize, BitVec.toNat_ofInt]
    omega
  have hbuf := readInternalFromStream_only (by omega) hread
  have hk5 := hset.read hf.mem_live hnew hn hbuf
  cases h
  dsimp only
  split
  · have hitems5 : (k5.fatDirs directory).item = items := by
      obtain ⟨m, fs, rfl, -⟩ := hbuf
      exact hitems
    refine fat16FreeDirectory_keeps hk5 hdir ?_
    rw [hitems5]
    exact hnew
  · exact hk5

theorem fat16LoadFatDirectory_keeps {item directory : Addr}
    (h : fat16LoadFatDirectory k item = some (k', directory)) : FatKeeps k k' := by
  obtain ⟨⟨m, dir⟩, hm⟩ : ∃ r, kzalloc k.toKmem sizeofFatDirectory = r := ⟨_, rfl⟩
  have hrecord := (FatKeeps.refl k).alloc sizeofFatDirectory
  have hdir := kzalloc_not_live k.toKmem sizeofFatDirectory
  rw [fat16LoadFatDirectory_eq hm] at h
  rw [Kernel.onKmem_eq hm] at hrecord
  rw [hm] at hdir
  split at h
  · cases h
    exact FatKeeps.refl k
  split at h
  · cases h
    exact hrecord
  obtain ⟨⟨k2, total⟩, hscan, h⟩ := Option.bind_eq_some_iff.mp h
  refine loadItems_keeps ?_ hdir h
  obtain ⟨s, rfl⟩ := fat16GetTotalItems_only hscan
  exact hrecord.withFs ⟨rfl, rfl⟩

/-- A file item on blocks that were not live in `k`. Its copy may have failed. -/
structure NewItem (k k' : Kernel) (item : Addr) : Prop where
  live : k'.heap.Live item
  fresh : ¬ k.heap.Live item
  type : (k'.fatItems item).type = fatItemTypeFile
  copy_fresh : ¬ k.heap.Live (k'.fatItems item).item
  copy : (k'.fatItems item).item = 0 ∨ k'.heap.Live (k'.fatItems item).item ∧ (k'.fatItems item).item ≠ item

theorem NewItem.keeps {item : Addr} (h : NewItem k k' item) (hk : FatKeeps k' k'') : NewItem k k'' item := by
  have hi := hk.items item h.live
  refine ⟨hk.keeps.isLive h.live, h.fresh, hi ▸ h.type, hi ▸ h.copy_fresh, ?_⟩
  rw [hi]
  exact h.copy.imp_right fun hc => ⟨hk.keeps.isLive hc.1, hc.2⟩

theorem NewItem.of_keeps {item : Addr} (h : NewItem k' k'' item) (hk : k.toKmem.Keeps k'.toKmem) :
    NewItem k k'' item :=
  ⟨h.live, fun hl => h.fresh (hk.isLive hl), h.type, fun hl => h.copy_fresh (hk.isLive hl), h.copy⟩

/-- What a new item is given whether or not its entry is a subdirectory. -/
def finishItem (k : Kernel) (f_item item : Addr) : Kernel :=
  let r := fat16CloneDirectoryItem (k.setItem f_item fun f => { f with type := fatItemTypeFile }) item
    sizeofFatDirectoryItem
  r.1.setItem f_item fun f => { f with item := r.2 }

theorem finishItem_keeps {f_item : Addr} (item : Addr) (h : FatKeeps k k') (hlive : k'.heap.Live f_item)
    (hfresh : ¬ k.heap.Live f_item) :
    FatKeeps k (finishItem k' f_item item) ∧ NewItem k (finishItem k' f_item item) f_item := by
  unfold finishItem fat16CloneDirectoryItem
  rw [if_neg (by decide)]
  obtain ⟨⟨m1, copy⟩, h1⟩ : ∃ r, kzalloc k'.toKmem sizeofFatDirectoryItem = r := ⟨_, rfl⟩
  have hset := h.setItem hfresh fun f => { f with type := fatItemTypeFile }
  have hk1 := hset.alloc sizeofFatDirectoryItem
  rw [Kernel.onKmem_eq (k := k'.setItem f_item fun f => { f with type := fatItemTypeFile }) h1] at hk1 ⊢
  have hmono := (kzalloc_keeps k'.toKmem sizeofFatDirectoryItem).isLive hlive
  have hnew := kzalloc_not_live k'.toKmem sizeofFatDirectoryItem
  rw [h1] at hmono hnew
  have hcopy : ¬ k.heap.Live copy := fun hl => hnew (h.keeps.isLive hl)
  dsimp only
  split
  · refine ⟨hk1.setItem hfresh _, ⟨hmono, hfresh, ?_, ?_, Or.inl ?_⟩⟩
    all_goals simp only [Kernel.setItem_self]
    exact k.heap.not_live_zero
  · rename_i h0
    have hf := fresh_of_eq h1 h0
    have hstore := hk1.store hf.mem_live hcopy le_rfl
      (m := storeBytes m1.mem copy (readBytes m1.mem item sizeofFatDirectoryItem)) fun x hx =>
        storeBytes_of_not_within (by rwa [length_readBytes])
    refine ⟨hstore.setItem hfresh _, ⟨hmono, hfresh, ?_, ?_, Or.inr ⟨?_, ?_⟩⟩⟩
    all_goals simp only [Kernel.setItem_self]
    · exact hcopy
    · exact hf.isLive
    · exact fun he => hnew (he ▸ hlive)

theorem fat16NewFatItem_keeps {item f_item : Addr}
    (h : fat16NewFatItemForDirectoryItem k item = some (k', f_item)) :
    FatKeeps k k' ∧ (f_item ≠ 0 → NewItem k k' f_item) := by
  unfold fat16NewFatItemForDirectoryItem at h
  obtain ⟨⟨m1, fi⟩, h1⟩ : ∃ r, kzalloc k.toKmem sizeofFatItem = r := ⟨_, rfl⟩
  have hk1 := (FatKeeps.refl k).alloc sizeofFatItem
  rw [Kernel.onKmem_eq h1] at h hk1
  dsimp only at h
  split at h
  · cases h
    exact ⟨hk1, fun h0 => absurd rfl h0⟩
  rename_i h0
  have hf := fresh_of_eq h1 h0
  split at h
  · obtain ⟨⟨k2, d⟩, h2, h⟩ := Option.bind_eq_some_iff.mp h
    have hk2 := fat16LoadFatDirectory_keeps h2
    have hset := (hk1.trans hk2).setItem hf.not_live fun _ => ⟨d, fatItemTypeDirectory⟩
    obtain ⟨hk, hn⟩ := finishItem_keeps item hset (hk2.keeps.isLive hf.isLive) hf.not_live
    cases h
    exact ⟨hk, fun _ => hn⟩
  · obtain ⟨hk, hn⟩ := finishItem_keeps item hk1 hf.isLive hf.not_live
    cases h
    exact ⟨hk, fun _ => hn⟩

theorem findItemLoop_keeps {directory : FatDirectory} {name : Addr} {k0 : Kernel} {n i : Nat} {f_item r : Addr}
    (h : findItemLoop directory name n i k f_item = some (k', r)) (hk : FatKeeps k0 k)
    (hitem : f_item ≠ 0 → NewItem k0 k f_item) : FatKeeps k0 k' ∧ (r ≠ 0 → NewItem k0 k' r) := by
  induction n generalizing k i f_item with
  | zero =>
    cases h
    exact ⟨hk, hitem⟩
  | succ n ih =>
    unfold findItemLoop at h
    obtain ⟨tmp, -, h⟩ := Option.bind_eq_some_iff.mp h
    obtain ⟨c, -, h⟩ := Option.bind_eq_some_iff.mp h
    split at h
    · obtain ⟨⟨k1, f⟩, h1, h⟩ := Option.bind_eq_some_iff.mp h
      obtain ⟨hk1, hf⟩ := fat16NewFatItem_keeps h1
      exact ih h (hk.trans hk1) fun h0 => (hf h0).of_keeps hk.keeps
    · exact ih h hk hitem

theorem fat16FindItem_keeps {directory : FatDirectory} {name r : Addr}
    (h : fat16FindItemInDirectory k directory name = some (k', r)) :
    FatKeeps k k' ∧ (r ≠ 0 → NewItem k k' r) :=
  findItemLoop_keeps h (FatKeeps.refl k) fun h0 => absurd rfl h0

/-- An item that was found is a file, so the loop over the path ends at its second part. -/
theorem fat16GetDirectoryEntry_keeps {n : Nat} {path r : Addr}
    (h : fat16GetDirectoryEntry n k path = some (k', r)) : FatKeeps k k' ∧ (r ≠ 0 → NewItem k k' r) := by
  unfold fat16GetDirectoryEntry at h
  obtain ⟨⟨k1, root⟩, h1, h⟩ := Option.bind_eq_some_iff.mp h
  obtain ⟨hk1, hroot⟩ := fat16FindItem_keeps h1
  dsimp only at h
  split at h
  · cases h
    exact ⟨hk1, fun h0 => absurd rfl h0⟩
  · rename_i h0
    cases n with
    | zero => cases h
    | succ n =>
      unfold directoryEntryLoop at h
      rw [if_pos (c := (k1.fatItems root).type ≠ fatItemTypeDirectory)
        (by rw [(hroot h0).type]; decide)] at h
      split at h
      · cases h
        exact ⟨hk1, hroot⟩
      · cases h
        exact ⟨hk1, fun h0 => absurd rfl h0⟩

/-! ## Opening -/

/-- An open file of `fat16.c`, on blocks that were not live in `k`. -/
structure NewFile (k k' : Kernel) (priv : Addr) : Prop where
  live : k'.heap.Live priv
  fresh : ¬ k.heap.Live priv
  item : NewItem k k' (k'.fatDescs priv).item
  item_ne : (k'.fatDescs priv).item ≠ priv
  copy_ne : (k'.fatItems (k'.fatDescs priv).item).item ≠ priv

theorem fat16Open_keeps {path priv : Addr} {mode : FileMode} (h : fat16Open k path mode = some (k', priv)) :
    FatKeeps k k' ∧ (ISERR priv = false → NewFile k k' priv) := by
  unfold fat16Open at h
  split at h
  · cases h
    exact ⟨FatKeeps.refl k, fun he => absurd he (by decide)⟩
  obtain ⟨⟨m1, d⟩, h1⟩ : ∃ r, kzalloc k.toKmem sizeofFatFileDescriptor = r := ⟨_, rfl⟩
  have hk1 := (FatKeeps.refl k).alloc sizeofFatFileDescriptor
  rw [Kernel.onKmem_eq h1] at h hk1
  dsimp only at h
  split at h
  · cases h
    exact ⟨hk1, fun he => absurd he (by decide)⟩
  rename_i h0
  have hf := fresh_of_eq h1 h0
  obtain ⟨⟨k2, item⟩, h2, h⟩ := Option.bind_eq_some_iff.mp h
  obtain ⟨hk2, hitem⟩ := fat16GetDirectoryEntry_keeps h2
  have hset := (hk1.trans hk2).setDesc hf.not_live ⟨item, 0⟩
  dsimp only at h
  split at h
  · cases h
    exact ⟨hset, fun he => absurd he (by decide)⟩
  rename_i hi
  cases h
  have hn := hitem hi
  have hself : Function.update k2.fatDescs priv ⟨item, 0⟩ priv = ⟨item, 0⟩ := Function.update_self _ _ _
  have hn' := hn.of_keeps hk1.keeps
  refine ⟨hset, fun _ => ⟨hk2.keeps.isLive hf.isLive, hf.not_live, ?_, ?_, ?_⟩⟩
  all_goals dsimp only; rw [hself]
  · exact ⟨hn'.live, hn'.fresh, hn'.type, hn'.copy_fresh, hn'.copy⟩
  · rintro rfl
    exact hn.fresh hf.isLive
  · intro he
    exact hn.copy_fresh (he ▸ hf.isLive)

/-! ## Descriptors -/

/-- Only memory, heap and the records of paths and files differ. -/
def OnlyFiles (k k' : Kernel) : Prop :=
  ∃ m pr pp fd i d f fs t, k' = { k with
      toKmem := m, pathRoots := pr, pathParts := pp, fileDescs := fd, fatItems := i, fatDirs := d
      fatDescs := f, fs_private := fs, file_descriptors := t } ∧ SameVolume k.fs_private fs

/-- Live blocks and the file records on them stay as they are. -/
structure FileKeeps (k k' : Kernel) : Prop where
  only : OnlyFiles k k'
  keeps : k.toKmem.Keeps k'.toKmem
  items : ∀ a, k.heap.Live a → k'.fatItems a = k.fatItems a
  descs : ∀ a, k.heap.Live a → k'.fatDescs a = k.fatDescs a
  files : ∀ a, k.heap.Live a → k'.fileDescs a = k.fileDescs a

theorem FileKeeps.trans (h : FileKeeps k k') (h' : FileKeeps k' k'') : FileKeeps k k'' where
  only := by
    obtain ⟨_, _, _, _, _, _, _, _, _, rfl, hv⟩ := h.only
    obtain ⟨_, _, _, _, _, _, _, _, _, rfl, hv'⟩ := h'.only
    exact ⟨_, _, _, _, _, _, _, _, _, rfl, hv'.1.trans hv.1, hv'.2.trans hv.2⟩
  keeps := h.keeps.trans h'.keeps
  items a ha := (h'.items a (h.keeps.isLive ha)).trans (h.items a ha)
  descs a ha := (h'.descs a (h.keeps.isLive ha)).trans (h.descs a ha)
  files a ha := (h'.files a (h.keeps.isLive ha)).trans (h.files a ha)

theorem FatKeeps.fileKeeps (h : FatKeeps k k') : FileKeeps k k' := by
  obtain ⟨_, _, _, _, _, rfl, hv⟩ := h.only
  exact ⟨⟨_, _, _, _, _, _, _, _, _, rfl, hv⟩, h.keeps, h.items, h.descs, fun _ _ => rfl⟩

/-- The descriptor `desc` in entry `i` of the table, for a file that was not open in `k`. Its
record is NULL when there was no memory for it. -/
structure NewDescriptor (k k' : Kernel) (i : Nat) (desc : Addr) : Prop where
  slot : freeDescriptor k = some i
  table : k'.file_descriptors = Function.update k.file_descriptors i desc
  index : (k'.fileDescs desc).index = i + 1
  file : NewFile k k' (k'.fileDescs desc).priv
  fresh : ¬ k.heap.Live desc
  block : desc = 0 ∨ k'.heap.Live desc ∧ desc ≠ (k'.fileDescs desc).priv ∧
    desc ≠ (k'.fatDescs (k'.fileDescs desc).priv).item ∧
    desc ≠ (k'.fatItems (k'.fatDescs (k'.fileDescs desc).priv).item).item

/-- What `fopen` does to the table. The record is not NULL if it is `granted`. -/
def Outcome (granted : Prop) (k k' : Kernel) (fd : Int) : Prop :=
  (fd = 0 ∧ k'.file_descriptors = k.file_descriptors) ∨
    ∃ (i : Nat) (desc : Addr), fd = i + 1 ∧ NewDescriptor k k' i desc ∧ (granted → desc ≠ 0)

/-- When `fopen` comes to its descriptor record, there is memory for it. -/
def RecordGranted (k : Kernel) (s : List Byte) (mode_str : CharPtr) : Prop :=
  ∀ k1 root mode k2 priv, pathparserParse k (PathParser.cstr s) = some (k1, root) →
    fileGetModeByString mode_str = some mode → fat16Open k1 (k1.pathRoots root).first mode = some (k2, priv) →
    (kzalloc k2.toKmem sizeofFileDescriptor).2 ≠ 0

theorem freeDescriptor_some {i : Nat} (h : freeDescriptor k = some i) :
    i < fileDescriptors ∧ k.file_descriptors i = 0 := by
  have h1 := List.mem_of_find?_eq_some h
  have h2 := List.find?_some h
  exact ⟨List.mem_range.mp h1, by simpa using h2⟩

theorem NewFile.of_keeps {priv : Addr} (h : NewFile k' k'' priv) (hk : k.toKmem.Keeps k'.toKmem) :
    NewFile k k'' priv :=
  ⟨h.live, fun hl => h.fresh (hk.isLive hl), h.item.of_keeps hk, h.item_ne, h.copy_ne⟩

theorem fileNewDescriptor_spec {k0 : Kernel} {priv : Addr} (hk : FatKeeps k0 k) (hfile : NewFile k0 k priv)
    {r : Kernel × Int × Addr} (hr : fileNewDescriptor k = r) :
    (r.2.1 < 0 ∧ r.1 = k) ∨ ∃ i, r.2.1 = 0 ∧ r.2.2 = (kzalloc k.toKmem sizeofFileDescriptor).2 ∧
      FileKeeps k0 { r.1 with
        fileDescs := Function.update r.1.fileDescs r.2.2 { r.1.fileDescs r.2.2 with priv } } ∧
      NewDescriptor k0 { r.1 with
        fileDescs := Function.update r.1.fileDescs r.2.2 { r.1.fileDescs r.2.2 with priv } } i r.2.2 := by
  unfold fileNewDescriptor at hr
  split at hr
  · left
    rw [← hr]
    exact ⟨show -ENOMEM < 0 by decide, rfl⟩
  rename_i i hslot
  right
  obtain ⟨⟨m1, desc⟩, h1⟩ : ∃ r, kzalloc k.toKmem sizeofFileDescriptor = r := ⟨_, rfl⟩
  have hk1 := hk.alloc sizeofFileDescriptor
  have hnew := kzalloc_not_live k.toKmem sizeofFileDescriptor
  have hcases := kzalloc_cases k.toKmem sizeofFileDescriptor
  have hkeep := kzalloc_keeps k.toKmem sizeofFileDescriptor
  rw [Kernel.onKmem_eq h1] at hr hk1
  rw [h1] at hnew hcases hkeep
  dsimp only at hr hnew hcases hkeep
  have hfresh : ¬ k0.heap.Live desc := fun hl => hnew (hk.keeps.isLive hl)
  subst hr
  have hself : Function.update (Function.update k.fileDescs desc ⟨i + 1, 0⟩) desc
      { Function.update k.fileDescs desc ⟨i + 1, 0⟩ desc with priv } desc = ⟨i + 1, priv⟩ := by
    simp
  refine ⟨i, rfl, by rw [h1], ?_, ?_⟩
  · obtain ⟨_, _, _, _, _, rfl, hv⟩ := hk.only
    refine ⟨⟨_, _, _, _, _, _, _, _, _, rfl, hv⟩, hk1.keeps, hk1.items, hk1.descs, fun b hb => ?_⟩
    have hne : b ≠ desc := fun he => hfresh (he ▸ hb)
    dsimp only
    rw [Function.update_of_ne hne, Function.update_of_ne hne]
  · have hslot0 : freeDescriptor k0 = some i := by
      obtain ⟨_, _, _, _, _, rfl, hv⟩ := hk.only
      exact hslot
    have htable : k.file_descriptors = k0.file_descriptors := by
      obtain ⟨_, _, _, _, _, rfl, hv⟩ := hk.only
      rfl
    refine ⟨hslot0, ?_, ?_, ?_, hfresh, ?_⟩
    · dsimp only
      rw [htable]
    · dsimp only
      rw [hself]
    · dsimp only
      rw [hself]
      dsimp only
      have hi := hfile.item
      refine ⟨hkeep.isLive hfile.live, hfile.fresh, ⟨hkeep.isLive hi.live, hi.fresh, hi.type, hi.copy_fresh, ?_⟩,
        hfile.item_ne, hfile.copy_ne⟩
      exact hi.copy.imp_right fun hc => ⟨hkeep.isLive hc.1, hc.2⟩
    · dsimp only
      rw [hself]
      rcases hcases with ⟨h0, -⟩ | ⟨h0, hl, -⟩
      · exact Or.inl h0
      · right
        have hlive : m1.heap.Live desc := ⟨_, hl ▸ List.mem_cons_self⟩
        refine ⟨hlive, ?_, ?_, ?_⟩
        · rintro rfl
          exact hnew hfile.live
        · intro he
          exact hnew (he ▸ hfile.item.live)
        · intro he
          rcases hfile.item.copy with hc | hc
          · exact h0 (he.trans hc)
          · exact hnew (he ▸ hc.1)

theorem FileKeeps.refl (k : Kernel) : FileKeeps k k := (FatKeeps.refl k).fileKeeps

theorem Parsed.fileKeeps {s : List Byte} {root : Addr} (h : PathParser.Parsed s k k' root) : FileKeeps k k' := by
  have hkeeps := h.keeps
  obtain ⟨m, r, p, rfl⟩ := h.only
  exact ⟨⟨_, _, _, _, _, _, _, _, _, rfl, rfl, rfl⟩, hkeeps, fun _ _ => rfl, fun _ _ => rfl, fun _ _ => rfl⟩

inductive FopenWay (k : Kernel) (filename mode_str : CharPtr) : Kernel → Int → Prop where
  | refused {k1 : Kernel} {root : Addr} : pathparserParse k filename = some (k1, root) →
    FopenWay k filename mode_str k1 0
  | notOpened {k1 k2 : Kernel} {root priv : Addr} {mode : FileMode} : pathparserParse k filename = some (k1, root) →
    root ≠ 0 → fat16Open k1 (k1.pathRoots root).first mode = some (k2, priv) → FopenWay k filename mode_str k2 0
  | noDescriptor {k1 k2 k3 : Kernel} {root priv desc : Addr} {mode : FileMode} {res : Int} :
    pathparserParse k filename = some (k1, root) → root ≠ 0 →
    fat16Open k1 (k1.pathRoots root).first mode = some (k2, priv) → ISERR priv = false →
    fileNewDescriptor k2 = (k3, res, desc) → res < 0 → FopenWay k filename mode_str k3 0
  | opened {k1 k2 k3 : Kernel} {root priv desc : Addr} {mode : FileMode} {res index : Int} :
    pathparserParse k filename = some (k1, root) → root ≠ 0 → (k1.pathRoots root).first ≠ 0 →
    fileGetModeByString mode_str = some mode → fat16Open k1 (k1.pathRoots root).first mode = some (k2, priv) →
    ISERR priv = false → fileNewDescriptor k2 = (k3, res, desc) → ¬ res < 0 → (k3.fileDescs desc).index = index →
    FopenWay k filename mode_str { k3 with
      fileDescs := Function.update k3.fileDescs desc { k3.fileDescs desc with priv } } (if index < 0 then 0 else index)

theorem fopen_way {filename mode_str : CharPtr} {fd : Int} (h : fopen k filename mode_str = some (k', fd)) :
    FopenWay k filename mode_str k' fd := by
  unfold fopen at h
  obtain ⟨⟨k1, root⟩, hparse, h⟩ := Option.bind_eq_some_iff.mp h
  dsimp only at h
  split at h
  · cases h
    exact .refused hparse
  rename_i h0
  split at h
  · cases h
    exact .refused hparse
  rename_i hfirst
  split at h
  · cases h
    exact .refused hparse
  split at h
  · cases h
    exact .refused hparse
  obtain ⟨mode, hmode, h⟩ := Option.bind_eq_some_iff.mp h
  split at h
  · cases h
    exact .refused hparse
  obtain ⟨⟨k2, priv⟩, h2, h⟩ := Option.bind_eq_some_iff.mp h
  dsimp only at h
  split at h
  · cases h
    exact .notOpened hparse h0 h2
  rename_i herr
  have herr : ISERR priv = false := by simpa using herr
  obtain ⟨⟨k3, res, desc⟩, h3⟩ : ∃ r, fileNewDescriptor k2 = r := ⟨_, rfl⟩
  simp only [h3] at h
  split at h
  · cases h
    exact .noDescriptor hparse h0 h2 herr h3 (by assumption)
  · rename_i hres
    rw [Option.pure_def, Option.some.injEq, Prod.mk.injEq] at h
    obtain ⟨rfl, rfl⟩ := h
    refine .opened hparse h0 hfirst hmode h2 herr h3 hres ?_
    rw [Function.update_self]

theorem fopen_cases {s : List Byte} {mode_str : CharPtr} {fd : Int} (hs : PathParser.NoNul s)
    (h : fopen k (PathParser.cstr s) mode_str = some (k', fd)) :
    ∃ k1 root, PathParser.Parsed s k k1 root ∧
      ((root = 0 ∧ k' = k1 ∧ fd = 0) ∨
        (root ≠ 0 ∧ FileKeeps k1 k' ∧ Outcome (RecordGranted k s mode_str) k1 k' fd)) := by
  obtain ⟨k1, root, hparse, hp⟩ := PathParser.pathparserParse_spec hs k
  have hroot : ∀ {k1' root'}, pathparserParse k (PathParser.cstr s) = some (k1', root') → k1' = k1 ∧ root' = root := by
    intro k1' root' h'
    rw [hparse] at h'
    cases h'
    exact ⟨rfl, rfl⟩
  have htable : ∀ {k2 : Kernel}, FatKeeps k1 k2 → k2.file_descriptors = k1.file_descriptors := by
    intro k2 hk2
    obtain ⟨_, _, _, _, _, rfl, hv⟩ := hk2.only
    rfl
  refine ⟨k1, root, hp, ?_⟩
  cases fopen_way h with
  | @refused k1' root' hparse' =>
    obtain ⟨rfl, rfl⟩ := hroot hparse'
    by_cases h0 : root' = 0
    · exact Or.inl ⟨h0, rfl, rfl⟩
    · exact Or.inr ⟨h0, FileKeeps.refl _, Or.inl ⟨rfl, rfl⟩⟩
  | notOpened hparse' h0 h2 =>
    obtain ⟨rfl, rfl⟩ := hroot hparse'
    have hk2 := (fat16Open_keeps h2).1
    exact Or.inr ⟨h0, hk2.fileKeeps, Or.inl ⟨rfl, htable hk2⟩⟩
  | noDescriptor hparse' h0 h2 herr h3 hres =>
    obtain ⟨rfl, rfl⟩ := hroot hparse'
    obtain ⟨hk2, hfile⟩ := fat16Open_keeps h2
    refine Or.inr ⟨h0, ?_⟩
    rcases fileNewDescriptor_spec hk2 (hfile herr) h3 with ⟨-, rfl⟩ | ⟨i, hres', -⟩
    · exact ⟨hk2.fileKeeps, Or.inl ⟨rfl, htable hk2⟩⟩
    · dsimp only at hres'
      omega
  | @opened _ k2 k3 _ priv desc mode res index hparse' h0 _ hmode h2 herr h3 hres hindex =>
    obtain ⟨rfl, rfl⟩ := hroot hparse'
    obtain ⟨hk2, hfile⟩ := fat16Open_keeps h2
    refine Or.inr ⟨h0, ?_⟩
    rcases fileNewDescriptor_spec hk2 (hfile herr) h3 with ⟨hneg, -⟩ | ⟨i, -, hdesc, hk, hd⟩
    · exact absurd hneg hres
    · dsimp only at hdesc hk hd
      have hi := hd.index
      dsimp only at hi
      rw [Function.update_self] at hi
      refine ⟨hk, Or.inr ⟨i, desc, ?_, hd, fun hg => ?_⟩⟩
      · rw [← hindex, hi, if_neg (by omega)]
      · rw [hdesc]
        exact hg _ _ _ _ _ hparse hmode h2

theorem fopen_spec {s : List Byte} {mode_str : CharPtr} {fd : Int} (hs : PathParser.NoNul s)
    (h : fopen k (PathParser.cstr s) mode_str = some (k', fd)) :
    FileKeeps k k' ∧ Outcome (RecordGranted k s mode_str) k k' fd := by
  obtain ⟨k1, root, hp, hcases⟩ := fopen_cases hs h
  have hk1 := Parsed.fileKeeps hp
  have htable : k1.file_descriptors = k.file_descriptors := by
    obtain ⟨m, r, p, rfl⟩ := hp.only
    rfl
  rcases hcases with ⟨-, rfl, rfl⟩ | ⟨-, hk2, hout⟩
  · exact ⟨hk1, Or.inl ⟨rfl, htable⟩⟩
  refine ⟨hk1.trans hk2, ?_⟩
  rcases hout with ⟨rfl, hsame⟩ | ⟨i, desc, rfl, hd, hg⟩
  · exact Or.inl ⟨rfl, hsame.trans htable⟩
  · have hslot := hd.slot
    unfold freeDescriptor at hslot
    rw [htable] at hslot
    exact Or.inr ⟨i, desc, rfl, ⟨hslot, by rw [hd.table, htable], hd.index, hd.file.of_keeps hk1.keeps,
      fun hl => hd.fresh (hk1.keeps.isLive hl), hd.block⟩, hg⟩

/-! ## What a descriptor leads to -/

def itemOf (k : Kernel) (desc : Addr) : Addr := (k.fatDescs (k.fileDescs desc).priv).item

def copyOf (k : Kernel) (desc : Addr) : Addr := (k.fatItems (itemOf k desc)).item

def posOf (k : Kernel) (desc : Addr) : BitVec 32 := (k.fatDescs (k.fileDescs desc).priv).pos

end MultitaskOs.Files
