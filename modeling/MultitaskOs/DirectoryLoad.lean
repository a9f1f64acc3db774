import MultitaskOs.Directory
import MultitaskOs.OpenClose

/-!
# Loading a subdirectory

`fat16_load_fat_directory` has one exit for every failure. It frees there what
it was given, and returns the freed directory.
-/

open Lib Lib.Memory Lib.Arena MultitaskOs.Files MultitaskOs.FatRead MultitaskOs.FatLookup MultitaskOs.Directory
  MultitaskOs.OpenClose MultitaskOs.Tasks

namespace MultitaskOs.DirectoryLoad

variable {k k' : Kernel} {directory d item : Addr} {cluster : Int} {total : Nat}

/-! ## The items -/

/-- The bytes of the items, as the `int` that the driver keeps them in. -/
def directorySize (total : Nat) : Int := toInt32 ((total : Int) * sizeofFatDirectoryItem)

/-- Every cluster that the items take is there. -/
def ChainHolds (k : Kernel) (cluster : Int) (total : Nat) : Prop :=
  ∀ j, Turn k (directorySize total).toNat j → 0 ≤ chain k cluster j

theorem directorySize_room (ht : total < 2 ^ 27) : (BitVec.ofInt 32 (directorySize total)).toNat = 32 * total := by
  have hs : sizeofFatDirectoryItem = 32 := rfl
  unfold directorySize toInt32
  rw [BitVec.ofInt_toInt, hs, ← Nat.cast_mul, BitVec.ofInt_natCast, BitVec.toNat_ofNat,
    Nat.mod_eq_of_lt (by omega), Nat.mul_comm]

theorem directorySize_eq (ht : 32 * total < 2 ^ 31) : directorySize total = ((32 * total : Nat) : Int) := by
  have hs : sizeofFatDirectoryItem = 32 := rfl
  unfold directorySize
  rw [hs, toInt32_of_bounds (by omega) (by omega)]
  push_cast
  ring

theorem chainHolds_congr (h : SameDisk k k') : ChainHolds k' cluster total ↔ ChainHolds k cluster total := by
  unfold ChainHolds Turn
  simp only [clusterBytes_congr h, chain_congr h]

theorem sameDisk_withItems (k : Kernel) (m : Kmem) (directory items : Addr) (total : Int) :
    SameDisk k (withItems k m directory items total) := ⟨rfl, rfl, rfl⟩

/-- The directory is filled in, and its buffer is one more live block. -/
structure ItemsLoaded (k k' : Kernel) (directory : Addr) (cluster : Int) (total : Nat) (items : Addr) : Prop where
  dir : k'.fatDirs directory = ⟨items, total, 0, 0⟩
  live : k'.heap.live = ⟨items, 32 * total⟩ :: k.heap.live
  bytes : Fits k cluster 0 (32 * total) → ∀ x < 32 * total, k'.mem (items + BitVec.ofNat 32 x) =
    clusterByte k (chain k cluster (x / clusterBytes k)) (x % clusterBytes k)

theorem loadItems_loaded (hsec : k.disk.sector_size = 512) (hspc : 0 < clusterBytes k) (ht : total < 2 ^ 27)
    (hgranted : (kzalloc k.toKmem (32 * total)).2 ≠ 0) (hchain : ChainHolds k cluster total) (directory : Addr) :
    ∃ k' items, loadItems k directory cluster total = some (k', directory) ∧
      ItemsLoaded k k' directory cluster total items := by
  obtain ⟨⟨m, items⟩, hm⟩ : ∃ r, kzalloc k.toKmem (32 * total) = r := ⟨_, rfl⟩
  rw [hm] at hgranted
  have hf := fresh_of_eq hm hgranted
  have hbounds := toInt32_bounds ((total : Int) * sizeofFatDirectoryItem)
  have hsame := sameDisk_withItems k m directory items total
  have hsec' : (withItems k m directory items total).disk.sector_size = 512 := hsec
  have hspc' : 0 < clusterBytes (withItems k m directory items total) := hspc
  have hsize : (directorySize total).toNat < (directorySize total).toNat + 1 := Nat.lt_succ_self _
  obtain ⟨k', res, hread, hres⟩ := readFromStream_status (s := cluster) hsec' hspc' 0 _ hsize
    (by unfold directorySize; omega) items
  have h0 : res = 0 := by
    refine hres.mpr fun j hj => ?_
    rw [Nat.zero_div, Nat.zero_add]
    exact (chainHolds_congr hsame).mpr hchain j hj
  refine ⟨k', items, ?_, ?_⟩
  · unfold loadItems
    dsimp only
    have hroom : (BitVec.ofInt 32 (toInt32 ((total : Int) * sizeofFatDirectoryItem))).toNat = 32 * total :=
      directorySize_room ht
    have hcall : fat16ReadInternal (withItems k m directory items total) cluster 0
        (toInt32 ((total : Int) * sizeofFatDirectoryItem)) items = some (k', res) := hread
    rw [hroom, hm]
    dsimp only
    rw [if_neg hgranted, hcall, h0]
    rfl
  · obtain ⟨m', fs, rfl, -, -⟩ := readInternalFromStream_only (by unfold directorySize; omega) hread
    refine ⟨withItems_directory _ _ _ _ _, hf.live_eq, fun hfit x hx => ?_⟩
    have hfit' := hfit.congr hsame
    rw [directorySize_eq (by have := hfit.offsets; omega), Int.toNat_natCast] at hread
    obtain ⟨k6, res6, hread6, hturns⟩ := readFromStream_spec hsec' hspc' (Nat.lt_succ_self (32 * total)) hfit' items
    rw [hread] at hread6
    cases hread6
    have hb := (hturns.found fun j hj => by
      by_contra hneg
      have := hturns.missing ⟨j, hj, not_le.mp hneg⟩
      omega).2 x hx
    rw [hb, turnByte_congr hsame]
    unfold turnByte
    rw [Nat.zero_div, Nat.zero_add, Nat.zero_mod, Nat.zero_add]

theorem freeDirectory_not_live {a : Addr} : ¬ (fat16FreeDirectory k a).heap.Live a := by
  unfold fat16FreeDirectory
  split
  · rename_i h0
    rw [h0]
    exact k.heap.not_live_zero
  · intro h
    exact (live_free.mp h).2 rfl

theorem loadItems_address {total : Int} (h : loadItems k directory cluster total = some (k', d)) : d = directory := by
  unfold loadItems at h
  dsimp only at h
  split at h
  · cases h
    rfl
  · obtain ⟨r, -, h⟩ := Option.bind_eq_some_iff.mp h
    cases h
    rfl

theorem loadItems_freed (hsec : k.disk.sector_size = 512) (hspc : 0 < clusterBytes k) (ht : total < 2 ^ 27)
    (h : loadItems k directory cluster total = some (k', d)) (hlive : k'.heap.Live d) :
    (kzalloc k.toKmem (32 * total)).2 ≠ 0 ∧ ChainHolds k cluster total := by
  obtain rfl := loadItems_address h
  unfold loadItems at h
  dsimp only at h
  have hroom : (BitVec.ofInt 32 (toInt32 ((total : Int) * sizeofFatDirectoryItem))).toNat = 32 * total :=
    directorySize_room ht
  have hbounds := toInt32_bounds ((total : Int) * sizeofFatDirectoryItem)
  rw [hroom] at h
  obtain ⟨⟨m, items⟩, hm⟩ : ∃ r, kzalloc k.toKmem (32 * total) = r := ⟨_, rfl⟩
  rw [hm] at h ⊢
  dsimp only at h
  split at h
  · cases h
    exact absurd hlive freeDirectory_not_live
  rename_i h0
  refine ⟨h0, ?_⟩
  obtain ⟨⟨k5, res⟩, hread, h⟩ := Option.bind_eq_some_iff.mp h
  obtain ⟨k6, res6, hread6, hres⟩ := readFromStream_status (k := withItems k m d items total) (s := cluster)
    hsec hspc 0 (directorySize total) (Nat.lt_succ_self _) (by unfold directorySize; omega) items
  have heq : some (k5, res) = some (k6, res6) := hread.symm.trans hread6
  cases heq
  by_cases hr : res = 0
  · rw [← chainHolds_congr (sameDisk_withItems k m d items total)]
    intro j hj
    have := hres.mp hr j hj
    rwa [Nat.zero_div, Nat.zero_add] at this
  · dsimp only at h
    rw [if_pos hr] at h
    cases h
    exact absurd hlive freeDirectory_not_live

/-! ## The whole call -/

def afterRecord (k : Kernel) : Kernel := { k with toKmem := (kzalloc k.toKmem sizeofFatDirectory).1 }

def startCluster (k : Kernel) (item : Addr) : Int := fat16GetFirstCluster (afterRecord k).mem item

def countedItems (k : Kernel) (item : Addr) : DirEntries :=
  scanned k.disk (fat16ClusterToSector k.fs_private (startCluster k item) * k.disk.sector_size)

/-- No step fails, and `total` items are counted. -/
structure Succeeds (k : Kernel) (item : Addr) (total : Nat) : Prop where
  subdirectory : itemAttribute k.mem item &&& fatFileSubdirectory ≠ 0
  record : (kzalloc k.toKmem sizeofFatDirectory).2 ≠ 0
  counted : ∃ n < itemPositions, EndsAt (countedItems k item) n ∧ usedCount (countedItems k item) n = total
  buffer : (kzalloc (afterRecord k).toKmem (32 * total)).2 ≠ 0
  clusters : 0 < clusterBytes k
  chain : ChainHolds k (startCluster k item) total

/-- `d` and its buffer are live, and the buffer holds its items: those that lie behind one another
in the clusters, if no position of theirs leaves an `int`. -/
def DirectoryLoaded (k k' : Kernel) (d : Addr) (cluster : Int) (total : Nat) : Prop :=
  ∃ items, k'.fatDirs d = ⟨items, total, 0, 0⟩ ∧
    k'.heap.live = ⟨items, 32 * total⟩ :: ⟨d, sizeofFatDirectory⟩ :: k.heap.live ∧
    (Fits k cluster 0 (32 * total) → ∀ x < 32 * total, k'.mem (items + BitVec.ofNat 32 x) =
      clusterByte k (chain k cluster (x / clusterBytes k)) (x % clusterBytes k))

/-- The call returns: with the directory if no step failed, and else with NULL and nothing taken. -/
def LoadsOrFails (k : Kernel) (item : Addr) : Prop :=
  ∃ k' d, fat16LoadFatDirectory k item = some (k', d) ∧
    (∀ total, Succeeds k item total → DirectoryLoaded k k' d (startCluster k item) total) ∧
    ((∀ total, ¬ Succeeds k item total) → d = 0 ∧ SameLive k k')

theorem load_noDirectory (h : itemAttribute k.mem item &&& fatFileSubdirectory = 0) : LoadsOrFails k item := by
  refine ⟨k, 0, ?_, fun total hs => absurd h hs.subdirectory, fun _ => ⟨rfl, fun b => Iff.rfl⟩⟩
  unfold fat16LoadFatDirectory
  exact if_pos h

theorem load_refused (hsub : itemAttribute k.mem item &&& fatFileSubdirectory ≠ 0)
    (hrecord : (kzalloc k.toKmem sizeofFatDirectory).2 = 0) :
    fat16LoadFatDirectory k item = some (afterRecord k, 0) := by
  have hpair : kzalloc k.toKmem sizeofFatDirectory = ((kzalloc k.toKmem sizeofFatDirectory).1, 0) := by
    rw [← hrecord]
  rw [fat16LoadFatDirectory_eq hpair, if_neg hsub, if_pos rfl]
  rfl

theorem load_noRecord (h : (kzalloc k.toKmem sizeofFatDirectory).2 = 0) : LoadsOrFails k item := by
  by_cases hsub : itemAttribute k.mem item &&& fatFileSubdirectory = 0
  · exact load_noDirectory hsub
  refine ⟨afterRecord k, 0, load_refused hsub h, fun total hs => absurd h hs.record, fun _ => ⟨rfl, fun b => ?_⟩⟩
  rcases kzalloc_cases k.toKmem sizeofFatDirectory with ⟨-, hl, -⟩ | ⟨h0, -⟩
  · rw [show (afterRecord k).heap.live = k.heap.live from hl]
  · exact absurd h h0

theorem Succeeds.unique {total'  : Nat} (h : Succeeds k item total) (h' : Succeeds k item total') : total' = total := by
  obtain ⟨n, -, hend, rfl⟩ := h.counted
  obtain ⟨n', -, hend', rfl⟩ := h'.counted
  rw [hend.unique hend']

theorem getTotalItems_eq {sector : Int} {n : Nat} (hend : EndsAt (scanned k.disk (sector * k.disk.sector_size)) n)
    (hn : n < itemPositions) : ∃ pos, fat16GetTotalItemsForDirectory k sector =
      some (k.setFs fun fs => { fs with directory_stream := pos },
        (usedCount (scanned k.disk (sector * k.disk.sector_size)) n : Int)) := by
  obtain ⟨pos, hscan⟩ := totalItemsLoop_eq hend hn 0
  refine ⟨pos, ?_⟩
  unfold fat16GetTotalItemsForDirectory
  dsimp only
  rw [hscan, Int.zero_add]
  rfl

theorem getTotalItems_counts {sector i : Int} (h : fat16GetTotalItemsForDirectory k sector = some (k', i)) :
    ∃ n < itemPositions, EndsAt (scanned k.disk (sector * k.disk.sector_size)) n ∧
      i = usedCount (scanned k.disk (sector * k.disk.sector_size)) n ∧
      ∃ pos, k' = k.setFs fun fs => { fs with directory_stream := pos } := by
  unfold fat16GetTotalItemsForDirectory at h
  obtain ⟨⟨i', pos⟩, hscan, h⟩ := Option.bind_eq_some_iff.mp h
  obtain ⟨n, hn, hend⟩ := endsAt_of_stops hscan
  obtain ⟨pos', heq⟩ := totalItemsLoop_eq hend hn 0
  rw [heq, Option.some.injEq, Prod.mk.injEq, Int.zero_add] at hscan
  cases h
  exact ⟨n, hn, hend, hscan.1.symm, pos, rfl⟩

theorem load_eq (hsub : itemAttribute k.mem item &&& fatFileSubdirectory ≠ 0)
    (hrecord : (kzalloc k.toKmem sizeofFatDirectory).2 ≠ 0) :
    fat16LoadFatDirectory k item =
      (fat16GetTotalItemsForDirectory (afterRecord k) (fat16ClusterToSector k.fs_private (startCluster k item))).bind
        fun r => loadItems r.1 (kzalloc k.toKmem sizeofFatDirectory).2 (startCluster k item) r.2 := by
  have hpair : kzalloc k.toKmem sizeofFatDirectory =
      ((kzalloc k.toKmem sizeofFatDirectory).1, (kzalloc k.toKmem sizeofFatDirectory).2) := rfl
  rw [fat16LoadFatDirectory_eq hpair, if_neg hsub, if_neg hrecord]
  rfl

theorem load_succeeds (hsec : k.disk.sector_size = 512) (h : Succeeds k item total) : LoadsOrFails k item := by
  obtain ⟨n, hn, hend, hcount⟩ := h.counted
  have ht : total < 2 ^ 27 := by
    have := usedCount_le (countedItems k item) n
    have hmax : itemPositions = 2 ^ 27 := rfl
    omega
  obtain ⟨pos, hscan⟩ := getTotalItems_eq (k := afterRecord k) hend hn
  have hcount' : usedCount (scanned (afterRecord k).disk (fat16ClusterToSector k.fs_private (startCluster k item) *
      (afterRecord k).disk.sector_size)) n = total := hcount
  rw [hcount'] at hscan
  have hsame : SameDisk k ((afterRecord k).setFs fun fs => { fs with directory_stream := pos }) := ⟨rfl, rfl, rfl⟩
  obtain ⟨k', items, hload, hitems⟩ := loadItems_loaded
    (k := (afterRecord k).setFs fun fs => { fs with directory_stream := pos }) hsec h.clusters ht h.buffer
    ((chainHolds_congr hsame).mpr h.chain) (kzalloc k.toKmem sizeofFatDirectory).2
  refine ⟨k', (kzalloc k.toKmem sizeofFatDirectory).2, ?_, fun total' h' => ?_, fun hno => absurd h (hno total)⟩
  · rw [load_eq h.subdirectory h.record, hscan, Option.bind_some]
    exact hload
  · rw [h.unique h']
    refine ⟨items, hitems.dir, ?_, fun hfit x hx => ?_⟩
    · have hrecord : (afterRecord k).heap.live =
          ⟨(kzalloc k.toKmem sizeofFatDirectory).2, sizeofFatDirectory⟩ :: k.heap.live :=
        (kzalloc_fresh h.record).live_eq
      rw [hitems.live, ← hrecord]
      rfl
    · rw [hitems.bytes (hfit.congr hsame) x hx]
      unfold clusterByte
      rw [clusterBytes_congr hsame, chain_congr hsame, clusterPos_congr hsame]
      rfl

theorem load_address (hsub : itemAttribute k.mem item &&& fatFileSubdirectory ≠ 0)
    (hrecord : (kzalloc k.toKmem sizeofFatDirectory).2 ≠ 0) (h : fat16LoadFatDirectory k item = some (k', d)) :
    d = (kzalloc k.toKmem sizeofFatDirectory).2 := by
  rw [load_eq hsub hrecord] at h
  obtain ⟨r, -, h⟩ := Option.bind_eq_some_iff.mp h
  exact loadItems_address h

theorem load_live (hsec : k.disk.sector_size = 512) (hspc : 0 < clusterBytes k)
    (h : fat16LoadFatDirectory k item = some (k', d)) (hlive : k'.heap.Live d) : ∃ total, Succeeds k item total := by
  have hd : d ≠ 0 := fun h0 => k'.heap.not_live_zero (h0 ▸ hlive)
  by_cases hsub : itemAttribute k.mem item &&& fatFileSubdirectory = 0
  · unfold fat16LoadFatDirectory at h
    rw [if_pos hsub, Option.pure_def, Option.some.injEq, Prod.mk.injEq] at h
    exact absurd h.2.symm hd
  by_cases hrecord : (kzalloc k.toKmem sizeofFatDirectory).2 = 0
  · rw [load_refused hsub hrecord, Option.some.injEq, Prod.mk.injEq] at h
    exact absurd h.2.symm hd
  rw [load_eq hsub hrecord] at h
  obtain ⟨⟨k2, i⟩, hscan, h⟩ := Option.bind_eq_some_iff.mp h
  obtain ⟨n, hn, hend, hi, pos, hk2⟩ := getTotalItems_counts hscan
  obtain ⟨total, htotal⟩ : ∃ total, usedCount (countedItems k item) n = total := ⟨_, rfl⟩
  have hi : i = total := hi.trans (congrArg _ htotal)
  have hsame : SameDisk k k2 := by
    rw [hk2]
    exact ⟨rfl, rfl, rfl⟩
  have hmem : k2.toKmem = (afterRecord k).toKmem := by rw [hk2]; rfl
  have hle := usedCount_le (countedItems k item) n
  have hmax : itemPositions = 2 ^ 27 := rfl
  rw [hi] at h
  obtain ⟨hgranted, hchain⟩ := loadItems_freed (by rw [hsame.1, hsec]) (by rwa [clusterBytes_congr hsame]) (by omega)
    h hlive
  rw [hmem] at hgranted
  exact ⟨total, hsub, hrecord, ⟨n, hn, hend, htotal⟩, hgranted, hspc, (chainHolds_congr hsame).mp hchain⟩

/-- For every disk, item and heap: the call ends as it should exactly when it does not
come past its request for the record, or no step behind that fails. -/
theorem fat16LoadFatDirectory_iff (hsec : k.disk.sector_size = 512) (item : Addr) :
    LoadsOrFails k item ↔
      itemAttribute k.mem item &&& fatFileSubdirectory = 0 ∨ (kzalloc k.toKmem sizeofFatDirectory).2 = 0 ∨
        ∃ total, Succeeds k item total := by
  constructor
  · rintro ⟨k', d, hcall, -, hfail⟩
    by_contra hno
    push Not at hno
    obtain ⟨hsub, hrecord, hsteps⟩ := hno
    have hd := load_address hsub hrecord hcall
    exact hrecord (hd ▸ (hfail hsteps).1)
  · rintro (h | h | ⟨total, h⟩)
    · exact load_noDirectory h
    · exact load_noRecord h
    · exact load_succeeds hsec h

/-! ## A heap with room for the record only -/

/-- The item at 0 is a subdirectory, and the second request is refused. -/
def oneRecord : Kernel :=
  { emptyKernel with
    mem := fun a => if a = 11 then 0x10 else 0
    heap := { emptyKmem.heap with answer := fun n => if n = 0 then 0x1000 else 0 } }

theorem oneRecord_fails (total : Nat) : ¬ Succeeds oneRecord 0 total := by
  intro h
  refine h.buffer ?_
  rcases kzalloc_cases (afterRecord oneRecord).toKmem (32 * total) with ⟨h0, -⟩ | ⟨h0, -, -, -, hfit⟩
  · exact h0
  · exact absurd rfl hfit.1.1

theorem load_returns_freed :
    ∃ k', fat16LoadFatDirectory oneRecord 0 = some (k', 0x1000) ∧ ¬ k'.heap.Live 0x1000 ∧
      ¬ LoadsOrFails oneRecord 0 := by
  have hcall : (fat16LoadFatDirectory oneRecord 0).map (fun r => (r.2, r.1.heap.live)) = some (0x1000, []) := by
    decide +kernel
  obtain ⟨⟨k', d⟩, hcall, hd⟩ := Option.map_eq_some_iff.mp hcall
  rw [Prod.mk.injEq] at hd
  obtain ⟨hd, hlive⟩ := hd
  dsimp only at hd hlive
  subst hd
  refine ⟨k', hcall, ?_, ?_⟩
  · rintro ⟨size, hmem⟩
    rw [hlive] at hmem
    exact absurd hmem List.not_mem_nil
  · rintro ⟨k2, d, hcall2, -, hfail⟩
    rw [hcall] at hcall2
    cases hcall2
    exact absurd (hfail oneRecord_fails).1 (by decide)

theorem fat16LoadFatDirectory_iff_oneRecord : LoadsOrFails oneRecord 0 ↔
      itemAttribute oneRecord.mem 0 &&& fatFileSubdirectory = 0 ∨
        (kzalloc oneRecord.toKmem sizeofFatDirectory).2 = 0 ∨ ∃ total, Succeeds oneRecord 0 total :=
  fat16LoadFatDirectory_iff rfl 0

end MultitaskOs.DirectoryLoad
