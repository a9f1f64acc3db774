import MultitaskOs.RootRegion
import Mathlib.Order.CompletePartialOrder

/-!
# The data area

It starts behind the full sectors of the root directory. So the root's last
sector, if it is not full, is the first of cluster 2.
-/

open Lib Lib.Memory MultitaskOs.Files MultitaskOs.FatRead MultitaskOs.FatLookup MultitaskOs.Descriptors
  MultitaskOs.Streamer MultitaskOs.RootRegion MultitaskOs.Tasks

namespace MultitaskOs.DataArea

variable {k k0 k1 : Kernel} {s c : Int}

/-! ## Where it starts -/

def rootSector (k : Kernel) : Nat :=
  k.fs_private.header.fat_copies * k.fs_private.header.sectors_per_fat + k.fs_private.header.reserved_sectors

/-- What a later read finds of the root directory and of the header. -/
structure RootPlaced (k0 k : Kernel) : Prop where
  ending : k.fs_private.root_directory.ending_sector_pos = (rootSector k0 + 32 * rootEntries k0 / 512 : Nat)
  header : k.fs_private.header = k0.fs_private.header

theorem root_placed (hsec : k0.disk.sector_size = 512) (h : fat16GetRootDirectory k0 = some (k1, 0)) :
    RootPlaced k0 k1 := by
  obtain ⟨total, pos, -, m, dir, -, hend⟩ := rootDirectory_cases h
  cases hend with
  | read pos' h0 =>
    refine ⟨?_, rfl⟩
    dsimp only [Kernel.setFs]
    rw [hsec]
    unfold rootSector
    push_cast
    rfl

theorem RootPlaced.ending_nonneg (h : RootPlaced k0 k) : 0 ≤ k.fs_private.root_directory.ending_sector_pos := by
  rw [h.ending]
  positivity

theorem RootPlaced.later (h : RootPlaced k0 k1) (hd : SameDisk k1 k) : RootPlaced k0 k :=
  ⟨by rw [hd.2.2, h.ending], by rw [hd.2.1, h.header]⟩

/-! ## The sectors of clusters and of the root -/

/-- The sectors of cluster `c`, by the one that the driver yields for it. -/
def clusterSectors (fs : FatPrivate) (c : Int) : Set Int :=
  {p | fat16ClusterToSector fs c ≤ p ∧ p < fat16ClusterToSector fs c + fs.header.sectors_per_cluster}

/-- The sectors that hold a byte of an entry of the root. -/
def rootSectors (k : Kernel) : Set Int := {p | ∃ x < 32 * rootEntries k, p = (rootSector k + x / 512 : Nat)}

/-- The sectors of the cluster are numbered without overflow. -/
def NoOverflow (fs : FatPrivate) (c : Int) : Prop :=
  fs.root_directory.ending_sector_pos + (c - 2) * fs.header.sectors_per_cluster + fs.header.sectors_per_cluster < 2 ^ 31

/-- No cluster shares a sector with the root, and no two share one. -/
structure Apart (k0 : Kernel) (fs : FatPrivate) : Prop where
  root : ∀ c ≥ 2, NoOverflow fs c → Disjoint (clusterSectors fs c) (rootSectors k0)
  clusters : ∀ c ≥ 2, ∀ c' ≥ 2, c ≠ c' → NoOverflow fs c → NoOverflow fs c' →
    Disjoint (clusterSectors fs c) (clusterSectors fs c')

theorem clusterOffset_nonneg (fs : FatPrivate) (hc : 2 ≤ c) : 0 ≤ (c - 2) * (fs.header.sectors_per_cluster : Int) := by
  have := Int.sub_nonneg.mpr hc
  positivity

theorem clusterToSector_exact {fs : FatPrivate} (h0 : 0 ≤ fs.root_directory.ending_sector_pos) (hc : 2 ≤ c)
    (hno : NoOverflow fs c) :
    fat16ClusterToSector fs c = fs.root_directory.ending_sector_pos + (c - 2) * fs.header.sectors_per_cluster := by
  have hmul := clusterOffset_nonneg fs hc
  unfold NoOverflow at hno
  unfold fat16ClusterToSector
  exact toInt32_of_bounds (by omega) (by omega)

theorem clusters_apart {fs : FatPrivate} (h0 : 0 ≤ fs.root_directory.ending_sector_pos) {c c' : Int} (hc : 2 ≤ c)
    (hlt : c < c') (hno : NoOverflow fs c) (hno' : NoOverflow fs c') :
    Disjoint (clusterSectors fs c) (clusterSectors fs c') := by
  rw [Set.disjoint_left]
  rintro p ⟨-, hp⟩ ⟨hp', -⟩
  rw [clusterToSector_exact h0 hc hno] at hp
  rw [clusterToSector_exact h0 (by omega) hno'] at hp'
  have hnext : (c - 2 + 1) * (fs.header.sectors_per_cluster : Int) ≤ (c' - 2) * fs.header.sectors_per_cluster :=
    mul_le_mul_of_nonneg_right (by omega) (by positivity)
  rw [add_mul, one_mul] at hnext
  omega

theorem disjoint_root (h : RootPlaced k0 k) (hfull : rootEntries k0 % 16 = 0) (hc : 2 ≤ c)
    (hno : NoOverflow k.fs_private c) : Disjoint (clusterSectors k.fs_private c) (rootSectors k0) := by
  have hmul := clusterOffset_nonneg k.fs_private hc
  rw [Set.disjoint_left]
  rintro p ⟨hp, -⟩ ⟨x, hx, rfl⟩
  rw [clusterToSector_exact h.ending_nonneg hc hno, h.ending] at hp
  omega

/-- For every header: no cluster overlaps the root or another one exactly when the root fills its
sectors. -/
theorem data_apart_iff (hsec : k0.disk.sector_size = 512) (h : fat16GetRootDirectory k0 = some (k1, 0))
    (hspc : 1 ≤ k0.fs_private.header.sectors_per_cluster) (hno : NoOverflow k1.fs_private 2) :
    Apart k0 k1.fs_private ↔ rootEntries k0 % 16 = 0 := by
  have hplaced := root_placed hsec h
  have h0 := hplaced.ending_nonneg
  constructor
  · intro hapart
    by_contra hpartial
    -- the last entry lies in the sector that cluster 2 starts with
    have hdisj := Set.disjoint_left.mp (hapart.root 2 le_rfl hno)
    have hfirst := clusterToSector_exact h0 le_rfl hno
    rw [hplaced.ending] at hfirst
    refine @hdisj (rootSector k0 + 32 * rootEntries k0 / 512 : Nat) ⟨?_, ?_⟩ ⟨32 * rootEntries k0 - 1, ?_, ?_⟩
    · rw [hfirst]
      omega
    · rw [hfirst, hplaced.header]
      omega
    · omega
    · congr 2
      omega
  · intro hfull
    refine ⟨fun c hc hno => disjoint_root hplaced hfull hc hno, fun c hc c' hc' hne hno hno' => ?_⟩
    rcases lt_or_gt_of_ne hne with hlt | hlt
    · exact clusters_apart h0 hc hlt hno hno'
    · exact (clusters_apart h0 hc' hlt hno' hno).symm

theorem rootVolume_accepted :
    fat16GetRootDirectory (rootVolume 2 [entryA]) = some (rootLoaded (rootVolume 2 [entryA]), 0) :=
  rootLoaded_eq (by decide +kernel)

theorem ending_rootVolume : (rootLoaded (rootVolume 2 [entryA])).fs_private.root_directory.ending_sector_pos = 2 :=
  (root_placed rfl rootVolume_accepted).ending

theorem noOverflow_rootVolume : NoOverflow (rootLoaded (rootVolume 2 [entryA])).fs_private 2 := by
  unfold NoOverflow
  rw [ending_rootVolume, (root_placed rfl rootVolume_accepted).header]
  decide

theorem data_apart_rootVolume :
    Apart (rootVolume 2 [entryA]) (rootLoaded (rootVolume 2 [entryA])).fs_private ↔
      rootEntries (rootVolume 2 [entryA]) % 16 = 0 :=
  data_apart_iff rfl rootVolume_accepted (by decide) noOverflow_rootVolume

/-- A root of two entries lies on sector 2, and so does cluster 2. -/
theorem cluster_overlaps_root :
    ¬ Apart (rootVolume 2 [entryA]) (rootLoaded (rootVolume 2 [entryA])).fs_private := by
  intro h
  have hdisj := Set.disjoint_left.mp (h.root 2 le_rfl noOverflow_rootVolume)
  have hfirst := clusterToSector_exact (ending_rootVolume ▸ by decide) le_rfl noOverflow_rootVolume
  rw [ending_rootVolume] at hfirst
  refine @hdisj 2 ⟨?_, ?_⟩ ⟨0, by decide, by decide⟩
  · rw [hfirst]
    omega
  · rw [hfirst, (root_placed rfl rootVolume_accepted).header]
    decide

/-! ## The position of a read -/

def startingPos (k : Kernel) (cluster_to_use offset_from_cluster : Int) : Int :=
  let starting_sector := fat16ClusterToSector k.fs_private cluster_to_use
  toInt32 (starting_sector * k.disk.sector_size + offset_from_cluster)

/-- The first turn of a read fills the buffer by a `diskstreamer_read` at `pos`, and the rest is
left to the next. -/
def ReadsFrom (k : Kernel) (s : Int) (offset : Nat) (pos : Int) : Prop :=
  ∀ (n : Nat) (total : Int) (out : Addr), total < 2 ^ 31 → ∃ k1, SameDisk k k1 ∧
    k1.mem = (diskstreamerCall k.disk k.mem pos out (min (clusterBytes k) total)).mem ∧
    fat16ReadInternalFromStream (n + 1) k s offset total out =
      if clusterBytes k < total then
        fat16ReadInternalFromStream n k1 s (toInt32 (offset + clusterBytes k : Nat)) (total - clusterBytes k)
          (out + BitVec.ofNat 32 (clusterBytes k))
      else some (k1, 0)

theorem reads_from (hsec : k.disk.sector_size = 512) (hspc : 0 < clusterBytes k) {offset : Nat}
    (hc : 0 ≤ chain k s (offset / clusterBytes k)) :
    ReadsFrom k s offset (startingPos k (chain k s (offset / clusterBytes k)) (offset % clusterBytes k : Nat)) := by
  intro n total out htotal
  obtain ⟨k1, hsame, hmem, hcall⟩ := readFromStream_step hsec hspc (n := n) total out hc
  refine ⟨k1, hsame, ?_, hcall⟩
  obtain ⟨-, hstored, -⟩ := call_eq k.disk (startingPos k (chain k s (offset / clusterBytes k))
    (offset % clusterBytes k : Nat)) (min (clusterBytes k) total) (by omega) k.mem out
  rw [hmem, hstored]
  unfold startingPos
  rw [hsec]
  rfl

/-- The position is the exact one, and the first sector asked for holds it. -/
structure ReadsExactly (k : Kernel) (c : Int) (x : Nat) : Prop where
  seek : startingPos k c x = clusterPos k c + x
  nonneg : 0 ≤ startingPos k c x
  sector : ∀ m out total, ∃ rest,
    (diskstreamerCall k.disk m (startingPos k c x) out total).sectors = (clusterPos k c + x) / 512 :: rest
  byte : diskByte k.disk (startingPos k c x) = imageByte k.disk (clusterPos k c + x).toNat

theorem first_sector {disk : Disk} {pos : Int} (hpos : 0 ≤ pos) (m : Mem) (out : Addr) (total : Int) :
    ∃ rest, (diskstreamerCall disk m pos out total).sectors = pos / 512 :: rest := by
  have hs : sectorSize = 512 := rfl
  have hdiv : pos.tdiv sectorSize = pos / 512 := by rw [hs, Int.tdiv_eq_ediv_of_nonneg hpos]
  by_cases h : sectorSize ≤ pos.tmod sectorSize + total
  · rw [call_more h, hdiv]
    exact ⟨_, rfl⟩
  · rw [call_last h, hdiv]
    exact ⟨_, rfl⟩

theorem startingPos_eq (hsec : k.disk.sector_size = 512) (c : Int) (x : Nat) :
    startingPos k c x = toInt32 (clusterPos k c + x) := by
  unfold startingPos clusterPos fat16ClusterToSector sectorSize toInt32
  rw [hsec]
  simp only [BitVec.toInt_ofInt]
  rw [← Int.bmod_add_bmod, Nat.cast_ofNat, Int.bmod_mul_bmod, Int.bmod_add_bmod]

theorem clusterPos_nonneg (h0 : 0 ≤ k.fs_private.root_directory.ending_sector_pos) (hc : 2 ≤ c) :
    0 ≤ clusterPos k c := by
  have hmul := clusterOffset_nonneg k.fs_private hc
  unfold clusterPos sectorSize
  omega

theorem readsExactly_iff (hsec : k.disk.sector_size = 512) (hpos : 0 ≤ clusterPos k c) (x : Nat) :
    ReadsExactly k c x ↔ clusterPos k c + x < 2 ^ 31 := by
  have hstart := startingPos_eq hsec c x
  have hbounds := toInt32_bounds (clusterPos k c + x)
  constructor
  · intro h
    have := h.seek
    omega
  · intro hlt
    have hexact : startingPos k c x = clusterPos k c + x := by
      rw [hstart, toInt32_of_bounds (by omega) hlt]
    refine ⟨hexact, by omega, fun m out total => ?_, ?_⟩
    · rw [hexact]
      exact first_sector (by omega) m out total
    · rw [hexact, ← diskByte_eq_image (by omega), Int.toNat_of_nonneg (by omega)]

/-- For every header, and every cluster that a turn of a read comes to: it reads at `starting_pos`, and
that is the exact position exactly when this one is below 2^31. -/
theorem read_position_iff (hsec : k0.disk.sector_size = 512) (h : fat16GetRootDirectory k0 = some (k1, 0))
    (hd : SameDisk k1 k) (hspc : 1 ≤ k0.fs_private.header.sectors_per_cluster) {offset : Nat}
    (hc : 2 ≤ chain k s (offset / clusterBytes k)) :
    ReadsFrom k s offset
        (startingPos k (chain k s (offset / clusterBytes k)) (offset % clusterBytes k : Nat)) ∧
      (ReadsExactly k (chain k s (offset / clusterBytes k)) (offset % clusterBytes k) ↔
        clusterPos k (chain k s (offset / clusterBytes k)) + (offset % clusterBytes k : Nat) < 2 ^ 31) := by
  have hplaced := (root_placed hsec h).later hd
  have hsec' : k.disk.sector_size = 512 := by rw [hd.1, (rootDirectory_spec h).disk, hsec]
  have hclusters : 0 < clusterBytes k := by
    unfold clusterBytes
    rw [hplaced.header]
    omega
  refine ⟨reads_from hsec' hclusters (by omega), readsExactly_iff hsec' (clusterPos_nonneg hplaced.ending_nonneg hc) _⟩

def bootVolume : Kernel :=
  { emptyKernel with fs_private := { emptyKernel.fs_private with header := ⟨0x80, 200, 2, 0x40, 0x100⟩ } }

theorem bootVolume_accepted : fat16GetRootDirectory bootVolume = some (rootLoaded bootVolume, 0) :=
  rootLoaded_eq (by decide +kernel)

theorem read_position_bootVolume :
    ReadsFrom (rootLoaded bootVolume) 2 0 (startingPos (rootLoaded bootVolume)
        (chain (rootLoaded bootVolume) 2 (0 / clusterBytes (rootLoaded bootVolume)))
        (0 % clusterBytes (rootLoaded bootVolume) : Nat)) ∧
      (ReadsExactly (rootLoaded bootVolume) (chain (rootLoaded bootVolume) 2 (0 / clusterBytes (rootLoaded bootVolume)))
          (0 % clusterBytes (rootLoaded bootVolume)) ↔
        clusterPos (rootLoaded bootVolume)
            (chain (rootLoaded bootVolume) 2 (0 / clusterBytes (rootLoaded bootVolume))) +
          (0 % clusterBytes (rootLoaded bootVolume) : Nat) < 2 ^ 31) :=
  read_position_iff rfl bootVolume_accepted ⟨rfl, rfl, rfl⟩ (by decide) (by rw [Nat.zero_div]; exact le_rfl)

theorem clusterPos_bootVolume (c : Int) : clusterPos (rootLoaded bootVolume) c = (716 + (c - 2) * 128) * 512 := by
  have hplaced := root_placed rfl bootVolume_accepted
  unfold clusterPos
  rw [hplaced.ending, hplaced.header]
  rfl

/-- Cluster 0x8002 is read from below 0. -/
theorem cluster_8002_wraps : clusterPos (rootLoaded bootVolume) 0x8002 = 2147850240 ∧
    startingPos (rootLoaded bootVolume) 0x8002 (0 : Nat) = -2147117056 ∧
    ¬ ReadsExactly (rootLoaded bootVolume) 0x8002 0 := by
  have hpos := clusterPos_bootVolume 0x8002
  have hsec : (rootLoaded bootVolume).disk.sector_size = 512 := by
    rw [(rootDirectory_spec bootVolume_accepted).disk]
    rfl
  have hstart : startingPos (rootLoaded bootVolume) 0x8002 (0 : Nat) = -2147117056 := by
    rw [startingPos_eq hsec, hpos]
    decide
  refine ⟨by rw [hpos]; rfl, hstart, fun h => ?_⟩
  have := h.nonneg
  omega

end MultitaskOs.DataArea
