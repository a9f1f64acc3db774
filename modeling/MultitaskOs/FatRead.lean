import MultitaskOs.Files
import MultitaskOs.Task

/-!
# Reading a file

`fat16_read_internal` reads a cluster's worth at a time, from the offset within
a cluster on. So a read that starts inside a cluster runs over its end.
-/

open Lib Lib.Memory MultitaskOs.Files MultitaskOs.Tasks

namespace MultitaskOs.FatRead

/-! ## The streamer -/

def diskByte (disk : Disk) (p : Int) : Byte := diskReadSector disk (p / sectorSize) (p % sectorSize).toNat

theorem streamerBuf_eq {disk : Disk} {pos : Int} (hpos : 0 ≤ pos) {i : Nat} (hi : pos % sectorSize + i < sectorSize) :
    streamerBuf disk (pos.tdiv sectorSize) (pos.tmod sectorSize + i) = diskByte disk (pos + i) := by
  have hs : sectorSize = 512 := rfl
  have h0 := Int.emod_nonneg pos (show sectorSize ≠ 0 by decide)
  rw [hs] at hi h0
  have hdiv : (pos + i) / sectorSize = pos / sectorSize := by
    rw [hs]
    omega
  have hmod : (pos + i) % sectorSize = pos % sectorSize + i := by
    rw [hs]
    omega
  rw [Int.tdiv_eq_ediv_of_nonneg hpos, Int.tmod_eq_emod_of_nonneg hpos]
  unfold streamerBuf diskByte
  rw [if_pos ⟨by rw [hs]; omega, by rw [hs]; omega⟩, hdiv, hmod]

theorem diskstreamerRead_eq {disk : Disk} {pos total : Int} (hpos : 0 ≤ pos) (htotal : 0 ≤ total)
    (hend : pos + total < 2 ^ 31) :
    diskstreamerRead disk pos total =
      ((List.range total.toNat).map fun (i : Nat) => diskByte disk (pos + i), pos + total) := by
  have hs : sectorSize = 512 := rfl
  induction pos, total using diskstreamerRead.induct disk with
  | case1 pos total offset hover total_to_read rest pos' heq ih =>
    have hmod : offset = pos % sectorSize := Int.tmod_eq_emod_of_nonneg hpos
    have h0 := Int.emod_nonneg pos (show sectorSize ≠ 0 by decide)
    have hlt := Int.emod_lt_of_pos pos (show (0 : Int) < sectorSize by decide)
    have hread : total_to_read = sectorSize - offset := by
      show total - (offset + total - sectorSize) = _
      ring
    have hadd : toInt32 (pos + total_to_read) = pos + total_to_read := toInt32_of_bounds (by omega) (by omega)
    rw [hadd] at ih
    unfold diskstreamerRead
    dsimp only
    rw [if_pos hover, hadd, ih (by omega) (by omega) (by omega), Prod.mk.injEq]
    have hsplit : total.toNat = total_to_read.toNat + (total - total_to_read).toNat := by omega
    refine ⟨?_, by omega⟩
    rw [hsplit, List.range_add, List.map_append, List.map_map]
    refine congrArg₂ _ ?_ ?_
    · refine List.map_congr_left fun i hi => streamerBuf_eq hpos ?_
      have := List.mem_range.mp hi
      omega
    · refine List.map_congr_left fun i _ => ?_
      rw [Function.comp_apply, Nat.cast_add, Int.toNat_of_nonneg (by omega), ← Int.add_assoc]
  | case2 pos total offset hover =>
    have hmod : offset = pos % sectorSize := Int.tmod_eq_emod_of_nonneg hpos
    unfold diskstreamerRead
    dsimp only
    rw [if_neg hover, toInt32_of_bounds (by omega) (by omega)]
    refine Prod.ext ?_ rfl
    refine List.map_congr_left fun i hi => streamerBuf_eq hpos ?_
    have := List.mem_range.mp hi
    omega

/-! ## The chain of a file -/

variable {k k' : Kernel} {s : Int}

/-- The cluster, or the error, that `fat16_get_cluster_for_offset` yields `i` clusters on. -/
def chain (k : Kernel) (s : Int) (i : Nat) : Int := (clusterLoop i k s).2

def clusterBytes (k : Kernel) : Nat := k.fs_private.header.sectors_per_cluster * 512

def clusterPos (k : Kernel) (c : Int) : Int :=
  (k.fs_private.root_directory.ending_sector_pos + (c - 2) * k.fs_private.header.sectors_per_cluster) * sectorSize

def clusterByte (k : Kernel) (c : Int) (x : Nat) : Byte := diskByte k.disk (clusterPos k c + x)

/-- The same volume on the same disk. -/
def SameDisk (k k' : Kernel) : Prop := k'.disk = k.disk ∧ SameVolume k.fs_private k'.fs_private

theorem fat16GetFatEntry_congr (h : SameDisk k k') (c : Int) :
    (fat16GetFatEntry k' c).2 = (fat16GetFatEntry k c).2 := by
  unfold fat16GetFatEntry
  rw [h.1, h.2.1]

theorem sameDisk_fatEntry (k : Kernel) (c : Int) : SameDisk k (fat16GetFatEntry k c).1 := ⟨rfl, rfl, rfl⟩

theorem SameDisk.trans {k'' : Kernel} (h : SameDisk k k') (h' : SameDisk k' k'') : SameDisk k k'' :=
  ⟨h'.1.trans h.1, h'.2.1.trans h.2.1, h'.2.2.trans h.2.2⟩

theorem sameDisk_of_buffer {out : Addr} {n : Nat} (h : OnlyBuffer k k' out n) : SameDisk k k' := by
  obtain ⟨_, _, rfl, hv, -⟩ := h
  exact ⟨rfl, hv⟩

theorem SameDisk.symm (h : SameDisk k k') : SameDisk k' k := ⟨h.1.symm, h.2.1.symm, h.2.2.symm⟩

theorem chain_congr (h : SameDisk k k') (s : Int) (i : Nat) : chain k' s i = chain k s i := by
  unfold chain
  induction i generalizing k k' s with
  | zero => rfl
  | succ i ih =>
    unfold clusterLoop
    dsimp only
    rw [fat16GetFatEntry_congr h]
    split_ifs
    · rfl
    · rfl
    · rfl
    · rfl
    · exact ih (((sameDisk_fatEntry k s).symm.trans h).trans (sameDisk_fatEntry k' s)) _

theorem clusterPos_congr (h : SameDisk k k') (c : Int) : clusterPos k' c = clusterPos k c := by
  unfold clusterPos
  rw [h.2.1, h.2.2]

theorem sizeOfClusterBytes_eq (hsec : k.disk.sector_size = 512) : sizeOfClusterBytes k = clusterBytes k := by
  unfold sizeOfClusterBytes clusterBytes
  rw [hsec]
  push_cast
  rfl

theorem fat16GetClusterForOffset_eq (hsec : k.disk.sector_size = 512) (hspc : 0 < clusterBytes k) (s : Int)
    (offset : Nat) : ∃ k1, fat16GetClusterForOffset k s offset = some (k1, chain k s (offset / clusterBytes k)) ∧
      ∃ p, k1 = k.setFs fun fs => { fs with fat_read_stream := p } := by
  have h : fat16GetClusterForOffset k s offset = some (clusterLoop (offset / clusterBytes k) k s) := by
    unfold fat16GetClusterForOffset
    rw [sizeOfClusterBytes_eq hsec]
    dsimp only
    rw [if_neg (by omega), ← Int.ofNat_tdiv]
    rfl
  obtain ⟨p, hp⟩ := clusterLoop_only (offset / clusterBytes k) k s
  exact ⟨_, h, p, hp⟩

/-! ## One cluster at a time -/

theorem clusterToSector_eq {c : Int} (h0 : 0 ≤ clusterPos k c) (hlt : clusterPos k c < 2 ^ 31) :
    fat16ClusterToSector k.fs_private c * 512 = clusterPos k c := by
  unfold clusterPos sectorSize at *
  unfold fat16ClusterToSector
  rw [toInt32_of_bounds (by omega) (by omega)]

theorem readFromStream_missing (hsec : k.disk.sector_size = 512) (hspc : 0 < clusterBytes k) {n offset : Nat}
    (total : Int) (out : Addr) (hc : chain k s (offset / clusterBytes k) < 0) :
    ∃ k', k'.mem = k.mem ∧ fat16ReadInternalFromStream (n + 1) k s offset total out =
      some (k', chain k s (offset / clusterBytes k)) := by
  obtain ⟨k1, hk1, p, rfl⟩ := fat16GetClusterForOffset_eq hsec hspc s offset
  refine ⟨k.setFs fun fs => { fs with fat_read_stream := p }, rfl, ?_⟩
  unfold fat16ReadInternalFromStream
  dsimp only
  rw [hk1]
  exact if_pos hc

/-- The bytes that one turn reads: from the offset within the cluster on, a cluster's worth. -/
def turnBytes (k : Kernel) (s : Int) (offset total : Nat) : List Byte :=
  (List.range (min (clusterBytes k) total)).map fun i =>
    clusterByte k (chain k s (offset / clusterBytes k)) (offset % clusterBytes k + i)

theorem readFromStream_step (hsec : k.disk.sector_size = 512) (hspc : 0 < clusterBytes k) {n offset : Nat}
    (total : Int) (out : Addr) (hc : 0 ≤ chain k s (offset / clusterBytes k)) :
    ∃ k1, SameDisk k k1 ∧
      k1.mem = storeBytes k.mem out (diskstreamerRead k.disk (toInt32
        (fat16ClusterToSector k.fs_private (chain k s (offset / clusterBytes k)) * 512 +
          (offset % clusterBytes k : Nat))) (min (clusterBytes k) total)).1 ∧
      fat16ReadInternalFromStream (n + 1) k s offset total out =
        if clusterBytes k < total then
          fat16ReadInternalFromStream n k1 s (toInt32 (offset + clusterBytes k : Nat)) (total - clusterBytes k)
            (out + BitVec.ofNat 32 (clusterBytes k))
        else some (k1, 0) := by
  obtain ⟨k1, hk1, p, rfl⟩ := fat16GetClusterForOffset_eq hsec hspc s offset
  have hsize := sizeOfClusterBytes_eq hsec
  generalize chain k s (offset / clusterBytes k) = c at *
  have hmod : (offset : Int).tmod (clusterBytes k : Int) = ((offset % clusterBytes k : Nat) : Int) :=
    (Int.ofNat_tmod _ _).symm
  have hread : (if total > clusterBytes k then (clusterBytes k : Int) else total) =
      min (clusterBytes k : Int) total := by
    split <;> omega
  have hsector : ((512 : Nat) : Int) = 512 := rfl
  obtain ⟨⟨bytes, pos⟩, hr⟩ : ∃ r, diskstreamerRead k.disk (toInt32 (fat16ClusterToSector k.fs_private c * 512 +
    ((offset % clusterBytes k : Nat) : Int))) (min (clusterBytes k) total) = r := ⟨_, rfl⟩
  refine ⟨{ k with
    mem := storeBytes k.mem out bytes
    fs_private := { k.fs_private with fat_read_stream := p, cluster_read_stream := pos } }, ⟨rfl, rfl, rfl⟩,
    by rw [hr], ?_⟩
  have hcall : diskstreamerRead (k.setFs fun fs => { fs with fat_read_stream := p }).disk
      (toInt32 (fat16ClusterToSector (k.setFs fun fs => { fs with fat_read_stream := p }).fs_private c *
        ((k.setFs fun fs => { fs with fat_read_stream := p }).disk.sector_size : Int) +
          ((offset % clusterBytes k : Nat) : Int))) (min (clusterBytes k) total) = (bytes, pos) := by
    rw [← hr, ← hsector, ← hsec]
    rfl
  conv_lhs => unfold fat16ReadInternalFromStream
  rw [hk1]
  simp only [Option.bind_eq_bind, Option.bind_some]
  rw [if_neg (by omega), hsize, hmod, hread, hcall]
  dsimp only
  by_cases hmore : clusterBytes k < total
  · have hmin : min (clusterBytes k : Int) total = clusterBytes k := by omega
    rw [if_pos (by omega), if_pos hmore, hmin, BitVec.ofInt_natCast, ← Nat.cast_add]
    rfl
  · rw [if_neg (by omega), if_neg hmore]
    rfl

theorem readFromStream_turn (hsec : k.disk.sector_size = 512) (hspc : 0 < clusterBytes k) {n offset total : Nat}
    (out : Addr) (hc : 0 ≤ chain k s (offset / clusterBytes k))
    (h0 : 0 ≤ clusterPos k (chain k s (offset / clusterBytes k)))
    (hlt : clusterPos k (chain k s (offset / clusterBytes k)) + (offset % clusterBytes k : Nat) +
      (min (clusterBytes k) total : Nat) < 2 ^ 31) (hend : offset + total < 2 ^ 31) :
    ∃ k1, SameDisk k k1 ∧ k1.mem = storeBytes k.mem out (turnBytes k s offset total) ∧
      fat16ReadInternalFromStream (n + 1) k s offset total out =
        if clusterBytes k < total then
          fat16ReadInternalFromStream n k1 s (offset + clusterBytes k : Nat) (total - clusterBytes k : Nat)
            (out + BitVec.ofNat 32 (clusterBytes k))
        else some (k1, 0) := by
  obtain ⟨k1, hsame, hmem, hcall⟩ := readFromStream_step hsec hspc (n := n) total out hc
  refine ⟨k1, hsame, ?_, ?_⟩
  · rw [hmem, clusterToSector_eq h0 (by omega), toInt32_of_bounds (by omega) (by omega), ← Nat.cast_min,
      diskstreamerRead_eq (by omega) (by omega) (by omega), turnBytes]
    refine congrArg _ (List.map_congr_left fun i _ => ?_)
    rw [clusterByte, Nat.cast_add, Int.add_assoc]
  · rw [hcall]
    by_cases hmore : clusterBytes k < total
    · have hleft : (total : Int) - (clusterBytes k : Nat) = ((total - clusterBytes k : Nat) : Int) := by omega
      rw [if_pos (by omega), if_pos hmore, toInt32_of_bounds (by omega) (by omega), hleft]
    · rw [if_neg (by omega), if_neg hmore]

/-! ## The whole read -/

/-- The read takes a `j`-th turn, if none before it fails. -/
def Turn (k : Kernel) (total j : Nat) : Prop := j = 0 ∨ j * clusterBytes k < total

theorem clusterBytes_congr (h : SameDisk k k') : clusterBytes k' = clusterBytes k := by
  unfold clusterBytes
  rw [h.2.1]

theorem turn_last {total : Nat} (hmore : ¬ clusterBytes k < total) (j : Nat) : Turn k total j ↔ j = 0 := by
  refine ⟨fun hj => ?_, Or.inl⟩
  by_contra h0
  have hlt := hj.resolve_left h0
  have := Nat.le_mul_of_pos_left (clusterBytes k) (Nat.pos_of_ne_zero h0)
  omega

theorem turn_next {k1 : Kernel} (hsame : SameDisk k k1) {total : Nat} (hmore : clusterBytes k < total) (j : Nat) :
    Turn k1 (total - clusterBytes k) j ↔ Turn k total (j + 1) := by
  unfold Turn
  rw [clusterBytes_congr hsame, Nat.succ_mul]
  constructor
  · rintro (rfl | h) <;> omega
  · rintro (h | h) <;> omega

theorem chain_next {k1 : Kernel} (hspc : 0 < clusterBytes k) (hsame : SameDisk k k1) (s : Int) (offset j : Nat) :
    chain k1 s ((offset + clusterBytes k) / clusterBytes k1 + j) = chain k s (offset / clusterBytes k + (j + 1)) := by
  rw [clusterBytes_congr hsame, Nat.add_div_right _ hspc, chain_congr hsame, Nat.add_assoc, Nat.add_comm 1 j]

/-- The positions that the turns read do not leave an `int`. -/
structure Fits (k : Kernel) (s : Int) (offset total : Nat) : Prop where
  offsets : offset + total < 2 ^ 31
  positions : ∀ j, Turn k total j → 0 ≤ chain k s (offset / clusterBytes k + j) →
    0 ≤ clusterPos k (chain k s (offset / clusterBytes k + j)) ∧
      clusterPos k (chain k s (offset / clusterBytes k + j)) + (offset % clusterBytes k : Nat) +
        (min (clusterBytes k) (total - j * clusterBytes k) : Nat) < 2 ^ 31

theorem Fits.congr {offset total : Nat} (h : Fits k s offset total) (hd : SameDisk k k') : Fits k' s offset total := by
  refine ⟨h.offsets, fun j hj hc => ?_⟩
  unfold Turn at hj
  rw [clusterBytes_congr hd, chain_congr hd] at hc ⊢
  rw [clusterBytes_congr hd] at hj
  rw [clusterPos_congr hd]
  exact h.positions j hj hc

/-- The clusters of the turns up to that of byte `t` are there. -/
def Reached (k : Kernel) (s : Int) (offset t : Nat) : Prop :=
  ∀ j ≤ t / clusterBytes k, 0 ≤ chain k s (offset / clusterBytes k + j)

def turnByte (k : Kernel) (s : Int) (offset t : Nat) : Byte :=
  clusterByte k (chain k s (offset / clusterBytes k + t / clusterBytes k))
    (offset % clusterBytes k + t % clusterBytes k)

theorem Reached.mono {offset t u : Nat} (h : Reached k s offset t) (hu : u ≤ t) : Reached k s offset u :=
  fun j hj => h j (hj.trans (Nat.div_le_div_right hu))

theorem reached_congr {offset t : Nat} (h : SameDisk k k') : Reached k' s offset t ↔ Reached k s offset t := by
  unfold Reached
  simp only [clusterBytes_congr h, chain_congr h]

theorem turnByte_congr {offset t : Nat} (h : SameDisk k k') : turnByte k' s offset t = turnByte k s offset t := by
  unfold turnByte clusterByte
  rw [clusterBytes_congr h, chain_congr h, clusterPos_congr h, h.1]

/-- What the turns do: the bytes that follow the offset in each cluster, until one is not there, and
an error then. -/
structure ReadTurns (k : Kernel) (s : Int) (offset total : Nat) (out : Addr) (k' : Kernel) (res : Int) : Prop where
  stored : ∀ t < total, Reached k s offset t → k'.mem (out + BitVec.ofNat 32 t) = turnByte k s offset t
  kept : ∀ t < total, ¬ Reached k s offset t → k'.mem (out + BitVec.ofNat 32 t) = k.mem (out + BitVec.ofNat 32 t)
  success : (∀ j, Turn k total j → 0 ≤ chain k s (offset / clusterBytes k + j)) → res = 0
  missing : (∃ j, Turn k total j ∧ chain k s (offset / clusterBytes k + j) < 0) → res < 0

theorem ReadTurns.found {k' : Kernel} {res : Int} {offset total : Nat} {out : Addr}
    (h : ReadTurns k s offset total out k' res)
    (hall : ∀ j, Turn k total j → 0 ≤ chain k s (offset / clusterBytes k + j)) :
    res = 0 ∧ ∀ t < total, k'.mem (out + BitVec.ofNat 32 t) = turnByte k s offset t := by
  refine ⟨h.success hall, fun t ht => h.stored t ht fun j hj => hall j ?_⟩
  unfold Turn
  have h1 := Nat.mul_le_mul_right (clusterBytes k) hj
  have h2 := Nat.div_mul_le_self t (clusterBytes k)
  omega

theorem storeBytes_turnBytes {offset total t : Nat} (m : Mem) (out : Addr) (ht : t < min (clusterBytes k) total)
    (hend : total < 2 ^ 31) : storeBytes m out (turnBytes k s offset total) (out + BitVec.ofNat 32 t) =
      turnByte k s offset t := by
  have hlen : (turnBytes k s offset total).length = min (clusterBytes k) total := by simp [turnBytes]
  rw [storeBytes_at (by omega) (by omega), turnByte, Nat.div_eq_of_lt (a := t) (by omega),
    Nat.mod_eq_of_lt (a := t) (by omega)]
  simp [turnBytes]

theorem reached_first {offset t : Nat} (hc : 0 ≤ chain k s (offset / clusterBytes k)) (ht : t < clusterBytes k) :
    Reached k s offset t := by
  intro j hj
  rw [Nat.div_eq_of_lt ht] at hj
  rwa [Nat.le_zero.mp hj]

theorem reached_next (hspc : 0 < clusterBytes k) {k1 : Kernel} (hsame : SameDisk k k1) {offset t : Nat}
    (hc : 0 ≤ chain k s (offset / clusterBytes k)) (ht : clusterBytes k ≤ t) :
    Reached k1 s (offset + clusterBytes k) (t - clusterBytes k) ↔ Reached k s offset t := by
  have hdiv : t / clusterBytes k = (t - clusterBytes k) / clusterBytes k + 1 := by
    rw [← Nat.add_div_right _ hspc, Nat.sub_add_cancel ht]
  have hchain := chain_next hspc hsame s offset
  unfold Reached
  rw [hdiv, clusterBytes_congr hsame]
  constructor
  · intro h j hj
    cases j with
    | zero => exact hc
    | succ j => rw [← hchain, clusterBytes_congr hsame]; exact h j (by omega)
  · intro h j hj
    have := hchain j
    rw [clusterBytes_congr hsame] at this
    rw [this]
    exact h (j + 1) (by omega)

theorem turnByte_next (hspc : 0 < clusterBytes k) {k1 : Kernel} (hsame : SameDisk k k1) {offset t : Nat}
    (ht : clusterBytes k ≤ t) :
    turnByte k1 s (offset + clusterBytes k) (t - clusterBytes k) = turnByte k s offset t := by
  have hdiv : t / clusterBytes k = (t - clusterBytes k) / clusterBytes k + 1 := by
    rw [← Nat.add_div_right _ hspc, Nat.sub_add_cancel ht]
  unfold turnByte clusterByte
  rw [clusterBytes_congr hsame, chain_congr hsame, clusterPos_congr hsame, hsame.1, Nat.add_div_right _ hspc,
    Nat.add_mod_right, ← Nat.mod_eq_sub_mod ht, hdiv, Nat.add_right_comm, ← Nat.add_assoc]

theorem readFromStream_spec (hsec : k.disk.sector_size = 512) (hspc : 0 < clusterBytes k) {n offset total : Nat}
    (hn : total < n) (hfit : Fits k s offset total) (out : Addr) :
    ∃ k' res, fat16ReadInternalFromStream n k s offset total out = some (k', res) ∧
      ReadTurns k s offset total out k' res := by
  induction n generalizing k offset total out with
  | zero => exact absurd hn (Nat.not_lt_zero _)
  | succ n ih =>
    have hzero : Turn k total 0 := Or.inl rfl
    have hend := hfit.offsets
    by_cases hc : chain k s (offset / clusterBytes k) < 0
    · obtain ⟨k', hmem, hk'⟩ := readFromStream_missing hsec hspc (n := n) (total : Int) out hc
      have hno : ∀ t, ¬ Reached k s offset t := fun t h => absurd (h 0 (Nat.zero_le _)) (not_le.mpr hc)
      exact ⟨k', _, hk', fun t _ h => absurd h (hno t), fun t _ _ => by rw [hmem],
        fun hall => absurd (hall 0 hzero) (not_le.mpr hc), fun _ => hc⟩
    have hc0 := not_lt.mp hc
    have hpos := hfit.positions 0 hzero hc0
    rw [Nat.zero_mul, Nat.add_zero, Nat.sub_zero] at hpos
    obtain ⟨k1, hsame, hmem, hturn⟩ := readFromStream_turn hsec hspc (n := n) out hc0 hpos.1 hpos.2 hend
    rw [hturn]
    by_cases hmore : clusterBytes k < total
    · rw [if_pos hmore]
      have hcb := clusterBytes_congr hsame
      have ho : (offset + clusterBytes k) % clusterBytes k = offset % clusterBytes k := Nat.add_mod_right _ _
      have hnext := turn_next hsame hmore
      have hchain := chain_next hspc hsame s offset
      have hfit1 : Fits k1 s (offset + clusterBytes k) (total - clusterBytes k) := by
        refine ⟨by omega, fun j hj hcj => ?_⟩
        rw [hchain] at hcj ⊢
        rw [clusterPos_congr hsame, hcb, ho, Nat.sub_sub, Nat.add_comm (clusterBytes k), ← Nat.succ_mul]
        exact hfit.positions (j + 1) ((hnext j).mp hj) hcj
      obtain ⟨k', res, heq, hrest⟩ := ih (by rw [hsame.1, hsec]) (by rw [hcb]; exact hspc) (by omega) hfit1
        (out + BitVec.ofNat 32 (clusterBytes k))
      have haddr : ∀ t, clusterBytes k ≤ t → out + BitVec.ofNat 32 (clusterBytes k) +
          BitVec.ofNat 32 (t - clusterBytes k) = out + BitVec.ofNat 32 t := fun t ht => by
        rw [BitVec.add_assoc, ← BitVec.ofNat_add, Nat.add_sub_cancel' ht]
      refine ⟨k', res, heq, fun t ht hr => ?_, fun t ht hr => ?_, fun hall => ?_, ?_⟩
      · by_cases hfirst : t < clusterBytes k
        · -- the later turns write behind the first
          obtain ⟨m, fs, rfl, -, hm⟩ := readInternalFromStream_only (by omega) heq
          have hb : storeBytes k.mem out (turnBytes k s offset total) (out + BitVec.ofNat 32 t) = _ :=
            storeBytes_turnBytes k.mem out (by omega) (by omega)
          rw [← hb, ← hmem]
          refine hm _ ?_
          unfold Within
          bv_omega
        · have hge := not_lt.mp hfirst
          have hb := hrest.stored (t - clusterBytes k) (by omega) ((reached_next hspc hsame hc0 hge).mpr hr)
          rwa [haddr t hge, turnByte_next hspc hsame hge] at hb
      · have hge : clusterBytes k ≤ t := not_lt.mp fun hlt => hr (reached_first hc0 hlt)
        have hb := hrest.kept (t - clusterBytes k) (by omega) (mt (reached_next hspc hsame hc0 hge).mp hr)
        rw [haddr t hge, hmem] at hb
        rw [hb]
        apply storeBytes_of_not_within
        rw [turnBytes, List.length_map, List.length_range]
        unfold Within
        bv_omega
      · exact hrest.success fun j hj => by
          rw [hchain]
          exact hall (j + 1) ((hnext j).mp hj)
      · rintro ⟨j, hj, hcj⟩
        cases j with
        | zero => exact absurd hcj hc
        | succ j => exact hrest.missing ⟨j, (hnext j).mpr hj, by rwa [hchain]⟩
    · rw [if_neg hmore]
      refine ⟨k1, 0, rfl, fun t ht _ => ?_, fun t ht hr => ?_, fun _ => rfl, ?_⟩
      · rw [hmem, storeBytes_turnBytes _ _ (by omega) (by omega)]
      · exact absurd (reached_first hc0 (by omega)) hr
      · rintro ⟨j, hj, hcj⟩
        rw [(turn_last hmore j).mp hj] at hcj
        exact absurd hcj hc

theorem readFromStream_status (hsec : k.disk.sector_size = 512) (hspc : 0 < clusterBytes k) {n : Nat}
    (offset : Nat) (total : Int) (hn : total.toNat < n) (hend : offset + total < 2 ^ 31) (out : Addr) :
    ∃ k' res, fat16ReadInternalFromStream n k s offset total out = some (k', res) ∧
      (res = 0 ↔ ∀ j, Turn k total.toNat j → 0 ≤ chain k s (offset / clusterBytes k + j)) := by
  induction n generalizing k offset total out with
  | zero => exact absurd hn (Nat.not_lt_zero _)
  | succ n ih =>
    by_cases hc : chain k s (offset / clusterBytes k) < 0
    · obtain ⟨k', -, hk'⟩ := readFromStream_missing hsec hspc (n := n) total out hc
      refine ⟨k', _, hk', fun h0 => absurd h0 (ne_of_lt hc), fun hall => ?_⟩
      exact absurd (hall 0 (Or.inl rfl)) (not_le.mpr hc)
    have hc0 := not_lt.mp hc
    obtain ⟨k1, hsame, -, hturn⟩ := readFromStream_step hsec hspc (n := n) total out hc0
    rw [hturn]
    by_cases hmore : clusterBytes k < total
    · have hleft : (total - clusterBytes k).toNat = total.toNat - clusterBytes k := by omega
      obtain ⟨k', res, heq, hres⟩ := ih (k := k1) (by rw [hsame.1, hsec])
        (by rw [clusterBytes_congr hsame]; exact hspc) (offset + clusterBytes k) (total - clusterBytes k)
        (by omega) (by push_cast; omega) (out + BitVec.ofNat 32 (clusterBytes k))
      rw [if_pos hmore, toInt32_of_bounds (by omega) (by omega)]
      refine ⟨k', res, heq, hres.trans ?_⟩
      rw [hleft]
      constructor
      · intro hall j hj
        cases j with
        | zero => exact hc0
        | succ j =>
          have := hall j ((turn_next hsame (by omega) j).mpr hj)
          rwa [chain_next hspc hsame] at this
      · intro hall j hj
        rw [chain_next hspc hsame]
        exact hall (j + 1) ((turn_next hsame (by omega) j).mp hj)
    · rw [if_neg hmore]
      refine ⟨k1, 0, rfl, fun _ j hj => ?_, fun _ => rfl⟩
      rw [(turn_last (by omega) j).mp hj]
      exact hc0

/-! ## Where the chain is followed -/

/-- Cluster `i` of the chain holds a byte of the range. -/
def HoldsByte (k : Kernel) (offset total i : Nat) : Prop := ∃ j < total, (offset + j) / clusterBytes k = i

/-- The call returned: with the bytes of the chain if the clusters of the range are there, and
with an error if one is not. -/
def ReadExact (k : Kernel) (s : Int) (offset total : Nat) (out : Addr) (r : Option (Kernel × Int)) : Prop :=
  ∃ k' res, r = some (k', res) ∧
    ((∀ i, HoldsByte k offset total i → 0 ≤ chain k s i) → res = 0 ∧ ∀ j < total,
      k'.mem (out + BitVec.ofNat 32 j) =
        clusterByte k (chain k s ((offset + j) / clusterBytes k)) ((offset + j) % clusterBytes k)) ∧
    ((∃ i, HoldsByte k offset total i ∧ chain k s i < 0) → res < 0)

/-- A read of no bytes starts in a cluster of the chain. And where a read that found its clusters
runs over the end of one, the chain goes on, with the bytes that follow on the disk. -/
def Followed (k : Kernel) (s : Int) (offset total : Nat) : Prop :=
  (total = 0 → 0 ≤ chain k s (offset / clusterBytes k)) ∧
  ((∀ j, j * clusterBytes k < total → 0 ≤ chain k s (offset / clusterBytes k + j)) →
    ∀ j x, x < offset % clusterBytes k →
      j * clusterBytes k + (clusterBytes k - offset % clusterBytes k) + x < total →
      0 ≤ chain k s (offset / clusterBytes k + j + 1) ∧
        clusterByte k (chain k s (offset / clusterBytes k + j)) (clusterBytes k + x) =
          clusterByte k (chain k s (offset / clusterBytes k + j + 1)) x)

variable {offset total : Nat} {out : Addr}

/-- Byte `t` of the range: in the cluster of its turn, or in the one behind it. -/
theorem byte_place (hspc : 0 < clusterBytes k) (offset t : Nat) :
    (offset % clusterBytes k + t % clusterBytes k < clusterBytes k ∧
      (offset + t) / clusterBytes k = offset / clusterBytes k + t / clusterBytes k ∧
      (offset + t) % clusterBytes k = offset % clusterBytes k + t % clusterBytes k) ∨
    ∃ x < offset % clusterBytes k, offset % clusterBytes k + t % clusterBytes k = clusterBytes k + x ∧
      (offset + t) / clusterBytes k = offset / clusterBytes k + t / clusterBytes k + 1 ∧
      (offset + t) % clusterBytes k = x := by
  have ho := Nat.mod_lt offset hspc
  have ht := Nat.mod_lt t hspc
  have hdiv := Nat.add_div (a := offset) (b := t) hspc
  have hmod := Nat.add_mod_eq_ite (m := offset) (n := t) (k := clusterBytes k)
  by_cases hover : clusterBytes k ≤ offset % clusterBytes k + t % clusterBytes k
  · rw [if_pos hover] at hdiv hmod
    exact Or.inr ⟨offset % clusterBytes k + t % clusterBytes k - clusterBytes k, by omega, by omega, hdiv, hmod⟩
  · rw [if_neg hover] at hdiv hmod
    exact Or.inl ⟨by omega, hdiv, hmod⟩

theorem runOver_place (hspc : 0 < clusterBytes k) {j x : Nat} (hx : x < offset % clusterBytes k) :
    (j * clusterBytes k + (clusterBytes k - offset % clusterBytes k) + x) / clusterBytes k = j ∧
      offset % clusterBytes k +
        (j * clusterBytes k + (clusterBytes k - offset % clusterBytes k) + x) % clusterBytes k =
          clusterBytes k + x := by
  have ho := Nat.mod_lt offset hspc
  have hlt : clusterBytes k - offset % clusterBytes k + x < clusterBytes k := by omega
  rw [Nat.add_assoc, Nat.add_comm (j * clusterBytes k), Nat.add_mul_div_right _ _ hspc, Nat.div_eq_of_lt hlt,
    Nat.add_mul_mod_self_right, Nat.mod_eq_of_lt hlt]
  omega

theorem followed_of_exact (hspc : 0 < clusterBytes k) {k' : Kernel} {res : Int}
    (ht : ReadTurns k s offset total out k' res)
    (h : ReadExact k s offset total out (some (k', res))) : Followed k s offset total := by
  obtain ⟨_, _, he, hfound, hmissing⟩ := h
  cases he
  refine ⟨fun h0 => ?_, fun hturns j x hx hlt => ?_⟩
  · by_contra hneg
    have hres := ht.missing ⟨0, Or.inl rfl, by simpa using hneg⟩
    have hzero := (hfound fun i ⟨j, hj, _⟩ => absurd hj (by omega)).1
    omega
  · have hall : ∀ j, Turn k total j → 0 ≤ chain k s (offset / clusterBytes k + j) := by
      rintro j (rfl | hj)
      · exact hturns 0 (by omega)
      · exact hturns j hj
    obtain ⟨rfl, hbytes⟩ := ht.found hall
    have hexist : ∀ i, HoldsByte k offset total i → 0 ≤ chain k s i := by
      intro i hi
      by_contra hneg
      exact absurd (hmissing ⟨i, hi, not_le.mp hneg⟩) (lt_irrefl _)
    obtain ⟨hdiv, hmod⟩ := runOver_place (k := k) (j := j) hspc hx
    have hread := hbytes _ hlt
    rw [turnByte, hdiv, hmod] at hread
    have hspec := (hfound hexist).2 _ hlt
    rcases byte_place hspc offset (j * clusterBytes k + (clusterBytes k - offset % clusterBytes k) + x)
      with ⟨hin, -⟩ | ⟨y, -, hy, hpd, hpm⟩
    · omega
    · obtain rfl : x = y := by omega
      rw [hpd, hpm, hdiv] at hspec
      rw [hdiv] at hpd
      exact ⟨hpd ▸ hexist _ ⟨_, hlt, rfl⟩, hread.symm.trans hspec⟩

theorem exact_of_followed (hspc : 0 < clusterBytes k) {k' : Kernel} {res : Int}
    (ht : ReadTurns k s offset total out k' res) (h : Followed k s offset total) :
    ReadExact k s offset total out (some (k', res)) := by
  refine ⟨k', res, rfl, fun hexist => ?_, fun ⟨i, ⟨t, hlt, hi⟩, hneg⟩ => ?_⟩
  · have hturns : ∀ j, j * clusterBytes k < total → 0 ≤ chain k s (offset / clusterBytes k + j) := by
      intro j hj
      refine hexist _ ⟨j * clusterBytes k, hj, ?_⟩
      rw [Nat.add_mul_div_right _ _ hspc]
    have hall : ∀ j, Turn k total j → 0 ≤ chain k s (offset / clusterBytes k + j) := by
      rintro j (rfl | hj)
      · rcases Nat.eq_zero_or_pos total with h0 | h0
        · exact h.1 h0
        · exact hturns 0 (by omega)
      · exact hturns j hj
    obtain ⟨rfl, hbytes⟩ := ht.found hall
    refine ⟨rfl, fun t hlt => ?_⟩
    rw [hbytes t hlt, turnByte]
    have hsplit := Nat.div_add_mod' t (clusterBytes k)
    rcases byte_place hspc offset t with ⟨-, hdiv, hmod⟩ | ⟨x, hx, hover, hdiv, hmod⟩
    · rw [hdiv, hmod]
    · have ho := Nat.mod_lt offset hspc
      rw [hdiv, hmod, hover]
      exact (h.2 hturns (t / clusterBytes k) x hx (by omega)).2
  · by_contra hres
    have hall : ∀ j, Turn k total j → 0 ≤ chain k s (offset / clusterBytes k + j) := by
      intro j hj
      by_contra hc
      exact hres (ht.missing ⟨j, hj, not_le.mp hc⟩)
    have hsplit := Nat.div_add_mod' t (clusterBytes k)
    rcases byte_place hspc offset t with ⟨-, hdiv, -⟩ | ⟨x, hx, hover, hdiv, -⟩
    · have := hall (t / clusterBytes k) (Or.inr (by omega))
      rw [← hdiv, hi] at this
      omega
    · have ho := Nat.mod_lt offset hspc
      have := (h.2 (fun j hj => hall j (Or.inr hj)) (t / clusterBytes k) x hx (by omega)).1
      rw [← hdiv, hi] at this
      omega

/-- For every volume, chain, offset and length whose positions fit an `int`: the bytes and the
status are those of the chain exactly when the chain is followed wherever the read leaves a
cluster. -/
theorem fat16ReadInternal_exact_iff (hsec : k.disk.sector_size = 512) (hspc : 0 < clusterBytes k)
    (hfit : Fits k s offset total) (out : Addr) :
    ReadExact k s offset total out (fat16ReadInternal k s offset total out) ↔ Followed k s offset total := by
  obtain ⟨k', res, heq, ht⟩ := readFromStream_spec hsec hspc (Nat.lt_succ_self total) hfit out
  have hcall : fat16ReadInternal k s offset total out = some (k', res) := heq
  rw [hcall]
  exact ⟨followed_of_exact hspc ht, exact_of_followed hspc ht⟩

/-! ## A file in two clusters that do not lie side by side -/

/-- Cluster 2 is sector 100 and cluster 5, which follows it in the chain, is sector 103. Every byte
of a sector is its number. -/
def fragmented : Kernel :=
  { emptyKernel with
    disk := { emptyKernel.disk with
      sector := fun _ lba i => if lba = 4 then if i = 0 then 5 else 0 else lba.setWidth 8 }
    fs_private := { emptyKernel.fs_private with
      header := ⟨1, 1, 1, 1, 1⟩
      root_directory := ⟨0, 0, 99, 100⟩ } }

theorem clusterBytes_fragmented : clusterBytes fragmented = 512 := rfl

theorem fits_fragmented : Fits fragmented 2 511 2 := by
  refine ⟨by decide, ?_⟩
  rintro j (rfl | hj)
  · exact fun _ => by decide +kernel
  · rw [clusterBytes_fragmented] at hj
    obtain rfl : j = 0 := by omega
    exact fun _ => by decide +kernel

theorem fat16ReadInternal_exact_fragmented :
    ReadExact fragmented 2 511 2 0 (fat16ReadInternal fragmented 2 (511 : Nat) (2 : Nat) 0) ↔
      Followed fragmented 2 511 2 :=
  fat16ReadInternal_exact_iff rfl (by decide) fits_fragmented 0

/-- The last byte of cluster 2 is followed by one of sector 101, not by the first of cluster 5. -/
theorem read_runs_over_cluster :
    ¬ ReadExact fragmented 2 511 2 0 (fat16ReadInternal fragmented 2 (511 : Nat) (2 : Nat) 0) := by
  have h : (fat16ReadInternal fragmented 2 (511 : Nat) (2 : Nat) 0).map (fun r => (r.2, r.1.mem 1)) =
      some (0, 101) := by decide +kernel
  rintro ⟨k', res, heq, hfound, -⟩
  rw [heq, Option.map_some, Option.some.injEq, Prod.mk.injEq] at h
  have hchain : ∀ i, HoldsByte fragmented 511 2 i → 0 ≤ chain fragmented 2 i := by
    rintro i ⟨j, hj, rfl⟩
    interval_cases j <;> decide +kernel
  have hbyte := (hfound hchain).2 1 (by omega)
  exact absurd (h.2.symm.trans hbyte) (by decide +kernel)

end MultitaskOs.FatRead
