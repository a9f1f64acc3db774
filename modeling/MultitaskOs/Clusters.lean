import MultitaskOs.Streamer

/-!
# The table of clusters

An entry is read from the product of the table's position and the entry's
offset, not from their sum. And the walk along a chain looks for the markers of
a 12-bit table, so it follows those of a 16-bit one.
-/

open Lib Lib.Memory MultitaskOs.Files MultitaskOs.FatRead MultitaskOs.Streamer MultitaskOs.Tasks

namespace MultitaskOs.Clusters

variable {k : Kernel} {s : Int} {n : Nat}

/-! ## An entry -/

def wordAt (disk : Disk) (p : Int) : BitVec 16 := diskByte disk (p + 1) ++ diskByte disk p

def reserved (k : Kernel) : Nat := k.fs_private.header.reserved_sectors

/-- At the start of a sector, below 0 too, a read of two bytes is one of that sector. -/
theorem read_word {disk : Disk} {p : Int} (hp : p % sectorSize = 0) :
    (diskstreamerRead disk p 2).1 = [diskByte disk p, diskByte disk (p + 1)] := by
  have hs : sectorSize = 512 := rfl
  rw [hs] at hp
  have hdvd : (512 : Int) ∣ p := Int.dvd_of_emod_eq_zero hp
  have hmod : p.tmod sectorSize = 0 := by rw [hs, Int.tmod_eq_zero_of_dvd hdvd]
  have hdiv : p.tdiv sectorSize = p / sectorSize := by rw [hs, Int.tdiv_eq_ediv_of_dvd hdvd]
  have hnext : (p + 1) / 512 = p / 512 ∧ (p + 1) % 512 = 1 := by omega
  unfold diskstreamerRead
  rw [hmod, hdiv, if_neg (by decide)]
  unfold streamerBuf diskByte
  rw [hs, hnext.1, hnext.2, hp]
  rfl

theorem fatEntry_eq (hsec : k.disk.sector_size = 512) (c : Nat) :
    (fat16GetFatEntry k c).2 = (wordAt k.disk (toInt32 ((reserved k * 512 * (2 * c) : Nat) : Int))).toNat := by
  have hs : sectorSize = 512 := rfl
  have hpos : ((reserved k * 512 * (2 * c) : Nat) : Int) =
      ((k.fs_private.header.reserved_sectors * k.disk.sector_size : Nat) : Int) * ((c : Int) * 2) := by
    unfold reserved
    rw [hsec]
    push_cast
    ring
  have hmul : reserved k * 512 * (2 * c) = 512 * (reserved k * (2 * c)) := by ring
  have hsector : toInt32 ((reserved k * 512 * (2 * c) : Nat) : Int) % sectorSize = 0 := by
    unfold toInt32
    rw [BitVec.toInt_ofInt, Int.bmod_def, hs, hmul]
    split <;> omega
  unfold fat16GetFatEntry
  dsimp only
  rw [← hpos, read_word hsector]
  rfl

/-- A disk on which byte `p` is 1, and every other byte 0. -/
def oneAt (disk : Disk) (p : Nat) : Disk :=
  { disk with sector := fun _ lba i => if lba.toNat * 512 + i = p then 1 else 0 }

theorem diskByte_oneAt {disk : Disk} {p q : Nat} (hq : q < 2 ^ 31) :
    diskByte (oneAt disk p) q = if q = p then 1 else 0 := by
  have hmod : (BitVec.ofNat 24 (q / 512)).toNat = q / 512 := by
    rw [BitVec.toNat_ofNat, Nat.mod_eq_of_lt (by omega)]
  rw [diskByte_eq_image hq]
  unfold imageByte oneAt
  dsimp only
  rw [hmod, Nat.div_add_mod' q 512]

theorem offsets_agree_iff {r c : Nat} : r * 512 * (2 * c) = r * 512 + 2 * c ↔ r = 0 ∧ c = 0 := by
  constructor
  · intro heq
    rcases Nat.eq_zero_or_pos r with rfl | hr
    · omega
    · rcases Nat.eq_zero_or_pos c with rfl | hc
      · omega
      · nlinarith
  · rintro ⟨rfl, rfl⟩
    rfl

theorem eq_of_wordAt_oneAt {disk : Disk} {p q : Nat} (hp : p + 1 < 2 ^ 31) (hq : q + 1 < 2 ^ 31) (heven : p % 2 = q % 2)
    (h : wordAt (oneAt disk p) p = wordAt (oneAt disk p) q) : p = q := by
  by_contra hne
  unfold wordAt at h
  rw [← Nat.cast_succ, ← Nat.cast_succ, diskByte_oneAt (by omega), diskByte_oneAt (by omega), diskByte_oneAt (by omega),
    diskByte_oneAt (by omega), if_pos rfl, if_neg (Nat.succ_ne_self p), if_neg (Ne.symm hne), if_neg (by omega)] at h
  exact absurd h (by decide)

/-- For every image, header and cluster: the entry is the word that lies in the table exactly when
that word is the one at the product. Where the product fits an `int`, every image has it so only
without reserved sectors, and for cluster 0 alone: there the two lie at one place. -/
theorem fat16GetFatEntry_iff (hsec : k.disk.sector_size = 512) {c : Nat} (hc : c < 65536) (hr : reserved k < 65536) :
    ((fat16GetFatEntry k c).2 = (wordAt k.disk (reserved k * 512 + 2 * c : Nat)).toNat ↔
      wordAt k.disk (toInt32 (reserved k * 512 * (2 * c) : Nat)) = wordAt k.disk (reserved k * 512 + 2 * c : Nat)) ∧
    (reserved k * 512 * (2 * c) < 2 ^ 31 →
      ((∀ disk, disk.sector_size = 512 →
        (fat16GetFatEntry { k with disk } c).2 = (wordAt disk (reserved k * 512 + 2 * c : Nat)).toNat) ↔
      reserved k = 0 ∧ c = 0)) := by
  refine ⟨?_, fun hfit => ?_⟩
  · rw [fatEntry_eq hsec, Nat.cast_inj, BitVec.toNat_inj]
  have hread : ∀ disk, disk.sector_size = 512 → (fat16GetFatEntry { k with disk } c).2 =
      (wordAt disk (reserved k * 512 * (2 * c) : Nat)).toNat := by
    intro disk hdisk
    rw [fatEntry_eq hdisk, toInt32_of_bounds (by omega) (by exact_mod_cast hfit)]
    rfl
  constructor
  · -- a byte of 1 at the product is not found at the sum
    intro hall
    have hword := hall (oneAt k.disk (reserved k * 512 * (2 * c))) hsec
    rw [hread (oneAt k.disk (reserved k * 512 * (2 * c))) hsec] at hword
    have hmul : reserved k * 512 * (2 * c) = 1024 * (reserved k * c) := by ring
    exact offsets_agree_iff.mp (eq_of_wordAt_oneAt (by omega) (by omega) (by omega)
      (BitVec.toNat_inj.mp (Nat.cast_inj.mp hword)))
  · intro hzero disk hdisk
    rw [hread disk hdisk, offsets_agree_iff.mpr hzero]

theorem fat16GetFatEntry_fragmented :
    ((fat16GetFatEntry fragmented (2 : Nat)).2 = (wordAt fragmented.disk (1 * 512 + 2 * 2 : Nat)).toNat ↔
      wordAt fragmented.disk (toInt32 (1 * 512 * (2 * 2) : Nat)) = wordAt fragmented.disk (1 * 512 + 2 * 2 : Nat)) ∧
    (1 * 512 * (2 * 2) < 2 ^ 31 →
      ((∀ disk, disk.sector_size = 512 →
        (fat16GetFatEntry { fragmented with disk } (2 : Nat)).2 = (wordAt disk (1 * 512 + 2 * 2 : Nat)).toNat) ↔
      1 = 0 ∧ 2 = 0)) :=
  fat16GetFatEntry_iff (k := fragmented) rfl (c := 2) (by decide) (by decide)

/-- With one reserved sector, the entry of cluster 2 is read from sector 4, not from sector 1. -/
theorem fat_entry_at_product :
    ¬ (fat16GetFatEntry fragmented (2 : Nat)).2 = (wordAt fragmented.disk (1 * 512 + 2 * 2 : Nat)).toNat := by
  decide +kernel

/-! ## The walk along a chain -/

/-- Free, reserved, bad, or the end of a chain. -/
def IsMarker (entry : Int) : Prop := entry = 0 ∨ (0xFFF0 ≤ entry ∧ entry ≤ 0xFFFF)

/-- What the loop compares an entry with. -/
def Refused (entry : Int) : Prop :=
  entry = 0xFF8 ∨ entry = 0xFFF ∨ entry = fat16BadSector ∨ entry = 0xFF0 ∨ entry = 0xFF6 ∨ entry = 0

/-- An entry that the loop takes for what it is not. -/
def Mistaken (entry : Int) : Prop := ¬ (IsMarker entry ↔ Refused entry)

theorem mistaken_iff {entry : Int} : Mistaken entry ↔ (0xFFF0 ≤ entry ∧ entry ≤ 0xFFFF) ∨
    entry = 0xFF0 ∨ entry = 0xFF6 ∨ entry = 0xFF7 ∨ entry = 0xFF8 ∨ entry = 0xFFF := by
  unfold Mistaken IsMarker Refused fat16BadSector
  constructor
  · intro h
    by_contra hno
    exact h (by omega)
  · omega

def successor (k : Kernel) : Nat → Int → Int
  | 0, c => c
  | n + 1, c => successor k n (fat16GetFatEntry k c).2

/-- The cluster that `n` entries lead to, or the error that one of them is. -/
def Walked (k : Kernel) (s : Int) (n : Nat) (c : Int) : Prop :=
  ((∀ j < n, ¬ IsMarker (successor k (j + 1) s)) → c = successor k n s) ∧
  ((∃ j < n, IsMarker (successor k (j + 1) s)) → c = - EIO)

/-- The call returned what the entries lead to, and so does each turn of its loop: after `i` turns
it stands at `chain k s i`. -/
def WalkExact (k : Kernel) (s : Int) (offset : Nat) (r : Option (Kernel × Int)) : Prop :=
  ∃ k' c, r = some (k', c) ∧ Walked k s (offset / clusterBytes k) c ∧
    ∀ i < offset / clusterBytes k, Walked k s i (chain k s i)

theorem entry_bounds (k : Kernel) (c : Int) : 0 ≤ (fat16GetFatEntry k c).2 ∧ (fat16GetFatEntry k c).2 ≤ 0xFFFF := by
  unfold fat16GetFatEntry
  dsimp only
  generalize ((diskstreamerRead _ _ _).1.getD 1 0 ++ (diskstreamerRead _ _ _).1.getD 0 0 : BitVec 16) = w
  omega

theorem chain_zero (k : Kernel) (s : Int) : chain k s 0 = s := rfl

theorem chain_refused (h : Refused (fat16GetFatEntry k s).2) (n : Nat) : chain k s (n + 1) = - EIO := by
  unfold Refused at h
  unfold chain clusterLoop
  dsimp only
  split_ifs <;> first | rfl | omega

theorem chain_succ (h : ¬ Refused (fat16GetFatEntry k s).2) (n : Nat) :
    chain k s (n + 1) = chain k (fat16GetFatEntry k s).2 n := by
  have hc := chain_congr (sameDisk_fatEntry k s) (fat16GetFatEntry k s).2 n
  unfold Refused at h
  rw [← hc]
  unfold chain
  conv_lhs => unfold clusterLoop
  dsimp only
  rw [if_neg (by tauto), if_neg (by tauto), if_neg (by tauto), if_neg (by tauto)]

theorem walked_zero (k : Kernel) (s : Int) : Walked k s 0 (chain k s 0) :=
  ⟨fun _ => rfl, fun ⟨j, hj, _⟩ => absurd hj (Nat.not_lt_zero j)⟩

theorem walked_succ (h : ¬ IsMarker (fat16GetFatEntry k s).2) {c : Int} :
    Walked k s (n + 1) c ↔ Walked k (fat16GetFatEntry k s).2 n c := by
  have hall : (∃ j < n + 1, IsMarker (successor k (j + 1) s)) ↔
      ∃ j < n, IsMarker (successor k (j + 1) (fat16GetFatEntry k s).2) := by
    constructor
    · rintro ⟨j, hj, hm⟩
      cases j with
      | zero => exact absurd hm h
      | succ j => exact ⟨j, by omega, hm⟩
    · rintro ⟨j, hj, hm⟩
      exact ⟨j + 1, by omega, hm⟩
  have hno : (∀ j < n + 1, ¬ IsMarker (successor k (j + 1) s)) ↔
      ∀ j < n, ¬ IsMarker (successor k (j + 1) (fat16GetFatEntry k s).2) := by
    have := not_congr hall
    push Not at this
    exact this
  unfold Walked
  rw [hall, hno]
  rfl

theorem walked_marker (h : IsMarker (fat16GetFatEntry k s).2) {c : Int} : Walked k s (n + 1) c ↔ c = - EIO := by
  constructor
  · exact fun hw => hw.2 ⟨0, by omega, h⟩
  · exact fun hc => ⟨fun hno => absurd h (hno 0 (by omega)), fun _ => hc⟩

/-- No entry up to the first marker is mistaken. -/
def Plain (k : Kernel) (s : Int) (n : Nat) : Prop :=
  ∀ i < n, (∀ j < i, ¬ IsMarker (successor k (j + 1) s)) → ¬ Mistaken (successor k (i + 1) s)

theorem plain_succ (h : ¬ IsMarker (fat16GetFatEntry k s).2) :
    Plain k s (n + 1) ↔ ¬ Mistaken (fat16GetFatEntry k s).2 ∧ Plain k (fat16GetFatEntry k s).2 n := by
  constructor
  · refine fun hp => ⟨hp 0 (by omega) fun j hj => absurd hj (Nat.not_lt_zero j), fun i hi hno => ?_⟩
    refine hp (i + 1) (by omega) fun j hj => ?_
    cases j with
    | zero => exact h
    | succ j => exact hno j (by omega)
  · rintro ⟨h0, hp⟩ i hi hno
    cases i with
    | zero => exact h0
    | succ i => exact hp i (by omega) fun j hj => hno (j + 1) (by omega)

theorem walked_of_plain (h : Plain k s n) : Walked k s n (chain k s n) := by
  induction n generalizing s with
  | zero => exact walked_zero k s
  | succ n ih =>
    have hfirst : ¬ Mistaken (fat16GetFatEntry k s).2 := h 0 (by omega) fun j hj => absurd hj (Nat.not_lt_zero j)
    have hiff := not_not.mp hfirst
    by_cases hm : IsMarker (fat16GetFatEntry k s).2
    · rw [walked_marker hm]
      exact chain_refused (hiff.mp hm) n
    · rw [walked_succ hm, chain_succ (fun hr => hm (hiff.mpr hr))]
      exact ih ((plain_succ hm).mp h).2

theorem plain_of_walked (h : ∀ i ≤ n, Walked k s i (chain k s i)) : Plain k s n := by
  induction n generalizing s with
  | zero => exact fun i hi => absurd hi (Nat.not_lt_zero i)
  | succ n ih =>
    have hone := h 1 (by omega)
    have hbounds := entry_bounds k s
    have hsingle : ¬ Mistaken (fat16GetFatEntry k s).2 := by
      refine fun hmis => hmis ⟨fun hm => ?_, fun hr => ?_⟩
      · by_contra hr
        rw [walked_marker hm, chain_succ hr, chain_zero] at hone
        exact absurd (hone ▸ hbounds.1) (by decide)
      · by_contra hm
        rw [walked_succ hm, chain_refused hr] at hone
        have := hone.1 fun j hj => absurd hj (Nat.not_lt_zero j)
        exact absurd (this.symm ▸ hbounds.1 : 0 ≤ - EIO) (by decide)
    by_cases hm : IsMarker (fat16GetFatEntry k s).2
    · intro i hi hno
      cases i with
      | zero => exact hsingle
      | succ i => exact absurd hm (hno 0 (by omega))
    · refine (plain_succ hm).mpr ⟨hsingle, ih fun i hi => ?_⟩
      have hr : ¬ Refused (fat16GetFatEntry k s).2 := fun hr => hm ((not_not.mp hsingle).mpr hr)
      have := h (i + 1) (by omega)
      rwa [walked_succ hm, chain_succ hr] at this

/-- For every table, cluster and offset: the walk is right turn by turn exactly when, up to the
first marker, no entry is one that the loop's comparisons mistake. -/
theorem walk_exact_iff (hsec : k.disk.sector_size = 512) (hspc : 0 < clusterBytes k) (s : Int) (offset : Nat) :
    WalkExact k s offset (fat16GetClusterForOffset k s offset) ↔ Plain k s (offset / clusterBytes k) := by
  obtain ⟨k1, hk1, -⟩ := fat16GetClusterForOffset_eq hsec hspc s offset
  rw [hk1]
  constructor
  · rintro ⟨k', c, heq, hlast, hturns⟩
    cases heq
    refine plain_of_walked fun i hi => ?_
    rcases Nat.lt_or_eq_of_le hi with hlt | rfl
    · exact hturns i hlt
    · exact hlast
  · intro h
    refine ⟨k1, _, rfl, walked_of_plain h, fun i hi => walked_of_plain fun j hj => h j (by omega)⟩

/-- Two entries are followed, from cluster 2 to 5 and from there to 0x0A0A. -/
theorem walk_exact_fragmented : successor fragmented 2 2 = 0x0A0A ∧
    WalkExact fragmented 2 1024 (fat16GetClusterForOffset fragmented 2 (1024 : Nat)) := by
  have hfirst : successor fragmented 1 2 = 5 := by decide +kernel
  have hsecond : successor fragmented 2 2 = 0x0A0A := by decide +kernel
  refine ⟨hsecond, (walk_exact_iff rfl (by decide) 2 1024).mpr fun i hi _ => ?_⟩
  rw [mistaken_iff]
  have hlt : i < 2 := hi
  interval_cases i
  · rw [hfirst]
    decide
  · rw [hsecond]
    decide

def lastCluster : Kernel :=
  { fragmented with
    disk := { fragmented.disk with sector := fun _ lba i => if lba = 4 then if i = 0 then 0xF8 else 0xFF else 0 } }

/-- The mark is returned as a cluster. -/
theorem end_of_chain_followed :
    ¬ WalkExact lastCluster 2 512 (fat16GetClusterForOffset lastCluster 2 (512 : Nat)) := by
  have h : (fat16GetClusterForOffset lastCluster 2 (512 : Nat)).map (·.2) = some 0xFFF8 := by decide +kernel
  have hentry : successor lastCluster 1 2 = 0xFFF8 := by decide +kernel
  rintro ⟨k', c, heq, hlast, -⟩
  rw [heq, Option.map_some, Option.some.injEq] at h
  have hc := hlast.2 ⟨0, by decide, by
    rw [hentry]
    unfold IsMarker
    omega⟩
  exact absurd (h.symm.trans hc) (by decide)

end MultitaskOs.Clusters
