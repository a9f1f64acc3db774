import MultitaskOs.Code.Streamer
import MultitaskOs.FatRead

/-!
# The streamer

A read is split at the ends of sectors. It delivers the bytes of the image from
the position on, but a read that ends with a sector asks for the next one too.
-/

open Lib Lib.Memory MultitaskOs.Files MultitaskOs.FatRead MultitaskOs.Tasks

namespace MultitaskOs.Streamer

variable {disk : Disk} {m : Mem} {out : Addr} {pos total : Int}

/-! ## One turn -/

theorem call_more (h : sectorSize ≤ pos.tmod sectorSize + total) :
    let n := sectorSize - pos.tmod sectorSize
    let call := diskstreamerCall disk
      (storeBytes m out ((List.range n.toNat).map fun (i : Nat) =>
        streamerBuf disk (pos.tdiv sectorSize) (pos.tmod sectorSize + i)))
      (toInt32 (pos + n)) (out + BitVec.ofInt 32 n) (total - n)
    diskstreamerCall disk m pos out total =
      { call with sectors := pos.tdiv sectorSize :: call.sectors } := by
  have hn : total - (pos.tmod sectorSize + total - sectorSize) = sectorSize - pos.tmod sectorSize := by ring
  dsimp only
  conv_lhs => unfold diskstreamerCall
  unfold diskReadBlock
  dsimp only
  rw [if_pos h, if_neg (lt_irrefl 0), if_pos h, hn]
  rfl

theorem call_last (h : ¬ sectorSize ≤ pos.tmod sectorSize + total) :
    diskstreamerCall disk m pos out total =
      ⟨0, storeBytes m out ((List.range total.toNat).map fun (i : Nat) =>
          streamerBuf disk (pos.tdiv sectorSize) (pos.tmod sectorSize + i)),
        toInt32 (pos + total), [pos.tdiv sectorSize]⟩ := by
  unfold diskstreamerCall diskReadBlock
  dsimp only
  rw [if_neg h, if_neg (lt_irrefl 0), if_neg h]
  rfl

theorem call_eq (disk : Disk) (pos total : Int) (hmax : total < 2 ^ 32) (m : Mem) (out : Addr) :
    let call := diskstreamerCall disk m pos out total
    call.res = 0 ∧ call.mem = storeBytes m out (diskstreamerRead disk pos total).1 ∧
      call.pos = (diskstreamerRead disk pos total).2 := by
  have hs : sectorSize = 512 := rfl
  revert m out
  induction pos, total using diskstreamerRead.induct disk with
  | case1 pos total offset hover total_to_read rest pos' heq ih =>
    intro m out
    have hlt := Int.tmod_lt_of_pos pos (show (0 : Int) < sectorSize by decide)
    have hgt := Int.lt_tmod_of_pos pos (show (0 : Int) < sectorSize by decide)
    have hn : total - (pos.tmod sectorSize + total - sectorSize) = sectorSize - pos.tmod sectorSize := by ring
    have hread : total_to_read = sectorSize - pos.tmod sectorSize := hn
    obtain ⟨w, hw⟩ := Int.eq_ofNat_of_zero_le (show 0 ≤ sectorSize - pos.tmod sectorSize by omega)
    obtain ⟨h1, h2, h3⟩ := ih (by omega) (storeBytes m out ((List.range w).map fun (i : Nat) =>
      streamerBuf disk (pos.tdiv sectorSize) (pos.tmod sectorSize + i))) (out + BitVec.ofNat 32 w)
    rw [hread, hw] at h1 h2 h3
    unfold diskstreamerRead
    rw [call_more hover]
    dsimp only
    rw [if_pos hover, hn, hw, Int.toNat_natCast, BitVec.ofInt_natCast]
    refine ⟨h1, ?_, h3⟩
    rw [h2, storeBytes_append (by simp)]
    rw [List.length_append, List.length_map, List.length_range, length_diskstreamerRead]
    omega
  | case2 pos total offset hover =>
    intro m out
    unfold diskstreamerRead
    dsimp only
    rw [call_last hover, if_neg hover]
    exact ⟨rfl, rfl, rfl⟩

/-! ## The image -/

/-- Byte `p` of the disk, of which the master's sectors hold 512 each. -/
def imageByte (disk : Disk) (p : Nat) : Byte := disk.sector 0xE0 (BitVec.ofNat 24 (p / 512)) (p % 512)

theorem diskByte_eq_image {p : Nat} (hp : p < 2 ^ 31) : diskByte disk p = imageByte disk p := by
  have hs : sectorSize = ((512 : Nat) : Int) := rfl
  have hlow : BitVec.ofInt 32 ((p / 512 : Nat) : Int) = BitVec.ofNat 32 (p / 512) := BitVec.ofInt_natCast _ _
  have hhead : ((BitVec.ofNat 32 (p / 512)).sshiftRight 24 ||| 0xE0).setWidth 8 = (0xE0 : BitVec 8) := by
    have h0 : (BitVec.ofNat 32 (p / 512)).sshiftRight 24 = 0 := by
      rw [BitVec.sshiftRight_eq_of_msb_false]
      · apply BitVec.eq_of_toNat_eq
        rw [BitVec.toNat_ushiftRight, BitVec.toNat_ofNat, Nat.mod_eq_of_lt (by omega), Nat.shiftRight_eq_div_pow]
        exact Nat.div_eq_of_lt (by omega)
      · rw [BitVec.msb_eq_false_iff_two_mul_lt, BitVec.toNat_ofNat]
        omega
    rw [h0]
    rfl
  have hlba : (BitVec.ofNat 32 (p / 512)).setWidth 24 = BitVec.ofNat 24 (p / 512) := by
    apply BitVec.eq_of_toNat_eq
    rw [BitVec.toNat_setWidth, BitVec.toNat_ofNat, BitVec.toNat_ofNat]
    omega
  unfold diskByte diskReadSector imageByte
  rw [hs, ← Int.natCast_div, ← Int.natCast_emod, hlow, hhead, hlba, Int.toNat_natCast]

theorem read_image {pos total : Nat} (hend : pos + total < 2 ^ 31) :
    diskstreamerRead disk pos total =
      ((List.range total).map fun i => imageByte disk (pos + i), ((pos + total : Nat) : Int)) := by
  rw [diskstreamerRead_eq (by omega) (by omega) (by omega), Int.toNat_natCast]
  refine Prod.ext (List.map_congr_left fun i hi => ?_) (by push_cast; rfl)
  have := List.mem_range.mp hi
  rw [← diskByte_eq_image (by omega)]
  push_cast
  rfl

theorem call_split {pos a b : Nat} (hend : pos + (a + b) < 2 ^ 31) (m : Mem) (out : Addr) :
    let first := diskstreamerCall disk m pos out a
    let second := diskstreamerCall disk first.mem first.pos (out + BitVec.ofNat 32 a) b
    let call := diskstreamerCall disk m pos out (a + b : Nat)
    second.res = call.res ∧ second.mem = call.mem ∧ second.pos = call.pos := by
  dsimp only
  obtain ⟨-, hm1, hp1⟩ := call_eq disk pos a (by omega) m out
  obtain ⟨hr, hm, hp⟩ := call_eq disk pos (a + b : Nat) (by omega) m out
  rw [read_image (by omega)] at hm1 hp1 hm hp
  dsimp only at hm1 hp1 hm hp
  rw [hm1, hp1]
  obtain ⟨hr2, hm2, hp2⟩ := call_eq disk (pos + a : Nat) b (by omega)
    (storeBytes m out ((List.range a).map fun i => imageByte disk (pos + i))) (out + BitVec.ofNat 32 a)
  rw [read_image (by omega)] at hm2 hp2
  dsimp only at hm2 hp2
  have hlen : ((List.range a).map fun i => imageByte disk (pos + i)).length = a := by simp
  refine ⟨by rw [hr2, hr], ?_, by rw [hp2, hp, Nat.add_assoc]⟩
  rw [hm2, storeBytes_append hlen (by simp; omega), hm, List.range_add, List.map_append, List.map_map]
  simp only [Function.comp_def, Nat.add_assoc]

/-- For every image, position and length below 2^31: the call stores the bytes of the image from the
position on, and no other, and moves the position behind them; so it is the same as two calls. -/
theorem diskstreamerRead_exact {pos total : Nat} (hend : pos + total < 2 ^ 31) (m : Mem) (out : Addr) :
    let call := diskstreamerCall disk m pos out total
    (call.res = 0 ∧ call.pos = pos + total ∧
      (∀ t < total, call.mem (out + BitVec.ofNat 32 t) = imageByte disk (pos + t)) ∧
      ∀ x, ¬ Within out total x → call.mem x = m x) ∧
    ∀ a b, a + b = total →
      let first := diskstreamerCall disk m pos out a
      let second := diskstreamerCall disk first.mem first.pos (out + BitVec.ofNat 32 a) b
      second.res = call.res ∧ second.mem = call.mem ∧ second.pos = call.pos := by
  dsimp only
  obtain ⟨hr, hm, hp⟩ := call_eq disk pos total (by omega) m out
  rw [read_image hend] at hm hp
  refine ⟨⟨hr, by rw [hp]; push_cast; rfl, fun t ht => ?_, fun x hx => ?_⟩, ?_⟩
  · rw [hm, storeBytes_at (by simpa using ht) (by simp; omega)]
    simp
  · rw [hm]
    exact storeBytes_of_not_within (by simpa using hx)
  · rintro a b rfl
    exact call_split hend m out

theorem diskstreamerRead_exact_512 :
    let call := diskstreamerCall emptyKernel.disk (fun _ => 0) (256 : Nat) 0 (512 : Nat)
    (call.res = 0 ∧ call.pos = (256 : Nat) + (512 : Nat) ∧
      (∀ t < 512, call.mem (0 + BitVec.ofNat 32 t) = imageByte emptyKernel.disk (256 + t)) ∧
      ∀ x, ¬ Within 0 512 x → call.mem x = 0) ∧
    ∀ a b : Nat, a + b = 512 →
      let first := diskstreamerCall emptyKernel.disk (fun _ => 0) (256 : Nat) 0 a
      let second := diskstreamerCall emptyKernel.disk first.mem first.pos (0 + BitVec.ofNat 32 a) b
      second.res = call.res ∧ second.mem = call.mem ∧ second.pos = call.pos :=
  diskstreamerRead_exact (show 256 + 512 < 2 ^ 31 by decide) _ 0

/-! ## The sectors it asks for -/

/-- Of a disk of `n` sectors, those that hold a byte of the range are asked for, each once, and no
other is. -/
structure AsksExactly (n pos total : Nat) (sectors : List Int) : Prop where
  holds : ∀ s ∈ sectors, ∃ t < total, s = ((pos + t) / 512 : Nat)
  below : ∀ s ∈ sectors, 0 ≤ s ∧ s < n
  all : ∀ t < total, (((pos + t) / 512 : Nat) : Int) ∈ sectors
  once : sectors.Nodup

theorem head_mem_sectors (m : Mem) (out : Addr) :
    pos.tdiv sectorSize ∈ (diskstreamerCall disk m pos out total).sectors := by
  by_cases h : sectorSize ≤ pos.tmod sectorSize + total
  · rw [call_more h]
    exact List.mem_cons_self
  · rw [call_last h]
    exact List.mem_cons_self

theorem sectors_turn (disk : Disk) {pos total : Nat} (h : 512 ≤ pos % 512 + total) (m : Mem) (out : Addr) :
    ∃ m' out', (diskstreamerCall disk m pos out total).sectors = ((pos / 512 : Nat) : Int) ::
      (diskstreamerCall disk m' (toInt32 ((pos + (512 - pos % 512) : Nat) : Int)) out'
        ((total - (512 - pos % 512) : Nat) : Int)).sectors := by
  have hs : sectorSize = ((512 : Nat) : Int) := rfl
  have hmod : (pos : Int).tmod sectorSize = ((pos % 512 : Nat) : Int) := by rw [hs, Int.ofNat_tmod]
  have hdiv : (pos : Int).tdiv sectorSize = ((pos / 512 : Nat) : Int) := by rw [hs, Int.ofNat_tdiv]
  have hn : sectorSize - ((pos % 512 : Nat) : Int) = ((512 - pos % 512 : Nat) : Int) := by omega
  have hleft : (total : Int) - ((512 - pos % 512 : Nat) : Int) = ((total - (512 - pos % 512) : Nat) : Int) := by omega
  have hover : sectorSize ≤ (pos : Int).tmod sectorSize + (total : Int) := by omega
  have hcall := @call_more disk m out pos total hover
  dsimp only at hcall
  rw [hmod, hdiv, hn, hleft, ← Nat.cast_add] at hcall
  exact ⟨_, _, congrArg StreamerCall.sectors hcall⟩

theorem sectors_end {pos total : Nat} (h : ¬ 512 ≤ pos % 512 + total) (m : Mem) (out : Addr) :
    (diskstreamerCall disk m pos out total).sectors = [((pos / 512 : Nat) : Int)] := by
  have hs : sectorSize = ((512 : Nat) : Int) := rfl
  have hmod : (pos : Int).tmod sectorSize = ((pos % 512 : Nat) : Int) := by rw [hs, Int.ofNat_tmod]
  rw [call_last (by omega), hs, Int.ofNat_tdiv]

/-- It asks for every sector from that of the position to that of the end, which may hold no byte. -/
theorem sectors_eq {pos total : Nat} (hend : pos + total < 2 ^ 31) (m : Mem) (out : Addr) :
    (diskstreamerCall disk m pos out total).sectors =
      (List.range ((pos + total) / 512 - pos / 512 + 1)).map fun i => ((pos / 512 + i : Nat) : Int) := by
  induction total using Nat.strong_induction_on generalizing pos m out with
  | _ total ih =>
    by_cases h : 512 ≤ pos % 512 + total
    · obtain ⟨m', out', hcall⟩ := sectors_turn disk h m out
      have hsum : pos + (512 - pos % 512) + (total - (512 - pos % 512)) = pos + total := by omega
      have hnext : (pos + (512 - pos % 512)) / 512 = pos / 512 + 1 := by omega
      have hcount : (pos + total) / 512 - pos / 512 + 1 = (pos + total) / 512 - (pos / 512 + 1) + 1 + 1 := by omega
      have hin : toInt32 ((pos + (512 - pos % 512) : Nat) : Int) = ((pos + (512 - pos % 512) : Nat) : Int) :=
        toInt32_of_bounds (by omega) (by omega)
      rw [hcall, hin, ih _ (by omega) (by omega), hsum, hnext, hcount]
      conv_rhs => rw [List.range_succ_eq_map, List.map_cons, List.map_map]
      refine congrArg₂ _ rfl (List.map_congr_left fun i _ => ?_)
      rw [Function.comp_apply]
      congr 1
      omega
    · have h0 : (pos + total) / 512 - pos / 512 + 1 = 1 := by omega
      rw [sectors_end h, h0]
      rfl

/-- A range that leaves an `int` has it ask for a sector below 0. -/
theorem sectors_wrap (disk : Disk) {pos total : Nat} (hpos : pos < 2 ^ 31) (hend : 2 ^ 31 ≤ pos + total) (m : Mem)
    (out : Addr) : ∃ s ∈ (diskstreamerCall disk m pos out total).sectors, s < 0 := by
  induction total using Nat.strong_induction_on generalizing pos m out with
  | _ total ih =>
    obtain ⟨m', out', hcall⟩ := sectors_turn disk (show 512 ≤ pos % 512 + total by omega) m out
    rw [hcall]
    by_cases hin : pos + (512 - pos % 512) < 2 ^ 31
    · have hnat : toInt32 ((pos + (512 - pos % 512) : Nat) : Int) = ((pos + (512 - pos % 512) : Nat) : Int) :=
        toInt32_of_bounds (by omega) (by omega)
      rw [hnat]
      obtain ⟨s, hs, hneg⟩ := ih (total - (512 - pos % 512)) (by omega) hin (by omega) m' out'
      exact ⟨s, List.mem_cons_of_mem _ hs, hneg⟩
    · have hwrap : pos + (512 - pos % 512) = 2 ^ 31 := by omega
      rw [hwrap]
      exact ⟨_, List.mem_cons_of_mem _ (head_mem_sectors m' out'), by decide⟩

/-- For every disk, position and length: the call asks for the sectors of the range alone exactly
when the range does not end with a sector, and ends below 2^31. -/
theorem asks_exactly_iff {n pos total : Nat} (hpos : pos < 2 ^ 31) (htotal : 1 ≤ total)
    (hend : pos + total ≤ 512 * n) (m : Mem) (out : Addr) :
    AsksExactly n pos total (diskstreamerCall disk m pos out total).sectors ↔
      (pos + total) % 512 ≠ 0 ∧ pos + total < 2 ^ 31 := by
  constructor
  · intro h
    have hlt : pos + total < 2 ^ 31 := by
      by_contra hge
      obtain ⟨s, hs, hneg⟩ := sectors_wrap disk hpos (not_lt.mp hge) m out
      have := (h.below s hs).1
      omega
    refine ⟨fun h0 => ?_, hlt⟩
    -- the last sector asked for is the one behind the range
    have hmem : (((pos + total) / 512 : Nat) : Int) ∈ (diskstreamerCall disk m pos out total).sectors := by
      rw [sectors_eq hlt]
      refine List.mem_map.mpr ⟨(pos + total) / 512 - pos / 512, List.mem_range.mpr (Nat.lt_succ_self _), ?_⟩
      congr 1
      omega
    obtain ⟨t, ht, heq⟩ := h.holds _ hmem
    omega
  · rintro ⟨h0, hlt⟩
    rw [sectors_eq hlt]
    refine ⟨?_, ?_, ?_, ?_⟩
    · intro s hs
      obtain ⟨i, hi, rfl⟩ := List.mem_map.mp hs
      have := List.mem_range.mp hi
      refine ⟨512 * (pos / 512 + i) - pos, by omega, ?_⟩
      congr 1
      omega
    · intro s hs
      obtain ⟨i, hi, rfl⟩ := List.mem_map.mp hs
      have := List.mem_range.mp hi
      omega
    · intro t ht
      refine List.mem_map.mpr ⟨(pos + t) / 512 - pos / 512, List.mem_range.mpr (by omega), ?_⟩
      congr 1
      omega
    · refine List.Nodup.map (fun a b hab => ?_) List.nodup_range
      have := Int.ofNat_inj.mp hab
      omega

theorem asks_exactly_100 :
    AsksExactly 1 0 100 (diskstreamerCall emptyKernel.disk (fun _ => 0) (0 : Nat) 0 (100 : Nat)).sectors ↔
      (0 + 100) % 512 ≠ 0 ∧ 0 + 100 < 2 ^ 31 :=
  asks_exactly_iff (by decide) (by decide) (by decide) _ 0

/-- Of a disk of one sector, the read of that sector asks for the next. -/
theorem asks_past_end :
    ¬ AsksExactly 1 0 512 (diskstreamerCall emptyKernel.disk (fun _ => 0) (0 : Nat) 0 (512 : Nat)).sectors := by
  intro h
  have hmem : (1 : Int) ∈ (diskstreamerCall emptyKernel.disk (fun _ => 0) (0 : Nat) 0 (512 : Nat)).sectors := by
    rw [sectors_eq (by decide)]
    decide
  exact absurd (h.below 1 hmem).2 (by decide)

end MultitaskOs.Streamer
