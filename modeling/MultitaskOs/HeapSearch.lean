import MultitaskOs.HeapMarks

/-!
# The search for a run of blocks

`heap_get_start_block` counts blocks as it passes over them. The end of the table
ends the count as well, and then what was counted so far is the answer.
-/

open Lib.Memory

namespace MultitaskOs.HeapSearch

/-- There are `n` blocks in a row, below `total`, whose entries all satisfy `p`. -/
def HasRun (p : HeapBlockTableEntry → Prop) (entries : Entries) (total n : Int) : Prop :=
  ∃ s, 0 ≤ s ∧ s + n ≤ total ∧ ∀ i, s ≤ i → i < s + n → p (entries i)

/-- The search counts this entry. -/
def Counts (entry : HeapBlockTableEntry) : Prop := heapGetEntryType entry ≠ heapBlockTableEntryFree

/-- The table ends with a block that the search counts. -/
def CutOff (entries : Entries) (total : Int) : Prop := 0 < total ∧ Counts (entries (total - 1))

/-- What the caller of the search relies on, if it looks for `n` blocks that are `suitable`. -/
structure Sound (suitable : HeapBlockTableEntry → Prop) (heap : Heap) (n : Int) : Prop where
  inside : 0 ≤ heapGetStartBlock heap n → heapGetStartBlock heap n + n ≤ heap.table.total
  marks : 0 ≤ heapGetStartBlock heap n → ∀ i : Int, ¬ (0 ≤ i ∧ i < heap.table.total) →
    (heapMarkBlocksTaken heap (heapGetStartBlock heap n) n).table.entries i = heap.table.entries i
  refuses : ¬ HasRun suitable heap.table.entries heap.table.total n → heapGetStartBlock heap n = -ENOMEM

variable {heap : Heap} {entries : Entries} {n i bc bs b : Int}

/-! ## One entry after another -/

/-- The first `i` entries are looked at: they end with the counted ones from `b` on, which are too
few, and hold no run. -/
structure Scanned (entries : Entries) (n i b : Int) : Prop where
  nonneg : 0 ≤ b
  le : b ≤ i
  few : i - b < n
  counted : ∀ j, b ≤ j → j < i → Counts (entries j)
  before : b = 0 ∨ ¬ Counts (entries (b - 1))
  none : ¬ HasRun Counts entries i n

theorem HasRun.mono {p : HeapBlockTableEntry → Prop} (h : HasRun p entries i n) (hle : i ≤ b) :
    HasRun p entries b n := by
  obtain ⟨s, h0, hs, hrun⟩ := h
  exact ⟨s, h0, by omega, hrun⟩

theorem Scanned.run_next (h : Scanned entries n i b) (hrun : HasRun Counts entries (i + 1) n) :
    ∀ j, i + 1 - n ≤ j → j < i + 1 → 0 ≤ i + 1 - n ∧ Counts (entries j) := by
  obtain ⟨s, h0, hs, hall⟩ := hrun
  have hend : s + n = i + 1 := by
    by_contra hne
    exact h.none ⟨s, h0, by omega, hall⟩
  intro j h1 h2
  exact ⟨by omega, hall j (by omega) (by omega)⟩

theorem scanned_zero (hn : 1 ≤ n) : Scanned entries n 0 0 := by
  refine ⟨le_rfl, le_rfl, by omega, fun j h1 h2 => by omega, Or.inl rfl, ?_⟩
  rintro ⟨s, h0, hs, -⟩
  omega

theorem Scanned.skip (h : Scanned entries n i b) (hn : 1 ≤ n) (hi : ¬ Counts (entries i)) :
    Scanned entries n (i + 1) (i + 1) := by
  have hb := h.nonneg
  have hle := h.le
  refine ⟨by omega, le_rfl, by omega, fun j h1 h2 => by omega, Or.inr ?_, fun hrun => ?_⟩
  · rwa [add_sub_cancel_right]
  · exact hi (h.run_next hrun i (by omega) (by omega)).2

theorem Scanned.count (h : Scanned entries n i b) (hi : Counts (entries i)) (hne : i + 1 - b ≠ n) :
    Scanned entries n (i + 1) b := by
  have hb := h.nonneg
  have hle := h.le
  have hfew := h.few
  refine ⟨hb, by omega, by omega, fun j h1 h2 => ?_, h.before, fun hrun => ?_⟩
  · rcases eq_or_ne j i with rfl | hj
    · exact hi
    · exact h.counted j h1 (by omega)
  · obtain ⟨h0, hcount⟩ := h.run_next hrun (b - 1) (by omega) (by omega)
    rcases h.before with rfl | hbefore
    · omega
    · exact hbefore hcount

/-! ## The whole table -/

/-- How a search of `total` entries ends. -/
inductive Found (entries : Entries) (total n : Int) : Int → Prop
  | run (r : Int) (nonneg : 0 ≤ r) (inside : r + n ≤ total) (counted : HasRun Counts entries total n) :
    Found entries total n r
  | cut (r : Int) (nonneg : 0 ≤ r) (outside : total < r + n) (last : CutOff entries total)
    (none : ¬ HasRun Counts entries total n) : Found entries total n r
  | refused (last : ¬ CutOff entries total) (none : ¬ HasRun Counts entries total n) : Found entries total n (-ENOMEM)

/-- The counter is the length of the run, and -1 stands for a run without a start. -/
theorem startBlockLoop_found (hn : 1 ≤ n) (k : Nat) (h : Scanned entries n i b) (hbc : bc = i - b)
    (hbs : bs = if b = i then -1 else b) : Found entries (i + k) n (heapGetStartBlockLoop entries n k i bc bs) := by
  have hb := h.nonneg
  have hle := h.le
  have hfew := h.few
  induction k generalizing i bc bs b with
  | zero =>
    rw [heapGetStartBlockLoop, hbs, Nat.cast_zero, add_zero]
    by_cases hbi : b = i
    · rw [if_pos hbi, if_pos rfl]
      refine .refused ?_ h.none
      rintro ⟨hpos, hlast⟩
      rcases h.before with h0 | hbefore
      · omega
      · exact hbefore (hbi ▸ hlast)
    · rw [if_neg hbi, if_neg (by omega)]
      exact .cut b hb (by omega) ⟨by omega, h.counted (i - 1) (by omega) (by omega)⟩ h.none
  | succ k ih =>
    have htotal : i + (k + 1 : Nat) = i + 1 + k := by omega
    rw [heapGetStartBlockLoop, htotal]
    by_cases hi : Counts (entries i)
    · have hstart : (if bs = -1 then i else bs) = b := by
        rw [hbs]
        split_ifs <;> omega
      rw [if_neg hi]
      dsimp only
      rw [hstart, hbc]
      by_cases hfull : i - b + 1 = n
      · rw [if_pos hfull]
        refine .run b hb (by omega) ⟨b, hb, by omega, fun j h1 h2 => ?_⟩
        rcases eq_or_ne j i with rfl | hj
        · exact hi
        · exact h.counted j h1 (by omega)
      · rw [if_neg hfull]
        exact ih (h.count hi (by omega)) (by omega) (by rw [if_neg (by omega)]) hb (by omega) (by omega)
    · rw [if_pos (not_not.mp hi)]
      exact ih (h.skip hn hi) (by omega) (by rw [if_pos rfl]) (by omega) le_rfl (by omega)

theorem heapGetStartBlock_found (heap : Heap) (hn : 1 ≤ n) :
    Found heap.table.entries heap.table.total n (heapGetStartBlock heap n) := by
  have h : Found heap.table.entries (0 + heap.table.total) n
      (heapGetStartBlockLoop heap.table.entries n heap.table.total 0 0 (-1)) :=
    startBlockLoop_found hn heap.table.total (scanned_zero hn) (by omega) rfl
  rwa [zero_add] at h

theorem markTaken_outside {s : Int} (hn : 1 ≤ n) (h0 : 0 ≤ s) (hin : s + n ≤ heap.table.total)
    (hi : ¬ (0 ≤ i ∧ i < heap.table.total)) :
    (heapMarkBlocksTaken heap s n).table.entries i = heap.table.entries i := by
  rw [HeapMarks.markTaken_entries hn, if_neg (by omega)]

/-- Whatever blocks are called suitable: the search keeps its promise exactly when the table holds a
run of those it counts and a run of suitable ones, or no run of those it counts and no such block at its end. -/
theorem heapGetStartBlock_sound_iff (heap : Heap) (hn : 1 ≤ n) (suitable : HeapBlockTableEntry → Prop) :
    Sound suitable heap n ↔
      HasRun Counts heap.table.entries heap.table.total n ∧ HasRun suitable heap.table.entries heap.table.total n ∨
        ¬ HasRun Counts heap.table.entries heap.table.total n ∧ ¬ CutOff heap.table.entries heap.table.total := by
  have hfound := heapGetStartBlock_found heap hn
  generalize hr : heapGetStartBlock heap n = r at hfound
  cases hfound with
  | run _ hnonneg hin hcounted =>
    rw [and_iff_right hcounted, or_iff_left fun h => h.1 hcounted]
    constructor
    · intro h
      by_contra hnone
      have hres := h.refuses hnone
      rw [hr] at hres
      unfold ENOMEM at hres
      omega
    · intro hrun
      exact ⟨fun _ => hr ▸ hin, fun _ i hi => hr ▸ markTaken_outside hn hnonneg hin hi, fun hnone => absurd hrun hnone⟩
  | cut _ hnonneg hout hlast hnone =>
    refine iff_of_false (fun h => ?_) fun h => h.elim (fun h => hnone h.1) fun h => h.2 hlast
    have hin := h.inside (hr ▸ hnonneg)
    rw [hr] at hin
    omega
  | refused hlast hnone =>
    have hneg : ¬ 0 ≤ -ENOMEM := by decide
    refine iff_of_true ⟨fun h => ?_, fun h => ?_, fun _ => hr⟩ (Or.inr ⟨hnone, hlast⟩)
    · exact absurd (hr ▸ h) hneg
    · exact absurd (hr ▸ h) hneg

def lastTaken : Heap :=
  ⟨⟨fun i => if i = 1 then heapBlockTableEntryTaken else heapBlockTableEntryFree, 2⟩, 0x01000000⟩

theorem heapGetStartBlock_sound_lastTaken :
    Sound Counts lastTaken 1 ↔
      HasRun Counts lastTaken.table.entries lastTaken.table.total 1 ∧
          HasRun Counts lastTaken.table.entries lastTaken.table.total 1 ∨
        ¬ HasRun Counts lastTaken.table.entries lastTaken.table.total 1 ∧
          ¬ CutOff lastTaken.table.entries lastTaken.table.total :=
  heapGetStartBlock_sound_iff lastTaken (by decide) Counts

/-- A run of two is asked for, and the answer is the last block. -/
theorem heapGetStartBlock_cut_lastTaken :
    ¬ HasRun Counts lastTaken.table.entries lastTaken.table.total 2 ∧ heapGetStartBlock lastTaken 2 = 1 ∧
      (heapMarkBlocksTaken lastTaken 1 2).table.entries 2 ≠ lastTaken.table.entries 2 ∧ ¬ Sound Counts lastTaken 2 := by
  have hres : heapGetStartBlock lastTaken 2 = 1 := by decide
  refine ⟨?_, hres, by decide, fun h => ?_⟩
  · rintro ⟨s, h0, hs, hrun⟩
    have hs' : s + 2 ≤ 2 := hs
    obtain rfl : s = 0 := by omega
    exact hrun 0 le_rfl (by decide) (by decide)
  · have hin := h.inside (hres ▸ by decide)
    rw [hres] at hin
    exact absurd hin (by decide)

end MultitaskOs.HeapSearch
