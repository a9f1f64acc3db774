import MultitaskOs.Code.Heap

/-!
# The marks of an allocation

`heap_mark_blocks_taken` writes the marks that `heap_mark_blocks_free` reads. The
entry before the last is meant to lead on to it; the last one leads on instead.
-/

open Lib.Memory

namespace MultitaskOs.HeapMarks

variable {heap : Heap} {s n i : Int} {entries : Entries}

/-! ## What is written -/

/-- The entry behind the first, in a run that ends at `end_block`. -/
def markNext (end_block i : Int) : HeapBlockTableEntry :=
  if i = end_block then heapBlockTableEntryTaken ||| heapBlockHasNext else heapBlockTableEntryTaken

def mark (s n i : Int) : HeapBlockTableEntry :=
  if i = s then
    if s + n - 1 > 1 then heapBlockTableEntryTaken ||| heapBlockIsFirst ||| heapBlockHasNext
    else heapBlockTableEntryTaken ||| heapBlockIsFirst
  else markNext (s + n - 1) i

theorem markNext_succ (end_block i : Int) :
    (if i = end_block - 1 then heapBlockTableEntryTaken ||| heapBlockHasNext else heapBlockTableEntryTaken) =
      markNext end_block (i + 1) := by
  unfold markNext
  by_cases h : i = end_block - 1
  · rw [if_pos h, if_pos (by omega)]
  · rw [if_neg h, if_neg (by omega)]

theorem takenLoop_entries (n : Nat) (i : Int) (entry : HeapBlockTableEntry) (entries : Entries) (j : Int) :
    heapMarkBlocksTakenLoop (i + n - 1) n i entry entries j =
      if i ≤ j ∧ j < i + n then if j = i then entry else markNext (i + n - 1) j else entries j := by
  induction n generalizing i entry entries with
  | zero =>
    rw [if_neg (by omega)]
    rfl
  | succ n ih =>
    have hend : i + (n + 1 : Nat) - 1 = i + 1 + n - 1 := by omega
    rw [heapMarkBlocksTakenLoop, hend, markNext_succ, ih]
    by_cases hi : j = i
    · subst hi
      rw [if_neg (by omega), if_pos (by omega), if_pos rfl, Function.update_self]
    · rw [Function.update_of_ne hi]
      by_cases hin : i + 1 ≤ j ∧ j < i + 1 + n
      · rw [if_pos hin, if_pos (show i ≤ j ∧ j < i + (n + 1 : Nat) by omega), if_neg hi]
        split
        · rename_i hj
          rw [hj]
        · rfl
      · rw [if_neg hin, if_neg (by omega)]

theorem markTaken_entries (hn : 1 ≤ n) (j : Int) : (heapMarkBlocksTaken heap s n).table.entries j =
    if s ≤ j ∧ j < s + n then mark s n j else heap.table.entries j := by
  obtain ⟨n, rfl⟩ := Int.eq_ofNat_of_zero_le (by omega : 0 ≤ n)
  unfold heapMarkBlocksTaken mark
  exact takenLoop_entries n s _ _ j

theorem mark_taken (s n i : Int) : heapGetEntryType (mark s n i) = heapBlockTableEntryTaken := by
  unfold mark markNext
  split_ifs <;> decide

/-! ## What is cleared -/

/-- The freeing loop goes on behind this entry. -/
def LeadsOn (entry : HeapBlockTableEntry) : Prop := entry &&& heapBlockHasNext ≠ 0

instance (entry : HeapBlockTableEntry) : Decidable (LeadsOn entry) := instDecidableNot

theorem freeLoop_stop (n : Nat) (h : ¬ LeadsOn (entries i)) :
    heapMarkBlocksFreeLoop (n + 1) i entries = Function.update entries i heapBlockTableEntryFree :=
  if_pos (not_not.mp h)

theorem freeLoop_next (n : Nat) (h : LeadsOn (entries i)) : heapMarkBlocksFreeLoop (n + 1) i entries =
    heapMarkBlocksFreeLoop n (i + 1) (Function.update entries i heapBlockTableEntryFree) := if_neg h

theorem freeLoop_below (n : Nat) (i : Int) (entries : Entries) {j : Int} (hj : j < i) :
    heapMarkBlocksFreeLoop n i entries j = entries j := by
  induction n generalizing i entries with
  | zero => rfl
  | succ n ih =>
    by_cases h : LeadsOn (entries i)
    · rw [freeLoop_next n h, ih _ _ (by omega), Function.update_of_ne (by omega)]
    · rw [freeLoop_stop n h, Function.update_of_ne (by omega)]

theorem freeLoop_first (n : Nat) (i : Int) (entries : Entries) :
    heapMarkBlocksFreeLoop (n + 1) i entries i = heapBlockTableEntryFree := by
  by_cases h : LeadsOn (entries i)
  · rw [freeLoop_next n h, freeLoop_below _ _ _ (by omega), Function.update_self]
  · rw [freeLoop_stop n h, Function.update_self]

theorem freeLoop_same_iff (n : Nat) (i : Int) (entries : Entries) :
    heapMarkBlocksFreeLoop n i entries = entries ↔ n = 0 ∨ entries i = heapBlockTableEntryFree := by
  cases n with
  | zero => simp [heapMarkBlocksFreeLoop]
  | succ n =>
    constructor
    · intro h
      exact Or.inr (by rw [← h, freeLoop_first])
    · rintro (h | h)
      · omega
      · rw [freeLoop_stop n (by rw [h]; decide), ← h, Function.update_eq_self]

/-! ## There and back -/

/-- The `n` entries are taken, and no other changes. -/
def TakesExactly (heap : Heap) (s n : Int) : Prop :=
  ∀ i, (s ≤ i ∧ i < s + n →
      heapGetEntryType ((heapMarkBlocksTaken heap s n).table.entries i) = heapBlockTableEntryTaken) ∧
    (¬ (s ≤ i ∧ i < s + n) → (heapMarkBlocksTaken heap s n).table.entries i = heap.table.entries i)

def Restores (heap : Heap) (s n : Int) : Prop := heapMarkBlocksFree (heapMarkBlocksTaken heap s n) s = heap

/-- The table ends at `b`, or its entry is free. -/
def EndsAt (heap : Heap) (b : Int) : Prop := b = heap.table.total ∨ heap.table.entries b = heapBlockTableEntryFree

/-- One block whose entry does not lead on, or leads on to nothing; or two blocks, but not the first two. -/
def Restorable (heap : Heap) (s n : Int) : Prop :=
  n = 1 ∧ (s ≤ 1 ∨ EndsAt heap (s + 1)) ∨ n = 2 ∧ 1 ≤ s ∧ EndsAt heap (s + 2)

theorem takesExactly (heap : Heap) (s : Int) (hn : 1 ≤ n) : TakesExactly heap s n := by
  intro i
  rw [markTaken_entries hn]
  constructor
  · intro hi
    rw [if_pos hi]
    exact mark_taken s n i
  · exact fun hi => if_neg hi

theorem leadsOn_first (s n : Int) : LeadsOn (mark s n s) ↔ 1 < s + n - 1 := by
  unfold mark
  rw [if_pos rfl]
  split_ifs with h
  · exact ⟨fun _ => h, fun _ => by decide⟩
  · exact ⟨fun hl => absurd hl (by decide), fun hl => absurd hl h⟩

theorem leadsOn_behind {s n i : Int} (hi : i ≠ s) : LeadsOn (mark s n i) ↔ i = s + n - 1 := by
  unfold mark markNext
  rw [if_neg hi]
  split_ifs with h
  · exact ⟨fun _ => h, fun _ => by decide⟩
  · exact ⟨fun hl => absurd hl (by decide), fun hl => absurd hl h⟩

theorem restores_iff (hn : 1 ≤ n) (hin : s + n ≤ heap.table.total) :
    ∃ m : Nat, (m : Int) = heap.table.total - s - n ∧
      (Restores heap s n ↔ heapMarkBlocksFreeLoop (n.toNat + m) s (heapMarkBlocksTaken heap s n).table.entries =
        heap.table.entries) := by
  have htotal : (heapMarkBlocksTaken heap s n).table.total = heap.table.total := rfl
  obtain ⟨m, hm⟩ := Int.eq_ofNat_of_zero_le (show 0 ≤ heap.table.total - s - n by omega)
  refine ⟨m, hm.symm, ?_⟩
  have hturns : (heap.table.total - s).toNat = n.toNat + m := by omega
  unfold Restores heapMarkBlocksFree
  rw [htotal, hturns]
  constructor
  · intro h
    exact congrArg (fun h : Heap => h.table.entries) h
  · intro h
    rw [h]
    rfl

theorem not_restored {j : Int} {result : Entries} (hn : 1 ≤ n) (hfree : heap.table.entries j = heapBlockTableEntryFree)
    (hj : s ≤ j ∧ j < s + n) (h : result j = (heapMarkBlocksTaken heap s n).table.entries j) :
    result ≠ heap.table.entries := by
  intro he
  rw [he, hfree, markTaken_entries hn, if_pos hj] at h
  have htaken := mark_taken s n j
  rw [← h] at htaken
  exact absurd htaken (by decide)

/-- Marking a run of free blocks and freeing it again gives the table back exactly where the run is restorable. -/
theorem mark_taken_free_iff (h0 : 0 ≤ s) (hn : 1 ≤ n) (hin : s + n ≤ heap.table.total)
    (hfree : ∀ i, s ≤ i → i < s + n → heap.table.entries i = heapBlockTableEntryFree) :
    TakesExactly heap s n ∧ Restores heap s n ↔ Restorable heap s n := by
  rw [and_iff_right (takesExactly heap s hn)]
  obtain ⟨m, hm, hiff⟩ := restores_iff hn hin
  rw [hiff]
  generalize he : (heapMarkBlocksTaken heap s n).table.entries = e
  have hmarked : ∀ j, e j = if s ≤ j ∧ j < s + n then mark s n j else heap.table.entries j := by
    intro j
    rw [← he, markTaken_entries hn]
  have hfirst : LeadsOn (e s) ↔ 1 < s + n - 1 := by
    rw [hmarked, if_pos (by omega), leadsOn_first]
  have hends : ∀ b, b = s + n → (m = 0 ∨ heap.table.entries b = heapBlockTableEntryFree ↔ EndsAt heap b) := by
    rintro b rfl
    unfold EndsAt
    constructor
    · rintro (h | h)
      · exact Or.inl (by omega)
      · exact Or.inr h
    · rintro (h | h)
      · exact Or.inl (by omega)
      · exact Or.inr h
  obtain h1 | h2 | h3 : n = 1 ∨ n = 2 ∨ 3 ≤ n := by omega
  · -- one block: it leads on if it lies behind the second
    subst h1
    have hcleared : Function.update e s heapBlockTableEntryFree = heap.table.entries := by
      funext j
      by_cases hj : j = s
      · rw [hj, Function.update_self, hfree s le_rfl (by omega)]
      · rw [Function.update_of_ne hj, hmarked, if_neg (by omega)]
    have hcond : Restorable heap s 1 ↔ s ≤ 1 ∨ EndsAt heap (s + 1) := by simp [Restorable]
    rw [hcond, show (1 : Int).toNat + m = m + 1 by omega]
    by_cases hs : s ≤ 1
    · rw [freeLoop_stop _ (show ¬ LeadsOn (e s) by rw [hfirst]; omega)]
      exact iff_of_true hcleared (Or.inl hs)
    · rw [freeLoop_next _ (show LeadsOn (e s) by rw [hfirst]; omega), hcleared, freeLoop_same_iff,
        hends (s + 1) rfl, or_iff_right hs]
  · -- two blocks: the second always leads on
    subst h2
    have hcond : Restorable heap s 2 ↔ 1 ≤ s ∧ EndsAt heap (s + 2) := by simp [Restorable]
    rw [hcond, show (2 : Int).toNat + m = m + 1 + 1 by omega]
    by_cases hs : 1 ≤ s
    · have hcleared : Function.update (Function.update e s heapBlockTableEntryFree) (s + 1) heapBlockTableEntryFree =
          heap.table.entries := by
        funext j
        by_cases hj1 : j = s + 1
        · rw [hj1, Function.update_self, hfree (s + 1) (by omega) (by omega)]
        · rw [Function.update_of_ne hj1]
          by_cases hj : j = s
          · rw [hj, Function.update_self, hfree s le_rfl (by omega)]
          · rw [Function.update_of_ne hj, hmarked, if_neg (by omega)]
      have hsecond : LeadsOn (Function.update e s heapBlockTableEntryFree (s + 1)) := by
        rw [Function.update_of_ne (by omega), hmarked, if_pos (by omega), leadsOn_behind (by omega)]
        omega
      rw [freeLoop_next _ (show LeadsOn (e s) by rw [hfirst]; omega), freeLoop_next _ hsecond, hcleared,
        add_assoc s 1 1, freeLoop_same_iff, hends (s + (1 + 1)) rfl, and_iff_right hs]
      rfl
    · rw [freeLoop_stop _ (show ¬ LeadsOn (e s) by rw [hfirst]; omega)]
      refine iff_of_false ?_ fun h => hs h.1
      refine not_restored (s := s) hn (hfree (s + 1) (by omega) (by omega)) ⟨by omega, by omega⟩ ?_
      rw [Function.update_of_ne (show s + 1 ≠ s by omega), he]
  · -- more: the second ends the loop
    have hcond : ¬ Restorable heap s n := by
      unfold Restorable
      omega
    have hsecond : ¬ LeadsOn (Function.update e s heapBlockTableEntryFree (s + 1)) := by
      rw [Function.update_of_ne (by omega), hmarked, if_pos (by omega), leadsOn_behind (by omega)]
      omega
    refine iff_of_false ?_ hcond
    rw [show n.toNat + m = n.toNat - 2 + m + 1 + 1 by omega,
      freeLoop_next _ (show LeadsOn (e s) by rw [hfirst]; omega), freeLoop_stop _ hsecond]
    refine not_restored (s := s) hn (hfree (s + 2) (by omega) (by omega)) ⟨by omega, by omega⟩ ?_
    rw [Function.update_of_ne (show s + 2 ≠ s + 1 by omega), Function.update_of_ne (show s + 2 ≠ s by omega), he]

def fourFree : Heap := ⟨⟨fun _ => heapBlockTableEntryFree, 4⟩, 0x01000000⟩

theorem mark_taken_free_fourFree :
    TakesExactly fourFree 1 2 ∧ Restores fourFree 1 2 ↔ Restorable fourFree 1 2 :=
  mark_taken_free_iff (by decide) (by decide) (by decide) fun _ _ _ => rfl

/-- Of three blocks, the last stays taken. -/
theorem three_blocks_stay_taken : (∀ i, 0 ≤ i → i < 3 → fourFree.table.entries i = heapBlockTableEntryFree) ∧
    (heapMarkBlocksFree (heapMarkBlocksTaken fourFree 0 3) 0).table.entries 2 =
      heapBlockTableEntryTaken ||| heapBlockHasNext ∧
    ¬ (TakesExactly fourFree 0 3 ∧ Restores fourFree 0 3) := by
  have h2 : (heapMarkBlocksFree (heapMarkBlocksTaken fourFree 0 3) 0).table.entries 2 =
      heapBlockTableEntryTaken ||| heapBlockHasNext := by decide
  refine ⟨fun _ _ _ => rfl, h2, fun ⟨_, hr⟩ => ?_⟩
  rw [hr] at h2
  exact absurd h2 (by decide)

end MultitaskOs.HeapMarks
