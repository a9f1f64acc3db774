import MultitaskOs.HeapMarks

/-!
# How many blocks a size takes

The size is rounded up to a block before it is divided, in 32 bits. From the last
block of the address space on, there is nothing to round up to.
-/

open Lib.Memory

namespace MultitaskOs.HeapSize

def blockCount (size : BitVec 32) : BitVec 32 := heapAlignValueToUpper size / 4096

/-- The count is the least that is enough, that many blocks are handed out, and each byte that was
asked for lies in one that is taken now. -/
structure Rounds (size : BitVec 32) : Prop where
  least : IsLeast {t : Nat | size.toNat ≤ t * blockSize} (blockCount size).toNat
  covers : ∀ heap, (heapMalloc heap size).2 ≠ 0 → ∃ start, 0 ≤ start ∧
    heapMalloc heap size = (heapMarkBlocksTaken heap start (blockCount size).toNat, heapBlockToAddress heap start) ∧
    ∀ x < size.toNat, heapGetEntryType ((heapMalloc heap size).1.table.entries (start + (x / blockSize : Nat))) =
      heapBlockTableEntryTaken

variable {heap : Heap} {size : BitVec 32}

theorem toNat_align (size : BitVec 32) : (heapAlignValueToUpper size).toNat =
    if size.toNat % 4096 = 0 then size.toNat else (size.toNat - size.toNat % 4096 + 4096) % 2 ^ 32 := by
  have hmod : (size % 4096).toNat = size.toNat % 4096 := BitVec.toNat_umod
  unfold heapAlignValueToUpper
  by_cases h : size % 4096 = 0
  · have h0 : size.toNat % 4096 = 0 := by rw [← hmod, h]; rfl
    rw [if_pos h, if_pos h0]
  · have h0 : size.toNat % 4096 ≠ 0 := fun hz => h (BitVec.eq_of_toNat_eq (hmod.trans hz))
    have hle : size % 4096 ≤ size := by
      rw [BitVec.le_def, hmod]
      exact Nat.mod_le _ _
    rw [if_neg h, if_neg h0, BitVec.toNat_add, BitVec.toNat_sub_of_le hle, hmod]
    rfl

theorem toNat_blockCount (size : BitVec 32) : (blockCount size).toNat =
    if size.toNat ≤ 2 ^ 32 - 4096 then (size.toNat + 4095) / 4096 else 0 := by
  have hdiv : (blockCount size).toNat = (heapAlignValueToUpper size).toNat / 4096 := BitVec.toNat_udiv
  have hlt := size.isLt
  rw [hdiv, toNat_align]
  split_ifs <;> omega

theorem toInt_blockCount (size : BitVec 32) : (blockCount size).toInt = (blockCount size).toNat := by
  have hcount := toNat_blockCount size
  have hlt := size.isLt
  refine BitVec.toInt_eq_toNat_of_lt ?_
  split_ifs at hcount <;> omega

theorem heapMalloc_eq (heap : Heap) (size : BitVec 32) (h : (heapMalloc heap size).2 ≠ 0) :
    ∃ start, 0 ≤ start ∧
      heapMalloc heap size =
        (heapMarkBlocksTaken heap start (blockCount size).toNat, heapBlockToAddress heap start) := by
  have heq : heapMalloc heap size = heapMallocBlocks heap (blockCount size) := rfl
  rw [heq, heapMallocBlocks, toInt_blockCount] at h ⊢
  by_cases hneg : heapGetStartBlock heap (blockCount size).toNat < 0
  · rw [if_pos hneg] at h
    exact absurd rfl h
  · rw [if_neg hneg]
    exact ⟨_, not_lt.mp hneg, rfl⟩

theorem isLeast_ceil (n : Nat) : IsLeast {t : Nat | n ≤ t * blockSize} ((n + 4095) / 4096) := by
  unfold blockSize
  refine ⟨show n ≤ (n + 4095) / 4096 * 4096 by omega, fun t ht => ?_⟩
  have ht' : n ≤ t * 4096 := ht
  omega

/-- The count is right for every size but those less than a block below 2^32, and a program can ask
for any of these too. -/
theorem heapMalloc_rounds_iff (size : BitVec 32) :
    (Rounds size ↔ size.toNat ≤ 2 ^ 32 - 4096) ∧ ∃ item, isr80hCommand4Size item = size := by
  have hcount := toNat_blockCount size
  refine ⟨?_, size, BitVec.ofInt_toInt⟩
  constructor
  · intro h
    by_contra hbig
    rw [if_neg hbig] at hcount
    have hcover := h.least.1
    rw [hcount] at hcover
    have h0 : size.toNat ≤ 0 * blockSize := hcover
    omega
  · intro hsmall
    rw [if_pos hsmall] at hcount
    have hleast := isLeast_ceil size.toNat
    rw [← hcount] at hleast
    refine ⟨hleast, fun heap h => ?_⟩
    obtain ⟨start, h0, heq⟩ := heapMalloc_eq heap size h
    refine ⟨start, h0, heq, fun x hx => ?_⟩
    have hblock : x / blockSize < (blockCount size).toNat := Nat.div_lt_of_lt_mul (by
      rw [Nat.mul_comm]
      exact hx.trans_le hleast.1)
    rw [heq]
    have hnonneg : 0 ≤ ((x / blockSize : Nat) : Int) := Int.natCast_nonneg _
    exact (HeapMarks.takesExactly heap start (by omega) _).1 ⟨by omega, by omega⟩

def oneTaken : Heap := ⟨⟨fun _ => heapBlockTableEntryTaken, 1⟩, 0x01000000⟩

/-- A program asks for 2^32 - 1 bytes, and gets an address without a block. -/
theorem heapMalloc_all_ones : isr80hCommand4Size 0xffffffff = 0xffffffff ∧ blockCount 0xffffffff = 0 ∧
    (heapMalloc oneTaken 0xffffffff).2 = 0x01000000 ∧
    (heapMalloc oneTaken 0xffffffff).1 = heapMarkBlocksTaken oneTaken 0 0 ∧ ¬ Rounds 0xffffffff := by
  have hcount : blockCount 0xffffffff = 0 := by decide
  refine ⟨by decide, hcount, by decide, rfl, fun h => ?_⟩
  have hcover := h.least.1
  rw [hcount] at hcover
  exact absurd (show (0xffffffff : BitVec 32).toNat ≤ 0 * blockSize from hcover) (by decide)

end MultitaskOs.HeapSize
