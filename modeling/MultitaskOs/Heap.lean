import MultitaskOs.Code.Heap
import MultitaskOs.Lib.Run

/-!
# The block heap

What a pool of blocks is for, over whole runs of `heap_malloc` and `heap_free`,
and what `heap_get_start_block` makes of it.
-/

open Lib.Memory Lib.Run

namespace MultitaskOs.Heap

/-! ## A pool and its live allocations -/

inductive Call where
  | malloc (size : BitVec 32)
  | free (ptr : Addr)

/-- The heap, with every allocation handed out and not yet freed. -/
structure Pool where
  heap : Heap
  live : List (Addr × BitVec 32)

def call (s : Pool) : Call → Pool
  | .malloc size =>
    let (heap, p) := heapMalloc s.heap size
    ⟨heap, if p = 0 then s.live else (p, size) :: s.live⟩
  | .free ptr => ⟨heapFree s.heap ptr, s.live.filter (·.1 ≠ ptr)⟩

/-- A caller asks for at least a byte and at most the pool, and frees what it holds. -/
def legal (s : Pool) : Call → Prop
  | .malloc size => 1 ≤ size.toNat ∧ size.toNat ≤ s.heap.table.total * blockSize
  | .free ptr => ∃ size, (ptr, size) ∈ s.live

def blocksFor (size : BitVec 32) : Nat := (size.toNat + (blockSize - 1)) / blockSize

def firstBlock (s : Pool) (a : Addr × BitVec 32) : Nat := (a.1 - s.heap.saddr).toNat / blockSize

def Covers (s : Pool) (a : Addr × BitVec 32) (i : Nat) : Prop :=
  firstBlock s a ≤ i ∧ i < firstBlock s a + blocksFor a.2

/-- The pool holds `n` consecutive blocks that belong to no live allocation. -/
def Room (s : Pool) (n : Nat) : Prop :=
  ∃ b, b + n ≤ s.heap.table.total ∧ ∀ i, b ≤ i → i < b + n → ∀ a ∈ s.live, ¬ Covers s a i

/-- A request succeeds exactly when there is room for it. -/
def Exact (s : Pool) : Call → Prop
  | .malloc size => (heapMalloc s.heap size).2 ≠ 0 ↔ Room s (blocksFor size)
  | .free _ => True

/-- The live allocations lie in the pool and share no block. -/
def Separate (s : Pool) : Prop :=
  (∀ a ∈ s.live, firstBlock s a + blocksFor a.2 ≤ s.heap.table.total) ∧
  s.live.Pairwise fun a b => ∀ i, Covers s a i → ¬ Covers s b i

/-! ## The search -/

theorem start_block_loop_free (entries : Entries) (total_blocks : Int) (n : Nat) (i : Int)
    (bc : Int) (hfree : ∀ j, i ≤ j → j < i + n → entries j = heapBlockTableEntryFree) :
    heapGetStartBlockLoop entries total_blocks n i bc (-1) = -ENOMEM := by
  induction n generalizing i bc with
  | zero => simp [heapGetStartBlockLoop]
  | succ n ih =>
    have hi : entries i = heapBlockTableEntryFree := hfree i (by omega) (by omega)
    rw [heapGetStartBlockLoop, hi, if_pos (by decide)]
    exact ih (i + 1) 0 fun j h1 h2 => hfree j (by omega) (by omega)

def AllFree (heap : Heap) : Prop :=
  ∀ i : Int, 0 ≤ i → i < heap.table.total → heap.table.entries i = heapBlockTableEntryFree

/-- The search passes over free entries, so an empty pool has nothing for anyone. -/
theorem malloc_of_all_free {heap : Heap} (hfree : AllFree heap) (size : BitVec 32) :
    heapMalloc heap size = (heap, 0) := by
  have hsearch : ∀ n, heapGetStartBlock heap n = -ENOMEM := fun n =>
    start_block_loop_free _ n _ 0 0 fun j h1 h2 => hfree j h1 (by omega)
  rw [heapMalloc, heapMallocBlocks, hsearch, if_pos (by decide)]

theorem create_all_free {ptr end_ : Addr} {table : HeapTable} {heap : Heap}
    (h : heapCreate ptr end_ table = (0, some heap)) :
    AllFree heap ∧ heap.table.total = table.total := by
  unfold heapCreate at h
  split at h
  · simp [EINVARG] at h
  · dsimp only at h
    split at h
    · simp only [Prod.mk.injEq] at h
      omega
    · simp only [Prod.mk.injEq, Option.some.injEq] at h
      obtain ⟨_, rfl⟩ := h
      refine ⟨?_, rfl⟩
      intro i h0 h1
      exact if_pos ⟨h0, h1⟩

theorem blocksFor_le {size : BitVec 32} {total : Nat} (h : size.toNat ≤ total * blockSize) :
    blocksFor size ≤ total := by
  unfold blocksFor blockSize at *
  omega

/-- Nothing was ever handed out. -/
def Unused (s : Pool) : Prop := AllFree s.heap ∧ s.live = []

theorem call_unused (s : Pool) (c : Call) (hs : Unused s) (hc : legal s c) : Unused (call s c) := by
  obtain ⟨hfree, hlive⟩ := hs
  cases c with
  | malloc size =>
    simp only [call, malloc_of_all_free hfree, if_true]
    exact ⟨hfree, hlive⟩
  | free ptr =>
    obtain ⟨size, hmem⟩ := hc
    rw [hlive] at hmem
    cases hmem

theorem unused_separate (s : Pool) (hs : Unused s) : Separate s := by
  rw [Separate, hs.2]
  simp

theorem room_of_unused {s : Pool} (hs : Unused s) {n : Nat} (hn : n ≤ s.heap.table.total) :
    Room s n := by
  refine ⟨0, by omega, ?_⟩
  intro i _ _ a ha
  rw [hs.2] at ha
  cases ha

theorem malloc_not_exact (s : Pool) (c : Call) (hs : Unused s) (hc : legal s c) :
    Exact s c ↔ ∀ size, c ≠ .malloc size := by
  cases c with
  | malloc size =>
    have hroom := room_of_unused hs (blocksFor_le hc.2)
    simp [Exact, malloc_of_all_free hs.1, hroom]
  | free ptr => simp [Exact]

/-- The runs on which the heap keeps its contract are those that ask it for nothing. -/
theorem heap_contract_iff {ptr end_ : Addr} {table : HeapTable} {heap : Heap}
    (h : heapCreate ptr end_ table = (0, some heap)) (calls : List Call)
    (hlegal : Each call legal ⟨heap, []⟩ calls) :
    Each call Exact ⟨heap, []⟩ calls ∧ Along call Separate ⟨heap, []⟩ calls ↔
      ∀ size, .malloc size ∉ calls := by
  have h0 : Unused ⟨heap, []⟩ := ⟨(create_all_free h).1, rfl⟩
  have hsep : Along call Separate ⟨heap, []⟩ calls :=
    (along_of_inv call_unused h0 hlegal).mono unused_separate
  have hexact := each_of_inv call_unused malloc_not_exact h0 hlegal
  constructor
  · rintro ⟨he, -⟩ size hmem
    have hno : Each call (fun _ c => ∀ size, c ≠ .malloc size) ⟨heap, []⟩ calls :=
      (each_and.mpr ⟨hexact, he⟩).imp fun s c hc => hc.1.mp hc.2
    exact each_iff_forall.mp hno _ hmem size rfl
  · intro hno
    refine ⟨?_, hsep⟩
    have hnone : Each call (fun _ c => ∀ size, c ≠ .malloc size) ⟨heap, []⟩ calls :=
      each_iff_forall.mpr fun c hc size he => hno size (he ▸ hc)
    exact (each_and.mpr ⟨hexact, hnone⟩).imp fun s c hc => hc.1.mpr hc.2

/-- The kernel's own pool, with a single block. -/
def onePage : HeapTable := ⟨fun _ => heapBlockTableEntryFree, 1⟩

def onePageHeap : Heap := ⟨{ onePage with entries := freeEntries onePage.entries 1 }, 0x01000000⟩

theorem onePage_create : heapCreate 0x01000000 0x01001000 onePage = (0, some onePageHeap) := rfl

theorem onePage_legal : Each call legal ⟨onePageHeap, []⟩ [.malloc 1, .malloc 4096] := by
  have h1 : legal ⟨onePageHeap, []⟩ (.malloc 1) := by
    constructor <;> decide
  have hu : Unused ⟨onePageHeap, []⟩ := ⟨(create_all_free onePage_create).1, rfl⟩
  have hsame : call ⟨onePageHeap, []⟩ (.malloc 1) = ⟨onePageHeap, []⟩ := by
    simp only [call, malloc_of_all_free hu.1, if_true]
  refine ⟨h1, ?_, trivial⟩
  rw [hsame]
  constructor <;> decide

theorem heap_contract_two_requests :
    Each call Exact ⟨onePageHeap, []⟩ [.malloc 1, .malloc 4096] ∧
        Along call Separate ⟨onePageHeap, []⟩ [.malloc 1, .malloc 4096] ↔
      ∀ size, .malloc size ∉ [Call.malloc 1, .malloc 4096] :=
  heap_contract_iff onePage_create _ onePage_legal

/-- One byte from a pool of one free block: refused. -/
theorem heap_refuses_first_request :
    heapCreate 0x01000000 0x01001000 onePage = (0, some onePageHeap) ∧
      Each call legal ⟨onePageHeap, []⟩ [.malloc 1] ∧
      ¬ (Each call Exact ⟨onePageHeap, []⟩ [.malloc 1] ∧
        Along call Separate ⟨onePageHeap, []⟩ [.malloc 1]) := by
  have hu : Unused ⟨onePageHeap, []⟩ := ⟨(create_all_free onePage_create).1, rfl⟩
  refine ⟨onePage_create, ⟨onePage_legal.1, trivial⟩, ?_⟩
  rintro ⟨⟨he, -⟩, -⟩
  exact (malloc_not_exact _ _ hu onePage_legal.1).mp he 1 rfl

end MultitaskOs.Heap
