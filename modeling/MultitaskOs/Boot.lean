import MultitaskOs.Heap
import MultitaskOs.Lib.Mmu
import MultitaskOs.Paging

/-!
# The start of the kernel

The heap that `kheap_init` makes has nothing for anyone. So the directory that `paging_new_4gb` makes
next lies at address 0, and its first entry is overwritten: with paging enabled, no access to the first
4 MiB goes through, where the kernel is.
-/

open Lib Lib.Memory Lib.Arena Lib.Run Lib.Mmu MultitaskOs.Heap MultitaskOs.Paging

namespace MultitaskOs.Boot

/-! ## The heap as an arena -/

inductive Request where
  | kmalloc (size : BitVec 32)
  | kfree (ptr : Addr)

def heapAnswer (h : MultitaskOs.Heap) : Request → MultitaskOs.Heap × Addr
  | .kmalloc size => heapMalloc h size
  | .kfree ptr => (heapFree h ptr, 0)

def arenaAnswer (a : Arena blockSize) : Request → Arena blockSize × Addr
  | .kmalloc size => a.alloc size.toNat
  | .kfree ptr => (a.free ptr, 0)

/-- The arena answers every run of requests as the heap does. -/
def StandsFor (a : Arena blockSize) (h : MultitaskOs.Heap) : Prop :=
  ∀ requests, answers heapAnswer h requests = answers arenaAnswer a requests

variable {a : Arena blockSize} {heap : MultitaskOs.Heap} {entries : Entries} {k : Kmem} {n : Nat} {i j : Int}

theorem freeLoop_entry (n : Nat) (i : Int) (entries : Entries) (j : Int) :
    heapMarkBlocksFreeLoop n i entries j = entries j ∨
      heapMarkBlocksFreeLoop n i entries j = heapBlockTableEntryFree := by
  induction n generalizing i entries with
  | zero => exact Or.inl rfl
  | succ n ih =>
    have hone : Function.update entries i heapBlockTableEntryFree j = entries j ∨
        Function.update entries i heapBlockTableEntryFree j = heapBlockTableEntryFree := by
      rw [Function.update_apply]
      split_ifs
      · exact Or.inr rfl
      · exact Or.inl rfl
    rw [heapMarkBlocksFreeLoop]
    split_ifs
    · exact hone
    · rcases ih (i + 1) (Function.update entries i heapBlockTableEntryFree) with h | h
      · rwa [h]
      · exact Or.inr h

theorem free_all_free (h : AllFree heap) (ptr : Addr) : AllFree (heapFree heap ptr) := by
  intro i h0 h1
  rcases freeLoop_entry (heap.table.total - heapAddressToBlock heap ptr).toNat (heapAddressToBlock heap ptr)
    heap.table.entries i with hi | hi
  · exact hi.trans (h i h0 h1)
  · exact hi

theorem heapAnswer_zero (h : AllFree heap) (r : Request) :
    (heapAnswer heap r).2 = 0 ∧ AllFree (heapAnswer heap r).1 := by
  cases r with
  | kmalloc size =>
    rw [heapAnswer, malloc_of_all_free h]
    exact ⟨rfl, h⟩
  | kfree ptr => exact ⟨rfl, free_all_free h ptr⟩

theorem arenaAnswer_zero (h : ∀ n, a.answer n = 0) (r : Request) :
    (arenaAnswer a r).2 = 0 ∧ ∀ n, (arenaAnswer a r).1.answer n = 0 := by
  cases r with
  | kmalloc size =>
    have hfit : ¬ a.Fits ⟨a.answer a.asked, size.toNat⟩ := fun hfit => hfit.1.1 (h _)
    rw [arenaAnswer, Arena.alloc, dif_neg hfit]
    exact ⟨rfl, h⟩
  | kfree ptr => exact ⟨rfl, h⟩

theorem bump_standsFor (h : AllFree heap) : StandsFor (Arena.bump blockSize 0) heap := by
  have h0 : ∀ n, (Arena.bump blockSize 0).answer n = 0 := fun n => by simp [Arena.bump]
  refine answers_simulated (fun heap a => AllFree heap ∧ ∀ n, a.answer n = 0) (fun heap a r hr => ?_) ⟨h, h0⟩
  obtain ⟨hheap, hfree⟩ := heapAnswer_zero hr.1 r
  obtain ⟨harena, hzero⟩ := arenaAnswer_zero hr.2 r
  exact ⟨hheap.trans harena.symm, hfree, hzero⟩

/-! ## An arena that has nothing -/

/-- Every request is refused, now and later. -/
def Silent (a : Arena blockSize) : Prop := ∀ requests, ∀ x ∈ answers arenaAnswer a requests, x = 0

theorem StandsFor.silent (h : StandsFor a heap) (hfree : AllFree heap) : Silent a := by
  intro requests
  rw [← h requests]
  clear h
  induction requests generalizing heap with
  | nil => simp [answers]
  | cons r requests ih =>
    obtain ⟨hzero, hnext⟩ := heapAnswer_zero hfree r
    rw [answers, hzero]
    exact List.forall_mem_cons.mpr ⟨rfl, ih hnext⟩

theorem Silent.alloc (h : Silent a) (size : BitVec 32) :
    (a.alloc size.toNat).2 = 0 ∧ Silent (a.alloc size.toNat).1 := by
  constructor
  · exact h [.kmalloc size] _ (List.mem_singleton_self _)
  · intro requests x hx
    exact h (.kmalloc size :: requests) x (List.mem_cons_of_mem _ hx)

theorem Silent.kzalloc (h : Silent k.heap) (size : BitVec 32) :
    (kzalloc k size.toNat).2 = 0 ∧ Silent (kzalloc k size.toNat).1.heap := by
  obtain ⟨hzero, hnext⟩ := h.alloc size
  rw [MultitaskOs.kzalloc, kmalloc]
  dsimp only
  rw [if_pos hzero]
  exact ⟨rfl, hnext⟩

/-! ## The first directory -/

theorem newTable_silent (directory : Addr) (f : BitVec 32) (i : Nat) {s : Kmem × BitVec 32} (h : Silent s.1.heap) :
    Silent (pagingNewTable directory f i s).1.heap := (h.kzalloc (4096 : BitVec 32)).2

/-- Without memory, the address of the directory overwrites its first entry. -/
theorem pagingNew4gb_silent (h : Silent k.heap) (f : BitVec 8) :
    (pagingNew4gb k f).2 = 0 ∧ load32 (pagingNew4gb k f).1.mem 0 = 0 := by
  obtain ⟨hdirectory, hnext⟩ := h.kzalloc (4096 : BitVec 32)
  obtain ⟨s, hs⟩ : ∃ s : Kmem × BitVec 32, forN pagingTotalEntriesPerTable (pagingNewTable 0 (f.setWidth 32))
    ((MultitaskOs.kzalloc k 4096).1, 0) = s := ⟨_, rfl⟩
  have hsilent : Silent s.1.heap := by
    rw [← hs]
    exact forN_of_inv (fun _ (s : Kmem × BitVec 32) => Silent s.1.heap)
      hnext fun i s _ hinv => newTable_silent 0 _ i hinv
  obtain ⟨hchunk, -⟩ := hsilent.kzalloc (4 : BitVec 32)
  have hfirst : MultitaskOs.kzalloc k (4 * pagingTotalEntriesPerTable) = ((MultitaskOs.kzalloc k 4096).1, 0) :=
    Prod.ext rfl hdirectory
  rw [pagingNew4gb_eq hfirst hs]
  refine ⟨hchunk, ?_⟩
  dsimp only
  rw [show (MultitaskOs.kzalloc s.1 4).2 = 0 from hchunk, load32_store32]

/-- In every memory, and for every allocator that answers as the heap of `kheap_init` does: once paging is
enabled on the first directory that the kernel makes, no access to the first 4 MiB goes through. -/
theorem boot_faults (entries : Entries) : ∃ heap, kheapInit entries = (0, some heap) ∧ (∃ a, StandsFor a heap) ∧
    ∀ a, StandsFor a heap → ∀ m f wp access v, v.toNat < 2 ^ 22 →
      Mmu.translate wp (pagingNew4gb ⟨m, a⟩ f).1.mem
        (load32 (pagingNew4gb ⟨m, a⟩ f).1.mem (pagingNew4gb ⟨m, a⟩ f).2) access v = none := by
  obtain ⟨heap, hinit⟩ : ∃ heap, kheapInit entries = (0, some heap) := ⟨_, rfl⟩
  obtain ⟨hfree, -⟩ := create_all_free hinit
  refine ⟨heap, hinit, ⟨_, bump_standsFor hfree⟩, fun a ha m f wp access v hv => ?_⟩
  obtain ⟨hchunk, hzero⟩ := pagingNew4gb_silent (k := ⟨m, a⟩) (ha.silent hfree) f
  have hslot : directorySlot 0 v = 0 := by
    rw [directorySlot, Nat.div_eq_of_lt hv]
    rfl
  rw [hchunk, hzero, Mmu.translate, hslot, hzero]
  rfl

end MultitaskOs.Boot
