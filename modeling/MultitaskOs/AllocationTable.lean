import MultitaskOs.ProcessMemory

/-!
# The allocation table is exact

A ledger runs beside the kernel: what `process_malloc` handed out and
`process_free` has not taken back. Whatever the calls and whichever requests
fail, the table, the ledger and the heap tell the same story.
-/

open Lib Lib.Memory Lib.Arena Lib.Run MultitaskOs.Paging MultitaskOs.Tasks MultitaskOs.ProcessMemory

namespace MultitaskOs.AllocationTable

inductive MemCall where
  | malloc (size : BitVec 32)
  | free (ptr : Addr)

structure Ledger where
  kernel : Kernel
  owned : List ProcessAllocation

def ledgerStep (p : Addr) (s : Ledger) : MemCall → Ledger
  | .malloc size =>
    ⟨(processMalloc s.kernel p size).1,
      if (processMalloc s.kernel p size).2 = 0 then s.owned
      else ⟨(processMalloc s.kernel p size).2, size⟩ :: s.owned⟩
  | .free ptr => ⟨processFree s.kernel p ptr, s.owned.filter (·.ptr ≠ ptr)⟩

/-- `k0` is the kernel before the first call. -/
structure TableExact (k0 : Kernel) (p : Addr) (s : Ledger) : Prop where
  distinct : ∀ i < maxProgramAllocations, ∀ j < maxProgramAllocations,
    (allocation s.kernel p i).ptr ≠ 0 →
      (allocation s.kernel p i).ptr = (allocation s.kernel p j).ptr → i = j
  owned : ∀ a, a ∈ s.owned ↔ ∃ i < maxProgramAllocations, allocation s.kernel p i = a ∧ a.ptr ≠ 0
  live : ∀ b, b ∈ s.kernel.heap.live ↔
    b ∈ k0.heap.live ∨ ∃ a ∈ s.owned, b = ⟨a.ptr, a.size.toNat⟩
  new : ∀ a ∈ s.owned, ¬ k0.heap.Live a.ptr

/-- What a call must leave alone: all of it when `process_malloc` returns 0, which it does with no
slot left, and all of it when `process_free` is given a pointer that is not in the table. -/
def CallExact (p : Addr) (s : Ledger) : MemCall → Prop
  | .malloc size =>
    ((∀ i < maxProgramAllocations, (allocation s.kernel p i).ptr ≠ 0) →
      (processMalloc s.kernel p size).2 = 0) ∧
    ((processMalloc s.kernel p size).2 = 0 →
      (∀ i, allocation (processMalloc s.kernel p size).1 p i = allocation s.kernel p i) ∧
      (∀ v < 2 ^ 20, pageEntry (processMalloc s.kernel p size).1 p v = pageEntry s.kernel p v) ∧
      (processMalloc s.kernel p size).1.heap.live = s.kernel.heap.live)
  | .free ptr =>
    (∀ i < maxProgramAllocations, (allocation s.kernel p i).ptr ≠ ptr) →
      processFree s.kernel p ptr = s.kernel

variable {k0 k : Kernel} {p : Addr} {dir : Addr → PageDir} {s : Ledger}

/-! ## `process_malloc` -/

theorem TableExact.unchanged (h : TableExact k0 p s) (hu : Unchanged s.kernel k) :
    TableExact k0 p ⟨k, s.owned⟩ := by
  have hal : ∀ i, allocation k p i = allocation s.kernel p i := by
    intro i
    rw [allocation, allocation, hu.procs]
  refine ⟨?_, ?_, ?_, h.new⟩
  · intro i hi j hj
    rw [hal, hal]
    exact h.distinct i hi j hj
  · intro a
    simp only [hal]
    exact h.owned a
  · intro b
    rw [hu.live]
    exact h.live b

theorem TableExact.malloced (h : TableExact k0 p s) (hw : World k [p] dir) {ptr : Addr}
    {size : BitVec 32} {d : PageDir} {i : Nat} (hm : Malloced s.kernel k p ptr size d i)
    (h0 : ptr ≠ 0) : TableExact k0 p ⟨k, ⟨ptr, size⟩ :: s.owned⟩ := by
  have hp := List.mem_singleton_self p
  have hal : ∀ j, allocation k p j = if j = i then ⟨ptr, size⟩ else allocation s.kernel p j := by
    intro j
    rw [hm.allocation_eq]
    simp
  refine ⟨?_, ?_, ?_, ?_⟩
  · intro j hj l hl hj0 he
    exact (hw.distinct p hp p hp j hj l hl hj0 he).2
  · intro a
    rw [List.mem_cons, h.owned]
    constructor
    · rintro (rfl | ⟨j, hj, ha, ha0⟩)
      · exact ⟨i, hm.slot, by rw [hal, if_pos rfl], h0⟩
      · refine ⟨j, hj, ?_, ha0⟩
        rw [hal, if_neg, ha]
        rintro rfl
        have hfree : (allocation s.kernel p j).ptr = 0 := hm.was_free
        exact ha0 (ha ▸ hfree)
    · rintro ⟨j, hj, ha, ha0⟩
      rw [hal] at ha
      split at ha
      · exact Or.inl ha.symm
      · exact Or.inr ⟨j, hj, ha, ha0⟩
  · intro b
    rw [hm.live, List.mem_cons, h.live]
    simp only [List.exists_mem_cons_iff]
    tauto
  · intro a ha hl
    rcases List.mem_cons.mp ha with rfl | ha
    · obtain ⟨n, hn⟩ := hl
      exact hm.not_live ⟨n, (h.live _).mpr (Or.inl hn)⟩
    · exact h.new a ha hl

/-! ## `process_free` -/

theorem TableExact.free (h : TableExact k0 p s) (ptr : Addr) :
    TableExact k0 p (ledgerStep p s (.free ptr)) := by
  rw [ledgerStep]
  by_cases hheld : Held (s.kernel.procs p) ptr
  · rw [processFree_of_held hheld]
    generalize hk : ({ s.kernel with
      toKmem := kfree s.kernel.toKmem ptr
      procs := Function.update s.kernel.procs p (processAllocationUnjoin (s.kernel.procs p) ptr) } :
        Kernel) = k'
    have hlive : k'.heap = s.kernel.heap.free ptr := by rw [← hk]; rfl
    have hal : ∀ j < maxProgramAllocations, allocation k' p j =
        if (allocation s.kernel p j).ptr = ptr then ⟨0, 0⟩ else allocation s.kernel p j := by
      intro j hj
      rw [← hk, unjoin_allocation _ _ _ _ _ hj]
      simp only [true_and]
    refine ⟨?_, ?_, ?_, ?_⟩
    · intro j hj l hl
      rw [hal j hj, hal l hl]
      split
      · exact fun h0 _ => absurd rfl h0
      · split
        · exact fun h0 he => absurd he h0
        · exact h.distinct j hj l hl
    · intro a
      simp only [List.mem_filter, h.owned, decide_eq_true_eq]
      constructor
      · rintro ⟨⟨j, hj, ha, ha0⟩, hne⟩
        exact ⟨j, hj, by rw [hal j hj, ha, if_neg hne], ha0⟩
      · rintro ⟨j, hj, ha, ha0⟩
        rw [hal j hj] at ha
        split at ha
        · exact absurd (congrArg ProcessAllocation.ptr ha).symm ha0
        · rename_i hne
          exact ⟨⟨j, hj, ha, ha0⟩, ha ▸ hne⟩
    · intro b
      -- a block that was live before the first call is not the one given back
      have hold : b ∈ k0.heap.live → b.base ≠ ptr := by
        rintro hb rfl
        obtain ⟨i, hi, hptr⟩ := hheld
        have hi0 : b.base ≠ 0 := (k0.heap.placed b hb).1
        exact h.new _ ((h.owned _).mpr ⟨i, hi, rfl, fun h0 => hi0 (hptr ▸ h0)⟩) ⟨b.size, by
          rw [show (allocation s.kernel p i).ptr = b.base from hptr]
          exact hb⟩
      rw [hlive, Arena.mem_free_live, h.live]
      simp only [List.mem_filter, decide_eq_true_eq]
      constructor
      · rintro ⟨hb | ⟨a, ha, rfl⟩, hne⟩
        · exact Or.inl hb
        · exact Or.inr ⟨a, ⟨ha, hne⟩, rfl⟩
      · rintro (hb | ⟨a, ⟨ha, hne⟩, rfl⟩)
        · exact ⟨Or.inl hb, hold hb⟩
        · exact ⟨Or.inr ⟨a, ha, rfl⟩, hne⟩
    · intro a ha
      exact h.new a (List.mem_of_mem_filter ha)
  · rw [processFree_of_not_held hheld]
    have hnot : ∀ a ∈ s.owned, a.ptr ≠ ptr := by
      intro a ha he
      obtain ⟨i, hi, hai, -⟩ := (h.owned a).mp ha
      exact hheld ⟨i, hi, he ▸ congrArg ProcessAllocation.ptr hai⟩
    rw [List.filter_eq_self.mpr (by simpa using hnot)]
    exact h

/-! ## Runs -/

attribute [local irreducible] processMalloc processFree

/-- The invariant of the run: the world of this one process, and the ledger. -/
structure Kept (k0 : Kernel) (p : Addr) (dir : Addr → PageDir) (s : Ledger) : Prop where
  world : World s.kernel [p] dir
  exact : TableExact k0 p s

theorem Kept.step (h : Kept k0 p dir s) (c : MemCall) : Kept k0 p dir (ledgerStep p s c) := by
  have hp := List.mem_singleton_self p
  cases c with
  | free ptr => exact ⟨h.world.free hp ptr, h.exact.free ptr⟩
  | malloc size =>
    have hw := h.world.malloc hp size
    rw [ledgerStep]
    rcases processMalloc_cases size (h.world.directory p hp) (h.world.inMem hp)
      with ⟨h0, hu⟩ | ⟨i, h0, hm⟩
    · rw [if_pos h0]
      exact ⟨hw, h.exact.unchanged hu⟩
    · rw [if_neg h0]
      exact ⟨hw, h.exact.malloced hw hm h0⟩

theorem Kept.callExact (h : Kept k0 p dir s) (c : MemCall) : CallExact p s c := by
  have hp := List.mem_singleton_self p
  cases c with
  | free ptr => exact fun hnot => processFree_of_not_held fun ⟨i, hi, he⟩ => hnot i hi he
  | malloc size =>
    rcases processMalloc_cases size (h.world.directory p hp) (h.world.inMem hp)
      with ⟨h0, hu⟩ | ⟨i, h0, hm⟩
    · refine ⟨fun _ => h0, fun _ => ⟨?_, ?_, hu.live⟩⟩
      · intro i
        rw [allocation, allocation, hu.procs]
      · intro v hv
        have hw := h.world.unchanged hu
        rw [pageEntry_eq (hw.directory p hp) (hw.holds p hp) hv,
          pageEntry_eq (h.world.directory p hp) (h.world.holds p hp) hv]
        exact (h.world.inMem hp).entry_keeps hu.keeps hv
    · exact ⟨fun hfull => absurd hm.was_free (hfull i hm.slot), fun h' => absurd h' h0⟩

/-- For every sequence of calls by a process whose table starts empty, and whatever the heap
answers. -/
theorem allocation_table_exact (hw : World k [p] dir)
    (hempty : ∀ i < maxProgramAllocations, (allocation k p i).ptr = 0) (calls : List MemCall) :
    Along (ledgerStep p) (TableExact k p) ⟨k, []⟩ calls ∧
      Each (ledgerStep p) (CallExact p) ⟨k, []⟩ calls := by
  have hstart : Kept k p dir ⟨k, []⟩ := by
    refine ⟨hw, ⟨?_, ?_, by simp, by simp⟩⟩
    · exact fun i hi j hj h0 => absurd (hempty i hi) h0
    · intro a
      simp only [List.not_mem_nil, false_iff, not_exists, not_and, not_not]
      rintro i hi rfl
      exact hempty i hi
  have hall : Each (ledgerStep p) (fun _ _ => True) ⟨k, []⟩ calls := each_iff_forall.mpr fun _ _ => trivial
  have halong : Along (ledgerStep p) (Kept k p dir) ⟨k, []⟩ calls :=
    along_of_inv (fun s c h _ => Kept.step h c) hstart hall
  refine ⟨halong.mono fun s h => h.exact, ?_⟩
  exact each_of_inv (fun s c h _ => Kept.step h c) (fun s c h _ => Kept.callExact h c) hstart hall

attribute [local irreducible] spawn

theorem allocation_table_exact_spawned :
    Along (ledgerStep (spawn emptyKernel).2) (TableExact (spawn emptyKernel).1 (spawn emptyKernel).2)
        ⟨(spawn emptyKernel).1, []⟩ [.malloc 5000, .free 0x1000, .malloc 0xFFFFFFFF, .malloc 1] ∧
      Each (ledgerStep (spawn emptyKernel).2) (CallExact (spawn emptyKernel).2)
        ⟨(spawn emptyKernel).1, []⟩ [.malloc 5000, .free 0x1000, .malloc 0xFFFFFFFF, .malloc 1] := by
  obtain ⟨dir, hw, hempty⟩ := spawn_alone (k := emptyKernel) (spare_emptyKmem (by decide))
  exact allocation_table_exact hw (fun i _ => hempty i) _

end MultitaskOs.AllocationTable
