import MultitaskOs.Code.Heap
import MultitaskOs.ProcessMemory

/-!
# Freeing what a process does not hold

A free slot of the allocation table holds NULL, so NULL is found in it.
-/

open Lib.Memory MultitaskOs.ProcessMemory

namespace MultitaskOs.FreeUnowned

variable {k : Kernel} {process ptr : Addr}

def Holds (p : Process) (ptr : Addr) : Prop := ptr ≠ 0 ∧ Held p ptr

def Full (p : Process) : Prop := ∀ i < maxProgramAllocations, (p.allocations i).ptr ≠ 0

/-- The call writes nothing, calls nothing and leaves the kernel as it was. -/
structure NoEffect (k : Kernel) (process ptr : Addr) : Prop where
  log : (processFreeLogged k process ptr).2 = []
  kernel : processFree k process ptr = k

theorem processFreeLogged_kernel (k : Kernel) (process ptr : Addr) :
    (processFreeLogged k process ptr).1 = processFree k process ptr := by
  unfold processFreeLogged processFree
  dsimp only
  split
  · rfl
  · split
    · rfl
    · split <;> rfl

theorem noEffect_of_not_held (h : ¬ Held (k.procs process) ptr) : NoEffect k process ptr := by
  refine ⟨?_, processFree_of_not_held h⟩
  have hnone : findAllocation (k.procs process) ptr = none := by
    rw [findAllocation_none]
    exact fun i hi he => h ⟨i, hi, he⟩
  unfold processFreeLogged processIsProcessPointer
  rw [hnone]
  rfl

theorem kfree_mem_log (h : Held (k.procs process) ptr) :
    FreeEffect.kfree ptr ∈ (processFreeLogged k process ptr).2 := by
  obtain ⟨i, hi⟩ := held_iff.mp h
  obtain ⟨hlt, hptr⟩ := findAllocation_some hi
  have hclear : (processAllocationUnjoin (k.procs process) ptr).allocations i = ⟨0, 0⟩ := if_pos ⟨hlt, hptr⟩
  unfold processFreeLogged processIsProcessPointer processGetAllocationByAddr
  rw [hi]
  simp only [Option.isSome_some, Bool.not_true, Bool.false_eq_true, if_false, Kernel.setProc_self, hclear,
    pagingMapTo_nothing, lt_irrefl]
  exact List.mem_append_right _ (List.mem_singleton_self _)

/-- For every process and every pointer that is not one of its allocations. -/
theorem processFree_unowned_iff (h : ¬ Holds (k.procs process) ptr) :
    NoEffect k process ptr ↔ ptr ≠ 0 ∨ Full (k.procs process) := by
  by_cases hheld : Held (k.procs process) ptr
  · have h0 : ptr = 0 := by
      by_contra h0
      exact h ⟨h0, hheld⟩
    refine iff_of_false (fun hno => ?_) ?_
    · have hmem := kfree_mem_log hheld
      rw [hno.log] at hmem
      cases hmem
    · rintro (hne | hfull)
      · exact hne h0
      · obtain ⟨i, hi, hptr⟩ := hheld
        exact hfull i hi (hptr.trans h0)
  · refine iff_of_true (noEffect_of_not_held hheld) ?_
    by_cases h0 : ptr = 0
    · exact Or.inr fun i hi hptr => hheld ⟨i, hi, hptr.trans h0.symm⟩
    · exact Or.inl h0

theorem not_holds_null (p : Process) : ¬ Holds p 0 := fun h => h.1 rfl

theorem processFree_unowned_null : NoEffect Tasks.emptyKernel 1 0 ↔ (0 : Addr) ≠ 0 ∨ Full (Tasks.emptyKernel.procs 1) :=
  processFree_unowned_iff (not_holds_null _)

def takenHeap : Heap := ⟨⟨fun _ => heapBlockTableEntryTaken, 25600⟩, 0x01000000⟩

/-- A process that has no allocations frees NULL: it comes to the heap, which clears a byte 4096
bytes before its table. -/
theorem processFree_null_clears :
    ¬ Holds (Tasks.emptyKernel.procs 1) 0 ∧ ¬ NoEffect Tasks.emptyKernel 1 0 ∧
      FreeEffect.kfree 0 ∈ (processFreeLogged Tasks.emptyKernel 1 0).2 ∧
      takenHeap.table.entries (-4096) ≠ heapBlockTableEntryFree ∧
      (heapFree takenHeap 0).table.entries (-4096) = heapBlockTableEntryFree := by
  have hmem : FreeEffect.kfree 0 ∈ (processFreeLogged Tasks.emptyKernel 1 0).2 := kfree_mem_log ⟨0, by decide, rfl⟩
  refine ⟨not_holds_null _, fun hno => ?_, hmem, by decide, ?_⟩
  · rw [hno.log] at hmem
    cases hmem
  · have hblock : heapAddressToBlock takenHeap 0 = -4096 := by decide
    have hcount : ((25600 : Nat) - (-4096 : Int)).toNat = 29695 + 1 := rfl
    have hlast : heapBlockTableEntryTaken &&& heapBlockHasNext = 0 := by decide
    rw [heapFree, hblock, heapMarkBlocksFree, takenHeap]
    dsimp only
    rw [hcount, heapMarkBlocksFreeLoop, if_pos hlast, Function.update_self]

end MultitaskOs.FreeUnowned
