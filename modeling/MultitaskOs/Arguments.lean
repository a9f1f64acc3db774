import MultitaskOs.Code.Arguments
import MultitaskOs.Lib.DList
import MultitaskOs.ProcessMemory

/-!
# The list of arguments a command is given

Both loops over the list go on until they come to NULL. The second one asks for
a block at each node as well, and a process has 1024 slots for blocks.
-/

open Lib Lib.Memory Lib.DList MultitaskOs.ProcessMemory

namespace MultitaskOs.Arguments

/-- From `root` on the links lead through the nodes `ns` to NULL. -/
structure Listed (m : Mem) (root : Addr) (ns : List Addr) : Prop where
  path : Path (nextArgument m) root ns 0
  nonzero : ∀ n ∈ ns, n ≠ 0

def Ends (m : Mem) (root : Addr) : Prop := ∃ ns, Listed m root ns

def free (k : Kernel) (p : Addr) : Nat :=
  ((Finset.range maxProgramAllocations).filter fun i => (allocation k p i).ptr = 0).card

variable {k k' : Kernel} {m : Mem} {process argv root n current ptr : Addr} {ns : List Addr} {i : Int}
  {turns : Nat} {size : BitVec 32}

/-! ## The list -/

theorem listed_nil : Listed m 0 [] := ⟨rfl, by simp⟩

theorem Listed.root_eq_zero (h : Listed m root []) : root = 0 := h.path

theorem listed_cons : Listed m root (n :: ns) ↔ root = n ∧ n ≠ 0 ∧ Listed m (nextArgument m n) ns := by
  constructor
  · rintro ⟨⟨rfl, hpath⟩, hnz⟩
    exact ⟨rfl, hnz _ List.mem_cons_self, hpath, fun x hx => hnz x (List.mem_cons_of_mem _ hx)⟩
  · rintro ⟨rfl, h0, hpath, hnz⟩
    refine ⟨⟨rfl, hpath⟩, ?_⟩
    rintro x (_ | ⟨_, hx⟩)
    · exact h0
    · exact hnz x hx

theorem ends_zero : Ends m 0 := ⟨[], listed_nil⟩

theorem Ends.cons (h : Ends m (nextArgument m root)) (h0 : root ≠ 0) : Ends m root := by
  obtain ⟨ns, h⟩ := h
  exact ⟨root :: ns, listed_cons.mpr ⟨rfl, h0, h⟩⟩

theorem not_ends_self (h0 : root ≠ 0) (hself : nextArgument m root = root) : ¬ Ends m root := by
  rintro ⟨ns, h⟩
  induction ns with
  | nil => exact h0 h.root_eq_zero
  | cons n ns ih =>
    obtain ⟨rfl, -, h⟩ := listed_cons.mp h
    exact ih (hself ▸ h)

/-! ## Counting -/

theorem countLoop_listed (h : Listed m current ns) (hi : toInt32 i = i) (hturns : ns.length < turns) :
    processCountCommandArgumentsLoop m turns current i = some (toInt32 (i + ns.length)) := by
  induction ns generalizing current i turns with
  | nil =>
    obtain ⟨turns, rfl⟩ := Nat.exists_eq_add_one_of_ne_zero (Nat.ne_of_gt hturns)
    rw [processCountCommandArgumentsLoop, if_pos h.root_eq_zero]
    simp [hi]
  | cons n ns ih =>
    obtain ⟨rfl, h0, h⟩ := listed_cons.mp h
    obtain ⟨turns, rfl⟩ := Nat.exists_eq_add_one_of_ne_zero (Nat.ne_of_gt (Nat.zero_lt_of_lt hturns))
    rw [List.length_cons] at hturns
    have hidem : toInt32 (toInt32 (i + 1)) = toInt32 (i + 1) := by simpa using toInt32_add (i + 1) 0
    rw [processCountCommandArgumentsLoop, if_neg h0, ih h hidem (by omega), toInt32_add, List.length_cons]
    congr 2
    push_cast
    ring

theorem count_listed (h : Listed m root ns) (hturns : ns.length < turns) :
    processCountCommandArguments m turns root = some (toInt32 ns.length) := by
  rw [processCountCommandArguments, countLoop_listed h (by decide) hturns, Int.zero_add]

theorem countLoop_ends (h : processCountCommandArgumentsLoop m turns current i ≠ none) : Ends m current := by
  induction turns generalizing current i with
  | zero => exact absurd rfl h
  | succ turns ih =>
    rw [processCountCommandArgumentsLoop] at h
    by_cases h0 : current = 0
    · exact h0 ▸ ends_zero
    · rw [if_neg h0] at h
      exact (ih h).cons h0

theorem count_ends_iff : (∃ turns, processCountCommandArguments m turns root ≠ none) ↔ Ends m root := by
  constructor
  · rintro ⟨turns, h⟩
    exact countLoop_ends h
  · rintro ⟨ns, h⟩
    exact ⟨ns.length + 1, by simp [count_listed h (Nat.lt_succ_self _)]⟩

/-! ## A slot for each block -/

theorem free_update (size : BitVec 32) {j : Nat} (hj : j < maxProgramAllocations)
    (h0 : (allocation k process j).ptr = 0) (hptr : ptr ≠ 0)
    (heq : ∀ l, allocation k' process l = if l = j then ⟨ptr, size⟩ else allocation k process l) :
    free k' process + 1 = free k process := by
  have hmem : j ∈ (Finset.range maxProgramAllocations).filter fun l => (allocation k process l).ptr = 0 :=
    Finset.mem_filter.mpr ⟨Finset.mem_range.mpr hj, h0⟩
  have herase : ((Finset.range maxProgramAllocations).filter fun l => (allocation k' process l).ptr = 0) =
      ((Finset.range maxProgramAllocations).filter fun l => (allocation k process l).ptr = 0).erase j := by
    ext l
    rw [Finset.mem_erase, Finset.mem_filter, Finset.mem_filter, heq]
    by_cases hl : l = j
    · simpa [hl] using fun _ => hptr
    · simp [hl]
  rw [free, free, herase, Finset.card_erase_add_one hmem]

theorem processMalloc_free (hptr : (processMalloc k process size).2 ≠ 0) :
    free (processMalloc k process size).1 process + 1 = free k process := by
  obtain ⟨⟨m1, ptr⟩, h1⟩ : ∃ r, kzalloc k.toKmem size.toNat = r := ⟨_, rfl⟩
  rw [processMalloc, Kernel.onKmem_eq h1] at hptr ⊢
  dsimp only at hptr ⊢
  by_cases h0 : ptr = 0
  · rw [if_pos h0] at hptr
    exact absurd rfl hptr
  rw [if_neg h0] at hptr ⊢
  by_cases hidx : processFindFreeAllocationIndex (k.procs process) < 0
  · rw [if_pos hidx] at hptr
    exact absurd rfl hptr
  rw [if_neg hidx] at hptr ⊢
  generalize pagingMapTo m1.mem _ ptr ptr _ _ = r at hptr ⊢
  obtain ⟨mem, res⟩ := r
  dsimp only at hptr ⊢
  by_cases hres : res < 0
  · rw [if_pos hres] at hptr
    exact absurd rfl hptr
  rw [if_neg hres]
  cases hfind : findAllocation (k.procs process) 0 with
  | none =>
    rw [freeIndex_none hfind] at hidx
    exact absurd (by decide : -ENOMEM < 0) hidx
  | some j =>
    obtain ⟨hj, hfree⟩ := findAllocation_some hfind
    rw [freeIndex_some hfind, Int.toNat_natCast]
    refine free_update size hj hfree h0 fun l => ?_
    rw [allocation, Kernel.setProc_self]
    exact Function.update_apply _ _ _ _

theorem free_withMem (k : Kernel) (process : Addr) (mem : Mem) : free { k with mem } process = free k process := rfl

/-! ## Both loops -/

/-- Every turn takes a slot, so there are not more turns than slots. -/
theorem injectLoop_ends (hturns : free k process < turns) :
    processInjectArgumentsLoop process argv turns k current i ≠ none := by
  induction turns generalizing k current i with
  | zero => exact absurd hturns (Nat.not_lt_zero _)
  | succ turns ih =>
    rw [processInjectArgumentsLoop]
    by_cases h0 : current = 0
    · simp [h0]
    rw [if_neg h0]
    obtain ⟨⟨k1, ptr⟩, h1⟩ : ∃ r, processMalloc k process (BitVec.ofNat 32 sizeofArgument) = r := ⟨_, rfl⟩
    rw [h1]
    dsimp only
    by_cases hptr : ptr = 0
    · simp [hptr]
    rw [if_neg hptr]
    refine ih ?_
    have hfree : free (processMalloc k process (BitVec.ofNat 32 sizeofArgument)).1 process + 1 = free k process :=
      processMalloc_free (by rwa [h1])
    rw [h1] at hfree
    rw [free_withMem]
    dsimp only at hfree
    omega

theorem inject_counted {argc : Int} (h : processCountCommandArguments k.mem turns root = some argc) :
    processInjectArguments turns k process root =
      if argc = 0 then some (k, - EIO)
      else
        let r := processMalloc k process (BitVec.ofInt 32 (4 * argc))
        if r.2 = 0 then some (r.1, -ENOMEM)
        else (processInjectArgumentsLoop process r.2 turns r.1 root 0).map fun (k', res) =>
          if res < 0 then (k', res)
          else (k'.setProc process fun p => { p with arguments := ⟨argc, r.2⟩ }, res) := by
  rw [processInjectArguments, h]
  simp only [Option.bind_eq_bind, Option.bind_some]
  by_cases hargc : argc = 0
  · rw [if_pos hargc, if_pos hargc]
    rfl
  rw [if_neg hargc, if_neg hargc]
  by_cases hptr : (processMalloc k process (BitVec.ofInt 32 (4 * argc))).2 = 0
  · rw [if_pos hptr, if_pos hptr]
    rfl
  rw [if_neg hptr, if_neg hptr]
  cases processInjectArgumentsLoop process _ turns _ root 0 with
  | none => rfl
  | some r =>
    obtain ⟨k', res⟩ := r
    by_cases hres : res < 0
    · simp [hres]
    · simp [hres]

theorem free_le (k : Kernel) (process : Addr) : free k process ≤ maxProgramAllocations := by
  refine (Finset.card_filter_le _ _).trans ?_
  rw [Finset.card_range]

theorem inject_ends_iff : (∃ turns, processInjectArguments turns k process root ≠ none) ↔ Ends k.mem root := by
  constructor
  · rintro ⟨turns, h⟩
    refine count_ends_iff.mp ⟨turns, fun hnone => h ?_⟩
    rw [processInjectArguments, hnone]
    rfl
  · rintro ⟨ns, h⟩
    refine ⟨ns.length + maxProgramAllocations + 1, ?_⟩
    rw [inject_counted (count_listed h (by omega))]
    dsimp only
    split
    · exact Option.some_ne_none _
    split
    · exact Option.some_ne_none _
    · rw [Ne, Option.map_eq_none_iff]
      refine injectLoop_ends ?_
      have hfree := free_le (processMalloc k process (BitVec.ofInt 32 (4 * toInt32 ns.length))).1 process
      omega

/-- Both loops end on the lists that end, and on no others. -/
theorem arguments_end_iff (k : Kernel) (process root : Addr) :
    ((∃ turns, processCountCommandArguments k.mem turns root ≠ none) ↔ Ends k.mem root) ∧
      ((∃ turns, processInjectArguments turns k process root ≠ none) ↔ Ends k.mem root) :=
  ⟨count_ends_iff, inject_ends_iff⟩

/-- A node at 0x400000, with the argument "a", that links to itself. -/
def circular : Kernel :=
  { Tasks.emptyKernel with mem := store8 (store32 (fun _ => 0) 0x400200 0x400000) 0x400000 97 }

/-- The handler has no objection to the list: its first argument is not empty. -/
theorem circular_never_ends :
    CString.textAt circular.mem 0x400000 sizeofArgument ≠ [] ∧
      ∀ turns, processCountCommandArguments circular.mem turns 0x400000 = none ∧
        processInjectArguments turns circular 1 0x400000 = none := by
  have hnot : ¬ Ends circular.mem 0x400000 := not_ends_self (by decide) (by decide)
  refine ⟨?_, fun turns => ⟨?_, ?_⟩⟩
  · rw [show sizeofArgument = 511 + 1 from rfl, CString.textAt_succ, if_neg (by decide)]
    exact List.cons_ne_nil _ _
  · by_contra h
    exact hnot (count_ends_iff.mp ⟨turns, h⟩)
  · by_contra h
    exact hnot (inject_ends_iff.mp ⟨turns, h⟩)

end MultitaskOs.Arguments
