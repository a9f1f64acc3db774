import MultitaskOs.Injection
import MultitaskOs.PathFree
import MultitaskOs.ProcessTable

/-!
# What becomes of the blocks of a process

`process_terminate` gives back what the record of the process names. Nothing names the record.
-/

open Lib Lib.Memory Lib.Arena Lib.Run MultitaskOs.PathParser MultitaskOs.FatLookup MultitaskOs.Descriptors
  MultitaskOs.OpenClose MultitaskOs.Paging MultitaskOs.Tasks MultitaskOs.ProcessMemory MultitaskOs.Arguments
  MultitaskOs.Injection MultitaskOs.PathFree MultitaskOs.Loading MultitaskOs.FileType MultitaskOs.LoadSteps
  MultitaskOs.LoadOutcome MultitaskOs.ProcessTable

namespace MultitaskOs.Termination

variable {k k' k0 k1 k2 k3 : Kernel} {s : List Byte} {slot : Nat} {res : Int} {p a ptr : Addr} {d : PageDir} {n : Nat}

/-! ## What a termination gives back -/

/-- The pointer in slot `j` once those in the slots below `n` are freed. -/
def pending (p : Process) (n j : Nat) : Addr :=
  if ∃ l < n, (p.allocations l).ptr = (p.allocations j).ptr then 0 else (p.allocations j).ptr

def directoryBlocks (m : Mem) (chunk : Addr) : List Addr :=
  (List.range 1024).map (tableIn m chunk) ++ [load32 m chunk, chunk]

/-- What `process_terminate` gives back, in its order. -/
def returned (k : Kernel) (process : Addr) : List Addr :=
  let p := k.procs process
  (List.range maxProgramAllocations).map (fun i => pending p i i) ++ programBlocks k p ++ [p.stack] ++
    directoryBlocks k.mem (pageDirectory k process) ++ [p.task]

theorem pending_succ (p : Process) (n j : Nat) :
    (if pending p n j = pending p n n then 0 else pending p n j) = pending p (n + 1) j := by
  by_cases hj : ∃ l < n, (p.allocations l).ptr = (p.allocations j).ptr
  · have hj' : ∃ l < n + 1, (p.allocations l).ptr = (p.allocations j).ptr := by
      obtain ⟨l, hl, he⟩ := hj
      exact ⟨l, Nat.lt_succ_of_lt hl, he⟩
    have h1 : pending p n j = 0 := if_pos hj
    have h2 : pending p (n + 1) j = 0 := if_pos hj'
    rw [h1, h2, ite_self]
  have h1 : pending p n j = (p.allocations j).ptr := if_neg hj
  by_cases hn : (p.allocations n).ptr = (p.allocations j).ptr
  · have h2 : pending p n n = (p.allocations j).ptr := by
      unfold pending
      rw [hn]
      exact if_neg hj
    have h3 : pending p (n + 1) j = 0 := if_pos ⟨n, Nat.lt_succ_self n, hn⟩
    rw [h1, h2, h3, if_pos rfl]
  · have h3 : pending p (n + 1) j = (p.allocations j).ptr := by
      refine if_neg ?_
      rintro ⟨l, hl, he⟩
      rcases Nat.lt_succ_iff_lt_or_eq.mp hl with hl | rfl
      · exact hj ⟨l, hl, he⟩
      · exact hn he
    rw [h1, h3]
    split
    · -- the slot holds NULL already
      rename_i he
      unfold pending at he
      split at he
      · exact he.symm
      · exact absurd he.symm hn
    · rfl

/-- The pointers in the slots below `n` have been freed. -/
def Swept (p : Addr) (k k' : Kernel) (n : Nat) : Prop :=
  ∃ h a, k' = { k with heap := h, procs := Function.update k.procs p { k.procs p with allocations := a } } ∧
    GivesBack k.heap h ((List.range n).map fun i => pending (k.procs p) i i) ∧
    ∀ j < maxProgramAllocations, (a j).ptr = pending (k.procs p) n j

theorem swept_zero (p : Addr) (k : Kernel) : Swept p k k 0 := by
  refine ⟨k.heap, (k.procs p).allocations, ?_, GivesBack.refl _, fun j _ => ?_⟩
  · rw [Function.update_eq_self]
  · exact (if_neg (by simp)).symm

theorem Swept.free (h : Swept p k k1 n) (hn : n < maxProgramAllocations) :
    Swept p k (processFree k1 p ((k1.procs p).allocations n).ptr) (n + 1) := by
  have hheld : Held (k1.procs p) ((k1.procs p).allocations n).ptr := ⟨n, hn, rfl⟩
  rw [processFree_of_held hheld]
  obtain ⟨h, a, rfl, hgives, hptr⟩ := h
  have hself : Function.update k.procs p { k.procs p with allocations := a } p =
      { k.procs p with allocations := a } := Function.update_self _ _ _
  dsimp only
  rw [hself, Function.update_idem]
  refine ⟨_, _, rfl, ?_, fun j hj => ?_⟩
  · rw [List.range_succ, List.map_append, List.map_singleton, ← hptr n hn]
    exact hgives.free _
  · rw [← pending_succ, ← hptr j hj, ← hptr n hn]
    dsimp only [processAllocationUnjoin]
    by_cases he : (a j).ptr = (a n).ptr
    · rw [if_pos ⟨hj, he⟩, if_pos he]
    · rw [if_neg fun h => he h.2, if_neg he]

theorem processTerminateAllocations_swept (k : Kernel) (p : Addr) :
    Swept p k (processTerminateAllocations k p) maxProgramAllocations :=
  forN_of_inv (fun n k1 => Swept p k k1 n) (swept_zero p k) fun _ _ hn h => h.free hn

theorem programData_givesBack (h : processFreeProgramData k p = (k1, 0)) :
    ∃ heap, k1 = { k with heap } ∧ GivesBack k.heap heap (programBlocks k (k.procs p)) := by
  unfold processFreeProgramData at h
  unfold programBlocks
  by_cases hbinary : (k.procs p).filetype = processFiletypeBinary
  · rw [if_pos hbinary] at h ⊢
    cases h
    exact ⟨_, rfl, (GivesBack.refl _).free _⟩
  rw [if_neg hbinary] at h ⊢
  by_cases helf : (k.procs p).filetype = processFiletypeElf
  · rw [if_pos helf] at h
    unfold processFreeElfData elfClose at h
    by_cases h0 : (k.procs p).elf_file = 0
    · rw [if_pos h0] at h
      rw [if_neg fun he => he.2 h0]
      cases h
      exact ⟨_, rfl, GivesBack.refl _⟩
    · rw [if_neg h0] at h
      rw [if_pos ⟨helf, h0⟩]
      cases h
      exact ⟨_, rfl, ((GivesBack.refl _).free _).free _⟩
  · rw [if_neg helf] at h
    exact absurd (Prod.ext_iff.mp h).2 (show ¬ -EINVARG = 0 by decide)

theorem freeTables_givesBack (m : Kmem) (chunk : Addr) (n : Nat) :
    GivesBack m.heap (forN n (pagingFreeTable chunk) m).heap ((List.range n).map (tableIn m.mem chunk)) := by
  induction n with
  | zero =>
    rw [forN_zero]
    exact GivesBack.refl _
  | succ n ih =>
    have hturn : pagingFreeTable chunk n (forN n (pagingFreeTable chunk) m) =
        kfree (forN n (pagingFreeTable chunk) m) (tableIn m.mem chunk n) := by
      rw [pagingFreeTable, (freeTables_freed m chunk n).mem_eq, tableIn]
    rw [forN_succ, hturn, List.range_succ, List.map_append]
    exact ih.free _

theorem pagingFree4gb_givesBack (m : Kmem) (chunk : Addr) :
    GivesBack m.heap (pagingFree4gb m chunk).heap (directoryBlocks m.mem chunk) := by
  have hdir : pagingFree4gb m chunk =
      kfree (kfree (forN 1024 (pagingFreeTable chunk) m) (load32 m.mem chunk)) chunk := by
    rw [pagingFree4gb, (freeTables_freed m chunk 1024).mem_eq]
  rw [hdir]
  exact (freeTables_givesBack m chunk 1024).trans (((GivesBack.refl _).free _).free chunk)

theorem taskFree_givesBack (k : Kernel) (t : Addr) :
    GivesBack k.heap (taskFree k t).heap (directoryBlocks k.mem (k.tasks t).page_directory ++ [t]) := by
  rw [taskFree_eq]
  exact (pagingFree4gb_givesBack k.toKmem (k.tasks t).page_directory).free t

theorem heap_processUnlink (h : processUnlink k p = some k') : k'.heap = k.heap := by
  unfold processUnlink at h
  dsimp only at h
  split at h
  · obtain ⟨i, -, h⟩ := Option.bind_eq_some_iff.mp h
    cases h
    rfl
  · cases h
    rfl

theorem terminateRest_givesBack (h : terminateRest k p = some (k', 0)) :
    GivesBack k.heap k'.heap (programBlocks k (k.procs p) ++ [(k.procs p).stack] ++
      directoryBlocks k.mem (pageDirectory k p) ++ [(k.procs p).task]) := by
  obtain ⟨⟨k1, res⟩, hr⟩ : ∃ r, processFreeProgramData k p = r := ⟨_, rfl⟩
  unfold terminateRest at h
  rw [hr] at h
  dsimp only at h
  by_cases hres : res < 0
  · rw [if_pos hres] at h
    cases h
    exact absurd hres (lt_irrefl 0)
  rw [if_neg hres] at h
  obtain ⟨k2, hu, h⟩ := Option.bind_eq_some_iff.mp h
  cases h
  obtain ⟨heap, rfl, hdata⟩ := programData_givesBack hr
  have htask := taskFree_givesBack { k with heap := heap.free (k.procs p).stack } (k.procs p).task
  rw [heap_processUnlink hu, List.append_assoc]
  exact (hdata.free _).trans htask

theorem processTerminate_givesBack (h : processTerminate k p = some (k', 0)) :
    GivesBack k.heap k'.heap (returned k p) := by
  obtain ⟨k1, hk1⟩ : ∃ k1, processTerminateAllocations k p = k1 := ⟨_, rfl⟩
  rw [processTerminate_eq hk1] at h
  have hswept := processTerminateAllocations_swept k p
  rw [hk1] at hswept
  have hrest := terminateRest_givesBack h
  obtain ⟨heap, a, rfl, hgives, -⟩ := hswept
  unfold pageDirectory at hrest
  dsimp only at hrest
  rw [Function.update_self] at hrest
  have hall := hgives.trans hrest
  simp only [← List.append_assoc] at hall
  exact hall

/-! ## What is done with a process -/

inductive Op where
  | malloc (size : BitVec 32)
  | free (ptr : Addr)
  | inject (turns : Nat) (root : Addr)

def op (p : Addr) (k : Kernel) : Op → Option Kernel
  | .malloc size => some (processMalloc k p size).1
  | .free ptr => some (processFree k p ptr)
  | .inject turns root => (processInjectArguments turns k p root).map (·.1)

def step (p : Addr) (state : Option Kernel) (a : Op) : Option Kernel := state.bind (op p · a)

/-- The process keeps all it has but its table and its arguments, and no block is lost or entered
in the table that was live and not in it. -/
structure Works (p : Addr) (k k' : Kernel) : Prop where
  record : ∃ allocations arguments, k'.procs p = { k.procs p with allocations, arguments }
  elfFiles : k'.elfFiles = k.elfFiles
  live : ∀ a, k.heap.Live a → ¬ Held (k.procs p) a → k'.heap.Live a ∧ ¬ Held (k'.procs p) a

theorem Works.refl (p : Addr) (k : Kernel) : Works p k k := ⟨⟨_, _, rfl⟩, rfl, fun _ ha hn => ⟨ha, hn⟩⟩

theorem Works.trans (h : Works p k k1) (h' : Works p k1 k') : Works p k k' := by
  refine ⟨?_, h'.elfFiles.trans h.elfFiles, fun a ha hn => ?_⟩
  · obtain ⟨al, ar, h⟩ := h.record
    obtain ⟨al', ar', h'⟩ := h'.record
    exact ⟨al', ar', by rw [h', h]⟩
  · obtain ⟨ha1, hn1⟩ := h.live a ha hn
    exact h'.live a ha1 hn1

theorem works_unchanged (hu : Unchanged k k') (helf : k'.elfFiles = k.elfFiles) : Works p k k' := by
  refine ⟨⟨_, _, congrFun hu.procs p⟩, helf, fun a ha hn => ⟨hu.keeps.isLive ha, ?_⟩⟩
  rw [hu.procs]
  exact hn

theorem works_malloced {size : BitVec 32} {i : Nat} (hm : Malloced k k' p ptr size d i)
    (helf : k'.elfFiles = k.elfFiles) : Works p k k' := by
  refine ⟨⟨_, _, by rw [hm.procs, Function.update_self]⟩, helf, fun a ha hn => ⟨?_, ?_⟩⟩
  · obtain ⟨size, hb⟩ := ha
    refine ⟨size, ?_⟩
    rw [hm.live]
    exact List.mem_cons_of_mem _ hb
  · rintro ⟨j, hj, he⟩
    have hslot := hm.allocation_eq p j
    rw [allocation] at hslot
    rw [hslot] at he
    split at he
    · exact hm.not_live ((show ptr = a from he) ▸ ha)
    · exact hn ⟨j, hj, he⟩

theorem elfFiles_processMalloc (k : Kernel) (p : Addr) (size : BitVec 32) :
    (processMalloc k p size).1.elfFiles = k.elfFiles := by
  unfold processMalloc Kernel.onKmem Kernel.setProc
  dsimp only
  split_ifs <;> rfl

variable {ps : List Addr} {dir : Addr → PageDir} {argv root current : Addr} {turns : Nat} {size : BitVec 32}

theorem works_malloc (hw : World k ps dir) (hp : p ∈ ps) (size : BitVec 32) : Works p k (processMalloc k p size).1 := by
  have helf := elfFiles_processMalloc k p size
  rcases processMalloc_cases size (hw.directory p hp) (hw.inMem hp) with ⟨-, hu⟩ | ⟨i, -, hm⟩
  · exact works_unchanged hu helf
  · exact works_malloced hm helf

theorem works_free (k : Kernel) (p ptr : Addr) : Works p k (processFree k p ptr) := by
  by_cases hheld : Held (k.procs p) ptr
  · rw [processFree_of_held hheld]
    refine ⟨⟨_, _, Function.update_self _ _ _⟩, rfl, fun a ha hn => ⟨?_, ?_⟩⟩
    · exact Arena.live_free.mpr ⟨ha, fun he => hn (he ▸ hheld)⟩
    · rintro ⟨j, hj, he⟩
      have hslot := unjoin_allocation k p ptr (kfree k.toKmem ptr) p hj
      rw [allocation] at hslot
      rw [hslot] at he
      split at he
      · exact k.heap.not_live_zero ((show 0 = a from he) ▸ ha)
      · exact hn ⟨j, hj, he⟩
  · rw [processFree_of_not_held hheld]
    exact Works.refl p k

theorem works_mem (p : Addr) (k : Kernel) (mem : Mem) : Works p k { k with mem } :=
  ⟨⟨_, _, rfl⟩, rfl, fun _ ha hn => ⟨ha, hn⟩⟩

/-- Each turn takes a slot, so no turn writes behind the first granule of `argv`. -/
theorem injectLoop_works {i : Nat} (hw : World k ps dir) (hp : p ∈ ps) (hargv : Owned k p argv size)
    (hroom : i + free k p < maxProgramAllocations)
    (h : processInjectArgumentsLoop p argv turns k current i = some (k', res)) : World k' ps dir ∧ Works p k k' := by
  induction turns generalizing k current i with
  | zero => cases h
  | succ turns ih =>
    rw [processInjectArgumentsLoop] at h
    by_cases h0 : current = 0
    · rw [if_pos h0] at h
      cases h
      exact ⟨hw, Works.refl p _⟩
    rw [if_neg h0] at h
    have helf := elfFiles_processMalloc k p (BitVec.ofNat 32 sizeofArgument)
    have hcases := processMalloc_cases (BitVec.ofNat 32 sizeofArgument) (hw.directory p hp) (hw.inMem hp)
    generalize processMalloc k p (BitVec.ofNat 32 sizeofArgument) = r at h helf hcases
    obtain ⟨k1, s⟩ := r
    dsimp only at h helf hcases
    rcases hcases with ⟨hs, hu⟩ | ⟨l, hs, hm⟩
    · rw [if_pos hs] at h
      cases h
      exact ⟨hw.unchanged hu, works_unchanged hu helf⟩
    rw [if_neg hs] at h
    have hi : i < maxProgramAllocations := by omega
    have hnext : toInt32 ((i : Int) + 1) = ((i + 1 : Nat) : Int) := by
      unfold maxProgramAllocations at hi
      rw [toInt32_of_bounds (by omega) (by omega)]
      push_cast
      rfl
    rw [hnext] at h
    have hfree := malloced_free hm
    have hw1 := hw.malloced hp hm
    have hgrows : Grows (dir p) [] k k1 := grows_malloced (hw.inMem hp) hm
    have hargv1 := hargv.grows hw hw1 hp hgrows
    have hown := owned_malloced hm hw1 hp
    have hw2 := world_turn (n := current) hw1 hp hown hargv1 hi
    have hargv2 := hargv1.grows hw1 hw2 hp (grows_turn (n := current) hw1 hp hown hargv1 hi)
    obtain ⟨hw', hworks⟩ := ih hw2 hargv2 (by rw [free_withMem]; omega) h
    exact ⟨hw', ((works_malloced hm helf).trans (works_mem p k1 _)).trans hworks⟩

theorem inject_works (hw : World k ps dir) (hp : p ∈ ps) (h : processInjectArguments turns k p root = some (k', res)) :
    World k' ps dir ∧ Works p k k' := by
  obtain ⟨argc, hcount, -⟩ := Option.bind_eq_some_iff.mp h
  rw [inject_counted hcount] at h
  by_cases hargc : argc = 0
  · rw [if_pos hargc] at h
    cases h
    exact ⟨hw, Works.refl p _⟩
  rw [if_neg hargc] at h
  have helf := elfFiles_processMalloc k p (BitVec.ofInt 32 (4 * argc))
  have hcases := processMalloc_cases (BitVec.ofInt 32 (4 * argc)) (hw.directory p hp) (hw.inMem hp)
  generalize processMalloc k p (BitVec.ofInt 32 (4 * argc)) = r at h helf hcases
  obtain ⟨k1, argv⟩ := r
  dsimp only at h helf hcases
  rcases hcases with ⟨hs, hu⟩ | ⟨l, hs, hm⟩
  · rw [if_pos hs] at h
    cases h
    exact ⟨hw.unchanged hu, works_unchanged hu helf⟩
  rw [if_neg hs] at h
  have hw1 := hw.malloced hp hm
  have hroom : 0 + free k1 p < maxProgramAllocations := by
    have hfree := malloced_free hm
    have hle := free_le k p
    omega
  obtain ⟨⟨k2, res2⟩, hloop, h⟩ := Option.map_eq_some_iff.mp h
  obtain ⟨hw2, hworks2⟩ := injectLoop_works (i := 0) hw1 hp (owned_malloced hm hw1 hp) hroom hloop
  have hworks := (works_malloced hm helf).trans hworks2
  dsimp only at h
  split at h
  · cases h
    exact ⟨hw2, hworks⟩
  · cases h
    refine ⟨world_withArguments hw2, hworks.trans ⟨⟨_, _, Kernel.setProc_self _ _ _⟩, rfl, fun a ha hn => ⟨ha, ?_⟩⟩⟩
    rwa [Kernel.setProc_self]

theorem op_works (hw : World k ps dir) (hp : p ∈ ps) {a : Op} (h : op p k a = some k') :
    World k' ps dir ∧ Works p k k' := by
  cases a with
  | malloc size =>
    obtain rfl := Option.some.inj h
    exact ⟨hw.malloc hp size, works_malloc hw hp size⟩
  | free ptr =>
    obtain rfl := Option.some.inj h
    exact ⟨hw.free hp ptr, works_free k p ptr⟩
  | inject turns root =>
    obtain ⟨⟨k1, res⟩, hinject, rfl⟩ := Option.map_eq_some_iff.mp h
    exact inject_works hw hp hinject

theorem run_works (hw : World k ps dir) (hp : p ∈ ps) {ops : List Op} (h : run (step p) (some k) ops = some k') :
    World k' ps dir ∧ Works p k k' := by
  refine run_of_inv (fun state => ∀ k1 ∈ state, World k1 ps dir ∧ Works p k k1) (fun k1 hk1 => ?_)
    (fun state a hinv k2 hk2 => ?_) k' (Option.mem_def.mpr h)
  · obtain rfl := Option.mem_some_iff.mp hk1
    exact ⟨hw, Works.refl p _⟩
  · obtain ⟨k1, rfl, hop⟩ := Option.bind_eq_some_iff.mp hk2
    obtain ⟨hw1, hworks1⟩ := hinv k1 rfl
    obtain ⟨hw2, hworks2⟩ := op_works hw1 hp hop
    exact ⟨hw2, hworks1.trans hworks2⟩

/-! ## How a call takes a block out of use -/

/-- The block at `a` stays in use and is not given back. -/
def Stays (k k' : Kernel) (a : Addr) : Prop := k'.heap.Live a ∧ k'.heap.freed.count a = k.heap.freed.count a

/-- It stays in use, or goes out of use and is given back once. -/
def LeftOnce (k k' : Kernel) (a : Addr) : Prop :=
  Stays k k' a ∨ ¬ k'.heap.Live a ∧ k'.heap.freed.count a = k.heap.freed.count a + 1

theorem Stays.trans (h : Stays k k1 a) (h' : Stays k1 k' a) : Stays k k' a := ⟨h'.1, h'.2.trans h.2⟩

theorem kzalloc_freed (m : Kmem) (size : Nat) : (kzalloc m size).1.heap.freed = m.heap.freed := by
  unfold kzalloc kmalloc
  dsimp only
  split_ifs <;> exact m.heap.alloc_freed size

theorem processMalloc_stays (ha : k.heap.Live a) (p : Addr) (size : BitVec 32) :
    Stays k (processMalloc k p size).1 a := by
  have hlive := (kzalloc_keeps k.toKmem size.toNat).isLive ha
  have hfreed := kzalloc_freed k.toKmem size.toNat
  have hfresh := kzalloc_not_live k.toKmem size.toNat
  obtain ⟨⟨m, ptr⟩, hr⟩ : ∃ r, kzalloc k.toKmem size.toNat = r := ⟨_, rfl⟩
  rw [hr] at hlive hfreed hfresh
  dsimp only at hlive hfreed hfresh
  have hcount : m.heap.freed.count a = k.heap.freed.count a := by rw [hfreed]
  have hfree : (m.heap.free ptr).Live a ∧ (m.heap.free ptr).freed.count a = k.heap.freed.count a := by
    have hne : ptr ≠ a := fun he => hfresh (he ▸ ha)
    exact ⟨Arena.live_free.mpr ⟨hlive, hne.symm⟩, by rw [Arena.count_freed, hcount, if_neg hne, Nat.add_zero]⟩
  unfold processMalloc
  rw [Kernel.onKmem_eq hr]
  dsimp only
  split_ifs
  · exact ⟨hlive, hcount⟩
  · exact hfree
  · exact hfree
  · exact ⟨hlive, hcount⟩

theorem injectLoop_stays {i : Int} (h : processInjectArgumentsLoop p argv turns k current i = some (k', res))
    (ha : k.heap.Live a) : Stays k k' a := by
  induction turns generalizing k current i with
  | zero => cases h
  | succ turns ih =>
    rw [processInjectArgumentsLoop] at h
    by_cases h0 : current = 0
    · rw [if_pos h0] at h
      cases h
      exact ⟨ha, rfl⟩
    rw [if_neg h0] at h
    have hstays := processMalloc_stays ha p (BitVec.ofNat 32 sizeofArgument)
    generalize processMalloc k p (BitVec.ofNat 32 sizeofArgument) = r at h hstays
    obtain ⟨k1, s⟩ := r
    dsimp only at h hstays
    by_cases hs : s = 0
    · rw [if_pos hs] at h
      cases h
      exact hstays
    · rw [if_neg hs] at h
      have hrest := ih h hstays.1
      exact hstays.trans hrest

theorem inject_stays (ha : k.heap.Live a) (h : processInjectArguments turns k p root = some (k', res)) :
    Stays k k' a := by
  obtain ⟨argc, hcount, -⟩ := Option.bind_eq_some_iff.mp h
  rw [inject_counted hcount] at h
  by_cases hargc : argc = 0
  · rw [if_pos hargc] at h
    cases h
    exact ⟨ha, rfl⟩
  rw [if_neg hargc] at h
  have hstays := processMalloc_stays ha p (BitVec.ofInt 32 (4 * argc))
  generalize processMalloc k p (BitVec.ofInt 32 (4 * argc)) = r at h hstays
  obtain ⟨k1, argv⟩ := r
  dsimp only at h hstays
  by_cases hs : argv = 0
  · rw [if_pos hs] at h
    cases h
    exact hstays
  rw [if_neg hs] at h
  obtain ⟨⟨k2, res2⟩, hloop, h⟩ := Option.map_eq_some_iff.mp h
  have hall := hstays.trans (injectLoop_stays hloop hstays.1)
  dsimp only at h
  split at h <;> cases h <;> exact hall

theorem processFree_leftOnce (ha : k.heap.Live a) (p ptr : Addr) : LeftOnce k (processFree k p ptr) a := by
  by_cases hheld : Held (k.procs p) ptr
  · rw [processFree_of_held hheld]
    have hcount := k.heap.count_freed ptr a
    by_cases he : ptr = a
    · rw [if_pos he] at hcount
      exact Or.inr ⟨fun h => (Arena.live_free.mp h).2 he.symm, hcount⟩
    · rw [if_neg he] at hcount
      exact Or.inl ⟨Arena.live_free.mpr ⟨ha, Ne.symm he⟩, hcount⟩
  · rw [processFree_of_not_held hheld]
    exact Or.inl ⟨ha, rfl⟩

theorem op_leftOnce {o : Op} (ha : k.heap.Live a) (h : op p k o = some k') : LeftOnce k k' a := by
  cases o with
  | malloc size =>
    obtain rfl := Option.some.inj h
    exact Or.inl (processMalloc_stays ha p size)
  | free ptr =>
    obtain rfl := Option.some.inj h
    exact processFree_leftOnce ha p ptr
  | inject turns root =>
    obtain ⟨⟨k1, res⟩, hinject, rfl⟩ := Option.map_eq_some_iff.mp h
    exact Or.inl (inject_stays ha hinject)

/-- Each call of the run that takes `a` out of use gives it back once. -/
def DroppedOnce (k1 : Kernel) (p : Addr) (ops : List Op) (a : Addr) : Prop :=
  ∀ n k k', run (step p) (some k1) (ops.take n) = some k → run (step p) (some k1) (ops.take (n + 1)) = some k' →
    k.heap.Live a → LeftOnce k k' a

theorem run_droppedOnce (k1 : Kernel) (p : Addr) (ops : List Op) (a : Addr) : DroppedOnce k1 p ops a := by
  intro n k k' hk hk' ha
  by_cases hn : n < ops.length
  · rw [← List.take_append_getElem hn, run_append, hk] at hk'
    exact op_leftOnce ha hk'
  · rw [List.take_of_length_le (by omega)] at hk hk'
    obtain rfl := Option.some.inj (hk.symm.trans hk')
    exact Or.inl ⟨ha, rfl⟩

/-! ## What is taken for a process -/

/-- The record that `elf_load` asks for, with the second request of a load. -/
def elfFileOf (k : Kernel) : Addr := (kzalloc (kzalloc k.toKmem sizeofProcess).1 sizeofElfFile).2

/-- The record of the process, that of its image with the image, what is loaded, its stack, its task,
its directory and what its table holds. -/
def blocksOfProcess (k0 k : Kernel) (p : Addr) : List Addr :=
  let q := k.procs p
  [p, elfFileOf k0, (k.elfFiles (elfFileOf k0)).elf_memory, q.ptr, q.stack, q.task] ++
    blocksIn k.mem (pageDirectory k p) ++ (List.range maxProgramAllocations).map fun i => (allocation k p i).ptr

/-- The block at `a` is one of the process that was loaded from `k0` on. -/
def Owns (k0 k : Kernel) (p a : Addr) : Prop := a ∈ blocksOfProcess k0 k p ∧ k.heap.Live a ∧ ¬ k0.heap.Live a

/-- It is one at some moment between the load and the termination. -/
def Acquired (k0 k1 : Kernel) (p : Addr) (ops : List Op) (a : Addr) : Prop :=
  ∃ n k, run (step p) (some k1) (ops.take n) = some k ∧ Owns k0 k p a

/-- The termination gives `a` back once, and not at all if it was given back before. -/
structure Reclaimed (k k' : Kernel) (a : Addr) : Prop where
  dead : ¬ k'.heap.Live a
  once : k.heap.Live a → k'.heap.freed.count a = k.heap.freed.count a + 1
  not_again : ¬ k.heap.Live a → k'.heap.freed.count a = k.heap.freed.count a

/-- The pointers that a termination follows lead to `a` once, and not at all if it is not in use. -/
def NamedOnce (k : Kernel) (p a : Addr) : Prop :=
  (k.heap.Live a → (returned k p).count a = 1) ∧ (¬ k.heap.Live a → a ∉ returned k p)

/-- The request for the record of the image is refused, or one of `task_new`. Nobody looks. -/
def RefusedUnseen (k : Kernel) (s : List Byte) : Prop := elfFileOf k = 0 ∨ TaskRefused k s

theorem reclaimed_iff (h : processTerminate k p = some (k', 0)) : Reclaimed k k' a ↔ NamedOnce k p a := by
  have hgives := processTerminate_givesBack h
  have hcount : k'.heap.freed.count a = k.heap.freed.count a + (returned k p).count a := by
    rw [hgives.freed, List.count_append]
  have hlive : k'.heap.Live a ↔ k.heap.Live a ∧ a ∉ returned k p := by
    simp [Arena.Live, hgives.live]
  constructor
  · intro hr
    refine ⟨fun ha => ?_, fun ha => ?_⟩
    · have := hr.once ha
      omega
    · have := hr.not_again ha
      exact List.count_eq_zero.mp (by omega)
  · rintro ⟨honce, hnone⟩
    refine ⟨fun ha => ?_, fun ha => ?_, fun ha => ?_⟩
    · obtain ⟨hk, hnot⟩ := hlive.mp ha
      have hone := honce hk
      rw [List.count_eq_zero.mpr hnot] at hone
      exact absurd hone (by decide)
    · rw [hcount, honce ha]
    · rw [hcount, List.count_eq_zero.mpr (hnone ha), Nat.add_zero]

/-! ## What nothing names -/

/-- The block at `a` is in use, and the record of the process does not name it. -/
structure Missed (k : Kernel) (p a : Addr) : Prop where
  live : k.heap.Live a
  not_held : ¬ Held (k.procs p) a
  not_program : a ∉ programBlocks k (k.procs p)
  not_stack : a ≠ (k.procs p).stack
  not_task : a ≠ (k.procs p).task

theorem Missed.works (h : Missed k p a) (hw : Works p k k') : Missed k' p a := by
  obtain ⟨hlive, hheld⟩ := hw.live a h.live h.not_held
  obtain ⟨al, ar, hrecord⟩ := hw.record
  refine ⟨hlive, hheld, ?_, ?_, ?_⟩
  · have hprogram : programBlocks k' (k'.procs p) = programBlocks k (k.procs p) := by
      rw [hrecord]
      unfold programBlocks Process.elf_file
      rw [hw.elfFiles]
    rw [hprogram]
    exact h.not_program
  · rw [hrecord]
    exact h.not_stack
  · rw [hrecord]
    exact h.not_task

theorem mem_directoryBlocks {m : Mem} {chunk : Addr} : a ∈ directoryBlocks m chunk ↔ a ∈ blocksIn m chunk := by
  rw [directoryBlocks, blocksIn, blocksOf]
  generalize (List.range 1024).map (tableIn m chunk) = tables
  simp only [List.mem_append, List.mem_cons, List.not_mem_nil, or_false]
  tauto

theorem Missed.not_returned (h : Missed k p a) (hdir : a ∉ directoryBlocks k.mem (pageDirectory k p)) :
    a ∉ returned k p := by
  have hpending : a ∉ (List.range maxProgramAllocations).map fun i => pending (k.procs p) i i := by
    intro ha
    obtain ⟨i, hi, he⟩ := List.mem_map.mp ha
    unfold pending at he
    split at he
    · exact k.heap.not_live_zero (he ▸ h.live)
    · exact h.not_held ⟨i, List.mem_range.mp hi, he⟩
  unfold returned
  simp only [List.mem_append, List.mem_singleton, not_or]
  exact ⟨⟨⟨⟨hpending, h.not_program⟩, h.not_stack⟩, hdir⟩, h.not_task⟩

theorem not_reclaimed (hend : processTerminate k p = some (k', 0)) (hlive : k.heap.Live a) (hnot : a ∉ returned k p) :
    k'.heap.Live a := by
  obtain ⟨size, hb⟩ := hlive
  refine ⟨size, ?_⟩
  rw [(processTerminate_givesBack hend).live, List.mem_filter]
  exact ⟨hb, decide_eq_true hnot⟩

/-! ## A load all of whose requests are granted -/

theorem elf_memory_processPheaders (m : Mem) (f : ElfFile) : (elfProcessPheaders m f).elf_memory = f.elf_memory := by
  refine forN_of_inv (fun _ g => ElfFile.elf_memory g = f.elf_memory) rfl fun i g _ hg => ?_
  unfold elfProcessPheader elfProcessPhdrPtLoad
  dsimp only
  split_ifs <;> exact hg

theorem mem_programBlocks {q : Process} (h : a ∈ programBlocks k q) :
    a = (k.elfFiles q.ptr).elf_memory ∨ a = q.ptr := by
  unfold programBlocks Process.elf_file at h
  split_ifs at h
  · exact Or.inr (List.mem_singleton.mp h)
  · simpa using h
  · exact absurd h List.not_mem_nil

theorem prepared_allocation (hs : NoNul s) (h : Prepared k s slot k1 p) (i : Nat) : (allocation k1 p i).ptr = 0 := by
  obtain ⟨m, kd, stack, res, -, -, data, -, hstack⟩ := prepared_stacked h
  obtain ⟨_, _, _, _, hkeeps, rfl, -⟩ := processLoadData_record hs data
  obtain ⟨_, _, hrecord⟩ := hstack.record
  rw [allocation, hrecord, Kernel.setProc_self, hkeeps.procs, withRecord, Kernel.setProc_self]
  rfl

/-- The record of an image that is refused is not named, and where the image is none is that of the process. -/
theorem processLoadData_misses (hs : NoNul s) (hp : k.heap.Live p) (h0 : (elfRecord k).2 ≠ 0)
    (h : processLoadData k (cstr s) p = some (k', res)) (hres : ¬ res < 0) :
    ∃ a, (a = p ∨ a = (elfRecord k).2) ∧ k'.heap.Live a ∧ a ∉ programBlocks k' (k'.procs p) := by
  have hf := elfRecord_fresh h0
  have hpe : p ≠ (elfRecord k).2 := fun heq => hf.not_live (heq ▸ hp)
  have hp1 := hf.keeps.isLive hp
  have he1 := hf.isLive
  obtain ⟨-, k1, k2, k3, k4, fd, b, size, hread, -, hkeeps, hcases⟩ :=
    (processLoadData_cases hs h).resolve_left fun hneg => hres hneg.1
  rcases hcases with ⟨-, -, helf, rfl⟩ | ⟨-, b, n, -, hb, rfl⟩
  · refine ⟨p, Or.inl rfl, hkeeps.isLive hp1, fun hmem => ?_⟩
    rw [Kernel.setProc_self] at hmem
    rcases mem_programBlocks hmem with he | he
    · have himage : p = b := by
        dsimp only [Kernel.setProc] at he
        rw [helf, elf_memory_processPheaders] at he
        exact he
      exact hread.not_live hs (himage ▸ hp1)
    · exact hpe he
  · -- one word cannot name both records
    have hnot : ∀ c, (elfRecord k).1.heap.Live c → c ≠ (k1.elfFiles b).elf_memory →
        c ∉ programBlocks (k1.setProc p fun q => { q with ptr := b, size := n })
          ((k1.setProc p fun q => { q with ptr := b, size := n }).procs p) := by
      intro c hc hne hmem
      rw [Kernel.setProc_self] at hmem
      rcases mem_programBlocks hmem with he | he
      · exact hne he
      · exact hb ((show c = b from he) ▸ hc)
    by_cases hname : p = (k1.elfFiles b).elf_memory
    · exact ⟨_, Or.inr rfl, hkeeps.isLive he1, hnot _ he1 fun he => hpe (hname.trans he.symm)⟩
    · exact ⟨p, Or.inl rfl, hkeeps.isLive hp1, hnot p hp1 hname⟩

theorem prepared_misses (hs : NoNul s) (h : Prepared k s slot k1 p) (h0 : elfFileOf k ≠ 0) :
    ∃ a, (a = p ∨ a = elfFileOf k) ∧ k1.heap.Live a ∧ a ∉ programBlocks k1 (k1.procs p) ∧ a ≠ (k1.procs p).stack := by
  obtain ⟨m, kd, stack, res, record, granted, data, loaded, hstack⟩ := prepared_stacked h
  have hf := fresh_of_eq record granted
  have helf : elfFileOf k = (elfRecord (withRecord k m p)).2 := by
    unfold elfFileOf
    rw [record]
    rfl
  rw [helf] at h0 ⊢
  obtain ⟨a, hor, hlive, hnot⟩ := processLoadData_misses hs (k := withRecord k m p) hf.isLive h0 data loaded
  obtain ⟨_, _, hrecord⟩ := hstack.record
  refine ⟨a, hor, hstack.fresh.keeps.isLive hlive, ?_, ?_⟩
  · rw [hrecord]
    unfold programBlocks Process.elf_file at hnot ⊢
    rwa [hstack.elfFiles]
  · rw [hrecord]
    exact fun he => hstack.fresh.not_live ((show a = stack from he) ▸ hlive)

theorem prepared_stack_ne (hs : NoNul s) (h : Prepared k s slot k1 p) : (k1.procs p).stack ≠ p := by
  obtain ⟨m, kd, stack, res, record, granted, data, -, hstack⟩ := prepared_stacked h
  obtain ⟨_, _, _, _, hkeeps, rfl, -⟩ := processLoadData_record hs data
  have hlive := hkeeps.isLive (fresh_of_eq record granted).isLive
  obtain ⟨_, _, hrecord⟩ := hstack.record
  rw [hrecord]
  exact fun heq => hstack.fresh.not_live ((show stack = p from heq) ▸ hlive)

theorem elfFileOf_not_live (k : Kernel) : ¬ k.heap.Live (elfFileOf k) :=
  fun h => kzalloc_not_live _ _ ((kzalloc_keeps k.toKmem sizeofProcess).isLive h)

theorem processLoad_mapped (hs : NoNul s) (hload : processLoad k0 (cstr s) = some (k1, res, p)) (hres : 0 ≤ res) :
    ∃ slot k2 k3, freeProcess k0 = some slot ∧ Prepared k0 s slot k2 p ∧
      processMapMemory (withTask k2 p) p = some (k3, res) ∧
      k1 = withEntry k3 slot p := by
  rcases processLoad_way hs hload with ⟨hnone, -⟩ | ⟨slot, hslot, hway⟩
  · rw [processLoad_full hnone] at hload
    cases hload
    exact absurd hres (by decide)
  rcases loadWay_finish hway with ⟨hneg, -⟩ | ⟨k2, q, hprep, hfinish⟩
  · omega
  cases hfinish with
  | unmapped map failed => omega
  | loaded map mapped => exact ⟨slot, k2, _, hslot, hprep, map, rfl⟩

theorem allocation_mapped (hs : NoNul s) (hprep : Prepared k0 s slot k1 p)
    (map : processMapMemory (withTask k1 p) p = some (k2, res)) (i : Nat) : (allocation k2 p i).ptr = 0 := by
  rw [allocation, procs_map map]
  exact prepared_allocation hs hprep i

theorem world_alone (hdir : pageDirectory k p = d.chunk) (hd : d.Holds k.mem)
    (hlive : ∀ b ∈ p :: (k.procs p).task :: d.blocks, k.heap.Live b) (hempty : ∀ i, (allocation k p i).ptr = 0) :
    World k [p] fun _ => d := by
  constructor <;> simp only [List.mem_singleton]
  · rintro q rfl
    exact hdir
  · exact fun _ _ => hd
  · rintro q rfl
    exact hlive
  · rintro q rfl r rfl hne
    exact absurd rfl hne
  · rintro q rfl i - h0
    exact absurd (hempty i) h0
  · rintro q rfl r rfl i - j - h0
    exact absurd (hempty i) h0

theorem finish_misses (hs : NoNul s) (hprep : Prepared k0 s slot k1 p) (hok : TaskGranted k1 p)
    (map : processMapMemory (withTask k1 p) p = some (k2, res)) (hlive : k1.heap.Live a)
    (hnot : a ∉ programBlocks k1 (k1.procs p)) (hstack : a ≠ (k1.procs p).stack) :
    ∃ d, World (withEntry k2 slot p) [p] (fun _ => d) ∧ a ∉ d.blocks ∧ Missed (withEntry k2 slot p) p a := by
  obtain ⟨m, t, r, d, hn, heq, hmem, hdir⟩ := hok.withTask_eq
  have heq2 := processMapMemory_calls map
  rw [hdir, hmem] at heq2
  have hr := run_mapCall_spec hn.new.inMem.holds (memoryCalls (withTask k1 p) p res)
  generalize run (mapCall d.chunk) m.mem (memoryCalls (withTask k1 p) p res) = mem at heq2 hr
  have hprocs : (withEntry k2 slot p).procs p = { k1.procs p with task := t } := by
    show k2.procs p = _
    rw [procs_map map, heq]
  have helf2 : (withEntry k2 slot p).elfFiles = k1.elfFiles := by
    show k2.elfFiles = _
    rw [heq2]
    exact elfFiles_withTask k1 p
  have hlive2 : ∀ c, m.heap.Live c → k2.heap.Live c := by
    intro c hc
    rw [heq2]
    exact (congrArg Kmem.heap hmem) ▸ hc
  have hkeep : ∀ c, k1.heap.Live c → k2.heap.Live c := fun c hc => hlive2 c (hn.new.keeps.isLive hc)
  have hempty := allocation_mapped hs hprep map
  refine ⟨d, world_alone ?_ ?_ (fun b hb => ?_) hempty, fun hb => hn.new.fresh a hb hlive,
    hkeep a hlive, ?_, ?_, ?_, ?_⟩
  · rw [heq2]
    exact hdir
  · rw [heq2]
    exact hr.holds
  · rw [hprocs] at hb
    rcases List.mem_cons.mp hb with rfl | hb
    · exact hkeep b (prepared_newProcess hs hprep).live
    · refine hlive2 b ?_
      rcases List.mem_cons.mp hb with rfl | hb
      · exact hn.live
      · exact hn.new.inMem.live b hb
  · rintro ⟨i, -, he⟩
    exact k1.heap.not_live_zero ((he.symm.trans (hempty i)) ▸ hlive)
  · have hprogram : programBlocks (withEntry k2 slot p) ((withEntry k2 slot p).procs p) =
        programBlocks k1 (k1.procs p) := by
      rw [hprocs]
      unfold programBlocks Process.elf_file
      rw [helf2]
    rw [hprogram]
    exact hnot
  · rw [hprocs]
    exact hstack
  · rw [hprocs]
    exact fun he => hn.fresh ((show a = t from he) ▸ hlive)

theorem load_misses (hs : NoNul s) (hload : processLoad k0 (cstr s) = some (k1, res, p)) (hres : 0 ≤ res)
    (hgranted : ¬ RefusedUnseen k0 s) :
    ∃ d a, Acquired k0 k1 p [] a ∧ World k1 [p] (fun _ => d) ∧ a ∉ d.blocks ∧ Missed k1 p a := by
  unfold RefusedUnseen at hgranted
  rw [not_or] at hgranted
  obtain ⟨helf, htask⟩ := hgranted
  obtain ⟨slot, k2, k3, hslot, hprep, map, rfl⟩ := processLoad_mapped hs hload hres
  have hok : TaskGranted k2 p := by
    by_contra hno
    exact htask ⟨slot, k2, p, hslot, hprep, hno⟩
  obtain ⟨a, hor, hlive, hnot, hstack⟩ := prepared_misses hs hprep helf
  obtain ⟨d, hw, hblock, hm⟩ := finish_misses hs hprep hok map hlive hnot hstack
  have hfresh : ¬ k0.heap.Live a := by
    rcases hor with rfl | rfl
    · exact (prepared_newProcess hs hprep).fresh
    · exact elfFileOf_not_live k0
  refine ⟨d, a, ⟨0, _, rfl, ?_, hm.live, hfresh⟩, hw, hblock, hm⟩
  rcases hor with rfl | rfl <;> simp [blocksOfProcess]

/-! ## An image that is one header -/

theorem processTerminate_returns (htype : (k.procs p).filetype = processFiletypeElf)
    (hcurrent : k.current_process ≠ p) : ∃ k', processTerminate k p = some (k', 0) := by
  obtain ⟨k1, hk1⟩ : ∃ k1, processTerminateAllocations k p = k1 := ⟨_, rfl⟩
  have hkept := (processTerminateAllocations_freedSome k p).kept
  rw [hk1] at hkept
  obtain ⟨heap, hdata, hkept1⟩ := kept_programData ((hkept.filetype p).trans htype)
  have hkept2 := kept_freeStackTask { k1 with heap } p
  have hcurrent2 : (freeStackTask { k1 with heap } p).current_process ≠ p := by
    rw [hkept2.current_process, hkept1.current_process, hkept.current_process]
    exact hcurrent
  have hunlink : processUnlink (freeStackTask { k1 with heap } p) p = some _ := if_neg hcurrent2
  rw [processTerminate_eq hk1, terminateRest, hdata]
  dsimp only
  rw [if_neg (lt_irrefl 0), hunlink]
  exact ⟨_, rfl⟩

theorem processMalloc_current_process (k : Kernel) (p : Addr) (size : BitVec 32) :
    (processMalloc k p size).1.current_process = k.current_process := by
  unfold processMalloc
  dsimp only
  split_ifs <;> rfl

theorem elfImage_loads : ∃ k d, processLoad elfImage (cstr pathA) = some (k, 0, 0xC000) ∧
    ¬ RefusedUnseen elfImage pathA ∧ ¬ elfImage.heap.Live 0xC000 ∧ World k [0xC000] (fun _ => d) ∧
    (0xC000 : Addr) ∉ d.blocks ∧ Missed k 0xC000 0xC000 ∧
    (k.procs 0xC000).filetype = processFiletypeElf ∧ k.current_process ≠ 0xC000 ∧ Spare k.toKmem 1 ∧
    (allocation k 0xC000 0).ptr = 0 := by
  have hs : NoNul pathA := by
    unfold NoNul
    decide
  have hslot : freeProcess elfImage = some 0 := by decide
  obtain ⟨kd, k1, stack, -, hprep, hmade, himage, hptr, -, helf⟩ := elfImage_prepared
  have hnew := prepared_newProcess hs hprep
  obtain ⟨hok, k2, map⟩ := himage.granted (n := 0) (hmade.spare.mono (by decide))
  have hload := processLoad_of_way hs hslot (.loaded hprep map (lt_irrefl 0))
  have hnot : (0xC000 : Addr) ∉ programBlocks k1 (k1.procs 0xC000) := by
    obtain ⟨_, _, hrecord⟩ := hmade.record
    intro hmem
    rcases mem_programBlocks hmem with he | he
    · rw [hrecord, hmade.elfFiles, hptr, helf] at he
      exact absurd he (by decide)
    · rw [hrecord, hptr] at he
      exact absurd he (by decide)
  obtain ⟨d, hw, hblock, hm⟩ := finish_misses hs hprep hok map hnew.live hnot (prepared_stack_ne hs hprep).symm
  refine ⟨_, d, hload, ?_, hnew.fresh, hw, hblock, hm, ?_, ?_, ?_, allocation_mapped hs hprep map 0⟩
  · rintro (hrefused | ⟨slot, k3, q, hslot', hprep', hno⟩)
    · exact absurd hrefused (by decide +kernel)
    · obtain rfl := Option.some.inj (hslot.symm.trans hslot')
      obtain ⟨rfl, rfl⟩ := prepared_unique hprep hprep'
      exact hno hok
  · show (k2.procs 0xC000).filetype = processFiletypeElf
    rw [procs_map map]
    exact himage.filetype
  · obtain ⟨mem, rfl⟩ := processMapMemory_only map
    have hcurrent : (withTask k1 0xC000).current_process = 0 := by
      rw [(withTask_table k1 0xC000).2.1, hnew.frame.current_process]
      rfl
    show (withTask k1 0xC000).current_process ≠ 0xC000
    rw [hcurrent]
    decide
  · have hleft := (taskNew_spare (n := 1) (hmade.spare.mono (by decide)) 0xC000).1
    obtain ⟨mem, rfl⟩ := processMapMemory_only map
    exact ⟨hleft.bumped, hleft.room⟩

/-! ## What is given back -/

/-- For every file, heap and sequence of calls: the blocks of a process are given back, each once, exactly
if a refused request went unnoticed and what lies behind the error names each of them, the record of
the process too. -/
theorem processTerminate_reclaims_iff {ops : List Op} (hs : NoNul s)
    (hload : processLoad k0 (cstr s) = some (k1, res, p)) (hres : 0 ≤ res)
    (hrun : run (step p) (some k1) ops = some k2) (hend : processTerminate k2 p = some (k3, 0)) :
    (∀ a, Acquired k0 k1 p ops a → DroppedOnce k1 p ops a ∧ Reclaimed k2 k3 a) ↔
      RefusedUnseen k0 s ∧ ∀ a, Acquired k0 k1 p ops a → NamedOnce k2 p a := by
  simp only [run_droppedOnce, true_and, reclaimed_iff hend]
  refine iff_and_self.mpr fun hall => ?_
  by_contra hgranted
  obtain ⟨d, a, ⟨n, k, hk, hmem, -, hfresh⟩, hw, hblock, hm⟩ := load_misses hs hload hres hgranted
  obtain ⟨hw2, hworks⟩ := run_works hw (List.mem_singleton_self p) hrun
  have hm2 := hm.works hworks
  have hacquired : Acquired k0 k1 p ops a := ⟨0, k1, rfl, ?_, hm.live, hfresh⟩
  · have hone := (hall a hacquired).1 hm2.live
    have hdir : a ∉ directoryBlocks k2.mem (pageDirectory k2 p) := by
      have hp := List.mem_singleton_self p
      rw [hw2.directory p hp, mem_directoryBlocks, blocksIn_eq (hw2.holds p hp)]
      exact hblock
    rw [List.count_eq_zero.mpr (hm2.not_returned hdir)] at hone
    exact absurd hone (by decide)
  · rw [List.take_nil] at hk
    cases hk
    exact hmem

/-- The process asks for a byte, which it gets, and comes to its end. -/
theorem processTerminate_reclaims_elfImage : ∃ k1 k2 k3, processLoad elfImage (cstr pathA) = some (k1, 0, 0xC000) ∧
    (processMalloc k1 0xC000 1).2 ≠ 0 ∧ run (step 0xC000) (some k1) [.malloc 1] = some k2 ∧
    processTerminate k2 0xC000 = some (k3, 0) ∧
    ((∀ a, Acquired elfImage k1 0xC000 [.malloc 1] a → DroppedOnce k1 0xC000 [.malloc 1] a ∧ Reclaimed k2 k3 a) ↔
      RefusedUnseen elfImage pathA ∧ ∀ a, Acquired elfImage k1 0xC000 [.malloc 1] a → NamedOnce k2 0xC000 a) := by
  obtain ⟨k1, d, hload, -, -, hw, -, -, htype, hcurrent, hspare, hempty⟩ := elfImage_loads
  have hp := List.mem_singleton_self (0xC000 : Addr)
  have hrun : run (step 0xC000) (some k1) [.malloc 1] = some (processMalloc k1 0xC000 1).1 := rfl
  obtain ⟨-, hworks⟩ := run_works hw hp hrun
  have htype2 : ((processMalloc k1 0xC000 1).1.procs 0xC000).filetype = processFiletypeElf := by
    obtain ⟨_, _, hrecord⟩ := hworks.record
    rw [hrecord]
    exact htype
  obtain ⟨k3, hend⟩ := processTerminate_returns htype2 (by rwa [processMalloc_current_process])
  exact ⟨k1, _, k3, hload, Isolation.malloc_one_ne_zero hw hp hspare hempty, hrun, hend,
    processTerminate_reclaims_iff (by unfold NoNul; decide) hload le_rfl hrun hend⟩

/-- No request is refused, and the record of the process is in use when all is over. -/
theorem elfImage_leaks : ∃ k1 k2, ¬ RefusedUnseen elfImage pathA ∧
    processLoad elfImage (cstr pathA) = some (k1, 0, 0xC000) ∧ processTerminate k1 0xC000 = some (k2, 0) ∧
    Acquired elfImage k1 0xC000 [] 0xC000 ∧ k2.heap.Live 0xC000 ∧ ¬ Reclaimed k1 k2 0xC000 := by
  obtain ⟨k1, d, hload, hgranted, hfresh, hw, hblock, hm, htype, hcurrent, -⟩ := elfImage_loads
  obtain ⟨k2, hend⟩ := processTerminate_returns htype hcurrent
  have hdir : (0xC000 : Addr) ∉ directoryBlocks k1.mem (pageDirectory k1 0xC000) := by
    have hp := List.mem_singleton_self (0xC000 : Addr)
    rw [hw.directory _ hp, mem_directoryBlocks, blocksIn_eq (hw.holds _ hp)]
    exact hblock
  have hlive := not_reclaimed hend hm.live (hm.not_returned hdir)
  have hacquired : Acquired elfImage k1 0xC000 [] 0xC000 := ⟨0, k1, rfl, List.mem_cons_self, hm.live, hfresh⟩
  exact ⟨k1, k2, hgranted, hload, hend, hacquired, hlive, fun h => h.dead hlive⟩

end MultitaskOs.Termination
