import MultitaskOs.LoadOutcome

/-!
# The table of processes

What the table and the current process are over whole runs of `process_load`,
`process_load_switch`, `process_switch` and `process_terminate`.
-/

open Lib Lib.Memory Lib.Arena Lib.Run MultitaskOs.PathParser MultitaskOs.Paging MultitaskOs.Tasks
  MultitaskOs.ProcessMemory MultitaskOs.ElfMap MultitaskOs.OpenClose MultitaskOs.Loading MultitaskOs.FileType
  MultitaskOs.LoadSteps MultitaskOs.LoadOutcome

namespace MultitaskOs.ProcessTable

/-! ## Runs -/

inductive Call where
  | load (filename : List Byte)
  | loadSwitch (filename : List Byte)
  | switch (slot : Nat)
  | terminate (slot : Nat)

def call (k : Kernel) : Call → Option Kernel
  | .load s => (processLoad k (cstr s)).map (·.1)
  | .loadSwitch s => (processLoadSwitch k (cstr s)).map (·.1)
  | .switch slot => some (processSwitch k (k.processes slot))
  | .terminate slot => (processTerminate k (k.processes slot)).map (·.1)

/-- A call that does not return ends the run. -/
def step (state : Option Kernel) (a : Call) : Option Kernel := state.bind (call · a)

def Loaded (k : Kernel) (slot : Nat) : Prop := slot < maxProcesses ∧ k.processes slot ≠ 0

/-- A process that is switched to or terminated is loaded. -/
def legal (state : Option Kernel) : Call → Prop
  | .load s | .loadSwitch s => NoNul s
  | .switch slot | .terminate slot => ∀ k ∈ state, Loaded k slot

def loaded (k : Kernel) : List Addr := ((List.range maxProcesses).map k.processes).filter (· ≠ 0)

/-- Every process has the index of its entry for an id, and the current process is NULL or an entry. -/
structure TableOk (k : Kernel) : Prop where
  id : ∀ slot, Loaded k slot → (k.procs (k.processes slot)).id = slot
  distinct : ((loaded k).map fun p => (k.procs p).id).Nodup
  count : (loaded k).length ≤ maxProcesses
  current : k.current_process = 0 ∨ ∃ slot, Loaded k slot ∧ k.processes slot = k.current_process

/-- With all slots taken the load is refused, and nothing changes. A load that fails leaves the
table and the current process alone. -/
def LoadOk (k : Kernel) (result : Option (Kernel × Int × Addr)) : Prop :=
  ((∀ slot < maxProcesses, k.processes slot ≠ 0) → result = some (k, -EISTKN, 0)) ∧
    ∀ k' res process, result = some (k', res, process) → res < 0 →
      k'.processes = k.processes ∧ k'.current_process = k.current_process

def CallOk (state : Option Kernel) : Call → Prop
  | .load s => ∀ k ∈ state, LoadOk k (processLoad k (cstr s))
  | .loadSwitch s => ∀ k ∈ state, LoadOk k (processLoadSwitch k (cstr s))
  | .switch _ | .terminate _ => True

/-! ## What a termination gives back -/

def programBlocks (k : Kernel) (p : Process) : List Addr :=
  if p.filetype = processFiletypeBinary then [p.ptr]
  else if p.filetype = processFiletypeElf ∧ p.elf_file ≠ 0 then [(k.elfFiles p.elf_file).elf_memory, p.elf_file]
  else []

/-- The addresses that `process_terminate` frees. -/
def givenBack (k : Kernel) (process : Addr) : List Addr :=
  let p := k.procs process
  (List.range maxProgramAllocations).map (fun i => (p.allocations i).ptr) ++ programBlocks k p ++
    p.stack :: p.task :: blocksIn k.mem (k.tasks p.task).page_directory

/-- What the calls read of a loaded process: its record, its task and its program data. -/
def partsOf (k : Kernel) (p : Addr) : List Addr := [p, (k.procs p).task, (k.procs p).ptr]

/-- A load whose `task_new` is refused nothing, and a termination that frees nothing of what the calls
read of another loaded process. -/
def sound (state : Option Kernel) : Call → Prop
  | .load s | .loadSwitch s => ∀ k ∈ state, ¬ TaskRefused k s
  | .switch _ => True
  | .terminate slot => ∀ k ∈ state, ∀ other, Loaded k other → other ≠ slot →
      ∀ a ∈ partsOf k (k.processes other), a ≠ 0 → a ∉ givenBack k (k.processes slot)

variable {k k' k1 : Kernel} {s : List Byte} {slot : Nat} {res : Int} {p process : Addr} {as bs : List Addr}

/-- Only allocations, tasks and the heap differ, and the live blocks stay that do not start at an
address in `as`. -/
structure Kept (as : List Addr) (k k' : Kernel) : Prop where
  record : ∀ q, ∃ allocations, k'.procs q = { k.procs q with allocations }
  processes : k'.processes = k.processes
  current_process : k'.current_process = k.current_process
  elfFiles : k'.elfFiles = k.elfFiles
  mem : k'.mem = k.mem
  live : ∀ b ∈ k.heap.live, b.base ∉ as → b ∈ k'.heap.live

theorem Kept.filetype (h : Kept as k k') (q : Addr) : (k'.procs q).filetype = (k.procs q).filetype := by
  obtain ⟨_, hq⟩ := h.record q
  rw [hq]

theorem Kept.trans (h : Kept as k k1) (h' : Kept bs k1 k') : Kept (as ++ bs) k k' where
  record q := by
    obtain ⟨_, hq⟩ := h.record q
    obtain ⟨_, hq'⟩ := h'.record q
    exact ⟨_, by rw [hq', hq]⟩
  processes := h'.processes.trans h.processes
  current_process := h'.current_process.trans h.current_process
  elfFiles := h'.elfFiles.trans h.elfFiles
  mem := h'.mem.trans h.mem
  live b hb hnot := by
    rw [List.mem_append, not_or] at hnot
    exact h'.live b (h.live b hb hnot.1) hnot.2

theorem kept_kfree (k : Kernel) (a : Addr) : Kept [a] k (k.onKmem fun m => (kfree m a, ())).1 :=
  ⟨fun _ => ⟨_, rfl⟩, rfl, rfl, rfl, rfl,
    fun _ hb hnot => Arena.mem_free_live.mpr ⟨hb, fun he => hnot (he ▸ List.mem_singleton_self _)⟩⟩

theorem kept_taskFree (k : Kernel) (t : Addr) :
    Kept (t :: blocksIn k.mem (k.tasks t).page_directory) k (taskFree k t) := by
  obtain ⟨bs, hfreed, hbs⟩ := pagingFree4gb_gives k.toKmem (k.tasks t).page_directory
  have hlive := (hfreed.kfree t).live
  obtain ⟨_, _, _, _, _, honly⟩ := onlyTasks_taskListRemove k t
  rw [taskFree_eq, honly]
  refine ⟨fun _ => ⟨_, rfl⟩, rfl, rfl, rfl, (hfreed.kfree t).mem_eq,
    fun b hb hnot => (hlive b).mpr ⟨hb, fun hmem => hnot ?_⟩⟩
  rw [List.mem_cons] at hmem ⊢
  exact hmem.imp_right (hbs _).mp

/-- Only the heap and the allocations of `p` differ, and no allocation is new. -/
def FreedSome (p : Addr) (k k' : Kernel) : Prop :=
  ∃ h a, k' = { k with heap := h, procs := Function.update k.procs p { k.procs p with allocations := a } } ∧
    (∀ i, (a i).ptr = ((k.procs p).allocations i).ptr ∨ (a i).ptr = 0) ∧
    ∀ b ∈ k.heap.live, (∀ i < maxProgramAllocations, b.base ≠ ((k.procs p).allocations i).ptr) → b ∈ h.live

theorem freedSome_refl (p : Addr) (k : Kernel) : FreedSome p k k := by
  refine ⟨k.heap, (k.procs p).allocations, ?_, fun _ => Or.inl rfl, fun b hb _ => hb⟩
  rw [Function.update_eq_self]

theorem FreedSome.free (h : FreedSome p k k1) {i : Nat} (hi : i < maxProgramAllocations) :
    FreedSome p k (processFree k1 p ((k1.procs p).allocations i).ptr) := by
  by_cases hheld : Held (k1.procs p) ((k1.procs p).allocations i).ptr
  · rw [processFree_of_held hheld]
    obtain ⟨h, a, rfl, hptr, hlive⟩ := h
    have hself : Function.update k.procs p { k.procs p with allocations := a } p =
        { k.procs p with allocations := a } := Function.update_self _ _ _
    dsimp only
    rw [hself, Function.update_idem]
    refine ⟨_, _, rfl, fun j => ?_, fun b hb hnot => Arena.mem_free_live.mpr ⟨hlive b hb hnot, ?_⟩⟩
    · dsimp only
      split
      · exact Or.inr rfl
      · exact hptr j
    · rcases hptr i with he | he
      · exact he ▸ hnot i hi
      · exact he ▸ (k.heap.placed b hb).1
  · rw [processFree_of_not_held hheld]
    exact h

theorem processTerminateAllocations_freedSome (k : Kernel) (p : Addr) :
    FreedSome p k (processTerminateAllocations k p) :=
  forN_of_inv (fun _ k1 => FreedSome p k k1) (freedSome_refl p k) fun _ _ hi h => h.free hi

theorem FreedSome.kept (h : FreedSome p k k1) :
    Kept ((List.range maxProgramAllocations).map fun i => ((k.procs p).allocations i).ptr) k k1 := by
  obtain ⟨h, a, rfl, -, hlive⟩ := h
  refine ⟨fun q => ?_, rfl, rfl, rfl, rfl, fun b hb hnot => ?_⟩
  · by_cases hq : q = p
    · exact ⟨a, hq ▸ Function.update_self _ _ _⟩
    · exact ⟨_, Function.update_of_ne hq _ _⟩
  refine hlive b hb fun i hi he => hnot ?_
  rw [he]
  exact List.mem_map_of_mem (List.mem_range.mpr hi)

theorem kept_programData (htype : (k.procs p).filetype = processFiletypeElf) :
    ∃ h, processFreeProgramData k p = ({ k with heap := h }, 0) ∧
      Kept (programBlocks k (k.procs p)) k { k with heap := h } := by
  have hbinary : (k.procs p).filetype ≠ processFiletypeBinary := by
    rw [htype]
    decide
  unfold processFreeProgramData programBlocks processFreeElfData elfClose
  rw [if_neg hbinary, if_pos htype, if_neg hbinary]
  by_cases h0 : (k.procs p).elf_file = 0
  · rw [if_pos h0, if_neg fun h => h.2 h0]
    exact ⟨k.heap, rfl, fun _ => ⟨_, rfl⟩, rfl, rfl, rfl, rfl, fun _ hb _ => hb⟩
  · rw [if_neg h0, if_pos ⟨htype, h0⟩]
    exact ⟨_, rfl, (kept_kfree k _).trans (kept_kfree _ _)⟩

/-- The stack and the task of the process, given back. -/
def freeStackTask (k : Kernel) (p : Addr) : Kernel :=
  taskFree { k with toKmem := kfree k.toKmem (k.procs p).stack } (k.procs p).task

theorem kept_freeStackTask (k : Kernel) (p : Addr) :
    Kept ((k.procs p).stack :: (k.procs p).task :: blocksIn k.mem (k.tasks (k.procs p).task).page_directory) k
      (freeStackTask k p) :=
  (kept_kfree k (k.procs p).stack).trans
    (kept_taskFree { k with toKmem := kfree k.toKmem (k.procs p).stack } (k.procs p).task)

/-- `process_terminate` from the program data on. -/
def terminateRest (k : Kernel) (p : Addr) : Option (Kernel × Int) := do
  let (k, res) := processFreeProgramData k p
  if res < 0 then return (k, res)
  let k ← processUnlink (freeStackTask k p) p
  return (k, res)

theorem processTerminate_eq (h : processTerminateAllocations k p = k1) : processTerminate k p = terminateRest k1 p := by
  rw [processTerminate, h]
  rfl

theorem terminateRest_kept (htype : (k.procs p).filetype = processFiletypeElf)
    (h : terminateRest k p = some (k', res)) :
    ∃ k1, Kept (programBlocks k (k.procs p) ++ (k.procs p).stack :: (k.procs p).task ::
      blocksIn k.mem (k.tasks (k.procs p).task).page_directory) k k1 ∧ processUnlink k1 p = some k' := by
  obtain ⟨heap, hr, hdata⟩ := kept_programData htype
  have hrest := kept_freeStackTask { k with heap } p
  rw [terminateRest, hr] at h
  obtain ⟨k3, h3, h⟩ := Option.bind_eq_some_iff.mp h
  cases h
  exact ⟨_, hdata.trans hrest, h3⟩

theorem processTerminate_kept (htype : (k.procs p).filetype = processFiletypeElf)
    (h : processTerminate k p = some (k', res)) : ∃ k1, Kept (givenBack k p) k k1 ∧ processUnlink k1 p = some k' := by
  obtain ⟨k1, hk1⟩ : ∃ k1, processTerminateAllocations k p = k1 := ⟨_, rfl⟩
  rw [processTerminate_eq hk1] at h
  have hfreed := processTerminateAllocations_freedSome k p
  rw [hk1] at hfreed
  have hallocations := hfreed.kept
  obtain ⟨k2, hrest, hk2⟩ := terminateRest_kept ((hallocations.filetype p).trans htype) h
  have hkept := hallocations.trans hrest
  obtain ⟨heap, a, rfl, -, -⟩ := hfreed
  dsimp only at hkept
  rw [Function.update_self] at hkept
  refine ⟨k2, ?_, hk2⟩
  rw [givenBack, List.append_assoc]
  exact hkept

/-! ## The entries of the table -/

/-- The record of an ELF process with the index of its entry for an id, and what the calls read of it in use. -/
structure Record (k : Kernel) (slot : Nat) (p : Addr) : Prop where
  id : (k.procs p).id = slot
  filetype : (k.procs p).filetype = processFiletypeElf
  ne_zero : p ≠ 0
  live : ∀ a ∈ partsOf k p, a ≠ 0 → k.heap.Live a

theorem Record.isLive (h : Record k slot p) : k.heap.Live p := h.live p List.mem_cons_self h.ne_zero

theorem Record.of_eq (h : Record k slot p) (hp : ∃ allocations, k'.procs p = { k.procs p with allocations })
    (hlive : ∀ a ∈ partsOf k p, k.heap.Live a → a ≠ 0 → k'.heap.Live a) : Record k' slot p := by
  obtain ⟨_, hp⟩ := hp
  have hparts : partsOf k' p = partsOf k p := by rw [partsOf, partsOf, hp]
  refine ⟨by rw [hp]; exact h.id, by rw [hp]; exact h.filetype, h.ne_zero, fun a ha h0 => ?_⟩
  rw [hparts] at ha
  exact hlive a ha (h.live a ha h0) h0

def CurrentOk (k : Kernel) : Prop :=
  k.current_process = 0 ∨ ∃ slot, Loaded k slot ∧ k.processes slot = k.current_process

structure Inv (k : Kernel) : Prop where
  entry : ∀ slot, Loaded k slot → Record k slot (k.processes slot)
  current : CurrentOk k

theorem Inv.ids (h : Inv k) : (loaded k).map (fun p => (k.procs p).id) =
    (List.range maxProcesses).filter fun slot => k.processes slot ≠ 0 := by
  rw [loaded, List.filter_map, List.map_map]
  conv_rhs => rw [← List.map_id ((List.range maxProcesses).filter fun slot => k.processes slot ≠ 0)]
  refine List.map_congr_left fun slot hslot => ?_
  rw [List.mem_filter, List.mem_range] at hslot
  exact (h.entry slot ⟨hslot.1, by simpa using hslot.2⟩).id

theorem Inv.tableOk (h : Inv k) : TableOk k := by
  refine ⟨fun slot hl => (h.entry slot hl).id, ?_, ?_, h.current⟩
  · rw [h.ids]
    exact List.nodup_range.filter _
  · refine (List.length_filter_le _ _).trans ?_
    rw [List.length_map, List.length_range]

/-- What the other processes are stays, and so do the blocks. Their bytes stay too unless a request is
refused. -/
structure Framed (p : Addr) (k k' : Kernel) : Prop where
  processes : k'.processes = k.processes
  current_process : k'.current_process = k.current_process
  procs : ∀ q, q ≠ p → k'.procs q = k.procs q
  elfFiles : ∀ f, k.heap.Live f → k'.elfFiles f = k.elfFiles f
  live : ∀ b ∈ k.heap.live, b ∈ k'.heap.live
  count : Counts k k'
  bytes : k'.heap.failures = k.heap.failures → ∀ b ∈ k.heap.live, Agree k.mem k'.mem b.base (extent blockSize b.size)

theorem Framed.trans (h : Framed p k k1) (h' : Framed p k1 k') : Framed p k k' where
  processes := h'.processes.trans h.processes
  current_process := h'.current_process.trans h.current_process
  procs q hq := (h'.procs q hq).trans (h.procs q hq)
  elfFiles f hf := (h'.elfFiles f ⟨_, h.live _ hf.choose_spec⟩).trans (h.elfFiles f hf)
  live b hb := h'.live b (h.live b hb)
  count := h.count.trans h'.count
  bytes hok b hb := by
    have h1 : k.heap.failures ≤ k1.heap.failures := h.count
    have h2 : k1.heap.failures ≤ k'.heap.failures := h'.count
    exact (h.bytes (by omega) b hb).trans (h'.bytes (by omega) b (h.live b hb))

theorem framed_load (h : LoadFrame p k k') : Framed p k k' :=
  ⟨h.processes, h.current_process, h.procs, h.elfFiles, h.live, h.count, h.bytes⟩

theorem Inv.framed (h : Inv k) (hf : Framed p k k') (hfresh : ¬ k.heap.Live p) : Inv k' := by
  constructor
  · intro slot hl
    unfold Loaded at hl
    rw [hf.processes] at hl ⊢
    have hrecord := h.entry slot hl
    have hprocs := hf.procs _ fun he => hfresh (he ▸ hrecord.isLive)
    exact hrecord.of_eq ⟨_, hprocs⟩ fun a _ ha _ => ⟨_, hf.live _ ha.choose_spec⟩
  · unfold CurrentOk Loaded
    rw [hf.current_process, hf.processes]
    exact h.current

def withEntry (k : Kernel) (slot : Nat) (p : Addr) : Kernel :=
  { k with processes := Function.update k.processes slot p }

theorem withEntry_processes (k : Kernel) (slot : Nat) (p : Addr) (other : Nat) :
    (withEntry k slot p).processes other = if other = slot then p else k.processes other :=
  Function.update_apply _ _ _ _

theorem loaded_withEntry {other : Nat} (hne : other ≠ slot) : Loaded (withEntry k slot p) other ↔ Loaded k other := by
  rw [Loaded, withEntry_processes, if_neg hne, Loaded]

theorem record_withEntry {other : Nat} {q : Addr} (h : Record k other q) : Record (withEntry k slot p) other q :=
  h.of_eq ⟨_, rfl⟩ fun _ _ ha _ => ha

theorem entries_withEntry (h : ∀ other, Loaded k other → other ≠ slot → Record k other (k.processes other))
    (hp : p = 0 ∨ Record k slot p) {other : Nat} (hl : Loaded (withEntry k slot p) other) :
    Record (withEntry k slot p) other ((withEntry k slot p).processes other) := by
  rw [withEntry_processes]
  by_cases hne : other = slot
  · have h0 := hl.2
    rw [withEntry_processes, if_pos hne] at h0
    rw [if_pos hne, hne]
    exact record_withEntry (hp.resolve_left h0)
  · rw [if_neg hne]
    exact record_withEntry (h other ((loaded_withEntry hne).mp hl) hne)

theorem currentOk_withEntry (h : CurrentOk k) (hne : k.processes slot = 0 ∨ k.processes slot ≠ k.current_process) :
    CurrentOk (withEntry k slot p) := by
  refine h.imp_right fun ⟨other, hl, he⟩ => ⟨other, ?_⟩
  have hother : other ≠ slot := by
    rintro rfl
    exact hne.elim hl.2 fun h => h he
  rw [loaded_withEntry hother, withEntry_processes, if_neg hother]
  exact ⟨hl, he⟩

theorem Inv.enter (h : Inv k) (hfree : k.processes slot = 0) (hp : Record k slot p) : Inv (withEntry k slot p) :=
  ⟨fun _ hl => entries_withEntry (fun other ho _ => h.entry other ho) (Or.inr hp) hl,
    currentOk_withEntry h.current (Or.inl hfree)⟩

theorem switch_inv (h : ∀ other, Loaded k other → Record k other (k.processes other)) (hl : Loaded k slot) :
    Inv (processSwitch k (k.processes slot)) := by
  refine ⟨fun other ho => ?_, Or.inr ⟨slot, hl, rfl⟩⟩
  exact (h other ho).of_eq ⟨_, rfl⟩ fun _ _ ha _ => ha

/-! ## `process_load` -/

theorem freeProcess_none (h : ∀ slot < maxProcesses, k.processes slot ≠ 0) : freeProcess k = none := by
  unfold freeProcess
  rw [List.find?_eq_none]
  intro slot hslot
  simpa using h slot (List.mem_range.mp hslot)

theorem withTask_table (k : Kernel) (p : Addr) : (withTask k p).processes = k.processes ∧
    (withTask k p).current_process = k.current_process ∧ ∀ q, q ≠ p → (withTask k p).procs q = k.procs q := by
  obtain ⟨_, _, _, _, _, h⟩ := onlyTasks_taskNew k p
  unfold withTask
  rw [h]
  exact ⟨rfl, rfl, fun _ hq => Function.update_of_ne hq _ _⟩

attribute [local irreducible] withTask taskFree

theorem framed_map (hok : TaskGranted k p) (map : processMapMemory (withTask k p) p = some (k', res)) :
    Framed p k k' ∧ k'.heap.failures = k.heap.failures := by
  obtain ⟨m, t, r, d, hn, heq, hmem, hdir⟩ := hok.withTask_eq
  obtain ⟨hprocesses, hcurrent, hprocs⟩ := withTask_table k p
  have hfiles := elfFiles_withTask k p
  have hfailures : m.heap.failures = k.heap.failures := by
    rw [← hok, heq, taskLink_toKmem]
  have heq2 := processMapMemory_calls map
  rw [hdir, hmem] at heq2
  have hr := run_mapCall_spec hn.new.inMem.holds (memoryCalls (withTask k p) p res)
  generalize run (mapCall d.chunk) m.mem (memoryCalls (withTask k p) p res) = mem at heq2 hr
  generalize withTask k p = kt at *
  subst hmem heq2
  refine ⟨⟨hprocesses, hcurrent, hprocs, fun f _ => congrFun hfiles f, hn.new.keeps.live, hfailures.ge,
    fun _ b hb => ?_⟩, hfailures⟩
  have hb' := hn.new.keeps.live b hb
  exact (hn.new.keeps.bytes b hb).trans
    (hr.agree (tables_apart_image hn.new.inMem hb' fun hmem => hn.new.fresh _ hmem ⟨_, hb⟩))

theorem framed_undo (hok : TaskGranted k p) (map : processMapMemory (withTask k p) p = some (k', res)) :
    Framed p k (taskFree k' (taskNew k p).2) := by
  obtain ⟨hmap, hfailures⟩ := framed_map hok map
  have hlive := hok.undo_keeps map
  have hkept := kept_taskFree k' (taskNew k p).2
  obtain ⟨_, _, _, _, _, honly⟩ := onlyTasks_taskFree k' (taskNew k p).2
  have hcount : (taskFree k' (taskNew k p).2).heap.failures = k'.heap.failures := by
    obtain ⟨bs, hfreed, -⟩ := pagingFree4gb_gives k'.toKmem (k'.tasks (taskNew k p).2).page_directory
    rw [taskFree_eq]
    exact (hfreed.kfree _).failures
  refine ⟨hkept.processes.trans hmap.processes, hkept.current_process.trans hmap.current_process, fun q hq => ?_,
    fun f hf => (congrFun hkept.elfFiles f).trans (hmap.elfFiles f hf), hlive, (hcount.trans hfailures).ge,
    fun _ b hb => ?_⟩
  · rw [honly]
    exact hmap.procs q hq
  · rw [hkept.mem]
    exact hmap.bytes hfailures b hb

theorem prepared_id (h : Prepared k s slot k1 p) : (k1.procs p).id = slot := by
  obtain ⟨-, -, -, -, -, -, -⟩ := h
  rw [Kernel.setProc_self]

theorem procs_map (map : processMapMemory (withTask k p) p = some (k', res)) :
    k'.procs p = { k.procs p with task := (taskNew k p).2 } := by
  obtain ⟨mem, rfl⟩ := processMapMemory_only map
  exact procs_withTask_self k p

theorem processLoad_full {filename : CharPtr} (h : freeProcess k = none) :
    processLoad k filename = some (k, -EISTKN, 0) := by
  unfold processLoad processGetFreeSlot
  rw [h]
  rfl

theorem record_loaded (hs : NoNul s) (hprep : Prepared k s slot k1 p) (hok : TaskGranted k1 p)
    (map : processMapMemory (withTask k1 p) p = some (k', res)) : Record k' slot p := by
  have hnew := prepared_newProcess hs hprep
  have hmap := (framed_map hok map).1
  have hprocs := procs_map map
  have htask : k'.heap.Live (taskNew k1 p).2 := by
    obtain ⟨m, t, r, d, hn, heq, hmem, -⟩ := hok.withTask_eq
    obtain ⟨mem, rfl⟩ := processMapMemory_only map
    have hheap : (withTask k1 p).heap = m.heap := congrArg Kmem.heap hmem
    rw [heq]
    exact hheap ▸ hn.live
  refine ⟨?_, ?_, Kmem.live_ne_zero hnew.live, fun a ha h0 => ?_⟩
  · rw [hprocs]
    exact prepared_id hprep
  · rw [hprocs]
    exact hnew.filetype
  · rw [partsOf, hprocs, List.mem_cons, List.mem_pair] at ha
    rcases ha with rfl | rfl | rfl
    · exact ⟨_, hmap.live _ hnew.live.choose_spec⟩
    · exact htask
    · exact ⟨_, hmap.live _ (hnew.data.resolve_left h0).choose_spec⟩

theorem load_framed (hs : NoNul s) (hgranted : ¬ TaskRefused k s)
    (hload : processLoad k (cstr s) = some (k', res, process)) : ∃ k1 p, ¬ k.heap.Live p ∧ Framed p k k1 ∧
      ((res < 0 ∧ k' = k1) ∨
        ∃ slot, freeProcess k = some slot ∧ Record k1 slot p ∧ process = p ∧ k' = withEntry k1 slot p) := by
  rcases processLoad_way hs hload with ⟨hnone, rfl⟩ | ⟨slot, hslot, hway⟩
  · rw [processLoad_full hnone] at hload
    cases hload
    exact ⟨k', 0, k'.heap.not_live_zero, framed_load (loadFrame_refl _ _), Or.inl ⟨by decide, rfl⟩⟩
  have hok : ∀ {k1 p}, Prepared k s slot k1 p → TaskGranted k1 p := by
    intro k1 p hprep
    by_contra hno
    exact hgranted ⟨slot, k1, p, hslot, hprep, hno⟩
  cases hway with
  | noRecord refused =>
    exact ⟨_, 0, k.heap.not_live_zero, framed_load (loadFrame_alloc 0 refused), Or.inl ⟨by decide, rfl⟩⟩
  | noData record granted data failed =>
    have hframe := (loadFrame_withRecord record).trans (processLoadData_frame hs data).1
    exact ⟨_, _, (fresh_of_eq record granted).not_live, framed_load hframe, Or.inl ⟨failed, rfl⟩⟩
  | noStack record granted data _ refused =>
    have hframe := (loadFrame_withRecord record).trans (processLoadData_frame hs data).1
    exact ⟨_, _, (fresh_of_eq record granted).not_live, framed_load (hframe.trans (loadFrame_alloc _ refused)),
      Or.inl ⟨by decide, rfl⟩⟩
  | noMap prepared map failed =>
    have hnew := prepared_newProcess hs prepared
    exact ⟨_, _, hnew.fresh, (framed_load hnew.frame).trans (framed_undo (hok prepared) map), Or.inl ⟨failed, rfl⟩⟩
  | loaded prepared map mapped =>
    have hnew := prepared_newProcess hs prepared
    exact ⟨_, _, hnew.fresh, (framed_load hnew.frame).trans (framed_map (hok prepared) map).1,
      Or.inr ⟨slot, hslot, record_loaded hs prepared (hok prepared) map, rfl, rfl⟩⟩

theorem Inv.load (h : Inv k) (hs : NoNul s) (hgranted : ¬ TaskRefused k s)
    (hload : processLoad k (cstr s) = some (k', res, process)) :
    Inv k' ∧ (¬ res < 0 → ∃ slot, Loaded k' slot ∧ k'.processes slot = process) := by
  obtain ⟨k1, p, hfresh, hframe, ⟨hneg, rfl⟩ | ⟨slot, hslot, hrecord, rfl, rfl⟩⟩ := load_framed hs hgranted hload
  · exact ⟨h.framed hframe hfresh, fun hres => absurd hneg hres⟩
  · obtain ⟨hlt, hfree⟩ := freeProcess_some hslot
    have hempty : k1.processes slot = 0 := by rw [hframe.processes, hfree]
    have hentry : (withEntry k1 slot process).processes slot = process := Function.update_self _ _ _
    exact ⟨(h.framed hframe hfresh).enter hempty hrecord,
      fun _ => ⟨slot, ⟨hlt, hentry.trans_ne hrecord.ne_zero⟩, hentry⟩⟩

theorem load_failed (hs : NoNul s) (hload : processLoad k (cstr s) = some (k', res, process)) (hres : res < 0) :
    k'.processes = k.processes ∧ k'.current_process = k.current_process := by
  rcases processLoad_way hs hload with ⟨-, rfl⟩ | ⟨slot, -, hway⟩
  · exact ⟨rfl, rfl⟩
  cases hway with
  | noRecord => exact ⟨rfl, rfl⟩
  | noData record _ data =>
    have hframe := (loadFrame_withRecord record).trans (processLoadData_frame hs data).1
    exact ⟨hframe.processes, hframe.current_process⟩
  | noStack record _ data =>
    have hframe := (loadFrame_withRecord record).trans (processLoadData_frame hs data).1
    exact ⟨hframe.processes, hframe.current_process⟩
  | noMap prepared map =>
    have hframe := (prepared_newProcess hs prepared).frame
    obtain ⟨mem, rfl⟩ := processMapMemory_only map
    obtain ⟨hprocesses, hcurrent, -⟩ := withTask_table _ _
    obtain ⟨_, _, _, _, _, honly⟩ := onlyTasks_taskFree _ _
    rw [honly]
    exact ⟨hprocesses.trans hframe.processes, hcurrent.trans hframe.current_process⟩
  | loaded prepared map mapped => exact absurd hres mapped

theorem loadOk (k : Kernel) (hs : NoNul s) : LoadOk k (processLoad k (cstr s)) :=
  ⟨fun h => processLoad_full (freeProcess_none h), fun _ _ _ hload hres => load_failed hs hload hres⟩

theorem processLoadSwitch_some {filename : CharPtr} (h : processLoadSwitch k filename = some (k', res, process)) :
    ∃ k1, processLoad k filename = some (k1, res, process) ∧ k' = if res = 0 then processSwitch k1 process else k1 := by
  obtain ⟨⟨k1, res1, process1⟩, hload, h⟩ := Option.bind_eq_some_iff.mp h
  cases h
  exact ⟨k1, hload, rfl⟩

theorem loadSwitchOk (k : Kernel) (hs : NoNul s) : LoadOk k (processLoadSwitch k (cstr s)) := by
  constructor
  · intro h
    rw [processLoadSwitch, processLoad_full (freeProcess_none h)]
    rfl
  · intro k' res process h hres
    obtain ⟨k1, hload, rfl⟩ := processLoadSwitch_some h
    rw [if_neg hres.ne]
    exact load_failed hs hload hres

theorem Inv.loadSwitch (h : Inv k) (hs : NoNul s) (hgranted : ¬ TaskRefused k s)
    (hload : processLoadSwitch k (cstr s) = some (k', res, process)) : Inv k' := by
  obtain ⟨k1, hload1, rfl⟩ := processLoadSwitch_some hload
  obtain ⟨hinv, hentry⟩ := h.load hs hgranted hload1
  split
  · obtain ⟨slot, hl, rfl⟩ := hentry (by omega)
    exact switch_inv hinv.entry hl
  · exact hinv

/-! ## `process_terminate` -/

theorem unlink_inv (h : ∀ other, Loaded k other → other ≠ slot → Record k other (k.processes other))
    (hcurrent : CurrentOk k) (hid : (k.procs (k.processes slot)).id = slot)
    (hu : processUnlink k (k.processes slot) = some k') : Inv k' := by
  have hentries := fun other (hl : Loaded (withEntry k slot 0) other) => entries_withEntry h (Or.inl rfl) hl
  have heq : processUnlink k (k.processes slot) = if k.current_process = k.processes slot then
      processSwitchToAny (withEntry k slot 0) else some (withEntry k slot 0) := by
    rw [processUnlink, hid]
    rfl
  rw [heq] at hu
  split at hu
  · obtain ⟨i, hfind, hu⟩ := Option.bind_eq_some_iff.mp hu
    cases hu
    exact switch_inv hentries
      ⟨List.mem_range.mp (List.mem_of_find?_eq_some hfind), by simpa using List.find?_some hfind⟩
  · rename_i hne
    cases hu
    exact ⟨hentries, currentOk_withEntry hcurrent (Or.inr (Ne.symm hne))⟩

theorem Inv.terminate (h : Inv k) (hl : Loaded k slot)
    (hsound : ∀ other, Loaded k other → other ≠ slot →
      ∀ a ∈ partsOf k (k.processes other), a ≠ 0 → a ∉ givenBack k (k.processes slot))
    (ht : processTerminate k (k.processes slot) = some (k', res)) : Inv k' := by
  obtain ⟨k1, hkept, hu⟩ := processTerminate_kept (h.entry slot hl).filetype ht
  rw [← hkept.processes] at hu
  refine unlink_inv (fun other ho hne => ?_) ?_ ?_ hu
  · unfold Loaded at ho
    rw [hkept.processes] at ho ⊢
    exact (h.entry other ho).of_eq (hkept.record _) fun a ha hlive h0 =>
      ⟨_, hkept.live _ hlive.choose_spec (hsound other ho hne a ha h0)⟩
  · unfold CurrentOk Loaded
    rw [hkept.current_process, hkept.processes]
    exact h.current
  · obtain ⟨_, hrecord⟩ := hkept.record (k1.processes slot)
    rw [hrecord, hkept.processes]
    exact (h.entry slot hl).id

/-! ## Runs of calls -/

theorem Inv.call (h : Inv k) (a : Call) (hl : legal (some k) a) (hs : sound (some k) a) (hc : call k a = some k') :
    Inv k' := by
  cases a with
  | load s =>
    obtain ⟨⟨k1, res, process⟩, hload, rfl⟩ := Option.map_eq_some_iff.mp hc
    exact (h.load hl (hs k rfl) hload).1
  | loadSwitch s =>
    obtain ⟨⟨k1, res, process⟩, hload, rfl⟩ := Option.map_eq_some_iff.mp hc
    exact h.loadSwitch hl (hs k rfl) hload
  | switch slot =>
    cases hc
    exact switch_inv h.entry (hl k rfl)
  | terminate slot =>
    obtain ⟨⟨k1, res⟩, ht, rfl⟩ := Option.map_eq_some_iff.mp hc
    exact h.terminate (hl k rfl) (hs k rfl) ht

theorem processUnlink_data (h : processUnlink k p = some k') : k'.elfFiles = k.elfFiles ∧ k'.mem = k.mem := by
  unfold processUnlink at h
  dsimp only at h
  split at h
  · obtain ⟨i, -, h⟩ := Option.bind_eq_some_iff.mp h
    cases h
    exact ⟨rfl, rfl⟩
  · cases h
    exact ⟨rfl, rfl⟩

/-- The program data at `f` is as it was, and so is the record that is read there. -/
def SameData (f : Addr) (k k' : Kernel) : Prop := k'.elfFiles f = k.elfFiles f ∧ Agree k.mem k'.mem f blockSize

theorem SameData.elfFileAt (h : SameData p k k') (hp : k.elfFiles p = elfFileAt k.mem p) :
    k'.elfFiles p = elfFileAt k'.mem p := by
  have hword : ∀ c : BitVec 32, c.toNat ≤ 128 → load32 k'.mem (p + c) = load32 k.mem (p + c) := by
    intro c hc
    refine (h.2.sub ?_).load32
    rw [BitVec.add_comm, BitVec.add_sub_cancel]
    unfold blockSize
    omega
  rw [h.1, hp]
  unfold MultitaskOs.elfFileAt
  rw [hword 112 (by decide), hword 116 (by decide), hword 120 (by decide), hword 124 (by decide), hword 128 (by decide)]

theorem prepared_raw (hs : NoNul s) (hprep : Prepared k s slot k1 p) (hraw : LoadedRaw k s) :
    k1.elfFiles (k1.procs p).ptr = elfFileAt k1.mem (k1.procs p).ptr := by
  obtain ⟨record, granted, data, loaded, stack, -, -⟩ := hprep
  unfold LoadedRaw at hraw
  rw [record] at hraw
  have hway := processLoadData_way hs data
  cases hway with
  | failed keeps others neg => exact absurd neg loaded
  | elf load =>
    rw [load] at hraw
    exact absurd (Option.some.inj hraw) (show (0 : Int) ≠ -EINFORMAT by decide)
  | @raw k0 k2 _ a size refused read =>
    rw [Kernel.setProc_self, Kernel.setProc_self]
    have hkeeps := kzalloc_keeps k2.toKmem userProgramStackSize
    rw [show kzalloc k2.toKmem userProgramStackSize = _ from stack] at hkeeps
    exact SameData.elfFileAt (k := k2) ⟨rfl, hkeeps.page ⟨_, read.live⟩⟩ read.record

theorem load_sameData (hs : NoNul s) (hgranted : ¬ TaskRefused k s)
    (hload : processLoad k (cstr s) = some (k', res, process)) (hok : k'.heap.failures = k.heap.failures)
    (hf : k.heap.Live p) : SameData p k k' := by
  obtain ⟨k1, q, -, hframe, hk'⟩ := load_framed hs hgranted hload
  obtain ⟨size, hb⟩ := hf
  have hsame : k1.heap.failures = k.heap.failures → SameData p k k1 := fun h1 =>
    ⟨hframe.elfFiles p ⟨size, hb⟩, (hframe.bytes h1 _ hb).sub (by
      rw [BitVec.sub_self]
      exact (Nat.zero_add _).trans_le (le_extent size))⟩
  rcases hk' with ⟨-, rfl⟩ | ⟨slot, -, -, -, rfl⟩
  · exact hsame hok
  · exact hsame hok

/-- Where no request is refused, a call leaves the program data of the processes that stay loaded. A raw
image is read as its bytes for that long. -/
theorem call_sameData (h : Inv k) (a : Call) (hl : legal (some k) a) (hs : sound (some k) a)
    (hc : call k a = some k') (hok : k'.heap.failures = k.heap.failures) {other : Nat} (ho : Loaded k other)
    (hne : a ≠ .terminate other) (h0 : (k.procs (k.processes other)).ptr ≠ 0) :
    SameData (k.procs (k.processes other)).ptr k k' := by
  have hf := (h.entry other ho).live (k.procs (k.processes other)).ptr (by simp [partsOf]) h0
  cases a with
  | load s =>
    obtain ⟨⟨k1, res, process⟩, hload, rfl⟩ := Option.map_eq_some_iff.mp hc
    exact load_sameData hl (hs k rfl) hload hok hf
  | loadSwitch s =>
    obtain ⟨⟨k1, res, process⟩, hload, rfl⟩ := Option.map_eq_some_iff.mp hc
    obtain ⟨k2, hload2, rfl⟩ := processLoadSwitch_some hload
    have hsame : k2.heap.failures = k.heap.failures → SameData (k.procs (k.processes other)).ptr k k2 :=
      fun hok => load_sameData hl (hs k rfl) hload2 hok hf
    dsimp only at hok ⊢
    split at hok
    · rw [if_pos (by assumption)]
      exact hsame hok
    · rw [if_neg (by assumption)]
      exact hsame hok
  | switch slot =>
    cases hc
    exact ⟨rfl, Agree.refl _ _ _⟩
  | terminate slot =>
    obtain ⟨⟨k1, res⟩, ht, rfl⟩ := Option.map_eq_some_iff.mp hc
    obtain ⟨k2, hkept, hu⟩ := processTerminate_kept (h.entry slot (hl k rfl)).filetype ht
    obtain ⟨helf, hmem⟩ := processUnlink_data hu
    refine ⟨congrFun (helf.trans hkept.elfFiles) _, fun x _ => ?_⟩
    exact congrFun (hmem.trans hkept.mem) x

theorem callOk {state : Option Kernel} {a : Call} (hl : legal state a) : CallOk state a := by
  cases a with
  | load s => exact fun k _ => loadOk k hl
  | loadSwitch s => exact fun k _ => loadSwitchOk k hl
  | switch slot => trivial
  | terminate slot => trivial

/-- No process has been loaded. -/
structure Booted (k : Kernel) : Prop where
  processes : ∀ slot < maxProcesses, k.processes slot = 0
  current_process : k.current_process = 0

theorem inv_booted (h : Booted k) : Inv k :=
  ⟨fun slot hl => absurd (h.processes slot hl.1) hl.2, Or.inl h.current_process⟩

/-- For every run of calls none of which leads to a free of the record of a loaded process. -/
theorem table_ok (hk : Booted k) (calls : List Call) (hlegal : Each step legal (some k) calls)
    (hsound : Each step sound (some k) calls) :
    Along step (fun state => ∀ k ∈ state, TableOk k) (some k) calls ∧ Each step CallOk (some k) calls := by
  have hok : Each step (fun state a => legal state a ∧ sound state a) (some k) calls := each_and.mpr ⟨hlegal, hsound⟩
  have hrun : Along step (fun state => ∀ k ∈ state, Inv k) (some k) calls := by
    refine along_of_inv (fun state a hinv hok => ?_) (fun k1 hk1 => ?_) hok
    · intro k' hk'
      obtain ⟨k1, rfl, hcall⟩ := Option.bind_eq_some_iff.mp hk'
      exact (hinv k1 rfl).call a hok.1 hok.2 hcall
    · obtain rfl := Option.mem_some_iff.mp hk1
      exact inv_booted hk
  exact ⟨hrun.mono fun state h k' hk' => (h k' hk').tableOk, hlegal.imp fun _ _ => callOk⟩

theorem not_taskRefused {m : Kmem} (hrecord : kzalloc k.toKmem sizeofProcess = (m, p))
    (hdata : (processLoadData (withRecord k m p) (cstr s) p).map (·.2) = some res) (hres : res < 0) :
    ¬ TaskRefused k s := by
  rintro ⟨slot, k1, q, -, hprep, -⟩
  obtain ⟨record, -, data, loaded, -⟩ := hprep
  cases hrecord.symm.trans record
  rw [data] at hdata
  cases hdata
  exact loaded hres

theorem not_taskRefused_pathA : ¬ TaskRefused emptyKernel pathA := by
  have hdata : (processLoadData (withRecord emptyKernel (kzalloc emptyKernel.toKmem sizeofProcess).1
      (kzalloc emptyKernel.toKmem sizeofProcess).2) (cstr pathA) (kzalloc emptyKernel.toKmem sizeofProcess).2).map
      (·.2) = some (- EIO) := by decide +kernel
  exact not_taskRefused rfl hdata (by decide)

theorem not_taskRefused_noDrive (k : Kernel) : ¬ TaskRefused k [] := by
  obtain ⟨⟨m, p⟩, hrecord⟩ : ∃ r, kzalloc k.toKmem sizeofProcess = r := ⟨_, rfl⟩
  have hdata : (processLoadData (withRecord k m p) (cstr []) p).map (·.2) = some (- EIO) := rfl
  exact not_taskRefused hrecord hdata (by decide)

def failedLoads : List Call := [.load pathA, .loadSwitch []]

theorem table_ok_failedLoads :
    Along step (fun state => ∀ k ∈ state, TableOk k) (some emptyKernel) failedLoads ∧
      Each step CallOk (some emptyKernel) failedLoads := by
  refine table_ok ⟨fun _ _ => rfl, rfl⟩ failedLoads ⟨by unfold legal NoNul; decide, by simp [legal, NoNul], trivial⟩
    ⟨fun k hk => ?_, fun k _ => not_taskRefused_noDrive k, trivial⟩
  obtain rfl := Option.mem_some_iff.mp hk
  exact not_taskRefused_pathA

/-! ## A record that is freed while it is loaded -/

theorem processLoad_noDrive {m : Kmem} (hslot : freeProcess k = some slot)
    (hrecord : kzalloc k.toKmem sizeofProcess = (m, p)) (hp : p ≠ 0) :
    ∃ k', processLoad k (cstr []) = some (k', - EIO, 0) ∧ k'.processes = k.processes ∧ k'.procs p = zeroProcess := by
  have hdata : processLoadData (withRecord k m p) (cstr []) p = some ((elfRecord (withRecord k m p)).1, - EIO) := rfl
  have hnul : NoNul [] := by simp [NoNul]
  have hprocs : (elfRecord (withRecord k m p)).1.procs p = zeroProcess := by
    obtain ⟨_, _, _, _, _, _, _, _, _, _, heq, -⟩ := (loadKeeps_elfRecord (withRecord k m p)).only
    rw [heq]
    exact Function.update_self _ _ _
  exact ⟨_, processLoad_of_way hnul hslot (.noData hrecord hp hdata (by decide)),
    (processLoadData_frame hnul hdata).1.processes, hprocs⟩

/-- What `task_new` does when it is refused its record: it frees a task behind NULL. -/
theorem taskNew_error (herr : (taskNew k p).2 = ERROR (-ENOMEM)) :
    ∃ m, kzalloc k.toKmem sizeofTask = (m, 0) ∧ (taskNew k p).1 = taskFree { k with toKmem := m } 0 := by
  obtain ⟨⟨m, t⟩, h⟩ : ∃ r, kzalloc k.toKmem sizeofTask = r := ⟨_, rfl⟩
  have h0 : t = 0 := by
    by_contra h0
    have hal := Kmem.live_aligned (fresh_of_eq h h0).isLive
    have hstatus := taskInit_status { k with toKmem := m } t p
    rw [taskNew, Kernel.onKmem_eq h] at herr
    dsimp only at herr
    rw [if_neg h0] at herr
    split at herr
    · rename_i hres
      rw [hstatus.resolve_left hres] at herr
      exact absurd herr (show ERROR (- EIO) ≠ ERROR (-ENOMEM) by decide)
    · dsimp only at herr
      rw [herr] at hal
      exact absurd hal (by decide)
  subst h0
  exact ⟨m, h, by rw [taskNew_failed_alloc h]⟩

/-- If the record of the process is what lies behind NULL, it is given back while it is loaded, and
the heap may hand it out again. -/
theorem loaded_fits (hs : NoNul s) (hload : processLoad k (cstr s) = some (k', 0, p))
    (herr : (k'.procs p).task = ERROR (-ENOMEM)) (hnull : (k.tasks 0).page_directory = p) :
    k'.heap.Fits ⟨p, sizeofProcess⟩ := by
  rcases processLoad_way hs hload with ⟨hnone, rfl⟩ | ⟨slot, -, hway⟩
  · rw [processLoad_full hnone] at hload
    cases hload
  generalize hres : (0 : Int) = res at hway
  cases hway with
  | noRecord => exact absurd hres (by decide)
  | noData _ _ _ failed => omega
  | noStack => exact absurd hres (by decide)
  | noMap _ _ failed => omega
  | @loaded _ k1 k2 _ prepared map mapped =>
    have hframe := (prepared_newProcess hs prepared).frame
    have hblock : (⟨p, sizeofProcess⟩ : Block) ∈ k1.heap.live := by
      obtain ⟨record, granted, data, -, stack, -, -⟩ := prepared
      have hdata := (processLoadData_frame hs data).1.live _ (fresh_of_eq record granted).mem_live
      exact (loadFrame_alloc p stack).live _ hdata
    have htask : (taskNew k1 p).2 = ERROR (-ENOMEM) := by
      have hprocs := procs_map map
      dsimp only at herr
      rwa [hprocs] at herr
    obtain ⟨m, hrefused, heq⟩ := taskNew_error htask
    have hlive := live_of_refused k1.toKmem sizeofTask (by rw [hrefused])
    rw [hrefused] at hlive
    obtain ⟨as, hfreed, has⟩ := pagingFree4gb_gives m (k1.tasks 0).page_directory
    have hk2 : k2.heap = (taskNew k1 p).1.heap := by
      obtain ⟨mem, rfl⟩ := processMapMemory_only map
      unfold withTask
      rfl
    rw [heq, taskFree_eq] at hk2
    dsimp only at hk2
    have hheap : ∀ b ∈ k2.heap.live, b ∈ k1.heap.live ∧ b.base ≠ p := by
      intro b hb
      rw [hk2] at hb
      obtain ⟨hbm, hnot⟩ := ((hfreed.kfree 0).live b).mp hb
      refine ⟨hlive ▸ hbm, fun he => hnot (List.mem_cons_of_mem _ ((has _).mpr ?_))⟩
      rw [he, ← hnull, hframe.tasks]
      exact List.mem_cons_self
    exact ⟨k1.heap.placed _ hblock, fun c hc => apart_of_ne hblock (hheap c hc).1 (Ne.symm (hheap c hc).2)⟩

def secondRecord : Addr := rawImage.heap.answer 24

/-- Both loads of `A` are refused the record of their task. Behind NULL lies the record of the second
process, and what lies at that address before is the stack of the first one. -/
def reused : Kernel :=
  { rawImage with
    mem := store32 rawImage.mem secondRecord (rawImage.heap.answer 22)
    tasks := Function.update rawImage.tasks 0 { zeroTask with page_directory := secondRecord }
    heap := { rawImage.heap with
      answer := fun i =>
        if i = 23 ∨ i = 45 then 0 else if i = 46 then secondRecord else rawImage.heap.answer i } }

theorem reused_loads : ((processLoad reused (cstr pathA)).bind fun r => (processLoad r.1 (cstr pathA)).map fun r' =>
    (r'.2, (r'.1.procs r'.2.2).task, (r.1.tasks 0).page_directory, freeProcess r'.1, r'.1.processes 1,
      r'.1.heap.answer r'.1.heap.asked)) =
    some ((0, secondRecord), ERROR (-ENOMEM), secondRecord, some 2, secondRecord, secondRecord) := by
  decide +kernel

theorem kzalloc_fits (size : Nat) (h : k.heap.Fits ⟨k.heap.answer k.heap.asked, size⟩) :
    (kzalloc k.toKmem size).2 = k.heap.answer k.heap.asked := by
  have halloc : (k.heap.alloc size).2 = k.heap.answer k.heap.asked := by rw [Arena.alloc, dif_pos h]
  unfold kzalloc kmalloc
  dsimp only
  rw [halloc, if_neg h.1.1]

def reusedCalls : List Call := [.load pathA, .load pathA, .load []]

theorem legal_reusedCalls : Each step legal (some reused) reusedCalls :=
  ⟨by unfold legal NoNul; decide, by unfold legal NoNul; decide, by simp [legal, NoNul], trivial⟩

/-- The third load fails on its path, and the process in entry 1 has lost its id. -/
theorem reused_not_ok : Booted reused ∧ Each step legal (some reused) reusedCalls ∧
    ∃ k, run step (some reused) reusedCalls = some k ∧ ¬ TableOk k := by
  have h := reused_loads
  obtain ⟨⟨k1, res1, p1⟩, h1, h⟩ := Option.bind_eq_some_iff.mp h
  obtain ⟨⟨k2, res2, p2⟩, h2, h⟩ := Option.map_eq_some_iff.mp h
  dsimp only at h h2
  simp only [Prod.mk.injEq] at h
  obtain ⟨⟨rfl, rfl⟩, herr, hnull, hfree, hentry, hanswer⟩ := h
  have hfits := loaded_fits (by unfold NoNul; decide) h2 herr hnull
  obtain ⟨⟨m, p⟩, hrecord⟩ : ∃ r, kzalloc k2.toKmem sizeofProcess = r := ⟨_, rfl⟩
  have hsame := kzalloc_fits (k := k2) sizeofProcess (by rwa [hanswer])
  rw [hanswer, hrecord] at hsame
  dsimp only at hsame
  subst hsame
  obtain ⟨k3, h3, hprocesses, hcleared⟩ := processLoad_noDrive hfree hrecord hfits.1.1
  refine ⟨⟨fun _ _ => rfl, rfl⟩, legal_reusedCalls, k3, ?_, fun hok => ?_⟩
  · simp only [reusedCalls, run_cons, run_nil, step, call, Option.bind_some, h1, h2, h3, Option.map_some]
  · have hid := hok.id 1 ⟨by decide, by rw [hprocesses, hentry]; exact hfits.1.1⟩
    rw [hprocesses, hentry, hcleared] at hid
    exact absurd hid (by decide)

end MultitaskOs.ProcessTable
