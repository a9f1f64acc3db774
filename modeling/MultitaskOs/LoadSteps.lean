import MultitaskOs.Loading
import MultitaskOs.MapMemory

/-!
# The steps of a load

`process_load_for_slot` from its record to its entry in the table: every way out of it, and what
each of its steps leaves alone.
-/

open Lib Lib.Memory Lib.Arena Lib.Run MultitaskOs.PathParser MultitaskOs.Paging MultitaskOs.Tasks MultitaskOs.Loading
  MultitaskOs.ElfMap MultitaskOs.MapMemory

namespace MultitaskOs.LoadSteps

variable {k k' k'' : Kernel} {s : List Byte} {slot : Nat} {res : Int} {process task : Addr} {m : Kmem}

/-! ## What the steps of a task leave alone -/

def OnlyTasks (k k' : Kernel) : Prop :=
  ∃ m t c h l, k' = { k with toKmem := m, tasks := t, current_task := c, task_head := h, task_tail := l }

theorem OnlyTasks.refl (k : Kernel) : OnlyTasks k k := ⟨_, _, _, _, _, rfl⟩

theorem OnlyTasks.trans (h : OnlyTasks k k') (h' : OnlyTasks k' k'') : OnlyTasks k k'' := by
  obtain ⟨_, _, _, _, _, rfl⟩ := h
  obtain ⟨_, _, _, _, _, rfl⟩ := h'
  exact ⟨_, _, _, _, _, rfl⟩

theorem onlyTasks_taskListRemove (k : Kernel) (task : Addr) : OnlyTasks k (taskListRemove k task) := by
  unfold taskListRemove taskGetNext Kernel.setTask
  dsimp only
  split_ifs <;> exact ⟨_, _, _, _, _, rfl⟩

theorem onlyTasks_taskLink (k : Kernel) (task : Addr) : OnlyTasks k (taskLink k task) := by
  unfold taskLink Kernel.setTask
  dsimp only
  split_ifs <;> exact ⟨_, _, _, _, _, rfl⟩

theorem onlyTasks_taskFree (k : Kernel) (task : Addr) : OnlyTasks k (taskFree k task) := by
  obtain ⟨_, _, _, _, _, h⟩ := onlyTasks_taskListRemove k task
  rw [taskFree_eq, h]
  exact ⟨_, _, _, _, _, rfl⟩

theorem onlyTasks_taskInit (k : Kernel) (task process : Addr) : OnlyTasks k (taskInit k task process).1 := by
  obtain ⟨⟨m, chunk⟩, h⟩ : ∃ r, pagingNew4gb k.toKmem 5 = r := ⟨_, rfl⟩
  have hk : k.onKmem (pagingNew4gb · 5) = ({ k with toKmem := m }, chunk) := Kernel.onKmem_eq h
  rw [taskInit, hk]
  dsimp only
  split_ifs <;> exact ⟨_, _, _, _, _, rfl⟩

theorem onlyTasks_taskNew (k : Kernel) (process : Addr) : OnlyTasks k (taskNew k process).1 := by
  obtain ⟨⟨m, task⟩, h⟩ : ∃ r, kzalloc k.toKmem sizeofTask = r := ⟨_, rfl⟩
  rw [taskNew, Kernel.onKmem_eq h]
  dsimp only
  have h1 : OnlyTasks k { k with toKmem := m } := ⟨_, _, _, _, _, rfl⟩
  have h2 := h1.trans (onlyTasks_taskInit _ task process)
  split_ifs
  · exact h1.trans (onlyTasks_taskFree _ task)
  · exact h2.trans (onlyTasks_taskFree _ task)
  · exact h2.trans (onlyTasks_taskLink _ task)

theorem error_ne_zero {e : Int} (h : e = -ENOMEM ∨ e = - EIO) : ERROR e ≠ 0 := by
  rcases h with rfl | rfl <;> decide

theorem taskInit_status (k : Kernel) (task process : Addr) :
    (taskInit k task process).2 = 0 ∨ (taskInit k task process).2 = - EIO := by
  obtain ⟨⟨m, chunk⟩, h⟩ : ∃ r, pagingNew4gb k.toKmem 5 = r := ⟨_, rfl⟩
  obtain ⟨h0, h1⟩ := taskInit_eq (t := task) process h
  by_cases hc : chunk = 0
  · exact Or.inr (h0 hc).2
  · obtain ⟨r, hr, -⟩ := h1 hc
    exact Or.inl (by rw [hr])

/-- `task_new` answers a task, or an error that no comparison with 0 finds. -/
theorem taskNew_ne_zero (k : Kernel) (process : Addr) : (taskNew k process).2 ≠ 0 := by
  obtain ⟨⟨m, task⟩, h⟩ : ∃ r, kzalloc k.toKmem sizeofTask = r := ⟨_, rfl⟩
  rw [taskNew, Kernel.onKmem_eq h]
  dsimp only
  have hstatus := taskInit_status { k with toKmem := m } task process
  split_ifs with h0 hres
  · exact error_ne_zero (Or.inl rfl)
  · exact error_ne_zero (Or.inr (hstatus.resolve_left hres))
  · exact h0

theorem error_i_ne_zero {a : Addr} (h : a ≠ 0) : ERROR_I a ≠ 0 := fun he => h (BitVec.toInt_inj.mp he)

/-! ## Mapping -/

def mapImage (k : Kernel) (process : Addr) : Option (Kernel × Int) :=
  if (k.procs process).filetype = processFiletypeElf then some (processMapElf k process)
  else if (k.procs process).filetype = processFiletypeBinary then some (processMapBinary k process)
  else none

/-- The call that maps a raw image. -/
def binaryCall (p : Process) : MapCall :=
  ⟨programVirtualAddress, p.ptr, pagingAlignAddress (p.ptr + p.size), pagingUserWriteable⟩

theorem processMapBinary_eq (k : Kernel) (process : Addr) : processMapBinary k process =
    ({ k with mem := mapCall (pageDirectory k process) k.mem (binaryCall (k.procs process)) }, 0) := by
  rw [processMapBinary, mapCall, binaryCall]

theorem processMapMemory_eq (k : Kernel) (process : Addr) : processMapMemory k process =
    (mapImage k process).bind fun r => if r.2 < 0 then some r else some ({ r.1 with
      mem := mapCall (pageDirectory r.1 process) r.1.mem (stackCall (r.1.procs process).stack) }, r.2) := by
  unfold processMapMemory mapImage
  simp only [mapCall_stackCall]
  split_ifs
  · simp only [Option.bind_eq_bind, Option.bind_some, Option.pure_def]
  · simp only [Option.bind_eq_bind, Option.bind_some, Option.pure_def]
  · simp only [Option.bind_eq_bind, Option.bind_none]

/-- The calls of the loop of `process_map_elf`, each as the memory stands by then. -/
def elfCalls (directory : Addr) (elf_file : ElfFile) (phdrs : Addr) : Nat → Nat → Mem → List MapCall
  | 0, _, _ => []
  | n + 1, i, m =>
    if i < (ePhnum m elf_file.elf_memory).toNat then
      let c := headerCall m elf_file.elf_memory (phdrs + BitVec.ofNat 32 (sizeofElf32Phdr * i))
      if (pagingMapTo m directory c.virt c.phys c.phys_end c.flags).2 < 0 then [c]
      else c :: elfCalls directory elf_file phdrs n (i + 1) (mapCall directory m c)
    else []

theorem processMapElfLoop_calls (directory : Addr) (file : ElfFile) (phdrs : Addr) (n i : Nat) (res : Int) (m : Mem) :
    (processMapElfLoop directory file phdrs n i res m).1 =
      run (mapCall directory) m (elfCalls directory file phdrs n i m) := by
  induction n generalizing i res m with
  | zero => rfl
  | succ n ih =>
    unfold processMapElfLoop elfCalls
    split
    · dsimp only [headerCall, elfPhdrPhysAddress]
      split
      · rfl
      · rw [run_cons]
        exact ih _ _ _
    · rfl

theorem elfCalls_eq {d : PageDir} {m m' : Mem} {elf : Addr} {filesize : Nat} {file : ElfFile}
    (hfile : file.elf_memory = elf) (himage : ∀ t < 1024, Apart (d.table t) 4096 elf (extent blockSize filesize))
    (hheaders : ∀ t < 1024, ∀ i < (ePhnum m elf).toNat,
      Apart (d.table t) 4096 (elfProgramHeader m elf i) sizeofElf32Phdr) {f : Nat → Option (BitVec 32)} {n i : Nat}
    (hr : Remap d m m' f) (hi : i ≤ (ePhnum m elf).toNat) (hn : (ePhnum m elf).toNat < i + n)
    (hacc : ∀ c ∈ elfCalls d.chunk file (elfPheader m elf) n i m', ¬ c.Rejected) :
    elfCalls d.chunk file (elfPheader m elf) n i m' = (headerCalls m elf (ePhnum m elf).toNat).drop i := by
  induction n generalizing i m' f with
  | zero => exact absurd hn (not_lt.mpr hi)
  | succ n ih =>
    have hphnum : ePhnum m' elf = ePhnum m elf := ePhnum_image (hr.agree himage)
    have hlen : (headerCalls m elf (ePhnum m elf).toNat).length = (ePhnum m elf).toNat := by simp [headerCalls]
    unfold elfCalls at hacc ⊢
    rw [hfile, hphnum] at hacc ⊢
    by_cases hlt : i < (ePhnum m elf).toNat
    · rw [if_pos hlt] at hacc ⊢
      have hcall : headerCall m' elf (elfPheader m elf + BitVec.ofNat 32 (sizeofElf32Phdr * i)) =
          headerCall m elf (elfProgramHeader m elf i) := headerCall_agree (hr.agree fun t ht => hheaders t ht i hlt)
      have hdrop : (headerCalls m elf (ePhnum m elf).toNat).drop i = headerCall m elf (elfProgramHeader m elf i) ::
          (headerCalls m elf (ePhnum m elf).toNat).drop (i + 1) := by
        rw [List.drop_eq_getElem_cons (by rw [hlen]; exact hlt)]
        simp [headerCalls]
      rw [hcall] at hacc ⊢
      obtain ⟨m2, hm2, hr2⟩ := pagingMapTo_spec hr.holds (headerCall m elf (elfProgramHeader m elf i))
      have hstep : mapCall d.chunk m' (headerCall m elf (elfProgramHeader m elf i)) = m2 := by rw [mapCall, hm2]
      have hfirst : ¬ (headerCall m elf (elfProgramHeader m elf i)).Rejected := by
        refine hacc _ ?_
        dsimp only
        split <;> exact List.mem_cons_self
      dsimp only at hacc ⊢
      rw [hm2, if_neg hfirst, if_neg (lt_irrefl 0), hstep] at hacc ⊢
      rw [hdrop, ih (hr.trans hr2) hlt (by omega) fun c hc => hacc c (List.mem_cons_of_mem _ hc)]
    · rw [if_neg hlt, List.drop_eq_nil_of_le (by omega)]

def imageCalls (k : Kernel) (process : Addr) : List MapCall :=
  let p := k.procs process
  if p.filetype = processFiletypeElf then
    elfCalls (pageDirectory k process) (k.elfFiles p.elf_file) (elfPheader k.mem (k.elfFiles p.elf_file).elf_memory)
      (2 ^ 16) 0 k.mem
  else [binaryCall p]

theorem mapImage_calls (h : mapImage k process = some (k', res)) :
    k' = { k with mem := run (mapCall (pageDirectory k process)) k.mem (imageCalls k process) } := by
  unfold mapImage at h
  unfold imageCalls
  split at h
  · rename_i htype
    dsimp only
    rw [if_pos htype, ← processMapElfLoop_calls _ _ _ _ _ 0]
    cases h
    rfl
  · rename_i htype
    dsimp only
    rw [if_neg htype]
    split at h
    · rw [processMapBinary_eq] at h
      obtain ⟨rfl, -⟩ := Prod.mk.inj (Option.some.inj h)
      rfl
    · cases h

/-- The calls that map the process: the image's, and the stack's unless one of those failed. -/
def memoryCalls (k : Kernel) (process : Addr) (res : Int) : List MapCall :=
  imageCalls k process ++ if res < 0 then [] else [stackCall (k.procs process).stack]

theorem processMapMemory_calls (h : processMapMemory k process = some (k', res)) :
    k' = { k with mem := run (mapCall (pageDirectory k process)) k.mem (memoryCalls k process res) } := by
  rw [processMapMemory_eq] at h
  unfold memoryCalls
  obtain ⟨⟨k1, res1⟩, h1, h⟩ := Option.bind_eq_some_iff.mp h
  obtain rfl := mapImage_calls h1
  dsimp only at h
  split at h <;> cases h
  · rw [if_pos (by assumption), List.append_nil]
  · rw [if_neg (by assumption), run_append]
    rfl

theorem processMapMemory_only (h : processMapMemory k process = some (k', res)) :
    ∃ mem, k' = { k with mem } := ⟨_, processMapMemory_calls h⟩

/-! ## Every way out -/

/-- `process_load_for_slot` from `task_new` on. -/
def loadTask (k : Kernel) (process : Addr) (slot : Nat) : Option (Kernel × Int × Addr) := do
  let (k, task) := taskNew k process
  if ERROR_I task = 0 then return (k, ERROR_I task, 0)
  let k := k.setProc process fun p => { p with task }
  let (k, res) ← processMapMemory k process
  if res < 0 then return (loadFailed k process, res, 0)
  return ({ k with processes := Function.update k.processes slot process }, res, process)

/-- `process_load_for_slot` from the stack on. -/
def loadStack (k : Kernel) (filename : CharPtr) (process : Addr) (slot : Nat) : Option (Kernel × Int × Addr) := do
  let (k, stack) := k.onKmem (kzalloc · userProgramStackSize)
  if stack = 0 then return (loadFailed k process, -ENOMEM, 0)
  let name ← strncpy filename maxPath
  loadTask (k.setProc process fun p => { p with filename := name, stack, id := slot }) process slot

theorem processLoadForSlot_eq (k : Kernel) (filename : CharPtr) (slot : Nat) :
    processLoadForSlot k filename slot = (if processGet k slot ≠ 0 then none else do
      let (k, process) := k.onKmem (kzalloc · sizeofProcess)
      if process = 0 then return (loadFailed k process, -ENOMEM, 0)
      let (k, res) ← processLoadData (k.setProc process fun _ => zeroProcess) filename process
      if res < 0 then return (loadFailed k process, res, 0)
      loadStack k filename process slot) := by
  by_cases h : processGet k slot ≠ 0
  · rw [if_pos h]
    exact if_pos h
  · rw [if_neg h]
    exact if_neg h

def withRecord (k : Kernel) (m : Kmem) (process : Addr) : Kernel :=
  ({ k with toKmem := m } : Kernel).setProc process fun _ => zeroProcess

/-- In `k'` the load has all that `task_new` is given: a record, its data and a stack. -/
inductive Prepared (k : Kernel) (s : List Byte) (slot : Nat) : Kernel → Addr → Prop where
  | mk {m m2 : Kmem} {process stack : Addr} {k1 : Kernel} {res : Int} {name : List Byte}
      (record : kzalloc k.toKmem sizeofProcess = (m, process)) (granted : process ≠ 0)
      (data : processLoadData (withRecord k m process) (cstr s) process = some (k1, res)) (loaded : ¬ res < 0)
      (stack_eq : kzalloc k1.toKmem userProgramStackSize = (m2, stack)) (stack_granted : stack ≠ 0)
      (name_eq : strncpy (cstr s) maxPath = some name) :
      Prepared k s slot (({ k1 with toKmem := m2 } : Kernel).setProc process fun p =>
        { p with filename := name, stack, id := slot }) process

theorem Prepared.ne_zero {k1 : Kernel} {p : Addr} (h : Prepared k s slot k1 p) : p ≠ 0 := by
  obtain ⟨-, granted, -⟩ := h
  exact granted

/-- The kernel once the task is made. The status of `task_new` is not tested: no error is 0. -/
def withTask (k : Kernel) (process : Addr) : Kernel :=
  (taskNew k process).1.setProc process fun p => { p with task := (taskNew k process).2 }

/-- The ways out of `process_load_for_slot`, by the step that failed. -/
inductive LoadWay (k : Kernel) (s : List Byte) (slot : Nat) : Kernel → Int → Addr → Prop where
  | noRecord {m : Kmem} (refused : kzalloc k.toKmem sizeofProcess = (m, 0)) :
      LoadWay k s slot { k with toKmem := m } (-ENOMEM) 0
  | noData {m : Kmem} {process : Addr} {k1 : Kernel} {res : Int}
      (record : kzalloc k.toKmem sizeofProcess = (m, process)) (granted : process ≠ 0)
      (data : processLoadData (withRecord k m process) (cstr s) process = some (k1, res)) (failed : res < 0) :
      LoadWay k s slot k1 res 0
  | noStack {m m2 : Kmem} {process : Addr} {k1 : Kernel} {res : Int}
      (record : kzalloc k.toKmem sizeofProcess = (m, process)) (granted : process ≠ 0)
      (data : processLoadData (withRecord k m process) (cstr s) process = some (k1, res)) (loaded : ¬ res < 0)
      (refused : kzalloc k1.toKmem userProgramStackSize = (m2, 0)) :
      LoadWay k s slot { k1 with toKmem := m2 } (-ENOMEM) 0
  | noMap {process : Addr} {k1 k2 : Kernel} {res : Int} (prepared : Prepared k s slot k1 process)
      (map : processMapMemory (withTask k1 process) process = some (k2, res)) (failed : res < 0) :
      LoadWay k s slot (taskFree k2 (taskNew k1 process).2) res 0
  | loaded {process : Addr} {k1 k2 : Kernel} {res : Int} (prepared : Prepared k s slot k1 process)
      (map : processMapMemory (withTask k1 process) process = some (k2, res)) (mapped : ¬ res < 0) :
      LoadWay k s slot { k2 with processes := Function.update k2.processes slot process } res process

theorem loadFailed_zero (k : Kernel) : loadFailed k 0 = k := if_neg fun h => h.1 rfl

theorem loadFailed_noTask (h : (k.procs process).task = 0) : loadFailed k process = k :=
  if_neg fun hp => hp.2 h

theorem task_processLoadData (hs : NoNul s) (h : processLoadData k (cstr s) process = some (k', res)) :
    (k'.procs process).task = (k.procs process).task := by
  obtain ⟨k1, _, _, _, hk, rfl, -⟩ := processLoadData_record hs h
  rw [Kernel.setProc_self, hk.procs]

theorem task_withTask (k : Kernel) (process : Addr) :
    ((withTask k process).procs process).task = (taskNew k process).2 := by
  unfold withTask
  rw [Kernel.setProc_self]

theorem loadFailed_withTask {mem : Mem} (h : process ≠ 0) : loadFailed { withTask k process with mem } process =
    taskFree { withTask k process with mem } (taskNew k process).2 := by
  have htask := task_withTask k process
  have hne := taskNew_ne_zero k process
  generalize withTask k process = k1 at htask
  unfold loadFailed
  dsimp only
  rw [htask, if_pos ⟨h, hne⟩]

theorem loadTask_way {k1 : Kernel} {p : Addr} (hprep : Prepared k s slot k1 p) (hp : p ≠ 0)
    (h : loadTask k1 p slot = some (k', res, process)) : LoadWay k s slot k' res process := by
  unfold loadTask at h
  obtain ⟨⟨k2, task⟩, h1⟩ : ∃ r, taskNew k1 p = r := ⟨_, rfl⟩
  have htask := taskNew_ne_zero k1 p
  have hwith : withTask k1 p = k2.setProc p fun q => { q with task } := by
    unfold withTask
    rw [h1]
  rw [h1] at h htask
  dsimp only at h htask
  rw [if_neg (error_i_ne_zero htask), ← hwith] at h
  obtain ⟨⟨k3, res3⟩, h3, h⟩ := Option.bind_eq_some_iff.mp h
  dsimp only at h
  split at h
  · obtain ⟨mem, rfl⟩ := processMapMemory_only h3
    rw [loadFailed_withTask hp, Option.pure_def, Option.some.injEq, Prod.mk.injEq, Prod.mk.injEq] at h
    obtain ⟨rfl, rfl, rfl⟩ := h
    exact .noMap hprep h3 (by assumption)
  · rw [Option.pure_def, Option.some.injEq, Prod.mk.injEq, Prod.mk.injEq] at h
    obtain ⟨rfl, rfl, rfl⟩ := h
    exact .loaded hprep h3 (by assumption)

theorem processLoadForSlot_way (hs : NoNul s) (h : processLoadForSlot k (cstr s) slot = some (k', res, process)) :
    LoadWay k s slot k' res process := by
  rw [processLoadForSlot_eq] at h
  split at h
  · cases h
  obtain ⟨⟨m, p⟩, h1⟩ : ∃ r, kzalloc k.toKmem sizeofProcess = r := ⟨_, rfl⟩
  rw [Kernel.onKmem_eq h1] at h
  dsimp only at h
  split at h
  · rename_i hp
    subst hp
    rw [loadFailed_zero] at h
    cases h
    exact .noRecord h1
  rename_i hp
  obtain ⟨⟨k1, res1⟩, h2, h⟩ := Option.bind_eq_some_iff.mp h
  have htask : (k1.procs p).task = 0 := by
    rw [task_processLoadData hs h2, Kernel.setProc_self]
    rfl
  dsimp only at h
  split at h
  · rw [loadFailed_noTask htask] at h
    cases h
    exact .noData h1 hp h2 (by assumption)
  rename_i hres1
  unfold loadStack at h
  obtain ⟨⟨m2, stack⟩, h3⟩ : ∃ r, kzalloc k1.toKmem userProgramStackSize = r := ⟨_, rfl⟩
  rw [Kernel.onKmem_eq h3] at h
  dsimp only at h
  split at h
  · rename_i hstack
    subst hstack
    have hnone : loadFailed { k1 with toKmem := m2 } p = { k1 with toKmem := m2 } := loadFailed_noTask htask
    rw [hnone] at h
    cases h
    exact .noStack h1 hp h2 hres1 h3
  rename_i hstack
  obtain ⟨name, h4, h⟩ := Option.bind_eq_some_iff.mp h
  exact loadTask_way (.mk h1 hp h2 hres1 h3 hstack h4) hp h

/-! ## Each way is taken -/

theorem processLoadForSlot_data {m : Kmem} {p : Addr} {k1 : Kernel} (hget : processGet k slot = 0)
    (record : kzalloc k.toKmem sizeofProcess = (m, p)) (granted : p ≠ 0)
    (data : processLoadData (withRecord k m p) (cstr s) p = some (k1, res)) :
    processLoadForSlot k (cstr s) slot =
      if res < 0 then some (loadFailed k1 p, res, 0) else loadStack k1 (cstr s) p slot := by
  have hrecord : ({ k with toKmem := m } : Kernel).setProc p (fun _ => zeroProcess) = withRecord k m p := rfl
  rw [processLoadForSlot_eq, if_neg (not_not.mpr hget), Kernel.onKmem_eq record]
  dsimp only
  rw [if_neg granted, hrecord, data]
  rfl

theorem processLoadForSlot_prepared {k1 : Kernel} {p : Addr} (hget : processGet k slot = 0)
    (h : Prepared k s slot k1 p) : processLoadForSlot k (cstr s) slot = loadTask k1 p slot := by
  obtain ⟨record, granted, data, loaded, stack_eq, stack_granted, name_eq⟩ := h
  rw [processLoadForSlot_data hget record granted data, if_neg loaded, loadStack, Kernel.onKmem_eq stack_eq]
  dsimp only
  rw [if_neg stack_granted, name_eq]
  rfl

theorem loadTask_eq {k1 k2 : Kernel} {p : Addr} (hp : p ≠ 0)
    (map : processMapMemory (withTask k1 p) p = some (k2, res)) : loadTask k1 p slot =
      if res < 0 then some (taskFree k2 (taskNew k1 p).2, res, 0)
      else some ({ k2 with processes := Function.update k2.processes slot p }, res, p) := by
  have hne := taskNew_ne_zero k1 p
  have hfailed : loadFailed k2 p = taskFree k2 (taskNew k1 p).2 := by
    obtain ⟨mem, rfl⟩ := processMapMemory_only map
    exact loadFailed_withTask hp
  obtain ⟨⟨k4, task⟩, htask⟩ : ∃ r, taskNew k1 p = r := ⟨_, rfl⟩
  have hwith : withTask k1 p = k4.setProc p fun q => { q with task } := by
    unfold withTask
    rw [htask]
  rw [htask] at hne hfailed
  unfold loadTask
  rw [htask]
  dsimp only
  rw [if_neg (error_i_ne_zero hne), ← hwith, map, ← hfailed]
  rfl

theorem processLoadForSlot_of_way (hs : NoNul s) (hget : processGet k slot = 0)
    (h : LoadWay k s slot k' res process) : processLoadForSlot k (cstr s) slot = some (k', res, process) := by
  have htask : ∀ {m : Kmem} {p : Addr} {k1 : Kernel} {res : Int},
      processLoadData (withRecord k m p) (cstr s) p = some (k1, res) → (k1.procs p).task = 0 := by
    intro m p k1 res data
    rw [task_processLoadData hs data, withRecord, Kernel.setProc_self]
    rfl
  cases h with
  | noRecord refused =>
    rw [processLoadForSlot_eq, if_neg (not_not.mpr hget), Kernel.onKmem_eq refused]
    dsimp only
    rw [if_pos rfl, loadFailed_zero]
    rfl
  | noData record granted data failed =>
    rw [processLoadForSlot_data hget record granted data, if_pos failed, loadFailed_noTask (htask data)]
  | noStack record granted data loaded refused =>
    rename_i m m2 p k1 res
    have htask1 := htask data
    have hnone : loadFailed { k1 with toKmem := m2 } p = { k1 with toKmem := m2 } := loadFailed_noTask htask1
    rw [processLoadForSlot_data hget record granted data, if_neg loaded, loadStack, Kernel.onKmem_eq refused]
    dsimp only
    rw [if_pos rfl, hnone]
    rfl
  | noMap prepared map failed =>
    rw [processLoadForSlot_prepared hget prepared, loadTask_eq prepared.ne_zero map, if_pos failed]
  | loaded prepared map mapped =>
    rw [processLoadForSlot_prepared hget prepared, loadTask_eq prepared.ne_zero map, if_neg mapped]

end MultitaskOs.LoadSteps
