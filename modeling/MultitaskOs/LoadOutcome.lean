import MultitaskOs.FileType
import MultitaskOs.LoadSteps
import MultitaskOs.TaskList

/-!
# What a load answers for its steps

`process_load_for_slot` asks whether the answer of `task_new` is 0, which no
error is. So a load goes on with an error for a task.
-/

open Lib Lib.Memory Lib.Arena Lib.Run MultitaskOs.PathParser MultitaskOs.Paging MultitaskOs.Tasks MultitaskOs.TaskList
  MultitaskOs.ProcessMemory MultitaskOs.Loading MultitaskOs.ElfMap MultitaskOs.MapMemory MultitaskOs.LoadSteps
  MultitaskOs.OpenClose MultitaskOs.FatRead MultitaskOs.FatLookup MultitaskOs.Descriptors MultitaskOs.FileType

namespace MultitaskOs.LoadOutcome

variable {k k' k1 k2 : Kernel} {s : List Byte} {slot : Nat} {res : Int} {process p q : Addr}

/-! ## Errors of `task_new` -/

def TaskError (k : Kernel) (process : Addr) : Prop :=
  (taskNew k process).2 = ERROR (-ENOMEM) ∨ (taskNew k process).2 = ERROR (- EIO)

def TaskGranted (k : Kernel) (process : Addr) : Prop := (taskNew k process).1.heap.failures = k.heap.failures

theorem pagingMapTo_neg (m : Mem) (chunk : Addr) (c : MapCall) :
    (pagingMapTo m chunk c.virt c.phys c.phys_end c.flags).2 < 0 ↔ c.Rejected := by
  rw [pagingMapTo_status]
  split
  · exact iff_of_true (by decide) (by assumption)
  · exact iff_of_false (lt_irrefl _) (by assumption)

theorem processMapElfLoop_status (directory : Addr) (file : ElfFile) (phdrs : Addr) (n i : Nat) {res : Int} (m : Mem)
    (hres : ¬ res < 0) : (processMapElfLoop directory file phdrs n i res m).2 < 0 ↔
      ∃ c ∈ elfCalls directory file phdrs n i m, c.Rejected := by
  induction n generalizing i res m with
  | zero => simpa [processMapElfLoop, elfCalls] using hres
  | succ n ih =>
    unfold processMapElfLoop elfCalls
    split
    · have hneg := pagingMapTo_neg m directory
        (ElfMap.headerCall m file.elf_memory (phdrs + BitVec.ofNat 32 (sizeofElf32Phdr * i)))
      dsimp only [ElfMap.headerCall, elfPhdrPhysAddress] at hneg ⊢
      split
      · rename_i hrej
        simpa [hrej] using hneg.mp hrej
      · rename_i hrej
        simp only [List.mem_cons, exists_eq_or_imp, ih _ _ hrej]
        exact (or_iff_right (hneg.not.mp hrej)).symm
    · simpa using hres

theorem processMapMemory_status (htype : (k.procs p).filetype = processFiletypeElf)
    (h : processMapMemory k p = some (k', res)) : res < 0 ↔ ∃ c ∈ imageCalls k p, c.Rejected := by
  have hcalls : imageCalls k p = elfCalls (pageDirectory k p) (k.elfFiles (k.procs p).elf_file)
      (elfPheader k.mem (k.elfFiles (k.procs p).elf_file).elf_memory) (2 ^ 16) 0 k.mem := if_pos htype
  rw [hcalls, ← processMapElfLoop_status _ _ _ _ _ _ (lt_irrefl 0)]
  have hmap : mapImage k p = some (processMapElf k p) := if_pos htype
  rw [processMapMemory_eq, hmap, Option.bind_some] at h
  split at h <;> cases h <;> rfl

/-! ## Up to `task_new` -/

/-- What a load leaves alone before it makes a task. -/
structure LoadFrame (process : Addr) (k k' : Kernel) : Prop where
  tasks : k'.tasks = k.tasks
  task_head : k'.task_head = k.task_head
  task_tail : k'.task_tail = k.task_tail
  current_task : k'.current_task = k.current_task
  current_process : k'.current_process = k.current_process
  processes : k'.processes = k.processes
  procs : ∀ q, q ≠ process → k'.procs q = k.procs q
  elfFiles : ∀ f, k.heap.Live f → k'.elfFiles f = k.elfFiles f
  live : ∀ b ∈ k.heap.live, b ∈ k'.heap.live
  count : Counts k k'
  bytes : k'.heap.failures = k.heap.failures → ∀ b ∈ k.heap.live, Agree k.mem k'.mem b.base (extent blockSize b.size)

theorem loadFrame_refl (p : Addr) (k : Kernel) : LoadFrame p k k :=
  ⟨rfl, rfl, rfl, rfl, rfl, rfl, fun _ _ => rfl, fun _ _ => rfl, fun _ hb => hb, le_rfl, fun _ _ _ => Agree.refl _ _ _⟩

theorem LoadFrame.trans (h : LoadFrame p k k1) (h' : LoadFrame p k1 k2) : LoadFrame p k k2 where
  tasks := h'.tasks.trans h.tasks
  task_head := h'.task_head.trans h.task_head
  task_tail := h'.task_tail.trans h.task_tail
  current_task := h'.current_task.trans h.current_task
  current_process := h'.current_process.trans h.current_process
  processes := h'.processes.trans h.processes
  procs q hq := (h'.procs q hq).trans (h.procs q hq)
  elfFiles f hf := (h'.elfFiles f ⟨_, h.live _ hf.choose_spec⟩).trans (h.elfFiles f hf)
  live b hb := h'.live b (h.live b hb)
  count := h.count.trans h'.count
  bytes hok b hb := by
    have h1 : k.heap.failures ≤ k1.heap.failures := h.count
    have h2 : k1.heap.failures ≤ k2.heap.failures := h'.count
    exact (h.bytes (by omega) b hb).trans (h'.bytes (by omega) b (h.live b hb))

theorem loadFrame_setProc (k : Kernel) (p : Addr) (f : Process → Process) : LoadFrame p k (k.setProc p f) :=
  ⟨rfl, rfl, rfl, rfl, rfl, rfl, fun _ hq => Function.update_of_ne hq _ _, fun _ _ => rfl, fun _ hb => hb, le_rfl,
    fun _ _ _ => Agree.refl _ _ _⟩

theorem loadFrame_alloc {m : Kmem} {a : Addr} {size : Nat} (p : Addr) (h : kzalloc k.toKmem size = (m, a)) :
    LoadFrame p k { k with toKmem := m } := by
  have hkeeps := kzalloc_keeps k.toKmem size
  have hcount := kzalloc_failures_le k.toKmem size
  rw [h] at hkeeps hcount
  exact ⟨rfl, rfl, rfl, rfl, rfl, rfl, fun _ _ => rfl, fun _ _ => rfl, hkeeps.live, hcount, fun _ => hkeeps.bytes⟩

theorem processLoadData_frame (hs : NoNul s) (h : processLoadData k (cstr s) p = some (k', res)) :
    LoadFrame p k k' ∧ ((k.procs p).filetype = processFiletypeElf → (k'.procs p).filetype = processFiletypeElf) := by
  have helf := fun f (hf : k.heap.Live f) => elfFiles_processLoadData hs h hf
  obtain ⟨k1, _, _, _, hk, rfl, htype⟩ := processLoadData_record hs h
  refine ⟨?_, fun he => by rw [Kernel.setProc_self]; exact htype he⟩
  have hlive := hk.live
  have hcount := hk.count
  have hbytes := hk.bytes
  obtain ⟨_, _, _, _, _, _, _, _, _, _, rfl, -⟩ := hk.only
  exact ⟨rfl, rfl, rfl, rfl, rfl, rfl, fun _ hq => Function.update_of_ne hq _ _, helf, hlive, hcount, hbytes⟩

theorem loadFrame_withRecord {m : Kmem} (h : kzalloc k.toKmem sizeofProcess = (m, p)) :
    LoadFrame p k (withRecord k m p) := (loadFrame_alloc p h).trans (loadFrame_setProc _ _ _)

/-- The record of a process that a load has prepared. -/
structure NewProcess (k k1 : Kernel) (p : Addr) : Prop where
  frame : LoadFrame p k k1
  fresh : ¬ k.heap.Live p
  live : k1.heap.Live p
  filetype : (k1.procs p).filetype = processFiletypeElf
  data : (k1.procs p).ptr = 0 ∨ k1.heap.Live (k1.procs p).ptr
  stack : (⟨(k1.procs p).stack, userProgramStackSize⟩ : Block) ∈ k1.heap.live

theorem data_live (hs : NoNul s) (h : processLoadData k (cstr s) p = some (k', res)) (hres : ¬ res < 0) :
    (k'.procs p).ptr = 0 ∨ k'.heap.Live (k'.procs p).ptr := by
  have hway := processLoadData_way hs h
  cases hway with
  | failed keeps others neg => exact absurd neg hres
  | @elf k1 load =>
    rw [Kernel.setProc_self]
    exact (eq_or_ne (elfRecord k).2 0).imp_right fun h0 => (elfLoad_cases hs load).1.isLive (elfRecord_fresh h0).isLive
  | raw refused read =>
    rw [Kernel.setProc_self]
    exact Or.inr ⟨_, read.live⟩

theorem prepared_newProcess (hs : NoNul s) (h : Prepared k s slot k1 p) : NewProcess k k1 p := by
  obtain ⟨record, granted, data, loaded, stack, stack_granted, -⟩ := h
  have hf := fresh_of_eq record granted
  obtain ⟨hdata, htype⟩ := processLoadData_frame hs data
  have hstack := loadFrame_alloc p stack
  refine ⟨((loadFrame_withRecord record).trans hdata).trans (hstack.trans (loadFrame_setProc _ _ _)), hf.not_live,
    ⟨_, hstack.live _ (hdata.live _ hf.mem_live)⟩, ?_, ?_, ?_⟩
  all_goals rw [Kernel.setProc_self]
  · exact htype (by rw [withRecord, Kernel.setProc_self]; rfl)
  · exact (data_live hs data loaded).imp_right fun hl => ⟨_, hstack.live _ hl.choose_spec⟩
  · exact (fresh_of_eq stack stack_granted).mem_live

theorem prepared_unique (h : Prepared k s slot k1 p) (h' : Prepared k s slot k2 q) : k1 = k2 ∧ p = q := by
  obtain ⟨record, -, data, -, stack, -, name⟩ := h
  obtain ⟨record', -, data', -, stack', -, name'⟩ := h'
  cases record.symm.trans record'
  cases data.symm.trans data'
  cases stack.symm.trans stack'
  cases name.symm.trans name'
  exact ⟨rfl, rfl⟩

/-- How a load ends that has prepared `p` in `k1`. -/
inductive Finish (slot : Nat) (k1 : Kernel) (p : Addr) : Kernel → Int → Addr → Prop where
  | unmapped {k2 : Kernel} {res : Int} (map : processMapMemory (withTask k1 p) p = some (k2, res)) (failed : res < 0) :
      Finish slot k1 p (taskFree k2 (taskNew k1 p).2) res 0
  | loaded {k2 : Kernel} {res : Int} (map : processMapMemory (withTask k1 p) p = some (k2, res))
      (mapped : ¬ res < 0) : Finish slot k1 p { k2 with processes := Function.update k2.processes slot p } res p

theorem loadWay_finish (h : LoadWay k s slot k' res process) :
    (res < 0 ∧ ∀ k1 p, ¬ Prepared k s slot k1 p) ∨
      ∃ k1 p, Prepared k s slot k1 p ∧ Finish slot k1 p k' res process := by
  cases h with
  | noRecord refused =>
    refine Or.inl ⟨by decide, fun k1 p hp => ?_⟩
    obtain ⟨record, granted, -⟩ := hp
    cases refused.symm.trans record
    exact granted rfl
  | noData record granted data failed =>
    refine Or.inl ⟨failed, fun k1 p hp => ?_⟩
    obtain ⟨record', -, data', loaded, -⟩ := hp
    cases record.symm.trans record'
    cases data.symm.trans data'
    exact loaded failed
  | noStack record granted data loaded refused =>
    refine Or.inl ⟨by decide, fun k1 p hp => ?_⟩
    obtain ⟨record', -, data', -, stack, stack_granted, -⟩ := hp
    cases record.symm.trans record'
    cases data.symm.trans data'
    cases refused.symm.trans stack
    exact stack_granted rfl
  | noMap prepared map failed => exact Or.inr ⟨_, _, prepared, .unmapped map failed⟩
  | loaded prepared map mapped => exact Or.inr ⟨_, _, prepared, .loaded map mapped⟩

/-! ## From `task_new` on -/

theorem procs_withTask_self (k : Kernel) (p : Addr) :
    (withTask k p).procs p = { k.procs p with task := (taskNew k p).2 } := by
  obtain ⟨_, _, _, _, _, h⟩ := onlyTasks_taskNew k p
  unfold withTask
  rw [Kernel.setProc_self, h]

theorem elfFiles_withTask (k : Kernel) (p : Addr) : (withTask k p).elfFiles = k.elfFiles := by
  obtain ⟨_, _, _, _, _, h⟩ := onlyTasks_taskNew k p
  unfold withTask
  rw [h]
  rfl

/-- The calls that map a process whose image's calls are all accepted. -/
def loadCalls (k1 : Kernel) (p : Addr) : List MapCall :=
  imageCalls (withTask k1 p) p ++ [stackCall (k1.procs p).stack]

theorem Finish.status (h : Finish slot k1 p k' res process) (htype : (k1.procs p).filetype = processFiletypeElf) :
    res < 0 ↔ ∃ c ∈ imageCalls (withTask k1 p) p, c.Rejected := by
  have htype' : ((withTask k1 p).procs p).filetype = processFiletypeElf := by
    rw [procs_withTask_self]
    exact htype
  cases h with
  | unmapped map failed => exact processMapMemory_status htype' map
  | loaded map mapped => exact processMapMemory_status htype' map

theorem Finish.task (h : Finish slot k1 p k' res process) : (k'.procs p).task = (taskNew k1 p).2 := by
  cases h with
  | unmapped map failed =>
    obtain ⟨mem, rfl⟩ := processMapMemory_only map
    obtain ⟨_, _, _, _, _, h⟩ := onlyTasks_taskFree { withTask k1 p with mem } (taskNew k1 p).2
    rw [h]
    exact task_withTask k1 p
  | loaded map mapped =>
    obtain ⟨mem, rfl⟩ := processMapMemory_only map
    exact task_withTask _ _

theorem TaskGranted.withTask_eq (h : TaskGranted k1 p) : ∃ m t r d, NewTask k1 m t r d ∧
    taskNew k1 p = (taskLink { k1 with toKmem := m, tasks := Function.update k1.tasks t r } t, t) ∧
    (withTask k1 p).toKmem = m ∧ pageDirectory (withTask k1 p) p = d.chunk := by
  obtain ⟨m, t, r, d, hn, heq⟩ := taskNew_ok p h
  refine ⟨m, t, r, d, hn, heq, ?_, ?_⟩
  · unfold withTask
    rw [heq]
    exact taskLink_toKmem _ t
  · rw [pageDirectory, task_withTask, heq]
    show ((taskNew k1 p).1.tasks t).page_directory = d.chunk
    rw [heq, taskLink_page_directory]
    dsimp only
    rw [Function.update_self, hn.page_directory]

/-! ## What an image is to have -/

/-- `elf_load` refuses the file for its content, so it is loaded as it is. -/
def LoadedRaw (k : Kernel) (s : List Byte) : Prop :=
  (elfLoad (withRecord k (kzalloc k.toKmem sizeofProcess).1 (kzalloc k.toKmem sizeofProcess).2) (cstr s)).map (·.2.1) =
    some (-EINFORMAT)

instance (k : Kernel) (s : List Byte) : Decidable (LoadedRaw k s) :=
  inferInstanceAs (Decidable (_ = some (-EINFORMAT)))

def imageOf (k : Kernel) (p : Addr) : Addr := (k.elfFiles (k.procs p).elf_file).elf_memory

/-- The mappings that a loaded process is for, whatever calls are made: a raw image at `0x400000`, or what
each program header of the image names, and the stack. -/
def demandedCalls (k : Kernel) (s : List Byte) (k1 : Kernel) (p : Addr) : List MapCall :=
  (if LoadedRaw k s then [binaryCall (k1.procs p)]
    else headerCalls k1.mem (imageOf k1 p) (ePhnum k1.mem (imageOf k1 p)).toNat) ++ [stackCall (k1.procs p).stack]

/-- Every step from `task_new` on succeeded, and has left what it is for. -/
structure Complete (k : Kernel) (s : List Byte) (k1 k' : Kernel) (p : Addr) : Prop where
  granted : TaskGranted k1 p
  accepted : ∀ c ∈ loadCalls k1 p ++ demandedCalls k s k1 p, ¬ c.Rejected
  live : k'.heap.Live (k'.procs p).task
  process : (k'.tasks (k'.procs p).task).process = p
  listed : ∀ L, Linked k L → (∀ t ∈ L, k.heap.Live t) → Linked k' (L ++ [(k'.procs p).task])
  directory : ∃ d : PageDir, pageDirectory k' p = d.chunk ∧ d.In k'.toKmem
  mapped : ∀ v < 2 ^ 20, pageEntry k' p v = finalEntry 5 (demandedCalls k s k1 p) v

theorem LoadFrame.linked {L : List Addr} (h : LoadFrame p k k1) (hL : Linked k L) : Linked k1 L :=
  hL.congr h.tasks h.task_head h.task_tail h.current_task

theorem memoryCalls_loaded (hmapped : ¬ res < 0) : memoryCalls (withTask k1 p) p res = loadCalls k1 p := by
  unfold memoryCalls loadCalls
  rw [if_neg hmapped, procs_withTask_self]

theorem NewProcess.stack_rejected_iff (h : NewProcess k k1 p) :
    (stackCall (k1.procs p).stack).Rejected ↔ (k1.procs p).stack.toNat + userProgramStackSize = 2 ^ 32 := by
  obtain ⟨-, ha, hend⟩ := k1.heap.placed _ h.stack
  have hle := size_le_extent (g := blockSize) userProgramStackSize
  dsimp only at hend
  exact stackCall_rejected_iff ha (by omega)

/-- The calls that are made leave the process the mappings it is for. -/
structure Maps (k : Kernel) (s : List Byte) (k1 : Kernel) (p : Addr) : Prop where
  accepted : ∀ c ∈ demandedCalls k s k1 p, ¬ c.Rejected
  entry : ∀ v < 2 ^ 20, finalEntry 5 (loadCalls k1 p) v = finalEntry 5 (demandedCalls k s k1 p) v

theorem Finish.accepted (hnew : NewProcess k k1 p) (h : Finish slot k1 p k' res process) (hres : ¬ res < 0)
    (hstack : (k1.procs p).stack.toNat + userProgramStackSize ≠ 2 ^ 32) : ∀ c ∈ loadCalls k1 p, ¬ c.Rejected := by
  intro c hc
  rcases List.mem_append.mp hc with hc | hc
  · exact fun hrej => hres ((h.status hnew.filetype).mpr ⟨c, hc, hrej⟩)
  · rw [List.mem_singleton.mp hc]
    exact hnew.stack_rejected_iff.not.mpr hstack

theorem Finish.directory (h : Finish slot k1 p k' res process) (hres : ¬ res < 0) (hok : TaskGranted k1 p) :
    (∃ d : PageDir, pageDirectory k' p = d.chunk ∧ d.In k'.toKmem) ∧
      ∀ v < 2 ^ 20, pageEntry k' p v = finalEntry 5 (loadCalls k1 p) v := by
  obtain ⟨m, t, r, d, hn, -, hmem, hdir⟩ := hok.withTask_eq
  cases h with
  | unmapped map failed => exact absurd failed hres
  | loaded map mapped =>
    have heq2 := processMapMemory_calls map
    rw [memoryCalls_loaded mapped, hdir, hmem] at heq2
    have hr := run_mapCall_spec hn.new.inMem.holds (loadCalls k1 process)
    have hheap : (withTask k1 process).heap = m.heap := congrArg Kmem.heap hmem
    subst heq2
    have hdir' : pageDirectory { withTask k1 process with
        mem := run (mapCall d.chunk) m.mem (loadCalls k1 process) } process = d.chunk := hdir
    refine ⟨⟨d, hdir, hr.holds, fun b hb => hheap ▸ hn.new.inMem.live b hb⟩, fun v hv => ?_⟩
    show pageEntry { withTask k1 process with
      mem := run (mapCall d.chunk) m.mem (loadCalls k1 process) } process v = _
    rw [pageEntry_eq hdir' hr.holds hv, hr.entry v hv, hn.new.entry v hv]
    rfl

theorem imageCalls_headers {kt : Kernel} {m0 : Kmem} {d : PageDir} {elf : Addr} {filesize : Nat}
    (htype : (kt.procs p).filetype = processFiletypeElf) (hdir : pageDirectory kt p = d.chunk)
    (hmade : New m0 kt.toKmem d 5) (helf : imageOf kt p = elf) (himage : (⟨elf, filesize⟩ : Block) ∈ m0.heap.live)
    (h0 : ePhoff m0.mem elf ≠ 0)
    (htable : (ePhoff m0.mem elf).toNat + sizeofElf32Phdr * (ePhnum m0.mem elf).toNat ≤ extent blockSize filesize)
    (haccepted : ∀ c ∈ imageCalls kt p, ¬ c.Rejected) :
    imageCalls kt p = headerCalls m0.mem elf (ePhnum m0.mem elf).toNat := by
  have hagree := hmade.keeps.bytes _ himage
  have hnum : ePhnum kt.mem elf = ePhnum m0.mem elf := ePhnum_image hagree
  have hoff : ePhoff kt.mem elf = ePhoff m0.mem elf := ePhoff_image hagree
  have hcalls : imageCalls kt p = elfCalls d.chunk (kt.elfFiles (kt.procs p).elf_file) (elfPheader kt.mem elf)
      (2 ^ 16) 0 kt.mem := by
    rw [imageCalls, if_pos htype, hdir, ← helf, imageOf]
  rw [hcalls] at haccepted ⊢
  have hlt := (ePhnum kt.mem elf).isLt
  rw [elfCalls_eq helf ?_ ?_ (Remap.refl hmade.inMem.holds) (Nat.zero_le _) (by omega) haccepted, List.drop_zero]
  · exact headerCalls_image hagree (m0.heap.placed _ himage) h0 htable
  · exact filesize
  · exact tables_apart_image hmade.inMem (hmade.keeps.live _ himage) fun hmem => hmade.fresh _ hmem ⟨_, himage⟩
  · intro t ht i hi
    exact headers_inside hmade.keeps himage (hoff ▸ h0) (by rw [hoff, hnum]; exact htable)
      (hmade.inMem.live _ (d.table_mem ht)) (hmade.fresh _ (d.table_mem ht)) hi

theorem maps_of_headers {filesize : Nat} (hnew : NewProcess k k1 p) (hok : TaskGranted k1 p) (helf : ¬ LoadedRaw k s)
    (himage : (⟨imageOf k1 p, filesize⟩ : Block) ∈ k1.heap.live) (h0 : ePhoff k1.mem (imageOf k1 p) ≠ 0)
    (htable : (ePhoff k1.mem (imageOf k1 p)).toNat + sizeofElf32Phdr * (ePhnum k1.mem (imageOf k1 p)).toNat ≤
      extent blockSize filesize)
    (haccepted : ∀ c ∈ loadCalls k1 p, ¬ c.Rejected) : Maps k s k1 p := by
  suffices hcalls : loadCalls k1 p = demandedCalls k s k1 p from ⟨hcalls ▸ haccepted, fun _ _ => by rw [hcalls]⟩
  obtain ⟨m, t, r, d, hn, -, hmem, hdir⟩ := hok.withTask_eq
  have hrecord := procs_withTask_self k1 p
  have hfiles := elfFiles_withTask k1 p
  unfold loadCalls at haccepted ⊢
  generalize withTask k1 p = kt at *
  have himage' : imageOf kt p = imageOf k1 p := by
    rw [imageOf, imageOf, hfiles, hrecord]
    rfl
  rw [demandedCalls, if_neg helf, imageCalls_headers (by rw [hrecord]; exact hnew.filetype) hdir (hmem ▸ hn.new)
    himage' himage h0 htable fun c hc => haccepted c (List.mem_append_left _ hc)]

/-! ## The status of a load -/

/-- A status that is not negative is that of a load all of whose steps succeeded. With an error of
`task_new` the status is negative, and the error has not become the process's task. -/
structure Sound (k : Kernel) (s : List Byte) (slot : Nat) (k' : Kernel) (res : Int) (process : Addr) : Prop where
  success : 0 ≤ res → ∃ k1, Prepared k s slot k1 process ∧ Complete k s k1 k' process
  error : ∀ k1 p, Prepared k s slot k1 p → TaskError k1 p → res < 0 ∧ (k'.procs p).task ≠ (taskNew k1 p).2

theorem freeProcess_some (h : freeProcess k = some slot) : slot < maxProcesses ∧ k.processes slot = 0 :=
  ⟨List.mem_range.mp (List.mem_of_find?_eq_some h), by simpa using List.find?_some h⟩

theorem processGet_freeProcess (h : freeProcess k = some slot) : processGet k slot = 0 := by
  unfold processGet
  split
  · rfl
  · exact (freeProcess_some h).2

theorem processLoad_of_way (hs : NoNul s) (hslot : freeProcess k = some slot) (h : LoadWay k s slot k' res process) :
    processLoad k (cstr s) = some (k', res, process) := by
  unfold processLoad processGetFreeSlot
  rw [hslot]
  dsimp only
  rw [if_neg (by omega), Int.toNat_natCast]
  exact processLoadForSlot_of_way hs (processGet_freeProcess hslot) h

/-- From `kd`, where the data is loaded, to `k1`: the same memory with a stack. -/
structure Stacked (kd k1 : Kernel) (p stack : Addr) : Prop where
  fresh : Fresh kd.toKmem k1.toKmem stack userProgramStackSize
  count : Counts kd k1
  elfFiles : k1.elfFiles = kd.elfFiles
  disk : SameDisk kd k1
  table : k1.file_descriptors = kd.file_descriptors
  record : ∃ filename id, k1.procs p = { kd.procs p with filename, stack, id }

theorem prepared_stacked (h : Prepared k s slot k1 p) : ∃ m kd stack res, kzalloc k.toKmem sizeofProcess = (m, p) ∧
    p ≠ 0 ∧ processLoadData (withRecord k m p) (cstr s) p = some (kd, res) ∧ ¬ res < 0 ∧ Stacked kd k1 p stack := by
  obtain ⟨record, granted, data, loaded, stack_eq, stack_granted, -⟩ := h
  rename_i m m2 stack kd res name
  have hcount := kzalloc_failures_le kd.toKmem userProgramStackSize
  rw [stack_eq] at hcount
  exact ⟨m, kd, stack, res, record, granted, data, loaded, fresh_of_eq stack_eq stack_granted, hcount, rfl,
    ⟨rfl, rfl, rfl⟩, rfl, _, _, Kernel.setProc_self _ _ _⟩

/-- There is room for `n` requests more. -/
structure StackMade (kd k1 : Kernel) (p stack : Addr) (n : Nat) : Prop extends Stacked kd k1 p stack where
  failures : k1.heap.failures = kd.heap.failures
  spare : Spare k1.toKmem n

theorem prepared_of_loaded {m : Kmem} {kd : Kernel} {name : List Byte} {n : Nat}
    (hrecord : kzalloc k.toKmem sizeofProcess = (m, p)) (h0 : p ≠ 0)
    (hdata : processLoadData (withRecord k m p) (cstr s) p = some (kd, res)) (hres : ¬ res < 0)
    (hname : strncpy (cstr s) maxPath = some name) (hspare : Spare kd.toKmem (n + 1)) (slot : Nat) :
    ∃ k1 stack, Prepared k s slot k1 p ∧ StackMade kd k1 p stack n := by
  obtain ⟨⟨m2, stack⟩, hstack⟩ : ∃ r, kzalloc kd.toKmem userProgramStackSize = r := ⟨_, rfl⟩
  obtain ⟨hspare2, hfailures⟩ := hspare.kzalloc userProgramStackSize (by decide)
  have hf := kzalloc_ok _ hfailures
  rw [hstack] at hf hspare2 hfailures
  exact ⟨_, stack, .mk hrecord h0 hdata hres hstack hf.ne_zero hname,
    ⟨hf, hfailures.ge, rfl, ⟨rfl, rfl, rfl⟩, rfl, name, slot, Kernel.setProc_self _ _ _⟩, hfailures, hspare2⟩

theorem StackMade.stackAt {kd : Kernel} {stack : Addr} {n : Nat} (h : StackMade kd k1 p stack (n + 1)) :
    (k1.procs p).stack = stack ∧ StackAt stack := by
  have haligned := Kmem.live_aligned ⟨_, h.fresh.mem_live⟩
  have hend := h.spare.bumped.below _ h.fresh.mem_live
  have hroom := h.spare.room
  have hext : extent blockSize userProgramStackSize = 16384 := by decide
  obtain ⟨_, _, hrecord⟩ := h.record
  dsimp only at hend
  rw [hext] at hend
  unfold bumpStride blockSize at hend
  exact ⟨by rw [hrecord], haligned, by unfold userProgramStackSize; omega⟩

/-- The image of the process is in use, and no program headers are in it. -/
structure Headless (k : Kernel) (p : Addr) : Prop where
  filetype : (k.procs p).filetype = processFiletypeElf
  image : k.heap.Live (k.elfFiles (k.procs p).ptr).elf_memory
  phnum : ePhnum k.mem (k.elfFiles (k.procs p).ptr).elf_memory = 0

theorem Headless.keeps (h : Headless k p) (hkeeps : Kmem.Keeps k.toKmem k'.toKmem) (hfiles : k'.elfFiles = k.elfFiles)
    (htype : (k'.procs p).filetype = (k.procs p).filetype) (hptr : (k'.procs p).ptr = (k.procs p).ptr) :
    Headless k' p := by
  have hagree : Agree k.mem k'.mem ((k.elfFiles (k.procs p).ptr).elf_memory + 44) 2 := by
    refine (hkeeps.page h.image).sub ?_
    rw [BitVec.add_comm, BitVec.add_sub_cancel]
    decide
  refine ⟨htype.trans h.filetype, ?_, ?_⟩
  · rw [hfiles, hptr]
    exact hkeeps.isLive h.image
  · rw [hfiles, hptr]
    exact hagree.load16.trans h.phnum

theorem Headless.imageCalls (h : Headless k p) : imageCalls k p = [] := by
  unfold LoadSteps.imageCalls Process.elf_file
  rw [if_pos h.filetype]
  show elfCalls _ _ _ (2 ^ 16 - 1 + 1) _ _ = []
  rw [elfCalls, if_neg (by rw [h.phnum]; decide)]

theorem Headless.mapped (h : Headless k p) : ∃ k', processMapMemory k p = some (k', 0) := by
  have hloop : ∀ d phdrs n, processMapElfLoop d (k.elfFiles (k.procs p).ptr) phdrs n 0 0 k.mem = (k.mem, 0) := by
    intro d phdrs n
    cases n with
    | zero => rfl
    | succ n =>
      rw [processMapElfLoop, h.phnum]
      exact if_neg (by decide)
  have himage : processMapElf k p = (k, 0) := by
    unfold processMapElf Process.elf_file
    dsimp only
    rw [hloop]
  rw [processMapMemory_eq, mapImage, if_pos h.filetype, himage, Option.bind_some]
  dsimp only
  rw [if_neg (lt_irrefl 0)]
  exact ⟨_, rfl⟩

theorem Stacked.headless {kd : Kernel} {stack : Addr} (h : Stacked kd k1 p stack) (himage : Headless kd p) :
    Headless k1 p := by
  obtain ⟨_, _, hrecord⟩ := h.record
  exact himage.keeps h.fresh.keeps h.elfFiles (by rw [hrecord]) (by rw [hrecord])

theorem Headless.withTask (h : Headless k p) (hok : TaskGranted k p) : Headless (withTask k p) p := by
  obtain ⟨m, t, r, d, hn, -, hmem, -⟩ := hok.withTask_eq
  have hrecord := procs_withTask_self k p
  exact h.keeps (hmem ▸ hn.new.keeps) (elfFiles_withTask k p) (by rw [hrecord]) (by rw [hrecord])

/-! ## A volume of one file -/

/-- The entry of a file `A` of this content. -/
def fileEntry (content : List Byte) : Entry := entryA.set 28 (BitVec.ofNat 8 content.length) |>.set 29 0

def volumeOf (content : List Byte) : Kernel :=
  { oneEntry (fileEntry content) with disk := { emptyKernel.disk with sector := fun _ _ i => content.getD i 0 } }

section

variable {content : List Byte}

theorem fileSize_fileEntry (h : content.length < 256) : (fileSize (fileEntry content)).toNat = content.length := by
  have he : fileSize (fileEntry content) =
    ((0 : BitVec 8) ++ (0 : BitVec 8) ++ (0 : BitVec 8) ++ BitVec.ofNat 8 content.length : BitVec 32) := rfl
  rw [he, BitVec.toNat_append, BitVec.toNat_ofNat]
  simp
  omega

theorem holdsFile_volumeOf (h0 : 0 < content.length) (h : content.length < 256) :
    HoldsFile (volumeOf content) (fileEntry content) content := by
  have hheader : (volumeOf content).fs_private.header = ⟨1, 1, 1, 1, 1⟩ := rfl
  have hcb : clusterBytes (volumeOf content) = 512 := by
    unfold clusterBytes
    rw [hheader]
    decide
  have hfirst : ∀ b : Byte, firstCluster (entryA.set 28 b |>.set 29 0) = 2 := by decide +kernel
  have hchain : chain (volumeOf content) (firstCluster (fileEntry content)) 0 = 2 := hfirst _
  have hend : (volumeOf content).fs_private.root_directory.ending_sector_pos = 2 := rfl
  have hpos : clusterPos (volumeOf content) 2 = 1024 := by
    unfold clusterPos
    rw [hend, hheader]
    decide
  have hsec : sectorSize = 512 := rfl
  refine ⟨fileSize_fileEntry h, ⟨by omega, ?_⟩, fun j hj => ?_, fun t ht => ?_⟩
  · intro j hj _
    have hj : j = 0 := by
      rcases hj with rfl | hj
      · rfl
      · rw [hcb] at hj
        omega
    subst hj
    rw [hcb, Nat.zero_div, Nat.add_zero, hchain, hpos]
    omega
  · rw [hcb] at hj
    obtain rfl : j = 0 := by omega
    rw [hchain]
    decide
  · rw [hcb, Nat.div_eq_of_lt (by omega), Nat.mod_eq_of_lt (by omega), hchain, clusterByte, hpos, diskByte, hsec]
    have hmod : ((1024 + (t : Int)) % 512).toNat = t := by omega
    rw [hmod]
    exact List.getD_eq_getElem _ _ ht

end

def dataLoaded (content : List Byte) : Option (Kernel × Int) :=
  processLoadData (withRecord (volumeOf content) (kzalloc (volumeOf content).toKmem sizeofProcess).1 0xC000)
    (cstr pathA) 0xC000

/-- The heap answers as it did, and all that is in use lies below its next answer. -/
def roomy (h : Arena blockSize) : Bool :=
  h.asked < 30 && ((List.range 1100).all fun i =>
    h.answer (h.asked + i) == BitVec.ofNat 32 (bumpStride * (h.asked + i + 1))) &&
      h.live.all fun b => decide (b.base.toNat + extent blockSize b.size ≤ bumpStride * (h.asked + 1))

theorem spare_of_roomy {m : Kmem} (h : roomy m.heap = true) : Spare m 1100 := by
  unfold roomy at h
  simp only [Bool.and_eq_true, decide_eq_true_eq, List.all_eq_true, List.mem_range, beq_iff_eq] at h
  obtain ⟨⟨hasked, hanswers⟩, hbelow⟩ := h
  exact ⟨⟨hanswers, hbelow⟩, by omega⟩

def recordOf (k : Kernel) : (Nat × Addr × BitVec 32) × Addr × BitVec 16 :=
  let p := k.procs 0xC000
  ((p.filetype, p.ptr, p.size), (k.elfFiles p.ptr).elf_memory, ePhnum k.mem (k.elfFiles p.ptr).elf_memory)

section

variable {content : List Byte} {file elf : Addr} {size : BitVec 32}
  (hrecord : (dataLoaded content).map (fun r => (r.2, recordOf r.1)) =
    some (0, (processFiletypeElf, file, size), elf, 0))
  (hheap : (dataLoaded content).map (fun r => (roomy r.1.heap, r.1.heap.live.any fun b => b.base == elf)) =
    some (true, true))
include hrecord hheap

theorem headless_loaded : ∃ k, dataLoaded content = some (k, 0) ∧ Spare k.toKmem 1100 ∧ Headless k 0xC000 ∧
    (k.procs 0xC000).ptr = file ∧ (k.procs 0xC000).size = size ∧ (k.elfFiles file).elf_memory = elf := by
  obtain ⟨⟨k, res⟩, hdata, hk⟩ := Option.map_eq_some_iff.mp hrecord
  rw [hdata, Option.map_some, Option.some.injEq] at hheap
  simp only [recordOf, Prod.mk.injEq, List.any_eq_true, beq_iff_eq] at hk hheap
  obtain ⟨rfl, ⟨htype, rfl, rfl⟩, rfl, hphnum⟩ := hk
  obtain ⟨hroomy, ⟨_, size⟩, hb, hbase⟩ := hheap
  exact ⟨k, hdata, spare_of_roomy hroomy, ⟨htype, ⟨size, hbase ▸ hb⟩, hphnum⟩, rfl, rfl, rfl⟩

variable (content file elf size) in
theorem headless_prepared (hp : (kzalloc (volumeOf content).toKmem sizeofProcess).2 = 0xC000) :
    ∃ kd k1 stack, dataLoaded content = some (kd, 0) ∧ Prepared (volumeOf content) pathA 0 k1 0xC000 ∧
      StackMade kd k1 0xC000 stack 1099 ∧ Headless k1 0xC000 ∧ (kd.procs 0xC000).ptr = file ∧
      (kd.procs 0xC000).size = size ∧ (kd.elfFiles file).elf_memory = elf := by
  obtain ⟨kd, hdata, hspare, himage, hfile⟩ := headless_loaded hrecord hheap
  have hpair : ∀ {r : Kmem × Addr}, r.2 = 0xC000 → r = (r.1, 0xC000) := fun h => Prod.ext rfl h
  have hm := hpair hp
  have hname : strncpy (cstr pathA) maxPath = some pathA := by decide
  obtain ⟨k1, stack, hprep, hmade⟩ := prepared_of_loaded (n := 1099) hm (by decide) hdata (lt_irrefl 0) hname hspare 0
  exact ⟨kd, k1, stack, hdata, hprep, hmade, hmade.headless himage, hfile⟩

end

theorem Headless.granted {n : Nat} (h : Headless k p) (hspare : Spare k.toKmem (n + 1027)) :
    TaskGranted k p ∧ ∃ k', processMapMemory (LoadSteps.withTask k p) p = some (k', 0) := by
  have hok := (taskNew_spare hspare p).2
  exact ⟨hok, (h.withTask hok).mapped⟩

def elfHeader : List Byte :=
  [0x7f, 0x45, 0x4c, 0x46, 1, 1, 1, 0, 0, 0, 0, 0, 0, 0, 0, 0, 2, 0, 3, 0, 1, 0, 0, 0, 0, 0, 0x40, 0, 52, 0, 0, 0,
    0, 0, 0, 0, 0, 0, 0, 0, 52, 0, 32, 0, 0, 0, 0, 0, 0, 0, 0, 0]

def elfImage : Kernel := volumeOf elfHeader

theorem elfImage_prepared : ∃ kd k1 stack, dataLoaded elfHeader = some (kd, 0) ∧
    Prepared elfImage pathA 0 k1 0xC000 ∧ StackMade kd k1 0xC000 stack 1099 ∧ Headless k1 0xC000 ∧
    (kd.procs 0xC000).ptr = 0x10000 ∧ (kd.procs 0xC000).size = 0 ∧ (kd.elfFiles 0x10000).elf_memory = 0x34000 :=
  headless_prepared elfHeader 0x10000 0x34000 0 (by decide +kernel) (by decide +kernel) (by decide +kernel)

/-- A raw image whose word at 112 is the address it is loaded at. -/
def rawFile : List Byte := List.replicate 112 0 ++ [0, 0x80, 5, 0] ++ List.replicate 16 0

/-- A raw image is taken for an ELF file that has no program headers, so nothing maps it. -/
theorem load_rawFile_unmapped : ∃ k', processLoadForSlot (volumeOf rawFile) (cstr pathA) 0 = some (k', 0, 0xC000) ∧
    LoadedRaw (volumeOf rawFile) pathA ∧ pageEntry k' 0xC000 0x400 = 0x400005 ∧
    ¬ Sound (volumeOf rawFile) pathA 0 k' 0 0xC000 := by
  have hs : NoNul pathA := by
    unfold NoNul
    decide
  obtain ⟨kd, k1, stack, -, hprep, hmade, himage, hptr, hsize, -⟩ :=
    headless_prepared rawFile 0x58000 0x58000 132 (by decide +kernel) (by decide +kernel) (by decide +kernel)
  obtain ⟨hok, k2, map⟩ := himage.granted (n := 0) (hmade.spare.mono (by decide))
  have hload := processLoadForSlot_of_way hs (by decide) (.loaded hprep map (lt_irrefl 0))
  have hraw : LoadedRaw (volumeOf rawFile) pathA := by decide +kernel
  have hfinish : Finish 0 k1 0xC000 _ 0 0xC000 := .loaded map (lt_irrefl 0)
  obtain ⟨-, hentry⟩ := hfinish.directory (lt_irrefl 0) hok
  obtain ⟨hstack, hat⟩ := hmade.stackAt
  have hpage : (stackCall stack).entry 0x400 = none := (hat.entry (by decide)).trans (if_neg (by decide))
  have hleft : finalEntry 5 (loadCalls k1 0xC000) 0x400 = 0x400005 := by
    rw [loadCalls, (himage.withTask hok).imageCalls, List.nil_append, hstack, finalEntry, lastEntry_cons, hpage]
    rfl
  have hwant : finalEntry 5 (demandedCalls (volumeOf rawFile) pathA k1 0xC000) 0x400 = 0x58007 := by
    obtain ⟨_, _, hrecord⟩ := hmade.record
    rw [demandedCalls, if_pos hraw, hstack, hrecord, finalEntry, lastEntry_concat, hpage, Option.none_or,
      lastEntry_cons, binaryCall, hptr, hsize]
    rfl
  refine ⟨_, hload, hraw, (hentry 0x400 (by decide)).trans hleft, fun hsound => ?_⟩
  obtain ⟨k3, hprep3, hc⟩ := hsound.success le_rfl
  obtain ⟨rfl, -⟩ := prepared_unique hprep hprep3
  have hmapped := (hc.mapped 0x400 (by decide)).symm.trans ((hentry 0x400 (by decide)).trans hleft)
  rw [hwant] at hmapped
  exact absurd hmapped (by decide)

/-! ## What a failed load leaves -/

/-- What a failed load is to leave as it was. -/
structure Restored (k k' : Kernel) : Prop where
  live : ∀ b, b ∈ k'.heap.live ↔ b ∈ k.heap.live
  file_descriptors : k'.file_descriptors = k.file_descriptors
  task_head : k'.task_head = k.task_head
  task_tail : k'.task_tail = k.task_tail
  tasks : ∀ t, k.heap.Live t → k'.tasks t = k.tasks t
  current_task : k'.current_task = k.current_task
  processes : k'.processes = k.processes
  current_process : k'.current_process = k.current_process

theorem Restored.refl (k : Kernel) : Restored k k :=
  ⟨fun _ => Iff.rfl, rfl, rfl, rfl, fun _ _ => rfl, rfl, rfl, rfl⟩

/-- The load takes nothing: there is no slot, or no memory for the record. -/
def TakesNothing (k : Kernel) : Prop := freeProcess k = none ∨ (kzalloc k.toKmem sizeofProcess).2 = 0

def TaskRefused (k : Kernel) (s : List Byte) : Prop :=
  ∃ slot k1 p, freeProcess k = some slot ∧ Prepared k s slot k1 p ∧ ¬ TaskGranted k1 p

theorem processLoad_way (hs : NoNul s) (h : processLoad k (cstr s) = some (k', res, process)) :
    (freeProcess k = none ∧ k' = k) ∨ ∃ slot, freeProcess k = some slot ∧ LoadWay k s slot k' res process := by
  unfold processLoad processGetFreeSlot at h
  cases hslot : freeProcess k with
  | none =>
    rw [hslot] at h
    cases h
    exact Or.inl ⟨rfl, rfl⟩
  | some slot =>
    rw [hslot] at h
    dsimp only at h
    rw [if_neg (by omega)] at h
    exact Or.inr ⟨slot, rfl, processLoadForSlot_way hs h⟩

/-- Freeing the task that a load made gives back nothing that was live before. -/
theorem TaskGranted.undo_keeps (hok : TaskGranted k1 p) (map : processMapMemory (withTask k1 p) p = some (k2, res)) :
    ∀ b ∈ k1.heap.live, b ∈ (taskFree k2 (taskNew k1 p).2).heap.live := by
  obtain ⟨m, t, r, d, hn, heq, hmem, hdir⟩ := hok.withTask_eq
  have htask := task_withTask k1 p
  have heq2 := processMapMemory_calls map
  rw [hdir, hmem] at heq2
  have hr := run_mapCall_spec hn.new.inMem.holds (memoryCalls (withTask k1 p) p res)
  have hchunk : (k2.tasks (taskNew k1 p).2).page_directory = d.chunk := by
    rw [heq2, ← hdir, pageDirectory, htask]
  have hheap2 : k2.heap = m.heap := by rw [heq2]
  have hholds : d.Holds k2.mem := by
    rw [heq2]
    exact hr.holds
  obtain ⟨as, hfreed, has⟩ := pagingFree4gb_freed (k := k2.toKmem) hholds
  intro b hb
  have hlive : b ∈ k2.heap.live := hheap2 ▸ hn.new.keeps.live b hb
  rw [taskFree_eq, hchunk]
  refine ((hfreed.kfree _).live b).mpr ⟨hlive, fun hmem => ?_⟩
  rcases List.mem_cons.mp hmem with he | hmem
  · rw [heq] at he
    have ht : b.base = t := he
    exact hn.fresh ⟨b.size, ht ▸ hb⟩
  · exact hn.new.fresh _ ((has _).mp hmem) ⟨b.size, hb⟩

theorem record_stays (hs : NoNul s) (h : LoadWay k s slot k' res process) (hres : res < 0)
    (hrecord : (kzalloc k.toKmem sizeofProcess).2 ≠ 0)
    (hgranted : ∀ k1 p, Prepared k s slot k1 p → TaskGranted k1 p) :
    k'.heap.Live (kzalloc k.toKmem sizeofProcess).2 := by
  have hf := kzalloc_fresh hrecord
  cases h with
  | noRecord refused =>
    rw [refused] at hrecord
    exact absurd rfl hrecord
  | noData record granted data failed =>
    rw [record] at hf ⊢
    exact ⟨_, (processLoadData_frame hs data).1.live _ hf.mem_live⟩
  | noStack record granted data loaded refused =>
    rw [record] at hf ⊢
    have hdata := (processLoadData_frame hs data).1.live _ hf.mem_live
    exact ⟨_, (loadFrame_alloc (0 : Addr) refused).live _ hdata⟩
  | noMap prepared map failed =>
    have hundo := (hgranted _ _ prepared).undo_keeps map
    have hlive := (prepared_newProcess hs prepared).live
    obtain ⟨record, -⟩ := prepared
    rw [record]
    exact ⟨_, hundo _ hlive.choose_spec⟩
  | loaded prepared map mapped => exact absurd hres mapped

/-- For every file, disk and heap: a failed load that took nothing has restored everything, and one
that took something has not, unless `task_new` was refused something. Then it depends on what lies
behind the error. -/
theorem processLoad_restores (hs : NoNul s) (h : processLoad k (cstr s) = some (k', res, process)) (hres : res < 0) :
    (TakesNothing k → Restored k k') ∧ (Restored k k' → TakesNothing k ∨ TaskRefused k s) := by
  rcases processLoad_way hs h with ⟨hslot, rfl⟩ | ⟨slot, hslot, hway⟩
  · exact ⟨fun _ => .refl _, fun _ => Or.inl (Or.inl hslot)⟩
  constructor
  · rintro (hnone | hrefused)
    · rw [hslot] at hnone
      cases hnone
    have hlive := live_of_refused k.toKmem sizeofProcess hrefused
    cases hway with
    | noRecord refused =>
      rw [refused] at hlive
      exact ⟨fun b => by rw [hlive], rfl, rfl, rfl, fun _ _ => rfl, rfl, rfl, rfl⟩
    | noData record granted => exact absurd (by rwa [record] at hrefused) granted
    | noStack record granted => exact absurd (by rwa [record] at hrefused) granted
    | noMap prepared =>
      obtain ⟨record, granted, -⟩ := prepared
      exact absurd (by rwa [record] at hrefused) granted
    | loaded prepared map mapped => exact absurd hres mapped
  · intro hrestored
    by_cases hrecord : (kzalloc k.toKmem sizeofProcess).2 = 0
    · exact Or.inl (Or.inr hrecord)
    · refine Or.inr ?_
      by_contra hno
      have hgranted : ∀ k1 p, Prepared k s slot k1 p → TaskGranted k1 p := by
        intro k1 p hprep
        by_contra hrefused
        exact hno ⟨slot, k1, p, hslot, hprep, hrefused⟩
      obtain ⟨size, hb⟩ := record_stays hs hway hres hrecord hgranted
      exact (kzalloc_fresh hrecord).not_live ⟨size, (hrestored.live _).mp hb⟩

theorem processLoad_pathA : ∃ k', processLoad emptyKernel (cstr pathA) = some (k', - EIO, 0) := by
  have h : (processLoad emptyKernel (cstr pathA)).map (·.2) = some (- EIO, 0) := by decide +kernel
  obtain ⟨⟨k', r⟩, hr, rfl⟩ := Option.map_eq_some_iff.mp h
  exact ⟨k', hr⟩

theorem processLoad_restores_pathA : ∃ k', processLoad emptyKernel (cstr pathA) = some (k', - EIO, 0) ∧
    (TakesNothing emptyKernel → Restored emptyKernel k') ∧
    (Restored emptyKernel k' → TakesNothing emptyKernel ∨ TaskRefused emptyKernel pathA) := by
  obtain ⟨k', h⟩ := processLoad_pathA
  exact ⟨k', h, processLoad_restores (by unfold NoNul; decide) h (by decide)⟩

/-- A file that is missing leaves the record of its process. -/
theorem processLoad_leaves_record : ∃ k', processLoad emptyKernel (cstr pathA) = some (k', - EIO, 0) ∧
    k'.heap.live.length = 6 ∧ ¬ Restored emptyKernel k' := by
  obtain ⟨k', h⟩ := processLoad_pathA
  have hlive : (processLoad emptyKernel (cstr pathA)).map (fun r => r.1.heap.live.length) = some 6 := by
    decide +kernel
  rw [h, Option.map_some, Option.some.injEq] at hlive
  dsimp only at hlive
  refine ⟨k', h, hlive, fun hr => ?_⟩
  obtain ⟨b, hb⟩ := List.exists_mem_of_length_pos (show 0 < k'.heap.live.length by omega)
  exact absurd ((hr.live b).mp hb) List.not_mem_nil

end MultitaskOs.LoadOutcome
