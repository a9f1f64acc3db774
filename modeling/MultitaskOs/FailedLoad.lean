import MultitaskOs.LoadGranted

/-!
# A load that fails

A load may fail after it has asked for blocks, opened the file, or made a task.
Where no request was refused, all that was in use before is as it was.
-/

open Lib Lib.Memory Lib.Arena Lib.Run MultitaskOs.PathParser MultitaskOs.Files MultitaskOs.OpenClose
  MultitaskOs.FatLookup MultitaskOs.Paging MultitaskOs.Tasks MultitaskOs.ProcessMemory MultitaskOs.Loading
  MultitaskOs.FileType MultitaskOs.ElfMap MultitaskOs.LoadSteps MultitaskOs.LoadOutcome MultitaskOs.ProcessTable
  MultitaskOs.Termination MultitaskOs.LoadedImage MultitaskOs.LoadGranted

namespace MultitaskOs.FailedLoad

variable {k k' k1 k2 : Kernel} {s c content : List Byte} {slot n : Nat} {res : Int} {p q f file : Addr}
  {root : List Entry} {e : Entry}

/-! ## What is left as it was -/

/-- All that was in use is in use, with what was in it; no record that was in use is written, but for
the links of the task list. -/
structure LeavesUsed (k k' : Kernel) : Prop where
  keeps : k.toKmem.Keeps k'.toKmem
  procs : ∀ q, k.heap.Live q → k'.procs q = k.procs q
  tasks : ∀ t, k.heap.Live t → Relinked (k.tasks t) (k'.tasks t)
  elfFiles : ∀ f, k.heap.Live f → k'.elfFiles f = k.elfFiles f

theorem LeavesUsed.refl (k : Kernel) : LeavesUsed k k :=
  ⟨Kmem.Keeps.refl _, fun _ _ => rfl, fun _ _ => Relinked.refl _, fun _ _ => rfl⟩

theorem LeavesUsed.trans (h : LeavesUsed k k1) (h' : LeavesUsed k1 k') : LeavesUsed k k' := by
  have hlive : ∀ {a : Addr}, k.heap.Live a → k1.heap.Live a := fun ha => h.keeps.isLive ha
  exact ⟨h.keeps.trans h'.keeps, fun q hq => (h'.procs q (hlive hq)).trans (h.procs q hq),
    fun t ht => (h.tasks t ht).trans (h'.tasks t (hlive ht)),
    fun f hf => (h'.elfFiles f (hlive hf)).trans (h.elfFiles f hf)⟩

theorem LeavesUsed.setProc (h : LeavesUsed k k') (hp : ¬ k.heap.Live p) (g : Process → Process) :
    LeavesUsed k (k'.setProc p g) := by
  refine ⟨h.keeps, fun q hq => ?_, h.tasks, h.elfFiles⟩
  have hne : q ≠ p := by
    rintro rfl
    exact hp hq
  exact (Function.update_of_ne hne _ _).trans (h.procs q hq)

theorem leavesUsed_request {m : Kmem} {a : Addr} {size : Nat} (h : kzalloc k.toKmem size = (m, a)) :
    LeavesUsed k { k with toKmem := m } := by
  have hkeeps := kzalloc_keeps k.toKmem size
  rw [h] at hkeeps
  exact ⟨hkeeps, fun _ _ => rfl, fun _ _ => Relinked.refl _, fun _ _ => rfl⟩

theorem LeavesUsed.loadData (hs : NoNul s) (h : LeavesUsed k k1) (hp : ¬ k.heap.Live p)
    (hdata : processLoadData k1 (cstr s) p = some (k', res)) (hok : k'.heap.failures = k1.heap.failures) :
    LeavesUsed k k' := by
  have hframe := (processLoadData_frame hs hdata).1
  have hkeeps : k1.toKmem.Keeps k'.toKmem := by
    obtain ⟨_, _, _, _, hkeeps, rfl, -⟩ := processLoadData_record hs hdata
    exact hkeeps.keeps hok
  refine ⟨h.keeps.trans hkeeps, fun q hq => ?_, fun t ht => ?_, fun f hf => ?_⟩
  · have hne : q ≠ p := by
      rintro rfl
      exact hp hq
    rw [hframe.procs q hne, h.procs q hq]
  · rw [hframe.tasks]
    exact h.tasks t ht
  · rw [elfFiles_processLoadData hs hdata (h.keeps.isLive hf), h.elfFiles f hf]

theorem withRecord_leaves {m : Kmem} (h : kzalloc k.toKmem sizeofProcess = (m, p)) (h0 : p ≠ 0) :
    ¬ k.heap.Live p ∧ LeavesUsed k (withRecord k m p) :=
  ⟨(fresh_of_eq h h0).not_live, (leavesUsed_request h).setProc (fresh_of_eq h h0).not_live _⟩

theorem Prepared.leaves (hs : NoNul s) (h : Prepared k s slot k1 p) (hok : k1.heap.failures = k.heap.failures) :
    ¬ k.heap.Live p ∧ LeavesUsed k k1 := by
  obtain ⟨m, kd, stack, res, record, granted, data, -, hstack⟩ := prepared_stacked h
  have hcount1 : k.heap.failures ≤ m.heap.failures := by simpa [record] using kzalloc_failures_le k.toKmem sizeofProcess
  have hcount2 := counts_processLoadData hs data
  have hcount3 := hstack.count
  unfold Counts at hcount2 hcount3
  obtain ⟨hp, hrecord⟩ := withRecord_leaves record granted
  have hdata := hrecord.loadData hs hp data (by
    have hm : (withRecord k m p).heap.failures = m.heap.failures := rfl
    omega)
  have hframe := (prepared_newProcess hs h).frame
  refine ⟨hp, ⟨hdata.keeps.trans hstack.fresh.keeps, fun q hq => ?_, fun t _ => ?_, fun f hf => ?_⟩⟩
  · exact hframe.procs q fun he => hp (he ▸ hq)
  · rw [hframe.tasks]
    exact Relinked.refl _
  · rw [hstack.elfFiles, hdata.elfFiles f hf]

theorem unmapped_leaves (h : LeavesUsed k k1) (hp : ¬ k.heap.Live p) (htask : TaskGranted k1 p)
    (hmap : processMapMemory (withTask k1 p) p = some (k2, res)) : LeavesUsed k (taskFree k2 (taskNew k1 p).2) := by
  obtain ⟨m, t, r, d, hm⟩ := mapped_of_map htask hmap
  have hlive := htask.undo_keeps hmap
  have hmem := mem_taskFree k2 (taskNew k1 p).2
  have hlinks := relinked_taskFree k2 (taskNew k1 p).2
  obtain ⟨_, _, _, _, _, honly⟩ := onlyTasks_taskFree k2 (taskNew k1 p).2
  generalize taskFree k2 (taskNew k1 p).2 = k' at *
  refine ⟨⟨fun b hb => hlive b (h.keeps.live b hb), fun b hb => ?_⟩, fun q hq => ?_, fun a ha => ?_, fun f hf => ?_⟩
  · rw [hmem]
    exact (h.keeps.trans hm.keeps).bytes b hb
  · have hne : q ≠ p := by
      rintro rfl
      exact hp hq
    rw [← h.procs q hq, ← hm.others q hne, honly]
  · exact ((h.tasks a ha).trans (hm.links (h.keeps.isLive ha))).trans (hlinks a)
  · rw [← h.elfFiles f hf, ← hm.files, honly]

/-- A load that fails, and was refused no request. -/
structure LoadFails (k : Kernel) (s : List Byte) (k' : Kernel) : Prop where
  noNul : NoNul s
  fails : ∃ res p, processLoad k (cstr s) = some (k', res, p) ∧ res < 0
  granted : k'.heap.failures = k.heap.failures

theorem LoadFails.leaves (h : LoadFails k s k') : LeavesUsed k k' := by
  obtain ⟨hs, ⟨res, p, hload, hres⟩, hok⟩ := h
  rcases processLoad_way hs hload with ⟨hnone, -⟩ | ⟨slot, -, hway⟩
  · rw [processLoad_full hnone] at hload
    cases hload
    exact LeavesUsed.refl k
  cases hway with
  | noRecord refused => exact leavesUsed_request refused
  | noData record granted data failed =>
    rename_i m p
    have hcount := counts_processLoadData hs data
    have hfail := kzalloc_failures_le k.toKmem sizeofProcess
    rw [record] at hfail
    obtain ⟨hp, hrecord⟩ := withRecord_leaves record granted
    refine hrecord.loadData hs hp data ?_
    have h1 : m.heap.failures ≤ k'.heap.failures := hcount
    show k'.heap.failures = m.heap.failures
    dsimp only at hfail
    omega
  | noStack record granted data loaded refused =>
    rename_i m m2 p k1 res1
    have hcount := counts_processLoadData hs data
    have hfail := kzalloc_failures_le k.toKmem sizeofProcess
    have hfail1 := kzalloc_failures_le k1.toKmem userProgramStackSize
    rw [record] at hfail
    rw [refused] at hfail1
    obtain ⟨hp, hrecord⟩ := withRecord_leaves record granted
    refine (hrecord.loadData hs hp data ?_).trans (leavesUsed_request refused)
    have h1 : m.heap.failures ≤ k1.heap.failures := hcount
    have h2 : m2.heap.failures = k.heap.failures := hok
    show k1.heap.failures = m.heap.failures
    dsimp only at hfail hfail1
    omega
  | noMap prepared map failed =>
    rename_i p k1 k2
    have hcount := counts_prepared hs prepared
    have htask := taskNew_failures_le k1 p
    have hheap : k2.heap = (taskNew k1 p).1.heap := by
      obtain ⟨mem, rfl⟩ := processMapMemory_only map
      rfl
    rw [taskFree_failures, hheap] at hok
    unfold Counts at hcount
    obtain ⟨hp, hleaves⟩ := Prepared.leaves hs prepared (by omega)
    exact unmapped_leaves hleaves hp (by unfold TaskGranted; omega) map
  | loaded prepared map mapped => omega

/-- The table and the current process are as they were too. -/
theorem failedLoad_leaves (h : LoadFails k s k') :
    LeavesUsed k k' ∧ k'.processes = k.processes ∧ k'.current_process = k.current_process := by
  have hleaves := h.leaves
  obtain ⟨hs, ⟨res, p, hload, hres⟩, -⟩ := h
  exact ⟨hleaves, load_failed hs hload hres⟩

theorem taskListRemove_current_task {t : Addr} (h : t ≠ k.current_task) :
    (taskListRemove k t).current_task = k.current_task := by
  unfold taskListRemove Kernel.setTask
  dsimp only
  split_ifs <;> rfl

theorem taskLink_current_task {t : Addr} (h : k.task_head ≠ 0) : (taskLink k t).current_task = k.current_task := by
  unfold taskLink
  rw [if_neg h]
  rfl

/-- The task of a load that fails was never the current one, unless the list was empty. -/
theorem LoadFails.current_task (h : LoadFails k s k') (hhead : k.task_head ≠ 0) (hlive : k.heap.Live k.current_task) :
    k'.current_task = k.current_task := by
  obtain ⟨hs, ⟨res, p, hload, hres⟩, hok⟩ := h
  rcases processLoad_way hs hload with ⟨-, rfl⟩ | ⟨slot, -, hway⟩
  · rfl
  cases hway with
  | noRecord refused => rfl
  | noData record granted data failed =>
    exact ((loadFrame_withRecord record).trans (processLoadData_frame hs data).1).current_task
  | noStack record granted data loaded refused =>
    exact ((loadFrame_withRecord record).trans (processLoadData_frame hs data).1).current_task
  | noMap prepared map failed =>
    rename_i p k1 k2
    have hframe := (prepared_newProcess hs prepared).frame
    have hcount := counts_prepared hs prepared
    have htask := taskNew_failures_le k1 p
    obtain ⟨mem, rfl⟩ := processMapMemory_only map
    rw [taskFree_failures] at hok
    have hok' : (taskNew k1 p).1.heap.failures = k.heap.failures := hok
    unfold Counts at hcount
    have hgranted : TaskGranted k1 p := by
      unfold TaskGranted
      omega
    obtain ⟨m, t, r, d, hn, heq, -, -⟩ := hgranted.withTask_eq
    have hcurrent : (withTask k1 p).current_task = k.current_task := by
      unfold withTask
      rw [heq]
      exact (taskLink_current_task (by exact hframe.task_head.trans_ne hhead)).trans hframe.current_task
    rw [heq, taskFree_eq]
    refine (taskListRemove_current_task ?_).trans hcurrent
    rintro rfl
    refine hn.fresh ?_
    obtain ⟨n, hb⟩ := hlive
    exact ⟨n, hcurrent.symm ▸ hframe.live _ hb⟩
  | loaded prepared map mapped => omega

/-! ## A file that is not there -/

/-- The content is an ELF image whose first program header `paging_map_to` refuses, wherever it is read to. -/
structure Unmappable (content : List Byte) : Prop where
  passes : Passes content
  refused : ∀ (mem : Mem) (elf : Addr), elf ≠ 0 → elf.toNat % blockSize = 0 →
    readBytes mem elf content.length = content →
    0 < (ePhnum mem elf).toNat ∧ (headerCall mem elf (elfProgramHeader mem elf 0)).Rejected

theorem image_refused (hbad : Unmappable content) (hready : Ready s k k1 p content.length) (hok : TaskGranted k1 p)
    (hbytes : readBytes k1.mem (imageOf k1 p) content.length = content) :
    ∃ k2 res, processMapMemory (withTask k1 p) p = some (k2, res) ∧ res < 0 := by
  obtain ⟨m, t, r, d, hmade⟩ := taskNew_made hok
  obtain ⟨htoKmem, -, -, -⟩ := taskMade_withTask hmade
  obtain ⟨himage, htype⟩ := withTask_image hready hmade
  have hkeeps := hmade.task.new.keeps
  generalize withTask k1 p = kt at htoKmem himage htype
  subst htoKmem
  obtain ⟨hnum, hrejected⟩ := hbad.refused kt.mem (imageOf k1 p) (Kmem.live_ne_zero ⟨_, hready.image⟩)
    (Kmem.live_aligned ⟨_, hready.image⟩) ((hkeeps.readBytes_eq hready.image).trans hbytes)
  rw [← himage] at hnum hrejected
  have hcalls : imageCalls kt p = elfCalls (pageDirectory kt p) (kt.elfFiles (kt.procs p).elf_file)
      (elfPheader kt.mem (imageOf kt p)) (65535 + 1) 0 kt.mem := if_pos htype
  obtain ⟨⟨k2, res⟩, map⟩ : ∃ r, processMapMemory kt p = some r := by
    rw [processMapMemory_eq, mapImage, if_pos htype, Option.bind_some]
    split <;> exact ⟨_, rfl⟩
  refine ⟨k2, res, map, (processMapMemory_status htype map).mpr ⟨_, ?_, hrejected⟩⟩
  have hmemory : (kt.elfFiles (kt.procs p).elf_file).elf_memory = imageOf kt p := rfl
  rw [hcalls, elfCalls, hmemory, if_pos hnum]
  dsimp only
  split <;> exact List.mem_cons_self

/-- A load of such an image fails at the last step: the task is made, and given back. -/
theorem load_unmapped (h : Finds k root s e content) (hbad : Unmappable content) (hslot : freeProcess k = some slot)
    (hr : Spare k.toKmem (n + loadRequests)) (hn : 2 ^ 17 < n) : ∃ k', LoadFails k s k' := by
  obtain ⟨c, hp, -⟩ := h.path
  have hs := hp.noNul
  obtain ⟨k1, p, -, hprep, hready, hbytes, -, -, -, hr1, hok1⟩ :=
    prepared_found (n := n + 1027) h hbad.passes (hr.mono (by unfold loadRequests; omega)) (by omega) slot
  obtain ⟨-, hok2⟩ := taskNew_spare (n := n) hr1 p
  obtain ⟨k2, res, map, hres⟩ := image_refused hbad hready hok2 hbytes
  refine ⟨_, hs, ⟨res, 0, processLoad_of_way hs hslot (.noMap hprep map hres), hres⟩, ?_⟩
  obtain ⟨mem, rfl⟩ := processMapMemory_only map
  rw [taskFree_failures]
  exact hok2.trans hok1

/-- A header with a segment that goes on past the end of memory. -/
def endlessFile : List Byte := wordBytes ((elfWords 0).set 18 0xFFFFF000)

theorem unmappable_endlessFile : Unmappable endlessFile := by
  refine ⟨⟨by decide, by decide +kernel⟩, fun mem elf h0 ha hbytes => ?_⟩
  have hwords : HasWords mem elf ((elfWords 0).set 18 0xFFFFF000) := hasWords_of_readBytes hbytes
  have hphoff : ePhoff mem elf = 52 := hwords 7 (by decide)
  have hphnum : load32 mem (elf + 44) = 1 := hwords 11 (by decide)
  have hphdr : elfProgramHeader mem elf 0 = elf + 52 := by
    rw [elfProgramHeader_first (by rw [hphoff]; decide), hphoff]
  have hoffset : pOffset mem (elf + 52) = 0 := by
    rw [pOffset, BitVec.add_assoc]
    exact hwords 14 (by decide)
  have hmemsz : pMemsz mem (elf + 52) = 0xFFFFF000 := by
    rw [pMemsz, BitVec.add_assoc]
    exact hwords 18 (by decide)
  constructor
  · rw [ePhnum, load16_eq_load32, hphnum]
    decide
  · -- the last address wraps around to the page before the image
    refine .inr (.inr (.inr ?_))
    rw [BitVec.lt_def, headerCall, hphdr, hoffset, hmemsz]
    dsimp only
    rw [toNat_alignToLowerPage, toNat_alignAddress]
    have h0' : elf.toNat ≠ 0 := fun h => h0 (BitVec.eq_of_toNat_eq h)
    unfold blockSize at ha
    bv_omega

/-- Beside a task that is there already. -/
theorem failedLoad_besideTask : ∃ k', LoadFails (taskNew (volumeOf endlessFile) 0).1 pathA k' ∧
    LeavesUsed (taskNew (volumeOf endlessFile) 0).1 k' := by
  have hspare : Spare (volumeOf endlessFile).toKmem (2 ^ 17 + 1 + loadRequests + 1027) := spare_volumeOf _ (by decide)
  have hnamed : WellNamed (fileEntry endlessFile) := ⟨by decide, by decide, by decide, by decide⟩
  have hfinds : Finds (volumeOf endlessFile) [fileEntry endlessFile] pathA (fileEntry endlessFile) endlessFile :=
    finds_volumeOf (by decide) (by decide) (rootDirectory_singleton hnamed rfl (by decide +kernel) (by decide +kernel))
      rfl (by unfold IsDirectory; decide)
  have hslot : freeProcess (volumeOf endlessFile) = some 0 := by decide
  generalize volumeOf endlessFile = k at *
  obtain ⟨hspare1, hok⟩ := taskNew_spare hspare 0
  obtain ⟨m, t, r, d, hmade⟩ := taskNew_made (p := 0) hok
  obtain ⟨hdisk, htable⟩ := disk_taskNew k 0
  have hkeeps : k.toKmem.Keeps (taskNew k 0).1.toKmem := by
    rw [hmade.link, taskLink_toKmem]
    exact hmade.task.new.keeps
  have hslot1 : freeProcess (taskNew k 0).1 = some 0 := by
    obtain ⟨_, _, _, _, _, h⟩ := onlyTasks_taskNew k 0
    rw [h]
    exact hslot
  obtain ⟨k', h⟩ := load_unmapped (hfinds.keeps hkeeps hdisk htable) unmappable_endlessFile hslot1 hspare1 (by omega)
  exact ⟨k', h, (failedLoad_leaves h).1⟩

end MultitaskOs.FailedLoad
