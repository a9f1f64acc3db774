import MultitaskOs.ElfLoad
import MultitaskOs.Termination
import MultitaskOs.Translation

/-!
# A load that is granted all it asks for

Where no request is refused and the image is one that `elf_load` accepts, the new
process stands on blocks of its own, and what was in use is as it was.
-/

open Lib Lib.Memory Lib.Arena Lib.Run MultitaskOs.PathParser MultitaskOs.Files MultitaskOs.OpenClose
  MultitaskOs.FatLookup MultitaskOs.Paging MultitaskOs.Tasks MultitaskOs.ProcessMemory MultitaskOs.Isolation
  MultitaskOs.Loading MultitaskOs.ElfMap MultitaskOs.MapMemory MultitaskOs.LoadSteps MultitaskOs.LoadOutcome
  MultitaskOs.ElfLoad MultitaskOs.ProcessTable MultitaskOs.Termination MultitaskOs.Translation MultitaskOs.FileType
  MultitaskOs.FatRead

namespace MultitaskOs.LoadedImage

variable {k k' k1 k2 : Kernel} {s : List Byte} {slot : Nat} {res : Int} {p file a : Addr} {size : BitVec 32} {n : Nat}

/-! ## The image -/

/-- `elf_load` has read an image to `a`, with its record at `file`. -/
structure ImageRead (s : List Byte) (k k' : Kernel) (file a : Addr) (size : BitVec 32) : Prop where
  record : file = (elfRecord k).2
  keeps : k.toKmem.Keeps k'.toKmem
  read : ∃ k2 k3 k4 fd, ReadFile s (elfRecord k).1 k2 k3 k4 fd a size ∧ k'.mem = k4.mem ∧
    k2.heap.failures = (elfRecord k).1.heap.failures
  valid : elfValidateLoaded k'.mem a = 0
  memory : (k'.elfFiles file).elf_memory = a
  file_live : k'.heap.Live file
  image_live : (⟨a, size.toNat⟩ : Block) ∈ k'.heap.live
  file_fresh : ¬ k.heap.Live file
  image_fresh : ¬ k.heap.Live a
  apart : a ≠ file
  others : ∀ f, f ≠ file → k'.elfFiles f = k.elfFiles f

theorem elfLoad_succeeds (hs : NoNul s) (h : elfLoad k (cstr s) = some (k', res, file)) (hres : 0 ≤ res) :
    ∃ k2 k3 k4 fd a size, ReadFile s (elfRecord k).1 k2 k3 k4 fd a size ∧ file = (elfRecord k).2 ∧
      elfValidateLoaded k4.mem a = 0 ∧ (k4.elfFiles file).elf_memory = a ∧
      k' = (fclose (k4.setElf file fun _ => elfProcessPheaders k4.mem (k4.elfFiles file)) fd).1 := by
  have hway := elfLoad_way h
  cases hway with
  | notOpened opened => exact absurd hres (by decide)
  | noStat opened stat => rcases stat with rfl | rfl <;> exact absurd hres (by decide)
  | notRead opened request unread failed => rcases failed with rfl | rfl <;> exact absurd hres (by decide)
  | read read image processed =>
    obtain ⟨hr, hloaded⟩ := elfProcessLoaded_eq processed
    have hmemory := congrArg ElfFile.elf_memory (ReadFile.record hs read image)
    rw [hmemory] at hr
    rw [if_neg (not_lt.mpr hres)]
    exact ⟨_, _, _, _, _, _, read, rfl, elfValidateLoaded_eq_zero (hr ▸ not_lt.mpr hres), hmemory,
      by rw [hloaded (not_lt.mpr hres)]⟩

theorem elfRecord_failures (k : Kernel) :
    (elfRecord k).1.heap.failures = (kzalloc k.toKmem sizeofElfFile).1.heap.failures := by
  rw [elfRecord_heap]

theorem read_granted {k2 k3 k4 : Kernel} {fd : Int} (hs : NoNul s)
    (h : ReadFile s (elfRecord k).1 k2 k3 k4 fd a size) (hok : k4.heap.failures = k.heap.failures) :
    (elfRecord k).2 ≠ 0 ∧ a ≠ 0 ∧ k2.heap.failures = (elfRecord k).1.heap.failures := by
  have hrecord := (loadKeeps_elfRecord k).count
  have hopen := (loadKeeps_fopen hs h.opened).count
  have hrequest := kzalloc_failures_le k2.toKmem size.toNat
  have hread : k4.heap = k3.heap := by
    obtain ⟨⟨_, _, rfl, -, -⟩, -⟩ := fread_cases h.read
    rfl
  rw [h.request, ← hread] at hrequest
  unfold Counts at hrecord hopen
  refine ⟨?_, ?_, by omega⟩
  · exact (kzalloc_ok (k := k.toKmem) sizeofElfFile (by rw [← elfRecord_failures]; omega)).ne_zero
  · have hf := kzalloc_ok (k := k2.toKmem) size.toNat (by rw [h.request, ← hread]; omega)
    rw [h.request] at hf
    exact hf.ne_zero

theorem elfLoad_granted (hs : NoNul s) (h : elfLoad k (cstr s) = some (k', res, file)) (hres : 0 ≤ res)
    (hok : k'.heap.failures = k.heap.failures) : ∃ a size, ImageRead s k k' file a size := by
  have hrec := loadKeeps_elfRecord k
  have hkeeps := (elfLoad_cases hs h).1
  have hothers := fun f hf => elfFiles_elfLoad hs h (f := f) hf
  obtain ⟨k2, k3, k4, fd, a, size, hfile, rfl, hvalid, hmemory, hk'⟩ := elfLoad_succeeds hs h hres
  obtain ⟨heap, table, heq, hheap⟩ := fclose_only
    (k4.setElf (elfRecord k).2 fun _ => elfProcessPheaders k4.mem (k4.elfFiles (elfRecord k).2)) fd
  rw [← hk'] at heq
  have hfail : k'.heap.failures = k4.heap.failures := by
    rw [heq]
    exact hheap
  obtain ⟨hrecord, ha, hopen⟩ := read_granted hs hfile (hfail ▸ hok)
  have hlive := (elfRecord_fresh hrecord).isLive
  have hmem : k'.mem = k4.mem := by rw [heq]; rfl
  refine ⟨a, size, rfl, (hrec.trans hkeeps).keeps hok, ⟨k2, k3, k4, fd, hfile, hmem, hopen⟩, ?_, ?_,
    hkeeps.isLive hlive, ?_, (elfRecord_fresh hrecord).not_live, fun h => hfile.not_live hs (hrec.isLive h), ?_,
    hothers⟩
  · rw [hmem]
    exact hvalid
  · rw [heq]
    show (Function.update k4.elfFiles (elfRecord k).2 _ (elfRecord k).2).elf_memory = a
    rw [Function.update_self, elf_memory_processPheaders, hmemory]
  · rw [hk']
    exact hfile.mem_live hs ha ⟨rfl, rfl, rfl, rfl⟩ rfl
  · rintro rfl
    exact hfile.not_live hs hlive

theorem processLoadData_granted (hs : NoNul s) (h : processLoadData k (cstr s) p = some (k', res)) (hres : 0 ≤ res)
    (hok : k'.heap.failures = k.heap.failures) (helf : (k'.procs p).elf_file = (elfRecord k).2) :
    ∃ k1 a size, ImageRead s k k1 (elfRecord k).2 a size ∧
      k' = k1.setProc p fun q => { q with filetype := processFiletypeElf, ptr := (elfRecord k).2 } := by
  have hway := processLoadData_way hs h
  cases hway with
  | failed keeps others neg => omega
  | elf load =>
    obtain ⟨a, size, hread⟩ := elfLoad_granted hs load le_rfl hok
    exact ⟨_, a, size, hread, rfl⟩
  | @raw k0 k1 _ b n refused read =>
    -- the image is read to a block that was not in use beside the record
    rw [Kernel.setProc_self] at helf
    have hkeeps := (elfLoad_cases hs refused).1
    have hcount0 := (loadKeeps_elfRecord k).count
    have hcount1 := hkeeps.count
    have hcount2 := read.keeps.count
    unfold Counts at hcount0 hcount1 hcount2
    have hfail : k1.heap.failures = k.heap.failures := hok
    have hgranted := kzalloc_ok (k := k.toKmem) sizeofElfFile (by rw [← elfRecord_failures]; omega)
    have hlive := hkeeps.isLive (elfRecord_fresh hgranted.ne_zero).isLive
    exact absurd ((show b = (elfRecord k).2 from helf) ▸ hlive) (read.not_live hs)

/-! ## Up to the task -/

/-- What a process stands on beside its record, its task and its directory. -/
def estate (k : Kernel) (p : Addr) : List Addr := [(k.procs p).elf_file, imageOf k p, (k.procs p).stack]

/-- The `n` bytes at `a` are the content of the entry that `found` is, which is the one that `s` names
on the volume of `k`. -/
def FromFile (s : List Byte) (k : Kernel) (found : Option Entry) (m : Mem) (a : Addr) (n : Nat) : Prop :=
  k.disk.sector_size = 512 → 0 < clusterBytes k → ∃ e, found = some e ∧
    (∀ root, RootDirectory k root → Names s root e) ∧
    ∀ content, HoldsFile k e content → n = content.length ∧ readBytes m a n = content

/-- The entry that the load finds for its path. -/
def loadedEntry (k : Kernel) (s : List Byte) : Option Entry :=
  openedEntry (elfRecord (withRecord k (kzalloc k.toKmem sizeofProcess).1 (kzalloc k.toKmem sizeofProcess).2)).1 s

/-- In `k1` the load has all that `task_new` is given, on new blocks. -/
structure Ready (s : List Byte) (k k1 : Kernel) (p : Addr) (n : Nat) : Prop where
  keeps : k.toKmem.Keeps k1.toKmem
  frame : LoadFrame p k k1
  filetype : (k1.procs p).filetype = processFiletypeElf
  valid : elfValidateLoaded k1.mem (imageOf k1 p) = 0
  image : (⟨imageOf k1 p, n⟩ : Block) ∈ k1.heap.live
  stack : (⟨(k1.procs p).stack, userProgramStackSize⟩ : Block) ∈ k1.heap.live
  live : ∀ b ∈ p :: estate k1 p, k1.heap.Live b
  fresh : ∀ b ∈ p :: estate k1 p, ¬ k.heap.Live b
  nodup : (p :: estate k1 p).Nodup
  others : ∀ f, f ≠ (k1.procs p).elf_file → k1.elfFiles f = k.elfFiles f
  empty : ∀ i, (allocation k1 p i).ptr = 0
  content : FromFile s k (loadedEntry k s) k1.mem (imageOf k1 p) n

theorem rootDirectory_withRecord {root : List Entry} {m : Kmem} (h : kzalloc k.toKmem sizeofProcess = (m, p))
    (hroot : RootDirectory k root) : RootDirectory (withRecord k m p) root := by
  have hkeeps := kzalloc_keeps k.toKmem sizeofProcess
  rw [h] at hkeeps
  exact hroot.of_keeps hkeeps rfl

theorem ImageRead.content (hs : NoNul s) (h : ImageRead s k k' file a size) :
    FromFile s k (openedEntry (elfRecord k).1 s) k'.mem a size.toNat := by
  intro hsec hspc
  obtain ⟨k2, k3, k4, fd, hread, hmem, hok⟩ := h.read
  obtain ⟨_, _, _, _, _, _, _, _, _, _, heq, hvol⟩ := (loadKeeps_elfRecord k).only
  have hdisk : SameDisk k (elfRecord k).1 := by
    rw [heq]
    exact ⟨rfl, hvol⟩
  refine ⟨entryOf k2 fd, ReadFile.openedEntry hread, fun root hroot =>
    ReadFile.names hs hread hok (rootDirectory_elfRecord hroot), fun content hholds => ?_⟩
  obtain ⟨hsize, hbytes⟩ := readFile_content (by rw [hdisk.1, hsec]) (by rw [clusterBytes_congr hdisk]; exact hspc) hs
    hread (hholds.congr hdisk)
  exact ⟨hsize, by rw [hsize, hmem, hbytes]⟩

theorem counts_processLoadData (hs : NoNul s) (h : processLoadData k (cstr s) p = some (k', res)) : Counts k k' := by
  obtain ⟨k1, _, _, _, hkeeps, rfl, -⟩ := processLoadData_record hs h
  exact hkeeps.count

theorem counts_prepared (hs : NoNul s) (h : Prepared k s slot k1 p) : Counts k k1 :=
  (prepared_newProcess hs h).frame.count

section Read

variable {m : Kmem} {ki : Kernel} {stack : Addr} (hp : Fresh k.toKmem m p sizeofProcess)
  (hread : ImageRead s (withRecord k m p) ki file a size)
  (hstack : Stacked (ki.setProc p fun q => { q with filetype := processFiletypeElf, ptr := file }) k1 p stack)

include hread hstack in
theorem estate_read : estate k1 p = [file, a, stack] := by
  obtain ⟨_, _, hrecord⟩ := hstack.record
  rw [Kernel.setProc_self] at hrecord
  rw [estate, imageOf, Process.elf_file, hrecord, hstack.elfFiles]
  exact congrArg (fun x => [file, x, stack]) hread.memory

include hp hread hstack in
theorem live_read : ∀ b ∈ [p, file, a, stack], k1.heap.Live b := by
  have hkeeps : ki.toKmem.Keeps k1.toKmem := hstack.fresh.keeps
  simp only [List.mem_cons, List.not_mem_nil, or_false]
  rintro b (rfl | rfl | rfl | rfl)
  · exact hkeeps.isLive (hread.keeps.isLive hp.isLive)
  · exact hkeeps.isLive hread.file_live
  · exact hkeeps.isLive ⟨_, hread.image_live⟩
  · exact hstack.fresh.isLive

include hp hread hstack in
theorem fresh_read : ∀ b ∈ [p, file, a, stack], ¬ k.heap.Live b := by
  have hkeeps : k.toKmem.Keeps m := hp.keeps
  simp only [List.mem_cons, List.not_mem_nil, or_false]
  rintro b (rfl | rfl | rfl | rfl)
  · exact hp.not_live
  · exact fun h => hread.file_fresh (hkeeps.isLive h)
  · exact fun h => hread.image_fresh (hkeeps.isLive h)
  · exact fun h => hstack.fresh.not_live (hread.keeps.isLive (hkeeps.isLive h))

include hp hread hstack in
theorem nodup_read : [p, file, a, stack].Nodup := by
  have hlive : (withRecord k m p).heap.Live p := hp.isLive
  have hne : ∀ {b}, ki.heap.Live b → b ≠ stack := fun hb he => hstack.fresh.not_live (he ▸ hb)
  have h1 : p ≠ file := fun he => hread.file_fresh (he ▸ hlive)
  have h2 : p ≠ a := fun he => hread.image_fresh (he ▸ hlive)
  simp [h1, h2, hne (hread.keeps.isLive hlive), hread.apart.symm, hne hread.file_live, hne ⟨_, hread.image_live⟩]

include hread hstack in
theorem valid_read : elfValidateLoaded k1.mem a = 0 := by
  have hkeeps : ki.toKmem.Keeps k1.toKmem := hstack.fresh.keeps
  rw [← hread.valid]
  refine elfValidateLoaded_congr fun i hi => (hkeeps.page ⟨_, hread.image_live⟩) _ ?_
  unfold Within blockSize
  rw [BitVec.add_comm, BitVec.add_sub_cancel, BitVec.toNat_ofNat]
  omega

include hread hstack in
theorem content_read (hs : NoNul s) (hrecord : kzalloc k.toKmem sizeofProcess = (m, p)) :
    FromFile s k (loadedEntry k s) k1.mem a size.toNat := by
  have hkeeps : ki.toKmem.Keeps k1.toKmem := hstack.fresh.keeps
  intro hsec hspc
  obtain ⟨e, hentry, hnames, hcontent⟩ := hread.content hs hsec hspc
  refine ⟨e, ?_, fun root hroot => hnames root (rootDirectory_withRecord hrecord hroot), fun content hholds => ?_⟩
  · rw [loadedEntry, hrecord]
    exact hentry
  obtain ⟨hsize, hbytes⟩ := hcontent content (hholds.congr ⟨rfl, rfl, rfl⟩)
  exact ⟨hsize, (hkeeps.readBytes_eq hread.image_live).trans hbytes⟩

end Read

theorem prepared_ready (hs : NoNul s) (h : Prepared k s slot k1 p) (hok : k1.heap.failures = k.heap.failures)
    (helf : (k1.procs p).elf_file = elfFileOf k) : ∃ n, Ready s k k1 p n := by
  have hnew := prepared_newProcess hs h
  have hempty := prepared_allocation hs h
  obtain ⟨m, kd, stack, res, record, granted, data, hloaded, hstack⟩ := prepared_stacked h
  have hp := fresh_of_eq record granted
  have hcount := counts_processLoadData hs data
  have hfail1 : k.heap.failures ≤ m.heap.failures := by simpa [record] using kzalloc_failures_le k.toKmem sizeofProcess
  have hfail2 := hstack.count
  have hfile : (elfRecord (withRecord k m p)).2 = elfFileOf k := by
    unfold elfFileOf
    rw [record]
    rfl
  have hfiled : (k1.procs p).elf_file = (kd.procs p).elf_file := by
    obtain ⟨_, _, hrecord⟩ := hstack.record
    rw [hrecord]
    rfl
  have hgranted : kd.heap.failures = (withRecord k m p).heap.failures := by
    unfold Counts at hcount hfail2
    have hm : (withRecord k m p).heap.failures = m.heap.failures := rfl
    omega
  obtain ⟨ki, a, size, hread, rfl⟩ := processLoadData_granted hs data (not_lt.mp hloaded) hgranted
    (hfiled.symm.trans (helf.trans hfile.symm))
  have hestate := estate_read hread hstack
  obtain ⟨hfile1, himage1, -⟩ : (k1.procs p).elf_file = _ ∧ imageOf k1 p = a ∧ (k1.procs p).stack = stack := by
    simpa [estate] using hestate
  have hki : ki.toKmem.Keeps k1.toKmem := hstack.fresh.keeps
  have hkm : k.toKmem.Keeps (withRecord k m p).toKmem := hp.keeps
  refine ⟨size.toNat, ⟨(hkm.trans hread.keeps).trans hki, hnew.frame, hnew.filetype, ?_, ?_, hnew.stack, ?_, ?_, ?_,
    fun f hf => ?_, hempty, ?_⟩⟩
  · rw [himage1]
    exact valid_read hread hstack
  · rw [himage1]
    exact hki.live _ hread.image_live
  · rw [hestate]
    exact live_read hp hread hstack
  · rw [hestate]
    exact fresh_read hp hread hstack
  · rw [hestate]
    exact nodup_read hp hread hstack
  · rw [hfile1] at hf
    rw [hstack.elfFiles]
    exact hread.others f hf
  · rw [himage1]
    exact content_read hread hstack hs record

/-! ## The links of the task list -/

/-- The task but for its place in the list. -/
def Relinked (t t' : Task) : Prop := ∃ next prev, t' = { t with next, prev }

theorem Relinked.refl (t : Task) : Relinked t t := ⟨_, _, rfl⟩

theorem Relinked.trans {t1 t2 t3 : Task} (h : Relinked t1 t2) (h' : Relinked t2 t3) : Relinked t1 t3 := by
  obtain ⟨_, _, rfl⟩ := h
  obtain ⟨next, prev, rfl⟩ := h'
  exact ⟨next, prev, rfl⟩

theorem relinked_setTask (k : Kernel) (t a : Addr) {f : Task → Task} (hf : ∀ x, Relinked x (f x)) :
    Relinked (k.tasks a) ((k.setTask t f).tasks a) := by
  rw [setTask_tasks]
  split
  · rename_i h
    exact h ▸ hf _
  · exact Relinked.refl _

theorem relinked_taskLink (k : Kernel) (t a : Addr) : Relinked (k.tasks a) ((taskLink k t).tasks a) := by
  unfold taskLink
  dsimp only
  split
  · exact Relinked.refl _
  · exact (relinked_setTask k _ a fun _ => ⟨_, _, rfl⟩).trans (relinked_setTask _ t a fun _ => ⟨_, _, rfl⟩)

theorem relinked_taskListRemove (k : Kernel) (t a : Addr) : Relinked (k.tasks a) ((taskListRemove k t).tasks a) := by
  have hset := fun u => relinked_setTask k u a (f := fun x => { x with next := (k.tasks t).next }) fun _ => ⟨_, _, rfl⟩
  unfold taskListRemove
  dsimp only
  split_ifs
  all_goals first | exact Relinked.refl _ | exact hset _

theorem mem_taskFree (k : Kernel) (t : Addr) : (taskFree k t).mem = k.mem := by
  obtain ⟨_, hf, -⟩ := pagingFree4gb_gives k.toKmem (k.tasks t).page_directory
  have hmem := (hf.kfree t).mem_eq
  rw [taskFree_eq]
  generalize kfree (pagingFree4gb k.toKmem (k.tasks t).page_directory) t = m at hmem ⊢
  exact hmem

theorem relinked_taskFree (k : Kernel) (t a : Addr) : Relinked (k.tasks a) ((taskFree k t).tasks a) := by
  rw [taskFree_eq]
  exact relinked_taskListRemove k t a

/-! ## The task -/

/-- The registers that `task_init` gives a task. -/
def initialRegisters (k : Kernel) (process : Addr) : Registers :=
  { zeroRegisters with
    ip := if (k.procs process).filetype = processFiletypeElf then elfEntry k (k.procs process).elf_file
      else programVirtualAddress
    ss := userDataSegment
    cs := userCodeSegment
    esp := programVirtualStackAddressStart }

/-- What `task_new` makes, with the directory's own entries and the registers. -/
structure TaskMade (k : Kernel) (process : Addr) (m : Kmem) (t : Addr) (r : Task) (d : PageDir) : Prop where
  task : NewTask k m t r d
  points : Points d m.mem 5
  registers : r.registers = initialRegisters { k with toKmem := m } process
  owner : r.process = process
  link : taskNew k process = (taskLink { k with toKmem := m, tasks := Function.update k.tasks t r } t, t)

theorem taskNew_made (h : TaskGranted k p) : ∃ m t r d, TaskMade k p m t r d := by
  unfold TaskGranted at h
  obtain ⟨⟨m1, t⟩, h1⟩ : ∃ r, kzalloc k.toKmem sizeofTask = r := ⟨_, rfl⟩
  obtain ⟨⟨m, chunk⟩, h2⟩ : ∃ r, pagingNew4gb m1 5 = r := ⟨_, rfl⟩
  have hle1 := kzalloc_failures_le k.toKmem sizeofTask
  have hle2 := pagingNew4gb_failures_le m1 5
  rw [h1] at hle1
  rw [h2] at hle2
  dsimp only at hle1 hle2
  have ht : t ≠ 0 := by
    rintro rfl
    rw [taskNew_failed_alloc h1, taskFree_failures] at h
    have hcases := kzalloc_cases k.toKmem sizeofTask
    rw [h1] at hcases
    rcases hcases with ⟨-, -, -, hf⟩ | ⟨h0, -⟩
    · dsimp only at h hf
      omega
    · exact h0 rfl
  have hfail := (taskNew_failures p h1 ht h2).symm.trans h
  have hf := fresh_of_eq h1 ht
  have hok : (pagingNew4gb m1 5).1.heap.failures = m1.heap.failures := by
    rw [h2]
    dsimp only
    omega
  obtain ⟨d, hd, hn⟩ := pagingNew4gb_spec hok
  have hpoints := pagingNew4gb_points hok hd hn.inMem.holds
  rw [h2] at hd hn hpoints
  dsimp only at hd
  have hc : chunk ≠ 0 := hd ▸ Kmem.live_ne_zero (hn.inMem.live _ PageDir.chunk_mem)
  have hk : ({ k with toKmem := m1 } : Kernel).onKmem (pagingNew4gb · 5) = ({ k with toKmem := m }, chunk) :=
    Kernel.onKmem_eq h2
  refine ⟨m, t, ⟨chunk, initialRegisters { k with toKmem := m } p, p, 0, 0⟩, d,
    ⟨⟨hn.of_keeps hf.keeps, hn.keeps.isLive hf.isLive, hf.not_live,
      fun hb => hn.fresh t hb hf.isLive, hd.symm, rfl, rfl⟩, hpoints, rfl, rfl, ?_⟩⟩
  have hinit : taskInit { k with toKmem := m1 } t p = (({ k with toKmem := m } : Kernel).setTask t fun _ =>
      ⟨chunk, initialRegisters { k with toKmem := m } p, p, 0, 0⟩, 0) := by
    rw [taskInit, hk]
    dsimp only
    rw [if_neg hc]
    rfl
  rw [taskNew, Kernel.onKmem_eq h1]
  dsimp only
  rw [if_neg ht, hinit]
  rfl

/-! ## The mapping -/

theorem remap_keeps {m0 m : Kmem} {d : PageDir} {flags : BitVec 32} {mem : Mem} {g : Nat → Option (BitVec 32)}
    (hnew : New m0 m d flags) (hr : Remap d m.mem mem g) : m0.Keeps { m with mem } := by
  refine ⟨hnew.keeps.live, fun b hb => (hnew.keeps.bytes b hb).trans (hr.agree fun i hi => ?_)⟩
  obtain ⟨size, ht⟩ := hnew.inMem.live _ (d.table_mem hi)
  have hne : d.table i ≠ b.base := fun he => hnew.fresh _ (d.table_mem hi) (he ▸ ⟨b.size, hb⟩)
  have hap := Kmem.live_apart ht (hnew.keeps.live b hb) hne
  have hpage : 4096 ≤ extent blockSize size := le_extent size
  have hpos : 4096 ≤ extent blockSize b.size := le_extent b.size
  exact hap.sub (by simpa using hpage) (by simp) (by decide) (by omega)

/-- The two memories hold the same program headers of the image at `elf`. -/
structure SameHeaders (m m' : Mem) (elf : Addr) : Prop where
  count : ePhnum m' elf = ePhnum m elf
  table : ePhoff m' elf = ePhoff m elf
  header : ∀ i, elfProgramHeader m' elf i = elfProgramHeader m elf i
  field : ∀ i < (ePhnum m elf).toNat, ∀ c : BitVec 32, c.toNat ≤ 28 →
    load32 m' (elfProgramHeader m elf i + c) = load32 m (elfProgramHeader m elf i + c)

theorem HeadersInside.same {m m' : Mem} {elf : Addr} (h : HeadersInside m elf n) (h0 : ePhoff m elf ≠ 0)
    (hp : (⟨elf, n⟩ : Block).Placed blockSize) (hag : Agree m m' elf (extent blockSize n)) : SameHeaders m m' elf := by
  have hend := hp.2.2
  have hpage : 4096 ≤ extent blockSize n := le_extent n
  have htable := h.table
  dsimp only at hend
  have hoff := ePhoff_image hag
  refine ⟨ePhnum_image hag, hoff, fun i => by rw [elfProgramHeader, elfPheader, hoff]; rfl, fun i hi c hc => ?_⟩
  have hplace := header_offset h0 (i := i) (by unfold sizeofElf32Phdr at *; omega)
  have hag' : Agree m m' (elfProgramHeader m elf i) sizeofElf32Phdr := by
    refine hag.sub ?_
    unfold sizeofElf32Phdr at *
    omega
  refine (hag'.sub ?_).load32
  have : (elfProgramHeader m elf i + c - elfProgramHeader m elf i).toNat = c.toNat := by bv_omega
  unfold sizeofElf32Phdr
  omega

section SameHeaders

variable {m m' : Mem} {elf : Addr} {i : Nat}

theorem SameHeaders.fields (h : SameHeaders m m' elf) (hi : i < (ePhnum m elf).toNat) :
    pOffset m' (elfProgramHeader m elf i) = pOffset m (elfProgramHeader m elf i) ∧
      pVaddr m' (elfProgramHeader m elf i) = pVaddr m (elfProgramHeader m elf i) ∧
      pMemsz m' (elfProgramHeader m elf i) = pMemsz m (elfProgramHeader m elf i) ∧
      pFlags m' (elfProgramHeader m elf i) = pFlags m (elfProgramHeader m elf i) :=
  ⟨h.field i hi 4 (by decide), h.field i hi 8 (by decide), h.field i hi 20 (by decide), h.field i hi 24 (by decide)⟩

theorem HeadersInside.agree (h : HeadersInside m elf n) (hs : SameHeaders m m' elf) : HeadersInside m' elf n := by
  constructor
  · rw [hs.table, hs.count]
    exact h.table
  · intro i hi
    rw [hs.count] at hi
    obtain ⟨ho, -, hz, -⟩ := hs.fields hi
    rw [hs.header, ho, hz]
    exact h.segments i hi

theorem SameHeaders.touches (h : SameHeaders m m' elf) (hi : i < (ePhnum m elf).toNat) (q : Nat) :
    Touches m' (elfProgramHeader m' elf i) q ↔ Touches m (elfProgramHeader m elf i) q := by
  obtain ⟨-, hv, hz, -⟩ := h.fields hi
  unfold Touches InSegment
  rw [h.header, hv, hz]

theorem Segments.agree (h : Segments m elf) (hs : SameHeaders m m' elf) : Segments m' elf := by
  refine ⟨fun i hi => ?_, fun i hi j hj hij q => ?_, fun i hi q => ?_⟩
  all_goals rw [hs.count] at hi
  · obtain ⟨ho, hv, hz, -⟩ := hs.fields hi
    have hmap := h.mappable i hi
    rw [hs.header]
    exact ⟨by rw [hz]; exact hmap.size, by rw [hv, ho]; exact hmap.congruent, by rw [hv, hz]; exact hmap.virt_end,
      by rw [ho, hz]; exact hmap.phys_end⟩
  · rw [hs.count] at hj
    rw [hs.touches hi, hs.touches hj]
    exact h.disjoint i hi j hj hij q
  · rw [hs.touches hi]
    exact h.stack i hi q

theorem SameHeaders.call (h : SameHeaders m m' elf) (hi : i < (ePhnum m elf).toNat) :
    headerCall m' elf (elfProgramHeader m' elf i) = headerCall m elf (elfProgramHeader m elf i) := by
  obtain ⟨ho, hv, hz, hf⟩ := h.fields hi
  rw [h.header, headerCall, headerCall, phdrFlags, phdrFlags, ho, hv, hz, hf]

theorem SameHeaders.calls (h : SameHeaders m m' elf) :
    headerCalls m' elf (ePhnum m' elf).toNat = headerCalls m elf (ePhnum m elf).toNat := by
  rw [h.count, headerCalls, headerCalls]
  exact List.map_congr_left fun i hi => h.call (List.mem_range.mp hi)

end SameHeaders

theorem stackCall_inImage {stack : Addr} {q : Nat} {e : BitVec 32}
    (hp : (⟨stack, userProgramStackSize⟩ : Block).Placed blockSize) (hq : q < 2 ^ 20)
    (he : (stackCall stack).entry q = some e) : InImage stack userProgramStackSize (tableAddress e) := by
  obtain ⟨-, ha, hend⟩ := hp
  have hsize : userProgramStackSize = 16384 := rfl
  have hext : extent blockSize userProgramStackSize = 16384 := by decide
  have ha' : stack.toNat % 4096 = 0 := ha
  dsimp only at hend
  rw [hext] at hend
  have hroom : stack.toNat + userProgramStackSize < 2 ^ 32 := by
    have hrej : ¬ (stackCall stack).Rejected := by
      intro hrej
      rw [MapCall.entry, if_pos hrej] at he
      cases he
    rw [stackCall_rejected_iff ha' (by omega)] at hrej
    omega
  rw [StackAt.entry ⟨ha', hroom⟩ hq] at he
  split at he
  · rename_i hpage
    cases he
    have hstart : programVirtualStackAddressEnd.toNat = 0x3FB000 := by decide
    have hframe : (stack + (BitVec.ofNat 32 (4096 * q) - programVirtualStackAddressEnd)).toNat =
        stack.toNat + 4096 * (q - 0x3FB) := by
      obtain ⟨h1, h2⟩ := hpage
      bv_omega
    rw [tableAddress_or (by rw [hframe]; omega) (by decide)]
    unfold InImage
    rw [hframe, hext]
    obtain ⟨h1, h2⟩ := hpage
    omega
  · cases he

/-! ## The whole load -/

/-- The load is granted all it asks for, its image is one that `elf_load` accepts, and the headers of
the image end inside it. -/
structure LoadsImage (k : Kernel) (s : List Byte) (k' : Kernel) (p : Addr) : Prop where
  noNul : NoNul s
  loads : ∃ res, processLoad k (cstr s) = some (k', res, p) ∧ 0 ≤ res
  granted : k'.heap.failures = k.heap.failures
  elf : (k'.procs p).elf_file = elfFileOf k
  inside : ∀ n, (⟨imageOf k' p, n⟩ : Block) ∈ k'.heap.live → HeadersInside k'.mem (imageOf k' p) n

/-- The process `p` has joined those of `k`: all it stands on is new, and it can write its image and
its stack at most. -/
structure Joined (k k' : Kernel) (p : Addr) (d : PageDir) (n : Nat) : Prop where
  settled : Settled k k' p d
  filetype : (k'.procs p).filetype = processFiletypeElf
  owner : (k'.tasks (k'.procs p).task).process = p
  links : ∀ a, k.heap.Live a → Relinked (k.tasks a) (k'.tasks a)
  points : Points d k'.mem 5
  image : (⟨imageOf k' p, n⟩ : Block) ∈ k'.heap.live
  stack : (⟨(k'.procs p).stack, userProgramStackSize⟩ : Block) ∈ k'.heap.live
  estate_live : ∀ b ∈ estate k' p, k'.heap.Live b
  estate_fresh : ∀ b ∈ estate k' p, ¬ k.heap.Live b
  estate_fixed : ∀ b ∈ estate k' p, b ∉ p :: (k'.procs p).task :: d.blocks
  estate_nodup : (estate k' p).Nodup
  files : ∀ f, k.heap.Live f → k'.elfFiles f = k.elfFiles f
  rights : ∀ v < 2 ^ 20, Writeable (pageEntry k' p v) → InImage (imageOf k' p) n (tableAddress (pageEntry k' p v)) ∨
    InImage (k'.procs p).stack userProgramStackSize (tableAddress (pageEntry k' p v))

theorem estate_congr (h : ∃ task, k'.procs p = { k.procs p with task }) (hf : k'.elfFiles = k.elfFiles) :
    estate k' p = estate k p := by
  obtain ⟨task, h⟩ := h
  unfold estate imageOf Process.elf_file
  rw [h, hf]

/-- After the preparation in `k1`: the task, its directory, and what is mapped there. -/
structure Mapped (k1 k2 : Kernel) (p : Addr) (m : Kmem) (t : Addr) (r : Task) (d : PageDir) : Prop where
  made : TaskMade k1 p m t r d
  heap : k2.heap = m.heap
  remap : ∃ g, Remap d m.mem k2.mem g
  record : k2.procs p = { k1.procs p with task := t }
  others : ∀ q, q ≠ p → k2.procs q = k1.procs q
  files : k2.elfFiles = k1.elfFiles
  tasks : k2.tasks = (taskLink { k1 with toKmem := m, tasks := Function.update k1.tasks t r } t).tasks
  directory : pageDirectory k2 p = d.chunk

theorem taskMade_withTask {m : Kmem} {t : Addr} {r : Task} {d : PageDir} (h : TaskMade k1 p m t r d) :
    (withTask k1 p).toKmem = m ∧ (withTask k1 p).procs p = { k1.procs p with task := t } ∧
      (withTask k1 p).tasks = (taskLink { k1 with toKmem := m, tasks := Function.update k1.tasks t r } t).tasks ∧
      pageDirectory (withTask k1 p) p = d.chunk := by
  have htasks : (withTask k1 p).tasks = (taskNew k1 p).1.tasks := rfl
  have hrecord := procs_withTask_self k1 p
  rw [h.link] at htasks hrecord
  refine ⟨?_, hrecord, htasks, ?_⟩
  · unfold withTask
    rw [h.link]
    exact taskLink_toKmem _ t
  · rw [pageDirectory, hrecord, htasks]
    dsimp only
    rw [taskLink_page_directory]
    dsimp only
    rw [Function.update_self, h.task.page_directory]

theorem mapped_of_map (hok : TaskGranted k1 p) (map : processMapMemory (withTask k1 p) p = some (k2, res)) :
    ∃ m t r d, Mapped k1 k2 p m t r d := by
  obtain ⟨m, t, r, d, hmade⟩ := taskNew_made hok
  obtain ⟨htoKmem, hrecord, htasks, hdir⟩ := taskMade_withTask hmade
  have hothers : ∀ q, q ≠ p → (withTask k1 p).procs q = k1.procs q := by
    intro q hq
    obtain ⟨_, _, _, _, _, h⟩ := onlyTasks_taskNew k1 p
    unfold withTask
    rw [h]
    exact Function.update_of_ne hq _ _
  have hfiles := elfFiles_withTask k1 p
  generalize withTask k1 p = kt at map htoKmem hrecord htasks hdir hothers hfiles
  have hcalls := processMapMemory_calls map
  have hmem : kt.mem = m.mem := congrArg Kmem.mem htoKmem
  have hheap : kt.heap = m.heap := congrArg Kmem.heap htoKmem
  have hremap := run_mapCall_spec (d := d) (m := kt.mem) (by rw [hmem]; exact hmade.task.new.inMem.holds)
    (memoryCalls kt p res)
  rw [hdir] at hcalls
  generalize run (mapCall d.chunk) kt.mem (memoryCalls kt p res) = mem at hcalls hremap
  rw [hmem] at hremap
  subst hcalls
  exact ⟨m, t, r, d, hmade, hheap, ⟨_, hremap⟩, hrecord, hothers, hfiles, htasks, hdir⟩

section Mapped

variable {m : Kmem} {t : Addr} {r : Task} {d : PageDir}

theorem Mapped.toKmem (h : Mapped k1 k2 p m t r d) : k2.toKmem = { m with mem := k2.mem } := by rw [← h.heap]

theorem Mapped.keeps (h : Mapped k1 k2 p m t r d) : k1.toKmem.Keeps k2.toKmem := by
  obtain ⟨g, hr⟩ := h.remap
  rw [h.toKmem]
  exact remap_keeps h.made.task.new hr

theorem Mapped.estate (h : Mapped k1 k2 p m t r d) : estate k2 p = estate k1 p := estate_congr ⟨t, h.record⟩ h.files

theorem Mapped.image (h : Mapped k1 k2 p m t r d) : imageOf k2 p = imageOf k1 p := by
  unfold imageOf Process.elf_file
  rw [h.record, h.files]

theorem Mapped.settled (h : Mapped k1 k2 p m t r d) (hready : Ready s k k1 p n) : Settled k k2 p d := by
  have hn := h.made.task
  obtain ⟨g, hr⟩ := h.remap
  have hfixed : p :: (k2.procs p).task :: d.blocks = p :: t :: d.blocks := by rw [h.record]
  refine ⟨hready.keeps.trans h.keeps, hr.holds, h.directory, ?_, ?_, ?_, ?_, ?_⟩
  · rw [hfixed, h.heap]
    simp only [List.mem_cons]
    rintro b (rfl | rfl | hb)
    · exact hn.new.keeps.isLive (hready.live _ List.mem_cons_self)
    · exact hn.live
    · exact hn.new.inMem.live b hb
  · rw [hfixed]
    simp only [List.mem_cons]
    rintro b (rfl | rfl | hb)
    · exact hready.fresh _ List.mem_cons_self
    · exact fun hl => hn.fresh (hready.keeps.isLive hl)
    · exact fun hl => hn.new.fresh b hb (hready.keeps.isLive hl)
  · intro i
    rw [allocation, h.record]
    exact hready.empty i
  · intro q hq
    rw [h.others q hq]
    exact hready.frame.procs q hq
  · intro a ha
    have hne : a ≠ t := fun he => hn.fresh (he ▸ hready.keeps.isLive ha)
    rw [h.tasks, taskLink_page_directory]
    dsimp only
    rw [Function.update_of_ne hne, hready.frame.tasks]

theorem Mapped.links (h : Mapped k1 k2 p m t r d) (ha : k1.heap.Live a) : Relinked (k1.tasks a) (k2.tasks a) := by
  have hne : a ≠ t := by
    rintro rfl
    exact h.made.task.fresh ha
  rw [h.tasks]
  refine Relinked.trans ?_ (relinked_taskLink _ t a)
  dsimp only
  rw [Function.update_of_ne hne]
  exact Relinked.refl _

theorem Mapped.image_agree (h : Mapped k1 k2 p m t r d) (hready : Ready s k k1 p n) :
    Agree k2.mem m.mem (imageOf k1 p) (extent blockSize n) := fun x hx =>
  (h.made.task.new.keeps.bytes _ hready.image x hx).trans (h.keeps.bytes _ hready.image x hx).symm

theorem Mapped.accepted (h : Mapped k1 k2 p m t r d) (hready : Ready s k k1 p n) :
    elfValidateLoaded m.mem (imageOf k1 p) = 0 := by
  rw [← hready.valid]
  refine elfValidateLoaded_congr fun i hi => h.made.task.new.keeps.page ⟨_, hready.image⟩ _ ?_
  unfold Within blockSize
  rw [BitVec.add_comm, BitVec.add_sub_cancel, BitVec.toNat_ofNat]
  omega

theorem Mapped.sameHeaders (h : Mapped k1 k2 p m t r d) (hready : Ready s k k1 p n)
    (hinside : HeadersInside k2.mem (imageOf k1 p) n) : SameHeaders k2.mem m.mem (imageOf k1 p) := by
  have hagree := h.image_agree hready
  refine HeadersInside.same hinside ?_ (k1.heap.placed _ hready.image) hagree
  have hm := ePhoff_ne_zero (not_lt.mpr (h.accepted hready).ge)
  have hload : load32 m.mem (imageOf k1 p + 28) = load32 k2.mem (imageOf k1 p + 28) := by
    refine (hagree.sub ?_).load32
    have hpage : 4096 ≤ extent blockSize n := le_extent n
    bv_omega
  unfold ePhoff at hm ⊢
  rwa [← hload]

theorem withTask_image (hready : Ready s k k1 p n) (hmade : TaskMade k1 p m t r d) :
    imageOf (withTask k1 p) p = imageOf k1 p ∧ ((withTask k1 p).procs p).filetype = processFiletypeElf := by
  obtain ⟨-, hrecord, -, -⟩ := taskMade_withTask hmade
  have hfiles := elfFiles_withTask k1 p
  constructor
  · rw [imageOf, imageOf, Process.elf_file, Process.elf_file, hrecord, hfiles]
  · rw [hrecord]
    exact hready.filetype

/-- The stack is mapped over the image. -/
theorem map_entries {kt : Kernel} (hdir : pageDirectory kt p = d.chunk) (hholds : d.Holds kt.mem)
    (htype : (kt.procs p).filetype = processFiletypeElf) (map : processMapMemory kt p = some (k2, res))
    (hres : ¬ res < 0) {v : Nat} (hv : v < 2 ^ 20) : pageEntry k2 p v =
      ((stackCall (kt.procs p).stack).entry v).getD (pageEntry (processMapElf kt p).1 p v) := by
  obtain ⟨⟨ki, resi⟩, helf⟩ : ∃ r, processMapElf kt p = r := ⟨_, rfl⟩
  have hmapImage : mapImage kt p = some (ki, resi) := (if_pos htype).trans (by rw [helf])
  have himageCalls := mapImage_calls hmapImage
  rw [processMapMemory_eq, hmapImage, Option.bind_some] at map
  rw [if_neg (by
    intro hneg
    rw [if_pos hneg] at map
    cases map
    exact hres hneg)] at map
  obtain ⟨rfl, -⟩ := Prod.mk.inj (Option.some.inj map)
  have hremap := run_mapCall_spec hholds (imageCalls kt p)
  rw [hdir] at himageCalls
  rw [helf]
  generalize run (mapCall d.chunk) kt.mem (imageCalls kt p) = memi at himageCalls hremap
  have hdiri : pageDirectory ki p = d.chunk := by
    rw [himageCalls]
    exact hdir
  have hmemi : ki.mem = memi := by rw [himageCalls]
  have hprocsi : ki.procs = kt.procs := by rw [himageCalls]
  obtain ⟨m3, hm3, hr3⟩ := pagingMapTo_spec hremap.holds (stackCall (kt.procs p).stack)
  have hmem3 : mapCall (pageDirectory ki p) ki.mem (stackCall (ki.procs p).stack) = m3 := by
    rw [hdiri, hmemi, hprocsi, mapCall, hm3]
  have hentryi : pageEntry ki p v = d.entry memi v := by
    rw [pageEntry_eq hdiri (by rw [hmemi]; exact hremap.holds) hv, hmemi]
  have hdir3 : pageDirectory { ki with mem := m3 } p = d.chunk := hdiri
  rw [hmem3, hentryi, ← hr3.entry v hv]
  exact pageEntry_eq hdir3 hr3.holds hv

theorem Mapped.rights (h : Mapped k1 k2 p m t r d) (hready : Ready s k k1 p n)
    (map : processMapMemory (withTask k1 p) p = some (k2, res)) (hres : ¬ res < 0)
    (hinside : HeadersInside k2.mem (imageOf k2 p) n) {v : Nat} (hv : v < 2 ^ 20)
    (hwr : Writeable (pageEntry k2 p v)) : InImage (imageOf k2 p) n (tableAddress (pageEntry k2 p v)) ∨
      InImage (k2.procs p).stack userProgramStackSize (tableAddress (pageEntry k2 p v)) := by
  have hn := h.made.task
  obtain ⟨htoKmem, hrecord, -, hdir⟩ := taskMade_withTask h.made
  obtain ⟨himage, htype⟩ := withTask_image hready h.made
  generalize withTask k1 p = kt at map htoKmem hrecord hdir himage htype
  subst htoKmem
  have hstackt : (kt.procs p).stack = (k1.procs p).stack := by rw [hrecord]
  have hstack2 : (k2.procs p).stack = (k1.procs p).stack := by rw [h.record]
  have hentry := map_entries hdir hn.new.inMem.holds htype map hres hv
  rw [hstackt] at hentry
  cases hstack : (stackCall (k1.procs p).stack).entry v with
  | some e =>
    rw [hstack, Option.getD_some] at hentry
    rw [hentry, hstack2]
    exact Or.inr (stackCall_inImage (k1.heap.placed _ hready.stack) hv hstack)
  | none =>
    rw [hstack, Option.getD_none] at hentry
    rw [hentry] at hwr ⊢
    rw [h.image] at hinside ⊢
    have himg : (⟨imageOf k1 p, n⟩ : Block) ∈ kt.heap.live := hn.new.keeps.live _ hready.image
    have hnot : imageOf k1 p ∉ d.blocks := fun hb => hn.new.fresh _ hb ⟨_, hready.image⟩
    have hin := HeadersInside.agree hinside (h.sameHeaders hready hinside)
    rcases processMapElf_confined hdir hn.new.inMem himage himg hnot (h.accepted hready) hin v hv with heq | hconf
    · -- the task's own directory lets nobody write
      rw [heq, pageEntry_eq hdir hn.new.inMem.holds hv, hn.new.entry v hv] at hwr
      exact absurd hwr (writeable_identity v)
    · exact Or.inl hconf

theorem Mapped.joined (h : Mapped k1 k2 p m t r d) (hready : Ready s k k1 p n)
    (hrights : ∀ v < 2 ^ 20, Writeable (pageEntry k2 p v) → InImage (imageOf k2 p) n (tableAddress (pageEntry k2 p v)) ∨
      InImage (k2.procs p).stack userProgramStackSize (tableAddress (pageEntry k2 p v))) : Joined k k2 p d n := by
  have hn := h.made.task
  obtain ⟨g, hr⟩ := h.remap
  have hlive : ∀ b ∈ LoadedImage.estate k1 p, k1.heap.Live b := fun b hb => hready.live b (List.mem_cons_of_mem _ hb)
  have hnodup := List.nodup_cons.mp hready.nodup
  refine ⟨h.settled hready, ?_, ?_, fun a ha => ?_, h.made.points.remap hr, ?_, ?_, ?_, ?_, ?_, ?_, ?_, hrights⟩
  · rw [h.record]
    exact hready.filetype
  · rw [h.record, h.tasks, taskLink_process]
    dsimp only
    rw [Function.update_self, h.made.owner]
  · rw [← hready.frame.tasks]
    exact h.links (hready.keeps.isLive ha)
  · rw [h.image]
    exact h.keeps.live _ hready.image
  · rw [h.record]
    exact h.keeps.live _ hready.stack
  · rw [h.estate]
    exact fun b hb => h.keeps.isLive (hlive b hb)
  · rw [h.estate]
    exact fun b hb => hready.fresh b (List.mem_cons_of_mem _ hb)
  · rw [h.estate, h.record]
    simp only [List.mem_cons, not_or]
    intro b hb
    exact ⟨fun he => hnodup.1 (he ▸ hb), fun he => hn.fresh (he ▸ hlive b hb), fun hd => hn.new.fresh b hd (hlive b hb)⟩
  · rw [h.estate]
    exact hnodup.2
  · intro f hf
    rw [h.files]
    refine hready.others f fun he => hready.fresh f ?_ hf
    rw [he]
    simp [LoadedImage.estate]

end Mapped

theorem Joined.withEntry {d : PageDir} (h : Joined k k1 p d n) (slot : Nat) : Joined k (withEntry k1 slot p) p d n :=
  ⟨⟨h.settled.keeps, h.settled.holds, h.settled.directory, h.settled.live, h.settled.fresh, h.settled.empty,
    h.settled.others, h.settled.directories⟩, h.filetype,
    h.owner, h.links, h.points, h.image, h.stack, h.estate_live, h.estate_fresh, h.estate_fixed,
    h.estate_nodup, h.files, h.rights⟩

theorem LoadsImage.steps (h : LoadsImage k s k' p) : ∃ slot k1 k2 n res, freeProcess k = some slot ∧
    Prepared k s slot k1 p ∧ Ready s k k1 p n ∧ TaskGranted k1 p ∧
    processMapMemory (withTask k1 p) p = some (k2, res) ∧ ¬ res < 0 ∧ k' = ProcessTable.withEntry k2 slot p := by
  obtain ⟨res, hload, hres⟩ := h.loads
  obtain ⟨slot, k1, k2, hslot, hprep, hmap, rfl⟩ := processLoad_mapped h.noNul hload hres
  have hcount := counts_prepared h.noNul hprep
  have htask := taskNew_failures_le k1 p
  have hgranted := h.granted
  have hheap : k2.heap = (taskNew k1 p).1.heap := by
    obtain ⟨mem, rfl⟩ := processMapMemory_only hmap
    rfl
  have hfail : k2.heap.failures = k.heap.failures := hgranted
  unfold Counts at hcount
  rw [hheap] at hfail
  have helf : (k1.procs p).elf_file = elfFileOf k := by
    have helf := h.elf
    rw [ProcessTable.withEntry] at helf
    dsimp only at helf
    rw [procs_map hmap] at helf
    exact helf
  obtain ⟨n, hready⟩ := prepared_ready h.noNul hprep (by omega) helf
  exact ⟨slot, k1, k2, n, res, hslot, hprep, hready, by unfold TaskGranted; omega, hmap, not_lt.mpr hres, rfl⟩

theorem LoadsImage.joined (h : LoadsImage k s k' p) : ∃ d n, Joined k k' p d n := by
  obtain ⟨slot, k1, k2, n, res, -, -, hready, htask, hmap, hres, rfl⟩ := h.steps
  obtain ⟨m, t, r, d, hmapped⟩ := mapped_of_map htask hmap
  refine ⟨d, n, (hmapped.joined hready fun v hv hwr => ?_).withEntry slot⟩
  refine hmapped.rights hready hmap hres (h.inside n ?_) hv hwr
  show (⟨imageOf k2 p, n⟩ : Block) ∈ k2.heap.live
  rw [hmapped.image]
  exact hmapped.keeps.live _ hready.image

end MultitaskOs.LoadedImage
