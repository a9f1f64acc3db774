import MultitaskOs.Code.Task
import MultitaskOs.Paging

/-!
# Tasks

What `task_new` and `task_free` do to the heap, the page directories and the task list.
-/

open Lib Lib.Memory Lib.Arena Lib.Run MultitaskOs.Paging

namespace MultitaskOs.Tasks

/-! ## Giving blocks back -/

/-- `k'` is `k` without the blocks that start at an address in `as`. -/
structure Freed (k k' : Kmem) (as : List Addr) : Prop where
  mem_eq : k'.mem = k.mem
  failures : k'.heap.failures = k.heap.failures
  live : ∀ b, b ∈ k'.heap.live ↔ b ∈ k.heap.live ∧ b.base ∉ as

theorem Freed.refl (k : Kmem) : Freed k k [] := ⟨rfl, rfl, by simp⟩

theorem Freed.kfree {k k' : Kmem} {as : List Addr} (h : Freed k k' as) (a : Addr) :
    Freed k (kfree k' a) (a :: as) := by
  refine ⟨h.mem_eq, h.failures, ?_⟩
  intro b
  rw [MultitaskOs.kfree, Arena.mem_free_live, h.live, List.mem_cons]
  tauto

theorem Freed.keeps {k k' k0 : Kmem} {as : List Addr} (h : Freed k k' as) (hk : k0.Keeps k)
    (has : ∀ a ∈ as, ¬ k0.heap.Live a) : k0.Keeps k' := by
  constructor
  · intro b hb
    exact (h.live b).mpr ⟨hk.live b hb, fun ha => has _ ha ⟨b.size, hb⟩⟩
  · intro b hb
    rw [h.mem_eq]
    exact hk.bytes b hb

theorem Freed.isLive {k k' : Kmem} {as : List Addr} (h : Freed k k' as) (c : Addr) :
    k'.heap.Live c ↔ k.heap.Live c ∧ c ∉ as := by
  simp only [Arena.Live, h.live]
  tauto

def tableIn (m : Mem) (chunk : Addr) (i : Nat) : Addr := tableAddress (load32 m (index32 (load32 m chunk) i))

/-- The addresses that `paging_free_4gb` gives back for `chunk`. -/
def blocksIn (m : Mem) (chunk : Addr) : List Addr := blocksOf chunk (load32 m chunk) (tableIn m chunk)

theorem freeTables_freed (k : Kmem) (chunk : Addr) (n : Nat) :
    Freed k (forN n (pagingFreeTable chunk) k) ((List.range n).map (tableIn k.mem chunk)).reverse := by
  induction n with
  | zero =>
    rw [forN_zero]
    exact Freed.refl k
  | succ n ih =>
    have hturn : pagingFreeTable chunk n (forN n (pagingFreeTable chunk) k) =
        kfree (forN n (pagingFreeTable chunk) k) (tableIn k.mem chunk n) := by
      rw [pagingFreeTable, ih.mem_eq, tableIn]
    rw [forN_succ, hturn, List.range_succ, List.map_append, List.reverse_append]
    exact ih.kfree _

theorem pagingFree4gb_gives (k : Kmem) (chunk : Addr) :
    ∃ as, Freed k (pagingFree4gb k chunk) as ∧ ∀ a, a ∈ as ↔ a ∈ blocksIn k.mem chunk := by
  have hf := freeTables_freed k chunk 1024
  have hdir : pagingFree4gb k chunk =
      kfree (kfree (forN 1024 (pagingFreeTable chunk) k) (load32 k.mem chunk)) chunk := by
    rw [pagingFree4gb, hf.mem_eq]
  refine ⟨_, hdir ▸ (hf.kfree (load32 k.mem chunk)).kfree chunk, ?_⟩
  intro a
  simp [blocksIn, blocksOf]

theorem blocksIn_eq {d : PageDir} {m : Mem} (h : d.Holds m) : blocksIn m d.chunk = d.blocks := by
  have htables : (List.range 1024).map (tableIn m d.chunk) = (List.range 1024).map d.table := by
    refine List.map_congr_left fun i hi => ?_
    rw [tableIn, h.chunk, h.tables i (List.mem_range.mp hi)]
  rw [blocksIn, blocksOf, h.chunk, htables]
  rfl

theorem pagingFree4gb_freed {d : PageDir} {k : Kmem} (h : d.Holds k.mem) :
    ∃ as, Freed k (pagingFree4gb k d.chunk) as ∧ ∀ a, a ∈ as ↔ a ∈ d.blocks :=
  blocksIn_eq h ▸ pagingFree4gb_gives k d.chunk

theorem kfree_failures (k : Kmem) (a : Addr) : (kfree k a).heap.failures = k.heap.failures := rfl

theorem freeTables_failures (k : Kmem) (chunk : Addr) (n : Nat) :
    (forN n (pagingFreeTable chunk) k).heap.failures = k.heap.failures := by
  induction n with
  | zero => rw [forN_zero]
  | succ n ih => rw [forN_succ, pagingFreeTable, kfree_failures, ih]

/-- Whatever the memory holds, freeing a directory is no failed request. -/
theorem pagingFree4gb_failures (k : Kmem) (chunk : Addr) :
    (pagingFree4gb k chunk).heap.failures = k.heap.failures := by
  rw [pagingFree4gb, kfree_failures, kfree_failures, freeTables_failures]

/-! ## `task_free` -/

theorem taskListRemove_withKmem (k : Kernel) (m : Kmem) (t : Addr) :
    taskListRemove { k with toKmem := m } t = { taskListRemove k t with toKmem := m } := by
  unfold taskListRemove taskGetNext Kernel.setTask
  dsimp only
  split_ifs <;> rfl

theorem taskFree_eq (k : Kernel) (t : Addr) :
    taskFree k t = { taskListRemove k t with
      toKmem := kfree (pagingFree4gb k.toKmem (k.tasks t).page_directory) t } := by
  simp only [taskFree, Kernel.onKmem, taskListRemove_withKmem]

theorem taskFree_failures (k : Kernel) (t : Addr) :
    (taskFree k t).heap.failures = k.heap.failures := by
  rw [taskFree_eq]
  dsimp only
  rw [kfree_failures, pagingFree4gb_failures]

/-! ## `task_new` -/

/-- What a `task_new` does when none of its requests fails: a task record at `t` that is linked
last, and a directory `d` that maps every page to itself, all on new blocks. -/
structure NewTask (k : Kernel) (m : Kmem) (t : Addr) (r : Task) (d : PageDir) : Prop where
  new : New k.toKmem m d 5
  live : m.heap.Live t
  fresh : ¬ k.heap.Live t
  not_block : t ∉ d.blocks
  page_directory : r.page_directory = d.chunk
  next : r.next = 0
  prev : r.prev = 0

theorem NewTask.ne_zero {k : Kernel} {m : Kmem} {t : Addr} {r : Task} {d : PageDir}
    (h : NewTask k m t r d) : t ≠ 0 := Kmem.live_ne_zero h.live

theorem taskNew_failed_alloc {k : Kernel} {process : Addr} {k1 : Kmem}
    (h : kzalloc k.toKmem sizeofTask = (k1, 0)) :
    taskNew k process = (taskFree { k with toKmem := k1 } 0, ERROR (-ENOMEM)) := by
  rw [taskNew, Kernel.onKmem_eq h]
  exact if_pos rfl

theorem taskInit_eq {k : Kernel} {t chunk : Addr} {m : Kmem} (process : Addr)
    (h : pagingNew4gb k.toKmem 5 = (m, chunk)) :
    (chunk = 0 → (taskInit k t process).1.toKmem = m ∧ (taskInit k t process).2 = - EIO) ∧
    (chunk ≠ 0 → ∃ r, taskInit k t process =
        ({ k with toKmem := m, tasks := Function.update k.tasks t r }, 0) ∧
      r.page_directory = chunk ∧ r.next = 0 ∧ r.prev = 0) := by
  have hk : k.onKmem (pagingNew4gb · 5) = ({ k with toKmem := m }, chunk) := Kernel.onKmem_eq h
  rw [taskInit, hk]
  dsimp only
  constructor
  · intro hc
    rw [if_pos hc]
    exact ⟨rfl, rfl⟩
  · intro hc
    rw [if_neg hc]
    exact ⟨_, rfl, rfl, rfl, rfl⟩

theorem taskLink_toKmem (k : Kernel) (t : Addr) : (taskLink k t).toKmem = k.toKmem := by
  unfold taskLink Kernel.setTask
  dsimp only
  split_ifs <;> rfl

theorem taskNew_eq {k : Kernel} {t chunk : Addr} {k1 m : Kmem} (process : Addr)
    (h1 : kzalloc k.toKmem sizeofTask = (k1, t)) (hf : Fresh k.toKmem k1 t sizeofTask)
    (h2 : pagingNew4gb k1 5 = (m, chunk)) (hok : m.heap.failures = k1.heap.failures) :
    ∃ r d, NewTask k m t r d ∧ taskNew k process =
      (taskLink { k with toKmem := m, tasks := Function.update k.tasks t r } t, t) := by
  have hspec : (pagingNew4gb k1 5).1.heap.failures = k1.heap.failures := by
    rw [h2]
    exact hok
  obtain ⟨d, hd, hn⟩ := pagingNew4gb_spec hspec
  rw [h2] at hd hn
  dsimp only at hd
  have hc : chunk ≠ 0 := hd ▸ Kmem.live_ne_zero (hn.inMem.live _ PageDir.chunk_mem)
  obtain ⟨r, hr, hpd, hnext, hprev⟩ :=
    (taskInit_eq (k := { k with toKmem := k1 }) (t := t) process h2).2 hc
  refine ⟨r, d, ⟨hn.of_keeps hf.keeps, hn.keeps.isLive hf.isLive, hf.not_live,
    fun hb => hn.fresh t hb hf.isLive, hpd.trans hd.symm, hnext, hprev⟩, ?_⟩
  rw [taskNew, Kernel.onKmem_eq h1]
  dsimp only
  rw [if_neg hf.ne_zero, hr]
  rfl

theorem taskNew_failures {k : Kernel} {k1 m : Kmem} {t chunk : Addr} (process : Addr)
    (h1 : kzalloc k.toKmem sizeofTask = (k1, t)) (ht : t ≠ 0) (h2 : pagingNew4gb k1 5 = (m, chunk)) :
    (taskNew k process).1.heap.failures = m.heap.failures := by
  have hinit := taskInit_eq (k := { k with toKmem := k1 }) (t := t) process h2
  rw [taskNew, Kernel.onKmem_eq h1]
  dsimp only
  rw [if_neg ht]
  by_cases hc : chunk = 0
  · obtain ⟨hk, hres⟩ := hinit.1 hc
    rw [hres, if_pos (by decide), taskFree_failures, hk]
  · obtain ⟨r, hr, -⟩ := hinit.2 hc
    rw [hr]
    dsimp only
    rw [if_neg (not_not.mpr rfl), taskLink_toKmem]

theorem taskNew_ok {k : Kernel} (process : Addr)
    (hok : (taskNew k process).1.heap.failures = k.heap.failures) :
    ∃ m t r d, NewTask k m t r d ∧ taskNew k process =
      (taskLink { k with toKmem := m, tasks := Function.update k.tasks t r } t, t) := by
  obtain ⟨⟨k1, t⟩, h1⟩ : ∃ r, kzalloc k.toKmem sizeofTask = r := ⟨_, rfl⟩
  obtain ⟨⟨m, chunk⟩, h2⟩ : ∃ r, pagingNew4gb k1 5 = r := ⟨_, rfl⟩
  have halloc := kzalloc_cases k.toKmem sizeofTask
  rw [h1] at halloc
  have ht : t ≠ 0 := by
    rintro rfl
    rw [taskNew_failed_alloc h1, taskFree_failures] at hok
    rcases halloc with ⟨_, _, _, hf⟩ | ⟨h0, _⟩
    · dsimp only at hok hf
      omega
    · exact h0 rfl
  obtain ⟨_, hl, hmem, hnf, hfit⟩ := halloc.resolve_left fun h => ht h.1
  have hf : Fresh k.toKmem k1 t sizeofTask := ⟨ht, hl, hmem, hfit⟩
  obtain ⟨r, d, hn, heq⟩ := taskNew_eq process h1 hf h2 (by
    rw [← taskNew_failures process h1 ht h2, hok]
    exact hnf.symm)
  exact ⟨m, t, r, d, hn, heq⟩

theorem taskNew_failures_le (k : Kernel) (process : Addr) :
    k.heap.failures ≤ (taskNew k process).1.heap.failures := by
  obtain ⟨⟨k1, t⟩, h1⟩ : ∃ r, kzalloc k.toKmem sizeofTask = r := ⟨_, rfl⟩
  obtain ⟨⟨m, chunk⟩, h2⟩ : ∃ r, pagingNew4gb k1 5 = r := ⟨_, rfl⟩
  have hle1 := kzalloc_failures_le k.toKmem sizeofTask
  have hle2 := pagingNew4gb_failures_le k1 5
  rw [h1] at hle1
  rw [h2] at hle2
  by_cases ht : t = 0
  · subst ht
    rw [taskNew_failed_alloc h1, taskFree_failures]
    exact hle1
  · rw [taskNew_failures process h1 ht h2]
    exact hle1.trans hle2

theorem taskLink_procs (k : Kernel) (t : Addr) : (taskLink k t).procs = k.procs := by
  unfold taskLink Kernel.setTask
  dsimp only
  split_ifs <;> rfl

theorem taskNew_spare {k : Kernel} {n : Nat} (h : Spare k.toKmem (n + 1027)) (process : Addr) :
    Spare (taskNew k process).1.toKmem n ∧
      (taskNew k process).1.heap.failures = k.heap.failures := by
  obtain ⟨⟨k1, t⟩, h1⟩ : ∃ r, kzalloc k.toKmem sizeofTask = r := ⟨_, rfl⟩
  obtain ⟨⟨m, chunk⟩, h2⟩ : ∃ r, pagingNew4gb k1 5 = r := ⟨_, rfl⟩
  obtain ⟨hs1, hf1⟩ := Spare.kzalloc (n := n + 1026) h sizeofTask (by decide)
  have hfresh := kzalloc_ok _ hf1
  rw [h1] at hs1 hf1 hfresh
  obtain ⟨hs2, hf2⟩ := pagingNew4gb_spare hs1 5
  rw [h2] at hs2 hf2
  obtain ⟨r, d, -, heq⟩ := taskNew_eq process h1 hfresh h2 hf2
  rw [heq, taskLink_toKmem]
  exact ⟨hs2, hf2.trans hf1⟩

def emptyKernel : Kernel where
  toKmem := emptyKmem
  tasks _ := zeroTask
  procs _ := zeroProcess
  elfFiles _ := ⟨0, 0, 0, 0, 0⟩
  pathRoots _ := ⟨0, 0⟩
  pathParts _ := ⟨0, 0⟩
  fileDescs _ := ⟨0, 0⟩
  fatItems _ := ⟨0, 0⟩
  fatDirs _ := zeroFatDirectory
  fatDescs _ := ⟨0, 0⟩
  current_task := 0
  task_head := 0
  task_tail := 0
  current_process := 0
  processes _ := 0
  file_descriptors _ := 0
  disk := ⟨fun _ _ _ => 0, 512, fun _ => 0, true⟩
  fs_private := ⟨⟨0, 0, 0, 0, 0⟩, zeroFatDirectory, 0, 0, 0⟩

/-! ## Live tasks and their directories -/

theorem setTask_tasks (k : Kernel) (t a : Addr) (f : Task → Task) :
    (k.setTask t f).tasks a = if a = t then f (k.tasks t) else k.tasks a :=
  Function.update_apply _ _ _ _

theorem taskLink_field {β : Type} {field : Task → β} (hnext : ∀ t next, field { t with next } = field t)
    (hprev : ∀ t prev, field { t with prev } = field t) (k : Kernel) (t a : Addr) :
    field ((taskLink k t).tasks a) = field (k.tasks a) := by
  unfold taskLink
  dsimp only
  split
  · rfl
  · dsimp only
    rw [Kernel.setTask_field field (hprev _ _), Kernel.setTask_field field (hnext _ _)]

theorem taskLink_page_directory (k : Kernel) (t a : Addr) :
    ((taskLink k t).tasks a).page_directory = (k.tasks a).page_directory :=
  taskLink_field (fun _ _ => rfl) (fun _ _ => rfl) k t a

theorem taskLink_process (k : Kernel) (t a : Addr) : ((taskLink k t).tasks a).process = (k.tasks a).process :=
  taskLink_field (fun _ _ => rfl) (fun _ _ => rfl) k t a

theorem taskListRemove_page_directory (k : Kernel) (t a : Addr) :
    ((taskListRemove k t).tasks a).page_directory = (k.tasks a).page_directory := by
  have hset : ∀ u, ((k.setTask u fun x => { x with next := (k.tasks t).next }).tasks a).page_directory =
      (k.tasks a).page_directory := fun u => Kernel.setTask_field Task.page_directory rfl a
  unfold taskListRemove
  dsimp only
  split_ifs <;> first | rfl | exact hset _

/-- The tasks of `L` are live, each with a directory of its own on blocks of its own. -/
structure Owned (k : Kernel) (L : List Addr) (dir : Addr → PageDir) : Prop where
  live : ∀ t ∈ L, k.heap.Live t
  directory : ∀ t ∈ L, (k.tasks t).page_directory = (dir t).chunk
  inMem : ∀ t ∈ L, (dir t).In k.toKmem
  apart : ∀ t ∈ L, ∀ u ∈ L, t ≠ u → ∀ b ∈ (dir t).blocks, b ∉ (dir u).blocks
  task_apart : ∀ t ∈ L, ∀ u ∈ L, u ∉ (dir t).blocks

theorem owned_nil (k : Kernel) (dir : Addr → PageDir) : Owned k [] dir := by
  constructor <;> simp

theorem Owned.new {k : Kernel} {L : List Addr} {dir : Addr → PageDir} {m : Kmem} {t : Addr} {r : Task}
    {d : PageDir} (h : Owned k L dir) (hn : NewTask k m t r d) :
    Owned (taskLink { k with toKmem := m, tasks := Function.update k.tasks t r } t) (L ++ [t])
      (Function.update dir t d) := by
  have hne : ∀ u ∈ L, u ≠ t := fun u hu he => hn.fresh (he ▸ h.live u hu)
  have hdir : ∀ u ∈ L, Function.update dir t d u = dir u := fun u hu => Function.update_of_ne (hne u hu) _ _
  have hself : Function.update dir t d t = d := Function.update_self _ _ _
  have hnew : ∀ u ∈ L, ∀ b ∈ (dir u).blocks, b ∉ d.blocks :=
    fun u hu b hb hbd => hn.new.fresh b hbd ((h.inMem u hu).live b hb)
  constructor <;> simp only [List.mem_append, List.mem_singleton]
  · rw [taskLink_toKmem]
    rintro u (hu | rfl)
    · exact hn.new.keeps.isLive (h.live u hu)
    · exact hn.live
  · rintro u (hu | rfl)
    · rw [taskLink_page_directory, hdir u hu]
      dsimp only
      rw [Function.update_of_ne (hne u hu), h.directory u hu]
    · rw [taskLink_page_directory, hself]
      dsimp only
      rw [Function.update_self, hn.page_directory]
  · rw [taskLink_toKmem]
    rintro u (hu | rfl)
    · rw [hdir u hu]
      exact (h.inMem u hu).keeps hn.new.keeps
    · rw [hself]
      exact hn.new.inMem
  · rintro u (hu | rfl) v (hv | rfl) huv
    · rw [hdir u hu, hdir v hv]
      exact h.apart u hu v hv huv
    · rw [hdir u hu, hself]
      exact hnew u hu
    · rw [hself, hdir v hv]
      exact fun b hb hbv => hnew v hv b hbv hb
    · exact absurd rfl huv
  · rintro u (hu | rfl) v (hv | rfl)
    · rw [hdir u hu]
      exact h.task_apart u hu v hv
    · rw [hdir u hu]
      exact fun hb => hn.fresh ((h.inMem u hu).live v hb)
    · rw [hself]
      exact fun hb => hn.new.fresh v hb (h.live v hv)
    · rw [hself]
      exact hn.not_block

theorem Owned.free {k : Kernel} {L : List Addr} {dir : Addr → PageDir} {t : Addr} (h : Owned k L dir)
    (hL : L.Nodup) (ht : t ∈ L) : Owned (taskFree k t) (L.erase t) dir := by
  obtain ⟨as, hf, has⟩ := pagingFree4gb_freed (h.inMem t ht).holds
  have hfree := hf.kfree t
  have hmem : ∀ u ∈ L.erase t, u ∈ L ∧ u ≠ t := by
    intro u hu
    rw [hL.mem_erase_iff] at hu
    exact ⟨hu.2, hu.1⟩
  have hkeep : ∀ a, a ≠ t → a ∉ (dir t).blocks → a ∉ t :: as := by
    intro a h1 h2 hm
    rcases List.mem_cons.mp hm with h3 | h3
    · exact h1 h3
    · exact h2 ((has a).mp h3)
  have hk : (taskFree k t).toKmem = kfree (pagingFree4gb k.toKmem (dir t).chunk) t := by
    rw [taskFree_eq, h.directory t ht]
  refine ⟨?_, ?_, ?_, ?_, ?_⟩
  · intro u hu
    obtain ⟨hu, hut⟩ := hmem u hu
    rw [hk, hfree.isLive]
    exact ⟨h.live u hu, hkeep u hut (h.task_apart t ht u hu)⟩
  · intro u hu
    rw [taskFree_eq]
    exact (taskListRemove_page_directory k t u).trans (h.directory u (hmem u hu).1)
  · intro u hu
    obtain ⟨hu, hut⟩ := hmem u hu
    rw [hk]
    refine ⟨hfree.mem_eq ▸ (h.inMem u hu).holds, ?_⟩
    intro b hb
    rw [hfree.isLive]
    have hbt : b ≠ t := fun hbt => h.task_apart u hu t ht (hbt ▸ hb)
    exact ⟨(h.inMem u hu).live b hb, hkeep b hbt (h.apart u hu t ht hut b hb)⟩
  · intro u hu v hv
    exact h.apart u (hmem u hu).1 v (hmem v hv).1
  · intro u hu v hv
    exact h.task_apart u (hmem u hu).1 v (hmem v hv).1

end MultitaskOs.Tasks
