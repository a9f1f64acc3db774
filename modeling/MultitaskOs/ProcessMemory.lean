import MultitaskOs.Code.Process
import MultitaskOs.Task

/-!
# The memory of a process

What `process_malloc` and `process_free` do to the allocation table, the page
directory and the heap, and what the table says about the heap over whole runs.
-/

open Lib Lib.Memory Lib.Arena Lib.Run MultitaskOs.Paging MultitaskOs.Tasks

namespace MultitaskOs.ProcessMemory

/-! ## Pages of an allocation -/

theorem toNat_alignAddress (x : Addr) :
    (pagingAlignAddress x).toNat = (x.toNat + 4095) / 4096 * 4096 % 2 ^ 32 := by
  have h := toNat_umod_page x
  unfold pagingAlignAddress
  by_cases h0 : x % 4096 = 0
  · have : x.toNat % 4096 = 0 := by
      rw [← h, h0]
      rfl
    rw [if_neg (not_not.mpr h0)]
    omega
  · have : x.toNat % 4096 ≠ 0 := by
      rw [← h]
      exact fun he => h0 (BitVec.eq_of_toNat_eq he)
    rw [if_pos h0]
    generalize x % 4096 = r at *
    bv_omega

def mallocCall (ptr : Addr) (size : BitVec 32) : MapCall :=
  ⟨ptr, ptr, pagingAlignAddress (ptr + size), pagingUserWriteable⟩

def PageOf (ptr : Addr) (size : BitVec 32) (v : Nat) : Prop :=
  ptr.toNat ≤ 4096 * v ∧ 4096 * v < ptr.toNat + size.toNat

instance (ptr : Addr) (size : BitVec 32) (v : Nat) : Decidable (PageOf ptr size v) :=
  instDecidableAnd

theorem mallocCall_entry {ptr : Addr} {size : BitVec 32} (hp : (⟨ptr, size.toNat⟩ : Block).Placed blockSize)
    (hr : ¬ (mallocCall ptr size).Rejected) {v : Nat} (hv : v < 2 ^ 20) :
    (mallocCall ptr size).entry v =
      if PageOf ptr size v then some (BitVec.ofNat 32 (4096 * v) ||| pagingUserWriteable) else none := by
  obtain ⟨hnz, ha, hend⟩ := hp
  simp only [blockSize] at ha hend
  have hsz := size_le_extent (g := blockSize) size.toNat
  rw [blockSize] at hsz
  have hpos : 0 < ptr.toNat := Nat.pos_of_ne_zero fun h => hnz (BitVec.eq_of_toNat_eq h)
  have hend' := toNat_alignAddress (ptr + size)
  have hadd : (ptr + size).toNat = (ptr.toNat + size.toNat) % 2 ^ 32 := BitVec.toNat_add ptr size
  have hext : ptr.toNat + (size.toNat + 4095) / 4096 * 4096 ≤ 2 ^ 32 := by
    have : (size.toNat + 4095) / 4096 * 4096 ≤ extent 4096 size.toNat :=
      Nat.mul_le_mul_right _ (le_max_right _ _)
    omega
  have hle : ptr.toNat ≤ (pagingAlignAddress (ptr + size)).toNat := by
    by_contra hlt
    exact hr (Or.inr (Or.inr (Or.inr (by simpa [mallocCall, BitVec.lt_def] using hlt))))
  have hcount : (pagingAlignAddress (ptr + size) - ptr).toNat / 4096 = (size.toNat + 4095) / 4096 := by
    rw [BitVec.toNat_sub_of_le (by simpa [BitVec.le_def] using hle), hend', hadd]
    rw [hend', hadd] at hle
    omega
  rw [MapCall.entry, if_neg hr]
  simp only [mallocCall, mapped, hcount]
  by_cases hin : PageOf ptr size v
  · rw [if_pos hin]
    obtain ⟨hin1, hin2⟩ := hin
    rw [if_pos (by omega)]
    congr 2
    apply BitVec.eq_of_toNat_eq
    rw [BitVec.toNat_add, BitVec.toNat_ofNat, BitVec.toNat_ofNat]
    omega
  · rw [if_neg hin]
    simp only [PageOf, not_and] at hin
    rw [if_neg (by omega)]

/-! ## Entries -/

/-- The entry of page `v` in the process's directory, as `paging_get` reads it. -/
def pageEntry (k : Kernel) (p : Addr) (v : Nat) : BitVec 32 :=
  pagingGet k.mem (load32 k.mem (pageDirectory k p)) (BitVec.ofNat 32 (4096 * v))

theorem pageEntry_eq {k : Kernel} {p : Addr} {d : PageDir} (hd : pageDirectory k p = d.chunk) (h : d.Holds k.mem)
    {v : Nat} (hv : v < 2 ^ 20) : pageEntry k p v = d.entry k.mem v := by
  have hn : (BitVec.ofNat 32 (4096 * v)).toNat = 4096 * v := by
    rw [BitVec.toNat_ofNat]
    omega
  rw [pageEntry, hd, h.chunk, pagingGet_spec h (by rw [hn]; omega), hn, Nat.mul_div_cancel_left _ (by decide)]

/-! ## The table -/

theorem findAllocation_some {p : Process} {ptr : Addr} {i : Nat} (h : findAllocation p ptr = some i) :
    i < maxProgramAllocations ∧ (p.allocations i).ptr = ptr := by
  unfold findAllocation at h
  refine ⟨List.mem_range.mp (List.mem_of_find?_eq_some h), ?_⟩
  simpa using List.find?_some h

theorem findAllocation_none {p : Process} {ptr : Addr} :
    findAllocation p ptr = none ↔ ∀ i < maxProgramAllocations, (p.allocations i).ptr ≠ ptr := by
  simp [findAllocation]

attribute [local irreducible] findAllocation

theorem freeIndex_some {p : Process} {i : Nat} (h : findAllocation p 0 = some i) :
    processFindFreeAllocationIndex p = i := by
  unfold processFindFreeAllocationIndex
  rw [h]

theorem freeIndex_none {p : Process} (h : findAllocation p 0 = none) :
    processFindFreeAllocationIndex p = -ENOMEM := by
  unfold processFindFreeAllocationIndex
  rw [h]

def Held (p : Process) (ptr : Addr) : Prop := ∃ i < maxProgramAllocations, (p.allocations i).ptr = ptr

theorem held_iff {p : Process} {ptr : Addr} : Held p ptr ↔ ∃ i, findAllocation p ptr = some i := by
  rw [← Option.isSome_iff_exists, ← not_iff_not, Option.not_isSome_iff_eq_none, findAllocation_none]
  simp [Held]

/-! ## `process_malloc` -/

/-- Nothing a process could see has changed: the blocks that were live are the live ones, and
they hold what they held. -/
structure Unchanged (k k' : Kernel) : Prop where
  keeps : k.toKmem.Keeps k'.toKmem
  live : k'.heap.live = k.heap.live
  procs : k'.procs = k.procs
  tasks : k'.tasks = k.tasks

/-- A `process_malloc` that succeeds: a new block, its pages mapped, and the slot `i` that was free. -/
structure Malloced (k k' : Kernel) (process ptr : Addr) (size : BitVec 32) (d : PageDir) (i : Nat) :
    Prop where
  slot : i < maxProgramAllocations
  was_free : ((k.procs process).allocations i).ptr = 0
  accepted : ¬ (mallocCall ptr size).Rejected
  block : ∃ m1 : Kmem, Fresh k.toKmem m1 ptr size.toNat ∧ k'.heap = m1.heap ∧
    Remap d m1.mem k'.mem (mallocCall ptr size).entry
  procs : k'.procs = Function.update k.procs process
    { k.procs process with
      allocations := Function.update (k.procs process).allocations i ⟨ptr, size⟩ }
  tasks : k'.tasks = k.tasks

theorem unchanged_kfree {k : Kernel} {m1 : Kmem} {ptr : Addr} {size : Nat} {mem : Mem}
    (hf : Fresh k.toKmem m1 ptr size) (hmem : mem = m1.mem) :
    Unchanged k { k with toKmem := kfree { m1 with mem } ptr } := by
  subst hmem
  have hlive : (kfree m1 ptr).heap.live = k.heap.live := hf.free_live
  refine ⟨⟨?_, hf.keeps.bytes⟩, hlive, rfl, rfl⟩
  intro b hb
  exact hlive.symm ▸ hb

theorem processMalloc_cases {k : Kernel} {process : Addr} (size : BitVec 32) {d : PageDir}
    (hd : pageDirectory k process = d.chunk) (hin : d.In k.toKmem) :
    ((processMalloc k process size).2 = 0 ∧ Unchanged k (processMalloc k process size).1) ∨
    ∃ i, (processMalloc k process size).2 ≠ 0 ∧
      Malloced k (processMalloc k process size).1 process (processMalloc k process size).2 size d i := by
  obtain ⟨⟨m1, ptr⟩, h1⟩ : ∃ r, kzalloc k.toKmem size.toNat = r := ⟨_, rfl⟩
  have hcases := kzalloc_cases k.toKmem size.toNat
  rw [h1] at hcases
  rw [processMalloc, Kernel.onKmem_eq h1]
  dsimp only
  rcases hcases with ⟨h0, hl, hm, -⟩ | ⟨h0, hl, hm, -, hfit⟩
  · -- no memory
    left
    rw [if_pos h0]
    refine ⟨rfl, ⟨fun b hb => ?_, fun b _ => ?_⟩, hl, rfl, rfl⟩
    · exact hl.symm ▸ hb
    · exact hm.symm ▸ Agree.refl _ _ _
  · have hf : Fresh k.toKmem m1 ptr size.toNat := ⟨h0, hl, hm, hfit⟩
    rw [if_neg h0]
    by_cases hidx : processFindFreeAllocationIndex (k.procs process) < 0
    · -- no slot
      left
      rw [if_pos hidx]
      exact ⟨rfl, unchanged_kfree hf rfl⟩
    · rw [if_neg hidx]
      have hd' : pageDirectory { k with toKmem := m1 } process = d.chunk := hd
      obtain ⟨m2, hm2, hr⟩ := pagingMapTo_spec (hin.keeps hf.keeps).holds (mallocCall ptr size)
      rw [hd']
      have hcall : pagingMapTo m1.mem d.chunk ptr ptr (pagingAlignAddress (ptr + size))
          pagingUserWriteable = (m2, if (mallocCall ptr size).Rejected then -EINVARG else 0) := hm2
      rw [hcall]
      dsimp only
      by_cases hrej : (mallocCall ptr size).Rejected
      · -- mapping refused
        left
        rw [if_pos hrej, if_pos (by decide)]
        rw [if_pos hrej, show pagingMapTo m1.mem d.chunk (mallocCall ptr size).virt
          (mallocCall ptr size).phys (mallocCall ptr size).phys_end (mallocCall ptr size).flags
            = (m1.mem, -EINVARG) from pagingMapTo_rejected hrej _ _] at hm2
        exact ⟨rfl, unchanged_kfree hf (Prod.ext_iff.mp hm2).1.symm⟩
      · right
        rw [if_neg hrej, if_neg (by decide)]
        cases hfind : findAllocation (k.procs process) 0 with
        | none =>
          rw [freeIndex_none hfind] at hidx
          exact absurd (by decide : -ENOMEM < 0) hidx
        | some i =>
          obtain ⟨hi, hfree⟩ := findAllocation_some hfind
          have hix : (processFindFreeAllocationIndex (k.procs process)).toNat = i := by
            rw [freeIndex_some hfind, Int.toNat_natCast]
          refine ⟨i, h0, hi, hfree, hrej, ⟨m1, hf, rfl, hr⟩, ?_, rfl⟩
          rw [hix]
          rfl

/-! ## `process_free` -/

theorem pagingMapTo_nothing (m : Mem) (directory : Addr) :
    pagingMapTo m directory 0 0 (pagingAlignAddress (0 + 0)) 0 = (m, 0) := by
  simp [pagingMapTo, pagingPageSize, pagingAlignAddress, pagingMapRange]

theorem processFree_of_not_held {k : Kernel} {process ptr : Addr} (h : ¬ Held (k.procs process) ptr) :
    processFree k process ptr = k := by
  have hnone : findAllocation (k.procs process) ptr = none := by
    rw [findAllocation_none]
    exact fun i hi he => h ⟨i, hi, he⟩
  unfold processFree processIsProcessPointer
  rw [hnone]
  rfl

/-- A pointer in the table leaves it and goes back to the heap. No page is touched: by the time
the source looks at the entry to unmap, it has cleared it. -/
theorem processFree_of_held {k : Kernel} {process ptr : Addr} (h : Held (k.procs process) ptr) :
    processFree k process ptr =
      { k with
        toKmem := kfree k.toKmem ptr
        procs := Function.update k.procs process (processAllocationUnjoin (k.procs process) ptr) } := by
  obtain ⟨i, hi⟩ := held_iff.mp h
  obtain ⟨hlt, hptr⟩ := findAllocation_some hi
  have hclear : (processAllocationUnjoin (k.procs process) ptr).allocations i = ⟨0, 0⟩ :=
    if_pos ⟨hlt, hptr⟩
  unfold processFree processIsProcessPointer processGetAllocationByAddr
  rw [hi]
  simp only [Option.isSome_some, Bool.not_true, Bool.false_eq_true, if_false, Kernel.setProc,
    Function.update_self, hclear, pagingMapTo_nothing]
  rfl

/-! ## Processes and the blocks they stand on -/

/-- A process record and its task, as `process_load_for_slot` makes them. -/
def spawn (k : Kernel) : Kernel × Addr :=
  let (k, process) := k.onKmem (kzalloc · sizeofProcess)
  let k := k.setProc process fun _ => zeroProcess
  let r := taskNew k process
  (r.1.setProc process fun p => { p with task := r.2 }, process)

/-- The blocks of a process that `process_malloc` had no part in. -/
def fixed (k : Kernel) (dir : Addr → PageDir) (p : Addr) : List Addr :=
  p :: (k.procs p).task :: (dir p).blocks

def allocation (k : Kernel) (p : Addr) (i : Nat) : ProcessAllocation := (k.procs p).allocations i

/-- The processes `ps` have their directories and records on live blocks of their own, and each
entry of their tables is a live block that is none of these and in no other entry. -/
structure World (k : Kernel) (ps : List Addr) (dir : Addr → PageDir) : Prop where
  directory : ∀ p ∈ ps, pageDirectory k p = (dir p).chunk
  holds : ∀ p ∈ ps, (dir p).Holds k.mem
  live : ∀ p ∈ ps, ∀ b ∈ fixed k dir p, k.heap.Live b
  apart : ∀ p ∈ ps, ∀ q ∈ ps, p ≠ q → ∀ b ∈ fixed k dir p, b ∉ fixed k dir q
  held : ∀ p ∈ ps, ∀ i < maxProgramAllocations, (allocation k p i).ptr ≠ 0 →
    (⟨(allocation k p i).ptr, (allocation k p i).size.toNat⟩ : Block) ∈ k.heap.live ∧
      ∀ q ∈ ps, (allocation k p i).ptr ∉ fixed k dir q
  distinct : ∀ p ∈ ps, ∀ q ∈ ps, ∀ i < maxProgramAllocations, ∀ j < maxProgramAllocations,
    (allocation k p i).ptr ≠ 0 → (allocation k p i).ptr = (allocation k q j).ptr → p = q ∧ i = j

variable {k k' : Kernel} {ps : List Addr} {dir : Addr → PageDir} {p ptr : Addr} {size : BitVec 32}

theorem block_mem_fixed {q b : Addr} (hb : b ∈ (dir q).blocks) : b ∈ fixed k dir q :=
  List.mem_cons_of_mem _ (List.mem_cons_of_mem _ hb)

theorem World.inMem (h : World k ps dir) (hp : p ∈ ps) : (dir p).In k.toKmem :=
  ⟨h.holds p hp, fun b hb => h.live p hp b (block_mem_fixed hb)⟩

theorem world_nil (k : Kernel) (dir : Addr → PageDir) : World k [] dir := by
  constructor <;> simp

theorem World.unchanged (h : World k ps dir) (hu : Unchanged k k') : World k' ps dir := by
  have hfix : ∀ q, fixed k' dir q = fixed k dir q := by
    intro q
    rw [fixed, fixed, hu.procs]
  have hal : ∀ q i, allocation k' q i = allocation k q i := by
    intro q i
    rw [allocation, allocation, hu.procs]
  refine ⟨?_, ?_, ?_, ?_, ?_, ?_⟩
  · intro q hq
    rw [pageDirectory, hu.procs, hu.tasks]
    exact h.directory q hq
  · exact fun q hq => ((h.inMem hq).keeps hu.keeps).holds
  · intro q hq b hb
    exact hu.keeps.isLive (h.live q hq b (hfix q ▸ hb))
  · intro q hq r hr
    rw [hfix, hfix]
    exact h.apart q hq r hr
  · intro q hq i hi
    rw [hal, hu.live]
    intro h0
    obtain ⟨h1, h2⟩ := h.held q hq i hi h0
    refine ⟨h1, fun r hr => ?_⟩
    rw [hfix]
    exact h2 r hr
  · intro q hq r hr i hi j hj
    rw [hal, hal]
    exact h.distinct q hq r hr i hi j hj

theorem Malloced.agree {d : PageDir} {i : Nat} (hm : Malloced k k' p ptr size d i) {b : Addr}
    (hb : k.heap.Live b) (hnt : b ∉ d.blocks) : Agree k.mem k'.mem b 4096 := by
  obtain ⟨m1, hf, -, hr⟩ := hm.block
  refine (hf.keeps.page hb).trans (hr.agree fun j hj => ?_)
  refine pages_apart (d.aligned _ (PageDir.table_mem hj)) (Kmem.live_aligned hb) fun he => hnt ?_
  exact he ▸ PageDir.table_mem hj

theorem Malloced.live {d : PageDir} {i : Nat} (hm : Malloced k k' p ptr size d i) :
    k'.heap.live = ⟨ptr, size.toNat⟩ :: k.heap.live := by
  obtain ⟨m1, hf, hh, -⟩ := hm.block
  rw [hh, hf.live_eq]

theorem Malloced.not_live {d : PageDir} {i : Nat} (hm : Malloced k k' p ptr size d i) :
    ¬ k.heap.Live ptr := by
  obtain ⟨m1, hf, -, -⟩ := hm.block
  exact hf.not_live

theorem Malloced.allocation_eq {d : PageDir} {i : Nat} (hm : Malloced k k' p ptr size d i) (q : Addr)
    (j : Nat) : allocation k' q j = if q = p ∧ j = i then ⟨ptr, size⟩ else allocation k q j := by
  rw [allocation, allocation, hm.procs, Function.update_apply]
  by_cases hq : q = p
  · rw [if_pos hq]
    dsimp only
    rw [Function.update_apply, hq]
    simp
  · simp [hq]

theorem Malloced.task_eq {d : PageDir} {i : Nat} (hm : Malloced k k' p ptr size d i) (q : Addr) :
    (k'.procs q).task = (k.procs q).task := by
  rw [hm.procs]
  exact update_field Process.task (by rfl) q

theorem World.malloced (h : World k ps dir) (hp : p ∈ ps) {i : Nat}
    (hm : Malloced k k' p ptr size (dir p) i) : World k' ps dir := by
  have hfix : ∀ q, fixed k' dir q = fixed k dir q := by
    intro q
    rw [fixed, fixed, hm.task_eq]
  have hmono : ∀ b ∈ k.heap.live, b ∈ k'.heap.live := by
    intro b hb
    rw [hm.live]
    exact List.mem_cons_of_mem _ hb
  have hnew : ∀ q ∈ ps, ptr ∉ fixed k dir q := fun q hq hb => hm.not_live (h.live q hq _ hb)
  have hold : ∀ q ∈ ps, ∀ j < maxProgramAllocations, (allocation k q j).ptr ≠ 0 →
      (allocation k q j).ptr ≠ ptr :=
    fun q hq j hj h0 he => hm.not_live (he ▸ ⟨_, (h.held q hq j hj h0).1⟩)
  refine ⟨?_, ?_, ?_, ?_, ?_, ?_⟩
  · intro q hq
    rw [pageDirectory, hm.tasks, hm.task_eq]
    exact h.directory q hq
  · intro q hq
    by_cases hqp : q = p
    · obtain ⟨m1, -, -, hr⟩ := hm.block
      exact hqp ▸ hr.holds
    · refine (h.holds q hq).frame fun b hb => ?_
      have hbf : b ∈ fixed k dir q := block_mem_fixed hb
      refine hm.agree (h.live q hq b hbf) fun hbp => ?_
      exact h.apart q hq p hp hqp b hbf (block_mem_fixed hbp)
  · intro q hq b hb
    rw [hfix] at hb
    obtain ⟨n, hn⟩ := h.live q hq b hb
    exact ⟨n, hmono _ hn⟩
  · intro q hq r hr
    rw [hfix, hfix]
    exact h.apart q hq r hr
  · intro q hq j hj
    rw [hm.allocation_eq]
    split
    · intro _
      refine ⟨?_, fun r hr => hfix r ▸ hnew r hr⟩
      rw [hm.live]
      exact List.mem_cons_self
    · intro h0
      obtain ⟨h1, h2⟩ := h.held q hq j hj h0
      exact ⟨hmono _ h1, fun r hr => hfix r ▸ h2 r hr⟩
  · intro q hq r hr j hj l hl
    rw [hm.allocation_eq, hm.allocation_eq]
    split <;> split
    · rename_i h1 h2
      exact fun _ _ => ⟨h1.1.trans h2.1.symm, h1.2.trans h2.2.symm⟩
    · intro h0 he
      exact absurd he.symm (hold r hr l hl (he ▸ h0))
    · intro h0 he
      exact absurd he (hold q hq j hj h0)
    · exact h.distinct q hq r hr j hj l hl

theorem unjoin_allocation (k : Kernel) (p ptr : Addr) (m : Kmem) (q : Addr) {i : Nat}
    (hi : i < maxProgramAllocations) :
    allocation { k with
        toKmem := m
        procs := Function.update k.procs p (processAllocationUnjoin (k.procs p) ptr) } q i =
      if q = p ∧ (allocation k p i).ptr = ptr then ⟨0, 0⟩ else allocation k q i := by
  rw [allocation]
  dsimp only
  rw [Function.update_apply]
  by_cases hq : q = p
  · rw [if_pos hq, processAllocationUnjoin]
    simp [hq, hi, allocation]
  · simp [hq, allocation]

theorem World.free (h : World k ps dir) (hp : p ∈ ps) (ptr : Addr) :
    World (processFree k p ptr) ps dir := by
  by_cases hheld : Held (k.procs p) ptr
  · rw [processFree_of_held hheld]
    obtain ⟨i, hi, hptr⟩ := hheld
    have htask : ∀ q, ((Function.update k.procs p
        (processAllocationUnjoin (k.procs p) ptr)) q).task = (k.procs q).task := update_field Process.task (by rfl)
    have hfix : ∀ q, fixed { k with
        toKmem := kfree k.toKmem ptr
        procs := Function.update k.procs p (processAllocationUnjoin (k.procs p) ptr) } dir q =
          fixed k dir q := by
      intro q
      rw [fixed, fixed]
      dsimp only
      rw [htask]
    have hnot : ∀ q ∈ ps, ∀ b ∈ fixed k dir q, b ≠ ptr := by
      rintro q hq b hb rfl
      by_cases h0 : b = 0
      · exact k.heap.not_live_zero (h0 ▸ h.live q hq b hb)
      · have hal : (allocation k p i).ptr = b := hptr
        exact (h.held p hp i hi (hal ▸ h0)).2 q hq (hal ▸ hb)
    refine ⟨?_, ?_, ?_, ?_, ?_, ?_⟩
    · intro q hq
      rw [pageDirectory]
      dsimp only
      rw [htask]
      exact h.directory q hq
    · exact h.holds
    · intro q hq b hb
      rw [hfix] at hb
      exact Arena.live_free.mpr ⟨h.live q hq b hb, hnot q hq b hb⟩
    · intro q hq r hr
      rw [hfix, hfix]
      exact h.apart q hq r hr
    · intro q hq j hj
      rw [unjoin_allocation _ _ _ _ _ hj]
      split
      · intro h0
        exact absurd rfl h0
      · rename_i hne
        intro h0
        obtain ⟨h1, h2⟩ := h.held q hq j hj h0
        refine ⟨Arena.mem_free_live.mpr ⟨h1, ?_⟩, fun r hr => hfix r ▸ h2 r hr⟩
        intro he
        have hal : (allocation k p i).ptr = ptr := hptr
        have hqp := h.distinct q hq p hp j hj i hi h0 (he.trans hal.symm)
        exact hne ⟨hqp.1, by rw [hqp.2]; exact hal⟩
    · intro q hq r hr j hj l hl
      rw [unjoin_allocation _ _ _ _ _ hj, unjoin_allocation _ _ _ _ _ hl]
      split
      · intro h0
        exact absurd rfl h0
      · intro h0
        split
        · intro he
          exact absurd he h0
        · exact h.distinct q hq r hr j hj l hl h0
  · rw [processFree_of_not_held hheld]
    exact h

theorem World.malloc (h : World k ps dir) (hp : p ∈ ps) (size : BitVec 32) :
    World (processMalloc k p size).1 ps dir := by
  rcases processMalloc_cases size (h.directory p hp) (h.inMem hp) with ⟨-, hu⟩ | ⟨i, -, hm⟩
  · exact h.unchanged hu
  · exact h.malloced hp hm

/-! ## A new process -/

/-- What `spawn` does when none of its requests fails: the record `p`, its task and the directory
`d` on new blocks, and nothing else touched. -/
structure Spawned (k k' : Kernel) (p : Addr) (d : PageDir) : Prop where
  new : New k.toKmem k'.toKmem d 5
  directory : pageDirectory k' p = d.chunk
  live : ∀ b ∈ p :: (k'.procs p).task :: d.blocks, k'.heap.Live b
  fresh : ∀ b ∈ p :: (k'.procs p).task :: d.blocks, ¬ k.heap.Live b
  empty : ∀ i, (allocation k' p i).ptr = 0
  others : ∀ q, q ≠ p → k'.procs q = k.procs q
  directories : ∀ t, k.heap.Live t → (k'.tasks t).page_directory = (k.tasks t).page_directory

attribute [local irreducible] taskNew taskLink

theorem spawn_eq {k : Kernel} {k1 : Kmem} {p : Addr} (h : kzalloc k.toKmem sizeofProcess = (k1, p)) :
    spawn k =
      (((taskNew { k with toKmem := k1, procs := Function.update k.procs p zeroProcess } p).1.setProc p
          fun q => { q with
            task := (taskNew { k with toKmem := k1, procs := Function.update k.procs p zeroProcess } p).2 }),
        p) := by
  rw [spawn, Kernel.onKmem_eq h]
  rfl

section Linked

variable {k k2 : Kernel} {m : Kmem} {t a q : Addr} {r : Task}

/-- The kernel with a new task `t`, which is that of `p`. -/
def linkedTask (k2 : Kernel) (m : Kmem) (p t : Addr) (r : Task) : Kernel :=
  (taskLink { k2 with toKmem := m, tasks := Function.update k2.tasks t r } t).setProc p fun q => { q with task := t }

theorem linkedTask_toKmem : (linkedTask k2 m p t r).toKmem = m := by
  rw [linkedTask, Kernel.setProc]
  dsimp only
  rw [taskLink_toKmem]

theorem linkedTask_procs (hprocs : k2.procs = Function.update k.procs p zeroProcess) :
    (linkedTask k2 m p t r).procs q = if q = p then { zeroProcess with task := t } else k.procs q := by
  rw [linkedTask, Kernel.setProc]
  dsimp only
  rw [Function.update_apply, taskLink_procs]
  dsimp only
  rw [hprocs, Function.update_self, Function.update_apply]
  split <;> rfl

theorem linkedTask_page_directory : ((linkedTask k2 m p t r).tasks a).page_directory =
    if a = t then r.page_directory else (k2.tasks a).page_directory := by
  rw [linkedTask, Kernel.setProc]
  dsimp only
  rw [taskLink_page_directory]
  dsimp only
  rw [Function.update_apply]
  split <;> rfl

end Linked

theorem spawn_granted {k : Kernel} (hok : (spawn k).1.heap.failures = k.heap.failures) :
    ∃ k1 p k2 m t r d, Fresh k.toKmem k1 p sizeofProcess ∧ k2.toKmem = k1 ∧ k2.tasks = k.tasks ∧
      k2.procs = Function.update k.procs p zeroProcess ∧ NewTask k2 m t r d ∧ spawn k = (linkedTask k2 m p t r, p) := by
  obtain ⟨⟨k1, p⟩, h1⟩ : ∃ r, kzalloc k.toKmem sizeofProcess = r := ⟨_, rfl⟩
  rw [spawn_eq h1] at hok ⊢
  generalize hk2 : ({ k with toKmem := k1, procs := Function.update k.procs p zeroProcess } : Kernel) = k2
    at hok ⊢
  have hfail1 : k2.heap.failures = k1.heap.failures := by rw [← hk2]
  have hle1 := kzalloc_failures_le k.toKmem sizeofProcess
  rw [h1] at hle1
  have hle2 := taskNew_failures_le k2 p
  change (taskNew k2 p).1.heap.failures = _ at hok
  dsimp only at hle1
  have hf := kzalloc_ok (k := k.toKmem) sizeofProcess (by rw [h1]; dsimp only; omega)
  rw [h1] at hf
  obtain ⟨m, t, r, d, hn, heq⟩ := taskNew_ok (k := k2) p (by omega)
  refine ⟨k1, p, k2, m, t, r, d, hf, by rw [← hk2], by rw [← hk2], by rw [← hk2], hn, ?_⟩
  rw [heq]
  rfl

theorem spawn_ok {k : Kernel} (hok : (spawn k).1.heap.failures = k.heap.failures) :
    ∃ d, Spawned k (spawn k).1 (spawn k).2 d := by
  obtain ⟨k1, p, k2, m, t, r, d, hf, hkm, htasks, hprocs, hn, heq⟩ := spawn_granted hok
  rw [heq]
  have hself : (linkedTask k2 m p t r).procs p = { zeroProcess with task := t } := by
    rw [linkedTask_procs hprocs, if_pos rfl]
  have hfresh : ∀ {b}, ¬ k2.heap.Live b → ¬ k.heap.Live b := by
    intro b hb hl
    exact hb (hkm ▸ hf.keeps.isLive hl)
  have hnew := hn.new
  rw [hkm] at hnew
  refine ⟨d, ⟨?_, ?_, ?_, ?_, fun i => ?_, fun q hq => ?_, fun a ha => ?_⟩⟩
  · rw [linkedTask_toKmem]
    exact hnew.of_keeps hf.keeps
  · rw [pageDirectory, linkedTask_page_directory, hself, if_pos rfl]
    exact hn.page_directory
  · rw [hself, linkedTask_toKmem]
    intro b hb
    rcases List.mem_cons.mp hb with rfl | hb
    · exact hnew.keeps.isLive hf.isLive
    rcases List.mem_cons.mp hb with rfl | hb
    · exact hn.live
    · exact hn.new.inMem.live b hb
  · rw [hself]
    intro b hb
    rcases List.mem_cons.mp hb with rfl | hb
    · exact hf.not_live
    rcases List.mem_cons.mp hb with rfl | hb
    · exact hfresh hn.fresh
    · exact hfresh (hn.new.fresh b hb)
  · rw [allocation, hself]
    rfl
  · rw [linkedTask_procs hprocs, if_neg hq]
  · rw [linkedTask_page_directory, htasks, if_neg]
    rintro rfl
    exact hfresh hn.fresh ha

theorem spawn_failures_le (k : Kernel) : k.heap.failures ≤ (spawn k).1.heap.failures := by
  obtain ⟨⟨k1, p⟩, h1⟩ : ∃ r, kzalloc k.toKmem sizeofProcess = r := ⟨_, rfl⟩
  have hle1 := kzalloc_failures_le k.toKmem sizeofProcess
  rw [h1] at hle1
  rw [spawn_eq h1]
  exact le_trans hle1 (taskNew_failures_le
    { k with toKmem := k1, procs := Function.update k.procs p zeroProcess } p)

theorem spawn_spare {k : Kernel} {n : Nat} (h : Spare k.toKmem (n + 1028)) :
    Spare (spawn k).1.toKmem n ∧ (spawn k).1.heap.failures = k.heap.failures := by
  obtain ⟨⟨k1, p⟩, h1⟩ : ∃ r, kzalloc k.toKmem sizeofProcess = r := ⟨_, rfl⟩
  obtain ⟨hs, hf⟩ := Spare.kzalloc (n := n + 1027) h sizeofProcess (by decide)
  rw [h1] at hs hf
  rw [spawn_eq h1]
  obtain ⟨hs2, hf2⟩ := taskNew_spare
    (k := { k with toKmem := k1, procs := Function.update k.procs p zeroProcess }) hs p
  exact ⟨hs2, hf2.trans hf⟩

/-- A process `p` that has been added: its record, its task and its directory `d` on blocks that were
not in use, its table empty, and what was in use kept. -/
structure Settled (k k' : Kernel) (p : Addr) (d : PageDir) : Prop where
  keeps : k.toKmem.Keeps k'.toKmem
  holds : d.Holds k'.mem
  directory : pageDirectory k' p = d.chunk
  live : ∀ b ∈ p :: (k'.procs p).task :: d.blocks, k'.heap.Live b
  fresh : ∀ b ∈ p :: (k'.procs p).task :: d.blocks, ¬ k.heap.Live b
  empty : ∀ i, (allocation k' p i).ptr = 0
  others : ∀ q, q ≠ p → k'.procs q = k.procs q
  directories : ∀ t, k.heap.Live t → (k'.tasks t).page_directory = (k.tasks t).page_directory

theorem Spawned.settled {d : PageDir} (h : Spawned k k' p d) : Settled k k' p d :=
  ⟨h.new.keeps, h.new.inMem.holds, h.directory, h.live, h.fresh, h.empty, h.others, h.directories⟩

theorem World.settled {d : PageDir} (h : World k ps dir) (hs : Settled k k' p d) :
    p ∉ ps ∧ World k' (p :: ps) (Function.update dir p d) := by
  have hpl : ¬ k.heap.Live p := hs.fresh p List.mem_cons_self
  have hps : ∀ q ∈ ps, q ≠ p := fun q hq he => hpl (he ▸ h.live q hq q List.mem_cons_self)
  have hself : fixed k' (Function.update dir p d) p = p :: (k'.procs p).task :: d.blocks := by
    rw [fixed, Function.update_self]
  have hfix : ∀ q ∈ ps, fixed k' (Function.update dir p d) q = fixed k dir q := by
    intro q hq
    rw [fixed, fixed, Function.update_of_ne (hps q hq), hs.others q (hps q hq)]
  have hal : ∀ q ∈ ps, ∀ i, allocation k' q i = allocation k q i := by
    intro q hq i
    rw [allocation, allocation, hs.others q (hps q hq)]
  have hnew : ∀ a, k.heap.Live a → a ∉ fixed k' (Function.update dir p d) p := by
    intro a ha hb
    rw [hself] at hb
    exact hs.fresh a hb ha
  refine ⟨fun hp => hps p hp rfl, ?_, ?_, ?_, ?_, ?_, ?_⟩
  · intro q hq
    rcases List.mem_cons.mp hq with rfl | hq
    · rw [Function.update_self]
      exact hs.directory
    · rw [Function.update_of_ne (hps q hq), pageDirectory, hs.others q (hps q hq),
        hs.directories _ (h.live q hq _ (List.mem_cons_of_mem _ List.mem_cons_self))]
      exact h.directory q hq
  · intro q hq
    rcases List.mem_cons.mp hq with rfl | hq
    · rw [Function.update_self]
      exact hs.holds
    · rw [Function.update_of_ne (hps q hq)]
      exact ((h.inMem hq).keeps hs.keeps).holds
  · intro q hq b hb
    rcases List.mem_cons.mp hq with rfl | hq
    · rw [hself] at hb
      exact hs.live b hb
    · rw [hfix q hq] at hb
      exact hs.keeps.isLive (h.live q hq b hb)
  · intro q hq r hr hne b hb
    rcases List.mem_cons.mp hq with hqp | hq <;> rcases List.mem_cons.mp hr with hrp | hr
    · exact absurd (hqp.trans hrp.symm) hne
    · rw [hqp] at hb
      rw [hfix r hr]
      exact fun hbr => hnew b (h.live r hr b hbr) hb
    · rw [hfix q hq] at hb
      rw [hrp]
      exact hnew b (h.live q hq b hb)
    · rw [hfix r hr]
      rw [hfix q hq] at hb
      exact h.apart q hq r hr hne b hb
  · intro q hq i hi h0
    rcases List.mem_cons.mp hq with rfl | hq
    · exact absurd (hs.empty i) h0
    · rw [hal q hq] at h0 ⊢
      obtain ⟨hl, hout⟩ := h.held q hq i hi h0
      refine ⟨hs.keeps.live _ hl, fun r hr => ?_⟩
      rcases List.mem_cons.mp hr with rfl | hr
      · exact hnew _ ⟨_, hl⟩
      · rw [hfix r hr]
        exact hout r hr
  · intro q hq r hr i hi j hj h0 he
    rcases List.mem_cons.mp hq with rfl | hq
    · exact absurd (hs.empty i) h0
    · rcases List.mem_cons.mp hr with rfl | hr
      · exact absurd (he.trans (hs.empty j)) h0
      · rw [hal q hq] at h0 he
        rw [hal r hr] at he
        exact h.distinct q hq r hr i hi j hj h0 he

theorem World.spawned {d : PageDir} (h : World k ps dir) (hs : Spawned k k' p d) :
    p ∉ ps ∧ World k' (p :: ps) (Function.update dir p d) := h.settled hs.settled

theorem spawn_alone {k : Kernel} (h : Spare k.toKmem 1028) :
    ∃ dir, World (spawn k).1 [(spawn k).2] dir ∧ ∀ i, (allocation (spawn k).1 (spawn k).2 i).ptr = 0 := by
  obtain ⟨d, hs⟩ := spawn_ok (spawn_spare (n := 0) h).2
  exact ⟨_, ((world_nil k fun _ => d).spawned hs).2, hs.empty⟩

end MultitaskOs.ProcessMemory
