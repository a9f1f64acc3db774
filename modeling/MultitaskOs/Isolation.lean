import MultitaskOs.ProcessMemory

/-!
# What a process can write

A page that a process may write should be a page of an allocation it holds. The
pages a `process_malloc` maps stay mapped for good, so this lasts until the
first `process_free` of an allocation that has a page.
-/

open Lib Lib.Memory Lib.Arena Lib.Run MultitaskOs.Paging MultitaskOs.Tasks MultitaskOs.ProcessMemory

namespace MultitaskOs.Isolation

def Writeable (entry : BitVec 32) : Prop := entry &&& pagingUserWriteable = pagingUserWriteable

/-- Each page that `p` can write is a page of an allocation in its table. -/
def Isolated (k : Kernel) (p : Addr) : Prop :=
  ∀ v < 2 ^ 20, Writeable (pageEntry k p v) → ∃ i < maxProgramAllocations,
    (allocation k p i).ptr ≠ 0 ∧ PageOf (allocation k p i).ptr (allocation k p i).size v

def spawnAll : Nat → Kernel → Kernel × List Addr
  | 0, k => (k, [])
  | n + 1, k =>
    let r := spawnAll n k
    ((spawn r.1).1, (spawn r.1).2 :: r.2)

inductive Call where
  | malloc (p : Addr) (size : BitVec 32)
  | free (p ptr : Addr)

def Call.process : Call → Addr
  | .malloc p _ => p
  | .free p _ => p

def step (k : Kernel) : Call → Kernel
  | .malloc p size => (processMalloc k p size).1
  | .free p ptr => processFree k p ptr

/-- The call gives back no allocation that has a page. -/
def Harmless (k : Kernel) : Call → Prop
  | .malloc _ _ => True
  | .free p ptr => ∀ i < maxProgramAllocations,
      (allocation k p i).ptr = ptr → ptr ≠ 0 → (allocation k p i).size = 0

variable {k k' : Kernel} {ps : List Addr} {dir : Addr → PageDir} {p ptr : Addr} {size : BitVec 32}

/-! ## Entries -/

theorem writeable_identity (v : Nat) : ¬ Writeable (BitVec.ofNat 32 (4096 * v) ||| 5) := by
  intro h
  have hbit := congrArg (fun e : BitVec 32 => e.getLsbD 1) h
  have h1 : (BitVec.ofNat 32 (4096 * v)).getLsbD 1 = false := by
    rw [BitVec.getLsbD_ofNat, show 4096 * v = 2 ^ 12 * v by norm_num, Nat.testBit_two_pow_mul]
    simp
  simp only [BitVec.getLsbD_and, BitVec.getLsbD_or, h1] at hbit
  exact absurd hbit (by decide)

theorem writeable_or (a : BitVec 32) : Writeable (a ||| pagingUserWriteable) := by
  unfold Writeable
  ext i
  simp only [BitVec.getElem_and, BitVec.getElem_or]
  cases pagingUserWriteable[i] <;> simp

theorem pageEntry_malloced (hw : World k ps dir) (hp : p ∈ ps) {i : Nat}
    (hm : Malloced k k' p ptr size (dir p) i) {q : Addr} (hq : q ∈ ps) {v : Nat} (hv : v < 2 ^ 20) :
    pageEntry k' q v = if q = p ∧ PageOf ptr size v
      then BitVec.ofNat 32 (4096 * v) ||| pagingUserWriteable else pageEntry k q v := by
  have hw' := hw.malloced hp hm
  rw [pageEntry_eq (hw'.directory q hq) (hw'.holds q hq) hv,
    pageEntry_eq (hw.directory q hq) (hw.holds q hq) hv]
  by_cases hqp : q = p
  · obtain ⟨m1, hf, -, hr⟩ := hm.block
    rw [hqp, hr.entry v hv, mallocCall_entry hf.fits.1 hm.accepted hv, (hw.inMem hp).entry_keeps hf.keeps hv]
    by_cases hin : PageOf ptr size v
    · rw [if_pos hin, if_pos ⟨rfl, hin⟩]
      rfl
    · rw [if_neg hin, if_neg fun h => hin h.2]
      rfl
  · rw [if_neg fun h => hqp h.1]
    refine PageDir.entry_frame (fun b hb => ?_) hv
    have hbf : b ∈ fixed k dir q := block_mem_fixed hb
    refine hm.agree (hw.live q hq b hbf) fun hbp => ?_
    exact hw.apart q hq p hp hqp b hbf (block_mem_fixed hbp)

theorem pageEntry_unchanged (hw : World k ps dir) (hu : Unchanged k k') {q : Addr} (hq : q ∈ ps)
    {v : Nat} (hv : v < 2 ^ 20) : pageEntry k' q v = pageEntry k q v := by
  have hw' := hw.unchanged hu
  rw [pageEntry_eq (hw'.directory q hq) (hw'.holds q hq) hv,
    pageEntry_eq (hw.directory q hq) (hw.holds q hq) hv, (hw.inMem hq).entry_keeps hu.keeps hv]

theorem pageEntry_free (k : Kernel) (p ptr q : Addr) (v : Nat) :
    pageEntry (processFree k p ptr) q v = pageEntry k q v := by
  by_cases hheld : Held (k.procs p) ptr
  · have htask : ((Function.update k.procs p
        (processAllocationUnjoin (k.procs p) ptr)) q).task = (k.procs q).task := update_field Process.task (by rfl) q
    rw [processFree_of_held hheld, pageEntry, pageDirectory]
    dsimp only
    rw [htask]
    rfl
  · rw [processFree_of_not_held hheld]

theorem allocation_free (k : Kernel) (p ptr q : Addr) {i : Nat} (hi : i < maxProgramAllocations) :
    allocation (processFree k p ptr) q i =
      if q = p ∧ (allocation k p i).ptr = ptr then ⟨0, 0⟩ else allocation k q i := by
  by_cases hheld : Held (k.procs p) ptr
  · rw [processFree_of_held hheld, unjoin_allocation _ _ _ _ _ hi]
  · rw [processFree_of_not_held hheld, if_neg]
    exact fun h => hheld ⟨i, hi, h.2⟩

/-! ## One call -/

/-- The world, and the pages of each allocation mapped writeable for its process and no others. -/
structure Inv (ps : List Addr) (dir : Addr → PageDir) (k : Kernel) : Prop where
  world : World k ps dir
  isolated : ∀ p ∈ ps, Isolated k p
  mapped : ∀ p ∈ ps, ∀ i < maxProgramAllocations, (allocation k p i).ptr ≠ 0 → ∀ v < 2 ^ 20,
    PageOf (allocation k p i).ptr (allocation k p i).size v → Writeable (pageEntry k p v)

theorem Inv.malloc (h : Inv ps dir k) (hp : p ∈ ps) (size : BitVec 32) :
    Inv ps dir (processMalloc k p size).1 := by
  have hw := h.world.malloc hp size
  rcases processMalloc_cases size (h.world.directory p hp) (h.world.inMem hp)
    with ⟨-, hu⟩ | ⟨i, h0, hm⟩
  · have hal : ∀ q j, allocation (processMalloc k p size).1 q j = allocation k q j := by
      intro q j
      rw [allocation, allocation, hu.procs]
    refine ⟨hw, ?_, ?_⟩
    · intro q hq v hv
      simp only [hal]
      rw [pageEntry_unchanged h.world hu hq hv]
      exact h.isolated q hq v hv
    · intro q hq j hj
      rw [hal]
      intro hj0 v hv hin
      rw [pageEntry_unchanged h.world hu hq hv]
      exact h.mapped q hq j hj hj0 v hv hin
  · refine ⟨hw, ?_, ?_⟩
    · intro q hq v hv
      rw [pageEntry_malloced h.world hp hm hq hv]
      split
      · rename_i hin
        intro _
        refine ⟨i, hm.slot, ?_⟩
        rw [hm.allocation_eq, if_pos ⟨hin.1, rfl⟩]
        exact ⟨h0, hin.2⟩
      · intro hwr
        obtain ⟨j, hj, hj0, hin⟩ := h.isolated q hq v hv hwr
        refine ⟨j, hj, ?_⟩
        rw [hm.allocation_eq, if_neg]
        · exact ⟨hj0, hin⟩
        · rintro ⟨rfl, rfl⟩
          exact hj0 hm.was_free
    · intro q hq j hj
      rw [hm.allocation_eq]
      intro hj0 v hv hin
      rw [pageEntry_malloced h.world hp hm hq hv]
      split at hin
      · rename_i hnew
        rw [if_pos ⟨hnew.1, hin⟩]
        exact writeable_or _
      · rename_i hold
        rw [if_neg hold] at hj0
        split
        · exact writeable_or _
        · exact h.mapped q hq j hj hj0 v hv hin

theorem Inv.free (h : Inv ps dir k) (hp : p ∈ ps) (hok : Harmless k (.free p ptr)) :
    Inv ps dir (processFree k p ptr) := by
  refine ⟨h.world.free hp ptr, ?_, ?_⟩
  · intro q hq v hv
    rw [pageEntry_free]
    intro hwr
    obtain ⟨j, hj, hj0, hin⟩ := h.isolated q hq v hv hwr
    refine ⟨j, hj, ?_⟩
    rw [allocation_free _ _ _ _ hj, if_neg]
    · exact ⟨hj0, hin⟩
    · rintro ⟨rfl, hptr⟩
      have hsize := hok j hj hptr (hptr ▸ hj0)
      have h0 : (0 : BitVec 32).toNat = 0 := rfl
      rw [PageOf, hsize, h0] at hin
      omega
  · intro q hq j hj
    rw [allocation_free _ _ _ _ hj]
    intro hj0 v hv hin
    rw [pageEntry_free]
    split at hin
    · rename_i hgone
      rw [if_pos hgone] at hj0
      exact absurd rfl hj0
    · rename_i hkept
      rw [if_neg hkept] at hj0
      exact h.mapped q hq j hj hj0 v hv hin

/-- An allocation with a page, given back: its first page stays writeable, and no allocation that
is left reaches into it. -/
theorem Inv.free_breaks (h : Inv ps dir k) (hp : p ∈ ps) (hbad : ¬ Harmless k (.free p ptr)) :
    ¬ Isolated (processFree k p ptr) p := by
  simp only [Harmless, not_forall] at hbad
  obtain ⟨i, hi, hptr, h0, hsize⟩ := hbad
  intro hiso
  have hi0 : (allocation k p i).ptr ≠ 0 := hptr ▸ h0
  obtain ⟨hlive, -⟩ := h.world.held p hp i hi hi0
  have halign := Kmem.live_aligned ⟨_, hlive⟩
  have hpos : 0 < (allocation k p i).size.toNat :=
    Nat.pos_of_ne_zero fun hz => hsize (BitVec.eq_of_toNat_eq hz)
  have hpage : PageOf (allocation k p i).ptr (allocation k p i).size ((allocation k p i).ptr.toNat / 4096) := by
    unfold PageOf
    omega
  have hv : (allocation k p i).ptr.toNat / 4096 < 2 ^ 20 := by
    have := (allocation k p i).ptr.isLt
    omega
  have hwr := h.mapped p hp i hi hi0 _ hv hpage
  rw [← pageEntry_free k p ptr] at hwr
  obtain ⟨j, hj, hj0, hin⟩ := hiso _ hv hwr
  rw [allocation_free _ _ _ _ hj] at hj0 hin
  split at hj0
  · exact hj0 rfl
  · rename_i hkept
    rw [if_neg hkept] at hin
    obtain ⟨hlive', -⟩ := h.world.held p hp j hj hj0
    have hne : (allocation k p j).ptr ≠ (allocation k p i).ptr :=
      fun he => hkept ⟨rfl, he.trans hptr⟩
    have hap := apart_of_ne hlive' hlive hne
    have hle := size_le_extent (g := blockSize) (allocation k p j).size.toNat
    have hle' := le_extent (g := blockSize) (allocation k p i).size.toNat
    unfold Block.Apart at hap
    unfold PageOf at hin
    dsimp only at hap
    have hb : 0 < blockSize := by decide
    omega

/-! ## Runs -/

/-- Processes as they are before their first call: empty tables, and directories that map every
page to itself for reading. -/
structure Start (k : Kernel) (ps : List Addr) (dir : Addr → PageDir) : Prop where
  world : World k ps dir
  empty : ∀ p ∈ ps, ∀ i, (allocation k p i).ptr = 0
  entry : ∀ p ∈ ps, ∀ v < 2 ^ 20, pageEntry k p v = BitVec.ofNat 32 (4096 * v) ||| 5

theorem start_nil (k : Kernel) (dir : Addr → PageDir) : Start k [] dir :=
  ⟨world_nil k dir, by simp, by simp⟩

theorem Start.inv (h : Start k ps dir) : Inv ps dir k := by
  refine ⟨h.world, ?_, ?_⟩
  · intro p hp v hv hwr
    rw [h.entry p hp v hv] at hwr
    exact absurd hwr (writeable_identity v)
  · exact fun p hp i _ h0 => absurd (h.empty p hp i) h0

theorem Start.spawn {d : PageDir} (h : Start k ps dir) (hs : Spawned k k' p d) :
    Start k' (p :: ps) (Function.update dir p d) := by
  obtain ⟨hpps, hw⟩ := h.world.spawned hs
  refine ⟨hw, ?_, ?_⟩
  · intro q hq i
    rcases List.mem_cons.mp hq with rfl | hq'
    · exact hs.empty i
    · have hne : q ≠ p := fun he => hpps (he ▸ hq')
      rw [allocation, hs.others q hne]
      exact h.empty q hq' i
  · intro q hq v hv
    rw [pageEntry_eq (hw.directory q hq) (hw.holds q hq) hv]
    rcases List.mem_cons.mp hq with rfl | hq'
    · rw [Function.update_self]
      exact hs.new.entry v hv
    · have hne : q ≠ p := fun he => hpps (he ▸ hq')
      rw [Function.update_of_ne hne, (h.world.inMem hq').entry_keeps hs.new.keeps hv,
        ← pageEntry_eq (h.world.directory q hq') (h.world.holds q hq') hv]
      exact h.entry q hq' v hv

attribute [local irreducible] spawn

theorem spawnAll_failures_le (n : Nat) (k : Kernel) :
    k.heap.failures ≤ (spawnAll n k).1.heap.failures := by
  induction n with
  | zero => exact le_rfl
  | succ n ih => exact ih.trans (spawn_failures_le (spawnAll n k).1)

theorem spawnAll_start {n : Nat} (hok : (spawnAll n k).1.heap.failures = k.heap.failures) :
    ∃ dir, Start (spawnAll n k).1 (spawnAll n k).2 dir := by
  induction n with
  | zero =>
    obtain ⟨d⟩ := exists_pageDir
    exact ⟨fun _ => d, start_nil k _⟩
  | succ n ih =>
    have hle := spawnAll_failures_le n k
    have hle' := spawn_failures_le (spawnAll n k).1
    have hok' : (spawn (spawnAll n k).1).1.heap.failures = k.heap.failures := hok
    obtain ⟨dir, hstart⟩ := ih (by omega)
    obtain ⟨d, hs⟩ := spawn_ok (k := (spawnAll n k).1) (by omega)
    exact ⟨_, hstart.spawn hs⟩

theorem spawnAll_spare {n m : Nat} (h : Spare k.toKmem (m + 1028 * n)) :
    Spare (spawnAll n k).1.toKmem m ∧ (spawnAll n k).1.heap.failures = k.heap.failures := by
  induction n generalizing m with
  | zero => exact ⟨h, rfl⟩
  | succ n ih =>
    obtain ⟨hs, hf⟩ := ih (m := m + 1028) (h.mono (by omega))
    obtain ⟨hs', hf'⟩ := spawn_spare hs
    exact ⟨hs', hf'.trans hf⟩

attribute [local irreducible] processMalloc processFree spawnAll

/-- In every state of the run, each process can write only pages of allocations it holds, exactly
when no call of the run gives back an allocation that has a page. -/
theorem isolation_iff (h : Start k ps dir) {calls : List Call} (hcalls : ∀ c ∈ calls, c.process ∈ ps) :
    Along step (fun k => ∀ p ∈ ps, Isolated k p) k calls ↔ Each step Harmless k calls := by
  have hlegal : Each step (fun _ c => c.process ∈ ps) k calls := each_iff_forall.mpr hcalls
  refine along_iff_each (Inv ps dir) (fun _ h => h.isolated) ?_ ?_ h.inv hlegal
  · intro k c h hp hok
    cases c with
    | malloc p size => exact h.malloc hp size
    | free p ptr => exact h.free hp hok
  · intro k c h hp hbad hiso
    cases c with
    | malloc p size => exact hbad trivial
    | free p ptr => exact h.free_breaks hp hbad (hiso p hp)

theorem isolation_twoProcesses :
    Along step (fun k => ∀ p ∈ (spawnAll 2 emptyKernel).2, Isolated k p) (spawnAll 2 emptyKernel).1
        ((spawnAll 2 emptyKernel).2.map fun p => .malloc p 5000) ↔
      Each step Harmless (spawnAll 2 emptyKernel).1
        ((spawnAll 2 emptyKernel).2.map fun p => .malloc p 5000) := by
  obtain ⟨dir, h⟩ := spawnAll_start (n := 2) (k := emptyKernel)
    (spawnAll_spare (m := 0) (spare_emptyKmem (by omega))).2
  refine isolation_iff h fun c hc => ?_
  obtain ⟨p, hp, rfl⟩ := List.mem_map.mp hc
  exact hp

/-! ## A page that outlives its allocation -/

theorem mallocCall_accepted {size : BitVec 32} (hptr : ptr.toNat % 4096 = 0)
    (hroom : ptr.toNat + size.toNat + 4096 ≤ 2 ^ 32) : ¬ (mallocCall ptr size).Rejected := by
  have hadd : (ptr + size).toNat = ptr.toNat + size.toNat := by
    rw [BitVec.toNat_add]
    omega
  have hend := toNat_alignAddress (ptr + size)
  rw [hadd] at hend
  rintro (h | h | h | h)
  · exact h hptr
  · exact h hptr
  · dsimp only [mallocCall] at h
    omega
  · dsimp only [mallocCall] at h
    rw [BitVec.lt_def] at h
    omega

theorem malloc_one_ne_zero (hw : World k ps dir) (hp : p ∈ ps) (hs : Spare k.toKmem 1)
    (hfree : (allocation k p 0).ptr = 0) : (processMalloc k p 1).2 ≠ 0 := by
  obtain ⟨⟨m1, ptr⟩, h1⟩ : ∃ r, kzalloc k.toKmem (1 : BitVec 32).toNat = r := ⟨_, rfl⟩
  have hroom := hs.kzalloc_room (n := 0) (1 : BitVec 32).toNat (by decide)
  have hf := kzalloc_ok _ (hs.kzalloc (n := 0) (1 : BitVec 32).toNat (by decide)).2
  rw [h1] at hroom hf
  dsimp only at hroom hf
  have hone : (1 : BitVec 32).toNat = 1 := rfl
  have hstride : bumpStride = 16384 := rfl
  have hacc : ¬ (mallocCall ptr 1).Rejected :=
    mallocCall_accepted (Kmem.live_aligned hf.isLive) (by omega)
  have hidx : ¬ processFindFreeAllocationIndex (k.procs p) < 0 := by
    obtain ⟨i, hi⟩ := held_iff.mp (⟨0, by decide, hfree⟩ : Held (k.procs p) 0)
    rw [freeIndex_some hi]
    omega
  obtain ⟨m2, hm2, -⟩ := pagingMapTo_spec ((hw.inMem hp).keeps hf.keeps).holds (mallocCall ptr 1)
  rw [if_neg hacc] at hm2
  have hd : pageDirectory { k with toKmem := m1 } p = (dir p).chunk := hw.directory p hp
  have hmap : pagingMapTo m1.mem (dir p).chunk ptr ptr (pagingAlignAddress (ptr + 1))
      pagingUserWriteable = (m2, 0) := hm2
  rw [processMalloc, Kernel.onKmem_eq h1]
  dsimp only
  rw [if_neg hf.ne_zero, if_neg hidx, hd, hmap]
  exact hf.ne_zero

theorem malloc_free_breaks (h : Start k ps dir) (hp : p ∈ ps) (hs : Spare k.toKmem 1) :
    ¬ Along step (fun k => ∀ p ∈ ps, Isolated k p) k
      [.malloc p 1, .free p (processMalloc k p 1).2] := by
  rintro ⟨-, -, hiso⟩
  have hinv := h.inv
  rcases processMalloc_cases 1 (h.world.directory p hp) (h.world.inMem hp)
    with ⟨h0, -⟩ | ⟨i, h0, hm⟩
  · exact malloc_one_ne_zero h.world hp hs (h.empty p hp 0) h0
  · refine (hinv.malloc hp 1).free_breaks hp (fun hok => ?_) (hiso p hp)
    have hnew := hm.allocation_eq p i
    rw [if_pos ⟨rfl, rfl⟩] at hnew
    have hsize := hok i hm.slot (congrArg ProcessAllocation.ptr hnew) h0
    rw [hnew] at hsize
    exact absurd (show (1 : BitVec 32) = 0 from hsize) (by decide)

theorem freed_page_stays_writeable :
    ¬ Along step (fun k => ∀ p ∈ [(spawn emptyKernel).2], Isolated k p) (spawn emptyKernel).1
      [.malloc (spawn emptyKernel).2 1,
        .free (spawn emptyKernel).2 (processMalloc (spawn emptyKernel).1 (spawn emptyKernel).2 1).2] := by
  obtain ⟨hs, hok⟩ := spawn_spare (k := emptyKernel) (n := 1) (spare_emptyKmem (by omega))
  obtain ⟨d, hspawned⟩ := spawn_ok hok
  exact malloc_free_breaks ((start_nil emptyKernel fun _ => d).spawn hspawned)
    (List.mem_singleton_self _) hs

end MultitaskOs.Isolation
