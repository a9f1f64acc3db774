import MultitaskOs.Task

/-!
# Giving a directory back

`paging_free_4gb` finds the tables through the words of the directory, which
mapping never writes. So it frees what `paging_new_4gb` took.
-/

open Lib Lib.Memory Lib.Arena Lib.Run MultitaskOs.Paging MultitaskOs.Tasks

namespace MultitaskOs.PagingFree

variable {k : Kmem} {flags : BitVec 8} {d : PageDir} {m : Mem}

/-! ## What was taken -/

theorem kzalloc_length (size : Nat) (hok : (kzalloc k size).1.heap.failures = k.heap.failures) :
    (kzalloc k size).1.heap.live.length = k.heap.live.length + 1 := by
  rw [(kzalloc_ok _ hok).live_eq, List.length_cons]

theorem newTables_length (directory : Addr) (flags : BitVec 32) (s : Kmem × BitVec 32) (n : Nat)
    (hok : (forN n (pagingNewTable directory flags) s).1.heap.failures = s.1.heap.failures) :
    (forN n (pagingNewTable directory flags) s).1.heap.live.length = s.1.heap.live.length + n := by
  induction n with
  | zero => rw [forN_zero, Nat.add_zero]
  | succ n ih =>
    rw [forN_succ] at hok ⊢
    have h1 := newTables_failures_le directory flags n s
    have h2 := newTable_failures_le directory flags n (forN n (pagingNewTable directory flags) s)
    have hlast : (pagingNewTable directory flags n (forN n (pagingNewTable directory flags) s)).1.heap.live.length =
        (forN n (pagingNewTable directory flags) s).1.heap.live.length + 1 := kzalloc_length _ (by
      show (pagingNewTable directory flags n (forN n (pagingNewTable directory flags) s)).1.heap.failures = _
      omega)
    rw [hlast, ih (by omega), Nat.add_assoc]

theorem new4gb_length (hok : (pagingNew4gb k flags).1.heap.failures = k.heap.failures) :
    (pagingNew4gb k flags).1.heap.live.length = k.heap.live.length + 1026 := by
  obtain ⟨⟨k1, directory⟩, h1⟩ : ∃ r, kzalloc k (4 * pagingTotalEntriesPerTable) = r := ⟨_, rfl⟩
  obtain ⟨s, hs⟩ : ∃ s, forN pagingTotalEntriesPerTable
      (pagingNewTable directory (flags.setWidth 32)) (k1, 0) = s := ⟨_, rfl⟩
  obtain ⟨hf1, hf2, hf3, hf4⟩ := pagingNew4gb_failures flags h1 hs
  have hlen1 : k1.heap.live.length = k.heap.live.length + 1 := by
    have := kzalloc_length (k := k) (4 * pagingTotalEntriesPerTable) (by rw [h1]; dsimp only; omega)
    rwa [h1] at this
  have hlen2 := newTables_length directory (flags.setWidth 32) (k1, 0) pagingTotalEntriesPerTable
    (by rw [hs]; dsimp only; omega)
  rw [hs] at hlen2
  have hlen3 := kzalloc_length (k := s.1) 4 (by omega)
  have htables : pagingTotalEntriesPerTable = 1024 := rfl
  have heq : (pagingNew4gb k flags).1.heap.live.length = (kzalloc s.1 4).1.heap.live.length := by
    rw [pagingNew4gb_eq h1 hs]
  dsimp only at hlen2
  omega

theorem length_blocks (d : PageDir) : d.blocks.length = 1026 := by simp [PageDir.blocks, blocksOf]

theorem bases_nodup (h : Arena blockSize) : (h.live.map Block.base).Nodup := by
  have hlive : h.live.Nodup := by
    refine h.apart.imp ?_
    rintro a _ hap rfl
    exact Block.apart_irrefl a hap
  exact (List.nodup_map_iff_inj_on hlive).mpr fun b hb c hc he => eq_of_base_eq hb hc he

theorem live_new (hok : (pagingNew4gb k flags).1.heap.failures = k.heap.failures)
    (hn : New k (pagingNew4gb k flags).1 d (flags.setWidth 32)) (b : Block) :
    b ∈ (pagingNew4gb k flags).1.heap.live ↔
      b ∈ k.heap.live ∨ b ∈ (pagingNew4gb k flags).1.heap.live ∧ b.base ∈ d.blocks := by
  constructor
  · intro hb
    by_contra hnot
    push Not at hnot
    obtain ⟨hold, hblock⟩ := hnot
    have hnodup : (b.base :: (d.blocks ++ k.heap.live.map Block.base)).Nodup := by
      rw [List.nodup_cons, List.nodup_append, List.mem_append, not_or]
      refine ⟨⟨hblock hb, fun hk => ?_⟩, d.nodup, bases_nodup k.heap, ?_⟩
      · obtain ⟨c, hc, he⟩ := List.mem_map.mp hk
        exact hold (eq_of_base_eq (hn.keeps.live c hc) hb he ▸ hc)
      · intro a ha _ hk he
        obtain ⟨c, hc, hca⟩ := List.mem_map.mp hk
        refine hn.fresh a ha ⟨c.size, ?_⟩
        rw [he, ← hca]
        exact hc
    have hsub : b.base :: (d.blocks ++ k.heap.live.map Block.base) ⊆
        (pagingNew4gb k flags).1.heap.live.map Block.base := by
      intro a ha
      rw [List.mem_cons, List.mem_append] at ha
      rcases ha with rfl | ha | ha
      · exact List.mem_map_of_mem hb
      · obtain ⟨size, hs⟩ := hn.inMem.live a ha
        exact List.mem_map_of_mem hs
      · obtain ⟨c, hc, rfl⟩ := List.mem_map.mp ha
        exact List.mem_map_of_mem (hn.keeps.live c hc)
    have hle := (List.subperm_of_subset hnodup hsub).length_le
    have hlen := new4gb_length hok
    rw [List.length_cons, List.length_append, length_blocks, List.length_map, List.length_map] at hle
    omega
  · rintro (hb | hb)
    · exact hn.keeps.live b hb
    · exact hb.1

/-! ## What is given back -/

theorem freeTables_log {k : Kmem} (h : d.Holds k.mem) {n : Nat} (hn : n ≤ 1024) :
    (forN n (pagingFreeTable d.chunk) k).heap.freed = k.heap.freed ++ (List.range n).map d.table := by
  induction n with
  | zero =>
    rw [forN_zero]
    simp
  | succ n ih =>
    have hmem := (freeTables_freed k d.chunk n).mem_eq
    have hentry : tableAddress (load32 (forN n (pagingFreeTable d.chunk) k).mem
        (index32 (load32 (forN n (pagingFreeTable d.chunk) k).mem d.chunk) n)) = d.table n := by
      rw [hmem, h.chunk, h.tables n (by omega)]
    rw [forN_succ, pagingFreeTable, hentry, List.range_succ, List.map_append, ← List.append_assoc, ← ih (by omega)]
    rfl

/-- What `paging_free_4gb` gives back, in its order. -/
def freedBlocks (d : PageDir) : List Addr := (List.range 1024).map d.table ++ [d.directory, d.chunk]

theorem freedBlocks_perm (d : PageDir) : (freedBlocks d).Perm d.blocks := by
  rw [freedBlocks, PageDir.blocks, blocksOf]
  generalize (List.range 1024).map d.table = tables
  exact List.perm_append_comm.trans (List.Perm.swap _ _ _)

theorem free4gb_log {k : Kmem} (h : d.Holds k.mem) :
    (pagingFree4gb k d.chunk).heap.freed = k.heap.freed ++ freedBlocks d := by
  have hmem := (freeTables_freed k d.chunk 1024).mem_eq
  have hlog := freeTables_log h (n := 1024) le_rfl
  have hdir : pagingFree4gb k d.chunk =
      kfree (kfree (forN 1024 (pagingFreeTable d.chunk) k) d.directory) d.chunk := by
    rw [pagingFree4gb, hmem, h.chunk]
  have hcons : ([d.directory, d.chunk] : List Addr) = [d.directory] ++ [d.chunk] := rfl
  rw [hdir, freedBlocks, hcons, ← List.append_assoc, ← List.append_assoc, ← hlog]
  rfl

/-! ## A whole sequence of calls -/

inductive Call where
  | set (virt : Addr) (val : BitVec 32)
  | mapTo (c : MapCall)

def step (chunk : Addr) (m : Mem) : Call → Mem
  | .set virt val => (pagingSet m (load32 m chunk) virt val).1
  | .mapTo c => mapCall chunk m c

theorem step_holds (h : d.Holds m) (c : Call) : d.Holds (step d.chunk m c) := by
  cases c with
  | set virt val =>
    rw [step, h.chunk]
    by_cases hv : virt.toNat % 4096 = 0
    · rw [pagingSet_spec h hv]
      exact h.set (by omega) val
    · have hfalse : pagingIsAligned virt = false := by simp [pagingIsAligned, pagingPageSize, hv]
      rw [pagingSet, hfalse]
      exact h
  | mapTo c => exact mapCall_holds h c

theorem run_holds (h : d.Holds m) (calls : List Call) : d.Holds (run (step d.chunk) m calls) := by
  induction calls generalizing m with
  | nil => exact h
  | cons c calls ih => exact ih (step_holds h c)

/-- From `k1` to `k2`, just the 1026 blocks are freed that are live in `k1` and not in `k`, each once. -/
structure FreesExactly (k k1 k2 : Kmem) : Prop where
  freed : ∃ as, k2.heap.freed = k1.heap.freed ++ as ∧ as.Nodup ∧ as.length = 1026 ∧
    ∀ a, a ∈ as ↔ ∃ size, (⟨a, size⟩ : Block) ∈ k1.heap.live ∧ (⟨a, size⟩ : Block) ∉ k.heap.live
  live : ∀ b, b ∈ k2.heap.live ↔ b ∈ k.heap.live

/-- Whatever was set and mapped in between, a directory gives back the blocks it was made of. -/
theorem free4gb_frees_exactly (k : Kmem) (flags : BitVec 8)
    (hok : (pagingNew4gb k flags).1.heap.failures = k.heap.failures) (calls : List Call) :
    FreesExactly k (pagingNew4gb k flags).1 (pagingFree4gb { (pagingNew4gb k flags).1 with
      mem := run (step (pagingNew4gb k flags).2) (pagingNew4gb k flags).1.mem calls } (pagingNew4gb k flags).2) := by
  obtain ⟨d, hd, hn⟩ := pagingNew4gb_spec hok
  have hlive := live_new hok hn
  rw [← hd]
  generalize (pagingNew4gb k flags).1 = k1 at hn hlive
  have hholds : d.Holds (run (step d.chunk) k1.mem calls) := run_holds hn.inMem.holds calls
  generalize hk2 : ({ k1 with mem := run (step d.chunk) k1.mem calls } : Kmem) = k2
  have hholds2 : d.Holds k2.mem := by
    rw [← hk2]
    exact hholds
  have hheap : k2.heap = k1.heap := by rw [← hk2]
  have hperm := freedBlocks_perm d
  constructor
  · refine ⟨freedBlocks d, ?_, hperm.nodup_iff.mpr d.nodup, hperm.length_eq.trans (length_blocks d), ?_⟩
    · rw [free4gb_log hholds2, hheap]
    · intro a
      rw [hperm.mem_iff]
      constructor
      · intro ha
        obtain ⟨size, hs⟩ := hn.inMem.live a ha
        exact ⟨size, hs, fun hk => hn.fresh a ha ⟨size, hk⟩⟩
      · rintro ⟨size, hs, hno⟩
        exact (((hlive _).mp hs).resolve_left hno).2
  · intro b
    obtain ⟨as, hf, has⟩ := pagingFree4gb_freed hholds2
    rw [hf.live, hheap, has]
    constructor
    · rintro ⟨hb, hno⟩
      exact ((hlive b).mp hb).resolve_right fun h => hno h.2
    · intro hb
      exact ⟨hn.keeps.live b hb, fun ha => hn.fresh _ ha ⟨b.size, hb⟩⟩

def someCalls : List Call := [.mapTo ⟨0x400000, 0x1000, 0x3000, 7⟩, .set 0x401001 9, .set 0 0]

theorem free4gb_frees_exactly_someCalls : FreesExactly emptyKmem (pagingNew4gb emptyKmem 7).1
    (pagingFree4gb { (pagingNew4gb emptyKmem 7).1 with
      mem := run (step (pagingNew4gb emptyKmem 7).2) (pagingNew4gb emptyKmem 7).1.mem someCalls }
        (pagingNew4gb emptyKmem 7).2) :=
  free4gb_frees_exactly emptyKmem 7 (pagingNew4gb_spare (n := 0) (spare_emptyKmem (by omega)) 7).2 someCalls

end MultitaskOs.PagingFree
