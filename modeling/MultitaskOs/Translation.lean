import MultitaskOs.Lib.Mmu
import MultitaskOs.PagingFree

/-!
# What the processor sees of a directory

The kernel works on a directory through the entries of its tables. The processor
walks the same words, and asks the directory's own entries too.
-/

open Lib Lib.Memory Lib.Arena Lib.Run Lib.Mmu MultitaskOs.Paging MultitaskOs.Tasks MultitaskOs.PagingFree

namespace MultitaskOs.Translation

variable {k k' : Kmem} {d : PageDir} {m m' : Mem} {flags : BitVec 32} {f : BitVec 8} {wp : Bool} {a : Access}
    {v x : Addr}

/-! ## The entries of the directory itself -/

/-- What `paging_new_4gb` puts before the flags of a table. -/
def directoryFlags (flags : BitVec 32) : BitVec 32 := flags ||| pagingIsWriteable

/-- The directory's words point at its tables, with the flags `paging_new_4gb` gave them. -/
def Points (d : PageDir) (m : Mem) (flags : BitVec 32) : Prop :=
  ∀ i < 1024, load32 m (index32 d.directory i) = d.table i ||| directoryFlags flags

theorem Points.agree (h : Points d m flags) (hag : Agree m m' d.directory 4096) : Points d m' flags :=
  fun i hi => (agree_word hag hi).trans (h i hi)

theorem Points.keeps (h : Points d k.mem flags) (hd : d.In k) (hk : k.Keeps k') : Points d k'.mem flags :=
  h.agree (hk.page (hd.live _ PageDir.directory_mem))

theorem Points.remap {g : Nat → Option (BitVec 32)} (h : Points d m flags) (hr : Remap d m m' g) :
    Points d m' flags := by
  refine h.agree (hr.agree fun i hi => ?_)
  exact pages_apart (d.aligned _ (PageDir.table_mem hi)) (d.aligned _ PageDir.directory_mem)
    (PageDir.directory_ne_table hi).symm

theorem pagingNew4gb_points (hok : (pagingNew4gb k f).1.heap.failures = k.heap.failures)
    (hchunk : d.chunk = (pagingNew4gb k f).2) (hd : d.Holds (pagingNew4gb k f).1.mem) :
    Points d (pagingNew4gb k f).1.mem (f.setWidth 32) := by
  obtain ⟨directory, s, table, heq, hb, hfresh, -⟩ := pagingNew4gb_built hok
  rw [heq] at hchunk hd ⊢
  -- the store of the chunk misses the page of the directory
  have hkeep :
    s.1.Keeps { (kzalloc s.1 4).1 with mem := store32 (kzalloc s.1 4).1.mem (kzalloc s.1 4).2 directory } := by
    refine hfresh.keeps.store hfresh.mem_live hfresh.not_live fun x hx => store32_of_not_within fun hw => hx ?_
    exact lt_of_lt_of_le hw (by decide : 4 ≤ extent blockSize 4)
  have hdirectory : d.directory = directory := by
    rw [← hd.chunk, hchunk]
    exact load32_store32 _ _ _
  intro i hi
  have hword := (agree_word (hkeep.page ⟨_, hb.dir_live⟩) hi).trans (hb.pointer i hi)
  have htable := hd.tables i hi
  have hlow : (f.setWidth 32 ||| pagingIsWriteable).toNat < 4096 := by
    rw [BitVec.toNat_or, BitVec.toNat_setWidth]
    exact Nat.or_lt_two_pow (n := 12) (by omega) (by decide)
  rw [hdirectory, hword, BitVec.or_assoc, tableAddress_or (Kmem.live_aligned ⟨_, (hb.tables i hi).1⟩) hlow] at htable
  rw [hdirectory, hword, htable, BitVec.or_assoc]
  rfl

/-! ## The walk -/

theorem directorySlot_pageDir (d : PageDir) (v : Addr) :
    directorySlot d.directory v = index32 d.directory (v.toNat / 4096 / 1024) := by
  have hframe : frame d.directory = d.directory := by
    have h := tableAddress_or (f := 0#32) (d.aligned _ PageDir.directory_mem) (by decide)
    rwa [BitVec.or_zero] at h
  rw [directorySlot, hframe, Nat.div_div_eq_div_mul]
  rfl

theorem tableSlot_pageDir (h : d.Holds m) (v : Addr) : tableSlot m d.directory v = d.slot (v.toNat / 4096) := by
  have htable := h.tables (v.toNat / 4096 / 1024) (by omega)
  unfold tableAddress at htable
  rw [tableSlot, directorySlot_pageDir, frame, htable]
  rfl

theorem grants_or {page low : BitVec 32} (hp : page.toNat % 4096 = 0) :
    grants wp a (page ||| low) = grants wp a low := by
  have hbit : ∀ i < 12, (page ||| low).getLsbD i = low.getLsbD i := by
    intro i hi
    rw [BitVec.getLsbD_or, Bits.getLsbD_of_aligned (k := 12) hp hi, Bool.false_or]
  unfold grants
  rw [hbit 0 (by omega), hbit 1 (by omega), hbit 2 (by omega)]

theorem translate_pageDir (h : d.Holds m) (hp : Points d m flags) (wp : Bool) (a : Access) (v : Addr) :
    Mmu.translate wp m d.directory a v =
      if grants wp a (directoryFlags flags) && grants wp a (d.entry m (v.toNat / 4096))
      then some (pagingGetPhysicalAddress m d.directory v) else none := by
  have hi : v.toNat / 4096 / 1024 < 1024 := by omega
  rw [Mmu.translate, tableSlot_pageDir h, directorySlot_pageDir, hp _ hi,
    grants_or (d.aligned _ (PageDir.table_mem hi)), pagingGetPhysicalAddress_spec h]
  rfl

theorem footprint_pageDir (h : d.Holds m) (hx : Footprint m d.directory x) : ∃ b ∈ d.blocks, Within b 4096 x := by
  obtain ⟨v, hw⟩ := hx
  rw [directorySlot_pageDir, tableSlot_pageDir h] at hw
  have hi : v.toNat / 4096 / 1024 < 1024 := by omega
  have hword : ∀ {b : Addr} {i : Nat}, i < 1024 → Within (index32 b i) 4 x → Within b 4096 x := by
    intro b i hi hw
    unfold Within index32 at *
    bv_omega
  rcases hw with hw | hw
  · exact ⟨_, PageDir.directory_mem, hword hi hw⟩
  · exact ⟨_, PageDir.table_mem hi, hword (by omega) hw⟩

/-! ## A whole sequence of calls -/

def written (q : Nat) : Call → Option (BitVec 32)
  | .set virt val => if virt.toNat % 4096 = 0 ∧ virt.toNat / 4096 = q then some val else none
  | .mapTo c => c.entry q

def entryAfter (f : BitVec 8) (calls : List Call) (q : Nat) : BitVec 32 :=
  (calls.reverse.findSome? (written q)).getD (BitVec.ofNat 32 (4096 * q) ||| f.setWidth 32)

theorem step_remap (h : d.Holds m) (c : Call) : Remap d m (PagingFree.step d.chunk m c) fun q => written q c := by
  cases c with
  | mapTo c => exact ((run_mapCall_spec h [c]).congr fun q _ => by rw [lastEntry_cons]; simp [lastEntry, written])
  | set virt val =>
    rw [PagingFree.step, h.chunk]
    by_cases hv : virt.toNat % 4096 = 0
    · rw [pagingSet_spec h hv]
      have hlt : virt.toNat / 4096 < 2 ^ 20 := by omega
      refine ⟨h.set hlt val, fun q hq => ?_, fun x hx => ?_⟩
      · rw [PageDir.entry_set hlt hq, written]
        by_cases hqv : q = virt.toNat / 4096
        · rw [if_pos hqv, if_pos ⟨hv, hqv.symm⟩, Option.getD_some]
        · rw [if_neg hqv, if_neg fun he => hqv he.2.symm, Option.getD_none]
      · refine store32_of_not_within fun hw => hx (virt.toNat / 4096 / 1024) (by omega) ?_
        have hi : virt.toNat / 4096 % 1024 < 1024 := by omega
        unfold PageDir.slot index32 at hw
        unfold Within at *
        bv_omega
    · have hfalse : pagingIsAligned virt = false := by simp [pagingIsAligned, pagingPageSize, hv]
      rw [pagingSet, hfalse]
      refine (Remap.refl h).congr fun q _ => ?_
      rw [written, if_neg fun he => hv he.1]

theorem run_remap (h : d.Holds m) (calls : List Call) :
    Remap d m (run (PagingFree.step d.chunk) m calls) fun q => calls.reverse.findSome? (written q) := by
  induction calls generalizing m with
  | nil => exact Remap.refl h
  | cons c calls ih =>
    have h1 := step_remap h c
    refine (h1.trans (ih h1.holds)).congr fun q _ => ?_
    rw [List.reverse_cons, List.findSome?_append, List.findSome?_singleton]

/-- A translation through the directory at `chunk`, whose tables hold the entries `e`. -/
structure WalksAs (chunk : Addr) (f : BitVec 8) (m : Mem) (e : Nat → BitVec 32) : Prop where
  physical : ∀ v : Addr, pagingGetPhysicalAddress m (load32 m chunk) v = tableAddress (e (v.toNat / 4096)) + v % 4096
  walk : ∀ wp a v, Mmu.translate wp m (load32 m chunk) a v =
    if grants wp a (directoryFlags (f.setWidth 32)) && grants wp a (e (v.toNat / 4096))
    then some (pagingGetPhysicalAddress m (load32 m chunk) v) else none

/-- The processor reaches what `paging_get_physical_address` computes, whatever was set and mapped
before, and faults exactly where an entry denies the access. -/
theorem translate_after_calls (k : Kmem) (f : BitVec 8)
    (hok : (pagingNew4gb k f).1.heap.failures = k.heap.failures) (calls : List Call) :
    WalksAs (pagingNew4gb k f).2 f (run (PagingFree.step (pagingNew4gb k f).2) (pagingNew4gb k f).1.mem calls)
      (entryAfter f calls) := by
  obtain ⟨d, hd, hnew⟩ := pagingNew4gb_spec hok
  have hpoints := pagingNew4gb_points hok hd hnew.inMem.holds
  rw [← hd]
  have hr := run_remap hnew.inMem.holds calls
  have hentry : ∀ v : Addr, d.entry (run (PagingFree.step d.chunk) (pagingNew4gb k f).1.mem calls) (v.toNat / 4096) =
      entryAfter f calls (v.toNat / 4096) := by
    intro v
    rw [hr.entry _ (by omega), hnew.entry _ (by omega)]
    rfl
  constructor
  · intro v
    rw [hr.holds.chunk, pagingGetPhysicalAddress_spec hr.holds, hentry]
  · intro wp a v
    rw [hr.holds.chunk, translate_pageDir hr.holds (hpoints.remap hr), hentry]

theorem translate_after_someCalls :
    WalksAs (pagingNew4gb emptyKmem 7).2 7
      (run (PagingFree.step (pagingNew4gb emptyKmem 7).2) (pagingNew4gb emptyKmem 7).1.mem someCalls)
      (entryAfter 7 someCalls) :=
  translate_after_calls emptyKmem 7 (pagingNew4gb_spare (n := 0) (spare_emptyKmem (by omega)) 7).2 someCalls

end MultitaskOs.Translation
