import MultitaskOs.Code.Elf
import MultitaskOs.Lib.Extremum

/-!
# The bounds of an image

`elf_process_pheaders` keeps the least and the greatest address so far, and a
bound of 0 is one that is not set yet. A segment may well begin at 0.
-/

open Lib Lib.Memory Lib.Run Lib.Extremum

namespace MultitaskOs.ElfBounds

/-- What `elf_process_pheader` reads of a program header. -/
structure Phdr where
  p_type : BitVec 32
  p_offset : BitVec 32
  p_vaddr : BitVec 32
  p_filesz : BitVec 32
deriving DecidableEq

def phdrAt (m : Mem) (phdr : Addr) : Phdr := ⟨pType m phdr, pOffset m phdr, pVaddr m phdr, pFilesz m phdr⟩

def headers (m : Mem) (header : Addr) : List Phdr :=
  (List.range (ePhnum m header).toNat).map fun i => phdrAt m (elfProgramHeader m header i)

/-- `elf_process_phdr_pt_load` on a header that is read. -/
def ptLoadStep (f : ElfFile) (h : Phdr) : ElfFile :=
  let f := if h.p_vaddr ≤ f.virtual_base_address ∨ f.virtual_base_address = 0 then
      { f with virtual_base_address := h.p_vaddr, physical_base_address := f.elf_memory + h.p_offset }
    else f
  if f.virtual_end_address ≤ h.p_vaddr + h.p_filesz ∨ f.virtual_end_address = 0 then
    { f with
      virtual_end_address := h.p_vaddr + h.p_filesz
      physical_end_address := f.elf_memory + h.p_offset + h.p_filesz }
  else f

def pheaderStep (f : ElfFile) (h : Phdr) : ElfFile := if h.p_type = ptLoad then ptLoadStep f h else f

def loads (hs : List Phdr) : List Phdr := hs.filter (·.p_type = ptLoad)

def fileEnd (h : Phdr) : Nat := h.p_vaddr.toNat + h.p_filesz.toNat

/-- The bounds are those of the segments, and each belongs to a header that has it. -/
structure Bounds (hs : List Phdr) (f : ElfFile) : Prop where
  base : IsLeast {v | ∃ h ∈ loads hs, h.p_vaddr.toNat = v} f.virtual_base_address.toNat
  greatest : IsGreatest {e | ∃ h ∈ loads hs, fileEnd h = e} f.virtual_end_address.toNat
  physBase : ∃ h ∈ loads hs, h.p_vaddr = f.virtual_base_address ∧
    f.physical_base_address = f.elf_memory + h.p_offset
  physEnd : ∃ h ∈ loads hs, fileEnd h = f.virtual_end_address.toNat ∧
    f.physical_end_address = f.elf_memory + h.p_offset + h.p_filesz

/-- The same headers in another order give the same virtual bounds. -/
def OrderFree (f : ElfFile) (hs : List Phdr) : Prop :=
  ∀ hs' : List Phdr, hs'.Perm hs →
    (hs'.foldl pheaderStep f).virtual_base_address = (hs.foldl pheaderStep f).virtual_base_address ∧
    (hs'.foldl pheaderStep f).virtual_end_address = (hs.foldl pheaderStep f).virtual_end_address

variable {m : Mem} {f : ElfFile} {hs ls : List Phdr} {h : Phdr}

/-! ## One header after another -/

theorem elfProcessPheader_eq (m : Mem) (phdr : Addr) (f : ElfFile) :
    elfProcessPheader m phdr f = pheaderStep f (phdrAt m phdr) := rfl

theorem elfProcessPheaders_eq (m : Mem) (f : ElfFile) :
    elfProcessPheaders m f = (headers m f.elf_memory).foldl pheaderStep f := by
  unfold elfProcessPheaders headers
  dsimp only
  generalize (ePhnum m f.elf_memory).toNat = n
  generalize f.elf_memory = a
  induction n with
  | zero => rw [forN_zero, List.range_zero, List.map_nil, List.foldl_nil]
  | succ n ih =>
    rw [forN_succ, ih, List.range_succ, List.map_append, List.foldl_append, elfProcessPheader_eq]
    rfl

theorem foldl_loads (f : ElfFile) (hs : List Phdr) : hs.foldl pheaderStep f = (loads hs).foldl ptLoadStep f := by
  rw [loads, List.foldl_filter]
  refine congrArg (fun g => hs.foldl g f) ?_
  funext f h
  simp [pheaderStep]

/-- What a header makes of the bounds at its beginning. -/
def baseOf (elf_memory : Addr) (h : Phdr) : Addr × Addr := (h.p_vaddr, elf_memory + h.p_offset)

def endOf (elf_memory : Addr) (h : Phdr) : Addr × Addr :=
  (h.p_vaddr + h.p_filesz, elf_memory + h.p_offset + h.p_filesz)

def bases (f : ElfFile) : Addr × Addr := (f.virtual_base_address, f.physical_base_address)

def ends (f : ElfFile) : Addr × Addr := (f.virtual_end_address, f.physical_end_address)

theorem ptLoadStep_eq (f : ElfFile) (h : Phdr) : (ptLoadStep f h).elf_memory = f.elf_memory ∧
    bases (ptLoadStep f h) = keep 0 (· ≤ ·) (bases f) (baseOf f.elf_memory h) ∧
    ends (ptLoadStep f h) = keep 0 (· ≥ ·) (ends f) (endOf f.elf_memory h) := by
  unfold ptLoadStep keep bases ends baseOf endOf
  dsimp only
  split_ifs <;> simp_all

theorem foldl_ptLoadStep (f : ElfFile) (ls : List Phdr) : (ls.foldl ptLoadStep f).elf_memory = f.elf_memory ∧
    bases (ls.foldl ptLoadStep f) = (ls.map (baseOf f.elf_memory)).foldl (keep 0 (· ≤ ·)) (bases f) ∧
    ends (ls.foldl ptLoadStep f) = (ls.map (endOf f.elf_memory)).foldl (keep 0 (· ≥ ·)) (ends f) := by
  induction ls generalizing f with
  | nil => exact ⟨rfl, rfl, rfl⟩
  | cons h ls ih =>
    obtain ⟨hm, hb, he⟩ := ih (ptLoadStep f h)
    obtain ⟨hm1, hb1, he1⟩ := ptLoadStep_eq f h
    rw [hm1] at hm hb he
    rw [hb1] at hb
    rw [he1] at he
    exact ⟨hm, hb, he⟩

/-! ## The bounds -/

def NoneAtZero (hs : List Phdr) : Prop := ∀ h ∈ loads hs, h.p_vaddr ≠ 0

def LastAtZero (hs : List Phdr) : Prop := ∃ h ∈ (loads hs).getLast?, h.p_vaddr = 0

def AllAtZero (hs : List Phdr) : Prop := ∀ h ∈ loads hs, h.p_vaddr = 0

/-- The record of an image that `elf_load` has just made. -/
def Unset (f : ElfFile) : Prop := f.virtual_base_address = 0 ∧ f.virtual_end_address = 0

theorem toNat_end (h : Phdr) (hwrap : fileEnd h < 2 ^ 32) : (h.p_vaddr + h.p_filesz).toNat = fileEnd h := by
  unfold fileEnd at *
  rw [BitVec.toNat_add, Nat.mod_eq_of_lt hwrap]

theorem base_attained (hf : Unset f) (hload : loads hs ≠ []) :
    ∃ h ∈ loads hs, h.p_vaddr = (hs.foldl pheaderStep f).virtual_base_address ∧
      (hs.foldl pheaderStep f).physical_base_address = f.elf_memory + h.p_offset := by
  obtain ⟨-, hb, -⟩ := foldl_ptLoadStep f (loads hs)
  rw [← foldl_loads, bases, bases, hf.1] at hb
  have hmem := foldl_keep_mem (0 : Addr) (· ≤ ·) f.physical_base_address
    ((loads hs).map (baseOf f.elf_memory)) (by simpa using hload)
  rw [← hb, List.mem_map] at hmem
  obtain ⟨h, hh, heq⟩ := hmem
  exact ⟨h, hh, congrArg Prod.fst heq, (congrArg Prod.snd heq).symm⟩

theorem end_attained (hf : Unset f) (hload : loads hs ≠ []) (hwrap : ∀ h ∈ loads hs, fileEnd h < 2 ^ 32) :
    ∃ h ∈ loads hs, fileEnd h = (hs.foldl pheaderStep f).virtual_end_address.toNat ∧
      (hs.foldl pheaderStep f).physical_end_address = f.elf_memory + h.p_offset + h.p_filesz := by
  obtain ⟨-, -, he⟩ := foldl_ptLoadStep f (loads hs)
  rw [← foldl_loads, ends, ends, hf.2] at he
  have hmem := foldl_keep_mem (0 : Addr) (· ≥ ·) f.physical_end_address
    ((loads hs).map (endOf f.elf_memory)) (by simpa using hload)
  rw [← he, List.mem_map] at hmem
  obtain ⟨h, hh, heq⟩ := hmem
  refine ⟨h, hh, ?_, (congrArg Prod.snd heq).symm⟩
  rw [← toNat_end h (hwrap h hh)]
  exact congrArg (fun e : Addr × Addr => e.1.toNat) heq

/-- No end is less than 0, so the mark for none is never in the way. -/
theorem end_greatest (hf : Unset f) (hwrap : ∀ h ∈ loads hs, fileEnd h < 2 ^ 32) :
    ∀ h ∈ loads hs, fileEnd h ≤ (hs.foldl pheaderStep f).virtual_end_address.toNat := by
  obtain ⟨-, -, he⟩ := foldl_ptLoadStep f (loads hs)
  rw [← foldl_loads, ends, ends, hf.2] at he
  have hbest := foldl_keep_best (0 : Addr) (· ≥ ·) f.physical_end_address
    ((loads hs).map (endOf f.elf_memory)) fun _ y _ => BitVec.le_def.mpr (Nat.zero_le _)
  rw [← he] at hbest
  intro h hh
  rw [← toNat_end h (hwrap h hh)]
  exact hbest _ (List.mem_map_of_mem hh)

theorem base_least (hf : Unset f) (hzero : NoneAtZero hs ∨ AllAtZero hs) :
    ∀ h ∈ loads hs, (hs.foldl pheaderStep f).virtual_base_address.toNat ≤ h.p_vaddr.toNat := by
  obtain ⟨-, hb, -⟩ := foldl_ptLoadStep f (loads hs)
  rw [← foldl_loads, bases, bases, hf.1] at hb
  have hbest := foldl_keep_best (0 : Addr) (· ≤ ·) f.physical_base_address
    ((loads hs).map (baseOf f.elf_memory)) ?_
  · rw [← hb] at hbest
    exact fun h hh => hbest _ (List.mem_map_of_mem hh)
  · intro hmem y hy
    rw [List.map_map, List.mem_map] at hmem
    obtain ⟨h, hh, h0⟩ := hmem
    obtain ⟨g, hg, rfl⟩ := List.mem_map.mp hy
    rcases hzero with hnone | hall
    · exact absurd h0 (hnone h hh)
    · exact BitVec.le_of_eq (hall g hg)

theorem base_eq_zero_iff (hf : Unset f) (hload : loads hs ≠ []) :
    (hs.foldl pheaderStep f).virtual_base_address = 0 ↔ LastAtZero hs := by
  obtain ⟨-, hb, -⟩ := foldl_ptLoadStep f (loads hs)
  rw [← foldl_loads, bases, bases, hf.1] at hb
  unfold LastAtZero
  obtain ⟨ls, h, heq⟩ := (List.eq_nil_or_concat' (loads hs)).resolve_left hload
  have hiff := foldl_keep_eq_unset_iff (0 : Addr) (· ≤ ·) f.physical_base_address
    (ls.map (baseOf f.elf_memory)) (baseOf f.elf_memory h) fun a => BitVec.le_def.mpr (Nat.zero_le _)
  rw [heq] at hb ⊢
  rw [List.map_append, List.map_singleton] at hb
  rw [← hb] at hiff
  rw [List.getLast?_concat]
  simpa [baseOf] using hiff

theorem bounds_iff (hf : Unset f) (hload : loads hs ≠ []) (hwrap : ∀ h ∈ loads hs, fileEnd h < 2 ^ 32) :
    Bounds hs (hs.foldl pheaderStep f) ↔ NoneAtZero hs ∨ LastAtZero hs := by
  obtain ⟨hm, -, -⟩ := foldl_ptLoadStep f (loads hs)
  rw [← foldl_loads] at hm
  have hzero := base_eq_zero_iff hf hload
  obtain ⟨h, hh, hbase, hphys⟩ := base_attained hf hload
  constructor
  · intro hb
    by_contra hnot
    unfold NoneAtZero at hnot
    push Not at hnot
    obtain ⟨⟨g, hg, hg0⟩, hlast⟩ := hnot
    have hle := hb.base.2 ⟨g, hg, rfl⟩
    rw [hg0] at hle
    exact hlast (hzero.mp (BitVec.eq_of_toNat_eq (Nat.le_zero.mp hle)))
  · intro hcond
    refine ⟨⟨⟨h, hh, by rw [hbase]⟩, ?_⟩, ⟨?_, ?_⟩, ⟨h, hh, hbase, by rw [hphys, hm]⟩, ?_⟩
    · rintro v ⟨g, hg, rfl⟩
      rcases hcond with hnone | hlast
      · exact base_least hf (Or.inl hnone) g hg
      · rw [hzero.mpr hlast]
        exact Nat.zero_le _
    · obtain ⟨g, hg, hend, -⟩ := end_attained hf hload hwrap
      exact ⟨g, hg, hend⟩
    · rintro e ⟨g, hg, rfl⟩
      exact end_greatest hf hwrap g hg
    · rw [hm]
      exact end_attained hf hload hwrap

/-! ## Other orders -/

theorem NoneAtZero.perm {hs' : List Phdr} (h : NoneAtZero hs) (hperm : hs'.Perm hs) : NoneAtZero hs' :=
  fun g hg => h g ((hperm.filter _).mem_iff.mp hg)

theorem AllAtZero.perm {hs' : List Phdr} (h : AllAtZero hs) (hperm : hs'.Perm hs) : AllAtZero hs' :=
  fun g hg => h g ((hperm.filter _).mem_iff.mp hg)

theorem AllAtZero.last (h : AllAtZero hs) (hload : loads hs ≠ []) : LastAtZero hs := by
  have hlast := List.getLast?_eq_some_getLast hload
  exact ⟨_, hlast, h _ (List.getLast_mem hload)⟩

theorem orderFree_of_bounds (hf : Unset f) (hload : loads hs ≠ []) (hwrap : ∀ h ∈ loads hs, fileEnd h < 2 ^ 32)
    (hzero : NoneAtZero hs ∨ AllAtZero hs) : OrderFree f hs := by
  have hbounds : ∀ hs' : List Phdr, hs'.Perm hs → Bounds hs' (hs'.foldl pheaderStep f) := by
    intro hs' hperm
    have hmem : ∀ g, g ∈ loads hs' ↔ g ∈ loads hs := fun g => (hperm.filter _).mem_iff
    have hload' : loads hs' ≠ [] := by
      intro h0
      have hp : (loads hs').Perm (loads hs) := hperm.filter _
      rw [h0] at hp
      exact hload hp.nil_eq.symm
    refine (bounds_iff hf hload' fun g hg => hwrap g ((hmem g).mp hg)).mpr ?_
    exact hzero.imp (·.perm hperm) fun hall => (hall.perm hperm).last hload'
  intro hs' hperm
  have h := hbounds hs (List.Perm.refl hs)
  have h' := hbounds hs' hperm
  have hsame : ∀ g, g ∈ loads hs' ↔ g ∈ loads hs := fun g => (hperm.filter _).mem_iff
  have hbase := h'.base
  have hend := h'.greatest
  simp only [hsame] at hbase hend
  exact ⟨BitVec.eq_of_toNat_eq (hbase.unique h.base), BitVec.eq_of_toNat_eq (hend.unique h.greatest)⟩

/-- A header that begins at 0 and one that does not: with the latter at the end, the base is another. -/
theorem not_orderFree (hf : Unset f) (hbounds : Bounds hs (hs.foldl pheaderStep f)) (hnone : ¬ NoneAtZero hs)
    (hall : ¬ AllAtZero hs) : ¬ OrderFree f hs := by
  intro horder
  unfold NoneAtZero at hnone
  unfold AllAtZero at hall
  push Not at hnone hall
  obtain ⟨g, hg, hg0⟩ := hnone
  obtain ⟨h, hh, hne⟩ := hall
  obtain ⟨hmem, htype⟩ := List.mem_filter.mp hh
  have hbase : (hs.foldl pheaderStep f).virtual_base_address = 0 := by
    have hle := hbounds.base.2 ⟨g, hg, rfl⟩
    rw [hg0] at hle
    exact BitVec.eq_of_toNat_eq (Nat.le_zero.mp hle)
  have hperm : (hs.erase h ++ [h]).Perm hs :=
    (List.perm_append_singleton h (hs.erase h)).trans (List.perm_cons_erase hmem).symm
  have hloads : loads (hs.erase h ++ [h]) = loads (hs.erase h) ++ [h] := by
    rw [loads, List.filter_append, List.filter_singleton, htype]
    rfl
  have hsome : loads (hs.erase h ++ [h]) ≠ [] := by simp [hloads]
  have hlast := (base_eq_zero_iff hf hsome).mp ((horder _ hperm).1.trans hbase)
  obtain ⟨l, hl, hl0⟩ := hlast
  rw [hloads, List.getLast?_concat, Option.mem_def, Option.some.injEq] at hl
  exact hne (hl ▸ hl0)

/-- In the order they have, the headers give the right bounds exactly when none or the last of them
begins at 0; and in any order, when none or all of them do. -/
theorem elfProcessPheaders_bounds_iff (m : Mem) (hf : Unset f) (hload : loads (headers m f.elf_memory) ≠ [])
    (hwrap : ∀ h ∈ loads (headers m f.elf_memory), fileEnd h < 2 ^ 32) :
    (Bounds (headers m f.elf_memory) (elfProcessPheaders m f) ↔
      NoneAtZero (headers m f.elf_memory) ∨ LastAtZero (headers m f.elf_memory)) ∧
    (Bounds (headers m f.elf_memory) (elfProcessPheaders m f) ∧ OrderFree f (headers m f.elf_memory) ↔
      NoneAtZero (headers m f.elf_memory) ∨ AllAtZero (headers m f.elf_memory)) := by
  rw [elfProcessPheaders_eq]
  generalize headers m f.elf_memory = hs at *
  have hiff := bounds_iff hf hload hwrap
  refine ⟨hiff, ?_⟩
  constructor
  · rintro ⟨hbounds, horder⟩
    by_contra hnot
    rw [not_or] at hnot
    exact not_orderFree hf hbounds hnot.1 hnot.2 horder
  · intro hzero
    exact ⟨hiff.mpr (hzero.imp_right fun hall => hall.last hload), orderFree_of_bounds hf hload hwrap hzero⟩

/-- An image of two segments, at 0 and at 0x1000, with its two headers behind the ELF header. -/
def twoSegments : Mem :=
  storeWords (storeWords (fun _ => 0) 0x10000 [0x464c457f, 0, 0, 0, 0, 0, 0, 52, 0, 0, 0, 2, 0])
    0x10034 [ptLoad, 0x1000, 0, 0, 16, 16, 0, 0, ptLoad, 0x2000, 0x1000, 0, 16, 16, 0, 0]

def newFile (elf_memory : Addr) : ElfFile := ⟨elf_memory, 0, 0, 0, 0⟩

theorem twoSegments_headers :
    headers twoSegments 0x10000 = [⟨ptLoad, 0x1000, 0, 16⟩, ⟨ptLoad, 0x2000, 0x1000, 16⟩] := by
  decide +kernel

/-- The base is the second segment's. -/
theorem elfProcessPheaders_loses_zero :
    headers twoSegments 0x10000 = [⟨ptLoad, 0x1000, 0, 16⟩, ⟨ptLoad, 0x2000, 0x1000, 16⟩] ∧
      (elfProcessPheaders twoSegments (newFile 0x10000)).virtual_base_address = 0x1000 ∧
      ¬ Bounds (headers twoSegments 0x10000) (elfProcessPheaders twoSegments (newFile 0x10000)) := by
  have hbase : (elfProcessPheaders twoSegments (newFile 0x10000)).virtual_base_address = 0x1000 := by
    rw [elfProcessPheaders_eq, newFile, twoSegments_headers]
    decide
  refine ⟨twoSegments_headers, hbase, fun h => ?_⟩
  have hle := h.base.2 ⟨⟨ptLoad, 0x1000, 0, 16⟩, by rw [twoSegments_headers]; decide, rfl⟩
  rw [hbase] at hle
  exact absurd hle (by decide)

theorem elfProcessPheaders_bounds_twoSegments :
    (Bounds (headers twoSegments 0x10000) (elfProcessPheaders twoSegments (newFile 0x10000)) ↔
      NoneAtZero (headers twoSegments 0x10000) ∨ LastAtZero (headers twoSegments 0x10000)) ∧
    (Bounds (headers twoSegments 0x10000) (elfProcessPheaders twoSegments (newFile 0x10000)) ∧
        OrderFree (newFile 0x10000) (headers twoSegments 0x10000) ↔
      NoneAtZero (headers twoSegments 0x10000) ∨ AllAtZero (headers twoSegments 0x10000)) := by
  refine elfProcessPheaders_bounds_iff (f := newFile 0x10000) twoSegments ⟨rfl, rfl⟩ ?_ ?_
  · rw [newFile, twoSegments_headers]
    decide
  · rw [newFile, twoSegments_headers]
    decide

end MultitaskOs.ElfBounds
