import MultitaskOs.Loading

/-!
# What a failed `elf_load` leaves

Its four failures share one label, which closes the file. The record of the
image and the image itself are given back on none of them.
-/

open Lib Lib.Memory Lib.Arena MultitaskOs.PathParser MultitaskOs.Files MultitaskOs.OpenClose MultitaskOs.Tasks
  MultitaskOs.Loading

namespace MultitaskOs.ElfLoad

variable {k k1 k2 k3 k4 k' : Kernel} {s : List Byte} {fd res : Int} {file desc : Addr} {b : Block}

/-- A block that `fopen` takes for itself in `elf_load`, whether `fclose` gives it back or not. -/
def MadeByFopen (k : Kernel) (s : List Byte) (b : Block) : Prop :=
  ∃ k2 fd, fopen (elfRecord k).1 (cstr s) modeR = some (k2, fd) ∧ b ∈ k2.heap.live ∧ b ∉ (elfRecord k).1.heap.live

/-- From `k` to `k'`, the table and the blocks that `fopen` has no part in are as they were. -/
structure NothingLeft (k : Kernel) (s : List Byte) (k' : Kernel) : Prop where
  table : k'.file_descriptors = k.file_descriptors
  live : ∀ b, ¬ MadeByFopen k s b → (b ∈ k'.heap.live ↔ b ∈ k.heap.live)

def imageSize (k2 : Kernel) (fd : Int) : Nat := (fstat k2 fd).2.filesize.toNat

/-- There is nothing to give back: no memory for the record, and, once a file is open, none for
its image. An open file that `fclose` cannot find has no descriptor in the table. -/
def NothingTaken (k : Kernel) (s : List Byte) : Prop :=
  (kzalloc k.toKmem sizeofElfFile).2 = 0 ∧
    ∀ k2 fd, fopen (elfRecord k).1 (cstr s) modeR = some (k2, fd) → 0 < fd →
      if fileGetDescriptor k2 fd = 0 then k2.file_descriptors (fd - 1).toNat = 0
      else (kzalloc k2.toKmem (imageSize k2 fd)).2 = 0

/-! ## The ways to fail -/

/-- How `elf_load` fails behind `fopen`, which took the kernel to `k2` and answered `fd`. -/
inductive Fails (k2 : Kernel) (fd : Int) : Kernel → Prop where
  | unread : fileGetDescriptor k2 fd = 0 → Fails k2 fd k2
  | read {k4 : Kernel} : fileGetDescriptor k2 fd ≠ 0 → SameFiles k2 k4 →
    k4.heap = (kzalloc k2.toKmem (imageSize k2 fd)).1.heap → Fails k2 fd (fclose k4 fd).1

theorem fstat_read (hs : NoNul s) (h : fopen k1 (cstr s) modeR = some (k2, fd))
    (h0 : fileGetDescriptor k2 fd ≠ 0) : (fstat k2 fd).1 = 0 := by
  have htype := (openedSince_fopen hs h h0).1
  unfold itemOf at htype
  unfold fstat fat16Stat
  dsimp only
  rw [if_neg h0, if_neg (not_not.mpr htype)]

theorem elfLoad_fails (hs : NoNul s) (h : elfLoad k (cstr s) = some (k', res, file)) (hres : res < 0) :
    ∃ k2 fd, fopen (elfRecord k).1 (cstr s) modeR = some (k2, fd) ∧ Fails k2 fd k' := by
  unfold elfLoad at h
  obtain ⟨⟨k2, fd⟩, hopen, h⟩ := Option.bind_eq_some_iff.mp h
  refine ⟨k2, fd, hopen, ?_⟩
  dsimp only at h
  split at h
  · rename_i hfd
    have h0 : fileGetDescriptor k2 fd = 0 := if_pos (Or.inl hfd)
    rw [fclose_refused (if_pos (Or.inl le_rfl) : fileGetDescriptor k2 0 = 0)] at h
    cases h
    exact .unread h0
  by_cases h0 : fileGetDescriptor k2 fd = 0
  · have hstat := fstat_unread h0
    obtain ⟨⟨r, stat⟩, hr⟩ : ∃ r, fstat k2 fd = r := ⟨_, rfl⟩
    rw [hr] at h hstat
    subst hstat
    dsimp only at h
    rw [if_pos (by decide), fclose_refused h0] at h
    cases h
    exact .unread h0
  have hstat := fstat_read hs hopen h0
  obtain ⟨⟨r, stat⟩, hr⟩ : ∃ r, fstat k2 fd = r := ⟨_, rfl⟩
  have hsize : imageSize k2 fd = stat.filesize.toNat := by rw [imageSize, hr]
  rw [hr] at h hstat
  subst hstat
  dsimp only at h
  rw [if_neg (lt_irrefl _)] at h
  obtain ⟨⟨m3, a⟩, hm⟩ : ∃ r, kzalloc k2.toKmem stat.filesize.toNat = r := ⟨_, rfl⟩
  rw [Kernel.onKmem_eq hm] at h
  dsimp only at h
  obtain ⟨⟨k4, r4⟩, hread, h⟩ := Option.bind_eq_some_iff.mp h
  obtain ⟨m4, fs, rfl, -⟩ := (fread_cases hread).1
  have hheap : m3.heap = (kzalloc k2.toKmem (imageSize k2 fd)).1.heap := by rw [hsize, hm]
  dsimp only at h
  split at h
  · cases h
    exact .read h0 ⟨rfl, rfl, rfl, rfl⟩ hheap
  split at h
  · cases h
    exact .read h0 ⟨rfl, rfl, rfl, rfl⟩ hheap
  · rename_i hok
    cases h
    exact absurd hres hok

/-! ## What the failures leave -/

theorem elfRecord_table (k : Kernel) : (elfRecord k).1.file_descriptors = k.file_descriptors := by
  unfold elfRecord
  dsimp only
  split <;> rfl

theorem Fails.kept (hs : NoNul s) (hopen : fopen k1 (cstr s) modeR = some (k2, fd)) (h : Fails k2 fd k') :
    ∀ b ∈ k1.heap.live, b ∈ k'.heap.live := by
  intro b hb
  have hb2 := (fopen_spec hs hopen).1.keeps.live b hb
  cases h with
  | unread h0 => exact hb2
  | read h0 hsame hheap =>
    refine ((closed_read hs hopen h0 hsame).2 b).mpr ⟨?_, fun hout => ?_⟩
    · rw [hheap]
      exact (kzalloc_keeps _ _).live b hb2
    · exact (openedSince_fopen hs hopen h0).2 _ hout ⟨b.size, hb⟩

/-- With the record refused, a block that `fopen` did not make is live before it as behind it. -/
theorem live_of_notMade (hrecord : (kzalloc k.toKmem sizeofElfFile).2 = 0)
    (hopen : fopen (elfRecord k).1 (cstr s) modeR = some (k2, fd)) (hb : ¬ MadeByFopen k s b) (h2 : b ∈ k2.heap.live) :
    b ∈ k.heap.live := by
  by_contra hk
  refine hb ⟨k2, fd, hopen, h2, fun h1 => hk ?_⟩
  rwa [elfRecord_heap, live_of_refused _ _ hrecord] at h1

theorem NothingLeft.record (h : NothingLeft k s k') (hkept : ∀ b ∈ (elfRecord k).1.heap.live, b ∈ k'.heap.live) :
    (kzalloc k.toKmem sizeofElfFile).2 = 0 := by
  by_contra h0
  have hf := kzalloc_fresh h0
  have hb := hf.mem_live
  rw [← elfRecord_heap] at hb
  have hnot : ¬ MadeByFopen k s ⟨(kzalloc k.toKmem sizeofElfFile).2, sizeofElfFile⟩ := by
    rintro ⟨-, -, -, -, hn⟩
    exact hn hb
  exact hf.not_live ⟨_, (h.live _ hnot).mp (hkept _ hb)⟩

theorem NothingLeft.image (hs : NoNul s) (hopen : fopen (elfRecord k).1 (cstr s) modeR = some (k2, fd))
    (h0 : fileGetDescriptor k2 fd ≠ 0) (hsame : SameFiles k2 k4)
    (hheap : k4.heap = (kzalloc k2.toKmem (imageSize k2 fd)).1.heap) (h : NothingLeft k s (fclose k4 fd).1) :
    (kzalloc k2.toKmem (imageSize k2 fd)).2 = 0 := by
  by_contra ha
  have hf := kzalloc_fresh ha
  have hb := hf.mem_live
  rw [← hheap] at hb
  have hkeeps := (fopen_spec hs hopen).1.keeps
  have hout : (kzalloc k2.toKmem (imageSize k2 fd)).2 ∉ fileBlocks k2 (fileGetDescriptor k2 fd) := by
    intro hin
    obtain ⟨-, ⟨rfl, -⟩ | ⟨i, desc, rfl, hd, -⟩⟩ := fopen_spec hs hopen
    · exact absurd (if_pos (Or.inl le_rfl)) h0
    rw [fileGetDescriptor_new hd.table h0] at hin
    rcases NewDescriptor.blocks_live hd hin with hz | hl
    · exact ha hz
    · exact hf.not_live hl
  have hnot : ¬ MadeByFopen k s ⟨(kzalloc k2.toKmem (imageSize k2 fd)).2, imageSize k2 fd⟩ := by
    rintro ⟨k2', fd', hopen', h2, -⟩
    cases hopen.symm.trans hopen'
    exact hf.not_live ⟨_, h2⟩
  have hk := (h.live _ hnot).mp (((closed_read hs hopen h0 hsame).2 _).mpr ⟨hb, hout⟩)
  have h1 := (kzalloc_keeps k.toKmem sizeofElfFile).live _ hk
  rw [← elfRecord_heap] at h1
  exact hf.not_live ⟨_, hkeeps.live _ h1⟩

theorem table_unread (hs : NoNul s) (hopen : fopen k1 (cstr s) modeR = some (k2, fd)) :
    k2.file_descriptors = k1.file_descriptors ↔ (0 < fd → k2.file_descriptors (fd - 1).toNat = 0) := by
  obtain ⟨-, ⟨rfl, htable⟩ | ⟨i, desc, rfl, hd, -⟩⟩ := fopen_spec hs hopen
  · exact ⟨fun _ h => absurd h (lt_irrefl _), fun _ => htable⟩
  · have hfree := (freeDescriptor_some hd.slot).2
    rw [show ((i : Int) + 1 - 1).toNat = i by omega]
    constructor
    · intro h _
      rw [h, hfree]
    · intro h
      have h0 := h (by omega)
      rw [hd.table, Function.update_self] at h0
      rw [hd.table, h0, ← hfree, Function.update_eq_self]

/-- For every file name, disk and heap: a failed `elf_load` leaves nothing behind exactly when it
took nothing. -/
theorem elfLoad_restores_iff (hs : NoNul s) (h : elfLoad k (cstr s) = some (k', res, file)) (hres : res < 0) :
    NothingLeft k s k' ↔ NothingTaken k s := by
  obtain ⟨k2, fd, hopen, hfails⟩ := elfLoad_fails hs h hres
  have hkept := Fails.kept hs hopen hfails
  have htable := elfRecord_table k
  constructor
  · intro hleft
    refine ⟨hleft.record hkept, fun k2' fd' hopen' hpos => ?_⟩
    cases hopen.symm.trans hopen'
    cases hfails with
    | unread h0 =>
      rw [if_pos h0]
      exact (table_unread hs hopen).mp (hleft.table.trans htable.symm) hpos
    | read h0 hsame hheap =>
      rw [if_neg h0]
      exact hleft.image hs hopen h0 hsame hheap
  · rintro ⟨hrecord, himage⟩
    have hback : ∀ b ∈ k.heap.live, b ∈ k'.heap.live := fun b hb =>
      hkept b (by rw [elfRecord_heap]; exact (kzalloc_keeps _ _).live b hb)
    cases hfails with
    | unread h0 =>
      refine ⟨?_, fun b hb => ⟨live_of_notMade hrecord hopen hb, hback b⟩⟩
      refine ((table_unread hs hopen).mpr fun hpos => ?_).trans htable
      simpa only [if_pos h0] using himage _ _ hopen hpos
    | read h0 hsame hheap =>
      have hpos : 0 < fd := by
        by_contra hneg
        exact h0 (if_pos (Or.inl (not_lt.mp hneg)))
      have hrefused := himage _ _ hopen hpos
      rw [if_neg h0] at hrefused
      obtain ⟨hback', hlive⟩ := closed_read hs hopen h0 hsame
      refine ⟨hback'.trans htable, fun b hb => ⟨fun hb' => live_of_notMade hrecord hopen hb ?_, hback b⟩⟩
      have h4 := ((hlive b).mp hb').1
      rwa [hheap, live_of_refused _ _ hrefused] at h4

theorem elfLoad_pathA : ∃ k' file, elfLoad emptyKernel (cstr pathA) = some (k', - EIO, file) := by
  have h : (elfLoad emptyKernel (cstr pathA)).map (fun r => r.2.1) = some (- EIO) := by decide +kernel
  obtain ⟨⟨k', res, file⟩, hr, hres⟩ := Option.map_eq_some_iff.mp h
  cases hres
  exact ⟨k', file, hr⟩

theorem elfLoad_restores_iff_pathA :
    ∃ k' file, elfLoad emptyKernel (cstr pathA) = some (k', - EIO, file) ∧
      (NothingLeft emptyKernel pathA k' ↔ NothingTaken emptyKernel pathA) := by
  obtain ⟨k', file, h⟩ := elfLoad_pathA
  exact ⟨k', file, h, elfLoad_restores_iff (by unfold NoNul; decide) h (by decide)⟩

/-- The record of the image stays live. -/
theorem elfLoad_leaves_pathA :
    ∃ k' file, elfLoad emptyKernel (cstr pathA) = some (k', - EIO, file) ∧ ¬ NothingLeft emptyKernel pathA k' := by
  obtain ⟨k', file, h⟩ := elfLoad_pathA
  refine ⟨k', file, h, fun hleft => ?_⟩
  have hs : NoNul pathA := by unfold NoNul; decide
  obtain ⟨k2, fd, hopen, hfails⟩ := elfLoad_fails hs h (by decide)
  exact absurd (hleft.record (Fails.kept hs hopen hfails)) (by decide +kernel)

end MultitaskOs.ElfLoad
