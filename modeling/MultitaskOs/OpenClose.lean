import MultitaskOs.Code.Load
import MultitaskOs.Files
import MultitaskOs.Task

/-!
# What `fopen` leaves on the heap

`fopen` parses its path into a root record that nothing frees. So the heap is as
it was only when no root was made.
-/

open Lib Lib.Memory Lib.Arena MultitaskOs.PathParser MultitaskOs.Files MultitaskOs.Tasks

namespace MultitaskOs.OpenClose

variable {k k' : Kernel} {s : List Byte} {mode_str : CharPtr} {fd : Int} {a : Addr}

def SameLive (k k' : Kernel) : Prop := ∀ b, b ∈ k'.heap.live ↔ b ∈ k.heap.live

/-- `fopen` took `k` to `k'` and answered `fd`: a failure changed nothing, and closing what was
opened gives everything back. -/
def Restores (k k' : Kernel) (fd : Int) : Prop :=
  (fd = 0 → k'.file_descriptors = k.file_descriptors ∧ SameLive k k') ∧
  (0 < fd → (fclose k' fd).2 = 0 ∧ (fclose k' fd).1.file_descriptors = k.file_descriptors ∧
    SameLive k (fclose k' fd).1)

/-- The path leaves no root: it is refused, or there is no memory for the root. -/
def NoRoot (k : Kernel) (s : List Byte) : Prop := ¬ Accepts s ∨ (kzalloc k.toKmem sizeofPathRoot).2 = 0

/-! ## Closing -/

/-- What `fclose` frees for the descriptor `desc` of a file. -/
def fileBlocks (k : Kernel) (desc : Addr) : List Addr :=
  [desc, (k.fileDescs desc).priv, (k.fatDescs (k.fileDescs desc).priv).item,
    (k.fatItems (k.fatDescs (k.fileDescs desc).priv).item).item]

theorem fclose_refused (h : fileGetDescriptor k fd = 0) : fclose k fd = (k, - EIO) := by
  unfold fclose
  rw [h]
  exact if_pos rfl

theorem fclose_eq {desc : Addr} (hd : fileGetDescriptor k fd = desc) (h0 : desc ≠ 0)
    (htype : (k.fatItems (k.fatDescs (k.fileDescs desc).priv).item).type = fatItemTypeFile) :
    ∃ m, fclose k fd = ({ k with
        toKmem := m
        file_descriptors := Function.update k.file_descriptors ((k.fileDescs desc).index - 1).toNat 0 }, 0) ∧
      ∀ b, b ∈ m.heap.live ↔ b ∈ k.heap.live ∧ b.base ∉ fileBlocks k desc := by
  refine ⟨kfree (kfree (kfree (kfree k.toKmem (k.fatItems (k.fatDescs (k.fileDescs desc).priv).item).item)
    (k.fatDescs (k.fileDescs desc).priv).item) (k.fileDescs desc).priv) desc, ?_, ?_⟩
  · unfold fclose fat16Close fat16FreeFileDescriptor fat16FatItemFree fileFreeDescriptor
    rw [hd]
    dsimp only
    rw [if_neg h0, htype, if_pos rfl, if_pos rfl, if_neg (by decide)]
    rfl
  · intro b
    simp only [kfree, Arena.mem_free_live, fileBlocks, List.mem_cons, List.not_mem_nil, or_false, not_or, ne_eq]
    tauto

theorem fclose_keeps_live {desc : Addr} (hd : fileGetDescriptor k fd = desc)
    (htype : (k.fatItems (k.fatDescs (k.fileDescs desc).priv).item).type = fatItemTypeFile)
    (ha : k.heap.Live a) (hout : a ∉ fileBlocks k desc) : (fclose k fd).1.heap.Live a := by
  by_cases h0 : desc = 0
  · rw [fclose_refused (hd.trans h0)]
    exact ha
  · obtain ⟨m, heq, hm⟩ := fclose_eq hd h0 htype
    rw [heq]
    obtain ⟨n, hn⟩ := ha
    exact ⟨n, (hm _).mpr ⟨hn, hout⟩⟩

/-! ## The root -/

theorem NewDescriptor.blocks_fresh {i : Nat} {desc : Addr} (h : NewDescriptor k k' i desc)
    (ha : k.heap.Live a) : a ∉ fileBlocks k' desc := by
  simp only [fileBlocks, List.mem_cons, List.not_mem_nil, or_false, not_or]
  refine ⟨?_, ?_, ?_, ?_⟩
  · exact fun he => h.fresh (he ▸ ha)
  · exact fun he => h.file.fresh (he ▸ ha)
  · exact fun he => h.file.item.fresh (he ▸ ha)
  · exact fun he => h.file.item.copy_fresh (he ▸ ha)

theorem fileGetDescriptor_new {t : Nat → Addr} {i : Nat} {desc : Addr}
    (h : k.file_descriptors = Function.update t i desc) (h0 : fileGetDescriptor k (i + 1) ≠ 0) :
    fileGetDescriptor k (i + 1) = desc := by
  unfold fileGetDescriptor at h0 ⊢
  split at h0
  · exact absurd rfl h0
  · rename_i hrange
    rw [if_neg hrange, h, show ((i : Int) + 1 - 1).toNat = i by omega, Function.update_self]

theorem Outcome.live {granted : Prop} (hk : FileKeeps k k') (h : Outcome granted k k' fd) (ha : k.heap.Live a)
    (h0 : 0 < fd) : (fclose k' fd).2 ≠ 0 ∨ (fclose k' fd).1.heap.Live a := by
  rcases h with ⟨rfl, -⟩ | ⟨i, desc, rfl, hd, -⟩
  · exact absurd h0 (lt_irrefl _)
  have hlive := hk.keeps.isLive ha
  by_cases hget : fileGetDescriptor k' (i + 1) = 0
  · left
    rw [fclose_refused hget]
    exact show - EIO ≠ 0 by decide
  · right
    exact fclose_keeps_live (fileGetDescriptor_new hd.table hget) hd.file.item.type hlive
      (NewDescriptor.blocks_fresh hd ha)

theorem restores_of_noRoot (hs : NoNul s) (h : fopen k (cstr s) mode_str = some (k', fd)) (hn : NoRoot k s) :
    Restores k k' fd := by
  obtain ⟨k1, root, hp, hcases⟩ := fopen_cases hs h
  have hroot : root = 0 := by
    by_cases hacc : Accepts s
    · rw [hp.accepted hacc]
      exact hn.resolve_left fun hr => hr hacc
    · exact (hp.rejected hacc).1
  obtain ⟨-, rfl, rfl⟩ := hcases.resolve_right fun hc => hc.1 hroot
  have hlive := hp.null hroot
  obtain ⟨m, r, p, rfl⟩ := hp.only
  refine ⟨fun _ => ⟨rfl, fun b => ?_⟩, fun h0 => absurd h0 (lt_irrefl _)⟩
  rw [hlive]

theorem noRoot_of_restores (hs : NoNul s) (h : fopen k (cstr s) mode_str = some (k', fd))
    (hr : Restores k k' fd) : NoRoot k s := by
  obtain ⟨k1, root, hp, hcases⟩ := fopen_cases hs h
  by_contra hn
  unfold NoRoot at hn
  push Not at hn
  obtain ⟨hacc, hroot⟩ := hn
  rw [← hp.accepted hacc] at hroot
  obtain ⟨hlive, hfresh⟩ := hp.live hroot
  obtain ⟨-, hk, hout⟩ := hcases.resolve_left fun hc => hroot hc.1
  have hleft : ∀ k2 : Kernel, k2.heap.Live root → ¬ SameLive k k2 := by
    rintro k2 ⟨n, hn⟩ hsame
    exact hfresh ⟨n, (hsame _).mp hn⟩
  have hpos : fd = 0 ∨ 0 < fd := by
    rcases hout with ⟨rfl, -⟩ | ⟨i, desc, rfl, -⟩
    · exact Or.inl rfl
    · omega
  rcases hpos with h0 | h0
  · exact hleft k' (hk.keeps.isLive hlive) (hr.1 h0).2
  · obtain ⟨hstatus, -, hsame⟩ := hr.2 h0
    exact hleft _ ((Outcome.live hk hout hlive h0).resolve_left fun hne => hne hstatus) hsame

/-- For every path, mode, disk and heap: `fopen` and `fclose` give back what they took exactly
when `fopen` made no root. -/
theorem fopen_restores_iff (hs : NoNul s) (h : fopen k (cstr s) mode_str = some (k', fd)) :
    Restores k k' fd ↔ NoRoot k s :=
  ⟨noRoot_of_restores hs h, restores_of_noRoot hs h⟩

/-! ## A file that is not there -/

/-- `0:/a` -/
def pathA : List Byte := render 0x30 [[0x61]]

theorem fopen_pathA : ∃ k', fopen emptyKernel (cstr pathA) modeR = some (k', 0) := by
  have h : (fopen emptyKernel (cstr pathA) modeR).map Prod.snd = some 0 := by decide +kernel
  obtain ⟨⟨k', fd⟩, hr, hfd⟩ := Option.map_eq_some_iff.mp h
  cases hfd
  exact ⟨k', hr⟩

theorem fopen_restores_pathA :
    ∃ k', fopen emptyKernel (cstr pathA) modeR = some (k', 0) ∧
      (Restores emptyKernel k' 0 ↔ NoRoot emptyKernel pathA) := by
  obtain ⟨k', h⟩ := fopen_pathA
  exact ⟨k', h, fopen_restores_iff (by unfold NoNul; decide) h⟩

theorem fopen_leaks_pathA :
    ∃ k', fopen emptyKernel (cstr pathA) modeR = some (k', 0) ∧ ¬ Restores emptyKernel k' 0 := by
  obtain ⟨k', h⟩ := fopen_pathA
  refine ⟨k', h, fun hr => ?_⟩
  rcases noRoot_of_restores (by unfold NoNul; decide) h hr with hacc | hroot
  · exact hacc ⟨by decide, 0x30, [0x61], by decide, rfl⟩
  · exact absurd hroot (by decide +kernel)

end MultitaskOs.OpenClose
