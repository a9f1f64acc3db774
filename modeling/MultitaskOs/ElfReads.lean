import MultitaskOs.Code.ElfReads
import MultitaskOs.Kheap

/-!
# What `elf_process_loaded` reads of an image

Neither the validation nor the loop over the program headers is told how long
the file is. So they stay in its buffer only if the file is long enough for what
its own bytes make them read.
-/

open Lib Lib.Memory Lib.Memory.Reading Lib.Arena

namespace MultitaskOs.ElfReads

variable {m : Mem} {a p phdr : Addr} {n i : Nat} {f : ElfFile}

/-- Every byte of the image that is read, whether it is accepted or not, is one of the `n` of its
block. -/
def ReadsInside (k : Kmem) (elf_file : ElfFile) (n : Nat) : Prop :=
  ∀ r ∈ (elfProcessLoaded elf_file).reads k.mem, ∀ i < r.2,
    (⟨elf_file.elf_memory, n⟩ : Block) ∈ k.heap.live ∧ Within elf_file.elf_memory n (r.1 + BitVec.ofNat 32 i)

/-- A byte of the file itself refuses it: one of the signature, the class, the encoding, or the
absence of program headers. -/
def Refuses (m : Mem) (a : Addr) (n : Nat) : Prop :=
  readBytes m a (min n 4) ≠ elfSignature.take n ∨ (5 ≤ n ∧ MultitaskOs.elfValidClass m a = false) ∨
    (6 ≤ n ∧ MultitaskOs.elfValidEncoding m a = false) ∨ (32 ≤ n ∧ MultitaskOs.ePhoff m a = 0)

/-- Where a program header begins in the file, in the arithmetic of the code. -/
def headerOffset (m : Mem) (a : Addr) (i : Nat) : Nat :=
  (MultitaskOs.ePhoff m a + BitVec.ofNat 32 (sizeofElf32Phdr * i)).toNat

/-- Up to `p_type`, or up to `p_filesz` where there is something to load. -/
def headerLength (m : Mem) (phdr : Addr) : Nat := if MultitaskOs.pType m phdr = ptLoad then 20 else 4

/-- The file is long enough for `e_phnum` and for what is read of each of its headers. -/
def LongEnough (m : Mem) (a : Addr) (n : Nat) : Prop :=
  46 ≤ n ∧ ∀ i < (MultitaskOs.ePhnum m a).toNat,
    headerOffset m a i + headerLength m (a + BitVec.ofNat 32 (headerOffset m a i)) ≤ n

/-! ## The same results -/

theorem memcmp_value (bs : List Byte) : (memcmp p bs).value m = 0 ↔ readBytes m p bs.length = bs := by
  induction bs generalizing p with
  | nil => simp [memcmp, readBytes]
  | cons c bs ih =>
    rw [memcmp, List.length_cons, readBytes_succ, value_bind, value_read8, value_ite]
    by_cases hc : m p = c
    · rw [if_neg (not_not.mpr hc), ih, hc, List.cons.injEq, and_iff_right rfl]
    · rw [if_pos hc]
      simp only [value_bind, value_read8, value_pure, List.cons.injEq, hc, false_and, iff_false]
      split_ifs with h <;> simp [h]

@[simp] theorem elfValidSignature_value : (elfValidSignature a).value m = MultitaskOs.elfValidSignature m a := by
  unfold elfValidSignature MultitaskOs.elfValidSignature
  rw [value_map, Bool.eq_iff_iff, beq_iff_eq, memcmp_value]
  simp only [elfSignature, List.length_cons, List.length_nil, readBytes_succ, List.cons.injEq, BitVec.add_assoc,
    Bool.and_eq_true, beq_iff_eq, and_assoc]
  exact and_congr_right fun _ => and_congr_right fun _ => and_congr_right fun _ => and_iff_left rfl

@[simp] theorem elfValidClass_value : (elfValidClass a).value m = MultitaskOs.elfValidClass m a := value_or _ _

@[simp] theorem elfValidEncoding_value : (elfValidEncoding a).value m = MultitaskOs.elfValidEncoding m a :=
  value_or _ _

@[simp] theorem ePhoff_value : (ePhoff a).value m = MultitaskOs.ePhoff m a := rfl

@[simp] theorem ePhnum_value : (ePhnum a).value m = MultitaskOs.ePhnum m a := rfl

@[simp] theorem elfHasProgramHeader_value :
    (elfHasProgramHeader a).value m = MultitaskOs.elfHasProgramHeader m a := rfl

@[simp] theorem elfValidateLoaded_value : (elfValidateLoaded a).value m = MultitaskOs.elfValidateLoaded m a := by
  simp [elfValidateLoaded, MultitaskOs.elfValidateLoaded, Bool.and_assoc]

theorem elfPheader_value : (elfPheader a).value m = MultitaskOs.elfPheader m a := by
  rw [elfPheader, value_bind, value_ite]
  rfl

@[simp] theorem elfProgramHeader_value : (elfProgramHeader a i).value m = MultitaskOs.elfProgramHeader m a i := by
  rw [elfProgramHeader, value_bind, elfPheader_value]
  rfl

@[simp] theorem elfProcessPheader_value :
    (elfProcessPheader phdr f).value m = MultitaskOs.elfProcessPheader m phdr f := by
  simp only [elfProcessPheader, elfProcessPhdrPtLoad, setBase, value_bind, value_ite, value_pure]
  rfl

def afterHeaders (m : Mem) (a : Addr) (f : ElfFile) (n : Nat) : ElfFile :=
  Run.forN n (fun i f => MultitaskOs.elfProcessPheader m (MultitaskOs.elfProgramHeader m a i) f) f

theorem afterHeaders_zero : afterHeaders m a f 0 = f := Run.forN_zero _ _

theorem afterHeaders_succ : afterHeaders m a f (i + 1) =
    MultitaskOs.elfProcessPheader m (MultitaskOs.elfProgramHeader m a i) (afterHeaders m a f i) := Run.forN_succ _ _ _

theorem elfProcessPheadersLoop_value {turns : Nat} (hi : i ≤ (MultitaskOs.ePhnum m a).toNat)
    (hturns : (MultitaskOs.ePhnum m a).toNat ≤ i + turns) :
    (elfProcessPheadersLoop a turns i (afterHeaders m a f i)).value m =
      afterHeaders m a f (MultitaskOs.ePhnum m a).toNat := by
  induction turns generalizing i with
  | zero =>
    rw [show i = (MultitaskOs.ePhnum m a).toNat by omega]
    rfl
  | succ turns ih =>
    rw [elfProcessPheadersLoop, value_bind, ePhnum_value, value_ite]
    by_cases hlt : i < (MultitaskOs.ePhnum m a).toNat
    · rw [if_pos hlt, value_bind, elfProgramHeader_value, value_bind, elfProcessPheader_value, ← afterHeaders_succ]
      exact ih hlt (by omega)
    · rw [if_neg hlt, show i = (MultitaskOs.ePhnum m a).toNat by omega]
      rfl

theorem elfProcessPheaders_value (m : Mem) (f : ElfFile) :
    (elfProcessPheaders f).value m = MultitaskOs.elfProcessPheaders m f := by
  have hlt := (MultitaskOs.ePhnum m f.elf_memory).isLt
  have hloop : (elfProcessPheadersLoop f.elf_memory (2 ^ 16) 0 (afterHeaders m f.elf_memory f 0)).value m =
      afterHeaders m f.elf_memory f (MultitaskOs.ePhnum m f.elf_memory).toNat :=
    elfProcessPheadersLoop_value (Nat.zero_le _) (by omega)
  rw [afterHeaders_zero] at hloop
  unfold elfProcessPheaders MultitaskOs.elfProcessPheaders
  exact hloop

theorem elfProcessLoaded_value (m : Mem) (f : ElfFile) :
    (elfProcessLoaded f).value m = MultitaskOs.elfProcessLoaded m f := by
  unfold elfProcessLoaded MultitaskOs.elfProcessLoaded
  rw [value_bind, elfValidateLoaded_value, value_ite, value_bind, elfProcessPheaders_value]
  rfl

/-! ## What is read -/

theorem memcmp_inside (bs : List Byte) : Inside m a n (memcmp p bs) ↔
    ∀ i < bs.length, readBytes m p i = bs.take i → Inside m a n (read8 (p + BitVec.ofNat 32 i)) := by
  induction bs generalizing p with
  | nil => simp [memcmp]
  | cons c bs ih =>
    rw [memcmp, inside_bind, value_read8, inside_ite]
    simp only [inside_bind, inside_pure_iff, and_true, ne_eq, not_not]
    constructor
    · rintro ⟨hfirst, -, hrest⟩ i hi heq
      cases i with
      | zero => simpa using hfirst
      | succ i =>
        rw [readBytes_succ, List.take_succ_cons, List.cons.injEq] at heq
        rw [add_ofNat_succ]
        exact ih.mp (hrest heq.1) i (Nat.lt_of_succ_lt_succ hi) heq.2
    · intro h
      have hfirst : Inside m a n (read8 p) := by simpa using h 0 (Nat.succ_pos _) rfl
      refine ⟨hfirst, fun _ => hfirst, fun hc => ih.mpr fun i hi heq => ?_⟩
      rw [← add_ofNat_succ]
      refine h (i + 1) (Nat.succ_lt_succ hi) ?_
      rw [readBytes_succ, List.take_succ_cons, hc, heq]

theorem elfValidSignature_inside (hn : n < 2 ^ 32) : Inside m a n (elfValidSignature a) ↔
    (readBytes m a (min n 4) = elfSignature.take n → 4 ≤ n) := by
  rw [elfValidSignature, inside_map, memcmp_inside]
  have hlen : elfSignature.length = 4 := rfl
  have hread : ∀ i < 4, (Inside m a n (read8 (a + BitVec.ofNat 32 i)) ↔ i + 1 ≤ n) := fun i hi => by
    rw [inside_read8 hn, show (a + BitVec.ofNat 32 i - a).toNat = i by bv_omega]
  constructor
  · intro h heq
    by_contra hshort
    rw [min_eq_left (by omega)] at heq
    have := (hread n (by omega)).mp (h n (by omega) heq)
    omega
  · intro h i hi heq
    refine (hread i (by omega)).mpr ?_
    by_contra hout
    have hni : n ≤ i := by omega
    refine absurd (h ?_) (by omega)
    rw [min_eq_left (by omega), ← take_readBytes hni, heq, List.take_take, min_eq_left hni]

theorem elfValidSignature_iff : MultitaskOs.elfValidSignature m a = true ↔ readBytes m a 4 = elfSignature := by
  rw [← elfValidSignature_value, elfValidSignature, value_map, beq_iff_eq, memcmp_value]
  rfl

theorem elfValidateLoaded_inside (hn : n < 2 ^ 32) :
    Inside m a n (elfValidateLoaded a) ↔ Refuses m a n ∨ 32 ≤ n := by
  have h4 : (a + 4 - a).toNat = 4 := by bv_omega
  have h5 : (a + 5 - a).toNat = 5 := by bv_omega
  have h28 : (a + 28 - a).toNat = 28 := by bv_omega
  have hclass : Inside m a n (elfValidClass a) ↔ 5 ≤ n := by
    rw [elfValidClass, inside_or, inside_map, inside_map, inside_read8 hn, h4]
    tauto
  have hencoding : Inside m a n (elfValidEncoding a) ↔ 6 ≤ n := by
    rw [elfValidEncoding, inside_or, inside_map, inside_map, inside_read8 hn, h5]
    tauto
  have hphoff : Inside m a n (elfHasProgramHeader a) ↔ 32 ≤ n := by
    rw [elfHasProgramHeader, inside_map, ePhoff, inside_read32 hn, h28]
  have hvalid : Inside m a n (elfValidateLoaded a) ↔ (readBytes m a (min n 4) = elfSignature.take n → 4 ≤ n) ∧
      (readBytes m a 4 = elfSignature → 5 ≤ n ∧ (MultitaskOs.elfValidClass m a = true →
        6 ≤ n ∧ (MultitaskOs.elfValidEncoding m a = true → 32 ≤ n))) := by
    rw [elfValidateLoaded, inside_bind, inside_ite]
    simp only [inside_and, inside_pure_iff, elfValidSignature_inside hn, hclass, hencoding, hphoff,
      elfValidSignature_value, elfValidSignature_iff, elfValidClass_value, elfValidEncoding_value, implies_true,
        and_true]
  rw [hvalid, Refuses]
  by_cases hlong : 4 ≤ n
  · rw [min_eq_right hlong, List.take_of_length_le (show elfSignature.length ≤ n from hlong)]
    by_cases hs : readBytes m a 4 = elfSignature
    · cases MultitaskOs.elfValidClass m a <;> cases MultitaskOs.elfValidEncoding m a <;> simp [hs] <;> omega
    · simp [hs, hlong]
  · have hprefix : readBytes m a 4 = elfSignature → readBytes m a (min n 4) = elfSignature.take n := fun hs => by
      rw [min_eq_left (by omega), ← take_readBytes (by omega : n ≤ 4), hs]
    by_cases hs : readBytes m a (min n 4) = elfSignature.take n
    · simp only [hs, hlong, ne_eq, not_true, false_or, true_implies, false_and, false_iff]
      omega
    · simp [hs, mt hprefix hs]

theorem Refuses.status (h : Refuses m a n) : MultitaskOs.elfValidateLoaded m a < 0 := by
  have hbad : ¬ (MultitaskOs.elfValidSignature m a && MultitaskOs.elfValidClass m a &&
      MultitaskOs.elfValidEncoding m a && MultitaskOs.elfHasProgramHeader m a) = true := by
    simp only [Bool.and_eq_true, elfValidSignature_iff, MultitaskOs.elfHasProgramHeader, bne_iff_ne]
    rintro ⟨⟨⟨hs, hc⟩, he⟩, hp⟩
    rcases h with h | ⟨-, h⟩ | ⟨-, h⟩ | ⟨-, h⟩
    · refine h ?_
      by_cases hlong : 4 ≤ n
      · rw [min_eq_right hlong, hs, List.take_of_length_le (show elfSignature.length ≤ n from hlong)]
      · rw [min_eq_left (by omega), ← take_readBytes (by omega : n ≤ 4), hs]
    · exact Bool.false_ne_true (h.symm.trans hc)
    · exact Bool.false_ne_true (h.symm.trans he)
    · exact hp h
  unfold MultitaskOs.elfValidateLoaded
  rw [if_neg hbad]
  decide

theorem refuses_of_status (hlong : 32 ≤ n) (h : MultitaskOs.elfValidateLoaded m a < 0) : Refuses m a n := by
  unfold MultitaskOs.elfValidateLoaded at h
  split at h
  · exact absurd h (lt_irrefl _)
  rename_i hbad
  rw [Bool.and_eq_true, Bool.and_eq_true, Bool.and_eq_true, elfValidSignature_iff, MultitaskOs.elfHasProgramHeader,
    bne_iff_ne] at hbad
  unfold Refuses
  rw [min_eq_right (by omega), List.take_of_length_le (show 4 ≤ n by omega : elfSignature.length ≤ n)]
  by_cases hs : readBytes m a 4 = elfSignature
  · cases hc : MultitaskOs.elfValidClass m a
    · exact Or.inr (Or.inl ⟨by omega, rfl⟩)
    cases he : MultitaskOs.elfValidEncoding m a
    · exact Or.inr (Or.inr (Or.inl ⟨by omega, rfl⟩))
    by_cases hp : MultitaskOs.ePhoff m a = 0
    · exact Or.inr (Or.inr (Or.inr ⟨hlong, hp⟩))
    · exact absurd ⟨⟨⟨hs, hc⟩, he⟩, hp⟩ hbad
  · exact Or.inl hs

/-! ## The program headers -/

theorem field_inside (hn : n + 20 ≤ 2 ^ 32) (hp : (p - a).toNat + 4 ≤ n) {d : Nat} (hd : d ≤ 16) :
    Inside m a n (read32 (p + BitVec.ofNat 32 d)) ↔ (p - a).toNat + (d + 4) ≤ n := by
  rw [inside_read32 (by omega)]
  constructor <;> intro h <;> bv_omega

theorem elfProcessPhdrPtLoad_inside (hn : n + 20 ≤ 2 ^ 32) (hp : (p - a).toNat + 4 ≤ n) :
    Inside m a n (elfProcessPhdrPtLoad p f) ↔ (p - a).toNat + 20 ≤ n := by
  have hoffset : Inside m a n (pOffset p) ↔ (p - a).toNat + (4 + 4) ≤ n := field_inside hn hp (by decide)
  have hvaddr : Inside m a n (pVaddr p) ↔ (p - a).toNat + (8 + 4) ≤ n := field_inside hn hp (by decide)
  have hfilesz : Inside m a n (pFilesz p) ↔ (p - a).toNat + (16 + 4) ≤ n := field_inside hn hp (by decide)
  rw [elfProcessPhdrPtLoad, setBase]
  simp only [inside_bind, inside_ite, inside_pure_iff, hoffset, hvaddr, hfilesz, implies_true, and_true]
  constructor
  · rintro ⟨-, -, h16, -⟩
    exact h16
  · intro h16
    have h8 : (p - a).toNat + (8 + 4) ≤ n := by omega
    have h4 : (p - a).toNat + (4 + 4) ≤ n := by omega
    exact ⟨⟨h8, fun _ => ⟨h8, h4⟩⟩, h8, h16, fun _ => ⟨h4, h16⟩⟩

theorem elfProcessPheader_inside (hn : n + 20 ≤ 2 ^ 32) :
    Inside m a n (elfProcessPheader p f) ↔ (p - a).toNat + headerLength m p ≤ n := by
  have htype : Inside m a n (pType p) ↔ (p - a).toNat + 4 ≤ n := inside_read32 (by omega)
  have hvalue : (pType p).value m = MultitaskOs.pType m p := rfl
  rw [elfProcessPheader, inside_bind, inside_ite, htype, hvalue, headerLength]
  by_cases hload : MultitaskOs.pType m p = ptLoad
  · rw [if_pos hload]
    constructor
    · rintro ⟨hp, hrest⟩
      exact (elfProcessPhdrPtLoad_inside hn hp).mp (hrest.1 hload)
    · intro h
      have hp : (p - a).toNat + 4 ≤ n := by omega
      exact ⟨hp, fun _ => (elfProcessPhdrPtLoad_inside hn hp).mpr h, fun hne => absurd hload hne⟩
  · simp [hload]

theorem elfProgramHeader_inside (hn : n < 2 ^ 32) : Inside m a n (elfProgramHeader a i) ↔ 32 ≤ n := by
  have hphoff : Inside m a n (ePhoff a) ↔ 32 ≤ n := by
    rw [ePhoff, inside_read32 hn, show (a + 28 - a).toNat = 28 by bv_omega]
  rw [elfProgramHeader, elfPheader]
  simp only [inside_bind, inside_ite, inside_pure_iff, hphoff]
  tauto

theorem elfProgramHeader_eq (h0 : MultitaskOs.ePhoff m a ≠ 0) :
    MultitaskOs.elfProgramHeader m a i = a + BitVec.ofNat 32 (headerOffset m a i) := by
  unfold MultitaskOs.elfProgramHeader MultitaskOs.elfPheader headerOffset
  rw [if_neg h0, BitVec.ofNat_toNat, BitVec.setWidth_eq, BitVec.add_assoc]

theorem elfProcessPheadersLoop_inside (hn : n + 20 ≤ 2 ^ 32) (h0 : MultitaskOs.ePhoff m a ≠ 0) {turns : Nat}
    (hi : i ≤ (MultitaskOs.ePhnum m a).toNat) (hturns : (MultitaskOs.ePhnum m a).toNat < i + turns) :
    Inside m a n (elfProcessPheadersLoop a turns i f) ↔
      46 ≤ n ∧ ∀ j, i ≤ j → j < (MultitaskOs.ePhnum m a).toNat →
        headerOffset m a j + headerLength m (a + BitVec.ofNat 32 (headerOffset m a j)) ≤ n := by
  induction turns generalizing i f with
  | zero => exact absurd hturns (not_lt.mpr hi)
  | succ turns ih =>
    have hphnum : Inside m a n (ePhnum a) ↔ 46 ≤ n := by
      rw [ePhnum, inside_read16 (by omega), show (a + 44 - a).toNat = 44 by bv_omega]
    rw [elfProcessPheadersLoop, inside_bind, inside_ite, hphnum, ePhnum_value]
    refine and_congr_right fun hlong => ?_
    by_cases hlt : i < (MultitaskOs.ePhnum m a).toNat
    · have hoffset : (a + BitVec.ofNat 32 (headerOffset m a i) - a).toNat = headerOffset m a i := by
        have := (MultitaskOs.ePhoff m a + BitVec.ofNat 32 (sizeofElf32Phdr * i)).isLt
        unfold headerOffset
        bv_omega
      simp only [hlt, not_true, false_implies, and_true, true_implies, inside_bind, elfProgramHeader_value,
        elfProgramHeader_eq h0, elfProgramHeader_inside (show n < 2 ^ 32 by omega),
        elfProcessPheader_inside hn, hoffset, ih hlt (by omega)]
      constructor
      · rintro ⟨-, hfirst, -, hrest⟩ j hj hj'
        rcases hj.eq_or_lt with rfl | hj
        · exact hfirst
        · exact hrest j hj hj'
      · intro h
        exact ⟨by omega, h i le_rfl hlt, hlong, fun j hj hj' => h j (by omega) hj'⟩
    · simp only [hlt, false_implies, not_false_eq_true, true_implies, true_and, inside_pure_iff, true_iff]
      omega

theorem elfProcessLoaded_inside (hn : n + 20 ≤ 2 ^ 32) : Inside m f.elf_memory n (elfProcessLoaded f) ↔
    Refuses m f.elf_memory n ∨ LongEnough m f.elf_memory n := by
  rw [elfProcessLoaded, inside_bind, elfValidateLoaded_inside (by omega), elfValidateLoaded_value, inside_ite]
  simp only [inside_bind, inside_pure_iff, implies_true, and_true, true_and, elfProcessPheaders]
  by_cases hneg : MultitaskOs.elfValidateLoaded m f.elf_memory < 0
  · simp only [hneg, not_true, false_implies, and_true]
    constructor
    · rintro (h | hlong)
      · exact Or.inl h
      · exact Or.inl (refuses_of_status hlong hneg)
    · rintro (h | h)
      · exact Or.inl h
      · exact Or.inr (by have := h.1; omega)
  · have hnot : ¬ Refuses m f.elf_memory n := fun h => hneg h.status
    have hlt := (MultitaskOs.ePhnum m f.elf_memory).isLt
    rw [elfProcessPheadersLoop_inside hn (ePhoff_ne_zero hneg) (Nat.zero_le _) (by omega)]
    simp only [hneg, hnot, not_false_eq_true, true_implies, false_or, LongEnough, Nat.zero_le]
    constructor
    · rintro ⟨-, h⟩
      exact h
    · intro h
      exact ⟨by omega, h⟩

theorem readsInside_iff {k : Kmem} : ReadsInside k f n ↔
    (⟨f.elf_memory, n⟩ : Block) ∈ k.heap.live ∧ Inside k.mem f.elf_memory n (elfProcessLoaded f) := by
  constructor
  · intro h
    refine ⟨?_, fun r hr i hi => (h r hr i hi).2⟩
    by_contra hlive
    have hnone : Inside k.mem f.elf_memory 0 (elfProcessLoaded f) := fun r hr i hi => absurd (h r hr i hi).1 hlive
    rcases (elfProcessLoaded_inside (by omega)).mp hnone with (h | h | h | h) | h
    · exact h rfl
    · exact absurd h.1 (by omega)
    · exact absurd h.1 (by omega)
    · exact absurd h.1 (by omega)
    · exact absurd h.1 (by omega)
  · rintro ⟨hlive, h⟩ r hr i hi
    exact ⟨hlive, h r hr i hi⟩

/-- For every file, of any length: what is read of its image is in its block exactly when the block
was granted and the file refuses itself or is long enough. -/
theorem elfProcessLoaded_reads_iff (k : Kmem) (f : ElfFile) (n : Nat) :
    ReadsInside k f n ↔ (⟨f.elf_memory, n⟩ : Block) ∈ k.heap.live ∧
      (Refuses k.mem f.elf_memory n ∨ LongEnough k.mem f.elf_memory n) := by
  rw [readsInside_iff]
  refine and_congr_right fun hlive => elfProcessLoaded_inside ?_
  have haligned := Kmem.live_aligned ⟨n, hlive⟩
  obtain ⟨hbase, -, hplaced⟩ := k.heap.placed _ hlive
  have hle := size_le_extent (g := blockSize) n
  have h0 : f.elf_memory.toNat ≠ 0 := fun h => hbase (BitVec.eq_of_toNat_eq h)
  dsimp only at hplaced
  omega

/-- A header of an ELF32 file that counts one program header, at 0x1000, where the file does not reach. -/
def truncated : List Byte :=
  elfSignature ++ [1, 1] ++ List.replicate 22 0 ++ [0, 0x10, 0, 0] ++ List.replicate 12 0 ++ [1, 0] ++
    List.replicate 6 0

/-- It is accepted, and its program header is read outside. -/
theorem truncated_reads_outside : ∃ (k : Kmem) (f : ElfFile), (⟨f.elf_memory, 52⟩ : Block) ∈ k.heap.live ∧
    readBytes k.mem f.elf_memory 52 = truncated ∧ (MultitaskOs.elfProcessLoaded k.mem f).2 = 0 ∧
      ¬ ReadsInside k f 52 := by
  refine ⟨{ (kzalloc emptyKmem 52).1 with mem := storeBytes (fun _ => 0) 0x4000 truncated }, ⟨0x4000, 0, 0, 0, 0⟩,
    by decide +kernel, by decide +kernel, by decide +kernel, fun h => ?_⟩
  rcases (elfProcessLoaded_inside (by decide)).mp (readsInside_iff.mp h).2 with hrefuses | ⟨-, hlong⟩
  · exact absurd hrefuses.status (by decide +kernel)
  · have hcount : 0 < (MultitaskOs.ePhnum (storeBytes (fun _ => 0) 0x4000 truncated) 0x4000).toNat := by decide +kernel
    have hoffset : headerOffset (storeBytes (fun _ => 0) 0x4000 truncated) 0x4000 0 = 0x1000 := by decide +kernel
    have := hlong 0 hcount
    dsimp only at this
    omega

end MultitaskOs.ElfReads
