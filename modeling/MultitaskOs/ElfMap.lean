import MultitaskOs.Code.Elf
import MultitaskOs.Isolation

/-!
# Mapping an ELF image

`process_map_elf` maps whatever its program headers name. The pages are the
image's own when the headers stay inside it.
-/

open Lib Lib.Memory Lib.Arena Lib.Run MultitaskOs.Paging MultitaskOs.Tasks MultitaskOs.ProcessMemory
  MultitaskOs.Isolation

namespace MultitaskOs.ElfMap

variable {k : Kernel} {m m' : Mem} {d : PageDir} {p elf : Addr} {filesize : Nat}

/-- The frame is a page of the blocks of the image. -/
def InImage (elf : Addr) (filesize : Nat) (frame : Addr) : Prop :=
  elf.toNat ≤ frame.toNat ∧ frame.toNat + 4096 ≤ elf.toNat + extent blockSize filesize

/-- The header table, and what each header names, end inside the image. -/
structure HeadersInside (m : Mem) (elf : Addr) (filesize : Nat) : Prop where
  table : (ePhoff m elf).toNat + sizeofElf32Phdr * (ePhnum m elf).toNat ≤ extent blockSize filesize
  segments : ∀ i < (ePhnum m elf).toNat,
    (pOffset m (elfProgramHeader m elf i)).toNat + (pMemsz m (elfProgramHeader m elf i)).toNat ≤
      extent blockSize filesize

def headerCall (m : Mem) (elf phdr : Addr) : MapCall :=
  ⟨pagingAlignToLowerPage (pVaddr m phdr), pagingAlignToLowerPage (elf + pOffset m phdr),
    pagingAlignAddress (elf + pOffset m phdr + pMemsz m phdr), phdrFlags m phdr⟩

theorem phdrFlags_lt (m : Mem) (phdr : Addr) : (phdrFlags m phdr).toNat < 4096 := by
  unfold phdrFlags
  dsimp only
  split <;> decide

/-! ## One header -/

theorem headerCall_inImage {phdr : Addr} (hp : (⟨elf, filesize⟩ : Block).Placed blockSize)
    (hin : (pOffset m phdr).toNat + (pMemsz m phdr).toNat ≤ extent blockSize filesize) {v : Nat}
    (hv : v < 2 ^ 20) {e : BitVec 32} (he : (headerCall m elf phdr).entry v = some e) :
    InImage elf filesize (tableAddress e) := by
  obtain ⟨hnz, ha, hend⟩ := hp
  dsimp only at hnz ha hend
  unfold blockSize at ha
  have hpos : 4096 ≤ elf.toNat := by
    have : elf.toNat ≠ 0 := fun h => hnz (BitVec.eq_of_toNat_eq h)
    omega
  have hext : extent blockSize filesize % 4096 = 0 := Nat.mul_mod_left _ _
  unfold MapCall.entry at he
  split at he
  · cases he
  rename_i hrej
  simp only [MapCall.Rejected, headerCall, not_or, not_not] at hrej
  obtain ⟨hv0, hp0, -, hle⟩ := hrej
  have hlow := toNat_alignToLowerPage (elf + pOffset m phdr)
  have hhigh := toNat_alignAddress (elf + pOffset m phdr + pMemsz m phdr)
  have hadd1 := BitVec.toNat_add elf (pOffset m phdr)
  have hadd2 := BitVec.toNat_add (elf + pOffset m phdr) (pMemsz m phdr)
  have hlt1 := (elf + pOffset m phdr).isLt
  rw [BitVec.lt_def] at hle
  have hcount : ∀ a b : BitVec 32, ¬ b.toNat < a.toNat → (b - a).toNat = b.toNat - a.toNat :=
    fun a b h => BitVec.toNat_sub_of_le (by simpa [BitVec.le_def] using h)
  have hc := hcount _ _ hle
  obtain ⟨i, hi, -, rfl⟩ := (mapped_eq_some hv0 (by omega) hv e).mp he
  dsimp only [headerCall] at hi
  have hframe : (pagingAlignToLowerPage (elf + pOffset m phdr) + BitVec.ofNat 32 (4096 * i)).toNat =
      (pagingAlignToLowerPage (elf + pOffset m phdr)).toNat + 4096 * i := by
    rw [BitVec.toNat_add, BitVec.toNat_ofNat]
    omega
  dsimp only [headerCall]
  rw [tableAddress_or (by rw [hframe]; omega) (phdrFlags_lt m phdr)]
  unfold InImage
  rw [hframe]
  omega

/-! ## The image while its pages are mapped -/

theorem ePhnum_image (h : Agree m m' elf (extent blockSize filesize)) : ePhnum m' elf = ePhnum m elf := by
  apply Agree.load16
  apply h.sub
  have hle := le_extent (g := blockSize) filesize
  unfold blockSize at *
  bv_omega

theorem ePhoff_image (h : Agree m m' elf (extent blockSize filesize)) : ePhoff m' elf = ePhoff m elf := by
  apply Agree.load32
  apply h.sub
  have hle := le_extent (g := blockSize) filesize
  unfold blockSize at *
  bv_omega

theorem header_offset (h0 : ePhoff m elf ≠ 0) {i : Nat}
    (hlt : (ePhoff m elf).toNat + sizeofElf32Phdr * i < 2 ^ 32) :
    (elfProgramHeader m elf i - elf).toNat = (ePhoff m elf).toNat + sizeofElf32Phdr * i := by
  unfold elfProgramHeader elfPheader
  rw [if_neg h0, BitVec.add_assoc, BitVec.add_comm elf, BitVec.add_sub_cancel, BitVec.toNat_add, BitVec.toNat_ofNat]
  omega

theorem headerCall_agree {phdr : Addr} (h : Agree m m' phdr sizeofElf32Phdr) :
    headerCall m' elf phdr = headerCall m elf phdr := by
  have hload : ∀ c : BitVec 32, c.toNat ≤ 28 → load32 m' (phdr + c) = load32 m (phdr + c) := by
    intro c hc
    refine (h.sub ?_).load32
    have : (phdr + c - phdr).toNat = c.toNat := by bv_omega
    unfold sizeofElf32Phdr
    omega
  have hv : pVaddr m' phdr = pVaddr m phdr := hload 8 (by decide)
  have ho : pOffset m' phdr = pOffset m phdr := hload 4 (by decide)
  have hz : pMemsz m' phdr = pMemsz m phdr := hload 20 (by decide)
  have hf : pFlags m' phdr = pFlags m phdr := hload 24 (by decide)
  unfold headerCall phdrFlags
  rw [hv, ho, hz, hf]

theorem headerCall_image (h : Agree m m' elf (extent blockSize filesize)) (hin : HeadersInside m elf filesize)
    (h0 : ePhoff m elf ≠ 0) (hp : (⟨elf, filesize⟩ : Block).Placed blockSize) {i : Nat}
    (hi : i < (ePhnum m elf).toNat) :
    headerCall m' elf (elfProgramHeader m elf i) = headerCall m elf (elfProgramHeader m elf i) := by
  have htable := hin.table
  have hbound := hp.2.2
  dsimp only at hbound
  unfold sizeofElf32Phdr at htable
  refine headerCall_agree (h.sub ?_)
  rw [header_offset h0 (by unfold sizeofElf32Phdr; omega), sizeofElf32Phdr]
  omega

theorem tables_apart_image (hin : d.In k.toKmem) (himg : (⟨elf, filesize⟩ : Block) ∈ k.heap.live)
    (hnot : elf ∉ d.blocks) : ∀ i < 1024, Apart (d.table i) 4096 elf (extent blockSize filesize) := by
  intro i hi
  obtain ⟨n, hn⟩ := hin.live _ (d.table_mem hi)
  have hne : d.table i ≠ elf := fun he => hnot (he ▸ d.table_mem hi)
  have hap := Kmem.live_apart hn himg hne
  have hle := le_extent (g := blockSize) n
  have hle' := le_extent (g := blockSize) filesize
  dsimp only at hap
  unfold blockSize at *
  refine hap.sub ?_ ?_ (by omega) (by omega)
  · rw [BitVec.sub_self]
    exact (Nat.zero_add _).trans_le hle
  · rw [BitVec.sub_self]
    exact (Nat.zero_add _).le

/-! ## The loop -/

/-- Every entry of `f` is a page of the image. -/
def Confined (elf : Addr) (filesize : Nat) (f : Nat → Option (BitVec 32)) : Prop :=
  ∀ v < 2 ^ 20, ∀ e, f v = some e → InImage elf filesize (tableAddress e)

section

variable {file : ElfFile} (hfile : file.elf_memory = elf)
  (hap : ∀ i < 1024, Apart (d.table i) 4096 elf (extent blockSize filesize))
  {f : Nat → Option (BitVec 32)} (hr : Remap d m m' f)

include hfile hap hr

/-- A turn maps what the header says by now. -/
theorem processMapElfLoop_turn {i : Nat} (hi : i < (ePhnum m elf).toNat) (n : Nat) (res : Int) : ∃ m2,
    processMapElfLoop d.chunk file (elfPheader m elf) (n + 1) i res m' =
      (if (headerCall m' elf (elfProgramHeader m elf i)).Rejected then (m2, -EINVARG)
        else processMapElfLoop d.chunk file (elfPheader m elf) n (i + 1) 0 m2) ∧
    Remap d m m2 fun q => ((headerCall m' elf (elfProgramHeader m elf i)).entry q).or (f q) := by
  obtain ⟨m2, hm2, hr2⟩ := pagingMapTo_spec hr.holds (headerCall m' elf (elfProgramHeader m elf i))
  have hmap : pagingMapTo m' d.chunk (pagingAlignToLowerPage (pVaddr m' (elfProgramHeader m elf i)))
      (pagingAlignToLowerPage (elfPhdrPhysAddress m' file (elfProgramHeader m elf i)))
      (pagingAlignAddress (elfPhdrPhysAddress m' file (elfProgramHeader m elf i) +
        pMemsz m' (elfProgramHeader m elf i))) (phdrFlags m' (elfProgramHeader m elf i)) =
      (m2, if (headerCall m' elf (elfProgramHeader m elf i)).Rejected then -EINVARG else 0) := by
    unfold elfPhdrPhysAddress
    rw [hfile]
    exact hm2
  have hphdr : elfPheader m elf + BitVec.ofNat 32 (sizeofElf32Phdr * i) = elfProgramHeader m elf i := rfl
  refine ⟨m2, ?_, hr.trans hr2⟩
  rw [processMapElfLoop, hfile, ePhnum_image (hr.agree hap), if_pos hi]
  dsimp only
  rw [hphdr, hmap]
  dsimp only
  split_ifs with hrej hneg hneg
  · rfl
  · exact absurd (show -EINVARG < 0 by decide) hneg
  · exact absurd hneg (lt_irrefl _)
  · rfl

theorem processMapElfLoop_end {i : Nat} (hi : (ePhnum m elf).toNat ≤ i) (n : Nat) (res : Int) :
    processMapElfLoop d.chunk file (elfPheader m elf) n i res m' = (m', res) := by
  cases n with
  | zero => rfl
  | succ n =>
    rw [processMapElfLoop, hfile, ePhnum_image (hr.agree hap), if_neg (not_lt.mpr hi)]

theorem processMapElfLoop_confined (hp : (⟨elf, filesize⟩ : Block).Placed blockSize) (h0 : ePhoff m elf ≠ 0)
    (hin : HeadersInside m elf filesize) (hf : Confined elf filesize f) (n i : Nat) (res : Int) :
    ∃ g, Remap d m (processMapElfLoop d.chunk file (elfPheader m elf) n i res m').1 g ∧
      Confined elf filesize g := by
  induction n generalizing i res m' f with
  | zero => exact ⟨f, hr, hf⟩
  | succ n ih =>
    by_cases hi : i < (ePhnum m elf).toNat
    · have hcall := headerCall_image (hr.agree hap) hin h0 hp hi
      obtain ⟨m2, hturn, hr'⟩ := processMapElfLoop_turn hfile hap hr hi n res
      rw [hcall] at hturn hr'
      have hf' : Confined elf filesize fun q =>
          ((headerCall m elf (elfProgramHeader m elf i)).entry q).or (f q) := by
        intro v hv e he
        rcases Option.or_eq_some_iff.mp he with he | ⟨-, he⟩
        · exact headerCall_inImage hp (hin.segments i hi) hv he
        · exact hf v hv e he
      rw [hturn]
      split_ifs
      · exact ⟨_, hr', hf'⟩
      · exact ih hr' hf' (i + 1) _
    · rw [processMapElfLoop_end hfile hap hr (not_lt.mp hi)]
      exact ⟨f, hr, hf⟩

end

/-- For every image that is accepted and whose headers end inside it: each entry that
`process_map_elf` makes is a page of the image's own blocks. -/
theorem processMapElf_confined (hd : pageDirectory k p = d.chunk) (hin : d.In k.toKmem)
    (helf : (k.elfFiles (k.procs p).elf_file).elf_memory = elf)
    (himg : (⟨elf, filesize⟩ : Block) ∈ k.heap.live) (hnot : elf ∉ d.blocks)
    (hvalid : elfValidateLoaded k.mem elf = 0) (hinside : HeadersInside k.mem elf filesize) :
    ∀ v < 2 ^ 20, pageEntry (processMapElf k p).1 p v = pageEntry k p v ∨
      InImage elf filesize (tableAddress (pageEntry (processMapElf k p).1 p v)) := by
  have h0 : ePhoff k.mem elf ≠ 0 := ePhoff_ne_zero (not_lt.mpr hvalid.ge)
  obtain ⟨g, hr, hg⟩ := processMapElfLoop_confined helf (tables_apart_image hin himg hnot) (Remap.refl hin.holds)
    (k.heap.placed _ himg) h0 hinside (fun v hv e he => by cases he) (2 ^ 16) 0 0
  have hmem : (processMapElf k p).1 = { k with
      mem := (processMapElfLoop d.chunk (k.elfFiles (k.procs p).elf_file) (elfPheader k.mem elf) (2 ^ 16) 0 0
        k.mem).1 } := by
    unfold processMapElf
    rw [hd, ← helf]
  rw [hmem]
  intro v hv
  have hd' : pageDirectory { k with
      mem := (processMapElfLoop d.chunk (k.elfFiles (k.procs p).elf_file) (elfPheader k.mem elf) (2 ^ 16) 0 0
        k.mem).1 } p = d.chunk := hd
  rw [pageEntry_eq hd' hr.holds hv, pageEntry_eq hd hin.holds hv, hr.entry v hv]
  cases hgv : g v with
  | none => exact Or.inl rfl
  | some e => exact Or.inr (hg v hv e hgv)

/-! ## A header that names memory past the image -/

/-- An image of 84 bytes: a header, and one program header behind it. -/
def elfWords (offset : BitVec 32) : List (BitVec 32) :=
  [0x464c457f, 0x00000101, 0, 0, 0x00030002, 1, 0x400000, 52, 0, 0, 0x00200034, 1, 0,
    1, offset, 0x400000, 0x400000, 84, 84, 6, 4096]

/-- `p` with the image, on blocks of its own. -/
def withImage (k : Kernel) (p : Addr) (words : List (BitVec 32)) : Kernel :=
  let (k, file) := k.onKmem (kzalloc · sizeofElfFile)
  let (k, elf) := k.onKmem (kzalloc · (4 * words.length))
  { k.setProc p fun q => { q with ptr := file } with
    mem := storeWords k.mem elf words
    elfFiles := Function.update k.elfFiles file ⟨elf, 0, 0, 0, 0⟩ }

/-- The process has the words as its image, in a directory that still maps every page to itself. -/
structure HasImage (k : Kernel) (p elf : Addr) (d : PageDir) (words : List (BitVec 32)) : Prop where
  directory : pageDirectory k p = d.chunk
  inMem : d.In k.toKmem
  image : (k.elfFiles (k.procs p).elf_file).elf_memory = elf
  live : (⟨elf, 4 * words.length⟩ : Block) ∈ k.heap.live
  apart : elf ∉ d.blocks
  word : ∀ i, (hi : i < words.length) → load32 k.mem (elf + BitVec.ofNat 32 (4 * i)) = words[i]
  entry : ∀ v < 2 ^ 20, pageEntry k p v = BitVec.ofNat 32 (4096 * v) ||| 5

theorem withImage_ok {k0 k : Kernel} (hs : Spawned k0 k p d) (hroom : Spare k.toKmem 2)
    (words : List (BitVec 32)) (hlen : 4 * words.length ≤ 4096) :
    ∃ elf, HasImage (withImage k p words) p elf d words ∧ elf.toNat + bumpStride ≤ 2 ^ 32 := by
  obtain ⟨⟨k1, file⟩, h1⟩ : ∃ r, kzalloc k.toKmem sizeofElfFile = r := ⟨_, rfl⟩
  obtain ⟨⟨k2, elf⟩, h2⟩ : ∃ r, kzalloc k1 (4 * words.length) = r := ⟨_, rfl⟩
  obtain ⟨hroom1, hok1⟩ := hroom.kzalloc (n := 1) sizeofElfFile (by decide)
  have hf1 := kzalloc_ok _ hok1
  rw [h1] at hroom1 hf1
  have hsmall : 4 * words.length ≤ bumpStride := by
    unfold bumpStride blockSize
    omega
  have hf2 := kzalloc_ok _ (hroom1.kzalloc (n := 0) _ hsmall).2
  have hend := hroom1.kzalloc_room (n := 0) _ hsmall
  rw [h2] at hf2 hend
  dsimp only at hf1 hf2 hend
  have hkeeps := hf1.keeps.trans hf2.keeps
  have hnew : ¬ k.heap.Live elf := fun h => hf2.not_live (hf1.keeps.isLive h)
  have hstored : k.toKmem.Keeps { k2 with mem := storeWords k2.mem elf words } := by
    refine hkeeps.store hf2.mem_live hnew fun x hx => storeWords_of_not_within ?_ (by omega)
    have hle := size_le_extent (g := blockSize) (4 * words.length)
    unfold Within at *
    dsimp only at hx
    omega
  have heq : withImage k p words = { k.setProc p fun q => { q with ptr := file } with
      toKmem := { k2 with mem := storeWords k2.mem elf words }
      elfFiles := Function.update k.elfFiles file ⟨elf, 0, 0, 0, 0⟩ } := by
    rw [withImage, Kernel.onKmem_eq h1]
    dsimp only
    rw [Kernel.onKmem_eq h2]
    rfl
  have hin : d.In k.toKmem := hs.new.inMem
  have hdir : pageDirectory (withImage k p words) p = d.chunk := by
    rw [heq, pageDirectory]
    dsimp only
    rw [Kernel.setProc_self]
    exact hs.directory
  have hin' : d.In (withImage k p words).toKmem := by
    rw [heq]
    exact hin.keeps hstored
  refine ⟨elf, ⟨hdir, hin', ?_, ?_, ?_, ?_, ?_⟩, hend⟩
  · rw [heq, Process.elf_file]
    dsimp only
    rw [Kernel.setProc_self, Function.update_self]
  · rw [heq]
    exact hf2.mem_live
  · exact fun h => hnew (hin.live elf h)
  · intro i hi
    rw [heq]
    exact load32_storeWords (by omega) hi
  · intro v hv
    rw [pageEntry_eq hdir hin'.holds hv, heq]
    exact (hin.entry_keeps hstored hv).trans (hs.new.entry v hv)

section

variable {offset : BitVec 32}

def HasWords (m : Mem) (elf : Addr) (words : List (BitVec 32)) : Prop :=
  ∀ i, (hi : i < words.length) → load32 m (elf + BitVec.ofNat 32 (4 * i)) = words[i]

/-- The words as bytes, the lowest byte of each first. -/
def wordBytes (words : List (BitVec 32)) : List Byte :=
  words.flatMap fun w => [w.extractLsb' 0 8, w.extractLsb' 8 8, w.extractLsb' 16 8, w.extractLsb' 24 8]

theorem hasWords_of_readBytes {m : Mem} {words : List (BitVec 32)}
    (h : readBytes m elf (4 * words.length) = wordBytes words) : HasWords m elf words := by
  induction words generalizing elf with
  | nil => exact fun i hi => absurd hi (Nat.not_lt_zero i)
  | cons w ws ih =>
    have hcons : wordBytes (w :: ws) = w.extractLsb' 0 8 :: w.extractLsb' 8 8 :: w.extractLsb' 16 8 ::
      w.extractLsb' 24 8 :: wordBytes ws := rfl
    rw [hcons, List.length_cons, Nat.mul_succ, readBytes_succ, readBytes_succ, readBytes_succ, readBytes_succ] at h
    simp only [List.cons.injEq, BitVec.add_assoc] at h
    obtain ⟨h0, h1, h2, h3, hrest⟩ := h
    intro i hi
    cases i with
    | zero =>
      rw [Nat.mul_zero, BitVec.add_zero, List.getElem_cons_zero, load32, h0, h1]
      have h2' : m (elf + 2) = w.extractLsb' 16 8 := h2
      have h3' : m (elf + 3) = w.extractLsb' 24 8 := h3
      rw [h2', h3', bytes_append]
    | succ i =>
      have htail : elf + BitVec.ofNat 32 (4 * (i + 1)) = elf + (1 + (1 + (1 + 1))) + BitVec.ofNat 32 (4 * i) := by
        bv_omega
      rw [htail]
      exact ih hrest i (Nat.lt_of_succ_lt_succ hi)

theorem HasWords.load {m : Mem} (h : HasWords m elf (elfWords offset)) {i : Nat} (hi : i < 21) :
    load32 m (elf + BitVec.ofNat 32 (4 * i)) = (elfWords offset).getD i 0 := by
  have hlen : (elfWords offset).length = 21 := rfl
  rw [h i (by omega), List.getD_eq_getElem _ _ (by omega)]

theorem elfValidateLoaded_of_words {m : Mem} (hid : load32 m elf = 0x464c457f)
    (hclass : load32 m (elf + 4) = 0x00000101) (h0 : ePhoff m elf ≠ 0) : elfValidateLoaded m elf = 0 := by
  obtain ⟨h00, h01, h02, h03⟩ := bytes_load32 m elf
  obtain ⟨h04, h05, -⟩ := bytes_load32 m (elf + 4)
  rw [hid] at h00 h01 h02 h03
  rw [hclass] at h04 h05
  have h05' : m (elf + 5) = (257 : BitVec 32).extractLsb' 8 8 := by
    rw [← h05, BitVec.add_assoc]
    rfl
  unfold elfValidateLoaded elfValidSignature elfValidClass elfValidEncoding elfHasProgramHeader
  rw [h00, h01, h02, h03, h04, h05', bne_iff_ne.mpr h0]
  decide

theorem HasWords.header {m : Mem} (h : HasWords m elf (elfWords offset)) :
    elfValidateLoaded m elf = 0 ∧ ePhoff m elf = 52 ∧ ePhnum m elf = 1 := by
  have hid : load32 m elf = 0x464c457f := by
    have := h.load (i := 0) (by decide)
    rwa [Nat.mul_zero, BitVec.ofNat_eq_ofNat, BitVec.add_zero] at this
  have hclass : load32 m (elf + 4) = 0x00000101 := h.load (i := 1) (by decide)
  have hphoff : ePhoff m elf = 52 := h.load (i := 7) (by decide)
  have hphnum : load32 m (elf + 44) = 1 := h.load (i := 11) (by decide)
  refine ⟨elfValidateLoaded_of_words hid hclass (by rw [hphoff]; decide), hphoff, ?_⟩
  unfold ePhnum
  rw [load16_eq_load32, hphnum]
  rfl

theorem elfProgramHeader_first {m : Mem} (h : ePhoff m elf ≠ 0) : elfProgramHeader m elf 0 = elf + ePhoff m elf := by
  unfold elfProgramHeader elfPheader
  rw [if_neg h, Nat.mul_zero, BitVec.add_zero]

theorem HasWords.segment {m : Mem} (h : HasWords m elf (elfWords offset)) :
    headerCall m elf (elfProgramHeader m elf 0) = ⟨0x400000,
      pagingAlignToLowerPage (elf + offset), pagingAlignAddress (elf + offset + 84), pagingUserWriteable⟩ ∧
    pOffset m (elfProgramHeader m elf 0) = offset ∧
    pMemsz m (elfProgramHeader m elf 0) = 84 := by
  have hphoff := h.header.2.1
  have hphdr : elfProgramHeader m elf 0 = elf + 52 := by
    rw [elfProgramHeader_first (by rw [hphoff]; decide), hphoff]
  have hword : ∀ i < 21, ∀ c : BitVec 32, 52 + c = BitVec.ofNat 32 (4 * i) →
      load32 m (elf + 52 + c) = (elfWords offset).getD i 0 := by
    intro i hi c hc
    rw [BitVec.add_assoc, hc]
    exact h.load hi
  have hoff : pOffset m (elf + 52) = offset := hword 14 (by decide) 4 (by decide)
  have hvaddr : pVaddr m (elf + 52) = 0x400000 := hword 15 (by decide) 8 (by decide)
  have hmemsz : pMemsz m (elf + 52) = 84 := hword 18 (by decide) 20 (by decide)
  have hflags : pFlags m (elf + 52) = 6 := hword 19 (by decide) 24 (by decide)
  rw [hphdr]
  refine ⟨?_, hoff, hmemsz⟩
  unfold headerCall phdrFlags
  rw [hoff, hvaddr, hmemsz, hflags]
  rfl

theorem HasWords.headersInside {m : Mem} (h : HasWords m elf (elfWords 0)) : HeadersInside m elf 84 := by
  obtain ⟨-, hphoff, hphnum⟩ := h.header
  obtain ⟨-, hoff, hmemsz⟩ := h.segment
  constructor
  · rw [hphoff, hphnum]
    decide
  · intro i hi
    rw [hphnum] at hi
    obtain rfl : i = 0 := Nat.lt_one_iff.mp hi
    rw [hoff, hmemsz]
    decide

theorem HasImage.words (h : HasImage k p elf d (elfWords offset)) : HasWords k.mem elf (elfWords offset) := h.word

theorem HasImage.processMapElf_one (h : HasImage k p elf d (elfWords offset))
    (hacc : ¬ (headerCall k.mem elf (elfProgramHeader k.mem elf 0)).Rejected) :
    ∃ m', processMapElf k p = ({ k with mem := m' }, 0) ∧
      Remap d k.mem m' (headerCall k.mem elf (elfProgramHeader k.mem elf 0)).entry := by
  have hap := tables_apart_image h.inMem h.live h.apart
  obtain ⟨m', hturn, hr⟩ := processMapElfLoop_turn h.image hap (Remap.refl h.inMem.holds)
    (show 0 < (ePhnum k.mem elf).toNat by rw [h.words.header.2.2]; decide) 65535 0
  have hone : (ePhnum k.mem elf).toNat ≤ 0 + 1 := by
    rw [h.words.header.2.2]
    decide
  rw [if_neg hacc, processMapElfLoop_end h.image hap hr hone] at hturn
  refine ⟨m', ?_, hr.congr fun q _ => Option.or_none⟩
  unfold processMapElf
  dsimp only
  rw [h.directory, h.image, show (2 : Nat) ^ 16 = 65535 + 1 by norm_num, hturn]

end

theorem HasImage.past_image (h : HasImage k p elf d (elfWords 4096)) (hend : elf.toNat + bumpStride ≤ 2 ^ 32) :
    (processMapElf k p).2 = 0 ∧
      ¬ ∀ v < 2 ^ 20, pageEntry (processMapElf k p).1 p v = pageEntry k p v ∨
        InImage elf 84 (tableAddress (pageEntry (processMapElf k p).1 p v)) := by
  have ha := Kmem.live_aligned ⟨_, h.live⟩
  have hstride : bumpStride = 16384 := rfl
  have hoff : (elf + 4096).toNat = elf.toNat + 4096 := by bv_omega
  have hlow : pagingAlignToLowerPage (elf + 4096) = elf + 4096 := by
    apply BitVec.eq_of_toNat_eq
    rw [toNat_alignToLowerPage, hoff]
    omega
  have hhigh : pagingAlignAddress (elf + 4096 + 84) = elf + 8192 := by
    apply BitVec.eq_of_toNat_eq
    rw [toNat_alignAddress]
    bv_omega
  have hcall := h.words.segment.1
  rw [hlow, hhigh] at hcall
  have hacc : ¬ (headerCall k.mem elf (elfProgramHeader k.mem elf 0)).Rejected := by
    rw [hcall]
    rintro (hv | hp | he | hle)
    · exact hv (show (0x400000 : Addr).toNat % 4096 = 0 by decide)
    · dsimp only at hp
      omega
    · dsimp only at he
      bv_omega
    · dsimp only at hle
      bv_omega
  obtain ⟨m', heq, hr⟩ := h.processMapElf_one hacc
  have hentry : (headerCall k.mem elf (elfProgramHeader k.mem elf 0)).entry 1024 =
      some ((elf + 4096) ||| pagingUserWriteable) := by
    unfold MapCall.entry
    rw [if_neg hacc, hcall]
    have hcount : (elf + 8192 - (elf + 4096)).toNat / 4096 = 1 := by bv_omega
    dsimp only
    rw [hcount]
    simp [mapped]
  rw [heq]
  refine ⟨rfl, fun hall => ?_⟩
  have hdir : pageDirectory { k with mem := m' } p = d.chunk := h.directory
  have hnew : pageEntry { k with mem := m' } p 1024 = (elf + 4096) ||| pagingUserWriteable := by
    rw [pageEntry_eq hdir hr.holds (by decide), hr.entry 1024 (by decide), hentry]
    rfl
  rcases hall 1024 (by decide) with hsame | hin
  · have hwr := writeable_or (elf + 4096)
    rw [← hnew, hsame, h.entry 1024 (by decide)] at hwr
    exact writeable_identity 1024 hwr
  · rw [hnew, tableAddress_or (by omega) (by decide), InImage, hoff] at hin
    have hext : extent blockSize 84 = 4096 := rfl
    omega

def imageProcess : Addr := (spawn emptyKernel).2

def imageKernel (offset : BitVec 32) : Kernel :=
  withImage (spawn emptyKernel).1 imageProcess (elfWords offset)

theorem imageKernel_ok (offset : BitVec 32) :
    ∃ elf d, HasImage (imageKernel offset) imageProcess elf d (elfWords offset) ∧
      elf.toNat + bumpStride ≤ 2 ^ 32 := by
  obtain ⟨hroom, hok⟩ := spawn_spare (k := emptyKernel) (n := 2) (spare_emptyKmem (by omega))
  obtain ⟨d, hs⟩ := spawn_ok hok
  obtain ⟨elf, h⟩ := withImage_ok hs hroom (elfWords offset) (by show 4 * 21 ≤ 4096; decide)
  exact ⟨elf, d, h⟩

theorem processMapElf_confined_imageKernel :
    ∃ elf, ∀ v < 2 ^ 20,
      pageEntry (processMapElf (imageKernel 0) imageProcess).1 imageProcess v =
        pageEntry (imageKernel 0) imageProcess v ∨
      InImage elf 84 (tableAddress (pageEntry (processMapElf (imageKernel 0) imageProcess).1 imageProcess v)) := by
  obtain ⟨elf, d, h, -⟩ := imageKernel_ok 0
  exact ⟨elf, processMapElf_confined h.directory h.inMem h.image h.live h.apart h.words.header.1 h.words.headersInside⟩

theorem processMapElf_maps_past_image :
    ∃ elf, (⟨elf, 84⟩ : Block) ∈ (imageKernel 4096).heap.live ∧
      ((imageKernel 4096).elfFiles ((imageKernel 4096).procs imageProcess).elf_file).elf_memory = elf ∧
      elfValidateLoaded (imageKernel 4096).mem elf = 0 ∧ (processMapElf (imageKernel 4096) imageProcess).2 = 0 ∧
      ¬ ∀ v < 2 ^ 20,
        pageEntry (processMapElf (imageKernel 4096) imageProcess).1 imageProcess v =
          pageEntry (imageKernel 4096) imageProcess v ∨
        InImage elf 84
          (tableAddress (pageEntry (processMapElf (imageKernel 4096) imageProcess).1 imageProcess v)) := by
  obtain ⟨elf, d, h, hend⟩ := imageKernel_ok 4096
  exact ⟨elf, h.live, h.image, h.words.header.1, h.past_image hend⟩

end MultitaskOs.ElfMap
