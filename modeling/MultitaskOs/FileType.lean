import MultitaskOs.Loading

/-!
# The file type of a process

`process_load_binary` stores a raw image, but leaves the file type of the
process as `process_init` set it: ELF. So the type names what was stored exactly
where an ELF record was.
-/

open Lib Lib.Memory Lib.Arena MultitaskOs.PathParser MultitaskOs.Files MultitaskOs.OpenClose MultitaskOs.FatRead
  MultitaskOs.FatLookup MultitaskOs.Loading MultitaskOs.Tasks MultitaskOs.Descriptors

namespace MultitaskOs.FileType

variable {k k' k1 k2 k3 k4 : Kernel} {s : List Byte} {fd : Int} {a : Addr} {size : BitVec 32} {e : Entry}
  {content : List Byte}

/-! ## The content of a file -/

def fileSize (e : Entry) : BitVec 32 := e.getD 31 0 ++ e.getD 30 0 ++ e.getD 29 0 ++ e.getD 28 0

/-- The chain of the entry `e` holds `content`, at positions that fit an `int`. -/
structure HoldsFile (k : Kernel) (e : Entry) (content : List Byte) : Prop where
  size : (fileSize e).toNat = content.length
  fits : Fits k (firstCluster e) 0 content.length
  clusters : ∀ j, j * clusterBytes k < content.length → 0 ≤ chain k (firstCluster e) j
  bytes : ∀ t (ht : t < content.length),
    clusterByte k (chain k (firstCluster e) (t / clusterBytes k)) (t % clusterBytes k) = content[t]

theorem HoldsFile.congr (h : HoldsFile k e content) (hd : SameDisk k k') : HoldsFile k' e content := by
  have hcb := clusterBytes_congr hd
  refine ⟨h.size, h.fits.congr hd, fun j hj => ?_, fun t ht => ?_⟩
  · rw [chain_congr hd]
    exact h.clusters j (by rwa [hcb] at hj)
  · have hb := h.bytes t ht
    unfold clusterByte at hb ⊢
    rw [hcb, chain_congr hd, clusterPos_congr hd, hd.1]
    exact hb

theorem kzalloc_low (m : Kmem) (size : Nat) : Agree m.mem (kzalloc m size).1.mem 0 4096 := by
  intro x hx
  rcases kzalloc_cases m size with ⟨-, -, hmem, -⟩ | ⟨h0, -, hmem, -, hfit⟩
  · rw [hmem]
  · rw [hmem]
    obtain ⟨-, hal, hend⟩ := hfit.1
    have hle := size_le_extent (g := blockSize) size
    have hpos : (kzalloc m size).2.toNat ≠ 0 := fun hz => h0 (BitVec.eq_of_toNat_eq hz)
    have hal' : (kzalloc m size).2.toNat % 4096 = 0 := hal
    dsimp only at hend
    apply zero_of_not_within
    unfold Within at *
    bv_omega

theorem itemFilesize_eq {item : Addr} (he : readBytes k.mem item sizeofFatDirectoryItem = e) :
    itemFilesize k.mem item = fileSize e := by
  unfold fileSize
  rw [← he, readBytes_getD (by decide), readBytes_getD (by decide), readBytes_getD (by decide),
    readBytes_getD (by decide)]
  have h1 : item + 28 + 1 = item + BitVec.ofNat 32 29 := by rw [BitVec.add_assoc]; rfl
  have h2 : item + 28 + 2 = item + BitVec.ofNat 32 30 := by rw [BitVec.add_assoc]; rfl
  have h3 : item + 28 + 3 = item + BitVec.ofNat 32 31 := by rw [BitVec.add_assoc]; rfl
  unfold itemFilesize load32
  rw [h1, h2, h3]
  rfl

def entryOf (k : Kernel) (fd : Int) : Entry :=
  readBytes k.mem (copyOf k (fileGetDescriptor k fd)) sizeofFatDirectoryItem

/-- The entry that `fopen` finds for the path. -/
def openedEntry (k : Kernel) (s : List Byte) : Option Entry :=
  (fopen k (cstr s) modeR).map fun r => entryOf r.1 r.2

/-- No request is refused while the file is opened. -/
def OpensGranted (k : Kernel) (s : List Byte) : Prop :=
  ∀ k' fd, fopen k (cstr s) modeR = some (k', fd) → k'.heap.failures = k.heap.failures

theorem ReadFile.openFile (hs : NoNul s) (h : ReadFile s k1 k2 k3 k4 fd a size) :
    OpenFile s k1 k2 fd (fileGetDescriptor k2 fd) :=
  fopen_openFile hs h.opened h.pos (ReadFile.get h)

theorem ReadFile.openedEntry (h : ReadFile s k1 k2 k3 k4 fd a size) :
    openedEntry k1 s = some (entryOf k2 fd) := by
  rw [FileType.openedEntry, h.opened]
  rfl

theorem ReadFile.names {root : List Entry} (hs : NoNul s) (h : ReadFile s k1 k2 k3 k4 fd a size)
    (hok : k2.heap.failures = k1.heap.failures) (hroot : RootDirectory k1 root) : Names s root (entryOf k2 fd) := by
  obtain ⟨e, hname, -, hbytes⟩ := (ReadFile.openFile hs h).entry hok root hroot
  rwa [entryOf, hbytes]

theorem ReadFile.filesize (hs : NoNul s) (h : ReadFile s k1 k2 k3 k4 fd a size) : size = fileSize (entryOf k2 fd) := by
  have htype := (ReadFile.openFile hs h).type
  unfold itemOf at htype
  rw [← h.stat.2, entryOf, ← itemFilesize_eq rfl]
  unfold fstat fat16Stat
  dsimp only
  rw [if_neg (ReadFile.get h), if_neg (not_not.mpr htype)]
  rfl

theorem ReadFile.size_ne_zero (h : ReadFile s k1 k2 k3 k4 fd a size) : size ≠ 0 := by
  rintro rfl
  have hread := h.read
  unfold fread at hread
  rw [if_pos (Or.inl rfl)] at hread
  cases hread

theorem entryOf_request {m : Kmem} {f : Addr → ElfFile} {n : Nat}
    (hcopy : copyOf k (fileGetDescriptor k fd) = 0 ∨ k.heap.Live (copyOf k (fileGetDescriptor k fd)))
    (h : kzalloc k.toKmem n = (m, a)) : entryOf { k with toKmem := m, elfFiles := f } fd = entryOf k fd := by
  have hmem : m = (kzalloc k.toKmem n).1 := by rw [h]
  refine readBytes_agree ?_ (by decide)
  rw [hmem]
  show Agree k.mem (kzalloc k.toKmem n).1.mem (copyOf k (fileGetDescriptor k fd)) sizeofFatDirectoryItem
  rcases hcopy with h0 | hl
  · rw [h0]
    exact (kzalloc_low _ _).sub (by decide)
  · exact ((kzalloc_keeps _ _).page hl).sub (by rw [BitVec.sub_self]; decide)

theorem ReadFile.entryOf_eq (hs : NoNul s) (h : ReadFile s k1 k2 k3 k4 fd a size) : entryOf k3 fd = entryOf k2 fd := by
  obtain ⟨m, e, rfl⟩ := h.same
  exact entryOf_request (ReadFile.openFile hs h).copy h.request

theorem ReadFile.sameDisk (hs : NoNul s) (h : ReadFile s k1 k2 k3 k4 fd a size) : SameDisk k1 k3 := by
  obtain ⟨m, e, rfl⟩ := h.same
  obtain ⟨_, _, _, _, _, _, _, _, _, rfl, hv⟩ := (fopen_spec hs h.opened).1.only
  exact ⟨rfl, hv⟩

theorem ReadFile.chain_read (hs : NoNul s) (h : ReadFile s k1 k2 k3 k4 fd a size) :
    ∃ r, fat16ReadInternal k3 (firstCluster (entryOf k2 fd)) 0 size.toInt a = some (k4, r) := by
  have hread := h.read
  have hentry := ReadFile.entryOf_eq hs h
  have hget := ReadFile.get h
  have hpos := (ReadFile.openFile hs h).start
  have hsame : fileGetDescriptor k3 fd = fileGetDescriptor k2 fd ∧ k3.fatDescs = k2.fatDescs ∧
      k3.fileDescs = k2.fileDescs := by
    obtain ⟨m, e, rfl⟩ := h.same
    exact ⟨rfl, rfl, rfl⟩
  rw [← hsame.1] at hget hpos
  rw [← hsame.2.1, ← hsame.2.2] at hpos
  rw [fread_once (ReadFile.size_ne_zero h) h.pos hget, firstCluster_eq hentry, hpos] at hread
  obtain ⟨⟨k, r⟩, hr, hres⟩ := Option.map_eq_some_iff.mp hread
  obtain rfl : k = k4 := congrArg Prod.fst hres
  exact ⟨r, hr⟩

theorem HoldsFile.read (h : HoldsFile k e content) (hsec : k.disk.sector_size = 512) (hspc : 0 < clusterBytes k)
    (hpos : 0 < content.length) (a : Addr) :
    ∃ k', fat16ReadInternal k (firstCluster e) 0 content.length a = some (k', 0) ∧
      readBytes k'.mem a content.length = content := by
  obtain ⟨k', r, heq, hturns⟩ := readFromStream_spec hsec hspc (Nat.lt_succ_self content.length) h.fits a
  obtain ⟨rfl, hbytes⟩ := hturns.found fun j hj => by
    rw [Nat.zero_div, Nat.zero_add]
    refine h.clusters j ?_
    rcases hj with rfl | hj
    · omega
    · exact hj
  refine ⟨k', heq, List.ext_getElem (length_readBytes _ _ _) fun i hi hi' => ?_⟩
  rw [← List.getD_eq_getElem _ 0 hi, readBytes_getD hi', hbytes i hi', turnByte, Nat.zero_div, Nat.zero_mod,
    Nat.zero_add, Nat.zero_add]
  exact h.bytes i hi'

theorem readFile_content (hsec : k1.disk.sector_size = 512) (hspc : 0 < clusterBytes k1) (hs : NoNul s)
    (h : ReadFile s k1 k2 k3 k4 fd a size) (hfile : HoldsFile k1 (entryOf k2 fd) content) :
    size.toNat = content.length ∧ readBytes k4.mem a content.length = content := by
  have hlen : size.toNat = content.length := by rw [ReadFile.filesize hs h, hfile.size]
  have hsame := ReadFile.sameDisk hs h
  have hlt := hfile.fits.offsets
  have hint : size.toInt = (content.length : Int) := by rw [BitVec.toInt_eq_toNat_of_lt (by omega), hlen]
  have hpos : 0 < content.length := by
    rw [← hlen]
    exact Nat.pos_of_ne_zero fun hz => ReadFile.size_ne_zero h (BitVec.eq_of_toNat_eq hz)
  obtain ⟨r, hread⟩ := ReadFile.chain_read hs h
  rw [hint] at hread
  obtain ⟨k, heq, hbytes⟩ :=
    (hfile.congr hsame).read (by rw [hsame.1, hsec]) (by rwa [clusterBytes_congr hsame]) hpos a
  obtain ⟨rfl, -⟩ := Prod.mk.inj (Option.some.inj (heq.symm.trans hread))
  exact ⟨hlen, hbytes⟩

/-! ## What the type names -/

/-- The content has the fields that `elf_validate_loaded` reads, and they pass it. -/
def Passes (content : List Byte) : Prop :=
  32 ≤ content.length ∧ elfValidateLoaded (storeBytes (fun _ => 0) 0 content) 0 = 0

/-- `file` is the record of an ELF image that was read from a file with this content. -/
def ElfRecord (k : Kernel) (file : Addr) (content : List Byte) : Prop :=
  file ≠ 0 ∧ ∃ a, readBytes k.mem a content.length = content ∧
    k.elfFiles file = elfProcessPheaders k.mem { zeroElfFile with elf_memory := a }

/-- The file type names the member of the union that was stored. -/
structure Tagged (k : Kernel) (process : Addr) (content : List Byte) : Prop where
  elf : Passes content → (k.procs process).filetype = processFiletypeElf ∧
    ElfRecord k (k.procs process).elf_file content
  binary : ¬ Passes content → (k.procs process).filetype = processFiletypeBinary ∧
    (k.procs process).size.toNat = content.length ∧ readBytes k.mem (k.procs process).ptr content.length = content

theorem elfValidateLoaded_congr {m m' : Mem} {b b' : Addr}
    (h : ∀ i < 32, m' (b' + BitVec.ofNat 32 i) = m (b + BitVec.ofNat 32 i)) :
    elfValidateLoaded m' b' = elfValidateLoaded m b := by
  have h0 : m' b' = m b := by simpa using h 0 (by omega)
  have h1 : m' (b' + 1) = m (b + 1) := h 1 (by omega)
  have h2 : m' (b' + 2) = m (b + 2) := h 2 (by omega)
  have h3 : m' (b' + 3) = m (b + 3) := h 3 (by omega)
  have h4 : m' (b' + 4) = m (b + 4) := h 4 (by omega)
  have h5 : m' (b' + 5) = m (b + 5) := h 5 (by omega)
  have hphoff : ePhoff m' b' = ePhoff m b := by
    have h28 : m' (b' + 28) = m (b + 28) := h 28 (by omega)
    have h29 : m' (b' + 28 + 1) = m (b + 28 + 1) := by
      rw [BitVec.add_assoc, BitVec.add_assoc]
      exact h 29 (by omega)
    have h30 : m' (b' + 28 + 2) = m (b + 28 + 2) := by
      rw [BitVec.add_assoc, BitVec.add_assoc]
      exact h 30 (by omega)
    have h31 : m' (b' + 28 + 3) = m (b + 28 + 3) := by
      rw [BitVec.add_assoc, BitVec.add_assoc]
      exact h 31 (by omega)
    unfold ePhoff load32
    rw [h28, h29, h30, h31]
  unfold elfValidateLoaded elfValidSignature elfValidClass elfValidEncoding elfHasProgramHeader
  rw [h0, h1, h2, h3, h4, h5, hphoff]

theorem passes_iff {m : Mem} {a : Addr} (hlen : 32 ≤ content.length) (hmax : content.length ≤ 2 ^ 32)
    (h : readBytes m a content.length = content) : elfValidateLoaded m a = 0 ↔ Passes content := by
  have hc : elfValidateLoaded (storeBytes (fun _ => 0) 0 content) 0 = elfValidateLoaded m a := by
    refine elfValidateLoaded_congr fun i hi => ?_
    rw [storeBytes_at (by omega) hmax, ← readBytes_getD (m := m) (n := content.length) (by omega), h,
      List.getD_eq_getElem]
  unfold Passes
  rw [and_iff_right hlen, hc]

theorem rootDirectory_elfRecord {root : List Entry} (h : RootDirectory k root) :
    RootDirectory (elfRecord k).1 root := by
  have hkeeps := kzalloc_keeps k.toKmem sizeofElfFile
  unfold elfRecord
  dsimp only
  split <;> exact h.of_keeps hkeeps rfl

theorem elfRecord_zero (h : (elfRecord k).2 ≠ 0) : (elfRecord k).1.elfFiles (elfRecord k).2 = zeroElfFile := by
  have h2 : (elfRecord k).2 = (k.onKmem (kzalloc · sizeofElfFile)).2 := rfl
  rw [h2] at h ⊢
  unfold elfRecord
  dsimp only
  rw [if_neg h]
  exact Function.update_self _ _ _

/-- For every file, heap and process that `process_init` has cleared: where the call does not fail,
the type names what was stored exactly if the content of the entry that `fopen` found is an ELF image
and there was memory for its record. It is the entry that the path names unless a request failed
while the file was opened. -/
theorem processLoadData_tagged_iff {process : Addr} {res : Int} (hsec : k.disk.sector_size = 512)
    (hspc : 0 < clusterBytes k) (hs : NoNul s) (hinit : (k.procs process).filetype = processFiletypeElf)
    (h : processLoadData k (cstr s) process = some (k', res)) (hres : 0 ≤ res) :
    ∃ e, openedEntry (elfRecord k).1 s = some e ∧
      (OpensGranted (elfRecord k).1 s → ∀ root, RootDirectory k root → Names s root e) ∧
      ∀ content, HoldsFile k e content →
        (Tagged k' process content ↔ Passes content ∧ (kzalloc k.toKmem sizeofElfFile).2 ≠ 0) := by
  have hfile : (elfRecord k).2 = (kzalloc k.toKmem sizeofElfFile).2 := rfl
  have hrec := loadKeeps_elfRecord k
  obtain ⟨_, _, _, _, _, _, _, _, _, _, heq, hvol⟩ := hrec.only
  have hdisk : SameDisk k (elfRecord k).1 := by
    rw [heq]
    exact ⟨rfl, hvol⟩
  obtain ⟨-, k1, k2, k3, k4, fd, a, size, hread, -, hk1, hcases⟩ :=
    (processLoadData_cases hs h).resolve_left fun hneg => absurd hres (not_le.mpr hneg.1)
  refine ⟨entryOf k2 fd, ReadFile.openedEntry hread, fun hok root hroot => ?_, fun content hholds => ?_⟩
  · exact ReadFile.names hs hread (hok k2 fd hread.opened) (rootDirectory_elfRecord hroot)
  obtain ⟨hsize, hbytes⟩ := readFile_content (by rw [hdisk.1, hsec]) (by rw [clusterBytes_congr hdisk]; exact hspc) hs
    hread (hholds.congr hdisk)
  have hmax : content.length ≤ 2 ^ 32 := by omega
  have hprocs : k1.procs = k.procs := (hrec.trans hk1).procs
  -- the binary path leaves the type as it was
  have htype : (k'.procs process).filetype = processFiletypeElf := by
    rcases hcases with ⟨-, -, -, rfl⟩ | ⟨-, b, n, -, -, rfl⟩
    · rw [Kernel.setProc_self]
    · rw [Kernel.setProc_self, hprocs]
      exact hinit
  constructor
  · intro htag
    have hpass : Passes content := by
      by_contra hno
      exact absurd (htype.symm.trans (htag.binary hno).1) (by decide)
    refine ⟨hpass, ?_⟩
    have hvalid := (passes_iff hpass.1 hmax hbytes).mpr hpass
    rcases hcases with ⟨-, -, -, rfl⟩ | ⟨hno, -⟩
    · have hptr := (htag.elf hpass).2.1
      rw [Kernel.setProc_self] at hptr
      exact hptr
    · exact absurd hvalid hno
  · rintro ⟨hpass, hgranted⟩
    refine ⟨fun _ => ⟨htype, ?_⟩, fun hno => absurd hpass hno⟩
    have hvalid := (passes_iff hpass.1 hmax hbytes).mpr hpass
    rcases hcases with ⟨-, hmem, helf, rfl⟩ | ⟨hno, -⟩
    · rw [Kernel.setProc_self]
      refine ⟨hgranted, a, ?_, ?_⟩
      · show readBytes k1.mem a content.length = content
        rw [hmem, hbytes]
      · show k1.elfFiles (elfRecord k).2 = elfProcessPheaders k1.mem _
        rw [helf, hmem, elfRecord_zero hgranted]
    · exact absurd hvalid hno

/-! ## A raw image -/

def rawEntry : Entry := entryA.set 28 1 |>.set 29 0

/-- A volume with that file, whose byte is no ELF header. -/
def rawImage : Kernel :=
  { oneEntry rawEntry with disk := { emptyKernel.disk with sector := fun _ _ _ => 0x90 } }

def rawProcess : Addr := 0x2000000

theorem load_rawImage : (processLoadData rawImage (cstr pathA) rawProcess).map (·.2) = some 0 := by
  decide +kernel

theorem processLoadData_tagged_rawImage : ∃ k' e, openedEntry (elfRecord rawImage).1 pathA = some e ∧
      (OpensGranted (elfRecord rawImage).1 pathA → ∀ root, RootDirectory rawImage root → Names pathA root e) ∧
      ∀ content, HoldsFile rawImage e content →
        (Tagged k' rawProcess content ↔ Passes content ∧ (kzalloc rawImage.toKmem sizeofElfFile).2 ≠ 0) := by
  obtain ⟨⟨k', res⟩, h, hres⟩ := Option.map_eq_some_iff.mp load_rawImage
  obtain rfl : res = 0 := hres
  exact ⟨k', processLoadData_tagged_iff rfl (by decide) (by unfold NoNul; decide) rfl h le_rfl⟩

theorem holdsFile_rawImage : HoldsFile rawImage rawEntry [0x90] := by
  have hcb : clusterBytes rawImage = 512 := rfl
  refine ⟨by decide, ⟨by decide, ?_⟩, fun j hj => ?_, fun t ht => ?_⟩
  · rintro j (rfl | hj)
    · exact fun _ => by decide +kernel
    · rw [hcb, List.length_singleton] at hj
      obtain rfl : j = 0 := by omega
      exact fun _ => by decide +kernel
  · rw [hcb, List.length_singleton] at hj
    obtain rfl : j = 0 := by omega
    decide +kernel
  · obtain rfl : t = 0 := by simpa using ht
    rfl

theorem rootDirectory_rawImage : RootDirectory rawImage [rawEntry] :=
  rootDirectory_singleton ⟨by decide, by decide, by decide, by decide⟩ rfl (by decide +kernel) (by decide +kernel)

/-- The raw image is stored, and its type is ELF. -/
theorem raw_image_tagged_elf :
    RootDirectory rawImage [rawEntry] ∧ HoldsFile rawImage rawEntry [0x90] ∧ ∃ k',
      processLoadData rawImage (cstr pathA) rawProcess = some (k', 0) ∧
        (k'.procs rawProcess).size.toNat = 1 ∧ ¬ Tagged k' rawProcess [0x90] := by
  refine ⟨rootDirectory_rawImage, holdsFile_rawImage, ?_⟩
  have h : (processLoadData rawImage (cstr pathA) rawProcess).map (fun r =>
      (r.2, (r.1.procs rawProcess).size.toNat, (r.1.procs rawProcess).filetype)) =
        some (0, 1, processFiletypeElf) := by decide +kernel
  obtain ⟨⟨k', res⟩, hload, hr⟩ := Option.map_eq_some_iff.mp h
  simp only [Prod.mk.injEq] at hr
  obtain ⟨rfl, hsize, htype⟩ := hr
  refine ⟨k', hload, hsize, fun htag => ?_⟩
  have hno : ¬ Passes [0x90] := fun hp => absurd hp.1 (by decide)
  exact absurd (htype.symm.trans (htag.binary hno).1) (by decide)

end MultitaskOs.FileType
