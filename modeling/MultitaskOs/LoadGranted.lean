import MultitaskOs.LoadedImage

/-!
# A load that is granted

A volume that holds the file of the path, and a heap with room for what a load
asks: then every step of the load succeeds, whatever else is in use.
-/

open Lib Lib.Memory Lib.Arena MultitaskOs.PathParser MultitaskOs.Files MultitaskOs.OpenClose MultitaskOs.FatLookup
  MultitaskOs.FatRead MultitaskOs.Loading MultitaskOs.FileType MultitaskOs.Paging MultitaskOs.ElfMap
  MultitaskOs.MapMemory MultitaskOs.Tasks MultitaskOs.LoadSteps MultitaskOs.LoadOutcome MultitaskOs.ProcessTable
  MultitaskOs.Termination MultitaskOs.LoadedImage

namespace MultitaskOs.LoadGranted

variable {k k1 k' : Kernel} {s c content : List Byte} {root : List Entry} {e : Entry} {item path : Addr} {n i : Nat}

/-! ## Room for what is asked -/

/-- The step asks for `n` blocks at most, and is given them where there is room for `n`. -/
def Uses (n : Nat) (k k' : Kernel) : Prop :=
  ∀ r, Spare k.toKmem (r + n) → Spare k'.toKmem r ∧ k'.heap.failures = k.heap.failures

theorem Uses.trans {n' : Nat} (h : Uses n k k1) (h' : Uses n' k1 k') : Uses (n + n') k k' := by
  intro r hr
  obtain ⟨hr1, hf1⟩ := h (r + n') (by rwa [show r + n' + n = r + (n + n') by omega])
  obtain ⟨hr2, hf2⟩ := h' r hr1
  exact ⟨hr2, hf2.trans hf1⟩

theorem Uses.mono {n' : Nat} (h : Uses n k k') (hn : n ≤ n') : Uses n' k k' := by
  intro r hr
  obtain ⟨hr', hf⟩ := h (r + (n' - n)) (by rwa [show r + (n' - n) + n = r + n' by omega])
  exact ⟨hr'.mono (by omega), hf⟩

theorem uses_of_heap (h : k'.heap = k.heap) : Uses 0 k k' := by
  intro r hr
  exact ⟨⟨h ▸ hr.bumped, h ▸ hr.room⟩, congrArg Arena.failures h⟩

theorem Uses.heap (h : Uses n k k1) (hheap : k'.heap = k1.heap) : Uses n k k' := h.trans (uses_of_heap hheap)

theorem uses_kzalloc (k : Kernel) (size : Nat) (h : size ≤ bumpStride) : Uses 1 k (k.onKmem (kzalloc · size)).1 :=
  fun _ hr => hr.kzalloc size h

theorem uses_kfree (k : Kernel) (a : Addr) : Uses 0 k (k.onKmem fun m => (kfree m a, ())).1 := by
  intro r hr
  refine ⟨⟨⟨hr.bumped.answers, fun b hb => hr.bumped.below b (Arena.mem_free_live.mp hb).1⟩, hr.room⟩, rfl⟩

/-! ## Opening the file -/

theorem uses_getPathPart {path : CharPtr} {r : Kernel × Addr × CharPtr} (h : pathparserGetPathPart k path = some r) :
    Uses 1 k r.1 := by
  unfold pathparserGetPathPart at h
  have hask := uses_kzalloc k maxPath (by decide)
  obtain ⟨⟨k1, part⟩, hk1⟩ : ∃ r, k.onKmem (kzalloc · maxPath) = r := ⟨_, rfl⟩
  rw [hk1] at h hask
  obtain ⟨⟨mem, path', i⟩, -, h⟩ := Option.bind_eq_some_iff.mp h
  obtain ⟨c, -, h⟩ := Option.bind_eq_some_iff.mp h
  have hstore : Uses 1 k { k1 with mem } := hask.heap rfl
  dsimp only at h
  split at h
  · cases h
    exact hstore.trans (uses_kfree _ part)
  · cases h
    exact hstore

theorem uses_parsePathPart {last : Addr} {path : CharPtr} {r : Kernel × Addr × CharPtr}
    (h : pathparserParsePathPart k last path = some r) : Uses 2 k r.1 := by
  unfold pathparserParsePathPart at h
  obtain ⟨⟨k1, str, path1⟩, h1, h⟩ := Option.bind_eq_some_iff.mp h
  have hget := uses_getPathPart h1
  dsimp only at h hget
  split at h
  · cases h
    exact hget.mono (by omega)
  · have hask := uses_kzalloc k1 sizeofPathPart (by decide)
    cases h
    refine (hget.trans hask).heap ?_
    dsimp only
    split_ifs <;> rfl

theorem uses_parsePartsLoop {path : CharPtr} {part : Addr} (h : parsePartsLoop n k part path = some k') :
    Uses (2 * n) k k' := by
  induction n generalizing k part path with
  | zero => cases h
  | succ n ih =>
    unfold parsePartsLoop at h
    split at h
    · cases h
      exact (uses_of_heap rfl).mono (by omega)
    · obtain ⟨⟨k1, part1, path1⟩, h1, h⟩ := Option.bind_eq_some_iff.mp h
      exact ((uses_parsePathPart h1).trans (ih h)).mono (by omega)

/-- Enough for every path that is accepted. -/
def parseRequests : Nat := 2 * maxPath + 7

theorem uses_pathparserParse (hs : NoNul s) {r : Kernel × Addr} (h : pathparserParse k (cstr s) = some r) :
    Uses parseRequests k r.1 := by
  by_cases hacc : Accepts s
  swap
  · obtain ⟨k', root, hparse, hp⟩ := pathparserParse_spec hs k
    cases hparse.symm.trans h
    rw [(hp.rejected hacc).2]
    exact (uses_of_heap rfl).mono (Nat.zero_le _)
  obtain ⟨hlen, d, rest, hd⟩ := hacc
  obtain ⟨hrest, hrlen⟩ := Accepts.rest hlen hd hs
  obtain ⟨⟨m, a⟩, hm⟩ : ∃ r, kzalloc k.toKmem sizeofPathRoot = r := ⟨_, rfl⟩
  have hroot : Uses 1 k (withRoot k m a d) := by
    have hask := uses_kzalloc k sizeofPathRoot (by decide)
    rw [Kernel.onKmem_eq hm] at hask
    exact hask.heap rfl
  rw [pathparserParse_run hs hlen hd hm] at h
  split at h
  · cases h
    exact hroot.mono (by decide)
  obtain ⟨k2, first, h2, hstep⟩ := parsePathPart_spec hrest hrlen (withRoot k m a d) 0
  have huse2 := uses_parsePathPart h2
  rw [h2, Option.bind_some] at h
  dsimp only at h huse2
  split at h
  · cases h
    exact (hroot.trans huse2).mono (by decide)
  rename_i hfirst
  have hlt := restParts_length (hstep.nonempty hfirst)
  obtain ⟨k3, part, h3, -⟩ := parsePathPart_spec hrest.rest (by omega) (k2.setRoot a fun f => { f with first }) first
  rw [h3, Option.bind_some] at h
  obtain ⟨k4, h4, h⟩ := Option.bind_eq_some_iff.mp h
  cases h
  dsimp only at h4
  have huse3 : Uses 2 k2 k3 := ((uses_of_heap rfl).trans (uses_parsePathPart h3)).mono (by omega)
  refine (((hroot.trans huse2).trans huse3).trans (uses_parsePartsLoop h4)).mono ?_
  have hle : (restParts (restParts rest)).length ≤ (restParts rest).length := by
    have := (List.dropWhile_sublist (l := restParts rest) (· ≠ slash)).length_le
    conv_lhs => rw [restParts, List.length_tail]
    omega
  have hcstr : (cstr (restParts (restParts rest))).length = (restParts (restParts rest)).length + 1 := by simp [cstr]
  rw [hcstr]
  unfold parseRequests
  omega

/-- The path of the file `c` in the root of the drive 0. -/
structure RootPath (s c : List Byte) : Prop where
  noNul : NoNul s
  length : s.length ≤ maxPath
  drive : ∃ d rest, Drive s d rest ∧ tonumericdigit d = 0 ∧ components rest = [c]

theorem RootPath.component (h : RootPath s c) : NoNul c := by
  obtain ⟨d, rest, hd, -, hcs⟩ := h.drive
  obtain ⟨hrest, -⟩ := Accepts.rest h.length hd h.noNul
  rw [components_eq] at hcs
  split at hcs
  · cases hcs
  · obtain ⟨rfl, -⟩ := List.cons.inj hcs
    exact fun x hx => hrest x ((List.takeWhile_sublist _).subset hx)

/-- A volume with the entries `root`, and a descriptor to open a file with. -/
structure Mounted (k : Kernel) (root : List Entry) : Prop where
  sector : k.disk.sector_size = 512
  clusters : 0 < clusterBytes k
  filesystem : k.disk.filesystem = true
  root : RootDirectory k root
  descriptor : ∃ i, freeDescriptor k = some i ∧ i + 1 < fileDescriptors

theorem freeDescriptor_congr (h : k'.file_descriptors = k.file_descriptors) : freeDescriptor k' = freeDescriptor k := by
  unfold freeDescriptor
  rw [h]

theorem Mounted.keeps (h : Mounted k root) (hkeeps : k.toKmem.Keeps k'.toKmem) (hdisk : SameDisk k k')
    (htable : k'.file_descriptors = k.file_descriptors) : Mounted k' root := by
  refine ⟨by rw [hdisk.1, h.sector], ?_, by rw [hdisk.1, h.filesystem], h.root.of_keeps hkeeps hdisk.2.2, ?_⟩
  · rw [clusterBytes_congr hdisk]
    exact h.clusters
  · rw [freeDescriptor_congr htable]
    exact h.descriptor

theorem parse_granted (hp : RootPath s c) (hr : Spare k.toKmem (n + parseRequests)) :
    ∃ k' path_root, pathparserParse k (cstr s) = some (k', path_root) ∧ path_root ≠ 0 ∧
      (k'.pathRoots path_root).drive_no = 0 ∧ Parts k' (k'.pathRoots path_root).first [c] ∧
      k'.heap.Live (k'.pathParts (k'.pathRoots path_root).first).part ∧ FileKeeps k k' ∧ OnlyPaths k k' ∧
      Spare k'.toKmem n ∧ k'.heap.failures = k.heap.failures := by
  obtain ⟨d, rest, hd, hdrive, hcs⟩ := hp.drive
  obtain ⟨k', path_root, hparse, hparsed⟩ := pathparserParse_spec hp.noNul k
  obtain ⟨hr', hok⟩ := uses_pathparserParse hp.noNul hparse n hr
  obtain ⟨h0, hno, hparts⟩ := hparsed.ok hok d rest hp.length hd
  rw [hcs] at hparts
  exact ⟨k', path_root, hparse, h0, hno.trans hdrive, hparts,
    firstPart_live hp.noNul hparse h0 hok hparts.1, Parsed.fileKeeps hparsed, hparsed.only, hr', hok⟩

theorem newItem_granted (he : ∀ k', FatKeeps k k' → readBytes k'.mem item sizeofFatDirectoryItem = e)
    (hfile : ¬ IsDirectory e) (hr : Spare k.toKmem (n + 2)) :
    ∃ k' f, fat16NewFatItemForDirectoryItem k item = some (k', f) ∧ f ≠ 0 ∧ Spare k'.toKmem n ∧
      k'.heap.failures = k.heap.failures := by
  obtain ⟨hr1, hok1⟩ := Spare.kzalloc (n := n + 1) hr sizeofFatItem (by decide)
  have hf := kzalloc_ok _ hok1
  obtain ⟨⟨m, f⟩, hm⟩ : ∃ r, kzalloc k.toKmem sizeofFatItem = r := ⟨_, rfl⟩
  have hk1 := (FatKeeps.refl k).alloc sizeofFatItem
  unfold fat16NewFatItemForDirectoryItem
  rw [Kernel.onKmem_eq hm] at hk1 ⊢
  rw [hm] at hr1 hok1 hf
  dsimp only at hk1 hr1 hok1 ⊢
  have hattr : ¬ itemAttribute m.mem item &&& fatFileSubdirectory ≠ 0 := (itemAttribute_eq (he _ hk1)).not.mpr hfile
  rw [if_neg hf.ne_zero, if_neg hattr]
  obtain ⟨hr2, hok2⟩ := Spare.kzalloc (n := n) hr1 sizeofFatDirectoryItem (by decide)
  have hheap := finishItem_heap { k with toKmem := m } f item
  refine ⟨finishItem { k with toKmem := m } f item, f, rfl, hf.ne_zero, ⟨?_, ?_⟩, ?_⟩
  · rw [hheap]
    exact hr2.bumped
  · rw [hheap]
    exact hr2.room
  · rw [hheap]
    exact hok2.trans hok1

theorem iserr_kzalloc {m : Kmem} (h : Spare m (n + 1)) (hn : 2 ^ 17 ≤ n) (size : Nat) :
    ISERR (kzalloc m size).2 = false := by
  have hlow := h.kzalloc_low hn size
  unfold ISERR
  rw [decide_eq_false_iff_not, BitVec.toInt_eq_toNat_of_lt (by omega)]
  omega

theorem fat16Open_granted (hroot : RootDirectory k root) (hc : NoNul c) (hparts : Parts k path [c])
    (hlive : k.heap.Live (k.pathParts path).part) (he : e ∈ root) (hname : SameName (entryName e) c)
    (hfile : ¬ IsDirectory e) (hr : Spare k.toKmem (n + 3)) (hn : 2 ^ 17 ≤ n) :
    ∃ k' priv, fat16Open k path .read = some (k', priv) ∧ ISERR priv = false ∧ Spare k'.toKmem n ∧
      k'.heap.failures = k.heap.failures := by
  obtain ⟨hr1, hok1⟩ := Spare.kzalloc (n := n + 2) hr sizeofFatFileDescriptor (by decide)
  have herr := iserr_kzalloc (n := n + 2) hr (by omega) sizeofFatFileDescriptor
  have hf := kzalloc_ok _ hok1
  obtain ⟨⟨m, d⟩, hm⟩ : ∃ r, kzalloc k.toKmem sizeofFatFileDescriptor = r := ⟨_, rfl⟩
  have hk1 := (FatKeeps.refl k).alloc sizeofFatFileDescriptor
  unfold fat16Open
  rw [Kernel.onKmem_eq hm] at hk1 ⊢
  rw [hm] at hr1 hok1 hf herr
  dsimp only at hk1 hr1 hok1 herr ⊢
  obtain ⟨a, hbytes, hfind⟩ := findItem_found (hroot.keeps hk1) hc (hk1.keeps.isLive hlive)
    (Text.keeps hparts.2.1 hk1.keeps hlive) he hname
  obtain ⟨k2, f, hnew, h0, hr2, hok2⟩ := newItem_granted hbytes hfile hr1
  have hentry : fat16GetDirectoryEntry maxPath { k with toKmem := m } path = some (k2, f) := by
    rw [getDirectoryEntry_eq (by decide), hfind, hnew, Option.map_some]
    exact congrArg (fun r => some (k2, r)) (if_pos hparts.2.2)
  rw [if_neg (not_not.mpr rfl), if_neg hf.ne_zero, hentry]
  dsimp only [Option.bind_eq_bind, Option.bind_some]
  rw [if_neg h0]
  exact ⟨_, d, rfl, herr, ⟨hr2.bumped, hr2.room⟩, hok2.trans hok1⟩

def openRequests : Nat := parseRequests + 4

/-- The path names the file `e` of the root, which has this content. -/
structure Finds (k : Kernel) (root : List Entry) (s : List Byte) (e : Entry) (content : List Byte) : Prop where
  mounted : Mounted k root
  path : ∃ c, RootPath s c ∧ SameName (entryName e) c
  mem : e ∈ root
  file : ¬ IsDirectory e
  holds : HoldsFile k e content
  small : content.length ≤ bumpStride

theorem fopen_granted (h : Finds k root s e content) (hr : Spare k.toKmem (n + openRequests)) (hn : 2 ^ 17 ≤ n) :
    ∃ k' fd, fopen k (cstr s) modeR = some (k', fd) ∧ 0 < fd ∧ fileGetDescriptor k' fd ≠ 0 ∧ Spare k'.toKmem n ∧
      k'.heap.failures = k.heap.failures := by
  have hm := h.mounted
  obtain ⟨c, hp, hname⟩ := h.path
  obtain ⟨k1, path_root, hparse, h0, hdrive, hparts, hlive, hkeeps, honly, hr1, hok1⟩ :=
    parse_granted (n := n + 4) hp hr
  have hsame : k1.disk = k.disk ∧ k1.file_descriptors = k.file_descriptors := by
    obtain ⟨_, _, _, rfl⟩ := honly
    exact ⟨rfl, rfl⟩
  obtain ⟨k2, priv, hopen, herr, hr2, hok2⟩ := fat16Open_granted (n := n + 1) (rootDirectory_keeps hkeeps hm.root)
    hp.component hparts hlive h.mem hname h.file hr1 (by omega)
  obtain ⟨i, hi, hbound⟩ := hm.descriptor
  obtain ⟨hr3, hok3⟩ := hr2.kzalloc sizeofFileDescriptor (by decide)
  have hdesc := (kzalloc_ok _ hok3).ne_zero
  have htable : k2.file_descriptors = k.file_descriptors := by
    obtain ⟨_, _, _, _, _, rfl, -⟩ := (fat16Open_keeps hopen).1.only
    exact hsame.2
  have hi2 : freeDescriptor k2 = some i := (freeDescriptor_congr htable).trans hi
  have hnew : fileNewDescriptor k2 = ({ k2 with
      toKmem := (kzalloc k2.toKmem sizeofFileDescriptor).1
      fileDescs := Function.update k2.fileDescs (kzalloc k2.toKmem sizeofFileDescriptor).2 ⟨i + 1, 0⟩
      file_descriptors := Function.update k2.file_descriptors i (kzalloc k2.toKmem sizeofFileDescriptor).2 }, 0,
      (kzalloc k2.toKmem sizeofFileDescriptor).2) := by
    unfold fileNewDescriptor
    rw [hi2]
    rfl
  generalize kzalloc k2.toKmem sizeofFileDescriptor = r at hr3 hok3 hdesc hnew
  obtain ⟨m, desc⟩ := r
  have hmode : fileGetModeByString modeR = some .read := by decide
  have hpos : ¬ ((i : Int) + 1 < 0) := by omega
  refine ⟨{ k2 with
    toKmem := m
    fileDescs := Function.update (Function.update k2.fileDescs desc ⟨i + 1, 0⟩) desc ⟨i + 1, priv⟩
    file_descriptors := Function.update k2.file_descriptors i desc }, i + 1, ?_, by omega, ?_, ⟨hr3.bumped, hr3.room⟩,
    (hok3.trans hok2).trans hok1⟩
  · unfold fopen
    simp only [hparse, hmode, hopen, hnew, herr, hdrive, hsame.1, hm.filesystem, Option.bind_eq_bind, Option.bind_some,
      if_neg h0, if_neg hparts.1, Function.update_self]
    simp [diskGet, hpos]
  · unfold fileGetDescriptor
    rw [if_neg (by omega)]
    simpa using hdesc

theorem Finds.keeps (h : Finds k root s e content) (hkeeps : k.toKmem.Keeps k'.toKmem) (hdisk : SameDisk k k')
    (htable : k'.file_descriptors = k.file_descriptors) : Finds k' root s e content :=
  ⟨h.mounted.keeps hkeeps hdisk htable, h.path, h.mem, h.file, h.holds.congr hdisk, h.small⟩

theorem Finds.setProc (h : Finds k root s e content) (p : Addr) (f : Process → Process) :
    Finds (k.setProc p f) root s e content := h.keeps (Kmem.Keeps.refl _) ⟨rfl, rfl, rfl⟩ rfl

theorem Finds.names_unique {e' : Entry} (h : Finds k root s e content) (hnames : Names s root e') : e' = e := by
  obtain ⟨c, hp, hname⟩ := h.path
  obtain ⟨d, rest, hd, -, hcs⟩ := hp.drive
  obtain ⟨d', rest', hd', he', hname'⟩ := hnames
  obtain ⟨rfl, rfl⟩ : d = d' ∧ rest = rest' := by
    have := hd.eq.symm.trans hd'.eq
    simpa using this
  have hc : firstPart rest = c := by
    rw [components_eq] at hcs
    split at hcs
    · cases hcs
    · exact (List.cons.inj hcs).1
  exact h.mounted.root.listing.unique_mem he' h.mem (hc ▸ hname') hname

/-! ## Reading the image -/

theorem uses_fatItemFree (k : Kernel) (a : Addr) : Uses 0 k (fat16FatItemFree k a) := by
  unfold fat16FatItemFree fat16FreeDirectory
  dsimp only
  refine Uses.trans (n := 0) ?_ (uses_kfree _ a)
  split_ifs
  · exact uses_of_heap rfl
  · exact (uses_kfree _ _).trans (uses_kfree _ _)
  · exact uses_kfree _ _
  · exact uses_kfree _ _
  · exact uses_of_heap rfl

theorem uses_fclose (k : Kernel) (fd : Int) : Uses 0 k (fclose k fd).1 := by
  unfold fclose fat16Close fat16FreeFileDescriptor fileFreeDescriptor
  dsimp only
  rw [if_pos rfl]
  split_ifs
  · exact uses_of_heap rfl
  · exact ((uses_fatItemFree _ _).trans (uses_kfree _ _)).trans ((uses_of_heap rfl).trans (uses_kfree _ _))

theorem read_granted (h : Finds k root s e content) (h0 : 0 < content.length) (f : Addr)
    (hr : Spare k.toKmem (n + openRequests + 1)) (hn : 2 ^ 17 ≤ n) :
    ∃ k2 m k4 fd a size, ReadFile s k k2 (withImage k2 m f a) k4 fd a size ∧
      readBytes k4.mem a content.length = content ∧
      Spare k4.toKmem n ∧ k4.heap.failures = k.heap.failures := by
  obtain ⟨c, hp, hname⟩ := h.path
  have hs := hp.noNul
  obtain ⟨k2, fd, hopen, hpos, hget, hr2, hok2⟩ := fopen_granted (n := n + 1) h (hr.mono (by omega)) (by omega)
  have hopened := fopen_openFile hs hopen hpos hget
  obtain ⟨e', hnames, -, hbytes⟩ := hopened.entry hok2 root h.mounted.root
  obtain rfl := h.names_unique hnames
  have htype : (k2.fatItems (k2.fatDescs (k2.fileDescs (fileGetDescriptor k2 fd)).priv).item).type = fatItemTypeFile :=
    hopened.type
  have hstat : fstat k2 fd = (0, (fstat k2 fd).2) ∧ (fstat k2 fd).2.filesize = fileSize e' := by
    rw [← itemFilesize_eq hbytes]
    unfold fstat fat16Stat
    dsimp only
    rw [if_neg hget, if_neg (not_not.mpr htype)]
    exact ⟨rfl, rfl⟩
  have hlen := h.holds.size
  obtain ⟨hr3, hok3⟩ := hr2.kzalloc (fileSize e').toNat (by rw [hlen]; exact h.small)
  obtain ⟨⟨m, a⟩, hm⟩ : ∃ r, kzalloc k2.toKmem (fileSize e').toNat = r := ⟨_, rfl⟩
  have hentry : entryOf (withImage k2 m f a) fd = e' := (entryOf_request hopened.copy hm).trans hbytes
  rw [hm] at hr3 hok3
  have hvolume : SameDisk k (withImage k2 m f a) := by
    obtain ⟨_, _, _, _, _, _, _, _, _, rfl, hv⟩ := (fopen_spec hs hopen).1.only
    exact ⟨rfl, hv⟩
  have hlt := h.holds.fits.offsets
  have hsize : fileSize e' ≠ 0 := by
    intro hz
    rw [hz] at hlen
    exact absurd hlen.symm (by simpa using h0.ne')
  have hint : (fileSize e').toInt = (content.length : Int) := by rw [BitVec.toInt_eq_toNat_of_lt (by omega), hlen]
  obtain ⟨k4, hread, hcontent⟩ := (h.holds.congr hvolume).read (by rw [hvolume.1, h.mounted.sector])
    (by rw [clusterBytes_congr hvolume]; exact h.mounted.clusters) h0 a
  have hfread : fread (withImage k2 m f a) a (fileSize e') 1 fd = some (k4, 1) := by
    have hstart : ((withImage k2 m f a).fatDescs ((withImage k2 m f a).fileDescs
        (fileGetDescriptor (withImage k2 m f a) fd)).priv).pos = 0 := hopened.start
    have hfound : fileGetDescriptor (withImage k2 m f a) fd ≠ 0 := hget
    rw [fread_once hsize hpos hfound, firstCluster_eq hentry, hstart, hint, show (0 : BitVec 32).toInt = 0 from rfl,
      hread]
    rfl
  have hheap : k4.heap = m.heap := by
    obtain ⟨⟨_, _, rfl, -, -⟩, -⟩ := fread_cases hfread
    rfl
  exact ⟨k2, m, k4, fd, a, fileSize e', ⟨hopen, hpos, hstat, hm, ⟨_, _, rfl⟩, hfread⟩, hcontent,
    ⟨hheap ▸ hr3.bumped, hheap ▸ hr3.room⟩, by rw [hheap, hok3, hok2]⟩

theorem elfRecord_keeps (k : Kernel) : k.toKmem.Keeps (elfRecord k).1.toKmem ∧ SameDisk k (elfRecord k).1 ∧
    (elfRecord k).1.file_descriptors = k.file_descriptors := by
  have hkeeps := kzalloc_keeps k.toKmem sizeofElfFile
  unfold elfRecord
  dsimp only
  split <;> exact ⟨hkeeps, ⟨rfl, rfl, rfl⟩, rfl⟩

theorem elfLoad_of_read {k0 k2 k4 : Kernel} {m : Kmem} {f a : Addr} {fd : Int} {size : BitVec 32} {loaded : ElfFile}
    (h : ReadFile s k0 k2 (withImage k2 m f a) k4 fd a size)
    (hloaded : elfProcessLoaded k4.mem (k4.elfFiles f) = (loaded, 0)) (hrecord : elfRecord k = (k0, f)) :
    elfLoad k (cstr s) = some ((fclose (k4.setElf f fun _ => loaded) fd).1, 0, f) := by
  rw [elfRecord_eq, Prod.mk.injEq] at hrecord
  obtain ⟨hk0, hf⟩ := hrecord
  have hopened := h.opened
  have hread := h.read
  rw [← hk0] at hopened
  unfold elfLoad
  dsimp only
  rw [hopened]
  dsimp only [Option.bind_eq_bind, Option.bind_some]
  rw [if_neg (not_le.mpr h.pos), h.stat.1]
  dsimp only
  rw [if_neg (lt_irrefl 0), h.stat.2, Kernel.onKmem_eq h.request, hf]
  dsimp only
  rw [show (({ k2 with toKmem := (withImage k2 m f a).toKmem } : Kernel).setElf f fun x => { x with elf_memory := a }) =
    withImage k2 m f a from rfl, hread]
  dsimp only [Option.bind_some]
  rw [if_neg (by decide), hloaded]
  rfl

theorem elfLoad_found (h : Finds k root s e content) (hpass : Passes content)
    (hr : Spare k.toKmem (n + openRequests + 2)) (hn : 2 ^ 17 ≤ n) :
    ∃ k', elfLoad k (cstr s) = some (k', 0, (elfRecord k).2) ∧ Finds k' root s e content ∧ Spare k'.toKmem n ∧
      k'.heap.failures = k.heap.failures := by
  obtain ⟨c, hp, -⟩ := h.path
  have hs := hp.noNul
  have hlen : 32 ≤ content.length := hpass.1
  obtain ⟨hr1, hok1⟩ := Spare.kzalloc (n := n + openRequests + 1) hr sizeofElfFile (by decide)
  obtain ⟨hkeeps1, hdisk1, htable⟩ := elfRecord_keeps k
  have hfound := h.keeps hkeeps1 hdisk1 htable
  have hheap := elfRecord_heap k
  obtain ⟨k2, m, k4, fd, a, size, hread, hbytes, hr4, hok4⟩ := read_granted hfound (by omega) (elfRecord k).2
    ⟨hheap ▸ hr1.bumped, hheap ▸ hr1.room⟩ hn
  have hlt := h.holds.fits.offsets
  have hvalid : elfValidateLoaded k4.mem a = 0 := (passes_iff hlen (by omega) hbytes).mpr hpass
  have hmemory := congrArg ElfFile.elf_memory (ReadFile.record hs hread rfl)
  have hloaded : elfProcessLoaded k4.mem (k4.elfFiles (elfRecord k).2) =
      (elfProcessPheaders k4.mem (k4.elfFiles (elfRecord k).2), 0) := by
    unfold elfProcessLoaded
    rw [hmemory]
    dsimp only
    rw [hvalid, if_neg (lt_irrefl 0)]
  have hload := elfLoad_of_read hread hloaded rfl
  have hfiles := ReadFile.sameFiles hread
  have hsame : SameFiles k2 (k4.setElf (elfRecord k).2 fun _ =>
      elfProcessPheaders k4.mem (k4.elfFiles (elfRecord k).2)) :=
    ⟨hfiles.table, hfiles.files, hfiles.descs, hfiles.items⟩
  have hclosed := (closed_read hs hread.opened (ReadFile.get hread) hsame).1
  obtain ⟨hr', hok'⟩ := uses_fclose (k4.setElf (elfRecord k).2 fun _ =>
    elfProcessPheaders k4.mem (k4.elfFiles (elfRecord k).2)) fd n hr4
  have hkeeps := (loadKeeps_elfRecord k).trans (elfLoad_cases hs hload).1
  generalize (fclose (k4.setElf (elfRecord k).2 fun _ =>
    elfProcessPheaders k4.mem (k4.elfFiles (elfRecord k).2)) fd).1 = k'
    at hload hclosed hr' hok' hkeeps
  have hok : k'.heap.failures = k.heap.failures := by
    rw [hok', ← hok1, ← hheap]
    exact hok4
  refine ⟨k', hload, h.keeps (hkeeps.keeps hok) ?_ (hclosed.trans htable), hr', hok⟩
  obtain ⟨_, _, _, _, _, _, _, _, _, _, heq, hvol⟩ := hkeeps.only
  rw [heq]
  exact ⟨rfl, hvol⟩

/-! ## The process -/

variable {p : Addr} {slot : Nat} {m : Kmem} {t : Addr} {r : Task} {d : PageDir}

theorem strncpy_some (hs : NoNul s) (count : Nat) : ∃ name, strncpy (cstr s) count = some name := by
  induction s generalizing count with
  | nil => match count with
    | 0 | 1 => exact ⟨_, rfl⟩
    | count + 2 => exact ⟨_, if_pos rfl⟩
  | cons c s ih => match count with
    | 0 | 1 => exact ⟨_, rfl⟩
    | count + 2 =>
      obtain ⟨name, hname⟩ := ih hs.tail (count + 1)
      refine ⟨c :: name, ?_⟩
      rw [cstr_cons, strncpy, if_neg hs.head, hname]
      rfl

theorem prepared_found (h : Finds k root s e content) (hpass : Passes content)
    (hr : Spare k.toKmem (n + openRequests + 4)) (hn : 2 ^ 17 < n) (slot : Nat) :
    ∃ k1 p, p = (kzalloc k.toKmem sizeofProcess).2 ∧ Prepared k s slot k1 p ∧ Ready s k k1 p content.length ∧
      readBytes k1.mem (imageOf k1 p) content.length = content ∧ StackAt (k1.procs p).stack ∧
      (k1.procs p).elf_file = elfFileOf k ∧ Finds k1 root s e content ∧ Spare k1.toKmem n ∧
      k1.heap.failures = k.heap.failures := by
  obtain ⟨c, hp, -⟩ := h.path
  have hs := hp.noNul
  obtain ⟨n, rfl⟩ : ∃ i, n = i + 1 := ⟨n - 1, by omega⟩
  obtain ⟨hr1, hok1⟩ := Spare.kzalloc (n := n + 1 + openRequests + 3) hr sizeofProcess (by decide)
  obtain ⟨⟨m, p⟩, hm⟩ : ∃ r, kzalloc k.toKmem sizeofProcess = r := ⟨_, rfl⟩
  have hf := kzalloc_ok _ hok1
  rw [hm] at hr1 hok1 hf
  have hfound : Finds (withRecord k m p) root s e content := h.keeps hf.keeps ⟨rfl, rfl, rfl⟩ rfl
  obtain ⟨kd, hload, hfoundd, hrd, hokd⟩ := elfLoad_found (n := n + 2) hfound hpass (hr1.mono (by omega)) (by omega)
  have hdata : processLoadData (withRecord k m p) (cstr s) p =
      some (kd.setProc p fun q =>
        { q with filetype := processFiletypeElf, ptr := (elfRecord (withRecord k m p)).2 }, 0) := by
    unfold processLoadData processLoadElf
    rw [hload]
    rfl
  obtain ⟨name, hname⟩ := strncpy_some hs maxPath
  obtain ⟨k1, stack, hprep, hmade⟩ :=
    prepared_of_loaded (n := n + 1) hm hf.ne_zero hdata (lt_irrefl 0) hname ⟨hrd.bumped, hrd.room⟩ slot
  obtain ⟨hstack, hat⟩ := hmade.stackAt
  have hok : k1.heap.failures = k.heap.failures := (hmade.failures.trans hokd).trans hok1
  have helf : (k1.procs p).elf_file = elfFileOf k := by
    obtain ⟨_, _, hrecord⟩ := hmade.record
    rw [hrecord, Kernel.setProc_self, elfFileOf, hm]
    rfl
  obtain ⟨n0, hready⟩ := prepared_ready hs hprep hok helf
  obtain ⟨e', -, hnames, hcontent⟩ := hready.content h.mounted.sector h.mounted.clusters
  obtain rfl := h.names_unique (hnames root h.mounted.root)
  obtain ⟨rfl, hbytes⟩ := hcontent content h.holds
  have hfound1 : Finds k1 root s e' content := (hfoundd.setProc p _).keeps hmade.fresh.keeps hmade.disk hmade.table
  exact ⟨k1, p, by rw [hm], hprep, hready, hbytes, hstack ▸ hat, helf, hfound1, hmade.spare, hok⟩

/-- The content is an ELF image which, wherever it is read to, has its headers inside and maps segments on pages
of their own. -/
structure Loadable (content : List Byte) : Prop where
  passes : Passes content
  maps : ∀ (mem : Mem) (elf : Addr), elf.toNat % blockSize = 0 →
    elf.toNat + extent blockSize content.length < 2 ^ 32 → readBytes mem elf content.length = content →
    Segments mem elf ∧ HeadersInside mem elf content.length

theorem image_mapped (hready : Ready s k k1 p n) (hok : TaskGranted k1 p) (hseg : Segments k1.mem (imageOf k1 p))
    (hinside : HeadersInside k1.mem (imageOf k1 p) n) :
    ∃ k2, processMapMemory (withTask k1 p) p = some (k2, 0) ∧ Segments k2.mem (imageOf k2 p) ∧
      HeadersInside k2.mem (imageOf k2 p) n := by
  obtain ⟨m, t, r, d, hmade⟩ := taskNew_made hok
  obtain ⟨htoKmem, -, -, hdir⟩ := taskMade_withTask hmade
  obtain ⟨himage, htype⟩ := withTask_image hready hmade
  have hn := hmade.task.new
  generalize withTask k1 p = kt at htoKmem hdir himage htype
  subst htoKmem
  have hlive := hn.keeps.live _ hready.image
  have hnot : imageOf k1 p ∉ d.blocks := fun hb => hn.fresh _ hb ⟨_, hready.image⟩
  have hsame : SameHeaders k1.mem kt.mem (imageOf k1 p) := by
    refine HeadersInside.same hinside ?_ (k1.heap.placed _ hready.image) (hn.keeps.bytes _ hready.image)
    exact ePhoff_ne_zero (not_lt.mpr hready.valid.ge)
  have hsegt := Segments.agree hseg hsame
  have hinsidet := HeadersInside.agree hinside hsame
  have hvalid : elfValidateLoaded kt.mem (imageOf k1 p) = 0 := by
    rw [← hready.valid]
    refine elfValidateLoaded_congr fun i hi => hn.keeps.page ⟨_, hready.image⟩ _ ?_
    unfold Within blockSize
    rw [BitVec.add_comm, BitVec.add_sub_cancel, BitVec.toNat_ofNat]
    omega
  have h0 : ePhoff kt.mem (imageOf k1 p) ≠ 0 := ePhoff_ne_zero (not_lt.mpr hvalid.ge)
  have hself : HasElf k1.toKmem kt p (imageOf k1 p) n :=
    ⟨htype, himage, hvalid, hready.image, fun b hb hfresh i hi =>
      headers_inside hn.keeps hready.image h0 hinsidet.table hb hfresh hi⟩
  obtain ⟨mem, hmap, hr⟩ := processMapMemory_remap hdir hn hself hsegt
  have hsame2 : SameHeaders kt.mem mem (imageOf k1 p) :=
    HeadersInside.same hinsidet h0 (kt.heap.placed _ hlive) (hr.agree (tables_apart_image hn.inMem hlive hnot))
  refine ⟨_, hmap, ?_, ?_⟩
  · show Segments mem (imageOf kt p)
    rw [himage]
    exact Segments.agree hsegt hsame2
  · show HeadersInside mem (imageOf kt p) n
    rw [himage]
    exact HeadersInside.agree hinsidet hsame2

theorem disk_taskNew (k : Kernel) (p : Addr) :
    SameDisk k (taskNew k p).1 ∧ (taskNew k p).1.file_descriptors = k.file_descriptors := by
  obtain ⟨_, _, _, _, _, h⟩ := onlyTasks_taskNew k p
  rw [h]
  exact ⟨⟨rfl, rfl, rfl⟩, rfl⟩

theorem disk_withTask (k : Kernel) (p : Addr) :
    SameDisk k (withTask k p) ∧ (withTask k p).file_descriptors = k.file_descriptors := by
  obtain ⟨_, _, _, _, _, h⟩ := onlyTasks_taskNew k p
  unfold withTask
  rw [h]
  exact ⟨⟨rfl, rfl, rfl⟩, rfl⟩

def loadRequests : Nat := openRequests + 4 + 1027

/-- With the file on the volume, an entry of the table free and room on the heap, the load succeeds, and the
volume is left as it was. -/
theorem load_found (h : Finds k root s e content) (hload : Loadable content) (hslot : freeProcess k = some slot)
    (hr : Spare k.toKmem (n + loadRequests)) (hn : 2 ^ 17 < n) :
    ∃ k' p, p = (kzalloc k.toKmem sizeofProcess).2 ∧ LoadsImage k s k' p ∧ Segments k'.mem (imageOf k' p) ∧
      (k'.procs p).stack.toNat + userProgramStackSize < 2 ^ 32 ∧ Finds k' root s e content ∧ Spare k'.toKmem n ∧
      k'.processes = Function.update k.processes slot p := by
  obtain ⟨c, hp, -⟩ := h.path
  have hs := hp.noNul
  obtain ⟨k1, p, hprocess, hprep, hready, hbytes, hstack, helf, hfound, hr1, hok1⟩ :=
    prepared_found (n := n + 1027) h hload.passes (hr.mono (by unfold loadRequests; omega)) (by omega) slot
  obtain ⟨hr2, hok2⟩ := taskNew_spare (n := n) hr1 p
  have hbelow := hr1.bumped.below _ hready.image
  have hroom := hr1.room
  have hstride : bumpStride = 2 ^ 14 := by decide
  dsimp only at hbelow
  rw [hstride] at hbelow
  obtain ⟨hseg, hinside⟩ := hload.maps _ _ (Kmem.live_aligned ⟨_, hready.image⟩) (by omega) hbytes
  obtain ⟨k2, map, hseg2, hinside2⟩ := image_mapped hready hok2 hseg hinside
  obtain ⟨m, t, r, d, hmapped⟩ := mapped_of_map hok2 map
  have hstack2 : (k2.procs p).stack = (k1.procs p).stack := by rw [hmapped.record]
  have hfile2 : (k2.procs p).elf_file = elfFileOf k := by
    rw [← helf, hmapped.record]
    rfl
  obtain ⟨mem, rfl⟩ := processMapMemory_only map
  obtain ⟨hdisk, htable⟩ := disk_withTask k1 p
  refine ⟨_, p, hprocess,
    ⟨hs, ⟨0, processLoad_of_way hs hslot (.loaded hprep map (lt_irrefl 0)), le_rfl⟩, ?_, hfile2, ?_⟩,
    hseg2, hstack2 ▸ hstack.2, ?_, ⟨hr2.bumped, hr2.room⟩, ?_⟩
  · exact hok2.trans hok1
  · intro i hi
    have hb := hmapped.keeps.live _ hready.image
    rw [← hmapped.image] at hb
    have hsize : i = content.length := congrArg Block.size (eq_of_base_eq hi hb rfl)
    exact hsize ▸ hinside2
  · exact hfound.keeps hmapped.keeps hdisk htable
  · show Function.update (withTask k1 p).processes slot p = _
    rw [(withTask_table k1 p).1, hready.frame.processes]

/-! ## A volume of one file -/

theorem spare_volumeOf (content : List Byte) (hn : n + 2 < 2 ^ 18) : Spare (volumeOf content).toKmem n := by
  have h1 := (Spare.kzalloc (n := n + 1) (spare_emptyKmem hn) sizeofFatDirectoryItem (by decide)).1
  have h2 := (Spare.kzalloc (n := n) h1 maxPath (by decide)).1
  exact ⟨h2.bumped, h2.room⟩

theorem rootPath_pathA : RootPath pathA [0x61] :=
  ⟨by unfold NoNul; decide, by decide, 0x30, [0x61], ⟨by decide, by decide⟩, by decide, by decide⟩

theorem finds_volumeOf (h0 : 0 < content.length) (h : content.length < 256)
    (hroot : RootDirectory (volumeOf content) [fileEntry content]) (hname : entryName (fileEntry content) = [0x41])
    (hfile : ¬ IsDirectory (fileEntry content)) :
    Finds (volumeOf content) [fileEntry content] pathA (fileEntry content) content := by
  have hstride : bumpStride = 2 ^ 14 := by decide
  refine ⟨⟨rfl, ?_, rfl, hroot, 0, ?_, by decide⟩, ⟨_, rootPath_pathA, ?_⟩, List.mem_singleton_self _, hfile,
    holdsFile_volumeOf h0 h, by omega⟩
  · show 0 < clusterBytes (oneEntry [])
    decide +kernel
  · exact (freeDescriptor_congr (k := emptyKernel) rfl).trans (by decide +kernel)
  · rw [hname]
    rfl

end MultitaskOs.LoadGranted
