import MultitaskOs.Code.Load
import MultitaskOs.FatLookup
import MultitaskOs.OpenClose

/-!
# Loading the data of a process

What `elf_load` and `process_load_data` do to the kernel, step by step: which
records they write, what stays live, and which requests fail on the way.
-/

open Lib Lib.Memory Lib.Arena MultitaskOs.PathParser MultitaskOs.Files MultitaskOs.OpenClose MultitaskOs.Tasks
  MultitaskOs.FatLookup

namespace MultitaskOs.Loading

variable {k k' k'' : Kernel} {s : List Byte} {fd res : Int}

/-! ## Requests that fail -/

/-- No request is forgotten. -/
def Counts (k k' : Kernel) : Prop := k.heap.failures ≤ k'.heap.failures

theorem Counts.trans (h : Counts k k') (h' : Counts k' k'') : Counts k k'' := le_trans h h'

theorem counts_alloc (k : Kernel) (size : Nat) : Counts k (k.onKmem (kzalloc · size)).1 :=
  kzalloc_failures_le k.toKmem size

theorem counts_freeDirectory (k : Kernel) (a : Addr) : Counts k (fat16FreeDirectory k a) := by
  unfold fat16FreeDirectory
  dsimp only
  split_ifs <;> exact le_rfl

theorem counts_loadItems {directory d : Addr} {cluster total : Int}
    (h : loadItems k directory cluster total = some (k', d)) : Counts k k' := by
  unfold loadItems at h
  dsimp only at h
  generalize hsize : (BitVec.ofInt 32 (toInt32 (total * sizeofFatDirectoryItem))).toNat = size at h
  obtain ⟨⟨m, items⟩, hm⟩ : ∃ r, kzalloc k.toKmem size = r := ⟨_, rfl⟩
  have hle := kzalloc_failures_le k.toKmem size
  rw [hm] at h hle
  have hset : Counts k (withItems k m directory items total) := hle
  dsimp only at h
  split at h
  · cases h
    exact hset.trans (counts_freeDirectory _ _)
  obtain ⟨⟨k5, res⟩, hread, h⟩ := Option.bind_eq_some_iff.mp h
  have hb := toInt32_bounds (total * sizeofFatDirectoryItem)
  have hk5 : Counts k k5 := by
    obtain ⟨m5, fs, rfl, -, -⟩ := readInternalFromStream_only (by omega) hread
    exact hset
  cases h
  dsimp only
  split
  · exact hk5.trans (counts_freeDirectory _ _)
  · exact hk5

theorem counts_loadFatDirectory {item directory : Addr} (h : fat16LoadFatDirectory k item = some (k', directory)) :
    Counts k k' := by
  obtain ⟨⟨m, dir⟩, hm⟩ : ∃ r, kzalloc k.toKmem sizeofFatDirectory = r := ⟨_, rfl⟩
  have hle := kzalloc_failures_le k.toKmem sizeofFatDirectory
  rw [fat16LoadFatDirectory_eq hm] at h
  rw [hm] at hle
  split at h
  · cases h
    exact le_rfl
  split at h
  · cases h
    exact hle
  obtain ⟨⟨k2, total⟩, hscan, h⟩ := Option.bind_eq_some_iff.mp h
  obtain ⟨p, rfl⟩ := fat16GetTotalItems_only hscan
  exact le_trans hle (counts_loadItems h)

theorem finishItem_heap (k : Kernel) (f_item item : Addr) :
    (finishItem k f_item item).heap = (kzalloc k.toKmem sizeofFatDirectoryItem).1.heap := by
  unfold finishItem fat16CloneDirectoryItem
  rw [if_neg (by decide)]
  dsimp only
  split_ifs <;> rfl

theorem finishItem_failures (k : Kernel) (f_item item : Addr) :
    (finishItem k f_item item).heap.failures = (kzalloc k.toKmem sizeofFatDirectoryItem).1.heap.failures :=
  congrArg Arena.failures (finishItem_heap k f_item item)

theorem counts_finishItem (k : Kernel) (f_item item : Addr) : Counts k (finishItem k f_item item) :=
  (kzalloc_failures_le k.toKmem sizeofFatDirectoryItem).trans (finishItem_failures k f_item item).ge

theorem counts_newFatItem {item f_item : Addr} (h : fat16NewFatItemForDirectoryItem k item = some (k', f_item)) :
    Counts k k' := by
  unfold fat16NewFatItemForDirectoryItem at h
  have h1 := counts_alloc k sizeofFatItem
  generalize k.onKmem (kzalloc · sizeofFatItem) = r1 at h h1
  dsimp only at h
  split at h
  · cases h
    exact h1
  split at h
  · obtain ⟨⟨k2, d⟩, h2, h⟩ := Option.bind_eq_some_iff.mp h
    have hk2 := h1.trans (counts_loadFatDirectory h2)
    have hk3 := counts_finishItem (k2.setItem r1.2 fun _ => ⟨d, fatItemTypeDirectory⟩) r1.2 item
    cases h
    exact hk2.trans hk3
  · have hk3 := counts_finishItem r1.1 r1.2 item
    cases h
    exact h1.trans hk3

theorem counts_findItemLoop {directory : FatDirectory} {name : Addr} {n i : Nat} {f_item r : Addr}
    (h : findItemLoop directory name n i k f_item = some (k', r)) : Counts k k' := by
  induction n generalizing k i f_item with
  | zero =>
    cases h
    exact le_rfl
  | succ n ih =>
    unfold findItemLoop at h
    obtain ⟨tmp, -, h⟩ := Option.bind_eq_some_iff.mp h
    obtain ⟨c, -, h⟩ := Option.bind_eq_some_iff.mp h
    split at h
    · obtain ⟨⟨k1, f1⟩, h1, h⟩ := Option.bind_eq_some_iff.mp h
      exact (counts_newFatItem h1).trans (ih h)
    · exact ih h

theorem counts_fat16Open {path priv : Addr} {mode : FileMode} (h : fat16Open k path mode = some (k', priv)) :
    Counts k k' := by
  unfold fat16Open at h
  split at h
  · cases h
    exact le_rfl
  have h1 := counts_alloc k sizeofFatFileDescriptor
  generalize k.onKmem (kzalloc · sizeofFatFileDescriptor) = r1 at h h1
  dsimp only at h
  split at h
  · cases h
    exact h1
  obtain ⟨⟨k2, item⟩, h2, h⟩ := Option.bind_eq_some_iff.mp h
  rw [getDirectoryEntry_eq (by decide)] at h2
  obtain ⟨⟨k3, r⟩, h3, h2⟩ := Option.map_eq_some_iff.mp h2
  have hk2 := h1.trans (counts_findItemLoop h3)
  cases h2
  dsimp only at h
  generalize (if (r1.1.pathParts path).next = 0 then r else 0) = item at h
  split at h <;> cases h
  · exact hk2
  · exact hk2

theorem counts_fopen {mode_str : CharPtr} (hs : NoNul s) (h : fopen k (cstr s) mode_str = some (k', fd)) :
    Counts k k' := by
  obtain ⟨k1, root, hparse, hp⟩ := pathparserParse_spec hs k
  have hk1 : ∀ {k1' root'}, pathparserParse k (cstr s) = some (k1', root') → Counts k k1' := by
    intro k1' root' h'
    rw [hparse] at h'
    cases h'
    exact hp.failures
  have hdesc : ∀ {k2 k3 : Kernel} {res desc}, fileNewDescriptor k2 = (k3, res, desc) → Counts k2 k3 := by
    intro k2 k3 res desc h3
    unfold fileNewDescriptor at h3
    split at h3
    · cases h3
      exact le_rfl
    · have := counts_alloc k2 sizeofFileDescriptor
      cases h3
      exact this
  cases fopen_way h with
  | refused hparse' => exact hk1 hparse'
  | notOpened hparse' _ h2 => exact (hk1 hparse').trans (counts_fat16Open h2)
  | noDescriptor hparse' _ h2 _ h3 _ => exact ((hk1 hparse').trans (counts_fat16Open h2)).trans (hdesc h3)
  | opened hparse' _ _ _ h2 _ h3 _ _ =>
    have hk3 := ((hk1 hparse').trans (counts_fat16Open h2)).trans (hdesc h3)
    exact hk3

/-! ## The entry behind a file -/

variable {root : List Entry} {c : List Byte} {cs : List (List Byte)} {e : Entry} {item path : Addr}

theorem newItem_copy (he : ∀ k', FatKeeps k k' → readBytes k'.mem item sizeofFatDirectoryItem = e) {f : Addr}
    (h : fat16NewFatItemForDirectoryItem k item = some (k', f)) (h0 : f ≠ 0)
    (hok : k'.heap.failures = k.heap.failures) :
    (k'.fatItems f).item ≠ 0 ∧ readBytes k'.mem (k'.fatItems f).item sizeofFatDirectoryItem = e := by
  have hfinish : ∀ k2, FatKeeps k k2 → Counts k k2 → k' = finishItem k2 f item → (k'.fatItems f).item ≠ 0 ∧
      readBytes k'.mem (k'.fatItems f).item sizeofFatDirectoryItem = e := by
    intro k2 hk2 hc2 hk'
    have hf := finishItem_failures k2 f item
    have hle := kzalloc_failures_le k2.toKmem sizeofFatDirectoryItem
    have hcopy := (kzalloc_ok (k := k2.toKmem) sizeofFatDirectoryItem (by
      rw [hk'] at hok
      unfold Counts at hc2
      omega)).ne_zero
    obtain ⟨hitem, hbytes⟩ := finishItem_copy (f := f) (he _ (hk2.alloc sizeofFatDirectoryItem)) hcopy
    rw [hk']
    exact ⟨hitem ▸ hcopy, hbytes⟩
  unfold fat16NewFatItemForDirectoryItem at h
  obtain ⟨⟨m1, fi⟩, h1⟩ : ∃ r, kzalloc k.toKmem sizeofFatItem = r := ⟨_, rfl⟩
  have hk1 := (FatKeeps.refl k).alloc sizeofFatItem
  have hc1 := counts_alloc k sizeofFatItem
  rw [Kernel.onKmem_eq h1] at h hk1 hc1
  dsimp only at h
  split at h
  · cases h
    exact absurd rfl h0
  have hf := fresh_of_eq h1 (by assumption)
  split at h
  · obtain ⟨⟨k2, d⟩, h2, h⟩ := Option.bind_eq_some_iff.mp h
    have hset := (hk1.trans (fat16LoadFatDirectory_keeps h2)).setItem hf.not_live fun _ => ⟨d, fatItemTypeDirectory⟩
    have hcount := hc1.trans (counts_loadFatDirectory h2)
    cases h
    exact hfinish _ hset hcount rfl
  · cases h
    exact hfinish _ hk1 hc1 rfl

theorem fat16Open_entry (hroot : RootDirectory k root) (hc : NoNul c) (hparts : Parts k path (c :: cs))
    (hlive : k.heap.Live (k.pathParts path).part) {priv : Addr} (h : fat16Open k path .read = some (k', priv))
    (herr : ISERR priv = false) (hok : k'.heap.failures = k.heap.failures) :
    cs = [] ∧ ∃ e ∈ root, SameName (entryName e) c ∧ (k'.fatItems (k'.fatDescs priv).item).item ≠ 0 ∧
      readBytes k'.mem (k'.fatItems (k'.fatDescs priv).item).item sizeofFatDirectoryItem = e := by
  unfold fat16Open at h
  rw [if_neg (not_not.mpr rfl)] at h
  obtain ⟨⟨m1, d⟩, h1⟩ : ∃ r, kzalloc k.toKmem sizeofFatFileDescriptor = r := ⟨_, rfl⟩
  have hk1 := (FatKeeps.refl k).alloc sizeofFatFileDescriptor
  have hc1 := counts_alloc k sizeofFatFileDescriptor
  rw [Kernel.onKmem_eq h1] at h hk1 hc1
  dsimp only at h
  split at h
  · cases h
    exact absurd herr (by decide)
  obtain ⟨⟨k2, item⟩, h2, h⟩ := Option.bind_eq_some_iff.mp h
  dsimp only at h
  split at h
  · cases h
    exact absurd herr (by decide)
  rename_i hitem
  cases h
  have hfail : k2.heap.failures = k.heap.failures := hok
  rw [getDirectoryEntry_eq (by decide)] at h2
  obtain ⟨⟨k3, r⟩, h3, h2⟩ := Option.map_eq_some_iff.mp h2
  have hroot1 := hroot.keeps hk1
  have htext1 := Text.keeps hparts.2.1 hk1.keeps hlive
  have hlive1 := hk1.keeps.isLive hlive
  have hnext : (k.pathParts path).next = 0 ∧ k2 = k3 ∧ item = r := by
    rw [Prod.mk.injEq] at h2
    obtain ⟨hk, hr⟩ := h2
    by_cases hn : (k.pathParts path).next = 0
    · exact ⟨hn, hk.symm, by rw [← hr]; exact if_pos hn⟩
    · exact absurd (by rw [← hr]; exact if_neg hn) hitem
  obtain ⟨hn, rfl, rfl⟩ := hnext
  have hcs : cs = [] := by
    cases cs with
    | nil => rfl
    | cons c' cs => exact absurd hn hparts.2.2.1
  refine ⟨hcs, ?_⟩
  have hex : ∃ e ∈ root, SameName (entryName e) c := by
    by_contra hno
    push Not at hno
    have hnone := findItem_none hroot1 hc htext1 hno
    have h3' : some _ = some (k2, item) := hnone.symm.trans h3
    cases h3'
    exact hitem rfl
  obtain ⟨e, he, hname⟩ := hex
  obtain ⟨a, hbytes, hfind⟩ := findItem_found hroot1 hc hlive1 htext1 he hname
  have hnew : fat16NewFatItemForDirectoryItem _ a = some (k2, item) := hfind.symm.trans h3
  have hcount := counts_newFatItem hnew
  obtain ⟨hcopy, hread⟩ := newItem_copy hbytes hnew hitem (by
    unfold Counts at hcount hc1
    dsimp only at hcount hc1 ⊢
    omega)
  refine ⟨e, he, hname, ?_, ?_⟩
  all_goals
    dsimp only
    rw [Function.update_self]
  · exact hcopy
  · exact hread

/-! ## A file that was opened -/

/-- The file `priv` is given the record `desc`, in entry `i` of the table. -/
structure Recorded (k k' : Kernel) (priv : Addr) (i : Nat) (desc : Addr) : Prop where
  slot : freeDescriptor k = some i
  kmem : kzalloc k.toKmem sizeofFileDescriptor = (k'.toKmem, desc)
  record : k'.fileDescs desc = ⟨i + 1, priv⟩
  table : k'.file_descriptors = Function.update k.file_descriptors i desc
  items : k'.fatItems = k.fatItems
  descs : k'.fatDescs = k.fatDescs

theorem fileNewDescriptor_eq {desc : Addr} (h : fileNewDescriptor k = (k', res, desc)) (hres : ¬ res < 0) :
    ∃ i m, freeDescriptor k = some i ∧ kzalloc k.toKmem sizeofFileDescriptor = (m, desc) ∧ k' = { k with
      toKmem := m
      fileDescs := Function.update k.fileDescs desc ⟨i + 1, 0⟩
      file_descriptors := Function.update k.file_descriptors i desc } := by
  unfold fileNewDescriptor at h
  split at h
  · cases h
    exact absurd (show -ENOMEM < 0 by decide) hres
  · rename_i i hslot
    obtain ⟨⟨m, a⟩, hm⟩ : ∃ r, kzalloc k.toKmem sizeofFileDescriptor = r := ⟨_, rfl⟩
    rw [Kernel.onKmem_eq hm] at h
    cases h
    exact ⟨i, m, hslot, hm, rfl⟩

theorem fopen_opened (h : fopen k (cstr s) modeR = some (k', fd)) (hpos : 0 < fd) :
    ∃ k1 root k2 priv i desc, pathparserParse k (cstr s) = some (k1, root) ∧ root ≠ 0 ∧
      (k1.pathRoots root).first ≠ 0 ∧ fat16Open k1 (k1.pathRoots root).first .read = some (k2, priv) ∧
      ISERR priv = false ∧ fd = (i : Nat) + 1 ∧ Recorded k2 k' priv i desc := by
  cases fopen_way h with
  | refused _ => exact absurd hpos (lt_irrefl 0)
  | notOpened _ _ _ => exact absurd hpos (lt_irrefl 0)
  | noDescriptor _ _ _ _ _ _ => exact absurd hpos (lt_irrefl 0)
  | @opened k1 k2 k3 root priv desc mode res index hparse h0 hfirst hmode h2 herr h3 hres hindex =>
    obtain rfl : mode = .read := by
      have : fileGetModeByString modeR = some .read := by decide
      rw [hmode] at this
      exact Option.some.inj this
    obtain ⟨i, m3, hslot, hm3, rfl⟩ := fileNewDescriptor_eq h3 hres
    dsimp only at hindex
    rw [Function.update_self] at hindex
    have hself : Function.update (Function.update k2.fileDescs desc ⟨i + 1, 0⟩) desc
        { Function.update k2.fileDescs desc ⟨i + 1, 0⟩ desc with priv } desc = ⟨i + 1, priv⟩ := by simp
    refine ⟨k1, root, k2, priv, i, desc, hparse, h0, hfirst, h2, herr, ?_, ⟨hslot, hm3, hself, rfl, rfl, rfl⟩⟩
    rw [← hindex, if_neg (by dsimp only; omega)]

theorem fat16Open_pos {priv : Addr} {mode : FileMode} (h : fat16Open k path mode = some (k', priv))
    (herr : ISERR priv = false) : (k'.fatDescs priv).pos = 0 := by
  unfold fat16Open at h
  split at h
  · cases h
    exact absurd herr (by decide)
  generalize k.onKmem (kzalloc · sizeofFatFileDescriptor) = r1 at h
  dsimp only at h
  split at h
  · cases h
    exact absurd herr (by decide)
  obtain ⟨⟨k2, item⟩, -, h⟩ := Option.bind_eq_some_iff.mp h
  dsimp only at h
  split at h
  · cases h
    exact absurd herr (by decide)
  · cases h
    dsimp only
    rw [Function.update_self]

/-- The first component of a path names the entry `e` of the root. -/
def Names (s : List Byte) (root : List Entry) (e : Entry) : Prop :=
  ∃ d rest, Drive s d rest ∧ e ∈ root ∧ SameName (entryName e) (firstPart rest)

/-- A file that was opened for reading: it stands at its start, and if no request failed it leads to
a copy of the entry that the path names. -/
structure OpenFile (s : List Byte) (k k' : Kernel) (fd : Int) (desc : Addr) : Prop where
  get : fileGetDescriptor k' fd = desc
  type : (k'.fatItems (itemOf k' desc)).type = fatItemTypeFile
  start : (k'.fatDescs (k'.fileDescs desc).priv).pos = 0
  copy : copyOf k' desc = 0 ∨ k'.heap.Live (copyOf k' desc)
  entry : k'.heap.failures = k.heap.failures → ∀ root, RootDirectory k root →
    ∃ e, Names s root e ∧ copyOf k' desc ≠ 0 ∧ readBytes k'.mem (copyOf k' desc) sizeofFatDirectoryItem = e

theorem Names.of_components {d : Byte} {rest : List Byte} (hd : Drive s d rest) (hcs : components rest = c :: cs)
    (he : e ∈ root) (hname : SameName (entryName e) c) : Names s root e := by
  rw [components_eq] at hcs
  split at hcs
  · cases hcs
  · cases hcs
    exact ⟨d, rest, hd, he, hname⟩

theorem rootDirectory_keeps (h : FileKeeps k k') (hroot : RootDirectory k root) : RootDirectory k' root := by
  obtain ⟨_, _, _, _, _, _, _, _, _, rfl, hv⟩ := h.only
  exact hroot.of_keeps h.keeps hv.2

theorem fopen_openFile (hs : NoNul s) (h : fopen k (cstr s) modeR = some (k', fd)) (hpos : 0 < fd)
    (h0 : fileGetDescriptor k' fd ≠ 0) : OpenFile s k k' fd (fileGetDescriptor k' fd) := by
  obtain ⟨k1, root, k2, priv, i, desc, hparse, hroot0, hfirst, hopen, herr, rfl, hrec⟩ := fopen_opened h hpos
  obtain ⟨k1', root', hparse', hp⟩ := pathparserParse_spec hs k
  rw [hparse] at hparse'
  cases hparse'
  have hitem := ((fat16Open_keeps hopen).2 herr).item
  have hcount2 := counts_fat16Open hopen
  have hkeep3 := kzalloc_keeps k2.toKmem sizeofFileDescriptor
  have hcount3 := kzalloc_failures_le k2.toKmem sizeofFileDescriptor
  rw [hrec.kmem] at hkeep3 hcount3
  dsimp only at hkeep3 hcount3
  have hd := fileGetDescriptor_new hrec.table h0
  rw [hd]
  have hitemOf : itemOf k' desc = (k2.fatDescs priv).item := by
    unfold itemOf
    rw [hrec.record, hrec.descs]
  have hcopyOf : copyOf k' desc = (k2.fatItems (k2.fatDescs priv).item).item := by
    unfold copyOf
    rw [hitemOf, hrec.items]
  refine ⟨hd, ?_, ?_, ?_, ?_⟩
  · rw [hitemOf, hrec.items, hitem.type]
  · rw [hrec.record, hrec.descs]
    exact fat16Open_pos hopen herr
  · rw [hcopyOf]
    exact hitem.copy.imp_right fun hc => hkeep3.isLive hc.1
  · intro hok es hes
    have hfail1 := hp.failures
    unfold Counts at hcount2
    obtain ⟨d, rest, hd, hlen⟩ : ∃ d rest, Drive s d rest ∧ s.length ≤ maxPath := by
      by_cases hacc : Accepts s
      · obtain ⟨hlen, d, rest, hd⟩ := hacc
        exact ⟨d, rest, hd, hlen⟩
      · exact absurd (hp.rejected hacc).1 hroot0
    have hok1 : k1.heap.failures = k.heap.failures := by omega
    obtain ⟨-, -, hparts⟩ := hp.ok hok1 d rest hlen hd
    have hlive1 := firstPart_live hs hparse hroot0 hok1 hfirst
    obtain ⟨hrest, -⟩ := Accepts.rest hlen hd hs
    obtain ⟨c, cs, hcs⟩ : ∃ c cs, components rest = c :: cs := by
      cases hc : components rest with
      | nil =>
        rw [hc] at hparts
        exact absurd hparts hfirst
      | cons c cs => exact ⟨c, cs, rfl⟩
    rw [hcs] at hparts
    have hc : NoNul c := by
      rw [components_eq] at hcs
      split at hcs
      · cases hcs
      · cases hcs
        exact fun x hx => hrest x ((List.takeWhile_sublist _).subset hx)
    have hes1 := rootDirectory_keeps (Parsed.fileKeeps hp) hes
    obtain ⟨-, e, he, hname, hcopy, hbytes⟩ := fat16Open_entry hes1 hc hparts hlive1 hopen herr (by omega)
    rw [hcopyOf]
    refine ⟨e, Names.of_components hd hcs he hname, hcopy, ?_⟩
    have hlive := (hitem.copy.resolve_left hcopy).1
    rw [← hbytes]
    exact readBytes_agree ((hkeep3.page hlive).sub (by rw [BitVec.sub_self]; decide)) (by decide)

/-! ## What loading keeps -/

/-- Only memory, heap and the records of paths, files and images differ. -/
def OnlyLoad (k k' : Kernel) : Prop :=
  ∃ m pr pp fd i d f fs t e, k' = { k with
      toKmem := m, pathRoots := pr, pathParts := pp, fileDescs := fd, fatItems := i, fatDirs := d
      fatDescs := f, fs_private := fs, file_descriptors := t, elfFiles := e } ∧ SameVolume k.fs_private fs

/-- What was live stays live. Its bytes stay too unless a request is refused: an image is read to
NULL when there is no memory for it. -/
structure LoadKeeps (k k' : Kernel) : Prop where
  only : OnlyLoad k k'
  live : ∀ b ∈ k.heap.live, b ∈ k'.heap.live
  count : Counts k k'
  bytes : k'.heap.failures = k.heap.failures → ∀ b ∈ k.heap.live, Agree k.mem k'.mem b.base (extent blockSize b.size)

theorem LoadKeeps.refl (k : Kernel) : LoadKeeps k k :=
  ⟨⟨_, _, _, _, _, _, _, _, _, _, rfl, rfl, rfl⟩, fun _ hb => hb, le_rfl, fun _ _ _ => Agree.refl _ _ _⟩

theorem LoadKeeps.trans (h : LoadKeeps k k') (h' : LoadKeeps k' k'') : LoadKeeps k k'' where
  only := by
    obtain ⟨_, _, _, _, _, _, _, _, _, _, rfl, hv⟩ := h.only
    obtain ⟨_, _, _, _, _, _, _, _, _, _, rfl, hv'⟩ := h'.only
    exact ⟨_, _, _, _, _, _, _, _, _, _, rfl, hv'.1.trans hv.1, hv'.2.trans hv.2⟩
  live b hb := h'.live b (h.live b hb)
  count := h.count.trans h'.count
  bytes hok b hb := by
    have h1 : k.heap.failures ≤ k'.heap.failures := h.count
    have h2 : k'.heap.failures ≤ k''.heap.failures := h'.count
    exact (h.bytes (by omega) b hb).trans (h'.bytes (by omega) b (h.live b hb))

theorem LoadKeeps.keeps (h : LoadKeeps k k') (hok : k'.heap.failures = k.heap.failures) :
    k.toKmem.Keeps k'.toKmem := ⟨h.live, h.bytes hok⟩

theorem LoadKeeps.isLive (h : LoadKeeps k k') {a : Addr} (ha : k.heap.Live a) : k'.heap.Live a :=
  ⟨_, h.live _ ha.choose_spec⟩

theorem LoadKeeps.procs (h : LoadKeeps k k') : k'.procs = k.procs := by
  obtain ⟨_, _, _, _, _, _, _, _, _, _, rfl, -⟩ := h.only
  rfl

theorem loadKeeps_alloc (k : Kernel) (size : Nat) : LoadKeeps k (k.onKmem (kzalloc · size)).1 :=
  ⟨⟨_, _, _, _, _, _, _, _, _, _, rfl, rfl, rfl⟩, (kzalloc_keeps k.toKmem size).live, counts_alloc k size,
    fun _ => (kzalloc_keeps k.toKmem size).bytes⟩

theorem loadKeeps_setElf (k : Kernel) (file : Addr) (f : ElfFile → ElfFile) : LoadKeeps k (k.setElf file f) :=
  ⟨⟨_, _, _, _, _, _, _, _, _, _, rfl, rfl, rfl⟩, fun _ hb => hb, le_rfl, fun _ _ _ => Agree.refl _ _ _⟩

theorem loadKeeps_fopen (hs : NoNul s) {mode_str : CharPtr} (h : fopen k (cstr s) mode_str = some (k', fd)) :
    LoadKeeps k k' := by
  have hk := (fopen_spec hs h).1
  obtain ⟨_, _, _, _, _, _, _, _, _, rfl, hv⟩ := hk.only
  exact ⟨⟨_, _, _, _, _, _, _, _, _, _, rfl, hv⟩, hk.keeps.live, counts_fopen hs h, fun _ => hk.keeps.bytes⟩

theorem toNat_toInt_le (x : BitVec 32) : x.toInt.toNat ≤ x.toNat := by
  rw [BitVec.toInt_eq_toNat_cond]
  split <;> omega

theorem loadKeeps_read {m : Kmem} {a : Addr} {size : BitVec 32} {e : Addr → ElfFile}
    (h : kzalloc k.toKmem size.toNat = (m, a))
    (hbuf : OnlyBuffer { k with toKmem := m, elfFiles := e } k' a size.toInt.toNat) : LoadKeeps k k' := by
  obtain ⟨mem, fs, rfl, hv, hout⟩ := hbuf
  have hkeeps := kzalloc_keeps k.toKmem size.toNat
  have hcount := kzalloc_failures_le k.toKmem size.toNat
  rw [h] at hkeeps hcount
  refine ⟨⟨_, _, _, _, _, _, _, _, _, _, rfl, hv⟩, hkeeps.live, hcount, fun hok => ?_⟩
  have hf := kzalloc_ok (k := k.toKmem) size.toNat (by rw [h]; exact hok)
  rw [h] at hf
  refine (hkeeps.store (b := ⟨a, size.toNat⟩) hf.mem_live hf.not_live fun x hx => hout x fun hw => hx ?_).bytes
  have hle := size_le_extent (g := blockSize) size.toNat
  have hsize := toNat_toInt_le size
  unfold Within at *
  dsimp only
  omega

/-! ## Closing what was opened -/

/-- The blocks that `fclose` gives back for `fd` were not live in `k`. -/
def OpenedSince (k k' : Kernel) (fd : Int) : Prop :=
  fileGetDescriptor k' fd ≠ 0 → (k'.fatItems (itemOf k' (fileGetDescriptor k' fd))).type = fatItemTypeFile ∧
    ∀ a ∈ fileBlocks k' (fileGetDescriptor k' fd), ¬ k.heap.Live a

theorem openedSince_fopen (hs : NoNul s) {mode_str : CharPtr} (h : fopen k (cstr s) mode_str = some (k', fd)) :
    OpenedSince k k' fd := by
  intro h0
  obtain ⟨-, ⟨rfl, -⟩ | ⟨i, desc, rfl, hd, -⟩⟩ := fopen_spec hs h
  · exact absurd (if_pos (Or.inl le_rfl)) h0
  · rw [fileGetDescriptor_new hd.table h0]
    exact ⟨hd.file.item.type, fun a ha hl => NewDescriptor.blocks_fresh hd hl ha⟩

theorem OpenedSince.of_same (h : OpenedSince k k' fd) (h1 : k''.file_descriptors = k'.file_descriptors)
    (h2 : k''.fileDescs = k'.fileDescs) (h3 : k''.fatDescs = k'.fatDescs) (h4 : k''.fatItems = k'.fatItems) :
    OpenedSince k k'' fd := by
  unfold OpenedSince itemOf fileBlocks fileGetDescriptor at *
  rw [h1, h2, h3, h4]
  exact h

theorem fatItemFree_only (k : Kernel) (a : Addr) : ∃ h, fat16FatItemFree k a = { k with heap := h } ∧
    h.failures = k.heap.failures := by
  unfold fat16FatItemFree fat16FreeDirectory
  dsimp only
  split_ifs <;> exact ⟨_, rfl, rfl⟩

theorem fclose_only (k : Kernel) (fd : Int) :
    ∃ h t, (fclose k fd).1 = { k with heap := h, file_descriptors := t } ∧ h.failures = k.heap.failures := by
  unfold fclose fat16Close fat16FreeFileDescriptor
  obtain ⟨h, heq, hf⟩ := fatItemFree_only k (k.fatDescs (k.fileDescs (fileGetDescriptor k fd)).priv).item
  dsimp only
  rw [heq, if_pos rfl]
  split_ifs
  · exact ⟨k.heap, _, rfl, rfl⟩
  · exact ⟨_, _, rfl, hf⟩

theorem LoadKeeps.fclose (h : LoadKeeps k k') (hopened : OpenedSince k k' fd) : LoadKeeps k (fclose k' fd).1 := by
  have hlive : ∀ b ∈ k.heap.live, b ∈ (MultitaskOs.fclose k' fd).1.heap.live := by
    intro b hb
    by_cases h0 : fileGetDescriptor k' fd = 0
    · rw [fclose_refused h0]
      exact h.live b hb
    · obtain ⟨htype, hfresh⟩ := hopened h0
      obtain ⟨m, heq, hm⟩ := fclose_eq rfl h0 htype
      rw [heq]
      exact (hm b).mpr ⟨h.live b hb, fun ha => hfresh _ ha ⟨b.size, hb⟩⟩
  obtain ⟨h', t, heq, hf⟩ := fclose_only k' fd
  have hbytes := h.bytes
  obtain ⟨_, _, _, _, _, _, _, _, _, _, rfl, hv⟩ := h.only
  refine ⟨⟨_, _, _, _, _, _, _, _, _, _, heq, hv⟩, hlive, ?_, ?_⟩
  · rw [heq]
    exact h.count.trans hf.ge
  · rw [heq]
    exact fun hok => hbytes (hf.symm.trans hok)

structure SameFiles (k k' : Kernel) : Prop where
  table : k'.file_descriptors = k.file_descriptors
  files : k'.fileDescs = k.fileDescs
  descs : k'.fatDescs = k.fatDescs
  items : k'.fatItems = k.fatItems

theorem SameFiles.get (h : SameFiles k k') (fd : Int) : fileGetDescriptor k' fd = fileGetDescriptor k fd := by
  unfold fileGetDescriptor
  rw [h.table]

theorem SameFiles.blocks (h : SameFiles k k') (desc : Addr) : fileBlocks k' desc = fileBlocks k desc := by
  unfold fileBlocks
  rw [h.files, h.descs, h.items]

theorem NewDescriptor.blocks_live {i : Nat} {desc : Addr} (h : NewDescriptor k k' i desc) {a : Addr}
    (ha : a ∈ fileBlocks k' desc) : a = 0 ∨ k'.heap.Live a := by
  simp only [fileBlocks, List.mem_cons, List.not_mem_nil, or_false] at ha
  rcases ha with rfl | rfl | rfl | rfl
  · exact h.block.imp_right And.left
  · exact Or.inr h.file.live
  · exact Or.inr h.file.item.live
  · exact h.file.item.copy.imp_right And.left

theorem closed_read {k1 k2 k4 : Kernel} (hs : NoNul s) (hopen : fopen k1 (cstr s) modeR = some (k2, fd))
    (h0 : fileGetDescriptor k2 fd ≠ 0) (hsame : SameFiles k2 k4) :
    (fclose k4 fd).1.file_descriptors = k1.file_descriptors ∧
      ∀ b, b ∈ (fclose k4 fd).1.heap.live ↔
        b ∈ k4.heap.live ∧ b.base ∉ fileBlocks k2 (fileGetDescriptor k2 fd) := by
  have htype := (openedSince_fopen hs hopen h0).1
  obtain ⟨-, ⟨rfl, -⟩ | ⟨i, desc, rfl, hd, -⟩⟩ := fopen_spec hs hopen
  · exact absurd (if_pos (Or.inl le_rfl)) h0
  have hget := fileGetDescriptor_new hd.table h0
  rw [hget] at h0 htype ⊢
  obtain ⟨m, heq, hlive⟩ := fclose_eq ((hsame.get _).trans hget) h0 (by
    rw [hsame.items, hsame.descs, hsame.files]
    exact htype)
  rw [heq]
  refine ⟨?_, fun b => by rw [← hsame.blocks]; exact hlive b⟩
  dsimp only
  rw [hsame.files, hsame.table, hd.index, hd.table, show ((i : Int) + 1 - 1).toNat = i by omega,
    Function.update_idem, ← (freeDescriptor_some hd.slot).2, Function.update_eq_self]

/-! ## Reading the file -/

theorem clusterLoop_status (n : Nat) (k : Kernel) {x : Int} (hx : 0 ≤ x) :
    0 ≤ (clusterLoop n k x).2 ∨ (clusterLoop n k x).2 = - EIO := by
  induction n generalizing k x with
  | zero => exact Or.inl hx
  | succ n ih =>
    have hentry : 0 ≤ (fat16GetFatEntry k x).2 := Int.natCast_nonneg _
    unfold clusterLoop
    dsimp only
    split_ifs
    · exact Or.inr rfl
    · exact Or.inr rfl
    · exact Or.inr rfl
    · exact Or.inr rfl
    · exact ih _ hentry

theorem readInternal_status {n : Nat} {x offset total : Int} {out : Addr} (hx : 0 ≤ x)
    (h : fat16ReadInternalFromStream n k x offset total out = some (k', res)) : res = 0 ∨ res = - EIO := by
  induction n generalizing k offset total out with
  | zero => cases h
  | succ n ih =>
    unfold fat16ReadInternalFromStream at h
    obtain ⟨⟨k1, c1⟩, hc, h⟩ := Option.bind_eq_some_iff.mp h
    have hstatus : 0 ≤ c1 ∨ c1 = - EIO := by
      unfold fat16GetClusterForOffset at hc
      dsimp only at hc
      split at hc
      · cases hc
      · have := clusterLoop_status (offset.tdiv (sizeOfClusterBytes k)).toNat k hx
        rw [Option.some.inj hc] at this
        exact this
    generalize hr : (if total > sizeOfClusterBytes k then sizeOfClusterBytes k else total) = r at h
    dsimp only at h
    split at h
    · rename_i hneg
      cases h
      exact Or.inr (hstatus.resolve_left (not_le.mpr hneg))
    · split at h
      · exact ih h
      · cases h
        exact Or.inl rfl

theorem fread_once {out : Addr} {size : BitVec 32} (hsize : size ≠ 0) (hfd : 0 < fd)
    (h0 : fileGetDescriptor k fd ≠ 0) :
    fread k out size 1 fd = (fat16ReadInternal k (fat16GetFirstCluster k.mem (copyOf k (fileGetDescriptor k fd)))
      (k.fatDescs (k.fileDescs (fileGetDescriptor k fd)).priv).pos.toInt size.toInt out).map fun r =>
        (r.1, if r.2 < 0 then r.2 else 1) := by
  unfold fread fat16Read
  have hone : ¬ (size = 0 ∨ (1 : BitVec 32) = 0 ∨ fd < 1) := by
    rintro (h | h | h)
    · exact hsize h
    · exact absurd h (by decide)
    · omega
  dsimp only
  rw [if_neg hone, if_neg h0]
  have hn : (1 : BitVec 32).toNat = 1 := rfl
  rw [hn]
  unfold fat16ReadLoop fat16ReadLoop
  unfold copyOf itemOf
  cases fat16ReadInternal k (fat16GetFirstCluster k.mem (k.fatItems
    (k.fatDescs (k.fileDescs (fileGetDescriptor k fd)).priv).item).item)
    (k.fatDescs (k.fileDescs (fileGetDescriptor k fd)).priv).pos.toInt size.toInt out with
  | none => rfl
  | some r =>
    simp only [Option.bind_eq_bind, Option.bind_some, Option.map_some]
    by_cases hr : r.2 < 0
    · rw [if_pos hr, if_pos hr]
      simp [hr]
    · rw [if_neg hr, if_neg hr]
      simp

theorem fread_cases {out : Addr} {size : BitVec 32} (h : fread k out size 1 fd = some (k', res)) :
    OnlyBuffer k k' out size.toInt.toNat ∧ (res = 1 ∨ res = -EINVARG ∨ res = - EIO) := by
  have hrefused : (size = 0 ∨ fd ≤ 0 ∨ fileGetDescriptor k fd = 0) → k' = k ∧ res = -EINVARG := by
    intro hbad
    unfold fread at h
    dsimp only at h
    split at h
    · cases h
      exact ⟨rfl, rfl⟩
    · rename_i hgood
      push Not at hgood
      have h0 : fileGetDescriptor k fd = 0 := by
        rcases hbad with h1 | h1 | h1
        · exact absurd h1 hgood.1
        · omega
        · exact h1
      rw [if_pos h0] at h
      cases h
      exact ⟨rfl, rfl⟩
  by_cases hbad : size = 0 ∨ fd ≤ 0 ∨ fileGetDescriptor k fd = 0
  · obtain ⟨rfl, rfl⟩ := hrefused hbad
    exact ⟨⟨k'.mem, k'.fs_private, rfl, ⟨rfl, rfl⟩, fun _ _ => rfl⟩, Or.inr (Or.inl rfl)⟩
  · push Not at hbad
    rw [fread_once hbad.1 hbad.2.1 hbad.2.2] at h
    obtain ⟨⟨k1, r⟩, hr, h⟩ := Option.map_eq_some_iff.mp h
    have hlt := BitVec.toInt_lt (x := size)
    have honly := readInternalFromStream_only (by norm_num at hlt ⊢; omega) hr
    have hstatus := readInternal_status (Int.natCast_nonneg _) hr
    cases h
    refine ⟨honly, ?_⟩
    rcases hstatus with h0 | h0
    · exact Or.inl (if_neg (by rw [h0]; exact lt_irrefl 0))
    · refine Or.inr (Or.inr ?_)
      rw [h0]
      exact if_pos (show - EIO < 0 by decide)

theorem fstat_unread (h : fileGetDescriptor k fd = 0) : (fstat k fd).1 = - EIO := by
  unfold fstat
  dsimp only
  rw [if_pos h]

theorem fstat_status (k : Kernel) (fd : Int) :
    (fstat k fd).1 = 0 ∨ (fstat k fd).1 = -EINVARG ∨ (fstat k fd).1 = - EIO := by
  unfold fstat fat16Stat
  dsimp only
  split_ifs
  · exact Or.inr (Or.inr rfl)
  · exact Or.inr (Or.inl rfl)
  · exact Or.inl rfl
  · exact Or.inl rfl

/-! ## `elf_load` -/

/-- The kernel once the record of an image is made, and the record. -/
def elfRecord (k : Kernel) : Kernel × Addr :=
  let (k, elf_file) := k.onKmem (kzalloc · sizeofElfFile)
  (if elf_file = 0 then k else k.setElf elf_file fun _ => zeroElfFile, elf_file)

theorem elfRecord_eq (k : Kernel) :
    elfRecord k = (if (k.onKmem (kzalloc · sizeofElfFile)).2 = 0 then (k.onKmem (kzalloc · sizeofElfFile)).1
      else (k.onKmem (kzalloc · sizeofElfFile)).1.setElf (k.onKmem (kzalloc · sizeofElfFile)).2 fun _ => zeroElfFile,
      (k.onKmem (kzalloc · sizeofElfFile)).2) := rfl

theorem loadKeeps_elfRecord (k : Kernel) : LoadKeeps k (elfRecord k).1 := by
  have h1 := loadKeeps_alloc k sizeofElfFile
  unfold elfRecord
  dsimp only
  split
  · exact h1
  · exact h1.trans (loadKeeps_setElf _ _ _)

theorem elfRecord_heap (k : Kernel) : (elfRecord k).1.heap = (kzalloc k.toKmem sizeofElfFile).1.heap := by
  unfold elfRecord
  dsimp only
  split <;> rfl

theorem elfRecord_fresh (h : (elfRecord k).2 ≠ 0) :
    Fresh k.toKmem (elfRecord k).1.toKmem (elfRecord k).2 sizeofElfFile := by
  have h2 : (elfRecord k).2 = (k.onKmem (kzalloc · sizeofElfFile)).2 := rfl
  rw [h2] at h ⊢
  unfold elfRecord
  dsimp only
  rw [if_neg h]
  exact kzalloc_fresh h

/-- A file that was opened is read to the block `a`, or to NULL. -/
structure ReadFile (s : List Byte) (k1 k2 k3 k4 : Kernel) (fd : Int) (a : Addr) (size : BitVec 32) : Prop where
  opened : fopen k1 (cstr s) modeR = some (k2, fd)
  pos : 0 < fd
  stat : fstat k2 fd = (0, (fstat k2 fd).2) ∧ (fstat k2 fd).2.filesize = size
  request : kzalloc k2.toKmem size.toNat = (k3.toKmem, a)
  same : ∃ m e, k3 = { k2 with toKmem := m, elfFiles := e }
  read : fread k3 a size 1 fd = some (k4, 1)

theorem OpenedSince.after {k0 k2 k3 k4 : Kernel} {a : Addr} {size : BitVec 32} {r : Int} (h : OpenedSince k0 k2 fd)
    (hsame : ∃ m e, k3 = { k2 with toKmem := m, elfFiles := e }) (hread : fread k3 a size 1 fd = some (k4, r)) :
    OpenedSince k0 k4 fd := by
  obtain ⟨m, e, rfl⟩ := hsame
  obtain ⟨⟨m4, fs, rfl, -, -⟩, -⟩ := fread_cases hread
  exact h.of_same rfl rfl rfl rfl

theorem ReadFile.not_live {k1 k2 k3 k4 : Kernel} {a : Addr} {size : BitVec 32} (hs : NoNul s)
    (h : ReadFile s k1 k2 k3 k4 fd a size) : ¬ k1.heap.Live a := by
  intro ha
  have hnew := kzalloc_not_live k2.toKmem size.toNat
  rw [h.request] at hnew
  exact hnew ((loadKeeps_fopen hs h.opened).isLive ha)

theorem ReadFile.sameFiles {k1 k2 k3 k4 : Kernel} {a : Addr} {size : BitVec 32}
    (h : ReadFile s k1 k2 k3 k4 fd a size) : SameFiles k2 k4 := by
  obtain ⟨m, e, hsame⟩ := h.same
  obtain ⟨⟨m4, fs, heq, -, -⟩, -⟩ := fread_cases h.read
  rw [heq, hsame]
  exact ⟨rfl, rfl, rfl, rfl⟩

theorem ReadFile.get {k1 k2 k3 k4 : Kernel} {a : Addr} {size : BitVec 32} (h : ReadFile s k1 k2 k3 k4 fd a size) :
    fileGetDescriptor k2 fd ≠ 0 := by
  intro h0
  have hstat : (fstat k2 fd).1 = 0 := by rw [h.stat.1]
  rw [fstat_unread h0] at hstat
  exact absurd hstat (by decide)

theorem ReadFile.mem_live {k1 k2 k3 k4 k5 : Kernel} {a : Addr} {size : BitVec 32} (hs : NoNul s)
    (h : ReadFile s k1 k2 k3 k4 fd a size) (ha : a ≠ 0) (hsame : SameFiles k4 k5) (hheap : k5.heap = k4.heap) :
    (⟨a, size.toNat⟩ : Block) ∈ (fclose k5 fd).1.heap.live := by
  have h0 := ReadFile.get h
  have hfresh := fresh_of_eq h.request ha
  have hfiles := ReadFile.sameFiles h
  have hread : SameFiles k2 k5 := ⟨hsame.table.trans hfiles.table, hsame.files.trans hfiles.files,
    hsame.descs.trans hfiles.descs, hsame.items.trans hfiles.items⟩
  have hclosed := (closed_read hs h.opened h0 hread).2
  refine (hclosed _).mpr ⟨?_, ?_⟩
  · obtain ⟨⟨_, _, heq, -, -⟩, -⟩ := fread_cases h.read
    rw [hheap, heq]
    exact hfresh.mem_live
  · -- the blocks of the file were in use before
    obtain ⟨-, ⟨rfl, -⟩ | ⟨i, desc, rfl, hd, -⟩⟩ := fopen_spec hs h.opened
    · exact absurd (if_pos (Or.inl le_rfl)) h0
    · intro hmem
      rw [fileGetDescriptor_new hd.table h0] at hmem
      exact (NewDescriptor.blocks_live hd hmem).elim ha hfresh.not_live

theorem elfProcessLoaded_eq {m : Mem} {f loaded : ElfFile} {r : Int} (h : elfProcessLoaded m f = (loaded, r)) :
    r = elfValidateLoaded m f.elf_memory ∧ (¬ r < 0 → loaded = elfProcessPheaders m f) := by
  unfold elfProcessLoaded at h
  dsimp only at h
  split at h
  · cases h
    exact ⟨rfl, fun hr => absurd ‹_› hr⟩
  · rename_i hneg
    cases h
    exact ⟨(elfValidateLoaded_eq_zero hneg).symm, fun _ => rfl⟩

def withImage (k : Kernel) (m : Kmem) (f a : Addr) : Kernel :=
  ({ k with toKmem := m } : Kernel).setElf f fun x => { x with elf_memory := a }

/-- The ways out of `elf_load` once its record is made, by the step that failed. -/
inductive ElfWay (s : List Byte) (k : Kernel) (f : Addr) : Kernel → Int → Addr → Prop where
  | notOpened {k2 : Kernel} {fd : Int} (opened : fopen k (cstr s) modeR = some (k2, fd)) : ElfWay s k f k2 (- EIO) 0
  | noStat {k2 : Kernel} {fd res : Int} (opened : fopen k (cstr s) modeR = some (k2, fd))
      (stat : res = -EINVARG ∨ res = - EIO) : ElfWay s k f (fclose k2 fd).1 res 0
  | notRead {k2 k4 : Kernel} {fd res : Int} {m : Kmem} {a : Addr} {size : BitVec 32}
      (opened : fopen k (cstr s) modeR = some (k2, fd)) (request : kzalloc k2.toKmem size.toNat = (m, a))
      (unread : fread (withImage k2 m f a) a size 1 fd = some (k4, res)) (failed : res = -EINVARG ∨ res = - EIO) :
      ElfWay s k f (fclose k4 fd).1 res 0
  | read {k2 k3 k4 : Kernel} {fd : Int} {a : Addr} {size : BitVec 32} {loaded : ElfFile} {r : Int}
      (file : ReadFile s k k2 k3 k4 fd a size) (image : k3 = withImage k2 k3.toKmem f a)
      (processed : elfProcessLoaded k4.mem (k4.elfFiles f) = (loaded, r)) :
      ElfWay s k f (fclose (k4.setElf f fun _ => loaded) fd).1 r (if r < 0 then 0 else f)

theorem elfLoad_way {file : Addr} (h : elfLoad k (cstr s) = some (k', res, file)) :
    ElfWay s (elfRecord k).1 (elfRecord k).2 k' res file := by
  unfold elfLoad at h
  rw [elfRecord_eq]
  dsimp only at h ⊢
  generalize (k.onKmem (kzalloc · sizeofElfFile)).2 = f at h ⊢
  generalize (if f = 0 then (k.onKmem (kzalloc · sizeofElfFile)).1
    else (k.onKmem (kzalloc · sizeofElfFile)).1.setElf f fun _ => zeroElfFile) = k1 at h ⊢
  obtain ⟨⟨k2, fd⟩, h2, h⟩ := Option.bind_eq_some_iff.mp h
  dsimp only at h
  split at h
  · have h0 : fileGetDescriptor k2 0 = 0 := if_pos (Or.inl le_rfl)
    rw [fclose_refused h0] at h
    cases h
    exact .notOpened h2
  rename_i hfd
  obtain ⟨⟨res2, stat⟩, h3⟩ : ∃ r, fstat k2 fd = r := ⟨_, rfl⟩
  have hstatus := fstat_status k2 fd
  rw [h3] at h hstatus
  dsimp only at h hstatus
  split at h
  · cases h
    exact .noStat h2 (hstatus.resolve_left (ne_of_lt (by assumption)))
  have hres2 : res2 = 0 := hstatus.resolve_right fun he => ‹¬ res2 < 0› (by rcases he with rfl | rfl <;> decide)
  obtain ⟨⟨m, a⟩, h4⟩ : ∃ r, kzalloc k2.toKmem stat.filesize.toNat = r := ⟨_, rfl⟩
  rw [Kernel.onKmem_eq h4] at h
  dsimp only at h
  obtain ⟨⟨k4, res4⟩, h5, h⟩ := Option.bind_eq_some_iff.mp h
  have hres4 := (fread_cases h5).2
  dsimp only at h
  split at h
  · cases h
    exact .notRead h2 h4 h5 (hres4.resolve_left fun he => absurd (he ▸ ‹_›) (show ¬ (1 : Int) < 0 by decide))
  have hres4 : res4 = 1 := hres4.resolve_right fun he => ‹¬ res4 < 0› (by rcases he with rfl | rfl <;> decide)
  have hfile : ReadFile s k1 k2 (withImage k2 m f a) k4 fd a stat.filesize :=
    ⟨h2, not_le.mp hfd, by rw [h3, hres2]; exact ⟨rfl, rfl⟩, h4, ⟨_, _, rfl⟩, hres4 ▸ h5⟩
  obtain ⟨⟨loaded, r⟩, h6⟩ : ∃ r, elfProcessLoaded k4.mem (k4.elfFiles f) = r := ⟨_, rfl⟩
  rw [h6] at h
  have hway : ElfWay s k1 f _ r (if r < 0 then 0 else f) := .read hfile rfl h6
  dsimp only at h
  split at h <;> cases h
  · rwa [if_pos (by assumption)] at hway
  · rwa [if_neg (by assumption)] at hway

theorem ReadFile.keeps {k1 k2 k3 k4 : Kernel} {a : Addr} {size : BitVec 32} (h : ReadFile s k1 k2 k3 k4 fd a size) :
    LoadKeeps k2 k4 := by
  obtain ⟨m, e, hsame⟩ := h.same
  have hm : k3.toKmem = m := by rw [hsame]
  refine loadKeeps_read (h.request.trans (by rw [hm])) (e := e) ?_
  exact hsame ▸ (fread_cases h.read).1

theorem ReadFile.fopen_keeps {k1 k2 k3 k4 : Kernel} {a : Addr} {size : BitVec 32} (hs : NoNul s)
    (h : ReadFile s k1 k2 k3 k4 fd a size) : LoadKeeps k1 k4 := (loadKeeps_fopen hs h.opened).trans (ReadFile.keeps h)

theorem ElfWay.keeps (hs : NoNul s) {f file : Addr} (h : ElfWay s k f k' res file) : LoadKeeps k k' := by
  cases h with
  | notOpened opened => exact loadKeeps_fopen hs opened
  | noStat opened stat => exact (loadKeeps_fopen hs opened).fclose (openedSince_fopen hs opened)
  | notRead opened request unread failed =>
    have hread := loadKeeps_read request (fread_cases unread).1
    exact ((loadKeeps_fopen hs opened).trans hread).fclose ((openedSince_fopen hs opened).after ⟨_, _, rfl⟩ unread)
  | read file image processed =>
    have hsince := (openedSince_fopen hs file.opened).after file.same file.read
    exact ((ReadFile.fopen_keeps hs file).trans (loadKeeps_setElf _ _ _)).fclose
      (hsince.of_same rfl rfl rfl rfl)

theorem elfFiles_fopen (hs : NoNul s) (h : fopen k (cstr s) modeR = some (k', fd)) : k'.elfFiles = k.elfFiles := by
  obtain ⟨_, _, _, _, _, _, _, _, _, rfl, -⟩ := (fopen_spec hs h).1.only
  rfl

theorem elfFiles_fclose (k : Kernel) (fd : Int) : (fclose k fd).1.elfFiles = k.elfFiles := by
  obtain ⟨_, _, h, -⟩ := fclose_only k fd
  rw [h]

theorem elfFiles_fread {out : Addr} {size : BitVec 32} (h : fread k out size 1 fd = some (k', res)) :
    k'.elfFiles = k.elfFiles := by
  obtain ⟨⟨_, _, rfl, -, -⟩, -⟩ := fread_cases h
  rfl

theorem elfFiles_withImage (k : Kernel) (m : Kmem) (f a : Addr) : (withImage k m f a).elfFiles =
    Function.update k.elfFiles f { k.elfFiles f with elf_memory := a } := rfl

theorem ElfWay.elfFiles (hs : NoNul s) {f g file : Addr} (h : ElfWay s k f k' res file) (hg : g ≠ f) :
    k'.elfFiles g = k.elfFiles g := by
  cases h with
  | notOpened opened => rw [elfFiles_fopen hs opened]
  | noStat opened stat => rw [elfFiles_fclose, elfFiles_fopen hs opened]
  | notRead opened request unread failed =>
    rw [elfFiles_fclose, elfFiles_fread unread, elfFiles_withImage, Function.update_of_ne hg, elfFiles_fopen hs opened]
  | @read _ k3 _ _ _ _ _ _ file image processed =>
    rw [elfFiles_fclose]
    refine (Function.update_of_ne hg _ _).trans ?_
    rw [elfFiles_fread file.read, image, elfFiles_withImage, Function.update_of_ne hg, elfFiles_fopen hs file.opened]

theorem ReadFile.record {k1 k2 k3 k4 : Kernel} {f a : Addr} {size : BitVec 32} (hs : NoNul s)
    (h : ReadFile s k1 k2 k3 k4 fd a size) (himage : k3 = withImage k2 k3.toKmem f a) :
    k4.elfFiles f = { k1.elfFiles f with elf_memory := a } := by
  rw [elfFiles_fread h.read, himage, elfFiles_withImage, Function.update_self, elfFiles_fopen hs h.opened]

theorem elfLoad_cases (hs : NoNul s) {file : Addr} (h : elfLoad k (cstr s) = some (k', res, file)) :
    LoadKeeps (elfRecord k).1 k' ∧ ((res < 0 ∧ res ≠ -EINFORMAT ∧ file = 0) ∨ ∃ k2 k3 k4 fd a size,
      ReadFile s (elfRecord k).1 k2 k3 k4 fd a size ∧ Counts k2 k' ∧ res = elfValidateLoaded k4.mem a ∧
      file = (if res < 0 then 0 else (elfRecord k).2) ∧ k'.mem = k4.mem ∧
      (¬ res < 0 → k'.elfFiles (elfRecord k).2 =
        elfProcessPheaders k4.mem { (elfRecord k).1.elfFiles (elfRecord k).2 with elf_memory := a })) := by
  have hway := elfLoad_way h
  refine ⟨hway.keeps hs, ?_⟩
  cases hway with
  | notOpened opened => exact Or.inl ⟨by decide, by decide, rfl⟩
  | noStat opened stat => exact Or.inl (by rcases stat with rfl | rfl <;> exact ⟨by decide, by decide, rfl⟩)
  | notRead opened request unread failed =>
    exact Or.inl (by rcases failed with rfl | rfl <;> exact ⟨by decide, by decide, rfl⟩)
  | @read k2 k3 k4 fd a size loaded _ file image processed =>
    obtain ⟨hr, hloaded⟩ := elfProcessLoaded_eq processed
    have hrecord := ReadFile.record hs file image
    rw [hrecord] at hr hloaded
    obtain ⟨_, _, heq, hf⟩ := fclose_only (k4.setElf (elfRecord k).2 fun _ => loaded) fd
    refine Or.inr ⟨k2, k3, k4, fd, a, size, file, ?_, hr, rfl, by rw [heq]; rfl, fun hok => ?_⟩
    · rw [Counts, heq]
      exact (ReadFile.keeps file).count.trans hf.ge
    · rw [elfFiles_fclose, ← hloaded hok]
      exact Function.update_self _ _ _

/-! ## `process_load_data` -/

variable {process : Addr}

theorem fclose_setProc (k : Kernel) (process : Addr) (f : Process → Process) (fd : Int) :
    fclose (k.setProc process f) fd = ((fclose k fd).1.setProc process f, (fclose k fd).2) := by
  unfold fclose fat16Close fat16FreeFileDescriptor fat16FatItemFree fat16FreeDirectory
  dsimp only [Kernel.setProc, fileGetDescriptor]
  split_ifs <;> rfl

/-- `k'` has the file at `a`, of `size` bytes, as an image that is not ELF. -/
structure RawRead (s : List Byte) (k k' : Kernel) (a : Addr) (size : BitVec 32) : Prop where
  read : ∃ k2 k3 k4 fd, ReadFile s k k2 k3 k4 fd a size ∧ k'.mem = k4.mem
  granted : a ≠ 0
  live : (⟨a, size.toNat⟩ : Block) ∈ k'.heap.live
  keeps : LoadKeeps k k'
  record : k'.elfFiles a = elfFileAt k'.mem a
  others : ∀ f, f ≠ a → k'.elfFiles f = k.elfFiles f

theorem RawRead.not_live {a : Addr} {size : BitVec 32} (hs : NoNul s) (h : RawRead s k k' a size) :
    ¬ k.heap.Live a := by
  obtain ⟨_, _, _, _, hread, -⟩ := h.read
  exact hread.not_live hs

theorem processLoadBinary_cases (hs : NoNul s) (h : processLoadBinary k (cstr s) process = some (k', res)) :
    (res < 0 ∧ LoadKeeps k k' ∧ k'.elfFiles = k.elfFiles) ∨ (res = 0 ∧ ∃ k1 a size, RawRead s k k1 a size ∧
      k' = k1.setProc process fun p => { p with ptr := a, size }) := by
  unfold processLoadBinary at h
  obtain ⟨⟨k2, fd⟩, h2, h⟩ := Option.bind_eq_some_iff.mp h
  have hk2 := loadKeeps_fopen hs h2
  have hsince := openedSince_fopen hs h2
  have helf2 := elfFiles_fopen hs h2
  dsimp only at h
  split at h
  · cases h
    exact Or.inl ⟨by decide, hk2.fclose hsince, (elfFiles_fclose _ _).trans helf2⟩
  rename_i hfd
  have hpos : 0 < fd := by
    obtain ⟨-, ⟨rfl, -⟩ | ⟨i, -, rfl, -⟩⟩ := fopen_spec hs h2
    · exact absurd rfl hfd
    · omega
  obtain ⟨⟨res2, stat⟩, h3⟩ : ∃ r, fstat k2 fd = r := ⟨_, rfl⟩
  have hstatus := fstat_status k2 fd
  rw [h3] at h hstatus
  dsimp only at h hstatus
  split at h
  · cases h
    refine Or.inl ⟨?_, hk2.fclose hsince, (elfFiles_fclose _ _).trans helf2⟩
    rcases hstatus.resolve_left (by assumption) with rfl | rfl <;> decide
  rename_i hres2
  obtain ⟨⟨m3, a⟩, h4⟩ : ∃ r, kzalloc k2.toKmem stat.filesize.toNat = r := ⟨_, rfl⟩
  have hk3 := loadKeeps_alloc k2 stat.filesize.toNat
  rw [Kernel.onKmem_eq h4] at h hk3
  dsimp only at h hk3
  split at h
  · cases h
    exact Or.inl ⟨show -ENOMEM < 0 by decide, (hk2.trans hk3).fclose (hsince.of_same rfl rfl rfl rfl),
      (elfFiles_fclose _ _).trans helf2⟩
  rename_i ha
  obtain ⟨⟨k4, count⟩, h5, h⟩ := Option.bind_eq_some_iff.mp h
  have hk4 : LoadKeeps k k4 := hk2.trans (loadKeeps_read h4 (fread_cases h5).1)
  have hsince4 : OpenedSince k k4 fd := hsince.after ⟨m3, k2.elfFiles, rfl⟩ h5
  have helf4 : k4.elfFiles = k.elfFiles := (elfFiles_fread h5).trans helf2
  dsimp only at h
  split at h
  · cases h
    exact Or.inl ⟨by decide, hk4.fclose hsince4, (elfFiles_fclose _ _).trans helf4⟩
  rename_i hcount
  rw [fclose_setProc] at h
  have hfile : ReadFile s k k2 { k2 with toKmem := m3 } k4 fd a stat.filesize := by
    refine ⟨h2, hpos, ?_, h4, ⟨_, _, rfl⟩, by rw [← not_not.mp hcount]; exact h5⟩
    rw [h3, not_not.mp hres2]
    exact ⟨rfl, rfl⟩
  cases h
  have hmem : (fclose (k4.setElf a fun _ => elfFileAt k4.mem a) fd).1.mem = k4.mem := by
    obtain ⟨_, _, heq, -⟩ := fclose_only (k4.setElf a fun _ => elfFileAt k4.mem a) fd
    rw [heq]
    rfl
  refine Or.inr ⟨rfl, _, a, _, ⟨⟨k2, _, k4, fd, hfile, hmem⟩, ha,
    ReadFile.mem_live hs hfile ha ⟨rfl, rfl, rfl, rfl⟩ rfl, ?_, ?_, fun f hf => ?_⟩, rfl⟩
  · exact (hk4.trans (loadKeeps_setElf _ _ _)).fclose (hsince4.of_same rfl rfl rfl rfl)
  · rw [elfFiles_fclose, hmem]
    exact Function.update_self _ _ _
  · rw [elfFiles_fclose, ← helf4]
    exact Function.update_of_ne hf _ _

theorem elfFiles_elfRecord (k : Kernel) {f : Addr} (hf : f ≠ (elfRecord k).2) :
    (elfRecord k).1.elfFiles f = k.elfFiles f := by
  have h2 : (k.onKmem (kzalloc · sizeofElfFile)).2 = (elfRecord k).2 := rfl
  unfold elfRecord
  dsimp only
  split
  · rfl
  · exact Function.update_of_ne (h2 ▸ hf) _ _

/-- The ways out of `process_load_data`. -/
inductive DataWay (s : List Byte) (k : Kernel) (process : Addr) : Kernel → Int → Prop where
  | failed {k1 : Kernel} {res : Int} (keeps : LoadKeeps k k1)
      (others : ∀ f, f ≠ (elfRecord k).2 → k1.elfFiles f = k.elfFiles f) (neg : res < 0) : DataWay s k process k1 res
  | elf {k1 : Kernel} (load : elfLoad k (cstr s) = some (k1, 0, (elfRecord k).2)) :
      DataWay s k process
        (k1.setProc process fun p => { p with filetype := processFiletypeElf, ptr := (elfRecord k).2 }) 0
  | raw {k0 k1 : Kernel} {file a : Addr} {size : BitVec 32}
      (refused : elfLoad k (cstr s) = some (k0, -EINFORMAT, file)) (read : RawRead s k0 k1 a size) :
      DataWay s k process (k1.setProc process fun p => { p with ptr := a, size }) 0

theorem elfLoad_accepted {file : Addr} (h : elfLoad k (cstr s) = some (k', res, file)) (hres : 0 ≤ res) :
    res = 0 ∧ file = (elfRecord k).2 := by
  have hway := elfLoad_way h
  cases hway with
  | notOpened opened => exact absurd hres (by decide)
  | noStat opened stat => rcases stat with rfl | rfl <;> exact absurd hres (by decide)
  | notRead opened request unread failed => rcases failed with rfl | rfl <;> exact absurd hres (by decide)
  | read file image processed =>
    obtain ⟨hr, -⟩ := elfProcessLoaded_eq processed
    exact ⟨hr.trans (elfValidateLoaded_eq_zero (hr ▸ not_lt.mpr hres)), if_neg (not_lt.mpr hres)⟩

theorem elfFiles_elfLoad (hs : NoNul s) {f file : Addr} (h : elfLoad k (cstr s) = some (k', res, file))
    (hf : f ≠ (elfRecord k).2) : k'.elfFiles f = k.elfFiles f :=
  ((elfLoad_way h).elfFiles hs hf).trans (elfFiles_elfRecord k hf)

theorem processLoadData_way (hs : NoNul s) (h : processLoadData k (cstr s) process = some (k', res)) :
    DataWay s k process k' res := by
  unfold processLoadData at h
  obtain ⟨⟨k1, res1⟩, h1, h⟩ := Option.bind_eq_some_iff.mp h
  unfold processLoadElf at h1
  obtain ⟨⟨k0, res0, file⟩, h0, h1⟩ := Option.bind_eq_some_iff.mp h1
  have hk0 := (loadKeeps_elfRecord k).trans (elfLoad_cases hs h0).1
  have helf := fun f (hf : f ≠ (elfRecord k).2) => elfFiles_elfLoad hs h0 hf
  dsimp only at h h1
  by_cases hneg : res0 < 0
  · rw [if_pos hneg] at h1
    cases h1
    by_cases hformat : res1 = -EINFORMAT
    · rw [if_pos hformat] at h
      rcases processLoadBinary_cases hs h with ⟨hres, hk1, helf1⟩ | ⟨rfl, k5, a, size, hread, rfl⟩
      · exact .failed (hk0.trans hk1) (fun f hf => by rw [helf1, helf f hf]) hres
      · exact .raw (hformat ▸ h0) hread
    · rw [if_neg hformat] at h
      cases h
      exact .failed hk0 helf hneg
  · obtain ⟨rfl, rfl⟩ := elfLoad_accepted h0 (not_lt.mp hneg)
    rw [if_neg hneg] at h1
    cases h1
    rw [if_neg (by decide)] at h
    cases h
    exact .elf h0

theorem processLoadData_cases (hs : NoNul s) (h : processLoadData k (cstr s) process = some (k', res)) :
    (res < 0 ∧ LoadKeeps k k') ∨
    (res = 0 ∧ ∃ k1 k2 k3 k4 fd a size, ReadFile s (elfRecord k).1 k2 k3 k4 fd a size ∧ Counts k2 k' ∧
      LoadKeeps (elfRecord k).1 k1 ∧
      ((elfValidateLoaded k4.mem a = 0 ∧ k1.mem = k4.mem ∧ k1.elfFiles (elfRecord k).2 =
          elfProcessPheaders k4.mem { (elfRecord k).1.elfFiles (elfRecord k).2 with elf_memory := a } ∧
        k' = k1.setProc process fun p => { p with filetype := processFiletypeElf, ptr := (elfRecord k).2 }) ∨
      (elfValidateLoaded k4.mem a ≠ 0 ∧ ∃ b n, b ≠ 0 ∧ ¬ (elfRecord k).1.heap.Live b ∧
        k' = k1.setProc process fun p => { p with ptr := b, size := n }))) := by
  have hway := processLoadData_way hs h
  cases hway with
  | failed keeps others neg => exact Or.inl ⟨neg, keeps⟩
  | @elf k1 load =>
    obtain ⟨hk, hcases⟩ := elfLoad_cases hs load
    obtain ⟨k2, k3, k4, fd, a, size, hfile, hcount, hvalid, -, hmem, helf⟩ :=
      hcases.resolve_left fun hc => absurd hc.1 (lt_irrefl 0)
    exact Or.inr ⟨rfl, k1, k2, k3, k4, fd, a, size, hfile, hcount, hk,
      Or.inl ⟨hvalid.symm, hmem, helf (lt_irrefl 0), rfl⟩⟩
  | @raw k0 k1 _ b n refused read =>
    obtain ⟨hk, hcases⟩ := elfLoad_cases hs refused
    obtain ⟨k2, k3, k4, fd, a, size, hfile, hcount, hvalid, -⟩ := hcases.resolve_left fun hc => hc.2.1 rfl
    refine Or.inr ⟨rfl, k1, k2, k3, k4, fd, a, size, hfile, hcount.trans read.keeps.count, hk.trans read.keeps,
      Or.inr ⟨?_, b, n, read.granted, fun ha => read.not_live hs (hk.isLive ha), rfl⟩⟩
    rw [← hvalid]
    decide

/-- Loading the data writes the type, the pointer and the size of its process, if anything. -/
theorem processLoadData_record (hs : NoNul s) (h : processLoadData k (cstr s) process = some (k', res)) :
    ∃ k1 filetype ptr size, LoadKeeps k k1 ∧ k' = k1.setProc process (fun p => { p with filetype, ptr, size }) ∧
      ((k.procs process).filetype = processFiletypeElf → filetype = processFiletypeElf) := by
  have hrec := loadKeeps_elfRecord k
  have hway := processLoadData_way hs h
  cases hway with
  | failed keeps others neg =>
    refine ⟨k', (k.procs process).filetype, (k.procs process).ptr, (k.procs process).size, keeps, ?_, id⟩
    rw [Kernel.setProc, ← keeps.procs, Function.update_eq_self]
  | @elf k1 load =>
    have hk := hrec.trans (elfLoad_cases hs load).1
    refine ⟨k1, _, (elfRecord k).2, (k.procs process).size, hk, ?_, fun _ => rfl⟩
    rw [Kernel.setProc, Kernel.setProc, hk.procs]
  | @raw k0 k1 _ b n refused read =>
    have hk := (hrec.trans (elfLoad_cases hs refused).1).trans read.keeps
    refine ⟨k1, (k.procs process).filetype, b, n, hk, ?_, id⟩
    rw [Kernel.setProc, Kernel.setProc, hk.procs]

theorem elfRecord_not_live (k : Kernel) : ¬ k.heap.Live (elfRecord k).2 := by
  have h2 : (kzalloc k.toKmem sizeofElfFile).2 = (elfRecord k).2 := rfl
  exact h2 ▸ kzalloc_not_live k.toKmem sizeofElfFile

theorem elfFiles_processLoadData (hs : NoNul s) (h : processLoadData k (cstr s) process = some (k', res)) {f : Addr}
    (hf : k.heap.Live f) : k'.elfFiles f = k.elfFiles f := by
  have hne : f ≠ (elfRecord k).2 := fun he => elfRecord_not_live k (he ▸ hf)
  have hway := processLoadData_way hs h
  cases hway with
  | failed keeps others neg => exact others f hne
  | @elf k1 load =>
    show k1.elfFiles f = _
    exact elfFiles_elfLoad hs load hne
  | @raw k0 k1 _ b n refused read =>
    have hk0 := (loadKeeps_elfRecord k).trans (elfLoad_cases hs refused).1
    exact (read.others f fun he => read.not_live hs (he ▸ hk0.isLive hf)).trans (elfFiles_elfLoad hs refused hne)

end MultitaskOs.Loading
