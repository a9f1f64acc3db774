import MultitaskOs.DirectoryLoad
import MultitaskOs.Loading
import MultitaskOs.RootRegion

/-!
# Looking for a name

`fat16_find_item_in_directory` looks at as many items as were counted. The count
has left out the deleted ones, and these items are the first.
-/

open Lib Lib.Memory Lib.Arena MultitaskOs.Files MultitaskOs.PathParser MultitaskOs.Descriptors MultitaskOs.FatRead
  MultitaskOs.FatLookup MultitaskOs.Loading MultitaskOs.Filename MultitaskOs.Directory MultitaskOs.RootRegion
  MultitaskOs.DirectoryLoad MultitaskOs.Tasks

namespace MultitaskOs.FindItem

variable {k k' k1 : Kernel} {d : FatDirectory} {es : DirEntries} {n total size : Nat} {name item f : Addr}
  {c : List Byte} {e : Entry}

/-! ## A new item -/

/-- The item leads to a copy of the entry. -/
structure Describes (k : Kernel) (item : Addr) (e : Entry) : Prop where
  live : k.heap.Live item
  copy : k.heap.Live (k.fatItems item).item
  bytes : readBytes k.mem (k.fatItems item).item sizeofFatDirectoryItem = e

theorem Describes.ne_zero (h : Describes k item e) : item ≠ 0 := Kmem.live_ne_zero h.live

theorem Describes.keeps (h : Describes k item e) (hk : FatKeeps k k') : Describes k' item e := by
  have hitem := hk.items item h.live
  refine ⟨hk.keeps.isLive h.live, hitem ▸ hk.keeps.isLive h.copy, ?_⟩
  rw [hitem, ← h.bytes]
  refine readBytes_agree ((hk.keeps.page h.copy).sub ?_) (by decide)
  unfold blockSize sizeofFatDirectoryItem
  bv_omega

theorem newItem_granted (h : fat16NewFatItemForDirectoryItem k item = some (k', f))
    (hok : k'.heap.failures = k.heap.failures) : f ≠ 0 := by
  unfold fat16NewFatItemForDirectoryItem at h
  obtain ⟨⟨m1, fi⟩, h1⟩ : ∃ r, kzalloc k.toKmem sizeofFatItem = r := ⟨_, rfl⟩
  have hcases := kzalloc_cases k.toKmem sizeofFatItem
  rw [h1] at hcases
  rw [Kernel.onKmem_eq h1] at h
  dsimp only at h hcases
  split at h
  · rename_i hnull
    cases h
    rcases hcases with ⟨-, -, -, hfail⟩ | ⟨h0, -⟩
    · dsimp only at hok
      omega
    · exact absurd hnull h0
  · split at h
    · obtain ⟨⟨k2, dir⟩, -, h⟩ := Option.bind_eq_some_iff.mp h
      cases h
      assumption
    · cases h
      assumption

theorem newItem_describes (he : ∀ k', FatKeeps k k' → readBytes k'.mem item sizeofFatDirectoryItem = e)
    (h : fat16NewFatItemForDirectoryItem k item = some (k', f)) (hok : k'.heap.failures = k.heap.failures) :
    Describes k' f e := by
  have h0 := newItem_granted h hok
  obtain ⟨hcopy, hbytes⟩ := newItem_copy he h h0 hok
  have hnew := (fat16NewFatItem_keeps h).2 h0
  exact ⟨hnew.live, (hnew.copy.resolve_left hcopy).1, hbytes⟩

theorem newItem_scans (he : ∀ k', FatKeeps k k' → readBytes k'.mem item sizeofFatDirectoryItem = e)
    (hcsz : 0 < sizeOfClusterBytes k) (hdir : IsDirectory e) (h : fat16NewFatItemForDirectoryItem k item = some (k', f))
    (hok : k'.heap.failures = k.heap.failures) : ScanEnds k.disk (scanStart k e) := by
  have hends := (newItem_directory_ends hcsz he hdir).mp ⟨_, h⟩
  have h0 := newItem_granted h hok
  unfold fat16NewFatItemForDirectoryItem at h
  unfold secondRequest at hends
  obtain ⟨⟨m1, fi⟩, h1⟩ : ∃ r, kzalloc k.toKmem sizeofFatItem = r := ⟨_, rfl⟩
  have hk1 := (FatKeeps.refl k).alloc sizeofFatItem
  have hc1 := counts_alloc k sizeofFatItem
  rw [Kernel.onKmem_eq h1] at h hk1 hc1
  rw [h1] at hends
  have hattr := (itemAttribute_eq (he _ hk1)).mpr hdir
  dsimp only at h hends hattr
  split at h
  · cases h
    exact absurd rfl h0
  rename_i hfi
  obtain ⟨⟨k2, dir⟩, h2, h⟩ := Option.bind_eq_some_iff.mp h
  have hc3 : Counts k2 k' := by
    cases h
    exact counts_finishItem (k2.setItem f fun _ => ⟨dir, fatItemTypeDirectory⟩) f item
  rcases hends with hnull | hnull | hends
  · exact absurd hnull hfi
  · -- the record of the directory was not granted
    have hcases := kzalloc_cases m1 sizeofFatDirectory
    obtain ⟨⟨m2, dir'⟩, h3⟩ : ∃ r, kzalloc m1 sizeofFatDirectory = r := ⟨_, rfl⟩
    rw [fat16LoadFatDirectory_eq (k := { k with toKmem := m1 }) h3, if_neg hattr] at h2
    rw [h3] at hcases hnull
    dsimp only at hcases hnull
    rw [if_pos hnull] at h2
    cases h2
    rcases hcases with ⟨-, -, -, hfail⟩ | ⟨hne, -⟩
    · have hc3 : m2.heap.failures ≤ k'.heap.failures := hc3
      have hc1 : k.heap.failures ≤ m1.heap.failures := hc1
      omega
    · exact absurd hnull hne
  · exact hends

/-! ## The loop over the items -/

def Matches (es : DirEntries) (c : List Byte) (i : Nat) : Prop :=
  ∃ out, rendered es i = some out ∧ SameName (out.takeWhile (· != 0)) c

theorem compare_rendered {i : Nat} {out : CharPtr} (hc : NoNul c) (htext : Text k.mem name c)
    (hout : rendered es i = some out) :
    ∃ r, istrncmp out (readBytes k.mem name maxPath) maxPath = some r ∧ (r = 0 ↔ Matches es c i) := by
  obtain ⟨s, hs, hlen, rfl⟩ := filename_shape hout
  obtain ⟨r, hr, h0⟩ := istrncmp_spec hs hc hlen htext.1
  have hwhile := takeWhile_zeros hs (maxPath - s.length)
  refine ⟨r, by rw [text_readBytes htext, hr], h0.trans ?_⟩
  constructor
  · exact fun h => ⟨_, hout, by rwa [hwhile]⟩
  · rintro ⟨out, hout', h⟩
    rw [hout] at hout'
    cases hout'
    rwa [hwhile] at h

/-- A directory in memory, and a name in a live buffer to look for. -/
structure Search (k : Kernel) (d : FatDirectory) (es : DirEntries) (total size : Nat) (name : Addr) (c : List Byte) :
    Prop where
  loaded : Loaded k d es total size
  noNul : NoNul c
  text : Text k.mem name c
  live : k.heap.Live name
  clusters : 0 < sizeOfClusterBytes k

theorem Search.keeps (s : Search k d es total size name c) (hk : FatKeeps k k') : Search k' d es total size name c := by
  refine ⟨s.loaded.keeps hk, s.noNul, Text.keeps s.text hk.keeps s.live, hk.keeps.isLive s.live, ?_⟩
  obtain ⟨_, _, _, _, _, rfl, hv⟩ := hk.only
  have hclusters := s.clusters
  unfold sizeOfClusterBytes at *
  dsimp only
  rwa [hv.1]

theorem scanStart_keeps (hk : FatKeeps k k') (e : Entry) :
    ScanEnds k'.disk (scanStart k' e) ↔ ScanEnds k.disk (scanStart k e) := by
  obtain ⟨_, _, _, _, _, rfl, hv⟩ := hk.only
  unfold scanStart fat16ClusterToSector
  dsimp only
  rw [hv.1, hv.2]

theorem Search.entry (s : Search k d es total size name c) {i : Nat} (hi : i < total) (hk : FatKeeps k k') :
    readBytes k'.mem (itemAt d.item i) sizeofFatDirectoryItem = es i := (s.loaded.keeps hk).entry hi

theorem findItemLoop_turn (s : Search k d es total size name c) {n i : Nat} (hi : i < total) {out : CharPtr}
    (hout : rendered es i = some out) : ∃ r : Int, (r = 0 ↔ Matches es c i) ∧ findItemLoop d name (n + 1) i k f =
      if r = 0 then (fat16NewFatItemForDirectoryItem k (itemAt d.item i)).bind fun r =>
        findItemLoop d name n (i + 1) r.1 r.2 else findItemLoop d name n (i + 1) k f := by
  obtain ⟨r, hr, h0⟩ := compare_rendered s.noNul s.text hout
  refine ⟨r, h0, ?_⟩
  conv_lhs => unfold findItemLoop
  dsimp only
  rw [(s.loaded.filename hi).1, hout]
  simp only [Option.bind_eq_bind, Option.bind_some]
  rw [hr, Option.bind_some]

theorem findItemLoop_match (s : Search k d es total size name c) {n i : Nat} (hi : i < total) (hm : Matches es c i) :
    findItemLoop d name (n + 1) i k f = (fat16NewFatItemForDirectoryItem k (itemAt d.item i)).bind fun r =>
      findItemLoop d name n (i + 1) r.1 r.2 := by
  obtain ⟨out, hout, -⟩ := id hm
  obtain ⟨r, h0, hturn⟩ := findItemLoop_turn s (n := n) (f := f) hi hout
  rw [hturn, if_pos (h0.mpr hm)]

theorem findItemLoop_other (s : Search k d es total size name c) {n i : Nat} (hi : i < total) {out : CharPtr}
    (hout : rendered es i = some out) (hm : ¬ Matches es c i) :
    findItemLoop d name (n + 1) i k f = findItemLoop d name n (i + 1) k f := by
  obtain ⟨r, h0, hturn⟩ := findItemLoop_turn s (n := n) (f := f) hi hout
  rw [hturn, if_neg (h0.not.mpr hm)]

/-- An item without a name has the loop write past the end of its buffer. -/
theorem findItemLoop_rendered (s : Search k d es total size name c) {n i : Nat} (hi : i < total) {r : Kernel × Addr}
    (h : findItemLoop d name (n + 1) i k f = some r) : ∃ out, rendered es i = some out := by
  unfold findItemLoop at h
  obtain ⟨out, hout, -⟩ := Option.bind_eq_some_iff.mp h
  rw [(s.loaded.filename hi).1] at hout
  exact ⟨out, hout⟩

/-- The last of the items from `i` on that has the name. -/
structure LastMatch (es : DirEntries) (c : List Byte) (i total j : Nat) : Prop where
  range : i ≤ j ∧ j < total
  name : Matches es c j
  last : ∀ l < total, j < l → ¬ Matches es c l

/-- Every item from `i` on has a name. Those with the name `c` that are subdirectories have been counted. -/
structure Passed (k : Kernel) (es : DirEntries) (c : List Byte) (i total : Nat) : Prop where
  names : ∀ j, i ≤ j → j < total → ∃ out, rendered es j = some out
  scans : ∀ j, i ≤ j → j < total → Matches es c j → IsDirectory (es j) → ScanEnds k.disk (scanStart k (es j))

theorem Passed.keeps {i : Nat} (h : Passed k' es c i total) (hk : FatKeeps k k') : Passed k es c i total :=
  ⟨h.names, fun j hij hj hm hd => (scanStart_keeps hk _).mp (h.scans j hij hj hm hd)⟩

theorem Passed.cons {i : Nat} (h : Passed k es c (i + 1) total) (hout : ∃ out, rendered es i = some out)
    (hscan : Matches es c i → IsDirectory (es i) → ScanEnds k.disk (scanStart k (es i))) : Passed k es c i total := by
  refine ⟨fun j hij hj => ?_, fun j hij hj hm hd => ?_⟩
  · rcases Nat.eq_or_lt_of_le hij with rfl | hij
    · exact hout
    · exact h.names j hij hj
  · rcases Nat.eq_or_lt_of_le hij with rfl | hij
    · exact hscan hm hd
    · exact h.scans j hij hj hm hd

theorem LastMatch.of_next {i j : Nat} (h : LastMatch es c (i + 1) total j) : LastMatch es c i total j :=
  ⟨⟨(Nat.le_succ i).trans h.range.1, h.range.2⟩, h.name, h.last⟩

theorem findItemLoop_spec (s : Search k d es total size name c) {n i : Nat} (hn : i + n = total) {r : Addr}
    (h : findItemLoop d name n i k f = some (k', r)) (hok : k'.heap.failures = k.heap.failures) :
    FatKeeps k k' ∧ Passed k es c i total ∧ ((∀ j, i ≤ j → j < total → ¬ Matches es c j) ∧ r = f ∨
      ∃ j, LastMatch es c i total j ∧ Describes k' r (es j)) := by
  induction n generalizing k i f with
  | zero =>
    cases h
    exact ⟨FatKeeps.refl _, ⟨fun j _ _ => by omega, fun j _ _ => by omega⟩, Or.inl ⟨fun j _ _ => by omega, rfl⟩⟩
  | succ n ih =>
    have hi : i < total := by omega
    obtain ⟨out, hout⟩ := findItemLoop_rendered s hi h
    by_cases hm : Matches es c i
    · rw [findItemLoop_match s hi hm] at h
      obtain ⟨⟨k1, f1⟩, hnew, h⟩ := Option.bind_eq_some_iff.mp h
      have hk1 := (fat16NewFatItem_keeps hnew).1
      have hc1 := counts_newFatItem hnew
      have hc2 := counts_findItemLoop h
      unfold Counts at hc1 hc2
      dsimp only at h hc2
      have hok1 : k1.heap.failures = k.heap.failures := by omega
      have he : ∀ k2, FatKeeps k k2 → readBytes k2.mem (itemAt d.item i) sizeofFatDirectoryItem = es i := fun k2 hk2 =>
        s.entry hi hk2
      obtain ⟨hk, hpass, hlast⟩ := ih (s.keeps hk1) (by omega) h (by omega)
      refine ⟨hk1.trans hk, (hpass.keeps hk1).cons ⟨out, hout⟩ fun _ hd => newItem_scans he s.clusters hd hnew hok1,
        Or.inr ?_⟩
      rcases hlast with ⟨hno, rfl⟩ | ⟨j, hj, hd⟩
      · exact ⟨i, ⟨⟨le_rfl, hi⟩, hm, fun l hl hil => hno l hil hl⟩, (newItem_describes he hnew hok1).keeps hk⟩
      · exact ⟨j, hj.of_next, hd⟩
    · rw [findItemLoop_other s hi hout hm] at h
      obtain ⟨hk, hpass, hlast⟩ := ih s (by omega) h hok
      refine ⟨hk, hpass.cons ⟨out, hout⟩ fun h => absurd h hm, ?_⟩
      rcases hlast with ⟨hno, hr⟩ | ⟨j, hj, hd⟩
      · refine Or.inl ⟨fun j hij hj => ?_, hr⟩
        rcases Nat.eq_or_lt_of_le hij with rfl | hij
        · exact hm
        · exact hno j hij hj
      · exact Or.inr ⟨j, hj.of_next, hd⟩

theorem findItemLoop_ends (s : Search k d es total size name c) {n i : Nat} (hn : i + n = total)
    (h : Passed k es c i total) : ∃ r, findItemLoop d name n i k f = some r := by
  induction n generalizing k i f with
  | zero => exact ⟨_, rfl⟩
  | succ n ih =>
    have hi : i < total := by omega
    have hnext : Passed k es c (i + 1) total :=
      ⟨fun j hij hj => h.names j (by omega) hj, fun j hij hj => h.scans j (by omega) hj⟩
    by_cases hm : Matches es c i
    · have he : ∀ k2, FatKeeps k k2 → readBytes k2.mem (itemAt d.item i) sizeofFatDirectoryItem = es i :=
        fun k2 hk2 => s.entry hi hk2
      obtain ⟨⟨k1, f1⟩, hnew⟩ : ∃ r, fat16NewFatItemForDirectoryItem k (itemAt d.item i) = some r := by
        by_cases hd : IsDirectory (es i)
        · exact (newItem_directory_ends s.clusters he hd).mpr (Or.inr (Or.inr (h.scans i le_rfl hi hm hd)))
        · obtain ⟨k1, f1, hnew, -⟩ := newItem_file he hd
          exact ⟨_, hnew⟩
      have hk1 := (fat16NewFatItem_keeps hnew).1
      rw [findItemLoop_match s hi hm, hnew, Option.bind_some]
      exact ih (s.keeps hk1) (by omega) ⟨hnext.names, fun j hij hj hmj hd =>
        (scanStart_keeps hk1 _).mpr (hnext.scans j hij hj hmj hd)⟩
    · obtain ⟨out, hout⟩ := h.names i le_rfl hi
      rw [findItemLoop_other s hi hout hm]
      exact ih s (by omega) hnext

/-- Entry `i` is one of the directory's `n` that is in use, and has the name. -/
def Named (es : DirEntries) (n : Nat) (c : List Byte) (i : Nat) : Prop := i < n ∧ ¬ IsDeleted (es i) ∧ Matches es c i

/-- The call returned: an item for an entry in use of that name, if there is one. -/
def FindExact (es : DirEntries) (n : Nat) (c : List Byte) (r : Option (Kernel × Addr)) : Prop :=
  ∃ k' item, r = some (k', item) ∧ (item ≠ 0 ↔ ∃ i, Named es n c i) ∧
    (item ≠ 0 → ∃ i, Named es n c i ∧ Describes k' item (es i))

/-- Of the first `total` entries one has the name, if one in use has, and the last that has it is in
use. -/
structure Findable (k : Kernel) (es : DirEntries) (n total : Nat) (c : List Byte) : Prop where
  passed : Passed k es c 0 total
  within : (∃ i, Named es n c i) → ∃ i < total, Matches es c i
  last : ∀ i, LastMatch es c 0 total i → ∃ j, Named es n c j ∧ es j = es i

theorem LastMatch.unique {i j : Nat} (hi : LastMatch es c 0 total i) (hj : LastMatch es c 0 total j) : i = j := by
  rcases Nat.lt_trichotomy i j with h | h | h
  · exact absurd hj.name (hi.last j hj.range.2 h)
  · exact h
  · exact absurd hi.name (hj.last i hi.range.2 h)

theorem findItem_iff (s : Search k d es total size name c) (n : Nat)
    (hmem : ∀ k' r, fat16FindItemInDirectory k d name = some (k', r) → k'.heap.failures = k.heap.failures) :
    FindExact es n c (fat16FindItemInDirectory k d name) ↔ Findable k es n total c := by
  have hloop : fat16FindItemInDirectory k d name = findItemLoop d name total 0 k 0 := by
    unfold fat16FindItemInDirectory
    rw [s.loaded.counted, Int.toNat_natCast]
  constructor
  · rintro ⟨k', r, heq, hiff, hdesc⟩
    obtain ⟨-, hpass, hlast⟩ := findItemLoop_spec s (Nat.zero_add total) (hloop.symm.trans heq) (hmem k' r heq)
    refine ⟨hpass, fun hex => ?_, fun i hi => ?_⟩
    all_goals rcases hlast with ⟨hno, hr⟩ | ⟨j, hj, hd⟩
    · exact absurd hr (hiff.mpr hex)
    · exact ⟨j, hj.range.2, hj.name⟩
    · exact absurd hi.name (hno i (Nat.zero_le i) hi.range.2)
    · obtain ⟨l, hl, hdl⟩ := hdesc hd.ne_zero
      rw [hi.unique hj]
      exact ⟨l, hl, hdl.bytes.symm.trans hd.bytes⟩
  · rintro ⟨hpass, hwithin, hlastIn⟩
    obtain ⟨⟨k', r⟩, heq⟩ := findItemLoop_ends (f := 0) s (Nat.zero_add total) hpass
    have hcall := hloop.trans heq
    obtain ⟨-, -, hlast⟩ := findItemLoop_spec s (Nat.zero_add total) heq (hmem k' r hcall)
    refine ⟨k', r, hcall, ?_⟩
    rcases hlast with ⟨hno, rfl⟩ | ⟨j, hj, hd⟩
    · refine ⟨⟨fun h => absurd rfl h, fun hex => ?_⟩, fun h => absurd rfl h⟩
      obtain ⟨i, hi, hm⟩ := hwithin hex
      exact absurd hm (hno i (Nat.zero_le i) hi)
    · obtain ⟨l, hl, hel⟩ := hlastIn j hj
      exact ⟨⟨fun _ => ⟨l, hl⟩, fun _ => hd.ne_zero⟩, fun _ => ⟨l, hl, hel ▸ hd⟩⟩

/-! ## A subdirectory -/

def chainEntry (k : Kernel) (c : Int) : DirEntries :=
  cut fun x => clusterByte k (chain k c (x / clusterBytes k)) (x % clusterBytes k)

theorem loadDirectory_spec (hsec : k.disk.sector_size = 512) (hspc : 0 < clusterBytes k)
    (he : ∀ k', FatKeeps k k' → readBytes k'.mem item sizeofFatDirectoryItem = e) {dir : Addr}
    (h : fat16LoadFatDirectory k item = some (k1, dir)) (hlive : k1.heap.Live dir)
    (hend : EndsAt (scanned k.disk (scanStart k e)) n) (htotal : usedCount (scanned k.disk (scanStart k e)) n = total)
    (hfit : Fits k (firstCluster e) 0 (32 * total))
    (hnames : NamesWithin (chainEntry k (firstCluster e)) total (32 * total)) :
    Loaded k1 (k1.fatDirs dir) (chainEntry k (firstCluster e)) total (32 * total) := by
  have hcluster : startCluster k item = firstCluster e :=
    firstCluster_eq (he (afterRecord k) ((FatKeeps.refl k).alloc sizeofFatDirectory))
  obtain ⟨total', hs⟩ := load_live hsec hspc h hlive
  have hcounted := hs.counted
  unfold countedItems at hcounted
  rw [hcluster] at hcounted
  obtain ⟨n', -, hend', htotal'⟩ := hcounted
  obtain rfl := hend.unique hend'
  obtain rfl : total' = total := htotal'.symm.trans htotal
  obtain ⟨k2, dir2, hcall, hloaded, -⟩ := load_succeeds hsec hs
  rw [h, Option.some.injEq, Prod.mk.injEq] at hcall
  obtain ⟨rfl, rfl⟩ := hcall
  obtain ⟨items, hdir, hheap, hbytes⟩ := hloaded total' hs
  rw [hcluster] at hbytes
  rw [hdir]
  refine ⟨rfl, ⟨_, hheap ▸ List.mem_cons_self, le_rfl⟩, fun x hx => ?_, le_rfl, length_cut _, hnames⟩
  unfold chainEntry
  rw [hbytes hfit x hx, entryByte_cut]

/-! ## A directory that was loaded -/

/-- The root or a subdirectory has been loaded. Up to the one that ends it there are `n` entries, and
`total` are counted. -/
inductive Loads (k : Kernel) : DirEntries → Nat → Nat → Kernel → FatDirectory → Prop where
  | root {k1 : Kernel} {n : Nat} : fat16GetRootDirectory k = some (k1, 0) →
    rootPos k + 32 * rootEntries k < 2 ^ 31 → EndsAt (diskEntry k.disk (rootPos k)) n → n < rootEntries k →
    Loads k (diskEntry k.disk (rootPos k)) n (usedCount (diskEntry k.disk (rootPos k)) n) k1
      k1.fs_private.root_directory
  | sub {k1 : Kernel} {item dir : Addr} {e : Entry} {n n' total : Nat} :
    fat16LoadFatDirectory k item = some (k1, dir) → k1.heap.Live dir →
    (∀ k', FatKeeps k k' → readBytes k'.mem item sizeofFatDirectoryItem = e) →
    EndsAt (chainEntry k (firstCluster e)) n →
    EndsAt (scanned k.disk (scanStart k e)) n' → usedCount (scanned k.disk (scanStart k e)) n' = total →
    Fits k (firstCluster e) 0 (32 * total) →
    NamesWithin (chainEntry k (firstCluster e)) total (32 * total) →
    Loads k (chainEntry k (firstCluster e)) n total k1 (k1.fatDirs dir)

theorem Loads.loaded (hsec : k.disk.sector_size = 512) (hspc : 0 < clusterBytes k) (h : Loads k es n total k1 d) :
    (∃ size, Loaded k1 d es total size) ∧ 0 < sizeOfClusterBytes k1 := by
  have hsize : 0 < sizeOfClusterBytes k := by
    rw [sizeOfClusterBytes_eq hsec]
    exact_mod_cast hspc
  cases h with
  | root h hfit hend hn =>
    have hread := rootDirectory_spec h
    have hmax : itemPositions = 2 ^ 27 := rfl
    have hle := usedCount_le (diskEntry k.disk (rootPos k)) n
    have hscan : ∀ i ≤ n, scanned k.disk (rootPos k) i = diskEntry k.disk (rootPos k) i := fun i hi =>
      scanned_eq (by omega)
    have hcount := hread.counted_eq (hend.congr hscan) (by omega)
    rw [usedCount_congr fun i hi => hscan i hi.le] at hcount
    refine ⟨⟨32 * rootEntries k, hcount, ⟨_, hread.block, le_rfl⟩, fun x hx => ?_, by omega,
      length_cut _, fun i hi a ha => ?_⟩, ?_⟩
    · rw [hread.bytes x hx, rootBytes_eq hfit hx, diskEntry, entryByte_cut]
    · have := names_within hend (show i < n by omega) (by omega) ha
      omega
    · unfold sizeOfClusterBytes at *
      rwa [hread.header, hread.disk]
  | sub h hlive he hend hscan htotal hfit hnames =>
    refine ⟨⟨_, loadDirectory_spec hsec hspc he h hlive hscan htotal hfit hnames⟩, ?_⟩
    obtain ⟨_, _, _, _, _, rfl, hv⟩ := (fat16LoadFatDirectory_keeps h).only
    unfold sizeOfClusterBytes at *
    rwa [hv.1]

/-- For every directory that was loaded, whatever entries it has, and every name. -/
theorem find_exact_iff (hsec : k.disk.sector_size = 512) (hspc : 0 < clusterBytes k) (h : Loads k es n total k1 d)
    (hc : NoNul c) (htext : Text k1.mem name c) (hlive : k1.heap.Live name)
    (hmem : ∀ k' r, fat16FindItemInDirectory k1 d name = some (k', r) → k'.heap.failures = k1.heap.failures) :
    FindExact es n c (fat16FindItemInDirectory k1 d name) ↔ Findable k1 es n total c := by
  obtain ⟨⟨size, hloaded⟩, hclusters⟩ := h.loaded hsec hspc
  exact findItem_iff ⟨hloaded, hc, htext, hlive, hclusters⟩ n hmem

theorem findable_all_used (hall : ∀ i < n, ¬ IsDeleted (es i)) :
    usedCount es n = n ∧ (Findable k es n n c ↔ Passed k es c 0 n) := by
  constructor
  · unfold usedCount
    rw [List.countP_eq_length.mpr fun i hi => bne_iff_ne.mpr (hall i (List.mem_range.mp hi)), List.length_range]
  · refine ⟨Findable.passed, fun h => ⟨h, ?_, fun i hi => ?_⟩⟩
    · rintro ⟨i, hi, -, hm⟩
      exact ⟨i, hi, hm⟩
    · exact ⟨i, ⟨hi.range.2, hall i hi.range.2, hi.name⟩, rfl⟩

/-! ## A root on one sector -/

def rootOnDisk (k : Kernel) : DirEntries := diskEntry k.disk (rootPos k)

theorem loads_rootVolume : Loads (rootVolume 2 [entryA]) (rootOnDisk (rootVolume 2 [entryA])) 1
    (usedCount (rootOnDisk (rootVolume 2 [entryA])) 1) (rootLoaded (rootVolume 2 [entryA]))
    (rootLoaded (rootVolume 2 [entryA])).fs_private.root_directory := by
  have hend : EndsAt (diskEntry (rootVolume 2 [entryA]).disk (rootPos (rootVolume 2 [entryA]))) 1 := by
    refine ⟨by decide +kernel, fun i hi => ?_⟩
    obtain rfl : i = 0 := by omega
    decide +kernel
  exact .root (rootLoaded_eq (by decide +kernel)) (by decide +kernel) hend (by decide +kernel)

theorem find_exact_rootVolume :
    FindExact (rootOnDisk (rootVolume 2 [entryA])) 1 [0x41]
      (fat16FindItemInDirectory (rootLoaded (rootVolume 2 [entryA]))
        (rootLoaded (rootVolume 2 [entryA])).fs_private.root_directory nameBuf) ↔
    Findable (rootLoaded (rootVolume 2 [entryA])) (rootOnDisk (rootVolume 2 [entryA])) 1
      (usedCount (rootOnDisk (rootVolume 2 [entryA])) 1) [0x41] := by
  refine find_exact_iff rfl (by decide +kernel) loads_rootVolume (by unfold NoNul; decide)
    ⟨by decide, by decide +kernel⟩ ⟨maxPath, by decide +kernel⟩ fun k' r h => ?_
  have hcount : (fat16FindItemInDirectory (rootLoaded (rootVolume 2 [entryA]))
    (rootLoaded (rootVolume 2 [entryA])).fs_private.root_directory nameBuf).map (fun r => r.1.heap.failures) =
      some (rootLoaded (rootVolume 2 [entryA])).heap.failures := by decide +kernel
  rw [h, Option.map_some, Option.some.injEq] at hcount
  exact hcount

/-- Behind a deleted entry, the last of those in use is not looked at. -/
theorem behind_deleted_not_found :
    ¬ FindExact (rootOnDisk (rootVolume 3 [entryA.set 0 0xE5, entryA])) 2 [0x41]
      (fat16FindItemInDirectory (rootLoaded (rootVolume 3 [entryA.set 0 0xE5, entryA]))
        (rootLoaded (rootVolume 3 [entryA.set 0 0xE5, entryA])).fs_private.root_directory nameBuf) := by
  have hfind : (fat16FindItemInDirectory (rootLoaded (rootVolume 3 [entryA.set 0 0xE5, entryA]))
    (rootLoaded (rootVolume 3 [entryA.set 0 0xE5, entryA])).fs_private.root_directory nameBuf).map Prod.snd =
      some 0 := by decide +kernel
  have hname : (rendered (rootOnDisk (rootVolume 3 [entryA.set 0 0xE5, entryA])) 1).map
    (fun out => out.takeWhile (· != 0)) = some [0x41] := by decide +kernel
  obtain ⟨out, hout, hwhile⟩ := Option.map_eq_some_iff.mp hname
  rintro ⟨k', item, heq, hiff, -⟩
  rw [heq, Option.map_some, Option.some.injEq] at hfind
  refine hiff.mpr ⟨1, by decide, ?_, out, hout, ?_⟩ hfind
  · unfold IsDeleted
    decide +kernel
  · unfold SameName
    rw [hwhile]

end MultitaskOs.FindItem
