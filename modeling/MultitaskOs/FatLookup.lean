import MultitaskOs.Descriptors
import MultitaskOs.FatRead

/-!
# Looking up a path

What a path names on a volume, and what `fat16_get_directory_entry` makes of it.
An item that was found is always given the type of a file, so no path leads
through a subdirectory.
-/

open Lib Lib.Memory Lib.Arena MultitaskOs.Files MultitaskOs.FatRead MultitaskOs.PathParser MultitaskOs.Tasks
  MultitaskOs.Descriptors

namespace MultitaskOs.FatLookup

/-! ## Names -/

abbrev Entry := List Byte

def isNameByte (c : Byte) : Bool := c != 0 && c != 0x20

def baseName (e : Entry) : List Byte := (e.take 8).takeWhile isNameByte

def extName (e : Entry) : List Byte := ((e.drop 8).take 3).takeWhile isNameByte

/-- `FILE.EXT`, without the padding. -/
def entryName (e : Entry) : List Byte := baseName e ++ if extName e = [] then [] else 0x2e :: extName e

/-- Equal up to the case of letters. -/
def SameName (a b : List Byte) : Prop := a.map tolower = b.map tolower

/-- An entry in use, whose name ends in its fields or before the byte behind them. -/
structure WellNamed (e : Entry) : Prop where
  length : e.length = sizeofFatDirectoryItem
  used : e.getD 0 0 ≠ 0 ∧ e.getD 0 0 ≠ 0xE5
  base : (baseName e).length < 8 ∨ isNameByte (e.getD 8 0) = false
  ext : (extName e).length < 3 ∨ isNameByte (e.getD 11 0) = false

def IsDirectory (e : Entry) : Prop := e.getD 11 0 &&& fatFileSubdirectory ≠ 0

/-- The entries of a directory. -/
structure Listing (es : List Entry) : Prop where
  named : ∀ e ∈ es, WellNamed e
  distinct : es.Pairwise fun a b => ¬ SameName (entryName a) (entryName b)

/-! ## What a path names -/

def firstCluster (e : Entry) : Int :=
  ((e.getD 21 0 ++ e.getD 20 0 : BitVec 16) ||| (e.getD 27 0 ++ e.getD 26 0 : BitVec 16)).toNat

/-- From cluster `s` on lie the entries `es`, and then one that starts with 0. -/
structure HoldsDirectory (k : Kernel) (s : Int) (es : List Entry) : Prop where
  listing : Listing es
  bytes : ∀ x ≤ sizeofFatDirectoryItem * es.length, 0 ≤ chain k s (x / clusterBytes k) ∧
    clusterByte k (chain k s (x / clusterBytes k)) (x % clusterBytes k) = es.flatten.getD x 0

/-- The components, taken one after another from the entries `es` on, lead to the entry `target`. -/
inductive Resolves (k : Kernel) : List Entry → List (List Byte) → Entry → Prop where
  | last {es : List Entry} {e : Entry} {c : List Byte} :
    e ∈ es → SameName (entryName e) c → Resolves k es [c] e
  | descend {es es' : List Entry} {e target : Entry} {c : List Byte} {cs : List (List Byte)} :
    e ∈ es → SameName (entryName e) c → IsDirectory e → HoldsDirectory k (firstCluster e) es' →
      Resolves k es' cs target → Resolves k es (c :: cs) target

/-- An item for the entry `e`: a directory for a subdirectory, and otherwise a copy of the entry. -/
structure ItemFor (k : Kernel) (item : Addr) (e : Entry) : Prop where
  ne_zero : item ≠ 0
  type : (k.fatItems item).type = fatItemTypeDirectory ↔ IsDirectory e
  copy : ¬ IsDirectory e → (k.fatItems item).item ≠ 0 ∧
    readBytes k.mem (k.fatItems item).item sizeofFatDirectoryItem = e

/-- The call returned: an item for the entry that the path names, or NULL if it names none. -/
def LookupExact (k : Kernel) (root : List Entry) (names : List (List Byte)) (r : Option (Kernel × Addr)) : Prop :=
  ∃ k' item, r = some (k', item) ∧ (∀ e, Resolves k root names e → ItemFor k' item e) ∧
    ((¬ ∃ e, Resolves k root names e) → item = 0)

/-! ## Strings -/

variable {m : Mem} {a b : List Byte}

theorem tolower_eq_zero (c : Byte) : tolower c = 0 ↔ c = 0 := by
  unfold tolower
  split
  · rename_i h
    rw [BitVec.toInt_eq_toNat_cond] at h
    split at h <;> bv_omega
  · rfl

theorem istrncmp_spec {n : Nat} (ha : NoNul a) (hb : NoNul b) (hla : a.length ≤ n) (hlb : b.length < n) :
    ∃ r, istrncmp (a ++ List.replicate (n - a.length) 0) (b ++ List.replicate (n - b.length) 0) n = some r ∧
      (r = 0 ↔ SameName a b) := by
  unfold SameName
  induction n generalizing a b with
  | zero => exact absurd hlb (Nat.not_lt_zero _)
  | succ n ih =>
    have hzero : ∀ c : Byte, c ≠ 0 → ¬ tolower c = tolower 0 := by
      intro c hc h
      rw [(tolower_eq_zero 0).mpr rfl, tolower_eq_zero] at h
      exact hc h
    cases a with
    | nil =>
      cases b with
      | nil => exact ⟨0, by simp [istrncmp, List.replicate_succ], by simp⟩
      | cons y b =>
        have hy := hb.head
        refine ⟨0 - y.toNat, ?_, ?_⟩
        · have h1 : (0 : Byte) ≠ y ∧ tolower 0 ≠ tolower y := ⟨hy.symm, fun h => hzero y hy h.symm⟩
          simp only [List.nil_append, List.length_nil, Nat.sub_zero, List.replicate_succ, List.cons_append, istrncmp]
          rw [if_pos h1]
          rfl
        · have : y.toNat ≠ 0 := fun h => hy (BitVec.eq_of_toNat_eq h)
          simp only [List.map_nil, List.map_cons, List.nil_eq, reduceCtorEq, iff_false]
          omega
    | cons x a =>
      have hx := ha.head
      cases b with
      | nil =>
        refine ⟨x.toNat - 0, ?_, ?_⟩
        · have h1 : x ≠ 0 ∧ tolower x ≠ tolower 0 := ⟨hx, hzero x hx⟩
          simp only [List.nil_append, List.length_nil, Nat.sub_zero, List.replicate_succ, List.cons_append, istrncmp]
          rw [if_pos h1]
          rfl
        · have : x.toNat ≠ 0 := fun h => hx (BitVec.eq_of_toNat_eq h)
          simp only [List.map_nil, List.map_cons, reduceCtorEq, iff_false]
          omega
      | cons y b =>
        rw [List.length_cons] at hla hlb
        simp only [List.cons_append, List.length_cons, Nat.add_sub_add_right, istrncmp, List.map_cons,
          List.cons.injEq]
        by_cases hxy : tolower x = tolower y
        · obtain ⟨r, hr, h0⟩ := ih ha.tail hb.tail (by omega) (by omega)
          refine ⟨r, ?_, by rw [h0, and_iff_right hxy]⟩
          rw [if_neg (fun h => h.2 hxy), if_neg hx, hr]
        · have hne : x ≠ y := fun h => hxy (h ▸ rfl)
          refine ⟨x.toNat - y.toNat, by rw [if_pos ⟨hne, hxy⟩], ?_⟩
          have : x.toNat ≠ y.toNat := fun h => hne (BitVec.eq_of_toNat_eq h)
          constructor
          · omega
          · exact fun h => absurd h.1 hxy

theorem toProperString_spec {p : Addr} {w room : Nat} (hw : ((readBytes m p w).takeWhile isNameByte).length < w ∨
    isNameByte (m (p + BitVec.ofNat 32 w)) = false)
    (hroom : ((readBytes m p w).takeWhile isNameByte).length < room) :
    fat16ToProperString m room p = some ((readBytes m p w).takeWhile isNameByte) := by
  induction w generalizing p room with
  | zero =>
    obtain ⟨room, rfl⟩ := Nat.exists_eq_add_of_lt (Nat.zero_lt_of_lt hroom)
    have hend : isNameByte (m p) = false := by simpa using hw
    have hc : ¬ (m p ≠ 0 ∧ m p ≠ 0x20) := by simpa [isNameByte] using hend
    unfold fat16ToProperString
    rw [if_neg hc]
    rfl
  | succ w ih =>
    cases room with
    | zero => exact absurd hroom (Nat.not_lt_zero _)
    | succ room =>
      rw [readBytes_succ] at hw hroom ⊢
      unfold fat16ToProperString
      by_cases hc : m p ≠ 0 ∧ m p ≠ 0x20
      · have hn : isNameByte (m p) = true := by simpa [isNameByte] using hc
        have hbehind : p + BitVec.ofNat 32 (w + 1) = p + 1 + BitVec.ofNat 32 w := by bv_omega
        rw [List.takeWhile_cons_of_pos hn, List.length_cons, Nat.add_lt_add_iff_right, hbehind] at hw
        rw [List.takeWhile_cons_of_pos hn, List.length_cons] at hroom
        rw [if_pos hc, List.takeWhile_cons_of_pos hn, ih hw (by omega), Option.map_some]
      · have hn : ¬ isNameByte (m p) = true := by simpa [isNameByte] using hc
        rw [if_neg hc, List.takeWhile_cons_of_neg hn]

theorem length_baseName (e : Entry) : (baseName e).length ≤ 8 :=
  (List.takeWhile_sublist _).length_le.trans (List.length_take_le _ _)

theorem length_extName (e : Entry) : (extName e).length ≤ 3 :=
  (List.takeWhile_sublist _).length_le.trans (List.length_take_le _ _)

theorem fullFilename_spec {item : Addr} (h : WellNamed (readBytes m item sizeofFatDirectoryItem)) :
    fat16GetFullRelativeFilename m item maxPath =
      some (entryName (readBytes m item sizeofFatDirectoryItem) ++
        List.replicate (maxPath - (entryName (readBytes m item sizeofFatDirectoryItem)).length) 0) := by
  generalize he : readBytes m item sizeofFatDirectoryItem = e at h ⊢
  have hbase : baseName e = (readBytes m item 8).takeWhile isNameByte := by
    rw [baseName, ← he, take_readBytes (by decide)]
  have hext : extName e = (readBytes m (itemExt item) 3).takeWhile isNameByte := by
    rw [extName, ← he, drop_readBytes (by decide), take_readBytes (by decide)]
    rfl
  have hbaseEnd : m (item + BitVec.ofNat 32 8) = e.getD 8 0 := by rw [← he, readBytes_getD (by decide)]
  have hextEnd : m (itemExt item + BitVec.ofNat 32 3) = e.getD 11 0 := by
    rw [← he, readBytes_getD (by decide), itemExt, BitVec.add_assoc]
    rfl
  have hb := length_baseName e
  have hx := length_extName e
  have hmax : maxPath = 108 := rfl
  have hfirst : m (itemExt item) ≠ 0 ∧ m (itemExt item) ≠ 0x20 ↔ extName e ≠ [] := by
    rw [hext, readBytes_succ, List.takeWhile_cons]
    simp [isNameByte]
  unfold fat16GetFullRelativeFilename entryName
  rw [toProperString_spec (w := 8) (by rw [← hbase, hbaseEnd]; exact h.base) (by rw [← hbase]; omega), ← hbase]
  simp only [Option.bind_eq_bind, Option.bind_some]
  by_cases hnone : extName e = []
  · rw [if_neg (by rw [hfirst]; simpa using hnone), if_pos hnone]
    simp
  · rw [if_pos (hfirst.mpr hnone), if_neg hnone, if_neg (by omega),
      toProperString_spec (w := 3) (by rw [← hext, hextEnd]; exact h.ext) (by rw [← hext]; omega), ← hext]
    rfl

theorem isNameByte_ne_zero {c : Byte} (h : isNameByte c = true) : c ≠ 0 := by
  rintro rfl
  exact absurd h (by decide)

theorem noNul_entryName (e : Entry) : NoNul (entryName e) := by
  intro c hc
  unfold entryName at hc
  rcases List.mem_append.mp hc with hc | hc
  · exact isNameByte_ne_zero (List.mem_takeWhile_imp hc)
  · split at hc
    · exact absurd hc List.not_mem_nil
    · rcases List.mem_cons.mp hc with rfl | hc
      · decide
      · exact isNameByte_ne_zero (List.mem_takeWhile_imp hc)

theorem length_entryName (e : Entry) : (entryName e).length < maxPath := by
  have hb := length_baseName e
  have hx := length_extName e
  have hmax : maxPath = 108 := rfl
  unfold entryName
  rw [List.length_append]
  split
  · rw [List.length_nil]
    omega
  · rw [List.length_cons]
    omega

theorem text_readBytes {buf : Addr} {c : List Byte} (h : Text m buf c) :
    readBytes m buf maxPath = c ++ List.replicate (maxPath - c.length) 0 := by
  have hlen := h.1
  refine List.ext_getElem (by rw [length_readBytes]; simp; omega) fun i hi _ => ?_
  rw [length_readBytes] at hi
  have hbyte := h.2 i hi
  rw [← List.getD_eq_getElem _ 0, readBytes_getD hi, hbyte, ← List.getD_eq_getElem _ 0]
  by_cases hc : i < c.length
  · rw [List.getD_append _ _ _ _ hc]
  · rw [List.getD_append_right _ _ _ _ (by omega), List.getD_replicate _ (by omega),
      List.getD_eq_default _ _ (by omega)]

/-! ## Looking through the root -/

/-- The entries of the root, as `fat16_resolve` has read them. -/
structure RootDirectory (k : Kernel) (root : List Entry) : Prop where
  listing : Listing root
  total : k.fs_private.root_directory.total = root.length
  block : ∃ size, (⟨k.fs_private.root_directory.item, size⟩ : Block) ∈ k.heap.live ∧
    sizeofFatDirectoryItem * root.length ≤ size
  entries : ∀ i (hi : i < root.length),
    readBytes k.mem (itemAt k.fs_private.root_directory.item i) sizeofFatDirectoryItem = root[i]

variable {k k' : Kernel} {root : List Entry} {name : Addr} {c : List Byte}

theorem RootDirectory.agree (h : RootDirectory k root) (hk : k.toKmem.Keeps k'.toKmem) {i : Nat}
    (hi : i < root.length) :
    Agree k.mem k'.mem (itemAt k.fs_private.root_directory.item i) sizeofFatDirectoryItem := by
  obtain ⟨size, hb, hsize⟩ := h.block
  have hplaced := (k.heap.placed _ hb).2.2
  have hle := size_le_extent (g := blockSize) size
  dsimp only at hplaced
  apply (hk.bytes _ hb).sub
  unfold itemAt sizeofFatDirectoryItem at *
  dsimp only
  bv_omega

theorem RootDirectory.of_keeps (h : RootDirectory k root) (hk : k.toKmem.Keeps k'.toKmem)
    (hdir : k'.fs_private.root_directory = k.fs_private.root_directory) : RootDirectory k' root := by
  obtain ⟨size, hb, hsize⟩ := h.block
  refine ⟨h.listing, by rw [hdir, h.total], ⟨size, hdir ▸ hk.live _ hb, hsize⟩, fun i hi => ?_⟩
  rw [hdir, readBytes_agree (h.agree hk hi) (by decide), h.entries i hi]

theorem RootDirectory.keeps (h : RootDirectory k root) (hk : FatKeeps k k') : RootDirectory k' root := by
  obtain ⟨_, _, _, _, _, rfl, hv⟩ := hk.only
  exact h.of_keeps hk.keeps hv.2

theorem compare_spec (h : RootDirectory k root) (hc : NoNul c) (htext : Text k.mem name c) {i : Nat}
    (hi : i < root.length) :
    ∃ tmp r, fat16GetFullRelativeFilename k.mem (itemAt k.fs_private.root_directory.item i) maxPath = some tmp ∧
      istrncmp tmp (readBytes k.mem name maxPath) maxPath = some r ∧
      (r = 0 ↔ SameName (entryName root[i]) c) := by
  have hfull := @fullFilename_spec k.mem (itemAt k.fs_private.root_directory.item i)
    (by rw [h.entries i hi]; exact h.listing.named _ (List.getElem_mem hi))
  rw [h.entries i hi] at hfull
  obtain ⟨r, hr, h0⟩ := istrncmp_spec (noNul_entryName root[i]) hc (length_entryName _).le htext.1
  exact ⟨_, r, hfull, by rw [text_readBytes htext, hr], h0⟩

theorem findItemLoop_none (h : RootDirectory k root) (hc : NoNul c) (htext : Text k.mem name c) {n i : Nat}
    (hn : i + n = root.length) (f : Addr)
    (hno : ∀ j (hj : j < root.length), i ≤ j → ¬ SameName (entryName root[j]) c) :
    findItemLoop k.fs_private.root_directory name n i k f = some (k, f) := by
  induction n generalizing i with
  | zero => rfl
  | succ n ih =>
    obtain ⟨tmp, r, h1, h2, h3⟩ := compare_spec h hc htext (i := i) (by omega)
    have hr : ¬ r = 0 := fun h0 => hno i (by omega) le_rfl (h3.mp h0)
    unfold findItemLoop
    simp only [h1, h2, Option.bind_eq_bind, Option.bind_some]
    rw [if_neg hr]
    exact ih (by omega) fun j hj hij => hno j hj (by omega)

theorem Listing.unique (h : Listing root) {i j : Nat} (hi : i < root.length) (hj : j < root.length)
    (hic : SameName (entryName root[i]) c) (hjc : SameName (entryName root[j]) c) : i = j := by
  have hd := List.pairwise_iff_getElem.mp h.distinct
  have hij : SameName (entryName root[i]) (entryName root[j]) := hic.trans hjc.symm
  rcases lt_trichotomy i j with hlt | he | hlt
  · exact absurd hij (hd i j hi hj hlt)
  · exact he
  · exact absurd hij.symm (hd j i hj hi hlt)

theorem findItemLoop_found (h : RootDirectory k root) (hc : NoNul c) (hlive : k.heap.Live name)
    (htext : Text k.mem name c) {n i j : Nat} (hn : i + n = root.length) (hij : i ≤ j) (hj : j < root.length)
    (hname : SameName (entryName root[j]) c) (f : Addr) :
    findItemLoop k.fs_private.root_directory name n i k f =
      fat16NewFatItemForDirectoryItem k (itemAt k.fs_private.root_directory.item j) := by
  induction n generalizing i with
  | zero => omega
  | succ n ih =>
    obtain ⟨tmp, r, h1, h2, h3⟩ := compare_spec h hc htext (i := i) (by omega)
    unfold findItemLoop
    simp only [h1, h2, Option.bind_eq_bind, Option.bind_some]
    by_cases hr : r = 0
    · obtain rfl : i = j := h.listing.unique (by omega) hj (h3.mp hr) hname
      rw [if_pos hr]
      -- the entries behind it do not match in the kernel that the new item leaves
      cases hnew : fat16NewFatItemForDirectoryItem k (itemAt k.fs_private.root_directory.item i) with
      | none => rfl
      | some p =>
        obtain ⟨k1, f1⟩ := p
        have hk1 := (fat16NewFatItem_keeps hnew).1
        have hdir : k1.fs_private.root_directory = k.fs_private.root_directory := by
          obtain ⟨_, _, _, _, _, rfl, hv⟩ := hk1.only
          exact hv.2
        rw [Option.bind_some, ← hdir]
        refine findItemLoop_none (h.keeps hk1) hc (Text.keeps htext hk1.keeps hlive) (by omega) f1 fun l hl hil hs => ?_
        have := h.listing.unique hl hj hs hname
        omega
    · have hne : i ≠ j := fun he => hr (h3.mpr (by subst he; exact hname))
      rw [if_neg hr]
      exact ih (by omega) (by omega)

/-! ## Loading a subdirectory -/

def scanStart (k : Kernel) (e : Entry) : Int :=
  fat16ClusterToSector k.fs_private (firstCluster e) * k.disk.sector_size

/-- Of the entries that lie behind one another from `p` on, one starts with 0. -/
def ScanEnds (disk : Disk) (p : Int) : Prop :=
  ∃ n < itemPositions,
    (diskstreamerRead disk (toInt32 (p + sizeofFatDirectoryItem * n)) sizeofFatDirectoryItem).1.getD 0 0 = 0

theorem diskstreamerRead_pos (disk : Disk) (pos total : Int) :
    (diskstreamerRead disk pos total).2 = toInt32 (pos + total) := by
  induction pos, total using diskstreamerRead.induct disk with
  | case1 pos total offset hover total_to_read rest pos' heq ih =>
    unfold diskstreamerRead
    dsimp only
    rw [if_pos hover]
    refine ih.trans ?_
    rw [toInt32_add]
    congr 1
    ring
  | case2 pos total offset hover =>
    unfold diskstreamerRead
    dsimp only
    rw [if_neg hover]

theorem totalItemsLoop_ends {disk : Disk} (n : Nat) (p i : Int) :
    (∃ r, totalItemsLoop disk n (toInt32 p) i = some r) ↔
      ∃ j < n,
        (diskstreamerRead disk (toInt32 (p + sizeofFatDirectoryItem * j)) sizeofFatDirectoryItem).1.getD 0 0 = 0 := by
  induction n generalizing p i with
  | zero => simp [totalItemsLoop]
  | succ n ih =>
    unfold totalItemsLoop
    dsimp only
    rw [diskstreamerRead_pos, toInt32_add]
    -- the entry at `p`, and those behind it
    have hsplit : (∃ j < n + 1, (diskstreamerRead disk (toInt32 (p + sizeofFatDirectoryItem * j))
          sizeofFatDirectoryItem).1.getD 0 0 = 0) ↔
        (diskstreamerRead disk (toInt32 p) sizeofFatDirectoryItem).1.getD 0 0 = 0 ∨
          ∃ j < n, (diskstreamerRead disk (toInt32 (p + sizeofFatDirectoryItem + sizeofFatDirectoryItem * j))
            sizeofFatDirectoryItem).1.getD 0 0 = 0 := by
      have hstep : ∀ j : Nat, p + (sizeofFatDirectoryItem : Int) * ((j + 1 : Nat) : Int) =
          p + sizeofFatDirectoryItem + sizeofFatDirectoryItem * j := fun j => by push_cast; ring
      constructor
      · rintro ⟨j, hj, h⟩
        cases j with
        | zero => exact Or.inl (by simpa using h)
        | succ j => exact Or.inr ⟨j, by omega, by rwa [hstep] at h⟩
      · rintro (h | ⟨j, hj, h⟩)
        · exact ⟨0, by omega, by simpa using h⟩
        · exact ⟨j + 1, by omega, by rwa [hstep]⟩
    rw [hsplit]
    by_cases h0 : (diskstreamerRead disk (toInt32 p) sizeofFatDirectoryItem).1.getD 0 0 = 0
    · rw [if_pos h0]
      exact ⟨fun _ => Or.inl h0, fun _ => ⟨_, rfl⟩⟩
    · rw [if_neg h0]
      split
      all_goals
        rw [ih]
        exact (or_iff_right h0).symm

theorem readInternal_total {n : Nat} (hcsz : 0 < sizeOfClusterBytes k) {total : Int} (s offset : Int) (out : Addr)
    (hn : total.toNat < n) : ∃ r, fat16ReadInternalFromStream n k s offset total out = some r := by
  induction n generalizing k offset total out with
  | zero => exact absurd hn (Nat.not_lt_zero _)
  | succ n ih =>
    unfold fat16ReadInternalFromStream fat16GetClusterForOffset
    dsimp only
    rw [if_neg (by omega)]
    simp only [Option.bind_eq_bind, Option.bind_some]
    obtain ⟨p, hp⟩ := clusterLoop_only (offset.tdiv (sizeOfClusterBytes k)).toNat k s
    rw [hp]
    generalize hr : (if total > sizeOfClusterBytes k then sizeOfClusterBytes k else total) = r
    split
    · exact ⟨_, rfl⟩
    · split
      · refine ih ?_ _ _ ?_
        · exact hcsz
        · split at hr <;> omega
      · exact ⟨_, rfl⟩

variable {e : Entry} {item : Addr}

theorem itemAttribute_eq (he : readBytes k.mem item sizeofFatDirectoryItem = e) :
    itemAttribute k.mem item &&& fatFileSubdirectory ≠ 0 ↔ IsDirectory e := by
  unfold IsDirectory
  rw [← he, readBytes_getD (by decide)]
  rfl

theorem firstCluster_eq (he : readBytes k.mem item sizeofFatDirectoryItem = e) :
    fat16GetFirstCluster k.mem item = firstCluster e := by
  unfold firstCluster
  rw [← he, readBytes_getD (by decide), readBytes_getD (by decide), readBytes_getD (by decide),
    readBytes_getD (by decide)]
  have h1 : item + 20 + 1 = item + BitVec.ofNat 32 21 := by rw [BitVec.add_assoc]; rfl
  have h2 : item + 26 + 1 = item + BitVec.ofNat 32 27 := by rw [BitVec.add_assoc]; rfl
  unfold fat16GetFirstCluster itemHighFirstCluster itemLowFirstCluster load16
  rw [h1, h2]
  rfl

/-- A step that is always followed by a result has one exactly when there is one. -/
theorem bind_ends {α β : Type} {x : Option α} {f : α → Option β} (hf : ∀ a, x = some a → ∃ r, f a = some r) :
    (∃ r, x.bind f = some r) ↔ ∃ a, x = some a := by
  constructor
  · rintro ⟨r, hr⟩
    obtain ⟨a, ha, -⟩ := Option.bind_eq_some_iff.mp hr
    exact ⟨a, ha⟩
  · rintro ⟨a, ha⟩
    rw [ha]
    exact hf a ha

theorem getTotalItems_ends (k : Kernel) (sector : Int) :
    (∃ r, fat16GetTotalItemsForDirectory k sector = some r) ↔ ScanEnds k.disk (sector * k.disk.sector_size) := by
  unfold ScanEnds
  rw [← totalItemsLoop_ends itemPositions _ 0]
  unfold fat16GetTotalItemsForDirectory
  exact bind_ends fun p _ => ⟨_, rfl⟩

theorem loadItems_ends (hcsz : 0 < sizeOfClusterBytes k) (directory : Addr) (cluster total : Int) :
    ∃ r, loadItems k directory cluster total = some r := by
  unfold loadItems
  dsimp only
  obtain ⟨⟨m, items⟩, hm⟩ :
    ∃ r, kzalloc k.toKmem (BitVec.ofInt 32 (toInt32 (total * sizeofFatDirectoryItem))).toNat = r := ⟨_, rfl⟩
  rw [hm]
  dsimp only
  split
  · exact ⟨_, rfl⟩
  · obtain ⟨⟨k5, res⟩, hread⟩ := readInternal_total (k := withItems k m directory items total) hcsz cluster 0 items
      (Nat.lt_succ_self (toInt32 (total * sizeofFatDirectoryItem)).toNat)
    have hread' : fat16ReadInternal _ _ _ _ _ = _ := hread
    rw [hread']
    exact ⟨_, rfl⟩

theorem loadFatDirectory_ends (hcsz : 0 < sizeOfClusterBytes k)
    (he : ∀ k', FatKeeps k k' → readBytes k'.mem item sizeofFatDirectoryItem = e) (hdir : IsDirectory e) :
    (∃ r, fat16LoadFatDirectory k item = some r) ↔
      (kzalloc k.toKmem sizeofFatDirectory).2 = 0 ∨ ScanEnds k.disk (scanStart k e) := by
  have hattr := (itemAttribute_eq (he k (FatKeeps.refl k))).mpr hdir
  obtain ⟨⟨m1, dir⟩, h1⟩ : ∃ r, kzalloc k.toKmem sizeofFatDirectory = r := ⟨_, rfl⟩
  have hk1 := (FatKeeps.refl k).alloc sizeofFatDirectory
  rw [fat16LoadFatDirectory_eq h1, if_neg hattr]
  rw [Kernel.onKmem_eq h1] at hk1
  have hcluster := firstCluster_eq (he _ hk1)
  rw [h1]
  dsimp only at hcluster ⊢
  by_cases h0 : dir = 0
  · rw [if_pos h0]
    exact ⟨fun _ => Or.inl h0, fun _ => ⟨_, rfl⟩⟩
  have hscan := getTotalItems_ends { k with toKmem := m1 } (fat16ClusterToSector k.fs_private (firstCluster e))
  have hscan' : _ ↔ ScanEnds k.disk (scanStart k e) := hscan
  rw [if_neg h0, or_iff_right h0, hcluster, ← hscan']
  refine bind_ends fun p h2 => ?_
  have hsize : sizeOfClusterBytes p.1 = sizeOfClusterBytes k := by
    obtain ⟨s, hs⟩ := fat16GetTotalItems_only h2
    rw [hs]
    rfl
  exact loadItems_ends (hsize ▸ hcsz) dir _ p.2

/-! ## A new item -/

/-- The requests for a new item: for its record first, and then for the record of its directory or
for the copy of its entry. -/
def secondRequest (k : Kernel) (size : Nat) : Addr := (kzalloc (kzalloc k.toKmem sizeofFatItem).1 size).2

theorem newItem_directory_ends (hcsz : 0 < sizeOfClusterBytes k)
    (he : ∀ k', FatKeeps k k' → readBytes k'.mem item sizeofFatDirectoryItem = e) (hdir : IsDirectory e) :
    (∃ r, fat16NewFatItemForDirectoryItem k item = some r) ↔ (kzalloc k.toKmem sizeofFatItem).2 = 0 ∨
      secondRequest k sizeofFatDirectory = 0 ∨ ScanEnds k.disk (scanStart k e) := by
  obtain ⟨⟨m1, fi⟩, h1⟩ : ∃ r, kzalloc k.toKmem sizeofFatItem = r := ⟨_, rfl⟩
  have hk1 := (FatKeeps.refl k).alloc sizeofFatItem
  unfold fat16NewFatItemForDirectoryItem secondRequest
  rw [Kernel.onKmem_eq h1] at hk1 ⊢
  rw [h1]
  dsimp only at hk1 ⊢
  by_cases h0 : fi = 0
  · rw [if_pos h0]
    exact ⟨fun _ => Or.inl h0, fun _ => ⟨_, rfl⟩⟩
  have hattr := (itemAttribute_eq (he _ hk1)).mpr hdir
  rw [if_neg h0, or_iff_right h0, if_pos hattr]
  have hload : _ ↔ _ ∨ ScanEnds k.disk (scanStart k e) :=
    loadFatDirectory_ends (k := { k with toKmem := m1 }) hcsz (fun k' hk' => he k' (hk1.trans hk')) hdir
  rw [← hload]
  exact bind_ends fun p _ => ⟨_, rfl⟩

theorem readBytes_storeBytes {p : Addr} {bs : List Byte} (hlen : bs.length ≤ 2 ^ 32) :
    readBytes (storeBytes m p bs) p bs.length = bs := by
  refine List.ext_getElem (length_readBytes _ _ _) fun i hi hi' => ?_
  rw [← List.getD_eq_getElem _ 0 hi, readBytes_getD hi', storeBytes_at hi' hlen]

theorem finishItem_copy {f : Addr}
    (he : readBytes (kzalloc k.toKmem sizeofFatDirectoryItem).1.mem item sizeofFatDirectoryItem = e)
    (hc : (kzalloc k.toKmem sizeofFatDirectoryItem).2 ≠ 0) :
    ((finishItem k f item).fatItems f).item = (kzalloc k.toKmem sizeofFatDirectoryItem).2 ∧
      readBytes (finishItem k f item).mem ((finishItem k f item).fatItems f).item sizeofFatDirectoryItem = e := by
  unfold finishItem fat16CloneDirectoryItem
  rw [if_neg (by decide)]
  obtain ⟨⟨m1, copy⟩, h1⟩ : ∃ r, kzalloc k.toKmem sizeofFatDirectoryItem = r := ⟨_, rfl⟩
  rw [Kernel.onKmem_eq (k := k.setItem f fun f => { f with type := fatItemTypeFile }) h1]
  rw [h1] at he hc ⊢
  dsimp only at he hc ⊢
  have hlen : e.length = sizeofFatDirectoryItem := by rw [← he, length_readBytes]
  rw [if_neg hc]
  simp only [Kernel.setItem_self]
  refine ⟨trivial, ?_⟩
  show readBytes (storeBytes m1.mem copy (readBytes m1.mem item sizeofFatDirectoryItem)) copy
    sizeofFatDirectoryItem = e
  rw [he, ← hlen]
  exact readBytes_storeBytes (by rw [hlen]; decide)

theorem finishItem_no_copy {f : Addr} (hc : (kzalloc k.toKmem sizeofFatDirectoryItem).2 = 0) :
    ((finishItem k f item).fatItems f).item = 0 := by
  unfold finishItem fat16CloneDirectoryItem
  rw [if_neg (by decide)]
  obtain ⟨⟨m1, copy⟩, h1⟩ : ∃ r, kzalloc k.toKmem sizeofFatDirectoryItem = r := ⟨_, rfl⟩
  rw [Kernel.onKmem_eq (k := k.setItem f fun f => { f with type := fatItemTypeFile }) h1]
  rw [h1] at hc
  dsimp only at hc ⊢
  rw [if_pos hc]
  simp only [Kernel.setItem_self]

theorem finishItem_itemFor {f : Addr} (h0 : f ≠ 0) (htype : ((finishItem k f item).fatItems f).type = fatItemTypeFile)
    (he : readBytes (kzalloc k.toKmem sizeofFatDirectoryItem).1.mem item sizeofFatDirectoryItem = e)
    (hfile : ¬ IsDirectory e) :
    ItemFor (finishItem k f item) f e ↔ (kzalloc k.toKmem sizeofFatDirectoryItem).2 ≠ 0 := by
  constructor
  · intro h hc
    exact (h.copy hfile).1 (finishItem_no_copy hc)
  · intro hc
    obtain ⟨hitem, hbytes⟩ := finishItem_copy (f := f) he hc
    refine ⟨h0, ?_, fun _ => ⟨hitem ▸ hc, hbytes⟩⟩
    rw [htype]
    exact ⟨fun h => absurd h (by decide), fun h => absurd h hfile⟩

theorem newItem_file (he : ∀ k', FatKeeps k k' → readBytes k'.mem item sizeofFatDirectoryItem = e)
    (hfile : ¬ IsDirectory e) :
    ∃ k' f, fat16NewFatItemForDirectoryItem k item = some (k', f) ∧
      (ItemFor k' f e ↔ (kzalloc k.toKmem sizeofFatItem).2 ≠ 0 ∧ secondRequest k sizeofFatDirectoryItem ≠ 0) := by
  obtain ⟨⟨m1, f⟩, h1⟩ : ∃ r, kzalloc k.toKmem sizeofFatItem = r := ⟨_, rfl⟩
  have hk1 := (FatKeeps.refl k).alloc sizeofFatItem
  unfold fat16NewFatItemForDirectoryItem secondRequest
  rw [Kernel.onKmem_eq h1] at hk1 ⊢
  rw [h1]
  dsimp only at hk1 ⊢
  by_cases h0 : f = 0
  · rw [if_pos h0]
    exact ⟨_, _, rfl, fun h => absurd rfl h.ne_zero, fun h => absurd h0 h.1⟩
  have hattr : ¬ itemAttribute m1.mem item &&& fatFileSubdirectory ≠ 0 :=
    (itemAttribute_eq (he _ hk1)).not.mpr hfile
  have hf := fresh_of_eq h1 h0
  have htype := (finishItem_keeps item hk1 hf.isLive hf.not_live).2.type
  rw [if_neg h0, if_neg hattr, and_iff_right h0]
  exact ⟨finishItem { k with toKmem := m1 } f item, f, rfl,
    finishItem_itemFor h0 htype (he _ (hk1.alloc sizeofFatDirectoryItem)) hfile⟩

/-! ## The whole path -/

/-- The item that is found is a file, so it is the answer to a path of one component and no other. -/
theorem getDirectoryEntry_eq {n : Nat} (hn : 0 < n) (path : Addr) :
    fat16GetDirectoryEntry n k path =
      (fat16FindItemInDirectory k k.fs_private.root_directory (k.pathParts path).part).map fun r =>
        (r.1, if (k.pathParts path).next = 0 then r.2 else 0) := by
  unfold fat16GetDirectoryEntry
  cases hfind : fat16FindItemInDirectory k k.fs_private.root_directory (k.pathParts path).part with
  | none => rfl
  | some p =>
    obtain ⟨k1, r⟩ := p
    obtain ⟨hk1, hitem⟩ := fat16FindItem_keeps hfind
    have hparts : k1.pathParts = k.pathParts := by
      obtain ⟨_, _, _, _, _, rfl, hv⟩ := hk1.only
      rfl
    rw [Option.bind_eq_bind, Option.bind_some, Option.map_some]
    dsimp only
    by_cases h0 : r = 0
    · rw [if_pos h0, h0, ite_self]
      rfl
    · obtain ⟨n, rfl⟩ : ∃ n', n = n' + 1 := ⟨n - 1, by omega⟩
      have htype : (k1.fatItems r).type ≠ fatItemTypeDirectory := by
        rw [(hitem h0).type]
        decide
      unfold directoryEntryLoop
      rw [if_neg h0, hparts, if_pos htype]
      split <;> rfl

theorem findItem_none (h : RootDirectory k root) (hc : NoNul c) (htext : Text k.mem name c)
    (hno : ∀ e ∈ root, ¬ SameName (entryName e) c) :
    fat16FindItemInDirectory k k.fs_private.root_directory name = some (k, 0) := by
  unfold fat16FindItemInDirectory
  rw [h.total]
  exact findItemLoop_none h hc htext (by simp) 0 fun j hj _ => hno _ (List.getElem_mem hj)

theorem findItem_found (h : RootDirectory k root) (hc : NoNul c) (hlive : k.heap.Live name) (htext : Text k.mem name c)
    (he : e ∈ root) (hname : SameName (entryName e) c) :
    ∃ item, (∀ k', FatKeeps k k' → readBytes k'.mem item sizeofFatDirectoryItem = e) ∧
      fat16FindItemInDirectory k k.fs_private.root_directory name = fat16NewFatItemForDirectoryItem k item := by
  obtain ⟨j, hj, rfl⟩ := List.getElem_of_mem he
  refine ⟨itemAt k.fs_private.root_directory.item j, fun k' hk' => ?_, ?_⟩
  · rw [readBytes_agree (h.agree hk'.keeps hj) (by decide), h.entries j hj]
  · unfold fat16FindItemInDirectory
    rw [h.total]
    exact findItemLoop_found h hc hlive htext (by simp) (Nat.zero_le j) hj hname 0

/-- The path names nothing, and the scan of the subdirectory it starts with, if it starts with one,
ends or is not come to. Or the path is one component that names a file, and there is memory for
its item. -/
def Found (k : Kernel) (root : List Entry) (c : List Byte) (cs : List (List Byte)) : Prop :=
  ((¬ ∃ e, Resolves k root (c :: cs) e) ∧ ∀ e ∈ root, SameName (entryName e) c → IsDirectory e →
    (kzalloc k.toKmem sizeofFatItem).2 = 0 ∨ secondRequest k sizeofFatDirectory = 0 ∨
      ScanEnds k.disk (scanStart k e)) ∨
  (cs = [] ∧ (∃ e ∈ root, SameName (entryName e) c ∧ ¬ IsDirectory e) ∧
    (kzalloc k.toKmem sizeofFatItem).2 ≠ 0 ∧ secondRequest k sizeofFatDirectoryItem ≠ 0)

theorem Listing.unique_mem (h : Listing root) {e' : Entry} (he : e ∈ root) (he' : e' ∈ root)
    (hc : SameName (entryName e) c) (hc' : SameName (entryName e') c) : e = e' := by
  obtain ⟨i, hi, rfl⟩ := List.getElem_of_mem he
  obtain ⟨j, hj, rfl⟩ := List.getElem_of_mem he'
  obtain rfl := h.unique hi hj hc hc'
  rfl

theorem resolves_single {target : Entry} :
    Resolves k root [c] target ↔ target ∈ root ∧ SameName (entryName target) c := by
  constructor
  · intro h
    cases h with
    | last he hn => exact ⟨he, hn⟩
    | descend _ _ _ _ h => nomatch h
  · exact fun h => .last h.1 h.2

theorem Resolves.first {cs : List (List Byte)} {target : Entry} (h : Resolves k root (c :: cs) target) :
    ∃ e ∈ root, SameName (entryName e) c ∧ (cs ≠ [] → IsDirectory e) := by
  cases h with
  | last he hn => exact ⟨_, he, hn, fun h => absurd rfl h⟩
  | descend he hn hd _ _ => exact ⟨_, he, hn, fun _ => hd⟩

variable {cs : List (List Byte)} {path : Addr} {n : Nat}

theorem exact_of_absent (hroot : RootDirectory k root) (hc : NoNul c) (hparts : Parts k path (c :: cs)) (hn : 0 < n)
    (hno : ∀ e ∈ root, ¬ SameName (entryName e) c) :
    LookupExact k root (c :: cs) (fat16GetDirectoryEntry n k path) := by
  have hnone : ¬ ∃ e, Resolves k root (c :: cs) e := by
    rintro ⟨target, h⟩
    obtain ⟨e, he, hname, -⟩ := h.first
    exact hno e he hname
  rw [getDirectoryEntry_eq hn, findItem_none hroot hc hparts.2.1 hno, Option.map_some, ite_self]
  exact ⟨k, 0, rfl, fun e h => absurd ⟨e, h⟩ hnone, fun _ => rfl⟩

theorem exact_file_iff (hroot : RootDirectory k root) (hc : NoNul c) (hparts : Parts k path (c :: cs))
    (hlive : k.heap.Live (k.pathParts path).part) (hn : 0 < n) (he : e ∈ root) (hname : SameName (entryName e) c)
    (hfile : ¬ IsDirectory e) :
    LookupExact k root (c :: cs) (fat16GetDirectoryEntry n k path) ↔
      (cs = [] → (kzalloc k.toKmem sizeofFatItem).2 ≠ 0 ∧ secondRequest k sizeofFatDirectoryItem ≠ 0) := by
  obtain ⟨item, hbytes, hfind⟩ := findItem_found hroot hc hlive hparts.2.1 he hname
  obtain ⟨k', f, hnew, hitem⟩ := newItem_file hbytes hfile
  have hcall : fat16GetDirectoryEntry n k path = some (k', if (k.pathParts path).next = 0 then f else 0) := by
    rw [getDirectoryEntry_eq hn, hfind, hnew, Option.map_some]
  rw [hcall, ← hitem]
  have hnext := hparts.2.2
  cases cs with
  | nil =>
    have hnext : (k.pathParts path).next = 0 := hnext
    rw [if_pos hnext]
    constructor
    · rintro ⟨_, _, heq, hfound, -⟩ -
      cases heq
      exact hfound e (.last he hname)
    · intro h
      refine ⟨k', f, rfl, fun e' h' => ?_, fun hnone => absurd ⟨e, .last he hname⟩ hnone⟩
      obtain ⟨he', hname'⟩ := resolves_single.mp h'
      rw [hroot.listing.unique_mem he' he hname' hname]
      exact h rfl
  | cons c' cs =>
    have hnone : ¬ ∃ e, Resolves k root (c :: c' :: cs) e := by
      rintro ⟨target, h⟩
      obtain ⟨e', he', hname', hdir⟩ := h.first
      rw [hroot.listing.unique_mem he' he hname' hname] at hdir
      exact hfile (hdir (by simp))
    rw [if_neg hnext.1]
    exact ⟨fun _ h => (by simp at h), fun _ => ⟨k', 0, rfl, fun e h => absurd ⟨e, h⟩ hnone, fun _ => rfl⟩⟩

theorem exact_directory_iff (hcsz : 0 < sizeOfClusterBytes k) (hroot : RootDirectory k root) (hc : NoNul c)
    (hparts : Parts k path (c :: cs)) (hlive : k.heap.Live (k.pathParts path).part) (hn : 0 < n) (he : e ∈ root)
    (hname : SameName (entryName e) c) (hdir : IsDirectory e) :
    LookupExact k root (c :: cs) (fat16GetDirectoryEntry n k path) ↔ (¬ ∃ e, Resolves k root (c :: cs) e) ∧
      ((kzalloc k.toKmem sizeofFatItem).2 = 0 ∨ secondRequest k sizeofFatDirectory = 0 ∨
        ScanEnds k.disk (scanStart k e)) := by
  obtain ⟨item, hbytes, hfind⟩ := findItem_found hroot hc hlive hparts.2.1 he hname
  rw [← newItem_directory_ends hcsz hbytes hdir, getDirectoryEntry_eq hn, hfind]
  have hnext := hparts.2.2
  constructor
  · rintro ⟨k', r, hcall, hfound, hnull⟩
    obtain ⟨⟨k1, f⟩, hnew, heq⟩ := Option.map_eq_some_iff.mp hcall
    refine ⟨?_, _, hnew⟩
    cases heq
    rintro ⟨target, htarget⟩
    have hitem := hfound target htarget
    cases cs with
    | nil =>
      have hnext : (k.pathParts path).next = 0 := hnext
      rw [if_pos hnext] at hitem
      -- the item is a file
      obtain ⟨he', hname'⟩ := resolves_single.mp htarget
      have htype := hitem.type.mpr (by rwa [hroot.listing.unique_mem he' he hname' hname])
      rw [((fat16NewFatItem_keeps hnew).2 hitem.ne_zero).type] at htype
      exact absurd htype (by decide)
    | cons c' cs =>
      exact hitem.ne_zero (if_neg hnext.1)
  · rintro ⟨hnone, ⟨k1, f⟩, hnew⟩
    rw [hnew, Option.map_some]
    refine ⟨k1, _, rfl, fun e h => absurd ⟨e, h⟩ hnone, fun _ => ?_⟩
    cases cs with
    | nil => exact absurd ⟨e, .last he hname⟩ hnone
    | cons c' cs => exact if_neg hnext.1

/-- For every root directory, whatever lies below it, and every path: the call returns what the path
names exactly where no subdirectory is on the way. -/
theorem lookup_exact_iff (hsec : k.disk.sector_size = 512) (hspc : 0 < clusterBytes k) (hroot : RootDirectory k root)
    (hc : NoNul c) (hparts : Parts k path (c :: cs)) (hlive : k.heap.Live (k.pathParts path).part)
    (hn : cs.length < n) :
    LookupExact k root (c :: cs) (fat16GetDirectoryEntry n k path) ↔ Found k root c cs := by
  have hcsz : 0 < sizeOfClusterBytes k := by
    rw [sizeOfClusterBytes_eq hsec]
    exact_mod_cast hspc
  have hn : 0 < n := by omega
  unfold Found
  by_cases hex : ∃ e ∈ root, SameName (entryName e) c
  · obtain ⟨e, he, hname⟩ := hex
    have hsame : ∀ e' ∈ root, SameName (entryName e') c → e' = e := fun e' he' hname' =>
      hroot.listing.unique_mem he' he hname' hname
    by_cases hdir : IsDirectory e
    · rw [exact_directory_iff hcsz hroot hc hparts hlive hn he hname hdir]
      constructor
      · rintro ⟨hnone, hends⟩
        exact Or.inl ⟨hnone, fun e' he' hname' _ => hsame e' he' hname' ▸ hends⟩
      · rintro (⟨hnone, hends⟩ | ⟨-, ⟨e', he', hname', hfile⟩, -⟩)
        · exact ⟨hnone, hends e he hname hdir⟩
        · exact absurd (hsame e' he' hname' ▸ hdir) hfile
    · rw [exact_file_iff hroot hc hparts hlive hn he hname hdir]
      constructor
      · intro hmem
        cases cs with
        | nil => exact Or.inr ⟨rfl, ⟨e, he, hname, hdir⟩, hmem rfl⟩
        | cons c' cs =>
          refine Or.inl ⟨?_, fun e' he' hname' hdir' => absurd (hsame e' he' hname' ▸ hdir') hdir⟩
          rintro ⟨target, h⟩
          obtain ⟨e', he', hname', hdir'⟩ := h.first
          exact hdir (hsame e' he' hname' ▸ hdir' (by simp))
      · rintro (⟨hnone, -⟩ | ⟨-, -, hmem⟩) hcs
        · subst hcs
          exact absurd ⟨e, .last he hname⟩ hnone
        · exact hmem
  · push Not at hex
    refine iff_of_true (exact_of_absent hroot hc hparts hn hex) (Or.inl ⟨?_, fun e he hname => absurd hname (hex e he)⟩)
    rintro ⟨target, h⟩
    obtain ⟨e, he, hname, -⟩ := h.first
    exact hex e he hname

/-! ## A root with one entry -/

/-- The record of the path `A` is at 1. -/
def oneEntry (e : Entry) : Kernel :=
  let (k, items) := emptyKernel.onKmem (kzalloc · sizeofFatDirectoryItem)
  let (k, buf) := k.onKmem (kzalloc · maxPath)
  { k with
    mem := storeBytes (storeBytes k.mem items e) buf [0x41]
    pathParts := Function.update k.pathParts 1 ⟨buf, 0⟩
    fs_private := { k.fs_private with
      header := ⟨1, 1, 1, 1, 1⟩
      root_directory := ⟨items, 1, 2, 2⟩ } }

theorem rootDirectory_singleton {e : Entry} (he : WellNamed e) (htotal : k.fs_private.root_directory.total = 1)
    (hblock : (⟨k.fs_private.root_directory.item, sizeofFatDirectoryItem⟩ : Block) ∈ k.heap.live)
    (hread : readBytes k.mem (itemAt k.fs_private.root_directory.item 0) sizeofFatDirectoryItem = e) :
    RootDirectory k [e] := by
  refine ⟨⟨fun e' he' => ?_, List.pairwise_singleton _ _⟩, htotal, ⟨_, hblock, le_rfl⟩, fun i hi => ?_⟩
  · obtain rfl := List.mem_singleton.mp he'
    exact he
  · obtain rfl : i = 0 := by simpa using hi
    exact hread

theorem rootDirectory_entryA : RootDirectory (oneEntry entryA) [entryA] :=
  rootDirectory_singleton ⟨by decide, by decide, by decide, by decide⟩ rfl (by decide +kernel) (by decide +kernel)

theorem parts_oneEntry : Parts (oneEntry entryA) 1 [[0x41]] :=
  ⟨by decide, ⟨by decide, by decide +kernel⟩,
    show ((oneEntry entryA).pathParts 1).next = 0 by decide +kernel⟩

theorem lookup_exact_entryA :
    LookupExact (oneEntry entryA) [entryA] [[0x41]] (fat16GetDirectoryEntry 1 (oneEntry entryA) 1) ↔
      Found (oneEntry entryA) [entryA] [0x41] [] :=
  lookup_exact_iff rfl (by decide) rootDirectory_entryA (by unfold NoNul; decide) parts_oneEntry
    ⟨maxPath, by decide +kernel⟩ (by decide)

def subdirectoryA : Entry := entryA.set 11 fatFileSubdirectory

/-- The item for a subdirectory is a file. -/
theorem subdirectory_is_file :
    ¬ LookupExact (oneEntry subdirectoryA) [subdirectoryA] [[0x41]]
      (fat16GetDirectoryEntry 1 (oneEntry subdirectoryA) 1) := by
  have h : (fat16GetDirectoryEntry 1 (oneEntry subdirectoryA) 1).map (fun r => (r.1.fatItems r.2).type) =
      some fatItemTypeFile := by decide +kernel
  rintro ⟨k', item, heq, hfound, -⟩
  rw [heq, Option.map_some, Option.some.injEq] at h
  have hitem := hfound subdirectoryA (.last (List.mem_singleton_self _) (show _ = _ by decide))
  have htype := hitem.type.mpr (show _ ≠ _ by decide)
  rw [h] at htype
  exact absurd htype (by decide)

end MultitaskOs.FatLookup
