import MultitaskOs.Code.Paging
import MultitaskOs.Kheap
import MultitaskOs.Lib.Bits

/-!
# Page directories

A directory is two levels of words in memory; what it means is one entry for
each of the 2^20 virtual pages. The mapping functions compute on that meaning.
-/

open Lib Lib.Memory Lib.Arena Lib.Run

namespace MultitaskOs.Paging

/-! ## Words of a page -/

theorem toNat_index32 {a : Addr} {i : Nat} (ha : a.toNat % 4096 = 0) (hi : i < 1024) :
    (index32 a i).toNat = a.toNat + 4 * i := by
  unfold index32
  bv_omega

theorem pages_apart {a b : Addr} (ha : a.toNat % 4096 = 0) (hb : b.toNat % 4096 = 0) (h : a ≠ b) :
    Apart a 4096 b 4096 := by
  have hne : a.toNat ≠ b.toNat := fun he => h (BitVec.eq_of_toNat_eq he)
  exact apart_of_le (by omega) (by omega) (by omega) (by omega) (by omega)

theorem words_apart {a b : Addr} {i j : Nat} (ha : a.toNat % 4096 = 0) (hb : b.toNat % 4096 = 0)
    (hi : i < 1024) (hj : j < 1024) (h : a ≠ b ∨ i ≠ j) :
    Apart (index32 a i) 4 (index32 b j) 4 := by
  have h1 := toNat_index32 ha hi
  have h2 := toNat_index32 hb hj
  have hne : a.toNat ≠ b.toNat ∨ i ≠ j :=
    h.imp_left fun h he => h (BitVec.eq_of_toNat_eq he)
  exact apart_of_le (by omega) (by omega) (by omega) (by omega) (by omega)

theorem word_apart_page {a b : Addr} {i : Nat} (ha : a.toNat % 4096 = 0) (hb : b.toNat % 4096 = 0)
    (hi : i < 1024) (h : a ≠ b) : Apart (index32 a i) 4 b 4096 := by
  have h1 := toNat_index32 ha hi
  have hne : a.toNat ≠ b.toNat := fun he => h (BitVec.eq_of_toNat_eq he)
  exact apart_of_le (by omega) (by omega) (by omega) (by omega) (by omega)

theorem agree_word {m m' : Mem} {a : Addr} {i : Nat} (h : Agree m m' a 4096) (hi : i < 1024) :
    load32 m' (index32 a i) = load32 m (index32 a i) := by
  apply Agree.load32
  apply h.sub
  unfold index32
  bv_omega

theorem tableAddress_or {a f : BitVec 32} (ha : a.toNat % 4096 = 0) (hf : f.toNat < 4096) :
    tableAddress (a ||| f) = a :=
  Lib.Bits.or_and_high_mask (k := 12) ha hf

/-! ## A directory in memory -/

def blocksOf (chunk directory : Addr) (table : Nat → Addr) : List Addr :=
  chunk :: directory :: (List.range 1024).map table

/-- Where a directory keeps its words: pages of its own, no two of them the same. -/
structure PageDir where
  chunk : Addr
  directory : Addr
  table : Nat → Addr
  aligned : ∀ b ∈ blocksOf chunk directory table, b.toNat % 4096 = 0
  nodup : (blocksOf chunk directory table).Nodup

namespace PageDir

variable (d : PageDir)

def blocks : List Addr := blocksOf d.chunk d.directory d.table

def slot (p : Nat) : Addr := index32 (d.table (p / 1024)) (p % 1024)

def entry (m : Mem) (p : Nat) : BitVec 32 := load32 m (d.slot p)

/-- The memory holds the directory's pointers. -/
structure Holds (m : Mem) : Prop where
  chunk : load32 m d.chunk = d.directory
  tables : ∀ i < 1024, tableAddress (load32 m (index32 d.directory i)) = d.table i

variable {d} {m m' : Mem}

theorem chunk_mem : d.chunk ∈ d.blocks := List.mem_cons_self

theorem directory_mem : d.directory ∈ d.blocks := List.mem_cons_of_mem _ List.mem_cons_self

theorem table_mem {i : Nat} (hi : i < 1024) : d.table i ∈ d.blocks :=
  List.mem_cons_of_mem _ (List.mem_cons_of_mem _ (List.mem_map_of_mem (List.mem_range.mpr hi)))

theorem chunk_ne_table {i : Nat} (hi : i < 1024) : d.chunk ≠ d.table i := by
  intro h
  have := d.nodup
  rw [blocksOf, List.nodup_cons] at this
  exact this.1 (h ▸ List.mem_cons_of_mem _ (List.mem_map_of_mem (List.mem_range.mpr hi)))

theorem directory_ne_table {i : Nat} (hi : i < 1024) : d.directory ≠ d.table i := by
  intro h
  have := d.nodup
  rw [blocksOf, List.nodup_cons, List.nodup_cons] at this
  exact this.2.1 (h ▸ List.mem_map_of_mem (List.mem_range.mpr hi))

theorem table_injective {i j : Nat} (hi : i < 1024) (hj : j < 1024) (h : d.table i = d.table j) :
    i = j := by
  have := d.nodup
  rw [blocksOf, List.nodup_cons, List.nodup_cons] at this
  exact List.inj_on_of_nodup_map this.2.2 (List.mem_range.mpr hi) (List.mem_range.mpr hj) h

/-! ## What leaves a directory alone -/

theorem Holds.frame (h : d.Holds m) (hag : ∀ b ∈ d.blocks, Agree m m' b 4096) : d.Holds m' := by
  constructor
  · have := agree_word (i := 0) (hag _ chunk_mem) (by omega)
    simp only [index32, Nat.mul_zero, BitVec.add_zero] at this
    rw [this, h.chunk]
  · intro i hi
    rw [agree_word (hag _ directory_mem) hi, h.tables i hi]

theorem entry_frame (hag : ∀ b ∈ d.blocks, Agree m m' b 4096) {p : Nat} (hp : p < 2 ^ 20) :
    d.entry m' p = d.entry m p :=
  agree_word (hag _ (table_mem (by omega))) (by omega)

/-! ## One entry -/

theorem slot_apart_slot {p q : Nat} (hp : p < 2 ^ 20) (hq : q < 2 ^ 20) (h : p ≠ q) :
    Apart (d.slot p) 4 (d.slot q) 4 := by
  have h1 : p / 1024 < 1024 := by omega
  have h2 : q / 1024 < 1024 := by omega
  apply words_apart (d.aligned _ (table_mem h1)) (d.aligned _ (table_mem h2)) (by omega) (by omega)
  by_cases hpq : p / 1024 = q / 1024
  · right
    omega
  · left
    exact fun he => hpq (table_injective h1 h2 he)

theorem slot_apart_page {p : Nat} (hp : p < 2 ^ 20) {b : Addr} (hb : b.toNat % 4096 = 0)
    (hne : ∀ i < 1024, d.table i ≠ b) : Apart (d.slot p) 4 b 4096 :=
  word_apart_page (d.aligned _ (table_mem (by omega))) hb (by omega) (hne _ (by omega))

theorem not_within_slot {p : Nat} (hp : p < 2 ^ 20) {x : Addr} (hx : ∀ i < 1024, ¬ Within (d.table i) 4096 x) :
    ¬ Within (d.slot p) 4 x := by
  intro hw
  have ha := d.aligned _ (d.table_mem (i := p / 1024) (by omega))
  apply hx (p / 1024) (by omega)
  unfold slot index32 Within at *
  bv_omega

theorem Holds.set (h : d.Holds m) {p : Nat} (hp : p < 2 ^ 20) (v : BitVec 32) :
    d.Holds (store32 m (d.slot p) v) := by
  have hc : Agree m (store32 m (d.slot p) v) d.chunk 4096 :=
    agree_store32 (slot_apart_page hp (d.aligned _ chunk_mem) fun i hi he => chunk_ne_table hi he.symm)
  have hd : Agree m (store32 m (d.slot p) v) d.directory 4096 :=
    agree_store32 (slot_apart_page hp (d.aligned _ directory_mem)
      fun i hi he => directory_ne_table hi he.symm)
  constructor
  · have := agree_word (i := 0) hc (by omega)
    simp only [index32, Nat.mul_zero, BitVec.add_zero] at this
    rw [this, h.chunk]
  · intro i hi
    rw [agree_word hd hi, h.tables i hi]

theorem entry_set {p q : Nat} (hp : p < 2 ^ 20) (hq : q < 2 ^ 20) (v : BitVec 32) :
    d.entry (store32 m (d.slot p) v) q = if q = p then v else d.entry m q := by
  split
  · rename_i h
    rw [h, entry, load32_store32]
  · rename_i h
    exact load32_store32_apart (slot_apart_slot hp hq fun he => h he.symm)

/-- The directory is in memory, on live pages. -/
structure In (d : PageDir) (k : Kmem) : Prop where
  holds : d.Holds k.mem
  live : ∀ b ∈ d.blocks, k.heap.Live b

theorem In.keeps {k k' : Kmem} (h : d.In k) (hk : k.Keeps k') : d.In k' :=
  ⟨h.holds.frame fun b hb => hk.page (h.live b hb), fun b hb => hk.isLive (h.live b hb)⟩

theorem In.entry_keeps {k k' : Kmem} (h : d.In k) (hk : k.Keeps k') {p : Nat} (hp : p < 2 ^ 20) :
    d.entry k'.mem p = d.entry k.mem p :=
  entry_frame (fun b hb => hk.page (h.live b hb)) hp

end PageDir

/-! ## Building a directory -/

theorem fillTable_spec {entry : Addr} (ha : entry.toNat % 4096 = 0) (offset flags : BitVec 32)
    (m : Mem) :
    (∀ b < 1024, load32 (pagingFillTable entry offset flags m) (index32 entry b) =
      (offset + BitVec.ofNat 32 (b * 4096)) ||| flags) ∧
    ∀ x, ¬ Within entry 4096 x → pagingFillTable entry offset flags m x = m x := by
  unfold pagingFillTable
  apply forN_of_inv fun i (m' : Mem) =>
    (∀ b < i, load32 m' (index32 entry b) = (offset + BitVec.ofNat 32 (b * 4096)) ||| flags) ∧
      ∀ x, ¬ Within entry 4096 x → m' x = m x
  · exact ⟨by simp, fun _ _ => rfl⟩
  · rintro i m' hi ⟨hfill, hout⟩
    have hi' : i < 1024 := hi
    constructor
    · intro b hb
      by_cases hbi : b = i
      · rw [hbi, load32_store32]
        rfl
      · rw [load32_store32_apart (words_apart ha ha hi' (by omega) (Or.inr (Ne.symm hbi)))]
        exact hfill b (by omega)
    · intro x hx
      rw [← hout x hx]
      apply store32_of_not_within
      intro hw
      apply hx
      unfold Within index32 at *
      bv_omega

/-- The loop of `paging_new_4gb` after `i` turns, none of which failed. -/
structure Built (k : Kmem) (directory : Addr) (flags : BitVec 32) (table : Nat → Addr) (i : Nat)
    (s : Kmem × BitVec 32) : Prop where
  offset_eq : s.2 = BitVec.ofNat 32 (2 ^ 22 * i)
  keeps : k.Keeps s.1
  dir_live : ⟨directory, 4096⟩ ∈ s.1.heap.live
  dir_new : ¬ k.heap.Live directory
  tables : ∀ j < i, ⟨table j, 4096⟩ ∈ s.1.heap.live ∧ ¬ k.heap.Live (table j) ∧ table j ≠ directory
  distinct : ∀ j < i, ∀ l < i, table j = table l → j = l
  pointer : ∀ j < i, load32 s.1.mem (index32 directory j) = table j ||| flags ||| pagingIsWriteable
  entries : ∀ j < i, ∀ b < 1024,
    load32 s.1.mem (index32 (table j) b) = BitVec.ofNat 32 (4096 * (1024 * j + b)) ||| flags

theorem extent_page : extent blockSize 4096 = 4096 := by decide

theorem newTable_failures_le (directory : Addr) (flags : BitVec 32) (i : Nat) (s : Kmem × BitVec 32) :
    s.1.heap.failures ≤ (pagingNewTable directory flags i s).1.heap.failures :=
  kzalloc_failures_le s.1 _

/-- The page of the table is filled before the directory is given its pointer. -/
theorem newTable_turn {k0 : Kmem} (directory : Addr) (flags offset : BitVec 32) (i : Nat)
    (hf : Fresh k0 (kzalloc k0 4096).1 (kzalloc k0 4096).2 4096) : ∃ m2,
      pagingNewTable directory flags i (k0, offset) = ({ (kzalloc k0 4096).1 with
        mem := store32 m2 (index32 directory i) ((kzalloc k0 4096).2 ||| flags ||| pagingIsWriteable) },
        offset + BitVec.ofNat 32 (2 ^ 22)) ∧
      k0.Keeps { (kzalloc k0 4096).1 with mem := m2 } ∧ ∀ b < 1024,
        load32 m2 (index32 (kzalloc k0 4096).2 b) = (offset + BitVec.ofNat 32 (b * 4096)) ||| flags := by
  obtain ⟨hfill, hout⟩ := fillTable_spec (Kmem.live_aligned hf.isLive) offset flags (kzalloc k0 4096).1.mem
  refine ⟨_, rfl, ?_, hfill⟩
  refine hf.keeps.store hf.mem_live hf.not_live fun x hx => hout x ?_
  rwa [extent_page] at hx

theorem keeps_store_word {k k' : Kmem} {a : Addr} {i : Nat} {w : BitVec 32} (h : k.Keeps k')
    (hb : ⟨a, 4096⟩ ∈ k'.heap.live) (hnew : ¬ k.heap.Live a) (hi : i < 1024) :
    k.Keeps { k' with mem := store32 k'.mem (index32 a i) w } := by
  refine h.store hb hnew fun x hx => store32_of_not_within fun hw => hx ?_
  rw [extent_page]
  unfold Within index32 at *
  simp only at *
  bv_omega

theorem Built.step {k : Kmem} {directory : Addr} {flags : BitVec 32} {table : Nat → Addr} {i : Nat}
    {s : Kmem × BitVec 32} (h : Built k directory flags table i s) (hi : i < 1024)
    (hok : (pagingNewTable directory flags i s).1.heap.failures = s.1.heap.failures) :
    ∃ table', Built k directory flags table' (i + 1) (pagingNewTable directory flags i s) ∧
      table' i = (kzalloc s.1 4096).2 ∧ ∀ j ≠ i, table' j = table j := by
  obtain ⟨k0, offset⟩ := s
  have hfresh : Fresh k0 (kzalloc k0 4096).1 (kzalloc k0 4096).2 4096 := kzalloc_ok _ hok
  obtain ⟨m2, hres, hkeep2, hfill⟩ := newTable_turn directory flags offset i hfresh
  rw [hres]
  generalize kzalloc k0 4096 = r at *
  obtain ⟨k1, entry⟩ := r
  dsimp only at *
  have hea := Kmem.live_aligned hfresh.isLive
  have hda := Kmem.live_aligned (k := k0) ⟨_, h.dir_live⟩
  have hoff : offset = BitVec.ofNat 32 (2 ^ 22 * i) := h.offset_eq
  have hne : ∀ a, k0.heap.Live a → a ≠ entry := fun a ha he => hfresh.not_live (he ▸ ha)
  have hdir : directory ≠ entry := hne _ ⟨_, h.dir_live⟩
  have hkeep := keeps_store_word (w := entry ||| flags ||| pagingIsWriteable) (h.keeps.trans hkeep2)
    (hkeep2.live _ h.dir_live) h.dir_new hi
  have hpage : ∀ {a}, k0.heap.Live a → Agree k0.mem m2 a 4096 := fun ha => hkeep2.page ha
  refine ⟨Function.update table i entry, ⟨?_, hkeep, hkeep2.live _ h.dir_live, h.dir_new, ?_, ?_, ?_, ?_⟩,
    Function.update_self _ _ _, fun j hj => Function.update_of_ne hj _ _⟩
  · rw [hoff, Nat.mul_succ, BitVec.ofNat_add]
  · intro j hj
    by_cases hji : j = i
    · subst hji
      rw [Function.update_self]
      exact ⟨hfresh.mem_live, fun he => hfresh.not_live (h.keeps.isLive he), hdir.symm⟩
    · rw [Function.update_of_ne hji]
      obtain ⟨h1, h2, h3⟩ := h.tables j (by omega)
      exact ⟨hkeep2.live _ h1, h2, h3⟩
  · have hold : ∀ j < i, table j ≠ entry := fun j hj => hne _ ⟨_, (h.tables j hj).1⟩
    intro j hj l hl he
    rw [Function.update_apply, Function.update_apply] at he
    split at he <;> split at he
    · omega
    · exact absurd he.symm (hold l (by omega))
    · exact absurd he (hold j (by omega))
    · exact h.distinct j (by omega) l (by omega) he
  · intro j hj
    by_cases hji : j = i
    · rw [hji, Function.update_self, load32_store32]
    · rw [Function.update_of_ne hji,
        load32_store32_apart (words_apart hda hda hi (by omega) (Or.inr (Ne.symm hji))),
        agree_word (hpage ⟨_, h.dir_live⟩) (by omega)]
      exact h.pointer j (by omega)
  · intro j hj b hb
    by_cases hji : j = i
    · rw [hji, Function.update_self, load32_store32_apart (words_apart hda hea hi hb (Or.inl hdir)),
        hfill b hb, hoff, ← BitVec.ofNat_add]
      congr 2
      ring
    · obtain ⟨h1, _, h3⟩ := h.tables j (by omega)
      have hta := Kmem.live_aligned (k := k0) ⟨_, h1⟩
      rw [Function.update_of_ne hji,
        load32_store32_apart (words_apart hda hta hi hb (Or.inl h3.symm)),
        agree_word (hpage ⟨_, h1⟩) hb]
      exact h.entries j (by omega) b hb

theorem newTables_failures_le (directory : Addr) (flags : BitVec 32) (n : Nat) (s : Kmem × BitVec 32) :
    s.1.heap.failures ≤ (forN n (pagingNewTable directory flags) s).1.heap.failures := by
  apply forN_of_inv (fun _ (s' : Kmem × BitVec 32) => s.1.heap.failures ≤ s'.1.heap.failures) le_rfl
  intro i s' _ h
  exact h.trans (newTable_failures_le directory flags i s')

theorem built_forN {k : Kmem} {directory : Addr} {flags : BitVec 32} {s : Kmem × BitVec 32}
    {table : Nat → Addr} (h0 : Built k directory flags table 0 s) {n : Nat} (hn : n ≤ 1024)
    (hok : (forN n (pagingNewTable directory flags) s).1.heap.failures = s.1.heap.failures) :
    ∃ table', Built k directory flags table' n (forN n (pagingNewTable directory flags) s) ∧
      (0 < n → table' 0 = (kzalloc s.1 4096).2) := by
  induction n with
  | zero =>
    rw [forN_zero]
    exact ⟨table, h0, nofun⟩
  | succ n ih =>
    rw [forN_succ] at hok ⊢
    have h1 := newTables_failures_le directory flags n s
    have h2 := newTable_failures_le directory flags n (forN n (pagingNewTable directory flags) s)
    obtain ⟨table', hb, hfirst⟩ := ih (by omega) (by omega)
    obtain ⟨table'', hb', hlast, hrest⟩ := hb.step (by omega) (by omega)
    refine ⟨table'', hb', fun _ => ?_⟩
    rcases Nat.eq_zero_or_pos n with rfl | hpos
    · rw [hlast, forN_zero]
    · rw [hrest 0 (by omega), hfirst hpos]

theorem pagingNew4gb_eq {k k1 : Kmem} {flags : BitVec 8} {directory : Addr} {s : Kmem × BitVec 32}
    (h1 : kzalloc k (4 * pagingTotalEntriesPerTable) = (k1, directory))
    (hs : forN pagingTotalEntriesPerTable (pagingNewTable directory (flags.setWidth 32)) (k1, 0) = s) :
    pagingNew4gb k flags =
      ({ (kzalloc s.1 4).1 with
          mem := store32 (kzalloc s.1 4).1.mem (kzalloc s.1 4).2 directory }, (kzalloc s.1 4).2) := by
  rw [pagingNew4gb, h1]
  simp only [hs]

theorem pagingNew4gb_failures {k k1 : Kmem} {directory : Addr} {s : Kmem × BitVec 32} (flags : BitVec 8)
    (h1 : kzalloc k (4 * pagingTotalEntriesPerTable) = (k1, directory))
    (hs : forN pagingTotalEntriesPerTable (pagingNewTable directory (flags.setWidth 32)) (k1, 0) = s) :
    k.heap.failures ≤ k1.heap.failures ∧ k1.heap.failures ≤ s.1.heap.failures ∧
      s.1.heap.failures ≤ (kzalloc s.1 4).1.heap.failures ∧
      (pagingNew4gb k flags).1.heap.failures = (kzalloc s.1 4).1.heap.failures := by
  refine ⟨?_, ?_, kzalloc_failures_le s.1 4, by rw [pagingNew4gb_eq h1 hs]⟩
  · have := kzalloc_failures_le k (4 * pagingTotalEntriesPerTable)
    rwa [h1] at this
  · have := newTables_failures_le directory (flags.setWidth 32) pagingTotalEntriesPerTable (k1, 0)
    rwa [hs] at this

theorem pagingNew4gb_failures_le (k : Kmem) (flags : BitVec 8) :
    k.heap.failures ≤ (pagingNew4gb k flags).1.heap.failures := by
  obtain ⟨h1, h2, h3, h4⟩ := pagingNew4gb_failures (k := k) flags rfl rfl
  omega

theorem newTables_spare {k : Kmem} {n j : Nat} {directory : Addr} {flags offset : BitVec 32}
    {s : Kmem × BitVec 32} (hs : forN j (pagingNewTable directory flags) (k, offset) = s)
    (h : Spare k (n + j)) : Spare s.1 n ∧ s.1.heap.failures = k.heap.failures := by
  induction j generalizing n s with
  | zero =>
    rw [← hs, forN_zero]
    exact ⟨h, rfl⟩
  | succ j ih =>
    obtain ⟨h1, h2⟩ := ih (n := n + 1) rfl (h.mono (by omega))
    obtain ⟨h3, h4⟩ := h1.kzalloc (4 * pagingTotalEntriesPerTable) (by decide)
    rw [← hs, forN_succ]
    exact ⟨⟨h3.bumped, h3.room⟩, h4.trans h2⟩

theorem pagingNew4gb_spare {k : Kmem} {n : Nat} (h : Spare k (n + 1026)) (flags : BitVec 8) :
    Spare (pagingNew4gb k flags).1 n ∧
      (pagingNew4gb k flags).1.heap.failures = k.heap.failures := by
  obtain ⟨⟨k1, directory⟩, h1⟩ : ∃ r, kzalloc k (4 * pagingTotalEntriesPerTable) = r := ⟨_, rfl⟩
  obtain ⟨s, hs⟩ : ∃ s, forN pagingTotalEntriesPerTable
      (pagingNewTable directory (flags.setWidth 32)) (k1, 0) = s := ⟨_, rfl⟩
  rw [pagingNew4gb_eq h1 hs]
  obtain ⟨hr1, hf1⟩ := Spare.kzalloc (n := n + 1025) h (4 * pagingTotalEntriesPerTable) (by decide)
  rw [h1] at hr1 hf1
  have hle : n + 1 + pagingTotalEntriesPerTable ≤ n + 1025 := by
    rw [pagingTotalEntriesPerTable]
  obtain ⟨hr2, hf2⟩ := newTables_spare (n := n + 1) hs (hr1.mono hle)
  obtain ⟨hr3, hf3⟩ := hr2.kzalloc 4 (by decide)
  exact ⟨⟨hr3.bumped, hr3.room⟩, hf3.trans (hf2.trans hf1)⟩

/-- What `paging_new_4gb` makes: a directory on new pages that maps every page to itself. -/
structure New (k k' : Kmem) (d : PageDir) (flags : BitVec 32) : Prop where
  keeps : k.Keeps k'
  inMem : d.In k'
  fresh : ∀ b ∈ d.blocks, ¬ k.heap.Live b
  entry : ∀ p < 2 ^ 20, d.entry k'.mem p = BitVec.ofNat 32 (4096 * p) ||| flags

theorem New.of_keeps {k0 k k' : Kmem} {d : PageDir} {flags : BitVec 32} (h : New k k' d flags)
    (hk : k0.Keeps k) : New k0 k' d flags :=
  ⟨hk.trans h.keeps, h.inMem, fun b hb hl => h.fresh b hb (hk.isLive hl), h.entry⟩

theorem Built.pageDir {k k0 k' : Kmem} {directory chunk : Addr} {flags offset : BitVec 32}
    {table : Nat → Addr} (h : Built k directory flags table 1024 (k0, offset))
    (hf : Fresh k0 k' chunk 4) (hflags : flags.toNat < 256) :
    ∃ d : PageDir, d.chunk = chunk ∧
      New k { k' with mem := store32 k'.mem chunk directory } d flags ∧ d.table = table := by
  have hne : ∀ a, k0.heap.Live a → chunk ≠ a := fun a ha he => hf.not_live (he ▸ ha)
  have hdl : k0.heap.Live directory := ⟨_, h.dir_live⟩
  have htl : ∀ j < 1024, k0.heap.Live (table j) := fun j hj => ⟨_, (h.tables j hj).1⟩
  have hmem : ∀ b, b ∈ blocksOf chunk directory table → b = chunk ∨ k0.heap.Live b := by
    intro b hb
    simp only [blocksOf, List.mem_cons, List.mem_map, List.mem_range] at hb
    rcases hb with hb | rfl | ⟨j, hj, rfl⟩
    · exact Or.inl hb
    · exact Or.inr hdl
    · exact Or.inr (htl j hj)
  have hkeep : k0.Keeps { k' with mem := store32 k'.mem chunk directory } := by
    refine hf.keeps.store hf.mem_live hf.not_live fun x hx => store32_of_not_within fun hw => hx ?_
    exact lt_of_lt_of_le hw (by decide : 4 ≤ extent blockSize 4)
  have haligned : ∀ b ∈ blocksOf chunk directory table, b.toNat % 4096 = 0 := by
    intro b hb
    rcases hmem b hb with rfl | hb
    · exact Kmem.live_aligned hf.isLive
    · exact Kmem.live_aligned hb
  have hnodup : (blocksOf chunk directory table).Nodup := by
    rw [blocksOf, List.nodup_cons, List.nodup_cons]
    refine ⟨?_, ?_, ?_⟩
    · intro hc
      simp only [List.mem_cons, List.mem_map, List.mem_range] at hc
      rcases hc with hc | ⟨j, hj, hc⟩
      · exact hne _ hdl hc
      · exact hne _ (htl j hj) hc.symm
    · simp only [List.mem_map, List.mem_range]
      rintro ⟨j, hj, hc⟩
      exact (h.tables j hj).2.2 hc
    · refine (List.nodup_map_iff_inj_on List.nodup_range).mpr fun j hj l hl he => ?_
      exact h.distinct j (List.mem_range.mp hj) l (List.mem_range.mp hl) he
  refine ⟨⟨chunk, directory, table, haligned, hnodup⟩, rfl, ⟨h.keeps.trans hkeep, ⟨⟨?_, ?_⟩, ?_⟩, ?_, ?_⟩, rfl⟩
  · exact load32_store32 _ _ _
  · intro i hi
    have ha := Kmem.live_aligned (htl i hi)
    rw [agree_word (hkeep.page hdl) hi, h.pointer i hi, BitVec.or_assoc]
    apply tableAddress_or ha
    rw [BitVec.toNat_or]
    exact Nat.or_lt_two_pow (n := 12) (by omega) (by decide)
  · intro b hb
    rcases hmem b hb with rfl | hb
    · exact hf.isLive
    · exact hkeep.isLive hb
  · intro b hb hl
    simp only [PageDir.blocks, blocksOf, List.mem_cons, List.mem_map, List.mem_range] at hb
    rcases hb with rfl | rfl | ⟨j, hj, rfl⟩
    · exact hf.not_live (h.keeps.isLive hl)
    · exact h.dir_new hl
    · exact (h.tables j hj).2.1 hl
  · intro p hp
    have hj : p / 1024 < 1024 := by omega
    have hpage : Agree k0.mem (store32 k'.mem chunk directory) (table (p / 1024)) 4096 :=
      hkeep.page (htl _ hj)
    rw [PageDir.entry, PageDir.slot, agree_word hpage (by omega), h.entries _ hj _ (by omega)]
    congr 3
    omega

theorem pagingNew4gb_built {k : Kmem} {flags : BitVec 8}
    (hok : (pagingNew4gb k flags).1.heap.failures = k.heap.failures) : ∃ directory s table,
    pagingNew4gb k flags =
      ({ (kzalloc s.1 4).1 with mem := store32 (kzalloc s.1 4).1.mem (kzalloc s.1 4).2 directory }, (kzalloc s.1 4).2) ∧
    Built k directory (flags.setWidth 32) table 1024 s ∧ Fresh s.1 (kzalloc s.1 4).1 (kzalloc s.1 4).2 4 ∧
    table 0 = (kzalloc (kzalloc k 4096).1 4096).2 := by
  obtain ⟨⟨k1, directory⟩, h1⟩ : ∃ r, kzalloc k (4 * pagingTotalEntriesPerTable) = r := ⟨_, rfl⟩
  obtain ⟨s, hs⟩ : ∃ s, forN pagingTotalEntriesPerTable
      (pagingNewTable directory (flags.setWidth 32)) (k1, 0) = s := ⟨_, rfl⟩
  obtain ⟨hf1, hf2, hf3, hf4⟩ := pagingNew4gb_failures flags h1 hs
  have hfirst : (kzalloc k 4096).1 = k1 := congrArg Prod.fst h1
  have hdir : Fresh k k1 directory 4096 := by
    have := kzalloc_ok (k := k) (4 * pagingTotalEntriesPerTable) (by rw [h1]; dsimp only; omega)
    rwa [h1] at this
  have hbuilt : Built k directory (flags.setWidth 32) (fun _ => 0) 0 (k1, 0) :=
    ⟨rfl, hdir.keeps, hdir.mem_live, hdir.not_live, by simp, by simp, by simp, by simp⟩
  obtain ⟨table, hb, htable⟩ :=
    built_forN hbuilt (n := pagingTotalEntriesPerTable) le_rfl (by rw [hs]; dsimp only; omega)
  rw [hs] at hb
  rw [hfirst]
  exact ⟨directory, s, table, pagingNew4gb_eq h1 hs, hb, kzalloc_ok _ (by omega), htable (by decide)⟩

theorem pagingNew4gb_table {k : Kmem} {flags : BitVec 8}
    (hok : (pagingNew4gb k flags).1.heap.failures = k.heap.failures) :
    ∃ d : PageDir, d.chunk = (pagingNew4gb k flags).2 ∧
      New k (pagingNew4gb k flags).1 d (flags.setWidth 32) ∧
      d.table 0 = (kzalloc (kzalloc k 4096).1 4096).2 := by
  obtain ⟨directory, s, table, heq, hb, hfresh, htable⟩ := pagingNew4gb_built hok
  obtain ⟨d, hchunk, hnew, hd⟩ := hb.pageDir hfresh (by rw [BitVec.toNat_setWidth]; omega)
  rw [heq]
  exact ⟨d, hchunk, hnew, by rw [hd, htable]⟩

theorem pagingNew4gb_spec {k : Kmem} {flags : BitVec 8}
    (hok : (pagingNew4gb k flags).1.heap.failures = k.heap.failures) :
    ∃ d : PageDir, d.chunk = (pagingNew4gb k flags).2 ∧
      New k (pagingNew4gb k flags).1 d (flags.setWidth 32) := by
  obtain ⟨d, hchunk, hnew, -⟩ := pagingNew4gb_table hok
  exact ⟨d, hchunk, hnew⟩

theorem exists_pageDir : Nonempty PageDir := by
  obtain ⟨d, -⟩ := pagingNew4gb_spec (pagingNew4gb_spare (n := 0) (spare_emptyKmem (by omega)) 5).2
  exact ⟨d⟩

/-! ## Mapping -/

theorem pagingGetIndexes_page {virt : Addr} (hv : virt.toNat % 4096 = 0) :
    pagingGetIndexes virt = .ok (virt.toNat / 4096 / 1024, virt.toNat / 4096 % 1024) := by
  have h : pagingIsAligned virt = true := by
    rw [pagingIsAligned, pagingPageSize, hv]
    rfl
  rw [pagingGetIndexes, h]
  simp only [pagingTotalEntriesPerTable, pagingPageSize, Bool.not_true, Bool.false_eq_true, if_false,
    Except.ok.injEq, Prod.mk.injEq]
  omega

variable {d : PageDir} {m m' : Mem} {virt phys flags : BitVec 32}

theorem pagingSet_spec (h : d.Holds m) (hv : virt.toNat % 4096 = 0) (v : BitVec 32) :
    pagingSet m d.directory virt v = (store32 m (d.slot (virt.toNat / 4096)) v, 0) := by
  have ha : pagingIsAligned virt = true := by
    rw [pagingIsAligned, pagingPageSize, hv]
    rfl
  rw [pagingSet, ha, pagingGetIndexes_page hv]
  simp only [Bool.not_true, Bool.false_eq_true, if_false]
  rw [h.tables _ (by omega)]
  rfl

theorem pagingGet_spec (h : d.Holds m) (hv : virt.toNat % 4096 = 0) :
    pagingGet m d.directory virt = d.entry m (virt.toNat / 4096) := by
  rw [pagingGet, pagingGetIndexes_page hv]
  simp only [Except.toOption, Option.getD_some]
  rw [h.tables _ (by omega)]
  rfl

/-- `m'` differs from `m` only in the directory's tables, where page `q` has the entry
`f q` if there is one. -/
structure Remap (d : PageDir) (m m' : Mem) (f : Nat → Option (BitVec 32)) : Prop where
  holds : d.Holds m'
  entry : ∀ q < 2 ^ 20, d.entry m' q = (f q).getD (d.entry m q)
  outside : ∀ x, (∀ i < 1024, ¬ Within (d.table i) 4096 x) → m' x = m x

theorem Remap.refl (h : d.Holds m) : Remap d m m fun _ => none := ⟨h, fun _ _ => rfl, fun _ _ => rfl⟩

theorem Remap.trans {m'' : Mem} {f g : Nat → Option (BitVec 32)} (h : Remap d m m' f)
    (h' : Remap d m' m'' g) : Remap d m m'' fun q => (g q).or (f q) := by
  refine ⟨h'.holds, ?_, fun x hx => (h'.outside x hx).trans (h.outside x hx)⟩
  intro q hq
  rw [h'.entry q hq, h.entry q hq]
  cases g q <;> rfl

theorem Remap.congr {f g : Nat → Option (BitVec 32)} (h : Remap d m m' f)
    (hfg : ∀ q < 2 ^ 20, f q = g q) : Remap d m m' g :=
  ⟨h.holds, fun q hq => hfg q hq ▸ h.entry q hq, h.outside⟩

theorem Remap.agree {f : Nat → Option (BitVec 32)} (h : Remap d m m' f) {a : Addr} {n : Nat}
    (ha : ∀ i < 1024, Apart (d.table i) 4096 a n) : Agree m m' a n :=
  fun x hx => h.outside x fun i hi => (ha i hi).not_within hx

theorem pagingMap_spec (h : d.Holds m) (hv : virt.toNat % 4096 = 0) (hp : phys.toNat % 4096 = 0)
    (flags : BitVec 32) :
    ∃ m', pagingMap m d.chunk virt phys flags = (m', 0) ∧
      Remap d m m' fun q => if q = virt.toNat / 4096 then some (phys ||| flags) else none := by
  have hlt : virt.toNat / 4096 < 2 ^ 20 := by omega
  refine ⟨store32 m (d.slot (virt.toNat / 4096)) (phys ||| flags), ?_, h.set hlt _, ?_, ?_⟩
  · rw [pagingMap, if_neg (by simp [pagingPageSize, hv, hp]), h.chunk, pagingSet_spec h hv]
  · intro q hq
    rw [PageDir.entry_set hlt hq]
    split <;> rfl
  · intro x hx
    exact store32_of_not_within (PageDir.not_within_slot hlt hx)

/-- The entry that mapping `count` pages from `virt` on to `phys` gives page `q`, if it
reaches `q`. Pages wrap at 4 GB. -/
def mapped (virt phys flags : BitVec 32) (count q : Nat) : Option (BitVec 32) :=
  let k := (q + 2 ^ 20 - virt.toNat / 4096) % 2 ^ 20
  if k < count then some ((phys + BitVec.ofNat 32 (4096 * k)) ||| flags) else none

theorem mapped_eq_some {count q : Nat} (hv : virt.toNat % 4096 = 0) (hc : count ≤ 2 ^ 20)
    (hq : q < 2 ^ 20) (e : BitVec 32) :
    mapped virt phys flags count q = some e ↔
      ∃ k < count, (virt + BitVec.ofNat 32 (4096 * k)).toNat = 4096 * q ∧
        e = (phys + BitVec.ofNat 32 (4096 * k)) ||| flags := by
  have hk : ∀ k < 2 ^ 20, (virt + BitVec.ofNat 32 (4096 * k)).toNat = 4096 * q ↔
      k = (q + 2 ^ 20 - virt.toNat / 4096) % 2 ^ 20 := by
    intro k hk
    have := virt.isLt
    rw [BitVec.toNat_add, BitVec.toNat_ofNat]
    omega
  unfold mapped
  dsimp only
  split
  · rename_i h
    rw [Option.some.injEq]
    constructor
    · rintro rfl
      exact ⟨_, h, (hk _ (by omega)).mpr rfl, rfl⟩
    · rintro ⟨k, hlt, hpage, rfl⟩
      rw [(hk k (by omega)).mp hpage]
  · rename_i h
    simp only [reduceCtorEq, false_iff, not_exists, not_and]
    intro k hlt hpage
    have := (hk k (by omega)).mp hpage
    omega

theorem mapped_succ (hv : virt.toNat % 4096 = 0) {count q : Nat} (hc : count + 1 ≤ 2 ^ 20)
    (hq : q < 2 ^ 20) :
    mapped virt phys flags (count + 1) q =
      (mapped (virt + 4096) (phys + 4096) flags count q).or
        (if q = virt.toNat / 4096 then some (phys ||| flags) else none) := by
  have hvn : (virt + 4096).toNat / 4096 = (virt.toNat / 4096 + 1) % 2 ^ 20 := by bv_omega
  have hlt : virt.toNat / 4096 < 2 ^ 20 := by omega
  simp only [mapped, hvn]
  generalize virt.toNat / 4096 = v at *
  by_cases hqv : q = v
  · have h1 : (q + 2 ^ 20 - v) % 2 ^ 20 = 0 := by omega
    have h2 : (q + 2 ^ 20 - (v + 1) % 2 ^ 20) % 2 ^ 20 = 2 ^ 20 - 1 := by omega
    rw [h1, h2, if_pos (by omega), if_neg (by omega), if_pos hqv]
    simp
  · have h1 : (q + 2 ^ 20 - v) % 2 ^ 20 = (q + 2 ^ 20 - (v + 1) % 2 ^ 20) % 2 ^ 20 + 1 := by omega
    rw [h1, if_neg hqv, Option.or_none]
    generalize (q + 2 ^ 20 - (v + 1) % 2 ^ 20) % 2 ^ 20 = k
    by_cases hk : k < count
    · rw [if_pos hk, if_pos (by omega), BitVec.add_assoc, Nat.mul_succ, Nat.add_comm,
        BitVec.ofNat_add]
      rfl
    · rw [if_neg hk, if_neg (by omega)]

theorem pagingMapRange_spec (h : d.Holds m) (hv : virt.toNat % 4096 = 0) (hp : phys.toNat % 4096 = 0)
    (flags : BitVec 32) {count : Nat} (hc : count ≤ 2 ^ 20) :
    ∃ m', pagingMapRange d.chunk flags count 0 m virt phys = (m', 0) ∧
      Remap d m m' (mapped virt phys flags count) := by
  induction count generalizing m virt phys with
  | zero => exact ⟨m, rfl, (Remap.refl h).congr fun q _ => by simp [mapped]⟩
  | succ count ih =>
    obtain ⟨m1, hm1, hr1⟩ := pagingMap_spec h hv hp flags
    have hv' : (virt + 4096).toNat % 4096 = 0 := by bv_omega
    have hp' : (phys + 4096).toNat % 4096 = 0 := by bv_omega
    obtain ⟨m2, hm2, hr2⟩ := ih hr1.holds hv' hp' (by omega)
    refine ⟨m2, ?_, (hr1.trans hr2).congr fun q hq => (mapped_succ hv hc hq).symm⟩
    rw [pagingMapRange, hm1]
    simpa using hm2

/-! ## Calls of `paging_map_to` -/

structure MapCall where
  virt : Addr
  phys : Addr
  phys_end : Addr
  flags : BitVec 32

def MapCall.Rejected (c : MapCall) : Prop :=
  c.virt.toNat % 4096 ≠ 0 ∨ c.phys.toNat % 4096 ≠ 0 ∨ c.phys_end.toNat % 4096 ≠ 0 ∨ c.phys_end < c.phys

instance (c : MapCall) : Decidable c.Rejected := inferInstanceAs (Decidable (_ ∨ _ ∨ _ ∨ _))

/-- The entry the call gives page `q`, if it succeeds and covers `q`. -/
def MapCall.entry (c : MapCall) (q : Nat) : Option (BitVec 32) :=
  if c.Rejected then none
  else mapped c.virt c.phys c.flags ((c.phys_end - c.phys).toNat / 4096) q

theorem pagingMapTo_rejected {c : MapCall} (hc : c.Rejected) (m : Mem) (chunk : Addr) :
    pagingMapTo m chunk c.virt c.phys c.phys_end c.flags = (m, -EINVARG) := by
  by_cases hv : c.virt.toNat % 4096 = 0
  · by_cases hp : c.phys.toNat % 4096 = 0
    · by_cases he : c.phys_end.toNat % 4096 = 0
      · have hle : c.phys_end < c.phys := by
          simpa [MapCall.Rejected, hv, hp, he] using hc
        simp [pagingMapTo, pagingPageSize, hv, hp, he, hle]
      · simp [pagingMapTo, pagingPageSize, hv, hp, he]
    · simp [pagingMapTo, pagingPageSize, hv, hp]
  · simp [pagingMapTo, pagingPageSize, hv]

theorem pagingMapRange_status (chunk : Addr) (flags : BitVec 32) (count : Nat) (m : Mem)
    (hv : virt.toNat % 4096 = 0) (hp : phys.toNat % 4096 = 0) :
    (pagingMapRange chunk flags count 0 m virt phys).2 = 0 := by
  induction count generalizing m virt phys with
  | zero => rfl
  | succ count ih =>
    have hmap : (pagingMap m chunk virt phys flags).2 = 0 := by
      simp [pagingMap, pagingSet, pagingIsAligned, pagingGetIndexes, pagingPageSize, hv, hp]
    unfold pagingMapRange
    dsimp only
    rw [hmap, if_neg (lt_irrefl _)]
    exact ih _ (by bv_omega) (by bv_omega)

theorem pagingMapTo_status (m : Mem) (chunk : Addr) (c : MapCall) :
    (pagingMapTo m chunk c.virt c.phys c.phys_end c.flags).2 = if c.Rejected then -EINVARG else 0 := by
  by_cases hc : c.Rejected
  · rw [pagingMapTo_rejected hc, if_pos hc]
  · rw [if_neg hc]
    simp only [MapCall.Rejected, not_or, not_not] at hc
    obtain ⟨hv, hp, he, hle⟩ := hc
    have hrange := pagingMapRange_status chunk c.flags ((c.phys_end - c.phys).toNat / 4096) m hv hp
    simpa [pagingMapTo, pagingPageSize, hv, hp, he, hle] using hrange

theorem pagingMapTo_spec (h : d.Holds m) (c : MapCall) :
    ∃ m', pagingMapTo m d.chunk c.virt c.phys c.phys_end c.flags =
        (m', if c.Rejected then -EINVARG else 0) ∧ Remap d m m' c.entry := by
  by_cases hc : c.Rejected
  · refine ⟨m, ?_, (Remap.refl h).congr fun q _ => ?_⟩
    · rw [pagingMapTo_rejected hc, if_pos hc]
    · rw [MapCall.entry, if_pos hc]
  · have hnot := hc
    simp only [MapCall.Rejected, not_or, not_not] at hnot
    obtain ⟨hv, hp, he, hle⟩ := hnot
    have hcount : (c.phys_end - c.phys).toNat / 4096 ≤ 2 ^ 20 := by omega
    obtain ⟨m', hm', hr⟩ := pagingMapRange_spec h hv hp c.flags hcount
    refine ⟨m', ?_, hr.congr fun q _ => ?_⟩
    · rw [if_neg hc, ← hm']
      simp [pagingMapTo, pagingPageSize, hv, hp, he, hle]
    · rw [MapCall.entry, if_neg hc]

/-! ## A whole sequence of calls -/

def mapCall (chunk : Addr) (m : Mem) (c : MapCall) : Mem :=
  (pagingMapTo m chunk c.virt c.phys c.phys_end c.flags).1

/-- The entry of the last successful call that covers page `q`. -/
def lastEntry (calls : List MapCall) (q : Nat) : Option (BitVec 32) :=
  calls.reverse.findSome? (·.entry q)

theorem lastEntry_cons (c : MapCall) (calls : List MapCall) (q : Nat) :
    lastEntry (c :: calls) q = (lastEntry calls q).or (c.entry q) := by
  simp [lastEntry, List.findSome?_append]

theorem run_mapCall_spec (h : d.Holds m) (calls : List MapCall) :
    Remap d m (run (mapCall d.chunk) m calls) (lastEntry calls) := by
  induction calls generalizing m with
  | nil => exact Remap.refl h
  | cons c calls ih =>
    obtain ⟨m1, hm1, hr1⟩ := pagingMapTo_spec h c
    have hstep : mapCall d.chunk m c = m1 := by rw [mapCall, hm1]
    rw [run_cons, hstep]
    exact (hr1.trans (ih hr1.holds)).congr fun q _ => (lastEntry_cons c calls q).symm

/-- A call fails exactly when it is rejected, and then it changes nothing. -/
def StatusExact (chunk : Addr) (m : Mem) (c : MapCall) : Prop :=
  let (m', res) := pagingMapTo m chunk c.virt c.phys c.phys_end c.flags
  (res < 0 ↔ c.Rejected) ∧ (c.Rejected → m' = m) ∧ (¬ c.Rejected → res = 0)

theorem statusExact (h : d.Holds m) (c : MapCall) : StatusExact d.chunk m c := by
  by_cases hc : c.Rejected
  · rw [StatusExact, pagingMapTo_rejected hc]
    simp [hc, EINVARG]
  · obtain ⟨m1, hm1, -⟩ := pagingMapTo_spec h c
    rw [StatusExact, hm1]
    simp [hc]

theorem mapCall_holds (h : d.Holds m) (c : MapCall) : d.Holds (mapCall d.chunk m c) :=
  (run_mapCall_spec h [c]).holds

theorem toNat_umod_page (v : Addr) : (v % 4096).toNat = v.toNat % 4096 := by
  rw [BitVec.toNat_umod]
  rfl

theorem toNat_alignToLowerPage (v : Addr) : (pagingAlignToLowerPage v).toNat = v.toNat / 4096 * 4096 := by
  have h := toNat_umod_page v
  unfold pagingAlignToLowerPage
  generalize v % 4096 = r at *
  bv_omega

theorem pagingGetPhysicalAddress_spec (h : d.Holds m) (v : Addr) :
    pagingGetPhysicalAddress m d.directory v =
      tableAddress (d.entry m (v.toNat / 4096)) + v % 4096 := by
  have h1 := toNat_alignToLowerPage v
  have h2 : v - pagingAlignToLowerPage v = v % 4096 := by
    unfold pagingAlignToLowerPage
    generalize v % 4096 = r
    bv_omega
  have h3 : (pagingAlignToLowerPage v).toNat / 4096 = v.toNat / 4096 := by omega
  rw [pagingGetPhysicalAddress, h2, pagingGet_spec h (by omega), h3]

/-- The entry of page `q` after the calls, in a directory that mapped every page to itself. -/
def finalEntry (f : BitVec 8) (calls : List MapCall) (q : Nat) : BitVec 32 :=
  (lastEntry calls q).getD (BitVec.ofNat 32 (4096 * q) ||| f.setWidth 32)

/-- What a sequence of calls does to the directory at `chunk`, built over `m` with flags `f`. -/
structure LastWriterWins (chunk : Addr) (f : BitVec 8) (m : Mem) (calls : List MapCall) : Prop where
  status : Each (mapCall chunk) (StatusExact chunk) m calls
  entry : ∀ q < 2 ^ 20, pagingGet (run (mapCall chunk) m calls)
    (load32 (run (mapCall chunk) m calls) chunk) (BitVec.ofNat 32 (4096 * q)) = finalEntry f calls q
  physical : ∀ v : Addr, pagingGetPhysicalAddress (run (mapCall chunk) m calls)
    (load32 (run (mapCall chunk) m calls) chunk) v =
      tableAddress (finalEntry f calls (v.toNat / 4096)) + v % 4096

theorem pagingMapTo_last_writer (k : Kmem) (f : BitVec 8)
    (hok : (pagingNew4gb k f).1.heap.failures = k.heap.failures) (calls : List MapCall) :
    LastWriterWins (pagingNew4gb k f).2 f (pagingNew4gb k f).1.mem calls := by
  obtain ⟨d, hd, hnew⟩ := pagingNew4gb_spec hok
  rw [← hd]
  have hr := run_mapCall_spec hnew.inMem.holds calls
  have hentry : ∀ q < 2 ^ 20,
      d.entry (run (mapCall d.chunk) (pagingNew4gb k f).1.mem calls) q = finalEntry f calls q := by
    intro q hq
    rw [hr.entry q hq, hnew.entry q hq, finalEntry]
  constructor
  · have hall : Each (mapCall d.chunk) (fun _ _ => True) (pagingNew4gb k f).1.mem calls :=
      each_iff_forall.mpr fun _ _ => trivial
    exact each_of_inv (fun _ c h _ => mapCall_holds h c) (fun _ c h _ => statusExact h c)
      hnew.inMem.holds hall
  · intro q hq
    have hv : (BitVec.ofNat 32 (4096 * q)).toNat = 4096 * q := by
      rw [BitVec.toNat_ofNat]
      omega
    rw [hr.holds.chunk, pagingGet_spec hr.holds (by omega), hv, Nat.mul_div_cancel_left _ (by omega),
      hentry q hq]
  · intro v
    rw [hr.holds.chunk, pagingGetPhysicalAddress_spec hr.holds, hentry _ (by omega)]

/-- The second call is refused; the third maps again the second page of the first. -/
def overlappingCalls : List MapCall :=
  [⟨0x400000, 0x1000, 0x3000, 7⟩, ⟨0x401001, 0x5000, 0x6000, 7⟩, ⟨0x401000, 0x8000, 0x9000, 5⟩]

theorem pagingMapTo_last_writer_overlapping :
    LastWriterWins (pagingNew4gb emptyKmem 5).2 5 (pagingNew4gb emptyKmem 5).1.mem overlappingCalls :=
  pagingMapTo_last_writer emptyKmem 5
    (pagingNew4gb_spare (n := 0) (spare_emptyKmem (by omega)) 5).2 overlappingCalls

example : finalEntry 5 overlappingCalls 0x400 = 0x1007 ∧ finalEntry 5 overlappingCalls 0x401 = 0x8005 ∧
    finalEntry 5 overlappingCalls 0x402 = 0x402005 := by decide

end MultitaskOs.Paging
