import MultitaskOs.Arguments

/-!
# What a process is given as its arguments

`process_inject_arguments` asks for one block for `argv` and for one block for
each string. Nothing that was in use before is touched, whatever request fails.
-/

open Lib Lib.Memory Lib.Arena Lib.DList Lib.CString MultitaskOs.Paging MultitaskOs.Tasks
  MultitaskOs.ProcessMemory MultitaskOs.Arguments

namespace MultitaskOs.Injection

def PageIn (b : Block) (v : Nat) : Prop := b.base.toNat ≤ 4096 * v ∧ 4096 * v < b.base.toNat + extent blockSize b.size

/-- The block `ptr` is in the table of the process, and the process can write its pages. -/
structure Owned (k : Kernel) (p ptr : Addr) (size : BitVec 32) : Prop where
  slot : ∃ i < maxProgramAllocations, allocation k p i = ⟨ptr, size⟩
  live : (⟨ptr, size.toNat⟩ : Block) ∈ k.heap.live
  writeable : ∀ v, PageOf ptr size v → pageEntry k p v = BitVec.ofNat 32 (4096 * v) ||| pagingUserWriteable

/-- The node `n` lies in memory that is in use, for something other than the tables of `d` and the
blocks `out`. -/
def InUse (k : Kernel) (d : PageDir) (out : List Addr) (n : Addr) : Prop :=
  ∃ b ∈ k.heap.live, b.base ∉ d.blocks ∧ b.base ∉ out ∧
    (n - b.base).toNat + (sizeofArgument + 4) ≤ extent blockSize b.size

/-- From `k` to `k'` blocks and slots have been taken. What was in use is as it was, but for the
tables of `d` and the blocks `out`, and the pages in use are mapped as they were. -/
structure Grows (d : PageDir) (out : List Addr) (k k' : Kernel) : Prop where
  live : ∀ b ∈ k.heap.live, b ∈ k'.heap.live
  bytes : ∀ b ∈ k.heap.live, b.base ∉ d.blocks → b.base ∉ out →
    Agree k.mem k'.mem b.base (extent blockSize b.size)
  entries : ∀ b ∈ k.heap.live, ∀ v, PageIn b v → d.entry k'.mem v = d.entry k.mem v
  slots : ∀ q i, (allocation k q i).ptr ≠ 0 → allocation k' q i = allocation k q i
  arguments : ∀ q, (k'.procs q).arguments = (k.procs q).arguments

variable {k k' k'' : Kernel} {ps : List Addr} {dir : Addr → PageDir} {d : PageDir} {p ptr argv current root n : Addr}
  {size : BitVec 32} {out out' ns : List Addr} {b : Block} {turns : Nat}

/-! ## Pages -/

theorem PageIn.lt {v : Nat} (h : PageIn b v) (hb : b ∈ k.heap.live) : v < 2 ^ 20 := by
  have hend := (k.heap.placed b hb).2.2
  obtain ⟨-, h⟩ := h
  omega

theorem pageIn_of_pageOf {v : Nat} (h : PageOf ptr size v) : PageIn ⟨ptr, size.toNat⟩ v := by
  have hsize := size_le_extent (g := blockSize) size.toNat
  obtain ⟨h1, h2⟩ := h
  exact ⟨h1, by dsimp only; omega⟩

/-! ## What is in use -/

theorem Grows.refl (d : PageDir) (out : List Addr) (k : Kernel) : Grows d out k k :=
  ⟨fun _ h => h, fun _ _ _ _ => Agree.refl _ _ _, fun _ _ _ _ => rfl, fun _ _ _ => rfl, fun _ => rfl⟩

theorem Grows.trans (h : Grows d out k k') (h' : Grows d out' k' k'') (hout : ∀ a ∈ out', a ∈ out ∨ ¬ k.heap.Live a) :
    Grows d out k k'' := by
  refine ⟨fun b hb => h'.live b (h.live b hb), fun b hb hd ho => ?_, fun b hb v hv => ?_, fun q i h0 => ?_, fun q => ?_⟩
  · refine (h.bytes b hb hd ho).trans (h'.bytes b (h.live b hb) hd fun ho' => ?_)
    rcases hout _ ho' with hin | hnot
    · exact ho hin
    · exact hnot ⟨b.size, hb⟩
  · rw [h'.entries b (h.live b hb) v hv, h.entries b hb v hv]
  · have hslot := h.slots q i h0
    rw [← hslot] at h0
    rw [h'.slots q i h0, hslot]
  · rw [h'.arguments, h.arguments]

theorem Grows.mono (h : Grows d out k k') (hout : ∀ a ∈ out, a ∈ out') : Grows d out' k k' :=
  ⟨h.live, fun b hb hd ho => h.bytes b hb hd fun ha => ho (hout _ ha), h.entries, h.slots, h.arguments⟩

theorem grows_unchanged (hd : d.In k.toKmem) (hu : Unchanged k k') : Grows d out k k' := by
  refine ⟨hu.keeps.live, fun b hb _ _ => hu.keeps.bytes b hb, fun b hb v hv => ?_, ?_, ?_⟩
  · exact hd.entry_keeps hu.keeps (hv.lt hb)
  · intro q i _
    rw [allocation, allocation, hu.procs]
  · intro q
    rw [hu.procs]

theorem malloced_entry_old {i : Nat} (hm : Malloced k k' p ptr size d i) (hd : d.In k.toKmem) (hb : b ∈ k.heap.live)
    {v : Nat} (hv : PageIn b v) : d.entry k'.mem v = d.entry k.mem v := by
  obtain ⟨m1, hf, -, hr⟩ := hm.block
  have hlt := hv.lt hb
  have hout : ¬ PageOf ptr size v := by
    intro hin
    have hapart := hf.fits.2 b hb
    have hin := pageIn_of_pageOf hin
    unfold Block.Apart at hapart
    unfold PageIn at hv hin
    omega
  rw [hr.entry v hlt, mallocCall_entry hf.fits.1 hm.accepted hlt, if_neg hout]
  exact hd.entry_keeps hf.keeps hlt

theorem malloced_entry_new {i : Nat} (hm : Malloced k k' p ptr size d i) {v : Nat} (hv : PageOf ptr size v) :
    d.entry k'.mem v = BitVec.ofNat 32 (4096 * v) ||| pagingUserWriteable := by
  obtain ⟨m1, hf, -, hr⟩ := hm.block
  have hlt : v < 2 ^ 20 := by
    have hend := hf.fits.1.2.2
    obtain ⟨-, hin⟩ := pageIn_of_pageOf hv
    omega
  rw [hr.entry v hlt, mallocCall_entry hf.fits.1 hm.accepted hlt, if_pos hv]
  rfl

theorem malloced_slot_old {i : Nat} (hm : Malloced k k' p ptr size d i) {q : Addr} {j : Nat}
    (h0 : (allocation k q j).ptr ≠ 0) : allocation k' q j = allocation k q j := by
  rw [hm.allocation_eq, if_neg]
  rintro ⟨rfl, rfl⟩
  exact h0 hm.was_free

theorem malloced_bytes {i : Nat} (hm : Malloced k k' p ptr size d i) (hd : d.In k.toKmem) (hb : b ∈ k.heap.live)
    (hnt : b.base ∉ d.blocks) : Agree k.mem k'.mem b.base (extent blockSize b.size) := by
  obtain ⟨m1, hf, -, hr⟩ := hm.block
  refine (hf.keeps.bytes b hb).trans (hr.agree fun j hj => ?_)
  obtain ⟨n, ht⟩ := hd.live _ (PageDir.table_mem hj)
  have hne : d.table j ≠ b.base := fun he => hnt (he ▸ PageDir.table_mem hj)
  have hpage : 4096 ≤ extent blockSize n := le_extent n
  have hlong := le_extent (g := blockSize) b.size
  refine (Kmem.live_apart ht hb hne).sub ?_ ?_ (by decide) (lt_of_lt_of_le (by decide) hlong)
  · simpa using hpage
  · simp

theorem grows_malloced {i : Nat} (hd : d.In k.toKmem) (hm : Malloced k k' p ptr size d i) : Grows d out k k' := by
  refine ⟨?_, fun b hb hnt _ => malloced_bytes hm hd hb hnt, fun b hb v hv => malloced_entry_old hm hd hb hv,
    fun q j h0 => malloced_slot_old hm h0, fun q => ?_⟩
  · intro b hb
    rw [hm.live]
    exact List.mem_cons_of_mem _ hb
  · rw [hm.procs]
    exact update_field Process.arguments (by rfl) q

theorem malloced_free {i : Nat} (hm : Malloced k k' p ptr size d i) : free k' p + 1 = free k p := by
  obtain ⟨m1, hf, -, -⟩ := hm.block
  have hslots : ∀ j, allocation k' p j = if j = i then ⟨ptr, size⟩ else allocation k p j := by
    intro j
    rw [hm.allocation_eq]
    simp
  exact free_update size hm.slot hm.was_free hf.ne_zero hslots

/-! ## Writing into blocks of the process -/

/-- A store that stays inside the blocks `out`. -/
def Inside (k : Kernel) (out : List Addr) (m : Mem) : Prop :=
  ∀ x, (∀ b ∈ k.heap.live, b.base ∈ out → ¬ Within b.base (extent blockSize b.size) x) → m x = k.mem x

theorem Inside.agree {m : Mem} (h : Inside k out m) (hb : b ∈ k.heap.live) (ho : b.base ∉ out) :
    Agree k.mem m b.base (extent blockSize b.size) := by
  intro x hx
  refine h x fun c hc hco => ?_
  exact (Kmem.live_apart hc hb fun he => ho (he ▸ hco)).not_within hx

theorem Inside.page {m : Mem} (h : Inside k out m) {a : Addr} (ha : k.heap.Live a) (ho : a ∉ out) :
    Agree k.mem m a 4096 := by
  obtain ⟨n, hb⟩ := ha
  refine (h.agree hb ho).sub ?_
  have hle : 4096 ≤ extent blockSize n := le_extent n
  simpa using hle

theorem grows_inside {m : Mem} (h : Inside k out m) (hd : d.In k.toKmem) (hout : ∀ a ∈ out, a ∉ d.blocks) :
    Grows d out k { k with mem := m } := by
  refine ⟨fun _ hb => hb, fun b hb _ ho => h.agree hb ho, fun b hb v hv => ?_, fun _ _ _ => rfl, fun _ => rfl⟩
  refine PageDir.entry_frame (fun a ha => ?_) (hv.lt hb)
  exact h.page (hd.live a ha) fun ho => hout a ho ha

theorem world_inside {m : Mem} (hw : World k ps dir) (h : Inside k out m)
    (hout : ∀ a ∈ out, ∀ q ∈ ps, a ∉ fixed k dir q) : World { k with mem := m } ps dir := by
  refine ⟨hw.directory, fun q hq => ?_, hw.live, hw.apart, hw.held, hw.distinct⟩
  refine (hw.holds q hq).frame fun a ha => ?_
  have hfix : a ∈ fixed k dir q := block_mem_fixed ha
  exact h.page (hw.live q hq a hfix) fun ho => hout a ho q hq hfix

/-! ## What stays true of nodes and blocks -/

theorem Owned.ne_zero (h : Owned k p ptr size) : ptr ≠ 0 := (k.heap.placed _ h.live).1

theorem Owned.not_fixed (h : Owned k p ptr size) (hw : World k ps dir) (hp : p ∈ ps) :
    ∀ q ∈ ps, ptr ∉ fixed k dir q := by
  obtain ⟨i, hi, hslot⟩ := h.slot
  have hheld := (hw.held p hp i hi (by rw [hslot]; exact h.ne_zero)).2
  rwa [hslot] at hheld

theorem Owned.not_table (h : Owned k p ptr size) (hw : World k ps dir) (hp : p ∈ ps) : ptr ∉ (dir p).blocks :=
  fun hb => h.not_fixed hw hp p hp (block_mem_fixed hb)

theorem Owned.grows (h : Owned k p ptr size) (hw : World k ps dir) (hw' : World k' ps dir) (hp : p ∈ ps)
    (hg : Grows (dir p) out k k') : Owned k' p ptr size := by
  obtain ⟨i, hi, hslot⟩ := h.slot
  refine ⟨⟨i, hi, ?_⟩, hg.live _ h.live, fun v hv => ?_⟩
  · rw [hg.slots p i (by rw [hslot]; exact h.ne_zero), hslot]
  · have hin := pageIn_of_pageOf hv
    have hlt := hin.lt h.live
    rw [pageEntry_eq (hw'.directory p hp) (hw'.holds p hp) hlt, hg.entries _ h.live v hin,
      ← pageEntry_eq (hw.directory p hp) (hw.holds p hp) hlt, h.writeable v hv]

theorem owned_malloced {i : Nat} (hm : Malloced k k' p ptr size (dir p) i) (hw' : World k' ps dir) (hp : p ∈ ps) :
    Owned k' p ptr size := by
  have hlive : (⟨ptr, size.toNat⟩ : Block) ∈ k'.heap.live := by
    rw [hm.live]
    exact List.mem_cons_self
  refine ⟨⟨i, hm.slot, ?_⟩, hlive, fun v hv => ?_⟩
  · rw [hm.allocation_eq, if_pos ⟨rfl, rfl⟩]
  · rw [pageEntry_eq (hw'.directory p hp) (hw'.holds p hp) ((pageIn_of_pageOf hv).lt hlive)]
    exact malloced_entry_new hm hv

theorem InUse.agree (h : InUse k d out n) (hg : Grows d out k k') : Agree k.mem k'.mem n (sizeofArgument + 4) := by
  obtain ⟨b, hb, hnt, ho, hle⟩ := h
  exact (hg.bytes b hb hnt ho).sub hle

theorem InUse.grows (h : InUse k d out n) (hg : Grows d out k k') : InUse k' d out n := by
  obtain ⟨b, hb, h⟩ := h
  exact ⟨b, hg.live b hb, h⟩

theorem listed_grows (h : Listed k.mem root ns) (hin : ∀ n ∈ ns, InUse k d out n) (hg : Grows d out k k') :
    Listed k'.mem root ns := by
  refine ⟨h.path.congr fun n hn => ?_, h.nonzero⟩
  refine Agree.load32 ((InUse.agree (hin n hn) hg).sub ?_)
  rw [show n + BitVec.ofNat 32 sizeofArgument - n = BitVec.ofNat 32 sizeofArgument by grind]
  decide

theorem textAt_grows (h : InUse k d out n) (hg : Grows d out k k') {w : Nat} (hlen : w ≤ sizeofArgument) :
    textAt k'.mem n w = textAt k.mem n w := by
  rw [textAt, textAt, readBytes_agree ((h.agree hg).sub (by simp; omega)) (by unfold sizeofArgument at hlen; omega)]

/-! ## One turn -/

theorem argvSlot_natCast (argv : Addr) (i : Nat) : argvSlot argv i = argv + BitVec.ofNat 32 (4 * i) := by
  rw [argvSlot, show (4 * (i : Int)) = ((4 * i : Nat) : Int) by push_cast; rfl, BitVec.ofInt_natCast]

theorem toNat_argvSlot_sub {i : Nat} (hi : i < maxProgramAllocations) : (argvSlot argv i - argv).toNat = 4 * i := by
  unfold maxProgramAllocations at hi
  rw [argvSlot_natCast]
  bv_omega

theorem argvSlot_fits {j : Nat} (hj : j < maxProgramAllocations) (w : Nat) :
    (argvSlot argv j - argv).toNat + 4 ≤ extent blockSize w := by
  have hpage : 4096 ≤ extent blockSize w := le_extent _
  rw [toNat_argvSlot_sub hj]
  unfold maxProgramAllocations at hj
  omega

theorem argvSlot_apart {i j : Nat} (hi : i < maxProgramAllocations) (hj : j < maxProgramAllocations) (hne : i ≠ j) :
    Apart (argvSlot argv i) 4 (argvSlot argv j) 4 := by
  unfold maxProgramAllocations at hi hj
  rw [argvSlot_natCast, argvSlot_natCast]
  unfold Apart
  bv_omega

theorem inside_turn {s : Addr} {i : Nat} (hs : Owned k p s (BitVec.ofNat 32 sizeofArgument))
    (hargv : Owned k p argv size) (hi : i < maxProgramAllocations) :
    Inside k [s, argv] (store32 (strncpyMem kernelPages k.mem s n sizeofArgument) (argvSlot argv i) s) := by
  intro x hx
  have hxs := hx _ hs.live (by simp)
  have hxv := hx _ hargv.live (by simp)
  have hextent : extent blockSize (BitVec.ofNat 32 sizeofArgument).toNat = 4096 := by decide
  rw [hextent] at hxs
  dsimp only at hxs hxv
  have hslot : (argvSlot argv i - argv).toNat + 4 ≤ extent blockSize size.toNat := argvSlot_fits hi _
  rw [store32_of_not_within, strncpyMem_of_not_within (by decide) (by decide)]
  · unfold Within sizeofArgument at *
    omega
  · refine fun hw => hxv ?_
    unfold Within at *
    bv_omega

theorem world_turn {s : Addr} {i : Nat} (hw : World k ps dir) (hp : p ∈ ps)
    (hs : Owned k p s (BitVec.ofNat 32 sizeofArgument)) (hargv : Owned k p argv size) (hi : i < maxProgramAllocations) :
    World { k with mem := store32 (strncpyMem kernelPages k.mem s n sizeofArgument) (argvSlot argv i) s } ps dir := by
  refine world_inside hw (inside_turn hs hargv hi) ?_
  simp only [List.mem_cons, List.not_mem_nil, or_false]
  rintro a (rfl | rfl)
  · exact hs.not_fixed hw hp
  · exact hargv.not_fixed hw hp

theorem grows_turn {s : Addr} {i : Nat} (hw : World k ps dir) (hp : p ∈ ps)
    (hs : Owned k p s (BitVec.ofNat 32 sizeofArgument)) (hargv : Owned k p argv size) (hi : i < maxProgramAllocations) :
    Grows (dir p) [s, argv] k
      { k with mem := store32 (strncpyMem kernelPages k.mem s n sizeofArgument) (argvSlot argv i) s } := by
  refine grows_inside (inside_turn hs hargv hi) (hw.inMem hp) ?_
  simp only [List.mem_cons, List.not_mem_nil, or_false]
  rintro a (rfl | rfl)
  · exact hs.not_table hw hp
  · exact hargv.not_table hw hp

/-- What a turn of the loop does when its request succeeds: the block `s` holds the argument of the
node `n`, and `argv[i]` is `s`. -/
structure Turn (k k' : Kernel) (ps : List Addr) (dir : Addr → PageDir) (p argv n s : Addr) (i : Nat) : Prop where
  world : World k' ps dir
  grows : Grows (dir p) [argv] k k'
  owned : Owned k' p s (BitVec.ofNat 32 sizeofArgument)
  text : At k'.mem s (textAt k.mem n (sizeofArgument - 1))
  entry : load32 k'.mem (argvSlot argv i) = s
  others : ∀ j < maxProgramAllocations, j ≠ i → load32 k'.mem (argvSlot argv j) = load32 k.mem (argvSlot argv j)
  fresh : s ≠ argv
  free : free k' p + 1 = free k p

theorem turn {s : Addr} {i l : Nat} (hw : World k ps dir) (hp : p ∈ ps) (hargv : Owned k p argv size)
    (hin : InUse k (dir p) [argv] n) (hi : i < maxProgramAllocations)
    (hm : Malloced k k' p s (BitVec.ofNat 32 sizeofArgument) (dir p) l) :
    Turn k { k' with mem := store32 (strncpyMem kernelPages k'.mem s n sizeofArgument) (argvSlot argv i) s }
      ps dir p argv n s i := by
  have hd := hw.inMem hp
  have hw1 := hw.malloced hp hm
  have hg1 : Grows (dir p) [argv] k k' := grows_malloced hd hm
  have hs1 := owned_malloced hm hw1 hp
  have hargv1 := hargv.grows hw hw1 hp hg1
  have htext : textAt k'.mem n (sizeofArgument - 1) = textAt k.mem n (sizeofArgument - 1) :=
    textAt_grows hin hg1 (by decide)
  obtain ⟨b, hb, -, -, hle⟩ := hin
  have hnew : ∀ c ∈ k.heap.live, s ≠ c.base := fun c hc he => hm.not_live (he ▸ ⟨c.size, hc⟩)
  have hsargv := hnew _ hargv.live
  have hsb := Kmem.live_apart hs1.live (hg1.live b hb) (hnew b hb)
  have hvs := Kmem.live_apart hargv1.live hs1.live hsargv.symm
  have hextent : extent blockSize (BitVec.ofNat 32 sizeofArgument).toNat = 4096 := by decide
  rw [hextent] at hsb hvs
  dsimp only at hsb hvs
  have hcopy : strncpyMem kernelPages k'.mem s n sizeofArgument =
      storeBytes k'.mem s (textAt k.mem n (sizeofArgument - 1) ++ [0]) := by
    rw [← htext]
    refine strncpyMem_apart (by decide) fun j hj _ => ?_
    have hx : Within b.base (extent blockSize b.size) (n + BitVec.ofNat 32 j) := by
      unfold Within
      unfold sizeofArgument at hle hj
      bv_omega
    have hout := hsb.not_within hx
    unfold Within at hout ⊢
    unfold sizeofArgument
    omega
  have hlen := length_textAt_le k.mem n (sizeofArgument - 1)
  have hnul := textAt_noNul k.mem n (sizeofArgument - 1)
  generalize ht : textAt k.mem n (sizeofArgument - 1) = t at hcopy hlen hnul
  have hg2 := grows_turn (n := n) hw1 hp hs1 hargv1 hi
  have hw2 := world_turn (n := n) hw1 hp hs1 hargv1 hi
  rw [hcopy] at hg2 hw2 ⊢
  have hstore : ∀ x, ¬ Within s 4096 x → storeBytes k'.mem s (t ++ [0]) x = k'.mem x := by
    intro x hx
    refine storeBytes_of_not_within fun hw => hx ?_
    unfold Within sizeofArgument at *
    simp only [List.length_append, List.length_singleton] at hw
    omega
  refine ⟨hw2, ?_, hs1.grows hw1 hw2 hp hg2, ?_, load32_store32 _ _ _, ?_, hsargv, ?_⟩
  · refine hg1.trans hg2 ?_
    simp only [List.mem_cons, List.not_mem_nil, or_false]
    rintro a (rfl | rfl)
    · exact Or.inr hm.not_live
    · exact Or.inl rfl
  · have hbound : t.length + 1 ≤ 2 ^ 32 := by
      unfold sizeofArgument at hlen
      omega
    rw [ht]
    refine (at_storeBytes hnul hbound).agree (agree_store32 ?_) hbound
    exact hvs.sub (argvSlot_fits hi _) (by unfold sizeofArgument at hlen; simp; omega) (by decide) (Nat.succ_pos _)
  · intro j hj hne
    have hold := malloced_bytes hm hd hargv.live (hargv.not_table hw hp)
    have hkeep := hold.trans fun x hx => hstore x (hvs.symm.not_within hx)
    dsimp only
    rw [load32_store32_apart (argvSlot_apart hi hj hne.symm), (hkeep.sub (argvSlot_fits hj _)).load32]
  · have hfree := malloced_free hm
    exact hfree

/-! ## The whole loop -/

def Entry (k : Kernel) (p argv : Addr) (i : Nat) (s : List Byte) : Prop :=
  Owned k p (load32 k.mem (argvSlot argv i)) (BitVec.ofNat 32 sizeofArgument) ∧
    At k.mem (load32 k.mem (argvSlot argv i)) s

/-- How the loop leaves things when it starts at index `i` with the nodes `ns` to go. -/
structure Looped (k k' : Kernel) (ps : List Addr) (dir : Addr → PageDir) (p argv : Addr) (ns : List Addr) (i : Nat)
    (res : Int) : Prop where
  world : World k' ps dir
  grows : Grows (dir p) [argv] k k'
  before : ∀ j < i, load32 k'.mem (argvSlot argv j) = load32 k.mem (argvSlot argv j)
  result : (res = 0 ∧ ns.length ≤ free k p ∧
      ∀ j (h : j < ns.length), Entry k' p argv (i + j) (textAt k.mem ns[j] (sizeofArgument - 1))) ∨ res = -ENOMEM

theorem Turn.entry_grows {s : Addr} {i : Nat} (h : Turn k k' ps dir p argv n s i) (hp : p ∈ ps)
    (hw : World k'' ps dir) (hg : Grows (dir p) [argv] k' k'')
    (hsame : load32 k''.mem (argvSlot argv i) = load32 k'.mem (argvSlot argv i)) :
    Entry k'' p argv i (textAt k.mem n (sizeofArgument - 1)) := by
  rw [Entry, hsame, h.entry]
  have hlen := length_textAt_le k.mem n (sizeofArgument - 1)
  have hkeep := hg.bytes _ h.owned.live (h.owned.not_table h.world hp) (by simpa using h.fresh)
  have hbound : (textAt k.mem n (sizeofArgument - 1)).length < 512 := Nat.lt_succ_of_le hlen
  refine ⟨h.owned.grows h.world hw hp hg, h.text.agree (hkeep.sub ?_) (by omega)⟩
  rw [show extent blockSize (BitVec.ofNat 32 sizeofArgument).toNat = 4096 by decide]
  simp
  omega

theorem injectLoop_spec {i : Nat} (hw : World k ps dir) (hp : p ∈ ps) (hargv : Owned k p argv size)
    (hns : Listed k.mem current ns) (hin : ∀ n ∈ ns, InUse k (dir p) [argv] n)
    (hroom : i + free k p < maxProgramAllocations) (hturns : ns.length < turns) :
    ∃ k' res, processInjectArgumentsLoop p argv turns k current i = some (k', res) ∧
      Looped k k' ps dir p argv ns i res := by
  induction ns generalizing k current i turns with
  | nil =>
    obtain ⟨turns, rfl⟩ := Nat.exists_eq_add_one_of_ne_zero (Nat.ne_of_gt hturns)
    refine ⟨k, 0, ?_, hw, Grows.refl _ _ _, fun _ _ => rfl, Or.inl ⟨rfl, Nat.zero_le _, by simp⟩⟩
    rw [processInjectArgumentsLoop, if_pos hns.root_eq_zero]
  | cons n ns ih =>
    obtain ⟨rfl, h0, hns⟩ := listed_cons.mp hns
    obtain ⟨turns, rfl⟩ := Nat.exists_eq_add_one_of_ne_zero (Nat.ne_of_gt (Nat.zero_lt_of_lt hturns))
    rw [List.length_cons] at hturns
    rw [processInjectArgumentsLoop, if_neg h0]
    dsimp only
    have hcases := processMalloc_cases (BitVec.ofNat 32 sizeofArgument) (hw.directory p hp) (hw.inMem hp)
    generalize processMalloc k p (BitVec.ofNat 32 sizeofArgument) = r at hcases ⊢
    obtain ⟨k1, s⟩ := r
    dsimp only at hcases ⊢
    rcases hcases with ⟨hs, hu⟩ | ⟨l, hs, hm⟩
    · -- the request fails, and the loop ends
      rw [if_pos hs]
      refine ⟨k1, -ENOMEM, rfl, hw.unchanged hu, grows_unchanged (hw.inMem hp) hu, fun j hj => ?_, Or.inr rfl⟩
      exact ((hu.keeps.bytes _ hargv.live).sub (argvSlot_fits (by omega) _)).load32
    · rw [if_neg hs]
      have hi : i < maxProgramAllocations := by omega
      have ht := turn hw hp hargv (hin _ List.mem_cons_self) hi hm
      have hnext : toInt32 ((i : Int) + 1) = ((i + 1 : Nat) : Int) := by
        unfold maxProgramAllocations at hi
        rw [toInt32_of_bounds (by omega) (by omega)]
        push_cast
        rfl
      rw [hnext]
      generalize store32 (strncpyMem kernelPages k1.mem s current sizeofArgument) (argvSlot argv i) s = m2 at ht ⊢
      obtain ⟨k2, hk2⟩ : ∃ k2 : Kernel, { k1 with mem := m2 } = k2 := ⟨_, rfl⟩
      have hmem : m2 = k2.mem := by rw [← hk2]
      rw [hk2] at ht ⊢
      rw [hmem]
      have hin2 : ∀ n ∈ current :: ns, InUse k2 (dir p) [argv] n := fun n hn => (hin n hn).grows ht.grows
      have hns2 := listed_grows (listed_cons.mpr ⟨rfl, h0, hns⟩) hin ht.grows
      have hfree := ht.free
      obtain ⟨k', res, hrun, hl⟩ := ih (i := i + 1) ht.world (hargv.grows hw ht.world hp ht.grows)
        (listed_cons.mp hns2).2.2 (fun n hn => hin2 n (List.mem_cons_of_mem _ hn)) (by omega)
        (Nat.lt_of_succ_lt_succ hturns)
      refine ⟨k', res, hrun, hl.world, ht.grows.trans hl.grows fun a ha => Or.inl ha, fun j hj => ?_, ?_⟩
      · rw [hl.before j (by omega), ht.others j (by omega) (by omega)]
      · refine hl.result.imp_left ?_
        rintro ⟨hres, hlen, hentries⟩
        refine ⟨hres, ?_, ?_⟩
        · rw [List.length_cons]
          omega
        · intro j hj
          cases j with
          | zero => exact ht.entry_grows hp hl.world hl.grows (hl.before i (Nat.lt_succ_self _))
          | succ j =>
            have hjl : j < ns.length := Nat.lt_of_succ_lt_succ hj
            have hentry := hentries j hjl
            rw [textAt_grows (hin _ (List.mem_cons_of_mem _ (List.getElem_mem hjl))) ht.grows (by decide)] at hentry
            rw [show i + (j + 1) = i + 1 + j by omega]
            exact hentry

/-! ## The arguments of the process -/

/-- Every allocation that was in a table is in its slot, and holds what it held. -/
def EarlierKept (k k' : Kernel) (ps : List Addr) : Prop :=
  ∀ q ∈ ps, ∀ i < maxProgramAllocations, (allocation k q i).ptr ≠ 0 → allocation k' q i = allocation k q i ∧
    Agree k.mem k'.mem (allocation k q i).ptr (allocation k q i).size.toNat

/-- The process has the texts of the nodes `ns` as its arguments. -/
structure Injected (k k' : Kernel) (p : Addr) (ns : List Addr) : Prop where
  nonempty : ns ≠ []
  argc : (k'.procs p).arguments.argc = ns.length
  argv : Owned k' p (k'.procs p).arguments.argv (BitVec.ofNat 32 (4 * ns.length))
  entries : ∀ i (h : i < ns.length),
    Entry k' p (k'.procs p).arguments.argv i (textAt k.mem ns[i] (sizeofArgument - 1))

def withArguments (k : Kernel) (p : Addr) (a : ProcessArguments) : Kernel :=
  k.setProc p fun q => { q with arguments := a }

variable {a : ProcessArguments}

theorem withArguments_allocation (q : Addr) (i : Nat) : allocation (withArguments k p a) q i = allocation k q i :=
  congrFun (update_field Process.allocations (by rfl) q) i

theorem withArguments_task (q : Addr) : ((withArguments k p a).procs q).task = (k.procs q).task :=
  update_field Process.task (by rfl) q

theorem withArguments_pageDirectory (q : Addr) : pageDirectory (withArguments k p a) q = pageDirectory k q := by
  rw [pageDirectory, withArguments_task]
  rfl

theorem world_withArguments (hw : World k ps dir) : World (withArguments k p a) ps dir := by
  have hfix : ∀ q, fixed (withArguments k p a) dir q = fixed k dir q := by
    intro q
    rw [fixed, fixed, withArguments_task]
  refine ⟨fun q hq => ?_, hw.holds, fun q hq => ?_, fun q hq r hr => ?_, fun q hq i hi => ?_,
    fun q hq r hr i hi j hj => ?_⟩
  · rw [withArguments_pageDirectory]
    exact hw.directory q hq
  · rw [hfix]
    exact hw.live q hq
  · rw [hfix, hfix]
    exact hw.apart q hq r hr
  · simp only [withArguments_allocation, hfix]
    exact hw.held q hq i hi
  · rw [withArguments_allocation, withArguments_allocation]
    exact hw.distinct q hq r hr i hi j hj

theorem Owned.withArguments (h : Owned k p ptr size) : Owned (withArguments k p a) p ptr size := by
  obtain ⟨i, hi, hslot⟩ := h.slot
  refine ⟨⟨i, hi, ?_⟩, h.live, fun v hv => ?_⟩
  · rw [withArguments_allocation, hslot]
  · rw [pageEntry, withArguments_pageDirectory]
    exact h.writeable v hv

theorem Grows.earlierKept (hg : Grows (dir p) [] k k') (hw : World k ps dir) (hp : p ∈ ps) : EarlierKept k k' ps := by
  intro q hq i hi h0
  obtain ⟨hlive, hout⟩ := hw.held q hq i hi h0
  refine ⟨hg.slots q i h0, (hg.bytes _ hlive ?_ List.not_mem_nil).sub ?_⟩
  · exact fun hb => hout p hp (block_mem_fixed hb)
  · rw [BitVec.sub_self]
    simpa using size_le_extent (g := blockSize) (allocation k q i).size.toNat

/-- What a call leaves, with its status. -/
structure Outcome (k k' : Kernel) (ps : List Addr) (dir : Addr → PageDir) (p : Addr) (ns : List Addr) (res : Int) :
    Prop where
  world : World k' ps dir
  earlier : EarlierKept k k' ps
  result : (res = 0 ∧ Injected k k' p ns) ∨ (res < 0 ∧ (k'.procs p).arguments = (k.procs p).arguments)

theorem outcome_refused (hg : Grows (dir p) [] k k') (hw : World k ps dir) (hw' : World k' ps dir) (hp : p ∈ ps)
    {res : Int} (hres : res < 0) : Outcome k k' ps dir p ns res :=
  ⟨hw', hg.earlierKept hw hp, Or.inr ⟨hres, hg.arguments p⟩⟩

theorem processInjectArguments_spec (hw : World k ps dir) (hp : p ∈ ps) (hns : Listed k.mem root ns)
    (hin : ∀ n ∈ ns, InUse k (dir p) [] n) (hturns : ns.length < turns) :
    ∃ k' res, processInjectArguments turns k p root = some (k', res) ∧ Outcome k k' ps dir p ns res := by
  rw [inject_counted (count_listed hns hturns)]
  dsimp only
  by_cases hargc : toInt32 ns.length = 0
  · rw [if_pos hargc]
    exact ⟨k, - EIO, rfl, outcome_refused (Grows.refl _ _ _) hw hw hp (by decide)⟩
  rw [if_neg hargc]
  have hcases := processMalloc_cases (BitVec.ofInt 32 (4 * toInt32 ns.length)) (hw.directory p hp) (hw.inMem hp)
  generalize processMalloc k p (BitVec.ofInt 32 (4 * toInt32 ns.length)) = r at hcases ⊢
  obtain ⟨k1, argv⟩ := r
  dsimp only at hcases ⊢
  rcases hcases with ⟨hs, hu⟩ | ⟨l, hs, hm⟩
  · rw [if_pos hs]
    exact ⟨k1, -ENOMEM, rfl, outcome_refused (grows_unchanged (hw.inMem hp) hu) hw (hw.unchanged hu) hp (by decide)⟩
  rw [if_neg hs]
  have hw1 := hw.malloced hp hm
  have hg1 : Grows (dir p) [] k k1 := grows_malloced (hw.inMem hp) hm
  have hargv := owned_malloced hm hw1 hp
  have hin1 : ∀ n ∈ ns, InUse k1 (dir p) [argv] n := by
    intro n hn
    obtain ⟨b, hb, hnt, -, hle⟩ := hin n hn
    refine ⟨b, hg1.live b hb, hnt, ?_, hle⟩
    rw [List.mem_singleton]
    exact fun he => hm.not_live (he ▸ ⟨b.size, hb⟩)
  have hroom : 0 + free k1 p < maxProgramAllocations := by
    have hfree := malloced_free hm
    have hle := free_le k p
    omega
  obtain ⟨k2, res, hrun, hl⟩ := injectLoop_spec (i := 0) hw1 hp hargv (listed_grows hns hin hg1) hin1 hroom hturns
  rw [Nat.cast_zero] at hrun
  rw [hrun, Option.map_some]
  have hg2 : Grows (dir p) [] k k2 := by
    refine hg1.trans hl.grows fun a ha => Or.inr ?_
    rw [List.mem_singleton.mp ha]
    exact hm.not_live
  rcases hl.result with ⟨rfl, hlen, hentries⟩ | rfl
  · have hlong : ns.length < maxProgramAllocations := by omega
    have hcount : toInt32 ns.length = ns.length := by
      unfold maxProgramAllocations at hlong
      exact toInt32_of_bounds (by omega) (by omega)
    have hsize : BitVec.ofInt 32 (4 * toInt32 ns.length) = BitVec.ofNat 32 (4 * ns.length) := by
      rw [hcount, show (4 * (ns.length : Int)) = ((4 * ns.length : Nat) : Int) by push_cast; rfl, BitVec.ofInt_natCast]
    have howned := hargv.grows hw1 hl.world hp hl.grows
    rw [hsize] at howned
    rw [hcount] at hargc ⊢
    dsimp only
    rw [if_neg (by decide)]
    have hg : EarlierKept k k2 ps := hg2.earlierKept hw hp
    have hargs : ((withArguments k2 p ⟨ns.length, argv⟩).procs p).arguments = ⟨ns.length, argv⟩ := by
      rw [withArguments, Kernel.setProc_self]
    refine ⟨withArguments k2 p ⟨ns.length, argv⟩, 0, rfl, world_withArguments hl.world, ?_, Or.inl ⟨rfl, ?_⟩⟩
    · intro q hq i hi h0
      rw [withArguments_allocation]
      exact hg q hq i hi h0
    · refine ⟨?_, by rw [hargs], by rw [hargs]; exact howned.withArguments, fun i h => ?_⟩
      · rintro rfl
        exact hargc rfl
      · have hentry := hentries i h
        rw [Nat.zero_add, textAt_grows (hin _ (List.getElem_mem h)) hg1 (by decide)] at hentry
        rw [hargs]
        exact ⟨hentry.1.withArguments, hentry.2⟩
  · dsimp only
    rw [if_pos (by decide)]
    exact ⟨k2, -ENOMEM, rfl, outcome_refused hg2 hw hl.world hp (by decide)⟩

/-! ## A new process and three nodes -/

/-- A heap with a block for each of three nodes, at four pages, eight and twelve. -/
def nodeKmem : Kmem :=
  (kzalloc (kzalloc (kzalloc emptyKmem (sizeofArgument + 4)).1 (sizeofArgument + 4)).1 (sizeofArgument + 4)).1

def storeNode (m : Mem) (a : Addr) (s : List Byte) (next : Addr) : Mem :=
  store32 (storeBytes m a s) (a + BitVec.ofNat 32 sizeofArgument) next

def beside : Kernel :=
  { emptyKernel with
    heap := nodeKmem.heap
    mem := storeNode (storeNode (storeNode nodeKmem.mem 0x4000 [0x6C, 0x73] 0x8000) 0x8000 [0x2D, 0x6C] 0xC000)
      0xC000 [0x61] 0 }

theorem spare_beside : Spare beside.toKmem 1028 := by
  have h1 := (Spare.kzalloc (n := 1030) (spare_emptyKmem (by decide)) (sizeofArgument + 4) (by decide)).1
  have h2 := (h1.kzalloc (n := 1029) (sizeofArgument + 4) (by decide)).1
  have h3 := (h2.kzalloc (n := 1028) (sizeofArgument + 4) (by decide)).1
  exact ⟨h3.bumped, h3.room⟩

theorem live_beside : ∀ n ∈ [0x4000, 0x8000, 0xC000], (⟨n, sizeofArgument + 4⟩ : Block) ∈ beside.heap.live := by
  have h : beside.heap.live =
    [⟨0xC000, sizeofArgument + 4⟩, ⟨0x8000, sizeofArgument + 4⟩, ⟨0x4000, sizeofArgument + 4⟩] := by
    decide +kernel
  rw [h]
  simp

theorem next_beside : nextArgument beside.mem 0x4000 = 0x8000 ∧ nextArgument beside.mem 0x8000 = 0xC000 ∧
    nextArgument beside.mem 0xC000 = 0 := by decide +kernel

theorem text_beside : textAt beside.mem 0x4000 (sizeofArgument - 1) = [0x6C, 0x73] ∧
    textAt beside.mem 0x8000 (sizeofArgument - 1) = [0x2D, 0x6C] ∧
    textAt beside.mem 0xC000 (sizeofArgument - 1) = [0x61] := by decide +kernel

/-- A new process is given three arguments. -/
theorem processInjectArguments_nodes : ∃ dir, World (spawn beside).1 [(spawn beside).2] dir ∧
    Listed (spawn beside).1.mem 0x4000 [0x4000, 0x8000, 0xC000] ∧
    ([0x4000, 0x8000, 0xC000].map fun n => textAt (spawn beside).1.mem n (sizeofArgument - 1)) =
      [[0x6C, 0x73], [0x2D, 0x6C], [0x61]] ∧
    ∃ k' res, processInjectArguments 4 (spawn beside).1 (spawn beside).2 0x4000 = some (k', res) ∧
      Outcome (spawn beside).1 k' [(spawn beside).2] dir (spawn beside).2 [0x4000, 0x8000, 0xC000] res := by
  obtain ⟨d, hs⟩ := spawn_ok (spawn_spare (n := 0) spare_beside).2
  obtain ⟨-, hw⟩ := (world_nil beside fun _ => d).spawned hs
  have hext : 516 ≤ extent blockSize (sizeofArgument + 4) := by decide
  have hnext : ∀ n ∈ [0x4000, 0x8000, 0xC000], nextArgument (spawn beside).1.mem n = nextArgument beside.mem n := by
    intro n hn
    have hnode := hs.new.keeps.bytes _ (live_beside n hn)
    have hoffset : n + BitVec.ofNat 32 sizeofArgument - n = BitVec.ofNat 32 sizeofArgument := by grind
    exact (hnode.sub (by rw [hoffset]; exact hext)).load32
  have htext : ∀ n ∈ [0x4000, 0x8000, 0xC000],
      textAt (spawn beside).1.mem n (sizeofArgument - 1) = textAt beside.mem n (sizeofArgument - 1) := by
    intro n hn
    have hnode := hs.new.keeps.bytes _ (live_beside n hn)
    rw [textAt, textAt, readBytes_agree (hnode.sub (by rw [BitVec.sub_self]; exact (by decide : 511 ≤ 516).trans hext))
      (by decide)]
  obtain ⟨hnext1, hnext2, hnext3⟩ := next_beside
  obtain ⟨htext1, htext2, htext3⟩ := text_beside
  have hlisted : Listed (spawn beside).1.mem 0x4000 [0x4000, 0x8000, 0xC000] := by
    simp only [listed_cons, hnext _ (by simp : (0x4000 : Addr) ∈ _), hnext _ (by simp : (0x8000 : Addr) ∈ _),
      hnext _ (by simp : (0xC000 : Addr) ∈ _), hnext1, hnext2, hnext3, true_and]
    exact ⟨by decide, by decide, by decide, listed_nil⟩
  have hin : ∀ n ∈ [0x4000, 0x8000, 0xC000],
      InUse (spawn beside).1 (Function.update (fun _ => d) (spawn beside).2 d (spawn beside).2) [] n := by
    intro n hn
    refine ⟨⟨n, sizeofArgument + 4⟩, hs.new.keeps.live _ (live_beside n hn), ?_, List.not_mem_nil, ?_⟩
    · rw [Function.update_self]
      exact fun hb => hs.new.fresh n hb ⟨_, live_beside n hn⟩
    · rw [BitVec.sub_self]
      exact hext
  refine ⟨_, hw, hlisted, ?_, processInjectArguments_spec hw List.mem_cons_self hlisted hin (by simp)⟩
  simp only [List.map_cons, List.map_nil, htext _ (by simp : (0x4000 : Addr) ∈ _),
    htext _ (by simp : (0x8000 : Addr) ∈ _), htext _ (by simp : (0xC000 : Addr) ∈ _), htext1, htext2, htext3]

end MultitaskOs.Injection
