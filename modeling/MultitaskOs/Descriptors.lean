import MultitaskOs.OpenClose
import MultitaskOs.Lib.Run

/-!
# The table of descriptors

While no file gets the last entry, and every descriptor record is granted, a
descriptor is good from the `fopen` that returns it to the `fclose` that takes
it.
-/

open Lib Lib.Memory Lib.Arena Lib.Run MultitaskOs.PathParser MultitaskOs.Files MultitaskOs.OpenClose
  MultitaskOs.Tasks

namespace MultitaskOs.Descriptors

/-- A descriptor that `fopen` returned, the record in its entry then, and the file of that record. -/
structure Handle where
  fd : Int
  desc : Addr
  priv : Addr

structure State where
  kernel : Kernel
  files : List Handle

inductive Call where
  | fopen (filename : List Byte) (mode_str : CharPtr)
  | fclose (fd : Int)

def handle (k : Kernel) (fd : Int) : Handle :=
  ⟨fd, k.file_descriptors (fd - 1).toNat, (k.fileDescs (k.file_descriptors (fd - 1).toNat)).priv⟩

/-- A call that does not return leaves nothing to look at. -/
def step (st : State) : Call → State
  | .fopen filename mode_str =>
    match fopen st.kernel (cstr filename) mode_str with
    | none => st
    | some (k, fd) => ⟨k, if 0 < fd then handle k fd :: st.files else st.files⟩
  | .fclose fd =>
    let r := fclose st.kernel fd
    ⟨r.1, if r.2 = 0 then st.files.filter (·.fd ≠ fd) else st.files⟩

/-- Each open descriptor is accepted and leads to its record and file, no two are the same, and
any other is refused. -/
structure Sound (st : State) : Prop where
  reached : ∀ f ∈ st.files, f.desc ≠ 0 ∧ fileGetDescriptor st.kernel f.fd = f.desc ∧
    st.kernel.fileDescs f.desc = ⟨f.fd, f.priv⟩
  distinct : (st.files.map Handle.fd).Nodup
  refused : ∀ fd, (∀ f ∈ st.files, f.fd ≠ fd) → fileGetDescriptor st.kernel fd = 0

/-- The last entry is not the first free one, and the record is granted. -/
def Good (st : State) : Call → Prop
  | .fopen filename mode_str =>
    freeDescriptor st.kernel ≠ some (fileDescriptors - 1) ∧ RecordGranted st.kernel filename mode_str
  | .fclose _ => True

/-- File names are strings. -/
def Legal : Call → Prop
  | .fopen filename _ => NoNul filename
  | .fclose _ => True

variable {k k' : Kernel} {st : State} {f g : Handle}

/-! ## Files that are open -/

structure Held (k : Kernel) (f : Handle) : Prop where
  range : 0 < f.fd ∧ f.fd < fileDescriptors
  entry : k.file_descriptors (f.fd - 1).toNat = f.desc
  record : k.fileDescs f.desc = ⟨f.fd, f.priv⟩
  type : (k.fatItems (k.fatDescs f.priv).item).type = fatItemTypeFile
  desc : k.heap.Live f.desc
  priv : k.heap.Live f.priv
  item : k.heap.Live (k.fatDescs f.priv).item
  copy : (k.fatItems (k.fatDescs f.priv).item).item = 0 ∨ k.heap.Live (k.fatItems (k.fatDescs f.priv).item).item

theorem Held.live (h : Held k f) {b : Addr} (hb : b ∈ fileBlocks k f.desc) : b = 0 ∨ k.heap.Live b := by
  simp only [fileBlocks, h.record, List.mem_cons, List.not_mem_nil, or_false] at hb
  rcases hb with rfl | rfl | rfl | rfl
  · exact Or.inr h.desc
  · exact Or.inr h.priv
  · exact Or.inr h.item
  · exact h.copy

theorem Held.get (h : Held k f) : fileGetDescriptor k f.fd = f.desc := by
  have hr := h.range
  unfold fileGetDescriptor
  rw [if_neg (by omega), h.entry]

theorem Held.of_same (h : Held k f)
    (hentry : k'.file_descriptors (f.fd - 1).toNat = k.file_descriptors (f.fd - 1).toNat)
    (hfile : k'.fileDescs f.desc = k.fileDescs f.desc) (hdesc : k'.fatDescs f.priv = k.fatDescs f.priv)
    (hitem : k'.fatItems (k.fatDescs f.priv).item = k.fatItems (k.fatDescs f.priv).item)
    (hlive : ∀ b ∈ fileBlocks k f.desc, b = 0 ∨ k'.heap.Live b) :
    Held k' f ∧ fileBlocks k' f.desc = fileBlocks k f.desc := by
  have hblocks : fileBlocks k' f.desc = fileBlocks k f.desc := by
    simp only [fileBlocks, hfile, h.record, hdesc, hitem]
  have hl : ∀ b ∈ fileBlocks k f.desc, k.heap.Live b → k'.heap.Live b := fun b hb hl =>
    (hlive b hb).resolve_left (Kmem.live_ne_zero hl)
  simp only [fileBlocks, h.record, List.forall_mem_cons] at hl
  obtain ⟨h1, h2, h3, h4, -⟩ := hl
  refine ⟨⟨h.range, hentry.trans h.entry, hfile.trans h.record, ?_, h1 h.desc, h2 h.priv, ?_, ?_⟩, hblocks⟩
  · rw [hdesc, hitem, h.type]
  · rw [hdesc]
    exact h3 h.item
  · rw [hdesc, hitem]
    exact h.copy.imp_right h4

theorem Held.keeps (h : Held k f) (hk : FileKeeps k k')
    (hentry : k'.file_descriptors (f.fd - 1).toNat = k.file_descriptors (f.fd - 1).toNat) :
    Held k' f ∧ fileBlocks k' f.desc = fileBlocks k f.desc :=
  h.of_same hentry (hk.files _ h.desc) (hk.descs _ h.priv) (hk.items _ h.item) fun _ hb =>
    (h.live hb).imp_right hk.keeps.isLive

/-! ## The invariant -/

structure Inv (st : State) : Prop where
  held : ∀ f ∈ st.files, Held st.kernel f
  apart : ∀ f ∈ st.files, ∀ g ∈ st.files, f.fd ≠ g.fd → ∀ b ∈ fileBlocks st.kernel f.desc, b ≠ 0 →
    b ∉ fileBlocks st.kernel g.desc
  distinct : (st.files.map Handle.fd).Nodup
  refused : ∀ i : Nat, i < fileDescriptors - 1 → (∀ f ∈ st.files, f.fd ≠ i + 1) → st.kernel.file_descriptors i = 0

theorem Inv.sound (h : Inv st) : Sound st := by
  refine ⟨fun f hf => ?_, h.distinct, fun fd hfd => ?_⟩
  · have hf := h.held f hf
    exact ⟨Kmem.live_ne_zero hf.desc, hf.get, hf.record⟩
  · unfold fileGetDescriptor
    split
    · rfl
    · rename_i hrange
      refine h.refused _ (by omega) fun f hf => ?_
      have := hfd f hf
      omega

theorem Inv.keeps (h : Inv st) (hk : FileKeeps st.kernel k')
    (htable : k'.file_descriptors = st.kernel.file_descriptors) : Inv ⟨k', st.files⟩ := by
  have hstep : ∀ f ∈ st.files, Held k' f ∧ fileBlocks k' f.desc = fileBlocks st.kernel f.desc :=
    fun f hf => (h.held f hf).keeps hk (by rw [htable])
  refine ⟨fun f hf => (hstep f hf).1, fun f hf g hg hne => ?_, h.distinct, fun i hi hfree => ?_⟩
  · dsimp only
    rw [(hstep f hf).2, (hstep g hg).2]
    exact h.apart f hf g hg hne
  · dsimp only
    rw [htable]
    exact h.refused i hi hfree

theorem NewDescriptor.held {i : Nat} {desc : Addr} (hd : NewDescriptor k k' i desc) (hi : i < fileDescriptors - 1)
    (h0 : desc ≠ 0) : handle k' (i + 1) = ⟨i + 1, desc, (k'.fileDescs desc).priv⟩ ∧ Held k' (handle k' (i + 1)) := by
  have hentry : k'.file_descriptors ((i : Int) + 1 - 1).toNat = desc := by
    rw [hd.table, show ((i : Int) + 1 - 1).toNat = i by omega, Function.update_self]
  have hh : handle k' (i + 1) = ⟨i + 1, desc, (k'.fileDescs desc).priv⟩ := by
    unfold handle
    rw [hentry]
  have hrec : k'.fileDescs desc = ⟨i + 1, (k'.fileDescs desc).priv⟩ := by
    rw [← hd.index]
  refine ⟨hh, ?_⟩
  rw [hh]
  have hfile := hd.file
  exact ⟨by dsimp only; omega, hentry, hrec, hfile.item.type, (hd.block.resolve_left h0).1, hfile.live,
    hfile.item.live, hfile.item.copy.imp_right And.left⟩

theorem Inv.opened (h : Inv st) (hk : FileKeeps st.kernel k') {i : Nat} {desc : Addr}
    (hd : NewDescriptor st.kernel k' i desc) (hi : i < fileDescriptors - 1) (h0 : desc ≠ 0) :
    Inv ⟨k', handle k' (i + 1) :: st.files⟩ := by
  obtain ⟨hh, hheld⟩ := NewDescriptor.held hd hi h0
  have hfree := (freeDescriptor_some hd.slot).2
  have hother : ∀ f ∈ st.files, f.fd ≠ i + 1 := by
    intro f hf he
    have hf := h.held f hf
    have hentry := hf.entry
    rw [he, show ((i : Int) + 1 - 1).toNat = i by omega, hfree] at hentry
    exact Kmem.live_ne_zero hf.desc hentry.symm
  have hstep : ∀ f ∈ st.files, Held k' f ∧ fileBlocks k' f.desc = fileBlocks st.kernel f.desc := by
    intro f hf
    refine (h.held f hf).keeps hk ?_
    have hr := (h.held f hf).range
    have hne := hother f hf
    rw [hd.table, Function.update_of_ne (by omega)]
  have hnew : ∀ f ∈ st.files, ∀ b ∈ fileBlocks st.kernel f.desc, b ≠ 0 → b ∉ fileBlocks k' desc :=
    fun f hf b hb hb0 => OpenClose.NewDescriptor.blocks_fresh hd (((h.held f hf).live hb).resolve_left hb0)
  have hdesc : (handle k' (i + 1)).desc = desc := by rw [hh]
  have hfd : (handle k' (i + 1)).fd = i + 1 := by rw [hh]
  refine ⟨?_, ?_, ?_, ?_⟩
  · rintro f hf
    rcases List.mem_cons.mp hf with rfl | hf
    · exact hheld
    · exact (hstep f hf).1
  · intro f hf g hg hne b hb hb0
    dsimp only at hb ⊢
    rcases List.mem_cons.mp hf with rfl | hf <;> rcases List.mem_cons.mp hg with rfl | hg
    · exact absurd rfl hne
    · rw [hdesc] at hb
      rw [(hstep g hg).2]
      exact fun hbg => hnew g hg b hbg hb0 hb
    · rw [(hstep f hf).2] at hb
      rw [hdesc]
      exact hnew f hf b hb hb0
    · rw [(hstep f hf).2] at hb
      rw [(hstep g hg).2]
      exact h.apart f hf g hg hne b hb hb0
  · rw [List.map_cons, List.nodup_cons, hfd]
    refine ⟨fun hm => ?_, h.distinct⟩
    obtain ⟨f, hf, he⟩ := List.mem_map.mp hm
    exact hother f hf he
  · intro j hj hfiles
    rw [List.forall_mem_cons, hfd] at hfiles
    dsimp only
    rw [hd.table, Function.update_of_ne (by omega)]
    exact h.refused j hj hfiles.2

theorem Inv.closed (h : Inv st) (hf : f ∈ st.files) {m : Kmem}
    (hm : ∀ b, b ∈ m.heap.live ↔ b ∈ st.kernel.heap.live ∧ b.base ∉ fileBlocks st.kernel f.desc) :
    Inv ⟨{ st.kernel with
      toKmem := m
      file_descriptors := Function.update st.kernel.file_descriptors (f.fd - 1).toNat 0 },
      st.files.filter (·.fd ≠ f.fd)⟩ := by
  have hr := (h.held f hf).range
  have hmem : ∀ g, g ∈ st.files.filter (·.fd ≠ f.fd) ↔ g ∈ st.files ∧ g.fd ≠ f.fd := by simp
  refine ⟨fun g hg => ?_, fun g hg g' hg' => ?_, ?_, fun i hi hfiles => ?_⟩
  · obtain ⟨hg, hne⟩ := (hmem g).mp hg
    have hg' := h.held g hg
    have hrg := hg'.range
    refine And.left (hg'.of_same ?_ rfl rfl rfl fun b hb => ?_)
    · dsimp only
      rw [Function.update_of_ne (by omega)]
    · rcases hg'.live hb with h0 | ⟨n, hn⟩
      · exact Or.inl h0
      · have hb0 : b ≠ 0 := Kmem.live_ne_zero ⟨n, hn⟩
        exact Or.inr ⟨n, (hm _).mpr ⟨hn, h.apart g hg f hf hne b hb hb0⟩⟩
  · exact h.apart g ((hmem g).mp hg).1 g' ((hmem g').mp hg').1
  · exact h.distinct.sublist (List.filter_sublist.map _)
  · dsimp only at hfiles ⊢
    by_cases hi' : (f.fd - 1).toNat = i
    · rw [hi', Function.update_self]
    · rw [Function.update_of_ne (Ne.symm hi')]
      refine h.refused i hi fun g hg he => ?_
      exact hfiles g ((hmem g).mpr ⟨hg, by omega⟩) he

theorem Inv.fopen (h : Inv st) {filename : List Byte} {mode_str : CharPtr} (hs : NoNul filename)
    (hgood : Good st (.fopen filename mode_str)) : Inv (step st (.fopen filename mode_str)) := by
  unfold step
  dsimp only
  split
  · exact h
  rename_i k' fd hopen
  obtain ⟨hk, hout⟩ := fopen_spec hs hopen
  rcases hout with ⟨rfl, htable⟩ | ⟨i, desc, rfl, hd, hg⟩
  · exact h.keeps hk htable
  · rw [if_pos (by omega)]
    have hlt := (freeDescriptor_some hd.slot).1
    have hne : i ≠ fileDescriptors - 1 := fun he => hgood.1 (he ▸ hd.slot)
    exact h.opened hk hd (by omega) (hg hgood.2)

theorem Inv.fclose (h : Inv st) (fd : Int) : Inv (step st (.fclose fd)) := by
  unfold step
  dsimp only
  by_cases hget : fileGetDescriptor st.kernel fd = 0
  · rw [fclose_refused hget, if_neg (show ¬ - EIO = 0 by decide)]
    exact h
  · obtain ⟨f, hf, rfl⟩ : ∃ f ∈ st.files, f.fd = fd := by
      by_contra hno
      push Not at hno
      exact hget (h.sound.refused fd hno)
    have hheld := h.held f hf
    obtain ⟨m, heq, hm⟩ := fclose_eq hheld.get (Kmem.live_ne_zero hheld.desc) (by rw [hheld.record]; exact hheld.type)
    rw [heq, if_pos rfl, hheld.record]
    exact h.closed hf hm

/-! ## Runs -/

theorem Inv.start (h : ∀ i < fileDescriptors, k.file_descriptors i = 0) : Inv ⟨k, []⟩ :=
  ⟨by simp, by simp, List.nodup_nil, fun i hi _ => h i (by omega)⟩

/-- From an empty table, in every run whose calls are all good: in each state every descriptor that
was returned and not closed is sound. -/
theorem descriptors_sound (h : ∀ i < fileDescriptors, k.file_descriptors i = 0) {calls : List Call}
    (hlegal : ∀ c ∈ calls, Legal c) (hgood : Each step Good ⟨k, []⟩ calls) :
    Along step Sound ⟨k, []⟩ calls := by
  have hok : Each step (fun st c => Legal c ∧ Good st c) ⟨k, []⟩ calls :=
    each_and.mpr ⟨each_iff_forall.mpr hlegal, hgood⟩
  refine (along_of_inv ?_ (Inv.start h) hok).mono fun _ => Inv.sound
  rintro st c hinv ⟨hl, hg⟩
  cases c with
  | fopen filename mode_str => exact hinv.fopen hl hg
  | fclose fd => exact hinv.fclose fd

/-! ## A volume with one file -/

/-- The entry of the file `A`, of 600 bytes, in cluster 2. -/
def entryA : List Byte :=
  0x41 :: List.replicate 10 0x20 ++ List.replicate 15 0 ++ [2, 0, 0x58, 2, 0, 0]

def volumeA (answer : Nat → Addr) : Kernel :=
  let k := { emptyKernel with heap := { emptyKernel.heap with answer } }
  let (k, items) := k.onKmem (kzalloc · sizeofFatDirectoryItem)
  { k with
    mem := storeBytes k.mem items entryA
    fs_private := { k.fs_private with
      header := ⟨1, 1, 1, 1, 1⟩
      root_directory := ⟨items, 1, 2, 2⟩ } }

/-- A heap that never fails, but for the answer to its request `n`. -/
def failsAt (n : Nat) : Nat → Addr := Function.update (emptyKernel.heap.answer) n 0

theorem recordGranted_of {s : List Byte} {mode_str : CharPtr}
    (h : (do
      let (k1, root) ← pathparserParse k (cstr s)
      let mode ← fileGetModeByString mode_str
      let (k2, _) ← fat16Open k1 (k1.pathRoots root).first mode
      return (kzalloc k2.toKmem sizeofFileDescriptor).2 ≠ 0 : Option Bool) = some true) :
    RecordGranted k s mode_str := by
  intro k1 root mode k2 priv h1 h2 h3
  simpa [h1, h2, h3] using h

theorem descriptors_sound_pathA :
    Along step Sound ⟨volumeA emptyKernel.heap.answer, []⟩ [.fopen pathA modeR, .fclose 1] := by
  refine descriptors_sound (fun i _ => rfl) ?_ ⟨⟨by decide +kernel, ?_⟩, trivial, trivial⟩
  · simp only [List.forall_mem_cons, Legal]
    exact ⟨by unfold NoNul; decide, by simp⟩
  · exact recordGranted_of (by decide +kernel)

/-- The ninth request is the record of the descriptor. -/
theorem null_descriptor_is_returned :
    ¬ Along step Sound ⟨volumeA (failsAt 8), []⟩ [.fopen pathA modeR] := by
  have h : (fopen (volumeA (failsAt 8)) (cstr pathA) modeR).map (fun r => (r.2, r.1.file_descriptors 0)) =
      some (1, 0) := by decide +kernel
  obtain ⟨⟨k', fd⟩, hopen, hr⟩ := Option.map_eq_some_iff.mp h
  rw [Prod.mk.injEq] at hr
  obtain ⟨rfl, hnull⟩ := hr
  rintro ⟨-, hsound⟩
  have hstep : step ⟨volumeA (failsAt 8), []⟩ (.fopen pathA modeR) = ⟨k', [handle k' 1]⟩ := by
    unfold step
    dsimp only
    rw [hopen]
    rfl
  rw [along_nil, hstep] at hsound
  exact (hsound.reached _ (List.mem_singleton_self _)).1 hnull

end MultitaskOs.Descriptors
