import MultitaskOs.AddressSpace
import MultitaskOs.FailedLoad

/-!
# Who owns which block

Several loaded processes, each on blocks of its own, and what user code of each
may write. One lemma a step says that this lasts, and that it leaves the other
processes alone.
-/

open Lib Lib.Memory Lib.Arena Lib.Run Lib.Mmu MultitaskOs.Paging MultitaskOs.Tasks MultitaskOs.ProcessMemory
  MultitaskOs.Isolation MultitaskOs.ElfMap MultitaskOs.Arguments MultitaskOs.Injection MultitaskOs.LoadSteps
  MultitaskOs.LoadOutcome MultitaskOs.ProcessTable MultitaskOs.Termination MultitaskOs.Translation
  MultitaskOs.LoadedImage MultitaskOs.AddressSpace MultitaskOs.FailedLoad

namespace MultitaskOs.Ownership

variable {k k' k'' : Kernel} {ps : List Addr} {dir : Addr → PageDir} {p q a ptr x v : Addr} {size : BitVec 32} {n : Nat}

/-! ## Blocks of a process -/

/-- The block at `a` is one that user code of `p` may write. -/
def Own (k : Kernel) (p a : Addr) : Prop := a = imageOf k p ∨ a = (k.procs p).stack ∨ a ≠ 0 ∧ Held (k.procs p) a

/-- The block at `a` is one that `p` stands on or holds. -/
def Belongs (k : Kernel) (dir : Addr → PageDir) (p a : Addr) : Prop :=
  a ∈ fixed k dir p ∨ a ∈ estate k p ∨ a ≠ 0 ∧ Held (k.procs p) a

/-- A page of the image, of the stack, or of an allocation. -/
def Right (k : Kernel) (p : Addr) (v : Nat) : Prop :=
  (∃ n, (⟨imageOf k p, n⟩ : Block) ∈ k.heap.live ∧ InImage (imageOf k p) n (tableAddress (pageEntry k p v))) ∨
  InImage (k.procs p).stack userProgramStackSize (tableAddress (pageEntry k p v)) ∨
  pageEntry k p v = BitVec.ofNat 32 (4096 * v) ||| pagingUserWriteable ∧ ∃ i < maxProgramAllocations,
    (allocation k p i).ptr ≠ 0 ∧ PageOf (allocation k p i).ptr (allocation k p i).size v

/-- What holds of one process, whatever the others are. -/
structure Sound (k : Kernel) (dir : Addr → PageDir) (p : Addr) : Prop where
  process : (k.tasks (k.procs p).task).process = p
  points : Points (dir p) k.mem 5
  filetype : (k.procs p).filetype = processFiletypeElf
  stack : (⟨(k.procs p).stack, userProgramStackSize⟩ : Block) ∈ k.heap.live
  live : ∀ b ∈ estate k p, k.heap.Live b
  fixed : ∀ b ∈ estate k p, b ∉ fixed k dir p
  held : ∀ b ∈ estate k p, ¬ Held (k.procs p) b
  rights : ∀ v < 2 ^ 20, Writeable (pageEntry k p v) → Right k p v
  usable : ∀ i < maxProgramAllocations, (allocation k p i).ptr ≠ 0 → ∀ v < 2 ^ 20,
    PageOf (allocation k p i).ptr (allocation k p i).size v →
    pageEntry k p v = BitVec.ofNat 32 (4096 * v) ||| pagingUserWriteable

theorem Sound.congr {dir' : Addr → PageDir} (h : Sound k dir p) (hd : dir' p = dir p) : Sound k dir' p := by
  refine ⟨h.process, ?_, h.filetype, h.stack, h.live, ?_, h.held, h.rights, h.usable⟩
  · rw [hd]
    exact h.points
  · rw [ProcessMemory.fixed, hd]
    exact h.fixed

structure Inv (k : Kernel) (ps : List Addr) (dir : Addr → PageDir) : Prop where
  world : World k ps dir
  sound : ∀ p ∈ ps, Sound k dir p
  apart : ∀ p ∈ ps, ∀ q ∈ ps, p ≠ q → ∀ a, Belongs k dir p a → ¬ Belongs k dir q a

theorem Own.belongs (h : Own k p a) : Belongs k dir p a := by
  rcases h with rfl | rfl | h
  · exact Or.inr (Or.inl (by simp [estate]))
  · exact Or.inr (Or.inl (by simp [estate]))
  · exact Or.inr (Or.inr h)

theorem World.held_live (hw : World k ps dir) (hp : p ∈ ps) (h0 : a ≠ 0) (h : Held (k.procs p) a) : k.heap.Live a := by
  obtain ⟨i, hi, rfl⟩ := h
  exact ⟨_, (hw.held p hp i hi h0).1⟩

theorem Inv.live (h : Inv k ps dir) (hp : p ∈ ps) (ha : Belongs k dir p a) : k.heap.Live a := by
  rcases ha with ha | ha | ⟨h0, hheld⟩
  · exact h.world.live p hp a ha
  · exact (h.sound p hp).live a ha
  · exact World.held_live h.world hp h0 hheld

theorem Inv.ne_zero (h : Inv k ps dir) (hp : p ∈ ps) : p ≠ 0 :=
  Kmem.live_ne_zero (h.world.live p hp p (by simp [ProcessMemory.fixed]))

theorem Inv.own_not_fixed (h : Inv k ps dir) (hp : p ∈ ps) (ha : Own k p a) : a ∉ fixed k dir p := by
  rcases ha with rfl | rfl | ⟨h0, i, hi, rfl⟩
  · exact (h.sound p hp).fixed _ (by simp [estate])
  · exact (h.sound p hp).fixed _ (by simp [estate])
  · exact (h.world.held p hp i hi h0).2 p hp

theorem Inv.own_not_belongs (h : Inv k ps dir) (hp : p ∈ ps) (hq : q ∈ ps) (hne : p ≠ q) (ha : Own k p a) :
    ¬ Belongs k dir q a := h.apart p hp q hq hne a ha.belongs

/-! ## What stays the same of a process -/

/-- The record says the same about the blocks of the process. -/
structure SameOwner (k k' : Kernel) (p : Addr) : Prop where
  task : (k'.procs p).task = (k.procs p).task
  allocations : (k'.procs p).allocations = (k.procs p).allocations
  filetype : (k'.procs p).filetype = (k.procs p).filetype
  ptr : (k'.procs p).ptr = (k.procs p).ptr
  stack : (k'.procs p).stack = (k.procs p).stack
  process : (k'.tasks (k.procs p).task).process = (k.tasks (k.procs p).task).process
  directory : pageDirectory k' p = pageDirectory k p
  image : imageOf k' p = imageOf k p

section SameOwner

theorem SameOwner.fixed_eq (h : SameOwner k k' p) : fixed k' dir p = fixed k dir p := by
  rw [fixed, fixed, h.task]

theorem SameOwner.estate_eq (h : SameOwner k k' p) : estate k' p = estate k p := by
  rw [estate, estate, Process.elf_file, Process.elf_file, h.ptr, h.image, h.stack]

theorem SameOwner.held_iff (h : SameOwner k k' p) : Held (k'.procs p) a ↔ Held (k.procs p) a := by
  rw [Held, Held, h.allocations]

theorem SameOwner.belongs_iff (h : SameOwner k k' p) : Belongs k' dir p a ↔ Belongs k dir p a := by
  rw [Belongs, Belongs, h.fixed_eq, h.estate_eq, h.held_iff]

theorem SameOwner.own_iff (h : SameOwner k k' p) : Own k' p a ↔ Own k p a := by
  rw [Own, Own, h.image, h.stack, h.held_iff]

theorem Sound.same (h : Sound k dir p) (hd : pageDirectory k p = (dir p).chunk) (hholds : (dir p).Holds k.mem)
    (hs : SameOwner k k' p) (hlive : ∀ b ∈ k.heap.live, Belongs k dir p b.base → b ∈ k'.heap.live)
    (hdir : ∀ b ∈ (dir p).blocks, Agree k.mem k'.mem b 4096) : Sound k' dir p := by
  have hentry : ∀ v < 2 ^ 20, pageEntry k' p v = pageEntry k p v := by
    intro v hv
    rw [pageEntry_eq (hs.directory.trans hd) (hholds.frame hdir) hv, pageEntry_eq hd hholds hv]
    exact PageDir.entry_frame hdir hv
  have hestate : ∀ {a : Addr}, a ∈ estate k p → Belongs k dir p a := fun ha => Or.inr (Or.inl ha)
  refine ⟨?_, h.points.agree (hdir _ PageDir.directory_mem), hs.filetype.trans h.filetype, ?_, ?_, ?_, ?_, ?_, ?_⟩
  · rw [hs.task, hs.process, h.process]
  · rw [hs.stack]
    exact hlive _ h.stack (hestate (by simp [estate]))
  · rw [hs.estate_eq]
    intro b hb
    obtain ⟨n, hn⟩ := h.live b hb
    exact ⟨n, hlive _ hn (hestate hb)⟩
  · rw [hs.estate_eq, hs.fixed_eq]
    exact h.fixed
  · rw [hs.estate_eq]
    exact fun b hb => hs.held_iff.not.mpr (h.held b hb)
  · intro v hv
    rw [Right, hentry v hv, hs.image, hs.stack]
    simp only [allocation, hs.allocations]
    intro hwr
    obtain ⟨n, hn, hin⟩ | hin := h.rights v hv hwr
    · exact Or.inl ⟨n, hlive _ hn (hestate (by simp [estate])), hin⟩
    · exact Or.inr hin
  · intro i hi h0 v hv hpage
    simp only [allocation, hs.allocations] at h0 hpage
    rw [hentry v hv]
    exact h.usable i hi h0 v hv hpage

end SameOwner

/-- The step leaves the process alone: its record, its task but for the links of the list, its blocks
and all that is in them. -/
structure Untouched (dir : Addr → PageDir) (q : Addr) (k k' : Kernel) : Prop where
  record : k'.procs q = k.procs q
  task : Relinked (k.tasks (k.procs q).task) (k'.tasks (k.procs q).task)
  image : k'.elfFiles (k.procs q).elf_file = k.elfFiles (k.procs q).elf_file
  live : ∀ b ∈ k.heap.live, Belongs k dir q b.base → b ∈ k'.heap.live
  bytes : ∀ b ∈ k.heap.live, Belongs k dir q b.base → Agree k.mem k'.mem b.base (extent blockSize b.size)

section Untouched

theorem Untouched.refl (dir : Addr → PageDir) (q : Addr) (k : Kernel) : Untouched dir q k k :=
  ⟨rfl, ⟨_, _, rfl⟩, rfl, fun _ hb _ => hb, fun _ _ _ => Agree.refl _ _ _⟩

theorem Untouched.same (h : Untouched dir q k k') : SameOwner k k' q := by
  have himage : imageOf k' q = imageOf k q := by
    rw [imageOf, imageOf, h.record, h.image]
  obtain ⟨next, prev, htask⟩ := h.task
  refine ⟨by rw [h.record], by rw [h.record], by rw [h.record], by rw [h.record], by rw [h.record], ?_, ?_, himage⟩
  · rw [htask]
  · rw [pageDirectory, pageDirectory, h.record, htask]

theorem Untouched.trans (h : Untouched dir q k k') (h' : Untouched dir q k' k'') : Untouched dir q k k'' := by
  have hsame := h.same
  have hrec := h.record
  refine ⟨h'.record.trans hrec, ?_, ?_, fun b hb hq => ?_, fun b hb hq => ?_⟩
  · have := h'.task
    rw [hrec] at this
    exact h.task.trans this
  · have := h'.image
    rw [hrec] at this
    exact this.trans h.image
  · exact h'.live b (h.live b hb hq) (hsame.belongs_iff.mpr hq)
  · exact (h.bytes b hb hq).trans (h'.bytes b (h.live b hb hq) (hsame.belongs_iff.mpr hq))

theorem Untouched.congr {dir' : Addr → PageDir} (h : Untouched dir' q k k') (hd : dir' q = dir q) :
    Untouched dir q k k' := by
  have hbelongs : ∀ {a : Addr}, Belongs k dir q a → Belongs k dir' q a := by
    intro a ha
    rwa [Belongs, fixed, hd]
  exact ⟨h.record, h.task, h.image, fun b hb hq => h.live b hb (hbelongs hq), fun b hb hq => h.bytes b hb (hbelongs hq)⟩

theorem Untouched.pages (h : Untouched dir q k k') (hw : World k ps dir) (hq : q ∈ ps) :
    ∀ b ∈ (dir q).blocks, Agree k.mem k'.mem b 4096 := by
  intro b hb
  obtain ⟨n, hn⟩ := hw.live q hq b (block_mem_fixed hb)
  refine (h.bytes _ hn (Or.inl (block_mem_fixed hb))).sub ?_
  have hpage : 4096 ≤ extent blockSize n := le_extent n
  simpa using hpage

theorem Untouched.sound (h : Untouched dir q k k') (hi : Inv k ps dir) (hq : q ∈ ps) : Sound k' dir q :=
  (hi.sound q hq).same (hi.world.directory q hq) (hi.world.holds q hq) h.same h.live (h.pages hi.world hq)

theorem Untouched.userAccess (h : Untouched dir q k k') (hi : Inv k ps dir) (hq : q ∈ ps) (a : Access) (v : Addr) :
    userAccess k' q a v = userAccess k q a v := by
  have hd := hi.world.directory q hq
  have hholds := hi.world.holds q hq
  have hpages := h.pages hi.world hq
  have hreg : directoryRegister k q = (dir q).directory := by
    rw [directoryRegister, hd, hholds.chunk]
  have hreg' : directoryRegister k' q = (dir q).directory := by
    rw [directoryRegister, h.same.directory, hd, (hholds.frame hpages).chunk]
  rw [AddressSpace.userAccess, AddressSpace.userAccess, hreg, hreg']
  refine translate_agree (fun x hx => ?_) _ _ _
  obtain ⟨b, hb, hin⟩ := footprint_pageDir hholds hx
  exact hpages b hb x hin

end Untouched

/-- A step on behalf of `p`, with the directories as they are. -/
structure Moves (ps : List Addr) (dir : Addr → PageDir) (p : Addr) (k k' : Kernel) : Prop where
  inv : Inv k' ps dir
  others : ∀ q ∈ ps, q ≠ p → Untouched dir q k k'

theorem Moves.refl (h : Inv k ps dir) (p : Addr) : Moves ps dir p k k := ⟨h, fun q _ _ => Untouched.refl dir q k⟩

theorem Moves.trans (h : Moves ps dir p k k') (h' : Moves ps dir p k' k'') : Moves ps dir p k k'' :=
  ⟨h'.inv, fun q hq hne => (h.others q hq hne).trans (h'.others q hq hne)⟩

theorem Inv.moves (h : Inv k ps dir) (hw : World k' ps dir) (hothers : ∀ q ∈ ps, q ≠ p → Untouched dir q k k')
    (hself : p ∈ ps → Sound k' dir p) (hnew : p ∈ ps → ∀ a, Belongs k' dir p a → Belongs k dir p a ∨ ¬ k.heap.Live a) :
    Moves ps dir p k k' := by
  refine ⟨⟨hw, fun q hq => ?_, fun q hq r hr hne a hqa hra => ?_⟩, hothers⟩
  · by_cases hqp : q = p
    · exact hqp ▸ hself (hqp ▸ hq)
    · exact (hothers q hq hqp).sound h hq
  · -- two processes, of which one at most is `p`
    have hold : ∀ s ∈ ps, Belongs k' dir s a → Belongs k dir s a ∨ s = p ∧ ¬ k.heap.Live a := by
      intro s hs hsa
      by_cases hsp : s = p
      · subst hsp
        exact (hnew hs a hsa).imp id fun hl => ⟨rfl, hl⟩
      · exact Or.inl ((hothers s hs hsp).same.belongs_iff.mp hsa)
    rcases hold q hq hqa with hqa | ⟨rfl, hdead⟩ <;> rcases hold r hr hra with hra | ⟨rfl, hdead'⟩
    · exact h.apart q hq r hr hne a hqa hra
    · exact hdead' (h.live hq hqa)
    · exact hdead (h.live hr hra)
    · exact hne rfl

/-! ## Steps that touch no block -/

/-- What a step leaves alone that moves neither memory nor heap, nor the blocks a record names. -/
structure SameBlocks (k k' : Kernel) : Prop where
  toKmem : k'.toKmem = k.toKmem
  elfFiles : k'.elfFiles = k.elfFiles
  procs : ∀ q, ∃ keyboard arguments, k'.procs q = { k.procs q with keyboard, arguments }
  tasks : ∀ t, ∃ registers next prev, k'.tasks t = { k.tasks t with registers, next, prev }

theorem SameBlocks.owner (h : SameBlocks k k') (q : Addr) : SameOwner k k' q := by
  obtain ⟨_, _, hrec⟩ := h.procs q
  obtain ⟨_, _, _, htask⟩ := h.tasks (k.procs q).task
  refine ⟨by rw [hrec], by rw [hrec], by rw [hrec], by rw [hrec], by rw [hrec], by rw [htask], ?_, ?_⟩
  · rw [pageDirectory, pageDirectory, hrec, htask]
  · rw [imageOf, imageOf, Process.elf_file, Process.elf_file, hrec, h.elfFiles]

theorem World.sameBlocks (hw : World k ps dir) (h : SameBlocks k k') : World k' ps dir := by
  have hfixed : ∀ q, fixed k' dir q = fixed k dir q := fun q => (h.owner q).fixed_eq
  have hallocation : ∀ q i, allocation k' q i = allocation k q i := fun q i =>
    congrFun (h.owner q).allocations i
  refine ⟨fun q hq => (h.owner q).directory.trans (hw.directory q hq), ?_, ?_, ?_, ?_, ?_⟩
  · rw [h.toKmem]
    exact hw.holds
  · simp only [hfixed, h.toKmem]
    exact hw.live
  · simp only [hfixed]
    exact hw.apart
  · simp only [hfixed, hallocation, h.toKmem]
    exact hw.held
  · simp only [hallocation]
    exact hw.distinct

theorem Inv.sameBlocks (h : Inv k ps dir) (hb : SameBlocks k k')
    (hothers : ∀ q ∈ ps, q ≠ p → k'.procs q = k.procs q ∧ (k'.tasks (k.procs q).task).registers =
      (k.tasks (k.procs q).task).registers) : Moves ps dir p k k' := by
  refine h.moves (World.sameBlocks h.world hb) (fun q hq hne => ?_) (fun hp => ?_) fun _ a ha => ?_
  · obtain ⟨hrec, hregs⟩ := hothers q hq hne
    obtain ⟨registers, next, prev, htask⟩ := hb.tasks (k.procs q).task
    obtain rfl : registers = (k.tasks (k.procs q).task).registers := by
      rw [htask] at hregs
      exact hregs
    refine ⟨hrec, ⟨next, prev, htask⟩, by rw [hb.elfFiles], fun b hlive _ => ?_, fun b _ _ => ?_⟩
    · rwa [hb.toKmem]
    · rw [hb.toKmem]
      exact Agree.refl _ _ _
  · refine (h.sound p hp).same (h.world.directory p hp) (h.world.holds p hp) (hb.owner p) (fun b hlive _ => ?_)
      fun b _ => ?_
    · rwa [hb.toKmem]
    · rw [hb.toKmem]
      exact Agree.refl _ _ _
  · exact Or.inl ((hb.owner p).belongs_iff.mp ha)

/-! ## Memory -/

theorem Inv.write {mem : Mem} {out : List Addr} (h : Inv k ps dir) (hp : p ∈ ps) (hin : Inside k out mem)
    (hout : ∀ a ∈ out, Own k p a) : Moves ps dir p k { k with mem } := by
  have hnot : ∀ q ∈ ps, ∀ a ∈ out, a ∉ fixed k dir q := by
    intro q hq a ha
    by_cases hqp : p = q
    · exact hqp ▸ h.own_not_fixed hp (hout a ha)
    · exact fun hfix => h.own_not_belongs hp hq hqp (hout a ha) (Or.inl hfix)
  have hsame : ∀ q, SameOwner k { k with mem } q := fun q => ⟨rfl, rfl, rfl, rfl, rfl, rfl, rfl, rfl⟩
  refine h.moves (world_inside h.world hin fun a ha q hq => hnot q hq a ha) (fun q hq hne => ?_) (fun _ => ?_)
    fun _ a ha => Or.inl ((hsame p).belongs_iff.mp ha)
  · exact ⟨rfl, ⟨_, _, rfl⟩, rfl, fun b hb _ => hb, fun b hb hbelongs => hin.agree hb fun ho =>
      h.own_not_belongs hp hq hne.symm (hout _ ho) hbelongs⟩
  · refine (h.sound p hp).same (h.world.directory p hp) (h.world.holds p hp) (hsame p) (fun b hb _ => hb) fun b hb => ?_
    exact hin.page (h.world.live p hp b (block_mem_fixed hb)) fun ho => hnot p hp b ho (block_mem_fixed hb)

theorem Inv.unchanged (h : Inv k ps dir) (hu : Unchanged k k') (helf : k'.elfFiles = k.elfFiles) :
    Moves ps dir p k k' := by
  have hsame : ∀ q, SameOwner k k' q := by
    intro q
    refine ⟨by rw [hu.procs], by rw [hu.procs], by rw [hu.procs], by rw [hu.procs], by rw [hu.procs],
      by rw [hu.tasks], ?_, ?_⟩
    · rw [pageDirectory, pageDirectory, hu.procs, hu.tasks]
    · rw [imageOf, imageOf, hu.procs, helf]
  refine h.moves (h.world.unchanged hu) (fun q hq _ => ?_) (fun hp => ?_)
    fun _ a ha => Or.inl ((hsame p).belongs_iff.mp ha)
  · exact ⟨by rw [hu.procs], ⟨_, _, by rw [hu.tasks]⟩, by rw [helf], fun b hb _ => hu.keeps.live b hb,
      fun b hb _ => hu.keeps.bytes b hb⟩
  · exact (h.sound p hp).same (h.world.directory p hp) (h.world.holds p hp) (hsame p)
      (fun b hb _ => hu.keeps.live b hb) fun b hb => hu.keeps.page (h.world.live p hp b (block_mem_fixed hb))

/-- A step that changes the allocations of `p`, and puts none of its other blocks out of use. -/
structure Reallocates (k k' : Kernel) (p : Addr) : Prop where
  record : ∃ allocations, k'.procs p = { k.procs p with allocations }
  others : ∀ q, q ≠ p → k'.procs q = k.procs q
  elfFiles : k'.elfFiles = k.elfFiles
  tasks : k'.tasks = k.tasks
  live : ∀ b ∈ k.heap.live, b.base ∈ estate k p → b ∈ k'.heap.live

section Reallocates

theorem Reallocates.image_eq (h : Reallocates k k' p) : imageOf k' p = imageOf k p := by
  obtain ⟨_, hself⟩ := h.record
  rw [imageOf, imageOf, Process.elf_file, Process.elf_file, hself, h.elfFiles]

theorem Reallocates.estate_eq (h : Reallocates k k' p) : estate k' p = estate k p := by
  obtain ⟨_, hself⟩ := h.record
  rw [estate, estate, Process.elf_file, Process.elf_file, h.image_eq, hself]

theorem Reallocates.fixed_eq (h : Reallocates k k' p) : fixed k' dir p = fixed k dir p := by
  obtain ⟨_, hself⟩ := h.record
  rw [fixed, fixed, hself]

theorem Reallocates.belongs (h : Reallocates k k' p) (ha : Belongs k' dir p a) :
    Belongs k dir p a ∨ a ≠ 0 ∧ Held (k'.procs p) a := by
  rw [Belongs, h.fixed_eq, h.estate_eq] at ha
  obtain ha | ha | ha := ha
  · exact Or.inl (Or.inl ha)
  · exact Or.inl (Or.inr (Or.inl ha))
  · exact Or.inr ha

theorem Right.reallocates {v : Nat} (hright : Right k p v) (h : Reallocates k k' p)
    (hentry : pageEntry k' p v = pageEntry k p v)
    (hslot : ∀ i < maxProgramAllocations, (allocation k p i).ptr ≠ 0 →
      PageOf (allocation k p i).ptr (allocation k p i).size v → allocation k' p i = allocation k p i) :
    Right k' p v := by
  obtain ⟨_, hself⟩ := h.record
  rw [Right, hentry, h.image_eq, hself]
  obtain ⟨n, hn, hin⟩ | hin | ⟨he, i, hi, h0, hpage⟩ := hright
  · exact Or.inl ⟨n, h.live _ hn (by simp [estate]), hin⟩
  · exact Or.inr (Or.inl hin)
  · refine Or.inr (Or.inr ⟨he, i, hi, ?_⟩)
    rw [hslot i hi h0 hpage]
    exact ⟨h0, hpage⟩

theorem Sound.reallocates (hs : Sound k dir p) (h : Reallocates k k' p) (hpoints : Points (dir p) k'.mem 5)
    (hheld : ∀ b ∈ estate k p, ¬ Held (k'.procs p) b)
    (hrights : ∀ v < 2 ^ 20, Writeable (pageEntry k' p v) → Right k' p v)
    (husable : ∀ i < maxProgramAllocations, (allocation k' p i).ptr ≠ 0 → ∀ v < 2 ^ 20,
      PageOf (allocation k' p i).ptr (allocation k' p i).size v →
      pageEntry k' p v = BitVec.ofNat 32 (4096 * v) ||| pagingUserWriteable) : Sound k' dir p := by
  obtain ⟨_, hself⟩ := h.record
  refine ⟨?_, hpoints, ?_, ?_, ?_, ?_, ?_, hrights, husable⟩
  · rw [hself, h.tasks]
    exact hs.process
  · rw [hself]
    exact hs.filetype
  · rw [hself]
    exact h.live _ hs.stack (by simp [estate])
  · rw [h.estate_eq]
    intro b hb
    obtain ⟨n, hn⟩ := hs.live b hb
    exact ⟨n, h.live _ hn hb⟩
  · rw [h.estate_eq, h.fixed_eq]
    exact hs.fixed
  · rw [h.estate_eq]
    exact hheld

end Reallocates

section Malloced

variable {i : Nat} {d : PageDir}

theorem Malloced.mono (hm : Malloced k k' p ptr size d i) : ∀ b ∈ k.heap.live, b ∈ k'.heap.live := by
  intro b hb
  rw [hm.live]
  exact List.mem_cons_of_mem _ hb

theorem Malloced.reallocates (hm : Malloced k k' p ptr size d i) (helf : k'.elfFiles = k.elfFiles) :
    Reallocates k k' p := by
  refine ⟨⟨Function.update (k.procs p).allocations i ⟨ptr, size⟩, ?_⟩, fun q hq => ?_, helf, hm.tasks,
    fun b hb _ => Malloced.mono hm b hb⟩
  · rw [hm.procs, Function.update_self]
  · rw [hm.procs, Function.update_of_ne hq]

theorem Malloced.held (hm : Malloced k k' p ptr size d i) (h : Held (k'.procs p) a) : a = ptr ∨ Held (k.procs p) a := by
  obtain ⟨j, hj, rfl⟩ := h
  have hslot := hm.allocation_eq p j
  rw [allocation] at hslot
  rw [hslot]
  split
  · exact Or.inl rfl
  · exact Or.inr ⟨j, hj, rfl⟩

theorem Sound.right_malloced (hs : Sound k dir p) (hw : World k ps dir) (hp : p ∈ ps)
    (hm : Malloced k k' p ptr size (dir p) i) (h0 : ptr ≠ 0) (helf : k'.elfFiles = k.elfFiles) {v : Nat}
    (hv : v < 2 ^ 20) (hwr : Writeable (pageEntry k' p v)) : Right k' p v := by
  have hentry := pageEntry_malloced hw hp hm hp hv
  by_cases hpage : PageOf ptr size v
  · rw [if_pos ⟨rfl, hpage⟩] at hentry
    refine Or.inr (Or.inr ⟨hentry, i, hm.slot, ?_⟩)
    rw [hm.allocation_eq, if_pos ⟨rfl, rfl⟩]
    exact ⟨h0, hpage⟩
  · rw [if_neg fun he => hpage he.2] at hentry
    refine (hs.rights v hv (hentry ▸ hwr)).reallocates (Malloced.reallocates hm helf) hentry fun j _ hj0 _ => ?_
    rw [hm.allocation_eq, if_neg]
    rintro ⟨-, rfl⟩
    exact hj0 hm.was_free

theorem Sound.usable_malloced (hs : Sound k dir p) (hw : World k ps dir) (hp : p ∈ ps)
    (hm : Malloced k k' p ptr size (dir p) i) {j v : Nat} (hj : j < maxProgramAllocations)
    (hj0 : (allocation k' p j).ptr ≠ 0) (hv : v < 2 ^ 20)
    (hpage : PageOf (allocation k' p j).ptr (allocation k' p j).size v) :
    pageEntry k' p v = BitVec.ofNat 32 (4096 * v) ||| pagingUserWriteable := by
  rw [pageEntry_malloced hw hp hm hp hv]
  split
  · rfl
  · rename_i hnew
    have hslot := hm.allocation_eq p j
    rw [if_neg] at hslot
    · rw [hslot] at hj0 hpage
      exact hs.usable j hj hj0 v hv hpage
    · rintro ⟨-, rfl⟩
      rw [hm.allocation_eq, if_pos ⟨rfl, rfl⟩] at hpage
      exact hnew ⟨rfl, hpage⟩

end Malloced

theorem Inv.malloced {i : Nat} (h : Inv k ps dir) (hp : p ∈ ps) (hm : Malloced k k' p ptr size (dir p) i)
    (h0 : ptr ≠ 0) (helf : k'.elfFiles = k.elfFiles) : Moves ps dir p k k' := by
  have hsound := h.sound p hp
  have hre := Malloced.reallocates hm helf
  refine h.moves (h.world.malloced hp hm) (fun q hq hne => ?_) (fun _ => ?_) fun _ a ha => ?_
  · have hnt : ∀ {a}, Belongs k dir q a → a ∉ (dir p).blocks := fun hq' hb =>
      h.apart q hq p hp hne _ hq' (Or.inl (block_mem_fixed hb))
    exact ⟨hre.others q hne, ⟨_, _, by rw [hm.tasks]⟩, by rw [helf], fun b hb _ => Malloced.mono hm b hb,
      fun b hb hq' => malloced_bytes hm (h.world.inMem hp) hb (hnt hq')⟩
  · obtain ⟨m1, hf, -, hr⟩ := hm.block
    refine hsound.reallocates hre ((hsound.points.keeps (h.world.inMem hp) hf.keeps).remap hr) (fun b hb hb' => ?_)
      (fun v hv => hsound.right_malloced h.world hp hm h0 helf hv)
      fun j hj hj0 v hv => hsound.usable_malloced h.world hp hm hj hj0 hv
    rcases Malloced.held hm hb' with rfl | hb'
    · exact hm.not_live (hsound.live b hb)
    · exact hsound.held b hb hb'
  · rcases hre.belongs ha with ha | ⟨ha0, ha⟩
    · exact Or.inl ha
    · rcases Malloced.held hm ha with rfl | ha
      · exact Or.inr hm.not_live
      · exact Or.inl (Or.inr (Or.inr ⟨ha0, ha⟩))

theorem Inv.malloc (h : Inv k ps dir) (hp : p ∈ ps) (size : BitVec 32) :
    Moves ps dir p k (processMalloc k p size).1 := by
  have helf := elfFiles_processMalloc k p size
  rcases processMalloc_cases size (h.world.directory p hp) (h.world.inMem hp) with ⟨-, hu⟩ | ⟨i, h0, hm⟩
  · exact h.unchanged hu helf
  · exact h.malloced hp hm h0 helf

theorem Sound.reallocates_free (hs : Sound k dir p) (h : Held (k.procs p) ptr) :
    Reallocates k (processFree k p ptr) p := by
  rw [processFree_of_held h]
  refine ⟨⟨_, Function.update_self _ _ _⟩, fun _ hq => Function.update_of_ne hq _ _, rfl, rfl, fun b hb hb' => ?_⟩
  exact Arena.mem_free_live.mpr ⟨hb, fun he => hs.held b.base hb' (he ▸ h)⟩

theorem held_of_free (h0 : a ≠ 0) (h : Held ((processFree k p ptr).procs p) a) : Held (k.procs p) a := by
  obtain ⟨i, hi, rfl⟩ := h
  have hslot := allocation_free k p ptr p hi
  rw [allocation] at hslot
  rw [hslot] at h0 ⊢
  split at h0
  · exact absurd rfl h0
  · rename_i hne
    rw [if_neg hne]
    exact ⟨i, hi, rfl⟩

theorem Inv.free_untouched (h : Inv k ps dir) (hp : p ∈ ps) (hheld : Held (k.procs p) ptr) (hq : q ∈ ps) (hne : q ≠ p) :
    Untouched dir q k (processFree k p ptr) := by
  rw [processFree_of_held hheld]
  refine ⟨Function.update_of_ne hne _ _, ⟨_, _, rfl⟩, rfl, fun b hb hbelongs => Arena.mem_free_live.mpr ⟨hb, ?_⟩,
    fun b _ _ => Agree.refl _ _ _⟩
  rintro rfl
  exact h.apart q hq p hp hne _ hbelongs (Or.inr (Or.inr ⟨(k.heap.placed b hb).1, hheld⟩))

theorem Inv.free (h : Inv k ps dir) (hp : p ∈ ps) (hok : Harmless k (.free p ptr)) :
    Moves ps dir p k (processFree k p ptr) := by
  by_cases hheld : Held (k.procs p) ptr
  swap
  · rw [processFree_of_not_held hheld]
    exact Moves.refl h p
  have hsound := h.sound p hp
  have hre := hsound.reallocates_free hheld
  have hslot := fun i (hi : i < maxProgramAllocations) => allocation_free k p ptr p hi
  have hentry := pageEntry_free k p ptr p
  refine h.moves (h.world.free hp ptr) (fun q hq hne => h.free_untouched hp hheld hq hne) (fun _ => ?_) fun _ a ha => ?_
  · refine hsound.reallocates hre ?_ (fun b hb hb' => ?_) (fun v hv hwr => ?_) fun j hj hj0 v hv hpage => ?_
    · rw [processFree_of_held hheld]
      exact hsound.points
    · exact hsound.held b hb (held_of_free (Kmem.live_ne_zero (hsound.live b hb)) hb')
    · refine (hsound.rights v hv (hentry v ▸ hwr)).reallocates hre (hentry v) fun j hj hj0 hin => ?_
      rw [hslot j hj, if_neg]
      -- the allocation given back has no page
      rintro ⟨-, hptr⟩
      rw [hok j hj hptr (hptr ▸ hj0)] at hin
      obtain ⟨h1, h2⟩ := hin
      exact absurd h2 (by rw [show (0 : BitVec 32).toNat = 0 from rfl]; omega)
    · rw [hslot j hj] at hj0 hpage
      rw [hentry]
      split at hj0
      · exact absurd rfl hj0
      · rename_i hne
        rw [if_neg hne] at hpage
        exact hsound.usable j hj hj0 v hv hpage
  · rcases hre.belongs ha with ha | ⟨h0, ha⟩
    · exact Or.inl ha
    · exact Or.inl (Or.inr (Or.inr ⟨h0, held_of_free h0 ha⟩))

/-! ## The arguments of a process -/

theorem own_of_owned (h : Injection.Owned k p ptr size) : Own k p ptr := by
  obtain ⟨i, hi, hslot⟩ := h.slot
  exact Or.inr (Or.inr ⟨h.ne_zero, i, hi, congrArg ProcessAllocation.ptr hslot⟩)

variable {argv root current : Addr} {turns : Nat} {res : Int}

theorem injectLoop_moves {i : Nat} (h : Inv k ps dir) (hp : p ∈ ps) (hargv : Injection.Owned k p argv size)
    (hroom : i + free k p < maxProgramAllocations)
    (hloop : processInjectArgumentsLoop p argv turns k current i = some (k', res)) : Moves ps dir p k k' := by
  induction turns generalizing k current i with
  | zero => cases hloop
  | succ turns ih =>
    rw [processInjectArgumentsLoop] at hloop
    by_cases h0 : current = 0
    · rw [if_pos h0] at hloop
      cases hloop
      exact Moves.refl h p
    rw [if_neg h0] at hloop
    have hmoves := h.malloc hp (BitVec.ofNat 32 sizeofArgument)
    have hcases := processMalloc_cases (BitVec.ofNat 32 sizeofArgument) (h.world.directory p hp) (h.world.inMem hp)
    generalize processMalloc k p (BitVec.ofNat 32 sizeofArgument) = r at hloop hmoves hcases
    obtain ⟨k1, s⟩ := r
    dsimp only at hloop hmoves hcases
    rcases hcases with ⟨hs, hu⟩ | ⟨l, hs, hm⟩
    · rw [if_pos hs] at hloop
      cases hloop
      exact hmoves
    rw [if_neg hs] at hloop
    have hi : i < maxProgramAllocations := by omega
    have hnext : toInt32 ((i : Int) + 1) = ((i + 1 : Nat) : Int) := by
      unfold maxProgramAllocations at hi
      rw [toInt32_of_bounds (by omega) (by omega)]
      push_cast
      rfl
    rw [hnext] at hloop
    have hfree := malloced_free hm
    have hw1 := hmoves.inv.world
    have hargv1 := hargv.grows h.world hw1 hp (grows_malloced (h.world.inMem hp) hm : Grows (dir p) [] k k1)
    have hown := owned_malloced hm hw1 hp
    have hargv2 :=
      hargv1.grows hw1 (world_turn hw1 hp hown hargv1 hi) hp (grows_turn (n := current) hw1 hp hown hargv1 hi)
    have hwrite := hmoves.inv.write hp (inside_turn (n := current) hown hargv1 hi) fun a ha => by
      rcases List.mem_pair.mp ha with rfl | rfl
      · exact own_of_owned hown
      · exact own_of_owned hargv1
    exact (hmoves.trans hwrite).trans (ih hwrite.inv hargv2 (by rw [free_withMem]; omega) hloop)

theorem sameBlocks_setProc {f : Process → Process}
    (hf : ∃ keyboard arguments, f (k.procs p) = { k.procs p with keyboard, arguments }) :
    SameBlocks k (k.setProc p f) := by
  refine ⟨rfl, rfl, fun q => ?_, fun t => ⟨_, _, _, rfl⟩⟩
  by_cases hq : q = p
  · subst hq
    rw [Kernel.setProc_self]
    exact hf
  · exact ⟨_, _, Function.update_of_ne hq _ _⟩

theorem Inv.setProc {f : Process → Process} (h : Inv k ps dir)
    (hf : ∃ keyboard arguments, f (k.procs p) = { k.procs p with keyboard, arguments }) :
    Moves ps dir p k (k.setProc p f) :=
  h.sameBlocks (sameBlocks_setProc hf) fun _ _ hne => ⟨Function.update_of_ne hne _ _, rfl⟩

theorem Inv.inject (h : Inv k ps dir) (hp : p ∈ ps) (hinject : processInjectArguments turns k p root = some (k', res)) :
    Moves ps dir p k k' := by
  obtain ⟨argc, hcount, -⟩ := Option.bind_eq_some_iff.mp hinject
  rw [inject_counted hcount] at hinject
  by_cases hargc : argc = 0
  · rw [if_pos hargc] at hinject
    cases hinject
    exact Moves.refl h p
  rw [if_neg hargc] at hinject
  have hmoves := h.malloc hp (BitVec.ofInt 32 (4 * argc))
  have hcases := processMalloc_cases (BitVec.ofInt 32 (4 * argc)) (h.world.directory p hp) (h.world.inMem hp)
  generalize processMalloc k p (BitVec.ofInt 32 (4 * argc)) = r at hinject hmoves hcases
  obtain ⟨k1, argv⟩ := r
  dsimp only at hinject hmoves hcases
  rcases hcases with ⟨hs, hu⟩ | ⟨l, hs, hm⟩
  · rw [if_pos hs] at hinject
    cases hinject
    exact hmoves
  rw [if_neg hs] at hinject
  have hroom : 0 + Arguments.free k1 p < maxProgramAllocations := by
    have hfree := malloced_free hm
    have hle := free_le k p
    omega
  obtain ⟨⟨k2, res2⟩, hloop, hinject⟩ := Option.map_eq_some_iff.mp hinject
  have hlooped := hmoves.trans
    (injectLoop_moves (i := 0) hmoves.inv hp (owned_malloced hm hmoves.inv.world hp) hroom hloop)
  dsimp only at hinject
  split at hinject
  · cases hinject
    exact hlooped
  · cases hinject
    exact hlooped.trans (hlooped.inv.setProc ⟨_, _, rfl⟩)

/-! ## What user code can write -/

theorem pagingUserWriteable_bits : ∀ i : Fin 32, ¬ i.val < 3 → pagingUserWriteable[i.val] = false := by decide

theorem writeable_of_grants {e : BitVec 32} (h : grants false userWrite e = true) : Writeable e := by
  simp only [grants, userWrite, Bool.and_eq_true, Bool.or_eq_true, Bool.not_true, Bool.false_eq_true, false_or,
    Bool.false_and, or_false] at h
  obtain ⟨⟨h0, h2⟩, h1⟩ := h
  unfold Writeable
  ext i hi
  rw [BitVec.getElem_and]
  by_cases hlow : i < 3
  · have hbit : e[i] = true := by
      interval_cases i
      · exact h0
      · exact h1
      · exact h2
    rw [hbit, Bool.true_and]
  · rw [pagingUserWriteable_bits ⟨i, hi⟩ hlow, Bool.and_false]

theorem within_frame {b : Block} {frame r : Addr} (hb : b.Placed blockSize) (hin : InImage b.base b.size frame)
    (hr : r.toNat < 4096) : Within b.base (extent blockSize b.size) (frame + r) := by
  obtain ⟨h1, h2⟩ := hin
  have hend := hb.2.2
  unfold Within
  bv_omega

theorem page_inside {i : Nat} (hb : (⟨ptr, size.toNat⟩ : Block).Placed blockSize) (hin : PageOf ptr size i) :
    ptr.toNat ≤ 4096 * i ∧ 4096 * i + 4096 ≤ ptr.toNat + extent blockSize size.toNat := by
  have ha : ptr.toNat % 4096 = 0 := hb.2.1
  have hle : (size.toNat + 4095) / 4096 * 4096 ≤ extent blockSize size.toNat :=
    Nat.mul_le_mul_right _ (le_max_right _ _)
  obtain ⟨h1, h2⟩ := hin
  omega

/-- Each byte that user code of `p` can write is in a block that it owns. -/
theorem Inv.reaches_own (h : Inv k ps dir) (hp : p ∈ ps) (hr : Reaches false k.mem (directoryRegister k p) x) :
    ∃ b ∈ k.heap.live, Own k p b.base ∧ Within b.base (extent blockSize b.size) x := by
  obtain ⟨v, hv⟩ := hr
  have hd := h.world.directory p hp
  have hholds := h.world.holds p hp
  have hlt : v.toNat / 4096 < 2 ^ 20 := by omega
  have hsound := h.sound p hp
  rw [directoryRegister, hd, hholds.chunk, translate_pageDir hholds hsound.points, ← pageEntry_eq hd hholds hlt] at hv
  split at hv
  · rename_i hgrants
    rw [pagingGetPhysicalAddress_spec hholds, ← pageEntry_eq hd hholds hlt] at hv
    obtain rfl := Option.some.inj hv
    have hr : (v % 4096).toNat < 4096 := by
      rw [toNat_umod_page]
      omega
    have hwr := writeable_of_grants (Bool.and_eq_true_iff.mp hgrants).2
    rcases hsound.rights _ hlt hwr with ⟨n, hn, hin⟩ | hin | ⟨he, i, hi, h0, hin⟩
    · exact ⟨_, hn, Or.inl rfl, within_frame (k.heap.placed _ hn) hin hr⟩
    · exact ⟨_, hsound.stack, Or.inr (Or.inl rfl), within_frame (k.heap.placed _ hsound.stack) hin hr⟩
    · have hlive := (h.world.held p hp i hi h0).1
      refine ⟨_, hlive, Or.inr (Or.inr ⟨h0, i, hi, rfl⟩), within_frame (k.heap.placed _ hlive) ?_ hr⟩
      have hpage : (BitVec.ofNat 32 (4096 * (v.toNat / 4096))).toNat = 4096 * (v.toNat / 4096) := by
        rw [BitVec.toNat_ofNat]
        omega
      rw [he, tableAddress_or (by rw [hpage]; omega) (by decide), InImage, hpage]
      exact page_inside (k.heap.placed _ hlive) hin
  · cases hv

/-- A byte that user code of `p` stores. A store that faults does nothing. -/
def userStore (k : Kernel) (p v : Addr) (value : Byte) : Kernel :=
  { k with mem := Mmu.store false k.mem ⟨directoryRegister k p, v, value⟩ }

theorem Inv.userStore (h : Inv k ps dir) (hp : p ∈ ps) (v : Addr) (value : Byte) :
    Moves ps dir p k (userStore k p v value) := by
  unfold Ownership.userStore Mmu.store
  dsimp only
  cases hx : Mmu.translate false k.mem (directoryRegister k p) userWrite v with
  | none => exact Moves.refl h p
  | some x =>
    obtain ⟨b, hb, hown, hin⟩ := h.reaches_own hp ⟨v, hx⟩
    have hinside : Inside k [b.base] (store8 k.mem x value) := by
      intro y hy
      refine if_neg ?_
      rintro rfl
      exact hy b hb (List.mem_singleton_self _) hin
    refine h.write hp hinside fun a ha => ?_
    obtain rfl := List.mem_singleton.mp ha
    exact hown

/-! ## Loading and termination -/

theorem Inv.load {s : List Byte} (h : Inv k ps dir) (hl : LoadsImage k s k' p) :
    p ∉ ps ∧ (∃ d, Inv k' (p :: ps) (Function.update dir p d)) ∧ ∀ q ∈ ps, Untouched dir q k k' := by
  obtain ⟨d, n, hj⟩ := hl.joined
  have hs := hj.settled
  obtain ⟨hps, hw⟩ := h.world.settled hs
  have hne : ∀ q ∈ ps, q ≠ p := fun q hq he => hps (he ▸ hq)
  have hold : ∀ q ∈ ps, Untouched dir q k k' := by
    intro q hq
    refine ⟨hs.others q (hne q hq), hj.links _ (h.world.live q hq _ (by simp [fixed])), hj.files _ ?_,
      fun b hb _ => hs.keeps.live b hb, fun b hb _ => hs.keeps.bytes b hb⟩
    exact (h.sound q hq).live _ (by simp [estate])
  have hself : ∀ a, Belongs k' (Function.update dir p d) p a → ¬ k.heap.Live a := by
    rintro a (ha | ha | ⟨h0, i, hi, rfl⟩)
    · rw [fixed, Function.update_self] at ha
      exact hs.fresh a ha
    · exact hj.estate_fresh a ha
    · exact absurd (hs.empty i) h0
  have hother : ∀ q ∈ ps, ∀ a, Belongs k' (Function.update dir p d) q a → Belongs k dir q a := by
    intro q hq a ha
    rw [Belongs, fixed, Function.update_of_ne (hne q hq)] at ha
    exact (hold q hq).same.belongs_iff.mp ha
  refine ⟨hps, ⟨d, hw, fun q hq => ?_, fun q hq r hr hqr a hqa hra => ?_⟩, hold⟩
  · rcases List.mem_cons.mp hq with rfl | hq'
    · refine ⟨hj.owner, ?_, hj.filetype, hj.stack, hj.estate_live, ?_, fun b hb hheld => ?_, fun v hv hwr => ?_,
        fun i _ h0 => absurd (hs.empty i) h0⟩
      · rw [Function.update_self]
        exact hj.points
      · rw [fixed, Function.update_self]
        exact hj.estate_fixed
      · obtain ⟨i, -, rfl⟩ := hheld
        exact Kmem.live_ne_zero (hj.estate_live _ hb) (hs.empty i)
      · exact (hj.rights v hv hwr).imp (fun hin => ⟨n, hj.image, hin⟩) Or.inl
    · exact ((hold q hq').sound h hq').congr (Function.update_of_ne (hne q hq') _ _)
  · rcases List.mem_cons.mp hq with rfl | hq' <;> rcases List.mem_cons.mp hr with rfl | hr'
    · exact hqr rfl
    · exact hself a hqa (h.live hr' (hother r hr' a hra))
    · exact hself a hra (h.live hq' (hother q hq' a hqa))
    · exact h.apart q hq' r hr' hqr a (hother q hq' a hqa) (hother r hr' a hra)

/-- What a termination leaves, beside the process itself and the table of processes. -/
structure Ended (k k' : Kernel) (p : Addr) : Prop where
  mem : k'.mem = k.mem
  live : ∀ b ∈ k.heap.live, b.base ∉ returned k p → b ∈ k'.heap.live
  others : ∀ q, q ≠ p → k'.procs q = k.procs q
  tasks : ∀ t, Relinked (k.tasks t) (k'.tasks t)
  elfFiles : k'.elfFiles = k.elfFiles

theorem processUnlink_only (h : processUnlink k p = some k') :
    ∃ processes current_process, k' = { k with processes, current_process } := by
  unfold processUnlink processSwitchToAny processSwitch at h
  dsimp only at h
  split at h
  · obtain ⟨i, -, h⟩ := Option.bind_eq_some_iff.mp h
    cases h
    exact ⟨_, _, rfl⟩
  · cases h
    exact ⟨_, _, rfl⟩

theorem processTerminate_ended (h : processTerminate k p = some (k', 0)) : Ended k k' p := by
  have hgives := processTerminate_givesBack h
  obtain ⟨k1, hk1⟩ : ∃ k1, processTerminateAllocations k p = k1 := ⟨_, rfl⟩
  rw [processTerminate_eq hk1] at h
  have hswept := processTerminateAllocations_swept k p
  rw [hk1] at hswept
  obtain ⟨heap, a, rfl, -, -⟩ := hswept
  generalize hk1' : ({ k with heap, procs := Function.update k.procs p { k.procs p with allocations := a } } :
    Kernel) = k1 at h
  obtain ⟨⟨k2, res⟩, hdata⟩ : ∃ r, processFreeProgramData k1 p = r := ⟨_, rfl⟩
  unfold terminateRest at h
  rw [hdata] at h
  dsimp only at h
  by_cases hres : res < 0
  · rw [if_pos hres] at h
    cases h
    exact absurd hres (lt_irrefl 0)
  rw [if_neg hres] at h
  obtain ⟨k3, hunlink, h⟩ := Option.bind_eq_some_iff.mp h
  cases h
  obtain ⟨heap', rfl, -⟩ := programData_givesBack hdata
  obtain ⟨_, _, rfl⟩ := processUnlink_only hunlink
  -- the stack and the task of the process
  generalize hks : ({ ({ k1 with heap := heap' } : Kernel) with
    toKmem := kfree ({ k1 with heap := heap' } : Kernel).toKmem (k1.procs p).stack } : Kernel) = ks
  have hfree : freeStackTask { k1 with heap := heap' } p = taskFree ks (k1.procs p).task := by rw [← hks]; rfl
  rw [hfree]
  have hmem := mem_taskFree ks (k1.procs p).task
  have hlinks := relinked_taskFree ks (k1.procs p).task
  obtain ⟨_, _, _, _, _, honly⟩ := onlyTasks_taskFree ks (k1.procs p).task
  rw [hfree] at hgives
  generalize taskFree ks (k1.procs p).task = k2 at hmem hlinks honly hgives
  refine ⟨?_, fun b hb hnot => ?_, fun q hq => ?_, fun t => ?_, ?_⟩
  · show k2.mem = k.mem
    rw [hmem, ← hks, ← hk1']
    rfl
  · rw [hgives.live]
    exact List.mem_filter.mpr ⟨hb, by simpa using hnot⟩
  · show k2.procs q = k.procs q
    rw [honly, ← hks, ← hk1']
    exact Function.update_of_ne hq _ _
  · have h := hlinks t
    rw [← hks, ← hk1'] at h
    exact h
  · show k2.elfFiles = k.elfFiles
    rw [honly, ← hks, ← hk1']

theorem Inv.returned_belongs (h : Inv k ps dir) (hp : p ∈ ps) (ha : a ∈ returned k p) (h0 : a ≠ 0) :
    Belongs k dir p a := by
  have hsound := h.sound p hp
  unfold returned at ha
  simp only [List.mem_append, List.mem_singleton, List.mem_map, List.mem_range] at ha
  rcases ha with (((⟨i, hi, rfl⟩ | ha) | rfl) | ha) | rfl
  · unfold pending at h0 ⊢
    split at h0
    · exact absurd rfl h0
    · rename_i hfirst
      rw [if_neg hfirst]
      exact Or.inr (Or.inr ⟨h0, i, hi, rfl⟩)
  · have hbinary : (k.procs p).filetype ≠ processFiletypeBinary := by
      rw [hsound.filetype]
      decide
    unfold programBlocks at ha
    rw [if_neg hbinary] at ha
    split at ha
    · rcases List.mem_pair.mp ha with rfl | rfl
      · exact Or.inr (Or.inl (by simp [estate, imageOf]))
      · exact Or.inr (Or.inl (by simp [estate]))
    · cases ha
  · exact Or.inr (Or.inl (by simp [estate]))
  · rw [mem_directoryBlocks, h.world.directory p hp, blocksIn_eq (h.world.holds p hp)] at ha
    exact Or.inl (block_mem_fixed ha)
  · exact Or.inl (by simp [fixed])

theorem Inv.untouched {ps' : List Addr} (h : Inv k ps dir) (hsub : ∀ q ∈ ps', q ∈ ps ∧ Untouched dir q k k') :
    Inv k' ps' dir := by
  have hfixed : ∀ q ∈ ps', ∀ {a : Addr}, a ∈ fixed k' dir q ↔ a ∈ fixed k dir q := fun q hq _ => by
    rw [(hsub q hq).2.same.fixed_eq]
  have hallocation : ∀ q ∈ ps', ∀ i, allocation k' q i = allocation k q i := fun q hq i => by
    rw [allocation, allocation, (hsub q hq).2.record]
  have hw := h.world
  refine ⟨⟨fun q hq => ?_, fun q hq => ?_, fun q hq b hb => ?_, fun q hq r hr hne b hb hb' => ?_, fun q hq i hi => ?_,
    fun q hq r hr i hi j hj => ?_⟩, fun q hq => ?_, fun q hq r hr hne a hqa hra => ?_⟩
  · exact (hsub q hq).2.same.directory.trans (hw.directory q (hsub q hq).1)
  · exact (hw.holds q (hsub q hq).1).frame ((hsub q hq).2.pages hw (hsub q hq).1)
  · rw [hfixed q hq] at hb
    obtain ⟨n, hn⟩ := hw.live q (hsub q hq).1 b hb
    exact ⟨n, (hsub q hq).2.live _ hn (Or.inl hb)⟩
  · exact hw.apart q (hsub q hq).1 r (hsub r hr).1 hne b ((hfixed q hq).mp hb) ((hfixed r hr).mp hb')
  · rw [hallocation q hq]
    intro h0
    obtain ⟨hlive, hnot⟩ := hw.held q (hsub q hq).1 i hi h0
    refine ⟨(hsub q hq).2.live _ hlive (Or.inr (Or.inr ⟨h0, i, hi, rfl⟩)), fun r hr => ?_⟩
    rw [hfixed r hr]
    exact hnot r (hsub r hr).1
  · rw [hallocation q hq, hallocation r hr]
    exact hw.distinct q (hsub q hq).1 r (hsub r hr).1 i hi j hj
  · exact (hsub q hq).2.sound h (hsub q hq).1
  · exact h.apart q (hsub q hq).1 r (hsub r hr).1 hne a ((hsub q hq).2.same.belongs_iff.mp hqa)
      ((hsub r hr).2.same.belongs_iff.mp hra)

theorem Inv.loadFails {s : List Byte} (h : Inv k ps dir) (hl : LoadFails k s k') :
    Inv k' ps dir ∧ ∀ q ∈ ps, Untouched dir q k k' := by
  have hleaves := hl.leaves
  have hothers : ∀ q ∈ ps, Untouched dir q k k' := fun q hq =>
    ⟨hleaves.procs q (h.world.live q hq q (by simp [fixed])), hleaves.tasks _ (h.world.live q hq _ (by simp [fixed])),
      hleaves.elfFiles _ ((h.sound q hq).live _ (by simp [estate])), fun b hb _ => hleaves.keeps.live b hb,
      fun b hb _ => hleaves.keeps.bytes b hb⟩
  exact ⟨h.untouched fun q hq => ⟨hq, hothers q hq⟩, hothers⟩

theorem Inv.terminate (h : Inv k ps dir) (hp : p ∈ ps) (hend : processTerminate k p = some (k', 0)) :
    Inv k' (ps.filter (· ≠ p)) dir ∧ ∀ q ∈ ps, q ≠ p → Untouched dir q k k' := by
  have he := processTerminate_ended hend
  have hothers : ∀ q ∈ ps, q ≠ p → Untouched dir q k k' := by
    intro q hq hne
    refine ⟨he.others q hne, he.tasks _, by rw [he.elfFiles], fun b hb hbelongs => he.live b hb fun hret => ?_,
      fun b _ _ => by rw [he.mem]; exact Agree.refl _ _ _⟩
    exact h.apart q hq p hp hne _ hbelongs (h.returned_belongs hp hret (k.heap.placed b hb).1)
  refine ⟨h.untouched fun q hq => ?_, hothers⟩
  obtain ⟨hq, hne⟩ := List.mem_filter.mp hq
  have hne : q ≠ p := by simpa using hne
  exact ⟨hq, hothers q hq hne⟩

end MultitaskOs.Ownership
