import MultitaskOs.UserMode

/-!
# A process that waits

While user code of other processes runs, a process that was interrupted keeps its registers, its
translation and what is in its blocks. So it goes on where it was.
-/

open Lib Lib.Memory Lib.Arena Lib.Mmu MultitaskOs.Paging MultitaskOs.Tasks MultitaskOs.ProcessMemory
  MultitaskOs.Isolation MultitaskOs.LoadOutcome MultitaskOs.LoadedImage MultitaskOs.LoadGranted
  MultitaskOs.AddressSpace MultitaskOs.Ownership MultitaskOs.System MultitaskOs.UserMode

namespace MultitaskOs.Resumption

variable {k k' k'' : Kernel} {o o1 : Os} {s s' : Os × List Addr} {ps : List Addr} {dir : Addr → PageDir} {p q r : Addr}
  {m m' : Machine} {frame : InterruptFrame}

/-! ## What it keeps -/

/-- What a process that waits keeps. The keys that are typed for it reach its record meanwhile. -/
structure Kept (r : Addr) (k k' : Kernel) : Prop where
  task : (k'.procs r).task = (k.procs r).task
  registers : (k'.tasks (k.procs r).task).registers = (k.tasks (k.procs r).task).registers
  access : ∀ a v, userAccess k' r a v = userAccess k r a v
  blocks : ∀ b ∈ k.heap.live, Own k r b.base →
    b ∈ k'.heap.live ∧ Own k' r b.base ∧ Agree k.mem k'.mem b.base (extent blockSize b.size)

theorem Kept.refl (r : Addr) (k : Kernel) : Kept r k k :=
  ⟨rfl, rfl, fun _ _ => rfl, fun _ hb hown => ⟨hb, hown, Agree.refl _ _ _⟩⟩

theorem Kept.trans (h : Kept r k k') (h' : Kept r k' k'') : Kept r k k'' := by
  refine ⟨h'.task.trans h.task, ?_, fun a v => (h'.access a v).trans (h.access a v), fun b hb hown => ?_⟩
  · rw [← h.registers, ← h.task]
    exact h'.registers
  · obtain ⟨hlive, hown', hbytes⟩ := h.blocks b hb hown
    obtain ⟨hlive', hown'', hbytes'⟩ := h'.blocks b hlive hown'
    exact ⟨hlive', hown'', hbytes.trans hbytes'⟩

theorem kept_of_untouched (h : Ownership.Inv k ps dir) (hr : r ∈ ps) (hu : Untouched dir r k k') : Kept r k k' := by
  obtain ⟨next, prev, htask⟩ := hu.task
  refine ⟨by rw [hu.record], by rw [htask], hu.userAccess h hr, fun b hb hown => ?_⟩
  exact ⟨hu.live b hb hown.belongs, hu.same.own_iff.mpr hown, hu.bytes b hb hown.belongs⟩

theorem access_of_sameBlocks (h : SameBlocks k k') (a : Access) (v : Addr) :
    userAccess k' r a v = userAccess k r a v := by
  rw [userAccess, userAccess, directoryRegister, directoryRegister, (h.owner r).directory, h.toKmem]

theorem blocks_of_sameBlocks (h : SameBlocks k k') {b : Block} (hb : b ∈ k.heap.live) (hown : Own k r b.base) :
    b ∈ k'.heap.live ∧ Own k' r b.base ∧ Agree k.mem k'.mem b.base (extent blockSize b.size) := by
  rw [h.toKmem]
  exact ⟨hb, (h.owner r).own_iff.mpr hown, Agree.refl _ _ _⟩

theorem kept_of_sameBlocks (h : SameBlocks k k') (htasks : k'.tasks = k.tasks) (r : Addr) : Kept r k k' :=
  ⟨(h.owner r).task, by rw [htasks], access_of_sameBlocks h, fun _ => blocks_of_sameBlocks h⟩

/-- A key goes to the record of the current process, which may be the one that waits. -/
theorem kept_push (r : Addr) (k : Kernel) (c : Byte) : Kept r k (keyboardPush k c) := by
  unfold keyboardPush
  dsimp only
  split_ifs
  · exact Kept.refl r k
  · exact Kept.refl r k
  · exact kept_of_sameBlocks (sameBlocks_setProc ⟨_, _, rfl⟩) rfl r

/-! ## Steps and runs of the others -/

theorem Does.kept (hd : Does p m m') (h : Ownership.Inv m.kernel m.loaded dir) (hr : r ∈ m.loaded) (hne : r ≠ p) :
    r ∈ m'.loaded ∧ Kept r m.kernel m'.kernel ∧ ∃ dir', Ownership.Inv m'.kernel m'.loaded dir' := by
  obtain ⟨q, hstep, hq⟩ := hd
  obtain ⟨dir', hinv', hothers⟩ := hstep.follows h
  have hrest : r ≠ q → r ∈ m'.loaded ∧ Kept r m.kernel m'.kernel ∧ ∃ dir', Ownership.Inv m'.kernel m'.loaded dir' := by
    intro hrq
    obtain ⟨hr', -, hu⟩ := hothers r hr hrq
    exact ⟨hr', kept_of_untouched h hr hu, dir', hinv'⟩
  rcases hq with rfl | rfl | hq | ⟨c, rfl⟩
  · exact hrest hne
  · exact hrest (h.ne_zero hr)
  · exact hrest fun hrq => hq (hrq ▸ hr)
  · exact ⟨hr, kept_push r m.kernel c, dir', hinv'⟩

/-- A step that takes the processor from user code of `r`, whose registers are in `frame`. -/
inductive Leaves (r : Addr) (frame : InterruptFrame) : Os × List Addr → Os × List Addr → Prop where
  | clock {o o1 : Os} {ps : List Addr} {q : Addr} (hq : q ∈ ps)
      (h : o.kernelPage.taskCurrentSaveState frame = some o1) :
      Leaves r frame (o, ps) (o1.resume (o1.procs q).task, ps)
  | loadStart {o o1 : Os} {ps : List Addr} {name : List Byte} {k : Kernel} {q : Addr}
      (hsave : o.kernelPage.taskCurrentSaveState frame = some o1) (h : LoadsImage o1.toKernel name k q) :
      Leaves r frame (o, ps) (({ o1 with toKernel := processSwitch k q } : Os).resume (k.procs q).task, q :: ps)

theorem Leaves.step (h : Leaves r frame s s') : UserMode.Step s s' := by
  cases h with
  | clock hq h => exact .clock hq h
  | loadStart hsave h => exact .loadStart hsave h

/-- What the process finds when it goes on. -/
structure Resumes (r : Addr) (frame : InterruptFrame) (k k' : Kernel) : Prop where
  registers : (k'.tasks (k'.procs r).task).registers = (taskSaveState zeroTask frame).registers
  access : ∀ a v, userAccess k' r a v = userAccess k r a v
  blocks : ∀ b ∈ k.heap.live, Own k r b.base →
    b ∈ k'.heap.live ∧ Own k' r b.base ∧ Agree k.mem k'.mem b.base (extent blockSize b.size)

theorem Resumes.kept (h : Resumes r frame k k') (hk : Kept r k' k'') : Resumes r frame k k'' := by
  refine ⟨?_, fun a v => (hk.access a v).trans (h.access a v), fun b hb hown => ?_⟩
  · rw [hk.task, hk.registers]
    exact h.registers
  · obtain ⟨hlive, hown', hbytes⟩ := h.blocks b hb hown
    obtain ⟨hlive', hown'', hbytes'⟩ := hk.blocks b hlive hown'
    exact ⟨hlive', hown'', hbytes.trans hbytes'⟩

end MultitaskOs.Resumption
