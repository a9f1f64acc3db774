import Mathlib.Logic.Relation
import MultitaskOs.CopyString
import MultitaskOs.Ownership
import MultitaskOs.Code.Keyboard

/-!
# The running system

Processes are loaded, ask for memory and give it back, store to it, hand strings
to the kernel, get keys and come to an end, in any order. In every state that is reached, what user code of
one process can write is its own, and what the others do leaves it alone.
-/

open Lib Lib.Memory Lib.Arena Lib.Mmu MultitaskOs.PathParser MultitaskOs.FatLookup MultitaskOs.Paging MultitaskOs.Tasks
  MultitaskOs.ProcessMemory MultitaskOs.Isolation MultitaskOs.Translation MultitaskOs.OpenClose MultitaskOs.LoadOutcome
  MultitaskOs.LoadedImage MultitaskOs.LoadGranted MultitaskOs.FailedLoad MultitaskOs.AddressSpace MultitaskOs.Ownership

namespace MultitaskOs.System

structure Machine where
  kernel : Kernel
  loaded : List Addr

/-- The buffer lies in no block of the heap, nor in one that a request for its size gets. -/
def BufferApart (k : Kernel) (buffer : Addr) (max : Int) : Prop :=
  ∀ b ∈ (kzalloc k.toKmem max.toNat).1.heap.live, Apart b.base (extent blockSize b.size) buffer max.toNat

/-- One step, on behalf of the process that is named. A process gives back no allocation that has a
page: the page would stay its own to write. -/
inductive Step : Machine → Addr → Machine → Prop where
  | load {k k' : Kernel} {ps : List Addr} {s : List Byte} {p : Addr} (h : LoadsImage k s k' p) :
      Step ⟨k, ps⟩ p ⟨k', p :: ps⟩
  | loadFails {k k' : Kernel} {ps : List Addr} {s : List Byte} (h : LoadFails k s k') : Step ⟨k, ps⟩ 0 ⟨k', ps⟩
  | malloc {k : Kernel} {ps : List Addr} {p : Addr} (hp : p ∈ ps) (size : BitVec 32) :
      Step ⟨k, ps⟩ p ⟨(processMalloc k p size).1, ps⟩
  | free {k : Kernel} {ps : List Addr} {p ptr : Addr} (hp : p ∈ ps) (h : Harmless k (.free p ptr)) :
      Step ⟨k, ps⟩ p ⟨processFree k p ptr, ps⟩
  | inject {k k' : Kernel} {ps : List Addr} {p root : Addr} {turns : Nat} {res : Int} (hp : p ∈ ps)
      (h : processInjectArguments turns k p root = some (k', res)) : Step ⟨k, ps⟩ p ⟨k', ps⟩
  | store {k : Kernel} {ps : List Addr} {p : Addr} (hp : p ∈ ps) (v : Addr) (value : Byte) :
      Step ⟨k, ps⟩ p ⟨userStore k p v value, ps⟩
  | copyString {k : Kernel} {ps : List Addr} {p : Addr} (hp : p ∈ ps) (u : Addr)
      {buffer : Addr} {max : Int} (hone : 1 ≤ max) (hsmall : max < 4096) (h : BufferApart k buffer max) :
      Step ⟨k, ps⟩ p ⟨(copyStringFromTask k (k.procs p).task u buffer max).1, ps⟩
  | push (k : Kernel) (ps : List Addr) (c : Byte) : Step ⟨k, ps⟩ k.current_process ⟨keyboardPush k c, ps⟩
  | pop (k : Kernel) (ps : List Addr) : Step ⟨k, ps⟩ (k.tasks k.current_task).process ⟨(keyboardPop k).1, ps⟩
  | saveState (k : Kernel) (ps : List Addr) (frame : InterruptFrame) :
      Step ⟨k, ps⟩ (k.tasks k.current_task).process ⟨k.setTask k.current_task (taskSaveState · frame), ps⟩
  | processSwitch (k : Kernel) (ps : List Addr) (p : Addr) : Step ⟨k, ps⟩ 0 ⟨processSwitch k p, ps⟩
  | taskSwitch (k : Kernel) (ps : List Addr) (t : Addr) : Step ⟨k, ps⟩ 0 ⟨taskSwitch k t, ps⟩
  | terminate {k k' : Kernel} {ps : List Addr} {p : Addr} (hp : p ∈ ps) (h : processTerminate k p = some (k', 0)) :
      Step ⟨k, ps⟩ p ⟨k', ps.filter (· ≠ p)⟩

variable {m m' : Machine} {k k' : Kernel} {ps : List Addr} {dir : Addr → PageDir} {p q x : Addr}

/-! ## One step -/

/-- The machine after a step on behalf of `p`: in order, with the other processes as they were. -/
structure Follows (m : Machine) (dir : Addr → PageDir) (p : Addr) (m' : Machine) (dir' : Addr → PageDir) : Prop where
  inv : Ownership.Inv m'.kernel m'.loaded dir'
  others : ∀ q ∈ m.loaded, q ≠ p → q ∈ m'.loaded ∧ dir' q = dir q ∧ Untouched dir q m.kernel m'.kernel

theorem follows_moves (h : Moves ps dir p k k') : Follows ⟨k, ps⟩ dir p ⟨k', ps⟩ dir :=
  ⟨h.inv, fun q hq hne => ⟨hq, rfl, h.others q hq hne⟩⟩

theorem moves_push (h : Ownership.Inv k ps dir) (c : Byte) : Moves ps dir k.current_process k (keyboardPush k c) := by
  unfold keyboardPush
  dsimp only
  split_ifs
  · exact Moves.refl h _
  · exact Moves.refl h _
  · exact h.setProc ⟨_, _, rfl⟩

theorem moves_pop (h : Ownership.Inv k ps dir) :
    Moves ps dir (k.tasks k.current_task).process k (keyboardPop k).1 := by
  unfold keyboardPop
  dsimp only
  split_ifs
  · exact Moves.refl h _
  · exact Moves.refl h _
  · dsimp only
    exact h.setProc ⟨_, _, rfl⟩

theorem sameBlocks_saveState (k : Kernel) (t : Addr) (frame : InterruptFrame) :
    SameBlocks k (k.setTask t (taskSaveState · frame)) := by
  refine ⟨rfl, rfl, fun q => ⟨_, _, rfl⟩, fun t' => ?_⟩
  rw [setTask_tasks]
  split
  · rename_i ht
    subst ht
    exact ⟨_, _, _, rfl⟩
  · exact ⟨_, _, _, rfl⟩

theorem moves_saveState (h : Ownership.Inv k ps dir) (frame : InterruptFrame) :
    Moves ps dir (k.tasks k.current_task).process k (k.setTask k.current_task (taskSaveState · frame)) := by
  refine h.sameBlocks (sameBlocks_saveState k k.current_task frame) fun q hq hne => ⟨rfl, ?_⟩
  -- the task of another process is another task
  rw [setTask_tasks, if_neg]
  intro ht
  have hprocess := (h.sound q hq).process
  rw [ht] at hprocess
  exact hne hprocess.symm

theorem moves_copyString {buffer : Addr} {max : Int} (h : Ownership.Inv k ps dir) (hp : p ∈ ps) (u : Addr)
    (hone : 1 ≤ max) (hsmall : max < 4096) (hbuffer : BufferApart k buffer max) :
    Moves ps dir p k (copyStringFromTask k (k.procs p).task u buffer max).1 := by
  have hkeeps := kzalloc_keeps k.toKmem max.toNat
  have hpage : ∀ a n, (⟨a, n⟩ : Block) ∈ (kzalloc k.toKmem max.toNat).1.heap.live → Apart a 4096 buffer max.toNat := by
    intro a n hb
    have hle : 4096 ≤ extent blockSize n := le_extent n
    exact (hbuffer _ hb).sub (by simpa using hle) (by simp) (by omega) (by omega)
  have hrequest : CopyString.CopyRequest k (dir p) (k.procs p).task buffer max := by
    refine ⟨h.world.directory p hp, h.world.inMem hp, hone, hsmall, fun b hb => ?_, fun h0 => ?_⟩
    · obtain ⟨n, hn⟩ := h.world.live p hp b (block_mem_fixed hb)
      exact hpage b n (hkeeps.live _ hn)
    · exact hpage _ _ (kzalloc_fresh h0).mem_live
  obtain ⟨hu, helf⟩ := hrequest.unchanged (fun b hb => hbuffer b (hkeeps.live b hb)) u
  exact h.unchanged hu helf

theorem Step.follows (hs : Step m p m') (h : Ownership.Inv m.kernel m.loaded dir) :
    ∃ dir', Follows m dir p m' dir' := by
  cases hs with
  | load hl =>
    obtain ⟨hps, ⟨d, hinv⟩, hothers⟩ := h.load hl
    refine ⟨_, hinv, fun q hq hne => ⟨List.mem_cons_of_mem _ hq, Function.update_of_ne hne _ _, hothers q hq⟩⟩
  | loadFails hl =>
    obtain ⟨hinv, hothers⟩ := h.loadFails hl
    exact ⟨dir, hinv, fun q hq _ => ⟨hq, rfl, hothers q hq⟩⟩
  | malloc hp size => exact ⟨dir, follows_moves (h.malloc hp size)⟩
  | free hp hok => exact ⟨dir, follows_moves (h.free hp hok)⟩
  | inject hp hinject => exact ⟨dir, follows_moves (h.inject hp hinject)⟩
  | store hp v value => exact ⟨dir, follows_moves (h.userStore hp v value)⟩
  | copyString hp u hone hsmall hbuffer => exact ⟨dir, follows_moves (moves_copyString h hp u hone hsmall hbuffer)⟩
  | push k ps c => exact ⟨dir, follows_moves (moves_push h c)⟩
  | pop k ps => exact ⟨dir, follows_moves (moves_pop h)⟩
  | saveState k ps frame => exact ⟨dir, follows_moves (moves_saveState h frame)⟩
  | processSwitch k ps p =>
    exact ⟨dir, follows_moves
      (h.sameBlocks ⟨rfl, rfl, fun _ => ⟨_, _, rfl⟩, fun _ => ⟨_, _, _, rfl⟩⟩ fun _ _ _ => ⟨rfl, rfl⟩)⟩
  | taskSwitch k ps t =>
    exact ⟨dir, follows_moves
      (h.sameBlocks ⟨rfl, rfl, fun _ => ⟨_, _, rfl⟩, fun _ => ⟨_, _, _, rfl⟩⟩ fun _ _ _ => ⟨rfl, rfl⟩)⟩
  | terminate hp hend =>
    obtain ⟨hinv, hothers⟩ := h.terminate hp hend
    refine ⟨dir, hinv, fun q hq hne => ⟨List.mem_filter.mpr ⟨hq, by simpa using hne⟩, rfl, hothers q hq hne⟩⟩

/-! ## Runs -/

theorem own_not_fixed (h : Ownership.Inv k ps dir) (hp : p ∈ ps) (hq : q ∈ ps) {a : Addr} (ha : Own k p a) :
    a ∉ fixed k dir q := by
  by_cases hpq : p = q
  · exact hpq ▸ h.own_not_fixed hp ha
  · exact fun hfix => h.own_not_belongs hp hq hpq ha (Or.inl hfix)

/-- The process is as it was: its record, its registers, its translation, and what is in its image, its
stack and its allocations. -/
structure Undisturbed (q : Addr) (m m' : Machine) : Prop where
  loaded : q ∈ m'.loaded
  record : m'.kernel.procs q = m.kernel.procs q
  registers : (m'.kernel.tasks (m.kernel.procs q).task).registers = (m.kernel.tasks (m.kernel.procs q).task).registers
  access : ∀ a v, userAccess m'.kernel q a v = userAccess m.kernel q a v
  bytes : ∀ b ∈ m.kernel.heap.live, Own m.kernel q b.base →
    b ∈ m'.kernel.heap.live ∧ Agree m.kernel.mem m'.kernel.mem b.base (extent blockSize b.size)

end MultitaskOs.System
