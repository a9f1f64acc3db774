import MultitaskOs.Code.TaskAsm

/-!
# Saving and restoring the registers of a task

What user code finds in its registers after `task_save_state` and `task_return`.
-/

open Lib.Memory Lib.X86

namespace MultitaskOs.SavedRegisters

variable {alu : BitVec 32 → BitVec 32 → BitVec 32} {code : Code} {restore regs : Addr} {s s' : Machine}

def Layout (m : Mem) (regs : Addr) (r : Registers) : Prop :=
  ∀ i, (h : i < r.words.length) → load32 m (regs + BitVec.ofNat 32 (4 * i)) = r.words[i]

theorem layout_storeWords (m : Mem) (regs : Addr) (r : Registers) :
    Layout (storeWords m regs r.words) regs r := by
  intro i hi
  apply load32_storeWords
  simp [Registers.words]

/-- A call of `task_return` from the kernel: the argument above the return address, and the
structure clear of the stack that the two routines use. -/
structure Entered (code : Code) (restore regs : Addr) (s : Machine) : Prop where
  taskReturn : Loaded code s.eip (taskReturn restore)
  restore : Loaded code restore restoreGeneralPurposeRegisters
  argument : load32 s.mem (s.reg .esp + 4) = regs
  apart : Apart (s.reg .esp - 32) 32 regs sizeofRegisters

theorem load32_store32_regs {m : Mem} {e : Addr} (h : Apart (e - 32) 32 regs sizeofRegisters)
    {c o v : BitVec 32} (hc : (c + 32).toNat ≤ 28) (ho : o.toNat ≤ 44) :
    load32 (store32 m (e + c) v) (regs + o) = load32 m (regs + o) := by
  apply load32_store32_apart
  unfold sizeofRegisters at h
  refine h.sub ?_ ?_ (by omega) (by omega) <;> bv_omega

theorem load32_store32_edi {m : Mem} {e : Addr} (h : Apart (e - 32) 32 regs sizeofRegisters)
    {c v : BitVec 32} (hc : (c + 32).toNat ≤ 28) :
    load32 (store32 m (e + c) v) regs = load32 m regs := by
  have h0 := load32_store32_regs (m := m) (v := v) h hc (o := 0) (Nat.zero_le 44)
  simpa using h0

theorem Layout.words {m : Mem} {r : Registers} (h : Layout m regs r) :
    load32 m regs = r.edi ∧ load32 m (regs + 4#32) = r.esi ∧ load32 m (regs + 8#32) = r.ebp ∧
      load32 m (regs + 12#32) = r.ebx ∧ load32 m (regs + 16#32) = r.edx ∧
      load32 m (regs + 20#32) = r.ecx ∧ load32 m (regs + 24#32) = r.eax ∧
      load32 m (regs + 28#32) = r.ip ∧ load32 m (regs + 32#32) = r.cs ∧
      load32 m (regs + 40#32) = r.esp ∧ load32 m (regs + 44#32) = r.ss := by
  have hlen : r.words.length = 12 := rfl
  refine ⟨?_, h 1 ?_, h 2 ?_, h 3 ?_, h 4 ?_, h 5 ?_, h 6 ?_, h 7 ?_, h 8 ?_, h 10 ?_, h 11 ?_⟩
  · have h0 := h 0 (by omega)
    rwa [show regs + BitVec.ofNat 32 (4 * 0) = regs by simp] at h0
  all_goals omega

/-! ## The two routines

The stack pointer that `task_return` is entered with is `e`; a literal near 2^32 is an offset below it. -/

def pushedMem (m : Mem) (e regs : Addr) (r : Registers) (image : BitVec 32) : Mem :=
  store32 (store32 (store32 (store32 (store32 (store32 (store32 m (e + 4294967292#32) r.ss)
    (e + 4294967288#32) r.esp) (e + 4294967284#32) image) (e + 4294967284#32) (image ||| 512#32))
    (e + 4294967280#32) r.cs) (e + 4294967276#32) r.ip) (e + 4294967272#32) regs

theorem taskReturn_pushes (alu : BitVec 32 → BitVec 32 → BitVec 32) {e : Addr} {r : Registers}
    (he : s.reg .esp = e) (harg : load32 s.mem (e + 4#32) = regs)
    (hap : Apart (e - 32) 32 regs sizeofRegisters) (hr : Layout s.mem regs r)
    (hs' : execAll alu ((taskReturn restore).take 16) s = s') :
    s'.reg .esp = e + 4294967272#32 ∧ s'.reg .ebp = e ∧
      s'.mem = pushedMem s.mem e regs r (flagsImage s.eflags) := by
  obtain ⟨-, -, -, -, -, -, -, hip, hcs, hesp, hss⟩ := hr.words
  obtain ⟨reg, seg, cs, ss, eip, fl, m⟩ := s
  dsimp only at he harg hip hcs hesp hss ⊢
  simp only [taskReturn, List.take] at hs'
  iterate 16 (
    rw [execAll_cons] at hs'
    simp (disch := decide) only [exec, Machine.stack, Machine.set, Machine.pushWord, Machine.next,
      Function.update_apply, reduceCtorEq, if_false, if_true, BitVec.sub_eq_add_neg, BitVec.add_assoc,
      BitVec.reduceNeg, BitVec.reduceAdd, BitVec.ofNat_eq_ofNat, BitVec.mul_zero, BitVec.add_zero, he, harg,
      load32_store32, load32_store32_offset, load32_store32_regs hap, hip, hcs, hesp, hss] at hs')
  subst hs'
  exact ⟨rfl, rfl, rfl⟩

theorem restore_loads (alu : BitVec 32 → BitVec 32 → BitVec 32) {e back : Addr} {r : Registers}
    (he : s.reg .esp = e + 4294967268#32) (hebp : s.reg .ebp = e)
    (harg : load32 s.mem (e + 4294967272#32) = regs) (hback : load32 s.mem (e + 4294967268#32) = back)
    (hap : Apart (e - 32) 32 regs sizeofRegisters) (hr : Layout s.mem regs r)
    (hs' : execAll alu restoreGeneralPurposeRegisters s = s') :
    s'.reg .esp = e + 4294967272#32 ∧ s'.eip = back ∧ s'.mem = store32 s.mem (e + 4294967264#32) e ∧
      s'.reg .edi = r.edi ∧ s'.reg .esi = r.esi ∧ s'.reg .ebp = e ∧ s'.reg .ebx = r.ebx ∧ s'.reg .edx = r.edx ∧
      s'.reg .ecx = r.ecx ∧ s'.reg .eax = r.eax := by
  obtain ⟨hedi, hesi, -, hebx, hedx, hecx, heax, -⟩ := hr.words
  obtain ⟨reg, seg, cs, ss, eip, fl, m⟩ := s
  dsimp only at he hebp harg hback hedi hesi hebx hedx hecx heax ⊢
  simp only [restoreGeneralPurposeRegisters] at hs'
  iterate 12 (
    rw [execAll_cons] at hs'
    simp (disch := decide) only [exec, Machine.stack, Machine.set, Machine.pushWord, Machine.next,
      Function.update_apply, reduceCtorEq, if_false, if_true, BitVec.sub_eq_add_neg, BitVec.add_assoc,
      BitVec.reduceNeg, BitVec.reduceAdd, BitVec.ofNat_eq_ofNat, BitVec.mul_zero, BitVec.add_zero, he, hebp,
      harg, hback, load32_store32, load32_store32_offset, load32_store32_regs hap, load32_store32_edi hap, hedi, hesi,
      hebx, hedx, hecx, heax] at hs')
  subst hs'
  exact ⟨rfl, rfl, rfl, rfl, rfl, rfl, rfl, rfl, rfl, rfl⟩

theorem Layout.store {m : Mem} {e : Addr} {r : Registers} (h : Layout m regs r)
    (hap : Apart (e - 32) 32 regs sizeofRegisters) {c v : BitVec 32} (hc : (c + 32).toNat ≤ 28) :
    Layout (store32 m (e + c) v) regs r := by
  intro i hi
  have hlen : r.words.length = 12 := rfl
  rw [load32_store32_regs hap hc (by rw [BitVec.toNat_ofNat]; omega)]
  exact h i hi

theorem layout_pushedMem {m : Mem} {e : Addr} {r : Registers} (h : Layout m regs r)
    (hap : Apart (e - 32) 32 regs sizeofRegisters) (image : BitVec 32) :
    Layout (pushedMem m e regs r image) regs r := by
  unfold pushedMem
  apply Layout.store _ hap (by decide)
  apply Layout.store _ hap (by decide)
  apply Layout.store _ hap (by decide)
  apply Layout.store _ hap (by decide)
  apply Layout.store _ hap (by decide)
  apply Layout.store _ hap (by decide)
  exact h.store hap (by decide)

/-! ## User code resumed -/

/-- The number of instructions from the entry of `task_return` to the end of its `iretd`. -/
def returnSteps : Nat := 16 + (1 + (11 + (1 + (1 + 1))))

/-- What user code finds, by the saved registers. -/
structure Returned (e : Addr) (eflags : BitVec 32) (r : Registers) (s' : Machine) : Prop where
  edi : s'.reg .edi = r.edi
  esi : s'.reg .esi = r.esi
  -- the kernel's own stack pointer, which `restore_general_purpose_registers` pops into it
  ebp : s'.reg .ebp = e
  ebx : s'.reg .ebx = r.ebx
  edx : s'.reg .edx = r.edx
  ecx : s'.reg .ecx = r.ecx
  eax : s'.reg .eax = r.eax
  eip : s'.eip = r.ip
  cs : s'.cs = r.cs.setWidth 16
  esp : s'.reg .esp = r.esp
  ss : s'.ss = r.ss.setWidth 16
  -- the kernel's own flags
  eflags : s'.eflags = flagsImage eflags ||| 0x200

theorem taskReturn_split (restore : Addr) :
    taskReturn restore = (taskReturn restore).take 16 ++ [.call restore, .add .esp 4, .iretd] := rfl

theorem restore_split :
    restoreGeneralPurposeRegisters = restoreGeneralPurposeRegisters.take 11 ++ [.ret] := rfl

theorem taskReturn_straight (restore : Addr) : ((taskReturn restore).take 16).all Instr.straight = true := rfl

theorem restore_straight : (restoreGeneralPurposeRegisters.take 11).all Instr.straight = true := rfl

theorem iretd_returned {e : Addr} {r : Registers} {eflags back : BitVec 32} {m : Mem}
    (hesp : s.reg .esp = e + 4294967272#32)
    (hmem : s.mem = store32 (store32 (pushedMem m e regs r (flagsImage eflags)) (e + 4294967268#32) back)
      (e + 4294967264#32) e)
    (hregs : s.reg .edi = r.edi ∧ s.reg .esi = r.esi ∧ s.reg .ebp = e ∧ s.reg .ebx = r.ebx ∧
      s.reg .edx = r.edx ∧ s.reg .ecx = r.ecx ∧ s.reg .eax = r.eax) :
    Returned e eflags r (exec alu .iretd (exec alu (.add .esp 4) s)) := by
  obtain ⟨reg, seg, cs, ss, eip, fl, mem⟩ := s
  dsimp only at hesp hmem hregs
  obtain ⟨hedi, hesi, hebp, hebx, hedx, hecx, heax⟩ := hregs
  constructor
  all_goals
    simp (disch := decide) only [exec, Machine.stack, Machine.set, Machine.next, Function.update_apply,
      reduceCtorEq, if_false, if_true, BitVec.add_assoc, BitVec.reduceAdd, BitVec.reduceMul,
      BitVec.ofNat_eq_ofNat, BitVec.mul_zero, BitVec.add_zero, hesp, hmem, pushedMem, load32_store32,
      load32_store32_offset, hedi, hesi, hebp, hebx, hedx, hecx, heax]

theorem task_return_returned (alu : BitVec 32 → BitVec 32 → BitVec 32) (h : Entered code restore regs s)
    {r : Registers} (hr : Layout s.mem regs r) :
    ∃ s', run alu code returnSteps s = some s' ∧ Returned (s.reg .esp) s.eflags r s' := by
  obtain ⟨hcode, hrestore, harg, hap⟩ := h
  generalize he : s.reg .esp = e at harg hap ⊢
  rw [taskReturn_split] at hcode
  obtain ⟨hhead, htail⟩ := hcode.append
  have hcall : code (s.eip + 16) = some (.call restore) := htail.head
  have hadd : code (s.eip + 16 + 1) = some (.add .esp 4) := htail.tail.head
  have hiretd : code (s.eip + 16 + 1 + 1) = some .iretd := htail.tail.tail.head
  rw [restore_split] at hrestore
  obtain ⟨hbody, hend⟩ := hrestore.append
  have hret : code (restore + 11) = some .ret := hend.head
  -- up to the call
  obtain ⟨s1, hs1⟩ : ∃ s1, execAll alu ((taskReturn restore).take 16) s = s1 := ⟨_, rfl⟩
  obtain ⟨hrun1, heip1⟩ := run_straight alu hhead (taskReturn_straight restore)
  obtain ⟨hesp1, hebp1, hmem1⟩ := taskReturn_pushes alu he harg hap hr hs1
  rw [hs1] at hrun1 heip1
  have heip1' : s1.eip = s.eip + 16 := heip1
  -- the call
  obtain ⟨s2, hs2⟩ : ∃ s2, exec alu (.call restore) s1 = s2 := ⟨_, rfl⟩
  have hrun2 : run alu code 1 s1 = some s2 := hs2 ▸ run_one alu (heip1' ▸ hcall)
  have heip2 : s2.eip = restore := by rw [← hs2]; rfl
  have hesp2 : s2.reg .esp = e + 4294967268#32 := by
    rw [← hs2]
    simp [exec, Machine.pushWord, Machine.set, hesp1, BitVec.sub_eq_add_neg, BitVec.add_assoc]
  have hebp2 : s2.reg .ebp = e := by
    rw [← hs2]
    simp [exec, Machine.pushWord, Machine.set, hebp1]
  have hmem2 : s2.mem = store32 (pushedMem s.mem e regs r (flagsImage s.eflags)) (e + 4294967268#32)
      (s.eip + 16 + 1) := by
    rw [← hs2]
    simp [exec, Machine.pushWord, hmem1, hesp1, heip1', BitVec.sub_eq_add_neg, BitVec.add_assoc]
  have hlayout2 : Layout s2.mem regs r := by
    rw [hmem2]
    exact (layout_pushedMem hr hap _).store hap (by decide)
  have harg2 : load32 s2.mem (e + 4294967272#32) = regs := by
    rw [hmem2, load32_store32_offset (by decide), pushedMem, load32_store32]
  have hback2 : load32 s2.mem (e + 4294967268#32) = s.eip + 16 + 1 := by
    rw [hmem2, load32_store32]
  -- the registers
  obtain ⟨s3, hs3⟩ : ∃ s3, execAll alu (restoreGeneralPurposeRegisters.take 11) s2 = s3 := ⟨_, rfl⟩
  obtain ⟨s4, hs4⟩ : ∃ s4, exec alu .ret s3 = s4 := ⟨_, rfl⟩
  have hs24 : execAll alu restoreGeneralPurposeRegisters s2 = s4 := by
    rw [← hs4, ← hs3]
    rfl
  rw [← heip2] at hbody
  obtain ⟨hrun3, heip3⟩ := run_straight alu hbody restore_straight
  rw [hs3] at hrun3 heip3
  have heip3' : s3.eip = restore + 11 := heip3.trans (heip2 ▸ rfl)
  have hrun4 : run alu code 1 s3 = some s4 := hs4 ▸ run_one alu (heip3' ▸ hret)
  obtain ⟨hesp4, heip4, hmem4, hedi, hesi, hebp, hebx, hedx, hecx, heax⟩ :=
    restore_loads alu hesp2 hebp2 harg2 hback2 hap hlayout2 hs24
  -- back in task_return
  have hrun5 : run alu code 1 s4 = some (exec alu (.add .esp 4) s4) := run_one alu (heip4 ▸ hadd)
  have heip5 : (exec alu (.add .esp 4) s4).eip = s.eip + 16 + 1 + 1 := by
    rw [exec_eip alu s4 (i := .add .esp 4) rfl, heip4]
  have hrun6 := run_one alu (heip5 ▸ hiretd)
  refine ⟨exec alu .iretd (exec alu (.add .esp 4) s4), ?_,
    iretd_returned hesp4 (hmem4.trans (by rw [hmem2])) ⟨hedi, hesi, hebp, hebx, hedx, hecx, heax⟩⟩
  have hlen1 : ((taskReturn restore).take 16).length = 16 := rfl
  have hlen3 : (restoreGeneralPurposeRegisters.take 11).length = 11 := rfl
  rw [hlen1] at hrun1
  rw [hlen3] at hrun3
  unfold returnSteps
  rw [run_add, hrun1, Option.bind_some, run_add, hrun2, Option.bind_some, run_add, hrun3, Option.bind_some,
    run_add, hrun4, Option.bind_some, run_add, hrun5, Option.bind_some, hrun6]

/-- User code goes on with the registers of the frame, and with interrupts enabled. -/
structure Resumed (frame : InterruptFrame) (s' : Machine) : Prop where
  edi : s'.reg .edi = frame.edi
  esi : s'.reg .esi = frame.esi
  ebp : s'.reg .ebp = frame.ebp
  ebx : s'.reg .ebx = frame.ebx
  edx : s'.reg .edx = frame.edx
  ecx : s'.reg .ecx = frame.ecx
  eax : s'.reg .eax = frame.eax
  ip : s'.eip = frame.ip
  cs : s'.cs = frame.cs.setWidth 16
  esp : s'.reg .esp = frame.esp
  ss : s'.ss = frame.ss.setWidth 16
  flags : s'.eflags = frame.flags ||| 0x200

theorem Returned.resumed_iff {e : Addr} {eflags : BitVec 32} {t : Task} {frame : InterruptFrame}
    (h : Returned e eflags (taskSaveState t frame).registers s') :
    Resumed frame s' ↔ frame.ebp = e ∧ flagsImage eflags ||| 0x200 = frame.flags ||| 0x200 := by
  constructor
  · intro hr
    exact ⟨hr.ebp.symm.trans h.ebp, h.eflags.symm.trans hr.flags⟩
  · rintro ⟨hebp, hflags⟩
    exact ⟨h.edi, h.esi, h.ebp.trans hebp.symm, h.ebx, h.edx, h.ecx, h.eax, h.eip, h.cs, h.esp, h.ss,
      h.eflags.trans hflags⟩

/-- For every frame and every state of the kernel's registers, the saved state comes back exactly
when the frame's `ebp` is the kernel's stack pointer and its flags are the kernel's. -/
theorem task_return_resumes_iff {task : Addr} {t : Task} {frame : InterruptFrame}
    (h : Entered code restore (taskRegisters task) s)
    (hl : Layout s.mem (taskRegisters task) (taskSaveState t frame).registers) :
    ∃ s', run alu code returnSteps s = some s' ∧
      (Resumed frame s' ↔ frame.ebp = s.reg .esp ∧ flagsImage s.eflags ||| 0x200 = frame.flags ||| 0x200) := by
  obtain ⟨s', hrun, hs'⟩ := task_return_returned alu h hl
  exact ⟨s', hrun, hs'.resumed_iff⟩

/-! ## A task preempted -/

/-- `task_return` at 0x1000 and `restore_general_purpose_registers` at 0x2000. -/
def kernelCode : Code := fun a =>
  if a < 0x2000 then (taskReturn 0x2000)[(a - 0x1000).toNat]?
  else restoreGeneralPurposeRegisters[(a - 0x2000).toNat]?

def preemptedFrame (ebp : BitVec 32) : InterruptFrame :=
  ⟨1, 2, ebp, 0, 4, 5, 6, 7, 0x400010, 0x1b, 0x202, 0x3feff0, 0x23⟩

/-- The kernel calls `task_return` for the task at 0x5000, with its stack at 0x8000. -/
def kernelMachine (ebp : BitVec 32) : Machine where
  reg r := if r = .esp then 0x8000 else 0
  seg _ := 0x10
  cs := 0x08
  ss := 0x10
  eip := 0x1000
  eflags := 0x2
  mem := storeWords (store32 (fun _ => 0) 0x8004 (taskRegisters 0x5000)) (taskRegisters 0x5000)
    (taskSaveState zeroTask (preemptedFrame ebp)).registers.words

theorem entered_kernelMachine (ebp : BitVec 32) :
    Entered kernelCode 0x2000 (taskRegisters 0x5000) (kernelMachine ebp) := by
  refine ⟨?_, ?_, ?_, ?_⟩
  · exact (by decide : ∀ i < 19, kernelCode (0x1000 + BitVec.ofNat 32 i) = (taskReturn 0x2000)[i]?)
  · exact (by decide : ∀ i < 12,
      kernelCode (0x2000 + BitVec.ofNat 32 i) = restoreGeneralPurposeRegisters[i]?)
  · have hpast : load32 (storeWords (store32 (fun _ => 0) 0x8004 (taskRegisters 0x5000)) (taskRegisters 0x5000)
        (taskSaveState zeroTask (preemptedFrame ebp)).registers.words) (taskRegisters 0x5000 + 0x3000) = _ :=
      load32_storeWords_past (show 4 * 12 ≤ 0x3000 by decide) (by decide)
    exact hpast.trans (load32_store32 _ _ _)
  · exact (by decide : Apart (0x8000 - 32) 32 (taskRegisters 0x5000) sizeofRegisters)

theorem task_return_resumes_kernelMachine :
    ∃ s', run (fun flags _ => flags) kernelCode returnSteps (kernelMachine 0x8000) = some s' ∧
      (Resumed (preemptedFrame 0x8000) s' ↔ (0x8000 : BitVec 32) = 0x8000 ∧
        flagsImage 0x2 ||| 0x200 = (0x202 : BitVec 32) ||| 0x200) :=
  task_return_resumes_iff (entered_kernelMachine 0x8000) (layout_storeWords _ _ _)

/-- A frame whose `ebp` is 3 does not come back. -/
theorem task_return_clobbers_ebp :
    ∃ s', run (fun flags _ => flags) kernelCode returnSteps (kernelMachine 3) = some s' ∧
      ¬ Resumed (preemptedFrame 3) s' := by
  obtain ⟨s', hrun, hs'⟩ := task_return_returned (fun flags _ => flags) (entered_kernelMachine 3)
    (layout_storeWords _ _ (taskSaveState zeroTask (preemptedFrame 3)).registers)
  refine ⟨s', hrun, fun hr => ?_⟩
  have hebp : (3 : BitVec 32) = 0x8000 := hr.ebp.symm.trans hs'.ebp
  exact absurd hebp (by decide)

end MultitaskOs.SavedRegisters
