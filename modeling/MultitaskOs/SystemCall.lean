import MultitaskOs.Code.SystemCall

/-!
# The way of a command into the kernel and back

What `isr80h_handler` finds when user code calls a routine of `mutitaskos.asm`, and what
user code finds when the routine returns.
-/

open Lib.Memory Lib.X86

namespace MultitaskOs.SystemCall

variable {alu : BitVec 32 → BitVec 32 → BitVec 32} {gate : Gate} {code : Addr → Option Op}
  {isr80h_handler tmp_res : Addr} {routine : Routine} {s s' s1 s2 s3 : Machine} {f : InterruptFrame}

/-- The words above the return address. -/
def arguments (routine : Routine) (s : Machine) : List (BitVec 32) :=
  (List.range routine.arguments).map fun i => s.stack (BitVec.ofNat 32 (i + 1))

def trapEsp (routine : Routine) (s : Machine) : Addr := s.reg .esp - BitVec.ofNat 32 (4 * (routine.arguments + 1))

/-! ## The instructions before `int 0x80` -/

structure Entered (routine : Routine) (s s' : Machine) : Prop where
  eax : s'.reg .eax = routine.command
  ebp : s'.reg .ebp = s.reg .esp - 4
  esp : s'.reg .esp = trapEsp routine s
  other : ∀ r, r ≠ .eax → r ≠ .ebp → r ≠ .esp → s'.reg r = s.reg r
  cs : s'.cs = s.cs
  ss : s'.ss = s.ss
  eflags : s'.eflags = s.eflags
  mem : s'.mem = stackWords s.mem (s.reg .esp) (s.reg .ebp :: arguments routine s)

theorem argument_read (s : Machine) (v : BitVec 32) :
    load32 (store32 s.mem (s.reg .esp - 4) v) (s.reg .esp - 4 + 8) = s.stack 1 := by
  have hat : s.reg .esp - 4 + 8 = s.reg .esp + 4#32 * 1 := by bv_omega
  rw [hat]
  apply load32_store32_apart
  unfold Apart
  constructor <;> bv_omega

theorem plainCommand_entered (command : BitVec 32) (alu : BitVec 32 → BitVec 32 → BitVec 32) (gate : Gate)
    (s : Machine) :
    Entered ⟨plainCommand command, command, 0⟩ s (execOps alu gate ((plainCommand command).take 3) s) := by
  refine ⟨rfl, rfl, rfl, ?_, rfl, rfl, rfl, rfl⟩
  intro r h1 h2 h3
  cases r <;> first | rfl | contradiction

theorem argumentCommand_entered (command : BitVec 32) (alu : BitVec 32 → BitVec 32 → BitVec 32) (gate : Gate)
    (s : Machine) :
    Entered ⟨argumentCommand command, command, 1⟩ s (execOps alu gate ((argumentCommand command).take 4) s) := by
  refine ⟨rfl, rfl, ?_, ?_, rfl, rfl, rfl, ?_⟩
  · change s.reg .esp - 4 - 4 = _
    unfold trapEsp
    bv_omega
  · intro r h1 h2 h3
    cases r <;> first | rfl | contradiction
  · change store32 (store32 s.mem (s.reg .esp - 4) (s.reg .ebp)) (s.reg .esp - 4 - 4)
      (load32 (store32 s.mem (s.reg .esp - 4) (s.reg .ebp)) (s.reg .esp - 4 + 8)) = _
    rw [argument_read]
    rfl

/-! ## The instructions after it -/

structure Left (routine : Routine) (s s' : Machine) : Prop where
  ebp : s'.reg .ebp = s.stack (BitVec.ofNat 32 routine.arguments)
  eip : s'.eip = s.stack (BitVec.ofNat 32 (routine.arguments + 1))
  esp : s'.reg .esp = s.reg .esp + BitVec.ofNat 32 (4 * (routine.arguments + 2))
  other : ∀ r, r ≠ .ebp → r ≠ .esp → s'.reg r = s.reg r
  cs : s'.cs = s.cs
  ss : s'.ss = s.ss
  mem : s'.mem = s.mem

theorem plainCommand_left (command : BitVec 32) (alu : BitVec 32 → BitVec 32 → BitVec 32) (gate : Gate) (s : Machine) :
    Left ⟨plainCommand command, command, 0⟩ s (execOps alu gate ((plainCommand command).drop 4) s) := by
  refine ⟨rfl, ?_, ?_, ?_, rfl, rfl, rfl⟩
  · change load32 s.mem (s.reg .esp + 4 + 4 * 0) = load32 s.mem (s.reg .esp + 4 * 1)
    congr 1
    bv_omega
  · change s.reg .esp + 4 + 4 = s.reg .esp + 8
    bv_omega
  · intro r h1 h2
    cases r <;> first | rfl | contradiction

theorem argumentCommand_left (command : BitVec 32) (alu : BitVec 32 → BitVec 32 → BitVec 32) (gate : Gate)
    (s : Machine) :
    Left ⟨argumentCommand command, command, 1⟩ s (execOps alu gate ((argumentCommand command).drop 5) s) := by
  refine ⟨?_, ?_, ?_, ?_, rfl, rfl, rfl⟩
  · change load32 s.mem (s.reg .esp + 4 + 4 * 0) = load32 s.mem (s.reg .esp + 4 * 1)
    congr 1
    bv_omega
  · change load32 s.mem (s.reg .esp + 4 + 4 + 4 * 0) = load32 s.mem (s.reg .esp + 4 * 2)
    congr 1
    bv_omega
  · change s.reg .esp + 4 + 4 + 4 = s.reg .esp + 12
    bv_omega
  · intro r h1 h2
    cases r <;> first | rfl | contradiction

/-- The two halves of a routine, around its `int 0x80`. -/
structure Halves (routine : Routine) where
  before : List Op
  after : List Op
  code : routine.code = (before ++ [.int]) ++ after
  length : before.length = routine.arguments + 3
  arguments_le : routine.arguments ≤ 1
  entering : before.all Op.straight
  leaving : after.dropLast.all Op.straight
  entered : ∀ alu gate s, Entered routine s (execOps alu gate before s)
  left : ∀ alu gate s, Left routine s (execOps alu gate after s)

def plainHalves (command : BitVec 32) : Halves ⟨plainCommand command, command, 0⟩ where
  before := (plainCommand command).take 3
  after := (plainCommand command).drop 4
  code := rfl
  length := rfl
  arguments_le := Nat.zero_le 1
  entering := rfl
  leaving := rfl
  entered := plainCommand_entered command
  left := plainCommand_left command

def argumentHalves (command : BitVec 32) : Halves ⟨argumentCommand command, command, 1⟩ where
  before := (argumentCommand command).take 4
  after := (argumentCommand command).drop 5
  code := rfl
  length := rfl
  arguments_le := Nat.le_refl 1
  entering := rfl
  leaving := rfl
  entered := argumentCommand_entered command
  left := argumentCommand_left command

/-- `print` sets `eax` after its push, to the same effect. -/
theorem print_order (alu : BitVec 32 → BitVec 32 → BitVec 32) (gate : Gate) (s : Machine) :
    execOps alu gate (Routine.print.code.take 4) s = execOps alu gate ((argumentCommand 1).take 4) s := by
  have hreg : (execOps alu gate (Routine.print.code.take 4) s).reg =
      (execOps alu gate ((argumentCommand 1).take 4) s).reg := by
    funext r
    cases r <;> rfl
  exact congrArg (fun reg => { execOps alu gate (Routine.print.code.take 4) s with reg }) hreg

def printHalves : Halves .print where
  before := Routine.print.code.take 4
  after := (argumentCommand 1).drop 5
  code := rfl
  length := rfl
  arguments_le := Nat.le_refl 1
  entering := rfl
  leaving := rfl
  entered alu gate s := by
    rw [print_order]
    have h := argumentCommand_entered 1 alu gate s
    exact { h with }
  left alu gate s :=
    have h := argumentCommand_left 1 alu gate s
    { h with }

theorem halves (h : routine ∈ routines) : Nonempty (Halves routine) := by
  simp only [routines, List.mem_cons, List.not_mem_nil, or_false] at h
  obtain rfl | rfl | rfl | rfl | rfl | rfl | rfl | rfl | rfl := h
  · exact ⟨printHalves⟩
  · exact ⟨plainHalves 2⟩
  · exact ⟨argumentHalves 3⟩
  · exact ⟨argumentHalves 4⟩
  · exact ⟨argumentHalves 5⟩
  · exact ⟨argumentHalves 6⟩
  · exact ⟨argumentHalves 7⟩
  · exact ⟨argumentHalves 8⟩
  · exact ⟨plainHalves 9⟩

/-! ## `isr80h_wrapper` -/

/-- The frame that an interrupt at `s` leaves, with the registers that `pushad` adds. -/
def trapFrame (gate : Gate) (s : Machine) : InterruptFrame where
  edi := s.reg .edi
  esi := s.reg .esi
  ebp := s.reg .ebp
  reserved := gate.esp - 20
  ebx := s.reg .ebx
  edx := s.reg .edx
  ecx := s.reg .ecx
  eax := s.reg .eax
  ip := s.eip + 1
  cs := s.cs.setWidth 32
  flags := s.eflags
  esp := s.reg .esp
  ss := s.ss.setWidth 32

/-- What lies on the kernel's stack when `isr80h_handler` is entered, the frame highest. -/
def trapWords (gate : Gate) (s : Machine) : List (BitVec 32) :=
  (trapFrame gate s).words.reverse ++ [gate.esp - 52, s.reg .eax, gate.handler + 4]

structure Trapped (gate : Gate) (isr80h_handler : Addr) (s s' : Machine) : Prop where
  pushed : Pushed gate.esp (trapWords gate s) s s'
  eip : s'.eip = isr80h_handler
  cs : s'.cs = gate.cs
  ss : s'.ss = gate.ss
  eflags : s'.eflags = s.eflags &&& ~~~gateFlags

theorem isr80hWrapper_pushed (alu : BitVec 32 → BitVec 32 → BitVec 32) (gate : Gate) (isr80h_handler tmp_res : Addr)
    (s : Machine) :
    Pushed gate.esp (trapWords gate s) s
      (execOps alu gate ((isr80hWrapper isr80h_handler tmp_res).take 4) (interrupt gate s)) := by
  have hint := interrupt_pushed gate s
  generalize hs0 : interrupt gate s = s0 at hint
  have heip : s0.eip = gate.handler := by rw [← hs0]; rfl
  change Pushed gate.esp (trapWords gate s) s (exec alu (.call isr80h_handler)
    (exec alu (.push .eax) (exec alu (.push .esp) (Op.pushad.exec alu gate s0))))
  have h5 : s0.reg .esp = gate.esp - 20 := hint.esp
  have hpushad := pushad_pushed alu gate s0
  rw [h5, Machine.general, h5] at hpushad
  generalize hs1 : Op.pushad.exec alu gate s0 = s1 at hpushad
  have h13 : s1.reg .esp = gate.esp - 52 := by
    rw [hpushad.esp]
    change gate.esp - 20 - 32 = _
    bv_omega
  have hpushEsp := push_pushed alu s1 .esp
  rw [h13] at hpushEsp
  generalize hs2 : exec alu (.push .esp) s1 = s2 at hpushEsp
  have h14 : s2.reg .esp = gate.esp - 56 := by
    rw [hpushEsp.esp]
    change gate.esp - 52 - 4 = _
    bv_omega
  have hpushEax := push_pushed alu s2 .eax
  rw [h14] at hpushEax
  generalize hs3 : exec alu (.push .eax) s2 = s3 at hpushEax
  have h15 : s3.reg .esp = gate.esp - 60 := by
    rw [hpushEax.esp]
    change gate.esp - 56 - 4 = _
    bv_omega
  have hcall := call_pushed alu s3 isr80h_handler
  rw [h15] at hcall
  have heax : s2.reg .eax = s.reg .eax :=
    (hpushEsp.reg _ (by decide)).trans ((hpushad.reg _ (by decide)).trans (hint.reg _ (by decide)))
  have hreturn : s3.eip + 1 = gate.handler + 4 := by
    rw [← hs3, ← hs2, ← hs1]
    change s0.eip + 1 + 1 + 1 + 1 = _
    rw [heip]
    bv_omega
  have hall := (((hint.append hpushad).append hpushEsp).append hpushEax).append hcall
  rw [heax, hreturn] at hall
  simp only [hint.reg, ne_eq, reduceCtorEq, not_false_eq_true] at hall
  exact hall

theorem isr80hWrapper_trapped (alu : BitVec 32 → BitVec 32 → BitVec 32) (gate : Gate) (isr80h_handler tmp_res : Addr)
    (s : Machine) :
    Trapped gate isr80h_handler s
      (execOps alu gate ((isr80hWrapper isr80h_handler tmp_res).take 4) (interrupt gate s)) :=
  ⟨isr80hWrapper_pushed alu gate isr80h_handler tmp_res s, rfl, rfl, rfl, rfl⟩

/-- The frame lies at `gate.esp - 52`, below it the two arguments and the return address. -/
theorem Trapped.frame (h : Trapped gate isr80h_handler s s') (i : Nat) (hi : i < (trapFrame gate s).words.length) :
    load32 s'.mem (gate.esp - 52 + BitVec.ofNat 32 (4 * i)) = (trapFrame gate s).words[i] := by
  have hlen : (trapFrame gate s).words.length = 13 := rfl
  have hat : gate.esp - 52 + BitVec.ofNat 32 (4 * i) = gate.esp - BitVec.ofNat 32 (4 * (12 - i + 1)) := by bv_omega
  have hwords : (trapWords gate s).length = 16 := rfl
  rw [h.pushed.mem, hat, load32_stackWords (by omega) (by omega)]
  simp only [trapWords]
  rw [List.getElem_append_left (by rw [List.length_reverse]; omega), List.getElem_reverse]
  congr 1
  omega

theorem Trapped.stack (h : Trapped gate isr80h_handler s s') :
    s'.stack 0 = gate.handler + 4 ∧ s'.stack 1 = s.reg .eax ∧ s'.stack 2 = gate.esp - 52 := by
  have hesp : s'.reg .esp = gate.esp - 64 := h.pushed.esp
  have hwords : (trapWords gate s).length = 16 := rfl
  have hat : ∀ i < 3, s'.stack (BitVec.ofNat 32 i) = load32 s'.mem (gate.esp - BitVec.ofNat 32 (4 * (15 - i + 1))) := by
    intro i hi
    rw [Machine.stack, hesp]
    congr 1
    bv_omega
  refine ⟨(hat 0 (by omega)).trans ?_, (hat 1 (by omega)).trans ?_, (hat 2 (by omega)).trans ?_⟩
  all_goals
    rw [h.pushed.mem, load32_stackWords (by omega) (by omega)]
    rfl

structure Resumed (f : InterruptFrame) (tmp_res : Addr) (s s' : Machine) : Prop where
  eax : s'.reg .eax = s.reg .eax
  ecx : s'.reg .ecx = f.ecx
  edx : s'.reg .edx = f.edx
  ebx : s'.reg .ebx = f.ebx
  esp : s'.reg .esp = f.esp
  ebp : s'.reg .ebp = f.ebp
  esi : s'.reg .esi = f.esi
  edi : s'.reg .edi = f.edi
  eip : s'.eip = f.ip
  cs : s'.cs = f.cs.setWidth 16
  ss : s'.ss = f.ss.setWidth 16
  mem : s'.mem = store32 s.mem tmp_res (s.reg .eax)

theorem isr80hWrapper_resumed (alu : BitVec 32 → BitVec 32 → BitVec 32) (base : Addr) (hesp : s.reg .esp = base - 8)
    (hframe : ∀ i, (hi : i < f.words.length) → load32 s.mem (base + BitVec.ofNat 32 (4 * i)) = f.words[i])
    (htmp : Apart tmp_res 4 base 52) :
    Resumed f tmp_res s (execOps alu gate ((isr80hWrapper isr80h_handler tmp_res).drop 4) s) := by
  have hlen : f.words.length = 13 := rfl
  change Resumed f tmp_res s (exec alu .iretd (Op.exec alu gate (.loadAbs .eax tmp_res) (Op.popad.exec alu gate
    (exec alu (.add .esp 8) (Op.exec alu gate (.storeAbs tmp_res .eax) s)))))
  generalize hs1 : exec alu (.add .esp 8) (Op.exec alu gate (.storeAbs tmp_res .eax) s) = s1
  have hmem : s1.mem = store32 s.mem tmp_res (s.reg .eax) := by rw [← hs1]; rfl
  have hbase : s1.reg .esp = base := by
    rw [← hs1]
    change s.reg .esp + 8 = base
    rw [hesp]
    bv_omega
  have hword : ∀ i, (hi : i < f.words.length) → s1.stack (BitVec.ofNat 32 i) = f.words[i] := by
    intro i hi
    have hat : base + 4 * BitVec.ofNat 32 i = base + BitVec.ofNat 32 (4 * i) := by bv_omega
    rw [Machine.stack, hbase, hat, hmem, load32_store32_apart, hframe i hi]
    refine htmp.sub ?_ ?_ (by omega) (by omega) <;> bv_omega
  generalize hs2 : Op.popad.exec alu gate s1 = s2
  have hesp2 : s2.reg .esp = base + 32 := by rw [← hs2, ← hbase]; rfl
  have hmem2 : s2.mem = s1.mem := by rw [← hs2]; rfl
  generalize hs3 : Op.exec alu gate (.loadAbs .eax tmp_res) s2 = s3
  have heax : s3.reg .eax = s.reg .eax := by
    rw [← hs3]
    change load32 s2.mem tmp_res = _
    rw [hmem2, hmem, load32_store32]
  have hesp3 : s3.reg .esp = base + 32 := by rw [← hesp2, ← hs3]; rfl
  have hmem3 : s3.mem = s1.mem := by rw [← hmem2, ← hs3]; rfl
  have hkept : ∀ r, r ≠ .eax → s3.reg r = s2.reg r := fun r hr => by
    rw [← hs3]
    exact Function.update_of_ne hr _ _
  -- `iretd` reads above the registers that `popad` took
  have hpast : ∀ i, (hi : i + 8 < f.words.length) → s3.stack (BitVec.ofNat 32 i) = f.words[i + 8] := by
    intro i hi
    rw [← hword (i + 8) hi, Machine.stack, Machine.stack, hesp3, hmem3, hbase]
    congr 1
    bv_omega
  have hpopped : ∀ r, r ≠ .eax → r ≠ .esp → (exec alu .iretd s3).reg r = (Op.popad.exec alu gate s1).reg r := by
    intro r h1 h2
    rw [hs2, ← hkept r h1]
    exact Function.update_of_ne h2 _ _
  refine ⟨?_, (hpopped _ (by decide) (by decide)).trans (hword 6 (by omega)),
    (hpopped _ (by decide) (by decide)).trans (hword 5 (by omega)),
    (hpopped _ (by decide) (by decide)).trans (hword 4 (by omega)), hpast 3 (by omega),
    (hpopped _ (by decide) (by decide)).trans (hword 2 (by omega)),
    (hpopped _ (by decide) (by decide)).trans (hword 1 (by omega)),
    (hpopped _ (by decide) (by decide)).trans (hword 0 (by omega)), hpast 0 (by omega),
    congrArg (BitVec.setWidth 16) (hpast 1 (by omega)), congrArg (BitVec.setWidth 16) (hpast 4 (by omega)),
    hmem3.trans hmem⟩
  rw [← heax]
  rfl

/-! ## A call of a routine -/

def callFrame (gate : Gate) (routine : Routine) (s : Machine) : InterruptFrame where
  edi := s.reg .edi
  esi := s.reg .esi
  ebp := s.reg .esp - 4
  reserved := gate.esp - 20
  ebx := s.reg .ebx
  edx := s.reg .edx
  ecx := s.reg .ecx
  eax := routine.command
  ip := s.eip + BitVec.ofNat 32 (routine.arguments + 4)
  cs := s.cs.setWidth 32
  flags := s.eflags
  esp := trapEsp routine s
  ss := s.ss.setWidth 32

/-- What a call uses of the caller's stack, the return address included. -/
def OnUserStack (routine : Routine) (s : Machine) : Addr → Prop :=
  Within (trapEsp routine s) (4 * (routine.arguments + 2))

def OnKernelStack (gate : Gate) : Addr → Prop := Within (gate.esp - 64) 64

/-- The two stacks and `tmp_res` are clear of each other. -/
structure Clear (gate : Gate) (tmp_res : Addr) (routine : Routine) (s : Machine) : Prop where
  apart : Apart (gate.esp - 64) 64 (trapEsp routine s) (4 * (routine.arguments + 2))
  user : Apart tmp_res 4 (trapEsp routine s) (4 * (routine.arguments + 2))
  kernel : Apart tmp_res 4 (gate.esp - 64) 64

/-- What `isr80h_handler` finds. -/
structure Handed (gate : Gate) (isr80h_handler : Addr) (routine : Routine) (s s' : Machine) : Prop where
  eip : s'.eip = isr80h_handler
  cs : s'.cs = gate.cs
  ss : s'.ss = gate.ss
  eflags : s'.eflags = s.eflags &&& ~~~gateFlags
  command : s'.stack 1 = routine.command
  frame : ∀ i, (hi : i < (callFrame gate routine s).words.length) →
    load32 s'.mem (s'.stack 2 + BitVec.ofNat 32 (4 * i)) = (callFrame gate routine s).words[i]
  arguments : ∀ i, (hi : i < (arguments routine s).length) →
    load32 s'.mem ((callFrame gate routine s).esp + BitVec.ofNat 32 (4 * i)) = (arguments routine s)[i]
  mem : ∀ x, ¬ OnUserStack routine s x → ¬ OnKernelStack gate x → s'.mem x = s.mem x

/-- The words that the kernel leaves alone while it serves the command. -/
def Kept (gate : Gate) (routine : Routine) (s : Machine) (x : Addr) : Prop :=
  OnUserStack routine s x ∨ Within (gate.esp - 52) 52 x

/-- What the caller finds, `s` being where it called and `s2` where `isr80h_handler` returned. -/
structure Answered (tmp_res : Addr) (s s2 s3 : Machine) : Prop where
  eax : s3.reg .eax = s2.reg .eax
  esp : s3.reg .esp = s.reg .esp + 4
  other : ∀ r, r ≠ .eax → r ≠ .esp → s3.reg r = s.reg r
  eip : s3.eip = s.stack 0
  cs : s3.cs = s.cs
  ss : s3.ss = s.ss
  mem : s3.mem = store32 s2.mem tmp_res (s2.reg .eax)

theorem Entered.trapFrame_eq (gate : Gate) (h : Entered routine s s')
    (heip : s'.eip = s.eip + BitVec.ofNat 32 (routine.arguments + 3)) :
    trapFrame gate s' = callFrame gate routine s := by
  have hip : s'.eip + 1 = s.eip + BitVec.ofNat 32 (routine.arguments + 4) := by rw [heip]; bv_omega
  simp only [trapFrame, callFrame, h.eax, h.ebp, h.esp, h.cs, h.ss, h.eflags, hip]
  rw [h.other .edi, h.other .esi, h.other .ebx, h.other .edx, h.other .ecx]
  all_goals decide

theorem length_arguments (routine : Routine) (s : Machine) : (arguments routine s).length = routine.arguments := by
  simp [arguments]

section Entering

variable (h : Entered routine s s') (hargs : routine.arguments ≤ 1)
include h hargs

theorem Entered.outside {x : Addr} (hx : ¬ OnUserStack routine s x) : s'.mem x = s.mem x := by
  rw [h.mem]
  refine stackWords_other (by rw [List.length_cons, length_arguments]; omega) ?_
  rw [List.length_cons, length_arguments]
  unfold OnUserStack trapEsp at hx
  unfold Within at hx ⊢
  omega

theorem Entered.argument (i : Nat) (hi : i < (arguments routine s).length) :
    load32 s'.mem (trapEsp routine s + BitVec.ofNat 32 (4 * i)) = (arguments routine s)[i] := by
  have hlen := length_arguments routine s
  obtain rfl : i = 0 := by omega
  have hat : trapEsp routine s + BitVec.ofNat 32 (4 * 0) = s.reg .esp - BitVec.ofNat 32 (4 * (1 + 1)) := by
    unfold trapEsp
    bv_omega
  rw [h.mem, hat, load32_stackWords (by rw [List.length_cons]; omega) (by rw [List.length_cons]; omega)]
  rfl

theorem Entered.saved : load32 s'.mem (trapEsp routine s + BitVec.ofNat 32 (4 * routine.arguments)) = s.reg .ebp := by
  have hlen := length_arguments routine s
  have hat : trapEsp routine s + BitVec.ofNat 32 (4 * routine.arguments) =
      s.reg .esp - BitVec.ofNat 32 (4 * (0 + 1)) := by
    unfold trapEsp
    bv_omega
  rw [h.mem, hat, load32_stackWords (by rw [List.length_cons]; omega) (Nat.succ_pos _)]
  rfl

theorem Entered.back : load32 s'.mem (trapEsp routine s + BitVec.ofNat 32 (4 * (routine.arguments + 1))) =
    s.stack 0 := by
  have hlen := length_arguments routine s
  have hat : trapEsp routine s + BitVec.ofNat 32 (4 * (routine.arguments + 1)) = s.reg .esp + 4 * 0 := by
    unfold trapEsp
    bv_omega
  rw [hat, Machine.stack]
  apply Agree.load32
  intro x hx
  rw [h.mem]
  refine stackWords_other (by rw [List.length_cons]; omega) ?_
  rw [List.length_cons, hlen]
  unfold Within at hx ⊢
  bv_omega

end Entering

theorem Trapped.outside (h : Trapped gate isr80h_handler s s') {x : Addr} (hx : ¬ OnKernelStack gate x) :
    s'.mem x = s.mem x := by
  have hwords : (trapWords gate s).length = 16 := rfl
  rw [h.pushed.mem]
  exact stackWords_other (by omega) hx

theorem Trapped.agree (h : Trapped gate isr80h_handler s' s1) (hclear : Clear gate tmp_res routine s) :
    Agree s'.mem s1.mem (trapEsp routine s) (4 * (routine.arguments + 2)) :=
  fun _ hx => h.outside (hclear.apart.not_within hx)

theorem callerWord {m m' : Mem} (h : Agree m m' (trapEsp routine s) (4 * (routine.arguments + 2)))
    (hargs : routine.arguments ≤ 1) {j : Nat} (hj : j ≤ routine.arguments + 1) :
    load32 m' (trapEsp routine s + BitVec.ofNat 32 (4 * j)) =
      load32 m (trapEsp routine s + BitVec.ofNat 32 (4 * j)) := by
  have hsub : Agree m m' (trapEsp routine s + BitVec.ofNat 32 (4 * j)) 4 := by
    apply h.sub
    bv_omega
  exact hsub.load32

theorem handed (hin : Entered routine s s') (heip : s'.eip = s.eip + BitVec.ofNat 32 (routine.arguments + 3))
    (hargs : routine.arguments ≤ 1) (hclear : Clear gate tmp_res routine s) (h : Trapped gate isr80h_handler s' s1) :
    Handed gate isr80h_handler routine s s1 := by
  have hframe := hin.trapFrame_eq gate heip
  obtain ⟨-, hcommand, hpointer⟩ := h.stack
  refine ⟨h.eip, h.cs, h.ss, by rw [h.eflags, hin.eflags], hcommand.trans hin.eax, ?_, ?_, ?_⟩
  · rw [hpointer, ← hframe]
    exact h.frame
  · intro i hi
    have hlen := length_arguments routine s
    rw [← hin.argument hargs i hi]
    exact callerWord (h.agree hclear) hargs (by omega)
  · intro x hu hk
    rw [h.outside hk, hin.outside hargs hu]

theorem answered (hin : Entered routine s s')
    (hargs : routine.arguments ≤ 1) (hclear : Clear gate tmp_res routine s) (h : Trapped gate isr80h_handler s' s1)
    (hserved : Returns (Kept gate routine s) s1 s2) (hback : Resumed (callFrame gate routine s) tmp_res s2 s3)
    {s4 : Machine} (hleft : Left routine s3 s4) : Answered tmp_res s s2 s4 := by
  have hserve : Agree s1.mem s2.mem (trapEsp routine s) (4 * (routine.arguments + 2)) :=
    fun x hx => hserved.mem x (Or.inl hx)
  have hstore : Agree s2.mem s3.mem (trapEsp routine s) (4 * (routine.arguments + 2)) := by
    rw [hback.mem]
    exact agree_store32 hclear.user
  have hkept := ((h.agree hclear).trans hserve).trans hstore
  have hat : ∀ j ≤ routine.arguments + 1, s3.stack (BitVec.ofNat 32 j) =
      load32 s'.mem (trapEsp routine s + BitVec.ofNat 32 (4 * j)) := by
    intro j hj
    rw [← callerWord hkept hargs hj, Machine.stack, hback.esp]
    congr 2
    bv_omega
  refine ⟨?_, ?_, ?_, ?_, ?_, ?_, hleft.mem.trans hback.mem⟩
  · exact (hleft.other _ (by decide) (by decide)).trans hback.eax
  · rw [hleft.esp, hback.esp]
    change s.reg .esp - BitVec.ofNat 32 (4 * (routine.arguments + 1)) + _ = _
    bv_omega
  · intro r h1 h2
    by_cases hr : r = .ebp
    · rw [hr, hleft.ebp, hat _ (by omega), hin.saved hargs]
    · rw [hleft.other r hr h2]
      cases r with
      | eax => exact absurd rfl h1
      | esp => exact absurd rfl h2
      | ebp => exact absurd rfl hr
      | ebx => exact hback.ebx
      | ecx => exact hback.ecx
      | edx => exact hback.edx
      | esi => exact hback.esi
      | edi => exact hback.edi
  · rw [hleft.eip, hat _ (Nat.le_refl _), hin.back hargs]
  · rw [hleft.cs, hback.cs]
    simp [callFrame]
  · rw [hleft.ss, hback.ss]
    simp [callFrame]

theorem resumed (alu : BitVec 32 → BitVec 32 → BitVec 32) (hin : Entered routine s s')
    (heip : s'.eip = s.eip + BitVec.ofNat 32 (routine.arguments + 3))
    (hclear : Clear gate tmp_res routine s) (h : Trapped gate isr80h_handler s' s1)
    (hserved : Returns (Kept gate routine s) s1 s2) :
    Resumed (callFrame gate routine s) tmp_res s2
      (execOps alu gate ((isr80hWrapper isr80h_handler tmp_res).drop 4) s2) := by
  apply isr80hWrapper_resumed alu (gate.esp - 52)
  · have hesp : s1.reg .esp = gate.esp - 64 := h.pushed.esp
    rw [hserved.esp, hesp]
    bv_omega
  · intro i hi
    have hlen : (callFrame gate routine s).words.length = 13 := rfl
    have hframe : Agree s1.mem s2.mem (gate.esp - 52 + BitVec.ofNat 32 (4 * i)) 4 := by
      intro x hx
      apply hserved.mem
      right
      unfold Within at hx ⊢
      bv_omega
    have hword := h.frame i (by rw [hin.trapFrame_eq gate heip]; exact hi)
    rw [hframe.load32, hword]
    simp only [hin.trapFrame_eq gate heip]
  · refine hclear.kernel.sub ?_ ?_ (by omega) (by omega) <;> bv_omega

/-- A command goes to `isr80h_handler` with the caller's registers and arguments, and whatever the
handler returns comes back to the caller. -/
theorem command_answered (hroutine : routine ∈ routines) (hcode : Holds code s.eip routine.code)
    (hwrapper : Holds code gate.handler (isr80hWrapper isr80h_handler tmp_res))
    (hclear : Clear gate tmp_res routine s) :
    ∃ s1, Runs alu gate code s s1 ∧ Handed gate isr80h_handler routine s s1 ∧
      ∀ s2, Returns (Kept gate routine s) s1 s2 → ∃ s3, Runs alu gate code s2 s3 ∧ Answered tmp_res s s2 s3 := by
  obtain ⟨half⟩ := halves hroutine
  rw [half.code] at hcode
  obtain ⟨hbefore, hafter⟩ := hcode.append
  obtain ⟨henter, hleave⟩ : Holds code gate.handler ((isr80hWrapper isr80h_handler tmp_res).take 4) ∧
      Holds code (gate.handler + 4) ((isr80hWrapper isr80h_handler tmp_res).drop 4) := Holds.append hwrapper
  -- up to the trap, and from there into the handler
  generalize hs' : execOps alu gate half.before s = s'
  have hin : Entered routine s s' := hs' ▸ half.entered alu gate s
  have heip : s'.eip = s.eip + BitVec.ofNat 32 (routine.arguments + 3) := by
    rw [← hs', execOps_eip half.entering, half.length]
  have htrap : Runs alu gate code s (interrupt gate s') := by
    have hblock : Runs alu gate code s (execOps alu gate (half.before ++ [.int]) s) :=
      Runs.block hbefore (by rw [List.dropLast_concat]; exact half.entering)
    rwa [execOps_append, hs'] at hblock
  have hinto : Runs alu gate code (interrupt gate s')
      (execOps alu gate ((isr80hWrapper isr80h_handler tmp_res).take 4) (interrupt gate s')) := Runs.block henter rfl
  have htrapped := isr80hWrapper_trapped alu gate isr80h_handler tmp_res s'
  refine ⟨_, htrap.trans hinto, handed hin heip half.arguments_le hclear htrapped, ?_⟩
  intro s2 hserved
  have hback := resumed alu hin heip hclear htrapped hserved
  have hreturn : s2.eip = gate.handler + 4 := hserved.eip.trans htrapped.stack.1
  have hout : Runs alu gate code s2 (execOps alu gate ((isr80hWrapper isr80h_handler tmp_res).drop 4) s2) :=
    Runs.block (hreturn ▸ hleave) rfl
  generalize execOps alu gate ((isr80hWrapper isr80h_handler tmp_res).drop 4) s2 = s3 at hback hout
  have hlast : Runs alu gate code s3 (execOps alu gate half.after s3) := by
    apply Runs.block _ half.leaving
    rw [hback.eip]
    have hlength : (half.before ++ [Op.int]).length = routine.arguments + 4 := by simp [half.length]
    rw [hlength] at hafter
    exact hafter
  exact ⟨_, hout.trans hlast, answered hin half.arguments_le hclear htrapped hserved hback (half.left alu gate s3)⟩

/-- A program that has `malloc` at 0x400000, and a kernel that has the wrapper at 0x100000. -/
def mallocCode (a : Addr) : Option Op :=
  if a < 0x400000 then (isr80hWrapper 0x102000 0x110000)[(a - 0x100000).toNat]?
  else Routine.multitaskosMalloc.code[(a - 0x400000).toNat]?

def kernelGate : Gate where
  handler := 0x100000
  cs := 8
  esp := 0x600000
  ss := 0x10

def mallocCall : Machine where
  reg r := if r = .esp then 0x3fe000 else 0
  seg _ := 0x23
  cs := 0x1b
  ss := 0x23
  eip := 0x400000
  eflags := 0x202
  mem _ := 7

theorem command_answered_malloc :
    ∃ s1, Runs (fun flags _ => flags) kernelGate mallocCode mallocCall s1 ∧
      Handed kernelGate 0x102000 .multitaskosMalloc mallocCall s1 ∧
      ∀ s2, Returns (Kept kernelGate .multitaskosMalloc mallocCall) s1 s2 →
        ∃ s3, Runs (fun flags _ => flags) kernelGate mallocCode s2 s3 ∧ Answered 0x110000 mallocCall s2 s3 :=
  command_answered (by simp [routines]) (by unfold Holds; decide) (by unfold Holds; decide)
    ⟨by unfold Apart; decide, by unfold Apart; decide, by unfold Apart; decide⟩

end MultitaskOs.SystemCall
