import MultitaskOs.Lib.X86
import Mathlib.Logic.Relation

/-!
# Calls, interrupts and what they leave on the stack

The instructions that stubs and interrupt handlers have besides, the execution of
a block of code, a run of pushes as one list of words, and the convention of C for a call.
-/

open Lib.Memory

namespace Lib.X86

inductive Op where
  | instr (i : Instr)
  | movImm (dst : Reg) (imm : BitVec 32)
  | loadAbs (dst : Reg) (a : Addr)
  | storeAbs (a : Addr) (src : Reg)
  | pushad
  | popad
  | int
deriving DecidableEq

/-- An interrupt gate, with the stack that the task state segment has for its ring. -/
structure Gate where
  handler : Addr
  cs : BitVec 16
  esp : Addr
  ss : BitVec 16

def Machine.pushWords (s : Machine) (ws : List (BitVec 32)) : Machine := ws.foldl Machine.pushWord s

/-- The registers in the order of `pushad`. -/
def Machine.general (s : Machine) : List (BitVec 32) :=
  [s.reg .eax, s.reg .ecx, s.reg .edx, s.reg .ebx, s.reg .esp, s.reg .ebp, s.reg .esi, s.reg .edi]

/-- The flags that an interrupt gate clears: TF, IF, NT, RF and VM. -/
def gateFlags : BitVec 32 := 0x34300

/-- An interrupt of an outer ring, after the instruction at `eip`. -/
def interrupt (gate : Gate) (s : Machine) : Machine :=
  { (s.set .esp gate.esp).pushWords
      [s.ss.setWidth 32, s.reg .esp, s.eflags, s.cs.setWidth 32, s.eip + 1] with
    eip := gate.handler
    cs := gate.cs
    ss := gate.ss
    eflags := s.eflags &&& ~~~gateFlags }

def Op.exec (alu : BitVec 32 → BitVec 32 → BitVec 32) (gate : Gate) : Op → Machine → Machine
  | .instr i, s => X86.exec alu i s
  | .movImm dst imm, s => (s.set dst imm).next
  | .loadAbs dst a, s => (s.set dst (load32 s.mem a)).next
  | .storeAbs a src, s => { s with mem := store32 s.mem a (s.reg src) }.next
  | .pushad, s => (s.pushWords s.general).next
  -- the stack pointer that was pushed is thrown away
  | .popad, s =>
    { s with
      reg := fun
        | .edi => s.stack 0
        | .esi => s.stack 1
        | .ebp => s.stack 2
        | .ebx => s.stack 4
        | .edx => s.stack 5
        | .ecx => s.stack 6
        | .eax => s.stack 7
        | .esp => s.reg .esp + 32 }.next
  | .int, s => interrupt gate s

def Op.straight : Op → Bool
  | .instr i => i.straight
  | .int => false
  | _ => true

/-! ## Blocks of code -/

def Holds (code : Addr → Option Op) (a : Addr) (ops : List Op) : Prop :=
  ∀ i, i < ops.length → code (a + BitVec.ofNat 32 i) = ops[i]?

def execOps (alu : BitVec 32 → BitVec 32 → BitVec 32) (gate : Gate) (ops : List Op) (s : Machine) : Machine :=
  ops.foldl (fun s op => op.exec alu gate s) s

/-- `s'` is reached from `s` by fetching and executing. -/
def Runs (alu : BitVec 32 → BitVec 32 → BitVec 32) (gate : Gate) (code : Addr → Option Op) : Machine → Machine → Prop :=
  Relation.ReflTransGen fun s s' => ∃ op, code s.eip = some op ∧ s' = op.exec alu gate s

variable {alu : BitVec 32 → BitVec 32 → BitVec 32} {gate : Gate} {code : Addr → Option Op} {op : Op} {ops : List Op}
  {m : Mem} {a e x : Addr} {ws vs : List (BitVec 32)} {s s' : Machine} {r : Reg}

theorem Op.exec_eip (h : op.straight) : (op.exec alu gate s).eip = s.eip + 1 := by
  cases op with
  | instr i => exact X86.exec_eip alu s h
  | int => cases h
  | _ => rfl

theorem execOps_append (before after : List Op) :
    execOps alu gate (before ++ after) s = execOps alu gate after (execOps alu gate before s) :=
  List.foldl_append

theorem execOps_eip (h : ops.all Op.straight) :
    (execOps alu gate ops s).eip = s.eip + BitVec.ofNat 32 ops.length := by
  induction ops generalizing s with
  | nil => simp [execOps]
  | cons op ops ih =>
    rw [List.all_cons, Bool.and_eq_true] at h
    refine (ih h.2).trans ?_
    rw [Op.exec_eip h.1, List.length_cons]
    bv_omega

theorem Holds.tail (h : Holds code a (op :: ops)) : Holds code (a + 1) ops := by
  intro n hn
  have hnext := h (n + 1) (by simpa using hn)
  rw [List.getElem?_cons_succ] at hnext
  rw [← hnext]
  congr 1
  bv_omega

theorem Holds.append {before after : List Op} (h : Holds code a (before ++ after)) :
    Holds code a before ∧ Holds code (a + BitVec.ofNat 32 before.length) after := by
  constructor
  · intro n hn
    have hat := h n (by rw [List.length_append]; omega)
    rwa [List.getElem?_append_left hn] at hat
  · intro n hn
    have hat := h (before.length + n) (by rw [List.length_append]; omega)
    rw [List.getElem?_append_right (Nat.le_add_right _ _), Nat.add_sub_cancel_left] at hat
    rw [← hat]
    congr 1
    bv_omega

theorem Runs.block (hcode : Holds code s.eip ops) (hs : ops.dropLast.all Op.straight) :
    Runs alu gate code s (execOps alu gate ops s) := by
  induction ops generalizing s with
  | nil => exact Relation.ReflTransGen.refl
  | cons op ops ih =>
    have hfetch : code s.eip = some op := by simpa using hcode 0 (Nat.succ_pos _)
    refine Relation.ReflTransGen.head ⟨op, hfetch, rfl⟩ ?_
    cases ops with
    | nil => exact Relation.ReflTransGen.refl
    | cons op' ops =>
      rw [List.dropLast_cons_cons, List.all_cons, Bool.and_eq_true] at hs
      have heip : (op.exec alu gate s).eip = s.eip + 1 := Op.exec_eip hs.1
      exact ih (heip ▸ hcode.tail) hs.2

/-! ## Runs of pushes -/

def stackWords (m : Mem) (e : Addr) : List (BitVec 32) → Mem
  | [] => m
  | w :: ws => stackWords (store32 m (e - 4) w) (e - 4) ws

theorem stackWords_append (m : Mem) (e : Addr) (ws vs : List (BitVec 32)) :
    stackWords m e (ws ++ vs) = stackWords (stackWords m e ws) (e - BitVec.ofNat 32 (4 * ws.length)) vs := by
  induction ws generalizing m e with
  | nil => simp [stackWords]
  | cons w ws ih =>
    rw [List.cons_append, stackWords, stackWords, ih, List.length_cons]
    congr 1
    bv_omega

theorem stackWords_other (hlen : 4 * ws.length < 2 ^ 32)
    (h : ¬ Within (e - BitVec.ofNat 32 (4 * ws.length)) (4 * ws.length) x) : stackWords m e ws x = m x := by
  induction ws generalizing m e with
  | nil => rfl
  | cons w ws ih =>
    rw [List.length_cons] at h hlen
    unfold Within at h
    rw [stackWords, ih (by omega) (by unfold Within; bv_omega), store32_of_not_within]
    unfold Within
    bv_omega

theorem load32_stackWords (hlen : 4 * ws.length < 2 ^ 32) {i : Nat} (hi : i < ws.length) :
    load32 (stackWords m e ws) (e - BitVec.ofNat 32 (4 * (i + 1))) = ws[i] := by
  induction ws generalizing m e i with
  | nil => simp at hi
  | cons w ws ih =>
    rw [List.length_cons] at hi hlen
    rw [stackWords]
    cases i with
    | zero =>
      have hkept : Agree (store32 m (e - 4) w) (stackWords (store32 m (e - 4) w) (e - 4) ws) (e - 4) 4 := by
        intro y hy
        refine stackWords_other (by omega) ?_
        unfold Within at hy ⊢
        bv_omega
      exact hkept.load32.trans (load32_store32 _ _ _)
    | succ i =>
      have hnext : e - BitVec.ofNat 32 (4 * (i + 1 + 1)) = e - 4 - BitVec.ofNat 32 (4 * (i + 1)) := by bv_omega
      rw [hnext, ih (by omega) (by omega), List.getElem_cons_succ]

theorem pushWords_mem (s : Machine) (ws : List (BitVec 32)) :
    (s.pushWords ws).mem = stackWords s.mem (s.reg .esp) ws := by
  induction ws generalizing s with
  | nil => rfl
  | cons w ws ih => exact ih (s.pushWord w)

theorem pushWords_esp (s : Machine) (ws : List (BitVec 32)) :
    (s.pushWords ws).reg .esp = s.reg .esp - BitVec.ofNat 32 (4 * ws.length) := by
  induction ws generalizing s with
  | nil => simp [Machine.pushWords]
  | cons w ws ih =>
    refine (ih (s.pushWord w)).trans ?_
    have hpush : (s.pushWord w).reg .esp = s.reg .esp - 4 := by simp [Machine.pushWord, Machine.set]
    rw [hpush, List.length_cons]
    bv_omega

theorem pushWords_reg (hr : r ≠ .esp) (s : Machine) (ws : List (BitVec 32)) : (s.pushWords ws).reg r = s.reg r := by
  induction ws generalizing s with
  | nil => rfl
  | cons w ws ih => exact (ih (s.pushWord w)).trans (Function.update_of_ne hr _ _)

/-- What an instruction or an interrupt pushes, from `e` down. -/
structure Pushed (e : Addr) (ws : List (BitVec 32)) (s s' : Machine) : Prop where
  esp : s'.reg .esp = e - BitVec.ofNat 32 (4 * ws.length)
  reg : ∀ r, r ≠ .esp → s'.reg r = s.reg r
  mem : s'.mem = stackWords s.mem e ws

theorem Pushed.append {s'' : Machine} (h : Pushed e ws s s')
    (h' : Pushed (e - BitVec.ofNat 32 (4 * ws.length)) vs s' s'') : Pushed e (ws ++ vs) s s'' where
  esp := by
    rw [h'.esp, List.length_append]
    bv_omega
  reg r hr := (h'.reg r hr).trans (h.reg r hr)
  mem := by rw [h'.mem, h.mem, stackWords_append]

theorem pushWords_pushed (s : Machine) (ws : List (BitVec 32)) : Pushed (s.reg .esp) ws s (s.pushWords ws) :=
  ⟨pushWords_esp s ws, fun _ hr => pushWords_reg hr s ws, pushWords_mem s ws⟩

theorem push_pushed (alu : BitVec 32 → BitVec 32 → BitVec 32) (s : Machine) (r : Reg) :
    Pushed (s.reg .esp) [s.reg r] s (X86.exec alu (.push r) s) :=
  let h := pushWords_pushed s [s.reg r]
  ⟨h.esp, h.reg, h.mem⟩

theorem call_pushed (alu : BitVec 32 → BitVec 32 → BitVec 32) (s : Machine) (target : Addr) :
    Pushed (s.reg .esp) [s.eip + 1] s (X86.exec alu (.call target) s) :=
  let h := pushWords_pushed s [s.eip + 1]
  ⟨h.esp, h.reg, h.mem⟩

theorem pushad_pushed (alu : BitVec 32 → BitVec 32 → BitVec 32) (gate : Gate) (s : Machine) :
    Pushed (s.reg .esp) s.general s (Op.pushad.exec alu gate s) :=
  let h := pushWords_pushed s s.general
  ⟨h.esp, h.reg, h.mem⟩

theorem interrupt_pushed (gate : Gate) (s : Machine) :
    Pushed gate.esp [s.ss.setWidth 32, s.reg .esp, s.eflags, s.cs.setWidth 32, s.eip + 1] s (interrupt gate s) := by
  have h := pushWords_pushed (s.set .esp gate.esp)
    [s.ss.setWidth 32, s.reg .esp, s.eflags, s.cs.setWidth 32, s.eip + 1]
  have hesp : (s.set .esp gate.esp).reg .esp = gate.esp := rfl
  rw [hesp] at h
  exact ⟨h.esp, fun r hr => (h.reg r hr).trans (Function.update_of_ne hr _ _), h.mem⟩

/-! ## The convention of C -/

/-- What a C function leaves when it returns from `s`, with its return address on top of the stack: what
`keep` says, and the registers that are the caller's. -/
structure Returns (keep : Addr → Prop) (s s' : Machine) : Prop where
  esp : s'.reg .esp = s.reg .esp + 4
  ebx : s'.reg .ebx = s.reg .ebx
  esi : s'.reg .esi = s.reg .esi
  edi : s'.reg .edi = s.reg .edi
  ebp : s'.reg .ebp = s.reg .ebp
  eip : s'.eip = s.stack 0
  mem : ∀ x, keep x → s'.mem x = s.mem x

end Lib.X86
