import MultitaskOs.Lib.Memory

/-!
# A piece of the 32-bit x86

The instructions that save and restore registers, in ring 0 and in the flat
memory model. An instruction takes one address: no byte of code is read as data,
so how long the encodings are does not matter.
-/

open Lib.Memory

namespace Lib.X86

inductive Reg where
  | eax | ebx | ecx | edx | esi | edi | ebp | esp
deriving DecidableEq

inductive Seg where
  | ds | es | fs | gs
deriving DecidableEq

inductive Instr where
  | mov (dst src : Reg)
  | load (dst base : Reg) (disp : BitVec 32)
  /-- The lower half of `dst` alone. -/
  | loadLow (dst base : Reg) (disp : BitVec 32)
  | movSeg (dst : Seg) (src : Reg)
  | push (src : Reg)
  | pushMem (base : Reg) (disp : BitVec 32)
  | pop (dst : Reg)
  | pushf
  | or (dst : Reg) (imm : BitVec 32)
  | add (dst : Reg) (imm : BitVec 32)
  | call (target : Addr)
  | ret
  | iretd
deriving DecidableEq

structure Machine where
  reg : Reg → BitVec 32
  seg : Seg → BitVec 16
  cs : BitVec 16
  ss : BitVec 16
  eip : Addr
  eflags : BitVec 32
  mem : Mem

namespace Machine

def set (s : Machine) (r : Reg) (v : BitVec 32) : Machine := { s with reg := Function.update s.reg r v }

def pushWord (s : Machine) (v : BitVec 32) : Machine :=
  { s.set .esp (s.reg .esp - 4) with mem := store32 s.mem (s.reg .esp - 4) v }

/-- The word `i` words above the top of the stack. -/
def stack (s : Machine) (i : BitVec 32) : BitVec 32 := load32 s.mem (s.reg .esp + 4 * i)

def next (s : Machine) : Machine := { s with eip := s.eip + 1 }

end Machine

/-- The image of the flags that `pushf` stores: without VM and RF. -/
def flagsImage (eflags : BitVec 32) : BitVec 32 := eflags &&& 0x00fcffff

/-- `alu` gives the flags after an arithmetic instruction, from those before and the result. -/
def exec (alu : BitVec 32 → BitVec 32 → BitVec 32) : Instr → Machine → Machine
  | .mov dst src, s => (s.set dst (s.reg src)).next
  | .load dst base disp, s => (s.set dst (load32 s.mem (s.reg base + disp))).next
  | .loadLow dst base disp, s =>
    (s.set dst ((s.reg dst).extractLsb' 16 16 ++ load16 s.mem (s.reg base + disp))).next
  | .movSeg dst src, s => { s with seg := Function.update s.seg dst ((s.reg src).setWidth 16) }.next
  | .push src, s => (s.pushWord (s.reg src)).next
  | .pushMem base disp, s => (s.pushWord (load32 s.mem (s.reg base + disp))).next
  | .pop dst, s => ((s.set .esp (s.reg .esp + 4)).set dst (s.stack 0)).next
  | .pushf, s => (s.pushWord (flagsImage s.eflags)).next
  | .or dst imm, s =>
    ({ s with eflags := alu s.eflags (s.reg dst ||| imm) }.set dst (s.reg dst ||| imm)).next
  | .add dst imm, s =>
    ({ s with eflags := alu s.eflags (s.reg dst + imm) }.set dst (s.reg dst + imm)).next
  | .call target, s => { s.pushWord (s.eip + 1) with eip := target }
  | .ret, s => { s.set .esp (s.reg .esp + 4) with eip := s.stack 0 }
  -- a return to an outer ring, which takes the stack too
  | .iretd, s =>
    { s.set .esp (s.stack 3) with
      eip := s.stack 0
      cs := (s.stack 1).setWidth 16
      eflags := s.stack 2
      ss := (s.stack 4).setWidth 16 }

/-- The instructions that go on to the next one. -/
def Instr.straight : Instr → Bool
  | .call _ | .ret | .iretd => false
  | _ => true

abbrev Code := Addr → Option Instr

def Loaded (code : Code) (a : Addr) (is : List Instr) : Prop :=
  ∀ i, i < is.length → code (a + BitVec.ofNat 32 i) = is[i]?

variable {alu : BitVec 32 → BitVec 32 → BitVec 32} {code : Code} {a : Addr} {i : Instr} {is : List Instr}
  {s s' : Machine}

def run (alu : BitVec 32 → BitVec 32 → BitVec 32) (code : Code) : Nat → Machine → Option Machine
  | 0, s => some s
  | n + 1, s => (code s.eip).bind fun i => run alu code n (exec alu i s)

def execAll (alu : BitVec 32 → BitVec 32 → BitVec 32) (is : List Instr) (s : Machine) : Machine :=
  is.foldl (fun s i => exec alu i s) s

theorem execAll_cons (alu : BitVec 32 → BitVec 32 → BitVec 32) (i : Instr) (is : List Instr) (s : Machine) :
    execAll alu (i :: is) s = execAll alu is (exec alu i s) := rfl

theorem run_add (m n : Nat) : run alu code (m + n) s = (run alu code m s).bind (run alu code n) := by
  induction m generalizing s with
  | zero => rw [Nat.zero_add, run, Option.bind_some]
  | succ m ih =>
    rw [Nat.succ_add, run, run]
    cases code s.eip with
    | none => rfl
    | some i =>
      rw [Option.bind_some, Option.bind_some]
      exact ih

theorem exec_eip (alu : BitVec 32 → BitVec 32 → BitVec 32) (s : Machine) (h : i.straight) :
    (exec alu i s).eip = s.eip + 1 := by
  cases i <;> first | rfl | cases h

theorem Loaded.head (h : Loaded code a (i :: is)) : code a = some i := by
  simpa using h 0 (by simp)

theorem Loaded.tail (h : Loaded code a (i :: is)) : Loaded code (a + 1) is := by
  intro n hn
  have hnext := h (n + 1) (by simpa using hn)
  rw [List.getElem?_cons_succ] at hnext
  rw [← hnext, BitVec.ofNat_add, BitVec.add_comm (BitVec.ofNat 32 n), ← BitVec.add_assoc]
  rfl

theorem Loaded.append {js : List Instr} (h : Loaded code a (is ++ js)) :
    Loaded code a is ∧ Loaded code (a + BitVec.ofNat 32 is.length) js := by
  induction is generalizing a with
  | nil => exact ⟨fun n hn => absurd hn (Nat.not_lt_zero n), by simpa using h⟩
  | cons i is ih =>
    obtain ⟨h1, h2⟩ := ih h.tail
    constructor
    · intro n hn
      have := h n (by simp at hn ⊢; omega)
      rwa [List.getElem?_append_left hn] at this
    · rw [List.length_cons, BitVec.ofNat_add, BitVec.add_comm (BitVec.ofNat 32 is.length), ← BitVec.add_assoc]
      exact h2

theorem run_straight (alu : BitVec 32 → BitVec 32 → BitVec 32) (h : Loaded code s.eip is) (hs : is.all Instr.straight) :
    run alu code is.length s = some (execAll alu is s) ∧
      (execAll alu is s).eip = s.eip + BitVec.ofNat 32 is.length := by
  induction is generalizing s with
  | nil => exact ⟨rfl, by simp [execAll]⟩
  | cons i is ih =>
    rw [List.all_cons, Bool.and_eq_true] at hs
    have heip := exec_eip alu s hs.1
    obtain ⟨hrun, hend⟩ := ih (s := exec alu i s) (heip ▸ h.tail) hs.2
    rw [List.length_cons, run, h.head, Option.bind_some]
    refine ⟨hrun, hend.trans ?_⟩
    rw [heip, BitVec.ofNat_add, BitVec.add_comm (BitVec.ofNat 32 is.length), ← BitVec.add_assoc]
    rfl

theorem run_one (alu : BitVec 32 → BitVec 32 → BitVec 32) (h : code s.eip = some i) :
    run alu code 1 s = some (exec alu i s) := by
  rw [run, h]
  rfl

/-! ## Words on the stack -/

variable {m : Mem} {e : Addr} {v c d : BitVec 32}

theorem load32_store32_offset (h : 4 ≤ (d - c).toNat ∧ 4 ≤ (c - d).toNat) :
    load32 (store32 m (e + c) v) (e + d) = load32 m (e + d) := by
  apply load32_store32_apart
  unfold Apart
  have h1 : e + d - (e + c) = d - c := by bv_omega
  have h2 : e + c - (e + d) = c - d := by bv_omega
  rw [h1, h2]
  exact h

/-! ## Segment descriptors -/

/-- The base, as the processor puts it together from the bytes of a descriptor. -/
def descriptorBase (d : Nat → Byte) : BitVec 32 := d 7 ++ d 4 ++ d 3 ++ d 2

/-- The limit field: the low half of byte 6 on top. -/
def descriptorLimitField (d : Nat → Byte) : BitVec 20 := (d 6).extractLsb' 0 4 ++ d 1 ++ d 0

def descriptorGranular (d : Nat → Byte) : Bool := (d 6).getLsbD 7

/-- The last offset of the segment: the field counts bytes, or pages of 4096. -/
def descriptorLimit (d : Nat → Byte) : Nat :=
  if descriptorGranular d then (descriptorLimitField d).toNat * 4096 + 4095 else (descriptorLimitField d).toNat

def descriptorAccess (d : Nat → Byte) : Byte := d 5

end Lib.X86
