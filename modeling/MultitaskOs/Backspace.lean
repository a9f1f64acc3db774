import MultitaskOs.Keyboard

/-!
# Taking a key back

A backspace moves the writer's end of the ring, without a look at whether there
is anything to take back.
-/

open Lib Lib.Memory Lib.Run Lib.Ring MultitaskOs.Keyboard

namespace MultitaskOs.Backspace

/-! ## One ring -/

def backspaced (kb : KeyboardBuffer) : KeyboardBuffer :=
  { kb with
    tail := kb.tail - 1
    buffer := Function.update kb.buffer ((kb.tail - 1).toNat % keyboardBufferSize) 0 }

theorem reads_backspaced {kb : KeyboardBuffer} {q : List Byte} {c : Byte} (h : Reads kb (q ++ [c])) :
    Reads (backspaced kb) q := by
  have htail : kb.tail - 1 = kb.head + BitVec.ofNat 32 q.length := by
    rw [h.tail, List.length_append, List.length_singleton, BitVec.ofNat_add, ← BitVec.add_assoc]
    exact BitVec.add_sub_cancel _ _
  have hcell : (kb.tail - 1).toNat % keyboardBufferSize = cell keyboardBufferSize kb.head.toNat q.length := by
    rw [htail, BitVec.toNat_add, BitVec.toNat_ofNat, cell, keyboardBufferSize]
    omega
  refine ⟨?_, htail⟩
  have hring := h.ring.unpush
  rwa [← hcell] at hring

/-! ## Every process -/

inductive Act where
  | push (c : Byte)
  | pop
  | backspace (process : Addr)
  | processSwitch (process : Addr)
  | taskSwitch (task : Addr)

/-- The kernel, with the unread keys of each process as they should be, the oldest first. -/
structure State where
  kernel : Kernel
  unread : Addr → List Byte

def step (s : State) : Act → State
  | .push c =>
    ⟨keyboardPush s.kernel c,
      if s.kernel.current_process = 0 ∨ c = 0 then s.unread
      else Function.update s.unread s.kernel.current_process (s.unread s.kernel.current_process ++ [c])⟩
  | .pop =>
    ⟨(keyboardPop s.kernel).1,
      if s.kernel.current_task = 0 then s.unread
      else Function.update s.unread (reader s.kernel) (s.unread (reader s.kernel)).tail⟩
  | .backspace process =>
    ⟨keyboardBackspace s.kernel process, Function.update s.unread process (s.unread process).dropLast⟩
  | .processSwitch process => { s with kernel := processSwitch s.kernel process }
  | .taskSwitch task => { s with kernel := taskSwitch s.kernel task }

/-- No process has more unread keys than its ring has cells. -/
def Fits (s : State) : Prop := ∀ p, (s.unread p).length ≤ keyboardBufferSize

/-- The ring of each process holds its unread keys in order, and nothing else. -/
def Queued (s : State) : Prop :=
  ∀ p, Ring.Holds keyboardBufferSize 0 (s.kernel.procs p).keyboard.buffer (s.kernel.procs p).keyboard.head.toNat
    (s.unread p)

/-- A `keyboard_pop` delivers the oldest unread key of the reader, or 0, and a `keyboard_backspace`
that has nothing to take back does nothing. -/
def Delivers (s : State) : Act → Prop
  | .pop => s.kernel.current_task ≠ 0 → (keyboardPop s.kernel).2 = (s.unread (reader s.kernel)).head?.getD 0
  | .backspace process => s.unread process = [] → keyboardBackspace s.kernel process = s.kernel
  | _ => True

/-- A backspace has an unread key to take back. -/
def HasUnread (s : State) : Act → Prop
  | .backspace process => s.unread process ≠ []
  | _ => True

def Inv (s : State) : Prop := ∀ p, Reads (s.kernel.procs p).keyboard (s.unread p)

variable {s : State}

theorem keyboardBackspace_procs (k : Kernel) (process a : Addr) :
    ((keyboardBackspace k process).procs a).keyboard =
      if a = process then backspaced (k.procs a).keyboard else (k.procs a).keyboard := by
  unfold keyboardBackspace
  rw [setProc_procs]
  split
  · rename_i h
    rw [h]
    rfl
  · rfl

theorem Inv.push (h : Inv s) (c : Byte) (hfit : Fits (step s (.push c))) : Inv (step s (.push c)) := by
  intro p
  have hp := hfit p
  simp only [step, keyboardPush_procs] at hp ⊢
  by_cases h0 : s.kernel.current_process = 0 ∨ c = 0
  · rw [if_pos h0, if_neg (by tauto)]
    exact h p
  · rw [if_neg h0] at hp ⊢
    rw [not_or] at h0
    by_cases hpc : p = s.kernel.current_process
    · subst hpc
      rw [Function.update_self] at hp ⊢
      rw [List.length_append, List.length_singleton] at hp
      rw [if_pos ⟨rfl, h0⟩]
      exact (h _).push (by omega) h0.2
    · rw [Function.update_of_ne hpc, if_neg fun hc => hpc hc.1]
      exact h p

theorem Inv.pop (h : Inv s) : Inv (step s .pop) := by
  intro p
  simp only [step, keyboardPop_procs]
  by_cases ht : s.kernel.current_task = 0
  · rw [if_pos ht, keyboardPop_value, if_pos ht, if_neg fun hc => hc.2 rfl]
    exact h p
  · rw [if_neg ht]
    by_cases hpr : p = reader s.kernel
    · subst hpr
      have hr := h (reader s.kernel)
      rw [Function.update_self, keyboardPop_value, if_neg ht, hr.front]
      cases hq : s.unread (reader s.kernel) with
      | nil =>
        rw [if_neg fun hc => hc.2 rfl]
        rw [hq] at hr
        exact hr
      | cons c q =>
        rw [hq] at hr
        rw [if_pos ⟨rfl, fun hc => hr.ring.marked (hc ▸ List.mem_cons_self)⟩]
        exact hr.pop
    · rw [Function.update_of_ne hpr, if_neg fun hc => hpr hc.1]
      exact h p

theorem Inv.backspace (h : Inv s) {process : Addr} (hq : s.unread process ≠ []) :
    Inv (step s (.backspace process)) := by
  intro p
  simp only [step, keyboardBackspace_procs]
  by_cases hp : p = process
  · subst hp
    rw [if_pos rfl, Function.update_self]
    have hr := h p
    rw [← List.dropLast_append_getLast hq] at hr
    exact reads_backspaced hr
  · rw [if_neg hp, Function.update_of_ne hp]
    exact h p

theorem Inv.step (h : Inv s) (a : Act) (hfit : Fits (step s a)) (ha : HasUnread s a) : Inv (step s a) := by
  cases a with
  | push c => exact h.push c hfit
  | pop => exact h.pop
  | backspace process => exact h.backspace ha
  | processSwitch process => exact h
  | taskSwitch task => exact h

theorem Inv.delivers (h : Inv s) (a : Act) (ha : HasUnread s a) : Delivers s a := by
  cases a with
  | pop =>
    intro ht
    rw [keyboardPop_value, if_neg ht]
    exact (h (reader s.kernel)).front
  | backspace process => exact fun hq => absurd hq ha
  | push c => trivial
  | processSwitch process => trivial
  | taskSwitch task => trivial

theorem keyboardBackspace_ne (k : Kernel) (process : Addr) : keyboardBackspace k process ≠ k := by
  intro he
  have htail := congrArg (fun k : Kernel => (k.procs process).keyboard.tail) he
  rw [keyboardBackspace_procs, if_pos rfl] at htail
  have : (k.procs process).keyboard.tail - 1 = (k.procs process).keyboard.tail := htail
  bv_omega

theorem Delivers.hasUnread {a : Act} (h : Delivers s a) : HasUnread s a := by
  cases a with
  | backspace process => exact fun hq => keyboardBackspace_ne _ _ (h hq)
  | push c => trivial
  | pop => trivial
  | processSwitch process => trivial
  | taskSwitch task => trivial

def start (k : Kernel) : State := ⟨k, fun _ => []⟩

/-- For every run: the rings hold and deliver what they should exactly when every backspace has a
key to take back. -/
theorem backspace_exact_iff {k : Kernel} (hk : ∀ p, Idle (k.procs p).keyboard) (as : List Act)
    (hfit : Along step Fits (start k) as) :
    (Along step Queued (start k) as ∧ Each step Delivers (start k) as) ↔ Each step HasUnread (start k) as := by
  refine ⟨fun h => h.2.imp fun s a ha => ha.hasUnread, fun h => ?_⟩
  have hok : Each step (fun s a => Fits (step s a) ∧ HasUnread s a) (start k) as :=
    each_and.mpr ⟨hfit.each_next, h⟩
  have hstep : ∀ s a, Inv s → Fits (Backspace.step s a) ∧ HasUnread s a → Inv (Backspace.step s a) :=
    fun s a hs ha => hs.step a ha.1 ha.2
  have hstart : Inv (start k) := fun p => (hk p).reads
  refine ⟨(along_of_inv hstep hstart hok).mono fun s hs p => (hs p).ring, ?_⟩
  exact each_of_inv hstep (fun s a hs ha => hs.delivers a ha.2) hstart hok

theorem length_step (s : State) (a : Act) (p : Addr) :
    ((step s a).unread p).length ≤ (s.unread p).length + 1 := by
  have hupdate : ∀ (process : Addr) (q : List Byte), q.length ≤ (s.unread process).length + 1 →
      (Function.update s.unread process q p).length ≤ (s.unread p).length + 1 := by
    intro process q hq
    rw [Function.update_apply]
    split
    · rename_i he
      rwa [he]
    · omega
  cases a with
  | push c =>
    rw [step]
    split
    · exact Nat.le_succ _
    · exact hupdate _ _ (by simp)
  | pop =>
    rw [step]
    split
    · exact Nat.le_succ _
    · exact hupdate _ _ (by simp; omega)
  | backspace process => exact hupdate _ _ (by simp; omega)
  | processSwitch process => exact Nat.le_succ _
  | taskSwitch task => exact Nat.le_succ _

theorem fits_of_short (as : List Act) (h : ∀ p, (s.unread p).length + as.length ≤ keyboardBufferSize) :
    Along step Fits s as :=
  along_of_growth (fun (s : State) p => (s.unread p).length) length_step h

/-- A key of process 1 is taken back, and the others are read. -/
def takenBack : List Act :=
  [.processSwitch 1, .taskSwitch 1, .push 97, .push 98, .backspace 1, .push 99, .pop, .pop, .pop]

theorem backspace_exact_takenBack :
    (Along step Queued (start typingKernel) takenBack ∧ Each step Delivers (start typingKernel) takenBack) ↔
      Each step HasUnread (start typingKernel) takenBack :=
  backspace_exact_iff typingKernel_idle takenBack
    (fits_of_short _ fun _ => by simp [start, takenBack, keyboardBufferSize])

/-- On an empty ring a backspace puts the writer behind the reader, who then misses the next key. -/
theorem backspace_empty_loses :
    Along step Fits (start oneTypist) [.backspace 1, .push 97, .pop] ∧
      (run step (start oneTypist) [.backspace 1, .push 97]).unread 1 = [97] ∧
      (keyboardPop (run step (start oneTypist) [.backspace 1, .push 97]).kernel).2 = 0 ∧
      ¬ Each step Delivers (start oneTypist) [.backspace 1, .push 97, .pop] := by
  refine ⟨fits_of_short _ fun _ => by simp [start, keyboardBufferSize], by decide, by decide, ?_⟩
  exact fun h => keyboardBackspace_ne _ _ (h.1 rfl)

end MultitaskOs.Backspace
