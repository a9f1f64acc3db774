import MultitaskOs.Code.Keyboard
import MultitaskOs.Lib.Ring
import MultitaskOs.Lib.Run
import MultitaskOs.Task

/-!
# The keyboard

Each process has a ring of keys. A key goes to the current process and is read
by the process of the current task, which need not be the same one.
-/

open Lib Lib.Memory Lib.Run Lib.Ring MultitaskOs.Tasks

namespace MultitaskOs.Keyboard

/-! ## One ring -/

/-- The ring holds the keys `q`, and the counters agree with it. -/
structure Reads (kb : KeyboardBuffer) (q : List Byte) : Prop where
  ring : Ring.Holds keyboardBufferSize 0 kb.buffer kb.head.toNat q
  tail : kb.tail = kb.head + BitVec.ofNat 32 q.length

/-- A cleared ring, with both counters at the same place. -/
structure Idle (kb : KeyboardBuffer) : Prop where
  clear : ∀ i < keyboardBufferSize, kb.buffer i = 0
  tail : kb.tail = kb.head

theorem Idle.reads {kb : KeyboardBuffer} (h : Idle kb) : Reads kb [] :=
  ⟨holds_nil h.clear _, by simp [h.tail]⟩

def pushed (kb : KeyboardBuffer) (c : Byte) : KeyboardBuffer :=
  { kb with
    buffer := Function.update kb.buffer (kb.tail.toNat % keyboardBufferSize) c
    tail := kb.tail + 1 }

def popped (kb : KeyboardBuffer) : KeyboardBuffer :=
  { kb with
    buffer := Function.update kb.buffer (kb.head.toNat % keyboardBufferSize) 0
    head := kb.head + 1 }

theorem Reads.tail_cell {kb : KeyboardBuffer} {q : List Byte} (h : Reads kb q) :
    kb.tail.toNat % keyboardBufferSize = cell keyboardBufferSize kb.head.toNat q.length := by
  rw [h.tail, BitVec.toNat_add, BitVec.toNat_ofNat, cell, keyboardBufferSize]
  omega

theorem Reads.push {kb : KeyboardBuffer} {q : List Byte} {c : Byte} (h : Reads kb q)
    (hroom : q.length < keyboardBufferSize) (hc : c ≠ 0) : Reads (pushed kb c) (q ++ [c]) := by
  refine ⟨?_, ?_⟩
  · have := h.ring.push hroom hc
    rwa [← h.tail_cell] at this
  · rw [List.length_append, List.length_singleton, BitVec.ofNat_add, ← BitVec.add_assoc]
    exact congrArg (· + 1) h.tail

theorem succ_head (a : BitVec 32) : (a.toNat + 1) % keyboardBufferSize = (a + 1).toNat % keyboardBufferSize := by
  rw [BitVec.toNat_add, keyboardBufferSize]
  have : (1 : BitVec 32).toNat = 1 := rfl
  omega

theorem Reads.pop {kb : KeyboardBuffer} {c : Byte} {q : List Byte} (h : Reads kb (c :: q)) :
    Reads (popped kb) q := by
  refine ⟨h.ring.pop.congr (succ_head _).symm, ?_⟩
  have ht := h.tail
  rw [List.length_cons, Nat.add_comm, BitVec.ofNat_add, ← BitVec.add_assoc] at ht
  exact ht

theorem Reads.front {kb : KeyboardBuffer} {q : List Byte} (h : Reads kb q) :
    kb.buffer (kb.head.toNat % keyboardBufferSize) = q.head?.getD 0 :=
  h.ring.front (by decide)

/-! ## Every process -/

inductive Act where
  | push (c : Byte)
  | processSwitch (process : Addr)
  | taskSwitch (task : Addr)
  | pop

/-- The kernel, with the keys each process was sent and those it has read. -/
structure State where
  kernel : Kernel
  sent : Addr → List Byte
  read : Addr → List Byte

def reader (k : Kernel) : Addr := (k.tasks k.current_task).process

def step (s : State) : Act → State
  | .push c =>
    let process := s.kernel.current_process
    { s with
      kernel := keyboardPush s.kernel c
      sent :=
        if process = 0 ∨ c = 0 then s.sent
        else Function.update s.sent process (s.sent process ++ [c]) }
  | .processSwitch process => { s with kernel := processSwitch s.kernel process }
  | .taskSwitch task => { s with kernel := taskSwitch s.kernel task }
  | .pop =>
    let c := (keyboardPop s.kernel).2
    { s with
      kernel := (keyboardPop s.kernel).1
      read :=
        if s.kernel.current_task = 0 ∨ c = 0 then s.read
        else Function.update s.read (reader s.kernel) (s.read (reader s.kernel) ++ [c]) }

/-- No process has more unread keys than its ring has cells. -/
def Fits (s : State) : Prop :=
  ∀ p, (s.sent p).length ≤ (s.read p).length + keyboardBufferSize

/-- Each process has read the first keys it was sent, in order. -/
def InOrder (s : State) : Prop := ∀ p, s.read p <+: s.sent p

/-- `keyboard_pop` returns 0 exactly when nobody reads or the reader has read everything. -/
def PopExact (s : State) : Act → Prop
  | .pop => (keyboardPop s.kernel).2 = 0 ↔
      s.kernel.current_task = 0 ∨ s.read (reader s.kernel) = s.sent (reader s.kernel)
  | _ => True

/-- The ring of each process holds its unread keys. -/
def Inv (s : State) : Prop :=
  ∀ p, ∃ q, s.sent p = s.read p ++ q ∧ Reads (s.kernel.procs p).keyboard q

theorem setProc_procs (k : Kernel) (p a : Addr) (f : Process → Process) :
    (k.setProc p f).procs a = if a = p then f (k.procs p) else k.procs a :=
  Function.update_apply _ _ _ _

theorem keyboardPush_procs (k : Kernel) (c : Byte) (a : Addr) :
    ((keyboardPush k c).procs a).keyboard =
      if a = k.current_process ∧ k.current_process ≠ 0 ∧ c ≠ 0 then pushed (k.procs a).keyboard c
      else (k.procs a).keyboard := by
  unfold keyboardPush
  by_cases hp : k.current_process = 0
  · simp [hp]
  · by_cases hc : c = 0
    · simp [hc]
    · simp only [hp, hc, if_false, setProc_procs, ne_eq, not_false_eq_true, and_true]
      split
      · rename_i h
        rw [h]
        rfl
      · rfl

theorem keyboardPop_value (k : Kernel) :
    (keyboardPop k).2 = if k.current_task = 0 then 0
      else (k.procs (reader k)).keyboard.buffer
        ((k.procs (reader k)).keyboard.head.toNat % keyboardBufferSize) := by
  unfold keyboardPop reader
  split
  · rfl
  · dsimp only
    split
    · rename_i h
      exact h.symm
    · rfl

theorem keyboardPop_procs (k : Kernel) (a : Addr) :
    ((keyboardPop k).1.procs a).keyboard =
      if a = reader k ∧ (keyboardPop k).2 ≠ 0 then popped (k.procs a).keyboard
      else (k.procs a).keyboard := by
  unfold keyboardPop reader
  by_cases ht : k.current_task = 0
  · simp [ht]
  · rw [if_neg ht]
    dsimp only
    split
    · simp
    · rename_i h
      simp only [setProc_procs, ne_eq, h, not_false_eq_true, and_true]
      split
      · rename_i he
        rw [he]
        rfl
      · rfl

theorem Inv.push {s : State} (h : Inv s) (c : Byte) (hfit : Fits (step s (.push c))) :
    Inv (step s (.push c)) := by
  intro p
  obtain ⟨q, hq, hr⟩ := h p
  have hp := hfit p
  simp only [step, keyboardPush_procs] at hp ⊢
  by_cases h0 : s.kernel.current_process = 0 ∨ c = 0
  · rw [if_pos h0, if_neg (by tauto)]
    exact ⟨q, hq, hr⟩
  · rw [if_neg h0] at hp ⊢
    rw [not_or] at h0
    by_cases hpc : p = s.kernel.current_process
    · subst hpc
      rw [Function.update_self, hq, List.length_append, List.length_append, List.length_singleton] at hp
      refine ⟨q ++ [c], ?_, ?_⟩
      · rw [Function.update_self, hq, List.append_assoc]
      · rw [if_pos ⟨rfl, h0⟩]
        exact hr.push (by omega) h0.2
    · refine ⟨q, ?_, ?_⟩
      · rw [Function.update_of_ne hpc, hq]
      · rw [if_neg fun hc => hpc hc.1]
        exact hr

theorem Inv.pop {s : State} (h : Inv s) : Inv (step s .pop) := by
  intro p
  obtain ⟨q, hq, hr⟩ := h p
  simp only [step, keyboardPop_procs]
  by_cases h0 : s.kernel.current_task = 0 ∨ (keyboardPop s.kernel).2 = 0
  · have hv : (keyboardPop s.kernel).2 = 0 := by
      rcases h0 with ht | hv
      · rw [keyboardPop_value, if_pos ht]
      · exact hv
    rw [if_pos h0, if_neg fun hc => hc.2 hv]
    exact ⟨q, hq, hr⟩
  · rw [if_neg h0]
    rw [not_or] at h0
    by_cases hpr : p = reader s.kernel
    · subst hpr
      have hv := keyboardPop_value s.kernel
      rw [if_neg h0.1, hr.front] at hv
      cases q with
      | nil => exact absurd hv h0.2
      | cons c q =>
        have hc : (keyboardPop s.kernel).2 = c := hv
        rw [Function.update_self, if_pos ⟨rfl, h0.2⟩, hc]
        exact ⟨q, by rw [hq, List.append_assoc, List.singleton_append], hr.pop⟩
    · rw [Function.update_of_ne hpr, if_neg fun hc => hpr hc.1]
      exact ⟨q, hq, hr⟩

theorem Inv.step {s : State} (h : Inv s) (a : Act) (hfit : Fits (step s a)) : Inv (step s a) := by
  cases a with
  | push c => exact h.push c hfit
  | pop => exact h.pop
  | processSwitch process => exact h
  | taskSwitch task => exact h

theorem Inv.inOrder {s : State} (h : Inv s) : InOrder s := by
  intro p
  obtain ⟨q, hq, -⟩ := h p
  exact ⟨q, hq.symm⟩

theorem Inv.popExact {s : State} (h : Inv s) (a : Act) : PopExact s a := by
  cases a with
  | pop =>
    obtain ⟨q, hq, hr⟩ := h (reader s.kernel)
    rw [PopExact, keyboardPop_value, hq]
    by_cases ht : s.kernel.current_task = 0
    · simp [ht]
    · rw [if_neg ht, hr.ring.front_eq_null (by decide), or_iff_right ht]
      simp
  | push c => trivial
  | processSwitch process => trivial
  | taskSwitch task => trivial

def start (k : Kernel) : State := ⟨k, fun _ => [], fun _ => []⟩

theorem inv_start {k : Kernel} (hk : ∀ p, Idle (k.procs p).keyboard) : Inv (start k) :=
  fun p => ⟨[], rfl, (hk p).reads⟩

theorem keyboard_fifo {k : Kernel} (hk : ∀ p, Idle (k.procs p).keyboard) (as : List Act)
    (hfit : Along step Fits (start k) as) :
    Along step InOrder (start k) as ∧ Each step PopExact (start k) as := by
  have hstep : ∀ s a, Inv s → Fits (step s a) → Inv (step s a) := fun s a hs hf => hs.step a hf
  refine ⟨(along_of_inv hstep (inv_start hk) hfit.each_next).mono fun s hs => hs.inOrder, ?_⟩
  exact each_of_inv hstep (fun s a hs _ => hs.popExact a) (inv_start hk) hfit.each_next

theorem length_sent_step (s : State) (a : Act) (p : Addr) :
    ((step s a).sent p).length ≤ (s.sent p).length + 1 := by
  cases a with
  | push c =>
    rw [step]
    split
    · exact Nat.le_succ _
    · dsimp only
      rw [Function.update_apply]
      split
      · rename_i he
        simp [he]
      · exact Nat.le_succ _
  | pop =>
    rw [step]
    split <;> exact Nat.le_succ _
  | processSwitch process => exact Nat.le_succ _
  | taskSwitch task => exact Nat.le_succ _

theorem fits_of_short {s : State} (as : List Act)
    (h : ∀ p, (s.sent p).length + as.length ≤ keyboardBufferSize) : Along step Fits s as := by
  refine (along_of_growth (fun s p => (s.sent p).length) length_sent_step h).mono fun s hs p => ?_
  exact (hs p).trans (Nat.le_add_left _ _)

def typingKernel : Kernel := { emptyKernel with tasks := fun t => { zeroTask with process := t } }

theorem typingKernel_idle (p : Addr) : Idle (typingKernel.procs p).keyboard := ⟨fun _ _ => rfl, rfl⟩

/-- Two processes are typed to in turn, and read in the other order. -/
def twoReaders : List Act :=
  [.processSwitch 1, .push 97, .processSwitch 2, .push 98, .push 99, .taskSwitch 2, .pop,
    .taskSwitch 1, .pop, .pop]

theorem keyboard_fifo_twoReaders :
    Along step InOrder (start typingKernel) twoReaders ∧
      Each step PopExact (start typingKernel) twoReaders :=
  keyboard_fifo typingKernel_idle twoReaders (fits_of_short _ fun _ => by simp [start, twoReaders, keyboardBufferSize])

example : (run step (start typingKernel) twoReaders).read 2 = [98] := by decide

/-! ## A ring that was full -/

inductive Key where
  | push (c : Byte)
  | pop

/-- What the next `keyboard_pop` owes: a key that came after an empty read. -/
inductive Expect where
  | nothing
  | drained
  | due (c : Byte)
deriving DecidableEq

/-- The kernel, with the number of unread keys and what is owed. -/
structure Watch where
  kernel : Kernel
  unread : Nat
  expect : Expect

def Expect.push (c : Byte) : Expect → Expect
  | .drained => if c = 0 then .drained else .due c
  | e => e

def press (w : Watch) : Key → Watch
  | .push c =>
    ⟨keyboardPush w.kernel c, if c = 0 then w.unread else w.unread + 1, w.expect.push c⟩
  | .pop =>
    if (keyboardPop w.kernel).2 = 0 then ⟨(keyboardPop w.kernel).1, w.unread, .drained⟩
    else ⟨(keyboardPop w.kernel).1, w.unread - 1, .nothing⟩

/-- A key that came after an empty read is what the next `keyboard_pop` returns. -/
def Recovers (w : Watch) : Key → Prop
  | .pop => ∀ c, w.expect = .due c → (keyboardPop w.kernel).2 = c
  | .push _ => True

/-- No non-zero key is pushed on a full ring. -/
def HasRoom (w : Watch) : Key → Prop
  | .push c => c = 0 ∨ w.unread < keyboardBufferSize
  | .pop => True

/-- The process `p` is typed to and reads, and its ring is `kb`. -/
structure Typing (p : Addr) (k : Kernel) (kb : KeyboardBuffer) : Prop where
  ne_zero : p ≠ 0
  process : k.current_process = p
  task : k.current_task ≠ 0
  reader : reader k = p
  keyboard : (k.procs p).keyboard = kb

def front (kb : KeyboardBuffer) : Byte := kb.buffer (kb.head.toNat % keyboardBufferSize)

variable {p : Addr} {k : Kernel} {kb : KeyboardBuffer}

theorem Typing.push (h : Typing p k kb) (c : Byte) :
    Typing p (keyboardPush k c) (if c = 0 then kb else pushed kb c) := by
  have hk : (keyboardPush k c).current_process = k.current_process ∧
      (keyboardPush k c).current_task = k.current_task ∧ (keyboardPush k c).tasks = k.tasks := by
    unfold keyboardPush
    dsimp only
    split_ifs <;> exact ⟨rfl, rfl, rfl⟩
  refine ⟨h.ne_zero, hk.1.trans h.process, hk.2.1 ▸ h.task, ?_, ?_⟩
  · rw [← h.reader, Keyboard.reader, Keyboard.reader, hk.2.1, hk.2.2]
  · rw [keyboardPush_procs, h.process, h.keyboard]
    by_cases hc : c = 0
    · rw [if_pos hc, if_neg fun h => h.2.2 hc]
    · rw [if_neg hc, if_pos ⟨rfl, h.ne_zero, hc⟩]

theorem Typing.pop_value (h : Typing p k kb) : (keyboardPop k).2 = front kb := by
  rw [keyboardPop_value, if_neg h.task, h.reader, h.keyboard]
  rfl

theorem Typing.pop (h : Typing p k kb) :
    Typing p (keyboardPop k).1 (if front kb = 0 then kb else popped kb) := by
  have hk : (keyboardPop k).1.current_process = k.current_process ∧
      (keyboardPop k).1.current_task = k.current_task ∧ (keyboardPop k).1.tasks = k.tasks := by
    unfold keyboardPop
    dsimp only
    split_ifs <;> exact ⟨rfl, rfl, rfl⟩
  refine ⟨h.ne_zero, hk.1.trans h.process, hk.2.1 ▸ h.task, ?_, ?_⟩
  · rw [← h.reader, Keyboard.reader, Keyboard.reader, hk.2.1, hk.2.2]
  · rw [keyboardPop_procs, h.reader, h.pop_value, h.keyboard]
    by_cases hc : front kb = 0
    · rw [if_pos hc, if_neg fun h => h.2 hc]
    · rw [if_neg hc, if_pos ⟨rfl, hc⟩]

/-- What is owed is next in the queue. -/
def Expect.Fits : Expect → List Byte → Prop
  | .nothing, _ => True
  | .drained, q => q = []
  | .due c, q => q.head? = some c

/-- The ring holds the unread keys, with the owed one in front. -/
def Tracks (p : Addr) (w : Watch) : Prop :=
  ∃ kb q, Typing p w.kernel kb ∧ Reads kb q ∧ w.unread = q.length ∧ w.expect.Fits q

theorem Expect.Fits.push {e : Expect} {q : List Byte} (h : e.Fits q) {c : Byte} (hc : c ≠ 0) :
    (e.push c).Fits (q ++ [c]) := by
  cases e with
  | nothing => trivial
  | drained =>
    have hq : q = [] := h
    rw [Expect.push, if_neg hc, hq]
    rfl
  | due d =>
    have hq : q.head? = some d := h
    cases q with
    | nil => cases hq
    | cons x q => exact hq

theorem Tracks.press {w : Watch} (h : Tracks p w) (key : Key) (hroom : HasRoom w key) :
    Tracks p (press w key) := by
  obtain ⟨kb, q, ht, hr, hu, he⟩ := h
  cases key with
  | push c =>
    by_cases hc : c = 0
    · refine ⟨kb, q, ?_, hr, ?_, ?_⟩
      · simpa only [Keyboard.press, hc, if_true] using ht.push c
      · simpa only [Keyboard.press, hc, if_true] using hu
      · rw [Keyboard.press, hc]
        cases hw : w.expect <;> simpa [Expect.push, hw] using he
    · refine ⟨pushed kb c, q ++ [c], ?_, hr.push (hu ▸ hroom.resolve_left hc) hc, ?_, he.push hc⟩
      · simpa only [Keyboard.press, hc, if_false] using ht.push c
      · simp only [Keyboard.press, hc, if_false, hu, List.length_append, List.length_singleton]
  | pop =>
    have hpop := ht.pop
    have hfront : front kb = q.head?.getD 0 := hr.front
    rw [Keyboard.press, ht.pop_value]
    cases q with
    | nil =>
      have h0 : front kb = 0 := hfront
      rw [if_pos h0]
      rw [if_pos h0] at hpop
      exact ⟨kb, [], hpop, hr, hu, rfl⟩
    | cons c q =>
      have hc : front kb ≠ 0 := by
        rw [hfront]
        exact fun h => hr.ring.marked (h ▸ List.mem_cons_self)
      rw [if_neg hc]
      rw [if_neg hc] at hpop
      exact ⟨popped kb, q, hpop, hr.pop, by rw [hu, List.length_cons, Nat.add_sub_cancel], trivial⟩

theorem Tracks.recovers {w : Watch} (h : Tracks p w) (key : Key) : Recovers w key := by
  obtain ⟨kb, q, ht, hr, -, he⟩ := h
  cases key with
  | push c => trivial
  | pop =>
    intro c hc
    rw [hc] at he
    have hq : q.head? = some c := he
    rw [ht.pop_value, front, hr.front, hq]
    rfl

def watch (k : Kernel) : Watch := ⟨k, 0, .nothing⟩

theorem tracks_watch (ht : Typing p k kb) (hidle : Idle kb) : Tracks p (watch k) :=
  ⟨kb, [], ht, hidle.reads, rfl, trivial⟩

theorem keyboard_recovers (ht : Typing p k kb) (hidle : Idle kb) (keys : List Key)
    (hroom : Each press HasRoom (watch k) keys) : Each press Recovers (watch k) keys :=
  each_of_inv (fun _ key hw hr => hw.press key hr) (fun _ key hw _ => hw.recovers key)
    (tracks_watch ht hidle) hroom

/-- The writer went once round the ring: it is one cell further than the queue says. -/
structure Skewed (kb : KeyboardBuffer) (q : List Byte) : Prop where
  ring : Ring.Holds keyboardBufferSize 0 kb.buffer kb.head.toNat q
  tail : kb.tail = kb.head + BitVec.ofNat 32 (q.length + 1)

theorem Reads.push_full {c d : Byte} {q : List Byte} (h : Reads kb (c :: q))
    (hfull : (c :: q).length = keyboardBufferSize) (hd : d ≠ 0) : Skewed (pushed kb d) (d :: q) := by
  have hcell : kb.tail.toNat % keyboardBufferSize = kb.head.toNat % keyboardBufferSize := by
    rw [h.tail_cell, hfull, cell_full]
    rfl
  refine ⟨?_, ?_⟩
  · have := h.ring.overwrite hd
    rwa [← hcell] at this
  · rw [BitVec.ofNat_add, ← BitVec.add_assoc]
    exact congrArg (· + 1) h.tail

theorem Skewed.pop {c : Byte} {q : List Byte} (h : Skewed kb (c :: q)) : Skewed (popped kb) q := by
  refine ⟨h.ring.pop.congr (succ_head _).symm, ?_⟩
  have ht := h.tail
  rw [List.length_cons, Nat.add_comm, BitVec.ofNat_add, ← BitVec.add_assoc] at ht
  exact ht

/-- Drained, the ring takes the next key where the reader does not look. -/
theorem Skewed.lost (h : Skewed kb []) (c : Byte) : front (pushed kb c) = 0 := by
  have hne : kb.head.toNat % keyboardBufferSize ≠ kb.tail.toNat % keyboardBufferSize := by
    rw [h.tail, BitVec.toNat_add, BitVec.toNat_ofNat, keyboardBufferSize, List.length_nil]
    omega
  rw [front, pushed]
  dsimp only
  rw [Function.update_of_ne hne, h.ring.front (by decide)]
  rfl

theorem press_fill {w : Watch} (n : Nat) {q : List Byte} (ht : Typing p w.kernel kb) (hr : Reads kb q)
    (hroom : q.length + n ≤ keyboardBufferSize) :
    ∃ kb', Typing p (run press w (List.replicate n (.push 1))).kernel kb' ∧
      Reads kb' (q ++ List.replicate n 1) := by
  induction n generalizing w kb q with
  | zero => exact ⟨kb, ht, by simpa using hr⟩
  | succ n ih =>
    have h1 : Typing p (press w (.push 1)).kernel (pushed kb 1) := ht.push 1
    obtain ⟨kb', ht', hr'⟩ := ih h1 (hr.push (by omega) (by decide)) (by simp; omega)
    refine ⟨kb', ht', ?_⟩
    rwa [List.append_assoc, List.singleton_append] at hr'

theorem press_drain {w : Watch} {q : List Byte} (ht : Typing p w.kernel kb) (hs : Skewed kb q) :
    ∃ kb', Typing p (run press w (List.replicate q.length .pop)).kernel kb' ∧ Skewed kb' [] := by
  induction q generalizing w kb with
  | nil => exact ⟨kb, ht, hs⟩
  | cons c q ih =>
    have hc : front kb ≠ 0 := by
      rw [front, hs.ring.front (by decide)]
      exact fun h => hs.ring.marked (h ▸ List.mem_cons_self)
    have hpop := ht.pop
    rw [if_neg hc] at hpop
    have hw : (press w .pop).kernel = (keyboardPop w.kernel).1 := by
      rw [press]
      split <;> rfl
    exact ih (w := press w .pop) (hw ▸ hpop) hs.pop

/-- 1025 keys, read until the ring reports itself empty, and then one more key. -/
def overrun : List Key :=
  List.replicate 1024 (.push 1) ++ [.push 1] ++ List.replicate 1024 .pop ++ [.pop, .push 2, .pop]

theorem skewed_loses {w : Watch} (ht : Typing p w.kernel kb) (hs : Skewed kb []) :
    ¬ Each press Recovers w [.pop, .push 2, .pop] := by
  rintro ⟨-, -, hlast, -⟩
  have h0 : front kb = 0 := hs.ring.front (by decide)
  have hv : (keyboardPop w.kernel).2 = 0 := by rw [ht.pop_value, h0]
  have hpop := ht.pop
  rw [if_pos h0] at hpop
  have hw : press w .pop = ⟨(keyboardPop w.kernel).1, w.unread, .drained⟩ := by rw [press, if_pos hv]
  have hpush : Typing p (keyboardPush (keyboardPop w.kernel).1 2) (pushed kb 2) := hpop.push 2
  rw [hw] at hlast
  have hdue : (keyboardPop (keyboardPush (keyboardPop w.kernel).1 2)).2 = 2 := hlast 2 rfl
  rw [hpush.pop_value, hs.lost] at hdue
  exact absurd hdue (by decide)

theorem typing_press {w : Watch} (ht : Typing p w.kernel kb) {c : Byte} (hc : c ≠ 0) :
    Typing p (press w (.push c)).kernel (pushed kb c) := by
  have := ht.push c
  rwa [if_neg hc] at this

theorem overrun_loses (ht : Typing p k kb) (hidle : Idle kb) :
    ¬ Each press Recovers (watch k) overrun := by
  obtain ⟨kb1, ht1, hr1⟩ := press_fill (w := watch k) 1024 ht hidle.reads (by decide)
  rw [overrun, each_append, run_append, run_append, run_cons, run_nil]
  generalize run press (watch k) (List.replicate 1024 (.push 1)) = w1 at ht1
  have hrep : List.replicate 1024 (1 : Byte) = 1 :: List.replicate 1023 1 := List.replicate_succ
  have hs2 : Skewed (pushed kb1 1) (List.replicate 1024 1) := by
    rw [List.nil_append, hrep] at hr1
    rw [hrep]
    exact hr1.push_full (by rw [← hrep, List.length_replicate, keyboardBufferSize]) (by decide)
  obtain ⟨kb3, ht3, hs3⟩ := press_drain (typing_press ht1 (by decide)) hs2
  rw [List.length_replicate] at ht3
  exact fun h => skewed_loses ht3 hs3 h.2

def oneTypist : Kernel := { typingKernel with current_process := 1, current_task := 1 }

theorem oneTypist_typing : Typing 1 oneTypist zeroProcess.keyboard :=
  ⟨by decide, rfl, by decide, rfl, rfl⟩

theorem zeroKeyboard_idle : Idle zeroProcess.keyboard := ⟨fun _ _ => rfl, rfl⟩

theorem keyboard_recovers_short :
    Each press Recovers (watch oneTypist) [.pop, .push 97, .push 98, .pop, .pop, .pop, .push 99, .pop] :=
  keyboard_recovers oneTypist_typing zeroKeyboard_idle _ (by simp [HasRoom, press]; decide)

theorem overrun_loses_oneTypist : ¬ Each press Recovers (watch oneTypist) overrun :=
  overrun_loses oneTypist_typing zeroKeyboard_idle

end MultitaskOs.Keyboard
