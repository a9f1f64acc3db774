import MultitaskOs.Code.Interrupt
import MultitaskOs.Keyboard

/-!
# From scan codes to keys that are read

The keyboard interrupt turns scan codes into characters, under the caps lock, and sends each to the
process that is current then. What each process reads is what was typed for it.
-/

open Lib Lib.Memory Lib.Ring MultitaskOs.Keyboard

namespace MultitaskOs.TypedText

inductive Act where
  | key (scancode : Byte)
  | getkey
  | processSwitch (process : Addr)
  | taskSwitch (task : Addr)
deriving DecidableEq

/-- The kernel, with what each process has read. -/
structure Desk where
  os : Os
  read : Addr → List Byte

/-- `none` is a scan code behind the table. -/
def step (d : Desk) : Act → Option Desk
  | .key scancode => (d.os.clasicKeyboardHandleInterrupt scancode).map fun os => { d with os }
  | .getkey =>
    let (k, c) := keyboardPop d.os.toKernel
    let p := reader d.os.toKernel
    some
      { os := { d.os with toKernel := k }
        read := if d.os.current_task = 0 ∨ c = 0 then d.read else Function.update d.read p (d.read p ++ [c]) }
  | .processSwitch process => some { d with os := { d.os with toKernel := processSwitch d.os.toKernel process } }
  | .taskSwitch task => some { d with os := { d.os with toKernel := taskSwitch d.os.toKernel task } }

def run (d : Desk) (as : List Act) : Option Desk := as.foldlM step d

/-! ## What is typed -/

/-- The character of a key: none for a release and for a key without one, and a small letter without
the caps lock. -/
def character (caps : CapsLock) (scancode : Byte) : List Byte :=
  match keyboardScanSetOne[scancode.toNat]? with
  | none => []
  | some c =>
    if c = 0 then [] else if caps = .off ∧ 0x41 ≤ c ∧ c ≤ 0x5A then [c + 32] else [c]

def capsAfter (caps : CapsLock) : Act → CapsLock
  | .key scancode => if scancode = classicKeyboardCapslock then caps.toggle else caps
  | _ => caps

def processAfter (current : Addr) : Act → Addr
  | .processSwitch process => process
  | _ => current

/-- What one action types for `p`. -/
def types (p : Addr) (caps : CapsLock) (current : Addr) : Act → List Byte
  | .key scancode => if current = p ∧ p ≠ 0 then character (capsAfter caps (.key scancode)) scancode else []
  | _ => []

def typed (p : Addr) : CapsLock → Addr → List Act → List Byte
  | _, _, [] => []
  | caps, current, a :: as => types p caps current a ++ typed p (capsAfter caps a) (processAfter current a) as

variable {d d' : Desk} {o o' : Os} {as : List Act} {a : Act} {t : Addr → List Byte} {p : Addr} {scancode : Byte}
  {caps : CapsLock}

/-! ## One key -/

def behindTable : Byte := 0x52

/-- The table has a character, or 0, for every scan code but the one behind it. -/
theorem scancodeToChar_eq (caps : CapsLock) (scancode : Byte) : classicKeyboardScancodeToChar caps scancode =
    if scancode = behindTable then none else some ((character caps scancode).headD 0) := by
  revert scancode
  cases caps <;> decide +kernel

theorem character_released (h : scancode &&& classicKeyboardKeyReleased ≠ 0) : character caps scancode = [] := by
  revert scancode
  cases caps <;> decide +kernel

theorem keyboardPush_zero (k : Kernel) : keyboardPush k 0 = k := by
  unfold keyboardPush
  dsimp only
  rw [if_pos rfl, ite_self]

theorem released_ne_caps (h : scancode &&& classicKeyboardKeyReleased ≠ 0) : scancode ≠ classicKeyboardCapslock := by
  rintro rfl
  exact h rfl

/-- What the interrupt of one key leaves. -/
structure Handled (o : Os) (scancode : Byte) (o' : Os) : Prop where
  kernel : o'.toKernel =
    keyboardPush o.toKernel ((character (capsAfter o.capslock_state (.key scancode)) scancode).headD 0)
  caps : o'.capslock_state = capsAfter o.capslock_state (.key scancode)

theorem interrupt_behind (o : Os) : o.clasicKeyboardHandleInterrupt behindTable = none := by
  unfold Os.clasicKeyboardHandleInterrupt
  dsimp only
  rw [if_neg (by decide), if_neg (by decide), scancodeToChar_eq, if_pos rfl]
  rfl

theorem interrupt_handled (o : Os) (h : scancode ≠ behindTable) :
    ∃ o', o.clasicKeyboardHandleInterrupt scancode = some o' ∧ Handled o scancode o' := by
  unfold Os.clasicKeyboardHandleInterrupt
  dsimp only
  by_cases hrel : scancode &&& classicKeyboardKeyReleased = 0
  · rw [if_neg (not_not.mpr hrel)]
    obtain ⟨o2, ho2⟩ : ∃ o2, (if scancode = classicKeyboardCapslock then
      { o.kernelPage with capslock_state := o.kernelPage.capslock_state.toggle } else o.kernelPage) = o2 := ⟨_, rfl⟩
    have hcaps : o2.capslock_state = capsAfter o.capslock_state (.key scancode) := by
      rw [← ho2, capsAfter]
      split_ifs <;> rfl
    have hkernel : o2.toKernel = o.toKernel := by
      rw [← ho2]
      split_ifs <;> rfl
    rw [ho2, hcaps, scancodeToChar_eq, if_neg h]
    refine ⟨_, rfl, ?_, ?_⟩
    · rw [Os.taskPage_toKernel, ← hkernel]
      split_ifs with hc
      · rfl
      · rw [not_ne_iff.mp hc, keyboardPush_zero]
    · rw [← hcaps]
      split_ifs <;> rfl
  · rw [if_pos hrel]
    refine ⟨_, rfl, ?_, ?_⟩
    · rw [character_released hrel]
      exact (keyboardPush_zero _).symm
    · rw [capsAfter, if_neg (released_ne_caps hrel)]
      rfl

/-! ## One step -/

theorem character_cases (caps : CapsLock) (scancode : Byte) : character caps scancode =
    if (character caps scancode).headD 0 = 0 then [] else [(character caps scancode).headD 0] := by
  revert scancode
  cases caps <;> decide +kernel

/-- The desk, as a keyboard that was sent `t`. -/
def board (d : Desk) (t : Addr → List Byte) : Keyboard.State := ⟨d.os.toKernel, t, d.read⟩

/-- What one step leaves: the rings hold what is typed and not yet read. -/
structure Stepped (d : Desk) (t : Addr → List Byte) (a : Act) (d' : Desk) : Prop where
  inv : Keyboard.Inv (board d' fun p => t p ++ types p d.os.capslock_state d.os.current_process a)
  caps : d'.os.capslock_state = capsAfter d.os.capslock_state a
  process : d'.os.current_process = processAfter d.os.current_process a

theorem current_push (k : Kernel) (c : Byte) : (keyboardPush k c).current_process = k.current_process := by
  unfold keyboardPush
  dsimp only
  split_ifs <;> rfl

theorem current_pop (k : Kernel) : (keyboardPop k).1.current_process = k.current_process := by
  unfold keyboardPop
  dsimp only
  split_ifs <;> rfl

theorem sent_key (t : Addr → List Byte) (caps : CapsLock) (current : Addr) (scancode : Byte) :
    (fun p => t p ++ types p caps current (.key scancode)) =
      let c := (character (capsAfter caps (.key scancode)) scancode).headD 0
      if current = 0 ∨ c = 0 then t else Function.update t current (t current ++ [c]) := by
  have hchar := character_cases (capsAfter caps (.key scancode)) scancode
  funext p
  rw [types]
  by_cases h0 : current = 0 ∨ (character (capsAfter caps (.key scancode)) scancode).headD 0 = 0
  · rw [if_pos h0]
    rcases h0 with h0 | h0
    · rw [if_neg fun hp => hp.2 (hp.1 ▸ h0), List.append_nil]
    · rw [if_pos h0] at hchar
      rw [hchar, ite_self, List.append_nil]
  · rw [if_neg h0]
    rw [not_or] at h0
    rw [if_neg h0.2] at hchar
    by_cases hp : current = p
    · subst hp
      rw [if_pos ⟨rfl, h0.1⟩, Function.update_self, ← hchar]
    · rw [if_neg fun h => hp h.1, Function.update_of_ne fun h => hp h.symm, List.append_nil]

theorem step_stepped (h : Keyboard.Inv (board d t)) (hstep : step d a = some d')
    (hfit : ∀ p, (t p).length + (types p d.os.capslock_state d.os.current_process a).length ≤
      (d'.read p).length + keyboardBufferSize) : Stepped d t a d' := by
  cases a with
  | key scancode =>
    obtain ⟨os, hos, rfl⟩ := Option.map_eq_some_iff.mp hstep
    have hne : scancode ≠ behindTable := by
      rintro rfl
      rw [interrupt_behind] at hos
      cases hos
    obtain ⟨os', hos', hhandled⟩ := interrupt_handled d.os hne
    obtain rfl := Option.some.inj (hos.symm.trans hos')
    have hsent := sent_key t d.os.capslock_state d.os.current_process scancode
    refine ⟨?_, hhandled.caps, ?_⟩
    · unfold board
      dsimp only
      rw [hhandled.kernel, hsent]
      refine Inv.push h _ fun p => ?_
      have hp := hfit p
      rw [← List.length_append] at hp
      exact (congrFun hsent p ▸ hp :)
    · show os.toKernel.current_process = _
      rw [hhandled.kernel, current_push]
      rfl
  | getkey =>
    obtain rfl := Option.some.inj hstep
    have hpop := Inv.pop h
    refine ⟨?_, rfl, current_pop _⟩
    simp only [types, List.append_nil]
    exact hpop
  | processSwitch process =>
    obtain rfl := Option.some.inj hstep
    refine ⟨?_, rfl, rfl⟩
    simp only [types, List.append_nil]
    exact h
  | taskSwitch task =>
    obtain rfl := Option.some.inj hstep
    refine ⟨?_, rfl, rfl⟩
    simp only [types, List.append_nil]
    exact h

/-! ## Runs -/

/-- No process is typed more than its ring holds of what it did not read. -/
def Fits (d : Desk) (as : List Act) : Prop :=
  ∀ n ≤ as.length, ∀ d', run d (as.take n) = some d' → ∀ p,
    (typed p d.os.capslock_state d.os.current_process (as.take n)).length ≤ (d'.read p).length + keyboardBufferSize

theorem run_cons (d : Desk) (a : Act) (as : List Act) : run d (a :: as) = (step d a).bind fun d' => run d' as :=
  List.foldlM_cons ..

theorem step_behind : step d a = none ↔ a = .key behindTable := by
  cases a with
  | key scancode =>
    rw [step, Option.map_eq_none_iff, Act.key.injEq]
    constructor
    · intro hnone
      by_contra hne
      obtain ⟨o', ho', -⟩ := interrupt_handled d.os hne
      rw [hnone] at ho'
      cases ho'
    · rintro rfl
      exact interrupt_behind d.os
  | getkey => simp [step]
  | processSwitch process => simp [step]
  | taskSwitch task => simp [step]

theorem run_inv (h : Keyboard.Inv (board d t)) (hrun : run d as = some d')
    (hfit : ∀ n ≤ as.length, ∀ d', run d (as.take n) = some d' → ∀ p,
      (t p).length + (typed p d.os.capslock_state d.os.current_process (as.take n)).length ≤
        (d'.read p).length + keyboardBufferSize) :
    Keyboard.Inv (board d' fun p => t p ++ typed p d.os.capslock_state d.os.current_process as) := by
  induction as generalizing d t with
  | nil =>
    obtain rfl := Option.some.inj hrun
    simpa only [typed, List.append_nil] using h
  | cons a as ih =>
    rw [run_cons] at hrun
    obtain ⟨d1, hstep, hrun⟩ := Option.bind_eq_some_iff.mp hrun
    have hfirst : ∀ p, (t p).length + (types p d.os.capslock_state d.os.current_process a).length ≤
        (d1.read p).length + keyboardBufferSize := by
      have hone :=
        hfit 1 (by simp) d1 (by rw [List.take_one, List.head?_cons, Option.toList_some, run_cons, hstep]; rfl)
      simpa [typed] using hone
    have hstepped := step_stepped h hstep hfirst
    have hnext := ih hstepped.inv hrun fun n hn d2 hd2 p => ?_
    · simp only [typed, ← List.append_assoc]
      rw [hstepped.caps, hstepped.process] at hnext
      exact hnext
    · have hp := hfit (n + 1) (by simpa using hn) d2 (by rw [List.take_succ_cons, run_cons, hstep]; exact hd2) p
      rw [List.take_succ_cons, typed, List.length_append] at hp
      rw [List.length_append, hstepped.caps, hstepped.process]
      omega

theorem run_isSome (d : Desk) (as : List Act) : (run d as).isSome ↔ .key behindTable ∉ as := by
  induction as generalizing d with
  | nil => simp [run]
  | cons a as ih =>
    rw [run_cons, List.mem_cons, not_or]
    cases hstep : step d a with
    | none => simp [step_behind.mp hstep]
    | some d' =>
      have hne : .key behindTable ≠ a := by
        rintro rfl
        rw [step_behind.mpr rfl] at hstep
        cases hstep
      rw [Option.bind_some, ih]
      exact ⟨fun h => ⟨hne, h⟩, fun h => h.2⟩

/-- What each process has read, and what it will read next. -/
structure Delivered (o : Os) (as : List Act) (d : Desk) : Prop where
  order : ∀ p, d.read p <+: typed p o.capslock_state o.current_process as
  next : d.os.current_task ≠ 0 → let p := reader d.os.toKernel
    (keyboardPop d.os.toKernel).2 = ((typed p o.capslock_state o.current_process as).drop (d.read p).length).headD 0

/-- Whatever is typed, read and switched, in whatever order: each process reads the characters of the keys
that were pressed while it was the current one, in order, and a press of the key behind the table is the
one event that the kernel has no answer to. -/
theorem typed_delivered (hk : ∀ p, Idle (o.procs p).keyboard) (as : List Act) (hfit : Fits ⟨o, fun _ => []⟩ as) :
    (.key behindTable ∈ as ∧ run ⟨o, fun _ => []⟩ as = none) ∨
      ∃ d, run ⟨o, fun _ => []⟩ as = some d ∧ Delivered o as d := by
  cases hrun : run ⟨o, fun _ => []⟩ as with
  | none =>
    refine Or.inl ⟨?_, rfl⟩
    by_contra hno
    have hsome := (run_isSome ⟨o, fun _ => []⟩ as).mpr hno
    rw [hrun] at hsome
    cases hsome
  | some d =>
    have h0 : Keyboard.Inv (board ⟨o, fun _ => []⟩ fun _ => []) := inv_start hk
    have hinv := run_inv h0 hrun fun n hn d' hd' p => by simpa using hfit n hn d' hd' p
    simp only [List.nil_append] at hinv
    refine Or.inr ⟨d, rfl, hinv.inOrder, fun htask => ?_⟩
    obtain ⟨q, hq, hreads⟩ := hinv (reader d.os.toKernel)
    dsimp only [board] at hq hreads ⊢
    rw [keyboardPop_value, if_neg htask, hreads.front, hq, List.drop_left, List.headD_eq_head?_getD]

/-! ## Two processes are typed to -/

theorem length_character (caps : CapsLock) (scancode : Byte) : (character caps scancode).length ≤ 1 := by
  rw [character_cases]
  split_ifs <;> simp

theorem length_typed (p : Addr) (caps : CapsLock) (current : Addr) (as : List Act) :
    (typed p caps current as).length ≤ as.length := by
  induction as generalizing caps current with
  | nil => simp [typed]
  | cons a as ih =>
    have hrest := ih (capsAfter caps a) (processAfter current a)
    have hone : (types p caps current a).length ≤ 1 := by
      cases a with
      | key scancode =>
        rw [types]
        split_ifs
        · exact length_character _ _
        · simp
      | getkey => simp [types]
      | processSwitch process => simp [types]
      | taskSwitch task => simp [types]
    rw [typed, List.length_append, List.length_cons]
    omega

theorem fits_of_short (d : Desk) (as : List Act) (h : as.length ≤ keyboardBufferSize) : Fits d as := by
  intro n hn d' _ p
  have htyped := length_typed p d.os.capslock_state d.os.current_process (as.take n)
  rw [List.length_take] at htyped
  omega

def typingOs : Os where
  toKernel := typingKernel
  terminal := ⟨0, 0, fun _ => 0, []⟩
  capslock_state := .off
  kernel_chunk := 0
  isr80h_commands _ := none
  interrupt_callbacks _ := none
  cr3 := 0
  data := 0

def twoTyped : List Act :=
  [.processSwitch 1, .key 0x1E, .key 0x9E, .key 0x3A, .processSwitch 2, .key 0x1E, .taskSwitch 2, .getkey,
    .taskSwitch 1]

theorem typed_delivered_twoTyped : (.key behindTable ∈ twoTyped ∧ run ⟨typingOs, fun _ => []⟩ twoTyped = none) ∨
    ∃ d, run ⟨typingOs, fun _ => []⟩ twoTyped = some d ∧ Delivered typingOs twoTyped d :=
  typed_delivered typingKernel_idle twoTyped (fits_of_short _ _ (by decide))

example : typed 1 .off 0 twoTyped = [0x61] ∧ typed 2 .off 0 twoTyped = [0x41] := by decide

end MultitaskOs.TypedText
