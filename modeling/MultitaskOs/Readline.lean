import MultitaskOs.Code.Readline

/-!
# Reading a line

A backspace takes the last character of the line away. Where there is none it is
a character itself, and the next one that finds the line empty takes it away.
-/

open Lib.Memory

namespace MultitaskOs.Readline

variable {l : Line} {max : Int} {echo : Bool} {key : Byte} {keys s t : List Byte} {out : Int → Byte}

/-! ## One key -/

theorem turn_back (echo : Bool) (h : key = 8 ∧ l.i ≥ 1) : ∃ shown, readlineTurn echo key l =
    ⟨Function.update l.out (l.i - 1) 0, (l.i - 1) :: l.written, l.i - 1, l.read ++ [key], shown⟩ := by
  have hi : l.i - 2 + 1 = l.i - 1 := by omega
  unfold readlineTurn Line.set
  cases echo <;> simp [h.1, h.2, hi]

theorem turn_put (echo : Bool) (h : ¬ (key = 8 ∧ l.i ≥ 1)) : ∃ shown, readlineTurn echo key l =
    ⟨Function.update l.out l.i key, l.i :: l.written, l.i + 1, l.read ++ [key], shown⟩ := by
  have h' : ¬ (key = 8#8 ∧ 1 ≤ l.i) := h
  unfold readlineTurn Line.set
  cases echo <;> simp [h']

/-! ## Where it writes -/

/-- The index is in the array at the loop's test, and so is every place written so far. -/
structure InBounds (max : Int) (l : Line) : Prop where
  nonneg : 0 ≤ l.i
  le : l.i ≤ max - 1
  written : ∀ j ∈ l.written, 0 ≤ j ∧ j < max

theorem InBounds.turn (h : InBounds max l) (hlt : l.i < max - 1) : InBounds max (readlineTurn echo key l) := by
  have h0 := h.nonneg
  by_cases hback : key = 8 ∧ l.i ≥ 1
  · obtain ⟨shown, heq⟩ := turn_back echo hback
    rw [heq]
    exact ⟨by dsimp only; omega, by dsimp only; omega, List.forall_mem_cons.mpr ⟨by omega, h.written⟩⟩
  · obtain ⟨shown, heq⟩ := turn_put echo hback
    rw [heq]
    exact ⟨by dsimp only; omega, by dsimp only; omega, List.forall_mem_cons.mpr ⟨by omega, h.written⟩⟩

theorem InBounds.terminate (h : InBounds max l) :
    InBounds max (l.set l.i 0) ∧ ∃ j, 0 ≤ j ∧ j < max ∧ (l.set l.i 0).out j = 0 := by
  have h0 := h.nonneg
  have hle := h.le
  refine ⟨⟨h0, hle, List.forall_mem_cons.mpr ⟨by omega, h.written⟩⟩, l.i, h0, by omega, ?_⟩
  exact Function.update_self _ _ _

theorem loop_inBounds (h : InBounds max l) (keys : List Byte) :
    InBounds max (readlineLoop max echo keys l).1 ∧ ((readlineLoop max echo keys l).2 = true →
      ∃ j, 0 ≤ j ∧ j < max ∧ (readlineLoop max echo keys l).1.out j = 0) := by
  induction keys generalizing l with
  | nil =>
    rw [readlineLoop]
    split_ifs with hlt
    · exact ⟨h, fun hf => absurd hf (by decide)⟩
    · exact ⟨h.terminate.1, fun _ => h.terminate.2⟩
  | cons key keys ih =>
    rw [readlineLoop]
    split_ifs with hlt hcr
    · exact ⟨h.terminate.1, fun _ => h.terminate.2⟩
    · exact ih (h.turn hlt)
    · exact ⟨h.terminate.1, fun _ => h.terminate.2⟩

/-- Whatever keys have come so far, nothing is written outside the array; and once it has returned,
the array holds a terminator. -/
theorem readline_inBounds (out : Int → Byte) (hmax : 1 ≤ max) (echo : Bool) (keys : List Byte) :
    InBounds max (multitaskosTerminalReadline out max echo keys).1 ∧
      ((multitaskosTerminalReadline out max echo keys).2 = true →
        ∃ j, 0 ≤ j ∧ j < max ∧ (multitaskosTerminalReadline out max echo keys).1.out j = 0) :=
  loop_inBounds ⟨le_rfl, by dsimp only; omega, by simp⟩ keys

/-- "ab", one backspace too many, and the rest of a buffer of four. -/
theorem readline_inBounds_backspaces :
    InBounds 4 (multitaskosTerminalReadline (fun _ => 0xff) 4 true [97, 98, 8, 8, 8, 99, 100, 101]).1 ∧
      ((multitaskosTerminalReadline (fun _ => 0xff) 4 true [97, 98, 8, 8, 8, 99, 100, 101]).2 = true →
        ∃ j, 0 ≤ j ∧ j < 4 ∧
          (multitaskosTerminalReadline (fun _ => 0xff) 4 true [97, 98, 8, 8, 8, 99, 100, 101]).1.out j = 0) :=
  readline_inBounds _ (by decide) _ _

/-! ## Editing a line -/

def edit (line : List Byte) (key : Byte) : List Byte := if key = 8 then line.dropLast else line ++ [key]

def edited (keys : List Byte) : List Byte := keys.foldl edit []

/-- How many backspaces find the line empty. -/
def idleBackspaces : List Byte → List Byte → Nat
  | _, [] => 0
  | line, key :: keys => (if key = 8 ∧ line = [] then 1 else 0) + idleBackspaces (edit line key) keys

/-- The string `s` is in the array, with its terminator. -/
structure Holds (out : Int → Byte) (s : List Byte) : Prop where
  noNul : 0 ∉ s
  bytes : ∀ j (h : j < s.length), out j = s[j]
  terminated : out s.length = 0

theorem Holds.unique (hs : Holds out s) (ht : Holds out t) : s = t := by
  have hle : ∀ {s t : List Byte}, Holds out s → Holds out t → ¬ s.length < t.length := by
    intro s t hs ht hlt
    have hbyte := ht.bytes _ hlt
    rw [hs.terminated] at hbyte
    exact ht.noNul (hbyte ▸ List.getElem_mem hlt)
  have hlen : s.length = t.length := by
    have h1 := hle hs ht
    have h2 := hle ht hs
    omega
  refine List.ext_getElem hlen fun j h1 h2 => ?_
  rw [← hs.bytes j h1, ht.bytes j h2]

theorem edited_append (keys : List Byte) (key : Byte) : edited (keys ++ [key]) = edit (edited keys) key :=
  List.foldl_append

theorem idleBackspaces_append (line keys : List Byte) (key : Byte) : idleBackspaces line (keys ++ [key]) =
    idleBackspaces line keys + if key = 8 ∧ keys.foldl edit line = [] then 1 else 0 := by
  induction keys generalizing line with
  | nil => exact Nat.add_comm _ _
  | cons k keys ih => rw [List.cons_append, idleBackspaces, ih, idleBackspaces, List.foldl_cons, Nat.add_assoc]

/-- The characters in the array while the keys are read: an idle backspace may stand before the line. -/
def typed (keys : List Byte) : List Byte :=
  (if Even (idleBackspaces [] keys) then [] else [8]) ++ edited keys

/-- A backspace that has nothing to take away makes itself a character, or takes itself away. -/
theorem typed_append (keys : List Byte) (key : Byte) : typed (keys ++ [key]) =
    if key = 8 ∧ typed keys ≠ [] then (typed keys).dropLast else typed keys ++ [key] := by
  have hidle : idleBackspaces [] (keys ++ [key]) =
      idleBackspaces [] keys + if key = 8 ∧ edited keys = [] then 1 else 0 := idleBackspaces_append [] keys key
  unfold typed
  rw [edited_append, hidle]
  unfold edit
  by_cases hkey : key = 8
  · by_cases hline : edited keys = []
    · by_cases heven : Even (idleBackspaces [] keys) <;> simp [hkey, hline, heven, Nat.even_add_one]
    · have hne : (if Even (idleBackspaces [] keys) then [] else [8]) ++ edited keys ≠ [] := by simp [hline]
      simp [hkey, hline, List.dropLast_append_of_ne_nil]
  · have hnot : ∀ P : Prop, ¬ (key = 8 ∧ P) := fun P h => hkey h.1
    rw [if_neg hkey, if_neg (hnot _), if_neg (hnot _), Nat.add_zero, List.append_assoc]

/-- The array holds what is typed so far, and the index is behind it. -/
structure Typing (l : Line) : Prop where
  index : l.i = (typed l.read).length
  bytes : ∀ j (h : j < (typed l.read).length), l.out j = (typed l.read)[j]

theorem Typing.turn (h : Typing l) : Typing (readlineTurn echo key l) := by
  have hi := h.index
  have hnil : typed l.read ≠ [] ↔ l.i ≥ 1 := by
    rw [hi, ← List.length_pos_iff]
    omega
  have hnext := typed_append l.read key
  by_cases hback : key = 8 ∧ l.i ≥ 1
  · obtain ⟨shown, heq⟩ := turn_back echo hback
    rw [if_pos ⟨hback.1, hnil.mpr hback.2⟩] at hnext
    have hlen : (typed (l.read ++ [key])).length = (typed l.read).length - 1 := by rw [hnext, List.length_dropLast]
    rw [heq]
    refine ⟨?_, fun j hj => ?_⟩
    · dsimp only
      omega
    · dsimp only at hj ⊢
      rw [Function.update_of_ne (by omega), h.bytes j (by omega)]
      simp only [hnext, List.getElem_dropLast]
  · obtain ⟨shown, heq⟩ := turn_put echo hback
    rw [if_neg fun hb => hback ⟨hb.1, hnil.mp hb.2⟩] at hnext
    have hlen : (typed (l.read ++ [key])).length = (typed l.read).length + 1 := by simp [hnext]
    rw [heq]
    refine ⟨?_, fun j hj => ?_⟩
    · dsimp only
      omega
    · dsimp only at hj ⊢
      simp only [hnext]
      rcases Nat.lt_or_ge j (typed l.read).length with hlt | hge
      · rw [Function.update_of_ne (by omega), h.bytes j hlt, List.getElem_append_left hlt]
      · obtain rfl : j = (typed l.read).length := by omega
        rw [← hi, Function.update_self]
        simp

theorem noNul_edited (h : 0 ∉ keys) : 0 ∉ edited keys := by
  induction keys using List.reverseRecOn with
  | nil => simp [edited]
  | append_singleton keys key ih =>
    rw [List.mem_append, List.mem_singleton, not_or] at h
    rw [edited_append]
    unfold edit
    split_ifs
    · exact fun hmem => ih h.1 (List.mem_of_mem_dropLast hmem)
    · rw [List.mem_append, List.mem_singleton, not_or]
      exact ⟨ih h.1, h.2⟩

theorem noNul_typed (h : 0 ∉ keys) : 0 ∉ typed keys := by
  unfold typed
  rw [List.mem_append, not_or]
  refine ⟨?_, noNul_edited h⟩
  split_ifs <;> decide

theorem typed_eq_edited_iff (keys : List Byte) : typed keys = edited keys ↔ Even (idleBackspaces [] keys) := by
  unfold typed
  split_ifs with h <;> simp [h]

theorem Typing.terminate (h : Typing l) (h0 : 0 ∉ l.read) : Holds (l.set l.i 0).out (typed l.read) := by
  have hi := h.index
  refine ⟨noNul_typed h0, fun j hj => ?_, ?_⟩
  · rw [← h.bytes j hj]
    exact Function.update_of_ne (by omega) _ _
  · rw [← hi]
    exact Function.update_self _ _ _

/-- The keys of a call that has returned: those read, then a carriage return, or a full buffer. -/
structure Stopped (max : Int) (keys : List Byte) (l : Line) : Prop where
  read : ∃ rest, keys = l.read ++ rest ∧ ((∃ more, rest = 13 :: more) ∨ l.i = max - 1)
  noReturn : 13 ∉ l.read

theorem loop_typed {l' : Line} (h : Typing l) (hle : l.i ≤ max - 1) (h13 : 13 ∉ l.read) (h0 : 0 ∉ l.read ++ keys)
    (hret : readlineLoop max echo keys l = (l', true)) :
    Stopped max (l.read ++ keys) l' ∧ Holds l'.out (typed l'.read) := by
  induction keys generalizing l with
  | nil =>
    rw [readlineLoop] at hret
    split_ifs at hret with hlt
    · cases hret
    · cases hret
      exact ⟨⟨⟨[], by simp [Line.set], Or.inr (show l.i = max - 1 by omega)⟩, h13⟩,
        h.terminate (by simpa using h0)⟩
  | cons key keys ih =>
    have hread : 0 ∉ l.read := fun hm => h0 (List.mem_append_left _ hm)
    rw [readlineLoop] at hret
    split_ifs at hret with hlt hcr
    · cases hret
      exact ⟨⟨⟨key :: keys, rfl, Or.inl ⟨keys, by rw [hcr]⟩⟩, h13⟩, h.terminate hread⟩
    · have hnext : (readlineTurn echo key l).read = l.read ++ [key] ∧ (readlineTurn echo key l).i ≤ max - 1 := by
        by_cases hback : key = 8 ∧ l.i ≥ 1
        · obtain ⟨shown, heq⟩ := turn_back echo hback
          rw [heq]
          exact ⟨rfl, by dsimp only; omega⟩
        · obtain ⟨shown, heq⟩ := turn_put echo hback
          rw [heq]
          exact ⟨rfl, by dsimp only; omega⟩
      have hkeys : l.read ++ key :: keys = (readlineTurn echo key l).read ++ keys := by simp [hnext.1]
      rw [hkeys] at h0 ⊢
      refine ih h.turn hnext.2 ?_ h0 hret
      rw [hnext.1, List.mem_append, List.mem_singleton, not_or]
      exact ⟨h13, Ne.symm hcr⟩
    · cases hret
      exact ⟨⟨⟨key :: keys, rfl, Or.inr (show l.i = max - 1 by omega)⟩, h13⟩, h.terminate hread⟩

/-- The line is the one that was edited exactly when the backspaces that found it empty are even in
number. -/
theorem readline_edited_iff (hmax : 2 ≤ max) (h0 : 0 ∉ keys)
    (hret : multitaskosTerminalReadline out max echo keys = (l, true)) :
    Stopped max keys l ∧ (Holds l.out (edited l.read) ↔ Even (idleBackspaces [] l.read)) := by
  obtain ⟨hstop, hholds⟩ := loop_typed (l := ⟨out, [], 0, [], []⟩) ⟨rfl, fun j hj => absurd hj (Nat.not_lt_zero j)⟩
    (by dsimp only; omega) (by simp) h0 hret
  refine ⟨hstop, ?_⟩
  rw [← typed_eq_edited_iff]
  constructor
  · exact fun h => hholds.unique h
  · intro heq
    rwa [← heq]

/-- "a", a backspace and "b". -/
theorem readline_edited_backspace :
    Stopped 80 [97, 8, 98, 13] (multitaskosTerminalReadline (fun _ => 0) 80 true [97, 8, 98, 13]).1 ∧
      (Holds (multitaskosTerminalReadline (fun _ => 0) 80 true [97, 8, 98, 13]).1.out
          (edited (multitaskosTerminalReadline (fun _ => 0) 80 true [97, 8, 98, 13]).1.read) ↔
        Even (idleBackspaces [] (multitaskosTerminalReadline (fun _ => 0) 80 true [97, 8, 98, 13]).1.read)) := by
  have hret : multitaskosTerminalReadline (fun _ => 0) 80 true [97, 8, 98, 13] =
      ((multitaskosTerminalReadline (fun _ => 0) 80 true [97, 8, 98, 13]).1, true) := rfl
  exact readline_edited_iff (by decide) (by decide) hret

/-- A backspace, "a" and a return leave the backspace in the line. -/
theorem readline_keeps_backspace :
    (multitaskosTerminalReadline (fun _ => 0) 80 true [8, 97, 13]).2 = true ∧
      (multitaskosTerminalReadline (fun _ => 0) 80 true [8, 97, 13]).1.read = [8, 97] ∧ edited [8, 97] = [97] ∧
      Holds (multitaskosTerminalReadline (fun _ => 0) 80 true [8, 97, 13]).1.out [8, 97] ∧
      ¬ Holds (multitaskosTerminalReadline (fun _ => 0) 80 true [8, 97, 13]).1.out [97] := by
  have h : Holds (multitaskosTerminalReadline (fun _ => 0) 80 true [8, 97, 13]).1.out [8, 97] := by
    refine ⟨by decide, ?_, by decide⟩
    decide
  exact ⟨by decide, by decide, by decide, h, fun h' => absurd (h.unique h') (by decide)⟩

end MultitaskOs.Readline
