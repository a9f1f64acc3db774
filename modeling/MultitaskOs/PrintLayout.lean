import MultitaskOs.Code.Interrupt
import MultitaskOs.Terminal

/-!
# How a text is laid out

A printed text lies on the screen line by line, each line from the start of a row on and over as many
rows as it takes.
-/

open Lib.Memory Lib.CString MultitaskOs.Screen

namespace MultitaskOs.PrintLayout

def newline : Byte := 0x0A
def backspace : Byte := 0x08

def writes (t : Terminal) (s : List Byte) : Terminal := s.foldl (fun t c => terminalWritechar t c 15) t

/-- The rows that a line takes: one more than it fills. -/
def rowsOf (line : List Byte) : Nat := line.length / vgaWidth + 1

def rowOf (row : Nat) (lines : List (List Byte)) (l : Nat) : Nat := row + ((lines.take l).map rowsOf).sum

/-- The lines are in the video memory, with nothing else changed, and the cursor is behind the last one. -/
structure LaidOut (t : Terminal) (lines : List (List Byte)) (t' : Terminal) : Prop where
  cell : ∀ l, (hl : l < lines.length) → ∀ j, (hj : j < lines[l].length) →
    t'.video_mem (rowOf t.terminal_row.toNat lines l * vgaWidth + j) = terminalMakeChar lines[l][j] 15
  others : ∀ i, (∀ l, (hl : l < lines.length) → ¬ (rowOf t.terminal_row.toNat lines l * vgaWidth ≤ i ∧
    i < rowOf t.terminal_row.toNat lines l * vgaWidth + lines[l].length)) → t'.video_mem i = t.video_mem i
  cursor : position t' = rowOf t.terminal_row.toNat lines (lines.length - 1) * vgaWidth + (lines.getLastD []).length
  column : t'.terminal_col.toNat < vgaWidth

variable {t t1 t' : Terminal} {c : Byte} {s line : List Byte} {lines : List (List Byte)} {i row l : Nat}

/-! ## One line -/

/-- A plain character takes one cell. -/
structure Advances (t : Terminal) (s : List Byte) (t' : Terminal) : Prop where
  cursor : position t' = position t + s.length
  column : t'.terminal_col.toNat < vgaWidth
  inside : ∀ j, (hj : j < s.length) → t'.video_mem (position t + j) = terminalMakeChar s[j] 15
  outside : ∀ i, ¬ (position t ≤ i ∧ i < position t + s.length) → t'.video_mem i = t.video_mem i

theorem row_of_position (h : t.terminal_col.toNat < vgaWidth) : t.terminal_row.toNat = position t / vgaWidth := by
  unfold position vgaWidth at *
  omega

theorem writechar_plain (hn : c ≠ newline) (hb : c ≠ backspace) (hcol : t.terminal_col.toNat < vgaWidth)
    (hrow : (position t + 1) / vgaWidth < 2 ^ 16) :
    position (terminalWritechar t c 15) = position t + 1 ∧ (terminalWritechar t c 15).terminal_col.toNat < vgaWidth ∧
      (terminalWritechar t c 15).video_mem = Function.update t.video_mem (position t) (terminalMakeChar c 15) := by
  rw [writechar_put hn hb]
  have hnext : (t.terminal_col + 1).toNat = t.terminal_col.toNat + 1 := by
    unfold vgaWidth at hcol
    bv_omega
  unfold position vgaWidth at *
  split
  · have hrow1 : (t.terminal_row + 1).toNat = t.terminal_row.toNat + 1 := by bv_omega
    refine ⟨?_, (by decide : (0 : BitVec 16).toNat < 80), rfl⟩
    dsimp only
    rw [hrow1]
    have hzero : (0 : BitVec 16).toNat = 0 := rfl
    omega
  · refine ⟨?_, by dsimp only; omega, rfl⟩
    dsimp only [put_row]
    omega

theorem writes_line (hn : newline ∉ s) (hb : backspace ∉ s) (hcol : t.terminal_col.toNat < vgaWidth)
    (hrow : (position t + s.length) / vgaWidth < 2 ^ 16) : Advances t s (writes t s) := by
  induction s generalizing t with
  | nil => exact ⟨rfl, hcol, by simp, fun _ _ => rfl⟩
  | cons c s ih =>
    rw [List.mem_cons, not_or] at hn hb
    rw [List.length_cons] at hrow
    obtain ⟨hpos, hcol1, hvideo⟩ := writechar_plain (Ne.symm hn.1) (Ne.symm hb.1) hcol (by unfold vgaWidth at *; omega)
    have hrest := ih hn.2 hb.2 hcol1 (by rw [hpos]; unfold vgaWidth at *; omega)
    have hcell : ∀ i, i ≠ position t → (terminalWritechar t c 15).video_mem i = t.video_mem i := fun i hi => by
      rw [hvideo, Function.update_of_ne hi]
    refine ⟨?_, hrest.column, fun j hj => ?_, fun i hi => ?_⟩
    · rw [List.length_cons]
      exact hrest.cursor.trans (by omega)
    · cases j with
      | zero =>
        refine (hrest.outside _ (by omega)).trans ?_
        rw [hvideo, Nat.add_zero, Function.update_self]
        rfl
      | succ j =>
        have hj' := hrest.inside j (by simpa using hj)
        rw [hpos, Nat.add_assoc, Nat.add_comm 1] at hj'
        exact hj'
    · rw [List.length_cons] at hi
      exact (hrest.outside i (by omega)).trans (hcell i (by omega))

/-! ## All lines -/

theorem rowOf_succ (row : Nat) (line : List Byte) (lines : List (List Byte)) (l : Nat) :
    rowOf row (line :: lines) (l + 1) = rowOf (row + rowsOf line) lines l := by
  rw [rowOf, rowOf, List.take_succ_cons, List.map_cons, List.sum_cons, Nat.add_assoc]

theorem le_rowOf (row : Nat) (lines : List (List Byte)) (l : Nat) : row ≤ rowOf row lines l := Nat.le_add_right _ _

theorem position_of_start (h : t.terminal_col = 0) : position t = t.terminal_row.toNat * vgaWidth := by
  rw [position, h]
  rfl

theorem laidOut_single (h : Advances t s t') (hstart : t.terminal_col = 0) : LaidOut t [s] t' := by
  have hpos := position_of_start hstart
  have hrow : rowOf t.terminal_row.toNat [s] 0 = t.terminal_row.toNat := rfl
  refine ⟨fun l hl j hj => ?_, fun i hi => ?_, ?_, h.column⟩
  · obtain rfl : l = 0 := by simpa using hl
    rw [hrow, ← hpos]
    exact h.inside j hj
  · have h0 := hi 0 (by simp)
    rw [hrow, ← hpos] at h0
    exact h.outside i h0
  · rw [h.cursor, hpos]
    rfl

def nextLine (t : Terminal) : Terminal := { t with terminal_row := t.terminal_row + 1, terminal_col := 0 }

theorem nextLine_row (h : Advances t s t1) (hstart : t.terminal_col = 0)
    (hrow : t.terminal_row.toNat + rowsOf s < 2 ^ 16) :
    (nextLine t1).terminal_row.toNat = t.terminal_row.toNat + rowsOf s := by
  have hrow1 := row_of_position h.column
  rw [h.cursor, position_of_start hstart] at hrow1
  unfold nextLine rowsOf vgaWidth at *
  dsimp only
  bv_omega

theorem laidOut_cons (h : Advances t s t1) (hstart : t.terminal_col = 0) (hrest : LaidOut (nextLine t1) lines t')
    (hlines : lines ≠ []) (hrow : t.terminal_row.toNat + rowsOf s < 2 ^ 16) : LaidOut t (s :: lines) t' := by
  have hpos := position_of_start hstart
  have hnext := nextLine_row h hstart hrow
  have hbehind : ∀ l, (t.terminal_row.toNat + rowsOf s) * vgaWidth ≤
      rowOf (t.terminal_row.toNat + rowsOf s) lines l * vgaWidth :=
    fun l => Nat.mul_le_mul_right _ (le_rowOf _ _ _)
  have hend : position t + s.length < (t.terminal_row.toNat + rowsOf s) * vgaWidth := by
    rw [hpos]
    unfold rowsOf vgaWidth
    omega
  obtain ⟨hcell, hothers, hcursor, hcolumn⟩ := hrest
  rw [hnext] at hcell hothers hcursor
  refine ⟨fun l hl j hj => ?_, fun i hi => ?_, ?_, hcolumn⟩
  · cases l with
    | zero =>
      have hj' : j < s.length := hj
      have hfirst : rowOf t.terminal_row.toNat (s :: lines) 0 * vgaWidth + j = position t + j := by
        rw [hpos]
        rfl
      rw [hfirst]
      refine (hothers _ fun l _ hin => ?_).trans (h.inside j hj')
      have := hbehind l
      omega
    | succ l =>
      rw [rowOf_succ]
      exact hcell l (by simpa using hl) j hj
  · refine (hothers i fun l hl => ?_).trans (h.outside i ?_)
    · have hl' := hi (l + 1) (by simpa using hl)
      rw [rowOf_succ] at hl'
      exact hl'
    · have h0 := hi 0 (by simp)
      rw [hpos]
      exact h0
  · obtain ⟨line, lines, rfl⟩ := List.exists_cons_of_ne_nil hlines
    rw [hcursor, List.length_cons, Nat.add_sub_cancel, List.length_cons, Nat.add_sub_cancel, ← rowOf_succ]
    rfl

/-- The rows that a text of lines takes. -/
def rowsOfText (s : List Byte) : Nat := ((s.splitOn newline).map rowsOf).sum

theorem writes_laidOut (hb : backspace ∉ s) (hstart : t.terminal_col = 0)
    (hrow : t.terminal_row.toNat + rowsOfText s < 2 ^ 16) : LaidOut t (s.splitOn newline) (writes t s) := by
  -- on the text, line after line
  induction hlen : s.length using Nat.strong_induction_on generalizing s t
  rename_i n ih
  have hcol : t.terminal_col.toNat < vgaWidth := by
    rw [hstart]
    decide
  have hpos := position_of_start hstart
  by_cases hn : newline ∈ s
  · -- the first line, and the text behind it
    obtain ⟨line, rest, rfl, hline⟩ := List.eq_append_cons_of_mem hn
    rw [List.mem_append, not_or, List.mem_cons, not_or] at hb
    unfold rowsOfText at hrow
    rw [List.splitOn_append_cons_self_of_not_mem hline] at hrow ⊢
    rw [List.map_cons, List.sum_cons] at hrow
    have hadvances : Advances t line (writes t line) := by
      refine writes_line hline hb.1 hcol ?_
      unfold rowsOf vgaWidth at *
      omega
    have hstep : writes t (line ++ newline :: rest) = writes (nextLine (writes t line)) rest := by
      rw [writes, List.foldl_append, List.foldl_cons]
      congr 1
      exact writechar_newline _ _
    have hline' : t.terminal_row.toNat + rowsOf line < 2 ^ 16 := by omega
    have hrest :
      LaidOut (nextLine (writes t line)) (rest.splitOn newline) (writes (nextLine (writes t line)) rest) := by
      refine ih rest.length ?_ hb.2.2 rfl ?_ rfl
      · rw [← hlen, List.length_append, List.length_cons]
        omega
      · rw [nextLine_row hadvances hstart hline', rowsOfText, Nat.add_assoc]
        exact hrow
    rw [hstep]
    exact laidOut_cons hadvances hstart hrest (List.splitOn_ne_nil _ _) hline'
  · unfold rowsOfText at hrow
    rw [List.splitOn_eq_singleton hn] at hrow ⊢
    refine laidOut_single (writes_line hn hb hcol ?_) hstart
    simp only [List.map_cons, List.map_nil, List.sum_cons, List.sum_nil] at hrow
    unfold rowsOf vgaWidth at *
    omega

/-- For every string without a backspace: `print` puts each of its lines on rows of its own, character for
character, changes no other cell, and leaves the cursor behind the last line. -/
theorem print_laidOut {str : CharPtr} {n : Nat} (hlen : strlen str = some n) (hb : backspace ∉ str.take n)
    (hstart : t.terminal_col = 0) (hrow : t.terminal_row.toNat + rowsOfText (str.take n) < 2 ^ 16) :
    ∃ t', t.print str = some t' ∧ LaidOut t ((str.take n).splitOn newline) t' := by
  refine ⟨writes t (str.take n), ?_, writes_laidOut hb hstart hrow⟩
  unfold Terminal.print
  rw [hlen]
  rfl

/-- Two lines. -/
theorem print_laidOut_twoLines : ∃ t', Terminal.print ⟨0, 0, fun _ => 0, []⟩ [0x41, 0x42, newline, 0x43, 0] = some t' ∧
    LaidOut ⟨0, 0, fun _ => 0, []⟩ ([0x41, 0x42, newline, 0x43].splitOn newline) t' := by
  have hlen : strlen [0x41, 0x42, newline, 0x43, 0] = some 4 := by decide
  have hrow : (0 : BitVec 16).toNat + rowsOfText [0x41, 0x42, newline, 0x43] < 2 ^ 16 := by decide
  exact print_laidOut hlen (by decide) rfl hrow

end MultitaskOs.PrintLayout
