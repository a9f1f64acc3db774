import MultitaskOs.Code.Terminal

/-!
# The terminal

Where `terminal_writechar` writes, over whole texts, and what a backspace
undoes. Nothing scrolls, and a backspace at the start of a line goes wrong.
-/

open Lib.Memory Lib.Run

namespace MultitaskOs.Screen

variable {t : Terminal} {c : Byte}

/-! ## One character -/

def position (t : Terminal) : Nat := t.terminal_row.toNat * vgaWidth + t.terminal_col.toNat

/-- The character under the cursor, which stays. -/
def put (t : Terminal) (c colour : Byte) : Terminal :=
  terminalPutchar t t.terminal_col.toNat t.terminal_row.toNat c colour

@[simp] theorem put_row (t : Terminal) (c colour : Byte) : (put t c colour).terminal_row = t.terminal_row := rfl

@[simp] theorem put_col (t : Terminal) (c colour : Byte) : (put t c colour).terminal_col = t.terminal_col := rfl

@[simp] theorem put_written (t : Terminal) (c colour : Byte) :
    (put t c colour).written = position t :: t.written := rfl

@[simp] theorem writechar_newline (t : Terminal) (colour : Byte) :
    terminalWritechar t 0x0A colour = { t with terminal_row := t.terminal_row + 1, terminal_col := 0 } := by
  rw [terminalWritechar, if_pos rfl]

@[simp] theorem writechar_backspace (t : Terminal) (colour : Byte) :
    terminalWritechar t 0x08 colour = terminalBackspace t := by
  rw [terminalWritechar, if_neg (by decide), if_pos rfl]

theorem writechar_put (hn : c ≠ 0x0A) (hb : c ≠ 0x08) (colour : Byte) :
    terminalWritechar t c colour =
      if vgaWidth ≤ (t.terminal_col + 1).toNat then
        { put t c colour with terminal_row := t.terminal_row + 1, terminal_col := 0 }
      else { put t c colour with terminal_col := t.terminal_col + 1 } := by
  rw [terminalWritechar, if_neg hn, if_neg hb]
  rfl

theorem writechar_written (hn : c ≠ 0x0A) (hb : c ≠ 0x08) (colour : Byte) :
    (terminalWritechar t c colour).written = position t :: t.written := by
  rw [writechar_put hn hb]
  split <;> rfl

/-- The cursor one cell back, as `terminal_backspace` moves it. -/
def back (t : Terminal) : Terminal :=
  if t.terminal_col = 0 then
    { t with terminal_row := t.terminal_row - 1, terminal_col := BitVec.ofNat 16 vgaWidth - 1 }
  else { t with terminal_col := t.terminal_col - 1 }

theorem backspace_home (h : t.terminal_row = 0 ∧ t.terminal_col = 0) : terminalBackspace t = t := by
  rw [terminalBackspace, if_pos h]

theorem backspace_back (h : ¬ (t.terminal_row = 0 ∧ t.terminal_col = 0)) :
    terminalBackspace t = { terminalWritechar (back t) 0x20 15 with
      terminal_col := (terminalWritechar (back t) 0x20 15).terminal_col - 1 } := by
  rw [terminalBackspace, if_neg h]
  unfold back
  split <;> rfl

/-! ## Whole texts -/

def OnScreen (t : Terminal) : Prop := ∀ i ∈ t.written, i < vgaWidth * vgaHeight

def type (t : Terminal) (c : Byte × Byte) : Terminal := terminalWritechar t c.1 c.2

/-- Nothing is written behind the last row, and nothing at the column that a backspace at the
start of a line left. -/
def Fits (t : Terminal) (c : Byte × Byte) : Prop :=
  c.1 = 0x0A ∨ (c.1 = 0x08 ∧ t.terminal_col = 0 ∧ t.terminal_row.toNat ≤ vgaHeight) ∨
    (t.terminal_col ≠ 0xFFFF ∧ t.terminal_row.toNat < vgaHeight)

/-- Between characters the column is on the line, or went below 0. -/
structure Inv (t : Terminal) : Prop where
  onScreen : OnScreen t
  col : t.terminal_col.toNat < vgaWidth ∨ t.terminal_col = 0xFFFF

theorem OnScreen.cons {u : Terminal} {i : Nat} (h : OnScreen t) (hw : u.written = i :: t.written)
    (hi : i < vgaWidth * vgaHeight) : OnScreen u := by
  unfold OnScreen
  rw [hw, List.forall_mem_cons]
  exact ⟨hi, h⟩

theorem OnScreen.head {u : Terminal} {i : Nat} {is : List Nat} (h : OnScreen u) (hw : u.written = i :: is) :
    i < vgaWidth * vgaHeight := h i (hw ▸ List.mem_cons_self)

theorem writechar_col (hn : c ≠ 0x0A) (hb : c ≠ 0x08) (colour : Byte) :
    (terminalWritechar t c colour).terminal_col.toNat < vgaWidth := by
  rw [writechar_put hn hb]
  split
  · exact (by decide : (0 : BitVec 16).toNat < vgaWidth)
  · rename_i h
    exact not_le.mp h

theorem backspace_written (h : ¬ (t.terminal_row = 0 ∧ t.terminal_col = 0)) :
    (terminalBackspace t).written = position (back t) :: t.written := by
  rw [backspace_back h]
  have hw := writechar_written (t := back t) (c := 0x20) (by decide) (by decide) 15
  refine hw.trans (congrArg _ ?_)
  unfold back
  split <;> rfl

theorem position_back (h : ¬ (t.terminal_row = 0 ∧ t.terminal_col = 0)) : position (back t) + 1 = position t := by
  unfold back
  by_cases hc : t.terminal_col = 0
  · have hr : t.terminal_row ≠ 0 := fun hr => h ⟨hr, hc⟩
    rw [if_pos hc, position, position, hc]
    have hw : (BitVec.ofNat 16 vgaWidth - 1).toNat + 1 = vgaWidth := rfl
    have hrow : (t.terminal_row - 1).toNat + 1 = t.terminal_row.toNat := by bv_omega
    dsimp only
    rw [← hrow, Nat.succ_mul, Nat.add_assoc, hw]
    rfl
  · rw [if_neg hc, position, position]
    have hcol : (t.terminal_col - 1).toNat + 1 = t.terminal_col.toNat := by bv_omega
    dsimp only
    rw [Nat.add_assoc, hcol]

theorem backspace_col (h : ¬ (t.terminal_row = 0 ∧ t.terminal_col = 0)) :
    (terminalBackspace t).terminal_col =
      if vgaWidth ≤ ((back t).terminal_col + 1).toNat then 0xFFFF else (back t).terminal_col := by
  rw [backspace_back h, writechar_put (by decide) (by decide)]
  split
  · rfl
  · exact BitVec.add_sub_cancel _ _

theorem backspace_inv_col (h : t.terminal_col.toNat < vgaWidth ∨ t.terminal_col = 0xFFFF) :
    (terminalBackspace t).terminal_col.toNat < vgaWidth ∨ (terminalBackspace t).terminal_col = 0xFFFF := by
  by_cases hhome : t.terminal_row = 0 ∧ t.terminal_col = 0
  · rwa [backspace_home hhome]
  · rw [backspace_col hhome]
    split
    · exact Or.inr rfl
    · rename_i hw
      left
      have hback : (back t).terminal_col ≠ 0xFFFF := by
        unfold back
        split
        · exact (by decide : BitVec.ofNat 16 vgaWidth - 1 ≠ 0xFFFF)
        · dsimp only
          bv_omega
      unfold vgaWidth at *
      bv_omega

/-- Where a character that writes does so. -/
def target (t : Terminal) (c : Byte) : Nat := if c = 0x08 then position (back t) else position t

/-- A newline and a backspace at the home position write nothing. -/
def Writes (t : Terminal) (c : Byte) : Prop :=
  c ≠ 0x0A ∧ ¬ (c = 0x08 ∧ t.terminal_row = 0 ∧ t.terminal_col = 0)

theorem Writes.written (h : Writes t c) (colour : Byte) :
    (type t (c, colour)).written = target t c :: t.written := by
  unfold type target
  by_cases hb : c = 0x08
  · subst hb
    rw [if_pos rfl, writechar_backspace, backspace_written fun hhome => h.2 ⟨rfl, hhome⟩]
  · rw [if_neg hb, writechar_written h.1 hb]

theorem not_writes_written (h : ¬ Writes t c) (colour : Byte) : (type t (c, colour)).written = t.written := by
  unfold type
  by_cases hn : c = 0x0A
  · subst hn
    rw [writechar_newline]
  · have hhome : c = 0x08 ∧ t.terminal_row = 0 ∧ t.terminal_col = 0 := by
      by_contra hno
      exact h ⟨hn, hno⟩
    obtain ⟨rfl, hhome⟩ := hhome
    rw [writechar_backspace, backspace_home hhome]

theorem type_col (h : t.terminal_col.toNat < vgaWidth ∨ t.terminal_col = 0xFFFF) (c : Byte × Byte) :
    (type t c).terminal_col.toNat < vgaWidth ∨ (type t c).terminal_col = 0xFFFF := by
  obtain ⟨c, colour⟩ := c
  unfold type
  by_cases hn : c = 0x0A
  · subst hn
    rw [writechar_newline]
    exact Or.inl (by decide : (0 : BitVec 16).toNat < vgaWidth)
  · by_cases hb : c = 0x08
    · subst hb
      rw [writechar_backspace]
      exact backspace_inv_col h
    · exact Or.inl (writechar_col hn hb colour)

theorem Writes.target_iff (h : Writes t c) (hcol : t.terminal_col.toNat < vgaWidth ∨ t.terminal_col = 0xFFFF)
    (colour : Byte) : target t c < vgaWidth * vgaHeight ↔ Fits t (c, colour) := by
  have hpos : position t = t.terminal_row.toNat * 80 + t.terminal_col.toNat := rfl
  have hzero : t.terminal_col = 0 ↔ t.terminal_col.toNat = 0 := by bv_omega
  have hlast : t.terminal_col = 0xFFFF ↔ t.terminal_col.toNat = 0xFFFF := by bv_omega
  unfold target Fits
  rw [or_iff_right h.1, Ne, hlast, hzero]
  rw [hlast] at hcol
  unfold vgaWidth vgaHeight at *
  by_cases hb : c = 0x08
  · have hback := position_back fun hhome => h.2 ⟨hb, hhome⟩
    rw [if_pos hb]
    simp only [hb, true_and]
    omega
  · rw [if_neg hb]
    simp only [hb, false_and, false_or]
    omega

theorem Inv.type (h : Inv t) {c : Byte × Byte} (hf : Fits t c) : Inv (type t c) := by
  obtain ⟨c, colour⟩ := c
  refine ⟨?_, type_col h.col _⟩
  by_cases hw : Writes t c
  · exact h.onScreen.cons (hw.written colour) ((hw.target_iff h.col colour).mpr hf)
  · unfold OnScreen
    rw [not_writes_written hw]
    exact h.onScreen

theorem Inv.not_type (h : Inv t) {c : Byte × Byte} (hf : ¬ Fits t c) : ¬ OnScreen (Screen.type t c) := by
  obtain ⟨c, colour⟩ := c
  have hw : Writes t c := by
    refine ⟨fun hn => hf (Or.inl hn), fun hb => hf (Or.inr (Or.inl ?_))⟩
    obtain ⟨rfl, hrow, hcol⟩ := hb
    exact ⟨rfl, hcol, by rw [hrow]; decide⟩
  exact fun hon => hf ((hw.target_iff h.col colour).mp (hon.head (hw.written colour)))

def boot (video_mem : Nat → BitVec 16) : Terminal := ⟨0, 0, video_mem, []⟩

/-- While the screen is cleared the cursor stays at the home position. -/
structure Home (t : Terminal) : Prop where
  onScreen : OnScreen t
  row : t.terminal_row = 0
  col : t.terminal_col = 0

theorem Home.putchar (h : Home t) {x y : Nat} (hx : x < vgaWidth) (hy : y < vgaHeight) (c colour : Byte) :
    Home (terminalPutchar t x y c colour) := by
  refine ⟨h.onScreen.cons rfl ?_, h.row, h.col⟩
  unfold vgaWidth vgaHeight at *
  omega

theorem home_start (video_mem : Nat → BitVec 16) : Home (terminalInitialize (boot video_mem)) := by
  unfold terminalInitialize
  refine forN_of_inv (fun _ t => Home t) ⟨by simp [OnScreen, boot], rfl, rfl⟩ fun y t hy ht => ?_
  exact forN_of_inv (fun _ t => Home t) ht fun x t hx ht => ht.putchar hx hy _ _

theorem Home.inv (h : Home t) : Inv t := ⟨h.onScreen, Or.inl (by rw [h.col]; decide)⟩

/-- For every text: all of it is written on the screen exactly when every step fits. -/
theorem writechar_onScreen_iff (video_mem : Nat → BitVec 16) (text : List (Byte × Byte)) :
    Along type OnScreen (terminalInitialize (boot video_mem)) text ↔
      Each type Fits (terminalInitialize (boot video_mem)) text := by
  have hall : Each type (fun _ _ => True) (terminalInitialize (boot video_mem)) text :=
    each_iff_forall.mpr fun _ _ => trivial
  refine along_iff_each Inv ?_ ?_ ?_ (home_start video_mem).inv hall
  · exact fun t ht => ht.onScreen
  · exact fun t c ht _ hc => ht.type hc
  · exact fun t c ht _ hc => ht.not_type hc

theorem newlines_home (h : Home t) (n : Nat) :
    (run type t (List.replicate n (0x0A, 15))).terminal_row = BitVec.ofNat 16 n ∧
      (run type t (List.replicate n (0x0A, 15))).terminal_col = 0 := by
  induction n with
  | zero => exact ⟨h.row, h.col⟩
  | succ n ih =>
    rw [List.replicate_succ', run_append]
    rw [run_cons, run_nil, type, writechar_newline]
    refine ⟨?_, rfl⟩
    rw [ih.1, BitVec.ofNat_add]
    rfl

/-- Twenty newlines, and the next character is written behind the screen. -/
theorem writechar_leaves_screen :
    ¬ Along type OnScreen (terminalInitialize (boot fun _ => 0)) (List.replicate 20 (0x0A, 15) ++ [(0x41, 15)]) := by
  intro h
  have hend := (along_iff_take _).mp h _ le_rfl
  rw [List.take_length, run_append] at hend
  obtain ⟨hrow, hcol⟩ := newlines_home (home_start fun _ => 0) 20
  have hw := writechar_written (t := run type (terminalInitialize (boot fun _ => 0)) (List.replicate 20 (0x0A, 15)))
    (c := 0x41) (by decide) (by decide) 15
  have hlt := hend.head hw
  rw [position, hrow, hcol] at hlt
  exact absurd hlt (by decide)

/-! ## A backspace -/

/-- The cursor is where it was, on a blank, and nothing else has changed. -/
structure Undone (t u : Terminal) : Prop where
  row : u.terminal_row = t.terminal_row
  col : u.terminal_col = t.terminal_col
  blank : (u.video_mem (position t)).setWidth 8 = 0x20#8
  others : ∀ i, i ≠ position t → u.video_mem i = t.video_mem i

theorem backspace_put (hcol : t.terminal_col.toNat + 1 < vgaWidth) (colour : Byte) :
    terminalBackspace { put t c colour with terminal_col := t.terminal_col + 1 } =
      put (put t c colour) 0x20 15 := by
  have hcol0 : t.terminal_col + 1 ≠ 0 := by
    unfold vgaWidth at hcol
    bv_omega
  have hback : back { put t c colour with terminal_col := t.terminal_col + 1 } = put t c colour := by
    rw [back, if_neg hcol0]
    dsimp only
    rw [BitVec.add_sub_cancel]
    rfl
  have hnext : ¬ vgaWidth ≤ ((put t c colour).terminal_col + 1).toNat := by
    rw [put_col]
    unfold vgaWidth at *
    bv_omega
  rw [backspace_back fun hhome => hcol0 hhome.2, hback, writechar_put (by decide) (by decide), if_neg hnext]
  dsimp only
  rw [BitVec.add_sub_cancel]
  rfl

theorem writechar_undone (hcol : t.terminal_col.toNat + 1 < vgaWidth) (hn : c ≠ 0x0A) (hb : c ≠ 0x08)
    (colour colour' : Byte) : Undone t (terminalWritechar (terminalWritechar t c colour) 0x08 colour') := by
  have hnext : ¬ vgaWidth ≤ (t.terminal_col + 1).toNat := by
    unfold vgaWidth at *
    bv_omega
  rw [writechar_put hn hb, if_neg hnext, writechar_backspace, backspace_put hcol]
  refine ⟨rfl, rfl, ?_, fun i hi => ?_⟩
  · have hcell : (put (put t c colour) 0x20 15).video_mem (position t) = terminalMakeChar 0x20 15 :=
      Function.update_self _ _ _
    rw [hcell]
    decide
  · have h1 : (put (put t c colour) 0x20 15).video_mem i = (put t c colour).video_mem i :=
      Function.update_of_ne hi _ _
    have h2 : (put t c colour).video_mem i = t.video_mem i := Function.update_of_ne hi _ _
    rw [h1, h2]

/-- From the start of a line below the first a backspace takes the column below 0. -/
theorem backspace_start (hrow : t.terminal_row ≠ 0) (hcol : t.terminal_col = 0) :
    (terminalBackspace t).terminal_col = 0xFFFF := by
  rw [backspace_col fun hhome => hrow hhome.1, back, if_pos hcol]
  rfl

theorem backspace_col_iff (hcol : t.terminal_col.toNat < vgaWidth) :
    (terminalBackspace t).terminal_col.toNat < vgaWidth ↔ (t.terminal_col = 0 → t.terminal_row = 0) := by
  by_cases h0 : t.terminal_col = 0
  · by_cases hrow : t.terminal_row = 0
    · rw [backspace_home ⟨hrow, h0⟩]
      exact iff_of_true hcol fun _ => hrow
    · rw [backspace_start hrow h0]
      exact iff_of_false (by decide) fun h => hrow (h h0)
  · refine iff_of_true ?_ fun h => absurd h h0
    rw [backspace_col fun hhome => h0 hhome.2, back, if_neg h0]
    dsimp only
    rw [BitVec.sub_add_cancel, if_neg (not_le.mpr hcol)]
    unfold vgaWidth at *
    bv_omega

theorem writechar_end_not_undone (hcol : t.terminal_col.toNat + 1 = vgaWidth) (hn : c ≠ 0x0A) (hb : c ≠ 0x08)
    (colour colour' : Byte) : ¬ Undone t (terminalWritechar (terminalWritechar t c colour) 0x08 colour') := by
  intro hu
  have hnext : vgaWidth ≤ (t.terminal_col + 1).toNat := by
    unfold vgaWidth at *
    bv_omega
  have hback := hu.col
  rw [writechar_put hn hb, if_pos hnext, writechar_backspace] at hback
  by_cases hrow : t.terminal_row + 1 = 0
  · rw [backspace_home ⟨hrow, rfl⟩] at hback
    rw [← hback] at hcol
    exact absurd (show (0 : BitVec 16).toNat + 1 = vgaWidth from hcol) (by decide)
  · rw [backspace_start hrow rfl] at hback
    rw [← hback] at hcol
    exact absurd hcol (by decide)

/-- For every position on a line and every character that is put. -/
theorem backspace_undoes_iff (hcol : t.terminal_col.toNat < vgaWidth) (hn : c ≠ 0x0A) (hb : c ≠ 0x08)
    (colour colour' : Byte) :
    (Undone t (terminalWritechar (terminalWritechar t c colour) 0x08 colour') ↔
      t.terminal_col.toNat ≠ vgaWidth - 1) ∧
    ((terminalWritechar t 0x08 colour').terminal_col.toNat < vgaWidth ↔
      (t.terminal_col = 0 → t.terminal_row = 0)) := by
  rw [writechar_backspace t]
  refine ⟨⟨fun hu hend => ?_, fun hend => ?_⟩, backspace_col_iff hcol⟩
  · exact writechar_end_not_undone (by unfold vgaWidth at *; omega) hn hb colour colour' hu
  · exact writechar_undone (by unfold vgaWidth at *; omega) hn hb colour colour'

theorem backspace_undoes_home :
    (Undone (boot fun _ => 0) (terminalWritechar (terminalWritechar (boot fun _ => 0) 0x41 15) 0x08 15) ↔
      (boot fun _ => 0).terminal_col.toNat ≠ vgaWidth - 1) ∧
    ((terminalWritechar (boot fun _ => 0) 0x08 15).terminal_col.toNat < vgaWidth ↔
      ((boot fun _ => 0).terminal_col = 0 → (boot fun _ => 0).terminal_row = 0)) :=
  backspace_undoes_iff (by decide) (by decide) (by decide) 15 15

def lastColumn : Terminal := { boot (fun _ => 0) with terminal_col := 79 }

theorem backspace_lastColumn :
    ¬ Undone lastColumn (terminalWritechar (terminalWritechar lastColumn 0x41 15) 0x08 15) :=
  writechar_end_not_undone rfl (by decide) (by decide) 15 15

end MultitaskOs.Screen
