import MultitaskOs.Code.Config
import MultitaskOs.Lib.Run

/-!
# `kernel.c`: the terminal
-/

open Lib.Memory Lib.Run

namespace MultitaskOs

def vgaWidth : Nat := 80
def vgaHeight : Nat := 20

/-- The cursor and the video memory, with the indexes written so far, the last one first. -/
structure Terminal where
  terminal_row : BitVec 16
  terminal_col : BitVec 16
  video_mem : Nat → BitVec 16
  written : List Nat

/-- The `char`s are signed. -/
def terminalMakeChar (c colour : Byte) : BitVec 16 := colour.signExtend 16 <<< 8 ||| c.signExtend 16

/-- `x` and `y` are a column and a row of 16 bits, so that no index is negative. -/
def terminalPutchar (t : Terminal) (x y : Nat) (c colour : Byte) : Terminal :=
  { t with
    video_mem := Function.update t.video_mem (y * vgaWidth + x) (terminalMakeChar c colour)
    written := (y * vgaWidth + x) :: t.written }

mutual

def terminalBackspace (t : Terminal) : Terminal :=
  if t.terminal_row = 0 ∧ t.terminal_col = 0 then t
  else
    let t :=
      if t.terminal_col = 0 then
        { t with terminal_row := t.terminal_row - 1, terminal_col := BitVec.ofNat 16 vgaWidth }
      else t
    let t := { t with terminal_col := t.terminal_col - 1 }
    let t := terminalWritechar t 0x20 15
    { t with terminal_col := t.terminal_col - 1 }
termination_by 1

def terminalWritechar (t : Terminal) (c colour : Byte) : Terminal :=
  if c = 0x0A then { t with terminal_row := t.terminal_row + 1, terminal_col := 0 }
  else if c = 0x08 then terminalBackspace t
  else
    let t := terminalPutchar t t.terminal_col.toNat t.terminal_row.toNat c colour
    let t := { t with terminal_col := t.terminal_col + 1 }
    if vgaWidth ≤ t.terminal_col.toNat then { t with terminal_col := 0, terminal_row := t.terminal_row + 1 } else t
termination_by if c = 0x08 then 2 else 0

end

def terminalInitialize (t : Terminal) : Terminal :=
  let t := { t with terminal_row := 0, terminal_col := 0 }
  forN vgaHeight (fun y t => forN vgaWidth (fun x t => terminalPutchar t x y 0x20 0) t) t

end MultitaskOs
