import MultitaskOs.Code.Config

/-!
# `multitaskos_terminal_readline`, of the programs' library

The keys are what `multitaskos_getkeyblock` returns, one after the other.
-/

open Lib.Memory

namespace MultitaskOs

/-- The array `out`, with the places written in it and the index, and what was read and shown. -/
structure Line where
  out : Int → Byte
  written : List Int
  i : Int
  read : List Byte
  shown : List Byte

def Line.set (l : Line) (i : Int) (c : Byte) : Line :=
  { l with out := Function.update l.out i c, written := i :: l.written }

/-- A turn of the loop on a key that is no carriage return, with the `i++` at its end. -/
def readlineTurn (output_while_typing : Bool) (key : Byte) (l : Line) : Line :=
  let l := { l with read := l.read ++ [key] }
  let l := if output_while_typing then { l with shown := l.shown ++ [key] } else l
  if key = 0x08 ∧ l.i ≥ 1 then
    let l := l.set (l.i - 1) 0
    let l := { l with i := l.i - 2 }
    { l with i := l.i + 1 }
  else
    let l := l.set l.i key
    { l with i := l.i + 1 }

/-- The loop, and the terminator behind it. The flag says that it has returned, and not run out of
keys. -/
def readlineLoop (max : Int) (output_while_typing : Bool) : List Byte → Line → Line × Bool
  | [], l => if l.i < max - 1 then (l, false) else (l.set l.i 0, true)
  | key :: keys, l =>
    if l.i < max - 1 then
      if key = 13 then (l.set l.i 0, true)
      else readlineLoop max output_while_typing keys (readlineTurn output_while_typing key l)
    else (l.set l.i 0, true)

def multitaskosTerminalReadline (out : Int → Byte) (max : Int) (output_while_typing : Bool) (keys : List Byte) :
    Line × Bool :=
  readlineLoop max output_while_typing keys ⟨out, [], 0, [], []⟩

end MultitaskOs
