import MultitaskOs.Code.String

/-!
# `stdlib.c` and `stdio.c` of the programs' library

`none` is a read or a write outside an array, or an `int` that overflows.
-/

open Lib.Memory

namespace MultitaskOs

/-- An `int` that a signed operation yields. -/
def signedInt (x : Int) : Option Int := if -2 ^ 31 ≤ x ∧ x < 2 ^ 31 then some x else none

/-- `while(i)`, with `text[loc]` the byte that was written last. -/
def itoaLoop : Nat → Int → (Nat → Byte) → Option (Nat × (Nat → Byte))
  | loc, i, text =>
    if i = 0 then some (loc, text)
    else
      match loc with
      | 0 => none
      | loc + 1 => do
        let rest ← signedInt (i.tmod 10)
        let c ← signedInt (48 - rest)
        let text := Function.update text loc (BitVec.ofInt 8 c)
        let i ← signedInt (i.tdiv 10)
        itoaLoop loc i text

def prepend (c : Byte) : Nat × (Nat → Byte) → Option (Nat × (Nat → Byte))
  | (0, _) => none
  | (loc + 1, text) => some (loc, Function.update text loc c)

/-- `loc` and the static `text`, whose bytes from before are the argument. The pointer returned is
`&text[loc]`. -/
def itoa (text : Nat → Byte) (i : Int) : Option (Nat × (Nat → Byte)) := do
  let text := Function.update text 11 0
  let neg := !decide (i ≥ 0)
  let i ← (if i ≥ 0 then signedInt (-i) else some i)
  let r ← itoaLoop 11 i text
  let r ← (if r.1 = 11 then prepend 48 r else some r)
  (if neg then prepend 45 r else some r)

def textFrom (r : Nat × (Nat → Byte)) : CharPtr := (List.range (12 - r.1)).map fun j => r.2 (r.1 + j)

/-! ## `printf` -/

/-- A `char *`: into an array that nothing here writes, whose bytes from there on are given, or to
`text[loc]`. -/
inductive StrPtr where
  | array (s : CharPtr)
  | text (loc : Nat)

def StrPtr.bytes (text : Nat → Byte) : StrPtr → CharPtr
  | .array s => s
  | .text loc => textFrom (loc, text)

def StrPtr.next : StrPtr → StrPtr
  | .array s => .array s.tail
  | .text loc => .text (loc + 1)

inductive VaArg where
  | int (i : Int)
  | ptr (s : StrPtr)

/-- What the system calls were given to show, and the static `text` of `itoa`. -/
structure Stdio where
  shown : List Byte
  text : Nat → Byte

def putchar (c : Byte) (o : Stdio) : Stdio := { o with shown := o.shown ++ [c] }

/-- A string is shown up to its terminator. -/
def print (s : StrPtr) (o : Stdio) : Option Stdio := do
  let length ← strlen (s.bytes o.text)
  return { o with shown := o.shown ++ (s.bytes o.text).take length }

def percent : Byte := 0x25

/-- The loop from `p` on, of which `n` bytes may be read. -/
def printfLoop : Nat → StrPtr → List VaArg → Stdio → Option Stdio
  | 0, _, _, _ => none
  | n + 1, p, ap, o =>
    match (p.bytes o.text).head? with
    | none => none
    | some c =>
      if c = 0 then some o
      else if c ≠ percent then printfLoop n p.next ap (putchar c o)
      else
        match n with
        | 0 => none
        | n + 1 =>
          match (p.next.bytes o.text).head? with
          | none => none
          | some x =>
            if x = 0x69 then
              match ap with
              | .int ival :: ap => do
                let r ← itoa o.text ival
                let o ← print (.text r.1) { o with text := r.2 }
                printfLoop n p.next.next ap o
              | _ => none
            else if x = 0x73 then
              match ap with
              | .ptr sval :: ap => do
                let o ← print sval o
                printfLoop n p.next.next ap o
              | _ => none
            else printfLoop n p.next.next ap (putchar x o)

/-- A read past the end of the array that holds the format is `none`. -/
def printf (fmt : StrPtr) (ap : List VaArg) (o : Stdio) : Option Stdio :=
  printfLoop (fmt.bytes o.text).length fmt ap o

end MultitaskOs
