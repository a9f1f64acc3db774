import MultitaskOs.Code.Config

/-!
# `string/string.c`, `memory/memory.c`

A pointer into a string is the list of the bytes from it to the end of its
array. A read where there are none is `none`.
-/

open Lib.Memory

namespace MultitaskOs

abbrev CharPtr := List Byte

def strlen : CharPtr → Option Nat
  | [] => none
  | c :: ptr => if c = 0 then some 0 else (strlen ptr).map (· + 1)

def strnlen : CharPtr → Nat → Option Nat
  | _, 0 => some 0
  | [], _ + 1 => none
  | c :: ptr, max + 1 => if c = 0 then some 0 else (strnlen ptr max).map (· + 1)

def memcmp : CharPtr → CharPtr → Nat → Option Int
  | _, _, 0 => some 0
  | c1 :: s1, c2 :: s2, count + 1 =>
    if c1 ≠ c2 then some (if c1.toInt < c2.toInt then -1 else 1) else memcmp s1 s2 count
  | _, _, _ + 1 => none

def tolower (s1 : Byte) : Byte := if 65 ≤ s1.toInt ∧ s1.toInt ≤ 90 then s1 + 32 else s1

def istrncmp : CharPtr → CharPtr → Nat → Option Int
  | _, _, 0 => some 0
  | u1 :: s1, u2 :: s2, n + 1 =>
    if u1 ≠ u2 ∧ tolower u1 ≠ tolower u2 then some (u1.toNat - u2.toNat)
    else if u1 = 0 then some 0
    else istrncmp s1 s2 n
  | _, _, _ + 1 => none

def strncmp : CharPtr → CharPtr → Nat → Option Int
  | _, _, 0 => some 0
  | u1 :: s1, u2 :: s2, n + 1 =>
    if u1 ≠ u2 then some (u1.toNat - u2.toNat)
    else if u1 = 0 then some 0
    else strncmp s1 s2 n
  | _, _, _ + 1 => none

/-- The bytes it copies, without the 0 it puts behind them. -/
def strncpy : CharPtr → Nat → Option (List Byte)
  | _, 0 => some []
  | _, 1 => some []
  | [], _ + 2 => none
  | c :: src, count + 2 => if c = 0 then some [] else (strncpy src (count + 1)).map (c :: ·)

def isdigit (c : Byte) : Bool := decide (48 ≤ c.toInt ∧ c.toInt ≤ 57)

def tonumericdigit (c : Byte) : Int := c.toInt - 48

end MultitaskOs
