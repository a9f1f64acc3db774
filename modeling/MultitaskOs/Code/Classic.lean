import MultitaskOs.Code.Keyboard

/-!
# `keyboard/classic.c`
-/

open Lib.Memory

namespace MultitaskOs

/-- `KEYBOARD_CAPS_LOCK_STATE` -/
inductive CapsLock where
  | off
  | on
deriving DecidableEq

def classicKeyboardCapslock : Byte := 0x3A
def classicKeyboardKeyReleased : Byte := 0x80

def keyboardScanSetOne : List Byte :=
  [0x00, 0x1B, 0x31, 0x32, 0x33, 0x34, 0x35,
    0x36, 0x37, 0x38, 0x39, 0x30, 0x2D, 0x3D,
    0x08, 0x09, 0x51, 0x57, 0x45, 0x52, 0x54,
    0x59, 0x55, 0x49, 0x4F, 0x50, 0x5B, 0x5D,
    0x0D, 0x00, 0x41, 0x53, 0x44, 0x46, 0x47,
    0x48, 0x4A, 0x4B, 0x4C, 0x3B, 0x27, 0x60,
    0x00, 0x5C, 0x5A, 0x58, 0x43, 0x56, 0x42,
    0x4E, 0x4D, 0x2C, 0x2E, 0x2F, 0x00, 0x2A,
    0x00, 0x20, 0x00, 0x00, 0x00, 0x00,
    0x00, 0x00, 0x00, 0x00, 0x00, 0x00,
    0x00, 0x37, 0x38, 0x39, 0x2D, 0x34, 0x35,
    0x36, 0x2B, 0x31, 0x32, 0x33, 0x30, 0x2E]

/-- `none` is a read behind the table. -/
def classicKeyboardScancodeToChar (capslock_state : CapsLock) (scancode : Byte) : Option Byte :=
  let size_of_keyboard_set_one := keyboardScanSetOne.length
  if scancode.toNat > size_of_keyboard_set_one then some 0
  else do
    let c ← keyboardScanSetOne[scancode.toNat]?
    if capslock_state = .off then return if c ≥ 0x41 ∧ c ≤ 0x5A then c + 32 else c
    return c

/-- `keyboard_set_capslock` with the other state than `keyboard_get_capslock` gives. -/
def CapsLock.toggle : CapsLock → CapsLock
  | .on => .off
  | .off => .on

end MultitaskOs
