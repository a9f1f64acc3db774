import MultitaskOs.Code.Process

/-!
# `keyboard/keyboard.c`
-/

open Lib.Memory

namespace MultitaskOs

def keyboardGetTailIndex (p : Process) : Nat := p.keyboard.tail.toNat % keyboardBufferSize

def keyboardBackspace (k : Kernel) (process : Addr) : Kernel :=
  k.setProc process fun p =>
    let p := { p with keyboard := { p.keyboard with tail := p.keyboard.tail - 1 } }
    { p with
      keyboard := { p.keyboard with buffer := Function.update p.keyboard.buffer (keyboardGetTailIndex p) 0 } }

def keyboardPush (k : Kernel) (c : Byte) : Kernel :=
  let process := k.current_process
  if process = 0 then k
  else if c = 0 then k
  else
    k.setProc process fun p =>
      { p with
        keyboard :=
          { p.keyboard with
            buffer := Function.update p.keyboard.buffer (keyboardGetTailIndex p) c
            tail := p.keyboard.tail + 1 } }

def keyboardPop (k : Kernel) : Kernel × Byte :=
  if k.current_task = 0 then (k, 0)
  else
    let process := (k.tasks k.current_task).process
    let p := k.procs process
    let real_index := p.keyboard.head.toNat % keyboardBufferSize
    let c := p.keyboard.buffer real_index
    if c = 0 then (k, 0)
    else
      (k.setProc process fun p =>
        { p with
          keyboard :=
            { p.keyboard with
              buffer := Function.update p.keyboard.buffer real_index 0
              head := p.keyboard.head + 1 } }, c)

end MultitaskOs
