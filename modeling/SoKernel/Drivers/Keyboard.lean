import SoKernel.Ipc.Semaphore

/-!
# The keyboard driver

Embedding of `keyBoardDriver.c` up to the interrupt handler, which also kills processes
and stands in `SoKernel.Drivers.KeyboardInterrupt`.
-/

namespace SoKernel

open Function (update)

def bufferSize : ℕ := 256

def bufferFull (b : CircleBuffer) : Bool := decide (b.size = bufferSize)

def bufferEmpty (b : CircleBuffer) : Bool := decide (b.size = 0)

/-- `buffer_push`: whether there was room, with the new buffer. -/
def bufferPush (b : CircleBuffer) (c : UInt8) : Bool × CircleBuffer :=
  if bufferFull b then (false, b)
  else
    (true,
      { b with
        buffer := update b.buffer b.writeIndex c
        writeIndex := (b.writeIndex + 1) % bufferSize
        size := b.size + 1 })

/-- `buffer_pop`: the next character, or `0`. -/
def bufferPop (b : CircleBuffer) : UInt8 × CircleBuffer :=
  if bufferEmpty b then (0, b)
  else
    (b.buffer b.readIndex,
      { b with
        readIndex := (b.readIndex + 1) % bufferSize
        size := b.size - 1 })

def bufferClear (b : CircleBuffer) : CircleBuffer :=
  { b with
    readIndex := 0
    writeIndex := 0
    size := 0 }

def keyboardReadGetchar (k : Kernel) : UInt8 × Kernel :=
  let (c, b) := bufferPop k.keyboard
  (c, { k with keyboard := b })

def keyboardInit (k : Kernel) : Kernel :=
  if k.kbdSemId = 0 then
    let (id, k) := semAlloc k 0
    { k with kbdSemId := id }
  else k

def keyboardClearBuffer (k : Kernel) : Option Kernel :=
  let k := { k with keyboard := bufferClear k.keyboard }
  if k.kbdSemId ≠ 0 then (semSetById k k.kbdSemId 0).map fun r => r.2.2 else some k

end SoKernel
