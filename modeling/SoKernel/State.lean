import Mathlib.Algebra.GroupWithZero.Nat
import Mathlib.Data.Int.Notation
import Mathlib.Data.Nat.Notation
import Mathlib.Logic.Function.Basic

/-!
# The state of the kernel

The static variables of `Kernel/proc`, `Kernel/ipc`, `Kernel/drivers` and `Kernel/time`,
and the process control blocks they point to. A field of `struct process_control_block`
is a function of the address of the block; the null pointer is `0`. The memory of a
destroyed process keeps its contents until a new process is created there.

All kernel entries go through interrupt gates, so an entry runs alone up to its next
context switch. The spin lock of a semaphore is taken and given back inside one entry,
is therefore always free when it is taken, and is left out.
-/

namespace SoKernel

open Function (update)

/-- `process_state_t`. -/
inductive ProcessState where
  | new
  | ready
  | running
  | blocked
  | finished
  deriving DecidableEq, Repr

/-- `fd_type_t`. -/
inductive FdType where
  | terminal
  | pipeRead
  | pipeWrite
  deriving DecidableEq, Repr

/-- Every value written to `priority` and `base_priority` lies between
`PROCESS_PRIORITY_MIN` and `PROCESS_PRIORITY_MAX`. -/
abbrev Priority := Fin 3

/-- Numerals denote priorities. -/
instance Priority.neZero : NeZero 3 := ⟨Nat.succ_ne_zero 2⟩

def processPriorityMax : ℕ := 2

def processPriorityDefault : Priority := 1

def maxFds : ℕ := 16

/-- The queues of `scheduler.c`. -/
inductive QueueId where
  | ready (priority : Priority)
  | blocked
  | finished
  deriving DecidableEq, Repr

/-- `process_queue_t`. -/
structure ProcessQueue where
  head : ℕ
  tail : ℕ
  size : ℕ
  deriving DecidableEq, Repr

/-- `semaphore_t`. -/
structure Semaphore where
  id : ℕ
  value : ℤ
  refcount : ℤ
  waitHead : ℕ
  waitTail : ℕ
  used : Bool
  deriving DecidableEq, Repr

def maxSemaphores : ℕ := 64

/-- `struct pipe_t`. -/
structure Pipe where
  id : ℕ
  buffer : ℕ → UInt8
  readPos : ℕ
  writePos : ℕ
  count : ℕ
  readers : ℤ
  writers : ℤ
  semItems : ℕ
  semSpaces : ℕ
  mutex : ℕ
  used : Bool

def maxPipes : ℕ := 64

def pipeBufferSize : ℕ := 4096

/-- `TCircleBuffer`. -/
structure CircleBuffer where
  buffer : ℕ → UInt8
  readIndex : ℕ
  writeIndex : ℕ
  size : ℕ

structure Kernel where
  pid : ℕ → ℕ
  state : ℕ → ProcessState
  priority : ℕ → Priority
  basePriority : ℕ → Priority
  waitTicks : ℕ → ℕ
  rsp : ℕ → ℕ
  rbp : ℕ → ℕ
  waitingOnPid : ℕ → ℕ
  isForeground : ℕ → Bool
  parent : ℕ → ℕ
  firstChild : ℕ → ℕ
  nextSibling : ℕ → ℕ
  prevSibling : ℕ → ℕ
  queueNext : ℕ → ℕ
  queuePrev : ℕ → ℕ
  waitersHead : ℕ → ℕ
  waiterNext : ℕ → ℕ
  waitingOnSem : ℕ → ℕ
  semWaiterNext : ℕ → ℕ
  fdType : ℕ → ℕ → FdType
  /-- The entry of the pipe table that a descriptor points to. -/
  fdPipe : ℕ → ℕ → Option ℕ
  nextPid : ℕ
  /-- The process control blocks that were obtained from `mm_alloc` and not yet freed. -/
  allocated : ℕ → Bool
  needResched : Bool
  queues : QueueId → ProcessQueue
  current : ℕ
  idleP : ℕ
  lastSwitchTick : ℕ
  ticks : ℕ
  semaphores : ℕ → Semaphore
  nextSemId : ℕ
  pipes : ℕ → Pipe
  nextPipeId : ℕ
  keyboard : CircleBuffer
  kbdSemId : ℕ
  activeShift : Bool
  activeCapsLock : Bool
  activeCtrl : Bool
  keyStates : ℕ → Bool

/-- The number of addresses, which bounds every walk that ends. -/
@[irreducible] def addressCount : ℕ := 2 ^ 64

theorem addressCount_pos : 0 < addressCount := by
  unfold addressCount
  decide

/-- The kernel as it is loaded: static variables hold zeros or their initializers. -/
def bootKernel : Kernel where
  pid := fun _ => 0
  state := fun _ => .new
  priority := fun _ => 0
  basePriority := fun _ => 0
  waitTicks := fun _ => 0
  rsp := fun _ => 0
  rbp := fun _ => 0
  waitingOnPid := fun _ => 0
  isForeground := fun _ => false
  parent := fun _ => 0
  firstChild := fun _ => 0
  nextSibling := fun _ => 0
  prevSibling := fun _ => 0
  queueNext := fun _ => 0
  queuePrev := fun _ => 0
  waitersHead := fun _ => 0
  waiterNext := fun _ => 0
  waitingOnSem := fun _ => 0
  semWaiterNext := fun _ => 0
  fdType := fun _ _ => .terminal
  fdPipe := fun _ _ => none
  nextPid := 1
  allocated := fun _ => false
  needResched := false
  queues := fun _ => ⟨0, 0, 0⟩
  current := 0
  idleP := 0
  lastSwitchTick := 0
  ticks := 0
  semaphores := fun _ => ⟨0, 0, 0, 0, 0, false⟩
  nextSemId := 1
  pipes := fun _ => ⟨0, fun _ => 0, 0, 0, 0, 0, 0, 0, 0, 0, false⟩
  nextPipeId := 1
  keyboard := ⟨fun _ => 0, 0, 0, 0⟩
  kbdSemId := 0
  activeShift := false
  activeCapsLock := false
  activeCtrl := false
  keyStates := fun _ => false

end SoKernel
