import SoKernel.Ipc.SemTokens

/-!
# The writers and readers of an MVar

Embedding of `mvar_writer_entry` and `mvar_reader_entry` after they have copied their arguments,
one call after the other, and a machine in which any number of writers and readers of one call of
`mvarCmd` run among processes that do not use its semaphores and its pipe. The delays change
nothing but the time of the next call, and a context switch may come between any two calls.
-/

namespace SoKernel.Userland

open Function (update)
open SoKernel

section Entries

/-- The semaphores to which the names of a call of `mvarCmd` resolve, and its pipe with its entry
in the table. -/
structure MvarIds where
  slots : ℕ
  items : ℕ
  mutex : ℕ
  pipeId : ℕ
  entry : ℕ
  deriving DecidableEq

/-- The result is `-1` as an `int64_t`. -/
def Reply.minusOne (r : Reply) : Prop := r = .value (2 ^ 64 - 1)

instance (r : Reply) : Decidable (Reply.minusOne r) := inferInstanceAs (Decidable (r = _))

/-- The next call of `mvar_writer_entry`. -/
inductive WriterAt where
  | pipeOpen
  | pipeDup
  | waitSlots
  | waitMutex
  /-- In `sys_write`. -/
  | write
  | postMutex (written : Bool)
  | postItems
  /-- `leaves` after a failed wait for the mutex. -/
  | postSlots (leaves : Bool)
  | returned
  deriving DecidableEq

/-- The next call of `mvar_reader_entry`. -/
inductive ReaderAt where
  | pipeOpen
  | pipeDup
  | waitItems
  | waitMutex
  /-- In `sys_read`. -/
  | read
  /-- Before `sys_video_putChar`. -/
  | putChar (value : UInt8)
  | postMutex (got : Bool)
  | postSlots
  /-- `leaves` after a failed wait for the mutex. -/
  | postItems (leaves : Bool)
  | returned
  deriving DecidableEq

/-- The calls of a writer. `pipe_open` passes one argument to a system call with two. -/
def WriterCalls (ids : MvarIds) (writerId : UInt8) : WriterAt → IpcCall → Prop
  | .pipeOpen, c => c = .pipeOpen ids.pipeId false ∨ c = .pipeOpen ids.pipeId true
  | .pipeDup, c => c = .pipeOpen ids.pipeId true
  | .waitSlots, c => c = .semWait ids.slots
  | .waitMutex, c => c = .semWait ids.mutex
  | .write, c => c = .writeTurn ids.entry writerId
  | .postMutex _, c => c = .semSignal ids.mutex
  | .postItems, c => c = .semSignal ids.items
  | .postSlots _, c => c = .semSignal ids.slots
  | .returned, _ => False

def WriterAt.next : WriterAt → Reply → WriterAt
  | .pipeOpen, r => if r = .value 0 then .returned else .pipeDup
  | .pipeDup, r => if r = .value 0 then .returned else .waitSlots
  | .waitSlots, r => if Reply.minusOne r then .returned else .waitMutex
  | .waitMutex, r => if Reply.minusOne r then .postSlots true else .write
  -- `sys_write` returns with the byte written, or leaves its loop without it
  | .write, .moved _ => .postMutex true
  | .write, .ended | .write, .value _ => .postMutex false
  | .write, .again | .write, .blocked => .write
  | .postMutex written, _ => if written then .postItems else .postSlots false
  | .postItems, _ => .waitSlots
  | .postSlots leaves, _ => if leaves then .returned else .waitSlots
  | .returned, _ => .returned

/-- The calls of a reader on semaphores and pipes. -/
def ReaderCalls (ids : MvarIds) : ReaderAt → IpcCall → Prop
  | .pipeOpen, c => c = .pipeOpen ids.pipeId false ∨ c = .pipeOpen ids.pipeId true
  | .pipeDup, c => c = .pipeOpen ids.pipeId false
  | .waitItems, c => c = .semWait ids.items
  | .waitMutex, c => c = .semWait ids.mutex
  | .read, c => c = .readTurn ids.entry 0
  | .postMutex _, c => c = .semSignal ids.mutex
  | .postSlots, c => c = .semSignal ids.slots
  | .postItems _, c => c = .semSignal ids.items
  | .putChar _, _ | .returned, _ => False

def ReaderAt.next : ReaderAt → Reply → ReaderAt
  | .pipeOpen, r => if r = .value 0 then .returned else .pipeDup
  | .pipeDup, r => if r = .value 0 then .returned else .waitItems
  | .waitItems, r => if Reply.minusOne r then .returned else .waitMutex
  | .waitMutex, r => if Reply.minusOne r then .postItems true else .read
  | .read, .moved b => .putChar b
  | .read, .ended | .read, .value _ => .postMutex false
  | .read, .again | .read, .blocked => .read
  | .putChar _, _ => .postMutex true
  | .postMutex got, _ => if got then .postSlots else .postItems false
  | .postSlots, _ => .waitItems
  | .postItems leaves, _ => if leaves then .returned else .waitItems
  | .returned, _ => .returned

end Entries

section Machine

/-- What a process does for the MVar. -/
inductive MvarJob where
  | outside
  | writer (writerId : UInt8) (next : WriterAt)
  | reader (next : ReaderAt)
  deriving DecidableEq

/-- A call that uses neither the semaphores nor the pipe. -/
def Foreign (ids : MvarIds) : IpcCall → Prop
  | .semOpen a | .semClose a | .semWait a | .semSignal a | .semSet a _ =>
      a ≠ ids.slots ∧ a ≠ ids.items ∧ a ≠ ids.mutex
  | .pipeOpen id _ | .pipeClose id _ => id ≠ ids.pipeId
  | .readTurn i _ | .writeTurn i _ => i ≠ ids.entry
  | .semAlloc _ | .pipeCreate => True

inductive MvarActs (ids : MvarIds) : MvarJob → IpcCall → (Reply → MvarJob) → Prop
  | foreign {c : IpcCall} (foreign : Foreign ids c) : MvarActs ids .outside c fun _ => .outside
  | writer {writerId : UInt8} {here : WriterAt} {c : IpcCall} (calls : WriterCalls ids writerId here c) :
      MvarActs ids (.writer writerId here) c fun r => .writer writerId (here.next r)
  | reader {here : ReaderAt} {c : IpcCall} (calls : ReaderCalls ids here c) :
      MvarActs ids (.reader here) c fun r => .reader (here.next r)

def mvarProgram (ids : MvarIds) : Program MvarJob := fun _ => MvarActs ids

/-- The processes with the letters that the readers have put on the screen. -/
structure Mvar where
  ipc : Ipc MvarJob
  shown : List UInt8

/-- A writer or a reader that has not called anything. -/
inductive MvarJob.Entry : MvarJob → Prop
  | writer (writerId : UInt8) : Entry (.writer writerId .pipeOpen)
  | reader : Entry (.reader .pipeOpen)

inductive MvarStep (ids : MvarIds) (m : Mvar) : Option IpcEvent → Mvar → Prop
  /-- A call, or a context switch. -/
  | ipc {e : Option IpcEvent} {ipc' : Ipc MvarJob} (step : IpcStep (mvarProgram ids) m.ipc e ipc') :
      MvarStep ids m e ⟨ipc', m.shown⟩
  /-- `mvarCmd` has made a process. -/
  | enter {p : ℕ} {job : MvarJob} (outside : m.ipc.thread p = .outside) (entry : job.Entry) :
      MvarStep ids m none ⟨⟨m.ipc.kernel, update m.ipc.thread p job⟩, m.shown⟩
  | putChar {b : UInt8} (caller : Caller m.ipc.kernel)
      (here : m.ipc.thread m.ipc.kernel.current = .reader (.putChar b)) :
      MvarStep ids m none
        ⟨⟨m.ipc.kernel, update m.ipc.thread m.ipc.kernel.current (.reader (.postMutex true))⟩,
          m.shown ++ [b]⟩

inductive MvarRuns (ids : MvarIds) (start : Mvar) : List IpcEvent → Mvar → Prop
  | nil : MvarRuns ids start [] start
  | snoc {trace : List IpcEvent} {m : Mvar} {e : Option IpcEvent} {m' : Mvar}
      (run : MvarRuns ids start trace m) (step : MvarStep ids m e m') :
      MvarRuns ids start (trace ++ e.toList) m'

/-- What `mvarCmd` creates, if nothing of it fails: the semaphores of `my_sem_open` for names that
are not registered, and the pipe. -/
def mvarCreate (k : Kernel) : Option (MvarIds × Kernel) :=
  let (slots, k) := semAlloc k 1
  let (items, k) := semAlloc k 0
  let (mutex, k) := semAlloc k 1
  let (pipeId, k) := pipeCreate k
  if slots = 0 ∨ items = 0 ∨ mutex = 0 ∨ pipeId = 0 then none
  else (pipeGetById k pipeId).map fun entry => (⟨slots, items, mutex, pipeId, entry⟩, k)

/-- The machine when `mvarCmd` begins to make the processes. -/
def mvarStarted (k : Kernel) : Mvar := ⟨⟨k, fun _ => .outside⟩, []⟩

end Machine

section Observation

/-- The semaphores and the pipe as `mvarCmd` has created them. -/
structure MvarReady (k : Kernel) (ids : MvarIds) : Prop where
  slots : semValue k ids.slots = some 1 ∧ WaitQueue k ids.slots []
  items : semValue k ids.items = some 0 ∧ WaitQueue k ids.items []
  mutex : semValue k ids.mutex = some 1 ∧ WaitQueue k ids.mutex []
  apart : ids.slots ≠ ids.items ∧ ids.slots ≠ ids.mutex ∧ ids.items ≠ ids.mutex
  own : ¬PipeSem k ids.slots ∧ ¬PipeSem k ids.items ∧ ¬PipeSem k ids.mutex
  entry : ids.entry < maxPipes
  pipe : (k.pipes ids.entry).used = true ∧ (k.pipes ids.entry).id = ids.pipeId
  empty : (k.pipes ids.entry).readPos = 0 ∧ (k.pipes ids.entry).writePos = 0 ∧
    (k.pipes ids.entry).count = 0

/-- Between the wait for `slots` and the post of `items` or `slots`. -/
def WriterAt.Working : WriterAt → Prop
  | .waitMutex | .write | .postMutex _ | .postItems | .postSlots _ => True
  | .pipeOpen | .pipeDup | .waitSlots | .returned => False

/-- Between the wait for `items` and the post of `slots` or `items`. -/
def ReaderAt.Working : ReaderAt → Prop
  | .waitMutex | .read | .putChar _ | .postMutex _ | .postSlots | .postItems _ => True
  | .pipeOpen | .pipeDup | .waitItems | .returned => False

/-- The writer was granted `slots` and has posted neither semaphore since. -/
def WriterHolds (ids : MvarIds) (m : Mvar) (p : ℕ) : Prop :=
  (∃ writerId here, m.ipc.thread p = .writer writerId here ∧ here.Working) ∧
    ∀ L, WaitQueue m.ipc.kernel ids.slots L → p ∉ L

/-- The reader was granted `items` and has posted neither semaphore since. -/
def ReaderHolds (ids : MvarIds) (m : Mvar) (p : ℕ) : Prop :=
  (∃ here, m.ipc.thread p = .reader here ∧ here.Working) ∧
    ∀ L, WaitQueue m.ipc.kernel ids.items L → p ∉ L

end Observation

end SoKernel.Userland
