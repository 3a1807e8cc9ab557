import SoKernel.Ipc.Pipe
import SoKernel.Proc.Open

/-!
# Calls of several processes on semaphores and pipes

Embedding of `pipe_read` and `pipe_write`, one turn of their loops at a time, and a machine
in which any number of processes make calls on semaphores and pipes. A turn that has to wait
ends in a context switch, and the scheduler picks any ready process. In the kernel a process
makes several turns before another one runs, so that the runs here are more than those of
the kernel.
-/

namespace SoKernel

open Function (update)

/-- How a call, or a turn of a loop, ends for its caller. -/
inductive Reply where
  /-- The call returns. -/
  | value (n : ℕ)
  /-- The turn has moved a byte. -/
  | moved (b : UInt8)
  /-- The turn has taken a token, and the loop goes on. -/
  | again
  /-- The loop is left. -/
  | ended
  /-- The caller is in a wait queue and will block. When it runs again, `sem_wait_by_id`
  returns `1`. -/
  | blocked
  deriving DecidableEq

section Turns

/-- A turn of the loop of `pipe_read`; `none` for a wait for the mutex. -/
def pipeReadTurn (k : Kernel) (i bytesRead : ℕ) : Option (Kernel × Reply) :=
  match semWaitStart k (k.pipes i).mutex with
  | (k, .failed) => some (k, .ended)
  | (_, .queued) => none
  | (k, .taken) =>
      let p := k.pipes i
      if p.count = 0 ∧ p.writers = 0 then do
        let k ← semSignal k p.mutex
        some (k, .ended)
      else if 0 < p.count then do
        let k := setPipe k i
          { p with
            readPos := (p.readPos + 1) % pipeBufferSize
            count := p.count - 1 }
        let k ← semSignal k (k.pipes i).mutex
        let k ← semSignal k (k.pipes i).semSpaces
        some (k, .moved (p.buffer p.readPos))
      else if 0 < bytesRead then do
        let k ← semSignal k p.mutex
        some (k, .ended)
      else do
        let k ← semSignal k p.mutex
        match semWaitStart k (k.pipes i).semItems with
        | (k, .failed) => some (k, .ended)
        | (k, .taken) => some (k, .again)
        | (k, .queued) => some (k, .blocked)

/-- A turn of the loop of `pipe_write` with the next byte of the caller's buffer; `none` for
a wait for the mutex. -/
def pipeWriteTurn (k : Kernel) (i : ℕ) (b : UInt8) : Option (Kernel × Reply) :=
  match semWaitStart k (k.pipes i).mutex with
  | (k, .failed) => some (k, .ended)
  | (_, .queued) => none
  | (k, .taken) =>
      let p := k.pipes i
      if p.readers = 0 then do
        let k ← semSignal k p.mutex
        some (k, .ended)
      else if p.count < pipeBufferSize then do
        let k := setPipe k i
          { p with
            buffer := update p.buffer p.writePos b
            writePos := (p.writePos + 1) % pipeBufferSize
            count := p.count + 1 }
        let k ← semSignal k (k.pipes i).mutex
        let k ← semSignal k (k.pipes i).semItems
        some (k, .moved b)
      else do
        let k ← semSignal k p.mutex
        match semWaitStart k (k.pipes i).semSpaces with
        | (k, .failed) => some (k, .ended)
        | (k, .taken) => some (k, .again)
        | (k, .queued) => some (k, .blocked)

end Turns

section Machine

inductive IpcCall where
  | semAlloc (initialValue : ℤ)
  | semOpen (id : ℕ)
  | semClose (id : ℕ)
  | semWait (id : ℕ)
  | semSignal (id : ℕ)
  | semSet (id : ℕ) (newval : ℤ)
  | pipeCreate
  | pipeOpen (id : ℕ) (isWriter : Bool)
  | pipeClose (id : ℕ) (isWriter : Bool)
  /-- A turn of `pipe_read` on the pipe with the given entry. -/
  | readTurn (i bytesRead : ℕ)
  /-- A turn of `pipe_write` on the pipe with the given entry. -/
  | writeTurn (i : ℕ) (b : UInt8)
  deriving DecidableEq

/-- A call up to its context switch. -/
def ipcExec (k : Kernel) : IpcCall → Option (Kernel × Reply)
  | .semAlloc v =>
      let (id, k) := semAlloc k v
      some (k, .value id)
  | .semOpen id =>
      let (r, k) := semOpenById k id
      some (k, .value r)
  | .semClose id =>
      let (r, k) := semCloseById k id
      some (k, .value r)
  | .semWait id =>
      match semWaitStart k id with
      | (k, .failed) => some (k, .value 0)
      | (k, .taken) => some (k, .value 1)
      | (k, .queued) => some (k, .blocked)
  | .semSignal id => (semSignalById k id).map fun (r, _, k) => (k, .value r)
  | .semSet id v => (semSetById k id v).map fun (r, _, k) => (k, .value r)
  | .pipeCreate =>
      let (id, k) := pipeCreate k
      some (k, .value id)
  | .pipeOpen id isWriter => (pipeOpenById k id isWriter).map fun (r, k) => (k, .value r)
  | .pipeClose id isWriter => (pipeCloseById k id isWriter).map fun (r, k) => (k, .value r)
  | .readTurn i n => pipeReadTurn k i n
  | .writeTurn i b => pipeWriteTurn k i b

/-- The semaphore belongs to a pipe. -/
def PipeSem (k : Kernel) (id : ℕ) : Prop :=
  ∃ i < maxPipes, (k.pipes i).used = true ∧
    (id = (k.pipes i).semItems ∨ id = (k.pipes i).semSpaces ∨ id = (k.pipes i).mutex)

/-- The semaphores of pipes are used by pipes only, and descriptors point to entries of the
table. -/
def IpcPromise (k : Kernel) : IpcCall → Prop
  | .semOpen id | .semClose id | .semWait id | .semSignal id | .semSet id _ => ¬PipeSem k id
  | .readTurn i _ | .writeTurn i _ => i < maxPipes
  | _ => True

/-- The processes, each with a state of its own. -/
structure Ipc (σ : Type) where
  kernel : Kernel
  thread : ℕ → σ

/-- What processes do: a process in a state of its own may make a call, and its state then
depends on the reply. -/
abbrev Program (σ : Type) := ℕ → σ → IpcCall → (Reply → σ) → Prop

structure IpcEvent where
  caller : ℕ
  call : IpcCall
  reply : Reply
  deriving DecidableEq

variable {σ : Type}

inductive IpcStep (prog : Program σ) (m : Ipc σ) : Option IpcEvent → Ipc σ → Prop
  | call {c next k' r} (caller : Caller m.kernel)
      (acts : prog m.kernel.current (m.thread m.kernel.current) c next)
      (promise : IpcPromise m.kernel c) (step : ipcExec m.kernel c = some (k', r))
      (runs : r ≠ .blocked) :
      IpcStep prog m (some ⟨m.kernel.current, c, r⟩)
        ⟨k', update m.thread m.kernel.current (next r)⟩
  | block {c next k₁ ch k'} (caller : Caller m.kernel)
      (acts : prog m.kernel.current (m.thread m.kernel.current) c next)
      (promise : IpcPromise m.kernel c) (step : ipcExec m.kernel c = some (k₁, .blocked))
      (pick : SwitchPromise (schedulerBlockCurrent k₁) ch) (nobody : ch.dead = [])
      (switch : switchBy (schedulerBlockCurrent k₁) ch = some k') :
      IpcStep prog m (some ⟨m.kernel.current, c, .blocked⟩)
        ⟨k', update m.thread m.kernel.current (next .blocked)⟩
  | switch {ch k'} (pick : SwitchPromise m.kernel ch) (nobody : ch.dead = [])
      (switch : switchBy m.kernel ch = some k') : IpcStep prog m none ⟨k', m.thread⟩
  | resched {s} : IpcStep prog m none ⟨m.kernel.resched s, m.thread⟩

/-- The runs from a state: the calls made so far and the state reached. -/
inductive IpcRun (prog : Program σ) (start : Ipc σ) : List IpcEvent → Ipc σ → Prop
  | nil : IpcRun prog start [] start
  | snoc {trace m e m'} (run : IpcRun prog start trace m) (step : IpcStep prog m e m') :
      IpcRun prog start (trace ++ e.toList) m'

/-- The runs all of whose steps meet a condition on the states around the step. -/
inductive IpcRunVia (prog : Program σ) (ok : Ipc σ → Option IpcEvent → Ipc σ → Prop) (start : Ipc σ) :
    List IpcEvent → Ipc σ → Prop
  | nil : IpcRunVia prog ok start [] start
  | snoc {trace m e m'} (run : IpcRunVia prog ok start trace m) (step : IpcStep prog m e m')
      (meets : ok m e m') : IpcRunVia prog ok start (trace ++ e.toList) m'

theorem IpcRun.call {prog : Program σ} {start m : Ipc σ} {trace : List IpcEvent} {c : IpcCall}
    {next : Reply → σ} {k' : Kernel} {r : Reply} {p : ℕ} (run : IpcRun prog start trace m)
    (running : m.kernel.current = p) (caller : Caller m.kernel) (acts : prog p (m.thread p) c next)
    (promise : IpcPromise m.kernel c) (step : ipcExec m.kernel c = some (k', r))
    (runs : r ≠ .blocked) :
    IpcRun prog start (trace ++ [⟨p, c, r⟩]) ⟨k', update m.thread p (next r)⟩ := by
  subst running
  exact run.snoc (.call caller acts promise step runs)

end Machine
end SoKernel
