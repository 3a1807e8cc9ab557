import SoKernel.Ipc.PipeEnds

/-!
# Descriptors of pipes

Embedding of `syscall_pipe_dup` and `syscall_pipe_release_fd`, and the calls that take and
drop references to pipes. Which process runs next is left open here: any process that
exists may be made current between two calls, and any other may be collected.
-/

namespace SoKernel

open Function (update)

/-- The block of both system calls that closes the pipe of an entry. -/
def closeEntryPipe (k : Kernel) (p fd : ℕ) : Option Kernel :=
  match k.fdType p fd with
  | .terminal => some k
  | type =>
      match k.fdPipe p fd with
      | none => some k
      | some pipe =>
          if (k.pipes pipe).id = 0 then some k
          else (pipeCloseById k (k.pipes pipe).id (type = .pipeWrite)).map Prod.snd

/-- The end of `syscall_pipe_dup`, for the mode that was asked for. -/
def openEntry (k : Kernel) (p fd pipeId pipe : ℕ) (isWriter : Bool) : Option (ℕ × Kernel) := do
  let type := if isWriter then .pipeWrite else .pipeRead
  let k := setFd k p fd type (k.fdPipe p fd)
  let (opened, k) ← pipeOpenById k pipeId isWriter
  some (if opened = 0 then (0, k) else (1, setFd k p fd type (some pipe)))

def syscallPipeDup (k : Kernel) (pipeId fd mode : ℕ) : Option (ℕ × Kernel) :=
  if maxFds ≤ fd then some (0, k)
  else if k.current = 0 then some (0, k)
  else
    match pipeGetById k pipeId with
    | none => some (0, k)
    | some pipe => do
        let p := k.current
        let k ← closeEntryPipe k p fd
        let k := if k.fdType p fd = .terminal then k else setFd k p fd (k.fdType p fd) none
        if mode = 0 then openEntry k p fd pipeId pipe false
        else if mode = 1 then openEntry k p fd pipeId pipe true
        else some (0, k)

def syscallPipeReleaseFd (k : Kernel) (fd : ℕ) : Option (ℕ × Kernel) :=
  if maxFds ≤ fd then some (0, k)
  else if k.current = 0 then some (0, k)
  else do
    let k' ← closeEntryPipe k k.current fd
    some (1, setFd k' k.current fd .terminal none)

/-- The calls that take or drop references to pipes, and the choices of the scheduler. -/
inductive FdCall where
  | pipeCreate
  /-- `process_create`. -/
  | createProcess (r : SpawnRequest)
  | pipeDup (pipeId fd mode : ℕ)
  | releaseFd (fd : ℕ)
  /-- `scheduler_finish_current`. -/
  | exit
  /-- `scheduler_kill_by_pid`, when it has found its process. -/
  | kill (p : ℕ)
  /-- `process_destroy`, which `schedule` calls. -/
  | destroy (p : ℕ)
  /-- `schedule` makes another process current. -/
  | switchTo (p : ℕ)

def fdExec (k : Kernel) : FdCall → Option Kernel
  | .pipeCreate => some (pipeCreate k).2
  | .createProcess r => (processCreate k r).map Prod.snd
  | .pipeDup pipeId fd mode => (syscallPipeDup k pipeId fd mode).map Prod.snd
  | .releaseFd fd => (syscallPipeReleaseFd k fd).map Prod.snd
  | .exit => schedulerFinishCurrent k
  | .kill p => killProcess k p
  | .destroy p => processDestroy k p
  | .switchTo p => some { k with current := p }

/-- What the callers guarantee: `mm_alloc` returns unused memory, a kill has found a process,
and `schedule` dispatches a process that exists and collects processes that do not run. -/
def FdPromise (k : Kernel) : FdCall → Prop
  | .createProcess r => ValidRequest k r
  | .kill p => k.allocated p = true
  | .destroy p => k.allocated p = true ∧ p ≠ k.current
  | .switchTo p => k.allocated p = true
  | .pipeCreate | .pipeDup _ _ _ | .releaseFd _ | .exit => True

/-- The states that the calls reach. -/
inductive FdReach (start : Kernel) : Kernel → Prop
  | start : FdReach start start
  | step {k c k'} (before : FdReach start k) (promise : FdPromise k c) (call : fdExec k c = some k') :
      FdReach start k'

end SoKernel
