import SoKernel.Ipc.Pipe

/-!
# Creation and destruction of processes

Embedding of `process_create`, `process_destroy` and `process_close_fds`. The addresses
that `mm_alloc` returns are arguments of the creation; the name, the entry point and the
contents of the first stack frame are read by no modelled function and are left out.
-/

namespace SoKernel

open Function (update)

/-- The arguments of `scheduler_spawn_process`, and the results of the two calls of
`mm_alloc` that it makes, `0` for a failure. -/
structure SpawnRequest where
  entryPoint : ℕ
  parent : ℕ
  priority : ℕ
  isForeground : Bool
  stdinPipeId : ℕ
  stdoutPipeId : ℕ
  pcb : ℕ
  stack : ℕ
  deriving DecidableEq, Repr

def processKernelStackSize : ℕ := 4 * 4096

/-- The stack pointer that `setup_process_context` returns: twenty words below the aligned
top of the stack. -/
def setupProcessContext (stackTop : ℕ) : ℕ := stackTop / 16 * 16 - 20 * 8

def setFd (k : Kernel) (p i : ℕ) (type : FdType) (pipe : Option ℕ) : Kernel :=
  { k with
    fdType := update k.fdType p (update (k.fdType p) i type)
    fdPipe := update k.fdPipe p (update (k.fdPipe p) i pipe) }

/-- `memset(p, 0, sizeof(*p))`. -/
def clearPcb (k : Kernel) (p : ℕ) : Kernel :=
  { k with
    pid := update k.pid p 0
    state := update k.state p .new
    priority := update k.priority p 0
    basePriority := update k.basePriority p 0
    waitTicks := update k.waitTicks p 0
    rsp := update k.rsp p 0
    rbp := update k.rbp p 0
    waitingOnPid := update k.waitingOnPid p 0
    isForeground := update k.isForeground p false
    parent := update k.parent p 0
    firstChild := update k.firstChild p 0
    nextSibling := update k.nextSibling p 0
    prevSibling := update k.prevSibling p 0
    queueNext := update k.queueNext p 0
    queuePrev := update k.queuePrev p 0
    waitersHead := update k.waitersHead p 0
    waiterNext := update k.waiterNext p 0
    waitingOnSem := update k.waitingOnSem p 0
    semWaiterNext := update k.semWaiterNext p 0
    fdType := update k.fdType p fun _ => .terminal
    fdPipe := update k.fdPipe p fun _ => none }

/-- The two blocks of `process_create` that attach a pipe to a standard descriptor. -/
def attachPipe (k : Kernel) (p fd pipeId : ℕ) (isWriter : Bool) : Option Kernel :=
  if pipeId = 0 then some k
  else
    match pipeGetById k pipeId with
    | none => some k
    | some i => do
        let (opened, k) ← pipeOpenById k pipeId isWriter
        some (if opened ≠ 0 then
          setFd k p fd (if isWriter then .pipeWrite else .pipeRead) (some i) else k)

/-- One turn of the loop of `process_create` that copies the descriptors of the parent. -/
def inheritFd (k : Kernel) (p parent i : ℕ) : Option Kernel :=
  match k.fdType parent i with
  | .terminal => some (setFd k p i .terminal none)
  | type =>
      match k.fdPipe parent i with
      | none => some (setFd k p i .terminal none)
      | some pipe =>
          if (k.pipes pipe).id = 0 then some (setFd k p i .terminal none)
          else do
            let (opened, k) ← pipeOpenById k (k.pipes pipe).id (type = .pipeWrite)
            some (if opened ≠ 0 then setFd k p i type (some pipe) else setFd k p i .terminal none)

def inheritFds (k : Kernel) (p : ℕ) (r : SpawnRequest) : List ℕ → Option Kernel
  | [] => some k
  | i :: is => do
      let k ← (if (i = 0 ∧ r.stdinPipeId ≠ 0) ∨ (i = 1 ∧ r.stdoutPipeId ≠ 0) then some k
        else inheritFd k p r.parent i)
      inheritFds k p r is

/-- The block of `process_create` that makes the process the first child of its parent. -/
def linkChild (k : Kernel) (p parent : ℕ) : Kernel :=
  let k := { k with parent := update k.parent p parent }
  let first := k.firstChild parent
  let k := { k with nextSibling := update k.nextSibling p first }
  let k := if first ≠ 0 then { k with prevSibling := update k.prevSibling first p } else k
  { k with firstChild := update k.firstChild parent p }

/-- The control block before its descriptors are set up. -/
def initPcb (k : Kernel) (r : SpawnRequest) : Kernel :=
  let p := r.pcb
  let k := clearPcb k p
  { k with
    allocated := update k.allocated p true
    pid := update k.pid p k.nextPid
    nextPid := k.nextPid + 1
    isForeground := update k.isForeground p r.isForeground
    priority := update k.priority p processPriorityDefault
    basePriority := update k.basePriority p processPriorityDefault }

/-- The end of `process_create`: the process tree and the saved registers. -/
def enterPcb (k : Kernel) (r : SpawnRequest) : Kernel :=
  let p := r.pcb
  let stackTop := r.stack + processKernelStackSize
  let k := if r.parent ≠ 0 then linkChild k p r.parent else k
  { k with
    rsp := update k.rsp p (setupProcessContext stackTop)
    rbp := update k.rbp p stackTop
    state := update k.state p .ready }

/-- `process_create`: the address of the new process, `0` for `NULL`, with the new state. -/
def processCreate (k : Kernel) (r : SpawnRequest) : Option (ℕ × Kernel) :=
  if r.entryPoint = 0 then some (0, k)
  else if r.pcb = 0 then some (0, k)
  else if r.stack = 0 then some (0, clearPcb k r.pcb)
  else do
    let p := r.pcb
    let k := initPcb k r
    let k ← attachPipe k p 0 r.stdinPipeId false
    let k ← attachPipe k p 1 r.stdoutPipeId true
    let k ← (if r.parent ≠ 0 then inheritFds k p r (List.range maxFds) else some k)
    some (p, enterPcb k r)

/-- One turn of the loop of `process_close_fds`, which `process_destroy` repeats. -/
def closeFd (k : Kernel) (p i : ℕ) : Option Kernel :=
  match k.fdType p i with
  | .terminal => some k
  | type => do
      let k ← (match k.fdPipe p i with
        | none => some k
        | some pipe =>
            if (k.pipes pipe).id = 0 then some k
            else (pipeCloseById k (k.pipes pipe).id (type = .pipeWrite)).map Prod.snd)
      some (setFd k p i .terminal none)

def closeFds (p : ℕ) : List ℕ → Kernel → Option Kernel
  | [], k => some k
  | i :: is, k => do
      let k ← closeFd k p i
      closeFds p is k

def processCloseFds (k : Kernel) (p : ℕ) : Option Kernel :=
  if p = 0 then some k else closeFds p (List.range maxFds) k

/-- The block of `process_destroy` that takes the process out of its parent's children. -/
def unlinkChild (k : Kernel) (p : ℕ) : Kernel :=
  if k.parent p = 0 then k
  else
    let k :=
      if k.prevSibling p ≠ 0 then
        { k with nextSibling := update k.nextSibling (k.prevSibling p) (k.nextSibling p) }
      else if k.firstChild (k.parent p) = p then
        { k with firstChild := update k.firstChild (k.parent p) (k.nextSibling p) }
      else k
    let k := if k.nextSibling p ≠ 0 then
        { k with prevSibling := update k.prevSibling (k.nextSibling p) (k.prevSibling p) }
      else k
    { k with
      parent := update k.parent p 0
      nextSibling := update k.nextSibling p 0
      prevSibling := update k.prevSibling p 0 }

def processDestroy (k : Kernel) (p : ℕ) : Option Kernel :=
  if p = 0 then some k
  else do
    let k ← closeFds p (List.range maxFds) k
    let k := unlinkChild k p
    some { k with allocated := update k.allocated p false }

end SoKernel
