import SoKernel.Ipc.Semaphore

/-!
# Pipes: creation, opening and closing of ends

Embedding of `pipe.c` without `pipe_read` and `pipe_write`. A pipe is named by its entry
of the table. The mutex of a pipe is given back before any context switch, so that its
wait never blocks; `none` stands for a wait that would.
-/

namespace SoKernel

open Function (update)

/-- `find_pipe_by_id`. -/
def findPipeById (k : Kernel) (id : ℕ) : Option ℕ :=
  (List.range maxPipes).find? fun i => (k.pipes i).used && decide ((k.pipes i).id = id)

def pipeGetById (k : Kernel) (id : ℕ) : Option ℕ :=
  if id = 0 then none else findPipeById k id

def setPipe (k : Kernel) (i : ℕ) (p : Pipe) : Kernel :=
  { k with pipes := update k.pipes i p }

/-- `pipe_create`: the identifier of the new pipe, or `0`. -/
def pipeCreate (k : Kernel) : ℕ × Kernel :=
  match (List.range maxPipes).find? fun i => !(k.pipes i).used with
  | none => (0, k)
  | some i =>
      let p : Pipe := ⟨0, fun _ => 0, 0, 0, 0, 0, 0, 0, 0, 0, false⟩
      let (items, k) := semAlloc k 0
      if items = 0 then (0, setPipe k i { p with semItems := items })
      else
        let (spaces, k) := semAlloc k pipeBufferSize
        if spaces = 0 then
          (0, setPipe (semCloseById k items).2 i
            { p with
              semItems := items
              semSpaces := spaces })
        else
          let (mutex, k) := semAlloc k 1
          if mutex = 0 then
            (0, setPipe (semCloseById (semCloseById k items).2 spaces).2 i
              { p with
                semItems := items
                semSpaces := spaces
                mutex := mutex })
          else
            (k.nextPipeId,
              { setPipe k i
                  { p with
                    id := k.nextPipeId
                    semItems := items
                    semSpaces := spaces
                    mutex := mutex
                    used := true } with
                nextPipeId := k.nextPipeId + 1 })

/-- `sem_wait_by_id` on a mutex, in a place where a context switch is not modelled. -/
def mutexWait (k : Kernel) (mutex : ℕ) : Option Kernel :=
  match semWaitStart k mutex with
  | (_, .queued) => none
  | (k, _) => some k

/-- A call of `sem_signal_by_id` whose result is not used. -/
def semSignal (k : Kernel) (id : ℕ) : Option Kernel :=
  (semSignalById k id).map fun r => r.2.2

def pipeOpenById (k : Kernel) (id : ℕ) (isWriter : Bool) : Option (ℕ × Kernel) :=
  match pipeGetById k id with
  | none => some (0, k)
  | some i => do
      let k ← mutexWait k (k.pipes i).mutex
      let p := k.pipes i
      let k := setPipe k i
        (if isWriter then { p with writers := p.writers + 1 }
        else { p with readers := p.readers + 1 })
      let k ← semSignal k (k.pipes i).mutex
      some (1, k)

/-- The loop of `pipe_close_by_id` that wakes readers, with the number of turns. -/
def signalReaders (i : ℕ) : ℕ → Kernel → Option Kernel
  | 0, k => some k
  | n + 1, k => do
      let k ← semSignal k (k.pipes i).semItems
      signalReaders i n k

def pipeCloseById (k : Kernel) (id : ℕ) (isWriter : Bool) : Option (ℕ × Kernel) :=
  match pipeGetById k id with
  | none => some (0, k)
  | some i => do
      let k ← mutexWait k (k.pipes i).mutex
      let p := k.pipes i
      let wasLastWriter := isWriter && decide (0 < p.writers) && decide (p.writers - 1 = 0)
      let p :=
        if isWriter then if 0 < p.writers then { p with writers := p.writers - 1 } else p
        else if 0 < p.readers then { p with readers := p.readers - 1 } else p
      let k := setPipe k i p
      if p.readers = 0 ∧ p.writers = 0 then
        let k := setPipe k i
          { p with
            used := false
            id := 0
            semItems := 0
            semSpaces := 0
            mutex := 0
            readPos := 0
            writePos := 0
            count := 0 }
        let k ← semSignal k p.mutex
        let k := (semCloseById k p.semItems).2
        let k := (semCloseById k p.semSpaces).2
        let k := (semCloseById k p.mutex).2
        some (1, k)
      else
        let k ← (if wasLastWriter then signalReaders i (min p.readers.toNat 100) k else some k)
        let k ← semSignal k (k.pipes i).mutex
        some (1, k)

end SoKernel
