import SoKernel.Proc.Ready

/-!
# Semaphores

Embedding of `semaphore.c`. A semaphore is named by its entry of the table. A wait that
has to block ends in a context switch, which is added in `SoKernel.Proc.Scheduler`.
-/

namespace SoKernel

open Function (update)

/-- `find_slot_by_id`. -/
def findSlotById (k : Kernel) (id : ℕ) : Option ℕ :=
  (List.range maxSemaphores).find? fun i =>
    (k.semaphores i).used && decide ((k.semaphores i).id = id)

def semGetById (k : Kernel) (id : ℕ) : Option ℕ :=
  if id = 0 then none else findSlotById k id

/-- `sem_alloc`: the identifier of the new semaphore, or `0`. -/
def semAlloc (k : Kernel) (initialValue : ℤ) : ℕ × Kernel :=
  match (List.range maxSemaphores).find? fun i => !(k.semaphores i).used with
  | none => (0, k)
  | some i =>
      (k.nextSemId,
        { k with
          semaphores := update k.semaphores i ⟨k.nextSemId, initialValue, 1, 0, 0, true⟩
          nextSemId := k.nextSemId + 1 })

def semOpenById (k : Kernel) (id : ℕ) : ℕ × Kernel :=
  match semGetById k id with
  | none => (0, k)
  | some i =>
      let s := k.semaphores i
      (1, { k with semaphores := update k.semaphores i { s with refcount := s.refcount + 1 } })

def semCloseById (k : Kernel) (id : ℕ) : ℕ × Kernel :=
  match semGetById k id with
  | none => (0, k)
  | some i =>
      let s := k.semaphores i
      let ref := s.refcount - 1
      let s := { s with refcount := ref }
      let s := if ref ≤ 0 then
          { s with
            used := false
            waitHead := 0
            waitTail := 0 }
        else s
      (1, { k with semaphores := update k.semaphores i s })

def enqueueWaiter (k : Kernel) (i p : ℕ) : Kernel :=
  let s := k.semaphores i
  let k := { k with semWaiterNext := update k.semWaiterNext p 0 }
  if s.waitHead = 0 then
    { k with
      semaphores := update k.semaphores i
        { s with
          waitHead := p
          waitTail := p } }
  else
    { k with
      semWaiterNext := update k.semWaiterNext s.waitTail p
      semaphores := update k.semaphores i { s with waitTail := p } }

/-- `dequeue_waiter`: the first waiter, `0` for `NULL`, with the new state. -/
def dequeueWaiter (k : Kernel) (i : ℕ) : ℕ × Kernel :=
  let s := k.semaphores i
  let p := s.waitHead
  if p = 0 then (0, k)
  else
    (p,
      { k with
        semaphores := update k.semaphores i
          { s with
            waitHead := k.semWaiterNext p
            waitTail := if k.semWaiterNext p = 0 then 0 else s.waitTail }
        semWaiterNext := update k.semWaiterNext p 0 })

/-- How `sem_wait_by_id` goes on after it has released the lock of the semaphore. -/
inductive SemWait where
  /-- It returns `0`: there is no such semaphore, or no current process. -/
  | failed
  /-- It has taken a token and returns `1`. -/
  | taken
  /-- The caller is in the wait queue and will block. -/
  | queued
  deriving DecidableEq, Repr

/-- `sem_wait_by_id` up to the release of the lock. -/
def semWaitStart (k : Kernel) (id : ℕ) : Kernel × SemWait :=
  match semGetById k id with
  | none => (k, .failed)
  | some i =>
      if k.current = 0 then (k, .failed)
      else
        let s := k.semaphores i
        if 0 < s.value then
          ({ k with semaphores := update k.semaphores i { s with value := s.value - 1 } }, .taken)
        else
          (enqueueWaiter { k with waitingOnSem := update k.waitingOnSem k.current s.id } i
            k.current, .queued)

/-- The hand-off to one waiter in `sem_signal_by_id` and `sem_set_by_id`. -/
def releaseWaiter (k : Kernel) (w : ℕ) : Option Kernel :=
  schedulerUnblockProcess { k with waitingOnSem := update k.waitingOnSem w 0 } w

/-- `sem_signal_by_id`: the returned value, the released waiter (`0` for none) and the new
state. -/
def semSignalById (k : Kernel) (id : ℕ) : Option (ℕ × ℕ × Kernel) :=
  match semGetById k id with
  | none => some (0, 0, k)
  | some i => do
      let (w, k) := dequeueWaiter k i
      if w ≠ 0 then
        let k ← releaseWaiter k w
        some (1, w, k)
      else
        let s := k.semaphores i
        some (1, 0,
          { k with semaphores := update k.semaphores i { s with value := s.value + 1 } })

/-- The loop of `sem_set_by_id` with the number of turns that are left: the waiters it has
released, in order. -/
def awakenLoop (i : ℕ) : ℕ → Kernel → Option (List ℕ × Kernel)
  | 0, k => some ([], k)
  | n + 1, k => do
      let (w, k) := dequeueWaiter k i
      if w = 0 then some ([], k)
      else
        let k ← releaseWaiter k w
        let (ws, k) ← awakenLoop i n k
        some (w :: ws, k)

/-- `sem_set_by_id`: the returned value, the released waiters and the new state. -/
def semSetById (k : Kernel) (id : ℕ) (newval : ℤ) : Option (ℕ × List ℕ × Kernel) :=
  match semGetById k id with
  | none => some (0, [], k)
  | some i =>
      if newval < 0 then some (0, [], k)
      else do
        let (ws, k) ← awakenLoop i newval.toNat k
        let s := k.semaphores i
        some (1, ws,
          { k with semaphores := update k.semaphores i { s with value := newval - ws.length } })

end SoKernel
