import SoKernel.Proc.Queue

/-!
# Making a process ready

The functions of `scheduler.c` that the semaphores call: the ready queues and
`scheduler_unblock_process`.
-/

namespace SoKernel

open Function (update)

/-- `clamp_priority`; the argument is an unsigned byte or a sum of small numbers. -/
def clampPriority (pr : ℕ) : Priority :=
  if h : pr < 3 then ⟨pr, h⟩ else 2

/-- `ready_queue_push`. A stored priority is already in range, so that clamping it again
changes nothing. -/
def readyQueuePush (k : Kernel) (p : ℕ) : Option Kernel :=
  if p = 0 then some k else processQueuePush k (.ready (k.priority p)) p

def schedulerUnblockProcess (k : Kernel) (p : ℕ) : Option Kernel :=
  if p = 0 then some k
  else do
    let k ← (if k.state p = .blocked then processQueueRemove k .blocked p else some k)
    let k := { k with state := update k.state p .ready }
    let k ← readyQueuePush k p
    some (if k.current ≠ 0 ∧ k.priority k.current < k.priority p then
      { k with needResched := true } else k)

/-- `scheduler_block_current`. -/
def schedulerBlockCurrent (k : Kernel) : Kernel :=
  if k.current = 0 ∨ k.current = k.idleP then k
  else
    { k with
      state := update k.state k.current .blocked
      needResched := true }

end SoKernel
