import SoKernel.Drivers.Keyboard
import SoKernel.Proc.Process

/-!
# The scheduler

Embedding of `scheduler.c`, of the timer interrupt and of the calls that end in a context
switch. The saved registers of the interrupted process are an argument of `schedule`; the
results name the process that was dispatched and those that were destroyed.
-/

namespace SoKernel

open Function (update)

def quantumTicks : ℕ := 8

def maxFinishedCollect : ℕ := 4

def agingThreshold : ℕ := 200

def agingBoost : ℕ := 1

/-- The stack pointer that the timer interrupt hands to `schedule`, and the words it points
to. -/
structure Frame where
  rsp : ℕ
  word : ℕ → ℕ

/-- `ticks_elapsed`: an `int`, widened again to 64 bits by its callers. -/
def ticksElapsed (k : Kernel) : ℕ :=
  let t := k.ticks % 2 ^ 32
  if t < 2 ^ 31 then t else t + (2 ^ 64 - 2 ^ 32)

/-- `ready_queue_pop_highest`, from the given priorities on. -/
def popFirstOf (k : Kernel) : List Priority → Option (ℕ × Kernel)
  | [] => some (0, k)
  | pr :: prs => do
      let (p, k) ← processQueuePop k (.ready pr)
      if p ≠ 0 then some (p, k) else popFirstOf k prs

def readyQueuePopHighest (k : Kernel) : Option (ℕ × Kernel) :=
  popFirstOf k [2, 1, 0]

/-- The inner loop of `apply_aging`. -/
def agingLoop (pr : Priority) : ℕ → ℕ → Kernel → Option Kernel
  | 0, _, _ => none
  | n + 1, p, k =>
      if p = 0 then some k
      else
        let k := { k with waitTicks := update k.waitTicks p (k.waitTicks p + 1) }
        if agingThreshold ≤ k.waitTicks p ∧ (k.priority p : ℕ) < processPriorityMax then do
          let k ← processQueueRemove k (.ready pr) p
          let k := { k with
            priority := update k.priority p (clampPriority (k.priority p + agingBoost)) }
          let k ← processQueuePush k (.ready (k.priority p)) p
          let k := { k with waitTicks := update k.waitTicks p 0 }
          agingLoop pr n (k.queues (.ready pr)).head k
        else agingLoop pr n (k.queueNext p) k

/-- The outer loop of `apply_aging`, from the given priorities on. -/
def ageQueues (k : Kernel) : List Priority → Option Kernel
  | [] => some k
  | pr :: prs => do
      let k ← agingLoop pr (addressCount * addressCount) (k.queues (.ready pr)).head k
      ageQueues k prs

def applyAging (k : Kernel) : Option Kernel := ageQueues k [0, 1, 2]

/-- The loop of `save_context` and `scheduler_kill_by_pid` that makes waiters ready. -/
def wakeWaiters (p : ℕ) : ℕ → Kernel → Option Kernel
  | 0, _ => none
  | n + 1, k =>
      let w := k.waitersHead p
      if w = 0 then some k
      else do
        let k := { k with waitersHead := update k.waitersHead p (k.waiterNext w) }
        let k := { k with
          waiterNext := update k.waiterNext w 0
          waitingOnPid := update k.waitingOnPid w 0
          state := update k.state w .ready }
        let k ← readyQueuePush k w
        wakeWaiters p n k

/-- Whether the death of a foreground process gives the foreground to its parent. -/
def parentTakesForeground (k : Kernel) (p : ℕ) : Bool :=
  k.isForeground p && decide (k.parent p ≠ 0) && decide (k.state (k.parent p) ≠ .finished)

def saveContext (k : Kernel) (p : ℕ) (frame : Frame) : Option Kernel :=
  if p = 0 then some k
  else
    let k := { k with
      rsp := update k.rsp p frame.rsp
      rbp := update k.rbp p (frame.word 10) }
    match k.state p with
    | .running =>
        if p ≠ k.idleP then readyQueuePush { k with state := update k.state p .ready } p
        else some k
    | .blocked => processQueuePush k .blocked p
    | .finished => do
        let k ← (if parentTakesForeground k p then
            keyboardClearBuffer
              { k with isForeground := update k.isForeground (k.parent p) true }
          else some k)
        let k ← wakeWaiters p addressCount k
        processQueuePush k .finished p
    | _ => some k

/-- The choice of `schedule` to switch, made after aging. -/
def mustSwitch (k : Kernel) : Bool :=
  let peek := ([2, 1, 0].map fun pr => (k.queues (.ready pr)).head).find? (· ≠ 0)
  let higherPrReady := peek.any fun p => k.priority k.current < k.priority p
  let sinceSwitch := (ticksElapsed k + 2 ^ 64 - k.lastSwitchTick) % 2 ^ 64
  decide (k.state k.current ≠ .running) || higherPrReady || decide (quantumTicks ≤ sinceSwitch) ||
    k.needResched

/-- The part of `schedule` that makes `next` the current process. -/
def dispatch (k : Kernel) (next : ℕ) : Kernel :=
  let k := { k with
    state := update k.state next .running
    waitTicks := update k.waitTicks next 0 }
  let k := if next ≠ k.idleP ∧ k.basePriority next < k.priority next then
      { k with priority := update k.priority next (k.basePriority next) }
    else k
  { k with
    current := next
    lastSwitchTick := ticksElapsed k }

/-- The loop of `schedule` that destroys finished processes, with the number of turns that
are left: the destroyed processes, in order. -/
def collectLoop : ℕ → Kernel → Option (List ℕ × Kernel)
  | 0, k => some ([], k)
  | n + 1, k => do
      let (fp, k) ← processQueuePop k .finished
      if fp = 0 then some ([], k)
      else
        let k ← processDestroy k fp
        let (fps, k) ← collectLoop n k
        some (fp :: fps, k)

/-- What one kernel call did. -/
structure Outcome where
  kernel : Kernel
  /-- The returned value, unless the caller was switched out before it could return. -/
  result : Option ℕ
  dispatched : Option ℕ
  destroyed : List ℕ
  /-- The processes that were handed a token of a semaphore. -/
  released : List ℕ

/-- A call without a context switch. -/
def Outcome.return (result : ℕ) (k : Kernel) : Outcome := ⟨k, some result, none, [], []⟩

/-- The part of `schedule` behind the decision to switch. -/
def switchContext (k : Kernel) (frame : Frame) : Option Outcome := do
  let k := { k with needResched := false }
  let k ← saveContext k k.current frame
  let (p, k) ← readyQueuePopHighest k
  let next := if p = 0 then k.idleP else p
  let k := dispatch k next
  let (destroyed, k) ← collectLoop maxFinishedCollect k
  some ⟨k, none, some next, destroyed, []⟩

/-- `schedule`. It returns the interrupted stack pointer, or after a switch the saved one
of the dispatched process. -/
def schedule (k : Kernel) (frame : Frame) : Option Outcome :=
  if k.current = 0 then some (.return frame.rsp k)
  else do
    let k ← applyAging k
    if mustSwitch k then switchContext k frame else some (.return frame.rsp k)

/-- The timer interrupt: `timer_handler` and `schedule`. -/
def timerTick (k : Kernel) (frame : Frame) : Option Outcome :=
  schedule { k with ticks := k.ticks + 1 } frame

/-- `scheduler_yield_current`, for a caller that returns `result` when it runs again. -/
def schedulerYieldCurrent (k : Kernel) (frame : Frame) (result : ℕ) : Option Outcome :=
  if k.current = 0 ∨ k.current = k.idleP then some (.return result k)
  else
    timerTick { k with lastSwitchTick := (ticksElapsed k + 2 ^ 64 - quantumTicks) % 2 ^ 64 } frame

def schedulerAddProcess (k : Kernel) (p : ℕ) : Option Kernel :=
  if p = 0 ∨ p = k.idleP then some k
  else readyQueuePush { k with state := update k.state p .ready } p

def schedulerSpawnProcess (k : Kernel) (r : SpawnRequest) : Option (ℕ × Kernel) := do
  let (p, k) ← processCreate k r
  if p = 0 then some (0, k)
  else
    let pr := clampPriority r.priority
    let k := { k with
      priority := update k.priority p pr
      basePriority := update k.basePriority p pr
      waitTicks := update k.waitTicks p 0 }
    let k ← schedulerAddProcess k p
    some (p, k)

/-- `init_scheduler`, with the results of the two calls of `mm_alloc` for the idle
process. -/
def initScheduler (k : Kernel) (pcb stack : ℕ) : Option Kernel := do
  let k := { k with
    nextPid := 1
    queues := fun _ => ⟨0, 0, 0⟩ }
  let (idle, k) ← processCreate k ⟨1, 0, 0, false, 0, 0, pcb, stack⟩
  let k := { k with idleP := idle }
  some (if idle ≠ 0 then
    { k with
      state := update k.state idle .running
      current := idle
      lastSwitchTick := ticksElapsed k }
    else k)

def schedulerFinishCurrent (k : Kernel) : Option Kernel :=
  if k.current = 0 ∨ k.current = k.idleP then some k
  else do
    let k ← processCloseFds k k.current
    some { k with
      state := update k.state k.current .finished
      needResched := true }

/-- `find_in_queue`: the first process with the identifier, or `0`. -/
def findInQueue (k : Kernel) (q : QueueId) (pid : ℕ) : Option ℕ :=
  (LinkedRing.walkFind k.queueNext 0 (fun it => decide (k.pid it = pid)) addressCount
    (k.queues q).head).map fun p => p.getD 0

/-- The search of `scheduler_find_by_pid`, in the given queues in order. -/
def findInQueues (k : Kernel) (pid : ℕ) : List QueueId → Option ℕ
  | [] => some 0
  | q :: qs => do
      let p ← findInQueue k q pid
      if p ≠ 0 then some p else findInQueues k pid qs

def schedulerFindByPid (k : Kernel) (pid : ℕ) : Option ℕ := do
  let p ← findInQueues k pid [.ready 0, .ready 1, .ready 2, .blocked, .finished]
  some (if p ≠ 0 then p else if k.current ≠ 0 ∧ k.pid k.current = pid then k.current else 0)

def schedulerUnblockByPid (k : Kernel) (pid : ℕ) : Option (ℕ × Kernel) := do
  let p ← schedulerFindByPid k pid
  if p = 0 then some (0, k)
  else
    let k ← schedulerUnblockProcess k p
    some (1, k)

/-- `scheduler_kill_by_pid` after the search. -/
def killProcess (k : Kernel) (p : ℕ) : Option Kernel := do
  let k ← processCloseFds k p
  let k := if parentTakesForeground k p then
      { k with isForeground := update k.isForeground (k.parent p) true }
    else k
  let k ← (if k.state p = .ready then processQueueRemove k (.ready (k.priority p)) p
    else if k.state p = .blocked then processQueueRemove k .blocked p
    else some k)
  let k := { k with state := update k.state p .finished }
  let k ← wakeWaiters p addressCount k
  let k ← processQueuePush k .finished p
  some (if p = k.current then { k with needResched := true } else k)

def schedulerKillByPid (k : Kernel) (pid : ℕ) : Option (ℕ × Kernel) := do
  let p ← schedulerFindByPid k pid
  if p = 0 then some (0, k)
  else
    let k ← killProcess k p
    some (1, k)

/-- `scheduler_set_priority` after the checks. -/
def changePriority (k : Kernel) (p : ℕ) (clamped : Priority) : Option Kernel := do
  let k ← (if k.state p = .ready then processQueueRemove k (.ready (k.priority p)) p else some k)
  let k := { k with
    priority := update k.priority p clamped
    basePriority := update k.basePriority p clamped
    waitTicks := update k.waitTicks p 0 }
  let k ← (if k.state p = .ready then readyQueuePush k p else some k)
  some (if k.current ≠ 0 ∧ k.priority k.current < k.priority p then
    { k with needResched := true } else k)

def schedulerSetPriority (k : Kernel) (pid newPriority : ℕ) : Option (ℕ × Kernel) := do
  let p ← schedulerFindByPid k pid
  if p = 0 ∨ p = k.idleP then some (0, k)
  else if k.priority p = clampPriority newPriority then some (1, k)
  else
    let k ← changePriority k p (clampPriority newPriority)
    some (1, k)

def schedulerBlockByPid (k : Kernel) (pid : ℕ) : Option (ℕ × Kernel) := do
  let p ← schedulerFindByPid k pid
  if p = 0 ∨ p = k.idleP then some (0, k)
  else if p = k.current then
    some (1,
      { k with
        state := update k.state k.current .blocked
        needResched := true })
  else if k.state p = .ready then
    let k ← processQueueRemove k (.ready (k.priority p)) p
    let k := { k with state := update k.state p .blocked }
    let k ← processQueuePush k .blocked p
    some (1, { k with needResched := true })
  else some (1, k)

/-- `sem_wait_by_id`. -/
def semWaitById (k : Kernel) (id : ℕ) (frame : Frame) : Option Outcome :=
  match semWaitStart k id with
  | (k, .failed) => some (.return 0 k)
  | (k, .taken) => some (.return 1 k)
  | (k, .queued) => schedulerYieldCurrent (schedulerBlockCurrent k) frame 1

/-- `syscall_wait` up to the context switch. -/
def syscallWait (k : Kernel) (pid : ℕ) (frame : Frame) : Option Outcome :=
  if pid = 0 ∨ 2 ^ 63 ≤ pid then some (.return 0 k)
  else do
    let target ← schedulerFindByPid k pid
    if target = 0 then some (.return 0 k)
    else if k.state target = .finished then
      some (.return 1 (if k.current ≠ 0 ∧ k.isForeground target then
        { k with isForeground := update k.isForeground k.current true } else k))
    else if k.current = 0 ∨ k.current = target then some (.return 0 k)
    else
      let me := k.current
      let k := { k with
        waitingOnPid := update k.waitingOnPid me pid
        waiterNext := update k.waiterNext me (k.waitersHead target)
        waitersHead := update k.waitersHead target me }
      schedulerYieldCurrent (schedulerBlockCurrent k) frame 1

/-- `syscall_wait` behind the context switch, run by the current process. -/
def syscallWaitReturn (k : Kernel) (target : ℕ) : Kernel :=
  if k.isForeground target then { k with isForeground := update k.isForeground k.current true }
  else k

/-- `syscall_create_process`; the parent is the current process, and the priority is cut off to
eight bits. -/
def syscallCreateProcess (k : Kernel) (r : SpawnRequest) : Option (ℕ × Kernel) := do
  let parent := k.current
  let r := { r with
    parent := parent
    priority := r.priority % 2 ^ 8 }
  let k := if r.isForeground ∧ parent ≠ 0 then
      { k with isForeground := update k.isForeground parent false }
    else k
  let (p, k) ← schedulerSpawnProcess k r
  if p = 0 then
    some (0, if r.isForeground ∧ parent ≠ 0 then
      { k with isForeground := update k.isForeground parent true } else k)
  else some (k.pid p, k)

end SoKernel
