import SoKernel.Proc.Calls
import SoKernel.Proc.Effects

/-!
# Calls under an open scheduler

The calls on processes and semaphores, with what the queues of the scheduler decide left
open: which process the search by identifier finds, which ready process `schedule` picks,
and which finished processes it collects. The links of the queues, the priorities and the
clock may change at any time. So the runs here include those of the kernel in every state
of its queues, as long as the scheduler picks ready processes and collects finished ones.
-/

namespace SoKernel

open Function (update)

section Model

/-- What a context switch takes from the queues. -/
structure Choice where
  frame : Frame
  /-- The links after the next process has left its queue. -/
  popped : Links
  next : ℕ
  /-- The finished processes that are collected, in order. -/
  dead : List ℕ
  /-- The links after the collected processes have left their queue. -/
  collected : Links

/-- The calls of `process_destroy` in `schedule`. -/
def destroyAll : List ℕ → Kernel → Option Kernel
  | [], k => some k
  | p :: ps, k => do
      let k ← processDestroy k p
      destroyAll ps k

/-- The part of `schedule` behind the decision to switch, with an open choice. -/
def switchBy (k : Kernel) (ch : Choice) : Option Kernel := do
  let k ← saveContext { k with needResched := false } k.current ch.frame
  let k ← destroyAll ch.dead (dispatch (k.relink ch.popped) ch.next)
  some (k.relink ch.collected)

/-- `scheduler_block_by_pid` after the search. -/
def blockFound (k : Kernel) (p : ℕ) : Option Kernel :=
  if p = k.current then
    some
      { k with
        state := update k.state k.current .blocked
        needResched := true }
  else if k.state p = .ready then do
    let k ← processQueueRemove k (.ready (k.priority p)) p
    let k := { k with state := update k.state p .blocked }
    let k ← processQueuePush k .blocked p
    some { k with needResched := true }
  else some k

/-- `syscall_wait` after the search. -/
def waitFound (k : Kernel) (target : ℕ) (ch : Choice) : Option Kernel :=
  if k.pid target = 0 ∨ 2 ^ 63 ≤ k.pid target then some k
  else if k.state target = .finished then
    some (if k.current ≠ 0 ∧ k.isForeground target then
      { k with isForeground := update k.isForeground k.current true } else k)
  else if k.current = 0 ∨ k.current = target then some k
  else switchBy (schedulerBlockCurrent (waitLinked k target (k.pid target))) ch

/-- `sem_wait_by_id`. -/
def semWaitBy (k : Kernel) (id : ℕ) (ch : Choice) : Option Kernel :=
  match semWaitStart k id with
  | (k, .failed) => some k
  | (k, .taken) => some k
  | (k, .queued) => switchBy (schedulerBlockCurrent k) ch

/-- The part of the state that belongs to the scheduler alone. -/
structure Sched where
  priority : ℕ → Priority
  basePriority : ℕ → Priority
  waitTicks : ℕ → ℕ
  rsp : ℕ → ℕ
  rbp : ℕ → ℕ
  needResched : Bool
  lastSwitchTick : ℕ
  ticks : ℕ
  links : Links

abbrev Kernel.resched (k : Kernel) (s : Sched) : Kernel :=
  { k with
    priority := s.priority
    basePriority := s.basePriority
    waitTicks := s.waitTicks
    rsp := s.rsp
    rbp := s.rbp
    needResched := s.needResched
    lastSwitchTick := s.lastSwitchTick
    ticks := s.ticks
    queueNext := s.links.next
    queuePrev := s.links.prev
    queues := s.links.queues }

inductive OpenCall where
  /-- `syscall_create_process`. -/
  | createProcess (r : SpawnRequest)
  /-- `scheduler_finish_current`. -/
  | exit
  /-- `scheduler_kill_by_pid`, when it has found its process. -/
  | kill (p : ℕ)
  /-- `scheduler_block_by_pid`, when it has found its process. -/
  | block (p : ℕ)
  /-- `scheduler_unblock_by_pid`, when it has found its process. -/
  | unblock (p : ℕ)
  /-- `syscall_wait`, when it has found its process, up to its context switch. -/
  | wait (target : ℕ) (ch : Choice)
  /-- What `syscall_wait` does when the waiter runs again. -/
  | waitReturn (target : ℕ)
  | semAlloc (initialValue : ℤ)
  | semOpen (id : ℕ)
  | semClose (id : ℕ)
  | semWait (id : ℕ) (ch : Choice)
  | semSignal (id : ℕ)
  | semSet (id : ℕ) (newval : ℤ)
  /-- `schedule`, when it switches. -/
  | switch (ch : Choice)
  /-- Aging, the clock, `scheduler_set_priority` and the links of the queues. -/
  | resched (s : Sched)

def openExec (k : Kernel) : OpenCall → Option Kernel
  | .createProcess r => (syscallCreateProcess k r).map Prod.snd
  | .exit => schedulerFinishCurrent k
  | .kill p => killProcess k p
  | .block p => blockFound k p
  | .unblock p => schedulerUnblockProcess k p
  | .wait target ch => waitFound k target ch
  | .waitReturn target => some (syscallWaitReturn k target)
  | .semAlloc v => some (semAlloc k v).2
  | .semOpen id => some (semOpenById k id).2
  | .semClose id => some (semCloseById k id).2
  | .semWait id ch => semWaitBy k id ch
  | .semSignal id => semSignal k id
  | .semSet id v => (semSetById k id v).map fun r => r.2.2
  | .switch ch => switchBy k ch
  | .resched s => some (k.resched s)

end Model

section Promises

/-- The current process is one that makes calls: the idle process only halts. -/
def Caller (k : Kernel) : Prop := k.current ≠ 0 ∧ k.current ≠ k.idleP

instance (k : Kernel) : Decidable (Caller k) := inferInstanceAs (Decidable (_ ∧ _))

/-- What the search by identifier finds: an existing process that was in a queue, or the
caller. The idle process is in no queue. -/
def Found (k : Kernel) (p : ℕ) : Prop := k.allocated p = true ∧ p ≠ k.idleP

/-- What a context switch takes from the queues of the scheduler: a ready process or the idle
process to go on with, and finished processes to collect. -/
def SwitchPromise (k : Kernel) (ch : Choice) : Prop :=
  k.current ≠ 0 ∧
  ∀ k₁, saveContext { k with needResched := false } k.current ch.frame = some k₁ →
    k₁.allocated ch.next = true ∧ (k₁.state ch.next = .ready ∨ ch.next = k₁.idleP) ∧
    ch.dead.Nodup ∧
    ∀ p ∈ ch.dead, k₁.allocated p = true ∧ k₁.state p = .finished ∧ p ≠ ch.next

def OpenPromise (k : Kernel) : OpenCall → Prop
  | .createProcess r => Caller k ∧ ValidRequest k { r with parent := k.current }
  | .exit => Caller k
  | .kill p | .block p | .unblock p => Found k p
  | .wait target ch => Caller k ∧ Found k target ∧ (k.state target ≠ .finished →
      SwitchPromise (schedulerBlockCurrent (waitLinked k target (k.pid target))) ch)
  | .waitReturn _ => Caller k
  | .semWait id ch => Caller k ∧ ((semWaitStart k id).2 = .queued →
      SwitchPromise (schedulerBlockCurrent (semWaitStart k id).1) ch)
  | .semSignal _ | .semSet _ _ | .semAlloc _ | .semOpen _ | .semClose _ => True
  | .switch ch => SwitchPromise k ch
  | .resched _ => True

/-- The runs from a state: the calls made so far with the states they were made in, and the
state reached. -/
inductive OpenRun (start : Kernel) : List (Kernel × OpenCall) → Kernel → Prop
  | nil : OpenRun start [] start
  | snoc {steps k c k'} (run : OpenRun start steps k) (promise : OpenPromise k c)
      (step : openExec k c = some k') : OpenRun start (steps ++ [(k, c)]) k'

/-- An invariant that every allowed call keeps holds in every state of a run of allowed
calls. -/
theorem OpenRun.invariant {start k : Kernel} {steps : List (Kernel × OpenCall)} {I : Kernel → Prop}
    {allowed : Kernel → OpenCall → Prop} (run : OpenRun start steps k)
    (hsteps : ∀ s ∈ steps, allowed s.1 s.2) (hstart : I start)
    (hcall : ∀ k c k', I k → OpenPromise k c → allowed k c → openExec k c = some k' → I k') :
    I k := by
  induction run with
  | nil => exact hstart
  | snoc run promise step ih =>
      have hk := ih fun s hs => hsteps s (List.mem_append_left _ hs)
      have hc := hsteps _ (List.mem_append_right _ (List.mem_singleton_self _))
      exact hcall _ _ _ hk promise hc step

end Promises
end SoKernel
