import SoKernel.Proc.Scheduler

/-!
# Runs of kernel calls

The calls that processes and interrupts make, one after the other. A call runs alone up to
its next context switch; what a switched-out process does later is a call of its own.
-/

namespace SoKernel

inductive Call where
  /-- `scheduler_spawn_process`. -/
  | spawn (r : SpawnRequest)
  /-- `syscall_create_process`. -/
  | createProcess (r : SpawnRequest)
  /-- The timer interrupt, the only caller of `schedule`. -/
  | tick (frame : Frame)
  | yield (frame : Frame)
  | blockCurrent
  | blockByPid (pid : ℕ)
  | unblockProcess (p : ℕ)
  | unblockByPid (pid : ℕ)
  /-- `scheduler_finish_current`, which `process_start` calls at the end of a process. -/
  | finishCurrent
  | killByPid (pid : ℕ)
  /-- `scheduler_set_priority`, whose second argument has eight bits. -/
  | setPriority (pid newPriority : ℕ)
  /-- `syscall_wait` up to its context switch. -/
  | wait (pid : ℕ) (frame : Frame)
  /-- What `syscall_wait` does when the waiter runs again. -/
  | waitReturn (target : ℕ)
  | keyboardInit
  | semAlloc (initialValue : ℤ)
  | semOpen (id : ℕ)
  | semClose (id : ℕ)
  | semWait (id : ℕ) (frame : Frame)
  | semSignal (id : ℕ)
  | semSet (id : ℕ) (newval : ℤ)

/-- One call; `none` if it never ends. -/
def exec (k : Kernel) : Call → Option Outcome
  | .spawn r => (schedulerSpawnProcess k r).map fun (p, k) => .return p k
  | .createProcess r => (syscallCreateProcess k r).map fun (pid, k) => .return pid k
  | .tick frame => timerTick k frame
  | .yield frame => schedulerYieldCurrent k frame 1
  | .blockCurrent => some (.return 0 (schedulerBlockCurrent k))
  | .blockByPid pid => (schedulerBlockByPid k pid).map fun (r, k) => .return r k
  | .unblockProcess p => (schedulerUnblockProcess k p).map (.return 0)
  | .unblockByPid pid => (schedulerUnblockByPid k pid).map fun (r, k) => .return r k
  | .finishCurrent => (schedulerFinishCurrent k).map (.return 0)
  | .killByPid pid => (schedulerKillByPid k pid).map fun (r, k) => .return r k
  | .setPriority pid pr => (schedulerSetPriority k pid pr).map fun (r, k) => .return r k
  | .wait pid frame => syscallWait k pid frame
  | .waitReturn target => some (.return 1 (syscallWaitReturn k target))
  | .keyboardInit => some (.return 0 (keyboardInit k))
  | .semAlloc v =>
      let (id, k) := semAlloc k v
      some (.return id k)
  | .semOpen id =>
      let (r, k) := semOpenById k id
      some (.return r k)
  | .semClose id =>
      let (r, k) := semCloseById k id
      some (.return r k)
  | .semWait id frame => semWaitById k id frame
  | .semSignal id => (semSignalById k id).map fun (r, w, k) =>
      ⟨k, some r, none, [], if w = 0 then [] else [w]⟩
  | .semSet id v => (semSetById k id v).map fun (r, ws, k) => ⟨k, some r, none, [], ws⟩

/-- One call of a run, with the state it was made in. -/
structure Step where
  before : Kernel
  call : Call
  outcome : Outcome

/-- The runs from a state: the calls made so far, in order, and the state reached. -/
inductive Run (start : Kernel) : List Step → Kernel → Prop
  | nil : Run start [] start
  | snoc {steps k c o} (run : Run start steps k) (step : exec k c = some o) :
      Run start (steps ++ [⟨k, c, o⟩]) o.kernel

/-- An invariant that every allowed call keeps holds in every state of a run of allowed
calls. -/
theorem Run.invariant {start k : Kernel} {steps : List Step} {I : Kernel → Prop}
    {allowed : Kernel → Call → Prop} (run : Run start steps k)
    (hsteps : ∀ s ∈ steps, allowed s.before s.call) (hstart : I start)
    (hcall : ∀ k c o, I k → allowed k c → exec k c = some o → I o.kernel) : I k := by
  induction run with
  | nil => exact hstart
  | snoc run step ih =>
      have hk := ih fun s hs => hsteps s (List.mem_append_left _ hs)
      have hc := hsteps _ (List.mem_append_right _ (List.mem_singleton_self _))
      exact hcall _ _ _ hk hc step

/-- A list of calls made one after the other. -/
def execAll (k : Kernel) : List Call → Option Kernel
  | [] => some k
  | c :: cs => do
      let o ← exec k c
      execAll o.kernel cs

/-- Making one more call first. -/
theorem Run.cons {k k' : Kernel} {c : Call} {o : Outcome} {steps : List Step}
    (step : exec k c = some o) (run : Run o.kernel steps k') : Run k (⟨k, c, o⟩ :: steps) k' := by
  induction run with
  | nil => exact .snoc .nil step
  | snoc _ step' ih => exact .snoc ih step'

theorem Run.of_execAll {k k' : Kernel} {cs : List Call} (h : execAll k cs = some k') :
    ∃ steps, Run k steps k' ∧ steps.map Step.call = cs := by
  induction cs generalizing k with
  | nil =>
      cases h
      exact ⟨[], .nil, rfl⟩
  | cons c cs ih =>
      rw [execAll, Option.bind_eq_bind] at h
      obtain ⟨o, hstep, hrest⟩ := Option.bind_eq_some_iff.mp h
      obtain ⟨steps, run, hcalls⟩ := ih hrest
      exact ⟨⟨k, c, o⟩ :: steps, .cons hstep run, by simp [hcalls]⟩

end SoKernel
