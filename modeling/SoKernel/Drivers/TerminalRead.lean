import SoKernel.Drivers.KeyboardInterrupt
import SoKernel.Ipc.WaitListRuns

/-!
# Reading from the terminal

Embedding of the terminal part of `syscall_read` with `keyboard_wait_for_char`, and the runs of
keyboard interrupts, terminal reads and the calls that start, end and switch processes. A turn is
one turn of a loop of a read. Nothing else happens until the read returns or blocks.
-/

namespace SoKernel

open Function (update)

section Model

/-- A process in `syscall_read` of the terminal. -/
structure TerminalRead where
  /-- What it has stored in the buffer of its caller. -/
  chars : List UInt8
  count : ℕ
  /-- Whether it is in the loop of `keyboard_wait_for_char`. -/
  waits : Bool

/-- The kernel with the terminal reads that processes are in. -/
structure Terminal where
  kernel : Kernel
  reading : ℕ → Option TerminalRead

/-- How the current process goes on with its read. -/
def Terminal.goOn (m : Terminal) (r : Option TerminalRead) : Terminal :=
  { m with reading := update m.reading m.kernel.current r }

/-- The kernel after a call. A process that the call has created is in no read. -/
def Terminal.after (m : Terminal) (k : Kernel) : Terminal :=
  ⟨k, fun p => if m.kernel.allocated p then m.reading p else none⟩

/-- `syscall_read` up to its loop. The identifier of the caller belongs to the caller alone, so
`scheduler_block_by_pid` finds the caller. Reads from pipes stand in `SoKernel.Ipc.Transfer`. -/
def Terminal.syscallRead (m : Terminal) (fd : ℤ) (buffer : ℕ) (count : ℤ) : Option Terminal :=
  let k := m.kernel
  if buffer = 0 ∨ count ≤ 0 ∨ fd < 0 ∨ maxFds ≤ fd then some m
  else if k.current = 0 then some m
  else if k.fdType k.current fd.toNat = .terminal then
    if fd ≠ 0 then some m
    else if k.isForeground k.current = false then
      (blockFound k k.current).map fun k => { m with kernel := k }
    else some (m.goOn (some ⟨[], count.toNat, false⟩))
  else some m

/-- A turn of the loop of `syscall_read`. -/
def Terminal.readChar (m : Terminal) (r : TerminalRead) : Terminal :=
  if r.count ≤ r.chars.length then m.goOn none
  else
    let (c, k) := keyboardReadGetchar m.kernel
    let m := { m with kernel := k }
    if c = 0 then m.goOn (some { r with waits := true })
    else if c = 0x04 then m.goOn none
    else if c = ascii '\n' then m.goOn none
    else m.goOn (some { r with chars := r.chars ++ [c] })

/-- A turn of the loop of `keyboard_wait_for_char`, for a given `sem_wait_by_id`. -/
def Terminal.waitForChar (semWait : Kernel → ℕ → Option Kernel) (m : Terminal) (r : TerminalRead) :
    Option Terminal :=
  if bufferEmpty m.kernel.keyboard then
    if m.kernel.kbdSemId ≠ 0 then
      (semWait m.kernel m.kernel.kbdSemId).map fun k => { m with kernel := k }
    else some m
  else some (m.goOn (some { r with waits := false }))

/-- A turn of the read that the current process is in. -/
def Terminal.turn (semWait : Kernel → ℕ → Option Kernel) (m : Terminal) : Option Terminal :=
  match m.reading m.kernel.current with
  | none => some m
  | some r => if r.waits then m.waitForChar semWait r else some (m.readChar r)

/-- The keyboard interrupt is that of Ctrl+C. -/
def ctrlC (k : Kernel) (scancode : UInt8) : Bool :=
  let k := noteKey (updateFlags k scancode) scancode
  let c := scToAscii k scancode
  k.activeCtrl && (decide (c = ascii 'c') || decide (c = ascii 'C'))

/-- `keyboard_interrupt_handler`, with what its searches find left open: `none` without a
foreground process, else the process that `scheduler_kill_by_pid` finds, or `0`. -/
def interruptBy (k : Kernel) (scancode : UInt8) (foreground : Option ℕ) : Option (KeyEvent × Kernel) :=
  let k := noteKey (updateFlags k scancode) scancode
  let c := scToAscii k scancode
  if k.activeCtrl ∧ (c = ascii 'c' ∨ c = ascii 'C') then
    match foreground with
    | none => some (.none, k)
    | some p => do
        let k ← (if p = 0 then some k else killProcess k p)
        (keyboardClearBuffer k).map fun k => (.cleared, k)
  else if k.activeCtrl ∧ (c = ascii 'd' ∨ c = ascii 'D') then pushKey k 0x04
  else if c ≠ 0 then pushKey k c
  else some (.none, k)

/-- The keys in front of the search for the foreground process. -/
def noted (k : Kernel) (scancode : UInt8) : Kernel := noteKey (updateFlags k scancode) scancode

/-- The handler is the open one at what its searches find. -/
theorem keyboardInterruptHandler_by {k : Kernel} {scancode : UInt8} {x : KeyEvent × Kernel}
    (h : keyboardInterruptHandler k scancode = some x) :
    ∃ foreground, interruptBy k scancode foreground = some x ∧ ∀ p, foreground = some p →
      ctrlC k scancode = true ∧ ∃ pid, schedulerGetForegroundPid (noted k scancode) = some pid ∧ pid ≠ 0 ∧
        schedulerFindByPid (noted k scancode) pid = some p := by
  rw [keyboardInterruptHandler] at h
  dsimp only at h
  split at h
  · rename_i hctrl
    have hkeys : ctrlC k scancode = true := by
      rw [ctrlC]
      simpa using hctrl
    obtain ⟨fgPid, hforeground, h⟩ := Option.bind_eq_some_iff.mp h
    split at h
    · rename_i hpid
      obtain ⟨⟨r, k₂⟩, hkill, h⟩ := Option.bind_eq_some_iff.mp h
      obtain ⟨p, hfind, hkill⟩ := Option.bind_eq_some_iff.mp hkill
      refine ⟨some p, ?_, fun q hq => ?_⟩
      · rw [interruptBy, if_pos hctrl]
        split at hkill
        · rename_i hp
          cases hkill
          simpa [hp] using h
        · rename_i hp
          obtain ⟨k₃, hkill, heq⟩ := Option.bind_eq_some_iff.mp hkill
          cases heq
          simpa [hp, hkill] using h
      · cases hq
        exact ⟨hkeys, fgPid, hforeground, hpid, hfind⟩
    · refine ⟨none, ?_, fun q hq => by cases hq⟩
      rw [interruptBy, if_pos hctrl]
      exact h
  · rename_i hctrl
    refine ⟨none, ?_, fun q hq => by cases hq⟩
    rw [interruptBy, if_neg hctrl]
    exact h

end Model

section Runs

/-- A step of the current process or an interrupt. -/
inductive TerminalMove where
  /-- Another call or interrupt. -/
  | call (c : Call)
  | key (scancode : UInt8)
  /-- `syscall_read` up to its loop. -/
  | read (fd : ℤ) (buffer : ℕ) (count : ℤ)
  /-- A turn of the read of the current process. -/
  | turn (frame : Frame)

def terminalMove (m : Terminal) : TerminalMove → Option Terminal
  | .call c => (exec m.kernel c).map fun o => m.after o.kernel
  | .key scancode => (keyboardInterruptHandler m.kernel scancode).map fun x => m.after x.2
  | .read fd buffer count => m.syscallRead fd buffer count
  | .turn frame => m.turn fun k id => (semWaitById k id frame).map Outcome.kernel

/-- The current process is not in the middle of a read. -/
def Terminal.Settled (m : Terminal) : Prop := m.reading m.kernel.current = none

/-- The calls that create, end and switch processes, and the waits for their end. -/
def Call.OnProcesses : Call → Prop
  | .createProcess _ | .finishCurrent | .killByPid _ | .wait _ _ | .waitReturn _ | .tick _ | .yield _
  | .setPriority _ _ => True
  | _ => False

/-- The open calls among them. -/
def ProcessCall : OpenCall → Prop
  | .createProcess _ | .exit | .kill _ | .wait _ _ | .waitReturn _ | .switch _ | .resched _ => True
  | _ => False

/-- Nothing else happens in the middle of a read, and the idle process does not read. -/
def TerminalMove.Timely (m : Terminal) : TerminalMove → Prop
  | .call c => m.Settled ∧ c.OnProcesses
  | .key _ => m.Settled
  | .read _ _ _ => m.Settled ∧ Caller m.kernel
  | .turn _ => Caller m.kernel

/-- The runs from a state: the moves made so far with the states they were made in, and the
state reached. -/
inductive TerminalRun (start : Terminal) : List (Terminal × TerminalMove) → Terminal → Prop
  | nil : TerminalRun start [] start
  | snoc {steps m a m'} (run : TerminalRun start steps m) (timely : a.Timely m)
      (step : terminalMove m a = some m') : TerminalRun start (steps ++ [(m, a)]) m'

end Runs

section Keys

/-- A process is blocked on the semaphore of the keyboard. -/
def BlockedOnKeys (k : Kernel) (p : ℕ) : Prop :=
  k.allocated p = true ∧ k.state p = .blocked ∧ k.waitingOnSem p = k.kbdSemId

/-- A process that was taken from the queue of the keyboard is ready and has not looked into the
buffer since then. -/
structure WillLook (m : Terminal) (p : ℕ) : Prop where
  allocated : m.kernel.allocated p = true
  ready : m.kernel.state p = .ready
  waits : ∃ r, m.reading p = some r ∧ r.waits = true
  taken : ∀ L, WaitQueue m.kernel m.kernel.kbdSemId L → p ∉ L

/-- While there is a key in the buffer, nobody is blocked on the keyboard or somebody will look
into the buffer. -/
def KeysNoticed (m : Terminal) : Prop :=
  m.kernel.keyboard.size ≠ 0 → (∀ p, ¬BlockedOnKeys m.kernel p) ∨ ∃ p, WillLook m p

/-- A process is in no terminal read and in no list of waiting processes. -/
def Spared (m : Terminal) (p : ℕ) : Prop := m.reading p = none ∧ ¬InWaitList m.kernel p

/-- No process is killed that is in a terminal read or waits for another process. -/
def KillsSpared (m : Terminal) : OpenCall → Prop
  | .kill p => Spared m p
  | _ => True

/-- The moves that lose no wake-up. What the searches and the context switches look for is in the
queues, and Ctrl+C and the kills spare the processes that read or wait. -/
def KeySafe (m : Terminal) : TerminalMove → Prop
  | .call c => c.Allowed (fun _ => KillsSpared m) m.kernel
  | .key scancode => ctrlC m.kernel scancode = true → ∀ pid,
      schedulerGetForegroundPid m.kernel = some pid → pid ≠ 0 → pid ≠ m.kernel.pid m.kernel.idleP ∧
        FindsLiving m.kernel pid ∧ ∀ p, schedulerFindByPid m.kernel pid = some p → p ≠ 0 → Spared m p
  | .read _ _ _ => True
  | .turn frame => ∀ r, m.reading m.kernel.current = some r → r.waits = true →
      bufferEmpty m.kernel.keyboard = true → QueuesAnswer m.kernel (.semWait m.kernel.kbdSemId frame)

end Keys
end SoKernel
