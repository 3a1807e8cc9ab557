import SoKernel.Ipc.PipeAccounts
import SoKernel.Syscalls.CreateProcess
import SoKernel.Userland.Stdio

/-!
# Pipelines of the shell

Embedding of `execute_pipeline` of `command_parser.c`. The shell makes a pipe, starts two
commands on its ends and leaves the pipe to their descriptors, so that a way out on which
no descriptor was made leaves the pipe and its semaphores in use. The semaphores that a command
makes itself are left to its own calls.
-/

namespace SoKernel.Userland

open Function (update)

section Parsing

def maxArgs : ℕ := 32

/-- `fillCommandAndArgs` with the number of entries that are left. The last entry is not cut
off at its end, because the loop stops as soon as it begins. -/
def fillCommandAndArgs : ℕ → List Char → List (List Char)
  | 0, _ => []
  | n + 1, input =>
      match input.dropWhile (· == ' ') with
      | [] => []
      | arg =>
          if n = 0 then [arg]
          else arg.takeWhile (· != ' ') :: fillCommandAndArgs n (arg.dropWhile (· != ' '))

/-- The name and the flag `is_builtin` of an entry of the table of commands. -/
structure ShellCmd where
  name : String
  isBuiltin : Bool
  deriving DecidableEq, Repr

def shellCmds : List ShellCmd :=
  [⟨"help", true⟩, ⟨"exit", true⟩, ⟨"set-user", true⟩, ⟨"clear", true⟩, ⟨"testmm", false⟩,
    ⟨"test_proceses", false⟩, ⟨"test_synchro", false⟩, ⟨"test_no_synchro", false⟩,
    ⟨"test_priority", false⟩, ⟨"exceptions", true⟩, ⟨"mmtype", false⟩, ⟨"ps", false⟩,
    ⟨"loop", false⟩, ⟨"kill", true⟩, ⟨"nice", true⟩, ⟨"block", true⟩, ⟨"mem", false⟩,
    ⟨"cat", false⟩, ⟨"wc", false⟩, ⟨"filter", false⟩, ⟨"mvar", false⟩]

/-- `find_command_index`. -/
def findCommandIndex (name : List Char) : Option ShellCmd :=
  shellCmds.find? fun cmd => decide (cmd.name.toList = name)

inductive EntryFunction where
  | cat | wc | filter | ps | loop | mem | mmtype
  | testMm | testProcesses | testSync | testNoSynchro | testPrio
  deriving DecidableEq, Repr

/-- `get_process_entry_function`. -/
def getProcessEntryFunction (cmd : ShellCmd) : Option EntryFunction :=
  [("cat", EntryFunction.cat), ("wc", .wc), ("filter", .filter), ("ps", .ps), ("loop", .loop),
    ("mem", .mem), ("mmtype", .mmtype), ("testmm", .testMm), ("test_proceses", .testProcesses),
    ("test_synchro", .testSync), ("test_no_synchro", .testNoSynchro),
    ("test_priority", .testPrio)].lookup cmd.name

/-- What a command line with a pipe comes to. -/
inductive PipelinePlan where
  /-- An error with the given result, before any call of the kernel. -/
  | refused (status : ℤ)
  | run (left right : ShellCmd)
  deriving DecidableEq, Repr

/-- `execute_pipeline` up to the creation of the pipe. -/
def planPipeline (leftInput rightInput : List Char) : PipelinePlan :=
  let leftArgs := fillCommandAndArgs maxArgs leftInput
  let rightArgs := fillCommandAndArgs maxArgs rightInput
  match leftArgs.head?, rightArgs.head? with
  | some leftName, some rightName =>
      if leftArgs.getLast? = some ['&'] ∨ rightArgs.getLast? = some ['&'] then .refused cmdError
      else
        match findCommandIndex leftName, findCommandIndex rightName with
        | some left, some right =>
            if left.isBuiltin || right.isBuiltin then .refused cmdError else .run left right
        | _, _ => .refused error
  | _, _ => .refused cmdError

/-- The part of `CommandParse` for a line with a `|`. -/
def commandParse (line : List Char) : PipelinePlan :=
  let rightInput := ((line.dropWhile (· != '|')).drop 1).dropWhile (· == ' ')
  if '|' ∈ rightInput then .refused cmdError
  else planPipeline (line.takeWhile (· != '|')) rightInput

end Parsing

section Model

/-- One pipeline: the line, the shell that runs it, and the results of `mm_alloc` for the
control block and the stack of the two processes. -/
structure PipelineCall where
  line : List Char
  shell : ℕ
  leftPcb : ℕ
  leftStack : ℕ
  rightPcb : ℕ
  rightStack : ℕ

/-- The request that reaches `process_create` from `my_create_process_with_pipes`, whose
argument word is packed and unpacked on the way. -/
def createRequest (shell pcb stack : ℕ) (isForeground : Bool) (stdinPipeId stdoutPipeId : ℕ) :
    SpawnRequest :=
  let (isForeground, stdinPipeId, stdoutPipeId) :=
    unpackCreateArguments (packCreateArguments isForeground stdinPipeId stdoutPipeId)
  ⟨1, shell, 1, isForeground, stdinPipeId, stdoutPipeId, pcb, stack⟩

def PipelineCall.leftRequest (c : PipelineCall) (pipeId : ℕ) : SpawnRequest :=
  createRequest c.shell c.leftPcb c.leftStack false 0 pipeId

def PipelineCall.rightRequest (c : PipelineCall) (pipeId : ℕ) : SpawnRequest :=
  createRequest c.shell c.rightPcb c.rightStack true pipeId 0

/-- Where the shell stands after the creation of the pipe. -/
inductive PipelineAt where
  | spawnLeft (pipeId : ℕ)
  | spawnRight (pipeId : ℕ)
  /-- Before the last `my_kill` of the left process, with the result to return. -/
  | kill (status : ℤ)
  | returned (status : ℤ)
  deriving DecidableEq, Repr

/-- The kernel, the place of the shell, and the left process, `0` when it does not exist. -/
structure PipelineState where
  kernel : Kernel
  place : PipelineAt
  left : ℕ

/-- `CommandParse` up to the first process: the line is read, the pipe is made, and the entry
functions are looked up. -/
def pipelineStart (c : PipelineCall) (k : Kernel) : PipelineState :=
  match commandParse c.line with
  | .refused status => ⟨k, .returned status, 0⟩
  | .run left right =>
      let (pipeId, k) := pipeCreate k
      if pipeId = 0 then ⟨k, .returned cmdError, 0⟩
      else if (getProcessEntryFunction left).isNone || (getProcessEntryFunction right).isNone then
        ⟨k, .returned cmdError, 0⟩
      else ⟨k, .spawnLeft pipeId, 0⟩

/-- The request that the shell makes next. -/
def PipelineCall.request (c : PipelineCall) : PipelineAt → Option SpawnRequest
  | .spawnLeft pipeId => some (c.leftRequest pipeId)
  | .spawnRight pipeId => some (c.rightRequest pipeId)
  | .kill _ | .returned _ => none

/-- The next call of the shell. It waits for the right process before it kills the left one,
which is nothing to the tables of the kernel. -/
def pipelineShell (c : PipelineCall) (s : PipelineState) : Option PipelineState :=
  match s.place with
  | .spawnLeft pipeId => do
      let (p, k) ← processCreate s.kernel (c.leftRequest pipeId)
      some (if p = 0 then ⟨k, .returned cmdError, 0⟩ else ⟨k, .spawnRight pipeId, p⟩)
  | .spawnRight pipeId => do
      let (p, k) ← processCreate s.kernel (c.rightRequest pipeId)
      some ⟨k, .kill (if p = 0 then cmdError else ok), s.left⟩
  | .kill status =>
      if s.left = 0 then some { s with place := .returned status }
      else do
        let k ← killProcess s.kernel s.left
        some ⟨k, .returned status, s.left⟩
  | .returned _ => none

/-- One of the commands is `test_synchro`. Its workers use a named semaphore; no other command
makes semaphores or pipes. -/
def PipelineCall.Synchronizes (c : PipelineCall) : Prop :=
  ∃ left right, commandParse c.line = .run left right ∧
    (getProcessEntryFunction left = some .testSync ∨ getProcessEntryFunction right = some .testSync)

/-- The calls of the kernel in `my_sem_open` and `my_sem_close`, with the result. The library
has its identifiers from `sem_create`, so that they are not those of a pipe. -/
inductive LibrarySem (k : Kernel) : IpcCall → ℕ → Kernel → Prop where
  | create (v : ℤ) (nonneg : 0 ≤ v) : LibrarySem k (.semAlloc v) (semAlloc k v).1 (semAlloc k v).2
  | open (id : ℕ) (own : ¬PipeSem k id) :
      LibrarySem k (.semOpen id) (semOpenById k id).1 (semOpenById k id).2
  | close (id : ℕ) (own : ¬PipeSem k id) :
      LibrarySem k (.semClose id) (semCloseById k id).1 (semCloseById k id).2

/-- The states of a pipeline that was started in `k₀`, with the semaphores that its commands
made, opened and closed. The processes that exist in `k₀` stay; those made since, by the shell
or by others, may end at any time. -/
inductive PipelineRun (c : PipelineCall) (k₀ : Kernel) : List IpcEvent → PipelineState → Prop where
  | start : PipelineRun c k₀ [] (pipelineStart c k₀)
  | shell {t : List IpcEvent} {s s' : PipelineState} (run : PipelineRun c k₀ t s)
      (valid : ∀ r, c.request s.place = some r → ValidRequest s.kernel r)
      (step : pipelineShell c s = some s') : PipelineRun c k₀ t s'
  | undisturbed {t : List IpcEvent} {s : PipelineState} {k' : Kernel} (run : PipelineRun c k₀ t s)
      (step : Undisturbed s.kernel k') : PipelineRun c k₀ t { s with kernel := k' }
  | semaphore {t : List IpcEvent} {s : PipelineState} {call : IpcCall} {r : ℕ} {k' : Kernel}
      (run : PipelineRun c k₀ t s) (uses : c.Synchronizes)
      (new : k₀.allocated s.kernel.current = false) (step : LibrarySem s.kernel call r k') :
      PipelineRun c k₀ (t ++ [⟨s.kernel.current, call, .value r⟩]) { s with kernel := k' }
  | create {t : List IpcEvent} {s : PipelineState} {r : SpawnRequest} {p : ℕ} {k' : Kernel}
      (run : PipelineRun c k₀ t s)
      (valid : ValidRequest s.kernel r) (plain : r.stdinPipeId = 0 ∧ r.stdoutPipeId = 0)
      (step : processCreate s.kernel r = some (p, k')) : PipelineRun c k₀ t { s with kernel := k' }
  | exit {t : List IpcEvent} {s : PipelineState} {k' : Kernel} (run : PipelineRun c k₀ t s)
      (new : k₀.allocated s.kernel.current = false)
      (step : schedulerFinishCurrent s.kernel = some k') :
      PipelineRun c k₀ t { s with kernel := k' }
  | kill {t : List IpcEvent} {s : PipelineState} {p : ℕ} {k' : Kernel} (run : PipelineRun c k₀ t s)
      (new : k₀.allocated p = false) (exists_ : s.kernel.allocated p = true)
      (step : killProcess s.kernel p = some k') : PipelineRun c k₀ t { s with kernel := k' }
  | destroy {t : List IpcEvent} {s : PipelineState} {p : ℕ} {k' : Kernel}
      (run : PipelineRun c k₀ t s)
      (new : k₀.allocated p = false) (exists_ : s.kernel.allocated p = true)
      (notRunning : p ≠ s.kernel.current) (pcb : p ≠ 0)
      (step : processDestroy s.kernel p = some k') :
      PipelineRun c k₀ t ⟨k', s.place, if s.left = p then 0 else s.left⟩

/-- `CommandParse` has returned, and only the processes from before the call exist. -/
def PipelineState.Settled (s : PipelineState) (k₀ : Kernel) : Prop :=
  (∃ status, s.place = .returned status) ∧ s.kernel.allocated = k₀.allocated

def PipeInUse (k : Kernel) (id : ℕ) : Prop :=
  ∃ i < maxPipes, (k.pipes i).used = true ∧ (k.pipes i).id = id

def SemInUse (k : Kernel) (id : ℕ) : Prop :=
  ∃ j < maxSemaphores, (k.semaphores j).used = true ∧ (k.semaphores j).id = id

instance (k : Kernel) (id : ℕ) : Decidable (PipeInUse k id) :=
  inferInstanceAs (Decidable (∃ _, _ ∧ _))

instance (k : Kernel) (id : ℕ) : Decidable (SemInUse k id) :=
  inferInstanceAs (Decidable (∃ _, _ ∧ _))

/-- The same pipes and the same semaphores are in use. -/
structure SameObjects (k k' : Kernel) : Prop where
  pipes : ∀ id, PipeInUse k' id ↔ PipeInUse k id
  semaphores : ∀ id, SemInUse k' id ↔ SemInUse k id

/-- The state before the call: the tables count the descriptors, and every semaphore has its
references. -/
structure Accounted (k : Kernel) : Prop where
  counted : ∃ live, FdsCounted k live
  ledger : ∃ refs, Ledger k refs

/-- The pipe gets the left process as its writer. -/
structure Attaches (c : PipelineCall) (k : Kernel) (left right : ShellCmd) : Prop where
  entries : (getProcessEntryFunction left).isSome ∧ (getProcessEntryFunction right).isSome
  memory : c.leftPcb ≠ 0 ∧ c.leftStack ≠ 0
  identifier : k.nextPipeId < 2 ^ 16

/-- The line is refused, or no pipe can be made, or the pipe gets its writer. -/
def PipelineCall.Clean (c : PipelineCall) (k : Kernel) : Prop :=
  ∀ left right, commandParse c.line = .run left right → (pipeCreate k).1 = 0 ∨ Attaches c k left right

/-- The semaphores of users that the calls leave with a reference are those that had one: what
the commands made and opened they have closed as often. -/
def Returned (k : Kernel) (t : List IpcEvent) : Prop :=
  ∀ id, ¬PipeSem k id → (0 < userRefs (openRefs k) t id ↔ 0 < openRefs k id)

end Model

section Semaphores

variable {k k' : Kernel} {live : Finset ℕ} {refs : ℕ → ℤ} {call : IpcCall} {r id : ℕ}

/-- The library leaves the pipes and the descriptors alone. -/
theorem LibrarySem.frame (h : LibrarySem k call r k') (T : Tables k) :
    Tables k' ∧ SameFds k k' ∧ k'.pipes = k.pipes := by
  cases h with
  | create v nonneg =>
      obtain ⟨r, k', heq, hframe, -⟩ := semAlloc_spec T v
      rw [heq]
      exact ⟨hframe.tables, hframe.fds, hframe.pipes⟩
  | «open» id own =>
      unfold semOpenById
      split
      · exact ⟨T, .refl k, rfl⟩
      · refine ⟨T.kept (.update _ rfl (fun h => h) fun _ => ⟨rfl, fun h => ⟨h, le_rfl⟩⟩),
          ⟨rfl, rfl, rfl, rfl⟩, rfl⟩
  | close id own =>
      obtain ⟨sems', heq, hkept⟩ := semCloseById_kept k id
      rw [heq]
      refine ⟨T.keptOff hkept fun i hi hu a ha hm => ?_, ⟨rfl, rfl, rfl, rfl⟩, rfl⟩
      rw [List.mem_singleton] at hm
      exact own (pipeSem_iff.mpr ⟨i, hi, hu, hm ▸ ha⟩)

theorem LibrarySem.counted (h : LibrarySem k call r k') (hc : FdsCounted k live) :
    FdsCounted k' live := by
  obtain ⟨T, hfds, hpipes⟩ := h.frame hc.tables
  exact hc.same T hpipes hfds

theorem LibrarySem.ledger (h : LibrarySem k call r k') (T : Tables k) (hledger : Ledger k refs)
    (p : ℕ) : Ledger k' (IpcEvent.enter refs ⟨p, call, .value r⟩) := by
  cases h with
  | create v nonneg => exact hledger.semAlloc T.table T.nextSemPos v p
  | «open» id own => exact hledger.semOpen T.table own p
  | close id own => exact hledger.semClose T.table own p

theorem userRefs_snoc (start : ℕ → ℤ) (t : List IpcEvent) (e : IpcEvent) :
    userRefs start (t ++ [e]) = IpcEvent.enter (userRefs start t) e :=
  List.foldl_append

/-- The references of a semaphore come from its own references at the start. -/
theorem userRefs_congr {start start' : ℕ → ℤ} (t : List IpcEvent) (h : start id = start' id) :
    userRefs start t id = userRefs start' t id := by
  induction t using List.reverseRecOn with
  | nil => exact h
  | append_singleton t e ih =>
      rw [userRefs_snoc, userRefs_snoc]
      unfold IpcEvent.enter
      split
      · split <;> simp [Function.update_apply, ih]
      · split <;> simp only [Function.update_apply, ih]
        split <;> simp_all
      · split <;> simp only [Function.update_apply, ih]
        split <;> simp_all
      · exact ih

theorem Ledger.openRefs_eq (h : Ledger k refs) (hid : ¬PipeSem k id) : openRefs k id = refs id := by
  unfold openRefs
  rcases h.user id hid with ⟨he, -⟩ | ⟨he, hzero⟩
  · rw [he, Option.getD_some]
  · rw [he, Option.getD_none, hzero]

/-- A line without `test_synchro` makes no such call. -/
theorem PipelineRun.no_calls {c : PipelineCall} {k₀ : Kernel} {t : List IpcEvent} {s : PipelineState}
    (run : PipelineRun c k₀ t s) (h : ¬c.Synchronizes) : t = [] := by
  induction run with
  | start => rfl
  | semaphore _ uses => exact absurd uses h
  | _ => assumption

end Semaphores

section Orphans

variable {k k' : Kernel} {live : Finset ℕ} {i n p q : ℕ} {r : SpawnRequest}

/-- A pipe in use that no descriptor points to. -/
structure Orphan (i n : ℕ) (k : Kernel) : Prop where
  counted : ∃ live, FdsCounted k live
  index : i < maxPipes
  used : (k.pipes i).used = true
  id_eq : (k.pipes i).id = n
  unreferenced : Unreferenced k i

theorem Orphan.undisturbed (h : Orphan i n k) (hstep : Undisturbed k k') : Orphan i n k' := by
  obtain ⟨live, hc⟩ := h.counted
  refine ⟨⟨live, hstep.counted hc⟩, h.index, ?_, ?_, hstep.unreferenced.mpr h.unreferenced⟩
  · rw [(hstep.pipes i).1, h.used]
  · rw [(hstep.pipes i).2.1, h.id_eq]

theorem Orphan.same (h : Orphan i n k) (hc : FdsCounted k' live) (hfds : SameFds k k')
    (hpipes : k'.pipes = k.pipes) : Orphan i n k' := by
  refine ⟨⟨live, hc⟩, h.index, by rw [hpipes, h.used], by rw [hpipes, h.id_eq], fun p hp fd hfd => ?_⟩
  rw [hfds.allocated] at hp
  rw [hfds.fdPipe]
  exact h.unreferenced p hp fd hfd

/-- A process that is not given the pipe does not change its fate. -/
theorem Orphan.spawned (h : Orphan i n k) (hs : Spawned k r q k')
    (hgiven : Granted r → ¬Given k r i) : Orphan i n k' := by
  obtain ⟨hused, hid, -⟩ := hs.opens i h.index
  refine ⟨hs.counted, h.index, hused.trans h.used, hid.trans h.id_eq, fun p hp fd hfd hx => ?_⟩
  have hold : k.allocated p = true → False := by
    intro hp'
    rw [(hs.fds p hp' fd).2] at hx
    exact h.unreferenced p hp' fd hfd hx
  by_cases hg : Granted r
  · obtain ⟨-, halloc, hfrom, -⟩ := hs.created hg
    rw [halloc] at hp
    by_cases hpcb : p = r.pcb
    · subst hpcb
      exact hgiven hg (hfrom fd hfd i hx)
    · rw [Function.update_of_ne hpcb] at hp
      exact hold hp
  · rw [(hs.failed hg).2] at hp
    exact hold hp

theorem Orphan.ended (h : Orphan i n k) (he : Ended k k' p)
    (halloc : ∀ q, k'.allocated q = true → k.allocated q = true) : Orphan i n k' := by
  obtain ⟨live, hc⟩ := h.counted
  obtain ⟨live', hc'⟩ := he.counted
  have hentry := EntryStep.of_closes_opens hc hc' he.closes (.of_eq rfl) h.index
  obtain ⟨hused, hid⟩ := hentry.unopened h.used h.unreferenced
  exact ⟨he.counted, h.index, hused, hid.trans h.id_eq, he.unreferenced halloc h.unreferenced⟩

theorem Orphan.not_given (h : Orphan i n k) (hv : ValidRequest k r)
    (hin : r.stdinPipeId ≠ 0 → r.stdinPipeId ≠ n)
    (hout : r.stdoutPipeId ≠ 0 → r.stdoutPipeId ≠ n) : ¬Given k r i := by
  rintro (⟨hne, hfound⟩ | ⟨hne, hfound⟩ | ⟨hpar, fd, hfd, hx⟩)
  · exact hin hne ((pipeGetById_mem hfound).2.2.symm.trans h.id_eq)
  · exact hout hne ((pipeGetById_mem hfound).2.2.symm.trans h.id_eq)
  · exact h.unreferenced r.parent (hv.2 hpar) fd hfd hx

/-- A pipe that is given up with its last descriptor. -/
def Attached (i : ℕ) (k : Kernel) : Prop := (k.pipes i).used = true → ¬Unreferenced k i

theorem Attached.undisturbed (h : Attached i k) (hstep : Undisturbed k k') : Attached i k' := by
  intro hu
  rw [hstep.unreferenced]
  exact h ((hstep.pipes i).1 ▸ hu)

theorem Attached.same (h : Attached i k) (hfds : SameFds k k') (hpipes : k'.pipes = k.pipes) :
    Attached i k' := by
  unfold Attached Unreferenced
  rw [hpipes, hfds.allocated, hfds.fdPipe]
  exact h

theorem Attached.spawned (h : Attached i k) (hs : Spawned k r q k') (hi : i < maxPipes) :
    Attached i k' := by
  intro hu hnone
  apply h ((hs.opens i hi).1 ▸ hu)
  intro p hp fd hfd hx
  exact hnone p (hs.keeps hp) fd hfd ((hs.fds p hp fd).2.trans hx)

theorem Attached.ended (h : Attached i k) (he : Ended k k' p) (hc : FdsCounted k live)
    (hi : i < maxPipes) : Attached i k' := by
  intro hu
  obtain ⟨live', hc'⟩ := he.counted
  have hold := (he.moved.kept i hi hu).1
  have hentry := EntryStep.of_closes_opens hc hc' he.closes (.of_eq rfl) hi
  rw [← (hentry.opened hold (h hold)).1, hu]
  decide

end Orphans

section Borrowed

variable {k₀ k k' : Kernel} {refs : ℕ → ℤ} {i p q : ℕ} {r : SpawnRequest}

/-- The state of a pipeline with its pipe in entry `i`: the processes from before the call
have their descriptors and the other pipes are as before, because the new processes have
only descriptors of pipes that the old ones have. -/
structure Piped (k₀ : Kernel) (refs : ℕ → ℤ) (i : ℕ) (k : Kernel) : Prop where
  counted : ∃ live, FdsCounted k live
  ledger : Ledger k refs
  others : ∀ p, k₀.allocated p = true → k.allocated p = true ∧
    ∀ fd < maxFds, k.fdPipe p fd = k₀.fdPipe p fd
  pipes : ∀ j < maxPipes, j ≠ i → (k.pipes j).used = (k₀.pipes j).used ∧
    ((k.pipes j).used = true → (k.pipes j).id = (k₀.pipes j).id ∧
      (k.pipes j).semIds = (k₀.pipes j).semIds)
  borrowed : ∀ p, k.allocated p = true → ∀ fd < maxFds, ∀ j, k.fdPipe p fd = some j → j ≠ i →
    ¬Unreferenced k₀ j

theorem Piped.undisturbed (h : Piped k₀ refs i k) (hstep : Undisturbed k k') :
    Piped k₀ refs i k' := by
  obtain ⟨live, hc⟩ := h.counted
  refine ⟨⟨live, hstep.counted hc⟩, hstep.ledger h.ledger, fun p hp => ?_, fun j hj hji => ?_, ?_⟩
  · obtain ⟨halloc, hfds⟩ := h.others p hp
    refine ⟨by rw [hstep.allocated, halloc], fun fd hfd => ?_⟩
    rw [(hstep.fds p halloc fd hfd).2, hfds fd hfd]
  · rw [(hstep.pipes j).1, (hstep.pipes j).2.1, (hstep.pipes j).2.2.2.2]
    exact h.pipes j hj hji
  · intro p hp fd hfd j hx hji
    rw [hstep.allocated] at hp
    rw [(hstep.fds p hp fd hfd).2] at hx
    exact h.borrowed p hp fd hfd j hx hji

/-- A call that changes semaphores of users. -/
theorem Piped.same {live : Finset ℕ} {refs' : ℕ → ℤ} (h : Piped k₀ refs i k)
    (hc : FdsCounted k' live) (hfds : SameFds k k') (hpipes : k'.pipes = k.pipes)
    (hledger : Ledger k' refs') : Piped k₀ refs' i k' := by
  refine ⟨⟨live, hc⟩, hledger, fun p hp => ?_, fun j hj hji => ?_, fun p hp fd hfd j hx => ?_⟩
  · rw [hfds.allocated, hfds.fdPipe]
    exact h.others p hp
  · rw [hpipes]
    exact h.pipes j hj hji
  · rw [hfds.allocated] at hp
    rw [hfds.fdPipe] at hx
    exact h.borrowed p hp fd hfd j hx

theorem Piped.spawned (h : Piped k₀ refs i k) (hs : Spawned k r q k')
    (hgiven : Granted r → ∀ j, Given k r j → j ≠ i → ¬Unreferenced k₀ j) :
    Piped k₀ refs i k' := by
  refine ⟨hs.counted, hs.moved.ledger refs h.ledger, fun p hp => ?_, fun j hj hji => ?_, ?_⟩
  · obtain ⟨halloc, hfds⟩ := h.others p hp
    refine ⟨hs.keeps halloc, fun fd hfd => ?_⟩
    rw [(hs.fds p halloc fd).2, hfds fd hfd]
  · obtain ⟨hused, hpipe⟩ := h.pipes j hj hji
    obtain ⟨hused', -, -⟩ := hs.opens j hj
    refine ⟨hused'.trans hused, fun hu => ?_⟩
    obtain ⟨hu', hid, hsems⟩ := hs.moved.kept j hj hu
    rw [hid, hsems]
    exact hpipe hu'
  · intro p hp fd hfd j hx hji
    have hold : k.allocated p = true → ¬Unreferenced k₀ j := by
      intro hp'
      rw [(hs.fds p hp' fd).2] at hx
      exact h.borrowed p hp' fd hfd j hx hji
    by_cases hg : Granted r
    · obtain ⟨-, halloc, hfrom, -⟩ := hs.created hg
      rw [halloc] at hp
      by_cases hpcb : p = r.pcb
      · subst hpcb
        exact hgiven hg j (hfrom fd hfd j hx) hji
      · rw [Function.update_of_ne hpcb] at hp
        exact hold hp
    · rw [(hs.failed hg).2] at hp
      exact hold hp

theorem Piped.ended (h : Piped k₀ refs i k) (he : Ended k k' p) (hnew : k₀.allocated p = false)
    (hless : ∀ q, k'.allocated q = true → k.allocated q = true)
    (hsame : ∀ q, q ≠ p → k'.allocated q = k.allocated q) : Piped k₀ refs i k' := by
  obtain ⟨live, hc⟩ := h.counted
  obtain ⟨live', hc'⟩ := he.counted
  have hold : ∀ q, k₀.allocated q = true → q ≠ p := by
    rintro q hq rfl
    rw [hnew] at hq
    cases hq
  have hothers : ∀ q, k₀.allocated q = true → k'.allocated q = true ∧
      ∀ fd < maxFds, k'.fdPipe q fd = k₀.fdPipe q fd := by
    intro q hq
    obtain ⟨halloc, hfds⟩ := h.others q hq
    refine ⟨by rw [hsame q (hold q hq), halloc], fun fd hfd => ?_⟩
    rw [(he.moved.fds q (hold q hq) fd).2, hfds fd hfd]
  refine ⟨he.counted, he.moved.ledger refs h.ledger, hothers, fun j hj hji => ?_, ?_⟩
  · obtain ⟨hused, hpipe⟩ := h.pipes j hj hji
    have hentry := EntryStep.of_closes_opens hc hc' he.closes (.of_eq rfl) hj
    refine ⟨?_, fun hu => ?_⟩
    · rw [← hused]
      cases hu : (k.pipes j).used with
      | false => exact (he.closes j hj).1 hu
      | true =>
          by_cases hnone : Unreferenced k j
          · exact (hentry.unopened hu hnone).1
          · -- An old process has a descriptor of the pipe, and keeps it.
            have hkept : ¬Unreferenced k' j := by
              intro hnone'
              apply hnone
              intro q hq fd hfd hx
              apply h.borrowed q hq fd hfd j hx hji
              intro q₀ hq₀ gd hgd hx₀
              obtain ⟨halloc, hfds⟩ := hothers q₀ hq₀
              exact hnone' q₀ halloc gd hgd ((hfds gd hgd).trans hx₀)
            rw [← (hentry.opened hu hnone).1, Bool.not_eq_false] at hkept
            exact hkept
    · obtain ⟨hu', hid, hsems⟩ := he.moved.kept j hj hu
      rw [hid, hsems]
      exact hpipe hu'
  · intro q hq fd hfd j hx hji
    by_cases hqp : q = p
    · subst hqp
      rcases he.fdPipe fd hfd with hnone | hkeep
      · rw [hnone] at hx
        cases hx
      · exact h.borrowed q (hless q hq) fd hfd j (hkeep ▸ hx) hji
    · rw [(he.moved.fds q hqp fd).2] at hx
      exact h.borrowed q (hless q hq) fd hfd j hx hji

/-- A process gets the new pipe, pipes of its parent, and no others. -/
theorem Piped.given (h : Piped k₀ refs i k) (hT : Tables k₀) (hv : ValidRequest k r)
    (hin : r.stdinPipeId = 0 ∨ r.stdinPipeId = k₀.nextPipeId)
    (hout : r.stdoutPipeId = 0 ∨ r.stdoutPipeId = k₀.nextPipeId) {j : ℕ} (hgiven : Given k r j)
    (hji : j ≠ i) : ¬Unreferenced k₀ j := by
  have hnamed : ∀ id, (id = 0 ∨ id = k₀.nextPipeId) → id ≠ 0 → pipeGetById k id ≠ some j := by
    intro id hid hne hfound
    obtain ⟨hj, hu, hid'⟩ := pipeGetById_mem hfound
    obtain ⟨hused, hpipe⟩ := h.pipes j hj hji
    have hlt := (hT.bound j hj (hused ▸ hu)).2
    rw [← (hpipe hu).1, hid'] at hlt
    rcases hid with rfl | rfl
    · exact hne rfl
    · exact absurd hlt (lt_irrefl _)
  rcases hgiven with ⟨hne, hfound⟩ | ⟨hne, hfound⟩ | ⟨hpar, fd, hfd, hx⟩
  · exact absurd hfound (hnamed _ hin hne)
  · exact absurd hfound (hnamed _ hout hne)
  · exact h.borrowed r.parent (hv.2 hpar) fd hfd j hx hji

end Borrowed

section Start

variable {k k' : Kernel} {live : Finset ℕ} {refs : ℕ → ℤ}

/-- The state right after the call of `pipe_create`, whose descriptors are the old ones. -/
theorem Piped.of_sameFds {i : ℕ} (hc' : FdsCounted k' live)
    (hledger : Ledger k' refs) (hfds : SameFds k k')
    (hpipes : ∀ j < maxPipes, j ≠ i → (k'.pipes j).used = (k.pipes j).used ∧
      ((k.pipes j).used = true → k'.pipes j = k.pipes j)) : Piped k refs i k' := by
  refine ⟨⟨live, hc'⟩, hledger, fun p hp => ⟨by rw [hfds.allocated, hp], fun fd _ => ?_⟩,
    fun j hj hji => ?_, fun p hp fd hfd j hx _ hnone => ?_⟩
  · rw [hfds.fdPipe]
  · obtain ⟨hused, hsame⟩ := hpipes j hj hji
    refine ⟨hused, fun hu => ?_⟩
    rw [hsame (hused ▸ hu)]
    exact ⟨rfl, rfl⟩
  · rw [hfds.allocated] at hp
    rw [hfds.fdPipe] at hx
    exact hnone p hp fd hfd hx

theorem Piped.refl (hc : FdsCounted k live) (hledger : Ledger k refs) : Piped k refs maxPipes k :=
  .of_sameFds hc hledger (.refl k) fun _ _ _ => ⟨rfl, fun _ => rfl⟩

theorem pipeCreate_ledger (hc : FdsCounted k live) (hledger : Ledger k refs) :
    Ledger (pipeCreate k).2 refs :=
  hledger.pipeCreate hc.tables.table hc.tables.nextSemPos rfl

theorem pipeCreate_sameFds (hc : FdsCounted k live) : SameFds k (pipeCreate k).2 := by
  obtain ⟨r, k', heq, -, hfds, -⟩ := pipeCreate_spec hc.tables
  rw [heq]
  exact hfds

/-- A failed `pipe_create` changes no pipe in use. -/
theorem pipeCreate_failed (hc : FdsCounted k live) (hledger : Ledger k refs)
    (hfail : (pipeCreate k).1 = 0) : Piped k refs maxPipes (pipeCreate k).2 := by
  refine .of_sameFds hc.pipeCreate_spec.1 (pipeCreate_ledger hc hledger)
    (pipeCreate_sameFds hc) fun j _ _ => ?_
  have hrefs := pipeCreate_refs hc.tables.table hc.tables.nextSemPos
    (show pipeCreate k = ((pipeCreate k).1, (pipeCreate k).2) from rfl)
  rcases hrefs with ⟨-, -, -, hsame⟩ | ⟨i, q, hr, -⟩
  · exact hsame j
  · have hpos := hc.tables.nextPos
    omega

/-- A new pipe has the next identifier, and nothing points to it. -/
theorem pipeCreate_made (hc : FdsCounted k live) (hledger : Ledger k refs)
    (hne : (pipeCreate k).1 ≠ 0) : (pipeCreate k).1 = k.nextPipeId ∧
      ∃ i, (k.pipes i).used = false ∧ Orphan i k.nextPipeId (pipeCreate k).2 ∧
        Piped k refs i (pipeCreate k).2 := by
  have hc' := hc.pipeCreate_spec.1
  have hledger' := pipeCreate_ledger hc hledger
  obtain ⟨r, k', heq, -, hfds, hcase⟩ := pipeCreate_spec hc.tables
  rw [heq] at hne hc' hledger' ⊢
  rcases hcase with ⟨hr, -⟩ | ⟨hr, -, i, hi, q, hfree, hq, -, -, hid, hpipes⟩
  · exact absurd hr hne
  · refine ⟨hr, i, hfree, ⟨⟨live, hc'⟩, hi, ?_, ?_, ?_⟩, ?_⟩
    · dsimp only
      rw [hpipes, Function.update_self, hq]
    · dsimp only
      rw [hpipes, Function.update_self, hid]
    · intro p hp fd hfd hx
      dsimp only at hp hx
      rw [hfds.allocated] at hp
      rw [hfds.fdPipe] at hx
      exact hc.unreferenced_of_unused hfree p hp fd hfd hx
    · refine .of_sameFds hc' hledger' hfds fun j _ hji => ?_
      dsimp only
      rw [hpipes, Function.update_of_ne hji]
      exact ⟨rfl, fun _ => rfl⟩

/-- Where the shell stands after the first part of the call. -/
inductive Started (c : PipelineCall) (k : Kernel) : PipelineState → Prop where
  | refused (status : ℤ) (plan : commandParse c.line = .refused status) :
      Started c k ⟨k, .returned status, 0⟩
  | failed (left right : ShellCmd) (plan : commandParse c.line = .run left right)
      (none : (pipeCreate k).1 = 0) : Started c k ⟨(pipeCreate k).2, .returned cmdError, 0⟩
  | noEntry (left right : ShellCmd) (plan : commandParse c.line = .run left right)
      (made : (pipeCreate k).1 ≠ 0) (missing : ¬((getProcessEntryFunction left).isSome ∧
        (getProcessEntryFunction right).isSome)) :
      Started c k ⟨(pipeCreate k).2, .returned cmdError, 0⟩
  | made (left right : ShellCmd) (plan : commandParse c.line = .run left right)
      (made : (pipeCreate k).1 ≠ 0) (entries : (getProcessEntryFunction left).isSome ∧
        (getProcessEntryFunction right).isSome) :
      Started c k ⟨(pipeCreate k).2, .spawnLeft (pipeCreate k).1, 0⟩

theorem pipelineStart_spec (c : PipelineCall) (k : Kernel) : Started c k (pipelineStart c k) := by
  unfold pipelineStart
  split
  · next status hplan => exact .refused status hplan
  · next left right hplan =>
      dsimp only
      split
      · next hfail => exact .failed left right hplan hfail
      · next hmade =>
          have hentries : (getProcessEntryFunction left).isNone ||
              (getProcessEntryFunction right).isNone ↔
                ¬((getProcessEntryFunction left).isSome ∧ (getProcessEntryFunction right).isSome) := by
            cases getProcessEntryFunction left <;> cases getProcessEntryFunction right <;> simp
          split
          · next hmissing => exact .noEntry left right hplan hmade (hentries.mp hmissing)
          · next hboth => exact .made left right hplan hmade (not_not.mp (mt hentries.mpr hboth))

end Start

section Runs

variable {c : PipelineCall} {k₀ k' : Kernel} {refs : ℕ → ℤ} {t : List IpcEvent}
  {s s' : PipelineState}

theorem createRequest_ids (shell pcb stack : ℕ) (fg : Bool) (stdinId stdoutId : ℕ) :
    (createRequest shell pcb stack fg stdinId stdoutId).stdinPipeId < 2 ^ 16 ∧
      (createRequest shell pcb stack fg stdinId stdoutId).stdoutPipeId < 2 ^ 16 := by
  unfold createRequest
  dsimp only
  rw [unpackCreateArguments_eq]
  split
  · exact ⟨by norm_num, by norm_num⟩
  · exact ⟨Nat.mod_lt _ (by norm_num), Nat.mod_lt _ (by norm_num)⟩

/-- Identifiers of sixteen bits come through. -/
theorem createRequest_eq (shell pcb stack : ℕ) (fg : Bool) {stdinId stdoutId : ℕ}
    (hin : stdinId < 2 ^ 16) (hout : stdoutId < 2 ^ 16) :
    createRequest shell pcb stack fg stdinId stdoutId =
      ⟨1, shell, 1, fg, stdinId, stdoutId, pcb, stack⟩ := by
  rw [createRequest, (create_arguments_round_trip fg stdinId stdoutId).mpr ⟨hin, hout⟩]

theorem createRequest_granted (shell pcb stack : ℕ) (fg : Bool) (stdinId stdoutId : ℕ) :
    Granted (createRequest shell pcb stack fg stdinId stdoutId) ↔ pcb ≠ 0 ∧ stack ≠ 0 := by
  simp [Granted, createRequest]

/-- The places of a shell whose pipe nothing will ever point to: the left process gets no
memory, or the identifier of the pipe does not come through. -/
def LeakPlace (c : PipelineCall) (n : ℕ) : PipelineAt → Prop
  | .spawnLeft pipeId => pipeId = n ∧ (¬(c.leftPcb ≠ 0 ∧ c.leftStack ≠ 0) ∨ 2 ^ 16 ≤ n)
  | .spawnRight pipeId => pipeId = n ∧ 2 ^ 16 ≤ n
  | .kill _ | .returned _ => True

/-- The invariant of a pipeline that loses its pipe. -/
structure Leaking (c : PipelineCall) (n : ℕ) (s : PipelineState) : Prop where
  orphan : ∃ i, Orphan i n s.kernel
  place : LeakPlace c n s.place
  left : s.left ≠ 0 → s.kernel.allocated s.left = true

theorem leaking_start (hk : Accounted k₀) (h : ¬c.Clean k₀) :
    Leaking c k₀.nextPipeId (pipelineStart c k₀) := by
  obtain ⟨live, hc⟩ := hk.counted
  obtain ⟨refs, hledger⟩ := hk.ledger
  simp only [PipelineCall.Clean, not_forall, not_or] at h
  obtain ⟨left, right, hplan, hmade, hattach⟩ := h
  obtain ⟨hid, i, -, horphan, -⟩ := pipeCreate_made hc hledger hmade
  have hstart := pipelineStart_spec c k₀
  generalize pipelineStart c k₀ = s at hstart
  cases hstart with
  | refused status plan =>
      rw [hplan] at plan
      cases plan
  | failed _ _ _ none => exact absurd none hmade
  | noEntry _ _ _ _ _ => exact ⟨⟨i, horphan⟩, trivial, fun h0 => absurd rfl h0⟩
  | made left' right' plan _ entries =>
      rw [hplan] at plan
      cases plan
      refine ⟨⟨i, horphan⟩, ⟨hid, ?_⟩, fun h0 => absurd rfl h0⟩
      by_contra hnot
      obtain ⟨hmem, hsmall⟩ := not_or.mp hnot
      exact hattach ⟨entries, not_not.mp hmem, not_le.mp hsmall⟩

/-- Identifiers that do not fit into sixteen bits name no new pipe. -/
theorem Orphan.not_given_wide {k : Kernel} {i n shell pcb stack stdinId stdoutId : ℕ} {fg : Bool}
    (h : Orphan i n k) (hn : 2 ^ 16 ≤ n)
    (hv : ValidRequest k (createRequest shell pcb stack fg stdinId stdoutId)) :
    ¬Given k (createRequest shell pcb stack fg stdinId stdoutId) i := by
  obtain ⟨hin, hout⟩ := createRequest_ids shell pcb stack fg stdinId stdoutId
  exact h.not_given hv (fun _ => by omega) (fun _ => by omega)

theorem Leaking.shell {n : ℕ} (h : Leaking c n s)
    (valid : ∀ r, c.request s.place = some r → ValidRequest s.kernel r)
    (step : pipelineShell c s = some s') : Leaking c n s' := by
  obtain ⟨i, horphan⟩ := h.orphan
  obtain ⟨live, hc⟩ := horphan.counted
  have hplace := h.place
  unfold pipelineShell at step
  split at step
  · next pipeId hat =>
      have hv := valid _ (by rw [hat]; rfl)
      obtain ⟨q, k', hcreate, hs⟩ := hc.create_spawned hv
      rw [hcreate, Option.bind_eq_bind, Option.bind_some] at step
      dsimp only at step
      rw [hat] at hplace
      have hwide : q ≠ 0 → 2 ^ 16 ≤ n := by
        intro hq
        refine hplace.2.resolve_left fun hmem => hq (hs.failed ?_).1
        rw [PipelineCall.leftRequest, createRequest_granted]
        exact hmem
      have horphan' : Orphan i n k' := by
        refine horphan.spawned hs fun hg => ?_
        refine horphan.not_given_wide (hplace.2.resolve_left fun hmem => hmem ?_) hv
        exact (createRequest_granted _ _ _ _ _ _).mp hg
      cases step
      by_cases hq : q = 0
      · rw [if_pos hq]
        exact ⟨⟨i, horphan'⟩, trivial, fun h0 => absurd rfl h0⟩
      · rw [if_neg hq]
        exact ⟨⟨i, horphan'⟩, ⟨hplace.1, hwide hq⟩, fun _ => (hs.allocated hq).1⟩
  · next pipeId hat =>
      have hv := valid _ (by rw [hat]; rfl)
      obtain ⟨q, k', hcreate, hs⟩ := hc.create_spawned hv
      rw [hcreate, Option.bind_eq_bind, Option.bind_some] at step
      rw [hat] at hplace
      cases step
      refine ⟨⟨i, horphan.spawned hs fun _ => horphan.not_given_wide hplace.2 hv⟩, trivial,
        fun h0 => hs.keeps (h.left h0)⟩
  · split at step
    · cases step
      exact ⟨⟨i, horphan⟩, trivial, h.left⟩
    · next hleft =>
        obtain ⟨k', hkill, step⟩ := Option.bind_eq_some_iff.mp step
        cases step
        obtain ⟨hended, halloc⟩ := hc.kill_ended (h.left hleft) hkill
        refine ⟨⟨i, horphan.ended hended fun q hq => halloc ▸ hq⟩, trivial, fun h0 => ?_⟩
        dsimp only
        rw [halloc]
        exact h.left h0
  · cases step

theorem PipelineRun.leaking (run : PipelineRun c k₀ t s) (hk : Accounted k₀) (h : ¬c.Clean k₀) :
    Leaking c k₀.nextPipeId s := by
  induction run with
  | start => exact leaking_start hk h
  | shell _ valid step ih => exact ih.shell valid step
  | undisturbed _ step ih =>
      obtain ⟨i, horphan⟩ := ih.orphan
      refine ⟨⟨i, horphan.undisturbed step⟩, ih.place, fun h0 => ?_⟩
      dsimp only
      rw [step.allocated]
      exact ih.left h0
  | semaphore _ _ _ step ih =>
      obtain ⟨i, horphan⟩ := ih.orphan
      obtain ⟨live, hc⟩ := horphan.counted
      obtain ⟨-, hfds, hpipes⟩ := step.frame hc.tables
      refine ⟨⟨i, horphan.same (step.counted hc) hfds hpipes⟩, ih.place, fun h0 => ?_⟩
      dsimp only
      rw [hfds.allocated]
      exact ih.left h0
  | create _ valid plain step ih =>
      obtain ⟨i, horphan⟩ := ih.orphan
      obtain ⟨live, hc⟩ := horphan.counted
      obtain ⟨q, k', hcreate, hs⟩ := hc.create_spawned valid
      cases step.symm.trans hcreate
      refine ⟨⟨i, horphan.spawned hs fun _ => ?_⟩, ih.place, fun h0 => hs.keeps (ih.left h0)⟩
      exact horphan.not_given valid (fun h0 => absurd plain.1 h0) fun h0 => absurd plain.2 h0
  | exit _ _ step ih =>
      obtain ⟨i, horphan⟩ := ih.orphan
      obtain ⟨live, hc⟩ := horphan.counted
      obtain ⟨hended, halloc⟩ := hc.exit_ended step
      refine ⟨⟨i, horphan.ended hended fun q hq => halloc ▸ hq⟩, ih.place, fun h0 => ?_⟩
      dsimp only
      rw [halloc]
      exact ih.left h0
  | kill _ _ exists_ step ih =>
      obtain ⟨i, horphan⟩ := ih.orphan
      obtain ⟨live, hc⟩ := horphan.counted
      obtain ⟨hended, halloc⟩ := hc.kill_ended exists_ step
      refine ⟨⟨i, horphan.ended hended fun q hq => halloc ▸ hq⟩, ih.place, fun h0 => ?_⟩
      dsimp only
      rw [halloc]
      exact ih.left h0
  | @destroy t s p k' _ _ exists_ notRunning pcb step ih =>
      obtain ⟨i, horphan⟩ := ih.orphan
      obtain ⟨live, hc⟩ := horphan.counted
      obtain ⟨hended, halloc⟩ := hc.destroy_ended exists_ notRunning pcb step
      refine ⟨⟨i, horphan.ended hended fun q hq => ?_⟩, ih.place, fun h0 => ?_⟩
      · rw [halloc, Function.update_apply] at hq
        split at hq
        · cases hq
        · exact hq
      · dsimp only at h0 ⊢
        split at h0
        · exact absurd rfl h0
        · next hne =>
            rw [if_neg hne, halloc, Function.update_of_ne hne]
            exact ih.left h0

/-- The invariant of a pipeline that gives its pipe back. -/
inductive Returning (c : PipelineCall) (k₀ : Kernel) (refs : ℕ → ℤ) (s : PipelineState) : Prop where
  /-- No pipe was made. -/
  | idle (piped : Piped k₀ refs maxPipes s.kernel) (place : ∃ status, s.place = .returned status)
      (left : s.left = 0)
  /-- The pipe waits for its writer. -/
  | fresh (i : ℕ) (free : (k₀.pipes i).used = false) (piped : Piped k₀ refs i s.kernel)
      (orphan : Orphan i k₀.nextPipeId s.kernel) (place : s.place = .spawnLeft k₀.nextPipeId)
      (left : s.left = 0) (memory : c.leftPcb ≠ 0 ∧ c.leftStack ≠ 0)
      (identifier : k₀.nextPipeId < 2 ^ 16)
  /-- The pipe is left to its descriptors. -/
  | attached (i : ℕ) (index : i < maxPipes) (free : (k₀.pipes i).used = false)
      (piped : Piped k₀ refs i s.kernel) (attached : Attached i s.kernel)
      (place : ∀ pipeId, s.place ≠ .spawnLeft pipeId ∧
        (s.place = .spawnRight pipeId → pipeId = k₀.nextPipeId))
      (left : s.left ≠ 0 → s.kernel.allocated s.left = true ∧ k₀.allocated s.left = false)
      (identifier : k₀.nextPipeId < 2 ^ 16)

theorem returning_start {live : Finset ℕ} (hc : FdsCounted k₀ live) (hledger : Ledger k₀ refs)
    (h : c.Clean k₀) : Returning c k₀ refs (pipelineStart c k₀) := by
  have hstart := pipelineStart_spec c k₀
  generalize pipelineStart c k₀ = s at hstart
  cases hstart with
  | refused status plan => exact .idle (.refl hc hledger) ⟨status, rfl⟩ rfl
  | failed left right plan none => exact .idle (pipeCreate_failed hc hledger none) ⟨_, rfl⟩ rfl
  | noEntry left right plan made missing =>
      exact absurd ((h left right plan).resolve_left made).entries missing
  | made left right plan made entries =>
      have hattach := (h left right plan).resolve_left made
      obtain ⟨hid, i, hfree, horphan, hpiped⟩ := pipeCreate_made hc hledger made
      exact .fresh i hfree hpiped horphan (by rw [hid]) rfl hattach.memory hattach.identifier

theorem Returning.piped (h : Returning c k₀ refs s) : ∃ i, Piped k₀ refs i s.kernel := by
  cases h with
  | idle piped => exact ⟨_, piped⟩
  | fresh i _ piped => exact ⟨i, piped⟩
  | attached i _ _ piped => exact ⟨i, piped⟩

/-- A step of somebody else that keeps the invariants of the kernel. -/
theorem Returning.of_kernel (h : Returning c k₀ refs s) {left : ℕ} {refs' : ℕ → ℤ}
    (hpiped : ∀ i, Piped k₀ refs i s.kernel → Piped k₀ refs' i k')
    (horphan : ∀ i n, Orphan i n s.kernel → Orphan i n k')
    (hattached : ∀ i, i < maxPipes → Attached i s.kernel → Attached i k')
    (hleft : left ≠ 0 → left = s.left ∧
      (s.kernel.allocated s.left = true → k'.allocated left = true)) :
    Returning c k₀ refs' ⟨k', s.place, left⟩ := by
  have hzero : s.left = 0 → left = 0 := by
    intro h0
    by_contra hne
    exact hne ((hleft hne).1.trans h0)
  cases h with
  | idle piped place left => exact .idle (hpiped _ piped) place (hzero left)
  | fresh i free piped orphan place left memory identifier =>
      exact .fresh i free (hpiped i piped) (horphan i _ orphan) place (hzero left) memory identifier
  | attached i index free piped att place left' identifier =>
      refine .attached i index free (hpiped i piped) (hattached i index att) place (fun hne => ?_)
        identifier
      obtain ⟨heq, hkeeps⟩ := hleft hne
      obtain ⟨halloc, hnew⟩ := left' (heq ▸ hne)
      exact ⟨hkeeps halloc, heq ▸ hnew⟩

/-- The left process becomes the writer of the pipe. -/
theorem Returning.spawnLeft {i p : ℕ} (hT : Tables k₀) (free : (k₀.pipes i).used = false)
    (piped : Piped k₀ refs i s.kernel) (orphan : Orphan i k₀.nextPipeId s.kernel)
    (memory : c.leftPcb ≠ 0 ∧ c.leftStack ≠ 0) (identifier : k₀.nextPipeId < 2 ^ 16)
    (hv : ValidRequest s.kernel (c.leftRequest k₀.nextPipeId))
    (hs : Spawned s.kernel (c.leftRequest k₀.nextPipeId) p k') :
    p ≠ 0 ∧ Returning c k₀ refs ⟨k', .spawnRight k₀.nextPipeId, p⟩ := by
  have hreq : c.leftRequest k₀.nextPipeId =
      ⟨1, c.shell, 1, false, 0, k₀.nextPipeId, c.leftPcb, c.leftStack⟩ :=
    createRequest_eq _ _ _ _ (by norm_num) identifier
  have hg : Granted (c.leftRequest k₀.nextPipeId) := (createRequest_granted _ _ _ _ _ _).mpr memory
  obtain ⟨rfl, halloc, -, hstdout⟩ := hs.created hg
  have hne : (c.leftRequest k₀.nextPipeId).pcb ≠ 0 := hg.2.1
  have hfound : pipeGetById s.kernel k₀.nextPipeId = some i := by
    obtain ⟨live, hc⟩ := orphan.counted
    have hfound := pipeGetById_of_used hc.tables orphan.index orphan.used
    rwa [orphan.id_eq] at hfound
  have hnew : k₀.allocated (c.leftRequest k₀.nextPipeId).pcb = false := by
    cases hold : k₀.allocated (c.leftRequest k₀.nextPipeId).pcb with
    | false => rfl
    | true =>
        have hfree := (hv.1 hne).2
        rw [(piped.others _ hold).1] at hfree
        cases hfree
  refine ⟨hne, .attached i orphan.index free ?_ ?_ ?_ ?_ identifier⟩
  · refine piped.spawned hs fun _ j hgiven hji => piped.given hT hv ?_ ?_ hgiven hji
    · exact .inl (by rw [hreq])
    · exact .inr (by rw [hreq])
  · intro _ hnone
    have hout : (c.leftRequest k₀.nextPipeId).stdoutPipeId = k₀.nextPipeId := by rw [hreq]
    refine hnone _ (hs.allocated hne).1 1 (by decide) (hstdout i ?_ ?_)
    · rw [hout]
      exact hT.nextPos.ne'
    · rw [hout]
      exact hfound
  · intro pipeId
    refine ⟨by simp, fun hplace => ?_⟩
    exact (PipelineAt.spawnRight.inj hplace).symm
  · exact fun _ => ⟨(hs.allocated hne).1, hnew⟩

theorem Returning.shell (h : Returning c k₀ refs s) (hT : Tables k₀)
    (valid : ∀ r, c.request s.place = some r → ValidRequest s.kernel r)
    (step : pipelineShell c s = some s') : Returning c k₀ refs s' := by
  cases h with
  | idle piped place left =>
      obtain ⟨status, hat⟩ := place
      rw [pipelineShell, hat] at step
      cases step
  | fresh i free piped orphan place left memory identifier =>
      have hv := valid _ (by rw [place]; rfl)
      obtain ⟨live, hc⟩ := orphan.counted
      obtain ⟨p, k', hcreate, hs⟩ := hc.create_spawned hv
      obtain ⟨hp, hnext⟩ := Returning.spawnLeft hT free piped orphan memory identifier hv hs
      rw [pipelineShell, place] at step
      dsimp only at step
      rw [hcreate, Option.bind_eq_bind, Option.bind_some, Option.some.injEq] at step
      dsimp only at step
      rw [if_neg hp] at step
      exact step ▸ hnext
  | attached i index free piped att place left identifier =>
      obtain ⟨live, hc⟩ := piped.counted
      unfold pipelineShell at step
      split at step
      · next pipeId hat => exact absurd hat (place pipeId).1
      · next pipeId hat =>
          obtain rfl := (place pipeId).2 hat
          have hv := valid _ (by rw [hat]; rfl)
          obtain ⟨p, k', hcreate, hs⟩ := hc.create_spawned hv
          rw [hcreate, Option.bind_eq_bind, Option.bind_some] at step
          cases step
          have hreq : c.rightRequest k₀.nextPipeId =
              ⟨1, c.shell, 1, true, k₀.nextPipeId, 0, c.rightPcb, c.rightStack⟩ :=
            createRequest_eq _ _ _ _ identifier (by norm_num)
          refine .attached i index free ?_ (att.spawned hs index) (by simp) (fun h0 => ?_) identifier
          · refine piped.spawned hs fun _ j hgiven hji => piped.given hT hv ?_ ?_ hgiven hji
            · exact .inr (by rw [hreq])
            · exact .inl (by rw [hreq])
          · exact ⟨hs.keeps (left h0).1, (left h0).2⟩
      · split at step
        · cases step
          exact .attached i index free piped att (by simp) left identifier
        · next hleft =>
            obtain ⟨k', hkill, step⟩ := Option.bind_eq_some_iff.mp step
            cases step
            obtain ⟨hold, hnew⟩ := left hleft
            obtain ⟨hended, halloc⟩ := hc.kill_ended hold hkill
            refine .attached i index free (piped.ended hended hnew (fun q hq => halloc ▸ hq)
              fun q _ => by rw [halloc]) (att.ended hended hc index) (by simp) (fun h0 => ?_) identifier
            dsimp only
            rw [halloc]
            exact left h0
      · cases step

theorem PipelineRun.returning (run : PipelineRun c k₀ t s) {live : Finset ℕ}
    (hk : FdsCounted k₀ live) (hledger : Ledger k₀ refs) (h : c.Clean k₀) :
    Returning c k₀ (userRefs refs t) s := by
  induction run with
  | start => exact returning_start hk hledger h
  | shell _ valid step ih => exact ih.shell hk.tables valid step
  | undisturbed _ step ih =>
      refine ih.of_kernel (fun i hp => hp.undisturbed step) (fun i n ho => ho.undisturbed step)
        (fun i _ ha => ha.undisturbed step) fun _ => ⟨rfl, fun halloc => ?_⟩
      rw [step.allocated]
      exact halloc
  | semaphore _ _ _ step ih =>
      obtain ⟨i, hpiped⟩ := ih.piped
      obtain ⟨live, hc⟩ := hpiped.counted
      obtain ⟨-, hfds, hpipes⟩ := step.frame hc.tables
      have hc' := step.counted hc
      refine ih.of_kernel (fun i hp => hp.same hc' hfds hpipes ?_)
        (fun i n ho => ho.same hc' hfds hpipes) (fun i _ ha => ha.same hfds hpipes)
        fun _ => ⟨rfl, fun halloc => ?_⟩
      · rw [userRefs_snoc]
        exact step.ledger hc.tables hp.ledger _
      · rw [hfds.allocated]
        exact halloc
  | create _ valid plain step ih =>
      obtain ⟨i, hpiped⟩ := ih.piped
      obtain ⟨live, hc⟩ := hpiped.counted
      obtain ⟨q, k', hcreate, hs⟩ := hc.create_spawned valid
      cases step.symm.trans hcreate
      refine ih.of_kernel (fun i hp => ?_) (fun i n ho => ?_) (fun i hi ha => ha.spawned hs hi)
        fun _ => ⟨rfl, hs.keeps⟩
      · refine hp.spawned hs fun _ j hgiven hji => ?_
        exact hp.given hk.tables valid (.inl plain.1) (.inl plain.2) hgiven hji
      · refine ho.spawned hs fun _ => ho.not_given valid (fun h0 => ?_) fun h0 => ?_
        · exact absurd plain.1 h0
        · exact absurd plain.2 h0
  | exit _ new step ih =>
      obtain ⟨i, hpiped⟩ := ih.piped
      obtain ⟨live, hc⟩ := hpiped.counted
      obtain ⟨hended, halloc⟩ := hc.exit_ended step
      refine ih.of_kernel (fun i hp => hp.ended hended new (fun q hq => halloc ▸ hq) fun q _ => by
        rw [halloc]) (fun i n ho => ho.ended hended fun q hq => halloc ▸ hq)
        (fun i hi ha => ha.ended hended hc hi) fun _ => ⟨rfl, fun h0 => by rw [halloc]; exact h0⟩
  | kill _ new exists_ step ih =>
      obtain ⟨i, hpiped⟩ := ih.piped
      obtain ⟨live, hc⟩ := hpiped.counted
      obtain ⟨hended, halloc⟩ := hc.kill_ended exists_ step
      refine ih.of_kernel (fun i hp => hp.ended hended new (fun q hq => halloc ▸ hq) fun q _ => by
        rw [halloc]) (fun i n ho => ho.ended hended fun q hq => halloc ▸ hq)
        (fun i hi ha => ha.ended hended hc hi) fun _ => ⟨rfl, fun h0 => by rw [halloc]; exact h0⟩
  | @destroy t s p k' _ new exists_ notRunning pcb step ih =>
      obtain ⟨i, hpiped⟩ := ih.piped
      obtain ⟨live, hc⟩ := hpiped.counted
      obtain ⟨hended, halloc⟩ := hc.destroy_ended exists_ notRunning pcb step
      have hother : ∀ q, q ≠ p → k'.allocated q = s.kernel.allocated q := fun q hq => by
        rw [halloc, Function.update_of_ne hq]
      have hless : ∀ q, k'.allocated q = true → s.kernel.allocated q = true := by
        intro q hq
        by_cases hqp : q = p
        · rw [hqp, exists_]
        · rw [← hother q hqp, hq]
      refine ih.of_kernel (fun i hp => hp.ended hended new hless hother)
        (fun i n ho => ho.ended hended hless) (fun i hi ha => ha.ended hended hc hi) fun h0 => ?_
      by_cases hleft : s.left = p
      · exact absurd (if_pos hleft) h0
      · rw [if_neg hleft]
        exact ⟨rfl, fun halloc => (hother _ hleft).trans halloc⟩

end Runs

section Objects

variable {c : PipelineCall} {k₀ k : Kernel} {refs refs' : ℕ → ℤ} {t : List IpcEvent}
  {s : PipelineState}

theorem Ledger.semInUse (h : Ledger k refs) (T : Tables k) (id : ℕ) :
    SemInUse k id ↔ PipeSem k id ∨ 0 < refs id := by
  have hrefs : SemInUse k id ↔ semRefs k id ≠ none := by
    rw [Option.ne_none_iff_exists']
    constructor
    · rintro ⟨j, hj, hused, hid⟩
      exact ⟨_, (semRefs_eq_some T.table).mpr ⟨j, hj, hused, hid, rfl⟩⟩
    · rintro ⟨r, hr⟩
      obtain ⟨j, hj, hused, hid, -⟩ := (semRefs_eq_some T.table).mp hr
      exact ⟨j, hj, hused, hid⟩
  rw [hrefs]
  by_cases hp : PipeSem k id
  · simp [(h.pipe id hp).1, hp]
  · rcases h.user id hp with ⟨he, hlt⟩ | ⟨he, hzero⟩
    · simp [he, hlt]
    · simp [he, hp, hzero]

/-- The pipes in use and their semaphores are as before, so that only the semaphores of users
count. -/
theorem Piped.sameObjects_iff {i : ℕ} (h : Piped k₀ refs' i k) (hT : Tables k₀)
    (hledger : Ledger k₀ refs) (hfree₀ : i < maxPipes → (k₀.pipes i).used = false)
    (hfree : i < maxPipes → (k.pipes i).used = false) :
    SameObjects k₀ k ↔ ∀ id, ¬PipeSem k₀ id → (0 < refs' id ↔ 0 < refs id) := by
  have hentry : ∀ j < maxPipes, (k.pipes j).used = (k₀.pipes j).used ∧
      ((k.pipes j).used = true → (k.pipes j).id = (k₀.pipes j).id ∧
        (k.pipes j).semIds = (k₀.pipes j).semIds) := by
    intro j hj
    by_cases hji : j = i
    · subst hji
      rw [hfree hj, hfree₀ hj]
      exact ⟨rfl, fun hu => nomatch hu⟩
    · exact h.pipes j hj hji
  obtain ⟨live, hc⟩ := h.counted
  have hpipes : ∀ id, PipeInUse k id ↔ PipeInUse k₀ id := by
    intro id
    refine exists_congr fun j => and_congr_right fun hj => ?_
    rw [← (hentry j hj).1]
    refine and_congr_right fun hu => ?_
    rw [((hentry j hj).2 hu).1]
  have hsems : ∀ id, PipeSem k id ↔ PipeSem k₀ id := by
    intro id
    rw [pipeSem_iff, pipeSem_iff]
    refine exists_congr fun j => and_congr_right fun hj => ?_
    rw [← (hentry j hj).1]
    refine and_congr_right fun hu => ?_
    rw [((hentry j hj).2 hu).2]
  have huse : ∀ id, (SemInUse k id ↔ SemInUse k₀ id) ↔
      (¬PipeSem k₀ id → (0 < refs' id ↔ 0 < refs id)) := by
    intro id
    rw [Ledger.semInUse h.ledger hc.tables, Ledger.semInUse hledger hT, hsems]
    tauto
  constructor
  · exact fun hsame id => (huse id).mp (hsame.semaphores id)
  · exact fun hrefs => ⟨hpipes, fun id => (huse id).mpr (hrefs id)⟩

theorem Returning.sameObjects_iff {live : Finset ℕ} (h : Returning c k₀ refs' s)
    (hc : FdsCounted k₀ live) (hledger : Ledger k₀ refs) (hsettled : s.Settled k₀) :
    SameObjects k₀ s.kernel ↔ ∀ id, ¬PipeSem k₀ id → (0 < refs' id ↔ 0 < refs id) := by
  obtain ⟨⟨status, hat⟩, halloc⟩ := hsettled
  cases h with
  | idle piped place left =>
      exact piped.sameObjects_iff hc.tables hledger (fun h0 => absurd h0 (lt_irrefl _))
        fun h0 => absurd h0 (lt_irrefl _)
  | fresh i free piped orphan place left memory identifier =>
      rw [hat] at place
      cases place
  | attached i index free piped att place left identifier =>
      refine piped.sameObjects_iff hc.tables hledger (fun _ => free) fun _ => ?_
      rw [← Bool.not_eq_true]
      intro hu
      apply att hu
      intro p hp fd hfd hx
      -- Only processes from before the call are left, and the entry was free then.
      rw [halloc] at hp
      rw [(piped.others p hp).2 fd hfd] at hx
      exact hc.unreferenced_of_unused free p hp fd hfd hx

/-- The calls have left the semaphores of users as they were, by the references of the ledger. -/
theorem returned_iff (hledger : Ledger k₀ refs) :
    Returned k₀ t ↔ ∀ id, ¬PipeSem k₀ id → (0 < userRefs refs t id ↔ 0 < refs id) := by
  refine forall_congr' fun id => forall_congr' fun hid => ?_
  have hrefs := Ledger.openRefs_eq hledger hid
  rw [userRefs_congr t hrefs, hrefs]

/-- When the call has returned and its processes are gone, the pipes and semaphores in use are
those from before exactly when the pipeline was clean and its commands closed what they made.
Commands other than `test_synchro` make nothing. -/
theorem pipeline_keeps_objects_iff (hk : Accounted k₀) (run : PipelineRun c k₀ t s)
    (hsettled : s.Settled k₀) :
    (SameObjects k₀ s.kernel ↔ c.Clean k₀ ∧ Returned k₀ t) ∧ (¬c.Synchronizes → Returned k₀ t) := by
  obtain ⟨live, hc⟩ := hk.counted
  obtain ⟨refs, hledger⟩ := hk.ledger
  have hsame : c.Clean k₀ → (SameObjects k₀ s.kernel ↔ Returned k₀ t) := by
    intro hclean
    rw [returned_iff hledger]
    exact (run.returning hc hledger hclean).sameObjects_iff hc hledger hsettled
  refine ⟨⟨fun hobjects => ?_, fun ⟨hclean, hreturned⟩ => (hsame hclean).mpr hreturned⟩, ?_⟩
  · have hclean : c.Clean k₀ := by
      by_contra hnot
      obtain ⟨i, horphan⟩ := (run.leaking hk hnot).orphan
      have huse : PipeInUse s.kernel k₀.nextPipeId := ⟨i, horphan.index, horphan.used, horphan.id_eq⟩
      obtain ⟨j, hj, hused, hid⟩ := (hobjects.pipes _).mp huse
      have hlt := (hc.tables.bound j hj hused).2
      omega
    exact ⟨hclean, (hsame hclean).mp hobjects⟩
  · intro hplain
    rw [run.no_calls hplain]
    exact fun _ _ => Iff.rfl

/-- A system in which no pipe and no semaphore is in use. -/
theorem accounted_of_unused {live : Finset ℕ} (hc : FdsCounted k live)
    (hpipes : ∀ i < maxPipes, (k.pipes i).used = false)
    (hsems : ∀ j < maxSemaphores, (k.semaphores j).used = false) : Accounted k := by
  refine ⟨⟨live, hc⟩, fun _ => 0, fun id hid => ?_, fun id _ => .inr ⟨?_, rfl⟩⟩
  · obtain ⟨i, hi, hused, -⟩ := hid
    rw [hpipes i hi] at hused
    cases hused
  · cases hr : semRefs k id with
    | none => rfl
    | some r =>
        obtain ⟨j, hj, hused, -⟩ := (semRefs_eq_some hc.tables.table).mp hr
        rw [hsems j hj] at hused
        cases hused

/-- A line without memory for its processes. -/
def starved (line : String) : PipelineCall := ⟨line.toList, 48, 0, 0, 0, 0⟩

/-- The theorem at a run: the left process gets no memory, and the pipe stays. -/
theorem pipeline_keeps_objects_starved :
    ∃ k₀ s, Accounted k₀ ∧ PipelineRun (starved "cat | wc") k₀ [] s ∧ s.Settled k₀ ∧
      ¬SameObjects k₀ s.kernel := by
  have hlt : 48 < addressCount := by
    unfold addressCount
    decide
  have hcalc : ((initScheduler bootKernel 16 8192).bind fun k =>
      (fdExec k (.createProcess ⟨1, 0, 2, true, 0, 0, 48, 12288⟩)).map fun k₀ =>
        decide ((∀ i < maxPipes, (k₀.pipes i).used = false) ∧
          (∀ j < maxSemaphores, (k₀.semaphores j).used = false) ∧ k.allocated 48 = false ∧
          (pipelineStart (starved "cat | wc") k₀).kernel.allocated 48 = true ∧
          (pipelineStart (starved "cat | wc") k₀).place = .spawnLeft 1 ∧
          (pipeCreate k₀).1 = 1)) = some true := by
    decide +kernel
  obtain ⟨k, hinit, hcalc⟩ := Option.bind_eq_some_iff.mp hcalc
  obtain ⟨k₀, hcreate, hfacts⟩ := Option.map_eq_some_iff.mp hcalc
  obtain ⟨hpipes, hsems, hfree, hshell, hplace, hid⟩ := of_decide_eq_true hfacts
  obtain ⟨live, hc⟩ := initScheduler_counted (by omega) hinit
  obtain ⟨live₀, hc₀, -⟩ := FdsCounted.step (c := .createProcess _) hc
    ⟨fun _ => ⟨hlt, hfree⟩, fun h => absurd rfl h⟩ hcreate
  have haccounted := accounted_of_unused hc₀ hpipes hsems
  have hstep : pipelineShell (starved "cat | wc") (pipelineStart (starved "cat | wc") k₀) =
      some ⟨(pipelineStart (starved "cat | wc") k₀).kernel, .returned cmdError, 0⟩ := by
    rw [pipelineShell, hplace]
    rfl
  have hrun : PipelineRun (starved "cat | wc") k₀ []
      ⟨(pipelineStart (starved "cat | wc") k₀).kernel, .returned cmdError, 0⟩ := by
    refine .shell .start (fun r hr => ?_) hstep
    rw [hplace] at hr
    cases hr
    exact ⟨fun h0 => absurd rfl h0, fun _ => hshell⟩
  have hsettled : PipelineState.Settled
      ⟨(pipelineStart (starved "cat | wc") k₀).kernel, .returned cmdError, 0⟩ k₀ := by
    refine ⟨⟨_, rfl⟩, ?_⟩
    have hstart := pipelineStart_spec (starved "cat | wc") k₀
    generalize pipelineStart (starved "cat | wc") k₀ = s₀ at hstart
    cases hstart with
    | refused => rfl
    | _ => exact (pipeCreate_sameFds hc₀).allocated
  refine ⟨k₀, _, haccounted, hrun, hsettled, ?_⟩
  rw [(pipeline_keeps_objects_iff haccounted hrun hsettled).1]
  rintro ⟨hclean, -⟩
  have hplan : commandParse (starved "cat | wc").line = .run ⟨"cat", false⟩ ⟨"wc", false⟩ := by
    decide +kernel
  rcases hclean _ _ hplan with hfail | hattach
  · rw [hid] at hfail
    cases hfail
  · exact hattach.memory.1 rfl

/-- In the shell after the start of the system, `mvar 1 1 | cat` is an error that leaves a pipe
and three semaphores in use. -/
theorem pipeline_leaves_pipe_in_use :
    ∃ k₀ s, shellWith [] = some k₀ ∧ PipelineRun (starved "mvar 1 1 | cat") k₀ [] s ∧ s.Settled k₀ ∧
      PipeInUse s.kernel 1 ∧ ¬PipeInUse k₀ 1 ∧ SemInUse s.kernel 2 ∧ ¬SemInUse k₀ 2 ∧
      ¬SameObjects k₀ s.kernel := by
  have hcalc : (shellWith []).map (fun k₀ =>
      decide ((pipelineStart (starved "mvar 1 1 | cat") k₀).place = .returned cmdError ∧
        PipeInUse (pipelineStart (starved "mvar 1 1 | cat") k₀).kernel 1 ∧ ¬PipeInUse k₀ 1 ∧
        SemInUse (pipelineStart (starved "mvar 1 1 | cat") k₀).kernel 2 ∧ ¬SemInUse k₀ 2)) =
      some true := by
    decide +kernel
  obtain ⟨k₀, hboot, hfacts⟩ := Option.map_eq_some_iff.mp hcalc
  obtain ⟨hplace, hpipe, hnot, hsem, hnot'⟩ := of_decide_eq_true hfacts
  obtain ⟨-, -, hquiet, -⟩ := shellWith_reachable hboot
  refine ⟨k₀, _, hboot, .start, ⟨⟨_, hplace⟩, ?_⟩, hpipe, hnot, hsem, hnot', fun hsame => ?_⟩
  · obtain ⟨r, k', heq, -, hfds, -⟩ := pipeCreate_spec hquiet.sound.tables
    have hstart := pipelineStart_spec (starved "mvar 1 1 | cat") k₀
    generalize pipelineStart (starved "mvar 1 1 | cat") k₀ = s₀ at hstart
    have hsame : (pipeCreate k₀).2.allocated = k₀.allocated := by
      rw [heq]
      exact hfds.allocated
    cases hstart with
    | refused => rfl
    | _ => exact hsame
  · exact hnot ((hsame.pipes 1).mp hpipe)

end Objects

end SoKernel.Userland
