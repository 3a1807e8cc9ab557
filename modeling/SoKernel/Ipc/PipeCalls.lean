import SoKernel.Ipc.PipeStep
import SoKernel.Proc.Boot

/-!
# Processes that read and write pipes

The calls of `pipe_read` and `pipe_write` by any number of processes, as the system calls
make them, between any other calls on pipes and on semaphores that belong to no pipe.
-/

namespace SoKernel

open Function (update)

section Program

/-- The conversion of a `size_t` to `int`. -/
def intOf (n : ℕ) : ℤ := (BitVec.ofNat 32 n).toInt

theorem intOf_of_lt {n : ℕ} (h : n < 2 ^ 31) : intOf n = n := by
  rw [intOf, BitVec.toInt_ofNat', Int.bmod_eq_of_le (by omega) (by omega)]

/-- Where a process is in `pipe_read` or `pipe_write`. -/
inductive PipeJob where
  /-- Outside; with the result of the last call and the bytes that it has moved. -/
  | idle (result : ℤ) (bytes : List UInt8)
  /-- At the start of a turn of `pipe_read`, or asleep in its wait for `sem_items`. -/
  | reading (i count bytesRead : ℕ) (bytes : List UInt8) (asleep : Bool)
  /-- At the start of a turn of `pipe_write`, or asleep in its wait for `sem_spaces`. -/
  | writing (i : ℕ) (buffer : List UInt8) (bytesWritten : ℕ) (bytes : List UInt8) (asleep : Bool)

/-- `pipe_read` after a turn of its loop. -/
def readNext (i count bytesRead : ℕ) (bytes : List UInt8) : Reply → PipeJob
  | .moved b =>
      if bytesRead + 1 < count then .reading i count (bytesRead + 1) (bytes ++ [b]) false
      else .idle (intOf (bytesRead + 1)) (bytes ++ [b])
  | .again => .reading i count bytesRead bytes false
  | .blocked => .reading i count bytesRead bytes true
  | _ => .idle (intOf bytesRead) bytes

theorem readNext_moved (i count n : ℕ) (bytes : List UInt8) (b : UInt8) :
    readNext i count n bytes (.moved b) =
      if n + 1 < count then .reading i count (n + 1) (bytes ++ [b]) false
      else .idle (intOf (n + 1)) (bytes ++ [b]) := rfl

/-- `pipe_write` after a turn of its loop. -/
def writeNext (i : ℕ) (buffer : List UInt8) (bytesWritten : ℕ) (bytes : List UInt8) :
    Reply → PipeJob
  | .moved b =>
      if bytesWritten + 1 < buffer.length then
        .writing i buffer (bytesWritten + 1) (bytes ++ [b]) false
      else .idle (intOf (bytesWritten + 1)) (bytes ++ [b])
  | .again => .writing i buffer bytesWritten bytes false
  | .blocked => .writing i buffer bytesWritten bytes true
  | _ => .idle (intOf bytesWritten) bytes

theorem writeNext_moved (i : ℕ) (buffer : List UInt8) (n : ℕ) (bytes : List UInt8) (b : UInt8) :
    writeNext i buffer n bytes (.moved b) =
      if n + 1 < buffer.length then .writing i buffer (n + 1) (bytes ++ [b]) false
      else .idle (intOf (n + 1)) (bytes ++ [b]) := rfl

/-- A process outside may enter `pipe_read` or `pipe_write`; the system calls pass a count
between `1` and the largest `int`. -/
inductive Enters : PipeJob → PipeJob → Prop
  | stay (j : PipeJob) : Enters j j
  | read (result : ℤ) (bytes : List UInt8) (i count : ℕ) (pos : 0 < count) (int : count < 2 ^ 31) :
      Enters (.idle result bytes) (.reading i count 0 [] false)
  | write (result : ℤ) (bytes : List UInt8) (i : ℕ) (buffer : List UInt8)
      (pos : 0 < buffer.length) (int : buffer.length < 2 ^ 31) :
      Enters (.idle result bytes) (.writing i buffer 0 [] false)

/-- The calls that are no turns of `pipe_read` and `pipe_write`. -/
def Plain : IpcCall → Prop
  | .readTurn _ _ | .writeTurn _ _ => False
  | _ => True

def jobActs : PipeJob → IpcCall → (Reply → PipeJob) → Prop
  | .idle result bytes, c, next => Plain c ∧ next = fun _ => .idle result bytes
  | .reading i count n bytes _, c, next => c = .readTurn i n ∧ next = readNext i count n bytes
  | .writing i buffer n bytes _, c, next =>
      ∃ b, buffer[n]? = some b ∧ c = .writeTurn i b ∧ next = writeNext i buffer n bytes

def pipeProgram : Program PipeJob := fun _ j c next => ∃ j', Enters j j' ∧ jobActs j' c next

end Program

section Start

/-- There are processes, but no pipe and nobody who waits for a semaphore. -/
structure Quiet (k : Kernel) : Prop where
  table : SemTable k.semaphores k.nextSemId
  nextSemId : 0 < k.nextSemId
  nextPipeId : 0 < k.nextPipeId
  queues : ∀ i, (k.semaphores i).waitHead = 0 ∧ (k.semaphores i).waitTail = 0
  pipes : ∀ i, (k.pipes i).used = false ∧ (k.pipes i).id = 0 ∧ (k.pipes i).mutex = 0
  alive : ∀ p, k.state p ≠ .finished

/-- The semaphores of a state in which nobody waits. -/
def quietSems (k : Kernel) : Sems := fun id =>
  (semGetById k id).map fun i => ⟨(k.semaphores i).value, []⟩

theorem quietSems_queue {k : Kernel} {id : ℕ} {s : CountingSemaphore ℕ} (h : quietSems k id = some s) :
    s.queue = [] := by
  obtain ⟨i, -, rfl⟩ := Option.map_eq_some_iff.mp h
  rfl

theorem Quiet.sound {k : Kernel} (h : Quiet k) : Sound k (quietSems k) := by
  have hunused : ∀ i < maxPipes, (k.pipes i).used ≠ true := by
    intro i _ hu
    rw [(h.pipes i).1] at hu
    cases hu
  refine ⟨⟨h.table, h.nextSemId, fun i hi hu => ?_, fun id s hs => ?_, fun id s hs p hp => ?_⟩,
    ⟨h.table, h.nextPipeId, h.nextSemId, fun i hi hu => absurd hu (hunused i hi),
      fun i _ _ => (h.pipes i).2.1, fun i hi _ _ hu => absurd hu (hunused i hi),
      fun i hi hu => absurd hu (hunused i hi), fun i hi hu => absurd hu (hunused i hi),
      fun i hi hu => absurd hu (hunused i hi), fun i hi _ _ hu => absurd hu (hunused i hi)⟩,
    fun i _ _ => (h.pipes i).2.2, fun id s hs => ?_, h.alive⟩
  · refine ⟨[], ?_, (h.queues i).1, (h.queues i).2⟩
    rw [quietSems, h.table.find.mpr ⟨hi, hu, rfl⟩, Option.map_some]
  · obtain ⟨i, hfound, -⟩ := Option.map_eq_some_iff.mp hs
    obtain ⟨hi, hu, hid⟩ := semGetById_mem hfound
    exact ⟨i, hi, hu, hid⟩
  · rw [quietSems_queue hs] at hp
    cases hp
  · rw [quietSems_queue hs]
    exact List.not_mem_nil

/-- The state after the start of the system. -/
theorem Booted.quiet {k : Kernel} {idle shell : ℕ} (h : Booted k idle shell) : Quiet k := by
  obtain ⟨hfirst, hrest⟩ := h.semaphores
  have honly : ∀ i, (k.semaphores i).used = true → i = 0 := by
    intro i hu
    by_contra hne
    rw [hrest i hne] at hu
    cases hu
  refine ⟨⟨fun i _ hu => ?_, fun i _ j _ hui huj _ => ?_⟩, ?_, ?_, h.waitQueues, h.pipes, h.alive⟩
  · rw [honly i hu, hfirst, h.nextSemId]
    decide
  · rw [honly i hui, honly j huj]
  · rw [h.nextSemId]
    decide
  · rw [h.nextPipeId]
    decide

end Start

section Shell

/-- A process outside may make any call that is no turn. -/
theorem pipeProgram_plain (p : ℕ) (result : ℤ) (bytes : List UInt8) {c : IpcCall} (h : Plain c) :
    pipeProgram p (.idle result bytes) c fun _ => .idle result bytes :=
  ⟨_, .stay _, h, rfl⟩

/-- The choice of a ready process as the next one, for links that nobody uses. -/
def chooses (p : ℕ) : Choice :=
  let none : Links := ⟨fun _ => 0, fun _ => 0, fun _ => ⟨0, 0, 0⟩⟩
  ⟨⟨0, fun _ => 0⟩, none, p, [], none⟩

/-- The system after its start, when the shell has made a pipe and opened its two ends. -/
def shellPipe : Option (Kernel × Reply) := do
  let k ← bootSystem 16 8192 48 12288 1
  let k ← switchBy k (chooses 48)
  let (k, _) ← ipcExec k .pipeCreate
  let (k, _) ← ipcExec k (.pipeOpen 1 false)
  ipcExec k (.pipeOpen 1 true)

theorem shellPipe_run {k : Kernel} {r : Reply} (h : shellPipe = some (k, r)) :
    ∃ start m₁ m₂ : Ipc PipeJob, bootSystem 16 8192 48 12288 1 = some start.kernel ∧
      Booted start.kernel 16 48 ∧ (∀ q, start.thread q = .idle 0 []) ∧
      IpcRun pipeProgram start [] m₁ ∧
      IpcStep pipeProgram m₁ (some ⟨48, .pipeCreate, .value 1⟩) m₂ ∧
      IpcRun pipeProgram m₂ [⟨48, .pipeOpen 1 false, .value 1⟩, ⟨48, .pipeOpen 1 true, .value 1⟩]
        ⟨k, fun _ => .idle 0 []⟩ := by
  have hcalc : ((bootSystem 16 8192 48 12288 1).bind fun k₀ =>
      (saveContext { k₀ with needResched := false } k₀.current (chooses 48).frame).bind fun kₛ =>
        (switchBy k₀ (chooses 48)).bind fun k₁ => (ipcExec k₁ .pipeCreate).bind fun x₂ =>
          (ipcExec x₂.1 (.pipeOpen 1 false)).bind fun x₃ =>
            (ipcExec x₃.1 (.pipeOpen 1 true)).map fun x₄ =>
              decide ((k₀.current = 16 ∧ kₛ.allocated 48 = true ∧ kₛ.state 48 = .ready) ∧
                (k₁.current = 48 ∧ k₁.idleP = 16) ∧
                (x₂.2 = .value 1 ∧ x₂.1.current = 48 ∧ x₂.1.idleP = 16) ∧
                (x₃.2 = .value 1 ∧ x₃.1.current = 48 ∧ x₃.1.idleP = 16) ∧
                x₄.2 = .value 1)) = some true := by
    decide +kernel
  obtain ⟨k₀, hboot, h₁⟩ := Option.bind_eq_some_iff.mp hcalc
  obtain ⟨kₛ, hsave, h₂⟩ := Option.bind_eq_some_iff.mp h₁
  obtain ⟨k₁, hswitch, h₃⟩ := Option.bind_eq_some_iff.mp h₂
  obtain ⟨⟨k₂, r₂⟩, hexec₂, h₄⟩ := Option.bind_eq_some_iff.mp h₃
  obtain ⟨⟨k₃, r₃⟩, hexec₃, h₅⟩ := Option.bind_eq_some_iff.mp h₄
  obtain ⟨⟨k₄, r₄⟩, hexec₄, h₆⟩ := Option.map_eq_some_iff.mp h₅
  obtain ⟨⟨hcur₀, hal, hready⟩, ⟨hcur₁, hidle₁⟩, ⟨hr₂, hcur₂, hidle₂⟩, ⟨hr₃, hcur₃, hidle₃⟩, hr₄⟩ :=
    of_decide_eq_true h₆
  dsimp only at hr₂ hr₃ hr₄ hexec₃ hexec₄
  subst hr₂ hr₃ hr₄
  simp only [shellPipe, hboot, hswitch, hexec₂, hexec₃, hexec₄, Option.bind_eq_bind, Option.bind_some,
    Option.some.injEq, Prod.mk.injEq] at h
  obtain ⟨rfl, rfl⟩ := h
  have hcaller : ∀ k : Kernel, k.current = 48 → k.idleP = 16 → Caller k := by
    intro k hc hi
    rw [Caller, hc, hi]
    decide
  let outside : ℕ → PipeJob := fun _ => .idle 0 []
  have hsame : update outside 48 (.idle 0 []) = outside := Function.update_eq_self _ _
  refine ⟨⟨k₀, outside⟩, ⟨k₁, outside⟩, ⟨k₂, outside⟩, hboot,
    bootSystem_spec ⟨by decide, by decide, by decide, by decide, by decide, by decide⟩ hboot,
    fun _ => rfl, ?_, ?_, ?_⟩
  · refine .snoc (e := none) .nil (.switch ⟨?_, fun k' hk' => ?_⟩ rfl hswitch)
    · rw [show (⟨k₀, outside⟩ : Ipc PipeJob).kernel.current = 16 from hcur₀]
      decide
    · obtain rfl : kₛ = k' := Option.some_inj.mp (hsave.symm.trans hk')
      exact ⟨hal, Or.inl hready, List.nodup_nil, fun p hp => absurd hp List.not_mem_nil⟩
  · have step := IpcStep.call (m := ⟨k₁, outside⟩) (hcaller k₁ hcur₁ hidle₁)
      (pipeProgram_plain _ 0 [] (c := .pipeCreate) trivial) trivial hexec₂ Reply.noConfusion
    rw [show (⟨k₁, outside⟩ : Ipc PipeJob).kernel.current = 48 from hcur₁, hsame] at step
    exact step
  · have run₃ := IpcRun.call (m := ⟨k₂, outside⟩) .nil hcur₂
      (hcaller k₂ hcur₂ hidle₂) (pipeProgram_plain _ 0 [] (c := .pipeOpen _ _) trivial) trivial hexec₃
      Reply.noConfusion
    rw [hsame] at run₃
    have run₄ := run₃.call hcur₃ (hcaller k₃ hcur₃ hidle₃)
      (pipeProgram_plain _ 0 [] (c := .pipeOpen _ _) trivial) trivial hexec₄ Reply.noConfusion
    rw [hsame] at run₄
    exact run₄

end Shell
end SoKernel
