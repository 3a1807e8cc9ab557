import SoKernel.Ipc.PipeCalls

/-!
# A runner for the machine

The machine leaves open which process goes on and what it does. A list of moves fixes this,
so that a run can be computed; every run that the runner returns is a run of the machine. The
runner starts from a system in which the shell has made some more processes.
-/

namespace SoKernel

open Function (update)

section Checks

instance (k : Kernel) (id : ℕ) : Decidable (PipeSem k id) :=
  inferInstanceAs (Decidable (∃ i, i < maxPipes ∧ _))

instance (k : Kernel) : (c : IpcCall) → Decidable (IpcPromise k c)
  | .semOpen id | .semClose id | .semWait id | .semSignal id | .semSet id _ =>
      inferInstanceAs (Decidable (¬PipeSem k id))
  | .readTurn i _ | .writeTurn i _ => inferInstanceAs (Decidable (i < maxPipes))
  | .semAlloc _ | .pipeCreate | .pipeOpen _ _ | .pipeClose _ _ => .isTrue trivial

/-- The process may be the next one. -/
def canSwitch (k : Kernel) (p : ℕ) : Bool :=
  match saveContext { k with needResched := false } k.current (chooses p).frame with
  | none => false
  | some k₁ => decide (k.current ≠ 0 ∧ k₁.allocated p = true ∧ (k₁.state p = .ready ∨ p = k₁.idleP))

theorem canSwitch_promise {k : Kernel} {p : ℕ} (h : canSwitch k p = true) :
    SwitchPromise k (chooses p) := by
  unfold canSwitch at h
  split at h
  · cases h
  · rename_i k₁ hsave
    obtain ⟨hcur, hal, hready⟩ := of_decide_eq_true h
    refine ⟨hcur, fun k' hk' => ?_⟩
    obtain rfl : k₁ = k' := Option.some_inj.mp (hsave.symm.trans hk')
    exact ⟨hal, hready, List.nodup_nil, fun q hq => absurd hq List.not_mem_nil⟩

end Checks

section Runner

variable {σ : Type}

/-- What the running process does, and which process goes on after it has blocked. -/
inductive IpcMove where
  | call (c : IpcCall)
  | block (c : IpcCall) (next : ℕ)
  | switch (next : ℕ)

/-- A choice of a program among the calls that it may make. -/
abbrev Acts (σ : Type) := ℕ → σ → IpcCall → Option (Reply → σ)

def ipcMove (act : Acts σ) (m : Ipc σ) : IpcMove → Option (Option IpcEvent × Ipc σ)
  | .call c => do
      let p := m.kernel.current
      let next ← act p (m.thread p) c
      let (k, r) ← ipcExec m.kernel c
      if Caller m.kernel ∧ IpcPromise m.kernel c ∧ r ≠ .blocked then
        some (some ⟨p, c, r⟩, ⟨k, update m.thread p (next r)⟩)
      else none
  | .block c q => do
      let p := m.kernel.current
      let next ← act p (m.thread p) c
      let (k, r) ← ipcExec m.kernel c
      let k' ← switchBy (schedulerBlockCurrent k) (chooses q)
      if Caller m.kernel ∧ IpcPromise m.kernel c ∧ r = .blocked ∧
          canSwitch (schedulerBlockCurrent k) q = true then
        some (some ⟨p, c, .blocked⟩, ⟨k', update m.thread p (next .blocked)⟩)
      else none
  | .switch q => do
      let k' ← switchBy m.kernel (chooses q)
      if canSwitch m.kernel q = true then some (none, ⟨k', m.thread⟩) else none

/-- The moves one after the other, as long as they meet a check. -/
def ipcPlay (act : Acts σ) (check : Ipc σ → Option IpcEvent → Ipc σ → Bool) :
    List IpcMove → Ipc σ → Option (List IpcEvent × Ipc σ)
  | [], m => some ([], m)
  | a :: as, m => do
      let (e, m₁) ← ipcMove act m a
      if check m e m₁ = true then
        let (t, m₂) ← ipcPlay act check as m₁
        some (e.toList ++ t, m₂)
      else none

variable {act : Acts σ} {prog : Program σ} {m m' : Ipc σ} {e : Option IpcEvent}

theorem ipcMove_step (hact : ∀ p s c next, act p s c = some next → prog p s c next) {a : IpcMove}
    (h : ipcMove act m a = some (e, m')) : IpcStep prog m e m' := by
  cases a with
  | call c =>
      obtain ⟨next, hnext, h⟩ := Option.bind_eq_some_iff.mp h
      obtain ⟨⟨k, r⟩, hexec, h⟩ := Option.bind_eq_some_iff.mp h
      dsimp only at h
      split at h
      · rename_i hchecks
        cases h
        exact .call hchecks.1 (hact _ _ _ _ hnext) hchecks.2.1 hexec hchecks.2.2
      · cases h
  | block c q =>
      obtain ⟨next, hnext, h⟩ := Option.bind_eq_some_iff.mp h
      obtain ⟨⟨k, r⟩, hexec, h⟩ := Option.bind_eq_some_iff.mp h
      obtain ⟨k', hswitch, hlast⟩ := Option.bind_eq_some_iff.mp h
      split at hlast
      · rename_i hchecks
        obtain ⟨hcaller, hpromise, rfl, hcan⟩ := hchecks
        cases hlast
        exact .block hcaller (hact _ _ _ _ hnext) hpromise hexec (canSwitch_promise hcan) rfl hswitch
      · cases hlast
  | switch q =>
      obtain ⟨k', hswitch, h⟩ := Option.bind_eq_some_iff.mp h
      split at h
      · rename_i hcan
        cases h
        exact .switch (canSwitch_promise hcan) rfl hswitch
      · cases h

variable {ok : Ipc σ → Option IpcEvent → Ipc σ → Prop}
  {check : Ipc σ → Option IpcEvent → Ipc σ → Bool} {start : Ipc σ} {t : List IpcEvent}

theorem IpcRunVia.toRun (run : IpcRunVia prog ok start t m) : IpcRun prog start t m := by
  induction run with
  | nil => exact .nil
  | snoc _ step _ ih => exact .snoc ih step

theorem IpcRunVia.play (run : IpcRunVia prog ok start t m)
    (hact : ∀ p s c next, act p s c = some next → prog p s c next)
    (hcheck : ∀ m e m', check m e m' = true → ok m e m') {as : List IpcMove} {t' : List IpcEvent}
    (h : ipcPlay act check as m = some (t', m')) : IpcRunVia prog ok start (t ++ t') m' := by
  induction as generalizing m t t' with
  | nil =>
      cases h
      rw [List.append_nil]
      exact run
  | cons a as ih =>
      obtain ⟨⟨e, m₁⟩, hmove, h⟩ := Option.bind_eq_some_iff.mp h
      dsimp only at h
      split at h
      · rename_i hok
        obtain ⟨⟨t₁, m₂⟩, hrest, hlast⟩ := Option.bind_eq_some_iff.mp h
        cases hlast
        rw [← List.append_assoc]
        exact ih (run.snoc (ipcMove_step hact hmove) (hcheck _ _ _ hok)) hrest
      · cases h

/-- What the runner returns is a run. -/
theorem ipcPlay_via (hact : ∀ p s c next, act p s c = some next → prog p s c next)
    (hcheck : ∀ m e m', check m e m' = true → ok m e m') {as : List IpcMove}
    (h : ipcPlay act check as start = some (t, m)) : IpcRunVia prog ok start t m :=
  IpcRunVia.nil.play hact hcheck h

theorem ipcPlay_run (hact : ∀ p s c next, act p s c = some next → prog p s c next)
    {as : List IpcMove} (h : ipcPlay act check as start = some (t, m)) : IpcRun prog start t m :=
  IpcRunVia.toRun (ipcPlay_via hact (fun _ _ _ _ => True.intro) h)

end Runner

section Processes

/-- Nobody waits for a semaphore. -/
def Unwaiting (k : Kernel) : Prop := ∀ p, k.waitingOnSem p = 0

theorem Quiet.resched {k : Kernel} (h : Quiet k) (s : Sched) : Quiet (k.resched s) :=
  ⟨h.table, h.nextSemId, h.nextPipeId, h.queues, h.pipes, h.alive⟩

theorem Quiet.switch {k k' : Kernel} {p : ℕ} (h : Quiet k) (hwait : Unwaiting k)
    (hcan : SwitchPromise k (chooses p)) (hsw : switchBy k (chooses p) = some k') :
    Quiet k' ∧ Unwaiting k' := by
  obtain ⟨-, halive⟩ := switchBy_handed (h.alive _) rfl hcan hsw
  obtain ⟨⟨sched, rfl⟩, -⟩ := switchBy_alive (h.alive _) rfl hcan hsw
  exact ⟨⟨h.table, h.nextSemId, h.nextPipeId, h.queues, h.pipes, halive h.alive⟩, hwait⟩

theorem Quiet.createProcess {k k' : Kernel} {r : SpawnRequest} (h : Quiet k) (hwait : Unwaiting k)
    (heffect : OpenEffect k (.createProcess r) k') : Quiet k' ∧ Unwaiting k' := by
  have halive : ∀ p v q, v ≠ .finished → update k.state p v q ≠ .finished := by
    intro p v q hv
    by_cases hq : q = p
    · rw [hq, Function.update_self]
      exact hv
    · rw [Function.update_of_ne hq]
      exact h.alive q
  have hzero : ∀ p q, update k.waitingOnSem p 0 q = 0 := by
    intro p q
    by_cases hq : q = p
    · rw [hq, Function.update_self]
    · rw [Function.update_of_ne hq]
      exact hwait q
  cases heffect with
  | same => exact ⟨h, hwait⟩
  | creationFailed =>
      exact ⟨⟨h.table, h.nextSemId, h.nextPipeId, h.queues, h.pipes, h.alive⟩, hwait⟩
  | creationCleared =>
      exact ⟨⟨h.table, h.nextSemId, h.nextPipeId, h.queues, h.pipes, fun q => halive _ .new q (by simp)⟩,
        hzero _⟩
  | created =>
      exact ⟨⟨h.table, h.nextSemId, h.nextPipeId, h.queues, h.pipes,
        fun q => halive _ .ready q (by simp)⟩, hzero _⟩

/-- The system in which the shell runs and has made some processes, given the results of
`mm_alloc` for each of them. -/
def shellWith : List (ℕ × ℕ) → Option Kernel
  | [] => do
      let k ← bootSystem 16 8192 48 12288 1
      if canSwitch k 48 = true then switchBy k (chooses 48) else none
  | (pcb, stack) :: rest => do
      let k ← shellWith rest
      if Caller k ∧ k.allocated k.current = true ∧ pcb < 2 ^ 64 ∧ k.allocated pcb = false then
        let (_, k) ← syscallCreateProcess k ⟨1, 0, 2, false, 0, 0, pcb, stack⟩
        some k
      else none

theorem shellWith_reachable {L : List (ℕ × ℕ)} {k : Kernel} (h : shellWith L = some k) :
    (∃ k₀ steps, bootSystem 16 8192 48 12288 1 = some k₀ ∧ OpenRun k₀ steps k) ∧ Orderly k ∧
      Quiet k ∧ Unwaiting k := by
  induction L generalizing k with
  | nil =>
      rw [shellWith, Option.bind_eq_bind] at h
      obtain ⟨k₀, hboot, h⟩ := Option.bind_eq_some_iff.mp h
      split at h
      · rename_i hcan
        have hbooted : Booted k₀ 16 48 :=
          bootSystem_spec ⟨by decide, by decide, by decide, by decide, by decide, by decide⟩ hboot
        have hpromise := canSwitch_promise hcan
        obtain ⟨L, k₁, sched, hswitched, rfl⟩ := switchBy_shape hbooted.orderly hpromise h
        exact ⟨⟨k₀, _, hboot, .snoc (c := .switch (chooses 48)) .nil hpromise h⟩,
          (hswitched.orderly hbooted.orderly).resched sched,
          hbooted.quiet.switch hbooted.waitingOnSem hpromise h⟩
      · cases h
  | cons x rest ih =>
      rw [shellWith, Option.bind_eq_bind] at h
      obtain ⟨k₁, hrest, h⟩ := Option.bind_eq_some_iff.mp h
      obtain ⟨⟨k₀, steps, hboot, hrun⟩, horderly, hquiet, hwait⟩ := ih hrest
      split at h
      · rename_i hchecks
        obtain ⟨hcaller, hal, hlt, hfree⟩ := hchecks
        obtain ⟨⟨pid, k₂⟩, hcreate, hlast⟩ := Option.bind_eq_some_iff.mp h
        cases hlast
        have hvalid : ValidRequest k₁ ⟨1, k₁.current, 2, false, 0, 0, x.1, x.2⟩ := by
          refine ⟨fun _ => ⟨?_, hfree⟩, fun _ => hal⟩
          unfold addressCount
          exact hlt
        have hpromise : OpenPromise k₁ (.createProcess ⟨1, 0, 2, false, 0, 0, x.1, x.2⟩) :=
          ⟨hcaller, hvalid⟩
        have hstep : openExec k₁ (.createProcess ⟨1, 0, 2, false, 0, 0, x.1, x.2⟩) = some k := by
          rw [openExec, hcreate]
          rfl
        obtain ⟨k₃, sched, heffect, rfl⟩ := createProcess_effect horderly hcaller hvalid hcreate
        obtain ⟨hquiet', hwait'⟩ := hquiet.createProcess hwait heffect
        exact ⟨⟨k₀, _, hboot, .snoc hrun hpromise hstep⟩, (heffect.orderly horderly hpromise).resched sched,
          hquiet'.resched sched, hwait'⟩
      · cases h

end Processes

section Pipes

/-- Calls of `pipe_read` and `pipe_write` for one byte. -/
def pipeAct : Acts PipeJob
  | _, .idle _ _, .readTurn i 0 => some (readNext i 1 0 [])
  | _, .idle _ _, .readTurn _ _ => none
  | _, .idle _ _, .writeTurn i b => some (writeNext i [b] 0 [])
  | _, .idle result bytes, _ => some fun _ => .idle result bytes
  | _, .reading i count n bytes _, .readTurn j n' =>
      if j = i ∧ n' = n then some (readNext i count n bytes) else none
  | _, .writing i buffer n bytes _, .writeTurn j b =>
      if j = i ∧ buffer[n]? = some b then some (writeNext i buffer n bytes) else none
  | _, _, _ => none

theorem pipeAct_program (p : ℕ) (j : PipeJob) (c : IpcCall) (next : Reply → PipeJob)
    (h : pipeAct p j c = some next) : pipeProgram p j c next := by
  cases j with
  | idle result bytes =>
      cases c with
      | readTurn i n =>
          cases n with
          | zero =>
              cases h
              exact ⟨_, .read _ _ i 1 (by decide) (by decide), rfl, rfl⟩
          | succ n => cases h
      | writeTurn i b =>
          cases h
          exact ⟨_, .write _ _ i [b] (by simp) (by simp), b, rfl, rfl, rfl⟩
      | _ =>
          cases h
          exact pipeProgram_plain p result bytes trivial
  | reading i count n bytes asleep =>
      cases c with
      | readTurn i' n' =>
          simp only [pipeAct] at h
          split at h
          · rename_i hsame
            obtain ⟨rfl, rfl⟩ := hsame
            cases h
            exact ⟨_, .stay _, rfl, rfl⟩
          · cases h
      | _ => cases h
  | writing i buffer n bytes asleep =>
      cases c with
      | writeTurn i' b =>
          simp only [pipeAct] at h
          split at h
          · rename_i hsame
            obtain ⟨rfl, hb⟩ := hsame
            cases h
            exact ⟨_, .stay _, b, hb, rfl, rfl⟩
          · cases h
      | _ => cases h

end Pipes
end SoKernel
