import SoKernel.Ipc.CallFrames
import SoKernel.Ipc.SemTokens
import SoKernel.Proc.RealCalls

/-!
# The machine of processes with the real scheduler

A context switch of the machine goes on with any ready process. Here it is `schedule` that switches,
by the queues of the kernel. As long as nobody finishes, the queues agree with the states of the
processes, and such a run is one of the machine.
-/

namespace SoKernel

open Function (update)

section Model

variable {σ : Type}

/-- A step of a process, or a timer interrupt. -/
inductive ScheduledStep (prog : Program σ) (m : Ipc σ) : Option IpcEvent → Ipc σ → Prop
  | call {c next k' r} (caller : Caller m.kernel)
      (acts : prog m.kernel.current (m.thread m.kernel.current) c next)
      (promise : IpcPromise m.kernel c) (step : ipcExec m.kernel c = some (k', r))
      (runs : r ≠ .blocked) :
      ScheduledStep prog m (some ⟨m.kernel.current, c, r⟩)
        ⟨k', update m.thread m.kernel.current (next r)⟩
  | block {c next k₁ frame o} (caller : Caller m.kernel)
      (acts : prog m.kernel.current (m.thread m.kernel.current) c next)
      (promise : IpcPromise m.kernel c) (step : ipcExec m.kernel c = some (k₁, .blocked))
      (switch : schedulerYieldCurrent (schedulerBlockCurrent k₁) frame 1 = some o) :
      ScheduledStep prog m (some ⟨m.kernel.current, c, .blocked⟩)
        ⟨o.kernel, update m.thread m.kernel.current (next .blocked)⟩
  | tick {frame o} (switch : timerTick m.kernel frame = some o) :
      ScheduledStep prog m none ⟨o.kernel, m.thread⟩
  | yield {frame o} (switch : schedulerYieldCurrent m.kernel frame 1 = some o) :
      ScheduledStep prog m none ⟨o.kernel, m.thread⟩

inductive ScheduledRun (prog : Program σ) (start : Ipc σ) : List IpcEvent → Ipc σ → Prop
  | nil : ScheduledRun prog start [] start
  | snoc {trace m e m'} (run : ScheduledRun prog start trace m) (step : ScheduledStep prog m e m') :
      ScheduledRun prog start (trace ++ e.toList) m'

/-- What the scheduler relies on between the calls: the waiting processes exist, nobody has finished,
the current process runs, and the queues agree with the states. -/
structure Scheduled (k : Kernel) (V : Sems) : Prop where
  sems : Represents k V
  live : ∀ id s, V id = some s → ∀ p ∈ s.queue, k.allocated p = true
  alive : ∀ p, k.state p ≠ .finished
  running : k.state k.current = .running
  queues : ∃ Q, WellFormed k Q

end Model

variable {k k' k₁ : Kernel} {V V' : Sems} {Q : QueueId → List ℕ} {id i n p : ℕ} {frame : Frame}
  {o : Outcome} {s : CountingSemaphore ℕ}

section Queues

theorem WellFormed.withSemaphores (W : WellFormed k Q) (sems : ℕ → Semaphore) (wos swn : ℕ → ℕ) (n : ℕ) :
    WellFormed
      { k with
        semaphores := sems
        waitingOnSem := wos
        semWaiterNext := swn
        nextSemId := n } Q :=
  ⟨⟨W.placed.rings, W.placed.members, W.placed.valid⟩, W.held, W.current, W.idle, W.idle_running,
    W.idle_priority, W.base_le, W.closed⟩

theorem WellFormed.withPipes (W : WellFormed k Q) (pipes : ℕ → Pipe) (n : ℕ) :
    WellFormed
      { k with
        pipes := pipes
        nextPipeId := n } Q :=
  ⟨⟨W.placed.rings, W.placed.members, W.placed.valid⟩, W.held, W.current, W.idle, W.idle_running,
    W.idle_priority, W.base_le, W.closed⟩

/-- `scheduler_unblock_process` moves a process from one queue to another. -/
theorem WellFormed.unblock (W : WellFormed k Q) (halive : ∀ a, k.state a ≠ .finished)
    (hp : k.allocated p = true) (hidle : p ≠ k.idleP) :
    ∃ l b Q', schedulerUnblockProcess k p = some
        ({ k with
          state := update k.state p .ready
          needResched := b }.relink l) ∧
      WellFormed
        ({ k with
          state := update k.state p .ready
          needResched := b }.relink l) Q' := by
  obtain ⟨l, b, Q', heq, hplaced⟩ := W.placed.unblock hp (halive p)
  refine ⟨l, b, Q', heq, hplaced, fun a ha => ?_, W.current, W.idle, ?_, W.idle_priority, W.base_le,
    fun a ha has => ?_⟩
  · by_cases hap : a = p
    · subst hap
      have hready := hplaced.members.ready (k.priority a) a (by simp)
      exact .inr (.inr ⟨_, hready.mpr ⟨ha, Function.update_self .., rfl⟩⟩)
    · have hstate : update k.state p .ready a = k.state a := Function.update_of_ne hap _ _
      rcases W.held a ha with hc | hi | ⟨q, hq⟩
      · exact .inl hc
      · exact .inr (.inl hi)
      · refine .inr (.inr ⟨q, ?_⟩)
        cases q with
        | ready pr =>
            obtain ⟨-, hs, hpr⟩ := (W.placed.members.ready pr a (by simp)).mp hq
            exact (hplaced.members.ready pr a (by simp)).mpr ⟨ha, hstate.trans hs, hpr⟩
        | blocked =>
            obtain ⟨-, hs, hne⟩ := (W.placed.members.blocked a (by simp)).mp hq
            exact (hplaced.members.blocked a (by simp)).mpr ⟨ha, hstate.trans hs, hne⟩
        | finished => exact absurd (W.placed.of_mem hq).2 (halive a)
  · dsimp only
    rw [Function.update_of_ne hidle.symm, W.idle_running]
  · dsimp only at has
    by_cases hap : a = p
    · rw [hap, Function.update_self] at has
      cases has
    · rw [Function.update_of_ne hap] at has
      exact absurd has (halive a)

/-- The current process leaves no queue when it blocks. -/
theorem WellFormed.block (W : WellFormed k Q) (hrun : k.state k.current = .running)
    (hcaller : Caller k) : WellFormed (schedulerBlockCurrent k) Q := by
  rw [blockCurrent_eq hcaller]
  have h := W.placed
  refine ⟨⟨h.rings, ?_, h.valid⟩, W.held, W.current, W.idle, ?_, W.idle_priority, W.base_le,
    fun a ha has => ?_⟩
  · exact ((h.members.exempt k.current).setState .blocked).settle (h.free_of_running hrun) (by simp)
      fun _ => rfl
  · dsimp only
    rw [Function.update_of_ne hcaller.2.symm, W.idle_running]
  · dsimp only at has
    by_cases hac : a = k.current
    · rw [hac, Function.update_self] at has
      cases has
    · rw [Function.update_of_ne hac] at has
      exact W.closed a ha has

/-- After `schedule` the queues agree again, and the current process runs. -/
theorem WellFormed.scheduled (W : WellFormed k Q) (hint : Interrupted k)
    (step : schedule k frame = some o) :
    (∃ Q', WellFormed o.kernel Q') ∧ o.kernel.state o.kernel.current = .running := by
  obtain ⟨l, prio, wt, Q₁, hage, W₁, -⟩ := W.applyAging
  rw [schedule, if_neg W.current_ne, hage, Option.bind_eq_bind, Option.bind_some] at step
  split at step
  · obtain ⟨o', next, Q₂, hcall, -, -, hswitched⟩ := W₁.switchContext hint frame
    obtain rfl := Option.some_inj.mp (hcall.symm.trans step)
    refine ⟨⟨_, hswitched.wellFormed⟩, ?_⟩
    rw [hswitched.current, hswitched.state, Function.update_self]
  · rename_i hkeep
    obtain rfl := Option.some_inj.mp step
    exact ⟨⟨Q₁, W₁⟩, (W₁.placed.goes_on (Bool.not_eq_true _ ▸ hkeep)).1⟩

end Queues

section Calls

namespace Scheduled

/-- A change of the semaphores that leaves every process where it is. -/
theorem withSemaphores (h : Scheduled k V) {sems : ℕ → Semaphore} {n : ℕ}
    (hrep : Represents
      { k with
        semaphores := sems
        nextSemId := n } V')
    (hold : ∀ a t, V' a = some t → t.queue ≠ [] → ∃ s, V a = some s ∧ ∀ p ∈ t.queue, p ∈ s.queue) :
    Scheduled
      { k with
        semaphores := sems
        nextSemId := n } V' := by
  obtain ⟨Q, W⟩ := h.queues
  refine ⟨hrep, fun a t ht p hp => ?_, h.alive, h.running, Q,
    W.withSemaphores sems k.waitingOnSem k.semWaiterNext n⟩
  obtain ⟨s, hs, hsub⟩ := hold a t ht (List.ne_nil_of_mem hp)
  exact h.live a s hs p (hsub p hp)

theorem setPipe (h : Scheduled k V) (i : ℕ) (q : Pipe) : Scheduled (setPipe k i q) V := by
  obtain ⟨Q, W⟩ := h.queues
  exact ⟨h.sems.congr rfl rfl rfl rfl rfl fun _ _ _ _ _ => rfl, h.live, h.alive, h.running, Q,
    W.withPipes _ k.nextPipeId⟩

theorem current_ne (h : Scheduled k V) : k.current ≠ 0 := by
  obtain ⟨Q, W⟩ := h.queues
  exact W.current_ne

/-- The first waiter of a semaphore is released. -/
theorem release (h : Scheduled k V) (hs : V id = some s) (hi : EntryOf k id i s) {w : ℕ}
    (hhead : (k.semaphores i).waitHead = w) (hw : w ≠ 0) :
    ∃ k₁, (dequeueWaiter k i).1 = w ∧ releaseWaiter (dequeueWaiter k i).2 w = some k₁ ∧
      Scheduled k₁ (update V id (some s.signal)) ∧ SameCore (releasedKernel k i w) k₁ := by
  obtain ⟨hrep, hfirst⟩ := h.sems.release hs hi hhead hw
  have hmem : w ∈ s.queue := by
    rw [Sems.first_of_some hs] at hfirst
    exact List.mem_of_mem_take (hfirst ▸ List.mem_singleton_self w)
  obtain ⟨hblocked, -, hidle⟩ := h.sems.waiting id s hs w hmem
  have hcur : k.current ≠ w := by
    rintro rfl
    rw [h.running] at hblocked
    cases hblocked
  have hdeq : dequeueWaiter k i = (w,
      { k with
        semaphores := update k.semaphores i
          { k.semaphores i with
            waitHead := k.semWaiterNext w
            waitTail := if k.semWaiterNext w = 0 then 0 else (k.semaphores i).waitTail }
        semWaiterNext := update k.semWaiterNext w 0 }) := by
    simp only [dequeueWaiter, hhead, if_neg hw]
  obtain ⟨Q, W⟩ := h.queues
  have W₁ := W.withSemaphores
    (update k.semaphores i
      { k.semaphores i with
        waitHead := k.semWaiterNext w
        waitTail := if k.semWaiterNext w = 0 then 0 else (k.semaphores i).waitTail })
    (update k.waitingOnSem w 0) (update k.semWaiterNext w 0) k.nextSemId
  obtain ⟨l, b, Q', heq, W'⟩ := W₁.unblock h.alive (h.live id s hs w hmem) hidle
  rw [hdeq]
  refine ⟨_, rfl, heq, ⟨hrep.congr rfl rfl rfl rfl rfl fun _ _ _ _ _ => rfl, fun a t ht p hp => ?_,
    fun p => ?_, ?_, Q', W'⟩, ?_⟩
  · by_cases ha : a = id
    · subst ha
      rw [Function.update_self, Option.some_inj] at ht
      subst ht
      exact h.live a s hs p (CountingSemaphore.mem_of_mem_signal hp)
    · rw [Function.update_of_ne ha] at ht
      exact h.live a t ht p hp
  · dsimp only
    by_cases hp : p = w
    · rw [hp, Function.update_self]
      simp
    · rw [Function.update_of_ne hp]
      exact h.alive p
  · dsimp only
    rw [Function.update_of_ne hcur]
    exact h.running
  · constructor <;> rfl

theorem signal (h : Scheduled k V) (hsig : semSignal k id = some k') : ∃ V', Scheduled k' V' := by
  cases hget : semGetById k id with
  | none =>
      rw [semSignal, semSignalById, hget] at hsig
      exact ⟨V, Option.some_inj.mp hsig ▸ h⟩
  | some i =>
      obtain ⟨s, hs, hi⟩ := h.sems.of_found hget
      by_cases hhead : (k.semaphores i).waitHead = 0
      · rw [semSignal_of_empty hget hhead, Option.some_inj] at hsig
        subst hsig
        refine ⟨_, h.withSemaphores (n := k.nextSemId) (h.sems.increment hi hhead) fun a t ht _ => ?_⟩
        by_cases ha : a = id
        · subst ha
          rw [Function.update_self, Option.some_inj] at ht
          exact ⟨s, hs, fun p hp => CountingSemaphore.mem_of_mem_signal (ht ▸ hp)⟩
        · rw [Function.update_of_ne ha] at ht
          exact ⟨t, ht, fun _ hp => hp⟩
      · obtain ⟨k₁, hw, hrel, h₁, -⟩ := h.release hs hi rfl hhead
        have hcall : semSignal k id = some k₁ := by
          simp [semSignal, semSignalById, hget, hw, hhead, hrel]
        exact ⟨_, Option.some_inj.mp (hcall.symm.trans hsig) ▸ h₁⟩

/-- The parts of the calls on pipes. -/
theorem callFrame : CallFrame fun k k' => ∀ V, Scheduled k V → ∃ V', Scheduled k' V' where
  refl k V h := ⟨V, h⟩
  trans hfirst hsecond V h := by
    obtain ⟨V₁, h₁⟩ := hfirst V h
    exact hsecond V₁ h₁
  signal hsig V h := h.signal hsig
  pipe k i q V h := ⟨V, h.setPipe i q⟩
  wait k id hnot V h := by
    cases hs : V id with
    | none =>
        rw [semWaitStart, h.sems.missing.mpr hs]
        exact ⟨V, h⟩
    | some s =>
        by_cases hpos : 0 < s.value
        · obtain ⟨i, hstart, hrep⟩ := h.sems.take hs h.current_ne hpos
          rw [hstart]
          refine ⟨_, h.withSemaphores (n := k.nextSemId) hrep fun a t ht _ => ?_⟩
          by_cases ha : a = id
          · subst ha
            rw [Function.update_self, Option.some_inj] at ht
            subst ht
            exact ⟨s, hs, fun _ hp => hp⟩
          · rw [Function.update_of_ne ha] at ht
            exact ⟨t, ht, fun _ hp => hp⟩
        · obtain ⟨i, hi⟩ := h.sems.get hs
          refine absurd ?_ hnot
          simp only [semWaitStart, hi.found, if_neg h.current_ne, hi.value, if_neg hpos]

theorem semAlloc (h : Scheduled k V) (v : ℤ) : ∃ V', Scheduled (semAlloc k v).2 V' := by
  rcases h.sems.alloc v with heq | ⟨hfresh, sems, heq, hrep⟩
  · rw [heq]
    exact ⟨V, h⟩
  · rw [heq]
    refine ⟨_, h.withSemaphores hrep fun a t ht hne => ?_⟩
    by_cases ha : a = k.nextSemId
    · rw [ha, Function.update_self, Option.some_inj] at ht
      subst ht
      exact absurd rfl hne
    · rw [Function.update_of_ne ha] at ht
      exact ⟨t, ht, fun _ hp => hp⟩

theorem semOpen (h : Scheduled k V) (id : ℕ) : Scheduled (semOpenById k id).2 V := by
  obtain ⟨hrep, sems, heq⟩ := h.sems.open id
  rw [heq] at hrep ⊢
  exact h.withSemaphores (n := k.nextSemId) hrep fun a t ht _ => ⟨t, ht, fun _ hp => hp⟩

theorem semClose (h : Scheduled k V) (id : ℕ) : ∃ V', Scheduled (semCloseById k id).2 V' := by
  obtain ⟨V', hrep, hdrop⟩ := h.sems.closeAt id
  obtain ⟨⟨sems, heq⟩, -⟩ := h.sems.close id
  rw [heq] at hrep ⊢
  exact ⟨V', h.withSemaphores (n := k.nextSemId) hrep fun a t ht _ => ⟨t, hdrop.some ht, fun _ hp => hp⟩⟩

theorem awaken (n : ℕ) {ws : List ℕ} (h : Scheduled k V) (hs : V id = some s) (hi : EntryOf k id i s)
    (hloop : awakenLoop i n k = some (ws, k')) : ∃ V', Scheduled k' V' := by
  induction n generalizing k V s ws with
  | zero =>
      obtain ⟨-, rfl⟩ := Prod.mk.inj (Option.some_inj.mp hloop)
      exact ⟨V, h⟩
  | succ n ih =>
      by_cases hhead : (k.semaphores i).waitHead = 0
      · have hnone : awakenLoop i (n + 1) k = some ([], k) := by
          simp [awakenLoop, dequeueWaiter, hhead]
        obtain ⟨-, rfl⟩ := Prod.mk.inj (Option.some_inj.mp (hnone.symm.trans hloop))
        exact ⟨V, h⟩
      · obtain ⟨k₁, hw, hrel, h₁, hcore⟩ := h.release hs hi rfl hhead
        rw [awakenLoop] at hloop
        dsimp only at hloop
        rw [hw, if_neg hhead, hrel, Option.bind_eq_bind, Option.bind_some] at hloop
        obtain ⟨⟨ws', k₂⟩, hrest, hlast⟩ := Option.bind_eq_some_iff.mp hloop
        obtain ⟨-, rfl⟩ := Prod.mk.inj (Option.some_inj.mp hlast)
        have hsem : k₁.semaphores i =
            { k.semaphores i with
              waitHead := k.semWaiterNext (k.semaphores i).waitHead
              waitTail := if k.semWaiterNext (k.semaphores i).waitHead = 0 then 0
                else (k.semaphores i).waitTail } := by
          rw [hcore.semaphores]
          exact Function.update_self ..
        have hid : (k₁.semaphores i).id = id := by
          rw [hsem]
          exact hi.id_eq
        have hused : (k₁.semaphores i).used = true := by
          rw [hsem]
          exact hi.used
        have hentry := h₁.sems.entryOf (s := s.signal) hi.bound hused
          (by rw [hid, Function.update_self])
        rw [hid] at hentry
        exact ih h₁ (Function.update_self ..) hentry hrest

theorem semSet (h : Scheduled k V) {v : ℤ} {r : ℕ} {ws : List ℕ}
    (hset : semSetById k id v = some (r, ws, k')) : ∃ V', Scheduled k' V' := by
  rcases h.sems.set hset with ⟨-, rfl, -⟩ | ⟨s, hs, hv, -, hrep, haside, -⟩
  · exact ⟨V, h⟩
  · obtain ⟨i, hi⟩ := h.sems.get hs
    rw [semSetById, hi.found] at hset
    dsimp only at hset
    rw [if_neg (not_lt.mpr hv), Option.bind_eq_bind] at hset
    obtain ⟨⟨ws', k₁⟩, hloop, hlast⟩ := Option.bind_eq_some_iff.mp hset
    obtain ⟨V₁, h₁⟩ := h.awaken _ hs hi hloop
    obtain ⟨Q, W⟩ := h₁.queues
    cases hlast
    refine ⟨_, hrep, fun a t ht p hp => ?_, h₁.alive, h₁.running, Q,
      W.withSemaphores _ k₁.waitingOnSem k₁.semWaiterNext k₁.nextSemId⟩
    rw [haside.allocated]
    by_cases ha : a = id
    · rw [ha, Function.update_self, Option.some_inj] at ht
      subst ht
      exact h.live id s hs p (List.mem_of_mem_drop hp)
    · rw [Function.update_of_ne ha] at ht
      exact h.live a t ht p hp

theorem pipeCreate (h : Scheduled k V) : ∃ V', Scheduled (pipeCreate k).2 V' := by
  unfold SoKernel.pipeCreate
  split
  · exact ⟨V, h⟩
  · rename_i i hfree
    obtain ⟨V₁, h₁⟩ := h.semAlloc 0
    extract_lets p
    split
    rename_i items k₁ hitems
    rw [hitems] at h₁
    split
    · exact ⟨V₁, h₁.setPipe _ _⟩
    obtain ⟨V₂, h₂⟩ := h₁.semAlloc pipeBufferSize
    split
    rename_i spaces k₂ hspaces
    rw [hspaces] at h₂
    split
    · obtain ⟨V₃, h₃⟩ := h₂.semClose items
      exact ⟨V₃, h₃.setPipe _ _⟩
    obtain ⟨V₃, h₃⟩ := h₂.semAlloc 1
    split
    rename_i mutex k₃ hmutex
    rw [hmutex] at h₃
    split
    · obtain ⟨V₄, h₄⟩ := h₃.semClose items
      obtain ⟨V₅, h₅⟩ := h₄.semClose spaces
      exact ⟨V₅, h₅.setPipe _ _⟩
    · obtain ⟨Q, W⟩ := (h₃.setPipe i
        { p with
          id := k₃.nextPipeId
          semItems := items
          semSpaces := spaces
          mutex := mutex
          used := true }).queues
      exact ⟨V₃, h₃.sems.congr rfl rfl rfl rfl rfl fun _ _ _ _ _ => rfl, h₃.live, h₃.alive, h₃.running, Q,
        W.withPipes _ (k₃.nextPipeId + 1)⟩

/-- A call returns to a caller that still runs, or queues it for a semaphore at last. -/
theorem exec {c : IpcCall} {r : Reply} (h : Scheduled k V) (hexec : ipcExec k c = some (k', r)) :
    (r ≠ .blocked ∧ ∃ V', Scheduled k' V') ∨
      r = .blocked ∧ ∃ k₁ a V₁, Scheduled k₁ V₁ ∧ semWaitStart k₁ a = (k', .queued) := by
  have hturn : ((r ≠ .blocked ∧ ∀ V, Scheduled k V → ∃ V', Scheduled k' V') ∨
      r = .blocked ∧ ∃ k₁ a, (∀ V, Scheduled k V → ∃ V', Scheduled k₁ V') ∧
        semWaitStart k₁ a = (k', .queued)) →
      (r ≠ .blocked ∧ ∃ V', Scheduled k' V') ∨
        r = .blocked ∧ ∃ k₁ a V₁, Scheduled k₁ V₁ ∧ semWaitStart k₁ a = (k', .queued) := by
    rintro (⟨hr, hkeeps⟩ | ⟨hr, k₁, a, hkeeps, hstart⟩)
    · exact .inl ⟨hr, hkeeps V h⟩
    · obtain ⟨V₁, h₁⟩ := hkeeps V h
      exact .inr ⟨hr, k₁, a, V₁, h₁, hstart⟩
  cases c with
  | semAlloc v =>
      cases hexec
      exact .inl ⟨by simp, h.semAlloc v⟩
  | semOpen id =>
      cases hexec
      exact .inl ⟨by simp, V, h.semOpen id⟩
  | semClose id =>
      cases hexec
      exact .inl ⟨by simp, h.semClose id⟩
  | semWait id =>
      have hwait := callFrame.wait k id
      rw [ipcExec] at hexec
      split at hexec
      · rename_i k₁ hstart
        cases hexec
        rw [hstart] at hwait
        exact .inl ⟨by simp, hwait (by simp) V h⟩
      · rename_i k₁ hstart
        cases hexec
        rw [hstart] at hwait
        exact .inl ⟨by simp, hwait (by simp) V h⟩
      · rename_i k₁ hstart
        cases hexec
        exact .inr ⟨rfl, k, id, V, h, hstart⟩
  | semSignal id =>
      obtain ⟨x, hsig, hlast⟩ := Option.map_eq_some_iff.mp hexec
      have hsignal : SoKernel.semSignal k id = some x.2.2 := by
        rw [SoKernel.semSignal, hsig, Option.map_some]
      cases hlast
      exact .inl ⟨by simp, h.signal hsignal⟩
  | semSet id v =>
      obtain ⟨x, hset, hlast⟩ := Option.map_eq_some_iff.mp hexec
      cases hlast
      exact .inl ⟨by simp, h.semSet hset⟩
  | pipeCreate =>
      cases hexec
      exact .inl ⟨by simp, h.pipeCreate⟩
  | pipeOpen id isWriter =>
      obtain ⟨x, hopen, hlast⟩ := Option.map_eq_some_iff.mp hexec
      cases hlast
      exact .inl ⟨by simp, callFrame.pipeOpenById hopen V h⟩
  | pipeClose id isWriter =>
      obtain ⟨x, hclose, hlast⟩ := Option.map_eq_some_iff.mp hexec
      cases hlast
      refine .inl ⟨by simp, ?_⟩
      rcases callFrame.pipeCloseById hclose with ⟨-, heq⟩ | ⟨i, -, hcases⟩
      · exact ⟨V, heq ▸ h⟩
      · split at hcases
        · obtain ⟨k₁, hkeeps, heq⟩ := hcases
          obtain ⟨V₁, h₁⟩ := hkeeps V h
          obtain ⟨V₂, h₂⟩ := h₁.semClose (k.pipes i).semItems
          obtain ⟨V₃, h₃⟩ := h₂.semClose (k.pipes i).semSpaces
          obtain ⟨V₄, h₄⟩ := h₃.semClose (k.pipes i).mutex
          exact ⟨V₄, heq ▸ h₄⟩
        · exact hcases V h
  | readTurn i n => exact hturn (callFrame.pipeReadTurn hexec)
  | writeTurn i b => exact hturn (callFrame.pipeWriteTurn hexec)

end Scheduled

end Calls

section Switches

/-- The timer interrupt, and the end of a call that gives up the processor, run `schedule` behind a
change of the clock. -/
theorem WellFormed.ticked (W : WellFormed k Q) (hint : Interrupted k)
    (step : timerTick k frame = some o) :
    (∃ Q', WellFormed o.kernel Q') ∧ o.kernel.state o.kernel.current = .running :=
  (W.withClock (k.ticks + 1) k.lastSwitchTick).scheduled hint step

theorem WellFormed.yielded {r : ℕ} (W : WellFormed k Q) (hint : Interrupted k) (hcaller : Caller k)
    (step : schedulerYieldCurrent k frame r = some o) :
    (∃ Q', WellFormed o.kernel Q') ∧ o.kernel.state o.kernel.current = .running := by
  rw [schedulerYieldCurrent, if_neg (not_or.mpr hcaller)] at step
  obtain ⟨since, hstep⟩ : ∃ since, timerTick { k with lastSwitchTick := since } frame = some o := ⟨_, step⟩
  exact (W.withClock k.ticks since).ticked hint hstep

/-- Nobody is collected when nobody has finished. -/
theorem WellFormed.collects_nobody {dead : List ℕ} (W : WellFormed k Q)
    (halive : ∀ p, k.state p ≠ .finished) (h : Collects k dead) : dead = [] := by
  have hnil : Q .finished = [] := by
    rw [List.eq_nil_iff_forall_not_mem]
    exact fun p hp => halive p (W.placed.of_mem hp).2
  have hhead := (W.placed.rings.list .finished).head_eq
  rw [hnil] at hhead
  rw [h.of_empty hhead, if_neg (halive _)]

/-- A switch behind a change in the part of the scheduler is one before it. -/
theorem switchBy_resched {ch : Choice} {x : Kernel} {sched : Sched}
    (halive : k.state k.current ≠ .finished)
    (hsave : saveContext { k with needResched := false } k.current ch.frame = some x)
    (hdead : ch.dead = []) (hp : SwitchPromise (k.resched sched) ch)
    (hsw : switchBy (k.resched sched) ch = some k') :
    SwitchPromise k ch ∧ ∃ k₁ s', switchBy k ch = some k₁ ∧ k' = k₁.resched s' := by
  obtain ⟨⟨s₁, rfl⟩, hready⟩ := switchBy_alive (k := k.resched sched) halive hdead hp hsw
  have halloc : k.allocated ch.next = true := by
    obtain ⟨y, hsave', -⟩ := Option.bind_eq_some_iff.mp hsw
    obtain ⟨L, s₂, -, rfl⟩ := saveContext_shape (k := { k.resched sched with needResched := false }) hp.1 hsave'
    exact (hp.2 _ hsave').1
  have hpromise : SwitchPromise k ch := by
    refine ⟨hp.1, fun z hz => ?_⟩
    obtain ⟨L, s₂, hwoken, rfl⟩ := saveContext_shape (k := { k with needResched := false }) hp.1 hz
    have hL : L = [] := by
      unfold Woken at hwoken
      rwa [if_neg halive] at hwoken
    rw [hL, hdead, savedBy_unfinished (k := { k with needResched := false }) halive]
    refine ⟨halloc, ?_, List.nodup_nil, fun _ hm => absurd hm List.not_mem_nil⟩
    rw [savedState, setAll_nil] at hready
    exact hready
  have hsw' : switchBy k ch = some ((dispatch (x.relink ch.popped) ch.next).relink ch.collected) := by
    rw [switchBy, hsave, hdead]
    rfl
  obtain ⟨⟨s₂, heq⟩, -⟩ := switchBy_alive halive hdead hpromise hsw'
  refine ⟨hpromise, _, s₁, hsw', ?_⟩
  rw [heq]
  rfl

/-- When nobody has finished, `schedule` goes on or is a switch that collects nobody. -/
theorem WellFormed.opens (W : WellFormed k Q) (halive : ∀ p, k.state p ≠ .finished) (hint : Interrupted k)
    (h : (k.state k.current = .running ∧ ∃ s, k' = k.resched s) ∨
      ∃ s ch, SwitchPromise (k.resched s) ch ∧ switchBy (k.resched s) ch = some k' ∧ Collects k ch.dead) :
    (k.state k.current = .running ∧ ∃ s, k' = k.resched s) ∨
      ∃ ch k₁ s, SwitchPromise k ch ∧ ch.dead = [] ∧ switchBy k ch = some k₁ ∧ k' = k₁.resched s := by
  refine h.imp_right ?_
  rintro ⟨s, ch, hpromise, hsw, hcollects⟩
  have hdead := W.collects_nobody halive hcollects
  have W₀ : WellFormed { k with needResched := false } Q :=
    ⟨⟨W.placed.rings, W.placed.members, W.placed.valid⟩, W.held, W.current, W.idle, W.idle_running,
      W.idle_priority, W.base_le, W.closed⟩
  obtain ⟨l, fg, kb, sems, hsave, -⟩ := W₀.files hint ch.frame
  obtain ⟨hpromise', k₁, s', hsw', heq⟩ := switchBy_resched (halive _) hsave hdead hpromise hsw
  exact ⟨ch, k₁, s', hpromise', hdead, hsw', heq⟩

end Switches

section Steps

variable {σ : Type} {prog : Program σ} {m m' start : Ipc σ} {e : Option IpcEvent} {t : List IpcEvent}

theorem Scheduled.resched (h : Scheduled k V) (s : Sched) (hq : ∃ Q, WellFormed (k.resched s) Q) :
    Scheduled (k.resched s) V :=
  ⟨h.sems.congr rfl rfl rfl rfl rfl fun _ _ _ _ _ => rfl, h.live, h.alive, h.running, hq⟩

/-- A context switch outside the calls is one of the machine. -/
theorem Scheduled.switch (prog : Program σ) (h : Sound m.kernel V) (hs : Scheduled m.kernel V)
    (hopens : (m.kernel.state m.kernel.current = .running ∧ ∃ s, k' = m.kernel.resched s) ∨
      ∃ ch k₁ s, SwitchPromise m.kernel ch ∧ ch.dead = [] ∧ switchBy m.kernel ch = some k₁ ∧
        k' = k₁.resched s)
    (hq : (∃ Q, WellFormed k' Q) ∧ k'.state k'.current = .running) :
    IpcRun prog m [] ⟨k', m.thread⟩ ∧ Sound k' V ∧ Scheduled k' V := by
  rcases hopens with ⟨-, s, rfl⟩ | ⟨ch, k₁, s, hpromise, hdead, hsw, rfl⟩
  · exact ⟨IpcRun.nil.snoc .resched, h.resched s, hs.resched s hq.1⟩
  · obtain ⟨hsound, -⟩ := h.switch hdead hpromise hsw
    obtain ⟨⟨s', rfl⟩, -⟩ := switchBy_alive (h.alive _) hdead hpromise hsw
    have hsound' := hsound.resched s
    refine ⟨(IpcRun.nil.snoc (.switch hpromise hdead hsw)).snoc .resched, hsound', hsound'.sems, hs.live,
      hsound'.alive, hq.2, hq.1⟩

/-- Waiting for a semaphore leaves the scheduler alone. -/
theorem Scheduled.waits (h : Scheduled k V) (hstart : semWaitStart k id = (k₁, .queued)) :
    k₁.state k₁.current = .running ∧ ∃ Q, WellFormed k₁ Q := by
  obtain ⟨Q, W⟩ := h.queues
  obtain ⟨sems, wos, swn, hshape⟩ := semWaitStart_shape k id
  rw [hstart] at hshape
  dsimp only at hshape
  subst hshape
  exact ⟨h.running, Q, W.withSemaphores sems wos swn k.nextSemId⟩

theorem Queued.caller {a : ℕ} (hqueued : Queued k V a s k₁) (hcaller : Caller k) : Caller k₁ := by
  obtain ⟨st, x, hblock, -⟩ := schedulerBlockCurrent_shape k₁
  have hcur := hqueued.aside.current
  have hidle := hqueued.aside.idleP
  rw [hblock] at hcur hidle
  rwa [Caller, show k₁.current = _ from hcur, show k₁.idleP = _ from hidle]

theorem Queued.alive {a : ℕ} (hqueued : Queued k V a s k₁) (halive : ∀ p, k.state p ≠ .finished) (p : ℕ) :
    (schedulerBlockCurrent k₁).state p ≠ .finished := by
  rw [hqueued.state]
  by_cases hp : p = k.current
  · rw [hp, Function.update_self]
    simp
  · rw [Function.update_of_ne hp]
    exact halive p

/-- The new waiter exists, as those before it do. -/
theorem Scheduled.live_enqueue {a : ℕ} (h : Scheduled k V) (hentry : V a = some s) :
    ∀ id t, update V a (some (s.enqueue k.current)) id = some t → ∀ p ∈ t.queue, k.allocated p = true := by
  obtain ⟨Q, W⟩ := h.queues
  intro id t ht p hp
  by_cases ha : id = a
  · rw [ha, Function.update_self, Option.some_inj] at ht
    subst ht
    rcases List.mem_append.mp hp with hp | hp
    · exact h.live a s hentry p hp
    · exact List.mem_singleton.mp hp ▸ W.current
  · rw [Function.update_of_ne ha] at ht
    exact h.live id t ht p hp

/-- A caller that waits is switched out, as the machine may switch it out. -/
theorem Queued.switched {a r : ℕ} (h : Sound k V) (hs : Scheduled k V) (hcaller : Caller k)
    (hqueued : Queued k V a s k₁) (hrun : k₁.state k₁.current = .running) (W : WellFormed k₁ Q)
    (hswitch : schedulerYieldCurrent (schedulerBlockCurrent k₁) frame r = some o) :
    ∃ ch k₂ s', SwitchPromise (schedulerBlockCurrent k₁) ch ∧ ch.dead = [] ∧
      switchBy (schedulerBlockCurrent k₁) ch = some k₂ ∧ o.kernel = k₂.resched s' ∧
      Sound o.kernel (update V a (some (s.enqueue k.current))) ∧
      Scheduled o.kernel (update V a (some (s.enqueue k.current))) := by
  have hcaller₁ := hqueued.caller hcaller
  have heq := blockCurrent_eq hcaller₁
  have W₁ := W.block hrun hcaller₁
  have hcaller₂ : Caller (schedulerBlockCurrent k₁) := heq ▸ hcaller₁
  have hblocked : (schedulerBlockCurrent k₁).state (schedulerBlockCurrent k₁).current = .blocked := by
    rw [heq]
    exact Function.update_self ..
  have hint : Interrupted (schedulerBlockCurrent k₁) := .inr (.inl hblocked)
  have halive := hqueued.alive h.alive
  obtain ⟨hqueues, hrunning⟩ := W₁.yielded hint hcaller₂ hswitch
  rcases W₁.opens halive hint (yield_opens W₁.dispatchable W₁.addressed (W₁.switchSafe hint) hcaller₂ hswitch)
    with ⟨hrun', -⟩ | ⟨ch, k₂, s', hpromise, hdead, hsw, hlast⟩
  · rw [hblocked] at hrun'
    cases hrun'
  obtain ⟨hsound, -⟩ := h.block hqueued hdead hpromise hsw
  obtain ⟨⟨s₂, hshape⟩, -⟩ := switchBy_alive (halive _) hdead hpromise hsw
  have hsound' := hsound.resched s'
  rw [← hlast] at hsound'
  have halloc : o.kernel.allocated = k.allocated := by
    rw [hlast, hshape]
    exact hqueued.aside.allocated
  refine ⟨ch, k₂, s', hpromise, hdead, hsw, hlast, hsound', hsound'.sems, ?_, hsound'.alive, hrunning, hqueues⟩
  rw [halloc]
  exact hs.live_enqueue hqueued.entry

/-- A step with the real scheduler is a step of the machine, up to what belongs to the scheduler
alone. -/
theorem ScheduledStep.ipcRun (h : Sound m.kernel V) (hs : Scheduled m.kernel V)
    (step : ScheduledStep prog m e m') :
    IpcRun prog m e.toList m' ∧ ∃ V', Sound m'.kernel V' ∧ Scheduled m'.kernel V' := by
  obtain ⟨Q, W⟩ := hs.queues
  cases step with
  | @call c next k' r caller acts promise step runs =>
      have hcall : IpcStep prog m (some ⟨m.kernel.current, c, r⟩)
        ⟨k', update m.thread m.kernel.current (next r)⟩ := .call caller acts promise step runs
      obtain ⟨V', hsound, -⟩ := hcall.effect h
      rcases hs.exec step with ⟨-, V₁, h₁⟩ | ⟨hr, -⟩
      · refine ⟨IpcRun.nil.snoc hcall, V', hsound, ?_⟩
        rwa [hsound.sems.unique h₁.sems]
      · exact absurd hr runs
  | @block c next k₁ frame o caller acts promise step switch =>
      rcases h.exec caller promise step with ⟨hr, -⟩ | ⟨-, a, s, -, hqueued⟩
      · exact absurd rfl hr
      rcases hs.exec step with ⟨hr, -⟩ | ⟨-, k₂, b, V₁, h₁, hstart⟩
      · exact absurd rfl hr
      obtain ⟨hrun, Q₁, W₁⟩ := h₁.waits hstart
      obtain ⟨ch, k₃, s', hpromise, hdead, hsw, hlast, hsound, hkept⟩ := hqueued.switched h hs caller hrun W₁ switch
      refine ⟨?_, _, hsound, hkept⟩
      rw [hlast]
      exact (IpcRun.nil.snoc (.block caller acts promise step hpromise hdead hsw)).snoc .resched
  | tick switch =>
      have hopens := timerTick_opens W.dispatchable W.addressed (W.switchSafe (.inl hs.running)) switch
      obtain ⟨hrun, hsound, hkept⟩ := Scheduled.switch prog h hs
        (W.opens hs.alive (.inl hs.running) hopens) (W.ticked (.inl hs.running) switch)
      exact ⟨hrun, V, hsound, hkept⟩
  | yield switch =>
      by_cases hcaller : Caller m.kernel
      · have hopens := yield_opens W.dispatchable W.addressed (W.switchSafe (.inl hs.running)) hcaller switch
        obtain ⟨hrun, hsound, hkept⟩ := Scheduled.switch prog h hs
          (W.opens hs.alive (.inl hs.running) hopens) (W.yielded (.inl hs.running) hcaller switch)
        exact ⟨hrun, V, hsound, hkept⟩
      · -- the idle process and nobody at all go on at once
        rw [Caller, not_and_or, not_not, not_not] at hcaller
        rw [schedulerYieldCurrent, if_pos hcaller, Option.some_inj] at switch
        subst switch
        exact ⟨IpcRun.nil, V, h, hs⟩

theorem IpcRun.append {t' : List IpcEvent} (run : IpcRun prog start t m) (run' : IpcRun prog m t' m') :
    IpcRun prog start (t ++ t') m' := by
  induction run' with
  | nil => rwa [List.append_nil]
  | snoc _ step ih =>
      rw [← List.append_assoc]
      exact ih.snoc step

/-- The runs with the real scheduler are runs of the machine: from a state whose queues agree and in
which nobody has finished, every context switch goes on with a ready process or idle. -/
theorem ScheduledRun.ipcRun (run : ScheduledRun prog start t m) (h : Sound start.kernel V)
    (hs : Scheduled start.kernel V) :
    IpcRun prog start t m ∧ ∃ V', Sound m.kernel V' ∧ Scheduled m.kernel V' := by
  induction run with
  | nil => exact ⟨.nil, V, h, hs⟩
  | snoc _ step ih =>
      obtain ⟨hrun, V₁, h₁, hs₁⟩ := ih
      obtain ⟨hstep, hnext⟩ := step.ipcRun h₁ hs₁
      exact ⟨hrun.append hstep, hnext⟩

end Steps

section Start

variable {σ : Type} {prog : Program σ} {m start : Ipc σ} {t : List IpcEvent}

/-- Where nobody waits for a semaphore and nobody has finished, the queues are all that is needed. -/
theorem Quiet.scheduled (h : Quiet k) (W : WellFormed k Q) (hrun : k.state k.current = .running) :
    Scheduled k (quietSems k) := by
  refine ⟨h.sound.sems, fun a s hs p hp => ?_, h.alive, hrun, Q, W⟩
  rw [quietSems_queue hs] at hp
  cases hp

theorem Booted.scheduled {idle shell : ℕ} (h : Booted k idle shell) (W : WellFormed k Q) :
    Scheduled k (quietSems k) := by
  refine h.quiet.scheduled W ?_
  rw [h.current]
  exact h.state.1

/-- From the start of the system on, whatever the processes do with semaphores and pipes, `schedule`
goes on with ready processes and idle alone. -/
theorem ScheduledRun.of_boot {idle idleStack shell shellStack entryPoint : ℕ}
    (hm : BootMemory idle idleStack shell shellStack entryPoint) (hidle : idle < addressCount)
    (hshell : shell < addressCount)
    (hboot : bootSystem idle idleStack shell shellStack entryPoint = some start.kernel)
    (run : ScheduledRun prog start t m) : IpcRun prog start t m := by
  obtain ⟨Q, W⟩ := bootSystem_wellFormed hm hidle hshell hboot
  have hbooted := bootSystem_spec hm hboot
  exact (run.ipcRun hbooted.quiet.sound (hbooted.scheduled W)).1

end Start

end SoKernel
