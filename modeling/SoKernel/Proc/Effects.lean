import SoKernel.Proc.Control

/-!
# What a kernel call does

One inversion theorem for all calls: from a state whose queues agree with the process
states, a call that meets `QueueSafe` returns, keeps the agreement, and has one of the
effects listed in `CallEffect`. All later invariants are derived from these effects.
-/

namespace SoKernel

open Function (update)

variable {k : Kernel} {c p i : ℕ} {Q : QueueId → List ℕ}

section Conditions

/-- The first waiters of a wait queue, at most `n` of them. -/
def waitersFrom (nx : ℕ → ℕ) : ℕ → ℕ → List ℕ
  | 0, _ => []
  | n + 1, w => if w = 0 then [] else w :: waitersFrom nx n (nx w)

/-- A process that a semaphore may wake: it exists and has not finished. -/
def Wakeable (k : Kernel) (w : ℕ) : Prop := k.allocated w = true ∧ k.state w ≠ .finished

instance (k : Kernel) (w : ℕ) : Decidable (Wakeable k w) := inferInstanceAs (Decidable (_ ∧ _))

/-- The calls that keep the scheduler's queues consistent, judged in the state before the
call. -/
def QueueSafe (k : Kernel) : Call → Prop
  | .spawn r => ValidRequest k r
  | .createProcess r => ValidRequest k { r with parent := k.current }
  | .tick _ | .yield _ =>
      k.current ≠ 0 → k.state k.current = .finished → ∃ L, WaitersAwake k k.current L
  | .blockCurrent => CanBlock k
  | .blockByPid pid => schedulerFindByPid k pid = some k.current → CanBlock k
  | .unblockProcess p => p = 0 ∨ Wakeable k p
  | .unblockByPid pid => ∀ p, schedulerFindByPid k pid = some p → p = 0 ∨ Wakeable k p
  | .finishCurrent => k.state k.current ≠ .ready
  | .killByPid pid => ∀ p, schedulerFindByPid k pid = some p → p ≠ 0 →
      p ≠ k.idleP ∧ ∃ L, WaitersAwake k p L
  | .wait pid _ => ∀ t, schedulerFindByPid k pid = some t → t ≠ 0 → k.state t ≠ .finished →
      k.current ≠ t → CanBlock k
  | .semWait id _ => (semWaitStart k id).2 = .queued → CanBlock k
  | .semSignal id => ∀ i, semGetById k id = some i →
      ∀ w ∈ waitersFrom k.semWaiterNext 1 (k.semaphores i).waitHead, Wakeable k w
  | .semSet id v => ∀ i, semGetById k id = some i →
      ∀ w ∈ waitersFrom k.semWaiterNext v.toNat (k.semaphores i).waitHead, Wakeable k w
  | .setPriority _ _ | .waitReturn _ | .keyboardInit | .semAlloc _ | .semOpen _ | .semClose _ => True

end Conditions

section Effects

/-- The state after the release of the first waiter. -/
abbrev releasedKernel (k : Kernel) (i w : ℕ) : Kernel :=
  { k with
    semaphores := update k.semaphores i
      { k.semaphores i with
        waitHead := k.semWaiterNext w
        waitTail := if k.semWaiterNext w = 0 then 0 else (k.semaphores i).waitTail }
    semWaiterNext := update k.semWaiterNext w 0
    waitingOnSem := update k.waitingOnSem w 0
    state := update k.state w .ready }

/-- The listed waiters are released one after the other. -/
inductive Releases (i : ℕ) : Kernel → List ℕ → Kernel → Prop
  | nil {k k'} (core : SameCore k k') : Releases i k [] k'
  | cons {k k₁ k' : Kernel} {w : ℕ} {ws : List ℕ} (head : (k.semaphores i).waitHead = w)
      (ne : w ≠ 0) (wakeable : Wakeable k w) (step : SameCore (releasedKernel k i w) k₁)
      (rest : Releases i k₁ ws k') : Releases i k (w :: ws) k'

/-- The caller of `syscall_wait` at the front of the waiters of the target. -/
abbrev waitLinked (k : Kernel) (target pid : ℕ) : Kernel :=
  { k with
    waitingOnPid := update k.waitingOnPid k.current pid
    waiterNext := update k.waiterNext k.current (k.waitersHead target)
    waitersHead := update k.waitersHead target k.current }

abbrev setSemValue (k : Kernel) (i : ℕ) (v : ℤ) : Kernel :=
  { k with semaphores := update k.semaphores i { k.semaphores i with value := v } }

/-- The effects of the calls; `F` is the queue of finished processes before the call. -/
inductive CallEffect (k : Kernel) (F : List ℕ) : Call → Outcome → Prop
  | quiet {c o} (plain : o.Plain) (core : SameCore k o.kernel) : CallEffect k F c o
  | cleared {c o} (p : ℕ) (free : k.allocated p = false) (plain : o.Plain)
      (core : SameCore (clearPcb k p) o.kernel) : CallEffect k F c o
  | created {c o} (r : SpawnRequest) (valid : ValidRequest k r) (pcb : r.pcb ≠ 0) (pr : Priority)
      (fdp : ℕ → ℕ → Option ℕ) (plain : o.Plain)
      (core : SameCore (createdKernel k r pr fdp) o.kernel) : CallEffect k F c o
  | blocked {c o} (p : ℕ) (alive : Wakeable k p) (idle : p ≠ k.idleP) (plain : o.Plain)
      (core : SameCore { k with state := update k.state p .blocked } o.kernel) : CallEffect k F c o
  | readied {c o} (p : ℕ) (call : c = .unblockProcess p ∨
        ∃ pid, c = .unblockByPid pid ∧ schedulerFindByPid k pid = some p) (alive : Wakeable k p)
      (plain : o.Plain) (core : SameCore { k with state := update k.state p .ready } o.kernel) :
      CallEffect k F c o
  | finished {o} (cur : k.current ≠ 0) (idle : k.current ≠ k.idleP) (plain : o.Plain)
      (core : SameCore { k with state := update k.state k.current .finished } o.kernel) :
      CallEffect k F .finishCurrent o
  | killed {pid o} (p : ℕ) (found : schedulerFindByPid k pid = some p)
      (alloc : k.allocated p = true) (idle : p ≠ k.idleP) (L : List ℕ) (awake : WaitersAwake k p L)
      (plain : o.Plain)
      (core : SameCore (killedKernel k p L k.isForeground k.needResched) o.kernel) :
      CallEffect k F (.killByPid pid) o
  | scheduled {c o} (L : List ℕ) (wakes : k.current ≠ 0 → SaveWakes k k.current L)
      (effect : ScheduleEffect k L F o) : CallEffect k F c o
  | waited {pid frame o} (target : ℕ) (found : schedulerFindByPid k pid = some target)
      (alive : Wakeable k target) (cur : k.current ≠ 0) (other : k.current ≠ target)
      (can : CanBlock k)
      (effect : ScheduleEffect (schedulerBlockCurrent (waitLinked k target pid)) [] F o) :
      CallEffect k F (.wait pid frame) o
  | semAllocated {c o} (v : ℤ) (plain : o.Plain) (core : SameCore (semAlloc k v).2 o.kernel) :
      CallEffect k F c o
  | semOpened {id o} (plain : o.Plain) (core : SameCore (semOpenById k id).2 o.kernel) :
      CallEffect k F (.semOpen id) o
  | semClosed {id o} (plain : o.Plain) (core : SameCore (semCloseById k id).2 o.kernel) :
      CallEffect k F (.semClose id) o
  | semTaken {id frame o} (i : ℕ) (found : semGetById k id = some i)
      (positive : 0 < (k.semaphores i).value) (plain : o.Plain) (result : o.result = some 1)
      (core : SameCore (setSemValue k i ((k.semaphores i).value - 1)) o.kernel) :
      CallEffect k F (.semWait id frame) o
  | semQueued {id frame o} (i : ℕ) (found : semGetById k id = some i)
      (empty : (k.semaphores i).value ≤ 0) (cur : k.current ≠ 0) (can : CanBlock k)
      (effect : ScheduleEffect (schedulerBlockCurrent (enqueueWaiter
        { k with waitingOnSem := update k.waitingOnSem k.current (k.semaphores i).id } i
          k.current)) [] F o) :
      CallEffect k F (.semWait id frame) o
  | semReleased {id o} (i : ℕ) (found : semGetById k id = some i) (w : ℕ)
      (released : o.released = [w]) (dispatched : o.dispatched = none) (destroyed : o.destroyed = [])
      (releases : Releases i k [w] o.kernel) : CallEffect k F (.semSignal id) o
  | semIncremented {id o} (i : ℕ) (found : semGetById k id = some i)
      (empty : (k.semaphores i).waitHead = 0) (plain : o.Plain)
      (core : SameCore (setSemValue k i ((k.semaphores i).value + 1)) o.kernel) :
      CallEffect k F (.semSignal id) o
  | semSet {id v o} (i : ℕ) (found : semGetById k id = some i) (nonneg : 0 ≤ v) (ws : List ℕ)
      (mid : Kernel) (released : o.released = ws) (dispatched : o.dispatched = none)
      (destroyed : o.destroyed = []) (releases : Releases i k ws mid)
      (count : ws.length = v.toNat ∨ (mid.semaphores i).waitHead = 0 ∧ ws.length ≤ v.toNat)
      (core : SameCore (setSemValue mid i (v - ws.length)) o.kernel) :
      CallEffect k F (.semSet id v) o

theorem semAlloc_shape (k : Kernel) (v : ℤ) :
    ∃ sems n, (semAlloc k v).2 =
      { k with
        semaphores := sems
        nextSemId := n } := by
  unfold semAlloc
  split
  · exact ⟨k.semaphores, k.nextSemId, rfl⟩
  · exact ⟨_, _, rfl⟩

theorem semOpenById_shape (k : Kernel) (id : ℕ) :
    ∃ sems, (semOpenById k id).2 = { k with semaphores := sems } := by
  unfold semOpenById
  split
  · exact ⟨k.semaphores, rfl⟩
  · exact ⟨_, rfl⟩

theorem semCloseById_shape (k : Kernel) (id : ℕ) :
    ∃ sems, (semCloseById k id).2 = { k with semaphores := sems } := by
  unfold semCloseById
  split
  · exact ⟨k.semaphores, rfl⟩
  · exact ⟨_, rfl⟩

theorem enqueueWaiter_shape (k : Kernel) (i p : ℕ) :
    ∃ sems swn, enqueueWaiter k i p =
      { k with
        semaphores := sems
        semWaiterNext := swn } := by
  by_cases hhead : (k.semaphores i).waitHead = 0
  · exact ⟨_, _, by simp only [enqueueWaiter, if_pos hhead]; rfl⟩
  · exact ⟨_, _, by simp only [enqueueWaiter, if_neg hhead]; rfl⟩

theorem schedulerBlockCurrent_shape (k : Kernel) :
    ∃ st b, schedulerBlockCurrent k =
        { k with
          state := st
          needResched := b } ∧
      (st = k.state ∧ (k.current = 0 ∨ k.current = k.idleP) ∨
        st = update k.state k.current .blocked ∧ k.current ≠ 0 ∧ k.current ≠ k.idleP) := by
  unfold schedulerBlockCurrent
  by_cases hc : k.current = 0 ∨ k.current = k.idleP
  · exact ⟨k.state, k.needResched, by rw [if_pos hc], Or.inl ⟨rfl, hc⟩⟩
  · exact ⟨_, true, by rw [if_neg hc], Or.inr ⟨rfl, not_or.mp hc⟩⟩

end Effects

section Specs

theorem QueuesAgree.withSemaphores (h : QueuesAgree k c Q) (sems : ℕ → Semaphore)
    (wos swn : ℕ → ℕ) (n : ℕ) :
    QueuesAgree
      { k with
        semaphores := sems
        waitingOnSem := wos
        semWaiterNext := swn
        nextSemId := n } c Q :=
  ⟨h.rings, h.members, h.valid, h.idle, h.current, h.terminals, h.noPipes⟩

/-- Releasing the first waiter of a semaphore. -/
theorem releaseFirst_spec (h : QueuesAgree k c Q) {w : ℕ} (hw : (k.semaphores i).waitHead = w)
    (hw0 : w ≠ 0) (hwake : Wakeable k w) :
    ∃ k₁ Q', (dequeueWaiter k i).1 = w ∧ releaseWaiter (dequeueWaiter k i).2 w = some k₁ ∧
      QueuesAgree k₁ c Q' ∧ SameCore (releasedKernel k i w) k₁ := by
  have hdeq : dequeueWaiter k i = (w,
      { k with
        semaphores := update k.semaphores i
          { k.semaphores i with
            waitHead := k.semWaiterNext w
            waitTail := if k.semWaiterNext w = 0 then 0 else (k.semaphores i).waitTail }
        semWaiterNext := update k.semWaiterNext w 0 }) := by
    simp only [dequeueWaiter, hw, if_neg hw0]
  rw [hdeq]
  obtain ⟨l, b, Q', heq, hagree⟩ := schedulerUnblockProcess_spec (h.withSemaphores
    (update k.semaphores i
      { k.semaphores i with
        waitHead := k.semWaiterNext w
        waitTail := if k.semWaiterNext w = 0 then 0 else (k.semaphores i).waitTail })
    (update k.waitingOnSem w 0) (update k.semWaiterNext w 0) k.nextSemId) hwake.1 hwake.2
  refine ⟨_, Q', rfl, heq, hagree, ?_⟩
  constructor <;> rfl

/-- Cutting the link of one process leaves a part of every wait queue. -/
theorem mem_waitersFrom_update {nx : ℕ → ℕ} {w a : ℕ} {n h : ℕ}
    (ha : a ∈ waitersFrom (update nx w 0) n h) : a ∈ waitersFrom nx n h := by
  induction n generalizing h with
  | zero => cases ha
  | succ n ih =>
      rw [waitersFrom] at ha ⊢
      by_cases hh : h = 0
      · rw [if_pos hh] at ha
        cases ha
      · rw [if_neg hh] at ha ⊢
        rcases List.mem_cons.mp ha with rfl | ha
        · exact List.mem_cons_self
        · refine List.mem_cons_of_mem _ (ih ?_)
          by_cases hw : h = w
          · rw [hw, Function.update_self] at ha
            cases n <;> simp [waitersFrom] at ha
          · rwa [Function.update_of_ne hw] at ha

theorem awakenLoop_spec (n : ℕ) (h : QueuesAgree k c Q)
    (hw : ∀ w ∈ waitersFrom k.semWaiterNext n (k.semaphores i).waitHead, Wakeable k w) :
    ∃ ws k' Q', awakenLoop i n k = some (ws, k') ∧ QueuesAgree k' c Q' ∧ Releases i k ws k' ∧
      (ws.length = n ∨ (k'.semaphores i).waitHead = 0 ∧ ws.length ≤ n) := by
  induction n generalizing k Q with
  | zero => exact ⟨[], k, Q, rfl, h, .nil (.refl k), Or.inl rfl⟩
  | succ n ih =>
      by_cases hhead : (k.semaphores i).waitHead = 0
      · refine ⟨[], k, Q, ?_, h, .nil (.refl k), Or.inr ⟨hhead, Nat.zero_le _⟩⟩
        simp [awakenLoop, dequeueWaiter, hhead]
      · have hfirst : Wakeable k (k.semaphores i).waitHead := by
          refine hw _ ?_
          rw [waitersFrom, if_neg hhead]
          exact List.mem_cons_self
        obtain ⟨k₁, Q₁, hdeq, hrel, hagree, hcore⟩ := releaseFirst_spec h rfl hhead hfirst
        have hrest : ∀ w ∈ waitersFrom k₁.semWaiterNext n (k₁.semaphores i).waitHead,
            Wakeable k₁ w := by
          intro w hm
          rw [hcore.semWaiterNext, hcore.semaphores] at hm
          simp only [Function.update_self] at hm
          have hold : w ∈ waitersFrom k.semWaiterNext (n + 1) (k.semaphores i).waitHead := by
            rw [waitersFrom, if_neg hhead]
            exact List.mem_cons_of_mem _ (mem_waitersFrom_update hm)
          obtain ⟨hal, hst⟩ := hw w hold
          refine ⟨by rw [hcore.allocated]; exact hal, ?_⟩
          rw [hcore.state]
          dsimp only
          by_cases hwh : w = (k.semaphores i).waitHead
          · rw [hwh, Function.update_self]
            simp
          · rwa [Function.update_of_ne hwh]
        obtain ⟨ws, k', Q', heq, hagree', hreleases, hcount⟩ := ih hagree hrest
        refine ⟨(k.semaphores i).waitHead :: ws, k', Q', ?_, hagree',
          .cons rfl hhead hfirst hcore hreleases, ?_⟩
        · rw [awakenLoop]
          simp only [hdeq, if_neg hhead, Option.bind_eq_bind]
          rw [hrel, Option.bind_some, heq, Option.bind_some]
        · simp only [List.length_cons]
          omega

end Specs

section Exec

/-- What the inversion theorem says about a call. -/
def CallOk (k : Kernel) (F : List ℕ) (c : Call) : Prop :=
  ∃ o Q', exec k c = some o ∧ QueuesAgree o.kernel o.kernel.current Q' ∧ CallEffect k F c o

theorem QueuesAgree.withForeground (h : QueuesAgree k c Q) (fg : ℕ → Bool) :
    QueuesAgree { k with isForeground := fg } c Q :=
  ⟨h.rings, h.members, h.valid, h.idle, h.current, h.terminals, h.noPipes⟩

theorem exec_spawn (h : QueuesAgree k k.current Q) {r : SpawnRequest} (hs : ValidRequest k r) :
    CallOk k (Q .finished) (.spawn r) := by
  obtain ⟨p, k', Q', heq, hagree, heffect⟩ := schedulerSpawnProcess_spec h hs
  refine ⟨.return p k', Q', by rw [exec, heq]; rfl, ?_, ?_⟩
  · cases heffect <;> exact hagree
  · cases heffect with
    | failed => exact .quiet (Outcome.plain_return _ _) (.refl k)
    | cleared hpcb => exact .cleared r.pcb (hs.1 hpcb).2 (Outcome.plain_return _ _) (.refl _)
    | created hpcb fdp l =>
        refine .created r hs hpcb (clampPriority r.priority) fdp (Outcome.plain_return _ _) ?_
        constructor <;> rfl

theorem exec_createProcess (h : QueuesAgree k k.current Q) {r : SpawnRequest}
    (hs : ValidRequest k { r with parent := k.current }) :
    CallOk k (Q .finished) (.createProcess r) := by
  have hfg : ∃ fg, (if r.isForeground = true ∧ k.current ≠ 0 then
      { k with isForeground := update k.isForeground k.current false } else k) =
        { k with isForeground := fg } := by
    split
    · exact ⟨_, rfl⟩
    · exact ⟨k.isForeground, rfl⟩
  obtain ⟨fg, hfg⟩ := hfg
  obtain ⟨p, k', Q', heq, hagree, heffect⟩ := schedulerSpawnProcess_spec
    (r := { r with parent := k.current, priority := r.priority % 2 ^ 8 }) (h.withForeground fg) hs
  have hback : ∀ k' : Kernel, ∃ fg', (if r.isForeground = true ∧ k.current ≠ 0 then
      { k' with isForeground := update k'.isForeground k.current true } else k') =
        { k' with isForeground := fg' } := by
    intro k'
    split
    · exact ⟨_, rfl⟩
    · exact ⟨k'.isForeground, rfl⟩
  simp only [CallOk, exec, syscallCreateProcess, hfg, heq, Option.bind_eq_bind, Option.bind_some]
  cases heffect with
  | failed =>
      obtain ⟨fg', hfg'⟩ := hback { k with isForeground := fg }
      refine ⟨.return 0 { k with isForeground := fg' }, Q', ?_, hagree.withForeground fg',
        .quiet (Outcome.plain_return _ _) ?_⟩
      · rw [if_pos rfl, hfg', Option.map_some]
      · constructor <;> rfl
  | cleared hpcb =>
      obtain ⟨fg', hfg'⟩ := hback (clearPcb { k with isForeground := fg } r.pcb)
      refine ⟨.return 0 _, Q', ?_, hagree.withForeground fg',
        .cleared r.pcb (hs.1 hpcb).2 (Outcome.plain_return _ _) ?_⟩
      · rw [if_pos rfl, hfg', Option.map_some]
      · constructor <;> rfl
  | created hpcb fdp l =>
      refine ⟨_, Q', by rw [if_neg hpcb, Option.map_some], hagree,
        .created { r with parent := k.current } hs hpcb (clampPriority (r.priority % 2 ^ 8)) fdp
          (Outcome.plain_return _ _) ?_⟩
      constructor <;> rfl

theorem exec_unblock (h : QueuesAgree k k.current Q) {p : ℕ} (hs : p = 0 ∨ Wakeable k p) :
    ∃ k' Q', schedulerUnblockProcess k p = some k' ∧ QueuesAgree k' k'.current Q' ∧
      (SameCore k k' ∨ Wakeable k p ∧ SameCore { k with state := update k.state p .ready } k') := by
  rcases hs with rfl | hwake
  · exact ⟨k, Q, rfl, h, Or.inl (.refl k)⟩
  · obtain ⟨l, b, Q', heq, hagree⟩ := schedulerUnblockProcess_spec h hwake.1 hwake.2
    refine ⟨_, Q', heq, hagree, Or.inr ⟨hwake, ?_⟩⟩
    constructor <;> rfl

/-- Blocking the current process and switching to another one. -/
theorem blockYield_spec (frame : Frame) (h : QueuesAgree k k.current Q) (hb : CanBlock k) :
    ∃ o Q', schedulerYieldCurrent (schedulerBlockCurrent k) frame 1 = some o ∧
      QueuesAgree o.kernel o.kernel.current Q' ∧
      ScheduleEffect (schedulerBlockCurrent k) [] (Q .finished) o := by
  have hagree := schedulerBlockCurrent_spec h hb
  have hcur : (schedulerBlockCurrent k).current = k.current := by
    unfold schedulerBlockCurrent
    split <;> rfl
  rw [← hcur] at hagree
  refine schedulerYieldCurrent_spec frame 1 hagree fun hc => ?_
  unfold SaveWakes
  rw [if_neg]
  rw [hcur] at hc ⊢
  unfold schedulerBlockCurrent
  by_cases hidle : k.current = k.idleP
  · rw [if_pos (Or.inr hidle), hidle]
    have hrun := (h.idle (hidle ▸ hc)).2
    intro hf
    rw [hf] at hrun
    simp at hrun
  · rw [if_neg (not_or.mpr ⟨hc, hidle⟩)]
    simp

theorem exec_wait (h : QueuesAgree k k.current Q) {pid : ℕ} (frame : Frame)
    (hs : QueueSafe k (.wait pid frame)) : CallOk k (Q .finished) (.wait pid frame) := by
  have hquiet (r : ℕ) : CallEffect k (Q .finished) (.wait pid frame) (.return r k) :=
    .quiet (Outcome.plain_return _ _) (.refl k)
  simp only [CallOk, exec, syscallWait]
  by_cases hrange : pid = 0 ∨ 2 ^ 63 ≤ pid
  · exact ⟨_, Q, if_pos hrange, h, hquiet 0⟩
  obtain ⟨t, hfind, ht⟩ := schedulerFindByPid_spec h pid
  rw [if_neg hrange, hfind, Option.bind_eq_bind, Option.bind_some]
  by_cases ht0 : t = 0
  · exact ⟨_, Q, if_pos ht0, h, hquiet 0⟩
  rw [if_neg ht0]
  by_cases hfin : k.state t = .finished
  · rw [if_pos hfin]
    split
    · refine ⟨_, Q, rfl, h.withForeground _, .quiet (Outcome.plain_return _ _) ?_⟩
      constructor <;> rfl
    · exact ⟨_, Q, rfl, h, hquiet 1⟩
  rw [if_neg hfin]
  by_cases hme : k.current = 0 ∨ k.current = t
  · exact ⟨_, Q, if_pos hme, h, hquiet 0⟩
  rw [if_neg hme]
  rw [not_or] at hme
  have hcan := hs t hfind ht0 hfin hme.2
  obtain ⟨o, Q', heq, hagree, heffect⟩ := blockYield_spec (k := waitLinked k t pid) frame
    ⟨h.rings, h.members, h.valid, h.idle, h.current, h.terminals, h.noPipes⟩ hcan
  exact ⟨o, Q', heq, hagree, .waited t hfind ⟨(ht.resolve_left ht0).1, hfin⟩ hme.1 hme.2 hcan
    heffect⟩

theorem exec_semWait (h : QueuesAgree k k.current Q) {id : ℕ} (frame : Frame)
    (hs : QueueSafe k (.semWait id frame)) : CallOk k (Q .finished) (.semWait id frame) := by
  have hs' : (semWaitStart k id).2 = .queued → CanBlock k := hs
  simp only [CallOk, exec, semWaitById]
  unfold semWaitStart at hs' ⊢
  cases hget : semGetById k id with
  | none => exact ⟨_, Q, rfl, h, .quiet (Outcome.plain_return _ _) (.refl k)⟩
  | some i =>
      simp only [hget] at hs' ⊢
      by_cases hcur : k.current = 0
      · rw [if_pos hcur]
        exact ⟨_, Q, rfl, h, .quiet (Outcome.plain_return _ _) (.refl k)⟩
      rw [if_neg hcur] at hs' ⊢
      by_cases hpos : 0 < (k.semaphores i).value
      · rw [if_pos hpos]
        refine ⟨_, Q, rfl, h.withSemaphores _ _ _ _, .semTaken i hget hpos
          (Outcome.plain_return _ _) rfl ?_⟩
        constructor <;> rfl
      · rw [if_neg hpos] at hs' ⊢
        have hcan := hs' rfl
        obtain ⟨sems, swn, hshape⟩ := enqueueWaiter_shape
          { k with waitingOnSem := update k.waitingOnSem k.current (k.semaphores i).id } i k.current
        have hk := h.withSemaphores sems (update k.waitingOnSem k.current (k.semaphores i).id) swn
          k.nextSemId
        obtain ⟨o, Q', heq, hagree, heffect⟩ := blockYield_spec frame hk hcan
        refine ⟨o, Q', ?_, hagree, .semQueued i hget (not_lt.mp hpos) hcur hcan ?_⟩
        · simp only [hshape]
          exact heq
        · rw [hshape]
          exact heffect

theorem exec_semSignal (h : QueuesAgree k k.current Q) {id : ℕ}
    (hs : QueueSafe k (.semSignal id)) : CallOk k (Q .finished) (.semSignal id) := by
  simp only [CallOk, exec, semSignalById]
  cases hget : semGetById k id with
  | none => exact ⟨_, Q, rfl, h, .quiet ⟨rfl, rfl, rfl⟩ (.refl k)⟩
  | some i =>
      by_cases hhead : (k.semaphores i).waitHead = 0
      · refine ⟨⟨setSemValue k i ((k.semaphores i).value + 1), some 1, none, [], []⟩, Q, ?_,
          h.withSemaphores _ _ _ _, .semIncremented i hget hhead ⟨rfl, rfl, rfl⟩ (.refl _)⟩
        simp [dequeueWaiter, hhead]
      · have hwake : Wakeable k (k.semaphores i).waitHead := by
          refine hs i hget _ ?_
          simp [waitersFrom, hhead]
        obtain ⟨k₁, Q₁, hdeq, hrel, hagree, hcore⟩ := releaseFirst_spec h rfl hhead hwake
        have hcur : k₁.current = k.current := hcore.current
        refine ⟨⟨k₁, some 1, none, [], [(k.semaphores i).waitHead]⟩, Q₁, ?_, hcur ▸ hagree,
          .semReleased i hget _ rfl rfl rfl (.cons rfl hhead hwake hcore (.nil (.refl _)))⟩
        simp [hdeq, hhead, hrel]

theorem Releases.current {k' : Kernel} {ws : List ℕ} (h : Releases i k ws k') :
    k'.current = k.current := by
  induction h with
  | nil core => exact core.current
  | cons _ _ _ step _ ih => exact ih.trans step.current

theorem exec_semSet (h : QueuesAgree k k.current Q) {id : ℕ} {v : ℤ}
    (hs : QueueSafe k (.semSet id v)) : CallOk k (Q .finished) (.semSet id v) := by
  simp only [CallOk, exec, semSetById]
  cases hget : semGetById k id with
  | none => exact ⟨_, Q, rfl, h, .quiet ⟨rfl, rfl, rfl⟩ (.refl k)⟩
  | some i =>
      by_cases hneg : v < 0
      · refine ⟨⟨k, some 0, none, [], []⟩, Q, ?_, h, .quiet ⟨rfl, rfl, rfl⟩ (.refl k)⟩
        simp [hneg]
      · obtain ⟨ws, k', Q', heq, hagree, hrel, hcount⟩ := awakenLoop_spec v.toNat h (hs i hget)
        refine ⟨⟨setSemValue k' i (v - ws.length), some 1, none, [], ws⟩, Q', ?_, ?_,
          .semSet i hget (not_lt.mp hneg) ws k' rfl rfl rfl hrel hcount (.refl _)⟩
        · simp [hneg, heq]
        · rw [show k.current = k'.current from hrel.current.symm] at hagree
          exact hagree.withSemaphores _ _ _ _

/-- The waiters that a switch wakes, from the condition on the current process. -/
theorem exists_saveWakes
    (hs : k.current ≠ 0 → k.state k.current = .finished → ∃ L, WaitersAwake k k.current L) :
    ∃ L, k.current ≠ 0 → SaveWakes k k.current L := by
  by_cases hf : k.current ≠ 0 ∧ k.state k.current = .finished
  · obtain ⟨L, hL⟩ := hs hf.1 hf.2
    refine ⟨L, fun _ => ?_⟩
    rw [SaveWakes, if_pos hf.2]
    exact hL
  · refine ⟨[], fun hc => ?_⟩
    rw [SaveWakes, if_neg fun hfin => hf ⟨hc, hfin⟩]

theorem exec_killByPid (h : QueuesAgree k k.current Q) {pid : ℕ}
    (hs : QueueSafe k (.killByPid pid)) : CallOk k (Q .finished) (.killByPid pid) := by
  obtain ⟨r, k', Q', heq, hagree, heffect⟩ := schedulerKillByPid_spec h pid hs
  refine ⟨.return r k', Q', by rw [exec, heq]; rfl, ?_, ?_⟩
  · cases heffect <;> exact hagree
  · cases heffect with
    | missing => exact .quiet (Outcome.plain_return _ _) (.refl k)
    | killed p hfind ha hidle L hL fg b l =>
        refine .killed p hfind ha hidle L hL (Outcome.plain_return _ _) ?_
        constructor <;> rfl

theorem exec_blockByPid (h : QueuesAgree k k.current Q) {pid : ℕ}
    (hs : QueueSafe k (.blockByPid pid)) : CallOk k (Q .finished) (.blockByPid pid) := by
  obtain ⟨r, k', Q', heq, hagree, heffect⟩ := schedulerBlockByPid_spec h pid hs
  refine ⟨.return r k', Q', by rw [exec, heq]; rfl, ?_, ?_⟩
  · cases heffect <;> exact hagree
  · cases heffect with
    | kept => exact .quiet (Outcome.plain_return _ _) (.refl k)
    | blocked p ha hf hidle b l =>
        refine .blocked p ⟨ha, hf⟩ hidle (Outcome.plain_return _ _) ?_
        constructor <;> rfl

theorem exec_finishCurrent (h : QueuesAgree k k.current Q)
    (hs : QueueSafe k .finishCurrent) : CallOk k (Q .finished) .finishCurrent := by
  obtain ⟨k', heq, hagree, hk'⟩ := schedulerFinishCurrent_spec h hs
  refine ⟨.return 0 k', Q, by rw [exec, heq]; rfl, ?_, ?_⟩
  · rcases hk' with rfl | ⟨-, -, rfl⟩ <;> exact hagree
  · rcases hk' with rfl | ⟨hc, hidle, rfl⟩
    · exact .quiet (Outcome.plain_return _ _) (.refl _)
    · refine .finished hc hidle (Outcome.plain_return _ _) ?_
      constructor <;> rfl

theorem exec_blockCurrent (h : QueuesAgree k k.current Q) (hs : CanBlock k) :
    CallOk k (Q .finished) .blockCurrent := by
  have hagree := schedulerBlockCurrent_spec h hs
  refine ⟨.return 0 (schedulerBlockCurrent k), Q, rfl, ?_, ?_⟩
  · have hcur : (schedulerBlockCurrent k).current = k.current := by
      unfold schedulerBlockCurrent
      split <;> rfl
    exact hcur.symm ▸ hagree
  · by_cases hc : k.current = 0 ∨ k.current = k.idleP
    · refine .quiet (Outcome.plain_return _ _) ?_
      rw [schedulerBlockCurrent, if_pos hc]
      exact .refl k
    · have hne := not_or.mp hc
      obtain ⟨-, hf⟩ := (hs.resolve_left hne.1).resolve_left hne.2
      refine .blocked k.current ⟨(h.current hne.1).1, hf⟩ hne.2 (Outcome.plain_return _ _) ?_
      rw [schedulerBlockCurrent, if_neg hc]
      constructor <;> rfl

theorem exec_unblockByPid (h : QueuesAgree k k.current Q) {pid : ℕ}
    (hs : QueueSafe k (.unblockByPid pid)) : CallOk k (Q .finished) (.unblockByPid pid) := by
  obtain ⟨p, hfind, -⟩ := schedulerFindByPid_spec h pid
  simp only [CallOk, exec, schedulerUnblockByPid]
  rw [hfind, Option.bind_eq_bind, Option.bind_some]
  by_cases hp0 : p = 0
  · rw [if_pos hp0]
    exact ⟨_, Q, rfl, h, .quiet (Outcome.plain_return _ _) (.refl k)⟩
  · obtain ⟨k', Q', heq, hagree, hcore⟩ := exec_unblock h (hs p hfind)
    rw [if_neg hp0, heq, Option.bind_eq_bind, Option.bind_some]
    refine ⟨_, Q', rfl, hagree, ?_⟩
    rcases hcore with hcore | ⟨hwake, hcore⟩
    · exact .quiet (Outcome.plain_return _ _) hcore
    · exact .readied p (Or.inr ⟨pid, rfl, hfind⟩) hwake (Outcome.plain_return _ _) hcore

/-- Every call that meets its condition returns, keeps the queues in agreement with the
process states and has one of the listed effects. -/
theorem exec_spec (h : QueuesAgree k k.current Q) {c : Call} (hs : QueueSafe k c) :
    CallOk k (Q .finished) c := by
  cases c with
  | spawn r => exact exec_spawn h hs
  | createProcess r => exact exec_createProcess h hs
  | tick frame =>
      obtain ⟨L, hL⟩ := exists_saveWakes hs
      obtain ⟨o, Q', heq, hagree, heffect⟩ := timerTick_spec frame h hL
      exact ⟨o, Q', heq, hagree, .scheduled L hL heffect⟩
  | yield frame =>
      obtain ⟨L, hL⟩ := exists_saveWakes hs
      obtain ⟨o, Q', heq, hagree, heffect⟩ := schedulerYieldCurrent_spec frame 1 h hL
      exact ⟨o, Q', heq, hagree, .scheduled L hL heffect⟩
  | blockCurrent => exact exec_blockCurrent h hs
  | blockByPid pid => exact exec_blockByPid h hs
  | unblockProcess p =>
      obtain ⟨k', Q', heq, hagree, hcore⟩ := exec_unblock h hs
      refine ⟨.return 0 k', Q', by rw [exec, heq]; rfl, hagree, ?_⟩
      rcases hcore with hcore | ⟨hwake, hcore⟩
      · exact .quiet (Outcome.plain_return _ _) hcore
      · exact .readied p (Or.inl rfl) hwake (Outcome.plain_return _ _) hcore
  | unblockByPid pid => exact exec_unblockByPid h hs
  | finishCurrent => exact exec_finishCurrent h hs
  | killByPid pid => exact exec_killByPid h hs
  | setPriority pid pr =>
      obtain ⟨r, k', Q', heq, hagree, prio, base, wt, b, l, rfl⟩ := schedulerSetPriority_spec h pid pr
      refine ⟨.return r _, Q', by rw [exec, heq]; rfl, hagree, .quiet (Outcome.plain_return _ _) ?_⟩
      constructor <;> rfl
  | wait pid frame => exact exec_wait h frame hs
  | waitReturn target =>
      simp only [CallOk, exec, syscallWaitReturn]
      split
      · refine ⟨_, Q, rfl, h.withForeground _, .quiet (Outcome.plain_return _ _) ?_⟩
        constructor <;> rfl
      · exact ⟨_, Q, rfl, h, .quiet (Outcome.plain_return _ _) (.refl k)⟩
  | keyboardInit =>
      simp only [CallOk, exec, keyboardInit]
      split
      · refine ⟨_, Q, rfl, ?_, .semAllocated 0 (Outcome.plain_return _ _) ?_⟩
        · unfold semAlloc
          split <;> exact ⟨h.rings, h.members, h.valid, h.idle, h.current, h.terminals, h.noPipes⟩
        · constructor <;> rfl
      · exact ⟨_, Q, rfl, h, .quiet (Outcome.plain_return _ _) (.refl k)⟩
  | semAlloc v =>
      refine ⟨_, Q, rfl, ?_, .semAllocated v (Outcome.plain_return _ _) (.refl _)⟩
      split <;> exact ⟨h.rings, h.members, h.valid, h.idle, h.current, h.terminals, h.noPipes⟩
  | semOpen id =>
      refine ⟨_, Q, rfl, ?_, .semOpened (Outcome.plain_return _ _) (.refl _)⟩
      split <;> exact ⟨h.rings, h.members, h.valid, h.idle, h.current, h.terminals, h.noPipes⟩
  | semClose id =>
      refine ⟨_, Q, rfl, ?_, .semClosed (Outcome.plain_return _ _) (.refl _)⟩
      split <;> exact ⟨h.rings, h.members, h.valid, h.idle, h.current, h.terminals, h.noPipes⟩
  | semWait id frame => exact exec_semWait h frame hs
  | semSignal id => exact exec_semSignal h hs
  | semSet id v => exact exec_semSet h hs

end Exec
end SoKernel
