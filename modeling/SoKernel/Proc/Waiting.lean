import SoKernel.Proc.RealCalls

/-!
# Waiting for a process

A process that blocks in `syscall_wait` keeps a pointer to its target and uses it when it
runs again. The runs here record these pointers and the identifiers of the processes whose
state was set to `PROCESS_STATE_FINISHED`.
-/

namespace SoKernel

open Function (update)

section Model

/-- What `syscall_wait` returns before any context switch; `none` if it blocks. -/
def waitAnswer (k : Kernel) (target : ℕ) : Option ℕ :=
  if k.pid target = 0 ∨ 2 ^ 63 ≤ k.pid target then some 0
  else if k.state target = .finished then some 1
  else if k.current = 0 ∨ k.current = target then some 0
  else none

/-- What the search by identifier finds, `0` for `NULL`. -/
def foundByPid (k : Kernel) (pid : ℕ) : ℕ := (schedulerFindByPid k pid).getD 0

structure WaitState where
  kernel : Kernel
  /-- The target of a process inside `syscall_wait`, with the identifier it asked for. -/
  pending : ℕ → Option (ℕ × ℕ)
  /-- The identifiers of the processes that were set to finished. -/
  ended : List ℕ

/-- The pointers, with that of a caller that blocks in `syscall_wait`. -/
def registered (s : WaitState) : Call → ℕ → Option (ℕ × ℕ)
  | .wait pid _ =>
      let target := foundByPid s.kernel pid
      if target ≠ 0 ∧ waitAnswer s.kernel target = none then
        update s.pending s.kernel.current (some (target, pid))
      else s.pending
  | _ => s.pending

/-- The pointers of the processes that exist: who has been destroyed is in no call any more. -/
def existing (k : Kernel) (pend : ℕ → Option (ℕ × ℕ)) (w : ℕ) : Option (ℕ × ℕ) :=
  if k.allocated w then pend w else none

/-- The records after a call. -/
def WaitState.after (s : WaitState) (c : Call) (k' : Kernel) : WaitState where
  kernel := k'
  pending := existing k' (registered s c)
  ended := match c with
    | .killByPid pid => if foundByPid s.kernel pid = 0 then s.ended else pid :: s.ended
    | .finishCurrent => s.kernel.pid s.kernel.current :: s.ended
    | _ => s.ended

/-- A call of any process but one that is inside `syscall_wait`, or the return from
`syscall_wait`. -/
inductive WaitMove where
  | call (c : Call)
  | resume

inductive WaitStep (s : WaitState) : WaitMove → WaitState → Prop
  | call {c o} (notReturn : ∀ target, c ≠ .waitReturn target)
      (outside : s.pending s.kernel.current = none) (step : exec s.kernel c = some o) :
      WaitStep s (.call c) (s.after c o.kernel)
  | resume {target pid o} (inside : s.pending s.kernel.current = some (target, pid))
      (step : exec s.kernel (.waitReturn target) = some o) :
      WaitStep s .resume
        { s with
          kernel := o.kernel
          pending := update s.pending s.kernel.current none }

inductive WaitRun (start : WaitState) : List (WaitState × WaitMove) → WaitState → Prop
  | nil : WaitRun start [] start
  | snoc {steps s m s'} (run : WaitRun start steps s) (step : WaitStep s m s') :
      WaitRun start (steps ++ [(s, m)]) s'

end Model

section Condition

/-- The loop over the waiters of a process wakes no process that waits for another one. -/
def WakesOwn (k : Kernel) (p : ℕ) : Prop :=
  ∀ L, WakeList k.waiterNext (k.waitersHead p) L →
    ∀ w ∈ L, k.waitingOnPid w ≠ 0 → k.waitingOnPid w = k.pid p

/-- The choice of a call that switches. -/
def switchChoice (k : Kernel) : OpenCall → Option Choice
  | .switch ch => some ch
  | .wait target ch => if waitAnswer k target = none then some ch else none
  | .semWait id ch => if (semWaitStart k id).2 = .queued then some ch else none
  | _ => none

/-- The pointers with that of the caller, for open calls. -/
def registeredBy (pend : ℕ → Option (ℕ × ℕ)) (k : Kernel) : OpenCall → ℕ → Option (ℕ × ℕ)
  | .wait target _ =>
      if waitAnswer k target = none then update pend k.current (some (target, k.pid target)) else pend
  | _ => pend

/-- The identifiers of the finished processes after an open call. -/
def endedBy (done : List ℕ) (k : Kernel) : OpenCall → List ℕ
  | .kill p => k.pid p :: done
  | .exit => k.pid k.current :: done
  | _ => done

/-- Only the end of its target makes a waiting process ready. -/
def WakesEnded (k : Kernel) : OpenCall → Prop
  | .unblock p => k.waitingOnPid p = 0
  | .kill p => WakesOwn k p
  | .switch _ => k.state k.current = .finished → WakesOwn k k.current
  | .semSignal id => ∀ i, semGetById k id = some i → k.waitingOnPid (k.semaphores i).waitHead = 0
  | .semSet id v => ∀ i, semGetById k id = some i → ∀ w ∈ (releaseLoop i v.toNat k).1, k.waitingOnPid w = 0
  | _ => True

/-- The calls that keep waiting sound, judged in the state before the call. No context switch
collects a target that is still needed. -/
def WaitSafe (pend : ℕ → Option (ℕ × ℕ)) (k : Kernel) (c : OpenCall) : Prop :=
  WakesEnded k c ∧ ∀ ch, switchChoice k c = some ch → ∀ w target pid,
    registeredBy pend k c w = some (target, pid) → target ∉ ch.dead

/-- A call of a run meets the condition. -/
def WaitMove.Safe (s : WaitState) : WaitMove → Prop
  | .resume => True
  | .call c => c.Allowed (WaitSafe s.pending) s.kernel

end Condition

section Invariant

variable {k k' : Kernel} {pend : ℕ → Option (ℕ × ℕ)} {done done' : List ℕ} {ch : Choice} {L : List ℕ}

/-- The process that waits for the given identifier may run on: its target has ended, or it
is still blocked in its wait. -/
def Awaits (k : Kernel) (done : List ℕ) (w pid : ℕ) : Prop :=
  pid ∈ done ∨ k.waitingOnPid w = pid ∧ (k.state w = .blocked ∨ k.state w = .finished)

/-- The targets of waiting processes exist, and finished processes have ended. -/
structure WaitsSound (k : Kernel) (pend : ℕ → Option (ℕ × ℕ)) (done : List ℕ) : Prop where
  orderly : Orderly k
  waiter : ∀ w target pid, pend w = some (target, pid) →
    k.allocated w = true ∧ w ≠ k.idleP ∧ pid ≠ 0 ∧ Awaits k done w pid
  target : ∀ w target pid, pend w = some (target, pid) →
    k.allocated target = true ∧ k.pid target = pid
  ended : ∀ p, k.allocated p = true → k.state p = .finished → k.pid p ∈ done

/-- A call that destroys nobody. -/
theorem WaitsSound.keep (h : WaitsSound k pend done) (ho : Orderly k') (hsub : ∀ a ∈ done, a ∈ done')
    (halloc : ∀ p, k.allocated p = true → k'.allocated p = true)
    (hpid : ∀ p, k.allocated p = true → k'.pid p = k.pid p) (hidle : k'.idleP = k.idleP)
    (hwait : ∀ w, k.allocated w = true → w ≠ k.idleP → pend w ≠ none →
      (k'.waitingOnPid w = k.waitingOnPid w ∧ (k.state w = .blocked ∨ k.state w = .finished →
        k'.state w = .blocked ∨ k'.state w = .finished)) ∨
      (k.waitingOnPid w ≠ 0 → k.waitingOnPid w ∈ done'))
    (hfin : ∀ p, k'.allocated p = true → k'.state p = .finished →
      k.allocated p = true ∧ k.state p = .finished ∨ k'.pid p ∈ done') :
    WaitsSound k' pend done' := by
  refine ⟨ho, fun w target pid hw => ?_, fun w target pid hw => ?_, fun p hp hs => ?_⟩
  · obtain ⟨hal, hne, hpos, hawait⟩ := h.waiter w target pid hw
    refine ⟨halloc w hal, hidle ▸ hne, hpos, ?_⟩
    rcases hawait with hdone | ⟨hon, hst⟩
    · exact Or.inl (hsub pid hdone)
    · rcases hwait w hal hne (by simp [hw]) with ⟨hsame, hkept⟩ | hwoken
      · exact Or.inr ⟨hsame.trans hon, hkept hst⟩
      · exact Or.inl (hon ▸ hwoken (hon ▸ hpos))
  · obtain ⟨hal, hp⟩ := h.target w target pid hw
    exact ⟨halloc _ hal, (hpid _ hal).trans hp⟩
  · rcases hfin p hp hs with ⟨hal, hold⟩ | hnew
    · rw [hpid p hal]
      exact hsub _ (h.ended p hal hold)
    · exact hnew

theorem Switched.pid (h : Switched k ch L k') : k'.pid = k.pid := by
  obtain ⟨pa, fc, ns, ps, hshape⟩ := buryAll_shape (switchedBy k L ch.next) ch.dead
  rw [h.result, hshape]

theorem Switched.idleP (h : Switched k ch L k') : k'.idleP = k.idleP := by
  obtain ⟨pa, fc, ns, ps, hshape⟩ := buryAll_shape (switchedBy k L ch.next) ch.dead
  rw [h.result, hshape]

theorem Switched.waitingOnPid (h : Switched k ch L k') :
    k'.waitingOnPid = setAll L 0 k.waitingOnPid := by
  obtain ⟨pa, fc, ns, ps, hshape⟩ := buryAll_shape (switchedBy k L ch.next) ch.dead
  rw [h.result, hshape]

/-- A context switch that collects no target. -/
theorem WaitsSound.switched (h : WaitsSound k pend done) (hsw : Switched k ch L k')
    (hcur : ∀ x, pend k.current = some x → k.state k.current = .blocked)
    (hwake : k.state k.current = .finished → WakesOwn k k.current)
    (hdead : ∀ w target pid, pend w = some (target, pid) → target ∉ ch.dead) :
    WaitsSound k' (setAll ch.dead none pend) done ∧
      ∀ target pid, pend ch.next = some (target, pid) → pid ∈ done := by
  have hlist : ∀ w ∈ L, k.state k.current = .finished ∧
      (k.waitingOnPid w ≠ 0 → k.waitingOnPid w = k.pid k.current) := by
    intro w hw
    have hwoken := hsw.woken
    unfold Woken at hwoken
    split at hwoken
    · rename_i hs
      exact ⟨hs, hwake hs L hwoken w hw⟩
    · rw [hwoken] at hw
      cases hw
  -- a waiting process that has lost its place in the wait has seen the end of its target
  have hdone : ∀ w target pid, pend w = some (target, pid) →
      pid ∈ done ∨ w ∉ L ∧ k.waitingOnPid w = pid ∧ (k.state w = .blocked ∨ k.state w = .finished) := by
    intro w target pid hw
    obtain ⟨-, -, hpos, hawait⟩ := h.waiter w target pid hw
    rcases hawait with hd | ⟨hon, hst⟩
    · exact Or.inl hd
    · by_cases hm : w ∈ L
      · obtain ⟨hs, hown⟩ := hlist w hm
        left
        rw [← hon, hown (hon ▸ hpos)]
        exact h.ended _ h.orderly.current hs
      · exact Or.inr ⟨hm, hon, hst⟩
  have hsaved : ∀ w target pid, pend w = some (target, pid) → w ∉ L →
      savedState k k.current L w = k.state w := by
    intro w target pid hw hm
    unfold savedState
    split
    · rename_i hrun
      have hwc : w ≠ k.current := by
        rintro rfl
        rw [hcur _ hw] at hrun
        cases hrun.1
      rw [Function.update_of_ne hwc]
    · rw [setAll_of_not_mem _ _ hm]
  have hnext : ∀ target pid, pend ch.next = some (target, pid) → pid ∈ done := by
    intro target pid hw
    rcases hdone _ _ _ hw with hd | ⟨hm, -, hst⟩
    · exact hd
    · exfalso
      rcases hsw.next_ready with hr | hr
      · rw [hsaved _ _ _ hw hm] at hr
        rw [hr] at hst
        simp at hst
      · exact (h.waiter _ _ _ hw).2.1 hr
  have hpend : ∀ w x, setAll ch.dead none pend w = some x → w ∉ ch.dead ∧ pend w = some x := by
    intro w x hw
    by_cases hm : w ∈ ch.dead
    · rw [setAll_of_mem _ _ hm] at hw
      cases hw
    · rw [setAll_of_not_mem _ _ hm] at hw
      exact ⟨hm, hw⟩
  refine ⟨⟨hsw.orderly h.orderly, fun w target pid hw => ?_, fun w target pid hw => ?_, fun p hp hs => ?_⟩,
    hnext⟩
  · obtain ⟨hwd, hw⟩ := hpend w _ hw
    obtain ⟨hal, hne, hpos, -⟩ := h.waiter w target pid hw
    refine ⟨?_, hsw.idleP ▸ hne, hpos, ?_⟩
    · rw [hsw.allocated, setAll_of_not_mem _ _ hwd]
      exact hal
    · rcases hdone _ _ _ hw with hd | ⟨hm, hon, hst⟩
      · exact Or.inl hd
      · by_cases hn : w = ch.next
        · exact Or.inl (hnext target pid (hn ▸ hw))
        · refine Or.inr ⟨?_, ?_⟩
          · rw [hsw.waitingOnPid, setAll_of_not_mem _ _ hm]
            exact hon
          · rw [hsw.state, Function.update_of_ne hn, hsaved _ _ _ hw hm]
            exact hst
  · obtain ⟨-, hw⟩ := hpend w _ hw
    obtain ⟨hal, hpid⟩ := h.target w target pid hw
    rw [hsw.allocated, setAll_of_not_mem _ _ (hdead w target pid hw), hsw.pid]
    exact ⟨hal, hpid⟩
  · rw [hsw.pid]
    refine h.ended p (hsw.allocated_before hp) ?_
    rw [hsw.state] at hs
    by_cases hn : p = ch.next
    · rw [hn, Function.update_self] at hs
      cases hs
    · rw [Function.update_of_ne hn] at hs
      unfold savedState at hs
      split at hs
      · by_cases hpc : p = k.current
        · rw [hpc, Function.update_self] at hs
          cases hs
        · rwa [Function.update_of_ne hpc] at hs
      · by_cases hm : p ∈ L
        · rw [setAll_of_mem _ _ hm] at hs
          cases hs
        · rwa [setAll_of_not_mem _ _ hm] at hs

end Invariant

section Steps

variable {k k' : Kernel} {pend : ℕ → Option (ℕ × ℕ)} {done L : List ℕ} {s s' : WaitState} {ch : Choice}

theorem waitFound_answered {target : ℕ} (hanswer : waitAnswer k target ≠ none)
    (h : waitFound k target ch = some k') : ∃ fg, k' = { k with isForeground := fg } := by
  unfold waitAnswer at hanswer
  unfold waitFound at h
  split at h
  · exact ⟨k.isForeground, (Option.some_inj.mp h).symm⟩
  rename_i hrange
  rw [if_neg hrange] at hanswer
  split at h
  · rw [← Option.some_inj.mp h]
    split
    · exact ⟨_, rfl⟩
    · exact ⟨k.isForeground, rfl⟩
  rename_i hover
  rw [if_neg hover] at hanswer
  split at h
  · exact ⟨k.isForeground, (Option.some_inj.mp h).symm⟩
  · rename_i hme
    rw [if_neg hme] at hanswer
    exact absurd rfl hanswer

theorem waitFound_blocks {target : ℕ} (hanswer : waitAnswer k target = none) :
    waitFound k target ch =
        switchBy (schedulerBlockCurrent (waitLinked k target (k.pid target))) ch ∧
      k.pid target ≠ 0 ∧ k.state target ≠ .finished := by
  unfold waitAnswer at hanswer
  unfold waitFound
  by_cases hrange : k.pid target = 0 ∨ 2 ^ 63 ≤ k.pid target
  · rw [if_pos hrange] at hanswer
    cases hanswer
  rw [if_neg hrange] at hanswer ⊢
  by_cases hover : k.state target = .finished
  · rw [if_pos hover] at hanswer
    cases hanswer
  rw [if_neg hover] at hanswer ⊢
  by_cases hme : k.current = 0 ∨ k.current = target
  · rw [if_pos hme] at hanswer
    cases hanswer
  · rw [if_neg hme]
    exact ⟨rfl, fun h0 => hrange (Or.inl h0), hover⟩

/-- The pointers of the existing processes are sound, and a process that is about to return has
seen the end of its target. -/
def Resumable (k : Kernel) (pend : ℕ → Option (ℕ × ℕ)) (done : List ℕ) : Prop :=
  WaitsSound k (existing k pend) done ∧
    ∀ target pid, existing k pend k.current = some (target, pid) → pid ∈ done

theorem existing_some {w : ℕ} {x : ℕ × ℕ} (h : existing k pend w = some x) :
    k.allocated w = true ∧ pend w = some x := by
  unfold existing at h
  split at h
  · rename_i hal
    exact ⟨hal, h⟩
  · cases h

theorem WaitsSound.unregister {pend' : ℕ → Option (ℕ × ℕ)} (h : WaitsSound k pend done)
    (hsub : ∀ w x, pend' w = some x → pend w = some x) : WaitsSound k pend' done :=
  ⟨h.orderly, fun w target pid hw => h.waiter w target pid (hsub _ _ hw),
    fun w target pid hw => h.target w target pid (hsub _ _ hw), h.ended⟩

/-- A call that switches to no other process. -/
theorem WaitsSound.resumable (h : WaitsSound k pend done) (hcur : pend k.current = none) :
    Resumable k pend done := by
  refine ⟨h.unregister fun w x hw => (existing_some hw).2, fun target pid hx => ?_⟩
  have hnone := (existing_some hx).2
  rw [hcur] at hnone
  cases hnone

/-- After a switch those who have been collected are in no call any more. -/
theorem Switched.resumable (hsw : Switched k ch L k') (h : WaitsSound k' (setAll ch.dead none pend) done)
    (hnext : ∀ target pid, pend ch.next = some (target, pid) → pid ∈ done) : Resumable k' pend done := by
  refine ⟨h.unregister fun w x hw => ?_, fun target pid hx => ?_⟩
  · obtain ⟨hal, hpend⟩ := existing_some hw
    have hm : w ∉ ch.dead := fun hm => by
      rw [hsw.allocated, setAll_of_mem _ _ hm] at hal
      cases hal
    rw [setAll_of_not_mem _ _ hm]
    exact hpend
  · rw [hsw.current] at hx
    exact hnext target pid (existing_some hx).2

theorem Resumable.resched (h : Resumable k pend done) (s : Sched) : Resumable (k.resched s) pend done :=
  ⟨⟨h.1.orderly.resched s, h.1.waiter, h.1.target, h.1.ended⟩, h.2⟩

/-- A switch of the caller, blocked in the given state, to another process. -/
theorem WaitsSound.blockSwitch (h : WaitsSound k.blockCurrent pend done) (hcall : Caller k)
    (hp : SwitchPromise (schedulerBlockCurrent k) ch)
    (hstep : switchBy (schedulerBlockCurrent k) ch = some k')
    (hdead : ∀ w target pid, pend w = some (target, pid) → target ∉ ch.dead) : Resumable k' pend done := by
  obtain ⟨L, k₁, s, hsw, rfl⟩ := blockSwitch_shape h.orderly hcall hp hstep
  have hblocked : k.blockCurrent.state k.blockCurrent.current = .blocked := Function.update_self _ _ _
  obtain ⟨hsound, hnext⟩ := h.switched hsw (fun _ _ => hblocked)
    (fun hs => by rw [hblocked] at hs; cases hs) hdead
  exact (hsw.resumable hsound hnext).resched s

/-- A call that switches to no other process. -/
theorem WaitsSound.quiet (h : WaitsSound k pend done)
    (ho : Orderly k') (halloc : k'.allocated = k.allocated) (hpid : k'.pid = k.pid)
    (hidle : k'.idleP = k.idleP) (hon : k'.waitingOnPid = k.waitingOnPid) (hstate : k'.state = k.state) :
    WaitsSound k' pend done := by
  refine h.keep ho (fun _ ha => ha) (fun p hp => by rw [halloc]; exact hp) (fun _ _ => by rw [hpid])
    hidle (fun w _ _ _ => Or.inl ⟨by rw [hon], by rw [hstate]; exact id⟩) fun p hp hs => Or.inl ?_
  rw [halloc] at hp
  rw [hstate] at hs
  exact ⟨hp, hs⟩

/-- Processes that wait for nobody are made ready, or any are blocked. -/
theorem WaitsSound.restate (h : WaitsSound k pend done)
    (ho : Orderly k') {st : ProcessState} (hst : st ≠ .finished)
    (hL : ∀ w ∈ L, st = .blocked ∨ k.waitingOnPid w = 0)
    (halloc : k'.allocated = k.allocated) (hpid : k'.pid = k.pid) (hidle : k'.idleP = k.idleP)
    (hon : k'.waitingOnPid = k.waitingOnPid) (hstate : k'.state = setAll L st k.state) :
    WaitsSound k' pend done := by
  refine h.keep ho (fun _ ha => ha) (fun p hp => by rw [halloc]; exact hp) (fun _ _ => by rw [hpid])
    hidle (fun w _ _ _ => ?_) fun p hp hs => Or.inl ?_
  · by_cases hm : w ∈ L
    · rcases hL w hm with rfl | h0
      · exact Or.inl ⟨by rw [hon], fun _ => Or.inl (by rw [hstate, setAll_of_mem _ _ hm])⟩
      · exact Or.inr fun hne => absurd h0 hne
    · exact Or.inl ⟨by rw [hon], by rw [hstate, setAll_of_not_mem _ _ hm]; exact id⟩
  · rw [halloc] at hp
    rw [hstate] at hs
    by_cases hm : p ∈ L
    · rw [setAll_of_mem _ _ hm] at hs
      exact absurd hs hst
    · rw [setAll_of_not_mem _ _ hm] at hs
      exact ⟨hp, hs⟩

theorem WaitsSound.killed {p : ℕ}
    (h : WaitsSound k pend done) {fg : ℕ → Bool} {b : Bool} (ho : Orderly (killedKernel k p L fg b))
    (hwoken : WakeList k.waiterNext (k.waitersHead p) L) (hown : WakesOwn k p) :
    WaitsSound (killedKernel k p L fg b) pend (k.pid p :: done) := by
  refine h.keep ho (fun _ ha => List.mem_cons_of_mem _ ha) (fun _ hq => hq) (fun _ _ => rfl) rfl
    (fun w _ _ _ => ?_) fun q hq hs => ?_
  · by_cases hm : w ∈ L
    · right
      intro hne
      rw [hown L hwoken w hm hne]
      exact List.mem_cons_self
    · left
      dsimp only
      rw [setAll_of_not_mem _ _ hm, setAll_of_not_mem _ _ hm]
      refine ⟨rfl, fun hst => ?_⟩
      by_cases hwp : w = p
      · rw [hwp, Function.update_self]
        exact Or.inr rfl
      · rw [Function.update_of_ne hwp]
        exact hst
  · dsimp only at hs
    by_cases hm : q ∈ L
    · rw [setAll_of_mem _ _ hm] at hs
      cases hs
    · rw [setAll_of_not_mem _ _ hm] at hs
      by_cases hqp : q = p
      · right
        rw [hqp]
        exact List.mem_cons_self
      · rw [Function.update_of_ne hqp] at hs
        exact Or.inl ⟨hq, hs⟩

theorem WaitsSound.created {pcb : ℕ}
    (h : WaitsSound k pend done) (ho : Orderly k') (hfree : k.allocated pcb = false)
    (halloc : ∀ p, p ≠ pcb → k'.allocated p = k.allocated p)
    (hpid : ∀ p, p ≠ pcb → k'.pid p = k.pid p) (hidle : k'.idleP = k.idleP)
    (hon : ∀ p, p ≠ pcb → k'.waitingOnPid p = k.waitingOnPid p)
    (hstate : ∀ p, p ≠ pcb → k'.state p = k.state p) (hnew : k'.state pcb ≠ .finished) :
    WaitsSound k' pend done := by
  have hne : ∀ p, k.allocated p = true → p ≠ pcb := by
    rintro p hp rfl
    rw [hp] at hfree
    cases hfree
  refine h.keep ho (fun _ ha => ha) (fun p hp => by rw [halloc p (hne p hp)]; exact hp)
    (fun p hp => hpid p (hne p hp)) hidle (fun w hw _ _ => Or.inl ?_) fun p hp hs => Or.inl ?_
  · rw [hon w (hne w hw), hstate w (hne w hw)]
    exact ⟨rfl, id⟩
  · have hpp : p ≠ pcb := fun e => hnew (e ▸ hs)
    rw [halloc p hpp] at hp
    rw [hstate p hpp] at hs
    exact ⟨hp, hs⟩

theorem WaitsSound.mono {pend : ℕ → Option (ℕ × ℕ)} {done done' : List ℕ} (h : WaitsSound k pend done)
    (hsub : ∀ a ∈ done, a ∈ done') : WaitsSound k pend done' :=
  h.keep h.orderly hsub (fun _ hp => hp) (fun _ _ => rfl) rfl (fun _ _ _ _ => Or.inl ⟨rfl, id⟩)
    fun _ hp hs => Or.inl ⟨hp, hs⟩

/-- A call that has no context switch in it. -/
theorem WaitsSound.effect (h : WaitsSound k pend done)
    {c : OpenCall} (hp : OpenPromise k c)
    (hsafe : WakesEnded k c) (hplain : switchChoice k c = none)
    (hcall : (∀ target ch, c ≠ .wait target ch) ∧ ∀ id ch, c ≠ .semWait id ch)
    (hcur : pend k.current = none) (he : OpenEffect k c k') : WaitsSound k' pend (endedBy done k c) := by
  have ho := he.orderly h.orderly hp
  have hone : ∀ {k'' : Kernel} (q : ℕ) (st : ProcessState), Orderly k'' → st ≠ .finished →
      st = .blocked ∨ k.waitingOnPid q = 0 → k''.allocated = k.allocated → k''.pid = k.pid →
      k''.idleP = k.idleP → k''.waitingOnPid = k.waitingOnPid → k''.state = update k.state q st →
      WaitsSound k'' pend done := by
    intro k'' q st ho' hst hq ha hpid hid hon hs
    refine h.restate ho' (L := [q]) hst ?_ ha hpid hid hon (by rw [hs, setAll_cons, setAll_nil])
    intro w hw
    rw [List.mem_singleton.mp hw]
    exact hq
  cases he with
  | same =>
      cases c with
      | kill p => exact h.mono fun _ ha => List.mem_cons_of_mem _ ha
      | exit => exact h.mono fun _ ha => List.mem_cons_of_mem _ ha
      | _ => exact h
  | creationFailed => exact h.quiet ho rfl rfl rfl rfl rfl
  | @creationCleared r pcb =>
      refine h.created ho (hp.2.1 pcb).2 (fun _ _ => rfl) ?_ rfl ?_ ?_ ?_
      · exact fun p hne => Function.update_of_ne hne _ _
      · exact fun p hne => Function.update_of_ne hne _ _
      · exact fun p hne => Function.update_of_ne hne _ _
      · simp [clearPcb]
  | @created r pcb pr fdp =>
      refine h.created ho (hp.2.1 pcb).2 ?_ ?_ rfl ?_ ?_ ?_
      · exact fun p hne => Function.update_of_ne hne _ _
      · exact fun p hne => Function.update_of_ne hne _ _
      · exact fun p hne => Function.update_of_ne hne _ _
      · exact fun p hne => Function.update_of_ne hne _ _
      · simp
  | exited =>
      refine h.keep ho (fun _ ha => List.mem_cons_of_mem _ ha) (fun _ hq => hq) (fun _ _ => rfl) rfl
        (fun w _ _ hw => Or.inl ⟨rfl, fun hst => ?_⟩) fun p hpa hs => ?_
      · have hwc : w ≠ k.current := fun e => hw (e ▸ hcur)
        dsimp only
        rw [Function.update_of_ne hwc]
        exact hst
      · by_cases hpc : p = k.current
        · right
          rw [hpc]
          exact List.mem_cons_self
        · dsimp only at hs
          rw [Function.update_of_ne hpc] at hs
          exact Or.inl ⟨hpa, hs⟩
  | killed L woken => exact h.killed ho woken hsafe
  | blocked before => exact hone _ .blocked ho (by simp) (Or.inl rfl) rfl rfl rfl rfl rfl
  | readied => exact hone _ .ready ho (by simp) (Or.inr hsafe) rfl rfl rfl rfl rfl
  | waitOver => exact absurd rfl (hcall.1 _ _)
  | waited => exact absurd rfl (hcall.1 _ _)
  | waitReturned => exact h.quiet ho rfl rfl rfl rfl rfl
  | @semAllocated v =>
      obtain ⟨sems, n, heq⟩ := semAlloc_shape k v
      rw [heq] at ho ⊢
      exact h.quiet ho rfl rfl rfl rfl rfl
  | @semOpened id =>
      obtain ⟨sems, heq⟩ := semOpenById_shape k id
      rw [heq] at ho ⊢
      exact h.quiet ho rfl rfl rfl rfl rfl
  | @semClosed id =>
      obtain ⟨sems, heq⟩ := semCloseById_shape k id
      rw [heq] at ho ⊢
      exact h.quiet ho rfl rfl rfl rfl rfl
  | semTaken => exact absurd rfl (hcall.2 _ _)
  | semQueued => exact absurd rfl (hcall.2 _ _)
  | semIncremented => exact h.quiet ho rfl rfl rfl rfl rfl
  | semReleased i found ne =>
      exact hone _ .ready ho (by simp) (Or.inr (hsafe i found)) rfl rfl rfl rfl rfl
  | @semSet id v i found nonneg =>
      obtain ⟨sems, swn, heq⟩ := releaseLoop_shape (i := i) v.toNat k
      refine h.restate ho (L := (releaseLoop i v.toNat k).1) (show ProcessState.ready ≠ .finished by simp)
        (fun w hw => Or.inr (hsafe i found w hw)) ?_ ?_ ?_ ?_ ?_
      all_goals rw [heq]
  | switched => cases hplain

/-- One more process inside `syscall_wait`. -/
theorem WaitsSound.register (h : WaitsSound k pend done)
    {w target pid : ℕ} (hw : k.allocated w = true ∧ w ≠ k.idleP ∧ pid ≠ 0 ∧ Awaits k done w pid)
    (ht : k.allocated target = true ∧ k.pid target = pid) :
    WaitsSound k (update pend w (some (target, pid))) done := by
  refine ⟨h.orderly, fun w' target' pid' hw' => ?_, fun w' target' pid' hw' => ?_, h.ended⟩
  · by_cases hww : w' = w
    · rw [hww, Function.update_self, Option.some_inj, Prod.mk.injEq] at hw'
      obtain ⟨rfl, rfl⟩ := hw'
      rw [hww]
      exact hw
    · rw [Function.update_of_ne hww] at hw'
      exact h.waiter _ _ _ hw'
  · by_cases hww : w' = w
    · rw [hww, Function.update_self, Option.some_inj, Prod.mk.injEq] at hw'
      obtain ⟨rfl, rfl⟩ := hw'
      exact ht
    · rw [Function.update_of_ne hww] at hw'
      exact h.target _ _ _ hw'

/-- The caller blocks in `syscall_wait`. -/
theorem WaitsSound.waitLinked (h : WaitsSound k pend done)
    (hcall : Caller k) (hcur : pend k.current = none) {target : ℕ} (ht : k.allocated target = true)
    (hpos : k.pid target ≠ 0) :
    WaitsSound (SoKernel.waitLinked k target (k.pid target)).blockCurrent
      (update pend k.current (some (target, k.pid target))) done := by
  have hkeep : WaitsSound (SoKernel.waitLinked k target (k.pid target)).blockCurrent pend done := by
    have ho : Orderly (SoKernel.waitLinked k target (k.pid target)) :=
      ⟨h.orderly.terminals, h.orderly.noPipes, h.orderly.valid, h.orderly.current, h.orderly.idle⟩
    refine h.keep (Orderly.block ho hcall) (fun _ ha => ha) (fun _ hp => hp) (fun _ _ => rfl) rfl
      (fun w _ _ hw => Or.inl ?_) fun p hp hs => Or.inl ?_
    · have hwc : w ≠ k.current := fun e => hw (e ▸ hcur)
      dsimp only
      rw [Function.update_of_ne hwc, Function.update_of_ne hwc]
      exact ⟨rfl, id⟩
    · by_cases hpc : p = k.current
      · dsimp only at hs
        rw [hpc, Function.update_self] at hs
        cases hs
      · dsimp only at hs
        rw [Function.update_of_ne hpc] at hs
        exact ⟨hp, hs⟩
  refine hkeep.register ⟨h.orderly.current, hcall.2, hpos, Or.inr ⟨?_, Or.inl ?_⟩⟩ ⟨ht, rfl⟩
  · exact Function.update_self _ _ _
  · exact Function.update_self _ _ _

/-- The caller blocks in the wait queue of a semaphore. -/
theorem WaitsSound.semLinked (h : WaitsSound k pend done)
    (hcall : Caller k) (id : ℕ) :
    WaitsSound (semWaitStart k id).1.blockCurrent pend done ∧ Caller (semWaitStart k id).1 := by
  obtain ⟨sems, wos, swn, hshape⟩ := semWaitStart_shape k id
  rw [hshape]
  have ho := Orderly.block h.orderly hcall
  refine ⟨?_, hcall⟩
  exact h.restate (L := [k.current])
    ⟨ho.terminals, ho.noPipes, ho.valid, ho.current, ho.idle⟩
    (show ProcessState.blocked ≠ .finished by simp)
    (fun _ _ => Or.inl rfl) rfl rfl rfl rfl (by rw [setAll_cons, setAll_nil])

theorem WaitsSound.wait (h : WaitsSound k pend done) {target : ℕ} (hcur : pend k.current = none)
    (hp : OpenPromise k (.wait target ch)) (hsafe : WaitSafe pend k (.wait target ch))
    (hstep : waitFound k target ch = some k') :
    Resumable k' (registeredBy pend k (.wait target ch)) done := by
  obtain ⟨hcall, hfound, hswitch⟩ := hp
  by_cases hanswer : waitAnswer k target = none
  · obtain ⟨heq, hpos, hover⟩ := waitFound_blocks hanswer
    rw [heq] at hstep
    have hnot := hsafe.2 ch (by rw [switchChoice, if_pos hanswer])
    rw [registeredBy, if_pos hanswer] at hnot ⊢
    exact (h.waitLinked hcall hcur hfound.1 hpos).blockSwitch hcall (hswitch hover) hstep hnot
  · obtain ⟨fg, rfl⟩ := waitFound_answered hanswer hstep
    rw [registeredBy, if_neg hanswer]
    have ho := h.orderly
    have hquiet : WaitsSound { k with isForeground := fg } pend done :=
      h.quiet ⟨ho.terminals, ho.noPipes, ho.valid, ho.current, ho.idle⟩ rfl rfl rfl rfl rfl
    exact hquiet.resumable hcur

theorem WaitsSound.semWait (h : WaitsSound k pend done) {id : ℕ} (hcur : pend k.current = none)
    (hp : OpenPromise k (.semWait id ch)) (hsafe : WaitSafe pend k (.semWait id ch))
    (hstep : semWaitBy k id ch = some k') : Resumable k' pend done := by
  obtain ⟨hcall, hswitch⟩ := hp
  unfold semWaitBy at hstep
  by_cases hqueued : (semWaitStart k id).2 = .queued
  · have hnot := hsafe.2 ch (by rw [switchChoice, if_pos hqueued])
    obtain ⟨hlinked, hcall'⟩ := h.semLinked hcall id
    have hstep' : switchBy (schedulerBlockCurrent (semWaitStart k id).1) ch = some k' := by
      generalize hstart : semWaitStart k id = r at hstep hqueued ⊢
      obtain ⟨k₁, answer⟩ := r
      simp only at hqueued
      subst hqueued
      exact hstep
    exact hlinked.blockSwitch hcall' (hswitch hqueued) hstep' hnot
  · have hk' : k' = (semWaitStart k id).1 := by
      generalize hstart : semWaitStart k id = r at hstep hqueued ⊢
      obtain ⟨k₁, answer⟩ := r
      cases answer with
      | queued => exact absurd rfl hqueued
      | failed => exact (Option.some_inj.mp hstep).symm
      | taken => exact (Option.some_inj.mp hstep).symm
    obtain ⟨sems, wos, swn, hshape⟩ := semWaitStart_shape k id
    rw [hk', hshape]
    have ho := h.orderly
    have hquiet : WaitsSound
        { k with
          semaphores := sems
          waitingOnSem := wos
          semWaiterNext := swn } pend done :=
      h.quiet ⟨ho.terminals, ho.noPipes, ho.valid, ho.current, ho.idle⟩ rfl rfl rfl rfl rfl
    exact hquiet.resumable hcur

theorem WaitsSound.switch (h : WaitsSound k pend done) (hcur : pend k.current = none)
    (hp : SwitchPromise k ch) (hsafe : WaitSafe pend k (.switch ch)) (hstep : switchBy k ch = some k') :
    Resumable k' pend done := by
  obtain ⟨L, k₁, sched, hsw, rfl⟩ := switchBy_shape h.orderly hp hstep
  obtain ⟨hsound, hnext⟩ := h.switched hsw (fun x hx => by rw [hcur] at hx; cases hx) hsafe.1
    (hsafe.2 ch rfl)
  exact (hsw.resumable hsound hnext).resched sched

/-- A call without a context switch leaves the current process in place. -/
theorem OpenEffect.current {c : OpenCall} (he : OpenEffect k c k') (hplain : switchChoice k c = none)
    (hcall : (∀ target ch, c ≠ .wait target ch) ∧ ∀ id ch, c ≠ .semWait id ch) :
    k'.current = k.current := by
  cases he with
  | same => rfl
  | creationFailed => rfl
  | creationCleared => rfl
  | created => rfl
  | exited => rfl
  | killed => rfl
  | blocked => rfl
  | readied => rfl
  | waitOver => rfl
  | waited => exact absurd rfl (hcall.1 _ _)
  | waitReturned => rfl
  | @semAllocated v =>
      obtain ⟨sems, n, heq⟩ := semAlloc_shape k v
      rw [heq]
  | @semOpened id =>
      obtain ⟨sems, heq⟩ := semOpenById_shape k id
      rw [heq]
  | @semClosed id =>
      obtain ⟨sems, heq⟩ := semCloseById_shape k id
      rw [heq]
  | semTaken => rfl
  | semQueued => exact absurd rfl (hcall.2 _ _)
  | semIncremented => rfl
  | semReleased => rfl
  | @semSet id v i =>
      obtain ⟨sems, swn, heq⟩ := releaseLoop_shape (i := i) v.toNat k
      rw [heq]
  | switched => cases hplain

/-- Every safe open call of a process that is not inside `syscall_wait`. -/
theorem WaitsSound.step {c : OpenCall} (h : WaitsSound k pend done) (hcur : pend k.current = none)
    (hp : OpenPromise k c) (hsafe : WaitSafe pend k c) (hstep : openExec k c = some k') :
    Resumable k' (registeredBy pend k c) (endedBy done k c) := by
  have hother : (∀ target ch, c ≠ .wait target ch) → (∀ id ch, c ≠ .semWait id ch) →
      switchChoice k c = none → registeredBy pend k c = pend →
      Resumable k' (registeredBy pend k c) (endedBy done k c) := by
    intro hwait hsem hplain hreg
    obtain ⟨k₁, sched, heffect, rfl⟩ := openExec_effect h.orderly hp hstep
    have hsound := h.effect hp hsafe.1 hplain ⟨hwait, hsem⟩ hcur heffect
    rw [hreg]
    refine (hsound.resumable ?_).resched sched
    rw [heffect.current hplain ⟨hwait, hsem⟩]
    exact hcur
  cases c with
  | wait target ch => exact h.wait hcur hp hsafe hstep
  | semWait id ch => exact h.semWait hcur hp hsafe hstep
  | switch ch => exact h.switch hcur hp hsafe hstep
  | _ =>
      refine hother ?_ ?_ rfl rfl
      all_goals
        intro _ _ he
        cases he

theorem WaitSafe.resched (pend : ℕ → Option (ℕ × ℕ)) (k : Kernel) (s : Sched) (c : OpenCall)
    (h : WaitSafe pend k c) : WaitSafe pend (k.resched s) c := by
  cases c with
  | semWait id ch =>
      refine ⟨trivial, fun ch' hch => h.2 ch' ?_⟩
      rwa [switchChoice, semWaitStart_resched] at hch
  | semSet id v =>
      refine ⟨fun i hi w hw => h.1 i hi w ?_, h.2⟩
      rwa [releaseLoop_resched] at hw
  | _ => exact h

theorem foundByPid_eq {pid p : ℕ} (h : schedulerFindByPid k pid = some p) : foundByPid k pid = p := by
  rw [foundByPid, h, Option.getD_some]

theorem foundByPid_ne {pid : ℕ} (h : foundByPid k pid ≠ 0) :
    ∃ p, schedulerFindByPid k pid = some p ∧ foundByPid k pid = p := by
  cases hfind : schedulerFindByPid k pid with
  | none =>
      rw [foundByPid, hfind] at h
      exact absurd rfl h
  | some p => exact ⟨p, rfl, foundByPid_eq hfind⟩

/-- The open call has the same target. -/
theorem OpensAs.registered {c' : OpenCall} {call : Call} (hopens : OpensAs s.kernel call c') (sched : Sched) :
    registered s call = registeredBy s.pending (s.kernel.resched sched) c' := by
  have hanswer : ∀ target, waitAnswer (s.kernel.resched sched) target = waitAnswer s.kernel target :=
    fun _ => rfl
  cases hopens with
  | quiet s' goesOn =>
      cases call with
      | wait pid frame => exact absurd trivial goesOn
      | _ => rfl
  | @waitRefused pid frame refused =>
      rw [SoKernel.registered]
      refine if_neg fun hblocks => ?_
      obtain ⟨hne, hnone⟩ := hblocks
      obtain ⟨target, hfind⟩ := foundByPid_ne hne
      rw [hfind.2] at hnone hne
      have hpid := schedulerFindByPid_pid hfind.1 hne
      rw [waitAnswer, hpid] at hnone
      obtain hrange | hself := refused target hfind.1 hne
      · rw [if_pos hrange] at hnone
        cases hnone
      · rw [if_pos hself] at hnone
        split at hnone
        · cases hnone
        · split at hnone <;> cases hnone
  | @waitOver pid frame target ch found ne ended nobody =>
      have hpid := schedulerFindByPid_pid found ne
      rw [SoKernel.registered, registeredBy, hanswer, foundByPid_eq found]
      simp only [ne_eq, ne, not_false_iff, true_and, hpid]
  | @wait pid frame target ch found ne alive other collects =>
      have hpid := schedulerFindByPid_pid found ne
      rw [SoKernel.registered, registeredBy, hanswer, foundByPid_eq found]
      simp only [ne_eq, ne, not_false_iff, true_and, hpid]
  | _ => rfl

/-- The open call ends the same processes. -/
theorem OpensAs.ended {c' : OpenCall} {call : Call} {o : Outcome} (hopens : OpensAs s.kernel call c') (sched : Sched) :
    ∀ a ∈ endedBy s.ended (s.kernel.resched sched) c', a ∈ (s.after call o.kernel).ended := by
  have hkept : ∀ a ∈ s.ended, a ∈ (s.after call o.kernel).ended := by
    intro a ha
    cases call with
    | killByPid pid =>
        change a ∈ if _ then _ else _
        split
        · exact ha
        · exact List.mem_cons_of_mem _ ha
    | finishCurrent => exact List.mem_cons_of_mem _ ha
    | _ => exact ha
  cases hopens with
  | @kill pid p found ne =>
      have hpid := schedulerFindByPid_pid found ne
      intro a ha
      rw [endedBy] at ha
      dsimp only at ha
      rw [hpid] at ha
      change a ∈ if foundByPid s.kernel pid = 0 then s.ended else pid :: s.ended
      rwa [foundByPid_eq found, if_neg ne]
  | exit => exact fun a ha => ha
  | _ => exact hkept

/-- The state is sound, and a process that is about to return has seen the end of its target. -/
structure WaitInv (s : WaitState) : Prop where
  sound : WaitsSound s.kernel s.pending s.ended
  ended : ∀ target pid, s.pending s.kernel.current = some (target, pid) → pid ∈ s.ended
  addressed : Addressed s.kernel

theorem WaitInv.step (h : WaitInv s) {m : WaitMove} (hstep : WaitStep s m s') (hsafe : m.Safe s) :
    WaitInv s' := by
  cases hstep with
  | @call c o notReturn outside step =>
      obtain ⟨sched, c', hopens, hp, hopen⟩ := exec_isOpen h.sound.orderly h.addressed hsafe.made hsafe.answered step
      have hstart : WaitsSound (s.kernel.resched sched) s.pending s.ended :=
        ⟨h.sound.orderly.resched sched, h.sound.waiter, h.sound.target, h.sound.ended⟩
      obtain ⟨hsound, hended⟩ := hstart.step outside hp (.resched _ _ sched c' (hsafe.meets c' hopens)) hopen
      have hdone := hopens.ended (o := o) sched
      rw [← hopens.registered sched] at hsound hended
      exact ⟨hsound.mono hdone, fun target pid hx => hdone _ (hended target pid hx),
        (openExec_kept hstart.orderly h.addressed hp hopen).2⟩
  | @resume target pid o inside step =>
      obtain rfl := Option.some_inj.mp step
      have hkernel : ∃ fg, syscallWaitReturn s.kernel target = { s.kernel with isForeground := fg } := by
        unfold syscallWaitReturn
        split
        · exact ⟨_, rfl⟩
        · exact ⟨s.kernel.isForeground, rfl⟩
      obtain ⟨fg, heq⟩ := hkernel
      have ho := h.sound.orderly
      change WaitInv
        { s with
          kernel := syscallWaitReturn s.kernel target
          pending := update s.pending s.kernel.current none }
      rw [heq]
      have hquiet : WaitsSound { s.kernel with isForeground := fg } s.pending s.ended :=
        h.sound.quiet ⟨ho.terminals, ho.noPipes, ho.valid, ho.current, ho.idle⟩ rfl rfl rfl rfl rfl
      refine ⟨hquiet.unregister fun w x hw => ?_, fun target pid hx => ?_, h.addressed⟩
      · have hw' : Function.update s.pending s.kernel.current none w = some x := hw
        by_cases hwc : w = s.kernel.current
        · rw [hwc, Function.update_self] at hw'
          cases hw'
        · rwa [Function.update_of_ne hwc] at hw'
      · have hx' : Function.update s.pending s.kernel.current none s.kernel.current =
            some (target, pid) := hx
        rw [Function.update_self] at hx'
        cases hx'

end Steps

section Runs

/-- The start of the system: nobody waits and nobody has finished. -/
def WaitState.start (k : Kernel) : WaitState := ⟨k, fun _ => none, []⟩

/-- In every run from the start of the system whose calls are all safe, a process that
returns from `syscall_wait` has seen its target finish, at once or behind a context switch,
and the target that it looks at then has not been destroyed. -/
theorem wait_returns_after_end {idle idleStack shell shellStack entryPoint : ℕ} {k₀ : Kernel}
    {steps : List (WaitState × WaitMove)} {s : WaitState}
    (hm : BootMemory idle idleStack shell shellStack entryPoint) (hidle : idle < addressCount)
    (hshell : shell < addressCount)
    (hboot : bootSystem idle idleStack shell shellStack entryPoint = some k₀)
    (run : WaitRun (.start k₀) steps s) (hsafe : ∀ st ∈ steps, st.2.Safe st.1) :
    (∀ target pid, s.pending s.kernel.current = some (target, pid) →
      pid ∈ s.ended ∧ s.kernel.allocated target = true ∧ s.kernel.pid target = pid) ∧
    ∀ target, s.kernel.allocated target = true → waitAnswer s.kernel target = some 1 →
      s.kernel.pid target ∈ s.ended := by
  have hstart := bootSystem_spec hm hboot
  have hinv : WaitInv s := by
    induction run with
    | nil =>
        refine ⟨⟨hstart.orderly, ?_, ?_, ?_⟩, ?_, hstart.addressed hidle hshell⟩
        · intro w target pid hw
          cases hw
        · intro w target pid hw
          cases hw
        · intro p hp hs
          have hs' : k₀.state p = .finished := hs
          rcases (hstart.allocated p).mp hp with rfl | rfl
          · rw [hstart.state.1] at hs'
            cases hs'
          · rw [hstart.state.2] at hs'
            cases hs'
        · intro target pid hw
          cases hw
    | snoc _ step ih =>
        have hlast := hsafe _ (List.mem_append_right _ (List.mem_singleton_self _))
        exact (ih fun st hst => hsafe st (List.mem_append_left _ hst)).step step hlast
  refine ⟨fun target pid hpend => ?_, fun target hal hanswer => ?_⟩
  · exact ⟨hinv.ended target pid hpend, hinv.sound.target _ _ _ hpend⟩
  · refine hinv.sound.ended target hal ?_
    unfold waitAnswer at hanswer
    by_contra hs
    rw [if_neg hs] at hanswer
    split at hanswer
    · simp at hanswer
    · split at hanswer
      · simp at hanswer
      · cases hanswer

/-- The theorem at a run: the shell is dispatched, makes a child and kills it, and a wait for the
child returns at once. -/
theorem wait_returns_after_end_killed :
    ∃ k₀ steps s, bootSystem 16 8192 48 12288 1 = some k₀ ∧ WaitRun (.start k₀) steps s ∧
      steps.length = 3 ∧ s.kernel.current = 48 ∧ waitAnswer s.kernel 64 = some 1 ∧
      s.kernel.pid 64 ∈ s.ended := by
  have hlt : 64 < addressCount := by
    unfold addressCount
    decide
  let r : SpawnRequest := ⟨1, 0, 2, false, 0, 0, 64, 32768⟩
  let frame : Frame := ⟨0, fun _ => 0⟩
  have hcalc : ((bootSystem 16 8192 48 12288 1).bind fun k₀ => (exec k₀ (.tick frame)).bind fun o₁ =>
      (exec o₁.kernel (.createProcess r)).bind fun o₂ => (exec o₂.kernel (.killByPid 3)).map fun o₃ =>
        decide (k₀.state k₀.current = .running ∧
          (Caller o₁.kernel ∧ o₁.kernel.allocated 64 = false ∧ o₁.kernel.allocated o₁.kernel.current = true) ∧
          (o₂.kernel.pid o₂.kernel.idleP = 1 ∧ o₂.kernel.idleP = 16 ∧
            schedulerFindByPid o₂.kernel 3 = some 64 ∧ o₂.kernel.waitersHead 64 = 0) ∧
          o₃.kernel.current = 48 ∧ waitAnswer o₃.kernel 64 = some 1 ∧ o₃.kernel.allocated 64 = true)) =
      some true := by
    decide +kernel
  obtain ⟨k₀, hboot, h₁⟩ := Option.bind_eq_some_iff.mp hcalc
  obtain ⟨o₁, htick, h₂⟩ := Option.bind_eq_some_iff.mp h₁
  obtain ⟨o₂, hcreate, h₃⟩ := Option.bind_eq_some_iff.mp h₂
  obtain ⟨o₃, hkill, h₄⟩ := Option.map_eq_some_iff.mp h₃
  obtain ⟨hrun₀, ⟨hcall₁, hfree, hparent⟩, ⟨hpid, hidle, hfind, hhead⟩, hcur, hanswer, hal⟩ := of_decide_eq_true h₄
  have hm : BootMemory 16 8192 48 12288 1 := ⟨by decide, by decide, by decide, by decide, by decide, by decide⟩
  have hstart := bootSystem_spec hm hboot
  have hmade : ∀ st ∈ [⟨k₀, .tick frame, o₁⟩, ⟨o₁.kernel, .createProcess r, o₂⟩,
      (⟨o₂.kernel, .killByPid 3, o₃⟩ : Step)], Made st.before st.call := by
    simp only [List.forall_mem_cons, List.not_mem_nil, false_imp_iff, implies_true, and_true]
    exact ⟨trivial, ⟨hcall₁, fun _ => ⟨hlt, hfree⟩, fun _ => hparent⟩, by rw [Made, hpid]; decide⟩
  have hqueues : ∀ st ∈ [⟨k₀, .tick frame, o₁⟩, ⟨o₁.kernel, .createProcess r, o₂⟩,
      (⟨o₂.kernel, .killByPid 3, o₃⟩ : Step)], QueueSafe st.before st.call := by
    simp only [List.forall_mem_cons, List.not_mem_nil, false_imp_iff, implies_true, and_true]
    refine ⟨fun _ hfin => absurd (hrun₀.symm.trans hfin) (by decide), ⟨fun _ => ⟨hlt, hfree⟩, fun _ => hparent⟩,
      fun p hp _ => ?_⟩
    obtain rfl := Option.some_inj.mp (hfind.symm.trans hp)
    exact ⟨by rw [hidle]; decide, [], hhead, by simp⟩
  obtain ⟨-, hanswered⟩ := (((Run.nil.snoc htick).snoc hcreate).snoc hkill).queuesAnswer hstart.orderly
    (hstart.addressed (by omega) (by omega)) (bootSystem_agree hm (by omega) (by omega) hboot) hmade hqueues
  simp only [List.nil_append, List.cons_append, List.forall_mem_cons, List.not_mem_nil, false_imp_iff,
    implies_true, and_true] at hmade hanswered
  obtain ⟨hmade₁, hmade₂, hmade₃⟩ := hmade
  obtain ⟨hanswered₁, hanswered₂, hanswered₃⟩ := hanswered
  let s₀ := WaitState.start k₀
  let s₁ := s₀.after (.tick frame) o₁.kernel
  let s₂ := s₁.after (.createProcess r) o₂.kernel
  have hpend : ∀ (k : Kernel) w, existing k (fun _ => none) w = none := by
    intro k w
    unfold existing
    split <;> rfl
  have hpend₁ : s₁.pending = fun _ => none := funext (hpend o₁.kernel)
  have hpend₂ : s₂.pending = fun _ => none := by
    change existing o₂.kernel s₁.pending = _
    rw [hpend₁]
    exact funext (hpend o₂.kernel)
  have hstep₁ : WaitStep s₀ (.call (.tick frame)) s₁ := .call (fun _ => by simp) rfl htick
  have hstep₂ : WaitStep s₁ (.call (.createProcess r)) s₂ := .call (fun _ => by simp) (congrFun hpend₁ _) hcreate
  have hstep₃ : WaitStep s₂ (.call (.killByPid 3)) (s₂.after (.killByPid 3) o₃.kernel) :=
    .call (fun _ => by simp) (congrFun hpend₂ _) hkill
  refine ⟨k₀, _, _, hboot, ((WaitRun.nil.snoc hstep₁).snoc hstep₂).snoc hstep₃, rfl, hcur, hanswer, ?_⟩
  refine (wait_returns_after_end hm (by omega) (by omega) hboot (((WaitRun.nil.snoc hstep₁).snoc hstep₂).snoc hstep₃)
    ?_).2 64 hal hanswer
  simp only [List.nil_append, List.cons_append, List.forall_mem_cons, List.not_mem_nil, false_imp_iff,
    implies_true, and_true]
  refine ⟨⟨hmade₁, hanswered₁, fun c' hopens => ?_⟩, ⟨hmade₂, hanswered₂, fun c' hopens => ?_⟩,
    ⟨hmade₃, hanswered₃, fun c' hopens => ?_⟩⟩
  · cases hopens with
    | quiet s _ => exact ⟨trivial, fun ch hch => by cases hch⟩
    | tick _ => exact ⟨fun hfin => absurd (hrun₀.symm.trans hfin) (by decide), fun _ _ _ _ _ hw => by cases hw⟩
  · cases hopens with
    | quiet s _ => exact ⟨trivial, fun ch hch => by cases hch⟩
    | createProcess => exact ⟨trivial, fun ch hch => by cases hch⟩
  · cases hopens with
    | quiet s _ => exact ⟨trivial, fun ch hch => by cases hch⟩
    | kill found ne =>
        obtain rfl := Option.some_inj.mp (hfind.symm.trans found)
        refine ⟨fun L hL w hw => ?_, fun ch hch => by cases hch⟩
        have hnone : LinkedList.Chain o₂.kernel.waiterNext 0 (o₂.kernel.waitersHead 64) [] := hhead
        rw [hL.eq_of_chain hnone] at hw
        cases hw

/-- The shell waits for a child. If the child unblocks the shell, the wait ends although the
child is running. If the child finishes, the context switch that goes on with the shell has
destroyed the child, at which the shell then looks. -/
theorem wait_ends_early_or_dangles :
    ∃ k₀ k k', bootSystem 16 8192 48 12288 1 = some k₀ ∧
      execAll k₀ [.tick ⟨0, fun _ => 0⟩, .createProcess ⟨1, 0, 2, false, 0, 0, 64, 32768⟩,
        .wait 3 ⟨0, fun _ => 0⟩, .unblockByPid 2, .yield ⟨0, fun _ => 0⟩] = some k ∧
      (k.current = 48 ∧ k.pid 64 = 3 ∧ k.state 64 = .ready ∧ k.nextPid = 4) ∧
      execAll k₀ [.tick ⟨0, fun _ => 0⟩, .createProcess ⟨1, 0, 2, false, 0, 0, 64, 32768⟩,
        .wait 3 ⟨0, fun _ => 0⟩, .finishCurrent, .yield ⟨0, fun _ => 0⟩] = some k' ∧
      k'.current = 48 ∧ k'.allocated 64 = false := by
  have hcalc : ((bootSystem 16 8192 48 12288 1).bind fun k₀ =>
      (execAll k₀ [.tick ⟨0, fun _ => 0⟩, .createProcess ⟨1, 0, 2, false, 0, 0, 64, 32768⟩,
        .wait 3 ⟨0, fun _ => 0⟩, .unblockByPid 2, .yield ⟨0, fun _ => 0⟩]).bind fun k =>
      (execAll k₀ [.tick ⟨0, fun _ => 0⟩, .createProcess ⟨1, 0, 2, false, 0, 0, 64, 32768⟩,
        .wait 3 ⟨0, fun _ => 0⟩, .finishCurrent, .yield ⟨0, fun _ => 0⟩]).map fun k' =>
          decide ((k.current = 48 ∧ k.pid 64 = 3 ∧ k.state 64 = .ready ∧ k.nextPid = 4) ∧
            k'.current = 48 ∧ k'.allocated 64 = false)) = some true := by
    decide +kernel
  obtain ⟨k₀, hboot, h₁⟩ := Option.bind_eq_some_iff.mp hcalc
  obtain ⟨k, hall, h₂⟩ := Option.bind_eq_some_iff.mp h₁
  obtain ⟨k', hall', h₃⟩ := Option.map_eq_some_iff.mp h₂
  obtain ⟨hfirst, hsecond⟩ := of_decide_eq_true h₃
  exact ⟨k₀, k, k', hboot, hall, hfirst, hall', hsecond⟩

end Runs
end SoKernel
