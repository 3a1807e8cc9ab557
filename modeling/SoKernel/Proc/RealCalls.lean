import SoKernel.Proc.Dispatch
import SoKernel.Proc.SwitchChoice

/-!
# The calls of the kernel as open calls

A call of the kernel is the open call at what its search and its context switch find in the queues.
`QueuesAnswer` says, for the state before a call, that they find what they look for. Every run of answered
calls is a run of open calls, and so is every run whose calls keep the queues consistent.
-/

namespace SoKernel

open Function (update)

variable {k k' k₀ : Kernel} {c : Call} {o : Outcome} {p pid : ℕ} {steps : List Step}

section Conditions

/-- The calls that processes and interrupts make once the system has started. Nobody names the idle
process, and the idle process itself only halts. -/
def Made (k : Kernel) : Call → Prop
  | .spawn _ | .keyboardInit => False
  | .createProcess r => Caller k ∧ ValidRequest k { r with parent := k.current }
  | .finishCurrent | .waitReturn _ | .semWait _ _ => Caller k
  | .wait pid _ => Caller k ∧ pid ≠ k.pid k.idleP
  | .blockByPid pid | .unblockByPid pid | .killByPid pid => pid ≠ k.pid k.idleP
  | .unblockProcess p => p ≠ k.idleP
  | .tick _ | .yield _ | .blockCurrent | .setPriority _ _ | .semAlloc _ | .semOpen _ | .semClose _
  | .semSignal _ | .semSet _ _ => True

/-- The search by identifier finds no destroyed process. -/
def FindsLiving (k : Kernel) (pid : ℕ) : Prop :=
  ∀ p, schedulerFindByPid k pid = some p → p ≠ 0 → k.allocated p = true

/-- The search of the call finds an existing process, and where the call enters `schedule` the
switch finds its queues. -/
def QueuesAnswer (k : Kernel) : Call → Prop
  | .tick _ | .yield _ => SwitchSafe k
  | .blockByPid pid | .unblockByPid pid | .killByPid pid => FindsLiving k pid
  | .unblockProcess p => p ≠ 0 → k.allocated p = true
  | .wait pid _ => FindsLiving k pid ∧ ∀ target, schedulerFindByPid k pid = some target → target ≠ 0 →
      k.state target ≠ .finished → k.current ≠ target →
        SwitchSafe (schedulerBlockCurrent (waitLinked k target pid))
  | .semWait id _ => (semWaitStart k id).2 = .queued → SwitchSafe (schedulerBlockCurrent (semWaitStart k id).1)
  | _ => True

end Conditions

section Opening

/-- The calls in which a caller may block. -/
def Call.MayBlock : Call → Prop
  | .wait _ _ | .semWait _ _ => True
  | _ => False

/-- The open calls that a call of the kernel may be. -/
inductive OpensAs (k : Kernel) : Call → OpenCall → Prop
  /-- The call is refused, goes on without a switch, or concerns the scheduler alone. -/
  | quiet {c : Call} (s : Sched) (goesOn : ¬c.MayBlock) : OpensAs k c (.resched s)
  | createProcess {r : SpawnRequest} : OpensAs k (.createProcess r) (.createProcess r)
  | exit : OpensAs k .finishCurrent .exit
  | kill {pid p : ℕ} (found : schedulerFindByPid k pid = some p) (ne : p ≠ 0) :
      OpensAs k (.killByPid pid) (.kill p)
  | blockCurrent : OpensAs k .blockCurrent (.block k.current)
  | block {pid p : ℕ} (found : schedulerFindByPid k pid = some p) (ne : p ≠ 0) :
      OpensAs k (.blockByPid pid) (.block p)
  | unblockProcess {p : ℕ} (ne : p ≠ 0) : OpensAs k (.unblockProcess p) (.unblock p)
  | unblock {pid p : ℕ} (found : schedulerFindByPid k pid = some p) (ne : p ≠ 0) :
      OpensAs k (.unblockByPid pid) (.unblock p)
  | waitRefused {pid : ℕ} {frame : Frame} (refused : ∀ target, schedulerFindByPid k pid = some target →
      target ≠ 0 → (pid = 0 ∨ 2 ^ 63 ≤ pid) ∨ k.current = 0 ∨ k.current = target) :
      OpensAs k (.wait pid frame) (.resched k.ownSched)
  | waitOver {pid : ℕ} {frame : Frame} {target : ℕ} {ch : Choice}
      (found : schedulerFindByPid k pid = some target)
      (ne : target ≠ 0) (ended : k.state target = .finished ∨ k.current = target) (nobody : ch.dead = []) :
      OpensAs k (.wait pid frame) (.wait target ch)
  | wait {pid : ℕ} {frame : Frame} {target : ℕ} {ch : Choice}
      (found : schedulerFindByPid k pid = some target)
      (ne : target ≠ 0) (alive : k.state target ≠ .finished) (other : k.current ≠ target)
      (collects : Collects (schedulerBlockCurrent (waitLinked k target pid)) ch.dead) :
      OpensAs k (.wait pid frame) (.wait target ch)
  | waitReturn {target : ℕ} : OpensAs k (.waitReturn target) (.waitReturn target)
  | semAlloc {v : ℤ} : OpensAs k (.semAlloc v) (.semAlloc v)
  | semOpen {id : ℕ} : OpensAs k (.semOpen id) (.semOpen id)
  | semClose {id : ℕ} : OpensAs k (.semClose id) (.semClose id)
  | semTaken {id : ℕ} {frame : Frame} {ch : Choice}
      (goesOn : (semWaitStart k id).2 ≠ .queued) (nobody : ch.dead = []) :
      OpensAs k (.semWait id frame) (.semWait id ch)
  | semWait {id : ℕ} {frame : Frame} {ch : Choice}
      (queued : (semWaitStart k id).2 = .queued)
      (collects : Collects (schedulerBlockCurrent (semWaitStart k id).1) ch.dead) :
      OpensAs k (.semWait id frame) (.semWait id ch)
  | semSignal {id : ℕ} : OpensAs k (.semSignal id) (.semSignal id)
  | semSet {id : ℕ} {v : ℤ} : OpensAs k (.semSet id v) (.semSet id v)
  | tick {frame : Frame} {ch : Choice} (collects : Collects k ch.dead) : OpensAs k (.tick frame) (.switch ch)
  | yield {frame : Frame} {ch : Choice} (collects : Collects k ch.dead) : OpensAs k (.yield frame) (.switch ch)

/-- The call is an open call in the same state, up to the part of the scheduler. -/
def IsOpenCall (k : Kernel) (c : Call) (k' : Kernel) : Prop :=
  ∃ s c', OpensAs k c c' ∧ OpenPromise (k.resched s) c' ∧ openExec (k.resched s) c' = some k'

theorem IsOpenCall.quiet (s : Sched) (goesOn : ¬c.MayBlock) : IsOpenCall k c (k.resched s) :=
  ⟨k.ownSched, .resched s, .quiet s goesOn, trivial, rfl⟩

theorem IsOpenCall.same (goesOn : ¬c.MayBlock) : IsOpenCall k c k :=
  .quiet k.ownSched goesOn

/-- A call without a context switch. -/
theorem IsOpenCall.plain {d : OpenCall} (opens : OpensAs k c d) (promise : OpenPromise k d)
    (step : openExec k d = some k') : IsOpenCall k c k' :=
  ⟨k.ownSched, d, opens, promise, step⟩

/-- The searches find what they look for. -/
theorem findInQueue_pid {q : QueueId} (h : findInQueue k q pid = some p) (hp : p ≠ 0) : k.pid p = pid := by
  obtain ⟨x, hwalk, rfl⟩ := Option.map_eq_some_iff.mp h
  have hfound : ∀ n y, LinkedRing.walkFind k.queueNext 0 (fun it => decide (k.pid it = pid)) n y = some x →
      ∀ z, x = some z → k.pid z = pid := by
    intro n
    induction n with
    | zero =>
        intro y hy
        cases hy
    | succ n ih =>
        intro y hy z hz
        rw [LinkedRing.walkFind] at hy
        split at hy
        · rw [← Option.some_inj.mp hy] at hz
          cases hz
        split at hy
        · rename_i hpid
          rw [← Option.some_inj.mp hy, Option.some_inj] at hz
          exact hz ▸ of_decide_eq_true hpid
        · exact ih _ hy z hz
  cases x with
  | none => exact absurd rfl hp
  | some z => exact hfound _ _ hwalk z rfl

theorem findInQueues_pid {qs : List QueueId} (h : findInQueues k pid qs = some p) (hp : p ≠ 0) :
    k.pid p = pid := by
  induction qs with
  | nil => exact absurd (Option.some_inj.mp h).symm hp
  | cons q qs ih =>
      rw [findInQueues, Option.bind_eq_bind] at h
      obtain ⟨x, hfind, hrest⟩ := Option.bind_eq_some_iff.mp h
      split at hrest
      · obtain rfl := Option.some_inj.mp hrest
        exact findInQueue_pid hfind hp
      · exact ih hrest

theorem schedulerFindByPid_pid (h : schedulerFindByPid k pid = some p) (hp : p ≠ 0) : k.pid p = pid := by
  rw [schedulerFindByPid, Option.bind_eq_bind] at h
  obtain ⟨x, hfind, hlast⟩ := Option.bind_eq_some_iff.mp h
  rw [Option.some_inj] at hlast
  split at hlast
  · rename_i hx
    exact hlast ▸ findInQueues_pid hfind hx
  · split at hlast
    · rename_i hcur
      exact hlast ▸ hcur.2
    · exact absurd hlast.symm hp

theorem found_of_search (living : FindsLiving k pid) (hpid : pid ≠ k.pid k.idleP)
    (h : schedulerFindByPid k pid = some p) (hp : p ≠ 0) : Found k p := by
  refine ⟨living p h hp, ?_⟩
  rintro rfl
  exact hpid (schedulerFindByPid_pid h hp).symm

/-- The clock does not matter for the queues. -/
theorem SwitchSafe.clock (h : SwitchSafe k) (t l : ℕ) :
    SwitchSafe
      { k with
        ticks := t
        lastSwitchTick := l } := by
  obtain ⟨Q, hQ, hblocked, hfinished⟩ := h
  exact ⟨Q, ⟨hQ.rings, hQ.ready, hQ.finished⟩, hblocked, hfinished⟩

/-- The timer interrupt, and the end of a blocking call, go on or are an open switch. -/
theorem timerTick_opens {frame : Frame} (hd : Dispatchable k) (haddr : Addressed k) (hsafe : SwitchSafe k)
    (step : timerTick k frame = some o) :
    (k.state k.current = .running ∧ ∃ s, o.kernel = k.resched s) ∨
      ∃ s ch, SwitchPromise (k.resched s) ch ∧ switchBy (k.resched s) ch = some o.kernel ∧
        Collects k ch.dead :=
  schedule_opens (k := { k with ticks := k.ticks + 1 }) ⟨hd.valid, hd.current, hd.idle, hd.closed⟩ haddr
    (hsafe.clock _ _) step

theorem yield_opens {frame : Frame} {r : ℕ} (hd : Dispatchable k) (haddr : Addressed k) (hsafe : SwitchSafe k)
    (hcaller : Caller k) (step : schedulerYieldCurrent k frame r = some o) :
    (k.state k.current = .running ∧ ∃ s, o.kernel = k.resched s) ∨
      ∃ s ch, SwitchPromise (k.resched s) ch ∧ switchBy (k.resched s) ch = some o.kernel ∧
        Collects k ch.dead := by
  rw [schedulerYieldCurrent, if_neg (not_or.mpr hcaller)] at step
  obtain ⟨since, step⟩ : ∃ since, timerTick { k with lastSwitchTick := since } frame = some o := ⟨_, step⟩
  exact timerTick_opens (k := { k with lastSwitchTick := since })
    ⟨hd.valid, hd.current, hd.idle, hd.closed⟩ haddr (hsafe.clock _ _) step

/-- A caller that has blocked is switched out. -/
theorem blocked_opens {frame : Frame} {r : ℕ} (ho : Orderly k) (haddr : Addressed k) (hcaller : Caller k)
    (hsafe : SwitchSafe (schedulerBlockCurrent k))
    (step : schedulerYieldCurrent (schedulerBlockCurrent k) frame r = some o) :
    ∃ s ch, SwitchPromise (schedulerBlockCurrent (k.resched s)) ch ∧
      switchBy (schedulerBlockCurrent (k.resched s)) ch = some o.kernel ∧
      Collects (schedulerBlockCurrent k) ch.dead := by
  rw [blockCurrent_eq hcaller] at hsafe step ⊢
  have hb := (ho.block hcaller).dispatchable
  rcases yield_opens
      (k :=
        { k with
          state := update k.state k.current .blocked
          needResched := true })
      ⟨hb.valid, hb.current, hb.idle, hb.closed⟩ haddr hsafe hcaller step with
    ⟨hrun, -⟩ | ⟨s, ch, hpromise, hswitch, hcollect⟩
  · dsimp only at hrun
    rw [Function.update_self] at hrun
    cases hrun
  · refine ⟨s, ch, ?_, ?_, hcollect⟩
    · rw [blockCurrent_eq (k := k.resched s) hcaller]
      exact hpromise
    · rw [blockCurrent_eq (k := k.resched s) hcaller]
      exact hswitch

/-- The part of the scheduler does not matter for taking a token. -/
theorem semWaitStart_resched (k : Kernel) (s : Sched) (id : ℕ) :
    semWaitStart (k.resched s) id = ((semWaitStart k id).1.resched s, (semWaitStart k id).2) := by
  have hget : semGetById (k.resched s) id = semGetById k id := rfl
  rw [semWaitStart, semWaitStart, hget]
  cases semGetById k id with
  | none => rfl
  | some i =>
      simp only [enqueueWaiter]
      split_ifs <;> rfl

/-- `scheduler_set_priority` concerns the scheduler alone. -/
theorem schedulerSetPriority_shape {pr : ℕ} {x : ℕ × Kernel} (h : schedulerSetPriority k pid pr = some x) :
    ∃ s, x.2 = k.resched s := by
  rw [schedulerSetPriority, Option.bind_eq_bind] at h
  obtain ⟨p, -, h⟩ := Option.bind_eq_some_iff.mp h
  split at h
  · exact ⟨k.ownSched, (congrArg Prod.snd (Option.some_inj.mp h)).symm⟩
  split at h
  · exact ⟨k.ownSched, (congrArg Prod.snd (Option.some_inj.mp h)).symm⟩
  obtain ⟨k₁, hchange, hlast⟩ := Option.bind_eq_some_iff.mp h
  obtain rfl := Option.some_inj.mp hlast
  rw [changePriority, Option.bind_eq_bind] at hchange
  obtain ⟨k₂, hremove, hchange⟩ := Option.bind_eq_some_iff.mp hchange
  obtain ⟨k₃, hpush, hchange⟩ := Option.bind_eq_some_iff.mp hchange
  have h₂ : ∃ l, k₂ = k.relink l := by
    split at hremove
    · exact detachFromQueue_shape hremove
    · exact ⟨⟨k.queueNext, k.queuePrev, k.queues⟩, (Option.some_inj.mp hremove).symm⟩
  obtain ⟨l₂, rfl⟩ := h₂
  have h₃ : ∃ s, k₃ = k.resched s := by
    split at hpush
    · obtain ⟨l₃, rfl⟩ := readyQueuePush_shape hpush
      exact ⟨⟨_, _, _, _, _, _, _, _, ⟨_, _, _⟩⟩, rfl⟩
    · exact ⟨⟨_, _, _, _, _, _, _, _, ⟨_, _, _⟩⟩, (Option.some_inj.mp hpush).symm⟩
  obtain ⟨s, rfl⟩ := h₃
  have hlast := Option.some_inj.mp hchange
  split at hlast
  · exact ⟨⟨_, _, _, _, _, _, _, _, ⟨_, _, _⟩⟩, hlast.symm⟩
  · exact ⟨s, hlast.symm⟩

/-- The choice of a call that does not switch. -/
def noSwitch (k : Kernel) : Choice := ⟨⟨0, fun _ => 0⟩, k.ownSched.links, 0, [], k.ownSched.links⟩

/-- Every answered call is an open call. -/
theorem exec_isOpen (ho : Orderly k) (haddr : Addressed k) (made : Made k c) (answered : QueuesAnswer k c)
    (step : exec k c = some o) : IsOpenCall k c o.kernel := by
  cases c with
  | spawn r => exact made.elim
  | keyboardInit => exact made.elim
  | createProcess r =>
      obtain ⟨x, hcreate, rfl⟩ := Option.map_eq_some_iff.mp step
      refine .plain .createProcess made ?_
      change (syscallCreateProcess k r).map Prod.snd = some x.2
      rw [hcreate]
      rfl
  | tick frame =>
      rcases timerTick_opens ho.dispatchable haddr answered step with ⟨-, s, heq⟩ | ⟨s, ch, hpromise, hswitch, hcollect⟩
      · exact heq ▸ .quiet s id
      · exact ⟨s, .switch ch, .tick hcollect, hpromise, hswitch⟩
  | yield frame =>
      by_cases hcaller : Caller k
      · rcases yield_opens ho.dispatchable haddr answered hcaller step with ⟨-, s, heq⟩ | ⟨s, ch, hpromise, hswitch, hcollect⟩
        · exact heq ▸ .quiet s id
        · exact ⟨s, .switch ch, .yield hcollect, hpromise, hswitch⟩
      · have hidle : k.current = 0 ∨ k.current = k.idleP := by
          rwa [Caller, not_and_or, not_not, not_not] at hcaller
        change schedulerYieldCurrent k frame 1 = some o at step
        rw [schedulerYieldCurrent, if_pos hidle] at step
        exact Option.some_inj.mp step ▸ .same id
  | blockCurrent =>
      obtain rfl := Option.some_inj.mp step
      change IsOpenCall k .blockCurrent (schedulerBlockCurrent k)
      rw [schedulerBlockCurrent]
      split
      · exact .same id
      · rename_i hcaller
        refine .plain .blockCurrent ⟨ho.current, (not_or.mp hcaller).2⟩ ?_
        change blockFound k k.current = _
        rw [blockFound, if_pos rfl]
  | blockByPid pid =>
      obtain ⟨x, hblock, rfl⟩ := Option.map_eq_some_iff.mp step
      rw [schedulerBlockByPid, Option.bind_eq_bind] at hblock
      obtain ⟨p, hfind, hblock⟩ := Option.bind_eq_some_iff.mp hblock
      split at hblock
      · obtain rfl := Option.some_inj.mp hblock
        exact .same id
      · rename_i hp
        obtain ⟨hp0, hidle⟩ := not_or.mp hp
        refine .plain (.block hfind hp0) ⟨answered p hfind hp0, hidle⟩ ?_
        change blockFound k p = some x.2
        rw [blockFound]
        split at hblock
        · rename_i hcur
          rw [if_pos hcur, ← Option.some_inj.mp hblock]
        · rename_i hcur
          rw [if_neg hcur]
          split at hblock
          · rename_i hready
            rw [if_pos hready]
            rw [Option.bind_eq_bind] at hblock ⊢
            obtain ⟨k₁, hremove, hblock⟩ := Option.bind_eq_some_iff.mp hblock
            obtain ⟨k₂, hpush, hblock⟩ := Option.bind_eq_some_iff.mp hblock
            exact Option.bind_eq_some_iff.mpr ⟨k₁, hremove, Option.bind_eq_some_iff.mpr ⟨k₂, hpush,
              congrArg (fun x => some x.2) (Option.some_inj.mp hblock)⟩⟩
          · rename_i hready
            rw [if_neg hready, ← Option.some_inj.mp hblock]
  | unblockProcess p =>
      obtain ⟨k₁, hunblock, rfl⟩ := Option.map_eq_some_iff.mp step
      by_cases hp : p = 0
      · rw [schedulerUnblockProcess, if_pos hp] at hunblock
        exact Option.some_inj.mp hunblock ▸ .same id
      · exact .plain (.unblockProcess hp) ⟨answered hp, made⟩ hunblock
  | unblockByPid pid =>
      obtain ⟨x, hunblock, rfl⟩ := Option.map_eq_some_iff.mp step
      rw [schedulerUnblockByPid, Option.bind_eq_bind] at hunblock
      obtain ⟨p, hfind, hunblock⟩ := Option.bind_eq_some_iff.mp hunblock
      split at hunblock
      · obtain rfl := Option.some_inj.mp hunblock
        exact .same id
      · rename_i hp
        obtain ⟨k₁, hstep, hlast⟩ := Option.bind_eq_some_iff.mp hunblock
        obtain rfl := Option.some_inj.mp hlast
        exact .plain (.unblock hfind hp) (found_of_search answered made hfind hp) hstep
  | finishCurrent =>
      obtain ⟨k₁, hfinish, rfl⟩ := Option.map_eq_some_iff.mp step
      exact .plain .exit made hfinish
  | killByPid pid =>
      obtain ⟨x, hkill, rfl⟩ := Option.map_eq_some_iff.mp step
      rw [schedulerKillByPid, Option.bind_eq_bind] at hkill
      obtain ⟨p, hfind, hkill⟩ := Option.bind_eq_some_iff.mp hkill
      split at hkill
      · obtain rfl := Option.some_inj.mp hkill
        exact .same id
      · rename_i hp
        obtain ⟨k₁, hstep, hlast⟩ := Option.bind_eq_some_iff.mp hkill
        obtain rfl := Option.some_inj.mp hlast
        exact .plain (.kill hfind hp) (found_of_search answered made hfind hp) hstep
  | setPriority pid pr =>
      obtain ⟨x, hset, rfl⟩ := Option.map_eq_some_iff.mp step
      obtain ⟨s, heq⟩ := schedulerSetPriority_shape hset
      change IsOpenCall k _ x.2
      exact heq ▸ .quiet s id
  | wait pid frame =>
      obtain ⟨⟨hcaller, hpid⟩, living, hsafe⟩ := And.intro made answered
      change syscallWait k pid frame = some o at step
      rw [syscallWait] at step
      have hrefused : (∀ target, schedulerFindByPid k pid = some target → target ≠ 0 →
          (pid = 0 ∨ 2 ^ 63 ≤ pid) ∨ k.current = 0 ∨ k.current = target) → IsOpenCall k (.wait pid frame) k :=
        fun h => ⟨k.ownSched, .resched k.ownSched, .waitRefused h, trivial, rfl⟩
      split at step
      · rename_i hrange
        exact Option.some_inj.mp step ▸ hrefused fun _ _ _ => Or.inl hrange
      rename_i hrange
      rw [Option.bind_eq_bind] at step
      obtain ⟨target, hfind, step⟩ := Option.bind_eq_some_iff.mp step
      split at step
      · rename_i ht0
        refine Option.some_inj.mp step ▸ hrefused fun t hft ht => absurd ?_ ht
        exact (Option.some_inj.mp (hft.symm.trans hfind)).trans ht0
      rename_i ht0
      have htarget : k.pid target = pid := schedulerFindByPid_pid hfind ht0
      have hfound := found_of_search living hpid hfind ht0
      split at step
      · rename_i hover
        obtain rfl := Option.some_inj.mp step
        refine .plain (d := .wait target (noSwitch k)) (.waitOver hfind ht0 (Or.inl hover) rfl)
          ⟨hcaller, hfound, fun hs => absurd hover hs⟩ ?_
        change waitFound k target (noSwitch k) = _
        rw [waitFound, htarget, if_neg hrange, if_pos hover]
        rfl
      rename_i hover
      split at step
      · rename_i hother
        refine Option.some_inj.mp step ▸ hrefused fun t hft _ => Or.inr ?_
        rwa [Option.some_inj.mp (hft.symm.trans hfind)]
      rename_i hother
      have hcur := (not_or.mp hother).2
      obtain ⟨s, ch, hpromise, hswitch, hcollect⟩ := blocked_opens
        (k := waitLinked k target pid) ⟨ho.terminals, ho.noPipes, ho.valid, ho.current, ho.idle⟩ haddr hcaller
        (hsafe target hfind ht0 hover hcur) step
      refine ⟨s, .wait target ch, .wait hfind ht0 hover hcur hcollect,
        ⟨hcaller, hfound, fun _ => ?_⟩, ?_⟩
      · rw [show (k.resched s).pid target = pid from htarget]
        exact hpromise
      · change waitFound (k.resched s) target ch = _
        rw [waitFound, show (k.resched s).pid target = pid from htarget, if_neg hrange, if_neg hover, if_neg hother]
        exact hswitch
  | waitReturn target =>
      obtain rfl := Option.some_inj.mp step
      exact .plain .waitReturn made rfl
  | semAlloc v =>
      obtain rfl := Option.some_inj.mp step
      exact .plain .semAlloc trivial rfl
  | semOpen id =>
      obtain rfl := Option.some_inj.mp step
      exact .plain .semOpen trivial rfl
  | semClose id =>
      obtain rfl := Option.some_inj.mp step
      exact .plain .semClose trivial rfl
  | semWait id frame =>
      change semWaitById k id frame = some o at step
      rw [semWaitById] at step
      cases hstart : semWaitStart k id with
      | mk k₁ how =>
          obtain ⟨sems, wos, swn, hshape⟩ := semWaitStart_shape k id
          have hk₁ : (semWaitStart k id).1 = k₁ := by rw [hstart]
          rw [hk₁] at hshape
          rw [hstart] at step
          have hopen : how ≠ .queued → ∀ r, o = .return r k₁ → IsOpenCall k (.semWait id frame) o.kernel := by
            rintro hhow r rfl
            have hstart' : (semWaitStart k id).2 ≠ .queued := by rwa [hstart]
            refine .plain (d := .semWait id (noSwitch k)) (.semTaken hstart' rfl)
              ⟨made, fun hq => absurd hq hstart'⟩ ?_
            change semWaitBy k id (noSwitch k) = some k₁
            rw [semWaitBy, hstart]
            cases how with
            | failed => rfl
            | taken => rfl
            | queued => exact absurd rfl hhow
          cases how with
          | failed => exact hopen (by simp) 0 (Option.some_inj.mp step).symm
          | taken => exact hopen (by simp) 1 (Option.some_inj.mp step).symm
          | queued =>
              have hqueued : (semWaitStart k id).2 = .queued := by rw [hstart]
              have hsafe := answered hqueued
              rw [hk₁] at hsafe
              have ho₁ : Orderly k₁ := by
                rw [hshape]
                exact ⟨ho.terminals, ho.noPipes, ho.valid, ho.current, ho.idle⟩
              have hcaller₁ : Caller k₁ := by
                rw [hshape]
                exact made
              have haddr₁ : Addressed k₁ := by
                rw [hshape]
                exact haddr
              obtain ⟨s, ch, hpromise, hswitch, hcollect⟩ := blocked_opens ho₁ haddr₁ hcaller₁ hsafe step
              refine ⟨s, .semWait id ch, .semWait hqueued (by rw [hk₁]; exact hcollect), ⟨made, fun _ => ?_⟩, ?_⟩
              · rw [semWaitStart_resched, hk₁]
                exact hpromise
              · change semWaitBy (k.resched s) id ch = _
                rw [semWaitBy, semWaitStart_resched, hstart]
                exact hswitch
  | semSignal id =>
      obtain ⟨x, hsignal, rfl⟩ := Option.map_eq_some_iff.mp step
      refine .plain .semSignal trivial ?_
      change semSignal k id = some x.2.2
      rw [semSignal, hsignal]
      rfl
  | semSet id v =>
      obtain ⟨x, hset, rfl⟩ := Option.map_eq_some_iff.mp step
      refine .plain .semSet trivial ?_
      change (semSetById k id v).map (fun r => r.2.2) = some x.2.2
      rw [hset]
      rfl

end Opening

section Runs

/-- Processes are made in memory. -/
theorem OpenEffect.addressed {c' : OpenCall} (h : OpenEffect k c' k') (hp : OpenPromise k c')
    (haddr : Addressed k) : Addressed k' := by
  have hswitch : ∀ {k₁ k₂ : Kernel} {ch : Choice} {L : List ℕ}, Switched k₁ ch L k₂ →
      k₁.allocated = k.allocated → Addressed k₂ := by
    intro k₁ k₂ ch L hsw hal p hp
    exact haddr p (hal ▸ hsw.allocated_before hp)
  cases h with
  | @created r pcb =>
      intro p hpa
      dsimp only at hpa
      by_cases hpp : p = r.pcb
      · exact hpp ▸ (hp.2.1 pcb).1
      · rw [Function.update_of_ne hpp] at hpa
        exact haddr p hpa
  | waited _ _ L switched => exact hswitch switched rfl
  | @semQueued id ch _ i found empty L switched =>
      obtain ⟨sems, swn, hshape⟩ := enqueueWaiter_shape
        { k with waitingOnSem := update k.waitingOnSem k.current (k.semaphores i).id } i k.current
      refine hswitch switched ?_
      rw [semLinked, hshape]
  | switched L switched => exact hswitch switched rfl
  | @semAllocated v =>
      obtain ⟨sems, n, heq⟩ := semAlloc_shape k v
      rw [heq]
      exact haddr
  | @semOpened id =>
      obtain ⟨sems, heq⟩ := semOpenById_shape k id
      rw [heq]
      exact haddr
  | @semClosed id =>
      obtain ⟨sems, heq⟩ := semCloseById_shape k id
      rw [heq]
      exact haddr
  | @semSet id v i found nonneg =>
      obtain ⟨sems, swn, heq⟩ := releaseLoop_shape (i := i) v.toNat k
      rw [heq]
      exact haddr
  | same | creationFailed | creationCleared | exited | killed | blocked | readied | waitOver | waitReturned
  | semTaken | semIncremented | semReleased => exact haddr

theorem Booted.addressed {idle shell : ℕ} (h : Booted k idle shell) (hidle : idle < addressCount)
    (hshell : shell < addressCount) : Addressed k := by
  intro p hp
  obtain rfl | rfl := (h.allocated p).mp hp
  · exact hidle
  · exact hshell

/-- An open call keeps what the choice of the scheduler relies on. -/
theorem openExec_kept {c' : OpenCall} (ho : Orderly k) (haddr : Addressed k) (hp : OpenPromise k c')
    (step : openExec k c' = some k') : Orderly k' ∧ Addressed k' := by
  obtain ⟨k₁, s, heffect, rfl⟩ := openExec_effect ho hp step
  exact ⟨(heffect.orderly ho hp).resched s, heffect.addressed hp haddr⟩

/-- The open calls of a run are those of the steps, with changes of the scheduler's part between
them. -/
def OpenedBy (steps : List Step) (e : Kernel × OpenCall) : Prop :=
  (∃ s, e.2 = .resched s) ∨ ∃ st ∈ steps, ∃ s, e.1 = st.before.resched s ∧ OpensAs st.before st.call e.2

theorem OpenedBy.mono {steps' : List Step} {e : Kernel × OpenCall} (h : OpenedBy steps e)
    (hsub : ∀ st ∈ steps, st ∈ steps') : OpenedBy steps' e :=
  h.imp_right fun ⟨st, hst, hopens⟩ => ⟨st, hsub st hst, hopens⟩

/-- Every run of answered calls is an open run. -/
theorem Run.openRun (run : Run k₀ steps k) (ho : Orderly k₀) (haddr : Addressed k₀)
    (hmade : ∀ st ∈ steps, Made st.before st.call) (hanswered : ∀ st ∈ steps, QueuesAnswer st.before st.call) :
    (Orderly k ∧ Addressed k) ∧ ∃ opened, OpenRun k₀ opened k ∧ ∀ e ∈ opened, OpenedBy steps e := by
  induction run with
  | nil => exact ⟨⟨ho, haddr⟩, [], .nil, by simp⟩
  | @snoc steps k c o run step ih =>
      obtain ⟨⟨ho', haddr'⟩, opened, hrun, hopened⟩ := ih
        (fun st hst => hmade st (List.mem_append_left _ hst))
        fun st hst => hanswered st (List.mem_append_left _ hst)
      have hlast : (⟨k, c, o⟩ : Step) ∈ steps ++ [⟨k, c, o⟩] := by simp
      obtain ⟨s, c', hopens, hpromise, hstep⟩ := exec_isOpen ho' haddr' (hmade _ hlast) (hanswered _ hlast) step
      have hkept := openExec_kept (ho'.resched s) haddr' hpromise hstep
      refine ⟨hkept, opened ++ [(k, .resched s)] ++ [(k.resched s, c')],
        .snoc (.snoc (c := .resched s) hrun trivial rfl) hpromise hstep, fun e he => ?_⟩
      rcases List.mem_append.mp he with he | he
      · rcases List.mem_append.mp he with he | he
        · exact (hopened e he).mono fun st hst => List.mem_append_left _ hst
        · exact Or.inl ⟨s, by rw [List.mem_singleton.mp he]⟩
      · rw [List.mem_singleton.mp he]
        exact Or.inr ⟨_, hlast, s, rfl, hopens⟩

/-- A condition on open calls, for the calls of the kernel: it holds of the open call that the call
is, whichever that may be. -/
def Call.Meets (safe : Kernel → OpenCall → Prop) (k : Kernel) (c : Call) : Prop :=
  ∀ c', OpensAs k c c' → safe k c'

/-- A call that is made, whose search and switch find what they look for, and that meets a condition
on open calls. -/
structure Call.Allowed (safe : Kernel → OpenCall → Prop) (k : Kernel) (c : Call) : Prop where
  made : Made k c
  answered : QueuesAnswer k c
  meets : c.Meets safe k

/-- The open calls of a run meet a condition that its calls meet. -/
theorem OpenedBy.meets {safe : Kernel → OpenCall → Prop} {e : Kernel × OpenCall} (h : OpenedBy steps e)
    (hquiet : ∀ k s, safe k (.resched s)) (hsched : ∀ k s c, safe k c → safe (k.resched s) c)
    (hsafe : ∀ st ∈ steps, st.call.Meets safe st.before) : safe e.1 e.2 := by
  obtain ⟨k, c'⟩ := e
  rcases h with ⟨s, rfl⟩ | ⟨st, hst, s, rfl, hopens⟩
  · exact hquiet k s
  · exact hsched _ s _ (hsafe st hst c' hopens)

/-- An invariant that every allowed open call keeps holds in every state of a run of allowed calls. -/
theorem Run.openInvariant {safe : Kernel → OpenCall → Prop} {I : Kernel → Prop} (run : Run k₀ steps k)
    (ho : Orderly k₀) (haddr : Addressed k₀) (hsteps : ∀ st ∈ steps, st.call.Allowed safe st.before)
    (hquiet : ∀ k s, safe k (.resched s)) (hsched : ∀ k s c, safe k c → safe (k.resched s) c) (hstart : I k₀)
    (hcall : ∀ k c k', I k → OpenPromise k c → safe k c → openExec k c = some k' → I k') : I k := by
  obtain ⟨-, opened, hrun, hopened⟩ := run.openRun ho haddr (fun st hst => (hsteps st hst).made)
    fun st hst => (hsteps st hst).answered
  exact hrun.invariant
    (fun e he => (hopened e he).meets hquiet hsched fun st hst => (hsteps st hst).meets) hstart hcall

end Runs

section Consistent

variable {Q : QueueId → List ℕ}

/-- Queues that agree with the states are what the switch looks for. -/
theorem Placed.switchSafe (h : Placed k k.current Q)
    (hwaiters : k.state k.current = .finished → ∀ L, WakeList k.waiterNext (k.waitersHead k.current) L →
      ∀ w ∈ L, Wakeable k w) : SwitchSafe k := by
  have hsub : ∀ {q p}, p ∈ update Q .blocked [] q → q ≠ .blocked ∧ p ∈ Q q := by
    intro q p hp
    by_cases hq : q = .blocked
    · rw [hq, Function.update_self] at hp
      cases hp
    · rw [Function.update_of_ne hq] at hp
      exact ⟨hq, hp⟩
  refine ⟨update Q .blocked [], ⟨⟨fun q => ?_, fun q q' p hp hp' => ?_, fun q p hp => ?_⟩, fun i p hp => ?_,
    fun p hp => ?_⟩, fun hs p hp q hm => ?_, hwaiters⟩
  · by_cases hq : q = .blocked
    · subst hq
      rw [Function.update_self, Function.update_self]
      exact ⟨by rw [LinkedRing.Ring.nil_iff]; simp, rfl⟩
    · rw [Function.update_of_ne hq, Function.update_of_ne hq]
      exact h.rings.list q
  · exact h.rings.disjoint q q' p (hsub hp).2 (hsub hp').2
  · exact h.rings.bounded q p (hsub hp).2
  · exact (h.members.ready i p (by simp)).mp (hsub hp).2
  · exact h.members.finished p (by simp) (hsub hp).2
  · -- the current process is not in the queue yet, so that it has no neighbours there
    have hnot : k.current ∉ Q .blocked := fun hc => ((h.members.blocked _ (by simp)).mp hc).2.2 rfl
    have hfound := (h.rings.list .blocked).isQueued_eq (h.rings.bounded .blocked) (p := k.current)
    rw [decide_eq_false hnot] at hfound
    rw [blockedNeighbours, hfound, if_neg (by simp), List.mem_singleton] at hp
    obtain ⟨hq, hm⟩ := hsub hm
    rcases (h.rings.list .blocked).tail_mem with hz | htail
    · exact h.rings.ne_zero hm (hp.trans hz)
    · exact hq (h.rings.disjoint q .blocked p hm (hp ▸ htail))

theorem WellFormed.withClock (W : WellFormed k Q) (t l : ℕ) :
    WellFormed
      { k with
        ticks := t
        lastSwitchTick := l } Q :=
  ⟨⟨W.placed.rings, W.placed.members, W.placed.valid⟩, W.held, W.current, W.idle, W.idle_running,
    W.idle_priority, W.base_le, W.closed⟩

theorem WellFormed.addressed (W : WellFormed k Q) : Addressed k := fun p hp => (W.placed.valid p hp).2

theorem WellFormed.dispatchable (W : WellFormed k Q) : Dispatchable k := by
  refine ⟨fun p hp => (W.placed.valid p hp).1, W.current, ⟨W.idle, ?_⟩, W.closed⟩
  rw [W.idle_running]
  simp

theorem WellFormed.switchSafe (W : WellFormed k Q) (hint : Interrupted k) : SwitchSafe k := by
  refine W.placed.switchSafe fun hf L hL w hw => ?_
  rcases hint with hs | hs | ⟨-, hhead⟩
  · rw [hf] at hs
    cases hs
  · rw [hf] at hs
    cases hs
  · rw [hhead] at hL
    cases hL with
    | nil => cases hw
    | cons ne _ => exact absurd rfl ne

/-- A call that keeps the queues consistent is answered. -/
theorem QueueSafe.answered (hs : QueueSafe k c) (ho : Orderly k) (h : QueuesAgree k k.current Q) (made : Made k c) :
    QueuesAnswer k c := by
  have hfinds : ∀ pid, FindsLiving k pid := by
    intro pid p hp hp0
    obtain ⟨p', hp', hcases⟩ := schedulerFindByPid_spec h pid
    obtain rfl := Option.some_inj.mp (hp.symm.trans hp')
    exact (hcases.resolve_left hp0).1
  have hblocked : ∀ {l : Kernel}, QueuesAgree l l.current Q → Caller l → CanBlock l →
      SwitchSafe (schedulerBlockCurrent l) := by
    intro l h₁ hcaller hcan
    have hagree := schedulerBlockCurrent_spec h₁ hcan
    rw [blockCurrent_eq hcaller] at hagree ⊢
    refine hagree.placed.switchSafe fun hf => ?_
    dsimp only at hf
    rw [Function.update_self] at hf
    cases hf
  cases c with
  | tick frame | yield frame =>
      refine h.placed.switchSafe fun hf L hL w hw => ?_
      obtain ⟨M, hM⟩ := hs (ho.valid _ ho.current) hf
      rw [hL.eq_of_chain hM.chain] at hw
      obtain ⟨-, hal, hst⟩ := hM.awake w hw
      refine ⟨hal, fun hdead => ?_⟩
      rw [hdead] at hst
      simp at hst
  | blockByPid pid | unblockByPid pid | killByPid pid => exact hfinds pid
  | unblockProcess p => exact fun hp => (hs.resolve_left hp).1
  | wait pid frame =>
      refine ⟨hfinds pid, fun target hfind ht0 hover hother => ?_⟩
      have hlinked : QueuesAgree (waitLinked k target pid) k.current Q :=
        ⟨h.rings, h.members, h.valid, h.idle, h.current, h.terminals, h.noPipes⟩
      exact hblocked hlinked made.1 (hs target hfind ht0 hover hother)
  | semWait id frame =>
      intro hqueued
      obtain ⟨sems, wos, swn, hshape⟩ := semWaitStart_shape k id
      have hcan : CanBlock k := hs hqueued
      rw [hshape]
      refine hblocked (l :=
        { k with
          semaphores := sems
          waitingOnSem := wos
          semWaiterNext := swn }) ?_ made hcan
      exact ⟨h.rings, h.members, h.valid, h.idle, h.current, h.terminals, h.noPipes⟩
  | spawn r | createProcess r | blockCurrent | finishCurrent | setPriority pid pr | waitReturn target
  | keyboardInit | semAlloc v | semOpen id | semClose id | semSignal id | semSet id v => trivial

/-- After the start the queues agree with the states. -/
theorem bootSystem_agree {idle idleStack shell shellStack entryPoint : ℕ}
    (hm : BootMemory idle idleStack shell shellStack entryPoint) (hidle : idle < addressCount)
    (hshell : shell < addressCount)
    (hboot : bootSystem idle idleStack shell shellStack entryPoint = some k) :
    ∃ Q, QueuesAgree k k.current Q := by
  obtain ⟨Q, hQ⟩ := bootSystem_wellFormed hm hidle hshell hboot
  exact ⟨Q, hQ.agree (bootSystem_spec hm hboot).orderly⟩

/-- The calls of a run that keeps the queues consistent are answered. -/
theorem Run.queuesAnswer (run : Run k₀ steps k) (ho : Orderly k₀) (haddr : Addressed k₀)
    (hagree : ∃ Q, QueuesAgree k₀ k₀.current Q) (hmade : ∀ st ∈ steps, Made st.before st.call)
    (hsafe : ∀ st ∈ steps, QueueSafe st.before st.call) :
    (∃ Q, QueuesAgree k k.current Q) ∧ ∀ st ∈ steps, QueuesAnswer st.before st.call := by
  induction run with
  | nil => exact ⟨hagree, by simp⟩
  | @snoc steps k c o run step ih =>
      have hmade' := fun st hst => hmade st (List.mem_append_left _ hst)
      obtain ⟨⟨Q, hQ⟩, hanswered⟩ := ih hmade' fun st hst => hsafe st (List.mem_append_left _ hst)
      have hlast : (⟨k, c, o⟩ : Step) ∈ steps ++ [⟨k, c, o⟩] := by simp
      obtain ⟨⟨ho', -⟩, -⟩ := run.openRun ho haddr hmade' hanswered
      obtain ⟨o', Q', heq, hagree', -⟩ := exec_spec hQ (hsafe _ hlast)
      obtain rfl := Option.some_inj.mp (step.symm.trans heq)
      refine ⟨⟨Q', hagree'⟩, fun st hst => ?_⟩
      rcases List.mem_append.mp hst with hst | hst
      · exact hanswered st hst
      · rw [List.mem_singleton.mp hst]
        exact (hsafe _ hlast).answered ho' hQ (hmade _ hlast)

end Consistent

section Examples

/-- With nobody ready or finished, the switch finds its queues. -/
theorem SwitchSafe.of_empty (hready : ∀ i, k.queues (.ready i) = ⟨0, 0, 0⟩)
    (hfinished : k.queues .finished = ⟨0, 0, 0⟩) (halive : k.state k.current ≠ .finished) : SwitchSafe k := by
  refine ⟨fun _ => [], ⟨⟨fun q => ?_, fun q q' p hp => absurd hp List.not_mem_nil,
    fun q p hp => absurd hp List.not_mem_nil⟩, fun i p hp => absurd hp List.not_mem_nil,
    fun p hp => absurd hp List.not_mem_nil⟩, fun _ p _ q => List.not_mem_nil, fun hfin => absurd hfin halive⟩
  have hempty : update k.queues .blocked ⟨0, 0, 0⟩ q = ⟨0, 0, 0⟩ := by
    cases q with
    | ready i => exact (Function.update_of_ne (by simp) _ _).trans (hready i)
    | blocked => exact Function.update_self ..
    | finished => exact (Function.update_of_ne (by simp) _ _).trans hfinished
  rw [hempty]
  exact ⟨by rw [LinkedRing.Ring.nil_iff]; simp, rfl⟩

/-- With nobody among the finished processes, the switch collects at most the current process. -/
theorem Collects.of_empty {dead : List ℕ} (h : Collects k dead) (hempty : (k.queues .finished).head = 0) :
    dead = if k.state k.current = .finished then [k.current] else [] := by
  obtain ⟨F, hF, rfl⟩ := h
  have hhead := hF.head_eq
  rw [hempty] at hhead
  cases F with
  | nil =>
      unfold savedFinished
      split <;> rfl
  | cons x F => exact absurd hhead.symm (hF.ne_zero List.mem_cons_self)

end Examples
end SoKernel
