import SoKernel.Proc.Calls
import SoKernel.Proc.Linked
import SoKernel.Proc.Schedule

/-!
# The requested priority

A process is dispatched with its base priority, to which aging adds in the meantime.
`scheduler_set_priority` sets both priorities, but returns early when the process has been aged to
the requested one. Then the old base priority comes back at the next dispatch.
-/

namespace SoKernel

open Function (update)

variable {k k' k'' k₀ : Kernel} {p : ℕ} {q : QueueId} {steps : List Step}

section Model

/-- The calls that create, schedule, block, unblock and reprioritise processes. -/
def Scheduling : Call → Prop
  | .spawn _ | .tick _ | .yield _ | .blockCurrent | .blockByPid _ | .unblockProcess _
  | .unblockByPid _ | .setPriority _ _ => True
  | _ => False

/-- What the memory manager and the callers inside the kernel promise: a new control block is in no
use, and a pointer to a process is null or leads to one. -/
def PointersKnown (k : Kernel) : Call → Prop
  | .spawn r => r.pcb ≠ 0 → k.allocated r.pcb = false
  | .unblockProcess p => Known k p
  | _ => True

/-- A call of `scheduler_set_priority` does not find the process aged to the requested priority
above another base priority. -/
def TakesEffect (k : Kernel) : Call → Prop
  | .setPriority pid n => ∀ p, schedulerFindByPid k pid = some p → p ≠ 0 → p ≠ k.idleP →
      k.priority p = clampPriority n → k.basePriority p = clampPriority n
  | _ => True

/-- The priority that a step requests for a process: in a spawn that returns the process, or in a
call of `scheduler_set_priority` on it that returns 1. -/
def Step.request (s : Step) (p : ℕ) : Option ℕ :=
  match s.call with
  | .spawn r => if s.outcome.result = some p ∧ p ≠ 0 then some r.priority else none
  | .setPriority pid n =>
      if s.outcome.result = some 1 ∧ schedulerFindByPid s.before pid = some p then some n else none
  | _ => none

/-- The last request for a process. -/
def requested (steps : List Step) (p : ℕ) : Option ℕ :=
  steps.foldl (fun last s => (s.request p).or last) none

/-- The states of runs in which no process ends: the queues link existing processes, and none is
finished. -/
structure Undying (k : Kernel) : Prop where
  linked : Linked k
  unfinished : ∀ p, k.state p ≠ .finished
  none_finished : (k.queues .finished).head = 0
  current : Known k k.current
  idle : Known k k.idleP
  terminals : ∀ p i, k.fdType p i = .terminal
  noPipes : ∀ i, (k.pipes i).used = false

/-- What a call keeps that requests no priority: a process does not fall below its base. -/
structure Keeps (k k' : Kernel) : Prop where
  allocated : k'.allocated = k.allocated
  idleP : k'.idleP = k.idleP
  base : k'.basePriority = k.basePriority
  floor : ∀ p, k.basePriority p ≤ k.priority p → k.basePriority p ≤ k'.priority p

/-- Each process other than the idle one has the requested priority as its base. -/
def AsRequested (k : Kernel) (steps : List Step) : Prop :=
  ∀ p, k.allocated p = true → p ≠ k.idleP → ∃ n, requested steps p = some n ∧
    k.basePriority p = clampPriority n ∧ k.basePriority p ≤ k.priority p

end Model

theorem clampPriority_eq_min (n : ℕ) : (clampPriority n : ℕ) = min n 2 := by
  rw [clampPriority]
  split
  · exact (Nat.min_eq_left (by omega)).symm
  · exact (Nat.min_eq_right (by omega)).symm

theorem requested_snoc (steps : List Step) (s : Step) (p : ℕ) :
    requested (steps ++ [s]) p = (s.request p).or (requested steps p) := by
  rw [requested, List.foldl_append]
  rfl

namespace Keeps

theorem refl (k : Kernel) : Keeps k k := ⟨rfl, rfl, rfl, fun _ h => h⟩

theorem trans (h : Keeps k k') (h' : Keeps k' k'') : Keeps k k'' where
  allocated := h'.allocated.trans h.allocated
  idleP := h'.idleP.trans h.idleP
  base := h'.base.trans h.base
  floor p hp := by
    have hk' := h.floor p hp
    have hk'' := h'.floor p
    rw [h.base] at hk''
    exact hk'' hk'

theorem relinked (h : Relinked k k' q) : Keeps k k' := by
  obtain ⟨l, rfl⟩ := h.links
  exact ⟨rfl, rfl, rfl, fun _ h => h⟩

/-- A call that requests no priority grants what was granted. -/
theorem granted (h : Keeps k k') {s : Step} (hs : ∀ p, s.request p = none) (hg : AsRequested k steps) :
    AsRequested k' (steps ++ [s]) := by
  intro p ha hp
  rw [h.allocated] at ha
  rw [h.idleP] at hp
  obtain ⟨n, hreq, hbase, hle⟩ := hg p ha hp
  refine ⟨n, ?_, ?_, ?_⟩
  · rw [requested_snoc, hs p]
    exact hreq
  · rw [h.base, hbase]
  · rw [h.base]
    exact h.floor p hle

end Keeps

namespace Undying

theorem relinked (h : Undying k) (hr : Relinked k k' q) (hq : q ≠ .finished) : Undying k' := by
  have hfin := hr.others .finished (Ne.symm hq)
  obtain ⟨l, rfl⟩ := hr.links
  exact ⟨hr.linked, h.unfinished, hfin ▸ h.none_finished, h.current, h.idle, h.terminals, h.noPipes⟩

/-- The fields that `Undying` does not mention may change. -/
theorem congr (h : Undying k) (hal : k'.allocated = k.allocated) (hst : k'.state = k.state)
    (hnx : k'.queueNext = k.queueNext) (hpv : k'.queuePrev = k.queuePrev)
    (hqs : k'.queues = k.queues) (hcur : k'.current = k.current) (hid : k'.idleP = k.idleP)
    (hfd : k'.fdType = k.fdType) (hpi : k'.pipes = k.pipes) : Undying k' := by
  refine ⟨⟨?_, ?_, ?_, ?_⟩, ?_, ?_, ?_, ?_, ?_, ?_⟩
  all_goals simp only [Known, hal, hst, hnx, hpv, hqs, hcur, hid, hfd, hpi]
  · exact h.linked.next
  · exact h.linked.prev
  · exact h.linked.head
  · exact h.linked.tail
  · exact h.unfinished
  · exact h.none_finished
  · exact h.current
  · exact h.idle
  · exact h.terminals
  · exact h.noPipes

theorem setState (h : Undying k) (p : ℕ) {s : ProcessState} (hs : s ≠ .finished) :
    Undying { k with state := update k.state p s } := by
  refine ⟨⟨h.linked.next, h.linked.prev, h.linked.head, h.linked.tail⟩, fun a => ?_,
    h.none_finished, h.current, h.idle, h.terminals, h.noPipes⟩
  show update k.state p s a ≠ .finished
  rw [Function.update_apply]
  split
  · exact hs
  · exact h.unfinished a

end Undying

/-- A function keeps the states of runs in which no process ends, and what `Keeps` says. -/
structure Preserved (k k' : Kernel) : Prop where
  undying : Undying k'
  keeps : Keeps k k'

theorem Preserved.trans (h : Preserved k k') (h' : Preserved k' k'') : Preserved k k'' :=
  ⟨h'.undying, h.keeps.trans h'.keeps⟩

theorem Preserved.known (h : Preserved k k') (hp : Known k p) : Known k' p := by
  rwa [Known, h.keeps.allocated]

namespace Undying

theorem refl (h : Undying k) : Preserved k k := ⟨h, .refl k⟩

theorem remove (h : Undying k) (hq : q ≠ .finished) (hcall : processQueueRemove k q p = some k') :
    Preserved k k' :=
  ⟨h.relinked (h.linked.remove hcall) hq, .relinked (h.linked.remove hcall)⟩

theorem push (h : Undying k) (hq : q ≠ .finished) (hp : Known k p)
    (hcall : processQueuePush k q p = some k') : Preserved k k' :=
  ⟨h.relinked (h.linked.push hp hcall) hq, .relinked (h.linked.push hp hcall)⟩

theorem readyPush (h : Undying k) (hp : Known k p) (hcall : readyQueuePush k p = some k') :
    Preserved k k' := by
  obtain ⟨pr, hr⟩ := h.linked.readyPush hp hcall
  exact ⟨h.relinked hr (by simp), .relinked hr⟩

theorem enterState (h : Undying k) (p : ℕ) {s : ProcessState} (hs : s ≠ .finished) :
    Preserved k { k with state := update k.state p s } :=
  ⟨h.setState p hs, ⟨rfl, rfl, rfl, fun _ h => h⟩⟩

theorem resched (h : Undying k) (b : Bool) : Preserved k { k with needResched := b } :=
  ⟨h.congr rfl rfl rfl rfl rfl rfl rfl rfl rfl, ⟨rfl, rfl, rfl, fun _ h => h⟩⟩

end Undying

section Operations

theorem Undying.unblockProcess (h : Undying k) (hp : Known k p)
    (hcall : schedulerUnblockProcess k p = some k') : Preserved k k' := by
  rw [schedulerUnblockProcess] at hcall
  split at hcall
  · cases hcall
    exact h.refl
  · rw [Option.bind_eq_bind] at hcall
    obtain ⟨k₁, hremove, hrest⟩ := Option.bind_eq_some_iff.mp hcall
    obtain ⟨k₂, hpush, hlast⟩ := Option.bind_eq_some_iff.mp hrest
    have h₁ : Preserved k k₁ := by
      split at hremove
      · exact h.remove (by simp) hremove
      · cases hremove
        exact h.refl
    have h₂ := h₁.trans (h₁.undying.enterState p (s := .ready) (by decide))
    have h₃ := h₂.trans (h₂.undying.readyPush (h₂.known hp) hpush)
    cases hlast
    split
    · exact h₃.trans (h₃.undying.resched true)
    · exact h₃

theorem Undying.blockCurrent (h : Undying k) : Preserved k (schedulerBlockCurrent k) := by
  rw [schedulerBlockCurrent]
  split
  · exact h.refl
  · have h₁ := h.enterState k.current (s := .blocked) (by decide)
    exact h₁.trans (h₁.undying.resched true)

theorem Undying.blockByPid (h : Undying k) {pid r : ℕ}
    (hcall : schedulerBlockByPid k pid = some (r, k')) : Preserved k k' := by
  rw [schedulerBlockByPid, Option.bind_eq_bind] at hcall
  obtain ⟨p, hfind, hrest⟩ := Option.bind_eq_some_iff.mp hcall
  have hp := h.linked.findByPid h.current hfind
  split at hrest
  · cases hrest
    exact h.refl
  · split at hrest
    · cases hrest
      have h₁ := h.enterState k.current (s := .blocked) (by decide)
      exact h₁.trans (h₁.undying.resched true)
    · split at hrest
      · obtain ⟨k₁, hremove, hpushed⟩ := Option.bind_eq_some_iff.mp hrest
        obtain ⟨k₂, hpush, hlast⟩ := Option.bind_eq_some_iff.mp hpushed
        cases hlast
        have h₁ := h.remove (by simp) hremove
        have h₂ := h₁.trans (h₁.undying.enterState p (s := .blocked) (by decide))
        have h₃ := h₂.trans (h₂.undying.push (by simp) (h₂.known hp) hpush)
        exact h₃.trans (h₃.undying.resched true)
      · cases hrest
        exact h.refl

theorem Undying.unblockByPid (h : Undying k) {pid r : ℕ}
    (hcall : schedulerUnblockByPid k pid = some (r, k')) : Preserved k k' := by
  rw [schedulerUnblockByPid, Option.bind_eq_bind] at hcall
  obtain ⟨p, hfind, hrest⟩ := Option.bind_eq_some_iff.mp hcall
  split at hrest
  · cases hrest
    exact h.refl
  · obtain ⟨k₁, hunblock, hlast⟩ := Option.bind_eq_some_iff.mp hrest
    cases hlast
    exact h.unblockProcess (h.linked.findByPid h.current hfind) hunblock

end Operations

section Schedule

theorem clampPriority_boost_ge (pr : Priority) : pr ≤ clampPriority (pr + agingBoost) := by
  revert pr
  decide

theorem Undying.setWaitTicks (h : Undying k) (wt : ℕ → ℕ) : Preserved k { k with waitTicks := wt } :=
  ⟨h.congr rfl rfl rfl rfl rfl rfl rfl rfl rfl, ⟨rfl, rfl, rfl, fun _ h => h⟩⟩

/-- A priority may change as long as it does not fall below the base priority. -/
theorem Undying.setPriority (h : Undying k) (p : ℕ) {pr : Priority}
    (hpr : k.basePriority p ≤ k.priority p → k.basePriority p ≤ pr) :
    Preserved k { k with priority := update k.priority p pr } := by
  refine ⟨h.congr rfl rfl rfl rfl rfl rfl rfl rfl rfl, rfl, rfl, rfl, fun a ha => ?_⟩
  show k.basePriority a ≤ update k.priority p pr a
  rcases eq_or_ne a p with rfl | hap
  · rw [Function.update_self]
    exact hpr ha
  · rwa [Function.update_of_ne hap]

theorem Undying.agingLoop {pr : Priority} (n : ℕ) (h : Undying k) (hp : Known k p)
    (hcall : agingLoop pr n p k = some k') : Preserved k k' := by
  induction n generalizing k p with
  | zero => cases hcall
  | succ n ih =>
      rw [SoKernel.agingLoop] at hcall
      split at hcall
      · cases hcall
        exact h.refl
      · have h₁ := h.setWaitTicks (update k.waitTicks p (k.waitTicks p + 1))
        have hp₁ := h₁.known hp
        dsimp only at hcall
        split at hcall
        · rw [Option.bind_eq_bind] at hcall
          obtain ⟨k₂, hremove, hrest⟩ := Option.bind_eq_some_iff.mp hcall
          obtain ⟨k₃, hpush, hloop⟩ := Option.bind_eq_some_iff.mp hrest
          have h₂ := h₁.trans (h₁.undying.remove (by simp) hremove)
          have h₃ := h₂.trans (h₂.undying.setPriority p fun hle =>
            hle.trans (clampPriority_boost_ge (k₂.priority p)))
          have h₄ := h₃.trans (h₃.undying.push (by simp) (h₃.known hp) hpush)
          have h₅ := h₄.trans (h₄.undying.setWaitTicks (update k₃.waitTicks p 0))
          exact h₅.trans (ih h₅.undying (h₅.undying.linked.head _) hloop)
        · exact h₁.trans (ih h₁.undying (h₁.undying.linked.next p) hcall)

theorem Undying.ageQueues (prs : List Priority) (h : Undying k)
    (hcall : ageQueues k prs = some k') : Preserved k k' := by
  induction prs generalizing k with
  | nil =>
      cases hcall
      exact h.refl
  | cons pr prs ih =>
      rw [SoKernel.ageQueues, Option.bind_eq_bind] at hcall
      obtain ⟨k₁, hloop, hrest⟩ := Option.bind_eq_some_iff.mp hcall
      have h₁ := h.agingLoop _ (h.linked.head _) hloop
      exact h₁.trans (ih h₁.undying hrest)

theorem Undying.saveContext (h : Undying k) (hp : Known k p) {frame : Frame}
    (hcall : saveContext k p frame = some k') : Preserved k k' := by
  rw [SoKernel.saveContext] at hcall
  split at hcall
  · cases hcall
    exact h.refl
  · have h₁ : Preserved k
        { k with
          rsp := update k.rsp p frame.rsp
          rbp := update k.rbp p (frame.word 10) } :=
      ⟨h.congr rfl rfl rfl rfl rfl rfl rfl rfl rfl, ⟨rfl, rfl, rfl, fun _ h => h⟩⟩
    dsimp only at hcall
    split at hcall
    · split at hcall
      · have h₂ := h₁.trans (h₁.undying.enterState p (s := .ready) (by decide))
        exact h₂.trans (h₂.undying.readyPush (h₂.known hp) hcall)
      · cases hcall
        exact h₁
    · exact h₁.trans (h₁.undying.push (by simp) (h₁.known hp) hcall)
    · rename_i hfin
      exact absurd hfin (h.unfinished p)
    · cases hcall
      exact h₁

theorem Undying.popFirstOf (prs : List Priority) (h : Undying k)
    (hcall : popFirstOf k prs = some (p, k')) : Known k p ∧ Preserved k k' := by
  induction prs generalizing k with
  | nil =>
      cases hcall
      exact ⟨.null _, h.refl⟩
  | cons pr prs ih =>
      rw [SoKernel.popFirstOf, Option.bind_eq_bind] at hcall
      obtain ⟨⟨x, k₁⟩, hpop, hrest⟩ := Option.bind_eq_some_iff.mp hcall
      obtain ⟨hx, hr⟩ := h.linked.pop hpop
      have h₁ : Preserved k k₁ := ⟨h.relinked hr (by simp), .relinked hr⟩
      dsimp only at hrest
      split at hrest
      · cases hrest
        exact ⟨hx ▸ h.linked.head _, h₁⟩
      · obtain ⟨hp, h₂⟩ := ih h₁.undying hrest
        refine ⟨?_, h₁.trans h₂⟩
        rwa [Known, h₁.keeps.allocated] at hp

/-- A dispatched process has its base priority. -/
theorem Undying.dispatch (h : Undying k) (hp : Known k p) :
    Preserved k (dispatch k p) ∧ (dispatch k p).current = p ∧
      (p ≠ k.idleP → k.basePriority p ≤ k.priority p →
        (dispatch k p).priority p = k.basePriority p) := by
  have h₁ := h.enterState p (s := .running) (by decide)
  have h₂ := h₁.trans (h₁.undying.setWaitTicks (update k.waitTicks p 0))
  have hset (k₃ : Kernel) (h₃ : Preserved k k₃) :
      Preserved k
        { k₃ with
          current := p
          lastSwitchTick := ticksElapsed k₃ } := by
    have hu := h₃.undying
    exact ⟨⟨⟨hu.linked.next, hu.linked.prev, hu.linked.head, hu.linked.tail⟩, hu.unfinished,
      hu.none_finished, h₃.known hp, hu.idle, hu.terminals, hu.noPipes⟩, h₃.keeps.allocated,
      h₃.keeps.idleP, h₃.keeps.base, h₃.keeps.floor⟩
  rw [SoKernel.dispatch]
  dsimp only
  split
  · have h₃ := h₂.trans (h₂.undying.setPriority p fun _ => le_rfl)
    exact ⟨hset _ h₃, rfl, fun _ _ => Function.update_self ..⟩
  · rename_i hkeep
    refine ⟨hset _ h₂, rfl, fun hidle hle => ?_⟩
    exact le_antisymm (not_lt.mp fun hlt => hkeep ⟨hidle, hlt⟩) hle

theorem Undying.collectLoop (n : ℕ) (h : Undying k) {dead : List ℕ}
    (hcall : collectLoop n k = some (dead, k')) : k' = k := by
  cases n with
  | zero =>
      cases hcall
      rfl
  | succ n =>
      have hpop : processQueuePop k .finished = some (0, k) := if_pos h.none_finished
      rw [SoKernel.collectLoop, hpop, Option.bind_eq_bind, Option.bind_some] at hcall
      cases hcall
      rfl

/-- `schedule` requests no priority, and dispatches each process with its base priority. -/
theorem Undying.schedule (h : Undying k) {frame : Frame} {o : Outcome}
    (hcall : schedule k frame = some o) :
    Preserved k o.kernel ∧ ∀ p, o.dispatched = some p → p ≠ k.idleP → k.allocated p = true ∧
      (k.basePriority p ≤ k.priority p → o.kernel.priority p = k.basePriority p) := by
  rw [SoKernel.schedule] at hcall
  split at hcall
  · cases hcall
    exact ⟨h.refl, fun p hp => (Option.some_ne_none p hp.symm).elim⟩
  · rw [Option.bind_eq_bind] at hcall
    obtain ⟨k₁, hage, hrest⟩ := Option.bind_eq_some_iff.mp hcall
    have h₁ := h.ageQueues _ hage
    split at hrest
    · rw [switchContext, Option.bind_eq_bind] at hrest
      obtain ⟨k₂, hsave, hrest⟩ := Option.bind_eq_some_iff.mp hrest
      obtain ⟨⟨x, k₃⟩, hpop, hrest⟩ := Option.bind_eq_some_iff.mp hrest
      obtain ⟨⟨dead, k₄⟩, hcollect, hlast⟩ := Option.bind_eq_some_iff.mp hrest
      cases hlast
      have h₂ := h₁.trans (h₁.undying.resched false)
      have h₃ := h₂.trans (h₂.undying.saveContext h₂.undying.current hsave)
      obtain ⟨hx, hpopped⟩ := h₃.undying.popFirstOf _ hpop
      have h₄ := h₃.trans hpopped
      have hnext : Known k₃ (if x = 0 then k₃.idleP else x) := by
        split
        · exact h₄.undying.idle
        · exact hpopped.known hx
      have hpicked : (if x = 0 then k₃.idleP else x) ≠ k₃.idleP →
          k₃.allocated (if x = 0 then k₃.idleP else x) = true := by
        split
        · exact fun hidle => absurd rfl hidle
        · rename_i h0
          exact fun _ => (hpopped.known hx).resolve_left h0
      generalize (if x = 0 then k₃.idleP else x) = next at hcollect hnext hpicked
      obtain ⟨h₅, hcur, hbase⟩ := h₄.undying.dispatch hnext
      obtain rfl := h₅.undying.collectLoop _ hcollect
      refine ⟨h₄.trans h₅, fun p hp => ?_⟩
      cases hp
      intro hidle
      rw [← h₄.keeps.idleP] at hidle
      refine ⟨?_, fun hle => ?_⟩
      · rw [← h₄.keeps.allocated]
        exact hpicked hidle
      · rw [← h₄.keeps.base]
        refine hbase hidle ?_
        rw [h₄.keeps.base]
        exact h₄.keeps.floor _ hle
    · cases hrest
      exact ⟨h₁, fun p hp => (Option.some_ne_none p hp.symm).elim⟩

theorem Undying.timerTick (h : Undying k) {frame : Frame} {o : Outcome}
    (hcall : timerTick k frame = some o) :
    Preserved k o.kernel ∧ ∀ p, o.dispatched = some p → p ≠ k.idleP → k.allocated p = true ∧
      (k.basePriority p ≤ k.priority p → o.kernel.priority p = k.basePriority p) := by
  have h₁ : Preserved k { k with ticks := k.ticks + 1 } :=
    ⟨h.congr rfl rfl rfl rfl rfl rfl rfl rfl rfl, ⟨rfl, rfl, rfl, fun _ h => h⟩⟩
  obtain ⟨h₂, hdispatched⟩ := h₁.undying.schedule hcall
  exact ⟨h₁.trans h₂, hdispatched⟩

theorem schedulerYieldCurrent_shape (k : Kernel) (frame : Frame) (r : ℕ) :
    ∃ t, schedulerYieldCurrent k frame r =
      if k.current = 0 ∨ k.current = k.idleP then some (.return r k)
      else SoKernel.timerTick { k with lastSwitchTick := t } frame := ⟨_, rfl⟩

theorem Undying.yieldCurrent (h : Undying k) {frame : Frame} {r : ℕ} {o : Outcome}
    (hcall : schedulerYieldCurrent k frame r = some o) :
    Preserved k o.kernel ∧ ∀ p, o.dispatched = some p → p ≠ k.idleP → k.allocated p = true ∧
      (k.basePriority p ≤ k.priority p → o.kernel.priority p = k.basePriority p) := by
  obtain ⟨t, heq⟩ := schedulerYieldCurrent_shape k frame r
  rw [heq] at hcall
  split at hcall
  · cases hcall
    exact ⟨h.refl, fun p hp => nomatch hp⟩
  · have h₁ : Preserved k { k with lastSwitchTick := t } :=
      ⟨h.congr rfl rfl rfl rfl rfl rfl rfl rfl rfl, ⟨rfl, rfl, rfl, fun _ h => h⟩⟩
    obtain ⟨h₂, hdispatched⟩ := h₁.undying.timerTick hcall
    exact ⟨h₁.trans h₂, hdispatched⟩

end Schedule

section Requests

/-- The memory of a control block may be cleared. -/
theorem Undying.cleared (h : Undying k) (p : ℕ) : Undying (clearPcb k p) := by
  refine ⟨⟨Known.update h.linked.next (.null k) _, Known.update h.linked.prev (.null k) _,
    h.linked.head, h.linked.tail⟩, (h.setState p (s := .new) (by decide)).unfinished,
    h.none_finished, h.current, h.idle, fun a i => ?_, h.noPipes⟩
  simp only [clearPcb, clearPcb_fdType h.terminals]
  exact h.terminals a i

/-- A new process is in no queue yet. -/
theorem Undying.created (h : Undying k) {r : SpawnRequest} (hfresh : k.allocated r.pcb = false)
    (pr : Priority) (fdp : ℕ → ℕ → Option ℕ) : Undying (createdKernel k r pr fdp) := by
  have hgrow : ∀ a, Known k a → Known (createdKernel k r pr fdp) a := by
    rintro a (h0 | ha)
    · exact Or.inl h0
    · have hne : a ≠ r.pcb := by
        rintro rfl
        rw [hfresh] at ha
        cases ha
      exact Or.inr ((Function.update_of_ne hne _ _).trans ha)
  exact ⟨⟨Known.update (fun a => hgrow _ (h.linked.next a)) (.null _) _,
    Known.update (fun a => hgrow _ (h.linked.prev a)) (.null _) _,
    fun q => hgrow _ (h.linked.head q), fun q => hgrow _ (h.linked.tail q)⟩,
    (h.setState r.pcb (s := .ready) (by decide)).unfinished, h.none_finished, hgrow _ h.current,
    hgrow _ h.idle, h.terminals, h.noPipes⟩

/-- A request in a spawn. The first part says what a failed creation leaves. -/
theorem Undying.spawn (h : Undying k) {r : SpawnRequest} (hfresh : r.pcb ≠ 0 → k.allocated r.pcb = false)
    {x : ℕ} (hcall : schedulerSpawnProcess k r = some (x, k')) :
    Undying k' ∧ k'.idleP = k.idleP ∧
      (∀ p, ¬(p = x ∧ p ≠ 0) → k'.allocated p = true → k.allocated p = true ∧
        k'.basePriority p = k.basePriority p ∧ k'.priority p = k.priority p) ∧
      (x ≠ 0 → x ≠ k.idleP → k'.basePriority x = clampPriority r.priority ∧
        k'.priority x = clampPriority r.priority) := by
  have hne : ∀ a, r.pcb ≠ 0 → k.allocated a = true → a ≠ r.pcb := by
    rintro a h0 ha rfl
    rw [hfresh h0] at ha
    cases ha
  rw [schedulerSpawnProcess, Option.bind_eq_bind] at hcall
  obtain ⟨⟨y, k₁⟩, hcreate, hrest⟩ := Option.bind_eq_some_iff.mp hcall
  rcases processCreate_spec h.terminals h.noPipes r with heq | ⟨hpcb, heq⟩ | ⟨hpcb, fdp, heq⟩
  · cases hcreate.symm.trans heq
    cases hrest
    exact ⟨h, rfl, fun p _ hp => ⟨hp, rfl, rfl⟩, fun h0 => absurd rfl h0⟩
  · cases hcreate.symm.trans heq
    cases hrest
    refine ⟨h.cleared r.pcb, rfl, fun p _ hp => ⟨hp, ?_, ?_⟩, fun h0 => absurd rfl h0⟩
    · exact Function.update_of_ne (hne p hpcb hp) _ _
    · exact Function.update_of_ne (hne p hpcb hp) _ _
  · cases hcreate.symm.trans heq
    have hidle : r.pcb ≠ k.idleP := by
      intro hid
      rcases h.idle with h0 | ha
      · exact hpcb (hid.trans h0)
      · exact hne _ hpcb ha hid.symm
    simp only [Option.bind_eq_bind, schedulerAddProcess, hpcb, hidle, or_self, if_false,
      Function.update_idem] at hrest
    obtain ⟨k₂, hadd, hlast⟩ := Option.bind_eq_some_iff.mp hrest
    cases hlast
    have hnew : Known (createdKernel k r (clampPriority r.priority) fdp) r.pcb :=
      Or.inr (Function.update_self ..)
    have h₂ := h.created (hfresh hpcb) (clampPriority r.priority) fdp
    obtain ⟨pr, hr⟩ := h₂.linked.readyPush hnew hadd
    have hu := h₂.relinked hr (by simp)
    obtain ⟨l, rfl⟩ := hr.links
    refine ⟨hu, rfl, fun p hpx ha => ?_, fun _ _ => ⟨Function.update_self .., Function.update_self ..⟩⟩
    have hp : p ≠ r.pcb := by
      rintro rfl
      exact hpx ⟨rfl, hpcb⟩
    refine ⟨?_, Function.update_of_ne hp _ _, Function.update_of_ne hp _ _⟩
    rwa [← Function.update_of_ne hp true k.allocated]

/-- A request in `scheduler_set_priority`: it changes both priorities of the process that it finds,
or neither. -/
theorem Undying.requestPriority (h : Undying k) {pid n r : ℕ}
    (hcall : schedulerSetPriority k pid n = some (r, k')) :
    Undying k' ∧ k'.allocated = k.allocated ∧ k'.idleP = k.idleP ∧
      ∃ p, schedulerFindByPid k pid = some p ∧
        (∀ a, a ≠ p → k'.basePriority a = k.basePriority a ∧ k'.priority a = k.priority a) ∧
        (r = 0 ∧ k' = k ∨ r = 1 ∧ p ≠ 0 ∧ p ≠ k.idleP ∧ k'.priority p = clampPriority n ∧
          (k'.basePriority p = clampPriority n ∨ k' = k)) := by
  rw [schedulerSetPriority, Option.bind_eq_bind] at hcall
  obtain ⟨p, hfind, hrest⟩ := Option.bind_eq_some_iff.mp hcall
  have hknown := h.linked.findByPid h.current hfind
  split at hrest
  · cases hrest
    exact ⟨h, rfl, rfl, p, hfind, fun _ _ => ⟨rfl, rfl⟩, .inl ⟨rfl, rfl⟩⟩
  · rename_i hp
    obtain ⟨h0, hidle⟩ := not_or.mp hp
    split at hrest
    · rename_i hsame
      cases hrest
      exact ⟨h, rfl, rfl, p, hfind, fun _ _ => ⟨rfl, rfl⟩, .inr ⟨rfl, h0, hidle, hsame, .inr rfl⟩⟩
    · obtain ⟨k₁, hchange, hlast⟩ := Option.bind_eq_some_iff.mp hrest
      cases hlast
      rw [changePriority, Option.bind_eq_bind] at hchange
      obtain ⟨k₂, hremove, hrest⟩ := Option.bind_eq_some_iff.mp hchange
      obtain ⟨k₃, hpush, hlast⟩ := Option.bind_eq_some_iff.mp hrest
      have hremoved : ∃ l, k₂ = k.relink l ∧ Undying (k.relink l) := by
        split at hremove
        · have hr := h.linked.remove hremove
          obtain ⟨l, rfl⟩ := hr.links
          exact ⟨l, rfl, h.relinked hr (by simp)⟩
        · cases hremove
          exact ⟨⟨k.queueNext, k.queuePrev, k.queues⟩, rfl, h⟩
      obtain ⟨l, rfl, hu⟩ := hremoved
      have hset : Undying
          { k.relink l with
            priority := update k.priority p (clampPriority n)
            basePriority := update k.basePriority p (clampPriority n)
            waitTicks := update k.waitTicks p 0 } := hu.congr rfl rfl rfl rfl rfl rfl rfl rfl rfl
      have hpushed : ∃ l', k₃ =
          { k.relink l' with
            priority := update k.priority p (clampPriority n)
            basePriority := update k.basePriority p (clampPriority n)
            waitTicks := update k.waitTicks p 0 } ∧ Undying k₃ := by
        split at hpush
        · obtain ⟨pr, hr⟩ := hset.linked.readyPush hknown hpush
          have hu₃ := hset.relinked hr (by simp)
          obtain ⟨l', rfl⟩ := hr.links
          exact ⟨l', rfl, hu₃⟩
        · cases hpush
          exact ⟨l, rfl, hset⟩
      obtain ⟨l', rfl, hu₃⟩ := hpushed
      cases hlast
      have hothers (a : ℕ) (ha : a ≠ p) :
          update k.basePriority p (clampPriority n) a = k.basePriority a ∧
            update k.priority p (clampPriority n) a = k.priority a :=
        ⟨Function.update_of_ne ha _ _, Function.update_of_ne ha _ _⟩
      split
      · exact ⟨(hu₃.resched true).undying, rfl, rfl, p, hfind, hothers,
          .inr ⟨rfl, h0, hidle, Function.update_self .., .inl (Function.update_self ..)⟩⟩
      · exact ⟨hu₃, rfl, rfl, p, hfind, hothers,
          .inr ⟨rfl, h0, hidle, Function.update_self .., .inl (Function.update_self ..)⟩⟩

end Requests

section Runs

variable {c : Call} {o : Outcome}

/-- The calls that request nothing. -/
theorem Undying.granted (hg : AsRequested k steps) (hkeeps : Preserved k o.kernel)
    (hnone : ∀ p, (Step.mk k c o).request p = none) :
    Undying o.kernel ∧ AsRequested o.kernel (steps ++ [⟨k, c, o⟩]) :=
  ⟨hkeeps.undying, hkeeps.keeps.granted hnone hg⟩

theorem AsRequested.spawn (h : Undying k) (hg : AsRequested k steps) {r : SpawnRequest}
    (hfresh : PointersKnown k (.spawn r)) (hcall : exec k (.spawn r) = some o) :
    Undying o.kernel ∧ AsRequested o.kernel (steps ++ [⟨k, .spawn r, o⟩]) := by
  obtain ⟨⟨x, k'⟩, hspawn, rfl⟩ := Option.map_eq_some_iff.mp hcall
  obtain ⟨hu, hidle, hold, hnew⟩ := h.spawn hfresh hspawn
  refine ⟨hu, fun p ha hp => ?_⟩
  replace hp : p ≠ k.idleP := hidle ▸ hp
  rw [requested_snoc]
  by_cases hpx : p = x ∧ p ≠ 0
  · obtain ⟨rfl, h0⟩ := hpx
    obtain ⟨hbase, hprio⟩ := hnew h0 hp
    refine ⟨r.priority, ?_, hbase, (hbase.trans hprio.symm).le⟩
    simp [Step.request, Outcome.return, h0]
  · obtain ⟨hal, hbase, hprio⟩ := hold p hpx ha
    obtain ⟨n, hreq, hset, hle⟩ := hg p hal hp
    refine ⟨n, ?_, hbase.trans hset, ?_⟩
    · simp only [Step.request, Outcome.return, Option.some_inj]
      rw [if_neg (fun hx => hpx ⟨hx.1.symm, hx.2⟩)]
      exact hreq
    · show k'.basePriority p ≤ k'.priority p
      rwa [hbase, hprio]

theorem AsRequested.setPriority (h : Undying k) (hg : AsRequested k steps) {pid n : ℕ}
    (heffect : TakesEffect k (.setPriority pid n)) (hcall : exec k (.setPriority pid n) = some o) :
    Undying o.kernel ∧ AsRequested o.kernel (steps ++ [⟨k, .setPriority pid n, o⟩]) := by
  obtain ⟨⟨r, k'⟩, hset, rfl⟩ := Option.map_eq_some_iff.mp hcall
  obtain ⟨hu, halloc, hidle, p₀, hfind, hothers, hcases⟩ := h.requestPriority hset
  refine ⟨hu, fun p ha hp => ?_⟩
  replace ha : k.allocated p = true := halloc ▸ ha
  replace hp : p ≠ k.idleP := hidle ▸ hp
  obtain ⟨m, hreq, hbase, hle⟩ := hg p ha hp
  rw [requested_snoc]
  simp only [Step.request, Outcome.return, Option.some_inj]
  by_cases hpp : p = p₀
  · subst hpp
    rcases hcases with ⟨rfl, rfl⟩ | ⟨rfl, h0, -, hprio, hbase'⟩
    · exact ⟨m, by rw [if_neg (fun hx => absurd hx.1 (by decide))]; exact hreq, hbase, hle⟩
    · have hgranted : k'.basePriority p = clampPriority n := by
        rcases hbase' with hbase' | rfl
        · exact hbase'
        · exact heffect p hfind h0 hp hprio
      refine ⟨n, by rw [if_pos ⟨rfl, hfind⟩]; rfl, hgranted, ?_⟩
      exact (hgranted.trans hprio.symm).le
  · have hnone : ¬(r = 1 ∧ schedulerFindByPid k pid = some p) := by
      rintro ⟨-, hx⟩
      exact hpp (Option.some_inj.mp (hx.symm.trans hfind))
    obtain ⟨hb, hpr⟩ := hothers p hpp
    refine ⟨m, by rw [if_neg hnone]; exact hreq, hb.trans hbase, ?_⟩
    show k'.basePriority p ≤ k'.priority p
    rwa [hb, hpr]

/-- One call of a run. -/
theorem AsRequested.step (h : Undying k) (hg : AsRequested k steps) (hsched : Scheduling c)
    (hknown : PointersKnown k c) (heffect : TakesEffect k c) (hcall : exec k c = some o) :
    (Undying o.kernel ∧ AsRequested o.kernel (steps ++ [⟨k, c, o⟩])) ∧
      ∀ p, o.dispatched = some p → p ≠ k.idleP →
        ∃ n, requested steps p = some n ∧ o.kernel.priority p = clampPriority n := by
  have hdispatch (hall : ∀ p, o.dispatched = some p → p ≠ k.idleP → k.allocated p = true ∧
      (k.basePriority p ≤ k.priority p → o.kernel.priority p = k.basePriority p)) :
      ∀ p, o.dispatched = some p → p ≠ k.idleP →
        ∃ n, requested steps p = some n ∧ o.kernel.priority p = clampPriority n := by
    intro p hp hidle
    obtain ⟨ha, hprio⟩ := hall p hp hidle
    obtain ⟨n, hreq, hbase, hle⟩ := hg p ha hidle
    exact ⟨n, hreq, (hprio hle).trans hbase⟩
  cases c with
  | spawn r =>
      refine ⟨hg.spawn h hknown hcall, ?_⟩
      obtain ⟨x, -, rfl⟩ := Option.map_eq_some_iff.mp hcall
      exact fun p hp => nomatch hp
  | setPriority pid n =>
      refine ⟨hg.setPriority h heffect hcall, ?_⟩
      obtain ⟨x, -, rfl⟩ := Option.map_eq_some_iff.mp hcall
      exact fun p hp => nomatch hp
  | tick frame =>
      obtain ⟨hkeeps, hall⟩ := h.timerTick hcall
      exact ⟨Undying.granted hg hkeeps fun _ => rfl, hdispatch hall⟩
  | yield frame =>
      obtain ⟨hkeeps, hall⟩ := h.yieldCurrent hcall
      exact ⟨Undying.granted hg hkeeps fun _ => rfl, hdispatch hall⟩
  | blockCurrent =>
      cases hcall
      exact ⟨Undying.granted hg h.blockCurrent fun _ => rfl, fun p hp => nomatch hp⟩
  | blockByPid pid =>
      obtain ⟨⟨r, k'⟩, hblock, rfl⟩ := Option.map_eq_some_iff.mp hcall
      exact ⟨Undying.granted hg (h.blockByPid hblock) fun _ => rfl, fun p hp => nomatch hp⟩
  | unblockProcess p =>
      obtain ⟨k', hunblock, rfl⟩ := Option.map_eq_some_iff.mp hcall
      exact ⟨Undying.granted hg (h.unblockProcess hknown hunblock) fun _ => rfl, fun p hp => nomatch hp⟩
  | unblockByPid pid =>
      obtain ⟨⟨r, k'⟩, hunblock, rfl⟩ := Option.map_eq_some_iff.mp hcall
      exact ⟨Undying.granted hg (h.unblockByPid hunblock) fun _ => rfl, fun p hp => nomatch hp⟩
  | _ => exact absurd hsched id

/-- After `init_scheduler` there is at most the idle process. -/
theorem initScheduler_undying {pcb stack : ℕ} (h : initScheduler bootKernel pcb stack = some k₀) :
    Undying k₀ ∧ AsRequested k₀ [] := by
  have hboot : Undying
      { bootKernel with
        nextPid := 1
        queues := fun _ => ⟨0, 0, 0⟩ } :=
    ⟨⟨fun _ => .null _, fun _ => .null _, fun _ => .null _, fun _ => .null _⟩, by simp [bootKernel], rfl,
      .null _, .null _, fun _ _ => rfl, fun _ => rfl⟩
  rw [initScheduler, Option.bind_eq_bind] at h
  obtain ⟨⟨idle, k₁⟩, hcreate, hlast⟩ := Option.bind_eq_some_iff.mp h
  rcases processCreate_spec hboot.terminals hboot.noPipes ⟨1, 0, 0, false, 0, 0, pcb, stack⟩ with
    heq | ⟨hpcb, heq⟩ | ⟨hpcb, fdp, heq⟩
  · cases hcreate.symm.trans heq
    cases hlast
    exact ⟨hboot, fun p hp => nomatch hp⟩
  · cases hcreate.symm.trans heq
    cases hlast
    exact ⟨hboot.cleared pcb, fun p hp => nomatch hp⟩
  · cases hcreate.symm.trans heq
    simp only [ne_eq, hpcb, not_false_eq_true, if_true, Option.some_inj] at hlast
    subst hlast
    have hnew := hboot.created (r := ⟨1, 0, 0, false, 0, 0, pcb, stack⟩) rfl processPriorityDefault fdp
    have hrun := hnew.setState pcb (s := .running) (by decide)
    have hidle : update bootKernel.allocated pcb true pcb = true := Function.update_self ..
    refine ⟨⟨⟨hrun.linked.next, hrun.linked.prev, hrun.linked.head, hrun.linked.tail⟩,
      hrun.unfinished, hrun.none_finished, .inr hidle, .inr hidle, hrun.terminals, hrun.noPipes⟩,
      fun p ha hp => ?_⟩
    replace ha : update bootKernel.allocated pcb true p = true := ha
    rw [Function.update_of_ne hp] at ha
    cases ha

theorem Run.granted (run : Run k₀ steps k) (h₀ : Undying k₀ ∧ AsRequested k₀ [])
    (hsched : ∀ s ∈ steps, Scheduling s.call) (hknown : ∀ s ∈ steps, PointersKnown s.before s.call)
    (heffect : ∀ s ∈ steps, TakesEffect s.before s.call) :
    (Undying k ∧ AsRequested k steps) ∧
      ∀ before s after, steps = before ++ s :: after → ∀ p, s.outcome.dispatched = some p →
        p ≠ s.before.idleP →
          ∃ n, requested before p = some n ∧ s.outcome.kernel.priority p = clampPriority n := by
  induction run with
  | nil => exact ⟨h₀, fun before s after h => absurd h.symm (by simp)⟩
  | @snoc steps k c o run step ih =>
      obtain ⟨⟨hk, hg⟩, hbefore⟩ := ih (fun s hs => hsched s (List.mem_append_left _ hs))
        (fun s hs => hknown s (List.mem_append_left _ hs))
        (fun s hs => heffect s (List.mem_append_left _ hs))
      have hlast : (⟨k, c, o⟩ : Step) ∈ steps ++ [⟨k, c, o⟩] := by simp
      obtain ⟨hnext, hdispatch⟩ := hg.step hk (hsched _ hlast) (hknown _ hlast) (heffect _ hlast) step
      refine ⟨hnext, fun before s after hsplit => ?_⟩
      rcases List.eq_nil_or_concat after with rfl | ⟨after', x, rfl⟩
      · obtain ⟨rfl, hs⟩ := List.append_inj' hsplit rfl
        cases hs
        exact hdispatch
      · rw [List.concat_eq_append, ← List.cons_append, ← List.append_assoc] at hsplit
        exact hbefore before s after' (List.append_inj' hsplit rfl).1

/-- In a run of calls that create, schedule, block, unblock and reprioritise processes, every
dispatched process other than the idle one has the requested priority, as long as no call of
`scheduler_set_priority` is lost on a process that was aged to the requested priority. -/
theorem requested_priority_sticks {pcb stack : ℕ} (hinit : initScheduler bootKernel pcb stack = some k₀)
    (run : Run k₀ steps k) (hsched : ∀ s ∈ steps, Scheduling s.call)
    (hknown : ∀ s ∈ steps, PointersKnown s.before s.call)
    (heffect : ∀ s ∈ steps, TakesEffect s.before s.call) :
    ∀ before s after, steps = before ++ s :: after → ∀ p, s.outcome.dispatched = some p →
      p ≠ s.before.idleP →
        ∃ n, requested before p = some n ∧ (s.outcome.kernel.priority p : ℕ) = min n 2 := by
  obtain ⟨-, hall⟩ := run.granted (initScheduler_undying hinit) hsched hknown heffect
  intro before s after hsplit p hp hidle
  obtain ⟨n, hreq, hprio⟩ := hall before s after hsplit p hp hidle
  exact ⟨n, hreq, by rw [hprio, clampPriority_eq_min]⟩

end Runs

section Lost

/-- The steps of calls that are made one after the other. -/
def stepsOf (k : Kernel) : List Call → Option (List Step)
  | [] => some []
  | c :: cs => do
      let o ← exec k c
      let rest ← stepsOf o.kernel cs
      some (⟨k, c, o⟩ :: rest)

theorem Run.of_stepsOf {cs : List Call} (h : stepsOf k cs = some steps) :
    ∃ k', Run k steps k' ∧ steps.map Step.call = cs := by
  induction cs generalizing k steps with
  | nil =>
      cases h
      exact ⟨k, .nil, rfl⟩
  | cons c cs ih =>
      rw [stepsOf, Option.bind_eq_bind] at h
      obtain ⟨o, hstep, h'⟩ := Option.bind_eq_some_iff.mp h
      obtain ⟨rest, hrest, hlast⟩ := Option.bind_eq_some_iff.mp h'
      cases hlast
      obtain ⟨k', run, hcalls⟩ := ih hrest
      exact ⟨k', .cons hstep run, by simp [hcalls]⟩

/-- The theorem at a run: the shell is spawned with priority 0, gets priority 2, and is dispatched
with it. -/
theorem requested_priority_sticks_shell :
    ∃ k₀ s t u k, initScheduler bootKernel 16 8192 = some k₀ ∧ Run k₀ [s, t, u] k ∧
      s.call = .spawn ⟨1, 0, 0, true, 0, 0, 48, 12288⟩ ∧ t.call = .setPriority 2 2 ∧
      u.call = .tick ⟨0, fun _ => 0⟩ ∧ u.outcome.dispatched = some 48 ∧
      requested [s, t] 48 = some 2 ∧
      ∃ n, requested [s, t] 48 = some n ∧ (u.outcome.kernel.priority 48 : ℕ) = min n 2 := by
  have hcalc : ((initScheduler bootKernel 16 8192).bind fun k₀ =>
      (exec k₀ (.spawn ⟨1, 0, 0, true, 0, 0, 48, 12288⟩)).bind fun o₁ =>
        (exec o₁.kernel (.setPriority 2 2)).bind fun o₂ =>
          (exec o₂.kernel (.tick ⟨0, fun _ => 0⟩)).map fun o₃ =>
            decide (k₀.allocated 48 = false ∧ schedulerFindByPid o₁.kernel 2 = some 48 ∧
              o₁.kernel.priority 48 = 0 ∧ o₃.dispatched = some 48 ∧ o₂.kernel.idleP = 16 ∧
              requested [⟨k₀, .spawn ⟨1, 0, 0, true, 0, 0, 48, 12288⟩, o₁⟩,
                ⟨o₁.kernel, .setPriority 2 2, o₂⟩] 48 = some 2)) = some true := by
    decide +kernel
  obtain ⟨k₀, hinit, h₁⟩ := Option.bind_eq_some_iff.mp hcalc
  obtain ⟨o₁, hspawn, h₂⟩ := Option.bind_eq_some_iff.mp h₁
  obtain ⟨o₂, hset, h₃⟩ := Option.bind_eq_some_iff.mp h₂
  obtain ⟨o₃, htick, h₄⟩ := Option.map_eq_some_iff.mp h₃
  obtain ⟨hfree, hfound, hprio, hdispatched, hidle, hrequested⟩ := of_decide_eq_true h₄
  have run : Run k₀ [⟨k₀, _, o₁⟩, ⟨o₁.kernel, _, o₂⟩, ⟨o₂.kernel, _, o₃⟩] o₃.kernel :=
    .cons hspawn (.cons hset (.cons htick .nil))
  refine ⟨k₀, _, _, _, o₃.kernel, hinit, run, rfl, rfl, rfl, hdispatched, hrequested, ?_⟩
  refine requested_priority_sticks hinit run ?_ ?_ ?_ [⟨k₀, _, o₁⟩, ⟨o₁.kernel, _, o₂⟩]
    ⟨o₂.kernel, _, o₃⟩ [] rfl 48 hdispatched (by rw [hidle]; decide)
  · simp [Scheduling]
  · simp [PointersKnown, hfree]
  · -- The process was not aged, and its priority is not the requested one.
    have heffect : TakesEffect o₁.kernel (.setPriority 2 2) := by
      intro p hp _ _ haged
      obtain rfl : 48 = p := Option.some.inj (hfound.symm.trans hp)
      rw [hprio] at haged
      exact absurd haged (by decide)
    simp [TakesEffect] at heffect ⊢
    exact heffect

/-- A process of priority 0 waits for 200 ticks behind one of priority 2, so that it is aged to
priority 1, and the call that requests priority 1 for it returns early. When the other process
blocks, it is dispatched with priority 0. -/
theorem requested_priority_lost :
    ∃ k₀ before s k, initScheduler bootKernel 16 8192 = some k₀ ∧ Run k₀ (before ++ [s]) k ∧
      (∀ t ∈ before ++ [s], Scheduling t.call ∧ PointersKnown t.before t.call) ∧
      s.outcome.dispatched = some 64 ∧ s.before.idleP ≠ 64 ∧ requested before 64 = some 1 ∧
      (s.outcome.kernel.priority 64 : ℕ) ≠ min 1 2 := by
  have hcalc : ((initScheduler bootKernel 16 8192).bind fun k₀ =>
      (exec k₀ (.spawn ⟨1, 0, 2, false, 0, 0, 48, 12288⟩)).bind fun o₁ =>
        (exec o₁.kernel (.spawn ⟨1, 0, 0, false, 0, 0, 64, 32768⟩)).bind fun o₂ =>
          (stepsOf o₂.kernel (List.replicate 200 (.tick ⟨0, fun _ => 0⟩) ++
            [.setPriority 3 1, .blockCurrent, .tick ⟨0, fun _ => 0⟩])).map fun steps =>
          (k₀.allocated 48 || o₁.kernel.allocated 64,
            requested (⟨k₀, .spawn ⟨1, 0, 2, false, 0, 0, 48, 12288⟩, o₁⟩ ::
              ⟨o₁.kernel, .spawn ⟨1, 0, 0, false, 0, 0, 64, 32768⟩, o₂⟩ :: steps.take 202) 64,
            (steps.drop 202).map fun s =>
              (s.outcome.dispatched, s.before.idleP, s.outcome.kernel.priority 64))) =
        some (false, some 1, [(some 64, 16, 0)]) := by
    decide +kernel
  obtain ⟨k₀, hinit, h₁⟩ := Option.bind_eq_some_iff.mp hcalc
  obtain ⟨o₁, hfirst, h₂⟩ := Option.bind_eq_some_iff.mp h₁
  obtain ⟨o₂, hsecond, h₃⟩ := Option.bind_eq_some_iff.mp h₂
  obtain ⟨steps, hsteps, h₄⟩ := Option.map_eq_some_iff.mp h₃
  simp only [Prod.mk.injEq, Bool.or_eq_false_iff] at h₄
  obtain ⟨⟨hfree, hfree'⟩, hrequested, hlast⟩ := h₄
  obtain ⟨k, run, hcalls⟩ := Run.of_stepsOf hsteps
  obtain ⟨s, hdrop, hvalues⟩ := List.map_eq_singleton_iff.mp hlast
  simp only [Prod.mk.injEq] at hvalues
  obtain ⟨hdispatched, hidle, hprio⟩ := hvalues
  have hsplit : steps = steps.take 202 ++ [s] := by
    rw [← hdrop, List.take_append_drop]
  have hall : ∀ t ∈ steps, Scheduling t.call ∧ PointersKnown t.before t.call := by
    intro t ht
    have hmem : t.call ∈ steps.map Step.call := List.mem_map_of_mem ht
    rw [hcalls, List.mem_append, List.mem_replicate] at hmem
    rcases hmem with ⟨-, heq⟩ | hmem
    · rw [heq]
      exact ⟨trivial, trivial⟩
    · simp only [List.mem_cons, List.not_mem_nil, or_false] at hmem
      rcases hmem with heq | heq | heq
      all_goals
        rw [heq]
        exact ⟨trivial, trivial⟩
  refine ⟨k₀, ⟨k₀, _, o₁⟩ :: ⟨o₁.kernel, _, o₂⟩ :: steps.take 202, s, k, hinit, ?_, ?_, hdispatched,
    ?_, hrequested, ?_⟩
  · rw [List.cons_append, List.cons_append, ← hsplit]
    exact .cons hfirst (.cons hsecond run)
  · rw [List.cons_append, List.cons_append, ← hsplit]
    refine List.forall_mem_cons.mpr ⟨⟨trivial, fun _ => hfree⟩,
      List.forall_mem_cons.mpr ⟨⟨trivial, fun _ => hfree'⟩, hall⟩⟩
  · rw [hidle]
    decide
  · rw [hprio]
    decide

end Lost
end SoKernel
