import SoKernel.Proc.Switch

/-!
# The choice of the next process

`schedule` takes the first process of the highest ready queue, or the idle process, makes
it the current one and then destroys up to four finished processes.
-/

namespace SoKernel

open Function (update)

variable {k : Kernel} {c p : ℕ} {Q : QueueId → List ℕ} {L : List ℕ}

section Dispatch

theorem QueuesAgree.remember (h : QueuesAgree k 0 Q) (hs : k.state c ≠ .blocked) :
    QueuesAgree k c Q := by
  refine ⟨h.rings, ⟨h.members.ready, fun p _ => ?_, h.members.finished⟩, h.valid, h.idle, h.current,
    h.terminals, h.noPipes⟩
  rw [h.members.blocked p (by simp)]
  refine and_congr_right fun ha => and_congr_right fun hb => ?_
  have hpc : p ≠ c := fun e => hs (e ▸ hb)
  simp [hpc, (h.valid p ha).1]

/-- Popping takes the first process of the first ready queue that is not empty. -/
theorem popFirstOf_spec (prs : List Priority) (h : QueuesAgree k c Q) :
    ∃ p l Q', popFirstOf k prs = some (p, k.relink l) ∧
      Rings l.next l.prev l.queues Q' ∧
      ((p = 0 ∧ Q' = Q ∧ ∀ pr ∈ prs, Q (.ready pr) = []) ∨
        ∃ pr, p ∈ Q (.ready pr) ∧ Q' = update Q (.ready pr) ((Q (.ready pr)).erase p)) := by
  induction prs generalizing k with
  | nil =>
      exact ⟨0, ⟨k.queueNext, k.queuePrev, k.queues⟩, Q, rfl, h.rings, Or.inl ⟨rfl, rfl, by simp⟩⟩
  | cons pr prs ih =>
      obtain ⟨nx, pv, qs, heq, hrings⟩ := processQueuePop_spec (q := .ready pr) h.rings
      cases hL : Q (.ready pr) with
      | nil =>
          rw [hL, List.tail_nil, ← hL, Function.update_eq_self] at hrings
          obtain ⟨p, l, Q', heq', hrings', hcases⟩ := ih (k := k.relink ⟨nx, pv, qs⟩)
            ⟨hrings, h.members, h.valid, h.idle, h.current, h.terminals, h.noPipes⟩
          refine ⟨p, l, Q', ?_, hrings', ?_⟩
          · rw [hL] at heq
            rw [popFirstOf, heq]
            exact heq'
          · refine hcases.imp (fun hz => ⟨hz.1, hz.2.1, ?_⟩) id
            intro pr' hpr'
            rcases List.mem_cons.mp hpr' with rfl | hpr'
            · exact hL
            · exact hz.2.2 pr' hpr'
      | cons x L =>
          have hx : x ∈ Q (.ready pr) := by simp [hL]
          refine ⟨x, ⟨nx, pv, qs⟩, _, ?_, hrings, Or.inr ⟨pr, hx, ?_⟩⟩
          · rw [hL] at heq
            rw [popFirstOf, heq]
            simp [h.rings.ne_zero hx]
          · rw [hL]
            simp

/-- The state after the dispatch of a process, up to the links of the queues. -/
abbrev dispatchedKernel (k : Kernel) (next : ℕ) (prio : ℕ → Priority) : Kernel :=
  { k with
    state := update k.state next .running
    waitTicks := update k.waitTicks next 0
    priority := prio
    current := next
    lastSwitchTick := ticksElapsed k }

/-- The next process is ready or is the idle process, and runs afterwards. -/
theorem popDispatch_spec (h : QueuesAgree k 0 Q) (hidle : k.idleP ≠ 0) :
    ∃ p l next prio Q', readyQueuePopHighest k = some (p, k.relink l) ∧
      (if p = 0 then k.idleP else p) = next ∧
      dispatch (k.relink l) next = (dispatchedKernel k next prio).relink l ∧
      k.allocated next = true ∧ (k.state next = .ready ∨ k.state next = .running) ∧
      QueuesAgree ((dispatchedKernel k next prio).relink l) next Q' ∧
      Q' .finished = Q .finished := by
  obtain ⟨p, l, Q', heq, hrings, hcases⟩ := popFirstOf_spec [2, 1, 0] h
  generalize hnext : (if p = 0 then k.idleP else p) = next
  -- The chosen process is in none of the queues that are left.
  have hchosen : k.allocated next = true ∧ (k.state next = .ready ∨ k.state next = .running) ∧
      (∀ q, next ∉ Q' q) ∧ Members k.allocated k.state k.priority 0 {next} Q' ∧
      Q' .finished = Q .finished := by
    rcases hcases with ⟨rfl, rfl, hempty⟩ | ⟨pr, hp, rfl⟩
    · rw [if_pos rfl] at hnext
      subst hnext
      obtain ⟨ha, hs⟩ := h.idle hidle
      have hrun : k.state k.idleP = .running := by
        refine hs.resolve_right fun hready => ?_
        have hmem := (h.members.ready (k.priority k.idleP) k.idleP (by simp)).mpr ⟨ha, hready, rfl⟩
        have hpr : k.priority k.idleP ∈ ([2, 1, 0] : List Priority) := by
          generalize k.priority k.idleP = pr
          revert pr
          decide
        rw [hempty _ hpr] at hmem
        cases hmem
      exact ⟨ha, hs.symm, h.free_of_running hrun, h.members.exempt _, rfl⟩
    · have hp0 : p ≠ 0 := h.rings.ne_zero hp
      rw [if_neg hp0] at hnext
      subst hnext
      obtain ⟨ha, hs, hpr⟩ := (h.members.ready pr p (by simp)).mp hp
      have hnodup := (h.rings.list (.ready pr)).nodup
      refine ⟨ha, Or.inl hs, fun q hm => ?_, (h.members.exempt p).lift hnodup, by simp⟩
      rw [mem_lift hnodup] at hm
      by_cases hq : q = .ready pr
      · exact hm.2 ⟨rfl, hq⟩
      · exact h.free_of_ready hs (hpr.symm ▸ hq) hm.1
  obtain ⟨ha, hs, hfree, hmem, hfin⟩ := hchosen
  have hsettled (prio : ℕ → Priority) (hprio : ∀ a, a ≠ next → prio a = k.priority a) :
      QueuesAgree ((dispatchedKernel k next prio).relink l) next Q' := by
    have hm : Members k.allocated (update k.state next .running) prio 0 ∅ Q' := by
      refine ((hmem.setState .running).congr (fun _ _ => rfl) (fun _ _ => rfl)
        (fun a ha => hprio a ha)).settle hfree ?_ ?_
      · simp
      · simp
    refine QueuesAgree.remember ⟨hrings, hm, h.valid, ?_, fun _ => ⟨ha, hidle⟩, h.terminals,
      h.noPipes⟩ (by simp)
    intro hid
    refine ⟨(h.idle hid).1, ?_⟩
    dsimp only
    by_cases hi : k.idleP = next
    · rw [hi, Function.update_self]
      exact Or.inl rfl
    · rw [Function.update_of_ne hi]
      exact (h.idle hid).2
  by_cases hreset : next ≠ k.idleP ∧ k.basePriority next < k.priority next
  · refine ⟨p, l, next, update k.priority next (k.basePriority next), Q', heq, hnext, ?_, ha, hs,
      hsettled _ fun a ha => Function.update_of_ne ha _ _, hfin⟩
    rw [dispatch, if_pos hreset]
    rfl
  · refine ⟨p, l, next, k.priority, Q', heq, hnext, ?_, ha, hs, hsettled _ fun _ _ => rfl, hfin⟩
    rw [dispatch, if_neg hreset]
    rfl

end Dispatch

section Collect

/-- Without pipes there is nothing to close. -/
theorem closeFds_terminal (is : List ℕ) (h : ∀ i ∈ is, k.fdType p i = .terminal) :
    closeFds p is k = some k := by
  induction is with
  | nil => rfl
  | cons i is ih =>
      rw [closeFds, closeFd, h i List.mem_cons_self, Option.bind_eq_bind, Option.bind_some,
        ih fun j hj => h j (List.mem_cons_of_mem i hj)]

theorem processCloseFds_terminal (h : ∀ i, k.fdType p i = .terminal) :
    processCloseFds k p = some k := by
  unfold processCloseFds
  split
  · rfl
  · exact closeFds_terminal _ fun i _ => h i

theorem unlinkChild_shape (k : Kernel) (p : ℕ) :
    ∃ pa fc ns ps, unlinkChild k p =
      { k with
        parent := pa
        firstChild := fc
        nextSibling := ns
        prevSibling := ps } := by
  unfold unlinkChild
  by_cases hpar : k.parent p = 0
  · exact ⟨k.parent, k.firstChild, k.nextSibling, k.prevSibling, by rw [if_pos hpar]⟩
  · rw [if_neg hpar]
    by_cases hprev : k.prevSibling p ≠ 0
    · simp only [if_pos hprev]
      split <;> exact ⟨_, _, _, _, rfl⟩
    · simp only [if_neg hprev]
      by_cases hfirst : k.firstChild (k.parent p) = p
      · simp only [if_pos hfirst]
        split <;> exact ⟨_, _, _, _, rfl⟩
      · simp only [if_neg hfirst]
        split <;> exact ⟨_, _, _, _, rfl⟩

theorem processDestroy_shape (k : Kernel) (hp : p ≠ 0) (h : ∀ i < maxFds, k.fdType p i = .terminal) :
    ∃ pa fc ns ps, processDestroy k p = some
      { k with
        parent := pa
        firstChild := fc
        nextSibling := ns
        prevSibling := ps
        allocated := update k.allocated p false } := by
  obtain ⟨pa, fc, ns, ps, hunlink⟩ := unlinkChild_shape k p
  refine ⟨pa, fc, ns, ps, ?_⟩
  rw [processDestroy, if_neg hp, closeFds_terminal _ fun i hi => h i (List.mem_range.mp hi),
    Option.bind_eq_bind, Option.bind_some, hunlink]

/-- The state after the destruction of the listed processes, up to the links of the
queues. -/
abbrev collectedKernel (k : Kernel) (dead : List ℕ) (pa fc ns ps : ℕ → ℕ) : Kernel :=
  { k with
    parent := pa
    firstChild := fc
    nextSibling := ns
    prevSibling := ps
    allocated := setAll dead false k.allocated }

/-- Destroying a finished process that has left its queue. -/
theorem QueuesAgree.destroy (h : QueuesAgree k c Q) (hfree : ∀ q, p ∉ Q q)
    (hs : k.state p = .finished) (hcur : k.state k.current ≠ .finished) :
    QueuesAgree { k with allocated := update k.allocated p false } c Q := by
  have halloc : ∀ a, update k.allocated p false a = true → k.allocated a = true := by
    intro a ha
    by_cases hap : a = p
    · rw [hap, Function.update_self] at ha
      cases ha
    · rwa [Function.update_of_ne hap] at ha
  have hkeep : ∀ a, a ≠ p → k.allocated a = true → update k.allocated p false a = true := by
    intro a hap ha
    rwa [Function.update_of_ne hap]
  refine ⟨h.rings, ?_, fun a ha => h.valid a (halloc a ha), ?_, ?_, h.terminals, h.noPipes⟩
  · refine ((h.members.exempt p).congr (fun a ha => Function.update_of_ne ha _ _) (fun _ _ => rfl)
      (fun _ _ => rfl)).settle hfree ?_ ?_
    · simp [hs]
    · simp [hs]
  · intro hidle
    obtain ⟨ha, hstate⟩ := h.idle hidle
    refine ⟨hkeep _ (fun e => ?_) ha, hstate⟩
    rw [e, hs] at hstate
    simp at hstate
  · intro hc
    obtain ⟨ha, hidle⟩ := h.current hc
    exact ⟨hkeep _ (fun e => hcur (e ▸ hs)) ha, hidle⟩

/-- The loop of `schedule` destroys the first processes of the queue of finished ones. -/
theorem collectLoop_spec (n : ℕ) (h : QueuesAgree k c Q) (hcur : k.state k.current ≠ .finished) :
    ∃ l pa fc ns ps Q', collectLoop n k = some ((Q .finished).take n,
        (collectedKernel k ((Q .finished).take n) pa fc ns ps).relink l) ∧
      QueuesAgree ((collectedKernel k ((Q .finished).take n) pa fc ns ps).relink l) c Q' := by
  induction n generalizing k Q with
  | zero =>
      refine ⟨⟨k.queueNext, k.queuePrev, k.queues⟩, k.parent, k.firstChild, k.nextSibling,
        k.prevSibling, Q, ?_, ?_⟩
      · simp only [List.take_zero, collectedKernel, setAll_nil]
        rfl
      · simp only [List.take_zero, collectedKernel, setAll_nil]
        exact h
  | succ n ih =>
      obtain ⟨nx, pv, qs, heq, hrings⟩ := processQueuePop_spec (q := .finished) h.rings
      cases hL : Q .finished with
      | nil =>
          rw [hL, List.tail_nil, ← hL, Function.update_eq_self] at hrings
          rw [hL] at heq
          refine ⟨⟨nx, pv, qs⟩, k.parent, k.firstChild, k.nextSibling, k.prevSibling, Q, ?_, ?_⟩
          · simp only [List.take_nil, collectedKernel, setAll_nil]
            rw [collectLoop, heq]
            rfl
          · simp only [List.take_nil, collectedKernel, setAll_nil]
            exact ⟨hrings, h.members, h.valid, h.idle, h.current, h.terminals, h.noPipes⟩
      | cons x L =>
          have hx : x ∈ Q .finished := by simp [hL]
          have hx0 : x ≠ 0 := h.rings.ne_zero hx
          obtain ⟨hxa, hxs⟩ := h.members.finished x (by simp) hx
          rw [hL, List.tail_cons] at hrings
          rw [hL, List.head?_cons, Option.getD_some] at heq
          have hnodup := (h.rings.list .finished).nodup
          have hfree : ∀ q, x ∉ update Q .finished L q := by
            intro q hm
            have hlift : x ∈ update Q .finished ((Q .finished).erase x) q ↔ _ := mem_lift hnodup
            rw [hL, List.erase_cons_head] at hlift
            rw [hlift] at hm
            by_cases hq : q = .finished
            · exact hm.2 ⟨rfl, hq⟩
            · exact h.free_of_finished hxs hq hm.1
          have hpop : QueuesAgree (k.relink ⟨nx, pv, qs⟩) c (update Q .finished L) := by
            have hm := (h.members.exempt x).lift (q := .finished) hnodup
            rw [hL, List.erase_cons_head] at hm
            exact ⟨hrings, hm.settle hfree (by simp [hxs]) (by simp [hxs]), h.valid, h.idle,
              h.current, h.terminals, h.noPipes⟩
          obtain ⟨pa, fc, ns, ps, hdestroy⟩ := processDestroy_shape (k.relink ⟨nx, pv, qs⟩) hx0
            (fun i _ => h.terminals x i)
          have hdead := hpop.destroy hfree hxs hcur
          obtain ⟨l, pa', fc', ns', ps', Q', heq', hagree⟩ := ih
            (k := { k with
              parent := pa
              firstChild := fc
              nextSibling := ns
              prevSibling := ps
              allocated := update k.allocated x false }.relink ⟨nx, pv, qs⟩)
            (Q := update Q .finished L)
            ⟨hdead.rings, hdead.members, hdead.valid, hdead.idle, hdead.current, hdead.terminals,
              hdead.noPipes⟩ hcur
          rw [Function.update_self] at heq' hagree
          simp only [List.take_succ_cons, collectedKernel, setAll_cons] at heq' hagree ⊢
          refine ⟨l, pa', fc', ns', ps', Q', ?_, hagree⟩
          rw [collectLoop, heq]
          simp only [Option.bind_eq_bind, Option.bind_some, if_neg hx0]
          rw [hdestroy, Option.bind_some, heq', Option.bind_some]

end Collect

section Schedule

/-- What a context switch does to the state `k`: the interrupted process is saved, the
process `next` is dispatched and finished processes are destroyed. The list `L` holds the
waiters that are woken and `F` the queue of finished processes before the switch. -/
structure SwitchEffect (k : Kernel) (L F : List ℕ) (next : ℕ) (o : Outcome) : Prop where
  result : o.result = none
  dispatched : o.dispatched = some next
  released : o.released = []
  destroyed : o.destroyed = (savedFinished k k.current F).take maxFinishedCollect
  current : o.kernel.current = next
  next_allocated : k.allocated next = true
  next_state : savedState k k.current L next = .ready ∨ savedState k k.current L next = .running
  state : o.kernel.state = update (savedState k k.current L) next .running
  allocated : o.kernel.allocated = setAll o.destroyed false k.allocated
  pid : o.kernel.pid = k.pid
  nextPid : o.kernel.nextPid = k.nextPid
  idleP : o.kernel.idleP = k.idleP
  waitersHead : o.kernel.waitersHead =
    if k.state k.current = .finished then update k.waitersHead k.current 0 else k.waitersHead
  waiterNext : o.kernel.waiterNext = setAll L 0 k.waiterNext
  waitingOnPid : o.kernel.waitingOnPid = setAll L 0 k.waitingOnPid
  waitingOnSem : o.kernel.waitingOnSem = k.waitingOnSem
  semWaiterNext : o.kernel.semWaiterNext = k.semWaiterNext
  nextSemId : o.kernel.nextSemId = k.nextSemId
  kbdSemId : o.kernel.kbdSemId = k.kbdSemId
  semaphores : ∀ i, ∃ v, o.kernel.semaphores i = { k.semaphores i with value := v }
  collect : ∃ k₂ Q₂, collectLoop maxFinishedCollect k₂ = some (o.destroyed, o.kernel) ∧
    QueuesAgree k₂ next Q₂ ∧ Q₂ .finished = savedFinished k k.current F ∧
    k₂.current = next ∧ k₂.allocated = k.allocated ∧ k₂.parent = k.parent ∧
    k₂.firstChild = k.firstChild ∧ k₂.nextSibling = k.nextSibling ∧ k₂.prevSibling = k.prevSibling
  running : k.current ≠ 0

/-- A context switch keeps the queues in agreement. -/
theorem switchContext_spec (frame : Frame) (h : QueuesAgree k k.current Q) (hc : k.current ≠ 0)
    (hL : SaveWakes k k.current L) :
    ∃ next o Q', switchContext k frame = some o ∧ QueuesAgree o.kernel o.kernel.current Q' ∧
      SwitchEffect k L (Q .finished) next o := by
  have hk : QueuesAgree { k with needResched := false } k.current Q :=
    ⟨h.rings, h.members, h.valid, h.idle, h.current, h.terminals, h.noPipes⟩
  obtain ⟨l₁, fg, kb, sems, Q₁, hsave, hagree₁, hsems, hfin₁⟩ :=
    saveContext_spec (k := { k with needResched := false }) frame hk hc
      (hL.congr rfl rfl rfl rfl)
  obtain ⟨p, l₂, next, prio, Q₂, hpop, hnext, hdispatch, halloc, hstate, hagree₂, hfin₂⟩ :=
    popDispatch_spec hagree₁ (h.current hc).2
  obtain ⟨l₃, pa, fc, ns, ps, Q₃, hcollect, hagree₃⟩ :=
    collectLoop_spec maxFinishedCollect hagree₂ (by simp)
  refine ⟨next, ⟨_, none, some next, (Q₂ .finished).take maxFinishedCollect, []⟩, Q₃, ?_, hagree₃,
    ?_⟩
  · rw [switchContext, hsave]
    simp only [Option.bind_eq_bind, Option.bind_some]
    rw [hpop]
    simp only [Option.bind_some]
    rw [hnext, hdispatch, hcollect, Option.bind_some]
  · have hF : Q₂ .finished = savedFinished k k.current (Q .finished) := hfin₂.trans hfin₁
    exact
      { result := rfl
        dispatched := rfl
        released := rfl
        destroyed := by rw [hF]
        current := rfl
        next_allocated := halloc
        next_state := hstate
        state := rfl
        allocated := rfl
        pid := rfl
        nextPid := rfl
        idleP := rfl
        waitersHead := rfl
        waiterNext := rfl
        waitingOnPid := rfl
        waitingOnSem := rfl
        semWaiterNext := rfl
        nextSemId := rfl
        kbdSemId := rfl
        semaphores := hsems
        collect := ⟨_, Q₂, hcollect, hagree₂, hF, rfl, rfl, rfl, rfl, rfl, rfl⟩
        running := hc }

/-- The two states agree on everything but scheduling parameters, saved registers, the
foreground, the keyboard buffer, descriptors and the links of the queues. -/
structure SameCore (k k' : Kernel) : Prop where
  allocated : k'.allocated = k.allocated
  state : k'.state = k.state
  pid : k'.pid = k.pid
  nextPid : k'.nextPid = k.nextPid
  current : k'.current = k.current
  idleP : k'.idleP = k.idleP
  parent : k'.parent = k.parent
  firstChild : k'.firstChild = k.firstChild
  nextSibling : k'.nextSibling = k.nextSibling
  prevSibling : k'.prevSibling = k.prevSibling
  waitersHead : k'.waitersHead = k.waitersHead
  waiterNext : k'.waiterNext = k.waiterNext
  waitingOnPid : k'.waitingOnPid = k.waitingOnPid
  waitingOnSem : k'.waitingOnSem = k.waitingOnSem
  semWaiterNext : k'.semWaiterNext = k.semWaiterNext
  semaphores : k'.semaphores = k.semaphores
  nextSemId : k'.nextSemId = k.nextSemId

theorem SameCore.refl (k : Kernel) : SameCore k k := by
  constructor <;> rfl

/-- A call without a context switch that releases nobody. -/
structure Outcome.Plain (o : Outcome) : Prop where
  dispatched : o.dispatched = none
  destroyed : o.destroyed = []
  released : o.released = []

theorem Outcome.plain_return (result : ℕ) (k : Kernel) : (Outcome.return result k).Plain :=
  ⟨rfl, rfl, rfl⟩

/-- The two ways in which `schedule` returns. -/
inductive ScheduleEffect (k : Kernel) (L F : List ℕ) (o : Outcome) : Prop
  | kept (plain : o.Plain) (core : SameCore k o.kernel)
  | switched (next : ℕ) (effect : SwitchEffect k L F next o)

/-- The clock does not matter for the effect. -/
theorem ScheduleEffect.of_clock {F : List ℕ} {o : Outcome} {a b : ℕ}
    (h : ScheduleEffect
      { k with
        lastSwitchTick := a
        ticks := b } L F o) : ScheduleEffect k L F o := by
  cases h with
  | kept plain core =>
      exact .kept plain ⟨core.1, core.2, core.3, core.4, core.5, core.6, core.7, core.8, core.9,
        core.10, core.11, core.12, core.13, core.14, core.15, core.16, core.17⟩
  | switched next e =>
      exact .switched next ⟨e.1, e.2, e.3, e.4, e.5, e.6, e.7, e.8, e.9, e.10, e.11, e.12, e.13,
        e.14, e.15, e.16, e.17, e.18, e.19, e.20, e.21, e.22⟩

/-- `schedule` returns and keeps the queues in agreement, if the waiters of a finished
current process are awake. -/
theorem schedule_spec (frame : Frame) (h : QueuesAgree k k.current Q)
    (hL : k.current ≠ 0 → SaveWakes k k.current L) :
    ∃ o Q', schedule k frame = some o ∧ QueuesAgree o.kernel o.kernel.current Q' ∧
      ScheduleEffect k L (Q .finished) o := by
  unfold schedule
  by_cases hc : k.current = 0
  · exact ⟨_, Q, if_pos hc, h, .kept (Outcome.plain_return _ _) (.refl k)⟩
  · obtain ⟨l, prio, wt, Q₁, hage, hagree, hfin, -⟩ := ageQueues_spec [0, 1, 2] h
    rw [if_neg hc, applyAging, hage, Option.bind_eq_bind, Option.bind_some]
    by_cases hswitch : mustSwitch ({ k with
        priority := prio
        waitTicks := wt }.relink l) = true
    · obtain ⟨next, o, Q', heq, hagree', e⟩ := switchContext_spec frame hagree hc
        ((hL hc).congr rfl rfl rfl rfl)
      refine ⟨o, Q', ?_, hagree', .switched next ?_⟩
      · rw [if_pos hswitch, heq]
      · rw [hfin] at e
        exact ⟨e.1, e.2, e.3, e.4, e.5, e.6, e.7, e.8, e.9, e.10, e.11, e.12, e.13, e.14, e.15, e.16,
          e.17, e.18, e.19, e.20, e.21, e.22⟩
    · refine ⟨_, Q₁, if_neg hswitch, hagree, .kept (Outcome.plain_return _ _) ?_⟩
      constructor <;> rfl

theorem timerTick_spec (frame : Frame) (h : QueuesAgree k k.current Q)
    (hL : k.current ≠ 0 → SaveWakes k k.current L) :
    ∃ o Q', timerTick k frame = some o ∧ QueuesAgree o.kernel o.kernel.current Q' ∧
      ScheduleEffect k L (Q .finished) o := by
  obtain ⟨o, Q', heq, hagree, heffect⟩ := schedule_spec (k := { k with ticks := k.ticks + 1 })
    (L := L) frame
    ⟨h.rings, h.members, h.valid, h.idle, h.current, h.terminals, h.noPipes⟩
    (fun hc => (hL hc).congr rfl rfl rfl rfl)
  exact ⟨o, Q', heq, hagree, .of_clock heffect⟩

theorem schedulerYieldCurrent_spec (frame : Frame) (result : ℕ) (h : QueuesAgree k k.current Q)
    (hL : k.current ≠ 0 → SaveWakes k k.current L) :
    ∃ o Q', schedulerYieldCurrent k frame result = some o ∧
      QueuesAgree o.kernel o.kernel.current Q' ∧ ScheduleEffect k L (Q .finished) o := by
  unfold schedulerYieldCurrent
  by_cases hc : k.current = 0 ∨ k.current = k.idleP
  · exact ⟨_, Q, if_pos hc, h, .kept (Outcome.plain_return _ _) (.refl k)⟩
  · rw [if_neg hc]
    generalize (ticksElapsed k + 2 ^ 64 - quantumTicks) % 2 ^ 64 = t
    obtain ⟨o, Q', heq, hagree, heffect⟩ := timerTick_spec (k := { k with lastSwitchTick := t })
      (L := L) frame
      ⟨h.rings, h.members, h.valid, h.idle, h.current, h.terminals, h.noPipes⟩
      (fun hc => (hL hc).congr rfl rfl rfl rfl)
    exact ⟨o, Q', heq, hagree, .of_clock heffect⟩

end Schedule
end SoKernel
