import SoKernel.Proc.Calls
import SoKernel.Proc.Schedule

/-!
# Control of processes

The calls that create, block, unblock and kill processes keep the queues in agreement with
the states, each under a condition on the state in which it is made.
-/

namespace SoKernel

open Function (update)
open LinkedList (Chain)

variable {k : Kernel} {c p : ℕ} {Q : QueueId → List ℕ} {L : List ℕ}

section Find

theorem findInQueue_eq (h : Rings k.queueNext k.queuePrev k.queues Q) (q : QueueId) (pid : ℕ) :
    findInQueue k q pid = some (((Q q).find? fun p => decide (k.pid p = pid)).getD 0) := by
  have hring := (h.list q).ring
  have hlen := hring.length_lt (h.bounded q) addressCount_pos
  have hwalk := hring.walkFind (p := fun it => decide (k.pid it = pid)) hlen
  rw [LinkedRing.walkFind_update, Function.update_self] at hwalk
  rw [findInQueue, hwalk, Option.map_some]

theorem findInQueues_spec (h : QueuesAgree k c Q) (pid : ℕ) (qs : List QueueId) :
    ∃ p, findInQueues k pid qs = some p ∧
      (p = 0 ∨ k.allocated p = true ∧ k.pid p = pid ∧ ∃ q ∈ qs, p ∈ Q q) := by
  induction qs with
  | nil => exact ⟨0, rfl, Or.inl rfl⟩
  | cons q qs ih =>
      rw [findInQueues, findInQueue_eq h.rings, Option.bind_eq_bind, Option.bind_some]
      cases hfind : (Q q).find? fun p => decide (k.pid p = pid) with
      | none =>
          obtain ⟨p, heq, hp⟩ := ih
          refine ⟨p, ?_, hp.imp id fun hp => ⟨hp.1, hp.2.1, ?_⟩⟩
          · simpa using heq
          · obtain ⟨q', hq', hm⟩ := hp.2.2
            exact ⟨q', List.mem_cons_of_mem _ hq', hm⟩
      | some p =>
          have hm := List.mem_of_find?_eq_some hfind
          have hpid := List.find?_some hfind
          refine ⟨p, ?_, Or.inr ⟨(h.of_mem hm).1, by simpa using hpid, q, List.mem_cons_self, hm⟩⟩
          simp [h.rings.ne_zero hm]

/-- The search for an identifier ends; it finds `NULL` or a process with the identifier. -/
theorem schedulerFindByPid_spec (h : QueuesAgree k c Q) (pid : ℕ) :
    ∃ p, schedulerFindByPid k pid = some p ∧
      (p = 0 ∨ k.allocated p = true ∧ k.pid p = pid) := by
  obtain ⟨p, heq, hp⟩ := findInQueues_spec h pid
    [.ready 0, .ready 1, .ready 2, .blocked, .finished]
  rw [schedulerFindByPid, heq, Option.bind_eq_bind, Option.bind_some]
  by_cases hp0 : p = 0
  · rw [if_neg (not_not.mpr hp0)]
    by_cases hcur : k.current ≠ 0 ∧ k.pid k.current = pid
    · exact ⟨k.current, by rw [if_pos hcur], Or.inr ⟨(h.current hcur.1).1, hcur.2⟩⟩
    · exact ⟨0, by rw [if_neg hcur], Or.inl rfl⟩
  · exact ⟨p, by rw [if_pos hp0], hp.imp_right fun hp => ⟨hp.1, hp.2.1⟩⟩

end Find

section Create

/-- Without pipes, no pipe has an identifier. -/
theorem pipeGetById_none (h : ∀ i, (k.pipes i).used = false) (id : ℕ) :
    pipeGetById k id = none := by
  unfold pipeGetById findPipeById
  split
  · rfl
  · simp [h]

theorem attachPipe_none (h : ∀ i, (k.pipes i).used = false) (p fd id : ℕ) (w : Bool) :
    attachPipe k p fd id w = some k := by
  unfold attachPipe
  rw [pipeGetById_none h]
  simp

theorem setFd_terminal (h : ∀ i, k.fdType p i = .terminal) (i : ℕ) (pipe : Option ℕ) :
    ∃ fdp, setFd k p i .terminal pipe = { k with fdPipe := fdp } := by
  have heq : update k.fdType p (update (k.fdType p) i .terminal) = k.fdType := by
    rw [← h i, Function.update_eq_self, Function.update_eq_self]
  exact ⟨_, by rw [setFd, heq]⟩

theorem inheritFds_terminal (h : ∀ p i, k.fdType p i = .terminal) (p : ℕ) (r : SpawnRequest)
    (is : List ℕ) : ∃ fdp, inheritFds k p r is = some { k with fdPipe := fdp } := by
  induction is generalizing k with
  | nil => exact ⟨k.fdPipe, rfl⟩
  | cons i is ih =>
      have hstep : ∃ fdp, (if (i = 0 ∧ r.stdinPipeId ≠ 0) ∨ (i = 1 ∧ r.stdoutPipeId ≠ 0) then some k
          else inheritFd k p r.parent i) = some { k with fdPipe := fdp } := by
        split
        · exact ⟨k.fdPipe, rfl⟩
        · obtain ⟨fdp, hset⟩ := setFd_terminal (h p) i none
          exact ⟨fdp, by rw [inheritFd, h r.parent i, hset]⟩
      obtain ⟨fdp, hstep⟩ := hstep
      obtain ⟨fdp', hrest⟩ := ih (k := { k with fdPipe := fdp }) h
      exact ⟨fdp', by rw [inheritFds, hstep, Option.bind_eq_bind, Option.bind_some, hrest]⟩

/-- The first child of every process after a creation. -/
def createdFirstChild (k : Kernel) (r : SpawnRequest) : ℕ → ℕ :=
  if r.parent = 0 then update k.firstChild r.pcb 0
  else update (update k.firstChild r.pcb 0) r.parent r.pcb

/-- The child that the created process precedes. -/
def createdSibling (k : Kernel) (r : SpawnRequest) : ℕ :=
  if r.parent = 0 then 0 else update k.firstChild r.pcb 0 r.parent

def createdPrevSibling (k : Kernel) (r : SpawnRequest) : ℕ → ℕ :=
  if createdSibling k r = 0 then update k.prevSibling r.pcb 0
  else update (update k.prevSibling r.pcb 0) (createdSibling k r) r.pcb

/-- The state after the creation of a process with the given priorities. -/
abbrev createdKernel (k : Kernel) (r : SpawnRequest) (pr : Priority)
    (fdp : ℕ → ℕ → Option ℕ) : Kernel :=
  { k with
    allocated := update k.allocated r.pcb true
    pid := update k.pid r.pcb k.nextPid
    nextPid := k.nextPid + 1
    state := update k.state r.pcb .ready
    priority := update k.priority r.pcb pr
    basePriority := update k.basePriority r.pcb pr
    waitTicks := update k.waitTicks r.pcb 0
    rsp := update k.rsp r.pcb (setupProcessContext (r.stack + processKernelStackSize))
    rbp := update k.rbp r.pcb (r.stack + processKernelStackSize)
    waitingOnPid := update k.waitingOnPid r.pcb 0
    isForeground := update k.isForeground r.pcb r.isForeground
    parent := update k.parent r.pcb r.parent
    firstChild := createdFirstChild k r
    nextSibling := update k.nextSibling r.pcb (createdSibling k r)
    prevSibling := createdPrevSibling k r
    queueNext := update k.queueNext r.pcb 0
    queuePrev := update k.queuePrev r.pcb 0
    waitersHead := update k.waitersHead r.pcb 0
    waiterNext := update k.waiterNext r.pcb 0
    waitingOnSem := update k.waitingOnSem r.pcb 0
    semWaiterNext := update k.semWaiterNext r.pcb 0
    fdPipe := fdp }

theorem clearPcb_fdType (h : ∀ p i, k.fdType p i = .terminal) (p : ℕ) :
    (update k.fdType p fun _ => .terminal) = k.fdType := by
  rw [← funext (h p), Function.update_eq_self]

theorem enterPcb_eq (hterm : ∀ p i, k.fdType p i = .terminal) {r : SpawnRequest}
    {fdp : ℕ → ℕ → Option ℕ} :
    enterPcb { initPcb k r with fdPipe := fdp } r =
      createdKernel k r processPriorityDefault fdp := by
  unfold enterPcb initPcb clearPcb
  by_cases hpar : r.parent = 0
  · simp [createdFirstChild, createdSibling, createdPrevSibling, hpar, clearPcb_fdType hterm]
  · by_cases hsib : update k.firstChild r.pcb 0 r.parent = 0
    · simp [linkChild, createdFirstChild, createdSibling, createdPrevSibling, hpar, hsib,
        clearPcb_fdType hterm]
    · simp [linkChild, createdFirstChild, createdSibling, createdPrevSibling, hpar, hsib,
        clearPcb_fdType hterm]

/-- `process_create` without pipes: it fails before or after it has cleared the memory of
the control block, or it creates a process. -/
theorem processCreate_spec (hterm : ∀ p i, k.fdType p i = .terminal)
    (hpipes : ∀ i, (k.pipes i).used = false) (r : SpawnRequest) :
    processCreate k r = some (0, k) ∨
    (r.pcb ≠ 0 ∧ processCreate k r = some (0, clearPcb k r.pcb)) ∨
    (r.pcb ≠ 0 ∧ ∃ fdp, processCreate k r =
      some (r.pcb, createdKernel k r processPriorityDefault fdp)) := by
  unfold processCreate
  by_cases hentry : r.entryPoint = 0
  · exact Or.inl (if_pos hentry)
  rw [if_neg hentry]
  by_cases hpcb : r.pcb = 0
  · exact Or.inl (if_pos hpcb)
  rw [if_neg hpcb]
  by_cases hstack : r.stack = 0
  · exact Or.inr (Or.inl ⟨hpcb, if_pos hstack⟩)
  refine Or.inr (Or.inr ⟨hpcb, ?_⟩)
  have hinit : ∀ p i, (initPcb k r).fdType p i = .terminal := by
    intro p i
    simp only [initPcb, clearPcb, clearPcb_fdType hterm]
    exact hterm p i
  have hfds : ∃ fdp, (if r.parent ≠ 0 then inheritFds (initPcb k r) r.pcb r (List.range maxFds)
      else some (initPcb k r)) = some { initPcb k r with fdPipe := fdp } := by
    split
    · exact inheritFds_terminal hinit _ _ _
    · exact ⟨_, rfl⟩
  obtain ⟨fdp, hfds⟩ := hfds
  refine ⟨fdp, ?_⟩
  rw [if_neg hstack]
  simp only [Option.bind_eq_bind]
  rw [attachPipe_none (by exact hpipes), Option.bind_some, attachPipe_none (by exact hpipes),
    Option.bind_some, hfds, Option.bind_some]
  rw [enterPcb_eq hterm]

/-- Making a created process ready. -/
theorem QueuesAgree.enter (h : QueuesAgree k c Q) {r : SpawnRequest} (hp0 : r.pcb ≠ 0)
    (hlt : r.pcb < addressCount) (hfresh : k.allocated r.pcb = false) (pr : Priority)
    (fdp : ℕ → ℕ → Option ℕ) :
    ∃ l Q', readyQueuePush (createdKernel k r pr fdp) r.pcb =
        some ((createdKernel k r pr fdp).relink l) ∧
      QueuesAgree ((createdKernel k r pr fdp).relink l) c Q' := by
  have hnot : ∀ q, r.pcb ∉ Q q := fun q hm => by
    rw [(h.of_mem hm).1] at hfresh
    cases hfresh
  have halloc : ∀ a, k.allocated a = true → a ≠ r.pcb := fun a ha e => by
    rw [e, hfresh] at ha
    cases ha
  obtain ⟨l, heq, hrings, hmem⟩ := readyQueuePush_spec (c := c) (createdKernel k r pr fdp)
    (h.rings.update_links hnot 0 0)
    ((h.members.exempt r.pcb).congr (fun a ha => Function.update_of_ne ha _ _)
      (fun a ha => Function.update_of_ne ha _ _) (fun a ha => Function.update_of_ne ha _ _))
    (Function.update_self ..) ⟨hp0, hlt⟩ (Function.update_self ..) (fun q _ => hnot q)
  refine ⟨l, _, heq, hrings, hmem, ?_, ?_, ?_, h.terminals, h.noPipes⟩
  · intro a ha
    by_cases hap : a = r.pcb
    · exact hap ▸ ⟨hp0, hlt⟩
    · dsimp only at ha
      rw [Function.update_of_ne hap] at ha
      exact h.valid a ha
  · intro hidle
    obtain ⟨ha, hs⟩ := h.idle hidle
    dsimp only
    rw [Function.update_of_ne (halloc _ ha), Function.update_of_ne (halloc _ ha)]
    exact ⟨ha, hs⟩
  · intro hc
    obtain ⟨ha, hidle⟩ := h.current hc
    dsimp only
    rw [Function.update_of_ne (halloc _ ha)]
    exact ⟨ha, hidle⟩

/-- The memory of a control block that is not in use may change. -/
theorem QueuesAgree.clearPcb (h : QueuesAgree k c Q) (hfresh : k.allocated p = false) :
    QueuesAgree (clearPcb k p) c Q := by
  have hnot : ∀ q, p ∉ Q q := fun q hm => by
    rw [(h.of_mem hm).1] at hfresh
    cases hfresh
  have hne : ∀ a, k.allocated a = true → a ≠ p := fun a ha e => by
    rw [e, hfresh] at ha
    cases ha
  refine ⟨h.rings.update_links hnot 0 0, ?_, h.valid, ?_, h.current, ?_, h.noPipes⟩
  · refine ((h.members.exempt p).congr (fun _ _ => rfl)
      (fun a ha => Function.update_of_ne ha _ _) (fun a ha => Function.update_of_ne ha _ _)).settle
      hnot ?_ ?_
    · simp [SoKernel.clearPcb]
    · simp [SoKernel.clearPcb]
  · intro hidle
    obtain ⟨ha, hs⟩ := h.idle hidle
    refine ⟨ha, ?_⟩
    simp only [SoKernel.clearPcb, Function.update_of_ne (hne _ ha)]
    exact hs
  · intro a i
    simp only [SoKernel.clearPcb, clearPcb_fdType h.terminals]
    exact h.terminals a i

/-- The results of `mm_alloc` that a creation can meet: a failure, or the address of memory
that no process occupies; the parent is `NULL` or a process. -/
def ValidRequest (k : Kernel) (r : SpawnRequest) : Prop :=
  (r.pcb ≠ 0 → r.pcb < addressCount ∧ k.allocated r.pcb = false) ∧
    (r.parent ≠ 0 → k.allocated r.parent = true)

/-- What `scheduler_spawn_process` does. -/
inductive SpawnEffect (k : Kernel) (r : SpawnRequest) : ℕ → Kernel → Prop
  | failed : SpawnEffect k r 0 k
  | cleared (hpcb : r.pcb ≠ 0) : SpawnEffect k r 0 (clearPcb k r.pcb)
  | created (hpcb : r.pcb ≠ 0) (fdp : ℕ → ℕ → Option ℕ) (l : Links) :
      SpawnEffect k r r.pcb ((createdKernel k r (clampPriority r.priority) fdp).relink l)

theorem schedulerSpawnProcess_spec (h : QueuesAgree k c Q) {r : SpawnRequest}
    (hr : ValidRequest k r) :
    ∃ p k' Q', schedulerSpawnProcess k r = some (p, k') ∧ QueuesAgree k' c Q' ∧
      SpawnEffect k r p k' := by
  unfold schedulerSpawnProcess
  rcases processCreate_spec h.terminals h.noPipes r with heq | ⟨hpcb, heq⟩ | ⟨hpcb, fdp, heq⟩
  · exact ⟨0, k, Q, by rw [heq]; rfl, h, .failed⟩
  · exact ⟨0, _, Q, by rw [heq]; rfl, h.clearPcb (hr.1 hpcb).2, .cleared hpcb⟩
  · obtain ⟨hlt, hfresh⟩ := hr.1 hpcb
    have hidle : r.pcb ≠ k.idleP := by
      intro e
      by_cases hi : k.idleP = 0
      · exact hpcb (e.trans hi)
      · rw [e, (h.idle hi).1] at hfresh
        cases hfresh
    obtain ⟨l, Q', hpush, hagree⟩ := h.enter hpcb hlt hfresh (clampPriority r.priority) fdp
    refine ⟨r.pcb, _, Q', ?_, hagree, .created hpcb fdp l⟩
    rw [heq]
    simp only [Option.bind_eq_bind, Option.bind_some, schedulerAddProcess, hpcb, hidle, or_self,
      if_false, Function.update_idem]
    rw [hpush, Option.bind_some]

end Create

section Block

/-- Changing the state of a process that is in no queue to one that needs no queue. -/
theorem QueuesAgree.setCurrent (h : QueuesAgree k k.current Q) (hidle : k.current ≠ k.idleP)
    (hr : k.state k.current ≠ .ready) (hf : k.state k.current ≠ .finished) (b : Bool) :
    QueuesAgree
      { k with
        state := update k.state k.current .blocked
        needResched := b } k.current Q := by
  have hfree : ∀ q, k.current ∉ Q q := by
    intro q hm
    cases q with
    | ready i => exact hr (h.of_mem hm).2
    | blocked => exact ((h.members.blocked _ (by simp)).mp hm).2.2 rfl
    | finished => exact hf (h.of_mem hm).2
  refine ⟨h.rings, ((h.members.exempt k.current).setState .blocked).settle hfree ?_ ?_, h.valid, ?_,
    h.current, h.terminals, h.noPipes⟩
  · simp
  · exact fun _ => rfl
  · intro hid
    dsimp only
    rw [Function.update_of_ne (Ne.symm hidle)]
    exact h.idle hid

/-- The current process may block: it is neither in a ready queue nor finished. -/
def CanBlock (k : Kernel) : Prop :=
  k.current = 0 ∨ k.current = k.idleP ∨
    (k.state k.current ≠ .ready ∧ k.state k.current ≠ .finished)

theorem schedulerBlockCurrent_spec (h : QueuesAgree k k.current Q) (hb : CanBlock k) :
    QueuesAgree (schedulerBlockCurrent k) k.current Q := by
  unfold schedulerBlockCurrent
  by_cases hc : k.current = 0 ∨ k.current = k.idleP
  · rw [if_pos hc]
    exact h
  · rw [if_neg hc]
    rw [not_or] at hc
    obtain ⟨hr, hf⟩ := (hb.resolve_left hc.1).resolve_left hc.2
    exact h.setCurrent hc.2 hr hf true

theorem schedulerFinishCurrent_spec (h : QueuesAgree k k.current Q)
    (hr : k.state k.current ≠ .ready) :
    ∃ k', schedulerFinishCurrent k = some k' ∧ QueuesAgree k' k.current Q ∧
      (k' = k ∨ k.current ≠ 0 ∧ k.current ≠ k.idleP ∧ k' =
        { k with
          state := update k.state k.current .finished
          needResched := true }) := by
  unfold schedulerFinishCurrent
  by_cases hc : k.current = 0 ∨ k.current = k.idleP
  · exact ⟨k, if_pos hc, h, Or.inl rfl⟩
  · rw [if_neg hc, processCloseFds_terminal (h.terminals _)]
    rw [not_or] at hc
    refine ⟨_, rfl, ?_, Or.inr ⟨hc.1, hc.2, rfl⟩⟩
    have hfree : ∀ q, q ≠ .finished → k.current ∉ Q q := by
      intro q hq hm
      cases q with
      | ready i => exact hr (h.of_mem hm).2
      | blocked => exact ((h.members.blocked _ (by simp)).mp hm).2.2 rfl
      | finished => exact hq rfl
    have hm := (h.members.exempt k.current).setState .finished
    refine ⟨h.rings, ⟨fun i p _ => ?_, fun p _ => ?_, fun p _ hp => ?_⟩, h.valid, ?_, h.current,
      h.terminals, h.noPipes⟩
    · by_cases hpc : p = k.current
      · subst hpc
        simp [hfree (.ready i) (by simp)]
      · exact hm.ready i p hpc
    · by_cases hpc : p = k.current
      · subst hpc
        simp [hfree .blocked (by simp)]
      · exact hm.blocked p hpc
    · by_cases hpc : p = k.current
      · subst hpc
        exact ⟨(h.current hc.1).1, Function.update_self ..⟩
      · exact hm.finished p hpc hp
    · intro hid
      dsimp only
      rw [Function.update_of_ne (Ne.symm hc.2)]
      exact h.idle hid

/-- Blocking a ready process that does not run. -/
theorem QueuesAgree.blockReady (h : QueuesAgree k k.current Q) (ha : k.allocated p = true)
    (hidle : p ≠ k.idleP) (hcur : p ≠ k.current) (hs : k.state p = .ready) :
    ∃ l Q', (do
        let k ← processQueueRemove k (.ready (k.priority p)) p
        processQueuePush { k with state := update k.state p .blocked } .blocked p) =
          some ({ k with state := update k.state p .blocked }.relink l) ∧
      QueuesAgree ({ k with state := update k.state p .blocked }.relink l) k.current Q' := by
  have hv := h.valid p ha
  have hnodup := (h.rings.list (.ready (k.priority p))).nodup
  obtain ⟨nx, pv, qs, heq, hrings⟩ := processQueueRemove_spec (q := .ready (k.priority p)) (p := p)
    h.rings
  have hfree : ∀ q, p ∉ update Q (.ready (k.priority p)) ((Q (.ready (k.priority p))).erase p) q := by
    intro q hm
    rw [mem_lift hnodup] at hm
    by_cases hq : q = .ready (k.priority p)
    · exact hm.2 ⟨rfl, hq⟩
    · exact h.free_of_ready hs hq hm.1
  obtain ⟨nx', pv', qs', hpush, hrings'⟩ := processQueuePush_spec (q := .blocked)
    (k := { k with state := update k.state p .blocked }.relink ⟨nx, pv, qs⟩) hrings hv.1 hv.2
    (fun q _ => hfree q)
  refine ⟨⟨nx', pv', qs'⟩, _, ?_, hrings', ((((h.members.exempt p).lift hnodup).setState
    .blocked).put (fun q _ => hfree q) ?_ ?_ ?_), h.valid, ?_, h.current, h.terminals, h.noPipes⟩
  · rw [heq, Option.bind_eq_bind, Option.bind_some]
    exact hpush
  · simp
  · simp [ha, hcur]
  · intro he
    cases he
  · intro hid
    dsimp only
    rw [Function.update_of_ne (Ne.symm hidle)]
    exact h.idle hid

/-- What `scheduler_block_by_pid` and `scheduler_block_current` do to a process. -/
inductive BlockEffect (k : Kernel) : Kernel → Prop
  | kept : BlockEffect k k
  | blocked (p : ℕ) (ha : k.allocated p = true) (hf : k.state p ≠ .finished) (hidle : p ≠ k.idleP)
      (b : Bool) (l : Links) : BlockEffect k
        ({ k with
          state := update k.state p .blocked
          needResched := b }.relink l)

theorem schedulerBlockByPid_spec (h : QueuesAgree k k.current Q) (pid : ℕ)
    (hb : schedulerFindByPid k pid = some k.current → CanBlock k) :
    ∃ r k' Q', schedulerBlockByPid k pid = some (r, k') ∧ QueuesAgree k' k.current Q' ∧
      BlockEffect k k' := by
  obtain ⟨p, hfind, hp⟩ := schedulerFindByPid_spec h pid
  unfold schedulerBlockByPid
  rw [hfind, Option.bind_eq_bind, Option.bind_some]
  by_cases hnone : p = 0 ∨ p = k.idleP
  · exact ⟨0, k, Q, if_pos hnone, h, .kept⟩
  rw [if_neg hnone]
  rw [not_or] at hnone
  obtain ⟨ha, -⟩ := hp.resolve_left hnone.1
  by_cases hcur : p = k.current
  · subst hcur
    obtain ⟨hr, hf⟩ := ((hb hfind).resolve_left hnone.1).resolve_left hnone.2
    exact ⟨1, _, Q, if_pos rfl, h.setCurrent hnone.2 hr hf true,
      .blocked k.current ha hf hnone.2 true ⟨k.queueNext, k.queuePrev, k.queues⟩⟩
  rw [if_neg hcur]
  by_cases hs : k.state p = .ready
  · obtain ⟨l, Q', heq, hagree⟩ := h.blockReady ha hnone.2 hcur hs
    refine ⟨1, { k with
        state := update k.state p .blocked
        needResched := true }.relink l, Q', ?_, ⟨hagree.rings, hagree.members, hagree.valid,
      hagree.idle, hagree.current, hagree.terminals, hagree.noPipes⟩,
      .blocked p ha (by simp [hs]) hnone.2 true l⟩
    rw [if_pos hs]
    simp only [Option.bind_eq_bind] at heq ⊢
    rw [← Option.bind_assoc, heq, Option.bind_some]
  · exact ⟨1, k, Q, if_neg hs, h, .kept⟩

end Block

section Priority

theorem changePriority_spec (h : QueuesAgree k c Q) (ha : k.allocated p = true) (pr : Priority) :
    ∃ b l Q', changePriority k p pr = some
        ({ k with
          priority := update k.priority p pr
          basePriority := update k.basePriority p pr
          waitTicks := update k.waitTicks p 0
          needResched := b }.relink l) ∧
      QueuesAgree
        ({ k with
          priority := update k.priority p pr
          basePriority := update k.basePriority p pr
          waitTicks := update k.waitTicks p 0
          needResched := b }.relink l) c Q' := by
  suffices hmoved : ∃ l Q', (do
        let k ← (if k.state p = .ready then processQueueRemove k (.ready (k.priority p)) p
          else some k)
        let k := { k with
          priority := update k.priority p pr
          basePriority := update k.basePriority p pr
          waitTicks := update k.waitTicks p 0 }
        if k.state p = .ready then readyQueuePush k p else some k) = some
          ({ k with
            priority := update k.priority p pr
            basePriority := update k.basePriority p pr
            waitTicks := update k.waitTicks p 0 }.relink l) ∧
        QueuesAgree
          ({ k with
            priority := update k.priority p pr
            basePriority := update k.basePriority p pr
            waitTicks := update k.waitTicks p 0 }.relink l) c Q' by
    obtain ⟨l, Q', heq, hagree⟩ := hmoved
    refine ⟨if k.current ≠ 0 ∧ update k.priority p pr k.current < update k.priority p pr p then true
      else k.needResched, l, Q', ?_, hagree.rings, hagree.members, hagree.valid, hagree.idle,
      hagree.current, hagree.terminals, hagree.noPipes⟩
    unfold changePriority
    simp only [Option.bind_eq_bind] at heq ⊢
    rw [← Option.bind_assoc, heq, Option.bind_some]
    split <;> rfl
  by_cases hs : k.state p = .ready
  · have hnodup := (h.rings.list (.ready (k.priority p))).nodup
    obtain ⟨nx, pv, qs, heq, hrings⟩ := processQueueRemove_spec (q := .ready (k.priority p)) (p := p)
      h.rings
    have hfree : ∀ q,
        p ∉ update Q (.ready (k.priority p)) ((Q (.ready (k.priority p))).erase p) q := by
      intro q hm
      rw [mem_lift hnodup] at hm
      by_cases hq : q = .ready (k.priority p)
      · exact hm.2 ⟨rfl, hq⟩
      · exact h.free_of_ready hs hq hm.1
    obtain ⟨l, hpush, hrings', hmem⟩ := readyQueuePush_spec
      ({ k with
        priority := update k.priority p pr
        basePriority := update k.basePriority p pr
        waitTicks := update k.waitTicks p 0 }.relink ⟨nx, pv, qs⟩) hrings
      (((h.members.exempt p).lift hnodup).setPriority pr) ha (h.valid p ha) hs
      (fun q _ => hfree q)
    refine ⟨l, _, ?_, hrings', hmem, h.valid, h.idle, h.current, h.terminals, h.noPipes⟩
    rw [if_pos hs, heq, Option.bind_eq_bind, Option.bind_some]
    simp only [hs, if_true]
    exact hpush
  · refine ⟨⟨k.queueNext, k.queuePrev, k.queues⟩, Q, ?_, h.rings, ⟨fun i a _ => ?_,
      h.members.blocked, h.members.finished⟩, h.valid, h.idle, h.current, h.terminals, h.noPipes⟩
    · simp [hs]
    · by_cases hap : a = p
      · subst hap
        simp [h.not_mem (q := .ready i) hs, hs]
      · dsimp only
        rw [Function.update_of_ne hap]
        exact h.members.ready i a (by simp)

theorem schedulerSetPriority_spec (h : QueuesAgree k c Q) (pid newPriority : ℕ) :
    ∃ r k' Q', schedulerSetPriority k pid newPriority = some (r, k') ∧ QueuesAgree k' c Q' ∧
      ∃ prio base wt b l, k' =
        ({ k with
          priority := prio
          basePriority := base
          waitTicks := wt
          needResched := b }.relink l) := by
  obtain ⟨p, hfind, hp⟩ := schedulerFindByPid_spec h pid
  have hkept : ∃ prio base wt b l, k =
      ({ k with
        priority := prio
        basePriority := base
        waitTicks := wt
        needResched := b }.relink l) :=
    ⟨k.priority, k.basePriority, k.waitTicks, k.needResched, ⟨k.queueNext, k.queuePrev, k.queues⟩,
      rfl⟩
  unfold schedulerSetPriority
  rw [hfind, Option.bind_eq_bind, Option.bind_some]
  by_cases hnone : p = 0 ∨ p = k.idleP
  · exact ⟨0, k, Q, if_pos hnone, h, hkept⟩
  rw [if_neg hnone]
  rw [not_or] at hnone
  by_cases hsame : k.priority p = clampPriority newPriority
  · exact ⟨1, k, Q, if_pos hsame, h, hkept⟩
  obtain ⟨b, l, Q', heq, hagree⟩ := changePriority_spec h (hp.resolve_left hnone.1).1
    (clampPriority newPriority)
  refine ⟨1, _, Q', ?_, hagree, _, _, _, b, l, rfl⟩
  rw [if_neg hsame, heq, Option.bind_eq_bind, Option.bind_some]

end Priority

section Kill

/-- The state after a kill, up to the links of the queues. -/
abbrev killedKernel (k : Kernel) (p : ℕ) (L : List ℕ) (fg : ℕ → Bool) (b : Bool) : Kernel :=
  { k with
    isForeground := fg
    waitersHead := update k.waitersHead p 0
    waiterNext := setAll L 0 k.waiterNext
    waitingOnPid := setAll L 0 k.waitingOnPid
    state := setAll L .ready (update k.state p .finished)
    needResched := b }

/-- The first part of a kill takes the process out of its queue. -/
theorem QueuesAgree.removeKilled (h : QueuesAgree k k.current Q) (ha : k.allocated p = true)
    (hidle : p ≠ k.idleP) :
    ∃ l Q', (if k.state p = .ready then processQueueRemove k (.ready (k.priority p)) p
        else if k.state p = .blocked then processQueueRemove k .blocked p
        else some k) = some (k.relink l) ∧
      QueuesAgree ({ k with state := update k.state p .finished }.relink l) k.current Q' := by
  have hidle' : k.idleP ≠ 0 → k.allocated k.idleP = true ∧
      (update k.state p .finished k.idleP = .running ∨
        update k.state p .finished k.idleP = .ready) := by
    intro hid
    rw [Function.update_of_ne (Ne.symm hidle)]
    exact h.idle hid
  -- Taking the process out of the queue of its state leaves it in none.
  have remove (q : QueueId) (hfree : ∀ q', q' ≠ q → p ∉ Q q') :
      ∃ l Q', processQueueRemove k q p = some (k.relink l) ∧
        QueuesAgree ({ k with state := update k.state p .finished }.relink l) k.current Q' := by
    have hnodup := (h.rings.list q).nodup
    obtain ⟨nx, pv, qs, heq, hrings⟩ := processQueueRemove_spec (q := q) (p := p) h.rings
    refine ⟨⟨nx, pv, qs⟩, _, heq, hrings, (((h.members.exempt p).lift hnodup).setState
      .finished).settle ?_ ?_ ?_, h.valid, hidle', h.current, h.terminals, h.noPipes⟩
    · intro q' hm
      rw [mem_lift hnodup] at hm
      by_cases hq : q' = q
      · exact hm.2 ⟨rfl, hq⟩
      · exact hfree q' hq hm.1
    · simp
    · simp
  by_cases hr : k.state p = .ready
  · rw [if_pos hr]
    exact remove _ fun q hq => h.free_of_ready hr hq
  rw [if_neg hr]
  by_cases hb : k.state p = .blocked
  · rw [if_pos hb]
    exact remove _ fun q hq => h.free_of_blocked hb hq
  rw [if_neg hb]
  have hm := (h.members.exempt p).setState .finished
  refine ⟨⟨k.queueNext, k.queuePrev, k.queues⟩, Q, rfl, h.rings, ⟨fun i a _ => ?_, fun a _ => ?_,
    fun a _ hmem => ?_⟩, h.valid, hidle', h.current, h.terminals, h.noPipes⟩
  · by_cases hap : a = p
    · subst hap
      simp [h.not_mem (q := .ready i) hr]
    · exact hm.ready i a hap
  · by_cases hap : a = p
    · subst hap
      simp [h.not_mem (q := .blocked) hb]
    · exact hm.blocked a hap
  · by_cases hap : a = p
    · subst hap
      exact ⟨ha, Function.update_self ..⟩
    · exact hm.finished a hap hmem

theorem killProcess_spec (h : QueuesAgree k k.current Q) (ha : k.allocated p = true)
    (hidle : p ≠ k.idleP) (hL : WaitersAwake k p L) :
    ∃ fg b l Q', killProcess k p = some ((killedKernel k p L fg b).relink l) ∧
      QueuesAgree ((killedKernel k p L fg b).relink l) k.current Q' := by
  have hv := h.valid p ha
  have hnot : p ∉ L := fun hm => (hL.awake _ hm).1 rfl
  have hfg : ∃ fg, (if parentTakesForeground k p then
      { k with isForeground := update k.isForeground (k.parent p) true } else k) =
        { k with isForeground := fg } := by
    split
    · exact ⟨_, rfl⟩
    · exact ⟨k.isForeground, rfl⟩
  obtain ⟨fg, hfg⟩ := hfg
  have hk : QueuesAgree { k with isForeground := fg } k.current Q :=
    ⟨h.rings, h.members, h.valid, h.idle, h.current, h.terminals, h.noPipes⟩
  obtain ⟨l₁, Q₁, hremove, hagree₁⟩ := hk.removeKilled ha hidle
  have hL₁ : WaitersAwake ({ k with
      isForeground := fg
      state := update k.state p .finished }.relink l₁) p L := by
    refine ⟨hL.chain, fun w hw => ?_⟩
    obtain ⟨hwp, hwa, hws⟩ := hL.awake w hw
    dsimp only
    rw [Function.update_of_ne hwp]
    exact ⟨hwp, hwa, hws⟩
  obtain ⟨l₂, Q₂, hwake, hagree₂, -, -⟩ := wakeWaiters_spec addressCount hagree₁ hL₁
    (hL.length_lt h)
  have hstate : setAll L .ready (update k.state p .finished) p = .finished := by
    rw [setAll_of_not_mem _ _ hnot, Function.update_self]
  have hfree : ∀ q, q ≠ .finished → p ∉ Q₂ q := fun q hq => hagree₂.free_of_finished hstate hq
  obtain ⟨nx, pv, qs, hpush, hrings⟩ := processQueuePush_spec hagree₂.rings hv.1 hv.2 hfree
  refine ⟨fg, if p = k.current then true else k.needResched, ⟨nx, pv, qs⟩, _, ?_, hrings,
    (hagree₂.members.exempt p).put hfree ?_ ?_ ?_, hagree₂.valid, hagree₂.idle, hagree₂.current,
    hagree₂.terminals, hagree₂.noPipes⟩
  · rw [killProcess, processCloseFds_terminal (h.terminals p), Option.bind_eq_bind,
      Option.bind_some]
    simp only [hfg]
    rw [hremove]
    simp only [Option.bind_some]
    rw [hwake]
    simp only [Option.bind_some]
    rw [hpush, Option.bind_some]
    split <;> rfl
  · simp [hstate]
  · simp [hstate]
  · exact fun _ => ⟨ha, hstate⟩

/-- What `scheduler_kill_by_pid` does, with the waiters of the killed process. -/
inductive KillEffect (k : Kernel) (pid : ℕ) : Kernel → Prop
  | missing : KillEffect k pid k
  | killed (p : ℕ) (hfind : schedulerFindByPid k pid = some p) (ha : k.allocated p = true)
      (hidle : p ≠ k.idleP) (L : List ℕ) (hL : WaitersAwake k p L) (fg : ℕ → Bool) (b : Bool)
      (l : Links) : KillEffect k pid ((killedKernel k p L fg b).relink l)

theorem schedulerKillByPid_spec (h : QueuesAgree k k.current Q) (pid : ℕ)
    (hsafe : ∀ p, schedulerFindByPid k pid = some p → p ≠ 0 →
      p ≠ k.idleP ∧ ∃ L, WaitersAwake k p L) :
    ∃ r k' Q', schedulerKillByPid k pid = some (r, k') ∧ QueuesAgree k' k.current Q' ∧
      KillEffect k pid k' := by
  obtain ⟨p, hfind, hp⟩ := schedulerFindByPid_spec h pid
  unfold schedulerKillByPid
  rw [hfind, Option.bind_eq_bind, Option.bind_some]
  by_cases hp0 : p = 0
  · exact ⟨0, k, Q, if_pos hp0, h, .missing⟩
  obtain ⟨ha, -⟩ := hp.resolve_left hp0
  obtain ⟨hidle, L, hL⟩ := hsafe p hfind hp0
  obtain ⟨fg, b, l, Q', heq, hagree⟩ := killProcess_spec h ha hidle hL
  refine ⟨1, _, Q', ?_, hagree, .killed p hfind ha hidle L hL fg b l⟩
  rw [if_neg hp0, heq, Option.bind_eq_bind, Option.bind_some]

end Kill
end SoKernel
