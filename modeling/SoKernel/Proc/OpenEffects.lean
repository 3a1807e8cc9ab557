import SoKernel.Ipc.Shapes
import SoKernel.Proc.Open

/-!
# What a call does under an open scheduler

The effect of every call of `SoKernel.Proc.Open`, up to the part of the state that belongs
to the scheduler. Unlike the effects in `SoKernel.Proc.Effects` they need no agreement
between the queues and the process states, only that no process has an open pipe.
-/

namespace SoKernel

open Function (update)

variable {k k' : Kernel} {p i : ℕ} {L dead : List ℕ} {ch : Choice}

/-- The scheduler's part of a state. -/
def Kernel.ownSched (k : Kernel) : Sched :=
  ⟨k.priority, k.basePriority, k.waitTicks, k.rsp, k.rbp, k.needResched, k.lastSwitchTick, k.ticks,
    ⟨k.queueNext, k.queuePrev, k.queues⟩⟩

/-- No process has an open pipe, the current process and the idle process exist, and the
idle process never finishes. -/
structure Orderly (k : Kernel) : Prop where
  terminals : ∀ p i, k.fdType p i = .terminal
  noPipes : ∀ i, (k.pipes i).used = false
  valid : ∀ p, k.allocated p = true → p ≠ 0
  current : k.allocated k.current = true
  idle : k.allocated k.idleP = true ∧ k.state k.idleP ≠ .finished

section Waiters

/-- The processes that the loop over the waiters of a process meets: each link is cut as
soon as it was followed. -/
inductive WakeList : (ℕ → ℕ) → ℕ → List ℕ → Prop
  | nil {nx} : WakeList nx 0 []
  | cons {nx w L} (ne : w ≠ 0) (rest : WakeList (update nx w 0) (nx w) L) : WakeList nx w (w :: L)

/-- In a list without repetitions every waiter is met. -/
theorem WakeList.eq_of_chain {nx : ℕ → ℕ} {h : ℕ} (hwake : WakeList nx h L) {M : List ℕ}
    (hchain : LinkedList.Chain nx 0 h M) : L = M := by
  induction hwake generalizing M with
  | nil =>
      cases M with
      | nil => rfl
      | cons x M => exact absurd hchain.1.symm hchain.2.1
  | @cons nx w L ne rest ih =>
      cases M with
      | nil => exact absurd hchain ne
      | cons x M =>
          obtain ⟨rfl, -, htail⟩ := id hchain
          have hnot : w ∉ M := (List.nodup_cons.mp hchain.nodup).1
          rw [ih (htail.congr fun y hy => ?_)]
          have hyw : y ≠ w := fun e => hnot (e ▸ hy)
          exact Function.update_of_ne hyw _ _

theorem wakeWaiters_shape {n : ℕ} (h : wakeWaiters p n k = some k') :
    ∃ L l, WakeList k.waiterNext (k.waitersHead p) L ∧ k' =
      { k with
        waitersHead := update k.waitersHead p 0
        waiterNext := setAll L 0 k.waiterNext
        waitingOnPid := setAll L 0 k.waitingOnPid
        state := setAll L .ready k.state }.relink l := by
  induction n generalizing k with
  | zero => cases h
  | succ n ih =>
      rw [wakeWaiters] at h
      by_cases hw : k.waitersHead p = 0
      · rw [if_pos hw, Option.some_inj] at h
        subst h
        refine ⟨[], ⟨k.queueNext, k.queuePrev, k.queues⟩, hw ▸ .nil, ?_⟩
        simp only [setAll_nil]
        rw [← hw, Function.update_eq_self]
      · rw [if_neg hw, Option.bind_eq_bind] at h
        obtain ⟨k₁, hpush, hrest⟩ := Option.bind_eq_some_iff.mp h
        obtain ⟨l, rfl⟩ := readyQueuePush_shape hpush
        obtain ⟨L, l', hwake, rfl⟩ := ih hrest
        refine ⟨k.waitersHead p :: L, l', .cons hw ?_, ?_⟩
        · simpa using hwake
        · simp only [setAll_cons, Function.update_idem]

end Waiters

section Save

/-- The foreground flags after the death of a process. -/
def flagsAfter (k : Kernel) (p : ℕ) : ℕ → Bool :=
  if parentTakesForeground k p then update k.isForeground (k.parent p) true else k.isForeground

/-- Whether `save_context` gives the foreground back and empties the keyboard buffer. -/
def savesForeground (k : Kernel) : Bool :=
  decide (k.state k.current = .finished) && parentTakesForeground k k.current

/-- The semaphores after `keyboard_clear_buffer`. -/
def clearedSemaphores (k : Kernel) : ℕ → Semaphore :=
  match semGetById k k.kbdSemId with
  | none => k.semaphores
  | some i => update k.semaphores i { k.semaphores i with value := 0 }

theorem keyboardClearBuffer_eq (k : Kernel) :
    keyboardClearBuffer k = some
      { k with
        keyboard := bufferClear k.keyboard
        semaphores := clearedSemaphores k } := by
  unfold keyboardClearBuffer clearedSemaphores
  by_cases hid : k.kbdSemId ≠ 0
  · have hget : semGetById { k with keyboard := bufferClear k.keyboard } k.kbdSemId =
        semGetById k k.kbdSemId := rfl
    simp only [if_pos hid, semSetById, hget]
    cases semGetById k k.kbdSemId with
    | none => rfl
    | some i => simp [awakenLoop]
  · have hnone : semGetById k k.kbdSemId = none := by
      rw [not_not] at hid
      rw [semGetById, if_pos hid]
    simp only [if_neg hid, hnone]

/-- The waiters that `save_context` wakes. -/
def Woken (k : Kernel) (L : List ℕ) : Prop :=
  if k.state k.current = .finished then WakeList k.waiterNext (k.waitersHead k.current) L
  else L = []

/-- The state after `save_context`. -/
abbrev savedBy (k : Kernel) (L : List ℕ) : Kernel :=
  { k with
    isForeground := if savesForeground k then update k.isForeground (k.parent k.current) true
      else k.isForeground
    keyboard := if savesForeground k then bufferClear k.keyboard else k.keyboard
    semaphores := if savesForeground k then clearedSemaphores k else k.semaphores
    waitersHead := if k.state k.current = .finished then update k.waitersHead k.current 0
      else k.waitersHead
    waiterNext := setAll L 0 k.waiterNext
    waitingOnPid := setAll L 0 k.waitingOnPid
    state := savedState k k.current L }

theorem savedBy_unfinished (hs : k.state k.current ≠ .finished) :
    savedBy k [] =
      { k with
        state := if k.state k.current = .running ∧ k.current ≠ k.idleP then
          update k.state k.current .ready else k.state } := by
  have hsaves : savesForeground k = false := by simp [savesForeground, hs]
  simp only [savedBy, hsaves, Bool.false_eq_true, if_false, if_neg hs, setAll_nil, savedState]

theorem saveContext_shape {frame : Frame} (hc : k.current ≠ 0)
    (h : saveContext k k.current frame = some k') :
    ∃ L s, Woken k L ∧ k' = (savedBy k L).resched s := by
  unfold saveContext at h
  rw [if_neg hc] at h
  have hquiet : k.state k.current ≠ .finished →
      k' = Kernel.resched
        { k with
          state := if k.state k.current = .running ∧ k.current ≠ k.idleP then
            update k.state k.current .ready else k.state } k'.ownSched →
      ∃ L s, Woken k L ∧ k' = (savedBy k L).resched s := by
    intro hs heq
    refine ⟨[], k'.ownSched, by rw [Woken, if_neg hs], ?_⟩
    rw [savedBy_unfinished hs]
    exact heq
  cases hs : k.state k.current with
  | running =>
      refine hquiet (by simp [hs]) ?_
      simp only [hs] at h
      by_cases hidle : k.current = k.idleP
      · rw [if_neg (not_not.mpr hidle), Option.some_inj] at h
        subst h
        simp only [hidle, ne_eq, not_true_eq_false, and_false, if_false]
        rfl
      · rw [if_pos hidle] at h
        obtain ⟨l, rfl⟩ := readyQueuePush_shape h
        simp only [hs, hidle, ne_eq, not_false_eq_true, and_self, if_true]
        rfl
  | blocked =>
      refine hquiet (by simp [hs]) ?_
      simp only [hs] at h
      obtain ⟨l, rfl⟩ := processQueuePush_shape h
      simp only [hs, reduceCtorEq, false_and, if_false]
      rfl
  | finished =>
      simp only [hs, Option.bind_eq_bind] at h
      obtain ⟨k₁, hclear, hrest⟩ := Option.bind_eq_some_iff.mp h
      obtain ⟨k₂, hwake, hpush⟩ := Option.bind_eq_some_iff.mp hrest
      obtain ⟨L, l, hlist, rfl⟩ := wakeWaiters_shape hwake
      obtain ⟨l', hl'⟩ := processQueuePush_shape hpush
      have hstate : savedState k k.current L = setAll L .ready k.state := by
        simp only [savedState, hs, reduceCtorEq, false_and, if_false]
      have htakes : parentTakesForeground
          { k with
            rsp := update k.rsp k.current frame.rsp
            rbp := update k.rbp k.current (frame.word 10) } k.current =
          savesForeground k := by
        simp [savesForeground, hs, parentTakesForeground]
      rw [htakes] at hclear
      refine ⟨L, k'.ownSched, ?_, ?_⟩
      · rw [Woken, if_pos hs]
        split at hclear
        · rw [keyboardClearBuffer_eq, Option.some_inj] at hclear
          subst hclear
          exact hlist
        · rw [Option.some_inj] at hclear
          subst hclear
          exact hlist
      · simp only [savedBy, hstate, if_pos hs]
        split at hclear
        · rename_i hsaves
          rw [keyboardClearBuffer_eq, Option.some_inj] at hclear
          subst hclear
          simp only [hsaves, if_true]
          rw [hl']
          rfl
        · rename_i hsaves
          rw [Option.some_inj] at hclear
          subst hclear
          simp only [hsaves]
          rw [hl']
          rfl
  | new =>
      refine hquiet (by simp [hs]) ?_
      simp only [hs, Option.some_inj] at h
      subst h
      simp only [hs, reduceCtorEq, false_and, if_false]
      rfl
  | ready =>
      refine hquiet (by simp [hs]) ?_
      simp only [hs, Option.some_inj] at h
      subst h
      simp only [hs, reduceCtorEq, false_and, if_false]
      rfl

end Save

section Switch

/-- `process_destroy` of a process without open pipes. -/
def bury (k : Kernel) (p : ℕ) : Kernel :=
  { unlinkChild k p with allocated := update k.allocated p false }

theorem bury_resched (k : Kernel) (s : Sched) (p : ℕ) :
    bury (k.resched s) p = (bury k p).resched s := by
  have hunlink : unlinkChild (k.resched s) p = (unlinkChild k p).resched s := by
    unfold unlinkChild
    dsimp only
    split_ifs <;> rfl
  simp only [bury, hunlink]

theorem bury_shape (k : Kernel) (p : ℕ) :
    ∃ pa fc ns ps, bury k p =
      { k with
        parent := pa
        firstChild := fc
        nextSibling := ns
        prevSibling := ps
        allocated := update k.allocated p false } := by
  obtain ⟨pa, fc, ns, ps, h⟩ := unlinkChild_shape k p
  exact ⟨pa, fc, ns, ps, by rw [bury, h]⟩

theorem buryAll_resched (k : Kernel) (s : Sched) (dead : List ℕ) :
    dead.foldl bury (k.resched s) = (dead.foldl bury k).resched s := by
  induction dead generalizing k with
  | nil => rfl
  | cons p dead ih => rw [List.foldl_cons, bury_resched, ih, List.foldl_cons]

/-- Destroying processes changes the process tree and what is allocated. -/
theorem buryAll_shape (k : Kernel) (dead : List ℕ) :
    ∃ pa fc ns ps, dead.foldl bury k =
      { k with
        parent := pa
        firstChild := fc
        nextSibling := ns
        prevSibling := ps
        allocated := setAll dead false k.allocated } := by
  induction dead generalizing k with
  | nil => exact ⟨k.parent, k.firstChild, k.nextSibling, k.prevSibling, by rw [setAll_nil]; rfl⟩
  | cons p dead ih =>
      obtain ⟨pa, fc, ns, ps, h⟩ := bury_shape k p
      obtain ⟨pa', fc', ns', ps', h'⟩ := ih (bury k p)
      refine ⟨pa', fc', ns', ps', ?_⟩
      rw [List.foldl_cons, h', h, setAll_cons]

theorem destroyAll_eq (hclosed : ∀ p ∈ dead, ∀ i < maxFds, k.fdType p i = .terminal)
    (hne : ∀ p ∈ dead, p ≠ 0) : destroyAll dead k = some (dead.foldl bury k) := by
  induction dead generalizing k with
  | nil => rfl
  | cons p dead ih =>
      obtain ⟨pa, fc, ns, ps, hbury⟩ := bury_shape k p
      have hdestroy : processDestroy k p = some (bury k p) := by
        obtain ⟨pa', fc', ns', ps', hunlink⟩ := unlinkChild_shape k p
        rw [processDestroy, if_neg (hne p List.mem_cons_self),
          closeFds_terminal _ fun i hi => hclosed p List.mem_cons_self i (List.mem_range.mp hi),
          Option.bind_eq_bind, Option.bind_some, bury, hunlink]
      have hrest : ∀ q ∈ dead, ∀ i < maxFds, (bury k p).fdType q i = .terminal := by
        rw [hbury]
        exact fun q hq => hclosed q (List.mem_cons_of_mem p hq)
      rw [destroyAll, hdestroy, Option.bind_eq_bind, Option.bind_some,
        ih hrest fun q hq => hne q (List.mem_cons_of_mem p hq), List.foldl_cons]

/-- The state in which the processes of a context switch are collected. -/
abbrev switchedBy (k : Kernel) (L : List ℕ) (next : ℕ) : Kernel :=
  { savedBy k L with
    state := update (savedState k k.current L) next .running
    current := next }

/-- What a context switch does, with the waiters that it wakes. -/
structure Switched (k : Kernel) (ch : Choice) (L : List ℕ) (k' : Kernel) : Prop where
  running : k.current ≠ 0
  woken : Woken k L
  next_allocated : k.allocated ch.next = true
  next_ready : savedState k k.current L ch.next = .ready ∨ ch.next = k.idleP
  dead_nodup : ch.dead.Nodup
  dead : ∀ p ∈ ch.dead, k.allocated p = true ∧ savedState k k.current L p = .finished ∧ p ≠ ch.next
  result : k' = ch.dead.foldl bury (switchedBy k L ch.next)

section Components

variable (h : Switched k ch L k')
include h

theorem Switched.current : k'.current = ch.next := by
  obtain ⟨pa, fc, ns, ps, hshape⟩ := buryAll_shape (switchedBy k L ch.next) ch.dead
  rw [h.result, hshape]

theorem Switched.state : k'.state = update (savedState k k.current L) ch.next .running := by
  obtain ⟨pa, fc, ns, ps, hshape⟩ := buryAll_shape (switchedBy k L ch.next) ch.dead
  rw [h.result, hshape]

theorem Switched.allocated : k'.allocated = setAll ch.dead false k.allocated := by
  obtain ⟨pa, fc, ns, ps, hshape⟩ := buryAll_shape (switchedBy k L ch.next) ch.dead
  rw [h.result, hshape]

theorem Switched.allocated_before (hp : k'.allocated p = true) : k.allocated p = true := by
  rw [h.allocated] at hp
  by_cases hm : p ∈ ch.dead
  · exact (h.dead p hm).1
  · rwa [setAll_of_not_mem _ _ hm] at hp

end Components

theorem dispatch_shape (k : Kernel) (next : ℕ) :
    ∃ s, dispatch k next =
      Kernel.resched
        { k with
          state := update k.state next .running
          current := next } s := by
  refine ⟨(dispatch k next).ownSched, ?_⟩
  unfold dispatch
  dsimp only
  split_ifs <;> rfl

theorem switchBy_shape (ho : Orderly k) (hp : SwitchPromise k ch) (h : switchBy k ch = some k') :
    ∃ L k₁ s, Switched k ch L k₁ ∧ k' = k₁.resched s := by
  obtain ⟨hc, hpromise⟩ := hp
  unfold switchBy at h
  rw [Option.bind_eq_bind] at h
  obtain ⟨k₁, hsave, hrest⟩ := Option.bind_eq_some_iff.mp h
  obtain ⟨k₂, hdestroy, hlast⟩ := Option.bind_eq_some_iff.mp hrest
  obtain ⟨halloc, hready, hnodup, hdead⟩ := hpromise k₁ hsave
  obtain ⟨L, s, hwoken, hk₁⟩ := saveContext_shape (k := { k with needResched := false }) hc hsave
  obtain ⟨s', hdisp⟩ := dispatch_shape (k₁.relink ch.popped) ch.next
  have hne : ∀ p ∈ ch.dead, p ≠ 0 := by
    intro p hm
    have hal := (hdead p hm).1
    rw [hk₁] at hal
    exact ho.valid p hal
  rw [hdisp, destroyAll_eq (by rw [hk₁]; exact fun p _ i _ => ho.terminals p i) hne, Option.some_inj] at hdestroy
  rw [Option.some_inj] at hlast
  refine ⟨L, ch.dead.foldl bury (switchedBy k L ch.next), k'.ownSched,
    ⟨hc, hwoken, ?_, ?_, hnodup, ?_, rfl⟩, ?_⟩
  · rw [hk₁] at halloc
    exact halloc
  · rw [hk₁] at hready
    exact hready
  · rw [hk₁] at hdead
    exact hdead
  have hmid : k₂ = (ch.dead.foldl bury (switchedBy k L ch.next)).resched s' := by
    rw [← hdestroy, hk₁, ← buryAll_resched]
    rfl
  rw [← hlast, hmid]
  rfl

end Switch

section Effects

/-- The pure part of the loop of `sem_set_by_id`. -/
def releaseLoop (i : ℕ) : ℕ → Kernel → List ℕ × Kernel
  | 0, k => ([], k)
  | n + 1, k =>
      if (k.semaphores i).waitHead = 0 then ([], k)
      else
        let (ws, k') := releaseLoop i n (releasedKernel k i (k.semaphores i).waitHead)
        ((k.semaphores i).waitHead :: ws, k')

/-- The flags of a parent that asks for a foreground child. -/
def yieldedFlags (k : Kernel) (r : SpawnRequest) : ℕ → Bool :=
  if r.isForeground then update k.isForeground k.current false else k.isForeground

/-- The flags of a parent whose request for a foreground child has failed. -/
def regainedFlags (k : Kernel) (r : SpawnRequest) (fg : ℕ → Bool) : ℕ → Bool :=
  if r.isForeground then update fg k.current true else fg

/-- The caller of `syscall_wait` is given the foreground of its target. -/
def inheritedFlags (k : Kernel) (target : ℕ) : ℕ → Bool :=
  if k.isForeground target then update k.isForeground k.current true else k.isForeground

/-- The current process blocks. -/
abbrev Kernel.blockCurrent (k : Kernel) : Kernel :=
  { k with state := update k.state k.current .blocked }

/-- The current process in the wait queue of a semaphore. -/
abbrev semLinked (k : Kernel) (i : ℕ) : Kernel :=
  enqueueWaiter { k with waitingOnSem := update k.waitingOnSem k.current (k.semaphores i).id } i
    k.current

/-- The effects of the calls. -/
inductive OpenEffect (k : Kernel) : OpenCall → Kernel → Prop
  | same {c : OpenCall} : OpenEffect k c k
  | creationFailed {r : SpawnRequest} :
      OpenEffect k (.createProcess r) { k with isForeground := regainedFlags k r k.isForeground }
  | creationCleared {r : SpawnRequest} (pcb : r.pcb ≠ 0) :
      OpenEffect k (.createProcess r)
        { clearPcb k r.pcb with
          isForeground := regainedFlags k r (update (yieldedFlags k r) r.pcb false) }
  | created {r : SpawnRequest} (pcb : r.pcb ≠ 0) (pr : Priority) (fdp : ℕ → ℕ → Option ℕ) :
      OpenEffect k (.createProcess r) (createdKernel { k with isForeground := yieldedFlags k r }
        { r with parent := k.current } pr fdp)
  | exited : OpenEffect k .exit { k with state := update k.state k.current .finished }
  | killed {p : ℕ} (L : List ℕ) (woken : WakeList k.waiterNext (k.waitersHead p) L) :
      OpenEffect k (.kill p) (killedKernel k p L (flagsAfter k p) k.needResched)
  | blocked {p : ℕ} (before : p = k.current ∨ k.state p = .ready) :
      OpenEffect k (.block p) { k with state := update k.state p .blocked }
  | readied {p : ℕ} : OpenEffect k (.unblock p) { k with state := update k.state p .ready }
  | waitOver {target : ℕ} {ch : Choice} (dead : k.state target = .finished) :
      OpenEffect k (.wait target ch) { k with isForeground := inheritedFlags k target }
  | waited {target : ℕ} {ch : Choice} {k' : Kernel} (alive : k.state target ≠ .finished) (other : k.current ≠ target)
      (L : List ℕ) (switched : Switched (waitLinked k target (k.pid target)).blockCurrent ch L k') :
      OpenEffect k (.wait target ch) k'
  | waitReturned {target : ℕ} :
      OpenEffect k (.waitReturn target) { k with isForeground := inheritedFlags k target }
  | semAllocated {v : ℤ} : OpenEffect k (.semAlloc v) (semAlloc k v).2
  | semOpened {id : ℕ} : OpenEffect k (.semOpen id) (semOpenById k id).2
  | semClosed {id : ℕ} : OpenEffect k (.semClose id) (semCloseById k id).2
  | semTaken {id : ℕ} {ch : Choice} (i : ℕ) (found : semGetById k id = some i)
      (positive : 0 < (k.semaphores i).value) :
      OpenEffect k (.semWait id ch) (setSemValue k i ((k.semaphores i).value - 1))
  | semQueued {id : ℕ} {ch : Choice} {k' : Kernel} (i : ℕ) (found : semGetById k id = some i)
      (empty : (k.semaphores i).value ≤ 0) (L : List ℕ)
      (switched : Switched (semLinked k i).blockCurrent ch L k') :
      OpenEffect k (.semWait id ch) k'
  | semIncremented {id : ℕ} (i : ℕ) (found : semGetById k id = some i)
      (empty : (k.semaphores i).waitHead = 0) :
      OpenEffect k (.semSignal id) (setSemValue k i ((k.semaphores i).value + 1))
  | semReleased {id : ℕ} (i : ℕ) (found : semGetById k id = some i)
      (ne : (k.semaphores i).waitHead ≠ 0) :
      OpenEffect k (.semSignal id) (releasedKernel k i (k.semaphores i).waitHead)
  | semSet {id : ℕ} {v : ℤ} (i : ℕ) (found : semGetById k id = some i) (nonneg : 0 ≤ v) :
      OpenEffect k (.semSet id v) (setSemValue (releaseLoop i v.toNat k).2 i
        (v - (releaseLoop i v.toNat k).1.length))
  | switched {ch : Choice} {k' : Kernel} (L : List ℕ) (switched : Switched k ch L k') : OpenEffect k (.switch ch) k'

end Effects

section Inversion

theorem schedulerSpawnProcess_shape (hterm : ∀ p i, k.fdType p i = .terminal)
    (hpipes : ∀ i, (k.pipes i).used = false) {r : SpawnRequest} (hidle : r.pcb ≠ k.idleP)
    (h : schedulerSpawnProcess k r = some (p, k')) :
    p = 0 ∧ k' = k ∨ p = 0 ∧ r.pcb ≠ 0 ∧ k' = clearPcb k r.pcb ∨
      p = r.pcb ∧ r.pcb ≠ 0 ∧ ∃ pr fdp l, k' = (createdKernel k r pr fdp).relink l := by
  unfold schedulerSpawnProcess at h
  rcases processCreate_spec hterm hpipes r with heq | ⟨hpcb, heq⟩ | ⟨hpcb, fdp, heq⟩
  · simp only [heq, Option.bind_eq_bind, Option.bind_some, if_true, Option.some.injEq,
      Prod.mk.injEq] at h
    exact Or.inl ⟨h.1.symm, h.2.symm⟩
  · simp only [heq, Option.bind_eq_bind, Option.bind_some, if_true, Option.some.injEq,
      Prod.mk.injEq] at h
    exact Or.inr (Or.inl ⟨h.1.symm, hpcb, h.2.symm⟩)
  · simp only [heq, Option.bind_eq_bind, Option.bind_some, schedulerAddProcess, hpcb, hidle,
      or_self, if_false, Function.update_idem] at h
    obtain ⟨k₁, hpush, hlast⟩ := Option.bind_eq_some_iff.mp h
    simp only [Option.some.injEq, Prod.mk.injEq] at hlast
    obtain ⟨l, hl⟩ := readyQueuePush_shape hpush
    refine Or.inr (Or.inr ⟨hlast.1.symm, hpcb, clampPriority r.priority, fdp, l, ?_⟩)
    rw [← hlast.2, hl]

theorem createProcess_effect (ho : Orderly k) {r : SpawnRequest} (hcall : Caller k)
    (hvalid : ValidRequest k { r with parent := k.current }) {pid : ℕ}
    (h : syscallCreateProcess k r = some (pid, k')) :
    ∃ k₁ s, OpenEffect k (.createProcess r) k₁ ∧ k' = k₁.resched s := by
  have hflags : (if r.isForeground ∧ k.current ≠ 0 then
      { k with isForeground := update k.isForeground k.current false } else k) =
        { k with isForeground := yieldedFlags k r } := by
    unfold yieldedFlags
    cases r.isForeground <;> simp [hcall.1]
  have hback : ∀ k₁ : Kernel, (if r.isForeground ∧ k.current ≠ 0 then
      { k₁ with isForeground := update k₁.isForeground k.current true } else k₁) =
        { k₁ with isForeground := regainedFlags k r k₁.isForeground } := by
    intro k₁
    unfold regainedFlags
    cases r.isForeground <;> simp [hcall.1]
  have hagain : regainedFlags k r (yieldedFlags k r) = regainedFlags k r k.isForeground := by
    unfold regainedFlags yieldedFlags
    cases r.isForeground <;> simp
  unfold syscallCreateProcess at h
  simp only [hflags, Option.bind_eq_bind] at h
  obtain ⟨⟨p, k₁⟩, hspawn, hrest⟩ := Option.bind_eq_some_iff.mp h
  have hidle : r.pcb ≠ k.idleP := by
    intro he
    have hp0 : r.pcb ≠ 0 := by
      rw [he]
      exact ho.valid _ ho.idle.1
    have hfree := (hvalid.1 hp0).2
    rw [show r.pcb = k.idleP from he, ho.idle.1] at hfree
    cases hfree
  rcases schedulerSpawnProcess_shape (k := { k with isForeground := yieldedFlags k r })
    (r := { r with parent := k.current, priority := r.priority % 2 ^ 8 }) ho.terminals ho.noPipes
    hidle hspawn with ⟨rfl, rfl⟩ | ⟨rfl, hpcb, rfl⟩ | ⟨rfl, hpcb, pr, fdp, l, rfl⟩
  · simp only [if_true, Option.some.injEq, Prod.mk.injEq] at hrest
    refine ⟨_, k.ownSched, .creationFailed, ?_⟩
    rw [← (hback { k with isForeground := yieldedFlags k r }).symm.trans hrest.2]
    dsimp only
    rw [hagain]
    rfl
  · simp only [if_true, Option.some.injEq, Prod.mk.injEq] at hrest
    refine ⟨_, (clearPcb k r.pcb).ownSched, .creationCleared (r := r) hpcb, ?_⟩
    rw [← (hback (clearPcb { k with isForeground := yieldedFlags k r } r.pcb)).symm.trans hrest.2]
    rfl
  · simp only [if_neg hpcb, Option.some.injEq, Prod.mk.injEq] at hrest
    refine ⟨_, k'.ownSched, .created (r := r) hpcb pr fdp, ?_⟩
    rw [← hrest.2]
    rfl

theorem killProcess_effect (ho : Orderly k) (h : killProcess k p = some k') :
    ∃ k₁ s, OpenEffect k (.kill p) k₁ ∧ k' = k₁.resched s := by
  have hflags : (if parentTakesForeground k p then
      { k with isForeground := update k.isForeground (k.parent p) true } else k) =
        { k with isForeground := flagsAfter k p } := by
    unfold flagsAfter
    split <;> rfl
  unfold killProcess at h
  rw [processCloseFds_terminal (ho.terminals p), Option.bind_eq_bind, Option.bind_some] at h
  simp only [hflags] at h
  obtain ⟨k₁, hremove, hrest⟩ := Option.bind_eq_some_iff.mp h
  have hk₁ : ∃ l, k₁ = { k with isForeground := flagsAfter k p }.relink l := by
    split at hremove
    · exact detachFromQueue_shape hremove
    · split at hremove
      · exact detachFromQueue_shape hremove
      · rw [Option.some_inj] at hremove
        exact ⟨⟨k.queueNext, k.queuePrev, k.queues⟩, hremove.symm⟩
  obtain ⟨l₁, rfl⟩ := hk₁
  obtain ⟨k₂, hwake, hrest₂⟩ := Option.bind_eq_some_iff.mp hrest
  obtain ⟨k₃, hpush, hlast⟩ := Option.bind_eq_some_iff.mp hrest₂
  obtain ⟨L, l₂, hlist, rfl⟩ := wakeWaiters_shape hwake
  obtain ⟨l₃, rfl⟩ := processQueuePush_shape hpush
  refine ⟨_, k'.ownSched, .killed L hlist, ?_⟩
  rw [Option.some_inj] at hlast
  split at hlast
  · rw [← hlast]
    rfl
  · rw [← hlast]
    rfl

theorem blockFound_effect (h : blockFound k p = some k') :
    ∃ k₁ s, OpenEffect k (.block p) k₁ ∧ k' = k₁.resched s := by
  unfold blockFound at h
  by_cases hp : p = k.current
  · rw [if_pos hp, Option.some_inj] at h
    refine ⟨_, k'.ownSched, .blocked (Or.inl hp), ?_⟩
    rw [← h, hp]
    rfl
  rw [if_neg hp] at h
  by_cases hr : k.state p = .ready
  · rw [if_pos hr, Option.bind_eq_bind] at h
    obtain ⟨k₁, hremove, hrest⟩ := Option.bind_eq_some_iff.mp h
    obtain ⟨k₂, hpush, hlast⟩ := Option.bind_eq_some_iff.mp hrest
    obtain ⟨l₁, rfl⟩ := detachFromQueue_shape hremove
    obtain ⟨l₂, rfl⟩ := processQueuePush_shape hpush
    refine ⟨_, k'.ownSched, .blocked (Or.inr hr), ?_⟩
    rw [← Option.some_inj.mp hlast]
    rfl
  · rw [if_neg hr, Option.some_inj] at h
    exact ⟨k, k.ownSched, .same, h ▸ rfl⟩

theorem unblock_effect (ho : Orderly k) (hp : Found k p)
    (h : schedulerUnblockProcess k p = some k') :
    ∃ k₁ s, OpenEffect k (.unblock p) k₁ ∧ k' = k₁.resched s := by
  obtain ⟨l, b, hk'⟩ := schedulerUnblockProcess_shape (ho.valid p hp.1) h
  exact ⟨_, k'.ownSched, .readied, by rw [hk']; rfl⟩

theorem blockCurrent_eq (hcall : Caller k) : schedulerBlockCurrent k =
    { k with
      state := update k.state k.current .blocked
      needResched := true } := by
  rw [schedulerBlockCurrent, if_neg (not_or.mpr ⟨hcall.1, hcall.2⟩)]

/-- Blocking and switching. -/
theorem blockSwitch_shape (ho : Orderly k.blockCurrent) (hcall : Caller k)
    (hp : SwitchPromise (schedulerBlockCurrent k) ch)
    (h : switchBy (schedulerBlockCurrent k) ch = some k') :
    ∃ L k₁ s, Switched k.blockCurrent ch L k₁ ∧ k' = k₁.resched s := by
  rw [blockCurrent_eq hcall] at h hp
  obtain ⟨L, k₁, s, hsw, hk'⟩ := switchBy_shape
    (k :=
      { k with
        state := update k.state k.current .blocked
        needResched := true })
    ⟨ho.terminals, ho.noPipes, ho.valid, ho.current, ho.idle⟩ hp h
  refine ⟨L, ch.dead.foldl bury (switchedBy k.blockCurrent L ch.next), k'.ownSched,
    ⟨hsw.running, hsw.woken, hsw.next_allocated, hsw.next_ready, hsw.dead_nodup, hsw.dead, rfl⟩, ?_⟩
  have hmid : k₁ = (ch.dead.foldl bury (switchedBy k.blockCurrent L ch.next)).resched
      { k.ownSched with needResched := true } := by
    rw [hsw.result, ← buryAll_resched]
    rfl
  rw [hk', hmid]
  rfl

/-- Blocking keeps a state orderly. -/
theorem Orderly.block (ho : Orderly k) (hcall : Caller k) : Orderly k.blockCurrent := by
  refine ⟨ho.terminals, ho.noPipes, ho.valid, ho.current, ho.idle.1, ?_⟩
  dsimp only
  rw [Function.update_of_ne (Ne.symm hcall.2)]
  exact ho.idle.2

theorem waitFound_effect (ho : Orderly k) {target : ℕ} (hp : OpenPromise k (.wait target ch))
    (h : waitFound k target ch = some k') :
    ∃ k₁ s, OpenEffect k (.wait target ch) k₁ ∧ k' = k₁.resched s := by
  obtain ⟨hcall, -, hswitch⟩ := hp
  have hsame : k = k' → ∃ k₁ s, OpenEffect k (.wait target ch) k₁ ∧ k' = k₁.resched s := by
    rintro rfl
    exact ⟨k, k.ownSched, .same, rfl⟩
  unfold waitFound at h
  split at h
  · exact hsame (Option.some_inj.mp h)
  split at h
  · rename_i hover
    refine ⟨_, k.ownSched, .waitOver hover, ?_⟩
    rw [← Option.some_inj.mp h]
    unfold inheritedFlags
    cases k.isForeground target with
    | false =>
        rw [if_neg (by simp), if_neg (by simp)]
        rfl
    | true =>
        rw [if_pos ⟨hcall.1, rfl⟩, if_pos rfl]
        rfl
  split at h
  · exact hsame (Option.some_inj.mp h)
  · rename_i hover hother
    rw [not_or] at hother
    have ho' : Orderly (waitLinked k target (k.pid target)) :=
      ⟨ho.terminals, ho.noPipes, ho.valid, ho.current, ho.idle⟩
    obtain ⟨L, k₁, s, hsw, hk'⟩ := blockSwitch_shape (Orderly.block ho' hcall) hcall (hswitch hover) h
    exact ⟨k₁, s, .waited hover hother.2 L hsw, hk'⟩

theorem semWaitBy_effect (ho : Orderly k) {id : ℕ} (hp : OpenPromise k (.semWait id ch))
    (h : semWaitBy k id ch = some k') :
    ∃ k₁ s, OpenEffect k (.semWait id ch) k₁ ∧ k' = k₁.resched s := by
  obtain ⟨hcall, hswitch⟩ := hp
  have hsame : k = k' → ∃ k₁ s, OpenEffect k (.semWait id ch) k₁ ∧ k' = k₁.resched s := by
    rintro rfl
    exact ⟨k, k.ownSched, .same, rfl⟩
  unfold semWaitBy at h
  unfold semWaitStart at h hswitch
  cases hget : semGetById k id with
  | none =>
      simp only [hget] at h
      exact hsame (Option.some_inj.mp h)
  | some i =>
      simp only [hget, if_neg hcall.1] at h hswitch
      by_cases hpos : 0 < (k.semaphores i).value
      · rw [if_pos hpos] at h
        refine ⟨_, k.ownSched, .semTaken i hget hpos, ?_⟩
        rw [← Option.some_inj.mp h]
        rfl
      · rw [if_neg hpos] at h hswitch
        obtain ⟨sems, swn, hshape⟩ := enqueueWaiter_shape
          { k with waitingOnSem := update k.waitingOnSem k.current (k.semaphores i).id } i k.current
        have ho' : Orderly (semLinked k i) := by
          rw [semLinked, hshape]
          exact ⟨ho.terminals, ho.noPipes, ho.valid, ho.current, ho.idle⟩
        have hcall' : Caller (semLinked k i) := by
          rw [semLinked, hshape]
          exact hcall
        obtain ⟨L, k₁, s, hsw, hk'⟩ := blockSwitch_shape (Orderly.block ho' hcall') hcall'
          (hswitch rfl) h
        exact ⟨k₁, s, .semQueued i hget (not_lt.mp hpos) L hsw, hk'⟩

theorem semSignal_openEffect {id : ℕ} (h : semSignal k id = some k') :
    ∃ k₁ s, OpenEffect k (.semSignal id) k₁ ∧ k' = k₁.resched s := by
  obtain ⟨w, heffect⟩ := semSignal_effect h
  cases heffect with
  | missing => exact ⟨k, k.ownSched, .same, rfl⟩
  | incremented i found empty => exact ⟨_, k.ownSched, .semIncremented i found empty, rfl⟩
  | released i w found head ne l b =>
      subst head
      exact ⟨_, ⟨k.priority, k.basePriority, k.waitTicks, k.rsp, k.rbp, b, k.lastSwitchTick, k.ticks, l⟩,
        .semReleased i found ne, rfl⟩

/-- Releasing a waiter does not depend on the scheduler's part. -/
theorem releaseLoop_resched (n : ℕ) (k : Kernel) (s : Sched) :
    releaseLoop i n (k.resched s) = ((releaseLoop i n k).1, (releaseLoop i n k).2.resched s) := by
  induction n generalizing k with
  | zero => rfl
  | succ n ih =>
      rw [releaseLoop, releaseLoop]
      by_cases hw : (k.semaphores i).waitHead = 0
      · simp only [hw, if_true]
      · simp only [hw, if_false]
        rw [ih (releasedKernel k i (k.semaphores i).waitHead)]

theorem awakenLoop_shape {n : ℕ} {ws : List ℕ} (h : awakenLoop i n k = some (ws, k')) :
    ∃ s, ws = (releaseLoop i n k).1 ∧ k' = (releaseLoop i n k).2.resched s := by
  induction n generalizing k ws with
  | zero =>
      simp only [awakenLoop, Option.some.injEq, Prod.mk.injEq] at h
      exact ⟨k.ownSched, h.1.symm, h.2.symm⟩
  | succ n ih =>
      rw [awakenLoop] at h
      by_cases hw : (k.semaphores i).waitHead = 0
      · simp only [dequeueWaiter, if_pos hw, if_true, Option.some.injEq, Prod.mk.injEq] at h
        refine ⟨k.ownSched, ?_, ?_⟩
        · rw [releaseLoop, if_pos hw, ← h.1]
        · rw [releaseLoop, if_pos hw, ← h.2]
          rfl
      · simp only [dequeueWaiter, if_neg hw, Option.bind_eq_bind] at h
        obtain ⟨k₁, hrel, hrest⟩ := Option.bind_eq_some_iff.mp h
        obtain ⟨⟨ws', k₂⟩, hloop, hlast⟩ := Option.bind_eq_some_iff.mp hrest
        obtain ⟨l, b, hk₁⟩ := schedulerUnblockProcess_shape hw hrel
        have hk₁ : k₁ = (releasedKernel k i (k.semaphores i).waitHead).resched
            ⟨k.priority, k.basePriority, k.waitTicks, k.rsp, k.rbp, b, k.lastSwitchTick, k.ticks, l⟩ :=
          hk₁
        simp only [Option.some.injEq, Prod.mk.injEq] at hlast
        obtain ⟨rfl, rfl⟩ := hlast
        obtain ⟨s, hws, hk₂⟩ := ih hloop
        rw [hk₁, releaseLoop_resched] at hws hk₂
        refine ⟨s, ?_, ?_⟩
        · rw [releaseLoop, if_neg hw, hws]
        · rw [releaseLoop, if_neg hw, hk₂]

theorem semSetById_effect {id : ℕ} {v : ℤ} {r : ℕ × List ℕ × Kernel}
    (h : semSetById k id v = some r) :
    ∃ k₁ s, OpenEffect k (.semSet id v) k₁ ∧ r.2.2 = k₁.resched s := by
  unfold semSetById at h
  cases hget : semGetById k id with
  | none =>
      simp only [hget, Option.some_inj] at h
      exact ⟨k, k.ownSched, .same, by rw [← h]; rfl⟩
  | some i =>
      simp only [hget] at h
      by_cases hneg : v < 0
      · rw [if_pos hneg, Option.some_inj] at h
        exact ⟨k, k.ownSched, .same, by rw [← h]; rfl⟩
      · rw [if_neg hneg, Option.bind_eq_bind] at h
        obtain ⟨⟨ws, k₁⟩, hloop, hlast⟩ := Option.bind_eq_some_iff.mp h
        obtain ⟨s, hws, hk₁⟩ := awakenLoop_shape hloop
        refine ⟨_, s, .semSet i hget (not_lt.mp hneg), ?_⟩
        rw [← Option.some_inj.mp hlast]
        simp only [hws, hk₁]

/-- Every call has one of the listed effects. -/
theorem openExec_effect (ho : Orderly k) {c : OpenCall} (hp : OpenPromise k c)
    (h : openExec k c = some k') : ∃ k₁ s, OpenEffect k c k₁ ∧ k' = k₁.resched s := by
  cases c with
  | createProcess r =>
      obtain ⟨⟨pid, k₁⟩, hcreate, rfl⟩ := Option.map_eq_some_iff.mp h
      exact createProcess_effect ho hp.1 hp.2 hcreate
  | exit =>
      have hexit : schedulerFinishCurrent k = some k' := h
      unfold schedulerFinishCurrent at hexit
      rw [if_neg (not_or.mpr ⟨hp.1, hp.2⟩), processCloseFds_terminal (ho.terminals _),
        Option.bind_eq_bind, Option.bind_some, Option.some_inj] at hexit
      exact ⟨_, k'.ownSched, .exited, by rw [← hexit]; rfl⟩
  | kill p => exact killProcess_effect ho h
  | block p => exact blockFound_effect h
  | unblock p => exact unblock_effect ho hp h
  | wait target ch => exact waitFound_effect ho hp h
  | waitReturn target =>
      refine ⟨_, k.ownSched, .waitReturned, ?_⟩
      rw [← Option.some_inj.mp h]
      unfold syscallWaitReturn inheritedFlags
      cases k.isForeground target <;> rfl
  | semAlloc v => exact ⟨_, Kernel.ownSched _, .semAllocated, (Option.some_inj.mp h).symm⟩
  | semOpen id => exact ⟨_, Kernel.ownSched _, .semOpened, (Option.some_inj.mp h).symm⟩
  | semClose id => exact ⟨_, Kernel.ownSched _, .semClosed, (Option.some_inj.mp h).symm⟩
  | semWait id ch => exact semWaitBy_effect ho hp h
  | semSignal id => exact semSignal_openEffect h
  | semSet id v =>
      obtain ⟨r, hset, rfl⟩ := Option.map_eq_some_iff.mp h
      exact semSetById_effect hset
  | switch ch =>
      obtain ⟨L, k₁, s, hsw, hk'⟩ := switchBy_shape ho hp h
      exact ⟨k₁, s, .switched L hsw, hk'⟩
  | resched s => exact ⟨k, s, .same, (Option.some_inj.mp h).symm⟩

end Inversion

section Orderly

theorem Orderly.resched (ho : Orderly k) (s : Sched) : Orderly (k.resched s) :=
  ⟨ho.terminals, ho.noPipes, ho.valid, ho.current, ho.idle⟩

theorem Orderly.withState (ho : Orderly k) {st : ℕ → ProcessState} (hidle : st k.idleP ≠ .finished) :
    Orderly { k with state := st } :=
  ⟨ho.terminals, ho.noPipes, ho.valid, ho.current, ho.idle.1, hidle⟩

theorem Switched.orderly (ho : Orderly k) (h : Switched k ch L k') : Orderly k' := by
  obtain ⟨pa, fc, ns, ps, hshape⟩ := buryAll_shape (switchedBy k L ch.next) ch.dead
  rw [h.result, hshape]
  refine ⟨ho.terminals, ho.noPipes, fun p hp => ?_, ?_, ?_, ?_⟩
  · rw [← hshape, ← h.result] at hp
    exact ho.valid p (h.allocated_before hp)
  · dsimp only
    rw [setAll_of_not_mem _ _ fun hm => (h.dead _ hm).2.2 rfl]
    exact h.next_allocated
  · dsimp only
    rw [setAll_of_not_mem _ _ fun hm => ho.idle.2 (of_savedState (h.dead _ hm).2.1)]
    exact ho.idle.1
  · dsimp only
    by_cases hn : k.idleP = ch.next
    · rw [hn, Function.update_self]
      simp
    · rw [Function.update_of_ne hn]
      exact fun hs => ho.idle.2 (of_savedState hs)

/-- Releasing waiters changes the semaphore, the wait queue and the states of the waiters. -/
theorem releaseLoop_shape (n : ℕ) (k : Kernel) :
    ∃ sems swn, (releaseLoop i n k).2 =
      { k with
        semaphores := sems
        semWaiterNext := swn
        waitingOnSem := setAll (releaseLoop i n k).1 0 k.waitingOnSem
        state := setAll (releaseLoop i n k).1 .ready k.state } := by
  induction n generalizing k with
  | zero => exact ⟨k.semaphores, k.semWaiterNext, by simp only [releaseLoop, setAll_nil]⟩
  | succ n ih =>
      rw [releaseLoop]
      by_cases hw : (k.semaphores i).waitHead = 0
      · rw [if_pos hw]
        exact ⟨k.semaphores, k.semWaiterNext, by simp only [setAll_nil]⟩
      · rw [if_neg hw]
        obtain ⟨sems, swn, heq⟩ := ih (releasedKernel k i (k.semaphores i).waitHead)
        refine ⟨sems, swn, ?_⟩
        simp only [setAll_cons]
        exact heq

/-- Every call keeps a state orderly. -/
theorem OpenEffect.orderly (ho : Orderly k) {c : OpenCall} (hp : OpenPromise k c)
    (h : OpenEffect k c k') : Orderly k' := by
  have hfresh : ∀ q r, k.allocated q = true → k.allocated r = false → q ≠ r := by
    rintro q r hq hr rfl
    rw [hq] at hr
    cases hr
  cases h with
  | same => exact ho
  | creationFailed => exact ⟨ho.terminals, ho.noPipes, ho.valid, ho.current, ho.idle⟩
  | @creationCleared r pcb =>
      have hfree := (hp.2.1 pcb).2
      refine ⟨?_, ho.noPipes, ho.valid, ho.current, ho.idle.1, ?_⟩
      · intro p i
        simp only [clearPcb, clearPcb_fdType ho.terminals]
        exact ho.terminals p i
      · simp only [clearPcb, Function.update_of_ne (hfresh _ _ ho.idle.1 hfree)]
        exact ho.idle.2
  | @created r pcb pr fdp =>
      have hfree := (hp.2.1 pcb).2
      have hkeep : ∀ q, k.allocated q = true → update k.allocated r.pcb true q = true := by
        intro q hq
        rw [Function.update_of_ne (hfresh q _ hq hfree)]
        exact hq
      refine ⟨ho.terminals, ho.noPipes, fun p hpa => ?_, hkeep _ ho.current, hkeep _ ho.idle.1, ?_⟩
      · by_cases hpp : p = r.pcb
        · exact hpp ▸ pcb
        · dsimp only at hpa
          rw [Function.update_of_ne hpp] at hpa
          exact ho.valid p hpa
      · dsimp only
        rw [Function.update_of_ne (hfresh _ _ ho.idle.1 hfree)]
        exact ho.idle.2
  | exited =>
      refine ho.withState ?_
      rw [Function.update_of_ne (Ne.symm hp.2)]
      exact ho.idle.2
  | @killed p L woken =>
      refine ⟨ho.terminals, ho.noPipes, ho.valid, ho.current, ho.idle.1, ?_⟩
      dsimp only
      by_cases hm : k.idleP ∈ L
      · rw [setAll_of_mem _ _ hm]
        simp
      · rw [setAll_of_not_mem _ _ hm, Function.update_of_ne (Ne.symm hp.2)]
        exact ho.idle.2
  | @blocked p before =>
      refine ho.withState ?_
      rw [Function.update_of_ne (Ne.symm hp.2)]
      exact ho.idle.2
  | @readied p =>
      refine ho.withState ?_
      rw [Function.update_of_ne (Ne.symm hp.2)]
      exact ho.idle.2
  | waitOver => exact ⟨ho.terminals, ho.noPipes, ho.valid, ho.current, ho.idle⟩
  | @waited target ch _ alive other L switched =>
      have ho' : Orderly (waitLinked k target (k.pid target)) :=
        ⟨ho.terminals, ho.noPipes, ho.valid, ho.current, ho.idle⟩
      exact switched.orderly (Orderly.block ho' hp.1)
  | waitReturned => exact ⟨ho.terminals, ho.noPipes, ho.valid, ho.current, ho.idle⟩
  | @semAllocated v =>
      obtain ⟨sems, n, heq⟩ := semAlloc_shape k v
      rw [heq]
      exact ⟨ho.terminals, ho.noPipes, ho.valid, ho.current, ho.idle⟩
  | @semOpened id =>
      obtain ⟨sems, heq⟩ := semOpenById_shape k id
      rw [heq]
      exact ⟨ho.terminals, ho.noPipes, ho.valid, ho.current, ho.idle⟩
  | @semClosed id =>
      obtain ⟨sems, heq⟩ := semCloseById_shape k id
      rw [heq]
      exact ⟨ho.terminals, ho.noPipes, ho.valid, ho.current, ho.idle⟩
  | semTaken => exact ⟨ho.terminals, ho.noPipes, ho.valid, ho.current, ho.idle⟩
  | @semQueued id ch _ i found empty L switched =>
      obtain ⟨sems, swn, hshape⟩ := enqueueWaiter_shape
        { k with waitingOnSem := update k.waitingOnSem k.current (k.semaphores i).id } i k.current
      have ho' : Orderly (semLinked k i) := by
        rw [semLinked, hshape]
        exact ⟨ho.terminals, ho.noPipes, ho.valid, ho.current, ho.idle⟩
      have hcall : Caller (semLinked k i) := by
        rw [semLinked, hshape]
        exact hp.1
      exact switched.orderly (Orderly.block ho' hcall)
  | semIncremented => exact ⟨ho.terminals, ho.noPipes, ho.valid, ho.current, ho.idle⟩
  | semReleased i found ne =>
      refine ⟨ho.terminals, ho.noPipes, ho.valid, ho.current, ho.idle.1, ?_⟩
      have hidle : setAll [(k.semaphores i).waitHead] .ready k.state k.idleP ≠ .finished :=
        fun hs => ho.idle.2 (of_setAll_ready hs)
      rwa [setAll_cons, setAll_nil] at hidle
  | @semSet id v i found nonneg =>
      obtain ⟨sems, swn, heq⟩ := releaseLoop_shape (i := i) v.toNat k
      rw [heq]
      exact ⟨ho.terminals, ho.noPipes, ho.valid, ho.current, ho.idle.1,
        fun hs => ho.idle.2 (of_setAll_ready hs)⟩
  | switched L switched => exact switched.orderly ho

end Orderly
end SoKernel
