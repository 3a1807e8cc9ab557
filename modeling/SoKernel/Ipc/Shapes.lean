import SoKernel.Proc.Effects

/-!
# What the operations of semaphores leave unchanged

The operations on queues change links only, whatever the state of the queues. So a call of
`sem_signal_by_id` that returns changes one semaphore, the links of the waiters, and the
state of the released process; pipes, descriptors and the other semaphores stay.
-/

namespace SoKernel

open Function (update)

variable {k k' : Kernel} {q : QueueId} {p id i : ℕ}

section Queues

theorem unlinkFromQueue_shape (k : Kernel) (q : QueueId) (p : ℕ) :
    ∃ l, unlinkFromQueue k q p = k.relink l := by
  refine ⟨⟨(unlinkFromQueue k q p).queueNext, (unlinkFromQueue k q p).queuePrev,
    (unlinkFromQueue k q p).queues⟩, ?_⟩
  unfold unlinkFromQueue
  dsimp only
  split <;> split <;> split <;> rfl

theorem detachFromQueue_shape (h : detachFromQueue k q p = some k') : ∃ l, k' = k.relink l := by
  unfold detachFromQueue at h
  split at h
  · cases h
    exact ⟨⟨k.queueNext, k.queuePrev, k.queues⟩, rfl⟩
  · obtain ⟨found, -, rfl⟩ := Option.map_eq_some_iff.mp h
    split
    · exact unlinkFromQueue_shape k q p
    · exact ⟨⟨k.queueNext, k.queuePrev, k.queues⟩, rfl⟩

theorem appendToQueue_shape (k : Kernel) (q : QueueId) (p : ℕ) :
    ∃ l, appendToQueue k q p = k.relink l := by
  unfold appendToQueue
  split
  · exact ⟨⟨_, _, _⟩, rfl⟩
  · exact ⟨⟨_, _, _⟩, rfl⟩

theorem processQueuePush_shape (h : processQueuePush k q p = some k') : ∃ l, k' = k.relink l := by
  unfold processQueuePush at h
  split at h
  · cases h
    exact ⟨⟨k.queueNext, k.queuePrev, k.queues⟩, rfl⟩
  · obtain ⟨k₁, hdetach, rfl⟩ := Option.map_eq_some_iff.mp h
    obtain ⟨l, hl⟩ := appendToQueue_shape k₁ q p
    split at hdetach
    · obtain ⟨l₁, rfl⟩ := detachFromQueue_shape hdetach
      exact ⟨l, hl⟩
    · cases hdetach
      exact ⟨l, hl⟩

theorem readyQueuePush_shape (h : readyQueuePush k p = some k') : ∃ l, k' = k.relink l := by
  unfold readyQueuePush at h
  split at h
  · cases h
    exact ⟨⟨k.queueNext, k.queuePrev, k.queues⟩, rfl⟩
  · exact processQueuePush_shape h

/-- `scheduler_unblock_process` makes the process ready. -/
theorem schedulerUnblockProcess_shape (hp : p ≠ 0) (h : schedulerUnblockProcess k p = some k') :
    ∃ l b, k' =
      { k with
        state := update k.state p .ready
        needResched := b }.relink l := by
  unfold schedulerUnblockProcess at h
  rw [if_neg hp, Option.bind_eq_bind] at h
  obtain ⟨k₁, hremove, h⟩ := Option.bind_eq_some_iff.mp h
  obtain ⟨k₂, hpush, h⟩ := Option.bind_eq_some_iff.mp h
  obtain ⟨l₂, rfl⟩ := readyQueuePush_shape hpush
  have hk₁ : ∃ l₁, k₁ = k.relink l₁ := by
    split at hremove
    · exact detachFromQueue_shape hremove
    · cases hremove
      exact ⟨⟨k.queueNext, k.queuePrev, k.queues⟩, rfl⟩
  obtain ⟨l₁, rfl⟩ := hk₁
  cases h
  split
  · exact ⟨l₂, true, rfl⟩
  · exact ⟨l₂, k.needResched, rfl⟩

end Queues

section Waits

/-- The state after `sem_wait_by_id` has released the lock. -/
theorem semWaitStart_shape (k : Kernel) (id : ℕ) :
    ∃ sems wos swn, (semWaitStart k id).1 =
        { k with
          semaphores := sems
          waitingOnSem := wos
          semWaiterNext := swn } := by
  unfold semWaitStart
  cases semGetById k id with
  | none => exact ⟨k.semaphores, k.waitingOnSem, k.semWaiterNext, rfl⟩
  | some i =>
      dsimp only
      split
      · exact ⟨k.semaphores, k.waitingOnSem, k.semWaiterNext, rfl⟩
      split
      · exact ⟨_, k.waitingOnSem, k.semWaiterNext, rfl⟩
      · obtain ⟨sems, swn, hshape⟩ := enqueueWaiter_shape
          { k with waitingOnSem := update k.waitingOnSem k.current (k.semaphores i).id } i k.current
        exact ⟨sems, _, swn, hshape⟩

end Waits

section Signals

/-- What `sem_signal_by_id` does when it returns. -/
inductive SignalEffect (k : Kernel) (id : ℕ) : ℕ → Kernel → Prop
  | missing (none : semGetById k id = none) : SignalEffect k id 0 k
  | incremented (i : ℕ) (found : semGetById k id = some i)
      (empty : (k.semaphores i).waitHead = 0) :
      SignalEffect k id 0 (setSemValue k i ((k.semaphores i).value + 1))
  | released (i w : ℕ) (found : semGetById k id = some i) (head : (k.semaphores i).waitHead = w)
      (ne : w ≠ 0) (l : Links) (b : Bool) :
      SignalEffect k id w ({ releasedKernel k i w with needResched := b }.relink l)

theorem semSignalById_effect {r w : ℕ} (h : semSignalById k id = some (r, w, k')) :
    SignalEffect k id w k' := by
  unfold semSignalById at h
  split at h
  · rename_i hnone
    cases h
    exact .missing hnone
  · rename_i i hfound
    by_cases hhead : (k.semaphores i).waitHead = 0
    · have hdeq : dequeueWaiter k i = (0, k) := by simp only [dequeueWaiter, if_pos hhead]
      rw [hdeq] at h
      cases h
      exact .incremented i hfound hhead
    · simp only [dequeueWaiter, if_neg hhead, Option.bind_eq_bind] at h
      rw [if_pos hhead] at h
      obtain ⟨k₁, hrel, h⟩ := Option.bind_eq_some_iff.mp h
      simp only [Option.some.injEq, Prod.mk.injEq] at h
      obtain ⟨-, rfl, rfl⟩ := h
      obtain ⟨l, b, rfl⟩ := schedulerUnblockProcess_shape hhead hrel
      exact .released i _ hfound rfl hhead l b

theorem semSignal_effect (h : semSignal k id = some k') : ∃ w, SignalEffect k id w k' := by
  unfold semSignal at h
  obtain ⟨⟨r, w, k₁⟩, hsig, rfl⟩ := Option.map_eq_some_iff.mp h
  exact ⟨w, semSignalById_effect hsig⟩

/-- A semaphore without waiters is incremented. -/
theorem semSignal_of_empty (hfound : semGetById k id = some i)
    (hempty : (k.semaphores i).waitHead = 0) :
    semSignal k id = some (setSemValue k i ((k.semaphores i).value + 1)) := by
  simp [semSignal, semSignalById, hfound, dequeueWaiter, hempty]

end Signals
end SoKernel
