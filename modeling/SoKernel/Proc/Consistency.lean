import Mathlib.Data.Set.Insert
import SoKernel.Lib.LinkedList
import SoKernel.Proc.Scheduler

/-!
# Queues and process states agree

Each operation of the scheduler takes a process out of its queue, changes its state or its
priority, and puts it into another queue. `Members` says that the queues agree with the
states, except for the processes that are on the way; `QueuesAgree` is the invariant of
the scheduler.
-/

namespace SoKernel

open Function (update)
open LinkedList (Chain)

/-- The links of all queues, replaced together. -/
structure Links where
  next : ℕ → ℕ
  prev : ℕ → ℕ
  queues : QueueId → ProcessQueue

abbrev Kernel.relink (k : Kernel) (l : Links) : Kernel :=
  { k with
    queueNext := l.next
    queuePrev := l.prev
    queues := l.queues }

/-- The queues `Q` hold the processes that belong there, apart from those in `X`. The
process `c` may be blocked without being in the queue of blocked processes. -/
structure Members (allocated : ℕ → Bool) (state : ℕ → ProcessState) (priority : ℕ → Priority)
    (c : ℕ) (X : Set ℕ) (Q : QueueId → List ℕ) : Prop where
  ready : ∀ i p, p ∉ X →
    (p ∈ Q (.ready i) ↔ allocated p = true ∧ state p = .ready ∧ priority p = i)
  blocked : ∀ p, p ∉ X →
    (p ∈ Q .blocked ↔ allocated p = true ∧ state p = .blocked ∧ p ≠ c)
  finished : ∀ p, p ∉ X → p ∈ Q .finished → allocated p = true ∧ state p = .finished

/-- The invariant of the scheduler, with `c` as in `Members`. -/
structure QueuesAgree (k : Kernel) (c : ℕ) (Q : QueueId → List ℕ) : Prop where
  rings : Rings k.queueNext k.queuePrev k.queues Q
  members : Members k.allocated k.state k.priority c ∅ Q
  valid : ∀ p, k.allocated p = true → p ≠ 0 ∧ p < addressCount
  idle : k.idleP ≠ 0 → k.allocated k.idleP = true ∧
    (k.state k.idleP = .running ∨ k.state k.idleP = .ready)
  current : k.current ≠ 0 → k.allocated k.current = true ∧ k.idleP ≠ 0
  terminals : ∀ p i, k.fdType p i = .terminal
  noPipes : ∀ i, (k.pipes i).used = false

/-- The part of the invariant that the queues decide: they are lists that agree with the
states and the priorities. -/
structure Placed (k : Kernel) (c : ℕ) (Q : QueueId → List ℕ) : Prop where
  rings : Rings k.queueNext k.queuePrev k.queues Q
  members : Members k.allocated k.state k.priority c ∅ Q
  valid : ∀ p, k.allocated p = true → p ≠ 0 ∧ p < addressCount

variable {k k' : Kernel} {c p x : ℕ} {X Y : Set ℕ} {Q : QueueId → List ℕ} {q : QueueId}

section Lists

theorem mem_lift {q' : QueueId} (hnodup : (Q q).Nodup) :
    p ∈ update Q q ((Q q).erase x) q' ↔ p ∈ Q q' ∧ ¬(p = x ∧ q' = q) := by
  by_cases hq : q' = q
  · subst hq
    rw [Function.update_self, hnodup.mem_erase_iff]
    tauto
  · rw [Function.update_of_ne hq]
    tauto

theorem mem_put {q' : QueueId} (hfree : ∀ q', q' ≠ q → x ∉ Q q') :
    p ∈ update Q q ((Q q).erase x ++ [x]) q' ↔ if p = x then q' = q else p ∈ Q q' := by
  by_cases hp : p = x
  · subst hp
    rw [if_pos rfl]
    by_cases hq : q' = q
    · simp [hq]
    · simpa [hq] using hfree q' hq
  · rw [if_neg hp]
    by_cases hq : q' = q
    · subst hq
      simp [hp, List.mem_erase_of_ne hp]
    · simp [hq]

end Lists

namespace Members

variable {al al' : ℕ → Bool} {st st' : ℕ → ProcessState} {pr pr' : ℕ → Priority}

theorem mono (h : Members al st pr c X Q) (hXY : X ⊆ Y) : Members al st pr c Y Q where
  ready i p hp := h.ready i p fun hx => hp (hXY hx)
  blocked p hp := h.blocked p fun hx => hp (hXY hx)
  finished p hp := h.finished p fun hx => hp (hXY hx)

/-- Only the states of the processes that are not exempt matter. -/
theorem congr (h : Members al st pr c X Q) (ha : ∀ p, p ∉ X → al' p = al p)
    (hs : ∀ p, p ∉ X → st' p = st p) (hpr : ∀ p, p ∉ X → pr' p = pr p) :
    Members al' st' pr' c X Q where
  ready i p hp := by
    rw [ha p hp, hs p hp, hpr p hp]
    exact h.ready i p hp
  blocked p hp := by
    rw [ha p hp, hs p hp]
    exact h.blocked p hp
  finished p hp := by
    rw [ha p hp, hs p hp]
    exact h.finished p hp

/-- Exempting one process, whose state may then change. -/
theorem exempt (h : Members al st pr c ∅ Q) (x : ℕ) : Members al st pr c {x} Q :=
  h.mono (Set.empty_subset _)

theorem setState (h : Members al st pr c {x} Q) (s : ProcessState) :
    Members al (update st x s) pr c {x} Q :=
  h.congr (fun _ _ => rfl) (fun _ hp => Function.update_of_ne hp _ _) (fun _ _ => rfl)

theorem setPriority (h : Members al st pr c {x} Q) (i : Priority) :
    Members al st (update pr x i) c {x} Q :=
  h.congr (fun _ _ => rfl) (fun _ _ => rfl) (fun _ hp => Function.update_of_ne hp _ _)

/-- Taking a process out of a queue. -/
theorem lift (h : Members al st pr c {x} Q) (hnodup : (Q q).Nodup) :
    Members al st pr c {x} (update Q q ((Q q).erase x)) where
  ready i p hp := by
    rw [mem_lift hnodup, ← h.ready i p hp]
    exact and_iff_left fun hpx => hp hpx.1
  blocked p hp := by
    rw [mem_lift hnodup, ← h.blocked p hp]
    exact and_iff_left fun hpx => hp hpx.1
  finished p hp hm := h.finished p hp ((mem_lift hnodup).mp hm).1

/-- Putting a process into the queue of its state. -/
theorem put (h : Members al st pr c {x} Q) (hfree : ∀ q', q' ≠ q → x ∉ Q q')
    (hr : ∀ i, QueueId.ready i = q ↔ al x = true ∧ st x = .ready ∧ pr x = i)
    (hb : QueueId.blocked = q ↔ al x = true ∧ st x = .blocked ∧ x ≠ c)
    (hf : QueueId.finished = q → al x = true ∧ st x = .finished) :
    Members al st pr c ∅ (update Q q ((Q q).erase x ++ [x])) where
  ready i p _ := by
    rw [mem_put hfree]
    by_cases hp : p = x
    · rw [if_pos hp, hp]
      exact hr i
    · rw [if_neg hp]
      exact h.ready i p hp
  blocked p _ := by
    rw [mem_put hfree]
    by_cases hp : p = x
    · rw [if_pos hp, hp]
      exact hb
    · rw [if_neg hp]
      exact h.blocked p hp
  finished p _ hm := by
    rw [mem_put hfree] at hm
    by_cases hp : p = x
    · rw [if_pos hp] at hm
      rw [hp]
      exact hf hm
    · rw [if_neg hp] at hm
      exact h.finished p hp hm

/-- A process that is in no queue and belongs into none. -/
theorem settle (h : Members al st pr c {x} Q) (hfree : ∀ q, x ∉ Q q) (hr : st x ≠ .ready)
    (hb : st x = .blocked → x = c) : Members al st pr c ∅ Q where
  ready i p _ := by
    by_cases hp : p = x
    · subst hp
      simp [hfree, hr]
    · exact h.ready i p hp
  blocked p _ := by
    by_cases hp : p = x
    · subst hp
      simp only [hfree, false_iff]
      exact fun hx => hx.2.2 (hb hx.2.1)
    · exact h.blocked p hp
  finished p _ hm := by
    by_cases hp : p = x
    · exact absurd (hp ▸ hm) (hfree _)
    · exact h.finished p hp hm

end Members

/-- The state of the processes in a queue. -/
def QueueId.state : QueueId → ProcessState
  | .ready _ => .ready
  | .blocked => .blocked
  | .finished => .finished

namespace Placed

theorem of_mem (h : Placed k c Q) (hp : p ∈ Q q) : k.allocated p = true ∧ k.state p = q.state := by
  cases q with
  | ready i => exact ((h.members.ready i p (by simp)).mp hp).imp_right And.left
  | blocked => exact ((h.members.blocked p (by simp)).mp hp).imp_right And.left
  | finished => exact h.members.finished p (by simp) hp

theorem not_mem (h : Placed k c Q) (hs : k.state p ≠ q.state) : p ∉ Q q :=
  fun hp => hs (h.of_mem hp).2

/-- A ready process is in no other queue than that of its priority. -/
theorem free_of_ready (h : Placed k c Q) (hs : k.state p = .ready)
    (hq : q ≠ .ready (k.priority p)) : p ∉ Q q := by
  intro hp
  cases q with
  | ready i => exact hq (congrArg _ ((h.members.ready i p (by simp)).mp hp).2.2.symm)
  | blocked => exact absurd ((h.of_mem hp).2.symm.trans hs) (by decide)
  | finished => exact absurd ((h.of_mem hp).2.symm.trans hs) (by decide)

theorem free_of_blocked (h : Placed k c Q) (hs : k.state p = .blocked) (hq : q ≠ .blocked) :
    p ∉ Q q := by
  refine h.not_mem ?_
  rw [hs]
  cases q <;> simp_all [QueueId.state]

theorem free_of_finished (h : Placed k c Q) (hs : k.state p = .finished) (hq : q ≠ .finished) :
    p ∉ Q q := by
  refine h.not_mem ?_
  rw [hs]
  cases q <;> simp_all [QueueId.state]

theorem free_of_running (h : Placed k c Q) (hs : k.state p = .running) (q : QueueId) :
    p ∉ Q q := by
  refine h.not_mem ?_
  rw [hs]
  cases q <;> simp [QueueId.state]

/-- All blocked processes are in the queue, except possibly `c` itself. -/
theorem members_except (h : Placed k c Q) :
    Members k.allocated k.state k.priority 0 {c} Q where
  ready i p _ := h.members.ready i p (by simp)
  blocked p hp := by
    rw [h.members.blocked p (by simp)]
    have hpc : p ≠ c := hp
    exact and_congr_right fun ha => and_congr_right fun _ => by simp [hpc, (h.valid p ha).1]
  finished p _ := h.members.finished p (by simp)

end Placed

namespace QueuesAgree

theorem placed (h : QueuesAgree k c Q) : Placed k c Q := ⟨h.rings, h.members, h.valid⟩

theorem of_mem (h : QueuesAgree k c Q) (hp : p ∈ Q q) :
    k.allocated p = true ∧ k.state p = q.state := h.placed.of_mem hp

theorem not_mem (h : QueuesAgree k c Q) (hs : k.state p ≠ q.state) : p ∉ Q q :=
  h.placed.not_mem hs

theorem free_of_ready (h : QueuesAgree k c Q) (hs : k.state p = .ready)
    (hq : q ≠ .ready (k.priority p)) : p ∉ Q q := h.placed.free_of_ready hs hq

theorem free_of_blocked (h : QueuesAgree k c Q) (hs : k.state p = .blocked)
    (hq : q ≠ .blocked) : p ∉ Q q := h.placed.free_of_blocked hs hq

theorem free_of_finished (h : QueuesAgree k c Q) (hs : k.state p = .finished)
    (hq : q ≠ .finished) : p ∉ Q q := h.placed.free_of_finished hs hq

theorem free_of_running (h : QueuesAgree k c Q) (hs : k.state p = .running) (q : QueueId) :
    p ∉ Q q := h.placed.free_of_running hs q

theorem members_except (h : QueuesAgree k c Q) :
    Members k.allocated k.state k.priority 0 {c} Q := h.placed.members_except

theorem forget (h : QueuesAgree k c Q) (hs : k.state c ≠ .blocked) : QueuesAgree k 0 Q := by
  refine ⟨h.rings, ⟨h.members.ready, fun p _ => ?_, h.members.finished⟩, h.valid, h.idle, h.current,
    h.terminals, h.noPipes⟩
  by_cases hp : p = c
  · subst hp
    simp [h.members.blocked p (by simp), hs]
  · exact h.members_except.blocked p hp

end QueuesAgree

section Ready

/-- A ready process is put at the end of the queue of its priority. -/
theorem readyQueuePush_spec (k : Kernel) (hr : Rings k.queueNext k.queuePrev k.queues Q)
    (hm : Members k.allocated k.state k.priority c {p} Q) (ha : k.allocated p = true)
    (hv : p ≠ 0 ∧ p < addressCount) (hs : k.state p = .ready)
    (hfree : ∀ q, q ≠ .ready (k.priority p) → p ∉ Q q) :
    ∃ l, readyQueuePush k p = some (k.relink l) ∧
      Rings l.next l.prev l.queues (update Q (.ready (k.priority p))
        ((Q (.ready (k.priority p))).erase p ++ [p])) ∧
      Members k.allocated k.state k.priority c ∅ (update Q (.ready (k.priority p))
        ((Q (.ready (k.priority p))).erase p ++ [p])) := by
  obtain ⟨nx, pv, qs, heq, hrings⟩ := processQueuePush_spec hr hv.1 hv.2 hfree
  refine ⟨⟨nx, pv, qs⟩, ?_, hrings, ?_⟩
  · rw [readyQueuePush, if_neg hv.1, heq]
  · refine hm.put hfree (fun i => ?_) ?_ (fun he => by cases he)
    · simp [ha, hs, eq_comm]
    · simp [hs]

/-- `scheduler_unblock_process` of a process that is not finished takes it to the queue of its
priority. -/
theorem Placed.unblock (h : Placed k c Q) (ha : k.allocated p = true) (hs : k.state p ≠ .finished) :
    ∃ l b Q', schedulerUnblockProcess k p = some
        ({ k with
          state := update k.state p .ready
          needResched := b }.relink l) ∧
      Placed
        ({ k with
          state := update k.state p .ready
          needResched := b }.relink l) c Q' := by
  have hv := h.valid p ha
  suffices hpush : ∃ l Q', (do
        let k ← (if k.state p = .blocked then processQueueRemove k .blocked p else some k)
        readyQueuePush { k with state := update k.state p .ready } p) =
          some ({ k with state := update k.state p .ready }.relink l) ∧
        Placed ({ k with state := update k.state p .ready }.relink l) c Q' by
    obtain ⟨l, Q', heq, hplaced⟩ := hpush
    refine ⟨l, if k.current ≠ 0 ∧ k.priority k.current < k.priority p then true
      else k.needResched, Q', ?_, hplaced.rings, hplaced.members, hplaced.valid⟩
    rw [schedulerUnblockProcess, if_neg hv.1]
    simp only [Option.bind_eq_bind] at heq ⊢
    rw [← Option.bind_assoc, heq, Option.bind_some]
    split <;> rfl
  by_cases hb : k.state p = .blocked
  · obtain ⟨nx, pv, qs, heq, hrings⟩ := processQueueRemove_spec (q := .blocked) (p := p) h.rings
    have hnodup := (h.rings.list .blocked).nodup
    have hfree : ∀ q, q ≠ .ready (k.priority p) →
        p ∉ update Q .blocked ((Q .blocked).erase p) q := by
      intro q _ hm
      rw [mem_lift hnodup] at hm
      by_cases hq : q = .blocked
      · exact hm.2 ⟨rfl, hq⟩
      · exact h.free_of_blocked hb hq hm.1
    obtain ⟨l, hpush, hrings', hmem'⟩ := readyQueuePush_spec
      ({ k with state := update k.state p .ready }.relink ⟨nx, pv, qs⟩) hrings
      (((h.members.exempt p).lift hnodup).setState .ready) ha hv (Function.update_self ..) hfree
    refine ⟨l, _, ?_, hrings', hmem', h.valid⟩
    rw [if_pos hb, heq]
    exact hpush
  · have hfree : ∀ q, q ≠ .ready (k.priority p) → p ∉ Q q := by
      intro q hq hm
      cases q with
      | ready i => exact hq (congrArg _ ((h.members.ready i p (by simp)).mp hm).2.2.symm)
      | blocked => exact hb (h.of_mem hm).2
      | finished => exact hs (h.of_mem hm).2
    obtain ⟨l, hpush, hrings', hmem'⟩ := readyQueuePush_spec { k with state := update k.state p .ready }
      h.rings ((h.members.exempt p).setState .ready) ha hv (Function.update_self ..) hfree
    refine ⟨l, _, ?_, hrings', hmem', h.valid⟩
    rw [if_neg hb]
    exact hpush

theorem QueuesAgree.setReady_idle (h : QueuesAgree k c Q) (p : ℕ) (hidle : k.idleP ≠ 0) :
    k.allocated k.idleP = true ∧
      (update k.state p .ready k.idleP = .running ∨ update k.state p .ready k.idleP = .ready) := by
  refine ⟨(h.idle hidle).1, ?_⟩
  by_cases hp : k.idleP = p
  · right
    rw [hp, Function.update_self]
  · rw [Function.update_of_ne hp]
    exact (h.idle hidle).2

/-- Making a process ready that is in no queue, or ready already. -/
theorem QueuesAgree.makeReady (h : QueuesAgree k c Q) (ha : k.allocated p = true)
    (hfree : ∀ q, q ≠ .ready (k.priority p) → p ∉ Q q) :
    ∃ l Q', readyQueuePush { k with state := update k.state p .ready } p =
        some ({ k with state := update k.state p .ready }.relink l) ∧
      QueuesAgree ({ k with state := update k.state p .ready }.relink l) c Q' ∧
      Q' .finished = Q .finished ∧ Q' .blocked = Q .blocked := by
  obtain ⟨l, heq, hrings, hmem⟩ := readyQueuePush_spec { k with state := update k.state p .ready }
    h.rings ((h.members.exempt p).setState .ready) ha (h.valid p ha) (Function.update_self ..) hfree
  refine ⟨l, _, heq, ⟨hrings, hmem, h.valid, h.setReady_idle p, h.current, h.terminals,
    h.noPipes⟩, ?_, ?_⟩
  · simp
  · simp

/-- `scheduler_unblock_process` of a process that is not finished. -/
theorem schedulerUnblockProcess_spec (h : QueuesAgree k c Q) (ha : k.allocated p = true)
    (hs : k.state p ≠ .finished) :
    ∃ l b Q', schedulerUnblockProcess k p = some
        ({ k with
          state := update k.state p .ready
          needResched := b }.relink l) ∧
      QueuesAgree
        ({ k with
          state := update k.state p .ready
          needResched := b }.relink l) c Q' := by
  obtain ⟨l, b, Q', heq, hplaced⟩ := h.placed.unblock ha hs
  exact ⟨l, b, Q', heq, hplaced.rings, hplaced.members, hplaced.valid, h.setReady_idle p, h.current,
    h.terminals, h.noPipes⟩

end Ready
end SoKernel
