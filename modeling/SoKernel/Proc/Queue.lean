import SoKernel.Lib.LinkedRing
import SoKernel.State

/-!
# Process queues

Embedding of the queue functions of `process.c`. All queues share the links
`queue_next` and `queue_prev` of the control blocks. A loop that never ends gives
`none`.

`Rings` says that every queue is a doubly linked list with the given elements, and that
no process is in two of them. Pushing, removing and popping refine the list operations
as long as the process is in no other queue.
-/

namespace SoKernel

open Function (update)
open LinkedRing (Ring)

section Model

def processQueueInit (k : Kernel) (q : QueueId) : Kernel :=
  { k with queues := update k.queues q ⟨0, 0, 0⟩ }

/-- The search loop of `detach_from_queue`. -/
def isQueued (k : Kernel) (q : QueueId) (p : ℕ) : Option Bool :=
  (LinkedRing.walkFind k.queueNext 0 (fun it => decide (it = p)) addressCount
    (k.queues q).head).map Option.isSome

/-- The part of `detach_from_queue` that follows a successful search. -/
def unlinkFromQueue (k : Kernel) (q : QueueId) (p : ℕ) : Kernel :=
  let k := if k.queuePrev p ≠ 0 then
      { k with queueNext := update k.queueNext (k.queuePrev p) (k.queueNext p) }
    else { k with queues := update k.queues q { k.queues q with head := k.queueNext p } }
  let k := if k.queueNext p ≠ 0 then
      { k with queuePrev := update k.queuePrev (k.queueNext p) (k.queuePrev p) }
    else { k with queues := update k.queues q { k.queues q with tail := k.queuePrev p } }
  let k := if (k.queues q).size ≠ 0 then
      { k with queues := update k.queues q { k.queues q with size := (k.queues q).size - 1 } }
    else k
  { k with queueNext := update k.queueNext p 0, queuePrev := update k.queuePrev p 0 }

def detachFromQueue (k : Kernel) (q : QueueId) (p : ℕ) : Option Kernel :=
  if p = 0 then some k
  else (isQueued k q p).map fun found => if found then unlinkFromQueue k q p else k

def processQueueRemove (k : Kernel) (q : QueueId) (p : ℕ) : Option Kernel :=
  detachFromQueue k q p

/-- The part of `process_queue_push` that follows the optional detachment. -/
def appendToQueue (k : Kernel) (q : QueueId) (p : ℕ) : Kernel :=
  if (k.queues q).head = 0 then
    { k with
      queues := update k.queues q ⟨p, p, 1⟩
      queueNext := update k.queueNext p 0
      queuePrev := update k.queuePrev p 0 }
  else
    let tail := (k.queues q).tail
    let k := { k with queuePrev := update k.queuePrev p tail }
    let k := { k with queueNext := update k.queueNext p 0 }
    let k := { k with queueNext := update k.queueNext tail p }
    { k with
      queues := update k.queues q
        { k.queues q with tail := p, size := (k.queues q).size + 1 } }

def processQueuePush (k : Kernel) (q : QueueId) (p : ℕ) : Option Kernel :=
  if p = 0 then some k
  else
    (if k.queueNext p ≠ 0 ∨ k.queuePrev p ≠ 0 ∨ (k.queues q).head = p then detachFromQueue k q p
      else some k).map fun k => appendToQueue k q p

/-- The popped process, `0` for `NULL`, with the new state. -/
def processQueuePop (k : Kernel) (q : QueueId) : Option (ℕ × Kernel) :=
  let first := (k.queues q).head
  if first = 0 then some (0, k)
  else (detachFromQueue k q first).map fun k => (first, k)

end Model

/-- One queue, as a list: its links, its ends and its size agree with the elements. -/
structure QueueList (nx pv : ℕ → ℕ) (queue : ProcessQueue) (L : List ℕ) : Prop where
  ring : Ring (update nx 0 queue.head) (update pv 0 queue.tail) 0 L
  size_eq : queue.size = L.length

/-- Every queue is a list, and no process is in two queues. -/
structure Rings (nx pv : ℕ → ℕ) (queues : QueueId → ProcessQueue) (Q : QueueId → List ℕ) :
    Prop where
  list : ∀ q, QueueList nx pv (queues q) (Q q)
  disjoint : ∀ q q' p, p ∈ Q q → p ∈ Q q' → q = q'
  bounded : ∀ q, ∀ p ∈ Q q, p < addressCount

variable {nx pv nx' pv' : ℕ → ℕ} {queue queue' : ProcessQueue} {L : List ℕ} {p : ℕ}

namespace QueueList

/-- Only the links of the listed processes matter. -/
theorem congr (h : QueueList nx pv queue L) (hn : ∀ a ∈ L, nx' a = nx a)
    (hp : ∀ a ∈ L, pv' a = pv a) : QueueList nx' pv' queue L := by
  refine ⟨h.ring.congr ?_ ?_, h.size_eq⟩
  all_goals
    intro a ha
    rcases List.mem_cons.mp ha with rfl | hm
    · simp
    · have hne : a ≠ 0 := fun hz => h.ring.anchor_not_mem (hz ▸ hm)
      simp only [Function.update_of_ne hne]
      first | exact hn a hm | exact hp a hm

theorem ne_zero (h : QueueList nx pv queue L) (hp : p ∈ L) : p ≠ 0 :=
  fun hz => h.ring.anchor_not_mem (hz ▸ hp)

theorem nodup (h : QueueList nx pv queue L) : L.Nodup := h.ring.nodup

theorem head_eq (h : QueueList nx pv queue L) : queue.head = L.head?.getD 0 := by
  simpa using h.ring.nx_anchor

theorem tail_eq (h : QueueList nx pv queue L) : queue.tail = L.getLast?.getD 0 := by
  simpa using h.ring.pv_anchor

/-- Neighbours of a listed process are listed or null. -/
theorem next_mem (h : QueueList nx pv queue L) (hp : p ∈ L) : nx p = 0 ∨ nx p ∈ L := by
  have hm := h.ring.nx_mem hp
  rw [Function.update_of_ne (h.ne_zero hp)] at hm
  exact List.mem_cons.mp hm

theorem prev_mem (h : QueueList nx pv queue L) (hp : p ∈ L) : pv p = 0 ∨ pv p ∈ L := by
  have hm := h.ring.pv_mem hp
  rw [Function.update_of_ne (h.ne_zero hp)] at hm
  exact List.mem_cons.mp hm

theorem tail_mem (h : QueueList nx pv queue L) : queue.tail = 0 ∨ queue.tail ∈ L := by
  rw [h.tail_eq]
  cases hL : L.getLast? with
  | none => exact Or.inl rfl
  | some x => exact Or.inr (List.mem_of_getLast? hL)

/-- A process in the list is linked or is the head, as `process_queue_push` assumes. -/
theorem linked_or_head (h : QueueList nx pv queue L) (hp : p ∈ L) :
    nx p ≠ 0 ∨ pv p ≠ 0 ∨ queue.head = p := by
  obtain ⟨A, B, rfl⟩ := List.append_of_mem hp
  cases A using List.reverseRecOn with
  | nil => exact Or.inr (Or.inr (by simpa using h.head_eq))
  | append_singleton A x =>
      right
      left
      have hprev := h.ring.pv_node
      rw [Function.update_of_ne (h.ne_zero hp)] at hprev
      rw [hprev]
      simpa using h.ne_zero (p := x) (by simp)

end QueueList

namespace Rings

variable {k : Kernel} {Q : QueueId → List ℕ} {q : QueueId}

theorem ne_zero {qs : QueueId → ProcessQueue} (h : Rings nx pv qs Q) (hp : p ∈ Q q) : p ≠ 0 :=
  (h.list q).ne_zero hp

theorem not_mem_of_ne {qs : QueueId → ProcessQueue} {q' : QueueId} (h : Rings nx pv qs Q)
    (hp : p ∈ Q q) (hq : q' ≠ q) : p ∉ Q q' :=
  fun hp' => hq (h.disjoint q' q p hp' hp)

/-- Changing one queue and only links of processes that are in no other queue keeps the
other queues. -/
theorem update_queue {qs : QueueId → ProcessQueue} {L' : List ℕ} (h : Rings nx pv qs Q)
    (hlist : QueueList nx' pv' queue' L')
    (hmem : ∀ a ∈ L', (∀ q', q' ≠ q → a ∉ Q q') ∧ a < addressCount)
    (hnx : ∀ q', q' ≠ q → ∀ a ∈ Q q', nx' a = nx a)
    (hpv : ∀ q', q' ≠ q → ∀ a ∈ Q q', pv' a = pv a) :
    Rings nx' pv' (update qs q queue') (update Q q L') := by
  refine ⟨?_, ?_, ?_⟩
  · intro q'
    by_cases hq : q' = q
    · subst hq
      simpa using hlist
    · simpa [hq] using (h.list q').congr (hnx q' hq) (hpv q' hq)
  · intro q₁ q₂ a h₁ h₂
    by_cases e₁ : q₁ = q <;> by_cases e₂ : q₂ = q
    · exact e₁.trans e₂.symm
    · subst e₁
      simp only [Function.update_self, Function.update_of_ne e₂] at h₁ h₂
      exact absurd h₂ ((hmem a h₁).1 q₂ e₂)
    · subst e₂
      simp only [Function.update_self, Function.update_of_ne e₁] at h₁ h₂
      exact absurd h₁ ((hmem a h₂).1 q₁ e₁)
    · simp only [Function.update_of_ne e₁, Function.update_of_ne e₂] at h₁ h₂
      exact h.disjoint q₁ q₂ a h₁ h₂
  · intro q' a ha
    by_cases hq : q' = q
    · subst hq
      simp only [Function.update_self] at ha
      exact (hmem a ha).2
    · simp only [Function.update_of_ne hq] at ha
      exact h.bounded q' a ha

/-- The links of a process that is in no queue do not matter. -/
theorem update_links {qs : QueueId → ProcessQueue} (h : Rings nx pv qs Q) (hp : ∀ q, p ∉ Q q)
    (a b : ℕ) : Rings (update nx p a) (update pv p b) qs Q := by
  have hne : ∀ q, ∀ x ∈ Q q, x ≠ p := fun q x hx e => hp q (e ▸ hx)
  refine ⟨fun q => (h.list q).congr (fun x hx => ?_) (fun x hx => ?_), h.disjoint, h.bounded⟩
  · rw [Function.update_of_ne (hne q x hx)]
  · rw [Function.update_of_ne (hne q x hx)]

end Rings

section OneQueue

variable {k k' k'' : Kernel} {q : QueueId} {T T' L' : List ℕ}

/-- The state after an operation on the queue `q`, which is then the list `L`. The links of the
processes outside of `T` are as before, and so is the rest of the state. -/
structure Requeued (k : Kernel) (q : QueueId) (T L : List ℕ) (k' : Kernel) : Prop where
  list : QueueList k'.queueNext k'.queuePrev (k'.queues q) L
  links : ∀ a, a ∉ T → k'.queueNext a = k.queueNext a ∧ k'.queuePrev a = k.queuePrev a
  rest : ∃ nx pv queue, k' = { k with
    queueNext := nx
    queuePrev := pv
    queues := update k.queues q queue }

namespace Requeued

theorem refl (h : QueueList k.queueNext k.queuePrev (k.queues q) L) : Requeued k q T L k :=
  ⟨h, fun _ _ => ⟨rfl, rfl⟩, k.queueNext, k.queuePrev, k.queues q,
    by rw [Function.update_eq_self]⟩

theorem mono (h : Requeued k q T L k') (hT : ∀ a ∈ T, a ∈ T') : Requeued k q T' L k' :=
  ⟨h.list, fun a ha => h.links a fun hm => ha (hT a hm), h.rest⟩

theorem trans (h : Requeued k q T L k') (h' : Requeued k' q T L' k'') : Requeued k q T L' k'' := by
  refine ⟨h'.list, fun a ha => ?_, ?_⟩
  · rw [(h'.links a ha).1, (h'.links a ha).2]
    exact h.links a ha
  · obtain ⟨nx, pv, queue, rfl⟩ := h.rest
    obtain ⟨nx', pv', queue', rfl⟩ := h'.rest
    exact ⟨nx', pv', queue', by rw [Function.update_idem]⟩

/-- The other queues stay as they are, when the operation touches none of their processes. -/
theorem other {q' : QueueId} {M : List ℕ} (h : Requeued k q T L k') (hq : q' ≠ q)
    (hM : QueueList k.queueNext k.queuePrev (k.queues q') M) (hT : ∀ a ∈ M, a ∉ T) :
    QueueList k'.queueNext k'.queuePrev (k'.queues q') M := by
  have hlist := hM.congr (fun a ha => (h.links a (hT a ha)).1) fun a ha => (h.links a (hT a ha)).2
  obtain ⟨nx, pv, queue, rfl⟩ := h.rest
  dsimp only at hlist ⊢
  rwa [Function.update_of_ne hq]

/-- All queues after an operation on one of them. -/
theorem rings {Q : QueueId → List ℕ} (h : Requeued k q T L k')
    (hQ : Rings k.queueNext k.queuePrev k.queues Q) (hT : ∀ a ∈ T, ∀ q', q' ≠ q → a ∉ Q q')
    (hL : ∀ a ∈ L, a ∈ T ∧ a < addressCount) :
    ∃ nx pv qs, k' = { k with
        queueNext := nx
        queuePrev := pv
        queues := qs } ∧
      Rings nx pv qs (update Q q L) := by
  have hlist := h.list
  have hlinks := h.links
  obtain ⟨nx, pv, queue, rfl⟩ := h.rest
  dsimp only at hlist
  rw [Function.update_self] at hlist
  refine ⟨nx, pv, _, rfl, hQ.update_queue hlist (fun a ha => ⟨hT a (hL a ha).1, (hL a ha).2⟩) ?_ ?_⟩
  · exact fun q' hq' a ha => (hlinks a fun hm => hT a hm q' hq' ha).1
  · exact fun q' hq' a ha => (hlinks a fun hm => hT a hm q' hq' ha).2

end Requeued

theorem QueueList.isQueued_eq (h : QueueList k.queueNext k.queuePrev (k.queues q) L)
    (hL : ∀ a ∈ L, a < addressCount) : isQueued k q p = some (decide (p ∈ L)) := by
  have hlen := h.ring.length_lt hL addressCount_pos
  have hwalk := h.ring.walkFind (p := fun it => decide (it = p)) hlen
  rw [LinkedRing.walkFind_update, Function.update_self] at hwalk
  rw [isQueued, hwalk]
  rw [Option.map_some, List.isSome_find?, Option.some_inj, Bool.eq_iff_iff]
  simp

theorem unlinkFromQueue_eq (hpv : k.queuePrev p ≠ p) (hsize : (k.queues q).size ≠ 0) :
    unlinkFromQueue k q p = { k with
      queueNext := update (if k.queuePrev p = 0 then k.queueNext
        else update k.queueNext (k.queuePrev p) (k.queueNext p)) p 0
      queuePrev := update (if k.queueNext p = 0 then k.queuePrev
        else update k.queuePrev (k.queueNext p) (k.queuePrev p)) p 0
      queues := update k.queues q
        ⟨if k.queuePrev p = 0 then k.queueNext p else (k.queues q).head,
          if k.queueNext p = 0 then k.queuePrev p else (k.queues q).tail,
          (k.queues q).size - 1⟩ } := by
  unfold unlinkFromQueue
  by_cases hv : k.queuePrev p = 0 <;> by_cases hn : k.queueNext p = 0 <;>
    simp [hv, hn, hsize, Function.update_of_ne (Ne.symm hpv)]

/-- Unlinking a listed process removes it from the list and clears its links. -/
theorem QueueList.unlink (h : QueueList k.queueNext k.queuePrev (k.queues q) L) (hp : p ∈ L) :
    Requeued k q L (L.erase p) (unlinkFromQueue k q p) ∧
      (unlinkFromQueue k q p).queueNext p = 0 ∧ (unlinkFromQueue k q p).queuePrev p = 0 := by
  have hp0 := h.ne_zero hp
  have hpv : k.queuePrev p ≠ p := by
    simpa [Function.update_of_ne hp0] using h.ring.pv_ne hp
  have hnx : k.queueNext p ≠ p := by
    simpa [Function.update_of_ne hp0] using h.ring.nx_ne hp
  have hsize : (k.queues q).size ≠ 0 := by
    rw [h.size_eq]
    exact (List.length_pos_of_mem hp).ne'
  have hpm := h.prev_mem hp
  have hnm := h.next_mem hp
  obtain ⟨A, B, hAB⟩ := List.append_of_mem hp
  have hnodup := hAB ▸ h.nodup
  have hpA : p ∉ A := fun hm => (List.nodup_append.mp hnodup).2.2 p hm p (by simp) rfl
  have herase : L.erase p = A ++ B := by
    rw [hAB, List.erase_append_right _ hpA, List.erase_cons_head]
  rw [unlinkFromQueue_eq hpv hsize]
  refine ⟨⟨⟨?_, ?_⟩, fun a ha => ⟨?_, ?_⟩, _, _, _, rfl⟩, Function.update_self .., Function.update_self ..⟩
  · have hring := h.ring
    rw [hAB] at hring
    rw [herase]
    dsimp only
    rw [Function.update_self]
    refine hring.remove ?_ ?_ ?_ ?_
    all_goals
      simp only [Function.update_of_ne hp0]
    · by_cases hv : k.queuePrev p = 0
      · simp [hv]
      · simp [hv, hpv]
    · by_cases hn : k.queueNext p = 0
      · simp [hn]
      · simp [hn, hnx]
    · intro y hy hyp
      by_cases hy0 : y = 0
      · subst hy0
        simp [Ne.symm hy]
      · rw [Function.update_of_ne hy0, Function.update_of_ne hyp, Function.update_of_ne hy0]
        split
        · rfl
        · exact Function.update_of_ne hy _ _
    · intro y hy hyp
      by_cases hy0 : y = 0
      · subst hy0
        simp [Ne.symm hy]
      · rw [Function.update_of_ne hy0, Function.update_of_ne hyp, Function.update_of_ne hy0]
        split
        · rfl
        · exact Function.update_of_ne hy _ _
  · dsimp only
    rw [Function.update_self, List.length_erase_of_mem hp, ← h.size_eq]
  · dsimp only
    have hap : a ≠ p := fun he => ha (he ▸ hp)
    rw [Function.update_of_ne hap]
    split
    · rfl
    · rename_i hv
      have hprev : a ≠ k.queuePrev p := fun he => ha (he ▸ hpm.resolve_left hv)
      exact Function.update_of_ne hprev _ _
  · dsimp only
    have hap : a ≠ p := fun he => ha (he ▸ hp)
    rw [Function.update_of_ne hap]
    split
    · rfl
    · rename_i hn
      have hnext : a ≠ k.queueNext p := fun he => ha (he ▸ hnm.resolve_left hn)
      exact Function.update_of_ne hnext _ _

/-- `process_queue_remove` makes the list the list without the process. A removed process has
null links, and nothing changes when it is not in the queue. -/
theorem QueueList.processQueueRemove (h : QueueList k.queueNext k.queuePrev (k.queues q) L)
    (hL : ∀ a ∈ L, a < addressCount) (p : ℕ) :
    ∃ k', processQueueRemove k q p = some k' ∧ Requeued k q L (L.erase p) k' ∧
      (p ∉ L → k' = k) ∧ (p ∈ L → k'.queueNext p = 0 ∧ k'.queuePrev p = 0) := by
  rw [SoKernel.processQueueRemove, detachFromQueue, h.isQueued_eq hL, Option.map_some]
  by_cases hp : p ∈ L
  · rw [if_neg (h.ne_zero hp), decide_eq_true hp, if_pos rfl]
    obtain ⟨hlist, hlinks⟩ := h.unlink hp
    exact ⟨_, rfl, hlist, fun hno => absurd hp hno, fun _ => hlinks⟩
  · rw [decide_eq_false hp, List.erase_of_not_mem hp]
    exact ⟨k, by simp, .refl h, fun _ => rfl, fun hin => absurd hin hp⟩

/-- Appending a process that is not listed. -/
theorem QueueList.append (h : QueueList k.queueNext k.queuePrev (k.queues q) L) (hp0 : p ≠ 0)
    (hp : p ∉ L) : Requeued k q (p :: L) (L ++ [p]) (appendToQueue k q p) := by
  have hne : ∀ a ∈ L, a ≠ p := fun a ha e => hp (e ▸ ha)
  rw [appendToQueue]
  by_cases hhead : (k.queues q).head = 0
  · have hnil : L = [] := by
      cases hL : L with
      | nil => rfl
      | cons x M =>
          have hx := h.head_eq
          rw [hhead, hL] at hx
          exact absurd hx.symm (h.ne_zero (p := x) (by simp [hL]))
    rw [if_pos hhead]
    refine ⟨⟨?_, ?_⟩, fun a ha => ?_, _, _, _, rfl⟩
    · dsimp only
      rw [hnil, List.nil_append, LinkedRing.Ring.singleton_iff, Function.update_self]
      simp [hp0, Ne.symm hp0]
    · simp [hnil]
    · have hap : a ≠ p := fun e => ha (e ▸ List.mem_cons_self)
      exact ⟨Function.update_of_ne hap _ _, Function.update_of_ne hap _ _⟩
  · rw [if_neg hhead]
    have htail : (k.queues q).tail ∈ L := by
      refine h.tail_mem.resolve_left fun ht => ?_
      rw [h.tail_eq] at ht
      cases hL : L using List.reverseRecOn with
      | nil =>
          rw [h.head_eq, hL] at hhead
          exact hhead rfl
      | append_singleton M x =>
          rw [hL] at ht
          exact h.ne_zero (p := x) (by simp [hL]) (by simpa using ht)
    have ht0 := h.ne_zero htail
    have htp := hne _ htail
    refine ⟨⟨?_, ?_⟩, fun a ha => ?_, _, _, _, rfl⟩
    · dsimp only
      rw [Function.update_self]
      refine h.ring.insertBack ?_ ?_ ?_ ?_ ?_ ?_ ?_
      · simpa [hp0] using hp
      · simp [ht0]
      · simp [hp0]
      · simp [hp0, Ne.symm htp]
      · simp
      · intro y hy hyp
        by_cases hy0 : y = 0
        · subst hy0
          simp
        · simp only [Function.update_self] at hy
          simp [hy0, hy, hyp]
      · intro y hy hyp
        simp [hy, hyp]
    · simp [h.size_eq]
    · have hap : a ≠ p := fun e => ha (e ▸ List.mem_cons_self)
      have hat : a ≠ (k.queues q).tail := fun e => ha (e ▸ List.mem_cons_of_mem p htail)
      dsimp only
      rw [Function.update_of_ne hat, Function.update_of_ne hap, Function.update_of_ne hap]
      exact ⟨rfl, rfl⟩

/-- `process_queue_push` makes the list the list without the process, followed by the process. -/
theorem QueueList.processQueuePush (h : QueueList k.queueNext k.queuePrev (k.queues q) L)
    (hL : ∀ a ∈ L, a < addressCount) (hp0 : p ≠ 0) :
    ∃ k', processQueuePush k q p = some k' ∧ Requeued k q (p :: L) (L.erase p ++ [p]) k' := by
  have hdetach : ∃ k', (if k.queueNext p ≠ 0 ∨ k.queuePrev p ≠ 0 ∨ (k.queues q).head = p
      then detachFromQueue k q p else some k) = some k' ∧ Requeued k q L (L.erase p) k' := by
    by_cases hc : k.queueNext p ≠ 0 ∨ k.queuePrev p ≠ 0 ∨ (k.queues q).head = p
    · rw [if_pos hc]
      obtain ⟨k', heq, hlist, -⟩ := h.processQueueRemove hL p
      exact ⟨k', heq, hlist⟩
    · have hp : p ∉ L := fun hp => hc (h.linked_or_head hp)
      rw [if_neg hc, List.erase_of_not_mem hp]
      exact ⟨k, rfl, .refl h⟩
  obtain ⟨k₁, heq, hlist⟩ := hdetach
  rw [SoKernel.processQueuePush, if_neg hp0, heq, Option.map_some]
  have happend := hlist.list.append hp0 h.nodup.not_mem_erase
  refine ⟨_, rfl, (hlist.mono fun a ha => List.mem_cons_of_mem p ha).trans (happend.mono ?_)⟩
  intro a ha
  rcases List.mem_cons.mp ha with rfl | ha
  · exact List.mem_cons_self
  · exact List.mem_cons_of_mem p (List.mem_of_mem_erase ha)

/-- `process_queue_pop` returns the head of the list and leaves the tail. -/
theorem QueueList.processQueuePop (h : QueueList k.queueNext k.queuePrev (k.queues q) L)
    (hL : ∀ a ∈ L, a < addressCount) :
    ∃ k', processQueuePop k q = some (L.head?.getD 0, k') ∧ Requeued k q L L.tail k' ∧
      (L = [] → k' = k) ∧ ∀ x, L.head? = some x → k'.queueNext x = 0 ∧ k'.queuePrev x = 0 := by
  have hhead := h.head_eq
  rw [SoKernel.processQueuePop]
  cases L with
  | nil =>
      rw [hhead]
      exact ⟨k, rfl, .refl h, fun _ => rfl, fun x hx => absurd hx (by simp)⟩
  | cons x M =>
      have hx : x ≠ 0 := h.ne_zero List.mem_cons_self
      obtain ⟨k', heq, hlist, -, hlinks⟩ := h.processQueueRemove hL x
      rw [List.head?_cons, Option.getD_some] at hhead ⊢
      rw [List.erase_cons_head] at hlist
      rw [hhead, if_neg hx]
      refine ⟨k', ?_, hlist, fun hnil => absurd hnil (List.cons_ne_nil x M), fun y hy => ?_⟩
      · rw [show detachFromQueue k q x = some k' from heq, Option.map_some]
      · obtain rfl := Option.some.inj hy
        exact hlinks List.mem_cons_self

end OneQueue

section Specs

variable {k : Kernel} {Q : QueueId → List ℕ} {q : QueueId}

/-- A process of one queue is in no other. -/
theorem Rings.own {qs : QueueId → ProcessQueue} (h : Rings nx pv qs Q) :
    ∀ a ∈ Q q, ∀ q', q' ≠ q → a ∉ Q q' :=
  fun _ ha _ hq' => h.not_mem_of_ne ha hq'

/-- `process_queue_remove` takes the process out of the queue, if it is there. -/
theorem processQueueRemove_spec (h : Rings k.queueNext k.queuePrev k.queues Q) :
    ∃ nx pv qs, processQueueRemove k q p = some
        { k with
          queueNext := nx
          queuePrev := pv
          queues := qs } ∧
      Rings nx pv qs (update Q q ((Q q).erase p)) := by
  obtain ⟨k', heq, hlist, -⟩ := (h.list q).processQueueRemove (h.bounded q) p
  obtain ⟨nx, pv, qs, rfl, hrings⟩ := hlist.rings h h.own
    fun a ha => ⟨List.mem_of_mem_erase ha, h.bounded q a (List.mem_of_mem_erase ha)⟩
  exact ⟨nx, pv, qs, heq, hrings⟩

/-- `process_queue_push` moves the process to the end of the queue. The process must be in
no other queue: only the queue that it is pushed into is searched. -/
theorem processQueuePush_spec (h : Rings k.queueNext k.queuePrev k.queues Q) (hp0 : p ≠ 0)
    (hlt : p < addressCount) (hfree : ∀ q', q' ≠ q → p ∉ Q q') :
    ∃ nx pv qs, processQueuePush k q p = some
        { k with
          queueNext := nx
          queuePrev := pv
          queues := qs } ∧
      Rings nx pv qs (update Q q ((Q q).erase p ++ [p])) := by
  obtain ⟨k', heq, hlist⟩ := (h.list q).processQueuePush (h.bounded q) hp0
  have hown : ∀ a ∈ p :: Q q, ∀ q', q' ≠ q → a ∉ Q q' := by
    intro a ha
    rcases List.mem_cons.mp ha with rfl | ha
    · exact hfree
    · exact h.own a ha
  have hmem : ∀ a ∈ (Q q).erase p ++ [p], a ∈ p :: Q q ∧ a < addressCount := by
    intro a ha
    rcases List.mem_append.mp ha with ha | ha
    · have hm := List.mem_of_mem_erase ha
      exact ⟨List.mem_cons_of_mem p hm, h.bounded q a hm⟩
    · rw [List.mem_singleton.mp ha]
      exact ⟨List.mem_cons_self, hlt⟩
  obtain ⟨nx, pv, qs, rfl, hrings⟩ := hlist.rings h hown hmem
  exact ⟨nx, pv, qs, heq, hrings⟩

/-- `process_queue_pop` takes the first process, or gives `NULL` for an empty queue. -/
theorem processQueuePop_spec (h : Rings k.queueNext k.queuePrev k.queues Q) :
    ∃ nx pv qs, processQueuePop k q = some ((Q q).head?.getD 0,
        { k with
          queueNext := nx
          queuePrev := pv
          queues := qs }) ∧
      Rings nx pv qs (update Q q (Q q).tail) := by
  obtain ⟨k', heq, hlist, -⟩ := (h.list q).processQueuePop (h.bounded q)
  obtain ⟨nx, pv, qs, rfl, hrings⟩ := hlist.rings h h.own
    fun a ha => ⟨List.mem_of_mem_tail ha, h.bounded q a (List.mem_of_mem_tail ha)⟩
  exact ⟨nx, pv, qs, heq, hrings⟩

end Specs

section Refinement

variable {k : Kernel} {q : QueueId}

theorem processQueueInit_list (k : Kernel) (q : QueueId) :
    QueueList (processQueueInit k q).queueNext (processQueueInit k q).queuePrev
      ((processQueueInit k q).queues q) [] := by
  refine ⟨?_, ?_⟩
  · rw [LinkedRing.Ring.nil_iff]
    simp [processQueueInit]
  · simp [processQueueInit]

/-- The operations on a queue are those on the list that it represents, and touch the links of
the listed processes and of the pushed one only. -/
theorem process_queue_refines_list {p : ℕ}
    (h : QueueList k.queueNext k.queuePrev (k.queues q) L) (hL : ∀ a ∈ L, a < addressCount)
    (hp : p ≠ 0) :
    (∃ k', processQueuePush k q p = some k' ∧ Requeued k q (p :: L) (L.erase p ++ [p]) k') ∧
    (∃ k', processQueueRemove k q p = some k' ∧ Requeued k q L (L.erase p) k' ∧
      (p ∉ L → k' = k) ∧ (p ∈ L → k'.queueNext p = 0 ∧ k'.queuePrev p = 0)) ∧
    ∃ k', processQueuePop k q = some (L.head?.getD 0, k') ∧ Requeued k q L L.tail k' ∧
      (L = [] → k' = k) ∧ ∀ x, L.head? = some x → k'.queueNext x = 0 ∧ k'.queuePrev x = 0 :=
  ⟨h.processQueuePush hL hp, h.processQueueRemove hL p, h.processQueuePop hL⟩

/-- A queue of two processes. -/
def pairQueued : Kernel :=
  { bootKernel with
    queueNext := update (fun _ => 0) 8 16
    queuePrev := update (fun _ => 0) 16 8
    queues := update (fun _ => ⟨0, 0, 0⟩) .blocked ⟨8, 16, 2⟩ }

theorem pairQueued_list : QueueList pairQueued.queueNext pairQueued.queuePrev
    (pairQueued.queues .blocked) [8, 16] := by
  refine ⟨⟨by decide, ?_⟩, rfl⟩
  simp [pairQueued, LinkedRing.Linked]

/-- Pushing the head of a queue of two processes moves it to the end. -/
theorem process_queue_refines_pair :
    ∃ k', processQueuePush pairQueued .blocked 8 = some k' ∧
      Requeued pairQueued .blocked [8, 8, 16] [16, 8] k' :=
  (process_queue_refines_list (p := 8) pairQueued_list
    (by rw [addressCount]; decide) (by decide)).1

end Refinement
end SoKernel
