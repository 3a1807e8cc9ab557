import SoKernel.Proc.Control

/-!
# Queues link existing processes only

The queue functions store the process that they are given and what is linked already. So in any
order of calls, also where a queue is no list any more, a link is null or leads to an existing
process.
-/

namespace SoKernel

open Function (update)

variable {k k' : Kernel} {p : ℕ} {q : QueueId}

section Model

/-- A null pointer or an existing process. -/
def Known (k : Kernel) (p : ℕ) : Prop := p = 0 ∨ k.allocated p = true

/-- All links and ends of the queues are known. -/
structure Linked (k : Kernel) : Prop where
  next : ∀ p, Known k (k.queueNext p)
  prev : ∀ p, Known k (k.queuePrev p)
  head : ∀ q, Known k (k.queues q).head
  tail : ∀ q, Known k (k.queues q).tail

/-- What a queue function does besides its result: it changes the links and the one queue. -/
structure Relinked (k k' : Kernel) (q : QueueId) : Prop where
  links : ∃ l, k' = k.relink l
  others : ∀ q', q' ≠ q → k'.queues q' = k.queues q'
  linked : Linked k'

end Model

theorem Known.null (k : Kernel) : Known k 0 := Or.inl rfl

theorem Known.update {f : ℕ → ℕ} {v : ℕ} (hf : ∀ a, Known k (f a)) (hv : Known k v) (p a : ℕ) :
    Known k (update f p v a) := by
  rw [Function.update_apply]
  split
  · exact hv
  · exact hf a

namespace Linked

theorem refl (h : Linked k) (q : QueueId) : Relinked k k q :=
  ⟨⟨⟨k.queueNext, k.queuePrev, k.queues⟩, rfl⟩, fun _ _ => rfl, h⟩

theorem setQueue (h : Linked k) {queue : ProcessQueue} (hhead : Known k queue.head)
    (htail : Known k queue.tail) : Relinked k { k with queues := update k.queues q queue } q := by
  refine ⟨⟨⟨k.queueNext, k.queuePrev, _⟩, rfl⟩, fun q' hq => Function.update_of_ne hq _ _, h.next,
    h.prev, fun q' => ?_, fun q' => ?_⟩
  all_goals
    show Known k _
    dsimp only
    rw [Function.update_apply]
    split
  · exact hhead
  · exact h.head q'
  · exact htail
  · exact h.tail q'

theorem setNext (h : Linked k) {v : ℕ} (hv : Known k v) (a : ℕ) :
    Relinked k { k with queueNext := update k.queueNext a v } q :=
  ⟨⟨⟨_, k.queuePrev, k.queues⟩, rfl⟩, fun _ _ => rfl, Known.update h.next hv a, h.prev, h.head, h.tail⟩

theorem setPrev (h : Linked k) {v : ℕ} (hv : Known k v) (a : ℕ) :
    Relinked k { k with queuePrev := update k.queuePrev a v } q :=
  ⟨⟨⟨k.queueNext, _, k.queues⟩, rfl⟩, fun _ _ => rfl, h.next, Known.update h.prev hv a, h.head, h.tail⟩

end Linked

theorem Relinked.trans {k'' : Kernel} (h : Relinked k k' q) (h' : Relinked k' k'' q) :
    Relinked k k'' q := by
  obtain ⟨l, rfl⟩ := h.links
  obtain ⟨l', rfl⟩ := h'.links
  exact ⟨⟨l', rfl⟩, fun q' hq => (h'.others q' hq).trans (h.others q' hq), h'.linked⟩

section Functions

theorem Linked.unlinkFromQueue (h : Linked k) (q : QueueId) (p : ℕ) :
    Relinked k (unlinkFromQueue k q p) q := by
  have hfirst : Relinked k (if k.queuePrev p ≠ 0 then
        { k with queueNext := update k.queueNext (k.queuePrev p) (k.queueNext p) }
      else { k with queues := update k.queues q { k.queues q with head := k.queueNext p } }) q := by
    split
    · exact h.setNext (h.next p) _
    · exact h.setQueue (h.next p) (h.tail q)
  unfold SoKernel.unlinkFromQueue
  generalize (if k.queuePrev p ≠ 0 then
      { k with queueNext := update k.queueNext (k.queuePrev p) (k.queueNext p) }
    else { k with queues := update k.queues q { k.queues q with head := k.queueNext p } }) = k₁
    at hfirst
  have h₁ := hfirst.linked
  have hsecond : Relinked k₁ (if k₁.queueNext p ≠ 0 then
        { k₁ with queuePrev := update k₁.queuePrev (k₁.queueNext p) (k₁.queuePrev p) }
      else { k₁ with queues := update k₁.queues q { k₁.queues q with tail := k₁.queuePrev p } }) q := by
    split
    · exact h₁.setPrev (h₁.prev p) _
    · exact h₁.setQueue (h₁.head q) (h₁.prev p)
  dsimp only
  generalize (if k₁.queueNext p ≠ 0 then
      { k₁ with queuePrev := update k₁.queuePrev (k₁.queueNext p) (k₁.queuePrev p) }
    else { k₁ with queues := update k₁.queues q { k₁.queues q with tail := k₁.queuePrev p } }) = k₂
    at hsecond
  have h₂ := hsecond.linked
  have hthird : Relinked k₂ (if (k₂.queues q).size ≠ 0 then
        { k₂ with queues := update k₂.queues q { k₂.queues q with size := (k₂.queues q).size - 1 } }
      else k₂) q := by
    split
    · exact h₂.setQueue (h₂.head q) (h₂.tail q)
    · exact h₂.refl q
  generalize (if (k₂.queues q).size ≠ 0 then
      { k₂ with queues := update k₂.queues q { k₂.queues q with size := (k₂.queues q).size - 1 } }
    else k₂) = k₃ at hthird
  have hlast := hthird.trans (hthird.linked.setNext (.null k₃) p)
  exact hfirst.trans (hsecond.trans (hlast.trans (hlast.linked.setPrev (.null k₃) p)))

theorem Linked.detachFromQueue (h : Linked k) (hcall : detachFromQueue k q p = some k') :
    Relinked k k' q := by
  rw [SoKernel.detachFromQueue] at hcall
  split at hcall
  · cases hcall
    exact h.refl q
  · obtain ⟨found, -, rfl⟩ := Option.map_eq_some_iff.mp hcall
    split
    · exact h.unlinkFromQueue q p
    · exact h.refl q

theorem Linked.remove (h : Linked k) (hcall : processQueueRemove k q p = some k') :
    Relinked k k' q := h.detachFromQueue hcall

theorem Linked.appendToQueue (h : Linked k) (q : QueueId) (hp : Known k p) :
    Relinked k (appendToQueue k q p) q := by
  rw [SoKernel.appendToQueue]
  split
  · have hq : Relinked k { k with queues := update k.queues q ⟨p, p, 1⟩ } q := h.setQueue hp hp
    have hnext := hq.trans (hq.linked.setNext (.null _) p)
    exact hnext.trans (hnext.linked.setPrev (.null _) p)
  · have hprev := h.setPrev (q := q) (h.tail q) p
    have hnext := hprev.trans (hprev.linked.setNext (.null _) p)
    have hlink := hnext.trans (hnext.linked.setNext (v := p) hp (k.queues q).tail)
    exact hlink.trans (hlink.linked.setQueue (h.head q) hp)

theorem Linked.push (h : Linked k) (hp : Known k p) (hcall : processQueuePush k q p = some k') :
    Relinked k k' q := by
  rw [processQueuePush] at hcall
  split at hcall
  · cases hcall
    exact h.refl q
  · obtain ⟨k₁, hdetach, rfl⟩ := Option.map_eq_some_iff.mp hcall
    have hfirst : Relinked k k₁ q := by
      split at hdetach
      · exact h.detachFromQueue hdetach
      · cases hdetach
        exact h.refl q
    refine hfirst.trans (hfirst.linked.appendToQueue q ?_)
    obtain ⟨l, rfl⟩ := hfirst.links
    exact hp

/-- The popped process is known. -/
theorem Linked.pop (h : Linked k) (hcall : processQueuePop k q = some (p, k')) :
    p = (k.queues q).head ∧ Relinked k k' q := by
  rw [processQueuePop] at hcall
  split at hcall
  · rename_i hzero
    cases hcall
    exact ⟨hzero.symm, h.refl q⟩
  · obtain ⟨k₁, hdetach, heq⟩ := Option.map_eq_some_iff.mp hcall
    cases heq
    exact ⟨rfl, h.detachFromQueue hdetach⟩

theorem Linked.readyPush (h : Linked k) (hp : Known k p) (hcall : readyQueuePush k p = some k') :
    ∃ pr, Relinked k k' (.ready pr) := by
  rw [readyQueuePush] at hcall
  split at hcall
  · cases hcall
    exact ⟨0, h.refl _⟩
  · exact ⟨_, h.push hp hcall⟩

end Functions

section Search

/-- A walk along links that are known finds known processes. -/
theorem walkFind_known {nx : ℕ → ℕ} {found : ℕ → Bool} (hnext : ∀ a, Known k (nx a)) (n : ℕ) {y x : ℕ}
    (hy : Known k y) (h : LinkedRing.walkFind nx 0 found n y = some (some x)) : Known k x := by
  induction n generalizing y with
  | zero => cases h
  | succ n ih =>
      rw [LinkedRing.walkFind] at h
      split at h
      · cases h
      · split at h
        · cases h
          exact hy
        · exact ih (hnext y) h

theorem Linked.findInQueue (h : Linked k) {pid : ℕ} (hcall : findInQueue k q pid = some p) :
    Known k p := by
  rw [SoKernel.findInQueue] at hcall
  obtain ⟨x, hwalk, rfl⟩ := Option.map_eq_some_iff.mp hcall
  cases x with
  | none => exact .null k
  | some x => exact walkFind_known h.next _ (h.head q) hwalk

theorem Linked.findInQueues (h : Linked k) {pid : ℕ} (qs : List QueueId)
    (hcall : findInQueues k pid qs = some p) : Known k p := by
  induction qs with
  | nil =>
      cases hcall
      exact .null k
  | cons q qs ih =>
      rw [SoKernel.findInQueues, Option.bind_eq_bind] at hcall
      obtain ⟨x, hfind, hrest⟩ := Option.bind_eq_some_iff.mp hcall
      split at hrest
      · cases hrest
        exact h.findInQueue hfind
      · exact ih hrest

/-- The search by identifier finds known processes. -/
theorem Linked.findByPid (h : Linked k) (hcur : Known k k.current) {pid : ℕ}
    (hcall : schedulerFindByPid k pid = some p) : Known k p := by
  rw [schedulerFindByPid, Option.bind_eq_bind] at hcall
  obtain ⟨x, hfind, hrest⟩ := Option.bind_eq_some_iff.mp hcall
  cases hrest
  split
  · exact h.findInQueues _ hfind
  · split
    · exact hcur
    · exact .null k

end Search
end SoKernel
