import SoKernel.Proc.OpenEffects

/-!
# The queues that `schedule` takes from

The loop that wakes waiters leaves them in the queue of blocked processes, which from then on may
run into a ready queue. The switch takes processes from the ready queues and from the queue of
finished processes only. `Pickable` says that these are lists of such processes, whatever the queue
of blocked processes looks like.
-/

namespace SoKernel

open Function (update)

variable {k k' : Kernel} {Q Q' : QueueId → List ℕ} {q : QueueId} {p : ℕ} {pr : Priority}
  {L F dead : List ℕ} {l : Links}

section Lists

/-- The ready queues and the queue of finished processes are the lists `Q` of existing processes
in the state of their queue. The queue of blocked processes does not count. -/
structure Pickable (k : Kernel) (Q : QueueId → List ℕ) : Prop where
  rings : Rings k.queueNext k.queuePrev (update k.queues .blocked ⟨0, 0, 0⟩) Q
  ready : ∀ i, ∀ p ∈ Q (.ready i), k.allocated p = true ∧ k.state p = .ready ∧ k.priority p = i
  finished : ∀ p ∈ Q .finished, k.allocated p = true ∧ k.state p = .finished

/-- The process is in none of the lists. -/
def Unlisted (Q : QueueId → List ℕ) (p : ℕ) : Prop := ∀ q, p ∉ Q q

/-- The links `l` make the lists `Q'` where there were the lists `Q`. Only the listed processes and
`p` are linked in another way. -/
structure Repicked (k : Kernel) (Q : QueueId → List ℕ) (p : ℕ) (Q' : QueueId → List ℕ) (l : Links) :
    Prop where
  rings : Rings l.next l.prev (update l.queues .blocked ⟨0, 0, 0⟩) Q'
  links : ∀ a, a ≠ p → Unlisted Q a → l.next a = k.queueNext a ∧ l.prev a = k.queuePrev a
  blocked : l.queues .blocked = k.queues .blocked

theorem QueueList.head_mem {nx pv : ℕ → ℕ} {queue : ProcessQueue} (h : QueueList nx pv queue L) :
    queue.head = 0 ∨ queue.head ∈ L := by
  rw [h.head_eq]
  cases L with
  | nil => exact Or.inl rfl
  | cons x L => exact Or.inr List.mem_cons_self

theorem Rings.relinked {nx pv nx' pv' : ℕ → ℕ} {qs : QueueId → ProcessQueue} (h : Rings nx pv qs Q)
    (hlinks : ∀ q, ∀ a ∈ Q q, nx' a = nx a ∧ pv' a = pv a) : Rings nx' pv' qs Q :=
  ⟨fun q => (h.list q).congr (fun a ha => (hlinks q a ha).1) fun a ha => (hlinks q a ha).2,
    h.disjoint, h.bounded⟩

namespace Pickable

theorem list (h : Pickable k Q) (hq : q ≠ .blocked) :
    QueueList k.queueNext k.queuePrev (k.queues q) (Q q) := by
  have hlist := h.rings.list q
  rwa [Function.update_of_ne hq] at hlist

theorem blocked_nil (h : Pickable k Q) : Q .blocked = [] := by
  have hsize := (h.rings.list .blocked).size_eq
  rw [Function.update_self] at hsize
  exact List.length_eq_zero_iff.mp hsize.symm

/-- A listed process is ready or finished, and its queue is that of its state. -/
theorem listed (h : Pickable k Q) (hp : p ∈ Q q) : k.allocated p = true ∧
    (k.state p = .ready ∧ q = .ready (k.priority p) ∨ k.state p = .finished ∧ q = .finished) := by
  cases q with
  | ready i =>
      obtain ⟨ha, hs, rfl⟩ := h.ready i p hp
      exact ⟨ha, Or.inl ⟨hs, rfl⟩⟩
  | blocked =>
      rw [h.blocked_nil] at hp
      cases hp
  | finished =>
      obtain ⟨ha, hs⟩ := h.finished p hp
      exact ⟨ha, Or.inr ⟨hs, rfl⟩⟩

theorem unlisted (h : Pickable k Q) (hr : k.state p ≠ .ready) (hf : k.state p ≠ .finished) :
    Unlisted Q p :=
  fun _ hp => (h.listed hp).2.elim (fun hs => hr hs.1) fun hs => hf hs.1

/-- Only the queues, and the fields of the listed processes, matter. -/
theorem congr (h : Pickable k Q) (hn : k'.queueNext = k.queueNext) (hv : k'.queuePrev = k.queuePrev)
    (hqs : k'.queues = k.queues) (ha : ∀ q, ∀ p ∈ Q q, k'.allocated p = k.allocated p)
    (hs : ∀ q, ∀ p ∈ Q q, k'.state p = k.state p)
    (hpr : ∀ q, ∀ p ∈ Q q, k'.priority p = k.priority p) : Pickable k' Q where
  rings := by
    rw [hn, hv, hqs]
    exact h.rings
  ready i p hp := by
    rw [ha _ p hp, hs _ p hp, hpr _ p hp]
    exact h.ready i p hp
  finished p hp := by
    rw [ha _ p hp, hs _ p hp]
    exact h.finished p hp

/-- An operation on one of the queues. -/
theorem requeue {T : List ℕ} (h : Pickable k Q) (hq : q ≠ .blocked) (hreq : Requeued k q T L k')
    (hT : ∀ a ∈ T, a = p ∨ a ∈ Q q) (hfree : ∀ q', q' ≠ q → p ∉ Q q')
    (hL : ∀ a ∈ L, a ∈ T ∧ a < addressCount) :
    ∃ l, k' = k.relink l ∧ Repicked k Q p (update Q q L) l := by
  have hlist := hreq.list
  have hlinks := hreq.links
  have hother : ∀ a ∈ T, ∀ q', q' ≠ q → a ∉ Q q' := by
    intro a ha q' hq'
    rcases hT a ha with rfl | hm
    · exact hfree q' hq'
    · exact h.rings.not_mem_of_ne hm hq'
  obtain ⟨nx, pv, queue, rfl⟩ := hreq.rest
  dsimp only at hlist hlinks
  rw [Function.update_self] at hlist
  refine ⟨⟨nx, pv, update k.queues q queue⟩, rfl, ?_, fun a hap hun => hlinks a fun hm => ?_, ?_⟩
  · dsimp only
    rw [Function.update_comm hq]
    refine h.rings.update_queue hlist (fun a ha => ⟨hother a (hL a ha).1, (hL a ha).2⟩) ?_ ?_
    · exact fun q' hq' a ha => (hlinks a fun hm => hother a hm q' hq' ha).1
    · exact fun q' hq' a ha => (hlinks a fun hm => hother a hm q' hq' ha).2
  · exact (hT a hm).elim hap (hun q)
  · exact Function.update_of_ne hq.symm _ _

theorem remove (h : Pickable k Q) (hq : q ≠ .blocked) (hp : p ∈ Q q)
    (step : processQueueRemove k q p = some k') :
    ∃ l, k' = k.relink l ∧ Repicked k Q p (update Q q ((Q q).erase p)) l := by
  obtain ⟨k₁, heq, hreq, -⟩ := (h.list hq).processQueueRemove (h.rings.bounded q) p
  obtain rfl := Option.some_inj.mp (step.symm.trans heq)
  refine h.requeue hq hreq (fun a ha => Or.inr ha) (fun q' hq' => h.rings.not_mem_of_ne hp hq') ?_
  exact fun a ha => ⟨List.mem_of_mem_erase ha, h.rings.bounded q a (List.mem_of_mem_erase ha)⟩

theorem push (h : Pickable k Q) (hq : q ≠ .blocked) (hp0 : p ≠ 0) (hlt : p < addressCount)
    (hfree : ∀ q', q' ≠ q → p ∉ Q q') (step : processQueuePush k q p = some k') :
    ∃ l, k' = k.relink l ∧ Repicked k Q p (update Q q ((Q q).erase p ++ [p])) l := by
  obtain ⟨k₁, heq, hreq⟩ := (h.list hq).processQueuePush (h.rings.bounded q) hp0
  obtain rfl := Option.some_inj.mp (step.symm.trans heq)
  refine h.requeue hq hreq (fun a ha => List.mem_cons.mp ha) hfree fun a ha => ?_
  rcases List.mem_append.mp ha with ha | ha
  · have hm := List.mem_of_mem_erase ha
    exact ⟨List.mem_cons_of_mem p hm, h.rings.bounded q a hm⟩
  · rw [List.mem_singleton.mp ha]
    exact ⟨List.mem_cons_self, hlt⟩

theorem pop (h : Pickable k Q) (hq : q ≠ .blocked) (step : processQueuePop k q = some (p, k')) :
    p = (Q q).head?.getD 0 ∧ ∃ l, k' = k.relink l ∧ Repicked k Q p (update Q q (Q q).tail) l := by
  obtain ⟨k₁, heq, hreq, hnil, -⟩ := (h.list hq).processQueuePop (h.rings.bounded q)
  obtain ⟨hp, rfl⟩ := Prod.mk.inj (Option.some_inj.mp (step.symm.trans heq))
  refine ⟨hp, h.requeue hq hreq (fun a ha => Or.inr ha) (fun q' hq' => ?_) ?_⟩
  · cases hL : Q q with
    | nil =>
        rw [hL] at hp
        exact hp ▸ fun hm => h.rings.ne_zero hm rfl
    | cons x M =>
        rw [hL] at hp
        have hx : x ∈ Q q := by simp [hL]
        exact hp ▸ h.rings.not_mem_of_ne hx hq'
  · exact fun a ha => ⟨List.mem_of_mem_tail ha, h.rings.bounded q a (List.mem_of_mem_tail ha)⟩

end Pickable

end Lists

section Ageing

/-- What `apply_aging` does to these queues: it moves processes between the ready queues. -/
structure Reaged (k : Kernel) (Q : QueueId → List ℕ) (k' : Kernel) (Q' : QueueId → List ℕ) : Prop where
  pick : Pickable k' Q'
  finished : Q' .finished = Q .finished
  unlisted : ∀ a, Unlisted Q a ↔ Unlisted Q' a
  links : ∀ a, Unlisted Q a → k'.queueNext a = k.queueNext a ∧ k'.queuePrev a = k.queuePrev a
  blocked : k'.queues .blocked = k.queues .blocked
  shape : ∃ s, k' = k.resched s

theorem Pickable.reaged (h : Pickable k Q) : Reaged k Q k Q :=
  ⟨h, rfl, fun _ => Iff.rfl, fun _ _ => ⟨rfl, rfl⟩, rfl, k.ownSched, rfl⟩

theorem Reaged.trans {k₁ : Kernel} {Q₁ : QueueId → List ℕ} (h : Reaged k Q k₁ Q₁)
    (h' : Reaged k₁ Q₁ k' Q') : Reaged k Q k' Q' := by
  obtain ⟨s, rfl⟩ := h.shape
  obtain ⟨s', rfl⟩ := h'.shape
  refine ⟨h'.pick, h'.finished.trans h.finished, fun a => (h.unlisted a).trans (h'.unlisted a),
    fun a hun => ?_, h'.blocked.trans h.blocked, s', rfl⟩
  obtain ⟨hnext, hprev⟩ := h'.links a ((h.unlisted a).mp hun)
  exact ⟨hnext.trans (h.links a hun).1, hprev.trans (h.links a hun).2⟩

/-- Moving a process of a ready queue to the next priority. -/
theorem Pickable.boost (h : Pickable k Q) (hp : p ∈ Q (.ready pr)) (hlt : (k.priority p : ℕ) < processPriorityMax)
    {k₁ k₂ : Kernel} (remove : processQueueRemove k (.ready pr) p = some k₁)
    (push : processQueuePush
      { k₁ with priority := update k₁.priority p (clampPriority (k₁.priority p + agingBoost)) }
      (.ready (update k₁.priority p (clampPriority (k₁.priority p + agingBoost)) p)) p = some k₂)
    (wait : ℕ → ℕ) : ∃ Q', Reaged k Q { k₂ with waitTicks := wait } Q' := by
  obtain ⟨ha, hs, hpr⟩ := h.ready pr p hp
  have hp0 := h.rings.ne_zero hp
  have hnodup := (h.rings.list (.ready pr)).nodup
  obtain ⟨l₁, rfl, hl₁⟩ := h.remove (by simp) hp remove
  dsimp only at push
  rw [Function.update_self] at push
  have hboost := clampPriority_boost hlt
  generalize clampPriority (k.priority p + agingBoost) = high at push hboost
  have hfree : Unlisted (update Q (.ready pr) ((Q (.ready pr)).erase p)) p := by
    intro q hm
    rw [mem_lift hnodup] at hm
    exact hm.2 ⟨rfl, by_contra fun hq => h.rings.not_mem_of_ne hp hq hm.1⟩
  have hmid : Pickable ({ k with priority := update k.priority p high }.relink l₁)
      (update Q (.ready pr) ((Q (.ready pr)).erase p)) := by
    refine ⟨hl₁.rings, fun i a hm => ?_, fun a hm => ?_⟩
    · have hap : a ≠ p := fun he => hfree _ (he ▸ hm)
      rw [mem_lift hnodup] at hm
      dsimp only
      rw [Function.update_of_ne hap]
      exact h.ready i a hm.1
    · rw [mem_lift hnodup] at hm
      exact h.finished a hm.1
  obtain ⟨l₂, rfl, hl₂⟩ := hmid.push (by simp) hp0 (h.rings.bounded _ p hp) (fun q _ => hfree q) push
  have hput : ∀ {a q}, a ∈ update (update Q (.ready pr) ((Q (.ready pr)).erase p)) (.ready high)
      ((update Q (.ready pr) ((Q (.ready pr)).erase p) (.ready high)).erase p ++ [p]) q ↔
        if a = p then q = .ready high else a ∈ update Q (.ready pr) ((Q (.ready pr)).erase p) q :=
    fun {a q} => mem_put fun q' _ => hfree q'
  have hout : ∀ {a}, Unlisted Q a → a ≠ p ∧ Unlisted (update Q (.ready pr) ((Q (.ready pr)).erase p)) a := by
    intro a hun
    refine ⟨fun he => hun _ (he ▸ hp), fun q hm => ?_⟩
    rw [mem_lift hnodup] at hm
    exact hun q hm.1
  refine ⟨_, ⟨hl₂.rings, fun i a hm => ?_, fun a hm => ?_⟩, ?_, fun a => ⟨fun hun q hm => ?_, fun hun q hm => ?_⟩,
    fun a hun => ?_,
    hl₂.blocked.trans hl₁.blocked, ⟨⟨_, _, _, _, _, _, _, _, ⟨_, _, _⟩⟩, rfl⟩⟩
  · rw [hput] at hm
    dsimp only
    split at hm
    · rename_i hap
      obtain rfl := hap
      rw [Function.update_self]
      exact ⟨ha, hs, (QueueId.ready.inj hm).symm⟩
    · exact hmid.ready i a hm
  · rw [hput] at hm
    split at hm
    · cases hm
    · exact hmid.finished a hm
  · rw [Function.update_of_ne (by simp), Function.update_of_ne (by simp)]
  · rw [hput, if_neg (hout hun).1] at hm
    exact (hout hun).2 q hm
  · by_cases hap : a = p
    · exact hun (.ready high) (hput.mpr (by rw [if_pos hap]))
    · exact hun q (hput.mpr (by rw [if_neg hap, mem_lift hnodup]; exact ⟨hm, fun he => hap he.1⟩))
  · obtain ⟨hap, hun'⟩ := hout hun
    obtain ⟨hnext, hprev⟩ := hl₂.links a hap hun'
    exact ⟨hnext.trans (hl₁.links a hap hun).1, hprev.trans (hl₁.links a hap hun).2⟩

/-- The walk over one ready queue, if it ends. -/
theorem Pickable.agingLoop (n : ℕ) (h : Pickable k Q) (hp : p = 0 ∨ p ∈ Q (.ready pr))
    (step : agingLoop pr n p k = some k') : ∃ Q', Reaged k Q k' Q' := by
  induction n generalizing k Q p with
  | zero => cases step
  | succ n ih =>
      rw [SoKernel.agingLoop] at step
      by_cases hp0 : p = 0
      · rw [if_pos hp0, Option.some_inj] at step
        exact ⟨Q, step ▸ h.reaged⟩
      · rw [if_neg hp0] at step
        have hmem := hp.resolve_left hp0
        have hcounted : Reaged k Q { k with waitTicks := update k.waitTicks p (k.waitTicks p + 1) } Q :=
          ⟨h.congr rfl rfl rfl (fun _ _ _ => rfl) (fun _ _ _ => rfl) fun _ _ _ => rfl, rfl, fun _ => Iff.rfl,
            fun _ _ => ⟨rfl, rfl⟩, rfl, ⟨⟨_, _, _, _, _, _, _, _, ⟨_, _, _⟩⟩, rfl⟩⟩
        dsimp only at step
        split at step
        · rename_i hold
          rw [Option.bind_eq_bind] at step
          obtain ⟨k₁, hremove, hrest⟩ := Option.bind_eq_some_iff.mp step
          obtain ⟨k₂, hpush, hloop⟩ := Option.bind_eq_some_iff.mp hrest
          obtain ⟨Q₂, h₂⟩ := hcounted.pick.boost hmem hold.2 hremove hpush (update k₂.waitTicks p 0)
          obtain ⟨Q', h'⟩ := ih h₂.pick (h₂.pick.list (by simp)).head_mem hloop
          exact ⟨Q', (hcounted.trans h₂).trans h'⟩
        · obtain ⟨Q', h'⟩ := ih hcounted.pick ((h.list (by simp)).next_mem hmem) step
          exact ⟨Q', hcounted.trans h'⟩

theorem Pickable.ageQueues (prs : List Priority) (h : Pickable k Q) (step : ageQueues k prs = some k') :
    ∃ Q', Reaged k Q k' Q' := by
  induction prs generalizing k Q with
  | nil =>
      rw [SoKernel.ageQueues, Option.some_inj] at step
      exact ⟨Q, step ▸ h.reaged⟩
  | cons pr prs ih =>
      rw [SoKernel.ageQueues, Option.bind_eq_bind] at step
      obtain ⟨k₁, hloop, hrest⟩ := Option.bind_eq_some_iff.mp step
      obtain ⟨Q₁, h₁⟩ := h.agingLoop _ (h.list (by simp)).head_mem hloop
      obtain ⟨Q', h'⟩ := ih h₁.pick hrest
      exact ⟨Q', h₁.trans h'⟩

end Ageing

section Save

/-- The processes besides `p` whose links change when `p` is pushed onto the queue of blocked
processes. -/
def blockedNeighbours (k : Kernel) (p : ℕ) : List ℕ :=
  (k.queues .blocked).tail ::
    if isQueued k .blocked p = some true then [k.queuePrev p, k.queueNext p] else []

/-- Aging leaves who stands next to a process in the queue of blocked processes. -/
theorem Reaged.neighbours (h : Reaged k Q k' Q') (hp : Unlisted Q p) :
    ∀ a ∈ blockedNeighbours k' p, a ∈ blockedNeighbours k p := by
  have hfound : isQueued k' .blocked p = some true → isQueued k .blocked p = some true := by
    intro hq
    obtain ⟨found, hwalk, hsome⟩ := Option.map_eq_some_iff.mp hq
    obtain ⟨x, rfl⟩ := Option.isSome_iff_exists.mp hsome
    rw [h.blocked] at hwalk
    rw [isQueued, LinkedRing.walkFind_of_outside (S := fun a => ¬Unlisted Q a) (fun a ha => ?_) (fun a ha => ?_)
      (fun a ha => (h.links a (not_not.mp ha)).1) hwalk]
    · rfl
    · rw [decide_eq_false]
      rintro rfl
      exact ha hp
    · rw [h.unlisted, Unlisted, not_forall] at ha
      obtain ⟨q, hm⟩ := ha
      rw [not_not] at hm
      have hq : q ≠ .blocked := by
        rintro rfl
        rw [h.pick.blocked_nil] at hm
        cases hm
      refine ((h.pick.list hq).next_mem hm).imp_right fun hn => ?_
      rw [h.unlisted]
      exact fun hun => hun q hn
  intro a ha
  rw [blockedNeighbours, h.blocked, (h.links p hp).1, (h.links p hp).2] at ha
  rw [blockedNeighbours]
  split at ha
  · rename_i hq
    rw [if_pos (hfound hq)]
    exact ha
  · rw [List.mem_singleton.mp ha]
    exact List.mem_cons_self

/-- Copying the value at `p` to another place leaves it at `p`. -/
theorem update_copy (f : ℕ → ℕ) (a p : ℕ) : update f a (f p) p = f p := by
  rw [Function.update_apply, ite_self]

theorem unlinkFromQueue_links {a : ℕ} (hp : a ≠ p) (hv : a ≠ k.queuePrev p) (hn : a ≠ k.queueNext p) :
    (unlinkFromQueue k q p).queueNext a = k.queueNext a ∧
      (unlinkFromQueue k q p).queuePrev a = k.queuePrev a := by
  unfold unlinkFromQueue
  dsimp only
  split_ifs <;> simp only [update_copy, Function.update_of_ne hp, Function.update_of_ne hv,
    Function.update_of_ne hn, and_self]

theorem unlinkFromQueue_queues {q' : QueueId} (hq : q' ≠ q) :
    (unlinkFromQueue k q p).queues q' = k.queues q' := by
  unfold unlinkFromQueue
  dsimp only
  split_ifs <;> simp only [Function.update_of_ne hq]

theorem unlinkFromQueue_tail :
    ((unlinkFromQueue k q p).queues q).tail = (k.queues q).tail ∨
      ((unlinkFromQueue k q p).queues q).tail = k.queuePrev p := by
  unfold unlinkFromQueue
  dsimp only
  split_ifs <;> simp

/-- The part of the push that appends the process. -/
theorem appendToQueue_links {a : ℕ} (hp : a ≠ p) (ht : a ≠ (k.queues q).tail) :
    (appendToQueue k q p).queueNext a = k.queueNext a ∧
      (appendToQueue k q p).queuePrev a = k.queuePrev a := by
  unfold appendToQueue
  split
  · exact ⟨Function.update_of_ne hp _ _, Function.update_of_ne hp _ _⟩
  · exact ⟨(Function.update_of_ne ht _ _).trans (Function.update_of_ne hp _ _), Function.update_of_ne hp _ _⟩

theorem appendToQueue_queues {q' : QueueId} (hq : q' ≠ q) :
    (appendToQueue k q p).queues q' = k.queues q' := by
  unfold appendToQueue
  split
  · exact Function.update_of_ne hq _ _
  · exact Function.update_of_ne hq _ _

/-- A process that is pushed onto the queue of blocked processes leaves the lists, if its
neighbours there are not listed. -/
theorem Pickable.pushBlocked (h : Pickable k Q) (hp : Unlisted Q p)
    (hnear : ∀ a ∈ blockedNeighbours k p, Unlisted Q a) (step : processQueuePush k .blocked p = some k') :
    Pickable k' Q := by
  -- links of other processes, and other queues, are not written
  have hkeep : ∃ l, k' = k.relink l ∧
      (∀ a, a ≠ p → a ∉ blockedNeighbours k p → l.next a = k.queueNext a ∧ l.prev a = k.queuePrev a) ∧
      ∀ q, q ≠ .blocked → l.queues q = k.queues q := by
    obtain ⟨l, rfl⟩ := processQueuePush_shape step
    refine ⟨l, rfl, ?_⟩
    rw [processQueuePush] at step
    split at step
    · obtain ⟨hn, hv, hqs⟩ : k.queueNext = l.next ∧ k.queuePrev = l.prev ∧ k.queues = l.queues := by
        have heq := Option.some_inj.mp step
        exact ⟨congrArg Kernel.queueNext heq, congrArg Kernel.queuePrev heq, congrArg Kernel.queues heq⟩
      rw [← hn, ← hv, ← hqs]
      exact ⟨fun _ _ _ => ⟨rfl, rfl⟩, fun _ _ => rfl⟩
    · obtain ⟨k₁, hdetach, heq⟩ := Option.map_eq_some_iff.mp step
      have hmid : (∀ a, a ≠ p → a ∉ blockedNeighbours k p →
            k₁.queueNext a = k.queueNext a ∧ k₁.queuePrev a = k.queuePrev a) ∧
          (∀ q, q ≠ .blocked → k₁.queues q = k.queues q) ∧
          (k₁.queues .blocked).tail ∈ blockedNeighbours k p := by
        have hsame : k₁ = k → (∀ a, a ≠ p → a ∉ blockedNeighbours k p →
              k₁.queueNext a = k.queueNext a ∧ k₁.queuePrev a = k.queuePrev a) ∧
            (∀ q, q ≠ .blocked → k₁.queues q = k.queues q) ∧
            (k₁.queues .blocked).tail ∈ blockedNeighbours k p := by
          rintro rfl
          exact ⟨fun _ _ _ => ⟨rfl, rfl⟩, fun _ _ => rfl, List.mem_cons_self⟩
        split at hdetach
        · rw [detachFromQueue] at hdetach
          split at hdetach
          · exact hsame (Option.some_inj.mp hdetach).symm
          · obtain ⟨found, hfound, rfl⟩ := Option.map_eq_some_iff.mp hdetach
            cases found with
            | false => exact hsame rfl
            | true =>
                have hnb : blockedNeighbours k p =
                    [(k.queues .blocked).tail, k.queuePrev p, k.queueNext p] := by
                  rw [blockedNeighbours, if_pos hfound]
                rw [if_pos rfl, hnb]
                refine ⟨fun a hap hnot => ?_, fun q hq => unlinkFromQueue_queues hq, ?_⟩
                · simp only [List.mem_cons, List.not_mem_nil, or_false, not_or] at hnot
                  exact unlinkFromQueue_links hap hnot.2.1 hnot.2.2
                · rcases unlinkFromQueue_tail (k := k) (q := .blocked) (p := p) with ht | ht
                  · simp [ht]
                  · simp [ht]
        · exact hsame (Option.some_inj.mp hdetach).symm
      obtain ⟨hlinks, hqueues, htail⟩ := hmid
      refine ⟨fun a hap hnot => ?_, fun q hq => ?_⟩
      · have happend := appendToQueue_links (k := k₁) (q := .blocked) hap fun he => hnot (he ▸ htail)
        rw [heq] at happend
        exact ⟨happend.1.trans (hlinks a hap hnot).1, happend.2.trans (hlinks a hap hnot).2⟩
      · have happend := appendToQueue_queues (k := k₁) (p := p) hq
        rw [heq] at happend
        exact happend.trans (hqueues q hq)
  obtain ⟨l, rfl, hlinks, hqueues⟩ := hkeep
  refine ⟨?_, h.ready, h.finished⟩
  have hsame : update l.queues .blocked (⟨0, 0, 0⟩ : ProcessQueue) = update k.queues .blocked ⟨0, 0, 0⟩ := by
    funext q
    by_cases hq : q = .blocked
    · rw [hq, Function.update_self, Function.update_self]
    · rw [Function.update_of_ne hq, Function.update_of_ne hq, hqueues q hq]
  dsimp only
  rw [hsame]
  refine h.rings.relinked fun q a ha => hlinks a (fun he => hp q (he ▸ ha)) fun hm => hnear a hm q ha

/-- Making a process ready that is in no other queue than its ready queue. -/
theorem Pickable.putReady (h : Pickable k Q) (ha : k.allocated p = true) (hp0 : p ≠ 0) (hlt : p < addressCount)
    (hfree : ∀ q, q ≠ .ready (k.priority p) → p ∉ Q q)
    (step : readyQueuePush { k with state := update k.state p .ready } p = some k') :
    ∃ Q', Pickable k' Q' ∧ Q' .finished = Q .finished := by
  have hready : Pickable { k with state := update k.state p .ready } Q := by
    refine ⟨h.rings, fun i a hm => ?_, fun a hm => ?_⟩
    · obtain ⟨haa, has, hai⟩ := h.ready i a hm
      refine ⟨haa, ?_, hai⟩
      dsimp only
      by_cases hap : a = p
      · rw [hap, Function.update_self]
      · rw [Function.update_of_ne hap]
        exact has
    · have hap : a ≠ p := fun he => hfree .finished (by simp) (he ▸ hm)
      dsimp only
      rw [Function.update_of_ne hap]
      exact h.finished a hm
  rw [readyQueuePush, if_neg hp0] at step
  obtain ⟨l, rfl, hl⟩ := hready.push (by simp) hp0 hlt hfree step
  have hput : ∀ {a q}, a ∈ update Q (.ready (k.priority p)) ((Q (.ready (k.priority p))).erase p ++ [p]) q ↔
      if a = p then q = .ready (k.priority p) else a ∈ Q q := mem_put hfree
  refine ⟨_, ⟨hl.rings, fun i a hm => ?_, fun a hm => ?_⟩, Function.update_of_ne (by simp) _ _⟩
  · rw [hput] at hm
    split at hm
    · rename_i hap
      obtain rfl := hap
      exact ⟨ha, Function.update_self .., (QueueId.ready.inj hm).symm⟩
    · exact hready.ready i a hm
  · rw [hput] at hm
    split at hm
    · cases hm
    · exact hready.finished a hm

/-- The loop that wakes the waiters of a process, if it ends. -/
theorem Pickable.wakeWaiters (n : ℕ) (h : Pickable k Q) (haddr : ∀ a, k.allocated a = true → a < addressCount)
    (hL : WakeList k.waiterNext (k.waitersHead p) L) (hw : ∀ w ∈ L, Wakeable k w)
    (step : wakeWaiters p n k = some k') : ∃ Q', Pickable k' Q' ∧ Q' .finished = Q .finished := by
  induction n generalizing k Q L with
  | zero => cases step
  | succ n ih =>
      rw [SoKernel.wakeWaiters] at step
      by_cases hhead : k.waitersHead p = 0
      · rw [if_pos hhead, Option.some_inj] at step
        exact ⟨Q, step ▸ h, rfl⟩
      · rw [if_neg hhead, Option.bind_eq_bind] at step
        obtain ⟨k₁, hpush, hrest⟩ := Option.bind_eq_some_iff.mp step
        generalize k.waitersHead p = w at *
        cases hL with
        | nil => exact absurd rfl hhead
        | @cons _ _ L ne rest =>
            obtain ⟨ha, hs⟩ := hw w List.mem_cons_self
            have hother : ∀ q', q' ≠ .ready (k.priority w) → w ∉ Q q' := by
              intro q' hq' hm
              exact (h.listed hm).2.elim (fun hr => hq' hr.2) fun hf => hs hf.1
            have hcut : Pickable
                { k with
                  waitersHead := update k.waitersHead p (k.waiterNext w)
                  waiterNext := update k.waiterNext w 0
                  waitingOnPid := update k.waitingOnPid w 0 } Q := ⟨h.rings, h.ready, h.finished⟩
            obtain ⟨Q₁, hpick, hfin₁⟩ := hcut.putReady ha ne (haddr w ha) hother hpush
            obtain ⟨l, rfl⟩ := readyQueuePush_shape hpush
            have hstill : ∀ v ∈ L, update k.state w .ready v ≠ .finished := by
              intro v hv
              by_cases hvw : v = w
              · rw [hvw, Function.update_self]
                simp
              · rw [Function.update_of_ne hvw]
                exact (hw v (List.mem_cons_of_mem _ hv)).2
            obtain ⟨Q', hQ', hfin⟩ := ih hpick haddr (L := L) (by simpa using rest)
              (fun v hv => ⟨(hw v (List.mem_cons_of_mem _ hv)).1, hstill v hv⟩) hrest
            exact ⟨Q', hQ', hfin.trans hfin₁⟩

end Save

end SoKernel
