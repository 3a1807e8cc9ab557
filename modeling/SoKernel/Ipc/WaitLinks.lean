import SoKernel.Ipc.WaitListRuns

/-!
# The links of waiting processes

The links between waiting processes refer to existing processes only, also those of a process
that has left its list and those of a process whose semaphore was closed. This needs more than
intact lists: who leaves a list has its link cut, and a process that dies has no waiters left
when it is collected.
-/

namespace SoKernel

open Function (update)

variable {k k' : Kernel} {V V' : Sems} {p q id i : ℕ} {L : List ℕ}

section Invariant

structure LinksTidy (k : Kernel) : Prop where
  loose : ∀ p, k.allocated p = true → AwaitsNobody k p → k.waiterNext p = 0
  dead : ∀ p, k.allocated p = true → k.state p = .finished → p ≠ k.current → k.waitersHead p = 0
  /-- A link leads to a process that waits for the same semaphore. -/
  semNext : ∀ p, k.allocated p = true → k.semWaiterNext p ≠ 0 → k.waitingOnSem p ≠ 0 ∧
    k.allocated (k.semWaiterNext p) = true ∧ k.waitingOnSem (k.semWaiterNext p) = k.waitingOnSem p
  blocked : ∀ p, k.allocated p = true → k.waitingOnSem p ≠ 0 → k.state p = .blocked
  /-- Who waits for an open semaphore is in its queue. -/
  queued : ∀ p, k.allocated p = true → ∀ L, WaitQueue k (k.waitingOnSem p) L → p ∈ L
  bound : ∀ p, k.allocated p = true → k.waitingOnSem p < k.nextSemId

theorem waitQueue_congr (hsem : k'.semaphores = k.semaphores) (hlink : k'.semWaiterNext = k.semWaiterNext) :
    WaitQueue k' id L ↔ WaitQueue k id L := by
  have hget : semGetById k' id = semGetById k id := by
    simp only [semGetById, findSlotById, hsem]
  rw [WaitQueue, WaitQueue, hget, hsem, hlink]

/-- Only states change. -/
theorem LinksTidy.restate (h : LinksTidy k) (same : SameWaiters k k')
    (hsem : k'.semaphores = k.semaphores) (hnext : k'.nextSemId = k.nextSemId)
    (hlink : k'.semWaiterNext = k.semWaiterNext) (hon : k'.waitingOnSem = k.waitingOnSem)
    (hstate : ∀ p, k'.state p ≠ k.state p → k'.state p = .blocked ∨ k.waitingOnSem p = 0)
    (hdead : ∀ p, k.allocated p = true → k'.state p = .finished → p ≠ k'.current →
      k.waitersHead p = 0) : LinksTidy k' := by
  refine ⟨fun p hp hnobody => ?_, fun p hp hfin hcur => ?_, fun p hp => ?_, fun p hp hne => ?_,
    fun p hp L hL => ?_, fun p hp => ?_⟩
  all_goals rw [same.allocated] at hp
  · rw [same.waiterNext]
    refine h.loose p hp fun t L ht hL => ?_
    exact hnobody t L (same.allocated ▸ ht) (same.waiters_iff.mpr hL)
  · rw [same.waitersHead]
    exact hdead p hp hfin hcur
  · rw [hlink, hon, same.allocated]
    exact h.semNext p hp
  · rw [hon] at hne
    by_contra hb
    have hold := h.blocked p hp hne
    have hchanged : k'.state p ≠ k.state p := by
      rw [hold]
      exact hb
    exact (hstate p hchanged).elim hb hne
  · rw [hon] at hL
    exact h.queued p hp L ((waitQueue_congr hsem hlink).mp hL)
  · rw [hon, hnext]
    exact h.bound p hp

end Invariant

section Wake

/-- The waiters of a process that is woken have their links cut. -/
theorem LinksTidy.wake (h : LinksTidy k) (hlists : Listed k V) (hp : k.allocated p = true)
    (hwake : WakeList k.waiterNext (k.waitersHead p) L) : LinksTidy (wokenKernel k p L) := by
  obtain ⟨M, hM, hwait⟩ := hlists.waiters p hp
  obtain rfl : L = M := hwake.eq_of_chain hM
  obtain ⟨hlisted, -⟩ := hlists.wake hp hwake
  refine ⟨fun q hq hnobody => ?_, fun q hq hfin hcur => ?_, h.semNext, fun q hq hne => ?_,
    fun q hq N hN => h.queued q hq N ((waitQueue_congr rfl rfl).mp hN), h.bound⟩
  · dsimp only
    by_cases hqL : q ∈ L
    · exact setAll_of_mem _ _ hqL
    · rw [setAll_of_not_mem _ _ hqL]
      apply h.loose q hq
      intro t N ht hN hqN
      by_cases htp : t = p
      · subst htp
        exact hqL (hN.unique hM ▸ hqN)
      · -- the list of another process is as before
        refine hnobody t N ht ?_ hqN
        have hhead : (wokenKernel k p L).waitersHead t = k.waitersHead t := Function.update_of_ne htp _ _
        rw [Waiters, hhead]
        refine LinkedList.Chain.congr hN fun w hw => setAll_of_not_mem _ _ fun hwL => ?_
        exact htp (hlists.single ht hp hN hM hw hwL)
  · dsimp only at hfin ⊢
    by_cases hqp : q = p
    · rw [hqp, Function.update_self]
    · rw [Function.update_of_ne hqp]
      refine h.dead q hq ?_ hcur
      by_cases hqL : q ∈ L
      · rw [setAll_of_mem _ _ hqL] at hfin
        cases hfin
      · rwa [setAll_of_not_mem _ _ hqL] at hfin
  · have hqL : q ∉ L := fun hm => hne (hwait q hm).waitingOnSem
    dsimp only
    rw [setAll_of_not_mem _ _ hqL]
    exact h.blocked q hq hne

/-- Finished processes are collected. -/
theorem LinksTidy.bury (h : LinksTidy k) (dead : List ℕ)
    (hdead : ∀ p ∈ dead, k.allocated p = true ∧ k.state p = .finished ∧ p ≠ k.current) :
    LinksTidy (dead.foldl SoKernel.bury k) := by
  obtain ⟨pa, fc, ns, ps, heq⟩ := buryAll_shape k dead
  rw [heq]
  have hbefore : ∀ q, setAll dead false k.allocated q = true → k.allocated q = true := by
    intro q hq
    by_cases hm : q ∈ dead
    · rw [setAll_of_mem _ _ hm] at hq
      cases hq
    · rwa [setAll_of_not_mem _ _ hm] at hq
  refine ⟨fun q hq hnobody => ?_, fun q hq => h.dead q (hbefore q hq), fun q hq hne => ?_,
    fun q hq => h.blocked q (hbefore q hq),
    fun q hq N hN => h.queued q (hbefore q hq) N ((waitQueue_congr rfl rfl).mp hN),
    fun q hq => h.bound q (hbefore q hq)⟩
  · apply h.loose q (hbefore q hq)
    intro t N ht hN hqN
    by_cases hm : t ∈ dead
    · -- a process that is collected has no waiters
      obtain ⟨hal, hfin, hcur⟩ := hdead t hm
      have hnil : Waiters k t [] := h.dead t hal hfin hcur
      rw [hN.unique hnil] at hqN
      cases hqN
    · have ht' : setAll dead false k.allocated t = true := by rwa [setAll_of_not_mem _ _ hm]
      exact hnobody t N ht' hN hqN
  · obtain ⟨hon, hal, heq⟩ := h.semNext q (hbefore q hq) hne
    refine ⟨hon, ?_, heq⟩
    dsimp only
    rw [setAll_of_not_mem _ _ fun hm => ?_]
    · exact hal
    · have hblocked := h.blocked _ hal (heq.symm ▸ hon)
      rw [(hdead _ hm).2.1] at hblocked
      cases hblocked

end Wake

section Semaphores

/-- Semaphores change, and nobody leaves a queue that is still there. -/
theorem LinksTidy.sems (h : LinksTidy k) (same : SameWaiters k k') (hcur : k'.current = k.current)
    (hstate : k'.state = k.state) (hlink : k'.semWaiterNext = k.semWaiterNext)
    (hon : k'.waitingOnSem = k.waitingOnSem) (hnext : k.nextSemId ≤ k'.nextSemId)
    (hqueue : ∀ id L, id < k.nextSemId → WaitQueue k' id L → WaitQueue k id L) : LinksTidy k' := by
  refine ⟨fun p hp hnobody => ?_, fun p hp hfin hpc => ?_, fun p hp => ?_, fun p hp hne => ?_,
    fun p hp L hL => ?_, fun p hp => ?_⟩
  all_goals rw [same.allocated] at hp
  · rw [same.waiterNext]
    refine h.loose p hp fun t L ht hL => ?_
    exact hnobody t L (same.allocated ▸ ht) (same.waiters_iff.mpr hL)
  · rw [same.waitersHead]
    rw [hstate] at hfin
    rw [hcur] at hpc
    exact h.dead p hp hfin hpc
  · rw [hlink, hon, same.allocated]
    exact h.semNext p hp
  · rw [hon] at hne
    rw [hstate]
    exact h.blocked p hp hne
  · rw [hon] at hL
    exact h.queued p hp L (hqueue _ L (h.bound p hp) hL)
  · rw [hon]
    exact (h.bound p hp).trans_le hnext

/-- The queues of the represented semaphores. -/
theorem LinksTidy.represented (h : LinksTidy k) (hsems : Represents k V) (hsems' : Represents k' V')
    (same : SameWaiters k k') (hcur : k'.current = k.current) (hstate : k'.state = k.state)
    (hlink : k'.semWaiterNext = k.semWaiterNext) (hon : k'.waitingOnSem = k.waitingOnSem)
    (hnext : k.nextSemId ≤ k'.nextSemId)
    (hqueue : ∀ id s', id < k.nextSemId → V' id = some s' → ∃ s, V id = some s ∧ s.queue = s'.queue) :
    LinksTidy k' := by
  apply h.sems same hcur hstate hlink hon hnext
  intro id L hid hL
  obtain ⟨s', hs', rfl⟩ := hsems'.waitQueue_iff.mp hL
  obtain ⟨s, hs, heq⟩ := hqueue id s' hid hs'
  exact hsems.waitQueue_iff.mpr ⟨s, hs, heq⟩

/-- The first process of a queue is released. -/
theorem LinksTidy.release (h : LinksTidy k) (hsems : Represents k V) {s : CountingSemaphore ℕ}
    (hs : V id = some s) (hi : EntryOf k id i s) (hne : (k.semaphores i).waitHead ≠ 0) :
    LinksTidy (releasedKernel k i (k.semaphores i).waitHead) := by
  obtain ⟨hsems', hfirst⟩ := hsems.release hs hi rfl hne
  generalize hw : (k.semaphores i).waitHead = w at *
  obtain ⟨rest, hrest⟩ : ∃ rest, s.queue = w :: rest := by
    rw [Sems.first_of_some hs] at hfirst
    cases hq : s.queue with
    | nil =>
        rw [hq] at hfirst
        cases hfirst
    | cons x rest =>
        rw [hq] at hfirst
        exact ⟨rest, by rw [(List.cons.inj hfirst).1]⟩
  have hwait : ∀ q, k.allocated q = true → k.waitingOnSem q = id → q ∈ w :: rest := by
    intro q hq hon
    rw [← hrest]
    apply h.queued q hq
    rw [hon]
    exact hsems.waitQueue_iff.mpr ⟨s, hs, rfl⟩
  have honw : k.waitingOnSem w = id :=
    (hsems.waiting id s hs w (hrest ▸ List.mem_cons_self)).2.1
  refine ⟨h.loose, fun q hq hfin hcur => ?_, fun q hq hlink => ?_, fun q hq hon => ?_,
    fun q hq L hL => ?_, fun q hq => ?_⟩
  · dsimp only at hfin
    by_cases hqw : q = w
    · rw [hqw, Function.update_self] at hfin
      cases hfin
    · rw [Function.update_of_ne hqw] at hfin
      exact h.dead q hq hfin hcur
  · dsimp only at hlink ⊢
    have hqw : q ≠ w := by
      rintro rfl
      exact hlink (Function.update_self ..)
    rw [Function.update_of_ne hqw] at hlink ⊢
    obtain ⟨hon, hal, heq⟩ := h.semNext q hq hlink
    -- nobody in the queue is linked to its first process
    have hnw : k.semWaiterNext q ≠ w := by
      intro hnw
      have hmem := hwait q hq (heq.symm.trans (hnw ▸ honw))
      exact (hrest ▸ hi.queue.chain).next_ne_head hmem hnw
    rw [Function.update_of_ne hqw, Function.update_of_ne hnw]
    exact ⟨hon, hal, heq⟩
  · dsimp only at hon ⊢
    have hqw : q ≠ w := by
      rintro rfl
      exact hon (Function.update_self ..)
    rw [Function.update_of_ne hqw] at hon ⊢
    exact h.blocked q hq hon
  · have hqw : q ≠ w := by
      rintro rfl
      obtain ⟨j, hget, -⟩ := hL
      rw [show (releasedKernel k i q).waitingOnSem q = 0 from Function.update_self .., semGetById,
        if_pos rfl] at hget
      cases hget
    rw [show (releasedKernel k i w).waitingOnSem q = k.waitingOnSem q from
      Function.update_of_ne hqw _ _] at hL
    obtain ⟨s', hs', rfl⟩ := hsems'.waitQueue_iff.mp hL
    by_cases hid : k.waitingOnSem q = id
    · rw [hid, Function.update_self, Option.some_inj, CountingSemaphore.signal_of_cons hrest] at hs'
      subst hs'
      exact (List.mem_cons.mp (hwait q hq hid)).resolve_left hqw
    · rw [Function.update_of_ne hid] at hs'
      exact h.queued q hq _ (hsems.waitQueue_iff.mpr ⟨s', hs', rfl⟩)
  · dsimp only
    by_cases hqw : q = w
    · rw [hqw, Function.update_self]
      exact hsems.next
    · rw [Function.update_of_ne hqw]
      exact h.bound q hq

/-- The loop of `sem_set_by_id`. -/
theorem LinksTidy.releaseLoop (h : LinksTidy k) (hsems : Represents k V) {s : CountingSemaphore ℕ}
    (hs : V id = some s) (hi : EntryOf k id i s) (n : ℕ) :
    LinksTidy (SoKernel.releaseLoop i n k).2 := by
  induction n generalizing k V s with
  | zero => exact h
  | succ n ih =>
      rw [SoKernel.releaseLoop]
      by_cases hw : (k.semaphores i).waitHead = 0
      · rw [if_pos hw]
        exact h
      · rw [if_neg hw]
        obtain ⟨hsems', -⟩ := hsems.release hs hi rfl hw
        have hid : ((releasedKernel k i (k.semaphores i).waitHead).semaphores i).id = id := by
          simp only [Function.update_self, hi.id_eq]
        have hused : ((releasedKernel k i (k.semaphores i).waitHead).semaphores i).used = true := by
          simp only [Function.update_self, hi.used]
        have hnew : update V id (some s.signal) id = some s.signal := Function.update_self ..
        have hentry := hsems'.entryOf (i := i) hi.bound hused (by rw [hid]; exact hnew)
        rw [hid] at hentry
        exact ih (h.release hsems hs hi hw) hsems' hnew hentry

end Semaphores

section Waits

/-- `enqueue_waiter` with the links: the last process of the queue leads to the new one, which
leads nowhere. -/
theorem enqueueWaiter_links (k : Kernel) (i p : ℕ) :
    ∃ sems swn, enqueueWaiter k i p =
      { k with
        semaphores := sems
        semWaiterNext := swn } ∧
      swn = if (k.semaphores i).waitHead = 0 then update k.semWaiterNext p 0
        else update (update k.semWaiterNext p 0) (k.semaphores i).waitTail p := by
  by_cases hhead : (k.semaphores i).waitHead = 0
  · exact ⟨_, _, by simp only [enqueueWaiter, if_pos hhead]; rfl, (if_pos hhead).symm⟩
  · exact ⟨_, _, by simp only [enqueueWaiter, if_neg hhead]; rfl, (if_neg hhead).symm⟩

/-- The caller of `syscall_wait` is linked among the waiters of its target and blocks. -/
theorem LinksTidy.waitLinked (h : LinksTidy k) (hlists : Listed k V) (hrun : Running k) (hcall : Caller k)
    {t : ℕ} (ht : k.allocated t = true) (halive : k.state t ≠ .finished) :
    LinksTidy (SoKernel.waitLinked k t (k.pid t)).blockCurrent := by
  have hlink : ∀ a L, k.allocated a = true → Waiters k a L → _ := fun a L ha hL =>
    waiters_waitLinked (t := t) hrun hcall.1 ha hL (k.pid t)
  refine ⟨fun q hq hnobody => ?_, fun q hq hfin hqc => ?_, h.semNext, fun q hq hon => ?_,
    fun q hq L hL => h.queued q hq L ((waitQueue_congr rfl rfl).mp hL), h.bound⟩
  · have hqc : q ≠ k.current := by
      rintro rfl
      obtain ⟨L, hL, -⟩ := hlists.waiters t ht
      refine hnobody t _ ht (hlink t L ht hL) ?_
      rw [if_pos rfl]
      exact List.mem_cons_self
    dsimp only
    rw [Function.update_of_ne hqc]
    apply h.loose q hq
    intro a L ha hL hqL
    refine hnobody a _ ha (hlink a L ha hL) ?_
    split
    · exact List.mem_cons_of_mem _ hqL
    · exact hqL
  · dsimp only at hfin hqc ⊢
    rw [Function.update_of_ne hqc] at hfin
    have hqt : q ≠ t := by
      rintro rfl
      exact halive hfin
    rw [Function.update_of_ne hqt]
    exact h.dead q hq hfin hqc
  · dsimp only
    by_cases hqc : q = k.current
    · rw [hqc, Function.update_self]
    · rw [Function.update_of_ne hqc]
      exact h.blocked q hq hon

/-- The caller of `sem_wait_by_id` is linked in the queue of the semaphore and blocks. -/
theorem LinksTidy.semLinked (h : LinksTidy k) (hlists : Listed k V) (hrun : Running k) (hcall : Caller k)
    (hcur : k.allocated k.current = true) (hfound : semGetById k id = some i)
    (hempty : (k.semaphores i).value ≤ 0) : LinksTidy (SoKernel.semLinked k i).blockCurrent := by
  obtain ⟨s, hs, hi⟩ := hlists.sems.of_found hfound
  have haway : Away k V := fun id' s' hs' => hlists.not_mem_queue hs' hrun.waitingOnSem
  have hsems := hlists.sems.semLinked haway hcall hs hfound hempty
  obtain ⟨sems, swn, hshape, hnext⟩ := enqueueWaiter_links
    { k with waitingOnSem := update k.waitingOnSem k.current (k.semaphores i).id } i k.current
  have hid : (k.semaphores i).id = id := hi.id_eq
  obtain ⟨hpos, hlt⟩ := hlists.sems.table.bound i hi.bound hi.used
  rw [hid] at hpos hlt
  rw [SoKernel.semLinked, hshape] at hsems ⊢
  have hon : ∀ q, q ≠ k.current → update k.waitingOnSem k.current (k.semaphores i).id q =
      k.waitingOnSem q := fun q hq => Function.update_of_ne hq _ _
  refine ⟨fun q hq hnobody => h.loose q hq hnobody, fun q hq hfin hqc => ?_, fun q hq hlink => ?_,
    fun q hq hne => ?_, fun q hq L hL => ?_, fun q hq => ?_⟩
  · dsimp only at hfin hqc
    rw [Function.update_of_ne hqc] at hfin
    exact h.dead q hq hfin hqc
  · dsimp only at hlink ⊢
    have hqc : q = (k.semaphores i).waitTail ∨ q ≠ k.current := by
      by_contra hboth
      rw [not_or, not_not] at hboth
      apply hlink
      rw [hnext]
      split
      · exact hboth.2 ▸ Function.update_self ..
      · rw [Function.update_of_ne hboth.1, hboth.2]
        exact Function.update_self ..
    by_cases hlast : (k.semaphores i).waitHead ≠ 0 ∧ q = (k.semaphores i).waitTail
    · -- the process that was the last one
      have hmem : q ∈ s.queue := by
        rw [hlast.2, hi.queue.tail_eq]
        have hne : s.queue ≠ [] := fun he => hlast.1 (hi.queue.head_eq_null.mpr he)
        obtain ⟨A, z, hA⟩ := List.eq_nil_or_concat' s.queue |>.resolve_left hne
        simp [hA]
      have hqcur : q ≠ k.current := fun he => haway id s hs (he ▸ hmem)
      have hlinked : swn q = k.current := by
        rw [hnext, if_neg hlast.1, hlast.2]
        exact Function.update_self ..
      rw [hlinked, hon q hqcur, Function.update_self, hid, (hlists.sems.waiting id s hs q hmem).2.1]
      exact ⟨hpos.ne', hcur, rfl⟩
    · have hqcur : q ≠ k.current ∧ swn q = k.semWaiterNext q := by
        by_cases hhead : (k.semaphores i).waitHead = 0
        · rw [hnext, if_pos hhead] at hlink ⊢
          have hne : q ≠ k.current := by
            rintro rfl
            exact hlink (Function.update_self ..)
          exact ⟨hne, Function.update_of_ne hne _ _⟩
        · have hqt : q ≠ (k.semaphores i).waitTail := fun he => hlast ⟨hhead, he⟩
          have hne := hqc.resolve_left hqt
          rw [hnext, if_neg hhead]
          exact ⟨hne, (Function.update_of_ne hqt _ _).trans (Function.update_of_ne hne _ _)⟩
      obtain ⟨hne, heq⟩ := hqcur
      rw [heq] at hlink ⊢
      obtain ⟨hwait, hal, hsame⟩ := h.semNext q hq hlink
      have hnc : k.semWaiterNext q ≠ k.current := by
        intro he
        exact hwait (hsame.symm.trans (he ▸ hrun.waitingOnSem))
      rw [hon q hne, hon _ hnc]
      exact ⟨hwait, hal, hsame⟩
  · dsimp only at hne ⊢
    by_cases hqc : q = k.current
    · rw [hqc, Function.update_self]
    · rw [Function.update_of_ne hqc]
      rw [hon q hqc] at hne
      exact h.blocked q hq hne
  · obtain ⟨s', hs', rfl⟩ := hsems.waitQueue_iff.mp hL
    dsimp only at hs'
    by_cases hqc : q = k.current
    · rw [hqc, Function.update_self, hid, Function.update_self, Option.some_inj] at hs'
      rw [← hs', hqc]
      exact List.mem_append_right _ (List.mem_singleton_self _)
    · rw [hon q hqc] at hs'
      by_cases hqid : k.waitingOnSem q = id
      · rw [hqid, Function.update_self, Option.some_inj] at hs'
        rw [← hs']
        apply List.mem_append_left
        apply h.queued q hq
        rw [hqid]
        exact hlists.sems.waitQueue_iff.mpr ⟨s, hs, rfl⟩
      · rw [Function.update_of_ne hqid] at hs'
        exact h.queued q hq _ (hlists.sems.waitQueue_iff.mpr ⟨s', hs', rfl⟩)
  · dsimp only
    by_cases hqc : q = k.current
    · rw [hqc, Function.update_self, hid]
      exact hlt
    · rw [hon q hqc]
      exact h.bound q hq

end Waits

section Switch

/-- `save_context`. -/
theorem LinksTidy.saved (h : LinksTidy k) (hlists : Listed k V) (hcur : k.allocated k.current = true)
    (hwoken : Woken k L) : LinksTidy (savedBy k L) := by
  unfold Woken at hwoken
  by_cases hfin : k.state k.current = .finished
  · rw [if_pos hfin] at hwoken
    obtain ⟨V', hV', hqueue⟩ := hlists.cleared
      (if savesForeground k then update k.isForeground (k.parent k.current) true else k.isForeground)
      (if savesForeground k then bufferClear k.keyboard else k.keyboard) (savesForeground k)
    have hcleared := h.represented hlists.sems hV'.sems ⟨rfl, rfl, rfl, rfl, rfl, rfl, rfl⟩ rfl rfl rfl rfl
      le_rfl fun id s' _ hs' => hqueue id s' hs'
    have hstate : savedState k k.current L = setAll L .ready k.state := by
      rw [savedState, if_neg]
      rw [hfin]
      simp
    rw [savedBy, hstate, if_pos hfin]
    exact hcleared.wake hV' hcur hwoken
  · rw [if_neg hfin] at hwoken
    subst hwoken
    rw [savedBy_unfinished hfin]
    have hchanged : ∀ p, (if k.state k.current = .running ∧ k.current ≠ k.idleP then
        update k.state k.current .ready else k.state) p ≠ k.state p →
        p = k.current ∧ k.state k.current = .running := by
      intro p hne
      split at hne
      · rename_i hrun
        by_cases hp : p = k.current
        · exact ⟨hp, hrun.1⟩
        · exact absurd (Function.update_of_ne hp _ _) hne
      · exact absurd rfl hne
    refine h.restate ⟨rfl, rfl, rfl, rfl, rfl, rfl, rfl⟩ rfl rfl rfl rfl (fun p hne => ?_)
      fun p hp hstate hpc => ?_
    · obtain ⟨rfl, hrun⟩ := hchanged p hne
      right
      refine hlists.free _ hcur ?_ hfin
      rw [hrun]
      simp
    · apply h.dead p hp _ hpc
      by_contra hne
      exact hpc (hchanged p fun he => hne (he.symm.trans hstate)).1

/-- A context switch. -/
theorem LinksTidy.switched (h : LinksTidy k) (hlists : Listed k V) (ho : Orderly k) {ch : Choice}
    (hsw : Switched k ch L k') : LinksTidy k' := by
  obtain ⟨V', hsaved⟩ := hlists.saved ho.current hsw.woken
  have hnext := hsaved.next_free hsw
  have htidy := h.saved hlists ho.current hsw.woken
  have hrun : LinksTidy (switchedBy k L ch.next) := by
    refine htidy.restate ⟨rfl, rfl, rfl, rfl, rfl, rfl, rfl⟩ rfl rfl rfl rfl (fun p hne => ?_)
      fun p hp hfin hpn => ?_
    · by_cases hp : p = ch.next
      · exact Or.inr (hp ▸ hnext.2)
      · exact absurd (Function.update_of_ne hp _ _) hne
    · have hfin' : savedState k k.current L p = .finished := (Function.update_of_ne hpn _ _).symm.trans hfin
      by_cases hpc : p = k.current
      · -- the process that ran before has died, and its waiters were woken
        subst hpc
        have hdied : k.state k.current = .finished := by
          by_contra hs
          have hwoken := hsw.woken
          rw [Woken, if_neg hs] at hwoken
          subst hwoken
          rw [savedState, setAll_nil] at hfin'
          split at hfin'
          · rw [Function.update_self] at hfin'
            cases hfin'
          · exact hs hfin'
        dsimp only
        rw [if_pos hdied, Function.update_self]
      · exact htidy.dead p hp hfin' hpc
  rw [hsw.result]
  apply hrun.bury
  intro p hp
  obtain ⟨hal, hfin, hpn⟩ := hsw.dead p hp
  exact ⟨hal, (Function.update_of_ne hpn _ _).trans hfin, hpn⟩

end Switch

section Creation

/-- A new process is linked to nobody. -/
theorem LinksTidy.created (h : LinksTidy k) (hlists : Listed k V) (hlists' : Listed k' V) {pcb : ℕ}
    (hnew : FreshPcb k k' pcb) (hcur : k'.current = k.current)
    (hmade : k'.allocated pcb = true → k'.waiterNext pcb = 0 ∧ k'.semWaiterNext pcb = 0) :
    LinksTidy k' := by
  have hsplit : ∀ p, k'.allocated p = true → p = pcb ∨ p ≠ pcb ∧ k.allocated p = true := by
    intro p hp
    by_cases hpp : p = pcb
    · exact Or.inl hpp
    · rw [hnew.allocated p hpp] at hp
      exact Or.inr ⟨hpp, hp⟩
  have hqueue : ∀ id L, WaitQueue k' id L → WaitQueue k id L := fun id L hL =>
    hlists.sems.waitQueue_iff.mpr (hlists'.sems.waitQueue_iff.mp hL)
  refine ⟨fun p hp hnobody => ?_, fun p hp hfin hpc => ?_, fun p hp hlink => ?_, fun p hp hon => ?_,
    fun p hp L hL => ?_, fun p hp => ?_⟩
  · obtain rfl | ⟨hpp, hal⟩ := hsplit p hp
    · exact (hmade hp).1
    · rw [hnew.waiterNext p hpp]
      apply h.loose p hal
      intro t N ht hN
      have ht' : k'.allocated t = true := by
        rw [hnew.allocated t (hnew.ne ht)]
        exact ht
      exact hnobody t N ht' (hnew.waiters hlists ht hN)
  · obtain rfl | ⟨hpp, hal⟩ := hsplit p hp
    · exact (hnew.made hp).1
    · rw [hnew.state p hpp] at hfin
      rw [hnew.waitersHead p hpp]
      exact h.dead p hal hfin (hcur ▸ hpc)
  · obtain rfl | ⟨hpp, hal⟩ := hsplit p hp
    · exact absurd (hmade hp).2 hlink
    · rw [hnew.semWaiterNext p hpp] at hlink ⊢
      obtain ⟨hwait, hal', heq⟩ := h.semNext p hal hlink
      have hne := hnew.ne hal'
      rw [hnew.waitingOnSem p hpp, hnew.waitingOnSem _ hne, hnew.allocated _ hne]
      exact ⟨hwait, hal', heq⟩
  · obtain rfl | ⟨hpp, hal⟩ := hsplit p hp
    · exact absurd (hnew.made hp).2.1 hon
    · rw [hnew.waitingOnSem p hpp] at hon
      rw [hnew.state p hpp]
      exact h.blocked p hal hon
  · obtain rfl | ⟨hpp, hal⟩ := hsplit p hp
    · obtain ⟨j, hget, -⟩ := hL
      rw [(hnew.made hp).2.1, semGetById, if_pos rfl] at hget
      cases hget
    · rw [hnew.waitingOnSem p hpp] at hL
      exact h.queued p hal L (hqueue _ L hL)
  · rw [hnew.nextSemId]
    obtain rfl | ⟨hpp, hal⟩ := hsplit p hp
    · rw [(hnew.made hp).2.1]
      exact hlists.sems.next
    · rw [hnew.waitingOnSem p hpp]
      exact h.bound p hal

end Creation
end SoKernel
