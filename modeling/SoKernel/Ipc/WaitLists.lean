import SoKernel.Ipc.SemTokens
import SoKernel.Proc.Boot

/-!
# The lists of waiting processes

A process waits in the queue of a semaphore or among the waiters of another process. Both
kinds of list are linked through the control blocks of the waiting processes, and both rely on
a waiting process leaving its list when it is woken. The invariant of both kinds, and what each
part of a call does to it.
-/

namespace SoKernel

open Function (update)
open LinkedList (Queue Chain)

variable {k k' : Kernel} {V V' : Sems} {p q t id : ℕ} {L : List ℕ}

section Model

/-- The processes that wait for a process, as the links tell. -/
def Waiters (k : Kernel) (t : ℕ) (L : List ℕ) : Prop := Chain k.waiterNext 0 (k.waitersHead t) L

/-- A process is linked in the queue of a semaphore or among the waiters of a process. -/
def InWaitList (k : Kernel) (p : ℕ) : Prop :=
  (∃ id L, WaitQueue k id L ∧ p ∈ L) ∨ ∃ t L, k.allocated t = true ∧ Waiters k t L ∧ p ∈ L

/-- Both kinds of list end, and who is linked in one is a live blocked process that waits for
what the list belongs to. -/
structure WaitListsIntact (k : Kernel) : Prop where
  semaphores : ∀ i < maxSemaphores, (k.semaphores i).used = true →
    ∃ L, Queue k.semWaiterNext 0 (k.semaphores i).waitHead (k.semaphores i).waitTail L ∧ L.Nodup ∧
      ∀ p ∈ L, k.allocated p = true ∧ k.state p = .blocked ∧ k.waitingOnSem p = (k.semaphores i).id
  waiters : ∀ t, k.allocated t = true → ∃ L, Waiters k t L ∧ L.Nodup ∧
    ∀ p ∈ L, k.allocated p = true ∧ k.state p = .blocked ∧ k.waitingOnPid p = k.pid t
  single : ∀ t t' L L', k.allocated t = true → k.allocated t' = true → Waiters k t L →
    Waiters k t' L' → ∀ p ∈ L, p ∈ L' → t = t'

end Model

section Invariant

/-- A process waits for the process with the given identifier. -/
structure AwaitsPid (k : Kernel) (pid w : ℕ) : Prop where
  allocated : k.allocated w = true
  blocked : k.state w = .blocked
  waitingOnPid : k.waitingOnPid w = pid
  waitingOnSem : k.waitingOnSem w = 0
  ne_idle : w ≠ k.idleP

/-- A process is not among the waiters of a process. -/
def AwaitsNobody (k : Kernel) (p : ℕ) : Prop :=
  ∀ t L, k.allocated t = true → Waiters k t L → p ∉ L

/-- The semaphores are represented by `V`, and the waiters of each process wait for it. -/
structure Listed (k : Kernel) (V : Sems) : Prop where
  sems : Represents k V
  live : ∀ id s, V id = some s → ∀ p ∈ s.queue, k.allocated p = true
  waiters : ∀ t, k.allocated t = true → ∃ L, Waiters k t L ∧ ∀ w ∈ L, AwaitsPid k (k.pid t) w
  free : ∀ p, k.allocated p = true → k.state p ≠ .blocked → k.state p ≠ .finished → k.waitingOnSem p = 0
  idle : k.waitingOnSem k.idleP = 0
  pids : ∀ p, k.allocated p = true → 0 < k.pid p ∧ k.pid p < k.nextPid
  unique : ∀ p q, k.allocated p = true → k.allocated q = true → k.pid p = k.pid q → p = q

/-- The current process waits for nothing. -/
structure Running (k : Kernel) : Prop where
  waitingOnSem : k.waitingOnSem k.current = 0
  nobody : AwaitsNobody k k.current

theorem Listed.awaits (h : Listed k V) (ht : k.allocated t = true) (hL : Waiters k t L) (hp : p ∈ L) :
    AwaitsPid k (k.pid t) p := by
  obtain ⟨M, hM, hwait⟩ := h.waiters t ht
  rw [hM.unique hL] at hwait
  exact hwait p hp

/-- The identifier of a semaphore with a waiting process. -/
theorem Listed.waitingOnSem_ne_zero (h : Listed k V) {s : CountingSemaphore ℕ} (hs : V id = some s)
    (hp : p ∈ s.queue) : k.waitingOnSem p ≠ 0 := by
  obtain ⟨i, hi⟩ := h.sems.get hs
  rw [(h.sems.waiting id s hs p hp).2.1, ← hi.id_eq]
  exact (h.sems.table.bound i hi.bound hi.used).1.ne'

/-- Who waits for a process is in no queue of a semaphore. -/
theorem Listed.not_mem_queue (h : Listed k V) {s : CountingSemaphore ℕ} (hs : V id = some s)
    (hp : k.waitingOnSem p = 0) : p ∉ s.queue := fun hm => h.waitingOnSem_ne_zero hs hm hp

/-- A process that is not blocked is among nobody's waiters. -/
theorem Listed.awaitsNobody (h : Listed k V) (hs : k.state p ≠ .blocked) : AwaitsNobody k p := by
  intro t L ht hL hm
  exact hs (h.awaits ht hL hm).blocked

theorem Listed.awaitsNobody_of_waitingOnSem (h : Listed k V) (hs : k.waitingOnSem p ≠ 0) :
    AwaitsNobody k p := by
  intro t L ht hL hm
  exact hs (h.awaits ht hL hm).waitingOnSem

/-- A process waits for one process at most. -/
theorem Listed.single (h : Listed k V) (ht : k.allocated t = true) (hq : k.allocated q = true)
    {M : List ℕ} (hL : Waiters k t L) (hM : Waiters k q M) (hp : p ∈ L) (hpM : p ∈ M) : t = q := by
  apply h.unique t q ht hq
  rw [← (h.awaits ht hL hp).waitingOnPid, ← (h.awaits hq hM hpM).waitingOnPid]

theorem Listed.inWaitList_iff (h : Listed k V) :
    InWaitList k p ↔ (∃ id s, V id = some s ∧ p ∈ s.queue) ∨ ¬AwaitsNobody k p := by
  refine or_congr ⟨?_, ?_⟩ ?_
  · rintro ⟨id, L, hL, hp⟩
    obtain ⟨s, hs, rfl⟩ := h.sems.waitQueue_iff.mp hL
    exact ⟨id, s, hs, hp⟩
  · rintro ⟨id, s, hs, hp⟩
    exact ⟨id, s.queue, h.sems.waitQueue_iff.mpr ⟨s, hs, rfl⟩, hp⟩
  · simp only [AwaitsNobody, not_forall, not_not, exists_prop]

theorem Listed.intact (h : Listed k V) : WaitListsIntact k := by
  refine ⟨fun i hi hu => ?_, fun t ht => ?_, fun t t' L L' ht ht' hL hL' p hp hp' => ?_⟩
  · obtain ⟨L, hV, hq⟩ := h.sems.entry i hi hu
    refine ⟨L, hq, hq.chain.nodup, fun p hp => ?_⟩
    obtain ⟨hblocked, hon, -⟩ := h.sems.waiting _ _ hV p hp
    exact ⟨h.live _ _ hV p hp, hblocked, hon⟩
  · obtain ⟨L, hL, hwait⟩ := h.waiters t ht
    exact ⟨L, hL, hL.nodup, fun p hp =>
      ⟨(hwait p hp).allocated, (hwait p hp).blocked, (hwait p hp).waitingOnPid⟩⟩
  · exact h.single ht ht' hL hL' hp hp'

end Invariant

section Frames

/-- What the lists of waiters are made of is the same. -/
structure SameWaiters (k k' : Kernel) : Prop where
  allocated : k'.allocated = k.allocated
  waiterNext : k'.waiterNext = k.waiterNext
  waitersHead : k'.waitersHead = k.waitersHead
  waitingOnPid : k'.waitingOnPid = k.waitingOnPid
  pid : k'.pid = k.pid
  nextPid : k'.nextPid = k.nextPid
  idleP : k'.idleP = k.idleP

theorem SameWaiters.waiters_iff (same : SameWaiters k k') : Waiters k' t L ↔ Waiters k t L := by
  rw [Waiters, Waiters, same.waiterNext, same.waitersHead]

theorem SameWaiters.awaitsNobody (same : SameWaiters k k') (h : AwaitsNobody k p) : AwaitsNobody k' p := by
  intro t L ht hL
  rw [same.allocated] at ht
  exact h t L ht (same.waiters_iff.mp hL)

/-- The semaphores change, and the states of processes that are among nobody's waiters. -/
theorem Listed.change (h : Listed k V) (same : SameWaiters k k') (hsems : Represents k' V')
    (hlive : ∀ id s, V' id = some s → ∀ p ∈ s.queue, k.allocated p = true)
    (hwaiter : ∀ p, ¬AwaitsNobody k p → k'.state p = k.state p ∧ k'.waitingOnSem p = k.waitingOnSem p)
    (hfree : ∀ p, k.allocated p = true → k'.state p ≠ .blocked → k'.state p ≠ .finished →
      k'.waitingOnSem p = 0)
    (hidle : k'.waitingOnSem k.idleP = 0) : Listed k' V' := by
  refine ⟨hsems, ?_, fun t ht => ?_, ?_, ?_, ?_, ?_⟩
  · rw [same.allocated]
    exact hlive
  · rw [same.allocated] at ht
    obtain ⟨L, hL, hwait⟩ := h.waiters t ht
    refine ⟨L, same.waiters_iff.mpr hL, fun w hw => ?_⟩
    obtain ⟨hstate, hon⟩ := hwaiter w fun hnobody => hnobody t L ht hL hw
    obtain ⟨hal, hblocked, hpid, hsem, hne⟩ := hwait w hw
    rw [same.pid]
    exact ⟨same.allocated ▸ hal, hstate.trans hblocked, same.waitingOnPid ▸ hpid, hon.trans hsem,
      same.idleP ▸ hne⟩
  · rw [same.allocated]
    exact hfree
  · rw [same.idleP]
    exact hidle
  · rw [same.allocated, same.pid, same.nextPid]
    exact h.pids
  · rw [same.allocated, same.pid]
    exact h.unique

/-- Only the states of processes change that are in no list. They wait for no semaphore unless
they have finished. -/
theorem Listed.restate (h : Listed k V) (same : SameWaiters k k')
    (hsem : k'.semaphores = k.semaphores) (hnext : k'.nextSemId = k.nextSemId)
    (hlink : k'.semWaiterNext = k.semWaiterNext) (hon : k'.waitingOnSem = k.waitingOnSem)
    (hstate : ∀ p, k'.state p ≠ k.state p →
      ¬InWaitList k p ∧ (k'.state p = .finished ∨ k'.state p = .blocked ∨ k.waitingOnSem p = 0)) :
    Listed k' V := by
  have hkept : ∀ p, InWaitList k p → k'.state p = k.state p := fun p hp => by
    by_contra hne
    exact (hstate p hne).1 hp
  refine h.change same ?_ h.live (fun p hp => ?_) (fun p hp hb hf => ?_) ?_
  · apply h.sems.congr hsem hnext hlink hon same.idleP
    intro id s hs p hp
    exact hkept p (h.inWaitList_iff.mpr (Or.inl ⟨id, s, hs, hp⟩))
  · exact ⟨hkept p (h.inWaitList_iff.mpr (Or.inr hp)), congrFun hon p⟩
  · rw [hon]
    by_cases hsame : k'.state p = k.state p
    · rw [hsame] at hb hf
      exact h.free p hp hb hf
    · exact ((hstate p hsame).2.resolve_left hf).resolve_left hb
  · rw [hon]
    exact h.idle

theorem Listed.not_inWaitList (h : Listed k V) (hs : k.state p ≠ .blocked) : ¬InWaitList k p := by
  intro hin
  cases h.inWaitList_iff.mp hin with
  | inl hsem =>
      obtain ⟨id, s, hV, hp⟩ := hsem
      exact hs (h.sems.waiting id s hV p hp).1
  | inr hwait => exact hwait (h.awaitsNobody hs)

/-- The scheduler's part does not matter. -/
theorem Listed.resched (h : Listed k V) (s : Sched) : Listed (k.resched s) V :=
  h.restate ⟨rfl, rfl, rfl, rfl, rfl, rfl, rfl⟩ rfl rfl rfl rfl fun _ hne => absurd rfl hne

theorem Running.resched (h : Running k) (s : Sched) : Running (k.resched s) :=
  ⟨h.waitingOnSem, h.nobody⟩

/-- The current process is in no list. -/
theorem Listed.current_unlinked (h : Listed k V) (hrun : Running k) : ¬InWaitList k k.current := by
  intro hin
  cases h.inWaitList_iff.mp hin with
  | inl hsem =>
      obtain ⟨id, s, hV, hp⟩ := hsem
      exact h.not_mem_queue hV hrun.waitingOnSem hp
  | inr hwait => exact hwait hrun.nobody

end Frames

section Wake

/-- The waiters of a process are woken. -/
abbrev wokenKernel (k : Kernel) (p : ℕ) (L : List ℕ) : Kernel :=
  { k with
    waitersHead := update k.waitersHead p 0
    waiterNext := setAll L 0 k.waiterNext
    waitingOnPid := setAll L 0 k.waitingOnPid
    state := setAll L .ready k.state }

/-- Waking the waiters of a process leaves those of the others. -/
theorem Listed.wake (h : Listed k V) (hp : k.allocated p = true)
    (hwake : WakeList k.waiterNext (k.waitersHead p) L) :
    Listed (wokenKernel k p L) V ∧ ∀ q, AwaitsNobody k q → AwaitsNobody (wokenKernel k p L) q := by
  obtain ⟨M, hM, hwait⟩ := h.waiters p hp
  obtain rfl : L = M := hwake.eq_of_chain hM
  have hout : ∀ t, k.allocated t = true → t ≠ p → ∀ N, Waiters k t N → ∀ w ∈ N, w ∉ L := by
    intro t ht htp N hN w hw hwL
    exact htp (h.single ht hp hN hM hw hwL)
  -- the list of another process is as before
  have hother : ∀ t, k.allocated t = true → t ≠ p → ∀ N, Waiters k t N → Waiters (wokenKernel k p L) t N := by
    intro t ht htp N hN
    have hhead : (wokenKernel k p L).waitersHead t = k.waitersHead t := Function.update_of_ne htp _ _
    rw [Waiters, hhead]
    apply hN.congr
    intro w hw
    exact setAll_of_not_mem _ _ (hout t ht htp N hN w hw)
  have hempty : Waiters (wokenKernel k p L) p [] := Function.update_self ..
  have hqueue : ∀ id s, V id = some s → ∀ q ∈ s.queue, q ∉ L := fun id s hs q hq hqL =>
    h.not_mem_queue hs (hwait q hqL).waitingOnSem hq
  refine ⟨⟨?_, h.live, fun t ht => ?_, fun q hq hb hf => ?_, h.idle, h.pids, h.unique⟩,
    fun q hq t N ht hN => ?_⟩
  · refine h.sems.congr rfl rfl rfl rfl rfl fun id s hs q hq => ?_
    exact setAll_of_not_mem _ _ (hqueue id s hs q hq)
  · by_cases htp : t = p
    · subst htp
      exact ⟨[], hempty, by simp⟩
    · obtain ⟨N, hN, hwaitN⟩ := h.waiters t ht
      refine ⟨N, hother t ht htp N hN, fun w hw => ?_⟩
      have hwL := hout t ht htp N hN w hw
      obtain ⟨hal, hblocked, hpid, hsem, hne⟩ := hwaitN w hw
      exact ⟨hal, (setAll_of_not_mem _ _ hwL).trans hblocked, (setAll_of_not_mem _ _ hwL).trans hpid,
        hsem, hne⟩
  · by_cases hqL : q ∈ L
    · exact (hwait q hqL).waitingOnSem
    · dsimp only at hb hf
      rw [setAll_of_not_mem _ _ hqL] at hb hf
      exact h.free q hq hb hf
  · by_cases htp : t = p
    · subst htp
      rw [hN.unique hempty]
      exact List.not_mem_nil
    · obtain ⟨N', hN', -⟩ := h.waiters t ht
      rw [hN.unique (hother t ht htp N' hN')]
      exact hq t N' ht hN'

/-- Processes that are in no list are destroyed. -/
theorem Listed.bury (h : Listed k V) (dead : List ℕ)
    (hdead : ∀ p ∈ dead, ¬InWaitList k p) :
    Listed (dead.foldl SoKernel.bury k) V ∧
      ∀ q, AwaitsNobody k q → AwaitsNobody (dead.foldl SoKernel.bury k) q := by
  obtain ⟨pa, fc, ns, ps, heq⟩ := buryAll_shape k dead
  rw [heq]
  have hbefore : ∀ q, setAll dead false k.allocated q = true → k.allocated q = true := by
    intro q hq
    by_cases hm : q ∈ dead
    · rw [setAll_of_mem _ _ hm] at hq
      cases hq
    · rwa [setAll_of_not_mem _ _ hm] at hq
  have hkept : ∀ q, InWaitList k q → k.allocated q = true → setAll dead false k.allocated q = true := by
    intro q hin hq
    have hm : q ∉ dead := fun hm => hdead q hm hin
    rwa [setAll_of_not_mem _ _ hm]
  refine ⟨⟨?_, fun id s hs q hq => ?_, fun t ht => ?_, fun q hq => h.free q (hbefore q hq), h.idle,
    fun q hq => h.pids q (hbefore q hq),
    fun a b ha hb => h.unique a b (hbefore a ha) (hbefore b hb)⟩, fun q hq t L ht hL => ?_⟩
  · exact h.sems.congr rfl rfl rfl rfl rfl fun _ _ _ _ _ => rfl
  · exact hkept q (h.inWaitList_iff.mpr (Or.inl ⟨id, s, hs, hq⟩)) (h.live id s hs q hq)
  · obtain ⟨L, hL, hwait⟩ := h.waiters t (hbefore t ht)
    refine ⟨L, hL, fun w hw => ?_⟩
    obtain ⟨hal, hblocked, hpid, hsem, hne⟩ := hwait w hw
    exact ⟨hkept w (Or.inr ⟨t, L, hbefore t ht, hL, hw⟩) hal, hblocked, hpid, hsem, hne⟩
  · exact hq t L (hbefore t ht) hL

end Wake

section Switch

/-- The idle process is in no list. -/
theorem Listed.idle_unlinked (h : Listed k V) : ¬InWaitList k k.idleP := by
  intro hin
  cases h.inWaitList_iff.mp hin with
  | inl hsem =>
      obtain ⟨id, s, hV, hp⟩ := hsem
      exact (h.sems.waiting id s hV _ hp).2.2 rfl
  | inr hwait =>
      apply hwait
      intro t L ht hL hp
      exact (h.awaits ht hL hp).ne_idle rfl

/-- `keyboard_clear_buffer` sets the value of a semaphore and leaves its queue. -/
theorem Represents.cleared (h : Represents k V) :
    ∃ V', Represents { k with semaphores := clearedSemaphores k } V' ∧
      ∀ id s', V' id = some s' → ∃ s, V id = some s ∧ s.queue = s'.queue := by
  unfold clearedSemaphores
  cases hget : semGetById k k.kbdSemId with
  | none => exact ⟨V, h, fun id s' hs => ⟨s', hs, rfl⟩⟩
  | some i =>
      obtain ⟨s, hs, hi⟩ := h.of_found hget
      refine ⟨update V k.kbdSemId (some ⟨0, s.queue⟩), ?_, fun id s' hs' => ?_⟩
      · exact h.replace hi { k.semaphores i with value := 0 } hi.id_eq hi.used rfl rfl rfl hi.queue
          (h.waiting _ s hs) fun _ _ _ _ _ _ => ⟨rfl, rfl, rfl⟩
      · by_cases hid : id = k.kbdSemId
        · subst hid
          rw [Function.update_self, Option.some_inj] at hs'
          exact ⟨s, hs, hs' ▸ rfl⟩
        · rw [Function.update_of_ne hid] at hs'
          exact ⟨s', hs', rfl⟩

/-- What `save_context` does for a dead foreground process besides waking its waiters. -/
theorem Listed.cleared (h : Listed k V) (fg : ℕ → Bool) (kb : CircleBuffer) (b : Bool) :
    ∃ V', Listed
      { k with
        isForeground := fg
        keyboard := kb
        semaphores := if b then clearedSemaphores k else k.semaphores } V' ∧
      ∀ id s', V' id = some s' → ∃ s, V id = some s ∧ s.queue = s'.queue := by
  have hsems : ∃ V', Represents
      { k with
        isForeground := fg
        keyboard := kb
        semaphores := if b then clearedSemaphores k else k.semaphores } V' ∧
      ∀ id s', V' id = some s' → ∃ s, V id = some s ∧ s.queue = s'.queue := by
    cases b with
    | false =>
        exact ⟨V, h.sems.congr rfl rfl rfl rfl rfl fun _ _ _ _ _ => rfl, fun id s' hs => ⟨s', hs, rfl⟩⟩
    | true =>
        obtain ⟨V', hV', hqueue⟩ := h.sems.cleared
        exact ⟨V', hV'.congr rfl rfl rfl rfl rfl fun _ _ _ _ _ => rfl, hqueue⟩
  obtain ⟨V', hV', hqueue⟩ := hsems
  refine ⟨V', h.change ⟨rfl, rfl, rfl, rfl, rfl, rfl, rfl⟩ hV' (fun id s' hs' p hp => ?_)
    (fun _ _ => ⟨rfl, rfl⟩) h.free h.idle, hqueue⟩
  obtain ⟨s, hs, heq⟩ := hqueue id s' hs'
  exact h.live id s hs p (heq ▸ hp)

/-- `save_context`. -/
theorem Listed.saved (h : Listed k V) (hcur : k.allocated k.current = true) (hwoken : Woken k L) :
    ∃ V', Listed (savedBy k L) V' := by
  unfold Woken at hwoken
  by_cases hfin : k.state k.current = .finished
  · rw [if_pos hfin] at hwoken
    obtain ⟨V', hV', -⟩ := h.cleared
      (if savesForeground k then update k.isForeground (k.parent k.current) true else k.isForeground)
      (if savesForeground k then bufferClear k.keyboard else k.keyboard) (savesForeground k)
    refine ⟨V', ?_⟩
    have hstate : savedState k k.current L = setAll L .ready k.state := by
      rw [savedState, if_neg]
      rw [hfin]
      simp
    rw [savedBy, hstate, if_pos hfin]
    exact (hV'.wake hcur hwoken).1
  · rw [if_neg hfin] at hwoken
    subst hwoken
    rw [savedBy_unfinished hfin]
    refine ⟨V, h.restate ⟨rfl, rfl, rfl, rfl, rfl, rfl, rfl⟩ rfl rfl rfl rfl fun p hne => ?_⟩
    dsimp only at hne ⊢
    split at hne
    · rename_i hrun
      by_cases hp : p = k.current
      · subst hp
        have hb : k.state k.current ≠ .blocked := by
          rw [hrun.1]
          simp
        exact ⟨h.not_inWaitList hb, Or.inr (Or.inr (h.free _ hcur hb hfin))⟩
      · exact absurd (Function.update_of_ne hp _ _) hne
    · exact absurd rfl hne

/-- The process that goes on behind a context switch waits for nothing. -/
theorem Listed.next_free (h : Listed (savedBy k L) V) {ch : Choice} (hsw : Switched k ch L k') :
    ¬InWaitList (savedBy k L) ch.next ∧ (savedBy k L).waitingOnSem ch.next = 0 := by
  cases hsw.next_ready with
  | inl hready =>
      have hb : (savedBy k L).state ch.next ≠ .blocked := by
        rw [show (savedBy k L).state ch.next = .ready from hready]
        simp
      have hf : (savedBy k L).state ch.next ≠ .finished := by
        rw [show (savedBy k L).state ch.next = .ready from hready]
        simp
      exact ⟨h.not_inWaitList hb, h.free _ hsw.next_allocated hb hf⟩
  | inr hidle =>
      rw [hidle]
      exact ⟨h.idle_unlinked, h.idle⟩

/-- A context switch keeps the lists. -/
theorem Listed.switched (h : Listed k V) (ho : Orderly k) {ch : Choice} (hsw : Switched k ch L k') :
    ∃ V', Listed k' V' ∧ Running k' := by
  obtain ⟨V', hsaved⟩ := h.saved ho.current hsw.woken
  have hnext := hsaved.next_free hsw
  -- the next process runs
  have hrun : Listed (switchedBy k L ch.next) V' := by
    refine hsaved.restate ⟨rfl, rfl, rfl, rfl, rfl, rfl, rfl⟩ rfl rfl rfl rfl fun p hne => ?_
    by_cases hp : p = ch.next
    · subst hp
      exact ⟨hnext.1, Or.inr (Or.inr hnext.2)⟩
    · exact absurd (Function.update_of_ne hp _ _) hne
  have hstate : (switchedBy k L ch.next).state ch.next ≠ .blocked := by
    rw [show (switchedBy k L ch.next).state ch.next = .running from Function.update_self ..]
    simp
  obtain ⟨hburied, hnobody⟩ := hrun.bury ch.dead fun p hp => by
    obtain ⟨-, hfin, hpn⟩ := hsw.dead p hp
    apply hrun.not_inWaitList
    rw [show (switchedBy k L ch.next).state p = savedState k k.current L p from
      Function.update_of_ne hpn _ _, hfin]
    simp
  refine ⟨V', hsw.result ▸ hburied, ?_, ?_⟩
  · obtain ⟨pa, fc, ns, ps, heq⟩ := buryAll_shape (switchedBy k L ch.next) ch.dead
    rw [hsw.result, heq]
    exact hnext.2
  · rw [hsw.current, hsw.result]
    exact hnobody _ (hrun.awaitsNobody hstate)

end Switch

section Waits

/-- The caller of `syscall_wait` is in front of the waiters of its target. -/
theorem waiters_waitLinked (hrun : Running k) (hcur : k.current ≠ 0) (hq : k.allocated q = true)
    (hL : Waiters k q L) (pid : ℕ) :
    Waiters (SoKernel.waitLinked k t pid).blockCurrent q (if q = t then k.current :: L else L) := by
  have hrest : Chain (update k.waiterNext k.current (k.waitersHead t)) 0 (k.waitersHead q) L := by
    apply hL.congr
    intro w hw
    have hwc : w ≠ k.current := by
      rintro rfl
      exact hrun.nobody q L hq hL hw
    exact Function.update_of_ne hwc _ _
  rw [Waiters]
  dsimp only
  by_cases hqt : q = t
  · subst hqt
    rw [if_pos rfl, Function.update_self]
    refine ⟨rfl, hcur, ?_⟩
    rw [Function.update_self]
    exact hrest
  · rw [if_neg hqt, Function.update_of_ne hqt]
    exact hrest

/-- The caller of `syscall_wait` is linked among the waiters of its target and blocks. -/
theorem Listed.waitLinked (h : Listed k V) (hrun : Running k) (hcall : Caller k)
    (hcur : k.allocated k.current = true) (ht : k.allocated t = true) :
    Listed (SoKernel.waitLinked k t (k.pid t)).blockCurrent V := by
  have hkept : ∀ p, p ≠ k.current → update k.state k.current .blocked p = k.state p := fun p hp =>
    Function.update_of_ne hp _ _
  -- who waited before waits still
  have hold : ∀ a L, k.allocated a = true → Waiters k a L → (∀ w ∈ L, AwaitsPid k (k.pid a) w) →
      ∀ w ∈ L, AwaitsPid (SoKernel.waitLinked k t (k.pid t)).blockCurrent (k.pid a) w := by
    intro a L ha hL hwait w hw
    have hwc : w ≠ k.current := by
      rintro rfl
      exact hrun.nobody a L ha hL hw
    obtain ⟨hal, hblocked, hpid, hsem, hne⟩ := hwait w hw
    exact ⟨hal, (hkept w hwc).trans hblocked, (Function.update_of_ne hwc _ _).trans hpid, hsem, hne⟩
  have hnew : AwaitsPid (SoKernel.waitLinked k t (k.pid t)).blockCurrent (k.pid t) k.current :=
    ⟨hcur, Function.update_self .., Function.update_self .., hrun.waitingOnSem, hcall.2⟩
  refine ⟨?_, h.live, fun a ha => ?_, fun p hp hb hf => ?_, h.idle, h.pids, h.unique⟩
  · refine h.sems.congr rfl rfl rfl rfl rfl fun id s hs p hp => hkept p ?_
    rintro rfl
    exact h.not_mem_queue hs hrun.waitingOnSem hp
  · obtain ⟨L, hL, hwait⟩ := h.waiters a ha
    refine ⟨_, waiters_waitLinked hrun hcall.1 ha hL _, ?_⟩
    split
    · rename_i hat
      subst hat
      exact List.forall_mem_cons.mpr ⟨hnew, hold a L ha hL hwait⟩
    · exact hold a L ha hL hwait
  · have hpc : p ≠ k.current := by
      rintro rfl
      exact hb (Function.update_self ..)
    dsimp only at hb hf
    rw [hkept p hpc] at hb hf
    exact h.free p hp hb hf

/-- The queue of the semaphore with the caller of `sem_wait_by_id` at its end. -/
theorem Represents.semLinked (h : Represents k V) (haway : Away k V) (hcall : Caller k) {i : ℕ}
    {s : CountingSemaphore ℕ} (hs : V id = some s) (hfound : semGetById k id = some i)
    (hempty : (k.semaphores i).value ≤ 0) :
    Represents (SoKernel.semLinked k i).blockCurrent (update V id (some (s.enqueue k.current))) := by
  have hzero : ¬0 < s.value := by
    obtain ⟨s', hs', hi⟩ := h.of_found hfound
    rw [hs, Option.some_inj] at hs'
    rw [hs', ← hi.value]
    exact not_lt.mpr hempty
  obtain ⟨-, -, hsems, -⟩ := h.enqueue haway hs hcall.1 hcall.2 hzero
  have hstart : (semWaitStart k id).1 = SoKernel.semLinked k i := by
    simp only [semWaitStart, hfound, if_neg hcall.1, if_neg (not_lt.mpr hempty)]
  obtain ⟨sems, swn, hshape⟩ := enqueueWaiter_shape
    { k with waitingOnSem := update k.waitingOnSem k.current (k.semaphores i).id } i k.current
  have hcall' : Caller (SoKernel.semLinked k i) := by
    rw [SoKernel.semLinked, hshape]
    exact hcall
  rw [hstart, blockCurrent_eq hcall'] at hsems
  exact hsems.congr rfl rfl rfl rfl rfl fun _ _ _ _ _ => rfl

/-- The caller of `sem_wait_by_id` is linked in the queue of the semaphore and blocks. -/
theorem Listed.semLinked (h : Listed k V) (hrun : Running k) (hcall : Caller k)
    (hcur : k.allocated k.current = true) {i : ℕ} (hfound : semGetById k id = some i)
    (hempty : (k.semaphores i).value ≤ 0) :
    ∃ V', Listed (SoKernel.semLinked k i).blockCurrent V' := by
  obtain ⟨s, hs, hi⟩ := h.sems.of_found hfound
  have haway : Away k V := fun id' s' hs' => h.not_mem_queue hs' hrun.waitingOnSem
  have hsems := h.sems.semLinked haway hcall hs hfound hempty
  obtain ⟨sems, swn, hshape⟩ := enqueueWaiter_shape
    { k with waitingOnSem := update k.waitingOnSem k.current (k.semaphores i).id } i k.current
  refine ⟨update V id (some (s.enqueue k.current)), ?_⟩
  rw [SoKernel.semLinked, hshape] at hsems ⊢
  refine h.change ⟨rfl, rfl, rfl, rfl, rfl, rfl, rfl⟩ hsems (fun id' s' hs' p hp => ?_)
    (fun p hp => ?_) (fun p hp hb hf => ?_) ?_
  · by_cases hid : id' = id
    · subst hid
      rw [Function.update_self, Option.some_inj] at hs'
      subst hs'
      cases List.mem_append.mp hp with
      | inl hp => exact h.live id' s hs p hp
      | inr hp => exact List.mem_singleton.mp hp ▸ hcur
    · rw [Function.update_of_ne hid] at hs'
      exact h.live id' s' hs' p hp
  · have hpc : p ≠ k.current := by
      rintro rfl
      exact hp hrun.nobody
    exact ⟨Function.update_of_ne hpc _ _, Function.update_of_ne hpc _ _⟩
  · have hpc : p ≠ k.current := by
      rintro rfl
      exact hb (Function.update_self ..)
    dsimp only at hb hf ⊢
    rw [Function.update_of_ne hpc] at hb hf ⊢
    exact h.free p hp hb hf
  · dsimp only
    rw [Function.update_of_ne (Ne.symm hcall.2)]
    exact h.idle

end Waits

section Semaphores

/-- Semaphores change, and some of the processes that waited for one are released. -/
theorem Listed.releases (h : Listed k V) (hrun : Running k) (ws : List ℕ) (hsems : Represents k' V')
    (hqueue : ∀ id s', V' id = some s' → ∀ p ∈ s'.queue, ∃ id s, V id = some s ∧ p ∈ s.queue)
    (hws : ∀ w ∈ ws, ∃ id s, V id = some s ∧ w ∈ s.queue) (same : SameWaiters k k')
    (hcur : k'.current = k.current) (hstate : k'.state = setAll ws .ready k.state)
    (hon : k'.waitingOnSem = setAll ws 0 k.waitingOnSem) : Listed k' V' ∧ Running k' := by
  have hzero : ∀ p, k.waitingOnSem p = 0 → k'.waitingOnSem p = 0 := by
    intro p hp
    rw [hon]
    by_cases hm : p ∈ ws
    · exact setAll_of_mem _ _ hm
    · rwa [setAll_of_not_mem _ _ hm]
  refine ⟨h.change same hsems (fun id s' hs' p hp => ?_) (fun p hp => ?_) (fun p hp hb hf => ?_)
    (hzero _ h.idle), ?_, ?_⟩
  · obtain ⟨id', s, hs, hm⟩ := hqueue id s' hs' p hp
    exact h.live id' s hs p hm
  · have hm : p ∉ ws := by
      intro hm
      obtain ⟨id, s, hs, hps⟩ := hws p hm
      exact hp (h.awaitsNobody_of_waitingOnSem (h.waitingOnSem_ne_zero hs hps))
    rw [hstate, hon, setAll_of_not_mem _ _ hm, setAll_of_not_mem _ _ hm]
    exact ⟨rfl, rfl⟩
  · rw [hon]
    by_cases hm : p ∈ ws
    · exact setAll_of_mem _ _ hm
    · rw [hstate, setAll_of_not_mem _ _ hm] at hb hf
      rw [setAll_of_not_mem _ _ hm]
      exact h.free p hp hb hf
  · rw [hcur]
    exact hzero _ hrun.waitingOnSem
  · rw [hcur]
    exact same.awaitsNobody hrun.nobody

/-- Semaphores change, and nobody is released. -/
theorem Listed.noReleases (h : Listed k V) (hrun : Running k) (hsems : Represents k' V')
    (hqueue : ∀ id s', V' id = some s' → ∀ p ∈ s'.queue, ∃ id s, V id = some s ∧ p ∈ s.queue)
    (same : SameWaiters k k') (hcur : k'.current = k.current) (hstate : k'.state = k.state)
    (hon : k'.waitingOnSem = k.waitingOnSem) : Listed k' V' ∧ Running k' := by
  apply h.releases hrun [] hsems hqueue (by simp) same hcur
  · rw [setAll_nil, hstate]
  · rw [setAll_nil, hon]

/-- A semaphore changes, and its new queue holds processes that were in its queue before. -/
theorem mem_of_update {s s' : CountingSemaphore ℕ} (hs : V id = some s) (hsub : ∀ p ∈ s'.queue, p ∈ s.queue)
    {a : ℕ} {u : CountingSemaphore ℕ} (hu : update V id (some s') a = some u) (hp : p ∈ u.queue) :
    ∃ a s, V a = some s ∧ p ∈ s.queue := by
  by_cases ha : a = id
  · rw [ha, Function.update_self, Option.some_inj] at hu
    exact ⟨id, s, hs, hsub p (hu ▸ hp)⟩
  · rw [Function.update_of_ne ha] at hu
    exact ⟨a, u, hu, hp⟩

/-- `sem_alloc`. -/
theorem Listed.semAlloc (h : Listed k V) (hrun : Running k) (v : ℤ) :
    ∃ V', Listed (SoKernel.semAlloc k v).2 V' ∧ Running (SoKernel.semAlloc k v).2 := by
  cases h.sems.alloc v with
  | inl hfull =>
      rw [hfull]
      exact ⟨V, h, hrun⟩
  | inr hnew =>
      obtain ⟨hnone, sems, heq, hsems⟩ := hnew
      rw [heq]
      refine ⟨_, h.noReleases hrun hsems (fun id s' hs' p hp => ?_) ⟨rfl, rfl, rfl, rfl, rfl, rfl, rfl⟩ rfl
        rfl rfl⟩
      by_cases hid : id = k.nextSemId
      · rw [hid, Function.update_self, Option.some_inj] at hs'
        subst hs'
        cases hp
      · rw [Function.update_of_ne hid] at hs'
        exact ⟨id, s', hs', hp⟩

/-- `sem_open_by_id`. -/
theorem Listed.semOpen (h : Listed k V) (hrun : Running k) (id : ℕ) :
    Listed (semOpenById k id).2 V ∧ Running (semOpenById k id).2 := by
  obtain ⟨hsems, sems, heq⟩ := h.sems.open id
  rw [heq] at hsems ⊢
  exact h.noReleases hrun hsems (fun a s hs p hp => ⟨a, s, hs, hp⟩) ⟨rfl, rfl, rfl, rfl, rfl, rfl, rfl⟩ rfl
    rfl rfl

/-- `sem_close_by_id`: the processes that wait for a semaphore that goes away are in no list. -/
theorem Listed.semClose (h : Listed k V) (hrun : Running k) (id : ℕ) :
    ∃ V', Listed (semCloseById k id).2 V' ∧ Running (semCloseById k id).2 := by
  obtain ⟨⟨sems, heq⟩, hclose⟩ := h.sems.close id
  rw [heq] at hclose ⊢
  have hkeep : Represents { k with semaphores := sems } V → Listed { k with semaphores := sems } V ∧
      Running { k with semaphores := sems } := fun hsems =>
    h.noReleases hrun hsems (fun a s hs p hp => ⟨a, s, hs, hp⟩) ⟨rfl, rfl, rfl, rfl, rfl, rfl, rfl⟩ rfl rfl rfl
  obtain ⟨-, hsame⟩ | ⟨i, -, ⟨-, hsems⟩ | ⟨-, hsems⟩⟩ := hclose
  · rw [hsame]
    exact ⟨V, h, hrun⟩
  · exact ⟨V, hkeep hsems⟩
  · refine ⟨_, h.noReleases hrun hsems (fun a s hs p hp => ?_) ⟨rfl, rfl, rfl, rfl, rfl, rfl, rfl⟩ rfl rfl rfl⟩
    by_cases ha : a = id
    · rw [ha, Function.update_self] at hs
      cases hs
    · rw [Function.update_of_ne ha] at hs
      exact ⟨a, s, hs, hp⟩

/-- A signal with a waiting process. -/
theorem Listed.semReleased (h : Listed k V) (hrun : Running k) {i : ℕ}
    (hfound : semGetById k id = some i) (hne : (k.semaphores i).waitHead ≠ 0) :
    ∃ V', Listed (releasedKernel k i (k.semaphores i).waitHead) V' ∧
      Running (releasedKernel k i (k.semaphores i).waitHead) := by
  obtain ⟨s, hs, hi⟩ := h.sems.of_found hfound
  obtain ⟨hsems, hfirst⟩ := h.sems.release hs hi rfl hne
  have hhead : (k.semaphores i).waitHead ∈ s.queue := by
    rw [Sems.first_of_some hs] at hfirst
    apply List.mem_of_mem_take (i := 1)
    rw [hfirst]
    exact List.mem_singleton_self _
  refine ⟨_, h.releases hrun [(k.semaphores i).waitHead] hsems ?_ ?_
    ⟨rfl, rfl, rfl, rfl, rfl, rfl, rfl⟩ rfl ?_ ?_⟩
  · intro a u hu p hp
    exact mem_of_update hs (fun q hq => CountingSemaphore.mem_of_mem_signal hq) hu hp
  · intro w hw
    exact ⟨id, s, hs, List.mem_singleton.mp hw ▸ hhead⟩
  · rw [setAll_cons, setAll_nil]
  · rw [setAll_cons, setAll_nil]

/-- `sem_set_by_id`. -/
theorem Listed.semSet (h : Listed k V) (hrun : Running k) {i : ℕ} (hfound : semGetById k id = some i)
    (n : ℕ) (x : ℤ) :
    ∃ V', Listed (setSemValue (releaseLoop i n k).2 i x) V' ∧
      Running (setSemValue (releaseLoop i n k).2 i x) := by
  obtain ⟨s, hs, hi⟩ := h.sems.of_found hfound
  have hlist := (h.sems.releaseLoop hs hi n).1
  have hsems := h.sems.assign hs hi n x
  obtain ⟨sems, swn, hshape⟩ := releaseLoop_shape (i := i) n k
  rw [hshape] at hsems ⊢
  refine ⟨_, h.releases hrun (s.queue.take n) hsems ?_ ?_
    ⟨rfl, rfl, rfl, rfl, rfl, rfl, rfl⟩ rfl ?_ ?_⟩
  · intro a u hu p hp
    exact mem_of_update hs (fun q hq => List.mem_of_mem_drop hq) hu hp
  · intro w hw
    exact ⟨id, s, hs, List.mem_of_mem_take hw⟩
  · rw [hlist]
  · rw [hlist]

/-- The value of a semaphore does not matter. -/
theorem Listed.semValue (h : Listed k V) (hrun : Running k) {i : ℕ} (hfound : semGetById k id = some i)
    (x : ℤ) : ∃ V', Listed (setSemValue k i x) V' ∧ Running (setSemValue k i x) :=
  h.semSet hrun hfound 0 x

end Semaphores

section Creation

/-- Only the control block at an address without a process changes. A process that is made
there waits for nothing and has an identifier of its own. -/
structure FreshPcb (k k' : Kernel) (pcb : ℕ) : Prop where
  free : k.allocated pcb = false
  semaphores : k'.semaphores = k.semaphores
  nextSemId : k'.nextSemId = k.nextSemId
  idleP : k'.idleP = k.idleP
  nextPid : k.nextPid ≤ k'.nextPid
  allocated : ∀ p, p ≠ pcb → k'.allocated p = k.allocated p
  state : ∀ p, p ≠ pcb → k'.state p = k.state p
  pid : ∀ p, p ≠ pcb → k'.pid p = k.pid p
  waiterNext : ∀ p, p ≠ pcb → k'.waiterNext p = k.waiterNext p
  waitersHead : ∀ p, p ≠ pcb → k'.waitersHead p = k.waitersHead p
  waitingOnPid : ∀ p, p ≠ pcb → k'.waitingOnPid p = k.waitingOnPid p
  waitingOnSem : ∀ p, p ≠ pcb → k'.waitingOnSem p = k.waitingOnSem p
  semWaiterNext : ∀ p, p ≠ pcb → k'.semWaiterNext p = k.semWaiterNext p
  made : k'.allocated pcb = true → k'.waitersHead pcb = 0 ∧ k'.waitingOnSem pcb = 0 ∧
    k'.pid pcb = k.nextPid ∧ k.nextPid < k'.nextPid

theorem FreshPcb.ne (h : FreshPcb k k' t) (hp : k.allocated p = true) : p ≠ t := by
  rintro rfl
  rw [h.free] at hp
  cases hp

theorem FreshPcb.waiters (hnew : FreshPcb k k' q) (h : Listed k V) (ht : k.allocated t = true)
    (hL : Waiters k t L) : Waiters k' t L := by
  rw [Waiters, hnew.waitersHead t (hnew.ne ht)]
  apply hL.congr
  intro w hw
  exact hnew.waiterNext w (hnew.ne (h.awaits ht hL hw).allocated)

/-- A new process leaves the lists of the others. -/
theorem Listed.created (h : Listed k V) {pcb : ℕ} (hnew : FreshPcb k k' pcb)
    (hcur : k.allocated k.current = true) (hidle : k.allocated k.idleP = true) :
    Listed k' V ∧ ∀ q, AwaitsNobody k q → AwaitsNobody k' q := by
  have hsplit : ∀ p, k'.allocated p = true → p ≠ pcb → k.allocated p = true := by
    intro p hp hpp
    rwa [hnew.allocated p hpp] at hp
  have hempty : k'.allocated pcb = true → Waiters k' pcb [] := fun hp => (hnew.made hp).1
  have hpos : 0 < k.nextPid := (Nat.zero_le _).trans_lt (h.pids _ hcur).2
  have hfresh : ∀ p q, k'.allocated p = true → p = pcb → k'.allocated q = true → q ≠ pcb →
      k'.pid p ≠ k'.pid q := by
    rintro p q hp rfl hq hqp he
    rw [(hnew.made hp).2.2.1, hnew.pid q hqp] at he
    exact (h.pids q (hsplit q hq hqp)).2.ne he.symm
  refine ⟨⟨?_, fun id s hs p hp => ?_, fun t ht => ?_, fun p hp hb hf => ?_, ?_, fun p hp => ?_,
    fun p q hp hq he => ?_⟩, fun q hq t L ht hL => ?_⟩
  · refine h.sems.congr_members hnew.semaphores hnew.nextSemId hnew.idleP fun id s hs p hp => ?_
    have hpp := hnew.ne (h.live id s hs p hp)
    exact ⟨hnew.semWaiterNext p hpp, hnew.state p hpp, hnew.waitingOnSem p hpp⟩
  · have hal := h.live id s hs p hp
    rw [hnew.allocated p (hnew.ne hal)]
    exact hal
  · by_cases htp : t = pcb
    · subst htp
      exact ⟨[], hempty ht, by simp⟩
    · have ht' := hsplit t ht htp
      obtain ⟨L, hL, hwait⟩ := h.waiters t ht'
      refine ⟨L, hnew.waiters h ht' hL, fun w hw => ?_⟩
      obtain ⟨hal, hblocked, hpid, hsem, hne⟩ := hwait w hw
      have hwp := hnew.ne hal
      rw [hnew.pid t htp]
      exact ⟨(hnew.allocated w hwp).trans hal, (hnew.state w hwp).trans hblocked,
        (hnew.waitingOnPid w hwp).trans hpid, (hnew.waitingOnSem w hwp).trans hsem, hnew.idleP ▸ hne⟩
  · by_cases hpp : p = pcb
    · subst hpp
      exact (hnew.made hp).2.1
    · rw [hnew.state p hpp] at hb hf
      rw [hnew.waitingOnSem p hpp]
      exact h.free p (hsplit p hp hpp) hb hf
  · rw [hnew.idleP, hnew.waitingOnSem _ (hnew.ne hidle)]
    exact h.idle
  · by_cases hpp : p = pcb
    · subst hpp
      obtain ⟨-, -, hpid, hlt⟩ := hnew.made hp
      rw [hpid]
      exact ⟨hpos, hlt⟩
    · rw [hnew.pid p hpp]
      obtain ⟨hzero, hlt⟩ := h.pids p (hsplit p hp hpp)
      exact ⟨hzero, hlt.trans_le hnew.nextPid⟩
  · by_cases hpp : p = pcb
    · by_cases hqp : q = pcb
      · rw [hpp, hqp]
      · exact absurd he (hfresh p q hp hpp hq hqp)
    · by_cases hqp : q = pcb
      · exact absurd he.symm (hfresh q p hq hqp hp hpp)
      · rw [hnew.pid p hpp, hnew.pid q hqp] at he
        exact h.unique p q (hsplit p hp hpp) (hsplit q hq hqp) he
  · by_cases htp : t = pcb
    · subst htp
      rw [hL.unique (hempty ht)]
      exact List.not_mem_nil
    · have ht' := hsplit t ht htp
      obtain ⟨M, hM, -⟩ := h.waiters t ht'
      rw [hL.unique (hnew.waiters h ht' hM)]
      exact hq t M ht' hM

end Creation
end SoKernel
