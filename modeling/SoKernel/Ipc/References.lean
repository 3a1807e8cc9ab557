import SoKernel.Ipc.WaitLinks
import SoKernel.Proc.Family
import SoKernel.Proc.RealCalls

/-!
# References to destroyed processes

A process is reached through the process tree, the lists of waiting processes and the queues of
the scheduler. After `process_destroy` none of these refers to the process any more, in runs of the
kernel in which a process is destroyed behind its children and a waiting process is neither killed
nor unblocked by its identifier.
-/

namespace SoKernel

open Function (update)
open LinkedList (Queue)

variable {k k' : Kernel} {V : Sems} {c : OpenCall} {ch : Choice} {p id i : ℕ} {L : List ℕ}

section Model

/-- A pointer is null or leads to a process that has not been destroyed. -/
def Live (k : Kernel) (p : ℕ) : Prop := p = 0 ∨ k.allocated p = true

/-- Nothing refers to a destroyed process, and the children of a process are those whose parent
it is. -/
structure NoDangling (k : Kernel) : Prop where
  tree : ∀ p, k.allocated p = true → Live k (k.parent p) ∧ Live k (k.firstChild p) ∧
    Live k (k.nextSibling p) ∧ Live k (k.prevSibling p)
  waits : ∀ p, k.allocated p = true → Live k (k.waitersHead p) ∧ Live k (k.waiterNext p) ∧
    Live k (k.semWaiterNext p)
  semaphores : ∀ i < maxSemaphores, (k.semaphores i).used = true →
    ∃ L, Queue k.semWaiterNext 0 (k.semaphores i).waitHead (k.semaphores i).waitTail L ∧
      ∀ p ∈ L, k.allocated p = true
  children : ∀ p, k.allocated p = true → ∃ C, ChildList k p C ∧
    ∀ c, c ∈ C ↔ k.allocated c = true ∧ k.parent c = p

/-- A process that is destroyed has no children left, and a process that is killed or unblocked by
its identifier is in no list and waits for no semaphore. -/
def LinkSafe (k : Kernel) : OpenCall → Prop
  | .kill p | .unblock p => ¬InWaitList k p ∧ k.waitingOnSem p = 0
  | .wait _ ch | .semWait _ ch | .switch ch => ChildrenFirst k ch.dead
  | _ => True

theorem LinkSafe.waitListSafe (h : LinkSafe k c) : WaitListSafe k c := by
  cases c with
  | kill p => exact h.1
  | unblock p => exact h
  | _ => trivial

end Model

section Invariant

/-- The state of a run in which nothing refers to a destroyed process. -/
structure RefsKept (k : Kernel) : Prop where
  lists : ListsKept k
  tidy : LinksTidy k
  family : Family k

theorem RefsKept.noDangling (h : RefsKept k) : NoDangling k := by
  obtain ⟨V, hV⟩ := h.lists.listed
  have hfirst : ∀ t L, Waiters k t L → (∀ w ∈ L, k.allocated w = true) → Live k (k.waitersHead t) := by
    intro t L hL hal
    have hhead := LinkedList.Chain.head_eq hL
    cases L with
    | nil => exact Or.inl hhead
    | cons x L => exact Or.inr (hhead ▸ hal x List.mem_cons_self)
  refine ⟨fun p hp => ?_, fun p hp => ?_, fun i hi hu => ?_, h.family.children⟩
  · obtain ⟨C, hC, hmem⟩ := h.family.children p hp
    have hchild : ∀ c ∈ C, k.allocated c = true := fun c hc => ((hmem c).mp hc).1
    have hsiblings : Live k (k.nextSibling p) ∧ Live k (k.prevSibling p) := by
      obtain hroot | hal := h.family.parent p hp
      · obtain ⟨hnext, hprev⟩ := h.family.root p hp hroot
        exact ⟨Or.inl hnext, Or.inl hprev⟩
      · obtain ⟨D, hD, hmemD⟩ := h.family.children _ hal
        obtain ⟨hnext, hprev⟩ := hD.sibling_mem ((hmemD p).mpr ⟨hp, rfl⟩)
        exact ⟨hnext.imp_right fun hm => ((hmemD _).mp hm).1, hprev.imp_right fun hm => ((hmemD _).mp hm).1⟩
    exact ⟨h.family.parent p hp, hC.firstChild_mem.imp_right (hchild _), hsiblings⟩
  · obtain ⟨L, hL, hwait⟩ := hV.waiters p hp
    refine ⟨hfirst p L hL fun w hw => (hwait w hw).allocated, ?_, ?_⟩
    · by_cases hnobody : AwaitsNobody k p
      · exact Or.inl (h.tidy.loose p hp hnobody)
      · simp only [AwaitsNobody, not_forall, not_not] at hnobody
        obtain ⟨t, M, ht, hM, hpM⟩ := hnobody
        exact (LinkedList.Chain.next_mem hM hpM).imp_right fun hm => (hV.awaits ht hM hm).allocated
    · by_cases hlink : k.semWaiterNext p = 0
      · exact Or.inl hlink
      · exact Or.inr (h.tidy.semNext p hp hlink).2.1
  · obtain ⟨L, hL, hqueue⟩ := hV.sems.entry i hi hu
    exact ⟨L, hqueue, hV.live _ _ hL⟩

end Invariant

section Calls

theorem Family.switched (h : Family k) (ho : Orderly k) (hsw : Switched k ch L k')
    (hfirst : ChildrenFirst k ch.dead) : Family k' := by
  rw [hsw.result]
  have hrun : Family (switchedBy k L ch.next) := h.congr rfl rfl rfl rfl rfl
  exact hrun.buryAll ho.valid (fun p hp => (hsw.dead p hp).1) hsw.dead_nodup hfirst

/-- Every call keeps the process tree. -/
theorem RefsKept.family_effect (h : RefsKept k) (hp : OpenPromise k c) (hsafe : LinkSafe k c)
    (heffect : OpenEffect k c k') : Family k' := by
  have ho := h.lists.orderly
  have hsame : ∀ {k₁ : Kernel}, k₁.allocated = k.allocated → k₁.parent = k.parent →
      k₁.firstChild = k.firstChild → k₁.nextSibling = k.nextSibling →
      k₁.prevSibling = k.prevSibling → Family k₁ := fun hal hpa hfc hns hps =>
    h.family.congr hal hpa hfc hns hps
  cases heffect with
  | same => exact h.family
  | creationFailed => exact hsame rfl rfl rfl rfl rfl
  | @creationCleared r pcb =>
      have hfree := (hp.2.1 pcb).2
      exact h.family.clearFree hfree rfl (fun p hpp => Function.update_of_ne hpp _ _)
        (fun p hpp => Function.update_of_ne hpp _ _) (fun p hpp => Function.update_of_ne hpp _ _)
        fun p hpp => Function.update_of_ne hpp _ _
  | @created r pcb pr fdp =>
      have hflags : Family { k with isForeground := yieldedFlags k r } := hsame rfl rfl rfl rfl rfl
      exact hflags.created (r := { r with parent := k.current }) ho.valid pcb (hp.2.1 pcb).2 ho.current pr fdp
  | exited => exact hsame rfl rfl rfl rfl rfl
  | killed => exact hsame rfl rfl rfl rfl rfl
  | blocked => exact hsame rfl rfl rfl rfl rfl
  | readied => exact hsame rfl rfl rfl rfl rfl
  | waitOver => exact hsame rfl rfl rfl rfl rfl
  | @waited target ch _ alive other L switched =>
      have hlinked : Family (waitLinked k target (k.pid target)).blockCurrent := hsame rfl rfl rfl rfl rfl
      have ho' : Orderly (waitLinked k target (k.pid target)) :=
        ⟨ho.terminals, ho.noPipes, ho.valid, ho.current, ho.idle⟩
      exact hlinked.switched (Orderly.block ho' hp.1) switched hsafe
  | waitReturned => exact hsame rfl rfl rfl rfl rfl
  | @semAllocated v =>
      obtain ⟨sems, n, heq⟩ := semAlloc_shape k v
      rw [heq]
      exact hsame rfl rfl rfl rfl rfl
  | @semOpened id =>
      obtain ⟨sems, heq⟩ := semOpenById_shape k id
      rw [heq]
      exact hsame rfl rfl rfl rfl rfl
  | @semClosed id =>
      obtain ⟨sems, heq⟩ := semCloseById_shape k id
      rw [heq]
      exact hsame rfl rfl rfl rfl rfl
  | semTaken => exact hsame rfl rfl rfl rfl rfl
  | @semQueued id ch _ i found empty L switched =>
      obtain ⟨sems, swn, hshape⟩ := enqueueWaiter_shape
        { k with waitingOnSem := update k.waitingOnSem k.current (k.semaphores i).id } i k.current
      have hlinked : Family (semLinked k i).blockCurrent := by
        rw [semLinked, hshape]
        exact hsame rfl rfl rfl rfl rfl
      refine hlinked.switched (ho.semLinked hp.1 i) switched ?_
      rw [semLinked, hshape]
      exact hsafe
  | semIncremented => exact hsame rfl rfl rfl rfl rfl
  | semReleased => exact hsame rfl rfl rfl rfl rfl
  | @semSet id v i =>
      obtain ⟨sems, swn, heq⟩ := releaseLoop_shape (i := i) v.toNat k
      rw [heq]
      exact hsame rfl rfl rfl rfl rfl
  | switched L switched => exact h.family.switched ho switched hsafe

/-- `scheduler_kill_by_pid` of a process that is in no list. -/
theorem LinksTidy.killed (h : LinksTidy k) (hV : Listed k V) (hal : k.allocated p = true)
    (hp : ¬InWaitList k p) (hon : k.waitingOnSem p = 0)
    (hwake : WakeList k.waiterNext (k.waitersHead p) L) (fg : ℕ → Bool) :
    LinksTidy (killedKernel k p L fg k.needResched) := by
  have hpL : p ∉ L := by
    intro hm
    obtain ⟨M, hM, -⟩ := hV.waiters p hal
    exact hp (Or.inr ⟨p, M, hal, hM, hwake.eq_of_chain hM ▸ hm⟩)
  have hwoken := h.wake hV hal hwake
  -- the process may as well finish behind its waiters
  have hstate : setAll L .ready (update k.state p .finished) = update (setAll L .ready k.state) p .finished := by
    funext q
    by_cases hqL : q ∈ L
    · have hqp : q ≠ p := fun he => hpL (he ▸ hqL)
      rw [setAll_of_mem _ _ hqL, Function.update_of_ne hqp, setAll_of_mem _ _ hqL]
    · by_cases hqp : q = p
      · rw [hqp, Function.update_self, setAll_of_not_mem _ _ hpL, Function.update_self]
      · rw [setAll_of_not_mem _ _ hqL, Function.update_of_ne hqp, Function.update_of_ne hqp,
          setAll_of_not_mem _ _ hqL]
  rw [killedKernel, hstate]
  refine hwoken.restate ⟨rfl, rfl, rfl, rfl, rfl, rfl, rfl⟩ rfl rfl rfl rfl (fun q hne => ?_)
    fun q hq hfin hqc => ?_
  · by_cases hqp : q = p
    · exact Or.inr (hqp ▸ hon)
    · exact absurd (Function.update_of_ne hqp _ _) hne
  · by_cases hqp : q = p
    · rw [hqp]
      exact Function.update_self ..
    · exact hwoken.dead q hq ((Function.update_of_ne hqp _ _).symm.trans hfin) hqc

/-- A process changes its state. -/
theorem LinksTidy.setState (h : LinksTidy k) {st : ProcessState}
    (hst : st = .blocked ∨ k.waitingOnSem p = 0) (hfin : st = .finished → p = k.current) :
    LinksTidy { k with state := update k.state p st } := by
  refine h.restate ⟨rfl, rfl, rfl, rfl, rfl, rfl, rfl⟩ rfl rfl rfl rfl (fun q hne => ?_)
    fun q hq hq' hqc => ?_
  · by_cases hqp : q = p
    · subst hqp
      dsimp only
      rw [Function.update_self]
      exact hst
    · exact absurd (Function.update_of_ne hqp _ _) hne
  · by_cases hqp : q = p
    · subst hqp
      dsimp only at hq'
      rw [Function.update_self] at hq'
      exact absurd (hfin hq') hqc
    · exact h.dead q hq ((Function.update_of_ne hqp _ _).symm.trans hq') hqc

theorem LinksTidy.flags (h : LinksTidy k) (fg : ℕ → Bool) : LinksTidy { k with isForeground := fg } :=
  h.restate ⟨rfl, rfl, rfl, rfl, rfl, rfl, rfl⟩ rfl rfl rfl rfl (fun _ hne => absurd rfl hne) h.dead

/-- The value of a semaphore does not matter. -/
theorem LinksTidy.semValue (h : LinksTidy k) (hsems : Represents k V) {s : CountingSemaphore ℕ}
    (hs : V id = some s) (hi : EntryOf k id i s) (x : ℤ) : LinksTidy (setSemValue k i x) := by
  refine h.represented hsems (hsems.assign hs hi 0 x) ⟨rfl, rfl, rfl, rfl, rfl, rfl, rfl⟩ rfl rfl rfl rfl
    le_rfl fun a s' _ hs' => ?_
  by_cases ha : a = id
  · rw [ha, Function.update_self, Option.some_inj] at hs'
    exact ⟨s, ha ▸ hs, hs' ▸ rfl⟩
  · rw [Function.update_of_ne ha] at hs'
    exact ⟨s', hs', rfl⟩

/-- Every call keeps the links of waiting processes. -/
theorem RefsKept.tidy_effect (h : RefsKept k) (hp : OpenPromise k c) (hsafe : LinkSafe k c)
    (heffect : OpenEffect k c k') : LinksTidy k' := by
  have ho := h.lists.orderly
  have hrun := h.lists.running
  obtain ⟨V, hV⟩ := h.lists.listed
  have htidy := h.tidy
  cases heffect with
  | same => exact htidy
  | creationFailed => exact htidy.flags _
  | @creationCleared r pcb =>
      have hnew := freshPcb_cleared (hp.2.1 pcb).2
        (regainedFlags k r (update (yieldedFlags k r) r.pcb false))
      refine htidy.created hV (hV.created hnew ho.current ho.idle.1).1 hnew rfl fun _ => ?_
      exact ⟨Function.update_self .., Function.update_self ..⟩
  | @created r pcb pr fdp =>
      have hnew := freshPcb_created (k := { k with isForeground := yieldedFlags k r })
        (r := { r with parent := k.current }) (hp.2.1 pcb).2 pr fdp
      have hflags := hV.flags (yieldedFlags k r)
      refine (htidy.flags _).created hflags (hflags.created hnew ho.current ho.idle.1).1 hnew rfl fun _ => ?_
      exact ⟨Function.update_self .., Function.update_self ..⟩
  | exited => exact htidy.setState (Or.inr hrun.waitingOnSem) fun _ => rfl
  | killed L woken => exact htidy.killed hV hp.1 hsafe.1 hsafe.2 woken _
  | blocked =>
      refine htidy.setState (Or.inl rfl) fun he => ?_
      cases he
  | readied =>
      refine htidy.setState (Or.inr hsafe.2) fun he => ?_
      cases he
  | waitOver => exact htidy.flags _
  | @waited target ch _ alive other L switched =>
      have ho' : Orderly (waitLinked k target (k.pid target)) :=
        ⟨ho.terminals, ho.noPipes, ho.valid, ho.current, ho.idle⟩
      have hlinked := htidy.waitLinked hV hrun hp.1 hp.2.1.1 alive
      exact hlinked.switched (hV.waitLinked hrun hp.1 ho.current hp.2.1.1) (Orderly.block ho' hp.1) switched
  | waitReturned => exact htidy.flags _
  | @semAllocated v =>
      cases hV.sems.alloc v with
      | inl hfull =>
          rw [hfull]
          exact htidy
      | inr hnew =>
          obtain ⟨-, sems, heq, hsems⟩ := hnew
          rw [heq]
          refine htidy.represented hV.sems hsems ⟨rfl, rfl, rfl, rfl, rfl, rfl, rfl⟩ rfl rfl rfl rfl
            (Nat.le_succ _) fun id s' hid hs' => ?_
          rw [Function.update_of_ne hid.ne] at hs'
          exact ⟨s', hs', rfl⟩
  | @semOpened id =>
      obtain ⟨hsems, sems, heq⟩ := hV.sems.open id
      rw [heq] at hsems ⊢
      exact htidy.represented hV.sems hsems ⟨rfl, rfl, rfl, rfl, rfl, rfl, rfl⟩ rfl rfl rfl rfl le_rfl
        fun _ s' _ hs' => ⟨s', hs', rfl⟩
  | @semClosed id =>
      obtain ⟨⟨sems, heq⟩, hclose⟩ := hV.sems.close id
      rw [heq] at hclose ⊢
      have hkeep : ∀ {V' : Sems}, Represents { k with semaphores := sems } V' →
          (∀ a s', V' a = some s' → V a = some s') → LinksTidy { k with semaphores := sems } :=
        fun hsems hsub => htidy.represented hV.sems hsems ⟨rfl, rfl, rfl, rfl, rfl, rfl, rfl⟩ rfl rfl rfl
          rfl le_rfl fun a s' _ hs' => ⟨s', hsub a s' hs', rfl⟩
      obtain ⟨-, hsame⟩ | ⟨i, -, ⟨-, hsems⟩ | ⟨-, hsems⟩⟩ := hclose
      · rw [hsame]
        exact htidy
      · exact hkeep hsems fun _ _ hs' => hs'
      · refine hkeep hsems fun a s' hs' => ?_
        by_cases ha : a = id
        · rw [ha, Function.update_self] at hs'
          cases hs'
        · rwa [Function.update_of_ne ha] at hs'
  | semTaken i found =>
      obtain ⟨s, hs, hi⟩ := hV.sems.of_found found
      exact htidy.semValue hV.sems hs hi _
  | @semQueued id ch _ i found empty L switched =>
      obtain ⟨V', hlinked⟩ := hV.semLinked hrun hp.1 ho.current found empty
      have htidy' := htidy.semLinked hV hrun hp.1 ho.current found empty
      exact htidy'.switched hlinked (ho.semLinked hp.1 i) switched
  | semIncremented i found =>
      obtain ⟨s, hs, hi⟩ := hV.sems.of_found found
      exact htidy.semValue hV.sems hs hi _
  | semReleased i found ne =>
      obtain ⟨s, hs, hi⟩ := hV.sems.of_found found
      exact htidy.release hV.sems hs hi ne
  | @semSet id v i found =>
      obtain ⟨s, hs, hi⟩ := hV.sems.of_found found
      obtain ⟨-, hsems, hi'⟩ := hV.sems.releaseLoop hs hi v.toNat
      exact (htidy.releaseLoop hV.sems hs hi v.toNat).semValue hsems (Function.update_self ..) hi' _
  | switched L switched => exact htidy.switched hV ho switched

/-- Every safe call keeps the references. -/
theorem RefsKept.step (h : RefsKept k) (hp : OpenPromise k c) (hsafe : LinkSafe k c)
    (hstep : openExec k c = some k') : RefsKept k' := by
  have hlists := h.lists.step hp hsafe.waitListSafe hstep
  obtain ⟨k₁, s, heffect, rfl⟩ := openExec_effect h.lists.orderly hp hstep
  have htidy := h.tidy_effect hp hsafe heffect
  refine ⟨hlists, ?_, (h.family_effect hp hsafe heffect).congr rfl rfl rfl rfl rfl⟩
  exact htidy.restate ⟨rfl, rfl, rfl, rfl, rfl, rfl, rfl⟩ rfl rfl rfl rfl (fun _ hne => absurd rfl hne)
    htidy.dead

end Calls

section Runs

theorem Booted.refsKept {idle shell : ℕ} (h : Booted k idle shell) : RefsKept k := by
  refine ⟨h.listsKept, ?_, ?_⟩
  · refine ⟨fun p _ _ => h.waiterNext p, fun p _ _ _ => h.waitersHead p, fun p _ hlink => ?_,
      fun p _ hon => ?_, fun p _ L hL => ?_, fun p _ => ?_⟩
    · exact absurd (h.semWaiterNext p) hlink
    · exact absurd (h.waitingOnSem p) hon
    · obtain ⟨i, hget, -⟩ := hL
      rw [h.waitingOnSem, semGetById, if_pos rfl] at hget
      cases hget
    · rw [h.waitingOnSem, h.nextSemId]
      decide
  · refine ⟨fun p hp => ⟨[], ChildList.empty (h.firstChild p), fun c => ?_⟩,
      fun c _ => Or.inl (h.parent c), fun c _ _ => ⟨h.nextSibling c, h.prevSibling c⟩⟩
    refine ⟨fun hc => absurd hc List.not_mem_nil, fun hc => ?_⟩
    rw [h.parent c] at hc
    exact absurd hc.2.symm (h.orderly.valid p hp)

theorem LinkSafe.resched (k : Kernel) (s : Sched) (c : OpenCall) (h : LinkSafe k c) : LinkSafe (k.resched s) c := by
  cases c with
  | _ => exact h

/-- In a run of the kernel from the start of the system in which a process is destroyed behind its
children and no process is killed or unblocked by its identifier while it waits, nothing refers to a
destroyed process, as long as the queues answer the calls. If every call keeps the queues of the
scheduler, neither do these queues. -/
theorem no_dangling_references {idle idleStack shell shellStack entryPoint : ℕ} {k₀ : Kernel} {steps : List Step}
    (hm : BootMemory idle idleStack shell shellStack entryPoint) (hidle : idle < addressCount)
    (hshell : shell < addressCount)
    (hboot : bootSystem idle idleStack shell shellStack entryPoint = some k₀) (run : Run k₀ steps k)
    (hmade : ∀ st ∈ steps, Made st.before st.call) (hlinks : ∀ st ∈ steps, st.call.Meets LinkSafe st.before) :
    ((∀ st ∈ steps, QueuesAnswer st.before st.call) → NoDangling k) ∧
    ((∀ st ∈ steps, QueueSafe st.before st.call) →
      NoDangling k ∧ ∃ Q, QueueConsistent k Q ∧ ∀ q, ∀ p ∈ Q q, k.allocated p = true) := by
  have hstart := bootSystem_spec hm hboot
  have haddr := hstart.addressed hidle hshell
  have hrefs : (∀ st ∈ steps, QueuesAnswer st.before st.call) → NoDangling k := by
    intro hanswered
    have hallowed : ∀ st ∈ steps, st.call.Allowed LinkSafe st.before := fun st hst =>
      ⟨hmade st hst, hanswered st hst, hlinks st hst⟩
    refine RefsKept.noDangling (run.openInvariant hstart.orderly haddr hallowed (fun _ _ => trivial)
      LinkSafe.resched hstart.refsKept ?_)
    intro k c k' h hp hsafe hstep
    exact h.step hp hsafe hstep
  refine ⟨hrefs, fun hqueues => ?_⟩
  obtain ⟨⟨Q, hQ⟩, hanswered⟩ := run.queuesAnswer hstart.orderly haddr (bootSystem_agree hm hidle hshell hboot)
    hmade hqueues
  exact ⟨hrefs hanswered, Q, hQ.consistent, hQ.consistent.allocated⟩

/-- The theorem at a run: the child of the shell exits, and the yield of the child destroys it. -/
theorem no_dangling_references_collected :
    ∃ k₀ steps k, bootSystem 16 8192 48 12288 1 = some k₀ ∧ Run k₀ steps k ∧ steps.length = 5 ∧
      k.pid 64 = 3 ∧ k.allocated 64 = false ∧ NoDangling k ∧
      ∃ Q, QueueConsistent k Q ∧ ∀ q, ∀ p ∈ Q q, k.allocated p = true := by
  have hlt : 64 < addressCount := by
    unfold addressCount
    decide
  let r : SpawnRequest := ⟨1, 0, 2, false, 0, 0, 64, 32768⟩
  let frame : Frame := ⟨0, fun _ => 0⟩
  have hcalc : ((bootSystem 16 8192 48 12288 1).bind fun k₀ => (exec k₀ (.tick frame)).bind fun o₁ =>
      (exec o₁.kernel (.createProcess r)).bind fun o₂ => (exec o₂.kernel (.yield frame)).bind fun o₃ =>
        (exec o₃.kernel .finishCurrent).bind fun o₄ => (exec o₄.kernel (.yield frame)).map fun o₅ =>
          decide ((k₀.state k₀.current = .running ∧ (k₀.queues .finished).head = 0) ∧
            (Caller o₁.kernel ∧ o₁.kernel.allocated 64 = false ∧
              o₁.kernel.allocated o₁.kernel.current = true) ∧
            (o₂.kernel.state o₂.kernel.current = .running ∧ (o₂.kernel.queues .finished).head = 0) ∧
            (Caller o₃.kernel ∧ o₃.kernel.state o₃.kernel.current ≠ .ready) ∧
            (o₄.kernel.current = 64 ∧ o₄.kernel.state 64 = .finished ∧ o₄.kernel.waitersHead 64 = 0 ∧
              o₄.kernel.allocated 64 = true ∧ o₄.kernel.firstChild 64 = 0 ∧
              (o₄.kernel.queues .finished).head = 0) ∧
            o₅.kernel.pid 64 = 3 ∧ o₅.kernel.allocated 64 = false)) = some true := by
    decide +kernel
  obtain ⟨k₀, hboot, h₁⟩ := Option.bind_eq_some_iff.mp hcalc
  obtain ⟨o₁, htick, h₂⟩ := Option.bind_eq_some_iff.mp h₁
  obtain ⟨o₂, hcreate, h₃⟩ := Option.bind_eq_some_iff.mp h₂
  obtain ⟨o₃, hyield, h₄⟩ := Option.bind_eq_some_iff.mp h₃
  obtain ⟨o₄, hexit, h₅⟩ := Option.bind_eq_some_iff.mp h₄
  obtain ⟨o₅, hlast, h₆⟩ := Option.map_eq_some_iff.mp h₅
  obtain ⟨⟨hrun₀, hnone₀⟩, ⟨hcall₁, hfree, hparent⟩, ⟨hrun₂, hnone₂⟩, ⟨hcall₃, hnot₃⟩,
    ⟨hcur₄, hfin₄, hhead₄, hal₄, hchild₄, hnone₄⟩, hpid, hgone⟩ := of_decide_eq_true h₆
  have hnobody : ∀ {k : Kernel}, k.state k.current = .running → (k.queues .finished).head = 0 →
      ∀ dead, Collects k dead → ChildrenFirst k dead := by
    intro k hrun hnone dead hcollect
    obtain rfl := hcollect.of_empty hnone
    rw [if_neg (by rw [hrun]; decide)]
    intro A p B he
    exact absurd he.symm (by simp)
  have hgoesOn : ∀ {k : Kernel}, k.state k.current = .running →
      k.current ≠ 0 → k.state k.current = .finished → ∃ L, WaitersAwake k k.current L :=
    fun hrun _ hfin => absurd (hrun.symm.trans hfin) (by decide)
  have run₄ := Run.snoc (Run.snoc (Run.snoc (Run.snoc .nil htick) hcreate) hyield) hexit
  have hmade : ∀ st ∈ [⟨k₀, .tick frame, o₁⟩, ⟨o₁.kernel, .createProcess r, o₂⟩,
      ⟨o₂.kernel, .yield frame, o₃⟩, (⟨o₃.kernel, .finishCurrent, o₄⟩ : Step)], Made st.before st.call := by
    simp only [List.forall_mem_cons, List.not_mem_nil, false_imp_iff, implies_true, and_true]
    exact ⟨trivial, ⟨hcall₁, fun _ => ⟨hlt, hfree⟩, fun _ => hparent⟩, trivial, hcall₃⟩
  have hlinks : ∀ st ∈ [⟨k₀, .tick frame, o₁⟩, ⟨o₁.kernel, .createProcess r, o₂⟩,
      ⟨o₂.kernel, .yield frame, o₃⟩, (⟨o₃.kernel, .finishCurrent, o₄⟩ : Step)],
      st.call.Meets LinkSafe st.before := by
    simp only [List.forall_mem_cons, List.not_mem_nil, false_imp_iff, implies_true, and_true]
    refine ⟨fun c' hopens => ?_, fun c' hopens => ?_, fun c' hopens => ?_, fun c' hopens => ?_⟩
    · cases hopens with
      | quiet s _ => trivial
      | tick collects => exact hnobody hrun₀ hnone₀ _ collects
    · cases hopens with
      | quiet s _ => trivial
      | createProcess => trivial
    · cases hopens with
      | quiet s _ => trivial
      | yield collects => exact hnobody hrun₂ hnone₂ _ collects
    · cases hopens with
      | quiet s _ => trivial
      | exit => trivial
  have hqueues : ∀ st ∈ [⟨k₀, .tick frame, o₁⟩, ⟨o₁.kernel, .createProcess r, o₂⟩,
      ⟨o₂.kernel, .yield frame, o₃⟩, (⟨o₃.kernel, .finishCurrent, o₄⟩ : Step)], QueueSafe st.before st.call := by
    simp only [List.forall_mem_cons, List.not_mem_nil, false_imp_iff, implies_true, and_true]
    exact ⟨hgoesOn hrun₀, ⟨fun _ => ⟨hlt, hfree⟩, fun _ => hparent⟩, hgoesOn hrun₂, hnot₃⟩
  have hboot' : BootMemory 16 8192 48 12288 1 := ⟨by decide, by decide, by decide, by decide, by decide, by decide⟩
  -- the child has no children, as the theorem tells about the state before
  have hchildren : ∀ dead, Collects o₄.kernel dead → ChildrenFirst o₄.kernel dead := by
    intro dead hcollect
    obtain rfl := hcollect.of_empty hnone₄
    rw [hcur₄, if_pos hfin₄]
    obtain ⟨hbefore, -⟩ := (no_dangling_references hboot' (by omega) (by omega) hboot run₄ hmade hlinks).2 hqueues
    obtain ⟨C, hC, hmem⟩ := hbefore.children 64 hal₄
    obtain rfl := hC.eq_nil hchild₄
    intro A p B he c hc hp
    have hA : A = [] ∧ p = 64 := by
      cases A with
      | nil => exact ⟨rfl, (List.cons.inj he).1.symm⟩
      | cons a A => simp at he
    rw [hA.2] at hp
    exact absurd ((hmem c).mpr ⟨hc, hp⟩) List.not_mem_nil
  have run := Run.snoc run₄ hlast
  obtain ⟨hrefs, hqueued⟩ := (no_dangling_references hboot' (by omega) (by omega) hboot run
    (List.forall_mem_append.mpr ⟨hmade, List.forall_mem_singleton.mpr trivial⟩)
    (List.forall_mem_append.mpr ⟨hlinks, List.forall_mem_singleton.mpr fun c' hopens => by
      cases hopens with
      | quiet s _ => trivial
      | yield collects => exact hchildren _ collects⟩)).2
    (List.forall_mem_append.mpr ⟨hqueues, List.forall_mem_singleton.mpr fun _ _ => by
      rw [hcur₄]
      exact ⟨[], hhead₄, by simp⟩⟩)
  exact ⟨k₀, _, o₅.kernel, hboot, run, rfl, hpid, hgone, hrefs, hqueued⟩

/-- The shell makes a child and exits. The context switch destroys it, and the child still has it
as its parent. -/
theorem child_of_destroyed_shell :
    ∃ k₀ k, bootSystem 16 8192 48 12288 1 = some k₀ ∧
      execAll k₀ [.tick ⟨0, fun _ => 0⟩, .createProcess ⟨1, 0, 2, false, 0, 0, 64, 32768⟩, .finishCurrent,
        .yield ⟨0, fun _ => 0⟩] = some k ∧
      k.allocated 64 = true ∧ k.parent 64 = 48 ∧ k.allocated 48 = false ∧ ¬NoDangling k := by
  have hcalc : ((bootSystem 16 8192 48 12288 1).bind fun k₀ =>
      (execAll k₀ [.tick ⟨0, fun _ => 0⟩, .createProcess ⟨1, 0, 2, false, 0, 0, 64, 32768⟩, .finishCurrent,
        .yield ⟨0, fun _ => 0⟩]).map fun k =>
          decide (k.allocated 64 = true ∧ k.parent 64 = 48 ∧ k.allocated 48 = false)) = some true := by
    decide +kernel
  obtain ⟨k₀, hboot, h₁⟩ := Option.bind_eq_some_iff.mp hcalc
  obtain ⟨k, hall, h₂⟩ := Option.map_eq_some_iff.mp h₁
  obtain ⟨hal, hparent, hgone⟩ := of_decide_eq_true h₂
  refine ⟨k₀, k, hboot, hall, hal, hparent, hgone, fun hrefs => ?_⟩
  obtain hnull | hlive := (hrefs.tree 64 hal).1
  · rw [hparent] at hnull
    cases hnull
  · rw [hparent, hgone] at hlive
    cases hlive

end Runs
end SoKernel
