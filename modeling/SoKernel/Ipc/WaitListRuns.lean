import SoKernel.Ipc.Runner
import SoKernel.Ipc.WaitLists
import SoKernel.Proc.RealCalls

/-!
# Runs that keep the lists of waiting processes

In a run in which `scheduler_unblock_by_pid` and `scheduler_kill_by_pid` leave alone who is
linked in a list, the lists of waiting processes stay intact, and who waits for a semaphore goes
on with a token that was handed to it.
-/

namespace SoKernel

open Function (update)

variable {k k' k₁ k₂ : Kernel} {V : Sems} {c : OpenCall} {ch : Choice} {p pid id : ℕ}

section Model

/-- No process is killed that is linked in a list, and none is unblocked that is linked in a
list or waits for a semaphore. -/
def WaitListSafe (k : Kernel) : OpenCall → Prop
  | .unblock p => ¬InWaitList k p ∧ k.waitingOnSem p = 0
  | .kill p => ¬InWaitList k p
  | _ => True

theorem WaitListSafe.resched (k : Kernel) (s : Sched) (c : OpenCall) (h : WaitListSafe k c) :
    WaitListSafe (k.resched s) c := by
  cases c with
  | _ => exact h

/-- The processes to which a call hands a token of a semaphore. -/
def tokensGiven (k : Kernel) (c : OpenCall) (id : ℕ) : List ℕ :=
  match c with
  | .semSignal a => if a = id then signalReleases k a else []
  | .semSet a v => if a = id then setReleases k a v else []
  | _ => []

/-- The calls of the kernel that hand tokens of a semaphore to the processes that they release. -/
def HandsTokens (id : ℕ) : Call → Prop
  | .semSignal a | .semSet a _ => a = id
  | _ => False

end Model

section Calls

theorem Orderly.semLinked (h : Orderly k) (hcall : Caller k) (i : ℕ) :
    Orderly (SoKernel.semLinked k i).blockCurrent := by
  obtain ⟨sems, swn, hshape⟩ := enqueueWaiter_shape
    { k with waitingOnSem := update k.waitingOnSem k.current (k.semaphores i).id } i k.current
  have ho := h.block hcall
  rw [SoKernel.semLinked, hshape]
  exact ⟨ho.terminals, ho.noPipes, ho.valid, ho.current, ho.idle⟩

/-- The state of a run: the lists are intact and the current process is in none. -/
structure ListsKept (k : Kernel) : Prop where
  orderly : Orderly k
  listed : ∃ V, Listed k V
  running : Running k

theorem ListsKept.resched (h : ListsKept k) (s : Sched) : ListsKept (k.resched s) := by
  obtain ⟨V, hV⟩ := h.listed
  exact ⟨h.orderly.resched s, ⟨V, hV.resched s⟩, h.running.resched s⟩

/-- Flags do not matter. -/
theorem Listed.flags (h : Listed k V) (fg : ℕ → Bool) : Listed { k with isForeground := fg } V :=
  h.restate ⟨rfl, rfl, rfl, rfl, rfl, rfl, rfl⟩ rfl rfl rfl rfl fun _ hne => absurd rfl hne

theorem Running.flags (h : Running k) (fg : ℕ → Bool) : Running { k with isForeground := fg } :=
  ⟨h.waitingOnSem, h.nobody⟩

/-- A process that is in no list changes its state. -/
theorem Listed.setState (h : Listed k V) (hrun : Running k) (hp : ¬InWaitList k p) (st : ProcessState)
    (hst : st = .finished ∨ st = .blocked ∨ k.waitingOnSem p = 0) :
    Listed { k with state := update k.state p st } V ∧ Running { k with state := update k.state p st } := by
  refine ⟨h.restate ⟨rfl, rfl, rfl, rfl, rfl, rfl, rfl⟩ rfl rfl rfl rfl fun q hne => ?_,
    hrun.waitingOnSem, hrun.nobody⟩
  by_cases hq : q = p
  · subst hq
    dsimp only
    rw [Function.update_self]
    exact ⟨hp, hst⟩
  · exact absurd (Function.update_of_ne hq _ _) hne

/-- `scheduler_kill_by_pid` of a process that is in no list. -/
theorem Listed.killed (h : Listed k V) (hrun : Running k) (hp : ¬InWaitList k p)
    (hal : k.allocated p = true) {L : List ℕ} (hwake : WakeList k.waiterNext (k.waitersHead p) L)
    (fg : ℕ → Bool) :
    Listed (killedKernel k p L fg k.needResched) V ∧ Running (killedKernel k p L fg k.needResched) := by
  obtain ⟨hfin, hrun'⟩ := h.setState hrun hp .finished (Or.inl rfl)
  obtain ⟨hwoken, hnobody⟩ := hfin.wake hal hwake
  exact ⟨hwoken.flags fg, hrun.waitingOnSem, hnobody _ hrun'.nobody⟩

/-- The memory at a free address is cleared. -/
theorem freshPcb_cleared (hfree : k.allocated p = false) (fg : ℕ → Bool) :
    FreshPcb k { clearPcb k p with isForeground := fg } p where
  free := hfree
  semaphores := rfl
  nextSemId := rfl
  idleP := rfl
  nextPid := le_rfl
  allocated _ _ := rfl
  state _ hq := Function.update_of_ne hq _ _
  pid _ hq := Function.update_of_ne hq _ _
  waiterNext _ hq := Function.update_of_ne hq _ _
  waitersHead _ hq := Function.update_of_ne hq _ _
  waitingOnPid _ hq := Function.update_of_ne hq _ _
  waitingOnSem _ hq := Function.update_of_ne hq _ _
  semWaiterNext _ hq := Function.update_of_ne hq _ _
  made ha := by
    have ha' : k.allocated p = true := ha
    rw [hfree] at ha'
    cases ha'

/-- A process is made at a free address. -/
theorem freshPcb_created {r : SpawnRequest} (hfree : k.allocated r.pcb = false) (pr : Priority)
    (fdp : ℕ → ℕ → Option ℕ) : FreshPcb k (createdKernel k r pr fdp) r.pcb where
  free := hfree
  semaphores := rfl
  nextSemId := rfl
  idleP := rfl
  nextPid := Nat.le_succ _
  allocated _ hq := Function.update_of_ne hq _ _
  state _ hq := Function.update_of_ne hq _ _
  pid _ hq := Function.update_of_ne hq _ _
  waiterNext _ hq := Function.update_of_ne hq _ _
  waitersHead _ hq := Function.update_of_ne hq _ _
  waitingOnPid _ hq := Function.update_of_ne hq _ _
  waitingOnSem _ hq := Function.update_of_ne hq _ _
  semWaiterNext _ hq := Function.update_of_ne hq _ _
  made _ := ⟨Function.update_self .., Function.update_self .., Function.update_self .., Nat.lt_succ_self _⟩

/-- What every call does to the lists. -/
theorem ListsKept.lists (h : ListsKept k) (hp : OpenPromise k c) (hsafe : WaitListSafe k c)
    (heffect : OpenEffect k c k') : (∃ V, Listed k' V) ∧ Running k' := by
  obtain ⟨V, hV⟩ := h.listed
  have hrun := h.running
  have hkept : ∀ {k₁ : Kernel} {V₁ : Sems}, Listed k₁ V₁ ∧ Running k₁ → (∃ V, Listed k₁ V) ∧ Running k₁ :=
    fun h₁ => ⟨⟨_, h₁.1⟩, h₁.2⟩
  have hfresh : ∀ {k₁ : Kernel} {pcb : ℕ}, FreshPcb k k₁ pcb → k₁.current = k.current →
      (∃ V, Listed k₁ V) ∧ Running k₁ := by
    intro k₁ pcb hnew hcur
    obtain ⟨hlisted, hnobody⟩ := hV.created hnew h.orderly.current h.orderly.idle.1
    refine ⟨⟨V, hlisted⟩, ?_, ?_⟩
    · rw [hcur, hnew.waitingOnSem _ (hnew.ne h.orderly.current)]
      exact hrun.waitingOnSem
    · rw [hcur]
      exact hnobody _ hrun.nobody
  have hswitch : ∀ {k₁ k₂ : Kernel} {V₁ : Sems} {ch : Choice} {L : List ℕ}, Listed k₁ V₁ → Orderly k₁ →
      Switched k₁ ch L k₂ → (∃ V, Listed k₂ V) ∧ Running k₂ := by
    intro k₁ k₂ V₁ ch L h₁ ho hsw
    obtain ⟨V₂, h₂⟩ := h₁.switched ho hsw
    exact hkept h₂
  cases heffect with
  | same => exact ⟨⟨V, hV⟩, hrun⟩
  | creationFailed => exact ⟨⟨V, hV.flags _⟩, hrun.flags _⟩
  | creationCleared pcb => exact hfresh (freshPcb_cleared (hp.2.1 pcb).2 _) rfl
  | @created r pcb pr fdp =>
      obtain ⟨hlisted, hflags⟩ := And.intro (hV.flags (yieldedFlags k r)) (hrun.flags (yieldedFlags k r))
      have hnew := freshPcb_created (k := { k with isForeground := yieldedFlags k r })
        (r := { r with parent := k.current }) (hp.2.1 pcb).2 pr fdp
      obtain ⟨hcreated, hnobody⟩ := hlisted.created hnew h.orderly.current h.orderly.idle.1
      refine ⟨⟨V, hcreated⟩, ?_, hnobody _ hflags.nobody⟩
      have hne : k.current ≠ r.pcb := hnew.ne h.orderly.current
      exact (Function.update_of_ne hne _ _).trans hrun.waitingOnSem
  | exited =>
      exact hkept (hV.setState hrun (hV.current_unlinked hrun) .finished (Or.inl rfl))
  | killed L woken => exact hkept (hV.killed hrun hsafe hp.1 woken _)
  | @blocked p before =>
      refine hkept (hV.setState hrun ?_ .blocked (Or.inr (Or.inl rfl)))
      cases before with
      | inl hcur => exact hcur ▸ hV.current_unlinked hrun
      | inr hready =>
          apply hV.not_inWaitList
          rw [hready]
          simp
  | readied => exact hkept (hV.setState hrun hsafe.1 .ready (Or.inr (Or.inr hsafe.2)))
  | waitOver => exact ⟨⟨V, hV.flags _⟩, hrun.flags _⟩
  | @waited target ch _ alive other L switched =>
      have ho : Orderly (waitLinked k target (k.pid target)) :=
        ⟨h.orderly.terminals, h.orderly.noPipes, h.orderly.valid, h.orderly.current, h.orderly.idle⟩
      have hlinked := hV.waitLinked hrun hp.1 h.orderly.current hp.2.1.1
      exact hswitch hlinked (Orderly.block ho hp.1) switched
  | waitReturned => exact ⟨⟨V, hV.flags _⟩, hrun.flags _⟩
  | @semAllocated v =>
      obtain ⟨V', h'⟩ := hV.semAlloc hrun v
      exact hkept h'
  | @semOpened id => exact hkept (hV.semOpen hrun id)
  | @semClosed id =>
      obtain ⟨V', h'⟩ := hV.semClose hrun id
      exact hkept h'
  | semTaken i found =>
      obtain ⟨V', h'⟩ := hV.semValue hrun found _
      exact hkept h'
  | @semQueued id ch _ i found empty L switched =>
      obtain ⟨V', hlinked⟩ := hV.semLinked hrun hp.1 h.orderly.current found empty
      exact hswitch hlinked (h.orderly.semLinked hp.1 i) switched
  | semIncremented i found =>
      obtain ⟨V', h'⟩ := hV.semValue hrun found _
      exact hkept h'
  | semReleased i found ne =>
      obtain ⟨V', h'⟩ := hV.semReleased hrun found ne
      exact hkept h'
  | semSet i found =>
      obtain ⟨V', h'⟩ := hV.semSet hrun found _ _
      exact hkept h'
  | switched L switched => exact hswitch hV h.orderly switched

/-- Every safe call keeps the lists. -/
theorem ListsKept.step (h : ListsKept k) (hp : OpenPromise k c) (hsafe : WaitListSafe k c)
    (hstep : openExec k c = some k') : ListsKept k' := by
  obtain ⟨k₁, s, heffect, rfl⟩ := openExec_effect h.orderly hp hstep
  obtain ⟨hlisted, hrun⟩ := h.lists hp hsafe heffect
  apply ListsKept.resched
  exact ⟨heffect.orderly h.orderly hp, hlisted, hrun⟩

end Calls

section Tokens

/-- As long as there is the process `pid` at `p`, it waits for the semaphore `id`. -/
structure HeldBack (k : Kernel) (p pid id : ℕ) : Prop where
  made : 0 < pid ∧ pid < k.nextPid
  waits : k.pid p = pid → k.waitingOnSem p = id

/-- What a context switch leaves as it is. -/
theorem Switched.kept {L : List ℕ} (h : Switched k ch L k') :
    k'.pid = k.pid ∧ k'.nextPid = k.nextPid ∧ k'.waitingOnSem = k.waitingOnSem := by
  obtain ⟨pa, fc, ns, ps, heq⟩ := buryAll_shape (switchedBy k L ch.next) ch.dead
  rw [h.result, heq]
  exact ⟨rfl, rfl, rfl⟩

theorem HeldBack.keep (h : HeldBack k p pid id) (hpid : k'.pid = k.pid) (hnext : k'.nextPid = k.nextPid)
    (hon : k.pid p = pid → k'.waitingOnSem p = k.waitingOnSem p) : HeldBack k' p pid id := by
  refine ⟨hnext ▸ h.made, fun hp => ?_⟩
  rw [hpid] at hp
  exact (hon hp).trans (h.waits hp)

/-- A new process has another identifier. -/
theorem HeldBack.created (h : HeldBack k p pid id) {pcb : ℕ} (hnew : FreshPcb k k' pcb)
    (hpid : k'.pid pcb = 0 ∨ k'.pid pcb = k.nextPid) : HeldBack k' p pid id := by
  refine ⟨⟨h.made.1, h.made.2.trans_le hnew.nextPid⟩, fun hp => ?_⟩
  by_cases hpp : p = pcb
  · subst hpp
    obtain ⟨hpos, hlt⟩ := h.made
    omega
  · rw [hnew.pid p hpp] at hp
    rw [hnew.waitingOnSem p hpp]
    exact h.waits hp

/-- Who is released by a signal has been handed a token. -/
theorem Listed.given_of_signal (h : Listed k V) {a i : ℕ} (hfound : semGetById k a = some i)
    (hne : (k.semaphores i).waitHead ≠ 0) (hstep : semSignal k a = some k') :
    k.waitingOnSem (k.semaphores i).waitHead = a ∧
      (k.semaphores i).waitHead ∈ tokensGiven k (.semSignal a) a := by
  obtain ⟨s, hs, hi⟩ := h.sems.of_found hfound
  obtain ⟨⟨n, w, k₁⟩, hsignal, -⟩ := Option.map_eq_some_iff.mp hstep
  have hfirst := (h.sems.release hs hi rfl hne).2
  rw [Sems.first_of_some hs] at hfirst
  have hmem : (k.semaphores i).waitHead ∈ s.queue.take 1 := by
    rw [hfirst]
    exact List.mem_singleton_self _
  refine ⟨(h.sems.waiting a s hs _ (List.mem_of_mem_take hmem)).2.1, ?_⟩
  rw [tokensGiven, if_pos rfl, h.sems.signalReleases hs hsignal]
  exact hmem

/-- So has who is released by `sem_set_by_id`. -/
theorem Listed.given_of_set (h : Listed k V) {a i : ℕ} {v : ℤ} (hfound : semGetById k a = some i)
    (hv : 0 ≤ v) (hp : p ∈ (releaseLoop i v.toNat k).1)
    (hstep : openExec k (.semSet a v) = some k') :
    k.waitingOnSem p = a ∧ p ∈ tokensGiven k (.semSet a v) a := by
  obtain ⟨s, hs, hi⟩ := h.sems.of_found hfound
  obtain ⟨⟨n, ws, k₁⟩, hset, -⟩ := Option.map_eq_some_iff.mp hstep
  rw [(h.sems.releaseLoop hs hi v.toNat).1] at hp
  refine ⟨(h.sems.waiting a s hs p (List.mem_of_mem_take hp)).2.1, ?_⟩
  rw [tokensGiven, if_pos rfl, setReleases, hset]
  obtain ⟨hfail, -⟩ | ⟨s', hs', -, hws, -⟩ := h.sems.set hset
  · have hneg : v < 0 := hfail.resolve_left (by simp [hs])
    exact absurd hv (not_le.mpr hneg)
  · rw [hs, Option.some_inj] at hs'
    subst hs'
    dsimp only
    rw [hws]
    exact hp

/-- Who waits for a semaphore is held back by every call that hands it no token. -/
theorem HeldBack.step (h : HeldBack k p pid id) (hid : id ≠ 0) (hkept : ListsKept k)
    (hp : OpenPromise k c) (hstep : openExec k c = some k') (hnot : p ∉ tokensGiven k c id) :
    HeldBack k' p pid id := by
  obtain ⟨k₁, sched, heffect, rfl⟩ := openExec_effect hkept.orderly hp hstep
  suffices HeldBack k₁ p pid id from ⟨this.made, this.waits⟩
  obtain ⟨V, hV⟩ := hkept.listed
  have hsame : k₁.pid = k.pid → k₁.nextPid = k.nextPid → k₁.waitingOnSem = k.waitingOnSem →
      HeldBack k₁ p pid id := fun hpid hnext hon => h.keep hpid hnext fun _ => congrFun hon p
  have hcurrent : k.pid p = pid → p ≠ k.current := by
    rintro hpid rfl
    exact hid ((h.waits hpid).symm.trans hkept.running.waitingOnSem)
  cases heffect with
  | same => exact h
  | creationFailed => exact hsame rfl rfl rfl
  | @creationCleared r pcb =>
      exact h.created (freshPcb_cleared (hp.2.1 pcb).2 _) (Or.inl (Function.update_self ..))
  | @created r pcb pr fdp =>
      have hnew := freshPcb_created (k := { k with isForeground := yieldedFlags k r })
        (r := { r with parent := k.current }) (hp.2.1 pcb).2 pr fdp
      have hflags : HeldBack { k with isForeground := yieldedFlags k r } p pid id := ⟨h.made, h.waits⟩
      exact hflags.created hnew (Or.inr (Function.update_self ..))
  | exited => exact hsame rfl rfl rfl
  | killed => exact hsame rfl rfl rfl
  | blocked => exact hsame rfl rfl rfl
  | readied => exact hsame rfl rfl rfl
  | waitOver => exact hsame rfl rfl rfl
  | waited alive other L switched =>
      obtain ⟨hpid, hnext, hon⟩ := switched.kept
      exact hsame hpid hnext hon
  | waitReturned => exact hsame rfl rfl rfl
  | @semAllocated v =>
      obtain ⟨sems, n, heq⟩ := semAlloc_shape k v
      rw [heq]
      exact ⟨h.made, h.waits⟩
  | @semOpened a =>
      obtain ⟨sems, heq⟩ := semOpenById_shape k a
      rw [heq]
      exact ⟨h.made, h.waits⟩
  | @semClosed a =>
      obtain ⟨sems, heq⟩ := semCloseById_shape k a
      rw [heq]
      exact ⟨h.made, h.waits⟩
  | semTaken => exact hsame rfl rfl rfl
  | @semQueued a ch _ i found empty L switched =>
      obtain ⟨hpid, hnext, hon⟩ := switched.kept
      obtain ⟨sems, swn, hshape⟩ := enqueueWaiter_shape
        { k with waitingOnSem := update k.waitingOnSem k.current (k.semaphores i).id } i k.current
      rw [semLinked, hshape] at hpid hnext hon
      refine h.keep hpid hnext fun hpp => ?_
      rw [hon]
      exact Function.update_of_ne (hcurrent hpp) _ _
  | semIncremented => exact hsame rfl rfl rfl
  | @semReleased a i found ne =>
      obtain ⟨hon, hgiven⟩ := hV.given_of_signal found ne hstep
      refine h.keep rfl rfl fun hpp => Function.update_of_ne ?_ _ _
      rintro rfl
      obtain rfl : a = id := hon.symm.trans (h.waits hpp)
      exact hnot hgiven
  | @semSet a v i found nonneg =>
      obtain ⟨sems, swn, heq⟩ := releaseLoop_shape (i := i) v.toNat k
      have hgiven : ∀ q ∈ (releaseLoop i v.toNat k).1, k.waitingOnSem q = a ∧ q ∈ tokensGiven k (.semSet a v) a :=
        fun q hq => hV.given_of_set found nonneg hq hstep
      rw [heq]
      refine h.keep rfl rfl fun hpp => setAll_of_not_mem _ _ fun hm => ?_
      obtain ⟨hon, hmem⟩ := hgiven p hm
      obtain rfl : a = id := hon.symm.trans (h.waits hpp)
      exact hnot hmem
  | switched L switched =>
      obtain ⟨hpid, hnext, hon⟩ := switched.kept
      exact hsame hpid hnext hon

/-- `sem_wait_by_id` when it blocks. -/
theorem semWaitStart_queued (h : (semWaitStart k id).2 = .queued) :
    ∃ i, semGetById k id = some i ∧ semWaitStart k id = (semLinked k i, .queued) := by
  cases hget : semGetById k id with
  | none =>
      simp only [semWaitStart, hget] at h
      cases h
  | some i =>
      refine ⟨i, rfl, ?_⟩
      simp only [semWaitStart, hget] at h ⊢
      split at h
      · cases h
      · split at h
        · cases h
        · rename_i hcur hpos
          rw [if_neg hcur, if_neg hpos]

/-- Who is linked in the queue of a semaphore is held back. -/
theorem ListsKept.heldBack (h : ListsKept k) (hp : OpenPromise k (.semWait id ch))
    (hqueued : (semWaitStart k id).2 = .queued) (hstep : openExec k (.semWait id ch) = some k') :
    id ≠ 0 ∧ HeldBack k' k.current (k.pid k.current) id := by
  obtain ⟨V, hV⟩ := h.listed
  obtain ⟨hcall, hswitch⟩ := hp
  obtain ⟨i, hfound, hstart⟩ := semWaitStart_queued hqueued
  obtain ⟨hi, hu, hid⟩ := semGetById_mem hfound
  have hlinked : switchBy (schedulerBlockCurrent (semLinked k i)) ch = some k' := by
    have hwait : semWaitBy k id ch = some k' := hstep
    rw [semWaitBy, hstart] at hwait
    exact hwait
  have hpromise := hswitch hqueued
  obtain ⟨sems, swn, hshape⟩ := enqueueWaiter_shape
    { k with waitingOnSem := update k.waitingOnSem k.current (k.semaphores i).id } i k.current
  have hcall' : Caller (semLinked k i) := by
    rw [semLinked, hshape]
    exact hcall
  rw [hstart] at hpromise
  obtain ⟨L, k₁, sched, hsw, rfl⟩ := blockSwitch_shape (h.orderly.semLinked hcall i) hcall' hpromise hlinked
  obtain ⟨hpid, hnext, hon⟩ := hsw.kept
  rw [semLinked, hshape] at hpid hnext hon
  refine ⟨hid ▸ (hV.sems.table.bound i hi hu).1.ne', ?_, fun _ => ?_⟩
  · rw [show (k₁.resched sched).nextPid = k.nextPid from hnext]
    exact hV.pids _ h.orderly.current
  · rw [show (k₁.resched sched).waitingOnSem = _ from hon, ← hid]
    exact Function.update_self ..

/-- A call that blocks in the queue of a semaphore holds its caller back. -/
theorem ListsKept.queued (h : ListsKept k) {frame : Frame} {s : Sched} (hopens : OpensAs k (.semWait id frame) c)
    (hqueued : (semWaitStart k id).2 = .queued) (hp : OpenPromise (k.resched s) c)
    (hstep : openExec (k.resched s) c = some k') :
    id ≠ 0 ∧ HeldBack k' k.current (k.pid k.current) id := by
  cases hopens with
  | quiet s goesOn => exact absurd trivial goesOn
  | semTaken goesOn nobody => exact absurd hqueued goesOn
  | semWait queued collects =>
      refine (h.resched s).heldBack hp ?_ hstep
      rwa [semWaitStart_resched]

theorem mem_of_signal {n w : ℕ} (h : semSignalById k id = some (n, w, k')) :
    p ∈ (if w = 0 then [] else [w]) ↔ p ≠ 0 ∧ ∃ i, semGetById k id = some i ∧ (k.semaphores i).waitHead = p := by
  cases semSignalById_effect h with
  | missing none => simp [none]
  | incremented i found empty =>
      simp only [if_true, List.not_mem_nil, found, Option.some_inj, exists_eq_left', false_iff, empty]
      exact fun hp => hp.1 hp.2.symm
  | released i w found head ne =>
      simp only [if_neg ne, List.mem_singleton, found, Option.some_inj, exists_eq_left', head]
      exact ⟨fun hp => ⟨hp ▸ ne, hp.symm⟩, fun hp => hp.2.symm⟩

theorem mem_of_set {n : ℕ} {ws : List ℕ} {v : ℤ} (h : semSetById k id v = some (n, ws, k')) :
    p ∈ ws ↔ ∃ i, semGetById k id = some i ∧ 0 ≤ v ∧ p ∈ (releaseLoop i v.toNat k).1 := by
  unfold semSetById at h
  cases hget : semGetById k id with
  | none =>
      rw [hget] at h
      cases h
      simp
  | some i =>
      rw [hget] at h
      dsimp only at h
      split at h
      · rename_i hneg
        cases h
        simp [not_le.mpr hneg]
      · rename_i hnonneg
        rw [Option.bind_eq_bind] at h
        obtain ⟨⟨ws', k₁⟩, hloop, hlast⟩ := Option.bind_eq_some_iff.mp h
        obtain ⟨s, rfl, -⟩ := awakenLoop_shape hloop
        simp only [Option.some_inj, Prod.mk.injEq] at hlast
        obtain ⟨-, rfl, -⟩ := hlast
        simp [not_lt.mp hnonneg]

/-- The open call hands tokens to the processes that the call releases. -/
theorem OpensAs.handsTokens {call : Call} {o : Outcome} {s : Sched} (hopens : OpensAs k call c)
    (hstep : exec k call = some o) (hp : p ∈ tokensGiven (k.resched s) c id) :
    HandsTokens id call ∧ p ∈ o.released := by
  cases hopens with
  | @semSignal a =>
      obtain ⟨⟨n, w, k₁⟩, hsignal, rfl⟩ := Option.map_eq_some_iff.mp hstep
      rw [tokensGiven] at hp
      split at hp
      · rename_i ha
        refine ⟨ha, (mem_of_signal hsignal).mpr ?_⟩
        rw [signalReleases] at hp
        split at hp
        · rename_i n' w' k₂ hsignal'
          exact (mem_of_signal hsignal').mp hp
        · cases hp
      · cases hp
  | @semSet a v =>
      obtain ⟨⟨n, ws, k₁⟩, hset, rfl⟩ := Option.map_eq_some_iff.mp hstep
      rw [tokensGiven] at hp
      split at hp
      · rename_i ha
        refine ⟨ha, (mem_of_set hset).mpr ?_⟩
        rw [setReleases] at hp
        split at hp
        · rename_i n' ws' k₂ hset'
          obtain ⟨i, hfound, hnonneg, hm⟩ := (mem_of_set hset').mp hp
          rw [releaseLoop_resched] at hm
          exact ⟨i, hfound, hnonneg, hm⟩
        · cases hp
      · cases hp
  | _ => cases hp

end Tokens

section Runs

/-- In the state after the start nobody waits. -/
theorem Booted.listsKept {idle shell : ℕ} (h : Booted k idle shell) : ListsKept k := by
  have hempty : ∀ t L, Waiters k t L → L = [] := by
    intro t L hL
    have hnil : Waiters k t [] := h.waitersHead t
    exact hL.unique hnil
  refine ⟨h.orderly, ⟨quietSems k, ⟨h.quiet.sound.sems, ?_, fun t _ => ⟨[], h.waitersHead t, by simp⟩,
    fun p _ _ _ => h.waitingOnSem p, h.waitingOnSem _, fun p hp => ?_, fun p q hp hq he => ?_⟩⟩,
    h.waitingOnSem _, fun t L _ hL => ?_⟩
  · intro id s hs p hp
    rw [quietSems_queue hs] at hp
    cases hp
  · obtain ⟨hidle, hshell, hnext⟩ := h.pid
    obtain rfl | rfl := (h.allocated p).mp hp
    · rw [hidle, hnext]
      decide
    · rw [hshell, hnext]
      decide
  · obtain ⟨hidle, hshell, -⟩ := h.pid
    obtain rfl | rfl := (h.allocated p).mp hp
    · obtain rfl | rfl := (h.allocated q).mp hq
      · rfl
      · rw [hidle, hshell] at he
        cases he
    · obtain rfl | rfl := (h.allocated q).mp hq
      · rw [hidle, hshell] at he
        cases he
      · rfl
  · rw [hempty t L hL]
    exact List.not_mem_nil

/-- In every run from the start of the system in which no process is killed that is linked in a
list, and none is unblocked that is linked in a list or waits for a semaphore, the lists stay
intact. A process that has blocked in `sem_wait_by_id` and runs again, so that the call returns
`1`, was handed a token by a signal or by `sem_set_by_id` in between. -/
theorem wait_lists_intact {idle idleStack shell shellStack entryPoint : ℕ} {k₀ : Kernel} {steps : List Step}
    (hm : BootMemory idle idleStack shell shellStack entryPoint) (hidle : idle < addressCount)
    (hshell : shell < addressCount)
    (hboot : bootSystem idle idleStack shell shellStack entryPoint = some k₀) (run : Run k₀ steps k)
    (hsafe : ∀ st ∈ steps, st.call.Allowed WaitListSafe st.before) :
    WaitListsIntact k ∧ ∀ before k₁ id frame o after, steps = before ++ ⟨k₁, .semWait id frame, o⟩ :: after →
      (semWaitStart k₁ id).2 = .queued → k.current = k₁.current → k.pid k.current = k₁.pid k₁.current →
      ∃ st ∈ after, HandsTokens id st.call ∧ k₁.current ∈ st.outcome.released := by
  have hstart := bootSystem_spec hm hboot
  have hinv : (ListsKept k ∧ Addressed k) ∧
      ∀ before k₁ id frame o after, steps = before ++ ⟨k₁, .semWait id frame, o⟩ :: after →
      (semWaitStart k₁ id).2 = .queued →
      (∃ st ∈ after, HandsTokens id st.call ∧ k₁.current ∈ st.outcome.released) ∨
        id ≠ 0 ∧ HeldBack k k₁.current (k₁.pid k₁.current) id := by
    induction run with
    | nil =>
        refine ⟨⟨hstart.listsKept, hstart.addressed hidle hshell⟩, ?_⟩
        intro before k₁ id frame o after he
        simp at he
    | @snoc steps k c o run step ih =>
        obtain ⟨⟨hkept, haddr⟩, hheld⟩ := ih fun st hst => hsafe st (List.mem_append_left _ hst)
        have hc := hsafe _ (List.mem_append_right _ (List.mem_singleton_self _))
        obtain ⟨s, c', hopens, promise, hstep⟩ := exec_isOpen hkept.orderly haddr hc.made hc.answered step
        have hlists := hkept.resched s
        refine ⟨⟨hlists.step promise (.resched k s c' (hc.meets c' hopens)) hstep,
          (openExec_kept hlists.orderly haddr promise hstep).2⟩, fun before k₁ id frame o₁ after he hqueued => ?_⟩
        obtain rfl | ⟨rest, x, rfl⟩ := List.eq_nil_or_concat' after
        · -- the process has just blocked
          obtain ⟨-, hlast⟩ := List.append_inj' he rfl
          obtain ⟨rfl, rfl, rfl⟩ := (Step.mk.injEq ..).mp (List.singleton_inj.mp hlast)
          exact Or.inr (hkept.queued hopens hqueued promise hstep)
        · rw [← List.cons_append, ← List.append_assoc] at he
          obtain ⟨hsteps, hlast⟩ := List.append_inj' he rfl
          obtain rfl := List.singleton_inj.mp hlast
          obtain ⟨st, hst, hgiven⟩ | ⟨hid, hback⟩ := hheld before k₁ id frame o₁ rest hsteps hqueued
          · exact Or.inl ⟨st, List.mem_append_left _ hst, hgiven⟩
          · by_cases hgiven : k₁.current ∈ tokensGiven (k.resched s) c' id
            · exact Or.inl ⟨⟨k, c, o⟩, by simp, hopens.handsTokens step hgiven⟩
            · have hback' : HeldBack (k.resched s) k₁.current (k₁.pid k₁.current) id := ⟨hback.made, hback.waits⟩
              exact Or.inr ⟨hid, hback'.step hid hlists promise hstep hgiven⟩
  obtain ⟨⟨hkept, -⟩, hheld⟩ := hinv
  obtain ⟨V, hV⟩ := hkept.listed
  refine ⟨hV.intact, fun before k₁ id frame o after he hqueued hcur hpid => ?_⟩
  obtain hgiven | ⟨hid, hback⟩ := hheld before k₁ id frame o after he hqueued
  · exact hgiven
  · rw [hcur] at hpid
    have hzero := hkept.running.waitingOnSem
    rw [hcur, hback.waits hpid] at hzero
    exact absurd hzero hid

/-- The theorem at a run: the shell waits for a semaphore that its child signals, and returns with
the token of the child. -/
theorem wait_lists_intact_handover :
    ∃ k₀ steps k, bootSystem 16 8192 48 12288 1 = some k₀ ∧ Run k₀ steps k ∧ steps.length = 6 ∧
      k.current = 48 ∧ WaitListsIntact k ∧ ∃ st ∈ steps, HandsTokens 2 st.call ∧ 48 ∈ st.outcome.released := by
  have hlt : 64 < addressCount := by
    unfold addressCount
    decide
  let r : SpawnRequest := ⟨1, 0, 2, false, 0, 0, 64, 32768⟩
  let frame : Frame := ⟨0, fun _ => 0⟩
  have hcalc : ((bootSystem 16 8192 48 12288 1).bind fun k₀ => (exec k₀ (.tick frame)).bind fun o₁ =>
      (exec o₁.kernel (.semAlloc 0)).bind fun o₂ => (exec o₂.kernel (.createProcess r)).bind fun o₃ =>
        (exec o₃.kernel (.semWait 2 frame)).bind fun o₄ => (exec o₄.kernel (.semSignal 2)).bind fun o₅ =>
          (exec o₅.kernel (.yield frame)).map fun o₆ =>
            decide (k₀.state k₀.current = .running ∧
              (Caller o₂.kernel ∧ o₂.kernel.allocated 64 = false ∧
                o₂.kernel.allocated o₂.kernel.current = true) ∧
              (Caller o₃.kernel ∧ o₃.kernel.current = 48 ∧ o₃.kernel.state o₃.kernel.current = .running ∧
                (semWaitStart o₃.kernel 2).2 = .queued) ∧
              (semGetById o₄.kernel 2 = some 1 ∧
                waitersFrom o₄.kernel.semWaiterNext 1 (o₄.kernel.semaphores 1).waitHead = [48] ∧
                Wakeable o₄.kernel 48) ∧
              o₅.kernel.state o₅.kernel.current = .running ∧
              o₆.kernel.current = 48 ∧ o₆.kernel.pid 48 = o₃.kernel.pid 48)) = some true := by
    decide +kernel
  obtain ⟨k₀, hboot, h₁⟩ := Option.bind_eq_some_iff.mp hcalc
  obtain ⟨o₁, htick, h₂⟩ := Option.bind_eq_some_iff.mp h₁
  obtain ⟨o₂, halloc, h₃⟩ := Option.bind_eq_some_iff.mp h₂
  obtain ⟨o₃, hcreate, h₄⟩ := Option.bind_eq_some_iff.mp h₃
  obtain ⟨o₄, hwait, h₅⟩ := Option.bind_eq_some_iff.mp h₄
  obtain ⟨o₅, hsignal, h₆⟩ := Option.bind_eq_some_iff.mp h₅
  obtain ⟨o₆, hyield, h₇⟩ := Option.map_eq_some_iff.mp h₆
  obtain ⟨hrun₀, ⟨hcall₂, hfree, hparent⟩, ⟨hcall₃, hcur₃, hrun₃, hqueued⟩, ⟨hfound, hwaiters, hwake⟩, hrun₅,
    hcur₆, hpid⟩ := of_decide_eq_true h₇
  have hm : BootMemory 16 8192 48 12288 1 := ⟨by decide, by decide, by decide, by decide, by decide, by decide⟩
  have hstart := bootSystem_spec hm hboot
  have run := Run.snoc (Run.snoc (Run.snoc (Run.snoc (Run.snoc (Run.snoc .nil htick) halloc) hcreate) hwait)
    hsignal) hyield
  have hmade : ∀ st ∈ [⟨k₀, .tick frame, o₁⟩, ⟨o₁.kernel, .semAlloc 0, o₂⟩, ⟨o₂.kernel, .createProcess r, o₃⟩,
      ⟨o₃.kernel, .semWait 2 frame, o₄⟩, ⟨o₄.kernel, .semSignal 2, o₅⟩,
      (⟨o₅.kernel, .yield frame, o₆⟩ : Step)], Made st.before st.call := by
    simp only [List.forall_mem_cons, List.not_mem_nil, false_imp_iff, implies_true, and_true]
    exact ⟨trivial, trivial, ⟨hcall₂, fun _ => ⟨hlt, hfree⟩, fun _ => hparent⟩, hcall₃, trivial, trivial⟩
  have hqueues : ∀ st ∈ [⟨k₀, .tick frame, o₁⟩, ⟨o₁.kernel, .semAlloc 0, o₂⟩, ⟨o₂.kernel, .createProcess r, o₃⟩,
      ⟨o₃.kernel, .semWait 2 frame, o₄⟩, ⟨o₄.kernel, .semSignal 2, o₅⟩,
      (⟨o₅.kernel, .yield frame, o₆⟩ : Step)], QueueSafe st.before st.call := by
    simp only [List.forall_mem_cons, List.not_mem_nil, false_imp_iff, implies_true, and_true]
    refine ⟨fun _ hfin => absurd (hrun₀.symm.trans hfin) (by decide), trivial,
      ⟨fun _ => ⟨hlt, hfree⟩, fun _ => hparent⟩, fun _ => Or.inr (Or.inr ?_), fun i hi w hw => ?_,
      fun _ hfin => absurd (hrun₅.symm.trans hfin) (by decide)⟩
    · rw [hrun₃]
      decide
    · obtain rfl := Option.some_inj.mp (hfound.symm.trans hi)
      rw [hwaiters] at hw
      rw [List.mem_singleton.mp hw]
      exact hwake
  obtain ⟨-, hanswered⟩ := run.queuesAnswer hstart.orderly (hstart.addressed (by omega) (by omega))
    (bootSystem_agree hm (by omega) (by omega) hboot) hmade hqueues
  have hmeets : ∀ st ∈ [⟨k₀, .tick frame, o₁⟩, ⟨o₁.kernel, .semAlloc 0, o₂⟩, ⟨o₂.kernel, .createProcess r, o₃⟩,
      ⟨o₃.kernel, .semWait 2 frame, o₄⟩, ⟨o₄.kernel, .semSignal 2, o₅⟩,
      (⟨o₅.kernel, .yield frame, o₆⟩ : Step)], st.call.Meets WaitListSafe st.before := by
    simp only [List.forall_mem_cons, List.not_mem_nil, false_imp_iff, implies_true, and_true]
    refine ⟨?_, ?_, ?_, ?_, ?_, ?_⟩
    all_goals
      intro c' hopens
      cases hopens with
      | _ => trivial
  obtain ⟨hintact, htokens⟩ := wait_lists_intact hm (by omega) (by omega) hboot run fun st hst =>
    ⟨hmade st hst, hanswered st hst, hmeets st hst⟩
  refine ⟨k₀, _, o₆.kernel, hboot, run, rfl, hcur₆, hintact, ?_⟩
  obtain ⟨st, hst, hhands, hgiven⟩ := htokens [⟨k₀, .tick frame, o₁⟩, ⟨o₁.kernel, .semAlloc 0, o₂⟩,
    ⟨o₂.kernel, .createProcess r, o₃⟩] o₃.kernel 2 frame o₄ _ rfl hqueued (hcur₆.trans hcur₃.symm)
    (by rw [hcur₆, hcur₃, hpid])
  exact ⟨st, List.mem_append_right [_, _, _, _] hst, hhands, hcur₃ ▸ hgiven⟩

/-- The shell unblocks its child by its identifier while the child waits for a semaphore. The
child is ready and still linked in the queue. When it goes on, its call of `sem_wait_by_id`
returns `1`, and nobody has made a signal. -/
theorem unblocked_while_linked :
    ∃ k₀ k k', bootSystem 16 8192 48 12288 1 = some k₀ ∧
      execAll k₀ [.tick ⟨0, fun _ => 0⟩, .semAlloc 0, .createProcess ⟨1, 0, 2, false, 0, 0, 64, 32768⟩,
        .yield ⟨0, fun _ => 0⟩, .semWait 2 ⟨0, fun _ => 0⟩, .unblockByPid 3] = some k ∧
      ¬WaitListsIntact k ∧ execAll k [.yield ⟨0, fun _ => 0⟩] = some k' ∧ k'.current = 64 := by
  have hcalc : ((bootSystem 16 8192 48 12288 1).bind fun k₀ =>
      (execAll k₀ [.tick ⟨0, fun _ => 0⟩, .semAlloc 0,
        .createProcess ⟨1, 0, 2, false, 0, 0, 64, 32768⟩, .yield ⟨0, fun _ => 0⟩,
        .semWait 2 ⟨0, fun _ => 0⟩, .unblockByPid 3]).bind fun k =>
      (execAll k [.yield ⟨0, fun _ => 0⟩]).map fun k' =>
          decide (((k.semaphores 1).used = true ∧ (k.semaphores 1).waitHead = 64 ∧ k.state 64 = .ready) ∧
            k'.current = 64)) = some true := by
    decide +kernel
  obtain ⟨k₀, hboot, h₁⟩ := Option.bind_eq_some_iff.mp hcalc
  obtain ⟨k, hall, h₂⟩ := Option.bind_eq_some_iff.mp h₁
  obtain ⟨k', hyield, h₃⟩ := Option.map_eq_some_iff.mp h₂
  obtain ⟨⟨hused, hhead, hready⟩, hcur⟩ := of_decide_eq_true h₃
  refine ⟨k₀, k, k', hboot, hall, fun hintact => ?_, hyield, hcur⟩
  obtain ⟨L, hqueue, -, hmember⟩ := hintact.semaphores 1 (by decide) hused
  have hlinked : 64 ∈ L := by
    have hfirst := hqueue.chain.head_eq
    rw [hhead] at hfirst
    cases L with
    | nil => cases hfirst
    | cons x L => exact List.mem_cons.mpr (Or.inl hfirst)
  obtain ⟨-, hblocked, -⟩ := hmember 64 hlinked
  rw [hready] at hblocked
  cases hblocked

end Runs
end SoKernel
