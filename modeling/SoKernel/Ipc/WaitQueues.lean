import SoKernel.Ipc.PipeTable
import SoKernel.Lib.CountingSemaphore
import SoKernel.Proc.OpenEffects

/-!
# The semaphores as counters with queues

The table of semaphores and the links through the process control blocks represent one
counting semaphore for each identifier in use. The operations of `semaphore.c` are those of
the represented semaphores, as long as only `semaphore.c` releases a waiting process.
-/

namespace SoKernel

open Function (update)
open LinkedList (Queue)

/-- The semaphores in use, by identifier. -/
abbrev Sems := ℕ → Option (CountingSemaphore ℕ)

variable {k k' : Kernel} {V : Sems} {id i p : ℕ} {s : CountingSemaphore ℕ}

section Representation

structure Represents (k : Kernel) (V : Sems) : Prop where
  table : SemTable k.semaphores k.nextSemId
  next : 0 < k.nextSemId
  entry : ∀ i < maxSemaphores, (k.semaphores i).used = true →
    ∃ L, V (k.semaphores i).id = some ⟨(k.semaphores i).value, L⟩ ∧
      Queue k.semWaiterNext 0 (k.semaphores i).waitHead (k.semaphores i).waitTail L
  present : ∀ id s, V id = some s →
    ∃ i < maxSemaphores, (k.semaphores i).used = true ∧ (k.semaphores i).id = id
  waiting : ∀ id s, V id = some s → ∀ p ∈ s.queue,
    k.state p = .blocked ∧ k.waitingOnSem p = id ∧ p ≠ k.idleP

/-- The current process is in no queue. -/
def Away (k : Kernel) (V : Sems) : Prop := ∀ id s, V id = some s → k.current ∉ s.queue

/-- The entry of a semaphore. -/
structure EntryOf (k : Kernel) (id i : ℕ) (s : CountingSemaphore ℕ) : Prop where
  found : semGetById k id = some i
  bound : i < maxSemaphores
  used : (k.semaphores i).used = true
  id_eq : (k.semaphores i).id = id
  value : (k.semaphores i).value = s.value
  queue : Queue k.semWaiterNext 0 (k.semaphores i).waitHead (k.semaphores i).waitTail s.queue

theorem Represents.get (h : Represents k V) (hs : V id = some s) : ∃ i, EntryOf k id i s := by
  obtain ⟨i, hi, hu, hid⟩ := h.present id s hs
  obtain ⟨L, hL, hq⟩ := h.entry i hi hu
  rw [hid, hs, Option.some_inj] at hL
  subst hL
  exact ⟨i, h.table.find.mpr ⟨hi, hu, hid⟩, hi, hu, hid, rfl, hq⟩

theorem Represents.of_found (h : Represents k V) (hf : semGetById k id = some i) :
    ∃ s, V id = some s ∧ EntryOf k id i s := by
  obtain ⟨hi, hu, hid⟩ := semGetById_mem hf
  obtain ⟨L, hL, hq⟩ := h.entry i hi hu
  rw [hid] at hL
  exact ⟨_, hL, hf, hi, hu, hid, rfl, hq⟩

/-- The entry in use with the identifier is the entry of the semaphore. -/
theorem Represents.entryOf (h : Represents k V) (hi : i < maxSemaphores)
    (hu : (k.semaphores i).used = true) (hs : V (k.semaphores i).id = some s) :
    EntryOf k (k.semaphores i).id i s := by
  obtain ⟨s', hs', hentry⟩ := h.of_found (h.table.find.mpr ⟨hi, hu, rfl⟩)
  rw [hs, Option.some_inj] at hs'
  exact hs' ▸ hentry

theorem Represents.missing (h : Represents k V) : semGetById k id = none ↔ V id = none := by
  constructor
  · intro hf
    cases hs : V id with
    | none => rfl
    | some s =>
        obtain ⟨i, hi⟩ := h.get hs
        rw [hi.found] at hf
        cases hf
  · intro hs
    cases hf : semGetById k id with
    | none => rfl
    | some i =>
        obtain ⟨s, hs', -⟩ := h.of_found hf
        rw [hs] at hs'
        cases hs'

/-- The processes that wait for a semaphore, as the links tell. -/
def WaitQueue (k : Kernel) (id : ℕ) (L : List ℕ) : Prop :=
  ∃ i, semGetById k id = some i ∧
    Queue k.semWaiterNext 0 (k.semaphores i).waitHead (k.semaphores i).waitTail L

theorem Represents.waitQueue_iff (h : Represents k V) {L : List ℕ} :
    WaitQueue k id L ↔ ∃ s, V id = some s ∧ s.queue = L := by
  constructor
  · rintro ⟨i, hf, hq⟩
    obtain ⟨s, hs, hentry⟩ := h.of_found hf
    exact ⟨s, hs, hentry.queue.chain.unique hq.chain⟩
  · rintro ⟨s, hs, rfl⟩
    obtain ⟨i, hi⟩ := h.get hs
    exact ⟨i, hi.found, hi.queue⟩

theorem Represents.nodup (h : Represents k V) (hs : V id = some s) : s.queue.Nodup := by
  obtain ⟨i, hi⟩ := h.get hs
  exact hi.queue.chain.nodup

/-- A process waits for one semaphore at most. -/
theorem Represents.only (h : Represents k V) {id' : ℕ} {s' : CountingSemaphore ℕ}
    (hs : V id = some s) (hp : p ∈ s.queue) (hs' : V id' = some s') (hp' : p ∈ s'.queue) :
    id = id' :=
  (h.waiting id s hs p hp).2.1.symm.trans (h.waiting id' s' hs' p hp').2.1

/-- Only the semaphores and the control blocks of the waiting processes matter. -/
theorem Represents.congr_members (h : Represents k V) (hsem : k'.semaphores = k.semaphores)
    (hnext : k'.nextSemId = k.nextSemId) (hidle : k'.idleP = k.idleP)
    (hmember : ∀ id s, V id = some s → ∀ p ∈ s.queue, k'.semWaiterNext p = k.semWaiterNext p ∧
      k'.state p = k.state p ∧ k'.waitingOnSem p = k.waitingOnSem p) :
    Represents k' V := by
  refine ⟨?_, hnext ▸ h.next, fun i hi hu => ?_, ?_, fun id s hs p hp => ?_⟩
  · rw [hsem, hnext]
    exact h.table
  · rw [hsem] at hu ⊢
    obtain ⟨L, hL, hq⟩ := h.entry i hi hu
    exact ⟨L, hL, hq.congr fun p hp => (hmember _ _ hL p hp).1⟩
  · rw [hsem]
    exact h.present
  · obtain ⟨-, hstate, hon⟩ := hmember id s hs p hp
    rw [hstate, hon, hidle]
    exact h.waiting id s hs p hp

/-- Only the semaphores, their links and the states of the waiting processes matter. -/
theorem Represents.congr (h : Represents k V) (hsem : k'.semaphores = k.semaphores)
    (hnext : k'.nextSemId = k.nextSemId) (hlink : k'.semWaiterNext = k.semWaiterNext)
    (hon : k'.waitingOnSem = k.waitingOnSem) (hidle : k'.idleP = k.idleP)
    (hstate : ∀ id s, V id = some s → ∀ p ∈ s.queue, k'.state p = k.state p) :
    Represents k' V :=
  h.congr_members hsem hnext hidle fun id s hs p hp =>
    ⟨congrFun hlink p, hstate id s hs p hp, congrFun hon p⟩

/-- Changing one semaphore and the links and states of its own processes. -/
theorem Represents.replace (h : Represents k V) (hi : EntryOf k id i s) (t : Semaphore)
    (hid : t.id = id) (hused : t.used = true) {L : List ℕ}
    (hsem : k'.semaphores = update k.semaphores i t) (hnext : k'.nextSemId = k.nextSemId)
    (hidle : k'.idleP = k.idleP)
    (hqueue : Queue k'.semWaiterNext 0 t.waitHead t.waitTail L)
    (hmember : ∀ p ∈ L, k'.state p = .blocked ∧ k'.waitingOnSem p = id ∧ p ≠ k.idleP)
    (hother : ∀ id', id' ≠ id → ∀ s', V id' = some s' → ∀ p ∈ s'.queue,
      k'.semWaiterNext p = k.semWaiterNext p ∧ k'.state p = k.state p ∧
        k'.waitingOnSem p = k.waitingOnSem p) :
    Represents k' (update V id (some ⟨t.value, L⟩)) := by
  have hsame : ∀ j, (k'.semaphores j).id = (k.semaphores j).id ∧
      (k'.semaphores j).used = (k.semaphores j).used := by
    intro j
    by_cases hj : j = i
    · rw [hsem, hj, Function.update_self, hid, hused, hi.id_eq, hi.used]
      exact ⟨rfl, rfl⟩
    · rw [hsem, Function.update_of_ne hj]
      exact ⟨rfl, rfl⟩
  refine ⟨⟨fun j hj hu => ?_, fun j hj l hl huj hul heq => ?_⟩, hnext ▸ h.next, fun j hj hu => ?_,
    fun id' s' hs' => ?_, fun id' s' hs' q hq => ?_⟩
  · rw [(hsame j).1, hnext]
    exact h.table.bound j hj ((hsame j).2 ▸ hu)
  · rw [(hsame j).1, (hsame l).1] at heq
    exact h.table.unique j hj l hl ((hsame j).2 ▸ huj) ((hsame l).2 ▸ hul) heq
  · by_cases hji : j = i
    · refine ⟨L, ?_, ?_⟩
      · rw [hsem, hji, Function.update_self, hid, Function.update_self]
      · rw [hsem, hji, Function.update_self]
        exact hqueue
    · have huj : (k.semaphores j).used = true := (hsame j).2 ▸ hu
      have hne : (k.semaphores j).id ≠ id := fun he =>
        hji (h.table.unique j hj i hi.bound huj hi.used (he.trans hi.id_eq.symm))
      obtain ⟨M, hM, hqM⟩ := h.entry j hj huj
      refine ⟨M, ?_, ?_⟩
      · rw [hsem, Function.update_of_ne hji, Function.update_of_ne hne]
        exact hM
      · rw [hsem, Function.update_of_ne hji]
        exact hqM.congr fun q hq => (hother _ hne _ hM q hq).1
  · by_cases he : id' = id
    · exact ⟨i, hi.bound, (hsame i).2.trans hi.used, (hsame i).1.trans (hi.id_eq.trans he.symm)⟩
    · rw [Function.update_of_ne he] at hs'
      obtain ⟨j, hj, huj, hidj⟩ := h.present id' s' hs'
      exact ⟨j, hj, (hsame j).2.trans huj, (hsame j).1.trans hidj⟩
  · rw [hidle]
    by_cases he : id' = id
    · subst he
      rw [Function.update_self, Option.some_inj] at hs'
      subst hs'
      exact hmember q hq
    · rw [Function.update_of_ne he] at hs'
      obtain ⟨-, hst, hon⟩ := hother id' he s' hs' q hq
      rw [hst, hon]
      exact h.waiting id' s' hs' q hq

end Representation

section Operations

/-- The two states differ in semaphores, states of processes and the scheduler only. -/
structure Aside (k k' : Kernel) : Prop extends SameFds k k', SamePipes k k' where
  idleP : k'.idleP = k.idleP

theorem Aside.refl (k : Kernel) : Aside k k := ⟨.refl k, .refl k, rfl⟩

theorem Aside.trans {k'' : Kernel} (h : Aside k k') (h' : Aside k' k'') : Aside k k'' :=
  ⟨h.toSameFds.trans h'.toSameFds, h.toSamePipes.trans h'.toSamePipes, h'.idleP.trans h.idleP⟩

/-- A token for the semaphore with the given identifier. -/
def Sems.signal (V : Sems) (id : ℕ) : Sems := update V id ((V id).map .signal)

/-- The process that a signal releases. -/
def Sems.first (V : Sems) (id : ℕ) : List ℕ := ((V id).map fun s => s.queue.take 1).getD []

theorem Sems.signal_of_none (h : V id = none) : V.signal id = V := by
  rw [Sems.signal, h, Option.map_none, ← h, Function.update_eq_self]

theorem Sems.signal_of_some (h : V id = some s) : V.signal id = update V id (some s.signal) := by
  rw [Sems.signal, h, Option.map_some]

theorem Sems.first_of_some (h : V id = some s) : V.first id = s.queue.take 1 := by
  rw [Sems.first, h, Option.map_some, Option.getD_some]

/-- After a signal the queues hold processes that were there before. -/
theorem Sems.mem_of_signal {a : ℕ} {t : CountingSemaphore ℕ} (ht : V.signal id a = some t)
    (hp : p ∈ t.queue) : ∃ s, V a = some s ∧ p ∈ s.queue := by
  by_cases ha : a = id
  · subst ha
    rw [Sems.signal, Function.update_self] at ht
    obtain ⟨s, hs, rfl⟩ := Option.map_eq_some_iff.mp ht
    exact ⟨s, hs, CountingSemaphore.mem_of_mem_signal hp⟩
  · rw [Sems.signal, Function.update_of_ne ha] at ht
    exact ⟨t, ht, hp⟩

theorem Away.signal (h : Away k V) (hcur : k'.current = k.current) : Away k' (V.signal id) := by
  intro a t ht hm
  rw [hcur] at hm
  obtain ⟨s, hs, hp⟩ := Sems.mem_of_signal ht hm
  exact h a s hs hp

/-- Taking a token in `sem_wait_by_id`. -/
theorem Represents.take (h : Represents k V) (hs : V id = some s) (hcur : k.current ≠ 0)
    (hpos : 0 < s.value) :
    ∃ i, semWaitStart k id = (setSemValue k i (s.value - 1), .taken) ∧
      Represents (setSemValue k i (s.value - 1)) (update V id (some s.take)) := by
  obtain ⟨i, hi⟩ := h.get hs
  refine ⟨i, ?_, ?_⟩
  · simp only [semWaitStart, hi.found, if_neg hcur, hi.value, if_pos hpos]
  · exact h.replace hi { k.semaphores i with value := s.value - 1 } hi.id_eq hi.used rfl rfl rfl
      hi.queue (h.waiting id s hs) fun _ _ _ _ _ _ => ⟨rfl, rfl, rfl⟩

/-- Waiting in `sem_wait_by_id` up to the context switch. -/
theorem Represents.enqueue (h : Represents k V) (haway : Away k V) (hs : V id = some s)
    (hcur : k.current ≠ 0) (hidle : k.current ≠ k.idleP) (hzero : ¬0 < s.value) :
    (semWaitStart k id).2 = .queued ∧ Aside k (schedulerBlockCurrent (semWaitStart k id).1) ∧
      Represents (schedulerBlockCurrent (semWaitStart k id).1)
        (update V id (some (s.enqueue k.current))) ∧
      (schedulerBlockCurrent (semWaitStart k id).1).state = update k.state k.current .blocked := by
  obtain ⟨i, hi⟩ := h.get hs
  have hstart : semWaitStart k id = (semLinked k i, .queued) := by
    simp only [semWaitStart, hi.found, if_neg hcur, hi.value, if_neg hzero]
  have hnot : k.current ∉ s.queue := haway id s hs
  have hblock : ∃ b, schedulerBlockCurrent (semLinked k i) =
      { semLinked k i with
        state := update k.state k.current .blocked
        needResched := b } ∧ (semLinked k i).idleP = k.idleP := by
    have hlinked : (semLinked k i).current = k.current ∧ (semLinked k i).idleP = k.idleP ∧
        (semLinked k i).state = k.state := by
      simp only [semLinked, enqueueWaiter]
      split <;> exact ⟨rfl, rfl, rfl⟩
    refine ⟨true, ?_, hlinked.2.1⟩
    have hstate : update (semLinked k i).state (semLinked k i).current .blocked =
        update k.state k.current .blocked := by
      rw [hlinked.1, hlinked.2.2]
    unfold schedulerBlockCurrent
    rw [if_neg (by rw [hlinked.1, hlinked.2.1]; exact not_or.mpr ⟨hcur, hidle⟩), hstate]
  obtain ⟨b, hblocked, hidleP⟩ := hblock
  rw [hstart, hblocked]
  have haside : Aside k
      { semLinked k i with
        state := update k.state k.current .blocked
        needResched := b } := by
    simp only [semLinked, enqueueWaiter]
    split <;> exact ⟨⟨rfl, rfl, rfl, rfl⟩, ⟨rfl, rfl, rfl⟩, rfl⟩
  refine ⟨rfl, haside, ?_, rfl⟩
  have hmember : ∀ p ∈ s.queue ++ [k.current],
      update k.state k.current .blocked p = .blocked ∧
        update k.waitingOnSem k.current id p = id ∧ p ≠ k.idleP := by
    intro p hp
    by_cases hpc : p = k.current
    · rw [hpc, Function.update_self, Function.update_self]
      exact ⟨rfl, rfl, hidle⟩
    · rw [Function.update_of_ne hpc, Function.update_of_ne hpc]
      rcases List.mem_append.mp hp with hp | hp
      · exact h.waiting id s hs p hp
      · exact absurd (List.mem_singleton.mp hp) hpc
  have hfar : ∀ id', id' ≠ id → ∀ s', V id' = some s' → ∀ p ∈ s'.queue, p ≠ k.current ∧ p ∉ s.queue := by
    intro id' hne s' hs' p hp
    exact ⟨fun he => haway id' s' hs' (he ▸ hp), fun hm => hne (h.only hs' hp hs hm)⟩
  have hother : ∀ f : ℕ → ℕ, (∀ p, p ≠ k.current → p ∉ s.queue → f p = k.semWaiterNext p) →
      ∀ id', id' ≠ id → ∀ s', V id' = some s' → ∀ p ∈ s'.queue, f p = k.semWaiterNext p ∧
        update k.state k.current .blocked p = k.state p ∧
        update k.waitingOnSem k.current id p = k.waitingOnSem p := by
    intro f hf id' hne s' hs' p hp
    obtain ⟨hpc, hps⟩ := hfar id' hne s' hs' p hp
    rw [Function.update_of_ne hpc, Function.update_of_ne hpc]
    exact ⟨hf p hpc hps, rfl, rfl⟩
  -- the queue with the current process at its end
  have hqueue : Queue (update k.semWaiterNext k.current 0) 0 (k.semaphores i).waitHead
      (k.semaphores i).waitTail s.queue := by
    refine hi.queue.congr fun p hp => ?_
    have hpc : p ≠ k.current := fun he => hnot (he ▸ hp)
    rw [Function.update_of_ne hpc]
  have hvalue : s.enqueue k.current = ⟨(k.semaphores i).value, s.queue ++ [k.current]⟩ := by
    rw [hi.value]
    rfl
  rw [hvalue]
  by_cases hhead : (k.semaphores i).waitHead = 0
  · have hnil : s.queue = [] := hi.queue.head_eq_null.mp hhead
    simp only [semLinked, enqueueWaiter, if_pos hhead]
    refine h.replace hi
      { k.semaphores i with
        waitHead := k.current
        waitTail := k.current } hi.id_eq hi.used rfl rfl rfl ?_ ?_ ?_
    · rw [hnil]
      exact ⟨⟨rfl, hcur, Function.update_self _ _ _⟩, rfl⟩
    · rw [hi.id_eq]
      exact hmember
    · rw [hi.id_eq]
      exact hother _ fun p hpc _ => Function.update_of_ne hpc _ _
  · have hne : s.queue ≠ [] := fun he => hhead (hi.queue.head_eq_null.mpr he)
    have htail : (k.semaphores i).waitTail ∈ s.queue := by
      rw [hi.queue.tail_eq]
      obtain ⟨A, z, hA⟩ := List.eq_nil_or_concat' s.queue |>.resolve_left hne
      simp [hA]
    simp only [semLinked, enqueueWaiter, if_neg hhead]
    refine h.replace hi { k.semaphores i with waitTail := k.current } hi.id_eq hi.used rfl rfl rfl ?_ ?_ ?_
    · exact hqueue.enqueue hcur hnot (Function.update_self _ _ _) hne
    · rw [hi.id_eq]
      exact hmember
    · rw [hi.id_eq]
      refine hother _ fun p hpc hps => ?_
      have hpt : p ≠ (k.semaphores i).waitTail := fun he => hps (he ▸ htail)
      dsimp only
      rw [Function.update_of_ne hpt, Function.update_of_ne hpc]

/-- A signal without a waiting process. -/
theorem Represents.increment (h : Represents k V) (hi : EntryOf k id i s)
    (hempty : (k.semaphores i).waitHead = 0) :
    Represents (setSemValue k i ((k.semaphores i).value + 1)) (update V id (some s.signal)) := by
  have hnil := hi.queue.head_eq_null.mp hempty
  rw [CountingSemaphore.signal_of_nil hnil, ← hi.value]
  refine h.replace hi { k.semaphores i with value := (k.semaphores i).value + 1 } hi.id_eq hi.used rfl rfl
    rfl ?_ (by simp) fun _ _ _ _ _ _ => ⟨rfl, rfl, rfl⟩
  exact hnil ▸ hi.queue

/-- The release of the first waiting process. -/
theorem Represents.release (h : Represents k V) (hs : V id = some s) (hi : EntryOf k id i s) {w : ℕ}
    (hhead : (k.semaphores i).waitHead = w) (hw : w ≠ 0) :
    Represents (releasedKernel k i w) (update V id (some s.signal)) ∧ V.first id = [w] := by
  obtain ⟨q, hq⟩ : ∃ q, s.queue = w :: q := by
    cases hsq : s.queue with
    | nil => exact absurd (hi.queue.head_eq_null.mpr hsq) (hhead ▸ hw)
    | cons x q =>
        have hx := hi.queue.chain.head_eq
        rw [hsq, hhead] at hx
        exact ⟨q, by rw [show w = x from hx]⟩
  have hnodup := List.nodup_cons.mp (hq ▸ hi.queue.chain.nodup)
  have hout : ∀ p, p ∈ q → p ≠ w := fun p hp he => hnodup.1 (he ▸ hp)
  refine ⟨?_, by rw [Sems.first_of_some hs, hq]; rfl⟩
  rw [CountingSemaphore.signal_of_cons hq, ← hi.value]
  refine h.replace hi
    { k.semaphores i with
      waitHead := k.semWaiterNext w
      waitTail := if k.semWaiterNext w = 0 then 0 else (k.semaphores i).waitTail }
    hi.id_eq hi.used rfl rfl rfl ?_ ?_ ?_
  · exact (hq ▸ hi.queue).dequeue
  · intro p hp
    have hpw := hout p hp
    simp only [Function.update_of_ne hpw]
    exact h.waiting id s hs p (by rw [hq]; exact List.mem_cons_of_mem _ hp)
  · intro id' hne s' hs' p hp
    have hpw : p ≠ w := by
      rintro rfl
      exact hne (h.only hs' hp hs (by rw [hq]; exact List.mem_cons_self))
    simp only [Function.update_of_ne hpw]
    exact ⟨trivial, trivial, trivial⟩

/-- `sem_signal_by_id`. -/
theorem Represents.signal (h : Represents k V) (hsig : semSignal k id = some k') :
    Represents k' (V.signal id) ∧ Aside k k' ∧ k'.state = setAll (V.first id) .ready k.state := by
  obtain ⟨w, heffect⟩ := semSignal_effect hsig
  cases heffect with
  | missing hnone =>
      have hV := h.missing.mp hnone
      rw [Sems.signal_of_none hV, Sems.first, hV]
      exact ⟨h, .refl k, (setAll_nil _ _).symm⟩
  | incremented i found empty =>
      obtain ⟨s, hs, hi⟩ := h.of_found found
      rw [Sems.signal_of_some hs, Sems.first_of_some hs, hi.queue.head_eq_null.mp empty]
      refine ⟨h.increment hi empty, ⟨⟨rfl, rfl, rfl, rfl⟩, ⟨rfl, rfl, rfl⟩, rfl⟩, ?_⟩
      exact (setAll_nil _ _).symm
  | released i w found head ne l b =>
      obtain ⟨s, hs, hi⟩ := h.of_found found
      obtain ⟨hrel, hfirst⟩ := h.release hs hi head ne
      rw [Sems.signal_of_some hs, hfirst]
      refine ⟨?_, ⟨⟨rfl, rfl, rfl, rfl⟩, ⟨rfl, rfl, rfl⟩, rfl⟩, ?_⟩
      · exact hrel.congr rfl rfl rfl rfl rfl fun _ _ _ _ _ => rfl
      · rw [setAll_cons, setAll_nil]

/-- The loop of `sem_set_by_id`. -/
theorem Represents.releaseLoop (h : Represents k V) (hs : V id = some s) (hi : EntryOf k id i s) (n : ℕ) :
    (SoKernel.releaseLoop i n k).1 = s.queue.take n ∧
      Represents (SoKernel.releaseLoop i n k).2 (update V id (some ⟨s.value, s.queue.drop n⟩)) ∧
      EntryOf (SoKernel.releaseLoop i n k).2 id i ⟨s.value, s.queue.drop n⟩ := by
  induction n generalizing k V s with
  | zero =>
      rw [SoKernel.releaseLoop, List.take_zero, List.drop_zero]
      refine ⟨rfl, ?_, hi⟩
      rw [← hs, Function.update_eq_self]
      exact h
  | succ n ih =>
      rw [SoKernel.releaseLoop]
      by_cases hw : (k.semaphores i).waitHead = 0
      · have hnil := hi.queue.head_eq_null.mp hw
        rw [if_pos hw]
        have hsame : (⟨s.value, s.queue.drop (n + 1)⟩ : CountingSemaphore ℕ) = s := by
          rw [hnil, List.drop_nil, ← hnil]
        rw [hsame, ← hs, Function.update_eq_self]
        exact ⟨by rw [hnil, List.take_nil], h, hi⟩
      · obtain ⟨hrel, hfirst⟩ := h.release hs hi rfl hw
        obtain ⟨q, hq⟩ : ∃ q, s.queue = (k.semaphores i).waitHead :: q := by
          rw [Sems.first_of_some hs] at hfirst
          cases hsq : s.queue with
          | nil =>
              rw [hsq] at hfirst
              cases hfirst
          | cons x q =>
              rw [hsq] at hfirst
              exact ⟨q, by rw [(List.cons.inj hfirst).1]⟩
        have hset : update V id (some s.signal) id = some ⟨s.value, q⟩ := by
          rw [Function.update_self, CountingSemaphore.signal_of_cons hq]
        have hentry : EntryOf (releasedKernel k i (k.semaphores i).waitHead) id i ⟨s.value, q⟩ := by
          have hid : ((releasedKernel k i (k.semaphores i).waitHead).semaphores i).id = id := by
            simp only [Function.update_self, hi.id_eq]
          have hused : ((releasedKernel k i (k.semaphores i).waitHead).semaphores i).used = true := by
            simp only [Function.update_self, hi.used]
          have hfound := hrel.entryOf (i := i) hi.bound hused (by rw [hid]; exact hset)
          rw [hid] at hfound
          exact hfound
        obtain ⟨hlist, hrep, hlast⟩ := ih hrel hset hentry
        rw [if_neg hw]
        refine ⟨?_, ?_, ?_⟩
        · dsimp only
          rw [hlist, hq, List.take_succ_cons]
        · rw [Function.update_idem] at hrep
          rw [hq, List.drop_succ_cons]
          exact hrep
        · rw [hq, List.drop_succ_cons]
          exact hlast

/-- The end of `sem_set_by_id`. -/
theorem Represents.assign (h : Represents k V) (hs : V id = some s) (hi : EntryOf k id i s) (n : ℕ) (x : ℤ) :
    Represents (setSemValue (SoKernel.releaseLoop i n k).2 i x)
      (update V id (some ⟨x, s.queue.drop n⟩)) := by
  obtain ⟨-, hrep, hentry⟩ := h.releaseLoop hs hi n
  have hreset : Represents (setSemValue (SoKernel.releaseLoop i n k).2 i x) _ :=
    hrep.replace hentry { (SoKernel.releaseLoop i n k).2.semaphores i with value := x } hentry.id_eq
      hentry.used rfl rfl rfl hentry.queue (hrep.waiting id _ (Function.update_self _ _ _))
      fun _ _ _ _ _ _ => ⟨rfl, rfl, rfl⟩
  rw [Function.update_idem] at hreset
  exact hreset

/-- `sem_set_by_id`. -/
theorem Represents.set {v : ℤ} {r : ℕ} {ws : List ℕ} (h : Represents k V)
    (hset : semSetById k id v = some (r, ws, k')) :
    ((V id = none ∨ v < 0) ∧ k' = k ∧ ws = []) ∨
      ∃ s, V id = some s ∧ 0 ≤ v ∧ ws = s.queue.take v.toNat ∧
        Represents k' (update V id (some (s.set v.toNat))) ∧ Aside k k' ∧
        k'.state = setAll ws .ready k.state := by
  unfold semSetById at hset
  cases hget : semGetById k id with
  | none =>
      simp only [hget, Option.some.injEq, Prod.mk.injEq] at hset
      exact Or.inl ⟨Or.inl (h.missing.mp hget), hset.2.2.symm, hset.2.1.symm⟩
  | some i =>
      simp only [hget] at hset
      by_cases hneg : v < 0
      · simp only [if_pos hneg, Option.some.injEq, Prod.mk.injEq] at hset
        exact Or.inl ⟨Or.inr hneg, hset.2.2.symm, hset.2.1.symm⟩
      · right
        obtain ⟨s, hs, hi⟩ := h.of_found hget
        rw [if_neg hneg, Option.bind_eq_bind] at hset
        obtain ⟨⟨ws', k₁⟩, hloop, hlast⟩ := Option.bind_eq_some_iff.mp hset
        obtain ⟨sched, hws, hk₁⟩ := awakenLoop_shape hloop
        have hlist := (h.releaseLoop hs hi v.toNat).1
        obtain ⟨sems, swn, hshape⟩ := releaseLoop_shape (i := i) v.toNat k
        simp only [Option.some.injEq, Prod.mk.injEq] at hlast
        obtain ⟨-, rfl, hk'⟩ := hlast
        subst hk'
        refine ⟨s, hs, not_lt.mp hneg, hws.trans hlist, ?_, ?_, ?_⟩
        · have hvalue : s.set v.toNat = ⟨v - ws'.length, s.queue.drop v.toNat⟩ := by
            rw [CountingSemaphore.set, hws, hlist, Int.toNat_of_nonneg (not_lt.mp hneg)]
          rw [hvalue, hk₁]
          exact (h.assign hs hi v.toNat (v - ws'.length)).congr rfl rfl rfl rfl rfl fun _ _ _ _ _ => rfl
        · rw [hk₁, hshape]
          exact ⟨⟨rfl, rfl, rfl, rfl⟩, ⟨rfl, rfl, rfl⟩, rfl⟩
        · rw [hk₁, hshape, hws]

/-- `sem_alloc` adds a semaphore under an identifier that was never used. -/
theorem Represents.alloc (h : Represents k V) (v : ℤ) :
    semAlloc k v = (0, k) ∨
      V k.nextSemId = none ∧ ∃ sems,
        semAlloc k v = (k.nextSemId,
          { k with
            semaphores := sems
            nextSemId := k.nextSemId + 1 }) ∧
        Represents
          { k with
            semaphores := sems
            nextSemId := k.nextSemId + 1 } (update V k.nextSemId (some ⟨v, []⟩)) := by
  unfold semAlloc
  cases hfind : (List.range maxSemaphores).find? fun i => !(k.semaphores i).used with
  | none => exact Or.inl rfl
  | some i =>
      right
      have hi : i < maxSemaphores := List.mem_range.mp (List.mem_of_find?_eq_some hfind)
      have hfree : (k.semaphores i).used = false := by simpa using List.find?_some hfind
      have hold : ∀ j < maxSemaphores, (k.semaphores j).used = true →
          j ≠ i ∧ (k.semaphores j).id ≠ k.nextSemId := by
        intro j hj hu
        refine ⟨?_, (h.table.bound j hj hu).2.ne⟩
        rintro rfl
        rw [hfree] at hu
        cases hu
      have hnone : V k.nextSemId = none := by
        cases hs : V k.nextSemId with
        | none => rfl
        | some s =>
            obtain ⟨j, hj, hu, hid⟩ := h.present _ s hs
            exact absurd hid (hold j hj hu).2
      refine ⟨hnone, _, rfl, ⟨fun j hj hu => ?_, fun j hj l hl huj hul heq => ?_⟩, Nat.succ_pos _,
        fun j hj hu => ?_, fun id s hs => ?_, fun id s hs p hp => ?_⟩
      · by_cases hji : j = i
        · simp only [hji, Function.update_self]
          exact ⟨h.next, Nat.lt_succ_self _⟩
        · simp only [Function.update_of_ne hji] at hu ⊢
          obtain ⟨hpos, hlt⟩ := h.table.bound j hj hu
          exact ⟨hpos, hlt.trans (Nat.lt_succ_self _)⟩
      · by_cases hji : j = i <;> by_cases hli : l = i
        · rw [hji, hli]
        · simp only [hji, Function.update_self, Function.update_of_ne hli] at heq hul
          exact absurd heq.symm (hold l hl hul).2
        · simp only [hli, Function.update_self, Function.update_of_ne hji] at heq huj
          exact absurd heq (hold j hj huj).2
        · simp only [Function.update_of_ne hji, Function.update_of_ne hli] at heq huj hul
          exact h.table.unique j hj l hl huj hul heq
      · by_cases hji : j = i
        · refine ⟨[], ?_, ?_⟩
          · simp only [hji, Function.update_self]
          · simp only [hji, Function.update_self]
            exact ⟨rfl, rfl⟩
        · simp only [Function.update_of_ne hji] at hu ⊢
          rw [Function.update_of_ne (hold j hj hu).2]
          exact h.entry j hj hu
      · by_cases he : id = k.nextSemId
        · refine ⟨i, hi, ?_, ?_⟩
          · simp only [Function.update_self]
          · simp only [Function.update_self, he]
        · rw [Function.update_of_ne he] at hs
          obtain ⟨j, hj, hu, hid⟩ := h.present id s hs
          refine ⟨j, hj, ?_, ?_⟩
          · simp only [Function.update_of_ne (hold j hj hu).1, hu]
          · simp only [Function.update_of_ne (hold j hj hu).1, hid]
      · by_cases he : id = k.nextSemId
        · rw [he, Function.update_self, Option.some_inj] at hs
          subst hs
          cases hp
        · rw [Function.update_of_ne he] at hs
          exact h.waiting id s hs p hp

/-- Another number of references does not matter. -/
theorem Represents.refcount (h : Represents k V) (hs : V id = some s) (hi : EntryOf k id i s) (r : ℤ) :
    Represents { k with semaphores := update k.semaphores i { k.semaphores i with refcount := r } } V := by
  have hsame : V = update V id (some ⟨(k.semaphores i).value, s.queue⟩) := by
    rw [hi.value, show (⟨s.value, s.queue⟩ : CountingSemaphore ℕ) = s from rfl, ← hs,
      Function.update_eq_self]
  rw [hsame]
  exact h.replace hi { k.semaphores i with refcount := r } hi.id_eq hi.used rfl rfl rfl hi.queue
    (h.waiting id s hs) fun _ _ _ _ _ _ => ⟨rfl, rfl, rfl⟩

/-- The last close of a semaphore. -/
theorem Represents.remove (h : Represents k V) (hi : EntryOf k id i s) (t : Semaphore)
    (hunused : t.used = false) :
    Represents { k with semaphores := update k.semaphores i t } (update V id none) := by
  have hold : ∀ j, (update k.semaphores i t j).used = true → j ≠ i := by
    intro j hu
    rintro rfl
    rw [Function.update_self, hunused] at hu
    cases hu
  refine ⟨⟨fun j hj hu => ?_, fun j hj l hl huj hul heq => ?_⟩, h.next, fun j hj hu => ?_,
    fun id' s' hs' => ?_, fun id' s' hs' p hp => ?_⟩
  · have hji := hold j hu
    simp only [Function.update_of_ne hji] at hu ⊢
    exact h.table.bound j hj hu
  · have hji := hold j huj
    have hli := hold l hul
    simp only [Function.update_of_ne hji, Function.update_of_ne hli] at heq huj hul
    exact h.table.unique j hj l hl huj hul heq
  · have hji := hold j hu
    simp only [Function.update_of_ne hji] at hu ⊢
    have hne : (k.semaphores j).id ≠ id := fun he =>
      hji (h.table.unique j hj i hi.bound hu hi.used (he.trans hi.id_eq.symm))
    rw [Function.update_of_ne hne]
    exact h.entry j hj hu
  · by_cases he : id' = id
    · rw [he, Function.update_self] at hs'
      cases hs'
    · rw [Function.update_of_ne he] at hs'
      obtain ⟨j, hj, hu, hid⟩ := h.present id' s' hs'
      have hji : j ≠ i := by
        rintro rfl
        exact he (hid.symm.trans hi.id_eq)
      refine ⟨j, hj, ?_, ?_⟩
      · simp only [Function.update_of_ne hji, hu]
      · simp only [Function.update_of_ne hji, hid]
  · by_cases he : id' = id
    · rw [he, Function.update_self] at hs'
      cases hs'
    · rw [Function.update_of_ne he] at hs'
      exact h.waiting id' s' hs' p hp

/-- `sem_open_by_id`. -/
theorem Represents.open (h : Represents k V) (id : ℕ) :
    Represents (semOpenById k id).2 V ∧ ∃ sems, (semOpenById k id).2 = { k with semaphores := sems } := by
  unfold semOpenById
  cases hget : semGetById k id with
  | none => exact ⟨h, k.semaphores, rfl⟩
  | some i =>
      obtain ⟨s, hs, hi⟩ := h.of_found hget
      exact ⟨h.refcount hs hi _, _, rfl⟩

/-- `sem_close_by_id`: the semaphore goes away with its last reference. -/
theorem Represents.close (h : Represents k V) (id : ℕ) :
    (∃ sems, (semCloseById k id).2 = { k with semaphores := sems }) ∧
      (semGetById k id = none ∧ (semCloseById k id).2 = k ∨
      ∃ i, semGetById k id = some i ∧
        (1 < (k.semaphores i).refcount ∧ Represents (semCloseById k id).2 V ∨
          (k.semaphores i).refcount ≤ 1 ∧ Represents (semCloseById k id).2 (update V id none))) := by
  unfold semCloseById
  cases hget : semGetById k id with
  | none => exact ⟨⟨k.semaphores, rfl⟩, Or.inl ⟨rfl, rfl⟩⟩
  | some i =>
      obtain ⟨s, hs, hi⟩ := h.of_found hget
      refine ⟨⟨_, rfl⟩, Or.inr ⟨i, rfl, ?_⟩⟩
      dsimp only
      by_cases hlast : (k.semaphores i).refcount - 1 ≤ 0
      · rw [if_pos hlast]
        exact Or.inr ⟨by omega, h.remove hi _ rfl⟩
      · rw [if_neg hlast]
        exact Or.inl ⟨by omega, h.refcount hs hi _⟩

end Operations

section Switch

/-- The state after a context switch that collects nobody. -/
abbrev handedTo (k : Kernel) (next : ℕ) : Kernel :=
  { k with
    state := update (savedState k k.current []) next .running
    current := next }

theorem switchBy_alive {ch : Choice} (halive : k.state k.current ≠ .finished)
    (hdead : ch.dead = []) (hp : SwitchPromise k ch) (h : switchBy k ch = some k') :
    (∃ sched, k' = (handedTo k ch.next).resched sched) ∧
      (savedState k k.current [] ch.next = .ready ∨ ch.next = k.idleP) := by
  obtain ⟨hc, hpromise⟩ := hp
  unfold switchBy at h
  rw [Option.bind_eq_bind, hdead] at h
  obtain ⟨k₁, hsave, hrest⟩ := Option.bind_eq_some_iff.mp h
  obtain ⟨-, hready, -⟩ := hpromise k₁ hsave
  obtain ⟨L, s, hwoken, hk₁⟩ := saveContext_shape (k := { k with needResched := false }) hc hsave
  have hL : L = [] := by
    unfold Woken at hwoken
    rwa [if_neg halive] at hwoken
  subst hL
  rw [savedBy_unfinished (k := { k with needResched := false }) halive] at hk₁
  have hsaved : savedState k k.current [] = if k.state k.current = .running ∧ k.current ≠ k.idleP then
      update k.state k.current .ready else k.state := by
    rw [savedState, setAll_nil]
  obtain ⟨s', hdisp⟩ := dispatch_shape (k₁.relink ch.popped) ch.next
  simp only [destroyAll, hdisp, Option.bind_some, Option.some_inj] at hrest
  refine ⟨⟨k'.ownSched, ?_⟩, ?_⟩
  · rw [← hrest, hk₁]
    simp only [handedTo, hsaved]
    rfl
  · rw [hsaved]
    rw [hk₁] at hready
    exact hready

/-- A context switch leaves the waiting processes where they are. -/
theorem Represents.switch {ch : Choice} (h : Represents k V) (halive : k.state k.current ≠ .finished)
    (hdead : ch.dead = []) (hp : SwitchPromise k ch) (hsw : switchBy k ch = some k') :
    Represents k' V ∧ Away k' V := by
  obtain ⟨⟨sched, rfl⟩, hready⟩ := switchBy_alive halive hdead hp hsw
  have hkept : ∀ id s, V id = some s → ∀ p ∈ s.queue,
      savedState k k.current [] p = k.state p ∧ p ≠ ch.next := by
    intro id s hs p hp
    obtain ⟨hblocked, -, hidle⟩ := h.waiting id s hs p hp
    have hsaved : savedState k k.current [] p = k.state p := by
      rw [savedState, setAll_nil]
      split
      · rename_i hrun
        have hpc : p ≠ k.current := by
          rintro rfl
          rw [hblocked] at hrun
          cases hrun.1
        rw [Function.update_of_ne hpc]
      · rfl
    refine ⟨hsaved, ?_⟩
    rintro rfl
    rcases hready with hr | hr
    · rw [hsaved, hblocked] at hr
      cases hr
    · exact hidle hr
  refine ⟨h.congr rfl rfl rfl rfl rfl fun id s hs p hp => ?_, fun id s hs hm => ?_⟩
  · obtain ⟨hsaved, hne⟩ := hkept id s hs p hp
    dsimp only
    rw [Function.update_of_ne hne, hsaved]
  · exact (hkept id s hs _ hm).2 rfl

end Switch
end SoKernel
