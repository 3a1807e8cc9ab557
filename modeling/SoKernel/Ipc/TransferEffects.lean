import SoKernel.Ipc.PipeEnds
import SoKernel.Ipc.Transfer
import SoKernel.Ipc.WaitQueues

/-!
# What the calls on semaphores and pipes do

The effect of every call on the represented semaphores and on the table of pipes. The mutex
of a pipe is free between the calls, so that a call on a pipe changes at most one of the two
other semaphores.
-/

namespace SoKernel

open Function (update)

variable {k k' k₁ : Kernel} {V V' : Sems} {id i p : ℕ} {s : CountingSemaphore ℕ}

section Soundness

/-- The semaphores are represented, pipes have semaphores of their own with free mutexes,
the current process waits for no semaphore and nobody has finished. -/
structure Sound (k : Kernel) (V : Sems) : Prop where
  sems : Represents k V
  tables : Tables k
  vacant : ∀ i < maxPipes, (k.pipes i).used = false → (k.pipes i).mutex = 0
  away : Away k V
  alive : ∀ p, k.state p ≠ .finished

theorem pipeSem_iff {a : ℕ} :
    PipeSem k a ↔ ∃ i < maxPipes, (k.pipes i).used = true ∧ a ∈ (k.pipes i).semIds := by
  simp only [PipeSem, Pipe.semIds, List.mem_cons, List.not_mem_nil, or_false]

theorem Sound.held (h : Sound k V) {a : ℕ} (ha : PipeSem k a) : ∃ s, V a = some s := by
  obtain ⟨i, hi, hu, hm⟩ := pipeSem_iff.mp ha
  obtain ⟨j, hj, huj, rfl⟩ := h.tables.held i hi hu a hm
  obtain ⟨L, hL, -⟩ := h.sems.entry j hj huj
  exact ⟨_, hL⟩

theorem Sound.mutex (h : Sound k V) (hi : i < maxPipes) (hu : (k.pipes i).used = true) :
    ∃ v, 0 < v ∧ V (k.pipes i).mutex = some ⟨v, []⟩ := by
  obtain ⟨j, hj, hid, hused, hpos, hhead⟩ := h.tables.mutex i hi hu
  obtain ⟨L, hL, hq⟩ := h.sems.entry j hj hused
  rw [hq.head_eq_null.mp hhead, hid] at hL
  exact ⟨_, hpos, hL⟩

/-- The tables after a change of semaphores that keeps those of pipes and their mutexes. -/
theorem PipeTable.of_sems {pipes : ℕ → Pipe} {nextPipe nextSem : ℕ} {sems : ℕ → Semaphore}
    (T : PipeTable pipes nextPipe sems nextSem) (h' : Represents k' V') (hpipes : k'.pipes = pipes)
    (hnext : k'.nextPipeId = nextPipe)
    (hheld : ∀ i < maxPipes, (pipes i).used = true → ∀ a ∈ (pipes i).semIds, V' a ≠ none)
    (hmutex : ∀ i < maxPipes, (pipes i).used = true →
      ∃ v, 0 < v ∧ V' (pipes i).mutex = some ⟨v, []⟩) : Tables k' := by
  subst hpipes hnext
  refine { T with
    table := h'.table
    nextSemPos := h'.next
    held := fun i hi hu a ha => ?_
    mutex := fun i hi hu => ?_ }
  · obtain ⟨s, hs⟩ := Option.ne_none_iff_exists'.mp (hheld i hi hu a ha)
    exact h'.present a s hs
  · obtain ⟨v, hpos, hv⟩ := hmutex i hi hu
    obtain ⟨j, hj⟩ := h'.get hv
    refine ⟨j, hj.bound, hj.id_eq, hj.used, ?_, hj.queue.head_eq_null.mpr rfl⟩
    rw [hj.value]
    exact hpos

/-- Changing one semaphore that is no mutex of a pipe. -/
theorem Sound.tables_update (h : Sound k V) {t : CountingSemaphore ℕ} {a : ℕ} {P : ℕ → Pipe}
    (T : PipeTable P k.nextPipeId k.semaphores k.nextSemId)
    (hP : ∀ i < maxPipes, (P i).used = (k.pipes i).used ∧ (P i).semIds = (k.pipes i).semIds ∧
      (P i).mutex = (k.pipes i).mutex)
    (h' : Represents k' (update V a (some t))) (hpipes : k'.pipes = P)
    (hnext : k'.nextPipeId = k.nextPipeId)
    (hmutex : ∀ i < maxPipes, (k.pipes i).used = true → (k.pipes i).mutex ≠ a) : Tables k' := by
  refine T.of_sems h' hpipes hnext (fun i hi hu b hb => ?_) fun i hi hu => ?_
  · by_cases hba : b = a
    · rw [hba, Function.update_self]
      simp
    · rw [Function.update_of_ne hba]
      obtain ⟨husame, hsems, -⟩ := hP i hi
      obtain ⟨s, hs⟩ := h.held (pipeSem_iff.mpr ⟨i, hi, husame ▸ hu, hsems ▸ hb⟩)
      simp [hs]
  · obtain ⟨husame, -, hm⟩ := hP i hi
    rw [hm, Function.update_of_ne (hmutex i hi (husame ▸ hu))]
    exact h.mutex hi (husame ▸ hu)

end Soundness

section Lock

/-- The part of a call that holds the mutex of a pipe and changes only the table of pipes. -/
theorem Sound.lock (h : Sound k V) (hcur : k.current ≠ 0) (hi : i < maxPipes)
    (hu : (k.pipes i).used = true) :
    ∃ j w, semWaitStart k (k.pipes i).mutex = (setSemValue k j w, .taken) ∧
      ∀ P k₁, semSignal { setSemValue k j w with pipes := P } (k.pipes i).mutex = some k₁ →
        Represents k₁ V ∧ Aside { k with pipes := P } k₁ ∧ k₁.state = k.state := by
  obtain ⟨v, hpos, hv⟩ := h.mutex hi hu
  obtain ⟨j, hwait, htaken⟩ := h.sems.take hv hcur hpos
  refine ⟨j, v - 1, hwait, fun P k₁ hsig => ?_⟩
  have hheld : Represents { setSemValue k j (v - 1) with pipes := P }
      (update V (k.pipes i).mutex (some ⟨v - 1, []⟩)) :=
    htaken.congr rfl rfl rfl rfl rfl fun _ _ _ _ _ => rfl
  obtain ⟨hrep, haside, hstate⟩ := hheld.signal hsig
  have hself : update V (k.pipes i).mutex (some ⟨v - 1, []⟩) (k.pipes i).mutex =
      some (⟨v - 1, []⟩ : CountingSemaphore ℕ) := Function.update_self _ _ _
  have hback : Sems.signal (update V (k.pipes i).mutex (some ⟨v - 1, []⟩)) (k.pipes i).mutex = V := by
    rw [Sems.signal_of_some hself, CountingSemaphore.signal_of_nil rfl, Function.update_idem,
      show (⟨v - 1 + 1, []⟩ : CountingSemaphore ℕ) = ⟨v, []⟩ by rw [sub_add_cancel], ← hv,
      Function.update_eq_self]
  rw [hback] at hrep
  refine ⟨hrep, ⟨⟨haside.fdType, haside.fdPipe, haside.allocated, haside.current⟩,
    ⟨haside.pipes, haside.nextPipeId, haside.nextSemId⟩, haside.idleP⟩, ?_⟩
  rw [hstate, Sems.first_of_some hself]
  exact setAll_nil _ _

/-- Changing a pipe under its mutex. -/
theorem Sound.unlock (h : Sound k V) {q : Pipe}
    (hsame : q.id = (k.pipes i).id ∧ q.used = (k.pipes i).used ∧ q.semIds = (k.pipes i).semIds ∧
      q.mutex = (k.pipes i).mutex) (hrep : Represents k₁ V) (haside : Aside (setPipe k i q) k₁)
    (hstate : k₁.state = k.state) : Sound k₁ V := by
  obtain ⟨hid, hused, hsems, hmutex⟩ := hsame
  have hpipes : k₁.pipes = update k.pipes i q := haside.pipes
  have hfields : ∀ j, (k₁.pipes j).used = (k.pipes j).used ∧ (k₁.pipes j).semIds = (k.pipes j).semIds ∧
      (k₁.pipes j).mutex = (k.pipes j).mutex := by
    intro j
    rw [hpipes]
    by_cases hji : j = i
    · rw [hji, Function.update_self]
      exact ⟨hused, hsems, hmutex⟩
    · rw [Function.update_of_ne hji]
      exact ⟨rfl, rfl, rfl⟩
  refine ⟨hrep, ?_, fun j hj hunused => ?_, ?_, ?_⟩
  · refine (h.tables.modify (i := i) q hid hused hsems hmutex).of_sems hrep hpipes haside.nextPipeId
      (fun j hj hu a ha => ?_) fun j hj hu => ?_
    · rw [← hpipes] at hu ha
      obtain ⟨hused', hsems', -⟩ := hfields j
      obtain ⟨s, hs⟩ := h.held (pipeSem_iff.mpr ⟨j, hj, hused' ▸ hu, hsems' ▸ ha⟩)
      simp [hs]
    · rw [← hpipes] at hu ⊢
      obtain ⟨hused', -, hmutex'⟩ := hfields j
      rw [hmutex']
      exact h.mutex hj (hused' ▸ hu)
  · obtain ⟨hused', -, hmutex'⟩ := hfields j
    rw [hmutex']
    exact h.vacant j hj (hused' ▸ hunused)
  · intro a s hs
    rw [haside.current]
    exact h.away a s hs
  · rw [hstate]
    exact h.alive

/-- `sem_signal_by_id` on any semaphore. -/
theorem Sound.signal (h : Sound k V) {a : ℕ} (hsig : semSignal k a = some k') :
    Sound k' (V.signal a) ∧ Aside k k' ∧ k'.state = setAll (V.first a) .ready k.state := by
  obtain ⟨hrep, haside, hstate⟩ := h.sems.signal hsig
  refine ⟨⟨hrep, ?_, ?_, h.away.signal haside.current, fun p => ?_⟩, haside, hstate⟩
  · refine h.tables.of_sems hrep haside.pipes haside.nextPipeId (fun i hi hu b hb => ?_) fun i hi hu => ?_
    · obtain ⟨s, hs⟩ := h.held (pipeSem_iff.mpr ⟨i, hi, hu, hb⟩)
      by_cases hba : b = a
      · subst hba
        rw [Sems.signal_of_some hs, Function.update_self]
        simp
      · rw [Sems.signal, Function.update_of_ne hba]
        simp [hs]
    · obtain ⟨v, hpos, hv⟩ := h.mutex hi hu
      by_cases hma : (k.pipes i).mutex = a
      · rw [hma] at hv ⊢
        refine ⟨v + 1, by omega, ?_⟩
        rw [Sems.signal_of_some hv, Function.update_self, CountingSemaphore.signal_of_nil rfl]
      · rw [Sems.signal, Function.update_of_ne hma]
        exact ⟨v, hpos, hv⟩
  · rw [haside.pipes]
    exact h.vacant
  · rw [hstate]
    by_cases hp : p ∈ V.first a
    · rw [setAll_of_mem _ _ hp]
      simp
    · rw [setAll_of_not_mem _ _ hp]
      exact h.alive p

/-- Taking a token of a semaphore that is no mutex of a pipe. -/
theorem Sound.take (h : Sound k V) {a : ℕ} (hs : V a = some s) (hcur : k.current ≠ 0)
    (hpos : 0 < s.value) (hmutex : ∀ i < maxPipes, (k.pipes i).used = true → (k.pipes i).mutex ≠ a) :
    ∃ j, semWaitStart k a = (setSemValue k j (s.value - 1), .taken) ∧
      Sound (setSemValue k j (s.value - 1)) (update V a (some s.take)) := by
  obtain ⟨j, hwait, hrep⟩ := h.sems.take hs hcur hpos
  refine ⟨j, hwait, hrep, h.tables_update h.tables (fun _ _ => ⟨rfl, rfl, rfl⟩) hrep rfl rfl hmutex,
    h.vacant, fun b t ht => ?_, h.alive⟩
  by_cases hba : b = a
  · rw [hba, Function.update_self, Option.some_inj] at ht
    rw [← ht]
    exact h.away a s hs
  · rw [Function.update_of_ne hba] at ht
    exact h.away b t ht

/-- What holds of a caller that is in a wait queue and was blocked. -/
structure Queued (k : Kernel) (V : Sems) (a : ℕ) (s : CountingSemaphore ℕ) (k₁ : Kernel) : Prop where
  entry : V a = some s
  empty : ¬0 < s.value
  aside : Aside k (schedulerBlockCurrent k₁)
  represents : Represents (schedulerBlockCurrent k₁) (update V a (some (s.enqueue k.current)))
  tables : Tables (schedulerBlockCurrent k₁)
  state : (schedulerBlockCurrent k₁).state = update k.state k.current .blocked

theorem Sound.enqueue (h : Sound k V) (hc : Caller k) {a : ℕ} (hs : V a = some s)
    (hzero : ¬0 < s.value) (hmutex : ∀ i < maxPipes, (k.pipes i).used = true → (k.pipes i).mutex ≠ a) :
    (semWaitStart k a).2 = .queued ∧ Queued k V a s (semWaitStart k a).1 := by
  obtain ⟨hqueued, haside, hrep, hstate⟩ := h.sems.enqueue h.away hs hc.1 hc.2 hzero
  exact ⟨hqueued, hs, hzero, haside, hrep,
    h.tables_update h.tables (fun _ _ => ⟨rfl, rfl, rfl⟩) hrep haside.pipes haside.nextPipeId hmutex,
    hstate⟩

end Lock

section Turns

/-- A semaphore of a pipe in use that is not its mutex is no mutex of any pipe. -/
theorem Sound.not_mutex (h : Sound k V) (hi : i < maxPipes) (hu : (k.pipes i).used = true) {a : ℕ}
    (ha : a = (k.pipes i).semItems ∨ a = (k.pipes i).semSpaces) {j : ℕ} (hj : j < maxPipes)
    (huj : (k.pipes j).used = true) : (k.pipes j).mutex ≠ a := by
  intro he
  have hmem : a ∈ (k.pipes i).semIds := by
    rcases ha with rfl | rfl <;> simp [Pipe.semIds]
  have hij : j = i := h.tables.disjoint j hj i hi huj hu a (he ▸ by simp [Pipe.semIds]) hmem
  have hnodup := h.tables.nodup i hi hu
  rw [hij] at he
  simp only [Pipe.semIds, List.nodup_cons, List.mem_cons, List.not_mem_nil, or_false, not_or,
    List.nodup_nil, not_false_eq_true, and_true] at hnodup
  rcases ha with rfl | rfl
  · exact hnodup.1.2 he.symm
  · exact hnodup.2 he.symm

/-- The pipe after a byte was read. -/
def Pipe.shift (p : Pipe) : Pipe :=
  { p with
    readPos := (p.readPos + 1) % pipeBufferSize
    count := p.count - 1 }

/-- The pipe after a byte was written. -/
def Pipe.push (p : Pipe) (b : UInt8) : Pipe :=
  { p with
    buffer := update p.buffer p.writePos b
    writePos := (p.writePos + 1) % pipeBufferSize
    count := p.count + 1 }

/-- The mutex of a pipe is taken and given back without any other change. -/
theorem Sound.pass (h : Sound k V) (hcur : k.current ≠ 0) (hi : i < maxPipes)
    (hu : (k.pipes i).used = true) :
    ∃ j w, semWaitStart k (k.pipes i).mutex = (setSemValue k j w, .taken) ∧
      (∀ k₁, semSignal (setSemValue k j w) (k.pipes i).mutex = some k₁ →
        Sound k₁ V ∧ Aside k k₁ ∧ k₁.state = k.state) ∧
      ∀ q k₁, q.id = (k.pipes i).id ∧ q.used = (k.pipes i).used ∧ q.semIds = (k.pipes i).semIds ∧
          q.mutex = (k.pipes i).mutex →
        semSignal (setPipe (setSemValue k j w) i q) (k.pipes i).mutex = some k₁ →
        Sound k₁ V ∧ Aside (setPipe k i q) k₁ ∧ k₁.state = k.state := by
  obtain ⟨j, w, hwait, hlock⟩ := h.lock hcur hi hu
  refine ⟨j, w, hwait, fun k₁ hsig => ?_, fun q k₁ hsame hsig => ?_⟩
  · obtain ⟨hrep, haside, hstate⟩ := hlock k.pipes k₁ hsig
    have hsound : Sound k₁ V := by
      refine h.unlock (q := k.pipes i) ⟨rfl, rfl, rfl, rfl⟩ hrep ?_ hstate
      rw [setPipe, Function.update_eq_self]
      exact haside
    exact ⟨hsound, haside, hstate⟩
  · obtain ⟨hrep, haside, hstate⟩ := hlock (update k.pipes i q) k₁ hsig
    exact ⟨h.unlock hsame hrep haside hstate, haside, hstate⟩

/-- How a turn of `pipe_read` ends without blocking. -/
inductive ReadEffect (k : Kernel) (V : Sems) (i n : ℕ) (k' : Kernel) (V' : Sems) : Reply → Prop
  | gone (unused : (k.pipes i).used = false) (kernel : k' = k) (sems : V' = V) :
      ReadEffect k V i n k' V' .ended
  | ended (used : (k.pipes i).used = true) (empty : (k.pipes i).count = 0)
      (why : (k.pipes i).writers = 0 ∨ 0 < n) (aside : Aside k k') (state : k'.state = k.state)
      (sems : V' = V) : ReadEffect k V i n k' V' .ended
  | moved (used : (k.pipes i).used = true) (pos : 0 < (k.pipes i).count)
      (aside : Aside (setPipe k i (k.pipes i).shift) k')
      (state : k'.state = setAll (V.first (k.pipes i).semSpaces) .ready k.state)
      (sems : V' = V.signal (k.pipes i).semSpaces) :
      ReadEffect k V i n k' V' (.moved ((k.pipes i).buffer (k.pipes i).readPos))
  | again (used : (k.pipes i).used = true) (empty : (k.pipes i).count = 0)
      (s : CountingSemaphore ℕ) (entry : V (k.pipes i).semItems = some s) (pos : 0 < s.value)
      (aside : Aside k k') (state : k'.state = k.state)
      (sems : V' = update V (k.pipes i).semItems (some s.take)) : ReadEffect k V i n k' V' .again

/-- How a turn of `pipe_write` ends without blocking. -/
inductive WriteEffect (k : Kernel) (V : Sems) (i : ℕ) (b : UInt8) (k' : Kernel) (V' : Sems) :
    Reply → Prop
  | gone (unused : (k.pipes i).used = false) (kernel : k' = k) (sems : V' = V) :
      WriteEffect k V i b k' V' .ended
  | ended (used : (k.pipes i).used = true) (why : (k.pipes i).readers = 0) (aside : Aside k k')
      (state : k'.state = k.state) (sems : V' = V) : WriteEffect k V i b k' V' .ended
  | moved (used : (k.pipes i).used = true) (readers : (k.pipes i).readers ≠ 0)
      (room : (k.pipes i).count < pipeBufferSize)
      (aside : Aside (setPipe k i ((k.pipes i).push b)) k')
      (state : k'.state = setAll (V.first (k.pipes i).semItems) .ready k.state)
      (sems : V' = V.signal (k.pipes i).semItems) : WriteEffect k V i b k' V' (.moved b)
  | again (used : (k.pipes i).used = true) (readers : (k.pipes i).readers ≠ 0)
      (full : ¬(k.pipes i).count < pipeBufferSize) (s : CountingSemaphore ℕ)
      (entry : V (k.pipes i).semSpaces = some s) (pos : 0 < s.value)
      (aside : Aside k k') (state : k'.state = k.state)
      (sems : V' = update V (k.pipes i).semSpaces (some s.take)) : WriteEffect k V i b k' V' .again

/-- A wait for a semaphore of a pipe behind the mutex. -/
theorem Sound.pipeWait (h : Sound k V) (hc : Caller k) (hi : i < maxPipes)
    (hu : (k.pipes i).used = true) {a : ℕ}
    (ha : a = (k.pipes i).semItems ∨ a = (k.pipes i).semSpaces) :
    ∃ s, V a = some s ∧
      ((0 < s.value ∧ ∃ j, semWaitStart k a = (setSemValue k j (s.value - 1), .taken) ∧
          Sound (setSemValue k j (s.value - 1)) (update V a (some s.take))) ∨
        ∃ k₁, semWaitStart k a = (k₁, .queued) ∧ Queued k V a s k₁) := by
  have hmem : a ∈ (k.pipes i).semIds := by
    rcases ha with rfl | rfl <;> simp [Pipe.semIds]
  obtain ⟨s, hs⟩ := h.held (pipeSem_iff.mpr ⟨i, hi, hu, hmem⟩)
  have hmutex : ∀ j < maxPipes, (k.pipes j).used = true → (k.pipes j).mutex ≠ a :=
    fun j hj huj => h.not_mutex hi hu ha hj huj
  refine ⟨s, hs, ?_⟩
  by_cases hpos : 0 < s.value
  · exact Or.inl ⟨hpos, h.take hs hc.1 hpos hmutex⟩
  · obtain ⟨hqueued, hwaits⟩ := h.enqueue hc hs hpos hmutex
    exact Or.inr ⟨_, Prod.ext rfl hqueued, hwaits⟩

/-- Waiting behind the mutex has nothing to do with the mutex. -/
theorem Queued.of_aside {k₂ : Kernel} {a : ℕ} (haside : Aside k k₂) (hstate : k₂.state = k.state)
    (h : Queued k₂ V a s k₁) : Queued k V a s k₁ := by
  refine ⟨h.entry, h.empty, haside.trans h.aside, ?_, h.tables, ?_⟩
  · rw [← haside.current]
    exact h.represents
  · rw [h.state, hstate, haside.current]

theorem Sound.readTurn {n : ℕ} {r : Reply} (h : Sound k V) (hc : Caller k) (hi : i < maxPipes)
    (hexec : pipeReadTurn k i n = some (k', r)) :
    (r ≠ .blocked ∧ ∃ V', Sound k' V' ∧ ReadEffect k V i n k' V' r) ∨
      r = .blocked ∧ (k.pipes i).used = true ∧ (k.pipes i).count = 0 ∧ (k.pipes i).writers ≠ 0 ∧
        n = 0 ∧ ∃ s, Queued k V (k.pipes i).semItems s k' := by
  unfold pipeReadTurn at hexec
  rcases Bool.eq_false_or_eq_true (k.pipes i).used with hu | hu
  swap
  · have hnone : semWaitStart k (k.pipes i).mutex = (k, .failed) := by
      rw [h.vacant i hi hu]
      rfl
    rw [hnone] at hexec
    simp only [Option.some.injEq, Prod.mk.injEq] at hexec
    obtain ⟨rfl, rfl⟩ := hexec
    exact Or.inl ⟨by simp, V, h, .gone hu rfl rfl⟩
  obtain ⟨j, w, hwait, hpass, hchange⟩ := h.pass hc.1 hi hu
  rw [hwait] at hexec
  dsimp only at hexec
  -- the pipe is at its end
  have hend : (k.pipes i).count = 0 → ((k.pipes i).writers = 0 ∨ 0 < n) →
      ((semSignal (setSemValue k j w) (k.pipes i).mutex).bind fun k => some (k, Reply.ended)) =
        some (k', r) → r ≠ .blocked ∧ ∃ V', Sound k' V' ∧ ReadEffect k V i n k' V' r := by
    intro hcount hwhy heq
    obtain ⟨k₁, hsig, hlast⟩ := Option.bind_eq_some_iff.mp heq
    simp only [Option.some.injEq, Prod.mk.injEq] at hlast
    obtain ⟨rfl, rfl⟩ := hlast
    obtain ⟨hsound, haside, hstate⟩ := hpass k₁ hsig
    exact ⟨by simp, V, hsound, .ended hu hcount hwhy haside hstate rfl⟩
  by_cases hover : (k.pipes i).count = 0 ∧ (k.pipes i).writers = 0
  · rw [if_pos hover] at hexec
    exact Or.inl (hend hover.1 (Or.inl hover.2) hexec)
  rw [if_neg hover] at hexec
  by_cases hcount : 0 < (k.pipes i).count
  · rw [if_pos hcount, Option.bind_eq_bind] at hexec
    obtain ⟨k₁, hsig, hrest⟩ := Option.bind_eq_some_iff.mp hexec
    obtain ⟨k₂, hspace, hlast⟩ := Option.bind_eq_some_iff.mp hrest
    simp only [Option.some.injEq, Prod.mk.injEq] at hlast
    obtain ⟨rfl, rfl⟩ := hlast
    have hsig' : semSignal (setPipe (setSemValue k j w) i (k.pipes i).shift) (k.pipes i).mutex =
        some k₁ := by
      simpa only [setPipe, Function.update_self, Pipe.shift] using hsig
    obtain ⟨hsound, haside, hstate⟩ := hchange (k.pipes i).shift k₁ ⟨rfl, rfl, rfl, rfl⟩ hsig'
    have hspaces : (k₁.pipes i).semSpaces = (k.pipes i).semSpaces := by
      rw [haside.pipes]
      simp only [setPipe, Function.update_self, Pipe.shift]
    rw [hspaces] at hspace
    obtain ⟨hsound', haside', hstate'⟩ := hsound.signal hspace
    refine Or.inl ⟨by simp, _, hsound', .moved hu hcount (haside.trans haside') ?_ rfl⟩
    rw [hstate', hstate]
  rw [if_neg hcount] at hexec
  have hzero : (k.pipes i).count = 0 := Nat.eq_zero_of_not_pos hcount
  have hwriters : (k.pipes i).writers ≠ 0 := fun hw => hover ⟨hzero, hw⟩
  by_cases hn : 0 < n
  · rw [if_pos hn] at hexec
    exact Or.inl (hend hzero (Or.inr hn) hexec)
  rw [if_neg hn, Option.bind_eq_bind] at hexec
  obtain ⟨k₁, hsig, hrest⟩ := Option.bind_eq_some_iff.mp hexec
  obtain ⟨hsound, haside, hstate⟩ := hpass k₁ hsig
  have hpipe : k₁.pipes i = k.pipes i := by rw [haside.pipes]
  have hcaller : Caller k₁ := by
    unfold Caller
    rw [haside.current, haside.idleP]
    exact hc
  obtain ⟨s, hs, ⟨hpos, j', htake, hsound'⟩ | ⟨k₂, hqueue, hqueued⟩⟩ :=
    hsound.pipeWait hcaller hi (hpipe ▸ hu) (Or.inl rfl)
  · rw [htake] at hrest
    simp only [Option.some.injEq, Prod.mk.injEq] at hrest
    obtain ⟨rfl, rfl⟩ := hrest
    rw [hpipe] at hs hsound'
    refine Or.inl ⟨by simp, _, hsound', .again hu hzero s hs hpos (haside.trans ?_) hstate rfl⟩
    exact ⟨⟨rfl, rfl, rfl, rfl⟩, ⟨rfl, rfl, rfl⟩, rfl⟩
  · rw [hqueue] at hrest
    simp only [Option.some.injEq, Prod.mk.injEq] at hrest
    obtain ⟨rfl, rfl⟩ := hrest
    rw [hpipe] at hqueued
    exact Or.inr ⟨rfl, hu, hzero, hwriters, Nat.eq_zero_of_not_pos hn, s,
      hqueued.of_aside haside hstate⟩

theorem Sound.writeTurn {b : UInt8} {r : Reply} (h : Sound k V) (hc : Caller k) (hi : i < maxPipes)
    (hexec : pipeWriteTurn k i b = some (k', r)) :
    (r ≠ .blocked ∧ ∃ V', Sound k' V' ∧ WriteEffect k V i b k' V' r) ∨
      r = .blocked ∧ (k.pipes i).used = true ∧ (k.pipes i).readers ≠ 0 ∧
        ¬(k.pipes i).count < pipeBufferSize ∧ ∃ s, Queued k V (k.pipes i).semSpaces s k' := by
  unfold pipeWriteTurn at hexec
  rcases Bool.eq_false_or_eq_true (k.pipes i).used with hu | hu
  swap
  · have hnone : semWaitStart k (k.pipes i).mutex = (k, .failed) := by
      rw [h.vacant i hi hu]
      rfl
    rw [hnone] at hexec
    simp only [Option.some.injEq, Prod.mk.injEq] at hexec
    obtain ⟨rfl, rfl⟩ := hexec
    exact Or.inl ⟨by simp, V, h, .gone hu rfl rfl⟩
  obtain ⟨j, w, hwait, hpass, hchange⟩ := h.pass hc.1 hi hu
  rw [hwait] at hexec
  dsimp only at hexec
  by_cases hreaders : (k.pipes i).readers = 0
  · rw [if_pos hreaders, Option.bind_eq_bind] at hexec
    obtain ⟨k₁, hsig, hlast⟩ := Option.bind_eq_some_iff.mp hexec
    simp only [Option.some.injEq, Prod.mk.injEq] at hlast
    obtain ⟨rfl, rfl⟩ := hlast
    obtain ⟨hsound, haside, hstate⟩ := hpass k₁ hsig
    exact Or.inl ⟨by simp, V, hsound, .ended hu hreaders haside hstate rfl⟩
  rw [if_neg hreaders] at hexec
  by_cases hroom : (k.pipes i).count < pipeBufferSize
  · rw [if_pos hroom, Option.bind_eq_bind] at hexec
    obtain ⟨k₁, hsig, hrest⟩ := Option.bind_eq_some_iff.mp hexec
    obtain ⟨k₂, hitem, hlast⟩ := Option.bind_eq_some_iff.mp hrest
    simp only [Option.some.injEq, Prod.mk.injEq] at hlast
    obtain ⟨rfl, rfl⟩ := hlast
    have hsig' : semSignal (setPipe (setSemValue k j w) i ((k.pipes i).push b)) (k.pipes i).mutex =
        some k₁ := by
      simpa only [setPipe, Function.update_self, Pipe.push] using hsig
    obtain ⟨hsound, haside, hstate⟩ :=
      hchange ((k.pipes i).push b) k₁ ⟨rfl, rfl, rfl, rfl⟩ hsig'
    have hitems : (k₁.pipes i).semItems = (k.pipes i).semItems := by
      rw [haside.pipes]
      simp only [setPipe, Function.update_self, Pipe.push]
    rw [hitems] at hitem
    obtain ⟨hsound', haside', hstate'⟩ := hsound.signal hitem
    refine Or.inl ⟨by simp, _, hsound', .moved hu hreaders hroom (haside.trans haside') ?_ rfl⟩
    rw [hstate', hstate]
  rw [if_neg hroom, Option.bind_eq_bind] at hexec
  obtain ⟨k₁, hsig, hrest⟩ := Option.bind_eq_some_iff.mp hexec
  obtain ⟨hsound, haside, hstate⟩ := hpass k₁ hsig
  have hpipe : k₁.pipes i = k.pipes i := by rw [haside.pipes]
  have hcaller : Caller k₁ := by
    unfold Caller
    rw [haside.current, haside.idleP]
    exact hc
  obtain ⟨s, hs, ⟨hpos, j', htake, hsound'⟩ | ⟨k₂, hqueue, hqueued⟩⟩ :=
    hsound.pipeWait hcaller hi (hpipe ▸ hu) (Or.inr rfl)
  · rw [htake] at hrest
    simp only [Option.some.injEq, Prod.mk.injEq] at hrest
    obtain ⟨rfl, rfl⟩ := hrest
    rw [hpipe] at hs hsound'
    refine Or.inl ⟨by simp, _, hsound', .again hu hreaders hroom s hs hpos (haside.trans ?_) hstate rfl⟩
    exact ⟨⟨rfl, rfl, rfl, rfl⟩, ⟨rfl, rfl, rfl⟩, rfl⟩
  · rw [hqueue] at hrest
    simp only [Option.some.injEq, Prod.mk.injEq] at hrest
    obtain ⟨rfl, rfl⟩ := hrest
    rw [hpipe] at hqueued
    exact Or.inr ⟨rfl, hu, hreaders, hroom, s, hqueued.of_aside haside hstate⟩

end Turns

section Ends

/-- Semaphores that were added have no waiting process. -/
structure Grown (V V' : Sems) : Prop where
  old : ∀ a s, V a = some s → V' a = some s
  new : ∀ a s, V' a = some s → V a = some s ∨ s.queue = []

theorem Grown.refl (V : Sems) : Grown V V := ⟨fun _ _ h => h, fun _ _ h => Or.inl h⟩

theorem Grown.trans {V'' : Sems} (h : Grown V V') (h' : Grown V' V'') : Grown V V'' := by
  refine ⟨fun a s hs => h'.old a s (h.old a s hs), fun a s hs => ?_⟩
  rcases h'.new a s hs with hs' | hq
  · exact h.new a s hs'
  · exact Or.inr hq

theorem Grown.update {a : ℕ} {v : ℤ} (ha : V a = none) : Grown V (update V a (some ⟨v, []⟩)) := by
  refine ⟨fun b s hs => ?_, fun b s hs => ?_⟩
  · have hne : b ≠ a := by
      rintro rfl
      rw [ha] at hs
      cases hs
    rw [Function.update_of_ne hne]
    exact hs
  · by_cases hba : b = a
    · rw [hba, Function.update_self, Option.some_inj] at hs
      exact Or.inr (by rw [← hs])
    · rw [Function.update_of_ne hba] at hs
      exact Or.inl hs

/-- Some of the listed semaphores are gone, the others are as before. -/
def Dropped (X : List ℕ) (V V' : Sems) : Prop :=
  (∀ a, a ∉ X → V' a = V a) ∧ ∀ a ∈ X, V' a = V a ∨ V' a = none

theorem Dropped.some {X : List ℕ} (h : Dropped X V V') {a : ℕ} (hs : V' a = some s) : V a = some s := by
  by_cases ha : a ∈ X
  · rcases h.2 a ha with he | he
    · exact he ▸ hs
    · rw [he] at hs
      cases hs
  · exact h.1 a ha ▸ hs

theorem Represents.closeAt (h : Represents k V) (id : ℕ) :
    ∃ V', Represents (semCloseById k id).2 V' ∧ Dropped [id] V V' := by
  have hsame : Dropped [id] V V := ⟨fun _ _ => rfl, fun _ _ => Or.inl rfl⟩
  obtain ⟨-, ⟨-, heq⟩ | ⟨i, -, ⟨-, hrep⟩ | ⟨-, hrep⟩⟩⟩ := h.close id
  · exact ⟨V, by rw [heq]; exact h, hsame⟩
  · exact ⟨V, hrep, hsame⟩
  · refine ⟨_, hrep, fun a ha => ?_, fun a ha => ?_⟩
    · rw [Function.update_of_ne fun he => ha (List.mem_singleton.mpr he)]
    · rw [List.mem_singleton.mp ha, Function.update_self]
      exact Or.inr rfl

theorem Dropped.trans {X Y : List ℕ} {V'' : Sems} (h : Dropped X V V') (h' : Dropped Y V' V'') :
    Dropped (X ++ Y) V V'' := by
  refine ⟨fun a ha => ?_, fun a _ => ?_⟩
  · rw [List.mem_append, not_or] at ha
    rw [h'.1 a ha.2, h.1 a ha.1]
  · have hmid : V' a = V a ∨ V' a = none := by
      by_cases hX : a ∈ X
      · exact h.2 a hX
      · exact Or.inl (h.1 a hX)
    have hend : V'' a = V' a ∨ V'' a = none := by
      by_cases hY : a ∈ Y
      · exact h'.2 a hY
      · exact Or.inl (h'.1 a hY)
    rcases hend with he | he
    · rw [he]
      exact hmid
    · exact Or.inr he

theorem mutexWait_of_taken {a : ℕ} (h : semWaitStart k a = (k', .taken)) :
    mutexWait k a = some k' := by
  rw [mutexWait, h]

theorem Sound.pipeOpen {isWriter : Bool} {r : ℕ} (h : Sound k V) (hcur : k.current ≠ 0)
    (hexec : pipeOpenById k id isWriter = some (r, k')) :
    (pipeGetById k id = none ∧ r = 0 ∧ k' = k) ∨
      ∃ i, pipeGetById k id = some i ∧ r = 1 ∧ Sound k' V ∧
        Aside (setPipe k i ((k.pipes i).opened isWriter)) k' ∧ k'.state = k.state := by
  unfold pipeOpenById at hexec
  cases hget : pipeGetById k id with
  | none =>
      simp only [hget, Option.some.injEq, Prod.mk.injEq] at hexec
      exact Or.inl ⟨rfl, hexec.1.symm, hexec.2.symm⟩
  | some i =>
      obtain ⟨hi, hu, -⟩ := pipeGetById_mem hget
      obtain ⟨j, w, hwait, -, hchange⟩ := h.pass hcur hi hu
      obtain ⟨hid, hused, hsems, hmutex⟩ := (k.pipes i).opened_same isWriter
      simp only [hget, mutexWait_of_taken hwait, Option.bind_eq_bind, Option.bind_some] at hexec
      obtain ⟨k₁, hsig, hlast⟩ := Option.bind_eq_some_iff.mp hexec
      simp only [Option.some.injEq, Prod.mk.injEq] at hlast
      obtain ⟨rfl, rfl⟩ := hlast
      have hopened : (if isWriter then
          { k.pipes i with writers := (k.pipes i).writers + 1 }
          else { k.pipes i with readers := (k.pipes i).readers + 1 }) =
            (k.pipes i).opened isWriter := rfl
      have hentry : (setPipe (setSemValue k j w) i ((k.pipes i).opened isWriter)).pipes i =
          (k.pipes i).opened isWriter := by
        simp only [setPipe, Function.update_self]
      rw [hopened, hentry, hmutex] at hsig
      obtain ⟨hsound, haside, hstate⟩ := hchange _ k₁ ⟨hid, hused, hsems, hmutex⟩ hsig
      exact Or.inr ⟨i, rfl, rfl, hsound, haside, hstate⟩

/-- The loop of `pipe_close_by_id` that wakes readers. -/
theorem Represents.signalReaders {n : ℕ} {a : ℕ} (h : Represents k V)
    (ha : (k.pipes i).semItems = a) (hs : V a = some s)
    (hexec : SoKernel.signalReaders i n k = some k') :
    Represents k' (update V a (some (CountingSemaphore.signal^[n] s))) ∧ Aside k k' ∧
      k'.state = setAll (s.queue.take n) .ready k.state := by
  induction n generalizing k V s with
  | zero =>
      cases hexec
      rw [Function.iterate_zero_apply, ← hs, Function.update_eq_self, List.take_zero, setAll_nil]
      exact ⟨h, .refl _, rfl⟩
  | succ n ih =>
      rw [SoKernel.signalReaders, Option.bind_eq_bind] at hexec
      obtain ⟨k₁, hsig, hrest⟩ := Option.bind_eq_some_iff.mp hexec
      rw [ha] at hsig
      obtain ⟨hrep, haside, hstate⟩ := h.signal hsig
      rw [Sems.signal_of_some hs] at hrep
      obtain ⟨hrep', haside', hstate'⟩ := ih hrep (by rw [haside.pipes]; exact ha)
        (Function.update_self _ _ _) hrest
      rw [Function.update_idem, ← Function.iterate_succ_apply] at hrep'
      refine ⟨hrep', haside.trans haside', ?_⟩
      rw [hstate', hstate, Sems.first_of_some hs]
      cases hq : s.queue with
      | nil => rw [CountingSemaphore.signal_of_nil hq, List.take_nil, List.take_nil, List.take_nil,
          setAll_nil, setAll_nil]
      | cons x q =>
          rw [CountingSemaphore.signal_of_cons hq, List.take_succ_cons, List.take_zero, List.take_succ_cons,
            setAll_cons, setAll_cons, setAll_nil]

/-- The number of readers that the last writer wakes. -/
def wakeCount (p : Pipe) (isWriter : Bool) : ℕ :=
  if isWriter = true ∧ 0 < p.writers ∧ p.writers - 1 = 0 then
    min (p.closed isWriter).readers.toNat 100 else 0

/-- How `pipe_close_by_id` ends. -/
inductive CloseEffect (k : Kernel) (V : Sems) (id : ℕ) (isWriter : Bool) (k' : Kernel) (V' : Sems) :
    Prop
  | missing (none : pipeGetById k id = none) (kernel : k' = k) (sems : V' = V)
  | closed (i : ℕ) (s : CountingSemaphore ℕ) (found : pipeGetById k id = some i)
      (entry : V (k.pipes i).semItems = some s)
      (live : ¬(((k.pipes i).closed isWriter).readers = 0 ∧ ((k.pipes i).closed isWriter).writers = 0))
      (aside : Aside (setPipe k i ((k.pipes i).closed isWriter)) k')
      (state : k'.state = setAll (s.queue.take (wakeCount (k.pipes i) isWriter)) .ready k.state)
      (sems : V' = update V (k.pipes i).semItems
        (some (CountingSemaphore.signal^[wakeCount (k.pipes i) isWriter] s)))
  | destroyed (i : ℕ) (found : pipeGetById k id = some i)
      (dead : ((k.pipes i).closed isWriter).readers = 0 ∧ ((k.pipes i).closed isWriter).writers = 0)
      (aside : Aside (setPipe k i ((k.pipes i).closed isWriter).destroyed) k')
      (state : k'.state = k.state) (sems : Dropped (k.pipes i).semIds V V')

/-- Closing an end of a pipe that stays in use. -/
theorem Sound.closeLive {isWriter : Bool} (h : Sound k V) (hcur : k.current ≠ 0)
    (hi : i < maxPipes) (hu : (k.pipes i).used = true) {j n : ℕ} {w : ℤ} {k₂ : Kernel}
    (hwait : semWaitStart k (k.pipes i).mutex = (setSemValue k j w, .taken))
    (hwake : signalReaders i n (setPipe (setSemValue k j w) i ((k.pipes i).closed isWriter)) = some k₂)
    (hsig : semSignal k₂ (k.pipes i).mutex = some k') :
    ∃ s, V (k.pipes i).semItems = some s ∧
      Represents k' (update V (k.pipes i).semItems (some (CountingSemaphore.signal^[n] s))) ∧
      Aside (setPipe k i ((k.pipes i).closed isWriter)) k' ∧
      k'.state = setAll (s.queue.take n) .ready k.state := by
  obtain ⟨v, hpos, hv⟩ := h.mutex hi hu
  obtain ⟨j', htake, hrep⟩ := h.sems.take hv hcur hpos
  obtain ⟨heq, -⟩ := Prod.mk.inj (htake.symm.trans hwait)
  rw [heq] at hrep
  obtain ⟨s, hs⟩ := h.held (pipeSem_iff.mpr ⟨i, hi, hu, List.mem_cons_self⟩)
  have hne : (k.pipes i).semItems ≠ (k.pipes i).mutex :=
    Ne.symm (h.not_mutex hi hu (Or.inl rfl) hi hu)
  have hheld : Represents (setPipe (setSemValue k j w) i ((k.pipes i).closed isWriter))
      (update V (k.pipes i).mutex (some ⟨v - 1, []⟩)) :=
    hrep.congr rfl rfl rfl rfl rfl fun _ _ _ _ _ => rfl
  have hitems : ((setPipe (setSemValue k j w) i ((k.pipes i).closed isWriter)).pipes i).semItems =
      (k.pipes i).semItems := by
    simp only [setPipe, Function.update_self]
    exact (List.cons.inj ((k.pipes i).closed_same isWriter).2.2.1).1
  obtain ⟨hrep₂, haside₂, hstate₂⟩ := hheld.signalReaders hitems
    (by rw [Function.update_of_ne hne]; exact hs) hwake
  obtain ⟨hrep₃, haside₃, hstate₃⟩ := hrep₂.signal hsig
  have hmutex : update (update V (k.pipes i).mutex (some ⟨v - 1, []⟩)) (k.pipes i).semItems
      (some (CountingSemaphore.signal^[n] s)) (k.pipes i).mutex = some ⟨v - 1, []⟩ := by
    rw [Function.update_of_ne (Ne.symm hne), Function.update_self]
  have hback : Sems.signal (update (update V (k.pipes i).mutex (some ⟨v - 1, []⟩)) (k.pipes i).semItems
      (some (CountingSemaphore.signal^[n] s))) (k.pipes i).mutex =
      update V (k.pipes i).semItems (some (CountingSemaphore.signal^[n] s)) := by
    rw [Sems.signal_of_some hmutex, CountingSemaphore.signal_of_nil rfl,
      show (⟨v - 1 + 1, []⟩ : CountingSemaphore ℕ) = ⟨v, []⟩ by rw [sub_add_cancel], ← hv,
      Function.update_comm hne, Function.update_idem, Function.update_eq_self]
  rw [hback] at hrep₃
  have hall := haside₂.trans haside₃
  refine ⟨s, hs, hrep₃, ⟨⟨hall.fdType, hall.fdPipe, hall.allocated, hall.current⟩,
    ⟨hall.pipes, hall.nextPipeId, hall.nextSemId⟩, hall.idleP⟩, ?_⟩
  rw [hstate₃, hstate₂, Sems.first_of_some hmutex]
  exact setAll_nil _ _

/-- Destroying a pipe. -/
theorem Sound.closeDead (h : Sound k V) (hcur : k.current ≠ 0) (hi : i < maxPipes)
    (hu : (k.pipes i).used = true) {P : ℕ → Pipe} {j : ℕ} {w : ℤ}
    (hwait : semWaitStart k (k.pipes i).mutex = (setSemValue k j w, .taken))
    (hsig : semSignal { setSemValue k j w with pipes := P } (k.pipes i).mutex = some k₁) (a b c : ℕ) :
    ∃ V', Represents (semCloseById (semCloseById (semCloseById k₁ a).2 b).2 c).2 V' ∧
      Dropped [a, b, c] V V' ∧
      Aside { k with pipes := P } (semCloseById (semCloseById (semCloseById k₁ a).2 b).2 c).2 ∧
      (semCloseById (semCloseById (semCloseById k₁ a).2 b).2 c).2.state = k.state := by
  obtain ⟨j', w', hwait', hlock⟩ := h.lock hcur hi hu
  obtain ⟨heq, -⟩ := Prod.mk.inj (hwait'.symm.trans hwait)
  have hsig' : semSignal { setSemValue k j' w' with pipes := P } (k.pipes i).mutex = some k₁ := by
    rw [heq]
    exact hsig
  obtain ⟨hrep, haside, hstate⟩ := hlock P k₁ hsig'
  obtain ⟨V₁, hrep₁, hdrop₁⟩ := hrep.closeAt a
  obtain ⟨V₂, hrep₂, hdrop₂⟩ := hrep₁.closeAt b
  obtain ⟨V₃, hrep₃, hdrop₃⟩ := hrep₂.closeAt c
  obtain ⟨sems, hclose, -⟩ := closeSems_kept k₁ a b c
  refine ⟨V₃, hrep₃, (hdrop₁.trans hdrop₂).trans hdrop₃, ?_, ?_⟩
  · rw [hclose]
    exact ⟨⟨haside.fdType, haside.fdPipe, haside.allocated, haside.current⟩,
      ⟨haside.pipes, haside.nextPipeId, haside.nextSemId⟩, haside.idleP⟩
  · rw [hclose]
    exact hstate

theorem Sound.pipeClose {isWriter : Bool} {r : ℕ} (h : Sound k V) (hcur : k.current ≠ 0)
    (hexec : pipeCloseById k id isWriter = some (r, k')) :
    ∃ V', Sound k' V' ∧ CloseEffect k V id isWriter k' V' := by
  obtain ⟨htables, -, -⟩ := pipeCloseById_spec h.tables hexec
  unfold pipeCloseById at hexec
  cases hget : pipeGetById k id with
  | none =>
      simp only [hget, Option.some.injEq, Prod.mk.injEq] at hexec
      obtain ⟨-, rfl⟩ := hexec
      exact ⟨V, h, .missing hget rfl rfl⟩
  | some i =>
      obtain ⟨hi, hu, -⟩ := pipeGetById_mem hget
      obtain ⟨j, w, hwait, -, -⟩ := h.pass hcur hi hu
      obtain ⟨hid, hused, hsems, hmutex⟩ := (k.pipes i).closed_same isWriter
      have hclosed : (if isWriter then
          if 0 < (k.pipes i).writers then { k.pipes i with writers := (k.pipes i).writers - 1 }
          else k.pipes i
        else if 0 < (k.pipes i).readers then { k.pipes i with readers := (k.pipes i).readers - 1 }
          else k.pipes i) = (k.pipes i).closed isWriter := rfl
      simp only [hget, mutexWait_of_taken hwait, Option.bind_eq_bind, Option.bind_some] at hexec
      rw [hclosed] at hexec
      by_cases hdead : ((k.pipes i).closed isWriter).readers = 0 ∧
          ((k.pipes i).closed isWriter).writers = 0
      · rw [if_pos hdead] at hexec
        obtain ⟨k₁, hsig, hlast⟩ := Option.bind_eq_some_iff.mp hexec
        simp only [Option.some.injEq, Prod.mk.injEq] at hlast
        obtain ⟨-, hlast⟩ := hlast
        rw [hmutex] at hsig
        obtain ⟨V', hrep, hdrop, haside, hstate⟩ := h.closeDead hcur hi hu hwait hsig
          ((k.pipes i).closed isWriter).semItems ((k.pipes i).closed isWriter).semSpaces
          (k.pipes i).mutex
        rw [← hmutex] at hrep hdrop haside hstate
        rw [hlast] at hrep haside hstate
        simp only [setPipe, Function.update_idem] at haside
        have hdrop' : Dropped (k.pipes i).semIds V V' := by
          rw [← hsems]
          exact hdrop
        refine ⟨V', ⟨hrep, htables, fun l hl hunused => ?_, fun a s hs => ?_, ?_⟩,
          .destroyed i hget hdead haside hstate hdrop'⟩
        · have hpipes := haside.pipes
          dsimp only at hpipes
          rw [hpipes] at hunused ⊢
          by_cases hli : l = i
          · rw [hli, Function.update_self]
          · rw [Function.update_of_ne hli] at hunused ⊢
            exact h.vacant l hl hunused
        · rw [haside.current]
          exact h.away a s (hdrop'.some hs)
        · rw [hstate]
          exact h.alive
      · rw [if_neg hdead] at hexec
        obtain ⟨k₂, hwake, hrest⟩ := Option.bind_eq_some_iff.mp hexec
        obtain ⟨k₃, hsig, hlast⟩ := Option.bind_eq_some_iff.mp hrest
        simp only [Option.some.injEq, Prod.mk.injEq] at hlast
        obtain ⟨-, rfl⟩ := hlast
        have hwake' : signalReaders i (wakeCount (k.pipes i) isWriter)
            (setPipe (setSemValue k j w) i ((k.pipes i).closed isWriter)) = some k₂ := by
          rw [← hwake, wakeCount]
          simp only [Bool.and_eq_true, decide_eq_true_eq, and_assoc]
          split <;> rfl
        have hpipe₂ : (k₂.pipes i).mutex = (k.pipes i).mutex := by
          rw [(signalReaders_kept hwake').2.2.pipes]
          simp only [setPipe, Function.update_self]
          exact hmutex
        rw [hpipe₂] at hsig
        obtain ⟨s, hs, hrep, haside, hstate⟩ := h.closeLive hcur hi hu hwait hwake' hsig
        refine ⟨_, ⟨hrep, htables, fun l hl hunused => ?_, fun a t ht => ?_, ?_⟩,
          .closed i s hget hs hdead haside hstate rfl⟩
        · have hpipes := haside.pipes
          dsimp only [setPipe] at hpipes
          rw [hpipes] at hunused ⊢
          by_cases hli : l = i
          · rw [hli, Function.update_self] at hunused ⊢
            rw [hused, hu] at hunused
            cases hunused
          · rw [Function.update_of_ne hli] at hunused ⊢
            exact h.vacant l hl hunused
        · rw [haside.current]
          by_cases ha : a = (k.pipes i).semItems
          · rw [ha, Function.update_self, Option.some_inj] at ht
            rw [← ht, CountingSemaphore.signal_iterate_queue]
            exact fun hm => h.away _ s hs (List.mem_of_mem_drop hm)
          · rw [Function.update_of_ne ha] at ht
            exact h.away a t ht
        · rw [hstate]
          exact fun p hs => h.alive p (of_setAll_ready hs)

/-- A new pipe with semaphores of its own, whose queues are empty. -/
structure Fresh (k : Kernel) (V V' : Sems) (i : ℕ) (q : Pipe) : Prop where
  bound : i < maxPipes
  free : (k.pipes i).used = false
  used : q.used = true
  id_eq : q.id = k.nextPipeId
  ends : q.readers = 0 ∧ q.writers = 0
  contents : q.readPos = 0 ∧ q.writePos = 0 ∧ q.count = 0
  unknown : V q.semItems = none ∧ V q.semSpaces = none
  empty : V' q.semItems = some ⟨0, []⟩ ∧ V' q.semSpaces = some ⟨pipeBufferSize, []⟩

/-- How `pipe_create` ends. -/
inductive CreateEffect (k : Kernel) (V : Sems) (k' : Kernel) (V' : Sems) : ℕ → Prop
  | full (pipes : k'.pipes = k.pipes) (next : k'.nextPipeId = k.nextPipeId) : CreateEffect k V k' V' 0
  | failed (i : ℕ) (q : Pipe) (free : (k.pipes i).used = false) (unused : q.used = false)
      (mutex : q.mutex = 0) (pipes : k'.pipes = update k.pipes i q)
      (next : k'.nextPipeId = k.nextPipeId) : CreateEffect k V k' V' 0
  | created (i : ℕ) (q : Pipe) (fresh : Fresh k V V' i q) (pipes : k'.pipes = update k.pipes i q)
      (next : k'.nextPipeId = k.nextPipeId + 1) : CreateEffect k V k' V' k.nextPipeId

/-- Entries of the table that are not in use have no mutex, also after an unused entry was
written. -/
theorem vacant_update (h : ∀ i < maxPipes, (k.pipes i).used = false → (k.pipes i).mutex = 0) {q : Pipe}
    (hq : q.used = false → q.mutex = 0) (hpipes : k'.pipes = update k.pipes i q) :
    ∀ j < maxPipes, (k'.pipes j).used = false → (k'.pipes j).mutex = 0 := by
  intro j hj hunused
  rw [hpipes] at hunused ⊢
  by_cases hji : j = i
  · rw [hji, Function.update_self] at hunused ⊢
    exact hq hunused
  · rw [Function.update_of_ne hji] at hunused ⊢
    exact h j hj hunused

theorem Away.grown (h : Away k V) (hg : Grown V V') (hcur : k'.current = k.current) : Away k' V' := by
  intro a s hs
  rw [hcur]
  rcases hg.new a s hs with hold | hq
  · exact h a s hold
  · rw [hq]
    exact List.not_mem_nil

/-- A semaphore made just now and closed again. -/
theorem Represents.undo {W : Sems} {a : ℕ} (h : Represents k W) (hg : Grown V W) (ha : V a = none) :
    ∃ W', Represents (semCloseById k a).2 W' ∧ Grown V W' := by
  obtain ⟨W', hrep, hdrop⟩ := h.closeAt a
  refine ⟨W', hrep, fun b s hs => ?_, fun b s hs => hg.new b s (hdrop.some hs)⟩
  have hne : b ∉ [a] := by
    intro hm
    rw [List.mem_singleton.mp hm, ha] at hs
    cases hs
  rw [hdrop.1 b hne]
  exact hg.old b s hs

theorem Sound.pipeCreate {r : ℕ} (h : Sound k V) (hexec : SoKernel.pipeCreate k = (r, k')) :
    ∃ V', Sound k' V' ∧ Grown V V' ∧ CreateEffect k V k' V' r ∧ k'.current = k.current ∧
      k'.idleP = k.idleP ∧ k'.state = k.state := by
  obtain ⟨r', k'', hspec, htables, -, -⟩ := pipeCreate_spec h.tables
  obtain ⟨rfl, rfl⟩ := Prod.mk.inj (hspec.symm.trans hexec)
  unfold SoKernel.pipeCreate at hexec
  cases hfind : (List.range maxPipes).find? fun i => !(k.pipes i).used with
  | none =>
      simp only [hfind, Prod.mk.injEq] at hexec
      obtain ⟨rfl, rfl⟩ := hexec
      exact ⟨V, h, .refl V, .full rfl rfl, rfl, rfl, rfl⟩
  | some i =>
      have hi : i < maxPipes := List.mem_range.mp (List.mem_of_find?_eq_some hfind)
      have hfree : (k.pipes i).used = false := by simpa using List.find?_some hfind
      simp only [hfind] at hexec
      -- a failure leaves the entry unused and without a mutex
      have hfail : ∀ (k₁ : Kernel) (W : Sems) (q : Pipe), Represents k₁ W → Grown V W →
          k₁.pipes = k.pipes → k₁.nextPipeId = k.nextPipeId → k₁.current = k.current →
          k₁.idleP = k.idleP → k₁.state = k.state → q.used = false → q.mutex = 0 →
          (0, setPipe k₁ i q) = (r', k'') →
          ∃ V', Sound k'' V' ∧ Grown V V' ∧ CreateEffect k V k'' V' r' ∧ k''.current = k.current ∧
            k''.idleP = k.idleP ∧ k''.state = k.state := by
        intro k₁ W q hrep hg hpipes hnext hcur hidle hstate hunused hmutex heq
        obtain ⟨rfl, rfl⟩ := Prod.mk.inj heq
        have hp : (setPipe k₁ i q).pipes = update k.pipes i q := by
          rw [setPipe, hpipes]
        refine ⟨W, ⟨?_, htables, vacant_update h.vacant (fun _ => hmutex) hp,
          h.away.grown hg hcur, ?_⟩, hg, .failed i q hfree hunused hmutex hp hnext, hcur, hidle, hstate⟩
        · exact hrep.congr rfl rfl rfl rfl rfl fun _ _ _ _ _ => rfl
        · intro p
          rw [show (setPipe k₁ i q).state = k₁.state from rfl, hstate]
          exact h.alive p
      rcases h.sems.alloc 0 with hnone | ⟨hfresh₁, sems₁, halloc₁, hrep₁⟩
      · simp only [hnone, if_true] at hexec
        exact hfail k V _ h.sems (.refl V) rfl rfl rfl rfl rfl rfl rfl hexec
      rw [halloc₁] at hexec
      have hpos := h.sems.next
      simp only [if_neg hpos.ne'] at hexec
      have hg₁ : Grown V _ := Grown.update (v := 0) hfresh₁
      rcases hrep₁.alloc pipeBufferSize with hnone | ⟨hfresh₂, sems₂, halloc₂, hrep₂⟩
      · simp only [hnone, if_true] at hexec
        obtain ⟨W, hrepW, hgW⟩ := hrep₁.undo hg₁ hfresh₁
        obtain ⟨sems', hclose, -⟩ := semCloseById_kept
          { k with
            semaphores := sems₁
            nextSemId := k.nextSemId + 1 } k.nextSemId
        refine hfail _ W _ hrepW hgW ?_ ?_ ?_ ?_ ?_ rfl rfl hexec
        all_goals rw [hclose]
      rw [halloc₂] at hexec
      simp only [if_neg (Nat.succ_ne_zero k.nextSemId)] at hexec
      have hg₂ : Grown V _ := hg₁.trans (Grown.update (v := pipeBufferSize) hfresh₂)
      have hunknown₂ : V (k.nextSemId + 1) = none := by
        rw [Function.update_of_ne (Nat.succ_ne_self _)] at hfresh₂
        exact hfresh₂
      rcases hrep₂.alloc 1 with hnone | ⟨hfresh₃, sems₃, halloc₃, hrep₃⟩
      · simp only [hnone, if_true] at hexec
        obtain ⟨W, hrepW, hgW⟩ := hrep₂.undo hg₂ hfresh₁
        obtain ⟨W', hrepW', hgW'⟩ := hrepW.undo hgW hunknown₂
        obtain ⟨sems', hclose, -⟩ := semCloseById_kept
          { k with
            semaphores := sems₂
            nextSemId := k.nextSemId + 1 + 1 } k.nextSemId
        obtain ⟨sems'', hclose', -⟩ := semCloseById_kept
          { k with
            semaphores := sems'
            nextSemId := k.nextSemId + 1 + 1 } (k.nextSemId + 1)
        refine hfail _ W' _ hrepW' hgW' ?_ ?_ ?_ ?_ ?_ rfl rfl hexec
        all_goals rw [hclose, hclose']
      rw [halloc₃] at hexec
      simp only [if_neg (Nat.succ_ne_zero (k.nextSemId + 1)), Prod.mk.injEq] at hexec
      obtain ⟨rfl, rfl⟩ := hexec
      have hg₃ : Grown V _ := hg₂.trans (Grown.update (v := 1) hfresh₃)
      refine ⟨_, ⟨?_, htables, vacant_update h.vacant ?_ rfl, h.away.grown hg₃ rfl, h.alive⟩, hg₃,
        .created i _ ⟨hi, hfree, rfl, rfl, ⟨rfl, rfl⟩, ⟨rfl, rfl, rfl⟩, ⟨hfresh₁, hunknown₂⟩, ?_, ?_⟩
          rfl rfl, rfl, rfl, rfl⟩
      · exact hrep₃.congr rfl rfl rfl rfl rfl fun _ _ _ _ _ => rfl
      · intro hunused
        cases hunused
      · dsimp only
        rw [Function.update_of_ne (by omega), Function.update_of_ne (by omega), Function.update_self]
      · dsimp only
        rw [Function.update_of_ne (by omega), Function.update_self]

end Ends
end SoKernel
