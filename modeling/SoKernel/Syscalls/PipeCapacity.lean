import SoKernel.Ipc.PipeAccounts
import SoKernel.Proc.Boot

/-!
# How many pipes there can be

Each pipe takes three entries of the table of semaphores, which is no larger than the table of
pipes. Both tables are given back in full when pipes are destroyed, so that the number of
pipes in use alone decides whether there is room for one more.
-/

namespace SoKernel

open Function (update)

variable {k k' k₁ : Kernel} {i id : ℕ}

section Room

/-- `pipe_create` makes a pipe, with an identifier that no pipe in use has. -/
def MakesPipe (k : Kernel) : Prop :=
  (pipeCreate k).1 ≠ 0 ∧
    ∀ i < maxPipes, (k.pipes i).used = true → (k.pipes i).id ≠ (pipeCreate k).1

instance (k : Kernel) : Decidable (MakesPipe k) := inferInstanceAs (Decidable (_ ∧ _))

/-- The search for an unused entry of a table fails when all entries are in use. -/
theorem find_unused_eq_none (used : ℕ → Bool) (n : ℕ) :
    ((List.range n).find? fun i => !used i) = none ↔
      ¬((Finset.range n).filter fun i => used i = true).card < n := by
  have hle : ((Finset.range n).filter fun i => used i = true).card ≤ n := by
    simpa using Finset.card_filter_le (Finset.range n) fun i => used i = true
  have hfull : ((Finset.range n).filter fun i => used i = true).card = n ↔
      ∀ i ∈ Finset.range n, used i = true := by
    rw [← Finset.card_filter_eq_iff, Finset.card_range]
  rw [List.find?_eq_none]
  constructor
  · intro hall
    have hcard := hfull.mpr fun i hi => by
      have := hall i (List.mem_range.mpr (Finset.mem_range.mp hi))
      simpa using this
    omega
  · intro hcard i hi
    have := hfull.mp (by omega) i (Finset.mem_range.mpr (List.mem_range.mp hi))
    simp [this]

/-- `sem_alloc` fails when the table is full. -/
theorem semAlloc_eq_zero (hpos : 0 < k.nextSemId) (v : ℤ) :
    (semAlloc k v).1 = 0 ↔ ¬(usedSems k).card < maxSemaphores := by
  have hfind := find_unused_eq_none (fun j => (k.semaphores j).used) maxSemaphores
  unfold usedSems
  rw [← hfind, semAlloc]
  split
  · next hnone => simp [hnone]
  · next i hsome => simp [hsome, hpos.ne']

theorem NewSlot.card (h : NewSlot k i k') : (usedSems k').card = (usedSems k).card + 1 := by
  have hi : i < maxSemaphores := (semGetById_mem h.id_eq).1
  have hmem : i ∉ usedSems k := by
    simp [usedSems, h.free]
  have heq : usedSems k' = insert i (usedSems k) := by
    ext j
    simp only [usedSems, Finset.mem_filter, Finset.mem_range, Finset.mem_insert, h.used]
    constructor
    · rintro ⟨hj, hu⟩
      split at hu
      · next hji => exact .inl hji
      · exact .inr ⟨hj, hu⟩
    · rintro (rfl | ⟨hj, hu⟩)
      · exact ⟨hi, if_pos rfl⟩
      · refine ⟨hj, ?_⟩
        rw [hu]
        exact ite_self _
  rw [heq, Finset.card_insert_of_notMem hmem]

/-- `sem_alloc` makes a semaphore when there is room for it. -/
theorem semAlloc_of_room (T : SemTable k.semaphores k.nextSemId) (hpos : 0 < k.nextSemId) (v : ℤ)
    (hroom : (usedSems k).card < maxSemaphores) :
    ∃ i k', semAlloc k v = (k.nextSemId, k') ∧ NewSlot k i k' := by
  apply (semAlloc_newSlot T hpos v).resolve_left
  intro hnone
  have hzero : (semAlloc k v).1 = 0 := by rw [hnone]
  exact (semAlloc_eq_zero hpos v).mp hzero hroom

theorem semAlloc_of_full (hpos : 0 < k.nextSemId) (v : ℤ)
    (hfull : ¬(usedSems k).card < maxSemaphores) : (semAlloc k v).1 = 0 :=
  (semAlloc_eq_zero hpos v).mpr hfull

/-- `pipe_create` makes a pipe when there is an entry for it and there are three for its
semaphores. -/
theorem pipeCreate_ne_zero (T : Tables k) :
    (pipeCreate k).1 ≠ 0 ↔
      (usedPipes k).card < maxPipes ∧ (usedSems k).card + 3 ≤ maxSemaphores := by
  have hfind := find_unused_eq_none (fun j => (k.pipes j).used) maxPipes
  unfold usedPipes
  unfold pipeCreate
  split
  · next hnone =>
      rw [hnone] at hfind
      simp only [true_iff] at hfind
      simp [hfind]
  · next i hsome =>
      have hpipes : ((Finset.range maxPipes).filter fun i => (k.pipes i).used = true).card <
          maxPipes := by
        by_contra hfull
        rw [hfind.mpr hfull] at hsome
        cases hsome
      simp only [hpipes, true_and]
      have hpos := T.nextSemPos
      by_cases hroom : (usedSems k).card < maxSemaphores
      swap
      · have hzero := semAlloc_of_full hpos 0 hroom
        simp only [hzero, if_true]
        omega
      obtain ⟨j₁, k₁, halloc₁, h₁⟩ := semAlloc_of_room T.table hpos 0 hroom
      have hcard₁ := h₁.card
      have hpos₁ : 0 < k₁.nextSemId := by rw [h₁.next]; exact Nat.succ_pos _
      simp only [halloc₁, if_neg hpos.ne']
      by_cases hroom₁ : (usedSems k₁).card < maxSemaphores
      swap
      · have hzero := semAlloc_of_full hpos₁ pipeBufferSize hroom₁
        simp only [hzero, if_true]
        omega
      obtain ⟨j₂, k₂, halloc₂, h₂⟩ := semAlloc_of_room h₁.table hpos₁ pipeBufferSize hroom₁
      have hcard₂ := h₂.card
      have hpos₂ : 0 < k₂.nextSemId := by rw [h₂.next]; exact Nat.succ_pos _
      simp only [halloc₂, if_neg hpos₁.ne']
      by_cases hroom₂ : (usedSems k₂).card < maxSemaphores
      swap
      · have hzero := semAlloc_of_full hpos₂ 1 hroom₂
        simp only [hzero, if_true]
        omega
      obtain ⟨j₃, k₃, halloc₃, h₃⟩ := semAlloc_of_room h₂.table hpos₂ 1 hroom₂
      have hnext : k₃.nextPipeId ≠ 0 := by
        rw [h₃.nextPipeId, h₂.nextPipeId, h₁.nextPipeId]
        exact T.nextPos.ne'
      simp only [halloc₃, if_neg hpos₂.ne']
      constructor
      · intro _
        omega
      · exact fun _ => hnext

/-- A new identifier is not that of a pipe in use. -/
theorem makesPipe_iff (T : Tables k) : MakesPipe k ↔ (pipeCreate k).1 ≠ 0 := by
  refine and_iff_left_of_imp fun hne i hi hu => ?_
  obtain ⟨r, k', heq, -, -, ⟨rfl, -⟩ | ⟨rfl, -, -⟩⟩ := pipeCreate_spec T
  · rw [heq] at hne
    exact absurd rfl hne
  · rw [heq]
    exact (T.bound i hi hu).2.ne

end Room

section Machine

variable {σ : Type} {prog : Program σ} {m m' : Ipc σ} {e : Option IpcEvent} {V V' : Sems}
  {c : IpcCall} {r : Reply}

/-- The calls that neither make or close semaphores nor count the ends of pipes. -/
def Silent (c : IpcCall) : Prop := KeepsSlots c ∧ ∀ id isWriter, c ≠ .pipeOpen id isWriter

/-- The contents of a pipe do not count. -/
theorem Undisturbed.of_setPipe {q : Pipe} (tables : Tables k')
    (hlive : k.allocated k.current = true) (haside : Aside (setPipe k i q) k')
    (hq : q.used = (k.pipes i).used ∧ q.id = (k.pipes i).id ∧ q.readers = (k.pipes i).readers ∧
      q.writers = (k.pipes i).writers ∧ q.semIds = (k.pipes i).semIds)
    (hslots : SameSlots k k') : Undisturbed k k' := by
  refine ⟨tables, .inr ?_, haside.allocated, fun p _ fd _ => ?_, fun j => ?_, hslots⟩
  · rw [haside.current, haside.allocated]
    exact hlive
  · rw [haside.fdType, haside.fdPipe]
    exact ⟨rfl, rfl⟩
  · have hpipes : k'.pipes = update k.pipes i q := haside.pipes
    rw [hpipes]
    by_cases hj : j = i
    · rw [hj, Function.update_self]
      exact hq
    · rw [Function.update_of_ne hj]
      exact ⟨rfl, rfl, rfl, rfl, rfl⟩

theorem Undisturbed.of_aside (tables : Tables k') (hlive : k.allocated k.current = true)
    (haside : Aside k k') (hslots : SameSlots k k') : Undisturbed k k' := by
  refine .of_setPipe (i := 0) (q := k.pipes 0) tables hlive ?_ ⟨rfl, rfl, rfl, rfl, rfl⟩ hslots
  rw [setPipe, Function.update_eq_self]
  exact haside

/-- What belongs to the scheduler alone does not count. -/
theorem Undisturbed.of_resched (tables : Tables k) (hlive : k.allocated k.current = true) (s : Sched) :
    Undisturbed k (k.resched s) :=
  ⟨tables, .inr hlive, rfl, fun _ _ _ _ => ⟨rfl, rfl⟩, fun _ => ⟨rfl, rfl, rfl, rfl, rfl⟩,
    .of_eq rfl rfl⟩

/-- A silent call that returns. -/
theorem IpcEffect.undisturbed (effect : IpcEffect k V k' V' c r) (hc : Silent c)
    (tables : Tables k') (hlive : k.allocated k.current = true) (hslots : SameSlots k k') :
    Undisturbed k k' := by
  have hsame : k' = k → Undisturbed k k' := by
    rintro rfl
    exact .of_aside tables hlive (.refl _) hslots
  cases effect with
  | semAlloc => exact hc.1.elim
  | semOpen => exact hc.1.elim
  | semClose => exact hc.1.elim
  | semMissing _ kernel => exact hsame kernel
  | semTaken _ _ _ aside => exact .of_aside tables hlive aside hslots
  | semSignal _ aside => exact .of_aside tables hlive aside hslots
  | semSetFailed kernel => exact hsame kernel
  | semSet _ _ aside => exact .of_aside tables hlive aside hslots
  | pipeCreate => exact hc.1.elim
  | pipeMissing => exact absurd rfl (hc.2 _ _)
  | pipeOpen => exact absurd rfl (hc.2 _ _)
  | pipeClose => exact hc.1.elim
  | readTurn _ effect =>
      cases effect with
      | gone _ kernel => exact hsame kernel
      | ended _ _ _ aside => exact .of_aside tables hlive aside hslots
      | moved _ _ aside => exact .of_setPipe tables hlive aside ⟨rfl, rfl, rfl, rfl, rfl⟩ hslots
      | again _ _ _ _ _ aside => exact .of_aside tables hlive aside hslots
  | writeTurn _ effect =>
      cases effect with
      | gone _ kernel => exact hsame kernel
      | ended _ _ aside => exact .of_aside tables hlive aside hslots
      | moved _ _ _ aside => exact .of_setPipe tables hlive aside ⟨rfl, rfl, rfl, rfl, rfl⟩ hslots
      | again _ _ _ _ _ _ aside => exact .of_aside tables hlive aside hslots

/-- A context switch that collects nobody. -/
theorem Undisturbed.switch {ch : Choice} (tables : Tables k')
    (halive : k.state k.current ≠ .finished) (hdead : ch.dead = []) (hp : SwitchPromise k ch)
    (hsw : switchBy k ch = some k') : Undisturbed k k' := by
  obtain ⟨⟨sched, rfl⟩, -⟩ := switchBy_alive halive hdead hp hsw
  refine ⟨tables, .inr ?_, rfl, fun _ _ _ _ => ⟨rfl, rfl⟩, fun _ => ⟨rfl, rfl, rfl, rfl, rfl⟩,
    .of_eq rfl rfl⟩
  obtain ⟨k₁, hsave, -⟩ := Option.bind_eq_some_iff.mp hsw
  obtain ⟨L, s, -, rfl⟩ := saveContext_shape (k := { k with needResched := false }) hp.1 hsave
  exact (hp.2 _ hsave).1

theorem Undisturbed.trans (h : Undisturbed k k₁) (h' : Undisturbed k₁ k') : Undisturbed k k' := by
  refine ⟨h'.tables, h'.current, h'.allocated.trans h.allocated, fun p hp fd hfd => ?_, fun j => ?_,
    h.slots.trans h'.slots⟩
  · obtain ⟨ht, hx⟩ := h'.fds p (h.allocated ▸ hp) fd hfd
    obtain ⟨ht', hx'⟩ := h.fds p hp fd hfd
    exact ⟨ht.trans ht', hx.trans hx'⟩
  · obtain ⟨hused, hid, hreaders, hwriters, hsems⟩ := h'.pipes j
    obtain ⟨hused', hid', hreaders', hwriters', hsems'⟩ := h.pipes j
    exact ⟨hused.trans hused', hid.trans hid', hreaders.trans hreaders', hwriters.trans hwriters',
      hsems.trans hsems'⟩

/-- Reads, writes, waits, signals and context switches of the machine of processes. -/
theorem IpcStep.undisturbed (h : Sound m.kernel V)
    (hlive : m.kernel.allocated m.kernel.current = true) (step : IpcStep prog m e m')
    (hsilent : ∀ ev ∈ e, Silent ev.call) : Undisturbed m.kernel m'.kernel := by
  cases step with
  | call caller acts promise step runs =>
      have hc := hsilent _ rfl
      rcases h.exec caller promise step with ⟨-, -, V', hsound, heffect⟩ | ⟨hr, -⟩
      · exact heffect.undisturbed hc hsound.tables hlive (ipcExec_sameSlots hc.1 step)
      · exact absurd hr runs
  | block caller acts promise step pick nobody switch =>
      rename_i c next k₁ ch k'
      have hc := hsilent _ rfl
      rcases h.exec caller promise step with ⟨hr, -⟩ | ⟨-, a, s, hwaits, hqueued⟩
      · exact absurd rfl hr
      · obtain ⟨hsound, -⟩ := h.block hqueued nobody pick switch
        have hblock : SameSlots k₁ (schedulerBlockCurrent k₁) := by
          obtain ⟨st, b, heq, -⟩ := schedulerBlockCurrent_shape k₁
          rw [heq]
          exact .of_eq rfl rfl
        have halive : (schedulerBlockCurrent k₁).state (schedulerBlockCurrent k₁).current ≠
            .finished := by
          rw [hqueued.state, hqueued.aside.current, Function.update_self]
          simp
        have hslots := (ipcExec_sameSlots hc.1 step).trans hblock
        exact (Undisturbed.of_aside hqueued.tables hlive hqueued.aside hslots).trans
          (.switch hsound.tables halive nobody pick switch)
  | switch pick nobody switch =>
      obtain ⟨hsound, -⟩ := h.switch nobody pick switch
      exact .switch hsound.tables (h.alive _) nobody pick switch
  | @resched s => exact .of_resched h.tables hlive s

end Machine

section Conservation

variable {p fd : ℕ} {r : SpawnRequest}

/-- The tables stay in order, and every semaphore has an owner as before. -/
def Conserves (k k' : Kernel) : Prop :=
  Tables k → Tables k' ∧ ∀ refs, Ledger k refs → Ledger k' refs

namespace Conserves

theorem refl (k : Kernel) : Conserves k k := fun T => ⟨T, fun _ h => h⟩

theorem trans (h : Conserves k k₁) (h' : Conserves k₁ k') : Conserves k k' := by
  intro T
  obtain ⟨T₁, hledger⟩ := h T
  obtain ⟨T', hledger'⟩ := h' T₁
  exact ⟨T', fun refs hrefs => hledger' refs (hledger refs hrefs)⟩

/-- Neither pipes nor semaphores change. -/
theorem of_same (hpipes : SamePipes k k') (hsems : k'.semaphores = k.semaphores) :
    Conserves k k' := by
  intro T
  refine ⟨?_, fun refs hrefs => ?_⟩
  · rwa [Tables, hpipes.pipes, hpipes.nextPipeId, hpipes.nextSemId, hsems]
  · apply hrefs.same (SameSlots.of_eq hsems hpipes.nextSemId).semRefs
    exact fun a => pipeSem_congr hpipes.pipes

theorem setFd (k : Kernel) (p fd : ℕ) (t : FdType) (x : Option ℕ) :
    Conserves k (setFd k p fd t x) := .of_same ⟨rfl, rfl, rfl⟩ rfl

theorem pipeOpenById {isWriter : Bool} {x : ℕ × Kernel}
    (h : pipeOpenById k id isWriter = some x) : Conserves k x.2 := by
  intro T
  obtain ⟨r, k', heq, T', -⟩ := pipeOpenById_spec T id isWriter
  cases h.symm.trans heq
  exact ⟨T', (pipeOpenById_moved (p := 0) T h).ledger⟩

theorem pipeCloseById {isWriter : Bool} {x : ℕ × Kernel}
    (h : pipeCloseById k id isWriter = some x) : Conserves k x.2 :=
  fun T => ⟨(pipeCloseById_spec T h).1, fun _ hrefs => hrefs.pipeClose T h⟩

theorem pipeCreate (k : Kernel) : Conserves k (pipeCreate k).2 := by
  intro T
  obtain ⟨r, k', heq, T', -⟩ := pipeCreate_spec T
  refine ⟨by rwa [heq], fun refs hrefs => hrefs.pipeCreate T.table T.nextSemPos rfl⟩

theorem undisturbed (h : Undisturbed k k') : Conserves k k' :=
  fun _ => ⟨h.tables, fun _ => h.ledger⟩

/-- Descriptors may point to pipes that are gone. -/
theorem closeEntryPipe (heq : closeEntryPipe k p fd = some k') : Conserves k k' := by
  unfold SoKernel.closeEntryPipe at heq
  split at heq
  · cases heq
    exact .refl _
  · split at heq
    · cases heq
      exact .refl _
    · split at heq
      · cases heq
        exact .refl _
      · obtain ⟨x, hclose, rfl⟩ := Option.map_eq_some_iff.mp heq
        exact .pipeCloseById hclose

theorem closeFd (heq : closeFd k p fd = some k') : Conserves k k' := by
  by_cases ht : k.fdType p fd = .terminal
  · rw [SoKernel.closeFd, ht] at heq
    cases heq
    exact .refl _
  · rw [closeFd_eq ht] at heq
    obtain ⟨k₁, hclose, rfl⟩ := Option.map_eq_some_iff.mp heq
    exact (closeEntryPipe hclose).trans (.setFd k₁ p fd .terminal none)

theorem closeFds {fds : List ℕ} (heq : closeFds p fds k = some k') : Conserves k k' := by
  induction fds generalizing k with
  | nil =>
      cases heq
      exact .refl _
  | cons fd fds ih =>
      obtain ⟨k₁, hfirst, hrest⟩ := Option.bind_eq_some_iff.mp heq
      exact (closeFd hfirst).trans (ih hrest)

theorem processCloseFds (heq : processCloseFds k p = some k') : Conserves k k' := by
  unfold SoKernel.processCloseFds at heq
  split at heq
  · cases heq
    exact .refl _
  · exact closeFds heq

theorem attachPipe {isWriter : Bool} (heq : attachPipe k p fd id isWriter = some k') :
    Conserves k k' := by
  unfold SoKernel.attachPipe at heq
  split at heq
  · cases heq
    exact .refl _
  · split at heq
    · cases heq
      exact .refl _
    · obtain ⟨x, hopen, hlast⟩ := Option.bind_eq_some_iff.mp heq
      cases hlast
      apply (pipeOpenById hopen).trans
      split
      · exact .setFd _ _ _ _ _
      · exact .refl _

theorem inheritFd {parent : ℕ} (heq : inheritFd k p parent fd = some k') : Conserves k k' := by
  unfold SoKernel.inheritFd at heq
  split at heq
  · cases heq
    exact .setFd _ _ _ _ _
  · split at heq
    · cases heq
      exact .setFd _ _ _ _ _
    · split at heq
      · cases heq
        exact .setFd _ _ _ _ _
      · obtain ⟨x, hopen, hlast⟩ := Option.bind_eq_some_iff.mp heq
        cases hlast
        apply (pipeOpenById hopen).trans
        split
        · exact .setFd _ _ _ _ _
        · exact .setFd _ _ _ _ _

theorem inheritFds {fds : List ℕ} (heq : inheritFds k p r fds = some k') : Conserves k k' := by
  induction fds generalizing k with
  | nil =>
      cases heq
      exact .refl _
  | cons fd fds ih =>
      obtain ⟨k₁, hfirst, hrest⟩ := Option.bind_eq_some_iff.mp heq
      refine Conserves.trans ?_ (ih hrest)
      split at hfirst
      · cases hfirst
        exact .refl _
      · exact inheritFd hfirst

theorem processCreate {x : ℕ × Kernel} (heq : processCreate k r = some x) : Conserves k x.2 := by
  unfold SoKernel.processCreate at heq
  split at heq
  · cases heq
    exact .refl _
  split at heq
  · cases heq
    exact .refl _
  split at heq
  · cases heq
    exact .of_same ⟨rfl, rfl, rfl⟩ rfl
  obtain ⟨k₁, hin, heq⟩ := Option.bind_eq_some_iff.mp heq
  obtain ⟨k₂, hout, heq⟩ := Option.bind_eq_some_iff.mp heq
  obtain ⟨k₃, hinherit, hlast⟩ := Option.bind_eq_some_iff.mp heq
  cases hlast
  obtain ⟨-, hpipes, hsems⟩ := enterPcb_same k₃ r
  have hinit : Conserves k (initPcb k r) := .of_same ⟨rfl, rfl, rfl⟩ rfl
  have hthird : Conserves k₂ k₃ := by
    split at hinherit
    · exact inheritFds hinherit
    · cases hinherit
      exact .refl _
  exact (((hinit.trans (attachPipe hin)).trans (attachPipe hout)).trans hthird).trans
    (.of_same hpipes hsems)

theorem openEntry {pipe n : ℕ} {isWriter : Bool}
    (heq : openEntry k p fd id pipe isWriter = some (n, k')) : Conserves k k' := by
  unfold SoKernel.openEntry at heq
  obtain ⟨x, hopen, hlast⟩ := Option.bind_eq_some_iff.mp heq
  have hopened := (setFd k p fd _ _).trans (pipeOpenById hopen)
  dsimp only at hlast
  split at hlast
  · cases hlast
    exact hopened
  · cases hlast
    exact hopened.trans (.setFd _ _ _ _ _)

theorem pipeDup {pipeId mode n : ℕ} (heq : syscallPipeDup k pipeId fd mode = some (n, k')) :
    Conserves k k' := by
  unfold syscallPipeDup at heq
  split at heq
  · cases heq
    exact .refl _
  split at heq
  · cases heq
    exact .refl _
  split at heq
  · cases heq
    exact .refl _
  obtain ⟨k₁, hclose, heq⟩ := Option.bind_eq_some_iff.mp heq
  dsimp only at heq
  refine (closeEntryPipe hclose).trans ?_
  have hclear : Conserves k₁ (if k₁.fdType k.current fd = .terminal then k₁
      else SoKernel.setFd k₁ k.current fd (k₁.fdType k.current fd) none) := by
    split
    · exact .refl _
    · exact .setFd _ _ _ _ _
  refine hclear.trans ?_
  split at heq
  · exact openEntry heq
  · split at heq
    · exact openEntry heq
    · cases heq
      exact .refl _

theorem releaseFd {n : ℕ} (heq : syscallPipeReleaseFd k fd = some (n, k')) : Conserves k k' := by
  unfold syscallPipeReleaseFd at heq
  split at heq
  · cases heq
    exact .refl _
  split at heq
  · cases heq
    exact .refl _
  obtain ⟨k₁, hclose, hlast⟩ := Option.bind_eq_some_iff.mp heq
  cases hlast
  exact (closeEntryPipe hclose).trans (.setFd _ _ _ _ _)

theorem exit (heq : schedulerFinishCurrent k = some k') : Conserves k k' := by
  unfold schedulerFinishCurrent at heq
  split at heq
  · cases heq
    exact .refl _
  · obtain ⟨k₁, hclose, hlast⟩ := Option.bind_eq_some_iff.mp heq
    cases hlast
    exact (processCloseFds hclose).trans (.of_same ⟨rfl, rfl, rfl⟩ rfl)

theorem kill (heq : killProcess k p = some k') : Conserves k k' := by
  obtain ⟨k₁, hclose, -, hpipes, hsems⟩ := killProcess_same heq
  exact (processCloseFds hclose).trans (.of_same hpipes hsems)

theorem destroy (heq : processDestroy k p = some k') : Conserves k k' := by
  unfold processDestroy at heq
  split at heq
  · cases heq
    exact .refl _
  · obtain ⟨k₁, hclose, hlast⟩ := Option.bind_eq_some_iff.mp heq
    obtain ⟨-, hpipes, hsems⟩ := unlinkChild_same k₁ p
    cases hlast
    exact ((closeFds hclose).trans (.of_same hpipes hsems)).trans (.of_same ⟨rfl, rfl, rfl⟩ rfl)

/-- Every call that takes or drops references to pipes. -/
theorem call {c : FdCall} (heq : fdExec k c = some k') : Conserves k k' := by
  cases c with
  | pipeCreate =>
      cases heq
      exact .pipeCreate k
  | createProcess r =>
      obtain ⟨x, hcreate, rfl⟩ := Option.map_eq_some_iff.mp heq
      exact .processCreate hcreate
  | pipeDup pipeId fd mode =>
      obtain ⟨x, hdup, rfl⟩ := Option.map_eq_some_iff.mp heq
      exact .pipeDup hdup
  | releaseFd fd =>
      obtain ⟨x, hrelease, rfl⟩ := Option.map_eq_some_iff.mp heq
      exact .releaseFd hrelease
  | exit => exact .exit heq
  | kill p => exact .kill heq
  | destroy p => exact .destroy heq
  | switchTo p =>
      cases heq
      exact .of_same ⟨rfl, rfl, rfl⟩ rfl

end Conserves

end Conservation

section Reach

/-- The states that are reached while no user makes a semaphore. Pipes come and go by the calls
of processes and by `syscall_pipe_open` and `syscall_pipe_close`, which do not ask whether
the caller has an end; users open and close semaphores that belong to no pipe; and the rest of
what happens is undisturbed. -/
inductive PipeReach (start : Kernel) : Kernel → Prop
  | start : PipeReach start start
  | call {k k' : Kernel} {c : FdCall} (before : PipeReach start k) (promise : FdPromise k c)
      (call : fdExec k c = some k') : PipeReach start k'
  | pipeOpen {k k' : Kernel} {id r : ℕ} {isWriter : Bool} (before : PipeReach start k)
      (call : pipeOpenById k id isWriter = some (r, k')) : PipeReach start k'
  | pipeClose {k k' : Kernel} {id r : ℕ} {isWriter : Bool} (before : PipeReach start k)
      (call : pipeCloseById k id isWriter = some (r, k')) : PipeReach start k'
  | semOpen {k : Kernel} {id : ℕ} (before : PipeReach start k) (own : ¬PipeSem k id) :
      PipeReach start (semOpenById k id).2
  | semClose {k : Kernel} {id : ℕ} (before : PipeReach start k) (own : ¬PipeSem k id) :
      PipeReach start (semCloseById k id).2
  | undisturbed {k k' : Kernel} (before : PipeReach start k) (step : Undisturbed k k') :
      PipeReach start k'

/-- The tables are in order, and besides the semaphores of pipes there is at most that of the
keyboard. -/
structure KeyboardOnly (kbd : ℕ) (k : Kernel) : Prop where
  tables : Tables k
  ledger : ∃ refs, Ledger k refs ∧ ∀ id, 0 < refs id → id = kbd

namespace KeyboardOnly

variable {kbd : ℕ}

theorem conserved (h : KeyboardOnly kbd k) (hc : Conserves k k') : KeyboardOnly kbd k' := by
  obtain ⟨T', hledger⟩ := hc h.tables
  obtain ⟨refs, hrefs, hkbd⟩ := h.ledger
  exact ⟨T', refs, hledger refs hrefs, hkbd⟩

/-- Only a semaphore with references gets another one. -/
theorem enter_open {refs : ℕ → ℤ} (h : Ledger k refs) (hown : ¬PipeSem k id)
    (hkbd : ∀ a, 0 < refs a → a = kbd) (a : ℕ)
    (ha : 0 < IpcEvent.enter refs ⟨0, .semOpen id, .value (semOpenById k id).1⟩ a) : a = kbd := by
  simp only [IpcEvent.enter] at ha
  split at ha
  · exact hkbd a ha
  · next hopen =>
      by_cases haid : a = id
      · rcases h.user id hown with ⟨-, hpos⟩ | ⟨hnone, -⟩
        · exact hkbd a (haid ▸ hpos)
        · rw [semRefs, Option.map_eq_none_iff] at hnone
          rw [semOpenById, hnone] at hopen
          exact absurd rfl hopen
      · rw [Function.update_of_ne haid] at ha
        exact hkbd a ha

theorem enter_close {refs : ℕ → ℤ} (hkbd : ∀ a, 0 < refs a → a = kbd) (a : ℕ)
    (ha : 0 < IpcEvent.enter refs ⟨0, .semClose id, .value (semCloseById k id).1⟩ a) : a = kbd := by
  simp only [IpcEvent.enter] at ha
  split at ha
  · exact hkbd a ha
  · by_cases haid : a = id
    · rw [haid, Function.update_self] at ha
      exact hkbd a (by rw [haid]; omega)
    · rw [Function.update_of_ne haid] at ha
      exact hkbd a ha

theorem semOpen (h : KeyboardOnly kbd k) (hown : ¬PipeSem k id) :
    KeyboardOnly kbd (semOpenById k id).2 := by
  obtain ⟨refs, hrefs, hkbd⟩ := h.ledger
  refine ⟨?_, _, hrefs.semOpen h.tables.table hown 0, enter_open hrefs hown hkbd⟩
  have T := h.tables
  unfold semOpenById
  split
  · exact T
  · exact T.kept (.update _ rfl (fun hu => hu) fun _ => ⟨rfl, fun hw => ⟨hw, le_rfl⟩⟩)

theorem semClose (h : KeyboardOnly kbd k) (hown : ¬PipeSem k id) :
    KeyboardOnly kbd (semCloseById k id).2 := by
  obtain ⟨refs, hrefs, hkbd⟩ := h.ledger
  refine ⟨?_, _, hrefs.semClose h.tables.table hown 0, enter_close hkbd⟩
  obtain ⟨sems, heq, hkept⟩ := semCloseById_kept k id
  rw [heq]
  refine h.tables.keptOff hkept fun i hi hu a ha hm => ?_
  exact hown (List.mem_singleton.mp hm ▸ pipeSem_iff.mpr ⟨i, hi, hu, ha⟩)

/-- Of the semaphores in use, at most one belongs to no pipe. -/
theorem card (h : KeyboardOnly kbd k) :
    3 * (usedPipes k).card ≤ (usedSems k).card ∧
      (usedSems k).card ≤ 1 + 3 * (usedPipes k).card := by
  obtain ⟨refs, hrefs, hkbd⟩ := h.ledger
  have hcard := hrefs.card h.tables
  have hone : {id | 0 < refs id}.ncard ≤ 1 := by
    apply (Set.ncard_le_ncard (t := {kbd}) ?_).trans
    · rw [Set.ncard_singleton]
    · exact fun id hid => hkbd id hid
  omega

/-- Three entries for each pipe leave room for one more as long as there are no more than
twenty. -/
theorem makesPipe (h : KeyboardOnly kbd k) : MakesPipe k ↔ (usedPipes k).card ≤ 20 := by
  rw [makesPipe_iff h.tables, pipeCreate_ne_zero h.tables]
  obtain ⟨hlow, hhigh⟩ := h.card
  simp only [maxPipes, maxSemaphores]
  omega

end KeyboardOnly

theorem Booted.keyboardOnly {idle shell : ℕ} (h : Booted k idle shell) : KeyboardOnly 1 k := by
  obtain ⟨hfirst, hrest⟩ := h.semaphores
  have hopen : ∀ i < maxSemaphores, (k.semaphores i).used = true →
      i = 0 ∧ 0 < (k.semaphores i).refcount := by
    intro i _ hu
    by_cases hi : i = 0
    · rw [hi, hfirst]
      exact ⟨rfl, one_pos⟩
    · rw [hrest i hi] at hu
      cases hu
  have hquiet := h.quiet
  refine ⟨hquiet.sound.tables, _, hquiet.ledger fun i hi hu => (hopen i hi hu).2, ?_⟩
  intro id hid
  unfold openRefs at hid
  cases hr : semRefs k id with
  | none =>
      rw [hr] at hid
      exact absurd hid (lt_irrefl _)
  | some r =>
      obtain ⟨i, hi, hu, hidi, -⟩ := (semRefs_eq_some hquiet.table).mp hr
      rw [← hidi, (hopen i hi hu).1, hfirst]

theorem PipeReach.keyboardOnly {kbd : ℕ} {start : Kernel} (hreach : PipeReach start k)
    (hstart : KeyboardOnly kbd start) : KeyboardOnly kbd k := by
  induction hreach with
  | start => exact hstart
  | call _ _ call ih => exact ih.conserved (.call call)
  | pipeOpen _ call ih => exact ih.conserved (.pipeOpenById call)
  | pipeClose _ call ih => exact ih.conserved (.pipeCloseById call)
  | semOpen _ own ih => exact ih.semOpen own
  | semClose _ own ih => exact ih.semClose own
  | undisturbed _ step ih => exact ih.conserved (.undisturbed step)

/-- In every reachable state in which users have made no semaphores, one more pipe can be made
exactly if at most twenty are in use, although the table of pipes has 64 entries. -/
theorem pipe_capacity_iff {idle idleStack shell shellStack entryPoint : ℕ} {k₀ : Kernel}
    (hm : BootMemory idle idleStack shell shellStack entryPoint)
    (hboot : bootSystem idle idleStack shell shellStack entryPoint = some k₀)
    (hreach : PipeReach k₀ k) : MakesPipe k ↔ (usedPipes k).card ≤ 20 :=
  (hreach.keyboardOnly (bootSystem_spec hm hboot).keyboardOnly).makesPipe

/-- The current process makes pipes, one after the other. -/
def makePipes : ℕ → Kernel → Kernel
  | 0, k => k
  | n + 1, k => makePipes n (pipeCreate k).2

theorem PipeReach.makePipes {start : Kernel} (n : ℕ) (hreach : PipeReach start k) :
    PipeReach start (makePipes n k) := by
  induction n generalizing k with
  | zero => exact hreach
  | succ n ih => exact ih (.call (c := .pipeCreate) hreach trivial rfl)

/-- The shell makes `n` pipes. -/
def shellPipes (n : ℕ) : Option (Kernel × Kernel) := do
  let k₀ ← bootSystem 16 8192 48 12288 1
  let k ← fdExec k₀ (.switchTo 48)
  some (k₀, makePipes n k)

theorem shellPipes_reach {n : ℕ} {k₀ : Kernel} (h : shellPipes n = some (k₀, k)) :
    BootMemory 16 8192 48 12288 1 ∧ bootSystem 16 8192 48 12288 1 = some k₀ ∧ PipeReach k₀ k := by
  have hm : BootMemory 16 8192 48 12288 1 :=
    ⟨by decide, by decide, by decide, by decide, by decide, by decide⟩
  rw [shellPipes, Option.bind_eq_bind] at h
  obtain ⟨k₁, hboot, hrest⟩ := Option.bind_eq_some_iff.mp h
  obtain ⟨k₂, hswitch, hlast⟩ := Option.bind_eq_some_iff.mp hrest
  cases hlast
  have hshell : k₀.allocated 48 = true :=
    ((bootSystem_spec hm hboot).allocated 48).mpr (.inr rfl)
  exact ⟨hm, hboot, .makePipes n (.call (c := .switchTo 48) .start hshell hswitch)⟩

/-- The theorem at a run: the shell makes one pipe after the other and can make the last one. -/
theorem pipe_capacity_iff_shell : ∃ k₀ k, bootSystem 16 8192 48 12288 1 = some k₀ ∧
    PipeReach k₀ k ∧ (usedPipes k).card = 20 ∧ MakesPipe k := by
  have hcalc : (shellPipes 20).map (fun x => (usedPipes x.2).card) = some 20 := by
    decide +kernel
  obtain ⟨⟨k₀, k⟩, hrun, hcard⟩ := Option.map_eq_some_iff.mp hcalc
  obtain ⟨hm, hboot, hreach⟩ := shellPipes_reach hrun
  exact ⟨k₀, k, hboot, hreach, hcard, (pipe_capacity_iff hm hboot hreach).mpr hcard.le⟩

/-- With 21 pipes in use no further one can be made. -/
theorem pipe_capacity_short : ∃ k₀ k, BootMemory 16 8192 48 12288 1 ∧
    bootSystem 16 8192 48 12288 1 = some k₀ ∧ PipeReach k₀ k ∧ (usedPipes k).card = 21 ∧
    (usedPipes k).card < maxPipes ∧ (pipeCreate k).1 = 0 ∧ ¬MakesPipe k := by
  have hcalc : (shellPipes 21).map (fun x => ((usedPipes x.2).card, (pipeCreate x.2).1)) =
      some (21, 0) := by
    decide +kernel
  obtain ⟨⟨k₀, k⟩, hrun, hx⟩ := Option.map_eq_some_iff.mp hcalc
  obtain ⟨hcard, hfail⟩ := Prod.mk.inj hx
  obtain ⟨hm, hboot, hreach⟩ := shellPipes_reach hrun
  dsimp only at hcard hfail
  refine ⟨k₀, k, hm, hboot, hreach, hcard, ?_, hfail, fun hmakes => hmakes.1 hfail⟩
  rw [hcard]
  decide

end Reach

end SoKernel
