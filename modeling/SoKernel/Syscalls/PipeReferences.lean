import SoKernel.Ipc.PipeRefs

/-!
# Reference counts of pipes

In every state that the calls reach, the numbers of readers and writers of a pipe are the
numbers of descriptors that point to it. A pipe is destroyed when its last descriptor goes
away, so that no descriptor ever points to an entry that is used again.
-/

namespace SoKernel

open Function (update)

variable {k k' : Kernel} {live : Finset ℕ} {p fd i id : ℕ}

section Duplication

/-- The clearing of an entry in `syscall_pipe_dup`, which leaves terminals alone. -/
theorem FdsCounted.clearEntry_eq (h : FdsCounted k live) (hp : k.allocated p = true)
    (hfd : fd < maxFds) (hfds : SameFds k k') :
    (if k'.fdType p fd = .terminal then k' else setFd k' p fd (k'.fdType p fd) none) =
      setFd k' p fd (k'.fdType p fd) none := by
  split
  · rename_i ht
    have hnone : k'.fdPipe p fd = none := by
      cases hx : k'.fdPipe p fd with
      | none => rfl
      | some i =>
          rw [hfds.fdPipe] at hx
          rw [hfds.fdType] at ht
          exact absurd ht (h.points p hp fd hfd i hx).2.2
    rw [setFd]
    conv_rhs => rw [← hnone]
    simp only [Function.update_eq_self]
  · rfl

/-- The end of `syscall_pipe_dup`. -/
theorem FdsCounted.openEntry_spec {pipe r : ℕ} {isWriter : Bool} (h : FdsCounted k live)
    (hp : k.allocated p = true) (hfd : fd < maxFds) (hnone : k.fdPipe p fd = none)
    (hpipe : ∀ i, pipeGetById k id = some i → i = pipe)
    (heq : SoKernel.openEntry k p fd id pipe isWriter = some (r, k')) :
    FdsCounted k' live ∧ Opens k k' := by
  unfold SoKernel.openEntry at heq
  dsimp only at heq
  rw [hnone] at heq
  have hretyped := h.retype hp hfd hnone (if isWriter then .pipeWrite else .pipeRead)
  obtain ⟨r', k₁, hopen, -, ⟨rfl, -, rfl⟩ | ⟨rfl, i, hfind, hopened⟩⟩ :=
    hretyped.open_spec hp hfd (setFd_fdPipe _ _ _ _ _) id isWriter
  · rw [hopen] at heq
    simp only [Option.bind_eq_bind, Option.bind_some, if_true, Option.some.injEq,
      Prod.mk.injEq] at heq
    obtain ⟨-, rfl⟩ := heq
    exact ⟨hretyped, .of_eq rfl⟩
  · rw [hopen] at heq
    simp only [Option.bind_eq_bind, Option.bind_some, one_ne_zero, if_false, Option.some.injEq,
      Prod.mk.injEq] at heq
    obtain ⟨-, rfl⟩ := heq
    have hi : i = pipe := hpipe i hfind
    rw [← hi]
    exact ⟨hopened.counted, hopened.opens⟩

theorem FdsCounted.dup_spec {pipeId mode r : ℕ} (h : FdsCounted k live)
    (heq : syscallPipeDup k pipeId fd mode = some (r, k')) :
    FdsCounted k' live ∧ ∃ k₂, Closes k k₂ ∧ Opens k₂ k' := by
  unfold syscallPipeDup at heq
  have hquiet : some (0, k) = some (r, k') → FdsCounted k' live ∧ ∃ k₂, Closes k k₂ ∧ Opens k₂ k' := by
    intro hsome
    cases hsome
    exact ⟨h, k, .of_eq rfl, .of_eq rfl⟩
  split at heq
  · exact hquiet heq
  rename_i hfd
  split at heq
  · exact hquiet heq
  rename_i hcur
  split at heq
  · exact hquiet heq
  rename_i pipe hfind
  rw [Option.bind_eq_bind] at heq
  obtain ⟨k₁, hclose, hrest⟩ := Option.bind_eq_some_iff.mp heq
  have hp := h.current.resolve_left hcur
  obtain ⟨hfds, hclosed⟩ := h.closeEntryPipe_spec hp (not_le.mp hfd) hclose
  rw [h.clearEntry_eq hp (not_le.mp hfd) hfds] at hrest
  have hc := hclosed (k₁.fdType k.current fd)
  generalize hk₂ : setFd k₁ k.current fd (k₁.fdType k.current fd) none = k₂ at hrest hc
  have hnone : k₂.fdPipe k.current fd = none := by
    rw [← hk₂, setFd_fdPipe]
  -- a pipe that is found again was there before
  have hpipe : ∀ i, pipeGetById k₂ pipeId = some i → i = pipe := by
    intro i hi
    obtain ⟨hilt, hiu, hid⟩ := pipeGetById_mem hi
    obtain ⟨hplt, hpu, hpid⟩ := pipeGetById_mem hfind
    obtain ⟨hfree, hused⟩ := hc.closes i hilt
    have hku : (k.pipes i).used = true := by
      by_contra hno
      rw [hfree (by simpa using hno)] at hiu
      cases hiu
    rcases hused hku with ⟨-, hsame, -, -⟩ | ⟨hno, -⟩
    · exact h.tables.unique i hilt pipe hplt hku hpu (by rw [← hsame, hid, hpid])
    · rw [hno] at hiu
      cases hiu
  have hp₂ : k₂.allocated k.current = true := by rw [hc.allocated, hp]
  split at hrest
  · obtain ⟨hcounted, hopens⟩ := hc.counted.openEntry_spec hp₂ (not_le.mp hfd) hnone hpipe hrest
    exact ⟨hcounted, k₂, hc.closes, hopens⟩
  · split at hrest
    · obtain ⟨hcounted, hopens⟩ := hc.counted.openEntry_spec hp₂ (not_le.mp hfd) hnone hpipe hrest
      exact ⟨hcounted, k₂, hc.closes, hopens⟩
    · cases hrest
      exact ⟨hc.counted, _, hc.closes, .of_eq rfl⟩

theorem FdsCounted.release_spec {r : ℕ} (h : FdsCounted k live)
    (heq : syscallPipeReleaseFd k fd = some (r, k')) : FdsCounted k' live ∧ Closes k k' := by
  unfold syscallPipeReleaseFd at heq
  split at heq
  · cases heq
    exact ⟨h, .of_eq rfl⟩
  rename_i hfd
  split at heq
  · cases heq
    exact ⟨h, .of_eq rfl⟩
  rename_i hcur
  rw [Option.bind_eq_bind] at heq
  obtain ⟨k₁, hclose, hrest⟩ := Option.bind_eq_some_iff.mp heq
  obtain ⟨-, hclosed⟩ := h.closeEntryPipe_spec (h.current.resolve_left hcur) (not_le.mp hfd) hclose
  cases hrest
  exact ⟨(hclosed .terminal).counted, (hclosed .terminal).closes⟩

/-- A new entry in place of an unused one, to which nothing points. -/
theorem FdsCounted.replaceUnused (h : FdsCounted k live) {q : Pipe} (htables : Tables k')
    (hfds : SameFds k k') (hfree : (k.pipes i).used = false)
    (hpipes : k'.pipes = update k.pipes i q) (hq : q.used = true → q.readers = 0 ∧ q.writers = 0) :
    FdsCounted k' live := by
  have hends : ∀ t j, k'.ends live t j = k.ends live t j := by
    intro t j
    rw [Kernel.ends, hfds.fdType, hfds.fdPipe]
  have hnot : ∀ p, k.allocated p = true → ∀ fd < maxFds, k.fdPipe p fd ≠ some i := by
    intro p hp fd hfd hx
    have hu := (h.points p hp fd hfd i hx).2.1
    rw [hfree] at hu
    cases hu
  have hzero : ∀ t, k.ends live t i = 0 :=
    ends_eq_zero fun p hp => hnot p ((h.mem_live p).mp hp)
  refine ⟨htables, fun p => by rw [hfds.allocated, h.mem_live], ?_, ?_, ?_, ?_⟩
  · rw [hfds.current, hfds.allocated]
    exact h.current
  · intro j hj hu
    rw [hends, hpipes] at *
    by_cases hji : j = i
    · subst hji
      rw [Function.update_self] at hu ⊢
      rw [hzero, (hq hu).1]
      rfl
    · rw [Function.update_of_ne hji] at hu ⊢
      exact h.readers j hj hu
  · intro j hj hu
    rw [hends, hpipes] at *
    by_cases hji : j = i
    · subst hji
      rw [Function.update_self] at hu ⊢
      rw [hzero, (hq hu).2]
      rfl
    · rw [Function.update_of_ne hji] at hu ⊢
      exact h.writers j hj hu
  · intro p hp fd hfd j hx
    rw [hfds.allocated] at hp
    rw [hfds.fdPipe] at hx
    have hji : j ≠ i := fun heq => hnot p hp fd hfd (heq ▸ hx)
    rw [hpipes, Function.update_of_ne hji, hfds.fdType]
    exact h.points p hp fd hfd j hx

theorem FdsCounted.pipeCreate_spec (h : FdsCounted k live) :
    FdsCounted (pipeCreate k).2 live ∧ ∀ i,
      ((k.pipes i).used = true → (pipeCreate k).2.pipes i = k.pipes i) ∧
      ((k.pipes i).used = false → ((pipeCreate k).2.pipes i).used = true →
        ((pipeCreate k).2.pipes i).readers + ((pipeCreate k).2.pipes i).writers = 0) := by
  obtain ⟨r, k', heq, htables, hfds, hcase⟩ := SoKernel.pipeCreate_spec h.tables
  rw [heq]
  have hupdate : ∀ i q, (k.pipes i).used = false → k'.pipes = update k.pipes i q →
      (q.used = true → q.readers = 0 ∧ q.writers = 0) →
      FdsCounted k' live ∧ ∀ j, ((k.pipes j).used = true → k'.pipes j = k.pipes j) ∧
        ((k.pipes j).used = false → (k'.pipes j).used = true →
          (k'.pipes j).readers + (k'.pipes j).writers = 0) := by
    intro i q hfree hpipes hq
    refine ⟨h.replaceUnused htables hfds hfree hpipes hq, fun j => ?_⟩
    rw [hpipes]
    by_cases hji : j = i
    · subst hji
      rw [Function.update_self]
      refine ⟨fun hu => absurd hu (by rw [hfree]; decide), fun _ hu => ?_⟩
      rw [(hq hu).1, (hq hu).2]
      rfl
    · rw [Function.update_of_ne hji]
      exact ⟨fun _ => rfl, fun hfree hu => absurd hu (by rw [hfree]; decide)⟩
  rcases hcase with ⟨-, hpipes | ⟨i, q, hfree, hq, hpipes⟩⟩ | ⟨-, -, i, -, q, hfree, -, hr, hw, -, hpipes⟩
  · refine ⟨h.same htables hpipes hfds, fun j => ?_⟩
    rw [hpipes]
    exact ⟨fun _ => rfl, fun hfree hu => absurd hu (by rw [hfree]; decide)⟩
  · exact hupdate i q hfree hpipes fun hu => absurd hu (by rw [hq]; decide)
  · exact hupdate i q hfree hpipes fun _ => ⟨hr, hw⟩

end Duplication

section Runs

/-- No descriptor of an existing process points to the pipe in entry `i`. -/
def Unreferenced (k : Kernel) (i : ℕ) : Prop :=
  ∀ p, k.allocated p = true → ∀ fd < maxFds, k.fdPipe p fd ≠ some i

/-- A pipe in use has no ends exactly when nothing points to it. -/
theorem FdsCounted.unreferenced_iff (h : FdsCounted k live) (hi : i < maxPipes)
    (hu : (k.pipes i).used = true) :
    Unreferenced k i ↔ (k.pipes i).readers + (k.pipes i).writers = 0 := by
  have hr := h.readers i hi hu
  have hw := h.writers i hi hu
  constructor
  · intro hnot
    have hzero : ∀ t, k.ends live t i = 0 :=
      ends_eq_zero fun p hp => hnot p ((h.mem_live p).mp hp)
    rw [hr, hw, hzero, hzero]
    rfl
  · intro hsum p hp fd hfd hx
    have hmem := (h.mem_live p).mpr hp
    have hterm := (h.points p hp fd hfd i hx).2.2
    cases ht : k.fdType p fd with
    | terminal => exact hterm ht
    | pipeRead =>
        have hpos : 0 < k.ends live .pipeRead i := ends_pos hmem hfd ht hx
        omega
    | pipeWrite =>
        have hpos : 0 < k.ends live .pipeWrite i := ends_pos hmem hfd ht hx
        omega

theorem FdsCounted.unreferenced_of_unused (h : FdsCounted k live)
    (hu : (k.pipes i).used = false) : Unreferenced k i := by
  intro p hp fd hfd hx
  have hused := (h.points p hp fd hfd i hx).2.1
  rw [hu] at hused
  cases hused

/-- What one call does to the entry `i` of the table: a pipe in use is given up exactly when
its last descriptor goes away, and nothing points to an entry that was taken again. -/
structure EntryStep (k k' : Kernel) (i : ℕ) : Prop where
  unopened : (k.pipes i).used = true → Unreferenced k i →
    (k'.pipes i).used = true ∧ (k'.pipes i).id = (k.pipes i).id
  opened : (k.pipes i).used = true → ¬Unreferenced k i →
    ((k'.pipes i).used = false ↔ Unreferenced k' i) ∧
      ((k'.pipes i).used = true → (k'.pipes i).id = (k.pipes i).id)
  taken : (k.pipes i).used = false → (k'.pipes i).used = true → Unreferenced k' i

theorem EntryStep.of_closes_opens {k₂ : Kernel} {live' : Finset ℕ} (h : FdsCounted k live)
    (h' : FdsCounted k' live') (hcloses : Closes k k₂) (hopens : Opens k₂ k') (hi : i < maxPipes) :
    EntryStep k k' i := by
  obtain ⟨hfree, hused⟩ := hcloses i hi
  obtain ⟨hsame, hid, hle⟩ := hopens i hi
  refine ⟨fun hu hnone => ?_, fun hu hsome => ?_, fun hu hu' => ?_⟩
  · rw [h.unreferenced_iff hi hu] at hnone
    rcases hused hu with ⟨hu₂, hid₂, -, -⟩ | ⟨-, hpos⟩
    · exact ⟨hsame.trans hu₂, hid.trans hid₂⟩
    · omega
  · have hpos : 0 < (k.pipes i).readers + (k.pipes i).writers := by
      have hnn := h.nonneg hi hu
      rw [h.unreferenced_iff hi hu] at hsome
      omega
    rcases hused hu with ⟨hu₂, hid₂, -, hpos₂⟩ | ⟨hu₂, -⟩
    · have hu' : (k'.pipes i).used = true := hsame.trans hu₂
      refine ⟨⟨fun hno => ?_, fun hno => ?_⟩, fun _ => hid.trans hid₂⟩
      · rw [hu'] at hno
        cases hno
      · rw [h'.unreferenced_iff hi hu'] at hno
        have := hpos₂ hpos
        omega
    · have hu' : (k'.pipes i).used = false := hsame.trans hu₂
      refine ⟨⟨fun _ => h'.unreferenced_of_unused hu', fun _ => hu'⟩, fun hyes => ?_⟩
      rw [hu'] at hyes
      cases hyes
  · rw [hsame, hfree hu] at hu'
    cases hu'

/-- Every call keeps the counts, and destroys pipes as it should. -/
theorem FdsCounted.step {c : FdCall} (h : FdsCounted k live) (hpromise : FdPromise k c)
    (heq : fdExec k c = some k') :
    ∃ live', FdsCounted k' live' ∧ ∀ i < maxPipes, EntryStep k k' i := by
  have hcloses : ∀ {live'}, FdsCounted k' live' → Closes k k' →
      ∃ live', FdsCounted k' live' ∧ ∀ i < maxPipes, EntryStep k k' i := fun h' hc =>
    ⟨_, h', fun _ hi => .of_closes_opens h h' hc (.of_eq rfl) hi⟩
  cases c with
  | pipeCreate =>
      obtain ⟨h', hentries⟩ := h.pipeCreate_spec
      cases heq
      refine ⟨live, h', fun i hi => ⟨fun hu _ => ?_, fun hu hsome => ?_, fun hu hu' => ?_⟩⟩
      · rw [(hentries i).1 hu]
        exact ⟨hu, rfl⟩
      · have hsame := (hentries i).1 hu
        have hu' : ((pipeCreate k).2.pipes i).used = true := by rw [hsame, hu]
        refine ⟨⟨fun hno => ?_, fun hno => ?_⟩, fun _ => by rw [hsame]⟩
        · rw [hu'] at hno
          cases hno
        · rw [h'.unreferenced_iff hi hu', hsame, ← h.unreferenced_iff hi hu] at hno
          exact absurd hno hsome
      · exact (h'.unreferenced_iff hi hu').mpr ((hentries i).2 hu hu')
  | createProcess r =>
      obtain ⟨q, k₁, hcreate, ⟨live', h'⟩, hopens, -⟩ := h.create_spec hpromise
      rw [fdExec, hcreate] at heq
      cases heq
      exact ⟨live', h', fun i hi => .of_closes_opens h h' (.of_eq rfl) hopens hi⟩
  | pipeDup pipeId fd mode =>
      obtain ⟨⟨r, k₁⟩, hdup, rfl⟩ := Option.map_eq_some_iff.mp heq
      obtain ⟨h', k₂, hc, ho⟩ := h.dup_spec hdup
      exact ⟨live, h', fun i hi => .of_closes_opens h h' hc ho hi⟩
  | releaseFd fd =>
      obtain ⟨⟨r, k₁⟩, hrelease, rfl⟩ := Option.map_eq_some_iff.mp heq
      obtain ⟨h', hc⟩ := h.release_spec hrelease
      exact hcloses h' hc
  | exit =>
      obtain ⟨h', hc⟩ := h.exit_spec heq
      exact hcloses h' hc
  | kill p =>
      obtain ⟨h', hc⟩ := h.kill_spec hpromise heq
      exact hcloses h' hc
  | destroy p =>
      obtain ⟨⟨live', h'⟩, hc⟩ := h.destroy_spec hpromise.1 hpromise.2 heq
      exact hcloses h' hc
  | switchTo p =>
      cases heq
      refine hcloses (h.congr h.tables rfl rfl (Or.inr hpromise) fun _ _ _ _ => ⟨rfl, rfl⟩) (.of_eq rfl)

theorem bootKernel_counted (queues : QueueId → ProcessQueue) (n : ℕ) :
    FdsCounted
      { bootKernel with
        nextPid := n
        queues := queues } ∅ := by
  refine ⟨⟨⟨?_, ?_⟩, ?_, ?_, ?_, ?_, ?_, ?_, ?_, ?_, ?_⟩, ?_, ?_, ?_, ?_, ?_⟩
  all_goals simp [bootKernel]

/-- After `init_scheduler` there are no pipes. -/
theorem initScheduler_counted {k₀ : Kernel} {pcb stack : ℕ} (hpcb : pcb < addressCount)
    (hinit : initScheduler bootKernel pcb stack = some k₀) : ∃ live, FdsCounted k₀ live := by
  unfold initScheduler at hinit
  obtain ⟨q, k₁, hcreate, ⟨live, h⟩, -, halloc⟩ := (bootKernel_counted (fun _ => ⟨0, 0, 0⟩) 1).create_spec
    (r := ⟨1, 0, 0, false, 0, 0, pcb, stack⟩) ⟨fun _ => ⟨hpcb, rfl⟩, fun hp => absurd rfl hp⟩
  simp only [hcreate, Option.bind_eq_bind, Option.bind_some, Option.some.injEq] at hinit
  subst hinit
  split
  · rename_i hq
    exact ⟨live, h.congr h.tables rfl rfl (Or.inr (halloc hq)) fun _ _ _ _ => ⟨rfl, rfl⟩⟩
  · exact ⟨live, h.quiet ⟨rfl, rfl, rfl, rfl⟩ ⟨rfl, rfl, rfl⟩ rfl⟩

/-- The counts agree with the descriptors in every reachable state. -/
theorem FdReach.counted {k₀ : Kernel} {pcb stack : ℕ} (hpcb : pcb < addressCount)
    (hinit : initScheduler bootKernel pcb stack = some k₀) (hreach : FdReach k₀ k) :
    ∃ live, FdsCounted k live := by
  induction hreach with
  | start => exact initScheduler_counted hpcb hinit
  | step _ promise call ih =>
      obtain ⟨live, h⟩ := ih
      obtain ⟨live', h', -⟩ := h.step promise call
      exact ⟨live', h'⟩

/-- In every reachable state the ends of each pipe in use are the descriptors that point to
it, descriptors point to pipes in use, and each further call gives up a pipe exactly when
its last descriptor goes away. -/
theorem pipe_ends_are_descriptors {k₀ : Kernel} {pcb stack : ℕ} (hpcb : pcb < addressCount)
    (hinit : initScheduler bootKernel pcb stack = some k₀) (hreach : FdReach k₀ k) :
    (∃ live : Finset ℕ, (∀ p, p ∈ live ↔ k.allocated p = true) ∧
      ∀ i < maxPipes, (k.pipes i).used = true →
        (k.pipes i).readers = k.ends live .pipeRead i ∧
          (k.pipes i).writers = k.ends live .pipeWrite i) ∧
    (∀ p, k.allocated p = true → ∀ fd < maxFds, ∀ i, k.fdPipe p fd = some i →
      i < maxPipes ∧ (k.pipes i).used = true) ∧
    ∀ c k', FdPromise k c → fdExec k c = some k' → ∀ i < maxPipes, EntryStep k k' i := by
  obtain ⟨live, h⟩ := hreach.counted hpcb hinit
  refine ⟨⟨live, h.mem_live, fun i hi hu => ⟨h.readers i hi hu, h.writers i hi hu⟩⟩,
    fun p hp fd hfd i hx => ?_, fun c k' hpromise hcall => ?_⟩
  · obtain ⟨hi, hu, -⟩ := h.points p hp fd hfd i hx
    exact ⟨hi, hu⟩
  · obtain ⟨-, -, hsteps⟩ := h.step hpromise hcall
    exact hsteps

/-- The theorem at a run: the shell makes a pipe and takes a writing end of it. -/
theorem pipe_ends_are_descriptors_shell :
    ∃ k₀ k, initScheduler bootKernel 16 8192 = some k₀ ∧ FdReach k₀ k ∧
      k.fdPipe 48 3 = some 0 ∧ (k.pipes 0).writers = 1 ∧
      (∀ p, k.allocated p = true → ∀ fd < maxFds, ∀ i, k.fdPipe p fd = some i →
        i < maxPipes ∧ (k.pipes i).used = true) ∧
      ∀ c k', FdPromise k c → fdExec k c = some k' → ∀ i < maxPipes, EntryStep k k' i := by
  have hlt : 48 < addressCount := by
    unfold addressCount
    decide
  have hcalc : ((initScheduler bootKernel 16 8192).bind fun k₀ =>
      (fdExec k₀ (.createProcess ⟨1, 0, 2, true, 0, 0, 48, 12288⟩)).bind fun k₁ =>
        (fdExec k₁ (.switchTo 48)).bind fun k₂ =>
          (fdExec k₂ .pipeCreate).bind fun k₃ =>
            (fdExec k₃ (.pipeDup 1 3 1)).map fun k₄ =>
              ((k₀.allocated 48, k₁.allocated 48), k₄.fdPipe 48 3, (k₄.pipes 0).writers)) =
        some ((false, true), some 0, 1) := by
    decide +kernel
  obtain ⟨k₀, hinit, h₁⟩ := Option.bind_eq_some_iff.mp hcalc
  obtain ⟨k₁, hcreate, h₂⟩ := Option.bind_eq_some_iff.mp h₁
  obtain ⟨k₂, hswitch, h₃⟩ := Option.bind_eq_some_iff.mp h₂
  obtain ⟨k₃, hpipe, h₄⟩ := Option.bind_eq_some_iff.mp h₃
  obtain ⟨k₄, hdup, h₅⟩ := Option.map_eq_some_iff.mp h₄
  simp only [Prod.mk.injEq] at h₅
  obtain ⟨⟨hfree, halloc⟩, hfd, hwriters⟩ := h₅
  have hreach₁ : FdReach k₀ k₁ :=
    .step (c := .createProcess _) .start ⟨fun _ => ⟨hlt, hfree⟩, fun h => absurd rfl h⟩ hcreate
  have hreach₂ : FdReach k₀ k₂ := .step (c := .switchTo 48) hreach₁ halloc hswitch
  have hreach : FdReach k₀ k₄ :=
    .step (c := .pipeDup 1 3 1) (.step (c := .pipeCreate) hreach₂ trivial hpipe) trivial hdup
  obtain ⟨-, hpoints, hsteps⟩ := pipe_ends_are_descriptors (by omega) hinit hreach
  exact ⟨k₀, k₄, hinit, hreach, hfd, hwriters, hpoints, hsteps⟩

end Runs
end SoKernel
