import SoKernel.Ipc.SemLedger
import SoKernel.Syscalls.PipeReferences

/-!
# The objects of the kernel that processes take and give back

Creating, ending and destroying a process opens and closes ends of pipes for it. Such a call
makes no new pipe, changes the descriptors of that process only, and gives up the
semaphores of the pipes that it destroys and no others.
-/

namespace SoKernel

open Function (update)

variable {k k' k₁ : Kernel} {live : Finset ℕ} {i id p fd : ℕ}

section Moves

/-- What a call that opens or closes ends for the process `p` does. -/
structure EndsMoved (k k' : Kernel) (p : ℕ) : Prop where
  kept : ∀ i < maxPipes, (k'.pipes i).used = true → (k.pipes i).used = true ∧
    (k'.pipes i).id = (k.pipes i).id ∧ (k'.pipes i).semIds = (k.pipes i).semIds
  next : k'.nextPipeId = k.nextPipeId
  fds : ∀ q, q ≠ p → ∀ fd, k'.fdType q fd = k.fdType q fd ∧ k'.fdPipe q fd = k.fdPipe q fd
  ledger : ∀ refs, Ledger k refs → Ledger k' refs

namespace EndsMoved

theorem trans (h : EndsMoved k k₁ p) (h' : EndsMoved k₁ k' p) : EndsMoved k k' p where
  kept := fun i hi hu => by
    obtain ⟨hu₁, hid, hsems⟩ := h'.kept i hi hu
    obtain ⟨hu₂, hid', hsems'⟩ := h.kept i hi hu₁
    exact ⟨hu₂, hid.trans hid', hsems.trans hsems'⟩
  next := h'.next.trans h.next
  fds := fun q hq fd => by
    obtain ⟨ht, hx⟩ := h'.fds q hq fd
    obtain ⟨ht', hx'⟩ := h.fds q hq fd
    exact ⟨ht.trans ht', hx.trans hx'⟩
  ledger := fun refs hrefs => h'.ledger refs (h.ledger refs hrefs)

/-- Neither pipes nor semaphores change. -/
theorem of_same (hpipes : SamePipes k k') (hsems : k'.semaphores = k.semaphores)
    (hfds : ∀ q, q ≠ p → ∀ fd, k'.fdType q fd = k.fdType q fd ∧ k'.fdPipe q fd = k.fdPipe q fd) :
    EndsMoved k k' p where
  kept := fun i _ hu => by
    rw [hpipes.pipes] at hu ⊢
    exact ⟨hu, rfl, rfl⟩
  next := hpipes.nextPipeId
  fds := hfds
  ledger := fun refs h => by
    apply h.same (SameSlots.of_eq hsems hpipes.nextSemId).semRefs
    exact fun a => pipeSem_congr hpipes.pipes

theorem refl (k : Kernel) (p : ℕ) : EndsMoved k k p :=
  .of_same (.refl k) rfl fun _ _ _ => ⟨rfl, rfl⟩

theorem of_sameFds (hfds : SameFds k k') (hpipes : SamePipes k k')
    (hsems : k'.semaphores = k.semaphores) : EndsMoved k k' p :=
  .of_same hpipes hsems fun q _ fd => by
    rw [hfds.fdType, hfds.fdPipe]
    exact ⟨rfl, rfl⟩

theorem setFd (k : Kernel) (p fd : ℕ) (t : FdType) (x : Option ℕ) :
    EndsMoved k (setFd k p fd t x) p :=
  .of_same ⟨rfl, rfl, rfl⟩ rfl fun _ hq _ => setFd_other (.inl hq) k t x

end EndsMoved

/-- The counter of the identifiers of pipes. -/
theorem nextPipeId_frame : CallFrame fun k k' => k'.nextPipeId = k.nextPipeId where
  refl := fun _ => rfl
  trans := fun h h' => h'.trans h
  wait := fun k id _ => by
    obtain ⟨sems, wos, swn, heq⟩ := semWaitStart_shape k id
    rw [heq]
  signal := fun h => by
    obtain ⟨w, heffect⟩ := semSignal_effect h
    exact heffect.same.2.nextPipeId
  pipe := fun _ _ _ => rfl

theorem pipeOpenById_moved (T : Tables k) {isWriter : Bool} {r : ℕ}
    (h : pipeOpenById k id isWriter = some (r, k')) : EndsMoved k k' p := by
  obtain ⟨r', k'', heq, -, hfds, hcase⟩ := pipeOpenById_spec T id isWriter
  cases h.symm.trans heq
  have hframe := nextPipeId_frame.pipeOpenById h
  have hslots := sameSlots_frame.pipeOpenById h
  rcases hcase with ⟨-, -, rfl⟩ | ⟨-, i, -, hpipes⟩
  · exact .refl _ p
  · obtain ⟨hid, hused, hsems, -⟩ := (k.pipes i).opened_same isWriter
    have hentry : ∀ j, (k'.pipes j).used = (k.pipes j).used ∧ (k'.pipes j).id = (k.pipes j).id ∧
        (k'.pipes j).semIds = (k.pipes j).semIds := by
      intro j
      rw [hpipes]
      by_cases hj : j = i
      · rw [hj, Function.update_self]
        exact ⟨hused, hid, hsems⟩
      · rw [Function.update_of_ne hj]
        exact ⟨rfl, rfl, rfl⟩
    refine ⟨fun j _ hu => ⟨(hentry j).1 ▸ hu, (hentry j).2⟩, hframe, fun q _ fd => ?_,
      fun refs hrefs => ?_⟩
    · rw [hfds.fdType, hfds.fdPipe]
      exact ⟨rfl, rfl⟩
    · refine hrefs.same hslots.semRefs fun a => ?_
      rw [pipeSem_iff, pipeSem_iff]
      refine exists_congr fun j => and_congr_right fun _ => ?_
      rw [(hentry j).1, (hentry j).2.2]

theorem semCloseById_nextPipeId (k : Kernel) (id : ℕ) :
    (semCloseById k id).2.nextPipeId = k.nextPipeId := by
  obtain ⟨sems, heq, -⟩ := semCloseById_kept k id
  rw [heq]

theorem pipeCloseById_moved (T : Tables k) {isWriter : Bool} {r : ℕ}
    (h : pipeCloseById k id isWriter = some (r, k')) : EndsMoved k k' p := by
  obtain ⟨-, hfds, hcase⟩ := pipeCloseById_spec T h
  have hnext : k'.nextPipeId = k.nextPipeId := by
    rcases nextPipeId_frame.pipeCloseById h with ⟨-, hk⟩ | ⟨i, -, hframe⟩
    · dsimp only at hk
      rw [hk]
    · split at hframe
      · obtain ⟨k₁, hk₁, hk'⟩ := hframe
        dsimp only at hk'
        rw [hk', semCloseById_nextPipeId, semCloseById_nextPipeId, semCloseById_nextPipeId, hk₁]
      · exact hframe
  refine ⟨fun j hj hu => ?_, hnext, fun q _ fd => ?_, fun refs hrefs => hrefs.pipeClose T h⟩
  · rcases hcase with ⟨-, rfl⟩ | ⟨i, -, hpipes⟩
    · exact ⟨hu, rfl, rfl⟩
    · rw [hpipes] at hu ⊢
      by_cases hji : j = i
      · subst hji
        rw [Function.update_self, Pipe.afterClose] at hu ⊢
        split at hu
        · cases hu
        · next hlive =>
            obtain ⟨hid, hused, hsems, -⟩ := (k.pipes j).closed_same isWriter
            rw [if_neg hlive]
            exact ⟨hused ▸ hu, hid, hsems⟩
      · rw [Function.update_of_ne hji] at hu ⊢
        exact ⟨hu, rfl, rfl⟩
  · rw [hfds.fdType, hfds.fdPipe]
    exact ⟨rfl, rfl⟩

end Moves

section Closing

theorem closeEntryPipe_moved (T : Tables k) (heq : closeEntryPipe k p fd = some k') :
    EndsMoved k k' p := by
  unfold closeEntryPipe at heq
  split at heq
  · cases heq
    exact .refl _ p
  · split at heq
    · cases heq
      exact .refl _ p
    · split at heq
      · cases heq
        exact .refl _ p
      · obtain ⟨⟨r, k₁⟩, hclose, rfl⟩ := Option.map_eq_some_iff.mp heq
        exact pipeCloseById_moved T hclose

theorem closeFd_moved (T : Tables k) (heq : closeFd k p fd = some k') : EndsMoved k k' p := by
  by_cases ht : k.fdType p fd = .terminal
  · rw [closeFd, ht] at heq
    cases heq
    exact .refl _ p
  · rw [closeFd_eq ht] at heq
    obtain ⟨k₁, hclose, rfl⟩ := Option.map_eq_some_iff.mp heq
    exact (closeEntryPipe_moved T hclose).trans (.setFd k₁ p fd .terminal none)

theorem FdsCounted.closeFds_moved {fds : List ℕ} (h : FdsCounted k live)
    (hp : k.allocated p = true) (hfds : ∀ fd ∈ fds, fd < maxFds)
    (heq : closeFds p fds k = some k') : EndsMoved k k' p := by
  induction fds generalizing k with
  | nil =>
      cases heq
      exact .refl _ p
  | cons fd fds ih =>
      rw [closeFds, Option.bind_eq_bind] at heq
      obtain ⟨k₁, hfirst, heq⟩ := Option.bind_eq_some_iff.mp heq
      obtain ⟨hclosed, -⟩ := h.closeFd_spec hp (hfds fd (by simp)) hfirst
      have hrest := ih hclosed.counted (by rw [hclosed.allocated]; exact hp)
        (fun gd hgd => hfds gd (by simp [hgd])) heq
      exact (closeFd_moved h.tables hfirst).trans hrest

/-- What the end of the process `p` does: its descriptors of pipes are closed. -/
structure Ended (k k' : Kernel) (p : ℕ) : Prop where
  counted : ∃ live, FdsCounted k' live
  closes : Closes k k'
  moved : EndsMoved k k' p
  fdPipe : ∀ fd < maxFds, k'.fdPipe p fd = none ∨ k'.fdPipe p fd = k.fdPipe p fd

theorem Ended.refl (h : FdsCounted k live) (p : ℕ) : Ended k k p :=
  ⟨⟨live, h⟩, .of_eq rfl, .refl k p, fun _ _ => .inr rfl⟩

/-- The end of a process makes no descriptor. -/
theorem Ended.unreferenced (he : Ended k k' p)
    (halloc : ∀ q, k'.allocated q = true → k.allocated q = true) (h : Unreferenced k i) :
    Unreferenced k' i := by
  intro q hq fd hfd hx
  by_cases hqp : q = p
  · subst hqp
    rcases he.fdPipe fd hfd with hnone | hsame
    · rw [hnone] at hx
      cases hx
    · exact h q (halloc q hq) fd hfd (hsame ▸ hx)
  · rw [(he.moved.fds q hqp fd).2] at hx
    exact h q (halloc q hq) fd hfd hx

/-- All descriptors of a process are closed, and then only the scheduler is changed. -/
theorem FdsCounted.ended (h : FdsCounted k live) (hp : k.allocated p = true)
    (hclose : closeFds p (List.range maxFds) k = some k₁) (hfds : SameFds k₁ k')
    (hpipes : SamePipes k₁ k') (hsems : k'.semaphores = k₁.semaphores) : Ended k k' p := by
  have hrange : ∀ fd ∈ List.range maxFds, fd < maxFds := fun fd hfd => List.mem_range.mp hfd
  obtain ⟨hclosed, hnone⟩ := h.closeFds_spec hp hrange hclose
  have hmoved := h.closeFds_moved hp hrange hclose
  refine ⟨⟨live, hclosed.counted.quiet hfds hpipes hsems⟩,
    hclosed.closes.trans (.of_eq hpipes.pipes),
    hmoved.trans (.of_sameFds hfds hpipes hsems), fun fd hfd => .inl ?_⟩
  rw [hfds.fdPipe]
  exact hnone fd (List.mem_range.mpr hfd)

theorem FdsCounted.exit_ended (h : FdsCounted k live) (heq : schedulerFinishCurrent k = some k') :
    Ended k k' k.current ∧ k'.allocated = k.allocated := by
  unfold schedulerFinishCurrent at heq
  split at heq
  · cases heq
    exact ⟨.refl h _, rfl⟩
  · next hcur =>
      have hc : k.current ≠ 0 := fun h0 => hcur (.inl h0)
      have hp := h.current.resolve_left hc
      obtain ⟨k₁, hclose, heq⟩ := Option.bind_eq_some_iff.mp heq
      rw [processCloseFds, if_neg hc] at hclose
      obtain ⟨hclosed, -⟩ := h.closeFds_spec hp (fun fd hfd => List.mem_range.mp hfd) hclose
      cases heq
      exact ⟨h.ended hp hclose ⟨rfl, rfl, rfl, rfl⟩ ⟨rfl, rfl, rfl⟩ rfl, hclosed.allocated⟩

theorem FdsCounted.kill_ended (h : FdsCounted k live) (hp : k.allocated p = true)
    (heq : killProcess k p = some k') : Ended k k' p ∧ k'.allocated = k.allocated := by
  obtain ⟨k₁, hclose, hfds, hpipes, hsems⟩ := killProcess_same heq
  unfold processCloseFds at hclose
  split at hclose
  · cases hclose
    exact ⟨⟨⟨live, h.quiet hfds hpipes hsems⟩, .of_eq hpipes.pipes,
      .of_sameFds hfds hpipes hsems, fun fd _ => .inr (by rw [hfds.fdPipe])⟩, hfds.allocated⟩
  · obtain ⟨hclosed, -⟩ := h.closeFds_spec hp (fun fd hfd => List.mem_range.mp hfd) hclose
    exact ⟨h.ended hp hclose hfds hpipes hsems, hfds.allocated.trans hclosed.allocated⟩

theorem FdsCounted.destroy_ended (h : FdsCounted k live) (hp : k.allocated p = true)
    (hcur : p ≠ k.current) (hne : p ≠ 0) (heq : processDestroy k p = some k') :
    Ended k k' p ∧ k'.allocated = update k.allocated p false := by
  obtain ⟨hcounted, hcloses⟩ := h.destroy_spec hp hcur heq
  rw [processDestroy, if_neg hne] at heq
  obtain ⟨k₁, hclose, heq⟩ := Option.bind_eq_some_iff.mp heq
  obtain ⟨hfds, hpipes, hsems⟩ := unlinkChild_same k₁ p
  obtain ⟨hclosed, hnone⟩ := h.closeFds_spec hp (fun fd hfd => List.mem_range.mp hfd) hclose
  have hmoved := h.closeFds_moved hp (fun fd hfd => List.mem_range.mp hfd) hclose
  cases heq
  refine ⟨⟨hcounted, hcloses, hmoved.trans ?_, fun fd hfd => .inl ?_⟩, ?_⟩
  · have hunlinked : EndsMoved k₁ (unlinkChild k₁ p) p := .of_sameFds hfds hpipes hsems
    exact hunlinked.trans (.of_same ⟨rfl, rfl, rfl⟩ rfl fun _ _ _ => ⟨rfl, rfl⟩)
  · dsimp only
    rw [hfds.fdPipe]
    exact hnone fd (List.mem_range.mpr hfd)
  · dsimp only
    rw [hfds.allocated, hclosed.allocated]

end Closing

section Creating

variable {r : SpawnRequest} {q : ℕ}

/-- The search for a pipe depends on what opening an end keeps. -/
theorem Opens.pipeGetById (h : Opens k k') (id : ℕ) : pipeGetById k' id = pipeGetById k id := by
  unfold SoKernel.pipeGetById findPipeById
  split
  · rfl
  · rw [← List.head?_filter, ← List.head?_filter, List.filter_congr]
    intro i hi
    obtain ⟨hused, hid, -⟩ := h i (List.mem_range.mp hi)
    rw [hused, hid]

theorem attachPipe_moved (T : Tables k) {isWriter : Bool}
    (heq : attachPipe k p fd id isWriter = some k') : EndsMoved k k' p ∧
      (k'.fdPipe p fd = k.fdPipe p fd ∧ (id = 0 ∨ pipeGetById k id = none) ∨
        id ≠ 0 ∧ ∃ i, pipeGetById k id = some i ∧ k'.fdPipe p fd = some i) := by
  unfold attachPipe at heq
  split at heq
  · next hid =>
      cases heq
      exact ⟨.refl _ p, .inl ⟨rfl, .inl hid⟩⟩
  · next hid =>
      split at heq
      · next hnone =>
          cases heq
          exact ⟨.refl _ p, .inl ⟨rfl, .inr hnone⟩⟩
      · next i hfound =>
          obtain ⟨⟨r, k₁⟩, hopen, heq⟩ := Option.bind_eq_some_iff.mp heq
          obtain ⟨r', k₂, heq', -, -, hcase⟩ := pipeOpenById_spec T id isWriter
          cases hopen.symm.trans heq'
          rcases hcase with ⟨-, hnone, -⟩ | ⟨rfl, -⟩
          · rw [hfound] at hnone
            cases hnone
          · cases heq
            refine ⟨(pipeOpenById_moved T hopen).trans (.setFd _ _ _ _ _), .inr ⟨hid, i, hfound, ?_⟩⟩
            exact setFd_fdPipe _ _ _ _ _

/-- A descriptor of the child is empty or that of the parent. -/
theorem inheritFd_moved (T : Tables k) {parent : ℕ} (heq : inheritFd k p parent fd = some k') :
    EndsMoved k k' p ∧ (k'.fdPipe p fd = none ∨ k'.fdPipe p fd = k.fdPipe parent fd) ∧
      ∀ gd, gd ≠ fd → k'.fdPipe p gd = k.fdPipe p gd := by
  have hclear : EndsMoved k (setFd k p fd .terminal none) p ∧
      ((setFd k p fd .terminal none).fdPipe p fd = none ∨
        (setFd k p fd .terminal none).fdPipe p fd = k.fdPipe parent fd) ∧
      ∀ gd, gd ≠ fd → (setFd k p fd .terminal none).fdPipe p gd = k.fdPipe p gd :=
    ⟨.setFd _ _ _ _ _, .inl (setFd_fdPipe _ _ _ _ _), fun gd hgd => (setFd_other (.inr hgd) _ _ _).2⟩
  unfold inheritFd at heq
  split at heq
  · cases heq
    exact hclear
  · split at heq
    · cases heq
      exact hclear
    · next pipe hpipe =>
        split at heq
        · cases heq
          exact hclear
        · obtain ⟨⟨r, k₁⟩, hopen, heq⟩ := Option.bind_eq_some_iff.mp heq
          have hmoved : EndsMoved k k₁ p := pipeOpenById_moved T hopen
          obtain ⟨r', k₂, heq', -, hfds, -⟩ := pipeOpenById_spec T (k.pipes pipe).id
            (k.fdType parent fd = .pipeWrite)
          cases hopen.symm.trans heq'
          have hother : ∀ t x gd, gd ≠ fd → (setFd k₁ p fd t x).fdPipe p gd = k.fdPipe p gd := by
            intro t x gd hgd
            rw [(setFd_other (.inr hgd) k₁ t x).2, hfds.fdPipe]
          cases heq
          split
          · exact ⟨hmoved.trans (.setFd _ _ _ _ _), .inr (by rw [setFd_fdPipe, hpipe]), hother _ _⟩
          · exact ⟨hmoved.trans (.setFd _ _ _ _ _), .inl (setFd_fdPipe _ _ _ _ _), hother _ _⟩

/-- The child gets at most the pipes of its parent. -/
theorem FdsCounted.inheritFds_moved {fds : List ℕ} (h : FdsCounted k live)
    (hp : k.allocated p = true) (hparent : k.allocated r.parent = true) (hne : r.parent ≠ p)
    (hnodup : fds.Nodup) (hfds : ∀ fd ∈ fds, fd < maxFds)
    (hnone : ∀ fd ∈ fds, ¬((fd = 0 ∧ r.stdinPipeId ≠ 0) ∨ (fd = 1 ∧ r.stdoutPipeId ≠ 0)) →
      k.fdPipe p fd = none) (heq : inheritFds k p r fds = some k') : EndsMoved k k' p ∧
      ∀ fd < maxFds, k'.fdPipe p fd = k.fdPipe p fd ∨
        ¬((fd = 0 ∧ r.stdinPipeId ≠ 0) ∨ (fd = 1 ∧ r.stdoutPipeId ≠ 0)) ∧
          (k'.fdPipe p fd = none ∨ k'.fdPipe p fd = k.fdPipe r.parent fd) := by
  induction fds generalizing k with
  | nil =>
      cases heq
      exact ⟨.refl _ p, fun _ _ => .inl rfl⟩
  | cons fd fds ih =>
      obtain ⟨hfirst, hrest⟩ := List.nodup_cons.mp hnodup
      have htail : ∀ gd ∈ fds, gd < maxFds := fun gd hgd => hfds gd (by simp [hgd])
      rw [inheritFds] at heq
      by_cases hskip : (fd = 0 ∧ r.stdinPipeId ≠ 0) ∨ (fd = 1 ∧ r.stdoutPipeId ≠ 0)
      · rw [if_pos hskip, Option.bind_eq_bind, Option.bind_some] at heq
        exact ih h hp hparent hrest htail (fun gd hgd => hnone gd (by simp [hgd])) heq
      · rw [if_neg hskip] at heq
        obtain ⟨k₁, hinherit, heq⟩ := Option.bind_eq_some_iff.mp heq
        obtain ⟨k₂, heq₂, hopened, hother⟩ := h.inheritFd_spec hp (hfds fd (by simp))
          (hnone fd (by simp) hskip) hparent
        cases hinherit.symm.trans heq₂
        obtain ⟨hmoved, hfd, hkeep⟩ := inheritFd_moved h.tables hinherit
        obtain ⟨hmoved', hall⟩ := ih hopened.counted (by rw [hopened.allocated]; exact hp)
          (by rw [hopened.allocated]; exact hparent) hrest htail (fun gd hgd hns => by
            rw [hkeep gd fun he => hfirst (he ▸ hgd)]
            exact hnone gd (by simp [hgd]) hns) heq
        refine ⟨hmoved.trans hmoved', fun gd hgd => ?_⟩
        have hpar : k₁.fdPipe r.parent gd = k.fdPipe r.parent gd := (hmoved.fds _ hne gd).2
        rcases hall gd hgd with hsame | ⟨hns, hcopy⟩
        · by_cases hgf : gd = fd
          · subst hgf
            rw [hsame]
            exact .inr ⟨hskip, hfd⟩
          · rw [hsame, hkeep gd hgf]
            exact .inl rfl
        · rw [hpar] at hcopy
          exact .inr ⟨hns, hcopy⟩

/-- A pipe that the request names, or that the parent has a descriptor of. -/
def Given (k : Kernel) (r : SpawnRequest) (i : ℕ) : Prop :=
  (r.stdinPipeId ≠ 0 ∧ pipeGetById k r.stdinPipeId = some i) ∨
    (r.stdoutPipeId ≠ 0 ∧ pipeGetById k r.stdoutPipeId = some i) ∨
      r.parent ≠ 0 ∧ ∃ fd < maxFds, k.fdPipe r.parent fd = some i

/-- The memory for the new process is there. -/
def Granted (r : SpawnRequest) : Prop := r.entryPoint ≠ 0 ∧ r.pcb ≠ 0 ∧ r.stack ≠ 0

instance (r : SpawnRequest) : Decidable (Granted r) := inferInstanceAs (Decidable (_ ∧ _))

/-- What `process_create` does. -/
structure Spawned (k : Kernel) (r : SpawnRequest) (q : ℕ) (k' : Kernel) : Prop where
  counted : ∃ live, FdsCounted k' live
  opens : Opens k k'
  moved : EndsMoved k k' r.pcb
  fds : ∀ p, k.allocated p = true → ∀ fd, k'.fdType p fd = k.fdType p fd ∧
    k'.fdPipe p fd = k.fdPipe p fd
  failed : ¬Granted r → q = 0 ∧ k'.allocated = k.allocated
  created : Granted r → q = r.pcb ∧ k'.allocated = update k.allocated r.pcb true ∧
    (∀ fd < maxFds, ∀ i, k'.fdPipe r.pcb fd = some i → Given k r i) ∧
    ∀ i, r.stdoutPipeId ≠ 0 → pipeGetById k r.stdoutPipeId = some i → k'.fdPipe r.pcb 1 = some i

theorem Spawned.allocated (hs : Spawned k r q k') (hq : q ≠ 0) :
    k'.allocated q = true ∧ q = r.pcb := by
  have hg : Granted r := by
    by_contra hg
    exact hq (hs.failed hg).1
  obtain ⟨rfl, halloc, -⟩ := hs.created hg
  rw [halloc, Function.update_self]
  exact ⟨rfl, rfl⟩

/-- Processes stay when another one is made. -/
theorem Spawned.keeps (hs : Spawned k r q k') (hp : k.allocated p = true) :
    k'.allocated p = true := by
  by_cases hg : Granted r
  · rw [(hs.created hg).2.1]
    by_cases hpcb : p = r.pcb
    · rw [hpcb, Function.update_self]
    · rw [Function.update_of_ne hpcb, hp]
  · rw [(hs.failed hg).2, hp]

theorem clearPcb_moved (k : Kernel) (p : ℕ) : EndsMoved k (clearPcb k p) p :=
  .of_same ⟨rfl, rfl, rfl⟩ rfl fun q hq fd => by
    simp only [clearPcb, Function.update_of_ne hq, and_self]

theorem initPcb_moved (k : Kernel) (r : SpawnRequest) : EndsMoved k (initPcb k r) r.pcb :=
  .of_same ⟨rfl, rfl, rfl⟩ rfl fun q hq fd => by
    simp only [initPcb, clearPcb, Function.update_of_ne hq, and_self]

/-- The descriptors of a new process after both standard ones were attached. -/
theorem FdsCounted.attached (h : FdsCounted k live) (hfree : k.allocated r.pcb = false)
    (hin : attachPipe (initPcb k r) r.pcb 0 r.stdinPipeId false = some k₁)
    (hout : attachPipe k₁ r.pcb 1 r.stdoutPipeId true = some k') :
    OpenedFds (initPcb k r) k' (insert r.pcb live) ∧ EndsMoved k k' r.pcb ∧
      (∀ fd, ¬((fd = 0 ∧ r.stdinPipeId ≠ 0) ∨ (fd = 1 ∧ r.stdoutPipeId ≠ 0)) →
        k'.fdPipe r.pcb fd = none) ∧
      (∀ fd i, k'.fdPipe r.pcb fd = some i → Given k r i) ∧
      ∀ i, r.stdoutPipeId ≠ 0 → pipeGetById k r.stdoutPipeId = some i →
        k'.fdPipe r.pcb 1 = some i := by
  obtain ⟨hinit, hopens, hnone⟩ := h.initPcb_spec (r := r) hfree
  have hp : (initPcb k r).allocated r.pcb = true := by simp [initPcb]
  obtain ⟨k₂, heq, hopened, hother, hskip⟩ := hinit.attach_spec hp (show 0 < maxFds by decide)
    (hnone 0) r.stdinPipeId false
  cases hin.symm.trans heq
  have hp₁ : k₁.allocated r.pcb = true := by rw [hopened.allocated, hp]
  obtain ⟨k₂, heq', hopened', hother', hskip'⟩ := hopened.counted.attach_spec hp₁
    (show 1 < maxFds by decide) (by rw [(hother r.pcb 1 (Or.inr (by decide))).2, hnone]) r.stdoutPipeId true
  cases hout.symm.trans heq'
  obtain ⟨hmoved, hfirst⟩ := attachPipe_moved hinit.tables hin
  obtain ⟨hmoved', hsecond⟩ := attachPipe_moved hopened.counted.tables hout
  have hget : ∀ id, pipeGetById k₁ id = pipeGetById k id :=
    fun id => (hopened.opens.pipeGetById id).trans (hopens.pipeGetById id)
  have hzero : k'.fdPipe r.pcb 0 = k₁.fdPipe r.pcb 0 := (hother' r.pcb 0 (.inr (by decide))).2
  have hone : k₁.fdPipe r.pcb 1 = none := by
    rw [(hother r.pcb 1 (.inr (by decide))).2, hnone]
  refine ⟨hopened.trans hopened', ((initPcb_moved k r).trans hmoved).trans hmoved', ?_, ?_, ?_⟩
  · intro fd hns
    simp only [not_or, not_and, not_not] at hns
    have h₁ : k₁.fdPipe r.pcb fd = none := by
      by_cases h0 : fd = 0
      · rw [hskip (hns.1 h0), hnone]
      · rw [(hother r.pcb fd (.inr h0)).2, hnone]
    by_cases h1 : fd = 1
    · rw [hskip' (hns.2 h1), h₁]
    · rw [(hother' r.pcb fd (.inr h1)).2, h₁]
  · intro fd i hx
    by_cases h1 : fd = 1
    · subst h1
      rcases hsecond with ⟨hsame, -⟩ | ⟨hid, j, hj, hpipe⟩
      · rw [hsame, hone] at hx
        cases hx
      · rw [hpipe] at hx
        cases hx
        exact .inr (.inl ⟨hid, hget _ ▸ hj⟩)
    · rw [(hother' r.pcb fd (.inr h1)).2] at hx
      by_cases h0 : fd = 0
      · subst h0
        rcases hfirst with ⟨hsame, -⟩ | ⟨hid, j, hj, hpipe⟩
        · rw [hsame, hnone] at hx
          cases hx
        · rw [hpipe] at hx
          cases hx
          exact .inl ⟨hid, hopens.pipeGetById _ ▸ hj⟩
      · rw [(hother r.pcb fd (.inr h0)).2, hnone] at hx
        cases hx
  · intro i hid hi
    rcases hsecond with ⟨-, h0 | hnone'⟩ | ⟨-, j, hj, hpipe⟩
    · exact absurd h0 hid
    · rw [hget, hi] at hnone'
      cases hnone'
    · rw [hget, hi] at hj
      cases hj
      exact hpipe

theorem FdsCounted.create_spawned (h : FdsCounted k live) (hr : ValidRequest k r) :
    ∃ q k', processCreate k r = some (q, k') ∧ Spawned k r q k' := by
  obtain ⟨q, k', hcreate, hcounted, hopens, -⟩ := h.create_spec hr
  have hfds : EndsMoved k k' r.pcb → ∀ p, k.allocated p = true → ∀ fd,
      k'.fdType p fd = k.fdType p fd ∧ k'.fdPipe p fd = k.fdPipe p fd := by
    intro hmoved p hp fd
    by_cases hpcb : p = r.pcb
    · -- Memory of an existing process is not handed out, so the request got none.
      have hnull : r.pcb = 0 := by
        by_contra hne
        rw [hpcb, (hr.1 hne).2] at hp
        cases hp
      rw [processCreate, if_pos hnull, ite_self] at hcreate
      cases hcreate
      exact ⟨rfl, rfl⟩
    · exact hmoved.fds p hpcb fd
  suffices hrest : EndsMoved k k' r.pcb ∧ (¬Granted r → q = 0 ∧ k'.allocated = k.allocated) ∧
      (Granted r → q = r.pcb ∧ k'.allocated = update k.allocated r.pcb true ∧
        (∀ fd < maxFds, ∀ i, k'.fdPipe r.pcb fd = some i → Given k r i) ∧
        ∀ i, r.stdoutPipeId ≠ 0 → pipeGetById k r.stdoutPipeId = some i →
          k'.fdPipe r.pcb 1 = some i) from
    ⟨q, k', hcreate, hcounted, hopens, hrest.1, hfds hrest.1, hrest.2.1, hrest.2.2⟩
  unfold processCreate at hcreate
  split at hcreate
  · next hentry =>
      cases hcreate
      exact ⟨.refl _ _, fun _ => ⟨rfl, rfl⟩, fun hg => absurd hentry hg.1⟩
  split at hcreate
  · next hpcb =>
      cases hcreate
      exact ⟨.refl _ _, fun _ => ⟨rfl, rfl⟩, fun hg => absurd hpcb hg.2.1⟩
  split at hcreate
  · next hstack =>
      cases hcreate
      exact ⟨clearPcb_moved _ _, fun _ => ⟨rfl, rfl⟩, fun hg => absurd hstack hg.2.2⟩
  next hentry hpcb hstack =>
    have hfree := (hr.1 hpcb).2
    obtain ⟨k₁, hin, hcreate⟩ := Option.bind_eq_some_iff.mp hcreate
    obtain ⟨k₂, hout, hcreate⟩ := Option.bind_eq_some_iff.mp hcreate
    obtain ⟨k₃, hinherit, hcreate⟩ := Option.bind_eq_some_iff.mp hcreate
    cases hcreate
    obtain ⟨hopened, hmoved, hnone, hgiven, hstdout⟩ := h.attached hfree hin hout
    have hp : k₂.allocated r.pcb = true := by
      rw [hopened.allocated]
      simp [initPcb]
    obtain ⟨hsame, hpipes, hsems⟩ := enterPcb_same k₃ r
    have hpast : EndsMoved k₂ k₃ r.pcb ∧ k₃.allocated = k₂.allocated ∧
        ∀ fd < maxFds, k₃.fdPipe r.pcb fd = k₂.fdPipe r.pcb fd ∨
          ¬((fd = 0 ∧ r.stdinPipeId ≠ 0) ∨ (fd = 1 ∧ r.stdoutPipeId ≠ 0)) ∧
            (k₃.fdPipe r.pcb fd = none ∨
              r.parent ≠ 0 ∧ k₃.fdPipe r.pcb fd = k.fdPipe r.parent fd) := by
      split at hinherit
      · next hpar =>
          have hparent : k₂.allocated r.parent = true := by
            rw [hopened.allocated]
            simp [initPcb, clearPcb, Function.update_apply, hr.2 hpar]
          have hne : r.parent ≠ r.pcb := by
            intro he
            have hparent' := hr.2 hpar
            rw [he, hfree] at hparent'
            cases hparent'
          have hrange : ∀ fd ∈ List.range maxFds, fd < maxFds := fun fd hfd => List.mem_range.mp hfd
          obtain ⟨k₄, heq, hopened'⟩ := hopened.counted.inheritFds_spec hp hparent List.nodup_range
            hrange fun fd _ => hnone fd
          cases hinherit.symm.trans heq
          obtain ⟨hmoved', hall⟩ := hopened.counted.inheritFds_moved hp hparent hne
            List.nodup_range hrange (fun fd _ => hnone fd) hinherit
          refine ⟨hmoved', hopened'.allocated, fun fd hfd => ?_⟩
          refine (hall fd hfd).imp_right fun h => ⟨h.1, h.2.imp_right fun hc => ?_⟩
          exact ⟨hpar, by rw [hc, (hmoved.fds _ hne fd).2]⟩
      · cases hinherit
        exact ⟨.refl _ _, rfl, fun _ _ => .inl rfl⟩
    obtain ⟨hmoved', halloc, hfds⟩ := hpast
    refine ⟨(hmoved.trans hmoved').trans (.of_sameFds hsame hpipes hsems),
      fun hg => absurd ⟨hentry, hpcb, hstack⟩ hg, fun _ => ⟨rfl, ?_, ?_, ?_⟩⟩
    · rw [hsame.allocated, halloc, hopened.allocated]
      rfl
    · intro fd hfd i hx
      rw [hsame.fdPipe] at hx
      rcases hfds fd hfd with hkeep | ⟨-, hclear | ⟨hpar, hcopy⟩⟩
      · exact hgiven fd i (hkeep ▸ hx)
      · rw [hclear] at hx
        cases hx
      · exact .inr (.inr ⟨hpar, fd, hfd, hcopy ▸ hx⟩)
    · intro i hid hi
      rw [hsame.fdPipe]
      rcases hfds 1 (by decide) with hkeep | ⟨hns, -⟩
      · rw [hkeep]
        exact hstdout i hid hi
      · exact absurd (.inr ⟨rfl, hid⟩) hns

end Creating

section Undisturbed

/-- A step that makes, opens and closes nothing: reads and writes, waits and signals, and the
choices of the scheduler. -/
structure Undisturbed (k k' : Kernel) : Prop where
  tables : Tables k'
  current : k'.current = 0 ∨ k'.allocated k'.current = true
  allocated : k'.allocated = k.allocated
  fds : ∀ p, k.allocated p = true → ∀ fd < maxFds,
    k'.fdType p fd = k.fdType p fd ∧ k'.fdPipe p fd = k.fdPipe p fd
  pipes : ∀ i, (k'.pipes i).used = (k.pipes i).used ∧ (k'.pipes i).id = (k.pipes i).id ∧
    (k'.pipes i).readers = (k.pipes i).readers ∧ (k'.pipes i).writers = (k.pipes i).writers ∧
    (k'.pipes i).semIds = (k.pipes i).semIds
  slots : SameSlots k k'

theorem Undisturbed.counted (h : Undisturbed k k') (hc : FdsCounted k live) :
    FdsCounted k' live := by
  have hends : ∀ t j, k'.ends live t j = k.ends live t j :=
    ends_congr fun p hp => h.fds p ((hc.mem_live p).mp hp)
  refine ⟨h.tables, fun p => by rw [h.allocated, hc.mem_live], h.current, ?_, ?_, ?_⟩
  · intro j hj hu
    rw [(h.pipes j).1] at hu
    rw [(h.pipes j).2.2.1, hends, hc.readers j hj hu]
  · intro j hj hu
    rw [(h.pipes j).1] at hu
    rw [(h.pipes j).2.2.2.1, hends, hc.writers j hj hu]
  · intro p hp fd hfd j hx
    rw [h.allocated] at hp
    obtain ⟨ht, hx'⟩ := h.fds p hp fd hfd
    rw [hx'] at hx
    rw [ht, (h.pipes j).1]
    exact hc.points p hp fd hfd j hx

theorem Undisturbed.unreferenced (h : Undisturbed k k') :
    Unreferenced k' i ↔ Unreferenced k i := by
  refine forall_congr' fun p => ?_
  rw [h.allocated]
  refine forall_congr' fun hp => forall_congr' fun fd => forall_congr' fun hfd => ?_
  rw [(h.fds p hp fd hfd).2]

theorem Undisturbed.ledger {refs : ℕ → ℤ} (h : Undisturbed k k') (hledger : Ledger k refs) :
    Ledger k' refs := by
  refine hledger.same h.slots.semRefs fun a => ?_
  rw [pipeSem_iff, pipeSem_iff]
  refine exists_congr fun j => and_congr_right fun _ => ?_
  rw [(h.pipes j).1, (h.pipes j).2.2.2.2]

end Undisturbed

end SoKernel
