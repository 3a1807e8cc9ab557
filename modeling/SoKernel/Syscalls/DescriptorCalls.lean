import SoKernel.Syscalls.CreateProcess
import SoKernel.Syscalls.PipeReferences

/-!
# Closing and duplicating by identifier

`syscall_pipe_close` closes an end of a pipe but leaves the descriptor of the caller in place,
and closes a writing end if the caller has none. `syscall_pipe_dup` gives up the old end of a
descriptor before it checks the mode and opens the new one.
-/

namespace SoKernel

open Function (update)

variable {k k' : Kernel} {live : Finset ℕ} {fd i id r : ℕ}

section Close

/-- The descriptor `fd` of the current process is an end of the pipe in entry `i`. -/
def OpenEnd (k : Kernel) (i fd : ℕ) : Prop :=
  fd < maxFds ∧ k.fdType k.current fd ≠ .terminal ∧ k.fdPipe k.current fd = some i

/-- A close of the pipe `id` gives up one descriptor of the caller, or does nothing if the caller
has none. -/
structure ReleasesOwn (k k' : Kernel) (live : Finset ℕ) (id : ℕ) : Prop where
  holder : ∀ i, pipeGetById k id = some i → (∃ fd, OpenEnd k i fd) →
    (∃ fd, OpenEnd k i fd ∧ ¬OpenEnd k' i fd) ∧ FdsCounted k' live
  stranger : (∀ i, pipeGetById k id = some i → ∀ fd, ¬OpenEnd k i fd) →
    k'.pipes = k.pipes ∧ k'.fdType = k.fdType ∧ k'.fdPipe = k.fdPipe

/-- The call finds a descriptor of the caller exactly if there is one, and closes an end of its
type; otherwise it closes a writing end. -/
theorem syscallPipeClose_effect (h : FdsCounted k live) (hcur : k.current ≠ 0)
    (hfind : pipeGetById k id = some i) (hcall : syscallPipeClose k id = some (r, k')) :
    ∃ isWriter, SameFds k k' ∧ k'.pipes = update k.pipes i ((k.pipes i).afterClose isWriter) ∧
      ((∀ fd, ¬OpenEnd k i fd) → isWriter = true) := by
  have hid : id ≠ 0 := by
    rintro rfl
    cases hfind
  rw [syscallPipeClose, if_neg hid, if_neg hcur] at hcall
  obtain ⟨-, hfds, ⟨hnone, -⟩ | ⟨j, hj, hpipes⟩⟩ := pipeCloseById_spec h.tables hcall
  · rw [hfind] at hnone
    cases hnone
  obtain rfl := Option.some_inj.mp (hfind.symm.trans hj)
  refine ⟨_, hfds, hpipes, fun hno => ?_⟩
  split
  · rename_i fd hentry
    have hfd := List.mem_range.mp (List.mem_of_find?_eq_some hentry)
    have hhit := List.find?_some hentry
    simp only [Bool.and_eq_true, decide_eq_true_eq, Option.any_eq_true] at hhit
    obtain ⟨hterm, j, hj, hsame⟩ := hhit
    obtain ⟨hi, hu, hiid⟩ := pipeGetById_mem hfind
    obtain ⟨hjlt, hju, -⟩ := h.points k.current (h.current.resolve_left hcur) fd hfd j hj
    obtain rfl := h.tables.unique i hi j hjlt hu hju (hiid.trans hsame.symm)
    exact absurd ⟨hfd, hterm, hj⟩ (hno fd)
  · rfl

/-- Closing a writing end changes nothing exactly if there are readers and no writers. -/
theorem Pipe.afterClose_writer_eq {p : Pipe} (hused : p.used = true) (hw : 0 ≤ p.writers)
    (hr : 0 ≤ p.readers) : p.afterClose true = p ↔ p.writers = 0 ∧ 0 < p.readers := by
  unfold Pipe.afterClose Pipe.closed
  simp only [if_true]
  by_cases hpos : 0 < p.writers
  · rw [if_pos hpos]
    refine iff_of_false (fun heq => ?_) (by omega)
    split at heq
    · have hflag := congrArg Pipe.used heq
      rw [hused] at hflag
      cases hflag
    · have hcount := congrArg Pipe.writers heq
      simp only at hcount
      omega
  · rw [if_neg hpos]
    split
    · rename_i hdead
      refine iff_of_false (fun heq => ?_) (by omega)
      have hflag := congrArg Pipe.used heq
      rw [hused] at hflag
      cases hflag
    · rename_i hlive
      exact iff_of_true rfl (by omega)

/-- A close by identifier gives up what the caller holds exactly if there is no such pipe, or the
caller holds no end of it and it has readers and no writers. -/
theorem pipe_close_releases_own_iff (h : FdsCounted k live) (hcur : k.current ≠ 0)
    (hcall : syscallPipeClose k id = some (r, k')) :
    ReleasesOwn k k' live id ↔
      pipeGetById k id = none ∨ ∃ i, pipeGetById k id = some i ∧ (∀ fd, ¬OpenEnd k i fd) ∧
        (k.pipes i).writers = 0 ∧ 0 < (k.pipes i).readers := by
  cases hfind : pipeGetById k id with
  | none =>
      have hsame : k' = k := by
        by_cases hid : id = 0
        · rw [syscallPipeClose, if_pos hid] at hcall
          cases hcall
          rfl
        · rw [syscallPipeClose, if_neg hid, if_neg hcur] at hcall
          obtain ⟨-, -, ⟨-, rfl⟩ | ⟨i, hi, -⟩⟩ := pipeCloseById_spec h.tables hcall
          · rfl
          · rw [hfind] at hi
            cases hi
      subst hsame
      refine iff_of_true ⟨fun i hi => ?_, fun _ => ⟨rfl, rfl, rfl⟩⟩ (Or.inl rfl)
      rw [hfind] at hi
      cases hi
  | some i =>
      obtain ⟨isWriter, hfds, hpipes, hwriter⟩ := syscallPipeClose_effect h hcur hfind hcall
      obtain ⟨hi, hu, -⟩ := pipeGetById_mem hfind
      obtain ⟨hr, hw⟩ := h.nonneg hi hu
      have hend : ∀ fd, OpenEnd k' i fd ↔ OpenEnd k i fd := by
        intro fd
        rw [OpenEnd, OpenEnd, hfds.current, hfds.fdType, hfds.fdPipe]
      constructor
      · intro hrel
        by_cases hheld : ∃ fd, OpenEnd k i fd
        · -- the descriptor table has not changed
          obtain ⟨⟨fd, hopen, hgone⟩, -⟩ := hrel.holder i hfind hheld
          exact absurd ((hend fd).mpr hopen) hgone
        · have hno : ∀ fd, ¬OpenEnd k i fd := not_exists.mp hheld
          obtain ⟨hsame, -, -⟩ := hrel.stranger fun j hj => by
            obtain rfl := Option.some_inj.mp (hfind.symm.trans hj)
            exact hno
          rw [hwriter hno] at hpipes
          have hentry : (k.pipes i).afterClose true = k.pipes i := by
            rw [← Function.update_self i ((k.pipes i).afterClose true) k.pipes, ← hpipes, hsame]
          exact Or.inr ⟨i, rfl, hno, (Pipe.afterClose_writer_eq hu hw hr).mp hentry⟩
      · rintro (hnone | ⟨j, hj, hno, hcounts⟩)
        · cases hnone
        obtain rfl := Option.some_inj.mp hj
        refine ⟨fun j hj ⟨fd, hopen⟩ => ?_, fun _ => ⟨?_, hfds.fdType, hfds.fdPipe⟩⟩
        · obtain rfl := Option.some_inj.mp (hfind.symm.trans hj)
          exact absurd hopen (hno fd)
        · rw [hpipes, hwriter hno, (Pipe.afterClose_writer_eq hu hw hr).mpr hcounts,
            Function.update_eq_self]

/-- The shell has a child, makes a pipe and takes the given end of it. -/
def shellTakesEnd (mode : ℕ) : Option (Kernel × Kernel) := do
  let k₀ ← initScheduler bootKernel 16 8192
  let k₁ ← fdExec k₀ (.createProcess ⟨1, 0, 2, true, 0, 0, 48, 12288⟩)
  let k₂ ← fdExec k₁ (.switchTo 48)
  let k₃ ← fdExec k₂ (.createProcess ⟨1, 48, 2, false, 0, 0, 64, 32768⟩)
  let k₄ ← fdExec k₃ .pipeCreate
  let k₅ ← fdExec k₄ (.pipeDup 1 3 mode)
  some (k₀, k₅)

/-- The counts agree with the descriptors when the shell has taken its end. -/
theorem shellTakesEnd_counted {mode : ℕ} {k₀ : Kernel} (h : shellTakesEnd mode = some (k₀, k)) :
    ∃ live, FdsCounted k live := by
  have hlt : 64 < addressCount := by
    unfold addressCount
    decide
  have hfree : ((initScheduler bootKernel 16 8192).bind fun k₀ =>
      (fdExec k₀ (.createProcess ⟨1, 0, 2, true, 0, 0, 48, 12288⟩)).bind fun k₁ =>
        (fdExec k₁ (.switchTo 48)).map fun k₂ =>
          ((k₀.allocated 48, k₁.allocated 48), k₂.allocated 64, k₂.allocated 48)) =
      some ((false, true), false, true) := by
    decide +kernel
  unfold shellTakesEnd at h
  obtain ⟨k₀', hinit, h₀⟩ := Option.bind_eq_some_iff.mp h
  obtain ⟨k₁, hshell, h₁⟩ := Option.bind_eq_some_iff.mp h₀
  obtain ⟨k₂, hswitch, h₂⟩ := Option.bind_eq_some_iff.mp h₁
  obtain ⟨k₃, hchild, h₃⟩ := Option.bind_eq_some_iff.mp h₂
  obtain ⟨k₄, hpipe, h₄⟩ := Option.bind_eq_some_iff.mp h₃
  obtain ⟨k₅, hdup, hlast⟩ := Option.bind_eq_some_iff.mp h₄
  obtain ⟨rfl, rfl⟩ := Prod.mk.inj (Option.some_inj.mp hlast)
  simp only [hinit, hshell, hswitch, Option.bind_some, Option.map_some, Option.some.injEq,
    Prod.mk.injEq] at hfree
  obtain ⟨⟨hfree₁, halloc⟩, hfree₂, hparent⟩ := hfree
  have hreach₁ : FdReach k₀' k₁ :=
    .step (c := .createProcess _) .start ⟨fun _ => ⟨by show 48 < addressCount; omega, hfree₁⟩,
      fun h => absurd rfl h⟩ hshell
  have hreach₂ : FdReach k₀' k₂ := .step (c := .switchTo 48) hreach₁ halloc hswitch
  have hreach₃ : FdReach k₀' k₃ :=
    .step (c := .createProcess _) hreach₂ ⟨fun _ => ⟨hlt, hfree₂⟩, fun _ => hparent⟩ hchild
  have hreach : FdReach k₀' k₅ :=
    .step (c := .pipeDup 1 3 mode) (.step (c := .pipeCreate) hreach₃ trivial hpipe) trivial hdup
  exact hreach.counted (by omega) hinit

/-- The shell has a reading end of a pipe without writers; a close by its child, which has no end,
does nothing. -/
theorem pipe_close_releases_own_iff_child :
    ∃ k₀ k live r k', shellTakesEnd 0 = some (k₀, k) ∧
      FdsCounted { k with current := 64 } live ∧
      syscallPipeClose { k with current := 64 } 1 = some (r, k') ∧
      ReleasesOwn { k with current := 64 } k' live 1 := by
  have hcalc : ((shellTakesEnd 0).bind fun ks =>
      (syscallPipeClose { ks.2 with current := 64 } 1).map fun _ =>
        decide ((ks.2.allocated 64 = true ∧ pipeGetById ks.2 1 = some 0) ∧
          ((ks.2.pipes 0).writers = 0 ∧ 0 < (ks.2.pipes 0).readers) ∧
          ∀ fd ∈ List.range maxFds, ks.2.fdPipe 64 fd = none)) = some true := by
    decide +kernel
  obtain ⟨⟨k₀, k⟩, hrun, h₁⟩ := Option.bind_eq_some_iff.mp hcalc
  obtain ⟨⟨r, k'⟩, hcall, h₂⟩ := Option.map_eq_some_iff.mp h₁
  obtain ⟨⟨halloc, hfind⟩, hcounts, hnone⟩ := of_decide_eq_true h₂
  obtain ⟨live, h⟩ := shellTakesEnd_counted hrun
  have h' : FdsCounted { k with current := 64 } live :=
    h.congr h.tables rfl rfl (Or.inr halloc) fun _ _ _ _ => ⟨rfl, rfl⟩
  refine ⟨k₀, k, live, r, k', hrun, h', hcall,
    (pipe_close_releases_own_iff h' (show 64 ≠ 0 by decide) hcall).mpr
      (Or.inr ⟨0, hfind, fun fd hopen => ?_, hcounts⟩)⟩
  have hempty := hnone fd (List.mem_range.mpr hopen.1)
  have hpoint : k.fdPipe 64 fd = some 0 := hopen.2.2
  rw [hempty] at hpoint
  cases hpoint

/-- The shell closes the only end of its pipe: the pipe is destroyed, and the descriptor of the
shell still points to its entry. -/
theorem closed_pipe_keeps_descriptor :
    ∃ k₀ k r k', shellTakesEnd 1 = some (k₀, k) ∧ (∃ live, FdsCounted k live) ∧
      syscallPipeClose k 1 = some (r, k') ∧ (k'.pipes 0).used = false ∧
      k'.fdPipe k'.current 3 = some 0 ∧ ∀ live, ¬ReleasesOwn k k' live 1 := by
  have hcalc : ((shellTakesEnd 1).bind fun ks =>
      (syscallPipeClose ks.2 1).map fun x =>
        decide ((pipeGetById ks.2 1 = some 0 ∧ ks.2.fdType ks.2.current 3 = .pipeWrite ∧
            ks.2.fdPipe ks.2.current 3 = some 0) ∧
          (x.2.pipes 0).used = false ∧ (x.2.fdPipe x.2.current 3 = some 0 ∧
          ∀ fd ∈ List.range maxFds, x.2.fdType x.2.current fd = ks.2.fdType ks.2.current fd ∧
            x.2.fdPipe x.2.current fd = ks.2.fdPipe ks.2.current fd))) = some true := by
    decide +kernel
  obtain ⟨⟨k₀, k⟩, hrun, h₁⟩ := Option.bind_eq_some_iff.mp hcalc
  obtain ⟨⟨r, k'⟩, hcall, h₂⟩ := Option.map_eq_some_iff.mp h₁
  obtain ⟨⟨hfind, htype, hpipe⟩, hdead, hstale, hsame⟩ := of_decide_eq_true h₂
  refine ⟨k₀, k, r, k', hrun, shellTakesEnd_counted hrun, hcall, hdead, hstale, fun live hrel => ?_⟩
  have hheld : ∃ fd, OpenEnd k 0 fd := ⟨3, by decide, by rw [htype]; decide, hpipe⟩
  obtain ⟨⟨fd, hopen, hgone⟩, -⟩ := hrel.holder 0 hfind hheld
  obtain ⟨htype', hpipe'⟩ := hsame fd (List.mem_range.mpr hopen.1)
  exact hgone ⟨hopen.1, by rw [htype']; exact hopen.2.1, by rw [hpipe']; exact hopen.2.2⟩

end Close

section Duplicate

/-- What a call that fails must leave alone: the descriptors of the caller, the numbers of ends and
the pipes in use. -/
structure DupUndone (k k' : Kernel) : Prop where
  fdType : ∀ fd < maxFds, k'.fdType k.current fd = k.fdType k.current fd
  fdPipe : ∀ fd < maxFds, k'.fdPipe k.current fd = k.fdPipe k.current fd
  readers : ∀ i, (k'.pipes i).readers = (k.pipes i).readers
  writers : ∀ i, (k'.pipes i).writers = (k.pipes i).writers
  used : ∀ i, (k'.pipes i).used = (k.pipes i).used

/-- The descriptor is the last end of the pipe in entry `i`. -/
def LastEnd (k : Kernel) (fd i : ℕ) : Prop :=
  ∃ j, k.fdPipe k.current fd = some j ∧ pipeGetById k (k.pipes j).id = some i ∧
    ((k.pipes i).closed (k.fdType k.current fd = .pipeWrite)).readers = 0 ∧
    ((k.pipes i).closed (k.fdType k.current fd = .pipeWrite)).writers = 0

/-- The part of `syscall_pipe_dup` that gives up the old end of the descriptor. -/
theorem closeEntryPipe_effect (T : Tables k) {p : ℕ} (hcall : closeEntryPipe k p fd = some k') :
    Tables k' ∧ SameFds k k' ∧ (k'.pipes = k.pipes ∧
        (k.fdType p fd = .terminal ∨ ∀ j, k.fdPipe p fd = some j → pipeGetById k (k.pipes j).id = none) ∨
      k.fdType p fd ≠ .terminal ∧ ∃ j i, k.fdPipe p fd = some j ∧
        pipeGetById k (k.pipes j).id = some i ∧
        k'.pipes = update k.pipes i ((k.pipes i).afterClose (k.fdType p fd = .pipeWrite))) := by
  unfold closeEntryPipe at hcall
  split at hcall
  · rename_i hterm
    cases hcall
    exact ⟨T, .refl k, Or.inl ⟨rfl, Or.inl hterm⟩⟩
  · rename_i t hterm
    split at hcall
    · rename_i hnone
      cases hcall
      exact ⟨T, .refl k, Or.inl ⟨rfl, Or.inr fun j hj => by rw [hnone] at hj; cases hj⟩⟩
    · rename_i j hj
      split at hcall
      · rename_i hid
        cases hcall
        refine ⟨T, .refl k, Or.inl ⟨rfl, Or.inr fun j' hj' => ?_⟩⟩
        obtain rfl := Option.some_inj.mp (hj.symm.trans hj')
        rw [hid]
        rfl
      · obtain ⟨⟨r, k₁⟩, hclose, rfl⟩ := Option.map_eq_some_iff.mp hcall
        obtain ⟨T', hfds, ⟨hnone, rfl⟩ | ⟨i, hi, hpipes⟩⟩ := pipeCloseById_spec T hclose
        · refine ⟨T, hfds, Or.inl ⟨rfl, Or.inr fun j' hj' => ?_⟩⟩
          obtain rfl := Option.some_inj.mp (hj.symm.trans hj')
          exact hnone
        · exact ⟨T', hfds, Or.inr ⟨hterm, j, i, hj, hi, hpipes⟩⟩

theorem pipeGetById_congr (h : k'.pipes = k.pipes) : pipeGetById k' id = pipeGetById k id := by
  simp only [pipeGetById, findPipeById, h]

/-- A pipe is still there after the close of an old end that is not its last one. -/
theorem closeEntryPipe_keeps (T : Tables k) (hfind : pipeGetById k id = some i)
    (hlast : k.fdType k.current fd ≠ .terminal → ¬LastEnd k fd i)
    (hcall : closeEntryPipe k k.current fd = some k') : pipeGetById k' id = some i := by
  obtain ⟨hi, hu, hid⟩ := pipeGetById_mem hfind
  obtain ⟨T', -, ⟨hpipes, -⟩ | ⟨hterm, j, a, hj, ha, hpipes⟩⟩ := closeEntryPipe_effect T hcall
  · rw [pipeGetById_congr hpipes, hfind]
  · have hentry : (k'.pipes i).used = true ∧ (k'.pipes i).id = id := by
      rw [hpipes]
      by_cases hai : i = a
      · subst hai
        have hmore : ¬(((k.pipes i).closed (k.fdType k.current fd = .pipeWrite)).readers = 0 ∧
            ((k.pipes i).closed (k.fdType k.current fd = .pipeWrite)).writers = 0) :=
          fun hzero => hlast hterm ⟨j, hj, ha, hzero⟩
        obtain ⟨hsame, hused, -, -⟩ := (k.pipes i).closed_same (k.fdType k.current fd = .pipeWrite)
        rw [Function.update_self, Pipe.afterClose, if_neg hmore, hused, hsame]
        exact ⟨hu, hid⟩
      · rw [Function.update_of_ne hai]
        exact ⟨hu, hid⟩
    rw [← hentry.2]
    exact pipeGetById_of_used T' hi hentry.1

/-- The close of the last end of a pipe destroys it. -/
theorem closeEntryPipe_destroys (T : Tables k) (hfind : pipeGetById k id = some i)
    (hterm : k.fdType k.current fd ≠ .terminal) (hlast : LastEnd k fd i)
    (hcall : closeEntryPipe k k.current fd = some k') : pipeGetById k' id = none := by
  obtain ⟨hi, hu, hid⟩ := pipeGetById_mem hfind
  obtain ⟨j, hj, hfound, hzero⟩ := hlast
  obtain ⟨-, -, ⟨-, hno | hno⟩ | ⟨-, j', a, hj', ha, hpipes⟩⟩ := closeEntryPipe_effect T hcall
  · exact absurd hno hterm
  · rw [hno j hj] at hfound
    cases hfound
  obtain rfl := Option.some_inj.mp (hj.symm.trans hj')
  obtain rfl := Option.some_inj.mp (hfound.symm.trans ha)
  by_contra hsome
  obtain ⟨b, hb⟩ := Option.ne_none_iff_exists'.mp hsome
  obtain ⟨hblt, hbu, hbid⟩ := pipeGetById_mem hb
  rw [hpipes] at hbu hbid
  by_cases hbi : b = i
  · rw [hbi, Function.update_self, Pipe.afterClose, if_pos hzero] at hbu
    cases hbu
  · rw [Function.update_of_ne hbi] at hbu hbid
    exact hbi (T.unique b hblt i hi hbu hu (hbid.trans hid.symm))

/-- The last part of `syscall_pipe_dup` fails exactly if the pipe is gone. -/
theorem openEntry_result {p pipe : ℕ} {isWriter : Bool} (T : Tables k)
    (hcall : openEntry k p fd id pipe isWriter = some (r, k')) :
    (pipeGetById k id ≠ none → r = 1) ∧
      (pipeGetById k id = none → r = 0 ∧ k'.fdPipe p fd = k.fdPipe p fd) := by
  unfold openEntry at hcall
  dsimp only at hcall
  obtain ⟨⟨opened, k₁⟩, hopen, hlast⟩ := Option.bind_eq_some_iff.mp hcall
  have T' : Tables (setFd k p fd (if isWriter then .pipeWrite else .pipeRead) (k.fdPipe p fd)) := T
  have hlook : pipeGetById (setFd k p fd (if isWriter then .pipeWrite else .pipeRead)
      (k.fdPipe p fd)) id = pipeGetById k id := pipeGetById_congr rfl
  obtain ⟨r', k₂, hspec, -, -, hcases⟩ := pipeOpenById_spec T' id isWriter
  obtain ⟨rfl, rfl⟩ := Prod.mk.inj (Option.some_inj.mp (hopen.symm.trans hspec))
  rw [hlook] at hcases
  rcases hcases with ⟨rfl, hnone, rfl⟩ | ⟨rfl, j, hj, -⟩
  · dsimp only at hlast
    rw [if_pos rfl] at hlast
    obtain ⟨rfl, rfl⟩ := Prod.mk.inj (Option.some_inj.mp hlast)
    exact ⟨fun hsome => absurd hnone hsome, fun _ => ⟨rfl, setFd_fdPipe _ _ _ _ _⟩⟩
  · dsimp only at hlast
    rw [if_neg one_ne_zero] at hlast
    obtain ⟨rfl, rfl⟩ := Prod.mk.inj (Option.some_inj.mp hlast)
    refine ⟨fun _ => rfl, fun hnone => ?_⟩
    rw [hnone] at hj
    cases hj

theorem DupUndone.refl (k : Kernel) : DupUndone k k :=
  ⟨fun _ _ => rfl, fun _ _ => rfl, fun _ => rfl, fun _ => rfl, fun _ => rfl⟩

/-- The state in which the mode is checked. -/
theorem syscallPipeDup_checked (T : Tables k) {mode : ℕ} (hfd : fd < maxFds) (hcur : k.current ≠ 0)
    (hfind : pipeGetById k id = some i) (hcall : syscallPipeDup k id fd mode = some (r, k')) :
    ∃ k₁ k₂, closeEntryPipe k k.current fd = some k₁ ∧ Tables k₂ ∧
      pipeGetById k₂ id = pipeGetById k₁ id ∧
      (k.fdType k.current fd ≠ .terminal → k₂.fdPipe k.current fd = none) ∧
      (k.fdType k.current fd = .terminal ∨ k.fdPipe k.current fd = none → DupUndone k k₂) ∧
      (if mode = 0 then openEntry k₂ k.current fd id i false
        else if mode = 1 then openEntry k₂ k.current fd id i true
        else some (0, k₂)) = some (r, k') := by
  rw [syscallPipeDup, if_neg (by omega), if_neg hcur, hfind] at hcall
  obtain ⟨k₁, hclose, hrest⟩ := Option.bind_eq_some_iff.mp hcall
  obtain ⟨T₁, hfds, -⟩ := closeEntryPipe_effect T hclose
  have hkeep : k.fdType k.current fd = .terminal ∨ k.fdPipe k.current fd = none → k₁ = k := by
    intro hempty
    unfold closeEntryPipe at hclose
    split at hclose
    · cases hclose
      rfl
    · rename_i hterm
      rw [hempty.resolve_left hterm] at hclose
      cases hclose
      rfl
  by_cases hterm : k₁.fdType k.current fd = .terminal
  · dsimp only at hrest
    rw [if_pos hterm] at hrest
    rw [hfds.fdType] at hterm
    refine ⟨k₁, k₁, hclose, T₁, rfl, fun hne => absurd hterm hne, fun hempty => ?_, hrest⟩
    rw [hkeep hempty]
    exact .refl k
  · dsimp only at hrest
    rw [if_neg hterm] at hrest
    refine ⟨k₁, setFd k₁ k.current fd (k₁.fdType k.current fd) none, hclose, T₁,
      pipeGetById_congr rfl, fun _ => setFd_fdPipe _ _ _ _ _, fun hempty => ?_, hrest⟩
    obtain rfl := hkeep hempty
    have hnone := hempty.resolve_left hterm
    refine ⟨fun gd _ => ?_, fun gd _ => ?_, fun _ => rfl, fun _ => rfl, fun _ => rfl⟩
    · by_cases hgd : gd = fd
      · rw [hgd, setFd_fdType]
      · exact (setFd_other (Or.inr hgd) k₁ _ none).1
    · by_cases hgd : gd = fd
      · rw [hgd, setFd_fdPipe, hnone]
      · exact (setFd_other (Or.inr hgd) k₁ _ none).2

/-- A duplication that fails changes nothing exactly if it was rejected at once, or the descriptor
had no pipe, or the mode is valid and the descriptor was not the last end of the same pipe. -/
theorem pipe_dup_undone_iff (T : Tables k) {mode : ℕ}
    (hcall : syscallPipeDup k id fd mode = some (r, k')) :
    (r = 0 → DupUndone k k') ↔
      maxFds ≤ fd ∨ k.current = 0 ∨ pipeGetById k id = none ∨
        k.fdType k.current fd = .terminal ∨ k.fdPipe k.current fd = none ∨
        mode ≤ 1 ∧ ∀ i, pipeGetById k id = some i → ¬LastEnd k fd i := by
  by_cases hfd : maxFds ≤ fd
  · rw [syscallPipeDup, if_pos hfd] at hcall
    cases hcall
    exact iff_of_true (fun _ => .refl k) (Or.inl hfd)
  by_cases hcur : k.current = 0
  · rw [syscallPipeDup, if_neg hfd, if_pos hcur] at hcall
    cases hcall
    exact iff_of_true (fun _ => .refl k) (Or.inr (Or.inl hcur))
  cases hfind : pipeGetById k id with
  | none =>
      rw [syscallPipeDup, if_neg hfd, if_neg hcur, hfind] at hcall
      cases hcall
      exact iff_of_true (fun _ => .refl k) (Or.inr (Or.inr (Or.inl rfl)))
  | some i =>
      obtain ⟨k₁, k₂, hclose, T₂, hlook, hcleared, hempty, hlast⟩ :=
        syscallPipeDup_checked T (not_le.mp hfd) hcur hfind hcall
      -- an open of the pipe succeeds unless its last end has just been closed
      have hopen : mode ≤ 1 → (k.fdType k.current fd ≠ .terminal → ¬LastEnd k fd i) → r = 1 := by
        intro hmode hmore
        have hthere : pipeGetById k₂ id ≠ none := by
          rw [hlook, closeEntryPipe_keeps T hfind hmore hclose]
          exact Option.some_ne_none i
        obtain rfl | rfl : mode = 0 ∨ mode = 1 := by omega
        · exact (openEntry_result T₂ hlast).1 hthere
        · exact (openEntry_result T₂ hlast).1 hthere
      have hfail : k.fdType k.current fd ≠ .terminal → ¬mode ≤ 1 ∨ LastEnd k fd i →
          r = 0 ∧ k'.fdPipe k.current fd = none := by
        intro hterm hwhy
        by_cases hmode : mode ≤ 1
        · have hgone := hlook.trans
            (closeEntryPipe_destroys T hfind hterm (hwhy.resolve_left (not_not.mpr hmode)) hclose)
          obtain rfl | rfl : mode = 0 ∨ mode = 1 := by omega
          · obtain ⟨hr, hx⟩ := (openEntry_result T₂ hlast).2 hgone
            exact ⟨hr, hx.trans (hcleared hterm)⟩
          · obtain ⟨hr, hx⟩ := (openEntry_result T₂ hlast).2 hgone
            exact ⟨hr, hx.trans (hcleared hterm)⟩
        · rw [if_neg (by omega), if_neg (by omega)] at hlast
          obtain ⟨rfl, rfl⟩ := Prod.mk.inj (Option.some_inj.mp hlast)
          exact ⟨rfl, hcleared hterm⟩
      constructor
      · intro hundone
        by_contra hnot
        simp only [not_or, not_and, not_forall, not_not] at hnot
        obtain ⟨-, -, -, hterm, hpipe, hwhy⟩ := hnot
        have hbad : ¬mode ≤ 1 ∨ LastEnd k fd i := by
          by_cases hmode : mode ≤ 1
          · obtain ⟨a, ha, hlastEnd⟩ := hwhy hmode
            obtain rfl := Option.some_inj.mp ha
            exact Or.inr hlastEnd
          · exact Or.inl hmode
        obtain ⟨hr, hgone⟩ := hfail hterm hbad
        exact hpipe ((hundone hr).fdPipe fd (not_le.mp hfd) ▸ hgone)
      · rintro (h | h | h | hcond)
        · exact absurd h hfd
        · exact absurd h hcur
        · cases h
        · intro hr
          by_cases hmode : mode ≤ 1
          · have hmore : k.fdType k.current fd ≠ .terminal → ¬LastEnd k fd i := by
              intro hterm hlastEnd
              rcases hcond with h | h | ⟨-, hall⟩
              · exact hterm h
              · obtain ⟨j, hj, -⟩ := hlastEnd
                rw [h] at hj
                cases hj
              · exact hall i rfl hlastEnd
            rw [hopen hmode hmore] at hr
            cases hr
          · rw [if_neg (by omega), if_neg (by omega)] at hlast
            obtain ⟨-, rfl⟩ := Prod.mk.inj (Option.some_inj.mp hlast)
            refine hempty (hcond.imp_right fun h => h.resolve_right fun hvalid => hmode hvalid.1)

/-- The shell asks for an unknown mode on a descriptor without a pipe. -/
theorem pipe_dup_undone_iff_terminal :
    ∃ k₀ k k', shellTakesEnd 1 = some (k₀, k) ∧ syscallPipeDup k 1 4 2 = some (0, k') ∧
      DupUndone k k' := by
  have hcalc : ((shellTakesEnd 1).bind fun ks =>
      (syscallPipeDup ks.2 1 4 2).map fun x =>
        decide (ks.2.fdType ks.2.current 4 = .terminal ∧ x.1 = 0)) = some true := by
    decide +kernel
  obtain ⟨⟨k₀, k⟩, hrun, h₁⟩ := Option.bind_eq_some_iff.mp hcalc
  obtain ⟨⟨r, k'⟩, hcall, h₂⟩ := Option.map_eq_some_iff.mp h₁
  obtain ⟨hterm, rfl⟩ := of_decide_eq_true h₂
  obtain ⟨live, h⟩ := shellTakesEnd_counted hrun
  exact ⟨k₀, k, k', hrun, hcall, (pipe_dup_undone_iff h.tables hcall).mpr
    (Or.inr (Or.inr (Or.inr (Or.inl hterm)))) rfl⟩

/-- An unknown mode on the last end of a pipe: the call fails and the pipe is gone. -/
theorem failed_dup_destroys_pipe :
    ∃ k₀ k k', shellTakesEnd 1 = some (k₀, k) ∧ (∃ live, FdsCounted k live) ∧
      syscallPipeDup k 1 3 2 = some (0, k') ∧ (k.pipes 0).used = true ∧
      (k'.pipes 0).used = false ∧ ¬DupUndone k k' := by
  have hcalc : ((shellTakesEnd 1).bind fun ks =>
      (syscallPipeDup ks.2 1 3 2).map fun x =>
        (x.1, (ks.2.pipes 0).used, (x.2.pipes 0).used)) = some (0, true, false) := by
    decide +kernel
  obtain ⟨⟨k₀, k⟩, hrun, h₁⟩ := Option.bind_eq_some_iff.mp hcalc
  obtain ⟨⟨r, k'⟩, hcall, h₂⟩ := Option.map_eq_some_iff.mp h₁
  simp only [Prod.mk.injEq] at h₂
  obtain ⟨rfl, hbefore, hafter⟩ := h₂
  refine ⟨k₀, k, k', hrun, shellTakesEnd_counted hrun, hcall, hbefore, hafter, fun hsame => ?_⟩
  have hused := hsame.used 0
  rw [hbefore, hafter] at hused
  cases hused

end Duplicate

end SoKernel
