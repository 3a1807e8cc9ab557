import SoKernel.Ipc.CallFrames

/-!
# Which processes a call leaves blocked

A call of one process blocks no other process, and a process that stays blocked waits for
the semaphore that it waited for before. With the represented semaphores: a process that
is in a wait queue before a step and blocked after it is still in the queue, unless the
step removes the semaphore.
-/

namespace SoKernel

open Function (update)

variable {k k' k₁ : Kernel} {V V' : Sems} {c : IpcCall} {r : Reply} {i id p a : ℕ}
  {s : CountingSemaphore ℕ}

section Frames

/-- The blocked processes were blocked before, on the same semaphore. -/
def StillBlocked (k k' : Kernel) : Prop :=
  ∀ p, k'.state p = .blocked → k.state p = .blocked ∧ k'.waitingOnSem p = k.waitingOnSem p

namespace StillBlocked

theorem of_eq (hstate : k'.state = k.state) (hon : k'.waitingOnSem = k.waitingOnSem) :
    StillBlocked k k' := by
  intro p hp
  rw [hstate] at hp
  rw [hon]
  exact ⟨hp, rfl⟩

theorem refl (k : Kernel) : StillBlocked k k := .of_eq rfl rfl

theorem trans (h : StillBlocked k k₁) (h' : StillBlocked k₁ k') : StillBlocked k k' := by
  intro p hp
  obtain ⟨hmid, hon⟩ := h' p hp
  obtain ⟨hbefore, hon'⟩ := h p hmid
  exact ⟨hbefore, hon.trans hon'⟩

end StillBlocked

/-- The process that a signal releases is not blocked. -/
theorem SignalEffect.stillBlocked {w : ℕ} (h : SignalEffect k id w k') : StillBlocked k k' := by
  cases h with
  | missing => exact .refl k
  | incremented => exact .of_eq rfl rfl
  | released i w found head ne l b =>
      intro p hp
      have hp' : update k.state w .ready p = .blocked := hp
      have hpw : p ≠ w := by
        rintro rfl
        rw [Function.update_self] at hp'
        cases hp'
      rw [Function.update_of_ne hpw] at hp'
      exact ⟨hp', Function.update_of_ne hpw _ _⟩

theorem releaseLoop_stillBlocked (n : ℕ) (k : Kernel) : StillBlocked k (releaseLoop i n k).2 := by
  induction n generalizing k with
  | zero => exact .refl k
  | succ n ih =>
      rw [releaseLoop]
      split
      · exact .refl k
      · rename_i hw
        refine StillBlocked.trans (fun p hp => ?_) (ih (releasedKernel k i (k.semaphores i).waitHead))
        have hp' : update k.state (k.semaphores i).waitHead .ready p = .blocked := hp
        have hpw : p ≠ (k.semaphores i).waitHead := by
          rintro rfl
          rw [Function.update_self] at hp'
          cases hp'
        rw [Function.update_of_ne hpw] at hp'
        exact ⟨hp', Function.update_of_ne hpw _ _⟩

theorem semSetById_stillBlocked {v : ℤ} {x : ℕ × List ℕ × Kernel} (h : semSetById k id v = some x) :
    StillBlocked k x.2.2 := by
  unfold semSetById at h
  split at h
  · cases h
    exact .refl k
  · rename_i i hfound
    split at h
    · cases h
      exact .refl k
    · obtain ⟨⟨ws, k₁⟩, hloop, hlast⟩ := Option.bind_eq_some_iff.mp h
      obtain ⟨sched, -, rfl⟩ := awakenLoop_shape hloop
      cases hlast
      exact (releaseLoop_stillBlocked v.toNat k).trans (.of_eq rfl rfl)

theorem semWaitStart_stillBlocked (k : Kernel) (id : ℕ) :
    (semWaitStart k id).2 ≠ .queued → StillBlocked k (semWaitStart k id).1 := by
  unfold semWaitStart
  split
  · exact fun _ => .refl k
  · split
    · exact fun _ => .refl k
    · dsimp only
      split
      · exact fun _ => .of_eq rfl rfl
      · exact fun h => absurd rfl h

theorem semAlloc_stillBlocked (k : Kernel) (v : ℤ) : StillBlocked k (semAlloc k v).2 := by
  unfold semAlloc
  split
  · exact .refl k
  · exact .of_eq rfl rfl

theorem semCloseById_stillBlocked (k : Kernel) (id : ℕ) : StillBlocked k (semCloseById k id).2 := by
  obtain ⟨sems, heq, -⟩ := semCloseById_kept k id
  rw [heq]
  exact .of_eq rfl rfl

theorem pipeCreate_stillBlocked (k : Kernel) : StillBlocked k (pipeCreate k).2 := by
  unfold pipeCreate
  split
  · exact .refl k
  · dsimp only
    have halloc := fun k₁ v (h : StillBlocked k k₁) => h.trans (semAlloc_stillBlocked k₁ v)
    have hclose := fun k₁ id (h : StillBlocked k k₁) => h.trans (semCloseById_stillBlocked k₁ id)
    have hitems := halloc k 0 (.refl k)
    have hspaces := halloc _ pipeBufferSize hitems
    have hmutex := halloc _ 1 hspaces
    split
    · exact hitems.trans (.of_eq rfl rfl)
    · split
      · exact (hclose _ _ hspaces).trans (.of_eq rfl rfl)
      · split
        · exact (hclose _ _ (hclose _ _ hmutex)).trans (.of_eq rfl rfl)
        · exact hmutex.trans (.of_eq rfl rfl)

theorem SignalEffect.current {w : ℕ} (h : SignalEffect k id w k') : k'.current = k.current := by
  cases h <;> rfl

theorem semWaitStart_current (k : Kernel) (id : ℕ) : (semWaitStart k id).1.current = k.current := by
  unfold semWaitStart
  split
  · rfl
  · split
    · rfl
    · dsimp only
      split
      · rfl
      · unfold enqueueWaiter
        dsimp only
        split <;> rfl

theorem stillBlocked_frame :
    CallFrame fun k k' => StillBlocked k k' ∧ k'.current = k.current where
  refl k := ⟨.refl k, rfl⟩
  trans h h' := ⟨h.1.trans h'.1, h'.2.trans h.2⟩
  wait k id h := ⟨semWaitStart_stillBlocked k id h, semWaitStart_current k id⟩
  signal h := by
    obtain ⟨w, hw⟩ := semSignal_effect h
    exact ⟨hw.stillBlocked, hw.current⟩
  pipe _ _ _ := ⟨.of_eq rfl rfl, rfl⟩

/-- A call that does not block its caller. -/
theorem ipcExec_stillBlocked (h : ipcExec k c = some (k', r)) (hr : r ≠ .blocked) :
    StillBlocked k k' := by
  cases c with
  | semAlloc v =>
      cases h
      exact semAlloc_stillBlocked k v
  | semOpen id =>
      cases h
      dsimp only [semOpenById]
      split
      · exact .refl k
      · exact .of_eq rfl rfl
  | semClose id =>
      cases h
      exact semCloseById_stillBlocked k id
  | semWait id =>
      have hwait := semWaitStart_stillBlocked k id
      simp only [ipcExec] at h
      split at h
      · rename_i hstart
        cases h
        rw [hstart] at hwait
        exact hwait (by simp)
      · rename_i hstart
        cases h
        rw [hstart] at hwait
        exact hwait (by simp)
      · cases h
        exact absurd rfl hr
  | semSignal id =>
      obtain ⟨⟨n, w, k₁⟩, hsignal, hlast⟩ := Option.map_eq_some_iff.mp h
      cases hlast
      exact (semSignalById_effect hsignal).stillBlocked
  | semSet id v =>
      obtain ⟨⟨n, ws, k₁⟩, hset, hlast⟩ := Option.map_eq_some_iff.mp h
      cases hlast
      exact semSetById_stillBlocked hset
  | pipeCreate =>
      cases h
      exact pipeCreate_stillBlocked k
  | pipeOpen id isWriter =>
      obtain ⟨⟨n, k₁⟩, hopen, hlast⟩ := Option.map_eq_some_iff.mp h
      cases hlast
      exact (stillBlocked_frame.pipeOpenById hopen).1
  | pipeClose id isWriter =>
      obtain ⟨⟨n, k₁⟩, hclose, hlast⟩ := Option.map_eq_some_iff.mp h
      cases hlast
      rcases stillBlocked_frame.pipeCloseById hclose with ⟨-, heq⟩ | ⟨i, -, hend⟩
      · exact .of_eq (congrArg Kernel.state heq) (congrArg Kernel.waitingOnSem heq)
      · split at hend
        · obtain ⟨k₂, hsame, heq⟩ := hend
          dsimp only at heq
          rw [heq]
          exact ((hsame.1.trans (semCloseById_stillBlocked _ _)).trans
            (semCloseById_stillBlocked _ _)).trans (semCloseById_stillBlocked _ _)
        · exact hend.1
  | readTurn i n =>
      rcases stillBlocked_frame.pipeReadTurn h with ⟨-, hsame⟩ | ⟨hblocked, -⟩
      · exact hsame.1
      · exact absurd hblocked hr
  | writeTurn i b =>
      rcases stillBlocked_frame.pipeWriteTurn h with ⟨-, hsame⟩ | ⟨hblocked, -⟩
      · exact hsame.1
      · exact absurd hblocked hr

/-- A call that blocks its caller ends with a wait that puts the caller into a queue. -/
theorem ipcExec_blocked (h : ipcExec k c = some (k', .blocked)) :
    ∃ k₁ a, StillBlocked k k₁ ∧ k₁.current = k.current ∧ semWaitStart k₁ a = (k', .queued) := by
  cases c with
  | semWait id =>
      simp only [ipcExec] at h
      split at h
      · cases h
      · cases h
      · rename_i hstart
        cases h
        exact ⟨k, id, .refl k, rfl, hstart⟩
  | readTurn i n =>
      rcases stillBlocked_frame.pipeReadTurn h with ⟨hr, -⟩ | ⟨-, k₁, a, hsame, hstart⟩
      · exact absurd rfl hr
      · exact ⟨k₁, a, hsame.1, hsame.2, hstart⟩
  | writeTurn i b =>
      rcases stillBlocked_frame.pipeWriteTurn h with ⟨hr, -⟩ | ⟨-, k₁, a, hsame, hstart⟩
      · exact absurd rfl hr
      · exact ⟨k₁, a, hsame.1, hsame.2, hstart⟩
  | semSignal id =>
      obtain ⟨_, -, hlast⟩ := Option.map_eq_some_iff.mp h
      cases hlast
  | semSet id v =>
      obtain ⟨_, -, hlast⟩ := Option.map_eq_some_iff.mp h
      cases hlast
  | pipeOpen id isWriter =>
      obtain ⟨_, -, hlast⟩ := Option.map_eq_some_iff.mp h
      cases hlast
  | pipeClose id isWriter =>
      obtain ⟨_, -, hlast⟩ := Option.map_eq_some_iff.mp h
      cases hlast
  | _ => cases h

/-- A context switch blocks nobody. -/
theorem switchBy_stillBlocked {ch : Choice} (halive : k.state k.current ≠ .finished)
    (hdead : ch.dead = []) (hp : SwitchPromise k ch) (h : switchBy k ch = some k') :
    StillBlocked k k' := by
  obtain ⟨hhanded, -⟩ := switchBy_handed halive hdead hp h
  obtain ⟨⟨sched, rfl⟩, -⟩ := switchBy_alive halive hdead hp h
  exact fun p hp => ⟨hhanded.blocked p hp, rfl⟩

end Frames

section Steps

variable {σ : Type} {prog : Program σ} {m m' : Ipc σ} {e : Option IpcEvent}

/-- A step blocks its caller only, and only if its reply says so. -/
theorem IpcStep.stillBlocked (hsound : Sound m.kernel V) (step : IpcStep prog m e m')
    (hp : m'.kernel.state p = .blocked) :
    (p = m.kernel.current ∧ ∃ c, e = some ⟨p, c, .blocked⟩) ∨
      m.kernel.state p = .blocked ∧ m'.kernel.waitingOnSem p = m.kernel.waitingOnSem p := by
  cases step with
  | call caller acts promise step runs => exact Or.inr (ipcExec_stillBlocked step runs p hp)
  | @block c next k₁ ch k' caller acts promise step pick nobody switch =>
      by_cases hpc : p = m.kernel.current
      · exact Or.inl ⟨hpc, c, by rw [hpc]⟩
      · right
        rcases hsound.exec caller promise step with ⟨hr, -⟩ | ⟨-, a, s, -, hqueued⟩
        · exact absurd rfl hr
        · have halive : (schedulerBlockCurrent k₁).state (schedulerBlockCurrent k₁).current ≠
              .finished := by
            rw [hqueued.state, hqueued.aside.current, Function.update_self]
            simp
          obtain ⟨hbefore, hon⟩ := switchBy_stillBlocked halive nobody pick switch p hp
          obtain ⟨k₂, a', hstill, hcur, hwait⟩ := ipcExec_blocked step
          have hstart : k₁.state = k₂.state ∧ k₁.current = k₂.current ∧
              k₁.waitingOnSem p = k₂.waitingOnSem p := by
            unfold semWaitStart at hwait
            split at hwait
            · cases hwait
            · split at hwait
              · cases hwait
              · dsimp only at hwait
                split at hwait
                · cases hwait
                · cases hwait
                  unfold enqueueWaiter
                  dsimp only
                  rw [← hcur] at hpc
                  split <;> exact ⟨rfl, rfl, Function.update_of_ne hpc _ _⟩
          have hblock : (schedulerBlockCurrent k₁).waitingOnSem = k₁.waitingOnSem ∧
              (schedulerBlockCurrent k₁).state p = k₁.state p := by
            rw [← hcur, ← hstart.2.1] at hpc
            unfold schedulerBlockCurrent
            split
            · exact ⟨rfl, rfl⟩
            · exact ⟨rfl, Function.update_of_ne hpc _ _⟩
          rw [hblock.2, hstart.1] at hbefore
          obtain ⟨hfirst, hon'⟩ := hstill p hbefore
          refine ⟨hfirst, ?_⟩
          rw [hon, hblock.1, hstart.2.2, hon']
  | switch pick nobody switch =>
      exact Or.inr (switchBy_stillBlocked (hsound.alive _) nobody pick switch p hp)
  | resched => exact Or.inr ⟨hp, rfl⟩

/-- A process of a queue that is blocked after a call is still in the queue, unless the
semaphore is gone. -/
theorem IpcEffect.queued (effect : IpcEffect k V k' V' c r) (hs : V a = some s)
    (hp : p ∈ s.queue) (hblocked : k'.state p = .blocked) {s' : CountingSemaphore ℕ}
    (hs' : V' a = some s') : p ∈ s'.queue := by
  have hsame : V' a = V a → p ∈ s'.queue := by
    intro he
    rw [he, hs, Option.some_inj] at hs'
    exact hs' ▸ hp
  have htake : ∀ b t, V b = some t → V' = update V b (some t.take) → p ∈ s'.queue := by
    intro b t ht hsems
    by_cases hab : a = b
    · subst hab
      rw [hs, Option.some_inj] at ht
      rw [hsems, Function.update_self, Option.some_inj] at hs'
      rw [← hs', ← ht]
      exact hp
    · exact hsame (by rw [hsems, Function.update_of_ne hab])
  -- the released processes are the first of the queue, and they are ready
  have hdrop : ∀ (n : ℕ) b t t', V b = some t → k'.state = setAll (t.queue.take n) .ready k.state →
      t'.queue = t.queue.drop n → V' = update V b (some t') → p ∈ s'.queue := by
    intro n b t t' ht hstate hqueue hsems
    by_cases hab : a = b
    · subst hab
      rw [hs, Option.some_inj] at ht
      subst ht
      rw [hsems, Function.update_self, Option.some_inj] at hs'
      rw [← hs', hqueue]
      have hmem : p ∈ s.queue.take n ++ s.queue.drop n := by rw [List.take_append_drop]; exact hp
      rcases List.mem_append.mp hmem with hm | hm
      · rw [hstate, setAll_of_mem _ _ hm] at hblocked
        cases hblocked
      · exact hm
    · exact hsame (by rw [hsems, Function.update_of_ne hab])
  have hsignal : ∀ b, k'.state = setAll (V.first b) .ready k.state → V' = V.signal b →
      p ∈ s'.queue := by
    intro b hstate hsems
    cases hb : V b with
    | none => exact hsame (by rw [hsems, Sems.signal_of_none hb])
    | some t =>
        rw [Sems.first_of_some hb] at hstate
        rw [Sems.signal_of_some hb] at hsems
        refine hdrop 1 b t t.signal hb hstate ?_ hsems
        exact CountingSemaphore.signal_iterate_queue 1
  cases effect with
  | semAlloc grown => exact hsame ((grown.old a s hs).trans hs.symm)
  | semOpen _ _ sems => exact hsame (by rw [sems])
  | semClose _ _ _ sems => exact hsame ((hs'.trans (sems.some hs').symm))
  | semMissing _ _ sems => exact hsame (by rw [sems])
  | semTaken _ entry _ _ _ sems => exact htake _ _ entry sems
  | semSignal _ _ state sems => exact hsignal _ state sems
  | semSetFailed _ sems => exact hsame (by rw [sems])
  | semSet _ entry _ state sems => exact hdrop _ _ _ _ entry state rfl sems
  | pipeCreate grown => exact hsame ((grown.old a s hs).trans hs.symm)
  | pipeMissing _ _ sems => exact hsame (by rw [sems])
  | pipeOpen _ _ _ sems => exact hsame (by rw [sems])
  | pipeClose effect =>
      cases effect with
      | missing _ _ sems => exact hsame (by rw [sems])
      | closed j t _ entry _ _ state sems =>
          exact hdrop _ _ _ _ entry state (CountingSemaphore.signal_iterate_queue _) sems
      | destroyed _ _ _ _ _ sems => exact hsame (hs'.trans (sems.some hs').symm)
  | readTurn _ effect =>
      cases effect with
      | gone _ _ sems => exact hsame (by rw [sems])
      | ended _ _ _ _ _ sems => exact hsame (by rw [sems])
      | moved _ _ _ state sems => exact hsignal _ state sems
      | again _ _ t entry _ _ _ sems => exact htake _ _ entry sems
  | writeTurn _ effect =>
      cases effect with
      | gone _ _ sems => exact hsame (by rw [sems])
      | ended _ _ _ _ sems => exact hsame (by rw [sems])
      | moved _ _ _ _ state sems => exact hsignal _ state sems
      | again _ _ _ t entry _ _ _ sems => exact htake _ _ entry sems

theorem StepEffect.queued (effect : StepEffect prog m V m' V' e) (hs : V a = some s) (hp : p ∈ s.queue) (hblocked : m'.kernel.state p = .blocked)
    {s' : CountingSemaphore ℕ} (hs' : V' a = some s') : p ∈ s'.queue := by
  cases effect with
  | call _ _ _ _ _ effect => exact effect.queued hs hp hblocked hs'
  | block _ b t _ _ _ entry _ sems =>
      by_cases hab : a = b
      · subst hab
        rw [hs, Option.some_inj] at entry
        rw [sems, Function.update_self, Option.some_inj] at hs'
        rw [← hs', ← entry]
        exact List.mem_append_left _ hp
      · rw [sems, Function.update_of_ne hab, hs, Option.some_inj] at hs'
        exact hs' ▸ hp
  | switch _ sems =>
      rw [sems, hs, Option.some_inj] at hs'
      exact hs' ▸ hp

/-- A caller that blocks is in the queue of the semaphore that it waits for. -/
theorem StepEffect.enqueued {c : IpcCall} (hsound' : Sound m'.kernel V')
    (effect : StepEffect prog m V m' V' (some ⟨p, c, .blocked⟩)) :
    ∃ s, V' (m'.kernel.waitingOnSem p) = some s ∧ p ∈ s.queue := by
  cases effect with
  | call _ _ _ _ _ _ _ runs => exact absurd rfl runs
  | block _ a s _ _ _ _ _ sems =>
      have hs : V' a = some (s.enqueue m.kernel.current) := by rw [sems, Function.update_self]
      have hp : m.kernel.current ∈ (s.enqueue m.kernel.current).queue := by
        simp [CountingSemaphore.enqueue]
      rw [(hsound'.sems.waiting a _ hs _ hp).2.1]
      exact ⟨_, hs, hp⟩

/-- Only the close of a semaphore, or of a pipe that owns it, removes a semaphore. -/
theorem IpcEffect.removed (effect : IpcEffect k V k' V' c r) (hs : V a = some s)
    (hnone : V' a = none) :
    c = .semClose a ∨ ∃ id isWriter j, c = .pipeClose id isWriter ∧ pipeGetById k id = some j ∧
      ((k.pipes j).closed isWriter).readers = 0 ∧ ((k.pipes j).closed isWriter).writers = 0 ∧
      a ∈ (k.pipes j).semIds := by
  have hsame : V' a = V a → False := by
    intro he
    rw [he, hs] at hnone
    cases hnone
  have hupdate : ∀ b t, V' = update V b (some t) → False := by
    intro b t hsems
    by_cases hab : a = b
    · rw [hsems, hab, Function.update_self] at hnone
      cases hnone
    · exact hsame (by rw [hsems, Function.update_of_ne hab])
  have hsignal : ∀ b, V' = V.signal b → False := by
    intro b hsems
    cases hb : V b with
    | none => exact hsame (by rw [hsems, Sems.signal_of_none hb])
    | some t => exact hupdate b t.signal (hsems.trans (Sems.signal_of_some hb))
  cases effect with
  | semAlloc grown => exact (hsame ((grown.old a s hs).trans hs.symm)).elim
  | semOpen _ _ sems => exact (hsame (by rw [sems])).elim
  | @semClose id _ _ _ _ sems =>
      left
      by_contra hne
      refine hsame (sems.1 a fun hm => hne ?_)
      rw [List.mem_singleton.mp hm]
  | semMissing _ _ sems => exact (hsame (by rw [sems])).elim
  | semTaken _ _ _ _ _ sems => exact (hupdate _ _ sems).elim
  | semSignal _ _ _ sems => exact (hsignal _ sems).elim
  | semSetFailed _ sems => exact (hsame (by rw [sems])).elim
  | semSet _ _ _ _ sems => exact (hupdate _ _ sems).elim
  | pipeCreate grown => exact (hsame ((grown.old a s hs).trans hs.symm)).elim
  | pipeMissing _ _ sems => exact (hsame (by rw [sems])).elim
  | pipeOpen _ _ _ sems => exact (hsame (by rw [sems])).elim
  | pipeClose effect =>
      cases effect with
      | missing _ _ sems => exact (hsame (by rw [sems])).elim
      | closed _ _ _ _ _ _ _ sems => exact (hupdate _ _ sems).elim
      | destroyed j found dead _ _ sems =>
          refine Or.inr ⟨_, _, j, rfl, found, dead.1, dead.2, ?_⟩
          by_contra hm
          exact hsame (sems.1 a hm)
  | readTurn _ effect =>
      cases effect with
      | gone _ _ sems => exact (hsame (by rw [sems])).elim
      | ended _ _ _ _ _ sems => exact (hsame (by rw [sems])).elim
      | moved _ _ _ _ sems => exact (hsignal _ sems).elim
      | again _ _ _ _ _ _ _ sems => exact (hupdate _ _ sems).elim
  | writeTurn _ effect =>
      cases effect with
      | gone _ _ sems => exact (hsame (by rw [sems])).elim
      | ended _ _ _ _ sems => exact (hsame (by rw [sems])).elim
      | moved _ _ _ _ _ sems => exact (hsignal _ sems).elim
      | again _ _ _ _ _ _ _ _ sems => exact (hupdate _ _ sems).elim

end Steps

end SoKernel
