import SoKernel.Ipc.PipeStep

/-!
# What the calls on pipes leave unchanged

The calls on pipes are made of waits and signals on the semaphores of the pipe, and of
changes of the entry of the pipe. A relation between the states before and after that holds
for these parts holds for the calls.
-/

namespace SoKernel

theorem semWaitStart_pipes (k : Kernel) (id : ℕ) : (semWaitStart k id).1.pipes = k.pipes := by
  obtain ⟨sems, wos, swn, heq⟩ := semWaitStart_shape k id
  rw [heq]

theorem mutexWait_pipes {k k' : Kernel} {id : ℕ} (h : mutexWait k id = some k') :
    k'.pipes = k.pipes := by
  unfold mutexWait at h
  have hpipes := semWaitStart_pipes k id
  split at h
  · cases h
  · rename_i k₁ w hnot hstart
    cases h
    rw [hstart] at hpipes
    exact hpipes

/-- A relation between two states that the parts of the calls on pipes respect. -/
structure CallFrame (R : Kernel → Kernel → Prop) : Prop where
  refl : ∀ k, R k k
  trans : ∀ {k k₁ k'}, R k k₁ → R k₁ k' → R k k'
  wait : ∀ k id, (semWaitStart k id).2 ≠ .queued → R k (semWaitStart k id).1
  signal : ∀ {k id k'}, semSignal k id = some k' → R k k'
  pipe : ∀ k i q, R k (setPipe k i q)

namespace CallFrame

variable {R : Kernel → Kernel → Prop} (F : CallFrame R) {k k' : Kernel} {i id : ℕ} {r : Reply}
include F

theorem started {w : SemWait} (h : semWaitStart k id = (k', w)) (hw : w ≠ .queued) : R k k' := by
  have hwait := F.wait k id
  rw [h] at hwait
  exact hwait hw

theorem mutexWait (h : mutexWait k id = some k') : R k k' := by
  unfold SoKernel.mutexWait at h
  split at h
  · cases h
  · rename_i k₁ w hnot hstart
    cases h
    exact F.started hstart hnot

theorem signalReaders {n : ℕ} (h : signalReaders i n k = some k') : R k k' := by
  induction n generalizing k with
  | zero =>
      cases h
      exact F.refl _
  | succ n ih =>
      obtain ⟨k₁, hsignal, hrest⟩ := Option.bind_eq_some_iff.mp h
      exact F.trans (F.signal hsignal) (ih hrest)

theorem pipeOpenById {isWriter : Bool} {x : ℕ × Kernel} (h : pipeOpenById k id isWriter = some x) :
    R k x.2 := by
  unfold SoKernel.pipeOpenById at h
  split at h
  · cases h
    exact F.refl k
  · obtain ⟨k₁, hwait, hrest⟩ := Option.bind_eq_some_iff.mp h
    obtain ⟨k₂, hsignal, hlast⟩ := Option.bind_eq_some_iff.mp hrest
    cases hlast
    exact F.trans (F.trans (F.mutexWait hwait) (F.pipe k₁ _ _)) (F.signal hsignal)

/-- The close of an end, up to the close of the semaphores of a pipe that is destroyed. -/
theorem pipeCloseById {isWriter : Bool} {x : ℕ × Kernel} (h : pipeCloseById k id isWriter = some x) :
    (pipeGetById k id = none ∧ x.2 = k) ∨ ∃ i, pipeGetById k id = some i ∧
      if ((k.pipes i).closed isWriter).readers = 0 ∧ ((k.pipes i).closed isWriter).writers = 0 then
        ∃ k₁, R k k₁ ∧ x.2 = (semCloseById (semCloseById (semCloseById k₁ (k.pipes i).semItems).2
          (k.pipes i).semSpaces).2 (k.pipes i).mutex).2
      else R k x.2 := by
  unfold SoKernel.pipeCloseById at h
  split at h
  · rename_i hnone
    cases h
    exact Or.inl ⟨hnone, rfl⟩
  · rename_i i hfound
    right
    refine ⟨i, hfound, ?_⟩
    obtain ⟨k₁, hwait, hrest⟩ := Option.bind_eq_some_iff.mp h
    extract_lets p wasLastWriter q kq at hrest
    have hpipe : q = (k.pipes i).closed isWriter := by
      rw [Pipe.closed, ← mutexWait_pipes hwait]
    obtain ⟨hitems, hspaces⟩ := (k.pipes i).closed_sems isWriter
    have hmutex := ((k.pipes i).closed_same isWriter).2.2.2
    have hq : R k kq := F.trans (F.mutexWait hwait) (F.pipe k₁ i q)
    rw [hpipe] at hrest
    split at hrest
    · rename_i hdead
      rw [if_pos hdead]
      obtain ⟨k₂, hsignal, hlast⟩ := Option.bind_eq_some_iff.mp hrest
      cases hlast
      dsimp only
      rw [hitems, hspaces, hmutex]
      exact ⟨k₂, F.trans (F.trans hq (F.pipe kq _ _)) (F.signal hsignal), rfl⟩
    · rename_i hlive
      rw [if_neg hlive]
      obtain ⟨k₂, hwake, hrest⟩ := Option.bind_eq_some_iff.mp hrest
      obtain ⟨k₃, hsignal, hlast⟩ := Option.bind_eq_some_iff.mp hrest
      cases hlast
      refine F.trans (F.trans hq ?_) (F.signal hsignal)
      split at hwake
      · exact F.signalReaders hwake
      · cases hwake
        exact F.refl _

/-- A turn ends, or blocks with a wait that puts the caller into a queue. -/
theorem turnWait {a : ℕ} {x : Kernel × Reply}
    (h : (match semWaitStart k a with
      | (k, .failed) => some (k, Reply.ended)
      | (k, .taken) => some (k, .again)
      | (k, .queued) => some (k, .blocked)) = some x) :
    (x.2 ≠ .blocked ∧ R k x.1) ∨ x.2 = .blocked ∧ semWaitStart k a = (x.1, .queued) := by
  split at h
  · rename_i hstart
    cases h
    exact Or.inl ⟨by simp, F.started hstart (by simp)⟩
  · rename_i hstart
    cases h
    exact Or.inl ⟨by simp, F.started hstart (by simp)⟩
  · rename_i hstart
    cases h
    exact Or.inr ⟨rfl, hstart⟩

theorem pipeReadTurn {n : ℕ} (h : pipeReadTurn k i n = some (k', r)) :
    (r ≠ .blocked ∧ R k k') ∨ r = .blocked ∧ ∃ k₁ a, R k k₁ ∧ semWaitStart k₁ a = (k', .queued) := by
  unfold SoKernel.pipeReadTurn at h
  split at h
  · rename_i k₁ hstart
    cases h
    exact Or.inl ⟨by simp, F.started hstart (by simp)⟩
  · cases h
  · rename_i k₁ hstart
    have hfirst : R k k₁ := F.started hstart (by simp)
    dsimp only at h
    split at h
    · obtain ⟨k₂, hsignal, hlast⟩ := Option.bind_eq_some_iff.mp h
      cases hlast
      exact Or.inl ⟨by simp, F.trans hfirst (F.signal hsignal)⟩
    · split at h
      · obtain ⟨k₂, hsignal, hrest⟩ := Option.bind_eq_some_iff.mp h
        obtain ⟨k₃, hsignal', hlast⟩ := Option.bind_eq_some_iff.mp hrest
        cases hlast
        exact Or.inl ⟨by simp, F.trans (F.trans (F.trans hfirst (F.pipe k₁ _ _)) (F.signal hsignal))
          (F.signal hsignal')⟩
      · split at h
        · obtain ⟨k₂, hsignal, hlast⟩ := Option.bind_eq_some_iff.mp h
          cases hlast
          exact Or.inl ⟨by simp, F.trans hfirst (F.signal hsignal)⟩
        · obtain ⟨k₂, hsignal, hrest⟩ := Option.bind_eq_some_iff.mp h
          have hsecond := F.trans hfirst (F.signal hsignal)
          rcases F.turnWait hrest with ⟨hr, hlast⟩ | ⟨hr, hlast⟩
          · exact Or.inl ⟨hr, F.trans hsecond hlast⟩
          · exact Or.inr ⟨hr, k₂, _, hsecond, hlast⟩

theorem pipeWriteTurn {b : UInt8} (h : pipeWriteTurn k i b = some (k', r)) :
    (r ≠ .blocked ∧ R k k') ∨ r = .blocked ∧ ∃ k₁ a, R k k₁ ∧ semWaitStart k₁ a = (k', .queued) := by
  unfold SoKernel.pipeWriteTurn at h
  split at h
  · rename_i k₁ hstart
    cases h
    exact Or.inl ⟨by simp, F.started hstart (by simp)⟩
  · cases h
  · rename_i k₁ hstart
    have hfirst : R k k₁ := F.started hstart (by simp)
    dsimp only at h
    split at h
    · obtain ⟨k₂, hsignal, hlast⟩ := Option.bind_eq_some_iff.mp h
      cases hlast
      exact Or.inl ⟨by simp, F.trans hfirst (F.signal hsignal)⟩
    · split at h
      · obtain ⟨k₂, hsignal, hrest⟩ := Option.bind_eq_some_iff.mp h
        obtain ⟨k₃, hsignal', hlast⟩ := Option.bind_eq_some_iff.mp hrest
        cases hlast
        exact Or.inl ⟨by simp, F.trans (F.trans (F.trans hfirst (F.pipe k₁ _ _)) (F.signal hsignal))
          (F.signal hsignal')⟩
      · obtain ⟨k₂, hsignal, hrest⟩ := Option.bind_eq_some_iff.mp h
        have hsecond := F.trans hfirst (F.signal hsignal)
        rcases F.turnWait hrest with ⟨hr, hlast⟩ | ⟨hr, hlast⟩
        · exact Or.inl ⟨hr, F.trans hsecond hlast⟩
        · exact Or.inr ⟨hr, k₂, _, hsecond, hlast⟩

end CallFrame
end SoKernel
