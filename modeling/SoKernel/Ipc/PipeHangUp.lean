import SoKernel.Ipc.Blocked
import SoKernel.Ipc.PipeWakeUps
import SoKernel.Ipc.Runner

/-!
# Processes that are blocked on a pipe without another side

The last writer wakes at most a hundred of the readers, and none when it destroys the pipe;
the last reader wakes nobody. So nobody is left behind as long as every such close finds no
more blocked processes than it wakes.
-/

namespace SoKernel

open Function (update)

section Condition

/-- A close of the last writing end of the pipe finds no more blocked readers than it wakes,
and a close of the last reading end finds no blocked writer. -/
def WakesAll (i : ℕ) (m : Ipc PipeJob) (e : Option IpcEvent) (_ : Ipc PipeJob) : Prop :=
  ∀ p isWriter r L, e = some ⟨p, .pipeClose (m.kernel.pipes i).id isWriter, r⟩ →
    (m.kernel.pipes i).used = true →
    (isWriter = true → (m.kernel.pipes i).writers = 1 →
      WaitQueue m.kernel (m.kernel.pipes i).semItems L →
      L.length ≤ min (m.kernel.pipes i).readers.toNat 100) ∧
    (isWriter = false → (m.kernel.pipes i).readers = 1 →
      WaitQueue m.kernel (m.kernel.pipes i).semSpaces L → L = [])

end Condition

section Steps

variable {i q : ℕ} {v v' : PipeView} {c : IpcCall} {r : Reply}

/-- The numbers of ends are not negative, and without an end nobody waits on the other side. -/
structure Attended (v : PipeView) : Prop where
  writers_nonneg : 0 ≤ v.pipe.writers
  readers_nonneg : 0 ≤ v.pipe.readers
  items : v.pipe.writers = 0 → v.items.queue = []
  spaces : v.pipe.readers = 0 → v.spaces.queue = []

/-- What the close of an end has to find. -/
structure ClosesAll (v : PipeView) (isWriter : Bool) : Prop where
  items : isWriter = true → v.pipe.writers = 1 →
    v.items.queue.length ≤ min v.pipe.readers.toNat 100
  spaces : isWriter = false → v.pipe.readers = 1 → v.spaces.queue = []

/-- After the close of an end nobody waits for the side that is gone. -/
theorem Attended.close {isWriter : Bool} (h : Attended v) (hall : ClosesAll v isWriter) :
    Attended
      { v with
        pipe := v.pipe.closed isWriter
        items := CountingSemaphore.signal^[wakeCount v.pipe isWriter] v.items } := by
  have hwriters := h.writers_nonneg
  have hreaders := h.readers_nonneg
  cases isWriter with
  | true =>
      by_cases hpos : 0 < v.pipe.writers
      · have hpipe : v.pipe.closed true = { v.pipe with writers := v.pipe.writers - 1 } := by
          simp [Pipe.closed, hpos]
        rw [hpipe]
        refine ⟨?_, hreaders, fun hzero => ?_, h.spaces⟩
        · dsimp only
          omega
        · dsimp only at hzero ⊢
          have hone : v.pipe.writers = 1 := by omega
          have hwake : wakeCount v.pipe true = min v.pipe.readers.toNat 100 := by
            rw [wakeCount, if_pos ⟨rfl, hpos, hzero⟩, hpipe]
          rw [CountingSemaphore.signal_iterate_queue, hwake]
          exact List.drop_eq_nil_of_le (hall.items rfl hone)
      · have hpipe : v.pipe.closed true = v.pipe := by simp [Pipe.closed, hpos]
        have hwake : wakeCount v.pipe true = 0 := by
          rw [wakeCount, if_neg fun hw => hpos hw.2.1]
        rw [hpipe, hwake]
        exact h
  | false =>
      have hwake : wakeCount v.pipe false = 0 := by simp [wakeCount]
      rw [hwake]
      by_cases hpos : 0 < v.pipe.readers
      · have hpipe : v.pipe.closed false = { v.pipe with readers := v.pipe.readers - 1 } := by
          simp [Pipe.closed, hpos]
        rw [hpipe]
        refine ⟨hwriters, ?_, h.items, fun hzero => ?_⟩
        · dsimp only
          omega
        · dsimp only at hzero ⊢
          exact hall.spaces rfl (by omega)
      · have hpipe : v.pipe.closed false = v.pipe := by simp [Pipe.closed, hpos]
        rw [hpipe]
        exact h

/-- A close that destroys the pipe leaves nobody behind. -/
theorem Attended.destroy {isWriter : Bool} (h : Attended v) (hall : ClosesAll v isWriter)
    (hreaders : (v.pipe.closed isWriter).readers = 0) (hwriters : (v.pipe.closed isWriter).writers = 0) :
    v.items.queue = [] ∧ v.spaces.queue = [] := by
  have hnw := h.writers_nonneg
  have hnr := h.readers_nonneg
  cases isWriter with
  | true =>
      have hr : v.pipe.readers = 0 := by
        simp only [Pipe.closed, if_true] at hreaders
        split at hreaders <;> exact hreaders
      refine ⟨?_, h.spaces hr⟩
      by_cases hpos : 0 < v.pipe.writers
      · have hone : v.pipe.writers = 1 := by
          simp only [Pipe.closed, if_true, if_pos hpos] at hwriters
          omega
        have hlen := hall.items rfl hone
        rw [hr] at hlen
        exact List.length_eq_zero_iff.mp (Nat.le_zero.mp hlen)
      · exact h.items (by omega)
  | false =>
      have hw : v.pipe.writers = 0 := by
        simp only [Pipe.closed, Bool.false_eq_true, if_false] at hwriters
        split at hwriters <;> exact hwriters
      refine ⟨h.items hw, ?_⟩
      by_cases hpos : 0 < v.pipe.readers
      · refine hall.spaces rfl ?_
        simp only [Pipe.closed, Bool.false_eq_true, if_false, if_pos hpos] at hreaders
        omega
      · exact h.spaces (by omega)

theorem PipeStep.attended (step : PipeStep i v q c r v') (h : Attended v)
    (hall : ∀ isWriter, c = .pipeClose v.pipe.id isWriter → ClosesAll v isWriter) : Attended v' := by
  have hwriters := h.writers_nonneg
  have hreaders := h.readers_nonneg
  have hsignal : ∀ s : CountingSemaphore ℕ, s.queue = [] → s.signal.queue = [] := by
    intro s hs
    rw [queue_signal, hs]
    rfl
  cases step with
  | other => exact h
  | @opened id isWriter =>
      cases isWriter with
      | true =>
          refine ⟨?_, hreaders, fun hzero => ?_, h.spaces⟩
          · simp only [Pipe.opened, if_true]
            omega
          · simp only [Pipe.opened, if_true] at hzero
            omega
      | false =>
          refine ⟨hwriters, ?_, h.items, fun hzero => ?_⟩
          · simp only [Pipe.opened, Bool.false_eq_true, if_false]
            omega
          · simp only [Pipe.opened, Bool.false_eq_true, if_false] at hzero
            omega
  | @closed isWriter => exact h.close (hall isWriter rfl)
  | readEnded => exact h
  | readMoved => exact ⟨hwriters, hreaders, h.items, fun hzero => hsignal _ (h.spaces hzero)⟩
  | readAgain => exact ⟨hwriters, hreaders, h.items, h.spaces⟩
  | readBlocked _ writers => exact ⟨hwriters, hreaders, fun hzero => absurd hzero writers, h.spaces⟩
  | writeEnded => exact h
  | writeMoved => exact ⟨hwriters, hreaders, fun hzero => hsignal _ (h.items hzero), h.spaces⟩
  | writeAgain => exact ⟨hwriters, hreaders, h.items, h.spaces⟩
  | writeBlocked _ readers => exact ⟨hwriters, hreaders, h.items, fun hzero => absurd hzero readers⟩

end Steps

section Runs

variable {m m' : Ipc PipeJob} {V V' : Sems} {e : Option IpcEvent} {t : List IpcEvent} {i id p : ℕ}

theorem WakesAll.closesAll {v : PipeView} {c : IpcCall} {r : Reply} (hsound : Sound m.kernel V)
    (hv : Shows m.kernel V i v) (hall : WakesAll i m (some ⟨p, c, r⟩) m') (isWriter : Bool)
    (hc : c = .pipeClose v.pipe.id isWriter) : ClosesAll v isWriter := by
  subst hc
  have hclose := fun L => hall p isWriter r L (by rw [hv.pipe]) (hv.pipe ▸ hv.used)
  rw [hv.pipe] at hclose
  exact ⟨fun hw hone => (hclose _).1 hw hone (hsound.sems.waitQueue_iff.mpr ⟨_, hv.items, rfl⟩),
    fun hw hone => (hclose _).2 hw hone (hsound.sems.waitQueue_iff.mpr ⟨_, hv.spaces, rfl⟩)⟩

/-- The blocked processes of a pipe are in its queues, and the other side is open. -/
structure Answered (i : ℕ) (t : List IpcEvent) (m : Ipc PipeJob) (V : Sems) : Prop where
  attended : ∀ v, Shows m.kernel V i v → Attended v
  read : ∀ p, m.kernel.state p = .blocked → Sleeps (IsRead i) t p →
    ∃ v, Shows m.kernel V i v ∧ p ∈ v.items.queue
  write : ∀ p, m.kernel.state p = .blocked → Sleeps (IsWrite i) t p →
    ∃ v, Shows m.kernel V i v ∧ p ∈ v.spaces.queue

theorem Answered.attended_step (h : Answered i t m V) (hsound : Sound m.kernel V) (hi : i < maxPipes)
    (effect : StepEffect pipeProgram m V m' V' e) (hall : WakesAll i m e m') {v' : PipeView}
    (hv' : Shows m'.kernel V' i v') : Attended v' := by
  rcases effect.pipe_before hsound hi (hv'.pipe ▸ hv'.used) with
    ⟨v, w, hv, hw, hmove⟩ | ⟨q, hfresh, hpipes⟩
  · obtain rfl := hw.unique hv'
    cases hmove with
    | call step => exact step.attended (h.attended v hv) fun isWriter hc => hall.closesAll hsound hv isWriter hc
    | switch same =>
        rw [same]
        exact h.attended v hv
  · have hq : v'.pipe = q := by rw [← hv'.pipe, hpipes, Function.update_self]
    obtain ⟨hitems, hspaces⟩ := hfresh.empty
    rw [← hq, hv'.items, Option.some_inj] at hitems
    rw [← hq, hv'.spaces, Option.some_inj] at hspaces
    refine ⟨?_, ?_, fun _ => by rw [hitems], fun _ => by rw [hspaces]⟩
    · rw [hq, hfresh.ends.2]
    · rw [hq, hfresh.ends.1]

/-- A pipe with a waiting process is not destroyed. -/
theorem Answered.stays {v : PipeView} (h : Answered i t m V) (hsound : Sound m.kernel V)
    (hi : i < maxPipes) (effect : StepEffect pipeProgram m V m' V' e) (hall : WakesAll i m e m')
    (hv : Shows m.kernel V i v) (hne : v.items.queue ≠ [] ∨ v.spaces.queue ≠ []) :
    ∃ v', Shows m'.kernel V' i v' ∧ PipeMove i m v m' v' e := by
  rcases effect.pipeMove hsound hi hv with ⟨-, c, r, rfl, isWriter, hc, hreaders, hwriters⟩ | hmove
  · obtain ⟨hitems, hspaces⟩ := (h.attended v hv).destroy (hall.closesAll hsound hv isWriter hc)
      hreaders hwriters
    rcases hne with hne | hne
    · exact absurd hitems hne
    · exact absurd hspaces hne
  · exact hmove

/-- A step keeps the semaphores of a pipe. -/
theorem PipeMove.sems {v v' : PipeView} (h : PipeMove i m v m' v' e) :
    v'.pipe.semItems = v.pipe.semItems ∧ v'.pipe.semSpaces = v.pipe.semSpaces := by
  cases h with
  | switch same =>
      rw [same]
      exact ⟨rfl, rfl⟩
  | call step =>
      cases step with
      | opened => exact v.pipe.opened_sems _
      | closed => exact v.pipe.closed_sems _
      | _ => exact ⟨rfl, rfl⟩

/-- The view of the pipe after a call that blocks on it. -/
theorem StepEffect.blocks_on {c : IpcCall} (hsound : Sound m.kernel V) (hi : i < maxPipes)
    (effect : StepEffect pipeProgram m V m' V' (some ⟨p, c, .blocked⟩))
    (hc : IsRead i c ∨ IsWrite i c) :
    ∃ v v', Shows m'.kernel V' i v' ∧ PipeStep i v p c .blocked v' := by
  cases effect with
  | call _ _ _ _ _ _ _ runs => exact absurd rfl runs
  | block next a s caller acts waits entry empty sems pipes =>
      have hused : (m.kernel.pipes i).used = true := by
        rcases hc with ⟨n, rfl⟩ | ⟨b, rfl⟩
        · exact waits.2.2.1
        · exact waits.2.2.1
      obtain ⟨v, hv⟩ := hsound.shows hi hused
      obtain ⟨v', hv', hstep⟩ := waits.pipeStep hsound hi hv entry empty pipes
      exact ⟨v, v', sems ▸ hv', hstep⟩

theorem Answered.step (h : Answered i t m V) (hsound : Sound m.kernel V)
    (hi : i < maxPipes) (step : IpcStep pipeProgram m e m')
    (effect : StepEffect pipeProgram m V m' V' e) (hall : WakesAll i m e m') :
    Answered i (t ++ e.toList) m' V' := by
  refine ⟨fun v' hv' => h.attended_step hsound hi effect hall hv', fun p hp hs => ?_, fun p hp hs => ?_⟩
  · have hself : ∀ c, e = some ⟨p, c, .blocked⟩ → ∃ v, Shows m'.kernel V' i v ∧ p ∈ v.items.queue := by
      rintro c rfl
      obtain ⟨hc, -⟩ := sleeps_self.mp hs
      obtain ⟨v, v', hv', hstep⟩ := effect.blocks_on hsound hi (Or.inl hc)
      obtain ⟨n, rfl⟩ := hc
      refine ⟨v', hv', ?_⟩
      cases hstep with
      | other noRead => exact absurd rfl (noRead n)
      | readBlocked => exact List.mem_append_right _ (List.mem_singleton.mpr rfl)
    rcases hs.cases with ⟨c, -, he⟩ | hs'
    · exact hself c he
    · rcases step.stillBlocked hsound hp with ⟨-, c, he⟩ | ⟨hbefore, -⟩
      · exact hself c he
      · obtain ⟨v, hv, hmem⟩ := h.read p hbefore hs'
        obtain ⟨v', hv', hmove⟩ := h.stays hsound hi effect hall hv (Or.inl (List.ne_nil_of_mem hmem))
        refine ⟨v', hv', effect.queued hv.items hmem hp ?_⟩
        rw [← hmove.sems.1]
        exact hv'.items
  · have hself : ∀ c, e = some ⟨p, c, .blocked⟩ → ∃ v, Shows m'.kernel V' i v ∧ p ∈ v.spaces.queue := by
      rintro c rfl
      obtain ⟨hc, -⟩ := sleeps_self.mp hs
      obtain ⟨v, v', hv', hstep⟩ := effect.blocks_on hsound hi (Or.inr hc)
      obtain ⟨b, rfl⟩ := hc
      refine ⟨v', hv', ?_⟩
      cases hstep with
      | other _ noWrite => exact absurd rfl (noWrite b)
      | writeBlocked => exact List.mem_append_right _ (List.mem_singleton.mpr rfl)
    rcases hs.cases with ⟨c, -, he⟩ | hs'
    · exact hself c he
    · rcases step.stillBlocked hsound hp with ⟨-, c, he⟩ | ⟨hbefore, -⟩
      · exact hself c he
      · obtain ⟨v, hv, hmem⟩ := h.write p hbefore hs'
        obtain ⟨v', hv', hmove⟩ := h.stays hsound hi effect hall hv (Or.inr (List.ne_nil_of_mem hmem))
        refine ⟨v', hv', effect.queued hv.spaces hmem hp ?_⟩
        rw [← hmove.sems.2]
        exact hv'.spaces

end Runs
end SoKernel
