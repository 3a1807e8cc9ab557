import SoKernel.Proc.RealCalls
import SoKernel.Syscalls.PipeCapacity
import SoKernel.Userland.Pipeline

/-!
# The real scheduler under pipes and pipelines

A call of `schedule` leaves the tables undisturbed until it collects finished processes, and then
destroys them one after the other. What every undisturbed step and every `process_destroy` keep, a
timer tick therefore keeps: ticks and yields are steps of the runs with pipes and of the runs of a
pipeline.
-/

namespace SoKernel

open Function (update)

variable {k k' k₁ : Kernel} {Q : QueueId → List ℕ} {ch : Choice} {L dead : List ℕ} {next p : ℕ}
  {frame : Frame} {o : Outcome} {I : Kernel → Prop}

section Model

/-- A property that undisturbed steps keep, and the destruction of those who have finished in `k`. -/
structure KeptPast (k : Kernel) (I : Kernel → Prop) : Prop where
  quiet : ∀ {k₁ k₂}, I k₁ → Undisturbed k₁ k₂ → I k₂
  destroy : ∀ {k₁ k₂ p}, k.allocated p = true → k.state p = .finished → I k₁ → k₁.allocated p = true →
    p ≠ k₁.current → p ≠ 0 → processDestroy k₁ p = some k₂ → I k₂

end Model

section Parts

/-- Clearing the keyboard takes the tokens of its own semaphore. -/
theorem clearedSemaphores_kept (k : Kernel) :
    SemsKept [k.kbdSemId] k.semaphores (clearedSemaphores k) := by
  unfold clearedSemaphores
  split
  · exact .refl _ _
  · rename_i i hget
    refine .update _ rfl (fun hu => hu) fun hne => absurd ?_ hne
    rw [(semGetById_mem hget).2.2]
    exact List.mem_singleton_self _

theorem clearedSemaphores_slot (k : Kernel) (j : ℕ) :
    (clearedSemaphores k j).id = (k.semaphores j).id ∧
      (clearedSemaphores k j).used = (k.semaphores j).used ∧
      (clearedSemaphores k j).refcount = (k.semaphores j).refcount := by
  unfold clearedSemaphores
  cases semGetById k k.kbdSemId with
  | none => exact ⟨rfl, rfl, rfl⟩
  | some i =>
      dsimp only
      by_cases hj : j = i
      · rw [hj, Function.update_self]
        exact ⟨rfl, rfl, rfl⟩
      · rw [Function.update_of_ne hj]
        exact ⟨rfl, rfl, rfl⟩

theorem Undisturbed.resched (h : Undisturbed k k') (s : Sched) : Undisturbed k (k'.resched s) :=
  ⟨h.tables, h.current, h.allocated, h.fds, h.pipes, h.slots.next, h.slots.slot⟩

/-- Filing the interrupted process and dispatching the next one. -/
theorem Undisturbed.switched (T : Tables k) (hkbd : ¬PipeSem k k.kbdSemId)
    (hnext : k.allocated next = true) : Undisturbed k (switchedBy k L next) := by
  have hcleared : Tables { k with semaphores := clearedSemaphores k } := by
    refine T.keptOff (clearedSemaphores_kept k) fun i hi hu a ha hm => hkbd ?_
    exact List.mem_singleton.mp hm ▸ pipeSem_iff.mpr ⟨i, hi, hu, ha⟩
  refine ⟨?_, .inr hnext, rfl, fun _ _ _ _ => ⟨rfl, rfl⟩, fun _ => ⟨rfl, rfl, rfl, rfl, rfl⟩, rfl,
    fun j => ?_⟩
  · change PipeTable k.pipes k.nextPipeId (if savesForeground k then clearedSemaphores k else k.semaphores)
      k.nextSemId
    split
    · exact hcleared
    · exact T
  · dsimp only
    split
    · exact clearedSemaphores_slot k j
    · exact ⟨rfl, rfl, rfl⟩

/-- The destruction of several processes is that of one after the other. -/
theorem KeptPast.destroyAll (hI : KeptPast k I) (hnodup : dead.Nodup)
    (hdead : ∀ p ∈ dead, k.allocated p = true ∧ k.state p = .finished)
    (hlive : ∀ p ∈ dead, k₁.allocated p = true ∧ p ≠ k₁.current ∧ p ≠ 0)
    (hclosed : ∀ p ∈ dead, ∀ i < maxFds, k₁.fdType p i = .terminal) (h : I k₁)
    (step : destroyAll dead k₁ = some k') : I k' := by
  induction dead generalizing k₁ with
  | nil => exact Option.some_inj.mp step ▸ h
  | cons p dead ih =>
      obtain ⟨k₂, hone, hrest⟩ := Option.bind_eq_some_iff.mp step
      obtain ⟨hal, hfin⟩ := hdead p List.mem_cons_self
      obtain ⟨ha, hcur, hp0⟩ := hlive p List.mem_cons_self
      obtain ⟨hnot, hnodup'⟩ := List.nodup_cons.mp hnodup
      have hk₂ : k₂ = bury k₁ p := by
        have hall : SoKernel.destroyAll [p] k₁ = _ :=
          destroyAll_eq (by simpa using hclosed p List.mem_cons_self) (by simpa using hp0)
        rw [SoKernel.destroyAll, hone, Option.bind_eq_bind, Option.bind_some, SoKernel.destroyAll,
          Option.some_inj] at hall
        exact hall
      obtain ⟨pa, fc, ns, ps, hshape⟩ := bury_shape k₁ p
      rw [hshape] at hk₂
      refine ih hnodup' (fun q hq => hdead q (List.mem_cons_of_mem p hq)) (fun q hq => ?_) (fun q hq i hi => ?_)
        (hI.destroy hal hfin h ha hcur hp0 hone) hrest
      · obtain ⟨haq, hrestq⟩ := hlive q (List.mem_cons_of_mem p hq)
        rw [hk₂]
        dsimp only
        rw [Function.update_of_ne fun hqp : q = p => hnot (hqp ▸ hq)]
        exact ⟨haq, hrestq⟩
      · rw [hk₂]
        exact hclosed q (List.mem_cons_of_mem p hq) i hi

end Parts

section Switch

/-- A switch is an undisturbed step, the destruction of the collected processes, and a change of the
links. -/
theorem KeptPast.switchBy (hI : KeptPast k I) (T : Tables k) (hkbd : ¬PipeSem k k.kbdSemId)
    (hd : Dispatchable k) (h : I k) (hp : SwitchPromise k ch) (hsw : switchBy k ch = some k') : I k' := by
  obtain ⟨hc, hpromise⟩ := hp
  rw [SoKernel.switchBy, Option.bind_eq_bind] at hsw
  obtain ⟨x, hsave, hrest⟩ := Option.bind_eq_some_iff.mp hsw
  obtain ⟨k₂, hall, hlast⟩ := Option.bind_eq_some_iff.mp hrest
  obtain ⟨hnext, -, hnodup, hdead⟩ := hpromise x hsave
  obtain ⟨L, s, -, rfl⟩ := saveContext_shape (k := { k with needResched := false }) hc hsave
  obtain ⟨s₂, hshape⟩ : ∃ s₂, dispatch
      (((savedBy { k with needResched := false } L).resched s).relink ch.popped) ch.next =
        (switchedBy k L ch.next).resched s₂ := dispatch_shape _ ch.next
  rw [hshape] at hall
  have hfinished : ∀ p ∈ ch.dead, k.allocated p = true ∧ k.state p = .finished ∧ p ≠ ch.next := by
    intro p hm
    obtain ⟨ha, hs, hne⟩ := hdead p hm
    exact ⟨ha, of_savedState hs, hne⟩
  have hund : Undisturbed k ((switchedBy k L ch.next).resched s₂) :=
    (Undisturbed.switched T hkbd hnext).resched s₂
  have hclosed : ∀ p ∈ ch.dead, ∀ i < maxFds, ((switchedBy k L ch.next).resched s₂).fdType p i = .terminal :=
    fun p hm => hd.closed p (hfinished p hm).1 (hfinished p hm).2.1
  have hkept : I k₂ := by
    refine hI.destroyAll hnodup (fun p hm => ⟨(hfinished p hm).1, (hfinished p hm).2.1⟩) (fun p hm => ?_)
      hclosed (hI.quiet h hund) hall
    obtain ⟨ha, -, hne⟩ := hfinished p hm
    exact ⟨ha, hne, hd.valid p ha⟩
  rw [destroyAll_eq hclosed fun p hm => hd.valid p (hfinished p hm).1, Option.some_inj] at hall
  obtain ⟨pa, fc, ns, ps, hburied⟩ := buryAll_shape ((switchedBy k L ch.next).resched s₂) ch.dead
  rw [hburied] at hall
  subst hall
  obtain rfl := Option.some_inj.mp hlast
  refine hI.quiet hkept ⟨hund.tables, .inr ?_, rfl, fun _ _ _ _ => ⟨rfl, rfl⟩,
    fun _ => ⟨rfl, rfl, rfl, rfl, rfl⟩, rfl, fun _ => ⟨rfl, rfl, rfl⟩⟩
  change setAll ch.dead false k.allocated ch.next = true
  rw [setAll_of_not_mem _ _ fun hm => (hfinished _ hm).2.2 rfl]
  exact hnext

variable (W : WellFormed k Q) (hint : Interrupted k) (T : Tables k) (hkbd : ¬PipeSem k k.kbdSemId)

include W hint T hkbd

/-- What undisturbed steps and the destruction of finished processes keep, `schedule` keeps. -/
theorem KeptPast.schedule (hI : KeptPast k I) (h : I k) (step : schedule k frame = some o) :
    I o.kernel := by
  have hkeep : ∀ s, I (k.resched s) := fun s => hI.quiet h (.of_resched T W.current s)
  rcases schedule_opens W.dispatchable W.addressed (W.switchSafe hint) step with
    ⟨-, s, heq⟩ | ⟨s, ch, hpromise, hsw, -⟩
  · exact heq ▸ hkeep s
  · have hd := W.dispatchable
    exact KeptPast.switchBy (k := k.resched s) ⟨hI.quiet, hI.destroy⟩ T hkbd
      ⟨hd.valid, hd.current, hd.idle, hd.closed⟩ (hkeep s) hpromise hsw

theorem KeptPast.timerTick (hI : KeptPast k I) (h : I k) (step : timerTick k frame = some o) :
    I o.kernel := by
  refine KeptPast.schedule (W.withClock (k.ticks + 1) k.lastSwitchTick) hint T hkbd ⟨hI.quiet, hI.destroy⟩
    ?_ step
  exact hI.quiet h (.of_resched T W.current { k with ticks := k.ticks + 1 }.ownSched)

theorem KeptPast.yield {r : ℕ} (hI : KeptPast k I) (h : I k)
    (step : schedulerYieldCurrent k frame r = some o) : I o.kernel := by
  rw [schedulerYieldCurrent] at step
  split at step
  · exact Option.some_inj.mp step ▸ h
  · obtain ⟨since, hstep⟩ : ∃ since, SoKernel.timerTick { k with lastSwitchTick := since } frame = some o :=
      ⟨_, step⟩
    refine KeptPast.timerTick (W.withClock k.ticks since) hint T hkbd ⟨hI.quiet, hI.destroy⟩ ?_ hstep
    exact hI.quiet h (.of_resched T W.current { k with lastSwitchTick := since }.ownSched)

end Switch

section Runs

variable {start : Kernel}

theorem PipeReach.keptPast (k : Kernel) : KeptPast k (PipeReach start) :=
  ⟨fun h step => .undisturbed h step, fun _ _ h ha hne _ step => .call (c := .destroy _) h ⟨ha, hne⟩ step⟩

variable (W : WellFormed k Q) (hint : Interrupted k) (T : Tables k) (hkbd : ¬PipeSem k k.kbdSemId)

include W hint T hkbd

/-- The real scheduler leads from one state with pipes to another. -/
theorem PipeReach.timerTick (before : PipeReach start k) (step : timerTick k frame = some o) :
    PipeReach start o.kernel :=
  KeptPast.timerTick W hint T hkbd (keptPast k) before step

theorem PipeReach.yield {r : ℕ} (before : PipeReach start k)
    (step : schedulerYieldCurrent k frame r = some o) : PipeReach start o.kernel :=
  KeptPast.yield W hint T hkbd (keptPast k) before step

end Runs

namespace Userland

variable {c : PipelineCall} {k₀ : Kernel} {t : List IpcEvent} {s : PipelineState}

/-- The processes from before the call have not finished. -/
def OldStay (k₀ k : Kernel) : Prop :=
  ∀ p, k.allocated p = true → k.state p = .finished → k₀.allocated p = false

theorem OldStay.keptPast {place : PipelineAt} (hold : OldStay k₀ k) :
    KeptPast k fun k' => ∃ left, PipelineRun c k₀ t ⟨k', place, left⟩ := by
  refine ⟨?_, ?_⟩
  · rintro k₁ k₂ ⟨left, run⟩ step
    exact ⟨left, run.undisturbed step⟩
  · rintro k₁ k₂ p hp hfin ⟨left, run⟩ ha hne hp0 step
    exact ⟨_, run.destroy (hold p hp hfin) ha hne hp0 step⟩

variable (W : WellFormed s.kernel Q) (hint : Interrupted s.kernel) (T : Tables s.kernel)
  (hkbd : ¬PipeSem s.kernel s.kernel.kbdSemId) (hold : OldStay k₀ s.kernel)

include W hint T hkbd hold

/-- What the real scheduler does is part of the run of a pipeline. -/
theorem PipelineRun.timerTick (run : PipelineRun c k₀ t s)
    (step : timerTick s.kernel frame = some o) : ∃ left, PipelineRun c k₀ t ⟨o.kernel, s.place, left⟩ :=
  KeptPast.timerTick W hint T hkbd hold.keptPast ⟨s.left, run⟩ step

theorem PipelineRun.yield {r : ℕ} (run : PipelineRun c k₀ t s)
    (step : schedulerYieldCurrent s.kernel frame r = some o) :
    ∃ left, PipelineRun c k₀ t ⟨o.kernel, s.place, left⟩ :=
  KeptPast.yield W hint T hkbd hold.keptPast ⟨s.left, run⟩ step

end Userland

end SoKernel
