import SoKernel.Proc.AgingCounts
import SoKernel.Proc.WakeWaiters

/-!
# When the idle process runs

`schedule` dispatches the idle process only if the ready queues are empty. But it also goes on with
the idle process as with any other: a ready process of no higher priority waits until the quantum
of the idle process has passed.
-/

namespace SoKernel

open Function (update)

variable {k k' : Kernel} {c p : ℕ} {pr i : Priority} {Q : QueueId → List ℕ} {L : List ℕ}

section Model

def Ready (k : Kernel) (p : ℕ) : Prop := k.allocated p = true ∧ k.state p = .ready

/-- Aging leaves the process with a priority above `i`: it has one, or it has the priority `i` and
is due. -/
def Outranks (k : Kernel) (i : Priority) (p : ℕ) : Prop :=
  i < k.priority p ∨ k.priority p = i ∧ Due k p

/-- The idle process keeps the processor although others are ready: nothing asks for a switch, its
quantum has not passed, and no ready process outranks it. -/
def IdleLingers (k : Kernel) : Prop :=
  k.current = k.idleP ∧ k.needResched = false ∧ ticksSinceSwitch k < quantumTicks ∧
    (∃ p, Ready k p) ∧ ∀ p, Ready k p → ¬Outranks k (k.priority k.idleP) p

/-- All ready queues are empty. -/
def NothingReady (k : Kernel) : Prop := ∀ pr, (k.queues (.ready pr)).head = 0

end Model

section Aging

theorem clampPriority_boost_le (hlt : pr < i) : clampPriority (pr + agingBoost) ≤ i := by
  revert hlt pr i
  decide

theorem not_due_of_zero (hwait : k.waitTicks p = 0) : ¬Due k p := by
  rw [Due, hwait]
  exact fun hdue => absurd hdue.1 (by decide)

/-- A walk over a lower queue lifts nobody above `i` or to `i` with time waited. -/
theorem outranks_below (hplaced : ∀ a ∈ L, k.priority a = pr) (hlt : pr < i)
    (hwaited : Waited k.priority k'.priority k.waitTicks k'.waitTicks L L) (p : ℕ) :
    Outranks k' i p ↔ Outranks k i p := by
  by_cases hp : p ∈ L
  · have hprio := hplaced p hp
    have hbefore : ¬Outranks k i p := by
      rw [Outranks, hprio]
      exact not_or.mpr ⟨hlt.not_gt, fun hsame => hlt.ne hsame.1⟩
    have hafter : ¬Outranks k' i p := by
      rcases hwaited.raised p with hsame | ⟨hboost, hzero⟩
      · rw [Outranks, hsame, hprio]
        exact not_or.mpr ⟨hlt.not_gt, fun hsame => hlt.ne hsame.1⟩
      · have hle : k'.priority p ≤ i := by
          rw [hboost, hprio]
          exact clampPriority_boost_le hlt
        exact not_or.mpr ⟨hle.not_gt, fun hdue => not_due_of_zero hzero hdue.2⟩
    exact iff_of_false hafter hbefore
  · obtain ⟨hprio, hwait⟩ := hwaited.other p hp
    rw [Outranks, Outranks, Due, Due, hprio, hwait]

/-- A walk over a higher queue changes no priority up to `i`. -/
theorem above_iff (hplaced : ∀ a ∈ L, k.priority a = pr) (hlt : i < pr)
    (hle : k.priority p ≤ k'.priority p)
    (hwaited : Waited k.priority k'.priority k.waitTicks k'.waitTicks L L) :
    i < k'.priority p ↔ i < k.priority p := by
  by_cases hp : p ∈ L
  · have habove : i < k.priority p := by rwa [hplaced p hp]
    exact iff_of_true (habove.trans_le hle) habove
  · rw [(hwaited.other p hp).1]

theorem Placed.ageQueues_above (prs : List Priority) (h : Placed k c Q) (habove : ∀ pr ∈ prs, i < pr)
    (heq : SoKernel.ageQueues k prs = some k') : i < k'.priority p ↔ i < k.priority p := by
  induction prs generalizing k Q with
  | nil =>
      cases heq
      exact Iff.rfl
  | cons pr prs ih =>
      obtain ⟨hpr, hprs⟩ := List.forall_mem_cons.mp habove
      obtain ⟨k₁, Q₁, hloop, hplaced, -, -, hraised, hwaited⟩ := h.agePass pr
      rw [SoKernel.ageQueues, hloop, Option.bind_eq_bind, Option.bind_some] at heq
      have hrest := ih hplaced hprs heq
      exact hrest.trans (above_iff (fun a ha => h.priority_eq ha) hpr (hraised p) hwaited)

/-- The walk over the queue of priority `i` lifts somebody above it exactly if somebody is due. -/
theorem Placed.agePass_outranks (h : Placed k c Q)
    (hloop : SoKernel.agingLoop i (addressCount * addressCount) (k.queues (.ready i)).head k = some k') :
    (∃ p, Ready k p ∧ i < k'.priority p) ↔ ∃ p, Ready k p ∧ Outranks k i p := by
  obtain ⟨k₁, Q₁, hloop', -, -, -, hraised, hwaited⟩ := h.agePass i
  cases hloop.symm.trans hloop'
  constructor
  · rintro ⟨p, hready, hlt⟩
    by_contra hnone
    have hquiet : ∀ a ∈ Q (.ready i), ¬Due k a := by
      intro a ha hdue
      obtain ⟨hal, hs, hprio⟩ := (h.members.ready i a (by simp)).mp ha
      exact hnone ⟨a, ⟨hal, hs⟩, .inr ⟨hprio, hdue⟩⟩
    have hq := h.rings.list (.ready i)
    have hlen := hq.ring.length_lt (h.rings.bounded _) addressCount_pos
    have hsame := hq.agingLoop_quiet (addressCount * addressCount) (A := []) rfl hq.head_eq
      (by nlinarith) hquiet
    cases hloop.symm.trans hsame
    exact hnone ⟨p, hready, .inl hlt⟩
  · rintro ⟨p, hready, habove | ⟨hprio, hdue⟩⟩
    · exact ⟨p, hready, habove.trans_le (hraised p)⟩
    · have hmem := (h.members.ready i p (by simp)).mpr ⟨hready.1, hready.2, hprio⟩
      have hup := hwaited.promoted p hmem hdue.1 hdue.2
      exact ⟨p, hready, hprio ▸ hup⟩

/-- Some ready process has a priority above `i` after the walks exactly if one outranks `i` before
them. -/
theorem Placed.ageQueues_outranks (prs : List Priority) (h : Placed k c Q)
    (hsorted : prs.Pairwise (· < ·)) (hi : i ∈ prs) (heq : SoKernel.ageQueues k prs = some k') :
    (∃ p, Ready k p ∧ i < k'.priority p) ↔ ∃ p, Ready k p ∧ Outranks k i p := by
  induction prs generalizing k Q with
  | nil => exact absurd hi List.not_mem_nil
  | cons pr prs ih =>
      obtain ⟨hlt, hsorted'⟩ := List.pairwise_cons.mp hsorted
      obtain ⟨k₁, Q₁, hloop, hplaced, halloc, hstate, -, hwaited⟩ := h.agePass pr
      rw [SoKernel.ageQueues, hloop, Option.bind_eq_bind, Option.bind_some] at heq
      have hready : ∀ p, Ready k₁ p ↔ Ready k p := fun p => by rw [Ready, Ready, halloc, hstate]
      rcases List.mem_cons.mp hi with rfl | hi'
      · have htail : ∀ p, i < k'.priority p ↔ i < k₁.priority p :=
          fun p => hplaced.ageQueues_above prs hlt heq
        simp only [htail]
        exact h.agePass_outranks hloop
      · have hrest := ih hplaced hsorted' hi' heq
        have hbelow := outranks_below (fun a ha => h.priority_eq ha) (hlt i hi') hwaited
        simp only [hready, hbelow] at hrest
        exact hrest

end Aging

section Switching

/-- The interrupted process can be saved in any state. -/
theorem WellFormed.saved (W : WellFormed k Q)
    (hL : k.state k.current = .finished → BlockedOn k k.current L) (frame : Frame) :
    ∃ k₁ Q₁, saveContext { k with needResched := false } k.current frame = some k₁ ∧ Saved k₁ Q₁ := by
  have W₀ : WellFormed { k with needResched := false } Q :=
    ⟨⟨W.placed.rings, W.placed.members, W.placed.valid⟩, W.held, W.current, W.idle, W.idle_running,
      W.idle_priority, W.base_le, W.closed⟩
  have hfiled (hfiles : Files { k with needResched := false } frame Q) :
      ∃ k₁ Q₁, saveContext { k with needResched := false } k.current frame = some k₁ ∧
        Saved k₁ Q₁ := by
    obtain ⟨l, fg, kb, sems, hsave, hrings, hmem⟩ := hfiles
    have h₁ : Placed ((filedKernel { k with needResched := false } frame fg kb sems).relink l) 0
        (filedQueues k Q) := ⟨hrings, hmem, W.placed.valid⟩
    refine ⟨_, _, hsave, Rings.besides hrings, Function.update_self .., fun a ha => ?_, fun pr => ?_⟩
    · rw [Function.update_of_ne (by simp)] at ha
      obtain ⟨hal, hs⟩ := h₁.of_mem ha
      exact W.closed a hal (filedState_finished hs)
    · rw [Function.update_of_ne (by simp)]
      exact h₁.free_of_running (filedState_idle W.idle_running) _
  cases hs : k.state k.current with
  | running => exact hfiled (W₀.files_running hs frame)
  | blocked => exact hfiled (W₀.files_blocked hs frame)
  | finished =>
      obtain ⟨k₁, Q₁, hsave, -, S⟩ := W.save_finished hs (hL hs) frame
      exact ⟨k₁, Q₁, hsave, S⟩
  | _ =>
      refine ⟨{ k with
          needResched := false
          rsp := update k.rsp k.current frame.rsp
          rbp := update k.rbp k.current (frame.word 10) }, _, ?_, Rings.besides W.placed.rings,
        Function.update_self .., fun a ha => ?_, fun pr => ?_⟩
      · simp only [saveContext, if_neg W.current_ne, hs]
      · rw [Function.update_of_ne (by simp)] at ha
        obtain ⟨hal, hfin⟩ := W.placed.of_mem ha
        exact W.closed a hal hfin
      · rw [Function.update_of_ne (by simp)]
        exact W.placed.free_of_running W.idle_running _

/-- A switch that neither the quantum nor a request asks for is due to a ready process with a higher
priority than the current one. -/
theorem Placed.higher_ready (h : Placed k c Q) (hswitch : mustSwitch k = true)
    (hrun : k.state k.current = .running) (hresched : k.needResched = false)
    (hquantum : ticksSinceSwitch k < quantumTicks) :
    ∃ p, Ready k p ∧ k.priority k.current < k.priority p := by
  have hold : ¬quantumTicks ≤ (ticksElapsed k + 2 ^ 64 - k.lastSwitchTick) % 2 ^ 64 := not_le.mpr hquantum
  simp only [mustSwitch, hrun, hresched, ne_eq, not_true_eq_false, decide_false, Bool.false_or,
    Bool.or_false, hold, Option.any_eq_true, decide_eq_true_eq] at hswitch
  obtain ⟨x, hfind, hlt⟩ := hswitch
  obtain ⟨pr, -, rfl⟩ := List.mem_map.mp (List.mem_of_find?_eq_some hfind)
  have hne : (k.queues (.ready pr)).head ≠ 0 := by simpa using List.find?_some hfind
  have hhead := (h.rings.list (.ready pr)).head_eq
  cases hL : Q (.ready pr) with
  | nil =>
      rw [hL] at hhead
      exact absurd hhead hne
  | cons x L =>
      have hmem : (k.queues (.ready pr)).head ∈ Q (.ready pr) := by simp [hhead, hL]
      obtain ⟨hal, hs⟩ := h.of_mem hmem
      exact ⟨_, ⟨hal, hs⟩, hlt⟩

theorem Placed.nothingReady_iff (h : Placed k c Q) : NothingReady k ↔ ∀ p, ¬Ready k p := by
  refine ⟨fun hnone p hp => ?_, fun hnone pr => ?_⟩
  · exact h.head_ne_zero ((h.members.ready (k.priority p) p (by simp)).mpr ⟨hp.1, hp.2, rfl⟩) (hnone _)
  · rw [(h.rings.list (.ready pr)).head_eq]
    cases hL : Q (.ready pr) with
    | nil => rfl
    | cons x L => exact absurd (h.of_mem (q := .ready pr) (by simp [hL])) (hnone x)

end Switching

/-- When `schedule` returns with the idle process as the current one, all ready queues are empty,
unless the idle process lingers. -/
theorem idle_without_work_iff (W : WellFormed k Q)
    (hL : k.state k.current = .finished → BlockedOn k k.current L) (frame : Frame) :
    ∃ o, schedule k frame = some o ∧
      ((o.kernel.current = o.kernel.idleP → NothingReady o.kernel) ↔ ¬IdleLingers k) := by
  obtain ⟨l, prio, wt, Q₁, hage, W₁, haged⟩ := W.applyAging
  rw [schedule, if_neg W.current_ne, hage, Option.bind_eq_bind, Option.bind_some]
  have hidle : prio k.idleP = k.priority k.idleP :=
    haged.priority_eq _ (by simp [W.idle_running])
  have houtranks := W.placed.ageQueues_outranks [0, 1, 2] (i := k.priority k.idleP) (by decide)
    (by generalize k.priority k.idleP = pr; revert pr; decide) hage
  by_cases hswitch : mustSwitch ({ k with
      priority := prio
      waitTicks := wt }.relink l) = true
  · rw [if_pos hswitch]
    obtain ⟨k₂, Q₂, hsave, S⟩ := W₁.saved (fun hs => ⟨(hL hs).chain, (hL hs).blocked⟩) frame
    obtain ⟨o, hcall, -, hnothing⟩ := S.switch hsave
    refine ⟨o, hcall, iff_of_true hnothing ?_⟩
    rintro ⟨hcur, hresched, hquantum, -, hnone⟩
    have hrun : k.state k.current = .running := hcur ▸ W.idle_running
    obtain ⟨p, hp, hlt⟩ := W₁.placed.higher_ready hswitch hrun hresched hquantum
    have hlt' : k.priority k.idleP < prio p := by
      rw [← hidle, ← hcur]
      exact hlt
    obtain ⟨p', hp', hout⟩ := houtranks.mp ⟨p, hp, hlt'⟩
    exact hnone p' hp' hout
  · rw [if_neg hswitch]
    obtain ⟨hrun, hresched, hquantum, hhighest⟩ := W₁.placed.goes_on (Bool.not_eq_true _ ▸ hswitch)
    refine ⟨_, rfl, ?_⟩
    show (k.current = k.idleP → NothingReady ({ k with
        priority := prio
        waitTicks := wt }.relink l)) ↔ _
    rw [W₁.placed.nothingReady_iff]
    constructor
    · rintro hnothing ⟨hcur, -, -, ⟨p, hp⟩, -⟩
      exact hnothing hcur p hp
    · intro hleaves hcur p hp
      refine hleaves ⟨hcur, hresched, hquantum, ⟨p, hp⟩, fun p' hp' hout => ?_⟩
      obtain ⟨p'', hp'', hlt⟩ := houtranks.mpr ⟨p', hp', hout⟩
      have hle := hhighest p'' hp''.1 hp''.2
      have hlt' : prio k.current < prio p'' := by
        rw [hcur, hidle]
        exact hlt
      exact absurd hlt' (not_lt.mpr hle)

section Runs

/-- After the start the first tick leaves the idle process for the shell. -/
theorem idle_without_work_iff_boot :
    ∃ k Q o, bootSystem 16 8192 48 12288 1 = some k ∧ WellFormed k Q ∧ k.current = k.idleP ∧
      schedule k ⟨4096, fun _ => 0⟩ = some o ∧
      (o.kernel.current = o.kernel.idleP → NothingReady o.kernel) := by
  have hlt : 48 < addressCount := by
    unfold addressCount
    decide
  have hcalc : (bootSystem 16 8192 48 12288 1).map (fun k =>
      decide (k.current = k.idleP ∧ k.state k.current = .running ∧ k.allocated 48 = true ∧
        k.state 48 = .ready ∧ k.priority k.idleP < k.priority 48)) = some true := by
    decide +kernel
  obtain ⟨k, hboot, hvalues⟩ := Option.map_eq_some_iff.mp hcalc
  obtain ⟨hcur, hrun, hal, hready, hlt'⟩ := of_decide_eq_true hvalues
  obtain ⟨Q, W⟩ := bootSystem_wellFormed ⟨by decide, by decide, by decide, by decide, by decide,
    by decide⟩ (by omega) hlt hboot
  obtain ⟨o, hcall, hiff⟩ := idle_without_work_iff (L := []) W (by simp [hrun]) ⟨4096, fun _ => 0⟩
  refine ⟨k, Q, o, hboot, W, hcur, hcall, hiff.mpr fun hlingers => ?_⟩
  exact hlingers.2.2.2.2 48 ⟨hal, hready⟩ (.inl hlt')

/-- The idle process and a ready process of the lowest priority. -/
def lowReady : Option Kernel := do
  let k ← initScheduler bootKernel 16 8192
  let (_, k) ← schedulerSpawnProcess k ⟨1, 0, 0, false, 0, 0, 48, 12288⟩
  some k

/-- The idle process goes on although a process of a lower priority is ready. -/
theorem idle_with_work :
    ∃ k Q o, lowReady = some k ∧ WellFormed k Q ∧ schedule k ⟨4096, fun _ => 0⟩ = some o ∧
      o.kernel.current = o.kernel.idleP ∧ ¬NothingReady o.kernel := by
  have hlt : 48 < addressCount := by
    unfold addressCount
    decide
  have hcalc : lowReady.bind (fun k => (schedule k ⟨4096, fun _ => 0⟩).map fun o =>
      decide (o.kernel.current = o.kernel.idleP ∧ (o.kernel.queues (.ready 0)).head = 48)) =
      some true := by
    decide +kernel
  obtain ⟨k, hlow, hsched⟩ := Option.bind_eq_some_iff.mp hcalc
  obtain ⟨o, hcall, hvalues⟩ := Option.map_eq_some_iff.mp hsched
  obtain ⟨hcur, hhead⟩ := of_decide_eq_true hvalues
  have hdef := hlow
  rw [lowReady, Option.bind_eq_bind] at hdef
  obtain ⟨k₀, hinit, hrest⟩ := Option.bind_eq_some_iff.mp hdef
  obtain ⟨⟨p, k₁⟩, hspawn, hlast⟩ := Option.bind_eq_some_iff.mp hrest
  cases hlast
  have h₀ := initScheduler_agree (by omega) hinit
  obtain ⟨W₀, hcur₀, hidle₀⟩ := initScheduler_wellFormed (by decide) (by decide) (by omega) hinit
  have hfresh : k₀.allocated 48 = false := by
    by_contra halloc
    rcases W₀.held 48 (by simpa using halloc) with hc | hi | ⟨q, hq⟩
    · rw [hcur₀] at hc
      cases hc
    · rw [hidle₀] at hi
      cases hi
    · cases hq
  obtain ⟨p', k', Q, hspawn', hagree, -⟩ := schedulerSpawnProcess_spec h₀
    (r := ⟨1, 0, 0, false, 0, 0, 48, 12288⟩) ⟨fun _ => ⟨hlt, hfresh⟩, fun hz => absurd rfl hz⟩
  cases hspawn.symm.trans hspawn'
  obtain ⟨pr, fdp, l, rfl⟩ := schedulerSpawnProcess_created h₀.terminals h₀.noPipes one_ne_zero
    (by decide) (by decide) (by rw [hidle₀]; decide) hspawn
  refine ⟨_, Q, o, hlow, W₀.spawned rfl hfresh hagree, hcall, hcur, fun hnothing => ?_⟩
  have hzero := hnothing 0
  rw [hhead] at hzero
  cases hzero

end Runs

end SoKernel
