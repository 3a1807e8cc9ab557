import SoKernel.Proc.Aging
import SoKernel.Proc.QueueInvariant

/-!
# How often a tick is counted

`apply_aging` counts each waiting process once as long as it promotes nobody. A process that it
promotes lands in a queue that it visits next, so that its waiting time does not stay at zero.
-/

namespace SoKernel

open Function (update)

variable {k k' : Kernel} {c p : ℕ} {pr : Priority} {Q Q' : QueueId → List ℕ}
variable {L A B : List ℕ}

section Model

/-- With one more tick the process has waited long enough for the next priority. -/
def Due (k : Kernel) (p : ℕ) : Prop :=
  agingThreshold ≤ k.waitTicks p + 1 ∧ (k.priority p : ℕ) < processPriorityMax

instance (k : Kernel) (p : ℕ) : Decidable (Due k p) := inferInstanceAs (Decidable (_ ∧ _))

/-- Aging promotes the ready processes that are due, each by one level and with no time waited,
and counts one tick for each of the others. -/
structure CountsOnce (k k' : Kernel) (Q : QueueId → List ℕ) : Prop where
  waits : ∀ pr, ∀ p ∈ Q (.ready pr), ¬Due k p →
    k'.priority p = k.priority p ∧ k'.waitTicks p = k.waitTicks p + 1
  promoted : ∀ pr, ∀ p ∈ Q (.ready pr), Due k p →
    (k'.priority p : ℕ) = k.priority p + 1 ∧ k'.waitTicks p = 0

/-- One tick more for the processes of a list. -/
def countTicks (wait : ℕ → ℕ) (L : List ℕ) (p : ℕ) : ℕ := if p ∈ L then wait p + 1 else wait p

end Model

section Quiet

theorem not_due_congr (hquiet : ¬Due k p) (hprio : k'.priority p = k.priority p)
    (hwait : k'.waitTicks p = k.waitTicks p) : ¬Due k' p := by
  rwa [Due, hprio, hwait]

theorem countTicks_nil (wait : ℕ → ℕ) : countTicks wait [] = wait :=
  funext fun _ => if_neg List.not_mem_nil

theorem countTicks_cons {wait : ℕ → ℕ} {L : List ℕ} (hp : p ∉ L) :
    countTicks (update wait p (wait p + 1)) L = countTicks wait (p :: L) := by
  funext a
  by_cases hap : a = p
  · subst hap
    simp [countTicks, hp]
  · simp [countTicks, hap]

theorem countTicks_append {wait : ℕ → ℕ} {L M : List ℕ} (hdisj : List.Disjoint L M) :
    countTicks (countTicks wait L) M = countTicks wait (L ++ M) := by
  funext a
  by_cases hL : a ∈ L
  · have hM : a ∉ M := fun hM => hdisj hL hM
    simp [countTicks, hL, hM]
  · simp [countTicks, hL]

/-- The rest of a walk on which nobody is due visits each process once. -/
theorem QueueList.agingLoop_quiet (n : ℕ)
    (h : QueueList k.queueNext k.queuePrev (k.queues (.ready pr)) L) (hL : L = A ++ B)
    (hp : p = B.head?.getD 0) (hn : B.length < n) (hquiet : ∀ a ∈ B, ¬Due k a) :
    SoKernel.agingLoop pr n p k = some { k with waitTicks := countTicks k.waitTicks B } := by
  induction n generalizing k A B p with
  | zero => exact absurd hn (Nat.not_lt_zero _)
  | succ n ih =>
      cases B with
      | nil =>
          subst hp
          rw [countTicks_nil]
          rfl
      | cons x B =>
          obtain rfl : p = x := hp
          have hring := h.ring
          have hnodup := h.nodup
          rw [hL] at hring hnodup
          have hfresh : p ∉ B := (List.nodup_cons.mp (List.nodup_append.mp hnodup).2.1).1
          have hp0 : p ≠ 0 := h.ne_zero (by simp [hL])
          have hnode := hring.nx_node
          rw [Function.update_of_ne hp0] at hnode
          have hnot : ¬(agingThreshold ≤ update k.waitTicks p (k.waitTicks p + 1) p ∧
              (k.priority p : ℕ) < processPriorityMax) := by
            rw [Function.update_self]
            exact hquiet p (List.mem_cons_self ..)
          rw [SoKernel.agingLoop, if_neg hp0]
          dsimp only
          rw [if_neg hnot]
          have hrest := ih (k := { k with waitTicks := update k.waitTicks p (k.waitTicks p + 1) }) h
            (A := A ++ [p]) (B := B) (by simpa using hL) hnode (by simpa using hn) fun a ha => ?_
          · rw [hrest, countTicks_cons hfresh]
          · have hap : a ≠ p := fun he => hfresh (he ▸ ha)
            exact not_due_congr (hquiet a (List.mem_cons_of_mem p ha)) rfl
              (Function.update_of_ne hap _ _)

/-- The processes of some of the ready queues. -/
def readyIn (Q : QueueId → List ℕ) (prs : List Priority) : List ℕ :=
  prs.flatMap fun pr => Q (.ready pr)

theorem mem_readyIn {prs : List Priority} :
    p ∈ readyIn Q prs ↔ ∃ pr ∈ prs, p ∈ Q (.ready pr) := List.mem_flatMap

/-- A process is in the ready queue of its priority only. -/
theorem Placed.priority_eq (h : Placed k c Q) (hp : p ∈ Q (.ready pr)) : k.priority p = pr :=
  ((h.members.ready pr p (by simp)).mp hp).2.2

theorem Placed.ageQueues_quiet (prs : List Priority) (h : Placed k c Q) (hnodup : prs.Nodup)
    (hquiet : ∀ pr ∈ prs, ∀ a ∈ Q (.ready pr), ¬Due k a) :
    SoKernel.ageQueues k prs =
      some { k with waitTicks := countTicks k.waitTicks (readyIn Q prs) } := by
  induction prs generalizing k with
  | nil => rfl
  | cons pr prs ih =>
      obtain ⟨hpr, hprs⟩ := List.nodup_cons.mp hnodup
      have hq := h.rings.list (.ready pr)
      have hlen := hq.ring.length_lt (h.rings.bounded _) addressCount_pos
      have hfuel : (Q (.ready pr)).length < addressCount * addressCount := by nlinarith
      have hloop := hq.agingLoop_quiet (addressCount * addressCount) (A := []) rfl hq.head_eq hfuel
        (hquiet pr (List.mem_cons_self ..))
      -- the processes of the other queues wait as before
      have hother : ∀ pr' ∈ prs, ∀ a ∈ Q (.ready pr'), a ∉ Q (.ready pr) := by
        intro pr' hpr' a ha ha'
        rw [← h.priority_eq ha', h.priority_eq ha] at hpr
        exact hpr hpr'
      have hrest := ih (h.withWaitTicks (countTicks k.waitTicks (Q (.ready pr)))) hprs ?_
      · rw [SoKernel.ageQueues, hloop, Option.bind_eq_bind, Option.bind_some, hrest]
        dsimp only
        rw [countTicks_append]
        · rfl
        · intro a ha ha'
          obtain ⟨pr', hpr', hmem⟩ := mem_readyIn.mp ha'
          exact hother pr' hpr' a hmem ha
      · intro pr' hpr' a ha
        exact not_due_congr (hquiet pr' (List.mem_cons_of_mem pr hpr') a ha) rfl
          (if_neg (hother pr' hpr' a ha))

/-- When nobody is due, one tick is counted for each ready process. -/
theorem Placed.applyAging_quiet (h : Placed k c Q)
    (hquiet : ∀ pr, ∀ a ∈ Q (.ready pr), ¬Due k a) :
    ∃ k', applyAging k = some k' ∧ CountsOnce k k' Q := by
  refine ⟨_, h.ageQueues_quiet [0, 1, 2] (by decide) fun pr _ => hquiet pr, fun pr p hp _ => ⟨rfl, ?_⟩,
    fun pr p hp hdue => absurd hdue (hquiet pr p hp)⟩
  have hall : ∀ pr : Priority, pr ∈ [0, 1, 2] := by decide
  dsimp only
  rw [countTicks, if_pos (mem_readyIn.mpr ⟨pr, hall pr, hp⟩)]

end Quiet

section Visits

/-- The walk over one queue, which returns. -/
theorem Placed.agePass (h : Placed k c Q) (pr : Priority) :
    ∃ k₁ Q₁, SoKernel.agingLoop pr (addressCount * addressCount) (k.queues (.ready pr)).head k = some k₁ ∧
      Placed k₁ c Q₁ ∧ k₁.allocated = k.allocated ∧ k₁.state = k.state ∧
      (∀ p, k.priority p ≤ k₁.priority p) ∧
      Waited k.priority k₁.priority k.waitTicks k₁.waitTicks (Q (.ready pr)) (Q (.ready pr)) := by
  have hq := h.rings.list (.ready pr)
  have hlen := hq.ring.length_lt (h.rings.bounded _) addressCount_pos
  obtain ⟨l, prio, wt, Q', heq, hplaced, haged, hwaited⟩ := h.agingLoop (addressCount * addressCount)
    (A := []) rfl hq.head_eq (by nlinarith)
  exact ⟨_, Q', heq, hplaced, rfl, rfl, haged.priority_le, hwaited⟩

/-- The walks over some queues leave the processes with other priorities alone. -/
theorem Placed.ageQueues_other (prs : List Priority) (h : Placed k c Q)
    (heq : SoKernel.ageQueues k prs = some k') (hp : k.priority p ∉ prs) :
    k'.waitTicks p = k.waitTicks p := by
  induction prs generalizing k Q with
  | nil =>
      cases heq
      rfl
  | cons pr prs ih =>
      obtain ⟨hpr, hprs⟩ := not_or.mp (mt List.mem_cons.mpr hp)
      obtain ⟨k₁, Q₁, hloop, hplaced, -, -, -, hwaited⟩ := h.agePass pr
      rw [SoKernel.ageQueues, hloop, Option.bind_eq_bind, Option.bind_some] at heq
      obtain ⟨hprio, hwait⟩ := hwaited.other p fun hm => hpr (h.priority_eq hm)
      have hrest := ih hplaced heq (by rwa [hprio])
      exact hrest.trans hwait

/-- A ready process whose queue is still to be visited is counted, and when it is promoted its
new queue is still to be visited too. -/
theorem Placed.ageQueues_counts (prs : List Priority) (h : Placed k c Q)
    (hsorted : prs.Pairwise (· < ·)) (hp : p ∈ Q (.ready (k.priority p)))
    (hahead : ∀ pr, k.priority p ≤ pr → pr ∈ prs) (heq : SoKernel.ageQueues k prs = some k') :
    0 < k'.waitTicks p := by
  induction prs generalizing k Q with
  | nil => exact absurd (hahead _ le_rfl) List.not_mem_nil
  | cons pr prs ih =>
      obtain ⟨hlt, hsorted'⟩ := List.pairwise_cons.mp hsorted
      obtain ⟨k₁, Q₁, hloop, hplaced, halloc, hstate, hraised, hwaited⟩ := h.agePass pr
      rw [SoKernel.ageQueues, hloop, Option.bind_eq_bind, Option.bind_some] at heq
      obtain ⟨hal, hready, -⟩ := (h.members.ready _ p (by simp)).mp hp
      have hp₁ : p ∈ Q₁ (.ready (k₁.priority p)) :=
        (hplaced.members.ready _ p (by simp)).mpr ⟨halloc ▸ hal, hstate ▸ hready, rfl⟩
      have hlater : pr < k₁.priority p → 0 < k'.waitTicks p := by
        intro hpr
        refine ih hplaced hsorted' hp₁ (fun pr' hle => ?_) heq
        have hmem := hahead pr' ((hraised p).trans hle)
        exact (List.mem_cons.mp hmem).resolve_left (hpr.trans_le hle).ne'
      by_cases hpr : k.priority p = pr
      · rcases (hraised p).lt_or_eq with hup | hsame
        · exact hlater (hpr ▸ hup)
        · -- The process stays in the queue, and no later walk meets it again.
          have hout : k₁.priority p ∉ prs := by
            intro hmem
            have hlt' := hlt _ hmem
            rw [← hsame, hpr] at hlt'
            exact lt_irrefl _ hlt'
          have hcounted := (hwaited.counted p (hpr ▸ hp)).resolve_left (hsame ▸ lt_irrefl _)
          rw [hplaced.ageQueues_other prs heq hout]
          omega
      · have hmem := (List.mem_cons.mp (hahead _ le_rfl)).resolve_left hpr
        obtain ⟨hprio, -⟩ := hwaited.other p fun hm => hpr (h.priority_eq hm)
        apply hlater
        rw [hprio]
        exact hlt _ hmem

end Visits

/-- A call of `apply_aging` counts the tick once for everybody exactly if no ready process is due,
that is if it promotes nobody. -/
theorem aging_counts_once_iff (h : Placed k c Q) :
    ∃ k', applyAging k = some k' ∧
      (CountsOnce k k' Q ↔ ∀ pr, ∀ p ∈ Q (.ready pr), ¬Due k p) := by
  obtain ⟨l, prio, wt, Q', heq, -⟩ := h.ageQueues [0, 1, 2]
  refine ⟨_, heq, fun hcounts pr p hp hdue => ?_, fun hquiet => ?_⟩
  · have hzero := (hcounts.promoted pr p hp hdue).2
    have hall : ∀ pr : Priority, pr ∈ [0, 1, 2] := by decide
    have hcounted := h.ageQueues_counts [0, 1, 2] (by decide) (by rwa [h.priority_eq hp])
      (fun pr _ => hall pr) heq
    omega
  · obtain ⟨k', heq', hcounts⟩ := h.applyAging_quiet hquiet
    obtain rfl := Option.some_inj.mp (heq'.symm.trans heq)
    exact hcounts

section Pair

/-- Two processes of the lowest priority, one after the other in their queue. -/
def waitingPair : Option Kernel := do
  let k ← initScheduler bootKernel 16 8192
  let (_, k) ← schedulerSpawnProcess k ⟨1, 0, 0, false, 0, 0, 48, 12288⟩
  let (_, k) ← schedulerSpawnProcess k ⟨1, 0, 0, false, 0, 0, 64, 28672⟩
  some k

theorem waitingPair_placed (h : waitingPair = some k) (wait : ℕ → ℕ) :
    ∃ c Q, Placed { k with waitTicks := wait } c Q := by
  have hlt : 64 < addressCount := by
    unfold addressCount
    decide
  have hcalc : (initScheduler bootKernel 16 8192).map
      (fun k => (k.allocated 48, k.allocated 64)) = some (false, false) := by
    decide +kernel
  rw [waitingPair, Option.bind_eq_bind] at h
  obtain ⟨k₀, hinit, h₁⟩ := Option.bind_eq_some_iff.mp h
  obtain ⟨⟨p₁, k₁⟩, hfirst, h₂⟩ := Option.bind_eq_some_iff.mp h₁
  obtain ⟨⟨p₂, k₂⟩, hsecond, hlast⟩ := Option.bind_eq_some_iff.mp h₂
  cases hlast
  rw [hinit, Option.map_some, Option.some_inj, Prod.mk.injEq] at hcalc
  have hagree := initScheduler_agree (by omega) hinit
  obtain ⟨p, k', Q₁, heq, hagree₁, heffect⟩ := schedulerSpawnProcess_spec hagree
    (r := ⟨1, 0, 0, false, 0, 0, 48, 12288⟩) ⟨fun _ => ⟨show 48 < addressCount by omega, hcalc.1⟩, fun hp => absurd rfl hp⟩
  cases hfirst.symm.trans heq
  have hfree : k₁.allocated 64 = false := by
    cases heffect with
    | failed => exact hcalc.2
    | cleared => exact hcalc.2
    | created => exact (Function.update_of_ne (show 64 ≠ 48 by decide) true _).trans hcalc.2
  obtain ⟨p', k'', Q₂, heq', hagree₂, -⟩ := schedulerSpawnProcess_spec hagree₁
    (r := ⟨1, 0, 0, false, 0, 0, 64, 28672⟩) ⟨fun _ => ⟨hlt, hfree⟩, fun hp => absurd rfl hp⟩
  cases hsecond.symm.trans heq'
  exact ⟨_, Q₂, hagree₂.placed.withWaitTicks wait⟩

/-- The theorem at a state: the tick is counted once for two processes that have not waited. -/
theorem aging_counts_once_iff_pair : ∃ k₀ k k' c Q, waitingPair = some k₀ ∧
    k = { k₀ with waitTicks := fun _ => 0 } ∧ Placed k c Q ∧ applyAging k = some k' ∧
    CountsOnce k k' Q := by
  have hsome : waitingPair.isSome = true := by decide +kernel
  obtain ⟨k₀, hpair⟩ := Option.isSome_iff_exists.mp hsome
  obtain ⟨c, Q, hplaced⟩ := waitingPair_placed hpair fun _ => 0
  obtain ⟨k', hcall, hcounts⟩ := aging_counts_once_iff hplaced
  refine ⟨k₀, _, k', c, Q, hpair, rfl, hplaced, hcall, hcounts.mpr fun pr p _ hdue => ?_⟩
  exact absurd hdue.1 (show ¬agingThreshold ≤ 0 + 1 by decide)

/-- The second process of the queue is due. It leaves, so that the first one is counted twice, and
its own waiting time is counted again in its new queue. -/
theorem aging_counts_twice : ∃ k₀ k k' c Q, waitingPair = some k₀ ∧
    k = { k₀ with waitTicks := fun p => if p = 64 then 199 else 0 } ∧ Placed k c Q ∧
    applyAging k = some k' ∧ k'.waitTicks 48 = 2 ∧ k'.priority 64 = 1 ∧ k'.waitTicks 64 = 1 ∧
    ¬CountsOnce k k' Q := by
  have hcalc : waitingPair.bind (fun k => (applyAging
      { k with waitTicks := fun p => if p = 64 then 199 else 0 }).map fun k' =>
        ((k.allocated 48, k.state 48, k.priority 48), k'.waitTicks 48, k'.priority 64,
          k'.waitTicks 64)) =
      some ((true, .ready, 0), 2, 1, 1) := by
    decide +kernel
  obtain ⟨k₀, hpair, haging⟩ := Option.bind_eq_some_iff.mp hcalc
  obtain ⟨k', hcall, hvalues⟩ := Option.map_eq_some_iff.mp haging
  simp only [Prod.mk.injEq] at hvalues
  obtain ⟨⟨hal, hready, hprio⟩, htwice, hraised, hwaits⟩ := hvalues
  obtain ⟨c, Q, hplaced⟩ := waitingPair_placed hpair fun p => if p = 64 then 199 else 0
  refine ⟨k₀, _, k', c, Q, hpair, rfl, hplaced, hcall, htwice, hraised, hwaits, fun hcounts => ?_⟩
  have hmem : 48 ∈ Q (.ready 0) := (hplaced.members.ready 0 48 (by simp)).mpr ⟨hal, hready, hprio⟩
  obtain ⟨-, honce⟩ := hcounts.waits 0 48 hmem (by simp [Due, agingThreshold])
  rw [htwice] at honce
  simp at honce

end Pair

end SoKernel
