import SoKernel.Proc.Effects

/-!
# Scheduler queues in every run

In every run whose calls meet `QueueSafe` the queues are doubly linked lists that agree
with the process states. Waking the waiters of a process that dies does not meet it: the
waiters stay in the queue of blocked processes and enter a ready queue as well.
-/

namespace SoKernel

open Function (update)

variable {k k₀ : Kernel} {Q : QueueId → List ℕ}

/-- The queues are the lists `Q`, no process is in two places, and a process that does not
run is in the queue of its state. -/
structure QueueConsistent (k : Kernel) (Q : QueueId → List ℕ) : Prop where
  lists : ∀ q, QueueList k.queueNext k.queuePrev (k.queues q) (Q q)
  nodup : ∀ q, (Q q).Nodup
  disjoint : ∀ q q' p, p ∈ Q q → p ∈ Q q' → q = q'
  allocated : ∀ q, ∀ p ∈ Q q, k.allocated p = true
  ready : ∀ p, k.allocated p = true → p ≠ k.current →
    ∀ i, p ∈ Q (.ready i) ↔ k.state p = .ready ∧ k.priority p = i
  blocked : ∀ p, k.allocated p = true → p ≠ k.current → (p ∈ Q .blocked ↔ k.state p = .blocked)
  finished : ∀ p ∈ Q .finished, k.state p = .finished

theorem QueuesAgree.consistent (h : QueuesAgree k k.current Q) : QueueConsistent k Q where
  lists := h.rings.list
  nodup q := (h.rings.list q).nodup
  disjoint := h.rings.disjoint
  allocated q p hp := (h.of_mem hp).1
  ready p ha _ i := by
    rw [h.members.ready i p (by simp)]
    exact and_iff_right ha
  blocked p ha hc := by
    rw [h.members.blocked p (by simp)]
    exact ⟨fun hb => hb.2.1, fun hb => ⟨ha, hb, hc⟩⟩
  finished p hp := (h.of_mem hp).2

/-- After `init_scheduler` all queues are empty. -/
theorem initScheduler_agree {pcb stack : ℕ} (hpcb : pcb < addressCount)
    (h : initScheduler bootKernel pcb stack = some k₀) :
    QueuesAgree k₀ k₀.current fun _ => [] := by
  have hrings : ∀ nx pv : ℕ → ℕ, Rings nx pv (fun _ => ⟨0, 0, 0⟩) fun _ => [] := by
    intro nx pv
    refine ⟨fun q => ⟨?_, rfl⟩, ?_, ?_⟩
    · rw [LinkedRing.Ring.nil_iff]
      simp
    · intro q q' p hp
      cases hp
    · intro q p hp
      cases hp
  unfold initScheduler at h
  rcases processCreate_spec
    (k := { bootKernel with
      nextPid := 1
      queues := fun _ => ⟨0, 0, 0⟩ }) (fun _ _ => rfl) (fun _ => rfl)
    ⟨1, 0, 0, false, 0, 0, pcb, stack⟩ with heq | ⟨hp, heq⟩ | ⟨hp, fdp, heq⟩
  · simp only [heq, Option.bind_eq_bind, Option.bind_some, Option.some_inj] at h
    subst h
    refine ⟨hrings _ _, ⟨?_, ?_, ?_⟩, ?_, ?_, ?_, fun _ _ => rfl, fun _ => rfl⟩
    all_goals simp [bootKernel]
  · simp only [heq, Option.bind_eq_bind, Option.bind_some, Option.some_inj] at h
    subst h
    refine ⟨hrings _ _, ⟨?_, ?_, ?_⟩, ?_, ?_, ?_, fun p i => ?_, fun _ => rfl⟩
    all_goals simp [bootKernel, clearPcb]
  · simp only [heq, Option.bind_eq_bind, Option.bind_some, Option.some_inj] at h
    rw [if_pos hp] at h
    subst h
    refine ⟨hrings _ _, ⟨?_, ?_, ?_⟩, ?_, ?_, ?_, fun _ _ => rfl, fun _ => rfl⟩
    · intro i p _
      by_cases hpp : p = pcb
      · simp [hpp]
      · simp [hpp, bootKernel]
    · intro p _
      by_cases hpp : p = pcb
      · simp [hpp]
      · simp [hpp, bootKernel]
    · simp
    · intro p ha
      by_cases hpp : p = pcb
      · exact hpp ▸ ⟨hp, hpcb⟩
      · simp [hpp, bootKernel] at ha
    · intro _
      simp
    · intro _
      exact ⟨by simp, hp⟩

/-- The state of a run in which every call met its condition. -/
theorem Run.agree {pcb stack : ℕ} {steps : List Step} (hpcb : pcb < addressCount)
    (hinit : initScheduler bootKernel pcb stack = some k₀) (run : Run k₀ steps k)
    (hsafe : ∀ s ∈ steps, QueueSafe s.before s.call) : ∃ Q, QueuesAgree k k.current Q := by
  refine run.invariant (I := fun k => ∃ Q, QueuesAgree k k.current Q) hsafe
    ⟨_, initScheduler_agree hpcb hinit⟩ ?_
  rintro k c o ⟨Q, h⟩ hs heq
  obtain ⟨o', Q', heq', hagree, -⟩ := exec_spec h hs
  rw [heq, Option.some_inj] at heq'
  subst heq'
  exact ⟨Q', hagree⟩

/-- The queues are consistent in every state of a run whose calls are safe, and in each of
these states every safe call returns. -/
theorem scheduler_queues_consistent {pcb stack : ℕ} {steps : List Step} (hpcb : pcb < addressCount)
    (hinit : initScheduler bootKernel pcb stack = some k₀) (run : Run k₀ steps k)
    (hsafe : ∀ s ∈ steps, QueueSafe s.before s.call) :
    (∃ Q, QueueConsistent k Q) ∧ ∀ c, QueueSafe k c → ∃ o, exec k c = some o := by
  obtain ⟨Q, h⟩ := Run.agree hpcb hinit run hsafe
  refine ⟨⟨Q, h.consistent⟩, fun c hs => ?_⟩
  obtain ⟨o, -, heq, -⟩ := exec_spec h hs
  exact ⟨o, heq⟩

/-- The theorem at a run: the shell runs, one of two other processes is blocked and the other is
killed, so that two of the queues are in use. -/
theorem scheduler_queues_consistent_shell :
    ∃ k₀ steps k, initScheduler bootKernel 16 8192 = some k₀ ∧ Run k₀ steps k ∧
      steps.map Step.call =
        [.spawn ⟨1, 0, 2, true, 0, 0, 48, 12288⟩, .tick ⟨0, fun _ => 0⟩,
          .spawn ⟨1, 0, 2, false, 0, 0, 64, 32768⟩, .spawn ⟨1, 0, 2, false, 0, 0, 80, 65536⟩,
          .blockByPid 3, .killByPid 4] ∧
      k.current = 48 ∧ (k.queues .blocked).head = 64 ∧ (k.queues .finished).head = 80 ∧
      (∃ Q, QueueConsistent k Q) ∧ ∀ c, QueueSafe k c → ∃ o, exec k c = some o := by
  have hlt : ∀ a, a ≤ 80 → a < addressCount := by
    intro a ha
    unfold addressCount
    omega
  have hcalc : ((initScheduler bootKernel 16 8192).bind fun k₀ =>
      (exec k₀ (.spawn ⟨1, 0, 2, true, 0, 0, 48, 12288⟩)).bind fun o₁ =>
        (exec o₁.kernel (.tick ⟨0, fun _ => 0⟩)).bind fun o₂ =>
          (exec o₂.kernel (.spawn ⟨1, 0, 2, false, 0, 0, 64, 32768⟩)).bind fun o₃ =>
            (exec o₃.kernel (.spawn ⟨1, 0, 2, false, 0, 0, 80, 65536⟩)).bind fun o₄ =>
              (exec o₄.kernel (.blockByPid 3)).bind fun o₅ =>
                (exec o₅.kernel (.killByPid 4)).map fun o₆ =>
                  decide ((k₀.allocated 48 = false ∧ o₁.kernel.state o₁.kernel.current = .running ∧
                    o₂.kernel.allocated 64 = false ∧ o₃.kernel.allocated 80 = false ∧
                    o₄.kernel.current = 48 ∧ schedulerFindByPid o₄.kernel 3 = some 64 ∧
                    schedulerFindByPid o₅.kernel 4 = some 80 ∧ o₅.kernel.idleP = 16 ∧
                    o₅.kernel.waitersHead 80 = 0) ∧
                    o₆.kernel.current = 48 ∧ (o₆.kernel.queues .blocked).head = 64 ∧
                    (o₆.kernel.queues .finished).head = 80)) = some true := by
    decide +kernel
  obtain ⟨k₀, hinit, h₁⟩ := Option.bind_eq_some_iff.mp hcalc
  obtain ⟨o₁, hshell, h₂⟩ := Option.bind_eq_some_iff.mp h₁
  obtain ⟨o₂, htick, h₃⟩ := Option.bind_eq_some_iff.mp h₂
  obtain ⟨o₃, hspawn, h₄⟩ := Option.bind_eq_some_iff.mp h₃
  obtain ⟨o₄, hspawn', h₅⟩ := Option.bind_eq_some_iff.mp h₄
  obtain ⟨o₅, hblock, h₆⟩ := Option.bind_eq_some_iff.mp h₅
  obtain ⟨o₆, hkill, h₇⟩ := Option.map_eq_some_iff.mp h₆
  obtain ⟨⟨hfree, hstate, hfree', hfree'', hcur, hthree, hfour, hidle, hwaiters⟩, hlast⟩ :=
    of_decide_eq_true h₇
  obtain ⟨hcurrent, hblocked, hfinished⟩ := hlast
  have run : Run k₀ [⟨k₀, _, o₁⟩, ⟨o₁.kernel, _, o₂⟩, ⟨o₂.kernel, _, o₃⟩, ⟨o₃.kernel, _, o₄⟩,
      ⟨o₄.kernel, _, o₅⟩, ⟨o₅.kernel, _, o₆⟩] o₆.kernel :=
    .cons hshell (.cons htick (.cons hspawn (.cons hspawn' (.cons hblock (.cons hkill .nil)))))
  refine ⟨k₀, _, o₆.kernel, hinit, run, rfl, hcurrent, hblocked, hfinished,
    scheduler_queues_consistent (hlt 16 (by decide)) hinit run ?_⟩
  intro s hs
  simp only [List.mem_cons, List.not_mem_nil, or_false] at hs
  rcases hs with rfl | rfl | rfl | rfl | rfl | rfl
  · exact ⟨fun _ => ⟨hlt 48 (by decide), hfree⟩, fun h => absurd rfl h⟩
  · intro _ hf
    exact absurd (hstate.symm.trans hf) (by decide)
  · exact ⟨fun _ => ⟨hlt 64 (by decide), hfree'⟩, fun h => absurd rfl h⟩
  · exact ⟨fun _ => ⟨hlt 80 (by decide), hfree''⟩, fun h => absurd rfl h⟩
  · -- The blocked process is not the one that runs.
    intro hfound
    rw [hthree, hcur] at hfound
    cases hfound
  · intro p hp _
    obtain rfl : 80 = p := Option.some.inj (hfour.symm.trans hp)
    exact ⟨by rw [hidle]; decide, [], hwaiters, by simp⟩

/-- The shell waits for its child, which a third process then kills: the shell is the head
of the queue of blocked processes and of a ready queue. -/
theorem killed_child_corrupts_queues :
    ∃ k₀ steps k, initScheduler bootKernel 16 8192 = some k₀ ∧ Run k₀ steps k ∧
      steps.map Step.call =
        [.spawn ⟨1, 0, 2, true, 0, 0, 48, 12288⟩, .tick ⟨0, fun _ => 0⟩,
          .spawn ⟨1, 48, 2, true, 0, 0, 64, 32768⟩, .spawn ⟨1, 48, 2, false, 0, 0, 80, 65536⟩,
          .wait 3 ⟨0, fun _ => 0⟩, .yield ⟨0, fun _ => 0⟩, .killByPid 3] ∧
      ∀ Q, ¬QueueConsistent k Q := by
  have hcalc : ((initScheduler bootKernel 16 8192).bind fun k₀ =>
      (execAll k₀ [.spawn ⟨1, 0, 2, true, 0, 0, 48, 12288⟩, .tick ⟨0, fun _ => 0⟩,
          .spawn ⟨1, 48, 2, true, 0, 0, 64, 32768⟩, .spawn ⟨1, 48, 2, false, 0, 0, 80, 65536⟩,
          .wait 3 ⟨0, fun _ => 0⟩, .yield ⟨0, fun _ => 0⟩, .killByPid 3]).map fun k =>
        ((k.queues .blocked).head, (k.queues (.ready 2)).head)) = some (48, 48) := by
    decide +kernel
  obtain ⟨k₀, hinit, h₁⟩ := Option.bind_eq_some_iff.mp hcalc
  obtain ⟨k, hall, h₂⟩ := Option.map_eq_some_iff.mp h₁
  obtain ⟨steps, run, hcalls⟩ := Run.of_execAll hall
  simp only [Prod.mk.injEq] at h₂
  refine ⟨k₀, steps, k, hinit, run, hcalls, fun Q hQ => ?_⟩
  have hmem : ∀ q, (k.queues q).head = 48 → 48 ∈ Q q := by
    intro q hhead
    have heq := (hQ.lists q).head_eq
    rw [hhead] at heq
    cases hL : Q q with
    | nil =>
        rw [hL] at heq
        cases heq
    | cons x L =>
        rw [hL] at heq
        simp only [List.head?_cons, Option.getD_some] at heq
        simp [heq]
  exact absurd (hQ.disjoint _ _ 48 (hmem _ h₂.1) (hmem _ h₂.2)) (by decide)

end SoKernel
