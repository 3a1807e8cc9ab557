import SoKernel.Proc.QueueInvariant

/-!
# The life of a process

In every run of safe calls a finished process stays finished until it is destroyed, is
never dispatched again and is destroyed at most once. Processes are told apart by their
identifiers, since the address of a destroyed process may be used again.
-/

namespace SoKernel

open Function (update)

variable {k k₀ : Kernel} {Q : QueueId → List ℕ} {F L : List ℕ} {o : Outcome}

section Step

/-- The part of a call that concerns the lives of processes. -/
structure LifeStep (k : Kernel) (o : Outcome) : Prop where
  finished : ∀ p, k.allocated p = true → k.state p = .finished → p ∉ o.destroyed →
    o.kernel.allocated p = true ∧ o.kernel.state p = .finished
  destroyed : ∀ p ∈ o.destroyed, k.allocated p = true ∧ o.kernel.allocated p = false
  nodup : o.destroyed.Nodup
  pid : ∀ p, k.allocated p = true → o.kernel.pid p = k.pid p
  fresh : ∀ p, o.kernel.allocated p = true → k.allocated p = false →
    o.kernel.pid p = k.nextPid ∧ k.nextPid < o.kernel.nextPid
  fresh_unique : ∀ p q, o.kernel.allocated p = true → k.allocated p = false →
    o.kernel.allocated q = true → k.allocated q = false → p = q
  nextPid : k.nextPid ≤ o.kernel.nextPid
  dispatched : ∀ n, o.dispatched = some n → k.allocated n = true ∧ k.state n ≠ .finished

/-- A call that creates and destroys nothing. -/
theorem LifeStep.of_states (plain : o.dispatched = none) (dead : o.destroyed = [])
    (ha : o.kernel.allocated = k.allocated)
    (hpid : ∀ p, k.allocated p = true → o.kernel.pid p = k.pid p)
    (hnext : o.kernel.nextPid = k.nextPid)
    (hs : ∀ p, k.allocated p = true → k.state p = .finished → o.kernel.state p = .finished) :
    LifeStep k o := by
  refine ⟨fun p hp hf _ => ⟨ha ▸ hp, hs p hp hf⟩, ?_, ?_, hpid, ?_, ?_, hnext.symm.le, ?_⟩
  · rw [dead]
    simp
  · rw [dead]
    exact List.nodup_nil
  · intro p hp hn
    rw [ha, hn] at hp
    cases hp
  · intro p q hp hn
    rw [ha, hn] at hp
    cases hp
  · intro n hn
    rw [plain] at hn
    cases hn

/-- A call that changes states before it goes on from `k₁`. -/
theorem LifeStep.of_before {k₁ : Kernel} (h : LifeStep k₁ o) (ha : k₁.allocated = k.allocated)
    (hpid : k₁.pid = k.pid) (hnext : k₁.nextPid = k.nextPid)
    (hs : ∀ p, k.state p = .finished → k₁.state p = .finished) : LifeStep k o := by
  obtain ⟨hfin, hdead, hnodup, hpids, hfresh, hone, hle, hdisp⟩ := h
  rw [ha, hpid] at hpids
  rw [ha, hnext] at hfresh
  rw [ha] at hdead hone
  refine ⟨fun p hp hst hm => hfin p (ha ▸ hp) (hs p hst) hm, hdead, hnodup, hpids, hfresh, hone,
    hnext ▸ hle, fun n hn => ?_⟩
  obtain ⟨hal, hst⟩ := hdisp n hn
  exact ⟨ha ▸ hal, fun h => hst (hs n h)⟩

theorem savedState_finished {p a : ℕ} (hL : SaveWakes k p L) (hs : k.state a = .finished) :
    savedState k p L a = .finished := by
  have haL : a ∉ L := by
    intro hm
    unfold SaveWakes at hL
    split at hL
    · have hst := (hL.awake a hm).2.2
      rw [hs] at hst
      simp at hst
    · rw [hL] at hm
      cases hm
  by_cases hap : a = p
  · subst hap
    simp only [savedState, hs, reduceCtorEq, false_and, if_false]
    rw [setAll_of_not_mem _ _ haL, hs]
  · rw [savedState_of_ne hap haL, hs]

theorem mem_savedFinished {p a : ℕ} (hm : a ∈ savedFinished k p F) :
    a ∈ F ∨ a = p ∧ k.state p = .finished := by
  unfold savedFinished at hm
  split at hm
  · rename_i hf
    rcases List.mem_append.mp hm with hm | hm
    · exact Or.inl (List.mem_of_mem_erase hm)
    · exact Or.inr ⟨List.mem_singleton.mp hm, hf⟩
  · exact Or.inl hm

theorem savedFinished_nodup {p : ℕ} (hF : F.Nodup) : (savedFinished k p F).Nodup := by
  unfold savedFinished
  split
  · refine List.nodup_append.mpr ⟨hF.erase _, List.nodup_singleton _, ?_⟩
    intro a ha b hb
    rw [List.mem_singleton.mp hb]
    exact fun e => hF.not_mem_erase (e ▸ ha)
  · exact hF

/-- A context switch, from a state with the given queue of finished processes. -/
theorem SwitchEffect.life {next : ℕ} (e : SwitchEffect k L F next o)
    (hL : SaveWakes k k.current L) (hF : F.Nodup)
    (hFin : ∀ p ∈ F, k.allocated p = true ∧ k.state p = .finished)
    (hc : k.allocated k.current = true) : LifeStep k o := by
  have hnext : k.state next ≠ .finished := by
    intro hs
    have hst := e.next_state
    rw [savedState_finished hL hs] at hst
    simp at hst
  have hdead : ∀ p ∈ o.destroyed, k.allocated p = true := by
    intro p hp
    rw [e.destroyed] at hp
    rcases mem_savedFinished (List.mem_of_mem_take hp) with hm | ⟨rfl, -⟩
    · exact (hFin p hm).1
    · exact hc
  have hold : ∀ p, o.kernel.allocated p = true → k.allocated p = true := by
    intro p hp
    rw [e.allocated] at hp
    by_cases hm : p ∈ o.destroyed
    · exact hdead p hm
    · rwa [setAll_of_not_mem _ _ hm] at hp
  refine ⟨?_, ?_, ?_, fun p _ => by rw [e.pid], ?_, ?_, by rw [e.nextPid], ?_⟩
  · intro p hp hs hm
    rw [e.allocated, e.state, setAll_of_not_mem _ _ hm]
    refine ⟨hp, ?_⟩
    have hpn : p ≠ next := fun h => hnext (h ▸ hs)
    rw [Function.update_of_ne hpn, savedState_finished hL hs]
  · intro p hp
    refine ⟨hdead p hp, ?_⟩
    rw [e.allocated, setAll_of_mem _ _ hp]
  · rw [e.destroyed]
    exact (savedFinished_nodup hF).sublist (List.take_sublist _ _)
  · intro p hp hn
    rw [hold p hp] at hn
    cases hn
  · intro p q hp hn
    rw [hold p hp] at hn
    cases hn
  · intro n hn
    rw [e.dispatched, Option.some_inj] at hn
    exact hn ▸ ⟨e.next_allocated, hnext⟩

theorem ScheduleEffect.life (e : ScheduleEffect k L F o)
    (hL : k.current ≠ 0 → SaveWakes k k.current L) (hF : F.Nodup)
    (hFin : ∀ p ∈ F, k.allocated p = true ∧ k.state p = .finished)
    (hc : k.current ≠ 0 → k.allocated k.current = true) : LifeStep k o := by
  cases e with
  | kept plain core =>
      exact .of_states plain.dispatched plain.destroyed core.allocated
        (fun p _ => by rw [core.pid]) core.nextPid (fun p _ hs => by rw [core.state, hs])
  | switched next e => exact e.life (hL e.running) hF hFin (hc e.running)

/-- Blocking the current process and switching to another one. -/
theorem ScheduleEffect.life_blocked {k₁ : Kernel}
    (e : ScheduleEffect (schedulerBlockCurrent k₁) [] (Q .finished) o)
    (h : QueuesAgree k k.current Q) (hcan : CanBlock k) (ha : k₁.allocated = k.allocated)
    (hpid : k₁.pid = k.pid) (hnext : k₁.nextPid = k.nextPid) (hst : k₁.state = k.state)
    (hcur : k₁.current = k.current) (hidle : k₁.idleP = k.idleP) : LifeStep k o := by
  obtain ⟨st, b, hshape, hstate⟩ := schedulerBlockCurrent_shape k₁
  rw [hshape] at e
  rw [hst, hcur, hidle] at hstate
  -- The current process is not finished, neither before nor after it has been blocked.
  have hfin : ∀ p, k.state p = .finished → st p = .finished := by
    intro p hp
    rcases hstate with ⟨rfl, -⟩ | ⟨rfl, hne, hni⟩
    · exact hp
    · have hpc : p ≠ k.current := by
        rintro rfl
        exact ((hcan.resolve_left hne).resolve_left hni).2 hp
      rw [Function.update_of_ne hpc, hp]
  have hwakes : k.current ≠ 0 → st k.current ≠ .finished := by
    intro hc
    rcases hstate with ⟨rfl, hc' | hi⟩ | ⟨rfl, -⟩
    · exact absurd hc' hc
    · have hrun := (h.idle (hi ▸ hc)).2
      rw [← hi] at hrun
      rcases hrun with hrun | hrun <;> simp [hrun]
    · simp
  refine (e.life ?_ (h.rings.list _).nodup ?_ ?_).of_before ha hpid hnext hfin
  · intro hc
    rw [SaveWakes, if_neg]
    dsimp only at hc ⊢
    rw [hcur] at hc ⊢
    exact hwakes hc
  · intro p hp
    obtain ⟨hal, hs⟩ := h.members.finished p (by simp) hp
    exact ⟨ha ▸ hal, hfin p hs⟩
  · intro hc
    dsimp only at hc ⊢
    rw [hcur] at hc ⊢
    rw [ha]
    exact (h.current hc).1

theorem Releases.life {i : ℕ} {ws : List ℕ} {k' : Kernel} (h : Releases i k ws k') :
    k'.allocated = k.allocated ∧ k'.pid = k.pid ∧ k'.nextPid = k.nextPid ∧
      ∀ p, k.state p = .finished → k'.state p = .finished := by
  induction h with
  | nil core => exact ⟨core.allocated, core.pid, core.nextPid, fun p hp => by rw [core.state, hp]⟩
  | @cons k k₁ k' w ws head ne wakeable step rest ih =>
      obtain ⟨ha, hpid, hnext, hs⟩ := ih
      refine ⟨ha.trans step.allocated, hpid.trans step.pid, hnext.trans step.nextPid,
        fun p hp => hs p ?_⟩
      have hpw : p ≠ w := fun e => wakeable.2 (e ▸ hp)
      rw [step.state]
      dsimp only
      rw [Function.update_of_ne hpw, hp]

/-- No call brings a finished process back. -/
theorem CallEffect.life {c : Call} (h : QueuesAgree k k.current Q)
    (e : CallEffect k (Q .finished) c o) : LifeStep k o := by
  have hF := (h.rings.list .finished).nodup
  have hFin : ∀ p ∈ Q .finished, k.allocated p = true ∧ k.state p = .finished :=
    fun p hp => h.members.finished p (by simp) hp
  cases e with
  | quiet plain core =>
      exact .of_states plain.dispatched plain.destroyed core.allocated
        (fun p _ => by rw [core.pid]) core.nextPid (fun p _ hs => by rw [core.state, hs])
  | cleared p free plain core =>
      have hne : ∀ a, k.allocated a = true → a ≠ p := fun a ha e => by
        rw [e, free] at ha
        cases ha
      refine .of_states plain.dispatched plain.destroyed core.allocated (fun a ha => ?_)
        core.nextPid (fun a ha hs => ?_)
      · rw [core.pid]
        exact Function.update_of_ne (hne a ha) _ _
      · rw [core.state, ← hs]
        exact Function.update_of_ne (hne a ha) _ _
  | created r valid pcb pr fdp plain core =>
      obtain ⟨hlt, hfree⟩ := valid.1 pcb
      have hne : ∀ a, k.allocated a = true → a ≠ r.pcb := fun a ha e => by
        rw [e, hfree] at ha
        cases ha
      have hnew : ∀ a, o.kernel.allocated a = true → k.allocated a = false → a = r.pcb := by
        intro a ha hn
        by_contra hap
        rw [core.allocated] at ha
        dsimp only at ha
        rw [Function.update_of_ne hap, hn] at ha
        cases ha
      refine ⟨fun a ha hs _ => ?_, ?_, ?_, fun a ha => ?_, fun a ha hn => ?_,
        fun a b ha hn hb hn' => (hnew a ha hn).trans (hnew b hb hn').symm, ?_, ?_⟩
      · rw [core.allocated, core.state]
        dsimp only
        rw [Function.update_of_ne (hne a ha), Function.update_of_ne (hne a ha)]
        exact ⟨ha, hs⟩
      · rw [plain.destroyed]
        simp
      · rw [plain.destroyed]
        exact List.nodup_nil
      · rw [core.pid]
        exact Function.update_of_ne (hne a ha) _ _
      · rw [core.pid, core.nextPid, hnew a ha hn]
        exact ⟨Function.update_self .., Nat.lt_succ_self _⟩
      · rw [core.nextPid]
        exact Nat.le_succ _
      · rw [plain.dispatched]
        simp
  | blocked p alive idle plain core =>
      refine .of_states plain.dispatched plain.destroyed core.allocated
        (fun p _ => by rw [core.pid]) core.nextPid (fun a _ hs => ?_)
      have hap : a ≠ p := fun e => alive.2 (e ▸ hs)
      rw [core.state, ← hs]
      exact Function.update_of_ne hap _ _
  | readied p call alive plain core =>
      refine .of_states plain.dispatched plain.destroyed core.allocated
        (fun p _ => by rw [core.pid]) core.nextPid (fun a _ hs => ?_)
      have hap : a ≠ p := fun e => alive.2 (e ▸ hs)
      rw [core.state, ← hs]
      exact Function.update_of_ne hap _ _
  | finished cur idle plain core =>
      refine .of_states plain.dispatched plain.destroyed core.allocated
        (fun p _ => by rw [core.pid]) core.nextPid (fun a _ hs => ?_)
      rw [core.state]
      dsimp only
      rw [Function.update_apply]
      split
      · rfl
      · exact hs
  | killed p found alloc idle L awake plain core =>
      refine .of_states plain.dispatched plain.destroyed core.allocated
        (fun p _ => by rw [core.pid]) core.nextPid (fun a _ hs => ?_)
      have haL : a ∉ L := by
        intro hm
        have hst := (awake.awake a hm).2.2
        rw [hs] at hst
        simp at hst
      rw [core.state]
      dsimp only
      rw [setAll_of_not_mem _ _ haL, Function.update_apply]
      split
      · rfl
      · exact hs
  | scheduled L wakes effect => exact effect.life wakes hF hFin fun hc => (h.current hc).1
  | waited target found alive cur other can effect =>
      exact effect.life_blocked h can rfl rfl rfl rfl rfl rfl
  | semAllocated v plain core =>
      obtain ⟨sems, n, hshape⟩ := semAlloc_shape k v
      rw [hshape] at core
      exact .of_states plain.dispatched plain.destroyed core.allocated
        (fun p _ => by rw [core.pid]) core.nextPid (fun p _ hs => by rw [core.state, hs])
  | @semOpened id o plain core =>
      obtain ⟨sems, hshape⟩ := semOpenById_shape k id
      rw [hshape] at core
      exact .of_states plain.dispatched plain.destroyed core.allocated
        (fun p _ => by rw [core.pid]) core.nextPid (fun p _ hs => by rw [core.state, hs])
  | @semClosed id o plain core =>
      obtain ⟨sems, hshape⟩ := semCloseById_shape k id
      rw [hshape] at core
      exact .of_states plain.dispatched plain.destroyed core.allocated
        (fun p _ => by rw [core.pid]) core.nextPid (fun p _ hs => by rw [core.state, hs])
  | semTaken i found positive plain result core =>
      exact .of_states plain.dispatched plain.destroyed core.allocated
        (fun p _ => by rw [core.pid]) core.nextPid (fun p _ hs => by rw [core.state, hs])
  | semQueued i found empty cur can effect =>
      obtain ⟨sems, swn, hshape⟩ := enqueueWaiter_shape
        { k with waitingOnSem := update k.waitingOnSem k.current (k.semaphores i).id } i k.current
      rw [hshape] at effect
      exact effect.life_blocked h can rfl rfl rfl rfl rfl rfl
  | semReleased i found w released dispatched destroyed releases =>
      obtain ⟨ha, hpid, hnext, hs⟩ := releases.life
      exact .of_states dispatched destroyed ha (fun p _ => by rw [hpid]) hnext fun p _ => hs p
  | semIncremented i found empty plain core =>
      exact .of_states plain.dispatched plain.destroyed core.allocated
        (fun p _ => by rw [core.pid]) core.nextPid (fun p _ hs => by rw [core.state, hs])
  | semSet i found nonneg ws mid released dispatched destroyed releases count core =>
      obtain ⟨ha, hpid, hnext, hs⟩ := releases.life
      exact .of_states dispatched destroyed (core.allocated.trans ha)
        (fun p _ => by rw [core.pid, hpid]) (core.nextPid.trans hnext)
        fun p _ hp => by rw [core.state, hs p hp]

end Step

section Runs

variable {k₁ k₂ : Kernel} {steps before after : List Step} {log : List ℕ}

/-- The identifiers of the processes that the steps destroyed, in order. -/
def destroyedPids (steps : List Step) : List ℕ :=
  steps.flatMap fun s => s.outcome.destroyed.map s.before.pid

/-- The identifiers of the processes that the steps dispatched, in order. -/
def dispatchedPids (steps : List Step) : List ℕ :=
  steps.filterMap fun s => s.outcome.dispatched.map s.before.pid

/-- Of the processes that are finished in `k₁`, none is dispatched by the steps, and each
that they do not destroy is still there and finished in `k₂`. -/
def FinishedIsFinal (k₁ : Kernel) (steps : List Step) (k₂ : Kernel) : Prop :=
  ∀ p, k₁.allocated p = true → k₁.state p = .finished →
    k₁.pid p ∉ dispatchedPids steps ∧
      (k₁.pid p ∈ destroyedPids steps ∨
        k₂.allocated p = true ∧ k₂.pid p = k₁.pid p ∧ k₂.state p = .finished)

/-- Identifiers are unique, and those in `log` are used up. -/
structure Lives (k : Kernel) (log : List ℕ) : Prop where
  unique : ∀ p q, k.allocated p = true → k.allocated q = true → k.pid p = k.pid q → p = q
  bound : ∀ p, k.allocated p = true → k.pid p < k.nextPid
  logBound : ∀ d ∈ log, d < k.nextPid
  nodup : log.Nodup
  gone : ∀ p, k.allocated p = true → k.pid p ∉ log

/-- A process that exists after a call existed before it, or is new. -/
theorem LifeStep.old_or_fresh (h : LifeStep k o) {p : ℕ} (ha : o.kernel.allocated p = true) :
    k.allocated p = true ∧ o.kernel.pid p = k.pid p ∨
      k.allocated p = false ∧ o.kernel.pid p = k.nextPid ∧ k.nextPid < o.kernel.nextPid := by
  cases hk : k.allocated p with
  | true => exact Or.inl ⟨rfl, h.pid p hk⟩
  | false => exact Or.inr ⟨rfl, h.fresh p ha hk⟩

theorem Lives.step (hl : Lives k log) (h : LifeStep k o) :
    Lives o.kernel (log ++ o.destroyed.map k.pid) := by
  have hdead : ∀ d ∈ o.destroyed.map k.pid, ∃ q, k.allocated q = true ∧
      o.kernel.allocated q = false ∧ k.pid q = d := by
    intro d hd
    obtain ⟨q, hq, rfl⟩ := List.mem_map.mp hd
    exact ⟨q, (h.destroyed q hq).1, (h.destroyed q hq).2, rfl⟩
  have hlog : ∀ d ∈ log ++ o.destroyed.map k.pid, d < k.nextPid := by
    intro d hd
    rcases List.mem_append.mp hd with hd | hd
    · exact hl.logBound d hd
    · obtain ⟨q, hq, -, rfl⟩ := hdead d hd
      exact hl.bound q hq
  refine ⟨?_, ?_, fun d hd => (hlog d hd).trans_le h.nextPid, ?_, ?_⟩
  · intro p q hp hq heq
    obtain ⟨hpk, hppid⟩ | ⟨hpk, hppid, -⟩ := h.old_or_fresh hp
    · obtain ⟨hqk, hqpid⟩ | ⟨-, hqpid, -⟩ := h.old_or_fresh hq
      · exact hl.unique p q hpk hqk (by rw [← hppid, heq, hqpid])
      · have hlt := hl.bound p hpk
        omega
    · obtain ⟨hqk, hqpid⟩ | ⟨hqk, -, -⟩ := h.old_or_fresh hq
      · have hlt := hl.bound q hqk
        omega
      · exact h.fresh_unique p q hp hpk hq hqk
  · intro p hp
    obtain ⟨hpk, hppid⟩ | ⟨-, hppid, hlt⟩ := h.old_or_fresh hp
    · rw [hppid]
      exact (hl.bound p hpk).trans_le h.nextPid
    · rwa [hppid]
  · refine List.nodup_append.mpr ⟨hl.nodup, ?_, ?_⟩
    · refine h.nodup.map_on fun p hp q hq heq => ?_
      exact hl.unique p q (h.destroyed p hp).1 (h.destroyed q hq).1 heq
    · intro d hd d' hd' heq
      obtain ⟨q, hq, -, rfl⟩ := hdead d' hd'
      exact hl.gone q hq (heq ▸ hd)
  · intro p hp hm
    obtain ⟨hpk, hppid⟩ | ⟨-, hppid, -⟩ := h.old_or_fresh hp
    · rw [hppid] at hm
      rcases List.mem_append.mp hm with hm | hm
      · exact hl.gone p hpk hm
      · obtain ⟨q, hq, hqo, heq⟩ := hdead _ hm
        rw [hl.unique q p hq hpk heq, hp] at hqo
        cases hqo
    · have hlt := hlog _ hm
      omega

/-- After a call, a finished process is finished or destroyed, and it was not dispatched. -/
theorem LifeStep.fate (h : LifeStep k o) (hl : Lives k log) {p : ℕ} (hp : k.allocated p = true)
    (hf : k.state p = .finished) :
    (k.pid p ∈ o.destroyed.map k.pid ∨ o.kernel.allocated p = true ∧
      o.kernel.pid p = k.pid p ∧ o.kernel.state p = .finished) ∧
    ∀ n, o.dispatched = some n → k.pid n ≠ k.pid p := by
  refine ⟨?_, ?_⟩
  · by_cases hd : p ∈ o.destroyed
    · exact Or.inl (List.mem_map_of_mem hd)
    · obtain ⟨ha, hs⟩ := h.finished p hp hf hd
      exact Or.inr ⟨ha, h.pid p hp, hs⟩
  · intro n hn heq
    obtain ⟨hna, hns⟩ := h.dispatched n hn
    rw [hl.unique n p hna hp heq] at hns
    exact hns hf

/-- What a run of safe calls keeps, together with the agreement of the queues. -/
theorem Run.lives (run : Run k₁ steps k₂) (hsafe : ∀ s ∈ steps, QueueSafe s.before s.call)
    (hagree : ∃ Q, QueuesAgree k₁ k₁.current Q) (hl : Lives k₁ log) :
    (∃ Q, QueuesAgree k₂ k₂.current Q) ∧ Lives k₂ (log ++ destroyedPids steps) ∧
      FinishedIsFinal k₁ steps k₂ := by
  induction run with
  | nil =>
      refine ⟨hagree, by simpa [destroyedPids] using hl, fun p hp hf => ⟨?_, Or.inr ⟨hp, rfl, hf⟩⟩⟩
      exact List.not_mem_nil
  | @snoc steps k c o run step ih =>
      obtain ⟨⟨Q, hQ⟩, hlk, hfate⟩ := ih fun s hs => hsafe s (List.mem_append_left _ hs)
      have hc := hsafe _ (List.mem_append_right _ (List.mem_singleton_self _))
      obtain ⟨o', Q', heq, hagree', heffect⟩ := exec_spec hQ hc
      rw [step, Option.some_inj] at heq
      subst heq
      have hlife := heffect.life hQ
      refine ⟨⟨Q', hagree'⟩, ?_, fun p hp hf => ?_⟩
      · have hstep := hlk.step hlife
        simpa [destroyedPids, List.append_assoc] using hstep
      · have hnew : destroyedPids (steps ++ [⟨k, c, o⟩]) =
            destroyedPids steps ++ o.destroyed.map k.pid := by
          simp [destroyedPids]
        have hdisp : dispatchedPids (steps ++ [⟨k, c, o⟩]) =
            dispatchedPids steps ++ (o.dispatched.map k.pid).toList := by
          cases ho : o.dispatched <;> simp [dispatchedPids, ho]
        obtain ⟨hnot, hd | ⟨ha, hpid, hs⟩⟩ := hfate p hp hf
        · refine ⟨?_, Or.inl (hnew ▸ List.mem_append_left _ hd)⟩
          rw [hdisp, List.mem_append, not_or]
          refine ⟨hnot, fun hm => ?_⟩
          obtain ⟨n, hn, hpn⟩ := Option.map_eq_some_iff.mp (Option.mem_toList.mp hm)
          refine hlk.gone n (hlife.dispatched n hn).1 ?_
          exact hpn ▸ List.mem_append_right _ hd
        · obtain ⟨hgo, hother⟩ := hlife.fate hlk ha hs
          rw [hpid] at hgo hother
          refine ⟨?_, ?_⟩
          · rw [hdisp, List.mem_append, not_or]
            refine ⟨hnot, fun hm => ?_⟩
            obtain ⟨n, hn, hpn⟩ := Option.map_eq_some_iff.mp (Option.mem_toList.mp hm)
            exact hother n hn hpn
          · rw [hnew, List.mem_append]
            exact hgo.imp Or.inr id

theorem initScheduler_lives {pcb stack : ℕ} (h : initScheduler bootKernel pcb stack = some k₀) :
    Lives k₀ [] := by
  unfold initScheduler at h
  rcases processCreate_spec
    (k := { bootKernel with
      nextPid := 1
      queues := fun _ => ⟨0, 0, 0⟩ }) (fun _ _ => rfl) (fun _ => rfl)
    ⟨1, 0, 0, false, 0, 0, pcb, stack⟩ with heq | ⟨hp, heq⟩ | ⟨hp, fdp, heq⟩
  · simp only [heq, Option.bind_eq_bind, Option.bind_some, Option.some_inj] at h
    subst h
    constructor <;> simp [bootKernel]
  · simp only [heq, Option.bind_eq_bind, Option.bind_some, Option.some_inj] at h
    subst h
    constructor <;> simp [bootKernel, clearPcb]
  · simp only [heq, Option.bind_eq_bind, Option.bind_some, Option.some_inj] at h
    rw [if_pos hp] at h
    subst h
    have hone : ∀ p, update bootKernel.allocated pcb true p = true → p = pcb := by
      intro p hpa
      by_contra hne
      simp [hne, bootKernel] at hpa
    refine ⟨fun p q hpa hqa _ => (hone p hpa).trans (hone q hqa).symm, fun p hpa => ?_, ?_,
      List.nodup_nil, fun _ _ => List.not_mem_nil⟩
    · have hpp := hone p hpa
      subst hpp
      simp [bootKernel]
    · simp

/-- In every run of safe calls, a process that has finished is never dispatched again and
stays finished until it is destroyed, and no process is destroyed twice. -/
theorem finished_until_destroyed {pcb stack : ℕ} (hpcb : pcb < addressCount)
    (hinit : initScheduler bootKernel pcb stack = some k₀) (run₁ : Run k₀ before k₁)
    (run₂ : Run k₁ after k₂) (hsafe : ∀ s ∈ before ++ after, QueueSafe s.before s.call) :
    FinishedIsFinal k₁ after k₂ ∧ (destroyedPids (before ++ after)).Nodup := by
  obtain ⟨hagree, hlives, -⟩ := run₁.lives (fun s hs => hsafe s (List.mem_append_left _ hs))
    ⟨_, initScheduler_agree hpcb hinit⟩ (initScheduler_lives hinit)
  obtain ⟨-, hlives', hfinal⟩ := run₂.lives (fun s hs => hsafe s (List.mem_append_right _ hs))
    hagree hlives
  refine ⟨hfinal, ?_⟩
  have hnodup := hlives'.nodup
  rwa [List.nil_append, destroyedPids, destroyedPids, ← List.flatMap_append] at hnodup

/-- The theorem at a run: the shell ends and is collected by the next tick. -/
theorem finished_until_destroyed_shell :
    ∃ k₀ before k₁ after k₂, initScheduler bootKernel 16 8192 = some k₀ ∧ Run k₀ before k₁ ∧
      Run k₁ after k₂ ∧ k₁.state 48 = .finished ∧ destroyedPids after = [2] ∧
      FinishedIsFinal k₁ after k₂ ∧ (destroyedPids (before ++ after)).Nodup := by
  have hlt : 48 < addressCount := by
    unfold addressCount
    decide
  have hcalc : ((initScheduler bootKernel 16 8192).bind fun k₀ =>
      (exec k₀ (.spawn ⟨1, 0, 2, true, 0, 0, 48, 12288⟩)).bind fun o₁ =>
        (exec o₁.kernel (.tick ⟨0, fun _ => 0⟩)).bind fun o₂ =>
          (exec o₂.kernel .finishCurrent).bind fun o₃ =>
            (exec o₃.kernel (.tick ⟨0, fun _ => 0⟩)).map fun o₄ =>
              ((k₀.allocated 48, o₁.kernel.state o₁.kernel.current,
                o₂.kernel.state o₂.kernel.current, o₃.kernel.state 48),
                o₃.kernel.current, o₃.kernel.waitersHead 48, o₄.destroyed.map o₃.kernel.pid)) =
        some ((false, .running, .running, .finished), 48, 0, [2]) := by
    decide +kernel
  obtain ⟨k₀, hinit, h₁⟩ := Option.bind_eq_some_iff.mp hcalc
  obtain ⟨o₁, hspawn, h₂⟩ := Option.bind_eq_some_iff.mp h₁
  obtain ⟨o₂, htick, h₃⟩ := Option.bind_eq_some_iff.mp h₂
  obtain ⟨o₃, hexit, h₄⟩ := Option.bind_eq_some_iff.mp h₃
  obtain ⟨o₄, hlast, h₅⟩ := Option.map_eq_some_iff.mp h₄
  simp only [Prod.mk.injEq] at h₅
  obtain ⟨⟨hfree, hidle, hrunning, hfinished⟩, hcur, hwaiters, hdead⟩ := h₅
  have run₁ : Run k₀ [⟨k₀, _, o₁⟩, ⟨o₁.kernel, _, o₂⟩, ⟨o₂.kernel, _, o₃⟩] o₃.kernel :=
    .cons hspawn (.cons htick (.cons hexit .nil))
  have run₂ : Run o₃.kernel [⟨o₃.kernel, _, o₄⟩] o₄.kernel := .cons hlast .nil
  refine ⟨k₀, _, o₃.kernel, _, o₄.kernel, hinit, run₁, run₂, hfinished,
    by simp [destroyedPids, hdead], finished_until_destroyed (by omega) hinit run₁ run₂ ?_⟩
  intro s hs
  simp only [List.cons_append, List.nil_append, List.mem_cons, List.not_mem_nil, or_false] at hs
  rcases hs with rfl | rfl | rfl | rfl
  · exact ⟨fun _ => ⟨hlt, hfree⟩, fun h => absurd rfl h⟩
  · intro _ hf
    exact absurd (hidle.symm.trans hf) (by decide)
  · change o₂.kernel.state o₂.kernel.current ≠ .ready
    rw [hrunning]
    decide
  · intro _ _
    refine ⟨[], ?_, fun w hw => absurd hw List.not_mem_nil⟩
    rw [hcur, hwaiters, LinkedList.Chain.nil_iff]

/-- The shell kills its child and then unblocks it: the finished child is ready, and the
next yield dispatches it. -/
theorem unblocked_after_kill :
    ∃ k₀ before k₁ after k₂, initScheduler bootKernel 16 8192 = some k₀ ∧ Run k₀ before k₁ ∧
      Run k₁ after k₂ ∧
      before.map Step.call =
        [.spawn ⟨1, 0, 2, true, 0, 0, 48, 12288⟩, .tick ⟨0, fun _ => 0⟩,
          .spawn ⟨1, 48, 2, false, 0, 0, 64, 32768⟩, .killByPid 3] ∧
      after.map Step.call = [.unblockByPid 3, .yield ⟨0, fun _ => 0⟩] ∧
      ¬FinishedIsFinal k₁ after k₂ := by
  have hcalc : ((initScheduler bootKernel 16 8192).bind fun k₀ =>
      (execAll k₀ [.spawn ⟨1, 0, 2, true, 0, 0, 48, 12288⟩, .tick ⟨0, fun _ => 0⟩,
        .spawn ⟨1, 48, 2, false, 0, 0, 64, 32768⟩, .killByPid 3]).bind fun k₁ =>
          (exec k₁ (.unblockByPid 3)).bind fun o₁ =>
            (exec o₁.kernel (.yield ⟨0, fun _ => 0⟩)).map fun o₂ =>
              ((k₁.allocated 64, k₁.state 64, k₁.pid 64), (o₁.kernel.state 64, o₁.kernel.pid 64),
                o₁.dispatched, o₂.dispatched)) =
        some ((true, .finished, 3), (.ready, 3), none, some 64) := by
    decide +kernel
  obtain ⟨k₀, hinit, h₁⟩ := Option.bind_eq_some_iff.mp hcalc
  obtain ⟨k₁, hall, h₂⟩ := Option.bind_eq_some_iff.mp h₁
  obtain ⟨o₁, hunblock, h₃⟩ := Option.bind_eq_some_iff.mp h₂
  obtain ⟨o₂, hyield, h₄⟩ := Option.map_eq_some_iff.mp h₃
  obtain ⟨before, run, hcalls⟩ := Run.of_execAll hall
  simp only [Prod.mk.injEq] at h₄
  obtain ⟨⟨halloc, hfinished, hpid⟩, ⟨-, hpid'⟩, hnone, hdisp⟩ := h₄
  refine ⟨k₀, before, k₁, [⟨k₁, _, o₁⟩, ⟨o₁.kernel, _, o₂⟩], o₂.kernel, hinit, run,
    .cons hunblock (.cons hyield .nil), hcalls, rfl, fun hfinal => ?_⟩
  refine (hfinal 64 halloc hfinished).1 ?_
  simp [dispatchedPids, hnone, hdisp, hpid, hpid']

end Runs
end SoKernel
