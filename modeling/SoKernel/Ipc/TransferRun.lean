import SoKernel.Ipc.TransferEffects

/-!
# Steps of the machine

Every step of a process, and every context switch, on the represented semaphores and the
table of pipes. A run keeps the semaphores represented, so that the results about runs use
the effects below only.
-/

namespace SoKernel

open Function (update)

variable {k k' k₁ : Kernel} {V V' : Sems} {c : IpcCall} {r : Reply} {ch : Choice} {a : ℕ}
  {s : CountingSemaphore ℕ}

section Effects

/-- What a call that does not block changes. -/
inductive IpcEffect (k : Kernel) (V : Sems) (k' : Kernel) (V' : Sems) : IpcCall → Reply → Prop
  | semAlloc {v : ℤ} {r : Reply} (grown : Grown V V') (pipes : k'.pipes = k.pipes)
      (next : k'.nextPipeId = k.nextPipeId) (state : k'.state = k.state) :
      IpcEffect k V k' V' (.semAlloc v) r
  | semOpen {id : ℕ} {r : Reply} (aside : Aside k k') (state : k'.state = k.state)
      (sems : V' = V) : IpcEffect k V k' V' (.semOpen id) r
  | semClose {id : ℕ} {r : Reply} (own : ¬PipeSem k id) (aside : Aside k k')
      (state : k'.state = k.state) (sems : Dropped [id] V V') : IpcEffect k V k' V' (.semClose id) r
  | semMissing {id : ℕ} (none : V id = none) (kernel : k' = k) (sems : V' = V) :
      IpcEffect k V k' V' (.semWait id) (.value 0)
  | semTaken {id : ℕ} {s : CountingSemaphore ℕ} (own : ¬PipeSem k id) (entry : V id = some s)
      (pos : 0 < s.value) (aside : Aside k k') (state : k'.state = k.state)
      (sems : V' = update V id (some s.take)) : IpcEffect k V k' V' (.semWait id) (.value 1)
  | semSignal {id : ℕ} {r : Reply} (own : ¬PipeSem k id) (aside : Aside k k')
      (state : k'.state = setAll (V.first id) .ready k.state) (sems : V' = V.signal id) :
      IpcEffect k V k' V' (.semSignal id) r
  | semSetFailed {id : ℕ} {v : ℤ} {r : Reply} (kernel : k' = k) (sems : V' = V) :
      IpcEffect k V k' V' (.semSet id v) r
  | semSet {id : ℕ} {v : ℤ} {r : Reply} {s : CountingSemaphore ℕ} (own : ¬PipeSem k id)
      (entry : V id = some s) (aside : Aside k k')
      (state : k'.state = setAll (s.queue.take v.toNat) .ready k.state)
      (sems : V' = update V id (some (s.set v.toNat))) : IpcEffect k V k' V' (.semSet id v) r
  | pipeCreate {id : ℕ} (grown : Grown V V') (effect : CreateEffect k V k' V' id)
      (state : k'.state = k.state) : IpcEffect k V k' V' .pipeCreate (.value id)
  | pipeMissing {id : ℕ} {isWriter : Bool} {r : Reply} (none : pipeGetById k id = none)
      (kernel : k' = k) (sems : V' = V) : IpcEffect k V k' V' (.pipeOpen id isWriter) r
  | pipeOpen {id i : ℕ} {isWriter : Bool} {r : Reply} (found : pipeGetById k id = some i)
      (aside : Aside (setPipe k i ((k.pipes i).opened isWriter)) k') (state : k'.state = k.state)
      (sems : V' = V) : IpcEffect k V k' V' (.pipeOpen id isWriter) r
  | pipeClose {id : ℕ} {isWriter : Bool} {r : Reply} (effect : CloseEffect k V id isWriter k' V') :
      IpcEffect k V k' V' (.pipeClose id isWriter) r
  | readTurn {i n : ℕ} {r : Reply} (bound : i < maxPipes) (effect : ReadEffect k V i n k' V' r) :
      IpcEffect k V k' V' (.readTurn i n) r
  | writeTurn {i : ℕ} {b : UInt8} {r : Reply} (bound : i < maxPipes)
      (effect : WriteEffect k V i b k' V' r) : IpcEffect k V k' V' (.writeTurn i b) r

/-- The semaphore for which a call blocks, with what the call has seen before. -/
def WaitsFor (k : Kernel) : IpcCall → ℕ → Prop
  | .semWait id, a => a = id ∧ ¬PipeSem k id
  | .readTurn i n, a => a = (k.pipes i).semItems ∧ i < maxPipes ∧ (k.pipes i).used = true ∧
      (k.pipes i).count = 0 ∧ (k.pipes i).writers ≠ 0 ∧ n = 0
  | .writeTurn i _, a => a = (k.pipes i).semSpaces ∧ i < maxPipes ∧ (k.pipes i).used = true ∧
      ¬(k.pipes i).count < pipeBufferSize ∧ (k.pipes i).readers ≠ 0
  | _, _ => False

/-- The processes stay and pipes are numbered upwards. -/
structure Steers (k k' : Kernel) : Prop where
  current : k'.current = k.current
  idleP : k'.idleP = k.idleP
  nextPipeId : k.nextPipeId ≤ k'.nextPipeId

theorem Aside.steers (h : Aside k k') : Steers k k' :=
  ⟨h.current, h.idleP, h.nextPipeId.ge⟩

theorem Aside.steers_setPipe {i : ℕ} {q : Pipe} (h : Aside (setPipe k i q) k') : Steers k k' :=
  ⟨h.current, h.idleP, h.nextPipeId.ge⟩

/-- The tables do not change when a semaphore changes that belongs to no pipe. -/
theorem Sound.user (h : Sound k V) {id : ℕ} (hown : ¬PipeSem k id) (hrep : Represents k' V')
    (haside : Aside k k') (hother : ∀ a, a ≠ id → V' a = V a)
    (hqueue : ∀ t, V' id = some t → k.current ∉ t.queue) (halive : ∀ p, k'.state p ≠ .finished) :
    Sound k' V' := by
  have hkept : ∀ i < maxPipes, (k.pipes i).used = true → ∀ a ∈ (k.pipes i).semIds, V' a = V a :=
    fun i hi hu a ha => hother a fun he => hown (he ▸ pipeSem_iff.mpr ⟨i, hi, hu, ha⟩)
  refine ⟨hrep, ?_, ?_, fun a t ht => ?_, halive⟩
  · refine h.tables.of_sems hrep haside.pipes haside.nextPipeId (fun i hi hu a ha => ?_) fun i hi hu => ?_
    · rw [hkept i hi hu a ha]
      obtain ⟨s, hs⟩ := h.held (pipeSem_iff.mpr ⟨i, hi, hu, ha⟩)
      simp [hs]
    · rw [hkept i hi hu _ (by simp [Pipe.semIds])]
      exact h.mutex hi hu
  · rw [haside.pipes]
    exact h.vacant
  · rw [haside.current]
    by_cases ha : a = id
    · exact hqueue t (ha ▸ ht)
    · rw [hother a ha] at ht
      exact h.away a t ht

theorem aside_semaphores (k : Kernel) (sems : ℕ → Semaphore) : Aside k { k with semaphores := sems } :=
  ⟨⟨rfl, rfl, rfl, rfl⟩, ⟨rfl, rfl, rfl⟩, rfl⟩

theorem CreateEffect.nextPipeId_le {id : ℕ} (h : CreateEffect k V k' V' id) :
    k.nextPipeId ≤ k'.nextPipeId := by
  cases h with
  | full _ next => exact next.ge
  | failed _ _ _ _ _ _ next => exact next.ge
  | created _ _ _ _ next =>
      rw [next]
      exact Nat.le_succ _

/-- A call that blocks, or what it does when it does not. -/
theorem Sound.exec (h : Sound k V) (hc : Caller k) (hp : IpcPromise k c)
    (hexec : ipcExec k c = some (k', r)) :
    (r ≠ .blocked ∧ Steers k k' ∧ ∃ V', Sound k' V' ∧ IpcEffect k V k' V' c r) ∨
      r = .blocked ∧ ∃ a s, WaitsFor k c a ∧ Queued k V a s k' := by
  cases c with
  | semAlloc v =>
      simp only [ipcExec, Option.some.injEq, Prod.mk.injEq] at hexec
      obtain ⟨rfl, rfl⟩ := hexec
      rcases h.sems.alloc v with heq | ⟨hfresh, sems, heq, hrep⟩
      · rw [heq]
        exact Or.inl ⟨by simp, ⟨rfl, rfl, le_rfl⟩, V, h, .semAlloc (.refl V) rfl rfl rfl⟩
      · rw [heq]
        have hg : Grown V _ := Grown.update (v := v) hfresh
        refine Or.inl ⟨by simp, ⟨rfl, rfl, le_rfl⟩, _, ⟨hrep, ?_, h.vacant, h.away.grown hg rfl, h.alive⟩,
          .semAlloc hg rfl rfl rfl⟩
        refine h.tables.of_sems hrep rfl rfl (fun i hi hu a ha => ?_) fun i hi hu => ?_
        · obtain ⟨s, hs⟩ := h.held (pipeSem_iff.mpr ⟨i, hi, hu, ha⟩)
          rw [hg.old a s hs]
          simp
        · obtain ⟨w, hpos, hw⟩ := h.mutex hi hu
          exact ⟨w, hpos, hg.old _ _ hw⟩
  | semOpen id =>
      simp only [ipcExec, Option.some.injEq, Prod.mk.injEq] at hexec
      obtain ⟨rfl, rfl⟩ := hexec
      obtain ⟨hrep, sems, heq⟩ := h.sems.open id
      have haside : Aside k (semOpenById k id).2 := heq ▸ aside_semaphores k sems
      have hstate : (semOpenById k id).2.state = k.state := by rw [heq]
      refine Or.inl ⟨by simp, haside.steers, V, ?_, .semOpen haside hstate rfl⟩
      exact h.user hp hrep haside (fun _ _ => rfl) (fun t ht => h.away id t ht) (hstate ▸ h.alive)
  | semClose id =>
      simp only [ipcExec, Option.some.injEq, Prod.mk.injEq] at hexec
      obtain ⟨rfl, rfl⟩ := hexec
      obtain ⟨V', hrep, hdrop⟩ := h.sems.closeAt id
      obtain ⟨sems, heq, -⟩ := semCloseById_kept k id
      have haside : Aside k (semCloseById k id).2 := heq ▸ aside_semaphores k sems
      have hstate : (semCloseById k id).2.state = k.state := by rw [heq]
      refine Or.inl ⟨by simp, haside.steers, V', ?_, .semClose hp haside hstate hdrop⟩
      exact h.user hp hrep haside (fun a ha => hdrop.1 a fun hm => ha (List.mem_singleton.mp hm))
        (fun t ht => h.away id t (hdrop.some ht)) (hstate ▸ h.alive)
  | semWait id =>
      rw [ipcExec] at hexec
      have hmutex : ∀ i < maxPipes, (k.pipes i).used = true → (k.pipes i).mutex ≠ id :=
        fun i hi hu he => hp ⟨i, hi, hu, Or.inr (Or.inr he.symm)⟩
      cases hs : V id with
      | none =>
          have hstart : semWaitStart k id = (k, .failed) := by
            rw [semWaitStart, h.sems.missing.mpr hs]
          rw [hstart] at hexec
          simp only [Option.some.injEq, Prod.mk.injEq] at hexec
          obtain ⟨rfl, rfl⟩ := hexec
          exact Or.inl ⟨by simp, ⟨rfl, rfl, le_rfl⟩, V, h, .semMissing hs rfl rfl⟩
      | some s =>
          by_cases hpos : 0 < s.value
          · obtain ⟨j, hstart, hsound⟩ := h.take hs hc.1 hpos hmutex
            rw [hstart] at hexec
            simp only [Option.some.injEq, Prod.mk.injEq] at hexec
            obtain ⟨rfl, rfl⟩ := hexec
            exact Or.inl ⟨by simp, ⟨rfl, rfl, le_rfl⟩, _, hsound,
              .semTaken hp hs hpos (aside_semaphores k _) rfl rfl⟩
          · obtain ⟨hstart, hqueued⟩ := h.enqueue hc hs hpos hmutex
            rw [show semWaitStart k id = ((semWaitStart k id).1, .queued) from Prod.ext rfl hstart] at hexec
            simp only [Option.some.injEq, Prod.mk.injEq] at hexec
            obtain ⟨rfl, rfl⟩ := hexec
            exact Or.inr ⟨rfl, id, s, ⟨rfl, hp⟩, hqueued⟩
  | semSignal id =>
      rw [ipcExec] at hexec
      obtain ⟨⟨n, w, k₁⟩, hsig, hlast⟩ := Option.map_eq_some_iff.mp hexec
      simp only [Prod.mk.injEq] at hlast
      obtain ⟨rfl, rfl⟩ := hlast
      obtain ⟨hsound, haside, hstate⟩ := h.signal (show semSignal k id = some k₁ by rw [semSignal, hsig]; rfl)
      exact Or.inl ⟨by simp, haside.steers, _, hsound, .semSignal hp haside hstate rfl⟩
  | semSet id v =>
      rw [ipcExec] at hexec
      obtain ⟨⟨n, ws, k₁⟩, hset, hlast⟩ := Option.map_eq_some_iff.mp hexec
      simp only [Prod.mk.injEq] at hlast
      obtain ⟨rfl, rfl⟩ := hlast
      rcases h.sems.set hset with ⟨-, rfl, -⟩ | ⟨s, hs, hv, rfl, hrep, haside, hstate⟩
      · exact Or.inl ⟨by simp, ⟨rfl, rfl, le_rfl⟩, V, h, .semSetFailed rfl rfl⟩
      · refine Or.inl ⟨by simp, haside.steers, _, ?_, .semSet hp hs haside hstate rfl⟩
        refine h.user hp hrep haside (fun a ha => Function.update_of_ne ha _ _) (fun t ht => ?_) ?_
        · rw [Function.update_self, Option.some_inj] at ht
          rw [← ht]
          exact fun hm => h.away id s hs (List.mem_of_mem_drop hm)
        · rw [hstate]
          exact fun p hs => h.alive p (of_setAll_ready hs)
  | pipeCreate =>
      simp only [ipcExec, Option.some.injEq, Prod.mk.injEq] at hexec
      obtain ⟨rfl, rfl⟩ := hexec
      obtain ⟨V', hsound, hg, heffect, hcur, hidle, hstate⟩ := h.pipeCreate (r := (SoKernel.pipeCreate k).1) rfl
      exact Or.inl ⟨by simp, ⟨hcur, hidle, heffect.nextPipeId_le⟩, V', hsound, .pipeCreate hg heffect hstate⟩
  | pipeOpen id isWriter =>
      rw [ipcExec] at hexec
      obtain ⟨⟨n, k₁⟩, hopen, hlast⟩ := Option.map_eq_some_iff.mp hexec
      simp only [Prod.mk.injEq] at hlast
      obtain ⟨rfl, rfl⟩ := hlast
      rcases h.pipeOpen hc.1 hopen with ⟨hnone, -, rfl⟩ | ⟨i, hfound, -, hsound, haside, hstate⟩
      · exact Or.inl ⟨by simp, ⟨rfl, rfl, le_rfl⟩, V, h, .pipeMissing hnone rfl rfl⟩
      · exact Or.inl ⟨by simp, haside.steers_setPipe, V, hsound, .pipeOpen hfound haside hstate rfl⟩
  | pipeClose id isWriter =>
      rw [ipcExec] at hexec
      obtain ⟨⟨n, k₁⟩, hclose, hlast⟩ := Option.map_eq_some_iff.mp hexec
      simp only [Prod.mk.injEq] at hlast
      obtain ⟨rfl, rfl⟩ := hlast
      obtain ⟨V', hsound, heffect⟩ := h.pipeClose hc.1 hclose
      refine Or.inl ⟨by simp, ?_, V', hsound, .pipeClose heffect⟩
      cases heffect with
      | missing _ kernel =>
          subst kernel
          exact ⟨rfl, rfl, le_rfl⟩
      | closed _ _ _ _ _ aside => exact aside.steers_setPipe
      | destroyed _ _ _ aside => exact aside.steers_setPipe
  | readTurn i n =>
      rcases h.readTurn hc hp hexec with ⟨hr, V', hsound, heffect⟩ | ⟨rfl, hu, hcount, hwriters, hn, s, hqueued⟩
      · refine Or.inl ⟨hr, ?_, V', hsound, .readTurn hp heffect⟩
        cases heffect with
        | gone _ kernel =>
            subst kernel
            exact ⟨rfl, rfl, le_rfl⟩
        | ended _ _ _ aside => exact aside.steers
        | moved _ _ aside => exact aside.steers_setPipe
        | again _ _ _ _ _ aside => exact aside.steers
      · exact Or.inr ⟨rfl, _, s, ⟨rfl, hp, hu, hcount, hwriters, hn⟩, hqueued⟩
  | writeTurn i b =>
      rcases h.writeTurn hc hp hexec with ⟨hr, V', hsound, heffect⟩ | ⟨rfl, hu, hreaders, hfull, s, hqueued⟩
      · refine Or.inl ⟨hr, ?_, V', hsound, .writeTurn hp heffect⟩
        cases heffect with
        | gone _ kernel =>
            subst kernel
            exact ⟨rfl, rfl, le_rfl⟩
        | ended _ _ aside => exact aside.steers
        | moved _ _ _ aside => exact aside.steers_setPipe
        | again _ _ _ _ _ _ aside => exact aside.steers
      · exact Or.inr ⟨rfl, _, s, ⟨rfl, hp, hu, hfull, hreaders⟩, hqueued⟩

end Effects

section Switches

/-- What a context switch leaves as it is. -/
structure Handed (k k' : Kernel) : Prop where
  pipes : k'.pipes = k.pipes
  nextPipeId : k'.nextPipeId = k.nextPipeId
  idleP : k'.idleP = k.idleP
  blocked : ∀ p, k'.state p = .blocked → k.state p = .blocked

theorem switchBy_handed (halive : k.state k.current ≠ .finished) (hdead : ch.dead = [])
    (hp : SwitchPromise k ch) (hsw : switchBy k ch = some k') :
    Handed k k' ∧ ((∀ p, k.state p ≠ .finished) → ∀ p, k'.state p ≠ .finished) := by
  obtain ⟨⟨sched, rfl⟩, -⟩ := switchBy_alive halive hdead hp hsw
  have hstate : ∀ p, update (savedState k k.current []) ch.next .running p = .running ∨
      update (savedState k k.current []) ch.next .running p = .ready ∨
      update (savedState k k.current []) ch.next .running p = k.state p := by
    intro p
    by_cases hn : p = ch.next
    · exact Or.inl (by rw [hn, Function.update_self])
    · rw [Function.update_of_ne hn, savedState, setAll_nil]
      split
      · by_cases hpc : p = k.current
        · exact Or.inr (Or.inl (by rw [hpc, Function.update_self]))
        · exact Or.inr (Or.inr (by rw [Function.update_of_ne hpc]))
      · exact Or.inr (Or.inr rfl)
  refine ⟨⟨rfl, rfl, rfl, fun p hblocked => ?_⟩, fun h p => ?_⟩
  · dsimp only at hblocked
    rcases hstate p with he | he | he <;> rw [he] at hblocked
    · cases hblocked
    · cases hblocked
    · exact hblocked
  · dsimp only
    rcases hstate p with he | he | he <;> rw [he]
    · simp
    · simp
    · exact h p

theorem Sound.switch (h : Sound k V) (hdead : ch.dead = []) (hp : SwitchPromise k ch)
    (hsw : switchBy k ch = some k') : Sound k' V ∧ Handed k k' := by
  obtain ⟨hhanded, halive⟩ := switchBy_handed (h.alive _) hdead hp hsw
  obtain ⟨hrep, haway⟩ := h.sems.switch (h.alive _) hdead hp hsw
  refine ⟨⟨hrep, ?_, ?_, haway, halive h.alive⟩, hhanded⟩
  · refine h.tables.of_sems hrep hhanded.pipes hhanded.nextPipeId (fun i hi hu a ha => ?_)
      fun i hi hu => h.mutex hi hu
    obtain ⟨s, hs⟩ := h.held (pipeSem_iff.mpr ⟨i, hi, hu, ha⟩)
    simp [hs]
  · rw [hhanded.pipes]
    exact h.vacant

/-- The context switch of a caller that waits. -/
theorem Sound.block (h : Sound k V) (hq : Queued k V a s k₁) (hdead : ch.dead = [])
    (hp : SwitchPromise (schedulerBlockCurrent k₁) ch)
    (hsw : switchBy (schedulerBlockCurrent k₁) ch = some k') :
    Sound k' (update V a (some (s.enqueue k.current))) ∧ k'.pipes = k.pipes ∧
      k'.nextPipeId = k.nextPipeId ∧ k'.idleP = k.idleP ∧
      ∀ p, k'.state p = .blocked → p = k.current ∨ k.state p = .blocked := by
  have hstate : ∀ p, (schedulerBlockCurrent k₁).state p = .blocked ∧ p = k.current ∨
      (schedulerBlockCurrent k₁).state p = k.state p := by
    intro p
    rw [hq.state]
    by_cases hpc : p = k.current
    · exact Or.inl ⟨by rw [hpc, Function.update_self], hpc⟩
    · exact Or.inr (Function.update_of_ne hpc _ _)
  have halive : ∀ p, (schedulerBlockCurrent k₁).state p ≠ .finished := by
    intro p
    rcases hstate p with ⟨he, -⟩ | he <;> rw [he]
    · simp
    · exact h.alive p
  obtain ⟨hhanded, halive'⟩ := switchBy_handed (halive _) hdead hp hsw
  obtain ⟨hrep, haway⟩ := hq.represents.switch (halive _) hdead hp hsw
  have hpipes : k'.pipes = k.pipes := hhanded.pipes.trans hq.aside.pipes
  have hnext : k'.nextPipeId = k.nextPipeId := hhanded.nextPipeId.trans hq.aside.nextPipeId
  refine ⟨⟨hrep, ?_, ?_, haway, halive' halive⟩, hpipes, hnext, hhanded.idleP.trans hq.aside.idleP,
    fun p hblocked => ?_⟩
  · have T := hq.tables
    have hold : ∀ b t, V b = some t → ∃ u, update V a (some (s.enqueue k.current)) b = some u := by
      intro b t ht
      by_cases hba : b = a
      · exact ⟨_, by rw [hba, Function.update_self]⟩
      · exact ⟨t, by rw [Function.update_of_ne hba, ht]⟩
    refine T.of_sems hrep hhanded.pipes hhanded.nextPipeId (fun i hi hu b hb => ?_) fun i hi hu => ?_
    · rw [hq.aside.pipes] at hu hb
      obtain ⟨t, ht⟩ := h.held (pipeSem_iff.mpr ⟨i, hi, hu, hb⟩)
      obtain ⟨u, hu'⟩ := hold b t ht
      simp [hu']
    · obtain ⟨j, hj, hid, hused, hpos, hhead⟩ := T.mutex i hi hu
      obtain ⟨L, hL, hqueue⟩ := hq.represents.entry j hj hused
      rw [hqueue.head_eq_null.mp hhead, hid] at hL
      exact ⟨_, hpos, hL⟩
  · rw [hpipes]
    exact h.vacant
  · have hbefore := hhanded.blocked p hblocked
    rcases hstate p with ⟨-, he⟩ | he
    · exact Or.inl he
    · exact Or.inr (he ▸ hbefore)

theorem Sound.resched (h : Sound k V) (sched : Sched) : Sound (k.resched sched) V :=
  ⟨h.sems.congr rfl rfl rfl rfl rfl fun _ _ _ _ _ => rfl, h.tables, h.vacant, h.away, h.alive⟩

end Switches

section Steps

variable {σ : Type} {prog : Program σ} {m m' start : Ipc σ} {e : Option IpcEvent}

/-- What a step of the machine changes. -/
inductive StepEffect (prog : Program σ) (m : Ipc σ) (V : Sems) (m' : Ipc σ) (V' : Sems) :
    Option IpcEvent → Prop
  | call {c : IpcCall} {r : Reply} (next : Reply → σ) (caller : Caller m.kernel)
      (acts : prog m.kernel.current (m.thread m.kernel.current) c next)
      (promise : IpcPromise m.kernel c) (steers : Steers m.kernel m'.kernel)
      (effect : IpcEffect m.kernel V m'.kernel V' c r)
      (thread : m'.thread = update m.thread m.kernel.current (next r)) (runs : r ≠ .blocked) :
      StepEffect prog m V m' V' (some ⟨m.kernel.current, c, r⟩)
  | block {c : IpcCall} (next : Reply → σ) (a : ℕ) (s : CountingSemaphore ℕ)
      (caller : Caller m.kernel)
      (acts : prog m.kernel.current (m.thread m.kernel.current) c next)
      (waits : WaitsFor m.kernel c a) (entry : V a = some s) (empty : ¬0 < s.value)
      (sems : V' = update V a (some (s.enqueue m.kernel.current)))
      (pipes : m'.kernel.pipes = m.kernel.pipes)
      (nextPipeId : m'.kernel.nextPipeId = m.kernel.nextPipeId)
      (idleP : m'.kernel.idleP = m.kernel.idleP)
      (blocked : ∀ p, m'.kernel.state p = .blocked →
        p = m.kernel.current ∨ m.kernel.state p = .blocked)
      (thread : m'.thread = update m.thread m.kernel.current (next .blocked)) :
      StepEffect prog m V m' V' (some ⟨m.kernel.current, c, .blocked⟩)
  | switch (handed : Handed m.kernel m'.kernel) (sems : V' = V) (thread : m'.thread = m.thread) :
      StepEffect prog m V m' V' none

theorem IpcStep.effect (h : Sound m.kernel V) (step : IpcStep prog m e m') :
    ∃ V', Sound m'.kernel V' ∧ StepEffect prog m V m' V' e := by
  cases step with
  | call caller acts promise step runs =>
      rcases h.exec caller promise step with ⟨-, hsteers, V', hsound, heffect⟩ | ⟨hr, -⟩
      · exact ⟨V', hsound, .call _ caller acts promise hsteers heffect rfl runs⟩
      · exact absurd hr runs
  | block caller acts promise step pick nobody switch =>
      rcases h.exec caller promise step with ⟨hr, -⟩ | ⟨-, a, s, hwaits, hqueued⟩
      · exact absurd rfl hr
      · obtain ⟨hsound, hpipes, hnext, hidle, hblocked⟩ := h.block hqueued nobody pick switch
        exact ⟨_, hsound, .block _ a s caller acts hwaits hqueued.entry hqueued.empty rfl hpipes hnext
          hidle hblocked rfl⟩
  | switch pick nobody switch =>
      obtain ⟨hsound, hhanded⟩ := h.switch nobody pick switch
      exact ⟨V, hsound, .switch hhanded rfl rfl⟩
  | @resched sched =>
      exact ⟨V, h.resched sched, .switch ⟨rfl, rfl, rfl, fun _ hp => hp⟩ rfl rfl⟩

/-- An invariant of the machine and its represented semaphores that every step keeps holds at
the end of every run. -/
theorem IpcRun.invariant {I : List IpcEvent → Ipc σ → Sems → Prop} {trace : List IpcEvent}
    (run : IpcRun prog start trace m) (h : Sound start.kernel V) (hstart : I [] start V)
    (hstep : ∀ t m m' e V V', Sound m.kernel V → I t m V → StepEffect prog m V m' V' e →
      Sound m'.kernel V' → I (t ++ e.toList) m' V') :
    ∃ V', Sound m.kernel V' ∧ I trace m V' := by
  induction run with
  | nil => exact ⟨V, h, hstart⟩
  | snoc _ step ih =>
      obtain ⟨V₁, hsound₁, hI⟩ := ih
      obtain ⟨V₂, hsound₂, heffect⟩ := step.effect hsound₁
      exact ⟨V₂, hsound₂, hstep _ _ _ _ _ _ hsound₁ hI heffect hsound₂⟩

theorem IpcRunVia.invariant {ok : Ipc σ → Option IpcEvent → Ipc σ → Prop}
    {I : List IpcEvent → Ipc σ → Sems → Prop} {trace : List IpcEvent}
    (run : IpcRunVia prog ok start trace m) (h : Sound start.kernel V) (hstart : I [] start V)
    (hstep : ∀ t m m' e V V', Sound m.kernel V → I t m V → IpcStep prog m e m' →
      StepEffect prog m V m' V' e → ok m e m' → Sound m'.kernel V' → I (t ++ e.toList) m' V') :
    ∃ V', Sound m.kernel V' ∧ I trace m V' := by
  induction run with
  | nil => exact ⟨V, h, hstart⟩
  | snoc _ step meets ih =>
      obtain ⟨V₁, hsound₁, hI⟩ := ih
      obtain ⟨V₂, hsound₂, heffect⟩ := step.effect hsound₁
      exact ⟨V₂, hsound₂, hstep _ _ _ _ _ _ hsound₁ hI step heffect meets hsound₂⟩

end Steps
end SoKernel
