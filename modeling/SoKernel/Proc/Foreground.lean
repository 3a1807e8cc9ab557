import SoKernel.Proc.RealCalls

/-!
# The foreground process

The flag `is_foreground` is moved when a process asks for a foreground child, when such a
request fails, when a process dies, and when a wait returns. Each of these looks at one
process and its parent only. The condition under which exactly one live process has the
flag is stated here call by call.
-/

namespace SoKernel

open Function (update)

variable {k k' : Kernel} {p q : ℕ} {L : List ℕ} {ch : Choice}

section Condition

/-- A live process with the flag. -/
def HasForeground (k : Kernel) (p : ℕ) : Prop := Wakeable k p ∧ k.isForeground p = true

instance (k : Kernel) (p : ℕ) : Decidable (HasForeground k p) := inferInstanceAs (Decidable (_ ∧ _))

/-- The parent is another live process. -/
def LiveParent (k : Kernel) (p : ℕ) : Prop := Wakeable k (k.parent p) ∧ k.parent p ≠ p

/-- The foreground process has finished and waits for its last context switch, in which its
parent will get the flag. -/
def Exiting (k : Kernel) : Prop :=
  k.state k.current = .finished ∧ k.isForeground k.current = true ∧ ∀ p, ¬HasForeground k p

/-- The death of the process passes the flag on: a live process with the flag has a live
parent, and a dead one that is treated as dying once more leaves no second process with the
flag. -/
def HandsOver (k : Kernel) (p : ℕ) : Prop :=
  k.isForeground p = true → (Wakeable k p → LiveParent k p) ∧
    (¬Wakeable k p → Wakeable k (k.parent p) → ∀ q, HasForeground k q → q = k.parent p)

/-- The loop over the waiters of a process makes no dead process with the flag ready. -/
def WakesLiving (k : Kernel) (p : ℕ) : Prop :=
  ∀ L, WakeList k.waiterNext (k.waitersHead p) L →
    ∀ w ∈ L, k.isForeground w = true → w ≠ p ∧ k.state w ≠ .finished

/-- A process that is made ready or blocked has not finished, if it has the flag. -/
def NoRevival (k : Kernel) (p : ℕ) : Prop := k.isForeground p = true → k.state p ≠ .finished

/-- The calls that leave exactly one foreground process, judged in the state before the
call. -/
def ForegroundSafe (k : Kernel) : OpenCall → Prop
  | .createProcess r => r.isForeground = true → HasForeground k k.current
  | .exit => HasForeground k k.current → LiveParent k k.current
  | .kill p => HandsOver k p ∧ WakesLiving k p ∧ (Exiting k → p ≠ k.parent k.current)
  | .block p | .unblock p => NoRevival k p
  | .wait target _ =>
      (k.state target = .finished → k.isForeground target = true → k.isForeground k.current = true) ∧
        (k.state target ≠ .finished → NoRevival k k.current)
  | .waitReturn target => k.isForeground target = true → k.isForeground k.current = true
  | .semWait _ _ => NoRevival k k.current
  | .semSignal id => ∀ i, semGetById k id = some i → NoRevival k (k.semaphores i).waitHead
  | .semSet id v => ∀ i, semGetById k id = some i → ∀ w ∈ (releaseLoop i v.toNat k).1, NoRevival k w
  | .switch _ => k.state k.current = .finished → HandsOver k k.current ∧ WakesLiving k k.current
  | .semAlloc _ | .semOpen _ | .semClose _ | .resched _ => True

end Condition

section Invariant

/-- One live process has the flag, or the process that has it is about to pass it on. -/
def OneForeground (k : Kernel) : Prop :=
  (∃! p, HasForeground k p) ∨ Exiting k ∧ LiveParent k k.current

theorem OneForeground.single (h : ∀ p, HasForeground k p ↔ p = q) : OneForeground k :=
  Or.inl ⟨q, (h q).mpr rfl, fun p hp => (h p).mp hp⟩

theorem OneForeground.unique (h : OneForeground k) (hp : HasForeground k p) (hq : HasForeground k q) :
    q = p := by
  rcases h with hone | ⟨hexit, -⟩
  · exact hone.unique hq hp
  · exact absurd hp (hexit.2.2 p)

/-- A call that gives the flag to nobody and takes it from nobody. -/
theorem OneForeground.same (h : OneForeground k)
    (hflag : ∀ p, HasForeground k' p ↔ HasForeground k p)
    (hexit : Exiting k → LiveParent k k.current → k'.current = k.current ∧
      k'.state k.current = .finished ∧ k'.isForeground k.current = true ∧
      k'.parent k.current = k.parent k.current ∧ Wakeable k' (k.parent k.current)) :
    OneForeground k' := by
  rcases h with ⟨p, hp, hunique⟩ | ⟨he, hl⟩
  · exact Or.inl ⟨p, (hflag p).mpr hp, fun q hq => hunique q ((hflag q).mp hq)⟩
  · obtain ⟨hcur, hstate, hfg, hparent, hwake⟩ := hexit he hl
    refine Or.inr ⟨⟨?_, ?_, fun p hp => he.2.2 p ((hflag p).mp hp)⟩, ?_, ?_⟩
    · rw [hcur, hstate]
    · rw [hcur, hfg]
    · rw [hcur, hparent]
      exact hwake
    · rw [hcur, hparent]
      exact hl.2

theorem hasForeground_congr (ha : k'.allocated p = k.allocated p)
    (hf : k'.isForeground p = k.isForeground p)
    (hs : k.isForeground p = true → (k'.state p = .finished ↔ k.state p = .finished)) :
    HasForeground k' p ↔ HasForeground k p := by
  unfold HasForeground Wakeable
  rw [ha, hf]
  constructor
  · rintro ⟨⟨hal, hst⟩, hfg⟩
    exact ⟨⟨hal, fun h => hst ((hs hfg).mpr h)⟩, hfg⟩
  · rintro ⟨⟨hal, hst⟩, hfg⟩
    exact ⟨⟨hal, fun h => hst ((hs hfg).mp h)⟩, hfg⟩

/-- Some processes are made ready or blocked, and those with the flag were alive. -/
theorem OneForeground.restate (h : OneForeground k) {st : ProcessState} (hst : st ≠ .finished)
    (hL : ∀ w ∈ L, NoRevival k w) (ha : k'.allocated = k.allocated)
    (hf : k'.isForeground = k.isForeground) (hs : k'.state = setAll L st k.state)
    (hc : k'.current = k.current) (hp : k'.parent = k.parent) : OneForeground k' := by
  have hstate : ∀ p, k.isForeground p = true → (k'.state p = .finished ↔ k.state p = .finished) := by
    intro p hfg
    rw [hs]
    by_cases hm : p ∈ L
    · rw [setAll_of_mem _ _ hm]
      exact iff_of_false hst (hL p hm hfg)
    · rw [setAll_of_not_mem _ _ hm]
  refine h.same (fun p => hasForeground_congr (by rw [ha]) (by rw [hf]) (hstate p)) ?_
  intro he hl
  refine ⟨hc, (hstate _ he.2.1).mpr he.1, by rw [hf]; exact he.2.1, by rw [hp], by rw [ha]; exact hl.1.1, ?_⟩
  rw [hs]
  by_cases hm : k.parent k.current ∈ L
  · rw [setAll_of_mem _ _ hm]
    exact hst
  · rw [setAll_of_not_mem _ _ hm]
    exact hl.1.2

end Invariant

section Deaths

theorem takes_of_liveParent (ho : Orderly k) (hfg : k.isForeground p = true)
    (hl : Wakeable k (k.parent p)) : parentTakesForeground k p = true := by
  simp [parentTakesForeground, hfg, ho.valid _ hl.1, hl.2]

/-- What the death of a process, or a second one, does to the flags. -/
theorem flagsAfter_cases (ho : Orderly k) (p : ℕ) :
    k.isForeground p = true ∧ Wakeable k (k.parent p) ∧
        flagsAfter k p = update k.isForeground (k.parent p) true ∨
      (k.isForeground p = true → ¬Wakeable k (k.parent p)) ∧
        ∀ q, k.allocated q = true → flagsAfter k p q = k.isForeground q := by
  by_cases hlive : k.isForeground p = true ∧ Wakeable k (k.parent p)
  · refine Or.inl ⟨hlive.1, hlive.2, ?_⟩
    rw [flagsAfter, if_pos (takes_of_liveParent ho hlive.1 hlive.2)]
  · refine Or.inr ⟨fun hfg hw => hlive ⟨hfg, hw⟩, fun q hq => ?_⟩
    unfold flagsAfter
    split
    · rename_i htakes
      simp only [parentTakesForeground, Bool.and_eq_true, decide_eq_true_eq] at htakes
      -- the parent was destroyed, so that its flag does not count
      have hqp : q ≠ k.parent p := fun e => hlive ⟨htakes.1.1, e ▸ hq, htakes.2⟩
      rw [Function.update_of_ne hqp]
    · rfl

/-- The flag moves to the parent, and every process that still has it was alive before. -/
theorem OneForeground.moved {k' : Kernel} {a : ℕ} (hflags : k'.isForeground = update k.isForeground a true)
    (hwake : Wakeable k' a) (hold : ∀ q, q ≠ a → HasForeground k' q → HasForeground k q)
    (hno : ∀ q, HasForeground k q → q ≠ a → ¬Wakeable k' q) : OneForeground k' := by
  refine .single (q := a) fun q => ⟨fun hq => ?_, ?_⟩
  · by_contra hne
    exact hno q (hold q hne hq) hne hq.1
  · rintro rfl
    exact ⟨hwake, by rw [hflags, Function.update_self]⟩

theorem killed_oneForeground (ho : Orderly k) (h : OneForeground k) (hfound : Found k p)
    (hsafe : ForegroundSafe k (.kill p)) (hL : WakeList k.waiterNext (k.waitersHead p) L) (b : Bool) :
    OneForeground (killedKernel k p L (flagsAfter k p) b) := by
  obtain ⟨hover, hliving, hparent⟩ := hsafe
  have hwaiters := hliving L hL
  -- a process with the flag is dead afterwards if it is the killed one or was dead before
  have hstate : ∀ q, k.isForeground q = true →
      (setAll L .ready (update k.state p .finished) q = .finished ↔ q = p ∨ k.state q = .finished) := by
    intro q hfg
    by_cases hm : q ∈ L
    · obtain ⟨hqp, hqs⟩ := hwaiters q hm hfg
      rw [setAll_of_mem _ _ hm]
      simp [hqp, hqs]
    · rw [setAll_of_not_mem _ _ hm]
      by_cases hqp : q = p
      · simp [hqp]
      · simp [hqp]
  have hawake : ∀ q, q ≠ p → Wakeable k q →
      Wakeable (killedKernel k p L (flagsAfter k p) b) q := by
    intro q hqp hq
    refine ⟨hq.1, ?_⟩
    dsimp only
    by_cases hm : q ∈ L
    · rw [setAll_of_mem _ _ hm]
      simp
    · rw [setAll_of_not_mem _ _ hm, Function.update_of_ne hqp]
      exact hq.2
  have hkeep : (¬HasForeground k p) → (∀ q, k.allocated q = true →
      flagsAfter k p q = k.isForeground q) → (Exiting k → LiveParent k k.current → k.current ≠ p) →
      OneForeground (killedKernel k p L (flagsAfter k p) b) := by
    intro hdead hflags hcur
    have hsame : ∀ q, k.isForeground q = true → k.allocated q = true →
        (setAll L .ready (update k.state p .finished) q = .finished ↔ k.state q = .finished) := by
      intro q hfg hal
      rw [hstate q hfg]
      refine ⟨fun hq => hq.elim (fun hqp => ?_) id, Or.inr⟩
      by_contra hqs
      exact hdead (hqp ▸ ⟨⟨hal, hqs⟩, hfg⟩)
    refine h.same (fun q => ?_) fun he hl => ?_
    · constructor
      · rintro ⟨⟨hal, hst⟩, hfg⟩
        dsimp only at hal hst hfg
        rw [hflags q hal] at hfg
        exact ⟨⟨hal, fun hs => hst ((hsame q hfg hal).mpr hs)⟩, hfg⟩
      · rintro ⟨⟨hal, hst⟩, hfg⟩
        refine ⟨⟨hal, fun hs => hst ((hsame q hfg hal).mp hs)⟩, ?_⟩
        dsimp only
        rw [hflags q hal]
        exact hfg
    · have hqp := hcur he hl
      refine ⟨rfl, (hsame _ he.2.1 ho.current).mpr he.1, ?_, rfl, ?_⟩
      · dsimp only
        rw [hflags _ ho.current]
        exact he.2.1
      · exact hawake _ (Ne.symm (hparent he)) hl.1
  rcases flagsAfter_cases ho p with ⟨hfg, hlive, hflags⟩ | ⟨hnot, hflags⟩
  · have hpp : k.parent p ≠ p := by
      intro he
      by_cases hw : Wakeable k p
      · exact ((hover hfg).1 hw).2 he
      · exact hw (he ▸ hlive)
    refine .moved (a := k.parent p) hflags (hawake _ hpp hlive) ?_ ?_
    · rintro q hqa ⟨⟨hal, hst⟩, hq⟩
      dsimp only at hal hst hq
      rw [hflags, Function.update_of_ne hqa] at hq
      exact ⟨⟨hal, fun hs => hst ((hstate q hq).mpr (Or.inr hs))⟩, hq⟩
    · rintro q hq hqa hw
      by_cases hp : Wakeable k p
      · have hqp : q = p := h.unique ⟨hp, hfg⟩ hq
        exact hw.2 ((hstate q hq.2).mpr (Or.inl hqp))
      · exact hqa ((hover hfg).2 hp hlive q hq)
  · refine hkeep (fun hp => hnot hp.2 ((hover hp.2).1 hp.1).1) hflags fun he hl hcp => ?_
    subst hcp
    exact hnot he.2.1 hl.1

theorem Switched.isForeground (h : Switched k ch L k') : k'.isForeground =
    if k.state k.current = .finished then flagsAfter k k.current else k.isForeground := by
  obtain ⟨pa, fc, ns, ps, hshape⟩ := buryAll_shape (switchedBy k L ch.next) ch.dead
  rw [h.result, hshape]
  dsimp only
  by_cases hs : k.state k.current = .finished
  · rw [if_pos hs, flagsAfter, savesForeground, decide_eq_true hs, Bool.true_and]
  · rw [if_neg hs, savesForeground, decide_eq_false hs, Bool.false_and, if_neg (by simp)]

theorem savedState_finished_iff (hL : p ∈ L → k.state p ≠ .finished) :
    savedState k k.current L p = .finished ↔ k.state p = .finished := by
  unfold savedState
  split
  · rename_i hrun
    by_cases hp : p = k.current
    · rw [hp, Function.update_self, hrun.1]
      simp
    · rw [Function.update_of_ne hp]
  · by_cases hm : p ∈ L
    · rw [setAll_of_mem _ _ hm]
      exact iff_of_false (by simp) (hL hm)
    · rw [setAll_of_not_mem _ _ hm]

/-- A context switch ends no life, and wakes no dead process that is not among the woken
waiters. -/
theorem Switched.wakeable (ho : Orderly k) (h : Switched k ch L k')
    (hL : p ∈ L → k.state p ≠ .finished) : Wakeable k' p ↔ Wakeable k p := by
  have hiff := savedState_finished_iff hL
  rw [Wakeable, Wakeable, h.allocated, h.state]
  by_cases hm : p ∈ ch.dead
  · obtain ⟨-, hdead, -⟩ := h.dead p hm
    rw [setAll_of_mem _ _ hm]
    simp [hiff.mp hdead]
  · rw [setAll_of_not_mem _ _ hm]
    by_cases hn : p = ch.next
    · rw [hn, Function.update_self]
      refine and_congr_right fun _ => iff_of_true (by simp) ?_
      rw [← hn, ne_eq, ← hiff, hn]
      rcases h.next_ready with hr | hr
      · simp [hr]
      · rw [hr]
        exact fun hs => ho.idle.2 (of_savedState hs)
    · rw [Function.update_of_ne hn, ne_eq, hiff]

theorem switched_oneForeground (ho : Orderly k) (h : OneForeground k) (hsw : Switched k ch L k')
    (hsafe : ForegroundSafe k (.switch ch)) : OneForeground k' := by
  have hflags := hsw.isForeground
  by_cases hs : k.state k.current = .finished
  · obtain ⟨hover, hliving⟩ := hsafe hs
    rw [if_pos hs] at hflags
    have hwoken : WakeList k.waiterNext (k.waitersHead k.current) L := by
      have hw := hsw.woken
      rwa [Woken, if_pos hs] at hw
    have hwake : ∀ q, k.isForeground q = true → (Wakeable k' q ↔ Wakeable k q) :=
      fun q hq => hsw.wakeable ho fun hm => (hliving L hwoken q hm hq).2
    have hdead : ¬Wakeable k k.current := fun hw => hw.2 hs
    rcases flagsAfter_cases ho k.current with ⟨hfg, hlive, hmoved⟩ | ⟨hnot, hkept⟩
    · rw [hmoved] at hflags
      refine .moved (a := k.parent k.current) hflags ?_ ?_ ?_
      · exact (hsw.wakeable ho fun _ => hlive.2).mpr hlive
      · rintro q hqa ⟨hw, hq⟩
        rw [hflags, Function.update_of_ne hqa] at hq
        exact ⟨(hwake q hq).mp hw, hq⟩
      · intro q hq hqa _
        exact hqa ((hover hfg).2 hdead hlive q hq)
    · refine h.same (fun q => ?_) fun he hl => absurd hl.1 (hnot he.2.1)
      constructor
      · rintro ⟨hw, hq⟩
        rw [hflags, hkept q (hsw.allocated_before hw.1)] at hq
        exact ⟨(hwake q hq).mp hw, hq⟩
      · rintro ⟨hw, hq⟩
        refine ⟨(hwake q hq).mpr hw, ?_⟩
        rw [hflags, hkept q hw.1]
        exact hq
  · rw [if_neg hs] at hflags
    have hnil : L = [] := by
      have hw := hsw.woken
      rwa [Woken, if_neg hs] at hw
    refine h.same (fun q => ?_) fun he => absurd he.1 hs
    unfold HasForeground
    rw [hflags, hsw.wakeable ho (by rw [hnil]; simp)]

end Deaths

section Steps

/-- The caller blocks and another process is dispatched. -/
theorem blocked_oneForeground (ho : Orderly k.blockCurrent) (h : OneForeground k)
    (hsafe : NoRevival k k.current) (hsw : Switched k.blockCurrent ch L k') : OneForeground k' := by
  have hblocked : OneForeground k.blockCurrent := by
    refine h.restate (L := [k.current]) (show ProcessState.blocked ≠ .finished by simp) ?_ rfl rfl ?_ rfl rfl
    · intro w hw
      rw [List.mem_singleton.mp hw]
      exact hsafe
    · rw [setAll_cons, setAll_nil]
  refine switched_oneForeground ho hblocked hsw fun hs => ?_
  dsimp only at hs
  rw [Function.update_self] at hs
  cases hs

/-- A created process. -/
theorem created_oneForeground (ho : Orderly k) (h : OneForeground k) {r : SpawnRequest}
    (hvalid : ValidRequest k { r with parent := k.current }) (hpcb : r.pcb ≠ 0)
    (hsafe : ForegroundSafe k (.createProcess r)) (pr : Priority) (fdp : ℕ → ℕ → Option ℕ) :
    OneForeground (createdKernel { k with isForeground := yieldedFlags k r }
      { r with parent := k.current } pr fdp) := by
  have hfree : k.allocated r.pcb = false := (hvalid.1 hpcb).2
  have hne : ∀ q, k.allocated q = true → q ≠ r.pcb := by
    rintro q hq rfl
    rw [hq] at hfree
    cases hfree
  have hold : ∀ q, q ≠ r.pcb → ∀ fg, (createdKernel { k with isForeground := fg }
      { r with parent := k.current } pr fdp).isForeground q = fg q ∧
      (Wakeable (createdKernel { k with isForeground := fg } { r with parent := k.current } pr fdp) q ↔
        Wakeable k q) := by
    intro q hq fg
    simp only [Wakeable, Function.update_of_ne hq, and_self]
  rcases Bool.eq_false_or_eq_true r.isForeground with hfg | hfg
  · have hcur := hsafe hfg
    refine .single (q := r.pcb) fun q => ⟨fun hq => ?_, ?_⟩
    · by_contra hqp
      obtain ⟨hflag, hwake⟩ := hold q hqp (yieldedFlags k r)
      have hq2 := hq.2
      rw [hflag, yieldedFlags, if_pos hfg] at hq2
      by_cases hqc : q = k.current
      · rw [hqc, Function.update_self] at hq2
        cases hq2
      · rw [Function.update_of_ne hqc] at hq2
        exact hqc (h.unique hcur ⟨hwake.mp hq.1, hq2⟩)
    · rintro rfl
      refine ⟨⟨Function.update_self _ _ _, ?_⟩, ?_⟩
      · simp
      · simp [hfg]
  · have hflags : yieldedFlags k r = k.isForeground := by
      rw [yieldedFlags, if_neg (by simp [hfg])]
    rw [hflags]
    refine h.same (fun q => ?_) fun he hl => ?_
    · by_cases hqp : q = r.pcb
      · subst hqp
        refine iff_of_false (fun hq => ?_) fun hq => ?_
        · have hq2 := hq.2
          simp only [Function.update_self, hfg] at hq2
          cases hq2
        · exact hne _ hq.1.1 rfl
      · obtain ⟨hflag, hwake⟩ := hold q hqp k.isForeground
        rw [HasForeground, HasForeground, hflag, hwake]
    · have hc := hne _ ho.current
      obtain ⟨hflag, -⟩ := hold _ hc k.isForeground
      refine ⟨rfl, ?_, by rw [hflag]; exact he.2.1, ?_, ?_⟩
      · simp only [Function.update_of_ne hc]
        exact he.1
      · simp only [Function.update_of_ne hc]
      · exact (hold _ (hne _ hl.1.1) k.isForeground).2.mpr hl.1

/-- A failed creation leaves the flag with the process that asked. -/
theorem regainedFlags_eq {r : SpawnRequest} {fg : ℕ → Bool}
    (hcur : r.isForeground = true → fg k.current = true) : regainedFlags k r fg = fg := by
  unfold regainedFlags
  split
  · rename_i hfg
    rw [← hcur hfg, Function.update_eq_self]
  · rfl

theorem cleared_oneForeground (ho : Orderly k) (h : OneForeground k) {r : SpawnRequest}
    (hvalid : ValidRequest k { r with parent := k.current }) (hpcb : r.pcb ≠ 0)
    (hsafe : ForegroundSafe k (.createProcess r)) :
    OneForeground { clearPcb k r.pcb with
      isForeground := regainedFlags k r (update (yieldedFlags k r) r.pcb false) } := by
  have hfree : k.allocated r.pcb = false := (hvalid.1 hpcb).2
  have hne : ∀ q, k.allocated q = true → q ≠ r.pcb := by
    rintro q hq rfl
    rw [hq] at hfree
    cases hfree
  have hflags : ∀ q, q ≠ r.pcb →
      regainedFlags k r (update (yieldedFlags k r) r.pcb false) q = k.isForeground q := by
    intro q hq
    unfold regainedFlags yieldedFlags
    split
    · rename_i hfg
      by_cases hqc : q = k.current
      · rw [hqc, Function.update_self, (hsafe hfg).2]
      · rw [Function.update_of_ne hqc, Function.update_of_ne hq, Function.update_of_ne hqc]
    · rw [Function.update_of_ne hq]
  have hstate : ∀ q, q ≠ r.pcb → (clearPcb k r.pcb).state q = k.state q :=
    fun q hq => Function.update_of_ne hq _ _
  refine h.same (fun q => ?_) fun he hl => ?_
  · by_cases hqp : q = r.pcb
    · subst hqp
      exact iff_of_false (fun hq => hne _ hq.1.1 rfl) fun hq => hne _ hq.1.1 rfl
    · refine hasForeground_congr rfl (hflags q hqp) fun _ => ?_
      rw [hstate q hqp]
  · have hc := hne _ ho.current
    refine ⟨rfl, ?_, ?_, ?_, hl.1.1, ?_⟩
    · exact (hstate _ hc).trans he.1
    · exact (hflags _ hc).trans he.2.1
    · exact Function.update_of_ne hc _ _
    · exact fun hs => hl.1.2 ((hstate _ (hne _ hl.1.1)).symm.trans hs)

theorem exited_oneForeground (ho : Orderly k) (h : OneForeground k)
    (hsafe : ForegroundSafe k .exit) :
    OneForeground { k with state := update k.state k.current .finished } := by
  have hother : ∀ q, q ≠ k.current → ∀ st, update k.state k.current st q = k.state q :=
    fun q hq st => Function.update_of_ne hq _ _
  by_cases hcur : HasForeground k k.current
  · have hl := hsafe hcur
    refine Or.inr ⟨⟨Function.update_self _ _ _, hcur.2, fun q hq => ?_⟩, ⟨hl.1.1, ?_⟩, hl.2⟩
    · by_cases hqc : q = k.current
      · subst hqc
        exact hq.1.2 (Function.update_self _ _ _)
      · refine hqc (h.unique hcur ⟨⟨hq.1.1, ?_⟩, hq.2⟩)
        rw [← hother q hqc .finished]
        exact hq.1.2
    · exact fun hs => hl.1.2 ((hother _ hl.2 _).symm.trans hs)
  · have hstate : ∀ q, k.isForeground q = true →
        (update k.state k.current .finished q = .finished ↔ k.state q = .finished) := by
      intro q hfg
      by_cases hqc : q = k.current
      · subst hqc
        rw [Function.update_self]
        refine iff_of_true rfl ?_
        by_contra hs
        exact hcur ⟨⟨ho.current, hs⟩, hfg⟩
      · rw [hother q hqc]
    refine h.same (fun q => hasForeground_congr rfl rfl (hstate q)) fun he hl => ?_
    exact ⟨rfl, Function.update_self _ _ _, he.2.1, rfl, hl.1.1,
      fun hs => hl.1.2 ((hother _ hl.2 _).symm.trans hs)⟩

/-- A wait that is over gives the flag to nobody new. -/
theorem inherited_oneForeground (h : OneForeground k) {target : ℕ}
    (hsafe : k.isForeground target = true → k.isForeground k.current = true) :
    OneForeground { k with isForeground := inheritedFlags k target } := by
  have hflags : inheritedFlags k target = k.isForeground := by
    unfold inheritedFlags
    split
    · rename_i hfg
      rw [← hsafe hfg, Function.update_eq_self]
    · rfl
  rw [hflags]
  exact h

/-- Every safe call keeps the flag with one process. -/
theorem OneForeground.step (ho : Orderly k) (h : OneForeground k) {c : OpenCall}
    (hp : OpenPromise k c) (hsafe : ForegroundSafe k c) (he : OpenEffect k c k') :
    OneForeground k' := by
  have hquiet : ∀ {k'' : Kernel}, k''.allocated = k.allocated → k''.isForeground = k.isForeground →
      k''.state = k.state → k''.current = k.current → k''.parent = k.parent → OneForeground k'' :=
    fun ha hf hs hc hpa => h.restate (L := []) (show ProcessState.ready ≠ .finished by simp) (by simp) ha hf
      (by rw [hs, setAll_nil]) hc hpa
  have hone : ∀ {k'' : Kernel} (q : ℕ) (st : ProcessState), st ≠ .finished → NoRevival k q →
      k''.allocated = k.allocated → k''.isForeground = k.isForeground →
      k''.state = update k.state q st → k''.current = k.current → k''.parent = k.parent →
      OneForeground k'' := by
    intro k'' q st hst hq ha hf hs hc hpa
    refine h.restate (L := [q]) hst ?_ ha hf (by rw [hs, setAll_cons, setAll_nil]) hc hpa
    intro w hw
    rw [List.mem_singleton.mp hw]
    exact hq
  cases he with
  | same => exact h
  | @creationFailed r =>
      rw [regainedFlags_eq fun hfg => (hsafe hfg).2]
      exact h
  | creationCleared pcb => exact cleared_oneForeground ho h hp.2 pcb hsafe
  | created pcb pr fdp => exact created_oneForeground ho h hp.2 pcb hsafe pr fdp
  | exited => exact exited_oneForeground ho h hsafe
  | killed L woken => exact killed_oneForeground ho h hp hsafe woken k.needResched
  | blocked before => exact hone _ .blocked (by simp) hsafe rfl rfl rfl rfl rfl
  | readied => exact hone _ .ready (by simp) hsafe rfl rfl rfl rfl rfl
  | waitOver dead => exact inherited_oneForeground h (hsafe.1 dead)
  | @waited target ch _ alive other L switched =>
      have ho' : Orderly (waitLinked k target (k.pid target)) :=
        ⟨ho.terminals, ho.noPipes, ho.valid, ho.current, ho.idle⟩
      exact blocked_oneForeground (Orderly.block ho' hp.1)
        (hquiet rfl rfl rfl rfl rfl) (hsafe.2 alive) switched
  | waitReturned => exact inherited_oneForeground h hsafe
  | @semAllocated v =>
      obtain ⟨sems, n, heq⟩ := semAlloc_shape k v
      rw [heq]
      exact hquiet rfl rfl rfl rfl rfl
  | @semOpened id =>
      obtain ⟨sems, heq⟩ := semOpenById_shape k id
      rw [heq]
      exact hquiet rfl rfl rfl rfl rfl
  | @semClosed id =>
      obtain ⟨sems, heq⟩ := semCloseById_shape k id
      rw [heq]
      exact hquiet rfl rfl rfl rfl rfl
  | semTaken => exact hquiet rfl rfl rfl rfl rfl
  | @semQueued id ch _ i found empty L switched =>
      obtain ⟨sems, swn, hshape⟩ := enqueueWaiter_shape
        { k with waitingOnSem := update k.waitingOnSem k.current (k.semaphores i).id } i k.current
      have hlinked : Orderly (semLinked k i) ∧ OneForeground (semLinked k i) ∧
          Caller (semLinked k i) ∧ NoRevival (semLinked k i) (semLinked k i).current := by
        rw [semLinked, hshape]
        exact ⟨⟨ho.terminals, ho.noPipes, ho.valid, ho.current, ho.idle⟩, hquiet rfl rfl rfl rfl rfl,
          hp.1, hsafe⟩
      obtain ⟨ho', hone', hcall, hrevival⟩ := hlinked
      exact blocked_oneForeground (Orderly.block ho' hcall) hone' hrevival switched
  | semIncremented => exact hquiet rfl rfl rfl rfl rfl
  | semReleased i found ne => exact hone _ .ready (by simp) (hsafe i found) rfl rfl rfl rfl rfl
  | @semSet id v i found nonneg =>
      obtain ⟨sems, swn, heq⟩ := releaseLoop_shape (i := i) v.toNat k
      refine h.restate (L := (releaseLoop i v.toNat k).1) (show ProcessState.ready ≠ .finished by simp)
        (hsafe i found) ?_ ?_ ?_ ?_ ?_
      all_goals rw [heq]
  | switched L switched => exact switched_oneForeground ho h switched hsafe

end Steps

section Runs

theorem ForegroundSafe.resched (k : Kernel) (s : Sched) (c : OpenCall) (h : ForegroundSafe k c) :
    ForegroundSafe (k.resched s) c := by
  cases c with
  | semSet id v =>
      intro i hi w hw
      rw [releaseLoop_resched] at hw
      exact h i hi w hw
  | _ => exact h

/-- In every run from the start of the system whose calls are all safe, exactly one live
process has the flag, unless the current process has the flag and has finished: then it
waits for the context switch that passes the flag on. -/
theorem one_foreground_process {idle idleStack shell shellStack entryPoint : ℕ} {k₀ : Kernel} {steps : List Step}
    (hm : BootMemory idle idleStack shell shellStack entryPoint) (hidle : idle < addressCount)
    (hshell : shell < addressCount)
    (hboot : bootSystem idle idleStack shell shellStack entryPoint = some k₀) (run : Run k₀ steps k)
    (hsafe : ∀ st ∈ steps, st.call.Allowed ForegroundSafe st.before)
    (hsettled : k.state k.current = .finished → k.isForeground k.current = false) :
    ∃! p, HasForeground k p := by
  have hstart := bootSystem_spec hm hboot
  suffices hinv : Orderly k ∧ OneForeground k by
    refine hinv.2.resolve_right fun he => ?_
    have hflag := he.1.2.1
    rw [hsettled he.1.1] at hflag
    cases hflag
  refine run.openInvariant (I := fun k => Orderly k ∧ OneForeground k) hstart.orderly
    (hstart.addressed hidle hshell) hsafe (fun _ _ => trivial) ForegroundSafe.resched ⟨hstart.orderly, ?_⟩ ?_
  · refine .single (q := shell) fun p => ⟨fun hp => (hstart.isForeground p).mp hp.2, ?_⟩
    rintro rfl
    refine ⟨⟨(hstart.allocated p).mpr (Or.inr rfl), ?_⟩, (hstart.isForeground p).mpr rfl⟩
    rw [hstart.state.2]
    simp
  · rintro k c k' ⟨ho, h⟩ hp hs hstep
    obtain ⟨k₁, s, heffect, rfl⟩ := openExec_effect ho hp hstep
    have hone := h.step ho hp hs heffect
    exact ⟨(heffect.orderly ho hp).resched s, hone⟩

/-- The theorem at a run: the shell makes a foreground child and waits for it. The child exits, and
the yield of the child gives the flag back to the shell. -/
theorem one_foreground_process_child :
    ∃ k₀ steps k, bootSystem 16 8192 48 12288 1 = some k₀ ∧ Run k₀ steps k ∧ steps.length = 5 ∧
      k.current = 48 ∧ k.isForeground 48 = true ∧ k.allocated 64 = false ∧ ∃! p, HasForeground k p := by
  have hlt : 64 < addressCount := by
    unfold addressCount
    decide
  let r : SpawnRequest := ⟨1, 0, 2, true, 0, 0, 64, 32768⟩
  let frame : Frame := ⟨0, fun _ => 0⟩
  have hcalc : ((bootSystem 16 8192 48 12288 1).bind fun k₀ => (exec k₀ (.tick frame)).bind fun o₁ =>
      (exec o₁.kernel (.createProcess r)).bind fun o₂ => (exec o₂.kernel (.wait 3 frame)).bind fun o₃ =>
        (exec o₃.kernel .finishCurrent).bind fun o₄ => (exec o₄.kernel (.yield frame)).map fun o₅ =>
          decide (k₀.state k₀.current = .running ∧
            (Caller o₁.kernel ∧ o₁.kernel.allocated 64 = false ∧ HasForeground o₁.kernel o₁.kernel.current) ∧
            (Caller o₂.kernel ∧ o₂.kernel.pid o₂.kernel.idleP = 1 ∧ schedulerFindByPid o₂.kernel 3 = some 64 ∧
              o₂.kernel.state 64 ≠ .finished ∧ o₂.kernel.state o₂.kernel.current = .running) ∧
            (Caller o₃.kernel ∧ o₃.kernel.current = 64 ∧ o₃.kernel.state 64 = .running ∧
              o₃.kernel.parent 64 = 48 ∧ Wakeable o₃.kernel 48 ∧ HasForeground o₃.kernel 64) ∧
            (o₄.kernel.current = 64 ∧ o₄.kernel.state 64 = .finished ∧ o₄.kernel.waitersHead 64 = 48 ∧
              o₄.kernel.waiterNext 48 = 0 ∧ Wakeable o₄.kernel 48 ∧ o₄.kernel.isForeground 48 = false) ∧
            o₅.kernel.current = 48 ∧ o₅.kernel.state 48 = .running ∧ o₅.kernel.isForeground 48 = true ∧
              o₅.kernel.allocated 64 = false)) = some true := by
    decide +kernel
  obtain ⟨k₀, hboot, h₁⟩ := Option.bind_eq_some_iff.mp hcalc
  obtain ⟨o₁, htick, h₂⟩ := Option.bind_eq_some_iff.mp h₁
  obtain ⟨o₂, hcreate, h₃⟩ := Option.bind_eq_some_iff.mp h₂
  obtain ⟨o₃, hwait, h₄⟩ := Option.bind_eq_some_iff.mp h₃
  obtain ⟨o₄, hexit, h₅⟩ := Option.bind_eq_some_iff.mp h₄
  obtain ⟨o₅, hlast, h₆⟩ := Option.map_eq_some_iff.mp h₅
  obtain ⟨hrun₀, ⟨hcall₁, hfree, hfg₁⟩, ⟨hcall₂, hidle₂, hfind, halive, hrun₂⟩,
    ⟨hcall₃, hcur₃, hrun₃, hparent, hshell₃, hfg₃⟩, ⟨hcur₄, hfin₄, hhead, hnext, hshell₄, hfg₄⟩,
    hcur₅, hrun₅, hfg₅, hgone⟩ := of_decide_eq_true h₆
  have hm : BootMemory 16 8192 48 12288 1 := ⟨by decide, by decide, by decide, by decide, by decide, by decide⟩
  have hstart := bootSystem_spec hm hboot
  have haddr := hstart.addressed (by omega) (by omega)
  have run₃ := Run.snoc (Run.snoc (Run.snoc .nil htick) hcreate) hwait
  have hmade : ∀ st ∈ [⟨k₀, .tick frame, o₁⟩, ⟨o₁.kernel, .createProcess r, o₂⟩,
      (⟨o₂.kernel, .wait 3 frame, o₃⟩ : Step)], Made st.before st.call := by
    simp only [List.forall_mem_cons, List.not_mem_nil, false_imp_iff, implies_true, and_true]
    exact ⟨trivial, ⟨hcall₁, fun _ => ⟨hlt, hfree⟩, fun _ => hfg₁.1.1⟩, hcall₂, by rw [hidle₂]; decide⟩
  have hqueues : ∀ st ∈ [⟨k₀, .tick frame, o₁⟩, ⟨o₁.kernel, .createProcess r, o₂⟩,
      (⟨o₂.kernel, .wait 3 frame, o₃⟩ : Step)], QueueSafe st.before st.call := by
    simp only [List.forall_mem_cons, List.not_mem_nil, false_imp_iff, implies_true, and_true]
    refine ⟨fun _ hfin => absurd (hrun₀.symm.trans hfin) (by decide),
      ⟨fun _ => ⟨hlt, hfree⟩, fun _ => hfg₁.1.1⟩, fun _ _ _ _ _ => Or.inr (Or.inr ?_)⟩
    rw [hrun₂]
    decide
  obtain ⟨⟨Q₃, hQ₃⟩, hanswered⟩ := run₃.queuesAnswer hstart.orderly haddr
    (bootSystem_agree hm (by omega) (by omega) hboot) hmade hqueues
  have hsafe₃ : ∀ st ∈ [⟨k₀, .tick frame, o₁⟩, ⟨o₁.kernel, .createProcess r, o₂⟩,
      (⟨o₂.kernel, .wait 3 frame, o₃⟩ : Step)], st.call.Meets ForegroundSafe st.before := by
    simp only [List.forall_mem_cons, List.not_mem_nil, false_imp_iff, implies_true, and_true]
    refine ⟨fun c' hopens => ?_, fun c' hopens => ?_, fun c' hopens => ?_⟩
    · cases hopens with
      | quiet s _ => trivial
      | tick _ => exact fun hfin => absurd (hrun₀.symm.trans hfin) (by decide)
    · cases hopens with
      | quiet s _ => trivial
      | createProcess => exact fun _ => hfg₁
    · cases hopens with
      | quiet s _ => trivial
      | waitRefused _ => trivial
      | waitOver found _ _ _ | wait found _ _ _ _ =>
          obtain rfl := Option.some_inj.mp (hfind.symm.trans found)
          exact ⟨fun hfin => absurd hfin halive, fun _ _ => by rw [hrun₂]; decide⟩
  have hsafe : ∀ st ∈ [⟨k₀, .tick frame, o₁⟩, ⟨o₁.kernel, .createProcess r, o₂⟩,
      (⟨o₂.kernel, .wait 3 frame, o₃⟩ : Step)], st.call.Allowed ForegroundSafe st.before :=
    fun st hst => ⟨hmade st hst, hanswered st hst, hsafe₃ st hst⟩
  -- before it exits, nobody but the child has the flag
  have hone := one_foreground_process hm (by omega) (by omega) hboot run₃ hsafe fun hfin => by
    rw [hcur₃, hrun₃] at hfin
    cases hfin
  have hnot : o₃.kernel.state o₃.kernel.current ≠ .ready := by
    rw [hcur₃, hrun₃]
    decide
  obtain ⟨k₄, hfinish, hQ₄, hshape⟩ := schedulerFinishCurrent_spec hQ₃ hnot
  obtain ⟨k', hk', rfl⟩ := Option.map_eq_some_iff.mp hexit
  obtain rfl := Option.some_inj.mp (hfinish.symm.trans hk')
  dsimp only [Outcome.return] at hlast hcur₄ hfin₄ hhead hnext hshell₄ hfg₄
  have hexiting : ∀ q, ¬HasForeground k₄ q := by
    intro q hq
    obtain rfl | ⟨-, -, rfl⟩ := hshape
    · rw [hrun₃] at hfin₄
      cases hfin₄
    · have hq64 : q ≠ 64 := by
        rintro rfl
        exact hq.1.2 hfin₄
      refine hq64 (hone.unique ⟨⟨hq.1.1, ?_⟩, hq.2⟩ hfg₃)
      have hst := hq.1.2
      dsimp only at hst
      rwa [hcur₃, Function.update_of_ne hq64] at hst
  have hwaiters : ∀ L, WakeList k₄.waiterNext (k₄.waitersHead 64) L → ∀ w ∈ L, w = 48 := by
    intro L hL w hw
    rw [hhead] at hL
    have hchain : LinkedList.Chain k₄.waiterNext 0 48 [48] := ⟨rfl, by decide, hnext⟩
    rw [hL.eq_of_chain hchain] at hw
    exact List.mem_singleton.mp hw
  refine ⟨k₀, _, o₅.kernel, hboot, (run₃.snoc hexit).snoc hlast, rfl, hcur₅, hfg₅, hgone, ?_⟩
  refine one_foreground_process hm (by omega) (by omega) hboot ((run₃.snoc hexit).snoc hlast) ?_ fun hfin => by
    rw [hcur₅, hrun₅] at hfin
    cases hfin
  refine List.forall_mem_append.mpr ⟨List.forall_mem_append.mpr ⟨hsafe, List.forall_mem_singleton.mpr
    ⟨hcall₃, trivial, fun c' hopens => ?_⟩⟩, List.forall_mem_singleton.mpr ⟨trivial, ?_, fun c' hopens => ?_⟩⟩
  · cases hopens with
    | quiet s _ => trivial
    | exit =>
        intro _
        rw [LiveParent, hcur₃, hparent]
        exact ⟨hshell₃, by decide⟩
  · refine Placed.switchSafe (Q := Q₃) ?_ fun _ L hL w hw => ?_
    · have hsame : o₃.kernel.current = k₄.current := hcur₃.trans hcur₄.symm
      rw [hsame] at hQ₄
      exact hQ₄.placed
    · dsimp only [Outcome.return] at hL
      rw [hcur₄] at hL
      rw [hwaiters L hL w hw]
      exact hshell₄
  · cases hopens with
    | quiet s _ => trivial
    | yield _ =>
        intro _
        dsimp only [Outcome.return]
        rw [hcur₄]
        refine ⟨fun _ => ⟨fun hwake => absurd hfin₄ hwake.2, fun _ _ q hq => absurd hq (hexiting q)⟩, ?_⟩
        intro L hL w hw hfg
        rw [hwaiters L hL w hw, hfg₄] at hfg
        cases hfg

/-- The shell makes a background child, which asks for a foreground child of its own: the
shell and the grandchild have the flag. -/
theorem background_creator_doubles_foreground :
    ∃ k₀ k, bootSystem 16 8192 48 12288 1 = some k₀ ∧
      execAll k₀ [.tick ⟨0, fun _ => 0⟩, .createProcess ⟨1, 0, 2, false, 0, 0, 64, 32768⟩,
        .yield ⟨0, fun _ => 0⟩, .createProcess ⟨1, 0, 2, true, 0, 0, 80, 65536⟩] = some k ∧
      Wakeable k 48 ∧ ¬∃! p, HasForeground k p := by
  have hcalc : ((bootSystem 16 8192 48 12288 1).bind fun k₀ =>
      (execAll k₀ [.tick ⟨0, fun _ => 0⟩, .createProcess ⟨1, 0, 2, false, 0, 0, 64, 32768⟩,
        .yield ⟨0, fun _ => 0⟩, .createProcess ⟨1, 0, 2, true, 0, 0, 80, 65536⟩]).map fun k =>
          ((k.allocated 48, k.state 48, k.isForeground 48),
            k.allocated 80, k.state 80, k.isForeground 80)) =
        some ((true, .ready, true), true, .ready, true) := by
    decide +kernel
  obtain ⟨k₀, hboot, h₁⟩ := Option.bind_eq_some_iff.mp hcalc
  obtain ⟨k, hall, h₂⟩ := Option.map_eq_some_iff.mp h₁
  simp only [Prod.mk.injEq] at h₂
  obtain ⟨⟨hal, hst, hfg⟩, hal', hst', hfg'⟩ := h₂
  have hshell : Wakeable k 48 := ⟨hal, by rw [hst]; decide⟩
  refine ⟨k₀, k, hboot, hall, hshell, fun hone => ?_⟩
  have heq : 48 = 80 := hone.unique ⟨hshell, hfg⟩ ⟨⟨hal', by rw [hst']; decide⟩, hfg'⟩
  cases heq

end Runs
end SoKernel
