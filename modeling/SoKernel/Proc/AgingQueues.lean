import SoKernel.Proc.AgingCounts

/-!
# Aging and the ready queues

`apply_aging` on the ready queues alone, with any waiting times. A walk over a queue starts again
at the head after each promotion. The processes that the walk before has promoted stand at the end
of the queue with no time waited, so that none of them is promoted again.
-/

namespace SoKernel

open Function (update)

variable {k k₁ k' k'' : Kernel} {R R₁ R' R'' : Priority → List ℕ} {pr : Priority} {p : ℕ}
variable {A B L N M : List ℕ}

section Model

/-- The ready queues are lists, and each process is in the queue of its priority. -/
structure ReadyQueues (k : Kernel) (R : Priority → List ℕ) : Prop where
  list : ∀ pr, QueueList k.queueNext k.queuePrev (k.queues (.ready pr)) (R pr)
  priority : ∀ pr, ∀ p ∈ R pr, k.priority p = pr
  bounded : ∀ pr, ∀ p ∈ R pr, p < addressCount

/-- The processes of a list that have the same priority in both states. -/
def unpromoted (k k' : Kernel) (L : List ℕ) : List ℕ :=
  L.filter fun a => k'.priority a = k.priority a

/-- The ready queues before and after some promotions: the same processes, with the same or higher
priorities, and those that were not promoted in their old order. -/
structure Promotes (k : Kernel) (R : Priority → List ℕ) (k' : Kernel) (R' : Priority → List ℕ) :
    Prop where
  ready : ReadyQueues k' R'
  members : ∀ a, (∃ pr, a ∈ R' pr) ↔ ∃ pr, a ∈ R pr
  le : ∀ a, k.priority a ≤ k'.priority a
  order : ∀ pr, unpromoted k k' (R' pr) = unpromoted k k' (R pr)

/-- A walk over the queue `pr`, at whose end the processes `N` stand: it promotes the processes
`M`, which are none of them. -/
structure Walked (pr : Priority) (N M : List ℕ) (k : Kernel) (R : Priority → List ℕ) (k' : Kernel)
    (R' : Priority → List ℕ) : Prop where
  promotes : Promotes k R k' R'
  raised : ∀ a ∈ M, a ∈ R pr ∧ a ∉ N ∧ (k'.priority a : ℕ) = pr + 1 ∧ k'.waitTicks a = 0
  kept : ∀ a, a ∉ M → k'.priority a = k.priority a
  next : ∀ pr' : Priority, (pr' : ℕ) = pr + 1 → R' pr' = R pr' ++ M
  other : ∀ a, a ∉ R pr → k'.waitTicks a = k.waitTicks a
  waits : (pr : ℕ) < processPriorityMax → ∀ a ∈ R' pr, k'.waitTicks a < agingThreshold

/-- The walks over the queues `prs`, at the end of whose first one the processes `N` stand. -/
structure WalkedAll (prs : List Priority) (N : List ℕ) (k : Kernel) (R : Priority → List ℕ)
    (k' : Kernel) (R' : Priority → List ℕ) : Prop where
  promotes : Promotes k R k' R'
  raised : ∀ a, k'.priority a = k.priority a ∨ (k'.priority a : ℕ) = k.priority a + 1
  fresh : ∀ a ∈ N, k'.priority a = k.priority a
  kept : ∀ a, k.priority a ∉ prs → k'.priority a = k.priority a ∧ k'.waitTicks a = k.waitTicks a
  waits : ∀ pr ∈ prs, (pr : ℕ) < processPriorityMax → ∀ a ∈ R' pr, k'.waitTicks a < agingThreshold

end Model

section Promotions

theorem ReadyQueues.not_mem (h : ReadyQueues k R) (hp : p ∈ R pr) {pr' : Priority} (hne : pr' ≠ pr) :
    p ∉ R pr' :=
  fun hp' => hne ((h.priority pr' p hp').symm.trans (h.priority pr p hp))

/-- The waiting times do not matter. -/
theorem ReadyQueues.withWaitTicks (h : ReadyQueues k R) (wt : ℕ → ℕ) :
    ReadyQueues { k with waitTicks := wt } R := ⟨h.list, h.priority, h.bounded⟩

theorem Promotes.refl (h : ReadyQueues k' R) (hprio : k'.priority = k.priority) :
    Promotes k R k' R :=
  ⟨h, fun _ => Iff.rfl, fun a => (congrFun hprio a).ge, fun _ => rfl⟩

theorem unpromoted_trans (hle : ∀ a, k.priority a ≤ k'.priority a)
    (hle' : ∀ a, k'.priority a ≤ k''.priority a) (L : List ℕ) :
    unpromoted k k'' L = unpromoted k k' (unpromoted k' k'' L) := by
  rw [unpromoted, unpromoted, unpromoted, List.filter_filter]
  refine List.filter_congr fun a _ => ?_
  rw [← Bool.decide_and, decide_eq_decide]
  constructor
  · intro hsame
    have hmid : k'.priority a = k.priority a := le_antisymm (hsame ▸ hle' a) (hle a)
    exact ⟨hmid, hsame.trans hmid.symm⟩
  · rintro ⟨hmid, hlast⟩
    exact hlast.trans hmid

theorem unpromoted_comm (L : List ℕ) :
    unpromoted k k' (unpromoted k' k'' L) = unpromoted k' k'' (unpromoted k k' L) := by
  simp only [unpromoted, List.filter_filter, Bool.and_comm]

theorem Promotes.trans (h : Promotes k R k' R') (h' : Promotes k' R' k'' R'') :
    Promotes k R k'' R'' := by
  refine ⟨h'.ready, fun a => (h'.members a).trans (h.members a),
    fun a => (h.le a).trans (h'.le a), fun pr => ?_⟩
  calc unpromoted k k'' (R'' pr)
      = unpromoted k k' (unpromoted k' k'' (R'' pr)) := unpromoted_trans h.le h'.le _
    _ = unpromoted k k' (unpromoted k' k'' (R' pr)) := by rw [h'.order]
    _ = unpromoted k' k'' (unpromoted k k' (R' pr)) := unpromoted_comm _
    _ = unpromoted k' k'' (unpromoted k k' (R pr)) := by rw [h.order]
    _ = unpromoted k k' (unpromoted k' k'' (R pr)) := (unpromoted_comm _).symm
    _ = unpromoted k k'' (R pr) := (unpromoted_trans h.le h'.le _).symm

/-- The ready queues after an operation on one of them that touches no process of the others. -/
theorem Requeued.readyLists {T : List ℕ} (h : Requeued k (.ready pr) T L k')
    (hR : ∀ pr', QueueList k.queueNext k.queuePrev (k.queues (.ready pr')) (R pr'))
    (hT : ∀ pr', pr' ≠ pr → ∀ a ∈ R pr', a ∉ T) (pr' : Priority) :
    QueueList k'.queueNext k'.queuePrev (k'.queues (.ready pr')) (update R pr L pr') := by
  by_cases hpr : pr' = pr
  · subst hpr
    rw [Function.update_self]
    exact h.list
  · rw [Function.update_of_ne hpr]
    have hne : QueueId.ready pr' ≠ .ready pr := fun he => hpr (QueueId.ready.inj he)
    exact h.other hne (hR pr') (hT pr' hpr)

theorem clampPriority_boost_val (hlt : (pr : ℕ) < processPriorityMax) :
    (clampPriority (pr + agingBoost) : ℕ) = pr + 1 := by
  revert hlt pr
  decide

/-- Moving a process to the queue of the next priority. -/
theorem ReadyQueues.promote (h : ReadyQueues k R) (hp : p ∈ R pr)
    (hlt : (k.priority p : ℕ) < processPriorityMax) :
    ∃ k', ∃ high : Priority, (do
        let k ← processQueueRemove k (.ready pr) p
        let k := { k with
          priority := update k.priority p (clampPriority (k.priority p + agingBoost)) }
        processQueuePush k (.ready (k.priority p)) p) = some k' ∧
      (high : ℕ) = pr + 1 ∧ k'.priority = update k.priority p high ∧ k'.waitTicks = k.waitTicks ∧
      ReadyQueues k' (update (update R pr ((R pr).erase p)) high (R high ++ [p])) := by
  have hprio := h.priority pr p hp
  have hval := clampPriority_boost_val hlt
  generalize hhigh : clampPriority (k.priority p + agingBoost) = high at hval
  rw [hprio] at hval
  have hne : high ≠ pr := fun he => by
    rw [he] at hval
    omega
  have hp0 : p ≠ 0 := (h.list pr).ne_zero hp
  -- out of the old queue
  obtain ⟨k₁, hremove, hlist₁, -⟩ := (h.list pr).processQueueRemove (h.bounded pr) p
  have hR₁ := hlist₁.readyLists h.list fun pr' hpr' a ha ha' => h.not_mem ha' hpr' ha
  obtain ⟨nx, pv, queue, rfl⟩ := hlist₁.rest
  have hout : ∀ pr', p ∉ update R pr ((R pr).erase p) pr' := by
    intro pr'
    by_cases hpr : pr' = pr
    · subst hpr
      rw [Function.update_self]
      exact (h.list pr').nodup.not_mem_erase
    · rw [Function.update_of_ne hpr]
      exact h.not_mem hp hpr
  have hsub : ∀ pr', ∀ a ∈ update R pr ((R pr).erase p) pr', a ∈ R pr' := by
    intro pr' a ha
    by_cases hpr : pr' = pr
    · subst hpr
      rw [Function.update_self] at ha
      exact List.mem_of_mem_erase ha
    · rwa [Function.update_of_ne hpr] at ha
  have hhighR : update R pr ((R pr).erase p) high = R high := Function.update_of_ne hne _ _
  -- into the new one
  obtain ⟨k₂, hpush, hlist₂⟩ := QueueList.processQueuePush (k := { k with
      priority := update k.priority p high
      queueNext := nx
      queuePrev := pv
      queues := update k.queues (.ready pr) queue }) (hR₁ high)
    (fun a ha => h.bounded high a (hsub high a ha)) hp0
  have hR₂ := hlist₂.readyLists hR₁ fun pr' hpr' a ha ha' => by
    rcases List.mem_cons.mp ha' with rfl | ha'
    · exact hout pr' ha
    · exact h.not_mem (hsub high a ha') hpr' (hsub pr' a ha)
  rw [List.erase_of_not_mem (hout high), hhighR] at hR₂
  have hkept : k₂.priority = update k.priority p high ∧ k₂.waitTicks = k.waitTicks := by
    obtain ⟨nx', pv', queue', rfl⟩ := hlist₂.rest
    exact ⟨rfl, rfl⟩
  refine ⟨k₂, high, ?_, hval, hkept.1, hkept.2, hR₂, fun pr' a ha => ?_, fun pr' a ha => ?_⟩
  · rw [hremove, Option.bind_eq_bind, Option.bind_some]
    dsimp only
    rw [hhigh, Function.update_self]
    exact hpush
  · rw [hkept.1]
    by_cases hpr : pr' = high
    · subst hpr
      rw [Function.update_self] at ha
      rcases List.mem_append.mp ha with ha | ha
      · have hap : a ≠ p := fun he => h.not_mem hp hne (he ▸ ha)
        rw [Function.update_of_ne hap]
        exact h.priority pr' a ha
      · rw [List.mem_singleton.mp ha, Function.update_self]
    · rw [Function.update_of_ne hpr] at ha
      have hap : a ≠ p := fun he => hout pr' (he ▸ ha)
      rw [Function.update_of_ne hap]
      exact h.priority pr' a (hsub pr' a ha)
  · by_cases hpr : pr' = high
    · subst hpr
      rw [Function.update_self] at ha
      rcases List.mem_append.mp ha with ha | ha
      · exact h.bounded pr' a ha
      · rw [List.mem_singleton.mp ha]
        exact h.bounded pr p hp
    · rw [Function.update_of_ne hpr] at ha
      exact h.bounded pr' a (hsub pr' a ha)

end Promotions

section Walks

/-- Promoting one process is a promotion. -/
theorem Promotes.promote {high : Priority} (h : ReadyQueues k R) (hp : p ∈ R pr)
    (hhigh : (high : ℕ) = pr + 1) (hprio : k₁.priority = update k.priority p high)
    (h₁ : ReadyQueues k₁ (update (update R pr ((R pr).erase p)) high (R high ++ [p]))) :
    Promotes k R k₁ (update (update R pr ((R pr).erase p)) high (R high ++ [p])) := by
  have hlt : pr < high := Fin.lt_def.mpr (by omega)
  have hraised : k₁.priority p ≠ k.priority p := by
    rw [hprio, Function.update_self, h.priority pr p hp]
    exact hlt.ne'
  refine ⟨h₁, fun a => ?_, fun a => ?_, fun pr' => ?_⟩
  · constructor
    · rintro ⟨pr', ha⟩
      by_cases hpr : pr' = high
      · subst hpr
        rw [Function.update_self] at ha
        rcases List.mem_append.mp ha with ha | ha
        · exact ⟨pr', ha⟩
        · exact ⟨pr, List.mem_singleton.mp ha ▸ hp⟩
      · rw [Function.update_of_ne hpr] at ha
        by_cases hold : pr' = pr
        · subst hold
          rw [Function.update_self] at ha
          exact ⟨pr', List.mem_of_mem_erase ha⟩
        · rw [Function.update_of_ne hold] at ha
          exact ⟨pr', ha⟩
    · rintro ⟨pr', ha⟩
      by_cases hap : a = p
      · exact ⟨high, by simp [hap]⟩
      · refine ⟨pr', ?_⟩
        by_cases hpr : pr' = high
        · subst hpr
          rw [Function.update_self]
          exact List.mem_append_left [p] ha
        · rw [Function.update_of_ne hpr]
          by_cases hold : pr' = pr
          · subst hold
            rw [Function.update_self]
            exact (List.mem_erase_of_ne hap).mpr ha
          · rwa [Function.update_of_ne hold]
  · rw [hprio]
    by_cases hap : a = p
    · rw [hap, Function.update_self, h.priority pr p hp]
      exact hlt.le
    · rw [Function.update_of_ne hap]
  · by_cases hpr : pr' = high
    · subst hpr
      rw [Function.update_self, unpromoted, unpromoted, List.filter_append]
      simp [hraised]
    · rw [Function.update_of_ne hpr]
      by_cases hold : pr' = pr
      · subst hold
        rw [Function.update_self, unpromoted, unpromoted, (h.list pr').nodup.erase_eq_filter,
          List.filter_filter]
        refine List.filter_congr fun a _ => ?_
        by_cases hap : a = p
        · simp [hap, hraised]
        · simp [hap]
      · rw [Function.update_of_ne hold]

/-- Counting the first process of the rest of a walk. -/
theorem Walked.count (hp : p ∈ R pr)
    (h : Walked pr N M { k with waitTicks := update k.waitTicks p (k.waitTicks p + 1) } R k' R') :
    Walked pr N M k R k' R' := by
  obtain ⟨⟨hready, hmembers, hle, horder⟩, hraised, hkept, hnext, hother, hwaits⟩ := h
  refine ⟨⟨hready, hmembers, hle, horder⟩, hraised, hkept, hnext, fun a ha => ?_, hwaits⟩
  have hap : a ≠ p := fun he => ha (he ▸ hp)
  rw [hother a ha]
  exact Function.update_of_ne hap _ _

/-- A promotion, after which the walk starts again. -/
theorem Walked.promote {high : Priority} (hp : p ∈ R pr) (hpN : p ∉ N)
    (hhigh : (high : ℕ) = pr + 1) (hprio : k₁.priority = update k.priority p high)
    (hwait : k₁.waitTicks = update k.waitTicks p 0) (hpromotes : Promotes k R k₁ R₁)
    (hnodup : (R pr).Nodup)
    (hR₁ : R₁ = update (update R pr ((R pr).erase p)) high (R high ++ [p]))
    (h : Walked pr N M k₁ R₁ k' R') : Walked pr N (p :: M) k R k' R' := by
  have hne : pr ≠ high := fun he => by
    rw [he] at hhigh
    omega
  have hleft : R₁ pr = (R pr).erase p := by
    rw [hR₁, Function.update_of_ne hne, Function.update_self]
  have hgone : p ∉ R₁ pr := by
    rw [hleft]
    exact hnodup.not_mem_erase
  have hpM : p ∉ M := fun hm => hgone (h.raised p hm).1
  refine ⟨hpromotes.trans h.promotes, fun a ha => ?_, fun a ha => ?_, fun pr' hpr' => ?_,
    fun a ha => ?_, h.waits⟩
  · rcases List.mem_cons.mp ha with rfl | ha
    · refine ⟨hp, hpN, ?_, ?_⟩
      · rw [h.kept a hpM, hprio, Function.update_self, hhigh]
      · rw [h.other a hgone, hwait, Function.update_self]
    · obtain ⟨hmem, hrest⟩ := h.raised a ha
      rw [hleft] at hmem
      exact ⟨List.mem_of_mem_erase hmem, hrest⟩
  · obtain ⟨hap, haM⟩ := not_or.mp (mt List.mem_cons.mpr ha)
    rw [h.kept a haM, hprio, Function.update_of_ne hap]
  · have hsame : pr' = high := Fin.ext (hpr'.trans hhigh.symm)
    rw [h.next pr' hpr', hR₁, hsame, Function.update_self, List.append_assoc]
    rfl
  · have hap : a ≠ p := fun he => ha (he ▸ hp)
    have hout : a ∉ R₁ pr := by
      rw [hleft]
      exact fun hm => ha (List.mem_of_mem_erase hm)
    rw [h.other a hout, hwait, Function.update_of_ne hap]

/-- The walk over a ready queue ends. It promotes none of the processes at the end of the queue
that have not waited. -/
theorem ReadyQueues.agingLoop (n : ℕ) (h : ReadyQueues k R) (hL : R pr = A ++ B ++ N)
    (hp : p = (B ++ N).head?.getD 0)
    (hn : (B ++ N).length + (R pr).length * (R pr).length < n)
    (hN : ∀ a ∈ N, k.waitTicks a + 1 < agingThreshold)
    (hA : (pr : ℕ) < processPriorityMax → ∀ a ∈ A, k.waitTicks a < agingThreshold) :
    ∃ k' R' M, SoKernel.agingLoop pr n p k = some k' ∧ Walked pr N M k R k' R' := by
  induction n generalizing k R A B p with
  | zero => exact absurd hn (Nat.not_lt_zero _)
  | succ n ih =>
      cases B with
      | nil =>
          have hquiet : ∀ a ∈ N, ¬Due k a := fun a ha hdue => absurd (hN a ha) (not_lt.mpr hdue.1)
          have hcall := (h.list pr).agingLoop_quiet (n + 1) (A := A) (B := N) (by simpa using hL) hp
            (by simp only [List.nil_append] at hn; omega) hquiet
          refine ⟨_, R, [], hcall, .refl (h.withWaitTicks _) rfl, fun a ha => absurd ha List.not_mem_nil,
            fun _ _ => rfl, fun pr' _ => (List.append_nil _).symm, fun a ha => ?_, fun hlt a ha => ?_⟩
          · exact if_neg fun hm => ha (by rw [hL]; exact List.mem_append_right _ hm)
          · dsimp only
            rw [countTicks]
            split
            · rename_i hm
              exact hN a hm
            · rename_i hm
              rw [hL, List.append_nil] at ha
              exact hA hlt a ((List.mem_append.mp ha).resolve_right hm)
      | cons x B =>
          obtain rfl : p = x := hp
          have hmem : p ∈ R pr := by simp [hL]
          have hnodup := (h.list pr).nodup
          rw [hL, List.append_assoc] at hnodup
          have hpA : p ∉ A := fun hm => (List.nodup_append.mp hnodup).2.2 p hm p (by simp) rfl
          have hpBN : p ∉ B ++ N := by
            have hright := (List.nodup_append.mp hnodup).2.1
            rw [List.cons_append] at hright
            exact (List.nodup_cons.mp hright).1
          have hpN : p ∉ N := fun hm => hpBN (List.mem_append_right B hm)
          have hNwait : ∀ a ∈ N, ∀ v, update k.waitTicks p v a + 1 < agingThreshold := by
            intro a ha v
            have hap : a ≠ p := fun he => hpN (he ▸ ha)
            rw [Function.update_of_ne hap]
            exact hN a ha
          have hp0 : p ≠ 0 := (h.list pr).ne_zero hmem
          rw [SoKernel.agingLoop, if_neg hp0]
          dsimp only
          by_cases hdue : agingThreshold ≤ update k.waitTicks p (k.waitTicks p + 1) p ∧
              (k.priority p : ℕ) < processPriorityMax
          · rw [if_pos hdue]
            have hcounted := h.withWaitTicks (update k.waitTicks p (k.waitTicks p + 1))
            obtain ⟨k₁, high, hcall, hhigh, hprio, hwait, hready⟩ := hcounted.promote hmem hdue.2
            have hne : pr ≠ high := fun he => by
              rw [he] at hhigh
              omega
            have hleft : update (update R pr ((R pr).erase p)) high (R high ++ [p]) pr =
                [] ++ (A ++ B) ++ N := by
              rw [Function.update_of_ne hne, Function.update_self, hL, List.append_assoc,
                List.erase_append_right _ hpA, List.cons_append, List.erase_cons_head]
              simp
            have hwait₀ : update k₁.waitTicks p 0 = update k.waitTicks p 0 := by
              rw [hwait]
              dsimp only
              rw [Function.update_idem]
            have hready₁ := hready.withWaitTicks (update k₁.waitTicks p 0)
            have hhead := (hready₁.list pr).head_eq
            rw [hleft, List.nil_append] at hhead
            have hlen : (A ++ B ++ N).length + 1 = (R pr).length := by
              simp only [hL, List.length_append, List.length_cons]
              omega
            obtain ⟨k', R', M, hrest, hwalked⟩ := ih hready₁ hleft hhead
              (by
                rw [hleft, List.nil_append]
                simp only [List.cons_append, List.length_cons] at hn
                nlinarith)
              (fun a ha => by
                dsimp only
                rw [hwait₀]
                exact hNwait a ha 0)
              (fun _ a ha => absurd ha List.not_mem_nil)
            refine ⟨k', R', p :: M, ?_, ?_⟩
            · simp only [Option.bind_eq_bind] at hcall ⊢
              rw [← Option.bind_assoc, hcall, Option.bind_some]
              exact hrest
            · have hpromotes : Promotes k R { k₁ with waitTicks := update k₁.waitTicks p 0 } _ :=
                .promote h hmem hhigh hprio hready₁
              refine .promote hmem hpN hhigh ?_ ?_ hpromotes (h.list pr).nodup rfl hwalked
              · exact hprio
              · exact hwait₀
          · rw [if_neg hdue]
            have hring := (h.list pr).ring
            rw [hL, List.append_assoc] at hring
            have hnode := hring.nx_node
            rw [Function.update_of_ne hp0] at hnode
            obtain ⟨k', R', M, hrest, hwalked⟩ := ih
              (h.withWaitTicks (update k.waitTicks p (k.waitTicks p + 1))) (A := A ++ [p]) (B := B)
              (by simp [hL]) hnode
              (by simp only [List.cons_append, List.length_cons] at hn; omega)
              (fun a ha => hNwait a ha _)
              (fun hlt a ha => by
                rcases List.mem_append.mp ha with ha | ha
                · have hap : a ≠ p := fun he => hpA (he ▸ ha)
                  dsimp only
                  rw [Function.update_of_ne hap]
                  exact hA hlt a ha
                · rw [List.mem_singleton.mp ha]
                  dsimp only
                  have hprio := h.priority pr p hmem
                  rw [hprio] at hdue
                  exact not_le.mp fun hle => hdue ⟨hle, hlt⟩)
            exact ⟨k', R', M, hrest, hwalked.count hmem⟩

/-- The walks over the ready queues from some priority on. -/
theorem ReadyQueues.ageQueues (prs : List Priority) (h : ReadyQueues k R)
    (hsorted : prs.Pairwise (· < ·))
    (hnext : ∀ pr ∈ prs, (pr : ℕ) < processPriorityMax → ∃ pr' ∈ prs, (pr' : ℕ) = pr + 1)
    (hlast : ∀ pr, prs.head? = some pr → ∃ A, R pr = A ++ N)
    (hN : ∀ a ∈ N, (∃ pr ∈ prs, a ∈ R pr) ∧ k.waitTicks a + 1 < agingThreshold) :
    ∃ k' R', SoKernel.ageQueues k prs = some k' ∧ WalkedAll prs N k R k' R' := by
  induction prs generalizing k R N with
  | nil =>
      refine ⟨k, R, rfl, .refl h rfl, fun _ => .inl rfl, fun a ha => ?_, fun _ _ => ⟨rfl, rfl⟩,
        fun pr hpr => absurd hpr List.not_mem_nil⟩
      obtain ⟨pr, hpr, -⟩ := (hN a ha).1
      exact absurd hpr List.not_mem_nil
  | cons pr prs ih =>
      obtain ⟨hlt, hsorted'⟩ := List.pairwise_cons.mp hsorted
      obtain ⟨A, hA⟩ := hlast pr rfl
      have hq := h.list pr
      have hlen := hq.ring.length_lt (h.bounded pr) addressCount_pos
      obtain ⟨k₁, R₁, M, hwalk, hwalked⟩ := h.agingLoop (addressCount * addressCount)
        (p := (k.queues (.ready pr)).head) (A := []) (B := A) (N := N) hA (by rw [← hA]; exact hq.head_eq) (by rw [← hA]; nlinarith)
        (fun a ha => (hN a ha).2) (fun _ a ha => absurd ha List.not_mem_nil)
      -- the promoted processes stand at the end of the next queue
      have hM : ∀ pr', prs.head? = some pr' → (pr' : ℕ) = pr + 1 := by
        intro pr' hhead
        obtain ⟨rest, rfl⟩ := List.head?_eq_some_iff.mp hhead
        have hup := Fin.lt_def.mp (hlt pr' List.mem_cons_self)
        have hmax : (pr : ℕ) < processPriorityMax := by
          rw [processPriorityMax]
          omega
        obtain ⟨pr'', hmem, hval⟩ := hnext pr List.mem_cons_self hmax
        rcases List.mem_cons.mp hmem with rfl | hmem
        · omega
        · rcases List.mem_cons.mp hmem with rfl | hmem
          · exact hval
          · have := Fin.lt_def.mp ((List.pairwise_cons.mp hsorted').1 pr'' hmem)
            omega
      have hMhead : ∀ a ∈ M, (∃ pr' ∈ prs, a ∈ R₁ pr') ∧ k₁.waitTicks a + 1 < agingThreshold := by
        intro a ha
        obtain ⟨-, -, hval, hzero⟩ := hwalked.raised a ha
        have hmax : (pr : ℕ) < processPriorityMax := by
          rw [processPriorityMax]
          omega
        obtain ⟨pr', hmem, hval'⟩ := hnext pr List.mem_cons_self hmax
        refine ⟨⟨pr', (List.mem_cons.mp hmem).resolve_left fun he => ?_, ?_⟩, ?_⟩
        · rw [he] at hval'
          omega
        · rw [hwalked.next pr' hval']
          exact List.mem_append_right _ ha
        · rw [hzero]
          decide
      have hnext' : ∀ pr' ∈ prs, (pr' : ℕ) < processPriorityMax →
          ∃ pr'' ∈ prs, (pr'' : ℕ) = pr' + 1 := by
        intro pr' hmem hmax
        obtain ⟨pr'', hmem'', hval⟩ := hnext pr' (List.mem_cons_of_mem pr hmem) hmax
        refine ⟨pr'', (List.mem_cons.mp hmem'').resolve_left fun he => ?_, hval⟩
        have := Fin.lt_def.mp (hlt pr' hmem)
        rw [he] at hval
        omega
      obtain ⟨k', R', hrest, hall⟩ := ih hwalked.promotes.ready hsorted' hnext'
        (fun pr' hhead => ⟨R pr', hwalked.next pr' (hM pr' hhead)⟩) hMhead
      have hpr : pr ∉ prs := fun hm => lt_irrefl _ (hlt pr hm)
      have hNM : ∀ a ∈ N, a ∉ M := fun a ha hm => (hwalked.raised a hm).2.1 ha
      have hNpr : ∀ a ∈ N, k.priority a = pr := fun a ha =>
        h.priority pr a (hA ▸ List.mem_append_right A ha)
      refine ⟨k', R', ?_, hwalked.promotes.trans hall.promotes, fun a => ?_, fun a ha => ?_,
        fun a ha => ?_, fun pr' hpr' hmax a ha => ?_⟩
      · rw [SoKernel.ageQueues, hwalk, Option.bind_eq_bind, Option.bind_some, hrest]
      · by_cases hm : a ∈ M
        · obtain ⟨hmem, -, hval, -⟩ := hwalked.raised a hm
          rw [hall.fresh a hm, h.priority pr a hmem]
          exact .inr hval
        · rw [← hwalked.kept a hm]
          exact hall.raised a
      · have hkept := hwalked.kept a (hNM a ha)
        have hout : k₁.priority a ∉ prs := by
          rw [hkept, hNpr a ha]
          exact hpr
        exact (hall.kept a hout).1.trans hkept
      · obtain ⟨hne, hout⟩ := not_or.mp (mt List.mem_cons.mpr ha)
        have hmem : a ∉ R pr := fun hm => hne (h.priority pr a hm)
        have hkept := hwalked.kept a fun hm => hmem (hwalked.raised a hm).1
        obtain ⟨hprio, hwait⟩ := hall.kept a (hkept.symm ▸ hout)
        exact ⟨hprio.trans hkept, hwait.trans (hwalked.other a hmem)⟩
      · rcases List.mem_cons.mp hpr' with rfl | hpr'
        · -- later walks meet none of the processes that stay here
          obtain ⟨pr₁, ha₁⟩ := (hall.promotes.members a).mp ⟨pr', ha⟩
          have hprio₁ := hwalked.promotes.ready.priority pr₁ a ha₁
          have hle := hall.promotes.le a
          rw [hprio₁, hall.promotes.ready.priority pr' a ha] at hle
          have hout : k₁.priority a ∉ prs := by
            rw [hprio₁]
            exact fun hm => absurd (hlt pr₁ hm) (not_lt.mpr hle)
          obtain ⟨hprio, hwait⟩ := hall.kept a hout
          rw [hprio₁, hall.promotes.ready.priority pr' a ha] at hprio
          rw [hwait]
          exact hwalked.waits hmax a (hprio ▸ ha₁)
        · exact hall.waits pr' hpr' hmax a ha

end Walks

/-- `apply_aging` ends. The ready queues are lists of the same processes, each process is in the
queue of its priority, which has grown by one at most, those that were not promoted are in their
old order, and below the highest priority nobody has waited as long as the threshold. -/
theorem aging_preserves_ready_queues (h : ReadyQueues k R) :
    ∃ k' R', applyAging k = some k' ∧ ReadyQueues k' R' ∧
      (∀ a, (∃ pr, a ∈ R' pr) ↔ ∃ pr, a ∈ R pr) ∧
      (∀ a, k'.priority a = k.priority a ∨ (k'.priority a : ℕ) = k.priority a + 1) ∧
      (∀ pr, unpromoted k k' (R' pr) = unpromoted k k' (R pr)) ∧
      ∀ pr : Priority, (pr : ℕ) < processPriorityMax → ∀ a ∈ R' pr, k'.waitTicks a < agingThreshold := by
  have hall : ∀ pr : Priority, pr ∈ [0, 1, 2] := by decide
  have hnext : ∀ pr ∈ ([0, 1, 2] : List Priority), (pr : ℕ) < processPriorityMax →
      ∃ pr' ∈ ([0, 1, 2] : List Priority), (pr' : ℕ) = pr + 1 := by decide
  obtain ⟨k', R', hcall, hwalked⟩ := h.ageQueues (N := []) [0, 1, 2] (by decide) hnext
    (fun pr _ => ⟨R pr, (List.append_nil _).symm⟩) (fun a ha => absurd ha List.not_mem_nil)
  exact ⟨k', R', hcall, hwalked.promotes.ready, hwalked.promotes.members, hwalked.raised,
    hwalked.promotes.order, fun pr => hwalked.waits pr (hall pr)⟩

/-- Two processes of the lowest priority that are due. -/
def duePair : Kernel :=
  { pairQueued with
    queues := update (fun _ => ⟨0, 0, 0⟩) (.ready 0) ⟨8, 16, 2⟩
    waitTicks := fun _ => 199 }

theorem duePair_ready : ReadyQueues duePair (update (fun _ => []) 0 [8, 16]) := by
  refine ⟨fun pr => ?_, fun _ _ _ => ?_, fun pr p hp => ?_⟩
  · by_cases hpr : pr = 0
    · subst hpr
      exact ⟨pairQueued_list.ring, rfl⟩
    · rw [Function.update_of_ne hpr]
      have hne : QueueId.ready pr ≠ .ready 0 := fun he => hpr (QueueId.ready.inj he)
      refine ⟨?_, ?_⟩
      · rw [LinkedRing.Ring.nil_iff]
        simp [duePair, hne]
      · simp [duePair, hne]
  · rename_i pr p hp
    by_cases hpr : pr = 0
    · exact hpr.symm
    · rw [Function.update_of_ne hpr] at hp
      cases hp
  · rw [addressCount]
    have hsmall : p ∈ [8, 16] := by
      by_cases hpr : pr = 0
      · subst hpr
        exact hp
      · rw [Function.update_of_ne hpr] at hp
        cases hp
    have hle : p ≤ 16 := by
      rcases List.mem_pair.mp hsmall with rfl | rfl <;> decide
    omega

/-- The theorem at two processes that are due. -/
theorem aging_preserves_due_pair : ∃ k' R', applyAging duePair = some k' ∧ ReadyQueues k' R' ∧
    ∀ a, (∃ pr, a ∈ R' pr) ↔ ∃ pr, a ∈ update (fun _ : Priority => []) 0 [8, 16] pr := by
  obtain ⟨k', R', hcall, hready, hmembers, -⟩ := aging_preserves_ready_queues duePair_ready
  exact ⟨k', R', hcall, hready, hmembers⟩

end SoKernel
