import Mathlib.Order.Fin.Basic
import Mathlib.Tactic.Linarith
import SoKernel.Proc.Consistency

/-!
# Aging

`apply_aging` walks the ready queues and moves the processes that waited long to the next
priority. After each move it starts again at the head of the queue, so that a queue of `n`
processes takes at most about `n * n` turns.
-/

namespace SoKernel

open Function (update)

variable {k : Kernel} {c p : ℕ} {pr : Priority} {Q : QueueId → List ℕ}

theorem clampPriority_boost (hlt : (pr : ℕ) < processPriorityMax) :
    pr < clampPriority (pr + agingBoost) := by
  revert hlt pr
  decide

/-- What aging keeps: it changes the priorities of ready processes, and only upwards. -/
structure Aged (state : ℕ → ProcessState) (prio prio' : ℕ → Priority) (Q Q' : QueueId → List ℕ) :
    Prop where
  finished : Q' .finished = Q .finished
  blocked : Q' .blocked = Q .blocked
  priority_le : ∀ a, prio a ≤ prio' a
  priority_eq : ∀ a, state a ≠ .ready → prio' a = prio a

namespace Aged

variable {state : ℕ → ProcessState} {prio prio' prio'' : ℕ → Priority}
variable {Q' Q'' : QueueId → List ℕ}

theorem refl (state : ℕ → ProcessState) (prio : ℕ → Priority) (Q : QueueId → List ℕ) :
    Aged state prio prio Q Q :=
  ⟨rfl, rfl, fun _ => le_rfl, fun _ _ => rfl⟩

theorem trans (h : Aged state prio prio' Q Q') (h' : Aged state prio' prio'' Q' Q'') :
    Aged state prio prio'' Q Q'' where
  finished := h'.finished.trans h.finished
  blocked := h'.blocked.trans h.blocked
  priority_le a := (h.priority_le a).trans (h'.priority_le a)
  priority_eq a ha := (h'.priority_eq a ha).trans (h.priority_eq a ha)

end Aged

/-- What a walk over a queue does to the waiting times: it leaves other processes alone, and a
process that it has visited waits longer or has a higher priority. It promotes those that are due
when it comes to them, by one level and with no time waited. -/
structure Waited (prio prio' : ℕ → Priority) (wait wait' : ℕ → ℕ) (queue visited : List ℕ) : Prop where
  other : ∀ a, a ∉ queue → prio' a = prio a ∧ wait' a = wait a
  grows : ∀ a, prio a < prio' a ∨ wait a ≤ wait' a
  counted : ∀ a ∈ visited, prio a < prio' a ∨ wait a < wait' a
  raised : ∀ a, prio' a = prio a ∨ prio' a = clampPriority (prio a + agingBoost) ∧ wait' a = 0
  promoted : ∀ a ∈ visited, agingThreshold ≤ wait a + 1 → (prio a : ℕ) < processPriorityMax →
    prio a < prio' a

namespace Waited

variable {prio prio' : ℕ → Priority} {wait wait' : ℕ → ℕ} {L B : List ℕ}

theorem refl (prio : ℕ → Priority) (wait : ℕ → ℕ) (L : List ℕ) : Waited prio prio wait wait L [] :=
  ⟨fun _ _ => ⟨rfl, rfl⟩, fun _ => .inr le_rfl, fun _ ha => absurd ha List.not_mem_nil,
    fun _ => .inl rfl, fun _ ha => absurd ha List.not_mem_nil⟩

/-- One more process is counted before the rest of the walk. -/
theorem count (hp : p ∈ L)
    (hnot : ¬(agingThreshold ≤ wait p + 1 ∧ (prio p : ℕ) < processPriorityMax))
    (h : Waited prio prio' (update wait p (wait p + 1)) wait' L B) :
    Waited prio prio' wait wait' L (p :: B) := by
  have hgrows : ∀ a, prio a < prio' a ∨ (wait a ≤ wait' a ∧ (a = p → wait a < wait' a)) := by
    intro a
    rcases h.grows a with hlt | hle
    · exact .inl hlt
    · by_cases hap : a = p
      · subst hap
        rw [Function.update_self] at hle
        exact .inr ⟨by omega, fun _ => by omega⟩
      · rw [Function.update_of_ne hap] at hle
        exact .inr ⟨hle, fun he => absurd he hap⟩
  refine ⟨fun a ha => ?_, fun a => (hgrows a).imp_right And.left, fun a ha => ?_, h.raised,
    fun a ha hdue hlt => ?_⟩
  · have hap : a ≠ p := fun he => ha (he ▸ hp)
    obtain ⟨hprio, hwait⟩ := h.other a ha
    rw [Function.update_of_ne hap] at hwait
    exact ⟨hprio, hwait⟩
  · by_cases hap : a = p
    · exact (hgrows a).imp_right fun hw => hw.2 hap
    · have hrest := h.counted a ((List.mem_cons.mp ha).resolve_left hap)
      rwa [Function.update_of_ne hap] at hrest
  · have hap : a ≠ p := fun he => hnot (he ▸ ⟨hdue, hlt⟩)
    refine h.promoted a ((List.mem_cons.mp ha).resolve_left hap) ?_ hlt
    rwa [Function.update_of_ne hap]

/-- A process leaves the queue with a higher priority, and the walk starts again. -/
theorem promote {high : Priority} (hL : L.Nodup) (hp : p ∈ L)
    (hhigh : high = clampPriority (prio p + agingBoost)) (hlt : prio p < high)
    (hB : ∀ a ∈ B, a ∈ L)
    (h : Waited (update prio p high) prio' (update wait p 0) wait' (L.erase p) (L.erase p)) :
    Waited prio prio' wait wait' L B := by
  obtain ⟨hprio, hzero⟩ := h.other p hL.not_mem_erase
  rw [Function.update_self] at hprio hzero
  have hself : prio p < prio' p := hprio ▸ hlt
  refine ⟨fun a ha => ?_, fun a => ?_, fun a ha => ?_, fun a => ?_, fun a ha hdue hmax => ?_⟩
  · have hap : a ≠ p := fun he => ha (he ▸ hp)
    obtain ⟨hprio, hwait⟩ := h.other a fun hm => ha (List.mem_of_mem_erase hm)
    rw [Function.update_of_ne hap] at hprio hwait
    exact ⟨hprio, hwait⟩
  · by_cases hap : a = p
    · exact .inl (hap ▸ hself)
    · have hgrows := h.grows a
      rwa [Function.update_of_ne hap, Function.update_of_ne hap] at hgrows
  · by_cases hap : a = p
    · exact .inl (hap ▸ hself)
    · have hcounted := h.counted a ((hL.mem_erase_iff).mpr ⟨hap, hB a ha⟩)
      rwa [Function.update_of_ne hap, Function.update_of_ne hap] at hcounted
  · by_cases hap : a = p
    · subst hap
      exact .inr ⟨hprio.trans hhigh, hzero⟩
    · have hraised := h.raised a
      rwa [Function.update_of_ne hap] at hraised
  · by_cases hap : a = p
    · exact hap ▸ hself
    · have hpromoted := h.promoted a ((hL.mem_erase_iff).mpr ⟨hap, hB a ha⟩)
      rw [Function.update_of_ne hap, Function.update_of_ne hap] at hpromoted
      exact hpromoted hdue hmax

end Waited

/-- Counting the turns of a waiting process. -/
theorem Placed.withWaitTicks (h : Placed k c Q) (wt : ℕ → ℕ) :
    Placed { k with waitTicks := wt } c Q := ⟨h.rings, h.members, h.valid⟩

/-- Moving a process of a ready queue to the next priority. -/
theorem Placed.boost (h : Placed k c Q) (hp : p ∈ Q (.ready pr))
    (hlt : (k.priority p : ℕ) < processPriorityMax) :
    ∃ l Q', (do
        let k ← processQueueRemove k (.ready pr) p
        let k := { k with
          priority := update k.priority p (clampPriority (k.priority p + agingBoost)) }
        processQueuePush k (.ready (k.priority p)) p) =
          some ({ k with
            priority :=
              update k.priority p (clampPriority (k.priority p + agingBoost)) }.relink l) ∧
      Placed ({ k with
          priority :=
            update k.priority p (clampPriority (k.priority p + agingBoost)) }.relink l) c Q' ∧
      Q' (.ready pr) = (Q (.ready pr)).erase p ∧
      Aged k.state k.priority
        (update k.priority p (clampPriority (k.priority p + agingBoost))) Q Q' := by
  obtain ⟨ha, hs, hpr⟩ := (h.members.ready pr p (by simp)).mp hp
  have hnodup := (h.rings.list (.ready pr)).nodup
  have hv := h.valid p ha
  have hboost := clampPriority_boost hlt
  have hne : clampPriority (k.priority p + agingBoost) ≠ pr := hpr ▸ hboost.ne'
  obtain ⟨nx, pv, qs, heq, hrings⟩ := processQueueRemove_spec (q := .ready pr) (p := p) h.rings
  have hfree : ∀ q, p ∉ update Q (.ready pr) ((Q (.ready pr)).erase p) q := by
    intro q hm
    rw [mem_lift hnodup] at hm
    by_cases hq : q = .ready pr
    · exact hm.2 ⟨rfl, hq⟩
    · exact h.free_of_ready hs (hpr.symm ▸ hq) hm.1
  obtain ⟨l, hpush, hrings', hmem'⟩ := readyQueuePush_spec
    ({ k with
      priority :=
        update k.priority p (clampPriority (k.priority p + agingBoost)) }.relink ⟨nx, pv, qs⟩)
    hrings (((h.members.exempt p).lift hnodup).setPriority _) ha hv hs (fun q _ => hfree q)
  refine ⟨l, _, ?_, ⟨hrings', hmem', h.valid⟩, ?_, ⟨by simp, by simp, fun a => ?_, fun a hready => ?_⟩⟩
  · rw [heq]
    rw [readyQueuePush, if_neg hv.1] at hpush
    exact hpush
  · have hq : QueueId.ready pr ≠ .ready (update k.priority p
        (clampPriority (k.priority p + agingBoost)) p) := by
      simpa [eq_comm] using hne
    rw [Function.update_of_ne hq, Function.update_self]
  · rcases eq_or_ne a p with rfl | hap
    · rw [Function.update_self]
      exact hboost.le
    · rw [Function.update_of_ne hap]
  · have hap : a ≠ p := by
      rintro rfl
      exact hready hs
    exact Function.update_of_ne hap _ _

/-- The walk over one ready queue ends, and keeps the queues in agreement. -/
theorem Placed.agingLoop (n : ℕ) (h : Placed k c Q) {A B : List ℕ}
    (hAB : Q (.ready pr) = A ++ B) (hp : p = B.head?.getD 0)
    (hn : B.length + (Q (.ready pr)).length * (Q (.ready pr)).length < n) :
    ∃ l prio wt Q', agingLoop pr n p k = some
        ({ k with
          priority := prio
          waitTicks := wt }.relink l) ∧
      Placed
        ({ k with
          priority := prio
          waitTicks := wt }.relink l) c Q' ∧
      Aged k.state k.priority prio Q Q' ∧
      Waited k.priority prio k.waitTicks wt (Q (.ready pr)) B := by
  induction n generalizing k Q A B p with
  | zero => exact absurd hn (Nat.not_lt_zero _)
  | succ n ih =>
      cases B with
      | nil =>
          subst hp
          exact ⟨⟨k.queueNext, k.queuePrev, k.queues⟩, k.priority, k.waitTicks, Q, rfl, h, .refl ..,
            .refl ..⟩
      | cons x B =>
          obtain rfl : p = x := hp
          have hmem : p ∈ Q (.ready pr) := by simp [hAB]
          have hp0 : p ≠ 0 := h.rings.ne_zero hmem
          rw [SoKernel.agingLoop, if_neg hp0]
          have hk := h.withWaitTicks (update k.waitTicks p (k.waitTicks p + 1))
          generalize hwt : update k.waitTicks p (k.waitTicks p + 1) = wt at hk
          by_cases hold : agingThreshold ≤ wt p ∧ (k.priority p : ℕ) < processPriorityMax
          · obtain ⟨l, Q', heq, hplaced, hpr, haged⟩ := hk.boost hmem hold.2
            have hlen : ((Q (.ready pr)).erase p).length + 1 = (Q (.ready pr)).length := by
              rw [List.length_erase_of_mem hmem]
              have := List.length_pos_of_mem hmem
              omega
            have hhead := (hplaced.rings.list (.ready pr)).head_eq
            have hfuel : (Q' (.ready pr)).length + (Q' (.ready pr)).length * (Q' (.ready pr)).length
                < n := by
              rw [hpr]
              simp only [List.length_cons] at hn
              nlinarith
            obtain ⟨l', prio, wt', Q'', heq', hplaced', haged', hwaited⟩ := ih
              (hplaced.withWaitTicks (update wt p 0)) (A := []) rfl hhead hfuel
            refine ⟨l', prio, wt', Q'', ?_, hplaced', haged.trans haged', ?_⟩
            swap
            · have hwt₀ : update wt p 0 = update k.waitTicks p 0 := by
                rw [← hwt, Function.update_idem]
              dsimp only at hwaited
              rw [hpr, hwt₀] at hwaited
              refine hwaited.promote (h.rings.list _).nodup hmem rfl (clampPriority_boost hold.2)
                fun a ha => ?_
              rw [hAB]
              exact List.mem_append_right A ha
            rw [if_pos hold]
            simp only [Option.bind_eq_bind] at heq ⊢
            rw [← Option.bind_assoc, heq, Option.bind_some]
            exact heq'
          · rw [if_neg hold]
            have hnext := (h.rings.list (.ready pr)).ring
            rw [hAB] at hnext
            have hnode := hnext.nx_node
            rw [Function.update_of_ne hp0] at hnode
            obtain ⟨l', prio, wt', Q', heq', hplaced', haged', hwaited⟩ := ih hk (A := A ++ [p])
              (B := B) (by simpa using hAB) hnode (by simp only [List.length_cons] at hn; omega)
            refine ⟨l', prio, wt', Q', heq', hplaced', haged', ?_⟩
            rw [← hwt] at hwaited hold
            rw [Function.update_self] at hold
            exact hwaited.count hmem hold

/-- `apply_aging` ends and keeps the queues in agreement. -/
theorem Placed.ageQueues (prs : List Priority) (h : Placed k c Q) :
    ∃ l prio wt Q', ageQueues k prs = some
        ({ k with
          priority := prio
          waitTicks := wt }.relink l) ∧
      Placed
        ({ k with
          priority := prio
          waitTicks := wt }.relink l) c Q' ∧
      Aged k.state k.priority prio Q Q' := by
  induction prs generalizing k Q with
  | nil =>
      exact ⟨⟨k.queueNext, k.queuePrev, k.queues⟩, k.priority, k.waitTicks, Q, rfl, h, .refl ..⟩
  | cons pr prs ih =>
      have hq := h.rings.list (.ready pr)
      have hlen := hq.ring.length_lt (h.rings.bounded _) addressCount_pos
      obtain ⟨l, prio, wt, Q', heq, hplaced, haged, -⟩ := h.agingLoop (addressCount * addressCount)
        (A := []) rfl hq.head_eq (by nlinarith)
      obtain ⟨l', prio', wt', Q'', heq', hplaced', haged'⟩ := ih hplaced
      refine ⟨l', prio', wt', Q'', ?_, hplaced', haged.trans haged'⟩
      rw [SoKernel.ageQueues, heq, Option.bind_eq_bind, Option.bind_some, heq']

theorem ageQueues_spec (prs : List Priority) (h : QueuesAgree k c Q) :
    ∃ l prio wt Q', ageQueues k prs = some
        ({ k with
          priority := prio
          waitTicks := wt }.relink l) ∧
      QueuesAgree
        ({ k with
          priority := prio
          waitTicks := wt }.relink l) c Q' ∧
      Q' .finished = Q .finished ∧ Q' .blocked = Q .blocked := by
  obtain ⟨l, prio, wt, Q', heq, hplaced, haged⟩ := h.placed.ageQueues prs
  exact ⟨l, prio, wt, Q', heq, ⟨hplaced.rings, hplaced.members, hplaced.valid, h.idle, h.current,
    h.terminals, h.noPipes⟩, haged.finished, haged.blocked⟩

end SoKernel
