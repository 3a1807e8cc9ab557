import Mathlib.Data.List.Nodup
import SoKernel.Lib.CountingSemaphore

/-!
# A semaphore as a lock

Processes enter by a wait and leave by a signal of one semaphore that starts with one token. The
token is in the semaphore, or with the one process that has entered and is not in the queue.
-/

/-- A semaphore, and the processes that have called wait and not signalled since. -/
structure Lock (P : Type*) where
  sem : CountingSemaphore P
  entered : P → Prop

namespace Lock

variable {P : Type*} {s s' : Lock P} {p q : P}

/-- The process has the token. -/
def Holds (s : Lock P) (p : P) : Prop := s.entered p ∧ p ∉ s.sem.queue

structure Inv (s : Lock P) : Prop where
  steady : s.sem.Steady
  nodup : s.sem.queue.Nodup
  queue : ∀ p ∈ s.sem.queue, s.entered p
  phase : (s.sem.value = 1 ∧ ∀ p, ¬s.Holds p) ∨ s.sem.value = 0 ∧ ∃ p, ∀ q, s.Holds q ↔ q = p

/-- The lock before the first call. -/
theorem Inv.start (hsem : s.sem = ⟨1, []⟩) (hout : ∀ p, ¬s.entered p) : s.Inv := by
  refine ⟨⟨?_, fun _ => ?_⟩, ?_, ?_, .inl ⟨?_, fun p hp => hout p hp.1⟩⟩
  all_goals simp [hsem]

/-- At most one process has the token. -/
theorem Inv.exclusive (h : s.Inv) (hp : s.Holds p) (hq : s.Holds q) : p = q := by
  obtain ⟨-, hnobody⟩ | ⟨-, w, honly⟩ := h.phase
  · exact absurd hp (hnobody p)
  · exact ((honly p).mp hp).trans ((honly q).mp hq).symm

theorem Inv.holder (h : s.Inv) (hp : s.Holds p) : s.sem.value = 0 ∧ ∀ q, s.Holds q ↔ q = p := by
  obtain ⟨-, hnobody⟩ | ⟨hzero, w, honly⟩ := h.phase
  · exact absurd hp (hnobody p)
  · obtain rfl := (honly p).mp hp
    exact ⟨hzero, honly⟩

/-- A process that has not entered is not in the queue. -/
theorem Inv.out (h : s.Inv) (hp : ¬s.entered p) : p ∉ s.sem.queue := fun hm => hp (h.queue p hm)

theorem Inv.take (h : s.Inv) (out : ¬s.entered p) (pos : 0 < s.sem.value) :
    Inv ⟨s.sem.take, fun q => q = p ∨ s.entered q⟩ := by
  obtain ⟨hone, hnobody⟩ | ⟨hzero, -⟩ := h.phase
  · refine ⟨h.steady.take pos, h.nodup, fun q hq => .inr (h.queue q hq),
      .inr ⟨?_, p, fun q => ⟨?_, ?_⟩⟩⟩
    · simp only [CountingSemaphore.take, hone]
      rfl
    · rintro ⟨hq | hq, hout⟩
      · exact hq
      · exact absurd ⟨hq, hout⟩ (hnobody q)
    · rintro rfl
      exact ⟨.inl rfl, h.out out⟩
  · omega

theorem Inv.await (h : s.Inv) (out : ¬s.entered p) (zero : ¬0 < s.sem.value) :
    Inv ⟨s.sem.enqueue p, fun q => q = p ∨ s.entered q⟩ := by
  have hmem : ∀ q, q ∈ (s.sem.enqueue p).queue ↔ q ∈ s.sem.queue ∨ q = p := by
    simp [CountingSemaphore.enqueue]
  obtain ⟨hone, -⟩ | ⟨hzero, w, honly⟩ := h.phase
  · omega
  · refine ⟨h.steady.enqueue zero, ?_, fun q hq => ?_, .inr ⟨hzero, w, fun q => ?_⟩⟩
    · exact List.nodup_append.mpr ⟨h.nodup, List.nodup_singleton p, fun q hq r hr => by
        rintro rfl
        exact h.out out (List.mem_singleton.mp hr ▸ hq)⟩
    · exact ((hmem q).mp hq).elim (fun hq => .inr (h.queue q hq)) .inl
    · rw [← honly q, Holds, Holds, hmem, not_or]
      constructor
      · rintro ⟨hq | hq, hout, hne⟩
        · exact absurd hq hne
        · exact ⟨hq, hout⟩
      · rintro ⟨hq, hout⟩
        refine ⟨.inr hq, hout, ?_⟩
        rintro rfl
        exact out hq

/-- The token goes to the first process in the queue, or back to the semaphore. -/
theorem Inv.post (h : s.Inv) (holds : s.Holds p) :
    Inv ⟨s.sem.signal, fun q => q ≠ p ∧ s.entered q⟩ := by
  obtain ⟨hzero, honly⟩ := h.holder holds
  have hstays : ∀ q ∈ s.sem.queue, q ≠ p ∧ s.entered q := by
    intro q hq
    refine ⟨?_, h.queue q hq⟩
    rintro rfl
    exact holds.2 hq
  have hsteady := h.steady.signal
  cases hqueue : s.sem.queue with
  | nil =>
      rw [CountingSemaphore.signal_of_nil hqueue] at hsteady ⊢
      refine ⟨hsteady, List.nodup_nil, fun q hq => absurd hq List.not_mem_nil, .inl ⟨?_, ?_⟩⟩
      · simp only [hzero]
        rfl
      · rintro q ⟨⟨hne, hq⟩, -⟩
        exact hne ((honly q).mp ⟨hq, by simp [hqueue]⟩)
  | cons w l =>
      have hnodup := h.nodup
      rw [hqueue] at hnodup hstays
      rw [CountingSemaphore.signal_of_cons hqueue] at hsteady ⊢
      refine ⟨hsteady, (List.nodup_cons.mp hnodup).2, fun q hq => hstays q (List.mem_cons_of_mem _ hq),
        .inr ⟨hzero, w, fun q => ⟨?_, ?_⟩⟩⟩
      · rintro ⟨⟨hne, hq⟩, hout⟩
        by_contra hw
        apply hne
        apply (honly q).mp
        refine ⟨hq, ?_⟩
        rw [hqueue]
        exact List.not_mem_cons_of_ne_of_not_mem hw hout
      · rintro rfl
        exact ⟨hstays q List.mem_cons_self, (List.nodup_cons.mp hnodup).1⟩

/-- The same lock, told by another predicate. -/
theorem Inv.congr (h : s.Inv) (hsem : s'.sem = s.sem) (hsame : ∀ p, s'.entered p ↔ s.entered p) :
    s'.Inv := by
  have heq : s' = s := by
    cases s
    cases s'
    obtain rfl := hsem
    exact congrArg (Lock.mk _) (funext fun p => propext (hsame p))
  exact heq ▸ h

end Lock
