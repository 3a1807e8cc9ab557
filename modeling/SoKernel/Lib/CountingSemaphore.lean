import Mathlib.Algebra.Order.Ring.Int
import Mathlib.Data.Int.Notation
import Mathlib.Data.Nat.Notation
import Mathlib.Logic.Function.Iterate

/-!
# Counting semaphores with a queue

A semaphore as its tokens and the processes that wait for one, first come first. A signal
hands its token to the first waiting process, so that a semaphore with tokens has no
waiting process.
-/

structure CountingSemaphore (P : Type*) where
  value : ℤ
  queue : List P

namespace CountingSemaphore

variable {P : Type*} {s : CountingSemaphore P} {p : P}

def take (s : CountingSemaphore P) : CountingSemaphore P := ⟨s.value - 1, s.queue⟩

def enqueue (s : CountingSemaphore P) (p : P) : CountingSemaphore P := ⟨s.value, s.queue ++ [p]⟩

/-- The first waiting process is released, or there is one token more. -/
def signal (s : CountingSemaphore P) : CountingSemaphore P :=
  match s.queue with
  | [] => ⟨s.value + 1, []⟩
  | _ :: q => ⟨s.value, q⟩

/-- At most `n` processes are released; the rest of the `n` tokens stays. -/
def set (s : CountingSemaphore P) (n : ℕ) : CountingSemaphore P :=
  ⟨n - (s.queue.take n).length, s.queue.drop n⟩

theorem signal_of_nil (h : s.queue = []) : s.signal = ⟨s.value + 1, []⟩ := by
  unfold signal
  rw [h]

theorem signal_of_cons {q : List P} (h : s.queue = p :: q) : s.signal = ⟨s.value, q⟩ := by
  unfold signal
  rw [h]

/-- The processes that wait after a signal waited before. -/
theorem mem_of_mem_signal (h : p ∈ s.signal.queue) : p ∈ s.queue := by
  cases hq : s.queue with
  | nil =>
      rw [signal_of_nil hq] at h
      cases h
  | cons w q =>
      rw [signal_of_cons hq] at h
      exact List.mem_cons_of_mem _ h

/-- Signals release one waiting process each, in order. -/
theorem signal_iterate_queue (n : ℕ) : (signal^[n] s).queue = s.queue.drop n := by
  induction n generalizing s with
  | zero => rfl
  | succ n ih =>
      rw [Function.iterate_succ_apply, ih]
      cases hq : s.queue with
      | nil => rw [signal_of_nil hq, List.drop_nil, List.drop_nil]
      | cons w q => rw [signal_of_cons hq, List.drop_succ_cons]

/-- Tokens are never owed, and nobody waits while there are tokens. -/
structure Steady (s : CountingSemaphore P) : Prop where
  nonneg : 0 ≤ s.value
  idle : 0 < s.value → s.queue = []

namespace Steady

theorem take (h : s.Steady) (hpos : 0 < s.value) : s.take.Steady :=
  ⟨by simp only [CountingSemaphore.take]; omega, fun _ => h.idle hpos⟩

theorem enqueue (h : s.Steady) (hzero : ¬0 < s.value) : (s.enqueue p).Steady :=
  ⟨h.nonneg, fun hpos => absurd hpos hzero⟩

theorem signal (h : s.Steady) : s.signal.Steady := by
  cases hq : s.queue with
  | nil =>
      rw [signal_of_nil hq]
      exact ⟨by have := h.nonneg; simp only; omega, fun _ => rfl⟩
  | cons w q =>
      rw [signal_of_cons hq]
      refine ⟨h.nonneg, fun hpos => ?_⟩
      rw [h.idle hpos] at hq
      cases hq

theorem set (n : ℕ) : (s.set n).Steady := by
  refine ⟨?_, fun hpos => ?_⟩
  · simp only [CountingSemaphore.set, List.length_take]
    omega
  · simp only [CountingSemaphore.set, List.length_take] at hpos ⊢
    exact List.drop_eq_nil_of_le (by omega)

end Steady
end CountingSemaphore
