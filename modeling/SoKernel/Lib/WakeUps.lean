import Mathlib.Data.Set.Card

/-!
# Wake-ups that are not lost

The units of a resource, the processes that wait for one of them, and the processes that were
woken and have not looked at the resource since. A unit that appears wakes one process, and a
process waits only if it has seen no unit; then, while somebody waits, there is a woken
process for each unit.
-/

structure WaitPoint (P : Type*) where
  available : ℕ
  queue : List P
  woken : Set P

namespace WaitPoint

variable {P : Type*} {w w' : WaitPoint P} {p : P}

/-- While somebody waits, every unit has a process on its way to it. -/
def NoLostWakeUp (w : WaitPoint P) : Prop :=
  w.queue ≠ [] → (w.available : ℕ∞) ≤ w.woken.encard

theorem NoLostWakeUp.of_none (h : w.available = 0) : w.NoLostWakeUp := by
  intro _
  rw [h]
  exact bot_le

namespace NoLostWakeUp

/-- More processes are woken, with the same units. -/
theorem wake (h : w.NoLostWakeUp) (havail : w'.available = w.available)
    (hqueue : w'.queue ≠ [] → w.queue ≠ []) (hwoken : w.woken ⊆ w'.woken) : w'.NoLostWakeUp := by
  intro hne
  rw [havail]
  exact (h (hqueue hne)).trans (Set.encard_le_encard hwoken)

/-- A process takes a unit, and it may be one of the woken processes. -/
theorem consume (h : w.NoLostWakeUp) (havail : w.available = w'.available + 1)
    (hqueue : w'.queue ≠ [] → w.queue ≠ []) (hwoken : w.woken ⊆ insert p w'.woken) :
    w'.NoLostWakeUp := by
  intro hne
  have hle := calc ((w'.available : ℕ∞) + 1)
      _ = w.available := by rw [havail, Nat.cast_add, Nat.cast_one]
      _ ≤ w.woken.encard := h (hqueue hne)
      _ ≤ (insert p w'.woken).encard := Set.encard_le_encard hwoken
      _ ≤ w'.woken.encard + 1 := Set.encard_insert_le _ _
  exact (ENat.add_le_add_iff_right ENat.one_ne_top).mp hle

/-- A unit appears, and the first process of the queue is woken. -/
theorem produce (h : w.NoLostWakeUp) (havail : w'.available = w.available + 1)
    (hqueue : w'.queue = w.queue.tail)
    (hfirst : ∀ p, w.queue.head? = some p → p ∉ w.woken ∧ p ∈ w'.woken)
    (hwoken : w.woken ⊆ w'.woken) : w'.NoLostWakeUp := by
  intro hne
  cases hq : w.queue with
  | nil =>
      rw [hqueue, hq] at hne
      exact absurd rfl hne
  | cons p q =>
      obtain ⟨hp, hp'⟩ := hfirst p (by rw [hq]; rfl)
      have hold := h (by rw [hq]; exact List.cons_ne_nil _ _)
      calc (w'.available : ℕ∞)
        _ = w.available + 1 := by rw [havail, Nat.cast_add, Nat.cast_one]
        _ ≤ w.woken.encard + 1 := by gcongr
        _ = (insert p w.woken).encard := (Set.encard_insert_of_notMem hp).symm
        _ ≤ w'.woken.encard := Set.encard_le_encard (Set.insert_subset hp' hwoken)

end NoLostWakeUp
end WaitPoint
