import Mathlib.Algebra.Ring.Int.Defs
import SoKernel.Proc.Scheduler

/-!
# Sleeping

Embedding of `syscall_sleep`. The number of ticks to wait is computed on `uint32_t`, and the ticks
are compared as an `int` that is widened to 64 bits. While the process halts the rest of the kernel
may change in any way, except that only `timer_handler` counts ticks.
-/

namespace SoKernel

section Model

def hz : ℕ := 18

/-- `wait_tics` of `syscall_sleep`: since `HZ` is unsigned, so are the product and the quotient. -/
def waitTics (duration : ℤ) : ℕ := ((duration * hz + 999) % 2 ^ 32).toNat / 1000

/-- The loop of `syscall_sleep`, with the kernels that it finds after each `_hlt`. `none` while the
process sleeps. -/
def sleepLoop (target : ℕ) (k : Kernel) : List Kernel → Option Kernel
  | [] => if ticksElapsed k < target then none else some k
  | w :: wakes => if ticksElapsed k < target then sleepLoop target w wakes else some k

/-- `target` of `syscall_sleep`. -/
def sleepTarget (k : Kernel) (duration : ℤ) : ℕ := (ticksElapsed k + waitTics duration) % 2 ^ 64

/-- `syscall_sleep`: the returned value and the kernel on return. -/
def syscallSleep (k : Kernel) (duration : ℤ) (wakes : List Kernel) : Option (ℕ × Kernel) :=
  (sleepLoop (sleepTarget k duration) k wakes).map fun k => (0, k)

/-- The counter never goes back from one kernel to the next. -/
def TicksMonotone (ks : List Kernel) : Prop := ks.IsChain fun k k' => k.ticks ≤ k'.ticks

/-- The ticks of a duration in milliseconds, rounded up. -/
def ticksOf (duration : ℕ) : ℕ := (duration * hz + 999) / 1000

/-- No conversion of `syscall_sleep` wraps: neither the product, nor the counter as an `int` up to
the tick that is waited for. -/
structure SleepFits (k : Kernel) (duration : ℕ) : Prop where
  product : duration * hz + 999 < 2 ^ 32
  positive : k.ticks % 2 ^ 32 < 2 ^ 31 → k.ticks % 2 ^ 32 + ticksOf duration ≤ 2 ^ 31
  negative : 2 ^ 31 ≤ k.ticks % 2 ^ 32 → k.ticks % 2 ^ 32 + ticksOf duration < 2 ^ 32

/-- The kernel after the given number of ticks, and nothing else. -/
def Kernel.after (k : Kernel) (t : ℕ) : Kernel := { k with ticks := k.ticks + t }

end Model

variable {k k' w : Kernel} {duration target t : ℕ} {wakes : List Kernel}

section Loop

/-- The loop ends at or after the target, and the counter has not gone back. -/
theorem sleepLoop_some (h : sleepLoop target k wakes = some k')
    (hmono : TicksMonotone (k :: wakes)) : target ≤ ticksElapsed k' ∧ k.ticks ≤ k'.ticks := by
  induction wakes generalizing k with
  | nil =>
      rw [sleepLoop] at h
      split at h
      · cases h
      · rename_i hlt
        cases h
        exact ⟨Nat.le_of_not_lt hlt, le_rfl⟩
  | cons w wakes ih =>
      rw [sleepLoop] at h
      split at h
      · obtain ⟨hkw, htail⟩ := List.isChain_cons_cons.1 hmono
        obtain ⟨htarget, hw⟩ := ih h htail
        exact ⟨htarget, hkw.trans hw⟩
      · rename_i hlt
        cases h
        exact ⟨Nat.le_of_not_lt hlt, le_rfl⟩

/-- A process that looks at a counter at or after the target returns by then. -/
theorem sleepLoop_wakes (h : target ≤ ticksElapsed w) (hw : k.ticks ≤ w.ticks) :
    ∃ k', sleepLoop target k [w] = some k' ∧ k'.ticks ≤ w.ticks := by
  rw [sleepLoop]
  split
  · exact ⟨w, if_neg (Nat.not_lt.2 h), le_rfl⟩
  · exact ⟨k, rfl, hw⟩

/-- The counter as it is compared by `syscall_sleep`. -/
theorem ticksElapsed_after (k : Kernel) (t : ℕ) :
    ticksElapsed (k.after t) =
      if (k.ticks + t) % 2 ^ 32 < 2 ^ 31 then (k.ticks + t) % 2 ^ 32
      else (k.ticks + t) % 2 ^ 32 + (2 ^ 64 - 2 ^ 32) := rfl

theorem waitTics_natCast (duration : ℕ) :
    waitTics duration = (duration * hz + 999) % 2 ^ 32 / 1000 := by
  rw [waitTics]
  omega

end Loop

section Target

theorem ticksElapsed_low (h : k.ticks % 2 ^ 32 < 2 ^ 31) : ticksElapsed k = k.ticks % 2 ^ 32 :=
  if_pos h

theorem ticksElapsed_high (h : 2 ^ 31 ≤ k.ticks % 2 ^ 32) :
    ticksElapsed k = k.ticks % 2 ^ 32 + (2 ^ 64 - 2 ^ 32) := if_neg (Nat.not_lt.2 h)

theorem waitTics_lt (duration : ℕ) : waitTics duration < 2 ^ 32 := by
  rw [waitTics_natCast]
  omega

theorem waitTics_le (duration : ℕ) : waitTics duration ≤ ticksOf duration := by
  rw [waitTics_natCast]
  exact Nat.div_le_div_right (Nat.mod_le _ _)

/-- A product that wraps loses at least one tick. -/
theorem waitTics_lt_ticksOf (h : 2 ^ 32 ≤ duration * hz + 999) :
    waitTics duration < ticksOf duration := by
  rw [waitTics_natCast, ticksOf]
  omega

theorem waitTics_eq (h : duration * hz + 999 < 2 ^ 32) : waitTics duration = ticksOf duration := by
  rw [waitTics_natCast, Nat.mod_eq_of_lt h]
  rfl

/-- Before the last tick of its duration a process sleeps on, when no conversion wraps. -/
theorem SleepFits.sleeps (h : SleepFits k duration) (ht : t < ticksOf duration) :
    ticksElapsed (k.after t) < sleepTarget k duration := by
  have hw := waitTics_eq h.product
  have hlt := waitTics_lt duration
  rw [sleepTarget, hw, ticksElapsed_after]
  rw [hw] at hlt
  obtain hs | hs := Nat.lt_or_ge (k.ticks % 2 ^ 32) (2 ^ 31)
  · have hfit := h.positive hs
    rw [ticksElapsed_low hs, if_pos (by omega)]
    omega
  · have hfit := h.negative hs
    rw [ticksElapsed_high hs, if_neg (by omega)]
    omega

/-- The target is met within the ticks that are waited for, and earlier when the counter leaves
its sign on the way. -/
theorem exists_target_le (k : Kernel) (duration : ℕ) :
    ∃ t ≤ waitTics duration, sleepTarget k duration ≤ ticksElapsed (k.after t) ∧
      (t = waitTics duration →
        (k.ticks % 2 ^ 32 < 2 ^ 31 → k.ticks % 2 ^ 32 + waitTics duration ≤ 2 ^ 31) ∧
        (2 ^ 31 ≤ k.ticks % 2 ^ 32 →
          k.ticks % 2 ^ 32 + waitTics duration < 2 ^ 32 ∨ waitTics duration = 0)) := by
  have hlt := waitTics_lt duration
  rw [sleepTarget]
  generalize waitTics duration = n at hlt ⊢
  obtain hs | hs := Nat.lt_or_ge (k.ticks % 2 ^ 32) (2 ^ 31)
  · rw [ticksElapsed_low hs]
    refine ⟨min n (2 ^ 31 - k.ticks % 2 ^ 32), Nat.min_le_left _ _, ?_, fun hn => ?_⟩
    · rw [ticksElapsed_after]
      split
      · omega
      · omega
    · exact ⟨fun _ => by omega, fun h => absurd hs (Nat.not_lt.2 h)⟩
  · rw [ticksElapsed_high hs]
    obtain hn | hn := Nat.lt_or_ge (k.ticks % 2 ^ 32 + n) (2 ^ 32)
    · refine ⟨n, le_rfl, ?_, fun _ => ⟨fun h => absurd h (Nat.not_lt.2 hs), fun _ => .inl hn⟩⟩
      rw [ticksElapsed_after, if_neg (by omega)]
      omega
    · -- The target wraps to a small number, so that the process does not sleep at all.
      refine ⟨0, Nat.zero_le n, ?_, fun hzero => ⟨fun h => ?_, fun _ => .inr hzero.symm⟩⟩
      · rw [ticksElapsed_after, if_neg (by omega)]
        omega
      · exact absurd h (Nat.not_lt.2 hs)

/-- A conversion that wraps ends the loop before the last tick of the duration. -/
theorem exists_early (h : ¬ SleepFits k duration) :
    ∃ t < ticksOf duration, sleepTarget k duration ≤ ticksElapsed (k.after t) := by
  obtain ⟨t, ht, htarget, hend⟩ := exists_target_le k duration
  refine ⟨t, lt_of_le_of_ne (ht.trans (waitTics_le duration)) fun he => h ?_, htarget⟩
  have hw : waitTics duration = ticksOf duration :=
    le_antisymm (waitTics_le duration) (he ▸ ht)
  have hproduct : duration * hz + 999 < 2 ^ 32 :=
    Nat.lt_of_not_le fun hp => (waitTics_lt_ticksOf hp).ne hw
  obtain ⟨hpos, hneg⟩ := hend (he.trans hw.symm)
  rw [hw] at hpos hneg
  refine ⟨hproduct, hpos, fun hs => ?_⟩
  obtain hlt | hzero := hneg hs
  · exact hlt
  · rw [hzero]
    exact Nat.mod_lt _ (by decide)

end Target

section Main

/-- `syscall_sleep` never returns before the ticks of its duration have been counted exactly when no
conversion wraps. -/
theorem sleep_not_early_iff (k : Kernel) (duration : ℕ) :
    (∀ wakes r k', TicksMonotone (k :: wakes) → syscallSleep k duration wakes = some (r, k') →
      k.ticks + ticksOf duration ≤ k'.ticks) ↔ SleepFits k duration := by
  refine ⟨fun hall => ?_, fun hfits wakes r k' hmono h => ?_⟩
  · refine Classical.not_not.1 fun hfits => ?_
    obtain ⟨t, ht, htarget⟩ := exists_early hfits
    have hle : k.ticks ≤ (k.after t).ticks := Nat.le_add_right k.ticks t
    obtain ⟨k', hloop, hk'⟩ := sleepLoop_wakes htarget hle
    have hmono : TicksMonotone [k, k.after t] := List.isChain_pair.2 hle
    have hearly := hall [k.after t] 0 k' hmono (by rw [syscallSleep, hloop]; rfl)
    have hafter : (k.after t).ticks = k.ticks + t := rfl
    omega
  · obtain ⟨k₁, hloop, hk⟩ := Option.map_eq_some_iff.1 h
    obtain ⟨htarget, hle⟩ := sleepLoop_some hloop hmono
    cases hk
    refine Nat.le_of_not_lt fun hlt => ?_
    have hsleeps := hfits.sleeps (t := k'.ticks - k.ticks) (by omega)
    have hsame : ticksElapsed (k.after (k'.ticks - k.ticks)) = ticksElapsed k' := by
      rw [ticksElapsed_after, Nat.add_sub_cancel' hle]
      rfl
    rw [hsame] at hsleeps
    exact absurd hsleeps (Nat.not_lt.2 htarget)

/-- A sleep of 238610 seconds, as `loop 238610` asks for, ends after 13 ticks. -/
theorem sleep_returns_early :
    syscallSleep bootKernel 238610000 [bootKernel.after 13] = some (0, bootKernel.after 13) ∧
      TicksMonotone [bootKernel, bootKernel.after 13] ∧
      (bootKernel.after 13).ticks < bootKernel.ticks + ticksOf 238610000 := by
  refine ⟨?_, List.isChain_pair.2 (by decide), by decide⟩
  have htarget : sleepTarget bootKernel 238610000 = 13 := by decide
  rw [syscallSleep, htarget]
  rfl

end Main

end SoKernel
