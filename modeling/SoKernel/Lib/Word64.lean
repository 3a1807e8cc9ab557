import Mathlib.Data.Nat.Bitwise
import Mathlib.Tactic

/-!
# 64-bit unsigned arithmetic on natural numbers

Machine words are natural numbers below `2 ^ 64`; addition and subtraction wrap,
and complement is taken within the word.
-/

namespace Word64

/-- The number of words. -/
def range : ℕ := 2 ^ 64

def add (a b : ℕ) : ℕ := (a + b) % 2 ^ 64

def sub (a b : ℕ) : ℕ := (a + 2 ^ 64 - b % 2 ^ 64) % 2 ^ 64

def mul (a b : ℕ) : ℕ := a * b % 2 ^ 64

/-- Bitwise complement `~a`. -/
def compl (a : ℕ) : ℕ := 2 ^ 64 - 1 - a % 2 ^ 64

theorem add_eq {a b : ℕ} (h : a + b < 2 ^ 64) : add a b = a + b := Nat.mod_eq_of_lt h

theorem mul_eq {a b : ℕ} (h : a * b < 2 ^ 64) : mul a b = a * b := Nat.mod_eq_of_lt h

theorem sub_eq {a b : ℕ} (hba : b ≤ a) (ha : a < 2 ^ 64) : sub a b = a - b := by
  unfold sub
  omega

/-- Clearing the low `k` bits rounds down to a multiple of `2 ^ k`. -/
theorem and_compl_mask {a k : ℕ} (ha : a < 2 ^ 64) (hk : k ≤ 64) :
    a &&& compl (2 ^ k - 1) = 2 ^ k * (a / 2 ^ k) := by
  have hpow : 2 ^ k ≤ 2 ^ 64 := Nat.pow_le_pow_right (by decide) hk
  have hpos : 0 < 2 ^ k := Nat.two_pow_pos k
  have hmask : compl (2 ^ k - 1) = 2 ^ 64 - 2 ^ k := by
    unfold compl
    rw [Nat.mod_eq_of_lt (by omega)]
    omega
  have hfactor : 2 ^ 64 - 2 ^ k = (2 ^ (64 - k) - 1) * 2 ^ k := by
    rw [Nat.sub_mul, one_mul, ← pow_add, Nat.sub_add_cancel hk]
  have hlt : a / 2 ^ k < 2 ^ (64 - k) := by
    rw [Nat.div_lt_iff_lt_mul hpos, ← pow_add, Nat.sub_add_cancel hk]
    exact ha
  rw [hmask, hfactor]
  apply Nat.eq_of_testBit_eq
  intro i
  rw [Nat.testBit_and, ← Nat.shiftLeft_eq, Nat.testBit_shiftLeft, Nat.testBit_two_pow_sub_one,
    Nat.testBit_two_pow_mul, ← Nat.shiftRight_eq_div_pow, Nat.testBit_shiftRight]
  by_cases hki : k ≤ i
  · have hbit : a.testBit i = true → i < 64 := by
      intro hb
      by_contra hi
      have := Nat.testBit_lt_two_pow (x := a) (i := i)
        (lt_of_lt_of_le ha (Nat.pow_le_pow_right (by decide) (not_lt.mp hi)))
      simp [this] at hb
    by_cases hb : a.testBit i = true
    · have := hbit hb
      simp [hki, hb, Nat.add_sub_cancel' hki]
      omega
    · simp [hki, hb, Nat.add_sub_cancel' hki]
  · simp [hki]

/-- Clearing bit zero of a word. -/
theorem and_compl_one {a : ℕ} (ha : a < 2 ^ 64) : a &&& compl 1 = 2 * (a / 2) :=
  and_compl_mask (k := 1) ha (by decide)

theorem and_one (a : ℕ) : a &&& 1 = a % 2 := Nat.and_one_is_mod a

/-- Setting bit zero of an even word. -/
theorem or_one_of_even {a : ℕ} (ha : 2 ∣ a) : a ||| 1 = a + 1 := by
  obtain ⟨k, rfl⟩ := ha
  apply Nat.eq_of_testBit_eq
  intro i
  rw [Nat.testBit_or]
  cases i with
  | zero => simp [Nat.testBit_zero]
  | succ i =>
      have hdiv : (2 * k + 1) / 2 = k := by omega
      simp [Nat.testBit_succ, hdiv]

/-- Rounding up to a multiple of `2 ^ k` with wrap-around. -/
theorem alignUp_eq {a k : ℕ} (ha : a < 2 ^ 64) (hk : k < 64) :
    sub (add a (2 ^ k)) 1 &&& compl (sub (2 ^ k) 1) =
      2 ^ k * ((a + 2 ^ k - 1) % 2 ^ 64 / 2 ^ k) := by
  have hpow : 2 ^ k < 2 ^ 64 := Nat.pow_lt_pow_right (by decide) hk
  have hpos : 0 < 2 ^ k := Nat.two_pow_pos k
  have hsum : sub (add a (2 ^ k)) 1 = (a + 2 ^ k - 1) % 2 ^ 64 := by
    unfold sub add
    omega
  rw [hsum, sub_eq hpos hpow]
  exact and_compl_mask (Nat.mod_lt _ (by decide)) (le_of_lt hk)

end Word64
