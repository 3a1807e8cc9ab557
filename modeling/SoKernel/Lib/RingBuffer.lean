import Mathlib.Data.List.Basic
import Mathlib.Data.Nat.ModEq
import Mathlib.Data.Nat.Notation
import Mathlib.Logic.Function.Basic
import Mathlib.Tactic.Common

/-!
# Ring buffers

The contents of a buffer that is read from a start position and wraps at its capacity. Adding
behind the last element and taking the first one act on the contents as on a queue.
-/

namespace RingBuffer

open Function (update)

variable {α : Type*} {buf : ℕ → α} {cap start n : ℕ} {x : α}

/-- The `n` elements from the start position. -/
def contents (buf : ℕ → α) (cap start n : ℕ) : List α :=
  (List.range n).map fun j => buf ((start + j) % cap)

@[simp] theorem contents_zero : contents buf cap start 0 = [] := rfl

@[simp] theorem length_contents : (contents buf cap start n).length = n := by
  simp [contents]

theorem contents_succ :
    contents buf cap start (n + 1) = contents buf cap start n ++ [buf ((start + n) % cap)] := by
  simp [contents, List.range_succ]

/-- The positions of a buffer that is not full are different from the next free one. -/
theorem contents_update (hn : n < cap) :
    contents (update buf ((start + n) % cap) x) cap start n = contents buf cap start n := by
  refine List.map_congr_left fun j hj => Function.update_of_ne (fun he => ?_) _ _
  have hj := List.mem_range.mp hj
  have hmod : (start + j) ≡ (start + n) [MOD cap] := he
  have hjn : j ≡ n [MOD cap] := Nat.ModEq.add_left_cancel' start hmod
  rw [Nat.ModEq, Nat.mod_eq_of_lt (hj.trans hn), Nat.mod_eq_of_lt hn] at hjn
  omega

/-- Adding an element behind the last one. -/
theorem contents_push (hn : n < cap) :
    contents (update buf ((start + n) % cap) x) cap start (n + 1) =
      contents buf cap start n ++ [x] := by
  rw [contents_succ, contents_update hn, Function.update_self]

/-- Taking the first element. -/
theorem contents_shift (hstart : start < cap) :
    contents buf cap start (n + 1) = buf start :: contents buf cap ((start + 1) % cap) n := by
  induction n with
  | zero => simp [contents, Nat.mod_eq_of_lt hstart]
  | succ n ih =>
      rw [contents_succ, ih, contents_succ, List.cons_append]
      have hpos : (start + (n + 1)) % cap = ((start + 1) % cap + n) % cap := by
        rw [Nat.mod_add_mod]
        congr 1
        omega
      rw [hpos]

end RingBuffer
