import Mathlib.Data.List.GetD
import Mathlib.Data.Nat.Digits.Lemmas
import Mathlib.Data.Set.Function
import Mathlib.Tactic

/-!
# Memory as bytes

Addresses are natural numbers. A list of bytes is stored at an address or fetched from it, and a
copy goes through its region upwards, in units of one size. Whether the copy leaves what the source
held before is decided by where the destination starts.
-/

/-- A byte for every address. -/
abbrev ByteMemory := ℕ → UInt8

namespace LittleEndian

/-- The bytes of a word of `w` bytes, the lowest first. -/
def bytes : ℕ → ℕ → List UInt8
  | 0, _ => []
  | w + 1, value => UInt8.ofNat value :: bytes w (value / 256)

/-- The word that the bytes make. -/
def value (bs : List UInt8) : ℕ := Nat.ofDigits 256 (bs.map UInt8.toNat)

@[simp] theorem value_nil : value [] = 0 := rfl

@[simp] theorem value_cons (b : UInt8) (bs : List UInt8) :
    value (b :: bs) = b.toNat + 256 * value bs := by
  simp [value, Nat.ofDigits_cons]

@[simp] theorem length_bytes (w n : ℕ) : (bytes w n).length = w := by
  induction w generalizing n with
  | zero => rfl
  | succ w ih => simp [bytes, ih]

theorem value_bytes (w n : ℕ) : value (bytes w n) = n % 256 ^ w := by
  induction w generalizing n with
  | zero => simp [bytes, Nat.mod_one]
  | succ w ih =>
      rw [bytes, value_cons, ih, UInt8.toNat_ofNat', pow_succ' 256]
      exact Nat.mod_mul.symm

theorem bytes_value (bs : List UInt8) : bytes bs.length (value bs) = bs := by
  induction bs with
  | nil => rfl
  | cons b bs ih =>
      have hb : b.toNat < 256 := b.toNat_lt
      have hlow : UInt8.ofNat (b.toNat + 256 * value bs) = b := by
        apply UInt8.toNat.inj
        rw [UInt8.toNat_ofNat']
        omega
      have hhigh : (b.toNat + 256 * value bs) / 256 = value bs := by omega
      simp only [List.length_cons, value_cons, bytes, hlow, hhigh, ih]

end LittleEndian

namespace ByteMemory

variable {m m' : ByteMemory} {a b d s n : ℕ} {xs ys : List UInt8}

/-- The `n` bytes from address `a` on. -/
def fetch (m : ByteMemory) (a n : ℕ) : List UInt8 := (List.range n).map fun i => m (a + i)

/-- The bytes are written from address `a` on. -/
def store (m : ByteMemory) (a : ℕ) (xs : List UInt8) : ByteMemory :=
  fun x => if a ≤ x then xs.getD (x - a) (m x) else m x

/-- The memory has the bytes from address `a` on. -/
def Holds (m : ByteMemory) (a : ℕ) (xs : List UInt8) : Prop := m.fetch a xs.length = xs

/-- The memories differ nowhere but in the region of `n` bytes from `a` on. -/
def Within (a n : ℕ) (m m' : ByteMemory) : Prop := Set.EqOn m' m (Set.compl (Set.Ico a (a + n)))

section Blocks

@[simp] theorem length_fetch (m : ByteMemory) (a n : ℕ) : (m.fetch a n).length = n := by
  simp [fetch]

@[simp] theorem fetch_zero (m : ByteMemory) (a : ℕ) : m.fetch a 0 = [] := rfl

theorem fetch_add (m : ByteMemory) (a n k : ℕ) :
    m.fetch a (n + k) = m.fetch a n ++ m.fetch (a + n) k := by
  simp [fetch, List.range_add, Function.comp_def, add_assoc]

theorem holds_iff : m.Holds a xs ↔ ∀ i (hi : i < xs.length), m (a + i) = xs.get ⟨i, hi⟩ := by
  constructor
  · intro h i hi
    have hget : (m.fetch a xs.length)[i]? = xs[i]? := by rw [h]
    simpa [fetch, hi] using hget
  · intro h
    apply List.ext_getElem
    · simp
    · intro i hi hi'
      simpa [fetch] using h i hi'

@[simp] theorem holds_nil (m : ByteMemory) (a : ℕ) : m.Holds a [] := rfl

theorem holds_append : m.Holds a (xs ++ ys) ↔ m.Holds a xs ∧ m.Holds (a + xs.length) ys := by
  rw [Holds, Holds, Holds, List.length_append, fetch_add]
  exact ⟨fun h => List.append_inj h (by simp), fun h => congrArg₂ _ h.1 h.2⟩

theorem store_of_lt (h : b < a) : m.store a xs b = m b := if_neg (by omega)

theorem store_of_le (h : a + xs.length ≤ b) : m.store a xs b = m b := by
  rw [store, if_pos (by omega), List.getD_eq_default _ _ (by omega)]

theorem store_at (m : ByteMemory) (a : ℕ) {i : ℕ} (hi : i < xs.length) :
    m.store a xs (a + i) = xs.get ⟨i, hi⟩ := by
  rw [store, if_pos (by omega), Nat.add_sub_cancel_left, List.getD_eq_getElem _ _ hi]
  rfl

@[simp] theorem store_nil (m : ByteMemory) (a : ℕ) : m.store a [] = m := by
  funext x
  simp [store]

theorem holds_store (m : ByteMemory) (a : ℕ) (xs : List UInt8) : (m.store a xs).Holds a xs :=
  holds_iff.mpr fun _ hi => store_at m a hi

theorem store_within (m : ByteMemory) (a : ℕ) (xs : List UInt8) :
    Within a xs.length m (m.store a xs) := by
  intro x hx
  have hout : x < a ∨ a + xs.length ≤ x := by
    by_contra hin
    exact hx (Set.mem_Ico.mpr (by omega))
  obtain hlt | hle := hout
  · exact store_of_lt hlt
  · exact store_of_le hle

/-- A byte after a write depends on the byte before it at most. -/
theorem store_congr (h : m' b = m b) : m'.store a xs b = m.store a xs b := by
  rw [store, store, h]

/-- Writing on where the last bytes ended. -/
theorem store_append (m : ByteMemory) (a : ℕ) (xs ys : List UInt8) :
    (m.store a xs).store (a + xs.length) ys = m.store a (xs ++ ys) := by
  funext x
  obtain hlt | hle := lt_or_ge x (a + xs.length)
  · rw [store_of_lt hlt]
    by_cases ha : a ≤ x
    · rw [store, store, if_pos ha, if_pos ha, List.getD_append _ _ _ _ (by omega)]
    · rw [store_of_lt (by omega), store_of_lt (by omega)]
  · rw [store, if_pos hle, store_of_le hle, store, if_pos (by omega),
      List.getD_append_right _ _ _ _ (by omega), Nat.sub_sub]

end Blocks

section Regions

theorem Within.apply (h : Within a n m m') (hx : b < a ∨ a + n ≤ b) : m' b = m b :=
  h fun hin => by
    have := Set.mem_Ico.mp hin
    omega

/-- Bytes outside of the region stay. -/
theorem Within.holds (h : Within a n m m') (hx : b + xs.length ≤ a ∨ a + n ≤ b)
    (hm : m.Holds b xs) : m'.Holds b xs := by
  rw [holds_iff] at hm ⊢
  intro i hi
  rw [h.apply (by omega), hm]

end Regions

section Copies

/-- The first `n` turns of a copy in units of `w` bytes. -/
def copyUnits (w : ℕ) (m : ByteMemory) (d s : ℕ) : ℕ → ByteMemory
  | 0 => m
  | n + 1 => (copyUnits w m d s n).store (d + w * n) ((copyUnits w m d s n).fetch (s + w * n) w)

/-- The first `n` turns of a copy byte by byte. -/
def copyEach (m : ByteMemory) (d s : ℕ) : ℕ → ByteMemory
  | 0 => m
  | n + 1 => Function.update (copyEach m d s n) (d + n) (copyEach m d s n (s + n))

/-- What a copy that goes up leaves at the destination. If the destination starts inside of the
source, the bytes between the two starts come again and again. -/
def copied (m : ByteMemory) (d s n : ℕ) : List UInt8 :=
  (List.range n).map fun i => m (s + i % (d - s))

@[simp] theorem length_copied (m : ByteMemory) (d s n : ℕ) : (m.copied d s n).length = n := by
  simp [copied]

theorem copied_succ (m : ByteMemory) (d s n : ℕ) :
    m.copied d s (n + 1) = m.copied d s n ++ [m (s + n % (d - s))] := by
  simp [copied, List.range_succ]

theorem store_copied (m : ByteMemory) (d s : ℕ) {i : ℕ} (hi : i < n) :
    m.store d (m.copied d s n) (d + i) = m (s + i % (d - s)) := by
  rw [store_at m d (by simpa using hi)]
  simp [copied]

/-- Apart from that the destination gets what the source held. -/
theorem copied_eq_fetch (h : d ≤ s ∨ s + n ≤ d) : m.copied d s n = m.fetch s n := by
  apply List.map_congr_left
  intro i hi
  have hin := List.mem_range.mp hi
  obtain hle | hle := h
  · rw [Nat.sub_eq_zero_of_le hle, Nat.mod_zero]
  · rw [Nat.mod_eq_of_lt (by omega)]

theorem store_singleton (m : ByteMemory) (a : ℕ) (b : UInt8) : m.store a [b] a = b := by
  simp [store]

theorem update_eq_store (m : ByteMemory) (a : ℕ) (b : UInt8) :
    Function.update m a b = m.store a [b] := by
  funext x
  obtain hlt | rfl | hgt := lt_trichotomy x a
  · rw [Function.update_of_ne hlt.ne, store_of_lt hlt]
  · rw [Function.update_self, store_singleton]
  · rw [Function.update_of_ne hgt.ne', store_of_le (by simpa using hgt)]

theorem copyEach_eq (m : ByteMemory) (d s n : ℕ) :
    copyEach m d s n = m.store d (m.copied d s n) := by
  induction n with
  | zero => simp [copyEach, copied]
  | succ n ih =>
      -- The byte read in turn `n` is one of the source, or one that an earlier turn has written.
      have hread : m.store d (m.copied d s n) (s + n) = m (s + n % (d - s)) := by
        by_cases hle : d ≤ s
        · rw [store_of_le (by simp; omega), Nat.sub_eq_zero_of_le hle, Nat.mod_zero]
        · by_cases hlt : n < d - s
          · rw [store_of_lt (by omega), Nat.mod_eq_of_lt hlt]
          · have hback : s + n = d + (n - (d - s)) := by omega
            rw [hback, store_copied m d s (by omega), ← Nat.mod_eq_sub_mod (by omega)]
      have hend : d + n = d + (m.copied d s n).length := by simp
      rw [copyEach, ih, hread, update_eq_store, copied_succ, ← store_append, ← hend]

/-- A turn of `w` bytes is `w` turns of one byte, as the destination does not start inside of the
first unit. -/
theorem copyUnits_eq {w : ℕ} (h : d ≤ s ∨ s + w ≤ d) (m : ByteMemory) (n : ℕ) :
    copyUnits w m d s n = copyEach m d s (w * n) := by
  induction n with
  | zero => rfl
  | succ n ih =>
      have hsplit : ∀ k, copyEach m d s (w * n + k) =
          copyEach (copyEach m d s (w * n)) (d + w * n) (s + w * n) k := by
        intro k
        induction k with
        | zero => rfl
        | succ k ihk => rw [← add_assoc, copyEach, ihk, copyEach, add_assoc, add_assoc]
      rw [copyUnits, ih, Nat.mul_succ, hsplit, copyEach_eq (copyEach m d s (w * n)),
        copied_eq_fetch (by omega)]

end Copies

end ByteMemory
