import Mathlib.Data.Int.ModEq
import Mathlib.Data.Nat.Digits.Lemmas
import SoKernel.Userland.FormatPieces

/-!
# Numbers as text

The shell passes numbers to its processes as the text that `sprintf` makes of them. The loop that
reads a pipe identifier in `mvar_writer_entry` and `mvar_reader_entry`, and `atoi`, add up the
digits from the highest on, in the arithmetic of their types, and get the number back.
-/

namespace SoKernel.Userland.Format

/-- `pipe_id = pipe_id * 10 + (argv[4][i] - '0')`. -/
def pipeIdStep (pipeId : ℕ) (c : Char) : ℕ :=
  unsigned 64 (pipeId * 10 + (signed 8 c.toNat - '0'.toNat))

/-- The loop of `mvar_writer_entry` and `mvar_reader_entry` over the characters of `argv[4]`. -/
def parsePipeId (argv : List Char) : ℕ := argv.foldl pipeIdStep 0

section Digits

variable {d value : ℕ} {ds : List ℕ}

/-- The value of digits, the highest first, behind those that make `acc`. -/
def horner (acc : ℤ) (ds : List ℕ) : ℤ := ds.foldl (fun (acc : ℤ) (d : ℕ) => acc * 10 + d) acc

@[simp] theorem horner_nil (acc : ℤ) : horner acc [] = acc := rfl

@[simp] theorem horner_cons (acc : ℤ) (d : ℕ) (ds : List ℕ) :
    horner acc (d :: ds) = horner (acc * 10 + d) ds := rfl

theorem horner_digits (value : ℕ) : horner 0 (Nat.digits 10 value).reverse = value := by
  have hreverse : ∀ ds : List ℕ, horner 0 ds.reverse = (Nat.ofDigits 10 ds : ℕ) := by
    intro ds
    induction ds with
    | nil => rfl
    | cons d ds ih =>
        rw [horner] at ih
        rw [horner, List.reverse_cons, List.foldl_append, ih, Nat.ofDigits_cons]
        simp only [List.foldl_cons, List.foldl_nil]
        push_cast
        ring
  rw [hreverse, Nat.ofDigits_digits]

theorem digitChar_spec (hd : d < 10) : signed 8 (digitChar d).toNat - '0'.toNat = d ∧
    '0' ≤ digitChar d ∧ digitChar d ≤ '9' ∧ ((digitChar d).toNat : ℤ) - '0'.toNat = d := by
  interval_cases d <;> decide

theorem unsigned_step (acc : ℤ) (d : ℕ) :
    unsigned 64 (unsigned 64 acc * 10 + d) = unsigned 64 (acc * 10 + d) := by
  have hcast : ((unsigned 64 acc : ℕ) : ℤ) = acc % 2 ^ 64 :=
    Int.toNat_of_nonneg (Int.emod_nonneg _ (by positivity))
  rw [unsigned, hcast]
  exact congrArg Int.toNat (((Int.mod_modEq acc (2 ^ 64)).mul_right 10).add_right d)

theorem signed_step (acc : ℤ) (d : ℕ) :
    signed 32 (signed 32 acc * 10 + d) = signed 32 (acc * 10 + d) :=
  (Int.bmod_add_cancel_right _).mpr Int.bmod_mul_bmod

/-- The loop over the characters of digits. -/
theorem pipeIdLoop_digits (hds : ∀ d ∈ ds, d < 10) (acc : ℤ) :
    (ds.map digitChar).foldl pipeIdStep (unsigned 64 acc) = unsigned 64 (horner acc ds) := by
  induction ds generalizing acc with
  | nil => rw [List.map_nil, List.foldl_nil, horner_nil]
  | cons d ds ih =>
      obtain ⟨hvalue, -⟩ := digitChar_spec (hds d List.mem_cons_self)
      rw [List.map_cons, List.foldl_cons, pipeIdStep, hvalue, unsigned_step, horner_cons]
      exact ih (fun e he => hds e (List.mem_cons_of_mem _ he)) (acc * 10 + d)

theorem atoiDigits_digits (hds : ∀ d ∈ ds, d < 10) (acc : ℤ) :
    atoiDigits (signed 32 acc) (ds.map digitChar) = signed 32 (horner acc ds) := by
  induction ds generalizing acc with
  | nil => rfl
  | cons d ds ih =>
      obtain ⟨-, hle, hge, hvalue⟩ := digitChar_spec (hds d List.mem_cons_self)
      rw [List.map_cons, atoiDigits, if_pos ⟨hle, hge⟩, hvalue, signed_step, horner_cons]
      exact ih (fun e he => hds e (List.mem_cons_of_mem _ he)) (acc * 10 + d)

/-- The text of a number: its digits, the highest first, or a zero. -/
theorem exists_digits (value : ℕ) :
    ∃ d ds, appendUnsignedToStr value = (d :: ds).map digitChar ∧ (∀ e ∈ d :: ds, e < 10) ∧
      horner 0 (d :: ds) = value := by
  by_cases h0 : value = 0
  · subst h0
    exact ⟨0, [], rfl, by simp, rfl⟩
  · have hne : (Nat.digits 10 value).reverse ≠ [] := by
      simpa [Nat.digits_ne_nil_iff_ne_zero] using h0
    obtain ⟨d, ds, hsplit⟩ := List.exists_cons_of_ne_nil hne
    refine ⟨d, ds, ?_, fun e he => ?_, ?_⟩
    · rw [appendUnsignedToStr_pos h0, ← List.map_reverse, hsplit]
    · rw [← hsplit, List.mem_reverse] at he
      exact Nat.digits_lt_base (by decide) he
    · rw [← hsplit, horner_digits]

end Digits

section RoundTrip

theorem parsePipeId_append {value : ℕ} (h : value < 2 ^ 64) :
    parsePipeId (appendUnsignedToStr value) = value := by
  obtain ⟨d, ds, htext, hds, hvalue⟩ := exists_digits value
  have hloop := pipeIdLoop_digits hds 0
  rw [htext, parsePipeId, show (0 : ℕ) = unsigned 64 0 from rfl, hloop, hvalue,
    unsigned_of_range (Int.natCast_nonneg _) (by exact_mod_cast h), Int.toNat_natCast]

theorem atoiDigits_append {value : ℕ} (h : value < 2 ^ 31) :
    atoiDigits 0 (appendUnsignedToStr value) = value := by
  obtain ⟨d, ds, htext, hds, hvalue⟩ := exists_digits value
  have hloop := atoiDigits_digits hds 0
  rw [htext, show (0 : ℤ) = signed 32 0 from rfl, hloop, hvalue]
  exact signed_of_range (by omega) (by exact_mod_cast h)

/-- A text that starts with a digit has no blank and no sign in front. -/
theorem atoi_of_digit {d : ℕ} (hd : d < 10) (cs : List Char) :
    atoi (digitChar d :: cs) = atoiDigits 0 (digitChar d :: cs) := by
  have hblank : (digitChar d == ' ' || digitChar d == '\t' || digitChar d == '\n') = false := by
    interval_cases d <;> decide
  have hsign : digitChar d ≠ '-' ∧ digitChar d ≠ '+' := by
    interval_cases d <;> decide
  rw [atoi, List.dropWhile_cons_of_neg (by rw [hblank]; decide)]
  split
  · rename_i heq
    exact absurd (List.cons.inj heq).1 hsign.1
  · rename_i heq
    exact absurd (List.cons.inj heq).1 hsign.2
  · rfl

theorem atoi_append {n : ℤ} (hle : -(2 ^ 31) < n) (hlt : n < 2 ^ 31) :
    atoi (appendSignedToStr n) = n := by
  rcases lt_or_ge n 0 with hneg | hpos
  · rw [appendSignedToStr_neg hneg, atoi, List.dropWhile_cons_of_neg (by decide)]
    show signed 32 (-atoiDigits 0 (appendUnsignedToStr (-n).toNat)) = n
    rw [atoiDigits_append (by omega), Int.toNat_of_nonneg (by omega), neg_neg]
    exact signed_of_range (by omega) (by omega)
  · obtain ⟨d, ds, htext, hds, -⟩ := exists_digits n.toNat
    have hsmall : n.toNat < 2 ^ 31 := by omega
    have hdigits := atoiDigits_append hsmall
    rw [appendSignedToStr, if_neg (not_lt.mpr hpos)]
    rw [htext, List.map_cons] at hdigits ⊢
    rw [atoi_of_digit (hds d List.mem_cons_self), hdigits, Int.toNat_of_nonneg hpos]

/-- `sprintf` on a format of one piece. -/
theorem sprintf_piece (p : Piece) (va : VarArgs) :
    ∃ o, sprintf (ofPieces [p]) va = .ok o ∧ o.chars = p.stored va (va.word 0) := by
  refine ⟨_, sprintf_pieces [p] va, ?_⟩
  rw [Output.puts_chars, withWords, withWords, List.flatMap_singleton, List.nil_append]

/-- What `sprintf` makes of a pipe identifier with `%llu` is read back by the loops of the MVar
processes, and what it makes of an `int` with `%d` by `atoi`, unless it is the least `int`. -/
theorem number_text_round_trip (va : VarArgs) :
    (∃ o, sprintf (ofPieces [.unsignedLongLong]) va = .ok o ∧
      parsePipeId o.chars = (va.word 0).toNat) ∧
    ∀ n : ℤ, |n| ≤ 2 ^ 31 - 1 → signed 32 (va.word 0).toNat = n →
      ∃ o, sprintf (ofPieces [.int]) va = .ok o ∧ atoi o.chars = n := by
  constructor
  · obtain ⟨o, heq, hchars⟩ := sprintf_piece .unsignedLongLong va
    refine ⟨o, heq, ?_⟩
    have hstored : Piece.stored va (va.word 0) .unsignedLongLong =
        appendUnsignedToStr (va.word 0).toNat := rfl
    rw [hchars, hstored]
    exact parsePipeId_append (word_lt _)
  · intro n habs hn
    obtain ⟨hle, hlt⟩ := abs_le.mp habs
    obtain ⟨o, heq, hchars⟩ := sprintf_piece .int va
    refine ⟨o, heq, ?_⟩
    rw [hchars, Piece.stored, hn]
    exact atoi_append (by omega) (by omega)

/-- The largest identifier, and an `int` that is almost the least. -/
theorem number_text_round_trip_extremes :
    (∃ o, sprintf (ofPieces [.unsignedLongLong]) (.const 18446744073709551615) = .ok o ∧
      parsePipeId o.chars = 18446744073709551615) ∧
    ∃ o, sprintf (ofPieces [.int]) (.const 2147483649) = .ok o ∧ atoi o.chars = -2147483647 :=
  ⟨(number_text_round_trip (.const 18446744073709551615)).1,
    (number_text_round_trip (.const 2147483649)).2 (-2147483647) (by norm_num) (by decide)⟩

end RoundTrip

end SoKernel.Userland.Format
