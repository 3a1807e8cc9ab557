import Mathlib.Data.List.TakeWhile
import SoKernel.Userland.Format
import SoKernel.Userland.Pipeline

/-!
# The words of a command line

Embedding of `fillCommandAndArgs` of `command_parser.c` with the line in memory. A terminator is
written over the space behind a word, but the loop ends as soon as the last entry of the vector
is taken, so that the last word of a full vector reaches to the end of the line.
-/

namespace SoKernel.Userland

open Function (update)
open Format (nul CString)

section Model

/-- The loop of `fillCommandAndArgs`, with the addresses that are recorded so far. -/
def fillLoop : ℕ → ℕ → (ℕ → Char) → List ℕ → Bool → Option (List ℕ × (ℕ → Char))
  | 0, _, _, _, _ => none
  | n + 1, i, input, args, inArg =>
      if input i ≠ nul ∧ args.length < maxArgs then
        if input i = ' ' then fillLoop n (i + 1) (update input i nul) args false
        else if inArg = false then fillLoop n (i + 1) input (args ++ [i]) true
        else fillLoop n (i + 1) input args inArg
      else some (args, input)

/-- `fillCommandAndArgs` on a line of the given length: the addresses in `args`, and the memory
afterwards. -/
def fillArgs (length : ℕ) (input : ℕ → Char) : Option (List ℕ × (ℕ → Char)) :=
  fillLoop (length + 1) 0 input [] false

/-- The memory holds the terminated string at the address. -/
def IsString (input : ℕ → Char) : ℕ → List Char → Prop
  | a, [] => input a = nul
  | a, c :: cs => input a = c ∧ c ≠ nul ∧ IsString input (a + 1) cs

/-- The maximal runs of characters other than a space. -/
def words (line : List Char) : List (List Char) := (line.splitOn ' ').filter fun w => !w.isEmpty

end Model

variable {i n fuel : ℕ} {input input' : ℕ → Char} {args : List ℕ} {l line : List Char} {c : Char}

section Memory

theorem IsString.congr (h : IsString input i l) (hsame : ∀ j, i ≤ j → input' j = input j) :
    IsString input' i l := by
  induction l generalizing i with
  | nil => exact (hsame i le_rfl).trans h
  | cons c l ih =>
      exact ⟨(hsame i le_rfl).trans h.1, h.2.1,
        ih h.2.2 fun j hj => hsame j (Nat.le_of_succ_le hj)⟩

/-- The memory determines the string at an address. -/
theorem IsString.unique (h : IsString input i l) (h' : IsString input i line) : l = line := by
  induction l generalizing i line with
  | nil =>
      cases line with
      | nil => rfl
      | cons d line => exact absurd (h'.1.symm.trans h) h'.2.1
  | cons c l ih =>
      cases line with
      | nil => exact absurd (h.1.symm.trans h') h.2.1
      | cons d line => rw [← h.1, ← h'.1, ih h.2.2 h'.2.2]

end Memory

section Loop

theorem fillCommandAndArgs_space (n : ℕ) (l : List Char) :
    fillCommandAndArgs n (' ' :: l) = fillCommandAndArgs n l := by
  cases n with
  | zero => rfl
  | succ n => rw [fillCommandAndArgs, fillCommandAndArgs, List.dropWhile_cons_of_pos (by decide)]

theorem fillCommandAndArgs_word (n : ℕ) (hc : c ≠ ' ') (l : List Char) :
    fillCommandAndArgs (n + 1) (c :: l) =
      (if n = 0 then c :: l else c :: l.takeWhile (· != ' ')) ::
        fillCommandAndArgs n (l.dropWhile (· != ' ')) := by
  rw [fillCommandAndArgs, List.dropWhile_cons_of_neg (by simpa using hc)]
  cases n with
  | zero => rfl
  | succ n =>
      dsimp only
      rw [if_neg (Nat.succ_ne_zero n), if_neg (Nat.succ_ne_zero n),
        List.takeWhile_cons_of_pos (by simpa using hc), List.dropWhile_cons_of_pos (by simpa using hc)]

/-- What the loop adds to the vector, in front of a word and within one: the words as lists of
characters are those of the model on lists. -/
theorem fillLoop_spec (h : IsString input i l) (hargs : args.length + n = maxArgs)
    (hfuel : l.length < fuel) :
    (∃ as input', fillLoop fuel i input args false = some (args ++ as, input') ∧
      List.Forall₂ (IsString input') as (fillCommandAndArgs n l) ∧ ∀ j < i, input' j = input j) ∧
    ∃ as input', fillLoop fuel i input args true = some (args ++ as, input') ∧
      IsString input' i (if n = 0 then l else l.takeWhile (· != ' ')) ∧
      List.Forall₂ (IsString input') as (fillCommandAndArgs n (l.dropWhile (· != ' '))) ∧
      ∀ j < i, input' j = input j := by
  induction l generalizing i input args n fuel with
  | nil =>
      obtain ⟨fuel, rfl⟩ := Nat.exists_eq_succ_of_ne_zero (Nat.ne_zero_of_lt hfuel)
      have hstop (inArg : Bool) : fillLoop (fuel + 1) i input args inArg = some (args, input) := by
        rw [fillLoop, if_neg (fun hc => hc.1 h)]
      have hnil : fillCommandAndArgs n [] = [] := by cases n <;> rfl
      refine ⟨⟨[], input, by simpa using hstop false, ?_, fun _ _ => rfl⟩,
        ⟨[], input, by simpa using hstop true, ?_, ?_, fun _ _ => rfl⟩⟩
      · rw [hnil]
        exact .nil
      · simpa using h
      · rw [List.dropWhile_nil, hnil]
        exact .nil
  | cons c l ih =>
      obtain ⟨fuel, rfl⟩ := Nat.exists_eq_succ_of_ne_zero (Nat.ne_zero_of_lt hfuel)
      obtain ⟨hat, hne, hrest⟩ := h
      have hlt : l.length < fuel := by
        rw [List.length_cons] at hfuel
        omega
      cases n with
      | zero =>
          have hstop (inArg : Bool) : fillLoop (fuel + 1) i input args inArg = some (args, input) := by
            rw [fillLoop, if_neg (fun hc => absurd hc.2 (by omega))]
          refine ⟨⟨[], input, by simpa using hstop false, .nil, fun _ _ => rfl⟩,
            ⟨[], input, by simpa using hstop true, ?_, .nil, fun _ _ => rfl⟩⟩
          exact ⟨hat, hne, hrest⟩
      | succ n =>
          have hgo : input i ≠ nul ∧ args.length < maxArgs := ⟨hat ▸ hne, by omega⟩
          by_cases hc : c = ' '
          · subst hc
            have hstep (inArg : Bool) : fillLoop (fuel + 1) i input args inArg =
                fillLoop fuel (i + 1) (update input i nul) args false := by
              rw [fillLoop, if_pos hgo, if_pos hat]
            have hrest' : IsString (update input i nul) (i + 1) l :=
              hrest.congr fun j hj => Function.update_of_ne (by omega) _ _
            obtain ⟨⟨as, input', heq, hwords, hframe⟩, -⟩ := ih hrest' hargs hlt
            have hterm : input' i = nul := by
              rw [hframe i (Nat.lt_succ_self i), Function.update_self]
            have hsame : ∀ j < i, input' j = input j := fun j hj => by
              rw [hframe j (by omega), Function.update_of_ne (by omega)]
            refine ⟨⟨as, input', by rw [hstep, heq], ?_, hsame⟩,
              ⟨as, input', by rw [hstep, heq], ?_, ?_, hsame⟩⟩
            · rwa [fillCommandAndArgs_space]
            · rw [if_neg (Nat.succ_ne_zero n), List.takeWhile_cons_of_neg (by decide)]
              exact hterm
            · rwa [List.dropWhile_cons_of_neg (by decide), fillCommandAndArgs_space]
          · have hat' : input i ≠ ' ' := hat ▸ hc
            have htake : (c :: l).takeWhile (· != ' ') = c :: l.takeWhile (· != ' ') :=
              List.takeWhile_cons_of_pos (by simpa using hc)
            have hdrop : (c :: l).dropWhile (· != ' ') = l.dropWhile (· != ' ') :=
              List.dropWhile_cons_of_pos (by simpa using hc)
            constructor
            · have hlength : (args ++ [i]).length + n = maxArgs := by
                rw [List.length_append, List.length_singleton]
                omega
              obtain ⟨-, as, input', heq, hword, hwords, hframe⟩ := ih hrest hlength hlt
              refine ⟨i :: as, input', ?_, ?_, fun j hj => hframe j (by omega)⟩
              · rw [fillLoop, if_pos hgo, if_neg hat', if_pos rfl, heq, List.append_assoc]
                rfl
              · rw [fillCommandAndArgs_word n hc]
                refine .cons ?_ hwords
                have hfirst : input' i = c := (hframe i (Nat.lt_succ_self i)).trans hat
                split
                · rename_i hn
                  rw [if_pos hn] at hword
                  exact ⟨hfirst, hne, hword⟩
                · rename_i hn
                  rw [if_neg hn] at hword
                  exact ⟨hfirst, hne, hword⟩
            · obtain ⟨-, as, input', heq, hword, hwords, hframe⟩ := ih hrest hargs hlt
              refine ⟨as, input', ?_, ?_, ?_, fun j hj => hframe j (by omega)⟩
              · rw [fillLoop, if_pos hgo, if_neg hat', if_neg (by decide), heq]
              · rw [if_neg (Nat.succ_ne_zero n)] at hword ⊢
                rw [htake]
                exact ⟨(hframe i (Nat.lt_succ_self i)).trans hat, hne, hword⟩
              · rwa [hdrop]

end Loop

section Words

theorem words_nil : words [] = [] := rfl

theorem words_space (l : List Char) : words (' ' :: l) = words l := by
  rw [words, List.splitOn_cons_eq_if_modifyHead, if_pos (by decide)]
  rfl

/-- The first word, when the line does not start with a space. -/
theorem words_word (hc : c ≠ ' ') (l : List Char) :
    words (c :: l) = (c :: l.takeWhile (· != ' ')) :: words (l.dropWhile (· != ' ')) := by
  have hfree : ' ' ∉ c :: l.takeWhile (· != ' ') := by
    rw [List.mem_cons, not_or]
    refine ⟨Ne.symm hc, fun hm => ?_⟩
    simpa using List.mem_takeWhile_imp hm
  have hsplit : c :: l = (c :: l.takeWhile (· != ' ')) ++ l.dropWhile (· != ' ') := by
    rw [List.cons_append, List.takeWhile_append_dropWhile]
  cases hrest : l.dropWhile (· != ' ') with
  | nil =>
      rw [hrest, List.append_nil] at hsplit
      rw [words, hsplit, List.splitOn_eq_singleton hfree]
      rfl
  | cons d rest =>
      have hd : d = ' ' := by
        have hhead := List.head_dropWhile_not (· != ' ') (l := l) (by rw [hrest]; simp)
        simp only [hrest, List.head_cons] at hhead
        simpa using hhead
      subst hd
      rw [hrest] at hsplit
      rw [words_space, words, hsplit, List.splitOn_append_cons_self_of_not_mem hfree]
      rfl

theorem eq_space_of_words_nil (h : words l = []) : ∀ c ∈ l, c = ' ' := by
  induction l with
  | nil => simp
  | cons c l ih =>
      by_cases hc : c = ' '
      · subst hc
        rw [words_space] at h
        exact List.forall_mem_cons.mpr ⟨rfl, ih h⟩
      · rw [words_word hc] at h
        cases h

theorem getLast?_append_of_ne_nil {l₂ : List Char} (l₁ : List Char) (h : l₂ ≠ []) :
    (l₁ ++ l₂).getLast? = l₂.getLast? := by
  rw [List.getLast?_append, List.getLast?_eq_some_getLast h]
  rfl

theorem words_ne_nil (h : 0 < (words l).length) : l ≠ [] := by
  rintro rfl
  exact absurd h (Nat.lt_irrefl 0)

/-- The number of entries, and when they are the words of the line. -/
theorem fillCommandAndArgs_spec (n : ℕ) (l : List Char) :
    (fillCommandAndArgs n l).length = min n (words l).length ∧
      (0 < n → (fillCommandAndArgs n l = (words l).take n ↔
        (words l).length < n ∨ (words l).length = n ∧ l.getLast? ≠ some ' ')) := by
  induction hlen : l.length using Nat.strong_induction_on generalizing n l with
  | _ len ih =>
      cases l with
      | nil =>
          have hnil : fillCommandAndArgs n [] = [] := by cases n <;> rfl
          rw [hnil, words_nil]
          exact ⟨by simp, fun hn => by simp [hn]⟩
      | cons c l =>
          by_cases hc : c = ' '
          · subst hc
            obtain ⟨hlength, hiff⟩ := ih l.length (by rw [← hlen]; simp) n l rfl
            rw [fillCommandAndArgs_space, words_space]
            refine ⟨hlength, fun hn => (hiff hn).trans (or_congr_right (and_congr_right fun heq => ?_))⟩
            have hne : l ≠ [] := words_ne_nil (heq ▸ hn)
            rw [← List.singleton_append, getLast?_append_of_ne_nil [' '] hne]
          cases n with
          | zero => exact ⟨by simp [fillCommandAndArgs], fun hn => absurd hn (Nat.lt_irrefl 0)⟩
          | succ n =>
              have hsplit : c :: l = (c :: l.takeWhile (· != ' ')) ++ l.dropWhile (· != ' ') := by
                rw [List.cons_append, List.takeWhile_append_dropWhile]
              have hshort : (l.dropWhile (· != ' ')).length < len := by
                have hle := (List.dropWhile_sublist (· != ' ') (l := l)).length_le
                rw [← hlen, List.length_cons]
                omega
              obtain ⟨hlength, hiff⟩ := ih _ hshort n (l.dropWhile (· != ' ')) rfl
              have hlast (hne : l.dropWhile (· != ' ') ≠ []) :
                  (c :: l).getLast? = (l.dropWhile (· != ' ')).getLast? := by
                rw [hsplit, getLast?_append_of_ne_nil _ hne]
              rw [fillCommandAndArgs_word n hc, words_word hc]
              refine ⟨by simp only [List.length_cons, hlength]; omega, fun _ => ?_⟩
              rw [List.take_succ_cons, List.cons.injEq, List.length_cons]
              cases n with
              | zero =>
                  rw [if_pos rfl]
                  constructor
                  · rintro ⟨hword, -⟩
                    have hrest : l.dropWhile (· != ' ') = [] := by
                      rw [hsplit] at hword
                      exact List.append_right_eq_self.mp hword
                    refine Or.inr ⟨by rw [hrest, words_nil]; rfl, fun hspace => ?_⟩
                    rw [hword] at hspace
                    have hm := List.mem_of_getLast? hspace
                    rcases List.mem_cons.mp hm with heq | hm
                    · exact hc heq.symm
                    · simpa using List.mem_takeWhile_imp hm
                  · rintro (hlt | ⟨hone, hspace⟩)
                    · omega
                    · refine ⟨?_, rfl⟩
                      have hwords : words (l.dropWhile (· != ' ')) = [] :=
                        List.eq_nil_of_length_eq_zero (by omega)
                      by_cases hrest : l.dropWhile (· != ' ') = []
                      · rw [hrest, List.append_nil] at hsplit
                        exact hsplit
                      · exfalso
                        rw [hlast hrest, List.getLast?_eq_some_getLast hrest] at hspace
                        exact hspace (congrArg some
                          (eq_space_of_words_nil hwords _ (List.getLast_mem hrest)))
              | succ n =>
                  rw [if_neg (Nat.succ_ne_zero n), eq_self_iff_true, true_and, hiff (Nat.succ_pos n)]
                  refine or_congr (by omega) ?_
                  rw [Nat.succ_inj]
                  refine and_congr_right fun heq => ?_
                  rw [hlast (words_ne_nil (heq ▸ Nat.succ_pos n))]

end Words

section Result

/-- `fillCommandAndArgs` returns the number of words, at most 32. The entries of the vector are
the words of the line exactly if there are fewer than 32, or 32 and no space behind the last. -/
theorem fillCommandAndArgs_words_iff (h : IsString input 0 line) :
    ∃ args input', fillArgs line.length input = some (args, input') ∧
      args.length = min 32 (words line).length ∧
      (List.Forall₂ (IsString input') args ((words line).take 32) ↔
        (words line).length < 32 ∨ (words line).length = 32 ∧ line.getLast? ≠ some ' ') := by
  have hnone : ([] : List ℕ).length + maxArgs = maxArgs := rfl
  obtain ⟨⟨args, input', heq, hargs, -⟩, -⟩ := fillLoop_spec h hnone
    (Nat.lt_succ_self line.length)
  obtain ⟨hlength, hiff⟩ := fillCommandAndArgs_spec maxArgs line
  refine ⟨args, input', heq, hargs.length_eq.trans hlength, ?_⟩
  refine Iff.trans ⟨fun hwords => ?_, fun hsame => ?_⟩ (hiff (by decide))
  · exact List.right_unique_forall₂' (fun _ _ _ ha hb => ha.unique hb) hargs hwords
  · exact hsame ▸ hargs

/-- The memory that holds a line and zeros behind it. -/
def lineMemory (line : List Char) (i : ℕ) : Char := line.getD i nul

theorem fillCommandAndArgs_words_iff_two :
    ∃ args input', fillArgs 3 (lineMemory ['a', ' ', 'b']) = some (args, input') ∧
      args.length = 2 ∧ List.Forall₂ (IsString input') args [['a'], ['b']] := by
  have hstring : IsString (lineMemory ['a', ' ', 'b']) 0 ['a', ' ', 'b'] :=
    ⟨rfl, by decide, rfl, by decide, rfl, by decide, rfl⟩
  obtain ⟨args, input', heq, hlength, hiff⟩ := fillCommandAndArgs_words_iff hstring
  exact ⟨args, input', heq, hlength, hiff.mpr (Or.inl (by decide))⟩

/-- Thirty-two words of one letter, each with a space behind it: the last entry of the vector
keeps its space. -/
theorem last_word_keeps_space :
    ∃ args input', fillArgs 64 (lineMemory (List.replicate 32 ['a', ' ']).flatten) =
        some (args, input') ∧
      args.length = 32 ∧ args[31]? = some 62 ∧
      (words (List.replicate 32 ['a', ' ']).flatten)[31]? = some ['a'] ∧
      ¬IsString input' 62 ['a'] := by
  have hcalc : (fillArgs 64 (lineMemory (List.replicate 32 ['a', ' ']).flatten)).map (fun r =>
      (r.1.length, r.1[31]?, r.2 63)) = some (32, some 62, ' ') := by
    decide +kernel
  obtain ⟨⟨args, input'⟩, heq, hvalue⟩ := Option.map_eq_some_iff.mp hcalc
  simp only [Prod.mk.injEq] at hvalue
  obtain ⟨hlength, hlast, hspace⟩ := hvalue
  refine ⟨args, input', heq, hlength, hlast, by decide +kernel, fun h => ?_⟩
  exact absurd (hspace.symm.trans h.2.2) (by decide)

end Result

end SoKernel.Userland
