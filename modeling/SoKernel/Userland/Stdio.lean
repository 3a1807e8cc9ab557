import Mathlib.Data.Nat.Digits.Defs

/-!
# Formatting in the user library

Embedding of `sprintf` of `lib_io.c` and of `atoi` of `lib_utils.c`. A string is the list of
its characters without the terminator. `none` stands for behaviour that C leaves undefined:
an argument that is missing or of the wrong kind, or a format that is read past its end.
-/

namespace SoKernel.Userland

/-- `OK`, `ERROR` and `CMD_ERROR`, the results of the commands of the shell. -/
def ok : ℤ := 0

def error : ℤ := -1

def cmdError : ℤ := -2

/-- A variable argument of `sprintf`. -/
inductive Arg where
  | str (s : List Char)
  | word (v : ℤ)
  deriving DecidableEq, Repr

/-- The value of a word as an integer type of `bits` bits. -/
def signed (bits : ℕ) (v : ℤ) : ℤ := Int.bmod v (2 ^ bits)

def unsigned (bits : ℕ) (v : ℤ) : ℕ := (v % 2 ^ bits).toNat

/-- `append_unsigned_to_str`: the digits are collected from the lowest and then reversed. -/
def appendUnsignedToStr (value : ℕ) : List Char :=
  if value = 0 then ['0']
  else ((Nat.digits 10 value).map fun d => Char.ofNat ('0'.toNat + d)).reverse

/-- `append_signed_to_str`. -/
def appendSignedToStr (value : ℤ) : List Char :=
  if value < 0 then '-' :: appendUnsignedToStr ((-(value + 1)).toNat + 1)
  else appendUnsignedToStr value.toNat

/-- The width of the integer that a specifier reads after `longModifiers` letters `l`. -/
def argBits (longModifiers : ℕ) : ℕ := if 1 ≤ longModifiers then 64 else 32

/-- The `switch` of `sprintf` on the character after the modifiers: what it writes, and the
arguments that are left. -/
def convert (longModifiers : ℕ) (spec : Char) (args : List Arg) :
    Option (List Char × List Arg) :=
  match spec, args with
  | 's', .str s :: args => some (s, args)
  | 'c', .word v :: args => some ([Char.ofNat (unsigned 8 v)], args)
  | 'd', .word v :: args => some (appendSignedToStr (signed (argBits longModifiers) v), args)
  | 'u', .word v :: args => some (appendUnsignedToStr (unsigned (argBits longModifiers) v), args)
  | 's', _ | 'c', _ | 'd', _ | 'u', _ => none
  | spec, args => some (['%', spec], args)

/-- Where `sprintf` stands in its format. -/
inductive Reading where
  /-- Before an ordinary character. -/
  | text
  /-- Right after a percent sign. -/
  | percent
  /-- After a percent sign and the given number of letters `l`, at least one. -/
  | long (modifiers : ℕ)
  deriving DecidableEq, Repr

/-- The loop of `sprintf`. -/
def sprintfLoop : Reading → List Char → List Arg → Option (List Char)
  | .text, [], _ => some []
  | .text, c :: fmt, args =>
      if c ≠ '%' then (c :: ·) <$> sprintfLoop .text fmt args
      else sprintfLoop .percent fmt args
  | .percent, [], _ => some []
  | .percent, c :: fmt, args =>
      if c = '%' then ('%' :: ·) <$> sprintfLoop .text fmt args
      else if c = 'l' then sprintfLoop (.long 1) fmt args
      else do
        let (written, args) ← convert 0 c args
        (written ++ ·) <$> sprintfLoop .text fmt args
  -- The `default` branch writes one percent sign, and the loop goes on after the terminator.
  | .long _, [], _ => none
  | .long n, c :: fmt, args =>
      if c = 'l' then sprintfLoop (.long (n + 1)) fmt args
      else do
        let (written, args) ← convert n c args
        (written ++ ·) <$> sprintfLoop .text fmt args

/-- `sprintf`: the string that it writes. -/
def sprintf (fmt : String) (args : List Arg) : Option (List Char) :=
  sprintfLoop .text fmt.toList args

/-- The digits that `atoi` reads, on an accumulator that wraps as `int` does. -/
def atoiDigits : ℤ → List Char → ℤ
  | res, c :: str =>
      if '0' ≤ c ∧ c ≤ '9' then atoiDigits (signed 32 (res * 10 + (c.toNat - '0'.toNat))) str
      else res
  | res, [] => res

def atoi (str : List Char) : ℤ :=
  match str.dropWhile fun c => c == ' ' || c == '\t' || c == '\n' with
  | '-' :: str => signed 32 (-atoiDigits 0 str)
  | '+' :: str => atoiDigits 0 str
  | str => atoiDigits 0 str

/-- A specifier that the `switch` does not know is copied with its percent sign, without
its modifiers and without its argument. -/
theorem convert_unknown (n : ℕ) (spec : Char) (args : List Arg)
    (hspec : spec ≠ 's' ∧ spec ≠ 'c' ∧ spec ≠ 'd' ∧ spec ≠ 'u') :
    convert n spec args = some (['%', spec], args) := by
  unfold convert
  split <;> simp_all

end SoKernel.Userland
