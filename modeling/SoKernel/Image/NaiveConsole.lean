import SoKernel.Image.KernelLib

/-!
# The console

Embedding of `naiveConsole.c`. The console writes to the text page, and keeps its cursor and the
digits of a number in two variables that the linker puts into the `.data` of the kernel. What it
prints changes the memory in these three places.
-/

namespace SoKernel.Image

open Function (update)

section Model

/-- The regions of `n` bytes from `a` on and of `k` bytes from `b` on do not meet. -/
def Apart (a n b k : ℕ) : Prop := a + n ≤ b ∨ b + k ≤ a

instance (a n b k : ℕ) : Decidable (Apart a n b k) := inferInstanceAs (Decidable (_ ∨ _))

def video : ℕ := 0xB8000

/-- The characters of a row of the text page. -/
def width : ℕ := 80

/-- The text page has 25 rows, and two bytes for a character. -/
def pageLength : ℕ := 25 * (2 * width)

/-- The length of `buffer`. -/
def bufferLength : ℕ := 64

/-- The addresses of the variables of the console, which lie behind the text page. -/
structure Console where
  currentVideo : ℕ
  buffer : ℕ
  currentVideo_behind : video + pageLength ≤ currentVideo
  buffer_behind : video + pageLength ≤ buffer
  apart : Apart currentVideo 8 buffer bufferLength

/-- `currentVideo`. -/
def Console.cursor (c : Console) (m : ByteMemory) : ℕ :=
  LittleEndian.value (m.fetch c.currentVideo 8)

def ncPrintChar (c : Console) (character : UInt8) (m : ByteMemory) : ByteMemory :=
  let m : ByteMemory := update m (c.cursor m) character
  m.store c.currentVideo (LittleEndian.bytes 8 (c.cursor m + 2))

/-- `ncPrint`, given the characters of the string. -/
def ncPrint (c : Console) (string : List UInt8) (m : ByteMemory) : ByteMemory :=
  string.foldl (fun m character => ncPrintChar c character m) m

/-- The characters of a literal. -/
def literal (string : String) : List UInt8 := string.toList.map fun ch => UInt8.ofNat ch.toNat

/-- `(currentVideo - video) % (width * 2)`. -/
def Console.column (c : Console) (m : ByteMemory) : ℕ :=
  (c.cursor m + 2 ^ 64 - video) % 2 ^ 64 % (width * 2)

/-- The loop of `ncNewline` with a number of turns ahead. -/
def newlineLoop (c : Console) : ℕ → ByteMemory → Option ByteMemory
  | 0, _ => none
  | turns + 1, m =>
      let m := ncPrintChar c ' '.toUInt8 m
      if c.column m = 0 then some m else newlineLoop c turns m

/-- `ncNewline`. A row comes to its end within its characters. -/
def ncNewline (c : Console) (m : ByteMemory) : Option ByteMemory := newlineLoop c width m

/-- One character of `uintToBase`. -/
def baseDigit (remainder : ℕ) : UInt8 :=
  UInt8.ofNat (if remainder < 10 then remainder + '0'.toNat else remainder + 'A'.toNat - 10)

/-- The first loop of `uintToBase`, which puts the last digit first. -/
def digitLoop (base : ℕ) (hbase : 2 ≤ base) (value : ℕ) : List UInt8 :=
  if value / base = 0 then
    [baseDigit (value % base)]
  else
    baseDigit (value % base) :: digitLoop base hbase (value / base)
termination_by value
decreasing_by
  rename_i hmore
  exact Nat.div_lt_self (Nat.pos_of_ne_zero (by rintro rfl; simp at hmore)) hbase

/-- `uintToBase`: the second loop turns the digits around. -/
def uintToBase (value base : ℕ) (hbase : 2 ≤ base) (buffer : ℕ) (m : ByteMemory) : ByteMemory :=
  m.store buffer ((digitLoop base hbase value).reverse ++ [0])

/-- The string in a region of `n` bytes. -/
def stringAt (m : ByteMemory) (address n : ℕ) : List UInt8 :=
  (m.fetch address n).takeWhile fun b => b != 0

/-- `ncPrintBase`. The console does not write to its buffer while it prints it. -/
def ncPrintBase (c : Console) (value base : ℕ) (hbase : 2 ≤ base) (m : ByteMemory) : ByteMemory :=
  let m := uintToBase value base hbase c.buffer m
  ncPrint c (stringAt m c.buffer bufferLength) m

def ncPrintHex (c : Console) (value : ℕ) (m : ByteMemory) : ByteMemory :=
  ncPrintBase c value 16 (by decide) m

def ncPrintDec (c : Console) (value : ℕ) (m : ByteMemory) : ByteMemory :=
  ncPrintBase c value 10 (by decide) m

end Model

section Printing

variable {c : Console} {m m' m'' : ByteMemory} {n k a value base : ℕ}

/-- Where the console writes. -/
def Console.Touches (c : Console) (a : ℕ) : Prop :=
  (video ≤ a ∧ a < video + pageLength) ∨
    (c.currentVideo ≤ a ∧ a < c.currentVideo + 8) ∨
    (c.buffer ≤ a ∧ a < c.buffer + bufferLength)

/-- The cursor stands behind `n` characters. -/
def Console.Stands (c : Console) (n : ℕ) (m : ByteMemory) : Prop :=
  m.Holds c.currentVideo (LittleEndian.bytes 8 (video + 2 * n))

/-- The console has printed on to `n` characters, and nothing else is written. -/
structure Printed (c : Console) (n : ℕ) (m m' : ByteMemory) : Prop where
  stands : c.Stands n m'
  same : ∀ a, ¬c.Touches a → m' a = m a

theorem Printed.trans (h : Printed c n m m') (h' : Printed c k m' m'') : Printed c k m m'' :=
  ⟨h'.stands, fun a ha => (h'.same a ha).trans (h.same a ha)⟩

theorem Console.Stands.cursor (h : c.Stands n m) (hn : 2 * n ≤ pageLength) :
    c.cursor m = video + 2 * n := by
  have hfetch : m.fetch c.currentVideo 8 = LittleEndian.bytes 8 (video + 2 * n) := by
    simpa [Console.Stands, ByteMemory.Holds] using h
  rw [Console.cursor, hfetch, LittleEndian.value_bytes]
  simp only [video, pageLength, width] at hn ⊢
  omega

/-- Writes beside the cursor leave it where it stands. -/
theorem Console.Stands.of_within {b length : ℕ} (h : c.Stands n m)
    (hwithin : ByteMemory.Within b length m m') (hapart : Apart c.currentVideo 8 b length) :
    c.Stands n m' := by
  refine hwithin.holds ?_ h
  rw [LittleEndian.length_bytes]
  exact hapart

theorem ncPrintChar_spec (h : c.Stands n m) (hn : 2 * (n + 1) ≤ pageLength) (character : UInt8) :
    Printed c (n + 1) m (ncPrintChar c character m) := by
  have hbehind := c.currentVideo_behind
  have hcursor := h.cursor (by omega)
  -- The character is written to the text page, before the variable.
  obtain ⟨m₁, hm₁⟩ : ∃ m₁ : ByteMemory, update m (c.cursor m) character = m₁ := ⟨_, rfl⟩
  have hpage : ByteMemory.Within (video + 2 * n) 1 m m₁ := by
    rw [← hm₁, hcursor, ByteMemory.update_eq_store]
    exact m.store_within _ [character]
  have hstands : c.Stands n m₁ := h.of_within hpage (Or.inr (by omega))
  have hmoved : ncPrintChar c character m =
      m₁.store c.currentVideo (LittleEndian.bytes 8 (video + 2 * (n + 1))) := by
    rw [ncPrintChar, hm₁, hstands.cursor (by omega)]
    rfl
  have hcell := m₁.store_within c.currentVideo (LittleEndian.bytes 8 (video + 2 * (n + 1)))
  rw [LittleEndian.length_bytes] at hcell
  rw [hmoved]
  refine ⟨ByteMemory.holds_store _ _ _, fun a ha => ?_⟩
  unfold Console.Touches at ha
  rw [hcell.apply (by omega), hpage.apply (by omega)]

theorem ncPrint_spec (string : List UInt8) (h : c.Stands n m)
    (hn : 2 * (n + string.length) ≤ pageLength) :
    Printed c (n + string.length) m (ncPrint c string m) := by
  induction string generalizing n m with
  | nil => exact ⟨h, fun _ _ => rfl⟩
  | cons character string ih =>
      rw [List.length_cons] at hn ⊢
      have hfirst := ncPrintChar_spec h (by omega) character
      have hrest := ih hfirst.stands (by omega)
      rw [show n + (string.length + 1) = n + 1 + string.length by omega]
      exact hfirst.trans hrest

theorem length_digitLoop (hbase : 2 ≤ base) {d : ℕ} (hd : 0 < d) (hvalue : value < base ^ d) :
    (digitLoop base hbase value).length ≤ d := by
  induction d generalizing value with
  | zero => omega
  | succ d ih =>
      rw [digitLoop]
      split
      · exact hd
      · next hmore =>
          rw [List.length_cons]
          have hd' : 0 < d := by
            by_contra hzero
            obtain rfl : d = 0 := by omega
            rw [Nat.zero_add, Nat.pow_one] at hvalue
            exact hmore (Nat.div_eq_of_lt hvalue)
          have hless : value / base < base ^ d := by
            rw [Nat.div_lt_iff_lt_mul (by omega), ← Nat.pow_succ]
            exact hvalue
          have hlength := ih hd' hless
          omega

/-- A number takes its digits at most, up to the length of the buffer. -/
theorem ncPrintBase_spec (hbase : 2 ≤ base) (h : c.Stands n m) (hvalue : value < base ^ 63)
    (hn : 2 * (n + bufferLength) ≤ pageLength) :
    ∃ k ≤ n + bufferLength, Printed c k m (ncPrintBase c value base hbase m) := by
  have hlength : ((digitLoop base hbase value).reverse ++ [0]).length ≤ bufferLength := by
    have hdigits := length_digitLoop hbase (by decide) hvalue
    simp only [List.length_append, List.length_reverse, List.length_singleton, bufferLength]
    omega
  have hwithin := m.store_within c.buffer ((digitLoop base hbase value).reverse ++ [0])
  have hapart : Apart c.currentVideo 8 c.buffer
      ((digitLoop base hbase value).reverse ++ [0]).length := by
    have hvars := c.apart
    unfold Apart at hvars ⊢
    omega
  have hstands : c.Stands n (uintToBase value base hbase c.buffer m) := h.of_within hwithin hapart
  have hshort : (stringAt (uintToBase value base hbase c.buffer m) c.buffer bufferLength).length ≤
      bufferLength := by
    refine (List.takeWhile_prefix _).length_le.trans ?_
    rw [ByteMemory.length_fetch]
  have hprinted := ncPrint_spec
    (stringAt (uintToBase value base hbase c.buffer m) c.buffer bufferLength) hstands (by omega)
  refine ⟨_, by omega, hprinted.stands, fun a ha => ?_⟩
  rw [ncPrintBase, hprinted.same a ha]
  unfold Console.Touches at ha
  exact hwithin.apply (by omega)

theorem Console.Stands.column (h : c.Stands n m) (hn : 2 * n ≤ pageLength) :
    c.column m = 2 * (n % width) := by
  rw [Console.column, h.cursor hn]
  simp only [video, pageLength, width] at hn ⊢
  omega

/-- The loop fills the row that the cursor stands in. -/
theorem newlineLoop_spec {turns : ℕ} (h : c.Stands n m) (hturns : width ≤ n % width + turns)
    (hn : 2 * (n + (width - n % width)) ≤ pageLength) :
    ∃ m', newlineLoop c turns m = some m' ∧ Printed c (n + (width - n % width)) m m' := by
  induction turns generalizing n m with
  | zero =>
      have hrow : n % width < width := Nat.mod_lt _ (by decide)
      omega
  | succ turns ih =>
      have hrow : n % width < width := Nat.mod_lt _ (by decide)
      have hfirst := ncPrintChar_spec h (by omega) ' '.toUInt8
      have hcolumn := hfirst.stands.column (by omega)
      rw [newlineLoop]
      by_cases hfull : (n + 1) % width = 0
      · have hlast : n + (width - n % width) = n + 1 := by
          simp only [width] at hfull ⊢
          omega
        rw [if_pos (by rw [hcolumn, hfull]), hlast]
        exact ⟨_, rfl, hfirst⟩
      · have hnext : (n + 1) % width = n % width + 1 := by
          simp only [width] at hfull ⊢
          omega
        have hend : n + 1 + (width - (n + 1) % width) = n + (width - n % width) := by omega
        obtain ⟨m', hloop, hprinted⟩ := ih hfirst.stands (by omega) (by omega)
        rw [hend] at hprinted
        exact ⟨m', by rw [if_neg (by omega), hloop], hfirst.trans hprinted⟩

theorem ncNewline_spec (h : c.Stands n m) (hn : 2 * (n + width) ≤ pageLength) :
    ∃ m' k, ncNewline c m = some m' ∧ k ≤ n + width ∧ Printed c k m m' := by
  obtain ⟨m', hloop, hprinted⟩ := newlineLoop_spec h (Nat.le_add_left _ _) (by omega)
  exact ⟨m', _, hloop, by omega, hprinted⟩

end Printing

end SoKernel.Image
