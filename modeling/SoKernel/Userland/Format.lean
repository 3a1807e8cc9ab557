import SoKernel.Userland.Stdio

/-!
# The scan of a format

Embedding of `printf` and `sprintf` of `lib_io.c` with their index into the format, which a
directive moves on as well as the loop. An examined byte behind the terminator stops a call.
`printf` gets there after a percent sign at the end, `sprintf` after a percent sign and letters
`l` at the end, and neither otherwise.
-/

namespace SoKernel.Userland.Format

section Model

def nul : Char := Char.ofNat 0

/-- A string in memory: its characters before the terminator. -/
structure CString where
  chars : List Char
  noNul : nul ∉ chars

/-- Why a call does not return. -/
inductive Halt where
  | pastTerminator
  | bufferFull
  | outOfFuel
  deriving DecidableEq, Repr

/-- `s[i]`. -/
def CString.charAt (s : CString) (i : ℕ) : Except Halt Char :=
  match s.chars.drop i with
  | c :: _ => .ok c
  | [] => if i = s.chars.length then .ok nul else .error .pastTerminator

/-- What `va_arg` finds: the words behind the format, whatever was passed, and the strings that
they point to. -/
structure VarArgs where
  word : ℕ → UInt64
  string : UInt64 → CString

/-- The same word for every argument, and empty strings. -/
def VarArgs.const (w : UInt64) : VarArgs := ⟨fun _ => w, fun _ => ⟨[], List.not_mem_nil⟩⟩

/-- The characters that were printed or stored, with the counter of the call. -/
structure Output where
  chars : List Char
  count : ℕ
  deriving DecidableEq, Repr

/-- One character, counted. -/
def Output.put (o : Output) (c : Char) : Output := ⟨o.chars ++ [c], o.count + 1⟩

def Output.puts (o : Output) (cs : List Char) : Output := cs.foldl Output.put o

/-- The variables of a loop: the index into the format and the number of words read. -/
structure Cursor where
  index : ℕ
  args : ℕ
  out : Output

/-- The cursor after a directive that read one word. -/
def Cursor.took (s : Cursor) (out : Output) : Cursor := ⟨s.index, s.args + 1, out⟩

def digitChar (d : ℕ) : Char := Char.ofNat ('0'.toNat + d)

/-- The loop that fills `buf` with the digits of a number, the lowest first, while there is room
for `room` more of them. -/
def fillDigits : ℕ → ℕ → Except Halt (List Char)
  | _, 0 => .ok []
  | 0, _ + 1 => .error .bufferFull
  | room + 1, value + 1 => do
      let buf ← fillDigits room ((value + 1) / 10)
      .ok (digitChar ((value + 1) % 10) :: buf)

/-- The branch of `printf` for `%d`. The negation wraps. -/
def printInt (n : ℤ) (out : Output) : Except Halt Output :=
  if n = 0 then .ok (out.put '0')
  else
    let (n, out) := if n < 0 then (signed 32 (-n), out.put '-') else (n, out)
    do
      let buf ← fillDigits 12 n.toNat
      .ok (out.puts buf.reverse)

/-- The branch of `printf` for `%lld`. -/
def printLongLong (val : ℤ) (out : Output) : Except Halt Output :=
  if val = 0 then .ok (out.put '0')
  else
    let (uval, out) :=
      if val < 0 then
        (if val = -9223372036854775807 - 1 then 9223372036854775808 else unsigned 64 (-val),
          out.put '-')
      else (unsigned 64 val, out)
    do
      let buf ← fillDigits 21 uval
      .ok (out.puts buf.reverse)

/-- The branch of `printf` for `%llu`. -/
def printUnsigned (val : ℕ) (out : Output) : Except Halt Output :=
  if val = 0 then .ok (out.put '0')
  else do
    let buf ← fillDigits 21 val
    .ok (out.puts buf.reverse)

def hexDigits : List Char := "0123456789ABCDEF".toList

/-- `while (*p == '0' && *(p + 1)) p++`. -/
def stripZeros : List Char → List Char
  | '0' :: c :: cs => stripZeros (c :: cs)
  | cs => cs

/-- The buffer that `printf` prints for `%llx`. -/
def hexText (v : ℕ) : List Char :=
  stripZeros ((List.range 16).map fun j => hexDigits.getD (v / 16 ^ (15 - j) % 16) nul)

/-- The `default` branch of `printf`, on the character after the percent sign. -/
def printOther (s : Cursor) (c : Char) : Cursor := { s with out := (s.out.put '%').put c }

/-- The `switch` of `printf`. -/
def printfSwitch (fmt : CString) (va : VarArgs) (s : Cursor) : Except Halt Cursor := do
  let c ← fmt.charAt s.index
  let w := va.word s.args
  if c = 's' then .ok (s.took (s.out.puts (va.string w).chars))
  else if c = 'd' then do
    let out ← printInt (signed 32 w.toNat) s.out
    .ok (s.took out)
  else if c = 'c' then .ok (s.took (s.out.put (Char.ofNat (unsigned 8 w.toNat))))
  else if c = 'l' then do
    let c₁ ← fmt.charAt (s.index + 1)
    if c₁ = 'l' then do
      let c₂ ← fmt.charAt (s.index + 2)
      if c₂ = 'x' then
        let text := hexText w.toNat
        .ok ({ s with index := s.index + 2 }.took
          ⟨s.out.chars ++ text, s.out.count + text.length⟩)
      else if c₂ = 'd' then do
        let out ← printLongLong (signed 64 w.toNat) s.out
        .ok ({ s with index := s.index + 2 }.took out)
      else if c₂ = 'u' then do
        let out ← printUnsigned w.toNat s.out
        .ok ({ s with index := s.index + 2 }.took out)
      else .ok (printOther s c)
    else .ok (printOther s c)
  else .ok (printOther s c)

def printfLoop (fmt : CString) (va : VarArgs) : ℕ → Cursor → Except Halt Output
  | 0, _ => .error .outOfFuel
  | n + 1, s => do
      let c ← fmt.charAt s.index
      if c = nul then .ok s.out
      else if c = '%' then do
        let s ← printfSwitch fmt va { s with index := s.index + 1 }
        printfLoop fmt va n { s with index := s.index + 1 }
      else printfLoop fmt va n ⟨s.index + 1, s.args, s.out.put c⟩

/-- `printf`: the characters that it emits through `putchar`, with its result. -/
def printf (fmt : CString) (va : VarArgs) : Except Halt Output :=
  printfLoop fmt va (fmt.chars.length + 2) ⟨0, 0, ⟨[], 0⟩⟩

/-- `append_unsigned_to_str`. -/
def appendUnsigned (value : ℕ) (out : Output) : Except Halt Output :=
  if value = 0 then .ok (out.put '0')
  else do
    let buf ← fillDigits 21 value
    .ok (out.puts buf.reverse)

/-- `append_signed_to_str`. -/
def appendSigned (value : ℤ) (out : Output) : Except Halt Output :=
  let (magnitude, out) :=
    if value < 0 then ((unsigned 64 (-(value + 1)) + 1) % 2 ^ 64, out.put '-')
    else (unsigned 64 value, out)
  appendUnsigned magnitude out

/-- The loop of `sprintf` over the letters `l`: their number, and the index of the character
after them. -/
def modifiersLoop (fmt : CString) : ℕ → ℕ → ℕ → Except Halt (ℕ × ℕ)
  | 0, _, _ => .error .outOfFuel
  | n + 1, i, modifiers => do
      let c ← fmt.charAt i
      if c = 'l' then modifiersLoop fmt n (i + 1) (modifiers + 1) else .ok (modifiers, i)

/-- The `switch` of `sprintf`. -/
def sprintfSwitch (fmt : CString) (va : VarArgs) (modifiers : ℕ) (s : Cursor) :
    Except Halt Cursor := do
  let spec ← fmt.charAt s.index
  let w := va.word s.args
  if spec = 's' then
    .ok (s.took (if w = 0 then s.out else s.out.puts (va.string w).chars))
  else if spec = 'c' then .ok (s.took (s.out.put (Char.ofNat (unsigned 8 w.toNat))))
  else if spec = 'd' then do
    let out ← appendSigned (signed (argBits modifiers) w.toNat) s.out
    .ok (s.took out)
  else if spec = 'u' then do
    let out ← appendUnsigned (unsigned (argBits modifiers) w.toNat) s.out
    .ok (s.took out)
  else
    let out := s.out.put '%'
    .ok { s with out := if spec = nul then out else out.put spec }

def sprintfLoop (fmt : CString) (va : VarArgs) : ℕ → Cursor → Except Halt Output
  | 0, _ => .error .outOfFuel
  | n + 1, s => do
      let c ← fmt.charAt s.index
      if c = nul then .ok s.out
      else if c ≠ '%' then sprintfLoop fmt va n ⟨s.index + 1, s.args, s.out.put c⟩
      else do
        let c ← fmt.charAt (s.index + 1)
        if c = nul then .ok s.out
        else if c = '%' then sprintfLoop fmt va n ⟨s.index + 2, s.args, s.out.put '%'⟩
        else do
          let (modifiers, i) ← modifiersLoop fmt (fmt.chars.length + 2) (s.index + 1) 0
          let s ← sprintfSwitch fmt va modifiers { s with index := i }
          sprintfLoop fmt va n { s with index := s.index + 1 }

/-- `sprintf`: the characters that it stores before the terminator, with its result. -/
def sprintf (fmt : CString) (va : VarArgs) : Except Halt Output :=
  sprintfLoop fmt va (fmt.chars.length + 2) ⟨0, 0, ⟨[], 0⟩⟩

end Model

variable {fmt : CString} {va : VarArgs} {i n : ℕ} {c : Char} {l : List Char} {s : Cursor}

section Reading

/-- The rest of a call after a step that returned. -/
theorem ok_bind {α β : Type} (a : α) (f : α → Except Halt β) : (Except.ok a >>= f) = f a := rfl

theorem CString.charAt_cons (h : fmt.chars.drop i = c :: l) :
    fmt.charAt i = .ok c ∧ c ≠ nul ∧ fmt.chars.drop (i + 1) = l := by
  refine ⟨by rw [charAt, h], ?_, by rw [← List.tail_drop, h, List.tail_cons]⟩
  rintro rfl
  refine fmt.noNul (List.mem_of_mem_drop (i := i) ?_)
  rw [h]
  exact List.mem_cons_self

theorem CString.charAt_length (h : i = fmt.chars.length) : fmt.charAt i = .ok nul := by
  rw [charAt, List.drop_eq_nil_of_le h.ge]
  exact if_pos h

theorem CString.charAt_past (h : fmt.chars.length < i) : fmt.charAt i = .error .pastTerminator := by
  rw [charAt, List.drop_eq_nil_of_le h.le]
  exact if_neg h.ne'

/-- The index stands before the characters `l` of the format. -/
structure Before (fmt : CString) (i : ℕ) (l : List Char) : Prop where
  drop : fmt.chars.drop i = l
  le : i ≤ fmt.chars.length

theorem Before.cons (h : Before fmt i (c :: l)) :
    fmt.charAt i = .ok c ∧ c ≠ nul ∧ Before fmt (i + 1) l := by
  obtain ⟨hat, hne, hdrop⟩ := CString.charAt_cons h.drop
  refine ⟨hat, hne, hdrop, ?_⟩
  have hlen := congrArg List.length h.drop
  rw [List.length_drop, List.length_cons] at hlen
  omega

theorem Before.nil (h : Before fmt i []) : i = fmt.chars.length :=
  le_antisymm h.le (List.drop_eq_nil_iff.mp h.drop)

theorem Before.charAt_nil (h : Before fmt i []) : fmt.charAt i = .ok nul :=
  CString.charAt_length h.nil

theorem Before.start (fmt : CString) : Before fmt 0 fmt.chars := ⟨rfl, Nat.zero_le _⟩

theorem Before.length (h : Before fmt i l) : i + l.length = fmt.chars.length := by
  rw [← h.drop, List.length_drop]
  exact Nat.add_sub_cancel' h.le

end Reading

section Numbers

@[simp] theorem Output.puts_chars (o : Output) (cs : List Char) :
    (o.puts cs).chars = o.chars ++ cs := by
  induction cs generalizing o with
  | nil => simp [puts]
  | cons c cs ih =>
      rw [puts, List.foldl_cons]
      exact (ih _).trans (by simp [put])

@[simp] theorem Output.puts_count (o : Output) (cs : List Char) :
    (o.puts cs).count = o.count + cs.length := by
  induction cs generalizing o with
  | nil => simp [puts]
  | cons c cs ih =>
      rw [puts, List.foldl_cons]
      refine (ih _).trans ?_
      simp only [put, List.length_cons]
      omega

theorem Output.puts_eq (o : Output) (cs : List Char) :
    o.puts cs = ⟨o.chars ++ cs, o.count + cs.length⟩ := by
  rw [← Output.puts_chars, ← Output.puts_count]

/-- A buffer with room for the digits gets all of them. -/
theorem fillDigits_eq {room value : ℕ} (h : value < 10 ^ room) :
    fillDigits room value = .ok ((Nat.digits 10 value).map digitChar) := by
  induction room generalizing value with
  | zero =>
      obtain rfl : value = 0 := by simpa using h
      rfl
  | succ room ih =>
      cases value with
      | zero => rfl
      | succ value =>
          have hdiv : (value + 1) / 10 < 10 ^ room := by
            rw [Nat.div_lt_iff_lt_mul (by decide), ← pow_succ]
            exact h
          rw [fillDigits, ih hdiv, Nat.digits_def' (by decide) (Nat.succ_pos value)]
          rfl

theorem appendUnsignedToStr_pos {value : ℕ} (h : value ≠ 0) :
    appendUnsignedToStr value = ((Nat.digits 10 value).map digitChar).reverse := if_neg h

theorem signed_range {bits : ℕ} (v : ℤ) :
    -(2 ^ bits) ≤ signed (bits + 1) v ∧ signed (bits + 1) v < 2 ^ bits := by
  have hpos : 0 < 2 ^ (bits + 1) := by positivity
  have hle : -(((2 ^ (bits + 1) : ℕ) : ℤ) / 2) ≤ signed (bits + 1) v := Int.le_bmod hpos
  have hlt : signed (bits + 1) v < (((2 ^ (bits + 1) : ℕ) : ℤ) + 1) / 2 := Int.bmod_lt hpos
  push_cast at hle hlt
  omega

/-- The value of a word as `int` and as `long long`. -/
theorem int_range (v : ℤ) : -(2 ^ 31) ≤ signed 32 v ∧ signed 32 v < 2 ^ 31 := signed_range v

theorem longLong_range (v : ℤ) : -(2 ^ 63) ≤ signed 64 v ∧ signed 64 v < 2 ^ 63 := signed_range v

theorem word_lt (w : UInt64) : w.toNat < 2 ^ 64 := w.toNat_lt

theorem signed_of_range {bits : ℕ} {v : ℤ} (hle : -(2 ^ bits) ≤ v) (hlt : v < 2 ^ bits) :
    signed (bits + 1) v = v := by
  refine Int.bmod_eq_of_le ?_ ?_
  · push_cast
    omega
  · push_cast
    omega

theorem unsigned_of_range {bits : ℕ} {v : ℤ} (hle : 0 ≤ v) (hlt : v < 2 ^ bits) :
    unsigned bits v = v.toNat := by
  rw [unsigned, Int.emod_eq_of_lt hle hlt]

theorem appendUnsigned_eq {value : ℕ} (h : value < 2 ^ 64) (out : Output) :
    appendUnsigned value out = .ok (out.puts (appendUnsignedToStr value)) := by
  rw [appendUnsigned]
  split
  · rename_i h0
    rw [h0]
    rfl
  · rename_i hne
    rw [fillDigits_eq (by omega), appendUnsignedToStr_pos hne]
    rfl

theorem printUnsigned_eq {value : ℕ} (h : value < 2 ^ 64) (out : Output) :
    printUnsigned value out = .ok (out.puts (appendUnsignedToStr value)) :=
  appendUnsigned_eq h out

theorem appendSignedToStr_neg {v : ℤ} (h : v < 0) :
    appendSignedToStr v = '-' :: appendUnsignedToStr (-v).toNat := by
  have hmagnitude : (-(v + 1)).toNat + 1 = (-v).toNat := by omega
  rw [appendSignedToStr, if_pos h, hmagnitude]

theorem appendSigned_eq {v : ℤ} (hle : -(2 ^ 63) ≤ v) (hlt : v < 2 ^ 63) (out : Output) :
    appendSigned v out = .ok (out.puts (appendSignedToStr v)) := by
  rcases lt_or_ge v 0 with hneg | hpos
  · have hwrap : (unsigned 64 (-(v + 1)) + 1) % 2 ^ 64 = (-v).toNat := by
      rw [unsigned_of_range (by omega) (by omega)]
      omega
    simp only [appendSigned, if_pos hneg, hwrap, appendSignedToStr_neg hneg]
    exact appendUnsigned_eq (by omega) (out.put '-')
  · simp only [appendSigned, appendSignedToStr, if_neg (not_lt.mpr hpos),
      unsigned_of_range hpos (hlt.trans (by norm_num) : v < 2 ^ 64)]
    exact appendUnsigned_eq (by omega) out

theorem printLongLong_eq {v : ℤ} (hle : -(2 ^ 63) ≤ v) (hlt : v < 2 ^ 63) (out : Output) :
    printLongLong v out = .ok (out.puts (appendSignedToStr v)) := by
  rcases lt_trichotomy v 0 with hneg | rfl | hpos
  · have hmagnitude : (if v = -9223372036854775807 - 1 then 9223372036854775808
        else unsigned 64 (-v)) = (-v).toNat := by
      split
      · omega
      · exact unsigned_of_range (by omega) (by omega)
    simp only [printLongLong, if_neg hneg.ne, if_pos hneg, hmagnitude, appendSignedToStr_neg hneg]
    rw [fillDigits_eq (by omega), appendUnsignedToStr_pos (by omega)]
    rfl
  · rfl
  · simp only [printLongLong, if_neg hpos.ne', if_neg (not_lt.mpr hpos.le), appendSignedToStr,
      unsigned_of_range hpos.le (hlt.trans (by norm_num) : v < 2 ^ 64)]
    rw [fillDigits_eq (by omega), appendUnsignedToStr_pos (by omega)]
    rfl

/-- What `printf` emits for `%d`: the negation of the least `int` is not positive, and no digit
follows the sign. -/
def intText (n : ℤ) : List Char := if n = -(2 ^ 31) then ['-'] else appendSignedToStr n

theorem printInt_eq {n : ℤ} (hle : -(2 ^ 31) ≤ n) (hlt : n < 2 ^ 31) (out : Output) :
    printInt n out = .ok (out.puts (intText n)) := by
  by_cases hleast : n = -(2 ^ 31)
  · subst hleast
    rfl
  rw [intText, if_neg hleast]
  rcases lt_trichotomy n 0 with hneg | rfl | hpos
  · have hnegate : signed 32 (-n) = -n := signed_of_range (by omega : -(2 ^ 31) ≤ -n) (by omega)
    simp only [printInt, if_neg hneg.ne, if_pos hneg, hnegate, appendSignedToStr_neg hneg]
    rw [fillDigits_eq (by omega), appendUnsignedToStr_pos (by omega)]
    rfl
  · rfl
  · simp only [printInt, if_neg hpos.ne', if_neg (not_lt.mpr hpos.le), appendSignedToStr]
    rw [fillDigits_eq (by omega), appendUnsignedToStr_pos (by omega)]
    rfl

end Numbers

section Bounds

/-- Where `printf` stands after a character: right after a percent sign or not. -/
def printfReading : Reading → Char → Reading
  | .percent, _ => .text
  | _, c => if c = '%' then .percent else .text

/-- Where `sprintf` stands after a character. -/
def sprintfReading : Reading → Char → Reading
  | .text, c => if c = '%' then .percent else .text
  | .percent, c => if c = '%' then .text else if c = 'l' then .long 1 else .text
  | .long n, c => if c = 'l' then .long (n + 1) else .text

theorem printfSwitch_nil (h : Before fmt s.index []) :
    printfSwitch fmt va s = .ok (printOther s nul) := by
  rw [printfSwitch, h.charAt_nil]
  rfl

variable (va) in
/-- A directive ends at its letter, or two letters after it. -/
theorem printfSwitch_cons (h : Before fmt s.index (c :: l)) :
    ∃ s', printfSwitch fmt va s = .ok s' ∧ (s'.index = s.index ∨
      ∃ x l', l = 'l' :: x :: l' ∧ x ≠ '%' ∧ s'.index = s.index + 2) := by
  obtain ⟨hat, -, hnext⟩ := h.cons
  have hint := int_range (va.word s.args).toNat
  have hlong := longLong_range (va.word s.args).toNat
  have hword := word_lt (va.word s.args)
  simp only [printfSwitch, hat, ok_bind, printInt_eq hint.1 hint.2]
  split
  · exact ⟨_, rfl, Or.inl rfl⟩
  split
  · exact ⟨_, rfl, Or.inl rfl⟩
  split
  · exact ⟨_, rfl, Or.inl rfl⟩
  split
  · cases l with
    | nil =>
        simp only [hnext.charAt_nil, ok_bind]
        exact ⟨_, rfl, Or.inl rfl⟩
    | cons c₁ l =>
        obtain ⟨hat₁, -, hnext₁⟩ := hnext.cons
        simp only [hat₁, ok_bind]
        split
        · rename_i hc₁
          subst hc₁
          cases l with
          | nil =>
              simp only [hnext₁.charAt_nil, ok_bind]
              exact ⟨_, rfl, Or.inl rfl⟩
          | cons c₂ l =>
              obtain ⟨hat₂, -, -⟩ := hnext₁.cons
              simp only [hat₂, ok_bind, printLongLong_eq hlong.1 hlong.2, printUnsigned_eq hword]
              split
              · rename_i hc₂
                exact ⟨_, rfl, Or.inr ⟨c₂, l, rfl, by rw [hc₂]; decide, rfl⟩⟩
              split
              · rename_i hc₂
                exact ⟨_, rfl, Or.inr ⟨c₂, l, rfl, by rw [hc₂]; decide, rfl⟩⟩
              split
              · rename_i hc₂
                exact ⟨_, rfl, Or.inr ⟨c₂, l, rfl, by rw [hc₂]; decide, rfl⟩⟩
              · exact ⟨_, rfl, Or.inl rfl⟩
        · exact ⟨_, rfl, Or.inl rfl⟩
  · exact ⟨_, rfl, Or.inl rfl⟩

theorem printfReading_plain (hc : c ≠ '%') (l : List Char) :
    (c :: l).foldl printfReading .text = l.foldl printfReading .text := by
  rw [List.foldl_cons, printfReading, if_neg hc]
  simp

theorem printfReading_percent (c : Char) (l : List Char) :
    ('%' :: c :: l).foldl printfReading .text = l.foldl printfReading .text := rfl

theorem printfLoop_past (hn : 0 < n) (h : fmt.chars.length < s.index) :
    printfLoop fmt va n s = .error .pastTerminator := by
  obtain ⟨n, rfl⟩ := Nat.exists_eq_succ_of_ne_zero hn.ne'
  rw [printfLoop, CString.charAt_past h]
  rfl

variable (va) in
/-- The loop of `printf` ends, and past the terminator exactly if the format ends right after a
percent sign. -/
theorem printfLoop_ends (n : ℕ) (h : Before fmt s.index l) (hn : l.length + 2 ≤ n) :
    (l.foldl printfReading .text ≠ .percent ∧ ∃ o, printfLoop fmt va n s = .ok o) ∨
      l.foldl printfReading .text = .percent ∧
        printfLoop fmt va n s = .error .pastTerminator := by
  induction n generalizing l s with
  | zero => omega
  | succ n ih =>
      cases l with
      | nil =>
          refine Or.inl ⟨by simp, s.out, ?_⟩
          simp only [printfLoop, h.charAt_nil, ok_bind, if_true]
      | cons c l =>
          obtain ⟨hat, hne, hnext⟩ := h.cons
          simp only [List.length_cons] at hn
          by_cases hc : c = '%'
          · subst hc
            cases l with
            | nil =>
                refine Or.inr ⟨rfl, ?_⟩
                simp only [printfLoop, hat, ok_bind, if_neg hne, if_true, printfSwitch_nil
                  (s := { s with index := s.index + 1 }) hnext, printOther]
                have hend := hnext.nil
                refine printfLoop_past (by omega) ?_
                show fmt.chars.length < s.index + 1 + 1
                omega
            | cons c l =>
                obtain ⟨s', hswitch, hindex⟩ := printfSwitch_cons va
                  (s := { s with index := s.index + 1 }) hnext
                simp only [printfLoop, hat, ok_bind, if_neg hne, if_true, hswitch]
                obtain ⟨-, -, hrest⟩ := hnext.cons
                rw [printfReading_percent]
                simp only [List.length_cons] at hn
                rcases hindex with hindex | ⟨x, l', rfl, hx, hindex⟩
                · exact ih (s := { s' with index := s'.index + 1 }) (hindex ▸ hrest) (by omega)
                · obtain ⟨-, -, hrest₁⟩ := hrest.cons
                  obtain ⟨-, -, hrest₂⟩ := hrest₁.cons
                  rw [printfReading_plain (by decide), printfReading_plain hx]
                  simp only [List.length_cons] at hn
                  exact ih (s := { s' with index := s'.index + 1 }) (hindex ▸ hrest₂) (by omega)
          · have hrest := ih (s := ⟨s.index + 1, s.args, s.out.put c⟩) hnext (by omega)
            rw [printfReading_plain hc]
            simp only [printfLoop, hat, ok_bind, if_neg hne, if_neg hc]
            exact hrest

/-- The loop over the letters `l` stops before the first other character. -/
theorem modifiersLoop_eq (n m : ℕ) (h : Before fmt i l) (hn : l.length + 1 ≤ n) :
    ∃ k l', l = List.replicate k 'l' ++ l' ∧ (∀ c ∈ l'.head?, c ≠ 'l') ∧ Before fmt (i + k) l' ∧
      modifiersLoop fmt n i m = .ok (m + k, i + k) := by
  induction n generalizing i m l with
  | zero => omega
  | succ n ih =>
      cases l with
      | nil =>
          refine ⟨0, [], rfl, by simp, h, ?_⟩
          simp only [modifiersLoop, h.charAt_nil, ok_bind]
          rfl
      | cons c l =>
          obtain ⟨hat, -, hnext⟩ := h.cons
          by_cases hc : c = 'l'
          · subst hc
            obtain ⟨k, l', rfl, hhead, hbefore, heq⟩ := ih (m + 1) hnext
              (by simp only [List.length_cons] at hn; omega)
            refine ⟨k + 1, l', rfl, hhead, by convert hbefore using 1; omega, ?_⟩
            simp only [modifiersLoop, hat, ok_bind, if_true, heq]
            congr 2 <;> omega
          · refine ⟨0, c :: l, rfl, by simpa using hc, h, ?_⟩
            simp only [modifiersLoop, hat, ok_bind, if_neg hc]
            rfl

theorem sprintfSwitch_nil (h : Before fmt s.index []) (m : ℕ) :
    sprintfSwitch fmt va m s = .ok { s with out := s.out.put '%' } := by
  simp only [sprintfSwitch, h.charAt_nil, ok_bind]
  rfl

/-- The value that a directive of `sprintf` reads fits the widest integers. -/
theorem argBits_range (m : ℕ) (v : ℤ) :
    -(2 ^ 63) ≤ signed (argBits m) v ∧ signed (argBits m) v < 2 ^ 63 ∧
      unsigned (argBits m) v < 2 ^ 64 := by
  have hint := int_range v
  have hlong := longLong_range v
  rw [argBits, unsigned]
  split
  · exact ⟨hlong.1, hlong.2, by omega⟩
  · exact ⟨by omega, by omega, by omega⟩

variable (va) in
/-- A directive of `sprintf` ends at its letter. -/
theorem sprintfSwitch_cons (h : Before fmt s.index (c :: l)) (m : ℕ) :
    ∃ s', sprintfSwitch fmt va m s = .ok s' ∧ s'.index = s.index := by
  obtain ⟨hat, -, -⟩ := h.cons
  obtain ⟨hle, hlt, hword⟩ := argBits_range m (va.word s.args).toNat
  simp only [sprintfSwitch, hat, ok_bind, appendSigned_eq hle hlt, appendUnsigned_eq hword]
  split
  · exact ⟨_, rfl, rfl⟩
  split
  · exact ⟨_, rfl, rfl⟩
  split
  · exact ⟨_, rfl, rfl⟩
  split
  · exact ⟨_, rfl, rfl⟩
  · exact ⟨_, rfl, rfl⟩

theorem sprintfReading_plain (hc : c ≠ '%') (l : List Char) :
    (c :: l).foldl sprintfReading .text = l.foldl sprintfReading .text := by
  rw [List.foldl_cons, sprintfReading, if_neg hc]

theorem sprintfReading_long (m k : ℕ) (l : List Char) :
    (List.replicate k 'l' ++ l).foldl sprintfReading (.long m) =
      l.foldl sprintfReading (.long (m + k)) := by
  induction k generalizing m with
  | zero => rfl
  | succ k ih =>
      rw [List.replicate_succ, List.cons_append, List.foldl_cons]
      refine (ih (m + 1)).trans ?_
      rw [Nat.add_right_comm, Nat.add_assoc]

/-- After a percent sign and the letters `l` the next character ends the directive. -/
theorem sprintfReading_directive (k : ℕ) (hc : c ≠ 'l') (hk : k = 0 → c ≠ '%') (l : List Char) :
    ('%' :: (List.replicate k 'l' ++ c :: l)).foldl sprintfReading .text =
      l.foldl sprintfReading .text := by
  rw [List.foldl_cons]
  cases k with
  | zero =>
      rw [List.replicate_zero, List.nil_append, List.foldl_cons]
      show l.foldl sprintfReading (sprintfReading .percent c) = _
      rw [sprintfReading, if_neg (hk rfl), if_neg hc]
  | succ k =>
      rw [List.replicate_succ, List.cons_append, List.foldl_cons]
      refine (sprintfReading_long 1 k _).trans ?_
      rw [List.foldl_cons, sprintfReading, if_neg hc]

theorem sprintfReading_open {k : ℕ} (hk : k ≠ 0) :
    ('%' :: List.replicate k 'l').foldl sprintfReading .text = .long k := by
  obtain ⟨k, rfl⟩ := Nat.exists_eq_succ_of_ne_zero hk
  rw [List.foldl_cons, List.replicate_succ, List.foldl_cons]
  have hlong := sprintfReading_long 1 k []
  rw [List.append_nil] at hlong
  refine hlong.trans ?_
  rw [List.foldl_nil, Nat.add_comm]

theorem sprintfLoop_past (hn : 0 < n) (h : fmt.chars.length < s.index) :
    sprintfLoop fmt va n s = .error .pastTerminator := by
  obtain ⟨n, rfl⟩ := Nat.exists_eq_succ_of_ne_zero hn.ne'
  rw [sprintfLoop, CString.charAt_past h]
  rfl

variable (va) in
/-- The loop of `sprintf` ends, and past the terminator exactly if the format ends with a percent
sign and letters `l`. -/
theorem sprintfLoop_ends (n : ℕ) (h : Before fmt s.index l) (hn : l.length + 2 ≤ n) :
    ((∀ k, l.foldl sprintfReading .text ≠ .long k) ∧ ∃ o, sprintfLoop fmt va n s = .ok o) ∨
      (∃ k, l.foldl sprintfReading .text = .long k) ∧
        sprintfLoop fmt va n s = .error .pastTerminator := by
  induction n generalizing l s with
  | zero => omega
  | succ n ih =>
      cases l with
      | nil =>
          refine Or.inl ⟨by simp, s.out, ?_⟩
          simp only [sprintfLoop, h.charAt_nil, ok_bind, if_true]
      | cons c l =>
          obtain ⟨hat, hne, hnext⟩ := h.cons
          simp only [List.length_cons] at hn
          by_cases hc : c = '%'
          · subst hc
            have hstep : sprintfLoop fmt va (n + 1) s = (do
                let c ← fmt.charAt (s.index + 1)
                if c = nul then .ok s.out
                else if c = '%' then sprintfLoop fmt va n ⟨s.index + 2, s.args, s.out.put '%'⟩
                else do
                  let (m, i) ← modifiersLoop fmt (fmt.chars.length + 2) (s.index + 1) 0
                  let s ← sprintfSwitch fmt va m { s with index := i }
                  sprintfLoop fmt va n { s with index := s.index + 1 }) := by
              simp only [sprintfLoop, hat, ok_bind, if_neg hne, ne_eq, not_true_eq_false, if_false]
            rw [hstep]
            cases l with
            | nil =>
                refine Or.inl ⟨by simp [sprintfReading], s.out, ?_⟩
                simp only [hnext.charAt_nil, ok_bind, if_true]
            | cons c l =>
                obtain ⟨hat₁, hne₁, hnext₁⟩ := hnext.cons
                simp only [hat₁, ok_bind, if_neg hne₁]
                simp only [List.length_cons] at hn
                by_cases hc₁ : c = '%'
                · subst hc₁
                  have hread : ('%' :: '%' :: l).foldl sprintfReading .text =
                      l.foldl sprintfReading .text := rfl
                  rw [if_pos rfl, hread]
                  exact ih (s := ⟨s.index + 2, s.args, s.out.put '%'⟩) hnext₁ (by omega)
                · rw [if_neg hc₁]
                  have hlen := hnext.length
                  obtain ⟨k, l', hsplit, hhead, hbefore, hmodifiers⟩ := modifiersLoop_eq
                    (fmt.chars.length + 2) 0 hnext (by omega)
                  rw [hmodifiers, ok_bind, hsplit]
                  cases l' with
                  | nil =>
                      rw [List.append_nil] at hsplit ⊢
                      have hk : k ≠ 0 := by
                        rintro rfl
                        cases hsplit
                      refine Or.inr ⟨⟨k, sprintfReading_open hk⟩, ?_⟩
                      have hend := hbefore.nil
                      dsimp only
                      rw [sprintfSwitch_nil (s := { s with index := s.index + 1 + k }) hbefore, ok_bind]
                      refine sprintfLoop_past (by omega) ?_
                      show fmt.chars.length < s.index + 1 + k + 1
                      omega
                  | cons d l' =>
                      obtain ⟨s', hswitch, hindex⟩ := sprintfSwitch_cons va
                        (s := { s with index := s.index + 1 + k }) hbefore (0 + k)
                      have hlen' := congrArg List.length hsplit
                      simp only [List.length_cons, List.length_append, List.length_replicate] at hlen'
                      have hd : k = 0 → d ≠ '%' := by
                        rintro rfl
                        cases hsplit
                        exact hc₁
                      rw [sprintfReading_directive k (hhead d rfl) hd]
                      dsimp only
                      rw [hswitch, ok_bind]
                      obtain ⟨-, -, hrest⟩ := hbefore.cons
                      exact ih (s := { s' with index := s'.index + 1 }) (hindex ▸ hrest) (by omega)
          · have hrest := ih (s := ⟨s.index + 1, s.args, s.out.put c⟩) hnext (by omega)
            rw [sprintfReading_plain hc]
            simp only [sprintfLoop, hat, ok_bind, if_neg hne, ne_eq, hc, not_false_eq_true, if_true]
            exact hrest

/-- `printf` examines no byte behind the terminator exactly if its format does not end right
after a percent sign that starts a directive, and `sprintf` if it does not end with letters `l`
after one. Then they return. -/
theorem format_scan_in_bounds_iff (fmt : CString) (va : VarArgs) :
    (printf fmt va ≠ .error .pastTerminator ↔
      fmt.chars.foldl printfReading .text ≠ .percent) ∧
    (sprintf fmt va ≠ .error .pastTerminator ↔
      ∀ k, fmt.chars.foldl sprintfReading .text ≠ .long k) ∧
    (printf fmt va ≠ .error .pastTerminator → ∃ o, printf fmt va = .ok o) ∧
    (sprintf fmt va ≠ .error .pastTerminator → ∃ o, sprintf fmt va = .ok o) := by
  have hprintf := printfLoop_ends va (s := ⟨0, 0, ⟨[], 0⟩⟩) (fmt.chars.length + 2)
    (Before.start fmt) le_rfl
  have hsprintf := sprintfLoop_ends va (s := ⟨0, 0, ⟨[], 0⟩⟩) (fmt.chars.length + 2)
    (Before.start fmt) le_rfl
  rw [← printf] at hprintf
  rw [← sprintf] at hsprintf
  refine ⟨?_, ?_, ?_, ?_⟩
  · rcases hprintf with ⟨hread, o, heq⟩ | ⟨hread, heq⟩ <;> simp [hread, heq]
  · rcases hsprintf with ⟨hread, o, heq⟩ | ⟨⟨k, hread⟩, heq⟩
    · simp [hread, heq]
    · simp [hread, heq]
  · rcases hprintf with ⟨hread, o, heq⟩ | ⟨hread, heq⟩ <;> simp [heq]
  · rcases hsprintf with ⟨hread, o, heq⟩ | ⟨hread, heq⟩ <;> simp [heq]

/-- The formats `"%"` and `"%l"`. -/
theorem incomplete_directive_past_terminator :
    printf ⟨['%'], by decide⟩ (.const 0) = .error .pastTerminator ∧
      sprintf ⟨['%', 'l'], by decide⟩ (.const 0) = .error .pastTerminator :=
  ⟨rfl, rfl⟩

end Bounds

end SoKernel.Userland.Format
