import SoKernel.Userland.Tokens

/-!
# The name of the user

Embedding of `readLine` of `shell.c` and of `setUserCmd` of `commands_builtin.c`. The line is edited
in a buffer with room for `MAX_USER_LENGTH` characters and the terminator, but `strncpy` copies one
character less than it is told, since it counts the terminator.
-/

namespace SoKernel.Userland

open Function (update)
open Format (nul CString)

section Model

def maxUserLength : ℕ := 10

def ctrlD : Char := '\x04'

def backspace : Char := '\x08'

/-- The loop of `readLine` on the characters that `getchar` returns: the buffer with its terminator,
and what is printed. `none` while the line is not ended. -/
def readLineLoop (maxLen : ℕ) :
    List Char → ℕ → (ℕ → Char) → List Char → Option ((ℕ → Char) × List Char)
  | [], _, _, _ => none
  | c :: input, len, buf, printed =>
      if c = ctrlD then
        if len = 0 then some (update buf 0 nul, printed ++ ['\n'])
        else readLineLoop maxLen input len buf printed
      else if c = '\n' then some (update buf len nul, printed ++ ['\n'])
      else if c = backspace then
        if 0 < len then
          readLineLoop maxLen input (len - 1) buf (printed ++ [backspace, ' ', backspace])
        else readLineLoop maxLen input len buf printed
      else if len < maxLen - 1 then
        readLineLoop maxLen input (len + 1) (update buf len c) (printed ++ [c])
      else readLineLoop maxLen input len buf printed

def readLine (buf : ℕ → Char) (maxLen : ℕ) (input : List Char) :
    Option ((ℕ → Char) × List Char) :=
  readLineLoop maxLen input 0 buf []

/-- The loop of `strncpy` at an index, with the number of characters that it may still copy. -/
def strncpyLoop (src : ℕ → Char) : ℕ → ℕ → (ℕ → Char) → ℕ → Char
  | 0, i, dest => update dest i nul
  | left + 1, i, dest =>
      if src i = nul then update dest i nul
      else strncpyLoop src left (i + 1) (update dest i (src i))

/-- `strncpy`, where `n - 1` is computed on `size_t`. -/
def strncpy (dest src : ℕ → Char) (n : ℕ) : ℕ → Char :=
  strncpyLoop src ((n + 2 ^ 64 - 1) % 2 ^ 64) 0 dest

/-- What `%s` prints of a string in an array of the given size. -/
def textFrom (input : ℕ → Char) : ℕ → ℕ → List Char
  | 0, _ => []
  | n + 1, i => if input i = nul then [] else input i :: textFrom input n (i + 1)

/-- What `setUserCmd` returns, the array `shellUser` behind it and what is printed. -/
structure UserSet where
  result : ℤ
  shellUser : ℕ → Char
  printed : List Char

/-- `setUserCmd` after `readLine`, with what that printed. -/
def storeUser (newName shellUser : ℕ → Char) (echoed : List Char) : UserSet :=
  let shellUser := strncpy shellUser newName maxUserLength
  { result := ok
    shellUser := shellUser
    printed := "Ingrese el nuevo nombre de usuario: ".toList ++ echoed ++
      "Nombre de usuario actualizado a: ".toList ++ textFrom shellUser (maxUserLength + 1) 0 ++
      ['\n'] }

/-- `setUserCmd`, with the contents of the array `newName` before its first write. -/
def setUserCmd (newName shellUser : ℕ → Char) (input : List Char) : Option UserSet :=
  (readLine newName (maxUserLength + 1) input).map fun o => storeUser o.1 shellUser o.2

/-- The line that is left of the typed characters when a line has room for `limit` of them. -/
def edited (limit : ℕ) : List Char → List Char → List Char
  | line, [] => line
  | line, c :: typed =>
      if c = ctrlD then if line = [] then [] else edited limit line typed
      else if c = '\n' then line
      else if c = backspace then edited limit line.dropLast typed
      else if line.length < limit then edited limit (line ++ [c]) typed
      else edited limit line typed

/-- The buffer starts with the characters of the line. -/
def Stored (buf : ℕ → Char) (l : List Char) : Prop := ∀ i c, l[i]? = some c → buf i = c

end Model

variable {i n limit maxLen : ℕ} {buf src dest : ℕ → Char} {l line typed printed : List Char}
  {c : Char}

section Buffer

theorem Stored.nil : Stored buf [] := fun i c h => by simp at h

theorem Stored.push (h : Stored buf l) (c : Char) :
    Stored (update buf l.length c) (l ++ [c]) := by
  intro i d hd
  rcases Nat.lt_trichotomy i l.length with hi | hi | hi
  · rw [List.getElem?_append_left hi] at hd
    rw [Function.update_of_ne hi.ne]
    exact h i d hd
  · subst hi
    rw [List.getElem?_concat_length] at hd
    rw [Function.update_self]
    exact Option.some.inj hd
  · rw [List.getElem?_eq_none (by simpa using hi)] at hd
    exact absurd hd (by simp)

theorem Stored.pop (h : Stored buf l) : Stored buf l.dropLast := by
  intro i c hc
  refine h i c ?_
  rw [List.getElem?_dropLast] at hc
  split at hc
  · exact hc
  · cases hc

theorem isString_terminated (hnul : nul ∉ l)
    (h : ∀ j c, l[j]? = some c → buf (i + j) = c) :
    IsString (update buf (i + l.length) nul) i l := by
  induction l generalizing i with
  | nil => exact Function.update_self ..
  | cons c l ih =>
      have hc : c ≠ nul := fun e => hnul (e ▸ List.mem_cons_self)
      refine ⟨?_, hc, ?_⟩
      · rw [Function.update_of_ne (by simp)]
        exact h 0 c rfl
      · have hi : i + (c :: l).length = i + 1 + l.length := by
          rw [List.length_cons]
          omega
        rw [hi]
        refine ih (fun hl => hnul (List.mem_cons_of_mem c hl)) fun j d hd => ?_
        have hj := h (j + 1) d hd
        rwa [← Nat.add_assoc, Nat.add_right_comm] at hj

theorem Stored.terminated (h : Stored buf l) (hnul : nul ∉ l) :
    IsString (update buf l.length nul) 0 l := by
  have hs := isString_terminated hnul fun j c hj => by
    rw [Nat.zero_add]
    exact h j c hj
  rwa [Nat.zero_add] at hs

end Buffer

section ReadLine

theorem length_push (line : List Char) (c : Char) : (line ++ [c]).length = line.length + 1 := by
  rw [List.length_append, List.length_singleton]

theorem nul_notMem_dropLast (hnul : nul ∉ line) : nul ∉ line.dropLast :=
  fun h => hnul (List.mem_of_mem_dropLast h)

theorem nul_notMem_push (hnul : nul ∉ line) (hc : c ≠ nul) : nul ∉ line ++ [c] := by
  intro h
  cases List.mem_append.1 h with
  | inl h => exact hnul h
  | inr h => exact hc (List.mem_singleton.1 h).symm

/-- `readLine` leaves the edited line in its buffer. The buffer always starts with the line that is
being edited, which is as long as the index says. -/
theorem readLineLoop_edited (h : Stored buf line) (hnul : nul ∉ line) (htyped : nul ∉ typed) :
    ∃ o, readLineLoop maxLen (typed ++ ['\n']) line.length buf printed = some o ∧
      IsString o.1 0 (edited (maxLen - 1) line typed) := by
  induction typed generalizing buf line printed with
  | nil => exact ⟨_, rfl, h.terminated hnul⟩
  | cons c typed ih =>
      have hc : c ≠ nul := fun e => htyped (e ▸ List.mem_cons_self)
      have htyped : nul ∉ typed := fun ht => htyped (List.mem_cons_of_mem c ht)
      rw [List.cons_append, readLineLoop, edited]
      by_cases hd : c = ctrlD
      · rw [if_pos hd, if_pos hd]
        cases line with
        | nil => exact ⟨_, rfl, Stored.nil.terminated List.not_mem_nil⟩
        | cons d line => exact ih h hnul htyped
      rw [if_neg hd, if_neg hd]
      by_cases hn : c = '\n'
      · rw [if_pos hn, if_pos hn]
        exact ⟨_, rfl, h.terminated hnul⟩
      rw [if_neg hn, if_neg hn]
      by_cases hb : c = backspace
      · rw [if_pos hb, if_pos hb]
        cases line with
        | nil => exact ih Stored.nil List.not_mem_nil htyped
        | cons d line =>
            have hpos : 0 < (d :: line).length := Nat.succ_pos line.length
            rw [if_pos hpos, ← List.length_dropLast]
            exact ih h.pop (nul_notMem_dropLast hnul) htyped
      rw [if_neg hb, if_neg hb]
      by_cases hl : line.length < maxLen - 1
      · rw [if_pos hl, if_pos hl, ← length_push line c]
        exact ih (h.push c) (nul_notMem_push hnul hc) htyped
      · rw [if_neg hl, if_neg hl]
        exact ih h hnul htyped

theorem readLine_edited (buf : ℕ → Char) (maxLen : ℕ) (typed : CString) :
    ∃ o, readLine buf maxLen (typed.chars ++ ['\n']) = some o ∧
      IsString o.1 0 (edited (maxLen - 1) [] typed.chars) :=
  readLineLoop_edited Stored.nil List.not_mem_nil typed.noNul

end ReadLine

section Copy

theorem strncpyLoop_below {j : ℕ} (hj : j < i) : strncpyLoop src n i dest j = dest j := by
  induction n generalizing i dest with
  | zero => exact Function.update_of_ne hj.ne nul dest
  | succ n ih =>
      rw [strncpyLoop]
      split
      · exact Function.update_of_ne hj.ne nul dest
      · rw [ih (Nat.lt_succ_of_lt hj)]
        exact Function.update_of_ne hj.ne (src i) dest

/-- The loop copies the string up to the number of characters that it has left. -/
theorem strncpyLoop_take (h : IsString src i line) :
    IsString (strncpyLoop src n i dest) i (line.take n) := by
  induction n generalizing i line dest with
  | zero => exact Function.update_self i nul dest
  | succ n ih =>
      cases line with
      | nil =>
          have hc : src i = nul := h
          rw [strncpyLoop, if_pos hc]
          exact Function.update_self i nul dest
      | cons c line =>
          have hc : src i ≠ nul := h.1 ▸ h.2.1
          rw [strncpyLoop, if_neg hc]
          refine ⟨?_, h.2.1, ih h.2.2⟩
          rw [strncpyLoop_below (Nat.lt_succ_self i), ← h.1]
          exact Function.update_self i (src i) dest

/-- `%s` prints a string that fits its array. -/
theorem textFrom_eq (h : IsString buf i line) (hlen : line.length < n) :
    textFrom buf n i = line := by
  induction line generalizing i n with
  | nil =>
      cases n with
      | zero => cases hlen
      | succ n => exact if_pos h
  | cons c line ih =>
      cases n with
      | zero => cases hlen
      | succ n =>
          rw [textFrom, if_neg (h.1 ▸ h.2.1), h.1, ih h.2.2 (Nat.lt_of_succ_lt_succ hlen)]

end Copy

section Main

/-- `setUserCmd` always succeeds. The first nine characters of the line are stored, and they are the
name that it reports. -/
theorem setUserCmd_take (newName shellUser : ℕ → Char) (typed : CString) :
    ∃ o, setUserCmd newName shellUser (typed.chars ++ ['\n']) = some o ∧
      IsString o.shellUser 0 ((edited maxUserLength [] typed.chars).take (maxUserLength - 1)) ∧
      o.result = ok ∧ ∃ echoed, o.printed =
        "Ingrese el nuevo nombre de usuario: ".toList ++ echoed ++
          "Nombre de usuario actualizado a: ".toList ++
          (edited maxUserLength [] typed.chars).take (maxUserLength - 1) ++ ['\n'] := by
  obtain ⟨o, ho, hs⟩ := readLine_edited newName (maxUserLength + 1) typed
  have hstored : IsString (strncpy shellUser o.1 maxUserLength) 0
      ((edited maxUserLength [] typed.chars).take (maxUserLength - 1)) := strncpyLoop_take hs
  have hlen := List.length_take_le (maxUserLength - 1) (edited maxUserLength [] typed.chars)
  have htext := textFrom_eq hstored (Nat.lt_succ_of_le (hlen.trans (Nat.sub_le maxUserLength 1)))
  refine ⟨storeUser o.1 shellUser o.2, ?_, hstored, rfl, o.2, ?_⟩
  · rw [setUserCmd, ho, Option.map_some]
  · rw [storeUser]
    exact congrArg (_ ++ · ++ ['\n']) htext

/-- The name that was typed is kept exactly when it has fewer than `MAX_USER_LENGTH` characters. -/
theorem set_user_keeps_name_iff (newName shellUser : ℕ → Char) (typed : CString) :
    ∃ o, setUserCmd newName shellUser (typed.chars ++ ['\n']) = some o ∧
      (IsString o.shellUser 0 ((edited maxUserLength [] typed.chars).take maxUserLength) ↔
        (edited maxUserLength [] typed.chars).length < maxUserLength) := by
  obtain ⟨o, ho, hs, -⟩ := setUserCmd_take newName shellUser typed
  generalize edited maxUserLength [] typed.chars = line at hs ⊢
  refine ⟨o, ho, fun h => ?_, fun h => ?_⟩
  · have hlen := congrArg List.length (hs.unique h)
    rw [List.length_take, List.length_take] at hlen
    have hpos : 0 < maxUserLength := by decide
    omega
  · rw [List.take_of_length_le h.le]
    rwa [List.take_of_length_le (Nat.le_sub_one_of_lt h)] at hs

/-- A name of ten letters loses the last one. -/
theorem set_user_drops_tenth :
    ∃ o, setUserCmd (fun _ => nul) (fun _ => nul) ("abcdefghij".toList ++ ['\n']) = some o ∧
      edited maxUserLength [] "abcdefghij".toList = "abcdefghij".toList ∧
      IsString o.shellUser 0 "abcdefghi".toList ∧
      ¬ IsString o.shellUser 0 ("abcdefghij".toList.take maxUserLength) := by
  obtain ⟨o, ho, hs, -⟩ :=
    setUserCmd_take (fun _ => nul) (fun _ => nul) ⟨"abcdefghij".toList, by decide⟩
  refine ⟨o, ho, by decide, hs, fun h => ?_⟩
  exact absurd (hs.unique h) (by decide)

end Main

end SoKernel.Userland
