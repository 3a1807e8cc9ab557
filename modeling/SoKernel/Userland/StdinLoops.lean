import Mathlib.Data.List.TakeWhile
import SoKernel.Userland.FormatPieces

/-!
# The programs that read their standard input to its end

Embedding of `cat_process_entry`, `wc_process_entry` and `filter_process_entry`. Each reads into a
buffer of its own as long as it gets characters, and handles what one read has brought before the
next. `wc` and `filter` do not notice how the input is cut into reads. `cat` prints its buffer as a
string, and what a read has brought behind a null character is lost.
-/

namespace SoKernel.Userland

open Format

section Model

/-- The local variables of an entry, with what it has printed. -/
structure StdinLocals where
  lineCount : ℤ
  printed : List Char
  deriving DecidableEq

/-- The loop over the reads of an entry: the size of a read, what is done with the characters of
one read, and what is done after the loop. -/
structure StdinLoop where
  size : ℕ
  body : List UInt8 → StdinLocals → StdinLocals
  after : StdinLocals → StdinLocals

/-- A byte of a buffer as a character. -/
def charOf (b : UInt8) : Char := Char.ofNat b.toNat

theorem charOf_eq_nul {b : UInt8} (h : charOf b = nul) : b = 0 := by
  have hall : ∀ n : Fin 256, Char.ofNat n = nul → n = 0 := by decide +kernel
  have hzero := congrArg Fin.val (hall ⟨b.toNat, b.toNat_lt⟩ h)
  exact UInt8.toNat.inj hzero

/-- What `printf` emits. -/
def emitted (fmt : CString) (va : VarArgs) : List Char :=
  match printf fmt va with
  | .ok out => out.chars
  | .error _ => []

/-- The word that passes an `int`. -/
def intWord (n : ℤ) : UInt64 := UInt64.ofNat (unsigned 64 n)

/-- The string that starts with the buffer, when `'\0'` stands behind its last byte. -/
def bufferString (buffer : List UInt8) : CString where
  chars := (buffer.takeWhile fun b => b ≠ 0).map charOf
  noNul := by
    intro h
    obtain ⟨b, hb, hnul⟩ := List.mem_map.mp h
    have hne : b ≠ 0 := by simpa using List.mem_takeWhile_imp hb
    exact hne (charOf_eq_nul hnul)

/-- `printf("%s", buffer)`. -/
def catBody (buffer : List UInt8) (s : StdinLocals) : StdinLocals :=
  { s with
    printed := s.printed ++ emitted (ofPieces [.string]) ⟨fun _ => 0, fun _ => bufferString buffer⟩ }

def catProcessEntry : StdinLoop := ⟨255, catBody, id⟩

/-- The inner loop of `wc_process_entry`. -/
def wcBody (buffer : List UInt8) (s : StdinLocals) : StdinLocals :=
  buffer.foldl (fun s b =>
    if charOf b = '\n' then { s with lineCount := signed 32 (s.lineCount + 1) } else s) s

/-- `printf("%d\n", line_count)`. -/
def wcAfter (s : StdinLocals) : StdinLocals :=
  { s with
    printed := s.printed ++
      emitted (ofPieces [.int, .char '\n' (by decide)]) (.const (intWord s.lineCount)) }

def wcProcessEntry : StdinLoop := ⟨256, wcBody, wcAfter⟩

/-- The condition of `filter_process_entry` on a character that it prints. -/
def passes (c : Char) : Bool :=
  c ≠ 'a' && c ≠ 'e' && c ≠ 'i' && c ≠ 'o' && c ≠ 'u' && c ≠ 'A' && c ≠ 'E' && c ≠ 'I' &&
    c ≠ 'O' && c ≠ 'U'

/-- The inner loop of `filter_process_entry`, with `printf("%c", c)`. -/
def filterBody (buffer : List UInt8) (s : StdinLocals) : StdinLocals :=
  buffer.foldl (fun s b =>
    if passes (charOf b) then
      { s with
        printed := s.printed ++
          emitted (ofPieces [.chr]) (.const (intWord (signed 8 b.toNat))) }
    else s) s

def filterProcessEntry : StdinLoop := ⟨256, filterBody, id⟩

/-- The local variables at the start. -/
def stdinStart : StdinLocals := ⟨0, []⟩

/-- The local variables after the reads that have brought the chunks. -/
def StdinLoop.reads (L : StdinLoop) (chunks : List (List UInt8)) : StdinLocals :=
  chunks.foldl (fun s chunk => L.body chunk s) stdinStart

end Model

section Printed

theorem emitted_pieces (ps : List Piece) (va : VarArgs) :
    emitted (ofPieces ps) va = (withWords va 0 ps).flatMap fun x => x.1.printed va x.2 := by
  rw [emitted, printf_pieces]
  simp [Output.puts_eq]

theorem catBody_eq (buffer : List UInt8) (s : StdinLocals) :
    catBody buffer s =
      { s with printed := s.printed ++ (buffer.takeWhile fun b => b ≠ 0).map charOf } := by
  rw [catBody, emitted_pieces]
  simp [withWords, Piece.printed, bufferString]

theorem intWord_toNat (n : ℤ) : ((intWord n).toNat : ℤ) = n % 2 ^ 64 := by
  rw [intWord, unsigned, UInt64.toNat_ofNat']
  omega

/-- The word of an `int` read as an `int`. -/
theorem signed_intWord {n : ℤ} (hle : -(2 ^ 31) ≤ n) (hlt : n < 2 ^ 31) :
    signed 32 (intWord n).toNat = n := by
  have hsame : n % 2 ^ 64 % ((2 ^ 32 : ℕ) : ℤ) = n % ((2 ^ 32 : ℕ) : ℤ) :=
    Int.emod_emod_of_dvd n (by norm_num)
  calc signed 32 (intWord n).toNat
      = Int.bmod (n % 2 ^ 64) (2 ^ 32) := by rw [intWord_toNat, signed]
    _ = Int.bmod n (2 ^ 32) := by rw [← Int.emod_bmod, hsame, Int.emod_bmod]
    _ = n := signed_of_range hle hlt

/-- A character passed as an `int` is printed as it was. -/
theorem unsigned_intWord (b : UInt8) : unsigned 8 (intWord (signed 8 b.toNat)).toNat = b.toNat := by
  have hsmall : (b.toNat : ℤ) < 256 := by exact_mod_cast b.toNat_lt
  have hlow : signed 8 b.toNat % 2 ^ 64 % 2 ^ 8 = (b.toNat : ℤ) := by
    rw [Int.emod_emod_of_dvd _ (by norm_num), signed]
    exact Int.bmod_emod.trans (Int.emod_eq_of_lt (by omega) hsmall)
  rw [unsigned, intWord_toNat, hlow, Int.toNat_natCast]

/-- A number that is an `int` is printed with its digits. -/
theorem intText_of_lt {n : ℕ} (h : n < 2 ^ 31) : intText (signed 32 n) = appendUnsignedToStr n := by
  have hlt : (n : ℤ) < 2 ^ 31 := by exact_mod_cast h
  have hself : signed 32 n = n := signed_of_range (by omega) hlt
  rw [hself, intText, if_neg (by omega), appendSignedToStr, if_neg (by omega), Int.toNat_natCast]

theorem filterBody_eq (buffer : List UInt8) (s : StdinLocals) :
    filterBody buffer s =
      { s with printed := s.printed ++ (buffer.map charOf).filter passes } := by
  induction buffer generalizing s with
  | nil => simp [filterBody]
  | cons b buffer ih =>
      have hchr : emitted (ofPieces [.chr]) (.const (intWord (signed 8 b.toNat))) = [charOf b] := by
        rw [emitted_pieces]
        simp only [withWords, Piece.printed, VarArgs.const, unsigned_intWord, charOf,
          List.flatMap_cons, List.flatMap_nil, List.append_nil]
      simp only [filterBody] at ih ⊢
      rw [List.foldl_cons, ih, hchr]
      cases hpass : passes (charOf b) <;> simp [hpass]

theorem wcBody_eq (buffer : List UInt8) (n : ℕ) (printed : List Char) :
    wcBody buffer ⟨signed 32 n, printed⟩ =
      ⟨signed 32 (n + (buffer.map charOf).count '\n' : ℕ), printed⟩ := by
  induction buffer generalizing n with
  | nil => simp [wcBody]
  | cons b buffer ih =>
      simp only [wcBody] at ih ⊢
      rw [List.foldl_cons, List.map_cons]
      by_cases hline : charOf b = '\n'
      · have hnext : signed 32 (signed 32 n + 1) = signed 32 (n + 1 : ℕ) := by
          rw [Nat.cast_add, Nat.cast_one]
          exact Int.bmod_add_bmod
        rw [if_pos hline, hnext, ih, hline, List.count_cons_self, Nat.add_right_comm, Nat.add_assoc]
      · rw [if_neg hline, ih, List.count_cons_of_ne hline]

end Printed

section Reads

variable {chunks : List (List UInt8)}

theorem StdinLoop.reads_append (L : StdinLoop) (chunks : List (List UInt8)) (chunk : List UInt8) :
    L.reads (chunks ++ [chunk]) = L.body chunk (L.reads chunks) := by
  rw [reads, List.foldl_append]
  rfl

/-- What `cat` prints of each read is what stands before the first null character. -/
theorem cat_reads (chunks : List (List UInt8)) :
    catProcessEntry.reads chunks =
      ⟨0, (chunks.flatMap fun chunk => chunk.takeWhile fun b => b ≠ 0).map charOf⟩ := by
  induction chunks using List.reverseRecOn with
  | nil => rfl
  | append_singleton chunks chunk ih =>
      rw [StdinLoop.reads_append, ih]
      exact (catBody_eq chunk _).trans (by simp)

theorem filter_reads (chunks : List (List UInt8)) :
    filterProcessEntry.reads chunks = ⟨0, (chunks.flatten.map charOf).filter passes⟩ := by
  induction chunks using List.reverseRecOn with
  | nil => rfl
  | append_singleton chunks chunk ih =>
      rw [StdinLoop.reads_append, ih]
      exact (filterBody_eq chunk _).trans (by simp)

theorem wc_reads (chunks : List (List UInt8)) :
    wcProcessEntry.reads chunks =
      ⟨signed 32 ((chunks.flatten.map charOf).count '\n'), []⟩ := by
  induction chunks using List.reverseRecOn with
  | nil => rfl
  | append_singleton chunks chunk ih =>
      rw [StdinLoop.reads_append, ih]
      refine (wcBody_eq chunk _ _).trans ?_
      rw [List.flatten_append, List.flatten_singleton, List.map_append, List.count_append]

theorem cat_reads_sublist (chunks : List (List UInt8)) :
    (chunks.flatMap fun chunk => chunk.takeWhile fun b => b ≠ 0).Sublist chunks.flatten := by
  induction chunks with
  | nil => exact List.Sublist.refl _
  | cons chunk chunks ih => exact (List.takeWhile_sublist _).append ih

/-- `cat` loses something exactly if there is a null character in its input. -/
theorem cat_reads_whole_iff (chunks : List (List UInt8)) :
    chunks.flatMap (fun chunk => chunk.takeWhile fun b => b ≠ 0) = chunks.flatten ↔
      0 ∉ chunks.flatten := by
  induction chunks with
  | nil => simp
  | cons chunk chunks ih =>
      have hchunk := (List.takeWhile_sublist (l := chunk) fun b : UInt8 => b ≠ 0).length_le
      have hself : (chunk.takeWhile fun b => b ≠ 0) = chunk ↔ 0 ∉ chunk := by
        rw [List.takeWhile_eq_self_iff]
        simp only [decide_eq_true_eq]
        exact ⟨fun h hzero => h 0 hzero rfl, fun h b hb hzero => h (hzero ▸ hb)⟩
      rw [List.flatMap_cons, List.flatten_cons, List.mem_append, not_or]
      refine Iff.trans ?_ (and_congr hself ih)
      constructor
      · intro h
        have hlength := congrArg List.length h
        have hrest := (cat_reads_sublist chunks).length_le
        rw [List.length_append, List.length_append] at hlength
        exact List.append_inj h (by omega)
      · rintro ⟨hfirst, hrest⟩
        rw [hfirst, hrest]

theorem wcAfter_eq {n : ℤ} (hle : -(2 ^ 31) ≤ n) (hlt : n < 2 ^ 31) (printed : List Char) :
    wcAfter ⟨n, printed⟩ = ⟨n, printed ++ (intText n ++ ['\n'])⟩ := by
  rw [wcAfter, emitted_pieces]
  simp [withWords, Piece.printed, VarArgs.const, signed_intWord hle hlt]

/-- What `wc` prints at the end. -/
theorem wc_after_reads (chunks : List (List UInt8)) :
    (wcProcessEntry.after (wcProcessEntry.reads chunks)).printed =
      intText (signed 32 ((chunks.flatten.map charOf).count '\n')) ++ ['\n'] := by
  have hafter : wcProcessEntry.after = wcAfter := rfl
  obtain ⟨hle, hlt⟩ := int_range ((chunks.flatten.map charOf).count '\n')
  rw [hafter, wc_reads, wcAfter_eq hle hlt, List.nil_append]

end Reads

end SoKernel.Userland
