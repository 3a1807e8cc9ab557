import Mathlib.Algebra.Order.BigOperators.Group.List
import Mathlib.Data.UInt
import SoKernel.Userland.Format

/-!
# The two formatters on complete directives

For a format of ordinary characters and known directives the output of `printf` and of `sprintf`
is that of one directive after the other. They differ in a doubled percent sign, and in the sign
that `printf` emits alone for the least `int`.
-/

namespace SoKernel.Userland.Format

section Model

/-- A part of a format: an ordinary character, or `%s`, `%c`, `%d`, `%lld`, `%llu`, `%%`. -/
inductive Piece where
  | char (c : Char) (ordinary : c ≠ '%' ∧ c ≠ nul)
  | string
  | chr
  | int
  | longLong
  | unsignedLongLong
  | percent

namespace Piece

def text : Piece → List Char
  | char c _ => [c]
  | string => ['%', 's']
  | chr => ['%', 'c']
  | int => ['%', 'd']
  | longLong => ['%', 'l', 'l', 'd']
  | unsignedLongLong => ['%', 'l', 'l', 'u']
  | percent => ['%', '%']

/-- The number of words that a piece reads. -/
def words : Piece → ℕ
  | char _ _ | percent => 0
  | _ => 1

/-- What `printf` emits for a piece, when `w` is the next word. -/
def printed (va : VarArgs) (w : UInt64) : Piece → List Char
  | char c _ => [c]
  | string => (va.string w).chars
  | chr => [Char.ofNat (unsigned 8 w.toNat)]
  | int => intText (signed 32 w.toNat)
  | longLong => appendSignedToStr (signed 64 w.toNat)
  | unsignedLongLong => appendUnsignedToStr w.toNat
  | percent => ['%', '%']

/-- What `sprintf` stores for a piece. -/
def stored (va : VarArgs) (w : UInt64) : Piece → List Char
  | string => if w = 0 then [] else (va.string w).chars
  | int => appendSignedToStr (signed 32 w.toNat)
  | percent => ['%']
  | p => p.printed va w

end Piece

/-- Each piece with the next word when its turn comes. -/
def withWords (va : VarArgs) : ℕ → List Piece → List (Piece × UInt64)
  | _, [] => []
  | a, p :: ps => (p, va.word a) :: withWords va (a + p.words) ps

theorem nul_not_mem_text (ps : List Piece) : nul ∉ ps.flatMap Piece.text := by
  rw [List.mem_flatMap]
  rintro ⟨p, -, hp⟩
  cases p with
  | char c ordinary => exact ordinary.2 (List.mem_singleton.mp hp).symm
  | _ => exact absurd hp (by decide)

/-- The format that consists of the pieces. -/
def ofPieces (ps : List Piece) : CString := ⟨ps.flatMap Piece.text, nul_not_mem_text ps⟩

end Model

variable {fmt : CString} {va : VarArgs} {n : ℕ} {l : List Char} {s : Cursor} {p : Piece}
variable {ps : List Piece}

section Loops

theorem Output.puts_puts (o : Output) (cs ds : List Char) : (o.puts cs).puts ds = o.puts (cs ++ ds) :=
  (List.foldl_append ..).symm

variable (va) in
/-- One turn of the loop of `printf` at a percent sign. -/
theorem printfLoop_percent (h : Before fmt s.index ('%' :: l)) :
    Before fmt (s.index + 1) l ∧
      printfLoop fmt va (n + 1) s = (do
        let s ← printfSwitch fmt va { s with index := s.index + 1 }
        printfLoop fmt va n { s with index := s.index + 1 }) := by
  obtain ⟨hat, hne, hnext⟩ := h.cons
  refine ⟨hnext, ?_⟩
  simp only [printfLoop, hat, ok_bind, if_neg hne, if_true]

variable (va) in
/-- One turn of the loop of `printf` takes one piece. -/
theorem printfLoop_piece (h : Before fmt s.index (p.text ++ l)) :
    Before fmt (s.index + p.text.length) l ∧
      printfLoop fmt va (n + 1) s = printfLoop fmt va n
        ⟨s.index + p.text.length, s.args + p.words, s.out.puts (p.printed va (va.word s.args))⟩ := by
  have hint := int_range (va.word s.args).toNat
  have hlong := longLong_range (va.word s.args).toNat
  have hword := word_lt (va.word s.args)
  cases p with
  | char c ordinary =>
      obtain ⟨hat, hne, hnext⟩ := h.cons
      refine ⟨hnext, ?_⟩
      simp only [printfLoop, hat, ok_bind, if_neg hne, if_neg ordinary.1]
      rfl
  | string =>
      obtain ⟨hnext, hstep⟩ := printfLoop_percent va (n := n) h
      obtain ⟨hat, -, hrest⟩ := hnext.cons
      refine ⟨hrest, ?_⟩
      rw [hstep, printfSwitch, hat]
      rfl
  | chr =>
      obtain ⟨hnext, hstep⟩ := printfLoop_percent va (n := n) h
      obtain ⟨hat, -, hrest⟩ := hnext.cons
      refine ⟨hrest, ?_⟩
      rw [hstep, printfSwitch, hat]
      rfl
  | int =>
      obtain ⟨hnext, hstep⟩ := printfLoop_percent va (n := n) h
      obtain ⟨hat, -, hrest⟩ := hnext.cons
      refine ⟨hrest, ?_⟩
      simp only [hstep, printfSwitch, hat, ok_bind, printInt_eq hint.1 hint.2, Char.reduceEq,
        if_false, if_true, Piece.printed]
      generalize intText (signed 32 (va.word s.args).toNat) = digits
      rfl
  | longLong =>
      obtain ⟨hnext, hstep⟩ := printfLoop_percent va (n := n) h
      obtain ⟨hat, -, hnext₁⟩ := hnext.cons
      obtain ⟨hat₁, -, hnext₂⟩ := hnext₁.cons
      obtain ⟨hat₂, -, hrest⟩ := hnext₂.cons
      refine ⟨hrest, ?_⟩
      simp only [hstep, printfSwitch, hat, hat₁, hat₂, ok_bind, printLongLong_eq hlong.1 hlong.2,
        Char.reduceEq, if_false, if_true, Piece.printed]
      generalize appendSignedToStr (signed 64 (va.word s.args).toNat) = digits
      rfl
  | unsignedLongLong =>
      obtain ⟨hnext, hstep⟩ := printfLoop_percent va (n := n) h
      obtain ⟨hat, -, hnext₁⟩ := hnext.cons
      obtain ⟨hat₁, -, hnext₂⟩ := hnext₁.cons
      obtain ⟨hat₂, -, hrest⟩ := hnext₂.cons
      refine ⟨hrest, ?_⟩
      simp only [hstep, printfSwitch, hat, hat₁, hat₂, ok_bind, printUnsigned_eq hword,
        Char.reduceEq, if_false, if_true, Piece.printed]
      rfl
  | percent =>
      obtain ⟨hnext, hstep⟩ := printfLoop_percent va (n := n) h
      obtain ⟨hat, -, hrest⟩ := hnext.cons
      refine ⟨hrest, ?_⟩
      rw [hstep, printfSwitch, hat]
      rfl

/-- The loop over the letters `l` in front of another character. -/
theorem modifiersLoop_letters {c : Char} {i : ℕ} (k m : ℕ) (hc : c ≠ 'l') (hn : k < n)
    (h : Before fmt i (List.replicate k 'l' ++ c :: l)) :
    Before fmt (i + k) (c :: l) ∧ modifiersLoop fmt n i m = .ok (m + k, i + k) := by
  induction k generalizing n i m with
  | zero =>
      obtain ⟨n, rfl⟩ := Nat.exists_eq_succ_of_ne_zero hn.ne'
      obtain ⟨hat, -, -⟩ := h.cons
      refine ⟨h, ?_⟩
      simp only [modifiersLoop, hat, ok_bind, if_neg hc]
      rfl
  | succ k ih =>
      obtain ⟨n, rfl⟩ := Nat.exists_eq_succ_of_ne_zero (Nat.ne_zero_of_lt hn)
      obtain ⟨hat, -, hnext⟩ := Before.cons (l := List.replicate k 'l' ++ c :: l) h
      obtain ⟨hbefore, heq⟩ := ih (m + 1) (Nat.lt_of_succ_lt_succ hn) hnext
      rw [show i + 1 + k = i + (k + 1) by omega] at hbefore heq
      rw [show m + 1 + k = m + (k + 1) by omega] at heq
      refine ⟨hbefore, ?_⟩
      simp only [modifiersLoop, hat, ok_bind, if_true, heq]

variable (va) in
/-- One turn of the loop of `sprintf` at a directive with `k` letters `l`. -/
theorem sprintfLoop_directive {c : Char} (k : ℕ) (hc : c ≠ 'l') (hk : k = 0 → c ≠ '%')
    (h : Before fmt s.index ('%' :: (List.replicate k 'l' ++ c :: l))) :
    Before fmt (s.index + 1 + k) (c :: l) ∧
      sprintfLoop fmt va (n + 1) s = (do
        let s ← sprintfSwitch fmt va k { s with index := s.index + 1 + k }
        sprintfLoop fmt va n { s with index := s.index + 1 }) := by
  obtain ⟨hat, hne, hnext⟩ := h.cons
  have hlen := hnext.length
  rw [List.length_append, List.length_replicate] at hlen
  obtain ⟨hbefore, hletters⟩ := modifiersLoop_letters (n := fmt.chars.length + 2) k 0 hc (by omega)
    hnext
  obtain ⟨d, hd, hd₀, hdp⟩ : ∃ d, fmt.charAt (s.index + 1) = .ok d ∧ d ≠ nul ∧ d ≠ '%' := by
    cases k with
    | zero =>
        obtain ⟨hat₁, hne₁, -⟩ := hnext.cons
        exact ⟨c, hat₁, hne₁, hk rfl⟩
    | succ k =>
        obtain ⟨hat₁, hne₁, -⟩ := Before.cons (l := List.replicate k 'l' ++ c :: l) hnext
        exact ⟨'l', hat₁, hne₁, by decide⟩
  refine ⟨hbefore, ?_⟩
  simp only [sprintfLoop, hat, hd, ok_bind, if_neg hne, if_neg hd₀, if_neg hdp, ne_eq,
    not_true_eq_false, if_false, hletters, Nat.zero_add]

variable (va) in
/-- One turn of the loop of `sprintf` takes one piece. -/
theorem sprintfLoop_piece (h : Before fmt s.index (p.text ++ l)) :
    Before fmt (s.index + p.text.length) l ∧
      sprintfLoop fmt va (n + 1) s = sprintfLoop fmt va n
        ⟨s.index + p.text.length, s.args + p.words, s.out.puts (p.stored va (va.word s.args))⟩ := by
  have hint := argBits_range 0 (va.word s.args).toNat
  have hlong := argBits_range 2 (va.word s.args).toNat
  cases p with
  | char c ordinary =>
      obtain ⟨hat, hne, hnext⟩ := h.cons
      refine ⟨hnext, ?_⟩
      simp only [sprintfLoop, hat, ok_bind, if_neg hne, ne_eq, ordinary.1, not_false_eq_true, if_true]
      rfl
  | percent =>
      obtain ⟨hat, hne, hnext⟩ := h.cons
      obtain ⟨hat₁, hne₁, hrest⟩ := hnext.cons
      refine ⟨hrest, ?_⟩
      simp only [sprintfLoop, hat, hat₁, ok_bind, if_neg hne, ne_eq, not_true_eq_false, if_false,
        if_true]
      rfl
  | string =>
      obtain ⟨hbefore, hstep⟩ := sprintfLoop_directive va (n := n) 0 (by decide) (by decide) h
      obtain ⟨hat, -, hrest⟩ := hbefore.cons
      refine ⟨hrest, ?_⟩
      rw [hstep]
      simp only [sprintfSwitch, hat, ok_bind, if_true, Piece.stored]
      split
      · rfl
      · rfl
  | chr =>
      obtain ⟨hbefore, hstep⟩ := sprintfLoop_directive va (n := n) 0 (by decide) (by decide) h
      obtain ⟨hat, -, hrest⟩ := hbefore.cons
      refine ⟨hrest, ?_⟩
      rw [hstep, sprintfSwitch, hat]
      rfl
  | int =>
      obtain ⟨hbefore, hstep⟩ := sprintfLoop_directive va (n := n) 0 (by decide) (by decide) h
      obtain ⟨hat, -, hrest⟩ := hbefore.cons
      refine ⟨hrest, ?_⟩
      rw [hstep]
      simp only [sprintfSwitch, hat, ok_bind, appendSigned_eq hint.1 hint.2.1, Char.reduceEq,
        if_false, if_true, Piece.stored]
      rw [argBits, if_neg (by decide)]
      generalize appendSignedToStr (signed 32 (va.word s.args).toNat) = digits
      rfl
  | longLong =>
      obtain ⟨hbefore, hstep⟩ := sprintfLoop_directive va (n := n) 2 (by decide) (by decide) h
      obtain ⟨hat, -, hrest⟩ := hbefore.cons
      refine ⟨hrest, ?_⟩
      rw [hstep]
      simp only [sprintfSwitch, hat, ok_bind, appendSigned_eq hlong.1 hlong.2.1, Char.reduceEq,
        if_false, if_true, Piece.stored, Piece.printed]
      rw [argBits, if_pos (by decide)]
      generalize appendSignedToStr (signed 64 (va.word s.args).toNat) = digits
      rfl
  | unsignedLongLong =>
      obtain ⟨hbefore, hstep⟩ := sprintfLoop_directive va (n := n) 2 (by decide) (by decide) h
      obtain ⟨hat, -, hrest⟩ := hbefore.cons
      have hword : unsigned (argBits 2) (va.word s.args).toNat = (va.word s.args).toNat :=
        (unsigned_of_range (Int.natCast_nonneg _) (by exact_mod_cast word_lt _)).trans
          (Int.toNat_natCast _)
      refine ⟨hrest, ?_⟩
      rw [hstep]
      simp only [sprintfSwitch, hat, ok_bind, hword, appendUnsigned_eq (word_lt (va.word s.args)),
        Char.reduceEq, if_false, if_true, Piece.stored, Piece.printed]
      rfl

/-- Both loops run through a format that consists of pieces. -/
theorem printfLoop_pieces (h : Before fmt s.index (ps.flatMap Piece.text)) (hn : ps.length < n) :
    printfLoop fmt va n s =
      .ok (s.out.puts ((withWords va s.args ps).flatMap fun x => x.1.printed va x.2)) := by
  induction ps generalizing n s with
  | nil =>
      obtain ⟨n, rfl⟩ := Nat.exists_eq_succ_of_ne_zero hn.ne'
      simp only [printfLoop, h.charAt_nil, ok_bind, if_true]
      rfl
  | cons p ps ih =>
      obtain ⟨n, rfl⟩ := Nat.exists_eq_succ_of_ne_zero (Nat.ne_zero_of_lt hn)
      rw [List.flatMap_cons] at h
      obtain ⟨hrest, hstep⟩ := printfLoop_piece va (n := n) h
      rw [hstep, ih hrest (Nat.lt_of_succ_lt_succ hn), withWords, List.flatMap_cons,
        Output.puts_puts]

theorem sprintfLoop_pieces (h : Before fmt s.index (ps.flatMap Piece.text)) (hn : ps.length < n) :
    sprintfLoop fmt va n s =
      .ok (s.out.puts ((withWords va s.args ps).flatMap fun x => x.1.stored va x.2)) := by
  induction ps generalizing n s with
  | nil =>
      obtain ⟨n, rfl⟩ := Nat.exists_eq_succ_of_ne_zero hn.ne'
      simp only [sprintfLoop, h.charAt_nil, ok_bind, if_true]
      rfl
  | cons p ps ih =>
      obtain ⟨n, rfl⟩ := Nat.exists_eq_succ_of_ne_zero (Nat.ne_zero_of_lt hn)
      rw [List.flatMap_cons] at h
      obtain ⟨hrest, hstep⟩ := sprintfLoop_piece va (n := n) h
      rw [hstep, ih hrest (Nat.lt_of_succ_lt_succ hn), withWords, List.flatMap_cons,
        Output.puts_puts]

theorem Piece.text_length_pos (p : Piece) : 0 < p.text.length := by
  cases p <;> exact Nat.succ_pos _

theorem length_le_text (ps : List Piece) : ps.length ≤ (ps.flatMap Piece.text).length := by
  induction ps with
  | nil => exact le_rfl
  | cons p ps ih =>
      rw [List.flatMap_cons, List.length_append, List.length_cons]
      have hpos := p.text_length_pos
      omega

theorem printf_pieces (ps : List Piece) (va : VarArgs) :
    printf (ofPieces ps) va =
      .ok ((⟨[], 0⟩ : Output).puts ((withWords va 0 ps).flatMap fun x => x.1.printed va x.2)) :=
  printfLoop_pieces (Before.start (ofPieces ps))
    (Nat.lt_of_le_of_lt (length_le_text ps) (Nat.lt_add_of_pos_right (by decide)))

theorem sprintf_pieces (ps : List Piece) (va : VarArgs) :
    sprintf (ofPieces ps) va =
      .ok ((⟨[], 0⟩ : Output).puts ((withWords va 0 ps).flatMap fun x => x.1.stored va x.2)) :=
  sprintfLoop_pieces (Before.start (ofPieces ps))
    (Nat.lt_of_le_of_lt (length_le_text ps) (Nat.lt_add_of_pos_right (by decide)))

end Loops

section Agreement

/-- The pieces on which both formatters do the same: not a doubled percent sign, and not the least
`int`. -/
def Piece.Agrees (p : Piece) (w : UInt64) : Prop :=
  p ≠ .percent ∧ (p = .int → signed 32 w.toNat ≠ -(2 ^ 31))

theorem Piece.printed_of_agrees {w : UInt64} (h : p.Agrees w) (hw : p = .string → w ≠ 0) :
    p.printed va w = p.stored va w := by
  cases p with
  | string => exact (if_neg (hw rfl)).symm
  | int => simp only [printed, stored, intText, if_neg (h.2 rfl)]
  | percent => exact absurd rfl h.1
  | _ => rfl

/-- The percent signs that `printf` emits and `sprintf` does not store. -/
def Piece.surplus : Piece → ℕ
  | percent => 1
  | _ => 0

/-- The digits that `sprintf` stores and `printf` does not emit. -/
def Piece.missing (w : UInt64) : Piece → ℕ
  | int => if signed 32 w.toNat = -(2 ^ 31) then 10 else 0
  | _ => 0

theorem Piece.agrees_iff {w : UInt64} : p.Agrees w ↔ p.surplus = 0 ∧ p.missing w = 0 := by
  cases p <;> simp [Agrees, surplus, missing]

variable (va) in
theorem Piece.printed_stored {w : UInt64} (hw : p = .string → w ≠ 0) :
    (p.printed va w).count '%' = (p.stored va w).count '%' + p.surplus ∧
      (p.printed va w).length + p.missing w = (p.stored va w).length + p.surplus := by
  by_cases h : p.Agrees w
  · obtain ⟨hsurplus, hmissing⟩ := agrees_iff.mp h
    rw [printed_of_agrees h hw, hsurplus, hmissing]
    exact ⟨rfl, rfl⟩
  cases p with
  | int =>
      have hleast : signed 32 w.toNat = -(2 ^ 31) := by
        by_contra hne
        exact h ⟨by simp, fun _ => hne⟩
      simp only [printed, stored, surplus, missing, intText, if_pos hleast]
      rw [hleast]
      decide
  | percent => exact ⟨rfl, rfl⟩
  | _ => exact absurd ⟨by simp, by simp⟩ h

variable (va) in
theorem printed_stored_all {L : List (Piece × UInt64)} (hL : ∀ x ∈ L, x.1 = .string → x.2 ≠ 0) :
    (L.flatMap fun x => x.1.printed va x.2).count '%' =
        (L.flatMap fun x => x.1.stored va x.2).count '%' + (L.map fun x => x.1.surplus).sum ∧
      (L.flatMap fun x => x.1.printed va x.2).length + (L.map fun x => x.1.missing x.2).sum =
        (L.flatMap fun x => x.1.stored va x.2).length + (L.map fun x => x.1.surplus).sum := by
  induction L with
  | nil => exact ⟨rfl, rfl⟩
  | cons x L ih =>
      obtain ⟨hcount, hlength⟩ := Piece.printed_stored va (hL x List.mem_cons_self)
      obtain ⟨hcounts, hlengths⟩ := ih fun y hy => hL y (List.mem_cons_of_mem _ hy)
      simp only [List.flatMap_cons, List.map_cons, List.sum_cons, List.count_append,
        List.length_append]
      omega

variable (va) in
/-- The characters of both formatters are the same exactly if all pieces agree. -/
theorem printed_eq_stored_iff {L : List (Piece × UInt64)}
    (hL : ∀ x ∈ L, x.1 = .string → x.2 ≠ 0) :
    (L.flatMap fun x => x.1.printed va x.2) = (L.flatMap fun x => x.1.stored va x.2) ↔
      ∀ x ∈ L, x.1.Agrees x.2 := by
  constructor
  · intro heq
    obtain ⟨hcount, hlength⟩ := printed_stored_all va hL
    rw [heq] at hcount hlength
    have hsurplus : (L.map fun x => x.1.surplus).sum = 0 := by omega
    have hmissing : (L.map fun x => x.1.missing x.2).sum = 0 := by omega
    rw [List.sum_eq_zero_iff] at hsurplus hmissing
    exact fun x hx => Piece.agrees_iff.mpr
      ⟨hsurplus _ (List.mem_map_of_mem hx), hmissing _ (List.mem_map_of_mem hx)⟩
  · intro h
    induction L with
    | nil => rfl
    | cons x L ih =>
        rw [List.flatMap_cons, List.flatMap_cons, Piece.printed_of_agrees (h x List.mem_cons_self)
          (hL x List.mem_cons_self), ih (fun y hy => hL y (List.mem_cons_of_mem _ hy))
          fun y hy => h y (List.mem_cons_of_mem _ hy)]

/-- On a format of ordinary characters and complete directives, with no null pointer for a
string, `printf` emits what `sprintf` stores and both return the number of these characters,
exactly if the format has no doubled percent sign and no `%d` gets the least `int`. -/
theorem printf_sprintf_agree_iff (ps : List Piece) (va : VarArgs)
    (hstr : ∀ x ∈ withWords va 0 ps, x.1 = .string → x.2 ≠ 0) :
    (∃ o, printf (ofPieces ps) va = .ok o ∧ sprintf (ofPieces ps) va = .ok o ∧
        o.count = o.chars.length) ↔
      ∀ x ∈ withWords va 0 ps,
        x.1 ≠ .percent ∧ (x.1 = .int → signed 32 x.2.toNat ≠ -(2 ^ 31)) := by
  rw [printf_pieces, sprintf_pieces]
  refine Iff.trans ?_ (printed_eq_stored_iff va hstr)
  constructor
  · rintro ⟨o, hprinted, hstored, -⟩
    rw [← hstored, Except.ok.injEq] at hprinted
    have hchars := congrArg Output.chars hprinted
    rwa [Output.puts_chars, Output.puts_chars] at hchars
  · intro heq
    rw [heq]
    exact ⟨_, rfl, rfl, by simp⟩

/-- A format of one `%lld`, with the least value. -/
theorem printf_sprintf_agree_least :
    ∃ o, printf (ofPieces [.longLong]) (.const (2 ^ 63)) = .ok o ∧
      sprintf (ofPieces [.longLong]) (.const (2 ^ 63)) = .ok o ∧ o.count = o.chars.length :=
  (printf_sprintf_agree_iff [.longLong] (.const (2 ^ 63)) (by simp [withWords])).mpr fun x hx => by
    obtain rfl := List.mem_singleton.mp hx
    exact ⟨nofun, nofun⟩

/-- The formats `"%%"` and `"%d"`, the latter with the least `int`. -/
theorem printf_sprintf_differ :
    printf (ofPieces [.percent]) (.const 0) = .ok ⟨"%%".toList, 2⟩ ∧
      sprintf (ofPieces [.percent]) (.const 0) = .ok ⟨"%".toList, 1⟩ ∧
      printf (ofPieces [.int]) (.const (2 ^ 31)) = .ok ⟨"-".toList, 1⟩ ∧
      sprintf (ofPieces [.int]) (.const (2 ^ 31)) = .ok ⟨"-2147483648".toList, 11⟩ :=
  ⟨rfl, rfl, rfl, rfl⟩

end Agreement

end SoKernel.Userland.Format
