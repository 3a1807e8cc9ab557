import Mathlib.Data.Nat.Bitwise
import SoKernel.Lib.Tiling

/-!
# Dyadic blocks and their buddies

A dyadic block of level `l` is an interval of length `2 ^ l` that starts at a multiple
of its length. Its buddy is the other half of the block of level `l + 1` around it, and
starts where bit `l` of the start is flipped. Two dyadic blocks are nested or disjoint,
so a tiling by dyadic blocks always has a block that starts where a buddy does.
-/

namespace Dyadic

variable {n k l m : ℕ}

/-- The start of the buddy of the block of level `l` at `n`. -/
def buddy (n l : ℕ) : ℕ := n ^^^ 2 ^ l

theorem two_pow_mul_xor (k a b : ℕ) : 2 ^ k * a ^^^ 2 ^ k * b = 2 ^ k * (a ^^^ b) := by
  have hshift := Nat.shiftLeft_xor_distrib (i := k) (a := a) (b := b)
  simpa [Nat.shiftLeft_eq, Nat.mul_comm] using hshift.symm

/-- The buddy follows the left half of the parent block and precedes the right half. -/
theorem buddy_cases (h : 2 ^ l ∣ n) :
    (2 ^ (l + 1) ∣ n ∧ buddy n l = n + 2 ^ l) ∨
      (2 ^ l ≤ n ∧ 2 ^ (l + 1) ∣ n - 2 ^ l ∧ buddy n l = n - 2 ^ l) := by
  obtain ⟨q, rfl⟩ := h
  have hxor : buddy (2 ^ l * q) l = 2 ^ l * (q ^^^ 1) := by
    have hmul := two_pow_mul_xor l q 1
    rwa [Nat.mul_one] at hmul
  rcases Nat.even_or_odd q with heven | hodd
  · left
    obtain ⟨r, rfl⟩ := heven.two_dvd
    refine ⟨⟨r, by rw [pow_succ, Nat.mul_assoc]⟩, ?_⟩
    rw [hxor, Nat.xor_one_of_even heven, Nat.mul_add, Nat.mul_one]
  · right
    obtain ⟨r, rfl⟩ := hodd
    have hsplit : 2 ^ l * (2 * r + 1) = 2 ^ (l + 1) * r + 2 ^ l := by
      rw [pow_succ]
      ring
    have hhalf : 2 ^ l * (2 * r) = 2 ^ (l + 1) * r := by
      rw [pow_succ, Nat.mul_assoc]
    refine ⟨by omega, ⟨r, by omega⟩, ?_⟩
    rw [hxor, Nat.xor_one_of_odd ⟨r, rfl⟩, Nat.add_sub_cancel]
    omega

theorem buddy_buddy (n l : ℕ) : buddy (buddy n l) l = n := Nat.xor_xor_cancel_right n (2 ^ l)

theorem buddy_left (h : 2 ^ (l + 1) ∣ n) : buddy n l = n + 2 ^ l := by
  have hdvd : 2 ^ l ∣ n := (pow_dvd_pow 2 (Nat.le_succ l)).trans h
  rcases buddy_cases hdvd with ⟨-, heq⟩ | ⟨hle, hsub, -⟩
  · exact heq
  · -- both `n` and `n - 2 ^ l` would be multiples of `2 ^ (l + 1)`
    have hpow : 2 ^ (l + 1) ∣ 2 ^ l := by
      have hdiff := Nat.dvd_sub h hsub
      rwa [Nat.sub_sub_self hle] at hdiff
    have hlt : 2 ^ l < 2 ^ (l + 1) := Nat.pow_lt_pow_right (by decide) (Nat.lt_succ_self l)
    exact absurd (Nat.le_of_dvd (Nat.two_pow_pos l) hpow) (not_le.mpr hlt)

theorem buddy_ne (n l : ℕ) : buddy n l ≠ n := by
  intro heq
  have hzero : n ^^^ (n ^^^ 2 ^ l) = 0 := by
    rw [show n ^^^ 2 ^ l = n from heq, Nat.xor_self]
  rw [← Nat.xor_assoc, Nat.xor_self, Nat.zero_xor] at hzero
  exact (Nat.two_pow_pos l).ne' hzero

theorem dvd_buddy (h : 2 ^ l ∣ n) : 2 ^ l ∣ buddy n l := by
  have hself : 2 ^ l ∣ 2 ^ l := dvd_rfl
  rcases buddy_cases h with ⟨-, heq⟩ | ⟨-, -, heq⟩
  · rw [heq]
    exact Nat.dvd_add h hself
  · rw [heq]
    exact Nat.dvd_sub h hself

/-- Of two dyadic blocks that meet, the larger contains the smaller. -/
theorem nested (hn : 2 ^ l ∣ n) (hk : 2 ^ m ∣ k) (hlm : l ≤ m) (h₁ : n < k + 2 ^ m)
    (h₂ : k < n + 2 ^ l) : k ≤ n ∧ n + 2 ^ l ≤ k + 2 ^ m := by
  have hkl : 2 ^ l ∣ k := (pow_dvd_pow 2 hlm).trans hk
  have hml : 2 ^ l ∣ 2 ^ m := pow_dvd_pow 2 hlm
  obtain ⟨a, rfl⟩ := hn
  obtain ⟨b, rfl⟩ := hkl
  obtain ⟨c, hc⟩ := hml
  rw [hc] at h₁ ⊢
  have hpos := Nat.two_pow_pos l
  have hab : b < a + 1 := Nat.lt_of_mul_lt_mul_left (a := 2 ^ l) (by rw [Nat.mul_add]; omega)
  have hac : a < b + c := Nat.lt_of_mul_lt_mul_left (a := 2 ^ l) (by rw [Nat.mul_add]; omega)
  constructor
  · exact Nat.mul_le_mul_left _ (by omega)
  · have hle := Nat.mul_le_mul_left (2 ^ l) (show a + 1 ≤ b + c by omega)
    rw [Nat.mul_add, Nat.mul_add] at hle
    omega

section Tilings

variable {α : Type*} {start level : α → ℕ} {N : ℕ} {xs : List α} {x : α}

/-- In a tiling by dyadic blocks, a buddy that ends inside the tiled interval starts
where a block of the same or a smaller level starts. -/
theorem exists_buddy (h : Tiling.Tiles start (fun x => 2 ^ level x) 0 N xs)
    (haligned : ∀ x ∈ xs, 2 ^ level x ∣ start x) (hx : x ∈ xs)
    (hend : buddy (start x) (level x) + 2 ^ level x ≤ N) :
    ∃ y ∈ xs, start y = buddy (start x) (level x) ∧ level y ≤ level x := by
  have hpos := Nat.two_pow_pos (level x)
  obtain ⟨y, hy, hlow, hhigh⟩ := h.cover (n := buddy (start x) (level x)) (Nat.zero_le _) (by omega)
  have hdvd := dvd_buddy (haligned x hx)
  have hypos := Nat.two_pow_pos (level y)
  rcases Nat.lt_or_ge (level x) (level y) with hlt | hle
  · -- a larger block around the buddy would contain the parent, hence `x` itself
    exfalso
    have hin := nested hdvd (haligned y hy) hlt.le hhigh (by omega)
    have hpow : 2 ^ (level x + 1) ∣ 2 ^ level y := pow_dvd_pow 2 hlt
    have hmeet : start x < start y + 2 ^ level y ∧ start y < start x + 2 ^ level x := by
      rcases buddy_cases (haligned x hx) with ⟨hpar, heq⟩ | ⟨hge, hpar, heq⟩
      · have hnest := nested hpar (haligned y hy) hlt (by omega) (by rw [pow_succ]; omega)
        omega
      · have hnest := nested hpar (haligned y hy) hlt (by omega) (by rw [pow_succ]; omega)
        rw [pow_succ] at hnest
        omega
    rcases h.eq_or_disjoint hx hy with rfl | hd
    · exact lt_irrefl _ hlt
    · omega
  · refine ⟨y, hy, ?_, hle⟩
    have hnest := nested (haligned y hy) hdvd hle (by omega) (by omega)
    omega

/-- A dyadic block of a larger dyadic region has its buddy in the region. -/
theorem buddy_inside (hn : 2 ^ l ∣ n) (hk : 2 ^ m ∣ k) (hlm : l < m) (hlow : k ≤ n)
    (hhigh : n + 2 ^ l ≤ k + 2 ^ m) : k ≤ buddy n l ∧ buddy n l + 2 ^ l ≤ k + 2 ^ m := by
  have hpos := Nat.two_pow_pos l
  rcases buddy_cases hn with ⟨hpar, heq⟩ | ⟨hge, hpar, heq⟩
  · have hnest := nested hpar hk hlm (by omega) (by rw [pow_succ]; omega)
    rw [pow_succ] at hnest
    omega
  · have hnest := nested hpar hk hlm (by omega) (by rw [pow_succ]; omega)
    rw [pow_succ] at hnest
    omega

variable {fixed : α → Prop} {top : ℕ} {ys : List α}

/-- A tiling by dyadic blocks of level at most `top` in which two buddies below `top` are
never both gaps. -/
structure Coalesced (start level : α → ℕ) (fixed : α → Prop) (top N : ℕ) (xs : List α) : Prop where
  tiles : Tiling.Tiles start (fun x => 2 ^ level x) 0 N xs
  aligned : ∀ x ∈ xs, 2 ^ level x ∣ start x
  level_le : ∀ x ∈ xs, level x ≤ top
  apart : ∀ x ∈ xs, ∀ y ∈ xs, level x < top → level x = level y →
    start y = buddy (start x) (level x) → fixed x ∨ fixed y

namespace Coalesced

/-- A dyadic region without fixed blocks is not cut into smaller gaps: the smallest one and
its buddy would both be gaps. -/
theorem not_refined (h : Coalesced start level fixed top N xs) (hm : m ≤ top) (hk : 2 ^ m ∣ k)
    (hend : k + 2 ^ m ≤ N)
    (hgap : ∀ x ∈ xs, k ≤ start x → start x + 2 ^ level x ≤ k + 2 ^ m → ¬fixed x)
    (hx : x ∈ xs) (hlow : k ≤ start x) (hhigh : start x + 2 ^ level x ≤ k + 2 ^ m) :
    m ≤ level x := by
  -- strong induction on the level: the block at the buddy's place is no smaller
  induction hlev : level x using Nat.strong_induction_on generalizing x with
  | _ l ih =>
      subst hlev
      by_contra hlt
      have hin := buddy_inside (h.aligned x hx) hk (not_le.mp hlt) hlow hhigh
      obtain ⟨y, hy, hstart, hle⟩ := exists_buddy h.tiles h.aligned hx (by omega)
      have hpow : 2 ^ level y ≤ 2 ^ level x := Nat.pow_le_pow_right (by decide) hle
      rcases hle.lt_or_eq with hsmall | hsame
      · have hyl := ih (level y) hsmall hy (by omega) (by omega) rfl
        omega
      · rcases h.apart x hx y hy (by omega) hsame.symm hstart with hf | hf
        · exact hgap x hx hlow hhigh hf
        · exact hgap y hy (by omega) (by omega) hf

/-- A block that lies in a gap of a tiling with the same fixed blocks is no smaller than
the gap. -/
theorem level_ge (h : Coalesced start level fixed top N xs) (h' : Coalesced start level fixed top N ys)
    (hsub : ∀ x ∈ xs, fixed x → x ∈ ys) {y : α} (hy : y ∈ ys) (hfree : ¬fixed y) (hx : x ∈ xs)
    (hlow : start y ≤ start x) (hhigh : start x + 2 ^ level x ≤ start y + 2 ^ level y) :
    level y ≤ level x := by
  refine h.not_refined (h'.level_le y hy) (h'.aligned y hy) (h'.tiles.bounds hy).2 ?_ hx hlow hhigh
  intro z hz hzlow hzhigh hf
  have hpos := Nat.two_pow_pos (level z)
  have hzy := h'.tiles.eq_of_mem_both (hsub z hz hf) hy (n := start z) (by omega) (by omega)
  exact hfree (hzy ▸ hf)

/-- Two such tilings with the same fixed blocks have the same gaps. -/
theorem gap_mem (h : Coalesced start level fixed top N xs) (h' : Coalesced start level fixed top N ys)
    (hsub : ∀ x ∈ xs, fixed x → x ∈ ys) (hsub' : ∀ y ∈ ys, fixed y → y ∈ xs) {y : α}
    (hy : y ∈ ys) (hfree : ¬fixed y) :
    ∃ x ∈ xs, start x = start y ∧ level x = level y ∧ ¬fixed x := by
  have hypos := Nat.two_pow_pos (level y)
  have hyend := (h'.tiles.bounds hy).2
  obtain ⟨x, hx, hlow, hhigh⟩ := h.tiles.cover (n := start y) (Nat.zero_le _) (by omega)
  have hxpos := Nat.two_pow_pos (level x)
  have hxfree : ¬fixed x := by
    intro hf
    have hxy := h'.tiles.eq_of_mem_both (hsub x hx hf) hy (n := start y) ⟨hlow, hhigh⟩ (by omega)
    exact hfree (hxy ▸ hf)
  rcases le_total (level x) (level y) with hle | hle
  · obtain ⟨h₁, h₂⟩ := nested (h.aligned x hx) (h'.aligned y hy) hle (by omega) (by omega)
    have hge := h.level_ge h' hsub hy hfree hx h₁ h₂
    exact ⟨x, hx, by omega, le_antisymm hle hge, hxfree⟩
  · obtain ⟨h₁, h₂⟩ := nested (h'.aligned y hy) (h.aligned x hx) hle (by omega) (by omega)
    have hge := h'.level_ge h hsub' hx hxfree hy h₁ h₂
    have heq := le_antisymm hge hle
    rw [heq] at h₂
    exact ⟨x, hx, by omega, heq, hxfree⟩

end Coalesced
end Tilings
end Dyadic
