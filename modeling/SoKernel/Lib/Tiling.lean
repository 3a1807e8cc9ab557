import Mathlib.Data.List.Pairwise
import Mathlib.Tactic

/-!
# Lists of consecutive intervals

A list of blocks, each with a start and a length, tiles an interval when every
block starts where the previous one ended. The rules below cut a tiling at one of
its blocks and read off bounds, disjointness and coverage.
-/

namespace Tiling

variable {β : Type*} {start len : β → ℕ} {a b c : ℕ} {x y : β} {xs ys : List β}

/-- The blocks `xs` cover `[a, b)` from left to right without gap or overlap. -/
def Tiles (start len : β → ℕ) : ℕ → ℕ → List β → Prop
  | a, b, [] => a = b
  | a, b, x :: xs => start x = a ∧ Tiles start len (a + len x) b xs

@[simp] theorem tiles_nil : Tiles start len a b [] ↔ a = b := Iff.rfl

@[simp] theorem tiles_cons : Tiles start len a b (x :: xs) ↔
    start x = a ∧ Tiles start len (a + len x) b xs := Iff.rfl

theorem tiles_append : Tiles start len a b (xs ++ ys) ↔
    ∃ c, Tiles start len a c xs ∧ Tiles start len c b ys := by
  induction xs generalizing a with
  | nil => simp
  | cons x xs ih =>
      simp only [List.cons_append, tiles_cons, ih]
      constructor
      · rintro ⟨hx, c, h₁, h₂⟩
        exact ⟨c, ⟨hx, h₁⟩, h₂⟩
      · rintro ⟨c, ⟨hx, h₁⟩, h₂⟩
        exact ⟨hx, c, h₁, h₂⟩

/-- Cutting a tiling at one block. -/
theorem tiles_split : Tiles start len a b (xs ++ x :: ys) ↔
    Tiles start len a (start x) xs ∧ Tiles start len (start x + len x) b ys := by
  rw [tiles_append]
  constructor
  · rintro ⟨c, h₁, rfl, h₂⟩
    exact ⟨h₁, h₂⟩
  · rintro ⟨h₁, h₂⟩
    exact ⟨start x, h₁, rfl, h₂⟩

namespace Tiles

theorem le (h : Tiles start len a b xs) : a ≤ b := by
  induction xs generalizing a with
  | nil => exact le_of_eq h
  | cons x xs ih =>
      have := ih h.2
      omega

/-- The lengths add up to the length of the interval. -/
theorem sum_len (h : Tiles start len a b xs) : a + (xs.map len).sum = b := by
  induction xs generalizing a with
  | nil => simpa using h
  | cons x xs ih =>
      have := ih h.2
      rw [List.map_cons, List.sum_cons]
      omega

/-- A tiling is determined by the blocks that start at each place. -/
theorem unique (hx : Tiles start len a b xs) (hy : Tiles start len a b ys)
    (hlen : ∀ x ∈ xs, 0 < len x) (hlen' : ∀ y ∈ ys, 0 < len y)
    (hsame : ∀ x ∈ xs, ∀ y ∈ ys, start x = start y → x = y) : xs = ys := by
  induction xs generalizing a ys with
  | nil =>
      cases ys with
      | nil => rfl
      | cons y ys =>
          have hpos := hlen' y (by simp)
          have hle := hy.2.le
          have hab := tiles_nil.mp hx
          omega
  | cons x xs ih =>
      cases ys with
      | nil =>
          have hpos := hlen x (by simp)
          have hle := hx.2.le
          have hab := tiles_nil.mp hy
          omega
      | cons y ys =>
          obtain rfl : x = y := hsame x (by simp) y (by simp) (hx.1.trans hy.1.symm)
          rw [ih hx.2 hy.2 (fun z hz => hlen z (by simp [hz])) (fun z hz => hlen' z (by simp [hz]))
            fun z hz w hw => hsame z (by simp [hz]) w (by simp [hw])]

/-- Every block lies inside the tiled interval. -/
theorem bounds (h : Tiles start len a b xs) (hx : x ∈ xs) :
    a ≤ start x ∧ start x + len x ≤ b := by
  obtain ⟨l, r, rfl⟩ := List.append_of_mem hx
  obtain ⟨h₁, h₂⟩ := tiles_split.mp h
  exact ⟨h₁.le, h₂.le⟩

/-- Every point of the interval lies in some block. -/
theorem cover (h : Tiles start len a b xs) {n : ℕ} (ha : a ≤ n) (hb : n < b) :
    ∃ x ∈ xs, start x ≤ n ∧ n < start x + len x := by
  induction xs generalizing a with
  | nil =>
      have : a = b := h
      omega
  | cons x xs ih =>
      by_cases hn : n < a + len x
      · exact ⟨x, by simp, by rw [h.1]; exact ha, by rw [h.1]; exact hn⟩
      · obtain ⟨y, hy, hin⟩ := ih h.2 (by omega)
        exact ⟨y, List.mem_cons_of_mem _ hy, hin⟩

/-- The blocks are listed in increasing order and do not overlap. -/
theorem pairwise (h : Tiles start len a b xs) :
    xs.Pairwise (fun x y => start x + len x ≤ start y) := by
  induction xs generalizing a with
  | nil => exact List.Pairwise.nil
  | cons x xs ih =>
      refine List.Pairwise.cons (fun y hy => ?_) (ih h.2)
      rw [h.1]
      exact (h.2.bounds hy).1

/-- Two blocks of a tiling by nonempty blocks are equal or do not overlap. -/
theorem eq_or_disjoint (h : Tiles start len a b xs) (hx : x ∈ xs) (hy : y ∈ xs) :
    x = y ∨ start x + len x ≤ start y ∨ start y + len y ≤ start x := by
  by_cases hxy : x = y
  · exact Or.inl hxy
  · obtain ⟨l, r, rfl⟩ := List.append_of_mem hx
    obtain ⟨hl, hr⟩ := tiles_split.mp h
    rcases List.mem_append.mp hy with hm | hm
    · exact Or.inr (Or.inr (hl.bounds hm).2)
    · rcases List.mem_cons.mp hm with rfl | hm
      · exact absurd rfl hxy
      · exact Or.inr (Or.inl (hr.bounds hm).1)

/-- A point inside two nonempty blocks determines the block. -/
theorem eq_of_mem_both (h : Tiles start len a b xs) (hx : x ∈ xs) (hy : y ∈ xs) {n : ℕ}
    (hxn : start x ≤ n ∧ n < start x + len x) (hyn : start y ≤ n ∧ n < start y + len y) :
    x = y := by
  rcases h.eq_or_disjoint hx hy with heq | hd
  · exact heq
  · omega

/-- A tiling by nonempty blocks has no two blocks with the same start. -/
theorem start_injective (h : Tiles start len a b xs) (hlen : ∀ x ∈ xs, 0 < len x)
    (hx : x ∈ xs) (hy : y ∈ xs) (heq : start x = start y) : x = y := by
  have hpx := hlen x hx
  have hpy := hlen y hy
  exact h.eq_of_mem_both hx hy (n := start x) ⟨le_rfl, by omega⟩ (by omega)

theorem starts_nodup (h : Tiles start len a b xs) (hlen : ∀ x ∈ xs, 0 < len x) :
    (xs.map start).Nodup := by
  rw [List.Nodup, List.pairwise_map]
  refine (h.pairwise.imp_of_mem ?_)
  intro x y hx _ hxy heq
  have := hlen x hx
  omega

/-- A tiling by nonempty blocks has at most as many blocks as points. -/
theorem length_le (h : Tiles start len a b xs) (hlen : ∀ x ∈ xs, 0 < len x) :
    a + xs.length ≤ b := by
  induction xs generalizing a with
  | nil => exact le_of_eq h
  | cons x xs ih =>
      have hx := hlen x (by simp)
      have hrest := ih h.2 (fun y hy => hlen y (List.mem_cons_of_mem _ hy))
      simp only [List.length_cons]
      omega

/-- The block that starts where a tiling starts is its first one. -/
theorem head_of_start (h : Tiles start len a b xs) (hlen : ∀ x ∈ xs, 0 < len x) (hy : y ∈ xs)
    (heq : start y = a) : ∃ ys, xs = y :: ys := by
  cases xs with
  | nil => cases hy
  | cons x xs =>
      have hxy := h.start_injective hlen (x := x) (by simp) hy (h.1.trans heq.symm)
      exact ⟨xs, by rw [hxy]⟩

/-- The block that ends where a tiling ends is its last one. -/
theorem last_of_end (h : Tiles start len a b xs) (hlen : ∀ x ∈ xs, 0 < len x) (hy : y ∈ xs)
    (heq : start y + len y = b) : ∃ ys, xs = ys ++ [y] := by
  obtain ⟨l, r, rfl⟩ := List.append_of_mem hy
  cases r with
  | nil => exact ⟨l, rfl⟩
  | cons z r =>
      have hz := ((tiles_split.mp h).2.bounds (x := z) (by simp))
      have hzpos := hlen z (by simp)
      omega

/-- A nonempty interval is tiled by a first block and the rest. -/
theorem exists_cons (h : Tiles start len a b xs) (hab : a < b) :
    ∃ x ys, xs = x :: ys ∧ start x = a ∧ Tiles start len (a + len x) b ys := by
  cases xs with
  | nil =>
      have heq : a = b := h
      omega
  | cons x xs => exact ⟨x, xs, rfl, h.1, h.2⟩

section Separated

variable {fixed : β → Prop}

/-- If the first gap of one tiling were shorter than that of another, a fixed block of the
first would start inside the gap of the second. -/
theorem gap_le (hx : Tiles start len a b (x :: xs)) (hy : Tiles start len a b (y :: ys))
    (hlen : ∀ z ∈ xs, 0 < len z) (hsep : (x :: xs).IsChain fun u v => fixed u ∨ fixed v)
    (hgap : ¬fixed x) (hgap' : ¬fixed y) (hsub : ∀ z ∈ xs, fixed z → z ∈ y :: ys) :
    len y ≤ len x := by
  by_contra hlt
  have hend := hy.2.le
  obtain ⟨z, zs, rfl, hz, -⟩ := hx.2.exists_cons (by omega)
  have hfixed : fixed z := (List.isChain_cons_cons.mp hsep).1.resolve_left hgap
  have hmem := hsub z (by simp) hfixed
  have hpos := hlen z (by simp)
  have hstart : start y = a := hy.1
  have hzy : z = y := hy.eq_of_mem_both hmem (by simp) (n := a + len x) (by omega) (by omega)
  exact hgap' (hzy ▸ hfixed)

/-- Two tilings of an interval with the same fixed blocks, in which no two gaps touch, are
equal. -/
theorem eq_of_separated (hext : ∀ x y : β, start x = start y → len x = len y → ¬fixed x →
      ¬fixed y → x = y)
    (hxs : Tiles start len a b xs) (hys : Tiles start len a b ys) (hlx : ∀ x ∈ xs, 0 < len x)
    (hly : ∀ y ∈ ys, 0 < len y) (hsx : xs.IsChain fun u v => fixed u ∨ fixed v)
    (hsy : ys.IsChain fun u v => fixed u ∨ fixed v)
    (hsame : ∀ z, fixed z → (z ∈ xs ↔ z ∈ ys)) : xs = ys := by
  induction xs generalizing a ys with
  | nil =>
      cases ys with
      | nil => rfl
      | cons y ys =>
          have hpos := hly y (by simp)
          have hle := hys.2.le
          have hab : a = b := hxs
          omega
  | cons x xs ih =>
      have hpos := hlx x (by simp)
      have hle := hxs.2.le
      obtain ⟨y, ys, rfl, hya, htail⟩ := hys.exists_cons (by omega)
      have hxy : x = y := by
        by_cases hfx : fixed x
        · exact hys.start_injective hly ((hsame x hfx).mp (by simp)) (by simp)
            (hxs.1.trans hya.symm)
        · by_cases hfy : fixed y
          · exact hxs.start_injective hlx (by simp) ((hsame y hfy).mpr (by simp))
              (hxs.1.trans hya.symm)
          · refine hext x y (hxs.1.trans hya.symm) (le_antisymm ?_ ?_) hfx hfy
            · exact hys.gap_le hxs (fun z hz => hly z (by simp [hz])) hsy hfy hfx
                fun z hz hfz => (hsame z hfz).mpr (by simp [hz])
            · exact hxs.gap_le hys (fun z hz => hlx z (by simp [hz])) hsx hfx hfy
                fun z hz hfz => (hsame z hfz).mp (by simp [hz])
      subst hxy
      have hnx : x ∉ xs := fun hm => by
        have hb := hxs.2.bounds hm
        have hs := hxs.1
        omega
      have hny : x ∉ ys := fun hm => by
        have hb := htail.bounds hm
        omega
      refine congrArg _ (ih hxs.2 htail (fun z hz => hlx z (by simp [hz]))
        (fun z hz => hly z (by simp [hz])) hsx.tail hsy.tail fun z hfz => ?_)
      have hz := hsame z hfz
      simp only [List.mem_cons] at hz
      by_cases hzx : z = x
      · subst hzx
        exact ⟨fun hm => absurd hm hnx, fun hm => absurd hm hny⟩
      · simpa [hzx] using hz

/-- If the interval and its fixed blocks keep to a grid and no two gaps touch, the gaps keep to
it too. -/
theorem on_grid {d : ℕ} (h : Tiles start len a b xs) (hsep : xs.IsChain fun u v => fixed u ∨ fixed v)
    (ha : d ∣ a) (hb : d ∣ b) (hfixed : ∀ x ∈ xs, fixed x → d ∣ start x ∧ d ∣ len x) :
    ∀ x ∈ xs, d ∣ start x ∧ d ∣ len x := by
  induction xs generalizing a with
  | nil => simp
  | cons x xs ih =>
      obtain ⟨rfl, hrest⟩ := h
      -- the block after a gap is fixed, so the gap ends on the grid
      have hend : d ∣ start x + len x := by
        by_cases hx : fixed x
        · exact Nat.dvd_add ha (hfixed x (by simp) hx).2
        · cases xs with
          | nil =>
              rw [tiles_nil] at hrest
              exact hrest ▸ hb
          | cons y ys =>
              have hy := (List.isChain_cons_cons.mp hsep).1.resolve_left hx
              rw [← hrest.1]
              exact (hfixed y (by simp) hy).1
      intro z hz
      rcases List.mem_cons.mp hz with rfl | hz
      · exact ⟨ha, (Nat.dvd_add_right ha).mp hend⟩
      · exact ih hrest hsep.tail hend (fun w hw => hfixed w (List.mem_cons_of_mem _ hw)) z hz

end Separated
end Tiles
end Tiling
