import Mathlib.Data.List.Range
import SoKernel.Lib.Word64

/-!
# The video driver

Embedding of the text output of `videoDriver.c`. The bytes of the framebuffer are a function of
the offset, and a screen also records the pixels that were written. The table of glyphs is a
parameter. Text stays on the screen when the width and the height are multiples of the size of
a glyph, and only then.
-/

namespace SoKernel.Video

open Function (update)

/-- `struct vbe_mode_info_structure`, as far as the driver reads it. -/
structure VbeModeInfo where
  pitch : UInt16
  width : UInt16
  height : UInt16
  bpp : UInt8

structure Screen where
  cursorX : ℕ
  cursorY : ℕ
  fontScale : ℕ
  framebuffer : ℕ → UInt8
  /-- The pixels written so far. -/
  pixels : List (ℕ × ℕ)

def fontHeight : ℕ := 16

def fontWidth : ℕ := 8

def backgroundColor : UInt32 := 0x000000

/-- The conversion of a `uint64_t` to `int`. -/
def intOf (n : ℕ) : ℤ := (BitVec.ofNat 32 n).toInt

/-- The conversion of an `int` to `uint64_t`. -/
def wordOf (n : ℤ) : ℕ := (n % 2 ^ 64).toNat

/-- `for (int i = 0; i < n; i++)`. -/
def forUpTo (n : ℕ) (body : ℕ → Screen → Screen) (s : Screen) : Screen :=
  (List.range n).foldl (fun s i => body i s) s

section Driver

variable (m : VbeModeInfo) (font8x16 : ℕ → ℕ → ℕ)

def videoPutPixel (color : UInt32) (x y : ℕ) (s : Screen) : Screen :=
  let offset := Word64.add (Word64.mul x (m.bpp.toNat / 8)) (Word64.mul y m.pitch.toNat)
  let framebuffer := update s.framebuffer offset (color &&& 0xFF).toUInt8
  let framebuffer := update framebuffer (Word64.add offset 1) ((color >>> 8) &&& 0xFF).toUInt8
  let framebuffer := update framebuffer (Word64.add offset 2) ((color >>> 16) &&& 0xFF).toUInt8
  { s with
    framebuffer := framebuffer
    pixels := s.pixels ++ [(x, y)] }

/-- The bytes of the rows below move up, and the rows at the bottom are cleared. -/
def videoScrollUp (s : Screen) : Screen :=
  let rowBytes := m.pitch.toNat
  let nRows := m.height.toNat
  let shift := Word64.mul fontHeight s.fontScale
  let moveBytes := intOf (Word64.mul (Word64.sub nRows shift) rowBytes)
  let source := Word64.mul shift rowBytes
  let s := { s with
    framebuffer := fun i =>
      if (i : ℤ) < moveBytes then s.framebuffer (source + i) else s.framebuffer i }
  let first := intOf (Word64.sub nRows shift)
  forUpTo (nRows - first).toNat
    (fun row => forUpTo m.width.toNat fun x =>
      videoPutPixel m backgroundColor x (wordOf (first + row))) s

def videoNewLine (s : Screen) : Screen :=
  let s := { s with cursorX := 0 }
  if Word64.add s.cursorY (Word64.mul fontHeight s.fontScale) < m.height.toNat then
    { s with cursorY := Word64.add s.cursorY (Word64.mul fontHeight s.fontScale) }
  else
    let s := videoScrollUp m s
    { s with cursorY := Word64.sub m.height.toNat (Word64.mul fontHeight s.fontScale) }

/-- The loops of `video_backSpace` that erase the glyph at the cursor. -/
def eraseGlyph (s : Screen) : Screen :=
  forUpTo (Word64.mul fontWidth s.fontScale)
    (fun i => forUpTo (Word64.mul fontHeight s.fontScale) fun j s =>
      videoPutPixel m backgroundColor (Word64.add s.cursorX i) (Word64.add s.cursorY j) s) s

def videoBackSpace (s : Screen) : Screen :=
  if Word64.mul fontWidth s.fontScale ≤ s.cursorX then
    eraseGlyph m { s with cursorX := Word64.sub s.cursorX (Word64.mul fontWidth s.fontScale) }
  else if Word64.mul fontHeight s.fontScale ≤ s.cursorY then
    eraseGlyph m
      { s with
        cursorY := Word64.sub s.cursorY (Word64.mul fontHeight s.fontScale)
        cursorX := Word64.sub m.width.toNat (Word64.mul fontWidth s.fontScale) }
  else s

def videoTab (s : Screen) : Screen :=
  let step := Word64.mul (Word64.mul fontWidth s.fontScale) 8
  let s := { s with cursorX := Word64.mul (Word64.add (s.cursorX / step) 1) step }
  if m.width.toNat ≤ s.cursorX then videoNewLine m s else s

/-- The loops of `video_putChar` that draw the glyph at the cursor. -/
def drawGlyph (c : UInt8) (foregroundColor backgroundColor : UInt64) (s : Screen) : Screen :=
  forUpTo fontHeight
    (fun y => forUpTo fontWidth fun x =>
      let color := if font8x16 c.toNat y &&& (1 <<< (7 - x)) ≠ 0 then foregroundColor.toUInt32
        else backgroundColor.toUInt32
      forUpTo s.fontScale fun sy => forUpTo s.fontScale fun sx s =>
        videoPutPixel m color (Word64.add (Word64.add s.cursorX (Word64.mul x s.fontScale)) sx)
          (Word64.add (Word64.add s.cursorY (Word64.mul y s.fontScale)) sy) s) s

/-- `isSpecialChar` is the first three branches. -/
def videoPutChar (c : UInt8) (foregroundColor backgroundColor : UInt64) (s : Screen) : Screen :=
  if c = 10 then videoNewLine m s
  else if c = 8 then videoBackSpace m s
  else if c = 9 then videoTab m s
  else
    let s := drawGlyph m font8x16 c foregroundColor backgroundColor s
    let s := { s with cursorX := Word64.add s.cursorX (Word64.mul fontWidth s.fontScale) }
    if m.width.toNat ≤ s.cursorX then videoNewLine m s else s

def videoClearScreen (s : Screen) : Screen :=
  let s := forUpTo m.height.toNat
    (fun i => forUpTo m.width.toNat fun j => videoPutPixel m backgroundColor j i) s
  { s with
    cursorX := 0
    cursorY := 0 }

inductive VideoCall where
  | putChar (c : UInt8) (foregroundColor backgroundColor : UInt64)
  | newLine
  | clearScreen

def videoExec (s : Screen) : VideoCall → Screen
  | .putChar c fg bg => videoPutChar m font8x16 c fg bg s
  | .newLine => videoNewLine m s
  | .clearScreen => videoClearScreen m s

/-- The calls one after the other. -/
def videoRun (calls : List VideoCall) (s : Screen) : Screen :=
  calls.foldl (videoExec m font8x16) s

end Driver

section Drawing

variable {m : VbeModeInfo} {font8x16 : ℕ → ℕ → ℕ} {s : Screen} {x y scale n : ℕ}
  {P P' : ℕ × ℕ → Prop} {draw draw' : Screen → Screen}

/-- The cursor is at a place, with glyphs of a size. -/
structure At (x y scale : ℕ) (s : Screen) : Prop where
  cursorX : s.cursorX = x
  cursorY : s.cursorY = y
  fontScale : s.fontScale = scale

theorem At.setX {x y scale : ℕ} {s : Screen} (h : At x y scale s) (a : ℕ) :
    At a y scale { s with cursorX := a } ∧ ({ s with cursorX := a } : Screen).pixels = s.pixels :=
  ⟨⟨rfl, h.cursorY, h.fontScale⟩, rfl⟩

theorem At.setY {x y scale : ℕ} {s : Screen} (h : At x y scale s) (a : ℕ) :
    At x a scale { s with cursorY := a } ∧ ({ s with cursorY := a } : Screen).pixels = s.pixels :=
  ⟨⟨h.cursorX, rfl, h.fontScale⟩, rfl⟩

/-- With the cursor at a place, the pixels with a property are drawn and the cursor stays. -/
def Paints (x y scale : ℕ) (P : ℕ × ℕ → Prop) (draw : Screen → Screen) : Prop :=
  ∀ s, At x y scale s → At x y scale (draw s) ∧ ∀ p, p ∈ (draw s).pixels ↔ p ∈ s.pixels ∨ P p

namespace Paints

theorem congr (h : Paints x y scale P draw) (hP : ∀ p, P p ↔ P' p) : Paints x y scale P' draw :=
  fun s hs => ⟨(h s hs).1, fun p => ((h s hs).2 p).trans (or_congr_right (hP p))⟩

/-- Where the cursor is decides what is drawn. -/
theorem at_cursor (h : Paints x y scale P draw) (heq : ∀ s, At x y scale s → draw' s = draw s) :
    Paints x y scale P draw' := by
  intro s hs
  rw [heq s hs]
  exact h s hs

theorem putPixel (color : UInt32) (a b : ℕ) :
    Paints x y scale (· = (a, b)) (videoPutPixel m color a b) :=
  fun _ hs => ⟨⟨hs.cursorX, hs.cursorY, hs.fontScale⟩, fun p => by simp [videoPutPixel]⟩

theorem forUpTo {body : ℕ → Screen → Screen} {Q : ℕ → ℕ × ℕ → Prop}
    (hbody : ∀ i, Paints x y scale (Q i) (body i)) (n : ℕ) :
    Paints x y scale (fun p => ∃ i < n, Q i p) (forUpTo n body) := by
  intro s hs
  induction n with
  | zero => exact ⟨hs, fun p => by simp [Video.forUpTo]⟩
  | succ n ih =>
      obtain ⟨hat, hmem⟩ := ih
      obtain ⟨hat', hmem'⟩ := hbody n _ hat
      rw [Video.forUpTo, List.range_succ, List.foldl_append, List.foldl_cons, List.foldl_nil]
      refine ⟨hat', fun p => ?_⟩
      rw [Video.forUpTo] at hmem hmem'
      rw [hmem', hmem, or_assoc]
      refine or_congr_right ⟨?_, ?_⟩
      · rintro (⟨i, hi, hQ⟩ | hQ)
        · exact ⟨i, hi.trans (Nat.lt_succ_self n), hQ⟩
        · exact ⟨n, Nat.lt_succ_self n, hQ⟩
      · rintro ⟨i, hi, hQ⟩
        rcases Nat.lt_succ_iff_lt_or_eq.mp hi with hi | rfl
        · exact Or.inl ⟨i, hi, hQ⟩
        · exact Or.inr hQ

end Paints

/-- The pixels of a rectangle. -/
def Rect (x y width height : ℕ) (p : ℕ × ℕ) : Prop :=
  (x ≤ p.1 ∧ p.1 < x + width) ∧ y ≤ p.2 ∧ p.2 < y + height

theorem rect_iff {width height : ℕ} (p : ℕ × ℕ) :
    Rect x y width height p ↔ ∃ i < width, ∃ j < height, p = (x + i, y + j) := by
  constructor
  · rintro ⟨⟨hx, hx'⟩, hy, hy'⟩
    exact ⟨p.1 - x, by omega, p.2 - y, by omega, Prod.ext (by dsimp only; omega) (by dsimp only; omega)⟩
  · rintro ⟨i, hi, j, hj, rfl⟩
    exact ⟨⟨by dsimp only; omega, by dsimp only; omega⟩, by dsimp only; omega, by dsimp only; omega⟩

theorem add_small {a b : ℕ} (ha : a < 2 ^ 32) (hb : b < 2 ^ 32) : Word64.add a b = a + b :=
  Word64.add_eq (by omega)

theorem mul_one_small {a : ℕ} (ha : a < 2 ^ 32) : Word64.mul a 1 = a := by
  rw [Word64.mul_eq (by omega), mul_one]

theorem paints_eraseGlyph (hx : x < 2 ^ 32) (hy : y < 2 ^ 32) :
    Paints x y 1 (Rect x y fontWidth fontHeight) (eraseGlyph m) := by
  have hloop : Paints x y 1 (fun p => ∃ i < fontWidth, ∃ j < fontHeight,
      p = (Word64.add x i, Word64.add y j))
      (forUpTo fontWidth fun i => forUpTo fontHeight fun j s =>
        videoPutPixel m backgroundColor (Word64.add s.cursorX i) (Word64.add s.cursorY j) s) := by
    refine .forUpTo (fun i => .forUpTo (fun j => ?_) _) _
    refine (Paints.putPixel (m := m) backgroundColor (Word64.add x i) (Word64.add y j)).at_cursor fun s hs => ?_
    rw [hs.cursorX, hs.cursorY]
  refine (hloop.congr fun p => ?_).at_cursor fun s hs => ?_
  · rw [rect_iff]
    refine exists_congr fun i => and_congr_right fun hi => exists_congr fun j => and_congr_right fun hj => ?_
    unfold fontWidth at hi
    unfold fontHeight at hj
    rw [add_small hx (by omega), add_small hy (by omega)]
  · rw [eraseGlyph, hs.fontScale, mul_one_small (by decide), mul_one_small (by decide)]

theorem paints_drawGlyph (font8x16 : ℕ → ℕ → ℕ) (hx : x < 2 ^ 32) (hy : y < 2 ^ 32) (c : UInt8) (fg bg : UInt64) :
    Paints x y 1 (Rect x y fontWidth fontHeight) (drawGlyph m font8x16 c fg bg) := by
  let color (i j : ℕ) : UInt32 := if font8x16 c.toNat j &&& (1 <<< (7 - i)) ≠ 0 then fg.toUInt32
    else bg.toUInt32
  have hloop : Paints x y 1 (fun p => ∃ j < fontHeight, ∃ i < fontWidth, ∃ sy < 1, ∃ sx < 1,
      p = (Word64.add (Word64.add x (Word64.mul i 1)) sx, Word64.add (Word64.add y (Word64.mul j 1)) sy))
      (forUpTo fontHeight fun j => forUpTo fontWidth fun i => forUpTo 1 fun sy => forUpTo 1 fun sx s =>
        videoPutPixel m (color i j)
          (Word64.add (Word64.add s.cursorX (Word64.mul i s.fontScale)) sx)
          (Word64.add (Word64.add s.cursorY (Word64.mul j s.fontScale)) sy) s) := by
    refine .forUpTo (fun j => .forUpTo (fun i => .forUpTo (fun sy => .forUpTo (fun sx => ?_) _) _) _) _
    refine (Paints.putPixel (m := m) (color i j) _ _).at_cursor fun s hs => ?_
    rw [hs.cursorX, hs.cursorY, hs.fontScale]
  refine (hloop.congr fun p => ?_).at_cursor fun s hs => ?_
  · rw [rect_iff]
    have hpoint : ∀ i < fontWidth, ∀ j < fontHeight,
        (∃ sy < 1, ∃ sx < 1, p = (Word64.add (Word64.add x (Word64.mul i 1)) sx,
          Word64.add (Word64.add y (Word64.mul j 1)) sy)) ↔ p = (x + i, y + j) := by
      intro i hi j hj
      unfold fontWidth at hi
      unfold fontHeight at hj
      rw [mul_one_small (by omega), mul_one_small (by omega), add_small hx (by omega),
        add_small hy (by omega)]
      simp only [Nat.lt_one_iff, exists_eq_left, Word64.add_eq (show x + i + 0 < 2 ^ 64 by omega),
        Word64.add_eq (show y + j + 0 < 2 ^ 64 by omega), add_zero]
    constructor
    · rintro ⟨j, hj, i, hi, hp⟩
      exact ⟨i, hi, j, hj, (hpoint i hi j hj).mp hp⟩
    · rintro ⟨i, hi, j, hj, hp⟩
      exact ⟨j, hj, i, hi, (hpoint i hi j hj).mpr hp⟩
  · rw [drawGlyph, hs.fontScale]

theorem intOf_of_lt (h : n < 2 ^ 31) : intOf n = n := by
  rw [intOf, BitVec.toInt_ofNat', Int.bmod_eq_of_le (by omega) (by omega)]

/-- The rows at the bottom are cleared. -/
theorem paints_videoScrollUp (hheight : fontHeight ≤ m.height.toNat) :
    Paints x y 1 (Rect 0 (m.height.toNat - fontHeight) m.width.toNat fontHeight) (videoScrollUp m) := by
  have hlt : m.height.toNat < 2 ^ 16 := m.height.toNat_lt
  have hfirst : intOf (Word64.sub m.height.toNat (Word64.mul fontHeight 1)) =
      (m.height.toNat - fontHeight : ℕ) := by
    rw [mul_one_small (by decide), Word64.sub_eq hheight (by omega), intOf_of_lt (by omega)]
  have hrow : ∀ row < fontHeight, wordOf ((m.height.toNat - fontHeight : ℕ) + (row : ℕ)) =
      m.height.toNat - fontHeight + row := by
    intro row hrow
    unfold wordOf
    omega
  have hloop : Paints x y 1 (fun p => ∃ row < fontHeight, ∃ i < m.width.toNat,
      p = (i, wordOf ((m.height.toNat - fontHeight : ℕ) + (row : ℕ))))
      (forUpTo fontHeight fun row => forUpTo m.width.toNat fun i =>
        videoPutPixel m backgroundColor i (wordOf ((m.height.toNat - fontHeight : ℕ) + (row : ℕ)))) :=
    .forUpTo (fun row => .forUpTo (fun i => .putPixel _ _ _) _) _
  have hrect : Paints x y 1 (Rect 0 (m.height.toNat - fontHeight) m.width.toNat fontHeight) _ :=
      hloop.congr fun p => by
    rw [rect_iff]
    constructor
    · rintro ⟨j, hj, i, hi, rfl⟩
      exact ⟨i, hi, j, hj, by rw [hrow j hj, zero_add]⟩
    · rintro ⟨i, hi, j, hj, rfl⟩
      exact ⟨j, hj, i, hi, by rw [hrow j hj, zero_add]⟩
  intro s hs
  have hcount : ((m.height.toNat : ℤ) - (m.height.toNat - fontHeight : ℕ)).toNat = fontHeight := by
    omega
  simp only [videoScrollUp, hs.fontScale, hfirst, hcount]
  exact hrect _ ⟨hs.cursorX, hs.cursorY, rfl⟩

/-- The whole screen is cleared. -/
theorem paints_clear :
    Paints x y scale (Rect 0 0 m.width.toNat m.height.toNat)
      (forUpTo m.height.toNat fun i => forUpTo m.width.toNat fun j =>
        videoPutPixel m backgroundColor j i) := by
  have hloop : Paints x y scale (fun p => ∃ i < m.height.toNat, ∃ j < m.width.toNat, p = (j, i))
      (forUpTo m.height.toNat fun i => forUpTo m.width.toNat fun j =>
        videoPutPixel m backgroundColor j i) :=
    .forUpTo (fun i => .forUpTo (fun j => .putPixel _ _ _) _) _
  refine hloop.congr fun p => ?_
  rw [rect_iff]
  simp only [zero_add]
  constructor
  · rintro ⟨i, hi, j, hj, rfl⟩
    exact ⟨j, hj, i, hi, rfl⟩
  · rintro ⟨j, hj, i, hi, rfl⟩
    exact ⟨i, hi, j, hj, rfl⟩

end Drawing

section Calls

variable {m : VbeModeInfo} {font8x16 : ℕ → ℕ → ℕ} {s : Screen} {x y : ℕ}

/-- The screen has room for a glyph. -/
structure Roomy (m : VbeModeInfo) : Prop where
  width : fontWidth ≤ m.width.toNat
  height : fontHeight ≤ m.height.toNat

theorem shift_eq (hs : At x y 1 s) (hy : y < m.height.toNat) :
    Word64.add s.cursorY (Word64.mul fontHeight s.fontScale) = y + fontHeight := by
  have hlt : m.height.toNat < 2 ^ 16 := m.height.toNat_lt
  rw [hs.cursorY, hs.fontScale, mul_one_small (by decide), add_small (by omega) (by decide)]

/-- `video_newLine` with a row left. -/
theorem videoNewLine_down (hs : At x y 1 s) (hy : y + fontHeight < m.height.toNat) :
    At 0 (y + fontHeight) 1 (videoNewLine m s) ∧ (videoNewLine m s).pixels = s.pixels := by
  have hshift := shift_eq hs ((Nat.le_add_right y fontHeight).trans_lt hy)
  have heq : videoNewLine m s =
      { s with
        cursorX := 0
        cursorY := Word64.add s.cursorY (Word64.mul fontHeight s.fontScale) } :=
    if_pos (hshift ▸ hy)
  rw [heq]
  exact ⟨⟨rfl, hshift, hs.fontScale⟩, rfl⟩

/-- `video_newLine` in the last row. -/
theorem videoNewLine_scroll (hm : Roomy m) (hs : At x y 1 s) (hy : y < m.height.toNat)
    (hlast : m.height.toNat ≤ y + fontHeight) :
    At 0 (m.height.toNat - fontHeight) 1 (videoNewLine m s) ∧
      ∀ p, p ∈ (videoNewLine m s).pixels ↔ p ∈ s.pixels ∨
        Rect 0 (m.height.toNat - fontHeight) m.width.toNat fontHeight p := by
  have hlt : m.height.toNat < 2 ^ 16 := m.height.toNat_lt
  have hshift := shift_eq hs hy
  have heq : videoNewLine m s =
      { videoScrollUp m { s with cursorX := 0 } with
        cursorY := Word64.sub m.height.toNat
          (Word64.mul fontHeight (videoScrollUp m { s with cursorX := 0 }).fontScale) } :=
    if_neg (not_lt.mpr (hshift ▸ hlast))
  obtain ⟨hat, hmem⟩ := paints_videoScrollUp (x := 0) (y := y) hm.height { s with cursorX := 0 }
    ⟨rfl, hs.cursorY, hs.fontScale⟩
  -- only the cursor and the pixels of the scrolled screen matter
  generalize videoScrollUp m { s with cursorX := 0 } = t at heq hat hmem
  have hrow : Word64.sub m.height.toNat (Word64.mul fontHeight t.fontScale) =
      m.height.toNat - fontHeight := by
    rw [hat.fontScale, mul_one_small (by decide), Word64.sub_eq hm.height (by omega)]
  obtain ⟨hat', hpixels⟩ := hat.setY (m.height.toNat - fontHeight)
  rw [heq, hrow]
  refine ⟨hat', fun p => ?_⟩
  rw [hpixels]
  exact hmem p

/-- Every pixel that was written is on the screen. -/
def OnScreen (m : VbeModeInfo) (s : Screen) : Prop :=
  ∀ p ∈ s.pixels, p.1 < m.width.toNat ∧ p.2 < m.height.toNat

/-- The cursor is at a place for a whole glyph, in a grid of glyphs. -/
structure Inside (m : VbeModeInfo) (s : Screen) : Prop where
  scale : s.fontScale = 1
  column : fontWidth ∣ s.cursorX
  width : s.cursorX < m.width.toNat
  row : fontHeight ∣ s.cursorY
  height : s.cursorY < m.height.toNat
  pixels : OnScreen m s

/-- The grid fills the screen. -/
structure Grid (m : VbeModeInfo) : Prop where
  roomy : Roomy m
  width : fontWidth ∣ m.width.toNat
  height : fontHeight ∣ m.height.toNat

theorem Grid.rect (hg : Grid m) (hx : fontWidth ∣ x) (hxw : x < m.width.toNat) (hy : fontHeight ∣ y)
    (hyh : y < m.height.toNat) {p : ℕ × ℕ} (hp : Rect x y fontWidth fontHeight p) :
    p.1 < m.width.toNat ∧ p.2 < m.height.toNat := by
  have hwidth := hg.width
  have hheight := hg.height
  obtain ⟨⟨-, hp₁⟩, -, hp₂⟩ := hp
  unfold fontWidth at *
  unfold fontHeight at *
  omega

/-- `video_newLine`, from any column. -/
theorem Grid.newLine (hg : Grid m) (hscale : s.fontScale = 1) (hrow : fontHeight ∣ s.cursorY)
    (hheight : s.cursorY < m.height.toNat) (hpixels : OnScreen m s) : Inside m (videoNewLine m s) := by
  have hat : At s.cursorX s.cursorY 1 s := ⟨rfl, rfl, hscale⟩
  have hroomy := hg.roomy
  have hwide : 0 < m.width.toNat := lt_of_lt_of_le (by decide) hroomy.width
  by_cases hroom : s.cursorY + fontHeight < m.height.toNat
  · obtain ⟨hplace, hsame⟩ := videoNewLine_down hat hroom
    refine ⟨hplace.fontScale, ?_, ?_, ?_, ?_, ?_⟩
    · rw [hplace.cursorX]
      exact dvd_zero _
    · rw [hplace.cursorX]
      exact hwide
    · rw [hplace.cursorY]
      exact dvd_add hrow dvd_rfl
    · rw [hplace.cursorY]
      exact hroom
    · rw [OnScreen, hsame]
      exact hpixels
  · obtain ⟨hplace, hmem⟩ := videoNewLine_scroll hroomy hat hheight (not_lt.mp hroom)
    have htall := hroomy.height
    have hpos : 0 < fontHeight := by decide
    refine ⟨hplace.fontScale, ?_, ?_, ?_, ?_, fun p hp => ?_⟩
    · rw [hplace.cursorX]
      exact dvd_zero _
    · rw [hplace.cursorX]
      exact hwide
    · rw [hplace.cursorY]
      exact Nat.dvd_sub hg.height dvd_rfl
    · rw [hplace.cursorY]
      omega
    · rcases (hmem p).mp hp with hold | ⟨⟨-, h₁⟩, -, h₂⟩
      · exact hpixels p hold
      · exact ⟨by omega, by omega⟩

/-- A place of the grid on the screen. -/
structure Place (m : VbeModeInfo) (x y : ℕ) : Prop where
  column : fontWidth ∣ x
  width : x < m.width.toNat
  row : fontHeight ∣ y
  height : y < m.height.toNat

theorem Place.inside (h : Place m x y) (hat : At x y 1 s) (hpixels : OnScreen m s) : Inside m s := by
  obtain ⟨hx, hy, hscale⟩ := hat
  subst hx hy
  exact ⟨hscale, h.column, h.width, h.row, h.height, hpixels⟩

theorem Place.small (h : Place m x y) : x < 2 ^ 32 ∧ y < 2 ^ 32 := by
  have hw : m.width.toNat < 2 ^ 16 := m.width.toNat_lt
  have hh : m.height.toNat < 2 ^ 16 := m.height.toNat_lt
  have hx := h.width
  have hy := h.height
  omega

theorem Inside.place (h : Inside m s) : Place m s.cursorX s.cursorY :=
  ⟨h.column, h.width, h.row, h.height⟩

/-- A glyph that is drawn or erased at a place of the grid. -/
theorem Place.paint (h : Place m x y) (hg : Grid m) {draw : Screen → Screen} (hat : At x y 1 s)
    (hpixels : OnScreen m s) (hdraw : Paints x y 1 (Rect x y fontWidth fontHeight) draw) :
    At x y 1 (draw s) ∧ OnScreen m (draw s) := by
  obtain ⟨hat', hmem⟩ := hdraw s hat
  refine ⟨hat', fun p hp => ?_⟩
  rcases (hmem p).mp hp with hold | hnew
  · exact hpixels p hold
  · exact hg.rect h.column h.width h.row h.height hnew

theorem Place.erase (h : Place m x y) (hg : Grid m) (hat : At x y 1 s) (hpixels : OnScreen m s) :
    Inside m (eraseGlyph m s) := by
  obtain ⟨hat', hpixels'⟩ := h.paint hg hat hpixels (paints_eraseGlyph h.small.1 h.small.2)
  exact h.inside hat' hpixels'

/-- The cursor goes to a column of the grid, or to the next line. -/
theorem Grid.advance (hg : Grid m) (hat : At x y 1 s) (hy : fontHeight ∣ y) (hyh : y < m.height.toNat)
    (hpixels : OnScreen m s) {a : ℕ} (ha : fontWidth ∣ a) :
    Inside m (if m.width.toNat ≤ a then videoNewLine m { s with cursorX := a }
      else { s with cursorX := a }) := by
  obtain ⟨hat', hsame⟩ := hat.setX a
  have hpixels' : OnScreen m { s with cursorX := a } := by
    rw [OnScreen, hsame]
    exact hpixels
  split
  · refine hg.newLine hat'.fontScale ?_ ?_ hpixels'
    · rw [hat'.cursorY]
      exact hy
    · rw [hat'.cursorY]
      exact hyh
  · rename_i hlt
    exact Place.inside ⟨ha, not_le.mp hlt, hy, hyh⟩ hat' hpixels'

theorem Inside.backSpace (hg : Grid m) (h : Inside m s) : Inside m (videoBackSpace m s) := by
  obtain ⟨hx, hy⟩ := h.place.small
  have hwidth : Word64.mul fontWidth s.fontScale = fontWidth := by
    rw [h.scale, mul_one_small (by decide)]
  have hheight : Word64.mul fontHeight s.fontScale = fontHeight := by
    rw [h.scale, mul_one_small (by decide)]
  have hwide := hg.roomy.width
  have hpos : 0 < fontWidth := by decide
  have hlt : m.width.toNat < 2 ^ 16 := m.width.toNat_lt
  have hat : At s.cursorX s.cursorY 1 s := ⟨rfl, rfl, h.scale⟩
  unfold videoBackSpace
  rw [hwidth, hheight]
  split
  · rename_i hroom
    rw [Word64.sub_eq hroom (by omega)]
    obtain ⟨hat', hsame⟩ := hat.setX (s.cursorX - fontWidth)
    refine Place.erase ⟨Nat.dvd_sub h.column dvd_rfl, (Nat.sub_le _ _).trans_lt h.width, h.row, h.height⟩
      hg hat' ?_
    rw [OnScreen, hsame]
    exact h.pixels
  · split
    · rename_i hroom
      rw [Word64.sub_eq hroom (by omega), Word64.sub_eq hwide (by omega)]
      obtain ⟨hat', hsame⟩ := hat.setY (s.cursorY - fontHeight)
      obtain ⟨hat'', hsame'⟩ := hat'.setX (m.width.toNat - fontWidth)
      refine Place.erase ⟨Nat.dvd_sub hg.width dvd_rfl, by omega, Nat.dvd_sub h.row dvd_rfl,
        (Nat.sub_le _ _).trans_lt h.height⟩ hg hat'' ?_
      rw [OnScreen, hsame', hsame]
      exact h.pixels
    · exact h

theorem Inside.tab (hg : Grid m) (h : Inside m s) : Inside m (videoTab m s) := by
  obtain ⟨hx, -⟩ := h.place.small
  have hstep : Word64.mul (Word64.mul fontWidth s.fontScale) 8 = 64 := by
    rw [h.scale]
    decide
  have hcol : Word64.mul (Word64.add (s.cursorX / 64) 1) 64 = (s.cursorX / 64 + 1) * 64 := by
    rw [Word64.add_eq (by omega), Word64.mul_eq (by omega)]
  simp only [videoTab, hstep, hcol]
  refine hg.advance ⟨rfl, rfl, h.scale⟩ h.row h.height h.pixels ?_
  exact Dvd.dvd.mul_left (by decide) _

theorem nextColumn (hat : At x y 1 s) (hx : x < 2 ^ 32) :
    Word64.add s.cursorX (Word64.mul fontWidth s.fontScale) = x + fontWidth := by
  rw [hat.cursorX, hat.fontScale, mul_one_small (by decide), add_small hx (by decide)]

theorem Inside.putChar (hg : Grid m) (h : Inside m s) (c : UInt8) (fg bg : UInt64) :
    Inside m (videoPutChar m font8x16 c fg bg s) := by
  obtain ⟨hx, hy⟩ := h.place.small
  unfold videoPutChar
  split
  · exact hg.newLine h.scale h.row h.height h.pixels
  · split
    · exact h.backSpace hg
    · split
      · exact h.tab hg
      · obtain ⟨hat, hpixels⟩ := h.place.paint hg ⟨rfl, rfl, h.scale⟩ h.pixels
          (paints_drawGlyph (m := m) font8x16 hx hy c fg bg)
        dsimp only
        generalize drawGlyph m font8x16 c fg bg s = t at hat hpixels
        rw [nextColumn hat hx]
        exact hg.advance hat h.row h.height hpixels (dvd_add h.column dvd_rfl)

theorem Inside.clearScreen (hg : Grid m) (h : Inside m s) : Inside m (videoClearScreen m s) := by
  have hwide : 0 < m.width.toNat := lt_of_lt_of_le (by decide) hg.roomy.width
  have htall : 0 < m.height.toNat := lt_of_lt_of_le (by decide) hg.roomy.height
  obtain ⟨hat, hmem⟩ := paints_clear (m := m) s ⟨rfl, rfl, h.scale⟩
  refine ⟨hat.fontScale, dvd_zero _, hwide, dvd_zero _, htall, fun p hp => ?_⟩
  rcases (hmem p).mp hp with hold | ⟨⟨-, h₁⟩, -, h₂⟩
  · exact h.pixels p hold
  · exact ⟨by omega, by omega⟩

theorem Inside.exec (hg : Grid m) (h : Inside m s) (call : VideoCall) :
    Inside m (videoExec m font8x16 s call) := by
  cases call with
  | putChar c fg bg => exact h.putChar hg c fg bg
  | newLine => exact hg.newLine h.scale h.row h.height h.pixels
  | clearScreen => exact h.clearScreen hg

theorem Inside.run (hg : Grid m) (h : Inside m s) (calls : List VideoCall) :
    Inside m (videoRun m font8x16 calls s) := by
  induction calls generalizing s with
  | nil => exact h
  | cons call calls ih => exact ih (h.exec hg call)

end Calls

section Overflow

variable {m : VbeModeInfo} {font8x16 : ℕ → ℕ → ℕ} {s : Screen} {x y : ℕ}

/-- A character other than newline, backspace and tab. -/
def Glyph (c : UInt8) : Prop := c ≠ 10 ∧ c ≠ 8 ∧ c ≠ 9

theorem videoPutChar_glyph (font8x16 : ℕ → ℕ → ℕ) {c : UInt8} (hc : Glyph c) (fg bg : UInt64) (hat : At x y 1 s)
    (hx : x < 2 ^ 32) (hy : y < 2 ^ 32) :
    ∃ t, At x y 1 t ∧ (∀ p, p ∈ t.pixels ↔ p ∈ s.pixels ∨ Rect x y fontWidth fontHeight p) ∧
      videoPutChar m font8x16 c fg bg s =
        if m.width.toNat ≤ x + fontWidth then videoNewLine m { t with cursorX := x + fontWidth }
        else { t with cursorX := x + fontWidth } := by
  obtain ⟨hat', hmem⟩ := paints_drawGlyph (m := m) font8x16 hx hy c fg bg s hat
  refine ⟨_, hat', hmem, ?_⟩
  rw [videoPutChar, if_neg hc.1, if_neg hc.2.1, if_neg hc.2.2]
  dsimp only
  rw [nextColumn hat' hx]

/-- The pixels of a line feed stay. -/
theorem videoNewLine_keeps (hm : Roomy m) (hat : At x y 1 s) (hy : y < m.height.toNat) (p : ℕ × ℕ)
    (hp : p ∈ s.pixels) : p ∈ (videoNewLine m s).pixels := by
  by_cases hroom : y + fontHeight < m.height.toNat
  · rw [(videoNewLine_down hat hroom).2]
    exact hp
  · exact ((videoNewLine_scroll hm hat hy (not_lt.mp hroom)).2 p).mpr (Or.inl hp)

/-- The last pixel of a glyph that is drawn in a row of the screen. -/
theorem videoPutChar_corner (font8x16 : ℕ → ℕ → ℕ) (hm : Roomy m) {c : UInt8} (hc : Glyph c) (fg bg : UInt64)
    (hat : At x y 1 s) (hx : x < 2 ^ 32) (hy : y < m.height.toNat) :
    (x + 7, y + 15) ∈ (videoPutChar m font8x16 c fg bg s).pixels := by
  have hh : m.height.toNat < 2 ^ 16 := m.height.toNat_lt
  obtain ⟨t, hat', hmem, heq⟩ := videoPutChar_glyph (m := m) font8x16 hc fg bg hat hx
    (by omega)
  have hcorner : (x + 7, y + 15) ∈ t.pixels := by
    refine (hmem _).mpr (Or.inr ⟨⟨?_, ?_⟩, ?_, ?_⟩) <;> simp [fontWidth, fontHeight]
  obtain ⟨hmoved, hsame⟩ := hat'.setX (x + fontWidth)
  rw [heq]
  split
  · refine videoNewLine_keeps hm hmoved hy _ ?_
    rw [hsame]
    exact hcorner
  · rw [hsame]
    exact hcorner

/-- Characters in the first line, up to the last column that starts on the screen. -/
theorem typed_line (font8x16 : ℕ → ℕ → ℕ) {c : UInt8} (hc : Glyph c) (hs : At 0 0 1 s) {k : ℕ}
    (hk : k * fontWidth < m.width.toNat) :
    At (k * fontWidth) 0 1 (videoRun m font8x16 (List.replicate k (.putChar c 0 0)) s) := by
  have hw : m.width.toNat < 2 ^ 16 := m.width.toNat_lt
  induction k with
  | zero =>
      rw [zero_mul]
      exact hs
  | succ k ih =>
      rw [Nat.succ_mul] at hk
      have hat := ih (by omega)
      obtain ⟨t, hat', -, heq⟩ := videoPutChar_glyph (m := m) font8x16 hc 0 0 hat
        (by omega) (by decide)
      rw [if_neg (not_le.mpr hk)] at heq
      rw [List.replicate_succ', videoRun, List.foldl_append, List.foldl_cons, List.foldl_nil, ← videoRun,
        videoExec, heq, Nat.succ_mul]
      exact (hat'.setX _).1

/-- Line feeds, down to the last row that starts on the screen. -/
theorem fed_lines (font8x16 : ℕ → ℕ → ℕ) (hs : At 0 0 1 s) {k : ℕ} (hk : k * fontHeight < m.height.toNat) :
    At 0 (k * fontHeight) 1 (videoRun m font8x16 (List.replicate k .newLine) s) := by
  induction k with
  | zero =>
      rw [zero_mul]
      exact hs
  | succ k ih =>
      rw [Nat.succ_mul] at hk
      rw [List.replicate_succ', videoRun, List.foldl_append, List.foldl_cons, List.foldl_nil, ← videoRun,
        videoExec, Nat.succ_mul]
      exact (videoNewLine_down (ih (by omega)) hk).1

/-- One more character at the end of a line. -/
theorem line_corner (font8x16 : ℕ → ℕ → ℕ) (hm : Roomy m) {c : UInt8} (hc : Glyph c) (hs : At 0 0 1 s) {k : ℕ}
    (hk : k * fontWidth < m.width.toNat) :
    (k * fontWidth + 7, 15) ∈ (videoRun m font8x16
      (List.replicate k (.putChar c 0 0) ++ [.putChar c 0 0]) s).pixels := by
  have hw : m.width.toNat < 2 ^ 16 := m.width.toNat_lt
  have htall : 0 < m.height.toNat := lt_of_lt_of_le (by decide) hm.height
  have hcorner := videoPutChar_corner font8x16 hm hc 0 0
    (typed_line font8x16 hc hs hk) (by omega) htall
  rw [videoRun, List.foldl_append]
  rwa [zero_add] at hcorner

/-- A character after line feeds. -/
theorem lines_corner (font8x16 : ℕ → ℕ → ℕ) (hm : Roomy m) {c : UInt8} (hc : Glyph c) (hs : At 0 0 1 s) {k : ℕ}
    (hk : k * fontHeight < m.height.toNat) :
    (7, k * fontHeight + 15) ∈ (videoRun m font8x16
      (List.replicate k .newLine ++ [.putChar c 0 0]) s).pixels := by
  have hcorner := videoPutChar_corner font8x16 hm hc 0 0
    (fed_lines font8x16 hs hk) (by decide) hk
  rw [videoRun, List.foldl_append]
  rwa [zero_add] at hcorner

/-- Printable characters, newline, tab and backspace. -/
def Text : VideoCall → Prop
  | .putChar c _ _ => (0x20 ≤ c ∧ c < 0x7F) ∨ c = 10 ∨ c = 9 ∨ c = 8
  | _ => True

/-- A screen at the start: nothing is written. -/
def blankScreen : Screen := ⟨0, 0, 1, fun _ => 0, []⟩

/-- Text stays on the screen exactly when the size of a glyph divides the size of the screen. -/
theorem text_on_screen_iff (m : VbeModeInfo) (font8x16 : ℕ → ℕ → ℕ) (hwidth : 8 ≤ m.width.toNat)
    (hheight : 16 ≤ m.height.toNat) :
    (∀ calls, (∀ call ∈ calls, Text call) → OnScreen m (videoRun m font8x16 calls blankScreen)) ↔
      8 ∣ m.width.toNat ∧ 16 ∣ m.height.toNat := by
  have hm : Roomy m := ⟨hwidth, hheight⟩
  have hs : At 0 0 1 blankScreen := ⟨rfl, rfl, rfl⟩
  have hc : Glyph 65 := ⟨by decide, by decide, by decide⟩
  have hletter : Text (.putChar 65 0 0) := Or.inl ⟨by decide, by decide⟩
  constructor
  · intro h
    constructor
    · by_contra hdvd
      -- the line is filled up to a column with less room than a glyph
      have hcorner := line_corner font8x16 hm hc hs (k := m.width.toNat / 8)
        (by unfold fontWidth; omega)
      have hlt := (h _ (fun call hcall => ?_) _ hcorner).1
      · unfold fontWidth at hlt
        omega
      · rcases List.mem_append.mp hcall with hin | hin
        · rw [List.eq_of_mem_replicate hin]
          exact hletter
        · rw [List.mem_singleton.mp hin]
          exact hletter
    · by_contra hdvd
      have hcorner := lines_corner font8x16 hm hc hs (k := m.height.toNat / 16)
        (by unfold fontHeight; omega)
      have hlt := (h _ (fun call hcall => ?_) _ hcorner).2
      · unfold fontHeight at hlt
        omega
      · rcases List.mem_append.mp hcall with hin | hin
        · rw [List.eq_of_mem_replicate hin]
          exact trivial
        · rw [List.mem_singleton.mp hin]
          exact hletter
  · rintro ⟨hdw, hdh⟩ calls -
    have hplace : Place m 0 0 := ⟨dvd_zero _, by omega, dvd_zero _, by omega⟩
    have hinside := hplace.inside hs fun p hp => absurd hp List.not_mem_nil
    exact (hinside.run ⟨hm, hdw, hdh⟩ calls).pixels

/-- The first mode that the boot loader looks for. -/
def preferredMode : VbeModeInfo := ⟨3072, 1024, 768, 24⟩

/-- The theorem at the preferred mode. -/
theorem text_on_screen_preferred :
    (8 ∣ preferredMode.width.toNat ∧ 16 ∣ preferredMode.height.toNat) ∧
      ∀ calls, (∀ call ∈ calls, Text call) →
        OnScreen preferredMode (videoRun preferredMode (fun _ _ => 0xFF) calls blankScreen) :=
  have hdvd : 8 ∣ preferredMode.width.toNat ∧ 16 ∣ preferredMode.height.toNat := by decide
  ⟨hdvd, (text_on_screen_iff preferredMode (fun _ _ => 0xFF) (by decide) (by decide)).mpr hdvd⟩

/-- In the mode with 1366 columns the 171st letter of a line reaches column 1367; in the mode
with 600 rows a letter after 37 line feeds reaches row 607. -/
theorem text_leaves_screen :
    ((1367, 15) ∈ (videoRun ⟨5464, 1366, 768, 32⟩ (fun _ _ => 0xFF)
      (List.replicate 170 (.putChar 65 0 0) ++ [.putChar 65 0 0]) blankScreen).pixels ∧
      ¬OnScreen ⟨5464, 1366, 768, 32⟩ (videoRun ⟨5464, 1366, 768, 32⟩ (fun _ _ => 0xFF)
        (List.replicate 170 (.putChar 65 0 0) ++ [.putChar 65 0 0]) blankScreen)) ∧
    (7, 607) ∈ (videoRun ⟨4096, 1024, 600, 32⟩ (fun _ _ => 0xFF)
      (List.replicate 37 .newLine ++ [.putChar 65 0 0]) blankScreen).pixels := by
  have hs : At 0 0 1 blankScreen := ⟨rfl, rfl, rfl⟩
  have hc : Glyph 65 := ⟨by decide, by decide, by decide⟩
  have hwide := line_corner (m := ⟨5464, 1366, 768, 32⟩) (fun _ _ => 0xFF)
    ⟨by decide, by decide⟩ hc hs (k := 170) (by decide)
  have htall := lines_corner (m := ⟨4096, 1024, 600, 32⟩) (fun _ _ => 0xFF)
    ⟨by decide, by decide⟩ hc hs (k := 37) (by decide)
  refine ⟨⟨hwide, fun hon => ?_⟩, htall⟩
  exact absurd (hon _ hwide).1 (by decide)

end Overflow
end SoKernel.Video
