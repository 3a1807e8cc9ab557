import SoKernel.Lib.Dyadic
import SoKernel.Lib.LinkedRing
import SoKernel.Mm.Buddy.Basic

/-!
# Block layouts of the buddy memory manager

The abstract state is the list of dyadic blocks in address order, in units of the base
block, with the order of the free list of each level. A block is free and listed, or
allocated, or held: a held block is being cut, merged or set up by a call, is in no
list, and nothing is assumed about its header. `Layout` relates memory to the blocks;
`Represents` adds what holds between calls: no block is held, and no two buddies below
the top level are both free.
-/

namespace SoKernel.Mm.Buddy

open Function (update)
open LinkedRing (Ring)
open Tiling (Tiles)

inductive Status where
  | free
  | allocated
  | held
  deriving DecidableEq, Repr

/-- A block of `2 ^ level` base blocks, the first of which is number `index`. -/
structure Block where
  index : ℕ
  level : ℕ
  status : Status
  deriving DecidableEq, Repr

/-- `BASE_BLOCK_SIZE` after a successful `mm_init`. -/
def unitBytes : ℕ := 64

/-- The address of the base block number `n`. -/
def unitAddress (lo n : ℕ) : ℕ := lo + unitBytes * n

def Block.address (lo : ℕ) (b : Block) : ℕ := unitAddress lo b.index

def Block.units (b : Block) : ℕ := 2 ^ b.level

/-- The free list of one level, closed at both ends by the null pointer. -/
def FreeRing (h : Heap) (level : ℕ) (addresses : List ℕ) : Prop :=
  ∃ last, Ring (update h.next 0 (h.freeLists level)) (update h.prev 0 last) 0 addresses

/-- The blocks tile the first `count` base blocks at `lo`, memory holds their headers,
and the free lists hold exactly the free ones. -/
structure Layout (lo count maxLevel : ℕ) (h : Heap) (blocks : List Block)
    (lists : ℕ → List ℕ) : Prop where
  low_pos : 0 < lo
  high_le : lo + unitBytes * count ≤ 2 ^ 64
  maxLevel_lt : maxLevel < mmMaxLevels
  tiles : Tiles Block.index Block.units 0 count blocks
  aligned : ∀ b ∈ blocks, 2 ^ b.level ∣ b.index
  level_le : ∀ b ∈ blocks, b.level ≤ maxLevel
  header : ∀ b ∈ blocks, b.status ≠ .held → h.level (b.address lo) = b.level
  free_flag : ∀ b ∈ blocks, b.status = .free → h.isFree (b.address lo) = 1
  allocated_flag : ∀ b ∈ blocks, b.status = .allocated → h.isFree (b.address lo) = 0
  ring : ∀ l < mmMaxLevels, FreeRing h l (lists l)
  mem_lists : ∀ l < mmMaxLevels, ∀ a, a ∈ lists l ↔
    ∃ b ∈ blocks, b.address lo = a ∧ b.level = l ∧ b.status = .free

/-- The size of a block of the last level. -/
def topBytes : ℕ := unitBytes * 2 ^ (mmMaxLevels - 1)

/-- The static variables set by `mm_init` for a region of `usable` bytes at `lo`. -/
structure Statics (lo usable maxLevel : ℕ) (h : Heap) : Prop where
  heapBase : h.heapBase = lo
  heapUsableBytes : h.heapUsableBytes = usable
  baseBlockSize : h.baseBlockSize = unitBytes
  maxLevel : h.maxLevel = maxLevel
  extent_lt : usable + topBytes < 2 ^ 64
  initialized : h.mmInitializedFlag = true

/-- `b` and `c` are the two halves of one block. -/
def Buddies (b c : Block) : Prop := b.level = c.level ∧ c.index = Dyadic.buddy b.index b.level

/-- No two buddies below the top level are both free. -/
def Apart (maxLevel : ℕ) (blocks : List Block) : Prop :=
  ∀ b ∈ blocks, ∀ c ∈ blocks, b.level < maxLevel → Buddies b c →
    ¬(b.status = .free ∧ c.status = .free)

/-- The state between two calls of the manager. -/
structure Represents (lo usable maxLevel : ℕ) (h : Heap) (blocks : List Block)
    (lists : ℕ → List ℕ) : Prop where
  layout : Layout lo (usable / unitBytes) maxLevel h blocks lists
  statics : Statics lo usable maxLevel h
  none_held : ∀ b ∈ blocks, b.status ≠ .held
  apart : Apart maxLevel blocks

variable {lo count maxLevel l : ℕ} {h h' : Heap} {blocks left right : List Block} {b c : Block}
variable {lists : ℕ → List ℕ}

@[simp] theorem unitAddress_inj {lo m n : ℕ} : unitAddress lo m = unitAddress lo n ↔ m = n := by
  simp [unitAddress, unitBytes]

theorem units_pos (b : Block) : 0 < b.units := Nat.two_pow_pos b.level

namespace FreeRing

variable {a : ℕ} {L : List ℕ}

/-- Only the list head and the links of the listed blocks matter. -/
theorem congr (F : FreeRing h l L) (hhead : h'.freeLists l = h.freeLists l)
    (hn : ∀ a ∈ L, h'.next a = h.next a) (hp : ∀ a ∈ L, h'.prev a = h.prev a) :
    FreeRing h' l L := by
  obtain ⟨last, hring⟩ := F
  have hzero : 0 ∉ L := hring.anchor_not_mem
  refine ⟨last, hring.congr ?_ ?_⟩
  · intro a ha
    cases List.mem_cons.mp ha with
    | inl hz => simp [hz, hhead]
    | inr hm =>
        have hne : a ≠ 0 := fun hz => hzero (hz ▸ hm)
        simp [hne, hn a hm]
  · intro a ha
    cases List.mem_cons.mp ha with
    | inl hz => simp [hz]
    | inr hm =>
        have hne : a ≠ 0 := fun hz => hzero (hz ▸ hm)
        simp [hne, hp a hm]

theorem nodup (F : FreeRing h l L) : L.Nodup := by
  obtain ⟨last, hring⟩ := F
  exact hring.nodup

theorem ne_zero (F : FreeRing h l L) (ha : a ∈ L) : a ≠ 0 := by
  obtain ⟨last, hring⟩ := F
  exact fun hz => hring.anchor_not_mem (hz ▸ ha)

theorem head_eq (F : FreeRing h l L) : h.freeLists l = L.head?.getD 0 := by
  obtain ⟨last, hring⟩ := F
  simpa using hring.nx_anchor

/-- What `push_free` writes links the block in front. -/
theorem push (F : FreeRing h l L) (ha : a ∉ L) (hz : a ≠ 0)
    (hhead : h'.freeLists l = a) (hnext : h'.next = update h.next a (h.freeLists l))
    (hprev : h'.prev = if h.freeLists l ≠ 0 then
        update (update h.prev a 0) (h.freeLists l) a
      else update h.prev a 0) :
    FreeRing h' l (a :: L) := by
  have hold := F.head_eq
  obtain ⟨last, hring⟩ := F
  have hhd : h.freeLists l ≠ a := by
    intro heq
    rw [hold] at heq
    cases L with
    | nil => exact hz heq.symm
    | cons x L => exact ha (by simp [show x = a from heq])
  refine ⟨if h.freeLists l = 0 then a else last, hring.insertFront ?_ ?_ ?_ ?_ ?_ ?_ ?_⟩
  · simpa using ⟨hz, ha⟩
  · simpa using hhead
  · by_cases hf : h.freeLists l = 0
    · simp [hprev, hf, hz]
    · simp [hprev, hf, hz, hhd.symm]
  · simp [hnext, hz]
  · by_cases hf : h.freeLists l = 0
    · simp [hf]
    · simp [hprev, hf]
  · intro y hy hya
    simp [hnext, hy, hya]
  · intro y hy hya
    simp only [Function.update_self] at hy
    by_cases hf : h.freeLists l = 0
    · rw [hf] at hy
      simp [hprev, hf, hy, hya]
    · by_cases hy0 : y = 0
      · simp [hy0, hf]
      · simp [hprev, hf, hy, hya, hy0]

theorem next_eq {A B : List ℕ} (F : FreeRing h l (A ++ a :: B)) :
    h.next a = B.head?.getD 0 := by
  have hz := F.ne_zero (a := a) (by simp)
  obtain ⟨last, hring⟩ := F
  simpa [hz] using hring.nx_node

theorem prev_eq {A B : List ℕ} (F : FreeRing h l (A ++ a :: B)) :
    h.prev a = A.getLast?.getD 0 := by
  have hz := F.ne_zero (a := a) (by simp)
  obtain ⟨last, hring⟩ := F
  simpa [hz] using hring.pv_node

/-- Unlinking a block: its predecessor, which is the list head or a block, is made to
point past it, and so is its successor if there is one. -/
theorem unlink {A B : List ℕ} (F : FreeRing h l (A ++ a :: B))
    (hfirst : h.prev a = 0 → h'.freeLists l = h.next a)
    (hlater : h.prev a ≠ 0 → h'.freeLists l = h.freeLists l ∧ h'.next (h.prev a) = h.next a)
    (hback : h.next a ≠ 0 → h'.prev (h.next a) = h.prev a)
    (hn : ∀ y, y ≠ h.prev a → y ≠ a → h'.next y = h.next y)
    (hp : ∀ y, y ≠ h.next a → y ≠ a → h'.prev y = h.prev y) :
    FreeRing h' l (A ++ B) := by
  have hz := F.ne_zero (a := a) (by simp)
  obtain ⟨last, hring⟩ := F
  have hnx : update h.next 0 (h.freeLists l) a = h.next a := by simp [hz]
  have hpv : update h.prev 0 last a = h.prev a := by simp [hz]
  refine ⟨if h.next a = 0 then h.prev a else last, hring.remove ?_ ?_ ?_ ?_⟩
  · rw [hnx, hpv]
    by_cases h0 : h.prev a = 0
    · simp [h0, hfirst h0]
    · simp [h0, (hlater h0).2]
  · rw [hnx, hpv]
    by_cases h0 : h.next a = 0
    · simp [h0]
    · simp [h0, hback h0]
  · intro y hy hya
    rw [hpv] at hy
    by_cases hy0 : y = 0
    · subst hy0
      simp [(hlater (Ne.symm hy)).1]
    · simp [hy0, hn y hy hya]
  · intro y hy hya
    rw [hnx] at hy
    by_cases hy0 : y = 0
    · subst hy0
      simp [Ne.symm hy]
    · simp [hy0, hp y hy hya]

end FreeRing

namespace Layout

theorem bounds (Y : Layout lo count maxLevel h blocks lists) (hb : b ∈ blocks) :
    b.index + b.units ≤ count := (Y.tiles.bounds hb).2

/-- The header and the end of a block are addresses of the heap. -/
theorem address_bounds (Y : Layout lo count maxLevel h blocks lists) (hb : b ∈ blocks) :
    lo ≤ b.address lo ∧ b.address lo + unitBytes * b.units ≤ lo + unitBytes * count := by
  have hbound := Nat.mul_le_mul_left unitBytes (Y.bounds hb)
  rw [Nat.mul_add] at hbound
  unfold Block.address unitAddress
  omega

theorem address_pos (Y : Layout lo count maxLevel h blocks lists) (hb : b ∈ blocks) :
    0 < b.address lo := lt_of_lt_of_le Y.low_pos (Y.address_bounds hb).1

theorem index_injective (Y : Layout lo count maxLevel h blocks lists) (hb : b ∈ blocks)
    (hc : c ∈ blocks) (heq : b.index = c.index) : b = c :=
  Y.tiles.start_injective (fun x _ => units_pos x) hb hc heq

theorem address_injective (Y : Layout lo count maxLevel h blocks lists) (hb : b ∈ blocks)
    (hc : c ∈ blocks) (heq : b.address lo = c.address lo) : b = c :=
  Y.index_injective hb hc (unitAddress_inj.mp heq)

theorem level_lt (Y : Layout lo count maxLevel h blocks lists) (hb : b ∈ blocks) :
    b.level < mmMaxLevels := lt_of_le_of_lt (Y.level_le b hb) Y.maxLevel_lt

/-- The blocks around one block end before it or start after it. -/
theorem index_ne (Y : Layout lo count maxLevel h (left ++ b :: right) lists) {x : Block}
    (hx : x ∈ left ++ right) : x.index ≠ b.index := by
  obtain ⟨hl, hr⟩ := Tiling.tiles_split.mp Y.tiles
  have hxpos := units_pos x
  have hbpos := units_pos b
  cases List.mem_append.mp hx with
  | inl hm =>
      have hend := (hl.bounds hm).2
      omega
  | inr hm =>
      have hstart := (hr.bounds hm).1
      omega

theorem address_ne (Y : Layout lo count maxLevel h (left ++ b :: right) lists) {x : Block}
    (hx : x ∈ left ++ right) : x.address lo ≠ b.address lo :=
  fun heq => Y.index_ne hx (unitAddress_inj.mp heq)

/-- A listed address is that of a free block of the level. -/
theorem of_mem_lists (Y : Layout lo count maxLevel h blocks lists) {a : ℕ}
    (hl : l < mmMaxLevels) (ha : a ∈ lists l) :
    ∃ left b right, blocks = left ++ b :: right ∧ b.address lo = a ∧ b.level = l ∧
      b.status = .free := by
  obtain ⟨b, hb, haddr, hlevel, hfree⟩ := (Y.mem_lists l hl a).mp ha
  obtain ⟨left, right, rfl⟩ := List.append_of_mem hb
  exact ⟨left, b, right, rfl, haddr, hlevel, hfree⟩

/-- A block that is not free is in no list. -/
theorem address_not_mem (Y : Layout lo count maxLevel h blocks lists) (hb : b ∈ blocks)
    (hfree : b.status ≠ .free) (hl : l < mmMaxLevels) : b.address lo ∉ lists l := by
  intro hm
  obtain ⟨c, hc, haddr, -, hcfree⟩ := (Y.mem_lists l hl _).mp hm
  rw [Y.address_injective hc hb haddr] at hcfree
  exact hfree hcfree

/-- Lists of different levels share no block. -/
theorem lists_disjoint (Y : Layout lo count maxLevel h blocks lists) {l' a : ℕ}
    (hl : l < mmMaxLevels) (hl' : l' < mmMaxLevels) (ha : a ∈ lists l) (ha' : a ∈ lists l') :
    l = l' := by
  obtain ⟨b, hb, haddr, hlevel, -⟩ := (Y.mem_lists l hl a).mp ha
  obtain ⟨c, hc, haddr', hlevel', -⟩ := (Y.mem_lists l' hl' a).mp ha'
  have hbc := Y.address_injective hb hc (haddr.trans haddr'.symm)
  rw [← hlevel, ← hlevel', hbc]

/-- Nothing is assumed about the memory at a held block. -/
theorem touch (Y : Layout lo count maxLevel h (left ++ b :: right) lists)
    (hheld : b.status = .held) (hheads : h'.freeLists = h.freeLists)
    (hlevel : ∀ a, a ≠ b.address lo → h'.level a = h.level a)
    (hflag : ∀ a, a ≠ b.address lo → h'.isFree a = h.isFree a)
    (hnext : ∀ a, a ≠ b.address lo → h'.next a = h.next a)
    (hprev : ∀ a, a ≠ b.address lo → h'.prev a = h.prev a) :
    Layout lo count maxLevel h' (left ++ b :: right) lists := by
  have hne : ∀ x ∈ left ++ b :: right, x.status ≠ .held → x.address lo ≠ b.address lo := by
    intro x hx hxh heq
    rw [Y.address_injective hx (by simp) heq] at hxh
    exact hxh hheld
  refine { Y with header := ?_, free_flag := ?_, allocated_flag := ?_, ring := ?_ }
  · intro x hx hxh
    rw [hlevel _ (hne x hx hxh)]
    exact Y.header x hx hxh
  · intro x hx hxf
    rw [hflag _ (hne x hx (by simp [hxf]))]
    exact Y.free_flag x hx hxf
  · intro x hx hxa
    rw [hflag _ (hne x hx (by simp [hxa]))]
    exact Y.allocated_flag x hx hxa
  · intro l hl
    have hout : ∀ a ∈ lists l, a ≠ b.address lo := fun a ha heq =>
      Y.address_not_mem (b := b) (by simp) (by simp [hheld]) hl (heq ▸ ha)
    exact (Y.ring l hl).congr (by rw [hheads]) (fun a ha => hnext a (hout a ha))
      (fun a ha => hprev a (hout a ha))

/-- Blocks that are in no list may be regrouped into held blocks over the same interval. -/
theorem regroup {mid mid' : List Block}
    (Y : Layout lo count maxLevel h (left ++ mid ++ right) lists)
    (hmid : ∀ x ∈ mid, x.status ≠ .free) (hheld : ∀ x ∈ mid', x.status = .held)
    (ht : ∀ {p q : ℕ}, Tiles Block.index Block.units p q mid →
      Tiles Block.index Block.units p q mid')
    (haligned : ∀ x ∈ mid', 2 ^ x.level ∣ x.index) (hlevel : ∀ x ∈ mid', x.level ≤ maxLevel) :
    Layout lo count maxLevel h (left ++ mid' ++ right) lists := by
  have hold : ∀ x ∈ left ++ mid' ++ right, x.status ≠ .held → x ∈ left ++ mid ++ right := by
    intro x hx hxh
    simp only [List.mem_append] at hx ⊢
    have := hheld x
    tauto
  refine { Y with
    tiles := ?_
    aligned := ?_
    level_le := ?_
    header := ?_
    free_flag := ?_
    allocated_flag := ?_
    mem_lists := ?_ }
  · have htiles := Y.tiles
    rw [Tiling.tiles_append] at htiles ⊢
    obtain ⟨q, hfront, hback⟩ := htiles
    obtain ⟨p, hl, hm⟩ := Tiling.tiles_append.mp hfront
    exact ⟨q, Tiling.tiles_append.mpr ⟨p, hl, ht hm⟩, hback⟩
  · intro x hx
    by_cases hxh : x ∈ mid'
    · exact haligned x hxh
    · exact Y.aligned x (by simp only [List.mem_append] at hx ⊢; tauto)
  · intro x hx
    by_cases hxh : x ∈ mid'
    · exact hlevel x hxh
    · exact Y.level_le x (by simp only [List.mem_append] at hx ⊢; tauto)
  · exact fun x hx hxh => Y.header x (hold x hx hxh) hxh
  · exact fun x hx hxf => Y.free_flag x (hold x hx (by simp [hxf])) hxf
  · exact fun x hx hxa => Y.allocated_flag x (hold x hx (by simp [hxa])) hxa
  · intro l hl a
    rw [Y.mem_lists l hl a]
    constructor
    · rintro ⟨x, hx, haddr, hxl, hxf⟩
      have hxm := hmid x
      exact ⟨x, by simp only [List.mem_append] at hx ⊢; tauto, haddr, hxl, hxf⟩
    · rintro ⟨x, hx, haddr, hxl, hxf⟩
      exact ⟨x, hold x hx (by simp [hxf]), haddr, hxl, hxf⟩

/-- Setting the status of one block: the other headers and lists are kept, and the list
of its level gains or loses the block. -/
theorem setStatus (Y : Layout lo count maxLevel h (left ++ b :: right) lists) (status : Status)
    {L : List ℕ}
    (hheader : status ≠ .held → h'.level (b.address lo) = b.level)
    (hfree : status = .free → h'.isFree (b.address lo) = 1)
    (halloc : status = .allocated → h'.isFree (b.address lo) = 0)
    (hlevel : ∀ a, a ≠ b.address lo → h'.level a = h.level a)
    (hflag : ∀ a, a ≠ b.address lo → h'.isFree a = h.isFree a)
    (hring : FreeRing h' b.level L)
    (hother : ∀ l < mmMaxLevels, l ≠ b.level → FreeRing h' l (lists l))
    (hmem : ∀ a, a ∈ L ↔ (a = b.address lo ∧ status = .free) ∨
      (a ≠ b.address lo ∧ a ∈ lists b.level)) :
    Layout lo count maxLevel h' (left ++ { b with status := status } :: right)
      (update lists b.level L) := by
  have hrest : ∀ x ∈ left ++ { b with status := status } :: right,
      x = { b with status := status } ∨
        (x ∈ left ++ b :: right ∧ x.address lo ≠ b.address lo) := by
    intro x hx
    rw [List.mem_append, List.mem_cons] at hx
    have hne := Y.address_ne (x := x)
    simp only [List.mem_append, List.mem_cons] at hne ⊢
    tauto
  refine { Y with
    tiles := ?_
    aligned := ?_
    level_le := ?_
    header := ?_
    free_flag := ?_
    allocated_flag := ?_
    ring := ?_
    mem_lists := ?_ }
  · have htiles := Y.tiles
    rw [Tiling.tiles_split] at htiles ⊢
    exact htiles
  · intro x hx
    cases hrest x hx with
    | inl heq =>
        rw [heq]
        exact Y.aligned b (by simp)
    | inr hold => exact Y.aligned x hold.1
  · intro x hx
    cases hrest x hx with
    | inl heq =>
        rw [heq]
        exact Y.level_le b (by simp)
    | inr hold => exact Y.level_le x hold.1
  · intro x hx hxh
    cases hrest x hx with
    | inl heq =>
        subst heq
        exact hheader hxh
    | inr hold => exact (hlevel _ hold.2).trans (Y.header x hold.1 hxh)
  · intro x hx hxf
    cases hrest x hx with
    | inl heq =>
        subst heq
        exact hfree hxf
    | inr hold => exact (hflag _ hold.2).trans (Y.free_flag x hold.1 hxf)
  · intro x hx hxa
    cases hrest x hx with
    | inl heq =>
        subst heq
        exact halloc hxa
    | inr hold => exact (hflag _ hold.2).trans (Y.allocated_flag x hold.1 hxa)
  · intro l hl
    by_cases heq : l = b.level
    · rw [heq, Function.update_self]
      exact hring
    · rw [Function.update_of_ne heq]
      exact hother l hl heq
  · intro l hl a
    by_cases heq : l = b.level
    · subst heq
      rw [Function.update_self, hmem a]
      constructor
      · rintro (⟨rfl, hst⟩ | ⟨hne, hm⟩)
        · exact ⟨{ b with status := status }, by simp, rfl, rfl, hst⟩
        · obtain ⟨x, hx, rfl, hxl, hxf⟩ := (Y.mem_lists _ hl a).mp hm
          refine ⟨x, ?_, rfl, hxl, hxf⟩
          rw [List.mem_append, List.mem_cons] at hx ⊢
          have hxb : x ≠ b := fun h => hne (by rw [h])
          tauto
      · rintro ⟨x, hx, rfl, hxl, hxf⟩
        cases hrest x hx with
        | inl heq =>
            subst heq
            exact Or.inl ⟨rfl, hxf⟩
        | inr hold =>
            exact Or.inr ⟨hold.2, (Y.mem_lists _ hl _).mpr ⟨x, hold.1, rfl, hxl, hxf⟩⟩
    · rw [Function.update_of_ne heq, Y.mem_lists l hl a]
      constructor
      · rintro ⟨x, hx, rfl, hxl, hxf⟩
        refine ⟨x, ?_, rfl, hxl, hxf⟩
        have hxb : x ≠ b := fun h => heq (by rw [← hxl, h])
        rw [List.mem_append, List.mem_cons] at hx ⊢
        tauto
      · rintro ⟨x, hx, rfl, hxl, hxf⟩
        cases hrest x hx with
        | inl hxb =>
            subst hxb
            exact absurd hxl.symm heq
        | inr hold => exact ⟨x, hold.1, rfl, hxl, hxf⟩

/-- The list of another level sees no write to the links of this one. -/
theorem ring_frame (Y : Layout lo count maxLevel h blocks lists) (hb : b.level < mmMaxLevels)
    (hl : l < mmMaxLevels) (hne : l ≠ b.level) (hfree : ∀ a ∈ lists l, a ≠ b.address lo)
    (hheads : ∀ l, l ≠ b.level → h'.freeLists l = h.freeLists l)
    (hnext : ∀ a, a ∉ lists b.level → a ≠ b.address lo → h'.next a = h.next a)
    (hprev : ∀ a, a ∉ lists b.level → a ≠ b.address lo → h'.prev a = h.prev a) :
    FreeRing h' l (lists l) := by
  have hout : ∀ a ∈ lists l, a ∉ lists b.level :=
    fun a ha ha' => hne (Y.lists_disjoint hl hb ha ha')
  exact (Y.ring l hl).congr (hheads l hne) (fun a ha => hnext a (hout a ha) (hfree a ha))
    (fun a ha => hprev a (hout a ha) (hfree a ha))

end Layout
end SoKernel.Mm.Buddy
