import SoKernel.Mm.Buddy.Run

/-!
# What the buddy memory manager writes

As for the simple manager, a call changes headers only, and none of these shares a byte with the
payload of a block that stays allocated.
-/

namespace SoKernel.Mm.Buddy

open Function (update)
open Relation (ReflTransGen)

variable {lo count maxLevel l usable a : ℕ} {h h' h'' : Heap} {blocks held left right : List Block}
  {b c : Block} {lists : ℕ → List ℕ} {A : ℕ → Prop}

section Headers

/-- The fields of the header at an address. -/
def Heap.header (h : Heap) (a : ℕ) : ℕ × ℕ × ℕ × ℕ := (h.next a, h.prev a, h.level a, h.isFree a)

/-- The memories differ at most in headers for which `A` allows it. -/
def WritesIn (A : ℕ → Prop) (h h' : Heap) : Prop := ∀ a, ¬A a → h'.header a = h.header a

theorem WritesIn.trans (first : WritesIn A h h') (second : WritesIn A h' h'') : WritesIn A h h'' :=
  fun a ha => (second a ha).trans (first a ha)

/-- The list heads and the counters are not in any header. -/
theorem WritesIn.of_fields (hn : h'.next = h.next) (hp : h'.prev = h.prev) (hl : h'.level = h.level)
    (hf : h'.isFree = h.isFree) : WritesIn A h h' := by
  intro a _
  rw [Heap.header, Heap.header, hn, hp, hl, hf]

theorem isFree_writes (ha : A a) (flag : ℕ) :
    WritesIn A h { h with isFree := update h.isFree a flag } := by
  intro x hx
  have hne : x ≠ a := fun heq => hx (heq ▸ ha)
  simp [Heap.header, hne]

theorem pushFree_writes (ha : A a)
    (hn : h.freeLists (h.level a) ≠ 0 → A (h.freeLists (h.level a))) :
    WritesIn A h (pushFree h a) := by
  intro x hx
  have hne : x ≠ a := fun heq => hx (heq ▸ ha)
  by_cases hz : h.freeLists (h.level a) = 0
  · simp [Heap.header, pushFree, hz, hne]
  · have hhead : x ≠ h.freeLists (h.level a) := fun heq => hx (heq ▸ hn hz)
    simp [Heap.header, pushFree, hz, hne, hhead]

theorem popFree_writes (ha : h.freeLists l ≠ 0 → A (h.freeLists l))
    (hn : h.freeLists l ≠ 0 → h.next (h.freeLists l) ≠ 0 → A (h.next (h.freeLists l))) :
    WritesIn A h (popFree h l).2 := by
  intro x hx
  by_cases hz : h.freeLists l = 0
  · simp [popFree, hz]
  have hne : x ≠ h.freeLists l := fun heq => hx (heq ▸ ha hz)
  by_cases hnz : h.next (h.freeLists l) = 0
  · simp [Heap.header, popFree, hz, hnz, hne]
  · have hnext : x ≠ h.next (h.freeLists l) := fun heq => hx (heq ▸ hn hz hnz)
    simp [Heap.header, popFree, hz, hnz, hne, hnext]

theorem pushHalf_writes (ha : A a) (hn : h.freeLists l ≠ 0 → A (h.freeLists l)) :
    WritesIn A h (pushHalf h l a) := by
  have hmade : WritesIn A h { h with
      level := update h.level a l, isFree := update h.isFree a 1
      prev := update h.prev a 0, next := update h.next a 0 } := by
    intro x hx
    have hne : x ≠ a := fun heq => hx (heq ▸ ha)
    simp [Heap.header, hne]
  refine hmade.trans (pushFree_writes ha ?_)
  simpa using hn

theorem takeParent_writes (ha : A a) : WritesIn A h (takeParent h a) := by
  intro x hx
  have hne : x ≠ a := fun heq => hx (heq ▸ ha)
  simp [Heap.header, takeParent, hne]

theorem Slot.write_writes {slot : Slot} (v : ℕ) (hslot : ∀ x, slot = .nextOf x → A x) :
    WritesIn A h (slot.write h v) := by
  intro x hx
  cases slot with
  | listHead level => rfl
  | nextOf y =>
      have hne : x ≠ y := fun heq => hx (heq ▸ hslot y rfl)
      simp [Heap.header, Slot.write, hne]

/-- Unlisting writes the block, the one behind it and the one whose link led to it. -/
theorem removeFromFreeList_writes (hcall : removeFromFreeList h a = some h') (ha : A a)
    (hslot : ∀ x, findSlot h a addressCount (.listHead (h.level a)) = some (.nextOf x) → A x)
    (hn : h.next a ≠ 0 → A (h.next a)) : WritesIn A h h' := by
  obtain ⟨slot, hfind, rfl⟩ := Option.map_eq_some_iff.mp hcall
  by_cases hread : slot.read h = a
  · have hnext : (slot.write h (h.next a)).next a = h.next a := by
      cases slot with
      | listHead level => rfl
      | nextOf y =>
          by_cases hya : a = y
          · simp only [Slot.write, ← hya, Function.update_self]
          · exact Function.update_of_ne hya _ _
    have hwrite := Slot.write_writes (h := h) (h.next a) fun x hx => hslot x (hx ▸ hfind)
    refine hwrite.trans fun x hx => ?_
    have hne : x ≠ a := fun heq => hx (heq ▸ ha)
    simp only [if_pos hread, hnext]
    by_cases hz : h.next a = 0
    · simp [Heap.header, hz, hne]
    · have hnx : x ≠ h.next a := fun heq => hx (heq ▸ hn hz)
      simp [Heap.header, hz, hne, hnx]
  · rw [if_neg hread]
    exact fun _ _ => rfl

end Headers

section Layouts

/-- A header at `a` lies in the heap and shares no byte with the payload of a block of `held`. -/
def Clear (lo count : ℕ) (held : List Block) (a : ℕ) : Prop :=
  lo ≤ a ∧ a + hdrSize ≤ lo + unitBytes * count ∧
    ∀ x ∈ held, a + hdrSize ≤ x.address lo + hdrSize ∨ x.address lo + unitBytes * x.units ≤ a

/-- Two blocks of the layout coincide or lie apart. -/
theorem Layout.apart (Y : Layout lo count maxLevel h blocks lists) (hb : b ∈ blocks)
    (hc : c ∈ blocks) : b = c ∨ b.address lo + unitBytes * b.units ≤ c.address lo ∨
      c.address lo + unitBytes * c.units ≤ b.address lo := by
  rcases Y.tiles.eq_or_disjoint hb hc with heq | hd
  · exact .inl heq
  · right
    simp only [Block.address, unitAddress, unitBytes]
    omega

/-- There is room for a header at every base block of a block that is not held. -/
theorem Layout.clear_inside (Y : Layout lo count maxLevel h blocks lists)
    (hheld : ∀ x ∈ held, x ∈ blocks) (hb : b ∈ blocks) (hfree : b ∉ held) {n : ℕ}
    (hlow : b.index ≤ n) (hhigh : n < b.index + b.units) :
    Clear lo count held (unitAddress lo n) := by
  have hbound := Y.address_bounds hb
  have hhdr : hdrSize = 32 := by decide
  have hstart : b.address lo ≤ unitAddress lo n := by
    simp only [Block.address, unitAddress, unitBytes]
    omega
  have hend : unitAddress lo n + hdrSize ≤ b.address lo + unitBytes * b.units := by
    simp only [Block.address, unitAddress, unitBytes]
    omega
  refine ⟨by omega, by omega, fun x hx => ?_⟩
  rcases Y.apart hb (hheld x hx) with rfl | hd
  · exact absurd hx hfree
  · omega

/-- The headers of the layout are clear of all payloads. -/
theorem Layout.clear (Y : Layout lo count maxLevel h blocks lists) (hheld : ∀ x ∈ held, x ∈ blocks)
    (hb : b ∈ blocks) : Clear lo count held (b.address lo) := by
  have hbound := Y.address_bounds hb
  have hpos := units_pos b
  have hhdr : hdrSize = 32 := by decide
  simp only [unitBytes] at hbound
  refine ⟨by omega, by simp only [unitBytes]; omega, fun x hx => ?_⟩
  rcases Y.apart hb (hheld x hx) with rfl | hd
  · exact .inl le_rfl
  · simp only [unitBytes] at hd ⊢
    omega

/-- The link of a listed block leads to a listed block. -/
theorem FreeRing.next_mem {L : List ℕ} (F : FreeRing h l L) (ha : a ∈ L) (hz : h.next a ≠ 0) :
    h.next a ∈ L := by
  obtain ⟨front, back, rfl⟩ := List.append_of_mem ha
  have hnext := F.next_eq
  cases back with
  | nil => exact absurd hnext hz
  | cons x back =>
      rw [show h.next a = x from hnext]
      simp

/-- The list heads, and what follows them, are blocks of the layout. -/
theorem Layout.head_mem (Y : Layout lo count maxLevel h blocks lists)
    (hA : ∀ x ∈ blocks, A (x.address lo)) (hl : l < mmMaxLevels) (hz : h.freeLists l ≠ 0) :
    A (h.freeLists l) := by
  obtain ⟨left, b, right, L, rfl, -, -, -, haddr⟩ := Y.first_of_level hl hz
  rw [haddr]
  exact hA b (by simp)

theorem Layout.listed_mem (Y : Layout lo count maxLevel h blocks lists)
    (hA : ∀ x ∈ blocks, A (x.address lo)) (hl : l < mmMaxLevels) (ha : a ∈ lists l) : A a := by
  obtain ⟨b, hb, rfl, -⟩ := (Y.mem_lists l hl a).mp ha
  exact hA b hb

theorem Layout.writes_popFree (Y : Layout lo count maxLevel h blocks lists)
    (hA : ∀ x ∈ blocks, A (x.address lo)) (hl : l < mmMaxLevels) :
    WritesIn A h (Buddy.popFree h l).2 := by
  refine popFree_writes (Y.head_mem hA hl) fun hz hn => ?_
  obtain ⟨left, b, right, L, -, -, -, hlist, haddr⟩ := Y.first_of_level hl hz
  have F := Y.ring l hl
  exact Y.listed_mem hA hl (F.next_mem (by rw [hlist, haddr]; simp) hn)

theorem Layout.writes_remove (Y : Layout lo count maxLevel h blocks lists)
    (hA : ∀ x ∈ blocks, A (x.address lo)) (hb : b ∈ blocks) (hfree : b.status = .free)
    (hcall : Buddy.removeFromFreeList h (b.address lo) = some h') : WritesIn A h h' := by
  have hl := Y.level_lt hb
  have F := Y.ring b.level hl
  have hlevel : h.level (b.address lo) = b.level := Y.header b hb (by simp [hfree])
  have hmem : b.address lo ∈ lists b.level := (Y.mem_lists _ hl _).mpr ⟨b, hb, rfl, rfl, hfree⟩
  have hlisted := fun x hx => Y.listed_mem (a := x) hA hl hx
  refine removeFromFreeList_writes hcall (hA b hb) (fun x hx => ?_)
    fun hz => hlisted _ (F.next_mem hmem hz)
  obtain ⟨front, back, hlist⟩ := List.append_of_mem hmem
  have hlen : front.length < addressCount := by
    have hall := Y.lists_length_lt hl
    rw [hlist, List.length_append] at hall
    omega
  rw [hlist] at F
  have hslot : findSlot h (b.address lo) addressCount (.listHead b.level) =
      some (front.getLast?.elim (.listHead b.level) Slot.nextOf) :=
    findSlot_eq (A := []) F F.head_eq hlen
  rw [hlevel, hslot] at hx
  -- The search ends at the list head, or at the block in front.
  cases front using List.reverseRecOn with
  | nil => simp at hx
  | append_singleton front y =>
      rw [List.getLast?_concat, Option.elim_some, Option.some_inj, Slot.nextOf.injEq] at hx
      exact hlisted x (by rw [hlist, ← hx]; simp)

end Layouts

section Calls

theorem popFree_freeLists_of_ne {k : ℕ} (hk : k ≠ l) :
    (popFree h l).2.freeLists k = h.freeLists k := by
  by_cases hz : h.freeLists l = 0
  · simp [popFree, hz]
  · by_cases hn : h.next (h.freeLists l) = 0 <;> simp [popFree, hz, hn, hk]

@[simp] theorem pushHalf_freeLists (h : Heap) (l a : ℕ) :
    (pushHalf h l a).freeLists = update h.freeLists l a := by
  simp [pushHalf]

/-- Cutting the first listed block of a level writes inside of it, and in front of other blocks. -/
theorem Layout.writes_splitDown {toLevel steps : ℕ} {L : List ℕ}
    (Y : Layout lo count maxLevel h (left ++ b :: right) lists)
    (hbase : h.baseBlockSize = unitBytes) (hfree : b.status = .free)
    (hl : b.level = toLevel + steps) (hlist : lists b.level = b.address lo :: L)
    (hA : ∀ x ∈ left ++ b :: right, A (x.address lo))
    (hin : ∀ n, b.index ≤ n → n < b.index + b.units → A (unitAddress lo n)) :
    WritesIn A h (Buddy.splitDown h toLevel steps).2 := by
  -- induction on the number of levels still to descend
  induction steps generalizing h b right lists L with
  | zero =>
      have hlevel := Y.level_lt (b := b) (by simp)
      exact Y.writes_popFree hA (by omega)
  | succ steps ih =>
      have hb : b ∈ left ++ b :: right := by simp
      have hlevel := Y.level_lt hb
      have hpos := Nat.two_pow_pos (toLevel + steps)
      have hunits : b.units = 2 * 2 ^ (toLevel + steps) := by
        rw [Block.units, hl, ← Nat.add_assoc, pow_succ, Nat.mul_comm]
      obtain ⟨lists', hlist', -, -, hptr, Y₁⟩ := Y.splitTurn hbase (l := toLevel + steps) hfree
        (by omega) hlist
      have hhalf : Word64.add (b.address lo) (blockBytes h b.level / 2) =
          unitAddress lo (b.index + 2 ^ (toLevel + steps)) := by
        have hbound := Y.address_bounds hb
        have hhigh := Y.high_le
        rw [blockBytes_eq hbase hlevel, ← Block.units, hunits]
        simp only [hunits, Block.address, unitAddress, unitBytes] at hbound hhigh ⊢
        rw [Word64.add_eq (by omega)]
        omega
      have hupper := hin (b.index + 2 ^ (toLevel + steps)) (by omega) (by omega)
      rw [← hhalf] at hupper
      have hturn : Buddy.splitDown h toLevel (steps + 1) = Buddy.splitDown
          (Buddy.pushHalf (Buddy.pushHalf (Buddy.popFree h b.level).2 (toLevel + steps)
            (Word64.add (b.address lo) (blockBytes h b.level / 2))) (toLevel + steps)
            (b.address lo)) toLevel steps := by
        rw [Buddy.splitDown, ← hl]
        simp only [hptr]
        rw [if_neg (Y.address_pos hb).ne', show b.level - 1 = toLevel + steps by omega]
      have hpop : WritesIn A h (Buddy.popFree h b.level).2 := Y.writes_popFree hA hlevel
      have hfirst := hpop.trans (pushHalf_writes (l := toLevel + steps) hupper fun hz => by
        rw [popFree_freeLists_of_ne (by omega)] at hz ⊢
        exact Y.head_mem hA (by omega) hz)
      have hsecond := hfirst.trans (pushHalf_writes (l := toLevel + steps) (hA b hb) fun _ => by
        simpa using hupper)
      have hregion : (Buddy.pushHalf (Buddy.pushHalf (Buddy.popFree h b.level).2 (toLevel + steps)
          (Word64.add (b.address lo) (blockBytes h b.level / 2))) (toLevel + steps)
          (b.address lo)).region = h.region := by simp
      have hbase' := congrArg (fun r => r.2.2.1) hregion
      rw [hturn]
      refine hsecond.trans (ih Y₁ (hbase'.trans hbase) rfl rfl hlist' (fun x hx => ?_)
        fun n hlow hhigh => hin n hlow ?_)
      · simp only [List.mem_append, List.mem_cons] at hx hA
        rcases hx with hx | rfl | rfl | hx
        · exact hA x (.inl hx)
        · exact hA b (.inr (.inl rfl))
        · rwa [hhalf] at hupper
        · exact hA x (.inr (.inr hx))
      · simp only [Block.units] at hhigh
        omega

theorem Represents.clear (R : Represents lo usable maxLevel h blocks lists) (hb : b ∈ blocks) :
    Clear lo (usable / unitBytes) (allocatedBlocks blocks) (b.address lo) :=
  R.layout.clear (fun _ hx => (mem_allocatedBlocks.mp hx).1) hb

theorem Represents.writes_takeBlock (R : Represents lo usable maxLevel h blocks lists) {ord : ℕ}
    (hord : ord < mmMaxLevels) :
    WritesIn (Clear lo (usable / unitBytes) (allocatedBlocks blocks)) h
      (Buddy.takeBlock h ord).2 := by
  have hpop := R.layout.writes_popFree (fun _ => R.clear) hord
  by_cases hz : h.freeLists ord = 0
  · have F := R.layout.ring ord hord
    rw [R.layout.head_eq_zero hord hz] at F
    unfold Buddy.takeBlock
    rw [popFree_of_empty F]
    dsimp only
    rw [if_neg (by decide)]
    cases hfind : firstLevelAbove h ord with
    | none => exact fun _ _ => rfl
    | some l =>
        obtain ⟨hlt, hle, hhead⟩ := firstLevelAbove_some hfind
        have hl : l < mmMaxLevels :=
          lt_of_le_of_lt (R.statics.maxLevel ▸ hle) R.layout.maxLevel_lt
        obtain ⟨left, b, right, L, rfl, hfree, hlevel, hlist, -⟩ := R.layout.first_of_level hl hhead
        refine R.layout.writes_splitDown R.statics.baseBlockSize hfree (by omega)
          (by rw [hlevel, hlist]) (fun _ => R.clear) fun n hlow hhigh => ?_
        refine R.layout.clear_inside (fun _ hx => (mem_allocatedBlocks.mp hx).1) (b := b) (by simp)
          (fun hx => ?_) hlow hhigh
        simp [(mem_allocatedBlocks.mp hx).2] at hfree
  · obtain ⟨left, b, right, L, rfl, hfree, hlevel, hlist, -⟩ := R.layout.first_of_level hord hz
    obtain ⟨hptr, -⟩ := R.layout.popFree hfree (by rw [hlevel, hlist])
    rw [hlevel] at hptr
    have hpos := (R.layout.address_pos (b := b) (by simp)).ne'
    unfold Buddy.takeBlock
    simp only [hptr]
    rw [if_pos hpos]
    exact hpop

/-- No allocation writes into a payload that was handed out before. -/
theorem Represents.writes_alloc {endOfKernel size : UInt64} {ptr : ℕ}
    (R : Represents lo usable maxLevel h blocks lists)
    (hcall : mmAlloc endOfKernel h size = some (ptr, h')) :
    WritesIn (Clear lo (usable / unitBytes) (allocatedBlocks blocks)) h h' := by
  unfold mmAlloc at hcall
  rw [if_pos R.statics.initialized, Option.some_inj, allocInitialized] at hcall
  by_cases hzero : size = 0
  · rw [if_pos hzero] at hcall
    cases hcall
    exact fun _ _ => rfl
  rw [if_neg hzero] at hcall
  have htake := R.writes_takeBlock (requestOrder_lt h size)
  dsimp only at hcall
  by_cases hnull : (Buddy.takeBlock h (requestOrder h size)).1 = 0
  · rw [if_pos hnull] at hcall
    cases hcall
    exact htake.trans (WritesIn.of_fields rfl rfl rfl rfl)
  · rw [if_neg hnull] at hcall
    cases hcall
    have htaken : Clear lo (usable / unitBytes) (allocatedBlocks blocks)
        (Buddy.takeBlock h (requestOrder h size)).1 := by
      rcases R.takeBlock (requestOrder_lt h size) with ⟨hfail, -⟩ | ⟨left, b, right, mid, rfl, -, -,
        hptr, -⟩
      · exact absurd (congrArg Prod.fst hfail) hnull
      · rw [hptr]
        exact R.clear (by simp)
    refine (htake.trans (isFree_writes htaken 0)).trans ?_
    exact WritesIn.of_fields rfl rfl rfl rfl

namespace InHand

variable (H : InHand lo usable maxLevel h left b right lists)
include H

theorem clear (hc : c ∈ left ++ b :: right) :
    Clear lo (usable / unitBytes) (allocatedBlocks (left ++ right)) (c.address lo) := by
  refine H.layout.clear (fun x hx => ?_) hc
  have hx' := (mem_allocatedBlocks.mp hx).1
  simp only [List.mem_append, List.mem_cons] at hx' ⊢
  exact hx'.imp_right .inr

theorem writes_pushFree :
    WritesIn (Clear lo (usable / unitBytes) (allocatedBlocks (left ++ right))) h
      (pushFree h (b.address lo)) := by
  have hb : b ∈ left ++ b :: right := by simp
  refine pushFree_writes (H.clear hb) fun hz => ?_
  rw [H.header] at hz ⊢
  exact H.layout.head_mem (fun _ => H.clear) (H.layout.level_lt hb) hz

/-- Every turn of the loop unlists a block and writes the header of the parent. -/
theorem writes_coalesceLoop {fuel m : ℕ}
    (hcall : Buddy.coalesceLoop fuel h (b.address lo) = some (m, h')) :
    WritesIn (Clear lo (usable / unitBytes) (allocatedBlocks (left ++ right))) h h' := by
  -- induction on the turns left
  induction fuel generalizing h left b right lists with
  | zero => cases hcall
  | succ fuel ih =>
      have hb : b ∈ left ++ b :: right := by simp
      rw [Buddy.coalesceLoop, H.header, H.statics.maxLevel] at hcall
      by_cases hmax : b.level < maxLevel
      swap
      · rw [if_neg hmax] at hcall
        cases hcall
        exact fun _ _ => rfl
      rw [if_pos hmax] at hcall
      dsimp only at hcall
      by_cases hstop : findBuddy h (b.address lo) = 0 ∨ h.isFree (findBuddy h (b.address lo)) = 0 ∨
          h.level (findBuddy h (b.address lo)) ≠ b.level
      · rw [if_pos hstop] at hcall
        cases hcall
        exact fun _ _ => rfl
      rw [if_neg hstop] at hcall
      rcases findBuddy_cases H.layout H.statics hb H.header with ⟨hnull, -⟩ | ⟨c, hc, hbud, hidx⟩
      · exact absurd (.inl hnull) hstop
      have hother := H.mem_others hc (by rw [hidx]; exact Dyadic.buddy_ne _ _)
      have hheld := H.others c hother
      have hclevel := H.layout.header c hc hheld
      rw [hbud, hclevel] at hstop
      -- The buddy is free and of the same level.
      have hfree : c.status = .free := by
        cases hst : c.status with
        | free => rfl
        | allocated => exact absurd (.inr (.inl (H.layout.allocated_flag c hc hst))) hstop
        | held => exact absurd hst hheld
      have hlevel : b.level = c.level := not_not.mp fun hne => hstop (.inr (.inr (Ne.symm hne)))
      obtain ⟨h₁, left', p, right', lists', hrem, hmin, -, H', hsame⟩ :=
        H.merge hother ⟨hlevel, hidx⟩ hfree hmax
      rw [hbud, hrem, Option.bind_some, ← hmin] at hcall
      have hremove := H.layout.writes_remove (fun _ => H.clear) hc hfree hrem
      have hparent := H'.clear (c := p) (by simp)
      have hrest := ih H' hcall
      rw [hsame] at hparent hrest
      exact (hremove.trans (takeParent_writes hparent)).trans hrest

end InHand

/-- The block that is freed, marked and taken in hand. -/
theorem Represents.inHand (R : Represents lo usable maxLevel h (left ++ b :: right) lists)
    (halloc : b.status = .allocated) (payload : ℕ) :
    InHand lo usable maxLevel
      (countFree { h with isFree := update h.isFree (b.address lo) 1 } payload)
      left { b with status := .held } right lists := by
  have hb : b ∈ left ++ b :: right := by simp
  have Y : Layout lo (usable / unitBytes) maxLevel h (left ++ { b with status := .held } :: right)
      lists := by
    have Y₀ : Layout lo (usable / unitBytes) maxLevel h (left ++ [b] ++ right) lists := by
      simpa using R.layout
    have Y₁ : Layout lo (usable / unitBytes) maxLevel h
        (left ++ [{ b with status := .held }] ++ right) lists :=
      Y₀.regroup (by simp [halloc]) (by simp) (by simp [Block.units])
        (by simpa using R.layout.aligned b hb) (by simpa using R.layout.level_le b hb)
    simpa using Y₁
  refine ⟨Y.touch rfl rfl ?_ ?_ ?_ ?_, R.statics.congr rfl, rfl, ?_, ?_, ?_⟩
  · exact fun _ _ => rfl
  · intro x hx
    have hne : x ≠ b.address lo := hx
    simp [countFree, hne]
  · exact fun _ _ => rfl
  · exact fun _ _ => rfl
  · exact R.layout.header b hb (by simp [halloc])
  · intro x hx
    apply R.none_held
    simp only [List.mem_append, List.mem_cons] at hx ⊢
    exact hx.imp_right .inr
  · refine R.apart.mono fun x hx hfree => ?_
    simp only [List.mem_append, List.mem_cons] at hx ⊢
    rcases hx with hx | rfl | hx
    · exact .inl hx
    · cases hfree
    · exact .inr (.inr hx)

/-- Freeing a block writes into no payload that stays allocated. -/
theorem Represents.writes_free (R : Represents lo usable maxLevel h (left ++ b :: right) lists)
    (halloc : b.status = .allocated) (hcall : mmFree h (b.address lo + hdrSize) = some h') :
    WritesIn (Clear lo (usable / unitBytes) (allocatedBlocks (left ++ right))) h h' := by
  rw [mmFree_eq R halloc, coalesce] at hcall
  generalize Word64.sub (blockBytes h b.level) hdrSize = payload at hcall
  have H := R.inHand halloc payload
  have hle := R.layout.level_le b (by simp)
  have hmax := R.layout.maxLevel_lt
  have hmaxl : mmMaxLevels = 32 := rfl
  have hfuel : maxLevel < b.level + 256 := by omega
  obtain ⟨h₁, left', m, right', lists', hloop, H', -, hsame⟩ := H.coalesceLoop hfuel
  have hpush := H'.writes_pushFree
  rw [hsame] at hpush
  have hmark : WritesIn (Clear lo (usable / unitBytes) (allocatedBlocks (left ++ right))) h
      (countFree { h with isFree := update h.isFree (b.address lo) 1 } payload) :=
    (isFree_writes (H.clear (c := { b with status := .held }) (by simp)) 1).trans
      (WritesIn.of_fields rfl rfl rfl rfl)
  have hmerge := hmark.trans (H.writes_coalesceLoop hloop)
  have hstep : Buddy.coalesceLoop 256
      (countFree { h with isFree := update h.isFree (b.address lo) 1 } payload) (b.address lo) =
        some (m.address lo, h₁) := hloop
  rw [hstep, Option.map_some, Option.some_inj] at hcall
  rw [← hcall]
  exact hmerge.trans hpush

end Calls

section Runs

variable {s : System} {heapStart heapSize endOfKernel : UInt64} {h₀ h₁ : Heap} {ptr : ℕ}

/-- A header that is clear of the allocated blocks is outside of their payloads. -/
theorem Valid.outside (V : Valid lo usable maxLevel s blocks lists) (hptr : ptr ∈ s.live)
    (hheld : ∀ x ∈ allocatedBlocks blocks, ptr = x.address lo + hdrSize → x ∈ held)
    (ha : Clear lo count held a) : Outside s.heap ptr a := by
  obtain ⟨x, hx, rfl⟩ := (V.mem_live ptr).mp hptr
  have hclear := ha.2.2 x (hheld x hx rfl)
  have hpayload := V.payloadSize_eq (mem_allocatedBlocks.mp hx).1
  have hhdr : hdrSize = 32 := by decide
  have hpos := units_pos x
  rw [Outside, hpayload]
  simp only [unitBytes] at hclear ⊢
  omega

/-- In every state of a run, the headers that a call changes lie in the heap and share no byte with
a payload that is live before the call and not freed by it. -/
theorem buddy_calls_spare_payloads (hstart : heapStart ≠ 0)
    (hwrap : heapStart.toNat + heapSize.toNat ≤ 2 ^ 64)
    (hlimit : heapSize.toNat ≤ mmDefaultHeapLimit)
    (hinit : mmInit h₀ heapStart heapSize = some h₁) (hflag : h₁.mmInitializedFlag = true)
    (hrun : ReflTransGen (Step endOfKernel) ⟨h₁, []⟩ s) :
    (∀ size ptr h', mmAlloc endOfKernel s.heap size = some (ptr, h') →
      ∀ a, h'.header a ≠ s.heap.header a →
        alignedStart heapStart ≤ a ∧
        a + hdrSize ≤ alignedStart heapStart + usableBytes heapStart heapSize ∧
        ∀ q ∈ s.live, Outside s.heap q a) ∧
      ∀ p ∈ s.live, ∀ h', mmFree s.heap p = some h' → ∀ a, h'.header a ≠ s.heap.header a →
        alignedStart heapStart ≤ a ∧
        a + hdrSize ≤ alignedStart heapStart + usableBytes heapStart heapSize ∧
        ∀ q ∈ s.live, q ≠ p → Outside s.heap q a := by
  obtain ⟨h', hinit', -, hspec⟩ := mmInit_spec hstart hwrap (extent_of_limit hlimit) h₀
  rw [hinit] at hinit'
  cases hinit'
  obtain ⟨-, _, _, R₀, hfree⟩ := hspec hflag
  obtain ⟨blocks, lists, V⟩ := (R₀.initial_valid hfree).run hrun
  have R := V.represents
  have hend : unitBytes * (usableBytes heapStart heapSize / unitBytes) ≤
      usableBytes heapStart heapSize := Nat.mul_div_le _ _
  constructor
  · intro size ptr h' hcall a hne
    have ha := not_not.mp fun hA => hne (R.writes_alloc hcall a hA)
    exact ⟨ha.1, ha.2.1.trans (by omega), fun q hq => V.outside hq (fun x hx _ => hx) ha⟩
  · intro p hp h' hcall a hne
    obtain ⟨left, b, right, rfl, hb, rfl⟩ := V.live_block hp
    have ha := not_not.mp fun hA => hne (R.writes_free hb hcall a hA)
    refine ⟨ha.1, ha.2.1.trans (by omega), fun q hq hqp => V.outside hq (fun x hx heq => ?_) ha⟩
    rw [R.layout.mem_allocatedBlocks_cut]
    exact ⟨hx, fun hxb => hqp (by rw [heq, hxb])⟩

/-- With 100 bytes allocated in a region of one page. -/
theorem buddy_calls_spare_payloads_page :
    ∃ h₁ s p, mmInit blankHeap 0x10008 4096 = some h₁ ∧ ReflTransGen (Step 0x101000) ⟨h₁, []⟩ s ∧
      s.live = [p] ∧ ∀ ptr h', mmAlloc 0x101000 s.heap 200 = some (ptr, h') →
        ∀ a, h'.header a ≠ s.heap.header a → Outside s.heap p a := by
  have hcalc : (mmInit blankHeap 0x10008 4096).any (fun h => h.mmInitializedFlag &&
      (mmAlloc 0x101000 h 100).any fun r => decide (r.1 ≠ 0)) = true := by
    decide +kernel
  obtain ⟨h₁, hinit, hok⟩ := (Option.any_eq_true _ _).mp hcalc
  simp only [Bool.and_eq_true] at hok
  obtain ⟨hflag, halloc⟩ := hok
  obtain ⟨⟨p, h'⟩, hcall, hp⟩ := (Option.any_eq_true _ _).mp halloc
  have hstep := Step.alloc (s := ⟨h₁, []⟩) hcall
  rw [if_neg (by simpa using hp)] at hstep
  have hrun := ReflTransGen.single hstep
  have hspare := buddy_calls_spare_payloads (by decide) (by decide) (by decide) hinit hflag hrun
  exact ⟨h₁, _, p, hinit, hrun, rfl, fun ptr h'' hcall' a hne =>
    (hspare.1 200 ptr h'' hcall' a hne).2.2 p (by simp)⟩

end Runs
end SoKernel.Mm.Buddy
