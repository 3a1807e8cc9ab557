import SoKernel.Mm.Buddy.Layout

/-!
# The operations of the buddy manager on layouts

Listing, unlisting, cutting and merging blocks, as steps between layouts. The loops of
`split_down` and `coalesce` follow by induction on their turns.
-/

namespace SoKernel.Mm.Buddy

open Function (update)
open LinkedRing (Ring)
open Tiling (Tiles)

variable {lo count maxLevel l usable : ℕ} {h h' : Heap} {blocks left right : List Block}
variable {b c : Block} {lists : ℕ → List ℕ}

/-- The static variables that only `mm_init` writes. -/
def Heap.region (h : Heap) : ℕ × ℕ × ℕ × ℕ × Bool :=
  (h.heapBase, h.heapUsableBytes, h.baseBlockSize, h.maxLevel, h.mmInitializedFlag)

theorem Statics.congr (S : Statics lo usable maxLevel h) (heq : h'.region = h.region) :
    Statics lo usable maxLevel h' := by
  simp only [Heap.region, Prod.mk.injEq] at heq
  obtain ⟨h₁, h₂, h₃, h₄, h₅⟩ := heq
  exact ⟨h₁.trans S.heapBase, h₂.trans S.heapUsableBytes, h₃.trans S.baseBlockSize,
    h₄.trans S.maxLevel, S.extent_lt, h₅.trans S.initialized⟩

section Lists

@[simp] theorem pushFree_region (h : Heap) (a : ℕ) : (pushFree h a).region = h.region := by
  by_cases hz : h.freeLists (h.level a) = 0 <;> simp [pushFree, hz, Heap.region]

@[simp] theorem popFree_region (h : Heap) (l : ℕ) : (popFree h l).2.region = h.region := by
  by_cases hz : h.freeLists l = 0
  · simp [popFree, hz]
  · by_cases hn : h.next (h.freeLists l) = 0 <;> simp [popFree, hz, hn, Heap.region]

@[simp] theorem pushFree_level (h : Heap) (a : ℕ) : (pushFree h a).level = h.level := by
  by_cases hz : h.freeLists (h.level a) = 0 <;> simp [pushFree, hz]

@[simp] theorem pushFree_isFree (h : Heap) (a : ℕ) :
    (pushFree h a).isFree = update h.isFree a 1 := by
  by_cases hz : h.freeLists (h.level a) = 0 <;> simp [pushFree, hz]

@[simp] theorem pushFree_freeLists (h : Heap) (a : ℕ) :
    (pushFree h a).freeLists = update h.freeLists (h.level a) a := by
  by_cases hz : h.freeLists (h.level a) = 0 <;> simp [pushFree, hz]

theorem pushFree_next (h : Heap) (a : ℕ) :
    (pushFree h a).next = update h.next a (h.freeLists (h.level a)) := by
  by_cases hz : h.freeLists (h.level a) = 0 <;> simp [pushFree, hz]

theorem pushFree_prev (h : Heap) (a : ℕ) :
    (pushFree h a).prev = if h.freeLists (h.level a) ≠ 0 then
        update (update h.prev a 0) (h.freeLists (h.level a)) a
      else update h.prev a 0 := by
  by_cases hz : h.freeLists (h.level a) = 0 <;> simp [pushFree, hz]

/-- `push_free` lists a block that was in no list. -/
theorem Layout.pushFree (Y : Layout lo count maxLevel h (left ++ b :: right) lists)
    (hfree : b.status ≠ .free) (hlevel : h.level (b.address lo) = b.level) :
    Layout lo count maxLevel (pushFree h (b.address lo))
      (left ++ { b with status := .free } :: right)
      (update lists b.level (b.address lo :: lists b.level)) := by
  have hb : b ∈ left ++ b :: right := by simp
  have hl := Y.level_lt hb
  have hout : ∀ l < mmMaxLevels, b.address lo ∉ lists l := fun l => Y.address_not_mem hb hfree
  have F := Y.ring b.level hl
  refine Y.setStatus .free (by simp [hlevel]) (by simp) (by simp) (by simp) ?_ ?_ ?_ ?_
  · intro a ha
    simp [ha]
  · refine F.push (hout _ hl) (Y.address_pos hb).ne' (by simp [hlevel]) ?_ ?_
    · rw [pushFree_next, hlevel]
    · rw [pushFree_prev, hlevel]
  · intro l hl' hne
    refine Y.ring_frame hl hl' hne (fun a ha heq => hout l hl' (heq ▸ ha)) ?_ ?_ ?_
    · intro k hk
      simp [hlevel, hk]
    · intro a _ hab
      simp [pushFree_next, hab]
    · intro a ha hab
      have hhead : h.freeLists b.level ≠ 0 → a ≠ h.freeLists b.level := by
        intro hz heq
        apply ha
        rw [heq, F.head_eq]
        have hold := F.head_eq
        cases hL : lists b.level with
        | nil => simp [hL] at hold; exact absurd hold hz
        | cons x L => simp
      by_cases hz : h.freeLists b.level = 0
      · simp [pushFree_prev, hlevel, hz, hab]
      · simp [pushFree_prev, hlevel, hz, hab, hhead hz]
  · intro a
    have := hout _ hl
    by_cases ha : a = b.address lo <;> simp [ha]

theorem popFree_of_empty (F : FreeRing h l []) : popFree h l = (0, h) := by
  have hz : h.freeLists l = 0 := by simpa using F.head_eq
  simp [popFree, hz]

/-- `pop_free` takes the first block of a list. -/
theorem Layout.popFree (Y : Layout lo count maxLevel h (left ++ b :: right) lists) {L : List ℕ}
    (hfree : b.status = .free) (hlist : lists b.level = b.address lo :: L) :
    (popFree h b.level).1 = b.address lo ∧
      Layout lo count maxLevel (popFree h b.level).2
        (left ++ { b with status := .allocated } :: right) (update lists b.level L) := by
  have hb : b ∈ left ++ b :: right := by simp
  have hl := Y.level_lt hb
  have F := Y.ring b.level hl
  rw [hlist] at F
  have hhead : h.freeLists b.level = b.address lo := by simpa using F.head_eq
  have hza : b.address lo ≠ 0 := (Y.address_pos hb).ne'
  have hnext : h.next (b.address lo) = L.head?.getD 0 := F.next_eq (A := [])
  have hprev : h.prev (b.address lo) = 0 := F.prev_eq (A := [])
  have hnd := List.nodup_cons.mp F.nodup
  have hnn : h.next (b.address lo) ≠ b.address lo := by
    rw [hnext]
    intro heq
    cases L with
    | nil => exact hza heq.symm
    | cons x L => exact hnd.1 (by simp [show x = b.address lo from heq])
  have hpop : Buddy.popFree h b.level = (b.address lo, { h with
      freeLists := update h.freeLists b.level (h.next (b.address lo))
      prev := update (if h.next (b.address lo) ≠ 0 then
          update h.prev (h.next (b.address lo)) 0 else h.prev) (b.address lo) 0
      next := update h.next (b.address lo) 0
      isFree := update h.isFree (b.address lo) 0 }) := by
    by_cases hz : h.next (b.address lo) = 0 <;> simp [Buddy.popFree, hhead, hza, hz]
  rw [hpop]
  refine ⟨rfl, Y.setStatus .allocated ?_ (by simp) (by simp) (by simp) ?_ ?_ ?_ ?_⟩
  · intro _
    exact Y.header b hb (by simp [hfree])
  · intro a ha
    simp [ha]
  · refine F.unlink (A := []) ?_ ?_ ?_ ?_ ?_
    · simp
    · exact fun h0 => absurd hprev h0
    · intro hz
      simp [hz, hnn, hprev]
    · intro y _ hy
      simp [hy]
    · intro y hy hya
      by_cases hz : h.next (b.address lo) = 0 <;> simp [hz, hya, hy]
  · intro l hl' hne
    have hout : ∀ a ∈ lists l, a ≠ b.address lo := by
      intro a ha heq
      exact hne (Y.lists_disjoint hl' hl (a := a) ha (by rw [heq, hlist]; simp))
    refine Y.ring_frame hl hl' hne hout ?_ ?_ ?_
    · intro k hk
      simp [hk]
    · intro a _ hab
      simp [hab]
    · intro a ha hab
      rw [hlist] at ha
      by_cases hz : h.next (b.address lo) = 0
      · simp [hz, hab]
      · have han : a ≠ h.next (b.address lo) := by
          intro heq
          apply ha
          rw [heq, hnext]
          cases L with
          | nil => simp [hnext] at hz
          | cons x L => simp
        simp [hz, hab, han]
  · intro a
    rw [hlist]
    simp only [List.mem_cons, reduceCtorEq, and_false, false_or]
    constructor
    · intro ha
      have hne : a ≠ b.address lo := fun heq => hnd.1 (heq ▸ ha)
      exact ⟨hne, Or.inr ha⟩
    · rintro ⟨hne, heq | ha⟩
      · exact absurd heq hne
      · exact ha

/-- The search of `remove_from_free_list` stops at the link that points to its argument. -/
theorem findSlot_eq {a fuel : ℕ} {A B C : List ℕ} {slot : Slot}
    (F : FreeRing h l (A ++ (C ++ a :: B))) (hslot : slot.read h = (C ++ a :: B).head?.getD 0)
    (hfuel : C.length < fuel) :
    findSlot h a fuel slot = some (C.getLast?.elim slot Slot.nextOf) := by
  -- induction on the blocks between the current link and the argument
  induction C generalizing A slot fuel with
  | nil =>
      obtain ⟨fuel, rfl⟩ := Nat.exists_eq_add_of_lt hfuel
      have hread : slot.read h = a := by simpa using hslot
      simp [findSlot, hread]
  | cons c C ih =>
      obtain ⟨fuel, rfl⟩ := Nat.exists_eq_add_of_lt hfuel
      have hread : slot.read h = c := by simpa using hslot
      have hzero : c ≠ 0 := F.ne_zero (by simp)
      have hne : c ≠ a := by
        have hnd := (List.nodup_append.mp F.nodup).2.1
        rw [List.cons_append, List.nodup_cons] at hnd
        exact fun heq => hnd.1 (by simp [heq])
      have hnext : (Slot.nextOf c).read h = (C ++ a :: B).head?.getD 0 := F.next_eq
      have hlen : C.length < (c :: C).length + fuel := by
        simp only [List.length_cons]
        omega
      have hrest := ih (A := A ++ [c]) (by simpa using F) hnext hlen
      simp only [findSlot, hread]
      rw [if_pos ⟨hzero, hne⟩, hrest, List.getLast?_cons]
      cases C.getLast? <;> rfl

theorem Layout.lists_length_lt (Y : Layout lo count maxLevel h blocks lists)
    (hl : l < mmMaxLevels) : (lists l).length < addressCount := by
  have hsub : lists l ⊆ blocks.map (Block.address lo) := by
    intro a ha
    obtain ⟨x, hx, rfl, -⟩ := (Y.mem_lists l hl a).mp ha
    exact List.mem_map_of_mem hx
  have hle := ((Y.ring l hl).nodup.subperm hsub).length_le
  rw [List.length_map] at hle
  have hcount := Y.tiles.length_le (fun x _ => units_pos x)
  have hhigh := Y.high_le
  have hpos := Y.low_pos
  unfold unitBytes at hhigh
  unfold addressCount
  omega

/-- `remove_from_free_list` unlists a free block, wherever it stands in its list. -/
theorem Layout.removeFromFreeList (Y : Layout lo count maxLevel h (left ++ b :: right) lists)
    (hfree : b.status = .free) :
    ∃ h', removeFromFreeList h (b.address lo) = some h' ∧ h'.region = h.region ∧
      h'.level = h.level ∧ h'.isFree = h.isFree ∧
      Layout lo count maxLevel h' (left ++ { b with status := .held } :: right)
        (update lists b.level ((lists b.level).erase (b.address lo))) := by
  have hb : b ∈ left ++ b :: right := by simp
  have hl := Y.level_lt hb
  have F := Y.ring b.level hl
  have hlevel : h.level (b.address lo) = b.level := Y.header b hb (by simp [hfree])
  have hmem : b.address lo ∈ lists b.level := (Y.mem_lists _ hl _).mpr ⟨b, hb, rfl, rfl, hfree⟩
  obtain ⟨A, B, hlist⟩ := List.append_of_mem hmem
  rw [hlist] at F
  have hlen : A.length < addressCount := by
    have hall := Y.lists_length_lt hl
    rw [hlist, List.length_append] at hall
    omega
  have hslot : findSlot h (b.address lo) addressCount (.listHead b.level) =
      some (A.getLast?.elim (.listHead b.level) Slot.nextOf) :=
    findSlot_eq (A := []) F F.head_eq hlen
  have hza : b.address lo ≠ 0 := (Y.address_pos hb).ne'
  have hnd := List.nodup_append.mp F.nodup
  have hnn : h.next (b.address lo) ≠ b.address lo := by
    rw [F.next_eq]
    intro heq
    cases B with
    | nil => exact hza heq.symm
    | cons x B => exact (List.nodup_cons.mp hnd.2.1).1 (by simp [show x = _ from heq])
  have hrun : ∃ h', Buddy.removeFromFreeList h (b.address lo) = some h' ∧
      h'.region = h.region ∧ h'.level = h.level ∧ h'.isFree = h.isFree ∧
      h'.freeLists = (if h.prev (b.address lo) = 0 then
        update h.freeLists b.level (h.next (b.address lo)) else h.freeLists) ∧
      (∀ y, y ≠ b.address lo → h'.next y = if y = h.prev (b.address lo) ∧ y ≠ 0 then
        h.next (b.address lo) else h.next y) ∧
      ∀ y, y ≠ b.address lo → h'.prev y = if y = h.next (b.address lo) ∧ y ≠ 0 then
        h.prev (b.address lo) else h.prev y := by
    have hprev := F.prev_eq
    unfold Buddy.removeFromFreeList
    rw [hlevel, hslot, Option.map_some]
    cases A using List.reverseRecOn with
    | nil =>
        have hread : (Slot.listHead b.level).read h = b.address lo := F.head_eq
        have hp : h.prev (b.address lo) = 0 := hprev
        refine ⟨_, rfl, ?_⟩
        simp only [List.getLast?_nil, Option.elim_none, hread, if_true, Slot.write]
        by_cases hz : h.next (b.address lo) = 0
        · simp +contextual [hz, hp, Heap.region]
        · simp +contextual [hz, hp, Heap.region, Function.update_apply]
          grind
    | append_singleton A x =>
        have hp : h.prev (b.address lo) = x := by simpa using hprev
        have hx0 : x ≠ 0 := F.ne_zero (by simp)
        have hxb : x ≠ b.address lo := hnd.2.2 x (by simp) _ (by simp)
        have hread : (Slot.nextOf x).read h = b.address lo := by
          have hnx := (List.append_assoc A [x] _ ▸ F :
            FreeRing h b.level (A ++ x :: b.address lo :: B)).next_eq
          simpa [Slot.read] using hnx
        refine ⟨_, rfl, ?_⟩
        simp only [List.getLast?_concat, Option.elim_some, hread, if_true, Slot.write]
        by_cases hz : h.next (b.address lo) = 0
        · simp +contextual [hz, hp, Heap.region, Function.update_apply, hxb.symm, hx0]
          grind
        · simp +contextual [hz, hp, Heap.region, Function.update_apply, hxb.symm, hx0]
          grind
  obtain ⟨h', hsome, hregion, hlev, hflag, hheads, hnext, hprev⟩ := hrun
  refine ⟨h', hsome, hregion, hlev, hflag, ?_⟩
  refine Y.setStatus .held (by simp) (by simp) (by simp) (by simp [hlev]) (by simp [hflag])
    ?_ ?_ ?_
  · rw [hlist, List.erase_append_right _ (fun hA => hnd.2.2 _ hA _ (by simp) rfl),
      List.erase_cons_head]
    refine F.unlink ?_ ?_ ?_ ?_ ?_
    · intro h0
      simp [hheads, h0]
    · intro h0
      have hpb : h.prev (b.address lo) ≠ b.address lo := by
        obtain ⟨last, hring⟩ := F
        simpa [hza] using hring.pv_ne (x := b.address lo) (by simp)
      exact ⟨by simp [hheads, h0], by simp [hnext _ hpb, h0]⟩
    · intro h0
      simp [hprev _ hnn, h0]
    · intro y hy hya
      simp [hnext y hya, hy]
    · intro y hy hya
      simp [hprev y hya, hy]
  · intro l hl' hne
    have hout : ∀ a ∈ lists l, a ≠ b.address lo := by
      intro a ha heq
      exact hne (Y.lists_disjoint hl' hl (a := a) ha (by rw [heq]; exact hmem))
    refine Y.ring_frame hl hl' hne hout ?_ ?_ ?_
    · intro k hk
      by_cases h0 : h.prev (b.address lo) = 0 <;> simp [hheads, h0, hk]
    · intro a ha hab
      have hap : a = h.prev (b.address lo) → a = 0 := by
        intro heq
        by_contra h0
        apply ha
        rw [hlist, heq, F.prev_eq]
        cases A using List.reverseRecOn with
        | nil => exact absurd (heq.trans F.prev_eq) h0
        | append_singleton A x => simp
      rw [hnext a hab, if_neg (by tauto)]
    · intro a ha hab
      have han : a = h.next (b.address lo) → a = 0 := by
        intro heq
        by_contra h0
        apply ha
        rw [hlist, heq, F.next_eq]
        cases B with
        | nil => exact absurd (heq.trans F.next_eq) h0
        | cons x B => simp
      rw [hprev a hab, if_neg (by tauto)]
  · intro a
    rw [(Y.ring b.level hl).nodup.mem_erase_iff]
    simp

end Lists
section Levels

/-- The levels of the manager are small enough for their sizes to be exact. -/
theorem two_pow_level_le (hl : l < mmMaxLevels) : 2 ^ l ≤ 2 ^ 31 :=
  Nat.pow_le_pow_right (by decide) (Nat.le_of_lt_succ hl)

theorem blockBytes_eq (hbase : h.baseBlockSize = unitBytes) (hl : l < mmMaxLevels) :
    blockBytes h l = unitBytes * 2 ^ l := by
  have hpow := two_pow_level_le hl
  have hexact : 2 ^ l * unitBytes < 2 ^ 64 := by
    simp only [unitBytes]
    omega
  unfold blockBytes pow2U64
  rw [hbase, Nat.mod_eq_of_lt (by omega), Word64.mul_eq hexact, Nat.mul_comm]

/-- `find_buddy` flips one bit of the number of the first base block. -/
theorem findBuddy_eq (Y : Layout lo (usable / unitBytes) maxLevel h blocks lists)
    (S : Statics lo usable maxLevel h) (hb : b ∈ blocks)
    (hlevel : h.level (b.address lo) = b.level) :
    findBuddy h (b.address lo) =
      if usable < unitBytes * (Dyadic.buddy b.index b.level + b.units) then 0
      else unitAddress lo (Dyadic.buddy b.index b.level) := by
  have hl := Y.level_lt hb
  have hpow := two_pow_level_le hl
  have hindex := Y.bounds hb
  have hextent := S.extent_lt
  have hhigh := Y.high_le
  have hpos := units_pos b
  have hsmall : Dyadic.buddy b.index b.level ≤ b.index + 2 ^ b.level := by
    obtain ⟨-, heq⟩ | ⟨-, -, heq⟩ := Dyadic.buddy_cases (Y.aligned b hb)
    · exact le_of_eq heq
    · rw [heq]
      exact le_trans (Nat.sub_le _ _) (Nat.le_add_right _ _)
  have hoff : Word64.sub (b.address lo) lo = unitBytes * b.index := by
    simp only [Block.address, unitAddress, unitBytes] at hhigh hindex ⊢
    rw [Word64.sub_eq (Nat.le_add_right _ _) (by omega)]
    omega
  have hxor : (unitBytes * b.index) ^^^ (unitBytes * 2 ^ b.level) =
      unitBytes * Dyadic.buddy b.index b.level :=
    Dyadic.two_pow_mul_xor 6 b.index (2 ^ b.level)
  have hsum : Word64.add (unitBytes * Dyadic.buddy b.index b.level) (unitBytes * 2 ^ b.level) =
      unitBytes * (Dyadic.buddy b.index b.level + b.units) := by
    simp only [topBytes, unitBytes, mmMaxLevels, Block.units] at *
    rw [Word64.add_eq (by omega), Nat.mul_add]
  unfold findBuddy
  simp only [hlevel, S.heapBase, S.heapUsableBytes, blockBytes_eq S.baseBlockSize hl, hoff, hxor,
    hsum]
  by_cases hend : usable < unitBytes * (Dyadic.buddy b.index b.level + b.units)
  · rw [if_pos hend, if_pos hend]
  · rw [if_neg hend, if_neg hend, unitAddress, Word64.add_eq]
    simp only [unitBytes] at *
    omega

/-- Whatever `find_buddy` returns is `NULL` or the header of a block, which then starts
at the buddy and is not larger. -/
theorem findBuddy_cases (Y : Layout lo (usable / unitBytes) maxLevel h blocks lists)
    (S : Statics lo usable maxLevel h) (hb : b ∈ blocks)
    (hlevel : h.level (b.address lo) = b.level) :
    (findBuddy h (b.address lo) = 0 ∧ ∀ c ∈ blocks, ¬Buddies b c) ∨
      ∃ c ∈ blocks, findBuddy h (b.address lo) = c.address lo ∧
        c.index = Dyadic.buddy b.index b.level := by
  rw [findBuddy_eq Y S hb hlevel]
  by_cases hend : usable < unitBytes * (Dyadic.buddy b.index b.level + b.units)
  · refine Or.inl ⟨by rw [if_pos hend], ?_⟩
    rintro c hc ⟨heq, hidx⟩
    have hbound := Y.bounds hc
    rw [hidx, Block.units, ← heq] at hbound
    simp only [unitBytes, Block.units] at *
    omega
  · right
    rw [if_neg hend]
    obtain ⟨c, hc, hidx, -⟩ := Dyadic.exists_buddy Y.tiles Y.aligned hb (by
      simp only [unitBytes, Block.units] at hend ⊢
      omega)
    exact ⟨c, hc, by rw [Block.address, hidx], hidx⟩

end Levels
section Split

@[simp] theorem pushHalf_region (h : Heap) (l a : ℕ) : (pushHalf h l a).region = h.region :=
  (pushFree_region _ _).trans rfl

/-- Writing the header of a held block and listing it. -/
theorem Layout.pushHalf (Y : Layout lo count maxLevel h (left ++ b :: right) lists)
    (hheld : b.status = .held) :
    Layout lo count maxLevel (pushHalf h b.level (b.address lo))
      (left ++ { b with status := .free } :: right)
      (update lists b.level (b.address lo :: lists b.level)) := by
  have Y₁ : Layout lo count maxLevel
      { h with
        level := update h.level (b.address lo) b.level
        isFree := update h.isFree (b.address lo) 1
        prev := update h.prev (b.address lo) 0
        next := update h.next (b.address lo) 0 } (left ++ b :: right) lists := by
    refine Y.touch hheld ?_ ?_ ?_ ?_ ?_
    · rfl
    all_goals
      intro a ha
      simp [ha]
  exact Y₁.pushFree (by simp [hheld]) (by simp)

/-- The buddy rule for all pairs that leave out the block at `i`. -/
def ApartOff (i maxLevel : ℕ) (blocks : List Block) : Prop :=
  ∀ b ∈ blocks, ∀ c ∈ blocks, b.index ≠ i → c.index ≠ i → b.level < maxLevel → Buddies b c →
    ¬(b.status = .free ∧ c.status = .free)

theorem Apart.off (hapart : Apart maxLevel blocks) (i : ℕ) : ApartOff i maxLevel blocks :=
  fun b hb c hc _ _ => hapart b hb c hc

theorem Buddies.symm (hbc : Buddies b c) : Buddies c b := by
  refine ⟨hbc.1.symm, ?_⟩
  rw [hbc.2, ← hbc.1, Dyadic.buddy_buddy]

/-- Once the block that was left out is allocated, the rule is complete again. -/
theorem ApartOff.complete (Y : Layout lo count maxLevel h (left ++ b :: right) lists)
    (hoff : ApartOff b.index maxLevel (left ++ b :: right)) {level : ℕ} {status : Status}
    (hstatus : status ≠ .free) :
    Apart maxLevel (left ++ { b with level := level, status := status } :: right) := by
  have hrest : ∀ x ∈ left ++ { b with level := level, status := status } :: right,
      x.status = .free → x ∈ left ++ b :: right ∧ x.index ≠ b.index := by
    intro x hx hfree
    have hne := Y.index_ne (x := x)
    simp only [List.mem_append, List.mem_cons] at hx hne ⊢
    rcases hx with hx | rfl | hx
    · exact ⟨Or.inl hx, hne (Or.inl hx)⟩
    · exact absurd hfree hstatus
    · exact ⟨Or.inr (Or.inr hx), hne (Or.inr hx)⟩
  rintro x hx y hy hlevel hbud ⟨hxf, hyf⟩
  obtain ⟨hx, hxi⟩ := hrest x hx hxf
  obtain ⟨hy, hyi⟩ := hrest y hy hyf
  exact hoff x hx y hy hxi hyi hlevel hbud ⟨hxf, hyf⟩

/-- The free lists after the first block of level `l`, which starts at the base block `i`, was cut
down to level `ord`: it is gone, and each level from `ord` up to `l` has the upper half that was
cut off there. -/
def cutLists (lo i ord l : ℕ) (lists : ℕ → List ℕ) : ℕ → List ℕ := fun k =>
  if k = l then (lists l).tail
  else if ord ≤ k ∧ k < l then unitAddress lo (i + 2 ^ k) :: lists k
  else lists k

/-- One turn of `split_down`: the first listed block of level `l + 1` is replaced by its
halves, and the lower half comes first in the list of level `l`. -/
theorem Layout.splitTurn (Y : Layout lo count maxLevel h (left ++ b :: right) lists)
    {L : List ℕ} (hbase : h.baseBlockSize = unitBytes) (hfree : b.status = .free)
    (hl : b.level = l + 1) (hlist : lists b.level = b.address lo :: L) :
    ∃ lists', lists' l = b.address lo :: unitAddress lo (b.index + 2 ^ l) :: lists l ∧
      lists' b.level = L ∧ (∀ k, k ≠ l → k ≠ b.level → lists' k = lists k) ∧
      (Buddy.popFree h b.level).1 = b.address lo ∧
      Layout lo count maxLevel
        (Buddy.pushHalf (Buddy.pushHalf (Buddy.popFree h b.level).2 l
          (Word64.add (b.address lo) (blockBytes h b.level / 2))) l (b.address lo))
        (left ++ ⟨b.index, l, .free⟩ :: ⟨b.index + 2 ^ l, l, .free⟩ :: right) lists' := by
  have hb : b ∈ left ++ b :: right := by simp
  have hlevel := Y.level_lt hb
  have hbound := Y.address_bounds hb
  have hhigh := Y.high_le
  have hhalf : Word64.add (b.address lo) (blockBytes h b.level / 2) =
      unitAddress lo (b.index + 2 ^ l) := by
    have hpos := Nat.two_pow_pos l
    rw [blockBytes_eq hbase hlevel, hl]
    simp only [Block.units, hl, pow_succ] at hbound
    simp only [pow_succ, Block.address, unitAddress, unitBytes] at hbound hhigh ⊢
    rw [Word64.add_eq (by omega)]
    omega
  obtain ⟨hptr, Y₁⟩ := Y.popFree hfree hlist
  -- the popped block is cut into two held halves, which are then listed one by one
  have Y₂ : Layout lo count maxLevel (Buddy.popFree h b.level).2
      (left ++ [⟨b.index, l, .held⟩, ⟨b.index + 2 ^ l, l, .held⟩] ++ right)
      (update lists b.level L) := by
    have hdvd := Y.aligned b hb
    rw [hl] at hdvd
    have hdvd' : 2 ^ l ∣ b.index := (pow_dvd_pow 2 (Nat.le_succ l)).trans hdvd
    have hle := Y.level_le b hb
    have Y₁' : Layout lo count maxLevel (Buddy.popFree h b.level).2
        (left ++ [{ b with status := .allocated }] ++ right) (update lists b.level L) := by
      simpa using Y₁
    refine Y₁'.regroup (by simp) (by simp) ?_ ?_ ?_
    · intro p q ht
      simp only [Tiling.tiles_cons, Tiling.tiles_nil, Block.units, hl, pow_succ] at ht ⊢
      omega
    · simp only [List.mem_cons, List.not_mem_nil, or_false, forall_eq_or_imp, forall_eq]
      exact ⟨hdvd', Nat.dvd_add hdvd' dvd_rfl⟩
    · simp only [List.mem_cons, List.not_mem_nil, or_false, forall_eq_or_imp, forall_eq]
      omega
  have Y₂' : Layout lo count maxLevel (Buddy.popFree h b.level).2
      ((left ++ [⟨b.index, l, .held⟩]) ++ ⟨b.index + 2 ^ l, l, .held⟩ :: right)
      (update lists b.level L) := by simpa using Y₂
  have Y₃ := Y₂'.pushHalf rfl
  rw [List.append_assoc, List.singleton_append] at Y₃
  have Y₄ := Y₃.pushHalf rfl
  have hne : l ≠ b.level := by omega
  refine ⟨_, ?_, ?_, ?_, hptr, by rw [hhalf]; exact Y₄⟩
  · simp [Block.address, hne]
  · simp [hne.symm]
  · intro k hk hk'
    simp [hk, hk']

/-- Cutting the block that the rule leaves out creates no new pair: the upper half is the
buddy of the lower half only. -/
theorem ApartOff.cut (Y : Layout lo count maxLevel h (left ++ b :: right) lists)
    (hoff : ApartOff b.index maxLevel (left ++ b :: right)) (hl : b.level = l + 1) :
    ApartOff b.index maxLevel
      (left ++ ⟨b.index, l, .free⟩ :: ⟨b.index + 2 ^ l, l, .free⟩ :: right) := by
  have hdvd := Y.aligned b (by simp)
  rw [hl] at hdvd
  have hupper : Dyadic.buddy (b.index + 2 ^ l) l = b.index := by
    rw [← Dyadic.buddy_left hdvd, Dyadic.buddy_buddy]
  have hold : ∀ x ∈ left ++ ⟨b.index, l, .free⟩ :: ⟨b.index + 2 ^ l, l, .free⟩ :: right,
      x.index ≠ b.index → x ∈ left ++ b :: right ∨ x = ⟨b.index + 2 ^ l, l, .free⟩ := by
    intro x hx hxi
    simp only [List.mem_append, List.mem_cons] at hx ⊢
    rcases hx with hx | rfl | rfl | hx
    · exact Or.inl (Or.inl hx)
    · exact absurd rfl hxi
    · exact Or.inr rfl
    · exact Or.inl (Or.inr (Or.inr hx))
  intro x hx y hy hxi hyi hlevel hbud
  rcases hold x hx hxi with hx | rfl
  · rcases hold y hy hyi with hy | rfl
    · exact hoff x hx y hy hxi hyi hlevel hbud
    · exact absurd (hbud.symm.2.trans hupper) hxi
  · exact absurd (hbud.2.trans hupper) hyi

/-- `split_down` cuts the first listed block of its top level down to the target level. -/
theorem Layout.splitDown {toLevel steps : ℕ} {L : List ℕ}
    (Y : Layout lo count maxLevel h (left ++ b :: right) lists)
    (hbase : h.baseBlockSize = unitBytes) (hfree : b.status = .free)
    (hl : b.level = toLevel + steps) (hlist : lists b.level = b.address lo :: L)
    (hoff : ApartOff b.index maxLevel (left ++ b :: right)) :
    (splitDown h toLevel steps).1 = b.address lo ∧
      (splitDown h toLevel steps).2.region = h.region ∧
      ∃ mid, (∀ x ∈ mid, x.status = .free) ∧
        Layout lo count maxLevel (splitDown h toLevel steps).2
          (left ++ ⟨b.index, toLevel, .allocated⟩ :: (mid ++ right))
          (cutLists lo b.index toLevel b.level lists) ∧
        Apart maxLevel (left ++ ⟨b.index, toLevel, .allocated⟩ :: (mid ++ right)) := by
  -- induction on the number of levels still to descend
  induction steps generalizing h b right lists L with
  | zero =>
      obtain ⟨hptr, Y₁⟩ := Y.popFree hfree hlist
      rw [Nat.add_zero] at hl
      have hcut : cutLists lo b.index toLevel b.level lists = update lists b.level L := by
        funext k
        by_cases hk : k = b.level
        · simp [cutLists, hk, hlist]
        · rw [cutLists, if_neg hk, if_neg (by omega), Function.update_of_ne hk]
      rw [← hcut] at Y₁
      rw [hl] at hptr Y₁ ⊢
      refine ⟨hptr, popFree_region h toLevel, [], by simp, Y₁, ?_⟩
      exact ApartOff.complete Y hoff (by simp)
  | succ steps ih =>
      obtain ⟨lists', hlist', hgone, hsame, hptr, Y₁⟩ := Y.splitTurn hbase (l := toLevel + steps) hfree
        (by omega) hlist
      have hpos := (Y.address_pos (b := b) (by simp)).ne'
      have hturn : Buddy.splitDown h toLevel (steps + 1) = Buddy.splitDown
          (Buddy.pushHalf (Buddy.pushHalf (Buddy.popFree h b.level).2 (toLevel + steps)
            (Word64.add (b.address lo) (blockBytes h b.level / 2))) (toLevel + steps)
            (b.address lo)) toLevel steps := by
        rw [Buddy.splitDown, ← hl]
        simp only [hptr]
        rw [if_neg hpos, show b.level - 1 = toLevel + steps by omega]
      have hregion : (Buddy.pushHalf (Buddy.pushHalf (Buddy.popFree h b.level).2 (toLevel + steps)
          (Word64.add (b.address lo) (blockBytes h b.level / 2))) (toLevel + steps)
          (b.address lo)).region = h.region := by simp
      rw [hturn]
      have hcut := ApartOff.cut Y hoff (l := toLevel + steps) (by omega)
      have hbase' := congrArg (fun r => r.2.2.1) hregion
      obtain ⟨hptr', hregion', mid, hmid, Y', hapart⟩ :=
        ih Y₁ (hbase'.trans hbase) rfl rfl hlist' hcut
      have hlists : cutLists lo b.index toLevel (toLevel + steps) lists' =
          cutLists lo b.index toLevel b.level lists := by
        funext k
        unfold cutLists
        by_cases hk : k = b.level
        · rw [if_neg (by omega), if_neg (by omega), if_pos hk, hk, hgone, hlist, List.tail_cons]
        · by_cases hk' : k = toLevel + steps
          · rw [if_pos hk', if_neg hk, if_pos (by omega), hlist', List.tail_cons, hk']
          · rw [if_neg hk', if_neg hk, hsame k hk' hk]
            exact if_congr (by omega) rfl rfl
      rw [hlists] at Y'
      refine ⟨hptr', hregion'.trans hregion, mid ++ [⟨b.index + 2 ^ (toLevel + steps),
        toLevel + steps, .free⟩], ?_, by simpa using Y', by simpa using hapart⟩
      intro x hx
      rcases List.mem_append.mp hx with hx | hx
      · exact hmid x hx
      · rw [List.mem_singleton.mp hx]

end Split
section Alloc

/-- Only the memory at the listed blocks and the list heads matter. -/
theorem Layout.congr_heap (Y : Layout lo count maxLevel h blocks lists)
    (hlevel : ∀ b ∈ blocks, h'.level (b.address lo) = h.level (b.address lo))
    (hflag : ∀ b ∈ blocks, h'.isFree (b.address lo) = h.isFree (b.address lo))
    (hheads : h'.freeLists = h.freeLists)
    (hnext : ∀ b ∈ blocks, h'.next (b.address lo) = h.next (b.address lo))
    (hprev : ∀ b ∈ blocks, h'.prev (b.address lo) = h.prev (b.address lo)) :
    Layout lo count maxLevel h' blocks lists := by
  refine { Y with header := ?_, free_flag := ?_, allocated_flag := ?_, ring := ?_ }
  · exact fun b hb hheld => (hlevel b hb).trans (Y.header b hb hheld)
  · exact fun b hb hfree => (hflag b hb).trans (Y.free_flag b hb hfree)
  · exact fun b hb halloc => (hflag b hb).trans (Y.allocated_flag b hb halloc)
  · intro l hl
    refine (Y.ring l hl).congr (by rw [hheads]) ?_ ?_
    · intro a ha
      obtain ⟨b, hb, rfl, -⟩ := (Y.mem_lists l hl a).mp ha
      exact hnext b hb
    · intro a ha
      obtain ⟨b, hb, rfl, -⟩ := (Y.mem_lists l hl a).mp ha
      exact hprev b hb

theorem orderLoop_le (total levelsLeft blk order : ℕ) :
    orderLoop total levelsLeft blk order ≤ order + levelsLeft := by
  induction levelsLeft generalizing blk order with
  | zero => exact le_rfl
  | succ levelsLeft ih =>
      rw [orderLoop]
      by_cases hlt : blk < total
      · rw [if_pos hlt]
        have hrest := ih (Word64.mul blk 2) (order + 1)
        omega
      · rw [if_neg hlt]
        omega

theorem requestOrder_lt (h : Heap) (size : UInt64) : requestOrder h size < mmMaxLevels := by
  unfold requestOrder orderFor
  refine lt_of_le_of_lt (orderLoop_le _ _ _ _) ?_
  decide

/-- A level whose list is not empty gives its first block. -/
theorem Layout.first_of_level (Y : Layout lo count maxLevel h blocks lists)
    (hl : l < mmMaxLevels) (hhead : h.freeLists l ≠ 0) :
    ∃ left b right L, blocks = left ++ b :: right ∧ b.status = .free ∧ b.level = l ∧
      lists l = b.address lo :: L ∧ h.freeLists l = b.address lo := by
  have hfirst := (Y.ring l hl).head_eq
  cases hlist : lists l with
  | nil => exact absurd (by simpa [hlist] using hfirst) hhead
  | cons a L =>
      obtain ⟨left, b, right, hblocks, haddr, hlevel, hfree⟩ := Y.of_mem_lists (a := a) hl
        (by simp [hlist])
      refine ⟨left, b, right, L, hblocks, hfree, hlevel, by rw [haddr], ?_⟩
      rw [hfirst, hlist, haddr]
      rfl

theorem Layout.head_eq_zero (Y : Layout lo count maxLevel h blocks lists)
    (hl : l < mmMaxLevels) (hhead : h.freeLists l = 0) : lists l = [] := by
  have hfirst := (Y.ring l hl).head_eq
  cases hlist : lists l with
  | nil => rfl
  | cons a L =>
      have hz : a ≠ 0 := (Y.ring l hl).ne_zero (by simp [hlist])
      exact absurd (by simpa [hlist, hhead, eq_comm] using hfirst) hz

/-- The address of the block that serves a request of level `ord`: the first block of the
first level from `ord` up whose list is not empty. -/
def servingBlock (h : Heap) (ord : ℕ) : Option ℕ :=
  ((List.range' ord (h.maxLevel + 1 - ord)).find? fun l => decide (h.freeLists l ≠ 0)).map
    h.freeLists

theorem servingBlock_cons {ord : ℕ} (hord : ord ≤ h.maxLevel) :
    servingBlock h ord = if h.freeLists ord ≠ 0 then some (h.freeLists ord)
      else (firstLevelAbove h ord).map h.freeLists := by
  unfold servingBlock firstLevelAbove
  rw [show h.maxLevel + 1 - ord = (h.maxLevel - ord) + 1 by omega, List.range'_succ,
    List.find?_cons]
  by_cases hz : h.freeLists ord = 0 <;> simp [hz]

theorem firstLevelAbove_some {ord : ℕ} (hfind : firstLevelAbove h ord = some l) :
    ord < l ∧ l ≤ h.maxLevel ∧ h.freeLists l ≠ 0 := by
  unfold firstLevelAbove at hfind
  have hmem := List.mem_of_find?_eq_some hfind
  have hhead := List.find?_some hfind
  rw [List.mem_range'_1] at hmem
  exact ⟨by omega, by omega, by simpa using hhead⟩

/-- `mm_alloc` takes the first block of the first level that has one and cuts it down. -/
theorem Represents.takeBlock (R : Represents lo usable maxLevel h blocks lists) {ord : ℕ}
    (hord : ord < mmMaxLevels) :
    (takeBlock h ord = (0, h) ∧ servingBlock h ord = none) ∨
      ∃ left b right mid, blocks = left ++ b :: right ∧ b.status = .free ∧
        servingBlock h ord = some (b.address lo) ∧
        (takeBlock h ord).1 = b.address lo ∧ (takeBlock h ord).2.region = h.region ∧
        (∀ x ∈ mid, x.status = .free) ∧
        Layout lo (usable / unitBytes) maxLevel (takeBlock h ord).2
          (left ++ ⟨b.index, ord, .allocated⟩ :: (mid ++ right))
          (cutLists lo b.index ord b.level lists) ∧
        Apart maxLevel (left ++ ⟨b.index, ord, .allocated⟩ :: (mid ++ right)) := by
  have hmax := R.statics.maxLevel
  by_cases hz : h.freeLists ord = 0
  · have F := R.layout.ring ord hord
    rw [R.layout.head_eq_zero hord hz] at F
    have hpop := popFree_of_empty F
    have hserve : servingBlock h ord = (firstLevelAbove h ord).map h.freeLists := by
      by_cases hle : ord ≤ h.maxLevel
      · rw [servingBlock_cons hle, if_neg (by simpa using hz)]
      · unfold servingBlock firstLevelAbove
        rw [show h.maxLevel + 1 - ord = 0 by omega, show h.maxLevel - ord = 0 by omega]
        rfl
    have htake : Buddy.takeBlock h ord =
        (firstLevelAbove h ord).elim (0, h) fun l => splitDown h ord (l - ord) := by
      unfold Buddy.takeBlock
      rw [hpop]
      dsimp only
      rw [if_neg (by decide)]
      cases firstLevelAbove h ord <;> rfl
    cases hfind : firstLevelAbove h ord with
    | none =>
        rw [hfind] at htake hserve
        exact Or.inl ⟨htake, hserve⟩
    | some l =>
        rw [hfind] at htake hserve
        obtain ⟨hlt, hle, hhead⟩ := firstLevelAbove_some hfind
        have hl : l < mmMaxLevels := lt_of_le_of_lt (hmax ▸ hle) R.layout.maxLevel_lt
        obtain ⟨left, b, right, L, rfl, hfree, hlevel, hlist, haddr⟩ :=
          R.layout.first_of_level hl hhead
        have hsum : b.level = ord + (l - ord) := by omega
        have hsplit := R.layout.splitDown R.statics.baseBlockSize hfree hsum
          (by rw [hlevel, hlist]) (R.apart.off b.index)
        rw [← show Buddy.takeBlock h ord = splitDown h ord (l - ord) from htake] at hsplit
        obtain ⟨hptr, hregion, mid, hmid, Y', hapart⟩ := hsplit
        refine Or.inr ⟨left, b, right, mid, rfl, hfree, ?_, hptr, hregion, hmid, Y', hapart⟩
        rw [hserve, Option.map_some, haddr]
  · obtain ⟨left, b, right, L, rfl, hfree, hlevel, hlist, haddr⟩ :=
      R.layout.first_of_level hord hz
    have hle : ord ≤ h.maxLevel := by
      have := R.layout.level_le b (by simp)
      omega
    obtain ⟨hptr, Y'⟩ := R.layout.popFree hfree (by rw [hlevel, hlist])
    rw [hlevel] at hptr Y'
    have htake : Buddy.takeBlock h ord = popFree h ord := by
      have hpos := (R.layout.address_pos (b := b) (by simp)).ne'
      unfold Buddy.takeBlock
      simp only [hptr]
      rw [if_pos hpos]
    have hcut : cutLists lo b.index ord b.level lists = update lists ord L := by
      funext k
      by_cases hk : k = ord
      · simp [cutLists, hlevel, hk, hlist]
      · rw [cutLists, hlevel, if_neg hk, if_neg (by omega), Function.update_of_ne hk]
    rw [← hcut] at Y'
    rw [htake]
    refine Or.inr ⟨left, b, right, [], rfl, hfree, ?_, hptr, popFree_region h ord, by simp, Y', ?_⟩
    · rw [servingBlock_cons hle, if_pos hz, haddr]
    · exact ApartOff.complete R.layout (R.apart.off b.index) (by simp)

/-- A call of `mm_alloc` on an initialized heap returns. Either it returns `NULL` and
leaves the layout alone, or it returns the payload of a block of the requested level cut
from the serving block. -/
theorem mmAlloc_spec (R : Represents lo usable maxLevel h blocks lists)
    (endOfKernel size : UInt64) :
    ∃ ptr h', mmAlloc endOfKernel h size = some (ptr, h') ∧
      ((ptr = 0 ∧ Represents lo usable maxLevel h' blocks lists ∧
          (size = 0 ∨ servingBlock h (requestOrder h size) = none)) ∨
        ∃ left b right mid, blocks = left ++ b :: right ∧ b.status = .free ∧ size ≠ 0 ∧
          servingBlock h (requestOrder h size) = some (b.address lo) ∧
          ptr = b.address lo + hdrSize ∧ (∀ x ∈ mid, x.status = .free) ∧
          Represents lo usable maxLevel h'
            (left ++ ⟨b.index, requestOrder h size, .allocated⟩ :: (mid ++ right))
            (cutLists lo b.index (requestOrder h size) b.level lists)) := by
  have hcall : mmAlloc endOfKernel h size = some (allocInitialized h size) := by
    unfold mmAlloc
    rw [if_pos R.statics.initialized]
  rw [hcall]
  unfold allocInitialized
  by_cases hzero : size = 0
  · exact ⟨0, h, by rw [if_pos hzero], Or.inl ⟨rfl, R, Or.inl hzero⟩⟩
  rw [if_neg hzero]
  rcases R.takeBlock (requestOrder_lt h size) with ⟨htake, hserve⟩ | ⟨left, b, right, mid,
    rfl, hfree, hserve, hptr, hregion, hmid, Y', hapart⟩
  · refine ⟨0, { h with heapFailedAllocations := Word64.add h.heapFailedAllocations 1 }, ?_,
      Or.inl ⟨rfl, ?_, Or.inr hserve⟩⟩
    · simp only [htake, if_true]
    · exact ⟨R.layout.congr_heap (fun _ _ => rfl) (fun _ _ => rfl) rfl (fun _ _ => rfl)
        (fun _ _ => rfl), R.statics.congr rfl, R.none_held, R.apart⟩
  · have hb : b ∈ left ++ b :: right := by simp
    have hpos := (R.layout.address_pos hb).ne'
    have hadd : Word64.add (b.address lo) hdrSize = b.address lo + hdrSize := by
      have hbound := R.layout.address_bounds hb
      have hhigh := R.layout.high_le
      have hunits := units_pos b
      have hhdr : hdrSize = 32 := by decide
      simp only [unitBytes] at hbound hhigh
      exact Word64.add_eq (by omega)
    obtain ⟨h₁, hh₁⟩ : ∃ h₁, (takeBlock h (requestOrder h size)).2 = h₁ := ⟨_, rfl⟩
    rw [hh₁] at hregion Y'
    refine ⟨b.address lo + hdrSize, countAllocation
        { h₁ with isFree := update h₁.isFree (b.address lo) 0 }
        (Word64.sub (blockBytes { h₁ with isFree := update h₁.isFree (b.address lo) 0 }
          (requestOrder h size)) hdrSize), ?_,
      Or.inr ⟨left, b, right, mid, rfl, hfree, hzero, hserve, rfl, hmid, ?_⟩⟩
    · simp only [hptr, hh₁, hadd]
      rw [if_neg hpos]
    · have hflag := Y'.allocated_flag ⟨b.index, requestOrder h size, .allocated⟩ (by simp) rfl
      refine ⟨Y'.congr_heap (fun _ _ => rfl) ?_ rfl (fun _ _ => rfl) (fun _ _ => rfl),
        R.statics.congr hregion, ?_, hapart⟩
      · intro x _
        by_cases hx : x.address lo = b.address lo
        · rw [hx]
          simpa [countAllocation, Block.address] using hflag.symm
        · simp [countAllocation, hx]
      · intro x hx
        have hold := R.none_held x
        have hxmid := hmid x
        simp only [List.mem_append, List.mem_cons] at hx hold
        rcases hx with hx | rfl | hx | hx
        · exact hold (Or.inl hx)
        · simp
        · simp [hxmid hx]
        · exact hold (Or.inr (Or.inr hx))

end Alloc

section Coalesce

/-- The allocated blocks of a layout, which no merge of free blocks changes. -/
def allocatedBlocks (blocks : List Block) : List Block :=
  blocks.filter fun b => decide (b.status = .allocated)

theorem mem_allocatedBlocks : b ∈ allocatedBlocks blocks ↔ b ∈ blocks ∧ b.status = .allocated := by
  simp [allocatedBlocks]

/-- The rule only constrains free blocks. -/
theorem Apart.mono {blocks' : List Block} (hapart : Apart maxLevel blocks)
    (hsub : ∀ x ∈ blocks', x.status = .free → x ∈ blocks) : Apart maxLevel blocks' :=
  fun x hx y hy hlevel hbud hfree =>
    hapart x (hsub x hx hfree.1) y (hsub y hy hfree.2) hlevel hbud hfree

/-- Two held halves become their parent, whose header `coalesce` writes over the lower one. -/
theorem Layout.takeParent {x y : Block}
    (Y : Layout lo count maxLevel h (left ++ x :: y :: right) lists)
    (hx : x.status = .held) (hy : y.status = .held) (hlevel : y.level = x.level)
    (hmax : x.level < maxLevel) (hdvd : 2 ^ (x.level + 1) ∣ x.index)
    (hheader : h.level (x.address lo) = x.level) :
    Layout lo count maxLevel (takeParent h (x.address lo))
        (left ++ ⟨x.index, x.level + 1, .held⟩ :: right) lists ∧
      (Buddy.takeParent h (x.address lo)).level (x.address lo) = x.level + 1 := by
  have hlt := Y.maxLevel_lt
  have hmaxl : mmMaxLevels = 32 := rfl
  have Y₁ : Layout lo count maxLevel h
      (left ++ [⟨x.index, x.level + 1, .held⟩] ++ right) lists := by
    have Y' : Layout lo count maxLevel h (left ++ [x, y] ++ right) lists := by simpa using Y
    refine Y'.regroup (by simp [hx, hy]) (by simp) ?_ ?_ ?_
    · intro p q ht
      simp only [Tiling.tiles_cons, Tiling.tiles_nil, Block.units, hlevel, pow_succ] at ht ⊢
      omega
    · simpa using hdvd
    · simp only [List.mem_singleton, forall_eq]
      omega
  refine ⟨?_, ?_⟩
  · rw [List.append_assoc, List.singleton_append] at Y₁
    refine Y₁.touch rfl ?_ ?_ ?_ ?_ ?_
    · rfl
    all_goals
      intro a ha
      simp only [Block.address] at ha
      simp [Buddy.takeParent, Block.address, ha]
  · simp only [Buddy.takeParent, Function.update_self, hheader]
    omega

/-- What the loop of `coalesce` maintains: the block in hand is held and its header is
written, every other block is free or allocated, and the buddy rule holds. -/
structure InHand (lo usable maxLevel : ℕ) (h : Heap) (left : List Block) (b : Block)
    (right : List Block) (lists : ℕ → List ℕ) : Prop where
  layout : Layout lo (usable / unitBytes) maxLevel h (left ++ b :: right) lists
  statics : Statics lo usable maxLevel h
  held : b.status = .held
  header : h.level (b.address lo) = b.level
  others : ∀ x ∈ left ++ right, x.status ≠ .held
  apart : Apart maxLevel (left ++ b :: right)

namespace InHand

variable (H : InHand lo usable maxLevel h left b right lists)
include H

theorem mem_others (hc : c ∈ left ++ b :: right) (hne : c.index ≠ b.index) :
    c ∈ left ++ right := by
  simp only [List.mem_append, List.mem_cons] at hc ⊢
  rcases hc with hc | rfl | hc
  · exact Or.inl hc
  · exact absurd rfl hne
  · exact Or.inr hc

/-- One merge: the free buddy is unlisted and absorbed. -/
theorem merge (hc : c ∈ left ++ right) (hbud : Buddies b c) (hfree : c.status = .free)
    (hmax : b.level < maxLevel) :
    ∃ h₁ left' m right' lists', removeFromFreeList h (c.address lo) = some h₁ ∧
      m.address lo = (if c.address lo < b.address lo then c.address lo else b.address lo) ∧
      m.level = b.level + 1 ∧
      InHand lo usable maxLevel (takeParent h₁ (m.address lo)) left' m right' lists' ∧
      allocatedBlocks (left' ++ right') = allocatedBlocks (left ++ right) := by
  have Y := H.layout
  have hlevel := hbud.1
  obtain ⟨hl, hr⟩ := Tiling.tiles_split.mp Y.tiles
  have hpos := units_pos c
  have hunits : c.units = b.units := by rw [Block.units, Block.units, hlevel]
  rcases Dyadic.buddy_cases (Y.aligned b (by simp)) with ⟨hdvd, heq⟩ | ⟨hge, hdvd, heq⟩
  · -- the buddy follows the block in hand
    have hidx : c.index = b.index + b.units := hbud.2.trans heq
    have hmem : c ∈ right := by
      rcases List.mem_append.mp hc with hm | hm
      · have hend := (hl.bounds hm).2
        omega
      · exact hm
    obtain ⟨right', rfl⟩ := hr.head_of_start (fun x _ => units_pos x) hmem hidx
    have Y' : Layout lo (usable / unitBytes) maxLevel h ((left ++ [b]) ++ c :: right') lists := by
      simpa using Y
    obtain ⟨h₁, hrem, hregion, hlev, -, Y₁⟩ := Y'.removeFromFreeList hfree
    obtain ⟨Y₂, hheader⟩ := Layout.takeParent (x := b) (y := { c with status := .held })
      (by simpa using Y₁) H.held rfl hlevel.symm hmax hdvd (by rw [hlev]; exact H.header)
    refine ⟨h₁, left, ⟨b.index, b.level + 1, .held⟩, right', _, hrem, ?_, rfl,
      ⟨Y₂, H.statics.congr hregion, rfl, hheader, ?_, H.apart.mono ?_⟩, ?_⟩
    · rw [if_neg]
      · rfl
      · simp only [Block.address, unitAddress, hidx, unitBytes]
        omega
    · intro x hx
      apply H.others
      simp only [List.mem_append, List.mem_cons] at hx ⊢
      tauto
    · intro x hx hxf
      simp only [List.mem_append, List.mem_cons] at hx ⊢
      rcases hx with hx | rfl | hx
      · exact Or.inl hx
      · cases hxf
      · exact Or.inr (Or.inr (Or.inr hx))
    · simp [allocatedBlocks, hfree]
  · -- the buddy precedes it and becomes the block in hand
    have hidx : c.index = b.index - b.units := hbud.2.trans heq
    have hge' : b.units ≤ b.index := hge
    have hmem : c ∈ left := by
      rcases List.mem_append.mp hc with hm | hm
      · exact hm
      · have hstart := (hr.bounds hm).1
        omega
    obtain ⟨left', rfl⟩ := hl.last_of_end (fun x _ => units_pos x) hmem (by omega)
    have Y' : Layout lo (usable / unitBytes) maxLevel h (left' ++ c :: b :: right) lists := by
      simpa using Y
    obtain ⟨h₁, hrem, hregion, hlev, -, Y₁⟩ := Y'.removeFromFreeList hfree
    have hcheader : h₁.level (c.address lo) = c.level := by
      rw [hlev]
      exact Y.header c (by simp) (by simp [hfree])
    have hcdvd : 2 ^ (c.level + 1) ∣ c.index := by
      rw [← hlevel, hidx]
      exact hdvd
    obtain ⟨Y₂, hheader⟩ := Layout.takeParent (x := { c with status := .held }) (y := b)
      Y₁ rfl H.held hlevel (by rw [← hlevel]; exact hmax) hcdvd hcheader
    refine ⟨h₁, left', ⟨c.index, c.level + 1, .held⟩, right, _, hrem, ?_, by rw [hlevel],
      ⟨Y₂, H.statics.congr hregion, rfl, hheader, ?_, H.apart.mono ?_⟩, ?_⟩
    · rw [if_pos]
      · rfl
      · simp only [Block.address, unitAddress, hidx, unitBytes]
        have := units_pos b
        omega
    · intro x hx
      apply H.others
      simp only [List.mem_append, List.mem_cons] at hx ⊢
      tauto
    · intro x hx hxf
      simp only [List.mem_append, List.mem_cons] at hx ⊢
      rcases hx with hx | rfl | hx
      · exact Or.inl (Or.inl hx)
      · cases hxf
      · exact Or.inr (Or.inr hx)
    · simp [allocatedBlocks, hfree]

/-- The loop of `coalesce` ends with a block in hand that has no free buddy. -/
theorem coalesceLoop {fuel : ℕ} (hfuel : maxLevel < b.level + fuel) :
    ∃ h' left' m right' lists', coalesceLoop fuel h (b.address lo) = some (m.address lo, h') ∧
      InHand lo usable maxLevel h' left' m right' lists' ∧
      (m.level < maxLevel → ∀ c ∈ left' ++ m :: right', Buddies m c → c.status ≠ .free) ∧
      allocatedBlocks (left' ++ right') = allocatedBlocks (left ++ right) := by
  -- induction on the turns left; every turn raises the level of the block in hand
  induction fuel generalizing h left b right lists with
  | zero =>
      have hle := H.layout.level_le b (by simp)
      omega
  | succ fuel ih =>
      have hb : b ∈ left ++ b :: right := by simp
      rw [Buddy.coalesceLoop, H.header, H.statics.maxLevel]
      by_cases hmax : b.level < maxLevel
      · rw [if_pos hmax]
        rcases findBuddy_cases H.layout H.statics hb H.header with ⟨hnull, hnone⟩ | ⟨c, hc, hbud,
          hidx⟩
        · refine ⟨h, left, b, right, lists, ?_, H, ?_, rfl⟩
          · simp only [hnull, true_or, if_true]
          · exact fun _ c hc hbc => absurd hbc (hnone c hc)
        · have hne : c.index ≠ b.index := by
            rw [hidx]
            exact Dyadic.buddy_ne _ _
          have hother := H.mem_others hc hne
          have hheld := H.others c hother
          have hclevel := H.layout.header c hc hheld
          have hcpos := (H.layout.address_pos hc).ne'
          by_cases hgo : c.status = .free ∧ c.level = b.level
          · obtain ⟨h₁, left', m, right', lists', hrem, hmin, hmlevel, H', hsame⟩ :=
              H.merge hother ⟨hgo.2.symm, hidx⟩ hgo.1 hmax
            have hflag := H.layout.free_flag c hc hgo.1
            obtain ⟨h', left'', m', right'', lists'', hloop, H'', hnone, hsame'⟩ :=
              ih H' (by omega)
            refine ⟨h', left'', m', right'', lists'', ?_, H'', hnone, hsame'.trans hsame⟩
            simp only [hbud, hcpos, hflag, hclevel, hgo.2, one_ne_zero, ne_eq, not_true_eq_false,
              or_self, if_false, hrem, Option.bind_some, ← hmin]
            exact hloop
          · refine ⟨h, left, b, right, lists, ?_, H, ?_, rfl⟩
            · have hstop : findBuddy h (b.address lo) = 0 ∨
                  h.isFree (findBuddy h (b.address lo)) = 0 ∨
                  h.level (findBuddy h (b.address lo)) ≠ b.level := by
                rw [hbud, hclevel]
                cases hst : c.status with
                | free => exact Or.inr (Or.inr fun heq => hgo ⟨hst, heq⟩)
                | allocated => exact Or.inr (Or.inl (H.layout.allocated_flag c hc hst))
                | held => exact absurd hst hheld
              simp only
              rw [if_pos hstop]
            · intro _ c' hc' hbc hfree
              have hcc := H.layout.index_injective hc' hc (hbc.2.trans hidx.symm)
              rw [hcc] at hbc hfree
              exact hgo ⟨hfree, hbc.1.symm⟩
      · rw [if_neg hmax]
        exact ⟨h, left, b, right, lists, rfl, H, fun hlt => absurd hlt hmax, rfl⟩

/-- Listing the block in hand ends the call, if it has no free buddy. -/
theorem close (hnone : b.level < maxLevel → ∀ c ∈ left ++ b :: right, Buddies b c →
      c.status ≠ .free) :
    Represents lo usable maxLevel (pushFree h (b.address lo))
      (left ++ { b with status := .free } :: right)
      (update lists b.level (b.address lo :: lists b.level)) := by
  have hrest : ∀ x ∈ left ++ { b with status := .free } :: right,
      x = { b with status := .free } ∨ x ∈ left ++ right := by
    intro x hx
    simp only [List.mem_append, List.mem_cons] at hx ⊢
    tauto
  have hmem : ∀ x ∈ left ++ right, x ∈ left ++ b :: right := by
    intro x hx
    simp only [List.mem_append, List.mem_cons] at hx ⊢
    tauto
  refine ⟨H.layout.pushFree (by simp [H.held]) H.header, H.statics.congr (pushFree_region _ _),
    ?_, ?_⟩
  · intro x hx
    rcases hrest x hx with rfl | hx
    · simp
    · exact H.others x hx
  · rintro x hx y hy hlevel hbud ⟨hxf, hyf⟩
    rcases hrest x hx with rfl | hx
    · rcases hrest y hy with rfl | hy
      · exact Dyadic.buddy_ne _ _ hbud.2.symm
      · exact hnone hlevel y (hmem y hy) hbud hyf
    · rcases hrest y hy with rfl | hy
      · have hlevel' : b.level < maxLevel := by
          rw [← show x.level = b.level from hbud.1]
          exact hlevel
        exact hnone hlevel' x (hmem x hx) hbud.symm hxf
      · exact H.apart x (hmem x hx) y (hmem y hy) hlevel hbud ⟨hxf, hyf⟩

end InHand

/-- Freeing an allocated block marks it, credits the level in its header and merges it. -/
theorem mmFree_eq (R : Represents lo usable maxLevel h (left ++ b :: right) lists)
    (halloc : b.status = .allocated) :
    mmFree h (b.address lo + hdrSize) =
      coalesce (countFree { h with isFree := update h.isFree (b.address lo) 1 }
        (Word64.sub (blockBytes h b.level) hdrSize)) (b.address lo) := by
  have hb : b ∈ left ++ b :: right := by simp
  have hhdr : hdrSize = 32 := by decide
  have hpos := R.layout.address_pos hb
  have hbound := R.layout.address_bounds hb
  have hhigh := R.layout.high_le
  have hunits := units_pos b
  have hblk : getBlockFromPtr (b.address lo + hdrSize) = b.address lo := by
    simp only [unitBytes] at hbound hhigh
    rw [getBlockFromPtr, if_neg (by omega), Word64.sub_eq (by omega) (by omega)]
    omega
  have hflag := R.layout.allocated_flag b hb halloc
  rw [mmFree, if_neg (by simp [R.statics.initialized, hhdr]), hblk]
  simp only [hflag, hpos.ne', ne_eq, not_true_eq_false, or_self, if_false]
  rw [R.layout.header b hb (by simp [halloc])]
  rfl

/-- Freeing an allocated block returns, removes it from the allocated blocks and touches
no other. -/
theorem mmFree_spec (R : Represents lo usable maxLevel h (left ++ b :: right) lists)
    (halloc : b.status = .allocated) :
    ∃ h' blocks' lists', mmFree h (b.address lo + hdrSize) = some h' ∧
      Represents lo usable maxLevel h' blocks' lists' ∧
      allocatedBlocks blocks' = allocatedBlocks (left ++ right) := by
  have hb : b ∈ left ++ b :: right := by simp
  have hstep := mmFree_eq R halloc
  generalize Word64.sub (blockBytes h b.level) hdrSize = payload at hstep
  have H : InHand lo usable maxLevel
      (countFree { h with isFree := update h.isFree (b.address lo) 1 } payload)
      left { b with status := .held } right lists := by
    have Y₁ : Layout lo (usable / unitBytes) maxLevel h
        (left ++ [{ b with status := .held }] ++ right) lists := by
      have Y₀ : Layout lo (usable / unitBytes) maxLevel h (left ++ [b] ++ right) lists := by
        simpa using R.layout
      refine Y₀.regroup (by simp [halloc]) (by simp) ?_ ?_ ?_
      · intro p q ht
        simpa [Block.units] using ht
      · simpa using R.layout.aligned b hb
      · simpa using R.layout.level_le b hb
    rw [List.append_assoc, List.singleton_append] at Y₁
    refine ⟨Y₁.touch rfl ?_ ?_ ?_ ?_ ?_, R.statics.congr rfl, rfl, ?_, ?_, ?_⟩
    · rfl
    · exact fun _ _ => rfl
    · intro a ha
      have ha' : a ≠ b.address lo := ha
      simp [countFree, ha']
    · exact fun _ _ => rfl
    · exact fun _ _ => rfl
    · exact R.layout.header b hb (by simp [halloc])
    · intro x hx
      apply R.none_held
      simp only [List.mem_append, List.mem_cons] at hx ⊢
      exact hx.imp_right Or.inr
    · refine R.apart.mono ?_
      intro x hx hxf
      simp only [List.mem_append, List.mem_cons] at hx ⊢
      rcases hx with hx | rfl | hx
      · exact Or.inl hx
      · cases hxf
      · exact Or.inr (Or.inr hx)
  have hle := R.layout.level_le b hb
  have hmax := R.layout.maxLevel_lt
  have hmaxl : mmMaxLevels = 32 := rfl
  have hfuel : maxLevel < b.level + 256 := by omega
  obtain ⟨h', left', m, right', lists', hloop, H', hnone, hsame⟩ := H.coalesceLoop hfuel
  refine ⟨pushFree h' (m.address lo), left' ++ { m with status := .free } :: right', _, ?_,
    H'.close hnone, ?_⟩
  · rw [hstep]
    unfold coalesce
    simp only [Block.address] at hloop ⊢
    simp only [hloop, Option.map_some]
  · rw [← hsame]
    simp [allocatedBlocks]

end Coalesce
end SoKernel.Mm.Buddy
