import SoKernel.Lib.Tiling
import SoKernel.Mm.Simple.Basic

/-!
# Block layouts of the simple memory manager

The abstract state of the manager is the list of its blocks in address order, each
with its size and allocation flag, and the order of its free list. `Chained` relates
headers and physical links to the block list, `FreeRing` relates the circular list to
its order, and `Represents` joins them with the two rules that hold between calls:
exactly the unallocated blocks are listed, and no two of them are adjacent.
-/

namespace SoKernel.Mm.Simple

open Function (update)
open LinkedRing (Ring)
open Tiling (Tiles)

/-- A block of the heap: header included in its size. -/
structure Block where
  address : ℕ
  size : ℕ
  allocated : Bool
  deriving DecidableEq, Repr

/-- The word stored in `size_and_flags`. -/
def Block.word (b : Block) : ℕ := b.size + b.allocated.toNat

/-- The headers found in memory are those of `blocks`, which tile `[lo, hi)`. The null
pointer closes the physical chain at both ends: it is followed by the first block and
preceded by the last one. -/
structure Chained (lo hi : ℕ) (h : Heap) (blocks : List Block) : Prop where
  low_pos : 0 < lo
  high_le : hi ≤ 2 ^ 64
  extent_lt : hi - lo + minBlockSize < 2 ^ 64
  tiles : Tiles Block.address Block.size lo hi blocks
  size_ge : ∀ b ∈ blocks, minBlockSize ≤ b.size
  size_even : ∀ b ∈ blocks, 2 ∣ b.size
  header : ∀ b ∈ blocks, h.sizeAndFlags b.address = b.word
  phys : ∃ last, Ring (update h.nextPhys 0 lo) (update h.prevPhys 0 last) 0
    (blocks.map Block.address)

/-- The circular list through the sentinel lists the blocks at `freeList`. -/
def FreeRing (h : Heap) (freeList : List ℕ) : Prop :=
  Ring h.nextFree h.prevFree .sentinel (freeList.map FreePtr.block)

/-- The state between two calls of the manager. -/
structure Represents (lo hi : ℕ) (h : Heap) (blocks : List Block) (freeList : List ℕ) :
    Prop where
  chained : Chained lo hi h blocks
  ring : FreeRing h freeList
  mem_freeList : ∀ a, a ∈ freeList ↔ ∃ b ∈ blocks, b.address = a ∧ b.allocated = false
  separated : blocks.IsChain (fun b c => b.allocated = true ∨ c.allocated = true)

variable {lo hi : ℕ} {h h' : Heap} {blocks left right : List Block} {b c : Block}
variable {freeList : List ℕ}

namespace Chained

/-- Only the header fields of the listed blocks matter. -/
theorem congr (C : Chained lo hi h blocks) (hw : ∀ b ∈ blocks, h'.sizeAndFlags b.address =
      h.sizeAndFlags b.address)
    (hn : ∀ b ∈ blocks, h'.nextPhys b.address = h.nextPhys b.address)
    (hp : ∀ b ∈ blocks, h'.prevPhys b.address = h.prevPhys b.address) :
    Chained lo hi h' blocks := by
  obtain ⟨last, hring⟩ := C.phys
  refine { C with header := fun b hb => (hw b hb).trans (C.header b hb), phys := ⟨last, ?_⟩ }
  refine hring.congr ?_ ?_
  all_goals
    intro a ha
    rcases List.mem_cons.mp ha with rfl | ha
    · simp
    · obtain ⟨b, hb, rfl⟩ := List.mem_map.mp ha
      by_cases hz : b.address = 0
      · simp [hz]
      · simp only [Function.update_of_ne hz]
        first | exact hn b hb | exact hp b hb

theorem bounds (C : Chained lo hi h blocks) (hb : b ∈ blocks) :
    lo ≤ b.address ∧ b.address + b.size ≤ hi := C.tiles.bounds hb

theorem address_pos (C : Chained lo hi h blocks) (hb : b ∈ blocks) : 0 < b.address :=
  lt_of_lt_of_le C.low_pos (C.bounds hb).1

theorem size_pos (C : Chained lo hi h blocks) (hb : b ∈ blocks) : 0 < b.size :=
  lt_of_lt_of_le (by decide) (C.size_ge b hb)

/-- There is room for one more block in a word that holds a block size. -/
theorem size_lt (C : Chained lo hi h blocks) (hb : b ∈ blocks) :
    b.size + minBlockSize < 2 ^ 64 := by
  have := C.bounds hb
  have := C.extent_lt
  omega

theorem word_lt (C : Chained lo hi h blocks) (hb : b ∈ blocks) : b.word < 2 ^ 64 := by
  have hlt := C.size_lt hb
  have hflag := Bool.toNat_le b.allocated
  unfold Block.word
  unfold minBlockSize mmAlignment at hlt
  omega

/-- The flag bit does not disturb the size of a listed block. -/
theorem blockSize_eq (C : Chained lo hi h blocks) (hb : b ∈ blocks) :
    blockSize h b.address = b.size := by
  have heven := C.size_even b hb
  have hflag := Bool.toNat_le b.allocated
  unfold blockSize blockAllocatedFlag
  rw [C.header b hb, Word64.and_compl_one (C.word_lt hb)]
  unfold Block.word
  omega

theorem blockIsAllocated_eq (C : Chained lo hi h blocks) (hb : b ∈ blocks) :
    blockIsAllocated h b.address = b.allocated := by
  have heven := C.size_even b hb
  unfold blockIsAllocated blockAllocatedFlag
  rw [C.header b hb, Word64.and_one]
  unfold Block.word
  cases b.allocated
  · simpa using Nat.mod_eq_zero_of_dvd heven
  · have : (b.size + 1) % 2 = 1 := by omega
    simpa using this

theorem address_injective (C : Chained lo hi h blocks) (hb : b ∈ blocks) (hc : c ∈ blocks)
    (heq : b.address = c.address) : b = c :=
  C.tiles.start_injective (fun _ hx => C.size_pos hx) hb hc heq

theorem addresses_nodup (C : Chained lo hi h blocks) : (blocks.map Block.address).Nodup :=
  C.tiles.starts_nodup (fun _ hx => C.size_pos hx)

/-- Every block occupies at least the minimum, so their number is bounded. -/
theorem length_lt (C : Chained lo hi h blocks) : blocks.length < addressCount := by
  have := C.tiles.length_le (fun _ hx => C.size_pos hx)
  have := C.high_le
  have := C.low_pos
  unfold addressCount
  omega

/-- The next header in memory is that of the next listed block. -/
theorem nextPhys_eq (C : Chained lo hi h (left ++ b :: right)) :
    h.nextPhys b.address = (right.head?.map Block.address).getD 0 := by
  obtain ⟨last, hring⟩ := C.phys
  rw [List.map_append, List.map_cons] at hring
  have hnz : b.address ≠ 0 := (C.address_pos (by simp)).ne'
  have hnx := hring.nx_node
  rwa [Function.update_of_ne hnz, List.head?_map] at hnx

theorem prevPhys_eq (C : Chained lo hi h (left ++ b :: right)) :
    h.prevPhys b.address = (left.getLast?.map Block.address).getD 0 := by
  obtain ⟨last, hring⟩ := C.phys
  rw [List.map_append, List.map_cons] at hring
  have hnz : b.address ≠ 0 := (C.address_pos (by simp)).ne'
  have hpv := hring.pv_node
  rwa [Function.update_of_ne hnz, List.getLast?_map] at hpv

/-- The blocks on either side of a block end before it or start after it. -/
theorem apart (C : Chained lo hi h (left ++ b :: right)) {x : Block} (hx : x ∈ left ++ right) :
    x.address + x.size ≤ b.address ∨ b.address + b.size ≤ x.address := by
  obtain ⟨hl, hr⟩ := Tiling.tiles_split.mp C.tiles
  rcases List.mem_append.mp hx with hx | hx
  · exact Or.inl (hl.bounds hx).2
  · exact Or.inr (hr.bounds hx).1

/-- Replacing a run of blocks by another run that tiles the same interval. -/
theorem replace {mid mid' : List Block} (C : Chained lo hi h (left ++ mid ++ right))
    (ht : ∀ {p q : ℕ}, Tiles Block.address Block.size p q mid →
      Tiles Block.address Block.size p q mid')
    (hs : ∀ x ∈ mid', minBlockSize ≤ x.size ∧ 2 ∣ x.size)
    (hm : ∀ x ∈ mid', h'.sizeAndFlags x.address = x.word)
    (hw : ∀ x ∈ left ++ right, h'.sizeAndFlags x.address = h.sizeAndFlags x.address)
    (hphys : ∃ last, Ring (update h'.nextPhys 0 lo) (update h'.prevPhys 0 last) 0
      ((left ++ mid' ++ right).map Block.address)) :
    Chained lo hi h' (left ++ mid' ++ right) := by
  have hmem : ∀ x ∈ left ++ mid' ++ right, x ∈ mid' ∨ x ∈ left ++ right := by
    intro x hx
    simp only [List.mem_append] at hx ⊢
    tauto
  have hold : ∀ x ∈ left ++ right, x ∈ left ++ mid ++ right := by
    intro x hx
    simp only [List.mem_append] at hx ⊢
    tauto
  refine ⟨C.low_pos, C.high_le, C.extent_lt, ?_, ?_, ?_, ?_, hphys⟩
  · have htiles := C.tiles
    rw [Tiling.tiles_append] at htiles ⊢
    obtain ⟨q, hfront, hback⟩ := htiles
    obtain ⟨p, hl, hmid⟩ := Tiling.tiles_append.mp hfront
    exact ⟨q, Tiling.tiles_append.mpr ⟨p, hl, ht hmid⟩, hback⟩
  · intro x hx
    exact (hmem x hx).elim (fun hx => (hs x hx).1) (fun hx => C.size_ge x (hold x hx))
  · intro x hx
    exact (hmem x hx).elim (fun hx => (hs x hx).2) (fun hx => C.size_even x (hold x hx))
  · intro x hx
    exact (hmem x hx).elim (hm x) (fun hx => (hw x hx).trans (C.header x (hold x hx)))

/-- Rewriting the flag of one block. -/
theorem setFlag (C : Chained lo hi h (left ++ b :: right)) (flag : Bool)
    (hword : h'.sizeAndFlags b.address = b.size + flag.toNat)
    (hw : ∀ a, a ≠ b.address → h'.sizeAndFlags a = h.sizeAndFlags a)
    (hn : h'.nextPhys = h.nextPhys) (hp : h'.prevPhys = h.prevPhys) :
    Chained lo hi h' (left ++ { b with allocated := flag } :: right) := by
  have hpos := C.size_pos (b := b) (by simp)
  have C' : Chained lo hi h (left ++ [b] ++ right) := by simpa using C
  suffices hreplace : Chained lo hi h' (left ++ [{ b with allocated := flag }] ++ right) by
    simpa using hreplace
  refine C'.replace (by simp)
    (by simpa using ⟨C.size_ge b (by simp), C.size_even b (by simp)⟩)
    (by simpa [Block.word] using hword) ?_ ?_
  · intro x hx
    have hsep := C.apart hx
    have hx' := C.size_pos (b := x) (by simp only [List.mem_append, List.mem_cons] at hx ⊢; tauto)
    exact hw _ (by omega)
  · obtain ⟨last, hring⟩ := C.phys
    exact ⟨last, by simpa [hn, hp] using hring⟩

/-- Cutting a block in two: the second part gets a fresh header. -/
theorem split (C : Chained lo hi h (left ++ b :: right)) {first : ℕ} (hfirst : minBlockSize ≤ first)
    (hrest : first + minBlockSize ≤ b.size) (heven : 2 ∣ first)
    (hword : h'.sizeAndFlags b.address = first + b.allocated.toNat)
    (hword' : h'.sizeAndFlags (b.address + first) = b.size - first)
    (hw : ∀ a, a ≠ b.address → a ≠ b.address + first → h'.sizeAndFlags a = h.sizeAndFlags a)
    (hn : h'.nextPhys = update (update h.nextPhys (b.address + first) (h.nextPhys b.address))
      b.address (b.address + first))
    (hp : h'.prevPhys = if h.nextPhys b.address ≠ 0 then
        update (update h.prevPhys (b.address + first) b.address) (h.nextPhys b.address)
          (b.address + first)
      else update h.prevPhys (b.address + first) b.address) :
    Chained lo hi h' (left ++ { b with size := first } ::
      { address := b.address + first, size := b.size - first, allocated := false } :: right) := by
  have hpos : 0 < first := lt_of_lt_of_le (by decide) hfirst
  have hmin : 0 < minBlockSize := by decide
  have hnz : b.address ≠ 0 := (C.address_pos (by simp)).ne'
  have hbeven := C.size_even b (by simp)
  have hout : ∀ x ∈ left ++ right, x.address ≠ b.address ∧ x.address ≠ b.address + first := by
    intro x hx
    have hsep := C.apart hx
    have hx' := C.size_pos (b := x) (by simp only [List.mem_append, List.mem_cons] at hx ⊢; tauto)
    omega
  have C' : Chained lo hi h (left ++ [b] ++ right) := by simpa using C
  suffices hreplace : Chained lo hi h' (left ++ [{ b with size := first },
      { address := b.address + first, size := b.size - first, allocated := false }] ++ right) by
    simpa using hreplace
  refine C'.replace ?_ ?_ ?_ ?_ ?_
  · intro p q ht
    simp only [Tiling.tiles_cons, Tiling.tiles_nil] at ht ⊢
    omega
  · intro x hx
    simp only [List.mem_cons, List.not_mem_nil, or_false] at hx
    rcases hx with rfl | rfl
    · exact ⟨hfirst, heven⟩
    · exact ⟨by simp only; omega, by simp only; omega⟩
  · intro x hx
    simp only [List.mem_cons, List.not_mem_nil, or_false] at hx
    rcases hx with rfl | rfl
    · simpa [Block.word] using hword
    · simpa [Block.word] using hword'
  · intro x hx
    exact hw _ (hout x hx).1 (hout x hx).2
  · obtain ⟨last, hring⟩ := C.phys
    have hnext := C.nextPhys_eq
    refine ⟨if h.nextPhys b.address = 0 then b.address + first else last, ?_⟩
    rw [List.map_append, List.map_cons] at hring
    have hmid : Ring (update h.nextPhys 0 lo) (update h.prevPhys 0 last) 0
        ((left.map Block.address ++ [b.address]) ++ right.map Block.address) := by simpa using hring
    have hfresh : b.address + first ∉
        0 :: (left.map Block.address ++ [b.address] ++ right.map Block.address) := by
      intro hx
      simp only [List.mem_cons, List.mem_append, List.mem_map, List.not_mem_nil, or_false] at hx
      rcases hx with hx | (⟨x, hx, heq⟩ | hx) | ⟨x, hx, heq⟩
      · omega
      · exact (hout x (List.mem_append_left _ hx)).2 heq
      · omega
      · exact (hout x (List.mem_append_right _ hx)).2 heq
    have hnfresh : h.nextPhys b.address ≠ b.address + first := by
      intro heq
      rw [heq] at hnext
      apply hfresh
      rw [hnext]
      cases right <;> simp
    suffices hins : Ring (update h'.nextPhys 0 lo)
        (update h'.prevPhys 0 (if h.nextPhys b.address = 0 then b.address + first else last)) 0
        (left.map Block.address ++ [b.address] ++ (b.address + first) ::
          right.map Block.address) by
      simpa using hins
    refine hmid.insert (u := b.address) (v := h.nextPhys b.address) hfresh (by simp)
      (by simpa [List.head?_map] using hnext) ?_ ?_ ?_ ?_ ?_ ?_
    · simp [hn, hnz]
    · by_cases hz : h.nextPhys b.address = 0
      · simp [hp, hz, hpos.ne', hnz]
      · simp [hp, hz, hpos.ne', hnz, hnfresh.symm]
    · simp [hn, hpos.ne', hnz]
    · by_cases hz : h.nextPhys b.address = 0
      · simp [hz]
      · simp [hp, hz]
    · intro y hyu hyx
      simp [Function.update_apply, hn, hyu, hyx]
    · intro y hyv hyx
      by_cases hz : h.nextPhys b.address = 0
      · rw [hz] at hyv
        simp [hp, hz, hyv, hyx]
      · simp [Function.update_apply, hp, hz, hyv, hyx]

/-- Dissolving the second of two adjacent blocks into the first. -/
theorem merge (C : Chained lo hi h (left ++ b :: c :: right))
    (hword : h'.sizeAndFlags b.address = b.size + c.size)
    (hw : ∀ a, a ≠ b.address → h'.sizeAndFlags a = h.sizeAndFlags a)
    (hn : h'.nextPhys = update h.nextPhys b.address (h.nextPhys c.address))
    (hp : h'.prevPhys = if h.nextPhys c.address ≠ 0 then
        update h.prevPhys (h.nextPhys c.address) b.address
      else h.prevPhys) :
    Chained lo hi h' (left ++
      { address := b.address, size := b.size + c.size, allocated := false } :: right) := by
  have hbnz : b.address ≠ 0 := (C.address_pos (by simp)).ne'
  have hcnz : c.address ≠ 0 := (C.address_pos (by simp)).ne'
  have hbs := C.size_ge b (by simp)
  have hbe := C.size_even b (by simp)
  have hce := C.size_even c (by simp)
  have C' : Chained lo hi h (left ++ [b, c] ++ right) := by simpa using C
  suffices hreplace : Chained lo hi h' (left ++
      [{ address := b.address, size := b.size + c.size, allocated := false }] ++ right) by
    simpa using hreplace
  refine C'.replace ?_ ?_ ?_ ?_ ?_
  · intro p q ht
    simp only [Tiling.tiles_cons, Tiling.tiles_nil] at ht ⊢
    omega
  · simpa using ⟨by omega, dvd_add hbe hce⟩
  · simpa [Block.word] using hword
  · intro x hx
    have hmem : x ∈ left ++ c :: right := by
      simp only [List.mem_append, List.mem_cons] at hx ⊢
      tauto
    have hsep := C.apart hmem
    have hbpos := C.size_pos (b := b) (by simp)
    have hx' := C.size_pos (b := x) (by
      simp only [List.mem_append, List.mem_cons] at hmem ⊢
      tauto)
    exact hw _ (by omega)
  · obtain ⟨last, hring⟩ := C.phys
    refine ⟨if h.nextPhys c.address = 0 then b.address else last, ?_⟩
    have hcut : Ring (update h.nextPhys 0 lo) (update h.prevPhys 0 last) 0
        ((left.map Block.address ++ [b.address]) ++ c.address :: right.map Block.address) := by
      simpa using hring
    have hpc : update h.prevPhys 0 last c.address = b.address := by
      simpa using hcut.pv_node
    have hnc : update h.nextPhys 0 lo c.address = h.nextPhys c.address := by
      simp [hcnz]
    have hbc : b.address ≠ c.address := by
      have := C.apart (x := c) (by simp)
      have := C.size_pos (b := b) (by simp)
      have := C.size_pos (b := c) (by simp)
      omega
    suffices hrem : Ring (update h'.nextPhys 0 lo)
        (update h'.prevPhys 0 (if h.nextPhys c.address = 0 then b.address else last)) 0
        (left.map Block.address ++ [b.address] ++ right.map Block.address) by
      simpa using hrem
    refine hcut.remove ?_ ?_ ?_ ?_
    · simp [hpc, hnc, hn, hbnz]
    · rw [hpc, hnc]
      by_cases hz : h.nextPhys c.address = 0
      · simp [hz]
      · simp [hp, hz]
    · intro y hyu hyx
      rw [hpc] at hyu
      simp [Function.update_apply, hn, hyu]
    · intro y hyv hyx
      rw [hnc] at hyv
      by_cases hz : h.nextPhys c.address = 0
      · simp_all
      · simp [Function.update_apply, hp, hz, hyv]

end Chained

namespace FreeRing

/-- Only the links of the sentinel and of the listed blocks matter. -/
theorem congr (F : FreeRing h freeList)
    (hn : ∀ a ∈ .sentinel :: freeList.map FreePtr.block, h'.nextFree a = h.nextFree a)
    (hp : ∀ a ∈ .sentinel :: freeList.map FreePtr.block, h'.prevFree a = h.prevFree a) :
    FreeRing h' freeList := LinkedRing.Ring.congr F hn hp

theorem nodup (F : FreeRing h freeList) : freeList.Nodup :=
  List.Nodup.of_map _ (LinkedRing.Ring.nodup F)

/-- `free_list_remove` unlinks exactly its argument. -/
theorem remove {a : ℕ} (F : FreeRing h freeList) (ha : a ∈ freeList) :
    FreeRing (freeListRemove h a) (freeList.erase a) := by
  obtain ⟨l, r, rfl⟩ := List.append_of_mem ha
  have hnd := F.nodup
  have hal : a ∉ l := fun hm => (List.nodup_append.mp hnd).2.2 a hm a (by simp) rfl
  have hmem : FreePtr.block a ∈ (l ++ a :: r).map FreePtr.block := by simp
  have hpne := LinkedRing.Ring.pv_ne F hmem
  have hnne := LinkedRing.Ring.nx_ne F hmem
  rw [List.erase_append_right _ hal, List.erase_cons_head]
  unfold FreeRing at F ⊢
  rw [List.map_append, List.map_cons] at F
  rw [List.map_append]
  refine F.remove ?_ ?_ ?_ ?_
  · simp [freeListRemove, hpne]
  · simp [freeListRemove, hpne.symm, hnne]
  · intro y hy hya
    simp [freeListRemove, Function.update_apply, hy, hya]
  · intro y hy hya
    simp [freeListRemove, hpne.symm, hy, hya]

/-- `free_list_insert` links its argument at the front. -/
theorem insert {a : ℕ} (F : FreeRing h freeList) (ha : a ∉ freeList) :
    FreeRing (freeListInsert h a) (a :: freeList) := by
  have hfresh : FreePtr.block a ∉ FreePtr.sentinel :: freeList.map FreePtr.block := by
    simpa using ha
  have hnext : h.nextFree .sentinel ≠ .block a := by
    intro heq
    apply hfresh
    rw [← heq, LinkedRing.Ring.nx_anchor F]
    cases freeList <;> simp
  refine LinkedRing.Ring.insertFront F hfresh ?_ ?_ ?_ ?_ ?_ ?_
  · simp [freeListInsert]
  · simp [freeListInsert, hnext.symm]
  · simp [freeListInsert]
  · simp [freeListInsert]
  · intro y hy hya
    simp [freeListInsert, hy, hya]
  · intro y hy hya
    simp [freeListInsert, hy, hya]

end FreeRing
end SoKernel.Mm.Simple
