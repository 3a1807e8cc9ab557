import SoKernel.Mm.Simple.Layout

/-!
# The operations of the simple memory manager on block layouts

`Pending` describes the heap while one free block is outside the free list: after
`mm_alloc` has unlinked the block it will hand out, and while `mm_free` merges a block
with its neighbours. Each half of `coalesce_with_neighbors` keeps it, and inserting the
block when its neighbours are allocated closes it again.
-/

namespace SoKernel.Mm.Simple

open Function (update)
open LinkedRing (Ring)
open Tiling (Tiles)

variable {lo hi : ℕ} {h h' : Heap} {blocks left right : List Block} {b c : Block}
variable {freeList : List ℕ}

/-- Two adjacent blocks that are not both free. -/
def Separate (b c : Block) : Prop := b.allocated = true ∨ c.allocated = true

/-- The free block `b` between `left` and `right` is not in the free list. -/
structure Pending (lo hi : ℕ) (h : Heap) (left : List Block) (b : Block) (right : List Block)
    (freeList : List ℕ) : Prop where
  chained : Chained lo hi h (left ++ b :: right)
  free : b.allocated = false
  ring : FreeRing h freeList
  mem_freeList : ∀ a, a ∈ freeList ↔ ∃ x ∈ left ++ right, x.address = a ∧ x.allocated = false
  left_separated : left.IsChain Separate
  right_separated : right.IsChain Separate

section Frame

variable (h : Heap) (a : ℕ)

@[simp] theorem freeListRemove_sizeAndFlags :
    (freeListRemove h a).sizeAndFlags = h.sizeAndFlags := rfl

@[simp] theorem freeListRemove_nextPhys : (freeListRemove h a).nextPhys = h.nextPhys := rfl

@[simp] theorem freeListRemove_prevPhys : (freeListRemove h a).prevPhys = h.prevPhys := rfl

@[simp] theorem freeListInsert_sizeAndFlags :
    (freeListInsert h a).sizeAndFlags = h.sizeAndFlags := rfl

@[simp] theorem freeListInsert_nextPhys : (freeListInsert h a).nextPhys = h.nextPhys := rfl

@[simp] theorem freeListInsert_prevPhys : (freeListInsert h a).prevPhys = h.prevPhys := rfl

@[simp] theorem splitBlockIfPossible_mmInitializedFlag (required : ℕ) :
    (splitBlockIfPossible h a required).mmInitializedFlag = h.mmInitializedFlag := by
  by_cases hfit : blockSize h a < Word64.add required minBlockSize
  · simp only [splitBlockIfPossible, if_pos hfit]
  · by_cases hz : h.nextPhys a = 0 <;>
      simp [splitBlockIfPossible, hfit, hz, freeListInsert, blockMarkFree]

@[simp] theorem blockMarkAllocated_mmInitializedFlag :
    (blockMarkAllocated h a).mmInitializedFlag = h.mmInitializedFlag := rfl

@[simp] theorem freeListRemove_mmInitializedFlag :
    (freeListRemove h a).mmInitializedFlag = h.mmInitializedFlag := rfl

@[simp] theorem countAllocation_mmInitializedFlag :
    (countAllocation h a).mmInitializedFlag = h.mmInitializedFlag := rfl

end Frame

/-- A change of the manager's counters does not touch the heap. -/
theorem Represents.congr_heap (R : Represents lo hi h blocks freeList)
    (hw : h'.sizeAndFlags = h.sizeAndFlags) (hn : h'.nextPhys = h.nextPhys)
    (hp : h'.prevPhys = h.prevPhys) (hnf : h'.nextFree = h.nextFree)
    (hpf : h'.prevFree = h.prevFree) : Represents lo hi h' blocks freeList where
  chained := R.chained.congr (by simp [hw]) (by simp [hn]) (by simp [hp])
  ring := R.ring.congr (by simp [hnf]) (by simp [hpf])
  mem_freeList := R.mem_freeList
  separated := R.separated

namespace Pending

variable (P : Pending lo hi h left b right freeList)
include P

theorem address_not_mem : b.address ∉ freeList := by
  intro hm
  obtain ⟨x, hx, heq, -⟩ := (P.mem_freeList _).mp hm
  have hsep := P.chained.apart hx
  have hbpos := P.chained.size_pos (b := b) (by simp)
  have hxpos := P.chained.size_pos (b := x) (by
    simp only [List.mem_append, List.mem_cons] at hx ⊢
    tauto)
  omega

/-- Closing the gap between allocated neighbours: the pending block is replaced by
blocks of which exactly the free ones have been listed. -/
theorem close {mid : List Block} {freeList' : List ℕ}
    (hl : ∀ x ∈ left.getLast?, x.allocated = true) (hr : ∀ x ∈ right.head?, x.allocated = true)
    (hchained : Chained lo hi h' (left ++ mid ++ right)) (hring : FreeRing h' freeList')
    (hmem : ∀ a, a ∈ freeList' ↔ a ∈ freeList ∨ ∃ x ∈ mid, x.address = a ∧ x.allocated = false)
    (hmid : mid.IsChain Separate) :
    Represents lo hi h' (left ++ mid ++ right) freeList' where
  chained := hchained
  ring := hring
  mem_freeList := by
    intro a
    rw [hmem, P.mem_freeList]
    simp only [List.mem_append]
    constructor
    · rintro (⟨x, hx, hxa⟩ | ⟨x, hx, hxa⟩)
      · exact ⟨x, by tauto, hxa⟩
      · exact ⟨x, by tauto, hxa⟩
    · rintro ⟨x, (hx | hx) | hx, hxa⟩
      · exact Or.inl ⟨x, Or.inl hx, hxa⟩
      · exact Or.inr ⟨x, hx, hxa⟩
      · exact Or.inl ⟨x, Or.inr hx, hxa⟩
  separated := by
    have hfront : (left ++ mid).IsChain Separate :=
      P.left_separated.append hmid (fun x hx y _ => Or.inl (hl x hx))
    exact hfront.append P.right_separated (fun x _ y hy => Or.inr (hr y hy))

/-- Listing the pending block, once its neighbours are allocated. -/
theorem insert (hl : ∀ x ∈ left.getLast?, x.allocated = true)
    (hr : ∀ x ∈ right.head?, x.allocated = true) :
    Represents lo hi (freeListInsert h b.address) (left ++ b :: right)
      (b.address :: freeList) := by
  have hfree := P.free
  have hclose : Represents lo hi (freeListInsert h b.address) (left ++ [b] ++ right)
      (b.address :: freeList) := by
    refine P.close hl hr ?_ (P.ring.insert P.address_not_mem) ?_ (List.isChain_singleton _)
    · simpa using P.chained.congr (by simp) (by simp) (by simp)
    · intro a
      simp only [List.mem_cons, List.not_mem_nil, or_false, exists_eq_left, hfree, and_true]
      rw [or_comm, eq_comm]
  simpa using hclose

end Pending

/-- Unlinking a free block makes it pending; its neighbours are allocated. -/
theorem Represents.unlink (R : Represents lo hi h (left ++ b :: right) freeList)
    (hb : b.allocated = false) :
    Pending lo hi (freeListRemove h b.address) left b right (freeList.erase b.address) ∧
      (∀ x ∈ left.getLast?, x.allocated = true) ∧ ∀ x ∈ right.head?, x.allocated = true := by
  have hmem : b.address ∈ freeList := (R.mem_freeList _).mpr ⟨b, by simp, rfl, hb⟩
  have hsep := R.separated
  rw [List.isChain_append] at hsep
  obtain ⟨hleft, hright, hjoin⟩ := hsep
  refine ⟨⟨R.chained.congr (by simp) (by simp) (by simp), hb, R.ring.remove hmem, ?_, hleft,
    hright.tail⟩, ?_, ?_⟩
  · intro a
    rw [R.ring.nodup.mem_erase_iff, R.mem_freeList]
    constructor
    · rintro ⟨hne, x, hx, rfl, hxf⟩
      refine ⟨x, ?_, rfl, hxf⟩
      simp only [List.mem_append, List.mem_cons] at hx ⊢
      rcases hx with hx | rfl | hx
      · exact Or.inl hx
      · exact absurd rfl hne
      · exact Or.inr hx
    · rintro ⟨x, hx, rfl, hxf⟩
      have hx' : x ∈ left ++ b :: right := by
        simp only [List.mem_append, List.mem_cons] at hx ⊢
        tauto
      refine ⟨fun heq => ?_, x, hx', rfl, hxf⟩
      have hap := R.chained.apart hx
      have hbpos := R.chained.size_pos (b := b) (by simp)
      have hxpos := R.chained.size_pos hx'
      omega
  · intro x hx
    exact (hjoin x hx b (by simp)).resolve_right (by simp [hb])
  · intro x hx
    exact (hright.rel_head? hx).resolve_left (by simp [hb])

/-- The blocks left in the place of `b` when a request takes `required` bytes of it. -/
def carve (b : Block) (required : ℕ) : List Block :=
  if b.size < required + minBlockSize then [{ b with allocated := true }]
  else [{ address := b.address, size := required, allocated := true },
    { address := b.address + required, size := b.size - required, allocated := false }]

/-- The free list after carving `required` bytes out of the unlinked block `b`. -/
def carveFree (b : Block) (required : ℕ) (rest : List ℕ) : List ℕ :=
  if b.size < required + minBlockSize then rest else (b.address + required) :: rest

section Alloc

variable {required : ℕ}

theorem splitBlockIfPossible_whole (C : Chained lo hi h (left ++ b :: right))
    (hfit : required ≤ b.size) (hsmall : b.size < required + minBlockSize) :
    splitBlockIfPossible h b.address required = h := by
  have hsize := C.blockSize_eq (b := b) (by simp)
  have hlt := C.size_lt (b := b) (by simp)
  unfold splitBlockIfPossible
  rw [hsize, Word64.add_eq (by omega), if_pos hsmall]

/-- Splitting a pending block that is large enough: its front part stays pending and
the rest becomes a listed free block. -/
theorem splitBlockIfPossible_split (P : Pending lo hi h left b right freeList)
    (hreq : minBlockSize ≤ required) (heven : 2 ∣ required)
    (hbig : required + minBlockSize ≤ b.size) :
    Chained lo hi (splitBlockIfPossible h b.address required)
        (left ++ { b with size := required } ::
          { address := b.address + required, size := b.size - required, allocated := false } ::
            right) ∧
      FreeRing (splitBlockIfPossible h b.address required)
        ((b.address + required) :: freeList) := by
  have hmin : minBlockSize = 56 := rfl
  have C := P.chained
  have hsize := C.blockSize_eq (b := b) (by simp)
  have hlt := C.size_lt (b := b) (by simp)
  have hbeven := C.size_even b (by simp)
  have hbound := C.bounds (b := b) (by simp)
  have hhigh := C.high_le
  have hword : h.sizeAndFlags b.address = b.size := by
    rw [C.header b (by simp), Block.word, P.free]
    rfl
  have hnew : Word64.add b.address required = b.address + required := Word64.add_eq (by omega)
  have hrem : Word64.sub b.size required = b.size - required := Word64.sub_eq (by omega) (by omega)
  have hclear : (b.size - required) &&& Word64.compl 1 = b.size - required := by
    rw [Word64.and_compl_one (by omega)]
    omega
  have hzero : b.size % 2 = 0 := by omega
  have hne : b.address ≠ b.address + required := by omega
  have hpos : required ≠ 0 := by omega
  have hfresh : b.address + required ∉ freeList := by
    intro hm
    obtain ⟨x, hx, heq, -⟩ := (P.mem_freeList _).mp hm
    have hap := C.apart hx
    have hxpos := C.size_pos (b := x) (by
      simp only [List.mem_append, List.mem_cons] at hx ⊢
      tauto)
    omega
  have hnofit : ¬ b.size < Word64.add required minBlockSize := by
    rw [Word64.add_eq (by omega)]
    omega
  constructor
  · refine C.split hreq hbig heven ?_ ?_ ?_ ?_ ?_
    · by_cases hz : h.nextPhys b.address = 0 <;>
        simp [splitBlockIfPossible, blockMarkFree, blockAllocatedFlag, hsize, hnofit, hrem, hnew,
          hword, hzero, hz, P.free, hpos]
    · by_cases hz : h.nextPhys b.address = 0 <;>
        simp [splitBlockIfPossible, blockMarkFree, blockAllocatedFlag, hsize, hnofit, hrem, hnew,
          hclear, hz, hpos]
    · intro a ha hnewa
      by_cases hz : h.nextPhys b.address = 0 <;>
        simp [splitBlockIfPossible, blockMarkFree, hsize, hnofit, hnew, hz, ha, hnewa, hpos]
    · by_cases hz : h.nextPhys b.address = 0 <;>
        simp [splitBlockIfPossible, blockMarkFree, hsize, hnofit, hnew, hz, hpos]
    · by_cases hz : h.nextPhys b.address = 0 <;>
        simp [splitBlockIfPossible, blockMarkFree, hsize, hnofit, hnew, hz, hpos]
  · unfold splitBlockIfPossible
    simp only [hsize, hnew]
    rw [if_neg hnofit]
    refine FreeRing.insert (P.ring.congr ?_ ?_) hfresh
    all_goals
      intro a ha
      have hne : a ≠ .block (b.address + required) := by
        rintro rfl
        simp [hfresh] at ha
      by_cases hz : h.nextPhys b.address = 0 <;> simp [blockMarkFree, hz, hne]

/-- Marking a free block of the chain as allocated. -/
theorem blockMarkAllocated_chained (C : Chained lo hi h (left ++ b :: right))
    (hb : b.allocated = false) :
    Chained lo hi (blockMarkAllocated h b.address)
      (left ++ { b with allocated := true } :: right) := by
  have hword : h.sizeAndFlags b.address = b.size := by
    rw [C.header b (by simp), Block.word, hb]
    rfl
  refine C.setFlag true ?_ ?_ rfl rfl
  · simp only [blockMarkAllocated, blockAllocatedFlag, Function.update_self, hword]
    exact Word64.or_one_of_even (C.size_even b (by simp))
  · intro a ha
    simp [blockMarkAllocated, ha]

/-- Taking `required` bytes of an unlinked free block. -/
theorem allocateBlock_represents (R : Represents lo hi h (left ++ b :: right) freeList)
    (hb : b.allocated = false) (hreq : minBlockSize ≤ required) (heven : 2 ∣ required)
    (hfit : required ≤ b.size) :
    (allocateBlock h b.address required).1 = b.address + headerSize ∧
      Represents lo hi (allocateBlock h b.address required).2 (left ++ carve b required ++ right)
        (carveFree b required (freeList.erase b.address)) := by
  obtain ⟨P, hl, hr⟩ := R.unlink hb
  have hbound := R.chained.bounds (b := b) (by simp)
  have hhigh := R.chained.high_le
  have hge := R.chained.size_ge b (by simp)
  have hmin : minBlockSize = 56 := rfl
  have hhdr : headerSize = 40 := rfl
  have hptr : (allocateBlock h b.address required).1 = Word64.add b.address headerSize := rfl
  refine ⟨by rw [hptr, Word64.add_eq (by omega)], ?_⟩
  -- The counters that `mm_alloc` updates last do not concern the layout.
  suffices hmarked : Represents lo hi
      (blockMarkAllocated (splitBlockIfPossible (freeListRemove h b.address) b.address required)
        b.address)
      (left ++ carve b required ++ right)
      (carveFree b required (freeList.erase b.address)) by
    exact hmarked.congr_heap rfl rfl rfl rfl rfl
  by_cases hsmall : b.size < required + minBlockSize
  · rw [splitBlockIfPossible_whole P.chained hfit hsmall, carve, carveFree, if_pos hsmall,
      if_pos hsmall]
    refine P.close hl hr ?_ (P.ring.congr (by simp [blockMarkAllocated])
      (by simp [blockMarkAllocated])) (by simp) (List.isChain_singleton _)
    simpa using blockMarkAllocated_chained P.chained hb
  · obtain ⟨hchained, hring⟩ := splitBlockIfPossible_split P hreq heven (by omega)
    rw [carve, carveFree, if_neg hsmall, if_neg hsmall]
    refine P.close hl hr ?_ (hring.congr (by simp [blockMarkAllocated])
      (by simp [blockMarkAllocated])) ?_ ?_
    · simpa using blockMarkAllocated_chained hchained hb
    · intro a
      simp only [List.mem_cons, List.not_mem_nil, or_false, exists_eq_or_imp, exists_eq_left,
        and_true, Bool.true_eq_false, and_false, false_or]
      rw [or_comm, eq_comm]
    · simp [Separate]

end Alloc

section Search

/-- Distinct free blocks are distinct blocks, so the free list is not longer. -/
theorem Represents.freeList_length_lt (R : Represents lo hi h blocks freeList) :
    freeList.length < addressCount := by
  have hsub : freeList ⊆ blocks.map Block.address := by
    intro a ha
    obtain ⟨x, hx, rfl, -⟩ := (R.mem_freeList a).mp ha
    exact List.mem_map_of_mem hx
  have hle := (R.ring.nodup.subperm hsub).length_le
  rw [List.length_map] at hle
  exact lt_of_le_of_lt hle R.chained.length_lt

/-- The search loop terminates and finds the first listed block that is large enough. -/
theorem findFirstFit_eq (R : Represents lo hi h blocks freeList) (required : ℕ) :
    findFirstFit h required =
      some ((freeList.find? fun a => decide (required ≤ blockSize h a)).getD 0) := by
  have hring : Ring h.nextFree h.prevFree .sentinel (freeList.map FreePtr.block) := R.ring
  have hlen : (freeList.map FreePtr.block).length < addressCount := by
    simpa using R.freeList_length_lt
  unfold findFirstFit
  rw [hring.walkFind hlen, List.find?_map, Option.map_some]
  simp only [Function.comp_def, FreePtr.address, Option.map_map, Option.map_id']
  rfl

/-- A search that fails leaves no free block of the required size; one that succeeds
returns the header of such a block. -/
theorem findFirstFit_cases (R : Represents lo hi h blocks freeList) (required : ℕ) :
    (findFirstFit h required = some 0 ∧
        ∀ b ∈ blocks, b.allocated = false → b.size < required) ∨
      ∃ left b right, blocks = left ++ b :: right ∧ b.allocated = false ∧ required ≤ b.size ∧
        findFirstFit h required = some b.address := by
  rw [findFirstFit_eq R]
  cases hfind : freeList.find? (fun a => decide (required ≤ blockSize h a)) with
  | none =>
      refine Or.inl ⟨rfl, fun b hb hfree => ?_⟩
      have hmem := (R.mem_freeList b.address).mpr ⟨b, hb, rfl, hfree⟩
      have hnot := List.find?_eq_none.mp hfind b.address hmem
      rw [R.chained.blockSize_eq hb] at hnot
      simpa using hnot
  | some a =>
      obtain ⟨b, hb, rfl, hfree⟩ := (R.mem_freeList a).mp (List.mem_of_find?_eq_some hfind)
      obtain ⟨left, right, rfl⟩ := List.append_of_mem hb
      have hfit := List.find?_some hfind
      rw [R.chained.blockSize_eq hb] at hfit
      exact Or.inr ⟨left, b, right, rfl, hfree, by simpa using hfit, rfl⟩

/-- Whatever the request, the block asked for is an even number of bytes that leaves
room for a header and one aligned unit. -/
theorem requiredSize_spec (size : UInt64) :
    minBlockSize ≤ requiredSize size ∧ 2 ∣ requiredSize size := by
  have hlt : size.toNat < 2 ^ 64 := size.toNat_lt
  have halign : alignUp size.toNat mmAlignment = 16 * ((size.toNat + 16 - 1) % 2 ^ 64 / 16) :=
    Word64.alignUp_eq (k := 4) hlt (by decide)
  have hmin : minBlockSize = 56 := rfl
  have hhdr : headerSize = 40 := rfl
  unfold requiredSize
  simp only [halign, hmin, hhdr, Word64.add]
  split <;> omega

end Search

theorem allocateBlock_mmInitializedFlag (h : Heap) (a required : ℕ) :
    (allocateBlock h a required).2.mmInitializedFlag = h.mmInitializedFlag := by
  simp [allocateBlock]

theorem mmAlloc_of_initialized (hinit : h.mmInitializedFlag = true) (endOfKernel size : UInt64) :
    mmAlloc endOfKernel h size = allocInitialized h size := by
  unfold mmAlloc
  rw [if_pos hinit]

/-- A call of `mm_alloc` on an initialized heap returns. Either it returns `NULL` and
leaves the layout alone, or it returns the payload of a free block that fits the
request, carved to the required size. -/
theorem mmAlloc_spec (R : Represents lo hi h blocks freeList) (hinit : h.mmInitializedFlag = true)
    (endOfKernel size : UInt64) :
    ∃ ptr h', mmAlloc endOfKernel h size = some (ptr, h') ∧ h'.mmInitializedFlag = true ∧
      ((ptr = 0 ∧ Represents lo hi h' blocks freeList ∧
          (size = 0 ∨ findFirstFit h (requiredSize size) = some 0)) ∨
        ∃ left b right, blocks = left ++ b :: right ∧ b.allocated = false ∧
          requiredSize size ≤ b.size ∧ ptr = b.address + headerSize ∧ size ≠ 0 ∧
          findFirstFit h (requiredSize size) = some b.address ∧
          Represents lo hi h' (left ++ carve b (requiredSize size) ++ right)
            (carveFree b (requiredSize size) (freeList.erase b.address))) := by
  rw [mmAlloc_of_initialized hinit]
  unfold allocInitialized
  by_cases hzero : size = 0
  · exact ⟨0, h, by rw [if_pos hzero], hinit, Or.inl ⟨rfl, R, Or.inl hzero⟩⟩
  rw [if_neg hzero]
  rcases findFirstFit_cases R (requiredSize size) with ⟨hfind, -⟩ | ⟨left, b, right, rfl, hb, hfit,
    hfind⟩
  · refine ⟨0, { h with heapFailedAllocations := Word64.add h.heapFailedAllocations 1 }, ?_, hinit,
      Or.inl ⟨rfl, R.congr_heap rfl rfl rfl rfl rfl, Or.inr hfind⟩⟩
    rw [hfind, Option.map_some, if_pos rfl]
  · have hnz : b.address ≠ 0 := (R.chained.address_pos (by simp)).ne'
    obtain ⟨hge, heven⟩ := requiredSize_spec size
    obtain ⟨hptr, hrep⟩ := allocateBlock_represents R hb hge heven hfit
    refine ⟨(allocateBlock h b.address (requiredSize size)).1,
      (allocateBlock h b.address (requiredSize size)).2, ?_, ?_,
      Or.inr ⟨left, b, right, rfl, hb, hfit, hptr, hzero, hfind, hrep⟩⟩
    · rw [hfind, Option.map_some, if_neg hnz]
    · rw [allocateBlock_mmInitializedFlag, hinit]

section Free

/-- Letting a pending block take over the block after it, once that is unlinked. -/
theorem absorbNext_chained (C : Chained lo hi h (left ++ b :: c :: right)) :
    Chained lo hi (absorbNext h b.address c.address)
      (left ++ { address := b.address, size := b.size + c.size, allocated := false } :: right) := by
  have hb := C.blockSize_eq (b := b) (by simp)
  have hc := C.blockSize_eq (b := c) (by simp)
  have hsum : Word64.add b.size c.size = b.size + c.size := by
    have hap := C.apart (x := c) (by simp)
    have hbbound := C.bounds (b := b) (by simp)
    have hcbound := C.bounds (b := c) (by simp)
    have hextent := C.extent_lt
    exact Word64.add_eq (by omega)
  have hne : c.address ≠ b.address := by
    have hap := C.apart (x := c) (by simp)
    have hbpos := C.size_pos (b := b) (by simp)
    have hcpos := C.size_pos (b := c) (by simp)
    omega
  refine C.merge ?_ ?_ ?_ ?_
  · by_cases hz : h.nextPhys c.address = 0 <;> simp [absorbNext, hb, hc, hsum, hz, hne]
  · intro a ha
    by_cases hz : h.nextPhys c.address = 0 <;> simp [absorbNext, hz, hne, ha]
  · by_cases hz : h.nextPhys c.address = 0 <;> simp [absorbNext, hz, hne]
  · by_cases hz : h.nextPhys c.address = 0 <;> simp [absorbNext, hz, hne]

theorem absorbNext_ring (F : FreeRing h freeList) (a a' : ℕ) :
    FreeRing (absorbNext h a a') freeList := by
  refine F.congr ?_ ?_ <;>
  · intro x _
    by_cases hz : update h.nextPhys a (h.nextPhys a') a' = 0 <;> simp [absorbNext, hz]

/-- The allocated blocks of a layout, which no merge of free blocks changes. -/
def allocatedBlocks (blocks : List Block) : List Block := blocks.filter Block.allocated

/-- Dropping a free block `p` from the list: the remaining entries are those of the
other blocks. -/
theorem mem_erase_free {p : Block} {rest : List Block} (hnd : freeList.Nodup)
    (hmem : ∀ a, a ∈ freeList ↔ ∃ x, (x = p ∨ x ∈ rest) ∧ x.address = a ∧ x.allocated = false)
    (hne : ∀ x ∈ rest, x.address ≠ p.address) (a : ℕ) :
    a ∈ freeList.erase p.address ↔ ∃ x ∈ rest, x.address = a ∧ x.allocated = false := by
  rw [hnd.mem_erase_iff, hmem]
  constructor
  · rintro ⟨hap, x, rfl | hx, rfl, hxf⟩
    · exact absurd rfl hap
    · exact ⟨x, hx, rfl, hxf⟩
  · rintro ⟨x, hx, rfl, hxf⟩
    exact ⟨hne x hx, x, Or.inr hx, rfl, hxf⟩

/-- The left neighbour as `coalesce_with_neighbors` sees it. -/
theorem Chained.prevPhys_cases (C : Chained lo hi h (left ++ b :: right)) :
    (left = [] ∧ h.prevPhys b.address = 0) ∨
      ∃ left' p, left = left' ++ [p] ∧ h.prevPhys b.address = p.address := by
  have hprev := C.prevPhys_eq
  cases left using List.reverseRecOn with
  | nil => exact Or.inl ⟨rfl, by simpa using hprev⟩
  | append_singleton left p => exact Or.inr ⟨left, p, rfl, by simpa using hprev⟩

/-- The blocks around two neighbours have other addresses. -/
theorem Chained.address_ne (C : Chained lo hi h (left ++ b :: right)) {x : Block}
    (hx : x ∈ left ++ right) : x.address ≠ b.address := by
  have hap := C.apart hx
  have hbpos := C.size_pos (b := b) (by simp)
  have hxpos := C.size_pos (b := x) (by
    simp only [List.mem_append, List.mem_cons] at hx ⊢
    tauto)
  omega

/-- Merging to the left keeps one pending block and the right neighbours. The left
neighbour is then allocated. -/
theorem Pending.coalesceLeft (P : Pending lo hi h left b right freeList) :
    ∃ left' m freeList', (coalesceLeft h b.address (h.prevPhys b.address)).1 = m.address ∧
      Pending lo hi (coalesceLeft h b.address (h.prevPhys b.address)).2 left' m right freeList' ∧
      (∀ x ∈ left'.getLast?, x.allocated = true) ∧
      allocatedBlocks left' = allocatedBlocks left := by
  rcases P.chained.prevPhys_cases with ⟨rfl, hprev⟩ | ⟨left', p, rfl, hprev⟩
  · refine ⟨[], b, freeList, ?_, ?_, by simp, rfl⟩ <;> simp [Simple.coalesceLeft, hprev]
    exact P
  have hpmem : p ∈ left' ++ [p] ++ b :: right := by simp
  have hpnz : p.address ≠ 0 := (P.chained.address_pos hpmem).ne'
  have hpalloc := P.chained.blockIsAllocated_eq hpmem
  by_cases hp : p.allocated = true
  · refine ⟨left' ++ [p], b, freeList, ?_, ?_, by simpa using hp, rfl⟩ <;>
      simp [Simple.coalesceLeft, hprev, hpalloc, hp]
    exact P
  rw [Bool.not_eq_true] at hp
  have hstep : Simple.coalesceLeft h b.address (h.prevPhys b.address) =
      (p.address, absorbNext (freeListRemove h p.address) p.address b.address) := by
    simp [Simple.coalesceLeft, hprev, hpalloc, hp, hpnz]
  have hchained : Chained lo hi (freeListRemove h p.address) (left' ++ p :: b :: right) := by
    simpa using P.chained.congr (by simp) (by simp) (by simp)
  have hin : p.address ∈ freeList := (P.mem_freeList _).mpr ⟨p, by simp, rfl, hp⟩
  have hsep := List.isChain_append.mp P.left_separated
  rw [hstep]
  refine ⟨left', { address := p.address, size := p.size + b.size, allocated := false },
    freeList.erase p.address, rfl, ?_, ?_, ?_⟩
  · refine ⟨absorbNext_chained hchained, rfl, absorbNext_ring (P.ring.remove hin) _ _, ?_,
      hsep.1, P.right_separated⟩
    refine mem_erase_free P.ring.nodup ?_ ?_
    · intro a
      rw [P.mem_freeList]
      refine exists_congr fun x => and_congr_left fun _ => ?_
      simp only [List.mem_append, List.mem_cons, List.not_mem_nil, or_false]
      tauto
    · intro x hx
      refine hchained.address_ne ?_
      simp only [List.mem_append, List.mem_cons] at hx ⊢
      tauto
  · intro x hx
    exact (hsep.2.2 x hx p (by simp)).resolve_right (by simp [hp])
  · simp [allocatedBlocks, hp]

/-- Merging to the right, mirrored: afterwards the right neighbour is allocated. The
right neighbour is the block that followed before the left merge. -/
theorem Pending.coalesceRight (P : Pending lo hi h left b right freeList) {next : ℕ}
    (hnext : next = (right.head?.map Block.address).getD 0) :
    ∃ m right' freeList', m.address = b.address ∧
      Pending lo hi (coalesceRight h b.address next) left m right' freeList' ∧
      (∀ x ∈ right'.head?, x.allocated = true) ∧
      allocatedBlocks right' = allocatedBlocks right := by
  subst hnext
  cases right with
  | nil =>
      refine ⟨b, [], freeList, rfl, ?_, by simp, rfl⟩
      simp [Simple.coalesceRight]
      exact P
  | cons n right =>
      have hnmem : n ∈ left ++ b :: n :: right := by simp
      have hnnz : n.address ≠ 0 := (P.chained.address_pos hnmem).ne'
      have hnalloc := P.chained.blockIsAllocated_eq hnmem
      by_cases hn : n.allocated = true
      · refine ⟨b, n :: right, freeList, rfl, ?_, by simpa using hn, rfl⟩
        simp [Simple.coalesceRight, hnalloc, hn]
        exact P
      rw [Bool.not_eq_true] at hn
      have hstep : Simple.coalesceRight h b.address n.address =
          absorbNext (freeListRemove h n.address) b.address n.address := by
        simp [Simple.coalesceRight, hnalloc, hn, hnnz]
      have hchained : Chained lo hi (freeListRemove h n.address) (left ++ b :: n :: right) :=
        P.chained.congr (by simp) (by simp) (by simp)
      have hcut : Chained lo hi (freeListRemove h n.address) ((left ++ [b]) ++ n :: right) := by
        simpa using hchained
      have hin : n.address ∈ freeList := (P.mem_freeList _).mpr ⟨n, by simp, rfl, hn⟩
      have hsep := P.right_separated
      simp only [List.head?_cons, Option.map_some, Option.getD_some]
      rw [hstep]
      refine ⟨{ address := b.address, size := b.size + n.size, allocated := false }, right,
        freeList.erase n.address, rfl, ?_, ?_, ?_⟩
      · refine ⟨absorbNext_chained hchained, rfl, absorbNext_ring (P.ring.remove hin) _ _, ?_,
          P.left_separated, hsep.tail⟩
        refine mem_erase_free P.ring.nodup ?_ ?_
        · intro a
          rw [P.mem_freeList]
          refine exists_congr fun x => and_congr_left fun _ => ?_
          simp only [List.mem_append, List.mem_cons]
          tauto
        · intro x hx
          refine hcut.address_ne ?_
          simp only [List.mem_append, List.mem_cons] at hx ⊢
          tauto
      · intro x hx
        exact (hsep.rel_head? hx).resolve_left (by simp [hn])
      · simp [allocatedBlocks, hn]

/-- Both halves of `coalesce_with_neighbors`, and the insertion that follows it. -/
theorem Pending.coalesceWithNeighbors (P : Pending lo hi h left b right freeList) :
    ∃ blocks' freeList', Represents lo hi
        (freeListInsert (coalesceWithNeighbors h b.address).2
          (coalesceWithNeighbors h b.address).1) blocks' freeList' ∧
      allocatedBlocks blocks' = allocatedBlocks (left ++ right) := by
  have hnext := P.chained.nextPhys_eq
  obtain ⟨left', m, freeList₁, hm, P₁, hleft, halloc₁⟩ := P.coalesceLeft
  obtain ⟨m', right', freeList₂, hm', P₂, hright, halloc₂⟩ := P₁.coalesceRight hnext
  have hstep : Simple.coalesceWithNeighbors h b.address = (m'.address,
      Simple.coalesceRight (Simple.coalesceLeft h b.address (h.prevPhys b.address)).2 m.address
        (h.nextPhys b.address)) := by
    simp only [Simple.coalesceWithNeighbors, hm, hm']
  rw [hstep]
  refine ⟨left' ++ m' :: right', m'.address :: freeList₂, P₂.insert hleft hright, ?_⟩
  have hfree := P₂.free
  simp only [allocatedBlocks, List.filter_append] at halloc₁ halloc₂ ⊢
  rw [List.filter_cons_of_neg (by simp [hfree]), halloc₁, halloc₂]

/-- The block handed to `mm_free`, marked free and with its links cleared, is pending. -/
theorem Represents.release (R : Represents lo hi h (left ++ b :: right) freeList)
    (hb : b.allocated = true) (payload : ℕ) :
    Pending lo hi
      { countFree (blockMarkFree h b.address) payload with
        prevFree := update h.prevFree (.block b.address) .null
        nextFree := update h.nextFree (.block b.address) .null }
      left { b with allocated := false } right freeList := by
  have C := R.chained
  have hnot : b.address ∉ freeList := by
    intro hm
    obtain ⟨x, hx, heq, hxf⟩ := (R.mem_freeList _).mp hm
    rw [C.address_injective hx (by simp) heq] at hxf
    simp [hb] at hxf
  have hsep := List.isChain_append.mp R.separated
  refine ⟨?_, rfl, R.ring.congr ?_ ?_, ?_, hsep.1, hsep.2.1.tail⟩
  · refine C.setFlag false ?_ ?_ rfl rfl
    · have heven := C.size_even b (by simp)
      simp only [countFree, blockMarkFree, blockAllocatedFlag, Function.update_self]
      rw [C.header b (by simp), Word64.and_compl_one (C.word_lt (by simp)), Block.word, hb]
      simp only [Bool.toNat_true, Bool.toNat_false]
      omega
    · intro a ha
      simp [countFree, blockMarkFree, ha]
  · intro x hx
    have hne : x ≠ .block b.address := by
      rintro rfl
      simp [hnot] at hx
    simp [hne]
  · intro x hx
    have hne : x ≠ .block b.address := by
      rintro rfl
      simp [hnot] at hx
    simp [hne]
  · intro a
    rw [R.mem_freeList]
    simp only [List.mem_append, List.mem_cons]
    constructor
    · rintro ⟨x, hx | rfl | hx, rfl, hxf⟩
      · exact ⟨x, Or.inl hx, rfl, hxf⟩
      · simp [hb] at hxf
      · exact ⟨x, Or.inr hx, rfl, hxf⟩
    · rintro ⟨x, hx, hxa⟩
      exact ⟨x, by tauto, hxa⟩

theorem absorbNext_mmInitializedFlag (h : Heap) (a a' : ℕ) :
    (absorbNext h a a').mmInitializedFlag = h.mmInitializedFlag := by
  by_cases hz : update h.nextPhys a (h.nextPhys a') a' = 0 <;> simp [absorbNext, hz]

theorem coalesceWithNeighbors_mmInitializedFlag (h : Heap) (a : ℕ) :
    (coalesceWithNeighbors h a).2.mmInitializedFlag = h.mmInitializedFlag := by
  simp only [Simple.coalesceWithNeighbors, Simple.coalesceRight, Simple.coalesceLeft]
  split <;> split <;> simp [absorbNext_mmInitializedFlag]

/-- Freeing an allocated block removes it from the allocated blocks and touches no other. -/
theorem mmFree_spec (R : Represents lo hi h (left ++ b :: right) freeList)
    (hb : b.allocated = true) (hinit : h.mmInitializedFlag = true) :
    (mmFree h (b.address + headerSize)).mmInitializedFlag = true ∧
      ∃ blocks' freeList', Represents lo hi (mmFree h (b.address + headerSize)) blocks' freeList' ∧
        allocatedBlocks blocks' = allocatedBlocks (left ++ right) := by
  have hbound := R.chained.bounds (b := b) (by simp)
  have hge := R.chained.size_ge b (by simp)
  have hhigh := R.chained.high_le
  have hmin : minBlockSize = 56 := rfl
  have hhdr : headerSize = 40 := rfl
  have hblock : Word64.sub (b.address + headerSize) headerSize = b.address := by
    rw [Word64.sub_eq (by omega) (by omega)]
    omega
  have halloc := R.chained.blockIsAllocated_eq (b := b) (by simp)
  have hstep : ∃ payload, mmFree h (b.address + headerSize) =
      freeListInsert (coalesceWithNeighbors
        { countFree (blockMarkFree h b.address) payload with
          prevFree := update h.prevFree (.block b.address) .null
          nextFree := update h.nextFree (.block b.address) .null } b.address).2
      (coalesceWithNeighbors
        { countFree (blockMarkFree h b.address) payload with
          prevFree := update h.prevFree (.block b.address) .null
          nextFree := update h.nextFree (.block b.address) .null } b.address).1 := by
    refine ⟨Word64.sub (blockSize (blockMarkFree h b.address) b.address) headerSize, ?_⟩
    unfold mmFree
    rw [if_neg (by simp [hinit, hhdr]), hblock]
    simp only [halloc, hb]
    rfl
  obtain ⟨payload, hstep⟩ := hstep
  obtain ⟨blocks', freeList', R', hsame⟩ := (R.release hb payload).coalesceWithNeighbors
  rw [hstep]
  refine ⟨?_, blocks', freeList', R', hsame⟩
  have hflag := coalesceWithNeighbors_mmInitializedFlag
    { countFree (blockMarkFree h b.address) payload with
      prevFree := update h.prevFree (.block b.address) .null
      nextFree := update h.nextFree (.block b.address) .null } b.address
  exact hflag.trans hinit

end Free
end SoKernel.Mm.Simple
