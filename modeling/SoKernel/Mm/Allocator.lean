import Mathlib.Data.Set.Insert
import SoKernel.Mm.Buddy.Run
import SoKernel.Mm.Simple.Run

/-!
# Memory managers

What the rest of the kernel uses of a memory manager: `mm_alloc` and `mm_free`, and that they
add one block to the allocated blocks and take one away. The build chooses one of the two
managers; both are instances.
-/

namespace SoKernel.Mm

/-- A memory manager with the set of its allocated blocks. -/
structure Allocator where
  Heap : Type
  Block : Type
  /-- The address that a client has of a block. -/
  payload : Block → ℕ
  alloc : Heap → UInt64 → Option (ℕ × Heap)
  free : Heap → ℕ → Option Heap
  /-- The heap is in order, and these are its allocated blocks. -/
  Holds : Heap → Set Block → Prop
  alloc_spec : ∀ {h B}, Holds h B → ∀ size, ∃ ptr h', alloc h size = some (ptr, h') ∧
    (ptr = 0 ∧ Holds h' B ∨ ptr ≠ 0 ∧ (∀ b ∈ B, payload b ≠ ptr) ∧
      ∃ b, payload b = ptr ∧ Holds h' (insert b B))
  free_spec : ∀ {h B b}, Holds h B → b ∈ B → ∃ h', free h (payload b) = some h' ∧
    Holds h' {x ∈ B | payload x ≠ payload b}

namespace Allocator

variable {M : Allocator} {h : M.Heap} {B : Set M.Block} {b : M.Block}

/-- Freeing the newest block gives back the blocks before it was allocated. -/
theorem free_newest (hheap : M.Holds h (insert b B)) (hnew : ∀ x ∈ B, M.payload x ≠ M.payload b) :
    ∃ h', M.free h (M.payload b) = some h' ∧ M.Holds h' B := by
  obtain ⟨h', hcall, hholds⟩ := M.free_spec hheap (Set.mem_insert b B)
  refine ⟨h', hcall, ?_⟩
  have hset : {x ∈ insert b B | M.payload x ≠ M.payload b} = B := by
    ext x
    constructor
    · rintro ⟨rfl | hx, hne⟩
      · exact absurd rfl hne
      · exact hx
    · exact fun hx => ⟨Or.inr hx, hnew x hx⟩
  rwa [hset] at hholds

/-- An address that is returned is that of a new block. -/
theorem alloc_holds (hheap : M.Holds h B) {size : UInt64} {ptr : ℕ} {h' : M.Heap}
    (hcall : M.alloc h size = some (ptr, h')) (hptr : ptr ≠ 0) :
    ∃ b, M.payload b = ptr ∧ M.Holds h' (insert b B) := by
  obtain ⟨ptr', h'', hspec, hcases⟩ := M.alloc_spec hheap size
  obtain ⟨rfl, rfl⟩ := Prod.mk.inj (Option.some_inj.mp (hcall.symm.trans hspec))
  rcases hcases with ⟨h0, -⟩ | ⟨-, -, hnew⟩
  · exact absurd h0 hptr
  · exact hnew

end Allocator

section Simple

open Simple

/-- The manager of `mm_simple.c`, for a heap between `lo` and `hi`. -/
def simpleAllocator (lo hi : ℕ) (endOfKernel : UInt64) : Allocator where
  Heap := Simple.Heap
  Block := Simple.Block
  payload b := b.address + headerSize
  alloc := Simple.mmAlloc endOfKernel
  free h ptr := some (Simple.mmFree h ptr)
  Holds h B := h.mmInitializedFlag = true ∧ ∃ blocks freeList, Simple.Represents lo hi h blocks freeList ∧
    B = {b | b ∈ Simple.allocatedBlocks blocks}
  alloc_spec := by
    rintro h _ ⟨hinit, blocks, freeList, R, rfl⟩ size
    obtain ⟨ptr, h', hcall, hflag, hcases⟩ := Simple.mmAlloc_spec R hinit endOfKernel size
    refine ⟨ptr, h', hcall, ?_⟩
    rcases hcases with ⟨hptr, R', -⟩ | ⟨left, b, right, rfl, hb, -, rfl, -, -, R'⟩
    · exact Or.inl ⟨hptr, hflag, blocks, freeList, R', rfl⟩
    · right
      obtain ⟨c, hca, -, -, hcarve⟩ := Simple.allocatedBlocks_carve b (Simple.requiredSize size)
      have hpos := R.chained.address_pos (b := b) (by simp)
      refine ⟨by omega, fun x hx heq => ?_, c, by rw [hca], hflag, _, _, R', ?_⟩
      · obtain ⟨hx, hxa⟩ := Simple.mem_allocatedBlocks.mp hx
        have hxb := R.chained.address_injective hx (c := b) (by simp) (by omega)
        simp [hxb, hb] at hxa
      · ext x
        simp only [Simple.allocatedBlocks] at hcarve
        simp only [Simple.allocatedBlocks, List.filter_append, List.filter_cons, hb, hcarve,
          Set.mem_ofPred_eq, Set.mem_insert_iff, List.mem_append, List.mem_singleton,
          Bool.false_eq_true, if_false]
        tauto
  free_spec := by
    rintro h _ b ⟨hinit, blocks, freeList, R, rfl⟩ hb
    obtain ⟨hmem, halloc⟩ := Simple.mem_allocatedBlocks.mp hb
    obtain ⟨left, right, rfl⟩ := List.append_of_mem hmem
    obtain ⟨hflag, blocks', freeList', R', hsame⟩ := Simple.mmFree_spec R halloc hinit
    refine ⟨_, rfl, hflag, blocks', freeList', R', ?_⟩
    ext x
    have hcut := R.chained.mem_allocatedBlocks_cut x
    rw [hsame]
    simp only [Set.mem_ofPred_eq, hcut, ne_eq, Nat.add_right_cancel_iff]

end Simple

section Buddy

open Buddy

/-- The manager of `mm_buddy.c`, for a heap of `usable` bytes from `lo`. -/
def buddyAllocator (lo usable maxLevel : ℕ) (endOfKernel : UInt64) : Allocator where
  Heap := Buddy.Heap
  Block := Buddy.Block
  payload b := b.address lo + hdrSize
  alloc := Buddy.mmAlloc endOfKernel
  free := Buddy.mmFree
  Holds h B := ∃ blocks lists, Buddy.Represents lo usable maxLevel h blocks lists ∧
    B = {b | b ∈ Buddy.allocatedBlocks blocks}
  alloc_spec := by
    rintro h _ ⟨blocks, lists, R, rfl⟩ size
    obtain ⟨ptr, h', hcall, hcases⟩ := Buddy.mmAlloc_spec R endOfKernel size
    refine ⟨ptr, h', hcall, ?_⟩
    rcases hcases with ⟨hptr, R', -⟩ | ⟨left, b, right, mid, rfl, hb, -, -, rfl, hmid, R'⟩
    · exact Or.inl ⟨hptr, blocks, lists, R', rfl⟩
    · right
      have hpos := R.layout.address_pos (b := b) (by simp)
      refine ⟨by omega, fun x hx heq => ?_, ⟨b.index, requestOrder h size, .allocated⟩, ?_, _, _, R',
        ?_⟩
      · obtain ⟨hx, hxa⟩ := Buddy.mem_allocatedBlocks.mp hx
        have hxb := R.layout.address_injective hx (c := b) (by simp) (by omega)
        simp [hxb, hb] at hxa
      · simp only [Block.address]
      · have hmid' : mid.filter (fun x => decide (x.status = .allocated)) = [] :=
          List.filter_eq_nil_iff.mpr fun x hx => by simp [hmid x hx]
        ext x
        simp only [Buddy.allocatedBlocks, List.filter_append, List.filter_cons, hb, hmid',
          reduceCtorEq, decide_false, decide_true, Set.mem_ofPred_eq, Set.mem_insert_iff,
          List.mem_append, List.mem_cons, List.not_mem_nil, Bool.false_eq_true, if_false, if_true]
        tauto
  free_spec := by
    rintro h _ b ⟨blocks, lists, R, rfl⟩ hb
    obtain ⟨hmem, halloc⟩ := Buddy.mem_allocatedBlocks.mp hb
    obtain ⟨left, right, rfl⟩ := List.append_of_mem hmem
    obtain ⟨h', blocks', lists', hcall, R', hsame⟩ := Buddy.mmFree_spec R halloc
    refine ⟨h', hcall, blocks', lists', R', ?_⟩
    ext x
    have hcut := R.layout.mem_allocatedBlocks_cut x
    rw [hsame]
    simp only [Set.mem_ofPred_eq, hcut, ne_eq, Nat.add_right_cancel_iff]

end Buddy

end SoKernel.Mm
