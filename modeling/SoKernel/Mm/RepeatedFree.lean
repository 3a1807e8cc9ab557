import SoKernel.Mm.Buddy.Stats
import SoKernel.Mm.Simple.Stats

/-!
# Freeing a block twice

Both managers ignore a free when the header says that the block is free. After a first call that
header may lie in the middle of a merged block, where nothing resets its flag: the simple manager
writes only even sizes while it merges, and the buddy manager only marks blocks as free.
-/

namespace SoKernel.Mm.Simple

open Function (update)

variable {h : Heap} {a b left right ptr : ℕ}

theorem blockIsAllocated_eq_false : blockIsAllocated h a = false ↔ h.sizeAndFlags a % 2 = 0 := by
  rw [blockIsAllocated, blockAllocatedFlag, Nat.and_one_is_mod]
  simp

/-- The flag is not part of the size. -/
theorem blockSize_even (h : Heap) (a : ℕ) : blockSize h a % 2 = 0 := by
  have hmask : Word64.compl blockAllocatedFlag &&& 1 = 0 := by decide
  rw [blockSize, ← Nat.and_one_is_mod, Nat.and_assoc, hmask, Nat.and_zero]

theorem blockMarkFree_even (h : Heap) (a : ℕ) : (blockMarkFree h a).sizeAndFlags a % 2 = 0 := by
  simp only [blockMarkFree, Function.update_self]
  exact blockSize_even h a

/-- Taking over the next block writes the sum of two sizes. -/
theorem absorbNext_even (ha : h.sizeAndFlags a % 2 = 0) :
    (absorbNext h left right).sizeAndFlags a % 2 = 0 := by
  have hsum : Word64.add (blockSize h left) (blockSize h right) % 2 = 0 := by
    have hleft := blockSize_even h left
    have hright := blockSize_even h right
    rw [Word64.add]
    omega
  have hupdate : update h.sizeAndFlags left
      (Word64.add (blockSize h left) (blockSize h right)) a % 2 = 0 := by
    rcases eq_or_ne a left with rfl | hne
    · rw [Function.update_self]
      exact hsum
    · rw [Function.update_of_ne hne]
      exact ha
  rw [absorbNext]
  dsimp only
  split <;> exact hupdate

/-- Merging a block with its neighbours leaves a cleared flag cleared. -/
theorem coalesceWithNeighbors_even (ha : h.sizeAndFlags a % 2 = 0) :
    (coalesceWithNeighbors h b).2.sizeAndFlags a % 2 = 0 := by
  have hleft : (coalesceLeft h b (h.prevPhys b)).2.sizeAndFlags a % 2 = 0 := by
    rw [coalesceLeft]
    split
    · exact absorbNext_even ha
    · exact ha
  rw [coalesceWithNeighbors]
  dsimp only
  rw [coalesceRight]
  split
  · exact absorbNext_even hleft
  · exact hleft

/-- After `mm_free` the header of the pointer says that the block is free. -/
theorem mmFree_even (h : Heap) (hptr : ptr ≠ 0) (hinit : h.mmInitializedFlag = true) :
    (mmFree h ptr).sizeAndFlags (Word64.sub ptr headerSize) % 2 = 0 := by
  rw [mmFree, if_neg (by simp [hptr, hinit])]
  generalize Word64.sub ptr headerSize = block
  dsimp only
  split
  · rename_i hfree
    exact blockIsAllocated_eq_false.mp hfree
  · rw [freeListInsert_sizeAndFlags]
    exact coalesceWithNeighbors_even (blockMarkFree_even h block)

/-- A second `mm_free` of a pointer changes nothing, in whatever heap. -/
theorem mmFree_mmFree (h : Heap) (ptr : ℕ) : mmFree (mmFree h ptr) ptr = mmFree h ptr := by
  by_cases hskip : ptr = 0 ∨ h.mmInitializedFlag = false
  · have hsame : mmFree h ptr = h := by rw [mmFree, if_pos hskip]
    rw [hsame, hsame]
  · obtain ⟨hptr, hinit⟩ := not_or.mp hskip
    have hfree := blockIsAllocated_eq_false.mpr
      (mmFree_even h hptr (Bool.not_eq_false _ ▸ hinit))
    generalize mmFree h ptr = h' at hfree ⊢
    rw [mmFree]
    split
    · rfl
    · dsimp only
      rw [if_pos hfree]

end SoKernel.Mm.Simple

namespace SoKernel.Mm.Buddy

open Function (update)

variable {h h' : Heap} {a b ptr : ℕ}

theorem isFree_update (ha : h.isFree a ≠ 0) (b : ℕ) : update h.isFree b 1 a ≠ 0 := by
  rcases eq_or_ne a b with rfl | hne
  · rw [Function.update_self]
    decide
  · rwa [Function.update_of_ne hne]

theorem write_isFree (h : Heap) (v : ℕ) (slot : Slot) : (slot.write h v).isFree = h.isFree := by
  cases slot <;> rfl

theorem removeFromFreeList_isFree (hcall : removeFromFreeList h b = some h') :
    h'.isFree = h.isFree := by
  obtain ⟨slot, -, rfl⟩ := Option.map_eq_some_iff.mp hcall
  split
  · dsimp only
    rw [← write_isFree h (h.next b) slot]
    split <;> rfl
  · rfl

/-- Merging a block with its buddies resets no mark. -/
theorem coalesce_isFree (hcall : coalesce h b = some h') (ha : h.isFree a ≠ 0) :
    h'.isFree a ≠ 0 := by
  refine coalesce_keeps (P := fun h => h.isFree a ≠ 0) (fun h c h' hrem hP => ?_)
    (fun h c hP => isFree_update hP c) (fun h c hP => ?_) hcall ha
  · rw [removeFromFreeList_isFree hrem]
    exact hP
  · rw [pushFree_isFree]
    exact isFree_update hP c

/-- A second `mm_free` of a pointer changes nothing, in whatever heap. -/
theorem mmFree_mmFree (hcall : mmFree h ptr = some h') : mmFree h' ptr = some h' := by
  rw [mmFree] at hcall
  split at hcall
  · rename_i hskip
    cases hcall
    rw [mmFree, if_pos hskip]
  dsimp only at hcall
  split at hcall
  · rename_i hskip hfree
    cases hcall
    rw [mmFree, if_neg hskip]
    dsimp only
    rw [if_pos hfree]
  · have hmark : h'.isFree (getBlockFromPtr ptr) ≠ 0 := by
      refine coalesce_isFree hcall ?_
      simp only [countFree, Function.update_self]
      decide
    rw [mmFree]
    split
    · rfl
    · dsimp only
      rw [if_pos (Or.inr hmark)]

end SoKernel.Mm.Buddy

namespace SoKernel.Mm

open Relation (ReflTransGen)

/-- In both managers the second of two calls of `mm_free` in a row for a live pointer leaves the
heap as the first one left it. -/
theorem repeated_free_harmless {heapStart heapSize : UInt64} (endOfKernel : UInt64)
    (hstart : heapStart ≠ 0) (hwrap : heapStart.toNat + heapSize.toNat ≤ 2 ^ 64)
    (hlimit : heapSize.toNat ≤ Simple.mmDefaultHeapLimit) :
    (∀ h₀ s, (Simple.mmInit h₀ heapStart heapSize).mmInitializedFlag = true →
      ReflTransGen (Simple.Step endOfKernel) ⟨Simple.mmInit h₀ heapStart heapSize, []⟩ s →
      ∀ ptr ∈ s.live, Simple.mmFree (Simple.mmFree s.heap ptr) ptr = Simple.mmFree s.heap ptr) ∧
    ∀ h₀ h₁ s, Buddy.mmInit h₀ heapStart heapSize = some h₁ → h₁.mmInitializedFlag = true →
      ReflTransGen (Buddy.Step endOfKernel) ⟨h₁, []⟩ s →
      ∀ ptr ∈ s.live, ∃ h', Buddy.mmFree s.heap ptr = some h' ∧ Buddy.mmFree h' ptr = some h' := by
  refine ⟨fun _ s _ _ ptr _ => Simple.mmFree_mmFree s.heap ptr,
    fun h₀ h₁ s hinit hflag hrun ptr hptr => ?_⟩
  obtain ⟨n, m, run⟩ := Buddy.exists_countedRun hrun
  obtain ⟨_, _, V, -⟩ := Buddy.counted_of_init hstart hwrap (Buddy.extent_of_limit hlimit) hinit hflag
    run
  obtain ⟨h', _, _, hcall, -⟩ := V.free hptr
  exact ⟨h', hcall, Buddy.mmFree_mmFree hcall⟩

/-- In a region of one page with one live pointer. -/
theorem repeated_free_harmless_page :
    (∃ s, ReflTransGen (Simple.Step 0x101000) ⟨Simple.mmInit Simple.blankHeap 0x10008 4096, []⟩ s ∧
      ∃ ptr ∈ s.live, Simple.mmFree (Simple.mmFree s.heap ptr) ptr = Simple.mmFree s.heap ptr) ∧
    ∃ h₁ s, Buddy.mmInit Buddy.blankHeap 0x10008 4096 = some h₁ ∧
      ReflTransGen (Buddy.Step 0x101000) ⟨h₁, []⟩ s ∧
      ∃ ptr ∈ s.live, ∃ h', Buddy.mmFree s.heap ptr = some h' ∧ Buddy.mmFree h' ptr = some h' := by
  obtain ⟨hsimple, hbuddy⟩ := @repeated_free_harmless 0x10008 4096 0x101000 (by decide) (by decide)
    (by decide)
  refine ⟨?_, ?_⟩
  · have hinit : (Simple.mmInit Simple.blankHeap 0x10008 4096).mmInitializedFlag = true := by
      decide +kernel
    have hcalc : (Simple.mmAlloc 0x101000 (Simple.mmInit Simple.blankHeap 0x10008 4096) 100).map
        (fun r => decide (r.1 ≠ 0)) = some true := by
      decide +kernel
    obtain ⟨⟨ptr, h'⟩, hcall, hvalue⟩ := Option.map_eq_some_iff.mp hcalc
    have hptr : ptr ≠ 0 := of_decide_eq_true hvalue
    have hfree := hsimple Simple.blankHeap ⟨h', [ptr]⟩ hinit
    generalize Simple.mmInit Simple.blankHeap 0x10008 4096 = h₁ at hcall hfree ⊢
    have hstep := Simple.Step.alloc (s := ⟨h₁, []⟩) hcall
    rw [if_neg hptr] at hstep
    have hrun := ReflTransGen.single hstep
    exact ⟨_, hrun, ptr, by simp, hfree hrun ptr (by simp)⟩
  · have hcalc : ((Buddy.mmInit Buddy.blankHeap 0x10008 4096).bind fun h =>
        (Buddy.mmAlloc 0x101000 h 100).map fun r =>
          decide (h.mmInitializedFlag = true ∧ r.1 ≠ 0)) = some true := by
      decide +kernel
    obtain ⟨h₁, hinit, hcalc⟩ := Option.bind_eq_some_iff.mp hcalc
    obtain ⟨⟨ptr, h'⟩, hcall, hcalc⟩ := Option.map_eq_some_iff.mp hcalc
    obtain ⟨hflag, hptr⟩ := of_decide_eq_true hcalc
    dsimp only at hptr
    have hstep := Buddy.Step.alloc (s := ⟨h₁, []⟩) hcall
    rw [if_neg hptr] at hstep
    have hrun := ReflTransGen.single hstep
    exact ⟨h₁, _, hinit, hrun, ptr, by simp, hbuddy _ _ _ hinit hflag hrun ptr (by simp)⟩

end SoKernel.Mm
