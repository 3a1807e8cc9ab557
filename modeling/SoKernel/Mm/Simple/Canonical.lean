import SoKernel.Mm.Simple.Run

/-!
# The free space of the simple memory manager is canonical

No two free blocks are adjacent, so the allocated blocks determine the free ones. Freed
blocks therefore leave the same layout whatever the order in which they are freed.
-/

namespace SoKernel.Mm.Simple

open Relation (ReflTransGen)

variable {lo hi : ℕ} {h h' h₁ h₂ : Heap} {blocks blocks₁ blocks₂ : List Block}
variable {freeList freeList₁ freeList₂ : List ℕ} {s : System} {endOfKernel : UInt64}

/-- Layouts with the same allocated blocks are equal. -/
theorem Represents.eq_of_allocated (R₁ : Represents lo hi h₁ blocks₁ freeList₁)
    (R₂ : Represents lo hi h₂ blocks₂ freeList₂)
    (hsame : ∀ b, b ∈ allocatedBlocks blocks₁ ↔ b ∈ allocatedBlocks blocks₂) :
    blocks₁ = blocks₂ := by
  refine R₁.chained.tiles.eq_of_separated ?_ R₂.chained.tiles
    (fun _ hb => R₁.chained.size_pos hb) (fun _ hb => R₂.chained.size_pos hb) R₁.separated R₂.separated ?_
  · rintro ⟨a, n, f⟩ ⟨a', n', f'⟩ rfl rfl hf hf'
    simp only [Bool.not_eq_true] at hf hf'
    rw [hf, hf']
  · intro b hb
    simpa [mem_allocatedBlocks, hb] using hsame b

/-- The heap in the region holds the listed blocks. -/
def HasLayout (heapStart heapSize : UInt64) (h : Heap) (blocks : List Block) : Prop :=
  ∃ freeList, Represents (alignedStart heapStart)
    (alignedStart heapStart + usableBytes heapStart heapSize) h blocks freeList

/-- `mm_free` of each pointer of a list in turn. -/
def freeAll (s : System) : List ℕ → System
  | [] => s
  | p :: ps => freeAll ⟨mmFree s.heap p, s.live.erase p⟩ ps

namespace Valid

/-- Freeing live pointers one after the other. -/
theorem freeAll {ps : List ℕ} (V : Valid lo hi s blocks freeList) (hnodup : ps.Nodup)
    (hlive : ∀ p ∈ ps, p ∈ s.live) :
    ∃ blocks' freeList', Valid lo hi (Simple.freeAll s ps) blocks' freeList' ∧
      ∀ x, x ∈ allocatedBlocks blocks' ↔
        x ∈ allocatedBlocks blocks ∧ x.address + headerSize ∉ ps := by
  induction ps generalizing s blocks freeList with
  | nil => exact ⟨blocks, freeList, V, by simp⟩
  | cons p ps ih =>
      obtain ⟨hp, hps⟩ := List.nodup_cons.mp hnodup
      obtain ⟨blocks₁, freeList₁, V₁, hone⟩ := V.free (hlive p (by simp))
      have hrest : ∀ q ∈ ps, q ∈ s.live.erase p := by
        intro q hq
        have hne : q ≠ p := fun heq => hp (heq ▸ hq)
        exact (List.mem_erase_of_ne hne).mpr (hlive q (by simp [hq]))
      obtain ⟨blocks', freeList', V', hall⟩ := ih V₁ hps hrest
      refine ⟨blocks', freeList', V', fun x => ?_⟩
      rw [hall, hone, List.mem_cons, not_or, and_assoc]

/-- Freeing every live pointer leaves one block. -/
theorem freeAll_live {ps : List ℕ} (V : Valid lo hi s blocks freeList) (hperm : ps.Perm s.live)
    {size : ℕ} (R₁ : Represents lo hi h₁ [⟨lo, size, false⟩] freeList₁) :
    ∃ freeList', Represents lo hi (Simple.freeAll s ps).heap [⟨lo, size, false⟩] freeList' := by
  obtain ⟨blocks', freeList', V', hall⟩ := V.freeAll (hperm.nodup_iff.mpr V.live_nodup)
    fun p hp => hperm.mem_iff.mp hp
  have heq : blocks' = [⟨lo, size, false⟩] := by
    refine V'.represents.eq_of_allocated R₁ fun x => ?_
    rw [hall]
    constructor
    · rintro ⟨hx, hnot⟩
      exact absurd (hperm.mem_iff.mpr ((V.mem_live _).mpr ⟨x, hx, rfl⟩)) hnot
    · intro hx
      simp [allocatedBlocks] at hx
  exact ⟨freeList', heq ▸ V'.represents⟩

end Valid

/-- A carved block begins with the allocated part; the rest is free. -/
theorem carve_eq_cons (b : Block) (required : ℕ) :
    ∃ c rest, carve b required = c :: rest ∧ c.address = b.address ∧ c.allocated = true ∧
      allocatedBlocks rest = [] := by
  unfold carve
  split
  · exact ⟨_, [], rfl, rfl, rfl, rfl⟩
  · exact ⟨_, _, rfl, rfl, rfl, by simp [allocatedBlocks]⟩

/-- Freeing what was just allocated restores the layout. -/
theorem Represents.free_alloc (R : Represents lo hi h blocks freeList)
    (hinit : h.mmInitializedFlag = true) {size : UInt64} {ptr : ℕ}
    (hcall : mmAlloc endOfKernel h size = some (ptr, h')) :
    ∃ freeList', Represents lo hi (mmFree h' ptr) blocks freeList' := by
  obtain ⟨ptr', h'', hspec, hflag, hcases⟩ := mmAlloc_spec R hinit endOfKernel size
  obtain ⟨rfl, rfl⟩ : ptr = ptr' ∧ h' = h'' := by
    rw [hcall] at hspec
    simpa using hspec
  rcases hcases with ⟨rfl, R', -⟩ | ⟨left, b, right, rfl, hb, -, rfl, -, -, R'⟩
  · refine ⟨freeList, ?_⟩
    rwa [mmFree, if_pos (Or.inl rfl)]
  · obtain ⟨c, rest, hcarve, hca, hc, hrest⟩ := carve_eq_cons b (requiredSize size)
    rw [hcarve, List.append_assoc, List.cons_append] at R'
    obtain ⟨-, blocks', freeList', R'', hsame⟩ := mmFree_spec R' hc hflag
    rw [hca] at R''
    have heq : blocks' = left ++ b :: right := by
      refine R''.eq_of_allocated R fun x => ?_
      rw [hsame]
      simp only [allocatedBlocks, List.filter_append, List.filter_cons, hb] at hrest ⊢
      simp [hrest]
    exact ⟨freeList', heq ▸ R''⟩

/-- The allocated blocks of a reachable heap determine its layout. So pointers may be freed
in any order, freeing what was just allocated restores the layout, and once every live
pointer is freed the heap is the one free block of `mm_init`. -/
theorem free_space_canonical {h₀ : Heap} {heapStart heapSize : UInt64} {s s' : System}
    (hstart : heapStart ≠ 0) (hwrap : heapStart.toNat + heapSize.toNat ≤ 2 ^ 64)
    (hlimit : heapSize.toNat ≤ mmDefaultHeapLimit)
    (hinit : (mmInit h₀ heapStart heapSize).mmInitializedFlag = true)
    (hrun : ReflTransGen (Step endOfKernel) ⟨mmInit h₀ heapStart heapSize, []⟩ s)
    (hrun' : ReflTransGen (Step endOfKernel) ⟨mmInit h₀ heapStart heapSize, []⟩ s') :
    (∃ blocks blocks', HasLayout heapStart heapSize s.heap blocks ∧
      HasLayout heapStart heapSize s'.heap blocks') ∧
    (∀ blocks blocks', HasLayout heapStart heapSize s.heap blocks →
      HasLayout heapStart heapSize s'.heap blocks' →
      (∀ b, b ∈ allocatedBlocks blocks ↔ b ∈ allocatedBlocks blocks') → blocks = blocks') ∧
    (∀ ps qs, ps.Nodup → (∀ p ∈ ps, p ∈ s.live) → qs.Perm ps →
      ∃ blocks, HasLayout heapStart heapSize (freeAll s ps).heap blocks ∧
        HasLayout heapStart heapSize (freeAll s qs).heap blocks) ∧
    (∀ blocks size ptr h', HasLayout heapStart heapSize s.heap blocks →
      mmAlloc endOfKernel s.heap size = some (ptr, h') →
      HasLayout heapStart heapSize (mmFree h' ptr) blocks) ∧
    ∀ ps, ps.Perm s.live → HasLayout heapStart heapSize (freeAll s ps).heap
      [⟨alignedStart heapStart, usableBytes heapStart heapSize, false⟩] := by
  have V₀ := mmInit_valid hstart hwrap (extent_of_limit hlimit) hinit
  obtain ⟨blocks, freeList, V⟩ := V₀.run hrun
  obtain ⟨blocks', freeList', V'⟩ := V₀.run hrun'
  refine ⟨⟨blocks, blocks', ⟨freeList, V.represents⟩, freeList', V'.represents⟩, ?_, ?_, ?_, ?_⟩
  · rintro bs bs' ⟨fl, R⟩ ⟨fl', R'⟩ hsame
    exact R.eq_of_allocated R' hsame
  · intro ps qs hps hlive hperm
    obtain ⟨bs, fl, W, hall⟩ := V.freeAll hps hlive
    obtain ⟨bs', fl', W', hall'⟩ := V.freeAll (hperm.nodup_iff.mpr hps)
      fun q hq => hlive q (hperm.mem_iff.mp hq)
    have heq : bs' = bs := by
      refine W'.represents.eq_of_allocated W.represents fun x => ?_
      rw [hall, hall', hperm.mem_iff]
    exact ⟨bs, ⟨fl, W.represents⟩, fl', heq ▸ W'.represents⟩
  · rintro bs size ptr h' ⟨fl, R⟩ hcall
    exact R.free_alloc V.initialized hcall
  · intro ps hperm
    exact V.freeAll_live hperm V₀.represents

/-- A region of one page in which one block of 100 bytes is allocated. -/
theorem free_space_canonical_page :
    ∃ s, ReflTransGen (Step 0x101000) ⟨mmInit blankHeap 0x10008 4096, []⟩ s ∧
      s.live = [0x10038] ∧
      HasLayout 0x10008 4096 (freeAll s [0x10038]).heap [⟨0x10010, 4080, false⟩] := by
  have hcall : ∃ h', mmAlloc 0x101000 (mmInit blankHeap 0x10008 4096) 100 = some (0x10038, h') := by
    have hsome : ((mmAlloc 0x101000 (mmInit blankHeap 0x10008 4096) 100).map Prod.fst) =
        some 0x10038 := by
      decide +kernel
    obtain ⟨⟨p, h'⟩, hp, rfl⟩ := Option.map_eq_some_iff.mp hsome
    exact ⟨h', hp⟩
  obtain ⟨h', hcall⟩ := hcall
  have hrun : ReflTransGen (Step 0x101000) ⟨mmInit blankHeap 0x10008 4096, []⟩
      ⟨h', [0x10038]⟩ := by
    generalize mmInit blankHeap 0x10008 4096 = h₁ at hcall
    have hstep := Step.alloc (s := ⟨h₁, []⟩) hcall
    rw [if_neg (by decide)] at hstep
    exact ReflTransGen.single hstep
  obtain ⟨-, -, -, -, hall⟩ := free_space_canonical (by decide) (by decide) (by decide)
    (by decide +kernel) hrun hrun
  have hlo : alignedStart 0x10008 = 0x10010 := by decide +kernel
  have husable : usableBytes 0x10008 4096 = 4080 := by decide +kernel
  have hlast := hall [0x10038] (List.Perm.refl _)
  rw [hlo, husable] at hlast
  exact ⟨⟨h', [0x10038]⟩, hrun, rfl, hlast⟩

end SoKernel.Mm.Simple
