import SoKernel.Mm.Buddy.Run

/-!
# The free space of the buddy memory manager is canonical

Two buddies below the top level are never both free, so the allocated blocks determine the
free ones: each gap between them is cut into as few aligned blocks as possible. The order
of frees does not matter, and an empty heap is the first layout of `mm_init` again.
-/

namespace SoKernel.Mm.Buddy

open Relation (ReflTransGen)

variable {lo usable maxLevel maxLevel' : ℕ} {h h' h₁ h₂ : Heap}
variable {blocks blocks₁ blocks₂ : List Block} {lists lists₁ lists₂ : ℕ → List ℕ}
variable {s s' : System} {endOfKernel : UInt64}

theorem Represents.coalesced (R : Represents lo usable maxLevel h blocks lists) :
    Dyadic.Coalesced Block.index Block.level (fun b => b.status = .allocated) maxLevel
      (usable / unitBytes) blocks := by
  have hfree : ∀ b ∈ blocks, b.status ≠ .allocated → b.status = .free := by
    intro b hb hne
    have hheld := R.none_held b hb
    cases hs : b.status <;> simp_all
  refine ⟨R.layout.tiles, R.layout.aligned, R.layout.level_le, fun x hx y hy hlt hlev hstart => ?_⟩
  by_contra hnot
  obtain ⟨hxf, hyf⟩ := not_or.mp hnot
  exact R.apart x hx y hy hlt ⟨hlev, hstart⟩ ⟨hfree x hx hxf, hfree y hy hyf⟩

/-- The blocks of a layout are found in any layout with the same allocated blocks. -/
theorem Represents.subset_of_allocated (R₁ : Represents lo usable maxLevel h₁ blocks₁ lists₁)
    (R₂ : Represents lo usable maxLevel h₂ blocks₂ lists₂)
    (hsame : ∀ b, b ∈ allocatedBlocks blocks₁ ↔ b ∈ allocatedBlocks blocks₂) {b : Block}
    (hb : b ∈ blocks₂) : b ∈ blocks₁ := by
  have hsub : ∀ x ∈ blocks₁, x.status = .allocated → x ∈ blocks₂ := fun x hx ha =>
    (mem_allocatedBlocks.mp ((hsame x).mp (mem_allocatedBlocks.mpr ⟨hx, ha⟩))).1
  have hsub' : ∀ x ∈ blocks₂, x.status = .allocated → x ∈ blocks₁ := fun x hx ha =>
    (mem_allocatedBlocks.mp ((hsame x).mpr (mem_allocatedBlocks.mpr ⟨hx, ha⟩))).1
  by_cases ha : b.status = .allocated
  · exact hsub' b hb ha
  · obtain ⟨c, hc, hidx, hlev, hca⟩ := R₁.coalesced.gap_mem R₂.coalesced hsub hsub' hb ha
    have hbc : c = b := by
      have hch := R₁.none_held c hc
      have hbh := R₂.none_held b hb
      obtain ⟨i, l, st⟩ := b
      obtain ⟨i', l', st'⟩ := c
      cases st <;> cases st' <;> simp_all
    exact hbc ▸ hc

theorem Represents.mem_iff_of_allocated (R₁ : Represents lo usable maxLevel h₁ blocks₁ lists₁)
    (R₂ : Represents lo usable maxLevel h₂ blocks₂ lists₂)
    (hsame : ∀ b, b ∈ allocatedBlocks blocks₁ ↔ b ∈ allocatedBlocks blocks₂) (b : Block) :
    b ∈ blocks₁ ↔ b ∈ blocks₂ :=
  ⟨R₂.subset_of_allocated R₁ fun x => (hsame x).symm, R₁.subset_of_allocated R₂ hsame⟩

/-- The heap in the region holds exactly the blocks in `B`. -/
def HasLayout (heapStart heapSize : UInt64) (h : Heap) (B : Set Block) : Prop :=
  ∃ blocks lists, Represents (alignedStart heapStart) (usableBytes heapStart heapSize)
    (topLevel (usableBytes heapStart heapSize)) h blocks lists ∧ ∀ b, b ∈ blocks ↔ b ∈ B

/-- `mm_free` of each pointer of a list in turn. -/
def freeAll (s : System) : List ℕ → Option System
  | [] => some s
  | p :: ps => do
      let h ← mmFree s.heap p
      freeAll ⟨h, s.live.erase p⟩ ps

/-- Freeing live pointers one after the other. -/
theorem Valid.freeAll_spec {ps : List ℕ} (V : Valid lo usable maxLevel s blocks lists)
    (hnodup : ps.Nodup) (hlive : ∀ p ∈ ps, p ∈ s.live) :
    ∃ s' blocks' lists', freeAll s ps = some s' ∧ Valid lo usable maxLevel s' blocks' lists' ∧
      ∀ x, x ∈ allocatedBlocks blocks' ↔
        x ∈ allocatedBlocks blocks ∧ x.address lo + hdrSize ∉ ps := by
  induction ps generalizing s blocks lists with
  | nil => exact ⟨s, blocks, lists, rfl, V, by simp⟩
  | cons p ps ih =>
      obtain ⟨hp, hps⟩ := List.nodup_cons.mp hnodup
      obtain ⟨h', blocks₁, lists₁, hcall, V₁, hone⟩ := V.free (hlive p (by simp))
      have hrest : ∀ q ∈ ps, q ∈ s.live.erase p := by
        intro q hq
        have hne : q ≠ p := fun heq => hp (heq ▸ hq)
        exact (List.mem_erase_of_ne hne).mpr (hlive q (by simp [hq]))
      obtain ⟨s', blocks', lists', hrun, V', hall⟩ := ih V₁ hps hrest
      refine ⟨s', blocks', lists', ?_, V', fun x => ?_⟩
      · rw [freeAll, hcall, Option.bind_eq_bind, Option.bind_some, hrun]
      · rw [hall, hone, List.mem_cons, not_or, and_assoc]

/-- Freeing what was just allocated restores the blocks. -/
theorem Represents.free_alloc (R : Represents lo usable maxLevel h blocks lists) {size : UInt64}
    {ptr : ℕ} (hcall : mmAlloc endOfKernel h size = some (ptr, h')) :
    ∃ h'' blocks' lists', mmFree h' ptr = some h'' ∧
      Represents lo usable maxLevel h'' blocks' lists' ∧ ∀ b, b ∈ blocks' ↔ b ∈ blocks := by
  obtain ⟨ptr', h₁, hspec, hcases⟩ := mmAlloc_spec R endOfKernel size
  obtain ⟨rfl, rfl⟩ : ptr = ptr' ∧ h' = h₁ := by
    rw [hcall] at hspec
    simpa using hspec
  rcases hcases with ⟨rfl, R', -⟩ | ⟨left, b, right, mid, rfl, hb, -, -, rfl, hmid, R'⟩
  · exact ⟨h', blocks, lists, by rw [mmFree, if_pos (Or.inl rfl)], R', fun _ => Iff.rfl⟩
  · generalize requestOrder h size = ord at R'
    obtain ⟨h'', blocks', lists'', hfree, R'', hsame⟩ := mmFree_spec R' rfl
    have haddr : (⟨b.index, ord, .allocated⟩ : Block).address lo = b.address lo := by
      simp only [Block.address]
    rw [haddr] at hfree
    refine ⟨h'', blocks', lists'', hfree, R'', R''.mem_iff_of_allocated R fun x => ?_⟩
    have hmid' : mid.filter (fun x => decide (x.status = .allocated)) = [] := by
      rw [List.filter_eq_nil_iff]
      intro x hx
      simp [hmid x hx]
    rw [hsame]
    simp [allocatedBlocks, hmid', hb]

theorem HasLayout.of_same {heapStart heapSize : UInt64} {B : Set Block}
    (R : Represents (alignedStart heapStart) (usableBytes heapStart heapSize)
      (topLevel (usableBytes heapStart heapSize)) h blocks lists)
    (hsame : ∀ b, b ∈ blocks ↔ b ∈ B) : HasLayout heapStart heapSize h B :=
  ⟨blocks, lists, R, hsame⟩

/-- The allocated blocks of a reachable heap determine its free blocks. So pointers may be
freed in any order, freeing what was just allocated restores the blocks, and once every
live pointer is freed the blocks are those of `mm_init`. -/
theorem buddy_free_space_canonical {h₀ : Heap} {heapStart heapSize : UInt64}
    (hstart : heapStart ≠ 0) (hwrap : heapStart.toNat + heapSize.toNat ≤ 2 ^ 64)
    (hlimit : heapSize.toNat ≤ mmDefaultHeapLimit)
    (hinit : mmInit h₀ heapStart heapSize = some h₁) (hflag : h₁.mmInitializedFlag = true)
    (hrun : ReflTransGen (Step endOfKernel) ⟨h₁, []⟩ s)
    (hrun' : ReflTransGen (Step endOfKernel) ⟨h₁, []⟩ s') :
    (∃ B B', HasLayout heapStart heapSize s.heap B ∧ HasLayout heapStart heapSize s'.heap B') ∧
    (∀ B B', HasLayout heapStart heapSize s.heap B → HasLayout heapStart heapSize s'.heap B' →
      (∀ b : Block, b.status = .allocated → (b ∈ B ↔ b ∈ B')) →
      ∀ b : Block, b.status = .free → (b ∈ B ↔ b ∈ B')) ∧
    (∀ ps qs, ps.Nodup → (∀ p ∈ ps, p ∈ s.live) → qs.Perm ps →
      ∃ B s₁ s₂, freeAll s ps = some s₁ ∧ freeAll s qs = some s₂ ∧
        HasLayout heapStart heapSize s₁.heap B ∧ HasLayout heapStart heapSize s₂.heap B) ∧
    (∀ B size ptr h', HasLayout heapStart heapSize s.heap B →
      mmAlloc endOfKernel s.heap size = some (ptr, h') →
      ∃ h'', mmFree h' ptr = some h'' ∧ HasLayout heapStart heapSize h'' B) ∧
    ∀ ps, ps.Perm s.live → ∃ B s₁, freeAll s ps = some s₁ ∧
      HasLayout heapStart heapSize h₁ B ∧ HasLayout heapStart heapSize s₁.heap B := by
  obtain ⟨h', hinit', -, hspec⟩ := mmInit_spec hstart hwrap (extent_of_limit hlimit) h₀
  rw [hinit] at hinit'
  cases hinit'
  obtain ⟨-, blocks₀, lists₀, R₀, hfree⟩ := hspec hflag
  obtain ⟨blocks, lists, V⟩ := (R₀.initial_valid hfree).run hrun
  obtain ⟨blocks', lists', V'⟩ := (R₀.initial_valid hfree).run hrun'
  refine ⟨⟨{b | b ∈ blocks}, {b | b ∈ blocks'}, .of_same V.represents fun _ => Iff.rfl,
    .of_same V'.represents fun _ => Iff.rfl⟩, ?_, ?_, ?_, ?_⟩
  · rintro B B' ⟨bs, ls, R, hB⟩ ⟨bs', ls', R', hB'⟩ hsame b -
    rw [← hB, ← hB']
    refine R.mem_iff_of_allocated R' (fun x => ?_) b
    rw [mem_allocatedBlocks, mem_allocatedBlocks, hB, hB']
    exact and_congr_left (hsame x)
  · intro ps qs hps hlive hperm
    obtain ⟨s₁, bs, ls, hfreed, W, hall⟩ := V.freeAll_spec hps hlive
    obtain ⟨s₂, bs', ls', hfreed', W', hall'⟩ := V.freeAll_spec (hperm.nodup_iff.mpr hps)
      fun q hq => hlive q (hperm.mem_iff.mp hq)
    refine ⟨{b | b ∈ bs}, s₁, s₂, hfreed, hfreed', .of_same W.represents fun _ => Iff.rfl,
      .of_same W'.represents ?_⟩
    refine W'.represents.mem_iff_of_allocated W.represents fun x => ?_
    rw [hall, hall', hperm.mem_iff]
  · rintro B size ptr h' ⟨bs, ls, R, hB⟩ hcall
    obtain ⟨h'', bs', ls', hfreed, R', hsame⟩ := R.free_alloc hcall
    exact ⟨h'', hfreed, .of_same R' fun b => (hsame b).trans (hB b)⟩
  · intro ps hperm
    obtain ⟨s₁, bs, ls, hfreed, W, hall⟩ := V.freeAll_spec (hperm.nodup_iff.mpr V.live_nodup)
      fun p hp => hperm.mem_iff.mp hp
    refine ⟨{b | b ∈ blocks₀}, s₁, hfreed, .of_same R₀ fun _ => Iff.rfl, .of_same W.represents ?_⟩
    refine W.represents.mem_iff_of_allocated R₀ fun x => ?_
    rw [hall]
    constructor
    · rintro ⟨hx, hnot⟩
      exact absurd (hperm.mem_iff.mpr ((V.mem_live _).mpr ⟨x, hx, rfl⟩)) hnot
    · intro hx
      obtain ⟨hx, ha⟩ := mem_allocatedBlocks.mp hx
      simp [hfree x hx] at ha

/-- A region of one page in which one block of 100 bytes is allocated and freed. -/
theorem buddy_free_space_canonical_page :
    ∃ h₁ s, mmInit blankHeap 0x10008 4096 = some h₁ ∧
      ReflTransGen (Step 0x101000) ⟨h₁, []⟩ s ∧ s.live.length = 1 ∧
      ∃ B s₁, freeAll s s.live = some s₁ ∧ HasLayout 0x10008 4096 h₁ B ∧
        HasLayout 0x10008 4096 s₁.heap B := by
  have hinit : (mmInit blankHeap 0x10008 4096).any (fun h => h.mmInitializedFlag &&
      (mmAlloc 0x101000 h 100).any fun r => decide (r.1 ≠ 0)) = true := by
    decide +kernel
  obtain ⟨h₁, hh₁, hok⟩ := (Option.any_eq_true _ _).mp hinit
  simp only [Bool.and_eq_true] at hok
  obtain ⟨hflag, halloc⟩ := hok
  obtain ⟨⟨ptr, h'⟩, hcall, hptr⟩ := (Option.any_eq_true _ _).mp halloc
  have hstep := Step.alloc (s := ⟨h₁, []⟩) hcall
  rw [if_neg (by simpa using hptr)] at hstep
  have hrun := ReflTransGen.single hstep
  obtain ⟨-, -, -, -, hall⟩ := buddy_free_space_canonical (by decide) (by decide) (by decide) hh₁
    hflag hrun hrun
  exact ⟨h₁, _, hh₁, hrun, rfl, hall _ (List.Perm.refl _)⟩

end SoKernel.Mm.Buddy
