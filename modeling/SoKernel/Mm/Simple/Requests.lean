import Mathlib.Algebra.Ring.Parity
import SoKernel.Mm.Simple.Stats

/-!
# Which requests the simple memory manager serves

A request is rounded up and a header is added in 64-bit arithmetic, which wraps for the largest
sizes. For the others the largest free block decides whether it is served. Where the pointer
falls depends on the blocks before it: the header is not a multiple of the alignment.
-/

namespace SoKernel.Mm.Simple

open Relation (ReflTransGen)

variable {lo hi : ℕ} {h h' h₀ : Heap} {blocks blocks' left right : List Block} {b : Block}
variable {freeList freeList' : List ℕ} {s s' : System} {endOfKernel size : UInt64} {ptr : ℕ}
variable {heapStart heapSize : UInt64}

section Sizes

/-- A size rounded up to a multiple of the alignment, without wrap-around. -/
def roundedSize (size : UInt64) : ℕ := mmAlignment * ((size.toNat + mmAlignment - 1) / mmAlignment)

theorem le_roundedSize (size : UInt64) : size.toNat ≤ roundedSize size := by
  unfold roundedSize mmAlignment
  omega

/-- The largest request whose block size is a word. -/
def maxRequest : ℕ := 2 ^ 64 - 48

theorem requiredSize_eq (size : UInt64) :
    requiredSize size = if (16 * ((size.toNat + 15) % 2 ^ 64 / 16) + 40) % 2 ^ 64 < 56 then 56
      else (16 * ((size.toNat + 15) % 2 ^ 64 / 16) + 40) % 2 ^ 64 := by
  have halign : alignUp size.toNat mmAlignment = 16 * ((size.toNat + 15) % 2 ^ 64 / 16) :=
    Word64.alignUp_eq (k := 4) size.toNat_lt (by decide)
  rw [requiredSize, halign]
  rfl

/-- Up to the largest request the block asked for holds the header and the rounded size. -/
theorem requiredSize_of_le (hsize : size ≠ 0) (hle : size.toNat ≤ maxRequest) :
    requiredSize size = roundedSize size + headerSize := by
  have hpos : size.toNat ≠ 0 := fun hz => hsize (UInt64.toNat_inj.mp (by simpa using hz))
  rw [requiredSize_eq]
  simp only [roundedSize, headerSize, mmAlignment, maxRequest] at hle ⊢
  split <;> omega

/-- Beyond it the sum wraps, and the smallest block is asked for. -/
theorem requiredSize_of_gt (hgt : maxRequest < size.toNat) : requiredSize size = minBlockSize := by
  have hlt : size.toNat < 2 ^ 64 := size.toNat_lt
  rw [requiredSize_eq]
  simp only [minBlockSize, headerSize, mmAlignment, maxRequest] at hgt ⊢
  split <;> omega

/-- The block asked for is an odd multiple of half the alignment. -/
theorem requiredSize_mod (size : UInt64) : requiredSize size % 16 = 8 := by
  rw [requiredSize_eq]
  split <;> omega

end Sizes

section Calls

/-- The failure of a request that no free block serves. -/
theorem mmAlloc_fails (hinit : h.mmInitializedFlag = true) (hsize : size ≠ 0)
    (hnone : findFirstFit h (requiredSize size) = some 0) :
    mmAlloc endOfKernel h size =
      some (0, { h with heapFailedAllocations := Word64.add h.heapFailedAllocations 1 }) := by
  rw [mmAlloc_of_initialized hinit, allocInitialized, if_neg hsize, hnone, Option.map_some,
    if_pos rfl]

/-- A call that returns a block took the first fit, and its payload holds what was asked for. -/
theorem mmAlloc_serves (R : Represents lo hi h blocks freeList) (hinit : h.mmInitializedFlag = true)
    (hcall : mmAlloc endOfKernel h size = some (ptr, h')) (hptr : ptr ≠ 0) :
    ∃ left b right, blocks = left ++ b :: right ∧ b.allocated = false ∧
      requiredSize size ≤ b.size ∧ ptr = b.address + headerSize ∧ size ≠ 0 ∧
      freeList.find? (fun a => decide (requiredSize size ≤ blockSize h a)) = some b.address ∧
      requiredSize size ≤ payloadSize h' ptr + headerSize ∧
      payloadSize h' ptr + headerSize ≤ b.size := by
  obtain ⟨ptr', h'', hspec, -, hcases⟩ := mmAlloc_spec R hinit endOfKernel size
  obtain ⟨rfl, rfl⟩ : ptr = ptr' ∧ h' = h'' := by
    rw [hcall] at hspec
    simpa using hspec
  rcases hcases with ⟨rfl, -⟩ | ⟨left, b, right, rfl, hb, hfit, rfl, hsize, hfind, R'⟩
  · exact absurd rfl hptr
  refine ⟨left, b, right, rfl, hb, hfit, rfl, hsize, ?_, ?_⟩
  · rw [findFirstFit_eq R, Option.some_inj] at hfind
    have hpos := (R.chained.address_pos (b := b) (by simp)).ne'
    cases hfirst : freeList.find? (fun a => decide (requiredSize size ≤ blockSize h a)) with
    | none => rw [hfirst] at hfind; exact absurd hfind.symm hpos
    | some a => rw [hfirst] at hfind; exact congrArg some hfind
  · obtain ⟨c, rest, hcarve, hca, -, -⟩ := carve_eq_cons b (requiredSize size)
    have hmem : c ∈ left ++ carve b (requiredSize size) ++ right := by simp [hcarve]
    have hge := R'.chained.size_ge c hmem
    have hc : requiredSize size ≤ c.size ∧ c.size ≤ b.size := by
      unfold carve at hcarve
      split at hcarve
      · obtain ⟨rfl, -⟩ := List.cons.inj hcarve
        exact ⟨hfit, le_rfl⟩
      · obtain ⟨rfl, -⟩ := List.cons.inj hcarve
        exact ⟨le_rfl, hfit⟩
    have hpayload := payloadSize_eq R' hmem
    rw [hca] at hpayload
    rw [hpayload, Block.payload]
    unfold minBlockSize at hge
    omega

/-- The free list is empty exactly when its sentinel points to itself. -/
theorem FreeRing.eq_nil_iff (F : FreeRing h freeList) :
    freeList = [] ↔ h.nextFree .sentinel = .sentinel := by
  have hring : LinkedRing.Ring h.nextFree h.prevFree .sentinel (freeList.map FreePtr.block) := F
  cases freeList with
  | nil => exact ⟨fun _ => (LinkedRing.Ring.nil_iff.mp hring).1, fun _ => rfl⟩
  | cons a L =>
      rw [hring.head.1]
      simp

/-- A request that is not above every free block finds one. -/
theorem mmAlloc_ne_zero (endOfKernel : UInt64) (R : Represents lo hi h blocks freeList)
    (hinit : h.mmInitializedFlag = true) (hsize : size ≠ 0) (hb : b ∈ blocks) (hfree : b.allocated = false)
    (hfit : requiredSize size ≤ b.size) :
    ∃ ptr h', mmAlloc endOfKernel h size = some (ptr, h') ∧ ptr ≠ 0 := by
  obtain ⟨ptr, h', hcall, -, hcases⟩ := mmAlloc_spec R hinit endOfKernel size
  refine ⟨ptr, h', hcall, ?_⟩
  rcases hcases with ⟨-, -, hwhy⟩ | ⟨_, c, _, -, -, -, rfl, -⟩
  · have hfail := hwhy.resolve_left hsize
    rcases findFirstFit_cases R (requiredSize size) with ⟨-, hsmall⟩ | ⟨_, c, _, rfl, -, -, hfind⟩
    · exact absurd hfit (not_le.mpr (hsmall b hb hfree))
    · rw [hfail, Option.some_inj] at hfind
      exact absurd hfind (R.chained.address_pos (by simp)).ne
  · unfold headerSize
    omega

end Calls

section Runs

/-- A reachable heap, its layout and its capacity. -/
theorem reachable_valid (hstart : heapStart ≠ 0)
    (hwrap : heapStart.toNat + heapSize.toNat ≤ 2 ^ 64)
    (hextent : heapSize.toNat + minBlockSize < 2 ^ 64)
    (hinit : (mmInit h₀ heapStart heapSize).mmInitializedFlag = true)
    (hrun : ReflTransGen (Step endOfKernel) ⟨mmInit h₀ heapStart heapSize, []⟩ s) :
    ∃ blocks freeList, Valid (alignedStart heapStart)
        (alignedStart heapStart + usableBytes heapStart heapSize) s blocks freeList ∧
      s.heap.heapCapacityBytes = usableBytes heapStart heapSize - headerSize := by
  obtain ⟨n, m, run⟩ := exists_countedRun hrun
  obtain ⟨blocks, freeList, V, C⟩ := run.counted (mmInit_valid hstart hwrap hextent hinit)
    (mmInit_counted hstart hwrap hinit)
  refine ⟨blocks, freeList, V, ?_⟩
  rw [C.capacity, Nat.add_sub_cancel_left]

/-- A request above the capacity fails and leaves the heap alone, and a block that is returned is
large enough, exactly when the size is not above the largest request or no block is free. -/
theorem oversized_requests_fail_iff (hstart : heapStart ≠ 0)
    (hwrap : heapStart.toNat + heapSize.toNat ≤ 2 ^ 64)
    (hextent : heapSize.toNat + minBlockSize < 2 ^ 64)
    (hinit : (mmInit h₀ heapStart heapSize).mmInitializedFlag = true)
    (hrun : ReflTransGen (Step endOfKernel) ⟨mmInit h₀ heapStart heapSize, []⟩ s) (size : UInt64) :
    ((s.heap.heapCapacityBytes < size.toNat → mmAlloc endOfKernel s.heap size =
        some (0, { s.heap with
          heapFailedAllocations := Word64.add s.heap.heapFailedAllocations 1 })) ∧
      ∀ ptr h', mmAlloc endOfKernel s.heap size = some (ptr, h') → ptr ≠ 0 →
        size.toNat ≤ payloadSize h' ptr) ↔
      size.toNat ≤ maxRequest ∨ s.heap.nextFree .sentinel = .sentinel := by
  obtain ⟨blocks, freeList, V, hcap⟩ := reachable_valid hstart hwrap hextent hinit hrun
  have R := V.represents
  have hextent' := R.chained.extent_lt
  rw [Nat.add_sub_cancel_left] at hextent'
  rw [← R.ring.eq_nil_iff]
  constructor
  · rintro ⟨hfails, -⟩
    by_contra hnot
    obtain ⟨hgt, hsome⟩ := not_or.mp hnot
    obtain ⟨a, L, rfl⟩ := List.exists_cons_of_ne_nil hsome
    obtain ⟨b, hb, -, hfree⟩ := (R.mem_freeList a).mp (by simp)
    have hfit : requiredSize size ≤ b.size := by
      rw [requiredSize_of_gt (not_le.mp hgt)]
      exact R.chained.size_ge b hb
    have hsize : size ≠ 0 := by
      rintro rfl
      exact hgt (by decide)
    obtain ⟨ptr, h', hcall, hptr⟩ := mmAlloc_ne_zero endOfKernel R V.initialized hsize hb hfree
      hfit
    have hover : s.heap.heapCapacityBytes < size.toNat := by
      unfold maxRequest minBlockSize mmAlignment headerSize at *
      omega
    rw [hfails hover] at hcall
    cases hcall
    exact hptr rfl
  · intro hwhen
    have hnone : size ≠ 0 → s.heap.heapCapacityBytes < size.toNat →
        findFirstFit s.heap (requiredSize size) = some 0 := by
      intro hsize hover
      rcases findFirstFit_cases R (requiredSize size) with ⟨hfind, -⟩ | ⟨left, b, right, rfl, hb, hfit, -⟩
      · exact hfind
      · have hmem := (R.mem_freeList b.address).mpr ⟨b, by simp, rfl, hb⟩
        rcases hwhen with hle | hnil
        · have hbound := R.chained.bounds (b := b) (by simp)
          have hround := le_roundedSize size
          rw [requiredSize_of_le hsize hle] at hfit
          unfold headerSize at hfit hcap
          omega
        · rw [hnil] at hmem
          cases hmem
    refine ⟨fun hover => ?_, fun ptr h' hcall hptr => ?_⟩
    · have hsize : size ≠ 0 := by
        rintro rfl
        cases hover
      exact mmAlloc_fails V.initialized hsize (hnone hsize hover)
    · obtain ⟨_, b, _, rfl, hb, -, -, hsize, -, hge, -⟩ := mmAlloc_serves R V.initialized hcall hptr
      rcases hwhen with hle | hnil
      · have hround := le_roundedSize size
        rw [requiredSize_of_le hsize hle] at hge
        omega
      · have hmem := (R.mem_freeList b.address).mpr ⟨b, by simp, rfl, hb⟩
        rw [hnil] at hmem
        cases hmem

/-- In a page no request above the capacity and up to the largest one is served. -/
theorem oversized_requests_fail_iff_page :
    (mmInit blankHeap 0x10008 4096).heapCapacityBytes < (5000 : UInt64).toNat ∧
      ∃ h', mmAlloc 0x101000 (mmInit blankHeap 0x10008 4096) 5000 = some (0, h') := by
  have hover : (mmInit blankHeap 0x10008 4096).heapCapacityBytes < (5000 : UInt64).toNat := by
    decide +kernel
  have hinit : (mmInit blankHeap 0x10008 4096).mmInitializedFlag = true := by decide +kernel
  have run : ReflTransGen (Step 0x101000) ⟨mmInit blankHeap 0x10008 4096, []⟩
      ⟨mmInit blankHeap 0x10008 4096, []⟩ := .refl
  have hiff := oversized_requests_fail_iff (by decide) (by decide) (by decide) hinit run 5000
  dsimp only at hiff
  have hmax : (5000 : UInt64).toNat ≤ maxRequest := by decide
  exact ⟨hover, _, (hiff.mpr (Or.inl hmax)).1 hover⟩

/-- A request for `2 ^ 64 - 1` bytes in a page gets a block with 16 of them. -/
theorem wrapped_request_served :
    ∃ ptr h', mmAlloc 0x101000 (mmInit blankHeap 0x10008 4096) 0xFFFFFFFFFFFFFFFF = some (ptr, h') ∧
      ptr ≠ 0 ∧ payloadSize h' ptr = 16 := by
  have hcalc : (mmAlloc 0x101000 (mmInit blankHeap 0x10008 4096) 0xFFFFFFFFFFFFFFFF).map (fun r =>
      decide (r.1 ≠ 0 ∧ payloadSize r.2 r.1 = 16)) = some true := by
    decide +kernel
  obtain ⟨⟨ptr, h'⟩, hcall, hvalue⟩ := Option.map_eq_some_iff.mp hcalc
  exact ⟨ptr, h', hcall, of_decide_eq_true hvalue⟩

/-- A request for at least one byte and at most the capacity is served exactly when its rounded
size is not above the largest free payload. Then the block is the first of the free list that is
large enough; otherwise only the count of failures changes. -/
theorem largest_free_block_predicts (hstart : heapStart ≠ 0)
    (hwrap : heapStart.toNat + heapSize.toNat ≤ 2 ^ 64) (hlimit : heapSize.toNat ≤ mmDefaultHeapLimit)
    (hinit : (mmInit h₀ heapStart heapSize).mmInitializedFlag = true)
    (hrun : ReflTransGen (Step endOfKernel) ⟨mmInit h₀ heapStart heapSize, []⟩ s) :
    ∃ blocks freeList stats,
      Represents (alignedStart heapStart) (alignedStart heapStart + usableBytes heapStart heapSize)
        s.heap blocks freeList ∧
      mmGetStats s.heap = some stats ∧
      ∀ size : UInt64, size ≠ 0 → size.toNat ≤ stats.totalBytes →
        ∃ ptr h', mmAlloc endOfKernel s.heap size = some (ptr, h') ∧
          (ptr ≠ 0 ↔ roundedSize size ≤ stats.largestFreeBlock) ∧
          (ptr ≠ 0 → freeList.find? (fun a =>
              decide (roundedSize size + headerSize ≤ blockSize s.heap a)) =
                some (ptr - headerSize) ∧ size.toNat ≤ payloadSize h' ptr) ∧
          (ptr = 0 → h' = { s.heap with
            heapFailedAllocations := Word64.add s.heap.heapFailedAllocations 1 }) := by
  obtain ⟨blocks, freeList, V, hcap⟩ := reachable_valid hstart hwrap (extent_of_limit hlimit) hinit hrun
  have R := V.represents
  have hextent := R.chained.extent_lt
  obtain ⟨largest, hloop, hall, hlargest⟩ := R.largestBlock
  refine ⟨blocks, freeList, _, R, by rw [mmGetStats, hloop, Option.map_some], fun size hsize hle => ?_⟩
  dsimp only at hle ⊢
  have hround := le_roundedSize size
  have hrequired : requiredSize size = roundedSize size + headerSize := by
    refine requiredSize_of_le hsize ?_
    unfold maxRequest minBlockSize mmAlignment headerSize at *
    omega
  have hpos : size.toNat ≠ 0 := fun hz => hsize (UInt64.toNat_inj.mp (by simpa using hz))
  -- the search succeeds as soon as one free block is large enough
  have hfits : roundedSize size ≤ (if headerSize ≤ largest then largest - headerSize else 0) ↔
      ∃ b ∈ blocks, b.allocated = false ∧ requiredSize size ≤ b.size := by
    rw [hrequired]
    constructor
    · intro hroom
      rcases hlargest with ⟨b, hb, hfree, rfl⟩ | ⟨-, rfl⟩
      · refine ⟨b, hb, hfree, ?_⟩
        split at hroom <;> omega
      · rw [if_neg (by decide)] at hroom
        omega
    · rintro ⟨b, hb, hfree, hfit⟩
      have := hall b hb hfree
      rw [if_pos (by omega)]
      omega
  rw [hfits]
  by_cases hsome : ∃ b ∈ blocks, b.allocated = false ∧ requiredSize size ≤ b.size
  · obtain ⟨b, hb, hfree, hfit⟩ := hsome
    obtain ⟨ptr, h', hcall, hptr⟩ := mmAlloc_ne_zero endOfKernel R V.initialized hsize hb hfree hfit
    refine ⟨ptr, h', hcall, ⟨fun _ => ⟨b, hb, hfree, hfit⟩, fun _ => hptr⟩, fun _ => ?_,
      fun hz => absurd hz hptr⟩
    obtain ⟨_, c, _, -, -, -, rfl, -, hfirst, hge, -⟩ := mmAlloc_serves R V.initialized hcall hptr
    rw [Nat.add_sub_cancel, ← hrequired]
    exact ⟨hfirst, by omega⟩
  · have hnone : findFirstFit s.heap (requiredSize size) = some 0 := by
      rcases findFirstFit_cases R (requiredSize size) with ⟨hfind, -⟩ | ⟨_, c, _, rfl, hc, hfit, -⟩
      · exact hfind
      · exact absurd ⟨c, by simp, hc, hfit⟩ hsome
    exact ⟨0, _, mmAlloc_fails V.initialized hsize hnone,
      ⟨fun hz => absurd rfl hz, fun hex => absurd hex hsome⟩, fun hz => absurd rfl hz, fun _ => rfl⟩

/-- In a fresh page, whose largest payload is 4040 bytes, 4033 bytes are refused and 4032 are not. -/
theorem largest_free_block_predicts_page :
    ∃ stats, mmGetStats (mmInit blankHeap 0x10008 4096) = some stats ∧
      (∃ ptr h', mmAlloc 0x101000 (mmInit blankHeap 0x10008 4096) 4032 = some (ptr, h') ∧ ptr ≠ 0) ∧
      ∃ h', mmAlloc 0x101000 (mmInit blankHeap 0x10008 4096) 4033 = some (0, h') := by
  have hinit : (mmInit blankHeap 0x10008 4096).mmInitializedFlag = true := by decide +kernel
  have hcalc : (mmGetStats (mmInit blankHeap 0x10008 4096)).map (fun stats =>
      decide (stats.totalBytes = 4040 ∧ stats.largestFreeBlock = 4040)) = some true := by
    decide +kernel
  obtain ⟨stats', hstats', hvalue⟩ := Option.map_eq_some_iff.mp hcalc
  obtain ⟨htotal, hlargest⟩ := of_decide_eq_true hvalue
  have run : ReflTransGen (Step 0x101000) ⟨mmInit blankHeap 0x10008 4096, []⟩
      ⟨mmInit blankHeap 0x10008 4096, []⟩ := .refl
  obtain ⟨_, _, stats, -, hstats, hall⟩ := largest_free_block_predicts (by decide) (by decide)
    (by decide) hinit run
  dsimp only at hstats hall
  obtain rfl := Option.some_inj.mp (hstats.symm.trans hstats')
  have hserved := hall 4032 (by decide) (by rw [htotal]; decide +kernel)
  have hrefused := hall 4033 (by decide) (by rw [htotal]; decide +kernel)
  obtain ⟨ptr, h', hcall, hiff, -⟩ := hserved
  obtain ⟨ptr', h'', hcall', hiff', -⟩ := hrefused
  rw [hlargest] at hiff hiff'
  obtain rfl : ptr' = 0 := not_not.mp fun hne => absurd (hiff'.mp hne) (by decide +kernel)
  exact ⟨stats, hstats, ⟨ptr, h', hcall, hiff.mpr (by decide +kernel)⟩, h'', hcall'⟩

end Runs

section Alignment

/-- The allocated blocks start and end at multiples of half the alignment. -/
def OnGrid (blocks : List Block) : Prop := ∀ b ∈ blocks, b.allocated = true → 8 ∣ b.address ∧ 8 ∣ b.size

/-- So do the free ones, since no two of them touch. -/
theorem Represents.on_grid (R : Represents lo hi h blocks freeList) (hgrid : OnGrid blocks)
    (hlo : 8 ∣ lo) (hhi : 8 ∣ hi) : ∀ b ∈ blocks, 8 ∣ b.address ∧ 8 ∣ b.size :=
  R.chained.tiles.on_grid R.separated hlo hhi hgrid

/-- One step keeps the allocated blocks on the grid. -/
theorem Valid.grid_step (V : Valid lo hi s blocks freeList) (hgrid : OnGrid blocks) (hlo : 8 ∣ lo)
    (hhi : 8 ∣ hi) (hstep : Step endOfKernel s s') :
    ∃ blocks' freeList', Valid lo hi s' blocks' freeList' ∧ OnGrid blocks' := by
  cases hstep with
  | @alloc size ptr h' hcall =>
      obtain ⟨blocks', freeList', V'⟩ := V.alloc hcall
      refine ⟨blocks', freeList', V', ?_⟩
      obtain ⟨ptr', h'', hspec, -, hcases⟩ := mmAlloc_spec V.represents V.initialized endOfKernel size
      obtain ⟨rfl, rfl⟩ : ptr = ptr' ∧ h' = h'' := by
        rw [hcall] at hspec
        simpa using hspec
      rcases hcases with ⟨-, R', -⟩ | ⟨left, b, right, rfl, hb, hfit, -, -, -, R'⟩
      · rwa [V'.represents.unique R']
      · rw [V'.represents.unique R']
        have hall := V.represents.on_grid hgrid hlo hhi
        have hbgrid := hall b (by simp)
        have hrequired := requiredSize_mod size
        intro x hx halloc
        simp only [List.mem_append] at hx
        rcases hx with (hx | hx) | hx
        · exact hall x (by simp [hx])
        · unfold carve at hx
          split at hx
          · rw [List.mem_singleton.mp hx]
            exact hbgrid
          · rcases List.mem_cons.mp hx with rfl | hx
            · exact ⟨hbgrid.1, by dsimp only; omega⟩
            · rw [List.mem_singleton.mp hx] at halloc
              cases halloc
        · exact hall x (by simp [hx])
  | free hptr =>
      obtain ⟨blocks', freeList', V', hsame⟩ := V.free hptr
      refine ⟨blocks', freeList', V', fun x hx halloc => ?_⟩
      obtain ⟨hold, -⟩ := (hsame x).mp (mem_allocatedBlocks.mpr ⟨hx, halloc⟩)
      exact hgrid x (mem_allocatedBlocks.mp hold).1 halloc
  | write hptr hw => exact ⟨blocks, freeList, V.write hptr hw, hgrid⟩

theorem Valid.grid_run (V : Valid lo hi s blocks freeList) (hgrid : OnGrid blocks) (hlo : 8 ∣ lo)
    (hhi : 8 ∣ hi) (hrun : ReflTransGen (Step endOfKernel) s s') :
    ∃ blocks' freeList', Valid lo hi s' blocks' freeList' ∧ OnGrid blocks' := by
  induction hrun with
  | refl => exact ⟨blocks, freeList, V, hgrid⟩
  | tail _ hstep ih =>
      obtain ⟨blocks', freeList', V', hgrid'⟩ := ih
      exact V'.grid_step hgrid' hlo hhi hstep

/-- The number of blocks whose size is an odd multiple of half the alignment. -/
def oddBlocks (blocks : List Block) : ℕ := blocks.countP fun b => decide (b.size % 16 = 8)

theorem sum_size_mod (hgrid : ∀ b ∈ blocks, 8 ∣ b.size) :
    (blocks.map Block.size).sum % 16 = 8 * (oddBlocks blocks % 2) := by
  induction blocks with
  | nil => rfl
  | cons b blocks ih =>
      have hrest := ih fun c hc => hgrid c (List.mem_cons_of_mem _ hc)
      have hb := hgrid b (by simp)
      rw [oddBlocks] at hrest ⊢
      rw [List.map_cons, List.sum_cons, List.countP_cons]
      simp only [decide_eq_true_eq]
      split <;> omega

/-- Where a block starts depends on how many odd blocks precede it. -/
theorem Represents.address_mod (R : Represents lo hi h (left ++ b :: right) freeList)
    (hgrid : OnGrid (left ++ b :: right)) (hlo : 16 ∣ lo) (hhi : 16 ∣ hi) :
    b.address % 16 = 8 * (oddBlocks left % 2) := by
  have hall := R.on_grid hgrid (dvd_trans (by decide) hlo) (dvd_trans (by decide) hhi)
  have hsum := (Tiling.tiles_split.mp R.chained.tiles).1.sum_len
  have hmod : (left.map Block.size).sum % 16 = 8 * (oddBlocks left % 2) :=
    sum_size_mod fun c hc => (hall c (by simp [hc])).2
  omega

theorem alignedStart_dvd (heapStart : UInt64) : 16 ∣ alignedStart heapStart := by
  have halign : alignedStart heapStart = 16 * ((heapStart.toNat + 16 - 1) % 2 ^ 64 / 16) :=
    Word64.alignUp_eq (k := 4) heapStart.toNat_lt (by decide)
  exact ⟨_, halign⟩

theorem usableBytes_dvd (heapStart heapSize : UInt64) : 16 ∣ usableBytes heapStart heapSize := by
  have hmask : Word64.sub mmAlignment 1 = 2 ^ 4 - 1 := by decide
  have hlt : Word64.sub heapSize.toNat (Word64.sub (alignedStart heapStart) heapStart.toNat) <
      2 ^ 64 := Nat.mod_lt _ (by decide)
  rw [usableBytes, hmask, Word64.and_compl_mask hlt (by decide)]
  exact ⟨_, rfl⟩

/-- A pointer is aligned exactly when the block that serves the request is preceded by an odd
number of blocks whose size is an odd multiple of 8. While nothing is allocated none precedes it,
so the first pointer of every run is not aligned. -/
theorem pointer_aligned_iff (hstart : heapStart ≠ 0)
    (hwrap : heapStart.toNat + heapSize.toNat ≤ 2 ^ 64)
    (hextent : heapSize.toNat + minBlockSize < 2 ^ 64)
    (hinit : (mmInit h₀ heapStart heapSize).mmInitializedFlag = true)
    (hrun : ReflTransGen (Step endOfKernel) ⟨mmInit h₀ heapStart heapSize, []⟩ s) :
    ∃ blocks freeList,
      Represents (alignedStart heapStart) (alignedStart heapStart + usableBytes heapStart heapSize)
        s.heap blocks freeList ∧
      (∀ size : UInt64,
        (∀ ptr h', mmAlloc endOfKernel s.heap size = some (ptr, h') → ptr ≠ 0 → mmAlignment ∣ ptr) ↔
          (size = 0 ∨ ∀ left b right, blocks = left ++ b :: right →
            freeList.find? (fun a => decide (requiredSize size ≤ blockSize s.heap a)) =
              some b.address → Odd (oddBlocks left))) ∧
      (s.live = [] → ∀ size ptr h', mmAlloc endOfKernel s.heap size = some (ptr, h') → ptr ≠ 0 →
        ptr % mmAlignment = 8) := by
  have hlo := alignedStart_dvd heapStart
  have hhi := Nat.dvd_add hlo (usableBytes_dvd heapStart heapSize)
  have hfirst : OnGrid [⟨alignedStart heapStart, usableBytes heapStart heapSize, false⟩] := by
    intro b hb halloc
    rw [List.mem_singleton.mp hb] at halloc
    cases halloc
  have V₀ := mmInit_valid hstart hwrap hextent hinit
  obtain ⟨blocks, freeList, V, hgrid⟩ := V₀.grid_run hfirst (dvd_trans (by decide) hlo)
    (dvd_trans (by decide) hhi) hrun
  have R := V.represents
  have hhdr : headerSize = 40 := rfl
  have halign : mmAlignment = 16 := rfl
  refine ⟨blocks, freeList, R, fun size => ?_, fun hlive size ptr h' hcall hptr => ?_⟩
  · constructor
    · intro haligned
      by_cases hsize : size = 0
      · exact Or.inl hsize
      refine Or.inr fun left b right hblocks hfind => ?_
      subst hblocks
      obtain ⟨ptr, h', hcall, hptr⟩ : ∃ ptr h', mmAlloc endOfKernel s.heap size = some (ptr, h') ∧
          ptr ≠ 0 := by
        have hfit := List.find?_some hfind
        rw [R.chained.blockSize_eq (by simp), decide_eq_true_eq] at hfit
        obtain ⟨c, hc, haddr, hfree⟩ := (R.mem_freeList _).mp (List.mem_of_find?_eq_some hfind)
        rw [← R.chained.address_injective hc (by simp) haddr] at hfit
        exact mmAlloc_ne_zero endOfKernel R V.initialized hsize hc hfree hfit
      have hdvd := haligned ptr h' hcall hptr
      obtain ⟨_, c, _, -, -, -, rfl, -, hfind', -⟩ := mmAlloc_serves R V.initialized hcall hptr
      rw [hfind, Option.some_inj] at hfind'
      have hmod := R.address_mod hgrid hlo hhi
      rw [← hfind', hhdr, halign] at hdvd
      rw [Nat.odd_iff]
      omega
    · intro hwhen ptr h' hcall hptr
      obtain ⟨left, b, right, rfl, -, -, rfl, hsize, hfind, -⟩ := mmAlloc_serves R V.initialized hcall
        hptr
      have hodd := Nat.odd_iff.mp (hwhen.resolve_left hsize left b right rfl hfind)
      have hmod := R.address_mod hgrid hlo hhi
      rw [hhdr, halign]
      omega
  · obtain ⟨left, b, right, rfl, -, -, rfl, -, -, -⟩ := mmAlloc_serves R V.initialized hcall hptr
    have hnone : ∀ x, x ∉ allocatedBlocks (left ++ b :: right) := by
      intro x hx
      have hm := (V.mem_live _).mpr ⟨x, hx, rfl⟩
      rw [hlive] at hm
      cases hm
    have hnil : allocatedBlocks (left ++ b :: right) = [] := List.eq_nil_iff_forall_not_mem.mpr hnone
    have hblocks := R.eq_of_allocated V₀.represents fun x => by
      rw [hnil]
      rfl
    obtain rfl : left = [] := by
      cases left with
      | nil => rfl
      | cons y left => simp at hblocks
    have hmod := R.address_mod hgrid hlo hhi
    have hzero : oddBlocks [] = 0 := rfl
    rw [hhdr, halign]
    omega

/-- The first pointer handed out in a page misses the alignment by half of it. -/
theorem pointer_aligned_iff_page :
    ∃ ptr h', mmAlloc 0x101000 (mmInit blankHeap 0x10008 4096) 100 = some (ptr, h') ∧ ptr ≠ 0 ∧
      ptr % mmAlignment = 8 := by
  have hinit : (mmInit blankHeap 0x10008 4096).mmInitializedFlag = true := by decide +kernel
  have hcalc : (mmAlloc 0x101000 (mmInit blankHeap 0x10008 4096) 100).map (fun r =>
      decide (r.1 ≠ 0)) = some true := by
    decide +kernel
  obtain ⟨⟨ptr, h'⟩, hcall, hvalue⟩ := Option.map_eq_some_iff.mp hcalc
  have hptr : ptr ≠ 0 := of_decide_eq_true hvalue
  have run : ReflTransGen (Step 0x101000) ⟨mmInit blankHeap 0x10008 4096, []⟩
      ⟨mmInit blankHeap 0x10008 4096, []⟩ := .refl
  obtain ⟨_, _, -, -, hfirst⟩ := pointer_aligned_iff (by decide) (by decide) (by decide) hinit run
  dsimp only at hfirst
  exact ⟨ptr, h', hcall, hptr, hfirst rfl 100 ptr h' hcall hptr⟩

/-- The first pointer handed out in a page is `0x10038`. -/
theorem first_pointer_not_aligned :
    ∃ h', mmAlloc 0x101000 (mmInit blankHeap 0x10008 4096) 100 = some (0x10038, h') ∧
      ¬mmAlignment ∣ 0x10038 := by
  have hcalc : (mmAlloc 0x101000 (mmInit blankHeap 0x10008 4096) 100).map (fun r =>
      decide (r.1 = 0x10038)) = some true := by
    decide +kernel
  obtain ⟨⟨ptr, h'⟩, hcall, hvalue⟩ := Option.map_eq_some_iff.mp hcalc
  obtain rfl : ptr = 0x10038 := of_decide_eq_true hvalue
  exact ⟨h', hcall, by decide⟩

end Alignment
end SoKernel.Mm.Simple
