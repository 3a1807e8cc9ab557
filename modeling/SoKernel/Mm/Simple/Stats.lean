import SoKernel.Mm.Simple.Canonical

/-!
# The statistics of the simple memory manager

Embedding of `mm_get_stats`. The counters are updated by each call on its own; over a run they
agree with the layout of the heap, and the branches that would clamp them are never taken.
-/

namespace SoKernel.Mm.Simple

open Function (update)
open Relation (ReflTransGen)

variable {lo hi : ℕ} {h h' : Heap} {blocks blocks' left right : List Block} {b : Block}
variable {freeList freeList' : List ℕ} {s s' : System} {endOfKernel size : UInt64} {ptr n m : ℕ}

/-- `mm_stats_t`. -/
structure MmStats where
  totalBytes : ℕ
  usedBytes : ℕ
  freeBytes : ℕ
  largestFreeBlock : ℕ
  allocations : ℕ
  frees : ℕ
  failedAllocations : ℕ
  deriving DecidableEq

/-- The loop of `mm_get_stats` over the free list; `none` when it does not end. -/
def largestBlock (h : Heap) : Option ℕ :=
  LinkedRing.walkFold h.nextFree .sentinel
    (fun largest current =>
      if largest < blockSize h current.address then blockSize h current.address else largest)
    addressCount (h.nextFree .sentinel) 0

def mmGetStats (h : Heap) : Option MmStats :=
  (largestBlock h).map fun largest =>
    { totalBytes := h.heapCapacityBytes
      usedBytes := h.heapUsedBytes
      freeBytes := if h.heapUsedBytes < h.heapCapacityBytes then
          h.heapCapacityBytes - h.heapUsedBytes else 0
      largestFreeBlock := if headerSize ≤ largest then largest - headerSize else 0
      allocations := h.heapAllocationCount
      frees := h.heapFreeCount
      failedAllocations := h.heapFailedAllocations }

/-- The payload of a block. -/
def Block.payload (b : Block) : ℕ := b.size - headerSize

section Counters

/-- The counters that the calls update. -/
structure Counters where
  capacity : ℕ
  used : ℕ
  allocations : ℕ
  frees : ℕ

def counters (h : Heap) : Counters :=
  ⟨h.heapCapacityBytes, h.heapUsedBytes, h.heapAllocationCount, h.heapFreeCount⟩

theorem blockMarkAllocated_counters (h : Heap) (a : ℕ) :
    counters (blockMarkAllocated h a) = counters h := rfl

theorem freeListRemove_counters (h : Heap) (a : ℕ) : counters (freeListRemove h a) = counters h := rfl

theorem splitBlockIfPossible_counters (h : Heap) (a required : ℕ) :
    counters (splitBlockIfPossible h a required) = counters h := by
  unfold splitBlockIfPossible
  dsimp only
  split
  · rfl
  · split <;> rfl

theorem absorbNext_counters (h : Heap) (a a' : ℕ) : counters (absorbNext h a a') = counters h := by
  unfold absorbNext
  dsimp only
  split <;> rfl

theorem coalesceWithNeighbors_counters (h : Heap) (a : ℕ) :
    counters (coalesceWithNeighbors h a).2 = counters h := by
  have hright : ∀ (h : Heap) (a next : ℕ), counters (coalesceRight h a next) = counters h := by
    intro h a next
    unfold coalesceRight
    split
    · rw [absorbNext_counters, freeListRemove_counters]
    · rfl
  have hleft : ∀ (h : Heap) (a prev : ℕ), counters (coalesceLeft h a prev).2 = counters h := by
    intro h a prev
    unfold coalesceLeft
    split
    · dsimp only
      rw [absorbNext_counters, freeListRemove_counters]
    · rfl
  exact (hright _ _ _).trans (hleft _ _ _)

theorem countAllocation_counters (hsame : counters h' = counters h) (payload : ℕ) :
    counters (countAllocation h' payload) = counters (countAllocation h payload) := by
  simp only [counters, Counters.mk.injEq] at hsame
  obtain ⟨hcap, hused, halloc, hfree⟩ := hsame
  simp only [counters, countAllocation, hcap, hused, halloc, hfree]

theorem blockSize_countAllocation (h : Heap) (payload a : ℕ) :
    blockSize (countAllocation h payload) a = blockSize h a := rfl

/-- The block that an allocation takes, split and marked. -/
def takeBlock (h : Heap) (a required : ℕ) : Heap :=
  blockMarkAllocated (splitBlockIfPossible (freeListRemove h a) a required) a

theorem allocateBlock_snd (h : Heap) (a required : ℕ) :
    (allocateBlock h a required).2 = countAllocation (takeBlock h a required)
      (Word64.sub (blockSize (takeBlock h a required) a) headerSize) := rfl

theorem allocateBlock_counters (h : Heap) (a required : ℕ) :
    counters (allocateBlock h a required).2 =
      counters (countAllocation h
        (Word64.sub (blockSize (allocateBlock h a required).2 a) headerSize)) := by
  rw [allocateBlock_snd, blockSize_countAllocation]
  apply countAllocation_counters
  rw [takeBlock, blockMarkAllocated_counters, splitBlockIfPossible_counters, freeListRemove_counters]

/-- The block that an allocation hands out, and what it does to the counters. -/
theorem mmAlloc_counters (R : Represents lo hi h blocks freeList) (hinit : h.mmInitializedFlag = true)
    (hcall : mmAlloc endOfKernel h size = some (ptr, h')) :
    (ptr = 0 ∧ Represents lo hi h' blocks freeList ∧ counters h' = counters h) ∨
    ∃ c blocks' freeList', Represents lo hi h' blocks' freeList' ∧ c.allocated = true ∧
      c ∈ blocks' ∧ ptr = c.address + headerSize ∧ ptr ≠ 0 ∧
      (allocatedBlocks blocks').Perm (c :: allocatedBlocks blocks) ∧
      counters h' = counters (countAllocation h c.payload) := by
  obtain ⟨ptr', h'', hspec, -, hcases⟩ := mmAlloc_spec R hinit endOfKernel size
  obtain ⟨rfl, rfl⟩ : ptr = ptr' ∧ h' = h'' := by
    rw [hcall] at hspec
    simpa using hspec
  rw [mmAlloc_of_initialized hinit, allocInitialized] at hcall
  rcases hcases with ⟨rfl, R', hwhy⟩ | ⟨left, b, right, rfl, hb, hfit, rfl, hsize, hfind, R'⟩
  · refine Or.inl ⟨rfl, R', ?_⟩
    by_cases hzero : size = 0
    · rw [if_pos hzero] at hcall
      cases hcall
      rfl
    · rw [if_neg hzero, hwhy.resolve_left hzero, Option.map_some, if_pos rfl] at hcall
      cases hcall
      rfl
  · right
    have hnz : b.address ≠ 0 := (R.chained.address_pos (by simp)).ne'
    rw [if_neg hsize, hfind, Option.map_some, if_neg hnz, Option.some_inj] at hcall
    obtain rfl : (allocateBlock h b.address (requiredSize size)).2 = h' := by rw [hcall]
    obtain ⟨c, rest, hcarve, hca, hc, hrest⟩ := carve_eq_cons b (requiredSize size)
    have hmem : c ∈ left ++ carve b (requiredSize size) ++ right := by simp [hcarve]
    have hge := R'.chained.size_ge c hmem
    have hlt := R'.chained.size_lt hmem
    have hpayload : Word64.sub (blockSize (allocateBlock h b.address (requiredSize size)).2 b.address)
        headerSize = c.payload := by
      have hblock := R'.chained.blockSize_eq hmem
      rw [hca] at hblock
      rw [hblock]
      unfold minBlockSize at hge
      exact Word64.sub_eq (by omega) (by omega)
    refine ⟨c, _, _, R', hc, hmem, by rw [hca], ?_, ?_, ?_⟩
    · unfold headerSize
      omega
    · simp only [allocatedBlocks, hcarve, List.filter_append, List.filter_cons, hb, hc] at hrest ⊢
      rw [hrest]
      simp
    · rw [allocateBlock_counters, hpayload]

/-- The block that a free takes back, and what it does to the counters. -/
theorem mmFree_counters (R : Represents lo hi h (left ++ b :: right) freeList)
    (hb : b.allocated = true) (hinit : h.mmInitializedFlag = true) :
    counters (mmFree h (b.address + headerSize)) = counters (countFree h b.payload) := by
  have hmem : b ∈ left ++ b :: right := by simp
  have hbound := R.chained.bounds hmem
  have hge := R.chained.size_ge b hmem
  have hlt := R.chained.size_lt hmem
  have hhigh := R.chained.high_le
  have hmin : minBlockSize = 56 := rfl
  have hhdr : headerSize = 40 := rfl
  have hblock : Word64.sub (b.address + headerSize) headerSize = b.address := by
    rw [Word64.sub_eq (by omega) (by omega), Nat.add_sub_cancel]
  have hsize : blockSize (blockMarkFree h b.address) b.address = b.size := by
    have hchained := (R.release hb 0).chained
    have hfreed := hchained.blockSize_eq (b := { b with allocated := false }) (by simp)
    exact hfreed
  have hpayload : Word64.sub (blockSize (blockMarkFree h b.address) b.address) headerSize = b.payload := by
    rw [hsize, Word64.sub_eq (by omega) (by omega)]
    rfl
  have halloc := R.chained.blockIsAllocated_eq hmem
  unfold mmFree
  rw [if_neg (by simp [hinit, hhdr]), hblock]
  simp only [halloc, hb, hpayload, Bool.true_eq_false, if_false]
  exact (coalesceWithNeighbors_counters _ _).trans rfl

end Counters

section Layouts

/-- A heap has one layout. -/
theorem Represents.unique (R : Represents lo hi h blocks freeList)
    (R' : Represents lo hi h blocks' freeList') : blocks = blocks' := by
  refine R.chained.tiles.unique R'.chained.tiles (fun _ hb => R.chained.size_pos hb)
    (fun _ hb => R'.chained.size_pos hb) fun b hb c hc he => ?_
  have hsize : b.size = c.size := by
    rw [← R.chained.blockSize_eq hb, ← R'.chained.blockSize_eq hc, he]
  have hflag : b.allocated = c.allocated := by
    rw [← R.chained.blockIsAllocated_eq hb, ← R'.chained.blockIsAllocated_eq hc, he]
  cases b
  cases c
  simp only [Block.mk.injEq] at he hsize hflag ⊢
  exact ⟨he, hsize, hflag⟩

/-- The payloads of allocated blocks, together. -/
def usedPayload (blocks : List Block) : ℕ := ((allocatedBlocks blocks).map Block.payload).sum

theorem usedPayload_perm (hperm : (allocatedBlocks blocks').Perm (b :: allocatedBlocks blocks)) :
    usedPayload blocks' = b.payload + usedPayload blocks := by
  rw [usedPayload, (hperm.map Block.payload).sum_eq, List.map_cons, List.sum_cons]
  rfl

/-- Each block needs its header, so the payloads fit into the capacity. -/
theorem Represents.usedPayload_le (R : Represents lo hi h blocks freeList) :
    usedPayload blocks ≤ hi - lo - headerSize := by
  have htotal := R.chained.tiles.sum_len
  have hsub : (allocatedBlocks blocks).map Block.size |>.Sublist (blocks.map Block.size) :=
    (List.filter_sublist (l := blocks)).map Block.size
  have hle := hsub.sum_le_sum (fun _ _ => Nat.zero_le _)
  unfold usedPayload
  cases hallocated : allocatedBlocks blocks with
  | nil => simp
  | cons c rest =>
      have hpay : ∀ L : List Block, (L.map Block.payload).sum ≤ (L.map Block.size).sum := fun L =>
        List.sum_le_sum fun b _ => Nat.sub_le _ _
      have hrest := hpay rest
      have hc : c ∈ allocatedBlocks blocks := by simp [hallocated]
      have hge := R.chained.size_ge c (mem_allocatedBlocks.mp hc).1
      rw [hallocated, List.map_cons, List.sum_cons] at hle
      rw [List.map_cons, List.sum_cons, Block.payload]
      unfold minBlockSize at hge
      omega

/-- The loop that keeps the largest value. -/
theorem foldl_largest {α : Type*} (f : α → ℕ) (L : List α) (a : ℕ) :
    a ≤ L.foldl (fun largest x => if largest < f x then f x else largest) a ∧
      (∀ x ∈ L, f x ≤ L.foldl (fun largest x => if largest < f x then f x else largest) a) ∧
      (L.foldl (fun largest x => if largest < f x then f x else largest) a = a ∨
        ∃ x ∈ L, L.foldl (fun largest x => if largest < f x then f x else largest) a = f x) := by
  induction L generalizing a with
  | nil => exact ⟨le_rfl, by simp, Or.inl rfl⟩
  | cons y L ih =>
      obtain ⟨hle, hall, hvalue⟩ := ih (if a < f y then f y else a)
      have hboth : a ≤ (if a < f y then f y else a) ∧ f y ≤ (if a < f y then f y else a) := by
        split <;> omega
      rw [List.foldl_cons]
      refine ⟨hboth.1.trans hle, fun x hx => ?_, ?_⟩
      · rcases List.mem_cons.mp hx with rfl | hx
        · exact hboth.2.trans hle
        · exact hall x hx
      · rcases hvalue with he | ⟨x, hx, he⟩
        · rw [he]
          split
          · exact Or.inr ⟨y, by simp, rfl⟩
          · exact Or.inl rfl
        · exact Or.inr ⟨x, List.mem_cons_of_mem _ hx, he⟩

/-- The value of the loop of `mm_get_stats`: the largest free block, `0` if there is none. -/
theorem Represents.largestBlock (R : Represents lo hi h blocks freeList) :
    ∃ largest, largestBlock h = some largest ∧
      (∀ b ∈ blocks, b.allocated = false → b.size ≤ largest) ∧
      ((∃ b ∈ blocks, b.allocated = false ∧ largest = b.size) ∨
        (∀ b ∈ blocks, b.allocated = true) ∧ largest = 0) := by
  have hring : LinkedRing.Ring h.nextFree h.prevFree .sentinel (freeList.map FreePtr.block) := R.ring
  have hlen : (freeList.map FreePtr.block).length < addressCount := by
    rw [List.length_map]
    exact R.freeList_length_lt
  obtain ⟨-, hall, hvalue⟩ := foldl_largest (fun x => blockSize h x.address)
    (freeList.map FreePtr.block) 0
  refine ⟨_, hring.walkFold hlen, fun b hb hfree => ?_, ?_⟩
  · have hmem := (R.mem_freeList b.address).mpr ⟨b, hb, rfl, hfree⟩
    have hle := hall (.block b.address) (List.mem_map_of_mem hmem)
    rwa [FreePtr.address, R.chained.blockSize_eq hb] at hle
  · rcases hvalue with he | ⟨x, hx, he⟩
    · by_cases hsome : ∃ b ∈ blocks, b.allocated = false
      · obtain ⟨b, hb, hfree⟩ := hsome
        have hmem := (R.mem_freeList b.address).mpr ⟨b, hb, rfl, hfree⟩
        have hle := hall (.block b.address) (List.mem_map_of_mem hmem)
        rw [he, FreePtr.address, R.chained.blockSize_eq hb] at hle
        exact absurd hle (not_le.mpr (R.chained.size_pos hb))
      · refine Or.inr ⟨fun b hb => ?_, he⟩
        rw [← Bool.not_eq_false]
        exact fun hfree => hsome ⟨b, hb, hfree⟩
    · obtain ⟨a, ha, rfl⟩ := List.mem_map.mp hx
      obtain ⟨b, hb, rfl, hfree⟩ := (R.mem_freeList a).mp ha
      rw [FreePtr.address, R.chained.blockSize_eq hb] at he
      exact Or.inl ⟨b, hb, hfree, he⟩

end Layouts

section Runs

/-- A run with the number of allocations that returned a block and the number of frees. -/
inductive CountedRun (endOfKernel : UInt64) (start : System) : ℕ → ℕ → System → Prop
  | nil : CountedRun endOfKernel start 0 0 start
  | alloc {n m : ℕ} {s : System} {size : UInt64} {ptr : ℕ} {h' : Heap}
      (run : CountedRun endOfKernel start n m s)
      (call : mmAlloc endOfKernel s.heap size = some (ptr, h')) :
      CountedRun endOfKernel start (if ptr = 0 then n else n + 1) m
        ⟨h', if ptr = 0 then s.live else ptr :: s.live⟩
  | free {n m : ℕ} {s : System} {ptr : ℕ} (run : CountedRun endOfKernel start n m s)
      (live : ptr ∈ s.live) :
      CountedRun endOfKernel start n (m + 1) ⟨mmFree s.heap ptr, s.live.erase ptr⟩
  | write {n m : ℕ} {s : System} {ptr : ℕ} {h' : Heap} (run : CountedRun endOfKernel start n m s)
      (live : ptr ∈ s.live)
      (write : ClientWrite s.heap ptr h') : CountedRun endOfKernel start n m ⟨h', s.live⟩

/-- Every run can be counted. -/
theorem exists_countedRun {start : System} (run : ReflTransGen (Step endOfKernel) start s) :
    ∃ n m, CountedRun endOfKernel start n m s := by
  induction run with
  | refl => exact ⟨0, 0, .nil⟩
  | tail _ step ih =>
      obtain ⟨n, m, run⟩ := ih
      cases step with
      | alloc call => exact ⟨_, _, run.alloc call⟩
      | free live => exact ⟨_, _, run.free live⟩
      | write live hw => exact ⟨_, _, run.write live hw⟩

/-- The counters agree with a layout. -/
structure Counted (lo hi : ℕ) (h : Heap) (blocks : List Block) (n m : ℕ) : Prop where
  capacity : h.heapCapacityBytes = hi - lo - headerSize
  used : h.heapUsedBytes = usedPayload blocks
  allocations : h.heapAllocationCount = n % 2 ^ 64
  frees : h.heapFreeCount = m % 2 ^ 64
  balance : n = m + (allocatedBlocks blocks).length

theorem Counted.congr (C : Counted lo hi h blocks n m) (hsame : counters h' = counters h) :
    Counted lo hi h' blocks n m := by
  simp only [counters, Counters.mk.injEq] at hsame
  obtain ⟨hcap, hused, halloc, hfree⟩ := hsame
  exact ⟨hcap.trans C.capacity, hused.trans C.used, halloc.trans C.allocations,
    hfree.trans C.frees, C.balance⟩

/-- One more allocated block that still fits. -/
theorem Counted.alloc (C : Counted lo hi h blocks n m)
    (hperm : (allocatedBlocks blocks').Perm (b :: allocatedBlocks blocks))
    (hfits : usedPayload blocks' ≤ hi - lo - headerSize) (hhi : hi ≤ 2 ^ 64) (hlo : 0 < lo)
    (hsame : counters h' = counters (countAllocation h b.payload)) :
    Counted lo hi h' blocks' (n + 1) m ∧
      Word64.add h.heapUsedBytes b.payload ≤ h.heapCapacityBytes := by
  have hsum := usedPayload_perm hperm
  have hadd : Word64.add h.heapUsedBytes b.payload = usedPayload blocks' := by
    rw [C.used, Word64.add_eq (by omega), hsum, add_comm]
  have hle : Word64.add h.heapUsedBytes b.payload ≤ h.heapCapacityBytes := by
    rw [hadd, C.capacity]
    exact hfits
  have hlen := hperm.length_eq
  have hbalance := C.balance
  rw [List.length_cons] at hlen
  refine ⟨Counted.congr (h := countAllocation h b.payload)
    ⟨C.capacity, ?_, ?_, C.frees, by omega⟩ hsame, hle⟩
  · rw [← hadd]
    exact if_neg (not_lt.mpr hle)
  · have hcount : (countAllocation h b.payload).heapAllocationCount =
        (h.heapAllocationCount + 1) % 2 ^ 64 := rfl
    rw [hcount, C.allocations]
    omega

/-- One allocated block less. -/
theorem Counted.free (C : Counted lo hi h blocks n m)
    (hperm : (allocatedBlocks blocks).Perm (b :: allocatedBlocks blocks'))
    (hsame : counters h' = counters (countFree h b.payload)) :
    Counted lo hi h' blocks' n (m + 1) ∧ b.payload ≤ h.heapUsedBytes := by
  have hsum := usedPayload_perm hperm
  have hle : b.payload ≤ h.heapUsedBytes := by
    rw [C.used, hsum]
    omega
  have hlen := hperm.length_eq
  have hbalance := C.balance
  rw [List.length_cons] at hlen
  refine ⟨Counted.congr (h := countFree h b.payload)
    ⟨C.capacity, ?_, C.allocations, ?_, by omega⟩ hsame, hle⟩
  · have hused : (countFree h b.payload).heapUsedBytes = h.heapUsedBytes - b.payload := if_pos hle
    rw [hused, C.used]
    omega
  · have hcount : (countFree h b.payload).heapFreeCount = (h.heapFreeCount + 1) % 2 ^ 64 := rfl
    rw [hcount, C.frees]
    omega

theorem payloadSize_eq (R : Represents lo hi h blocks freeList) (hb : b ∈ blocks) :
    payloadSize h (b.address + headerSize) = b.payload := by
  rw [payloadSize, Nat.add_sub_cancel, R.chained.blockSize_eq hb]
  rfl

/-- An allocation that returns a block counts it without clamping. -/
theorem Valid.counted_alloc (V : Valid lo hi s blocks freeList) (C : Counted lo hi s.heap blocks n m)
    (hcall : mmAlloc endOfKernel s.heap size = some (ptr, h')) :
    (∃ blocks' freeList', Valid lo hi ⟨h', if ptr = 0 then s.live else ptr :: s.live⟩ blocks' freeList' ∧
      Counted lo hi h' blocks' (if ptr = 0 then n else n + 1) m) ∧
      (ptr ≠ 0 → Word64.add s.heap.heapUsedBytes (payloadSize h' ptr) ≤ s.heap.heapCapacityBytes) := by
  obtain ⟨blocks', freeList', V'⟩ := V.alloc hcall
  rcases mmAlloc_counters V.represents V.initialized hcall with
    ⟨rfl, R', hsame⟩ | ⟨c, blocks'', freeList'', R', hc, hmem, rfl, hne, hperm, hsame⟩
  · obtain rfl : blocks' = blocks := V'.represents.unique R'
    exact ⟨⟨blocks', freeList', V', C.congr hsame⟩, fun h => absurd rfl h⟩
  · obtain rfl : blocks' = blocks'' := V'.represents.unique R'
    obtain ⟨C', hle⟩ := C.alloc hperm V'.represents.usedPayload_le V'.represents.chained.high_le
      V'.represents.chained.low_pos hsame
    refine ⟨⟨blocks', freeList', V', ?_⟩, fun _ => ?_⟩
    · rw [if_neg hne]
      exact C'
    · rw [payloadSize_eq R' hmem]
      exact hle

/-- A free takes back a block that was counted. -/
theorem Valid.counted_free (V : Valid lo hi s blocks freeList) (C : Counted lo hi s.heap blocks n m)
    (hptr : ptr ∈ s.live) :
    (∃ blocks' freeList', Valid lo hi ⟨mmFree s.heap ptr, s.live.erase ptr⟩ blocks' freeList' ∧
      Counted lo hi (mmFree s.heap ptr) blocks' n (m + 1)) ∧
      payloadSize s.heap ptr ≤ s.heap.heapUsedBytes := by
  obtain ⟨blocks', freeList', V', -⟩ := V.free hptr
  obtain ⟨left, b, right, rfl, hb, rfl⟩ := V.live_block hptr
  obtain ⟨-, blocks'', freeList'', R', hsame⟩ := mmFree_spec V.represents hb V.initialized
  obtain rfl : blocks' = blocks'' := V'.represents.unique R'
  have hperm : (allocatedBlocks (left ++ b :: right)).Perm (b :: allocatedBlocks blocks') := by
    rw [hsame]
    simp only [allocatedBlocks, List.filter_append, List.filter_cons, hb, if_true]
    exact List.perm_middle
  obtain ⟨C', hle⟩ := C.free hperm (mmFree_counters V.represents hb V.initialized)
  refine ⟨⟨blocks', freeList', V', C'⟩, ?_⟩
  rw [payloadSize_eq V.represents (by simp)]
  exact hle

theorem CountedRun.counted {start : System} (V : Valid lo hi start blocks freeList)
    (C : Counted lo hi start.heap blocks 0 0) (run : CountedRun endOfKernel start n m s) :
    ∃ blocks' freeList', Valid lo hi s blocks' freeList' ∧ Counted lo hi s.heap blocks' n m := by
  induction run with
  | nil => exact ⟨blocks, freeList, V, C⟩
  | alloc _ call ih =>
      obtain ⟨blocks', freeList', V', C'⟩ := ih
      exact (V'.counted_alloc C' call).1
  | free _ live ih =>
      obtain ⟨blocks', freeList', V', C'⟩ := ih
      exact (V'.counted_free C' live).1
  | write _ live hw ih =>
      obtain ⟨blocks', freeList', V', C'⟩ := ih
      refine ⟨blocks', freeList', V'.write live hw, C'.congr ?_⟩
      rw [counters, hw.heapCapacityBytes, hw.heapUsedBytes, hw.heapAllocationCount, hw.heapFreeCount]
      rfl

variable {h₀ : Heap} {heapStart heapSize : UInt64}

/-- The counters after a successful `mm_init`. -/
theorem mmInit_counted (hstart : heapStart ≠ 0) (hwrap : heapStart.toNat + heapSize.toNat ≤ 2 ^ 64)
    (hinit : (mmInit h₀ heapStart heapSize).mmInitializedFlag = true) :
    Counted (alignedStart heapStart) (alignedStart heapStart + usableBytes heapStart heapSize)
      (mmInit h₀ heapStart heapSize)
      [⟨alignedStart heapStart, usableBytes heapStart heapSize, false⟩] 0 0 := by
  obtain ⟨hsize, husable, heq⟩ := mmInit_checks hinit
  obtain ⟨hle, -, hpos⟩ := alignedStart_spec hstart hwrap hsize
  obtain ⟨-, hhi, -⟩ := usableBytes_spec hstart hwrap hsize
  unfold minBlockSize at husable
  rw [heq]
  refine ⟨?_, rfl, rfl, rfl, rfl⟩
  have hcap : (setUp h₀ (alignedStart heapStart) (usableBytes heapStart heapSize)).heapCapacityBytes =
      Word64.sub (usableBytes heapStart heapSize) headerSize := rfl
  rw [hcap, Word64.sub_eq (by omega) (by omega)]
  omega

/-- After any run the statistics are those of the layout; the counts are words, so the number
of allocations is reported modulo `2 ^ 64`. No call clamps a counter. -/
theorem stats_exact {s : System} (hstart : heapStart ≠ 0)
    (hwrap : heapStart.toNat + heapSize.toNat ≤ 2 ^ 64) (hlimit : heapSize.toNat ≤ mmDefaultHeapLimit)
    (hinit : (mmInit h₀ heapStart heapSize).mmInitializedFlag = true)
    (run : CountedRun endOfKernel ⟨mmInit h₀ heapStart heapSize, []⟩ n m s) :
    ∃ blocks stats, HasLayout heapStart heapSize s.heap blocks ∧ mmGetStats s.heap = some stats ∧
      stats.usedBytes = ((allocatedBlocks blocks).map Block.payload).sum ∧
      stats.usedBytes + stats.freeBytes = stats.totalBytes ∧
      stats.allocations = n % 2 ^ 64 ∧
      Word64.sub stats.allocations stats.frees = (allocatedBlocks blocks).length ∧
      (∀ b ∈ blocks, b.allocated = false → b.payload ≤ stats.largestFreeBlock) ∧
      ((∃ b ∈ blocks, b.allocated = false ∧ stats.largestFreeBlock = b.payload) ∨
        (∀ b ∈ blocks, b.allocated = true) ∧ stats.largestFreeBlock = 0) ∧
      (∀ size ptr h', mmAlloc endOfKernel s.heap size = some (ptr, h') → ptr ≠ 0 →
        Word64.add s.heap.heapUsedBytes (payloadSize h' ptr) ≤ s.heap.heapCapacityBytes) ∧
      ∀ ptr ∈ s.live, payloadSize s.heap ptr ≤ s.heap.heapUsedBytes := by
  obtain ⟨blocks, freeList, V, C⟩ := run.counted (mmInit_valid hstart hwrap (extent_of_limit hlimit) hinit)
    (mmInit_counted hstart hwrap hinit)
  have R := V.represents
  obtain ⟨largest, hloop, hall, hlargest⟩ := R.largestBlock
  have hfits := R.usedPayload_le
  have hused := C.used
  have hcap := C.capacity
  refine ⟨blocks, _, ⟨freeList, R⟩, by rw [mmGetStats, hloop, Option.map_some], hused, ?_,
    C.allocations, ?_, fun b hb hfree => ?_, ?_, fun size ptr h' hcall => (V.counted_alloc C hcall).2,
    fun ptr hptr => (V.counted_free C hptr).2⟩
  · dsimp only
    split <;> omega
  · have hlen : (allocatedBlocks blocks).length ≤ blocks.length := List.length_filter_le _ _
    have hbound := R.chained.length_lt
    have hbalance := C.balance
    unfold addressCount at hbound
    dsimp only
    rw [C.allocations, C.frees, Word64.sub]
    omega
  · have hle := hall b hb hfree
    have hge := R.chained.size_ge b hb
    unfold minBlockSize at hge
    dsimp only
    rw [if_pos (by omega), Block.payload]
    omega
  · rcases hlargest with ⟨b, hb, hfree, rfl⟩ | ⟨hnone, rfl⟩
    · have hge := R.chained.size_ge b hb
      unfold minBlockSize at hge
      refine Or.inl ⟨b, hb, hfree, ?_⟩
      dsimp only
      rw [if_pos (by omega)]
      rfl
    · exact Or.inr ⟨hnone, rfl⟩

/-- The theorem at a run: 100 bytes allocated in a region of one page. -/
theorem stats_exact_page :
    ∃ s : System, CountedRun 0x101000 ⟨mmInit blankHeap 0x10008 4096, []⟩ 1 0 s ∧
      mmGetStats s.heap = some ⟨4040, 112, 3928, 3888, 1, 0, 0⟩ ∧
      ∃ blocks, HasLayout 0x10008 4096 s.heap blocks ∧
        ((allocatedBlocks blocks).map Block.payload).sum = 112 ∧ (allocatedBlocks blocks).length = 1 := by
  have hcalc : ((mmAlloc 0x101000 (mmInit blankHeap 0x10008 4096) 100).bind fun x =>
      (mmGetStats x.2).map fun stats =>
        decide (x.1 = 0x10038 ∧ stats = ⟨4040, 112, 3928, 3888, 1, 0, 0⟩)) = some true := by
    decide +kernel
  obtain ⟨⟨ptr, h'⟩, hcall, h₁⟩ := Option.bind_eq_some_iff.mp hcalc
  obtain ⟨stats, hstats, h₂⟩ := Option.map_eq_some_iff.mp h₁
  obtain ⟨hptr, hvalue⟩ := of_decide_eq_true h₂
  dsimp only at hptr hstats
  subst hptr hvalue
  have hone : ∀ h₁, mmAlloc 0x101000 h₁ 100 = some (0x10038, h') →
      CountedRun 0x101000 ⟨h₁, []⟩ 1 0 ⟨h', [0x10038]⟩ := by
    intro h₁ hcall
    have run := CountedRun.alloc (s := ⟨h₁, []⟩) .nil hcall
    rwa [if_neg (by decide), if_neg (by decide)] at run
  have run := hone _ hcall
  obtain ⟨blocks, stats, hlayout, hstats', hused, -, -, hcount, -⟩ := stats_exact (by decide) (by decide)
    (by decide) (by decide +kernel) run
  obtain rfl := Option.some_inj.mp (hstats.symm.trans hstats')
  exact ⟨_, run, hstats, blocks, hlayout, hused.symm, hcount.symm⟩

/-- A block that fits may be allocated and freed any number of times. -/
theorem alloc_free_forever (hstart : heapStart ≠ 0)
    (hwrap : heapStart.toNat + heapSize.toNat ≤ 2 ^ 64) (hlimit : heapSize.toNat ≤ mmDefaultHeapLimit)
    (hinit : (mmInit h₀ heapStart heapSize).mmInitializedFlag = true) (hsize : size ≠ 0)
    (hroom : requiredSize size ≤ usableBytes heapStart heapSize) (k : ℕ) :
    ∃ s : System, CountedRun endOfKernel ⟨mmInit h₀ heapStart heapSize, []⟩ k k s ∧ s.live = [] := by
  have V₀ := mmInit_valid hstart hwrap (extent_of_limit hlimit) hinit
  have C₀ := mmInit_counted hstart hwrap hinit
  induction k with
  | zero => exact ⟨_, .nil, rfl⟩
  | succ k ih =>
      obtain ⟨s, run, hlive⟩ := ih
      obtain ⟨blocks, freeList, V, C⟩ := run.counted V₀ C₀
      have hnone : allocatedBlocks blocks = [] := by
        have hbalance := C.balance
        exact List.length_eq_zero_iff.mp (by omega)
      have hblocks := V.represents.eq_of_allocated V₀.represents fun b => by
        rw [hnone]
        simp [allocatedBlocks]
      obtain ⟨ptr, h', hcall, -, hcases⟩ := mmAlloc_spec V.represents V.initialized endOfKernel size
      have hptr : ptr ≠ 0 := by
        rcases hcases with ⟨-, -, hwhy⟩ | ⟨left, b, right, -, -, -, rfl, -⟩
        · have hfail := hwhy.resolve_left hsize
          rcases findFirstFit_cases V.represents (requiredSize size) with ⟨-, hsmall⟩ |
            ⟨left, b, right, rfl, -, -, hfind⟩
          · have hlt := hsmall ⟨alignedStart heapStart, usableBytes heapStart heapSize, false⟩
              (by rw [hblocks]; simp) rfl
            exact absurd hroom (not_le.mpr hlt)
          · rw [hfail, Option.some_inj] at hfind
            exact absurd hfind (V.represents.chained.address_pos (by simp)).ne
        · unfold headerSize
          omega
      have run₁ := run.alloc hcall
      rw [if_neg hptr, if_neg hptr, hlive] at run₁
      exact ⟨_, run₁.free List.mem_cons_self, List.erase_cons_head ptr []⟩

/-- After `2 ^ 64` allocations their count is zero. -/
theorem allocation_count_mod (hstart : heapStart ≠ 0)
    (hwrap : heapStart.toNat + heapSize.toNat ≤ 2 ^ 64) (hlimit : heapSize.toNat ≤ mmDefaultHeapLimit)
    (hinit : (mmInit h₀ heapStart heapSize).mmInitializedFlag = true) (hsize : size ≠ 0)
    (hroom : requiredSize size ≤ usableBytes heapStart heapSize) :
    ∃ (s : System) (stats : MmStats),
      CountedRun endOfKernel ⟨mmInit h₀ heapStart heapSize, []⟩ Word64.range Word64.range s ∧
      mmGetStats s.heap = some stats ∧ stats.allocations = 0 := by
  obtain ⟨s, run, -⟩ := alloc_free_forever hstart hwrap hlimit hinit hsize
    hroom Word64.range
  obtain ⟨blocks, freeList, V, C⟩ := run.counted (mmInit_valid hstart hwrap (extent_of_limit hlimit) hinit)
    (mmInit_counted hstart hwrap hinit)
  obtain ⟨largest, hloop, -⟩ := V.represents.largestBlock
  refine ⟨s, _, run, by rw [mmGetStats, hloop, Option.map_some], ?_⟩
  dsimp only
  rw [C.allocations, Word64.range, Nat.mod_self]

/-- The count of allocations starts again from zero after `2 ^ 64` of them. -/
theorem allocation_count_wraps :
    ∃ (s : System) (stats : MmStats),
      CountedRun 0x101000 ⟨mmInit blankHeap 0x10008 4096, []⟩ (2 ^ 64) (2 ^ 64) s ∧
      mmGetStats s.heap = some stats ∧ stats.allocations ≠ 2 ^ 64 := by
  have hinit : (mmInit blankHeap 0x10008 4096).mmInitializedFlag = true := by decide +kernel
  have hroom : requiredSize 100 ≤ usableBytes 0x10008 4096 := by decide +kernel
  obtain ⟨s, stats, run, hstats, hzero⟩ := allocation_count_mod (by decide) (by decide) (by decide)
    hinit (by decide) hroom
  refine ⟨s, stats, run, hstats, ?_⟩
  rw [hzero]
  decide

end Runs
end SoKernel.Mm.Simple
