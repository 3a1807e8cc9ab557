import SoKernel.Mm.Buddy.Canonical
import SoKernel.Mm.Simple.Stats

/-!
# The statistics of the buddy memory manager

Embedding of `mm_get_stats`. An allocation is charged by the level that was asked for and a free
is credited by the level in the header; over a run the two agree, so the bytes in use are those of
the layout. The frees are counted and the allocations are not.
-/

namespace SoKernel.Mm.Buddy

open Function (update)
open Relation (ReflTransGen)
open Simple (MmStats)

variable {lo usable maxLevel fuel l : ℕ} {h h' : Heap} {blocks blocks' left right : List Block}
variable {b : Block} {lists lists' : ℕ → List ℕ} {s s' : System} {endOfKernel size : UInt64}
variable {ptr n m : ℕ}

/-- The value of `cur_payload` in `mm_get_stats`. -/
def curPayload (h : Heap) (cur : ℕ) : ℕ := Word64.sub (blockBytes h (h.level cur)) hdrSize

/-- The inner loop of `mm_get_stats`, over the free list of one level; `none` when it does not
end. -/
def largestInList (h : Heap) (largest l : ℕ) : Option ℕ :=
  LinkedRing.walkFold h.next 0
    (fun largest cur => if largest < curPayload h cur then curPayload h cur else largest)
    addressCount (h.freeLists l) largest

/-- The outer loop of `mm_get_stats`, over the levels. -/
def largestPayload (h : Heap) : Option ℕ :=
  (List.range (h.maxLevel + 1)).foldlM (largestInList h) 0

def mmGetStats (h : Heap) : Option MmStats :=
  (largestPayload h).map fun largest =>
    { totalBytes := h.heapCapacityBytes
      usedBytes := h.heapUsedBytes
      freeBytes := if h.heapUsedBytes < h.heapCapacityBytes then
          h.heapCapacityBytes - h.heapUsedBytes else 0
      largestFreeBlock := largest
      allocations := h.heapAllocationCount
      frees := h.heapFreeCount
      failedAllocations := h.heapFailedAllocations }

section Keeps

/-! A property that the single list operations keep is kept by the loops made of them. -/

variable {P : Heap → Prop}

theorem splitDown_keeps (hpop : ∀ h l, P h → P (popFree h l).2)
    (hpush : ∀ h l a, P h → P (pushHalf h l a)) {toLevel : ℕ} (steps : ℕ) (hP : P h) :
    P (splitDown h toLevel steps).2 := by
  induction steps generalizing h with
  | zero => exact hpop h toLevel hP
  | succ steps ih =>
      rw [splitDown]
      dsimp only
      split
      · exact hpop _ _ hP
      · apply ih
        exact hpush _ _ _ (hpush _ _ _ (hpop _ _ hP))

theorem takeBlock_keeps (hpop : ∀ h l, P h → P (popFree h l).2)
    (hpush : ∀ h l a, P h → P (pushHalf h l a)) (ord : ℕ) (hP : P h) : P (takeBlock h ord).2 := by
  rw [takeBlock]
  split
  · exact hpop _ _ hP
  · cases firstLevelAbove (popFree h ord).2 ord with
    | none => exact hpop _ _ hP
    | some l => exact splitDown_keeps hpop hpush _ (hpop _ _ hP)

theorem coalesceLoop_keeps (hremove : ∀ h a h', removeFromFreeList h a = some h' → P h → P h')
    (htake : ∀ h a, P h → P (takeParent h a)) {a : ℕ} {merged : ℕ × Heap}
    (hloop : coalesceLoop fuel h a = some merged) (hP : P h) : P merged.2 := by
  induction fuel generalizing h a with
  | zero => cases hloop
  | succ fuel ih =>
      rw [coalesceLoop] at hloop
      dsimp only at hloop
      split at hloop
      · split at hloop
        · cases hloop
          exact hP
        · obtain ⟨h₁, hrem, hloop⟩ := Option.bind_eq_some_iff.mp hloop
          exact ih hloop (htake _ _ (hremove _ _ _ hrem hP))
      · cases hloop
        exact hP

theorem coalesce_keeps (hremove : ∀ h a h', removeFromFreeList h a = some h' → P h → P h')
    (htake : ∀ h a, P h → P (takeParent h a)) (hpush : ∀ h a, P h → P (pushFree h a)) {a : ℕ}
    (hcall : coalesce h a = some h') (hP : P h) : P h' := by
  obtain ⟨merged, hloop, rfl⟩ := Option.map_eq_some_iff.mp hcall
  exact hpush _ _ (coalesceLoop_keeps hremove htake hloop hP)

end Keeps

section Counters

/-- The counters that the calls update. -/
structure Counters where
  capacity : ℕ
  used : ℕ
  allocations : ℕ
  frees : ℕ
  failed : ℕ

def counters (h : Heap) : Counters :=
  ⟨h.heapCapacityBytes, h.heapUsedBytes, h.heapAllocationCount, h.heapFreeCount,
    h.heapFailedAllocations⟩

theorem pushFree_counters (h : Heap) (a : ℕ) : counters (pushFree h a) = counters h := by
  rw [pushFree]
  dsimp only
  split <;> rfl

theorem pushHalf_counters (h : Heap) (l a : ℕ) : counters (pushHalf h l a) = counters h :=
  (pushFree_counters _ a).trans rfl

theorem popFree_counters (h : Heap) (l : ℕ) : counters (popFree h l).2 = counters h := by
  rw [popFree]
  dsimp only
  split
  · rfl
  · split <;> rfl

theorem write_counters (h : Heap) (v : ℕ) (slot : Slot) :
    counters (slot.write h v) = counters h := by
  cases slot <;> rfl

theorem removeFromFreeList_counters {a : ℕ} (hcall : removeFromFreeList h a = some h') :
    counters h' = counters h := by
  obtain ⟨slot, -, rfl⟩ := Option.map_eq_some_iff.mp hcall
  split
  · dsimp only
    rw [← write_counters h (h.next a) slot]
    split <;> rfl
  · rfl

theorem takeBlock_counters (h : Heap) (ord : ℕ) : counters (takeBlock h ord).2 = counters h :=
  takeBlock_keeps (P := fun h' => counters h' = counters h)
    (fun _ _ hP => (popFree_counters _ _).trans hP)
    (fun _ _ _ hP => (pushHalf_counters _ _ _).trans hP) ord rfl

theorem coalesce_counters {a : ℕ} (hcall : coalesce h a = some h') : counters h' = counters h :=
  coalesce_keeps (P := fun h' => counters h' = counters h)
    (fun _ _ _ hrem hP => (removeFromFreeList_counters hrem).trans hP) (fun _ _ hP => hP)
    (fun _ _ hP => (pushFree_counters _ _).trans hP) hcall rfl

theorem countAllocation_counters (hsame : counters h' = counters h) (payload : ℕ) :
    counters (countAllocation h' payload) = counters (countAllocation h payload) := by
  simp only [counters, Counters.mk.injEq] at hsame
  obtain ⟨hcap, hused, halloc, hfree, hfail⟩ := hsame
  simp only [counters, countAllocation, hcap, hused, halloc, hfree, hfail]

theorem mmAlloc_of_initialized (hinit : h.mmInitializedFlag = true) (endOfKernel size : UInt64) :
    mmAlloc endOfKernel h size = some (allocInitialized h size) := by
  rw [mmAlloc, if_pos hinit]

/-- When no level has a block for it, a request only counts as failed. -/
theorem mmAlloc_fails (R : Represents lo usable maxLevel h blocks lists) (hsize : size ≠ 0)
    (hnone : servingBlock h (requestOrder h size) = none) :
    mmAlloc endOfKernel h size =
      some (0, { h with heapFailedAllocations := Word64.add h.heapFailedAllocations 1 }) := by
  rw [mmAlloc_of_initialized R.statics.initialized, allocInitialized, if_neg hsize]
  rcases R.takeBlock (requestOrder_lt h size) with ⟨htake, -⟩ | ⟨_, _, _, _, -, -, hserve, -⟩
  · simp only [htake, if_true]
  · rw [hnone] at hserve
    cases hserve

/-- The payload that an allocation charges. -/
def chargedPayload (h : Heap) (size : UInt64) : ℕ :=
  Word64.sub (blockBytes h (requestOrder h size)) hdrSize

/-- What an allocation that takes a block does to the counters. -/
theorem allocInitialized_counters (hsize : size ≠ 0)
    (htake : (takeBlock h (requestOrder h size)).1 ≠ 0)
    (hregion : (takeBlock h (requestOrder h size)).2.region = h.region) :
    counters (allocInitialized h size).2 =
      counters (countAllocation h (chargedPayload h size)) := by
  have hbase : (takeBlock h (requestOrder h size)).2.baseBlockSize = h.baseBlockSize :=
    congrArg (fun r => r.2.2.1) hregion
  have hcount := takeBlock_counters h (requestOrder h size)
  rw [allocInitialized, if_neg hsize]
  dsimp only
  rw [if_neg htake]
  generalize (takeBlock h (requestOrder h size)) = taken at *
  have hbytes : blockBytes { taken.2 with isFree := update taken.2.isFree taken.1 0 }
      (requestOrder h size) = blockBytes h (requestOrder h size) := by
    rw [blockBytes, blockBytes, hbase]
  dsimp only
  rw [hbytes]
  exact countAllocation_counters (h := h) hcount _

/-- The block that an allocation hands out, and what it does to the counters. -/
theorem mmAlloc_counters (R : Represents lo usable maxLevel h blocks lists)
    (hcall : mmAlloc endOfKernel h size = some (ptr, h')) :
    (ptr = 0 ∧ Represents lo usable maxLevel h' blocks lists ∧ h'.heapUsedBytes = h.heapUsedBytes ∧
      h'.heapCapacityBytes = h.heapCapacityBytes ∧ h'.heapAllocationCount = h.heapAllocationCount ∧
      h'.heapFreeCount = h.heapFreeCount) ∨
    ∃ c blocks' lists', Represents lo usable maxLevel h' blocks' lists' ∧ c ∈ blocks' ∧
      c.level = requestOrder h size ∧ ptr = c.address lo + hdrSize ∧ ptr ≠ 0 ∧
      (allocatedBlocks blocks').Perm (c :: allocatedBlocks blocks) ∧
      counters h' = counters (countAllocation h (chargedPayload h size)) := by
  obtain ⟨ptr', h'', hspec, hcases⟩ := mmAlloc_spec R endOfKernel size
  obtain ⟨rfl, rfl⟩ : ptr = ptr' ∧ h' = h'' := by
    rw [hcall] at hspec
    simpa using hspec
  rcases hcases with ⟨rfl, R', hwhy⟩ | ⟨left, b, right, mid, rfl, hb, hsize, hserve, rfl,
    hmid, R'⟩
  · refine Or.inl ⟨rfl, R', ?_⟩
    by_cases hzero : size = 0
    · rw [mmAlloc_of_initialized R.statics.initialized, allocInitialized, if_pos hzero] at hcall
      cases hcall
      exact ⟨rfl, rfl, rfl, rfl⟩
    · rw [mmAlloc_fails R hzero (hwhy.resolve_left hzero)] at hcall
      cases hcall
      exact ⟨rfl, rfl, rfl, rfl⟩
  · right
    rw [mmAlloc_of_initialized R.statics.initialized, Option.some_inj] at hcall
    obtain rfl : (allocInitialized h size).2 = h' := by rw [hcall]
    have hpos := R.layout.address_pos (b := b) (by simp)
    refine ⟨⟨b.index, requestOrder h size, .allocated⟩, _, _, R', by simp, rfl,
      by simp only [Block.address], by omega, ?_, ?_⟩
    · have hmid' : mid.filter (fun x => decide (x.status = .allocated)) = [] := by
        rw [List.filter_eq_nil_iff]
        intro x hx
        simp [hmid x hx]
      simp [allocatedBlocks, hmid', hb]
    · rcases R.takeBlock (requestOrder_lt h size) with ⟨-, hnone⟩ | ⟨_, c, _, _, heq, -, -, htake,
        hregion, -⟩
      · rw [hserve] at hnone
        cases hnone
      · refine allocInitialized_counters hsize ?_ hregion
        rw [htake]
        exact (R.layout.address_pos (b := c) (by rw [heq]; simp)).ne'

/-- The payload of a block. -/
def Block.payload (b : Block) : ℕ := unitBytes * b.units - hdrSize

theorem wordPayload_eq (hbase : h.baseBlockSize = unitBytes) (hl : l < mmMaxLevels) :
    Word64.sub (blockBytes h l) hdrSize = unitBytes * 2 ^ l - hdrSize := by
  have hpow := two_pow_level_le hl
  have hpos := Nat.two_pow_pos l
  have hhdr : hdrSize = 32 := by decide
  rw [blockBytes_eq hbase hl]
  simp only [unitBytes]
  exact Word64.sub_eq (by omega) (by omega)

/-- What a free does to the counters. -/
theorem mmFree_counters (R : Represents lo usable maxLevel h (left ++ b :: right) lists)
    (halloc : b.status = .allocated) (hcall : mmFree h (b.address lo + hdrSize) = some h') :
    counters h' = counters (countFree h b.payload) := by
  have hb : b ∈ left ++ b :: right := by simp
  rw [mmFree_eq R halloc, wordPayload_eq R.statics.baseBlockSize (R.layout.level_lt hb)] at hcall
  exact (coalesce_counters hcall).trans rfl

end Counters

section Layouts

/-- A heap has one layout. -/
theorem Represents.unique (R : Represents lo usable maxLevel h blocks lists)
    (R' : Represents lo usable maxLevel h blocks' lists') : blocks = blocks' := by
  refine R.layout.tiles.unique R'.layout.tiles (fun _ _ => units_pos _) (fun _ _ => units_pos _)
    fun b hb c hc he => ?_
  have haddr : b.address lo = c.address lo := by rw [Block.address, Block.address, he]
  have hbheld := R.none_held b hb
  have hcheld := R'.none_held c hc
  have hlevel : b.level = c.level := by
    rw [← R.layout.header b hb hbheld, ← R'.layout.header c hc hcheld, haddr]
  have hstatus : b.status = c.status := by
    have hbfree := R.layout.free_flag b hb
    have hbused := R.layout.allocated_flag b hb
    have hcfree := R'.layout.free_flag c hc
    have hcused := R'.layout.allocated_flag c hc
    rw [haddr] at hbfree hbused
    cases hbs : b.status <;> cases hcs : c.status <;> simp_all
  cases b
  cases c
  simp only [Block.mk.injEq] at he hlevel hstatus ⊢
  exact ⟨he, hlevel, hstatus⟩

/-- The payloads of the allocated blocks, together. -/
def usedPayload (blocks : List Block) : ℕ := ((allocatedBlocks blocks).map Block.payload).sum

theorem usedPayload_perm (hperm : (allocatedBlocks blocks').Perm (b :: allocatedBlocks blocks)) :
    usedPayload blocks' = b.payload + usedPayload blocks := by
  rw [usedPayload, (hperm.map Block.payload).sum_eq, List.map_cons, List.sum_cons]
  rfl

/-- Each block needs its header, so the payloads fit into the capacity. -/
theorem Represents.usedPayload_le (R : Represents lo usable maxLevel h blocks lists) :
    usedPayload blocks ≤ usable - hdrSize := by
  have htotal := R.layout.tiles.sum_len
  have hsub : (allocatedBlocks blocks).map Block.units |>.Sublist (blocks.map Block.units) :=
    (List.filter_sublist (l := blocks)).map Block.units
  have hle := hsub.sum_le_sum (fun _ _ => Nat.zero_le _)
  have hpay : ∀ L : List Block, (L.map Block.payload).sum ≤ unitBytes * (L.map Block.units).sum := by
    intro L
    rw [← List.sum_map_mul_left]
    exact List.sum_le_sum fun b _ => Nat.sub_le _ _
  unfold usedPayload
  cases hallocated : allocatedBlocks blocks with
  | nil => simp
  | cons c rest =>
      have hrest := hpay rest
      have hpos := units_pos c
      have hhdr : hdrSize = 32 := by decide
      rw [hallocated, List.map_cons, List.sum_cons] at hle
      rw [List.map_cons, List.sum_cons, Block.payload]
      simp only [unitBytes] at htotal hrest ⊢
      omega

/-- The inner loop visits the listed blocks in order. -/
theorem Represents.largestInList (R : Represents lo usable maxLevel h blocks lists)
    (hl : l < mmMaxLevels) (a : ℕ) :
    largestInList h a l = some ((lists l).foldl
      (fun largest cur => if largest < curPayload h cur then curPayload h cur else largest) a) := by
  obtain ⟨last, hring⟩ := R.layout.ring l hl
  have hwalk := hring.walkFold
    (f := fun largest cur => if largest < curPayload h cur then curPayload h cur else largest)
    (a := a) (R.layout.lists_length_lt hl)
  rw [LinkedRing.walkFold_update, Function.update_self] at hwalk
  rw [Buddy.largestInList]
  exact hwalk

theorem foldlM_some {α β : Type} {g : α → β → Option α} {f : α → β → α} (L : List β) (a : α)
    (hsome : ∀ x ∈ L, ∀ a, g a x = some (f a x)) : L.foldlM g a = some (L.foldl f a) := by
  induction L generalizing a with
  | nil => rfl
  | cons x L ih =>
      rw [List.foldlM_cons, hsome x (by simp) a, Option.bind_eq_bind, Option.bind_some, List.foldl_cons]
      exact ih _ fun y hy => hsome y (List.mem_cons_of_mem _ hy)

/-- The value of the loops of `mm_get_stats`: the largest free payload, `0` if there is none. -/
theorem Represents.largestPayload (R : Represents lo usable maxLevel h blocks lists) :
    ∃ largest, largestPayload h = some largest ∧
      (∀ b ∈ blocks, b.status = .free → b.payload ≤ largest) ∧
      ((∃ b ∈ blocks, b.status = .free ∧ largest = b.payload) ∨
        (∀ b ∈ blocks, b.status = .allocated) ∧ largest = 0) := by
  have hmax := R.statics.maxLevel
  have hlevels : ∀ l ∈ List.range (h.maxLevel + 1), l < mmMaxLevels := by
    intro l hl
    have hlt := R.layout.maxLevel_lt
    rw [List.mem_range] at hl
    omega
  have hloop := foldlM_some (List.range (h.maxLevel + 1)) 0 fun l hl a =>
    R.largestInList (hlevels l hl) a
  rw [← List.foldl_flatMap] at hloop
  have hfree : ∀ a, a ∈ (List.range (h.maxLevel + 1)).flatMap lists ↔
      ∃ b ∈ blocks, b.address lo = a ∧ b.status = .free := by
    intro a
    rw [List.mem_flatMap]
    constructor
    · rintro ⟨l, hl, ha⟩
      obtain ⟨b, hb, haddr, -, hst⟩ := (R.layout.mem_lists l (hlevels l hl) a).mp ha
      exact ⟨b, hb, haddr, hst⟩
    · rintro ⟨b, hb, haddr, hst⟩
      have hle := R.layout.level_le b hb
      refine ⟨b.level, List.mem_range.mpr (by omega), ?_⟩
      exact (R.layout.mem_lists _ (R.layout.level_lt hb) a).mpr ⟨b, hb, haddr, rfl, hst⟩
  have hpayload : ∀ b ∈ blocks, curPayload h (b.address lo) = b.payload := by
    intro b hb
    rw [curPayload, R.layout.header b hb (R.none_held b hb),
      wordPayload_eq R.statics.baseBlockSize (R.layout.level_lt hb)]
    rfl
  obtain ⟨-, hall, hvalue⟩ := Simple.foldl_largest (curPayload h)
    ((List.range (h.maxLevel + 1)).flatMap lists) 0
  refine ⟨_, hloop, fun b hb hst => ?_, ?_⟩
  · rw [← hpayload b hb]
    exact hall _ ((hfree _).mpr ⟨b, hb, rfl, hst⟩)
  · rcases hvalue with he | ⟨a, ha, he⟩
    · right
      refine ⟨fun b hb => ?_, he⟩
      cases hst : b.status with
      | allocated => rfl
      | held => exact absurd hst (R.none_held b hb)
      | free =>
          have hle := hall _ ((hfree _).mpr ⟨b, hb, rfl, hst⟩)
          have hpos := units_pos b
          have hhdr : hdrSize = 32 := by decide
          rw [he, hpayload b hb, Block.payload] at hle
          simp only [unitBytes] at hle
          omega
    · obtain ⟨b, hb, rfl, hst⟩ := (hfree a).mp ha
      exact Or.inl ⟨b, hb, hst, he.trans (hpayload b hb)⟩

end Layouts

section Runs

/-- A run with the number of allocations that returned a block and the number of frees. -/
inductive CountedRun (endOfKernel : UInt64) (start : System) : ℕ → ℕ → System → Prop
  | nil : CountedRun endOfKernel start 0 0 start
  | alloc {n m : ℕ} {s : System} {size : UInt64} {ptr : ℕ} {h' : Heap}
      (run : CountedRun endOfKernel start n m s)
      (call : mmAlloc endOfKernel s.heap size = some (ptr, h')) :
      CountedRun endOfKernel start (if ptr = 0 then n else n + 1) m
        ⟨h', if ptr = 0 then s.live else ptr :: s.live⟩
  | free {n m : ℕ} {s : System} {ptr : ℕ} {h' : Heap} (run : CountedRun endOfKernel start n m s)
      (live : ptr ∈ s.live) (call : mmFree s.heap ptr = some h') :
      CountedRun endOfKernel start n (m + 1) ⟨h', s.live.erase ptr⟩
  | write {n m : ℕ} {s : System} {ptr : ℕ} {h' : Heap} (run : CountedRun endOfKernel start n m s)
      (live : ptr ∈ s.live) (write : ClientWrite s.heap ptr h') :
      CountedRun endOfKernel start n m ⟨h', s.live⟩

/-- Every run can be counted. -/
theorem exists_countedRun {start : System} (run : ReflTransGen (Step endOfKernel) start s) :
    ∃ n m, CountedRun endOfKernel start n m s := by
  induction run with
  | refl => exact ⟨0, 0, .nil⟩
  | tail _ step ih =>
      obtain ⟨n, m, run⟩ := ih
      cases step with
      | alloc call => exact ⟨_, _, run.alloc call⟩
      | free live call => exact ⟨_, _, run.free live call⟩
      | write live hw => exact ⟨_, _, run.write live hw⟩

/-- The counters agree with a layout; no allocation is counted. -/
structure Counted (usable : ℕ) (h : Heap) (blocks : List Block) (n m : ℕ) : Prop where
  capacity : h.heapCapacityBytes = usable - hdrSize
  used : h.heapUsedBytes = usedPayload blocks
  allocations : h.heapAllocationCount = 0
  frees : h.heapFreeCount = m % 2 ^ 64
  balance : n = m + (allocatedBlocks blocks).length

theorem Counted.congr (C : Counted usable h blocks n m)
    (hused : h'.heapUsedBytes = h.heapUsedBytes) (hcap : h'.heapCapacityBytes = h.heapCapacityBytes)
    (halloc : h'.heapAllocationCount = h.heapAllocationCount)
    (hfree : h'.heapFreeCount = h.heapFreeCount) : Counted usable h' blocks n m :=
  ⟨hcap.trans C.capacity, hused.trans C.used, halloc.trans C.allocations, hfree.trans C.frees,
    C.balance⟩

theorem Counted.of_counters (C : Counted usable h blocks n m) (hsame : counters h' = counters h) :
    Counted usable h' blocks n m := by
  simp only [counters, Counters.mk.injEq] at hsame
  exact C.congr hsame.2.1 hsame.1 hsame.2.2.1 hsame.2.2.2.1

/-- One more allocated block that still fits. -/
theorem Counted.alloc (C : Counted usable h blocks n m)
    (hperm : (allocatedBlocks blocks').Perm (b :: allocatedBlocks blocks))
    (hfits : usedPayload blocks' ≤ usable - hdrSize) (hextent : usable < 2 ^ 64)
    (hsame : counters h' = counters (countAllocation h b.payload)) :
    Counted usable h' blocks' (n + 1) m ∧
      Word64.add h.heapUsedBytes b.payload ≤ h.heapCapacityBytes := by
  have hsum := usedPayload_perm hperm
  have hadd : Word64.add h.heapUsedBytes b.payload = usedPayload blocks' := by
    rw [C.used, Word64.add_eq (by omega), hsum, add_comm]
  have hle : Word64.add h.heapUsedBytes b.payload ≤ h.heapCapacityBytes := by
    rw [hadd, C.capacity]
    exact hfits
  have hlen := hperm.length_eq
  have hbalance := C.balance
  rw [List.length_cons] at hlen
  refine ⟨Counted.of_counters (h := countAllocation h b.payload)
    ⟨C.capacity, ?_, C.allocations, C.frees, by omega⟩ hsame, hle⟩
  rw [← hadd]
  exact if_neg (not_lt.mpr hle)

/-- One allocated block less. -/
theorem Counted.free (C : Counted usable h blocks n m)
    (hperm : (allocatedBlocks blocks).Perm (b :: allocatedBlocks blocks'))
    (hsame : counters h' = counters (countFree h b.payload)) :
    Counted usable h' blocks' n (m + 1) ∧ b.payload ≤ h.heapUsedBytes := by
  have hsum := usedPayload_perm hperm
  have hle : b.payload ≤ h.heapUsedBytes := by
    rw [C.used, hsum]
    omega
  have hlen := hperm.length_eq
  have hbalance := C.balance
  rw [List.length_cons] at hlen
  refine ⟨Counted.of_counters (h := countFree h b.payload)
    ⟨C.capacity, ?_, C.allocations, ?_, by omega⟩ hsame, hle⟩
  · have hused : (countFree h b.payload).heapUsedBytes = h.heapUsedBytes - b.payload := if_pos hle
    rw [hused, C.used]
    omega
  · have hcount : (countFree h b.payload).heapFreeCount = (h.heapFreeCount + 1) % 2 ^ 64 := rfl
    rw [hcount, C.frees]
    omega

/-- An allocation that returns a block charges it without clamping. -/
theorem Valid.counted_alloc (V : Valid lo usable maxLevel s blocks lists)
    (C : Counted usable s.heap blocks n m)
    (hcall : mmAlloc endOfKernel s.heap size = some (ptr, h')) :
    (∃ blocks' lists', Valid lo usable maxLevel ⟨h', if ptr = 0 then s.live else ptr :: s.live⟩
        blocks' lists' ∧ Counted usable h' blocks' (if ptr = 0 then n else n + 1) m) ∧
      (ptr ≠ 0 → Word64.add s.heap.heapUsedBytes (chargedPayload s.heap size) ≤
        s.heap.heapCapacityBytes ∧
        h'.heapUsedBytes = s.heap.heapUsedBytes + chargedPayload s.heap size) := by
  obtain ⟨blocks', lists', V'⟩ := V.alloc hcall
  rcases mmAlloc_counters V.represents hcall with ⟨rfl, R', hused, hcap, halloc, hfree⟩ |
    ⟨c, blocks'', lists'', R', hmem, hlevel, rfl, hne, hperm, hsame⟩
  · obtain rfl : blocks' = blocks := V'.represents.unique R'
    exact ⟨⟨blocks', lists', V', C.congr hused hcap halloc hfree⟩, fun h => absurd rfl h⟩
  · obtain rfl : blocks' = blocks'' := V'.represents.unique R'
    have hcharged : chargedPayload s.heap size = c.payload := by
      rw [chargedPayload, wordPayload_eq V.represents.statics.baseBlockSize (requestOrder_lt _ _),
        ← hlevel]
      rfl
    have hextent := V.represents.statics.extent_lt
    rw [hcharged] at hsame ⊢
    obtain ⟨C', hle⟩ := C.alloc hperm V'.represents.usedPayload_le (by omega) hsame
    refine ⟨⟨blocks', lists', V', ?_⟩, fun _ => ⟨hle, ?_⟩⟩
    · rw [if_neg hne]
      exact C'
    · rw [C'.used, C.used, usedPayload_perm hperm, add_comm]

/-- A free takes back a block that was charged. -/
theorem Valid.counted_free (V : Valid lo usable maxLevel s blocks lists)
    (C : Counted usable s.heap blocks n m) (hptr : ptr ∈ s.live)
    (hcall : mmFree s.heap ptr = some h') :
    (∃ blocks' lists', Valid lo usable maxLevel ⟨h', s.live.erase ptr⟩ blocks' lists' ∧
      Counted usable h' blocks' n (m + 1)) ∧
      payloadSize s.heap ptr ≤ s.heap.heapUsedBytes ∧
      h'.heapUsedBytes = s.heap.heapUsedBytes - payloadSize s.heap ptr := by
  obtain ⟨h'', blocks', lists', hcall', V', -⟩ := V.free hptr
  obtain rfl := Option.some_inj.mp (hcall.symm.trans hcall')
  obtain ⟨left, b, right, rfl, hb, rfl⟩ := V.live_block hptr
  obtain ⟨h'', blocks'', lists'', hspec, R', hsame⟩ := mmFree_spec V.represents hb
  obtain rfl := Option.some_inj.mp (hcall.symm.trans hspec)
  obtain rfl : blocks' = blocks'' := V'.represents.unique R'
  have hperm : (allocatedBlocks (left ++ b :: right)).Perm (b :: allocatedBlocks blocks') := by
    rw [hsame]
    simp only [allocatedBlocks, List.filter_append, List.filter_cons, hb, decide_true, if_true]
    exact List.perm_middle
  obtain ⟨C', hle⟩ := C.free hperm (mmFree_counters V.represents hb hcall)
  rw [V.payloadSize_eq (b := b) (by simp)]
  refine ⟨⟨blocks', lists', V', C'⟩, hle, ?_⟩
  have hpayload : unitBytes * b.units - hdrSize = b.payload := rfl
  rw [C'.used, C.used, usedPayload_perm hperm, hpayload, Nat.add_sub_cancel_left]

theorem CountedRun.counted {start : System} (V : Valid lo usable maxLevel start blocks lists)
    (C : Counted usable start.heap blocks 0 0) (run : CountedRun endOfKernel start n m s) :
    ∃ blocks' lists', Valid lo usable maxLevel s blocks' lists' ∧
      Counted usable s.heap blocks' n m := by
  induction run with
  | nil => exact ⟨blocks, lists, V, C⟩
  | alloc _ call ih =>
      obtain ⟨blocks', lists', V', C'⟩ := ih
      exact (V'.counted_alloc C' call).1
  | free _ live call ih =>
      obtain ⟨blocks', lists', V', C'⟩ := ih
      exact (V'.counted_free C' live call).1
  | write _ live hw ih =>
      obtain ⟨blocks', lists', V', C'⟩ := ih
      exact ⟨blocks', lists', V'.write live hw, C'.congr hw.heapUsedBytes hw.heapCapacityBytes
        hw.heapAllocationCount hw.heapFreeCount⟩

variable {h₀ h₁ : Heap} {heapStart heapSize : UInt64}

/-- The counters that `mm_init` sets past its checks. -/
theorem initRegion_counters {start : ℕ} (hrun : initRegion h₀ start usable = some h₁) :
    counters h₁ = ⟨Word64.sub usable hdrSize, 0, 0, 0, 0⟩ := by
  rw [initRegion] at hrun
  dsimp only at hrun
  generalize initBlocks addressCount _ start usable = result at hrun
  cases result with
  | none => cases hrun
  | some h =>
      rw [Option.map_some, Option.some_inj] at hrun
      rw [← hrun]
      rfl

/-- A successful `mm_init` passes its checks. -/
theorem mmInit_checks (hinit : mmInit h₀ heapStart heapSize = some h₁)
    (hflag : h₁.mmInitializedFlag = true) :
    48 ≤ heapSize.toNat ∧ 48 ≤ usableBytes heapStart heapSize ∧
      initRegion h₀ (alignedStart heapStart) (usableBytes heapStart heapSize) = some h₁ := by
  have hneed : Word64.add hdrSize 16 = 48 := by decide
  have hreject : some (rejectRegion h₀) = some h₁ → False := by
    intro heq
    rw [← Option.some_inj.mp heq] at hflag
    cases hflag
  rw [mmInit, hneed] at hinit
  split at hinit
  · exact (hreject hinit).elim
  rename_i hsize
  dsimp only at hinit
  split at hinit
  · exact (hreject hinit).elim
  split at hinit
  · exact (hreject hinit).elim
  · rename_i husable
    exact ⟨not_lt.mp hsize, not_lt.mp husable, hinit⟩

/-- The counters after a successful `mm_init`. -/
theorem mmInit_counted (hinit : mmInit h₀ heapStart heapSize = some h₁)
    (hflag : h₁.mmInitializedFlag = true) (hfree : ∀ b ∈ blocks, b.status = .free) :
    Counted (usableBytes heapStart heapSize) h₁ blocks 0 0 := by
  obtain ⟨-, husable, hrun⟩ := mmInit_checks hinit hflag
  have hnone : allocatedBlocks blocks = [] := by
    rw [allocatedBlocks, List.filter_eq_nil_iff]
    intro b hb
    simp [hfree b hb]
  have hhdr : hdrSize = 32 := by decide
  have hlt : usableBytes heapStart heapSize < 2 ^ 64 :=
    lt_of_le_of_lt Nat.and_le_left (Nat.mod_lt _ (by decide))
  have hsame := initRegion_counters hrun
  rw [Word64.sub_eq (by omega) hlt] at hsame
  simp only [counters, Counters.mk.injEq] at hsame
  obtain ⟨hcap, hused, halloc, hfrees, -⟩ := hsame
  refine ⟨hcap, ?_, halloc, hfrees, ?_⟩
  · rw [hused, usedPayload, hnone]
    rfl
  · rw [hnone]
    rfl

/-- The counters of a state that a counted run reaches. -/
theorem counted_of_init (hstart : heapStart ≠ 0)
    (hwrap : heapStart.toNat + heapSize.toNat ≤ 2 ^ 64) (hextent : heapSize.toNat + topBytes < 2 ^ 64)
    (hinit : mmInit h₀ heapStart heapSize = some h₁) (hflag : h₁.mmInitializedFlag = true)
    (run : CountedRun endOfKernel ⟨h₁, []⟩ n m s) :
    ∃ blocks lists, Valid (alignedStart heapStart) (usableBytes heapStart heapSize)
        (topLevel (usableBytes heapStart heapSize)) s blocks lists ∧
      Counted (usableBytes heapStart heapSize) s.heap blocks n m := by
  obtain ⟨h', hinit', -, hspec⟩ := mmInit_spec hstart hwrap hextent h₀
  obtain rfl := Option.some_inj.mp (hinit.symm.trans hinit')
  obtain ⟨-, blocks₀, lists₀, R₀, hfree⟩ := hspec hflag
  exact run.counted (R₀.initial_valid hfree) (mmInit_counted hinit hflag hfree)

/-- The bytes in use are those of the allocated blocks and fit into the capacity. No call clamps
the count: an allocation adds exactly what it hands out and a free takes exactly that back. -/
theorem buddy_used_bytes_exact (hstart : heapStart ≠ 0)
    (hwrap : heapStart.toNat + heapSize.toNat ≤ 2 ^ 64) (hlimit : heapSize.toNat ≤ mmDefaultHeapLimit)
    (hinit : mmInit h₀ heapStart heapSize = some h₁) (hflag : h₁.mmInitializedFlag = true)
    (run : ReflTransGen (Step endOfKernel) ⟨h₁, []⟩ s) :
    ∃ blocks lists,
      Represents (alignedStart heapStart) (usableBytes heapStart heapSize)
        (topLevel (usableBytes heapStart heapSize)) s.heap blocks lists ∧
      s.heap.heapUsedBytes =
        ((allocatedBlocks blocks).map fun b => 2 ^ b.level * s.heap.baseBlockSize - hdrSize).sum ∧
      s.heap.heapUsedBytes ≤ s.heap.heapCapacityBytes ∧
      (∀ size ptr h', mmAlloc endOfKernel s.heap size = some (ptr, h') → ptr ≠ 0 →
        Word64.add s.heap.heapUsedBytes (chargedPayload s.heap size) ≤ s.heap.heapCapacityBytes ∧
        h'.heapUsedBytes = s.heap.heapUsedBytes + chargedPayload s.heap size) ∧
      ∀ ptr ∈ s.live, ∀ h', mmFree s.heap ptr = some h' →
        payloadSize s.heap ptr ≤ s.heap.heapUsedBytes ∧
        h'.heapUsedBytes = s.heap.heapUsedBytes - payloadSize s.heap ptr := by
  obtain ⟨n, m, run⟩ := exists_countedRun run
  obtain ⟨blocks, lists, V, C⟩ := counted_of_init hstart hwrap (extent_of_limit hlimit) hinit hflag run
  have R := V.represents
  refine ⟨blocks, lists, R, ?_, ?_, fun size ptr h' hcall => (V.counted_alloc C hcall).2,
    fun ptr hptr h' hcall => (V.counted_free C hptr hcall).2⟩
  · rw [C.used, usedPayload, R.statics.baseBlockSize]
    simp only [Nat.mul_comm (2 ^ _) unitBytes]
    rfl
  · rw [C.used, C.capacity]
    exact R.usedPayload_le

/-- A region of one page, in which a request for 100 bytes takes a block of 256. -/
theorem buddy_used_bytes_exact_page :
    ∃ h₁ s, mmInit blankHeap 0x10008 4096 = some h₁ ∧
      ReflTransGen (Step 0x101000) ⟨h₁, []⟩ s ∧ s.heap.heapUsedBytes = 224 ∧
      ∃ blocks lists, Represents (alignedStart 0x10008) (usableBytes 0x10008 4096)
          (topLevel (usableBytes 0x10008 4096)) s.heap blocks lists ∧
        ((allocatedBlocks blocks).map fun b => 2 ^ b.level * s.heap.baseBlockSize - hdrSize).sum =
          224 := by
  have hcalc : ((mmInit blankHeap 0x10008 4096).bind fun h =>
      (mmAlloc 0x101000 h 100).map fun r =>
        decide (h.mmInitializedFlag = true ∧ r.1 ≠ 0 ∧ r.2.heapUsedBytes = 224)) = some true := by
    decide +kernel
  obtain ⟨h₁, hinit, hcalc⟩ := Option.bind_eq_some_iff.mp hcalc
  obtain ⟨⟨ptr, h'⟩, hcall, hcalc⟩ := Option.map_eq_some_iff.mp hcalc
  obtain ⟨hflag, hptr, hused⟩ := of_decide_eq_true hcalc
  have run := ReflTransGen.single (Step.alloc (s := ⟨h₁, []⟩) hcall)
  obtain ⟨blocks, lists, R, hsum, -⟩ := buddy_used_bytes_exact (by decide) (by decide) (by decide)
    hinit hflag run
  exact ⟨h₁, _, hinit, run, hused, blocks, lists, R, hsum.symm.trans hused⟩

/-- The statistics of a reachable heap: no allocation is ever counted, and the frees are counted
modulo `2 ^ 64`. So the counts are those of the run as long as no allocation has returned a
block, and never again. -/
theorem buddy_counts_exact_iff (hstart : heapStart ≠ 0)
    (hwrap : heapStart.toNat + heapSize.toNat ≤ 2 ^ 64) (hextent : heapSize.toNat + topBytes < 2 ^ 64)
    (hinit : mmInit h₀ heapStart heapSize = some h₁) (hflag : h₁.mmInitializedFlag = true)
    (run : CountedRun endOfKernel ⟨h₁, []⟩ n m s) :
    ∃ blocks lists stats,
      Represents (alignedStart heapStart) (usableBytes heapStart heapSize)
        (topLevel (usableBytes heapStart heapSize)) s.heap blocks lists ∧
      mmGetStats s.heap = some stats ∧ stats.allocations = 0 ∧ stats.frees = m % 2 ^ 64 ∧
      n = m + (allocatedBlocks blocks).length ∧
      ((stats.allocations = n ∧ stats.frees = m ∧
          Word64.sub stats.allocations stats.frees = (allocatedBlocks blocks).length) ↔ n = 0) := by
  obtain ⟨blocks, lists, V, C⟩ := counted_of_init hstart hwrap hextent hinit hflag run
  obtain ⟨largest, hloop, -⟩ := V.represents.largestPayload
  have hbalance := C.balance
  refine ⟨blocks, lists, _, V.represents, by rw [mmGetStats, hloop, Option.map_some], C.allocations,
    C.frees, hbalance, ?_⟩
  dsimp only
  rw [C.allocations, C.frees]
  constructor
  · rintro ⟨hzero, -⟩
    exact hzero.symm
  · intro hzero
    obtain ⟨rfl, hlen⟩ : m = 0 ∧ (allocatedBlocks blocks).length = 0 := by omega
    rw [hlen]
    exact ⟨hzero.symm, rfl, rfl⟩

/-- After an allocation and its free in a region of one page only the free is counted. -/
theorem buddy_counts_exact_iff_page :
    ∃ h₁ s stats, mmInit blankHeap 0x10008 4096 = some h₁ ∧
      CountedRun 0x101000 ⟨h₁, []⟩ 1 1 s ∧ mmGetStats s.heap = some stats ∧
      stats.allocations = 0 ∧ stats.frees = 1 ∧ s.live = [] ∧
      Word64.sub stats.allocations stats.frees ≠ 0 := by
  have hcalc : ((mmInit blankHeap 0x10008 4096).bind fun h =>
      (mmAlloc 0x101000 h 100).bind fun r => (mmFree r.2 r.1).map fun _ =>
        decide (h.mmInitializedFlag = true ∧ r.1 ≠ 0)) = some true := by
    decide +kernel
  obtain ⟨h₁, hinit, hcalc⟩ := Option.bind_eq_some_iff.mp hcalc
  obtain ⟨⟨ptr, h₂⟩, halloc, hcalc⟩ := Option.bind_eq_some_iff.mp hcalc
  obtain ⟨h₃, hfree, hcalc⟩ := Option.map_eq_some_iff.mp hcalc
  obtain ⟨hflag, hptr⟩ := of_decide_eq_true hcalc
  dsimp only at hptr hfree
  have allocated := CountedRun.alloc (s := ⟨h₁, []⟩) .nil halloc
  rw [if_neg hptr, if_neg hptr] at allocated
  have run := allocated.free List.mem_cons_self hfree
  obtain ⟨_, _, stats, -, hstats, hallocations, hfrees, -⟩ :=
    buddy_counts_exact_iff (by decide) (by decide) (by decide +kernel) hinit hflag run
  refine ⟨h₁, _, stats, hinit, run, hstats, hallocations, hfrees, by simp, ?_⟩
  rw [hallocations, hfrees]
  decide

/-- After one allocation in a region of one page the count of allocations is still zero. -/
theorem buddy_allocation_not_counted :
    ∃ h₁ s stats, mmInit blankHeap 0x10008 4096 = some h₁ ∧
      CountedRun 0x101000 ⟨h₁, []⟩ 1 0 s ∧ mmGetStats s.heap = some stats ∧
      stats.allocations ≠ 1 := by
  have hcalc : ((mmInit blankHeap 0x10008 4096).bind fun h =>
      (mmAlloc 0x101000 h 100).bind fun r => (mmGetStats r.2).map fun stats =>
        decide (r.1 ≠ 0 ∧ stats.allocations ≠ 1)) = some true := by
    decide +kernel
  obtain ⟨h₁, hinit, hcalc⟩ := Option.bind_eq_some_iff.mp hcalc
  obtain ⟨⟨ptr, h'⟩, hcall, hcalc⟩ := Option.bind_eq_some_iff.mp hcalc
  obtain ⟨stats, hstats, hcalc⟩ := Option.map_eq_some_iff.mp hcalc
  obtain ⟨hptr, hcount⟩ := of_decide_eq_true hcalc
  dsimp only at hptr
  have run := CountedRun.alloc (s := ⟨h₁, []⟩) .nil hcall
  rw [if_neg hptr] at run
  exact ⟨h₁, _, stats, hinit, run, hstats, hcount⟩

end Runs
end SoKernel.Mm.Buddy
