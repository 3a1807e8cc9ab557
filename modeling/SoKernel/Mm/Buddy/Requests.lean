import SoKernel.Mm.Buddy.Stats
import SoKernel.Mm.Simple.Requests

/-!
# Which requests the buddy memory manager serves

A request is rounded up, a header is added in 64-bit arithmetic, and `order_for` doubles the base
block at most 31 times. The level it gives is the smallest one that fits, as long as the sum does
not wrap and the largest block is large enough. Then a request is served if and only if some free
block is large enough.
-/

namespace SoKernel.Mm.Buddy

open Relation (ReflTransGen)
open Simple (MmStats roundedSize le_roundedSize)

variable {lo usable maxLevel l ord : ℕ} {h h' h₀ h₁ : Heap} {blocks left right : List Block}
variable {b : Block} {lists : ℕ → List ℕ} {s : System} {endOfKernel size : UInt64} {ptr : ℕ}
variable {heapStart heapSize : UInt64}

section Orders

/-- The doubling loop passes only sizes below `total`. -/
theorem orderLoop_minimal {total levelsLeft order k : ℕ} (hsum : order + levelsLeft = mmMaxLevels - 1)
    (hle : order ≤ k) (hlt : k < orderLoop total levelsLeft (unitBytes * 2 ^ order) order) :
    unitBytes * 2 ^ k < total := by
  induction levelsLeft generalizing order with
  | zero =>
      rw [orderLoop] at hlt
      omega
  | succ levelsLeft ih =>
      have hmax : mmMaxLevels = 32 := rfl
      have hpow : 2 ^ order ≤ 2 ^ 31 := two_pow_level_le (by omega)
      have hdouble : Word64.mul (unitBytes * 2 ^ order) 2 = unitBytes * 2 ^ (order + 1) := by
        simp only [unitBytes, pow_succ]
        rw [Word64.mul_eq (by omega), Nat.mul_assoc]
      rw [orderLoop, hdouble] at hlt
      split at hlt
      · rename_i hfirst
        rcases Nat.eq_or_lt_of_le hle with rfl | hle
        · exact hfirst
        · exact ih (by omega) hle hlt
      · omega

/-- The size of the block that a request for `size` bytes needs, as the code computes it. -/
def neededBytes (size : UInt64) : ℕ := Word64.add (alignUpU64 size.toNat minAlign) hdrSize

theorem neededBytes_eq (size : UInt64) :
    neededBytes size = (16 * ((size.toNat + 15) % 2 ^ 64 / 16) + 32) % 2 ^ 64 := by
  have halign : alignUpU64 size.toNat minAlign = 16 * ((size.toNat + 15) % 2 ^ 64 / 16) :=
    Word64.alignUp_eq (k := 4) size.toNat_lt (by decide)
  have hhdr : hdrSize = 32 := by decide
  rw [neededBytes, halign, hhdr, Word64.add]

/-- What `order_for` gives: a level that covers the block needed, unless the levels run out, and
none below it does. -/
theorem requestOrder_spec (hbase : h.baseBlockSize = unitBytes) (size : UInt64) :
    (neededBytes size ≤ unitBytes * 2 ^ requestOrder h size ∨
        requestOrder h size = mmMaxLevels - 1) ∧
      ∀ k < requestOrder h size, unitBytes * 2 ^ k < neededBytes size := by
  have hloop : requestOrder h size = orderLoop (if neededBytes size < unitBytes then unitBytes
      else neededBytes size) (mmMaxLevels - 1) (unitBytes * 2 ^ 0) 0 := by
    rw [requestOrder, orderFor, hbase, pow_zero, Nat.mul_one]
    rfl
  rw [hloop]
  refine ⟨?_, fun k hk => ?_⟩
  · refine (orderLoop_covers (Nat.zero_add _)).imp_left fun hcover => le_trans ?_ hcover
    split <;> omega
  · have hlt := orderLoop_minimal (Nat.zero_add _) (Nat.zero_le k) hk
    have hpos := Nat.two_pow_pos k
    split at hlt
    · simp only [unitBytes] at hlt
      omega
    · exact hlt

/-- The largest request that fits into a block of the last level. -/
def maxRequest : ℕ := topBytes - hdrSize

/-- Up to the largest request the block has room for it and no smaller block has. -/
theorem requestOrder_of_le (hbase : h.baseBlockSize = unitBytes) (hle : size.toNat ≤ maxRequest) :
    roundedSize size + hdrSize ≤ unitBytes * 2 ^ requestOrder h size ∧
      ∀ k < requestOrder h size, unitBytes * 2 ^ k < size.toNat + hdrSize := by
  obtain ⟨hcover, hmin⟩ := requestOrder_spec hbase size
  have hhdr : hdrSize = 32 := by decide
  have htop : topBytes = 2 ^ 37 := by norm_num [topBytes, unitBytes, mmMaxLevels]
  have hneeded : neededBytes size = roundedSize size + hdrSize := by
    rw [neededBytes_eq]
    simp only [maxRequest, htop, hhdr, roundedSize, Simple.mmAlignment] at hle ⊢
    omega
  have hround : roundedSize size + hdrSize ≤ 2 ^ 37 := by
    simp only [maxRequest, htop, hhdr, roundedSize, Simple.mmAlignment] at hle ⊢
    omega
  rw [hneeded] at hcover hmin
  refine ⟨hcover.elim id fun hlast => ?_, fun k hk => ?_⟩
  · rw [hlast]
    simp only [unitBytes, mmMaxLevels]
    omega
  · have hlt := hmin k hk
    simp only [hhdr, roundedSize, Simple.mmAlignment, unitBytes] at hlt ⊢
    omega

/-- A block of the level asked for is large enough exactly up to the largest request. -/
theorem requestOrder_fits_iff (hbase : h.baseBlockSize = unitBytes) (size : UInt64) :
    size.toNat ≤ unitBytes * 2 ^ requestOrder h size - hdrSize ↔ size.toNat ≤ maxRequest := by
  constructor
  · intro hle
    have hpow := two_pow_level_le (requestOrder_lt h size)
    simp only [maxRequest, topBytes, unitBytes, mmMaxLevels] at hle ⊢
    omega
  · intro hle
    have hround := le_roundedSize size
    have hfits := (requestOrder_of_le hbase hle).1
    omega

theorem servingBlock_eq_none_iff :
    servingBlock h ord = none ↔ ∀ l, ord ≤ l → l ≤ h.maxLevel → h.freeLists l = 0 := by
  rw [servingBlock, Option.map_eq_none_iff, List.find?_eq_none]
  constructor
  · intro hnone l hord hmax
    have hz := hnone l (by rw [List.mem_range'_1]; omega)
    simpa using hz
  · intro hall l hl
    rw [List.mem_range'_1] at hl
    simpa using hall l (by omega) (by omega)

end Orders

section Calls

/-- A call that returns a block took the first block of a level not below the one asked for. -/
theorem mmAlloc_serves (R : Represents lo usable maxLevel h blocks lists)
    (hcall : mmAlloc endOfKernel h size = some (ptr, h')) (hptr : ptr ≠ 0) :
    ∃ left b right mid, blocks = left ++ b :: right ∧ b.status = .free ∧ size ≠ 0 ∧
      servingBlock h (requestOrder h size) = some (b.address lo) ∧ ptr = b.address lo + hdrSize ∧
      Represents lo usable maxLevel h'
        (left ++ ⟨b.index, requestOrder h size, .allocated⟩ :: (mid ++ right))
        (cutLists lo b.index (requestOrder h size) b.level lists) ∧
      h'.level (ptr - hdrSize) = requestOrder h size ∧
      payloadSize h' ptr = unitBytes * 2 ^ requestOrder h size - hdrSize := by
  obtain ⟨ptr', h'', hspec, hcases⟩ := mmAlloc_spec R endOfKernel size
  obtain ⟨rfl, rfl⟩ : ptr = ptr' ∧ h' = h'' := by
    rw [hcall] at hspec
    simpa using hspec
  rcases hcases with ⟨rfl, -⟩ | ⟨left, b, right, mid, rfl, hb, hsize, hserve, rfl, -, R'⟩
  · exact absurd rfl hptr
  have hord := requestOrder_lt h size
  generalize requestOrder h size = ord at hserve R' hord ⊢
  have hlevel : h'.level (b.address lo) = ord := by
    have hheader := R'.layout.header ⟨b.index, ord, .allocated⟩ (by simp) (by simp)
    rw [Block.address] at hheader ⊢
    exact hheader
  refine ⟨left, b, right, mid, rfl, hb, hsize, hserve, rfl, R', ?_, ?_⟩
  · rw [Nat.add_sub_cancel, hlevel]
  · rw [payloadSize, Nat.add_sub_cancel, hlevel, blockBytes_eq R'.statics.baseBlockSize hord]

/-- A request is refused exactly when no level from the one asked for up has a block. -/
theorem mmAlloc_ne_zero (endOfKernel : UInt64) (R : Represents lo usable maxLevel h blocks lists)
    (hsize : size ≠ 0) (hsome : servingBlock h (requestOrder h size) ≠ none) :
    ∃ ptr h', mmAlloc endOfKernel h size = some (ptr, h') ∧ ptr ≠ 0 := by
  obtain ⟨ptr, h', hcall, hcases⟩ := mmAlloc_spec R endOfKernel size
  refine ⟨ptr, h', hcall, ?_⟩
  rcases hcases with ⟨-, -, hwhy⟩ | ⟨_, b, _, _, rfl, -, -, -, rfl, -⟩
  · exact absurd (hwhy.resolve_left hsize) hsome
  · have hpos := R.layout.address_pos (b := b) (by simp)
    omega

/-- A level has a block exactly when some free block is of that level. -/
theorem Represents.serving_iff (R : Represents lo usable maxLevel h blocks lists) (ord : ℕ) :
    servingBlock h ord ≠ none ↔ ∃ b ∈ blocks, b.status = .free ∧ ord ≤ b.level := by
  have hmax := R.statics.maxLevel
  have hlt := R.layout.maxLevel_lt
  constructor
  · intro hsome
    by_contra hnone
    refine hsome (servingBlock_eq_none_iff.mpr fun l hord hle => ?_)
    by_contra hhead
    obtain ⟨left, b, right, _, rfl, hfree, rfl, -⟩ := R.layout.first_of_level (by omega) hhead
    exact hnone ⟨b, by simp, hfree, hord⟩
  · rintro ⟨b, hb, hfree, hord⟩ hnone
    have hle := R.layout.level_le b hb
    have hl := R.layout.level_lt hb
    have hzero := servingBlock_eq_none_iff.mp hnone b.level hord (by omega)
    have hmem := (R.layout.mem_lists _ hl (b.address lo)).mpr ⟨b, hb, rfl, rfl, hfree⟩
    rw [R.layout.head_eq_zero hl hzero] at hmem
    cases hmem

/-- The serving block is the first of its list, and its level is not below the one asked for. -/
theorem Represents.serving_head (R : Represents lo usable maxLevel h blocks lists)
    (hord : ord < mmMaxLevels) (hb : b ∈ blocks) (hserve : servingBlock h ord = some (b.address lo)) :
    ord ≤ b.level ∧ (lists b.level).head? = some (b.address lo) := by
  have hmax := R.statics.maxLevel
  have hlt := R.layout.maxLevel_lt
  obtain ⟨l, hfind, hhead⟩ := Option.map_eq_some_iff.mp hserve
  have hl := List.mem_of_find?_eq_some hfind
  rw [List.mem_range'_1] at hl
  have hnz : h.freeLists l ≠ 0 := by simpa using List.find?_some hfind
  obtain ⟨left, c, right, L, rfl, -, rfl, hlist, hfirst⟩ := R.layout.first_of_level (by omega) hnz
  obtain rfl : c = b := R.layout.address_injective (by simp) hb (hfirst.symm.trans hhead)
  exact ⟨hl.1, by rw [hlist, List.head?_cons]⟩

/-- `split_down` is only called for a level that has a block, so it returns one. -/
theorem Represents.splitDown_ne_zero (R : Represents lo usable maxLevel h blocks lists)
    (hfind : firstLevelAbove h ord = some l) : (splitDown h ord (l - ord)).1 ≠ 0 := by
  obtain ⟨hlt, hle, hhead⟩ := firstLevelAbove_some hfind
  have hmax := R.statics.maxLevel
  have hl : l < mmMaxLevels := lt_of_le_of_lt (hmax ▸ hle) R.layout.maxLevel_lt
  obtain ⟨left, b, right, L, rfl, hfree, hlevel, hlist, -⟩ := R.layout.first_of_level hl hhead
  have hsplit := R.layout.splitDown R.statics.baseBlockSize hfree
    (show b.level = ord + (l - ord) by omega) (by rw [hlevel, hlist]) (R.apart.off b.index)
  rw [hsplit.1]
  exact (R.layout.address_pos (by simp)).ne'

end Calls

section Runs

/-- The heap is not larger than the region. -/
theorem usableBytes_le (hstart : heapStart ≠ 0)
    (hwrap : heapStart.toNat + heapSize.toNat ≤ 2 ^ 64)
    (hinit : mmInit h₀ heapStart heapSize = some h₁) (hflag : h₁.mmInitializedFlag = true) :
    usableBytes heapStart heapSize ≤ heapSize.toNat := by
  obtain ⟨hsize, -, -⟩ := mmInit_checks hinit hflag
  obtain ⟨hle, -, -⟩ := alignedStart_spec hstart hwrap (by omega)
  obtain ⟨hend, -⟩ := usableBytes_spec hstart hwrap (by omega)
  omega

/-- A reachable heap, its layout and its capacity. -/
theorem reachable_valid (hstart : heapStart ≠ 0)
    (hwrap : heapStart.toNat + heapSize.toNat ≤ 2 ^ 64) (hextent : heapSize.toNat + topBytes < 2 ^ 64)
    (hinit : mmInit h₀ heapStart heapSize = some h₁) (hflag : h₁.mmInitializedFlag = true)
    (hrun : ReflTransGen (Step endOfKernel) ⟨h₁, []⟩ s) :
    ∃ blocks lists, Represents (alignedStart heapStart) (usableBytes heapStart heapSize)
        (topLevel (usableBytes heapStart heapSize)) s.heap blocks lists ∧
      s.heap.heapCapacityBytes = usableBytes heapStart heapSize - hdrSize := by
  obtain ⟨n, m, run⟩ := exists_countedRun hrun
  obtain ⟨blocks, lists, V, C⟩ := counted_of_init hstart hwrap hextent hinit hflag run
  exact ⟨blocks, lists, V.represents, C.capacity⟩

/-- A block that is returned has room for what was asked exactly when that fits into a block of
the last level, or no level from the one asked for up has a block. -/
theorem buddy_payload_fits_iff (hstart : heapStart ≠ 0)
    (hwrap : heapStart.toNat + heapSize.toNat ≤ 2 ^ 64) (hextent : heapSize.toNat + topBytes < 2 ^ 64)
    (hinit : mmInit h₀ heapStart heapSize = some h₁) (hflag : h₁.mmInitializedFlag = true)
    (hrun : ReflTransGen (Step endOfKernel) ⟨h₁, []⟩ s) (size : UInt64) :
    (∀ ptr h', mmAlloc endOfKernel s.heap size = some (ptr, h') → ptr ≠ 0 →
        size.toNat ≤ payloadSize h' ptr) ↔
      size.toNat ≤ maxRequest ∨
        ∀ l, requestOrder s.heap size ≤ l → l ≤ s.heap.maxLevel → s.heap.freeLists l = 0 := by
  obtain ⟨blocks, lists, R, -⟩ := reachable_valid hstart hwrap hextent hinit hflag hrun
  have hfits := requestOrder_fits_iff R.statics.baseBlockSize size
  rw [← servingBlock_eq_none_iff]
  constructor
  · intro hall
    by_contra hnot
    obtain ⟨hgt, hsome⟩ := not_or.mp hnot
    have hsize : size ≠ 0 := by
      rintro rfl
      exact hgt (Nat.zero_le _)
    obtain ⟨ptr, h', hcall, hptr⟩ := mmAlloc_ne_zero endOfKernel R hsize hsome
    obtain ⟨_, _, _, _, -, -, -, -, -, -, -, hpayload⟩ := mmAlloc_serves R hcall hptr
    have hle := hall ptr h' hcall hptr
    rw [hpayload] at hle
    exact hgt (hfits.mp hle)
  · intro hwhen ptr h' hcall hptr
    obtain ⟨_, _, _, _, -, -, -, hserve, -, -, -, hpayload⟩ := mmAlloc_serves R hcall hptr
    rcases hwhen with hle | hnone
    · rw [hpayload]
      exact hfits.mpr hle
    · rw [hnone] at hserve
      cases hserve

/-- In a page the block for a request of 100 bytes has room for them. -/
theorem buddy_payload_fits_iff_page :
    ∃ h₁ ptr h', mmInit blankHeap 0x10008 4096 = some h₁ ∧ mmAlloc 0x101000 h₁ 100 = some (ptr, h') ∧
      ptr ≠ 0 ∧ (100 : UInt64).toNat ≤ payloadSize h' ptr := by
  have hcalc : ((mmInit blankHeap 0x10008 4096).bind fun h =>
      (mmAlloc 0x101000 h 100).map fun r =>
        decide (h.mmInitializedFlag = true ∧ r.1 ≠ 0)) = some true := by
    decide +kernel
  obtain ⟨h₁, hinit, hcalc⟩ := Option.bind_eq_some_iff.mp hcalc
  obtain ⟨⟨ptr, h'⟩, hcall, hcalc⟩ := Option.map_eq_some_iff.mp hcalc
  obtain ⟨hflag, hptr⟩ := of_decide_eq_true hcalc
  have run : ReflTransGen (Step 0x101000) ⟨h₁, []⟩ ⟨h₁, []⟩ := .refl
  have hiff := buddy_payload_fits_iff (by decide) (by decide) (by decide +kernel) hinit hflag run 100
  have hmax : (100 : UInt64).toNat ≤ maxRequest := by decide +kernel
  exact ⟨h₁, ptr, h', hinit, hcall, hptr, hiff.mpr (Or.inl hmax) ptr h' hcall hptr⟩

/-- A request for `2 ^ 64 - 1` bytes in a page gets a block with 32 of them. -/
theorem buddy_wrapped_request_served :
    ∃ h₁ ptr h', mmInit blankHeap 0x10008 4096 = some h₁ ∧ h₁.mmInitializedFlag = true ∧
      mmAlloc 0x101000 h₁ 0xFFFFFFFFFFFFFFFF = some (ptr, h') ∧ ptr ≠ 0 ∧
      payloadSize h' ptr = 32 := by
  have hcalc : ((mmInit blankHeap 0x10008 4096).bind fun h =>
      (mmAlloc 0x101000 h 0xFFFFFFFFFFFFFFFF).map fun r =>
        decide (h.mmInitializedFlag = true ∧ r.1 ≠ 0 ∧ payloadSize r.2 r.1 = 32)) = some true := by
    decide +kernel
  obtain ⟨h₁, hinit, hcalc⟩ := Option.bind_eq_some_iff.mp hcalc
  obtain ⟨⟨ptr, h'⟩, hcall, hcalc⟩ := Option.map_eq_some_iff.mp hcalc
  obtain ⟨hflag, hptr, hpayload⟩ := of_decide_eq_true hcalc
  exact ⟨h₁, ptr, h', hinit, hflag, hcall, hptr, hpayload⟩

/-- A request for at least one byte and at most the capacity is served exactly when its rounded
size is not above the largest free payload. Then the block has the smallest level whose payload
fits, and was cut from the first block of a list: that list loses it, and each level in between
gains one upper half. Otherwise only the count of failures changes. -/
theorem buddy_largest_free_block_predicts (hstart : heapStart ≠ 0)
    (hwrap : heapStart.toNat + heapSize.toNat ≤ 2 ^ 64) (hlimit : heapSize.toNat ≤ mmDefaultHeapLimit)
    (hinit : mmInit h₀ heapStart heapSize = some h₁) (hflag : h₁.mmInitializedFlag = true)
    (hrun : ReflTransGen (Step endOfKernel) ⟨h₁, []⟩ s) :
    ∃ blocks lists stats,
      Represents (alignedStart heapStart) (usableBytes heapStart heapSize)
        (topLevel (usableBytes heapStart heapSize)) s.heap blocks lists ∧
      mmGetStats s.heap = some stats ∧
      (∀ ord l, firstLevelAbove s.heap ord = some l → (splitDown s.heap ord (l - ord)).1 ≠ 0) ∧
      ∀ size : UInt64, size ≠ 0 → size.toNat ≤ stats.totalBytes →
        ∃ ptr h', mmAlloc endOfKernel s.heap size = some (ptr, h') ∧
          (ptr ≠ 0 ↔ roundedSize size ≤ stats.largestFreeBlock) ∧
          (ptr ≠ 0 → ∃ ord, h'.level (ptr - hdrSize) = ord ∧
            size.toNat ≤ unitBytes * 2 ^ ord - hdrSize ∧
            (∀ k < ord, unitBytes * 2 ^ k - hdrSize < size.toNat) ∧
            ∃ b ∈ blocks, b.status = .free ∧ ptr = b.address (alignedStart heapStart) + hdrSize ∧
              ord ≤ b.level ∧
              (lists b.level).head? = some (b.address (alignedStart heapStart)) ∧
              ∃ blocks', Represents (alignedStart heapStart) (usableBytes heapStart heapSize)
                (topLevel (usableBytes heapStart heapSize)) h' blocks'
                (cutLists (alignedStart heapStart) b.index ord b.level lists)) ∧
          (ptr = 0 → h' = { s.heap with
            heapFailedAllocations := Word64.add s.heap.heapFailedAllocations 1 }) := by
  obtain ⟨blocks, lists, R, hcap⟩ := reachable_valid hstart hwrap (extent_of_limit hlimit) hinit hflag
    hrun
  have hextent := R.statics.extent_lt
  obtain ⟨largest, hloop, hall, hlargest⟩ := R.largestPayload
  refine ⟨blocks, lists, _, R, by rw [mmGetStats, hloop, Option.map_some],
    fun ord l hfind => R.splitDown_ne_zero hfind, fun size hsize hle => ?_⟩
  dsimp only at hle ⊢
  have husable := usableBytes_le hstart hwrap hinit hflag
  have hmax : size.toNat ≤ maxRequest := by
    have hhdr : hdrSize = 32 := by decide
    have htop : topBytes = 2 ^ 37 := by norm_num [topBytes, unitBytes, mmMaxLevels]
    simp only [maxRequest, hhdr, htop, mmDefaultHeapLimit] at hlimit hcap ⊢
    omega
  obtain ⟨hcover, hmin⟩ := requestOrder_of_le R.statics.baseBlockSize hmax
  have hord := requestOrder_lt s.heap size
  have hround := le_roundedSize size
  have hpos : size.toNat ≠ 0 := fun hz => hsize (UInt64.toNat_inj.mp (by simpa using hz))
  have hfits : roundedSize size ≤ largest ↔ servingBlock s.heap (requestOrder s.heap size) ≠ none := by
    rw [R.serving_iff]
    constructor
    · intro hroom
      obtain ⟨b, hb, hfree, rfl⟩ | ⟨-, rfl⟩ := hlargest
      · refine ⟨b, hb, hfree, not_lt.mp fun hlow => ?_⟩
        have hshort := hmin b.level hlow
        rw [Block.payload, Block.units] at hroom
        omega
      · omega
    · rintro ⟨b, hb, hfree, hlevel⟩
      have hle := hall b hb hfree
      have hmono : unitBytes * 2 ^ requestOrder s.heap size ≤ unitBytes * 2 ^ b.level :=
        Nat.mul_le_mul_left _ (Nat.pow_le_pow_right (by decide) hlevel)
      rw [Block.payload, Block.units] at hle
      omega
  rw [hfits]
  cases hserve : servingBlock s.heap (requestOrder s.heap size) with
  | none =>
      exact ⟨0, _, mmAlloc_fails R hsize hserve, ⟨fun hz => absurd rfl hz, fun hz => absurd rfl hz⟩,
        fun hz => absurd rfl hz, fun _ => rfl⟩
  | some addr =>
      have hsome : servingBlock s.heap (requestOrder s.heap size) ≠ none := by
        rw [hserve]
        exact Option.some_ne_none addr
      obtain ⟨ptr, h', hcall, hptr⟩ := mmAlloc_ne_zero endOfKernel R hsize hsome
      refine ⟨ptr, h', hcall, ⟨fun _ => Option.some_ne_none addr, fun _ => hptr⟩, fun _ => ?_,
        fun hz => absurd hz hptr⟩
      obtain ⟨left, b, right, mid, rfl, hfree, -, hfirst, hptr', R', hlevel, -⟩ :=
        mmAlloc_serves R hcall hptr
      obtain ⟨hle, hhead⟩ := R.serving_head hord (by simp) hfirst
      refine ⟨_, hlevel, by omega, fun k hk => ?_, b, by simp, hfree, hptr', hle, hhead, _, R'⟩
      have hshort := hmin k hk
      omega

/-- In a fresh page, whose largest payload is 2016 bytes, 2017 bytes are refused and 2016 are not. -/
theorem buddy_largest_free_block_predicts_page :
    ∃ h₁, mmInit blankHeap 0x10008 4096 = some h₁ ∧
      (∃ ptr h', mmAlloc 0x101000 h₁ 2016 = some (ptr, h') ∧ ptr ≠ 0) ∧
      ∃ h', mmAlloc 0x101000 h₁ 2017 = some (0, h') := by
  have hcalc : ((mmInit blankHeap 0x10008 4096).bind fun h => (mmGetStats h).map fun stats =>
      decide (h.mmInitializedFlag = true ∧ stats.totalBytes = 4048 ∧
        stats.largestFreeBlock = 2016)) = some true := by
    decide +kernel
  obtain ⟨h₁, hinit, hcalc⟩ := Option.bind_eq_some_iff.mp hcalc
  obtain ⟨stats', hstats', hcalc⟩ := Option.map_eq_some_iff.mp hcalc
  obtain ⟨hflag, htotal, hlargest⟩ := of_decide_eq_true hcalc
  have run : ReflTransGen (Step 0x101000) ⟨h₁, []⟩ ⟨h₁, []⟩ := .refl
  obtain ⟨_, _, stats, -, hstats, -, hall⟩ := buddy_largest_free_block_predicts (by decide) (by decide)
    (by decide) hinit hflag run
  dsimp only at hstats hall
  obtain rfl := Option.some_inj.mp (hstats.symm.trans hstats')
  have hserved := hall 2016 (by decide) (by rw [htotal]; decide +kernel)
  have hrefused := hall 2017 (by decide) (by rw [htotal]; decide +kernel)
  obtain ⟨ptr, h', hcall, hiff, -⟩ := hserved
  obtain ⟨ptr', h'', hcall', hiff', -⟩ := hrefused
  rw [hlargest] at hiff hiff'
  obtain rfl : ptr' = 0 := not_not.mp fun hne => absurd (hiff'.mp hne) (by decide +kernel)
  exact ⟨h₁, hinit, ⟨ptr, h', hcall, hiff.mpr (by decide +kernel)⟩, h'', hcall'⟩

end Runs
end SoKernel.Mm.Buddy
