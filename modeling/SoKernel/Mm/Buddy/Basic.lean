import Mathlib.Logic.Function.Basic
import SoKernel.Lib.Word64

/-!
# The buddy memory manager

Embedding of `Kernel/mm/mm_buddy.c`. As for the simple manager, memory is seen through
the fields of its header, here `struct buddy_block`, each a function of the header
address; a read at an address where no header was written gives whatever is there.
Addresses are 64-bit words and the null pointer is `0`.

A loop over memory that has not ended after `2 ^ 64` turns never ends, and its result
is `none`; the loops over levels end by themselves, because a level is a byte.
-/

namespace SoKernel.Mm.Buddy

open Function (update)

/-- The header fields of the whole memory and the static variables of the manager. -/
structure Heap where
  next : ℕ → ℕ
  prev : ℕ → ℕ
  level : ℕ → ℕ
  isFree : ℕ → ℕ
  freeLists : ℕ → ℕ
  baseBlockSize : ℕ
  mmInitializedFlag : Bool
  heapCapacityBytes : ℕ
  heapUsedBytes : ℕ
  heapAllocationCount : ℕ
  heapFreeCount : ℕ
  heapFailedAllocations : ℕ
  heapBase : ℕ
  heapUsableBytes : ℕ
  maxLevel : ℕ

/-- `MM_DEFAULT_HEAP_LIMIT`. -/
def mmDefaultHeapLimit : ℕ := 0x20000000

def mmPageSize : ℕ := 0x1000

def mmKernelStackPages : ℕ := 8

def minAlign : ℕ := 16

def mmMaxLevels : ℕ := 32

/-- The number of addresses, which bounds every terminating walk over headers. -/
def addressCount : ℕ := 2 ^ 64

def alignUpU64 (v a : ℕ) : ℕ :=
  Word64.sub (Word64.add v a) 1 &&& Word64.compl (Word64.sub a 1)

/-- The shift of `pow2_u64`; the levels of the manager stay below 32. -/
def pow2U64 (e : ℕ) : ℕ := 2 ^ e % 2 ^ 64

/-- `HDR_SIZE`: the header has 24 bytes, which are rounded up to the alignment. -/
def hdrSize : ℕ := alignUpU64 24 minAlign

def freeListsInit (h : Heap) : Heap :=
  { h with freeLists := fun l => if l < mmMaxLevels then 0 else h.freeLists l }

/-- The doubling loop shared by `order_for` and `mm_init`: the number of doublings of
`blk`, from `order` on, until it reaches `total` or no level is left. -/
def orderLoop (total : ℕ) : ℕ → ℕ → ℕ → ℕ
  | 0, _, order => order
  | levelsLeft + 1, blk, order =>
      if blk < total then orderLoop total levelsLeft (Word64.mul blk 2) (order + 1) else order

def orderFor (h : Heap) (sizeBytes : ℕ) : ℕ :=
  let total := if sizeBytes < h.baseBlockSize then h.baseBlockSize else sizeBytes
  orderLoop total (mmMaxLevels - 1) h.baseBlockSize 0

def pushFree (h : Heap) (b : ℕ) : Heap :=
  let h := { h with isFree := update h.isFree b 1 }
  let h := { h with prev := update h.prev b 0 }
  let h := { h with next := update h.next b (h.freeLists (h.level b)) }
  let h := if h.next b ≠ 0 then { h with prev := update h.prev (h.next b) b } else h
  { h with freeLists := update h.freeLists (h.level b) b }

/-- The popped block, `0` for `NULL`, with the new heap. -/
def popFree (h : Heap) (level : ℕ) : ℕ × Heap :=
  let b := h.freeLists level
  if b = 0 then (0, h)
  else
    let h := { h with freeLists := update h.freeLists level (h.next b) }
    let h := if h.freeLists level ≠ 0 then
        { h with prev := update h.prev (h.freeLists level) 0 }
      else h
    let h := { h with prev := update h.prev b 0, next := update h.next b 0 }
    (b, { h with isFree := update h.isFree b 0 })

/-- The size in bytes of a block of the given level. -/
def blockBytes (h : Heap) (level : ℕ) : ℕ := Word64.mul (pow2U64 level) h.baseBlockSize

/-- The header writes by which `split_down` makes a half of level `l` and lists it. -/
def pushHalf (h : Heap) (l half : ℕ) : Heap :=
  let h := { h with level := update h.level half l, isFree := update h.isFree half 1 }
  let h := { h with prev := update h.prev half 0, next := update h.next half 0 }
  pushFree h half

/-- The loop of `split_down`, with `to_level + steps` as its current level. -/
def splitDown (h : Heap) (toLevel : ℕ) : ℕ → ℕ × Heap
  | 0 => popFree h toLevel
  | steps + 1 =>
      let l := toLevel + (steps + 1)
      let popped := popFree h l
      if popped.1 = 0 then (0, popped.2)
      else
        let size := blockBytes h l
        let buddy := Word64.add popped.1 (size / 2)
        let h := pushHalf popped.2 (l - 1) buddy
        let h := pushHalf h (l - 1) popped.1
        splitDown h toLevel steps

def getBlockFromPtr (ptr : ℕ) : ℕ := if ptr = 0 then 0 else Word64.sub ptr hdrSize

def findBuddy (h : Heap) (blk : ℕ) : ℕ :=
  let offset := Word64.sub blk h.heapBase
  let blockSize := blockBytes h (h.level blk)
  let buddyOff := offset ^^^ blockSize
  if h.heapUsableBytes < Word64.add buddyOff blockSize then 0
  else Word64.add h.heapBase buddyOff

/-- The places `remove_from_free_list` points into: a list head or a `next` field. -/
inductive Slot where
  | listHead (level : ℕ)
  | nextOf (block : ℕ)
  deriving DecidableEq, Repr

def Slot.read (h : Heap) : Slot → ℕ
  | .listHead level => h.freeLists level
  | .nextOf block => h.next block

def Slot.write (h : Heap) (value : ℕ) : Slot → Heap
  | .listHead level => { h with freeLists := update h.freeLists level value }
  | .nextOf block => { h with next := update h.next block value }

/-- The search loop of `remove_from_free_list`. -/
def findSlot (h : Heap) (b : ℕ) : ℕ → Slot → Option Slot
  | 0, _ => none
  | fuel + 1, head =>
      if head.read h ≠ 0 ∧ head.read h ≠ b then findSlot h b fuel (.nextOf (head.read h))
      else some head

def removeFromFreeList (h : Heap) (b : ℕ) : Option Heap :=
  (findSlot h b addressCount (.listHead (h.level b))).map fun head =>
    if head.read h = b then
      let h := head.write h (h.next b)
      let h := if h.next b ≠ 0 then { h with prev := update h.prev (h.next b) (h.prev b) } else h
      { h with prev := update h.prev b 0, next := update h.next b 0 }
    else h

/-- The last three assignments of a turn of `coalesce`. -/
def takeParent (h : Heap) (blk : ℕ) : Heap :=
  { h with
    level := update h.level blk ((h.level blk + 1) % 256)
    isFree := update h.isFree blk 1 }

/-- The loop of `coalesce`; the level grows with every turn, and there are 256 of them. -/
def coalesceLoop : ℕ → Heap → ℕ → Option (ℕ × Heap)
  | 0, _, _ => none
  | fuel + 1, h, blk =>
      if h.level blk < h.maxLevel then
        let bud := findBuddy h blk
        if bud = 0 ∨ h.isFree bud = 0 ∨ h.level bud ≠ h.level blk then some (blk, h)
        else
          (removeFromFreeList h bud).bind fun h =>
            let blk := if bud < blk then bud else blk
            coalesceLoop fuel (takeParent h blk) blk
      else some (blk, h)

def coalesce (h : Heap) (blk : ℕ) : Option Heap :=
  (coalesceLoop 256 h blk).map fun merged => pushFree merged.2 merged.1

/-- The reset made by the checks of `mm_init`. -/
def rejectRegion (h : Heap) : Heap :=
  { h with mmInitializedFlag := false, heapCapacityBytes := 0, heapUsableBytes := 0 }

/-- `while (v < min_need) v <<= 1`, which ends after at most 64 turns. -/
def roundUpPow2 (minNeed : ℕ) : ℕ → ℕ → ℕ
  | 0, v => v
  | turns + 1, v => if v < minNeed then roundUpPow2 minNeed turns (Word64.mul v 2) else v

/-- The inner loop of `mm_init`: the largest level from `l` down whose block fits. -/
def fitLevel (h : Heap) (remaining : ℕ) : ℕ → ℕ
  | 0 => 0
  | l + 1 => if remaining < blockBytes h (l + 1) then fitLevel h remaining l else l + 1

/-- The header writes by which `mm_init` makes a block of level `l` and lists it. -/
def pushInitial (h : Heap) (l b : ℕ) : Heap :=
  let h := { h with prev := update h.prev b 0, next := update h.next b 0 }
  let h := { h with level := update h.level b l, isFree := update h.isFree b 1 }
  pushFree h b

/-- The outer loop of `mm_init`, which cuts the region into the blocks of the first layout. -/
def initBlocks : ℕ → Heap → ℕ → ℕ → Option Heap
  | 0, _, _, _ => none
  | fuel + 1, h, cur, remaining =>
      if remaining < h.baseBlockSize then some h
      else
        let l := fitLevel h remaining h.maxLevel
        let blkSize := blockBytes h l
        let h := pushInitial h l cur
        initBlocks fuel h (Word64.add cur blkSize) (Word64.sub remaining blkSize)

/-- The part of `mm_init` that follows its checks. -/
def initRegion (h : Heap) (alignedStart usable : ℕ) : Option Heap :=
  let h := { h with heapBase := alignedStart, heapUsableBytes := usable }
  let minNeed := Word64.add hdrSize 16
  let h := { h with baseBlockSize := roundUpPow2 minNeed 64 1 }
  let h := { h with maxLevel := orderLoop usable (mmMaxLevels - 1) h.baseBlockSize 0 }
  let h := freeListsInit h
  (initBlocks addressCount h alignedStart usable).map fun h =>
    { h with
      heapCapacityBytes := Word64.sub usable hdrSize
      heapUsedBytes := 0
      heapAllocationCount := 0
      heapFreeCount := 0
      heapFailedAllocations := 0
      mmInitializedFlag := true }

def mmInit (h : Heap) (heapStart heapSize : UInt64) : Option Heap :=
  let minNeedInit := Word64.add hdrSize 16
  if heapSize.toNat < minNeedInit then some (rejectRegion h)
  else
    let alignedStart := alignUpU64 heapStart.toNat minAlign
    let alignmentLoss := Word64.sub alignedStart heapStart.toNat
    if heapSize.toNat ≤ alignmentLoss then some (rejectRegion h)
    else
      let usable := Word64.sub heapSize.toNat alignmentLoss &&&
        Word64.compl (Word64.sub minAlign 1)
      if usable < minNeedInit then some (rejectRegion h)
      else initRegion h alignedStart usable

/-- The region handed to `mm_init` by default, as its start and size; the linker
provides the address of `endOfKernel`. -/
def mmDefaultRegion (endOfKernel : UInt64) : ℕ × ℕ :=
  let rawStart := Word64.add endOfKernel.toNat (mmPageSize * mmKernelStackPages)
  let alignedStart := alignUpU64 rawStart minAlign
  let heapLimit := mmDefaultHeapLimit
  if heapLimit ≤ alignedStart then (0, 0)
  else (alignedStart, heapLimit - alignedStart)

def mmInitDefault (endOfKernel : UInt64) (h : Heap) : Option Heap :=
  let region := mmDefaultRegion endOfKernel
  if region.1 ≠ 0 ∧ region.2 ≠ 0 then
    mmInit h (UInt64.ofNat region.1) (UInt64.ofNat region.2)
  else some h

/-- The loop of `mm_alloc` over the levels above `ord`: the first with a free block. -/
def firstLevelAbove (h : Heap) (ord : ℕ) : Option ℕ :=
  (List.range' (ord + 1) (h.maxLevel - ord)).find? fun l => decide (h.freeLists l ≠ 0)

/-- How `mm_alloc` obtains a block of level `ord`: from its own list, or by splitting a
block of the first level above that has one. -/
def takeBlock (h : Heap) (ord : ℕ) : ℕ × Heap :=
  let popped := popFree h ord
  if popped.1 ≠ 0 then popped
  else
    match firstLevelAbove popped.2 ord with
    | some l => splitDown popped.2 ord (l - ord)
    | none => (0, popped.2)

/-- The statistics `mm_alloc` updates; unlike the simple manager it counts no calls. -/
def countAllocation (h : Heap) (payload : ℕ) : Heap :=
  let used := Word64.add h.heapUsedBytes payload
  { h with heapUsedBytes := if h.heapCapacityBytes < used then h.heapCapacityBytes else used }

/-- The level of the block that a request for `size` bytes asks for. -/
def requestOrder (h : Heap) (size : UInt64) : ℕ :=
  orderFor h (Word64.add (alignUpU64 size.toNat minAlign) hdrSize)

/-- The part of `mm_alloc` that runs on an initialized heap. The result is the
returned pointer, `0` for `NULL`, with the new heap. -/
def allocInitialized (h : Heap) (size : UInt64) : ℕ × Heap :=
  if size = 0 then (0, h)
  else
    let ord := requestOrder h size
    let taken := takeBlock h ord
    let h := taken.2
    if taken.1 = 0 then
      (0, { h with heapFailedAllocations := Word64.add h.heapFailedAllocations 1 })
    else
      let h := { h with isFree := update h.isFree taken.1 0 }
      let payload := Word64.sub (blockBytes h ord) hdrSize
      (Word64.add taken.1 hdrSize, countAllocation h payload)

def mmAlloc (endOfKernel : UInt64) (h : Heap) (size : UInt64) : Option (ℕ × Heap) :=
  if h.mmInitializedFlag then some (allocInitialized h size)
  else
    (mmInitDefault endOfKernel h).map fun h =>
      if h.mmInitializedFlag then allocInitialized h size
      else (0, { h with heapFailedAllocations := Word64.add h.heapFailedAllocations 1 })

/-- The statistics `mm_free` updates for a block with the given payload. -/
def countFree (h : Heap) (payload : ℕ) : Heap :=
  { h with
    heapFreeCount := Word64.add h.heapFreeCount 1
    heapUsedBytes := if payload ≤ h.heapUsedBytes then h.heapUsedBytes - payload else 0 }

def mmFree (h : Heap) (ptr : ℕ) : Option Heap :=
  if ptr = 0 ∨ h.mmInitializedFlag = false then some h
  else
    let blk := getBlockFromPtr ptr
    if blk = 0 ∨ h.isFree blk ≠ 0 then some h
    else
      let h := { h with isFree := update h.isFree blk 1 }
      let payload := Word64.sub (blockBytes h (h.level blk)) hdrSize
      coalesce (countFree h payload) blk

end SoKernel.Mm.Buddy
