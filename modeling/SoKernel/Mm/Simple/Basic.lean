import Mathlib.Logic.Function.Basic
import SoKernel.Lib.LinkedRing
import SoKernel.Lib.Word64

/-!
# The simple (first-fit) memory manager

Embedding of `Kernel/mm/mm_simple.c`. Memory is seen through the fields of
`struct block_header`: each field is a function of the header address, so writing
one field of one header leaves every other field and header alone. Addresses are
64-bit words and the null pointer is `0`. The free-list links may also point to the
static object `free_list_sentinel`, which is not part of the heap.

The loops over the free list are given one step for each of the `2 ^ 64` addresses;
a loop that is still running after that visits some header twice and never ends, and
its result is `none`.
-/

namespace SoKernel.Mm.Simple

open Function (update)

/-- A value of `prev_free` or `next_free`. -/
inductive FreePtr where
  | null
  | sentinel
  | block (address : ℕ)
  deriving DecidableEq, Repr

/-- The header fields of the whole memory and the static variables of the manager. -/
structure Heap where
  sizeAndFlags : ℕ → ℕ
  prevPhys : ℕ → ℕ
  nextPhys : ℕ → ℕ
  prevFree : FreePtr → FreePtr
  nextFree : FreePtr → FreePtr
  mmInitializedFlag : Bool
  heapCapacityBytes : ℕ
  heapUsedBytes : ℕ
  heapAllocationCount : ℕ
  heapFreeCount : ℕ
  heapFailedAllocations : ℕ

/-- `MM_DEFAULT_HEAP_LIMIT`. -/
def mmDefaultHeapLimit : ℕ := 0x20000000

def mmPageSize : ℕ := 0x1000

def mmKernelStackPages : ℕ := 8

def mmAlignment : ℕ := 16

def blockAllocatedFlag : ℕ := 1

/-- `sizeof(block_header_t)`: five 8-byte fields. -/
def headerSize : ℕ := 40

def minBlockSize : ℕ := headerSize + mmAlignment

/-- The number of addresses, which bounds every terminating walk over headers. -/
def addressCount : ℕ := 2 ^ 64

def alignUp (value alignment : ℕ) : ℕ :=
  Word64.sub (Word64.add value alignment) 1 &&& Word64.compl (Word64.sub alignment 1)

def blockSize (h : Heap) (block : ℕ) : ℕ :=
  h.sizeAndFlags block &&& Word64.compl blockAllocatedFlag

def blockIsAllocated (h : Heap) (block : ℕ) : Bool :=
  h.sizeAndFlags block &&& blockAllocatedFlag != 0

def blockMarkAllocated (h : Heap) (block : ℕ) : Heap :=
  { h with
    sizeAndFlags := update h.sizeAndFlags block (h.sizeAndFlags block ||| blockAllocatedFlag) }

def blockMarkFree (h : Heap) (block : ℕ) : Heap :=
  { h with
    sizeAndFlags := update h.sizeAndFlags block
      (h.sizeAndFlags block &&& Word64.compl blockAllocatedFlag) }

def freeListInit (h : Heap) : Heap :=
  { h with
    prevFree := update h.prevFree .sentinel .sentinel
    nextFree := update h.nextFree .sentinel .sentinel }

def freeListInsert (h : Heap) (block : ℕ) : Heap :=
  let h := { h with prevFree := update h.prevFree (.block block) .sentinel }
  let h := { h with nextFree := update h.nextFree (.block block) (h.nextFree .sentinel) }
  let h := { h with prevFree := update h.prevFree (h.nextFree .sentinel) (.block block) }
  { h with nextFree := update h.nextFree .sentinel (.block block) }

def freeListRemove (h : Heap) (block : ℕ) : Heap :=
  let h := { h with
    nextFree := update h.nextFree (h.prevFree (.block block)) (h.nextFree (.block block)) }
  let h := { h with
    prevFree := update h.prevFree (h.nextFree (.block block)) (h.prevFree (.block block)) }
  { h with
    prevFree := update h.prevFree (.block block) .null
    nextFree := update h.nextFree (.block block) .null }

/-- The address a free-list pointer denotes; only ever used on heap blocks. -/
def FreePtr.address : FreePtr → ℕ
  | .block a => a
  | _ => 0

/-- The result is the address of the block found, or `0` when there is none. -/
def findFirstFit (h : Heap) (requiredSize : ℕ) : Option ℕ :=
  (LinkedRing.walkFind h.nextFree .sentinel
    (fun current => decide (requiredSize ≤ blockSize h current.address))
    addressCount (h.nextFree .sentinel)).map (fun found => (found.map FreePtr.address).getD 0)

/-- The function always returns its argument `block`; only the heap is given. -/
def splitBlockIfPossible (h : Heap) (block requiredSize : ℕ) : Heap :=
  let totalSize := blockSize h block
  if totalSize < Word64.add requiredSize minBlockSize then h
  else
    let remainingSize := Word64.sub totalSize requiredSize
    let newBlock := Word64.add block requiredSize
    let h := { h with sizeAndFlags := update h.sizeAndFlags newBlock remainingSize }
    let h := { h with prevPhys := update h.prevPhys newBlock block }
    let h := { h with nextPhys := update h.nextPhys newBlock (h.nextPhys block) }
    let h := if h.nextPhys newBlock ≠ 0 then
        { h with prevPhys := update h.prevPhys (h.nextPhys newBlock) newBlock }
      else h
    let h := { h with nextPhys := update h.nextPhys block newBlock }
    let h := { h with
      sizeAndFlags := update h.sizeAndFlags block
        (requiredSize ||| (h.sizeAndFlags block &&& blockAllocatedFlag)) }
    let h := blockMarkFree h newBlock
    let h := { h with
      prevFree := update h.prevFree (.block newBlock) .null
      nextFree := update h.nextFree (.block newBlock) .null }
    freeListInsert h newBlock

/-- The three assignments by which `coalesce_with_neighbors` lets the header `left`
take over the block `right` that follows it. -/
def absorbNext (h : Heap) (left right : ℕ) : Heap :=
  let h := { h with
    sizeAndFlags := update h.sizeAndFlags left
      (Word64.add (blockSize h left) (blockSize h right)) }
  let h := { h with nextPhys := update h.nextPhys left (h.nextPhys right) }
  if h.nextPhys right ≠ 0 then
    { h with prevPhys := update h.prevPhys (h.nextPhys right) left }
  else h

/-- The first `if` of `coalesce_with_neighbors`: merging into the left neighbour. -/
def coalesceLeft (h : Heap) (block prev : ℕ) : ℕ × Heap :=
  if prev ≠ 0 ∧ blockIsAllocated h prev = false then
    (prev, absorbNext (freeListRemove h prev) prev block)
  else (block, h)

/-- The second `if`: merging the right neighbour into the (possibly moved) block. -/
def coalesceRight (h : Heap) (block next : ℕ) : Heap :=
  if next ≠ 0 ∧ blockIsAllocated h next = false then
    absorbNext (freeListRemove h next) block next
  else h

/-- Both neighbours are read before either merge, as in the source. -/
def coalesceWithNeighbors (h : Heap) (block : ℕ) : ℕ × Heap :=
  let prev := h.prevPhys block
  let next := h.nextPhys block
  let merged := coalesceLeft h block prev
  (merged.1, coalesceRight merged.2 merged.1 next)

/-- The reset made by the two size checks of `mm_init`. -/
def resetCounters (h : Heap) : Heap :=
  { h with
    mmInitializedFlag := false
    heapCapacityBytes := 0
    heapUsedBytes := 0
    heapAllocationCount := 0
    heapFreeCount := 0
    heapFailedAllocations := 0 }

def mmInit (h : Heap) (heapStart heapSize : UInt64) : Heap :=
  if heapSize.toNat < minBlockSize then resetCounters h
  else
    let alignedStart := alignUp heapStart.toNat mmAlignment
    if alignedStart < heapStart.toNat then { h with mmInitializedFlag := false }
    else
      let alignmentLoss := Word64.sub alignedStart heapStart.toNat
      if heapSize.toNat ≤ alignmentLoss then { h with mmInitializedFlag := false }
      else
        let usableBytes := Word64.sub heapSize.toNat alignmentLoss &&&
          Word64.compl (Word64.sub mmAlignment 1)
        if usableBytes < minBlockSize then resetCounters h
        else
          let h := freeListInit h
          let initialBlock := alignedStart
          let h := { h with sizeAndFlags := update h.sizeAndFlags initialBlock usableBytes }
          let h := { h with prevPhys := update h.prevPhys initialBlock 0 }
          let h := { h with nextPhys := update h.nextPhys initialBlock 0 }
          let h := blockMarkFree h initialBlock
          let h := freeListInsert h initialBlock
          { h with
            heapCapacityBytes := Word64.sub usableBytes headerSize
            heapUsedBytes := 0
            heapAllocationCount := 0
            heapFreeCount := 0
            heapFailedAllocations := 0
            mmInitializedFlag := true }

/-- The region handed to `mm_init` by default, as its start and size; the linker
provides the address of `endOfKernel`. -/
def mmDefaultRegion (endOfKernel : UInt64) : ℕ × ℕ :=
  let rawStart := Word64.add endOfKernel.toNat (mmPageSize * mmKernelStackPages)
  let alignedStart := alignUp rawStart mmAlignment
  let heapLimit := mmDefaultHeapLimit
  if heapLimit ≤ alignedStart then (0, 0)
  else (alignedStart, heapLimit - alignedStart)

def mmInitDefault (endOfKernel : UInt64) (h : Heap) : Heap :=
  let region := mmDefaultRegion endOfKernel
  if region.1 ≠ 0 ∧ 0 < region.2 then
    mmInit h (UInt64.ofNat region.1) (UInt64.ofNat region.2)
  else h

/-- The size of the block a request for `size` bytes asks for. -/
def requiredSize (size : UInt64) : ℕ :=
  let alignedSize := alignUp size.toNat mmAlignment
  let requiredSize := Word64.add alignedSize headerSize
  if requiredSize < minBlockSize then minBlockSize else requiredSize

/-- The statistics `mm_alloc` updates for a block with the given payload. -/
def countAllocation (h : Heap) (payloadSize : ℕ) : Heap :=
  let used := Word64.add h.heapUsedBytes payloadSize
  { h with
    heapUsedBytes := if h.heapCapacityBytes < used then h.heapCapacityBytes else used
    heapAllocationCount := Word64.add h.heapAllocationCount 1 }

/-- The statistics `mm_free` updates for a block with the given payload. -/
def countFree (h : Heap) (payloadSize : ℕ) : Heap :=
  { h with
    heapFreeCount := Word64.add h.heapFreeCount 1
    heapUsedBytes := if payloadSize ≤ h.heapUsedBytes then h.heapUsedBytes - payloadSize else 0 }

/-- The part of `mm_alloc` that follows a successful search. -/
def allocateBlock (h : Heap) (block requiredSize : ℕ) : ℕ × Heap :=
  let h := freeListRemove h block
  let h := splitBlockIfPossible h block requiredSize
  let h := blockMarkAllocated h block
  let payloadSize := Word64.sub (blockSize h block) headerSize
  (Word64.add block headerSize, countAllocation h payloadSize)

/-- The part of `mm_alloc` that runs on an initialized heap. The result is the
returned pointer, `0` for `NULL`, with the new heap. -/
def allocInitialized (h : Heap) (size : UInt64) : Option (ℕ × Heap) :=
  if size = 0 then some (0, h)
  else
    (findFirstFit h (requiredSize size)).map fun block =>
      if block = 0 then
        (0, { h with heapFailedAllocations := Word64.add h.heapFailedAllocations 1 })
      else allocateBlock h block (requiredSize size)

def mmAlloc (endOfKernel : UInt64) (h : Heap) (size : UInt64) : Option (ℕ × Heap) :=
  if h.mmInitializedFlag then allocInitialized h size
  else
    let h := mmInitDefault endOfKernel h
    if h.mmInitializedFlag then allocInitialized h size
    else some (0, { h with heapFailedAllocations := Word64.add h.heapFailedAllocations 1 })

def mmFree (h : Heap) (ptr : ℕ) : Heap :=
  if ptr = 0 ∨ h.mmInitializedFlag = false then h
  else
    let block := Word64.sub ptr headerSize
    if blockIsAllocated h block = false then h
    else
      let h := blockMarkFree h block
      let payloadSize := Word64.sub (blockSize h block) headerSize
      let h := countFree h payloadSize
      let h := { h with
        prevFree := update h.prevFree (.block block) .null
        nextFree := update h.nextFree (.block block) .null }
      let merged := coalesceWithNeighbors h block
      freeListInsert merged.2 merged.1

end SoKernel.Mm.Simple
