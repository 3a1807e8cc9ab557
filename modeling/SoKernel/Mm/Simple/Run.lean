import Mathlib.Logic.Relation
import SoKernel.Mm.Simple.Operations

/-!
# Runs of the simple memory manager

A run starts from a successful `mm_init` and interleaves allocations of any size, frees
of pointers that are still live, and writes of clients inside their payloads. Whatever
the run, the headers in memory describe one tiling of the heap.
-/

namespace SoKernel.Mm.Simple

open Function (update)
open Relation (ReflTransGen)

variable {lo hi : ℕ} {h h' : Heap} {blocks left right : List Block} {b c : Block}
variable {freeList : List ℕ}

/-- The memory with the pointers that have been returned and not yet freed. -/
structure System where
  heap : Heap
  live : List ℕ

/-- The number of bytes a client may use at a returned pointer. -/
def payloadSize (h : Heap) (ptr : ℕ) : ℕ := blockSize h (ptr - headerSize) - headerSize

/-- The header at `a` does not share a byte with the payload at `ptr`. -/
def Outside (h : Heap) (ptr a : ℕ) : Prop :=
  a + headerSize ≤ ptr ∨ ptr + payloadSize h ptr ≤ a

/-- A client write inside the payload at `ptr`. It may leave anything in the bytes where a
header could be read there, and changes nothing else. -/
structure ClientWrite (h : Heap) (ptr : ℕ) (h' : Heap) : Prop where
  sizeAndFlags : ∀ a, Outside h ptr a → h'.sizeAndFlags a = h.sizeAndFlags a
  prevPhys : ∀ a, Outside h ptr a → h'.prevPhys a = h.prevPhys a
  nextPhys : ∀ a, Outside h ptr a → h'.nextPhys a = h.nextPhys a
  prevFree : ∀ a, Outside h ptr a → h'.prevFree (.block a) = h.prevFree (.block a)
  nextFree : ∀ a, Outside h ptr a → h'.nextFree (.block a) = h.nextFree (.block a)
  prevFree_sentinel : h'.prevFree .sentinel = h.prevFree .sentinel
  nextFree_sentinel : h'.nextFree .sentinel = h.nextFree .sentinel
  mmInitializedFlag : h'.mmInitializedFlag = h.mmInitializedFlag
  heapCapacityBytes : h'.heapCapacityBytes = h.heapCapacityBytes
  heapUsedBytes : h'.heapUsedBytes = h.heapUsedBytes
  heapAllocationCount : h'.heapAllocationCount = h.heapAllocationCount
  heapFreeCount : h'.heapFreeCount = h.heapFreeCount
  heapFailedAllocations : h'.heapFailedAllocations = h.heapFailedAllocations

/-- One call of the manager, or one write of a client. -/
inductive Step (endOfKernel : UInt64) : System → System → Prop where
  | alloc {s : System} {size : UInt64} {ptr : ℕ} {h' : Heap} :
      mmAlloc endOfKernel s.heap size = some (ptr, h') →
      Step endOfKernel s ⟨h', if ptr = 0 then s.live else ptr :: s.live⟩
  | free {s : System} {ptr : ℕ} :
      ptr ∈ s.live → Step endOfKernel s ⟨mmFree s.heap ptr, s.live.erase ptr⟩
  | write {s : System} {ptr : ℕ} {h' : Heap} :
      ptr ∈ s.live → ClientWrite s.heap ptr h' → Step endOfKernel s ⟨h', s.live⟩

/-- The start of the heap that `mm_init` sets up in a region. -/
def alignedStart (heapStart : UInt64) : ℕ := alignUp heapStart.toNat mmAlignment

/-- The size of the heap that `mm_init` sets up in a region. -/
def usableBytes (heapStart heapSize : UInt64) : ℕ :=
  Word64.sub heapSize.toNat (Word64.sub (alignedStart heapStart) heapStart.toNat) &&&
    Word64.compl (Word64.sub mmAlignment 1)

/-- The invariant of runs: the heap represents some layout, and the live pointers are
the payload addresses of its allocated blocks. -/
structure Valid (lo hi : ℕ) (s : System) (blocks : List Block) (freeList : List ℕ) : Prop where
  represents : Represents lo hi s.heap blocks freeList
  initialized : s.heap.mmInitializedFlag = true
  live_nodup : s.live.Nodup
  mem_live : ∀ p, p ∈ s.live ↔ ∃ b ∈ allocatedBlocks blocks, p = b.address + headerSize

section Init

variable {heapStart heapSize : UInt64}

theorem alignedStart_spec (hstart : heapStart ≠ 0)
    (hwrap : heapStart.toNat + heapSize.toNat ≤ 2 ^ 64) (hsize : minBlockSize ≤ heapSize.toNat) :
    heapStart.toNat ≤ alignedStart heapStart ∧ alignedStart heapStart < heapStart.toNat + 16 ∧
      0 < alignedStart heapStart := by
  have hlt : heapStart.toNat < 2 ^ 64 := heapStart.toNat_lt
  have hpos : 0 < heapStart.toNat := by
    rcases Nat.eq_zero_or_pos heapStart.toNat with hz | hp
    · exact absurd (UInt64.toNat_inj.mp (by simpa using hz)) hstart
    · exact hp
  have halign : alignedStart heapStart = 16 * ((heapStart.toNat + 16 - 1) % 2 ^ 64 / 16) :=
    Word64.alignUp_eq (k := 4) hlt (by decide)
  have hmin : minBlockSize = 56 := rfl
  omega

theorem usableBytes_spec (hstart : heapStart ≠ 0)
    (hwrap : heapStart.toNat + heapSize.toNat ≤ 2 ^ 64) (hsize : minBlockSize ≤ heapSize.toNat) :
    2 ∣ usableBytes heapStart heapSize ∧
      alignedStart heapStart + usableBytes heapStart heapSize ≤
        heapStart.toNat + heapSize.toNat ∧
      heapStart.toNat + heapSize.toNat <
        alignedStart heapStart + usableBytes heapStart heapSize + mmAlignment := by
  obtain ⟨hle, hlt, -⟩ := alignedStart_spec hstart hwrap hsize
  have hmin : minBlockSize = 56 := rfl
  have hstartlt : heapStart.toNat < 2 ^ 64 := heapStart.toNat_lt
  have hsizelt : heapSize.toNat < 2 ^ 64 := heapSize.toNat_lt
  have hmask : Word64.sub mmAlignment 1 = 2 ^ 4 - 1 := by decide
  unfold usableBytes
  rw [hmask, Word64.sub_eq hle (by omega), Word64.sub_eq (by omega) (by omega),
    Word64.and_compl_mask (by omega) (by decide)]
  have halign : mmAlignment = 16 := rfl
  omega

/-- What `mm_init` does to the heap once all its checks have passed. -/
def setUp (h : Heap) (lo usable : ℕ) : Heap :=
  { freeListInsert (blockMarkFree { freeListInit h with
      sizeAndFlags := update h.sizeAndFlags lo usable
      prevPhys := update h.prevPhys lo 0
      nextPhys := update h.nextPhys lo 0 } lo) lo with
    heapCapacityBytes := Word64.sub usable headerSize
    heapUsedBytes := 0
    heapAllocationCount := 0
    heapFreeCount := 0
    heapFailedAllocations := 0
    mmInitializedFlag := true }

/-- A call of `mm_init` that passes all its checks. -/
theorem mmInit_eq_setUp {h₀ : Heap} (hsize : minBlockSize ≤ heapSize.toNat)
    (hstart : heapStart.toNat ≤ alignedStart heapStart)
    (hloss : Word64.sub (alignedStart heapStart) heapStart.toNat < heapSize.toNat)
    (husable : minBlockSize ≤ usableBytes heapStart heapSize) :
    mmInit h₀ heapStart heapSize =
      setUp h₀ (alignedStart heapStart) (usableBytes heapStart heapSize) := by
  simp only [usableBytes, alignedStart] at hstart hloss husable ⊢
  unfold mmInit
  rw [if_neg (not_lt.mpr hsize)]
  simp only [if_neg (not_lt.mpr hstart), if_neg (not_le.mpr hloss), if_neg (not_lt.mpr husable)]
  rfl

/-- A successful `mm_init` passes all its checks. -/
theorem mmInit_checks {h₀ : Heap}
    (hinit : (mmInit h₀ heapStart heapSize).mmInitializedFlag = true) :
    minBlockSize ≤ heapSize.toNat ∧ minBlockSize ≤ usableBytes heapStart heapSize ∧
      mmInit h₀ heapStart heapSize =
        setUp h₀ (alignedStart heapStart) (usableBytes heapStart heapSize) := by
  by_cases hsmall : heapSize.toNat < minBlockSize
  · rw [mmInit, if_pos hsmall] at hinit
    cases hinit
  by_cases hover : alignedStart heapStart < heapStart.toNat
  · simp only [alignedStart] at hover
    simp only [mmInit, if_neg hsmall, if_pos hover] at hinit
    cases hinit
  by_cases hloss : heapSize.toNat ≤ Word64.sub (alignedStart heapStart) heapStart.toNat
  · simp only [alignedStart] at hover hloss
    simp only [mmInit, if_neg hsmall, if_neg hover, if_pos hloss] at hinit
    cases hinit
  by_cases husable : usableBytes heapStart heapSize < minBlockSize
  · simp only [usableBytes, alignedStart] at hover hloss husable
    simp only [mmInit, if_neg hsmall, if_neg hover, if_neg hloss, if_pos husable] at hinit
    cases hinit
  exact ⟨not_lt.mp hsmall, not_lt.mp husable, mmInit_eq_setUp (not_lt.mp hsmall)
    (not_lt.mp hover) (not_le.mp hloss) (not_lt.mp husable)⟩

/-- Two units of alignment besides a block are enough for `mm_init` to succeed. -/
theorem mmInit_succeeds {h₀ : Heap} (hstart : heapStart ≠ 0)
    (hwrap : heapStart.toNat + heapSize.toNat ≤ 2 ^ 64)
    (hsize : minBlockSize + 2 * mmAlignment ≤ heapSize.toNat) :
    (mmInit h₀ heapStart heapSize).mmInitializedFlag = true := by
  have hmin : minBlockSize = 56 := rfl
  have halign : mmAlignment = 16 := rfl
  have hstartlt : heapStart.toNat < 2 ^ 64 := heapStart.toNat_lt
  obtain ⟨hle, hlt, -⟩ := alignedStart_spec hstart hwrap (by omega)
  obtain ⟨-, -, hmany⟩ := usableBytes_spec hstart hwrap (by omega)
  rw [mmInit_eq_setUp (by omega) hle ?_ (by omega)]
  · rfl
  · rw [Word64.sub_eq hle (by omega)]
    omega

theorem setUp_represents {usable : ℕ} (hlo : 0 < lo) (hhi : lo + usable ≤ 2 ^ 64)
    (hextent : usable + minBlockSize < 2 ^ 64) (hmin : minBlockSize ≤ usable) (heven : 2 ∣ usable)
    (h : Heap) :
    Represents lo (lo + usable) (setUp h lo usable) [⟨lo, usable, false⟩] [lo] := by
  have hword : usable &&& Word64.compl blockAllocatedFlag = usable := by
    rw [blockAllocatedFlag, Word64.and_compl_one (by omega)]
    omega
  refine ⟨⟨hlo, hhi, by omega, by simp, by simpa using hmin, by simpa using heven, ?_, lo, ?_⟩,
    ?_, ?_, by simp⟩
  · simp [setUp, Block.word, blockMarkFree, freeListInsert, hword]
  · simp [LinkedRing.Ring.singleton_iff, setUp, blockMarkFree, freeListInsert, freeListInit,
      hlo.ne, hlo.ne']
  · simp [FreeRing, LinkedRing.Ring.singleton_iff, setUp, blockMarkFree, freeListInsert,
      freeListInit]
  · intro a
    simp only [List.mem_singleton, exists_eq_left, and_true]
    exact ⟨Eq.symm, Eq.symm⟩

/-- The default limit leaves room above every heap. -/
theorem extent_of_limit (hlimit : heapSize.toNat ≤ mmDefaultHeapLimit) :
    heapSize.toNat + minBlockSize < 2 ^ 64 := by
  unfold mmDefaultHeapLimit at hlimit
  unfold minBlockSize headerSize mmAlignment
  omega

/-- A successful `mm_init` leaves one free block that fills the aligned region. -/
theorem mmInit_represents {h₀ : Heap} (hstart : heapStart ≠ 0)
    (hwrap : heapStart.toNat + heapSize.toNat ≤ 2 ^ 64)
    (hextent : heapSize.toNat + minBlockSize < 2 ^ 64)
    (hinit : (mmInit h₀ heapStart heapSize).mmInitializedFlag = true) :
    Represents (alignedStart heapStart) (alignedStart heapStart + usableBytes heapStart heapSize)
      (mmInit h₀ heapStart heapSize)
      [⟨alignedStart heapStart, usableBytes heapStart heapSize, false⟩]
      [alignedStart heapStart] := by
  obtain ⟨hsize, husable, heq⟩ := mmInit_checks hinit
  obtain ⟨hle, -, hpos⟩ := alignedStart_spec hstart hwrap hsize
  obtain ⟨heven, hhi, -⟩ := usableBytes_spec hstart hwrap hsize
  rw [heq]
  exact setUp_represents hpos (by omega) (by omega) husable heven h₀

end Init

section Steps

variable {s s' : System} {endOfKernel size : UInt64} {ptr : ℕ}

theorem allocatedBlocks_carve (b : Block) (required : ℕ) :
    ∃ c : Block, c.address = b.address ∧ c.allocated = true ∧
      c.size = (if b.size < required + minBlockSize then b.size else required) ∧
      allocatedBlocks (carve b required) = [c] := by
  by_cases hsmall : b.size < required + minBlockSize
  · exact ⟨{ b with allocated := true }, rfl, rfl, by simp [hsmall],
      by simp [allocatedBlocks, carve, hsmall]⟩
  · exact ⟨⟨b.address, required, true⟩, rfl, rfl, by simp [hsmall],
      by simp [allocatedBlocks, carve, hsmall]⟩

theorem mem_allocatedBlocks : b ∈ allocatedBlocks blocks ↔ b ∈ blocks ∧ b.allocated = true := by
  simp [allocatedBlocks]

/-- The allocated blocks besides one block of the layout. -/
theorem Chained.mem_allocatedBlocks_cut (C : Chained lo hi h (left ++ b :: right)) (x : Block) :
    x ∈ allocatedBlocks (left ++ right) ↔
      x ∈ allocatedBlocks (left ++ b :: right) ∧ x.address ≠ b.address := by
  simp only [mem_allocatedBlocks, List.mem_append, List.mem_cons]
  constructor
  · rintro ⟨hx, hxa⟩
    exact ⟨⟨hx.imp_right Or.inr, hxa⟩, C.address_ne (by simpa using hx)⟩
  · rintro ⟨⟨hx | rfl | hx, hxa⟩, hne⟩
    · exact ⟨Or.inl hx, hxa⟩
    · exact absurd rfl hne
    · exact ⟨Or.inr hx, hxa⟩

namespace Valid

/-- A live pointer stands right after the header of an allocated block. -/
theorem live_block (V : Valid lo hi s blocks freeList) (hptr : ptr ∈ s.live) :
    ∃ left b right, blocks = left ++ b :: right ∧ b.allocated = true ∧
      ptr = b.address + headerSize := by
  obtain ⟨b, hb, rfl⟩ := (V.mem_live ptr).mp hptr
  obtain ⟨hmem, halloc⟩ := mem_allocatedBlocks.mp hb
  obtain ⟨left, right, rfl⟩ := List.append_of_mem hmem
  exact ⟨left, b, right, rfl, halloc, rfl⟩

/-- An allocation adds at most the block it carves. -/
theorem alloc (V : Valid lo hi s blocks freeList)
    (hcall : mmAlloc endOfKernel s.heap size = some (ptr, h')) :
    ∃ blocks' freeList',
      Valid lo hi ⟨h', if ptr = 0 then s.live else ptr :: s.live⟩ blocks' freeList' := by
  obtain ⟨ptr', h'', hspec, hflag, hcases⟩ := mmAlloc_spec V.represents V.initialized
    endOfKernel size
  obtain ⟨rfl, rfl⟩ : ptr = ptr' ∧ h' = h'' := by
    rw [hcall] at hspec
    simpa using hspec
  rcases hcases with ⟨rfl, R', -⟩ | ⟨left, b, right, rfl, hb, -, rfl, -, -, R'⟩
  · exact ⟨blocks, freeList, R', hflag, V.live_nodup, V.mem_live⟩
  · have hnz : b.address + headerSize ≠ 0 := by
      have hpos := V.represents.chained.address_pos (b := b) (by simp)
      omega
    obtain ⟨c, hca, -, -, hcarve⟩ := allocatedBlocks_carve b (requiredSize size)
    have hfresh : b.address + headerSize ∉ s.live := by
      intro hlive
      obtain ⟨x, hx, heq⟩ := (V.mem_live _).mp hlive
      obtain ⟨hx, hxa⟩ := mem_allocatedBlocks.mp hx
      have hxb := V.represents.chained.address_injective hx (c := b) (by simp) (by omega)
      simp [hxb, hb] at hxa
    refine ⟨_, _, R', hflag, ?_, ?_⟩
    · rw [if_neg hnz]
      exact List.nodup_cons.mpr ⟨hfresh, V.live_nodup⟩
    · intro p
      have hold := V.mem_live p
      simp only [allocatedBlocks, List.filter_append, List.mem_append, List.filter_cons, hb,
        Bool.false_eq_true, if_false] at hold
      simp only [allocatedBlocks] at hcarve
      simp only [hnz, if_false, List.mem_cons, allocatedBlocks, List.filter_append,
        List.mem_append, hcarve, hold, List.not_mem_nil, or_false]
      constructor
      · rintro (rfl | ⟨x, hx, rfl⟩)
        · exact ⟨c, Or.inl (Or.inr rfl), by rw [hca]⟩
        · exact ⟨x, by tauto, rfl⟩
      · rintro ⟨x, (hx | rfl) | hx, rfl⟩
        · exact Or.inr ⟨x, Or.inl hx, rfl⟩
        · exact Or.inl (by rw [hca])
        · exact Or.inr ⟨x, Or.inr hx, rfl⟩

/-- Freeing a live pointer removes its block and keeps the others. -/
theorem free (V : Valid lo hi s blocks freeList) (hptr : ptr ∈ s.live) :
    ∃ blocks' freeList', Valid lo hi ⟨mmFree s.heap ptr, s.live.erase ptr⟩ blocks' freeList' ∧
      ∀ x, x ∈ allocatedBlocks blocks' ↔
        x ∈ allocatedBlocks blocks ∧ x.address + headerSize ≠ ptr := by
  obtain ⟨left, b, right, rfl, hb, rfl⟩ := V.live_block hptr
  obtain ⟨hflag, blocks', freeList', R', hsame⟩ := mmFree_spec V.represents hb V.initialized
  have hcut : ∀ x, x ∈ allocatedBlocks blocks' ↔
      x ∈ allocatedBlocks (left ++ b :: right) ∧ x.address + headerSize ≠
        b.address + headerSize := by
    intro x
    rw [hsame, V.represents.chained.mem_allocatedBlocks_cut, ne_eq, ne_eq, Nat.add_right_cancel_iff]
  refine ⟨blocks', freeList', ⟨R', hflag, V.live_nodup.erase _, fun p => ?_⟩, hcut⟩
  rw [V.live_nodup.mem_erase_iff, V.mem_live]
  constructor
  · rintro ⟨hne, x, hx, rfl⟩
    exact ⟨x, (hcut x).mpr ⟨hx, hne⟩, rfl⟩
  · rintro ⟨x, hx, rfl⟩
    obtain ⟨hx, hne⟩ := (hcut x).mp hx
    exact ⟨hne, x, hx, rfl⟩

/-- No header of the heap shares a byte with a live payload. -/
theorem header_outside (V : Valid lo hi s blocks freeList) (hptr : ptr ∈ s.live)
    (hb : b ∈ blocks) : Outside s.heap ptr b.address := by
  obtain ⟨left, c, right, rfl, hc, rfl⟩ := V.live_block hptr
  have hsize := V.represents.chained.blockSize_eq (b := c) (by simp)
  have hcge := V.represents.chained.size_ge c (by simp)
  have hbge := V.represents.chained.size_ge b hb
  have hmin : minBlockSize = 56 := rfl
  have hhdr : headerSize = 40 := rfl
  unfold Outside payloadSize
  rw [Nat.add_sub_cancel, hsize]
  rcases V.represents.chained.tiles.eq_or_disjoint hb (y := c) (by simp) with rfl | hd
  · omega
  · omega

/-- A client that writes inside its payload disturbs no header and no list. -/
theorem write (V : Valid lo hi s blocks freeList) (hptr : ptr ∈ s.live)
    (hw : ClientWrite s.heap ptr h') : Valid lo hi ⟨h', s.live⟩ blocks freeList where
  represents :=
    { chained := V.represents.chained.congr
        (fun _ hb => hw.sizeAndFlags _ (V.header_outside hptr hb))
        (fun _ hb => hw.nextPhys _ (V.header_outside hptr hb))
        (fun _ hb => hw.prevPhys _ (V.header_outside hptr hb))
      ring := by
        refine V.represents.ring.congr ?_ ?_
        all_goals
          intro a ha
          rcases List.mem_cons.mp ha with rfl | ha
          · first | exact hw.nextFree_sentinel | exact hw.prevFree_sentinel
          · obtain ⟨x, hx, rfl⟩ := List.mem_map.mp ha
            obtain ⟨b, hb, rfl, -⟩ := (V.represents.mem_freeList x).mp hx
            have hout := V.header_outside hptr hb
            first | exact hw.nextFree _ hout | exact hw.prevFree _ hout
      mem_freeList := V.represents.mem_freeList
      separated := V.represents.separated }
  initialized := hw.mmInitializedFlag.trans V.initialized
  live_nodup := V.live_nodup
  mem_live := V.mem_live

/-- One step keeps the invariant. -/
theorem step (V : Valid lo hi s blocks freeList) (hstep : Step endOfKernel s s') :
    ∃ blocks' freeList', Valid lo hi s' blocks' freeList' := by
  cases hstep with
  | alloc hcall => exact V.alloc hcall
  | free hptr =>
      obtain ⟨blocks', freeList', V', -⟩ := V.free hptr
      exact ⟨blocks', freeList', V'⟩
  | write hptr hw => exact ⟨blocks, freeList, V.write hptr hw⟩

/-- A whole run keeps the invariant. -/
theorem run (V : Valid lo hi s blocks freeList) (hrun : ReflTransGen (Step endOfKernel) s s') :
    ∃ blocks' freeList', Valid lo hi s' blocks' freeList' := by
  induction hrun with
  | refl => exact ⟨blocks, freeList, V⟩
  | tail _ hstep ih =>
      obtain ⟨blocks', freeList', V'⟩ := ih
      exact V'.step hstep

/-- The payloads of two live pointers do not meet. -/
theorem payloads_disjoint (V : Valid lo hi s blocks freeList) {p q : ℕ} (hp : p ∈ s.live)
    (hq : q ∈ s.live) (hne : p ≠ q) :
    p + payloadSize s.heap p ≤ q ∨ q + payloadSize s.heap q ≤ p := by
  obtain ⟨b, hb, rfl⟩ := (V.mem_live p).mp hp
  obtain ⟨c, hc, rfl⟩ := (V.mem_live q).mp hq
  obtain ⟨hb, -⟩ := mem_allocatedBlocks.mp hb
  obtain ⟨hc, -⟩ := mem_allocatedBlocks.mp hc
  have hbge := V.represents.chained.size_ge b hb
  have hcge := V.represents.chained.size_ge c hc
  have hmin : minBlockSize = 56 := rfl
  have hhdr : headerSize = 40 := rfl
  unfold payloadSize
  rw [Nat.add_sub_cancel, Nat.add_sub_cancel, V.represents.chained.blockSize_eq hb,
    V.represents.chained.blockSize_eq hc]
  rcases V.represents.chained.tiles.eq_or_disjoint hb hc with rfl | hd
  · exact absurd rfl hne
  · omega

/-- The payload of a live pointer lies inside the heap. -/
theorem payload_inside (V : Valid lo hi s blocks freeList) (hptr : ptr ∈ s.live) :
    lo ≤ ptr ∧ ptr + payloadSize s.heap ptr ≤ hi := by
  obtain ⟨left, b, right, rfl, -, rfl⟩ := V.live_block hptr
  have hbound := V.represents.chained.bounds (b := b) (by simp)
  have hge := V.represents.chained.size_ge b (by simp)
  have hmin : minBlockSize = 56 := rfl
  have hhdr : headerSize = 40 := rfl
  unfold payloadSize
  rw [Nat.add_sub_cancel, V.represents.chained.blockSize_eq (by simp)]
  omega

end Valid

theorem mmInit_valid {h₀ : Heap} {heapStart heapSize : UInt64} (hstart : heapStart ≠ 0)
    (hwrap : heapStart.toNat + heapSize.toNat ≤ 2 ^ 64)
    (hextent : heapSize.toNat + minBlockSize < 2 ^ 64)
    (hinit : (mmInit h₀ heapStart heapSize).mmInitializedFlag = true) :
    Valid (alignedStart heapStart) (alignedStart heapStart + usableBytes heapStart heapSize)
      ⟨mmInit h₀ heapStart heapSize, []⟩
      [⟨alignedStart heapStart, usableBytes heapStart heapSize, false⟩]
      [alignedStart heapStart] :=
  ⟨mmInit_represents hstart hwrap hextent hinit, hinit, List.nodup_nil, by simp [allocatedBlocks]⟩

/-- After a successful `mm_init` and any run of allocations, frees of live pointers and
client writes, the chain of headers tiles the heap and the free list holds exactly its
free blocks, no two of which are adjacent. So the payloads of live pointers lie inside
the heap, do not meet each other and do not meet a header; and the next allocation
returns. -/
theorem representation_invariant {h₀ : Heap} {heapStart heapSize : UInt64}
    (hstart : heapStart ≠ 0) (hwrap : heapStart.toNat + heapSize.toNat ≤ 2 ^ 64)
    (hlimit : heapSize.toNat ≤ mmDefaultHeapLimit)
    (hinit : (mmInit h₀ heapStart heapSize).mmInitializedFlag = true)
    (hrun : ReflTransGen (Step endOfKernel) ⟨mmInit h₀ heapStart heapSize, []⟩ s) :
    ∃ blocks freeList,
      Represents (alignedStart heapStart)
        (alignedStart heapStart + usableBytes heapStart heapSize) s.heap blocks freeList ∧
      freeList.Nodup ∧
      (∀ p, p ∈ s.live ↔ ∃ b ∈ blocks, b.allocated = true ∧ p = b.address + headerSize) ∧
      (∀ p ∈ s.live, alignedStart heapStart ≤ p ∧ p + payloadSize s.heap p ≤
        alignedStart heapStart + usableBytes heapStart heapSize) ∧
      (∀ p ∈ s.live, ∀ q ∈ s.live, p ≠ q →
        p + payloadSize s.heap p ≤ q ∨ q + payloadSize s.heap q ≤ p) ∧
      (∀ p ∈ s.live, ∀ b ∈ blocks, Outside s.heap p b.address) ∧
      ∀ size, ∃ ptr h', mmAlloc endOfKernel s.heap size = some (ptr, h') := by
  obtain ⟨blocks, freeList, V⟩ := (mmInit_valid hstart hwrap (extent_of_limit hlimit) hinit).run hrun
  refine ⟨blocks, freeList, V.represents, V.represents.ring.nodup, ?_,
    fun _ => V.payload_inside, fun _ hp _ hq => V.payloads_disjoint hp hq,
    fun _ hp _ hb => V.header_outside hp hb, ?_⟩
  · intro p
    rw [V.mem_live]
    simp only [mem_allocatedBlocks, and_assoc]
  · intro size
    obtain ⟨ptr, h', hcall, -⟩ := mmAlloc_spec V.represents V.initialized endOfKernel size
    exact ⟨ptr, h', hcall⟩

/-- Memory that holds zeros, before the manager is set up. -/
def blankHeap : Heap where
  sizeAndFlags := fun _ => 0
  prevPhys := fun _ => 0
  nextPhys := fun _ => 0
  prevFree := fun _ => .null
  nextFree := fun _ => .null
  mmInitializedFlag := false
  heapCapacityBytes := 0
  heapUsedBytes := 0
  heapAllocationCount := 0
  heapFreeCount := 0
  heapFailedAllocations := 0

/-- A region of one page at `0x10008`, after one allocation of 100 bytes. -/
theorem representation_invariant_page :
    ∃ s, ReflTransGen (Step 0x101000) ⟨mmInit blankHeap 0x10008 4096, []⟩ s ∧
      s.live = [0x10038] ∧
      ∃ blocks freeList, Represents 0x10010 (0x10010 + 4080) s.heap blocks freeList := by
  have hcall : ∃ h', mmAlloc 0x101000 (mmInit blankHeap 0x10008 4096) 100 = some (0x10038, h') := by
    have hsome : ((mmAlloc 0x101000 (mmInit blankHeap 0x10008 4096) 100).map Prod.fst) =
        some 0x10038 := by
      decide +kernel
    obtain ⟨⟨p, h'⟩, hp, rfl⟩ := Option.map_eq_some_iff.mp hsome
    exact ⟨h', hp⟩
  obtain ⟨h', hcall⟩ := hcall
  have hrun : ReflTransGen (Step 0x101000) ⟨mmInit blankHeap 0x10008 4096, []⟩
      ⟨h', [0x10038]⟩ := by
    generalize mmInit blankHeap 0x10008 4096 = h₁ at hcall
    have hstep := Step.alloc (s := ⟨h₁, []⟩) hcall
    rw [if_neg (by decide)] at hstep
    exact ReflTransGen.single hstep
  obtain ⟨blocks, freeList, R, -⟩ := representation_invariant (by decide) (by decide) (by decide)
    (by decide +kernel) hrun
  have hlo : alignedStart 0x10008 = 0x10010 := by decide +kernel
  have husable : usableBytes 0x10008 4096 = 4080 := by decide +kernel
  rw [hlo, husable] at R
  exact ⟨⟨h', [0x10038]⟩, hrun, rfl, blocks, freeList, R⟩

end Steps
end SoKernel.Mm.Simple
