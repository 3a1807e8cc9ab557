import Mathlib.Logic.Relation
import SoKernel.Mm.Buddy.Operations

/-!
# Runs of the buddy memory manager

The layout set up by `mm_init`, and what allocations of any size, frees of live pointers
and writes of clients inside their payloads keep of it.
-/

namespace SoKernel.Mm.Buddy

open Function (update)
open Relation (ReflTransGen)

variable {lo count maxLevel l usable : ℕ} {h h' : Heap} {blocks left right : List Block}
variable {b c : Block} {lists : ℕ → List ℕ}

section Init

variable {heapStart heapSize : UInt64}

/-- Appending a held block to the managed part of the heap. -/
theorem Layout.extend (Y : Layout lo count maxLevel h blocks lists)
    (hhigh : lo + unitBytes * (count + 2 ^ l) ≤ 2 ^ 64) (hdvd : 2 ^ l ∣ count)
    (hl : l ≤ maxLevel) :
    Layout lo (count + 2 ^ l) maxLevel h (blocks ++ [⟨count, l, .held⟩]) lists := by
  have hold : ∀ x ∈ blocks ++ [⟨count, l, .held⟩], x.status ≠ .held → x ∈ blocks := by
    intro x hx hxh
    rcases List.mem_append.mp hx with hx | hx
    · exact hx
    · rw [List.mem_singleton.mp hx] at hxh
      exact absurd rfl hxh
  refine ⟨Y.low_pos, hhigh, Y.maxLevel_lt, ?_, ?_, ?_, ?_, ?_, ?_, Y.ring, ?_⟩
  · exact Tiling.tiles_append.mpr ⟨count, Y.tiles, by simp [Block.units]⟩
  · intro x hx
    rcases List.mem_append.mp hx with hx | hx
    · exact Y.aligned x hx
    · rw [List.mem_singleton.mp hx]
      exact hdvd
  · intro x hx
    rcases List.mem_append.mp hx with hx | hx
    · exact Y.level_le x hx
    · rw [List.mem_singleton.mp hx]
      exact hl
  · exact fun x hx hxh => Y.header x (hold x hx hxh) hxh
  · exact fun x hx hxf => Y.free_flag x (hold x hx (by simp [hxf])) hxf
  · exact fun x hx hxa => Y.allocated_flag x (hold x hx (by simp [hxa])) hxa
  · intro k hk a
    rw [Y.mem_lists k hk a]
    constructor
    · rintro ⟨x, hx, haddr⟩
      exact ⟨x, List.mem_append_left _ hx, haddr⟩
    · rintro ⟨x, hx, haddr, hxl, hxf⟩
      exact ⟨x, hold x hx (by simp [hxf]), haddr, hxl, hxf⟩

/-- The level chosen by `mm_init` fits, and the next one does not. -/
theorem fitLevel_spec (hbase : h.baseBlockSize = unitBytes) {remaining top : ℕ}
    (htop : top < mmMaxLevels) (hrem : unitBytes ≤ remaining) :
    fitLevel h remaining top ≤ top ∧ unitBytes * 2 ^ fitLevel h remaining top ≤ remaining ∧
      (fitLevel h remaining top = top ∨
        remaining < unitBytes * 2 ^ (fitLevel h remaining top + 1)) := by
  induction top with
  | zero => simpa [fitLevel] using hrem
  | succ top ih =>
      rw [fitLevel, blockBytes_eq hbase htop]
      by_cases hlt : remaining < unitBytes * 2 ^ (top + 1)
      · rw [if_pos hlt]
        obtain ⟨hle, hfit, hnext⟩ := ih (by omega)
        refine ⟨by omega, hfit, Or.inr ?_⟩
        rcases hnext with heq | hnext
        · rw [heq]
          exact hlt
        · exact hnext
      · rw [if_neg hlt]
        exact ⟨le_rfl, not_lt.mp hlt, Or.inl rfl⟩

/-- The blocks laid out so far by `mm_init`: all free, none of them below level `k`, and of
different levels below the top one. -/
structure Descending (maxLevel k : ℕ) (blocks : List Block) : Prop where
  free : ∀ b ∈ blocks, b.status = .free
  level_ge : ∀ b ∈ blocks, k ≤ b.level
  level_injective : ∀ b ∈ blocks, ∀ c ∈ blocks, b.level < maxLevel → b.level = c.level → b = c

theorem Descending.apart {k : ℕ} (D : Descending maxLevel k blocks) : Apart maxLevel blocks := by
  rintro x hx y hy hlt hbud -
  have hxy := D.level_injective x hx y hy hlt hbud.1
  rw [← hxy] at hbud
  exact Dyadic.buddy_ne _ _ hbud.2.symm

theorem Descending.snoc {k n : ℕ} (D : Descending maxLevel k blocks) (hl : l ≤ k)
    (hbelow : l < maxLevel → l < k) : Descending maxLevel l (blocks ++ [⟨n, l, .free⟩]) := by
  refine ⟨?_, ?_, ?_⟩
  · intro x hx
    rcases List.mem_append.mp hx with hx | hx
    · exact D.free x hx
    · rw [List.mem_singleton.mp hx]
  · intro x hx
    rcases List.mem_append.mp hx with hx | hx
    · exact hl.trans (D.level_ge x hx)
    · rw [List.mem_singleton.mp hx]
  · intro x hx y hy hlt heq
    rcases List.mem_append.mp hx with hx | hx
    · rcases List.mem_append.mp hy with hy | hy
      · exact D.level_injective x hx y hy hlt heq
      · have hge := D.level_ge x hx
        rw [List.mem_singleton.mp hy] at heq
        simp only at heq
        have := hbelow (heq ▸ hlt)
        omega
    · rw [List.mem_singleton.mp hx] at heq hlt
      simp only at heq hlt
      rcases List.mem_append.mp hy with hy | hy
      · have hge := D.level_ge y hy
        have := hbelow hlt
        omega
      · rw [List.mem_singleton.mp hx, List.mem_singleton.mp hy]

/-- The loop of `mm_init` ends and lays out every whole base block that remains. Below the top
level the next block is smaller than all before it, so its start is aligned. -/
theorem initBlocks_spec {fuel k remaining cur : ℕ}
    (Y : Layout lo count maxLevel h blocks lists)
    (hbase : h.baseBlockSize = unitBytes) (hmax : h.maxLevel = maxLevel)
    (D : Descending maxLevel k blocks) (hk : k ≤ maxLevel) (hdvd : 2 ^ k ∣ count)
    (hrem : k < maxLevel → remaining < unitBytes * 2 ^ k)
    (hhigh : lo + unitBytes * count + remaining ≤ 2 ^ 64)
    (hcur : cur = unitAddress lo count % 2 ^ 64) (hfuel : remaining < fuel) :
    ∃ h' blocks' lists', initBlocks fuel h cur remaining = some h' ∧
      h'.region = h.region ∧
      Layout lo (count + remaining / unitBytes) maxLevel h' blocks' lists' ∧
      (∀ b ∈ blocks', b.status = .free) ∧ Apart maxLevel blocks' := by
  -- induction on the turns left: every turn uses up at least one base block
  induction fuel generalizing h count blocks lists k remaining cur with
  | zero => omega
  | succ fuel ih =>
      rw [initBlocks, hbase, hmax]
      by_cases hstop : remaining < unitBytes
      · rw [if_pos hstop]
        refine ⟨h, blocks, lists, rfl, rfl, ?_, D.free, D.apart⟩
        rw [Nat.div_eq_of_lt hstop, Nat.add_zero]
        exact Y
      · rw [if_neg hstop]
        obtain ⟨hle, hfit, hnext⟩ := fitLevel_spec hbase Y.maxLevel_lt (not_lt.mp hstop)
        obtain ⟨l, hl⟩ : ∃ l, fitLevel h remaining maxLevel = l := ⟨_, rfl⟩
        rw [hl] at hle hfit hnext
        have hpos := Nat.two_pow_pos l
        have hfirst : k < maxLevel → l < k := by
          intro hkm
          have hlt : unitBytes * 2 ^ l < unitBytes * 2 ^ k := lt_of_le_of_lt hfit (hrem hkm)
          exact (Nat.pow_lt_pow_iff_right (by decide)).mp (Nat.lt_of_mul_lt_mul_left hlt)
        have hbelow : l < maxLevel → l < k := by
          rcases Nat.lt_or_eq_of_le hk with hkm | rfl
          · exact fun _ => hfirst hkm
          · exact id
        have hlk : l ≤ k := by
          rcases Nat.lt_or_eq_of_le hk with hkm | rfl
          · exact (hfirst hkm).le
          · exact hle
        have hldvd : 2 ^ l ∣ count := (pow_dvd_pow 2 hlk).trans hdvd
        have hlow := Y.low_pos
        have hsub : Word64.sub remaining (unitBytes * 2 ^ l) = remaining - unitBytes * 2 ^ l :=
          Word64.sub_eq hfit (by omega)
        have hrest : l < maxLevel → remaining - unitBytes * 2 ^ l < unitBytes * 2 ^ l := by
          intro hlm
          have hlt := hnext.resolve_left hlm.ne
          simp only [pow_succ, unitBytes] at hlt hfit ⊢
          omega
        have hend : lo + unitBytes * (count + 2 ^ l) ≤ 2 ^ 64 := by
          simp only [unitBytes] at hhigh hfit ⊢
          omega
        have hcur' : cur = unitAddress lo count := by
          rw [hcur, Nat.mod_eq_of_lt]
          simp only [unitAddress, unitBytes] at hend ⊢
          omega
        have Y₁ := (Y.extend hend hldvd hle).pushHalf rfl
        have D₁ := D.snoc (n := count) hlk hbelow
        have hreg := pushHalf_region h l (unitAddress lo count)
        have hbase' := (congrArg (fun r => r.2.2.1) hreg).trans hbase
        have hmax' := (congrArg (fun r => r.2.2.2.1) hreg).trans hmax
        have hcur'' : Word64.add cur (unitBytes * 2 ^ l) = unitAddress lo (count + 2 ^ l) % 2 ^ 64 := by
          rw [hcur', Word64.add, unitAddress, unitAddress, Nat.mul_add, Nat.add_assoc]
        have hhigh' : lo + unitBytes * (count + 2 ^ l) + (remaining - unitBytes * 2 ^ l) ≤
            2 ^ 64 := by
          simp only [unitBytes] at hhigh hfit ⊢
          omega
        have hfuel' : remaining - unitBytes * 2 ^ l < fuel := by
          simp only [unitBytes] at hfit ⊢
          omega
        obtain ⟨h', blocks', lists', hrun, hregion, Y', hfree, hapart⟩ := ih Y₁ hbase' hmax' D₁
          hle (Nat.dvd_add hldvd dvd_rfl) hrest hhigh' hcur'' hfuel'
        refine ⟨h', blocks', lists', ?_, hregion.trans hreg, ?_, hfree, hapart⟩
        · simp only [hl, blockBytes_eq hbase (lt_of_le_of_lt hle Y.maxLevel_lt), hsub]
          rw [hcur'] at hrun ⊢
          exact hrun
        · have hcount : count + 2 ^ l + (remaining - unitBytes * 2 ^ l) / unitBytes =
              count + remaining / unitBytes := by
            simp only [unitBytes] at hfit ⊢
            omega
          rw [← hcount]
          exact Y'

/-- The doubling loop stops at a size that covers `total`, unless the levels run out. -/
theorem orderLoop_covers {total levelsLeft order : ℕ} (hsum : order + levelsLeft = mmMaxLevels - 1) :
    total ≤ unitBytes * 2 ^ orderLoop total levelsLeft (unitBytes * 2 ^ order) order ∨
      orderLoop total levelsLeft (unitBytes * 2 ^ order) order = mmMaxLevels - 1 := by
  induction levelsLeft generalizing order with
  | zero => exact Or.inr (by rw [orderLoop]; omega)
  | succ levelsLeft ih =>
      have hmax : mmMaxLevels = 32 := rfl
      have hpow : 2 ^ order ≤ 2 ^ 31 := two_pow_level_le (by omega)
      have hdouble : Word64.mul (unitBytes * 2 ^ order) 2 = unitBytes * 2 ^ (order + 1) := by
        simp only [unitBytes, pow_succ]
        rw [Word64.mul_eq (by omega), Nat.mul_assoc]
      rw [orderLoop, hdouble]
      by_cases hlt : unitBytes * 2 ^ order < total
      · rw [if_pos hlt]
        exact ih (by omega)
      · rw [if_neg hlt]
        exact Or.inl (not_lt.mp hlt)

/-- The start of the heap that `mm_init` sets up in a region. -/
def alignedStart (heapStart : UInt64) : ℕ := alignUpU64 heapStart.toNat minAlign

/-- The size of the heap that `mm_init` sets up in a region. -/
def usableBytes (heapStart heapSize : UInt64) : ℕ :=
  Word64.sub heapSize.toNat (Word64.sub (alignedStart heapStart) heapStart.toNat) &&&
    Word64.compl (Word64.sub minAlign 1)

/-- The top level that `mm_init` computes for a heap of the given size. -/
def topLevel (usable : ℕ) : ℕ := orderLoop usable (mmMaxLevels - 1) unitBytes 0

/-- Past its checks, `mm_init` returns and leaves only free blocks. -/
theorem initRegion_spec (hlow : 0 < lo) (husable : 0 < usable) (hhigh : lo + usable ≤ 2 ^ 64)
    (hextent : usable + topBytes < 2 ^ 64) (h : Heap) :
    ∃ h' blocks lists, initRegion h lo usable = some h' ∧
      Represents lo usable (topLevel usable) h' blocks lists ∧
      ∀ b ∈ blocks, b.status = .free := by
  have htop : topLevel usable < mmMaxLevels :=
    lt_of_le_of_lt (orderLoop_le _ _ _ _) (by decide)
  have hround : roundUpPow2 (Word64.add hdrSize 16) 64 1 = unitBytes := by decide
  obtain ⟨h₁, hh₁⟩ : ∃ h₁ : Heap, freeListsInit { h with
      heapBase := lo
      heapUsableBytes := usable
      baseBlockSize := unitBytes
      maxLevel := topLevel usable } = h₁ := ⟨_, rfl⟩
  have Y₀ : Layout lo 0 (topLevel usable) h₁ [] (fun _ => []) := by
    refine ⟨hlow, by omega, htop, rfl, by simp, by simp, by simp, by simp, by simp, ?_, by simp⟩
    intro l hl
    have hhead : h₁.freeLists l = 0 := by
      rw [← hh₁]
      exact if_pos hl
    exact ⟨0, by simp [hhead]⟩
  have hcur : lo = unitAddress lo 0 % 2 ^ 64 := by
    rw [unitAddress, Nat.mul_zero, Nat.add_zero, Nat.mod_eq_of_lt (by omega)]
  have hfuel : usable < addressCount := by
    unfold addressCount
    omega
  obtain ⟨h', blocks, lists, hrun, hregion, Y', hfree, hapart⟩ := initBlocks_spec Y₀
    (by rw [← hh₁]; rfl) (by rw [← hh₁]; rfl) ⟨by simp, by simp, by simp⟩ le_rfl
    (dvd_zero _) (fun hlt => absurd hlt (lt_irrefl _)) (by simpa using hhigh) hcur hfuel
  rw [Nat.zero_add] at Y'
  rw [← hh₁] at hregion
  simp only [Heap.region, freeListsInit, Prod.mk.injEq] at hregion
  refine ⟨{ h' with
      heapCapacityBytes := Word64.sub usable hdrSize
      heapUsedBytes := 0
      heapAllocationCount := 0
      heapFreeCount := 0
      heapFailedAllocations := 0
      mmInitializedFlag := true }, blocks, lists, ?_, ⟨?_, ?_, ?_, hapart⟩, hfree⟩
  · have hstart : initRegion h lo usable =
        (initBlocks addressCount h₁ lo usable).map fun h => { h with
          heapCapacityBytes := Word64.sub usable hdrSize
          heapUsedBytes := 0
          heapAllocationCount := 0
          heapFreeCount := 0
          heapFailedAllocations := 0
          mmInitializedFlag := true } := by
      unfold initRegion
      simp only [hround]
      rw [← topLevel, hh₁]
    rw [hstart, hrun, Option.map_some]
  · exact Y'.congr_heap (fun _ _ => rfl) (fun _ _ => rfl) rfl (fun _ _ => rfl) (fun _ _ => rfl)
  · exact ⟨hregion.1, hregion.2.1, hregion.2.2.1, hregion.2.2.2.1, hextent, rfl⟩
  · intro x hx
    simp [hfree x hx]

theorem alignedStart_spec (hstart : heapStart ≠ 0)
    (hwrap : heapStart.toNat + heapSize.toNat ≤ 2 ^ 64) (hsize : 16 ≤ heapSize.toNat) :
    heapStart.toNat ≤ alignedStart heapStart ∧ alignedStart heapStart < heapStart.toNat + 16 ∧
      0 < alignedStart heapStart ∧ 16 ∣ alignedStart heapStart := by
  have hlt : heapStart.toNat < 2 ^ 64 := heapStart.toNat_lt
  have hpos : 0 < heapStart.toNat := by
    rcases Nat.eq_zero_or_pos heapStart.toNat with hz | hp
    · exact absurd (UInt64.toNat_inj.mp (by simpa using hz)) hstart
    · exact hp
  have halign : alignedStart heapStart = 16 * ((heapStart.toNat + 16 - 1) % 2 ^ 64 / 16) :=
    Word64.alignUp_eq (k := 4) hlt (by decide)
  omega

theorem usableBytes_spec (hstart : heapStart ≠ 0)
    (hwrap : heapStart.toNat + heapSize.toNat ≤ 2 ^ 64) (hsize : 16 ≤ heapSize.toNat) :
    alignedStart heapStart + usableBytes heapStart heapSize ≤
        heapStart.toNat + heapSize.toNat ∧
      heapStart.toNat + heapSize.toNat <
        alignedStart heapStart + usableBytes heapStart heapSize + 16 := by
  obtain ⟨hle, hlt, -⟩ := alignedStart_spec hstart hwrap hsize
  have hstartlt : heapStart.toNat < 2 ^ 64 := heapStart.toNat_lt
  have hsizelt : heapSize.toNat < 2 ^ 64 := heapSize.toNat_lt
  have hmask : Word64.sub minAlign 1 = 2 ^ 4 - 1 := by decide
  unfold usableBytes
  rw [hmask, Word64.sub_eq hle (by omega), Word64.sub_eq (by omega) (by omega),
    Word64.and_compl_mask (by omega) (by decide)]
  omega

/-- The default limit leaves room above every heap. -/
theorem extent_of_limit (hlimit : heapSize.toNat ≤ mmDefaultHeapLimit) :
    heapSize.toNat + topBytes < 2 ^ 64 := by
  unfold mmDefaultHeapLimit at hlimit
  simp only [topBytes, unitBytes, mmMaxLevels]
  omega

/-- A call of `mm_init` returns. If it succeeds, the heap has a layout of free blocks;
and it succeeds when the region is not tiny. -/
theorem mmInit_spec (hstart : heapStart ≠ 0)
    (hwrap : heapStart.toNat + heapSize.toNat ≤ 2 ^ 64)
    (hextent : heapSize.toNat + topBytes < 2 ^ 64) (h₀ : Heap) :
    ∃ h', mmInit h₀ heapStart heapSize = some h' ∧
      (80 ≤ heapSize.toNat → h'.mmInitializedFlag = true) ∧
      (h'.mmInitializedFlag = true → 16 ∣ alignedStart heapStart ∧ ∃ blocks lists,
        Represents (alignedStart heapStart) (usableBytes heapStart heapSize)
          (topLevel (usableBytes heapStart heapSize)) h' blocks lists ∧
        ∀ b ∈ blocks, b.status = .free) := by
  have hneed : Word64.add hdrSize 16 = 48 := by decide
  have hreject : (rejectRegion h₀).mmInitializedFlag = false := rfl
  have hstartlt : heapStart.toNat < 2 ^ 64 := heapStart.toNat_lt
  unfold mmInit
  by_cases hsmall : heapSize.toNat < Word64.add hdrSize 16
  · refine ⟨rejectRegion h₀, by simp only [if_pos hsmall], fun hbig => ?_, by simp [hreject]⟩
    omega
  simp only [if_neg hsmall]
  rw [hneed] at hsmall
  obtain ⟨hle, hlt, hpos, hdvd⟩ := alignedStart_spec hstart hwrap (by omega)
  by_cases hloss : heapSize.toNat ≤ Word64.sub (alignedStart heapStart) heapStart.toNat
  · rw [Word64.sub_eq hle (by omega)] at hloss
    omega
  simp only [alignedStart] at hloss
  simp only [if_neg hloss]
  obtain ⟨hend, hmany⟩ := usableBytes_spec hstart hwrap (by omega)
  by_cases hfew : usableBytes heapStart heapSize < Word64.add hdrSize 16
  · refine ⟨rejectRegion h₀, ?_, fun hbig => ?_, by simp [hreject]⟩
    · simp only [usableBytes, alignedStart] at hfew
      simp only [if_pos hfew]
    · omega
  rw [hneed] at hfew
  obtain ⟨h', blocks, lists, hrun, R, hfree⟩ := initRegion_spec hpos
    (show 0 < usableBytes heapStart heapSize by omega) (by omega) (by omega) h₀
  refine ⟨h', ?_, fun _ => R.statics.initialized, fun _ => ⟨hdvd, blocks, lists, R, hfree⟩⟩
  simp only [usableBytes, alignedStart] at hfew hrun
  rw [if_neg (by rw [hneed]; exact hfew)]
  exact hrun

end Init
section Steps

/-- The memory with the pointers that have been returned and not yet freed. -/
structure System where
  heap : Heap
  live : List ℕ

/-- The number of bytes a client may use at a returned pointer. -/
def payloadSize (h : Heap) (ptr : ℕ) : ℕ := blockBytes h (h.level (ptr - hdrSize)) - hdrSize

/-- The header at `a` does not share a byte with the payload at `ptr`. -/
def Outside (h : Heap) (ptr a : ℕ) : Prop :=
  a + hdrSize ≤ ptr ∨ ptr + payloadSize h ptr ≤ a

/-- A client write inside the payload at `ptr`. It may leave anything in the bytes where a
header could be read there, and changes nothing else. -/
structure ClientWrite (h : Heap) (ptr : ℕ) (h' : Heap) : Prop where
  next : ∀ a, Outside h ptr a → h'.next a = h.next a
  prev : ∀ a, Outside h ptr a → h'.prev a = h.prev a
  level : ∀ a, Outside h ptr a → h'.level a = h.level a
  isFree : ∀ a, Outside h ptr a → h'.isFree a = h.isFree a
  freeLists : h'.freeLists = h.freeLists
  region : h'.region = h.region
  heapCapacityBytes : h'.heapCapacityBytes = h.heapCapacityBytes
  heapUsedBytes : h'.heapUsedBytes = h.heapUsedBytes
  heapAllocationCount : h'.heapAllocationCount = h.heapAllocationCount
  heapFreeCount : h'.heapFreeCount = h.heapFreeCount
  heapFailedAllocations : h'.heapFailedAllocations = h.heapFailedAllocations

/-- One call of the manager, or one write of a client. -/
inductive Step (endOfKernel : UInt64) : System → System → Prop where
  | alloc {s : System} {size : UInt64} {ptr : ℕ} {h' : Heap} :
      mmAlloc endOfKernel s.heap size = some (ptr, h') →
      Step endOfKernel s ⟨h', if ptr = 0 then s.live else ptr :: s.live⟩
  | free {s : System} {ptr : ℕ} {h' : Heap} :
      ptr ∈ s.live → mmFree s.heap ptr = some h' → Step endOfKernel s ⟨h', s.live.erase ptr⟩
  | write {s : System} {ptr : ℕ} {h' : Heap} :
      ptr ∈ s.live → ClientWrite s.heap ptr h' → Step endOfKernel s ⟨h', s.live⟩

/-- The invariant of runs: the heap represents some layout, and the live pointers are
the payload addresses of its allocated blocks. -/
structure Valid (lo usable maxLevel : ℕ) (s : System) (blocks : List Block)
    (lists : ℕ → List ℕ) : Prop where
  represents : Represents lo usable maxLevel s.heap blocks lists
  live_nodup : s.live.Nodup
  mem_live : ∀ p, p ∈ s.live ↔ ∃ b ∈ allocatedBlocks blocks, p = b.address lo + hdrSize

variable {s s' : System} {endOfKernel size : UInt64} {ptr : ℕ}

/-- The allocated blocks besides one block of the layout. -/
theorem Layout.mem_allocatedBlocks_cut
    (Y : Layout lo count maxLevel h (left ++ b :: right) lists) (x : Block) :
    x ∈ allocatedBlocks (left ++ right) ↔
      x ∈ allocatedBlocks (left ++ b :: right) ∧ x.address lo ≠ b.address lo := by
  simp only [mem_allocatedBlocks, List.mem_append, List.mem_cons]
  constructor
  · rintro ⟨hx, hxa⟩
    exact ⟨⟨hx.imp_right Or.inr, hxa⟩, Y.address_ne (by simpa using hx)⟩
  · rintro ⟨⟨hx | rfl | hx, hxa⟩, hne⟩
    · exact ⟨Or.inl hx, hxa⟩
    · exact absurd rfl hne
    · exact ⟨Or.inr hx, hxa⟩

namespace Valid

/-- A live pointer stands right after the header of an allocated block. -/
theorem live_block (V : Valid lo usable maxLevel s blocks lists) (hptr : ptr ∈ s.live) :
    ∃ left b right, blocks = left ++ b :: right ∧ b.status = .allocated ∧
      ptr = b.address lo + hdrSize := by
  obtain ⟨b, hb, rfl⟩ := (V.mem_live ptr).mp hptr
  obtain ⟨hmem, halloc⟩ := mem_allocatedBlocks.mp hb
  obtain ⟨left, right, rfl⟩ := List.append_of_mem hmem
  exact ⟨left, b, right, rfl, halloc, rfl⟩

/-- An allocation adds at most the block it cuts. -/
theorem alloc (V : Valid lo usable maxLevel s blocks lists)
    (hcall : mmAlloc endOfKernel s.heap size = some (ptr, h')) :
    ∃ blocks' lists', Valid lo usable maxLevel
      ⟨h', if ptr = 0 then s.live else ptr :: s.live⟩ blocks' lists' := by
  obtain ⟨ptr', h'', hspec, hcases⟩ := mmAlloc_spec V.represents endOfKernel size
  obtain ⟨rfl, rfl⟩ : ptr = ptr' ∧ h' = h'' := by
    rw [hcall] at hspec
    simpa using hspec
  rcases hcases with ⟨rfl, R', -⟩ | ⟨left, b, right, mid, rfl, hb, -, -, rfl, hmid, R'⟩
  · exact ⟨blocks, lists, R', V.live_nodup, V.mem_live⟩
  · have hnz : b.address lo + hdrSize ≠ 0 := by
      have hpos := V.represents.layout.address_pos (b := b) (by simp)
      omega
    have hfresh : b.address lo + hdrSize ∉ s.live := by
      intro hlive
      obtain ⟨x, hx, heq⟩ := (V.mem_live _).mp hlive
      obtain ⟨hx, hxa⟩ := mem_allocatedBlocks.mp hx
      have hxb := V.represents.layout.address_injective hx (c := b) (by simp) (by omega)
      simp [hxb, hb] at hxa
    refine ⟨_, _, R', ?_, ?_⟩
    · rw [if_neg hnz]
      exact List.nodup_cons.mpr ⟨hfresh, V.live_nodup⟩
    · intro p
      have hold := V.mem_live p
      have hmid' : mid.filter (fun x => decide (x.status = .allocated)) = [] := by
        rw [List.filter_eq_nil_iff]
        intro x hx
        simp [hmid x hx]
      simp only [allocatedBlocks, List.filter_append, List.mem_append, List.filter_cons, hb,
        reduceCtorEq, decide_false, Bool.false_eq_true, if_false] at hold
      simp only [hnz, if_false, List.mem_cons, allocatedBlocks, List.filter_append,
        List.mem_append, List.filter_cons, hmid', decide_true, if_true, hold, List.not_mem_nil,
        false_or]
      constructor
      · rintro (rfl | ⟨x, hx, rfl⟩)
        · exact ⟨⟨b.index, requestOrder s.heap size, .allocated⟩, Or.inr (Or.inl rfl),
            by simp only [Block.address]⟩
        · exact ⟨x, hx.imp_right Or.inr, rfl⟩
      · rintro ⟨x, hx | rfl | hx, rfl⟩
        · exact Or.inr ⟨x, Or.inl hx, rfl⟩
        · exact Or.inl (by simp only [Block.address])
        · exact Or.inr ⟨x, Or.inr hx, rfl⟩

/-- Freeing a live pointer returns, removes its block and keeps the others. -/
theorem free (V : Valid lo usable maxLevel s blocks lists) (hptr : ptr ∈ s.live) :
    ∃ h' blocks' lists', mmFree s.heap ptr = some h' ∧
      Valid lo usable maxLevel ⟨h', s.live.erase ptr⟩ blocks' lists' ∧
      ∀ x, x ∈ allocatedBlocks blocks' ↔
        x ∈ allocatedBlocks blocks ∧ x.address lo + hdrSize ≠ ptr := by
  obtain ⟨left, b, right, rfl, hb, rfl⟩ := V.live_block hptr
  obtain ⟨h', blocks', lists', hcall, R', hsame⟩ := mmFree_spec V.represents hb
  have hcut : ∀ x, x ∈ allocatedBlocks blocks' ↔
      x ∈ allocatedBlocks (left ++ b :: right) ∧ x.address lo + hdrSize ≠
        b.address lo + hdrSize := by
    intro x
    rw [hsame, V.represents.layout.mem_allocatedBlocks_cut, ne_eq, ne_eq, Nat.add_right_cancel_iff]
  refine ⟨h', blocks', lists', hcall, ⟨R', V.live_nodup.erase _, fun p => ?_⟩, hcut⟩
  rw [V.live_nodup.mem_erase_iff, V.mem_live]
  constructor
  · rintro ⟨hne, x, hx, rfl⟩
    exact ⟨x, (hcut x).mpr ⟨hx, hne⟩, rfl⟩
  · rintro ⟨x, hx, rfl⟩
    obtain ⟨hx, hne⟩ := (hcut x).mp hx
    exact ⟨hne, x, hx, rfl⟩

theorem payloadSize_eq (V : Valid lo usable maxLevel s blocks lists) (hb : b ∈ blocks) :
    payloadSize s.heap (b.address lo + hdrSize) = unitBytes * b.units - hdrSize := by
  have Y := V.represents.layout
  unfold payloadSize
  rw [Nat.add_sub_cancel, Y.header b hb (V.represents.none_held b hb),
    blockBytes_eq V.represents.statics.baseBlockSize (Y.level_lt hb), Block.units]

/-- Two blocks of the layout coincide or lie apart. -/
theorem addresses_apart (V : Valid lo usable maxLevel s blocks lists) (hb : b ∈ blocks)
    (hc : c ∈ blocks) : b = c ∨ b.address lo + unitBytes * b.units ≤ c.address lo ∨
      c.address lo + unitBytes * c.units ≤ b.address lo := by
  rcases V.represents.layout.tiles.eq_or_disjoint hb hc with heq | hd
  · exact Or.inl heq
  · right
    simp only [Block.address, unitAddress, unitBytes]
    omega

/-- No header of the heap shares a byte with a live payload. -/
theorem header_outside (V : Valid lo usable maxLevel s blocks lists) (hptr : ptr ∈ s.live)
    (hb : b ∈ blocks) : Outside s.heap ptr (b.address lo) := by
  obtain ⟨left, c, right, rfl, hc, rfl⟩ := V.live_block hptr
  have hsize := V.payloadSize_eq (b := c) (by simp)
  have hhdr : hdrSize = 32 := by decide
  have hbpos := units_pos b
  have hcpos := units_pos c
  unfold Outside
  rw [hsize]
  rcases V.addresses_apart hb (c := c) (by simp) with rfl | hd
  · exact Or.inl le_rfl
  · simp only [unitBytes] at hd ⊢
    omega

/-- A client that writes inside its payload disturbs no header and no list. -/
theorem write (V : Valid lo usable maxLevel s blocks lists) (hptr : ptr ∈ s.live)
    (hw : ClientWrite s.heap ptr h') : Valid lo usable maxLevel ⟨h', s.live⟩ blocks lists where
  represents :=
    { layout := V.represents.layout.congr_heap
        (fun _ hb => hw.level _ (V.header_outside hptr hb))
        (fun _ hb => hw.isFree _ (V.header_outside hptr hb)) hw.freeLists
        (fun _ hb => hw.next _ (V.header_outside hptr hb))
        (fun _ hb => hw.prev _ (V.header_outside hptr hb))
      statics := V.represents.statics.congr hw.region
      none_held := V.represents.none_held
      apart := V.represents.apart }
  live_nodup := V.live_nodup
  mem_live := V.mem_live

/-- One step keeps the invariant. -/
theorem step (V : Valid lo usable maxLevel s blocks lists) (hstep : Step endOfKernel s s') :
    ∃ blocks' lists', Valid lo usable maxLevel s' blocks' lists' := by
  cases hstep with
  | alloc hcall => exact V.alloc hcall
  | free hptr hcall =>
      obtain ⟨h'', blocks', lists', hcall', V', -⟩ := V.free hptr
      rw [hcall] at hcall'
      cases hcall'
      exact ⟨blocks', lists', V'⟩
  | write hptr hw => exact ⟨blocks, lists, V.write hptr hw⟩

/-- A whole run keeps the invariant. -/
theorem run (V : Valid lo usable maxLevel s blocks lists)
    (hrun : ReflTransGen (Step endOfKernel) s s') :
    ∃ blocks' lists', Valid lo usable maxLevel s' blocks' lists' := by
  induction hrun with
  | refl => exact ⟨blocks, lists, V⟩
  | tail _ hstep ih =>
      obtain ⟨blocks', lists', V'⟩ := ih
      exact V'.step hstep

/-- The payloads of two live pointers do not meet. -/
theorem payloads_disjoint (V : Valid lo usable maxLevel s blocks lists) {p q : ℕ}
    (hp : p ∈ s.live) (hq : q ∈ s.live) (hne : p ≠ q) :
    p + payloadSize s.heap p ≤ q ∨ q + payloadSize s.heap q ≤ p := by
  obtain ⟨b, hb, rfl⟩ := (V.mem_live p).mp hp
  obtain ⟨c, hc, rfl⟩ := (V.mem_live q).mp hq
  obtain ⟨hb, -⟩ := mem_allocatedBlocks.mp hb
  obtain ⟨hc, -⟩ := mem_allocatedBlocks.mp hc
  have hhdr : hdrSize = 32 := by decide
  have hbpos := units_pos b
  have hcpos := units_pos c
  rw [V.payloadSize_eq hb, V.payloadSize_eq hc]
  rcases V.addresses_apart hb hc with rfl | hd
  · exact absurd rfl hne
  · simp only [unitBytes] at hd ⊢
    omega

/-- The payload of a live pointer lies inside the heap. -/
theorem payload_inside (V : Valid lo usable maxLevel s blocks lists) (hptr : ptr ∈ s.live) :
    lo ≤ ptr ∧ ptr + payloadSize s.heap ptr ≤ lo + usable := by
  obtain ⟨left, b, right, rfl, -, rfl⟩ := V.live_block hptr
  have hbound := V.represents.layout.address_bounds (b := b) (by simp)
  have hhdr : hdrSize = 32 := by decide
  have hpos := units_pos b
  rw [V.payloadSize_eq (by simp)]
  simp only [unitBytes] at hbound ⊢
  omega

/-- Payloads are aligned as the heap is. -/
theorem payload_aligned (V : Valid lo usable maxLevel s blocks lists) (hlo : 16 ∣ lo)
    (hptr : ptr ∈ s.live) : 16 ∣ ptr := by
  obtain ⟨left, b, right, -, -, rfl⟩ := V.live_block hptr
  have hhdr : hdrSize = 32 := by decide
  simp only [Block.address, unitAddress, unitBytes]
  omega

end Valid

/-- With only free blocks, no pointer is live. -/
theorem Represents.initial_valid (R : Represents lo usable maxLevel h blocks lists)
    (hfree : ∀ b ∈ blocks, b.status = .free) :
    Valid lo usable maxLevel ⟨h, []⟩ blocks lists := by
  refine ⟨R, List.nodup_nil, ?_⟩
  intro p
  simp only [List.not_mem_nil, false_iff, not_exists, not_and]
  intro b hb
  obtain ⟨hb, halloc⟩ := mem_allocatedBlocks.mp hb
  simp [hfree b hb] at halloc

/-- After a successful `mm_init` and any run of allocations, frees of live pointers and
client writes, aligned blocks tile the managed part of the heap, the free lists hold
exactly the free blocks of their levels, `find_buddy` finds headers only, and no two
buddies below the top level are both free. So live payloads are aligned, lie inside the
heap and meet neither each other nor a header; and the next calls return. -/
theorem buddy_representation_invariant {h₀ h₁ : Heap} {heapStart heapSize : UInt64}
    (hstart : heapStart ≠ 0) (hwrap : heapStart.toNat + heapSize.toNat ≤ 2 ^ 64)
    (hlimit : heapSize.toNat ≤ mmDefaultHeapLimit)
    (hinit : mmInit h₀ heapStart heapSize = some h₁) (hflag : h₁.mmInitializedFlag = true)
    (hrun : ReflTransGen (Step endOfKernel) ⟨h₁, []⟩ s) :
    ∃ maxLevel blocks lists,
      Represents (alignedStart heapStart) (usableBytes heapStart heapSize) maxLevel s.heap
        blocks lists ∧
      (∀ l < mmMaxLevels, (lists l).Nodup) ∧
      (∀ b ∈ blocks, b.level < maxLevel →
        findBuddy s.heap (b.address (alignedStart heapStart)) = 0 ∨
        ∃ c ∈ blocks, findBuddy s.heap (b.address (alignedStart heapStart)) =
          c.address (alignedStart heapStart)) ∧
      (∀ p, p ∈ s.live ↔ ∃ b ∈ blocks, b.status = .allocated ∧
        p = b.address (alignedStart heapStart) + hdrSize) ∧
      (∀ p ∈ s.live, 16 ∣ p ∧ alignedStart heapStart ≤ p ∧ p + payloadSize s.heap p ≤
        alignedStart heapStart + usableBytes heapStart heapSize) ∧
      (∀ p ∈ s.live, ∀ q ∈ s.live, p ≠ q →
        p + payloadSize s.heap p ≤ q ∨ q + payloadSize s.heap q ≤ p) ∧
      (∀ p ∈ s.live, ∀ b ∈ blocks,
        Outside s.heap p (b.address (alignedStart heapStart))) ∧
      (∀ size, ∃ ptr h', mmAlloc endOfKernel s.heap size = some (ptr, h')) ∧
      ∀ p ∈ s.live, ∃ h', mmFree s.heap p = some h' := by
  obtain ⟨h', hinit', -, hspec⟩ := mmInit_spec hstart hwrap (extent_of_limit hlimit) h₀
  rw [hinit] at hinit'
  cases hinit'
  obtain ⟨hdvd, blocks₀, lists₀, R₀, hfree⟩ := hspec hflag
  obtain ⟨blocks, lists, V⟩ := (R₀.initial_valid hfree).run hrun
  have Y := V.represents.layout
  refine ⟨_, blocks, lists, V.represents, fun l hl => (Y.ring l hl).nodup, ?_, ?_,
    fun _ hp => ⟨V.payload_aligned hdvd hp, V.payload_inside hp⟩,
    fun _ hp _ hq => V.payloads_disjoint hp hq, fun _ hp _ hb => V.header_outside hp hb, ?_, ?_⟩
  · intro b hb _
    rcases findBuddy_cases Y V.represents.statics hb (Y.header b hb (V.represents.none_held b hb))
      with ⟨hnull, -⟩ | ⟨c, hc, haddr, -⟩
    · exact Or.inl hnull
    · exact Or.inr ⟨c, hc, haddr⟩
  · intro p
    rw [V.mem_live]
    simp only [mem_allocatedBlocks, and_assoc]
  · intro size
    obtain ⟨ptr, h', hcall, -⟩ := mmAlloc_spec V.represents endOfKernel size
    exact ⟨ptr, h', hcall⟩
  · intro p hp
    obtain ⟨h', -, -, hcall, -⟩ := V.free hp
    exact ⟨h', hcall⟩

/-- Memory that holds zeros, before the manager is set up. -/
def blankHeap : Heap where
  next := fun _ => 0
  prev := fun _ => 0
  level := fun _ => 0
  isFree := fun _ => 0
  freeLists := fun _ => 0
  baseBlockSize := 0
  mmInitializedFlag := false
  heapCapacityBytes := 0
  heapUsedBytes := 0
  heapAllocationCount := 0
  heapFreeCount := 0
  heapFailedAllocations := 0
  heapBase := 0
  heapUsableBytes := 0
  maxLevel := 0

/-- A region of one page at `0x10008`, after one allocation of 100 bytes. -/
theorem buddy_representation_invariant_page :
    ∃ h₁ s, mmInit blankHeap 0x10008 4096 = some h₁ ∧
      ReflTransGen (Step 0x101000) ⟨h₁, []⟩ s ∧ s.live.length = 1 ∧
      ∃ maxLevel blocks lists, Represents 0x10010 4080 maxLevel s.heap blocks lists := by
  have hinit : (mmInit blankHeap 0x10008 4096).any (fun h => h.mmInitializedFlag &&
      (mmAlloc 0x101000 h 100).any fun r => decide (r.1 ≠ 0)) = true := by
    decide +kernel
  obtain ⟨h₁, hh₁, hok⟩ := (Option.any_eq_true _ _).mp hinit
  simp only [Bool.and_eq_true] at hok
  obtain ⟨hflag, halloc⟩ := hok
  obtain ⟨⟨ptr, h'⟩, hcall, hptr⟩ := (Option.any_eq_true _ _).mp halloc
  have hstep := Step.alloc (s := ⟨h₁, []⟩) hcall
  rw [if_neg (by simpa using hptr)] at hstep
  obtain ⟨maxLevel, blocks, lists, R, -⟩ := buddy_representation_invariant (by decide) (by decide)
    (by decide) hh₁ hflag (ReflTransGen.single hstep)
  have hlo : alignedStart 0x10008 = 0x10010 := by decide +kernel
  have husable : usableBytes 0x10008 4096 = 4080 := by decide +kernel
  rw [hlo, husable] at R
  exact ⟨h₁, _, hh₁, ReflTransGen.single hstep, rfl, maxLevel, blocks, lists, R⟩

end Steps
end SoKernel.Mm.Buddy
