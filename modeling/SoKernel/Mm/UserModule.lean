import SoKernel.Mm.Buddy.Run
import SoKernel.Mm.Simple.Run

/-!
# The default heap and the loaded user program

`mm_init_default` hands the manager everything from the end of the kernel up to
`MM_DEFAULT_HEAP_LIMIT`, and `kernel.c` loads the code module of the shell at an address
inside that region. Whether an allocation covers the module is decided by the free
block that serves it.
-/

namespace SoKernel.Mm

open Relation (ReflTransGen)

/-- `sampleCodeModuleAddress`, where the shell is loaded and starts. -/
def sampleCodeModuleAddress : ℕ := 0x400000

/-- The linker leaves room for the kernel stack below the module. -/
def KernelBelowModule (endOfKernel : UInt64) : Prop :=
  endOfKernel.toNat + 8 * 0x1000 ≤ sampleCodeModuleAddress

instance (endOfKernel : UInt64) : Decidable (KernelBelowModule endOfKernel) :=
  inferInstanceAs (Decidable (_ ≤ _))

/-- What `mm_default_region` computes: the start and the size of the region that ends at
`MM_DEFAULT_HEAP_LIMIT`. -/
structure DefaultRegion (endOfKernel : UInt64) (start : ℕ) (heapStart heapSize : UInt64) :
    Prop where
  aligned : Word64.sub (Word64.add (Word64.add endOfKernel.toNat 0x8000) 16) 1 &&&
    Word64.compl (Word64.sub 16 1) = start
  start_eq : heapStart = UInt64.ofNat start
  size_eq : heapSize = UInt64.ofNat (0x20000000 - start)
  start_ne : start ≠ 0
  start_le : start ≤ sampleCodeModuleAddress
  heapStart_ne : heapStart ≠ 0
  no_wrap : heapStart.toNat + heapSize.toNat ≤ 2 ^ 64
  size_ge : 0x100000 ≤ heapSize.toNat
  size_le : heapSize.toNat ≤ 0x20000000

/-- The default region starts below the module and ends far above it. -/
theorem exists_defaultRegion {endOfKernel : UInt64} (hend : KernelBelowModule endOfKernel) :
    ∃ start heapStart heapSize, DefaultRegion endOfKernel start heapStart heapSize := by
  simp only [KernelBelowModule, sampleCodeModuleAddress] at hend
  have hadd : Word64.add endOfKernel.toNat 0x8000 = endOfKernel.toNat + 0x8000 :=
    Word64.add_eq (by omega)
  have halign := Word64.alignUp_eq (a := endOfKernel.toNat + 0x8000) (k := 4) (by omega) (by decide)
  obtain ⟨start, hstart⟩ : ∃ start, 2 ^ 4 * ((endOfKernel.toNat + 0x8000 + 2 ^ 4 - 1) %
      2 ^ 64 / 2 ^ 4) = start := ⟨_, rfl⟩
  rw [hstart] at halign
  have hlow : 0 < start ∧ start ≤ 0x400000 := by omega
  have hs : (UInt64.ofNat start).toNat = start :=
    UInt64.toNat_ofNat_of_lt (show start < 2 ^ 64 by omega)
  have hz : (UInt64.ofNat (0x20000000 - start)).toNat = 0x20000000 - start :=
    UInt64.toNat_ofNat_of_lt (show 0x20000000 - start < 2 ^ 64 by omega)
  refine ⟨start, _, _, ?_, rfl, rfl, hlow.1.ne', hlow.2, ?_, by omega, by omega, by omega⟩
  · rw [hadd]
    exact halign
  · intro heq
    rw [heq] at hs
    exact hlow.1.ne hs

namespace Simple

variable {endOfKernel size : UInt64} {lo hi ptr : ℕ} {h h' h₀ : Heap} {s : System}
variable {blocks : List Block} {freeList : List ℕ}

/-- The block of a returned pointer, header included, contains the address `a`. -/
def BlockContains (h : Heap) (ptr a : ℕ) : Prop :=
  ptr - headerSize ≤ a ∧ a < ptr - headerSize + blockSize h (ptr - headerSize)

instance (h : Heap) (ptr a : ℕ) : Decidable (BlockContains h ptr a) :=
  inferInstanceAs (Decidable (_ ∧ _))

/-- The number of bytes a request takes from a free block of the given size. -/
def reservedSize (available : ℕ) (size : UInt64) : ℕ :=
  if available < requiredSize size + minBlockSize then available else requiredSize size

/-- The first free block in list order that is large enough for the request, cut to the
length that the request takes, does not contain the address `a`. -/
def ServedClearOf (a : ℕ) (h : Heap) (size : UInt64) : Prop :=
  size = 0 ∨ ∀ before block after, FreeRing h (before ++ block :: after) →
    (∀ x ∈ before, blockSize h x < requiredSize size) → requiredSize size ≤ blockSize h block →
    a < block ∨ block + reservedSize (blockSize h block) size ≤ a

theorem FreeRing.unique {L L' : List ℕ} (F : FreeRing h L) (F' : FreeRing h L') : L = L' := by
  apply List.map_injective_iff.mpr (fun a b hab => FreePtr.block.inj hab)
  exact LinkedRing.Ring.unique F F'

/-- The first fit is the only block of the free list that `ServedClearOf` speaks about. -/
theorem findFirstFit_iff (R : Represents lo hi h blocks freeList) {required block : ℕ}
    (hpos : block ≠ 0) :
    findFirstFit h required = some block ↔ ∃ before after, FreeRing h (before ++ block :: after) ∧
      (∀ x ∈ before, blockSize h x < required) ∧ required ≤ blockSize h block := by
  rw [findFirstFit_eq R]
  constructor
  · intro hsome
    cases hfind : freeList.find? (fun a => decide (required ≤ blockSize h a)) with
    | none => simp [hfind, hpos.symm] at hsome
    | some c =>
        have hcb : c = block := by simpa [hfind] using hsome
        rw [hcb] at hfind
        obtain ⟨hfit, before, after, hlist, hsmall⟩ := List.find?_eq_some_iff_append.mp hfind
        refine ⟨before, after, hlist ▸ R.ring, ?_, by simpa using hfit⟩
        intro x hx
        simpa using hsmall x hx
  · rintro ⟨before, after, F, hsmall, hfit⟩
    have hfind : freeList.find? (fun a => decide (required ≤ blockSize h a)) = some block := by
      rw [List.find?_eq_some_iff_append]
      refine ⟨by simpa using hfit, before, after, F.unique R.ring ▸ rfl, ?_⟩
      intro x hx
      simpa using hsmall x hx
    rw [hfind]
    rfl

/-- What a call of `mm_alloc` covers is what its first fit provides. -/
theorem alloc_clear_iff (R : Represents lo hi h blocks freeList)
    (hinit : h.mmInitializedFlag = true) (a : ℕ)
    (hcall : mmAlloc endOfKernel h size = some (ptr, h')) :
    (ptr ≠ 0 → ¬BlockContains h' ptr a) ↔ ServedClearOf a h size := by
  obtain ⟨ptr', h'', hspec, -, hcases⟩ := mmAlloc_spec R hinit endOfKernel size
  obtain ⟨rfl, rfl⟩ : ptr = ptr' ∧ h' = h'' := by
    rw [hcall] at hspec
    simpa using hspec
  rcases hcases with ⟨rfl, -, hnone⟩ | ⟨left, b, right, rfl, hb, hfit, rfl, hsize, hfind, R'⟩
  · refine ⟨fun _ => ?_, fun _ hne => absurd rfl hne⟩
    rcases hnone with hzero | hnone
    · exact Or.inl hzero
    · refine Or.inr fun before block after F hsmall hfit => ?_
      have hmem : block ∈ freeList := by
        rw [R.ring.unique F]
        simp
      obtain ⟨x, hx, rfl, -⟩ := (R.mem_freeList block).mp hmem
      have hpos := (R.chained.address_pos hx).ne'
      have hsome := (findFirstFit_iff R hpos).mpr ⟨before, after, F, hsmall, hfit⟩
      rw [hnone] at hsome
      exact absurd (Option.some.inj hsome).symm hpos
  · have hpos : b.address ≠ 0 := (R.chained.address_pos (by simp)).ne'
    have hbsize := R.chained.blockSize_eq (b := b) (by simp)
    have hafter : blockSize h' b.address = reservedSize b.size size := by
      obtain ⟨c, hca, hcalloc, hcsize, hcarve⟩ := allocatedBlocks_carve b (requiredSize size)
      have hc : c ∈ left ++ carve b (requiredSize size) ++ right := by
        have hcm : c ∈ allocatedBlocks (carve b (requiredSize size)) := by simp [hcarve]
        have := (mem_allocatedBlocks.mp hcm).1
        simp [this]
      rw [← hca, R'.chained.blockSize_eq hc, hcsize, reservedSize]
    have hne : b.address + headerSize ≠ 0 := by omega
    simp only [BlockContains, Nat.add_sub_cancel, hafter, ne_eq, hne, not_false_eq_true,
      forall_const]
    constructor
    · intro hclear
      refine Or.inr fun before block after F hsmall hfit' => ?_
      have hmem : block ∈ freeList := by
        rw [R.ring.unique F]
        simp
      obtain ⟨x, hx, rfl, -⟩ := (R.mem_freeList block).mp hmem
      have hsome := (findFirstFit_iff R (R.chained.address_pos hx).ne').mpr
        ⟨before, after, F, hsmall, hfit'⟩
      rw [hfind] at hsome
      rw [← Option.some.inj hsome, hbsize]
      omega
    · intro hclear
      obtain ⟨before, after, F, hsmall, hfit'⟩ := (findFirstFit_iff R hpos).mp hfind
      rcases hclear with hzero | hclear
      · exact absurd hzero hsize
      · have hout := hclear before b.address after F hsmall hfit'
        rw [hbsize] at hout
        omega

theorem mmInitDefault_eq {start : ℕ} {heapStart heapSize : UInt64}
    (D : DefaultRegion endOfKernel start heapStart heapSize) :
    mmInitDefault endOfKernel h₀ = mmInit h₀ heapStart heapSize := by
  have hle := D.start_le
  simp only [sampleCodeModuleAddress] at hle
  have hraw : alignUp (Word64.add endOfKernel.toNat (mmPageSize * mmKernelStackPages))
      mmAlignment = start := D.aligned
  have hregion : mmDefaultRegion endOfKernel = (start, 0x20000000 - start) := by
    simp only [mmDefaultRegion, hraw, mmDefaultHeapLimit]
    rw [if_neg (by omega)]
  simp only [mmInitDefault, hregion]
  rw [if_pos ⟨D.start_ne, by omega⟩, D.start_eq, D.size_eq]

/-- The default region is accepted by `mm_init`. -/
theorem mmInitDefault_valid (hend : KernelBelowModule endOfKernel) (h₀ : Heap) :
    ∃ lo hi blocks freeList, Valid lo hi ⟨mmInitDefault endOfKernel h₀, []⟩ blocks freeList := by
  obtain ⟨start, heapStart, heapSize, D⟩ := exists_defaultRegion hend
  have hge := D.size_ge
  have hflag : (mmInit h₀ heapStart heapSize).mmInitializedFlag = true := by
    refine mmInit_succeeds D.heapStart_ne D.no_wrap ?_
    simp only [minBlockSize, headerSize, mmAlignment]
    omega
  rw [mmInitDefault_eq D]
  exact ⟨_, _, _, _, mmInit_valid D.heapStart_ne D.no_wrap (extent_of_limit D.size_le) hflag⟩

end Simple

namespace Buddy

variable {endOfKernel size : UInt64} {lo usable maxLevel ptr : ℕ} {h h' h₀ : Heap} {s : System}
variable {blocks : List Block} {lists : ℕ → List ℕ}

/-- The block of a returned pointer, header included, contains the address `a`. -/
def BlockContains (h : Heap) (ptr a : ℕ) : Prop :=
  ptr - hdrSize ≤ a ∧ a < ptr - hdrSize + blockBytes h (h.level (ptr - hdrSize))

instance (h : Heap) (ptr a : ℕ) : Decidable (BlockContains h ptr a) :=
  inferInstanceAs (Decidable (_ ∧ _))

/-- The first block of the first free list, from the level of the request up, that is not
empty, cut to the size of that level, does not contain the address `a`. -/
def ServedClearOf (a : ℕ) (h : Heap) (size : UInt64) : Prop :=
  size = 0 ∨ ∀ l, requestOrder h size ≤ l → l ≤ h.maxLevel → h.freeLists l ≠ 0 →
    (∀ k, requestOrder h size ≤ k → k < l → h.freeLists k = 0) →
    a < h.freeLists l ∨ h.freeLists l + blockBytes h (requestOrder h size) ≤ a

/-- The serving block is the only one that `ServedClearOf` speaks about. -/
theorem servingBlock_iff {ord block : ℕ} :
    servingBlock h ord = some block ↔ ∃ l, ord ≤ l ∧ l ≤ h.maxLevel ∧ h.freeLists l ≠ 0 ∧
      (∀ k, ord ≤ k → k < l → h.freeLists k = 0) ∧ h.freeLists l = block := by
  unfold servingBlock
  rw [Option.map_eq_some_iff]
  simp only [List.find?_range'_eq_some, List.mem_range'_1, decide_eq_true_eq, Bool.not_eq_true',
    decide_eq_false_iff_not, not_not]
  constructor
  · rintro ⟨l, ⟨hne, hrange, hfirst⟩, heq⟩
    exact ⟨l, by omega, by omega, hne, hfirst, heq⟩
  · rintro ⟨l, hle, hmax, hne, hfirst, heq⟩
    exact ⟨l, ⟨hne, by omega, hfirst⟩, heq⟩

/-- What a call of `mm_alloc` covers is what its serving block provides. -/
theorem alloc_clear_iff (R : Represents lo usable maxLevel h blocks lists) (a : ℕ)
    (hcall : mmAlloc endOfKernel h size = some (ptr, h')) :
    (ptr ≠ 0 → ¬BlockContains h' ptr a) ↔ ServedClearOf a h size := by
  obtain ⟨ptr', h'', hspec, hcases⟩ := mmAlloc_spec R endOfKernel size
  obtain ⟨rfl, rfl⟩ : ptr = ptr' ∧ h' = h'' := by
    rw [hcall] at hspec
    simpa using hspec
  rcases hcases with ⟨rfl, -, hnone⟩ | ⟨left, b, right, mid, rfl, -, hsize, hserve, rfl,
    -, R'⟩
  · refine ⟨fun _ => ?_, fun _ hne => absurd rfl hne⟩
    rcases hnone with hzero | hnone
    · exact Or.inl hzero
    · refine Or.inr fun l hle hmax hne hfirst => ?_
      have hsome := servingBlock_iff.mpr ⟨l, hle, hmax, hne, hfirst, rfl⟩
      rw [hnone] at hsome
      cases hsome
  · have hpos := (R.layout.address_pos (b := b) (by simp)).ne'
    have hord := requestOrder_lt h size
    unfold ServedClearOf
    generalize requestOrder h size = ord at hord hserve R' ⊢
    have hlevel : h'.level (b.address lo) = ord := by
      have hheader := R'.layout.header ⟨b.index, ord, .allocated⟩ (by simp) (by simp)
      simp only [Block.address] at hheader ⊢
      rw [hheader]
    have hbytes : blockBytes h' ord = blockBytes h ord := by
      rw [blockBytes_eq R'.statics.baseBlockSize hord, blockBytes_eq R.statics.baseBlockSize hord]
    have hne : b.address lo + hdrSize ≠ 0 := by omega
    simp only [BlockContains, Nat.add_sub_cancel, hlevel, hbytes, ne_eq, hne, not_false_eq_true,
      forall_const]
    constructor
    · intro hclear
      refine Or.inr fun l hle hmax hne hfirst => ?_
      have hsome := servingBlock_iff.mpr ⟨l, hle, hmax, hne, hfirst, rfl⟩
      rw [hserve] at hsome
      rw [← Option.some.inj hsome]
      omega
    · intro hclear
      obtain ⟨l, hle, hmax, hne, hfirst, haddr⟩ := servingBlock_iff.mp hserve
      rcases hclear with hzero | hclear
      · exact absurd hzero hsize
      · have hout := hclear l hle hmax hne hfirst
        rw [haddr] at hout
        omega

theorem mmInitDefault_eq {start : ℕ} {heapStart heapSize : UInt64}
    (D : DefaultRegion endOfKernel start heapStart heapSize) :
    mmInitDefault endOfKernel h₀ = mmInit h₀ heapStart heapSize := by
  have hle := D.start_le
  simp only [sampleCodeModuleAddress] at hle
  have hraw : alignUpU64 (Word64.add endOfKernel.toNat (mmPageSize * mmKernelStackPages))
      minAlign = start := D.aligned
  have hregion : mmDefaultRegion endOfKernel = (start, 0x20000000 - start) := by
    simp only [mmDefaultRegion, hraw, mmDefaultHeapLimit]
    rw [if_neg (by omega)]
  simp only [mmInitDefault, hregion]
  rw [if_pos ⟨D.start_ne, by omega⟩, D.start_eq, D.size_eq]

/-- The default region is accepted by `mm_init`. -/
theorem mmInitDefault_valid (hend : KernelBelowModule endOfKernel) (h₀ : Heap) :
    ∃ h₁ lo usable maxLevel blocks lists, mmInitDefault endOfKernel h₀ = some h₁ ∧
      Valid lo usable maxLevel ⟨h₁, []⟩ blocks lists := by
  obtain ⟨start, heapStart, heapSize, D⟩ := exists_defaultRegion hend
  have hge := D.size_ge
  obtain ⟨h₁, hinit, hflag, hspec⟩ := mmInit_spec D.heapStart_ne D.no_wrap (extent_of_limit D.size_le) h₀
  obtain ⟨-, blocks, lists, R, hfree⟩ := hspec (hflag (by omega))
  exact ⟨h₁, _, _, _, blocks, lists, (mmInitDefault_eq D).trans hinit, R.initial_valid hfree⟩

end Buddy

/-- In every run from the default region and with either manager, a call of `mm_alloc`
leaves the shell's module alone exactly when the free block that serves it, cut to what
the request takes, does not contain the module's address. -/
theorem alloc_avoids_module_iff {endOfKernel : UInt64} (hend : KernelBelowModule endOfKernel) :
    (∀ (h₀ : Simple.Heap) (s : Simple.System),
      ReflTransGen (Simple.Step endOfKernel) ⟨Simple.mmInitDefault endOfKernel h₀, []⟩ s →
      ∀ size ptr h', Simple.mmAlloc endOfKernel s.heap size = some (ptr, h') →
        ((ptr ≠ 0 → ¬Simple.BlockContains h' ptr sampleCodeModuleAddress) ↔
          Simple.ServedClearOf sampleCodeModuleAddress s.heap size)) ∧
    (∀ (h₀ h₁ : Buddy.Heap) (s : Buddy.System),
      Buddy.mmInitDefault endOfKernel h₀ = some h₁ →
      ReflTransGen (Buddy.Step endOfKernel) ⟨h₁, []⟩ s →
      ∀ size ptr h', Buddy.mmAlloc endOfKernel s.heap size = some (ptr, h') →
        ((ptr ≠ 0 → ¬Buddy.BlockContains h' ptr sampleCodeModuleAddress) ↔
          Buddy.ServedClearOf sampleCodeModuleAddress s.heap size)) := by
  constructor
  · intro h₀ s hrun size ptr h' hcall
    obtain ⟨lo, hi, blocks₀, freeList₀, V₀⟩ := Simple.mmInitDefault_valid hend h₀
    obtain ⟨blocks, freeList, V⟩ := V₀.run hrun
    exact Simple.alloc_clear_iff V.represents V.initialized _ hcall
  · intro h₀ h₁ s hinit hrun size ptr h' hcall
    obtain ⟨h₂, lo, usable, maxLevel, blocks₀, lists₀, hinit', V₀⟩ :=
      Buddy.mmInitDefault_valid hend h₀
    rw [hinit] at hinit'
    cases hinit'
    obtain ⟨blocks, lists, V⟩ := V₀.run hrun
    exact Buddy.alloc_clear_iff V.represents _ hcall

/-- The first allocation of 100 bytes, with either manager. -/
theorem alloc_avoids_module_iff_first :
    KernelBelowModule 0x110000 ∧
    (∃ ptr h', Simple.mmAlloc 0x110000 (Simple.mmInitDefault 0x110000 Simple.blankHeap) 100 =
        some (ptr, h') ∧
      ((ptr ≠ 0 → ¬Simple.BlockContains h' ptr sampleCodeModuleAddress) ↔
        Simple.ServedClearOf sampleCodeModuleAddress
          (Simple.mmInitDefault 0x110000 Simple.blankHeap) 100)) ∧
    ∃ h₁ ptr h', Buddy.mmInitDefault 0x110000 Buddy.blankHeap = some h₁ ∧
      Buddy.mmAlloc 0x110000 h₁ 100 = some (ptr, h') ∧
      ((ptr ≠ 0 → ¬Buddy.BlockContains h' ptr sampleCodeModuleAddress) ↔
        Buddy.ServedClearOf sampleCodeModuleAddress h₁ 100) := by
  have hend : KernelBelowModule 0x110000 := by decide
  have hsimple : (Simple.mmAlloc 0x110000 (Simple.mmInitDefault 0x110000 Simple.blankHeap)
      100).isSome = true := by decide +kernel
  have hbuddy : (Buddy.mmInitDefault 0x110000 Buddy.blankHeap).any (fun h =>
      (Buddy.mmAlloc 0x110000 h 100).isSome) = true := by decide +kernel
  obtain ⟨⟨ptr, h'⟩, hcall⟩ := Option.isSome_iff_exists.mp hsimple
  obtain ⟨h₁, hinit, hsome⟩ := (Option.any_eq_true _ _).mp hbuddy
  obtain ⟨⟨ptr', h''⟩, hcall'⟩ := Option.isSome_iff_exists.mp hsome
  have hiff := (alloc_avoids_module_iff hend).1 Simple.blankHeap _ ReflTransGen.refl 100 ptr h'
  dsimp only at hiff
  exact ⟨hend, ⟨ptr, h', hcall, hiff hcall⟩, h₁, ptr', h'', hinit, hcall',
    (alloc_avoids_module_iff hend).2 Buddy.blankHeap h₁ ⟨h₁, []⟩ hinit ReflTransGen.refl 100
      ptr' h'' hcall'⟩

/-- With the kernel ending at `0x110000`, one large request is enough to receive a block
that contains the module: 4 MiB with the simple manager, 128 MiB with the buddy manager. -/
theorem alloc_covers_module :
    (¬∀ endOfKernel, KernelBelowModule endOfKernel → ∀ h₀ s,
      ReflTransGen (Simple.Step endOfKernel) ⟨Simple.mmInitDefault endOfKernel h₀, []⟩ s →
      ∀ size ptr h', Simple.mmAlloc endOfKernel s.heap size = some (ptr, h') → ptr ≠ 0 →
        ¬Simple.BlockContains h' ptr sampleCodeModuleAddress) ∧
    ¬∀ endOfKernel, KernelBelowModule endOfKernel → ∀ h₀ h₁ s,
      Buddy.mmInitDefault endOfKernel h₀ = some h₁ →
      ReflTransGen (Buddy.Step endOfKernel) ⟨h₁, []⟩ s →
      ∀ size ptr h', Buddy.mmAlloc endOfKernel s.heap size = some (ptr, h') → ptr ≠ 0 →
        ¬Buddy.BlockContains h' ptr sampleCodeModuleAddress := by
  have hend : KernelBelowModule 0x110000 := by decide
  constructor
  · intro hclaim
    have hbad : (Simple.mmAlloc 0x110000 (Simple.mmInitDefault 0x110000 Simple.blankHeap)
        0x400000).any (fun r => decide (r.1 ≠ 0 ∧
          Simple.BlockContains r.2 r.1 sampleCodeModuleAddress)) = true := by decide +kernel
    obtain ⟨⟨ptr, h'⟩, hcall, hcontains⟩ := (Option.any_eq_true _ _).mp hbad
    obtain ⟨hne, hin⟩ := of_decide_eq_true hcontains
    have hclear := hclaim 0x110000 hend Simple.blankHeap _ ReflTransGen.refl 0x400000 ptr h'
    dsimp only at hclear
    exact hclear hcall hne hin
  · intro hclaim
    have hbad : (Buddy.mmInitDefault 0x110000 Buddy.blankHeap).any (fun h =>
        (Buddy.mmAlloc 0x110000 h 0x8000000).any (fun r => decide (r.1 ≠ 0 ∧
          Buddy.BlockContains r.2 r.1 sampleCodeModuleAddress))) = true := by decide +kernel
    obtain ⟨h₁, hinit, hbad⟩ := (Option.any_eq_true _ _).mp hbad
    obtain ⟨⟨ptr, h'⟩, hcall, hcontains⟩ := (Option.any_eq_true _ _).mp hbad
    obtain ⟨hne, hin⟩ := of_decide_eq_true hcontains
    exact hclaim 0x110000 hend Buddy.blankHeap h₁ ⟨h₁, []⟩ hinit ReflTransGen.refl _ ptr h' hcall
      hne hin

end SoKernel.Mm
