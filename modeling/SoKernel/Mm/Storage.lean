import SoKernel.Mm.Allocator
import SoKernel.Mm.Buddy.Frame
import SoKernel.Mm.Buddy.Requests
import SoKernel.Mm.Simple.Frame

/-!
# The blocks of a manager as storage

What clients rely on besides the blocks being theirs: a block has room for what was asked for, the
payloads do not meet, and the calls of the others leave them alone. Both managers provide it.
-/

namespace SoKernel.Mm

/-- How the blocks of a manager lie in memory, and what its calls change there. -/
structure Storage (M : Allocator) where
  /-- The number of bytes that a client may use at a pointer. -/
  payloadSize : M.Heap → ℕ → ℕ
  /-- The byte is in a header in which the two heaps differ. -/
  Changed : M.Heap → M.Heap → ℕ → Prop
  /-- The second heap comes from a client that writes in the payload at a pointer. -/
  ClientWrite : M.Heap → ℕ → M.Heap → Prop
  room : M.Block → ℕ
  changed_irrefl : ∀ {h i}, ¬Changed h h i
  payloadSize_eq : ∀ {h B b}, M.Holds h B → b ∈ B → payloadSize h (M.payload b) = room b
  apart : ∀ {h B b c}, M.Holds h B → b ∈ B → c ∈ B → M.payload b ≠ M.payload c →
    M.payload b + room b ≤ M.payload c ∨ M.payload c + room c ≤ M.payload b
  /-- No request of a 32-bit size gets a smaller block. -/
  alloc_fits : ∀ {h B size ptr h'}, M.Holds h B → M.alloc h size = some (ptr, h') → ptr ≠ 0 →
    size.toNat < 2 ^ 32 → size.toNat ≤ payloadSize h' ptr
  alloc_spares : ∀ {h B size ptr h' b i}, M.Holds h B → M.alloc h size = some (ptr, h') → b ∈ B →
    Changed h h' i → i < M.payload b ∨ M.payload b + room b ≤ i
  free_spares : ∀ {h B h' b c i}, M.Holds h B → b ∈ B → M.free h (M.payload b) = some h' → c ∈ B →
    M.payload c ≠ M.payload b → Changed h h' i → i < M.payload c ∨ M.payload c + room c ≤ i
  write_holds : ∀ {h B b h'}, M.Holds h B → b ∈ B → ClientWrite h (M.payload b) h' → M.Holds h' B

/-- The byte is in one of the headers. -/
def InHeader (headerSize : ℕ) (differs : ℕ → Prop) (i : ℕ) : Prop :=
  ∃ a, a ≤ i ∧ i < a + headerSize ∧ differs a

section Simple

open Simple

variable {lo hi : ℕ} {h h' : Simple.Heap} {blocks : List Simple.Block} {freeList : List ℕ}
  {b : Simple.Block}

/-- All allocated blocks are live. -/
theorem Simple.Represents.valid (R : Simple.Represents lo hi h blocks freeList)
    (hinit : h.mmInitializedFlag = true) :
    Simple.Valid lo hi ⟨h, (Simple.allocatedBlocks blocks).map fun b => b.address + headerSize⟩
      blocks freeList := by
  refine ⟨R, hinit, ?_, fun p => by simp [eq_comm]⟩
  have hnodup : ((Simple.allocatedBlocks blocks).map Simple.Block.address).Nodup :=
    (List.filter_sublist.map _).nodup R.chained.addresses_nodup
  have hlive := hnodup.map (add_left_injective headerSize)
  rwa [List.map_map] at hlive

/-- A request of a 32-bit size gets what it asked for. -/
theorem Simple.Represents.alloc_fits {endOfKernel size : UInt64} {ptr : ℕ}
    (R : Simple.Represents lo hi h blocks freeList) (hinit : h.mmInitializedFlag = true)
    (hcall : Simple.mmAlloc endOfKernel h size = some (ptr, h')) (hptr : ptr ≠ 0)
    (hsmall : size.toNat < 2 ^ 32) : size.toNat ≤ Simple.payloadSize h' ptr := by
  obtain ⟨_, b, _, -, -, -, -, hsize, -, hroom, -⟩ := Simple.mmAlloc_serves R hinit hcall hptr
  have hrequired := requiredSize_of_le hsize (by unfold Simple.maxRequest; omega)
  have hround := le_roundedSize size
  omega

/-- No header that such a call changes has a byte in a payload that it spares. -/
theorem Simple.WritesIn.spares {held : List Simple.Block} {i : ℕ}
    (hwrites : Simple.WritesIn (Simple.Clear lo hi held) h h') (hb : b ∈ held)
    (hsize : headerSize ≤ b.size)
    (hchanged : InHeader headerSize (fun a => h'.header a ≠ h.header a) i) :
    i < b.address + headerSize ∨ b.address + headerSize + b.payload ≤ i := by
  obtain ⟨a, hlow, hhigh, hne⟩ := hchanged
  have hclear := (not_not.mp fun hA => hne (hwrites a hA)).2.2 b hb
  rw [Simple.Block.payload]
  omega

/-- The blocks of the manager of `mm_simple.c`. -/
def simpleStorage (lo hi : ℕ) (endOfKernel : UInt64) :
    Storage (simpleAllocator lo hi endOfKernel) where
  payloadSize := Simple.payloadSize
  Changed h h' := InHeader headerSize fun a => h'.header a ≠ h.header a
  ClientWrite := Simple.ClientWrite
  room := Simple.Block.payload
  changed_irrefl := fun ⟨_, _, _, hne⟩ => hne rfl
  payloadSize_eq := by
    rintro h _ b ⟨-, blocks, freeList, R, rfl⟩ hb
    exact Simple.payloadSize_eq R (mem_allocatedBlocks.mp hb).1
  apart := by
    rintro h _ b c ⟨hinit, blocks, freeList, R, rfl⟩ hb hc hne
    have V := R.valid hinit
    have hdisjoint := V.payloads_disjoint (List.mem_map_of_mem hb) (List.mem_map_of_mem hc) hne
    rwa [Simple.payloadSize_eq R (mem_allocatedBlocks.mp hb).1,
      Simple.payloadSize_eq R (mem_allocatedBlocks.mp hc).1] at hdisjoint
  alloc_fits := by
    rintro h _ size ptr h' ⟨hinit, blocks, freeList, R, rfl⟩ hcall hptr hsmall
    exact R.alloc_fits hinit hcall hptr hsmall
  alloc_spares := by
    rintro h _ size ptr h' b i ⟨hinit, blocks, freeList, R, rfl⟩ hcall hb hchanged
    have hge := R.chained.size_ge b (mem_allocatedBlocks.mp hb).1
    exact (R.writes_alloc hinit hcall).spares hb (le_trans (by decide) hge) hchanged
  free_spares := by
    rintro h _ h' b c i ⟨hinit, blocks, freeList, R, rfl⟩ hb hcall hc hne hchanged
    obtain ⟨hmem, halloc⟩ := mem_allocatedBlocks.mp hb
    have hge := R.chained.size_ge c (mem_allocatedBlocks.mp hc).1
    obtain ⟨left, right, rfl⟩ := List.append_of_mem hmem
    rw [← Option.some_inj.mp hcall] at hchanged
    refine (R.writes_free halloc hinit).spares ?_ (le_trans (by decide) hge) hchanged
    exact (R.chained.mem_allocatedBlocks_cut c).mpr
      ⟨hc, fun heq => hne (congrArg (· + headerSize) heq)⟩
  write_holds := by
    rintro h _ b h' ⟨hinit, blocks, freeList, R, rfl⟩ hb hwrite
    have V := (R.valid hinit).write (List.mem_map_of_mem hb) hwrite
    exact ⟨V.initialized, blocks, freeList, V.represents, rfl⟩

end Simple

section Buddy

open Buddy

variable {lo usable maxLevel : ℕ} {h h' : Buddy.Heap} {blocks : List Buddy.Block}
  {lists : ℕ → List ℕ} {b : Buddy.Block}

/-- All allocated blocks are live. -/
theorem Buddy.Represents.valid (R : Buddy.Represents lo usable maxLevel h blocks lists) :
    Buddy.Valid lo usable maxLevel
      ⟨h, (Buddy.allocatedBlocks blocks).map fun b => b.address lo + hdrSize⟩ blocks lists := by
  refine ⟨R, ?_, fun p => by simp [eq_comm]⟩
  have hnodup : ((Buddy.allocatedBlocks blocks).map Buddy.Block.index).Nodup :=
    (List.filter_sublist.map _).nodup (R.layout.tiles.starts_nodup fun x _ => units_pos x)
  have hinj : Function.Injective fun n => unitAddress lo n + hdrSize :=
    fun m n heq => unitAddress_inj.mp (Nat.add_right_cancel heq)
  have hlive := hnodup.map hinj
  rwa [List.map_map] at hlive

theorem Buddy.payloadSize_eq (R : Buddy.Represents lo usable maxLevel h blocks lists)
    (hb : b ∈ blocks) : Buddy.payloadSize h (b.address lo + hdrSize) = b.payload :=
  R.valid.payloadSize_eq hb

/-- A request of a 32-bit size gets what it asked for. -/
theorem Buddy.Represents.alloc_fits {endOfKernel size : UInt64} {ptr : ℕ}
    (R : Buddy.Represents lo usable maxLevel h blocks lists)
    (hcall : Buddy.mmAlloc endOfKernel h size = some (ptr, h')) (hptr : ptr ≠ 0)
    (hsmall : size.toNat < 2 ^ 32) : size.toNat ≤ Buddy.payloadSize h' ptr := by
  obtain ⟨_, _, _, _, -, -, -, -, -, -, -, hroom⟩ := Buddy.mmAlloc_serves R hcall hptr
  have htop : topBytes = 2 ^ 37 := by norm_num [topBytes, unitBytes, mmMaxLevels]
  have hhdr : hdrSize = 32 := by decide
  have hfits := requestOrder_fits_iff R.statics.baseBlockSize size
  rw [hroom]
  exact hfits.mpr (by unfold Buddy.maxRequest; omega)

/-- No header that such a call changes has a byte in a payload that it spares. -/
theorem Buddy.WritesIn.spares {held : List Buddy.Block} {count i : ℕ}
    (hwrites : Buddy.WritesIn (Buddy.Clear lo count held) h h') (hb : b ∈ held)
    (hchanged : InHeader hdrSize (fun a => h'.header a ≠ h.header a) i) :
    i < b.address lo + hdrSize ∨ b.address lo + hdrSize + b.payload ≤ i := by
  obtain ⟨a, hlow, hhigh, hne⟩ := hchanged
  have hclear := (not_not.mp fun hA => hne (hwrites a hA)).2.2 b hb
  have hpos := units_pos b
  have hhdr : hdrSize = 32 := by decide
  simp only [Buddy.Block.payload, unitBytes] at hclear ⊢
  omega

/-- The blocks of the manager of `mm_buddy.c`. -/
def buddyStorage (lo usable maxLevel : ℕ) (endOfKernel : UInt64) :
    Storage (buddyAllocator lo usable maxLevel endOfKernel) where
  payloadSize := Buddy.payloadSize
  Changed h h' := InHeader hdrSize fun a => h'.header a ≠ h.header a
  ClientWrite := Buddy.ClientWrite
  room := Buddy.Block.payload
  changed_irrefl := fun ⟨_, _, _, hne⟩ => hne rfl
  payloadSize_eq := by
    rintro h _ b ⟨blocks, lists, R, rfl⟩ hb
    exact Buddy.payloadSize_eq R (mem_allocatedBlocks.mp hb).1
  apart := by
    rintro h _ b c ⟨blocks, lists, R, rfl⟩ hb hc hne
    have hdisjoint := R.valid.payloads_disjoint (List.mem_map_of_mem hb) (List.mem_map_of_mem hc) hne
    rwa [Buddy.payloadSize_eq R (mem_allocatedBlocks.mp hb).1,
      Buddy.payloadSize_eq R (mem_allocatedBlocks.mp hc).1] at hdisjoint
  alloc_fits := by
    rintro h _ size ptr h' ⟨blocks, lists, R, rfl⟩ hcall hptr hsmall
    exact R.alloc_fits hcall hptr hsmall
  alloc_spares := by
    rintro h _ size ptr h' b i ⟨blocks, lists, R, rfl⟩ hcall hb hchanged
    exact (R.writes_alloc hcall).spares hb hchanged
  free_spares := by
    rintro h _ h' b c i ⟨blocks, lists, R, rfl⟩ hb hcall hc hne hchanged
    obtain ⟨hmem, halloc⟩ := mem_allocatedBlocks.mp hb
    obtain ⟨left, right, rfl⟩ := List.append_of_mem hmem
    refine (R.writes_free halloc hcall).spares ?_ hchanged
    exact (R.layout.mem_allocatedBlocks_cut c).mpr
      ⟨hc, fun heq => hne (congrArg (· + hdrSize) heq)⟩
  write_holds := by
    rintro h _ b h' ⟨blocks, lists, R, rfl⟩ hb hwrite
    exact ⟨blocks, lists, (R.valid.write (List.mem_map_of_mem hb) hwrite).represents, rfl⟩

end Buddy

/-- One of the two managers, with the heap that its `mm_init` leaves in a region. -/
inductive SetUp (heapStart heapSize endOfKernel : UInt64) : (M : Allocator) → Storage M → M.Heap → Prop
  | simple {h : Simple.Heap}
      (init : (Simple.mmInit h heapStart heapSize).mmInitializedFlag = true) :
      SetUp heapStart heapSize endOfKernel _
        (simpleStorage (Simple.alignedStart heapStart)
          (Simple.alignedStart heapStart + Simple.usableBytes heapStart heapSize) endOfKernel)
        (Simple.mmInit h heapStart heapSize)
  | buddy {h h' : Buddy.Heap} (init : Buddy.mmInit h heapStart heapSize = some h')
      (flag : h'.mmInitializedFlag = true) :
      SetUp heapStart heapSize endOfKernel _
        (buddyStorage (Buddy.alignedStart heapStart) (Buddy.usableBytes heapStart heapSize)
          (Buddy.topLevel (Buddy.usableBytes heapStart heapSize)) endOfKernel) h'

/-- After `mm_init` nothing is allocated. -/
theorem SetUp.holds {heapStart heapSize endOfKernel : UInt64} {M : Allocator} {S : Storage M}
    {h : M.Heap} (setUp : SetUp heapStart heapSize endOfKernel M S h) (hstart : heapStart ≠ 0)
    (hwrap : heapStart.toNat + heapSize.toNat ≤ 2 ^ 64)
    (hlimit : heapSize.toNat ≤ Simple.mmDefaultHeapLimit) : M.Holds h ∅ := by
  cases setUp with
  | simple init =>
      have V := Simple.mmInit_valid hstart hwrap (Simple.extent_of_limit hlimit) init
      refine ⟨init, _, _, V.represents, (Set.eq_empty_iff_forall_notMem.mpr fun b hb => ?_).symm⟩
      cases hb
  | buddy init flag =>
      obtain ⟨h', hinit, -, hspec⟩ := Buddy.mmInit_spec hstart hwrap (Buddy.extent_of_limit hlimit) _
      obtain rfl := Option.some_inj.mp (init.symm.trans hinit)
      obtain ⟨-, blocks, lists, R, hfree⟩ := hspec flag
      refine ⟨blocks, lists, R, (Set.eq_empty_iff_forall_notMem.mpr fun b hb => ?_).symm⟩
      obtain ⟨hmem, halloc⟩ := Buddy.mem_allocatedBlocks.mp hb
      rw [hfree b hmem] at halloc
      cases halloc

/-- A region of one page, in which 100 bytes or 4032 can be allocated. -/
theorem SetUp.page :
    ∃ (M : Allocator) (S : Storage M) (h h₁ : M.Heap), SetUp 0x10008 4096 0x101000 M S h ∧
      M.alloc h 100 = some (0x10038, h₁) ∧ 0 < S.payloadSize h₁ 0x10038 ∧
      S.ClientWrite h₁ 0x10038 h₁ ∧ ∃ ptr h₂, M.alloc h 4032 = some (ptr, h₂) ∧ ptr ≠ 0 := by
  have hinit : (Simple.mmInit Simple.blankHeap 0x10008 4096).mmInitializedFlag = true := by
    decide +kernel
  have hcalc : (Simple.mmAlloc 0x101000 (Simple.mmInit Simple.blankHeap 0x10008 4096) 100).map
      (fun r => decide (r.1 = 0x10038 ∧ 0 < Simple.payloadSize r.2 0x10038)) = some true := by
    decide +kernel
  have hlarge : (Simple.mmAlloc 0x101000 (Simple.mmInit Simple.blankHeap 0x10008 4096) 4032).any
      (fun r => decide (r.1 ≠ 0)) = true := by
    decide +kernel
  obtain ⟨⟨p, h₁⟩, hcall, hvalue⟩ := Option.map_eq_some_iff.mp hcalc
  obtain ⟨rfl, hpos⟩ := of_decide_eq_true hvalue
  obtain ⟨⟨q, h₂⟩, hcall', hq⟩ := (Option.any_eq_true _ _).mp hlarge
  have setUp : SetUp 0x10008 4096 0x101000 _ _ _ := .simple hinit
  generalize Simple.mmInit Simple.blankHeap 0x10008 4096 = h at hcall hcall' setUp
  refine ⟨simpleAllocator _ _ 0x101000, simpleStorage _ _ 0x101000, h, h₁, setUp, hcall, hpos, ?_,
    q, h₂, hcall', of_decide_eq_true hq⟩
  constructor <;> intros <;> rfl

end SoKernel.Mm
