import SoKernel.Mm.Buddy.Canonical
import SoKernel.Mm.Clients
import SoKernel.Mm.Simple.Canonical

/-!
# What the managers can still serve

Whether a request is served depends on the blocks that are in use and not on how they came about:
a manager keeps its free space as large as it can be. In particular nothing is lost for good by what
the clients do.
-/

namespace SoKernel.Mm

/-- A request of this size gets a block. -/
def Serves (M : Allocator) (h : M.Heap) (size : UInt64) : Prop :=
  ∃ ptr h', syscallMalloc M h size = some (ptr, h') ∧ ptr ≠ 0

theorem serves_iff {M : Allocator} {h : M.Heap} {size : UInt64} (hsize : size ≠ 0) :
    Serves M h size ↔ ∃ ptr h', M.alloc h size = some (ptr, h') ∧ ptr ≠ 0 := by
  rw [Serves, syscallMalloc_of_ne hsize]

theorem not_serves_zero {M : Allocator} {h : M.Heap} : ¬Serves M h 0 := by
  rintro ⟨ptr, h', hcall, hptr⟩
  cases hcall
  exact hptr rfl

section Simple

open Simple

variable {lo hi : ℕ} {h h' : Simple.Heap} {blocks blocks' : List Simple.Block}
  {freeList freeList' : List ℕ} {endOfKernel size : UInt64}

/-- The simple manager serves what one of its free blocks has room for. -/
theorem Simple.Represents.serves_iff (R : Simple.Represents lo hi h blocks freeList)
    (hinit : h.mmInitializedFlag = true) (hsize : size ≠ 0) :
    (∃ ptr h', Simple.mmAlloc endOfKernel h size = some (ptr, h') ∧ ptr ≠ 0) ↔
      ∃ b ∈ blocks, b.allocated = false ∧ requiredSize size ≤ b.size := by
  constructor
  · rintro ⟨ptr, h', hcall, hptr⟩
    obtain ⟨left, b, right, rfl, hb, hfit, -⟩ := Simple.mmAlloc_serves R hinit hcall hptr
    exact ⟨b, by simp, hb, hfit⟩
  · rintro ⟨b, hb, hfree, hfit⟩
    obtain ⟨ptr, h', hcall, -, hcases⟩ := Simple.mmAlloc_spec R hinit endOfKernel size
    refine ⟨ptr, h', hcall, ?_⟩
    rcases hcases with ⟨-, -, hzero | hnone⟩ | ⟨_, c, _, -, -, -, rfl, -⟩
    · exact absurd hzero hsize
    · rcases findFirstFit_cases R (requiredSize size) with ⟨-, hall⟩ | ⟨_, c, _, rfl, -, -, hfind⟩
      · exact absurd (hall b hb hfree) (Nat.not_lt.mpr hfit)
      · have hpos := R.chained.address_pos (b := c) (by simp)
        exact absurd (Option.some_inj.mp (hfind.symm.trans hnone)) hpos.ne'
    · exact (Nat.add_pos_right _ (by decide)).ne'

/-- The same blocks in use leave the same blocks free. -/
theorem Simple.Represents.serves_congr (R : Simple.Represents lo hi h blocks freeList)
    (R' : Simple.Represents lo hi h' blocks' freeList') (hinit : h.mmInitializedFlag = true)
    (hinit' : h'.mmInitializedFlag = true)
    (hsame : {b | b ∈ Simple.allocatedBlocks blocks} = {b | b ∈ Simple.allocatedBlocks blocks'})
    (hsize : size ≠ 0) :
    (∃ ptr g, Simple.mmAlloc endOfKernel h size = some (ptr, g) ∧ ptr ≠ 0) ↔
      ∃ ptr g, Simple.mmAlloc endOfKernel h' size = some (ptr, g) ∧ ptr ≠ 0 := by
  obtain rfl := R.eq_of_allocated R' fun b => Set.ext_iff.mp hsame b
  rw [R.serves_iff hinit hsize, R'.serves_iff hinit' hsize]

/-- A block is known by its payload's address and size. -/
theorem Simple.Represents.block_eq (R : Simple.Represents lo hi h blocks freeList)
    (R' : Simple.Represents lo hi h' blocks' freeList') {b b' : Simple.Block} (hb : b ∈ blocks)
    (hb' : b' ∈ blocks') (hflag : b.allocated = b'.allocated)
    (haddress : b.address + headerSize = b'.address + headerSize)
    (hpayload : b.payload = b'.payload) : b = b' := by
  have hge := R.chained.size_ge b hb
  have hge' := R'.chained.size_ge b' hb'
  have hmin : minBlockSize = headerSize + 16 := rfl
  rw [Simple.Block.payload, Simple.Block.payload] at hpayload
  have hsize : b.size = b'.size := by omega
  obtain ⟨address, size, allocated⟩ := b
  obtain ⟨address', size', allocated'⟩ := b'
  simp only [Simple.Block.mk.injEq]
  exact ⟨Nat.add_right_cancel haddress, hsize, hflag⟩

end Simple

section Buddy

open Buddy

variable {lo usable maxLevel : ℕ} {h h' : Buddy.Heap} {blocks blocks' : List Buddy.Block}
  {lists lists' : ℕ → List ℕ} {endOfKernel size : UInt64}

/-- The buddy manager serves what one of its free blocks is large enough for. -/
theorem Buddy.Represents.serves_iff (R : Buddy.Represents lo usable maxLevel h blocks lists)
    (hsize : size ≠ 0) :
    (∃ ptr h', Buddy.mmAlloc endOfKernel h size = some (ptr, h') ∧ ptr ≠ 0) ↔
      ∃ b ∈ blocks, b.status = .free ∧ requestOrder h size ≤ b.level := by
  rw [← R.serving_iff]
  constructor
  · rintro ⟨ptr, h', hcall, hptr⟩ hnone
    obtain ⟨_, _, _, _, -, -, -, hserve, -⟩ := Buddy.mmAlloc_serves R hcall hptr
    rw [hnone] at hserve
    cases hserve
  · intro hserve
    obtain ⟨ptr, h', hcall, hcases⟩ := Buddy.mmAlloc_spec R endOfKernel size
    refine ⟨ptr, h', hcall, ?_⟩
    rcases hcases with ⟨-, -, hzero | hnone⟩ | ⟨_, _, _, _, -, -, -, -, rfl, -⟩
    · exact absurd hzero hsize
    · exact absurd hnone hserve
    · exact (Nat.add_pos_right _ (by decide)).ne'

/-- The same blocks in use leave the same blocks free. -/
theorem Buddy.Represents.serves_congr (R : Buddy.Represents lo usable maxLevel h blocks lists)
    (R' : Buddy.Represents lo usable maxLevel h' blocks' lists')
    (hsame : {b | b ∈ Buddy.allocatedBlocks blocks} = {b | b ∈ Buddy.allocatedBlocks blocks'})
    (hsize : size ≠ 0) :
    (∃ ptr g, Buddy.mmAlloc endOfKernel h size = some (ptr, g) ∧ ptr ≠ 0) ↔
      ∃ ptr g, Buddy.mmAlloc endOfKernel h' size = some (ptr, g) ∧ ptr ≠ 0 := by
  have horder : requestOrder h size = requestOrder h' size := by
    rw [requestOrder, requestOrder, orderFor, orderFor, R.statics.baseBlockSize,
      R'.statics.baseBlockSize]
  rw [R.serves_iff hsize, R'.serves_iff hsize, horder]
  simp only [R.mem_iff_of_allocated R' fun b => Set.ext_iff.mp hsame b]

/-- A block is known by its payload's address and size. -/
theorem Buddy.Block.eq_of_payload {b b' : Buddy.Block} (hstatus : b.status = b'.status)
    (haddress : b.address lo + hdrSize = b'.address lo + hdrSize)
    (hpayload : b.payload = b'.payload) : b = b' := by
  have hindex : b.index = b'.index := unitAddress_inj.mp (Nat.add_right_cancel haddress)
  have hpos := units_pos b
  have hpos' := units_pos b'
  have hhdr : hdrSize = 32 := by decide
  rw [Buddy.Block.payload, Buddy.Block.payload, hhdr, unitBytes] at hpayload
  have hunits : b.units = b'.units := by omega
  have hlevel : b.level = b'.level := Nat.pow_right_injective le_rfl hunits
  obtain ⟨index, level, status⟩ := b
  obtain ⟨index', level', status'⟩ := b'
  simp only [Buddy.Block.mk.injEq]
  exact ⟨hindex, hlevel, hstatus⟩

end Buddy

section Runs

variable {M : Allocator} {P : Type} {S : Storage M} {m m' : Shared M P} {h₀ h h' : M.Heap}
  {B B' : Set M.Block} {b b' : M.Block} {trace trace' : List (P × MemAct)}
  {bytes bytes' : ByteMemory} {heapStart heapSize endOfKernel size : UInt64}

/-- Where a block is and how large it is make the block. -/
theorem SetUp.block_eq (setUp : SetUp heapStart heapSize endOfKernel M S h₀) (hB : M.Holds h B)
    (hB' : M.Holds h' B') (hb : b ∈ B) (hb' : b' ∈ B') (hpayload : M.payload b = M.payload b')
    (hroom : S.room b = S.room b') : b = b' := by
  cases setUp with
  | simple init =>
      obtain ⟨-, blocks, freeList, R, rfl⟩ := hB
      obtain ⟨-, blocks', freeList', R', rfl⟩ := hB'
      obtain ⟨hmem, halloc⟩ := Simple.mem_allocatedBlocks.mp hb
      obtain ⟨hmem', halloc'⟩ := Simple.mem_allocatedBlocks.mp hb'
      exact R.block_eq R' hmem hmem' (halloc.trans halloc'.symm) hpayload hroom
  | buddy init flag =>
      obtain ⟨blocks, lists, R, rfl⟩ := hB
      obtain ⟨blocks', lists', R', rfl⟩ := hB'
      have halloc := (Buddy.mem_allocatedBlocks.mp hb).2
      have halloc' := (Buddy.mem_allocatedBlocks.mp hb').2
      exact Buddy.Block.eq_of_payload (halloc.trans halloc'.symm) hpayload hroom

/-- With the same blocks in use, the same requests are served. -/
theorem SetUp.serves_congr (setUp : SetUp heapStart heapSize endOfKernel M S h₀)
    (hB : M.Holds h B) (hB' : M.Holds h' B) : Serves M h size ↔ Serves M h' size := by
  by_cases hsize : size = 0
  · rw [hsize]
    exact iff_of_false not_serves_zero not_serves_zero
  rw [serves_iff hsize, serves_iff hsize]
  cases setUp with
  | simple init =>
      obtain ⟨hinit, blocks, freeList, R, rfl⟩ := hB
      obtain ⟨hinit', blocks', freeList', R', hsame⟩ := hB'
      exact R.serves_congr R' hinit hinit' hsame hsize
  | buddy init flag =>
      obtain ⟨blocks, lists, R, rfl⟩ := hB
      obtain ⟨blocks', lists', R', hsame⟩ := hB'
      exact R.serves_congr R' hsame hsize

/-- The blocks in use can be read off their owners and sizes. -/
theorem SetUp.subset_of_owned (setUp : SetUp heapStart heapSize endOfKernel M S h₀) (h : m.Inv B)
    (h' : m'.Inv B') (howned : ∀ ptr, m.owner ptr = none ↔ m'.owner ptr = none)
    (hsizes : ∀ ptr, m.owner ptr ≠ none →
      S.payloadSize m.heap ptr = S.payloadSize m'.heap ptr) : B ⊆ B' := by
  intro b hb
  obtain ⟨p, hp⟩ := (h.owned (M.payload b)).mpr ⟨b, hb, rfl⟩
  have hne : m.owner (M.payload b) ≠ none := by simp [hp]
  obtain ⟨q, hq⟩ := Option.ne_none_iff_exists'.mp fun hnone => hne ((howned _).mpr hnone)
  obtain ⟨c, hc, hpayload⟩ := (h'.owned (M.payload b)).mp ⟨q, hq⟩
  have hroom : S.room b = S.room c := by
    rw [← S.payloadSize_eq h.holds hb, ← S.payloadSize_eq h'.holds hc, hpayload]
    exact hsizes _ hne
  rwa [setUp.block_eq h.holds h'.holds hb hc hpayload.symm hroom]

/-- With either manager, what a request gets depends on the blocks that are in use and not on the
calls that led there: after two runs in which the same addresses belong to somebody, with blocks of
the same sizes, the same requests are served. -/
theorem requests_forget_history (setUp : SetUp heapStart heapSize endOfKernel M S h₀)
    (hstart : heapStart ≠ 0) (hwrap : heapStart.toNat + heapSize.toNat ≤ 2 ^ 64)
    (hlimit : heapSize.toNat ≤ Simple.mmDefaultHeapLimit)
    (run : ClientRuns S (Shared.unused h₀ bytes) trace m)
    (run' : ClientRuns S (Shared.unused h₀ bytes') trace' m')
    (howned : ∀ ptr, m.owner ptr = none ↔ m'.owner ptr = none)
    (hsizes : ∀ ptr, m.owner ptr ≠ none →
      S.payloadSize m.heap ptr = S.payloadSize m'.heap ptr) (size : UInt64) :
    Serves M m.heap size ↔ Serves M m'.heap size := by
  have hholds := setUp.holds hstart hwrap hlimit
  obtain ⟨B, hm⟩ := run.inv (.unused hholds bytes)
  obtain ⟨B', hm'⟩ := run'.inv (.unused hholds bytes')
  have hsame : B' = B := by
    apply Set.Subset.antisymm
    · refine setUp.subset_of_owned hm' hm (fun ptr => (howned ptr).symm) fun ptr hne => ?_
      exact (hsizes ptr fun hnone => hne ((howned ptr).mp hnone)).symm
    · exact setUp.subset_of_owned hm hm' howned hsizes
  exact setUp.serves_congr hm.holds (hsame ▸ hm'.holds)

/-- In a region of one page, 4032 bytes are there again when a client has freed its 100. -/
theorem requests_forget_history_page :
    ∃ (M : Allocator) (S : Storage M) (h : M.Heap) (m : Shared M Unit),
      SetUp 0x10008 4096 0x101000 M S h ∧
      ClientRuns S (Shared.unused h fun _ => 0)
        [((), .malloc 100 0x10038), ((), .free 0x10038)] m ∧ Serves M m.heap 4032 := by
  obtain ⟨M, S, h, h₁, setUp, hcall, -, -, hlarge⟩ := SetUp.page
  obtain ⟨m₁, run₁, hnobody, own⟩ : ∃ m : Shared M Unit,
      ClientRuns S (Shared.unused h fun _ => 0) [((), .malloc 100 0x10038)] m ∧
        (∀ ptr, ptr ≠ 0x10038 → m.owner ptr = none) ∧ m.owner 0x10038 = some () :=
    ⟨_, .first (by decide) (by decide) hcall, fun ptr hptr => by dsimp only; rw [Function.update_of_ne hptr],
      by dsimp only; rw [Function.update_self]⟩
  obtain ⟨B, hm₁⟩ := run₁.inv (.unused (setUp.holds (by decide) (by decide) (by decide)) _)
  obtain ⟨b, hb, hpayload, hne⟩ := hm₁.block own
  obtain ⟨h', hfree, -⟩ := M.free_spec hm₁.holds hb
  have hcall' : syscallFree M m₁.heap 0x10038 = some h' := by
    rw [← hpayload, syscallFree, if_neg hne, hfree]
  have run := run₁.snoc (.free own hcall' fun _ _ => rfl)
  have hall : ∀ ptr, Function.update m₁.owner 0x10038 none ptr = none := by
    intro ptr
    by_cases hptr : ptr = 0x10038
    · rw [hptr, Function.update_self]
    · rw [Function.update_of_ne hptr, hnobody ptr hptr]
  have unused := @ClientRuns.nil M Unit S (Shared.unused h fun _ => 0)
  have hsame := requests_forget_history setUp (by decide) (by decide) (by decide) run unused
    (fun ptr => iff_of_true (hall ptr) rfl) (fun ptr hptr => absurd (hall ptr) hptr) 4032
  exact ⟨M, S, h, _, setUp, run, hsame.mpr ((serves_iff (by decide)).mpr hlarge)⟩

end Runs

end SoKernel.Mm
