import SoKernel.Mm.Simple.Run

/-!
# What the simple memory manager writes

The manager shares its memory with its clients. A call changes headers only, and none of these
shares a byte with the payload of a block that stays allocated; so a client finds in its payload
what it has written there, whatever the others allocate and free.
-/

namespace SoKernel.Mm.Simple

open Function (update)
open Relation (ReflTransGen)

variable {lo hi a a' : ℕ} {h h' h'' : Heap} {blocks held left right : List Block} {b : Block}
  {freeList : List ℕ} {A : ℕ → Prop}

section Headers

/-- The fields of the header at an address. -/
def Heap.header (h : Heap) (a : ℕ) : ℕ × ℕ × ℕ × FreePtr × FreePtr :=
  (h.sizeAndFlags a, h.prevPhys a, h.nextPhys a, h.prevFree (.block a), h.nextFree (.block a))

/-- The memories differ at most in headers for which `A` allows it. -/
def WritesIn (A : ℕ → Prop) (h h' : Heap) : Prop := ∀ a, ¬A a → h'.header a = h.header a

theorem WritesIn.trans (first : WritesIn A h h') (second : WritesIn A h' h'') : WritesIn A h h'' :=
  fun a ha => (second a ha).trans (first a ha)

/-- The counters of the manager are not in any header. -/
theorem WritesIn.of_fields (hw : h'.sizeAndFlags = h.sizeAndFlags) (hp : h'.prevPhys = h.prevPhys)
    (hn : h'.nextPhys = h.nextPhys) (hpf : h'.prevFree = h.prevFree)
    (hnf : h'.nextFree = h.nextFree) : WritesIn A h h' := by
  intro a _
  rw [Heap.header, Heap.header, hw, hp, hn, hpf, hnf]

theorem blockMarkAllocated_writes (ha : A a) : WritesIn A h (blockMarkAllocated h a) := by
  intro x hx
  have hne : x ≠ a := fun heq => hx (heq ▸ ha)
  simp [Heap.header, blockMarkAllocated, hne]

/-- Only the neighbours in the list are written besides the block. -/
theorem freeListRemove_writes (ha : A a) (hp : ∀ x, h.prevFree (.block a) = .block x → A x)
    (hn : ∀ x, h.nextFree (.block a) = .block x → A x) : WritesIn A h (freeListRemove h a) := by
  intro x hx
  have hne : x ≠ a := fun heq => hx (heq ▸ ha)
  have hprev : FreePtr.block x ≠ h.prevFree (.block a) := fun heq => hx (hp x heq.symm)
  have hnext : FreePtr.block x ≠ h.nextFree (.block a) := fun heq => hx (hn x heq.symm)
  have hread : update h.nextFree (h.prevFree (.block a)) (h.nextFree (.block a)) (.block a) =
      h.nextFree (.block a) := by
    by_cases heq : h.prevFree (.block a) = .block a
    · rw [heq, Function.update_self]
    · rw [Function.update_of_ne (Ne.symm heq)]
  simp [Heap.header, freeListRemove, hread, hne, hprev, hnext]

theorem freeListInsert_writes (ha : A a) (hn : ∀ x, h.nextFree .sentinel = .block x → A x) :
    WritesIn A h (freeListInsert h a) := by
  intro x hx
  have hne : x ≠ a := fun heq => hx (heq ▸ ha)
  have hnext : FreePtr.block x ≠ h.nextFree .sentinel := fun heq => hx (hn x heq.symm)
  simp [Heap.header, freeListInsert, hne, hnext]

/-- The block behind the two is written as well, if there is one. -/
theorem absorbNext_writes (ha : A a) (hne : a' ≠ a) (hn : h.nextPhys a' ≠ 0 → A (h.nextPhys a')) :
    WritesIn A h (absorbNext h a a') := by
  intro x hx
  have hxa : x ≠ a := fun heq => hx (heq ▸ ha)
  by_cases hz : h.nextPhys a' = 0
  · simp [Heap.header, absorbNext, hz, hne, hxa]
  · have hnext : x ≠ h.nextPhys a' := fun heq => hx (heq ▸ hn hz)
    simp [Heap.header, absorbNext, hz, hne, hxa, hnext]

/-- A split writes the header of the block, a header inside of it, and that of the block behind. -/
theorem splitBlockIfPossible_writes {required : ℕ} (ha : A a)
    (hcut : ¬blockSize h a < Word64.add required minBlockSize → A (Word64.add a required))
    (hphys : h.nextPhys a ≠ 0 → A (h.nextPhys a)) (hn : ∀ x, h.nextFree .sentinel = .block x → A x) :
    WritesIn A h (splitBlockIfPossible h a required) := by
  intro x hx
  by_cases hfit : blockSize h a < Word64.add required minBlockSize
  · rw [splitBlockIfPossible, if_pos hfit]
  have hxa : x ≠ a := fun heq => hx (heq ▸ ha)
  have hxc : x ≠ Word64.add a required := fun heq => hx (heq ▸ hcut hfit)
  have hnext : FreePtr.block x ≠ h.nextFree .sentinel := fun heq => hx (hn x heq.symm)
  by_cases hz : h.nextPhys a = 0
  · simp [Heap.header, splitBlockIfPossible, freeListInsert, blockMarkFree, hfit, hz, hxa, hxc, hnext]
  · have hxn : x ≠ h.nextPhys a := fun heq => hx (heq ▸ hphys hz)
    simp [Heap.header, splitBlockIfPossible, freeListInsert, blockMarkFree, hfit, hz, hxa, hxc, hnext,
      hxn]

end Headers

section Layouts

/-- A header at `a` lies in the heap and shares no byte with the payload of a block of `held`. -/
def Clear (lo hi : ℕ) (held : List Block) (a : ℕ) : Prop :=
  lo ≤ a ∧ a + headerSize ≤ hi ∧
    ∀ x ∈ held, a + headerSize ≤ x.address + headerSize ∨ x.address + x.size ≤ a

/-- There is room for headers in a block that is not held. -/
theorem Chained.clear_inside (C : Chained lo hi h blocks) (hheld : ∀ x ∈ held, x ∈ blocks)
    (hb : b ∈ blocks) (hfree : b ∉ held) (hlow : b.address ≤ a)
    (hhigh : a + headerSize ≤ b.address + b.size) : Clear lo hi held a := by
  have hbound := C.bounds hb
  refine ⟨by omega, by omega, fun x hx => ?_⟩
  rcases C.tiles.eq_or_disjoint hb (hheld x hx) with rfl | hd
  · exact absurd hx hfree
  · omega

/-- The headers of the layout are clear of all payloads. -/
theorem Chained.clear (C : Chained lo hi h blocks) (hheld : ∀ x ∈ held, x ∈ blocks)
    (hb : b ∈ blocks) : Clear lo hi held b.address := by
  have hbound := C.bounds hb
  have hge := C.size_ge b hb
  have hmin : minBlockSize = 56 := rfl
  have hhdr : headerSize = 40 := rfl
  refine ⟨by omega, by omega, fun x hx => ?_⟩
  rcases C.tiles.eq_or_disjoint hb (hheld x hx) with rfl | hd
  · exact .inl le_rfl
  · omega

/-- What follows the sentinel is in the list. -/
theorem FreeRing.first_mem (F : FreeRing h freeList) (hx : h.nextFree .sentinel = .block a) :
    a ∈ freeList := by
  have hfirst : h.nextFree .sentinel = ((freeList.map FreePtr.block).head?).getD .sentinel :=
    LinkedRing.Ring.nx_anchor F
  rw [hx] at hfirst
  cases freeList with
  | nil => cases hfirst
  | cons y L =>
      rw [FreePtr.block.inj hfirst]
      exact List.mem_cons_self

theorem FreeRing.writes_remove (F : FreeRing h freeList) (hA : ∀ x ∈ freeList, A x)
    (ha : a ∈ freeList) : WritesIn A h (freeListRemove h a) := by
  have hmem : FreePtr.block a ∈ freeList.map FreePtr.block := List.mem_map_of_mem ha
  have hback : ∀ x, FreePtr.block x ∈ FreePtr.sentinel :: freeList.map FreePtr.block → A x := by
    intro x hx
    apply hA x
    simpa using hx
  refine freeListRemove_writes (hA a ha) (fun x hx => hback x ?_) fun x hx => hback x ?_
  · rw [← hx]
    exact LinkedRing.Ring.pv_mem F hmem
  · rw [← hx]
    exact LinkedRing.Ring.nx_mem F hmem

theorem FreeRing.writes_insert (F : FreeRing h freeList) (hA : ∀ x ∈ freeList, A x) (ha : A a) :
    WritesIn A h (freeListInsert h a) :=
  freeListInsert_writes ha fun x hx => hA x (F.first_mem hx)

/-- The block behind a block is in the layout. -/
theorem Chained.next_of_ne_zero (C : Chained lo hi h (left ++ b :: right))
    (hz : h.nextPhys b.address ≠ 0) : ∃ c ∈ right, h.nextPhys b.address = c.address := by
  have hnext := C.nextPhys_eq
  cases right with
  | nil => exact absurd (by simpa using hnext) hz
  | cons c right => exact ⟨c, List.mem_cons_self, by simpa using hnext⟩

end Layouts

section Calls

theorem Represents.clear_free (R : Represents lo hi h blocks freeList) (ha : a ∈ freeList) :
    Clear lo hi (allocatedBlocks blocks) a := by
  obtain ⟨x, hx, rfl, -⟩ := (R.mem_freeList a).mp ha
  exact R.chained.clear (fun y hy => (mem_allocatedBlocks.mp hy).1) hx

/-- Taking a block writes its header, the headers beside it, and one inside of it. -/
theorem Represents.writes_allocate {required : ℕ}
    (R : Represents lo hi h (left ++ b :: right) freeList) (hb : b.allocated = false)
    (hfit : required ≤ b.size) :
    WritesIn (Clear lo hi (allocatedBlocks (left ++ b :: right))) h
      (allocateBlock h b.address required).2 := by
  have C := R.chained
  have hheld : ∀ x ∈ allocatedBlocks (left ++ b :: right), x ∈ left ++ b :: right :=
    fun x hx => (mem_allocatedBlocks.mp hx).1
  have hmem : b ∈ left ++ b :: right := by simp
  have hfree : b ∉ allocatedBlocks (left ++ b :: right) := by
    intro hx
    simp [(mem_allocatedBlocks.mp hx).2] at hb
  have hlisted : b.address ∈ freeList := (R.mem_freeList _).mpr ⟨b, hmem, rfl, hb⟩
  have hbound := C.bounds hmem
  have hlt := C.size_lt hmem
  have hhigh := C.high_le
  have hmin : minBlockSize = 56 := rfl
  have hhdr : headerSize = 40 := rfl
  have hA := C.clear hheld hmem
  have hremove := R.ring.writes_remove (fun _ => R.clear_free) hlisted
  obtain ⟨P, -, -⟩ := R.unlink hb
  have hsplit : WritesIn (Clear lo hi (allocatedBlocks (left ++ b :: right)))
      (freeListRemove h b.address)
      (splitBlockIfPossible (freeListRemove h b.address) b.address required) := by
    refine splitBlockIfPossible_writes hA (fun hcut => ?_) (fun hz => ?_) fun x hx => ?_
    · rw [P.chained.blockSize_eq hmem, Word64.add_eq (by omega)] at hcut
      rw [Word64.add_eq (by omega)]
      exact C.clear_inside hheld hmem hfree (by omega) (by omega)
    · obtain ⟨c, hc, heq⟩ := P.chained.next_of_ne_zero hz
      rw [heq]
      exact C.clear hheld (by simp [hc])
    · exact R.clear_free (List.mem_of_mem_erase (P.ring.first_mem hx))
  refine ((hremove.trans hsplit).trans (blockMarkAllocated_writes hA)).trans ?_
  exact WritesIn.of_fields rfl rfl rfl rfl rfl

/-- No allocation writes into a payload that was handed out before. -/
theorem Represents.writes_alloc {endOfKernel size : UInt64} {ptr : ℕ}
    (R : Represents lo hi h blocks freeList) (hinit : h.mmInitializedFlag = true)
    (hcall : mmAlloc endOfKernel h size = some (ptr, h')) :
    WritesIn (Clear lo hi (allocatedBlocks blocks)) h h' := by
  rw [mmAlloc_of_initialized hinit, allocInitialized] at hcall
  by_cases hzero : size = 0
  · rw [if_pos hzero] at hcall
    cases hcall
    exact fun _ _ => rfl
  rw [if_neg hzero] at hcall
  rcases findFirstFit_cases R (requiredSize size) with ⟨hfind, -⟩ | ⟨left, b, right, rfl, hb, hfit,
    hfind⟩
  · rw [hfind, Option.map_some, if_pos rfl] at hcall
    cases hcall
    exact WritesIn.of_fields rfl rfl rfl rfl rfl
  · have hnz : b.address ≠ 0 := (R.chained.address_pos (by simp)).ne'
    rw [hfind, Option.map_some, if_neg hnz, Option.some_inj] at hcall
    have hwrites := R.writes_allocate hb hfit
    rwa [hcall] at hwrites

namespace Pending

variable (P : Pending lo hi h left b right freeList)
include P

theorem clear {c : Block} (hc : c ∈ left ++ b :: right) :
    Clear lo hi (allocatedBlocks (left ++ right)) c.address := by
  refine P.chained.clear (fun x hx => ?_) hc
  have hx' := (mem_allocatedBlocks.mp hx).1
  simp only [List.mem_append, List.mem_cons] at hx' ⊢
  exact hx'.imp_right .inr

theorem clear_free (ha : a ∈ freeList) : Clear lo hi (allocatedBlocks (left ++ right)) a := by
  obtain ⟨x, hx, rfl, -⟩ := (P.mem_freeList a).mp ha
  apply P.clear
  simp only [List.mem_append, List.mem_cons] at hx ⊢
  exact hx.imp_right .inr

/-- A free neighbour is unlinked, and one of two adjacent blocks takes over the other. -/
theorem writes_absorb {c d : Block} {before after : List Block}
    (hcut : left ++ b :: right = before ++ c :: d :: after) (ha : a ∈ freeList) :
    WritesIn (Clear lo hi (allocatedBlocks (left ++ right))) h
      (absorbNext (freeListRemove h a) c.address d.address) := by
  have hremove := P.ring.writes_remove (fun _ => P.clear_free) ha
  have C : Chained lo hi (freeListRemove h a) (before ++ c :: d :: after) :=
    hcut ▸ P.chained.congr (by simp) (by simp) (by simp)
  have C' : Chained lo hi (freeListRemove h a) ((before ++ [c]) ++ d :: after) := by simpa using C
  refine hremove.trans (absorbNext_writes ?_ (C.address_ne (by simp)) fun hz => ?_)
  · exact P.clear (hcut ▸ by simp)
  · obtain ⟨e, he, heq⟩ := C'.next_of_ne_zero hz
    rw [heq]
    exact P.clear (hcut ▸ by simp [he])

theorem writes_coalesceLeft :
    WritesIn (Clear lo hi (allocatedBlocks (left ++ right))) h
      (Simple.coalesceLeft h b.address (h.prevPhys b.address)).2 := by
  rcases P.chained.prevPhys_cases with ⟨rfl, hprev⟩ | ⟨left, p, rfl, hprev⟩
  · rw [Simple.coalesceLeft, if_neg (by simp [hprev])]
    exact fun _ _ => rfl
  rw [Simple.coalesceLeft, hprev, P.chained.blockIsAllocated_eq (b := p) (by simp)]
  by_cases hmerge : p.address ≠ 0 ∧ p.allocated = false
  · rw [if_pos hmerge]
    exact P.writes_absorb (List.append_assoc left [p] (b :: right))
      ((P.mem_freeList _).mpr ⟨p, by simp, rfl, hmerge.2⟩)
  · rw [if_neg hmerge]
    exact fun _ _ => rfl

theorem writes_coalesceRight {next : ℕ} (hnext : next = (right.head?.map Block.address).getD 0) :
    WritesIn (Clear lo hi (allocatedBlocks (left ++ right))) h
      (Simple.coalesceRight h b.address next) := by
  subst hnext
  cases right with
  | nil =>
      rw [Simple.coalesceRight, if_neg (by simp)]
      exact fun _ _ => rfl
  | cons n right =>
      simp only [List.head?_cons, Option.map_some, Option.getD_some]
      rw [Simple.coalesceRight, P.chained.blockIsAllocated_eq (b := n) (by simp)]
      by_cases hmerge : n.address ≠ 0 ∧ n.allocated = false
      · rw [if_pos hmerge]
        exact P.writes_absorb rfl ((P.mem_freeList _).mpr ⟨n, by simp, rfl, hmerge.2⟩)
      · rw [if_neg hmerge]
        exact fun _ _ => rfl

/-- Both merges, and the insertion of the block that they leave. -/
theorem writes_coalesceWithNeighbors :
    WritesIn (Clear lo hi (allocatedBlocks (left ++ right))) h
      (freeListInsert (Simple.coalesceWithNeighbors h b.address).2
        (Simple.coalesceWithNeighbors h b.address).1) := by
  have hnext := P.chained.nextPhys_eq
  obtain ⟨left', m, freeList₁, hm, P₁, -, halloc₁⟩ := P.coalesceLeft
  obtain ⟨m', right', freeList₂, hm', P₂, -, halloc₂⟩ := P₁.coalesceRight hnext
  have hstep : Simple.coalesceWithNeighbors h b.address = (m'.address,
      Simple.coalesceRight (Simple.coalesceLeft h b.address (h.prevPhys b.address)).2 m.address
        (h.nextPhys b.address)) := by
    simp only [Simple.coalesceWithNeighbors, hm, hm']
  rw [hstep]
  have hsame₁ : allocatedBlocks (left' ++ right) = allocatedBlocks (left ++ right) := by
    simp only [allocatedBlocks, List.filter_append] at halloc₁ ⊢
    rw [halloc₁]
  have hsame₂ : allocatedBlocks (left' ++ right') = allocatedBlocks (left ++ right) := by
    simp only [allocatedBlocks, List.filter_append] at halloc₂ hsame₁ ⊢
    rw [halloc₂, hsame₁]
  have hright := P₁.writes_coalesceRight hnext
  have hclear := P₂.clear (c := m') (by simp)
  have hlisted := fun x => P₂.clear_free (a := x)
  rw [hsame₁] at hright
  rw [hsame₂] at hclear hlisted
  exact (P.writes_coalesceLeft.trans hright).trans (P₂.ring.writes_insert hlisted hclear)

end Pending

/-- Freeing a block writes into no payload that stays allocated. -/
theorem Represents.writes_free (R : Represents lo hi h (left ++ b :: right) freeList)
    (hb : b.allocated = true) (hinit : h.mmInitializedFlag = true) :
    WritesIn (Clear lo hi (allocatedBlocks (left ++ right))) h
      (mmFree h (b.address + headerSize)) := by
  have C := R.chained
  have hmem : b ∈ left ++ b :: right := by simp
  have hbound := C.bounds hmem
  have hge := C.size_ge b hmem
  have hhigh := C.high_le
  have hmin : minBlockSize = 56 := rfl
  have hhdr : headerSize = 40 := rfl
  have hblock : Word64.sub (b.address + headerSize) headerSize = b.address := by
    rw [Word64.sub_eq (by omega) (by omega)]
    omega
  rw [mmFree, if_neg (by simp [hinit, hhdr]), hblock]
  simp only [C.blockIsAllocated_eq hmem, hb, Bool.true_eq_false, if_false]
  generalize Word64.sub (blockSize (blockMarkFree h b.address) b.address) headerSize = payload
  have P := R.release hb payload
  have hA := P.clear (c := { b with allocated := false }) (by simp)
  have hrelease : WritesIn (Clear lo hi (allocatedBlocks (left ++ right))) h
      { countFree (blockMarkFree h b.address) payload with
        prevFree := update h.prevFree (.block b.address) .null
        nextFree := update h.nextFree (.block b.address) .null } := by
    intro x hx
    have hne : x ≠ b.address := fun heq => hx (heq ▸ hA)
    simp [Heap.header, countFree, blockMarkFree, hne]
  exact hrelease.trans P.writes_coalesceWithNeighbors

end Calls

section Runs

variable {s : System} {heapStart heapSize endOfKernel : UInt64} {h₀ : Heap} {ptr : ℕ}

/-- A header that is clear of the allocated blocks is outside of their payloads. -/
theorem Valid.outside (V : Valid lo hi s blocks freeList) (hptr : ptr ∈ s.live)
    (hheld : ∀ x ∈ allocatedBlocks blocks, ptr = x.address + headerSize → x ∈ held)
    (ha : Clear lo hi held a) : Outside s.heap ptr a := by
  obtain ⟨x, hx, rfl⟩ := (V.mem_live ptr).mp hptr
  have C := V.represents.chained
  have hmem := (mem_allocatedBlocks.mp hx).1
  have hge := C.size_ge x hmem
  have hmin : minBlockSize = 56 := rfl
  have hhdr : headerSize = 40 := rfl
  have hpayload : payloadSize s.heap (x.address + headerSize) = x.size - headerSize := by
    rw [payloadSize, Nat.add_sub_cancel, C.blockSize_eq hmem]
  have hclear := ha.2.2 x (hheld x hx rfl)
  rw [Outside, hpayload]
  omega

/-- In every state of a run, the headers that a call changes lie in the heap and share no byte with
a payload that is live before the call and not freed by it. -/
theorem calls_spare_payloads (hstart : heapStart ≠ 0)
    (hwrap : heapStart.toNat + heapSize.toNat ≤ 2 ^ 64)
    (hlimit : heapSize.toNat ≤ mmDefaultHeapLimit)
    (hinit : (mmInit h₀ heapStart heapSize).mmInitializedFlag = true)
    (hrun : ReflTransGen (Step endOfKernel) ⟨mmInit h₀ heapStart heapSize, []⟩ s) :
    (∀ size ptr h', mmAlloc endOfKernel s.heap size = some (ptr, h') →
      ∀ a, h'.header a ≠ s.heap.header a →
        alignedStart heapStart ≤ a ∧
        a + headerSize ≤ alignedStart heapStart + usableBytes heapStart heapSize ∧
        ∀ q ∈ s.live, Outside s.heap q a) ∧
      ∀ p ∈ s.live, ∀ a, (mmFree s.heap p).header a ≠ s.heap.header a →
        alignedStart heapStart ≤ a ∧
        a + headerSize ≤ alignedStart heapStart + usableBytes heapStart heapSize ∧
        ∀ q ∈ s.live, q ≠ p → Outside s.heap q a := by
  obtain ⟨blocks, freeList, V⟩ :=
    (mmInit_valid hstart hwrap (extent_of_limit hlimit) hinit).run hrun
  constructor
  · intro size ptr h' hcall a hne
    have ha := not_not.mp fun hA => hne (V.represents.writes_alloc V.initialized hcall a hA)
    exact ⟨ha.1, ha.2.1, fun q hq => V.outside hq (fun x hx _ => hx) ha⟩
  · intro p hp a hne
    obtain ⟨left, b, right, rfl, hb, rfl⟩ := V.live_block hp
    have ha := not_not.mp fun hA => hne (V.represents.writes_free hb V.initialized a hA)
    refine ⟨ha.1, ha.2.1, fun q hq hqp => V.outside hq (fun x hx heq => ?_) ha⟩
    rw [V.represents.chained.mem_allocatedBlocks_cut]
    exact ⟨hx, fun hxb => hqp (by rw [heq, hxb])⟩

/-- With 100 bytes allocated in a region of one page, where the second allocation cuts the block
behind them. -/
theorem calls_spare_payloads_page :
    ∃ s, ReflTransGen (Step 0x101000) ⟨mmInit blankHeap 0x10008 4096, []⟩ s ∧ s.live = [0x10038] ∧
      ∀ ptr h', mmAlloc 0x101000 s.heap 200 = some (ptr, h') →
        ∀ a, h'.header a ≠ s.heap.header a → Outside s.heap 0x10038 a := by
  obtain ⟨h', hcall⟩ : ∃ h', mmAlloc 0x101000 (mmInit blankHeap 0x10008 4096) 100 =
      some (0x10038, h') := by
    have hsome : ((mmAlloc 0x101000 (mmInit blankHeap 0x10008 4096) 100).map Prod.fst) =
        some 0x10038 := by
      decide +kernel
    obtain ⟨⟨p, h'⟩, hp, rfl⟩ := Option.map_eq_some_iff.mp hsome
    exact ⟨h', hp⟩
  have hrun : ReflTransGen (Step 0x101000) ⟨mmInit blankHeap 0x10008 4096, []⟩
      ⟨h', [0x10038]⟩ := by
    generalize mmInit blankHeap 0x10008 4096 = h₁ at hcall
    have hstep := Step.alloc (s := ⟨h₁, []⟩) hcall
    rw [if_neg (by decide)] at hstep
    exact ReflTransGen.single hstep
  have hspare := calls_spare_payloads (by decide) (by decide) (by decide) (by decide +kernel) hrun
  exact ⟨⟨h', [0x10038]⟩, hrun, rfl, fun ptr h'' hcall' a hne =>
    (hspare.1 200 ptr h'' hcall' a hne).2.2 0x10038 (by simp)⟩

end Runs
end SoKernel.Mm.Simple
