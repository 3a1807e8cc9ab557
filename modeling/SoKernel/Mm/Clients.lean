import SoKernel.Lib.ByteMemory
import SoKernel.Mm.Storage

/-!
# The clients of a memory manager

The processes and the kernel share one memory and its manager. Each of them allocates and frees
blocks and writes into its own, in whatever order, and the manager writes its headers between them.
For its owner a block is an array of bytes that nobody else changes.
-/

namespace SoKernel.Mm

open Function (update)

section Model

/-- The memory with its manager, and who was given each pointer. -/
structure Shared (M : Allocator) (P : Type) where
  heap : M.Heap
  bytes : ByteMemory
  owner : ℕ → Option P

inductive MemAct
  | malloc (size : UInt64) (ptr : ℕ)
  | free (ptr : ℕ)
  | store (ptr offset : ℕ) (byte : UInt8)
  deriving DecidableEq

variable {M : Allocator} {P : Type}

def syscallMalloc (M : Allocator) (h : M.Heap) (size : UInt64) : Option (ℕ × M.Heap) :=
  if size = 0 then some (0, h) else M.alloc h size

def syscallFree (M : Allocator) (h : M.Heap) (address : ℕ) : Option M.Heap :=
  if address = 0 then some h else M.free h address

/-- One act of a client. A call leaves the bytes as they are, but for the headers that it changes. -/
inductive ClientStep (S : Storage M) (m : Shared M P) (p : P) : MemAct → Shared M P → Prop
  | malloc {size : UInt64} {ptr : ℕ} {heap' : M.Heap} {bytes' : ByteMemory}
      (call : syscallMalloc M m.heap size = some (ptr, heap'))
      (headers : ∀ i, ¬S.Changed m.heap heap' i → bytes' i = m.bytes i) :
      ClientStep S m p (.malloc size ptr)
        ⟨heap', bytes', if ptr = 0 then m.owner else update m.owner ptr (some p)⟩
  | free {ptr : ℕ} {heap' : M.Heap} {bytes' : ByteMemory} (mine : m.owner ptr = some p)
      (call : syscallFree M m.heap ptr = some heap')
      (headers : ∀ i, ¬S.Changed m.heap heap' i → bytes' i = m.bytes i) :
      ClientStep S m p (.free ptr) ⟨heap', bytes', update m.owner ptr none⟩
  | store {ptr offset : ℕ} {byte : UInt8} {heap' : M.Heap} (mine : m.owner ptr = some p)
      (inside : offset < S.payloadSize m.heap ptr) (write : S.ClientWrite m.heap ptr heap') :
      ClientStep S m p (.store ptr offset byte)
        ⟨heap', update m.bytes (ptr + offset) byte, m.owner⟩

inductive ClientRuns (S : Storage M) (start : Shared M P) : List (P × MemAct) → Shared M P → Prop
  | nil : ClientRuns S start [] start
  | snoc {trace : List (P × MemAct)} {m m' : Shared M P} {p : P} {a : MemAct}
      (run : ClientRuns S start trace m) (step : ClientStep S m p a m') :
      ClientRuns S start (trace ++ [(p, a)]) m'

/-- Nothing has been allocated. -/
def Shared.unused (h : M.Heap) (bytes : ByteMemory) : Shared M P := ⟨h, bytes, fun _ => none⟩

/-- What an act leaves of a byte in the block at `ptr`. -/
def MemAct.leaves (ptr offset : ℕ) (byte : UInt8) : MemAct → UInt8
  | .store q k b => if q = ptr ∧ k = offset then b else byte
  | _ => byte

end Model

section Invariant

variable {M : Allocator} {P : Type} {S : Storage M} {m m' : Shared M P} {B : Set M.Block} {p q : P}
  {a : MemAct} {h' : M.Heap} {size : UInt64} {ptr : ℕ} {b : M.Block} {i : ℕ}

/-- The allocated blocks are those that somebody owns. -/
structure Shared.Inv (m : Shared M P) (B : Set M.Block) : Prop where
  holds : M.Holds m.heap B
  owned : ∀ ptr, (∃ p, m.owner ptr = some p) ↔ ∃ b ∈ B, M.payload b = ptr
  owner_zero : m.owner 0 = none

theorem Shared.Inv.unused {h : M.Heap} (hholds : M.Holds h ∅) (bytes : ByteMemory) :
    (Shared.unused h bytes : Shared M P).Inv ∅ :=
  ⟨hholds, fun ptr => by simp [Shared.unused], rfl⟩

theorem syscallMalloc_of_ne {h : M.Heap} (hsize : size ≠ 0) :
    syscallMalloc M h size = M.alloc h size := if_neg hsize

theorem syscallMalloc_spec (hholds : M.Holds m.heap B)
    (hcall : syscallMalloc M m.heap size = some (ptr, h')) :
    ptr = 0 ∧ M.Holds h' B ∨ ptr ≠ 0 ∧ (∀ b ∈ B, M.payload b ≠ ptr) ∧
      ∃ b, M.payload b = ptr ∧ M.Holds h' (insert b B) := by
  rw [syscallMalloc] at hcall
  by_cases hzero : size = 0
  · rw [if_pos hzero] at hcall
    cases hcall
    exact .inl ⟨rfl, hholds⟩
  · rw [if_neg hzero] at hcall
    obtain ⟨ptr', h'', hspec, hcases⟩ := M.alloc_spec hholds size
    obtain ⟨rfl, rfl⟩ := Prod.mk.inj (Option.some_inj.mp (hcall.symm.trans hspec))
    exact hcases

theorem syscallMalloc_spares (hholds : M.Holds m.heap B)
    (hcall : syscallMalloc M m.heap size = some (ptr, h')) (hb : b ∈ B)
    (hchanged : S.Changed m.heap h' i) : i < M.payload b ∨ M.payload b + S.room b ≤ i := by
  rw [syscallMalloc] at hcall
  by_cases hzero : size = 0
  · rw [if_pos hzero] at hcall
    cases hcall
    exact absurd hchanged S.changed_irrefl
  · rw [if_neg hzero] at hcall
    exact S.alloc_spares hholds hcall hb hchanged

theorem syscallFree_spec (hholds : M.Holds m.heap B) (hb : b ∈ B) (hne : M.payload b ≠ 0)
    (hcall : syscallFree M m.heap (M.payload b) = some h') :
    M.free m.heap (M.payload b) = some h' ∧
      M.Holds h' {x | x ∈ B ∧ M.payload x ≠ M.payload b} := by
  rw [syscallFree, if_neg hne] at hcall
  obtain ⟨h'', hfree, hspec⟩ := M.free_spec hholds hb
  obtain rfl := Option.some_inj.mp (hcall.symm.trans hfree)
  exact ⟨hcall, hspec⟩

/-- Only its owner stores into a block. -/
theorem ClientStep.store_mine {offset : ℕ} {byte : UInt8}
    (step : ClientStep S m q (.store ptr offset byte) m') (own : m.owner ptr = some p) : q = p := by
  cases step with
  | store mine _ _ => exact Option.some_inj.mp (mine.symm.trans own)

namespace Shared.Inv

/-- Whatever somebody owns is an allocated block. -/
theorem block (h : m.Inv B) (own : m.owner ptr = some p) :
    ∃ b ∈ B, M.payload b = ptr ∧ M.payload b ≠ 0 := by
  obtain ⟨b, hb, rfl⟩ := (h.owned ptr).mp ⟨p, own⟩
  refine ⟨b, hb, rfl, fun hzero => ?_⟩
  rw [hzero, h.owner_zero] at own
  cases own

/-- Every act keeps the invariant. -/
theorem step (h : m.Inv B) (step : ClientStep S m p a m') : ∃ B', m'.Inv B' := by
  cases step with
  | @malloc size ptr heap' bytes' call headers =>
      rcases syscallMalloc_spec h.holds call with ⟨hzero, hholds⟩ | ⟨hne, hfresh, b, hb, hholds⟩
      · refine ⟨B, hholds, fun q => ?_, ?_⟩
        · simpa only [if_pos hzero] using h.owned q
        · simpa only [if_pos hzero] using h.owner_zero
      · refine ⟨insert b B, hholds, fun q => ?_, ?_⟩
        · simp only [if_neg hne, Set.exists_mem_insert, hb]
          by_cases hq : q = ptr
          · rw [hq, Function.update_self]
            exact iff_of_true ⟨p, rfl⟩ (.inl rfl)
          · rw [Function.update_of_ne hq, h.owned q]
            simp [Ne.symm hq]
        · simp only [if_neg hne]
          rw [Function.update_of_ne (Ne.symm hne)]
          exact h.owner_zero
  | @free ptr heap' bytes' mine call headers =>
      obtain ⟨b, hb, rfl, hne⟩ := h.block mine
      obtain ⟨-, hholds⟩ := syscallFree_spec h.holds hb hne call
      refine ⟨_, hholds, fun q => ?_, ?_⟩
      · by_cases hq : q = M.payload b
        · rw [hq]
          simp
        · dsimp only
          rw [Function.update_of_ne hq, h.owned q]
          constructor
          · rintro ⟨c, hc, rfl⟩
            exact ⟨c, ⟨hc, hq⟩, rfl⟩
          · rintro ⟨c, ⟨hc, -⟩, rfl⟩
            exact ⟨c, hc, rfl⟩
      · dsimp only
        rw [Function.update_of_ne (Ne.symm hne)]
        exact h.owner_zero
  | @store ptr offset byte heap' mine inside write =>
      obtain ⟨b, hb, rfl⟩ := (h.owned ptr).mp ⟨p, mine⟩
      exact ⟨B, S.write_holds h.holds hb write, h.owned, h.owner_zero⟩

/-- An act changes no block but by a store of its owner, and only the byte that is stored. -/
theorem keeps (h : m.Inv B) (step : ClientStep S m p a m') (own : m.owner ptr = some q)
    (hfree : a ≠ .free ptr) :
    m'.owner ptr = some q ∧ S.payloadSize m'.heap ptr = S.payloadSize m.heap ptr ∧
      ∀ k < S.payloadSize m.heap ptr,
        m'.bytes (ptr + k) = a.leaves ptr k (m.bytes (ptr + k)) := by
  obtain ⟨b, hb, rfl⟩ := (h.owned ptr).mp ⟨q, own⟩
  have hroom := S.payloadSize_eq h.holds hb
  rw [hroom]
  cases step with
  | @malloc size new heap' bytes' call headers =>
      have hkept : ∀ k < S.room b, bytes' (M.payload b + k) = m.bytes (M.payload b + k) := by
        intro k hk
        apply headers
        intro hchanged
        have hout := syscallMalloc_spares h.holds call hb hchanged
        omega
      rcases syscallMalloc_spec h.holds call with ⟨hzero, hholds⟩ | ⟨hne, hfresh, c, hc, hholds⟩
      · refine ⟨?_, S.payloadSize_eq hholds hb, hkept⟩
        simpa only [if_pos hzero] using own
      · refine ⟨?_, S.payloadSize_eq hholds (Set.mem_insert_of_mem c hb), hkept⟩
        simp only [if_neg hne]
        rw [Function.update_of_ne (hfresh b hb)]
        exact own
  | @free old heap' bytes' mine call headers =>
      obtain ⟨c, hc, rfl, hpos⟩ := h.block mine
      have hne : M.payload b ≠ M.payload c := fun heq => hfree (by rw [heq])
      obtain ⟨hcall, hholds⟩ := syscallFree_spec h.holds hc hpos call
      refine ⟨?_, S.payloadSize_eq hholds ⟨hb, hne⟩, fun k hk => ?_⟩
      · dsimp only
        rw [Function.update_of_ne hne]
        exact own
      · apply headers
        intro hchanged
        have hout := S.free_spares h.holds hc hcall hb hne hchanged
        omega
  | @store other offset byte heap' mine inside write =>
      obtain ⟨c, hc, rfl⟩ := (h.owned other).mp ⟨p, mine⟩
      have hholds := S.write_holds h.holds hc write
      refine ⟨own, S.payloadSize_eq hholds hb, fun k hk => ?_⟩
      rw [S.payloadSize_eq h.holds hc] at inside
      dsimp only [MemAct.leaves]
      by_cases hsame : M.payload c = M.payload b
      · rw [hsame]
        by_cases hk' : offset = k
        · rw [if_pos ⟨rfl, hk'⟩, hk', Function.update_self]
        · rw [if_neg fun heq => hk' heq.2, Function.update_of_ne (by omega)]
      · have hapart := S.apart h.holds hb hc (Ne.symm hsame)
        rw [if_neg fun heq => hsame heq.1, Function.update_of_ne (by omega)]

/-- Nobody else's act gives a client a block or takes one away. -/
theorem owner_iff (h : m.Inv B) (step : ClientStep S m q a m') (hne : q ≠ p) :
    m'.owner ptr = some p ↔ m.owner ptr = some p := by
  cases step with
  | @malloc size new heap' bytes' call headers =>
      rcases syscallMalloc_spec h.holds call with ⟨hzero, -⟩ | ⟨hpos, hfresh, -⟩
      · simp only [if_pos hzero]
      · simp only [if_neg hpos]
        by_cases hptr : ptr = new
        · rw [hptr, Function.update_self]
          refine iff_of_false (fun heq => hne (Option.some_inj.mp heq)) fun hown => ?_
          obtain ⟨b, hb, hpayload⟩ := (h.owned new).mp ⟨p, hown⟩
          exact hfresh b hb hpayload
        · rw [Function.update_of_ne hptr]
  | @free old heap' bytes' mine call headers =>
      dsimp only
      by_cases hptr : ptr = old
      · rw [hptr, Function.update_self, mine]
        exact iff_of_false (by simp) fun heq => hne (Option.some_inj.mp heq)
      · rw [Function.update_of_ne hptr]
  | store mine inside write => exact Iff.rfl

/-- Nobody else's act touches a block. -/
theorem spares (h : m.Inv B) (step : ClientStep S m q a m') (own : m.owner ptr = some p)
    (hne : q ≠ p) :
    S.payloadSize m'.heap ptr = S.payloadSize m.heap ptr ∧
      ∀ k < S.payloadSize m.heap ptr, m'.bytes (ptr + k) = m.bytes (ptr + k) := by
  have hfree : a ≠ .free ptr := by
    rintro rfl
    cases step with
    | free mine _ _ => exact hne (Option.some_inj.mp (mine.symm.trans own))
  obtain ⟨-, hsize, hbytes⟩ := h.keeps step own hfree
  refine ⟨hsize, fun k hk => (hbytes k hk).trans ?_⟩
  cases a with
  | malloc size new => rfl
  | free old => rfl
  | store other offset byte =>
      apply if_neg
      rintro ⟨rfl, -⟩
      exact hne (step.store_mine own)

/-- What a client gets was nobody's, and has room for what it asked for. -/
theorem grants (h : m.Inv B) (step : ClientStep S m p (.malloc size ptr) m') (hptr : ptr ≠ 0) :
    m.owner ptr = none ∧ m'.owner = update m.owner ptr (some p) ∧
      (size.toNat < 2 ^ 32 → size.toNat ≤ S.payloadSize m'.heap ptr) := by
  cases step with
  | malloc call headers =>
      obtain ⟨-, hfresh, -⟩ :=
        (syscallMalloc_spec h.holds call).resolve_left fun hzero => hptr hzero.1
      refine ⟨Option.eq_none_iff_forall_ne_some.mpr fun q hq => ?_, if_neg hptr, fun hsize => ?_⟩
      · obtain ⟨b, hb, hpayload⟩ := (h.owned ptr).mp ⟨q, hq⟩
        exact hfresh b hb hpayload
      · have hne : size ≠ 0 := by
          rintro rfl
          cases call
          exact hptr rfl
        rw [syscallMalloc_of_ne hne] at call
        exact S.alloc_fits h.holds call hptr hsize

end Shared.Inv

end Invariant

section Runs

variable {M : Allocator} {P : Type} {S : Storage M} {start m m' : Shared M P} {B : Set M.Block}
  {past trace : List (P × MemAct)} {p q : P} {a : MemAct} {ptr : ℕ} {h h' : M.Heap}
  {bytes : ByteMemory} {heapStart heapSize endOfKernel : UInt64}

/-- A whole run keeps the invariant. -/
theorem ClientRuns.inv (run : ClientRuns S start trace m) (hstart : start.Inv B) :
    ∃ B', m.Inv B' := by
  induction run with
  | nil => exact ⟨B, hstart⟩
  | snoc _ step ih =>
      obtain ⟨B', h⟩ := ih
      exact h.step step

/-- The first act is to allocate. -/
theorem ClientRuns.first {size : UInt64} (hsize : size ≠ 0) (hptr : ptr ≠ 0)
    (hcall : M.alloc h size = some (ptr, h')) :
    ClientRuns S (Shared.unused h bytes) [(p, .malloc size ptr)]
      ⟨h', bytes, update (fun _ => none) ptr (some p)⟩ := by
  have step := ClientStep.malloc (S := S) (m := Shared.unused h bytes) (p := p)
    ((syscallMalloc_of_ne hsize).trans hcall) fun _ _ => rfl
  rw [if_neg hptr] at step
  exact ClientRuns.nil.snoc step

/-- With either manager, and in whatever order the clients act: until the block at `ptr` is freed it
belongs to the client that got it and keeps its size, only this client stores into it, and every
byte of it is what was stored there last. -/
theorem payload_is_private (setUp : SetUp heapStart heapSize endOfKernel M S h)
    (hstart : heapStart ≠ 0) (hwrap : heapStart.toNat + heapSize.toNat ≤ 2 ^ 64)
    (hlimit : heapSize.toNat ≤ Simple.mmDefaultHeapLimit)
    (before : ClientRuns S (Shared.unused h bytes) past m) (run : ClientRuns S m trace m')
    (own : m.owner ptr = some p) (hfree : ∀ q, (q, .free ptr) ∉ trace) :
    m'.owner ptr = some p ∧ S.payloadSize m'.heap ptr = S.payloadSize m.heap ptr ∧
      (∀ q offset byte, (q, .store ptr offset byte) ∈ trace → q = p) ∧
      ∀ k < S.payloadSize m.heap ptr, m'.bytes (ptr + k) =
        trace.foldl (fun byte e => e.2.leaves ptr k byte) (m.bytes (ptr + k)) := by
  obtain ⟨B, hm⟩ := before.inv (.unused (setUp.holds hstart hwrap hlimit) bytes)
  induction run with
  | nil =>
      refine ⟨own, rfl, fun q offset byte hq => ?_, fun _ _ => rfl⟩
      cases hq
  | @snoc trace m₁ m₂ q a run step ih =>
      obtain ⟨hown, hsize, hmine, hbytes⟩ := ih fun r hr => hfree r (List.mem_append_left _ hr)
      obtain ⟨B₁, h₁⟩ := run.inv hm
      have ha : a ≠ .free ptr := by
        rintro rfl
        exact hfree q (by simp)
      obtain ⟨hown', hsize', hbytes'⟩ := h₁.keeps step hown ha
      refine ⟨hown', hsize'.trans hsize, fun r offset byte hr => ?_, fun k hk => ?_⟩
      · rcases List.mem_append.mp hr with hr | hr
        · exact hmine r offset byte hr
        · obtain ⟨rfl, rfl⟩ := Prod.mk.inj (List.mem_singleton.mp hr)
          exact step.store_mine hown
      · rw [hbytes' k (hsize ▸ hk), hbytes k hk, List.foldl_append, List.foldl_cons, List.foldl_nil]

/-- A client gets 100 bytes in a region of one page and stores `7` into the first. It is still there
when another client has got 200 bytes. -/
theorem payload_is_private_page :
    ∃ (M : Allocator) (S : Storage M) (h : M.Heap) (m m' : Shared M Bool) (ptr : ℕ),
      SetUp 0x10008 4096 0x101000 M S h ∧
      ClientRuns S (Shared.unused h fun _ => 0) [(false, .malloc 100 0x10038)] m ∧
      ClientRuns S m [(false, .store 0x10038 0 7), (true, .malloc 200 ptr)] m' ∧
      m'.owner 0x10038 = some false ∧ m'.bytes 0x10038 = 7 := by
  obtain ⟨M, S, h, h₁, setUp, hcall, hpos, hwrite, -⟩ := SetUp.page
  obtain ⟨m, before, rfl, own⟩ : ∃ m : Shared M Bool,
      ClientRuns S (Shared.unused h fun _ => 0) [(false, .malloc 100 0x10038)] m ∧ m.heap = h₁ ∧
        m.owner 0x10038 = some false :=
    ⟨_, .first (by decide) (by decide) hcall, rfl, by dsimp only; rw [Function.update_self]⟩
  have stored : ClientStep S m false (.store 0x10038 0 7)
      ⟨m.heap, update m.bytes (0x10038 + 0) 7, m.owner⟩ := .store own hpos hwrite
  obtain ⟨B, hinv⟩ := before.inv (.unused (setUp.holds (by decide) (by decide) (by decide)) _)
  obtain ⟨ptr, h₂, hcall', -⟩ := M.alloc_spec hinv.holds 200
  have run := (ClientRuns.nil.snoc stored).snoc (p := true)
    (.malloc ((syscallMalloc_of_ne (by decide)).trans hcall') fun _ _ => rfl)
  have hprivate := payload_is_private setUp (by decide) (by decide) (by decide) before run own
    (by simp)
  have hbyte := hprivate.2.2.2 0 hpos
  exact ⟨M, S, h, _, _, ptr, setUp, before, run, hprivate.1, hbyte⟩

end Runs

end SoKernel.Mm
