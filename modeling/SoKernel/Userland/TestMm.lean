import SoKernel.Mm.Clients
import SoKernel.Userland.SyncWorkers

/-!
# The test of the memory manager

Embedding of `test_mm` of `test-mm.c`, as a client of either manager. Any number of processes run
the test, and others allocate, write and free in between; a context switch may come behind every
byte. The sizes that `GetUniform` draws are arbitrary, and the output of the test is left out.
-/

namespace SoKernel.Userland

open Function (update)
open SoKernel SoKernel.Mm

section Model

def maxBlocks : ℕ := 128

/-- An entry of `mm_rqs` for which `malloc` has returned a block. -/
structure MmRq where
  address : ℕ
  size : UInt32
  granted : address ≠ 0
  deriving DecidableEq

/-- The next step of `test_mm`. -/
inductive MmAt
  | request
  /-- In `memset` for entry `i`, which writes the last byte first. -/
  | set (i length : ℕ)
  /-- In `memcheck` for entry `i`. -/
  | check (i k : ℕ)
  | release (i : ℕ)
  /-- `memcheck` has found a wrong byte. -/
  | failed
  deriving DecidableEq

structure MmRun where
  maxMemory : ℕ
  total : UInt32
  rqs : List MmRq
  next : MmAt
  deriving DecidableEq

inductive MmJob
  | other
  | test (run : MmRun)
  deriving DecidableEq

/-- The checks of the arguments. -/
def mmMaxMemory : List (List Char) → Option ℕ
  | [arg] =>
      let maxMemory := unsigned 64 (satoi arg)
      if maxMemory = 0 then none else some maxMemory
  | _ => none

/-- An iteration begins. -/
def mmIteration (maxMemory : ℕ) : MmRun := ⟨maxMemory, 0, [], .request⟩

namespace MmRun

/-- The test of the loop of the requests. -/
def More (t : MmRun) : Prop := t.rqs.length < maxBlocks ∧ t.total.toNat < t.maxMemory

/-- The loop of `memset` goes on with entry `i`, or the loop of `memcheck` begins. -/
def setFrom (t : MmRun) (i : ℕ) : MmRun :=
  match t.rqs[i]? with
  | some rq => { t with next := .set i rq.size.toNat }
  | none => { t with next := .check 0 0 }

end MmRun

/-- What the processes do with the memory. -/
inductive MmActs : MmJob → MemAct → MmJob → Prop
  | other {a : MemAct} : MmActs .other a .other
  | granted {t : MmRun} {size : UInt32} {ptr : ℕ} (here : t.next = .request) (more : t.More)
      (ne : ptr ≠ 0) :
      MmActs (.test t) (.malloc size.toUInt64 ptr)
        (.test { t with total := t.total + size, rqs := t.rqs ++ [⟨ptr, size, ne⟩] })
  | refused {t : MmRun} {size : UInt32} (here : t.next = .request) (more : t.More) :
      MmActs (.test t) (.malloc size.toUInt64 0) (.test (t.setFrom 0))
  | set {t : MmRun} {i length : ℕ} {rq : MmRq} (here : t.next = .set i (length + 1))
      (entry : t.rqs[i]? = some rq) :
      MmActs (.test t) (.store rq.address length (UInt8.ofNat i))
        (.test { t with next := .set i length })
  | release {t : MmRun} {i : ℕ} {rq : MmRq} (here : t.next = .release i)
      (entry : t.rqs[i]? = some rq) :
      MmActs (.test t) (.free rq.address) (.test { t with next := .release (i + 1) })

/-- The steps of `test_mm` that read the memory at most. -/
inductive MmReads (bytes : ByteMemory) (t : MmRun) : MmRun → Prop
  | requested (here : t.next = .request) (enough : ¬t.More) : MmReads bytes t (t.setFrom 0)
  | written {i : ℕ} (here : t.next = .set i 0) : MmReads bytes t (t.setFrom (i + 1))
  | same {i k : ℕ} {rq : MmRq} (here : t.next = .check i k) (entry : t.rqs[i]? = some rq)
      (inside : k < rq.size.toNat) (equal : bytes (rq.address + k) = UInt8.ofNat i) :
      MmReads bytes t { t with next := .check i (k + 1) }
  | differs {i k : ℕ} {rq : MmRq} (here : t.next = .check i k) (entry : t.rqs[i]? = some rq)
      (inside : k < rq.size.toNat) (wrong : bytes (rq.address + k) ≠ UInt8.ofNat i) :
      MmReads bytes t { t with next := .failed }
  | checked {i k : ℕ} {rq : MmRq} (here : t.next = .check i k) (entry : t.rqs[i]? = some rq)
      (through : ¬k < rq.size.toNat) : MmReads bytes t { t with next := .check (i + 1) 0 }
  | allChecked {i k : ℕ} (here : t.next = .check i k) (none : t.rqs[i]? = none) :
      MmReads bytes t { t with next := .release 0 }
  | allReleased {i : ℕ} (here : t.next = .release i) (none : t.rqs[i]? = none) :
      MmReads bytes t (mmIteration t.maxMemory)

/-- The processes with the memory that they share. -/
structure MmSystem (M : Allocator) (P : Type) where
  mem : Shared M P
  job : P → MmJob

variable {M : Allocator} {P : Type} [DecidableEq P]

inductive MmStep (S : Storage M) (m : MmSystem M P) : MmSystem M P → Prop
  /-- A new process begins the test. -/
  | enter {p : P} {argv : List (List Char)} {maxMemory : ℕ} (outside : m.job p = .other)
      (fresh : ∀ ptr, m.mem.owner ptr ≠ some p) (args : mmMaxMemory argv = some maxMemory) :
      MmStep S m ⟨m.mem, update m.job p (.test (mmIteration maxMemory))⟩
  | act {p : P} {a : MemAct} {job' : MmJob} {mem' : Shared M P} (acts : MmActs (m.job p) a job')
      (step : ClientStep S m.mem p a mem') : MmStep S m ⟨mem', update m.job p job'⟩
  | read {p : P} {t t' : MmRun} (here : m.job p = .test t) (reads : MmReads m.mem.bytes t t') :
      MmStep S m ⟨m.mem, update m.job p (.test t')⟩

inductive MmRuns (S : Storage M) (start : MmSystem M P) : MmSystem M P → Prop
  | refl : MmRuns S start start
  | snoc {m m' : MmSystem M P} (run : MmRuns S start m) (step : MmStep S m m') : MmRuns S start m'

/-- The manager is set up, and nobody runs the test. -/
def mmBegin (h : M.Heap) (bytes : ByteMemory) : MmSystem M P :=
  ⟨Shared.unused h bytes, fun _ => .other⟩

end Model

section Observation

/-- The blocks that the test has got and not freed yet. -/
def MmRun.held (t : MmRun) : List MmRq :=
  match t.next with
  | .release i => t.rqs.drop i
  | _ => t.rqs

/-- Byte `k` of entry `i` has been written, and no block has been freed since. -/
def MmAt.Written : MmAt → ℕ → ℕ → Prop
  | .set i length, j, k => j < i ∨ j = i ∧ length ≤ k
  | .check _ _, _, _ => True
  | _, _, _ => False

end Observation

section Invariant

variable {M : Allocator} {P : Type} {S : Storage M} {mem mem' : Shared M P} {B : Set M.Block}
  {p q : P} {a : MemAct} {t t' : MmRun}

/-- What holds of a process that runs the test. -/
structure MmRun.Sound (S : Storage M) (mem : Shared M P) (p : P) (t : MmRun) : Prop where
  owns : ∀ ptr, mem.owner ptr = some p ↔ ∃ rq ∈ t.held, rq.address = ptr
  nodup : (t.held.map MmRq.address).Nodup
  fits : ∀ rq ∈ t.held, rq.size.toNat ≤ S.payloadSize mem.heap rq.address
  written : ∀ i k rq, t.rqs[i]? = some rq → k < rq.size.toNat → t.next.Written i k →
    mem.bytes (rq.address + k) = UInt8.ofNat i
  passed : t.next ≠ .failed

theorem MmRun.held_of_next {next : MmAt} (here : t.next = next) (hne : ∀ i, next ≠ .release i) :
    t.held = t.rqs := by
  unfold MmRun.held
  split
  · next i hi => exact absurd (here.symm.trans hi) (hne i)
  · rfl

/-- While bytes count as written, all blocks are held. -/
theorem MmRun.mem_held {i k : ℕ} {rq : MmRq} (hentry : t.rqs[i]? = some rq)
    (hwritten : t.next.Written i k) : rq ∈ t.held := by
  rw [MmRun.held_of_next rfl]
  · exact List.mem_of_getElem? hentry
  · intro j hj
    rw [hj] at hwritten
    exact hwritten

namespace MmRun.Sound

/-- An iteration begins with no blocks. -/
theorem begin (maxMemory : ℕ) (hnothing : ∀ ptr, mem.owner ptr ≠ some p) :
    (mmIteration maxMemory).Sound S mem p := by
  refine ⟨fun ptr => ?_, List.nodup_nil, ?_, ?_, by simp [mmIteration]⟩
  · exact iff_of_false (hnothing ptr) (by simp [mmIteration, MmRun.held])
  · simp [mmIteration, MmRun.held]
  · simp [mmIteration]

/-- What leaves the blocks of the test alone keeps what holds of it. -/
theorem transfer (h : t.Sound S mem p)
    (howner : ∀ ptr, mem'.owner ptr = some p ↔ mem.owner ptr = some p)
    (hspares : ∀ ptr, mem.owner ptr = some p →
      S.payloadSize mem'.heap ptr = S.payloadSize mem.heap ptr ∧
        ∀ k < S.payloadSize mem.heap ptr, mem'.bytes (ptr + k) = mem.bytes (ptr + k)) :
    t.Sound S mem' p := by
  have hheld : ∀ rq ∈ t.held, _ := fun rq hrq =>
    hspares rq.address ((h.owns rq.address).mpr ⟨rq, hrq, rfl⟩)
  refine ⟨fun ptr => ?_, h.nodup, fun rq hrq => ?_, fun i k rq hentry hk hwritten => ?_, h.passed⟩
  · rw [howner, h.owns]
  · rw [(hheld rq hrq).1]
    exact h.fits rq hrq
  · have hrq := t.mem_held hentry hwritten
    rw [(hheld rq hrq).2 k (hk.trans_le (h.fits rq hrq))]
    exact h.written i k rq hentry hk hwritten

/-- The acts of the others change nothing for the test. -/
theorem frame (h : t.Sound S mem p) (hinv : mem.Inv B) (step : ClientStep S mem q a mem')
    (hne : q ≠ p) : t.Sound S mem' p :=
  h.transfer (fun _ => hinv.owner_iff step hne) fun _ own => hinv.spares step own hne

/-- The test goes on with the same blocks, and relies on no more bytes. -/
theorem goTo {next : MmAt} (h : t.Sound S mem p) (hheld : { t with next }.held = t.held)
    (hwritten : ∀ i k, next.Written i k → t.next.Written i k) (hpassed : next ≠ .failed) :
    { t with next }.Sound S mem p := by
  refine ⟨fun ptr => ?_, ?_, fun rq hrq => ?_, fun i k rq hentry hk hnext => ?_, hpassed⟩
  · rw [hheld]
    exact h.owns ptr
  · rw [hheld]
    exact h.nodup
  · rw [hheld] at hrq
    exact h.fits rq hrq
  · exact h.written i k rq hentry hk (hwritten i k hnext)

/-- `memset` begins with entry `i` when the entries before it are written. -/
theorem setFrom (h : t.Sound S mem p) (hheld : t.held = t.rqs) {i : ℕ}
    (hbefore : ∀ j k rq, j < i → t.rqs[j]? = some rq → k < rq.size.toNat →
      mem.bytes (rq.address + k) = UInt8.ofNat j) : (t.setFrom i).Sound S mem p := by
  have howns := h.owns
  have hnodup := h.nodup
  have hfits := h.fits
  rw [hheld] at howns hnodup hfits
  unfold MmRun.setFrom
  split
  · next rq hrq =>
      refine ⟨howns, hnodup, hfits, fun j k rq' hentry hk hwritten => ?_, by simp⟩
      rcases hwritten with hlt | ⟨rfl, hle⟩
      · exact hbefore j k rq' hlt hentry hk
      · obtain rfl := Option.some_inj.mp (hrq.symm.trans hentry)
        exact absurd hk (Nat.not_lt.mpr hle)
  · next hnone =>
      refine ⟨howns, hnodup, hfits, fun j k rq' hentry hk _ => ?_, by simp⟩
      have hlt := (List.getElem?_eq_some_iff.mp hentry).1
      exact hbefore j k rq' (hlt.trans_le (List.getElem?_eq_none_iff.mp hnone)) hentry hk

/-- Two entries at one address are the same. -/
theorem index_eq (h : t.Sound S mem p) (hheld : t.held = t.rqs) {i j : ℕ} {rq rq' : MmRq}
    (hi : t.rqs[i]? = some rq) (hj : t.rqs[j]? = some rq') (heq : rq.address = rq'.address) :
    i = j := by
  have hnodup := h.nodup
  rw [hheld] at hnodup
  have hlt : i < (t.rqs.map MmRq.address).length := by
    rw [List.length_map]
    exact (List.getElem?_eq_some_iff.mp hi).1
  apply (List.getElem?_inj hlt hnodup).mp
  rw [List.getElem?_map, List.getElem?_map, hi, hj, Option.map_some, Option.map_some, heq]

/-- `malloc` has returned a block. -/
theorem granted {size : UInt32} {ptr : ℕ} (h : t.Sound S mem p) (hinv : mem.Inv B)
    (here : t.next = .request) (ne : ptr ≠ 0)
    (step : ClientStep S mem p (.malloc size.toUInt64 ptr) mem')
    (heq : t' = { t with total := t.total + size, rqs := t.rqs ++ [⟨ptr, size, ne⟩] }) :
    t'.Sound S mem' p := by
  obtain ⟨hnone, howner, hfits⟩ := hinv.grants step ne
  have hrqs : t'.rqs = t.rqs ++ [⟨ptr, size, ne⟩] := by rw [heq]
  have here' : t'.next = .request := by
    rw [heq]
    exact here
  have hheld := MmRun.held_of_next here (by simp)
  have hheld' : t'.held = t.rqs ++ [⟨ptr, size, ne⟩] := by
    rw [← hrqs]
    exact MmRun.held_of_next here' (by simp)
  have howns := h.owns
  rw [hheld] at howns
  have hfresh : ∀ rq ∈ t.rqs, rq.address ≠ ptr := by
    rintro rq hrq rfl
    have hown := (howns rq.address).mpr ⟨rq, hrq, rfl⟩
    rw [hnone] at hown
    cases hown
  refine ⟨fun other => ?_, ?_, fun rq hrq => ?_, fun i k rq _ _ hwritten => ?_, ?_⟩
  · rw [hheld', howner]
    by_cases hother : other = ptr
    · rw [hother, Function.update_self]
      exact iff_of_true rfl ⟨⟨ptr, size, ne⟩, by simp, rfl⟩
    · rw [Function.update_of_ne hother, howns]
      simp [Ne.symm hother]
  · rw [hheld', List.map_append, List.nodup_append]
    refine ⟨hheld ▸ h.nodup, List.nodup_singleton _, ?_⟩
    intro address haddress other hother
    obtain ⟨rq, hrq, rfl⟩ := List.mem_map.mp haddress
    rw [List.mem_singleton.mp hother]
    exact hfresh rq hrq
  · rw [hheld'] at hrq
    rcases List.mem_append.mp hrq with hrq | hrq
    · have hown := (howns rq.address).mpr ⟨rq, hrq, rfl⟩
      rw [(hinv.keeps step hown (by simp)).2.1]
      exact h.fits rq (hheld ▸ hrq)
    · rw [List.mem_singleton.mp hrq]
      have hsize := hfits (by simpa using size.toNat_lt)
      simpa using hsize
  · rw [here'] at hwritten
    cases hwritten
  · rw [here']
    simp

/-- `malloc` has returned a null pointer. -/
theorem refused {size : UInt64} (h : t.Sound S mem p) (hinv : mem.Inv B)
    (step : ClientStep S mem p (.malloc size 0) mem') : t.Sound S mem' p := by
  refine h.transfer (fun ptr => ?_) fun ptr own => (hinv.keeps step own (by simp)).2
  cases step with
  | malloc call headers => rfl

/-- `memset` has written a byte. -/
theorem set {i length : ℕ} {rq : MmRq} (h : t.Sound S mem p) (hinv : mem.Inv B)
    (here : t.next = .set i (length + 1)) (entry : t.rqs[i]? = some rq)
    (step : ClientStep S mem p (.store rq.address length (UInt8.ofNat i)) mem') :
    { t with next := .set i length }.Sound S mem' p := by
  have hheld := MmRun.held_of_next here (by simp)
  have howns := h.owns
  have hfits := h.fits
  rw [hheld] at howns hfits
  have hkeeps : ∀ rq' ∈ t.rqs, _ := fun rq' hrq' =>
    hinv.keeps step ((howns rq'.address).mpr ⟨rq', hrq', rfl⟩) (by simp)
  refine ⟨fun ptr => ?_, hheld ▸ h.nodup, fun rq' hrq' => ?_, ?_, by simp⟩
  · refine Iff.trans ?_ (howns ptr)
    cases step with
    | store mine inside write => exact Iff.rfl
  · rw [(hkeeps rq' hrq').2.1]
    exact hfits rq' hrq'
  · intro j k rq' hentry hk hwritten
    have hrq' := List.mem_of_getElem? hentry
    rw [(hkeeps rq' hrq').2.2 k (hk.trans_le (hfits rq' hrq')), MemAct.leaves]
    split
    · next hsame => rw [h.index_eq hheld entry hentry hsame.1]
    · next hother =>
        apply h.written j k rq' hentry hk
        rw [here]
        rcases hwritten with hlt | ⟨rfl, hle⟩
        · exact .inl hlt
        · obtain rfl := Option.some_inj.mp (entry.symm.trans hentry)
          have hne : length ≠ k := fun heq => hother ⟨rfl, heq⟩
          exact .inr ⟨rfl, by omega⟩

/-- A block has been freed. -/
theorem release {i : ℕ} {rq : MmRq} (h : t.Sound S mem p) (hinv : mem.Inv B)
    (here : t.next = .release i) (entry : t.rqs[i]? = some rq)
    (step : ClientStep S mem p (.free rq.address) mem') :
    { t with next := .release (i + 1) }.Sound S mem' p := by
  have hheld : t.held = rq :: t.rqs.drop (i + 1) := by
    obtain ⟨hlt, hget⟩ := List.getElem?_eq_some_iff.mp entry
    rw [MmRun.held, here]
    dsimp only
    rw [List.drop_eq_getElem_cons hlt, hget]
  have howns := h.owns
  have hfits := h.fits
  have hnodup := h.nodup
  rw [hheld] at howns hfits hnodup
  rw [List.map_cons, List.nodup_cons] at hnodup
  have hne : ∀ rq' ∈ t.rqs.drop (i + 1), rq'.address ≠ rq.address := by
    intro rq' hrq' heq
    exact hnodup.1 (heq ▸ List.mem_map_of_mem hrq')
  refine ⟨fun ptr => ?_, hnodup.2, fun rq' hrq' => ?_, fun _ _ _ _ _ hwritten => ?_, by simp⟩
  · cases step with
    | free mine call headers =>
        dsimp only
        by_cases hptr : ptr = rq.address
        · rw [hptr, Function.update_self]
          refine iff_of_false (by simp) ?_
          rintro ⟨rq', hrq', heq⟩
          exact hne rq' hrq' heq
        · rw [Function.update_of_ne hptr, howns, List.exists_mem_cons_iff]
          exact or_iff_right (Ne.symm hptr)
  · have hmem := List.mem_cons_of_mem rq hrq'
    have hfree : MemAct.free rq.address ≠ .free rq'.address := by
      simpa using (hne rq' hrq').symm
    rw [(hinv.keeps step ((howns rq'.address).mpr ⟨rq', hmem, rfl⟩) hfree).2.1]
    exact hfits rq' hmem
  · cases hwritten

/-- The acts of the test keep what holds of it. -/
theorem act (h : t.Sound S mem p) (hinv : mem.Inv B) (acts : MmActs (.test t) a (.test t'))
    (step : ClientStep S mem p a mem') : t'.Sound S mem' p := by
  cases acts with
  | granted here more ne => exact h.granted hinv here ne step rfl
  | refused here more =>
      have hheld := MmRun.held_of_next here (by simp)
      exact (h.refused hinv step).setFrom hheld fun _ _ _ hlt => absurd hlt (Nat.not_lt_zero _)
  | set here entry => exact h.set hinv here entry step
  | release here entry => exact h.release hinv here entry step

/-- So do its other steps. In particular `memcheck` never finds a wrong byte. -/
theorem read (h : t.Sound S mem p) (reads : MmReads mem.bytes t t') : t'.Sound S mem p := by
  cases reads with
  | requested here enough =>
      have hheld := MmRun.held_of_next here (by simp)
      exact h.setFrom hheld fun _ _ _ hlt => absurd hlt (Nat.not_lt_zero _)
  | written here =>
      refine h.setFrom (MmRun.held_of_next here (by simp)) fun j k rq hlt hentry hk => ?_
      apply h.written j k rq hentry hk
      rw [here]
      exact (Nat.lt_succ_iff_lt_or_eq.mp hlt).imp_right fun heq => ⟨heq, Nat.zero_le k⟩
  | same here entry inside equal =>
      refine h.goTo (MmRun.held_of_next here (by simp)).symm (fun _ _ _ => ?_) (by simp)
      rw [here]
      trivial
  | differs here entry inside wrong =>
      refine absurd (h.written _ _ _ entry inside ?_) wrong
      rw [here]
      trivial
  | checked here entry through =>
      refine h.goTo (MmRun.held_of_next here (by simp)).symm (fun _ _ _ => ?_) (by simp)
      rw [here]
      trivial
  | allChecked here none =>
      have hheld := MmRun.held_of_next here (by simp)
      exact h.goTo hheld.symm (fun _ _ hwritten => by cases hwritten) (by simp)
  | allReleased here none =>
      have hnothing : t.held = [] := by
        rw [MmRun.held, here]
        exact List.drop_eq_nil_of_le (List.getElem?_eq_none_iff.mp none)
      have howns := h.owns
      rw [hnothing] at howns
      exact .begin _ fun ptr hown => by simpa using (howns ptr).mp hown

end MmRun.Sound

end Invariant

section Runs

variable {M : Allocator} {P : Type} [DecidableEq P] {S : Storage M} {start m m' : MmSystem M P}
  {p : P} {t : MmRun} {h : M.Heap} {bytes : ByteMemory}
  {heapStart heapSize endOfKernel : UInt64}

/-- What holds in every state of a run. -/
structure MmSystem.Sound (S : Storage M) (m : MmSystem M P) : Prop where
  inv : ∃ B, m.mem.Inv B
  tests : ∀ p t, m.job p = .test t → t.Sound S m.mem p

@[simp]
theorem MmSystem.job_update {mem : Shared M P} {job : P → MmJob} {j : MmJob} :
    (⟨mem, update job p j⟩ : MmSystem M P).job p = j := Function.update_self ..

/-- Every step keeps it. -/
theorem MmSystem.Sound.step (hm : m.Sound S) (step : MmStep S m m') : m'.Sound S := by
  obtain ⟨B, hinv⟩ := hm.inv
  cases step with
  | @enter p argv maxMemory outside fresh args =>
      refine ⟨⟨B, hinv⟩, fun q t hq => ?_⟩
      dsimp only at hq
      rcases eq_or_ne q p with rfl | hne
      · rw [Function.update_self] at hq
        cases hq
        exact .begin maxMemory fresh
      · rw [Function.update_of_ne hne] at hq
        exact hm.tests q t hq
  | @act p a job' mem' acts step =>
      refine ⟨hinv.step step, fun q t hq => ?_⟩
      dsimp only at hq
      rcases eq_or_ne q p with rfl | hne
      · rw [Function.update_self] at hq
        rw [hq] at acts
        cases hjob : m.job q with
        | other =>
            rw [hjob] at acts
            cases acts
        | test before => exact (hm.tests q before hjob).act hinv (hjob ▸ acts) step
      · rw [Function.update_of_ne hne] at hq
        exact (hm.tests q t hq).frame hinv step hne.symm
  | @read p t t' here reads =>
      refine ⟨⟨B, hinv⟩, fun q t hq => ?_⟩
      dsimp only at hq
      rcases eq_or_ne q p with rfl | hne
      · rw [Function.update_self] at hq
        cases hq
        exact (hm.tests q _ here).read reads
      · rw [Function.update_of_ne hne] at hq
        exact hm.tests q t hq

theorem MmRuns.sound (run : MmRuns S start m) (hstart : start.Sound S) : m.Sound S := by
  induction run with
  | refl => exact hstart
  | snoc _ step ih => exact ih.step step

omit [DecidableEq P] in
/-- Nobody runs the test when a manager has been set up. -/
theorem mmBegin_sound (setUp : SetUp heapStart heapSize endOfKernel M S h)
    (hstart : heapStart ≠ 0) (hwrap : heapStart.toNat + heapSize.toNat ≤ 2 ^ 64)
    (hlimit : heapSize.toNat ≤ Simple.mmDefaultHeapLimit) :
    (mmBegin h bytes : MmSystem M P).Sound S :=
  ⟨⟨∅, .unused (setUp.holds hstart hwrap hlimit) bytes⟩, fun q t hq => by cases hq⟩

/-- When nobody steps in, `memset` goes through its block. -/
theorem MmRuns.memset {i length : ℕ} {rq : MmRq} (run : MmRuns S start m)
    (hjob : m.job p = .test { t with next := .set i length }) (entry : t.rqs[i]? = some rq)
    (own : m.mem.owner rq.address = some p)
    (hfits : length ≤ S.payloadSize m.mem.heap rq.address)
    (hwrite : S.ClientWrite m.mem.heap rq.address m.mem.heap) :
    ∃ m' : MmSystem M P,
      MmRuns S start m' ∧ m'.job p = .test { t with next := .set i 0 } := by
  induction length generalizing m with
  | zero => exact ⟨m, run, hjob⟩
  | succ length ih =>
      have acts : MmActs (m.job p) (.store rq.address length (UInt8.ofNat i))
          (.test { t with next := .set i length }) := by
        rw [hjob]
        exact .set rfl entry
      have run' := run.snoc (.act acts (.store own hfits hwrite))
      exact ih run' MmSystem.job_update own (Nat.le_of_succ_le hfits) hwrite

/-- When nobody steps in, `memcheck` goes through its block and comes to the next. -/
theorem MmRuns.memcheck {i k : ℕ} {rq : MmRq} (hstart : start.Sound S) (run : MmRuns S start m)
    (hjob : m.job p = .test { t with next := .check i k }) (entry : t.rqs[i]? = some rq) :
    ∃ m' : MmSystem M P,
      MmRuns S start m' ∧ m'.job p = .test { t with next := .check (i + 1) 0 } := by
  induction hrest : rq.size.toNat - k generalizing m k with
  | zero =>
      have through : ¬k < rq.size.toNat := by omega
      exact ⟨_, run.snoc (.read hjob (.checked rfl entry through)), MmSystem.job_update⟩
  | succ rest ih =>
      have inside : k < rq.size.toNat := by omega
      have equal := ((run.sound hstart).tests p _ hjob).written i k rq entry inside trivial
      have run' := run.snoc (.read hjob (.same rfl entry inside equal))
      exact ih run' MmSystem.job_update (by omega)

/-- With either manager, any number of processes in the test and any others that allocate, write and
free in between: `memcheck` never finds a wrong byte, and a process in the test owns the blocks that
the test has got and not freed yet, which are as large as it asked for, and no others. -/
theorem test_mm_never_fails (setUp : SetUp heapStart heapSize endOfKernel M S h)
    (hstart : heapStart ≠ 0) (hwrap : heapStart.toNat + heapSize.toNat ≤ 2 ^ 64)
    (hlimit : heapSize.toNat ≤ Simple.mmDefaultHeapLimit)
    (run : MmRuns S (mmBegin h bytes) m) (hjob : m.job p = .test t) :
    t.next ≠ .failed ∧
      (∀ ptr, m.mem.owner ptr = some p ↔ ∃ rq ∈ t.held, rq.address = ptr) ∧
      ∀ rq ∈ t.held, rq.size.toNat ≤ S.payloadSize m.mem.heap rq.address := by
  have ht := (run.sound (mmBegin_sound setUp hstart hwrap hlimit)).tests p t hjob
  exact ⟨ht.passed, ht.owns, ht.fits⟩

/-- A test with 100 bytes in a region of one page gets them in one block, writes them, and has found
each as it was written when it comes to free the block. -/
theorem test_mm_never_fails_page :
    ∃ (M : Allocator) (S : Storage M) (h : M.Heap) (m : MmSystem M Unit) (t : MmRun),
      SetUp 0x10008 4096 0x101000 M S h ∧ MmRuns S (mmBegin h fun _ => 0) m ∧
      m.job () = .test t ∧ t.next = .release 0 ∧ m.mem.owner 0x10038 = some () := by
  obtain ⟨M, S, h, h₁, setUp, hcall, -, hwrite, -⟩ := SetUp.page
  have hbegin : (mmBegin h fun _ => 0 : MmSystem M Unit).Sound S :=
    mmBegin_sound setUp (by decide) (by decide) (by decide)
  have hargs : mmMaxMemory ["100".toList] = some 100 := by decide +kernel
  obtain ⟨t, ht⟩ : ∃ t : MmRun, t = ⟨100, 100, [⟨0x10038, 100, by decide⟩], .request⟩ := ⟨_, rfl⟩
  have entry : t.rqs[0]? = some ⟨0x10038, 100, by decide⟩ := by rw [ht]; rfl
  have none : t.rqs[1]? = none := by rw [ht]; rfl
  have acts : ∀ job, job = .test (mmIteration 100) →
      MmActs job (.malloc (100 : UInt32).toUInt64 0x10038) (.test t) := by
    rintro _ rfl
    rw [ht]
    exact .granted rfl ⟨by decide, by decide⟩ (by decide)
  have reads : ∀ bytes, MmReads bytes t { t with next := .set 0 100 } := by
    rw [ht]
    exact fun _ => .requested rfl fun more => absurd more.2 (by decide)
  obtain ⟨m₁, entered, hheap, hjob₁⟩ : ∃ m : MmSystem M Unit, MmRuns S (mmBegin h fun _ => 0) m ∧
      m.mem.heap = h ∧ m.job () = .test (mmIteration 100) :=
    ⟨_, MmRuns.refl.snoc (.enter rfl (by simp [mmBegin, Shared.unused]) hargs), rfl,
      MmSystem.job_update⟩
  obtain ⟨m₂, allocated, rfl, own, hjob₂⟩ : ∃ m : MmSystem M Unit,
      MmRuns S (mmBegin h fun _ => 0) m ∧ m.mem.heap = h₁ ∧ m.mem.owner 0x10038 = some () ∧
        m.job () = .test t := by
    rw [← hheap] at hcall
    exact ⟨_, entered.snoc (.act (acts _ hjob₁)
      (.malloc ((syscallMalloc_of_ne (by decide)).trans hcall) fun _ _ => rfl)), rfl,
      by simp, MmSystem.job_update⟩
  have hfits := ((allocated.sound hbegin).tests () t hjob₂).fits ⟨0x10038, 100, by decide⟩
    (by rw [ht]; exact .head _)
  obtain ⟨m₃, written, hjob₃⟩ := (allocated.snoc (.read hjob₂ (reads _))).memset
    MmSystem.job_update entry own hfits hwrite
  have next : { t with next := .set 0 0 }.setFrom 1 = { t with next := .check 0 0 } := by
    rw [MmRun.setFrom]
    rw [none]
  obtain ⟨m₄, checked, hjob₄⟩ := (written.snoc (.read hjob₃ (.written rfl))).memcheck hbegin
    (MmSystem.job_update.trans (congrArg MmJob.test next)) entry
  have run := checked.snoc (.read hjob₄ (.allChecked rfl none))
  have hsound := test_mm_never_fails setUp (by decide) (by decide) (by decide) run
    MmSystem.job_update
  refine ⟨M, S, h, _, _, setUp, run, MmSystem.job_update, rfl, (hsound.2.1 _).mpr ?_⟩
  exact ⟨_, List.mem_of_getElem? entry, rfl⟩

end Runs

end SoKernel.Userland
