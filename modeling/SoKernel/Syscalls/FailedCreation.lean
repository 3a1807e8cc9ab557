import SoKernel.Ipc.CallFrames
import SoKernel.Mm.Allocator
import SoKernel.Proc.Boot
import SoKernel.Syscalls.CreateProcess

/-!
# Creation that fails

`syscall_create_process` together with the memory that `process_create` takes. When there is
no entry point or no memory, the block of the process is freed again and nothing has been
entered into the tables and queues. Only the foreground flag of the caller is not put back:
it is set, whatever it was before.
-/

namespace SoKernel

open Function (update)
open Mm (Allocator)

section Model

/-- `sizeof(process_t)`. -/
def processControlBlockSize : UInt64 := 480

/-- The calls of `process_create` to the memory manager: the addresses of the control block and
of the stack, `0` where it got none. -/
def processMemory (M : Allocator) (h : M.Heap) (entryPoint : ℕ) : Option (ℕ × ℕ × M.Heap) :=
  if entryPoint = 0 then some (0, 0, h)
  else do
    let (pcb, h) ← M.alloc h processControlBlockSize
    if pcb = 0 then some (0, 0, h)
    else
      let (stack, h) ← M.alloc h (UInt64.ofNat processKernelStackSize)
      if stack = 0 then (M.free h pcb).map fun h => (pcb, 0, h)
      else some (pcb, stack, h)

/-- `syscall_create_process` with its packed argument, and the heap. -/
def syscallCreateProcessHeap (M : Allocator) (k : Kernel) (h : M.Heap)
    (function priority word : ℕ) : Option (ℕ × Kernel × M.Heap) := do
  let (pcb, stack, h) ← processMemory M h function
  let (result, k) ← syscallCreateProcessPacked k function priority pcb stack word
  some (result, k, h)

/-- There is an entry point, and memory for the process. -/
def CreationServed (M : Allocator) (h : M.Heap) (function : ℕ) : Prop :=
  function ≠ 0 ∧ ∃ pcb stack h', processMemory M h function = some (pcb, stack, h') ∧
    pcb ≠ 0 ∧ stack ≠ 0

/-- Nothing that a process can see has changed: the pipes with their counts, the queues, the
counter of identifiers, the process tree and the foreground flags. -/
structure Unaffected (k k' : Kernel) : Prop where
  allocated : k'.allocated = k.allocated
  pipes : k'.pipes = k.pipes
  nextPipeId : k'.nextPipeId = k.nextPipeId
  semaphores : k'.semaphores = k.semaphores
  queues : k'.queues = k.queues
  queueLinks : ∀ p, k.allocated p = true →
    k'.queueNext p = k.queueNext p ∧ k'.queuePrev p = k.queuePrev p
  nextPid : k'.nextPid = k.nextPid
  tree : ∀ p, k.allocated p = true → k'.parent p = k.parent p ∧ k'.firstChild p = k.firstChild p ∧
    k'.nextSibling p = k.nextSibling p ∧ k'.prevSibling p = k.prevSibling p
  isForeground : ∀ p, k.allocated p = true → k'.isForeground p = k.isForeground p

end Model

section Created

variable {k k' : Kernel} {p : ℕ} {r : SpawnRequest}

theorem pid_frame : CallFrame fun k k' => k'.pid = k.pid where
  refl _ := rfl
  trans h h' := h'.trans h
  wait k id _ := by
    obtain ⟨sems, wos, swn, heq⟩ := semWaitStart_shape k id
    rw [heq]
  signal h := by
    obtain ⟨w, heffect⟩ := semSignal_effect h
    cases heffect with
    | missing => rfl
    | incremented i => rfl
    | released i w found head ne l b => rfl
  pipe _ _ _ := rfl

theorem attachPipe_pid {fd pipeId : ℕ} {isWriter : Bool}
    (h : attachPipe k p fd pipeId isWriter = some k') : k'.pid = k.pid := by
  unfold attachPipe at h
  split at h
  · cases h
    rfl
  · split at h
    · cases h
      rfl
    · obtain ⟨x, hopen, hlast⟩ := Option.bind_eq_some_iff.mp h
      have hpid := pid_frame.pipeOpenById hopen
      cases hlast
      split <;> exact hpid

theorem inheritFd_pid {parent i : ℕ} (h : inheritFd k p parent i = some k') : k'.pid = k.pid := by
  unfold inheritFd at h
  split at h
  · cases h
    rfl
  · split at h
    · cases h
      rfl
    · split at h
      · cases h
        rfl
      · obtain ⟨x, hopen, hlast⟩ := Option.bind_eq_some_iff.mp h
        have hpid := pid_frame.pipeOpenById hopen
        cases hlast
        split <;> exact hpid

theorem inheritFds_pid {is : List ℕ} (h : inheritFds k p r is = some k') : k'.pid = k.pid := by
  induction is generalizing k with
  | nil =>
      cases h
      rfl
  | cons i is ih =>
      obtain ⟨k₁, hone, hrest⟩ := Option.bind_eq_some_iff.mp h
      rw [ih hrest]
      split at hone
      · cases hone
        rfl
      · exact inheritFd_pid hone

/-- A process that is created gets the next identifier. -/
theorem processCreate_pid (hentry : r.entryPoint ≠ 0) (hpcb : r.pcb ≠ 0) (hstack : r.stack ≠ 0)
    (h : processCreate k r = some (p, k')) : p = r.pcb ∧ k'.pid p = k.nextPid := by
  rw [processCreate, if_neg hentry, if_neg hpcb, if_neg hstack, Option.bind_eq_bind] at h
  obtain ⟨k₁, hin, h₁⟩ := Option.bind_eq_some_iff.mp h
  obtain ⟨k₂, hout, h₂⟩ := Option.bind_eq_some_iff.mp h₁
  obtain ⟨k₃, hfds, hlast⟩ := Option.bind_eq_some_iff.mp h₂
  obtain ⟨rfl, rfl⟩ := Prod.mk.inj (Option.some_inj.mp hlast)
  have hinit : (initPcb k r).pid r.pcb = k.nextPid := Function.update_self ..
  have hthird : k₃.pid = k₂.pid := by
    split at hfds
    · exact inheritFds_pid hfds
    · cases hfds
      rfl
  have henter : (enterPcb k₃ r).pid = k₃.pid := by
    unfold enterPcb linkChild
    dsimp only
    split
    · split <;> rfl
    · rfl
  exact ⟨rfl, by rw [henter, hthird, attachPipe_pid hout, attachPipe_pid hin, hinit]⟩

theorem schedulerSpawnProcess_pid (hentry : r.entryPoint ≠ 0) (hpcb : r.pcb ≠ 0)
    (hstack : r.stack ≠ 0) (h : schedulerSpawnProcess k r = some (p, k')) :
    p ≠ 0 ∧ k'.pid p = k.nextPid := by
  obtain ⟨⟨p₁, k₁⟩, hcreate, hrest⟩ := Option.bind_eq_some_iff.mp h
  obtain ⟨rfl, hpid⟩ := processCreate_pid hentry hpcb hstack hcreate
  dsimp only at hrest
  rw [if_neg hpcb] at hrest
  obtain ⟨k₂, hadd, hlast⟩ := Option.bind_eq_some_iff.mp hrest
  obtain ⟨rfl, rfl⟩ := Prod.mk.inj (Option.some_inj.mp hlast)
  refine ⟨hpcb, ?_⟩
  unfold schedulerAddProcess at hadd
  split at hadd
  · cases hadd
    exact hpid
  · obtain ⟨l, rfl⟩ := readyQueuePush_shape hadd
    exact hpid

end Created

section Memory

variable {M : Allocator} {h : M.Heap} {B : Set M.Block} {function : ℕ}

/-- The process gets its memory, or the heap has the same blocks as before. -/
theorem processMemory_cases (hheap : M.Holds h B) (function : ℕ) :
    ∃ pcb stack h', processMemory M h function = some (pcb, stack, h') ∧
      (function ≠ 0 ∧ pcb ≠ 0 ∧ stack ≠ 0 ∨
        (function = 0 ∨ pcb = 0 ∨ stack = 0) ∧ M.Holds h' B ∧
          (pcb ≠ 0 → ∀ b ∈ B, M.payload b ≠ pcb)) := by
  unfold processMemory
  by_cases hf : function = 0
  · exact ⟨0, 0, h, if_pos hf, Or.inr ⟨Or.inl hf, hheap, fun h0 => absurd rfl h0⟩⟩
  rw [if_neg hf]
  obtain ⟨pcb, h₁, hfirst, ⟨rfl, hheap₁⟩ | ⟨hpcb, hfresh, b, rfl, hheap₁⟩⟩ :=
    M.alloc_spec hheap processControlBlockSize
  · refine ⟨0, 0, h₁, ?_, Or.inr ⟨Or.inr (Or.inl rfl), hheap₁, fun h0 => absurd rfl h0⟩⟩
    simp only [hfirst, Option.bind_eq_bind, Option.bind_some, if_true]
  obtain ⟨stack, h₂, hsecond, ⟨rfl, hheap₂⟩ | ⟨hstack, -⟩⟩ :=
    M.alloc_spec hheap₁ (UInt64.ofNat processKernelStackSize)
  · obtain ⟨h₃, hfree, hheap₃⟩ := Allocator.free_newest hheap₂ hfresh
    refine ⟨M.payload b, 0, h₃, ?_, Or.inr ⟨Or.inr (Or.inr rfl), hheap₃, fun _ => hfresh⟩⟩
    simp only [hfirst, Option.bind_eq_bind, Option.bind_some, if_neg hpcb, hsecond, if_true, hfree,
      Option.map_some]
  · refine ⟨M.payload b, stack, h₂, ?_, Or.inl ⟨hf, hpcb, hstack⟩⟩
    simp only [hfirst, Option.bind_eq_bind, Option.bind_some, if_neg hpcb, hsecond, if_neg hstack]

end Memory

section Failing

variable {k k' : Kernel} {r : SpawnRequest}

/-- The flags after a creation that failed. -/
def restoredFlags (k : Kernel) (requested : Bool) : ℕ → Bool :=
  if requested = true ∧ k.current ≠ 0 then update k.isForeground k.current true else k.isForeground

theorem Unaffected.refl (k : Kernel) : Unaffected k k :=
  ⟨rfl, rfl, rfl, rfl, rfl, fun _ _ => ⟨rfl, rfl⟩, rfl, fun _ _ => ⟨rfl, rfl, rfl, rfl⟩,
    fun _ _ => rfl⟩

/-- The control block that is cleared belongs to no process. -/
theorem clearPcb_unaffected {p : ℕ} (hfresh : k.allocated p = false) :
    Unaffected k (clearPcb k p) := by
  have hkeep : ∀ {β : Type} (f : ℕ → β) (v : β) (a : ℕ), k.allocated a = true →
      update f p v a = f a := by
    intro β f v a ha
    have hne : a ≠ p := by
      rintro rfl
      rw [hfresh] at ha
      cases ha
    exact Function.update_of_ne hne v f
  exact ⟨rfl, rfl, rfl, rfl, rfl, fun a ha => ⟨hkeep _ _ a ha, hkeep _ _ a ha⟩, rfl,
    fun a ha => ⟨hkeep _ _ a ha, hkeep _ _ a ha, hkeep _ _ a ha, hkeep _ _ a ha⟩, hkeep _ _⟩

theorem schedulerSpawnProcess_failed (hfail : r.entryPoint = 0 ∨ r.pcb = 0 ∨ r.stack = 0)
    (hfresh : r.pcb ≠ 0 → k.allocated r.pcb = false) :
    ∃ k', schedulerSpawnProcess k r = some (0, k') ∧ Unaffected k k' := by
  have hcreate : ∃ k', processCreate k r = some (0, k') ∧ Unaffected k k' := by
    unfold processCreate
    by_cases hentry : r.entryPoint = 0
    · exact ⟨k, if_pos hentry, .refl k⟩
    by_cases hpcb : r.pcb = 0
    · exact ⟨k, by rw [if_neg hentry, if_pos hpcb], .refl k⟩
    · have hstack := (hfail.resolve_left hentry).resolve_left hpcb
      exact ⟨_, by rw [if_neg hentry, if_neg hpcb, if_pos hstack], clearPcb_unaffected (hfresh hpcb)⟩
  obtain ⟨k', heq, hsame⟩ := hcreate
  refine ⟨k', ?_, hsame⟩
  simp only [schedulerSpawnProcess, heq, Option.bind_eq_bind, Option.bind_some, if_true]

/-- A creation that fails changes nothing besides the flag of the caller and the contents of a
block that is free again. -/
theorem syscallCreateProcess_failed (hfail : r.entryPoint = 0 ∨ r.pcb = 0 ∨ r.stack = 0)
    (hfresh : r.pcb ≠ 0 → k.allocated r.pcb = false) :
    ∃ k', syscallCreateProcess k r = some (0, k') ∧
      Unaffected { k with isForeground := restoredFlags k r.isForeground } k' := by
  by_cases hask : r.isForeground = true ∧ k.current ≠ 0
  · obtain ⟨k', hspawn, hsame⟩ := schedulerSpawnProcess_failed
      (k := { k with isForeground := update k.isForeground k.current false })
      (r := { r with parent := k.current, priority := r.priority % 2 ^ 8 }) hfail hfresh
    refine ⟨{ k' with isForeground := update k'.isForeground k.current true }, ?_, ?_⟩
    · simp only [syscallCreateProcess, if_pos hask, hspawn, Option.bind_eq_bind, Option.bind_some,
        if_true]
    · refine ⟨hsame.allocated, hsame.pipes, hsame.nextPipeId, hsame.semaphores, hsame.queues,
        hsame.queueLinks, hsame.nextPid, hsame.tree, fun a ha => ?_⟩
      show update k'.isForeground k.current true a = restoredFlags k r.isForeground a
      rw [restoredFlags, if_pos hask]
      by_cases hac : a = k.current
      · rw [hac, Function.update_self, Function.update_self]
      · rw [Function.update_of_ne hac, Function.update_of_ne hac, hsame.isForeground a ha]
        exact Function.update_of_ne hac _ _
  · obtain ⟨k', hspawn, hsame⟩ := schedulerSpawnProcess_failed
      (k := k) (r := { r with parent := k.current, priority := r.priority % 2 ^ 8 }) hfail hfresh
    refine ⟨k', ?_, ?_⟩
    · simp only [syscallCreateProcess, if_neg hask, hspawn, Option.bind_eq_bind, Option.bind_some,
        if_true]
    · rw [restoredFlags, if_neg hask]
      exact hsame

end Failing

section Result

variable {k : Kernel} {M : Allocator} {h : M.Heap} {B : Set M.Block}

/-- A creation that gets its memory returns the identifier of the new process. -/
theorem syscallCreateProcess_pid {r : SpawnRequest} {result : ℕ} {k' : Kernel}
    (hentry : r.entryPoint ≠ 0) (hpcb : r.pcb ≠ 0) (hstack : r.stack ≠ 0)
    (h : syscallCreateProcess k r = some (result, k')) : result = k.nextPid := by
  obtain ⟨⟨p, k₁⟩, hspawn, hlast⟩ := Option.bind_eq_some_iff.mp h
  have hpid := schedulerSpawnProcess_pid
    (r := { r with parent := k.current, priority := r.priority % 2 ^ 8 }) hentry hpcb hstack hspawn
  dsimp only at hlast
  rw [if_neg hpid.1] at hlast
  obtain ⟨rfl, -⟩ := Prod.mk.inj (Option.some_inj.mp hlast)
  rw [hpid.2]
  split <;> rfl

/-- A creation that returns 0 leaves everything as it was exactly if no foreground process was
asked for or the caller had the foreground: the flag of the caller is set otherwise. The control
blocks of the existing processes are allocated blocks of the heap. -/
theorem failed_creation_unaffected_iff (hheap : M.Holds h B)
    (hblocks : ∀ p, k.allocated p = true → ∃ b ∈ B, M.payload b = p)
    (hcur : k.current ≠ 0 → k.allocated k.current = true) (hpid : k.nextPid ≠ 0)
    (function priority word : ℕ) :
    (∀ k' h', syscallCreateProcessHeap M k h function priority word = some (0, k', h') →
        M.Holds h' B ∧ Unaffected k k') ↔
      CreationServed M h function ∨ (unpackCreateArguments word).1 = false ∨ k.current = 0 ∨
        k.isForeground k.current = true := by
  obtain ⟨pcb, stack, h₁, hmem, hcases⟩ := processMemory_cases hheap function
  rcases hcases with ⟨hf, hpcb, hstack⟩ | ⟨hfail, hheap₁, hnew⟩
  · refine iff_of_true (fun k' h' hcall => ?_) (Or.inl ⟨hf, pcb, stack, h₁, hmem, hpcb, hstack⟩)
    rw [syscallCreateProcessHeap, hmem, Option.bind_eq_bind, Option.bind_some] at hcall
    obtain ⟨⟨result, k₂⟩, hcreate, hlast⟩ := Option.bind_eq_some_iff.mp hcall
    obtain ⟨rfl, -⟩ := Prod.mk.inj (Option.some_inj.mp hlast)
    exact absurd (syscallCreateProcess_pid hf hpcb hstack hcreate).symm hpid
  · have hfresh : pcb ≠ 0 → k.allocated pcb = false := by
      intro hpcb
      by_contra hnot
      obtain ⟨b, hb, heq⟩ := hblocks pcb (by simpa using hnot)
      exact hnew hpcb b hb heq
    obtain ⟨k₁, hcreate, hsame⟩ := syscallCreateProcess_failed (k := k)
      (r := ⟨function, 0, priority, (unpackCreateArguments word).1, (unpackCreateArguments word).2.1,
        (unpackCreateArguments word).2.2, pcb, stack⟩) hfail hfresh
    have hcall : syscallCreateProcessHeap M k h function priority word = some (0, k₁, h₁) := by
      simp only [syscallCreateProcessHeap, hmem, syscallCreateProcessPacked, hcreate,
        Option.bind_eq_bind, Option.bind_some]
    have hserved : ¬CreationServed M h function := by
      rintro ⟨hf, pcb', stack', h', hmem', hpcb', hstack'⟩
      rw [hmem, Option.some_inj, Prod.mk.injEq, Prod.mk.injEq] at hmem'
      obtain ⟨rfl, rfl, rfl⟩ := hmem'
      rcases hfail with h0 | h0 | h0
      · exact hf h0
      · exact hpcb' h0
      · exact hstack' h0
    rw [or_iff_right hserved]
    constructor
    · intro hall
      by_contra hnot
      simp only [not_or, Bool.not_eq_false] at hnot
      obtain ⟨hask, hc, hflag⟩ := hnot
      have hbefore := (hall k₁ h₁ hcall).2.isForeground k.current (hcur hc)
      have hafter : k₁.isForeground k.current = true := by
        rw [hsame.isForeground k.current (hcur hc)]
        simp [restoredFlags, hask, hc]
      exact hflag (hbefore ▸ hafter)
    · intro hcond k' h' hcall'
      rw [hcall, Option.some_inj, Prod.mk.injEq, Prod.mk.injEq] at hcall'
      obtain ⟨-, rfl, rfl⟩ := hcall'
      have hflags : restoredFlags k (unpackCreateArguments word).1 = k.isForeground := by
        unfold restoredFlags
        split
        · rename_i hask
          have hflag : k.isForeground k.current = true := by
            rcases hcond with h0 | h0 | h0
            · simp [h0] at hask
            · exact absurd h0 hask.2
            · exact h0
          rw [← hflag, Function.update_eq_self]
        · rfl
      refine ⟨hheap₁, ?_⟩
      rw [hflags] at hsame
      exact hsame

/-- The simple manager on 40000 bytes. -/
abbrev smallAllocator : Allocator := Mm.simpleAllocator 65536 105536 0

/-- A heap of 40000 bytes has room for the idle process and the shell, and for the control block of
a third process but not for its stack. -/
theorem failed_creation_unaffected_iff_full :
    ∃ k h B k' h', bootSystem 65576 66096 82520 83040 1 = some k ∧ smallAllocator.Holds h B ∧
      syscallCreateProcessHeap smallAllocator k h 1 2 0 = some (0, k', h') ∧
      smallAllocator.Holds h' B ∧ Unaffected k k' := by
  have hlo : Mm.Simple.alignedStart 65536 = 65536 := by decide +kernel
  have husable : Mm.Simple.usableBytes 65536 40000 = 40000 := by decide +kernel
  have hflag : (Mm.Simple.mmInit Mm.Simple.blankHeap 65536 40000).mmInitializedFlag = true := by
    decide +kernel
  have hinit := Mm.Simple.mmInit_represents (by decide) (by decide) (by decide) hflag
  rw [hlo, husable] at hinit
  have hcalc : ((smallAllocator.alloc (Mm.Simple.mmInit Mm.Simple.blankHeap 65536 40000) 480).bind
      fun x₁ => (smallAllocator.alloc x₁.2 16384).bind fun x₂ =>
        (smallAllocator.alloc x₂.2 480).bind fun x₃ =>
          (smallAllocator.alloc x₃.2 16384).bind fun x₄ =>
            (bootSystem 65576 66096 82520 83040 1).bind fun k =>
              (syscallCreateProcessHeap smallAllocator k x₄.2 1 2 0).map
                fun r => (x₁.1, x₂.1, x₃.1, x₄.1, r.1)) =
      some (65576, 66096, 82520, 83040, 0) := by
    decide +kernel
  obtain ⟨⟨a, h₁⟩, hcall₁, hrest₁⟩ := Option.bind_eq_some_iff.mp hcalc
  obtain ⟨⟨s, h₂⟩, hcall₂, hrest₂⟩ := Option.bind_eq_some_iff.mp hrest₁
  obtain ⟨⟨b, h₃⟩, hcall₃, hrest₃⟩ := Option.bind_eq_some_iff.mp hrest₂
  obtain ⟨⟨t, h₄⟩, hcall₄, hrest₄⟩ := Option.bind_eq_some_iff.mp hrest₃
  obtain ⟨k, hboot, hrest₅⟩ := Option.bind_eq_some_iff.mp hrest₄
  obtain ⟨⟨result, k', h'⟩, hcreate, hvalue⟩ := Option.map_eq_some_iff.mp hrest₅
  simp only [Prod.mk.injEq] at hvalue
  obtain ⟨rfl, rfl, rfl, rfl, rfl⟩ := hvalue
  have hbooted := bootSystem_spec ⟨by decide, by decide, by decide, by decide, by decide, by decide⟩
    hboot
  have hheap₀ : smallAllocator.Holds
      (Mm.Simple.mmInit Mm.Simple.blankHeap 65536 40000) (∅ : Set Mm.Simple.Block) :=
    ⟨hflag, _, _, hinit, Set.ext fun x => by simp [Mm.Simple.allocatedBlocks]⟩
  obtain ⟨b₁, hb₁, hheap₁⟩ := Allocator.alloc_holds hheap₀ hcall₁ (by decide)
  obtain ⟨b₂, -, hheap₂⟩ := Allocator.alloc_holds hheap₁ hcall₂ (by decide)
  obtain ⟨b₃, hb₃, hheap₃⟩ := Allocator.alloc_holds hheap₂ hcall₃ (by decide)
  obtain ⟨b₄, -, hheap₄⟩ := Allocator.alloc_holds hheap₃ hcall₄ (by decide)
  have hblocks : ∀ p, k.allocated p = true →
      ∃ b ∈ insert b₄ (insert b₃ (insert b₂ (insert b₁ (∅ : Set smallAllocator.Block)))),
        smallAllocator.payload b = p := by
    intro p hp
    rcases (hbooted.allocated p).mp hp with rfl | rfl
    · exact ⟨b₁, by simp, hb₁⟩
    · exact ⟨b₃, by simp, hb₃⟩
  have hcur : k.current ≠ 0 → k.allocated k.current = true := by
    rw [hbooted.current]
    exact fun _ => (hbooted.allocated _).mpr (Or.inl rfl)
  have hpid : k.nextPid ≠ 0 := by
    rw [hbooted.pid.2.2]
    decide
  obtain ⟨hheap', hsame⟩ := (failed_creation_unaffected_iff hheap₄ hblocks hcur hpid 1 2 0).mpr
    (Or.inr (Or.inl rfl)) k' h' hcreate
  exact ⟨k, h₄, _, k', h', hboot, hheap₄, hcreate, hheap', hsame⟩

/-- A background process asks for a foreground process without an entry point, and has the
foreground afterwards. -/
theorem failed_creation_takes_foreground :
    ∃ k₀ steps k k', initScheduler bootKernel 16 8192 = some k₀ ∧ Run k₀ steps k ∧
      steps.map Step.call =
        [.spawn ⟨1, 0, 2, true, 0, 0, 48, 12288⟩, .tick ⟨0, fun _ => 0⟩,
          .spawn ⟨1, 48, 2, false, 0, 0, 64, 32768⟩, .yield ⟨0, fun _ => 0⟩] ∧
      k.current = 64 ∧ k.allocated 64 = true ∧
      (∀ (M : Allocator) (h : M.Heap), syscallCreateProcessHeap M k h 0 2 1 = some (0, k', h)) ∧
      ¬Unaffected k k' := by
  have hcalc : ((initScheduler bootKernel 16 8192).bind fun k₀ =>
      (execAll k₀ [.spawn ⟨1, 0, 2, true, 0, 0, 48, 12288⟩, .tick ⟨0, fun _ => 0⟩,
          .spawn ⟨1, 48, 2, false, 0, 0, 64, 32768⟩, .yield ⟨0, fun _ => 0⟩]).bind fun k =>
        (syscallCreateProcessPacked k 0 2 0 0 1).map fun r =>
          (k.current, k.allocated 64, k.isForeground 64, r.1, r.2.isForeground 64)) =
        some (64, true, false, 0, true) := by
    decide +kernel
  obtain ⟨k₀, hinit, h₁⟩ := Option.bind_eq_some_iff.mp hcalc
  obtain ⟨k, hall, h₂⟩ := Option.bind_eq_some_iff.mp h₁
  obtain ⟨⟨result, k'⟩, hcreate, h₃⟩ := Option.map_eq_some_iff.mp h₂
  obtain ⟨steps, run, hcalls⟩ := Run.of_execAll hall
  simp only [Prod.mk.injEq] at h₃
  obtain ⟨hcur, halloc, hbefore, rfl, hafter⟩ := h₃
  refine ⟨k₀, steps, k, k', hinit, run, hcalls, hcur, halloc, fun M h => ?_, fun hu => ?_⟩
  · simp only [syscallCreateProcessHeap, processMemory, if_true, hcreate, Option.bind_eq_bind,
      Option.bind_some]
  · have hsame := hu.isForeground 64 halloc
    rw [hbefore, hafter] at hsame
    cases hsame

end Result

end SoKernel
