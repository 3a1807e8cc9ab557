import SoKernel.Proc.OpenEffects

/-!
# The state in which processes start to run

Embedding of the start of `main`: the idle process, the semaphore of the keyboard and the
shell, which is made as a foreground process without a parent.
-/

namespace SoKernel

open Function (update)

/-- `main` up to the activation of interrupts, with the results of `mm_alloc` for the two
processes and the entry point of the shell. -/
def bootSystem (idle idleStack shell shellStack entryPoint : ℕ) : Option Kernel := do
  let k ← initScheduler bootKernel idle idleStack
  let (_, k) ← schedulerSpawnProcess (keyboardInit k)
    ⟨entryPoint, 0, 2, true, 0, 0, shell, shellStack⟩
  some k

/-- The calls of `mm_alloc` have succeeded and there is a shell to start. -/
structure BootMemory (idle idleStack shell shellStack entryPoint : ℕ) : Prop where
  idle_ne : idle ≠ 0
  idleStack_ne : idleStack ≠ 0
  shell_ne : shell ≠ 0
  shellStack_ne : shellStack ≠ 0
  entryPoint_ne : entryPoint ≠ 0
  different : shell ≠ idle

/-- The state after the start. -/
structure Booted (k : Kernel) (idle shell : ℕ) : Prop where
  orderly : Orderly k
  current : k.current = idle
  idleP : k.idleP = idle
  different : shell ≠ idle
  allocated : ∀ p, k.allocated p = true ↔ p = idle ∨ p = shell
  state : k.state idle = .running ∧ k.state shell = .ready
  isForeground : ∀ p, k.isForeground p = true ↔ p = shell
  pid : k.pid idle = 1 ∧ k.pid shell = 2 ∧ k.nextPid = 3
  parent : ∀ p, k.parent p = 0
  firstChild : ∀ p, k.firstChild p = 0
  nextSibling : ∀ p, k.nextSibling p = 0
  prevSibling : ∀ p, k.prevSibling p = 0
  waitersHead : ∀ p, k.waitersHead p = 0
  waiterNext : ∀ p, k.waiterNext p = 0
  waitingOnPid : ∀ p, k.waitingOnPid p = 0
  waitingOnSem : ∀ p, k.waitingOnSem p = 0
  semWaiterNext : ∀ p, k.semWaiterNext p = 0
  semaphores : k.semaphores 0 = ⟨1, 0, 1, 0, 0, true⟩ ∧ ∀ i, i ≠ 0 → (k.semaphores i).used = false
  nextSemId : k.nextSemId = 2
  kbdSemId : k.kbdSemId = 1
  keyboard : k.keyboard.size = 0
  alive : ∀ p, k.state p ≠ .finished
  pipes : ∀ i, (k.pipes i).used = false ∧ (k.pipes i).id = 0 ∧ (k.pipes i).mutex = 0
  nextPipeId : k.nextPipeId = 1
  waitQueues : ∀ i, (k.semaphores i).waitHead = 0 ∧ (k.semaphores i).waitTail = 0

/-- `process_create` succeeds when it gets its memory. -/
theorem processCreate_created {k : Kernel} (hterm : ∀ p i, k.fdType p i = .terminal)
    (hpipes : ∀ i, (k.pipes i).used = false) {r : SpawnRequest} (hentry : r.entryPoint ≠ 0)
    (hpcb : r.pcb ≠ 0) (hstack : r.stack ≠ 0) :
    ∃ fdp, processCreate k r = some (r.pcb, createdKernel k r processPriorityDefault fdp) := by
  have hfirst : ∀ p k', processCreate k r = some (p, k') → p = r.pcb := by
    intro p k' h
    unfold processCreate at h
    rw [if_neg hentry, if_neg hpcb, if_neg hstack, Option.bind_eq_bind] at h
    obtain ⟨k₁, -, hrest⟩ := Option.bind_eq_some_iff.mp h
    obtain ⟨k₂, -, hrest₂⟩ := Option.bind_eq_some_iff.mp hrest
    obtain ⟨k₃, -, hlast⟩ := Option.bind_eq_some_iff.mp hrest₂
    simp only [Option.some.injEq, Prod.mk.injEq] at hlast
    exact hlast.1.symm
  rcases processCreate_spec hterm hpipes r with heq | ⟨-, heq⟩ | ⟨-, hcreated⟩
  · exact absurd (hfirst _ _ heq).symm hpcb
  · exact absurd (hfirst _ _ heq).symm hpcb
  · exact hcreated

theorem schedulerSpawnProcess_created {k k' : Kernel} (hterm : ∀ p i, k.fdType p i = .terminal)
    (hpipes : ∀ i, (k.pipes i).used = false) {r : SpawnRequest} (hentry : r.entryPoint ≠ 0)
    (hpcb : r.pcb ≠ 0) (hstack : r.stack ≠ 0) (hidle : r.pcb ≠ k.idleP) {p : ℕ}
    (h : schedulerSpawnProcess k r = some (p, k')) :
    ∃ pr fdp l, k' = (createdKernel k r pr fdp).relink l := by
  obtain ⟨fdp, hcreate⟩ := processCreate_created hterm hpipes hentry hpcb hstack
  have hp : p = r.pcb := by
    unfold schedulerSpawnProcess at h
    simp only [hcreate, Option.bind_eq_bind, Option.bind_some, if_neg hpcb] at h
    obtain ⟨k₁, -, hlast⟩ := Option.bind_eq_some_iff.mp h
    simp only [Option.some.injEq, Prod.mk.injEq] at hlast
    exact hlast.1.symm
  rcases schedulerSpawnProcess_shape hterm hpipes hidle h with ⟨h0, -⟩ | ⟨h0, -, -⟩ | ⟨-, -, hk'⟩
  · exact absurd (hp.symm.trans h0) hpcb
  · exact absurd (hp.symm.trans h0) hpcb
  · exact hk'

/-- The first semaphore is that of the keyboard. -/
theorem keyboardInit_first {k : Kernel} (hkbd : k.kbdSemId = 0)
    (hfree : ∀ i, (k.semaphores i).used = false) :
    keyboardInit k =
      { k with
        semaphores := update k.semaphores 0 ⟨k.nextSemId, 0, 1, 0, 0, true⟩
        nextSemId := k.nextSemId + 1
        kbdSemId := k.nextSemId } := by
  have hfind : ((List.range maxSemaphores).find? fun i => !(k.semaphores i).used) = some 0 := by
    rw [List.find?_range_eq_some]
    exact ⟨by simp [hfree], List.mem_range.mpr (by decide), fun j hj => by omega⟩
  rw [keyboardInit, if_pos hkbd, semAlloc, hfind]

theorem bootSystem_spec {idle idleStack shell shellStack entryPoint : ℕ} {k : Kernel}
    (hm : BootMemory idle idleStack shell shellStack entryPoint)
    (h : bootSystem idle idleStack shell shellStack entryPoint = some k) : Booted k idle shell := by
  unfold bootSystem at h
  rw [Option.bind_eq_bind] at h
  obtain ⟨k₀, hinit, hrest⟩ := Option.bind_eq_some_iff.mp h
  obtain ⟨⟨p, k₁⟩, hspawn, hlast⟩ := Option.bind_eq_some_iff.mp hrest
  rw [Option.some_inj] at hlast
  subst hlast
  obtain ⟨fdp, hidle⟩ := processCreate_created
    (k := { bootKernel with
      nextPid := 1
      queues := fun _ => ⟨0, 0, 0⟩ }) (fun _ _ => rfl) (fun _ => rfl)
    (r := ⟨1, 0, 0, false, 0, 0, idle, idleStack⟩) one_ne_zero hm.idle_ne hm.idleStack_ne
  unfold initScheduler at hinit
  simp only [hidle, Option.bind_eq_bind, Option.bind_some, if_pos hm.idle_ne, Option.some_inj] at hinit
  subst hinit
  rw [keyboardInit_first rfl fun _ => rfl] at hspawn
  obtain ⟨pr, fdp', l, hk₁⟩ := schedulerSpawnProcess_created (fun _ _ => rfl) (fun _ => rfl)
    hm.entryPoint_ne hm.shell_ne hm.shellStack_ne hm.different hspawn
  have hback : idle ≠ shell := hm.different.symm
  have hshell := hm.shell_ne
  have hidle_ne := hm.idle_ne
  rw [hk₁]
  clear h hrest hidle hspawn hk₁
  refine ⟨⟨fun _ _ => rfl, fun _ => rfl, ?_, ?_, ?_, ?_⟩, rfl, rfl, hm.different, ?_, ?_, ?_, ?_, ?_, ?_,
    ?_, ?_, ?_, ?_, ?_, ?_, ?_, ?_, rfl, rfl, rfl, ?_, fun _ => ⟨rfl, rfl, rfl⟩, rfl, ?_⟩
  · intro p hp
    simp only [Function.update_apply, bootKernel] at hp
    grind
  · simp [hback]
  · simp [hback]
  · simp [hback]
  · intro p
    simp only [Function.update_apply, bootKernel]
    grind
  · simp [hback]
  · intro p
    simp only [Function.update_apply, bootKernel]
    grind
  · simp [hback]
  all_goals simp [Function.update_apply, bootKernel, createdFirstChild, createdSibling,
    createdPrevSibling]
  · intro i hi
    rw [if_neg hi]
  · intro p
    split_ifs <;> simp
  · intro i
    split_ifs <;> simp

end SoKernel
