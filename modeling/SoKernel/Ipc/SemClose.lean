import SoKernel.Ipc.Blocked
import SoKernel.Ipc.Runner

/-!
# Processes that wait for a closed semaphore

`sem_close_by_id` empties the wait queue of a semaphore with its last reference and wakes
nobody. A process that waits for a semaphore in use is in its queue; so nobody is left
behind exactly when every last close finds the queue empty.
-/

namespace SoKernel

open Function (update)

/-- The calls on semaphores, without `sem_set_by_id`. -/
def SemCall : IpcCall → Prop
  | .semAlloc _ | .semOpen _ | .semClose _ | .semWait _ | .semSignal _ => True
  | _ => False

/-- Processes that make any calls on semaphores. -/
def semProgram : Program Unit := fun _ _ c next => SemCall c ∧ next = fun _ => ()

/-- A close that removes its semaphore finds nobody in the wait queue. -/
def ClosesUnwaited (m : Ipc Unit) (e : Option IpcEvent) (_ : Ipc Unit) : Prop :=
  ∀ p id r i, e = some ⟨p, .semClose id, r⟩ → semGetById m.kernel id = some i →
    (m.kernel.semaphores i).refcount ≤ 1 → (m.kernel.semaphores i).waitHead = 0

/-- Every process that is blocked on a semaphore is in the queue of this semaphore. -/
def Reachable (k : Kernel) (V : Sems) : Prop :=
  ∀ p, k.state p = .blocked → k.waitingOnSem p ≠ 0 → ∃ s, V (k.waitingOnSem p) = some s ∧ p ∈ s.queue

section Steps

variable {m m' : Ipc Unit} {V V' : Sems} {e : Option IpcEvent} {k : Kernel} {a : ℕ}

/-- A close that leaves references, or finds nobody waiting, keeps a semaphore with waiting
processes. -/
theorem Represents.close_keeps {s : CountingSemaphore ℕ} (h : Represents k V)
    (h' : Represents (semCloseById k a).2 V') (hs : V a = some s) (hne : s.queue ≠ [])
    (hclose : ∀ i, semGetById k a = some i → (k.semaphores i).refcount ≤ 1 →
      (k.semaphores i).waitHead = 0) : V' a ≠ none := by
  obtain ⟨i, hi⟩ := h.get hs
  have href : ¬(k.semaphores i).refcount - 1 ≤ 0 := by
    intro hle
    have hhead := hclose i hi.found (by omega)
    exact hne (hi.queue.head_eq_null.mp hhead)
  have hsem : (semCloseById k a).2.semaphores i =
      { k.semaphores i with refcount := (k.semaphores i).refcount - 1 } := by
    simp only [semCloseById, hi.found, if_neg href, Function.update_self]
  obtain ⟨L, hL, -⟩ := h'.entry i hi.bound (by rw [hsem]; exact hi.used)
  rw [hsem, show (k.semaphores i).id = a from hi.id_eq] at hL
  rw [hL]
  simp

theorem Reachable.step (h : Reachable m.kernel V) (hsound : Sound m.kernel V)
    (hsound' : Sound m'.kernel V') (step : IpcStep semProgram m e m')
    (effect : StepEffect semProgram m V m' V' e) (hok : ClosesUnwaited m e m') :
    Reachable m'.kernel V' := by
  intro p hblocked hne
  rcases step.stillBlocked hsound hblocked with ⟨-, c, rfl⟩ | ⟨hbefore, hon⟩
  · exact effect.enqueued hsound'
  · rw [hon] at hne ⊢
    obtain ⟨s, hs, hp⟩ := h p hbefore hne
    cases hs' : V' (m.kernel.waitingOnSem p) with
    | some s' => exact ⟨s', rfl, effect.queued hs hp hblocked hs'⟩
    | none =>
        exfalso
        cases effect with
        | @call c r _ _ acts _ _ effect _ runs =>
            rcases effect.removed hs hs' with rfl | ⟨id, isWriter, j, rfl, -⟩
            · cases step with
              | call _ _ _ exec _ =>
                  cases exec
                  exact hsound.sems.close_keeps hsound'.sems hs (List.ne_nil_of_mem hp)
                    (fun i hi hr => hok _ _ _ i rfl hi hr) hs'
              | block => exact runs rfl
            · exact acts.1
        | block _ b t _ _ _ _ _ sems =>
            by_cases hab : m.kernel.waitingOnSem p = b
            · rw [sems, hab, Function.update_self] at hs'
              cases hs'
            · rw [sems, Function.update_of_ne hab, hs] at hs'
              cases hs'
        | switch _ sems =>
            rw [sems, hs] at hs'
            cases hs'

/-- In every run in which each close that removes its semaphore finds nobody waiting, every
process that is blocked on a semaphore waits for a semaphore in use. -/
theorem closing_strands_nobody {start : Ipc Unit} {t : List IpcEvent} (hquiet : Quiet start.kernel)
    (hwait : Unwaiting start.kernel) (run : IpcRunVia semProgram ClosesUnwaited start t m) (p : ℕ)
    (hblocked : m.kernel.state p = .blocked) (hsem : m.kernel.waitingOnSem p ≠ 0) :
    ∃ i < maxSemaphores, (m.kernel.semaphores i).used = true ∧
      (m.kernel.semaphores i).id = m.kernel.waitingOnSem p := by
  obtain ⟨V, hsound, hreach⟩ := run.invariant (I := fun _ m V => Reachable m.kernel V) hquiet.sound
    (fun p _ hne => absurd (hwait p) hne)
    fun _ _ _ _ _ _ hs h step effect hok hs' => h.step hs hs' step effect hok
  obtain ⟨s, hs, -⟩ := hreach p hblocked hsem
  exact hsound.sems.present _ _ hs

/-- Any call on semaphores. -/
def semAct : Acts Unit
  | _, _, .semAlloc _ | _, _, .semOpen _ | _, _, .semClose _ | _, _, .semWait _
  | _, _, .semSignal _ => some fun _ => ()
  | _, _, _ => none

theorem semAct_program (p : ℕ) (s : Unit) (c : IpcCall) (next : Reply → Unit)
    (h : semAct p s c = some next) : semProgram p s c next := by
  cases c with
  | semSet => cases h
  | pipeCreate => cases h
  | pipeOpen => cases h
  | pipeClose => cases h
  | readTurn => cases h
  | writeTurn => cases h
  | _ => exact ⟨trivial, by cases h; rfl⟩

/-- The condition `ClosesUnwaited`, evaluated before a call. -/
def closesUnwaited (m : Ipc Unit) (e : Option IpcEvent) (_ : Ipc Unit) : Bool :=
  match e with
  | some ⟨_, .semClose id, _⟩ => (semGetById m.kernel id).all fun i =>
      (m.kernel.semaphores i).refcount ≤ 1 → (m.kernel.semaphores i).waitHead = 0
  | _ => true

theorem closesUnwaited_sound (m : Ipc Unit) (e : Option IpcEvent) (m' : Ipc Unit)
    (h : closesUnwaited m e m' = true) : ClosesUnwaited m e m' := by
  rintro p id r i rfl hfound href
  rw [closesUnwaited, hfound, Option.all_some] at h
  exact of_decide_eq_true h href

/-- The theorem at a run: the shell waits for a semaphore with two references, and its child
closes one of them. -/
theorem closing_strands_nobody_shared :
    ∃ start m : Ipc Unit, ∃ t, shellWith [(64, 32768)] = some start.kernel ∧
      IpcRunVia semProgram ClosesUnwaited start t m ∧ m.kernel.state 48 = .blocked ∧
      m.kernel.waitingOnSem 48 = 2 ∧
      ∃ i < maxSemaphores, (m.kernel.semaphores i).used = true ∧ (m.kernel.semaphores i).id = 2 := by
  have hcalc : ((shellWith [(64, 32768)]).bind fun k => (ipcPlay semAct closesUnwaited
      [.call (.semAlloc 0), .call (.semOpen 2), .block (.semWait 2) 64, .call (.semClose 2)]
      ⟨k, fun _ => ()⟩).map fun x =>
        decide (x.2.kernel.state 48 = .blocked ∧ x.2.kernel.waitingOnSem 48 = 2)) = some true := by
    decide +kernel
  obtain ⟨k, hstart, h₁⟩ := Option.bind_eq_some_iff.mp hcalc
  obtain ⟨⟨t, m⟩, hplay, h₂⟩ := Option.map_eq_some_iff.mp h₁
  obtain ⟨hblocked, hsem⟩ := of_decide_eq_true h₂
  obtain ⟨-, -, hquiet, hwait⟩ := shellWith_reachable hstart
  have run := ipcPlay_via semAct_program closesUnwaited_sound hplay
  refine ⟨⟨k, fun _ => ()⟩, m, t, hstart, run, hblocked, hsem, ?_⟩
  have hne : m.kernel.waitingOnSem 48 ≠ 0 := by
    rw [show m.kernel.waitingOnSem 48 = 2 from hsem]
    decide
  have hfound := closing_strands_nobody hquiet hwait run 48 hblocked hne
  rwa [show m.kernel.waitingOnSem 48 = 2 from hsem] at hfound

/-- The shell waits for a semaphore and its child closes it: the shell stays blocked on a
semaphore that is not in use. -/
theorem close_strands_waiting_shell :
    ∃ start m : Ipc Unit, ∃ t, shellWith [(64, 32768)] = some start.kernel ∧
      IpcRun semProgram start t m ∧ m.kernel.state 48 = .blocked ∧ m.kernel.waitingOnSem 48 = 2 ∧
      ¬∃ i < maxSemaphores, (m.kernel.semaphores i).used = true ∧
        (m.kernel.semaphores i).id = m.kernel.waitingOnSem 48 := by
  have hcalc : ((shellWith [(64, 32768)]).bind fun k => (ipcPlay semAct (fun _ _ _ => true)
      [.call (.semAlloc 0), .block (.semWait 2) 64, .call (.semClose 2)] ⟨k, fun _ => ()⟩).map fun x =>
        decide (x.2.kernel.state 48 = .blocked ∧ x.2.kernel.waitingOnSem 48 = 2 ∧
          ∀ i < maxSemaphores, (x.2.kernel.semaphores i).used = true →
            (x.2.kernel.semaphores i).id ≠ 2)) = some true := by
    decide +kernel
  obtain ⟨k, hstart, h₁⟩ := Option.bind_eq_some_iff.mp hcalc
  obtain ⟨⟨t, m⟩, hplay, h₂⟩ := Option.map_eq_some_iff.mp h₁
  obtain ⟨hblocked, hsem, hunused⟩ := of_decide_eq_true h₂
  refine ⟨⟨k, fun _ => ()⟩, m, t, hstart, ipcPlay_run semAct_program hplay, hblocked, hsem, ?_⟩
  rintro ⟨i, hi, hused, hid⟩
  exact hunused i hi hused (hid.trans hsem)

end Steps
end SoKernel
