import SoKernel.Ipc.PipeCalls
import SoKernel.Lib.WakeUps

/-!
# Blocking on a pipe misses neither data nor space

A reader blocks only on an empty pipe and every byte that is written wakes one of the blocked
readers; a writer blocks only on a full pipe and every byte that is read wakes one of the
blocked writers. So, while somebody is blocked, there is a woken process for every byte (for
every free place).
-/

namespace SoKernel

open Function (update)
open LinkedList (Queue)

section Sleepers

/-- The last call of a process. -/
def lastEvent (t : List IpcEvent) (p : ℕ) : Option IpcEvent :=
  (t.filter fun e => e.caller = p).getLast?

theorem lastEvent_append (t : List IpcEvent) (e : IpcEvent) (p : ℕ) :
    lastEvent (t ++ [e]) p = if e.caller = p then some e else lastEvent t p := by
  rw [lastEvent, List.filter_append]
  split
  · rename_i h
    rw [List.filter_singleton, decide_eq_true h, cond_true, List.getLast?_concat]
  · rename_i h
    rw [List.filter_singleton, decide_eq_false h, cond_false, List.append_nil, lastEvent]

def IsRead (i : ℕ) (c : IpcCall) : Prop := ∃ n, c = .readTurn i n

def IsWrite (i : ℕ) (c : IpcCall) : Prop := ∃ b, c = .writeTurn i b

/-- The last call of the process was a turn of the kind that blocked. -/
def Sleeps (turn : IpcCall → Prop) (t : List IpcEvent) (p : ℕ) : Prop :=
  ∃ c, turn c ∧ lastEvent t p = some ⟨p, c, .blocked⟩

/-- The processes that were released from the queue and have not made their next turn. -/
def woken (turn : IpcCall → Prop) (t : List IpcEvent) (L : List ℕ) : Set ℕ :=
  {p | Sleeps turn t p ∧ p ∉ L}

variable {turn : IpcCall → Prop} {t : List IpcEvent} {p q : ℕ} {c : IpcCall} {r : Reply}
  {L L' : List ℕ}

theorem sleeps_other (h : p ≠ q) : Sleeps turn (t ++ [⟨q, c, r⟩]) p ↔ Sleeps turn t p := by
  rw [Sleeps, lastEvent_append, if_neg h.symm]
  rfl

theorem sleeps_self : Sleeps turn (t ++ [⟨q, c, r⟩]) q ↔ turn c ∧ r = .blocked := by
  rw [Sleeps, lastEvent_append, if_pos rfl]
  constructor
  · rintro ⟨c', hturn, he⟩
    obtain ⟨-, rfl, rfl⟩ := IpcEvent.mk.inj (Option.some_inj.mp he)
    exact ⟨hturn, rfl⟩
  · rintro ⟨hturn, rfl⟩
    exact ⟨c, hturn, rfl⟩

/-- A process that sleeps after a step has blocked in it, or slept before. -/
theorem Sleeps.cases {e : Option IpcEvent} (h : Sleeps turn (t ++ e.toList) p) :
    (∃ c, turn c ∧ e = some ⟨p, c, .blocked⟩) ∨ Sleeps turn t p := by
  cases e with
  | none =>
      rw [Option.toList_none, List.append_nil] at h
      exact Or.inr h
  | some e =>
      obtain ⟨q, c, r⟩ := e
      by_cases hpq : p = q
      · subst hpq
        obtain ⟨hc, rfl⟩ := sleeps_self.mp h
        exact Or.inl ⟨c, hc, rfl⟩
      · exact Or.inr ((sleeps_other hpq).mp h)

/-- A call takes its caller out of the woken processes, and nobody else. -/
theorem woken_subset_insert (hL : ∀ p ∈ L', p ∈ L ∨ p = q) :
    woken turn t L ⊆ insert q (woken turn (t ++ [⟨q, c, r⟩]) L') := by
  rintro p ⟨hp, hnot⟩
  by_cases hpq : p = q
  · exact Or.inl hpq
  · refine Or.inr ⟨(sleeps_other hpq).mpr hp, fun hm => ?_⟩
    rcases hL p hm with hm | hm
    · exact hnot hm
    · exact hpq hm

/-- The call of a process that was not asleep. -/
theorem woken_subset (hq : ¬Sleeps turn t q) (hL : ∀ p ∈ L', p ∈ L ∨ p = q) :
    woken turn t L ⊆ woken turn (t ++ [⟨q, c, r⟩]) L' := by
  intro p hp
  rcases woken_subset_insert hL hp with rfl | hp'
  · exact absurd hp.1 hq
  · exact hp'

/-- The processes of a queue after a call. -/
theorem sleeps_queue (h : ∀ p ∈ L, Sleeps turn t p) (hq : q ∉ L) (hL : ∀ p ∈ L', p ∈ L) :
    ∀ p ∈ L', Sleeps turn (t ++ [⟨q, c, r⟩]) p := by
  intro p hp
  have hpq : p ≠ q := fun he => hq (he ▸ hL p hp)
  exact (sleeps_other hpq).mpr (h p (hL p hp))

end Sleepers

section Sides

/-- The readers of a pipe wait for its bytes. -/
def readSide (i : ℕ) (t : List IpcEvent) (v : PipeView) : WaitPoint ℕ :=
  ⟨v.pipe.count, v.items.queue, woken (IsRead i) t v.items.queue⟩

/-- The writers of a pipe wait for free places in its buffer. -/
def writeSide (i : ℕ) (t : List IpcEvent) (v : PipeView) : WaitPoint ℕ :=
  ⟨pipeBufferSize - v.pipe.count, v.spaces.queue, woken (IsWrite i) t v.spaces.queue⟩

/-- The processes in the two queues of a pipe are asleep in their turns. -/
structure Sleepers (i : ℕ) (t : List IpcEvent) (v : PipeView) : Prop where
  items : ∀ p ∈ v.items.queue, Sleeps (IsRead i) t p
  spaces : ∀ p ∈ v.spaces.queue, Sleeps (IsWrite i) t p
  itemsNodup : v.items.queue.Nodup
  spacesNodup : v.spaces.queue.Nodup
  count_le : v.pipe.count ≤ pipeBufferSize

/-- A process that was asleep in a turn makes this turn again. -/
structure Resumes (i : ℕ) (t : List IpcEvent) (q : ℕ) (c : IpcCall) : Prop where
  read : Sleeps (IsRead i) t q → IsRead i c
  write : Sleeps (IsWrite i) t q → IsWrite i c

variable {i q : ℕ} {t : List IpcEvent} {v v' : PipeView} {c : IpcCall} {r : Reply}

theorem Pipe.closed_count (p : Pipe) (isWriter : Bool) : (p.closed isWriter).count = p.count := by
  unfold Pipe.closed
  cases isWriter
  · simp only [Bool.false_eq_true, if_false]
    split <;> rfl
  · simp only [if_true]
    split <;> rfl

theorem queue_signal (s : CountingSemaphore ℕ) : s.signal.queue = s.queue.tail := by
  cases hq : s.queue with
  | nil => rw [CountingSemaphore.signal_of_nil hq]; rfl
  | cons w q => rw [CountingSemaphore.signal_of_cons hq]; rfl

/-- The process that a signal releases is woken. -/
theorem signal_wakes {turn : IpcCall → Prop} {s : CountingSemaphore ℕ} (hnodup : s.queue.Nodup)
    (hsleep : ∀ p ∈ s.queue, Sleeps turn t p) (hq : ¬Sleeps turn t q) (p : ℕ)
    (hp : s.queue.head? = some p) :
    p ∉ woken turn t s.queue ∧ p ∈ woken turn (t ++ [⟨q, c, r⟩]) s.signal.queue := by
  obtain ⟨L, hL⟩ := List.head?_eq_some_iff.mp hp
  have hmem : p ∈ s.queue := hL ▸ List.mem_cons_self
  have hpq : p ≠ q := by
    rintro rfl
    exact hq (hsleep p hmem)
  refine ⟨fun hw => hw.2 hmem, (sleeps_other hpq).mpr (hsleep p hmem), ?_⟩
  rw [queue_signal, hL, List.tail_cons]
  rw [hL] at hnodup
  exact (List.nodup_cons.mp hnodup).1

theorem mem_of_mem_tail {s : CountingSemaphore ℕ} : ∀ p ∈ s.signal.queue, p ∈ s.queue ∨ p = q :=
  fun _ hp => Or.inl (CountingSemaphore.mem_of_mem_signal hp)

/-- While readers are blocked, every byte has a reader on its way. -/
theorem PipeStep.readSide (step : PipeStep i v q c r v') (hsleep : Sleepers i t v)
    (hresume : Resumes i t q c) (h : (readSide i t v).NoLostWakeUp) :
    (SoKernel.readSide i (t ++ [⟨q, c, r⟩]) v').NoLostWakeUp := by
  have hother : (∀ n, c ≠ .readTurn i n) → ¬Sleeps (IsRead i) t q := by
    intro hne hs
    obtain ⟨n, hn⟩ := hresume.read hs
    exact hne n hn
  have hsame : (∀ n, c ≠ .readTurn i n) → ∀ w : PipeView, w.pipe.count = v.pipe.count →
      w.items.queue = v.items.queue → (SoKernel.readSide i (t ++ [⟨q, c, r⟩]) w).NoLostWakeUp := by
    intro hne w hcount hqueue
    refine h.wake hcount (fun hne' he => hne' (hqueue.trans he)) (woken_subset (hother hne) fun p hp => Or.inl ?_)
    exact hqueue ▸ hp
  cases step with
  | other noRead => exact hsame noRead v rfl rfl
  | @opened id isWriter =>
      refine hsame (fun _ he => by cases he) _ ?_ rfl
      cases isWriter <;> rfl
  | @closed isWriter =>
      refine h.wake (v.pipe.closed_count isWriter) (fun hne he => hne ?_)
        (woken_subset (hother fun _ he => by cases he) fun p hp => Or.inl ?_)
      · simp only [SoKernel.readSide] at he ⊢
        rw [CountingSemaphore.signal_iterate_queue, he, List.drop_nil]
      · rw [CountingSemaphore.signal_iterate_queue] at hp
        exact List.mem_of_mem_drop hp
  | readEnded empty => exact .of_none empty
  | readMoved pos =>
      refine h.consume (p := q) ?_ (fun hne => hne) (woken_subset_insert fun p hp => Or.inl hp)
      exact (Nat.sub_add_cancel pos).symm
  | readAgain empty => exact .of_none empty
  | readBlocked empty => exact .of_none empty
  | writeEnded => exact hsame (fun _ he => by cases he) v rfl rfl
  | writeMoved =>
      have hq : ¬Sleeps (IsRead i) t q := hother fun _ he => by cases he
      exact h.produce rfl (queue_signal _) (signal_wakes hsleep.itemsNodup hsleep.items hq)
        (woken_subset hq mem_of_mem_tail)
  | writeAgain => exact hsame (fun _ he => by cases he) _ rfl rfl
  | writeBlocked => exact hsame (fun _ he => by cases he) _ rfl rfl

/-- While writers are blocked and a reading end is open, every free place has a writer on its
way. -/
theorem PipeStep.writeSide (step : PipeStep i v q c r v') (hsleep : Sleepers i t v)
    (hresume : Resumes i t q c) (hreaders : v.pipe.readers ≠ 0) (h : (writeSide i t v).NoLostWakeUp) :
    (SoKernel.writeSide i (t ++ [⟨q, c, r⟩]) v').NoLostWakeUp := by
  have hother : (∀ b, c ≠ .writeTurn i b) → ¬Sleeps (IsWrite i) t q := by
    intro hne hs
    obtain ⟨b, hb⟩ := hresume.write hs
    exact hne b hb
  have hsame : (∀ b, c ≠ .writeTurn i b) → ∀ w : PipeView, w.pipe.count = v.pipe.count →
      w.spaces.queue = v.spaces.queue →
      (SoKernel.writeSide i (t ++ [⟨q, c, r⟩]) w).NoLostWakeUp := by
    intro hne w hcount hqueue
    refine h.wake ?_ (fun hne' he => hne' (hqueue.trans he)) (woken_subset (hother hne) fun p hp => Or.inl ?_)
    · simp only [SoKernel.writeSide]
      rw [hcount]
    · exact hqueue ▸ hp
  have hfull : ¬v.pipe.count < pipeBufferSize → pipeBufferSize - v.pipe.count = 0 :=
    fun h => Nat.sub_eq_zero_of_le (Nat.le_of_not_lt h)
  cases step with
  | other _ noWrite => exact hsame noWrite v rfl rfl
  | @opened id isWriter =>
      refine hsame (fun _ he => by cases he) _ ?_ rfl
      cases isWriter <;> rfl
  | @closed isWriter => exact hsame (fun _ he => by cases he) _ (v.pipe.closed_count isWriter) rfl
  | readEnded => exact hsame (fun _ he => by cases he) v rfl rfl
  | readMoved pos =>
      have hq : ¬Sleeps (IsWrite i) t q := hother fun _ he => by cases he
      refine h.produce ?_ (queue_signal _) (signal_wakes hsleep.spacesNodup hsleep.spaces hq)
        (woken_subset hq mem_of_mem_tail)
      have hle := hsleep.count_le
      simp only [SoKernel.writeSide, Pipe.shift]
      omega
  | readAgain => exact hsame (fun _ he => by cases he) _ rfl rfl
  | readBlocked => exact hsame (fun _ he => by cases he) _ rfl rfl
  | writeEnded why => exact absurd why hreaders
  | writeMoved _ room =>
      refine h.consume (p := q) ?_ (fun hne => hne) (woken_subset_insert fun p hp => Or.inl hp)
      simp only [SoKernel.writeSide, Pipe.push]
      omega
  | writeAgain full => exact .of_none (hfull full)
  | writeBlocked full => exact .of_none (hfull full)

/-- The queues hold sleeping processes after a call. -/
theorem PipeStep.sleeps (step : PipeStep i v q c r v') (h : Sleepers i t v)
    (hitems : q ∉ v.items.queue) (hspaces : q ∉ v.spaces.queue) :
    (∀ p ∈ v'.items.queue, Sleeps (IsRead i) (t ++ [⟨q, c, r⟩]) p) ∧
      (∀ p ∈ v'.spaces.queue, Sleeps (IsWrite i) (t ++ [⟨q, c, r⟩]) p) ∧
      v'.pipe.count ≤ pipeBufferSize := by
  have hkept : ∀ w : PipeView, (∀ p ∈ w.items.queue, p ∈ v.items.queue) →
      (∀ p ∈ w.spaces.queue, p ∈ v.spaces.queue) → w.pipe.count ≤ pipeBufferSize →
      (∀ p ∈ w.items.queue, Sleeps (IsRead i) (t ++ [⟨q, c, r⟩]) p) ∧
        (∀ p ∈ w.spaces.queue, Sleeps (IsWrite i) (t ++ [⟨q, c, r⟩]) p) ∧
        w.pipe.count ≤ pipeBufferSize :=
    fun w hi hs hc => ⟨sleeps_queue h.items hitems hi, sleeps_queue h.spaces hspaces hs, hc⟩
  have hself : ∀ p, p ∈ v.items.queue → p ∈ v.items.queue := fun _ hp => hp
  have hself' : ∀ p, p ∈ v.spaces.queue → p ∈ v.spaces.queue := fun _ hp => hp
  cases step with
  | other => exact hkept v hself hself' h.count_le
  | @opened id isWriter =>
      refine hkept _ hself hself' ?_
      cases isWriter <;> exact h.count_le
  | @closed isWriter =>
      refine hkept _ (fun p hp => ?_) hself' ((v.pipe.closed_count isWriter).le.trans h.count_le)
      rw [CountingSemaphore.signal_iterate_queue] at hp
      exact List.mem_of_mem_drop hp
  | readEnded => exact hkept v hself hself' h.count_le
  | readMoved =>
      exact hkept _ hself (fun _ hp => CountingSemaphore.mem_of_mem_signal hp)
        ((Nat.sub_le _ _).trans h.count_le)
  | readAgain => exact hkept _ hself hself' h.count_le
  | readBlocked =>
      obtain ⟨-, hs, hc⟩ := hkept v hself hself' h.count_le
      refine ⟨fun p hp => ?_, hs, hc⟩
      rcases List.mem_append.mp hp with hp | hp
      · exact sleeps_queue h.items hitems hself p hp
      · rw [List.mem_singleton.mp hp]
        exact sleeps_self.mpr ⟨⟨_, rfl⟩, rfl⟩
  | writeEnded => exact hkept v hself hself' h.count_le
  | writeMoved _ room =>
      exact hkept _ (fun _ hp => CountingSemaphore.mem_of_mem_signal hp) hself' room
  | writeAgain => exact hkept _ hself hself' h.count_le
  | writeBlocked =>
      obtain ⟨hi, -, hc⟩ := hkept v hself hself' h.count_le
      refine ⟨hi, fun p hp => ?_, hc⟩
      rcases List.mem_append.mp hp with hp | hp
      · exact sleeps_queue h.spaces hspaces hself' p hp
      · rw [List.mem_singleton.mp hp]
        exact sleeps_self.mpr ⟨⟨_, rfl⟩, rfl⟩

end Sides

section Runs

variable {m m' : Ipc PipeJob} {V V' : Sems} {e : Option IpcEvent} {t : List IpcEvent} {i id : ℕ}

/-- A process that was blocked in a turn is still in its call. -/
structure Dormant (i : ℕ) (t : List IpcEvent) (m : Ipc PipeJob) : Prop where
  read : ∀ p, Sleeps (IsRead i) t p → ∃ count n bytes, m.thread p = .reading i count n bytes true
  write : ∀ p, Sleeps (IsWrite i) t p → ∃ buffer n bytes, m.thread p = .writing i buffer n bytes true

theorem Dormant.nil : Dormant i [] m := by
  refine ⟨?_, ?_⟩
  · rintro p ⟨c, -, he⟩
    cases he
  · rintro p ⟨c, -, he⟩
    cases he

/-- A process in a call makes the turns of this call. -/
theorem Dormant.resumes {p : ℕ} {c : IpcCall} {next : Reply → PipeJob} (h : Dormant i t m)
    (acts : pipeProgram p (m.thread p) c next) : Resumes i t p c := by
  obtain ⟨j, henters, hacts⟩ := acts
  refine ⟨fun hs => ?_, fun hs => ?_⟩
  · obtain ⟨count, n, bytes, hjob⟩ := h.read p hs
    rw [hjob] at henters
    cases henters
    exact ⟨_, hacts.1⟩
  · obtain ⟨buffer, n, bytes, hjob⟩ := h.write p hs
    rw [hjob] at henters
    cases henters
    obtain ⟨b, -, hc, -⟩ := hacts
    exact ⟨b, hc⟩

/-- A turn that blocks leaves its caller asleep. -/
theorem jobActs_blocked {j : PipeJob} {c : IpcCall} {next : Reply → PipeJob}
    (acts : jobActs j c next) :
    (IsRead i c → ∃ count n bytes, next .blocked = .reading i count n bytes true) ∧
      (IsWrite i c → ∃ buffer n bytes, next .blocked = .writing i buffer n bytes true) := by
  cases j with
  | idle result bytes =>
      refine ⟨?_, ?_⟩
      · rintro ⟨n, rfl⟩
        exact acts.1.elim
      · rintro ⟨b, rfl⟩
        exact acts.1.elim
  | reading i' count n bytes asleep =>
      obtain ⟨rfl, rfl⟩ := acts
      refine ⟨?_, ?_⟩
      · rintro ⟨n', he⟩
        obtain ⟨rfl, -⟩ := IpcCall.readTurn.inj he
        exact ⟨count, n, bytes, rfl⟩
      · rintro ⟨b, he⟩
        cases he
  | writing i' buffer n bytes asleep =>
      obtain ⟨b, -, rfl, rfl⟩ := acts
      refine ⟨?_, ?_⟩
      · rintro ⟨n', he⟩
        cases he
      · rintro ⟨b', he⟩
        obtain ⟨rfl, -⟩ := IpcCall.writeTurn.inj he
        exact ⟨buffer, n, bytes, rfl⟩

theorem StepEffect.dormant (effect : StepEffect pipeProgram m V m' V' e) (h : Dormant i t m) :
    Dormant i (t ++ e.toList) m' := by
  have hcall : ∀ c next r, pipeProgram m.kernel.current (m.thread m.kernel.current) c next →
      m'.thread = update m.thread m.kernel.current (next r) →
      Dormant i (t ++ [⟨m.kernel.current, c, r⟩]) m' := by
    rintro c next r ⟨j, -, hacts⟩ hthread
    refine ⟨fun p hp => ?_, fun p hp => ?_⟩
    · by_cases hpc : p = m.kernel.current
      · rw [hpc, sleeps_self] at hp
        obtain ⟨hturn, rfl⟩ := hp
        rw [hthread, hpc, Function.update_self]
        exact (jobActs_blocked hacts).1 hturn
      · rw [hthread, Function.update_of_ne hpc]
        exact h.read p ((sleeps_other hpc).mp hp)
    · by_cases hpc : p = m.kernel.current
      · rw [hpc, sleeps_self] at hp
        obtain ⟨hturn, rfl⟩ := hp
        rw [hthread, hpc, Function.update_self]
        exact (jobActs_blocked hacts).2 hturn
      · rw [hthread, Function.update_of_ne hpc]
        exact h.write p ((sleeps_other hpc).mp hp)
  cases effect with
  | call next _ acts _ _ _ thread => exact hcall _ next _ acts thread
  | block next _ _ _ acts _ _ _ _ _ _ _ _ thread => exact hcall _ next _ acts thread
  | switch _ _ thread =>
      rw [Option.toList_none, List.append_nil]
      exact ⟨fun p hp => thread ▸ h.read p hp, fun p hp => thread ▸ h.write p hp⟩

/-- The call of a step resumes what its caller was doing. -/
theorem StepEffect.resumes {q : ℕ} {c : IpcCall} {r : Reply}
    (effect : StepEffect pipeProgram m V m' V' (some ⟨q, c, r⟩)) (h : Dormant i t m) :
    q = m.kernel.current ∧ Resumes i t q c := by
  cases effect with
  | call next _ acts => exact ⟨rfl, h.resumes acts⟩
  | block next _ _ _ acts => exact ⟨rfl, h.resumes acts⟩

/-- The pipe with the given identifier, as long as it is in the entry of the table. -/
structure Watched (i id : ℕ) (t : List IpcEvent) (m : Ipc PipeJob) (V : Sems) : Prop where
  old : id < m.kernel.nextPipeId
  dormant : Dormant i t m
  sleepers : ∀ v, Shows m.kernel V i v → v.pipe.id = id → Sleepers i t v
  readers : ∀ v, Shows m.kernel V i v → v.pipe.id = id → (readSide i t v).NoLostWakeUp

theorem Watched.step (h : Watched i id t m V) (hsound : Sound m.kernel V)
    (hsound' : Sound m'.kernel V') (hi : i < maxPipes)
    (effect : StepEffect pipeProgram m V m' V' e) : Watched i id (t ++ e.toList) m' V' := by
  refine ⟨h.old.trans_le effect.nextPipeId_le, effect.dormant h.dormant, fun v' hv' hid => ?_,
    fun v' hv' hid => ?_⟩
  · obtain ⟨v, hv, hsame, hmove⟩ := effect.view_before hsound hi hv' (hid ▸ h.old)
    have hsleep := h.sleepers v hv (hsame.trans hid)
    cases hmove with
    | call step =>
        obtain ⟨hitems, hspaces, hcount⟩ := step.sleeps hsleep (hsound.away _ _ hv.items)
          (hsound.away _ _ hv.spaces)
        exact ⟨hitems, hspaces, hsound'.sems.nodup hv'.items, hsound'.sems.nodup hv'.spaces, hcount⟩
    | switch same =>
        rw [same, Option.toList_none, List.append_nil]
        exact hsleep
  · obtain ⟨v, hv, hsame, hmove⟩ := effect.view_before hsound hi hv' (hid ▸ h.old)
    have hlive := h.readers v hv (hsame.trans hid)
    cases hmove with
    | call step =>
        exact step.readSide (h.sleepers v hv (hsame.trans hid)) (effect.resumes h.dormant).2 hlive
    | switch same =>
        rw [same, Option.toList_none, List.append_nil]
        exact hlive

/-- The writers of the pipe, as long as a reading end is open. -/
structure Served (i id : ℕ) (t : List IpcEvent) (m : Ipc PipeJob) (V : Sems) : Prop extends
    Watched i id t m V where
  open_ : ∀ v, Shows m.kernel V i v → v.pipe.id = id → v.pipe.readers ≠ 0
  writers : ∀ v, Shows m.kernel V i v → v.pipe.id = id → (writeSide i t v).NoLostWakeUp

theorem Served.step (h : Served i id t m V) (hsound : Sound m.kernel V)
    (hsound' : Sound m'.kernel V') (hi : i < maxPipes)
    (effect : StepEffect pipeProgram m V m' V' e) (hopen : 0 < (m'.kernel.pipes i).readers) :
    Served i id (t ++ e.toList) m' V' := by
  refine ⟨h.toWatched.step hsound hsound' hi effect, fun v' hv' _ => ?_, fun v' hv' hid => ?_⟩
  · rw [← hv'.pipe]
    exact hopen.ne'
  · obtain ⟨v, hv, hsame, hmove⟩ := effect.view_before hsound hi hv' (hid ▸ h.old)
    have hid' := hsame.trans hid
    cases hmove with
    | call step =>
        exact step.writeSide (h.sleepers v hv hid') (effect.resumes h.dormant).2 (h.open_ v hv hid')
          (h.writers v hv hid')
    | switch same =>
        rw [same, Option.toList_none, List.append_nil]
        exact h.writers v hv hid'

end Runs
end SoKernel
