import SoKernel.Proc.Aging

/-!
# Context switches

The parts of `schedule`: saving the interrupted process, choosing and dispatching the next
one, and destroying finished processes. Waking the waiters of a finished process keeps the
queues in agreement only if none of them is in the queue of blocked processes, since
nothing takes them out of it.
-/

namespace SoKernel

open Function (update)
open LinkedList (Chain)

variable {k : Kernel} {c p : ℕ} {Q : QueueId → List ℕ} {L : List ℕ}

section SetAll

variable {α β : Type*} [DecidableEq α]

/-- Writing one value to all the listed places. -/
def setAll (L : List α) (v : β) (f : α → β) : α → β := fun a => if a ∈ L then v else f a

@[simp] theorem setAll_nil (v : β) (f : α → β) : setAll [] v f = f := by
  funext a
  simp [setAll]

theorem setAll_cons (x : α) (L : List α) (v : β) (f : α → β) :
    setAll (x :: L) v f = setAll L v (update f x v) := by
  funext a
  by_cases ha : a ∈ L
  · simp [setAll, ha]
  · by_cases hx : a = x
    · simp [setAll, hx]
    · simp [setAll, ha, hx]

theorem setAll_of_mem {a : α} {L : List α} (v : β) (f : α → β) (ha : a ∈ L) :
    setAll L v f a = v := if_pos ha

theorem setAll_of_not_mem {a : α} {L : List α} (v : β) (f : α → β) (ha : a ∉ L) :
    setAll L v f a = f a := if_neg ha

end SetAll

section Waiters

/-- The waiters of a process are the listed ones, and none of them is in a queue other than
the ready queue of its priority. -/
structure WaitersAwake (k : Kernel) (p : ℕ) (L : List ℕ) : Prop where
  chain : Chain k.waiterNext 0 (k.waitersHead p) L
  awake : ∀ w ∈ L, w ≠ p ∧ k.allocated w = true ∧ (k.state w = .ready ∨ k.state w = .running)

theorem QueuesAgree.free_of_awake (h : QueuesAgree k c Q)
    (hs : k.state p = .ready ∨ k.state p = .running) (q : QueueId)
    (hq : q ≠ .ready (k.priority p)) : p ∉ Q q :=
  hs.elim (fun hs => h.free_of_ready hs hq) (fun hs => h.free_of_running hs q)

/-- Waking the waiters of a process. -/
theorem wakeWaiters_spec (n : ℕ) (h : QueuesAgree k c Q) (hL : WaitersAwake k p L)
    (hn : L.length < n) :
    ∃ l Q', wakeWaiters p n k = some
        ({ k with
          waitersHead := update k.waitersHead p 0
          waiterNext := setAll L 0 k.waiterNext
          waitingOnPid := setAll L 0 k.waitingOnPid
          state := setAll L .ready k.state }.relink l) ∧
      QueuesAgree
        ({ k with
          waitersHead := update k.waitersHead p 0
          waiterNext := setAll L 0 k.waiterNext
          waitingOnPid := setAll L 0 k.waitingOnPid
          state := setAll L .ready k.state }.relink l) c Q' ∧
      Q' .finished = Q .finished ∧ Q' .blocked = Q .blocked := by
  induction L generalizing k Q n with
  | nil =>
      obtain ⟨n, rfl⟩ := Nat.exists_eq_add_of_lt hn
      have h0 : k.waitersHead p = 0 := hL.chain
      have hupd : update k.waitersHead p 0 = k.waitersHead := by
        rw [← h0, Function.update_eq_self]
      refine ⟨⟨k.queueNext, k.queuePrev, k.queues⟩, Q, ?_, ?_, rfl, rfl⟩
      · simp only [setAll_nil, hupd, wakeWaiters, h0, if_pos]
      · simp only [setAll_nil, hupd]
        exact h
  | cons w L ih =>
      obtain ⟨n, rfl⟩ : ∃ m, n = m + 1 := ⟨n - 1, by omega⟩
      obtain ⟨hhead, hw0, hrest⟩ := hL.chain
      obtain ⟨hwp, hwa, hws⟩ := hL.awake w List.mem_cons_self
      have hnot : w ∉ L := (List.nodup_cons.mp hL.chain.nodup).1
      have hk : QueuesAgree
          { k with
            waitersHead := update k.waitersHead p (k.waiterNext w)
            waiterNext := update k.waiterNext w 0
            waitingOnPid := update k.waitingOnPid w 0 } c Q :=
        ⟨h.rings, h.members, h.valid, h.idle, h.current, h.terminals, h.noPipes⟩
      obtain ⟨l, Q', heq, hagree, hf, hb⟩ := hk.makeReady hwa (h.free_of_awake hws)
      have hL' : WaitersAwake
          ({ k with
            waitersHead := update k.waitersHead p (k.waiterNext w)
            waiterNext := update k.waiterNext w 0
            waitingOnPid := update k.waitingOnPid w 0
            state := update k.state w .ready }.relink l) p L := by
        refine ⟨?_, ?_⟩
        · dsimp only
          rw [Function.update_self]
          refine hrest.congr fun y hy => ?_
          have hyw : y ≠ w := fun e => hnot (e ▸ hy)
          rw [Function.update_of_ne hyw]
        · intro v hv
          have hvw : v ≠ w := fun e => hnot (e ▸ hv)
          dsimp only
          rw [Function.update_of_ne hvw]
          exact hL.awake v (List.mem_cons_of_mem _ hv)
      obtain ⟨l', Q'', heq', hagree', hf', hb'⟩ := ih n hagree hL'
        (by simpa using hn)
      simp only [setAll_cons, Function.update_idem] at heq' hagree' ⊢
      refine ⟨l', Q'', ?_, hagree', hf'.trans hf, hb'.trans hb⟩
      rw [wakeWaiters]
      simp only [hhead, if_neg hw0]
      rw [heq, Option.bind_eq_bind, Option.bind_some]
      exact heq'

end Waiters

section Keyboard

/-- `keyboard_clear_buffer` wakes nobody: it changes the value of one semaphore. -/
theorem keyboardClearBuffer_spec (k : Kernel) :
    ∃ sems, keyboardClearBuffer k = some
        { k with
          keyboard := bufferClear k.keyboard
          semaphores := sems } ∧
      ∀ i, ∃ v, sems i = { k.semaphores i with value := v } := by
  have hsame : ∀ i, ∃ v, k.semaphores i = { k.semaphores i with value := v } := fun i => ⟨_, rfl⟩
  unfold keyboardClearBuffer
  by_cases hid : k.kbdSemId ≠ 0
  · simp only [if_pos hid, semSetById]
    split
    · exact ⟨k.semaphores, rfl, hsame⟩
    · rename_i i _
      refine ⟨update k.semaphores i { k.semaphores i with value := 0 }, ?_, ?_⟩
      · simp [awakenLoop]
      · intro j
        by_cases hj : j = i
        · subst hj
          exact ⟨0, by simp⟩
        · exact ⟨_, by rw [Function.update_of_ne hj]⟩
  · simp only [if_neg hid]
    exact ⟨k.semaphores, rfl, hsame⟩

/-- How `save_context` gives the foreground of a finished process to its parent. -/
theorem leaveForeground_spec (k : Kernel) (p : ℕ) :
    ∃ fg kb sems, (if parentTakesForeground k p then
        keyboardClearBuffer { k with isForeground := update k.isForeground (k.parent p) true }
      else some k) = some
        { k with
          isForeground := fg
          keyboard := kb
          semaphores := sems } ∧
      ∀ i, ∃ v, sems i = { k.semaphores i with value := v } := by
  split
  · obtain ⟨sems, heq, hsems⟩ := keyboardClearBuffer_spec
      { k with isForeground := update k.isForeground (k.parent p) true }
    exact ⟨_, _, sems, heq, hsems⟩
  · exact ⟨k.isForeground, k.keyboard, k.semaphores, rfl, fun _ => ⟨_, rfl⟩⟩

end Keyboard

section Save

/-- The process states after `save_context`, with the waiters of the saved process. -/
def savedState (k : Kernel) (p : ℕ) (L : List ℕ) : ℕ → ProcessState :=
  if k.state p = .running ∧ p ≠ k.idleP then update k.state p .ready
  else setAll L .ready k.state

/-- The queue of finished processes after `save_context`. -/
def savedFinished (k : Kernel) (p : ℕ) (F : List ℕ) : List ℕ :=
  if k.state p = .finished then F.erase p ++ [p] else F

/-- The waiters that `save_context` wakes: those of a finished process. -/
def SaveWakes (k : Kernel) (p : ℕ) (L : List ℕ) : Prop :=
  if k.state p = .finished then WaitersAwake k p L else L = []

theorem of_setAll_ready {f : ℕ → ProcessState} {a : ℕ} (h : setAll L .ready f a = .finished) :
    f a = .finished := by
  by_cases ha : a ∈ L
  · rw [setAll_of_mem _ _ ha] at h
    cases h
  · rwa [setAll_of_not_mem _ _ ha] at h

/-- `save_context` finishes nobody. -/
theorem of_savedState {a : ℕ} (h : savedState k p L a = .finished) : k.state a = .finished := by
  unfold savedState at h
  split at h
  · by_cases ha : a = p
    · rw [ha, Function.update_self] at h
      cases h
    · rwa [Function.update_of_ne ha] at h
  · exact of_setAll_ready h

theorem SaveWakes.congr {k' : Kernel} (hL : SaveWakes k p L) (hs : k'.state = k.state)
    (ha : k'.allocated = k.allocated) (hh : k'.waitersHead = k.waitersHead)
    (hn : k'.waiterNext = k.waiterNext) : SaveWakes k' p L := by
  unfold SaveWakes at hL ⊢
  rw [hs]
  by_cases hf : k.state p = .finished
  · rw [if_pos hf] at hL ⊢
    refine ⟨?_, ?_⟩
    · rw [hh, hn]
      exact hL.chain
    · rw [hs, ha]
      exact hL.awake
  · rwa [if_neg hf] at hL ⊢

theorem savedState_of_ne {a : ℕ} (ha : a ≠ p) (hL : a ∉ L) : savedState k p L a = k.state a := by
  unfold savedState
  split
  · rw [Function.update_of_ne ha]
  · rw [setAll_of_not_mem _ _ hL]

theorem WaitersAwake.length_lt (hL : WaitersAwake k p L) (h : QueuesAgree k c Q) :
    L.length < addressCount :=
  LinkedRing.length_lt_of_nodup hL.chain.nodup (fun h0 => hL.chain.ne_null h0 rfl)
    (fun w hw => (h.valid w (hL.awake w hw).2.1).2) addressCount_pos

/-- The state after `save_context`, up to the links of the queues. -/
abbrev savedKernel (k : Kernel) (frame : Frame) (L : List ℕ) (fg : ℕ → Bool) (kb : CircleBuffer)
    (sems : ℕ → Semaphore) : Kernel :=
  { k with
    rsp := update k.rsp k.current frame.rsp
    rbp := update k.rbp k.current (frame.word 10)
    isForeground := fg
    keyboard := kb
    semaphores := sems
    waitersHead := if k.state k.current = .finished then update k.waitersHead k.current 0
      else k.waitersHead
    waiterNext := setAll L 0 k.waiterNext
    waitingOnPid := setAll L 0 k.waitingOnPid
    state := savedState k k.current L }

/-- `save_context` files the interrupted process under its state. -/
def SavesContext (k : Kernel) (frame : Frame) (L : List ℕ) (Q : QueueId → List ℕ) : Prop :=
  ∃ l fg kb sems Q',
    saveContext k k.current frame = some ((savedKernel k frame L fg kb sems).relink l) ∧
    QueuesAgree ((savedKernel k frame L fg kb sems).relink l) 0 Q' ∧
    (∀ i, ∃ v, sems i = { k.semaphores i with value := v }) ∧
    Q' .finished = savedFinished k k.current (Q .finished)

theorem semaphores_same (k : Kernel) (i : ℕ) :
    ∃ v, k.semaphores i = { k.semaphores i with value := v } := ⟨_, rfl⟩

theorem QueuesAgree.withFrame (h : QueuesAgree k c Q) (rsp rbp : ℕ → ℕ) :
    QueuesAgree
      { k with
        rsp := rsp
        rbp := rbp } c Q :=
  ⟨h.rings, h.members, h.valid, h.idle, h.current, h.terminals, h.noPipes⟩

/-- A process that is not running, or the idle process, stays where it is. -/
theorem saveContext_stay {frame : Frame} (h : QueuesAgree k k.current Q)
    (hb : k.state k.current ≠ .blocked) (hf : k.state k.current ≠ .finished)
    (hr : ¬(k.state k.current = .running ∧ k.current ≠ k.idleP))
    (heq : saveContext k k.current frame = some
      { k with
        rsp := update k.rsp k.current frame.rsp
        rbp := update k.rbp k.current (frame.word 10) }) : SavesContext k frame [] Q := by
  refine ⟨⟨k.queueNext, k.queuePrev, k.queues⟩, k.isForeground, k.keyboard, k.semaphores, Q, ?_, ?_,
    semaphores_same k, ?_⟩
  · simp only [savedKernel, savedState, if_neg hr, if_neg hf, setAll_nil]
    exact heq
  · simp only [savedKernel, savedState, if_neg hr, if_neg hf, setAll_nil]
    exact (h.withFrame _ _).forget hb
  · rw [savedFinished, if_neg hf]

theorem saveContext_running {frame : Frame} (h : QueuesAgree k k.current Q) (hc : k.current ≠ 0)
    (hr : k.state k.current = .running) : SavesContext k frame [] Q := by
  have hf : k.state k.current ≠ .finished := by simp [hr]
  by_cases hidle : k.current = k.idleP
  · refine saveContext_stay h (by simp [hr]) hf (fun he => he.2 hidle) ?_
    simp only [saveContext, if_neg hc, hr]
    rw [if_neg (not_not.mpr hidle)]
  · have hcond : k.state k.current = .running ∧ k.current ≠ k.idleP := ⟨hr, hidle⟩
    obtain ⟨l, Q', heq, hagree, hfin, -⟩ :=
      (h.withFrame (update k.rsp k.current frame.rsp)
        (update k.rbp k.current (frame.word 10))).makeReady (h.current hc).1
        (fun q _ => h.free_of_running hr q)
    refine ⟨l, k.isForeground, k.keyboard, k.semaphores, Q', ?_, ?_, semaphores_same k, ?_⟩
    · simp only [savedKernel, savedState, if_pos hcond, if_neg hf, setAll_nil]
      simp only [saveContext, if_neg hc, hr, ne_eq, hidle, not_false_eq_true, if_true]
      exact heq
    · simp only [savedKernel, savedState, if_pos hcond, if_neg hf, setAll_nil]
      exact hagree.forget (by simp)
    · rw [savedFinished, if_neg hf, hfin]

theorem saveContext_blocked {frame : Frame} (h : QueuesAgree k k.current Q) (hc : k.current ≠ 0)
    (hb : k.state k.current = .blocked) : SavesContext k frame [] Q := by
  have hf : k.state k.current ≠ .finished := by simp [hb]
  have hr : ¬(k.state k.current = .running ∧ k.current ≠ k.idleP) := by simp [hb]
  have hv := h.valid _ (h.current hc).1
  have hfree : ∀ q, q ≠ .blocked → k.current ∉ Q q := fun q hq => h.free_of_blocked hb hq
  obtain ⟨nx, pv, qs, heq, hrings⟩ := processQueuePush_spec
    (h.withFrame (update k.rsp k.current frame.rsp)
      (update k.rbp k.current (frame.word 10))).rings hv.1 hv.2 hfree
  refine ⟨⟨nx, pv, qs⟩, k.isForeground, k.keyboard, k.semaphores,
    update Q .blocked ((Q .blocked).erase k.current ++ [k.current]), ?_, ?_, semaphores_same k, ?_⟩
  · simp only [savedKernel, savedState, if_neg hr, if_neg hf, setAll_nil]
    simp only [saveContext, if_neg hc, hb]
    exact heq
  · simp only [savedKernel, savedState, if_neg hr, if_neg hf, setAll_nil]
    refine ⟨hrings, h.members_except.put hfree ?_ ?_ ?_, h.valid, h.idle, h.current, h.terminals,
      h.noPipes⟩
    · simp [hb]
    · simp [hb, hv.1, (h.current hc).1]
    · intro he
      cases he
  · rw [savedFinished, if_neg hf]
    simp

theorem saveContext_finished {frame : Frame} (h : QueuesAgree k k.current Q) (hc : k.current ≠ 0)
    (hf : k.state k.current = .finished) (hL : WaitersAwake k k.current L) :
    SavesContext k frame L Q := by
  have hr : ¬(k.state k.current = .running ∧ k.current ≠ k.idleP) := by simp [hf]
  have hv := h.valid _ (h.current hc).1
  have hnot : k.current ∉ L := fun hm => (hL.awake _ hm).1 rfl
  obtain ⟨fg, kb, sems, hclear, hsems⟩ := leaveForeground_spec
    { k with
      rsp := update k.rsp k.current frame.rsp
      rbp := update k.rbp k.current (frame.word 10) } k.current
  have hk : QueuesAgree
      { k with
        rsp := update k.rsp k.current frame.rsp
        rbp := update k.rbp k.current (frame.word 10)
        isForeground := fg
        keyboard := kb
        semaphores := sems } 0 Q := by
    have h0 := h.forget (by simp [hf])
    exact ⟨h0.rings, h0.members, h0.valid, h0.idle, h0.current, h0.terminals, h0.noPipes⟩
  obtain ⟨l, Q', hwake, hagree, hfin, -⟩ := wakeWaiters_spec addressCount hk ⟨hL.chain, hL.awake⟩
    (hL.length_lt h)
  have hstate : setAll L .ready k.state k.current = .finished := by
    rw [setAll_of_not_mem _ _ hnot, hf]
  have hfree : ∀ q, q ≠ .finished → k.current ∉ Q' q := fun q hq =>
    hagree.free_of_finished hstate hq
  obtain ⟨nx, pv, qs, hpush, hrings⟩ := processQueuePush_spec hagree.rings hv.1 hv.2 hfree
  refine ⟨⟨nx, pv, qs⟩, fg, kb, sems,
    update Q' .finished ((Q' .finished).erase k.current ++ [k.current]), ?_, ?_, hsems, ?_⟩
  · simp only [savedKernel, savedState, if_neg hr, if_pos hf]
    simp only [saveContext, if_neg hc, hf, hclear, Option.bind_eq_bind, Option.bind_some]
    rw [hwake, Option.bind_some]
    exact hpush
  · simp only [savedKernel, savedState, if_neg hr, if_pos hf]
    refine ⟨hrings, (hagree.members.exempt k.current).put hfree ?_ ?_ ?_, hagree.valid, hagree.idle,
      hagree.current, hagree.terminals, hagree.noPipes⟩
    · simp [hstate]
    · simp [hstate]
    · exact fun _ => ⟨(h.current hc).1, hstate⟩
  · rw [savedFinished, if_pos hf, Function.update_self, hfin]

theorem saveContext_spec (frame : Frame) (h : QueuesAgree k k.current Q) (hc : k.current ≠ 0)
    (hL : SaveWakes k k.current L) : SavesContext k frame L Q := by
  unfold SaveWakes at hL
  cases hs : k.state k.current with
  | finished =>
      rw [if_pos hs] at hL
      exact saveContext_finished h hc hs hL
  | running =>
      obtain rfl : L = [] := by simpa [hs] using hL
      exact saveContext_running h hc hs
  | blocked =>
      obtain rfl : L = [] := by simpa [hs] using hL
      exact saveContext_blocked h hc hs
  | new =>
      obtain rfl : L = [] := by simpa [hs] using hL
      exact saveContext_stay h (by simp [hs]) (by simp [hs]) (by simp [hs])
        (by simp [saveContext, hc, hs])
  | ready =>
      obtain rfl : L = [] := by simpa [hs] using hL
      exact saveContext_stay h (by simp [hs]) (by simp [hs]) (by simp [hs])
        (by simp [saveContext, hc, hs])

end Save
end SoKernel
