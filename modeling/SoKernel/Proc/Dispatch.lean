import SoKernel.Proc.Boot
import SoKernel.Proc.QueueInvariant

/-!
# What a call of schedule does to the queues

`schedule` files the interrupted process under its state, takes the first process of the
highest ready queue and collects finished processes. The queues after the call are given as
lists, for any open pipes: only finished processes, whose descriptors are closed, are destroyed.
-/

namespace SoKernel

open Function (update)

variable {k k' : Kernel} {c p next : ℕ} {Q Q' : QueueId → List ℕ} {L : List ℕ}

section Model

/-- The value that `schedule` returns: its argument, or after a switch the saved stack pointer
of the process that runs on. -/
def Outcome.returnedRsp (o : Outcome) : ℕ := o.result.getD (o.kernel.rsp o.kernel.current)

/-- The ticks since the last switch, in the arithmetic of `schedule`. -/
def ticksSinceSwitch (k : Kernel) : ℕ := (ticksElapsed k + 2 ^ 64 - k.lastSwitchTick) % 2 ^ 64

/-- A process is current, idle or in a queue. -/
def Held (k : Kernel) (Q : QueueId → List ℕ) (p : ℕ) : Prop :=
  p = k.current ∨ p = k.idleP ∨ ∃ q, p ∈ Q q

/-- The states of the scheduler: the queues agree with the states of the processes, no process
is lost, and those that finished have closed their descriptors. -/
structure WellFormed (k : Kernel) (Q : QueueId → List ℕ) : Prop where
  placed : Placed k k.current Q
  held : ∀ p, k.allocated p = true → Held k Q p
  current : k.allocated k.current = true
  idle : k.allocated k.idleP = true
  idle_running : k.state k.idleP = .running
  idle_priority : k.priority k.idleP = k.basePriority k.idleP
  base_le : ∀ p, k.allocated p = true → k.basePriority p ≤ k.priority p
  closed : ∀ p, k.allocated p = true → k.state p = .finished → ∀ i < maxFds, k.fdType p i = .terminal

/-- The interrupted process runs, has blocked, or has finished and nobody waits for it. -/
def Interrupted (k : Kernel) : Prop :=
  k.state k.current = .running ∨ k.state k.current = .blocked ∨
    k.state k.current = .finished ∧ k.waitersHead k.current = 0

/-- The queues after the interrupted process has been filed under its state. -/
def filedQueues (k : Kernel) (Q : QueueId → List ℕ) : QueueId → List ℕ :=
  match k.state k.current with
  | .running =>
      if k.current = k.idleP then Q
      else update Q (.ready (k.priority k.current)) (Q (.ready (k.priority k.current)) ++ [k.current])
  | .blocked => update Q .blocked (Q .blocked ++ [k.current])
  | .finished => update Q .finished ((Q .finished).erase k.current ++ [k.current])
  | _ => Q

/-- The states after that. -/
def filedState (k : Kernel) : ℕ → ProcessState :=
  if k.state k.current = .running ∧ k.current ≠ k.idleP then update k.state k.current .ready
  else k.state

/-- The process `next` is the first of the highest ready queue that is not empty, or the idle
process if all are empty; `Q'` are the queues without it. -/
inductive Chosen (idle : ℕ) (Q : QueueId → List ℕ) : ℕ → (QueueId → List ℕ) → Prop
  | first {pr next rest} (head : Q (.ready pr) = next :: rest)
      (highest : ∀ pr', pr < pr' → Q (.ready pr') = []) :
      Chosen idle Q next (update Q (.ready pr) rest)
  | idle (empty : ∀ pr, Q (.ready pr) = []) : Chosen idle Q idle Q

/-- What a switch to `next` does, when `Q` are the queues of the other processes before it
collects finished ones. -/
structure SwitchedTo (k : Kernel) (Q : QueueId → List ℕ) (frame : Frame) (next : ℕ) (o : Outcome) :
    Prop where
  wellFormed : WellFormed o.kernel (update Q .finished ((Q .finished).drop maxFinishedCollect))
  current : o.kernel.current = next
  unqueued : ∀ q, next ∉ Q q
  state : o.kernel.state = update (filedState k) next .running
  waitTicks : o.kernel.waitTicks = update k.waitTicks next 0
  priority : o.kernel.priority = update k.priority next (k.basePriority next)
  basePriority : o.kernel.basePriority = k.basePriority
  rsp : o.kernel.rsp = update k.rsp k.current frame.rsp
  returned : o.returnedRsp = o.kernel.rsp next
  needResched : o.kernel.needResched = false
  lastSwitch : o.kernel.lastSwitchTick = ticksElapsed k
  destroyed : o.destroyed = (Q .finished).take maxFinishedCollect
  destroyed_finished : ∀ p ∈ o.destroyed, k.state p = .finished
  allocated : ∀ p, o.kernel.allocated p = true ↔ k.allocated p = true ∧ p ∉ o.destroyed

end Model

section Filing

theorem Placed.forget (h : Placed k c Q) (hs : k.state c ≠ .blocked) : Placed k 0 Q := by
  refine ⟨h.rings, ⟨h.members.ready, fun p _ => ?_, h.members.finished⟩, h.valid⟩
  by_cases hp : p = c
  · subst hp
    simp [h.members.blocked p (by simp), hs]
  · exact h.members_except.blocked p hp

/-- The state after `save_context`, up to the links of the queues. -/
abbrev filedKernel (k : Kernel) (frame : Frame) (fg : ℕ → Bool) (kb : CircleBuffer)
    (sems : ℕ → Semaphore) : Kernel :=
  { k with
    rsp := update k.rsp k.current frame.rsp
    rbp := update k.rbp k.current (frame.word 10)
    isForeground := fg
    keyboard := kb
    semaphores := sems
    state := filedState k }

/-- `save_context` files the interrupted process under its state. -/
def Files (k : Kernel) (frame : Frame) (Q : QueueId → List ℕ) : Prop :=
  ∃ l fg kb sems,
    saveContext k k.current frame = some ((filedKernel k frame fg kb sems).relink l) ∧
    Rings l.next l.prev l.queues (filedQueues k Q) ∧
    Members k.allocated (filedState k) k.priority 0 ∅ (filedQueues k Q)

theorem WellFormed.current_ne (W : WellFormed k Q) : k.current ≠ 0 :=
  (W.placed.valid _ W.current).1

theorem WellFormed.files_running (W : WellFormed k Q) (hs : k.state k.current = .running)
    (frame : Frame) : Files k frame Q := by
  have h := W.placed
  have hv := h.valid _ W.current
  have hfree := h.free_of_running hs
  by_cases hidle : k.current = k.idleP
  · have hstate : filedState k = k.state := if_neg fun hc => hc.2 hidle
    have hqueues : filedQueues k Q = Q := by
      simp only [filedQueues, hs, if_pos hidle]
    have hforget := h.forget (by simp [hs])
    refine ⟨⟨k.queueNext, k.queuePrev, k.queues⟩, k.isForeground, k.keyboard, k.semaphores, ?_, ?_,
      ?_⟩
    · simp only [saveContext, filedKernel, if_neg hv.1, hs, hstate]
      rw [if_neg (not_not.mpr hidle)]
    · rw [hqueues]
      exact hforget.rings
    · rw [hstate, hqueues]
      exact hforget.members
  · have hstate : filedState k = update k.state k.current .ready := if_pos ⟨hs, hidle⟩
    have hqueues : filedQueues k Q = update Q (.ready (k.priority k.current))
        ((Q (.ready (k.priority k.current))).erase k.current ++ [k.current]) := by
      simp only [filedQueues, hs, if_neg hidle, List.erase_of_not_mem (hfree _)]
    obtain ⟨l, heq, hrings, hmem⟩ := readyQueuePush_spec
      { k with
        rsp := update k.rsp k.current frame.rsp
        rbp := update k.rbp k.current (frame.word 10)
        state := update k.state k.current .ready } h.rings
      (((h.forget (by simp [hs])).members.exempt k.current).setState .ready) W.current hv
      (Function.update_self ..) fun q _ => hfree q
    refine ⟨l, k.isForeground, k.keyboard, k.semaphores, ?_, ?_, ?_⟩
    · simp only [saveContext, filedKernel, if_neg hv.1, hs, hstate, ne_eq, hidle, not_false_eq_true,
        if_true]
      exact heq
    · rw [hqueues]
      exact hrings
    · rw [hstate, hqueues]
      exact hmem

theorem WellFormed.files_blocked (W : WellFormed k Q) (hs : k.state k.current = .blocked)
    (frame : Frame) : Files k frame Q := by
  have h := W.placed
  have hv := h.valid _ W.current
  have hstate : filedState k = k.state := if_neg (by simp [hs])
  have hout : k.current ∉ Q .blocked := by
    rw [h.members.blocked _ (by simp)]
    simp
  have hfree : ∀ q, q ≠ .blocked → k.current ∉ Q q := fun q hq => h.free_of_blocked hs hq
  have hqueues : filedQueues k Q =
      update Q .blocked ((Q .blocked).erase k.current ++ [k.current]) := by
    simp only [filedQueues, hs, List.erase_of_not_mem hout]
  obtain ⟨nx, pv, qs, heq, hrings⟩ := processQueuePush_spec
    (k := { k with
      rsp := update k.rsp k.current frame.rsp
      rbp := update k.rbp k.current (frame.word 10) }) h.rings hv.1 hv.2 hfree
  refine ⟨⟨nx, pv, qs⟩, k.isForeground, k.keyboard, k.semaphores, ?_, ?_, ?_⟩
  · simp only [saveContext, filedKernel, if_neg hv.1, hs, hstate]
    exact heq
  · rw [hqueues]
    exact hrings
  · rw [hstate, hqueues]
    refine h.members_except.put hfree ?_ ?_ ?_
    · simp [hs]
    · simp [hs, hv.1, W.current]
    · intro he
      cases he

theorem wakeWaiters_none (hw : k.waitersHead p = 0) : wakeWaiters p addressCount k = some k := by
  obtain ⟨n, hn⟩ := Nat.exists_eq_succ_of_ne_zero addressCount_pos.ne'
  rw [hn, wakeWaiters]
  exact if_pos hw

theorem WellFormed.files_finished (W : WellFormed k Q) (hs : k.state k.current = .finished)
    (hw : k.waitersHead k.current = 0) (frame : Frame) : Files k frame Q := by
  have h := W.placed
  have hv := h.valid _ W.current
  have hstate : filedState k = k.state := if_neg (by simp [hs])
  have hfree : ∀ q, q ≠ .finished → k.current ∉ Q q := fun q hq => h.free_of_finished hs hq
  have hqueues : filedQueues k Q =
      update Q .finished ((Q .finished).erase k.current ++ [k.current]) := by
    simp only [filedQueues, hs]
  obtain ⟨fg, kb, sems, hclear, -⟩ := leaveForeground_spec
    { k with
      rsp := update k.rsp k.current frame.rsp
      rbp := update k.rbp k.current (frame.word 10) } k.current
  obtain ⟨nx, pv, qs, heq, hrings⟩ := processQueuePush_spec
    (k := { k with
      rsp := update k.rsp k.current frame.rsp
      rbp := update k.rbp k.current (frame.word 10)
      isForeground := fg
      keyboard := kb
      semaphores := sems }) h.rings hv.1 hv.2 hfree
  refine ⟨⟨nx, pv, qs⟩, fg, kb, sems, ?_, ?_, ?_⟩
  · simp only [saveContext, filedKernel, if_neg hv.1, hs, hstate, hclear, Option.bind_eq_bind,
      Option.bind_some]
    rw [wakeWaiters_none (by exact hw), Option.bind_some]
    exact heq
  · rw [hqueues]
    exact hrings
  · rw [hstate, hqueues]
    refine ((h.forget (by simp [hs])).members.exempt k.current).put hfree ?_ ?_ ?_
    · simp [hs]
    · simp [hs]
    · exact fun _ => ⟨W.current, hs⟩

theorem WellFormed.files (W : WellFormed k Q) (hint : Interrupted k) (frame : Frame) :
    Files k frame Q := by
  rcases hint with hs | hs | ⟨hs, hw⟩
  · exact W.files_running hs frame
  · exact W.files_blocked hs frame
  · exact W.files_finished hs hw frame

end Filing

section Choosing

/-- Popping takes the head of the first ready queue that is not empty. -/
theorem popFirstOf_head (prs : List Priority) (h : Rings k.queueNext k.queuePrev k.queues Q) :
    ∃ p l, popFirstOf k prs = some (p, k.relink l) ∧
      ((p = 0 ∧ Rings l.next l.prev l.queues Q ∧ ∀ pr ∈ prs, Q (.ready pr) = []) ∨
        ∃ before pr after rest, prs = before ++ pr :: after ∧
          (∀ pr' ∈ before, Q (.ready pr') = []) ∧ Q (.ready pr) = p :: rest ∧
          Rings l.next l.prev l.queues (update Q (.ready pr) rest)) := by
  induction prs generalizing k with
  | nil => exact ⟨0, ⟨k.queueNext, k.queuePrev, k.queues⟩, rfl, Or.inl ⟨rfl, h, by simp⟩⟩
  | cons pr prs ih =>
      obtain ⟨nx, pv, qs, heq, hrings⟩ := processQueuePop_spec (q := .ready pr) h
      cases hL : Q (.ready pr) with
      | nil =>
          rw [hL, List.tail_nil, ← hL, Function.update_eq_self] at hrings
          obtain ⟨p, l, heq', hcases⟩ := ih (k := k.relink ⟨nx, pv, qs⟩) hrings
          refine ⟨p, l, ?_, ?_⟩
          · rw [popFirstOf, heq, hL]
            exact heq'
          · rcases hcases with ⟨hp, hsame, hempty⟩ | ⟨before, pr', after, rest, rfl, hempty, hhead,
              hrest⟩
            · exact Or.inl ⟨hp, hsame, List.forall_mem_cons.mpr ⟨hL, hempty⟩⟩
            · exact Or.inr ⟨pr :: before, pr', after, rest, rfl,
                List.forall_mem_cons.mpr ⟨hL, hempty⟩, hhead, hrest⟩
      | cons x L =>
          have hx : x ≠ 0 := h.ne_zero (q := .ready pr) (by simp [hL])
          refine ⟨x, ⟨nx, pv, qs⟩, ?_, Or.inr ⟨[], pr, prs, L, rfl, by simp, hL, ?_⟩⟩
          · rw [popFirstOf, heq, hL]
            simp [hx]
          · rw [hL] at hrings
            exact hrings

theorem mem_priorities (pr : Priority) : pr ∈ ([2, 1, 0] : List Priority) := by
  revert pr
  decide

/-- The priorities are tried in decreasing order. -/
theorem le_of_not_before {before after : List Priority} {pr pr' : Priority}
    (hsplit : [2, 1, 0] = before ++ pr :: after) (hnot : pr' ∉ before) : pr' ≤ pr := by
  have hmem := mem_priorities pr'
  have hsorted : ([2, 1, 0] : List Priority).Pairwise (· > ·) := by decide
  rw [hsplit] at hmem hsorted
  rcases List.mem_cons.mp ((List.mem_append.mp hmem).resolve_left hnot) with rfl | hafter
  · exact le_rfl
  · exact ((List.pairwise_cons.mp (List.pairwise_append.mp hsorted).2.1).1 pr' hafter).le

/-- `ready_queue_pop_highest` chooses the next process. -/
theorem readyQueuePopHighest_chosen (idle : ℕ) (h : Rings k.queueNext k.queuePrev k.queues Q) :
    ∃ p l Q', readyQueuePopHighest k = some (p, k.relink l) ∧ Rings l.next l.prev l.queues Q' ∧
      Chosen idle Q (if p = 0 then idle else p) Q' := by
  obtain ⟨p, l, heq, hcases⟩ := popFirstOf_head [2, 1, 0] h
  rcases hcases with ⟨rfl, hrings, hempty⟩ | ⟨before, pr, after, rest, hsplit, hempty, hhead, hrings⟩
  · refine ⟨0, l, Q, heq, hrings, ?_⟩
    rw [if_pos rfl]
    exact .idle fun pr => hempty pr (mem_priorities pr)
  · refine ⟨p, l, _, heq, hrings, ?_⟩
    rw [if_neg (h.ne_zero (q := .ready pr) (by simp [hhead]))]
    refine .first hhead fun pr' hlt => hempty pr' ?_
    by_contra hnot
    exact absurd hlt (not_lt.mpr (le_of_not_before hsplit hnot))

/-- The chosen process is in no queue any more, and the others stay where they are. -/
theorem Chosen.spec {idle : ℕ} (hchosen : Chosen idle Q next Q') (h : Placed k 0 Q)
    (hidle : k.allocated idle = true) (hrun : k.state idle = .running) :
    k.allocated next = true ∧ k.state next ≠ .finished ∧ (∀ q, next ∉ Q' q) ∧
      Members k.allocated k.state k.priority 0 {next} Q' ∧ Q' .finished = Q .finished ∧
      ∀ q, ∀ a ∈ Q q, a = next ∨ a ∈ Q' q := by
  cases hchosen with
  | @first pr _ rest head highest =>
      have hmem : next ∈ Q (.ready pr) := by simp [head]
      obtain ⟨ha, hs, hpr⟩ := (h.members.ready pr next (by simp)).mp hmem
      have hnodup := (h.rings.list (.ready pr)).nodup
      have hcut : update Q (.ready pr) rest = update Q (.ready pr) ((Q (.ready pr)).erase next) := by
        rw [head, List.erase_cons_head]
      rw [hcut]
      refine ⟨ha, by simp [hs], fun q hm => ?_, (h.members.exempt next).lift hnodup, by simp,
        fun q a hq => ?_⟩
      · rw [mem_lift hnodup] at hm
        by_cases hq : q = .ready pr
        · exact hm.2 ⟨rfl, hq⟩
        · exact h.free_of_ready hs (hpr.symm ▸ hq) hm.1
      · rw [mem_lift hnodup]
        tauto
  | idle empty =>
      exact ⟨hidle, by simp [hrun], h.free_of_running hrun, h.members.exempt _, rfl,
        fun q a hq => Or.inr hq⟩

end Choosing

section Collecting

/-- The loop of `schedule` destroys the first processes of the queue of finished ones. -/
theorem Placed.collectLoop (n : ℕ) (h : Placed k c Q)
    (hclosed : ∀ p ∈ Q .finished, ∀ i < maxFds, k.fdType p i = .terminal) :
    ∃ l pa fc ns ps, collectLoop n k = some ((Q .finished).take n,
        (collectedKernel k ((Q .finished).take n) pa fc ns ps).relink l) ∧
      Placed ((collectedKernel k ((Q .finished).take n) pa fc ns ps).relink l) c
        (update Q .finished ((Q .finished).drop n)) := by
  induction n generalizing k Q with
  | zero =>
      refine ⟨⟨k.queueNext, k.queuePrev, k.queues⟩, k.parent, k.firstChild, k.nextSibling,
        k.prevSibling, ?_, ?_⟩
      · simp only [List.take_zero, collectedKernel, setAll_nil]
        rfl
      · simp only [List.take_zero, List.drop_zero, collectedKernel, setAll_nil,
          Function.update_eq_self]
        exact h
  | succ n ih =>
      obtain ⟨nx, pv, qs, heq, hrings⟩ := processQueuePop_spec (q := .finished) h.rings
      cases hL : Q .finished with
      | nil =>
          rw [hL, List.tail_nil] at hrings
          rw [hL] at heq
          refine ⟨⟨nx, pv, qs⟩, k.parent, k.firstChild, k.nextSibling, k.prevSibling, ?_, ?_⟩
          · simp only [List.take_nil, collectedKernel, setAll_nil]
            rw [SoKernel.collectLoop, heq]
            rfl
          · simp only [List.take_nil, List.drop_nil, collectedKernel, setAll_nil]
            refine ⟨hrings, ?_, h.valid⟩
            rw [← hL, Function.update_eq_self]
            exact h.members
      | cons x L =>
          have hx : x ∈ Q .finished := by simp [hL]
          have hx0 : x ≠ 0 := h.rings.ne_zero hx
          obtain ⟨hxa, hxs⟩ := h.members.finished x (by simp) hx
          have hnodup := (h.rings.list .finished).nodup
          have hlift := (h.members.exempt x).lift (q := .finished) hnodup
          have hfree : ∀ q, x ∉ update Q .finished ((Q .finished).erase x) q := by
            intro q hm
            rw [mem_lift hnodup] at hm
            by_cases hq : q = .finished
            · exact hm.2 ⟨rfl, hq⟩
            · exact h.free_of_finished hxs hq hm.1
          rw [hL, List.tail_cons] at hrings
          rw [hL, List.head?_cons, Option.getD_some] at heq
          rw [hL, List.erase_cons_head] at hlift hfree
          obtain ⟨pa, fc, ns, ps, hdestroy⟩ := processDestroy_shape (k.relink ⟨nx, pv, qs⟩) hx0
            (hclosed x hx)
          have hdead : Placed
              ({ k with
                parent := pa
                firstChild := fc
                nextSibling := ns
                prevSibling := ps
                allocated := update k.allocated x false }.relink ⟨nx, pv, qs⟩) c
              (update Q .finished L) := by
            refine ⟨hrings, ?_, fun a ha => h.valid a ?_⟩
            · refine (hlift.congr (fun a ha => Function.update_of_ne ha _ _) (fun _ _ => rfl)
                (fun _ _ => rfl)).settle hfree ?_ ?_
              · simp [hxs]
              · simp [hxs]
            · rcases eq_or_ne a x with rfl | hax
              · exact hxa
              · rwa [← Function.update_of_ne hax false k.allocated]
          obtain ⟨l, pa', fc', ns', ps', heq', hplaced⟩ := ih hdead (by
            rw [Function.update_self]
            exact fun a ha => hclosed a (by simp [hL, ha]))
          rw [Function.update_self] at heq' hplaced
          simp only [List.take_succ_cons, List.drop_succ_cons, collectedKernel, setAll_cons,
            Function.update_idem] at heq' hplaced ⊢
          refine ⟨l, pa', fc', ns', ps', ?_, hplaced⟩
          rw [SoKernel.collectLoop, heq]
          simp only [Option.bind_eq_bind, Option.bind_some, if_neg hx0]
          rw [hdestroy, Option.bind_some, heq', Option.bind_some]

end Collecting

section Switching

theorem Placed.remember (h : Placed k 0 Q) (hs : k.state c ≠ .blocked) : Placed k c Q := by
  refine ⟨h.rings, ⟨h.members.ready, fun p _ => ?_, h.members.finished⟩, h.valid⟩
  rw [h.members.blocked p (by simp)]
  refine and_congr_right fun ha => and_congr_right fun hb => ?_
  have hpc : p ≠ c := fun e => hs (e ▸ hb)
  simp [hpc, (h.valid p ha).1]

/-- The dispatched process runs at its base priority. -/
theorem dispatch_eq (hidle : k.priority k.idleP = k.basePriority k.idleP)
    (hbase : k.basePriority next ≤ k.priority next) :
    dispatch k next = dispatchedKernel k next (update k.priority next (k.basePriority next)) := by
  rw [dispatch]
  dsimp only
  split
  · rfl
  · rename_i hkeep
    have hsame : k.basePriority next = k.priority next := by
      by_cases hn : next = k.idleP
      · rw [hn, hidle]
      · exact le_antisymm hbase (not_lt.mp fun hlt => hkeep ⟨hn, hlt⟩)
    rw [hsame, Function.update_eq_self]
    rfl

theorem filedState_idle (hrun : k.state k.idleP = .running) : filedState k k.idleP = .running := by
  rw [filedState]
  split
  · rename_i hc
    rw [Function.update_of_ne (Ne.symm hc.2), hrun]
  · exact hrun

theorem filedState_finished (hp : filedState k p = .finished) : k.state p = .finished := by
  rw [filedState] at hp
  split at hp
  · rcases eq_or_ne p k.current with rfl | hne
    · rw [Function.update_self] at hp
      cases hp
    · rwa [Function.update_of_ne hne] at hp
  · exact hp

/-- Filing the interrupted process loses nobody. -/
theorem held_of_filed (hint : Interrupted k) (hp : Held k Q p) :
    p = k.idleP ∨ ∃ q, p ∈ filedQueues k Q q := by
  have hmove (q₀ : QueueId) (M : List ℕ) (hM : ∀ a ∈ Q q₀, a ∈ M) (hc : k.current ∈ M) :
      p = k.idleP ∨ ∃ q, p ∈ update Q q₀ M q := by
    rcases hp with rfl | hidle | ⟨q, hq⟩
    · exact Or.inr ⟨q₀, by rwa [Function.update_self]⟩
    · exact Or.inl hidle
    · refine Or.inr ⟨q, ?_⟩
      by_cases hqq : q = q₀
      · subst hqq
        rw [Function.update_self]
        exact hM p hq
      · rwa [Function.update_of_ne hqq]
  rcases hint with hs | hs | ⟨hs, -⟩
  · by_cases hidle : k.current = k.idleP
    · simp only [filedQueues, hs, if_pos hidle]
      rcases hp with rfl | hp | hp
      · exact Or.inl hidle
      · exact Or.inl hp
      · exact Or.inr hp
    · simp only [filedQueues, hs, if_neg hidle]
      exact hmove _ _ (fun a ha => by simp [ha]) (by simp)
  · simp only [filedQueues, hs]
    exact hmove _ _ (fun a ha => by simp [ha]) (by simp)
  · simp only [filedQueues, hs]
    refine hmove _ _ (fun a ha => ?_) (by simp)
    by_cases hac : a = k.current
    · simp [hac]
    · simp [(List.mem_erase_of_ne hac).mpr ha]

theorem collected_iff {dead : List ℕ} {al : ℕ → Bool} :
    setAll dead false al p = true ↔ al p = true ∧ p ∉ dead := by
  rw [setAll]
  split <;> simp_all

/-- The state after the dispatch of a process, up to the links of the queues. -/
abbrev switchedKernel (k : Kernel) (frame : Frame) (fg : ℕ → Bool) (kb : CircleBuffer)
    (sems : ℕ → Semaphore) (next : ℕ) : Kernel :=
  dispatchedKernel (filedKernel { k with needResched := false } frame fg kb sems) next
    (update k.priority next (k.basePriority next))

/-- `schedule` behind the decision to switch. -/
theorem WellFormed.switchContext (W : WellFormed k Q) (hint : Interrupted k) (frame : Frame) :
    ∃ o next Q', switchContext k frame = some o ∧ o.dispatched = some next ∧
      Chosen k.idleP (filedQueues k Q) next Q' ∧ SwitchedTo k Q' frame next o := by
  have W₀ : WellFormed { k with needResched := false } Q :=
    ⟨⟨W.placed.rings, W.placed.members, W.placed.valid⟩, W.held, W.current, W.idle, W.idle_running,
      W.idle_priority, W.base_le, W.closed⟩
  obtain ⟨l₁, fg, kb, sems, hsave, hrings₁, hmem₁⟩ := W₀.files hint frame
  have h₁ : Placed ((filedKernel { k with needResched := false } frame fg kb sems).relink l₁) 0
      (filedQueues k Q) := ⟨hrings₁, hmem₁, W.placed.valid⟩
  obtain ⟨p, l₂, Q', hpop, hrings₂, hchosen⟩ := readyQueuePopHighest_chosen k.idleP h₁.rings
  generalize hnext : (if p = 0 then k.idleP else p) = next at hchosen
  obtain ⟨halloc, hlive, hfree, hmem₂, hfin, hothers⟩ := hchosen.spec h₁ W.idle
    (filedState_idle W.idle_running)
  have hdispatch : dispatch ((filedKernel { k with needResched := false } frame fg kb sems).relink l₂)
      next = (switchedKernel k frame fg kb sems next).relink l₂ :=
    dispatch_eq W.idle_priority (W.base_le next halloc)
  have h₂ : Placed ((switchedKernel k frame fg kb sems next).relink l₂) next Q' := by
    refine Placed.remember ⟨hrings₂, ?_, W.placed.valid⟩ (by simp)
    refine ((hmem₂.setState .running).setPriority _).settle hfree ?_ ?_
    · simp
    · simp
  have hdead : ∀ a ∈ Q' .finished, k.allocated a = true ∧ k.state a = .finished := by
    intro a ha
    rw [hfin] at ha
    obtain ⟨haa, has⟩ := h₁.of_mem ha
    exact ⟨haa, filedState_finished has⟩
  obtain ⟨l₃, pa, fc, ns, ps, hcollect, h₃⟩ := h₂.collectLoop maxFinishedCollect
    fun a ha => W.closed a (hdead a ha).1 (hdead a ha).2
  have hkeep : ∀ a, a ∈ (Q' .finished).take maxFinishedCollect → k.state a = .finished :=
    fun a ha => (hdead a (List.mem_of_mem_take ha)).2
  have hnext_kept : next ∉ (Q' .finished).take maxFinishedCollect :=
    fun hn => hfree .finished (List.mem_of_mem_take hn)
  have hidle_kept : k.idleP ∉ (Q' .finished).take maxFinishedCollect := fun hi => by
    simpa [W.idle_running] using hkeep _ hi
  have hwf : WellFormed ((collectedKernel ((switchedKernel k frame fg kb sems next).relink l₂)
      ((Q' .finished).take maxFinishedCollect) pa fc ns ps).relink l₃)
      (update Q' .finished ((Q' .finished).drop maxFinishedCollect)) := by
    refine ⟨h₃, fun a ha => ?_, collected_iff.mpr ⟨halloc, hnext_kept⟩,
      collected_iff.mpr ⟨W.idle, hidle_kept⟩, ?_, ?_, fun a ha => ?_, fun a ha has => ?_⟩
    · obtain ⟨hka, hkept⟩ := collected_iff.mp ha
      rcases held_of_filed hint (W.held a hka) with hi | ⟨q, hq⟩
      · exact Or.inr (Or.inl hi)
      · rcases hothers q a hq with rfl | hq'
        · exact Or.inl rfl
        · refine Or.inr (Or.inr ⟨q, ?_⟩)
          by_cases hfinq : q = .finished
          · subst hfinq
            rw [← List.take_append_drop maxFinishedCollect (Q' .finished), List.mem_append] at hq'
            rw [Function.update_self]
            exact hq'.resolve_left hkept
          · rwa [Function.update_of_ne hfinq]
    · show update (filedState k) next .running k.idleP = .running
      rcases eq_or_ne k.idleP next with hi | hi
      · rw [hi, Function.update_self]
      · rw [Function.update_of_ne hi, filedState_idle W.idle_running]
    · show update k.priority next (k.basePriority next) k.idleP = k.basePriority k.idleP
      rcases eq_or_ne k.idleP next with hi | hi
      · rw [hi, Function.update_self]
      · rw [Function.update_of_ne hi, W.idle_priority]
    · show k.basePriority a ≤ update k.priority next (k.basePriority next) a
      rcases eq_or_ne a next with rfl | hne
      · rw [Function.update_self]
      · rw [Function.update_of_ne hne]
        exact W.base_le a (collected_iff.mp ha).1
    · have has' : update (filedState k) next .running a = .finished := has
      rcases eq_or_ne a next with rfl | hne
      · rw [Function.update_self] at has'
        cases has'
      · rw [Function.update_of_ne hne] at has'
        exact W.closed a (collected_iff.mp ha).1 (filedState_finished has')
  refine ⟨⟨_, none, some next, (Q' .finished).take maxFinishedCollect, []⟩, next, Q', ?_, rfl, hchosen,
    { wellFormed := hwf
      current := rfl
      unqueued := hfree
      state := rfl
      waitTicks := rfl
      priority := rfl
      basePriority := rfl
      rsp := rfl
      returned := rfl
      needResched := rfl
      lastSwitch := rfl
      destroyed := rfl
      destroyed_finished := hkeep
      allocated := fun _ => collected_iff }⟩
  rw [SoKernel.switchContext, hsave]
  simp only [Option.bind_eq_bind, Option.bind_some]
  rw [hpop]
  simp only [Option.bind_some]
  rw [hnext, hdispatch, hcollect, Option.bind_some]

end Switching

section Deciding

theorem Placed.head_ne_zero (h : Placed k c Q) {pr : Priority} (hp : p ∈ Q (.ready pr)) :
    (k.queues (.ready pr)).head ≠ 0 := by
  rw [(h.rings.list (.ready pr)).head_eq]
  cases hL : Q (.ready pr) with
  | nil =>
      rw [hL] at hp
      cases hp
  | cons x L => exact h.rings.ne_zero (q := .ready pr) (by simp [hL])

theorem Placed.head_priority (h : Placed k c Q) {pr : Priority}
    (hne : (k.queues (.ready pr)).head ≠ 0) : k.priority (k.queues (.ready pr)).head = pr := by
  have hhead := (h.rings.list (.ready pr)).head_eq
  cases hL : Q (.ready pr) with
  | nil =>
      rw [hL] at hhead
      exact absurd hhead hne
  | cons x L =>
      rw [hL] at hhead
      have hmem : (k.queues (.ready pr)).head ∈ Q (.ready pr) := by simp [hhead, hL]
      exact ((h.members.ready pr _ (by simp)).mp hmem).2.2

/-- The process that `schedule` compares with the current one has the highest priority of all
ready processes. -/
theorem Placed.peek_highest (h : Placed k c Q) (ha : k.allocated p = true)
    (hs : k.state p = .ready) :
    ∃ x, ([2, 1, 0].map fun pr => (k.queues (.ready pr)).head).find? (· ≠ 0) = some x ∧
      k.priority p ≤ k.priority x := by
  have hmem := (h.members.ready (k.priority p) p (by simp)).mpr ⟨ha, hs, rfl⟩
  have hhead := h.head_ne_zero hmem
  have hall := mem_priorities (k.priority p)
  cases hfind : ([2, 1, 0].map fun pr => (k.queues (.ready pr)).head).find? (· ≠ 0) with
  | none =>
      rw [List.find?_eq_none] at hfind
      exact absurd (hfind _ (List.mem_map_of_mem hall)) (by simpa using hhead)
  | some x =>
      obtain ⟨hx, before, after, hsplit, hzero⟩ := List.find?_eq_some_iff_append.mp hfind
      obtain ⟨prs, rest, hprs, rfl, hrest⟩ := List.map_eq_append_iff.mp hsplit
      obtain ⟨pr, prs', rfl, rfl, rfl⟩ := List.map_eq_cons_iff.mp hrest
      refine ⟨_, rfl, ?_⟩
      rw [h.head_priority (by simpa using hx)]
      refine le_of_not_before hprs fun hbefore => ?_
      have hz := hzero _ (List.mem_map_of_mem hbefore)
      exact hhead (by simpa using hz)

/-- `schedule` only goes on with the current process if none of its conditions holds. -/
theorem Placed.goes_on (h : Placed k c Q) (hkeep : mustSwitch k = false) :
    k.state k.current = .running ∧ k.needResched = false ∧ ticksSinceSwitch k < quantumTicks ∧
      ∀ p, k.allocated p = true → k.state p = .ready → k.priority p ≤ k.priority k.current := by
  simp only [mustSwitch, Bool.or_eq_false_iff] at hkeep
  obtain ⟨⟨⟨hstate, hpeek⟩, hquantum⟩, hresched⟩ := hkeep
  refine ⟨by simpa using hstate, hresched, not_le.mp (of_decide_eq_false hquantum),
    fun p ha hs => ?_⟩
  obtain ⟨x, hfind, hle⟩ := h.peek_highest ha hs
  rw [hfind] at hpeek
  have hnot : ¬k.priority k.current < k.priority x := by simpa using hpeek
  exact hle.trans (not_lt.mp hnot)

end Deciding

section Schedule

/-- `apply_aging` changes priorities, waiting times and the links of the queues only. -/
theorem WellFormed.applyAging (W : WellFormed k Q) :
    ∃ l prio wt Q', applyAging k = some
        ({ k with
          priority := prio
          waitTicks := wt }.relink l) ∧
      WellFormed
        ({ k with
          priority := prio
          waitTicks := wt }.relink l) Q' ∧
      Aged k.state k.priority prio Q Q' := by
  obtain ⟨l, prio, wt, Q', heq, hplaced, haged⟩ := W.placed.ageQueues [0, 1, 2]
  refine ⟨l, prio, wt, Q', heq, ⟨hplaced, fun p hp => ?_, W.current, W.idle, W.idle_running, ?_,
    fun p hp => (W.base_le p hp).trans (haged.priority_le p), W.closed⟩, haged⟩
  · rcases W.held p hp with hc | hi | ⟨q, hq⟩
    · exact Or.inl hc
    · exact Or.inr (Or.inl hi)
    · refine Or.inr (Or.inr ?_)
      cases q with
      | ready pr =>
          have hs := (W.placed.of_mem hq).2
          exact ⟨.ready (prio p), (hplaced.members.ready _ p (by simp)).mpr ⟨hp, hs, rfl⟩⟩
      | blocked => exact ⟨.blocked, by rwa [haged.blocked]⟩
      | finished => exact ⟨.finished, by rwa [haged.finished]⟩
  · exact (haged.priority_eq _ (by simp [W.idle_running])).trans W.idle_priority

theorem keyboardInit_shape (k : Kernel) :
    ∃ sems n id, keyboardInit k =
      { k with
        semaphores := sems
        nextSemId := n
        kbdSemId := id } := by
  rw [keyboardInit]
  split
  · obtain ⟨sems, n, heq⟩ := semAlloc_shape k 0
    refine ⟨sems, n, (semAlloc k 0).1, ?_⟩
    show { (semAlloc k 0).2 with kbdSemId := (semAlloc k 0).1 } = _
    rw [heq]
  · exact ⟨k.semaphores, k.nextSemId, k.kbdSemId, rfl⟩

/-- The scheduler is well-formed when the idle process has been made. -/
theorem initScheduler_wellFormed {pcb stack : ℕ} (hpcb : pcb ≠ 0) (hstack : stack ≠ 0)
    (hlt : pcb < addressCount) (h : initScheduler bootKernel pcb stack = some k) :
    (WellFormed k fun _ => []) ∧ k.current = pcb ∧ k.idleP = pcb := by
  have hagree := initScheduler_agree hlt h
  obtain ⟨fdp, hcreate⟩ := processCreate_created
    (k := { bootKernel with
      nextPid := 1
      queues := fun _ => ⟨0, 0, 0⟩ }) (fun _ _ => rfl) (fun _ => rfl)
    (r := ⟨1, 0, 0, false, 0, 0, pcb, stack⟩) one_ne_zero hpcb hstack
  simp only [initScheduler, hcreate, Option.bind_eq_bind, Option.bind_some, if_pos hpcb,
    Option.some_inj] at h
  have hplaced := hagree.placed
  subst h
  have hprio : ∀ a, update bootKernel.priority pcb 1 a = update bootKernel.basePriority pcb 1 a := by
    intro a
    simp only [Function.update_apply, bootKernel]
  refine ⟨⟨hplaced, fun a ha => ?_, ?_, ?_, ?_, hprio pcb, fun a _ => (hprio a).ge,
    fun _ _ _ _ _ => rfl⟩, rfl, rfl⟩
  · left
    by_contra hne
    simp [bootKernel, Function.update_of_ne hne] at ha
  all_goals simp

/-- A new process keeps the scheduler well-formed, when no process waits for its destruction. -/
theorem WellFormed.spawned {r : SpawnRequest} {pr : Priority} {fdp : ℕ → ℕ → Option ℕ} {l : Links}
    (W : WellFormed k Q) (hfin : Q .finished = []) (hfresh : k.allocated r.pcb = false)
    (hagree : QueuesAgree ((createdKernel k r pr fdp).relink l) k.current Q') :
    WellFormed ((createdKernel k r pr fdp).relink l) Q' := by
  have hne : ∀ a, k.allocated a = true → a ≠ r.pcb := by
    rintro a ha rfl
    rw [hfresh] at ha
    cases ha
  have hidle := hne _ W.idle
  have hold : ∀ a, a ≠ r.pcb → update k.allocated r.pcb true a = true → k.allocated a = true :=
    fun a hap ha => by rwa [Function.update_of_ne hap] at ha
  refine ⟨hagree.placed, fun a ha => ?_, ?_, ?_, ?_, ?_, fun a ha => ?_, fun a _ _ i _ => ?_⟩
  · rcases eq_or_ne a r.pcb with rfl | hap
    · have hready := (hagree.members.ready pr r.pcb (by simp)).mpr
        ⟨ha, Function.update_self .., Function.update_self ..⟩
      exact Or.inr (Or.inr ⟨_, hready⟩)
    · rcases W.held a (hold a hap ha) with hc | hi | ⟨q, hq⟩
      · exact Or.inl hc
      · exact Or.inr (Or.inl hi)
      · have hstate : update k.state r.pcb .ready a = q.state :=
          (Function.update_of_ne hap _ _).trans (W.placed.of_mem hq).2
        cases q with
        | ready i =>
            have hready := (hagree.members.ready _ a (by simp)).mpr ⟨ha, hstate, rfl⟩
            exact Or.inr (Or.inr ⟨_, hready⟩)
        | blocked =>
            have hout := ((W.placed.members.blocked a (by simp)).mp hq).2.2
            have hblocked := (hagree.members.blocked a (by simp)).mpr ⟨ha, hstate, hout⟩
            exact Or.inr (Or.inr ⟨_, hblocked⟩)
        | finished =>
            rw [hfin] at hq
            cases hq
  · exact (Function.update_of_ne (hne _ W.current) _ _).trans W.current
  · exact (Function.update_of_ne hidle _ _).trans W.idle
  · exact (Function.update_of_ne hidle _ _).trans W.idle_running
  · exact (Function.update_of_ne hidle _ _).trans
      (W.idle_priority.trans (Function.update_of_ne hidle _ _).symm)
  · show update k.basePriority r.pcb pr a ≤ update k.priority r.pcb pr a
    rcases eq_or_ne a r.pcb with rfl | hap
    · rw [Function.update_self, Function.update_self]
    · rw [Function.update_of_ne hap, Function.update_of_ne hap]
      exact W.base_le a (hold a hap ha)
  · exact hagree.terminals a i

/-- The scheduler is well-formed when the first processes have been made. -/
theorem bootSystem_wellFormed {idle idleStack shell shellStack entryPoint : ℕ}
    (hm : BootMemory idle idleStack shell shellStack entryPoint) (hidle : idle < addressCount)
    (hshell : shell < addressCount)
    (h : bootSystem idle idleStack shell shellStack entryPoint = some k) :
    ∃ Q, WellFormed k Q := by
  rw [bootSystem, Option.bind_eq_bind] at h
  obtain ⟨k₀, hinit, hrest⟩ := Option.bind_eq_some_iff.mp h
  obtain ⟨⟨p, k₁⟩, hspawn, hlast⟩ := Option.bind_eq_some_iff.mp hrest
  rw [Option.some_inj] at hlast
  subst hlast
  have h₀ := initScheduler_agree hidle hinit
  obtain ⟨W₀, hcur₀, hidle₀⟩ := initScheduler_wellFormed hm.idle_ne hm.idleStack_ne hidle hinit
  obtain ⟨sems, n, id, hkbd⟩ := keyboardInit_shape k₀
  have h₁ : QueuesAgree (keyboardInit k₀) (keyboardInit k₀).current fun _ => [] := by
    rw [hkbd]
    exact ⟨h₀.rings, h₀.members, h₀.valid, h₀.idle, h₀.current, h₀.terminals, h₀.noPipes⟩
  have W₁ : WellFormed (keyboardInit k₀) fun _ => [] := by
    rw [hkbd]
    exact ⟨⟨W₀.placed.rings, W₀.placed.members, W₀.placed.valid⟩, W₀.held, W₀.current, W₀.idle,
      W₀.idle_running, W₀.idle_priority, W₀.base_le, W₀.closed⟩
  have hidleP : (keyboardInit k₀).current = idle ∧ (keyboardInit k₀).idleP = idle := by
    rw [hkbd]
    exact ⟨hcur₀, hidle₀⟩
  have hfresh : (keyboardInit k₀).allocated shell = false := by
    by_contra halloc
    rcases W₁.held shell (by simpa using halloc) with hc | hi | ⟨q, hq⟩
    · exact hm.different (hc.trans hidleP.1)
    · exact hm.different (hi.trans hidleP.2)
    · cases hq
  obtain ⟨p', k₂, Q, hspawn', hagree, -⟩ := schedulerSpawnProcess_spec h₁
    (r := ⟨entryPoint, 0, 2, true, 0, 0, shell, shellStack⟩)
    ⟨fun _ => ⟨hshell, hfresh⟩, fun hz => absurd rfl hz⟩
  obtain ⟨rfl, rfl⟩ := Prod.mk.inj (Option.some_inj.mp (hspawn.symm.trans hspawn'))
  obtain ⟨pr, fdp, l, rfl⟩ := schedulerSpawnProcess_created h₁.terminals h₁.noPipes
    hm.entryPoint_ne hm.shell_ne hm.shellStack_ne (hidleP.2 ▸ hm.different) hspawn
  exact ⟨Q, W₁.spawned rfl hfresh hagree⟩

theorem WellFormed.agree (W : WellFormed k Q) (ho : Orderly k) : QueuesAgree k k.current Q :=
  ⟨W.placed.rings, W.placed.members, W.placed.valid, fun _ => ⟨W.idle, Or.inl W.idle_running⟩,
    fun _ => ⟨W.current, (W.placed.valid _ W.idle).1⟩, ho.terminals, ho.noPipes⟩

/-- The scheduler is still well-formed when the first of them has made a process. -/
theorem bootSystem_spawned {idle idleStack shell shellStack entryPoint p : ℕ} {k' : Kernel}
    {r : SpawnRequest} (hm : BootMemory idle idleStack shell shellStack entryPoint)
    (hidle : idle < addressCount) (hshell : shell < addressCount)
    (hboot : bootSystem idle idleStack shell shellStack entryPoint = some k)
    (hvalid : ValidRequest k r) (hentry : r.entryPoint ≠ 0) (hpcb : r.pcb ≠ 0)
    (hstack : r.stack ≠ 0) (hspawn : schedulerSpawnProcess k r = some (p, k')) :
    ∃ Q pr fdp l, k' = (createdKernel k r pr fdp).relink l ∧ WellFormed k' Q := by
  obtain ⟨Q, W⟩ := bootSystem_wellFormed hm hidle hshell hboot
  have hbooted := bootSystem_spec hm hboot
  have ho := hbooted.orderly
  have hfin : Q .finished = [] := by
    rw [List.eq_nil_iff_forall_not_mem]
    intro a ha
    obtain ⟨halloc, hstate⟩ := W.placed.of_mem ha
    obtain ⟨hrunning, hready⟩ := hbooted.state
    rcases (hbooted.allocated a).mp halloc with rfl | rfl
    · exact absurd (hrunning.symm.trans hstate) (by decide)
    · exact absurd (hready.symm.trans hstate) (by decide)
  have hne : r.pcb ≠ k.idleP := by
    intro heq
    have hfresh := (hvalid.1 hpcb).2
    rw [heq, W.idle] at hfresh
    cases hfresh
  obtain ⟨p', k₂, Q', hspawn', hagree, -⟩ := schedulerSpawnProcess_spec (W.agree ho) hvalid
  obtain ⟨rfl, rfl⟩ := Prod.mk.inj (Option.some_inj.mp (hspawn.symm.trans hspawn'))
  obtain ⟨pr, fdp, l, rfl⟩ := schedulerSpawnProcess_created ho.terminals ho.noPipes hentry hpcb
    hstack hne hspawn
  exact ⟨Q', pr, fdp, l, rfl, W.spawned hfin (hvalid.1 hpcb).2 hagree⟩

/-- A call of `schedule` ages the ready processes first. If it does not switch then, the current
process runs and none of the conditions for a switch holds. If it does, the interrupted process
is filed under its state, the first process of the highest ready queue runs on, or the idle
process, and up to four finished processes are destroyed; all others stay where they are. -/
theorem schedule_meets_specification (W : WellFormed k Q) (hint : Interrupted k) (frame : Frame) :
    ∃ k₁ Q₁ o, applyAging k = some k₁ ∧ WellFormed k₁ Q₁ ∧
      Aged k.state k.priority k₁.priority Q Q₁ ∧ k₁.current = k.current ∧ k₁.state = k.state ∧
      k₁.allocated = k.allocated ∧ schedule k frame = some o ∧
      (o.dispatched = none → o.kernel = k₁ ∧ o.returnedRsp = frame.rsp ∧
        k₁.state k₁.current = .running ∧ k₁.needResched = false ∧
        ticksSinceSwitch k₁ < quantumTicks ∧
        ∀ p, k₁.allocated p = true → k₁.state p = .ready →
          k₁.priority p ≤ k₁.priority k₁.current) ∧
      ∀ next, o.dispatched = some next →
        ∃ Q₂, Chosen k₁.idleP (filedQueues k₁ Q₁) next Q₂ ∧ SwitchedTo k₁ Q₂ frame next o := by
  obtain ⟨l, prio, wt, Q₁, hage, W₁, haged⟩ := W.applyAging
  have hrun (frame : Frame) : schedule k frame =
      if mustSwitch ({ k with
          priority := prio
          waitTicks := wt }.relink l) then
        SoKernel.switchContext ({ k with
          priority := prio
          waitTicks := wt }.relink l) frame
      else some (.return frame.rsp ({ k with
          priority := prio
          waitTicks := wt }.relink l)) := by
    rw [schedule, if_neg W.current_ne, hage]
    rfl
  by_cases hswitch : mustSwitch ({ k with
      priority := prio
      waitTicks := wt }.relink l) = true
  · obtain ⟨o, next, Q₂, hcall, hdispatched, hchosen, hswitched⟩ := W₁.switchContext hint frame
    refine ⟨_, Q₁, o, hage, W₁, haged, rfl, rfl, rfl, ?_, fun hnone => ?_, fun next' hnext => ?_⟩
    · rw [hrun, if_pos hswitch, hcall]
    · rw [hdispatched] at hnone
      cases hnone
    · obtain rfl : next = next' := Option.some_inj.mp (hdispatched.symm.trans hnext)
      exact ⟨Q₂, hchosen, hswitched⟩
  · obtain ⟨hstate, hresched, hquantum, hhighest⟩ := W₁.placed.goes_on (Bool.not_eq_true _ ▸ hswitch)
    exact ⟨_, Q₁, _, hage, W₁, haged, rfl, rfl, rfl, by rw [hrun, if_neg hswitch],
      fun _ => ⟨rfl, rfl, hstate, hresched, hquantum, hhighest⟩, fun next hnext => by cases hnext⟩

/-- Two processes are ready after the start, and a first tick dispatches the shell. -/
theorem schedule_meets_specification_boot :
    ∃ k k' Q o, bootSystem 16 8192 48 12288 1 = some k ∧
      schedulerSpawnProcess k ⟨1, 48, 2, false, 0, 0, 64, 32768⟩ = some (64, k') ∧
      WellFormed k' Q ∧ k'.state 48 = .ready ∧ k'.state 64 = .ready ∧
      schedule k' ⟨4096, fun _ => 0⟩ = some o ∧ o.kernel.current = 48 ∧
      o.kernel.state 48 = .running ∧ o.kernel.state 64 = .ready := by
  have hlt : ∀ a, a ≤ 64 → a < addressCount := by
    intro a ha
    unfold addressCount
    omega
  have hcalc : ((bootSystem 16 8192 48 12288 1).bind fun k =>
      (schedulerSpawnProcess k ⟨1, 48, 2, false, 0, 0, 64, 32768⟩).bind fun x =>
        (schedule x.2 ⟨4096, fun _ => 0⟩).map fun o =>
          decide (k.allocated 48 = true ∧ k.allocated 64 = false ∧ x.1 = 64 ∧
            x.2.state x.2.current = .running ∧ x.2.current ≠ 64 ∧ x.2.state 48 = .ready ∧
            x.2.state 64 = .ready ∧ o.dispatched = some 48)) = some true := by
    decide +kernel
  obtain ⟨k, hboot, hcalc⟩ := Option.bind_eq_some_iff.mp hcalc
  obtain ⟨⟨p, k'⟩, hspawn, hcalc⟩ := Option.bind_eq_some_iff.mp hcalc
  obtain ⟨o', hcall', hvalue⟩ := Option.map_eq_some_iff.mp hcalc
  obtain ⟨hparent, hfresh, hp, hrun, hcur, hshell, hchild, hdispatched⟩ := of_decide_eq_true hvalue
  dsimp only at hp hrun hcur hshell hchild hcall'
  subst hp
  obtain ⟨Q, -, -, -, -, W⟩ := bootSystem_spawned ⟨by decide, by decide, by decide, by decide,
    by decide, by decide⟩ (hlt 16 (by decide)) (hlt 48 (by decide)) hboot
    ⟨fun _ => ⟨hlt 64 le_rfl, hfresh⟩, fun _ => hparent⟩ (by decide) (by decide) (by decide) hspawn
  obtain ⟨k₁, Q₁, o, -, -, -, hcur₁, hstate₁, -, hcall, -, hswitch⟩ := schedule_meets_specification W
    (Or.inl hrun) ⟨4096, fun _ => 0⟩
  obtain rfl := Option.some_inj.mp (hcall.symm.trans hcall')
  obtain ⟨Q₂, -, hswitched⟩ := hswitch 48 hdispatched
  refine ⟨k, k', Q, o, hboot, hspawn, W, hshell, hchild, hcall, hswitched.current, ?_, ?_⟩
  · rw [hswitched.state, Function.update_self]
  · -- The other process was not interrupted.
    rw [hswitched.state, Function.update_of_ne (by decide), filedState, hstate₁, hcur₁]
    split
    · rw [Function.update_of_ne hcur.symm, hchild]
    · exact hchild

end Schedule
end SoKernel
