import SoKernel.Proc.Dispatch
import SoKernel.Proc.Effects

/-!
# Places in the ready queues

A call of the kernel works on a few processes. Every other process keeps its state, its priority and
its waiting time, and nobody comes to stand before it in its ready queue. `targets` names the
processes that a call works on.
-/

namespace SoKernel

open Function (update)
open LinkedList (Chain)

variable {k k₁ k₂ k' : Kernel} {c p x : ℕ} {q : QueueId} {X Y : Set ℕ} {L M : List ℕ}
variable {Q Q₁ Q₂ Q' : QueueId → List ℕ}

section Model

/-- The processes outside `X` stay in their ready queues, at the same place or nearer to the
front. -/
def Ahead (X : Set ℕ) (Q Q' : QueueId → List ℕ) : Prop :=
  ∀ pr, ∀ a ∉ X, a ∈ Q (.ready pr) →
    a ∈ Q' (.ready pr) ∧ (Q' (.ready pr)).idxOf a ≤ (Q (.ready pr)).idxOf a

/-- What happens between the two states works on the processes `X` only, and not on the clock. -/
structure Spares (X : Set ℕ) (k k' : Kernel) : Prop where
  ticks : k'.ticks = k.ticks
  lastSwitch : k'.lastSwitchTick = k.lastSwitchTick
  current : k'.current = k.current
  allocated : ∀ a ∉ X, k'.allocated a = k.allocated a
  state : ∀ a ∉ X, k'.state a = k.state a
  priority : ∀ a ∉ X, k'.priority a = k.priority a
  waitTicks : ∀ a ∉ X, k'.waitTicks a = k.waitTicks a
  places : ∀ Q Q', Rings k.queueNext k.queuePrev k.queues Q →
    Rings k'.queueNext k'.queuePrev k'.queues Q' → Ahead X Q Q'

/-- The processes that a call works on, apart from those that a context switch files and
dispatches. -/
def targets (k : Kernel) : Call → Set ℕ
  | .spawn r | .createProcess r => {r.pcb}
  | .tick _ | .yield _ =>
      {w | k.state k.current = .finished ∧
        w ∈ waitersFrom k.waiterNext addressCount (k.waitersHead k.current)}
  | .blockCurrent | .finishCurrent | .wait _ _ | .semWait _ _ => {k.current}
  | .unblockProcess p => {p}
  | .unblockByPid pid | .blockByPid pid | .setPriority pid _ =>
      {p | schedulerFindByPid k pid = some p}
  | .killByPid pid => {a | ∃ p, schedulerFindByPid k pid = some p ∧
      (a = p ∨ a ∈ waitersFrom k.waiterNext addressCount (k.waitersHead p))}
  | .semSignal id => {w | ∃ i, semGetById k id = some i ∧
      w ∈ waitersFrom k.semWaiterNext 1 (k.semaphores i).waitHead}
  | .semSet id v => {w | ∃ i, semGetById k id = some i ∧
      w ∈ waitersFrom k.semWaiterNext v.toNat (k.semaphores i).waitHead}
  | .waitReturn _ | .keyboardInit | .semAlloc _ | .semOpen _ | .semClose _ => ∅

/-- The calls that can end in a context switch. -/
def Switches : Call → Prop
  | .tick _ | .yield _ | .wait _ _ | .semWait _ _ => True
  | _ => False

end Model

section Lists

theorem idxOf_erase_le (hpx : p ≠ x) (L : List ℕ) : (L.erase x).idxOf p ≤ L.idxOf p := by
  induction L with
  | nil => exact le_rfl
  | cons y L ih =>
      by_cases hyx : y = x
      · subst hyx
        rw [List.erase_cons_head, List.idxOf_cons_ne _ hpx.symm]
        exact Nat.le_succ _
      · rw [List.erase_cons_tail (by simpa using hyx)]
        by_cases hyp : y = p
        · subst hyp
          rw [List.idxOf_cons_self, List.idxOf_cons_self]
        · rw [List.idxOf_cons_ne _ hyp, List.idxOf_cons_ne _ hyp]
          exact Nat.succ_le_succ ih

/-- Each queue is one list. -/
theorem Rings.unique {nx pv : ℕ → ℕ} {qs : QueueId → ProcessQueue} (h : Rings nx pv qs Q)
    (h' : Rings nx pv qs Q') : Q = Q' := by
  funext q
  exact (h.list q).ring.unique (h'.list q).ring

namespace Ahead

theorem refl (X : Set ℕ) (Q : QueueId → List ℕ) : Ahead X Q Q := fun _ _ _ ha => ⟨ha, le_rfl⟩

theorem trans (h : Ahead X Q Q₁) (h' : Ahead X Q₁ Q₂) : Ahead X Q Q₂ := by
  intro pr a hX ha
  obtain ⟨ha₁, hle₁⟩ := h pr a hX ha
  obtain ⟨ha₂, hle₂⟩ := h' pr a hX ha₁
  exact ⟨ha₂, hle₂.trans hle₁⟩

theorem mono (h : Ahead X Q Q') (hXY : X ⊆ Y) : Ahead Y Q Q' :=
  fun pr a hY => h pr a fun hX => hY (hXY hX)

/-- A change of one queue. -/
theorem update_queue (h : ∀ a ∉ X, a ∈ Q q → a ∈ L ∧ L.idxOf a ≤ (Q q).idxOf a) :
    Ahead X Q (update Q q L) := by
  intro pr a hX ha
  by_cases hq : QueueId.ready pr = q
  · subst hq
    rw [Function.update_self]
    exact h a hX ha
  · rw [Function.update_of_ne hq]
    exact ⟨ha, le_rfl⟩

theorem remove (q : QueueId) (x : ℕ) : Ahead {x} Q (update Q q ((Q q).erase x)) :=
  update_queue fun _ hax ha => ⟨(List.mem_erase_of_ne hax).mpr ha, idxOf_erase_le hax _⟩

theorem push (q : QueueId) (x : ℕ) : Ahead {x} Q (update Q q ((Q q).erase x ++ [x])) := by
  refine update_queue fun a hax ha => ?_
  have hmem : a ∈ (Q q).erase x := (List.mem_erase_of_ne hax).mpr ha
  refine ⟨List.mem_append_left _ hmem, ?_⟩
  rw [List.idxOf_append_of_mem hmem]
  exact idxOf_erase_le hax _

end Ahead

end Lists

section Frames

namespace Spares

/-- A change of the other fields. -/
theorem of_links (hnx : k'.queueNext = k.queueNext) (hpv : k'.queuePrev = k.queuePrev)
    (hqs : k'.queues = k.queues) (ht : k'.ticks = k.ticks)
    (hl : k'.lastSwitchTick = k.lastSwitchTick) (hcur : k'.current = k.current)
    (hal : ∀ a ∉ X, k'.allocated a = k.allocated a) (hst : ∀ a ∉ X, k'.state a = k.state a)
    (hpr : ∀ a ∉ X, k'.priority a = k.priority a) (hwt : ∀ a ∉ X, k'.waitTicks a = k.waitTicks a) :
    Spares X k k' := by
  refine ⟨ht, hl, hcur, hal, hst, hpr, hwt, fun Q Q' h h' => ?_⟩
  rw [hnx, hpv, hqs] at h'
  rw [h.unique h']
  exact .refl X Q'

theorem refl (X : Set ℕ) (k : Kernel) : Spares X k k :=
  .of_links rfl rfl rfl rfl rfl rfl (fun _ _ => rfl) (fun _ _ => rfl) (fun _ _ => rfl)
    fun _ _ => rfl

theorem mono (h : Spares X k k') (hXY : X ⊆ Y) : Spares Y k k' where
  ticks := h.ticks
  lastSwitch := h.lastSwitch
  current := h.current
  allocated a ha := h.allocated a fun hX => ha (hXY hX)
  state a ha := h.state a fun hX => ha (hXY hX)
  priority a ha := h.priority a fun hX => ha (hXY hX)
  waitTicks a ha := h.waitTicks a fun hX => ha (hXY hX)
  places Q Q' hQ hQ' := (h.places Q Q' hQ hQ').mono hXY

theorem trans (h : Spares X k k₁) (h' : Spares X k₁ k₂)
    (hmid : Rings k₁.queueNext k₁.queuePrev k₁.queues Q₁) : Spares X k k₂ where
  ticks := h'.ticks.trans h.ticks
  lastSwitch := h'.lastSwitch.trans h.lastSwitch
  current := h'.current.trans h.current
  allocated a ha := (h'.allocated a ha).trans (h.allocated a ha)
  state a ha := (h'.state a ha).trans (h.state a ha)
  priority a ha := (h'.priority a ha).trans (h.priority a ha)
  waitTicks a ha := (h'.waitTicks a ha).trans (h.waitTicks a ha)
  places Q Q' hQ hQ' := (h.places Q Q₁ hQ hmid).trans (h'.places Q₁ Q' hmid hQ')

/-- New links of the queues, with the lists that they stand for. -/
theorem relinked {l : Links} (hQ : Rings k.queueNext k.queuePrev k.queues Q)
    (hl : Rings l.next l.prev l.queues Q₁) (hahead : Ahead X Q Q₁) : Spares X k (k.relink l) := by
  refine ⟨rfl, rfl, rfl, fun _ _ => rfl, fun _ _ => rfl, fun _ _ => rfl, fun _ _ => rfl,
    fun Q₀ Q' h h' => ?_⟩
  rw [h.unique hQ, Rings.unique h' hl]
  exact hahead

theorem setState (k : Kernel) (x : ℕ) (s : ProcessState) (b : Bool) :
    Spares {x} k
      { k with
        state := update k.state x s
        needResched := b } :=
  .of_links rfl rfl rfl rfl rfl rfl (fun _ _ => rfl) (fun _ ha => Function.update_of_ne ha _ _)
    (fun _ _ => rfl) fun _ _ => rfl

theorem remove (h : Rings k.queueNext k.queuePrev k.queues Q)
    (hcall : processQueueRemove k q x = some k') : Spares {x} k k' := by
  obtain ⟨nx, pv, qs, heq, hrings⟩ := processQueueRemove_spec (q := q) (p := x) h
  cases hcall.symm.trans heq
  exact .relinked (l := ⟨nx, pv, qs⟩) h hrings (.remove q x)

theorem push (h : Rings k.queueNext k.queuePrev k.queues Q) (hx : x ≠ 0) (hlt : x < addressCount)
    (hfree : ∀ q', q' ≠ q → x ∉ Q q') (hcall : processQueuePush k q x = some k') :
    Spares {x} k k' := by
  obtain ⟨nx, pv, qs, heq, hrings⟩ := processQueuePush_spec h hx hlt hfree
  cases hcall.symm.trans heq
  exact .relinked (l := ⟨nx, pv, qs⟩) h hrings (.push q x)

theorem readyPush (h : Rings k.queueNext k.queuePrev k.queues Q) (hx : x ≠ 0)
    (hlt : x < addressCount) (hfree : ∀ q, q ≠ .ready (k.priority x) → x ∉ Q q) (hcall : readyQueuePush k x = some k') :
    Spares {x} k k' := by
  rw [readyQueuePush, if_neg hx] at hcall
  exact .push h hx hlt hfree hcall

/-- The request for a context switch is not looked at. -/
theorem resched (h : Spares X k k') (b : Bool) : Spares X k { k' with needResched := b } :=
  ⟨h.ticks, h.lastSwitch, h.current, h.allocated, h.state, h.priority, h.waitTicks, h.places⟩

end Spares

end Frames

section Operations

/-- `scheduler_unblock_process` works on the process that it makes ready. -/
theorem QueuesAgree.unblock_spares (h : QueuesAgree k c Q) (ha : k.allocated x = true)
    (hs : k.state x ≠ .finished) (hcall : schedulerUnblockProcess k x = some k') :
    Spares {x} k k' := by
  obtain ⟨hx, hlt⟩ := h.valid x ha
  rw [schedulerUnblockProcess, if_neg hx, Option.bind_eq_bind] at hcall
  obtain ⟨k₁, hremove, hrest⟩ := Option.bind_eq_some_iff.mp hcall
  obtain ⟨k₂, hpush, hlast⟩ := Option.bind_eq_some_iff.mp hrest
  have hout : ∃ Q₁, Rings k₁.queueNext k₁.queuePrev k₁.queues Q₁ ∧ Spares {x} k k₁ ∧
      ∀ q, q ≠ .ready (k₁.priority x) → x ∉ Q₁ q := by
    split at hremove
    · rename_i hb
      have hnodup := (h.rings.list .blocked).nodup
      have hspares := Spares.remove h.rings hremove
      obtain ⟨nx, pv, qs, heq, hrings⟩ := processQueueRemove_spec (q := .blocked) (p := x) h.rings
      cases hremove.symm.trans heq
      refine ⟨_, hrings, hspares, fun q _ hm => ?_⟩
      rw [mem_lift hnodup] at hm
      by_cases hq : q = .blocked
      · exact hm.2 ⟨rfl, hq⟩
      · exact h.free_of_blocked hb hq hm.1
    · rename_i hb
      cases hremove
      refine ⟨Q, h.rings, .refl _ k, fun q hq hm => ?_⟩
      cases q with
      | ready i => exact hq (congrArg _ ((h.members.ready i x (by simp)).mp hm).2.2.symm)
      | blocked => exact hb (h.of_mem hm).2
      | finished => exact hs (h.of_mem hm).2
  obtain ⟨Q₁, hrings, hspares, hfree⟩ := hout
  have hready := hspares.trans (.setState k₁ x .ready k₁.needResched) hrings
  have hpushed := hready.trans (.readyPush hrings hx hlt hfree hpush) hrings
  split at hlast
  all_goals cases hlast
  · exact hpushed.resched true
  · exact hpushed

/-- The remaining waiters are still awake when the first one has been made ready. -/
theorem WaitersAwake.tail {w : ℕ} {l : Links} (hL : WaitersAwake k p (w :: L)) :
    WaitersAwake ({ k with
      waitersHead := update k.waitersHead p (k.waiterNext w)
      waiterNext := update k.waiterNext w 0
      waitingOnPid := update k.waitingOnPid w 0
      state := update k.state w .ready }.relink l) p L := by
  obtain ⟨-, -, hrest⟩ := hL.chain
  have hnot : w ∉ L := (List.nodup_cons.mp hL.chain.nodup).1
  have hne : ∀ v ∈ L, v ≠ w := fun v hv he => hnot (he ▸ hv)
  refine ⟨?_, fun v hv => ?_⟩
  · dsimp only
    rw [Function.update_self]
    exact hrest.congr fun v hv => Function.update_of_ne (hne v hv) _ _
  · dsimp only
    rw [Function.update_of_ne (hne v hv)]
    exact hL.awake v (List.mem_cons_of_mem _ hv)

/-- Waking the waiters of a process works on the waiters. -/
theorem QueuesAgree.wakeWaiters_spares (n : ℕ) (h : QueuesAgree k c Q) (hL : WaitersAwake k p L)
    (hcall : wakeWaiters p n k = some k') : Spares {a | a ∈ L} k k' := by
  induction L generalizing k Q n with
  | nil =>
      cases n with
      | zero => cases hcall
      | succ n =>
          have h0 : k.waitersHead p = 0 := hL.chain
          simp only [wakeWaiters, h0, if_pos, Option.some_inj] at hcall
          exact hcall ▸ .refl _ k
  | cons w L ih =>
      cases n with
      | zero => cases hcall
      | succ n =>
          obtain ⟨hhead, hw0, -⟩ := hL.chain
          obtain ⟨-, hwa, hws⟩ := hL.awake w List.mem_cons_self
          rw [wakeWaiters] at hcall
          simp only [hhead, if_neg hw0, Option.bind_eq_bind] at hcall
          obtain ⟨k₁, hpush, hrest⟩ := Option.bind_eq_some_iff.mp hcall
          have hk : QueuesAgree
              { k with
                waitersHead := update k.waitersHead p (k.waiterNext w)
                waiterNext := update k.waiterNext w 0
                waitingOnPid := update k.waitingOnPid w 0 } c Q :=
            ⟨h.rings, h.members, h.valid, h.idle, h.current, h.terminals, h.noPipes⟩
          have hfree := h.free_of_awake hws
          have hready : Spares {w} k
              { k with
                waitersHead := update k.waitersHead p (k.waiterNext w)
                waiterNext := update k.waiterNext w 0
                waitingOnPid := update k.waitingOnPid w 0
                state := update k.state w .ready } :=
            .of_links rfl rfl rfl rfl rfl rfl (fun _ _ => rfl)
              (fun _ ha => Function.update_of_ne ha _ _) (fun _ _ => rfl) fun _ _ => rfl
          have hfirst := hready.trans
            (.readyPush h.rings hw0 (h.valid w hwa).2 hfree hpush) h.rings
          obtain ⟨l, Q', heq, hagree, -, -⟩ := hk.makeReady hwa hfree
          cases hpush.symm.trans heq
          have hothers := ih n hagree hL.tail hrest
          exact (hfirst.mono (by simp)).trans (hothers.mono fun a ha => List.mem_cons_of_mem w ha)
            hagree.rings

theorem QueuesAgree.changePriority_spares (h : QueuesAgree k c Q) (ha : k.allocated x = true)
    {pr : Priority} (hcall : changePriority k x pr = some k') : Spares {x} k k' := by
  obtain ⟨hx, hlt⟩ := h.valid x ha
  rw [changePriority, Option.bind_eq_bind] at hcall
  obtain ⟨k₁, hremove, hrest⟩ := Option.bind_eq_some_iff.mp hcall
  obtain ⟨k₂, hpush, hlast⟩ := Option.bind_eq_some_iff.mp hrest
  suffices hmoved : Spares {x} k k₂ by
    split at hlast
    all_goals cases hlast
    · exact hmoved.resched true
    · exact hmoved
  have hset (k₁ : Kernel) : Spares {x} k₁
      { k₁ with
        priority := update k₁.priority x pr
        basePriority := update k₁.basePriority x pr
        waitTicks := update k₁.waitTicks x 0 } :=
    .of_links rfl rfl rfl rfl rfl rfl (fun _ _ => rfl) (fun _ _ => rfl)
      (fun _ ha => Function.update_of_ne ha _ _) fun _ ha => Function.update_of_ne ha _ _
  by_cases hs : k.state x = .ready
  · rw [if_pos hs] at hremove
    have hnodup := (h.rings.list (.ready (k.priority x))).nodup
    have hspares := Spares.remove h.rings hremove
    obtain ⟨nx, pv, qs, heq, hrings⟩ :=
      processQueueRemove_spec (q := .ready (k.priority x)) (p := x) h.rings
    cases hremove.symm.trans heq
    rw [if_pos hs] at hpush
    refine (hspares.trans (hset _) hrings).trans
      (.readyPush hrings hx hlt (fun q _ hm => ?_) hpush) hrings
    rw [mem_lift hnodup] at hm
    by_cases hq : q = .ready (k.priority x)
    · exact hm.2 ⟨rfl, hq⟩
    · exact h.free_of_ready hs hq hm.1
  · rw [if_neg hs] at hremove
    cases hremove
    rw [if_neg hs] at hpush
    cases hpush
    exact hset k

theorem QueuesAgree.block_spares (h : QueuesAgree k k.current Q) {pid r : ℕ}
    (hcall : schedulerBlockByPid k pid = some (r, k')) :
    Spares {p | schedulerFindByPid k pid = some p} k k' := by
  obtain ⟨p, hfind, hp⟩ := schedulerFindByPid_spec h pid
  have hsub : {p} ⊆ {p | schedulerFindByPid k pid = some p} := fun a ha => by
    rw [Set.mem_singleton_iff.mp ha]
    exact hfind
  rw [schedulerBlockByPid, hfind, Option.bind_eq_bind, Option.bind_some] at hcall
  split at hcall
  · cases hcall
    exact .refl _ k
  rename_i hnone
  obtain ⟨ha, -⟩ := hp.resolve_left (not_or.mp hnone).1
  obtain ⟨hx, hlt⟩ := h.valid p ha
  split at hcall
  · rename_i hcur
    subst hcur
    cases hcall
    exact (Spares.setState k k.current .blocked true).mono hsub
  split at hcall
  · rename_i hs
    rw [Option.bind_eq_bind] at hcall
    obtain ⟨k₁, hremove, hrest⟩ := Option.bind_eq_some_iff.mp hcall
    obtain ⟨k₂, hpush, hlast⟩ := Option.bind_eq_some_iff.mp hrest
    cases hlast
    have hnodup := (h.rings.list (.ready (k.priority p))).nodup
    have hspares := Spares.remove h.rings hremove
    obtain ⟨nx, pv, qs, heq, hrings⟩ :=
      processQueueRemove_spec (q := .ready (k.priority p)) (p := p) h.rings
    cases hremove.symm.trans heq
    have hblocked := hspares.trans (.setState _ p .blocked k.needResched) hrings
    have hpushed := hblocked.trans (.push hrings hx hlt (fun q _ hm => ?_) hpush) hrings
    · exact (hpushed.resched true).mono hsub
    rw [mem_lift hnodup] at hm
    by_cases hq : q = .ready (k.priority p)
    · exact hm.2 ⟨rfl, hq⟩
    · exact h.free_of_ready hs hq hm.1
  · cases hcall
    exact .refl _ k

/-- `scheduler_kill_by_pid` works on the killed process and its waiters. -/
theorem QueuesAgree.kill_spares (h : QueuesAgree k k.current Q) (ha : k.allocated x = true)
    (hidle : x ≠ k.idleP) (hL : WaitersAwake k x L) (hcall : killProcess k x = some k') :
    Spares {a | a = x ∨ a ∈ L} k k' := by
  obtain ⟨hx, hlt⟩ := h.valid x ha
  have hnot : x ∉ L := fun hm => (hL.awake _ hm).1 rfl
  rw [killProcess, processCloseFds_terminal (h.terminals x), Option.bind_eq_bind,
    Option.bind_some] at hcall
  have hfg : ∃ fg, (if parentTakesForeground k x then
      { k with isForeground := update k.isForeground (k.parent x) true } else k) =
        { k with isForeground := fg } := by
    split
    · exact ⟨_, rfl⟩
    · exact ⟨k.isForeground, rfl⟩
  obtain ⟨fg, hfg⟩ := hfg
  simp only [hfg] at hcall
  obtain ⟨k₁, hremove, hrest⟩ := Option.bind_eq_some_iff.mp hcall
  obtain ⟨k₂, hwake, hrest⟩ := Option.bind_eq_some_iff.mp hrest
  obtain ⟨k₃, hpush, hlast⟩ := Option.bind_eq_some_iff.mp hrest
  have hk : QueuesAgree { k with isForeground := fg } k.current Q :=
    ⟨h.rings, h.members, h.valid, h.idle, h.current, h.terminals, h.noPipes⟩
  have hsame : Spares {x} k { k with isForeground := fg } :=
    .of_links rfl rfl rfl rfl rfl rfl (fun _ _ => rfl) (fun _ _ => rfl) (fun _ _ => rfl)
    fun _ _ => rfl
  have hremoved : Spares {x} k k₁ := by
    split at hremove
    · exact hsame.trans (.remove hk.rings hremove) hk.rings
    · split at hremove
      · exact hsame.trans (.remove hk.rings hremove) hk.rings
      · cases hremove
        exact hsame
  obtain ⟨l₁, Q₁, heq₁, hagree₁⟩ := hk.removeKilled ha hidle
  cases hremove.symm.trans heq₁
  have hfinished := hremoved.trans (.setState _ x .finished k.needResched) hagree₁.rings
  have hL₁ : WaitersAwake ({ k with
      isForeground := fg
      state := update k.state x .finished }.relink l₁) x L := by
    refine ⟨hL.chain, fun w hw => ?_⟩
    obtain ⟨hwx, hwa, hws⟩ := hL.awake w hw
    dsimp only
    rw [Function.update_of_ne hwx]
    exact ⟨hwx, hwa, hws⟩
  obtain ⟨l₂, Q₂, heq₂, hagree₂, -, -⟩ := wakeWaiters_spec addressCount hagree₁ hL₁
    (hL.length_lt h)
  have hwoken := hagree₁.wakeWaiters_spares addressCount hL₁ hwake
  cases hwake.symm.trans heq₂
  have hstate : setAll L .ready (update k.state x .finished) x = .finished := by
    rw [setAll_of_not_mem _ _ hnot, Function.update_self]
  have hpushed : Spares {x} _ k₃ :=
    .push hagree₂.rings hx hlt (fun q hq => hagree₂.free_of_finished hstate hq) hpush
  have hsub : ({x} : Set ℕ) ⊆ {a | a = x ∨ a ∈ L} := fun a ha => .inl ha
  have hall := ((hfinished.mono hsub).trans (hwoken.mono fun a ha => .inr ha) hagree₁.rings).trans
    (hpushed.mono hsub) hagree₂.rings
  split at hlast
  all_goals cases hlast
  · exact hall.resched true
  · exact hall

/-- `scheduler_spawn_process` works on the new process. -/
theorem QueuesAgree.spawn_spares (h : QueuesAgree k c Q) {r : SpawnRequest} (hr : ValidRequest k r)
    (hcall : schedulerSpawnProcess k r = some (x, k')) : Spares {r.pcb} k k' := by
  have hclear (hpcb : r.pcb ≠ 0) : Rings (update k.queueNext r.pcb 0) (update k.queuePrev r.pcb 0)
      k.queues Q := by
    refine h.rings.update_links (fun q hm => ?_) 0 0
    have hfresh := (hr.1 hpcb).2
    rw [(h.of_mem hm).1] at hfresh
    cases hfresh
  rw [schedulerSpawnProcess, Option.bind_eq_bind] at hcall
  obtain ⟨⟨y, k₁⟩, hcreate, hrest⟩ := Option.bind_eq_some_iff.mp hcall
  rcases processCreate_spec h.terminals h.noPipes r with heq | ⟨hpcb, heq⟩ | ⟨hpcb, fdp, heq⟩
  · cases hcreate.symm.trans heq
    cases hrest
    exact .refl _ k
  · cases hcreate.symm.trans heq
    cases hrest
    refine ⟨rfl, rfl, rfl, fun _ _ => rfl, fun a ha => Function.update_of_ne ha _ _,
      fun a ha => Function.update_of_ne ha _ _, fun a ha => Function.update_of_ne ha _ _,
      fun Q₀ Q' hQ hQ' => ?_⟩
    rw [hQ.unique h.rings, Rings.unique hQ' (hclear hpcb)]
    exact .refl _ Q
  · obtain ⟨hlt, hfresh⟩ := hr.1 hpcb
    cases hcreate.symm.trans heq
    have hidle : r.pcb ≠ k.idleP := by
      intro he
      by_cases hi : k.idleP = 0
      · exact hpcb (he.trans hi)
      · rw [he, (h.idle hi).1] at hfresh
        cases hfresh
    simp only [Option.bind_eq_bind, schedulerAddProcess, hpcb, hidle, or_self, if_false,
      Function.update_idem] at hrest
    obtain ⟨k₂, hadd, hlast⟩ := Option.bind_eq_some_iff.mp hrest
    cases hlast
    have hmade : Spares {r.pcb} k (createdKernel k r (clampPriority r.priority) fdp) := by
      refine ⟨rfl, rfl, rfl, fun a ha => Function.update_of_ne ha _ _,
        fun a ha => Function.update_of_ne ha _ _, fun a ha => Function.update_of_ne ha _ _,
        fun a ha => Function.update_of_ne ha _ _, fun Q₀ Q' hQ hQ' => ?_⟩
      rw [hQ.unique h.rings, Rings.unique hQ' (hclear hpcb)]
      exact .refl _ Q
    refine hmade.trans (.readyPush (hclear hpcb) hpcb hlt (fun q _ hm => ?_) hadd) (hclear hpcb)
    rw [(h.of_mem hm).1] at hfresh
    cases hfresh

/-- The hand-off of a token works on the first waiter. -/
theorem QueuesAgree.release_spares (h : QueuesAgree k c Q) {i w : ℕ}
    (hw : (k.semaphores i).waitHead = w) (hw0 : w ≠ 0) (hwake : Wakeable k w)
    (hcall : releaseWaiter (dequeueWaiter k i).2 w = some k') : Spares {w} k k' := by
  have hdeq : ∃ sems swn, (dequeueWaiter k i).2 =
      { k with
        semaphores := sems
        semWaiterNext := swn } := by
    simp only [dequeueWaiter, hw, if_neg hw0]
    exact ⟨_, _, rfl⟩
  obtain ⟨sems, swn, hdeq⟩ := hdeq
  rw [hdeq] at hcall
  have hk := h.withSemaphores sems (update k.waitingOnSem w 0) swn k.nextSemId
  have hspares := hk.unblock_spares hwake.1 hwake.2 hcall
  exact ⟨hspares.ticks, hspares.lastSwitch, hspares.current, hspares.allocated, hspares.state,
    hspares.priority, hspares.waitTicks, hspares.places⟩

/-- The loop of `sem_set_by_id` works on the waiters that it hands tokens. -/
theorem QueuesAgree.awakenLoop_spares (n : ℕ) (h : QueuesAgree k c Q) {i : ℕ} {ws : List ℕ}
    (hw : ∀ w ∈ waitersFrom k.semWaiterNext n (k.semaphores i).waitHead, Wakeable k w)
    (hcall : awakenLoop i n k = some (ws, k')) :
    Spares {w | w ∈ waitersFrom k.semWaiterNext n (k.semaphores i).waitHead} k k' := by
  induction n generalizing k Q ws with
  | zero =>
      cases hcall
      exact .refl _ _
  | succ n ih =>
      by_cases hhead : (k.semaphores i).waitHead = 0
      · simp only [awakenLoop, dequeueWaiter, hhead, if_pos, Option.some_inj,
          Prod.mk.injEq] at hcall
        exact hcall.2 ▸ .refl _ k
      · have hlist : waitersFrom k.semWaiterNext (n + 1) (k.semaphores i).waitHead =
            (k.semaphores i).waitHead :: waitersFrom k.semWaiterNext n
              (k.semWaiterNext (k.semaphores i).waitHead) := by
          rw [waitersFrom, if_neg hhead]
        have hfirst := hw _ (hlist ▸ List.mem_cons_self)
        obtain ⟨k₁, Q₁, hdeq, hrel, hagree, hcore⟩ := releaseFirst_spec h rfl hhead hfirst
        rw [awakenLoop] at hcall
        simp only [hdeq, if_neg hhead, Option.bind_eq_bind] at hcall
        rw [hrel, Option.bind_some] at hcall
        obtain ⟨⟨ws', k₂⟩, hrest, hlast⟩ := Option.bind_eq_some_iff.mp hcall
        cases hlast
        have hold : ∀ w ∈ waitersFrom k₁.semWaiterNext n (k₁.semaphores i).waitHead,
            w ∈ waitersFrom k.semWaiterNext (n + 1) (k.semaphores i).waitHead := by
          intro w hm
          rw [hcore.semWaiterNext, hcore.semaphores] at hm
          simp only [Function.update_self] at hm
          rw [hlist]
          exact List.mem_cons_of_mem _ (mem_waitersFrom_update hm)
        have hothers := ih hagree (fun w hm => ?_) hrest
        · have hspares := h.release_spares rfl hhead hfirst hrel
          refine (hspares.mono ?_).trans (hothers.mono hold) hagree.rings
          rintro a rfl
          exact hlist ▸ List.mem_cons_self
        · obtain ⟨hal, hst⟩ := hw w (hold w hm)
          refine ⟨by rw [hcore.allocated]; exact hal, ?_⟩
          rw [hcore.state]
          show update k.state _ .ready w ≠ .finished
          rw [Function.update_apply]
          split
          · decide
          · exact hst

end Operations

section Calls

/-- The nodes of a chain, in order. -/
theorem Chain.waitersFrom {nx : ℕ → ℕ} {w n : ℕ} (h : Chain nx 0 w L) (hn : L.length < n) :
    SoKernel.waitersFrom nx n w = L := by
  induction L generalizing w n with
  | nil =>
      cases n with
      | zero => rfl
      | succ n => exact if_pos h
  | cons x L ih =>
      rw [List.length_cons] at hn
      obtain ⟨m, rfl⟩ : ∃ m, n = m + 1 := ⟨n - 1, by omega⟩
      obtain ⟨rfl, hw, hrest⟩ := h
      rw [SoKernel.waitersFrom, if_neg hw, ih hrest (by omega)]

theorem exec_blockCurrent_spares {o : Outcome} (hcall : exec k .blockCurrent = some o) :
    Spares {k.current} k o.kernel := by
  cases hcall
  show Spares _ k (schedulerBlockCurrent k)
  rw [schedulerBlockCurrent]
  split
  · exact .refl _ k
  · exact .setState k k.current .blocked true

theorem exec_finishCurrent_spares (h : QueuesAgree k k.current Q) {o : Outcome}
    (hs : QueueSafe k .finishCurrent) (hcall : exec k .finishCurrent = some o) :
    Spares {k.current} k o.kernel := by
  obtain ⟨k', hfinish, rfl⟩ := Option.map_eq_some_iff.mp hcall
  obtain ⟨k'', heq, -, hcases⟩ := schedulerFinishCurrent_spec h hs
  cases hfinish.symm.trans heq
  rcases hcases with rfl | ⟨-, -, rfl⟩
  · exact .refl _ _
  · exact .setState k k.current .finished true

theorem exec_killByPid_spares (h : QueuesAgree k k.current Q) {pid : ℕ} {o : Outcome}
    (hs : QueueSafe k (.killByPid pid)) (hcall : exec k (.killByPid pid) = some o) :
    Spares (targets k (.killByPid pid)) k o.kernel := by
  obtain ⟨⟨r, k'⟩, hkill, rfl⟩ := Option.map_eq_some_iff.mp hcall
  obtain ⟨p, hfind, hp⟩ := schedulerFindByPid_spec h pid
  rw [schedulerKillByPid, hfind, Option.bind_eq_bind, Option.bind_some] at hkill
  split at hkill
  · cases hkill
    exact .refl _ k
  · rename_i hp0
    obtain ⟨k₁, hkilled, hlast⟩ := Option.bind_eq_some_iff.mp hkill
    cases hlast
    obtain ⟨hidle, L, hL⟩ := hs p hfind hp0
    refine (h.kill_spares (hp.resolve_left hp0).1 hidle hL hkilled).mono fun a ha => ⟨p, hfind, ?_⟩
    rwa [Chain.waitersFrom hL.chain (hL.length_lt h)]

theorem exec_unblockByPid_spares (h : QueuesAgree k k.current Q) {pid : ℕ} {o : Outcome}
    (hs : QueueSafe k (.unblockByPid pid)) (hcall : exec k (.unblockByPid pid) = some o) :
    Spares (targets k (.unblockByPid pid)) k o.kernel := by
  obtain ⟨⟨r, k'⟩, hunblock, rfl⟩ := Option.map_eq_some_iff.mp hcall
  obtain ⟨p, hfind, -⟩ := schedulerFindByPid_spec h pid
  rw [schedulerUnblockByPid, hfind, Option.bind_eq_bind, Option.bind_some] at hunblock
  split at hunblock
  · cases hunblock
    exact .refl _ k
  · rename_i hp0
    obtain ⟨k₁, hready, hlast⟩ := Option.bind_eq_some_iff.mp hunblock
    cases hlast
    obtain ⟨ha, hf⟩ := (hs p hfind).resolve_left hp0
    refine (h.unblock_spares ha hf hready).mono ?_
    rintro a rfl
    exact hfind

theorem exec_setPriority_spares (h : QueuesAgree k k.current Q) {pid n : ℕ} {o : Outcome}
    (hcall : exec k (.setPriority pid n) = some o) :
    Spares (targets k (.setPriority pid n)) k o.kernel := by
  obtain ⟨⟨r, k'⟩, hset, rfl⟩ := Option.map_eq_some_iff.mp hcall
  obtain ⟨p, hfind, hp⟩ := schedulerFindByPid_spec h pid
  rw [schedulerSetPriority, hfind, Option.bind_eq_bind, Option.bind_some] at hset
  split at hset
  · cases hset
    exact .refl _ k
  rename_i hnone
  split at hset
  · cases hset
    exact .refl _ k
  · obtain ⟨k₁, hchange, hlast⟩ := Option.bind_eq_some_iff.mp hset
    cases hlast
    obtain ⟨ha, -⟩ := hp.resolve_left (not_or.mp hnone).1
    refine (h.changePriority_spares ha hchange).mono ?_
    rintro a rfl
    exact hfind

theorem exec_createProcess_spares (h : QueuesAgree k k.current Q) {r : SpawnRequest} {o : Outcome}
    (hs : QueueSafe k (.createProcess r)) (hcall : exec k (.createProcess r) = some o) :
    Spares {r.pcb} k o.kernel := by
  obtain ⟨⟨pid, k'⟩, hcreate, rfl⟩ := Option.map_eq_some_iff.mp hcall
  have hfg (k : Kernel) (b : Bool) : ∃ fg, (if r.isForeground = true ∧ k.current ≠ 0 then
      { k with isForeground := update k.isForeground k.current b } else k) =
        { k with isForeground := fg } := by
    split
    · exact ⟨_, rfl⟩
    · exact ⟨k.isForeground, rfl⟩
  have hkept {k₁ : Kernel} (fg : ℕ → Bool) (hspares : Spares {r.pcb} k k₁) :
      Spares {r.pcb} k { k₁ with isForeground := fg } :=
    ⟨hspares.ticks, hspares.lastSwitch, hspares.current, hspares.allocated, hspares.state,
      hspares.priority, hspares.waitTicks, hspares.places⟩
  obtain ⟨fg, heq⟩ := hfg k false
  rw [syscallCreateProcess] at hcreate
  simp only [heq, Option.bind_eq_bind] at hcreate
  obtain ⟨⟨p, k₁⟩, hspawn, hlast⟩ := Option.bind_eq_some_iff.mp hcreate
  have hs' : ValidRequest { k with isForeground := fg }
      { r with parent := k.current, priority := r.priority % 2 ^ 8 } := hs
  have hspawned := (h.withForeground fg).spawn_spares hs' hspawn
  have hspares : Spares {r.pcb} k k₁ :=
    ⟨hspawned.ticks, hspawned.lastSwitch, hspawned.current, hspawned.allocated, hspawned.state,
      hspawned.priority, hspawned.waitTicks, hspawned.places⟩
  dsimp only at hlast
  split at hlast
  · cases hlast
    show Spares _ k (if r.isForeground = true ∧ k.current ≠ 0 then _ else k₁)
    split
    · exact hkept _ hspares
    · exact hspares
  · cases hlast
    exact hspares

/-- A call without a context switch works on its targets only: everybody else keeps its state, its
priority and its waiting time, and nobody comes to stand before it. -/
theorem exec_spares (h : QueuesAgree k k.current Q) {call : Call} {o : Outcome}
    (hs : QueueSafe k call) (hplain : ¬Switches call) (hcall : exec k call = some o) :
    Spares (targets k call) k o.kernel := by
  have hsems {sems : ℕ → Semaphore} {n : ℕ} : Spares (∅ : Set ℕ) k
      { k with
        semaphores := sems
        nextSemId := n } :=
    .of_links rfl rfl rfl rfl rfl rfl (fun _ _ => rfl) (fun _ _ => rfl) (fun _ _ => rfl)
    fun _ _ => rfl
  cases call with
  | spawn r =>
      obtain ⟨⟨x, k'⟩, hspawn, rfl⟩ := Option.map_eq_some_iff.mp hcall
      exact h.spawn_spares hs hspawn
  | createProcess r => exact exec_createProcess_spares h hs hcall
  | blockCurrent => exact exec_blockCurrent_spares hcall
  | finishCurrent => exact exec_finishCurrent_spares h hs hcall
  | unblockProcess p =>
      obtain ⟨k', hunblock, rfl⟩ := Option.map_eq_some_iff.mp hcall
      rcases hs with rfl | ⟨ha, hf⟩
      · cases hunblock
        exact .refl _ k
      · exact h.unblock_spares ha hf hunblock
  | unblockByPid pid => exact exec_unblockByPid_spares h hs hcall
  | blockByPid pid =>
      obtain ⟨⟨r, k'⟩, hblock, rfl⟩ := Option.map_eq_some_iff.mp hcall
      exact h.block_spares hblock
  | killByPid pid => exact exec_killByPid_spares h hs hcall
  | setPriority pid n => exact exec_setPriority_spares h hcall
  | waitReturn target =>
      cases hcall
      show Spares _ k (syscallWaitReturn k target)
      rw [syscallWaitReturn]
      split
      · exact .of_links rfl rfl rfl rfl rfl rfl (fun _ _ => rfl) (fun _ _ => rfl) (fun _ _ => rfl)
          fun _ _ => rfl
      · exact .refl _ k
  | keyboardInit =>
      cases hcall
      show Spares _ k (keyboardInit k)
      obtain ⟨sems, n, id, heq⟩ := keyboardInit_shape k
      rw [heq]
      exact .of_links rfl rfl rfl rfl rfl rfl (fun _ _ => rfl) (fun _ _ => rfl) (fun _ _ => rfl)
        fun _ _ => rfl
  | semAlloc v =>
      cases hcall
      obtain ⟨sems, n, heq⟩ := semAlloc_shape k v
      show Spares _ k (semAlloc k v).2
      rw [heq]
      exact hsems
  | semOpen id =>
      cases hcall
      obtain ⟨sems, heq⟩ := semOpenById_shape k id
      show Spares _ k (semOpenById k id).2
      rw [heq]
      exact hsems (n := k.nextSemId)
  | semClose id =>
      cases hcall
      obtain ⟨sems, heq⟩ := semCloseById_shape k id
      show Spares _ k (semCloseById k id).2
      rw [heq]
      exact hsems (n := k.nextSemId)
  | semSignal id =>
      obtain ⟨⟨r, w, k'⟩, hsignal, rfl⟩ := Option.map_eq_some_iff.mp hcall
      rw [semSignalById] at hsignal
      cases hget : semGetById k id with
      | none =>
          simp only [hget, Option.some_inj, Prod.mk.injEq] at hsignal
          exact hsignal.2.2 ▸ .refl _ k
      | some i =>
          by_cases hhead : (k.semaphores i).waitHead = 0
          · simp only [hget, dequeueWaiter, hhead, if_pos, ne_eq, not_true, if_false,
              Option.some_inj, Prod.mk.injEq] at hsignal
            exact hsignal.2.2 ▸ (hsems (n := k.nextSemId)).mono (Set.empty_subset _)
          · have hfirst : (k.semaphores i).waitHead ∈
                waitersFrom k.semWaiterNext 1 (k.semaphores i).waitHead := by
              simp [waitersFrom, hhead]
            have hwake := hs i hget _ hfirst
            obtain ⟨k₁, Q₁, hdeq, hrel, -, -⟩ := releaseFirst_spec h rfl hhead hwake
            simp only [hget, hdeq, ne_eq, hhead, not_false_eq_true, if_true, hrel,
              Option.bind_eq_bind, Option.bind_some, Option.some_inj, Prod.mk.injEq] at hsignal
            rw [← hsignal.2.2]
            refine (h.release_spares rfl hhead hwake hrel).mono ?_
            rintro a rfl
            exact ⟨i, hget, hfirst⟩
  | semSet id v =>
      obtain ⟨⟨r, ws, k'⟩, hset, rfl⟩ := Option.map_eq_some_iff.mp hcall
      rw [semSetById] at hset
      cases hget : semGetById k id with
      | none =>
          simp only [hget, Option.some_inj, Prod.mk.injEq] at hset
          exact hset.2.2 ▸ .refl _ k
      | some i =>
          simp only [hget] at hset
          split at hset
          · simp only [Option.some_inj, Prod.mk.injEq] at hset
            exact hset.2.2 ▸ .refl _ k
          · rw [Option.bind_eq_bind] at hset
            obtain ⟨⟨ws', k₁⟩, hloop, hlast⟩ := Option.bind_eq_some_iff.mp hset
            cases hlast
            have hspares := (h.awakenLoop_spares v.toNat (hs i hget) hloop).mono
              (fun w hw => (⟨i, hget, hw⟩ : w ∈ targets k (.semSet id v)))
            exact ⟨hspares.ticks, hspares.lastSwitch, hspares.current, hspares.allocated,
              hspares.state, hspares.priority, hspares.waitTicks, hspares.places⟩
  | tick | yield | wait | semWait => exact absurd trivial hplain

end Calls
end SoKernel
